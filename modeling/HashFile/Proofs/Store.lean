import HashFile.Proofs.Split
import HashFile.Proofs.Flush
import HashFile.Proofs.Lookup

/-!
# Storing and deleting keep the index sound

A delete finds the key, empties its slot and closes the hole (`Bucket.remove`),
frees the record and syncs in sync mode. A store finds the key too: a key
already stored keeps its slot and gets a new record (in place when the sizes
agree, else at a fresh allocation with the old one freed); a new key gets a
bucket with room (`makeRoom`, splitting as needed), a fresh record, and a slot
on its probe path.

Each keeps the index sound and changes what lookups see exactly as a finite map
changes: a delete erases the key (`Sound.delete`), a store binds it to the new
value (`Sound.store`), and every other key keeps its value.

Between the allocation and the slot update the index is not sound: a record
freed for its replacement is still named by its slot. A store is therefore
taken apart where the record's place is chosen (`Sound.chooseRecord`): the
index is then `Placing` the record, its allocation state laid out for the new
record and the records kept, and placing it (`Placing.place`) makes the image
agree with exactly that.
-/
namespace HashFile

namespace Bucket

theorem slot_mem_or_vacant (b : Bucket) (i : Nat) : b.slot i ∈ b.slots ∨ b.slot i = Slot.vacant := by
  by_cases hi : i < b.size
  · left
    simp only [slot, Array.getD_eq_getD_getElem?, Array.getElem?_eq_getElem hi, Option.getD_some]
    exact Array.getElem_mem hi
  · exact .inr (slot_of_size_le (Nat.le_of_not_lt hi))

/-- The shift-back scan only moves slots of the bucket and empties others. -/
theorem mem_slots_shiftBack {b : Bucket} {hole pos fuel : Nat} {x : Slot}
    (hx : x ∈ (b.shiftBack hole pos fuel).slots) : x ∈ b.slots ∨ x = Slot.vacant := by
  induction fuel generalizing b hole pos with
  | zero => exact .inl hx
  | succ fuel ih =>
    rw [shiftBack] at hx
    split at hx
    · exact .inl hx
    · dsimp only at hx
      split at hx
      · rcases ih hx with hx | hx
        · rcases Array.mem_or_eq_of_mem_setIfInBounds hx with hx | rfl
          · rcases Array.mem_or_eq_of_mem_setIfInBounds hx with hx | rfl
            · exact .inl hx
            · exact b.slot_mem_or_vacant pos
          · exact .inr rfl
        · exact .inr hx
      · exact ih hx

theorem mem_slots_remove {b : Bucket} {i : Nat} {x : Slot} (hx : x ∈ (b.remove i).2.slots) :
    x ∈ b.slots ∨ x = Slot.vacant := by
  unfold remove at hx
  dsimp only at hx
  split at hx
  · exact .inl hx
  · rcases mem_slots_shiftBack hx with hx | hx
    · rcases Array.mem_or_eq_of_mem_setIfInBounds hx with hx | rfl
      · exact .inl hx
      · exact .inr rfl
    · exact .inr hx

/-- Removing an entry keeps a bucket's fields within the block format. -/
theorem Fits.remove {b : Bucket} {elems : Nat} (hw : b.WF) (hb : b.Fits elems) (i : Nat) :
    (b.remove i).2.Fits elems := by
  by_cases hv : (b.slot i).isVacant = true
  · rw [show b.remove i = (b.slot i, b) by simp [Bucket.remove, hv]]
    exact hb
  have hi : i < b.size := by
    by_contra h
    rw [slot_of_size_le (Nat.le_of_not_lt h)] at hv
    exact hv isVacant_vacant
  obtain ⟨-, hw', hsize, hdepth, hperm⟩ := remove_spec hw hi (by simpa using hv)
  have hlen : (b.remove i).2.count + 1 = b.count := by
    have := hperm.length_eq
    simp only [List.length_append, List.length_singleton, length_entries] at this
    rw [hw'.count_eq, hw.count_eq, this]
  refine ⟨?_, by rw [hdepth]; exact hb.depth, by have := hb.count; omega, hw'.count_eq.symm,
    fun x hx => ?_⟩
  · show (b.remove i).2.size = elems
    rw [hsize]
    exact hb.size
  · rcases mem_slots_remove hx with hx | rfl
    · exact hb.slots x hx
    · exact Slot.fits_vacant

/-- Putting an entry with the same hash into an occupied slot keeps the probe
runs, so a well-formed bucket stays well formed. -/
theorem wf_set {b : Bucket} (hw : b.WF) {i : Nat} (hi : i < b.size)
    (hv : (b.slot i).isVacant = false) {e : Slot} (hh : e.hash = (b.slot i).hash) :
    ({ b with slots := b.slots.set! i e } : Bucket).WF := by
  have hsize := size_set b i e
  have hslot := slot_set b b.depth b.count i e
  have hev : e.isVacant = false := by simp only [Slot.isVacant, hh]; exact hv
  have hocc : ∀ j, (({ b with slots := b.slots.set! i e } : Bucket).slot j).isVacant =
      (b.slot j).isVacant := fun j => by
    rw [show ({ b with slots := b.slots.set! i e } : Bucket) = ⟨b.depth, b.count, b.slots.set! i e⟩
      from rfl, hslot]
    split
    · next h => rw [h.1, hev, hv]
    · rfl
  have hhash : ∀ j, (({ b with slots := b.slots.set! i e } : Bucket).slot j).hash =
      (b.slot j).hash := fun j => by
    rw [show ({ b with slots := b.slots.set! i e } : Bucket) = ⟨b.depth, b.count, b.slots.set! i e⟩
      from rfl, hslot]
    split
    · next h => rw [h.1, hh]
    · rfl
  refine ⟨by rw [hsize]; exact hw.size_pos, ?_, fun q hq hqv r hr hgap => ?_⟩
  · have hp := entries_set_perm b hi b.depth b.count e
    simp only [held, hv, hev, Bool.false_eq_true, if_false] at hp
    have := hp.length_eq
    simp only [List.length_append, List.length_singleton, length_entries] at this
    rw [hw.count_eq]
    exact (Nat.add_right_cancel this).symm
  · rw [hsize] at hq hr
    rw [hocc] at hqv ⊢
    simp only [home, hsize, hhash] at hgap
    exact hw.chained q hq hqv r hr hgap

/-- Putting an entry whose fields fit into an occupied slot keeps a bucket's
fields within the block format. -/
theorem Fits.set {b : Bucket} {elems : Nat} (hw : b.WF) (hb : b.Fits elems) {i : Nat}
    (hi : i < b.size) (hv : (b.slot i).isVacant = false) {e : Slot}
    (hh : e.hash = (b.slot i).hash) (he : e.Fits) :
    ({ b with slots := b.slots.set! i e } : Bucket).Fits elems := by
  have hw' := wf_set hw hi hv hh
  refine ⟨?_, hb.depth, hb.count, hw'.count_eq.symm, fun x hx => ?_⟩
  · show ({ b with slots := b.slots.set! i e } : Bucket).size = elems
    rw [size_set]
    exact hb.size
  · rcases Array.mem_or_eq_of_mem_setIfInBounds hx with hx | rfl
    · exact hb.slots x hx
    · exact he

/-- Inserting an entry whose fields fit into a bucket with room keeps its fields
within the block format. -/
theorem Fits.insert {b : Bucket} {elems : Nat} (hw : b.WF) (hb : b.Fits elems)
    (hfull : b.isFull = false) (helems : elems < 2 ^ 32) {e : Slot} (hev : e.isVacant = false)
    (he : e.Fits) : (b.insert e).2.Fits elems := by
  obtain ⟨-, hg, hcount⟩ := insert_spec hw hfull hev
  obtain ⟨s, -, -, -, hins⟩ := insert_eq hw hfull e
  have hroom : b.count < b.size := by simpa [isFull] using hfull
  refine ⟨?_, by rw [hg.depth]; exact hb.depth, ?_, hg.wf.count_eq.symm, fun x hx => ?_⟩
  · show (b.insert e).2.size = elems
    rw [hg.size]
    exact hb.size
  · rw [hcount]
    have : b.size = elems := hb.size
    omega
  · rw [hins] at hx
    rcases Array.mem_or_eq_of_mem_setIfInBounds hx with hx | rfl
    · exact hb.slots x hx
    · exact he

/-- Placing an entry in a bucket with room, or over an occupied slot of the
entry's hash, succeeds and leaves a well formed bucket of the same depth within
the block format, holding the entry in place of the slots `O` it replaces. -/
theorem place_spec {b : Bucket} {elems : Nat} (hw : b.WF) (hb : b.Fits elems)
    (helems : elems < 2 ^ 32) {e : Slot} (hev : e.isVacant = false) (he : e.Fits)
    {slot : Option Nat} {O : List Slot}
    (hO : (slot = none ∧ b.isFull = false ∧ O = []) ∨
      ∃ s, slot = some s ∧ s < b.size ∧ (b.slot s).isVacant = false ∧
        e.hash = (b.slot s).hash ∧ O = [b.slot s]) :
    (b.place slot e).1 = true ∧ (b.place slot e).2.WF ∧ (b.place slot e).2.Fits elems ∧
      (b.place slot e).2.depth = b.depth ∧
      ((b.place slot e).2.entries ++ O).Perm (b.entries ++ [e]) := by
  rcases hO with ⟨rfl, hfull, rfl⟩ | ⟨s, rfl, hs, hv, hh, rfl⟩
  · obtain ⟨hsome, hg, -⟩ := insert_spec hw hfull hev
    refine ⟨hsome, hg.wf, hb.insert hw hfull helems hev he, hg.depth, ?_⟩
    rw [List.append_nil]
    exact hg.entries
  · have hp := entries_set_perm b hs b.depth b.count e
    simp only [held, hv, hev, Bool.false_eq_true, if_false] at hp
    exact ⟨rfl, wf_set hw hs hv hh, hb.set hw hs hv hh he, rfl, hp⟩

end Bucket

end HashFile

namespace HashFile

namespace Index

variable {v v' : Volume} {ix ix' : Index}

theorem runs_checkWritable {s s' : Volume × Index} {a : PUnit} :
    Runs checkWritable s a s' ↔ s.2.file.writable = true ∧ s' = s := by
  unfold checkWritable
  simp only [runs_bind, runs_current, and_assoc, exists_and_left, exists_eq_left]
  cases s.2.file.writable <;> simp [runs_throw, runs_pure]

/-- A byte of a record lies in the block of no live bucket. -/
def OffBlocks (ix : Index) (L : List Nat) (e : Slot) : Prop :=
  0 < e.recordSize → ∀ o ∈ L, Region.Disjoint ⟨o, ix.file.header.blockSize⟩ e.region

theorem OffBlocks.byte {L : List Nat} {e : Slot} (h : OffBlocks ix L e) {i : Nat}
    (hi1 : e.dataOffset ≤ i) (hi2 : i < e.dataOffset + e.recordSize) :
    ∀ o ∈ L, ¬ (o ≤ i ∧ i < o + ix.file.header.blockSize) := by
  intro o ho hin
  have := h (by omega) o ho
  simp only [Region.Disjoint, Region.stop, Slot.region] at this
  omega

/-- Changing one live bucket through the cache. When the new bucket is well
formed, of the old depth, and holds entries placed as the table asks, and no
record lies in a live block, the image stays an extendible hash table whose
slots are the new bucket's entries and those of the other buckets, read from
the same bytes. -/
theorem updateOne (hI : (image v ix).Shaped) (hc : Coherent v ix (image v ix).live)
    (hsp : Spread ix (image v ix).live) (hwr : ix.file.writable = true) {o : Nat}
    (ho : o ∈ (image v ix).live) {α : Type} {f : Bucket → α × Bucket} {a : α}
    (hr : Runs (updateBucket o f) (v, ix) a (v', ix'))
    (hwf : (f (bucketAt v ix o)).2.WF)
    (hfits : (f (bucketAt v ix o)).2.Fits ix.file.header.bucketElems)
    (hdepth : (f (bucketAt v ix o)).2.depth = (bucketAt v ix o).depth)
    (hplaced : ∀ e ∈ (f (bucketAt v ix o)).2.entries,
      e.hash = Key.hash ((image v ix).keyOf e) ∧ e.head = Key.head ((image v ix).keyOf e) ∧
        ix.dir.entryAt (dirIndex e.hash ix.dir.bits) = o)
    (hoff : ∀ e ∈ (f (bucketAt v ix o)).2.entries ++
      ((image v ix).live.erase o).flatMap (fun x => (bucketAt v ix x).entries),
      OffBlocks ix (image v ix).live e)
    (hkeys : (((f (bucketAt v ix o)).2.entries ++
      ((image v ix).live.erase o).flatMap (fun x => (bucketAt v ix x).entries)).map
        (image v ix).keyOf).Nodup) :
    a = (f (bucketAt v ix o)).1 ∧ (image v' ix').Shaped ∧ Coherent v' ix' (image v ix).live ∧
      (image v' ix').live = (image v ix).live ∧
      (image v' ix').slots.Perm ((f (bucketAt v ix o)).2.entries ++
        ((image v ix).live.erase o).flatMap (fun x => (bucketAt v ix x).entries)) ∧
      (∀ e ∈ (image v' ix').slots, (image v' ix').keyOf e = (image v ix).keyOf e ∧
        (image v' ix').valueOf e = (image v ix).valueOf e) ∧
      bucketAt v' ix' o = (f (bucketAt v ix o)).2 ∧
      Keeps (fun x => x ∈ (image v ix).live ∧ x ≠ o) (image v ix).live v ix v' ix' := by
  obtain ⟨rfl, hc', hbo, hk⟩ := hc.updateBucket hsp ho (hI.fits o ho) hwr hfits hr
  have hbytes : ∀ e ∈ (f (bucketAt v ix o)).2.entries ++
      ((image v ix).live.erase o).flatMap (fun x => (bucketAt v ix x).entries),
      ∀ i, e.dataOffset ≤ i → i < e.dataOffset + e.recordSize →
        (image v' ix').byte i = (image v ix).byte i :=
    fun e he i hi1 hi2 => hk.byte i ((hoff e he).byte hi1 hi2)
  have hkey : ∀ e ∈ (f (bucketAt v ix o)).2.entries ++
      ((image v ix).live.erase o).flatMap (fun x => (bucketAt v ix x).entries),
      (image v' ix').keyOf e = (image v ix).keyOf e ∧
        (image v' ix').valueOf e = (image v ix).valueOf e :=
    fun e he => ⟨Image.keyOf_congr (hbytes e he), Image.valueOf_congr (hbytes e he)⟩
  have hJo : (image v' ix').bucket o = (f (bucketAt v ix o)).2 := hbo
  have hliveJ : (image v' ix').live = (image v ix).live := by
    simp only [Image.live, image, hk.dir]
  have hslotsJ : (image v' ix').slots.Perm ((f (bucketAt v ix o)).2.entries ++
      ((image v ix).live.erase o).flatMap (fun x => (bucketAt v ix x).entries)) := by
    have := Image.slots_perm_cons (I := image v' ix') (hliveJ ▸ ho)
    rwa [hJo, hliveJ, List.flatMap_congr fun x hx => by
      rw [show (image v' ix').bucket x = bucketAt v ix x from
        hk.bucket x ⟨List.mem_of_mem_erase hx, (Image.nodup_live.mem_erase_iff.1 hx).1⟩]] at this
  have hkeysJ : (image v' ix').keys.Nodup := by
    unfold Image.keys
    rw [(hslotsJ.map _).nodup_iff, List.map_congr_left fun e he => (hkey e he).1]
    exact hkeys
  obtain ⟨hshaped, -, -⟩ := Image.Shaped.update (J := image v' ix') hI ho
    (by simp only [image, hk.dir]) (by simp only [image, hk.dir])
    (by simp only [image, hk.dir, hk.file]; exact hI.dirBits_eq)
    (by simp only [image, hk.dir, hk.file]; exact hI.dirOffset_eq)
    (by simp only [image, hk.file])
    (by rw [hJo]; exact hwf) (by rw [hJo]; exact hfits) (by rw [hJo]; exact hdepth)
    (fun e he => by
      rw [hJo] at he
      rw [(hkey e (List.mem_append_left _ he)).1]
      exact hplaced e he)
    (fun x hx hxo => hk.bucket x ⟨hx, hxo⟩)
    (fun x hx hxo e he i hi1 hi2 => hbytes e (List.mem_append_right _
      (List.mem_flatMap.2 ⟨x, (Image.nodup_live.mem_erase_iff).2 ⟨hxo, hx⟩, he⟩)) i hi1 hi2)
    hkeysJ
  exact ⟨rfl, hshaped, hc', hliveJ, hslotsJ, fun e he => hkey e (hslotsJ.subset he), hbo, hk⟩

/-! ## Changing the header -/

/-- A header change that keeps the block size and slots per bucket keeps every
bucket. -/
theorem bucketAt_reheader (v : Volume) (ix : Index) {h : Header} (d : Bool)
    (hbs : h.blockSize = ix.file.header.blockSize)
    (helems : h.bucketElems = ix.file.header.bucketElems) :
    bucketAt v { ix with file := { ix.file with header := h, headerDirty := d } } = bucketAt v ix :=
  bucketAt_congr rfl rfl hbs helems

/-- An index whose header changes but for its block size and slots per bucket
has the image with that header. -/
theorem image_reheader (v : Volume) (ix : Index) {h : Header} (d : Bool)
    (hbs : h.blockSize = ix.file.header.blockSize)
    (helems : h.bucketElems = ix.file.header.bucketElems) :
    image v { ix with file := { ix.file with header := h, headerDirty := d } } =
      { image v ix with header := h } := by
  simp only [image, bucketAt_reheader v ix d hbs helems]
  rfl

/-- A header change keeps the volume and the open file. -/
theorem Stays.reheader (v : Volume) (ix : Index) (h : Header) (d : Bool) :
    Stays v ix v { ix with file := { ix.file with header := h, headerDirty := d } } :=
  ⟨Volume.Frame.refl _ v, rfl, rfl⟩

/-- The cache and the file stay in step through a header change that keeps the
block size and slots per bucket, and leaves the header clean only when it is
the header written. -/
theorem Coherent.reheadered {L : List Nat} (hc : Coherent v ix L) {h : Header} {d : Bool}
    (hbs : h.blockSize = ix.file.header.blockSize)
    (helems : h.bucketElems = ix.file.header.bucketElems)
    (hd : d = false → ix.file.headerDirty = false ∧ h = ix.file.header) :
    Coherent v { ix with file := { ix.file with header := h, headerDirty := d } } L := by
  refine hc.reheader rfl rfl rfl hbs helems (fun hdf => ?_) (fun hdd => hc.dir hdd)
  obtain ⟨hclean, rfl⟩ := hd hdf
  exact hc.header hclean

end Index

namespace Image

variable {I J : Image}

/-- Only the header's directory fields and slots per bucket matter to the
table's shape. -/
theorem Shaped.reheader (hI : I.Shaped) {h : Header} (hbits : h.dirBits = I.header.dirBits)
    (hoff : h.dirOffset = I.header.dirOffset) (helems : h.bucketElems = I.header.bucketElems) :
    ({ I with header := h } : Image).Shaped :=
  ⟨hI.bits_le, hI.aligned, hbits.trans hI.dirBits_eq, hoff.trans hI.dirOffset_eq, hI.wf,
    fun o ho => helems ▸ hI.fits o ho, hI.hash_eq, hI.head_eq, hI.home, hI.keys_nodup⟩

/-- The regions in use under another header: only its block size is read. -/
theorem used_reheader (I : Image) (h : Header) :
    ({ I with header := h } : Image).used = ⟨0, h.blockSize⟩ ::
      ⟨I.dir.offset, Directory.byteSize I.dir.bits⟩ ::
        (I.live.map (fun o => ⟨o, h.blockSize⟩) ++ I.records) := rfl

/-- The records in use, read off any listing of the slots. -/
theorem records_perm {S : List Slot} (h : I.slots.Perm S) :
    I.records.Perm ((S.filter fun e => 0 < e.recordSize).map Slot.region) :=
  (h.filter _).map _

/-- An image holding the records of another but one, byte for byte, answers
every lookup alike but that record's key, which it does not hold. -/
theorem lookup_of_perm_cons (hk : I.keys.Nodup) {e : Slot} (hp : I.slots.Perm (e :: J.slots))
    (hb : ∀ x ∈ J.slots, J.keyOf x = I.keyOf x ∧ J.valueOf x = I.valueOf x) (k : Bytes) :
    J.lookup k = if k = I.keyOf e then none else I.lookup k := by
  have hIk : I.keys.Perm (I.keyOf e :: J.keys) := by
    unfold keys
    rw [List.map_congr_left fun x hx => (hb x hx).1]
    exact hp.map I.keyOf
  have hnd := hIk.nodup_iff.1 hk
  rw [List.nodup_cons] at hnd
  split
  · next hke =>
    apply lookup_eq_none
    rw [hke]
    exact hnd.1
  · next hke =>
    apply Option.ext
    intro val
    rw [lookup_eq_some_iff hnd.2, lookup_eq_some_iff hk]
    constructor
    · rintro ⟨x, hx, rfl, rfl⟩
      exact ⟨x, hp.symm.subset (List.mem_cons_of_mem _ hx), (hb x hx).1.symm, (hb x hx).2.symm⟩
    · rintro ⟨x, hx, hxk, rfl⟩
      rcases List.mem_cons.1 (hp.subset hx) with rfl | hx'
      · exact absurd hxk.symm hke
      · exact ⟨x, hx', (hb x hx').1.trans hxk, (hb x hx').2⟩

end Image

namespace Index

/-- A record of a sound index lies in no live block. -/
theorem Sound.offBlocks (hs : Sound v ix) {e : Slot} (he : e ∈ (image v ix).slots) :
    OffBlocks ix (image v ix).live e :=
  fun hpos _ ho => hs.block_disjoint_record ho he hpos

/-- In a sound index, deleting a key answers whether it was stored, keeps the
index sound, and erases the key from what lookups see, leaving every other key
bound as it was; no record is added. -/
theorem Sound.delete (hs : Sound v ix) {key : Bytes} {r : Bool}
    (hr : Runs (Index.delete key) (v, ix) r (v', ix')) :
    r = ((image v ix).lookup key).isSome ∧ Sound v' ix' ∧ Stays v ix v' ix' ∧
      (∀ k, (image v' ix').lookup k = if k = key then none else (image v ix).lookup k) ∧
      ∀ e ∈ (image v' ix').slots, e ∈ (image v ix).slots := by
  unfold Index.delete at hr
  obtain ⟨_, s0, hcw, hr⟩ := runs_bind.1 hr
  obtain ⟨hwr, rfl⟩ := runs_checkWritable.1 hcw
  obtain ⟨loc, ⟨v1, ix1⟩, hloc, hr⟩ := runs_bind.1 hr
  obtain ⟨hs1, hag1, hst1, -, -, -, hlive, hsome, hnone⟩ := hs.locate hloc
  have hwr1 : ix1.file.writable = true := by rw [hst1.writable]; exact hwr
  cases hslot : loc.slot with
  | none =>
    rw [hslot] at hr
    obtain ⟨rfl, hs'⟩ := runs_pure.1 hr
    obtain ⟨rfl, rfl⟩ := Prod.mk.inj hs'
    have hl := hnone.1 hslot
    refine ⟨by rw [hl]; rfl, hs1, hst1, fun k => ?_, fun e he => by rwa [hag1.slots] at he⟩
    rw [hag1.lookup]
    split
    · next h => rw [h, hl]
    · rfl
  | some i =>
    rw [hslot] at hr
    obtain ⟨removed, ⟨v2, ix2⟩, hup, hr⟩ := runs_bind.1 hr
    obtain ⟨_, ⟨v3, ix3⟩, hfree, hr⟩ := runs_bind.1 hr
    obtain ⟨_, ⟨v4, ix4⟩, hafter, hr⟩ := runs_bind.1 hr
    obtain ⟨rfl, hs'⟩ := runs_pure.1 hr
    obtain ⟨rfl, rfl⟩ := Prod.mk.inj hs'
    obtain ⟨hlt, hvac, hkey⟩ := hsome i hslot
    set o := loc.bucketOffset
    set b := bucketAt v ix o
    have ho1 : o ∈ (image v1 ix1).live := by rw [hag1.live]; exact hlive
    have hb1 : bucketAt v1 ix1 o = b := hag1.bucket _ hlive
    have hw : b.WF := hs.shaped.wf o hlive
    obtain ⟨hrm1, hw', -, hdepth, hperm⟩ := Bucket.remove_spec hw hlt hvac
    have hrest : ((b.remove i).2.entries ++ ((image v1 ix1).live.erase o).flatMap
        (fun x => (bucketAt v1 ix1 x).entries) ++ [b.slot i]).Perm (image v1 ix1).slots := by
      have h1 : ((b.remove i).2.entries ++ ((image v1 ix1).live.erase o).flatMap
          (fun x => (bucketAt v1 ix1 x).entries) ++ [b.slot i]).Perm
          (((b.remove i).2.entries ++ [b.slot i]) ++ ((image v1 ix1).live.erase o).flatMap
            (fun x => (bucketAt v1 ix1 x).entries)) := by
        rw [List.append_assoc, List.append_assoc]
        exact List.Perm.append_left _ List.perm_append_comm
      refine (h1.trans (hperm.append_right _)).trans ?_
      have h2 := (Image.slots_perm_cons (I := image v1 ix1) ho1).symm
      rwa [show (image v1 ix1).bucket o = b from hb1] at h2
    have hentries : ∀ e ∈ (b.remove i).2.entries, e ∈ b.entries := fun e he =>
      hperm.subset (List.mem_append_left _ he)
    have hfits : (b.remove i).2.Fits ix1.file.header.bucketElems := by
      have := hs1.shaped.fits o ho1
      rw [show (image v1 ix1).bucket o = b from hb1] at this
      exact Bucket.Fits.remove hw this i
    have hplaced : ∀ e ∈ (b.remove i).2.entries,
        e.hash = Key.hash ((image v1 ix1).keyOf e) ∧ e.head = Key.head ((image v1 ix1).keyOf e) ∧
          ix1.dir.entryAt (dirIndex e.hash ix1.dir.bits) = o := by
      intro e he
      have he' : e ∈ ((image v1 ix1).bucket o).entries := by
        rw [show (image v1 ix1).bucket o = b from hb1]
        exact hentries e he
      exact ⟨hs1.shaped.hash_eq o ho1 e he', hs1.shaped.head_eq o ho1 e he',
        hs1.shaped.home o ho1 e he'⟩
    have hkeys : (((b.remove i).2.entries ++ ((image v1 ix1).live.erase o).flatMap
        (fun x => (bucketAt v1 ix1 x).entries)).map (image v1 ix1).keyOf).Nodup := by
      have := (hrest.map (image v1 ix1).keyOf).nodup_iff.2 hs1.shaped.keys_nodup
      rw [List.map_append] at this
      exact (List.nodup_append.1 this).1
    rw [← hb1] at hfits hplaced hkeys hrest
    obtain ⟨rfl, hshaped2, hc2, hlive2, hslots2, hkv2, -, hk2⟩ := updateOne hs1.shaped
      hs1.coherent hs1.spread hwr1 ho1 hup (by rw [hb1]; exact hw') hfits (by rw [hb1, hdepth])
      hplaced (fun e he => hs1.offBlocks (hrest.subset (List.mem_append_left _ he))) hkeys
    obtain ⟨h3, hrel, hs3⟩ := runs_free.1 hfree
    obtain ⟨rfl, rfl⟩ := Prod.mk.inj hs3
    set e0 := b.slot i
    have he0 : ((bucketAt v1 ix1 o).remove i).1 = e0 := by rw [hb1]; exact hrm1
    rw [he0, hk2.file] at hrel
    have he0' : (bucketAt v1 ix1 o).slot i = e0 := by rw [hb1]
    rw [he0'] at hrest
    have hI1 : (image v1 ix1).slots.Perm (e0 :: (image v3 ix2).slots) := by
      refine hrest.symm.trans (List.perm_append_comm.trans ?_)
      rw [List.singleton_append]
      exact hslots2.symm.cons e0
    have hrec : (image v1 ix1).records.Perm
        ((if 0 < e0.recordSize then [e0.region] else []) ++ (image v3 ix2).records) := by
      refine (Image.records_perm hI1).trans ?_
      by_cases hpos : 0 < e0.recordSize <;> simp [hpos, Image.records]
    have hused : (image v1 ix1).used.Perm
        ((if 0 < e0.recordSize then [e0.region] else []) ++ (⟨0, ix1.file.header.blockSize⟩ ::
          ⟨ix1.dir.offset, Directory.byteSize ix1.dir.bits⟩ ::
            ((image v1 ix1).live.map (image v1 ix1).block ++ (image v3 ix2).records))) := by
      unfold Image.used
      refine (((((hrec.append_left _).trans (List.perm_append_comm_assoc _ _ _)).cons _).cons _)).trans ?_
      by_cases hpos : 0 < e0.recordSize
      · simp only [hpos, if_true, List.singleton_append]
        exact ((List.Perm.swap _ _ _).cons _).trans (List.Perm.swap _ _ _)
      · simp only [hpos, if_false, List.nil_append]
        exact List.Perm.refl _
    have hlay : h3.Layout (⟨0, ix1.file.header.blockSize⟩ ::
        ⟨ix1.dir.offset, Directory.byteSize ix1.dir.bits⟩ ::
          ((image v1 ix1).live.map (image v1 ix1).block ++ (image v3 ix2).records)) ∧
        ∃ next avail, h3 = { ix1.file.header with nextBlock := next, avail } ∧
          avail.capacity = ix1.file.header.avail.capacity := by
      have hl := hs1.layout.perm hused
      by_cases hpos : 0 < e0.recordSize
      · simp only [hpos, if_true, List.singleton_append] at hl
        exact hl.release hrel
      · have h0 : e0.recordSize = 0 := by omega
        simp only [hpos, if_false, List.nil_append] at hl
        rw [h0, Header.release, if_pos rfl] at hrel
        obtain ⟨-, rfl⟩ := Prod.mk.inj hrel
        exact ⟨hl, _, _, rfl, rfl⟩
    obtain ⟨hl3, next, avail, hh3, hcap⟩ := hlay
    have hfile2 : ix2.file = ix1.file := hk2.file
    have hdir2 : ix2.dir = ix1.dir := hk2.dir
    have hbs3 : h3.blockSize = ix2.file.header.blockSize := by rw [hh3, hfile2]
    have helems3 : h3.bucketElems = ix2.file.header.bucketElems := by rw [hh3, hfile2]
    have himg3 := image_reheader v3 ix2 (ix2.file.headerDirty || e0.recordSize != 0) hbs3 helems3
    have hs3 : Sound v3 { ix2 with
        file := { ix2.file with
          header := h3
          headerDirty := ix2.file.headerDirty || e0.recordSize != 0 } } := by
      refine ⟨?_, ?_, ?_, ?_, ?_, ?_⟩
      · rw [himg3]
        exact hshaped2.reheader (by rw [hh3]; simp [image, hfile2])
          (by rw [hh3]; simp [image, hfile2]) (by rw [hh3]; simp [image, hfile2])
      · have hblock : (fun o => (⟨o, h3.blockSize⟩ : Region)) = (image v1 ix1).block := by
          funext o
          simp only [Image.block, image, hbs3, hfile2]
        rw [himg3, Image.used_reheader, hlive2, hblock, hbs3, hfile2]
        simpa only [image, hdir2] using hl3
      · show validBlockSize h3.blockSize = true
        rw [hbs3, hfile2]; exact hs1.blockSize
      · show h3.bucketElems = elemsForBlock h3.blockSize
        rw [hbs3, helems3, hfile2]; exact hs1.elems
      · show h3.avail.capacity = availCapacity h3.blockSize
        rw [hbs3, hfile2, hh3]; exact hcap.trans hs1.capacity
      · rw [himg3]
        show Coherent v3 _ (image v3 ix2).live
        rw [hlive2]
        refine hc2.reheadered hbs3 helems3 fun hd => ?_
        simp only [Bool.or_eq_false_iff, bne_eq_false_iff_eq] at hd
        refine ⟨hd.1, ?_⟩
        rw [Header.release, if_pos hd.2] at hrel
        rw [hfile2]
        exact (Prod.mk.inj hrel).2.symm
    rw [he0] at hafter
    obtain ⟨hs4, hag4, hst4⟩ := hs3.afterMutation hafter
    have he0mem : e0 ∈ (image v ix).slots :=
      Image.mem_slots.2 ⟨o, hlive, Bucket.mem_entries.2 ⟨i, hlt, rfl, hvac⟩⟩
    have hkey1 : (image v1 ix1).keyOf e0 = key := (hag1.keyOf he0mem).trans hkey
    refine ⟨?_, hs4, hst1.trans (hk2.stays.trans ((Stays.reheader v3 ix2 h3 _).trans hst4)),
      fun k => ?_, fun e he => ?_⟩
    · rw [← hkey, Image.lookup_keyOf hs.shaped.keys_nodup he0mem]
      rfl
    · rw [hag4.lookup, himg3, show ({ image v3 ix2 with header := h3 } : Image).lookup k =
        (image v3 ix2).lookup k from rfl, Image.lookup_of_perm_cons hs1.shaped.keys_nodup hI1 hkv2,
        hkey1, hag1.lookup]
    · rw [hag4.slots, himg3] at he
      rw [← hag1.slots]
      exact hI1.symm.subset (List.mem_cons_of_mem _ he)

end Index

end HashFile

namespace HashFile

namespace Image

variable {I J : Image}

/-- The table's shape reads the records only through their keys: an image with
the same header, directory and live buckets whose records hold the same keys
keeps it. -/
theorem Shaped.of_keyOf (hI : I.Shaped) (hh : J.header = I.header) (hd : J.dir = I.dir)
    (hb : ∀ o ∈ I.live, J.bucket o = I.bucket o) (hk : ∀ e ∈ I.slots, J.keyOf e = I.keyOf e) :
    J.Shaped := by
  have hS : ({ J with byte := I.byte } : Image).Shaped :=
    Agree.shaped ⟨by simp only [hh], by simp only [hh], by simp only [hh], by simp only [hh],
      by simp only [hd], by simp only [hd], by simp only [hd], hb, fun _ _ _ _ _ => rfl⟩ hI
  have hlive : J.live = I.live := by simp only [live, hd]
  have hmem : ∀ o ∈ J.live, ∀ e ∈ (J.bucket o).entries, e ∈ I.slots := fun o ho e he => by
    rw [hlive] at ho
    rw [hb o ho] at he
    exact mem_slots.2 ⟨o, ho, he⟩
  refine ⟨hS.bits_le, hS.aligned, hS.dirBits_eq, hS.dirOffset_eq, hS.wf, hS.fits,
    fun o ho e he => ?_, fun o ho e he => ?_, hS.home, ?_⟩
  · rw [hk e (hmem o ho e he)]
    exact hS.hash_eq o ho e he
  · rw [hk e (hmem o ho e he)]
    exact hS.head_eq o ho e he
  · have hslots : J.slots = I.slots := by
      simp only [slots, hlive]
      exact List.flatMap_congr fun o ho => by rw [hb o ho]
    unfold keys
    rw [hslots, List.map_congr_left hk]
    exact hI.keys_nodup

/-- The regions of the records of positive size among some slots. -/
def recordsOf (S : List Slot) : List Region :=
  (S.filter fun e => 0 < e.recordSize).map Slot.region

theorem records_eq (I : Image) : I.records = recordsOf I.slots := rfl

theorem recordsOf_append (S T : List Slot) : recordsOf (S ++ T) = recordsOf S ++ recordsOf T := by
  simp [recordsOf]

theorem recordsOf_cons (e : Slot) (S : List Slot) :
    recordsOf (e :: S) = (if 0 < e.recordSize then [e.region] else []) ++ recordsOf S := by
  by_cases h : 0 < e.recordSize <;> simp [recordsOf, h]

theorem recordsOf_singleton (e : Slot) :
    recordsOf [e] = if 0 < e.recordSize then [⟨e.dataOffset, e.recordSize⟩] else [] := by
  by_cases h : 0 < e.recordSize <;> simp [recordsOf, h, Slot.region]

theorem recordsOf_perm {S T : List Slot} (h : S.Perm T) : (recordsOf S).Perm (recordsOf T) :=
  (h.filter _).map _

/-- An image holding the records of another but those of one key, and one
record for that key, binds the key to that record's value and every other key
as the other did. -/
theorem lookup_of_perm_insert (hI : I.keys.Nodup) (hJ : J.keys.Nodup) {O R : List Slot}
    (hIs : I.slots.Perm (O ++ R)) {e : Slot} (hJs : J.slots.Perm (e :: R)) {key : Bytes}
    (hO : ∀ x ∈ O, I.keyOf x = key) (he : J.keyOf e = key)
    (hR : ∀ x ∈ R, J.keyOf x = I.keyOf x ∧ J.valueOf x = I.valueOf x) (k : Bytes) :
    J.lookup k = if k = key then some (J.valueOf e) else I.lookup k := by
  have heJ : e ∈ J.slots := hJs.symm.subset List.mem_cons_self
  split
  · next hk =>
    rw [hk, ← he]
    exact lookup_keyOf hJ heJ
  · next hk =>
    apply Option.ext
    intro val
    rw [lookup_eq_some_iff hJ, lookup_eq_some_iff hI]
    constructor
    · rintro ⟨x, hx, rfl, rfl⟩
      rcases List.mem_cons.1 (hJs.subset hx) with rfl | hxR
      · exact absurd he hk
      · exact ⟨x, hIs.symm.subset (List.mem_append_right _ hxR), (hR x hxR).1.symm,
          (hR x hxR).2.symm⟩
    · rintro ⟨x, hx, rfl, rfl⟩
      rcases List.mem_append.1 (hIs.subset hx) with hxO | hxR
      · exact absurd (hO x hxO) hk
      · exact ⟨x, hJs.symm.subset (List.mem_cons_of_mem _ hxR), (hR x hxR).1, (hR x hxR).2⟩

/-- A key no lookup finds is no record's. -/
theorem not_mem_keys_of_lookup (hk : I.keys.Nodup) {k : Bytes} (h : I.lookup k = none) :
    k ∉ I.keys := fun hmem => by
  obtain ⟨e, he, rfl⟩ := List.mem_map.1 hmem
  rw [lookup_keyOf hk he] at h
  cases h

/-- The regions in use, with the records of some slots `O` put first. -/
theorem used_perm {O R : List Slot} (h : I.slots.Perm (O ++ R)) :
    I.used.Perm (recordsOf O ++ (⟨0, I.header.blockSize⟩ ::
      ⟨I.dir.offset, Directory.byteSize I.dir.bits⟩ :: (I.live.map I.block ++ recordsOf R))) := by
  unfold used
  rw [records_eq]
  refine ((((recordsOf_perm h).append_left _).cons _).cons _).trans ?_
  rw [recordsOf_append]
  exact List.perm_append_comm_assoc (_ :: _ :: _) _ _

/-- With distinct keys, the key of a record is no other record's. -/
theorem keyOf_not_mem_rest (hk : I.keys.Nodup) {e : Slot} {R : List Slot}
    (h : I.slots.Perm (e :: R)) : I.keyOf e ∉ R.map I.keyOf := by
  have := (h.map I.keyOf).nodup_iff.1 hk
  rw [List.map_cons, List.nodup_cons] at this
  exact this.1

end Image

namespace Header

variable {h h' : Header} {U : List Region}

/-- An allocation of any size keeps the layout, with the new region in use when
it has bytes. -/
theorem Layout.allocateIf (hl : h.Layout U) {n off : Nat} (ha : h.allocate n = (.ok off, h')) :
    h'.Layout ((if 0 < n then [⟨off, n⟩] else []) ++ U) ∧ ∃ next avail,
      h' = { h with nextBlock := next, avail } ∧ avail.capacity = h.avail.capacity := by
  by_cases hn : 0 < n
  · rw [if_pos hn, List.singleton_append]
    exact hl.allocate hn ha
  · have h0 : n = 0 := by omega
    rw [h0, Header.allocate, if_pos rfl] at ha
    obtain ⟨-, rfl⟩ := Prod.mk.inj ha
    rw [if_neg hn, List.nil_append]
    exact ⟨hl, _, _, rfl, rfl⟩

/-- Releasing a region of any size keeps the layout of what stays in use. -/
theorem Layout.releaseIf {r : Region} (hl : h.Layout ((if 0 < r.size then [r] else []) ++ U))
    (hr : h.release r.offset r.size = (.ok (), h')) :
    h'.Layout U ∧ ∃ next avail,
      h' = { h with nextBlock := next, avail } ∧ avail.capacity = h.avail.capacity := by
  by_cases hn : 0 < r.size
  · rw [if_pos hn, List.singleton_append] at hl
    exact hl.release hr
  · rw [if_neg hn, List.nil_append] at hl
    rw [show r.size = 0 by omega, Header.release, if_pos rfl] at hr
    obtain ⟨-, rfl⟩ := Prod.mk.inj hr
    exact ⟨hl, _, _, rfl, rfl⟩

end Header

namespace Index

variable {v v' : Volume} {ix ix' : Index} {L : List Nat}

/-- A write leaves every byte of the image it does not cover. -/
theorem byte_writeAt (hc : Coherent v ix L) {d : Nat} {bytes : ByteArray} {i : Nat}
    (hi : ¬ (d ≤ i ∧ i < d + bytes.size)) :
    (image (v.writeAt ix.file.handle.ino d bytes) ix).byte i = (image v ix).byte i := by
  show (ix.disk (v.writeAt ix.file.handle.ino d bytes)).byteAt i = (ix.disk v).byteAt i
  rw [show ix.disk (v.writeAt ix.file.handle.ino d bytes) = (ix.disk v).write d bytes from
    Volume.data_writeAt v hc.ino_lt d bytes]
  exact SparseBytes.byteAt_write_of_not_mem hc.ordered hi

/-- A slot at a key's record written in place reads back the key, and the value
when it has the value's size. -/
theorem record_writeAt (hc : Coherent v ix L) {d : Nat} (key value : Bytes) {e : Slot}
    (hd : e.dataOffset = d) (hk : e.keySize = key.size) :
    (image (v.writeAt ix.file.handle.ino d (key ++ value)) ix).keyOf e = key ∧
      (e.dataSize = value.size →
        (image (v.writeAt ix.file.handle.ino d (key ++ value)) ix).valueOf e = value) := by
  have hdisk : ix.disk (v.writeAt ix.file.handle.ino d (key ++ value)) =
      (ix.disk v).write d (key ++ value) := Volume.data_writeAt v hc.ino_lt d (key ++ value)
  obtain ⟨h1, h2⟩ := SparseBytes.window_write_append hc.ordered d key value
  refine ⟨?_, fun hv => ?_⟩
  · show SparseBytes.window (ix.disk _).byteAt e.dataOffset e.keySize = key
    rw [hdisk, hd, hk]
    exact h1
  · show SparseBytes.window (ix.disk _).byteAt (e.dataOffset + e.keySize) e.dataSize = value
    rw [hdisk, hd, hk, hv]
    exact h2

/-- Writing a key's record where it lies apart from the header block, the
directory and every live block keeps the table's shape, the cache and file in
step, the live buckets and the keys of the records, when every record lies
apart from it or is the key's own at the same place. -/
theorem writeRecord (hI : (image v ix).Shaped) (hc : Coherent v ix (image v ix).live)
    {d : Nat} {key value : Bytes} (hsz : d + (key ++ value).size ≤ Volume.maxFileSize)
    (hmeta : 0 < (key ++ value).size →
      Region.Disjoint ⟨d, (key ++ value).size⟩ ⟨0, ix.file.header.blockSize⟩ ∧
      Region.Disjoint ⟨d, (key ++ value).size⟩ ⟨ix.dir.offset, Directory.byteSize ix.dir.bits⟩ ∧
      ∀ o ∈ (image v ix).live, Region.Disjoint ⟨d, (key ++ value).size⟩ (ix.blockOf o))
    (hrec : ∀ e ∈ (image v ix).slots, (e.dataOffset = d ∧ (image v ix).keyOf e = key) ∨
      (0 < e.recordSize → 0 < (key ++ value).size →
        Region.Disjoint ⟨d, (key ++ value).size⟩ e.region)) :
    (image (v.writeAt ix.file.handle.ino d (key ++ value)) ix).Shaped ∧
      Coherent (v.writeAt ix.file.handle.ino d (key ++ value)) ix (image v ix).live ∧
      (∀ o ∈ (image v ix).live,
        bucketAt (v.writeAt ix.file.handle.ino d (key ++ value)) ix o = bucketAt v ix o) ∧
      ∀ e ∈ (image v ix).slots,
        (image (v.writeAt ix.file.handle.ino d (key ++ value)) ix).keyOf e = (image v ix).keyOf e := by
  by_cases h0 : (key ++ value).size = 0
  · rw [show v.writeAt ix.file.handle.ino d (key ++ value) = v from if_pos h0]
    exact ⟨hI, hc, fun _ _ => rfl, fun _ _ => rfl⟩
  obtain ⟨hhdr, hdir, hblocks⟩ := hmeta (by omega)
  obtain ⟨hc', hb⟩ := hc.write hsz (fun o ho _ => hblocks o ho) (fun _ => hhdr) (fun _ => hdir)
  have hkey : ∀ e ∈ (image v ix).slots,
      (image (v.writeAt ix.file.handle.ino d (key ++ value)) ix).keyOf e = (image v ix).keyOf e := by
    intro e he
    rcases hrec e he with ⟨hd, hke⟩ | hapart
    · have hks : e.keySize = key.size := by rw [← hke]; simp [Image.keyOf]
      rw [(record_writeAt hc key value hd hks).1, hke]
    · refine Image.keyOf_congr fun i h1 h2 => byte_writeAt hc fun hin => ?_
      have hd := hapart (by omega) (by omega)
      simp only [Region.Disjoint, Region.stop, Slot.region] at hd
      omega
  exact ⟨hI.of_keyOf rfl rfl hb hkey, hc', hb, hkey⟩

/-- The live buckets are read off the directory alone. -/
theorem live_image (v : Volume) (ix : Index) : (image v ix).live = ix.dir.entries.toList.dedup :=
  rfl

/-! ## Placing a record -/

/-- An index about to place a key's record of `n` bytes at `d`, in place of the
slots `O` that held the key: its image is an extendible hash table with the
cache and file in step, the other records `R` and the new one are laid out in
the file, and each old record is the key's and lies where the new one does or
apart from it. -/
structure Placing (v : Volume) (ix : Index) (key : Bytes) (d n : Nat) (O R : List Slot) :
    Prop where
  shaped : (image v ix).Shaped
  coherent : Coherent v ix (image v ix).live
  blockSize : validBlockSize ix.file.header.blockSize = true
  elems : ix.file.header.bucketElems = elemsForBlock ix.file.header.blockSize
  capacity : ix.file.header.avail.capacity = availCapacity ix.file.header.blockSize
  slots : (image v ix).slots.Perm (O ++ R)
  layout : ix.file.header.Layout ((if 0 < n then [⟨d, n⟩] else []) ++
    (⟨0, ix.file.header.blockSize⟩ :: ⟨ix.dir.offset, Directory.byteSize ix.dir.bits⟩ ::
      ((image v ix).live.map (image v ix).block ++ Image.recordsOf R)))
  old : ∀ e ∈ O, (image v ix).keyOf e = key ∧
    (e.dataOffset = d ∨ (0 < e.recordSize → 0 < n → Region.Disjoint ⟨d, n⟩ e.region))
  fresh : key ∉ R.map (image v ix).keyOf

variable {key value : Bytes} {d n : Nat} {O R : List Slot}

theorem region_mem_recordsOf {S : List Slot} {x : Slot} (hx : x ∈ S) (hpos : 0 < x.recordSize) :
    x.region ∈ Image.recordsOf S :=
  List.mem_map_of_mem (List.mem_filter.2 ⟨hx, by simpa using hpos⟩)

/-- The new record lies apart from every other region in use. -/
theorem Placing.apart (hp : Placing v ix key d n O R) (hn : 0 < n) :
    ∀ r ∈ (⟨0, ix.file.header.blockSize⟩ :: ⟨ix.dir.offset, Directory.byteSize ix.dir.bits⟩ ::
      ((image v ix).live.map (image v ix).block ++ Image.recordsOf R) : List Region),
      Region.Disjoint ⟨d, n⟩ r := by
  have hd := hp.layout.used_disjoint
  rw [if_pos hn, List.singleton_append, List.pairwise_cons] at hd
  exact hd.1

/-- The records kept lie apart from every live block. -/
theorem Placing.block_apart (hp : Placing v ix key d n O R) {o : Nat}
    (ho : o ∈ (image v ix).live) {r : Region} (hr : r ∈ Image.recordsOf R) :
    ((image v ix).block o).Disjoint r := by
  have hd := List.Pairwise.sublist (List.sublist_append_right _ _) hp.layout.used_disjoint
  rw [List.pairwise_cons, List.pairwise_cons, List.pairwise_append] at hd
  exact hd.2.2.2.2 _ (List.mem_map_of_mem ho) r hr

theorem Placing.spread (hp : Placing v ix key d n O R) : Spread ix (image v ix).live :=
  spread_of_pairwise (by have := (validBlockSize_bounds hp.blockSize).1; omega)
    (room_of_valid hp.blockSize hp.elems)
    (List.Pairwise.sublist (List.sublist_append_right _ _) hp.layout.used_disjoint)

/-- The slot a store gives a key is occupied: a key's hash is never the vacant one. -/
theorem newSlot_isVacant (key : Bytes) (d ks vs : Nat) :
    (⟨Key.hash key, Key.head key, d, ks, vs⟩ : Slot).isVacant = false := by
  have := Key.hash_lt key
  simp only [hashBits] at this
  show (Key.hash key == vacantHash) = false
  simp only [vacantHash, beq_eq_false_iff_ne, ne_eq]
  omega

/-- The slot a store gives a key fits the slot format when the key and value
are within the size limit and the record starts within the largest file. -/
theorem newSlot_fits (hsizes : key.size < sizeLimit ∧ value.size < sizeLimit)
    (hd : d ≤ Volume.maxFileSize) :
    (⟨Key.hash key, Key.head key, d, key.size, value.size⟩ : Slot).Fits := by
  have := Key.hash_lt key
  simp only [hashBits] at this
  simp only [Volume.maxFileSize, Nat.pow_eq] at hd
  simp only [sizeLimit, Nat.pow_eq] at hsizes
  exact ⟨by show Key.hash key < 2 ^ 32; omega,
    by show (fitBytes key keyHeadLen).toList.length = 4
       rw [toList_eq_data, Array.length_toList, ByteArray.size_data, size_fitBytes]; rfl,
    by show d < 2 ^ 64; omega, hsizes.1, hsizes.2⟩

/-- Placing the record: it is written where the allocation put it, a slot of
the bucket the key's hash selects is pointed at it, and the index is synced in
sync mode. The index is sound after it and binds the key to the value, every
other key as before; its slots are the ones it had and the key's new one. -/
theorem Placing.place (hp : Placing v ix key d (key.size + value.size) O R) {o : Nat}
    (ho : o ∈ (image v ix).live)
    (hhome : ix.dir.entryAt (dirIndex (Key.hash key) ix.dir.bits) = o)
    (hsizes : key.size < sizeLimit ∧ value.size < sizeLimit) {slot : Option Nat}
    (hO : (slot = none ∧ (bucketAt v ix o).isFull = false ∧ O = []) ∨
      ∃ s, slot = some s ∧ s < (bucketAt v ix o).size ∧
        ((bucketAt v ix o).slot s).isVacant = false ∧
        Key.hash key = ((bucketAt v ix o).slot s).hash ∧ O = [(bucketAt v ix o).slot s])
    (hr : Runs (placeRecord key value (Key.hash key) o slot d) (v, ix) () (v', ix')) :
    Sound v' ix' ∧ Stays v ix v' ix' ∧
      (∀ k, (image v' ix').lookup k = if k = key then some value else (image v ix).lookup k) ∧
      ∀ x ∈ (image v' ix').slots,
        x = ⟨Key.hash key, Key.head key, d, key.size, value.size⟩ ∨ x ∈ (image v ix).slots := by
  unfold placeRecord at hr
  obtain ⟨_, s1, hw, hr1⟩ := runs_bind.1 hr
  obtain ⟨hwr, hsz, rfl⟩ := runs_writeAt.1 hw
  obtain ⟨placed, ⟨v2, ix2⟩, hup, hr2⟩ := runs_bind.1 hr1
  dsimp only at hwr hsz hup
  set n := key.size + value.size
  set e : Slot := ⟨Key.hash key, Key.head key, d, key.size, value.size⟩
  have hn : (key ++ value).size = n := ByteArray.size_append
  have hslotsR : ∀ x ∈ R, x ∈ (image v ix).slots := fun x hx =>
    hp.slots.symm.subset (List.mem_append_right _ hx)
  obtain ⟨hI1, hc1, hb1, hk1⟩ := writeRecord hp.shaped hp.coherent hsz
    (fun hpos => by
      rw [hn] at hpos ⊢
      have ha := hp.apart hpos
      exact ⟨ha _ List.mem_cons_self, ha _ (List.mem_cons_of_mem _ List.mem_cons_self),
        fun o ho => ha _ (List.mem_cons_of_mem _ (List.mem_cons_of_mem _
          (List.mem_append_left _ (List.mem_map_of_mem ho))))⟩)
    (fun x hx => by
      rcases List.mem_append.1 (hp.slots.subset hx) with hxO | hxR
      · obtain ⟨hkey, hd | hapart⟩ := hp.old x hxO
        · exact .inl ⟨hd, hkey⟩
        · exact .inr (by rw [hn]; exact hapart)
      · refine .inr fun hpos hn' => ?_
        rw [hn] at hn' ⊢
        exact hp.apart hn' _ (List.mem_cons_of_mem _ (List.mem_cons_of_mem _
          (List.mem_append_right _ (region_mem_recordsOf hxR hpos)))))
  have hrec := record_writeAt hp.coherent key value (e := e) rfl rfl
  have hval : ∀ x ∈ R, (image (v.writeAt ix.file.handle.ino d (key ++ value)) ix).valueOf x =
      (image v ix).valueOf x := by
    intro x hx
    refine Image.valueOf_congr fun i h1 h2 => byte_writeAt hp.coherent fun hin => ?_
    rw [hn] at hin
    have hd := hp.apart (by omega) _ (List.mem_cons_of_mem _ (List.mem_cons_of_mem _
      (List.mem_append_right _ (region_mem_recordsOf hx (by omega)))))
    simp only [Region.Disjoint, Region.stop, Slot.region] at hd
    omega
  have hstay : Stays v ix (v.writeAt ix.file.handle.ino d (key ++ value)) ix :=
    ⟨Volume.frame_writeAt v _ d _, rfl, rfl⟩
  generalize v.writeAt ix.file.handle.ino d (key ++ value) = v1 at hI1 hc1 hb1 hk1 hrec hval hstay hup
  have hL : (image v1 ix).live = (image v ix).live := (live_image v1 ix).trans (live_image v ix).symm
  have ho1 : o ∈ (image v1 ix).live := by rw [hL]; exact ho
  have hc1' : Coherent v1 ix (image v1 ix).live := by rw [hL]; exact hc1
  have hsp1 : Spread ix (image v1 ix).live := by rw [hL]; exact hp.spread
  set b := bucketAt v ix o
  have hbo : bucketAt v1 ix o = b := hb1 o ho
  have hev : e.isVacant = false := newSlot_isVacant key d key.size value.size
  have hfe : e.Fits := newSlot_fits hsizes (by omega)
  have hwb : b.WF := hp.shaped.wf o ho
  have hfb : b.Fits ix.file.header.bucketElems := hp.shaped.fits o ho
  obtain ⟨hpl, hwf, hfits, hdepth, hperm⟩ := Bucket.place_spec hwb hfb
    (elems_lt_of_valid hp.blockSize hp.elems) hev hfe hO
  set others := ((image v1 ix).live.erase o).flatMap fun x => (bucketAt v1 ix x).entries
  have hnewR : ((b.place slot e).2.entries ++ others).Perm (e :: R) := by
    have h1 : (image v1 ix).slots.Perm (b.entries ++ others) := by
      have := Image.slots_perm_cons (I := image v1 ix) ho1
      rwa [show (image v1 ix).bucket o = b from hbo] at this
    have h2 : (image v1 ix).slots = (image v ix).slots := by
      unfold Image.slots
      rw [hL]
      exact List.flatMap_congr fun x hx => congrArg Bucket.entries (hb1 x hx)
    have h3 : (b.entries ++ others).Perm (O ++ R) := h1.symm.trans (h2 ▸ hp.slots)
    have s1 : (O ++ ((b.place slot e).2.entries ++ others)).Perm
        (((b.place slot e).2.entries ++ O) ++ others) := by
      rw [← List.append_assoc]
      exact List.perm_append_comm.append_right _
    have s2 : (((b.place slot e).2.entries ++ O) ++ others).Perm ((b.entries ++ others) ++ [e]) := by
      refine (hperm.append_right _).trans ?_
      rw [List.append_assoc, List.append_assoc]
      exact List.perm_append_comm.append_left _
    have s3 : ((b.entries ++ others) ++ [e]).Perm (O ++ (e :: R)) := by
      refine (h3.append_right _).trans ?_
      rw [List.append_assoc]
      exact List.perm_append_comm.append_left _
    exact (List.perm_append_left_iff O).1 (s1.trans (s2.trans s3))
  have hkeysR : (R.map (image v ix).keyOf).Nodup := by
    have := (hp.slots.map (image v ix).keyOf).nodup_iff.1 hp.shaped.keys_nodup
    rw [List.map_append] at this
    exact (List.nodup_append.1 this).2.1
  obtain ⟨hpl', hshaped2, hc2, hlive2, hslots2, hkv2, -, hk2⟩ := updateOne hI1 hc1'
    hsp1 hwr ho1
    hup (by rw [hbo]; exact hwf) (by rw [hbo]; exact hfits) (by rw [hbo]; exact hdepth)
    (fun x hx => by
      rw [hbo] at hx
      rcases List.mem_append.1 (hperm.subset (List.mem_append_left _ hx)) with hxb | hxe
      · have hx' : x ∈ ((image v1 ix).bucket o).entries := by
          rw [show (image v1 ix).bucket o = b from hbo]
          exact hxb
        exact ⟨hI1.hash_eq o ho1 x hx', hI1.head_eq o ho1 x hx', hI1.home o ho1 x hx'⟩
      · rw [List.mem_singleton] at hxe
        subst hxe
        rw [hrec.1]
        exact ⟨rfl, rfl, hhome⟩)
    (fun x hx hpos o' ho' => by
      rw [hbo] at hx
      rw [hL] at ho'
      rcases List.mem_cons.1 (hnewR.subset hx) with rfl | hxR
      · exact (hp.apart hpos _ (List.mem_cons_of_mem _ (List.mem_cons_of_mem _
          (List.mem_append_left _ (List.mem_map_of_mem ho'))))).symm
      · exact hp.block_apart ho' (region_mem_recordsOf hxR hpos))
    (by
      rw [hbo]
      refine (hnewR.map _).nodup_iff.2 ?_
      rw [List.map_cons, List.nodup_cons, hrec.1,
        List.map_congr_left fun x hx => hk1 x (hslotsR x hx)]
      exact ⟨hp.fresh, hkeysR⟩)
  rw [hbo] at hpl'
  rw [hpl', hpl] at hr2
  simp only [Bool.not_true, Bool.false_eq_true, if_false] at hr2
  have hfile2 : ix2.file = ix.file := hk2.file
  have hdir2 : ix2.dir = ix.dir := hk2.dir
  have hslotsJ : (image v2 ix2).slots.Perm (e :: R) := hslots2.trans (by rw [hbo]; exact hnewR)
  have hused : (image v2 ix2).used.Perm ((if 0 < n then [⟨d, n⟩] else []) ++
      (⟨0, ix.file.header.blockSize⟩ :: ⟨ix.dir.offset, Directory.byteSize ix.dir.bits⟩ ::
        ((image v ix).live.map (image v ix).block ++ Image.recordsOf R))) := by
    have hrecs : (image v2 ix2).records.Perm
        ((if 0 < n then [⟨d, n⟩] else []) ++ Image.recordsOf R) := by
      rw [Image.records_eq]
      refine (Image.recordsOf_perm hslotsJ).trans ?_
      rw [Image.recordsOf_cons]
      exact List.Perm.refl _
    have hblock : (image v2 ix2).block = (image v ix).block := by
      funext x
      simp only [Image.block, image, hfile2]
    show (⟨0, ix2.file.header.blockSize⟩ :: ⟨ix2.dir.offset, Directory.byteSize ix2.dir.bits⟩ ::
      ((image v2 ix2).live.map (image v2 ix2).block ++ (image v2 ix2).records) : List Region).Perm _
    rw [hfile2, hdir2, hlive2, hL, hblock]
    exact (((hrecs.append_left _).cons _).cons _).trans (List.perm_append_comm_assoc (_ :: _ :: _) _ _)
  have hs2 : Sound v2 ix2 := by
    refine ⟨hshaped2, ?_, by rw [hfile2]; exact hp.blockSize, by rw [hfile2]; exact hp.elems,
      by rw [hfile2]; exact hp.capacity,
      by rw [hlive2]; exact hc2⟩
    rw [hfile2]
    exact hp.layout.perm hused.symm
  obtain ⟨hs3, hag3, hst3⟩ := hs2.afterMutation hr2
  have heJ : e ∈ (image v2 ix2).slots := hslotsJ.symm.subset List.mem_cons_self
  have hkeyE : (image v2 ix2).keyOf e = key ∧ (image v2 ix2).valueOf e = value := by
    rw [(hkv2 e heJ).1, (hkv2 e heJ).2]
    exact ⟨hrec.1, hrec.2 rfl⟩
  have hR : ∀ x ∈ R, (image v2 ix2).keyOf x = (image v ix).keyOf x ∧
      (image v2 ix2).valueOf x = (image v ix).valueOf x := by
    intro x hx
    have hxJ : x ∈ (image v2 ix2).slots := hslotsJ.symm.subset (List.mem_cons_of_mem _ hx)
    rw [(hkv2 x hxJ).1, (hkv2 x hxJ).2, hk1 x (hslotsR x hx), hval x hx]
    exact ⟨rfl, rfl⟩
  refine ⟨hs3, hstay.trans (hk2.stays.trans hst3), fun k => ?_, fun x hx => ?_⟩
  · rw [hag3.lookup, Image.lookup_of_perm_insert hp.shaped.keys_nodup hshaped2.keys_nodup hp.slots
      hslotsJ (fun x hx => (hp.old x hx).1) hkeyE.1 hR, hkeyE.2]
  · rw [hag3.slots] at hx
    rcases List.mem_cons.1 (hslotsJ.subset hx) with rfl | hxR
    · exact .inl rfl
    · exact .inr (hslotsR x hxR)

/-- A sound index whose header moves to an allocation state laid out for the
records kept and a new record, each old record being the key's and lying in the
new one's place or apart from it, is ready to place the new record. -/
theorem Sound.placing (hs : Sound v ix) {h : Header} (dirty : Bool)
    (hbs : h.blockSize = ix.file.header.blockSize)
    (helems : h.bucketElems = ix.file.header.bucketElems)
    (hoff : h.dirOffset = ix.file.header.dirOffset) (hbits : h.dirBits = ix.file.header.dirBits)
    (hcap : h.avail.capacity = ix.file.header.avail.capacity)
    (hdirty : dirty = false → ix.file.headerDirty = false ∧ h = ix.file.header)
    (hOR : (image v ix).slots.Perm (O ++ R))
    (hl : h.Layout ((if 0 < n then [⟨d, n⟩] else []) ++
      (⟨0, ix.file.header.blockSize⟩ :: ⟨ix.dir.offset, Directory.byteSize ix.dir.bits⟩ ::
        ((image v ix).live.map (image v ix).block ++ Image.recordsOf R))))
    (hold : ∀ e ∈ O, (image v ix).keyOf e = key ∧
      (e.dataOffset = d ∨ (0 < e.recordSize → 0 < n → Region.Disjoint ⟨d, n⟩ e.region)))
    (hfresh : key ∉ R.map (image v ix).keyOf) :
    Placing v { ix with file := { ix.file with header := h, headerDirty := dirty } } key d n O R := by
  have himg := image_reheader v ix dirty hbs helems
  have hblock : ({ image v ix with header := h } : Image).block = (image v ix).block := by
    funext o
    simp only [Image.block, image, hbs]
  refine ⟨?_, ?_, ?_, ?_, ?_, ?_, ?_, ?_, ?_⟩
  · rw [himg]
    exact hs.shaped.reheader hbits hoff helems
  · rw [himg]
    exact hs.coherent.reheadered hbs helems hdirty
  · show validBlockSize h.blockSize = true
    rw [hbs]
    exact hs.blockSize
  · show h.bucketElems = elemsForBlock h.blockSize
    rw [hbs, helems]
    exact hs.elems
  · show h.avail.capacity = availCapacity h.blockSize
    rw [hbs, hcap]
    exact hs.capacity
  · rw [himg]
    exact hOR
  · rw [himg, hblock]
    show h.Layout (_ ++ (⟨0, h.blockSize⟩ :: _))
    rw [hbs]
    exact hl
  · rw [himg]
    exact hold
  · rw [himg]
    exact hfresh

/-- Choosing where a located key's record goes leaves the index ready to place
it, the lookups unchanged: the chosen bucket is the one the key's hash selects,
and the chosen slot is the key's own, or none when the key is new and the
bucket has room. -/
theorem Sound.chooseRecord (hs : Sound v ix) (hwr : ix.file.writable = true) {loc : Located}
    {o : Nat} {slot : Option Nat} (hh : loc.hash = Key.hash key)
    (hbo : ix.dir.entryAt (dirIndex (Key.hash key) ix.dir.bits) = loc.bucketOffset)
    (hsome : ∀ i, loc.slot = some i → i < (bucketAt v ix loc.bucketOffset).size ∧
      ((bucketAt v ix loc.bucketOffset).slot i).isVacant = false ∧
      (image v ix).keyOf ((bucketAt v ix loc.bucketOffset).slot i) = key)
    (hnone : loc.slot = none → (image v ix).lookup key = none)
    (hr : Runs (Index.chooseRecord loc n) (v, ix) (o, slot, d) (v', ix')) :
    ∃ O R, Placing v' ix' key d n O R ∧ o ∈ (image v' ix').live ∧
      ix'.dir.entryAt (dirIndex (Key.hash key) ix'.dir.bits) = o ∧
      ((slot = none ∧ (bucketAt v' ix' o).isFull = false ∧ O = []) ∨
        ∃ s, slot = some s ∧ s < (bucketAt v' ix' o).size ∧
          ((bucketAt v' ix' o).slot s).isVacant = false ∧
          Key.hash key = ((bucketAt v' ix' o).slot s).hash ∧ O = [(bucketAt v' ix' o).slot s]) ∧
      (∀ k, (image v' ix').lookup k = (image v ix).lookup k) ∧ Stays v ix v' ix' ∧
      ∀ x ∈ (image v' ix').slots, x ∈ (image v ix).slots := by
  have hdi : dirIndex (Key.hash key) ix.dir.bits < 2 ^ ix.dir.bits :=
    dirIndex_lt (Key.hash_lt key) hs.shaped.bits_le
  unfold Index.chooseRecord at hr
  cases hslot : loc.slot with
  | none =>
    rw [hslot] at hr
    obtain ⟨off, ⟨v1, ix1⟩, hmr, hr⟩ := runs_bind.1 hr
    obtain ⟨l, s2, hal, hr⟩ := runs_bind.1 hr
    obtain ⟨h2, hah, rfl⟩ := runs_allocate.1 hal
    obtain ⟨hres, hs'⟩ := runs_pure.1 hr
    simp only [Prod.mk.injEq] at hres hs'
    obtain ⟨rfl, rfl, rfl⟩ := hres
    obtain ⟨hv, rfl⟩ := hs'
    subst v'
    obtain ⟨hs1, hsame1, hst1, hhome1, hfull1⟩ := hs.makeRoom hwr
      (by rw [hh]; exact Key.hash_lt key) hmr
    rw [hh] at hhome1
    obtain ⟨hl2, next, avail, hh2, hcap2⟩ := hs1.layout.allocateIf hah
    have hfresh : key ∉ (image v1 ix1).slots.map (image v1 ix1).keyOf := fun hk =>
      Image.not_mem_keys_of_lookup hs.shaped.keys_nodup (hnone hslot) (hsame1.keys.subset hk)
    refine ⟨[], (image v1 ix1).slots, hs1.placing _ (by rw [hh2]) (by rw [hh2]) (by rw [hh2])
      (by rw [hh2]) (by rw [hh2]; exact hcap2) (fun hd => ?_) (List.Perm.refl _) hl2
      (fun _ he => absurd he List.not_mem_nil) hfresh, ?_, hhome1, .inl ⟨rfl, ?_, rfl⟩,
      fun k => ?_, hst1.trans (Stays.reheader _ _ _ _), fun x hx => ?_⟩
    · simp only [Bool.or_eq_false_iff, bne_eq_false_iff_eq] at hd
      rw [hd.2, Header.allocate, if_pos rfl] at hah
      exact ⟨hd.1, (Prod.mk.inj hah).2.symm⟩
    · rw [live_image, ← live_image v1 ix1]
      rw [← hhome1]
      exact (hs1.get?_dir (dirIndex_lt (Key.hash_lt key) hs1.shaped.bits_le)).2
    · rw [bucketAt_reheader v1 ix1 _ (by rw [hh2]) (by rw [hh2])]
      exact hfull1
    · rw [image_reheader v1 ix1 _ (by rw [hh2]) (by rw [hh2])]
      exact (hsame1.lookup hs.shaped.keys_nodup k)
    · rw [image_reheader v1 ix1 _ (by rw [hh2]) (by rw [hh2])] at hx
      exact hsame1.slots.subset hx
  | some i =>
    rw [hslot] at hr
    obtain ⟨old, ⟨v1, ix1⟩, hel, hr⟩ := runs_bind.1 hr
    obtain ⟨b, hlb, rfl⟩ := runs_elementAt.1 hel
    have hlive : loc.bucketOffset ∈ (image v ix).live := by rw [← hbo]; exact (hs.get?_dir hdi).2
    obtain ⟨rfl, hs1, hag1, hst1⟩ := hs.loadBucket hlive hlb
    obtain ⟨hlt, hvac, hkey⟩ := hsome i hslot
    set old := (bucketAt v ix loc.bucketOffset).slot i
    have hmem : old ∈ (image v ix).slots :=
      Image.mem_slots.2 ⟨_, hlive, Bucket.mem_entries.2 ⟨i, hlt, rfl, hvac⟩⟩
    have hmem1 : old ∈ (image v1 ix1).slots := by rw [hag1.slots]; exact hmem
    have hkey1 : (image v1 ix1).keyOf old = key := (hag1.keyOf hmem).trans hkey
    have hOR : (image v1 ix1).slots.Perm ([old] ++ (image v1 ix1).slots.erase old) :=
      List.perm_cons_erase hmem1
    have hfresh : key ∉ ((image v1 ix1).slots.erase old).map (image v1 ix1).keyOf := by
      rw [← hkey1]
      exact Image.keyOf_not_mem_rest hs1.shaped.keys_nodup hOR
    have hlay := hs1.layout.perm (Image.used_perm hOR)
    rw [Image.recordsOf_singleton] at hlay
    have hafter : ∀ (h : Header) (dd : Bool), h.blockSize = ix1.file.header.blockSize →
        h.bucketElems = ix1.file.header.bucketElems →
        loc.bucketOffset ∈ (image v1 { ix1 with file := { ix1.file with header := h, headerDirty := dd } }).live ∧
        ix1.dir.entryAt (dirIndex (Key.hash key) ix1.dir.bits) = loc.bucketOffset ∧
        (i < (bucketAt v1 { ix1 with file := { ix1.file with header := h, headerDirty := dd } } loc.bucketOffset).size ∧
          ((bucketAt v1 { ix1 with file := { ix1.file with header := h, headerDirty := dd } } loc.bucketOffset).slot i).isVacant = false ∧
          Key.hash key = ((bucketAt v1 { ix1 with file := { ix1.file with header := h, headerDirty := dd } } loc.bucketOffset).slot i).hash ∧
          [old] = [(bucketAt v1 { ix1 with file := { ix1.file with header := h, headerDirty := dd } } loc.bucketOffset).slot i]) ∧
        (∀ k, (image v1 { ix1 with file := { ix1.file with header := h, headerDirty := dd } }).lookup k = (image v ix).lookup k) ∧
        Stays v ix v1 { ix1 with file := { ix1.file with header := h, headerDirty := dd } } ∧
        ∀ x ∈ (image v1 { ix1 with file := { ix1.file with header := h, headerDirty := dd } }).slots,
          x ∈ (image v ix).slots := by
      intro h dd hbs helems
      have hbk : bucketAt v1 { ix1 with file := { ix1.file with header := h, headerDirty := dd } } loc.bucketOffset =
          bucketAt v ix loc.bucketOffset := by
        rw [bucketAt_reheader v1 ix1 dd hbs helems]
        exact hag1.bucket _ hlive
      refine ⟨?_, ?_, ?_, fun k => ?_, hst1.trans (Stays.reheader _ _ _ _), fun x hx => ?_⟩
      · show loc.bucketOffset ∈ ix1.dir.entries.toList.dedup
        rw [show ix1.dir.entries = ix.dir.entries from hag1.entries]
        exact hlive
      · rw [← hbo, show ix1.dir.bits = ix.dir.bits from hag1.bits]
        exact hag1.entryAt _
      · rw [hbk]
        exact ⟨hlt, hvac, by rw [(hs.shaped.hash_head hmem).1, hkey], rfl⟩
      · rw [image_reheader v1 ix1 dd hbs helems]
        exact hag1.lookup k
      · rw [image_reheader v1 ix1 dd hbs helems] at hx
        exact hag1.slots ▸ hx
    rw [runs_ite] at hr
    split at hr
    · next hsize =>
      obtain ⟨hres, hs'⟩ := runs_pure.1 hr
      simp only [Prod.mk.injEq] at hres hs'
      obtain ⟨rfl, rfl, rfl⟩ := hres
      obtain ⟨hv, hix⟩ := hs'
      subst v' ix'
      rw [hsize] at hlay
      have hp : Placing v1 { ix1 with
          file := { ix1.file with
            header := ix1.file.header
            headerDirty := ix1.file.headerDirty } } key old.dataOffset n [old]
          ((image v1 ix1).slots.erase old) :=
        hs1.placing _ rfl rfl rfl rfl rfl (fun hd => ⟨hd, rfl⟩) hOR hlay
          (fun e he => by
            rw [List.mem_singleton] at he
            subst he
            exact ⟨hkey1, .inl rfl⟩) hfresh
      obtain ⟨h1, h2, h3, h4, h5, h6⟩ := hafter ix1.file.header ix1.file.headerDirty rfl rfl
      exact ⟨[old], _, hp, h1, h2, .inr ⟨i, rfl, h3⟩, h4, h5, h6⟩
    · next hsize =>
      obtain ⟨fresh, s2, hal, hr⟩ := runs_bind.1 hr
      obtain ⟨h2, hah, rfl⟩ := runs_allocate.1 hal
      obtain ⟨_, s3, hfr, hr⟩ := runs_bind.1 hr
      obtain ⟨h3, hrel, rfl⟩ := runs_free.1 hfr
      obtain ⟨hres, hs'⟩ := runs_pure.1 hr
      simp only [Prod.mk.injEq] at hres hs'
      obtain ⟨rfl, rfl, rfl⟩ := hres
      obtain ⟨hv, hix⟩ := hs'
      subst v' ix'
      dsimp only at hah hrel
      obtain ⟨hl2, next2, avail2, hh2, hcap2⟩ := hs1.layout.allocateIf hah
      have hapart : 0 < old.recordSize → 0 < n → Region.Disjoint ⟨d, n⟩ old.region := by
        intro hpo hpn
        have hd := hl2.used_disjoint
        rw [if_pos hpn, List.singleton_append, List.pairwise_cons] at hd
        exact hd.1 _ (List.mem_cons_of_mem _ (List.mem_cons_of_mem _
          (List.mem_append_right _ (region_mem_recordsOf hmem1 hpo))))
      have hu := Image.used_perm hOR
      rw [Image.recordsOf_singleton] at hu
      have hl2' := hl2.perm ((hu.append_left _).trans (List.perm_append_comm_assoc _ _ _))
      obtain ⟨hl3, next3, avail3, hh3, hcap3⟩ :=
        Header.Layout.releaseIf (r := ⟨old.dataOffset, old.recordSize⟩) hl2' hrel
      have hbs : h3.blockSize = ix1.file.header.blockSize := by rw [hh3, hh2]
      have helems : h3.bucketElems = ix1.file.header.bucketElems := by rw [hh3, hh2]
      have hp := hs1.placing ((ix1.file.headerDirty || n != 0) || old.recordSize != 0) hbs helems
        (by rw [hh3, hh2]) (by rw [hh3, hh2])
        (by rw [hh3, hcap3, hh2]; exact hcap2)
        (fun hd => by
          simp only [Bool.or_eq_false_iff, bne_eq_false_iff_eq] at hd
          obtain ⟨⟨hd0, hn0⟩, ho0⟩ := hd
          rw [hn0, Header.allocate, if_pos rfl] at hah
          obtain ⟨-, rfl⟩ := Prod.mk.inj hah
          rw [ho0, Header.release, if_pos rfl] at hrel
          exact ⟨hd0, (Prod.mk.inj hrel).2.symm⟩)
        hOR hl3
        (fun e he => by
          rw [List.mem_singleton] at he
          subst he
          exact ⟨hkey1, .inr hapart⟩) hfresh
      obtain ⟨h1', h2', h3', h4', h5', h6'⟩ := hafter h3 _ hbs helems
      exact ⟨[old], _, hp, h1', h2', .inr ⟨i, rfl, h3'⟩, h4', h5', h6'⟩

/-- A store that runs found the file writable and the key and value within the
size limit, located the key, chose where its record goes and placed it there. -/
theorem runs_store (hr : Runs (Index.store key value) (v, ix) () (v', ix')) :
    ix.file.writable = true ∧ key.size < sizeLimit ∧ value.size < sizeLimit ∧
      ∃ loc s1 o slot d s2, Runs (locate key) (v, ix) loc s1 ∧
        Runs (chooseRecord loc (key.size + value.size)) s1 (o, slot, d) s2 ∧
        Runs (placeRecord key value loc.hash o slot d) s2 () (v', ix') := by
  unfold Index.store at hr
  obtain ⟨_, s0, hcw, hr⟩ := runs_bind.1 hr
  obtain ⟨hwr, rfl⟩ := runs_checkWritable.1 hcw
  dsimp only at hr
  rw [runs_ite] at hr
  split at hr
  · obtain ⟨_, _, h, -⟩ := runs_bind.1 hr
    exact (runs_throw.1 h).elim
  rename_i hks
  rw [runs_ite] at hr
  split at hr
  · obtain ⟨_, _, h, -⟩ := runs_bind.1 hr
    exact (runs_throw.1 h).elim
  rename_i hvs
  obtain ⟨loc, s1, hloc, hr⟩ := runs_bind.1 hr
  obtain ⟨⟨o, slot, d⟩, s2, hch, hr⟩ := runs_bind.1 hr
  exact ⟨hwr, Nat.lt_of_not_le hks, Nat.lt_of_not_le hvs, loc, s1, o, slot, d, s2, hloc, hch, hr⟩

/-- In a sound index, storing a value under a key keeps the index sound and
binds the key to the value in what lookups see, leaving every other key bound
as it was. -/
theorem Sound.store (hs : Sound v ix) (hr : Runs (Index.store key value) (v, ix) () (v', ix')) :
    Sound v' ix' ∧ Stays v ix v' ix' ∧
      ∀ k, (image v' ix').lookup k = if k = key then some value else (image v ix).lookup k := by
  obtain ⟨hwr, hks, hvs, loc, ⟨v1, ix1⟩, o, slot, d, ⟨v2, ix2⟩, hloc, hch, hr⟩ := runs_store hr
  obtain ⟨hs1, hag1, hst1, hhash, hdi, hbo, hlive, hsome, hnone⟩ := hs.locate hloc
  rw [hhash] at hr
  have hb1 : bucketAt v1 ix1 loc.bucketOffset = bucketAt v ix loc.bucketOffset :=
    hag1.bucket _ hlive
  obtain ⟨O, R, hp, ho, hhome, hO, hlk, hst2, -⟩ := hs1.chooseRecord
    (by rw [hst1.writable]; exact hwr) hhash
    (by
      rw [show ix1.dir.bits = ix.dir.bits from hag1.bits, hbo, hdi]
      exact hag1.entryAt _)
    (fun i hi => by
      obtain ⟨hlt, hvac, hkey⟩ := hsome i hi
      rw [hb1]
      refine ⟨hlt, hvac, ?_⟩
      exact (hag1.keyOf (Image.mem_slots.2 ⟨_, hlive, Bucket.mem_entries.2 ⟨i, hlt, rfl, hvac⟩⟩)).trans
        hkey)
    (fun hn => by rw [hag1.lookup]; exact hnone.1 hn) hch
  obtain ⟨hs3, hst3, hlk3, -⟩ := hp.place ho hhome ⟨hks, hvs⟩ hO hr
  refine ⟨hs3, hst1.trans (hst2.trans hst3), fun k => ?_⟩
  rw [hlk3, hlk, hag1.lookup]

end Index

end HashFile
