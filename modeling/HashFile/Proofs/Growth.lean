import HashFile.Proofs.StoreRuns

/-!
# A new file grows

The entries of the keys whose hashes share their first `p` bits all sit in one
bucket while the directory has no more than `p` bits, and a bucket holds at most
`bucketElems` entries. So once more such keys are stored than a bucket holds,
the directory has more than `p` bits (`Sound.lt_bits_of_crowded`).

`crowd` is twenty-two keys whose hashes share their first six bits: one more
than a bucket of a 512-byte block holds, under as many bits as a new file's
directory has. Storing them in a new file runs (`crowd_laidOut`): the one
bucket fills, the selected bucket splits down to the depth of the directory,
and the directory doubles.

Conversely a bucket splits only when it overflows: a store whose key's bucket
has a vacant slot leaves the directory as it was (`Sound.store_sameDir`), so
while no more keys are stored than a bucket holds the directory keeps its shape
(`Sound.storeAll_sameDir`). The first twenty-one keys of the crowd fill the one
bucket of a new file, and making room for the last one splits it and doubles
the directory; `makeRoom_ends_within_depth_gap` gathers what making room does
from any sound index: it ends within the depth gap, each split deepens the
selected bucket and hands its entries to the halves by their next hash bit, and
it answers a bucket with a vacant slot.
-/
namespace HashFile

namespace Index

variable {v v' : Volume} {ix ix' : Index} {hash : Nat}

/-! ## Crowded prefixes -/

/-- While the directory has no more than `p` bits, the stored keys whose hashes
share their first `p` bits `c` all sit in the one bucket those bits select. -/
theorem Sound.length_le_occupied (hs : Sound v ix) {keys : List Bytes} (hnd : keys.Nodup)
    (hstored : ∀ k ∈ keys, ∃ x, (image v ix).lookup k = some x) {p c : Nat} (hp : p ≤ hashBits)
    (hpre : ∀ k ∈ keys, Key.hash k / 2 ^ (hashBits - p) = c) (hle : ix.dir.bits ≤ p) :
    keys.length ≤ (bucketAt v ix (ix.dir.entryAt (c / 2 ^ (p - ix.dir.bits)))).occupiedCount := by
  set o := ix.dir.entryAt (c / 2 ^ (p - ix.dir.bits))
  have hhome : ∀ k ∈ keys, ∃ e ∈ (bucketAt v ix o).entries, (image v ix).keyOf e = k := by
    intro k hk
    obtain ⟨x, hx⟩ := hstored k hk
    have hkey : k ∈ (image v ix).keys := by
      by_contra hnot
      rw [Image.lookup_eq_none hnot] at hx
      cases hx
    obtain ⟨e, he, rfl⟩ := List.mem_map.1 hkey
    obtain ⟨o', ho', he'⟩ := Image.mem_slots.1 he
    have hdi : dirIndex e.hash ix.dir.bits = c / 2 ^ (p - ix.dir.bits) := by
      rw [hs.shaped.hash_eq o' ho' e he', ← dirIndex_div (Key.hash_lt _) hle hp,
        dirIndex_eq (Key.hash_lt _), hpre _ hk]
    have ho : o = o' := by
      have hh : ix.dir.entryAt (dirIndex e.hash ix.dir.bits) = o' := hs.shaped.home o' ho' e he'
      rw [← hh, hdi]
    subst ho
    exact ⟨e, he', rfl⟩
  have hsub : keys ⊆ (bucketAt v ix o).entries.map (image v ix).keyOf := fun k hk => by
    obtain ⟨e, he, hek⟩ := hhome k hk
    exact hek ▸ List.mem_map_of_mem he
  have hlen := hnd.length_le_of_subset hsub
  rwa [List.length_map, Bucket.length_entries] at hlen

/-- When more keys are stored than a bucket holds and their hashes share their
first `p` bits, the directory has more than `p` bits. -/
theorem Sound.lt_bits_of_crowded (hs : Sound v ix) {keys : List Bytes} (hnd : keys.Nodup)
    (hstored : ∀ k ∈ keys, ∃ x, (image v ix).lookup k = some x) {p c : Nat} (hp : p ≤ hashBits)
    (hpre : ∀ k ∈ keys, Key.hash k / 2 ^ (hashBits - p) = c)
    (hmany : ix.file.header.bucketElems < keys.length) : p < ix.dir.bits := by
  refine Nat.lt_of_not_le fun hle => ?_
  have hlen := hs.length_le_occupied hnd hstored hp hpre hle
  obtain ⟨k0, hk0⟩ := List.exists_mem_of_length_pos (Nat.lt_of_le_of_lt (Nat.zero_le _) hmany)
  have hcount := Bucket.occupiedCount_le (bucketAt v ix (ix.dir.entryAt (c / 2 ^ (p - ix.dir.bits))))
  have hsize : (bucketAt v ix (ix.dir.entryAt (c / 2 ^ (p - ix.dir.bits)))).size =
      ix.file.header.bucketElems := by
    have hi : c / 2 ^ (p - ix.dir.bits) < 2 ^ ix.dir.bits := by
      rw [← hpre k0 hk0, ← dirIndex_eq (Key.hash_lt _), dirIndex_div (Key.hash_lt _) hle hp]
      exact dirIndex_lt (Key.hash_lt _) (Nat.le_trans hle hp)
    exact (hs.shaped.fits _ (hs.get?_dir hi).2).size
  omega

/-- While the directory has no more than `p` bits, a bucket holding as many keys
as it has slots, all of one `p`-bit prefix, is full for every hash of that
prefix. -/
theorem Sound.isFull_of_crowded (hs : Sound v ix) {keys : List Bytes} (hnd : keys.Nodup)
    (hstored : ∀ k ∈ keys, ∃ x, (image v ix).lookup k = some x) {p c : Nat} (hp : p ≤ hashBits)
    (hpre : ∀ k ∈ keys, Key.hash k / 2 ^ (hashBits - p) = c) (hle : ix.dir.bits ≤ p)
    (hmany : ix.file.header.bucketElems ≤ keys.length) {hash : Nat} (hh : hash < 2 ^ hashBits)
    (hc : hash / 2 ^ (hashBits - p) = c) :
    (bucketAt v ix (ix.dir.entryAt (dirIndex hash ix.dir.bits))).isFull = true := by
  have hdi : dirIndex hash ix.dir.bits = c / 2 ^ (p - ix.dir.bits) := by
    rw [← dirIndex_div hh hle hp, dirIndex_eq hh, hc]
  have hlen := hs.length_le_occupied hnd hstored hp hpre hle
  rw [← hdi] at hlen
  obtain ⟨-, hlive⟩ := hs.get?_dir (dirIndex_lt hh (Nat.le_trans hle hp))
  have hfits : (bucketAt v ix (ix.dir.entryAt (dirIndex hash ix.dir.bits))).Fits
      ix.file.header.bucketElems := hs.shaped.fits _ hlive
  have hsize : (bucketAt v ix (ix.dir.entryAt (dirIndex hash ix.dir.bits))).size =
      ix.file.header.bucketElems := hfits.size
  unfold Bucket.isFull
  rw [hsize, ← hfits.occupied]
  exact decide_eq_true (Nat.le_trans hmany hlen)

/-! ## Room keeps the directory -/

/-- Two states whose directories have one shape: the same depth and entries. -/
def SameDir (s s' : Volume × Index) : Prop :=
  s'.2.dir.bits = s.2.dir.bits ∧ s'.2.dir.entries = s.2.dir.entries

instance instReflSameDir : Std.Refl SameDir := ⟨fun _ => ⟨rfl, rfl⟩⟩

instance instTransSameDir : IsTrans (Volume × Index) SameDir :=
  ⟨fun _ _ _ h1 h2 => ⟨h2.1.trans h1.1, h2.2.trans h1.2⟩⟩

theorem sameDir_modifyIndex {f : Index → Index}
    (hf : ∀ ix, (f ix).dir.bits = ix.dir.bits ∧ (f ix).dir.entries = ix.dir.entries) :
    Leads SameDir (modifyIndex f) := by
  rintro ⟨v, ix⟩ a s' h
  rw [runs_modifyIndex] at h
  subst h
  exact hf ix

/-- Writes, the cache, allocation and the header never touch the directory. -/
theorem keptByWrites_sameDir : KeptByWrites SameDir where
  writeAt off bytes s a s' h := by
    obtain ⟨-, -, rfl⟩ := runs_writeAt.1 h
    exact ⟨rfl, rfl⟩
  cache _ := sameDir_modifyIndex fun _ => ⟨rfl, rfl⟩
  allocate n s a s' h := by
    obtain ⟨_, -, rfl⟩ := runs_allocate.1 h
    exact ⟨rfl, rfl⟩
  free off n s a s' h := by
    obtain ⟨_, -, rfl⟩ := runs_free.1 h
    exact ⟨rfl, rfl⟩
  writeHeader s a s' h := by
    rcases runs_writeHeader.1 h with ⟨-, rfl⟩ | ⟨-, -, _, -, -, rfl⟩ <;> exact ⟨rfl, rfl⟩
  dirClean := sameDir_modifyIndex fun _ => ⟨rfl, rfl⟩

/-- Making room where the bucket the hash selects has a vacant slot answers
that bucket and leaves the directory as it was. -/
theorem Sound.makeRoom_of_room (hs : Sound v ix) {hash off : Nat} (hh : hash < 2 ^ hashBits)
    (hroom : (bucketAt v ix (ix.dir.entryAt (dirIndex hash ix.dir.bits))).isFull = false)
    (hr : Runs (Index.makeRoom hash) (v, ix) off (v', ix')) :
    off = ix.dir.entryAt (dirIndex hash ix.dir.bits) ∧ SameDir (v, ix) (v', ix') := by
  obtain ⟨hget, hlive⟩ := hs.get?_dir (dirIndex_lt hh hs.shaped.bits_le)
  unfold Index.makeRoom Index.makeRoom.go at hr
  obtain ⟨ix0, s0, hcur, hr⟩ := runs_bind.1 hr
  obtain ⟨rfl, rfl⟩ : ix = ix0 ∧ s0 = (v, ix) :=
    ⟨(runs_current.1 hcur).1.symm, (runs_current.1 hcur).2⟩
  obtain ⟨o, s1, hde, hr⟩ := runs_bind.1 hr
  obtain ⟨ho, rfl⟩ := runs_dirEntry.1 hde
  obtain rfl : ix.dir.entryAt (dirIndex hash ix.dir.bits) = o := Option.some.inj (hget.symm.trans ho)
  obtain ⟨b, ⟨v1, ix1⟩, hload, hr⟩ := runs_bind.1 hr
  obtain ⟨rfl, -, -, -⟩ := hs.loadBucket hlive hload
  rw [hroom, Bool.not_false, if_pos rfl] at hr
  obtain ⟨rfl, hs'⟩ := runs_pure.1 hr
  obtain ⟨rfl, rfl⟩ := Prod.mk.inj hs'
  exact ⟨rfl, keptByWrites_sameDir.loadBucket _ _ _ _ hload⟩

/-- A store whose key's bucket has a vacant slot leaves the directory as it
was: only a bucket that overflows splits. -/
theorem Sound.store_sameDir (hs : Sound v ix) {key value : Bytes}
    (hroom : (bucketAt v ix (ix.dir.entryAt (dirIndex (Key.hash key) ix.dir.bits))).isFull = false)
    (hr : Runs (Index.store key value) (v, ix) () (v', ix')) : SameDir (v, ix) (v', ix') := by
  obtain ⟨-, -, -, loc, ⟨v1, ix1⟩, o, slot, d, s2, hloc, hch, hpl⟩ := runs_store hr
  obtain ⟨hs1, hag1, -, hhash, hdi, hbo, hlive, -, -⟩ := hs.locate hloc
  have h1 := keptByWrites_sameDir.locate key _ _ _ hloc
  have h3 := keptByWrites_sameDir.placeRecord _ _ _ _ _ _ _ _ _ hpl
  refine trans_of SameDir h1 (trans_of SameDir ?_ h3)
  unfold Index.chooseRecord at hch
  split at hch
  · exact ((keptByWrites_sameDir.elementAt _ _).bind fun _ => leads_ite (leads_pure _)
      ((keptByWrites_sameDir.allocate _).bind fun _ => (keptByWrites_sameDir.free _ _).bind
        fun _ => leads_pure _)) _ _ _ hch
  · obtain ⟨off, s3, hroom3, hr3⟩ := runs_bind.1 hch
    have hsel : ix1.dir.entryAt (dirIndex loc.hash ix1.dir.bits) = loc.bucketOffset := by
      rw [hhash, show ix1.dir.bits = ix.dir.bits from hag1.bits, hbo, hdi]
      exact hag1.entryAt _
    have hroom1 : (bucketAt v1 ix1 (ix1.dir.entryAt (dirIndex loc.hash ix1.dir.bits))).isFull =
        false := by
      have hb1 : bucketAt v1 ix1 loc.bucketOffset = bucketAt v ix loc.bucketOffset :=
        hag1.bucket _ hlive
      rw [hsel, hb1, hbo, hdi]
      exact hroom
    have h2 := (hs1.makeRoom_of_room (hhash ▸ Key.hash_lt key) hroom1 hroom3).2
    exact trans_of SameDir h2 (((keptByWrites_sameDir.allocate _).bind fun _ => leads_pure _) _ _ _ hr3)

/-- A store adds at most one key. -/
theorem Sound.length_keys_store (hs : Sound v ix) {key value : Bytes}
    (hr : Runs (Index.store key value) (v, ix) () (v', ix')) :
    (image v' ix').keys.length ≤ (image v ix).keys.length + 1 := by
  obtain ⟨hs', -, hlk⟩ := hs.store hr
  have hsub : (image v' ix').keys ⊆ key :: (image v ix).keys := by
    intro x hx
    by_cases hxk : x = key
    · rw [hxk]
      exact List.mem_cons_self
    · refine List.mem_cons_of_mem _ (Classical.byContradiction fun hnot => ?_)
      obtain ⟨e, he, rfl⟩ := List.mem_map.1 hx
      have hfound := Image.lookup_keyOf hs'.shaped.keys_nodup he
      rw [hlk, if_neg hxk, Image.lookup_eq_none hnot] at hfound
      cases hfound
  simpa using hs'.shaped.keys_nodup.length_le_of_subset hsub

/-- A bucket holds no more entries than the index stores keys. -/
theorem occupiedCount_le_keys {o : Nat} (ho : o ∈ (image v ix).live) :
    (bucketAt v ix o).occupiedCount ≤ (image v ix).keys.length := by
  rw [← Bucket.length_entries, Image.keys, List.length_map, Image.slots, List.flatMap_def]
  exact (List.sublist_flatten_of_mem
    (List.mem_map_of_mem (f := fun o => ((image v ix).bucket o).entries) ho)).length_le

/-- Stores one after another add at most one key each. -/
theorem Sound.length_keys_storeAll {value : Bytes} (keys : List Bytes) (hs : Sound v ix)
    (hr : Runs (keys.forM fun k => Index.store k value) (v, ix) () (v', ix')) :
    (image v' ix').keys.length ≤ (image v ix).keys.length + keys.length := by
  induction keys generalizing v ix with
  | nil =>
    obtain ⟨rfl, rfl⟩ := Prod.mk.inj (runs_forM_nil.1 hr)
    exact Nat.le_refl _
  | cons k ks ih =>
    obtain ⟨⟨v1, ix1⟩, hst, hrest⟩ := runs_forM_cons.1 hr
    have h1 := hs.length_keys_store hst
    have h2 := ih (hs.store hst).1 hrest
    simp only [List.length_cons]
    omega

/-- While no more keys are stored than a bucket holds, stores leave the
directory as it was. -/
theorem Sound.storeAll_sameDir {value : Bytes} (keys : List Bytes) (hs : Sound v ix)
    (hr : Runs (keys.forM fun k => Index.store k value) (v, ix) () (v', ix'))
    (hfew : (image v ix).keys.length + keys.length ≤ ix.file.header.bucketElems) :
    SameDir (v, ix) (v', ix') := by
  induction keys generalizing v ix with
  | nil =>
    obtain ⟨rfl, rfl⟩ := Prod.mk.inj (runs_forM_nil.1 hr)
    exact refl_of SameDir _
  | cons k ks ih =>
    obtain ⟨⟨v1, ix1⟩, hst, hrest⟩ := runs_forM_cons.1 hr
    obtain ⟨-, hlive⟩ := hs.get?_dir (dirIndex_lt (Key.hash_lt k) hs.shaped.bits_le)
    have hroom : (bucketAt v ix (ix.dir.entryAt (dirIndex (Key.hash k) ix.dir.bits))).isFull =
        false := by
      have hfits : (bucketAt v ix (ix.dir.entryAt (dirIndex (Key.hash k) ix.dir.bits))).Fits
          ix.file.header.bucketElems := hs.shaped.fits _ hlive
      have hsize : (bucketAt v ix (ix.dir.entryAt (dirIndex (Key.hash k) ix.dir.bits))).size =
          ix.file.header.bucketElems := hfits.size
      have hocc := occupiedCount_le_keys hlive
      unfold Bucket.isFull
      rw [hsize, ← hfits.occupied]
      simp only [List.length_cons] at hfew
      exact decide_eq_false (by omega)
    have hs1 := (hs.store hst).1
    have hbs1 : ix1.file.header.blockSize = ix.file.header.blockSize :=
      sameBlockSize_store k value _ _ _ hst
    have hfew1 : (image v1 ix1).keys.length + ks.length ≤ ix1.file.header.bucketElems := by
      have := hs.length_keys_store hst
      rw [hs1.elems, hbs1, ← hs.elems]
      simp only [List.length_cons] at hfew
      omega
    exact trans_of SameDir (hs.store_sameDir hroom hst) (ih hs1 hrest hfew1)

/-! ## The crowd -/

/-- Twenty-two three-letter keys whose hashes share their first six bits. -/
def crowd : List Bytes :=
  [⟨#[97, 97, 100]⟩, ⟨#[97, 106, 121]⟩, ⟨#[97, 107, 122]⟩, ⟨#[97, 111, 99]⟩, ⟨#[97, 114, 110]⟩,
   ⟨#[97, 115, 109]⟩, ⟨#[97, 118, 119]⟩, ⟨#[97, 119, 116]⟩, ⟨#[97, 120, 112]⟩, ⟨#[97, 121, 115]⟩,
   ⟨#[98, 97, 115]⟩, ⟨#[98, 100, 105]⟩, ⟨#[98, 101, 106]⟩, ⟨#[98, 106, 110]⟩, ⟨#[98, 107, 109]⟩,
   ⟨#[98, 110, 119]⟩, ⟨#[98, 111, 116]⟩, ⟨#[98, 114, 121]⟩, ⟨#[98, 115, 122]⟩, ⟨#[98, 119, 99]⟩,
   ⟨#[98, 120, 103]⟩, ⟨#[98, 121, 100]⟩]

theorem crowd_hashes : crowd.map Key.hash = [7178146, 10433200, 9261643, 9060239, 22490926,
    21319637, 22037226, 21111313, 28834503, 27630140, 33078332, 32354563, 33542648, 17434926,
    18377173, 17655018, 18809873, 12719280, 13661259, 14096783, 2277721, 3187106] := by
  decide +kernel

theorem crowd_hashes_nodup : (crowd.map Key.hash).Nodup := by
  rw [crowd_hashes]
  decide

theorem crowd_nodup : crowd.Nodup := crowd_hashes_nodup.of_map Key.hash

theorem crowd_hash_lt {k : Bytes} (hk : k ∈ crowd) : Key.hash k < 2 ^ (hashBits - 6) := by
  have hall : ∀ h ∈ crowd.map Key.hash, h < 2 ^ (hashBits - 6) := by
    rw [crowd_hashes]
    decide
  exact hall _ (List.mem_map_of_mem hk)

theorem crowd_size {k : Bytes} (hk : k ∈ crowd) : k.size = 3 := by
  have hall : ∀ k ∈ crowd, k.size = 3 := by decide
  exact hall k hk

/-- Storing the crowd in a ready writer that holds nothing, with 512-byte blocks
and a frontier far within the largest file, runs. Every key is then bound to
the value, and the directory has more than six bits. -/
theorem Ready.storeCrowd (hr : Ready v ix) (hw : ix.file.writable = true)
    (hempty : (image v ix).slots = []) (hbs : ix.file.header.blockSize = 512)
    (hnext : ix.file.header.nextBlock ≤ 2 ^ 40) {value : Bytes} (hvs : value.size ≤ 4096) :
    ∃ v' ix', Runs (crowd.forM fun k => Index.store k value) (v, ix) () (v', ix') ∧
      Ready v' ix' ∧ ix'.file.writable = true ∧
      (∀ k ∈ crowd, (image v' ix').lookup k = some value) ∧ 6 < ix'.dir.bits := by
  have hroom : 2 ^ 40 + crowd.length * storeGrowth 512 4099 ≤ Volume.maxFileSize := by decide
  obtain ⟨v', ix', hrun, hr', hw', hin, -, -⟩ := hr.storeAll (m := 4099)
    (Nat.lt_of_le_of_lt hvs (by decide)) crowd hw
    (fun k hk => by
      rw [crowd_size hk]
      exact ⟨by decide, by omega⟩)
    crowd_hashes_nodup (by rw [hempty]; exact fun e he => absurd he List.not_mem_nil)
    (by rw [hbs]; omega)
  have hbs' : ix'.file.header.blockSize = 512 :=
    (leads_forM fun k => sameBlockSize_store k value) _ _ _ hrun |>.trans hbs
  refine ⟨v', ix', hrun, hr', hw', hin, hr'.sound.lt_bits_of_crowded crowd_nodup
    (fun k hk => ⟨value, hin k hk⟩) (p := 6) (c := 0) (by decide)
    (fun k hk => Nat.div_eq_of_lt (crowd_hash_lt hk)) ?_⟩
  rw [hr'.sound.elems, hbs']
  decide

/-! ## A new file -/

theorem laidOut_blockSize : laidOut.2.file.header.blockSize = 512 := by
  have h := sameBlockSize_bootstrap _ _ _ runs_bootstrap_blank
  rw [Prod.eta, Prod.eta] at h
  exact h

/-- A directory of 512-byte blocks starts with six bits. -/
theorem log2_block512 : (512 / 8 : Nat).log2 = 6 := by
  rw [show (512 / 8 : Nat) = 2 ^ 6 from rfl, Nat.log2_two_pow]

theorem log2_blank : (blank.2.file.header.blockSize / 8).log2 = 6 := log2_block512

theorem laidOut_dir_bits : laidOut.2.dir.bits = 6 :=
  (Ready.bootstrap blank_blank runs_bootstrap_blank).2.2.1.trans log2_blank

theorem laidOut_nextBlock_le : laidOut.2.file.header.nextBlock ≤ 1536 := by
  have h := (Ready.bootstrap blank_blank runs_bootstrap_blank).2.2.2
  rw [log2_blank] at h
  exact Nat.le_trans h (by decide)

theorem slots_laidOut : (image laidOut.1 laidOut.2).slots = [] :=
  (Ready.bootstrap blank_blank runs_bootstrap_blank).2.1

/-- Storing the crowd in a new file runs, binds every key of it, and doubles
the directory. -/
theorem crowd_laidOut {value : Bytes} (hvs : value.size ≤ 4096) :
    ∃ v ix, Runs (crowd.forM fun k => Index.store k value) (laidOut.1, laidOut.2) () (v, ix) ∧
      Ready v ix ∧ ix.file.writable = true ∧
      (∀ k ∈ crowd, (image v ix).lookup k = some value) ∧ laidOut.2.dir.bits < ix.dir.bits := by
  obtain ⟨v, ix, hrun, hr, hw, hin, hbits⟩ := ready_laidOut.storeCrowd laidOut_writable
    slots_laidOut laidOut_blockSize (Nat.le_trans laidOut_nextBlock_le (by decide)) hvs
  exact ⟨v, ix, hrun, hr, hw, hin, by rw [laidOut_dir_bits]; exact hbits⟩


/-! ## Making room in a full bucket -/

/-- Storing the first twenty-one keys of the crowd in a ready writer that holds
nothing, with 512-byte blocks and a directory of six bits, runs and fills the
one bucket without a split: the directory keeps its six bits, and the bucket the
last key of the crowd selects is full. -/
theorem Ready.storeCrowdFirst (hr : Ready v ix) (hw : ix.file.writable = true)
    (hempty : (image v ix).slots = []) (hbs : ix.file.header.blockSize = 512)
    (hbits : ix.dir.bits = 6) (hnext : ix.file.header.nextBlock ≤ 1536) {value : Bytes}
    (hvs : value.size ≤ 4096) :
    ∃ v' ix', Runs ((crowd.take 21).forM fun k => Index.store k value) (v, ix) () (v', ix') ∧
      Ready v' ix' ∧ ix'.file.writable = true ∧
      (∀ k ∈ crowd.take 21, (image v' ix').lookup k = some value) ∧
      (image v' ix').keys.length ≤ 21 ∧ ix'.dir.bits = 6 ∧
      (bucketAt v' ix' (ix'.dir.entryAt (dirIndex 3187106 ix'.dir.bits))).isFull = true ∧
      (∀ e ∈ (image v' ix').slots, e.hash ≠ 3187106) ∧
      ix'.file.header.blockSize = 512 ∧
      ix'.file.header.nextBlock + hashBits * splitGrowth 512 ≤ Volume.maxFileSize := by
  have hkeys0 : (image v ix).keys = [] := by
    rw [Image.keys, hempty, List.map_nil]
  have hmem : ∀ k ∈ crowd.take 21, k ∈ crowd := fun k hk => List.mem_of_mem_take hk
  have hhashes : (crowd.take 21).map Key.hash = (crowd.map Key.hash).take 21 := List.map_take
  have hroom0 : ix.file.header.nextBlock +
      (crowd.take 21).length * storeGrowth ix.file.header.blockSize 4099 ≤ Volume.maxFileSize := by
    rw [hbs]
    exact Nat.le_trans (Nat.add_le_add_right hnext _) (by decide)
  obtain ⟨v', ix', hrun, hr', hw', hin, hout, hn⟩ := hr.storeAll (m := 4099)
    (Nat.lt_of_le_of_lt hvs (by decide)) (crowd.take 21) hw
    (fun k hk => by
      rw [crowd_size (hmem k hk)]
      exact ⟨by decide, by omega⟩)
    (by rw [hhashes, crowd_hashes]; decide)
    (by rw [hempty]; exact fun e he => absurd he List.not_mem_nil) hroom0
  have hbs' : ix'.file.header.blockSize = 512 :=
    ((leads_forM fun k => sameBlockSize_store k value) _ _ _ hrun).trans hbs
  have helems : ix'.file.header.bucketElems = 21 := by
    rw [hr'.sound.elems, hbs']
    rfl
  have hcount : (image v' ix').keys.length ≤ 21 := by
    have h := hr.sound.length_keys_storeAll (crowd.take 21) hrun
    rw [hkeys0] at h
    exact Nat.le_trans h (by decide)
  have hsame := hr.sound.storeAll_sameDir (crowd.take 21) hrun
    (by rw [hkeys0, hr.sound.elems, hbs]; decide)
  have hbits' : ix'.dir.bits = 6 := hsame.1.trans hbits
  have hfull : (bucketAt v' ix' (ix'.dir.entryAt (dirIndex 3187106 ix'.dir.bits))).isFull = true :=
    hr'.sound.isFull_of_crowded (crowd_nodup.sublist (List.take_sublist _ _))
      (fun k hk => ⟨value, hin k hk⟩) (p := 6) (c := 0) (by decide)
      (fun k hk => Nat.div_eq_of_lt (crowd_hash_lt (hmem k hk))) (by rw [hbits'])
      (by rw [helems]; decide) (by decide) (by decide)
  have hn' : ix'.file.header.nextBlock + hashBits * splitGrowth 512 ≤ Volume.maxFileSize := by
    rw [hbs] at hn
    exact Nat.le_trans (Nat.add_le_add_right (Nat.le_trans hn (Nat.add_le_add_right hnext _)) _)
      (by decide)
  refine ⟨v', ix', hrun, hr', hw', hin, hcount, hbits', hfull, fun e he => ?_, hbs', hn'⟩
  obtain ⟨o, ho, he'⟩ := Image.mem_slots.1 he
  have hkey : (image v' ix').keyOf e ∈ crowd.take 21 := by
    by_contra hnot
    have hnone := hout _ hnot
    rw [Image.lookup_keyOf hr'.sound.shaped.keys_nodup he,
      Image.lookup_eq_none (by rw [hkeys0]; exact List.not_mem_nil)] at hnone
    cases hnone
  rw [hr'.sound.shaped.hash_eq o ho e he']
  have hall : ∀ h ∈ (crowd.take 21).map Key.hash, h ≠ 3187106 := by
    rw [hhashes, crowd_hashes]
    decide
  exact hall _ (List.mem_map_of_mem hkey)

/-- Storing the first twenty-one keys of the crowd in a new file fills its
bucket without a split. -/
theorem crowdFirst_laidOut {value : Bytes} (hvs : value.size ≤ 4096) :
    ∃ v ix, Runs ((crowd.take 21).forM fun k => Index.store k value) (laidOut.1, laidOut.2) ()
        (v, ix) ∧ Ready v ix ∧ ix.file.writable = true ∧
      (∀ k ∈ crowd.take 21, (image v ix).lookup k = some value) ∧
      (image v ix).keys.length ≤ 21 ∧ ix.dir.bits = 6 ∧
      (bucketAt v ix (ix.dir.entryAt (dirIndex 3187106 ix.dir.bits))).isFull = true ∧
      (∀ e ∈ (image v ix).slots, e.hash ≠ 3187106) ∧
      ix.file.header.blockSize = 512 ∧
      ix.file.header.nextBlock + hashBits * splitGrowth 512 ≤ Volume.maxFileSize :=
  ready_laidOut.storeCrowdFirst laidOut_writable slots_laidOut laidOut_blockSize laidOut_dir_bits
    laidOut_nextBlock_le hvs

/-- What making room for `hash` from `(v, ix)` does, `b0` the depth of the
bucket the hash selects at the start. -/
structure RoomEnds (v : Volume) (ix : Index) (hash : Nat) : Prop where
  /-- The loop ends within `hashBits + 1 - b0` rounds, so after at most
  `hashBits - b0` splits: the run is the same under any bound on the rounds
  from there on, the loop's own bound among them. -/
  rounds : ∀ n, hashBits + 1 - selectedDepth v ix hash ≤ n →
    (makeRoom.go hash n).run.run (v, ix) = (makeRoom hash).run.run (v, ix)
  /-- A split of the selected bucket leaves the hash on a bucket one bit
  deeper, and hands every entry to the one of two new buckets, in the split
  bucket's place among the live ones, that its next hash bit names. -/
  deepens : ∀ v' ix', Runs (Index.split hash (ix.dir.entryAt (dirIndex hash ix.dir.bits))
      (selectedDepth v ix hash)) (v, ix) () (v', ix') →
    selectedDepth v' ix' hash = selectedDepth v ix hash + 1 ∧
    ∃ lo hi, lo ≠ hi ∧ lo ∉ (image v ix).live ∧ hi ∉ (image v ix).live ∧
      (image v' ix').live.Perm
        (lo :: hi :: (image v ix).live.erase (ix.dir.entryAt (dirIndex hash ix.dir.bits))) ∧
      (bucketAt v' ix' lo).entries.Perm
        ((bucketAt v ix (ix.dir.entryAt (dirIndex hash ix.dir.bits))).entries.filter
          fun e => splitBit e.hash (selectedDepth v ix hash + 1) = 0) ∧
      (bucketAt v' ix' hi).entries.Perm
        ((bucketAt v ix (ix.dir.entryAt (dirIndex hash ix.dir.bits))).entries.filter
          fun e => splitBit e.hash (selectedDepth v ix hash + 1) = 1)
  /-- At full depth a split fails instead of doubling the directory, and
  changes nothing. -/
  fullWidth : ix.dir.bits ≤ selectedDepth v ix hash → hashBits ≤ ix.dir.bits →
    (Index.split hash (ix.dir.entryAt (dirIndex hash ix.dir.bits)) (selectedDepth v ix hash)).run.run
      (v, ix) = (.error (.fatal .splitTooDeep), (v, ix))
  /-- An answer is the bucket the hash then selects, with a vacant slot. -/
  answer : ∀ off v' ix', Runs (makeRoom hash) (v, ix) off (v', ix') →
    ix'.dir.entryAt (dirIndex hash ix'.dir.bits) = off ∧ (bucketAt v' ix' off).isFull = false

/-- Making room for a hash in a sound index ends after at most `hashBits - b0`
splits, `b0` the depth of the bucket the hash selects at the start. -/
theorem makeRoom_ends_within_depth_gap (hs : Sound v ix) (hwr : ix.file.writable = true)
    (hh : hash < 2 ^ hashBits) : RoomEnds v ix hash := by
  refine ⟨fun n hn => hs.makeRoomGo_fuel hwr hh hn (by unfold hashBits at hn ⊢; omega), ?_,
    fun hD hw => split_at_full_width hD hw, fun off v' ix' hr => ?_⟩
  · intro v' ix' hr
    obtain ⟨lo, hi, hne, hlo, hhi, hlive, -, -, hentlo, henthi, -⟩ := hs.split_halves hwr hh rfl rfl hr
    exact ⟨hs.split_deepens hwr hh rfl rfl hr, lo, hi, hne, hlo, hhi, hlive, hentlo, henthi⟩
  · obtain ⟨-, -, -, hoff, hfree⟩ := hs.makeRoom hwr hh hr
    exact ⟨hoff, hfree⟩

/-- The last key of the crowd, after the first twenty-one filled the bucket of a
new file, makes room through splits and a doubling of the directory. -/
theorem makeRoom_ends_crowd :
    ∃ v ix, Runs ((crowd.take 21).forM fun k => Index.store k ⟨#[118]⟩) (laidOut.1, laidOut.2) ()
        (v, ix) ∧ Sound v ix ∧ ix.file.writable = true ∧ 3187106 < 2 ^ hashBits ∧
      (bucketAt v ix (ix.dir.entryAt (dirIndex 3187106 ix.dir.bits))).isFull = true ∧
      (∃ v' ix', Runs (Index.split 3187106 (ix.dir.entryAt (dirIndex 3187106 ix.dir.bits))
        (selectedDepth v ix 3187106)) (v, ix) () (v', ix')) ∧
      (∃ off v' ix', Runs (Index.makeRoom 3187106) (v, ix) off (v', ix') ∧
        ix.dir.bits < ix'.dir.bits) ∧
      RoomEnds v ix 3187106 := by
  have hh : (3187106 : Nat) < 2 ^ hashBits := by decide
  obtain ⟨v, ix, hrun, hr, hw, hin, -, hbits, hfull, hnone, hbs, hn⟩ :=
    crowdFirst_laidOut (by decide : (⟨#[118]⟩ : Bytes).size ≤ 4096)
  have hsd : selectedDepth v ix 3187106 < hashBits := by
    have := hr.sound.selectedDepth_le hh
    rw [hbits] at this
    exact Nat.lt_of_le_of_lt this (by decide)
  have hsplits : ix.file.header.nextBlock + hashBits * splitGrowth ix.file.header.blockSize ≤
      Volume.maxFileSize := by
    rw [hbs]
    exact hn
  obtain ⟨v1, ix1, hsplit, -⟩ := hr.split_runs hw hh rfl rfl hsd
    (Nat.le_trans (Nat.add_le_add_left (Nat.le_mul_of_pos_left _ (by decide)) _) hsplits)
  obtain ⟨off, v2, ix2, hroom, hr2, -⟩ := hr.makeRoom_runs hw hh hnone hsplits
  have hdeeper : ix.dir.bits < ix2.dir.bits := by
    obtain ⟨-, hsame, -, hoff2, hfree⟩ := hr.sound.makeRoom hw hh hroom
    refine Nat.lt_of_not_le fun hle => ?_
    rw [hbits] at hle
    have hbs2 : ix2.file.header.blockSize = 512 :=
      (sameBlockSize_makeRoom _ _ _ _ hroom).trans hbs
    have hlook : ∀ k, (image v2 ix2).lookup k = (image v ix).lookup k :=
      hsame.lookup hr.sound.shaped.keys_nodup
    have hfull2 := hr2.sound.isFull_of_crowded (crowd_nodup.sublist (List.take_sublist _ _))
      (fun k hk => ⟨_, (hlook k).trans (hin k hk)⟩) (p := 6) (c := 0) (by decide)
      (fun k hk => Nat.div_eq_of_lt (crowd_hash_lt (List.mem_of_mem_take hk))) hle
      (by rw [hr2.sound.elems, hbs2]; decide) hh (by decide)
    rw [hoff2, hfree] at hfull2
    cases hfull2
  exact ⟨v, ix, hrun, hr.sound, hw, hh, hfull, ⟨v1, ix1, hsplit⟩, ⟨off, v2, ix2, hroom, hdeeper⟩,
    makeRoom_ends_within_depth_gap hr.sound hw hh⟩

end Index

end HashFile
