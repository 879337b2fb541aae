import HashFile.Proofs.Coherence

/-!
# Sound indexes

`Sound v ix` is what every successful index action keeps: the image of the
index is an extendible hash table (`Image.Shaped`), the header's allocation
state is sound for the regions the image uses (`Header.Layout`), the block
size is valid and fixes the slots per bucket and the free list's capacity, and
the cache and the file are in step for every bucket the directory names.

From it follow the facts each action needs: the bucket blocks are spread
apart, the directory entry of a hash names a live bucket, and cache traffic
that keeps the live buckets and the bytes outside their blocks keeps the image
in agreement (`Sound.keeps`), so that lookups after it answer as before.
-/
namespace HashFile

theorem validBlockSize_bounds {n : Nat} (h : validBlockSize n = true) : 512 ≤ n ∧ n ≤ 65536 := by
  simp only [validBlockSize, Bool.and_eq_true, decide_eq_true_eq] at h
  exact ⟨h.1.1, h.1.2⟩

namespace Index

/-- An open index whose image is an extendible hash table laid out in its file. -/
structure Sound (v : Volume) (ix : Index) : Prop where
  shaped : (image v ix).Shaped
  layout : ix.file.header.Layout (image v ix).used
  blockSize : validBlockSize ix.file.header.blockSize = true
  elems : ix.file.header.bucketElems = elemsForBlock ix.file.header.blockSize
  capacity : ix.file.header.avail.capacity = availCapacity ix.file.header.blockSize
  coherent : Coherent v ix (image v ix).live

variable {v v' : Volume} {ix ix' : Index}

/-- The slots per bucket that a valid block size fixes fit the block. -/
theorem room_of_valid {bs elems : Nat} (hb : validBlockSize bs = true)
    (he : elems = elemsForBlock bs) : bucketHeaderSize + elems * slotBytes ≤ bs := by
  have := (validBlockSize_bounds hb).1
  rw [he]
  simp only [elemsForBlock, bucketHeaderSize, slotBytes]
  omega

/-- The slots per bucket that a valid block size fixes are a 32-bit word. -/
theorem elems_lt_of_valid {bs elems : Nat} (hb : validBlockSize bs = true)
    (he : elems = elemsForBlock bs) : elems < 2 ^ 32 := by
  have := room_of_valid hb he
  have := (validBlockSize_bounds hb).2
  simp only [bucketHeaderSize, slotBytes] at *
  omega

/-- The slots of a bucket fit its block. -/
theorem Sound.room (hs : Sound v ix) :
    bucketHeaderSize + ix.file.header.bucketElems * slotBytes ≤ ix.file.header.blockSize :=
  room_of_valid hs.blockSize hs.elems

/-- The regions in use, taken apart: the header block and the directory lie
apart from every bucket block and record, the bucket blocks from each other
and from the records. -/
theorem Sound.used_parts (hs : Sound v ix) :
    (∀ r ∈ ⟨ix.dir.offset, Directory.byteSize ix.dir.bits⟩ ::
        ((image v ix).live.map (image v ix).block ++ (image v ix).records),
      Region.Disjoint ⟨0, ix.file.header.blockSize⟩ r) ∧
    (∀ r ∈ (image v ix).live.map (image v ix).block ++ (image v ix).records,
      Region.Disjoint ⟨ix.dir.offset, Directory.byteSize ix.dir.bits⟩ r) ∧
    (image v ix).live.Pairwise (fun a b => ((image v ix).block a).Disjoint ((image v ix).block b)) ∧
    ∀ o ∈ (image v ix).live, ∀ r ∈ (image v ix).records, ((image v ix).block o).Disjoint r := by
  have hd := hs.layout.used_disjoint
  unfold Image.used at hd
  rw [List.pairwise_cons, List.pairwise_cons, List.pairwise_append, List.pairwise_map] at hd
  obtain ⟨hH, hD, hlive, -, hcross⟩ := hd
  exact ⟨hH, hD, hlive, fun o ho r hr => hcross _ (List.mem_map_of_mem ho) r hr⟩

/-- Blocks laid out apart from each other, from the header block and from the
directory are spread. -/
theorem spread_of_pairwise {L : List Nat} {R : List Region} (hpos : 0 < ix.file.header.blockSize)
    (hroom : bucketHeaderSize + ix.file.header.bucketElems * slotBytes ≤ ix.file.header.blockSize)
    (hpw : (⟨0, ix.file.header.blockSize⟩ :: ⟨ix.dir.offset, Directory.byteSize ix.dir.bits⟩ ::
      (L.map ix.blockOf ++ R)).Pairwise Region.Disjoint) : Spread ix L := by
  rw [List.pairwise_cons, List.pairwise_cons, List.pairwise_append, List.pairwise_map] at hpw
  obtain ⟨hH, hD, hL, -, -⟩ := hpw
  have : Std.Symm fun a b => (ix.blockOf a).Disjoint (ix.blockOf b) := ⟨fun _ _ h => h.symm⟩
  exact ⟨hpos, hroom, fun o ho o' ho' hne => hL.forall ho ho' hne,
    fun o ho => (hH _ (List.mem_cons_of_mem _ (List.mem_append_left _ (List.mem_map_of_mem ho)))).symm,
    fun o ho => (hD _ (List.mem_append_left _ (List.mem_map_of_mem ho))).symm⟩

/-- The bucket blocks the directory names are spread apart. -/
theorem Sound.spread (hs : Sound v ix) : Spread ix (image v ix).live :=
  spread_of_pairwise (by have := (validBlockSize_bounds hs.blockSize).1; omega) hs.room
    hs.layout.used_disjoint

/-- A record of positive size lies apart from every bucket block. -/
theorem Sound.block_disjoint_record (hs : Sound v ix) {o : Nat} (ho : o ∈ (image v ix).live)
    {e : Slot} (he : e ∈ (image v ix).slots) (hpos : 0 < e.recordSize) :
    ((image v ix).block o).Disjoint e.region :=
  hs.used_parts.2.2.2 o ho _ (List.mem_map_of_mem (List.mem_filter.2 ⟨he, by simpa using hpos⟩))

/-- The directory entry of an index below its size names a live bucket. -/
theorem Sound.get?_dir (hs : Sound v ix) {i : Nat} (hi : i < 2 ^ ix.dir.bits) :
    ix.dir.get? i = some (ix.dir.entryAt i) ∧ ix.dir.entryAt i ∈ (image v ix).live := by
  have hsize : i < ix.dir.size := by
    have := hs.shaped.aligned.size_eq
    simp only [image] at this
    omega
  exact ⟨Directory.get?_eq_entryAt hsize, Image.entryAt_mem_live hsize⟩

/-- A state whose image agrees with a sound one's, with the same header and the
cache and file in step for the same buckets, is sound. -/
theorem Sound.of_agree (hs : Sound v ix) (hag : (image v ix).Agree (image v' ix'))
    (hh : ix'.file.header = ix.file.header) (hc : Coherent v' ix' (image v ix).live) :
    Sound v' ix' := by
  refine ⟨hag.shaped hs.shaped, ?_, by rw [hh]; exact hs.blockSize, by rw [hh]; exact hs.elems,
    by rw [hh]; exact hs.capacity, by rw [hag.live]; exact hc⟩
  rw [hag.used, hh]
  exact hs.layout

/-- A write that misses every record, every clean live block, and the header
block and the directory while they are clean keeps the index sound and its
image. -/
theorem Sound.write (hs : Sound v ix) {off : Nat} {bytes : ByteArray}
    (hsz : off + bytes.size ≤ Volume.maxFileSize)
    (hblocks : ∀ o ∈ (image v ix).live, ¬ ix.DirtyAt o →
      Region.Disjoint ⟨off, bytes.size⟩ (ix.blockOf o))
    (hhdr : ix.file.headerDirty = false →
      Region.Disjoint ⟨off, bytes.size⟩ ⟨0, ix.file.header.blockSize⟩)
    (hdir : ix.dir.dirty = false →
      Region.Disjoint ⟨off, bytes.size⟩ ⟨ix.dir.offset, Directory.byteSize ix.dir.bits⟩)
    (hrec : ∀ r ∈ (image v ix).records, Region.Disjoint ⟨off, bytes.size⟩ r) :
    Sound (v.writeAt ix.file.handle.ino off bytes) ix ∧
      (image v ix).Agree (image (v.writeAt ix.file.handle.ino off bytes) ix) := by
  obtain ⟨hc, hb⟩ := hs.coherent.write hsz hblocks hhdr hdir
  have hag : (image v ix).Agree (image (v.writeAt ix.file.handle.ino off bytes) ix) := by
    refine ⟨rfl, rfl, rfl, rfl, rfl, rfl, rfl, hb, fun e he i hi1 hi2 => ?_⟩
    have hd := hrec _ (List.mem_map_of_mem (List.mem_filter.2 ⟨he, by simpa using
      (show 0 < e.recordSize by omega)⟩))
    simp only [Region.Disjoint, Region.stop, Slot.region] at hd
    show (ix.disk (v.writeAt ix.file.handle.ino off bytes)).byteAt i = (ix.disk v).byteAt i
    rw [show ix.disk (v.writeAt ix.file.handle.ino off bytes) = (ix.disk v).write off bytes from
      Volume.data_writeAt v hs.coherent.ino_lt off bytes]
    exact SparseBytes.byteAt_write_of_not_mem hs.coherent.ordered (by omega)
  exact ⟨hs.of_agree hag rfl hc, hag⟩

/-- Traffic that keeps the live buckets, and the bytes outside blocks of live
buckets, keeps the image in agreement. -/
theorem Sound.agree_of_keeps (hs : Sound v ix) {W : List Nat}
    (hW : ∀ o ∈ W, o ∈ (image v ix).live) (hk : Keeps (· ∈ (image v ix).live) W v ix v' ix') :
    (image v ix).Agree (image v' ix') := by
  have hh : ix'.file.header = ix.file.header := by rw [hk.file]
  refine ⟨by simp [image, hh], by simp [image, hh], by simp [image, hh], by simp [image, hh],
    by simp [image, hk.dir], by simp [image, hk.dir], by simp [image, hk.dir],
    fun o ho => hk.bucket o ho, fun e he i hi1 hi2 => ?_⟩
  refine hk.byte i fun o ho hin => ?_
  have hd := hs.block_disjoint_record (hW o ho) he (by omega)
  simp only [Region.Disjoint, Region.stop, Image.block, Slot.region, image] at hd
  omega

/-- Cache traffic that keeps the cache and the file in step for the live
buckets, and keeps them and the bytes outside their blocks, keeps the index
sound and its image in agreement. -/
theorem Sound.keeps (hs : Sound v ix) {W : List Nat} (hW : ∀ o ∈ W, o ∈ (image v ix).live)
    (hc : Coherent v' ix' (image v ix).live) (hk : Keeps (· ∈ (image v ix).live) W v ix v' ix') :
    Sound v' ix' ∧ (image v ix).Agree (image v' ix') := by
  have hag := hs.agree_of_keeps hW hk
  exact ⟨hs.of_agree hag (by rw [hk.file]) hc, hag⟩

end Index

end HashFile
