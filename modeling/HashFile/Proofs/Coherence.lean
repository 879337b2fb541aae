import HashFile.Proofs.IndexRuns
import HashFile.Proofs.Cache
import HashFile.Proofs.Image

/-!
# The cache and the file in step

An open index keeps buckets in its cache and writes them back when they are
evicted or flushed. `Coherent v ix L` says that this bookkeeping is sound for
the buckets at the offsets `L`: every cached bucket is one of them, and every
one of them that is not dirty in the cache is stored, encoded, in its block; a
clean header and a clean directory are stored too.

Moving buckets between the cache and the file changes nothing a lookup sees:
`Keeps L` relates two states with the same file, directory and buckets at `L`,
whose bytes differ only inside the blocks at `L`. Loading a bucket, caching one
and changing a cached one are proved here to keep `Coherent` and, but for the
bucket they are about, `Keeps`. They need the blocks at `L` to lie apart from
each other, from the header block and from the directory (`Spread`), which the
allocator's layout provides.
-/
namespace HashFile

namespace Volume

/-- Everything of `v'` but the bytes of the file `ino` is as in `v`. -/
structure Frame (ino : Nat) (v v' : Volume) : Prop where
  entries : v'.entries = v.entries
  nextDescription : v'.nextDescription = v.nextDescription
  dirs : v'.dirs = v.dirs
  size : v'.inodes.size = v.inodes.size
  mode : ∀ j, v'.mode j = v.mode j
  locks : ∀ j, (v'.inodes.getD j default).locks = (v.inodes.getD j default).locks
  data : ∀ j, j ≠ ino → v'.data j = v.data j

namespace Frame

variable {ino : Nat} {u v w : Volume}

theorem refl (ino : Nat) (v : Volume) : Frame ino v v :=
  ⟨rfl, rfl, rfl, rfl, fun _ => rfl, fun _ => rfl, fun _ _ => rfl⟩

theorem trans (h1 : Frame ino u v) (h2 : Frame ino v w) : Frame ino u w :=
  ⟨h2.entries.trans h1.entries, h2.nextDescription.trans h1.nextDescription,
    h2.dirs.trans h1.dirs, h2.size.trans h1.size, fun j => (h2.mode j).trans (h1.mode j),
    fun j => (h2.locks j).trans (h1.locks j), fun j hj => (h2.data j hj).trans (h1.data j hj)⟩

end Frame

theorem frame_modifyData (v : Volume) (ino : Nat) (f : SparseBytes → SparseBytes) :
    Frame ino v (v.modifyData ino f) := by
  refine ⟨rfl, rfl, rfl, size_modifyData v ino f, fun j => ?_, fun j => ?_,
    fun j hj => data_modifyData_ne v hj f⟩
  · simp only [mode, modifyData, Array.getD_eq_getD_getElem?, Array.getElem?_modify]
    split <;> cases v.inodes[j]? <;> rfl
  · simp only [modifyData, Array.getD_eq_getD_getElem?, Array.getElem?_modify]
    split <;> cases v.inodes[j]? <;> rfl

theorem frame_writeAt (v : Volume) (ino off : Nat) (bytes : ByteArray) :
    Frame ino v (v.writeAt ino off bytes) := by
  unfold writeAt
  split
  · exact Frame.refl ino v
  · exact frame_modifyData v ino _

theorem frame_setLen (v : Volume) (ino len : Nat) : Frame ino v (v.setLen ino len) :=
  frame_modifyData v ino _

end Volume

namespace Index

/-- The block of the bucket at `o` holds the encoding of that bucket. -/
def StoredAt (v : Volume) (ix : Index) (o : Nat) : Prop :=
  o + ix.file.header.blockSize ≤ (ix.disk v).size ∧
    SparseBytes.window (ix.disk v).byteAt o ix.file.header.blockSize =
      (bucketAt v ix o).encode ix.file.header.blockSize

/-- The bucket cached at `o` has changes not yet written. -/
def DirtyAt (ix : Index) (o : Nat) : Prop := ∃ e ∈ ix.cache.entries, e.offset = o ∧ e.dirty = true

/-- The header block holds the header. -/
def HeaderStored (v : Volume) (ix : Index) : Prop :=
  ix.file.header.blockSize ≤ (ix.disk v).size ∧ ∃ block, ix.file.header.encode = .ok block ∧
    SparseBytes.window (ix.disk v).byteAt 0 ix.file.header.blockSize = block

/-- The directory's region holds the directory. -/
def DirStored (v : Volume) (ix : Index) : Prop :=
  ix.dir.offset + Directory.byteSize ix.dir.bits ≤ (ix.disk v).size ∧
    SparseBytes.window (ix.disk v).byteAt ix.dir.offset (Directory.byteSize ix.dir.bits) =
      ix.dir.encode

/-- The cache and the file are in step for the buckets at `L`. -/
structure Coherent (v : Volume) (ix : Index) (L : List Nat) : Prop where
  ino_lt : ix.file.handle.ino < v.inodes.size
  ordered : SparseBytes.Ordered (ix.disk v).runs
  size_le : (ix.disk v).size ≤ Volume.maxFileSize
  distinct : ix.cache.Distinct
  cached : ∀ e ∈ ix.cache.entries, e.offset ∈ L
  fits : ∀ e ∈ ix.cache.entries, e.bucket.Fits ix.file.header.bucketElems
  stored : ∀ o ∈ L, ¬ ix.DirtyAt o → StoredAt v ix o
  clean : ix.file.writable = false → ∀ e ∈ ix.cache.entries, e.dirty = false
  header : ix.file.headerDirty = false → HeaderStored v ix
  dir : ix.dir.dirty = false → DirStored v ix

/-- The block of the bucket at an offset, for an index. -/
def blockOf (ix : Index) (o : Nat) : Region := ⟨o, ix.file.header.blockSize⟩

/-- The blocks at `L` lie apart from each other, from the header block and from
the directory, and hold a bucket's slots. -/
structure Spread (ix : Index) (L : List Nat) : Prop where
  pos : 0 < ix.file.header.blockSize
  room : bucketHeaderSize + ix.file.header.bucketElems * slotBytes ≤ ix.file.header.blockSize
  apart : ∀ o ∈ L, ∀ o' ∈ L, o ≠ o' → (ix.blockOf o).Disjoint (ix.blockOf o')
  header : ∀ o ∈ L, (ix.blockOf o).Disjoint ⟨0, ix.file.header.blockSize⟩
  dir : ∀ o ∈ L, (ix.blockOf o).Disjoint ⟨ix.dir.offset, Directory.byteSize ix.dir.bits⟩

/-- Cache traffic: only the index's file and cache changed, the buckets at the
offsets `S` holds of are what they were, and so is every byte outside the blocks
at `W`. -/
structure Keeps (S : Nat → Prop) (W : List Nat) (v : Volume) (ix : Index) (v' : Volume)
    (ix' : Index) : Prop where
  frame : Volume.Frame ix.file.handle.ino v v'
  file : ix'.file = ix.file
  dir : ix'.dir = ix.dir
  options : ix'.options = ix.options
  syncMode : ix'.syncMode = ix.syncMode
  capacity : ix'.cache.capacity = ix.cache.capacity
  bucket : ∀ o, S o → bucketAt v' ix' o = bucketAt v ix o
  byte : ∀ i, (∀ o ∈ W, ¬ (o ≤ i ∧ i < o + ix.file.header.blockSize)) →
    (ix'.disk v').byteAt i = (ix.disk v).byteAt i

/-- What every index action keeps of the world: the volume but for the bytes
of the index's file, and that file, open in the same mode. -/
structure Stays (v : Volume) (ix : Index) (v' : Volume) (ix' : Index) : Prop where
  frame : Volume.Frame ix.file.handle.ino v v'
  handle : ix'.file.handle = ix.file.handle
  writable : ix'.file.writable = ix.file.writable

variable {v v' v'' : Volume} {ix ix' ix'' : Index} {L W W' : List Nat} {S : Nat → Prop}

namespace Stays

theorem refl (v : Volume) (ix : Index) : Stays v ix v ix := ⟨Volume.Frame.refl _ v, rfl, rfl⟩

theorem trans (h1 : Stays v ix v' ix') (h2 : Stays v' ix' v'' ix'') : Stays v ix v'' ix'' :=
  ⟨h1.frame.trans (h1.handle ▸ h2.frame), h2.handle.trans h1.handle,
    h2.writable.trans h1.writable⟩

end Stays

namespace Keeps

theorem refl (S : Nat → Prop) (W : List Nat) (v : Volume) (ix : Index) : Keeps S W v ix v ix :=
  ⟨Volume.Frame.refl _ v, rfl, rfl, rfl, rfl, rfl, fun _ _ => rfl, fun _ _ => rfl⟩

theorem trans (h1 : Keeps S W v ix v' ix') (h2 : Keeps S W' v' ix' v'' ix'') :
    Keeps S (W ++ W') v ix v'' ix'' := by
  refine ⟨h1.frame.trans (h1.file ▸ h2.frame), h2.file.trans h1.file, h2.dir.trans h1.dir,
    h2.options.trans h1.options, h2.syncMode.trans h1.syncMode, h2.capacity.trans h1.capacity,
    fun o ho => (h2.bucket o ho).trans (h1.bucket o ho), fun i hi => ?_⟩
  rw [h2.byte i (by rw [h1.file]; exact fun o ho => hi o (List.mem_append_right _ ho)),
    h1.byte i fun o ho => hi o (List.mem_append_left _ ho)]

theorem stays (h : Keeps S W v ix v' ix') : Stays v ix v' ix' :=
  ⟨h.frame, by rw [h.file], by rw [h.file]⟩

theorem mono {S' : Nat → Prop} (h : Keeps S W v ix v' ix') (hS : ∀ o, S' o → S o)
    (hW : ∀ o ∈ W, o ∈ W') : Keeps S' W' v ix v' ix' :=
  ⟨h.frame, h.file, h.dir, h.options, h.syncMode, h.capacity, fun o ho => h.bucket o (hS o ho),
    fun i hi => h.byte i fun o ho => hi o (hW o ho)⟩

end Keeps

theorem Coherent.congr {L' : List Nat} (hc : Coherent v ix L) (h : ∀ o, o ∈ L ↔ o ∈ L') :
    Coherent v ix L' :=
  ⟨hc.ino_lt, hc.ordered, hc.size_le, hc.distinct, fun e he => (h _).1 (hc.cached e he), hc.fits,
    fun o ho hnd => hc.stored o ((h o).2 ho) hnd, hc.clean, hc.header, hc.dir⟩

theorem Spread.mono {L' : List Nat} (hs : Spread ix L) (h : ∀ o ∈ L', o ∈ L) : Spread ix L' :=
  ⟨hs.pos, hs.room, fun o ho o' ho' hne => hs.apart o (h o ho) o' (h o' ho') hne,
    fun o ho => hs.header o (h o ho), fun o ho => hs.dir o (h o ho)⟩

/-- The blocks are spread whatever the cache holds. -/
theorem Spread.recache (hs : Spread ix L) (c : BucketCache) : Spread { ix with cache := c } L :=
  ⟨hs.pos, hs.room, hs.apart, hs.header, hs.dir⟩

/-- A bucket stored in its block joins the buckets in step. -/
theorem Coherent.cons (hc : Coherent v ix L) {o : Nat} (hs : StoredAt v ix o) :
    Coherent v ix (o :: L) :=
  ⟨hc.ino_lt, hc.ordered, hc.size_le, hc.distinct,
    fun e he => List.mem_cons_of_mem _ (hc.cached e he), hc.fits,
    fun o' ho' hnd => by
      rcases List.mem_cons.1 ho' with rfl | ho'
      · exact hs
      · exact hc.stored o' ho' hnd, hc.clean, hc.header, hc.dir⟩

theorem disk_eq (ix : Index) (v : Volume) : ix.disk v = v.data ix.file.handle.ino := rfl

/-- The bucket stored in a block that holds its encoding. -/
theorem storedBucket_of_window {o : Nat} {b : Bucket}
    (hb : b.Fits ix.file.header.bucketElems)
    (hroom : bucketHeaderSize + ix.file.header.bucketElems * slotBytes ≤ ix.file.header.blockSize)
    (hw : SparseBytes.window (ix.disk v).byteAt o ix.file.header.blockSize =
      b.encode ix.file.header.blockSize) : storedBucket v ix o = b := by
  unfold storedBucket
  rw [hw, Bucket.decode_encode hb hroom]

theorem bucketAt_of_mem (hd : ix.cache.Distinct) {e : CacheEntry} (he : e ∈ ix.cache.entries) :
    bucketAt v ix e.offset = e.bucket := by
  simp [bucketAt, BucketCache.find?_of_mem hd he]

theorem bucketAt_of_uncached {o : Nat} (h : ∀ e ∈ ix.cache.entries, e.offset ≠ o) :
    bucketAt v ix o = storedBucket v ix o := by
  simp [bucketAt, BucketCache.find?_eq_none h]

/-- The bucket at an offset reads only the cache, the file and the bucket
format. -/
theorem bucketAt_congr {ix' : Index} (hcache : ix'.cache = ix.cache)
    (hhandle : ix'.file.handle = ix.file.handle)
    (hbs : ix'.file.header.blockSize = ix.file.header.blockSize)
    (helems : ix'.file.header.bucketElems = ix.file.header.bucketElems) :
    bucketAt v ix' = bucketAt v ix := by
  funext o
  simp only [bucketAt, storedBucket, disk, hcache, hhandle, hbs, helems]

/-- A new header or directory that keeps the bucket format, the file and the
cache keeps them in step, once the header and the directory are stored or
waiting to be written. -/
theorem Coherent.reheader {ix' : Index} (hc : Coherent v ix L) (hcache : ix'.cache = ix.cache)
    (hhandle : ix'.file.handle = ix.file.handle) (hwritable : ix'.file.writable = ix.file.writable)
    (hbs : ix'.file.header.blockSize = ix.file.header.blockSize)
    (helems : ix'.file.header.bucketElems = ix.file.header.bucketElems)
    (hhdr : ix'.file.headerDirty = false → HeaderStored v ix')
    (hdir : ix'.dir.dirty = false → DirStored v ix') : Coherent v ix' L := by
  have hdisk : ix'.disk v = ix.disk v := by rw [disk_eq, disk_eq, hhandle]
  have hb := bucketAt_congr (v := v) hcache hhandle hbs helems
  have hdirty : ∀ o, ix'.DirtyAt o ↔ ix.DirtyAt o := fun o => by
    simp only [DirtyAt, hcache]
  refine ⟨by rw [hhandle]; exact hc.ino_lt, by rw [hdisk]; exact hc.ordered,
    by rw [hdisk]; exact hc.size_le, by unfold BucketCache.Distinct; rw [hcache]; exact hc.distinct,
    fun e he => hc.cached e (hcache ▸ he), fun e he => helems ▸ hc.fits e (hcache ▸ he),
    fun o ho hnd => ?_, fun hw e he => hc.clean (hwritable ▸ hw) e (hcache ▸ he), hhdr, hdir⟩
  obtain ⟨hlen, hwin⟩ := hc.stored o ho ((not_congr (hdirty o)).1 hnd)
  exact ⟨by rw [hdisk, hbs]; exact hlen, by rw [hdisk, hbs, hb]; exact hwin⟩

/-- Taking a bucket out of the cache keeps the others in step. -/
theorem Coherent.remove (hc : Coherent v ix L) (hnd : L.Nodup) (o : Nat) :
    Coherent v { ix with cache := (ix.cache.remove o).2 } (L.erase o) ∧
      ∀ x, x ≠ o → bucketAt v { ix with cache := (ix.cache.remove o).2 } x = bucketAt v ix x := by
  have hb : ∀ x, x ≠ o → bucketAt v { ix with cache := (ix.cache.remove o).2 } x =
      bucketAt v ix x := fun x hx => by
    simp only [bucketAt, BucketCache.find?_remove, if_neg hx]
    rfl
  refine ⟨⟨hc.ino_lt, hc.ordered, hc.size_le, hc.distinct.remove o, fun e he => ?_,
    fun e he => hc.fits e (BucketCache.mem_remove.1 he).1, fun x hx hnd' => ?_,
    fun hw e he => hc.clean hw e (BucketCache.mem_remove.1 he).1, hc.header, hc.dir⟩, hb⟩
  · obtain ⟨he, hne⟩ := BucketCache.mem_remove.1 he
    exact hnd.mem_erase_iff.2 ⟨hne, hc.cached e he⟩
  · obtain ⟨hxo, hx⟩ := hnd.mem_erase_iff.1 hx
    have hnd'' : ¬ ix.DirtyAt x := fun ⟨e, he, heo, hd⟩ =>
      hnd' ⟨e, BucketCache.mem_remove.2 ⟨he, heo ▸ hxo⟩, heo, hd⟩
    obtain ⟨hlen, hwin⟩ := hc.stored x hx hnd''
    exact ⟨hlen, by rw [hb x hxo]; exact hwin⟩

/-! ## Writes outside the stored blocks -/

/-- A write that misses every stored block, and the header and directory when
they are stored, keeps the cache and the file in step and every bucket. -/
theorem Coherent.write (hc : Coherent v ix L) {off : Nat} {bytes : ByteArray}
    (hsz : off + bytes.size ≤ Volume.maxFileSize)
    (hblocks : ∀ o ∈ L, ¬ ix.DirtyAt o → Region.Disjoint ⟨off, bytes.size⟩ (ix.blockOf o))
    (hhdr : ix.file.headerDirty = false →
      Region.Disjoint ⟨off, bytes.size⟩ ⟨0, ix.file.header.blockSize⟩)
    (hdir : ix.dir.dirty = false →
      Region.Disjoint ⟨off, bytes.size⟩ ⟨ix.dir.offset, Directory.byteSize ix.dir.bits⟩) :
    Coherent (v.writeAt ix.file.handle.ino off bytes) ix L ∧
      ∀ o ∈ L, bucketAt (v.writeAt ix.file.handle.ino off bytes) ix o = bucketAt v ix o := by
  have hdisk : ix.disk (v.writeAt ix.file.handle.ino off bytes) = (ix.disk v).write off bytes :=
    Volume.data_writeAt v hc.ino_lt off bytes
  have hwin : ∀ o n, Region.Disjoint ⟨off, bytes.size⟩ ⟨o, n⟩ →
      SparseBytes.window (ix.disk (v.writeAt ix.file.handle.ino off bytes)).byteAt o n =
        SparseBytes.window (ix.disk v).byteAt o n := fun o n h => by
    rw [hdisk, SparseBytes.window_write_of_disjoint hc.ordered]
    simp only [Region.Disjoint, Region.stop] at h
    omega
  have hsize : (ix.disk v).size ≤ ((ix.disk v).write off bytes).size := by
    rcases SparseBytes.le_size_write (ix.disk v) off bytes with h | h
    · exact h.1
    · simp only [SparseBytes.write_of_size_eq_zero _ _ h, Nat.le_refl]
  have hbucket : ∀ o ∈ L, bucketAt (v.writeAt ix.file.handle.ino off bytes) ix o =
      bucketAt v ix o := by
    intro o ho
    by_cases hcached : ∃ e ∈ ix.cache.entries, e.offset = o
    · obtain ⟨e, he, rfl⟩ := hcached
      rw [bucketAt_of_mem hc.distinct he, bucketAt_of_mem hc.distinct he]
    · have hu : ∀ e ∈ ix.cache.entries, e.offset ≠ o := fun e he h => hcached ⟨e, he, h⟩
      have hnd : ¬ ix.DirtyAt o := by
        rintro ⟨e, he, heo, -⟩
        exact hu e he heo
      rw [bucketAt_of_uncached hu, bucketAt_of_uncached hu]
      unfold storedBucket
      rw [hwin o _ (hblocks o ho hnd)]
  refine ⟨⟨by simpa using hc.ino_lt, by rw [hdisk]; exact SparseBytes.ordered_write hc.ordered _ _,
    by rw [hdisk]; exact SparseBytes.size_write_le hc.size_le hsz, hc.distinct, hc.cached, hc.fits,
    fun o ho hnd => ?_, hc.clean, fun hh => ?_, fun hd => ?_⟩, hbucket⟩
  · obtain ⟨hlen, hw⟩ := hc.stored o ho hnd
    refine ⟨by rw [hdisk]; omega, ?_⟩
    rw [hwin o _ (hblocks o ho hnd), hbucket o ho]
    exact hw
  · obtain ⟨hlen, block, he, hw⟩ := hc.header hh
    exact ⟨by rw [hdisk]; omega, block, he, by rw [hwin 0 _ (hhdr hh)]; exact hw⟩
  · obtain ⟨hlen, hw⟩ := hc.dir hd
    exact ⟨by rw [hdisk]; omega, by rw [hwin _ _ (hdir hd)]; exact hw⟩

/-- What is written lies in the file, and is read back where it lies. -/
theorem Coherent.written (hc : Coherent v ix L) (off : Nat) {bytes : ByteArray}
    (hpos : 0 < bytes.size) :
    off + bytes.size ≤ (ix.disk (v.writeAt ix.file.handle.ino off bytes)).size ∧
      SparseBytes.window (ix.disk (v.writeAt ix.file.handle.ino off bytes)).byteAt off bytes.size =
        bytes := by
  rw [disk_eq, Volume.data_writeAt v hc.ino_lt off bytes]
  refine ⟨?_, SparseBytes.window_write_self hc.ordered off bytes⟩
  rcases SparseBytes.le_size_write (ix.disk v) off bytes with h | h
  · exact h.2
  · omega

theorem dirtyAt_iff (hd : ix.cache.Distinct) {e : CacheEntry} (he : e ∈ ix.cache.entries) :
    ix.DirtyAt e.offset ↔ e.dirty = true := by
  constructor
  · rintro ⟨e', he', heo, hdirty⟩
    rwa [List.inj_on_of_nodup_map hd he' he heo] at hdirty
  · intro h
    exact ⟨e, he, rfl, h⟩

theorem not_dirtyAt {o : Nat} (h : ∀ e ∈ ix.cache.entries, e.offset ≠ o) : ¬ ix.DirtyAt o :=
  fun ⟨e, he, heo, _⟩ => h e he heo

/-- An offset the cache has no entry for. -/
theorem uncached_of_find? (hd : ix.cache.Distinct) {o : Nat} (h : ix.cache.find? o = none) :
    ∀ e ∈ ix.cache.entries, e.offset ≠ o := by
  intro e he heo
  rw [← heo, BucketCache.find?_of_mem hd he] at h
  cases h

/-! ## Marking what is stored clean -/

/-- A cached bucket that its block holds may be marked clean. -/
theorem Coherent.markClean (hc : Coherent v ix L) {o : Nat} (hst : StoredAt v ix o) :
    Coherent v { ix with cache := ix.cache.markClean o } L := by
  have hb : ∀ x, bucketAt v { ix with cache := ix.cache.markClean o } x = bucketAt v ix x :=
    fun x => by simp only [bucketAt, BucketCache.find?_markClean]; rfl
  refine ⟨hc.ino_lt, hc.ordered, hc.size_le, ?_, fun e he => ?_, fun e he => ?_,
    fun x hx hnd => ?_, fun hro e he => ?_, hc.header, hc.dir⟩
  · unfold BucketCache.Distinct
    rw [BucketCache.offsets_markClean]
    exact hc.distinct
  · obtain ⟨e0, he0, rfl⟩ := BucketCache.mem_markClean.1 he
    split <;> exact hc.cached e0 he0
  · obtain ⟨e0, he0, rfl⟩ := BucketCache.mem_markClean.1 he
    split <;> exact hc.fits e0 he0
  · by_cases hxo : x = o
    · subst hxo
      exact ⟨hst.1, by rw [hb]; exact hst.2⟩
    · have hnd' : ¬ ix.DirtyAt x := fun ⟨e, he, heo, hd⟩ =>
        hnd ⟨e, BucketCache.mem_markClean.2 ⟨e, he, by simp [heo, hxo]⟩, heo, hd⟩
      obtain ⟨hlen, hwin⟩ := hc.stored x hx hnd'
      exact ⟨hlen, by rw [hb]; exact hwin⟩
  · obtain ⟨e0, he0, rfl⟩ := BucketCache.mem_markClean.1 he
    split
    · rfl
    · exact hc.clean hro e0 he0

/-- A directory its region holds may be marked clean. -/
theorem Coherent.cleanDir (hc : Coherent v ix L) (hd : DirStored v ix) :
    Coherent v { ix with dir := { ix.dir with dirty := false } } L :=
  ⟨hc.ino_lt, hc.ordered, hc.size_le, hc.distinct, hc.cached, hc.fits, hc.stored, hc.clean,
    hc.header, fun _ => hd⟩

/-- A header its block holds may be marked clean. -/
theorem Coherent.cleanHeader (hc : Coherent v ix L) (hh : HeaderStored v ix) :
    Coherent v { ix with file := { ix.file with headerDirty := false } } L :=
  ⟨hc.ino_lt, hc.ordered, hc.size_le, hc.distinct, hc.cached, hc.fits, hc.stored, hc.clean,
    fun _ => hh, hc.dir⟩

/-! ## Writing buckets back -/

/-- Writing a bucket into a block that no clean bucket at `L` owns, with the
blocks spread: the block then holds that bucket's encoding, and the buckets at
`L` and every byte outside the block are kept. -/
theorem Coherent.writeBlock (hc : Coherent v ix L) {o : Nat} (hsp : Spread ix (o :: L))
    (hown : ∀ x ∈ L, ¬ ix.DirtyAt x → x ≠ o) (b : Bucket)
    (hsz : o + ix.file.header.blockSize ≤ Volume.maxFileSize) :
    Coherent (v.writeAt ix.file.handle.ino o (b.encode ix.file.header.blockSize)) ix L ∧
      Keeps (· ∈ L) [o] v ix
        (v.writeAt ix.file.handle.ino o (b.encode ix.file.header.blockSize)) ix ∧
      o + ix.file.header.blockSize ≤
        (ix.disk (v.writeAt ix.file.handle.ino o (b.encode ix.file.header.blockSize))).size ∧
      SparseBytes.window
        (ix.disk (v.writeAt ix.file.handle.ino o (b.encode ix.file.header.blockSize))).byteAt o
        ix.file.header.blockSize = b.encode ix.file.header.blockSize := by
  have hdisk : ix.disk (v.writeAt ix.file.handle.ino o (b.encode ix.file.header.blockSize)) =
      (ix.disk v).write o (b.encode ix.file.header.blockSize) :=
    Volume.data_writeAt v hc.ino_lt o _
  have hself : (⟨o, (b.encode ix.file.header.blockSize).size⟩ : Region) = ix.blockOf o := by
    simp [blockOf]
  obtain ⟨hc1, hb1⟩ := hc.write
    (by simpa using hsz : o + (b.encode ix.file.header.blockSize).size ≤ Volume.maxFileSize)
    (fun x hx hnd => by
      rw [hself]
      exact hsp.apart o List.mem_cons_self x (List.mem_cons_of_mem _ hx) (hown x hx hnd).symm)
    (fun _ => by rw [hself]; exact hsp.header o List.mem_cons_self)
    (fun _ => by rw [hself]; exact hsp.dir o List.mem_cons_self)
  refine ⟨hc1, ⟨Volume.frame_writeAt v _ o _, rfl, rfl, rfl, rfl, rfl, hb1, fun i hi => ?_⟩, ?_, ?_⟩
  · rw [hdisk, SparseBytes.byteAt_write_of_not_mem hc.ordered
      (by simpa using hi o List.mem_cons_self)]
  · rw [hdisk]
    rcases SparseBytes.le_size_write (ix.disk v) o (b.encode ix.file.header.blockSize) with h | h
    · simpa using h.2
    · simp only [Bucket.size_encode] at h
      exact absurd h (Nat.pos_iff_ne_zero.1 hsp.pos)
  · rw [hdisk]
    simpa using SparseBytes.window_write_self hc.ordered o (b.encode ix.file.header.blockSize)

/-- Writing back buckets that are not cached stores each in its block, and
keeps the buckets at `L` and every byte outside the blocks written. -/
theorem Coherent.writeBack {P : List (Nat × Bucket)} (hc : Coherent v ix L)
    (hsp : Spread ix (L ++ P.map Prod.fst)) (hnd : (P.map Prod.fst).Nodup)
    (hP : ∀ p ∈ P, p.1 ∉ L ∧ p.2.Fits ix.file.header.bucketElems)
    (hr : Runs (writeBack P) (v, ix) () (v', ix')) :
    ix' = ix ∧ Coherent v' ix (L ++ P.map Prod.fst) ∧
      Keeps (· ∈ L) (P.map Prod.fst) v ix v' ix ∧ ∀ p ∈ P, bucketAt v' ix p.1 = p.2 := by
  induction P generalizing v L with
  | nil =>
    unfold writeBack at hr
    obtain ⟨rfl, rfl⟩ := Prod.mk.inj (runs_forM_nil.1 hr)
    exact ⟨rfl, by simpa using hc, Keeps.refl _ _ _ _, by simp⟩
  | cons p P ih =>
    obtain ⟨o, b⟩ := p
    unfold writeBack at hr
    obtain ⟨s1, h1, h2⟩ := runs_forM_cons.1 hr
    obtain ⟨-, hsz, rfl⟩ := runs_writeAt.1 (runs_writeBucket.1 h1)
    obtain ⟨hoL, hb⟩ := hP (o, b) List.mem_cons_self
    have hu : ∀ e ∈ ix.cache.entries, e.offset ≠ o := fun e he h => hoL (h ▸ hc.cached e he)
    obtain ⟨hc1, hk1, hlen, hwin⟩ := hc.writeBlock (o := o)
      (hsp.mono fun x hx => by
        simp only [List.mem_cons, List.mem_append, List.map_cons] at hx ⊢; tauto)
      (fun x hx _ h => hoL (h ▸ hx)) b (by simpa using hsz)
    have hbo : bucketAt (v.writeAt ix.file.handle.ino o (b.encode ix.file.header.blockSize)) ix o =
        b := by
      rw [bucketAt_of_uncached hu]
      exact storedBucket_of_window hb hsp.room hwin
    have hnd' := List.nodup_cons.1 hnd
    obtain ⟨rfl, hc2, hk2, hP2⟩ := ih (hc1.cons ⟨hlen, by rw [hbo]; exact hwin⟩)
      (hsp.mono fun x hx => by
        simp only [List.mem_cons, List.mem_append, List.map_cons] at hx ⊢; tauto)
      hnd'.2
      (fun p hp => ⟨fun hp' => by
        rcases List.mem_cons.1 hp' with h | h
        · exact hnd'.1 (List.mem_map.2 ⟨p, hp, h⟩)
        · exact (hP p (List.mem_cons_of_mem _ hp)).1 h, (hP p (List.mem_cons_of_mem _ hp)).2⟩)
      h2
    refine ⟨rfl, hc2.congr fun x => by simp only [List.mem_cons, List.mem_append, List.map_cons]; tauto,
      (hk1.trans (hk2.mono (fun x hx => List.mem_cons_of_mem _ hx) fun _ h => h)).mono
        (fun _ h => h) (fun x hx => by simpa using hx), fun p hp => ?_⟩
    rcases List.mem_cons.1 hp with rfl | hp
    · rw [hk2.bucket o List.mem_cons_self]
      exact hbo
    · exact hP2 p hp

/-! ## Caching buckets -/

/-- Replacing the cache: an entry `n` goes in, the entries `dropped` come out,
the rest stays. Until the dirty ones dropped are written back, the cache and
the file are in step at every offset but theirs; the cache answers `n`'s
bucket, and every other bucket not dropped dirty is kept. -/
theorem Coherent.recache (hc : Coherent v ix L)
    (hroom : bucketHeaderSize + ix.file.header.bucketElems * slotBytes ≤ ix.file.header.blockSize)
    {c' : BucketCache} {dropped : List CacheEntry} {n : CacheEntry}
    (hmem : ∀ x, x ∈ c'.entries ∨ x ∈ dropped ↔
      x = n ∨ (x ∈ ix.cache.entries ∧ x.offset ≠ n.offset))
    (hnd : ((c'.entries ++ dropped).map CacheEntry.offset).Nodup)
    (hdn : ∀ e ∈ dropped, e.offset ≠ n.offset)
    (hfit : n.bucket.Fits ix.file.header.bucketElems)
    (hst : n.dirty = false → n.offset + ix.file.header.blockSize ≤ (ix.disk v).size ∧
      SparseBytes.window (ix.disk v).byteAt n.offset ix.file.header.blockSize =
        n.bucket.encode ix.file.header.blockSize)
    (hw : n.dirty = true → ix.file.writable = true) :
    Coherent v { ix with cache := c' } ((n.offset :: L).filter fun x =>
        x ∉ (dropped.filter CacheEntry.dirty).map CacheEntry.offset) ∧
      c'.find? n.offset = some n.bucket ∧
      ∀ x ∈ L, x ≠ n.offset → x ∉ (dropped.filter CacheEntry.dirty).map CacheEntry.offset →
        bucketAt v { ix with cache := c' } x = bucketAt v ix x := by
  rw [List.map_append, List.nodup_append] at hnd
  obtain ⟨hd0, -, hsep⟩ := hnd
  have hd1 : ({ ix with cache := c' } : Index).cache.Distinct := hd0
  have hnew : n ∈ c'.entries := ((hmem n).2 (.inl rfl)).resolve_right fun h => hdn n h rfl
  have hkept : ∀ e ∈ c'.entries, e = n ∨ (e ∈ ix.cache.entries ∧ e.offset ≠ n.offset) :=
    fun e he => (hmem e).1 (.inl he)
  have hfind : c'.find? n.offset = some n.bucket := BucketCache.find?_of_mem hd1 hnew
  have hold : ∀ x ∈ L, x ≠ n.offset → x ∉ (dropped.filter CacheEntry.dirty).map CacheEntry.offset →
      bucketAt v { ix with cache := c' } x = bucketAt v ix x ∧
        (¬ DirtyAt { ix with cache := c' } x → ¬ ix.DirtyAt x) := by
    intro x hx hxn hxP
    by_cases hcx : ∃ e ∈ ix.cache.entries, e.offset = x
    · obtain ⟨e, he, rfl⟩ := hcx
      rcases (hmem e).2 (.inr ⟨he, hxn⟩) with he1 | he1
      · rw [bucketAt_of_mem hd1 he1, bucketAt_of_mem hc.distinct he,
          dirtyAt_iff hd1 he1, dirtyAt_iff hc.distinct he]
        exact ⟨rfl, id⟩
      · have hclean : e.dirty = false := by
          cases hdirty : e.dirty
          · rfl
          · exact absurd (List.mem_map_of_mem (List.mem_filter.2 ⟨he1, hdirty⟩)) hxP
        have hnd0 : ¬ ix.DirtyAt e.offset := by
          rw [dirtyAt_iff hc.distinct he, hclean]
          simp
        have hu : ∀ e' ∈ ({ ix with cache := c' } : Index).cache.entries, e'.offset ≠ e.offset :=
          fun e' he' =>
          hsep _ (List.mem_map_of_mem he') _ (List.mem_map_of_mem he1)
        refine ⟨?_, fun _ => hnd0⟩
        rw [bucketAt_of_uncached hu, bucketAt_of_mem hc.distinct he]
        have hw := (hc.stored _ hx hnd0).2
        rw [bucketAt_of_mem hc.distinct he] at hw
        exact storedBucket_of_window (hc.fits e he) hroom hw
    · have hu : ∀ e ∈ ix.cache.entries, e.offset ≠ x := fun e he h => hcx ⟨e, he, h⟩
      have hu1 : ∀ e ∈ ({ ix with cache := c' } : Index).cache.entries, e.offset ≠ x := fun e he => by
        rcases hkept e he with rfl | h
        · exact Ne.symm hxn
        · exact hu e h.1
      exact ⟨by rw [bucketAt_of_uncached hu1,
        bucketAt_of_uncached hu]; rfl, fun _ => not_dirtyAt hu⟩
  refine ⟨⟨hc.ino_lt, hc.ordered, hc.size_le, hd1, fun e he => ?_, fun e he => ?_,
    fun x hx hnd => ?_, fun hro e he => ?_, hc.header, hc.dir⟩, hfind,
    fun x hx hxn hxP => (hold x hx hxn hxP).1⟩
  · refine List.mem_filter.2 ⟨?_, decide_eq_true fun hP => ?_⟩
    · rcases hkept e he with rfl | h
      · exact List.mem_cons_self
      · exact List.mem_cons_of_mem _ (hc.cached e h.1)
    · obtain ⟨e', he', heo⟩ := List.mem_map.1 hP
      exact hsep _ (List.mem_map_of_mem he) _
        (List.mem_map_of_mem (List.mem_filter.1 he').1) heo.symm
  · rcases hkept e he with rfl | h
    · exact hfit
    · exact hc.fits e h.1
  · obtain ⟨hx, hxP⟩ := List.mem_filter.1 hx
    have hxP : x ∉ (dropped.filter CacheEntry.dirty).map CacheEntry.offset := by simpa using hxP
    rcases List.mem_cons.1 hx with rfl | hx
    · have hclean : n.dirty = false := by
        cases h : n.dirty
        · rfl
        · exact absurd ((dirtyAt_iff hd1 hnew).2 h) hnd
      obtain ⟨hlen, hwin⟩ := hst hclean
      refine ⟨hlen, ?_⟩
      simp only [bucketAt, hfind, Option.getD_some]
      exact hwin
    · by_cases hxn : x = n.offset
      · subst hxn
        have hclean : n.dirty = false := by
          cases h : n.dirty
          · rfl
          · exact absurd ((dirtyAt_iff hd1 hnew).2 h) hnd
        obtain ⟨hlen, hwin⟩ := hst hclean
        refine ⟨hlen, ?_⟩
        simp only [bucketAt, hfind, Option.getD_some]
        exact hwin
      · obtain ⟨hb, hdirty⟩ := hold x hx hxn hxP
        obtain ⟨hlen, hwin⟩ := hc.stored x hx (hdirty hnd)
        exact ⟨hlen, by rw [hb]; exact hwin⟩
  · rcases hkept e he with rfl | h
    · cases hd : e.dirty
      · rfl
      · exact absurd (hw hd) (by simpa using hro)
    · exact hc.clean hro e h.1

/-- Caching a bucket at `o`: the cache then answers it there, the buckets
elsewhere in `L` are kept, and the cache and the file stay in step once the
buckets evicted for it are written back. A clean bucket must be the one its
block holds, and only a writer caches a dirty one. -/
theorem Coherent.cacheInsert (hc : Coherent v ix L) {o : Nat} {b : Bucket} {d : Bool}
    (hsp : Spread ix (o :: L)) (hb : b.Fits ix.file.header.bucketElems)
    (hst : d = false → o + ix.file.header.blockSize ≤ (ix.disk v).size ∧
      SparseBytes.window (ix.disk v).byteAt o ix.file.header.blockSize =
        b.encode ix.file.header.blockSize)
    (hw : d = true → ix.file.writable = true)
    (hr : Runs (cacheInsert o b d) (v, ix) () (v', ix')) :
    ix' = { ix with cache := (ix.cache.insert o b d).2 } ∧ Coherent v' ix' (o :: L) ∧
      ix'.cache.find? o = some b ∧ Keeps (fun x => x ∈ L ∧ x ≠ o) L v ix v' ix' := by
  obtain ⟨dropped, hmem, hdist, hout, hne, hcap⟩ := ix.cache.insert_spec o b d
  obtain ⟨-, hnd⟩ := hdist hc.distinct
  obtain ⟨hc1, hfind, hold⟩ := hc.recache hsp.room (n := ⟨o, b, d⟩) hmem hnd hne hb hst hw
  have hdrop : ∀ e ∈ dropped, e ∈ ix.cache.entries := fun e he => by
    rcases (hmem e).1 (.inr he) with rfl | h
    · exact absurd rfl (hne _ he)
    · exact h.1
  have hoffs : ((dropped.filter CacheEntry.dirty).map BucketCache.written).map Prod.fst =
      (dropped.filter CacheEntry.dirty).map CacheEntry.offset := by
    simp only [List.map_map]
    rfl
  have hinL : ∀ x ∈ (dropped.filter CacheEntry.dirty).map CacheEntry.offset, x ∈ L := by
    intro x hx
    obtain ⟨e, he, rfl⟩ := List.mem_map.1 hx
    exact hc.cached e (hdrop e (List.mem_filter.1 he).1)
  rw [runs_cacheInsert, hout] at hr
  change Runs _ (v, { ix with cache := (ix.cache.insert o b d).2 }) () (v', ix') at hr
  obtain ⟨rfl, hc2, hk2, hwb⟩ := hc1.writeBack
    ((hsp.recache _).mono fun x hx => by
      rw [hoffs, List.mem_append] at hx
      rcases hx with hx | hx
      · exact (List.mem_filter.1 hx).1
      · exact List.mem_cons_of_mem _ (hinL x hx))
    (by
      rw [List.map_append, List.nodup_append] at hnd
      rw [hoffs]
      exact hnd.2.1.sublist (List.Sublist.map _ List.filter_sublist))
    (fun p hp => by
      obtain ⟨e, he, rfl⟩ := List.mem_map.1 hp
      refine ⟨fun h => ?_, hc.fits e (hdrop e (List.mem_filter.1 he).1)⟩
      have := (List.mem_filter.1 h).2
      simp only [decide_eq_true_eq] at this
      exact this (List.mem_map_of_mem he))
    hr
  rw [hoffs] at hc2 hk2
  have hoL : o ∈ (o :: L).filter fun x => x ∉ (dropped.filter CacheEntry.dirty).map CacheEntry.offset :=
    List.mem_filter.2 ⟨List.mem_cons_self, decide_eq_true fun h => by
      obtain ⟨e, he, heo⟩ := List.mem_map.1 h
      exact hne e (List.mem_filter.1 he).1 heo⟩
  refine ⟨rfl, hc2.congr fun x => ⟨fun hx => ?_, fun hx => ?_⟩, by simpa using hfind, ⟨hk2.frame, rfl, rfl, rfl, rfl, hcap,
      fun x ⟨hx, hxo⟩ => ?_, fun i hi => hk2.byte i fun x hx => hi x (hinL x hx)⟩⟩
  · rcases List.mem_append.1 hx with hx | hx
    · exact (List.mem_filter.1 hx).1
    · exact List.mem_cons_of_mem _ (hinL x hx)
  · by_cases hxP : x ∈ (dropped.filter CacheEntry.dirty).map CacheEntry.offset
    · exact List.mem_append_right _ hxP
    · exact List.mem_append_left _ (List.mem_filter.2 ⟨hx, decide_eq_true hxP⟩)
  · by_cases hxP : x ∈ (dropped.filter CacheEntry.dirty).map CacheEntry.offset
    · obtain ⟨e, he, rfl⟩ := List.mem_map.1 hxP
      rw [bucketAt_of_mem hc.distinct (hdrop e (List.mem_filter.1 he).1)]
      exact hwb (BucketCache.written e) (List.mem_map_of_mem he)
    · rw [hk2.bucket x (List.mem_filter.2 ⟨List.mem_cons_of_mem _ hx, decide_eq_true hxP⟩)]
      exact hold x hx hxo hxP

/-! ## Loading and changing buckets -/

/-- A bucket read from the file is the one its block decodes to. -/
theorem readBucket_stored {o : Nat} {b : Bucket} {s' : Volume × Index}
    (hr : Runs (readBucket o) (v, ix) b s') : b = storedBucket v ix o := by
  obtain ⟨-, bytes, hread, hdec, -⟩ := runs_readBucket.1 hr
  obtain ⟨-, hsome, -⟩ := runs_readAt.1 hread
  rw [(Volume.readAt_eq_some _ hsome).1] at hdec
  change Bucket.decode (SparseBytes.window (ix.disk v).byteAt o ix.file.header.blockSize)
    ix.file.header.bucketElems = .ok b at hdec
  simp only [storedBucket, hdec]

/-- Loading the bucket at an offset of `L` answers the bucket there, leaves it
cached, and keeps everything a lookup sees. -/
theorem Coherent.loadBucket (hc : Coherent v ix L) (hsp : Spread ix L) {o : Nat} (ho : o ∈ L)
    (hfit : (bucketAt v ix o).Fits ix.file.header.bucketElems) {b : Bucket}
    (hr : Runs (loadBucket o) (v, ix) b (v', ix')) :
    b = bucketAt v ix o ∧ Coherent v' ix' L ∧ ix'.cache.find? o = some b ∧
      Keeps (· ∈ L) L v ix v' ix' := by
  rcases runs_loadBucket.1 hr with ⟨hfind, hs⟩ | ⟨hfind, hrb, hci⟩
  · obtain ⟨rfl, rfl⟩ := Prod.mk.inj hs
    exact ⟨by simp [bucketAt, hfind], hc, hfind, Keeps.refl _ _ _ _⟩
  · have hu := uncached_of_find? hc.distinct hfind
    obtain ⟨hlen, hwin⟩ := hc.stored o ho (not_dirtyAt hu)
    have hb : b = bucketAt v ix o := by rw [readBucket_stored hrb, bucketAt_of_uncached hu]
    subst hb
    obtain ⟨-, hc2, hfind2, hk⟩ := hc.cacheInsert
      (hsp.mono fun x hx => by
        rcases List.mem_cons.1 hx with rfl | hx
        · exact ho
        · exact hx)
      hfit (fun _ => ⟨hlen, hwin⟩) (fun h => by cases h) hci
    refine ⟨rfl, hc2.congr fun x => ⟨fun hx => ?_, List.mem_cons_of_mem _⟩, hfind2,
      ⟨hk.frame, hk.file, hk.dir, hk.options, hk.syncMode, hk.capacity, fun x hx => ?_, hk.byte⟩⟩
    · rcases List.mem_cons.1 hx with rfl | hx
      · exact ho
      · exact hx
    · by_cases hxo : x = o
      · subst hxo
        simp [bucketAt, hfind2]
      · exact hk.bucket x ⟨hx, hxo⟩

/-- Changing a cached bucket keeps a writer's cache and file in step: a bucket
changed is dirty, and the others are as they were. -/
theorem Coherent.update (hc : Coherent v ix L) (hwr : ix.file.writable = true) {o : Nat}
    {g : Bucket → Bucket}
    (hg : ∀ e ∈ ix.cache.entries, e.offset = o → (g e.bucket).Fits ix.file.header.bucketElems) :
    Coherent v { ix with cache := ix.cache.update o g } L ∧
      ∀ x, x ≠ o → bucketAt v { ix with cache := ix.cache.update o g } x = bucketAt v ix x := by
  have hbucket : ∀ x, x ≠ o → bucketAt v { ix with cache := ix.cache.update o g } x =
      bucketAt v ix x := fun x hxo => by
    simp only [bucketAt, BucketCache.find?_update, hxo, if_false]
    rfl
  have hdirty : ∀ x, x ≠ o → DirtyAt { ix with cache := ix.cache.update o g } x → ix.DirtyAt x := by
    rintro x hxo ⟨e, he, rfl, hd⟩
    obtain ⟨e0, he0, rfl⟩ := BucketCache.mem_update.1 he
    by_cases h0 : e0.offset = o
    · simp [h0] at hxo
    · simp only [h0, if_false] at hd ⊢
      exact ⟨e0, he0, rfl, hd⟩
  refine ⟨⟨hc.ino_lt, hc.ordered, hc.size_le, ?_, fun e he => ?_, fun e he => ?_,
    fun x hx hnd => ?_, fun hro => absurd hwr (by simpa using hro), hc.header, hc.dir⟩, hbucket⟩
  · unfold BucketCache.Distinct
    rw [BucketCache.offsets_update]
    exact hc.distinct
  · obtain ⟨e0, he0, rfl⟩ := BucketCache.mem_update.1 he
    split <;> exact hc.cached e0 he0
  · obtain ⟨e0, he0, rfl⟩ := BucketCache.mem_update.1 he
    split
    · next h0 => exact hg e0 he0 h0
    · exact hc.fits e0 he0
  · by_cases hxo : x = o
    · subst hxo
      have hu : ∀ e ∈ ix.cache.entries, e.offset ≠ x := by
        intro e he heo
        refine hnd ⟨{ e with bucket := g e.bucket, dirty := true },
          BucketCache.mem_update.2 ⟨e, he, by simp [heo]⟩, heo, rfl⟩
      have hu' : ∀ e ∈ ({ ix with cache := ix.cache.update x g } : Index).cache.entries,
          e.offset ≠ x := by
        intro e he
        obtain ⟨e0, he0, rfl⟩ := BucketCache.mem_update.1 he
        split
        · next h0 => exact absurd h0 (hu e0 he0)
        · exact hu e0 he0
      obtain ⟨hlen, hwin⟩ := hc.stored x hx (not_dirtyAt hu)
      refine ⟨hlen, ?_⟩
      rw [bucketAt_of_uncached hu', bucketAt_of_uncached hu] at *
      exact hwin
    · obtain ⟨hlen, hwin⟩ := hc.stored x hx fun h => hnd (by
        obtain ⟨e, he, rfl, hd⟩ := h
        exact ⟨_, BucketCache.mem_update.2 ⟨e, he, rfl⟩, by simp [hxo], by simp [hxo, hd]⟩)
      exact ⟨hlen, by rw [hbucket x hxo]; exact hwin⟩

/-- Changing the bucket at an offset of `L`: the change's answer is taken from
the bucket there, which then is the changed one, and the rest is kept. -/
theorem Coherent.updateBucket {α : Type} (hc : Coherent v ix L) (hsp : Spread ix L) {o : Nat}
    (ho : o ∈ L) (hfit : (bucketAt v ix o).Fits ix.file.header.bucketElems)
    (hwr : ix.file.writable = true) {f : Bucket → α × Bucket}
    (hf : (f (bucketAt v ix o)).2.Fits ix.file.header.bucketElems) {a : α}
    (hr : Runs (updateBucket o f) (v, ix) a (v', ix')) :
    a = (f (bucketAt v ix o)).1 ∧ Coherent v' ix' L ∧
      bucketAt v' ix' o = (f (bucketAt v ix o)).2 ∧
      Keeps (fun x => x ∈ L ∧ x ≠ o) L v ix v' ix' := by
  obtain ⟨b, ⟨v1, ix1⟩, hl, rfl, hs⟩ := runs_updateBucket.1 hr
  obtain ⟨rfl, rfl⟩ := Prod.mk.inj hs
  obtain ⟨rfl, hc1, hfind, hk⟩ := hc.loadBucket hsp ho hfit hl
  obtain ⟨hc2, hbucket⟩ := hc1.update (by rw [hk.file]; exact hwr) (g := fun _ => (f (bucketAt v ix o)).2)
    (fun _ _ _ => by rw [hk.file]; exact hf)
  refine ⟨rfl, hc2, ?_, ⟨hk.frame, hk.file, hk.dir, hk.options, hk.syncMode, hk.capacity,
    fun x ⟨hx, hxo⟩ => (hbucket x hxo).trans (hk.bucket x hx), hk.byte⟩⟩
  simp [bucketAt, BucketCache.find?_update, hfind]

end Index

end HashFile
