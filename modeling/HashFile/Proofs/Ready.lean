import HashFile.Proofs.Retains

/-!
# Indexes ready to be read

A sound index can still fail to read: a record may lie past the end of its
file, and a bucket pushed out of the cache may have to be written past the
largest file. `Ready` rules both out: the index is sound, every record of some
bytes lies within the file, every record starts within the largest file, and
everything allocated lies within the largest file. A record of no bytes is
never written, so it may start past the end of the file.

From a ready index every read step runs: a key or value is read from its
record, a live bucket from the cache or from its block, and what caching it
pushes out is written back. The steps keep the index ready and what lookups see
(`Reads`), so a traversal made of them runs to its end.
-/
namespace HashFile

namespace Volume

variable {v : Volume}

/-- Bytes that lie within a file are read as they are; no bytes are read
anywhere. -/
theorem readAt_of_le {ino off len : Nat} (h : 0 < len → off + len ≤ v.fileLen ino) :
    v.readAt ino off len = some (SparseBytes.window (v.data ino).byteAt off len) := by
  unfold readAt
  by_cases h0 : len = 0
  · subst h0
    rw [if_pos rfl]
    exact congrArg some (ByteArray.ext (by simp [SparseBytes.window]))
  · have h' := h (Nat.pos_of_ne_zero h0)
    rw [if_neg h0, if_pos (show off + len ≤ (v.data ino).size from h'),
      SparseBytes.read_eq_window h']

end Volume

namespace Index

variable {v v' v1 ix1 v2 : Volume} {ix ix' ix1 ix2 : Index}

/-- An index that can be read without running out of its file: it is sound,
every record of some bytes lies within the file, every record starts within
the largest file, and everything allocated lies within the largest file. -/
structure Ready (v : Volume) (ix : Index) : Prop where
  sound : Sound v ix
  records : ∀ e ∈ (image v ix).slots, 0 < e.recordSize →
    e.dataOffset + e.recordSize ≤ (ix.disk v).size
  offsets : ∀ e ∈ (image v ix).slots, e.dataOffset ≤ Volume.maxFileSize
  frontier : ix.file.header.nextBlock ≤ Volume.maxFileSize

/-- A sound state on the same file, no shorter, holding no record a ready one
did not, with its frontier within the largest file, is ready. -/
theorem Ready.of_grows (hr : Ready v ix) (hs : Sound v' ix')
    (hsl : ∀ e ∈ (image v' ix').slots, e ∈ (image v ix).slots)
    (hg : Grows (v, ix) (v', ix')) (hf : ix'.file.header.nextBlock ≤ Volume.maxFileSize) :
    Ready v' ix' :=
  ⟨hs, fun e he hp => Nat.le_trans (hr.records e (hsl e he) hp) hg.2,
    fun e he => hr.offsets e (hsl e he), hf⟩

/-- A sound state that retains a ready one and holds no record it did not is
ready. -/
theorem Ready.of_retains (hr : Ready v ix) (hs : Sound v' ix')
    (hsl : ∀ e ∈ (image v' ix').slots, e ∈ (image v ix).slots)
    (hret : Retains (v, ix) (v', ix')) : Ready v' ix' :=
  hr.of_grows hs hsl ⟨hret.1, hret.2.1⟩ (Nat.le_trans hret.2.2 hr.frontier)

/-- The block of a live bucket lies within the largest file. -/
theorem Ready.block_le (hr : Ready v ix) {o : Nat} (ho : o ∈ (image v ix).live) :
    o + ix.file.header.blockSize ≤ Volume.maxFileSize := by
  have := hr.sound.layout.used_below _ (List.mem_cons_of_mem _ (List.mem_cons_of_mem _
    (List.mem_append_left _ (List.mem_map_of_mem ho))))
  simp only [Region.stop, Image.block, image] at this
  exact Nat.le_trans this hr.frontier

/-! ## Reading records -/

/-- The key of a record is read from the file. -/
theorem Ready.readKey (hr : Ready v ix) {e : Slot} (he : e ∈ (image v ix).slots) :
    Runs (readKey e) (v, ix) ((image v ix).keyOf e) (v, ix) := by
  refine runs_readKey.2 (runs_readAt.2 ⟨hr.offsets e he, Volume.readAt_of_le fun hk => ?_, rfl⟩)
  have hrec := hr.records e he (by unfold Slot.recordSize; omega)
  unfold Slot.recordSize at hrec
  show e.dataOffset + e.keySize ≤ (ix.disk v).size
  omega

/-- The value of a record is read from the file, after its key. -/
theorem Ready.readValue (hr : Ready v ix) {e : Slot} (he : e ∈ (image v ix).slots) :
    Runs (readValue e) (v, ix) ((image v ix).valueOf e) (v, ix) := by
  have hkey : e.dataOffset + e.keySize ≤ Volume.maxFileSize := by
    by_cases hpos : 0 < e.recordSize
    · have hrec := hr.records e he hpos
      have hmax := hr.sound.coherent.size_le
      unfold Slot.recordSize at hrec
      omega
    · have := hr.offsets e he
      unfold Slot.recordSize at hpos
      omega
  refine runs_readValue.2 ⟨?_, runs_readAt.2 ⟨hkey, Volume.readAt_of_le fun hd => ?_, rfl⟩⟩
  · unfold wordSize
    simp only [Volume.maxFileSize, Nat.pow_eq] at hkey ⊢
    omega
  · have hrec := hr.records e he (by unfold Slot.recordSize; omega)
    unfold Slot.recordSize at hrec
    show e.dataOffset + e.keySize + e.dataSize ≤ (ix.disk v).size
    omega

/-! ## Reading buckets -/

/-- A live bucket that is not cached is read from its block. -/
theorem Ready.readBucket (hr : Ready v ix) {o : Nat} (ho : o ∈ (image v ix).live)
    (hf : ix.cache.find? o = none) : Runs (readBucket o) (v, ix) (bucketAt v ix o) (v, ix) := by
  have hs := hr.sound
  obtain ⟨hlen, hwin⟩ :=
    hs.coherent.stored o ho (not_dirtyAt (uncached_of_find? hs.coherent.distinct hf))
  obtain ⟨i, hi, hio⟩ := Image.exists_entryAt_of_mem_live ho
  have hdepth := hs.shaped.aligned.depth_le i hi
  rw [hio] at hdepth
  refine runs_readBucket.2
    ⟨rfl, _, runs_readAt.2 ⟨?_, Volume.readAt_of_le fun _ => hlen, rfl⟩, ?_, hdepth⟩
  · have := hr.block_le ho
    omega
  · rw [← disk_eq, hwin]
    exact Bucket.decode_encode (hs.shaped.fits _ ho) hs.room

/-- Caching a bucket in a ready index runs: what it pushes out was cached at a
live offset, so its block lies within the largest file, and only a writer's
cache holds changes to write back. -/
theorem Ready.cacheInsert (hr : Ready v ix) (o : Nat) (b : Bucket) (d : Bool) :
    ∃ s', Runs (cacheInsert o b d) (v, ix) () s' := by
  obtain ⟨dropped, hmem, -, hout, hne, -⟩ := BucketCache.insert_spec ix.cache o b d
  have hold : ∀ e ∈ dropped, e ∈ ix.cache.entries := by
    intro e he
    rcases (hmem e).1 (.inr he) with rfl | ⟨he', -⟩
    · exact absurd rfl (hne _ he)
    · exact he'
  refine ⟨_, runs_cacheInsert.2 (runs_writeBack.2 ⟨?_, fun p hp => ?_, rfl⟩)⟩
  · cases hw : ix.file.writable
    · left
      rw [hout, List.map_eq_nil_iff, List.filter_eq_nil_iff]
      intro e he
      simp [hr.sound.coherent.clean hw e (hold e he)]
    · exact .inr rfl
  · rw [hout] at hp
    obtain ⟨e, he, rfl⟩ := List.mem_map.1 hp
    exact hr.block_le (hr.sound.coherent.cached e (hold e (List.mem_filter.1 he).1))

/-! ## Reads keep an index ready -/

/-- What reads leave of a ready index: it stays ready, lookups see what they
saw, and only the cache and the bytes of live blocks change, with the buckets
there as they were. -/
structure Reads (v : Volume) (ix : Index) (v' : Volume) (ix' : Index) : Prop where
  ready : Ready v' ix'
  agree : (image v ix).Agree (image v' ix')
  keeps : Keeps (· ∈ (image v ix).live) (image v ix).live v ix v' ix'

theorem Reads.refl (hr : Ready v ix) : Reads v ix v ix :=
  ⟨hr, Image.Agree.refl _, Keeps.refl _ _ _ _⟩

theorem Reads.trans (h1 : Reads v ix v1 ix1) (h2 : Reads v1 ix1 v2 ix2) : Reads v ix v2 ix2 := by
  have hk2 := h2.keeps
  rw [h1.agree.live] at hk2
  exact ⟨h2.ready, h1.agree.trans h2.agree, (h1.keeps.trans hk2).mono (fun _ h => h)
    fun o ho => (List.mem_append.1 ho).elim id id⟩

theorem Reads.live (h : Reads v ix v' ix') : (image v' ix').live = (image v ix).live :=
  h.agree.live

theorem Reads.bucketAt (h : Reads v ix v' ix') {o : Nat} (ho : o ∈ (image v ix).live) :
    bucketAt v' ix' o = bucketAt v ix o :=
  h.agree.bucket o ho

/-- A live bucket is loaded, from the cache or from its block. -/
theorem Ready.loadBucket (hr : Ready v ix) {o : Nat} (ho : o ∈ (image v ix).live) :
    ∃ v' ix', Runs (loadBucket o) (v, ix) (bucketAt v ix o) (v', ix') ∧ Reads v ix v' ix' := by
  have hs := hr.sound
  obtain ⟨⟨v', ix'⟩, hrun⟩ :
      ∃ s', Runs (Index.loadBucket o) (v, ix) (bucketAt v ix o) s' := by
    cases hf : ix.cache.find? o with
    | some b =>
      have hb : bucketAt v ix o = b := by simp only [bucketAt, hf, Option.getD_some]
      exact ⟨(v, ix), runs_loadBucket.2 (.inl ⟨by rw [hf, hb], rfl⟩)⟩
    | none =>
      obtain ⟨s', hc⟩ := hr.cacheInsert o (bucketAt v ix o) false
      exact ⟨s', runs_loadBucket.2 (.inr ⟨hf, hr.readBucket ho hf, hc⟩)⟩
  obtain ⟨-, hs', hag, -⟩ := hs.loadBucket ho hrun
  obtain ⟨-, -, -, hk⟩ := hs.coherent.loadBucket hs.spread ho (hs.shaped.fits _ ho) hrun
  refine ⟨v', ix', hrun, hr.of_retains hs' (fun e he => ?_) (retains_loadBucket o _ _ _ hrun),
    hag, hk⟩
  rwa [hag.slots] at he

/-- The slot at a position of a live bucket is read from the loaded bucket. -/
theorem Ready.elementAt (hr : Ready v ix) {o : Nat} (ho : o ∈ (image v ix).live) (i : Nat) :
    ∃ v' ix', Runs (elementAt o i) (v, ix) ((bucketAt v ix o).slot i) (v', ix') ∧
      Reads v ix v' ix' := by
  obtain ⟨v', ix', hl, hrd⟩ := hr.loadBucket ho
  exact ⟨v', ix', runs_elementAt.2 ⟨_, hl, rfl⟩, hrd⟩

/-- Reading the keys of records of a ready index runs, whatever the candidates. -/
theorem Ready.firstHolding (hr : Ready v ix) (key : Bytes) :
    ∀ {cands : List (Nat × Slot)}, (∀ p ∈ cands, p.2 ∈ (image v ix).slots) →
      ∃ r, Runs (firstHolding key cands) (v, ix) r (v, ix)
  | [], _ => ⟨none, runs_pure.2 ⟨rfl, rfl⟩⟩
  | (i, e) :: rest, hc => by
    obtain ⟨r, hrest⟩ := hr.firstHolding key fun p hp => hc p (List.mem_cons_of_mem _ hp)
    unfold Index.firstHolding
    by_cases hk : ((image v ix).keyOf e == key) = true
    · exact ⟨some i, runs_bind.2 ⟨_, _, hr.readKey (hc _ List.mem_cons_self),
        by rw [if_pos hk]; exact runs_pure.2 ⟨rfl, rfl⟩⟩⟩
    · exact ⟨r, runs_bind.2 ⟨_, _, hr.readKey (hc _ List.mem_cons_self),
        by rw [if_neg hk]; exact hrest⟩⟩

/-- Looking a key up in a ready index runs, and only reads. -/
theorem Ready.locate (hr : Ready v ix) (key : Bytes) :
    ∃ loc v' ix', Runs (locate key) (v, ix) loc (v', ix') ∧ Reads v ix v' ix' := by
  have hs := hr.sound
  have hdi : dirIndex (Key.hash key) ix.dir.bits < 2 ^ ix.dir.bits :=
    dirIndex_lt (Key.hash_lt key) hs.shaped.bits_le
  obtain ⟨hget, hlive⟩ := hs.get?_dir hdi
  set off := ix.dir.entryAt (dirIndex (Key.hash key) ix.dir.bits)
  obtain ⟨v1, ix1, hload, hrd⟩ := hr.loadBucket hlive
  have hwf := hs.shaped.wf _ hlive
  have hcand : ∀ p ∈ ((bucketAt v ix off).probe (Key.hash key)).filterMap (fun x =>
      if ((bucketAt v ix off).slot x).hash == Key.hash key &&
          ((bucketAt v ix off).slot x).keySize == key.size &&
          ((bucketAt v ix off).slot x).head == Key.head key then
        some (x, (bucketAt v ix off).slot x) else none), p.2 ∈ (image v1 ix1).slots := by
    intro p hp
    obtain ⟨hpr, hp2, -⟩ := mem_candidates.1 hp
    obtain ⟨hlt, hvac⟩ := Bucket.of_mem_probe hwf hpr
    rw [hrd.agree.slots, hp2]
    exact Image.mem_slots.2 ⟨off, hlive, Bucket.mem_entries.2 ⟨p.1, hlt, rfl, hvac⟩⟩
  obtain ⟨r, hfh⟩ := hrd.ready.firstHolding key hcand
  refine ⟨⟨Key.hash key, dirIndex (Key.hash key) ix.dir.bits, off, r⟩, v1, ix1, ?_, hrd⟩
  unfold Index.locate
  simp only [runs_bind, runs_current, runs_dirEntry, runs_pure, and_assoc, exists_and_left,
    exists_eq_left]
  exact ⟨off, hget, _, _, hload, r, _, hfh, rfl, rfl⟩

end Index

end HashFile
