import HashFile.Proofs.Sound

/-!
# Flushing

A flush writes every dirty bucket into its block, the directory into its region
when it changed and the header into the first block when it changed, marking
each clean. Every write lands where the thing written is stored, away from the
records and from whatever is clean, so a flush keeps the index sound and
changes nothing a lookup sees; on a writer nothing is left dirty afterwards
(`Flushed`). It fails only past the largest file: a flush of a sound index whose
allocation frontier lies within it always runs (`Sound.flush_runs`). Cutting the file back to the allocation frontier drops only bytes
that no region in use reaches.
-/
namespace HashFile

namespace Index

variable {v v' : Volume} {ix ix' : Index}

/-- Nothing the index holds waits to be written. -/
structure Flushed (ix : Index) : Prop where
  cache : ∀ e ∈ ix.cache.entries, e.dirty = false
  dir : ix.dir.dirty = false
  header : ix.file.headerDirty = false

theorem image_markClean (v : Volume) (ix : Index) (o : Nat) :
    image v { ix with cache := ix.cache.markClean o } = image v ix := by
  have hb : bucketAt v { ix with cache := ix.cache.markClean o } = bucketAt v ix := by
    funext x
    simp only [bucketAt, BucketCache.find?_markClean]
    rfl
  unfold image
  rw [hb]
  rfl

/-- A bucket its block holds may be marked clean. -/
theorem Sound.markClean (hs : Sound v ix) {o : Nat} (hst : StoredAt v ix o) :
    Sound v { ix with cache := ix.cache.markClean o } := by
  have hc := hs.coherent.markClean hst
  rw [← image_markClean v ix o] at hc
  exact ⟨by rw [image_markClean]; exact hs.shaped, by rw [image_markClean]; exact hs.layout,
    hs.blockSize, hs.elems, hs.capacity, hc⟩

/-! ## The three kinds of write -/

/-- Writing a dirty bucket into its block and marking it clean keeps the index
sound and its image. -/
theorem Sound.writeDirtyBucket (hs : Sound v ix) {e : CacheEntry} (he : e ∈ ix.cache.entries)
    (hd : e.dirty = true) (hsz : e.offset + ix.file.header.blockSize ≤ Volume.maxFileSize) :
    Sound (v.writeAt ix.file.handle.ino e.offset (e.bucket.encode ix.file.header.blockSize))
        { ix with cache := ix.cache.markClean e.offset } ∧
      (image v ix).Agree (image (v.writeAt ix.file.handle.ino e.offset
        (e.bucket.encode ix.file.header.blockSize)) { ix with cache := ix.cache.markClean e.offset }) ∧
      Volume.Frame ix.file.handle.ino v
        (v.writeAt ix.file.handle.ino e.offset (e.bucket.encode ix.file.header.blockSize)) := by
  have ho : e.offset ∈ (image v ix).live := hs.coherent.cached e he
  obtain ⟨hc1, hk1, hlen, hwin⟩ := hs.coherent.writeBlock
    (hs.spread.mono fun x hx => by
      rcases List.mem_cons.1 hx with rfl | hx
      · exact ho
      · exact hx)
    (fun x _ hnd hx => hnd (hx ▸ ⟨e, he, rfl, hd⟩)) e.bucket hsz
  obtain ⟨hs1, hag1⟩ := hs.keeps (by simpa using ho) hc1 hk1
  have hst : StoredAt (v.writeAt ix.file.handle.ino e.offset
      (e.bucket.encode ix.file.header.blockSize)) ix e.offset :=
    ⟨hlen, by rw [bucketAt_of_mem hs.coherent.distinct he]; exact hwin⟩
  exact ⟨hs1.markClean hst, by rw [image_markClean]; exact hag1, hk1.frame⟩

/-- Writing a changed directory into its region and marking it clean keeps the
index sound and its image. -/
theorem Sound.writeDir (hs : Sound v ix) (hd : ix.dir.dirty = true)
    (hsz : ix.dir.offset + ix.dir.encode.size ≤ Volume.maxFileSize) :
    Sound (v.writeAt ix.file.handle.ino ix.dir.offset ix.dir.encode)
        { ix with dir := { ix.dir with dirty := false } } ∧
      (image v ix).Agree (image (v.writeAt ix.file.handle.ino ix.dir.offset ix.dir.encode)
        { ix with dir := { ix.dir with dirty := false } }) ∧
      Volume.Frame ix.file.handle.ino v (v.writeAt ix.file.handle.ino ix.dir.offset ix.dir.encode) := by
  have hsize : ix.dir.encode.size = Directory.byteSize ix.dir.bits := by
    have := hs.shaped.aligned.size_eq
    simp only [image, Directory.size] at this
    rw [Directory.size_encode, this, Directory.byteSize_eq]
  obtain ⟨hs1, hag1⟩ := hs.write hsz
    (fun o ho _ => by rw [hsize]; exact (hs.spread.dir o ho).symm)
    (fun _ => by rw [hsize]; exact (hs.used_parts.1 _ List.mem_cons_self).symm)
    (fun h => absurd hd (by simp [h]))
    (fun r hr => by rw [hsize]; exact hs.used_parts.2.1 r (List.mem_append_right _ hr))
  have hpos : 0 < ix.dir.encode.size := by
    rw [hsize, Directory.byteSize_eq]
    have := Nat.two_pow_pos ix.dir.bits
    omega
  obtain ⟨hlen, hwin⟩ := hs.coherent.written ix.dir.offset hpos
  rw [hsize] at hlen hwin
  have hc2 := hs1.coherent.cleanDir ⟨hlen, hwin⟩
  have hag2 : (image (v.writeAt ix.file.handle.ino ix.dir.offset ix.dir.encode) ix).Agree
      (image (v.writeAt ix.file.handle.ino ix.dir.offset ix.dir.encode)
        { ix with dir := { ix.dir with dirty := false } }) :=
    ⟨rfl, rfl, rfl, rfl, rfl, rfl, rfl, fun _ _ => rfl, fun _ _ _ _ _ => rfl⟩
  exact ⟨hs1.of_agree hag2 rfl hc2, hag1.trans hag2, Volume.frame_writeAt v _ _ _⟩

/-- Writing the header runs when the header is clean or the file is read, and
changes nothing; otherwise it writes the header's encoding into the first
block and marks the header clean. -/
theorem runs_writeHeader {s s' : Volume × Index} {a : PUnit} :
    Runs writeHeader s a s' ↔
      ((s.2.file.headerDirty = false ∨ s.2.file.writable = false) ∧ s' = s) ∨
      (s.2.file.headerDirty = true ∧ s.2.file.writable = true ∧
        ∃ block, s.2.file.header.encode = .ok block ∧ block.size ≤ Volume.maxFileSize ∧
          s' = (s.1.writeAt s.2.file.handle.ino 0 block,
            { s.2 with file := { s.2.file with headerDirty := false } })) := by
  obtain ⟨v, ix⟩ := s
  unfold writeHeader
  simp only [runs_bind, runs_current, and_assoc, exists_and_left, exists_eq_left]
  cases hd : ix.file.headerDirty <;> cases hw : ix.file.writable <;>
    simp only [Bool.not_false, Bool.not_true, Bool.or_true, Bool.or_false, if_true,
      Bool.false_eq_true, Bool.true_eq_false, if_false, runs_pure, true_and, false_and, or_false,
      false_or, or_true]
  cases he : ix.file.header.encode with
  | error e => simp [runs_throw]
  | ok block =>
    simp only [runs_bind, runs_writeAt, modifyFile, runs_modifyIndex, hw, true_and]
    simp [hw]

theorem clean_header_self (h : ix.file.headerDirty = false) :
    { ix with file := { ix.file with headerDirty := false } } = ix := by
  rw [← h]

theorem clean_dir_self (h : ix.dir.dirty = false) :
    { ix with dir := { ix.dir with dirty := false } } = ix := by
  rw [← h]

/-- On a writer, writing the header leaves the index as it was but for the
header marked clean. -/
theorem runs_writeHeader_index (hr : Runs writeHeader (v, ix) () (v', ix'))
    (hw : ix.file.writable = true) :
    ix' = { ix with file := { ix.file with headerDirty := false } } := by
  rcases runs_writeHeader.1 hr with ⟨hcl | hcl, hs'⟩ | ⟨-, -, block, -, -, hs'⟩
  · rw [(Prod.mk.inj hs').2]
    exact (clean_header_self hcl).symm
  · exact absurd hw (by simpa using hcl)
  · exact (Prod.mk.inj hs').2

/-- Writing the header keeps the index sound and its image; on a writer the
header is clean afterwards. -/
theorem Sound.writeHeader (hs : Sound v ix) (hr : Runs writeHeader (v, ix) () (v', ix')) :
    Sound v' ix' ∧ (image v ix).Agree (image v' ix') ∧ Stays v ix v' ix' ∧
      ix' = if ix.file.writable then { ix with file := { ix.file with headerDirty := false } }
        else ix := by
  rcases runs_writeHeader.1 hr with ⟨hcl, hs'⟩ | ⟨hd, hw, block, he, hsz, hs'⟩
  · obtain ⟨rfl, rfl⟩ := Prod.mk.inj hs'
    refine ⟨hs, Image.Agree.refl _, Stays.refl _ _, ?_⟩
    dsimp only at hcl
    rcases hcl with h | h
    · split <;> simp [clean_header_self h]
    · simp [h]
  · obtain ⟨rfl, rfl⟩ := Prod.mk.inj hs'
    dsimp only at hd hw he
    have hb : block.size = ix.file.header.blockSize := Header.size_of_encode he
    obtain ⟨hs1, hag1⟩ := hs.write (show 0 + block.size ≤ Volume.maxFileSize by omega)
      (fun o ho _ => by rw [hb]; exact (hs.spread.header o ho).symm)
      (fun h => absurd hd (by simp [h]))
      (fun _ => by rw [hb]; exact hs.used_parts.1 _ List.mem_cons_self)
      (fun r hr => by
        rw [hb]
        exact hs.used_parts.1 r (List.mem_cons_of_mem _ (List.mem_append_right _ hr)))
    obtain ⟨hlen, hwin⟩ := hs.coherent.written 0 (by rw [hb]; exact hs.spread.pos)
    rw [hb] at hlen hwin
    have hc2 := hs1.coherent.cleanHeader ⟨by simpa using hlen, block, he, hwin⟩
    exact ⟨⟨hs1.shaped, hs1.layout, hs1.blockSize, hs1.elems, hs1.capacity, hc2⟩, hag1,
      ⟨Volume.frame_writeAt v _ _ _, rfl, rfl⟩, by simp [hw]⟩

/-! ## Flush -/

/-- Writing back dirty buckets, each marked clean after its write, keeps the
index sound and its image. -/
theorem Sound.writeDirty {bs : Nat} {P : List (Nat × Bucket)} (hs : Sound v ix)
    (hbs : ix.file.header.blockSize = bs)
    (hP : ∀ p ∈ P, ∃ e ∈ ix.cache.entries, e.dirty = true ∧ p = BucketCache.written e)
    (hnd : (P.map Prod.fst).Nodup)
    (hr : Runs (forIn P PUnit.unit fun x _ => do
        writeAt x.fst (x.snd.encode bs)
        modifyIndex fun ix => { ix with cache := ix.cache.markClean x.fst }
        pure (ForInStep.yield PUnit.unit)) (v, ix) PUnit.unit (v', ix')) :
    Sound v' ix' ∧ (image v ix).Agree (image v' ix') ∧ Volume.Frame ix.file.handle.ino v v' ∧
      ix' = { ix with cache := P.foldl (fun c p => c.markClean p.1) ix.cache } := by
  induction P generalizing v ix with
  | nil =>
    rw [List.forIn_nil] at hr
    obtain ⟨-, hs'⟩ := runs_pure.1 hr
    obtain ⟨rfl, rfl⟩ := Prod.mk.inj hs'
    exact ⟨hs, Image.Agree.refl _, Volume.Frame.refl _ _, rfl⟩
  | cons p P ih =>
    rw [List.forIn_cons] at hr
    obtain ⟨r, ⟨v1, ix1⟩, hstep, hr⟩ := runs_bind.1 hr
    obtain ⟨_, s1, hw, hstep⟩ := runs_bind.1 hstep
    obtain ⟨-, hsz, rfl⟩ := runs_writeAt.1 hw
    obtain ⟨_, s2, hm, hstep⟩ := runs_bind.1 hstep
    rw [runs_modifyIndex] at hm
    subst hm
    obtain ⟨rfl, hs2⟩ := runs_pure.1 hstep
    obtain ⟨rfl, rfl⟩ := Prod.mk.inj hs2
    obtain ⟨e, he, hd, rfl⟩ := hP p List.mem_cons_self
    subst hbs
    obtain ⟨hs1, hag1, hf1⟩ := hs.writeDirtyBucket he hd (by simpa using hsz)
    have hP' : ∀ p ∈ P, ∃ e' ∈ (ix.cache.markClean e.offset).entries, e'.dirty = true ∧
        p = BucketCache.written e' := by
      intro p hp
      obtain ⟨e', he', hd', rfl⟩ := hP p (List.mem_cons_of_mem _ hp)
      have hne : e'.offset ≠ e.offset := fun h =>
        (List.nodup_cons.1 hnd).1 (List.mem_map.2 ⟨_, hp, h⟩)
      exact ⟨e', BucketCache.mem_markClean.2 ⟨e', he', by simp [hne]⟩, hd', rfl⟩
    obtain ⟨hs', hag', hf', rfl⟩ := ih hs1 rfl hP' (List.nodup_cons.1 hnd).2 hr
    exact ⟨hs', hag1.trans hag', hf1.trans hf', rfl⟩

/-- Writing back a list of buckets, each marked clean after its write, changes
of the index only its cache, where each of them is marked clean. -/
theorem runs_writeDirty_index {bs : Nat} (P : List (Nat × Bucket))
    (hr : Runs (forIn P PUnit.unit fun x _ => do
        writeAt x.fst (x.snd.encode bs)
        modifyIndex fun ix => { ix with cache := ix.cache.markClean x.fst }
        pure (ForInStep.yield PUnit.unit)) (v, ix) PUnit.unit (v', ix')) :
    ix' = { ix with cache := P.foldl (fun c p => c.markClean p.1) ix.cache } := by
  induction P generalizing v ix with
  | nil =>
    rw [List.forIn_nil] at hr
    exact (Prod.mk.inj (runs_pure.1 hr).2).2
  | cons p P ih =>
    rw [List.forIn_cons] at hr
    obtain ⟨r, ⟨v1, ix1⟩, hstep, hr⟩ := runs_bind.1 hr
    obtain ⟨_, s1, hw, hstep⟩ := runs_bind.1 hstep
    obtain ⟨-, -, rfl⟩ := runs_writeAt.1 hw
    obtain ⟨_, s2, hm, hstep⟩ := runs_bind.1 hstep
    rw [runs_modifyIndex] at hm
    subst hm
    obtain ⟨rfl, hs2⟩ := runs_pure.1 hstep
    obtain ⟨rfl, rfl⟩ := Prod.mk.inj hs2
    exact ih hr

/-- What a flush of a writer leaves in the index: every dirty bucket marked
clean, the directory and the header clean, and all else as it was. -/
theorem runs_flush_index (hr : Runs Index.flush (v, ix) () (v', ix'))
    (hw : ix.file.writable = true) :
    ix' = { ix with
      cache := ix.cache.dirtyBuckets.foldl (fun c p => c.markClean p.1) ix.cache
      dir := { ix.dir with dirty := false }
      file := { ix.file with headerDirty := false } } := by
  unfold Index.flush at hr
  simp only [hw, Bool.not_true, Bool.false_eq_true, if_false, runs_bind, runs_blockSize,
    runs_current, and_assoc, exists_and_left, exists_eq_left] at hr
  obtain ⟨⟨⟩, ⟨v1, ix1⟩, hloop, hr⟩ := hr
  have hix1 := runs_writeDirty_index _ hloop
  have hw1 : ix1.file.writable = true := by rw [hix1]; exact hw
  by_cases hd : ix1.dir.dirty = true
  · rw [if_pos hd] at hr
    obtain ⟨_, s2, hw2, hr⟩ := runs_bind.1 hr
    obtain ⟨-, -, rfl⟩ := runs_writeAt.1 hw2
    obtain ⟨_, s3, hm, hr⟩ := runs_bind.1 hr
    rw [runs_modifyIndex] at hm
    subst hm
    rw [runs_writeHeader_index hr hw1, hix1]
  · rw [if_neg hd] at hr
    have hclean : ix1.dir.dirty = false := by simpa using hd
    rw [runs_writeHeader_index hr hw1, ← clean_dir_self hclean, hix1]

/-- A flush of a writer leaves nothing dirty, whatever the index held. -/
theorem flushed_of_flush (hr : Runs Index.flush (v, ix) () (v', ix'))
    (hw : ix.file.writable = true) : Flushed ix' := by
  rw [runs_flush_index hr hw]
  refine ⟨fun e he => ?_, rfl, rfl⟩
  by_contra hd
  rw [Bool.not_eq_false] at hd
  obtain ⟨he0, hnot⟩ := BucketCache.dirty_foldl_markClean he hd
  exact hnot (List.mem_map.2 ⟨_, BucketCache.mem_dirtyBuckets.2 ⟨e, he0, hd, rfl⟩, rfl⟩)

/-- A flush keeps the index sound and its image; on a writer it leaves
nothing dirty. -/
theorem Sound.flush (hs : Sound v ix) (hr : Runs Index.flush (v, ix) () (v', ix')) :
    Sound v' ix' ∧ (image v ix).Agree (image v' ix') ∧ Stays v ix v' ix' ∧
      (ix.file.writable = true → Flushed ix') := by
  have hfl : ix.file.writable = true → Flushed ix' := flushed_of_flush hr
  unfold Index.flush at hr
  by_cases hw : ix.file.writable = true
  · simp only [hw, Bool.not_true, Bool.false_eq_true, if_false, runs_bind, runs_blockSize,
      runs_current, and_assoc, exists_and_left, exists_eq_left] at hr
    obtain ⟨⟨⟩, ⟨v1, ix1⟩, hloop, hr⟩ := hr
    obtain ⟨hs1, hag1, hf1, hix1⟩ := hs.writeDirty rfl
      (fun _ hp => BucketCache.mem_dirtyBuckets.1 hp) hs.coherent.distinct.dirtyBuckets hloop
    have hst1 : Stays v ix v1 ix1 := ⟨hf1, by rw [hix1], by rw [hix1]⟩
    obtain ⟨v2, ix2, hs2, hag2, hst2, hr⟩ : ∃ v2 ix2, Sound v2 ix2 ∧
        (image v1 ix1).Agree (image v2 ix2) ∧ Stays v1 ix1 v2 ix2 ∧
        Runs Index.writeHeader (v2, ix2) () (v', ix') := by
      by_cases hd : ix1.dir.dirty = true
      · rw [if_pos hd] at hr
        obtain ⟨_, s2, hw2, hr⟩ := runs_bind.1 hr
        obtain ⟨-, hsz, rfl⟩ := runs_writeAt.1 hw2
        obtain ⟨_, s3, hm, hr⟩ := runs_bind.1 hr
        rw [runs_modifyIndex] at hm
        subst hm
        obtain ⟨hs2, hag2, hf2⟩ := hs1.writeDir hd hsz
        exact ⟨_, _, hs2, hag2, ⟨hf2, rfl, rfl⟩, hr⟩
      · rw [if_neg hd] at hr
        exact ⟨v1, ix1, hs1, Image.Agree.refl _, Stays.refl _ _, hr⟩
    obtain ⟨hs3, hag3, hst3, -⟩ := hs2.writeHeader hr
    exact ⟨hs3, hag1.trans (hag2.trans hag3), hst1.trans (hst2.trans hst3), hfl⟩
  · rw [Bool.not_eq_true] at hw
    simp only [runs_bind, runs_current, and_assoc, exists_and_left, exists_eq_left, hw,
      Bool.not_false, if_true, runs_pure, true_and] at hr
    obtain ⟨rfl, rfl⟩ := Prod.mk.inj hr
    exact ⟨hs, Image.Agree.refl _, Stays.refl _ _, hfl⟩

/-- Writing back dirty buckets whose blocks end within the largest file runs on
a writer, and changes the volume and the cache only. -/
theorem runs_writeDirty_of_le {bs : Nat} (P : List (Nat × Bucket)) {s : Volume × Index}
    (hw : s.2.file.writable = true) (hP : ∀ p ∈ P, p.1 + bs ≤ Volume.maxFileSize) :
    ∃ s', Runs (forIn P PUnit.unit fun x _ => do
        writeAt x.fst (x.snd.encode bs)
        modifyIndex fun ix => { ix with cache := ix.cache.markClean x.fst }
        pure (ForInStep.yield PUnit.unit)) s PUnit.unit s' ∧
      s'.2.file = s.2.file ∧ s'.2.dir = s.2.dir := by
  induction P generalizing s with
  | nil => exact ⟨s, by rw [List.forIn_nil]; exact runs_pure.2 ⟨rfl, rfl⟩, rfl, rfl⟩
  | cons p P ih =>
    obtain ⟨s', hr, hf, hd⟩ := ih (s := (s.1.writeAt s.2.file.handle.ino p.1 (p.2.encode bs),
      { s.2 with cache := s.2.cache.markClean p.1 })) hw fun q hq => hP q (List.mem_cons_of_mem _ hq)
    refine ⟨s', ?_, hf, hd⟩
    rw [List.forIn_cons]
    have hwr : Runs (writeAt p.1 (p.2.encode bs)) s ()
        (s.1.writeAt s.2.file.handle.ino p.1 (p.2.encode bs), s.2) :=
      runs_writeAt.2 ⟨hw, by rw [Bucket.size_encode]; exact hP p List.mem_cons_self, rfl⟩
    exact runs_bind.2 ⟨.yield PUnit.unit, _, runs_bind.2 ⟨(), _, hwr,
      runs_bind.2 ⟨(), _, runs_modifyIndex.2 rfl, runs_pure.2 ⟨rfl, rfl⟩⟩⟩, hr⟩

/-- A flush runs when every block it may write ends within the largest file
and the header's free list fits its block: the dirty buckets' blocks, the
directory's region and the header block. -/
theorem flush_runs_of
    (hdirty : ∀ p ∈ ix.cache.dirtyBuckets, p.1 + ix.file.header.blockSize ≤ Volume.maxFileSize)
    (hdir : ix.dir.offset + ix.dir.encode.size ≤ Volume.maxFileSize)
    (hfit : headerPrefixSize + headerFixedSize + regionSize * ix.file.header.avail.regions.length ≤
      ix.file.header.blockSize)
    (hbs : ix.file.header.blockSize ≤ Volume.maxFileSize) :
    ∃ s', Runs Index.flush (v, ix) () s' := by
  unfold Index.flush
  by_cases hw : ix.file.writable = true
  · simp only [hw, Bool.not_true, Bool.false_eq_true, if_false, runs_bind, runs_blockSize,
      runs_current, and_assoc, exists_and_left, exists_eq_left]
    obtain ⟨s1, hloop, hf1, hd1⟩ := runs_writeDirty_of_le _ (s := (v, ix)) hw hdirty
    obtain ⟨block, he⟩ := Header.encode_ok hfit
    have hhdr : ∀ s2 : Volume × Index, s2.2.file = ix.file →
        ∃ s', Runs Index.writeHeader s2 () s' := by
      intro s2 hf
      cases hd : s2.2.file.headerDirty
      · exact ⟨s2, runs_writeHeader.2 (.inl ⟨.inl hd, rfl⟩)⟩
      · refine ⟨_, runs_writeHeader.2 (.inr ⟨hd, by rw [hf]; exact hw, block,
          by rw [hf]; exact he, ?_, rfl⟩)⟩
        rw [Header.size_of_encode he]
        exact hbs
    by_cases hdd : s1.2.dir.dirty = true
    · obtain ⟨s', hh⟩ := hhdr (s1.1.writeAt s1.2.file.handle.ino s1.2.dir.offset s1.2.dir.encode,
        { s1.2 with dir := { s1.2.dir with dirty := false } }) hf1
      refine ⟨s', (), s1, hloop, ?_⟩
      rw [if_pos hdd]
      exact runs_bind.2 ⟨(), _, runs_writeAt.2 ⟨by rw [hf1]; exact hw, by rw [hd1]; exact hdir, rfl⟩,
        runs_bind.2 ⟨(), _, runs_modifyIndex.2 rfl, hh⟩⟩
    · obtain ⟨s', hh⟩ := hhdr s1 hf1
      exact ⟨s', (), s1, hloop, by rw [if_neg hdd]; exact hh⟩
  · rw [Bool.not_eq_true] at hw
    refine ⟨(v, ix), ?_⟩
    simp only [runs_bind, runs_current, and_assoc, exists_and_left, exists_eq_left, hw,
      Bool.not_false, if_true, runs_pure, true_and]

/-- A free list within the capacity a valid block size fixes fits the header
block. -/
theorem header_fits {bs n : Nat} (hb : validBlockSize bs = true) (hn : n ≤ availCapacity bs) :
    headerPrefixSize + headerFixedSize + regionSize * n ≤ bs := by
  have := (validBlockSize_bounds hb).1
  unfold availCapacity headerPrefixSize headerFixedSize regionSize at *
  omega

/-- Every cached bucket of a sound index is live, so its block ends below the
frontier. -/
theorem Sound.cached_below (hs : Sound v ix) {e : CacheEntry} (he : e ∈ ix.cache.entries) :
    e.offset + ix.file.header.blockSize ≤ ix.file.header.nextBlock := by
  have := hs.layout.used_below _ (List.mem_cons_of_mem _ (List.mem_cons_of_mem _
    (List.mem_append_left _ (List.mem_map_of_mem (hs.coherent.cached e he)))))
  simpa only [Region.stop, Image.block, image] using this

/-- The directory of a sound index ends below the frontier. -/
theorem Sound.dir_below (hs : Sound v ix) :
    ix.dir.offset + ix.dir.encode.size ≤ ix.file.header.nextBlock := by
  have hsz := hs.shaped.aligned.size_eq
  have := hs.layout.used_below _ (List.mem_cons_of_mem _ List.mem_cons_self)
  simp only [image, Directory.size, Region.stop, Directory.byteSize_eq] at hsz this
  rw [Directory.size_encode, hsz]
  omega

/-- The header block of a sound index ends below the frontier. -/
theorem Sound.blockSize_below (hs : Sound v ix) :
    ix.file.header.blockSize ≤ ix.file.header.nextBlock := by
  have := hs.layout.used_below _ List.mem_cons_self
  simpa only [Region.stop, image, Nat.zero_add] using this

/-- A flush of a sound index runs when the allocation frontier lies within the
largest file: every block it writes ends below the frontier, and the header
encodes since its free list fits the block. -/
theorem Sound.flush_runs (hs : Sound v ix)
    (hnext : ix.file.header.nextBlock ≤ Volume.maxFileSize) :
    ∃ s', Runs Index.flush (v, ix) () s' := by
  refine flush_runs_of (fun p hp => ?_) (Nat.le_trans hs.dir_below hnext)
    (header_fits hs.blockSize (by rw [← hs.capacity]; exact hs.layout.length_le))
    (Nat.le_trans hs.blockSize_below hnext)
  obtain ⟨e, he, -, rfl⟩ := BucketCache.mem_dirtyBuckets.1 hp
  exact Nat.le_trans (hs.cached_below he) hnext

theorem Sound.sync (hs : Sound v ix) (hr : Runs Index.sync (v, ix) () (v', ix')) :
    Sound v' ix' ∧ (image v ix).Agree (image v' ix') ∧ Stays v ix v' ix' ∧
      (ix.file.writable = true → Flushed ix') :=
  hs.flush hr

/-- The step after every change: a flush in sync mode, else nothing. -/
theorem Sound.afterMutation (hs : Sound v ix) (hr : Runs Index.afterMutation (v, ix) () (v', ix')) :
    Sound v' ix' ∧ (image v ix).Agree (image v' ix') ∧ Stays v ix v' ix' := by
  unfold Index.afterMutation at hr
  simp only [runs_bind, runs_current, and_assoc, exists_and_left, exists_eq_left] at hr
  split at hr
  · obtain ⟨hs', hag, hst, -⟩ := hs.sync hr
    exact ⟨hs', hag, hst⟩
  · obtain ⟨-, hs'⟩ := runs_pure.1 hr
    obtain ⟨rfl, rfl⟩ := Prod.mk.inj hs'
    exact ⟨hs, Image.Agree.refl _, Stays.refl _ _⟩

/-! ## Cutting the file back -/

/-- Cutting the file anywhere past the allocation frontier keeps the index
sound and its image: every region in use lies below the frontier. -/
theorem Sound.setLen (hs : Sound v ix) {n : Nat} (hn : ix.file.header.nextBlock ≤ n)
    (hle : n ≤ (ix.disk v).size) :
    Sound (v.setLen ix.file.handle.ino n) ix ∧
      (image v ix).Agree (image (v.setLen ix.file.handle.ino n) ix) := by
  have hc := hs.coherent
  have hdisk : ix.disk (v.setLen ix.file.handle.ino n) = (ix.disk v).setLen n :=
    Volume.data_setLen v hc.ino_lt n
  have hbyte : ∀ i, i < n → (ix.disk (v.setLen ix.file.handle.ino n)).byteAt i =
      (ix.disk v).byteAt i := fun i hi => by
    rw [hdisk, SparseBytes.byteAt_setLen hc.ordered, if_pos hi]
  have hwin : ∀ o len, o + len ≤ n →
      SparseBytes.window (ix.disk (v.setLen ix.file.handle.ino n)).byteAt o len =
        SparseBytes.window (ix.disk v).byteAt o len := fun o len h =>
    SparseBytes.window_congr fun i _ h2 => hbyte i (by omega)
  have hbelow : ∀ r ∈ (image v ix).used, r.offset + r.size ≤ n := fun r hr =>
    Nat.le_trans (hs.layout.used_below r hr) hn
  have hblock : ∀ o ∈ (image v ix).live, o + ix.file.header.blockSize ≤ n := fun o ho =>
    hbelow _ (List.mem_cons_of_mem _ (List.mem_cons_of_mem _
      (List.mem_append_left _ (List.mem_map_of_mem ho))))
  have hbucket : ∀ o ∈ (image v ix).live,
      bucketAt (v.setLen ix.file.handle.ino n) ix o = bucketAt v ix o := by
    intro o ho
    simp only [bucketAt, storedBucket, hwin o _ (hblock o ho)]
  have hsize : (ix.disk (v.setLen ix.file.handle.ino n)).size = n := by
    rw [hdisk, SparseBytes.size_setLen]
  have hcoh : Coherent (v.setLen ix.file.handle.ino n) ix (image v ix).live := by
    refine ⟨by simpa using hc.ino_lt, by rw [hdisk]; exact SparseBytes.ordered_setLen hc.ordered n,
      by rw [hsize]; exact Nat.le_trans hle hc.size_le, hc.distinct, hc.cached, hc.fits,
      fun o ho hnd => ?_, hc.clean, fun hh => ?_, fun hd => ?_⟩
    · obtain ⟨-, hw⟩ := hc.stored o ho hnd
      exact ⟨by rw [hsize]; exact hblock o ho, by rw [hwin o _ (hblock o ho), hbucket o ho]; exact hw⟩
    · obtain ⟨-, block, he, hw⟩ := hc.header hh
      have h0 : 0 + ix.file.header.blockSize ≤ n := hbelow _ List.mem_cons_self
      exact ⟨by rw [hsize]; omega, block, he, by rw [hwin 0 _ h0]; exact hw⟩
    · obtain ⟨-, hw⟩ := hc.dir hd
      have h0 : ix.dir.offset + Directory.byteSize ix.dir.bits ≤ n :=
        hbelow _ (List.mem_cons_of_mem _ List.mem_cons_self)
      exact ⟨by rw [hsize]; exact h0, by rw [hwin _ _ h0]; exact hw⟩
  have hag : (image v ix).Agree (image (v.setLen ix.file.handle.ino n) ix) := by
    refine ⟨rfl, rfl, rfl, rfl, rfl, rfl, rfl, hbucket, fun e he i hi1 hi2 => hbyte i ?_⟩
    have := hbelow _ (List.mem_cons_of_mem _ (List.mem_cons_of_mem _ (List.mem_append_right _
      (List.mem_map_of_mem (List.mem_filter.2 ⟨he, by simpa using (show 0 < e.recordSize by omega)⟩)))))
    simp only [Slot.region] at this
    omega
  exact ⟨hs.of_agree hag rfl hcoh, hag⟩

/-- Cutting a writer's file back to the frontier keeps the index sound and its
image; the file is then no longer than the frontier. -/
theorem Sound.truncateToFrontier (hs : Sound v ix)
    (hr : Runs Index.truncateToFrontier (v, ix) () (v', ix')) :
    Sound v' ix' ∧ (image v ix).Agree (image v' ix') ∧ Stays v ix v' ix' ∧ ix' = ix ∧
      (ix.disk v').size = if ix.file.writable then min (ix.disk v).size ix.file.header.nextBlock
        else (ix.disk v).size := by
  unfold Index.truncateToFrontier at hr
  simp only [runs_bind, runs_current, runs_fileLen, and_assoc, exists_and_left,
    exists_eq_left] at hr
  split at hr
  · rename_i hcut
    rw [Bool.and_eq_true, decide_eq_true_eq] at hcut
    obtain ⟨hw, hlt⟩ := hcut
    obtain ⟨rfl, hix⟩ := Prod.mk.inj (runs_modify.1 hr)
    subst ix'
    obtain ⟨hs', hag⟩ := hs.setLen (Nat.le_refl _) (Nat.le_of_lt hlt)
    refine ⟨hs', hag, ⟨Volume.frame_setLen _ _ _, rfl, rfl⟩, rfl, ?_⟩
    rw [if_pos hw, disk_eq, disk_eq, Volume.data_setLen v hs.coherent.ino_lt,
      SparseBytes.size_setLen]
    exact (Nat.min_eq_right (Nat.le_of_lt hlt)).symm
  · rename_i hcut
    obtain ⟨-, hs'⟩ := runs_pure.1 hr
    obtain ⟨rfl, rfl⟩ := Prod.mk.inj hs'
    refine ⟨hs, Image.Agree.refl _, Stays.refl _ _, rfl, ?_⟩
    split
    · rename_i hw
      simp only [hw, Bool.true_and, decide_eq_true_eq, Nat.not_lt] at hcut
      exact (Nat.min_eq_left hcut).symm
    · rfl

/-- The end of a session: a writer is flushed and cut back to the frontier. -/
theorem Sound.finish (hs : Sound v ix) (hr : Runs Index.finish (v, ix) () (v', ix')) :
    Sound v' ix' ∧ (image v ix).Agree (image v' ix') ∧ Stays v ix v' ix' ∧
      (ix.file.writable = true → Flushed ix') := by
  unfold Index.finish at hr
  simp only [runs_bind, runs_current, and_assoc, exists_and_left, exists_eq_left] at hr
  split at hr
  · rename_i hw
    obtain ⟨_, ⟨v1, ix1⟩, hsync, hr⟩ := runs_bind.1 hr
    obtain ⟨hs1, hag1, hst1, hfl⟩ := hs.sync hsync
    obtain ⟨hs2, hag2, hst2, rfl, -⟩ := hs1.truncateToFrontier hr
    exact ⟨hs2, hag1.trans hag2, hst1.trans hst2, fun _ => hfl hw⟩
  · rename_i hw
    obtain ⟨-, hs'⟩ := runs_pure.1 hr
    obtain ⟨rfl, rfl⟩ := Prod.mk.inj hs'
    exact ⟨hs, Image.Agree.refl _, Stays.refl _ _, fun h => absurd h hw⟩

end Index

end HashFile
