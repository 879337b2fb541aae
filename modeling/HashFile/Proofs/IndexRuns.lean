import HashFile.Proofs.Runs
import HashFile.Proofs.FileBytes
import HashFile.Proofs.Codec

/-!
# Runs of the index's primitive actions

One lemma per primitive index action, saying exactly what a successful run of
it does to the volume and the index: reads change nothing and answer what the
file or the index holds, a write changes the file's bytes and needs a writer and
room below the largest file, allocation and release change the header, and the
bucket actions go through the cache, writing back what it evicts. Every later
proof about an index action reaches its primitives through these lemmas and
never unfolds them.
-/
namespace HashFile

namespace Index

variable {α : Type} {s s' : Volume × Index}

theorem runs_current {a : Index} : Runs current s a s' ↔ a = s.2 ∧ s' = s := by
  simp only [current, runs_bind, runs_get, runs_pure]
  constructor
  · rintro ⟨x, s1, ⟨rfl, rfl⟩, rfl, rfl⟩; exact ⟨rfl, rfl⟩
  · rintro ⟨rfl, rfl⟩; exact ⟨_, _, ⟨rfl, rfl⟩, rfl, rfl⟩

theorem runs_modifyIndex {f : Index → Index} {a : PUnit} :
    Runs (modifyIndex f) s a s' ↔ s' = (s.1, f s.2) := by
  simp only [modifyIndex, runs_modify]

theorem runs_header {h : Header} : Runs header s h s' ↔ h = s.2.file.header ∧ s' = s := by
  simp only [header, runs_bind, runs_current, runs_pure]
  constructor
  · rintro ⟨x, s1, ⟨rfl, rfl⟩, rfl, rfl⟩; exact ⟨rfl, rfl⟩
  · rintro ⟨rfl, rfl⟩; exact ⟨_, _, ⟨rfl, rfl⟩, rfl, rfl⟩

theorem runs_blockSize {n : Nat} :
    Runs blockSize s n s' ↔ n = s.2.file.header.blockSize ∧ s' = s := by
  simp only [blockSize, runs_bind, runs_header, runs_pure]
  constructor
  · rintro ⟨x, s1, ⟨rfl, rfl⟩, rfl, rfl⟩; exact ⟨rfl, rfl⟩
  · rintro ⟨rfl, rfl⟩; exact ⟨_, _, ⟨rfl, rfl⟩, rfl, rfl⟩

theorem runs_fatal {i : Inconsistency} {a : α} : Runs (fatal i) s a s' ↔ False := by
  simp only [fatal, runs_throw]

theorem runs_checked {r : Except Overflow α} {a : α} :
    Runs (checked r) s a s' ↔ r = .ok a ∧ s' = s := by
  cases r with
  | error o => simp only [checked, runs_throw, reduceCtorEq, false_and]
  | ok b =>
    simp only [checked, runs_pure, Except.ok.injEq]
    exact ⟨fun ⟨h1, h2⟩ => ⟨h1.symm, h2⟩, fun ⟨h1, h2⟩ => ⟨h1.symm, h2⟩⟩

/-- A read answers the bytes of the file it covers, and needs a position a file
reaches and bytes that are there. -/
theorem runs_readAt {off len : Nat} {b : ByteArray} :
    Runs (readAt off len) s b s' ↔
      off ≤ Volume.maxFileSize ∧ s.1.readAt s.2.file.handle.ino off len = some b ∧ s' = s := by
  obtain ⟨v, ix⟩ := s
  unfold readAt
  by_cases hs : off ≤ Volume.maxFileSize
  · have hseek : Volume.seek off = .ok () := by simp [Volume.seek, hs]
    cases hb : v.readAt ix.file.handle.ino off len with
    | none =>
      simp [hseek, hb, runs_bind, runs_get, runs_fatal, and_assoc]
    | some b' =>
      simp [hseek, runs_bind, runs_get, and_assoc, hs]
      rw [hb, runs_pure]
      exact ⟨fun h => ⟨h.1.symm, h.2⟩, fun h => ⟨h.1.symm, h.2⟩⟩
  · have hseek : Volume.seek off = .error .invalidArgument := by simp [Volume.seek, hs]
    simp [hseek, runs_throw, hs]

theorem runs_fileLen {n : Nat} :
    Runs fileLen s n s' ↔ n = s.1.fileLen s.2.file.handle.ino ∧ s' = s := by
  simp only [fileLen, runs_bind, runs_get, runs_pure]
  constructor
  · rintro ⟨x, s1, ⟨rfl, rfl⟩, rfl, rfl⟩; exact ⟨rfl, rfl⟩
  · rintro ⟨rfl, rfl⟩; exact ⟨_, _, ⟨rfl, rfl⟩, rfl, rfl⟩

/-- A write changes the file's bytes; it needs a writer and room below the
largest file. -/
theorem runs_writeAt {off : Nat} {bytes : ByteArray} {a : PUnit} :
    Runs (writeAt off bytes) s a s' ↔
      s.2.file.writable = true ∧ off + bytes.size ≤ Volume.maxFileSize ∧
        s' = (s.1.writeAt s.2.file.handle.ino off bytes, s.2) := by
  obtain ⟨v, ix⟩ := s
  unfold writeAt
  by_cases hw : ix.file.writable = true
  · cases hr : v.writeAll ix.file.handle.ino off bytes with
    | mk r v' =>
      cases r with
      | error f =>
        simp [hw, hr, runs_bind, runs_current, runs_get, runs_set, runs_throw, and_assoc]
        intro hsz
        have : v.writeAll ix.file.handle.ino off bytes = (.ok (), _) :=
          (Volume.writeAll_eq_ok v).2 ⟨hsz, rfl⟩
        rw [hr] at this
        cases this
      | ok u =>
        simp [hw, hr, runs_bind, runs_current, runs_get, runs_set, runs_pure, and_assoc]
        obtain ⟨hsz, rfl⟩ := (Volume.writeAll_eq_ok v).1 hr
        simp [hsz]
  · rw [Bool.not_eq_true] at hw
    simp only [runs_bind, runs_current, hw, Bool.false_eq_true, false_and, iff_false]
    rintro ⟨x, s1, ⟨rfl, rfl⟩, h⟩
    simp [hw, runs_throw] at h

/-- Allocation takes its bytes through the header, which then needs writing. -/
theorem runs_allocate {n off : Nat} :
    Runs (allocate n) s off s' ↔ ∃ h', s.2.file.header.allocate n = (.ok off, h') ∧
      s' = (s.1, { s.2 with
        file := { s.2.file with header := h', headerDirty := s.2.file.headerDirty || n != 0 } }) := by
  obtain ⟨v, ix⟩ := s
  unfold allocate
  simp only [runs_bind, runs_header, modifyFile, runs_modifyIndex, runs_checked, and_assoc,
    exists_and_left, exists_eq_left, exists_const]
  generalize ix.file.header.allocate n = p
  obtain ⟨r, h'⟩ := p
  simp only [Prod.mk.injEq]
  constructor
  · rintro ⟨hr, rfl⟩; exact ⟨h', ⟨hr, rfl⟩, rfl⟩
  · rintro ⟨h'', ⟨hr, rfl⟩, rfl⟩; exact ⟨hr, rfl⟩

/-- Release gives its bytes back through the header, which then needs writing. -/
theorem runs_free {off n : Nat} {a : PUnit} :
    Runs (free off n) s a s' ↔ ∃ h', s.2.file.header.release off n = (.ok (), h') ∧
      s' = (s.1, { s.2 with
        file := { s.2.file with header := h', headerDirty := s.2.file.headerDirty || n != 0 } }) := by
  obtain ⟨v, ix⟩ := s
  unfold free
  simp only [runs_bind, runs_header, modifyFile, runs_modifyIndex, runs_checked, and_assoc,
    exists_and_left, exists_eq_left, exists_const]
  generalize ix.file.header.release off n = p
  obtain ⟨r, h'⟩ := p
  simp only [Prod.mk.injEq]
  constructor
  · rintro ⟨hr, rfl⟩; exact ⟨h', ⟨hr, rfl⟩, rfl⟩
  · rintro ⟨h'', ⟨hr, rfl⟩, rfl⟩; exact ⟨hr, rfl⟩

theorem runs_dirEntry {i o : Nat} : Runs (dirEntry i) s o s' ↔ s.2.dir.get? i = some o ∧ s' = s := by
  obtain ⟨v, ix⟩ := s
  unfold dirEntry
  simp only [runs_bind, runs_current, and_assoc, exists_and_left, exists_eq_left]
  cases h : ix.dir.get? i with
  | none => simp [runs_fatal]
  | some o' =>
    simp only [runs_pure, Option.some.injEq]
    exact ⟨fun ⟨h1, h2⟩ => ⟨h1.symm, h2⟩, fun ⟨h1, h2⟩ => ⟨h1.symm, h2⟩⟩

/-- A bucket is read from its block, checked, and must be no deeper than the
directory. -/
theorem runs_readBucket {o : Nat} {b : Bucket} :
    Runs (readBucket o) s b s' ↔ s' = s ∧ ∃ bytes,
      Runs (readAt o s.2.file.header.blockSize) s bytes s ∧
        Bucket.decode bytes s.2.file.header.bucketElems = .ok b ∧ b.depth ≤ s.2.dir.bits := by
  unfold readBucket
  simp only [runs_bind, runs_header]
  constructor
  · rintro ⟨h, s1, ⟨rfl, rfl⟩, bytes, s2, hread, hrest⟩
    obtain ⟨-, -, rfl⟩ := runs_readAt.1 hread
    split at hrest
    · simp [runs_fatal] at hrest
    · next b' hdec =>
      simp only [runs_bind, runs_current, runs_ite, runs_fatal, runs_pure] at hrest
      obtain ⟨ix, s3, ⟨rfl, rfl⟩, hrest⟩ := hrest
      split at hrest
      · exact hrest.elim
      · next hdepth =>
        obtain ⟨rfl, rfl⟩ := hrest
        exact ⟨rfl, bytes, hread, hdec, Nat.le_of_not_lt hdepth⟩
  · rintro ⟨rfl, bytes, hread, hdec, hdepth⟩
    refine ⟨_, _, ⟨rfl, rfl⟩, bytes, _, hread, ?_⟩
    simp only [hdec, runs_bind, runs_current, runs_ite, runs_fatal, runs_pure]
    refine ⟨_, _, ⟨rfl, rfl⟩, ?_⟩
    rw [if_neg (Nat.not_lt_of_le hdepth)]
    simp

theorem runs_writeBucket {o : Nat} {b : Bucket} {a : PUnit} :
    Runs (writeBucket o b) s a s' ↔
      Runs (writeAt o (b.encode s.2.file.header.blockSize)) s () s' := by
  unfold writeBucket
  simp only [runs_bind, runs_blockSize, and_assoc, exists_and_left, exists_eq_left]

/-- Caching a bucket runs when writing back what the cache evicts for it runs. -/
theorem runs_cacheInsert {o : Nat} {b : Bucket} {d : Bool} {a : PUnit} :
    Runs (cacheInsert o b d) s a s' ↔
      Runs (writeBack (s.2.cache.insert o b d).1) (s.1, { s.2 with cache := (s.2.cache.insert o b d).2 })
        () s' := by
  unfold cacheInsert
  simp only [runs_bind, runs_current, runs_modifyIndex, and_assoc, exists_and_left, exists_eq_left,
    exists_const]

/-- A bucket comes from the cache, or is read from its block and cached clean. -/
theorem runs_loadBucket {o : Nat} {b : Bucket} :
    Runs (loadBucket o) s b s' ↔ (s.2.cache.find? o = some b ∧ s' = s) ∨
      (s.2.cache.find? o = none ∧ Runs (readBucket o) s b s ∧ Runs (cacheInsert o b false) s () s') := by
  unfold loadBucket
  simp only [runs_bind, runs_current, and_assoc, exists_and_left, exists_eq_left]
  cases h : s.2.cache.find? o with
  | some b' =>
    simp only [runs_pure, Option.some.injEq, reduceCtorEq, false_and, or_false]
    exact ⟨fun ⟨h1, h2⟩ => ⟨h1.symm, h2⟩, fun ⟨h1, h2⟩ => ⟨h1.symm, h2⟩⟩
  | none =>
    simp only [runs_bind, runs_pure, reduceCtorEq, false_and, true_and, false_or]
    constructor
    · rintro ⟨b1, s1, hr, ⟨⟩, s2, hc, rfl, rfl⟩
      obtain ⟨rfl, -⟩ := runs_readBucket.1 hr
      exact ⟨hr, hc⟩
    · rintro ⟨hr, hc⟩
      exact ⟨b, s, hr, (), s', hc, rfl, rfl⟩

/-- A change to a bucket is made to its cached copy, which becomes dirty. -/
theorem runs_updateBucket {o : Nat} {f : Bucket → α × Bucket} {a : α} :
    Runs (updateBucket o f) s a s' ↔ ∃ b s1, Runs (loadBucket o) s b s1 ∧ a = (f b).1 ∧
      s' = (s1.1, { s1.2 with cache := s1.2.cache.update o fun _ => (f b).2 }) := by
  unfold updateBucket
  simp only [runs_bind, runs_modifyIndex, runs_pure, exists_and_left, exists_eq_left, exists_const]

theorem runs_elementAt {o i : Nat} {e : Slot} :
    Runs (elementAt o i) s e s' ↔ ∃ b, Runs (loadBucket o) s b s' ∧ e = b.slot i := by
  unfold elementAt
  simp only [runs_bind, runs_pure]
  constructor
  · rintro ⟨b, s1, hl, rfl, rfl⟩; exact ⟨b, hl, rfl⟩
  · rintro ⟨b, hl, rfl⟩; exact ⟨b, s', hl, rfl, rfl⟩

theorem runs_readKey {e : Slot} {k : Bytes} :
    Runs (readKey e) s k s' ↔ Runs (readAt e.dataOffset e.keySize) s k s' := Iff.rfl

theorem runs_readValue {e : Slot} {x : Bytes} :
    Runs (readValue e) s x s' ↔ e.dataOffset + e.keySize < wordSize ∧
      Runs (readAt (e.dataOffset + e.keySize) e.dataSize) s x s' := by
  unfold readValue
  simp only [runs_bind, runs_checked, and_assoc, exists_and_left, exists_eq_left]
  unfold addWord
  split
  · next h => simp [h]
  · next h => simp [h]

/-- Writing back evicted buckets writes each encoded at its offset, in order;
it needs a writer when there is something to write, and room for every block. -/
theorem runs_writeBack {l : List (Nat × Bucket)} {a : PUnit} :
    Runs (writeBack l) s a s' ↔ (l = [] ∨ s.2.file.writable = true) ∧
      (∀ p ∈ l, p.1 + s.2.file.header.blockSize ≤ Volume.maxFileSize) ∧
      s' = (l.foldl (fun v p => v.writeAt s.2.file.handle.ino p.1
        (p.2.encode s.2.file.header.blockSize)) s.1, s.2) := by
  induction l generalizing s with
  | nil =>
    simp only [writeBack, runs_forM_nil, List.not_mem_nil, true_or, true_and, List.foldl_nil]
    simp
  | cons p l ih =>
    obtain ⟨o, b⟩ := p
    simp only [writeBack] at ih ⊢
    rw [runs_forM_cons]
    simp only [runs_writeBucket, runs_writeAt, Bucket.size_encode, ih, List.mem_cons,
      forall_eq_or_imp, List.foldl_cons, reduceCtorEq, false_or]
    constructor
    · rintro ⟨s1, ⟨hw, hsz, rfl⟩, -, hl, rfl⟩
      exact ⟨hw, ⟨hsz, hl⟩, rfl⟩
    · rintro ⟨hw, ⟨hsz, hl⟩, rfl⟩
      exact ⟨_, ⟨hw, hsz, rfl⟩, .inr hw, hl, rfl⟩

end Index

end HashFile
