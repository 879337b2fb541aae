import HashFile.Proofs.CacheQueue
import HashFile.Proofs.Reach

/-!
# The index caches a bucket only where none is cached

An insertion into the cache replaces the entry at its offset when there is
one, but the index never asks for that. Each of the three places where it
caches a bucket names an offset the cache does not hold:
- loading a bucket caches it on a miss, after a read that leaves the cache
  alone;
- a new file caches its first bucket into the empty cache it was opened with;
- a split caches its halves in blocks it has just allocated. The cache holds
  buckets of the table only, and no bucket of the table sits in those blocks.

The layout of a new file and a split are each cut at the point where they
cache (`bootstrap_eq`, `split_eq`). The statements about their first parts
therefore cover every run that reaches the cache, whether or not it fails
afterwards.
-/
namespace HashFile

namespace Index

/-! ## Where the index caches -/

/-- Grow the directory when the bucket to split is as deep as it. -/
def growFor (bits : Nat) : IndexM Unit := do
  if (← current).dir.bits ≤ bits then
    if hashBits ≤ (← current).dir.bits then fatal .splitTooDeep
    doubleDirectory

/-- Place the halves of the bucket `old`, taken from `off`, in new blocks, point
the directory at them and free the old block. Answers each half with its
offset. -/
def placeHalves (hash off bits : Nat) (old : Bucket) :
    IndexM ((Nat × Bucket) × (Nat × Bucket)) := do
  let newBits := bits + 1
  let elems := (← header).bucketElems
  let (low, high) := old.halves newBits elems
  let bs ← blockSize
  let lowOffset ← allocate bs
  let highOffset ← allocate bs
  let d := (← current).dir
  let (start, stop) := d.rangeOf (dirIndex hash d.bits) bits
  let mid := start + (stop - start) / 2
  modifyIndex fun ix => { ix with dir := (ix.dir.setRange start mid lowOffset).setRange mid stop highOffset }
  free off bs
  pure ((lowOffset, low), (highOffset, high))

/-- A split up to the caching of its halves. -/
def splitFront (hash off bits : Nat) : IndexM ((Nat × Bucket) × (Nat × Bucket)) := do
  growFor bits
  let old ← takeBucket off
  placeHalves hash off bits old

/-- Cache the placed halves, dirty. -/
def cacheHalves (p : (Nat × Bucket) × (Nat × Bucket)) : IndexM Unit := do
  cacheInsert p.1.1 p.1.2 true
  cacheInsert p.2.1 p.2.2 true

theorem ite_bind {m : Type → Type} [Monad m] {α β : Type} {c : Prop} [Decidable c] (a b : m α)
    (k : α → m β) : ((if c then a else b) >>= k) = if c then a >>= k else b >>= k := by
  split <;> rfl

/-- A split is its first part, then the caching of its halves. -/
theorem split_eq (hash off bits : Nat) :
    split hash off bits = splitFront hash off bits >>= cacheHalves := by
  simp only [split, splitFront, growFor, takeBucket, placeHalves, Bucket.halves, cacheHalves,
    bind_assoc, pure_bind, ite_bind]
  congr!
  all_goals split <;> simp_all only [pure_bind]

/-- The layout of a new file up to the caching of its bucket: answers the
bucket's offset and the bucket. -/
def bootFront : IndexM (Nat × Bucket) := do
  let bs ← blockSize
  let bits := Nat.log2 (bs / 8)
  let elems := elemsForBlock bs
  let dirOffset ← allocate (Directory.byteSize bits)
  let bucketOffset ← allocate bs
  modifyIndex fun ix => { ix with
    dir := Directory.uniform bits bucketOffset dirOffset,
    file := { ix.file with
      header := { ix.file.header with dirOffset, dirBits := bits, bucketElems := elems },
      headerDirty := true } }
  pure (bucketOffset, Bucket.empty 0 elems)

/-- Laying out a new file is its first part, then the caching of its bucket
and a flush. -/
theorem bootstrap_eq :
    bootstrap = bootFront >>= fun p => cacheInsert p.1 p.2 true >>= fun _ => flush := by
  simp only [bootstrap, bootFront, bind_assoc, pure_bind]

/-! ## Runs of the first parts -/

variable {v : Volume} {ix : Index}

theorem runs_growFor {s s' : Volume × Index} {bits : Nat} {a : PUnit}
    (hr : Runs (growFor bits) s a s') :
    (s.2.dir.bits ≤ bits ∧ s.2.dir.bits < hashBits ∧ Runs doubleDirectory s () s') ∨
      (bits < s.2.dir.bits ∧ s' = s) := by
  unfold growFor at hr
  simp only [runs_bind, runs_current, and_assoc, exists_and_left, exists_eq_left] at hr
  split at hr
  · rename_i hle
    simp only [runs_bind, runs_current, and_assoc, exists_and_left, exists_eq_left] at hr
    split at hr
    · obtain ⟨_, _, hf, -⟩ := runs_bind.1 hr
      exact (runs_fatal.1 hf).elim
    · rename_i hlt
      exact .inl ⟨hle, Nat.lt_of_not_le hlt, hr⟩
  · rename_i hlt
    exact .inr ⟨Nat.lt_of_not_le hlt, (runs_pure.1 hr).2⟩

/-! ## Fresh offsets -/

/-- The halves of a split of a sound index go where the cache holds nothing:
the first when it is cached, the second once the first is. -/
theorem Sound.splitFront_fresh {v : Volume} {ix : Index} (hs : Sound v ix) {hash off bits : Nat}
    (hh : hash < 2 ^ hashBits) (hoff : ix.dir.entryAt (dirIndex hash ix.dir.bits) = off)
    {p : (Nat × Bucket) × (Nat × Bucket)} {s : Volume × Index}
    (hr : Runs (splitFront hash off bits) (v, ix) p s) :
    s.2.cache.contains p.1.1 = false ∧
      ∀ s', Runs (cacheInsert p.1.1 p.1.2 true) s () s' → s'.2.cache.contains p.2.1 = false := by
  unfold splitFront at hr
  obtain ⟨_, ⟨v1, ix1⟩, hg, hr⟩ := runs_bind.1 hr
  obtain ⟨old, s2, ht, hp⟩ := runs_bind.1 hr
  have hoffL : off ∈ (image v ix).live :=
    hoff ▸ (hs.get?_dir (dirIndex_lt hh hs.shaped.bits_le)).2
  have hfirst : Sound v1 ix1 ∧ off ∈ (image v1 ix1).live := by
    rcases runs_growFor hg with ⟨-, hlt, hd⟩ | ⟨-, hs1⟩
    · obtain ⟨hs1, -, -, -, -, -, -, hlive, -⟩ := hs.doubleDirectory hlt hd
      exact ⟨hs1, hlive.mem_iff.2 hoffL⟩
    · obtain ⟨rfl, rfl⟩ := Prod.mk.inj hs1
      exact ⟨hs, hoffL⟩
  obtain ⟨hs1, hoff1⟩ := hfirst
  obtain ⟨-, rfl⟩ := takeBucket_bucketAt ht
  unfold placeHalves at hp
  simp only [runs_bind, runs_header, runs_blockSize, runs_current, runs_modifyIndex, runs_pure,
    and_assoc, exists_and_left, exists_eq_left, exists_const] at hp
  obtain ⟨lo, s3, ha1, hi, s4, ha2, _, s5, hfree, rfl, rfl⟩ := hp
  obtain ⟨h1, hh1, rfl⟩ := runs_allocate.1 ha1
  obtain ⟨h2, hh2, rfl⟩ := runs_allocate.1 ha2
  obtain ⟨h3, hh3, rfl⟩ := runs_free.1 hfree
  dsimp only at hh2 hh3 ⊢
  obtain ⟨-, hlo, hhi, hne, -⟩ := Header.Layout.split hs1.layout hs1.spread.pos hoff1 hh1 hh2 hh3
  have hkept : ∀ e ∈ (ix1.cache.remove off).2.entries, e.offset ∈ (image v1 ix1).live :=
    fun e he => hs1.coherent.cached e (BucketCache.mem_remove.1 he).1
  refine ⟨BucketCache.contains_eq_false fun e he h => hlo (h ▸ hkept e he), fun s' hins => ?_⟩
  obtain ⟨-, -, rfl⟩ := runs_writeBack.1 (runs_cacheInsert.1 hins)
  refine BucketCache.contains_eq_false fun e he h => ?_
  rcases BucketCache.offset_eq_or_mem_of_insert he with hlo' | he
  · exact hne (hlo'.symm.trans h)
  · exact hhi (h ▸ hkept e he)

/-- Loading caches a bucket only on a miss, after a read that leaves the cache
as it was. -/
theorem load_fresh {s s' : Volume × Index} {o : Nat} {b : Bucket} (hmiss : s.2.cache.find? o = none)
    (hr : Runs (readBucket o) s b s') : s'.2.cache.contains o = false := by
  obtain ⟨rfl, -⟩ := runs_readBucket.1 hr
  exact BucketCache.contains_eq_false_of_find? hmiss

/-- The layout of a new file leaves the cache as it was. -/
theorem bootFront_cache {s s' : Volume × Index} {p : Nat × Bucket} (hr : Runs bootFront s p s') :
    s'.2.cache = s.2.cache := by
  unfold bootFront at hr
  simp only [runs_bind, runs_blockSize, runs_modifyIndex, runs_pure, and_assoc, exists_and_left,
    exists_eq_left, exists_const] at hr
  obtain ⟨dirOffset, s1, ha1, bucketOffset, s2, ha2, -, rfl⟩ := hr
  obtain ⟨_, -, rfl⟩ := runs_allocate.1 ha1
  obtain ⟨_, -, rfl⟩ := runs_allocate.1 ha2
  rfl

/-- A new file, opened with an empty cache, caches its bucket into it. -/
theorem bootFront_fresh {s s' : Volume × Index} {p : Nat × Bucket} (hempty : s.2.cache.entries = [])
    (hr : Runs bootFront s p s') : s'.2.cache.contains p.1 = false := by
  rw [bootFront_cache hr]
  exact BucketCache.contains_eq_false fun e he => by simp [hempty] at he

/-! ## Every insertion of the index is fresh -/

/-- Where the index caches a bucket, the cache holds no bucket at its offset. -/
structure InsertsFresh : Prop where
  /-- A load caches a bucket on a miss, after the read. -/
  load : ∀ (s s' : Volume × Index) (o : Nat) (b : Bucket), s.2.cache.find? o = none →
    Runs (readBucket o) s b s' → s'.2.cache.contains o = false
  /-- The layout of a new file caches its bucket where its first part stops,
  into the empty cache it was opened with. -/
  bootstrap_eq : bootstrap = bootFront >>= fun p => cacheInsert p.1 p.2 true >>= fun _ => flush
  bootstrap : ∀ (s s' : Volume × Index) (p : Nat × Bucket), s.2.cache.entries = [] →
    Runs bootFront s p s' → s'.2.cache.contains p.1 = false
  /-- A split caches its halves where its first part stops, one after the
  other. -/
  split_eq : ∀ hash off bits, split hash off bits = splitFront hash off bits >>= cacheHalves
  split : ∀ (v : Volume) (ix : Index) (hash off bits : Nat) (p : (Nat × Bucket) × (Nat × Bucket))
    (s : Volume × Index), Sound v ix → hash < 2 ^ hashBits →
    ix.dir.entryAt (dirIndex hash ix.dir.bits) = off → Runs (splitFront hash off bits) (v, ix) p s →
    s.2.cache.contains p.1.1 = false ∧
      ∀ s', Runs (cacheInsert p.1.1 p.1.2 true) s () s' → s'.2.cache.contains p.2.1 = false

theorem insertsFresh : InsertsFresh where
  load _ _ _ _ hmiss hr := load_fresh hmiss hr
  bootstrap_eq := bootstrap_eq
  bootstrap _ _ _ hempty hr := bootFront_fresh hempty hr
  split_eq := split_eq
  split _ _ _ _ _ _ _ hs hh hoff hr := hs.splitFront_fresh hh hoff hr

end Index

end HashFile
