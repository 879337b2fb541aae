import HashFile.Proofs.Deleting
import HashFile.Proofs.CacheInserts
import HashFile.Proofs.Deepening
import HashFile.Proofs.BlockSize

/-!
# Stores run

A store in a ready writer runs to its end, and leaves the index ready, when
its key and value are within the size limit, the frontier leaves room for
what the store may allocate, and no other stored key has the key's hash.

Allocation never overflows while the frontier is a word
(`Header.Layout.allocate_ok`), and it moves the frontier out by at most the
bytes asked. A split allocates two blocks and, when it doubles the directory, a
directory of at most `hashBits` bits: never more than `splitGrowth`. What it
pushes out of the cache lies within the frontier, so it is written
(`Ready.split_runs`). Making room splits the bucket the hash selects until that
bucket has a vacant slot. A bucket as deep as the hash is wide holds entries of
that hash only, so with no other key of the hash stored a full bucket is never
that deep; every split deepens the bucket, so the rounds `makeRoom` allows
suffice (`Ready.makeRoom_runs`). The record is then written within the frontier
and its slot placed, and in sync mode the flush writes within the frontier too
(`Ready.store_runs`).

A store keeps the index ready (`Ready.store`): a record starts only where a
write succeeded, and a record of some bytes is written there.
-/
namespace HashFile

namespace FreeList

/-- Taking from a free list whose regions end within a word never overflows. -/
theorem take_ok {f : FreeList} (hl : ∀ x ∈ f.regions, x.stop < wordSize) (size : Nat) :
    ∃ r f', f.take size = (.ok r, f') := by
  unfold take
  split
  · exact ⟨_, _, rfl⟩
  · next e rest hp =>
    obtain ⟨pre, post, hregs, -, hfit, -⟩ := pick_eq_some hp
    have he := hl e (by rw [hregs]; simp)
    simp only [decide_eq_true_eq] at hfit
    dsimp only
    split
    · rw [addWord_of_lt (by simp only [Region.stop] at he; omega)]
      exact ⟨_, _, rfl⟩
    · exact ⟨_, _, rfl⟩

end FreeList

namespace Header

variable {h h' : Header} {U : List Region} {n off : Nat}

/-- Allocating from a laid-out header never overflows while the frontier
leaves room for the bytes asked. -/
theorem Layout.allocate_ok (hl : h.Layout U) (hn : h.nextBlock + n < wordSize) :
    ∃ off h', h.allocate n = (.ok off, h') := by
  have hfree : ∀ x ∈ h.avail.regions, x.stop < wordSize :=
    fun x hx => Nat.lt_trans (hl.free_below x hx) hl.next_lt
  obtain ⟨r, f', ht⟩ := FreeList.take_ok hfree n
  unfold Header.allocate
  split
  · exact ⟨_, _, rfl⟩
  · rw [ht]
    cases r with
    | some o => exact ⟨_, _, rfl⟩
    | none =>
      dsimp only
      rw [addWord_of_lt hn]
      exact ⟨_, _, rfl⟩

/-- An allocation moves the frontier out by at most the bytes asked. -/
theorem allocate_nextBlock_le (ha : h.allocate n = (.ok off, h')) :
    h'.nextBlock ≤ h.nextBlock + n := by
  unfold allocate at ha
  split at ha
  · obtain ⟨-, rfl⟩ := Prod.mk.inj ha
    exact Nat.le_add_right _ _
  · split at ha
    · cases ha
    · obtain ⟨-, rfl⟩ := Prod.mk.inj ha
      exact Nat.le_add_right _ _
    · split at ha
      · cases ha
      · next next hnext =>
        obtain ⟨-, rfl⟩ := Prod.mk.inj ha
        have : next = h.nextBlock + n := by
          unfold addWord at hnext
          split at hnext <;> simp_all
        exact Nat.le_of_eq this

/-- An allocation ends within the frontier it leaves. -/
theorem Layout.allocate_below (hl : h.Layout U) (ha : h.allocate n = (.ok off, h')) :
    off + n ≤ h'.nextBlock := by
  by_cases hn : 0 < n
  · have := (hl.allocate hn ha).1.used_below _ List.mem_cons_self
    simpa only [Region.stop] using this
  · obtain rfl : n = 0 := by omega
    rw [Header.allocate, if_pos rfl] at ha
    obtain ⟨hoff, rfl⟩ := Prod.mk.inj ha
    cases hoff
    exact Nat.le_refl _

end Header

namespace Index

variable {v v' : Volume} {ix ix' : Index}

/-- The largest file ends far below the largest word. -/
theorem maxFileSize_lt_wordSize : Volume.maxFileSize < wordSize := by decide

/-- A loaded bucket is left cached. -/
theorem loadBucket_cached {s s' : Volume × Index} {o : Nat} {b : Bucket}
    (hd : s.2.cache.Distinct) (h : Runs (loadBucket o) s b s') : s'.2.cache.find? o = some b := by
  rcases runs_loadBucket.1 h with ⟨hf, rfl⟩ | ⟨-, -, hc⟩
  · exact hf
  · obtain ⟨-, -, rfl⟩ := runs_writeBack.1 (runs_cacheInsert.1 hc)
    exact BucketCache.find?_insert hd o b false

/-- A flush runs when the header is laid out for regions that hold the header
block, the directory and every cached block, the free list fits the header
block, and the frontier lies within the largest file. -/
theorem flush_runs_of_layout {U : List Region} (hl : ix.file.header.Layout U)
    (hhead : (⟨0, ix.file.header.blockSize⟩ : Region) ∈ U)
    (hdir : (⟨ix.dir.offset, Directory.byteSize ix.dir.bits⟩ : Region) ∈ U)
    (hsize : ix.dir.size = 2 ^ ix.dir.bits)
    (hcache : ∀ e ∈ ix.cache.entries, (⟨e.offset, ix.file.header.blockSize⟩ : Region) ∈ U)
    (hvalid : validBlockSize ix.file.header.blockSize = true)
    (hcap : ix.file.header.avail.capacity = availCapacity ix.file.header.blockSize)
    (hnext : ix.file.header.nextBlock ≤ Volume.maxFileSize) :
    ∃ s', Runs Index.flush (v, ix) () s' := by
  have hd := hl.used_below _ hdir
  have hh := hl.used_below _ hhead
  simp only [Region.stop, Directory.byteSize_eq, Nat.zero_add] at hd hh
  simp only [Directory.size] at hsize
  refine flush_runs_of (fun p hp => ?_) ?_
    (header_fits hvalid (by rw [← hcap]; exact hl.length_le)) (by omega)
  · obtain ⟨e, he, -, rfl⟩ := BucketCache.mem_dirtyBuckets.1 hp
    have := hl.used_below _ (hcache e he)
    simp only [Region.stop] at this
    show (BucketCache.written e).1 + _ ≤ _
    rw [BucketCache.written_fst]
    omega
  · rw [Directory.size_encode, hsize]
    omega

/-- The step after a change runs when a flush would. -/
theorem afterMutation_runs (hf : ∃ s', Runs Index.flush (v, ix) () s') :
    ∃ s', Runs afterMutation (v, ix) () s' := by
  unfold Index.afterMutation
  by_cases hsync : ix.syncMode = true
  · obtain ⟨s', hf⟩ := hf
    exact ⟨s', runs_bind.2 ⟨ix, _, runs_current.2 ⟨rfl, rfl⟩, by rw [if_pos hsync]; exact hf⟩⟩
  · exact ⟨_, runs_bind.2 ⟨ix, _, runs_current.2 ⟨rfl, rfl⟩, by
      rw [if_neg hsync]; exact runs_pure.2 ⟨rfl, rfl⟩⟩⟩

/-- The most one split can move the frontier out: two blocks for the halves,
and a directory of at most `hashBits` bits when it doubles the directory. -/
def splitGrowth (bs : Nat) : Nat := 2 * bs + Directory.byteSize hashBits

/-- Caching a bucket in an index open to write runs when every cached block
lies within the largest file: what it pushes out is written there. The cache
then holds the new bucket and buckets it held. -/
theorem cacheInsert_runs_of (hw : ix.file.writable = true)
    (hc : ∀ e ∈ ix.cache.entries, e.offset + ix.file.header.blockSize ≤ Volume.maxFileSize)
    (o : Nat) (b : Bucket) (d : Bool) :
    ∃ v' ix', Runs (cacheInsert o b d) (v, ix) () (v', ix') ∧ ix'.file = ix.file ∧
      ix'.dir = ix.dir ∧ ∀ e ∈ ix'.cache.entries, e.offset = o ∨ e ∈ ix.cache.entries := by
  obtain ⟨dropped, hmem, -, hout, hne, -⟩ := BucketCache.insert_spec ix.cache o b d
  refine ⟨_, _, runs_cacheInsert.2 (runs_writeBack.2 ⟨.inr hw, fun p hp => ?_, rfl⟩), rfl, rfl,
    fun e he => BucketCache.offset_eq_or_mem_of_insert he⟩
  rw [hout] at hp
  obtain ⟨e, he, rfl⟩ := List.mem_map.1 hp
  rcases (hmem e).1 (.inr (List.mem_filter.1 he).1) with rfl | ⟨he', -⟩
  · exact absurd rfl (hne _ (List.mem_filter.1 he).1)
  · exact hc e he'

/-- Caching the two halves of a split runs in an index open to write whose
cached blocks, and the first half's block, lie within the largest file. -/
theorem cacheHalves_runs (hw : ix.file.writable = true)
    (hc : ∀ e ∈ ix.cache.entries, e.offset + ix.file.header.blockSize ≤ Volume.maxFileSize)
    {p : (Nat × Bucket) × (Nat × Bucket)}
    (hlo : p.1.1 + ix.file.header.blockSize ≤ Volume.maxFileSize) :
    ∃ v' ix', Runs (cacheHalves p) (v, ix) () (v', ix') ∧ ix'.file = ix.file := by
  obtain ⟨v1, ix1, h1, hf1, -, hc1⟩ := cacheInsert_runs_of (v := v) hw hc p.1.1 p.1.2 true
  obtain ⟨v2, ix2, h2, hf2, -, -⟩ := cacheInsert_runs_of (v := v1) (by rw [hf1]; exact hw)
    (fun e he => by
      rw [hf1]
      rcases hc1 e he with h | h
      · rw [h]
        exact hlo
      · exact hc e h) p.2.1 p.2.2 true
  exact ⟨v2, ix2, runs_bind.2 ⟨(), _, h1, h2⟩, hf2.trans hf1⟩

/-- Doubling the directory of a sound index runs while the frontier leaves
room for the new directory: the frontier moves out by at most its size, and
the file is untouched. -/
theorem Sound.doubleDirectory_runs (hs : Sound v ix)
    (hroom : ix.file.header.nextBlock + Directory.byteSize (ix.dir.bits + 1) < wordSize) :
    ∃ ix', Runs Index.doubleDirectory (v, ix) () (v, ix') ∧
      ix'.file.header.nextBlock ≤ ix.file.header.nextBlock + Directory.byteSize (ix.dir.bits + 1) := by
  have hl := hs.layout
  obtain ⟨off, h1, ha⟩ := hl.allocate_ok hroom
  have hpos : 0 < Directory.byteSize (ix.dir.bits + 1) := by
    rw [Directory.byteSize_eq]
    exact Nat.mul_pos (by decide) (Nat.two_pow_pos _)
  obtain ⟨hl1, -⟩ := hl.allocate hpos ha
  have hdir : (⟨ix.dir.offset, Directory.byteSize ix.dir.bits⟩ : Region) ∈
      (⟨off, Directory.byteSize (ix.dir.bits + 1)⟩ :: (image v ix).used : List Region) :=
    List.mem_cons_of_mem _ (List.mem_cons_of_mem _ List.mem_cons_self)
  obtain ⟨h2, hrel⟩ := Header.release_ok (fun _ => hl1.used_below _ hdir) hl1.next_lt
    hl1.free_below
  have hnext : h2.nextBlock ≤ ix.file.header.nextBlock + Directory.byteSize (ix.dir.bits + 1) :=
    Nat.le_trans (Header.release_nextBlock_le hrel) (Header.allocate_nextBlock_le ha)
  unfold Index.doubleDirectory
  exact ⟨_, runs_bind.2 ⟨ix, _, runs_current.2 ⟨rfl, rfl⟩, runs_bind.2 ⟨(), _, runs_modifyIndex.2 rfl,
    runs_bind.2 ⟨off, _, runs_allocate.2 ⟨h1, ha, rfl⟩,
      runs_bind.2 ⟨(), _, runs_free.2 ⟨h2, hrel, rfl⟩, runs_modifyIndex.2 rfl⟩⟩⟩⟩, hnext⟩

/-- Taking a live bucket out of a ready index runs and answers the bucket. -/
theorem Ready.takeBucket_runs (hr : Ready v ix) {o : Nat} (ho : o ∈ (image v ix).live) :
    Runs (takeBucket o) (v, ix) (bucketAt v ix o) (v, { ix with cache := (ix.cache.remove o).2 }) := by
  refine runs_takeBucket.2 ⟨rfl, ?_⟩
  cases hf : ix.cache.find? o with
  | some b =>
    left
    simp only [bucketAt, hf, Option.getD_some]
  | none =>
    refine .inr ⟨rfl, ?_⟩
    have hkeep : ix.cache.entries.filter (fun e => e.offset != o) = ix.cache.entries :=
      List.filter_eq_self.2 fun e he => by
        simpa using uncached_of_find? hr.sound.coherent.distinct hf e he
    have hrm : (ix.cache.remove o).2 = ix.cache := by
      simp only [BucketCache.remove, hkeep]
    rw [hrm]
    exact hr.readBucket ho hf

/-- Placing the halves of a split runs from a sound index, whatever its cache
then holds: two blocks are allocated, the directory is pointed at them and the
split block is given back. The first half's block lies below the frontier,
which moves out by at most the two blocks. -/
theorem Sound.placeHalves_runs (hs : Sound v ix) {off : Nat} (hoff : off ∈ (image v ix).live)
    (hroom : ix.file.header.nextBlock + 2 * ix.file.header.blockSize < wordSize)
    (c : BucketCache) (hash bits : Nat) (old : Bucket) :
    ∃ p ix', Runs (placeHalves hash off bits old) (v, { ix with cache := c }) p (v, ix') ∧
      ix'.cache = c ∧ ix'.file.writable = ix.file.writable ∧
      ix'.file.header.blockSize = ix.file.header.blockSize ∧
      p.1.1 + ix.file.header.blockSize ≤ ix'.file.header.nextBlock ∧
      ix'.file.header.nextBlock ≤ ix.file.header.nextBlock + 2 * ix.file.header.blockSize := by
  have hbs : 0 < ix.file.header.blockSize := hs.spread.pos
  have hl := hs.layout
  obtain ⟨lo, h1, ha1⟩ := hl.allocate_ok (n := ix.file.header.blockSize) (by omega)
  have hn1 := Header.allocate_nextBlock_le ha1
  obtain ⟨hl1, -⟩ := hl.allocate hbs ha1
  obtain ⟨hi, h2, ha2⟩ := hl1.allocate_ok (n := ix.file.header.blockSize) (by omega)
  have hn2 := Header.allocate_nextBlock_le ha2
  obtain ⟨hl2, -⟩ := hl1.allocate hbs ha2
  have hoffU : (⟨off, ix.file.header.blockSize⟩ : Region) ∈
      (⟨hi, ix.file.header.blockSize⟩ :: ⟨lo, ix.file.header.blockSize⟩ :: (image v ix).used :
        List Region) :=
    List.mem_cons_of_mem _ (List.mem_cons_of_mem _ (List.mem_cons_of_mem _
      (List.mem_cons_of_mem _ (List.mem_append_left _ (List.mem_map_of_mem hoff)))))
  obtain ⟨h3, hrel⟩ := Header.release_ok (fun _ => hl2.used_below _ hoffU) hl2.next_lt
    hl2.free_below
  have hn3 := Header.release_nextBlock_le hrel
  obtain ⟨hl3, -⟩ := Header.Layout.split hl hbs hoff ha1 ha2 hrel
  have hlo : lo + ix.file.header.blockSize ≤ h3.nextBlock :=
    hl3.used_below _ (List.mem_cons_of_mem _ (List.mem_cons_of_mem _
      (List.mem_append_left _ (List.mem_map_of_mem List.mem_cons_self))))
  unfold placeHalves
  refine ⟨_, _, runs_bind.2 ⟨_, _, runs_header.2 ⟨rfl, rfl⟩,
    runs_bind.2 ⟨_, _, runs_blockSize.2 ⟨rfl, rfl⟩,
    runs_bind.2 ⟨lo, _, runs_allocate.2 ⟨h1, ha1, rfl⟩,
    runs_bind.2 ⟨hi, _, runs_allocate.2 ⟨h2, ha2, rfl⟩,
    runs_bind.2 ⟨_, _, runs_current.2 ⟨rfl, rfl⟩,
    runs_bind.2 ⟨(), _, runs_modifyIndex.2 rfl,
    runs_bind.2 ⟨(), _, runs_free.2 ⟨h3, hrel, rfl⟩, runs_pure.2 ⟨rfl, rfl⟩⟩⟩⟩⟩⟩⟩⟩,
    rfl, rfl, ?_, ?_, ?_⟩
  · show h3.blockSize = _
    have e1 := Header.blockSize_allocate ix.file.header ix.file.header.blockSize
    have e2 := Header.blockSize_allocate h1 ix.file.header.blockSize
    have e3 := Header.blockSize_release h2 off ix.file.header.blockSize
    rw [ha1] at e1
    rw [ha2] at e2
    rw [hrel] at e3
    exact e3.trans (e2.trans e1)
  · exact hlo
  · show h3.nextBlock ≤ _
    omega

/-- Growing the directory for a split runs from a ready index when the bucket
to split is shallower than the hash is wide, and the frontier leaves room for
a directory of `hashBits` bits. The index stays ready, with the same buckets
live, and the frontier moves out by at most that directory. -/
theorem Ready.growFor_runs (hr : Ready v ix) {bits : Nat} (hdeep : bits < hashBits)
    (hle : bits ≤ ix.dir.bits) {off : Nat} (hoff : off ∈ (image v ix).live)
    (hroom : ix.file.header.nextBlock + Directory.byteSize hashBits ≤ Volume.maxFileSize) :
    ∃ ix', Runs (growFor bits) (v, ix) () (v, ix') ∧ Ready v ix' ∧ off ∈ (image v ix').live ∧
      ix'.file.writable = ix.file.writable ∧
      ix'.file.header.blockSize = ix.file.header.blockSize ∧
      ix'.file.header.nextBlock ≤ ix.file.header.nextBlock + Directory.byteSize hashBits := by
  unfold growFor
  by_cases hD : ix.dir.bits ≤ bits
  · have hlt : ix.dir.bits < hashBits := by omega
    have hsize : Directory.byteSize (ix.dir.bits + 1) ≤ Directory.byteSize hashBits := by
      simp only [Directory.byteSize_eq]
      exact Nat.mul_le_mul_left 8 (Nat.pow_le_pow_right (by decide) hlt)
    obtain ⟨ix1, hd, hn1⟩ := hr.sound.doubleDirectory_runs (by
      have := maxFileSize_lt_wordSize
      omega)
    obtain ⟨hs1, hsame, hst, -, -, -, -, hlive, -⟩ := hr.sound.doubleDirectory hlt hd
    refine ⟨ix1, ?_, hr.of_grows hs1 (fun e he => hsame.slots.subset he)
      ⟨hst.handle, by simp only [disk, hst.handle, Nat.le_refl]⟩ (by omega),
      hlive.mem_iff.2 hoff, hst.writable, sameBlockSize_doubleDirectory _ _ _ hd, by omega⟩
    rw [runs_bind]
    refine ⟨ix, _, runs_current.2 ⟨rfl, rfl⟩, ?_⟩
    dsimp only
    rw [if_pos hD, runs_bind]
    refine ⟨ix, _, runs_current.2 ⟨rfl, rfl⟩, ?_⟩
    rwa [if_neg (Nat.not_le_of_lt hlt)]
  · refine ⟨ix, ?_, hr, hoff, rfl, rfl, Nat.le_add_right _ _⟩
    rw [runs_bind]
    refine ⟨ix, _, runs_current.2 ⟨rfl, rfl⟩, ?_⟩
    dsimp only
    rw [if_neg hD]
    exact runs_pure.2 ⟨rfl, rfl⟩

/-- The part of a split before its halves are cached runs from a ready index
whose frontier leaves room for the split. What it answers and leaves is fit
for the caching: the index is still writable, its cache and the first half lie
below the size limit, and the frontier moved out by at most `splitGrowth`. -/
theorem Ready.splitFront_runs (hr : Ready v ix) (hw : ix.file.writable = true)
    {hash off bits : Nat} (hh : hash < 2 ^ hashBits)
    (hoff : ix.dir.entryAt (dirIndex hash ix.dir.bits) = off)
    (hbits : (bucketAt v ix off).depth = bits) (hdeep : bits < hashBits)
    (hroom : ix.file.header.nextBlock + splitGrowth ix.file.header.blockSize ≤
      Volume.maxFileSize) :
    ∃ p ix', Runs (splitFront hash off bits) (v, ix) p (v, ix') ∧ ix'.file.writable = true ∧
      (∀ e ∈ ix'.cache.entries, e.offset + ix'.file.header.blockSize ≤ Volume.maxFileSize) ∧
      p.1.1 + ix'.file.header.blockSize ≤ Volume.maxFileSize ∧
      ix'.file.header.nextBlock ≤ ix.file.header.nextBlock + splitGrowth ix.file.header.blockSize := by
  have hoffL : off ∈ (image v ix).live :=
    hoff ▸ (hr.sound.get?_dir (dirIndex_lt hh hr.sound.shaped.bits_le)).2
  have hle : bits ≤ ix.dir.bits := by
    have := hr.sound.selectedDepth_le hh
    unfold selectedDepth at this
    rwa [hoff, hbits] at this
  obtain ⟨ix1, hg, hr1, hoff1, hw1, hbs1, hn1⟩ := hr.growFor_runs hdeep hle hoffL (by
    unfold splitGrowth at hroom
    omega)
  have ht := hr1.takeBucket_runs hoff1
  obtain ⟨p, ix3, hp, hc3, hw3, hbs3, hlo, hn3⟩ := hr1.sound.placeHalves_runs hoff1 (by
    have := maxFileSize_lt_wordSize
    unfold splitGrowth at hroom
    omega) (ix1.cache.remove off).2 hash bits (bucketAt v ix1 off)
  have hcache : ∀ e ∈ ix3.cache.entries,
      e.offset + ix1.file.header.blockSize ≤ ix1.file.header.nextBlock := fun e he => by
    rw [hc3] at he
    exact hr1.sound.cached_below (List.mem_of_mem_filter he)
  refine ⟨p, ix3, ?_, hw3.trans (hw1.trans hw), fun e he => ?_, ?_, ?_⟩
  · unfold splitFront
    exact runs_bind.2 ⟨(), _, hg, runs_bind.2 ⟨_, _, ht, hp⟩⟩
  · rw [hbs3]
    exact Nat.le_trans (hcache e he) hr1.frontier
  · rw [hbs3]
    unfold splitGrowth at hroom
    omega
  · unfold splitGrowth at hroom ⊢
    omega

/-- A split runs from a ready writable index when the bucket the hash selects is
shallower than the hash is wide and the frontier leaves room for the split; the
index stays ready and the frontier moves out by at most `splitGrowth`. -/
theorem Ready.split_runs (hr : Ready v ix) (hw : ix.file.writable = true)
    {hash off bits : Nat} (hh : hash < 2 ^ hashBits)
    (hoff : ix.dir.entryAt (dirIndex hash ix.dir.bits) = off)
    (hbits : (bucketAt v ix off).depth = bits) (hdeep : bits < hashBits)
    (hroom : ix.file.header.nextBlock + splitGrowth ix.file.header.blockSize ≤
      Volume.maxFileSize) :
    ∃ v' ix', Runs (Index.split hash off bits) (v, ix) () (v', ix') ∧ Ready v' ix' ∧
      ix'.file.header.nextBlock ≤ ix.file.header.nextBlock + splitGrowth ix.file.header.blockSize := by
  obtain ⟨p, ix3, hfront, hw3, hc3, hlo, hn3⟩ := hr.splitFront_runs hw hh hoff hbits hdeep hroom
  obtain ⟨v', ix', hcache, hf⟩ := cacheHalves_runs (v := v) hw3 hc3 hlo
  have hrun : Runs (Index.split hash off bits) (v, ix) () (v', ix') := by
    rw [split_eq]
    exact runs_bind.2 ⟨p, _, hfront, hcache⟩
  obtain ⟨hs', hsame, -⟩ := hr.sound.split hw hh hoff hbits hrun
  have hn' : ix'.file.header.nextBlock ≤
      ix.file.header.nextBlock + splitGrowth ix.file.header.blockSize := by
    rw [hf]
    exact hn3
  exact ⟨v', ix', hrun, hr.of_grows hs' (fun e he => hsame.slots.subset he)
    (keptByUpdates_grows.split hash off bits _ _ _ hrun) (Nat.le_trans hn' hroom), hn'⟩

/-! ## Making room -/

/-- Every entry of the bucket a hash selects shares the hash's first bits, as
many as the bucket is deep. -/
theorem Sound.dirIndex_eq_of_selected (hs : Sound v ix) {hash : Nat} (hh : hash < 2 ^ hashBits)
    {e : Slot} (he : e ∈ (bucketAt v ix (ix.dir.entryAt (dirIndex hash ix.dir.bits))).entries) :
    dirIndex e.hash (selectedDepth v ix hash) = dirIndex hash (selectedDepth v ix hash) := by
  have ha := hs.shaped.aligned
  have hD : ix.dir.bits ≤ hashBits := hs.shaped.bits_le
  have hi : dirIndex hash ix.dir.bits < (image v ix).dir.size := by
    rw [ha.size_eq]
    exact dirIndex_lt hh hD
  have ho := Image.entryAt_mem_live hi
  have heh : e.hash < 2 ^ hashBits := by
    rw [hs.shaped.hash_eq _ ho e he]
    exact Key.hash_lt _
  have hj : dirIndex e.hash ix.dir.bits < (image v ix).dir.size := by
    rw [ha.size_eq]
    exact dirIndex_lt heh hD
  have hrun := (ha.runs _ hi _ hj).1 (hs.shaped.home _ ho e he)
  have hle : selectedDepth v ix hash ≤ ix.dir.bits := hs.selectedDepth_le hh
  unfold selectedDepth at hle ⊢
  rw [← dirIndex_div heh hle hD, ← dirIndex_div hh hle hD]
  exact hrun

/-- A full bucket a hash selects is shallower than the hash is wide when no
stored entry has that hash: at full width its entries would all have it. -/
theorem Sound.selectedDepth_lt (hs : Sound v ix) {hash : Nat} (hh : hash < 2 ^ hashBits)
    (hfull : (bucketAt v ix (ix.dir.entryAt (dirIndex hash ix.dir.bits))).isFull = true)
    (hnone : ∀ e ∈ (image v ix).slots, e.hash ≠ hash) :
    selectedDepth v ix hash < hashBits := by
  have hi : dirIndex hash ix.dir.bits < 2 ^ ix.dir.bits := dirIndex_lt hh hs.shaped.bits_le
  have ho := (hs.get?_dir hi).2
  set b := bucketAt v ix (ix.dir.entryAt (dirIndex hash ix.dir.bits))
  have hwf : b.WF := hs.shaped.wf _ ho
  obtain ⟨e, he⟩ : ∃ e, e ∈ b.entries := by
    have hlen : 0 < b.entries.length := by
      rw [Bucket.length_entries, ← hwf.count_eq]
      have := hwf.size_pos
      simp only [Bucket.isFull, decide_eq_true_eq] at hfull
      omega
    exact ⟨_, List.getElem_mem hlen⟩
  refine Nat.lt_of_le_of_ne (Nat.le_trans (hs.selectedDepth_le hh) hs.shaped.bits_le) fun hsd => ?_
  have heh : e.hash < 2 ^ hashBits := by
    rw [hs.shaped.hash_eq _ ho e he]
    exact Key.hash_lt _
  have hx := hs.dirIndex_eq_of_selected hh he
  rw [hsd, dirIndex_eq heh, dirIndex_eq hh, Nat.sub_self, Nat.pow_zero, Nat.div_one,
    Nat.div_one] at hx
  exact hnone e (Image.mem_slots.2 ⟨_, ho, he⟩) hx

/-- The rounds of making room run from a ready writable index when no stored
entry has the hash and the frontier leaves room for a split per bit the
selected bucket may still deepen by. The index stays ready, and the frontier
moves out by at most that many splits. -/
theorem Ready.makeRoomGo_runs {hash : Nat} (hh : hash < 2 ^ hashBits) :
    ∀ (fuel : Nat) {v : Volume} {ix : Index}, Ready v ix → ix.file.writable = true →
      (∀ e ∈ (image v ix).slots, e.hash ≠ hash) →
      hashBits + 1 - selectedDepth v ix hash ≤ fuel →
      ix.file.header.nextBlock + (hashBits - selectedDepth v ix hash) *
        splitGrowth ix.file.header.blockSize ≤ Volume.maxFileSize →
      ∃ off v' ix', Runs (makeRoom.go hash fuel) (v, ix) off (v', ix') ∧ Ready v' ix' ∧
        (ix'.cache.find? off).isSome = true ∧
        ix'.file.header.nextBlock ≤ ix.file.header.nextBlock +
          (hashBits - selectedDepth v ix hash) * splitGrowth ix.file.header.blockSize
  | 0, v, ix, hr, _, _, hfuel, _ => by
    have := hr.sound.selectedDepth_le hh
    have : ix.dir.bits ≤ hashBits := hr.sound.shaped.bits_le
    omega
  | fuel + 1, v, ix, hr, hw, hnone, hfuel, hroom => by
    obtain ⟨hget, hlive⟩ := hr.sound.get?_dir (dirIndex_lt hh hr.sound.shaped.bits_le)
    set off := ix.dir.entryAt (dirIndex hash ix.dir.bits)
    obtain ⟨v1, ix1, hload, hrd1⟩ := hr.loadBucket hlive
    have hr1 := hrd1.ready
    have hn1 : ix1.file.header.nextBlock ≤ ix.file.header.nextBlock :=
      (retains_loadBucket off _ _ _ hload).2.2
    have hbs1 : ix1.file.header.blockSize = ix.file.header.blockSize :=
      sameBlockSize_loadBucket off _ _ _ hload
    have hoff1 : ix1.dir.entryAt (dirIndex hash ix1.dir.bits) = off := by
      rw [show ix1.dir.bits = ix.dir.bits from hrd1.agree.bits]
      exact hrd1.agree.entryAt _
    have hb1 : bucketAt v1 ix1 off = bucketAt v ix off := hrd1.bucketAt hlive
    have hsd1 : selectedDepth v1 ix1 hash = selectedDepth v ix hash := by
      unfold selectedDepth
      rw [hoff1, hb1]
    have hstart : ∀ a r, Runs (if !(bucketAt v ix off).isFull then pure off else
          (Index.split hash off (bucketAt v ix off).depth >>= fun _ => makeRoom.go hash fuel))
          (v1, ix1) a r → Runs (makeRoom.go hash (fuel + 1)) (v, ix) a r := fun a r h => by
      unfold makeRoom.go
      exact runs_bind.2 ⟨ix, _, runs_current.2 ⟨rfl, rfl⟩,
        runs_bind.2 ⟨off, _, runs_dirEntry.2 ⟨hget, rfl⟩, runs_bind.2 ⟨_, _, hload, h⟩⟩⟩
    cases hfull : (bucketAt v ix off).isFull with
    | false =>
      refine ⟨off, v1, ix1, hstart _ _ ?_, hr1, ?_, ?_⟩
      · rw [hfull, Bool.not_false, if_pos rfl]
        exact runs_pure.2 ⟨rfl, rfl⟩
      · rw [loadBucket_cached hr.sound.coherent.distinct hload]
        rfl
      · omega
    | true =>
      obtain ⟨-, -, -, hst1⟩ := hr.sound.loadBucket hlive hload
      have hw1 : ix1.file.writable = true := hst1.writable.trans hw
      have hsd : selectedDepth v ix hash < hashBits := by
        rw [← hsd1]
        refine hr1.sound.selectedDepth_lt hh (by rw [hoff1, hb1]; exact hfull) fun e he => ?_
        rw [hrd1.agree.slots] at he
        exact hnone e he
      obtain ⟨k, hk⟩ : ∃ k, hashBits - selectedDepth v ix hash = k + 1 :=
        ⟨_, (Nat.succ_pred_eq_of_pos (Nat.sub_pos_of_lt hsd)).symm⟩
      rw [hk, Nat.succ_mul] at hroom ⊢
      have hbits1 : (bucketAt v1 ix1 off).depth = selectedDepth v ix hash := by
        rw [hb1]
        rfl
      obtain ⟨v2, ix2, hsplit, hr2, hn2⟩ := hr1.split_runs hw1 hh hoff1 hbits1 hsd
        (by rw [hbs1]; omega)
      obtain ⟨-, hsame2, hst2, -⟩ := hr1.sound.split hw1 hh hoff1 hbits1 hsplit
      have hsd2 : selectedDepth v2 ix2 hash = selectedDepth v ix hash + 1 :=
        hr1.sound.split_deepens hw1 hh hoff1 hbits1 hsplit
      have hbs2 : ix2.file.header.blockSize = ix.file.header.blockSize :=
        (sameBlockSize_split _ _ _ _ _ _ hsplit).trans hbs1
      have hk2 : hashBits - selectedDepth v2 ix2 hash = k := by omega
      obtain ⟨off', v', ix', hgo, hr', hc', hn'⟩ := Ready.makeRoomGo_runs hh fuel hr2
        (hst2.writable.trans hw1)
        (fun e he => hnone e (by rw [← hrd1.agree.slots]; exact hsame2.slots.subset he))
        (by omega) (by rw [hk2, hbs2]; rw [hbs1] at hn2; omega)
      refine ⟨off', v', ix', hstart _ _ ?_, hr', hc', ?_⟩
      · rw [hfull, Bool.not_true, if_neg Bool.false_ne_true]
        exact runs_bind.2 ⟨(), _, hsplit, hgo⟩
      · rw [hk2, hbs2] at hn'
        rw [hbs1] at hn2
        omega

/-- Making room for a hash runs from a ready writable index when no stored
entry has the hash and the frontier leaves room for a split per bit of the
hash. The bucket it answers is left cached, the index ready, and the frontier
moved out by at most those splits. -/
theorem Ready.makeRoom_runs (hr : Ready v ix) (hw : ix.file.writable = true) {hash : Nat}
    (hh : hash < 2 ^ hashBits) (hnone : ∀ e ∈ (image v ix).slots, e.hash ≠ hash)
    (hroom : ix.file.header.nextBlock + hashBits * splitGrowth ix.file.header.blockSize ≤
      Volume.maxFileSize) :
    ∃ off v' ix', Runs (makeRoom hash) (v, ix) off (v', ix') ∧ Ready v' ix' ∧
      (ix'.cache.find? off).isSome = true ∧
      ix'.file.header.nextBlock ≤ ix.file.header.nextBlock +
        hashBits * splitGrowth ix.file.header.blockSize := by
  have hsplits : (hashBits - selectedDepth v ix hash) * splitGrowth ix.file.header.blockSize ≤
      hashBits * splitGrowth ix.file.header.blockSize :=
    Nat.mul_le_mul_right _ (Nat.sub_le _ _)
  obtain ⟨off, v', ix', hgo, hr', hc', hn'⟩ :=
    Ready.makeRoomGo_runs hh (hashBits + 2) hr hw hnone (by omega) (by omega)
  exact ⟨off, v', ix', hgo, hr', hc', by omega⟩

/-! ## Storing -/

/-- A record of a sound index that holds bytes ends within the frontier. -/
theorem Sound.record_below (hs : Sound v ix) {e : Slot} (he : e ∈ (image v ix).slots)
    (hpos : 0 < e.recordSize) : e.dataOffset + e.recordSize ≤ ix.file.header.nextBlock :=
  hs.layout.used_below _ (List.mem_cons_of_mem _ (List.mem_cons_of_mem _
    (List.mem_append_right _ (region_mem_recordsOf he hpos))))

/-- Choosing where a located key's record goes runs from a ready writable index
when the lookup found the bucket the key's hash selects, a new key's hash is no
stored entry's, and the frontier leaves room for the record and a split per
bit of the hash. The chosen bucket is left cached, the record ends within the
largest file, and the frontier moves out by at most that room. -/
theorem Ready.chooseRecord_runs (hr : Ready v ix) (hw : ix.file.writable = true) {key : Bytes}
    {loc : Located} {n : Nat} (hh : loc.hash = Key.hash key)
    (hbo : ix.dir.entryAt (dirIndex (Key.hash key) ix.dir.bits) = loc.bucketOffset)
    (hsome : ∀ i, loc.slot = some i → i < (bucketAt v ix loc.bucketOffset).size ∧
      ((bucketAt v ix loc.bucketOffset).slot i).isVacant = false)
    (hnone : loc.slot = none → ∀ e ∈ (image v ix).slots, e.hash ≠ Key.hash key)
    (hroom : ix.file.header.nextBlock + n + hashBits * splitGrowth ix.file.header.blockSize ≤
      Volume.maxFileSize) :
    ∃ o slot d v' ix', Runs (chooseRecord loc n) (v, ix) (o, slot, d) (v', ix') ∧
      (ix'.cache.find? o).isSome = true ∧ d + n ≤ Volume.maxFileSize ∧
      ix'.file.header.nextBlock ≤ ix.file.header.nextBlock + n +
        hashBits * splitGrowth ix.file.header.blockSize := by
  have hmax := maxFileSize_lt_wordSize
  unfold Index.chooseRecord
  cases hslot : loc.slot with
  | none =>
    obtain ⟨off, v1, ix1, hmr, hr1, hc1, hn1⟩ := hr.makeRoom_runs hw (hh ▸ Key.hash_lt key)
      (by rw [hh]; exact hnone hslot) (by omega)
    obtain ⟨d, h2, ha⟩ := hr1.sound.layout.allocate_ok (n := n) (by omega)
    have hd := hr1.sound.layout.allocate_below ha
    have hn2 := Header.allocate_nextBlock_le ha
    refine ⟨off, none, d, v1, _, runs_bind.2 ⟨off, _, hmr, runs_bind.2 ⟨d, _,
      runs_allocate.2 ⟨h2, ha, rfl⟩, runs_pure.2 ⟨rfl, rfl⟩⟩⟩, ?_, by omega, ?_⟩
    · exact hc1
    · show h2.nextBlock ≤ _
      omega
  | some i =>
    obtain ⟨hlt, hvac⟩ := hsome i hslot
    have hlive : loc.bucketOffset ∈ (image v ix).live := by
      rw [← hbo]
      exact (hr.sound.get?_dir (dirIndex_lt (Key.hash_lt key) hr.sound.shaped.bits_le)).2
    obtain ⟨v1, ix1, hel, hrd1⟩ := hr.elementAt hlive i
    have hr1 := hrd1.ready
    have hn1 : ix1.file.header.nextBlock ≤ ix.file.header.nextBlock :=
      (retains_elementAt _ _ _ _ _ hel).2.2
    have hc1 : (ix1.cache.find? loc.bucketOffset).isSome = true := by
      obtain ⟨b, hl, -⟩ := runs_elementAt.1 hel
      rw [loadBucket_cached hr.sound.coherent.distinct hl]
      rfl
    set old := (bucketAt v ix loc.bucketOffset).slot i
    have hmem1 : old ∈ (image v1 ix1).slots := by
      rw [hrd1.agree.slots]
      exact Image.mem_slots.2 ⟨_, hlive, Bucket.mem_entries.2 ⟨i, hlt, rfl, hvac⟩⟩
    by_cases hsize : old.recordSize = n
    · refine ⟨loc.bucketOffset, some i, old.dataOffset, v1, ix1, runs_bind.2 ⟨old, _, hel, by
        rw [if_pos hsize]; exact runs_pure.2 ⟨rfl, rfl⟩⟩, hc1, ?_, by omega⟩
      by_cases hpos : 0 < n
      · have := hr1.sound.record_below hmem1 (by omega)
        have := hr1.frontier
        omega
      · have := hr1.offsets old hmem1
        omega
    · obtain ⟨d, h2, ha⟩ := hr1.sound.layout.allocate_ok (n := n) (by
        have := hr1.frontier
        omega)
      have hd := hr1.sound.layout.allocate_below ha
      have hn2 := Header.allocate_nextBlock_le ha
      obtain ⟨hl2, -⟩ := hr1.sound.layout.allocateIf ha
      obtain ⟨h3, hrel⟩ : ∃ h3, h2.release old.dataOffset old.recordSize = (.ok (), h3) :=
        Header.release_ok (fun hpos => hl2.used_below _ (List.mem_append_right _
          (List.mem_cons_of_mem _ (List.mem_cons_of_mem _
            (List.mem_append_right _ (region_mem_recordsOf hmem1 hpos))))))
        hl2.next_lt hl2.free_below
      have hn3 := Header.release_nextBlock_le hrel
      refine ⟨loc.bucketOffset, some i, d, v1, _, runs_bind.2 ⟨old, _, hel, by
        rw [if_neg hsize]
        exact runs_bind.2 ⟨d, _, runs_allocate.2 ⟨h2, ha, rfl⟩,
          runs_bind.2 ⟨(), _, runs_free.2 ⟨h3, hrel, rfl⟩, runs_pure.2 ⟨rfl, rfl⟩⟩⟩⟩, ?_,
        by omega, ?_⟩
      · exact hc1
      · show h3.nextBlock ≤ _
        omega

/-- A placement that runs wrote its record within the largest file, and a
record of some bytes is in the file afterwards. -/
theorem runs_placeRecord_written (hino : ix.file.handle.ino < v.inodes.size) {key value : Bytes}
    {hash o d : Nat} {slot : Option Nat}
    (hr : Runs (placeRecord key value hash o slot d) (v, ix) () (v', ix')) :
    d + (key.size + value.size) ≤ Volume.maxFileSize ∧
      (0 < key.size + value.size → d + (key.size + value.size) ≤ (ix'.disk v').size) := by
  unfold placeRecord at hr
  obtain ⟨_, s1, hw, hrest⟩ := runs_bind.1 hr
  obtain ⟨-, hsz, rfl⟩ := runs_writeAt.1 hw
  have hn : (key ++ value).size = key.size + value.size := ByteArray.size_append
  have hg := ((keptByUpdates_grows.updateBucket _ _).bind fun _ =>
    leads_ite ((leads_throw _).bind fun _ => keptByUpdates_grows.afterMutation)
      keptByUpdates_grows.afterMutation) _ _ _ hrest
  rw [hn] at hsz
  refine ⟨hsz, fun hpos => ?_⟩
  have hw1 : d + (key ++ value).size ≤
      (v.writeAt ix.file.handle.ino d (key ++ value)).fileLen ix.file.handle.ino :=
    Volume.le_fileLen_writeAt v hino d (by rw [hn]; exact hpos)
  rw [hn] at hw1
  exact Nat.le_trans hw1 hg.2

/-- Every slot a store leaves is one the index had, or the key's new one: of
the key's hash, starting within the largest file and, when it holds bytes,
ending within the file. -/
theorem Sound.store_slots (hs : Sound v ix) {key value : Bytes}
    (hr : Runs (Index.store key value) (v, ix) () (v', ix')) :
    ∀ x ∈ (image v' ix').slots, x ∈ (image v ix).slots ∨
      (x.hash = Key.hash key ∧ x.dataOffset ≤ Volume.maxFileSize ∧
        (0 < x.recordSize → x.dataOffset + x.recordSize ≤ (ix'.disk v').size)) := by
  obtain ⟨hwr, hks, hvs, loc, ⟨v1, ix1⟩, o, slot, d, ⟨v2, ix2⟩, hloc, hch, hpl⟩ := runs_store hr
  obtain ⟨hs1, hag1, hst1, hhash, hdi, hbo, hlive, hsome, hnone⟩ := hs.locate hloc
  rw [hhash] at hpl
  have hb1 : bucketAt v1 ix1 loc.bucketOffset = bucketAt v ix loc.bucketOffset :=
    hag1.bucket _ hlive
  obtain ⟨O, R, hp, ho, hhome, hO, -, -, hsl2⟩ := hs1.chooseRecord
    (by rw [hst1.writable]; exact hwr) hhash
    (by
      rw [show ix1.dir.bits = ix.dir.bits from hag1.bits, hbo, hdi]
      exact hag1.entryAt _)
    (fun i hi => by
      obtain ⟨hlt, hvac, hkey⟩ := hsome i hi
      rw [hb1]
      exact ⟨hlt, hvac, (hag1.keyOf (Image.mem_slots.2
        ⟨_, hlive, Bucket.mem_entries.2 ⟨i, hlt, rfl, hvac⟩⟩)).trans hkey⟩)
    (fun hn => by rw [hag1.lookup]; exact hnone.1 hn) hch
  obtain ⟨-, -, -, hsl3⟩ := hp.place ho hhome ⟨hks, hvs⟩ hO hpl
  obtain ⟨hmax, hdisk⟩ := runs_placeRecord_written hp.coherent.ino_lt hpl
  intro x hx
  rcases hsl3 x hx with rfl | hx2
  · exact .inr ⟨rfl, by show d ≤ _; omega, hdisk⟩
  · exact .inl (hag1.slots ▸ hsl2 x hx2)

/-- Placing a record runs from a state ready to place it when its bucket is
cached, the index writable and the record and the frontier within the largest
file. -/
theorem Placing.placeRecord_runs {key value : Bytes} {d : Nat} {O R : List Slot}
    (hp : Placing v ix key d (key.size + value.size) O R) {o : Nat} (ho : o ∈ (image v ix).live)
    (hsizes : key.size < sizeLimit ∧ value.size < sizeLimit) {slot : Option Nat}
    (hO : (slot = none ∧ (bucketAt v ix o).isFull = false ∧ O = []) ∨
      ∃ s, slot = some s ∧ s < (bucketAt v ix o).size ∧
        ((bucketAt v ix o).slot s).isVacant = false ∧
        Key.hash key = ((bucketAt v ix o).slot s).hash ∧ O = [(bucketAt v ix o).slot s])
    (hc : (ix.cache.find? o).isSome = true) (hw : ix.file.writable = true)
    (hd : d + (key.size + value.size) ≤ Volume.maxFileSize)
    (hnext : ix.file.header.nextBlock ≤ Volume.maxFileSize) :
    ∃ v' ix', Runs (placeRecord key value (Key.hash key) o slot d) (v, ix) () (v', ix') ∧
      ix'.file.header.nextBlock ≤ ix.file.header.nextBlock := by
  obtain ⟨b, hb⟩ := Option.isSome_iff_exists.1 hc
  have hbo : bucketAt v ix o = b := by simp only [bucketAt, hb, Option.getD_some]
  have hn : (key ++ value).size = key.size + value.size := ByteArray.size_append
  set e : Slot := ⟨Key.hash key, Key.head key, d, key.size, value.size⟩
  have hpl := (Bucket.place_spec (hp.shaped.wf o ho) (hp.shaped.fits o ho)
    (elems_lt_of_valid hp.blockSize hp.elems) (newSlot_isVacant key d key.size value.size)
    (newSlot_fits hsizes (by omega)) hO).1
  set v1 := v.writeAt ix.file.handle.ino d (key ++ value)
  set ix2 : Index :=
    { ix with cache := ix.cache.update o fun _ => ((bucketAt v ix o).place slot e).2 }
  have hup : Runs (updateBucket o fun b => b.place slot e) (v1, ix) true (v1, ix2) :=
    runs_updateBucket.2 ⟨bucketAt v ix o, _,
      runs_loadBucket.2 (.inl ⟨by rw [hbo]; exact hb, rfl⟩), hpl.symm, rfl⟩
  have hcache : ∀ x ∈ ix2.cache.entries,
      (⟨x.offset, ix2.file.header.blockSize⟩ : Region) ∈ (if 0 < key.size + value.size then
        [⟨d, key.size + value.size⟩] else []) ++ (⟨0, ix.file.header.blockSize⟩ ::
          ⟨ix.dir.offset, Directory.byteSize ix.dir.bits⟩ ::
          ((image v ix).live.map (image v ix).block ++ Image.recordsOf R)) := by
    intro x hx
    obtain ⟨x0, hx0, hx⟩ := BucketCache.mem_update.1 hx
    have hoff : x.offset = x0.offset := by
      rw [hx]
      split <;> rfl
    rw [hoff]
    exact List.mem_append_right _ (List.mem_cons_of_mem _ (List.mem_cons_of_mem _
      (List.mem_append_left _ (List.mem_map_of_mem (hp.coherent.cached x0 hx0)))))
  obtain ⟨⟨v3, ix3⟩, hafter⟩ : ∃ s', Runs afterMutation (v1, ix2) () s' := afterMutation_runs
    (flush_runs_of_layout hp.layout (List.mem_append_right _ List.mem_cons_self)
      (List.mem_append_right _ (List.mem_cons_of_mem _ List.mem_cons_self))
      hp.shaped.aligned.size_eq hcache hp.blockSize hp.capacity hnext)
  have hrun : Runs (placeRecord key value (Key.hash key) o slot d) (v, ix) () (v3, ix3) := by
    unfold placeRecord
    refine runs_bind.2 ⟨(), _, runs_writeAt.2 ⟨hw, by rw [hn]; exact hd, rfl⟩,
      runs_bind.2 ⟨true, _, hup, ?_⟩⟩
    simp only [Bool.not_true, Bool.false_eq_true, if_false]
    exact hafter
  exact ⟨v3, ix3, hrun, (retains_afterMutation _ _ _ hafter).2.2⟩

/-- The most a store can move the frontier out: its record, and a split per
bit of the hash. -/
def storeGrowth (bs n : Nat) : Nat := n + hashBits * splitGrowth bs

/-- Storing in a ready writer runs when the key and value are within the size
limit, every stored entry of the key's hash is the key's own, and the frontier
leaves room for the store. It keeps the index ready, binds the key to the value
leaving every other key as it was, adds no entry but the key's, and moves the
frontier out by at most `storeGrowth`. -/
theorem Ready.store (hr : Ready v ix) (hw : ix.file.writable = true) {key value : Bytes}
    (hks : key.size < sizeLimit) (hvs : value.size < sizeLimit)
    (hcoll : ∀ e ∈ (image v ix).slots, e.hash = Key.hash key → (image v ix).keyOf e = key)
    (hroom : ix.file.header.nextBlock +
      storeGrowth ix.file.header.blockSize (key.size + value.size) ≤ Volume.maxFileSize) :
    ∃ v' ix', Runs (Index.store key value) (v, ix) () (v', ix') ∧ Ready v' ix' ∧
      (∀ k, (image v' ix').lookup k = if k = key then some value else (image v ix).lookup k) ∧
      (∀ e ∈ (image v' ix').slots, e.hash = Key.hash key ∨ e ∈ (image v ix).slots) ∧
      ix'.file.header.nextBlock ≤ ix.file.header.nextBlock +
        storeGrowth ix.file.header.blockSize (key.size + value.size) := by
  unfold storeGrowth at hroom ⊢
  obtain ⟨loc, v1, ix1, hloc, hrd1⟩ := hr.locate key
  have hr1 := hrd1.ready
  obtain ⟨-, hag1, hst1, hhash, hdi, hbo, hlive, hsome, hnone⟩ := hr.sound.locate hloc
  have hn1 : ix1.file.header.nextBlock ≤ ix.file.header.nextBlock :=
    (retains_locate key _ _ _ hloc).2.2
  have hbs1 : ix1.file.header.blockSize = ix.file.header.blockSize := hag1.blockSize
  have hw1 : ix1.file.writable = true := hst1.writable.trans hw
  have hb1 : bucketAt v1 ix1 loc.bucketOffset = bucketAt v ix loc.bucketOffset :=
    hag1.bucket _ hlive
  have hbo1 : ix1.dir.entryAt (dirIndex (Key.hash key) ix1.dir.bits) = loc.bucketOffset := by
    rw [show ix1.dir.bits = ix.dir.bits from hag1.bits, hbo, hdi]
    exact hag1.entryAt _
  have hsome1 : ∀ i, loc.slot = some i → i < (bucketAt v1 ix1 loc.bucketOffset).size ∧
      ((bucketAt v1 ix1 loc.bucketOffset).slot i).isVacant = false ∧
      (image v1 ix1).keyOf ((bucketAt v1 ix1 loc.bucketOffset).slot i) = key := fun i hi => by
    obtain ⟨hlt, hvac, hkey⟩ := hsome i hi
    rw [hb1]
    exact ⟨hlt, hvac, (hag1.keyOf (Image.mem_slots.2
      ⟨_, hlive, Bucket.mem_entries.2 ⟨i, hlt, rfl, hvac⟩⟩)).trans hkey⟩
  have hfresh : loc.slot = none → ∀ e ∈ (image v1 ix1).slots, e.hash ≠ Key.hash key :=
    fun hn e he heq => by
      rw [hag1.slots] at he
      have hk : (image v ix).keyOf e ∈ (image v ix).keys := List.mem_map_of_mem he
      rw [hcoll e he heq] at hk
      exact Image.not_mem_keys_of_lookup hr.sound.shaped.keys_nodup (hnone.1 hn) hk
  obtain ⟨o, slot, d, v2, ix2, hch, hc2, hd2, hn2⟩ := hr1.chooseRecord_runs (n := key.size + value.size) hw1 hhash hbo1
    (fun i hi => ⟨(hsome1 i hi).1, (hsome1 i hi).2.1⟩) hfresh (by rw [hbs1]; omega)
  obtain ⟨O, R, hp, ho, hhome, hO, -, hst2, -⟩ := hr1.sound.chooseRecord hw1 hhash hbo1 hsome1
    (fun hn => by rw [hag1.lookup]; exact hnone.1 hn) hch
  obtain ⟨v3, ix3, hpl, hn3⟩ := hp.placeRecord_runs ho ⟨hks, hvs⟩ hO hc2
    (hst2.writable.trans hw1) hd2 (by rw [hbs1] at hn2; omega)
  have hrun : Runs (Index.store key value) (v, ix) () (v3, ix3) := by
    unfold Index.store
    refine runs_bind.2 ⟨(), _, runs_checkWritable.2 ⟨hw, rfl⟩, ?_⟩
    dsimp only
    rw [if_neg (Nat.not_le_of_lt hks), if_neg (Nat.not_le_of_lt hvs)]
    exact runs_bind.2 ⟨loc, _, hloc, runs_bind.2 ⟨(o, slot, d), _, hch, hhash ▸ hpl⟩⟩
  obtain ⟨hs3, -, hlk3⟩ := hr.sound.store hrun
  have hsl3 := hr.sound.store_slots hrun
  have hg := keptByUpdates_grows.store key value _ _ _ hrun
  rw [hbs1] at hn2
  refine ⟨v3, ix3, hrun, ⟨hs3, fun x hx hpos => ?_, fun x hx => ?_, by omega⟩, hlk3,
    fun x hx => ?_, by omega⟩
  · rcases hsl3 x hx with hold | ⟨-, -, hnew⟩
    · exact Nat.le_trans (hr.records x hold hpos) hg.2
    · exact hnew hpos
  · rcases hsl3 x hx with hold | ⟨-, hnew, -⟩
    · exact hr.offsets x hold
    · exact hnew
  · rcases hsl3 x hx with hold | ⟨hhash, -⟩
    · exact .inr hold
    · exact .inl hhash

/-- Stores of keys of distinct hashes, none of which a stored entry has, run one
after another in a ready writer when the frontier leaves room for them all. The
index stays ready and open to write, binds each key to the value and every
other key as it was, and the frontier moves out by at most a store's room per
key. -/
theorem Ready.storeAll {value : Bytes} (hvs : value.size < sizeLimit) {m : Nat}
    (keys : List Bytes) (hr : Ready v ix) (hw : ix.file.writable = true)
    (hk : ∀ k ∈ keys, k.size < sizeLimit ∧ k.size + value.size ≤ m)
    (hnd : (keys.map Key.hash).Nodup) (hfresh : ∀ e ∈ (image v ix).slots, e.hash ∉ keys.map Key.hash)
    (hroom : ix.file.header.nextBlock + keys.length * storeGrowth ix.file.header.blockSize m ≤
      Volume.maxFileSize) :
    ∃ v' ix', Runs (keys.forM fun k => Index.store k value) (v, ix) () (v', ix') ∧
      Ready v' ix' ∧ ix'.file.writable = true ∧
      (∀ k ∈ keys, (image v' ix').lookup k = some value) ∧
      (∀ k, k ∉ keys → (image v' ix').lookup k = (image v ix).lookup k) ∧
      ix'.file.header.nextBlock ≤
        ix.file.header.nextBlock + keys.length * storeGrowth ix.file.header.blockSize m := by
  induction keys generalizing v ix with
  | nil =>
    exact ⟨v, ix, runs_forM_nil.2 rfl, hr, hw, fun _ hk => absurd hk List.not_mem_nil,
      fun _ _ => rfl, Nat.le_add_right _ _⟩
  | cons k ks ih =>
    have hks := hk k List.mem_cons_self
    have hgrow : storeGrowth ix.file.header.blockSize (k.size + value.size) ≤
        storeGrowth ix.file.header.blockSize m := by
      unfold storeGrowth
      omega
    rw [List.length_cons, Nat.succ_mul] at hroom ⊢
    obtain ⟨v1, ix1, hrun1, hr1, hlk1, hsl1, hn1⟩ := hr.store hw hks.1 hvs
      (fun e he heq => absurd (heq ▸ List.mem_map_of_mem List.mem_cons_self) (hfresh e he))
      (by omega)
    obtain ⟨-, hst1, -⟩ := hr.sound.store hrun1
    have hbs1 : ix1.file.header.blockSize = ix.file.header.blockSize :=
      sameBlockSize_store k value _ _ _ hrun1
    rw [List.map_cons, List.nodup_cons] at hnd
    obtain ⟨v', ix', hrun, hr', hw', hin, hout, hn'⟩ := ih hr1
      (hst1.writable.trans hw) (fun k' hk' => hk k' (List.mem_cons_of_mem _ hk')) hnd.2
      (fun e he hmem => by
        rcases hsl1 e he with heq | hold
        · exact hnd.1 (heq ▸ hmem)
        · exact hfresh e hold (by rw [List.map_cons]; exact List.mem_cons_of_mem _ hmem))
      (by rw [hbs1]; omega)
    refine ⟨v', ix', runs_forM_cons.2 ⟨_, hrun1, hrun⟩, hr', hw', fun k' hk' => ?_,
      fun k' hk' => ?_, by rw [hbs1] at hn'; omega⟩
    · by_cases hin' : k' ∈ ks
      · exact hin k' hin'
      · rw [hout k' hin', hlk1, if_pos ((List.mem_cons.1 hk').resolve_right hin')]
    · rw [hout k' fun h => hk' (List.mem_cons_of_mem _ h), hlk1,
        if_neg fun h : k' = k => hk' (h ▸ List.mem_cons_self)]

end Index

end HashFile
