import HashFile.Proofs.Store
import HashFile.Proofs.Ready
import HashFile.Index.Open

/-!
# Indexes reached from a new file

A new file gets its layout from `bootstrap`: a directory of one block whose
entries all name one empty bucket, the bucket in a fresh cache entry, all of it
written out by a flush. Every index reached from there by successful stores and
deletes is sound (`Reachable.sound`): its image is an extendible hash table and
the header's allocation state is laid out for the regions in use, so an
allocation never overlaps what is in use and a write to one region in use
leaves the bytes of all others.
-/
namespace HashFile

theorem dedup_replicate_succ (m a : Nat) : (List.replicate (m + 1) a).dedup = [a] := by
  induction m with
  | zero => simp
  | succ m ih => rw [List.replicate_succ, List.dedup_cons_of_mem (by simp), ih]

namespace Header

/-- A fresh header is laid out for its own block alone. -/
theorem layout_fresh {bs : Nat} (hpos : 0 < bs) (hlt : bs < wordSize) :
    (Header.fresh bs).Layout [⟨0, bs⟩] where
  used_disjoint := List.pairwise_singleton _ _
  used_pos r hr := by
    rw [List.mem_singleton] at hr
    subst hr
    exact hpos
  used_below r hr := by
    rw [List.mem_singleton] at hr
    subst hr
    simp [Region.stop, Header.fresh]
  free_used _ _ a ha := by simp [Header.fresh, FreeList.empty] at ha
  free_apart := List.Pairwise.nil
  free_pos a ha := by simp [Header.fresh, FreeList.empty] at ha
  free_below a ha := by simp [Header.fresh, FreeList.empty] at ha
  sorted := List.Pairwise.nil
  length_le := Nat.zero_le _
  next_lt := hlt

/-- The two allocations of a new file, the directory's and then its first
bucket's, leave a header laid out for them and the header block, with the
block size and the free list's capacity of a fresh header. -/
theorem layout_bootstrap {h0 h1 h2 : Header} {bs dsz dOff bo : Nat}
    (hfresh : h0 = Header.fresh bs) (hpos : 0 < bs) (hlt : bs < wordSize) (hd : 0 < dsz)
    (ha1 : h0.allocate dsz = (.ok dOff, h1)) (ha2 : h1.allocate bs = (.ok bo, h2)) :
    h2.Layout [⟨bo, bs⟩, ⟨dOff, dsz⟩, ⟨0, bs⟩] ∧ h2.blockSize = bs ∧
      h2.avail.capacity = availCapacity bs := by
  subst hfresh
  obtain ⟨hl1, n1, a1, rfl, hc1⟩ := (layout_fresh hpos hlt).allocate hd ha1
  obtain ⟨hl2, n2, a2, rfl, hc2⟩ := hl1.allocate hpos ha2
  exact ⟨hl2, rfl, hc2.trans hc1⟩

/-- With nothing free, an allocation is cut at the frontier. -/
theorem allocate_of_regions_nil {h : Header} {n : Nat} (hav : h.avail.regions = []) (hn : 0 < n)
    (hlt : h.nextBlock + n < wordSize) :
    h.allocate n = (.ok h.nextBlock, { h with nextBlock := h.nextBlock + n }) := by
  have htake : h.avail.take n = (.ok none, h.avail) := by
    unfold FreeList.take
    rw [hav]
    rfl
  unfold allocate
  rw [if_neg (by omega), htake]
  simp only [addWord_of_lt hlt]

end Header

/-- Caching into an empty cache evicts nothing. -/
theorem BucketCache.insert_of_entries_nil {c : BucketCache} (hc : c.entries = []) (o : Nat)
    (b : Bucket) (d : Bool) : (c.insert o b d).1 = [] := by
  unfold BucketCache.insert BucketCache.evictTo
  simp only [BucketCache.contains, hc, List.any_nil, Bool.false_eq_true, if_false,
    List.nil_append, List.length_singleton]
  unfold BucketCache.evictTo.go
  split
  · rfl
  · simp [BucketCache.evictTo.go]

/-- The directory of a new file, of a valid block size, is at most
`hashBits` deep. -/
theorem log2_le_hashBits {bs : Nat} (h : validBlockSize bs = true) : (bs / 8).log2 ≤ hashBits := by
  have := validBlockSize_bounds h
  exact Nat.le_of_lt ((Nat.log2_lt (by omega)).2 (by unfold hashBits; omega))

namespace Directory

theorem entryAt_uniform {bits o off i : Nat} (hi : i < 2 ^ bits) :
    (uniform bits o off).entryAt i = o := by
  simp [entryAt, uniform, Array.getD_eq_getD_getElem?, hi]

/-- A directory whose entries all name one bucket of depth 0 is aligned. -/
theorem aligned_uniform {bits o off : Nat} {depth : Nat → Nat} (hd : depth o = 0) :
    (uniform bits o off).Aligned depth := by
  have hsize : (uniform bits o off).size = 2 ^ bits := by simp [size, uniform]
  refine ⟨hsize, fun i hi => ?_, fun i hi j hj => ?_⟩
  · rw [hsize] at hi
    rw [entryAt_uniform hi, hd]
    exact Nat.zero_le _
  · rw [hsize] at hi hj
    rw [entryAt_uniform hi, entryAt_uniform hj, hd, Nat.sub_zero]
    show o = o ↔ j / 2 ^ bits = i / 2 ^ bits
    rw [Nat.div_eq_of_lt hi, Nat.div_eq_of_lt hj]
    exact iff_of_true rfl rfl

end Directory

namespace Image

variable {I : Image} {bits o elems : Nat}

theorem live_uniform {off : Nat} (h : I.dir = Directory.uniform bits o off) : I.live = [o] := by
  rw [live, h]
  show (Array.replicate (2 ^ bits) o).toList.dedup = [o]
  rw [Array.toList_replicate, ← Nat.succ_pred_eq_of_pos (Nat.two_pow_pos bits)]
  exact dedup_replicate_succ _ o

theorem slots_uniform {off : Nat} (h : I.dir = Directory.uniform bits o off)
    (hb : I.bucket o = Bucket.empty 0 elems) : I.slots = [] := by
  rw [slots, live_uniform h, List.flatMap_singleton, hb, Bucket.entries_empty]

/-- A directory whose entries all name one empty bucket of depth 0 is an
extendible hash table with no records. -/
theorem shaped_uniform (hdir : I.dir = Directory.uniform bits o I.header.dirOffset)
    (hbits : bits ≤ hashBits) (hdirBits : I.header.dirBits = bits)
    (hb : I.bucket o = Bucket.empty 0 elems) (helems : I.header.bucketElems = elems)
    (hpos : 0 < elems) (hlt : elems < 2 ^ 32) : I.Shaped := by
  have hlive := live_uniform hdir
  have hentries : ∀ o' ∈ I.live, (I.bucket o').entries = [] := fun o' ho' => by
    rw [hlive, List.mem_singleton] at ho'
    rw [ho', hb, Bucket.entries_empty]
  refine ⟨by rw [hdir]; exact hbits, by rw [hdir]; exact Directory.aligned_uniform (by rw [hb]; rfl),
    by rw [hdir, hdirBits]; rfl, by rw [hdir]; rfl, fun o' ho' => ?_, fun o' ho' => ?_,
    fun o' ho' e he => ?_, fun o' ho' e he => ?_, fun o' ho' e he => ?_, ?_⟩
  · rw [hlive, List.mem_singleton] at ho'
    rw [ho', hb]
    exact Bucket.wf_empty hpos
  · rw [hlive, List.mem_singleton] at ho'
    rw [ho', hb, helems]
    exact (Bucket.Grown.refl (Bucket.wf_empty hpos)).fits (by simp) (by decide) hlt
  all_goals try (rw [hentries o' ho'] at he; cases he)
  rw [keys, slots_uniform hdir hb]
  exact List.nodup_nil

end Image

namespace Index

variable {v v' : Volume} {ix ix' : Index}

/-- An index on a file just made, before its layout is written: the fresh
header of a valid block size, the file's bytes in order and within the size
limit, an empty cache, and the file open to write. -/
structure Blank (v : Volume) (ix : Index) : Prop where
  header : ix.file.header = Header.fresh ix.file.header.blockSize
  blockSize : validBlockSize ix.file.header.blockSize = true
  writable : ix.file.writable = true
  cache : ix.cache.entries = []
  ino_lt : ix.file.handle.ino < v.inodes.size
  ordered : SparseBytes.Ordered (ix.disk v).runs
  size_le : (ix.disk v).size ≤ Volume.maxFileSize

/-- The layout of a new file before it is written out: the directory and then
the bucket allocated from the fresh header, every directory entry naming the
bucket, which is cached empty and dirty. It is sound already. -/
theorem Blank.laidOut_sound (hb : Blank v ix) {bs dOff bo : Nat} {h1 h2 : Header}
    (hbsz : ix.file.header.blockSize = bs)
    (hah1 : ix.file.header.allocate (Directory.byteSize (bs / 8).log2) = (.ok dOff, h1))
    (hah2 : h1.allocate bs = (.ok bo, h2))
    (hci : Runs (cacheInsert bo (Bucket.empty 0 (elemsForBlock bs)) true)
      (v, { ix with
        dir := Directory.uniform (bs / 8).log2 bo dOff,
        file := { ix.file with
          header :=
            { h2 with dirOffset := dOff, dirBits := (bs / 8).log2, bucketElems := elemsForBlock bs },
          headerDirty := true } }) () (v', ix')) :
    Sound v' ix' ∧ Stays v ix v' ix' ∧ (image v' ix').slots = [] ∧
      ix'.file.header.nextBlock = h2.nextBlock := by
  have hvalid : validBlockSize bs = true := hbsz ▸ hb.blockSize
  have hbounds := validBlockSize_bounds hvalid
  have hfresh : ix.file.header = Header.fresh bs := by rw [← hbsz]; exact hb.header
  obtain ⟨hl2, hbs2, hcap2⟩ := Header.layout_bootstrap hfresh (by omega)
    (by simp only [wordSize, Nat.pow_eq]; omega) (Nat.mul_pos (by decide) (Nat.two_pow_pos _)) hah1 hah2
  set ixm : Index := { ix with
    dir := Directory.uniform (bs / 8).log2 bo dOff,
    file := { ix.file with
      header :=
        { h2 with dirOffset := dOff, dirBits := (bs / 8).log2, bucketElems := elemsForBlock bs },
      headerDirty := true } } with hixm
  have helems : 0 < elemsForBlock bs := by
    unfold elemsForBlock bucketHeaderSize slotBytes
    omega
  have hcm : Coherent v ixm [] :=
    ⟨hb.ino_lt, hb.ordered, hb.size_le, by simp [ixm, BucketCache.Distinct, hb.cache],
      fun e he => by simp [ixm, hb.cache] at he, fun e he => by simp [ixm, hb.cache] at he,
      fun o ho => absurd ho List.not_mem_nil, fun _ e he => by simp [ixm, hb.cache] at he,
      fun h => by simp [ixm] at h, fun h => by simp [ixm, Directory.uniform] at h⟩
  have hpw := hl2.used_disjoint
  rw [List.pairwise_cons, List.pairwise_cons] at hpw
  have hsp : Spread ixm [bo] := by
    refine ⟨by show 0 < h2.blockSize; omega,
      by show _ ≤ h2.blockSize; rw [hbs2]; exact room_of_valid hvalid rfl,
      fun o ho o' ho' hne => ?_, fun o ho => ?_, fun o ho => ?_⟩
    · rw [List.mem_singleton] at ho ho'
      exact absurd (ho.trans ho'.symm) hne
    · rw [List.mem_singleton] at ho
      subst ho
      show Region.Disjoint ⟨o, h2.blockSize⟩ ⟨0, h2.blockSize⟩
      rw [hbs2]
      exact hpw.1 _ (List.mem_cons_of_mem _ List.mem_cons_self)
    · rw [List.mem_singleton] at ho
      subst ho
      show Region.Disjoint ⟨o, h2.blockSize⟩ _
      rw [hbs2]
      exact hpw.1 _ List.mem_cons_self
  obtain ⟨rfl, hc5, hfind, hk5⟩ := hcm.cacheInsert hsp
    ((Bucket.Grown.refl (Bucket.wf_empty helems)).fits (by simp) (by decide)
      (elems_lt_of_valid hvalid rfl))
    (by intro h; cases h) (fun _ => hb.writable) hci
  set ix5 : Index :=
    { ixm with cache := (ixm.cache.insert bo (Bucket.empty 0 (elemsForBlock bs)) true).2 }
  have hdir : (image v' ix5).dir = Directory.uniform ((bs / 8).log2) bo (image v' ix5).header.dirOffset :=
    rfl
  have hbo : (image v' ix5).bucket bo = Bucket.empty 0 (elemsForBlock bs) := by
    show (ix5.cache.find? bo).getD _ = _
    rw [hfind]
    rfl
  have hlive := Image.live_uniform hdir
  have hused : (image v' ix5).used = [⟨bo, bs⟩, ⟨dOff, Directory.byteSize (bs / 8).log2⟩, ⟨0, bs⟩].reverse := by
    rw [Image.used, hlive, Image.records, Image.slots_uniform hdir hbo]
    show [Region.mk 0 h2.blockSize, Region.mk dOff _, Region.mk bo h2.blockSize] = _
    rw [hbs2]
    rfl
  have hs5 : Sound v' ix5 := by
    refine ⟨Image.shaped_uniform hdir (log2_le_hashBits hvalid) rfl hbo rfl helems (elems_lt_of_valid hvalid rfl), ?_,
      by show validBlockSize h2.blockSize = true; rw [hbs2]; exact hvalid,
      by show elemsForBlock bs = elemsForBlock h2.blockSize; rw [hbs2],
      by show h2.avail.capacity = availCapacity h2.blockSize; rw [hbs2]; exact hcap2,
      by rw [hlive]; exact hc5⟩
    have hl5 : ix5.file.header.Layout
        [⟨bo, bs⟩, ⟨dOff, Directory.byteSize (bs / 8).log2⟩, ⟨0, bs⟩] := hl2.congr rfl rfl
    rw [hused]
    exact hl5.perm (List.reverse_perm _).symm
  have hstm : Stays v ix v ixm := ⟨Volume.Frame.refl _ v, rfl, rfl⟩
  exact ⟨hs5, hstm.trans hk5.stays, Image.slots_uniform hdir hbo, rfl⟩

/-- Laying out a new file leaves a sound index. -/
theorem Sound.bootstrap (hb : Blank v ix) (hr : Runs Index.bootstrap (v, ix) () (v', ix')) :
    Sound v' ix' ∧ Stays v ix v' ix' := by
  unfold Index.bootstrap at hr
  obtain ⟨bs, s1, hbs, hr⟩ := runs_bind.1 hr
  obtain ⟨rfl, rfl⟩ := runs_blockSize.1 hbs
  dsimp only at hr
  obtain ⟨dOff, s2, ha1, hr⟩ := runs_bind.1 hr
  obtain ⟨h1, hah1, rfl⟩ := runs_allocate.1 ha1
  obtain ⟨bo, s3, ha2, hr⟩ := runs_bind.1 hr
  obtain ⟨h2, hah2, rfl⟩ := runs_allocate.1 ha2
  obtain ⟨_, s4, hmod, hr⟩ := runs_bind.1 hr
  obtain rfl := runs_modifyIndex.1 hmod
  obtain ⟨_, ⟨v5, ix5⟩, hci, hfl⟩ := runs_bind.1 hr
  obtain ⟨hs5, hst5, -⟩ := hb.laidOut_sound rfl hah1 hah2 hci
  obtain ⟨hs', -, hst, -⟩ := hs5.flush hfl
  exact ⟨hs', hst5.trans hst⟩

/-- Laying out a new file always runs: both allocations are cut at the frontier
of the fresh header, caching the empty bucket evicts nothing, and the flush
writes nothing past the new frontier, far within the largest file. -/
theorem Blank.bootstrap_runs (hb : Blank v ix) : ∃ s', Runs Index.bootstrap (v, ix) () s' := by
  have hvalid := hb.blockSize
  obtain ⟨hlo, hhi⟩ := validBlockSize_bounds hvalid
  have hav : ix.file.header.avail.regions = [] := by rw [hb.header]; rfl
  have hnext : ix.file.header.nextBlock = ix.file.header.blockSize :=
    congrArg Header.nextBlock hb.header
  generalize hbsz : ix.file.header.blockSize = bs at hvalid hlo hhi hnext
  have hdsz : Directory.byteSize (bs / 8).log2 ≤ 8 * 2 ^ hashBits :=
    Nat.mul_le_mul_left 8 (Nat.pow_le_pow_right (by decide) (log2_le_hashBits hvalid))
  have hdpos : 0 < Directory.byteSize (bs / 8).log2 := Nat.mul_pos (by decide) (Nat.two_pow_pos _)
  unfold hashBits at hdsz
  have ha1 := Header.allocate_of_regions_nil hav hdpos (by simp only [wordSize, Nat.pow_eq]; omega)
  set h1 : Header := { ix.file.header with
    nextBlock := ix.file.header.nextBlock + Directory.byteSize (bs / 8).log2 }
  have ha2 := Header.allocate_of_regions_nil (h := h1) (n := bs) hav (by omega)
    (by show ix.file.header.nextBlock + _ + bs < _; simp only [wordSize, Nat.pow_eq]; omega)
  set h2 : Header := { h1 with nextBlock := h1.nextBlock + bs }
  set ixm : Index := { ix with
    dir := Directory.uniform (bs / 8).log2 h1.nextBlock ix.file.header.nextBlock,
    file := { ix.file with
      header :=
        { h2 with dirOffset := ix.file.header.nextBlock, dirBits := (bs / 8).log2,
                  bucketElems := elemsForBlock bs },
      headerDirty := true } }
  have hci : Runs (cacheInsert h1.nextBlock (Bucket.empty 0 (elemsForBlock bs)) true) (v, ixm) ()
      (v, { ixm with cache := (ixm.cache.insert h1.nextBlock (Bucket.empty 0 (elemsForBlock bs)) true).2 }) := by
    have hins : (ixm.cache.insert h1.nextBlock (Bucket.empty 0 (elemsForBlock bs)) true).1 = [] :=
      BucketCache.insert_of_entries_nil hb.cache _ _ _
    rw [runs_cacheInsert, hins]
    exact runs_forM_nil.2 rfl
  obtain ⟨hs5, -⟩ := hb.laidOut_sound hbsz ha1 ha2 hci
  obtain ⟨s', hfl⟩ := hs5.flush_runs (by
    show ix.file.header.nextBlock + Directory.byteSize (bs / 8).log2 + bs ≤ Volume.maxFileSize
    simp only [Volume.maxFileSize, Nat.pow_eq]
    omega)
  unfold Index.bootstrap
  refine ⟨s', runs_bind.2 ⟨bs, (v, ix), runs_blockSize.2 ⟨hbsz.symm, rfl⟩, ?_⟩⟩
  dsimp only
  refine runs_bind.2 ⟨_, _, runs_allocate.2 ⟨_, ha1, rfl⟩, ?_⟩
  refine runs_bind.2 ⟨_, _, runs_allocate.2 ⟨_, ha2, rfl⟩, ?_⟩
  refine runs_bind.2 ⟨(), (v, ixm), runs_modifyIndex.2 rfl, ?_⟩
  exact runs_bind.2 ⟨(), _, hci, hfl⟩

/-- Laying out a new file leaves a ready index that stores nothing: its
frontier stands past the header block, the directory and the bucket, far
within the largest file. -/
theorem Ready.bootstrap (hb : Blank v ix) (hr : Runs Index.bootstrap (v, ix) () (v', ix')) :
    Ready v' ix' ∧ (image v' ix').slots = [] ∧
      ix'.dir.bits = (ix.file.header.blockSize / 8).log2 ∧
      ix'.file.header.nextBlock ≤
        2 * ix.file.header.blockSize + Directory.byteSize (ix.file.header.blockSize / 8).log2 := by
  have hvalid := hb.blockSize
  obtain ⟨hlo, hhi⟩ := validBlockSize_bounds hvalid
  have hav : ix.file.header.avail.regions = [] := by rw [hb.header]; rfl
  have hnext : ix.file.header.nextBlock = ix.file.header.blockSize :=
    congrArg Header.nextBlock hb.header
  have hdsz : Directory.byteSize (ix.file.header.blockSize / 8).log2 ≤ 8 * 2 ^ hashBits :=
    Nat.mul_le_mul_left 8 (Nat.pow_le_pow_right (by decide) (log2_le_hashBits hvalid))
  have hdpos : 0 < Directory.byteSize (ix.file.header.blockSize / 8).log2 :=
    Nat.mul_pos (by decide) (Nat.two_pow_pos _)
  unfold hashBits at hdsz
  unfold Index.bootstrap at hr
  obtain ⟨bs, s1, hbs, hr⟩ := runs_bind.1 hr
  obtain ⟨rfl, rfl⟩ := runs_blockSize.1 hbs
  dsimp only at hr
  obtain ⟨dOff, s2, ha1, hr⟩ := runs_bind.1 hr
  obtain ⟨h1, hah1, rfl⟩ := runs_allocate.1 ha1
  obtain ⟨bo, s3, ha2, hr⟩ := runs_bind.1 hr
  obtain ⟨h2, hah2, rfl⟩ := runs_allocate.1 ha2
  obtain ⟨_, s4, hmod, hr⟩ := runs_bind.1 hr
  obtain rfl := runs_modifyIndex.1 hmod
  obtain ⟨_, ⟨v5, ix5⟩, hci, hfl⟩ := runs_bind.1 hr
  obtain ⟨hs5, -, hslots, hnext5⟩ := hb.laidOut_sound rfl hah1 hah2 hci
  obtain ⟨hs', hag, -, -⟩ := hs5.flush hfl
  have hret := retains_flush _ _ _ hfl
  dsimp only at hah1 hah2 hnext5
  rw [Header.allocate_of_regions_nil hav hdpos (by simp only [wordSize, Nat.pow_eq]; omega)] at hah1
  obtain ⟨-, hh1⟩ := Prod.mk.inj hah1
  have hav1 : h1.avail.regions = [] := by rw [← hh1]; exact hav
  have hn1 : h1.nextBlock = ix.file.header.nextBlock +
      Directory.byteSize (ix.file.header.blockSize / 8).log2 := by rw [← hh1]
  rw [Header.allocate_of_regions_nil hav1 (by omega)
    (by rw [hn1]; simp only [wordSize, Nat.pow_eq]; omega)] at hah2
  obtain ⟨-, hh2⟩ := Prod.mk.inj hah2
  have hslots' : (image v' ix').slots = [] := by rw [hag.slots, hslots]
  have hfront : ix'.file.header.nextBlock ≤
      2 * ix.file.header.blockSize + Directory.byteSize (ix.file.header.blockSize / 8).log2 := by
    refine Nat.le_trans hret.2.2 ?_
    rw [hnext5, ← hh2]
    show h1.nextBlock + _ ≤ _
    rw [hn1]
    omega
  obtain ⟨-, -, hv5⟩ := runs_writeBack.1 (runs_cacheInsert.1 hci)
  obtain ⟨-, rfl⟩ := Prod.mk.inj hv5
  refine ⟨⟨hs', fun e he => (by rw [hslots'] at he; cases he),
    fun e he => (by rw [hslots'] at he; cases he), ?_⟩, hslots', hag.bits, hfront⟩
  refine Nat.le_trans hfront ?_
  simp only [Volume.maxFileSize, Nat.pow_eq]
  omega

/-! ## A new file, laid out -/

/-- A volume holding one empty file `db`, open to write under a fresh header of
512-byte blocks: where a new database is laid out. -/
def blank : Volume × Index :=
  (⟨[("db", .file 0)], #[⟨⟨0, []⟩, Volume.defaultMode, []⟩], 1, []⟩,
    ⟨⟨"db", ⟨0, 0⟩, Header.fresh 512, true, true, false⟩, Directory.uniform 0 0 0,
      BucketCache.empty 64, {}, false⟩)

theorem blank_blank : Blank blank.1 blank.2 :=
  ⟨rfl, by decide, rfl, rfl, by decide, List.Pairwise.nil, by decide⟩

/-- The index laid out on `blank`: one empty bucket under a directory of one
block. It is kept from unfolding, since unfolding it runs the layout. -/
@[irreducible] def laidOut : Volume × Index := (bootstrap.run.run blank).2

theorem runs_bootstrap_blank : Runs bootstrap (blank.1, blank.2) () (laidOut.1, laidOut.2) := by
  obtain ⟨s', hs'⟩ := blank_blank.bootstrap_runs
  show bootstrap.run.run blank = (.ok (), laidOut)
  unfold laidOut
  rw [show bootstrap.run.run blank = (.ok (), s') from hs']

theorem sound_laidOut : Sound laidOut.1 laidOut.2 :=
  (Sound.bootstrap blank_blank runs_bootstrap_blank).1

theorem laidOut_writable : laidOut.2.file.writable = true :=
  (Sound.bootstrap blank_blank runs_bootstrap_blank).2.writable

theorem ready_laidOut : Ready laidOut.1 laidOut.2 :=
  (Ready.bootstrap blank_blank runs_bootstrap_blank).1

end Index

end HashFile
