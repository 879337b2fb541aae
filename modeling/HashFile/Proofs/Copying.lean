import HashFile.Proofs.Clearing
import HashFile.Proofs.BlockSize

/-!
# Copying a database into a new file

Reorganizing copies the records of an index into a new file, storing them one
by one in traversal order into a new index on the same volume. The two indexes
see only their own files (`Index.image_of_disk`), and each action on one of them
changes only its own file's bytes, so neither disturbs the other: the index
copied from is only read, and stays ready and reading as it did whatever the
copy's outcome, and the copy, kept sound by every store, ends up holding
exactly the pairs of the traversal (`Index.copyRecords_spec`). The copy's path
names no file, or another file than the database's (`Volume.Apart`), so the
open of the copy reaches a file of its own and spares the database's
(`Index.openIn_spares`).
-/

namespace HashFile

namespace Image

variable {I : Image} {A R : List Position} {p : Position}

/-- The keys of the records at some positions of an image. -/
def keysAt (I : Image) (L : List Position) : List Bytes := L.map fun q => (I.pairAt q).1

/-- A copy of the records at the positions `A` of `I`: it answers the lookups of
`I` on their keys, and nothing on other keys. -/
def CopiedAt (I : Image) (A : List Position) (J : Image) : Prop :=
  ∀ k, (k ∈ keysAt I A → J.lookup k = I.lookup k) ∧ (k ∉ keysAt I A → J.lookup k = none)

/-- Storing the pair at the next position of the traversal copies one more
position. -/
theorem CopiedAt.store (hI : I.Shaped) (hp : I.positions = A ++ p :: R) {J J' : Image}
    (hc : CopiedAt I A J)
    (hs : ∀ k, J'.lookup k = if k = (I.pairAt p).1 then some (I.pairAt p).2 else J.lookup k) :
    CopiedAt I (A ++ [p]) J' := by
  have hlk : I.lookup (I.pairAt p).1 = some (I.pairAt p).2 := by
    have hmem : I.pairAt p ∈ I.traversal := by
      unfold traversal
      rw [hp]
      exact List.mem_map_of_mem (List.mem_append_right _ List.mem_cons_self)
    exact (mem_traversal hI).1 hmem
  intro k
  rw [hs k]
  by_cases hk : k = (I.pairAt p).1
  · subst hk
    rw [if_pos rfl, hlk]
    exact ⟨fun _ => rfl, fun hn => absurd (by simp [keysAt]) hn⟩
  · rw [if_neg hk]
    have hmem : k ∈ keysAt I (A ++ [p]) ↔ k ∈ keysAt I A := by simp [keysAt, hk]
    rw [hmem]
    exact hc k

/-- A copy of every position answers every lookup as the image does. -/
theorem CopiedAt.all (hI : I.Shaped) {J : Image} (hc : CopiedAt I I.positions J) (k : Bytes) :
    J.lookup k = I.lookup k := by
  by_cases hk : k ∈ keysAt I I.positions
  · exact (hc k).1 hk
  · rw [(hc k).2 hk]
    have hnot : k ∉ I.traversal.map Prod.fst := by
      rw [traversal_keys]
      exact hk
    exact (Classical.not_not.1 (mt (mem_traversal_keys hI).2 hnot)).symm

theorem Agree.head?_keyed_of_mem {J : Image} (h : I.Agree J) (hI : I.Shaped)
    (hR : ∀ q ∈ R, q ∈ I.positions) : R.head?.map J.keyed = R.head?.map I.keyed := by
  cases R with
  | nil => rfl
  | cons q R =>
    rw [List.head?_cons, Option.map_some, Option.map_some, h.keyed hI (hR q List.mem_cons_self)]

end Image

namespace Index

/-- The state of a copy from a walk of the traversal of `I`: the index copied
from is ready and agrees with `I`, and the copy, on another file, is sound and
holds the records at the positions `A` walked past. -/
structure Copying (I : Image) (A : List Position) (v : Volume) (src fresh : Index) : Prop where
  ready : Ready v src
  agree : I.Agree (image v src)
  sound : Sound v fresh
  apart : fresh.file.handle.ino ≠ src.file.handle.ino
  copied : I.CopiedAt A (image v fresh)

variable {α : Type} {v v' v1 : Volume} {ix ix' : Index}

/-! ## An index sees its own file only -/

theorem bucketAt_of_disk (hd : ix.disk v' = ix.disk v) : bucketAt v' ix = bucketAt v ix := by
  funext o
  simp only [bucketAt, storedBucket, hd]

theorem image_of_disk (hd : ix.disk v' = ix.disk v) : image v' ix = image v ix := by
  simp only [image, bucketAt_of_disk hd, hd]

theorem Coherent.of_disk {L : List Nat} (hc : Coherent v ix L) (hd : ix.disk v' = ix.disk v)
    (hlt : ix.file.handle.ino < v'.inodes.size) : Coherent v' ix L := by
  have hb := bucketAt_of_disk hd
  refine ⟨hlt, hd ▸ hc.ordered, hd ▸ hc.size_le, hc.distinct, hc.cached, hc.fits,
    fun o ho hnd => ?_, hc.clean, fun h => ?_, fun h => ?_⟩
  · have hst := hc.stored o ho hnd
    unfold StoredAt at hst ⊢
    rw [hd, hb]
    exact hst
  · have hst := hc.header h
    unfold HeaderStored at hst ⊢
    rw [hd]
    exact hst
  · have hst := hc.dir h
    unfold DirStored at hst ⊢
    rw [hd]
    exact hst

theorem Sound.of_disk (hs : Sound v ix) (hd : ix.disk v' = ix.disk v)
    (hlt : ix.file.handle.ino < v'.inodes.size) : Sound v' ix := by
  have hi := image_of_disk hd
  refine ⟨by rw [hi]; exact hs.shaped, by rw [hi]; exact hs.layout, hs.blockSize, hs.elems,
    hs.capacity, ?_⟩
  rw [hi]
  exact hs.coherent.of_disk hd hlt

theorem Ready.of_disk (hr : Ready v ix) (hd : ix.disk v' = ix.disk v)
    (hlt : ix.file.handle.ino < v'.inodes.size) : Ready v' ix := by
  have hi := image_of_disk hd
  refine ⟨hr.sound.of_disk hd hlt, fun e he => ?_, fun e he => ?_, hr.frontier⟩
  · rw [hi] at he
    rw [hd]
    exact hr.records e he
  · rw [hi] at he
    exact hr.offsets e he

/-- An index whose file is not the one an action worked on sees the same
image after it. -/
theorem image_of_frame {ino : Nat} (hf : Volume.Frame ino v v') (hne : ix.file.handle.ino ≠ ino) :
    image v' ix = image v ix :=
  image_of_disk (hf.data _ hne)

theorem Sound.of_frame (hs : Sound v ix) {ino : Nat} (hf : Volume.Frame ino v v')
    (hne : ix.file.handle.ino ≠ ino) : Sound v' ix :=
  hs.of_disk (hf.data _ hne) (hf.size ▸ hs.coherent.ino_lt)

theorem Ready.of_frame (hr : Ready v ix) {ino : Nat} (hf : Volume.Frame ino v v')
    (hne : ix.file.handle.ino ≠ ino) : Ready v' ix :=
  hr.of_disk (hf.data _ hne) (hf.size ▸ hr.sound.coherent.ino_lt)

/-- Soundness reads of an index its file's header, description, mode and dirty
mark, its directory and its cache; the path, the options and the sync mode play
no part. -/
theorem Sound.of_parts (hs : Sound v ix) (hh : ix'.file.header = ix.file.header)
    (hd : ix'.file.handle = ix.file.handle) (hw : ix'.file.writable = ix.file.writable)
    (hy : ix'.file.headerDirty = ix.file.headerDirty) (hdir : ix'.dir = ix.dir)
    (hc : ix'.cache = ix.cache) : Sound v ix' := by
  obtain ⟨⟨path, handle, header, dirty, writable, rf⟩, dir, cache, options, sync⟩ := ix
  obtain ⟨⟨path', handle', header', dirty', writable', rf'⟩, dir', cache', options', sync'⟩ := ix'
  dsimp only at hh hd hw hy hdir hc
  subst hh hd hw hy hdir hc
  have hco := hs.coherent
  exact ⟨hs.shaped, hs.layout, hs.blockSize, hs.elems, hs.capacity,
    ⟨hco.ino_lt, hco.ordered, hco.size_le, hco.distinct, hco.cached, hco.fits, hco.stored,
      hco.clean, hco.header, hco.dir⟩⟩

/-- The image of an index is read through its file's header and description,
its directory and its cache. -/
theorem image_of_parts (hh : ix'.file.header = ix.file.header)
    (hd : ix'.file.handle = ix.file.handle) (hdir : ix'.dir = ix.dir) (hc : ix'.cache = ix.cache) :
    image v ix' = image v ix := by
  have hb : bucketAt v ix' = bucketAt v ix := by
    funext o
    simp only [bucketAt, storedBucket, disk, hh, hd, hc]
  simp only [image, disk, hb, hh, hd, hdir]

theorem Ready.of_parts (hr : Ready v ix) (hh : ix'.file.header = ix.file.header)
    (hd : ix'.file.handle = ix.file.handle) (hw : ix'.file.writable = ix.file.writable)
    (hy : ix'.file.headerDirty = ix.file.headerDirty) (hdir : ix'.dir = ix.dir)
    (hc : ix'.cache = ix.cache) : Ready v ix' := by
  have hi : image v ix' = image v ix := image_of_parts hh hd hdir hc
  refine ⟨hr.sound.of_parts hh hd hw hy hdir hc, fun e he => ?_, fun e he => ?_, hh ▸ hr.frontier⟩
  · rw [hi] at he
    rw [disk, hd]
    exact hr.records e he
  · rw [hi] at he
    exact hr.offsets e he

/-! ## Walking the index copied from -/

theorem run_eq_of_runs {m : IndexM α} {a : α} (h : Runs m (v, ix) a (v', ix')) :
    run m v ix = (.ok a, v', ix') := by
  unfold run
  rw [h]
  rfl

theorem runs_of_run_eq {m : IndexM α} {a : α} (h : run m v ix = (.ok a, v', ix')) :
    Runs m (v, ix) a (v', ix') := by
  unfold run at h
  unfold Runs
  revert h
  rcases m.run.run (v, ix) with ⟨r, v0, ix0⟩
  intro h
  cases h
  rfl

/-- In a ready index, the first entry of a walk is the first position of the
traversal, with its key. -/
theorem Ready.firstEntry (hr : Ready v ix) :
    ∃ v' ix', Runs firstEntry (v, ix) ((image v ix).positions.head?.map (image v ix).keyed)
      (v', ix') ∧ Reads v ix v' ix' := by
  obtain ⟨v1, ix1, hwalk, hrd⟩ := hr.walkFrom (ix.dir.size + 1) 0
  unfold Index.firstEntry walk
  exact ⟨v1, ix1, runs_bind.2 ⟨ix, (v, ix), runs_current.2 ⟨rfl, rfl⟩, hwalk⟩, hrd⟩

/-- Resumed past a position of the traversal, a walk answers the position after
it, with its key. -/
theorem Ready.walkAfter (hr : Ready v ix) {A R : List Position} {p : Position}
    (hp : (image v ix).positions = A ++ p :: R) :
    ∃ v' ix', Runs (Index.entryAfter p) (v, ix) (R.head?.map (image v ix).keyed) (v', ix') ∧
      Reads v ix v' ix' := by
  obtain ⟨hh, ho, -, pre, rest, hw, hR⟩ := Image.positions_eq_append hr.sound.shaped hp
  have hw' : (bucketAt v ix (ix.dir.entryAt p.dirIndex)).walkOrder p.start = pre ++ p.slot :: rest := by
    rw [← show p.bucketOffset = ix.dir.entryAt p.dirIndex from ho]
    exact hw
  obtain ⟨v', ix', hwalk, hrd⟩ := hr.walkFrom_after ix.dir.size hh hw'
  refine ⟨v', ix', ?_, hrd⟩
  rw [hR]
  rw [← show p.bucketOffset = ix.dir.entryAt p.dirIndex from ho] at hwalk
  exact runs_bind.2 ⟨ix, (v, ix), runs_current.2 ⟨rfl, rfl⟩, hwalk⟩

/-! ## The copy's file -/

theorem cut_zero (rs : List ByteRun) : SparseBytes.cut 0 rs = [] := by
  cases rs <;> simp [SparseBytes.cut]

/-- A new database file is opened empty and to write, under the fresh header of
the block size asked for; nothing is read from it. -/
theorem openFile_newDb {c : Config} {st : StoreFile} {isNew : Bool} (hl : v.Linked)
    (h : StoreFile.openFile c .newDb v = (.ok (st, isNew), v')) :
    isNew = true ∧ st.header = Header.fresh c.blockSize ∧ st.writable = true ∧
      st.handle.ino < v'.inodes.size ∧ v'.data st.handle.ino = SparseBytes.empty := by
  unfold StoreFile.openFile at h
  rcases ho : v.openPath c.path (StoreFile.access c.permissions .newDb) with fault | ⟨o, v1⟩
  · rw [ho] at h
    cases h
  rw [ho] at h
  rcases o with f | _
  · obtain ⟨-, hino⟩ := hl.openPath ho
    dsimp only at h
    generalize hlk : (if c.options.nolock = true then some v1
      else v1.tryLock f (StoreFile.lockKind .newDb)) = locked at h
    rcases locked with _ | v2
    · cases h
    have hsz : v2.inodes.size = v1.inodes.size := by
      split at hlk
      · cases hlk
        rfl
      · exact (Volume.tryLock_keeps hlk).2.2.2
    dsimp only at h
    rw [if_pos rfl] at h
    have hino3 : f.ino < (v2.setLen f.ino 0).inodes.size := by
      rw [Volume.size_setLen, hsz]
      exact hino
    have hdata : (v2.setLen f.ino 0).data f.ino = SparseBytes.empty := by
      rw [Volume.data_setLen v2 (show f.ino < v2.inodes.size by rw [hsz]; exact hino)]
      simp only [SparseBytes.setLen, cut_zero]
      rfl
    have hlen : (v2.setLen f.ino 0).fileLen f.ino = 0 := by
      rw [Volume.fileLen, hdata]
      rfl
    cases hs : StoreFile.start c .newDb f (v2.setLen f.ino 0) with
    | error e =>
      rw [hs] at h
      cases h
    | ok r =>
      rw [hs] at h
      simp only [Prod.mk.injEq, Except.ok.injEq] at h
      obtain ⟨rfl, rfl⟩ := h
      unfold StoreFile.start at hs
      simp only [hlen, if_true] at hs
      cases hs
      exact ⟨rfl, rfl, rfl, hino3, hdata⟩
  · cases h

/-- A new database that opens was laid out on the emptied file, opened to write
under the fresh header of the block size asked for. -/
theorem openIn_newDb_bootstrap {c : Config} {fresh : Index} (hl : v.Linked)
    (h : openIn c .newDb v = (.ok fresh, v')) :
    ∃ st v1 ix, st.header = Header.fresh c.blockSize ∧ st.writable = true ∧
      st.handle.ino < v1.inodes.size ∧ v1.data st.handle.ino = SparseBytes.empty ∧
      Runs bootstrap
        (v1, ⟨st, Directory.uniform 0 0 0, BucketCache.empty c.cacheSize, c.options, false⟩) ()
        (v', ix) ∧
      fresh = { ix with syncMode := c.options.sync } := by
  unfold openIn at h
  rcases h0 : StoreFile.openFile c .newDb v with ⟨_ | ⟨st, isNew⟩, v1⟩
  · rw [h0] at h
    cases h
  rw [h0] at h
  obtain ⟨rfl, hhead, hw, hino, hdata⟩ := openFile_newDb hl h0
  dsimp only at h
  rw [if_pos rfl] at h
  rcases h1 : run bootstrap v1
    ⟨st, Directory.uniform 0 0 0, BucketCache.empty c.cacheSize, c.options, false⟩ with
    ⟨_ | u, v2, ix2⟩
  · rw [h1] at h
    cases h
  rw [h1] at h
  simp only [Prod.mk.injEq, Except.ok.injEq] at h
  obtain ⟨rfl, rfl⟩ := h
  exact ⟨st, v1, ix2, hhead, hw, hino, hdata, runs_of_run_eq h1, rfl⟩

/-- The index a new database starts from, on the file just opened and emptied
for it under the fresh header of a valid block size, is blank. -/
theorem blank_of_newDb {c : Config} {st : StoreFile} (hv : validBlockSize c.blockSize = true)
    (hhead : st.header = Header.fresh c.blockSize) (hw : st.writable = true)
    (hino : st.handle.ino < v.inodes.size) (hdata : v.data st.handle.ino = SparseBytes.empty) :
    Blank v ⟨st, Directory.uniform 0 0 0, BucketCache.empty c.cacheSize, c.options, false⟩ := by
  have hbs0 : st.header.blockSize = c.blockSize := by
    rw [hhead]
    rfl
  refine ⟨?_, hbs0 ▸ hv, hw, rfl, hino, ?_, ?_⟩
  · show st.header = Header.fresh st.header.blockSize
    rw [hbs0]
    exact hhead
  · show SparseBytes.Ordered (v.data st.handle.ino).runs
    rw [hdata]
    exact List.Pairwise.nil
  · show (v.data st.handle.ino).size ≤ _
    rw [hdata]
    exact Nat.zero_le _

/-- A new database opens as a ready index that stores nothing, of the block
size asked for. -/
theorem openIn_newDb {c : Config} {fresh : Index} (hv : validBlockSize c.blockSize = true)
    (hl : v.Linked) (h : openIn c .newDb v = (.ok fresh, v')) :
    Ready v' fresh ∧ (∀ k, (image v' fresh).lookup k = none) ∧
      fresh.file.header.blockSize = c.blockSize ∧ (image v' fresh).slots = [] ∧
      fresh.dir.bits = (c.blockSize / 8).log2 ∧
      fresh.file.header.nextBlock ≤ 2 * c.blockSize + Directory.byteSize (c.blockSize / 8).log2 ∧
      fresh.file.writable = true := by
  obtain ⟨st, v1, ix2, hhead, hw, hino, hdata, hrun, rfl⟩ := openIn_newDb_bootstrap hl h
  have hbs0 : st.header.blockSize = c.blockSize := by
    rw [hhead]
    rfl
  obtain ⟨hr2, hslots, hbits, hnext⟩ := Ready.bootstrap (blank_of_newDb hv hhead hw hino hdata) hrun
  rw [hbs0] at hbits hnext
  refine ⟨hr2.of_parts rfl rfl rfl rfl rfl rfl, fun k => Image.lookup_eq_none ?_, ?_, hslots, hbits,
    hnext, (confined_bootstrap.run_contained (run_eq_of_runs hrun)).1.writable.trans hw⟩
  · show k ∉ (image v' ix2).slots.map (image v' ix2).keyOf
    rw [hslots]
    exact List.not_mem_nil
  · exact (sameBlockSize_bootstrap _ _ _ hrun).trans hbs0

/-! ## The copy loop -/

section Copy

variable {I : Image} {A R : List Position} {p : Position}

/-- The value at a position of the traversal of `I`, read from an index that
agrees with `I`. -/
theorem Ready.valueAt_agree (hr : Ready v ix) (hag : I.Agree (image v ix)) (hI : I.Shaped)
    (hp : p ∈ I.positions) :
      ∃ v' ix', Runs (Index.valueAt p) (v, ix) (some (I.pairAt p).2) (v', ix') ∧
      Reads v ix v' ix' := by
  have hp' : p ∈ (image v ix).positions := by rw [hag.positions]; exact hp
  obtain ⟨v', ix', hrun, hrd⟩ := hr.valueAt hp'
  have hval : (image v ix).valueOf ((image v ix).slotAt p) = (I.pairAt p).2 :=
    congrArg Prod.snd (hag.pairAt hI hp)
  rw [hval] at hrun
  exact ⟨v', ix', hrun, hrd⟩

/-- Resumed past a position of the traversal of `I`, a walk of an index that
agrees with `I` answers the next position of `I`. -/
theorem Ready.walkAfter_agree (hr : Ready v ix) (hag : I.Agree (image v ix)) (hI : I.Shaped)
    (hp : I.positions = A ++ p :: R) :
    ∃ v' ix', Runs (Index.entryAfter p) (v, ix) (R.head?.map I.keyed) (v', ix') ∧
      Reads v ix v' ix' := by
  obtain ⟨v', ix', hrun, hrd⟩ := hr.walkAfter (hag.positions.trans hp)
  rw [hag.head?_keyed_of_mem hI fun q hq => hp ▸ List.mem_append_right _ (List.mem_cons_of_mem _ hq)]
    at hrun
  exact ⟨v', ix', hrun, hrd⟩

/-- Reading the index copied from leaves the copy as it was. -/
theorem Copying.read {self fresh self' : Index} (hc : Copying I A v self fresh)
    (hrd : Reads v self v' self') : Copying I A v' self' fresh := by
  have hfile : self'.file = self.file := hrd.keeps.file
  have hne := hc.apart
  rw [← hfile] at hne
  have hi : image v' fresh = image v fresh := image_of_frame hrd.keeps.frame (hfile ▸ hne)
  refine ⟨hrd.ready, hc.agree.trans hrd.agree, hc.sound.of_frame hrd.keeps.frame (hfile ▸ hne), hne, ?_⟩
  rw [hi]
  exact hc.copied

/-- Any action on the copy leaves the index copied from as it was. -/
theorem Copying.frame {self fresh : Index} (hc : Copying I A v self fresh)
    (hf : Volume.Frame fresh.file.handle.ino v v') :
    Ready v' self ∧ I.Agree (image v' self) := by
  have hi : image v' self = image v self := image_of_frame hf (Ne.symm hc.apart)
  refine ⟨hc.ready.of_frame hf (Ne.symm hc.apart), ?_⟩
  rw [hi]
  exact hc.agree

/-- A store of the pair at the next position into the copy copies one more
position. -/
theorem Copying.store (hI : I.Shaped) {self fresh fresh' : Index} (hc : Copying I A v self fresh)
    (hp : I.positions = A ++ p :: R)
    (hr : Runs (Index.store (I.pairAt p).1 (I.pairAt p).2) (v, fresh) () (v', fresh')) :
    Copying I (A ++ [p]) v' self fresh' ∧ fresh'.file.handle = fresh.file.handle ∧
      fresh'.file.writable = fresh.file.writable ∧
      fresh'.file.header.blockSize = fresh.file.header.blockSize := by
  obtain ⟨hs', hst, hlk⟩ := hc.sound.store hr
  have hf := hst.frame
  obtain ⟨hready, hagree⟩ := hc.frame hf
  exact ⟨⟨hready, hagree, hs', by rw [hst.handle]; exact hc.apart, Image.CopiedAt.store hI hp hc.copied hlk⟩,
    hst.handle, hst.writable, sameBlockSize_store _ _ _ () _ hr⟩

theorem copyRecords_none (fuel n : Nat) (v : Volume) (src fresh : Index) :
    copyRecords fuel none n v src fresh = (.ok n, v, src, fresh) := by
  cases fuel <;> rfl

/-- A round of the copy loop at the next position `p` of the traversal of `I`:
the value at `p` is read from the index copied from, and the pair stored into
the copy. A store that fails ends the loop with its error; one that runs is
followed by a step of the walk past `p`, and the loop goes on from there. -/
theorem Copying.round (hI : I.Shaped) {src fresh : Index} (hc : Copying I A v src fresh)
    (hp : I.positions = A ++ p :: R) (fuel n : Nat) :
    ∃ v1 src1, Reads v src v1 src1 ∧
      ((∃ e v2 fresh2, run (Index.store (I.pairAt p).1 (I.pairAt p).2) v1 fresh = (.error e, v2, fresh2) ∧
          copyRecords (fuel + 1) (some (I.keyed p)) n v src fresh = (.error e, v2, src1, fresh2)) ∨
        ∃ v2 fresh2 v3 src3,
          Runs (Index.store (I.pairAt p).1 (I.pairAt p).2) (v1, fresh) () (v2, fresh2) ∧
          Reads v2 src1 v3 src3 ∧
          copyRecords (fuel + 1) (some (I.keyed p)) n v src fresh =
            copyRecords fuel (R.head?.map I.keyed) (n + 1) v3 src3 fresh2) := by
  have hpm : p ∈ I.positions := hp ▸ List.mem_append_right _ List.mem_cons_self
  obtain ⟨v1, src1, hval, hrd1⟩ := hc.ready.valueAt_agree hc.agree hI hpm
  refine ⟨v1, src1, hrd1, ?_⟩
  rcases h2 : run (Index.store (I.keyOf (I.slotAt p)) (I.pairAt p).2) v1 fresh with
    ⟨_ | ⟨⟩, v2, fresh2⟩
  · refine .inl ⟨_, _, _, h2, ?_⟩
    simp only [Image.keyed, copyRecords]
    rw [run_eq_of_runs hval]
    dsimp only
    rw [h2]
  obtain ⟨hc2, -⟩ := (hc.read hrd1).store hI hp (runs_of_run_eq h2)
  obtain ⟨v3, src3, hnext, hrd3⟩ := hc2.ready.walkAfter_agree hc2.agree hI hp
  refine .inr ⟨v2, fresh2, v3, src3, runs_of_run_eq h2, hrd3, ?_⟩
  simp only [Image.keyed, copyRecords]
  rw [run_eq_of_runs hval]
  dsimp only
  rw [h2]
  dsimp only
  rw [run_eq_of_runs hnext]

/-- The copy loop from a walk standing before the positions `R` of the traversal
of `I`, with a round left for each: whatever its outcome the index copied from
is still ready and agrees with `I`, and a loop that answers has copied every
position and counted each. -/
theorem copyRecords_spec (hI : I.Shaped) (fuel : Nat) :
    ∀ {A R : List Position} {n : Nat} {v : Volume} {src fresh : Index} {r : Outcome Nat}
      {v' : Volume} {src' fresh' : Index},
      I.positions = A ++ R → R.length ≤ fuel → Copying I A v src fresh →
      copyRecords fuel (R.head?.map I.keyed) n v src fresh = (r, v', src', fresh') →
      (Ready v' src' ∧ I.Agree (image v' src') ∧ src'.file = src.file ∧
        src'.syncMode = src.syncMode) ∧
      ∀ m, r = .ok m → m = n + R.length ∧ Copying I I.positions v' src' fresh' ∧
        fresh'.file.handle = fresh.file.handle ∧ fresh'.file.writable = fresh.file.writable ∧
        fresh'.file.header.blockSize = fresh.file.header.blockSize := by
  have hdone : ∀ {A : List Position} {n : Nat} {v : Volume} {src fresh : Index}, I.positions = A →
      Copying I A v src fresh →
      (Ready v src ∧ I.Agree (image v src) ∧ src.file = src.file ∧ src.syncMode = src.syncMode) ∧
      ∀ m, (.ok n : Outcome Nat) = .ok m → m = n + 0 ∧ Copying I I.positions v src fresh ∧
        fresh.file.handle = fresh.file.handle ∧ fresh.file.writable = fresh.file.writable ∧
        fresh.file.header.blockSize = fresh.file.header.blockSize := by
    intro A n v src fresh hp hc
    subst hp
    exact ⟨⟨hc.ready, hc.agree, rfl, rfl⟩, fun m hm => ⟨by cases hm; rfl, hc, rfl, rfl, rfl⟩⟩
  induction fuel with
  | zero =>
    intro A R n v src fresh r v' src' fresh' hp hlen hc h
    obtain rfl : R = [] := List.length_eq_zero_iff.1 (Nat.le_zero.1 hlen)
    rw [List.head?_nil, Option.map_none, copyRecords_none] at h
    obtain ⟨rfl, rfl, rfl, rfl⟩ := h
    exact hdone (hp.trans (List.append_nil A)) hc
  | succ fuel ih =>
    intro A R n v src fresh r v' src' fresh' hp hlen hc h
    cases R with
    | nil =>
      rw [List.head?_nil, Option.map_none, copyRecords_none] at h
      obtain ⟨rfl, rfl, rfl, rfl⟩ := h
      exact hdone (hp.trans (List.append_nil A)) hc
    | cons p R =>
      obtain ⟨v1, src1, hrd1, hround⟩ := hc.round hI hp fuel n
      have hc1 := hc.read hrd1
      have hfile1 : src1.file = src.file := hrd1.keeps.file
      rw [List.head?_cons, Option.map_some] at h
      rcases hround with ⟨e, v2, fresh2, h2, hrec⟩ | ⟨v2, fresh2, v3, src3, hst, hrd3, hrec⟩
      · have hf := ((confined_store _ _).run_contained h2).1.frame
        rw [hrec] at h
        simp only [Prod.mk.injEq] at h
        obtain ⟨rfl, rfl, rfl, rfl⟩ := h
        obtain ⟨hready, hagree⟩ := hc1.frame hf
        exact ⟨⟨hready, hagree, hfile1, hrd1.keeps.syncMode⟩, fun m hm => by cases hm⟩
      rw [hrec] at h
      obtain ⟨hc2, hh2, hw2, hb2⟩ := hc1.store hI hp hst
      have hp' : I.positions = (A ++ [p]) ++ R := by rw [hp, List.append_assoc]; rfl
      obtain ⟨⟨hready, hagree, hfile, hsync⟩, hok⟩ :=
        ih hp' (Nat.le_of_succ_le_succ hlen) (hc2.read hrd3) h
      refine ⟨⟨hready, hagree, hfile.trans (hrd3.keeps.file.trans hfile1),
        hsync.trans (hrd3.keeps.syncMode.trans hrd1.keeps.syncMode)⟩, fun m hm => ?_⟩
      obtain ⟨hm', hcop, hh, hw, hb⟩ := hok m hm
      refine ⟨?_, hcop, hh.trans hh2, hw.trans hw2, hb.trans hb2⟩
      rw [hm', List.length_cons]
      omega

end Copy

/-! ## Making the copy -/

@[simp] theorem image_close (f : OpenFile) : image (v.close f) ix = image v ix :=
  image_of_disk (Volume.data_close _ _ _)

theorem Ready.close (hr : Ready v ix) (f : OpenFile) : Ready (v.close f) ix :=
  hr.of_disk (Volume.data_close _ _ _) (by rw [Volume.size_close]; exact hr.sound.coherent.ino_lt)

/-- A new file opened at a path apart from the file of a ready index starts a
copy of it: the index copied from reads as before, and the new file, open to
write and of the block size asked for, holds nothing yet. -/
theorem Ready.copyStart {c : Config} {src fresh : Index} (hr : Ready v src) (hl : v.Linked)
    (hsep : v.Apart c.path src.file.handle.ino) (hbs : c.blockSize = src.file.header.blockSize)
    (h0 : openIn c .newDb v = (.ok fresh, v1)) :
    Copying (image v src) [] v1 src fresh ∧ image v1 src = image v src ∧
      fresh.file.header.blockSize = c.blockSize ∧ fresh.file.writable = true := by
  obtain ⟨hd1, hsz1, hne⟩ := openIn_spares hr.sound.coherent.ino_lt hsep h0
  have hr1 := hr.of_disk hd1 hsz1
  have hi1 : image v1 src = image v src := image_of_disk hd1
  obtain ⟨hfr, hempty, hfbs, -, -, -, hw⟩ := openIn_newDb (hbs ▸ hr.sound.blockSize) hl h0
  refine ⟨⟨hr1, by rw [hi1]; exact Image.Agree.refl _, hfr.sound, hne fresh rfl,
    fun k => ⟨fun hk => by simp [Image.keysAt] at hk, fun _ => hempty k⟩⟩, hi1, hfbs, hw⟩

/-- Making the copy of a ready index at a path apart from its file. Whatever the
outcome, the index copied from is still ready, keeps its file and agrees with
what it was. A copy that answers is a sound index open to write, of the block
size asked for, which answers every lookup as the index copied from did and has
counted its records. -/
theorem Ready.copyInto {c : Config} {src src' : Index} {r : Outcome (Index × Nat)}
    (hr : Ready v src) (hl : v.Linked) (hsep : v.Apart c.path src.file.handle.ino)
    (hbs : c.blockSize = src.file.header.blockSize) (h : Index.copyInto c v src = (r, v', src')) :
    (Ready v' src' ∧ (image v src).Agree (image v' src') ∧ SameFile src src' ∧
        src'.syncMode = src.syncMode) ∧
      ∀ fresh n, r = .ok (fresh, n) → n = (image v src).keys.length ∧ Sound v' fresh ∧
        fresh.file.writable = true ∧ fresh.file.header.blockSize = c.blockSize ∧
        ∀ k, (image v' fresh).lookup k = (image v src).lookup k := by
  have hI := hr.sound.shaped
  unfold Index.copyInto at h
  rcases h0 : openIn c .newDb v with ⟨e | fresh, v1⟩
  · obtain ⟨hd, hlt, -⟩ := openIn_spares hr.sound.coherent.ino_lt hsep h0
    rw [h0] at h
    simp only [Prod.mk.injEq] at h
    obtain ⟨rfl, rfl, rfl⟩ := h
    refine ⟨⟨hr.of_disk hd hlt, ?_, .refl _, rfl⟩, fun _ _ hm => by cases hm⟩
    rw [image_of_disk hd]
    exact Image.Agree.refl _
  rw [h0] at h
  obtain ⟨hc1, hi1, hfbs, hw1⟩ := hr.copyStart hl hsep hbs h0
  obtain ⟨v2, src2, hfirst, hrd2⟩ := hc1.ready.firstEntry
  dsimp only at h
  rw [run_eq_of_runs hfirst, hi1] at h
  dsimp only at h
  have hc2 := hc1.read hrd2
  have hlen := Image.length_positions hI
  have hbound : (image v src).positions.length ≤
      src2.dir.size * src2.file.header.bucketElems + 2 := by
    have hle := Image.length_keys_le hI
    rw [show src2.dir = src.dir from hrd2.keeps.dir, show src2.file = src.file from hrd2.keeps.file]
    rw [hlen]
    exact Nat.le_trans hle (Nat.le_add_right _ _)
  rcases h2 : copyRecords (src2.dir.size * src2.file.header.bucketElems + 2)
    ((image v src).positions.head?.map (image v src).keyed) 0 v2 src2 fresh with
    ⟨r3, v3, src3, fresh3⟩
  obtain ⟨⟨hr3, hag3, -, hsy3⟩, hok⟩ :=
    copyRecords_spec hI _ (A := []) (R := (image v src).positions) rfl hbound hc2 h2
  have hf3' : SameFile src src3 :=
    SameFile.trans ⟨by rw [hrd2.keeps.file], by rw [hrd2.keeps.file], by rw [hrd2.keeps.file],
      hrd2.keeps.options⟩ (copyRecords_same _ _ _ _ _ _ h2).2.1
  have hsy3' := hsy3.trans hrd2.keeps.syncMode
  rcases r3 with _ | n
  · rw [h2] at h
    simp only [Prod.mk.injEq] at h
    obtain ⟨rfl, rfl, rfl⟩ := h
    refine ⟨⟨hr3.close _, ?_, hf3', hsy3'⟩, fun _ _ hm => by cases hm⟩
    rw [Index.release, image_close]
    exact hag3
  obtain ⟨hn3, hcop3, hh3, hw3, hb3⟩ := hok n rfl
  rw [h2] at h
  dsimp only at h
  have hm : Confined (do sync; truncateToFrontier) :=
    confined_sync.bind fun _ => confined_truncateToFrontier
  rcases h3 : run (do sync; truncateToFrontier) v3 fresh3 with ⟨_ | u, v4, fresh4⟩
  all_goals
    have hf4 := (hm.run_contained h3).1.frame
    obtain ⟨hr4, hag4⟩ := hcop3.frame hf4
  · rw [h3] at h
    simp only [Prod.mk.injEq] at h
    obtain ⟨rfl, rfl, rfl⟩ := h
    refine ⟨⟨hr4.close _, ?_, hf3', hsy3'⟩, fun _ _ hm => by cases hm⟩
    rw [Index.release, image_close]
    exact hag4
  rw [h3] at h
  simp only [Prod.mk.injEq] at h
  obtain ⟨rfl, rfl, rfl⟩ := h
  refine ⟨⟨hr4, hag4, hf3', hsy3'⟩, fun fresh' n' hm' => ?_⟩
  simp only [Except.ok.injEq, Prod.mk.injEq] at hm'
  obtain ⟨rfl, rfl⟩ := hm'
  obtain ⟨_, s1, hsync, htrunc⟩ := runs_bind.1 (runs_of_run_eq h3)
  obtain ⟨v35, fresh35⟩ := s1
  obtain ⟨hs35, hag35, -, -⟩ := hcop3.sound.sync hsync
  obtain ⟨hs4, hag45, -, -, -⟩ := hs35.truncateToFrontier htrunc
  refine ⟨by rw [hn3, Nat.zero_add, hlen], hs4, (hm.run_contained h3).1.writable.trans (hw3.trans hw1),
    ?_, fun k => ?_⟩
  · rw [sameBlockSize_truncateToFrontier _ _ _ htrunc, sameBlockSize_flush _ _ _ hsync, hb3, hfbs]
  · rw [hag45.lookup, hag35.lookup]
    exact hcop3.copied.all hI k

/-! ## A copy from a sound index -/

/-- The copy loop keeps the copy sound on its own file, whatever the index
copied from reads: that index's reads touch its own file only, and every
store into the copy keeps it sound. -/
theorem copyRecords_sound (fuel : Nat) :
    ∀ {next : Option (Position × Bytes)} {n m : Nat} {v v' : Volume} {src fresh src' fresh' : Index},
      Sound v fresh → fresh.file.handle.ino ≠ src.file.handle.ino →
      copyRecords fuel next n v src fresh = (.ok m, v', src', fresh') →
      Sound v' fresh' ∧ fresh'.file.handle = fresh.file.handle ∧
        fresh'.file.writable = fresh.file.writable := by
  induction fuel with
  | zero =>
    intro next n m v v' src fresh src' fresh' hs _ h
    rcases next with _ | ⟨p, key⟩ <;>
    · simp only [copyRecords, Prod.mk.injEq] at h
      obtain ⟨-, rfl, -, rfl⟩ := h
      exact ⟨hs, rfl, rfl⟩
  | succ fuel ih =>
    intro next n m v v' src fresh src' fresh' hs hne h
    rcases next with _ | ⟨p, key⟩
    · simp only [copyRecords, Prod.mk.injEq] at h
      obtain ⟨-, rfl, -, rfl⟩ := h
      exact ⟨hs, rfl, rfl⟩
    simp only [copyRecords] at h
    rcases h1 : run (valueAt p) v src with ⟨r1, v1, src1⟩
    have hc1 := ((confined_valueAt p).run_contained h1).1
    rw [h1] at h
    rcases r1 with e | _ | value
    · cases h
    · cases h
    dsimp only at h
    rcases h2 : run (store key value) v1 fresh with ⟨_ | _, v2, fresh2⟩
    · rw [h2] at h
      cases h
    rw [h2] at h
    dsimp only at h
    obtain ⟨hs2, hst2, -⟩ := (hs.of_frame hc1.frame hne).store (runs_of_run_eq h2)
    rcases h3 : run (entryAfter p) v2 src1 with ⟨_ | next, v3, src3⟩
    · rw [h3] at h
      cases h
    rw [h3] at h
    have hc3 := ((confined_entryAfter p).run_contained h3).1
    have hne2 : fresh2.file.handle.ino ≠ src1.file.handle.ino := by
      rw [hst2.handle, hc1.handle]
      exact hne
    have hne3 : fresh2.file.handle.ino ≠ src3.file.handle.ino := by
      rw [hc3.handle]
      exact hne2
    obtain ⟨hs', hh', hw'⟩ := ih (hs2.of_frame hc3.frame hne2) hne3 h
    exact ⟨hs', hh'.trans hst2.handle, hw'.trans hst2.writable⟩

/-- A copy that answers, made at a path apart from the file of a sound index on
a volume whose entries name files it has, is a sound index open to write. -/
theorem Sound.copyInto {c : Config} {src src' fresh : Index} {n : Nat} (hs : Sound v src)
    (hl : v.Linked) (hsep : v.Apart c.path src.file.handle.ino)
    (hbs : c.blockSize = src.file.header.blockSize)
    (h : Index.copyInto c v src = (.ok (fresh, n), v', src')) :
    Sound v' fresh ∧ fresh.file.writable = true := by
  unfold Index.copyInto at h
  split at h
  · cases h
  rename_i fresh0 v1 h0
  have hne0 := (openIn_spares hs.coherent.ino_lt hsep h0).2.2 fresh0 rfl
  obtain ⟨hfr, -, -, -, -, -, hw0⟩ := openIn_newDb (hbs ▸ hs.blockSize) hl h0
  split at h
  · cases h
  rename_i first v2 src2 h1
  have hc1 := (confined_firstEntry.run_contained h1).1
  dsimp only at h
  split at h
  · cases h
  rename_i v3 src3 fresh3 h2
  have hne2 : fresh0.file.handle.ino ≠ src2.file.handle.ino := by
    rw [hc1.handle]
    exact hne0
  obtain ⟨hs3, -, hw3⟩ := copyRecords_sound _ (hfr.sound.of_frame hc1.frame hne0) hne2 h2
  split at h
  · cases h
  rename_i v4 fresh4 h3
  simp only [Prod.mk.injEq, Except.ok.injEq] at h
  obtain ⟨⟨rfl, rfl⟩, rfl, -⟩ := h
  obtain ⟨_, ⟨v35, fresh35⟩, hsync, htrunc⟩ := runs_bind.1 (runs_of_run_eq h3)
  obtain ⟨hs35, -, hst35, -⟩ := hs3.sync hsync
  obtain ⟨hs4, -, hst4, -, -⟩ := hs35.truncateToFrontier htrunc
  exact ⟨hs4, hst4.writable.trans (hst35.writable.trans (hw3.trans hw0))⟩

end Index

end HashFile
