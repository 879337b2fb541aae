import HashFile.Proofs.Reorganizing

/-!
# A copy that needs no split leaves no free space

A new file starts with an empty free list. Only a release puts a region on it:
- a split gives back its bucket's old block;
- a directory doubling gives back the old directory;
- a record that changes size gives back its old place.

A reorganize stores each key of the file once into a new file, so no record
moves. While fewer records have been copied than a bucket has slots, no bucket
is full, so no store splits either. A reorganize of a file whose records fit in
one bucket therefore leaves a file with no free regions
(`Session.reorganize_leaves_no_free_space`).

A larger file can come out with free space, since a split's old block is not
always taken up again by the records stored after it.
-/
namespace HashFile

namespace Image

variable {I J : Image} {A R : List Position} {p : Position}

/-- No bucket of a shaped image is full while the image holds fewer keys than a
bucket has slots. -/
theorem isFull_eq_false (hI : I.Shaped) (hlt : I.keys.length < I.header.bucketElems) {o : Nat}
    (ho : o ∈ I.live) : (I.bucket o).isFull = false := by
  have hfits := hI.fits o ho
  have hsub : (I.bucket o).entries.Sublist I.slots := by
    rw [slots, List.flatMap_def]
    exact List.sublist_flatten_of_mem (List.mem_map_of_mem ho)
  have hcount : (I.bucket o).count ≤ I.keys.length := by
    rw [← hfits.occupied, ← Bucket.length_entries, keys, List.length_map]
    exact hsub.length_le
  simp only [Bucket.isFull, Bucket.size, hfits.size, decide_eq_false_iff_not, not_le]
  omega

/-- A copy of the records at the positions `A` holds at most one key for each. -/
theorem CopiedAt.length_keys_le (hc : CopiedAt I A J) (hJ : J.keys.Nodup) :
    J.keys.length ≤ A.length := by
  have hsub : J.keys ⊆ keysAt I A := fun k hk => by
    by_contra hn
    exact (mem_keys_iff hJ).1 hk ((hc k).2 hn)
  calc J.keys.length ≤ (keysAt I A).length := (hJ.subperm hsub).length_le
    _ = A.length := List.length_map _

/-- The key at the next position of the traversal is not yet in the copy. -/
theorem CopiedAt.lookup_next (hI : I.Shaped) (hp : I.positions = A ++ p :: R)
    (hc : CopiedAt I A J) : J.lookup (I.pairAt p).1 = none := by
  refine (hc _).2 fun hmem => ?_
  have hnd : (keysAt I (A ++ p :: R)).Nodup := by
    have hperm := traversal_keys_perm hI
    rw [traversal_keys, hp] at hperm
    exact hperm.nodup_iff.2 hI.keys_nodup
  rw [keysAt, List.map_append, List.map_cons] at hnd
  exact List.disjoint_of_nodup_append hnd hmem List.mem_cons_self

end Image

namespace Index

variable {α : Type} {v v' : Volume} {ix ix' : Index}

/-! ## Actions that never release space -/

/-- A state with an empty free list leads to one with an empty free list. -/
def KeepsCompact (s s' : Volume × Index) : Prop :=
  s.2.file.header.avail.regions = [] → s'.2.file.header.avail.regions = []

instance keepsCompact_refl : Std.Refl KeepsCompact := ⟨fun _ h => h⟩

instance keepsCompact_trans : IsTrans (Volume × Index) KeepsCompact :=
  ⟨fun _ _ _ h1 h2 h => h2 (h1 h)⟩

/-- An action that leaves the free list as it was keeps it empty. -/
theorem keepsCompact_of_avail {m : IndexM α}
    (h : ∀ s a s', Runs m s a s' → s'.2.file.header.avail = s.2.file.header.avail) :
    Leads KeepsCompact m :=
  fun s a s' hr hnil => by rw [h s a s' hr]; exact hnil

theorem keepsCompact_modifyIndex {f : Index → Index}
    (hf : ∀ ix, (f ix).file.header.avail = ix.file.header.avail) :
    Leads KeepsCompact (modifyIndex f) :=
  keepsCompact_of_avail fun _ _ _ h => by rw [runs_modifyIndex.1 h]; exact hf _

theorem keepsCompact_current : Leads KeepsCompact current :=
  Leads.of_eq fun _ _ _ h => (runs_current.1 h).2

theorem keepsCompact_blockSize : Leads KeepsCompact blockSize :=
  Leads.of_eq fun _ _ _ h => (runs_blockSize.1 h).2

theorem keepsCompact_dirEntry (i : Nat) : Leads KeepsCompact (dirEntry i) :=
  Leads.of_eq fun _ _ _ h => (runs_dirEntry.1 h).2

theorem keepsCompact_fileLen : Leads KeepsCompact fileLen :=
  Leads.of_eq fun _ _ _ h => (runs_fileLen.1 h).2

theorem keepsCompact_fatal (i : Inconsistency) : Leads KeepsCompact (fatal i : IndexM α) :=
  fun _ _ _ h => (runs_fatal.1 h).elim

theorem keepsCompact_writeAt (off : Nat) (bytes : ByteArray) :
    Leads KeepsCompact (writeAt off bytes) :=
  keepsCompact_of_avail fun _ _ _ h => by rw [(runs_writeAt.1 h).2.2]

theorem keepsCompact_writeBack (l : List (Nat × Bucket)) : Leads KeepsCompact (writeBack l) :=
  leads_forM fun _ s a s' h => keepsCompact_writeAt _ _ s a s' (runs_writeBucket.1 h)

theorem keepsCompact_cacheInsert (o : Nat) (b : Bucket) (d : Bool) :
    Leads KeepsCompact (cacheInsert o b d) := by
  intro s _ s' h
  have hw := keepsCompact_writeBack _ _ () s' (runs_cacheInsert.1 h)
  exact hw

theorem keepsCompact_loadBucket (o : Nat) : Leads KeepsCompact (loadBucket o) := by
  intro s b s' h
  rcases runs_loadBucket.1 h with ⟨-, rfl⟩ | ⟨-, -, hc⟩
  · exact refl_of KeepsCompact _
  · exact keepsCompact_cacheInsert o b false s () s' hc

theorem keepsCompact_updateBucket {β : Type} (o : Nat) (f : Bucket → β × Bucket) :
    Leads KeepsCompact (updateBucket o f) := by
  intro s a s' h
  obtain ⟨b, s1, hl, -, rfl⟩ := runs_updateBucket.1 h
  exact keepsCompact_loadBucket o s b s1 hl

theorem keepsCompact_locate (key : Bytes) : Leads KeepsCompact (locate key) :=
  keepsCompact_current.bind fun _ => (keepsCompact_dirEntry _).bind fun _ =>
    (keepsCompact_loadBucket _).bind fun _ =>
      (Leads.of_eq fun _ _ _ h => (runs_firstHolding h).1).bind fun _ => leads_pure _

/-- Allocating from an empty free list takes from the frontier and leaves the
list empty. -/
theorem keepsCompact_allocate (n : Nat) : Leads KeepsCompact (allocate n) := by
  intro s off s' h hnil
  obtain ⟨h', hal, rfl⟩ := runs_allocate.1 h
  show h'.avail.regions = []
  unfold Header.allocate at hal
  split at hal
  · cases hal
    exact hnil
  have htake : s.2.file.header.avail.take n = (.ok none, s.2.file.header.avail) := by
    unfold FreeList.take
    rw [hnil]
    rfl
  rw [htake] at hal
  dsimp only at hal
  split at hal
  · cases hal
  · cases hal
    exact hnil

theorem keepsCompact_writeHeader : Leads KeepsCompact writeHeader := by
  intro s a s' h
  rcases runs_writeHeader.1 h with ⟨-, rfl⟩ | ⟨-, -, block, -, -, rfl⟩
  · exact refl_of KeepsCompact _
  · exact id

theorem keepsCompact_flush : Leads KeepsCompact flush :=
  leads_flush keepsCompact_writeAt (fun _ => keepsCompact_modifyIndex fun _ => rfl)
    (keepsCompact_modifyIndex fun _ => rfl) keepsCompact_writeHeader

theorem keepsCompact_afterMutation : Leads KeepsCompact afterMutation :=
  keepsCompact_current.bind fun _ => leads_ite keepsCompact_flush (leads_pure _)

theorem keepsCompact_truncateToFrontier : Leads KeepsCompact truncateToFrontier := by
  unfold truncateToFrontier
  refine keepsCompact_current.bind fun _ => keepsCompact_fileLen.bind fun _ => ?_
  refine leads_ite ?_ (leads_pure _)
  exact keepsCompact_of_avail fun _ _ _ h => by rw [runs_modify.1 h]

/-- Laying out a new file allocates and releases nothing. -/
theorem keepsCompact_bootstrap : Leads KeepsCompact bootstrap := by
  unfold bootstrap
  refine keepsCompact_blockSize.bind fun _ => (keepsCompact_allocate _).bind fun _ => ?_
  refine (keepsCompact_allocate _).bind fun _ => ?_
  refine Leads.bind (keepsCompact_modifyIndex fun _ => ?_) fun _ => ?_
  · rfl
  · exact (keepsCompact_cacheInsert _ _ _).bind fun _ => keepsCompact_flush

theorem keepsCompact_placeRecord (key value : Bytes) (hash o : Nat) (slot : Option Nat)
    (d : Nat) : Leads KeepsCompact (placeRecord key value hash o slot d) := by
  unfold placeRecord
  refine (keepsCompact_writeAt _ _).bind fun _ => (keepsCompact_updateBucket _ _).bind fun _ => ?_
  exact leads_ite ((keepsCompact_fatal _).bind fun _ => keepsCompact_afterMutation)
    keepsCompact_afterMutation

/-! ## A store that needs no split -/

/-- Making room while the index holds fewer keys than a bucket has slots splits
nothing: the bucket the hash selects has a vacant slot at once. -/
theorem Sound.makeRoom_compact (hs : Sound v ix) {hash off : Nat} (hh : hash < 2 ^ hashBits)
    (hlt : (image v ix).keys.length < ix.file.header.bucketElems)
    (hr : Runs (Index.makeRoom hash) (v, ix) off (v', ix')) : KeepsCompact (v, ix) (v', ix') := by
  unfold Index.makeRoom Index.makeRoom.go at hr
  simp only [runs_bind, runs_current, runs_dirEntry, and_assoc, exists_and_left,
    exists_eq_left] at hr
  obtain ⟨off0, hget, b, ⟨v1, ix1⟩, hload, hr⟩ := hr
  obtain ⟨hget', hlive⟩ := hs.get?_dir (dirIndex_lt hh hs.shaped.bits_le)
  rw [Option.some.inj (hget'.symm.trans hget)] at hlive
  obtain ⟨rfl, -⟩ := hs.loadBucket hlive hload
  have hroom : (bucketAt v ix off0).isFull = false := Image.isFull_eq_false hs.shaped hlt hlive
  rw [if_pos (by simp [hroom])] at hr
  obtain ⟨-, hs'⟩ := runs_pure.1 hr
  obtain ⟨rfl, rfl⟩ := Prod.mk.inj hs'
  exact keepsCompact_loadBucket off0 _ _ _ hload

/-- A store of a new key into a sound index that holds fewer keys than a bucket
has slots releases nothing: the key gets a bucket with room without a split,
and its record a place from the frontier. -/
theorem Sound.store_compact (hs : Sound v ix) {key value : Bytes}
    (hnew : (image v ix).lookup key = none)
    (hlt : (image v ix).keys.length < ix.file.header.bucketElems)
    (hr : Runs (Index.store key value) (v, ix) () (v', ix')) : KeepsCompact (v, ix) (v', ix') := by
  obtain ⟨-, -, -, loc, ⟨v1, ix1⟩, o, slot, d, ⟨v2, ix2⟩, hloc, hch, hr⟩ := runs_store hr
  obtain ⟨hs1, hag1, -, hhash, -, -, -, -, hnone⟩ := hs.locate hloc
  unfold Index.chooseRecord at hch
  rw [hnone.2 hnew] at hch
  obtain ⟨o', ⟨v3, ix3⟩, hmk, hch⟩ := runs_bind.1 hch
  obtain ⟨d', ⟨v4, ix4⟩, hal, hpure⟩ := runs_bind.1 hch
  obtain ⟨-, hs4⟩ := runs_pure.1 hpure
  obtain ⟨rfl, rfl⟩ := Prod.mk.inj hs4
  have hlt1 : (image v1 ix1).keys.length < ix1.file.header.bucketElems := by
    rw [hag1.keys]
    exact hag1.bucketElems ▸ hlt
  have hmk' := hs1.makeRoom_compact (hhash ▸ Key.hash_lt key) hlt1 hmk
  exact trans_of KeepsCompact (keepsCompact_locate key _ _ _ hloc)
    (trans_of KeepsCompact hmk' (trans_of KeepsCompact (keepsCompact_allocate _ _ _ _ hal)
      (keepsCompact_placeRecord _ _ _ _ _ _ _ _ _ hr)))

/-! ## The copy -/

section Copy

variable {I : Image}

theorem copyRecords_zero (next : Option (Position × Bytes)) (n : Nat) (v : Volume)
    (src fresh : Index) : copyRecords 0 next n v src fresh = (.ok n, v, src, fresh) := by
  cases next <;> rfl

/-- The copy loop from a walk standing before the positions `R` of the traversal
of `I`, into a copy with an empty free list and a bucket slot for every key of
`I`: a loop that answers leaves the free list empty. Each round stores a key not
yet copied while the copy holds fewer keys than a bucket has slots. -/
theorem copyRecords_compact (hI : I.Shaped) (fuel : Nat) :
    ∀ {A R : List Position} {n m : Nat} {v v' : Volume} {src src' fresh fresh' : Index},
      I.positions = A ++ R → Copying I A v src fresh →
      I.keys.length ≤ fresh.file.header.bucketElems → fresh.file.header.avail.regions = [] →
      copyRecords fuel (R.head?.map I.keyed) n v src fresh = (.ok m, v', src', fresh') →
      fresh'.file.header.avail.regions = [] := by
  induction fuel with
  | zero =>
    intro A R n m v v' src src' fresh fresh' _ _ _ hnil h
    rw [copyRecords_zero] at h
    simp only [Prod.mk.injEq] at h
    obtain ⟨-, -, -, rfl⟩ := h
    exact hnil
  | succ fuel ih =>
    intro A R n m v v' src src' fresh fresh' hp hc hfit hnil h
    cases R with
    | nil =>
      rw [List.head?_nil, Option.map_none, copyRecords_none] at h
      simp only [Prod.mk.injEq] at h
      obtain ⟨-, -, -, rfl⟩ := h
      exact hnil
    | cons p R =>
      obtain ⟨v1, src1, hrd1, hround⟩ := hc.round hI hp fuel n
      have hc1 := hc.read hrd1
      rw [List.head?_cons, Option.map_some] at h
      rcases hround with ⟨e, v2, fresh2, -, hrec⟩ | ⟨v2, fresh2, v3, src3, hst, hrd3, hrec⟩
      · rw [hrec] at h
        cases h
      rw [hrec] at h
      obtain ⟨hc2, -, -, hb2⟩ := hc1.store hI hp hst
      have hlt : (image v1 fresh).keys.length < fresh.file.header.bucketElems :=
        calc (image v1 fresh).keys.length ≤ A.length :=
              hc1.copied.length_keys_le hc1.sound.shaped.keys_nodup
          _ < I.positions.length := by simp [hp]
          _ = I.keys.length := Image.length_positions hI
          _ ≤ fresh.file.header.bucketElems := hfit
      have hnil2 := hc1.sound.store_compact (hc1.copied.lookup_next hI hp) hlt hst hnil
      have hfit2 : I.keys.length ≤ fresh2.file.header.bucketElems := by
        rw [hc2.sound.elems, hb2, ← hc1.sound.elems]
        exact hfit
      exact ih (by rw [hp, List.append_assoc]; rfl) (hc2.read hrd3) hfit2 hnil2 h

end Copy

/-- A new file opens with an empty free list: the fresh header has one, and
laying the file out releases nothing. -/
theorem openIn_newDb_compact {c : Config} {fresh : Index} (hl : v.Linked)
    (h : openIn c .newDb v = (.ok fresh, v')) : fresh.file.header.avail.regions = [] := by
  obtain ⟨st, v1, ix2, hhead, -, -, -, hrun, rfl⟩ := openIn_newDb_bootstrap hl h
  have hnil0 : st.header.avail.regions = [] := by
    rw [hhead]
    rfl
  exact keepsCompact_bootstrap _ _ _ hrun hnil0

/-- A copy that answers, of a ready index whose keys fit in one bucket, has an
empty free list. -/
theorem Ready.copyInto_compact {c : Config} {src src' fresh : Index} {n : Nat}
    (hr : Ready v src) (hl : v.Linked) (hsep : v.Apart c.path src.file.handle.ino)
    (hbs : c.blockSize = src.file.header.blockSize)
    (hfit : (image v src).keys.length ≤ src.file.header.bucketElems)
    (h : Index.copyInto c v src = (.ok (fresh, n), v', src')) :
    fresh.file.header.avail.regions = [] := by
  unfold Index.copyInto at h
  split at h
  · cases h
  rename_i fresh0 v1 h0
  obtain ⟨hc1, hi1, hfbs, -⟩ := hr.copyStart hl hsep hbs h0
  have hfit0 : (image v src).keys.length ≤ fresh0.file.header.bucketElems := by
    rw [hc1.sound.elems, hfbs, hbs, ← hr.sound.elems]
    exact hfit
  obtain ⟨v2, src2, hfirst, hrd2⟩ := hc1.ready.firstEntry
  rw [run_eq_of_runs hfirst, hi1] at h
  dsimp only at h
  split at h
  · cases h
  rename_i v3 src3 fresh3 h3
  have hnil3 := copyRecords_compact hr.sound.shaped _ (A := []) rfl (hc1.read hrd2) hfit0
    (openIn_newDb_compact hl h0) h3
  split at h
  · cases h
  rename_i v4 fresh4 h4
  simp only [Prod.mk.injEq, Except.ok.injEq] at h
  obtain ⟨⟨rfl, rfl⟩, -, -⟩ := h
  exact (keepsCompact_flush.bind fun _ => keepsCompact_truncateToFrontier) _ _ _
    (runs_of_run_eq h4) hnil3

/-- A reorganize that answers, of a ready writer index whose keys fit in one
bucket and whose copy's path is apart from its file, goes on with an empty free
list. -/
theorem Ready.reorganizeIn_compact {st : ReorganizeStats} (hr : Ready v ix)
    (hw : ix.file.writable = true) (hl : v.Linked)
    (hsep : v.Apart (copyPath ix.file.path) ix.file.handle.ino)
    (hfit : (image v ix).keys.length ≤ ix.file.header.bucketElems)
    (h : Index.reorganizeIn v ix = (.ok st, v', ix')) : ix'.file.header.avail.regions = [] := by
  unfold Index.reorganizeIn at h
  rw [if_neg (by simp [hw])] at h
  obtain ⟨v1, ix1, hfl, hr1, hag1, -, hl1, hsep1⟩ := hr.flush_apart hl hsep
  have hfit1 : (image v1 ix1).keys.length ≤ ix1.file.header.bucketElems := by
    rw [hag1.keys]
    exact hag1.bucketElems ▸ hfit
  rw [run_eq_of_runs hfl] at h
  dsimp only at h
  split at h
  · cases h
  rename_i fresh n v2 ix2 h2
  have hnil := hr1.copyInto_compact hl1 hsep1 rfl hfit1 h2
  split at h
  · cases h
  simp only [Prod.mk.injEq] at h
  obtain ⟨-, -, rfl⟩ := h
  exact hnil

/-- With an empty free list, the statistics count no free region and no free
byte. -/
theorem stats_compact (h : ix.file.header.avail.regions = []) :
    ∃ info, ix.stats = .ok info ∧ info.freeRegions = 0 ∧ info.freeBytes = 0 := by
  have hb : ix.file.header.avail.freeBytes = .ok 0 := by
    unfold FreeList.freeBytes
    rw [h]
    rfl
  unfold Index.stats
  rw [hb]
  exact ⟨_, rfl, by simp only [FreeList.length, h, List.length_nil], rfl⟩

end Index

namespace Session

variable {v : Volume}

/-- A reorganize that answers, of a writer session whose index is ready, whose
copy's path is apart from its file and whose records fit in one bucket, leaves
a file whose statistics show no free region and no free byte. -/
theorem reorganize_leaves_no_free_space {s : Session} {ix : Index} (hix : s.index = some ix)
    (hr : Index.Ready v ix) (hw : ix.file.writable = true) (hl : v.Linked)
    (hsep : v.Apart (Index.copyPath ix.file.path) ix.file.handle.ino)
    (hfit : (Index.image v ix).keys.length ≤ ix.file.header.bucketElems) :
    ∀ st v' s', Session.reorganize.run.run (v, s) = (.ok st, v', s') →
      ∃ info, (Session.stats.run.run (v', s')).1 = .ok info ∧ info.freeRegions = 0 ∧
        info.freeBytes = 0 := by
  intro st v' s' h
  rw [run_reorganize_writer hix hw] at h
  rcases hr' : Index.reorganizeIn v ix with ⟨_ | st', v'', ix'⟩
  · rw [hr'] at h
    cases h
  rw [hr'] at h
  simp only at h
  obtain ⟨-, rfl, rfl⟩ := h
  obtain ⟨info, hst, hregions, hbytes⟩ :=
    Index.stats_compact (hr.reorganizeIn_compact hw hl hsep hfit hr')
  have hm : Runs (do Index.checked (← Index.current).stats) (v', ix') info (v', ix') :=
    runs_bind.2 ⟨ix', (v', ix'), Index.runs_current.2 ⟨rfl, rfl⟩,
      by rw [hst]; exact runs_pure.2 ⟨rfl, rfl⟩⟩
  refine ⟨info, ?_, hregions, hbytes⟩
  unfold Session.stats
  rw [run_withIndex rfl, Index.run_eq_of_runs hm]

/-- A writer session over twenty-one keys stored in the locked file, as many as
a bucket holds, leaves no free space when a reorganize answers. -/
theorem reorganize_leaves_no_free_space_crowdFirst :
    ∃ v ix, Runs ((Index.crowd.take 21).forM fun k => Index.store k ⟨#[118]⟩)
        (Index.lockedOut, Index.laidOut.2) () (v, ix) ∧
      (∀ k ∈ Index.crowd.take 21, (Index.image v ix).lookup k = some ⟨#[118]⟩) ∧
      (⟨some ix, .writer, "db", none, .unstarted⟩ : Session).index = some ix ∧ Index.Ready v ix ∧
      ix.file.writable = true ∧ v.Linked ∧
      v.Apart (Index.copyPath ix.file.path) ix.file.handle.ino ∧
      (Index.image v ix).keys.length ≤ ix.file.header.bucketElems ∧
      ∀ st v' s', Session.reorganize.run.run (v, ⟨some ix, .writer, "db", none, .unstarted⟩) =
          (.ok st, v', s') →
        ∃ info, (Session.stats.run.run (v', s')).1 = .ok info ∧ info.freeRegions = 0 ∧
          info.freeBytes = 0 := by
  obtain ⟨v, ix, hrun, hr, hw, hin, hfit, hl, hsep⟩ :=
    Index.crowdFirst_lockedOut (by decide : (⟨#[118]⟩ : Bytes).size ≤ 4096)
  exact ⟨v, ix, hrun, hin, rfl, hr, hw, hl, hsep, hfit,
    reorganize_leaves_no_free_space rfl hr hw hl hsep hfit⟩

end Session

end HashFile
