import HashFile.Proofs.Flush
import HashFile.Proofs.Store

/-!
# What reading and deleting leave of a file

Reading and deleting never give the file up, never shorten it and never move
the allocation frontier out: a successful run of either ends in a state that
`Retains` the one it started from. Loading a bucket may write back what the
cache evicts, and a delete in sync mode flushes, but writes only lengthen a
file, and giving a record back only moves the frontier in.

`Leads R m` says that every successful run of `m` ends in a state `R`-related
to its start. For a reflexive and transitive `R` it composes along binds,
branches and loops, so each action's proof follows its definition.
-/
namespace HashFile

section Generic

variable {σ ε α β : Type} {R : σ → σ → Prop}

/-- Every successful run of `m` ends in a state that `R` relates to its start. -/
def Leads (R : σ → σ → Prop) (m : ExceptT ε (StateM σ) α) : Prop :=
  ∀ s a s', Runs m s a s' → R s s'

theorem Leads.of_eq {m : ExceptT ε (StateM σ) α} [Std.Refl R]
    (h : ∀ s a s', Runs m s a s' → s' = s) : Leads R m := fun s a s' hr => by
  rw [h s a s' hr]
  exact refl_of R s

theorem leads_pure [Std.Refl R] (a : α) : Leads R (pure a : ExceptT ε (StateM σ) α) :=
  Leads.of_eq fun _ _ _ h => (runs_pure.1 h).2

theorem leads_throw (e : ε) : Leads R (throw e : ExceptT ε (StateM σ) α) :=
  fun _ _ _ h => (runs_throw.1 h).elim

theorem Leads.bind [IsTrans σ R] {x : ExceptT ε (StateM σ) α}
    {f : α → ExceptT ε (StateM σ) β} (hx : Leads R x) (hf : ∀ a, Leads R (f a)) :
    Leads R (x >>= f) := by
  intro s b s'' h
  obtain ⟨a, s', h1, h2⟩ := runs_bind.1 h
  exact trans_of R (hx s a s' h1) (hf a s' b s'' h2)

theorem Leads.map {x : ExceptT ε (StateM σ) α} (hx : Leads R x) (f : α → β) :
    Leads R (f <$> x) := by
  intro s b s' h
  obtain ⟨a, h1, -⟩ := runs_map.1 h
  exact hx s a s' h1

theorem leads_ite {c : Prop} [Decidable c] {x y : ExceptT ε (StateM σ) α} (hx : Leads R x)
    (hy : Leads R y) : Leads R (if c then x else y) := by
  split
  · exact hx
  · exact hy

theorem leads_forM [Std.Refl R] [IsTrans σ R] {l : List β}
    {f : β → ExceptT ε (StateM σ) PUnit} (hf : ∀ b, Leads R (f b)) : Leads R (l.forM f) := by
  induction l with
  | nil => exact leads_pure _
  | cons b l ih => exact (hf b).bind fun _ => ih

theorem leads_forIn [Std.Refl R] [IsTrans σ R] {l : List β} {init : α}
    {f : β → α → ExceptT ε (StateM σ) (ForInStep α)} (hf : ∀ b a, Leads R (f b a)) :
    Leads R (forIn l init f) := by
  induction l generalizing init with
  | nil => exact leads_pure _
  | cons b l ih =>
    rw [List.forIn_cons]
    refine (hf b init).bind fun step => ?_
    cases step with
    | done a => exact leads_pure _
    | yield a => exact ih

end Generic

namespace Volume

variable (v : Volume)

/-- A write never shortens a file. -/
theorem fileLen_le_writeAt (ino off : Nat) (bytes : ByteArray) :
    v.fileLen ino ≤ (v.writeAt ino off bytes).fileLen ino := by
  unfold fileLen
  by_cases h : ino < v.inodes.size
  · rw [data_writeAt v h]
    rcases SparseBytes.le_size_write (v.data ino) off bytes with h' | h'
    · exact h'.1
    · rw [SparseBytes.write_of_size_eq_zero _ _ h']
  · have hnone : v.inodes[ino]? = none := Array.getElem?_eq_none (Nat.le_of_not_lt h)
    unfold writeAt
    split
    · exact Nat.le_refl _
    · simp only [data, modifyData, Array.getD_eq_getD_getElem?, Array.getElem?_modify, hnone,
        Option.map_none, ite_self, Nat.le_refl]

/-- A write of some bytes to a file makes it reach at least past them. -/
theorem le_fileLen_writeAt {ino : Nat} (h : ino < v.inodes.size) (off : Nat) {bytes : ByteArray}
    (hb : 0 < bytes.size) : off + bytes.size ≤ (v.writeAt ino off bytes).fileLen ino := by
  unfold fileLen
  rw [data_writeAt v h]
  rcases SparseBytes.le_size_write (v.data ino) off bytes with h' | h'
  · exact h'.2
  · omega

end Volume

namespace Header

/-- Moving the frontier back over free regions moves it in. -/
theorem shrinkFrontier_nextBlock_le {h h' : Header} (hs : h.shrinkFrontier = (.ok (), h')) :
    h'.nextBlock ≤ h.nextBlock := by
  fun_induction shrinkFrontier h with
  | case1 h o hp => simp at hs
  | case2 h hp =>
    obtain ⟨-, rfl⟩ := Prod.mk.inj hs
    exact Nat.le_refl _
  | case3 h e rest hp _ ih =>
    obtain ⟨-, -, -, -, hend, -⟩ := FreeList.pickBy_eq_some hp
    have hstop := (Region.endsAt_eq hend).1 rfl
    have := ih hs
    simp only [Region.stop] at hstop this
    omega

/-- Giving space back never moves the frontier out. -/
theorem release_nextBlock_le {h h' : Header} {off size : Nat}
    (hr : h.release off size = (.ok (), h')) : h'.nextBlock ≤ h.nextBlock := by
  unfold release at hr
  split at hr
  · obtain ⟨-, rfl⟩ := Prod.mk.inj hr
    exact Nat.le_refl _
  · split at hr
    · simp at hr
    · next stop hstop =>
      split at hr
      · next hend =>
        have hst : stop = off + size := by
          unfold addWord at hstop; split at hstop <;> simp_all
        have := shrinkFrontier_nextBlock_le hr
        simp only at this
        omega
      · obtain ⟨-, rfl⟩ := Prod.mk.inj hr
        exact Nat.le_refl _

end Header

namespace Index

section Updates

variable {R : Volume × Index → Volume × Index → Prop} [Std.Refl R] {α : Type}

theorem leads_current : Leads R current := Leads.of_eq fun _ _ _ h => (runs_current.1 h).2

theorem leads_header : Leads R header := Leads.of_eq fun _ _ _ h => (runs_header.1 h).2

theorem leads_blockSize : Leads R blockSize := Leads.of_eq fun _ _ _ h => (runs_blockSize.1 h).2

theorem leads_dirEntry (i : Nat) : Leads R (dirEntry i) :=
  Leads.of_eq fun _ _ _ h => (runs_dirEntry.1 h).2

theorem leads_readValue (e : Slot) : Leads R (readValue e) :=
  Leads.of_eq fun _ _ _ h => (runs_readAt.1 (runs_readValue.1 h).2).2.2

theorem leads_readBucket (o : Nat) : Leads R (readBucket o) :=
  Leads.of_eq fun _ _ _ h => (runs_readBucket.1 h).1

theorem leads_checkWritable : Leads R checkWritable :=
  Leads.of_eq fun _ _ _ h => (runs_checkWritable.1 h).2

variable [IsTrans (Volume × Index) R]

/-- A flush only reads the index, writes blocks, marks what it wrote clean and
writes the header: a relation each of these keeps, a flush keeps. -/
theorem leads_flush (hw : ∀ off bytes, Leads R (writeAt off bytes))
    (hmark : ∀ o, Leads R (modifyIndex fun ix => { ix with cache := ix.cache.markClean o }))
    (hdir : Leads R (modifyIndex fun ix => { ix with dir := { ix.dir with dirty := false } }))
    (hh : Leads R writeHeader) : Leads R flush := by
  unfold flush
  refine leads_current.bind fun ix => leads_ite (leads_pure _) ?_
  refine leads_blockSize.bind fun bs => leads_current.bind fun ix' => ?_
  refine Leads.bind (leads_forIn fun p _ => ?_) fun _ => ?_
  · exact (hw _ _).bind fun _ => (hmark _).bind fun _ => leads_pure _
  · exact leads_current.bind fun ix'' => leads_ite ((hw _ _).bind fun _ => hdir.bind fun _ => hh) hh

/-- What a relation between states must let pass for every action that leaves
the directory's shape alone to keep it: writes to the file, changes of the
cache, allocation, release and writing of the header, and a flush marking the
directory clean. Everything else such an action does only reads. -/
structure KeptByWrites (R : Volume × Index → Volume × Index → Prop) : Prop where
  writeAt : ∀ off bytes, Leads R (writeAt off bytes)
  cache : ∀ g : Index → BucketCache, Leads R (modifyIndex fun ix => { ix with cache := g ix })
  allocate : ∀ n, Leads R (allocate n)
  free : ∀ off n, Leads R (free off n)
  writeHeader : Leads R writeHeader
  dirClean : Leads R (modifyIndex fun ix => { ix with dir := { ix.dir with dirty := false } })

/-- What a relation between states must let pass for every store and delete to
keep it: besides the writes, a split setting two runs of the directory and a
doubling of the directory. -/
structure KeptByUpdates (R : Volume × Index → Volume × Index → Prop) : Prop extends KeptByWrites R where
  setRuns : ∀ start mid stop lo hi, Leads R (modifyIndex fun ix =>
    { ix with dir := (ix.dir.setRange start mid lo).setRange mid stop hi })
  double : Leads R doubleDirectory

namespace KeptByWrites

theorem flush (hR : KeptByWrites R) : Leads R Index.flush := leads_flush hR.writeAt (fun _ => hR.cache _) hR.dirClean hR.writeHeader

theorem afterMutation (hR : KeptByWrites R) : Leads R Index.afterMutation :=
  leads_current.bind fun _ => leads_ite hR.flush (leads_pure _)

theorem writeBack (hR : KeptByWrites R) (l : List (Nat × Bucket)) : Leads R (Index.writeBack l) := by
  unfold Index.writeBack Index.writeBucket
  refine leads_forM fun p => ?_
  obtain ⟨o, b⟩ := p
  exact leads_blockSize.bind fun _ => hR.writeAt _ _

theorem cacheInsert (hR : KeptByWrites R) (o : Nat) (b : Bucket) (d : Bool) : Leads R (Index.cacheInsert o b d) :=
  fun s a s' h => trans_of R
    (hR.cache (fun ix => (ix.cache.insert o b d).2) s () _ (runs_modifyIndex.2 rfl))
    (hR.writeBack _ _ a s' (runs_cacheInsert.1 h))

theorem loadBucket (hR : KeptByWrites R) (o : Nat) : Leads R (Index.loadBucket o) := by
  intro s b s' h
  rcases runs_loadBucket.1 h with ⟨-, rfl⟩ | ⟨-, -, hc⟩
  · exact refl_of R _
  · exact hR.cacheInsert o b false s () s' hc

theorem updateBucket (hR : KeptByWrites R) (o : Nat) (f : Bucket → α × Bucket) : Leads R (Index.updateBucket o f) := by
  intro s a s' h
  obtain ⟨b, s1, hl, -, rfl⟩ := runs_updateBucket.1 h
  exact trans_of R (hR.loadBucket o s b s1 hl)
    (hR.cache (fun ix => ix.cache.update o fun _ => (f b).2) s1 () _ (runs_modifyIndex.2 rfl))

theorem elementAt (hR : KeptByWrites R) (o i : Nat) : Leads R (Index.elementAt o i) := by
  intro s e s' h
  obtain ⟨b, hl, -⟩ := runs_elementAt.1 h
  exact hR.loadBucket o s b s' hl

theorem locate (hR : KeptByWrites R) (key : Bytes) : Leads R (Index.locate key) :=
  leads_current.bind fun _ => (leads_dirEntry _).bind fun _ => (hR.loadBucket _).bind fun _ =>
    (Leads.of_eq fun _ _ _ h => (runs_firstHolding h).1).bind fun _ => leads_pure _

theorem fetch (hR : KeptByWrites R) (key : Bytes) : Leads R (Index.fetch key) := by
  unfold Index.fetch
  refine (hR.locate key).bind fun loc => ?_
  split
  · exact leads_pure _
  · exact (hR.elementAt _ _).bind fun e => (leads_readValue e).map _

theorem placeRecord (hR : KeptByWrites R) (key value : Bytes) (hash o : Nat) (slot : Option Nat) (d : Nat) :
    Leads R (Index.placeRecord key value hash o slot d) := by
  unfold Index.placeRecord
  refine (hR.writeAt _ _).bind fun _ => (hR.updateBucket _ _).bind fun _ => ?_
  exact leads_ite ((leads_throw _).bind fun _ => hR.afterMutation) hR.afterMutation

theorem delete (hR : KeptByWrites R) (key : Bytes) : Leads R (Index.delete key) := by
  unfold Index.delete
  refine leads_checkWritable.bind fun _ => (hR.locate key).bind fun loc => ?_
  split
  · exact leads_pure _
  · exact (hR.updateBucket _ _).bind fun _ => (hR.free _ _).bind fun _ =>
      hR.afterMutation.bind fun _ => leads_pure _

end KeptByWrites

namespace KeptByUpdates

/-- A split, its join points taken out first. -/
theorem split (hR : KeptByUpdates R) (hash off bits : Nat) : Leads R (Index.split hash off bits) := by
  unfold Index.split
  refine leads_current.bind fun ix => ?_
  extract_lets newBits halve rest grow
  have hhalve : ∀ old, Leads R (halve old) := fun old =>
    leads_header.bind fun h => leads_blockSize.bind fun bs =>
      (hR.allocate _).bind fun lo => (hR.allocate _).bind fun hi =>
        leads_current.bind fun d => (hR.setRuns _ _ _ _ _).bind fun _ =>
          (hR.free _ _).bind fun _ => (hR.cacheInsert _ _ _).bind fun _ => hR.cacheInsert _ _ _
  have hrest : ∀ u, Leads R (rest u) := by
    intro u
    refine leads_current.bind fun ix' => ?_
    split
    refine (hR.cache _).bind fun _ => ?_
    split
    · exact (leads_pure _).bind hhalve
    · exact (leads_readBucket _).bind hhalve
  have hgrow : ∀ u, Leads R (grow u) := fun _ => hR.double.bind hrest
  exact leads_ite (leads_current.bind fun _ => leads_ite ((leads_throw _).bind hgrow) (hgrow ()))
    (hrest ())

theorem makeRoom (hR : KeptByUpdates R) (hash : Nat) : Leads R (Index.makeRoom hash) := by
  unfold Index.makeRoom
  generalize hashBits + 2 = fuel
  induction fuel with
  | zero => exact leads_throw _
  | succ fuel ih =>
    exact leads_current.bind fun _ => (leads_dirEntry _).bind fun _ => (hR.loadBucket _).bind fun _ =>
      leads_ite (leads_pure _) ((hR.split _ _ _).bind fun _ => ih)

theorem chooseRecord (hR : KeptByUpdates R) (loc : Located) (n : Nat) : Leads R (Index.chooseRecord loc n) := by
  unfold Index.chooseRecord
  split
  · exact (hR.elementAt _ _).bind fun _ => leads_ite (leads_pure _)
      ((hR.allocate _).bind fun _ => (hR.free _ _).bind fun _ => leads_pure _)
  · exact (hR.makeRoom _).bind fun _ => (hR.allocate _).bind fun _ => leads_pure _

theorem store (hR : KeptByUpdates R) (key value : Bytes) : Leads R (Index.store key value) := by
  unfold Index.store
  refine leads_checkWritable.bind fun _ => ?_
  extract_lets place checkValue
  have hplace : ∀ u, Leads R (place u) := fun _ =>
    (hR.locate key).bind fun _ => (hR.chooseRecord _ _).bind fun _ => hR.placeRecord _ _ _ _ _ _
  have hcheck : ∀ u, Leads R (checkValue u) := fun _ =>
    leads_ite ((leads_throw _).bind hplace) (hplace ())
  exact leads_ite ((leads_throw _).bind hcheck) (hcheck ())

end KeptByUpdates

end Updates

/-- One state retains another: the same file, no shorter, and nothing
allocated past the other's frontier. -/
def Retains (s s' : Volume × Index) : Prop :=
  s'.2.file.handle = s.2.file.handle ∧ (s.2.disk s.1).size ≤ (s'.2.disk s'.1).size ∧
    s'.2.file.header.nextBlock ≤ s.2.file.header.nextBlock

instance : Std.Refl Retains := ⟨fun _ => ⟨rfl, Nat.le_refl _, Nat.le_refl _⟩⟩

instance : IsTrans (Volume × Index) Retains :=
  ⟨fun _ _ _ h1 h2 =>
    ⟨h2.1.trans h1.1, Nat.le_trans h1.2.1 h2.2.1, Nat.le_trans h2.2.2 h1.2.2⟩⟩

theorem retains_modifyIndex {f : Index → Index}
    (hf : ∀ ix, (f ix).file.handle = ix.file.handle ∧
      (f ix).file.header.nextBlock ≤ ix.file.header.nextBlock) :
    Leads Retains (modifyIndex f) := by
  rintro ⟨v, ix⟩ a s' h
  rw [runs_modifyIndex] at h
  subst h
  refine ⟨(hf ix).1, ?_, (hf ix).2⟩
  simp only [disk, (hf ix).1, Nat.le_refl]

theorem retains_current : Leads Retains current := Leads.of_eq fun _ _ _ h => (runs_current.1 h).2

theorem retains_readAt (off len : Nat) : Leads Retains (readAt off len) :=
  Leads.of_eq fun _ _ _ h => (runs_readAt.1 h).2.2

theorem retains_writeAt (off : Nat) (bytes : ByteArray) : Leads Retains (writeAt off bytes) := by
  rintro ⟨v, ix⟩ a s' h
  obtain ⟨-, -, rfl⟩ := runs_writeAt.1 h
  exact ⟨rfl, Volume.fileLen_le_writeAt _ _ _ _, Nat.le_refl _⟩

theorem retains_dirEntry (i : Nat) : Leads Retains (dirEntry i) :=
  Leads.of_eq fun _ _ _ h => (runs_dirEntry.1 h).2

theorem retains_writeBack (l : List (Nat × Bucket)) : Leads Retains (writeBack l) :=
  leads_forM fun _ s a s' h => retains_writeAt _ _ s a s' (runs_writeBucket.1 h)

theorem retains_cacheInsert (o : Nat) (b : Bucket) (d : Bool) :
    Leads Retains (cacheInsert o b d) := by
  intro s a s' h
  have h1 : Retains s (s.1, { s.2 with cache := (s.2.cache.insert o b d).2 }) :=
    ⟨rfl, Nat.le_refl _, Nat.le_refl _⟩
  exact trans_of Retains h1 (retains_writeBack _ _ a s' (runs_cacheInsert.1 h))

theorem retains_loadBucket (o : Nat) : Leads Retains (loadBucket o) := by
  intro s b s' h
  rcases runs_loadBucket.1 h with ⟨-, rfl⟩ | ⟨-, -, hc⟩
  · exact refl_of Retains _
  · exact retains_cacheInsert o b false s () s' hc

theorem retains_updateBucket {α : Type} (o : Nat) (f : Bucket → α × Bucket) :
    Leads Retains (updateBucket o f) := by
  intro s a s' h
  obtain ⟨b, s1, hl, -, rfl⟩ := runs_updateBucket.1 h
  exact trans_of Retains (retains_loadBucket o s b s1 hl) ⟨rfl, Nat.le_refl _, Nat.le_refl _⟩

theorem retains_elementAt (o i : Nat) : Leads Retains (elementAt o i) := by
  intro s e s' h
  obtain ⟨b, hl, -⟩ := runs_elementAt.1 h
  exact retains_loadBucket o s b s' hl

theorem retains_firstHolding (key : Bytes) (l : List (Nat × Slot)) :
    Leads Retains (firstHolding key l) :=
  Leads.of_eq fun _ _ _ h => (runs_firstHolding h).1

theorem retains_locate (key : Bytes) : Leads Retains (locate key) :=
  retains_current.bind fun _ => (retains_dirEntry _).bind fun _ =>
    (retains_loadBucket _).bind fun _ => (retains_firstHolding _ _).bind fun _ => leads_pure _

theorem retains_checkWritable : Leads Retains checkWritable :=
  Leads.of_eq fun _ _ _ h => (runs_checkWritable.1 h).2

theorem retains_free (off n : Nat) : Leads Retains (free off n) := by
  intro s a s' h
  obtain ⟨h', hrel, rfl⟩ := runs_free.1 h
  exact ⟨rfl, Nat.le_refl _, Header.release_nextBlock_le hrel⟩

theorem retains_writeHeader : Leads Retains writeHeader := by
  intro s a s' h
  rcases runs_writeHeader.1 h with ⟨-, rfl⟩ | ⟨-, -, block, -, -, rfl⟩
  · exact refl_of Retains _
  · exact ⟨rfl, Volume.fileLen_le_writeAt _ _ _ _, Nat.le_refl _⟩

theorem retains_flush : Leads Retains flush :=
  leads_flush retains_writeAt (fun _ => retains_modifyIndex fun _ => ⟨rfl, Nat.le_refl _⟩)
    (retains_modifyIndex fun _ => ⟨rfl, Nat.le_refl _⟩) retains_writeHeader

theorem retains_afterMutation : Leads Retains afterMutation :=
  retains_current.bind fun _ => leads_ite retains_flush (leads_pure _)

/-- A delete retains its file. -/
theorem retains_delete (key : Bytes) : Leads Retains (delete key) := by
  unfold delete
  refine retains_checkWritable.bind fun _ => (retains_locate key).bind fun loc => ?_
  split
  · exact leads_pure _
  · exact (retains_updateBucket _ _).bind fun _ => (retains_free _ _).bind fun _ =>
      retains_afterMutation.bind fun _ => leads_pure _

/-! ## Growing the file -/

/-- One state grows another: the same file, no shorter. Unlike `Retains`, the
frontier may move out. -/
def Grows (s s' : Volume × Index) : Prop :=
  s'.2.file.handle = s.2.file.handle ∧ (s.2.disk s.1).size ≤ (s'.2.disk s'.1).size

instance instReflGrows : Std.Refl Grows := ⟨fun _ => ⟨rfl, Nat.le_refl _⟩⟩

instance instTransGrows : IsTrans (Volume × Index) Grows :=
  ⟨fun _ _ _ h1 h2 => ⟨h2.1.trans h1.1, Nat.le_trans h1.2 h2.2⟩⟩

theorem Retains.grows {s s' : Volume × Index} (h : Retains s s') : Grows s s' := ⟨h.1, h.2.1⟩

theorem grows_modifyIndex {f : Index → Index} (hf : ∀ ix, (f ix).file.handle = ix.file.handle) :
    Leads Grows (modifyIndex f) := by
  rintro ⟨v, ix⟩ a s' h
  rw [runs_modifyIndex] at h
  subst h
  refine ⟨hf ix, ?_⟩
  simp only [disk, hf ix, Nat.le_refl]

theorem grows_allocate (n : Nat) : Leads Grows (allocate n) := by
  intro s a s' h
  obtain ⟨h', -, rfl⟩ := runs_allocate.1 h
  exact refl_of Grows s

/-- Every store and delete grows its file: only writes touch the file. -/
theorem keptByUpdates_grows : KeptByUpdates Grows where
  writeAt off bytes s a s' h := (retains_writeAt off bytes s a s' h).grows
  cache _ := grows_modifyIndex fun _ => rfl
  allocate := grows_allocate
  free off n s a s' h := (retains_free off n s a s' h).grows
  writeHeader s a s' h := (retains_writeHeader s a s' h).grows
  setRuns _ _ _ _ _ := grows_modifyIndex fun _ => rfl
  double := by
    unfold doubleDirectory
    refine leads_current.bind fun _ => ?_
    dsimp only
    refine (grows_modifyIndex fun _ => ?_).bind fun _ => (grows_allocate _).bind fun _ =>
      Leads.bind (fun s a s' h => (retains_free _ _ s a s' h).grows) fun _ =>
        grows_modifyIndex fun _ => ?_
    all_goals rfl
  dirClean := grows_modifyIndex fun _ => rfl

end Index

end HashFile
