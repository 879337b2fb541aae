import HashFile.Proofs.Retains

/-!
# The block size stays

A file's block size is fixed when its header is first made: allocating and
giving space back rewrite the frontier and the free list, doubling the
directory rewrites where it lies, and nothing else touches the header. So every
successful run of a store, a flush or the layout of a new file ends with the
block size it started with (`Leads SameBlockSize`), each action's proof
following its definition as the proofs of `Confined` and `Retains` do.
-/
namespace HashFile

namespace Header

@[simp] theorem blockSize_allocate (h : Header) (n : Nat) : (h.allocate n).2.blockSize = h.blockSize := by
  unfold allocate
  split
  · rfl
  · split
    · rfl
    · rfl
    · split <;> rfl

@[simp] theorem blockSize_shrinkFrontier (h : Header) : h.shrinkFrontier.2.blockSize = h.blockSize := by
  fun_induction shrinkFrontier h with
  | case1 => rfl
  | case2 => rfl
  | case3 h e rest hp _ ih => exact ih

@[simp] theorem blockSize_release (h : Header) (off n : Nat) :
    (h.release off n).2.blockSize = h.blockSize := by
  unfold release
  split
  · rfl
  · split
    · rfl
    · split
      · exact blockSize_shrinkFrontier _
      · rfl

end Header

namespace Index

variable {α : Type}

/-- One state has the block size of another. -/
def SameBlockSize (s s' : Volume × Index) : Prop :=
  s'.2.file.header.blockSize = s.2.file.header.blockSize

instance : Std.Refl SameBlockSize := ⟨fun _ => rfl⟩

instance : IsTrans (Volume × Index) SameBlockSize := ⟨fun _ _ _ h1 h2 => h2.trans h1⟩

/-- An action that leaves the index as it was keeps the block size. -/
theorem sameBlockSize_of_index {m : IndexM α} (h : ∀ s a s', Runs m s a s' → s'.2 = s.2) :
    Leads SameBlockSize m :=
  fun s a s' hr => congrArg (fun ix : Index => ix.file.header.blockSize) (h s a s' hr)

theorem sameBlockSize_modifyIndex {f : Index → Index}
    (hf : ∀ ix, (f ix).file.header.blockSize = ix.file.header.blockSize) :
    Leads SameBlockSize (modifyIndex f) := by
  rintro ⟨v, ix⟩ a s' h
  rw [runs_modifyIndex] at h
  subst h
  exact hf ix

theorem sameBlockSize_current : Leads SameBlockSize current :=
  Leads.of_eq fun _ _ _ h => (runs_current.1 h).2

theorem sameBlockSize_header : Leads SameBlockSize header :=
  Leads.of_eq fun _ _ _ h => (runs_header.1 h).2

theorem sameBlockSize_blockSize : Leads SameBlockSize blockSize :=
  Leads.of_eq fun _ _ _ h => (runs_blockSize.1 h).2

theorem sameBlockSize_readAt (off len : Nat) : Leads SameBlockSize (readAt off len) :=
  Leads.of_eq fun _ _ _ h => (runs_readAt.1 h).2.2

theorem sameBlockSize_writeAt (off : Nat) (bytes : ByteArray) :
    Leads SameBlockSize (writeAt off bytes) :=
  sameBlockSize_of_index fun _ _ _ h => by rw [(runs_writeAt.1 h).2.2]

theorem sameBlockSize_fileLen : Leads SameBlockSize fileLen :=
  Leads.of_eq fun _ _ _ h => (runs_fileLen.1 h).2

theorem sameBlockSize_dirEntry (i : Nat) : Leads SameBlockSize (dirEntry i) :=
  Leads.of_eq fun _ _ _ h => (runs_dirEntry.1 h).2

theorem sameBlockSize_readBucket (o : Nat) : Leads SameBlockSize (readBucket o) :=
  Leads.of_eq fun _ _ _ h => (runs_readBucket.1 h).1

theorem sameBlockSize_writeBack (l : List (Nat × Bucket)) : Leads SameBlockSize (writeBack l) :=
  sameBlockSize_of_index fun _ _ _ h => by rw [(runs_writeBack.1 h).2.2]

theorem sameBlockSize_cacheInsert (o : Nat) (b : Bucket) (d : Bool) :
    Leads SameBlockSize (cacheInsert o b d) :=
  fun s a s' h => sameBlockSize_writeBack _ (s.1, { s.2 with cache := (s.2.cache.insert o b d).2 }) a s'
    (runs_cacheInsert.1 h)

theorem sameBlockSize_loadBucket (o : Nat) : Leads SameBlockSize (loadBucket o) := by
  intro s b s' h
  rcases runs_loadBucket.1 h with ⟨-, rfl⟩ | ⟨-, -, hc⟩
  · exact refl_of SameBlockSize _
  · exact sameBlockSize_cacheInsert o b false s () s' hc

theorem sameBlockSize_updateBucket (o : Nat) (f : Bucket → α × Bucket) :
    Leads SameBlockSize (updateBucket o f) := by
  intro s a s' h
  obtain ⟨b, s1, hl, -, rfl⟩ := runs_updateBucket.1 h
  exact sameBlockSize_loadBucket o s b s1 hl

theorem sameBlockSize_elementAt (o i : Nat) : Leads SameBlockSize (elementAt o i) := by
  intro s e s' h
  obtain ⟨b, hl, -⟩ := runs_elementAt.1 h
  exact sameBlockSize_loadBucket o s b s' hl

theorem sameBlockSize_locate (key : Bytes) : Leads SameBlockSize (locate key) :=
  sameBlockSize_current.bind fun _ => (sameBlockSize_dirEntry _).bind fun _ =>
    (sameBlockSize_loadBucket _).bind fun _ =>
      (Leads.of_eq fun _ _ _ h => (runs_firstHolding h).1).bind fun _ => leads_pure _

theorem sameBlockSize_checkWritable : Leads SameBlockSize checkWritable :=
  Leads.of_eq fun _ _ _ h => (runs_checkWritable.1 h).2

theorem sameBlockSize_allocate (n : Nat) : Leads SameBlockSize (allocate n) := by
  intro s a s' h
  obtain ⟨h', hah, rfl⟩ := runs_allocate.1 h
  show h'.blockSize = _
  rw [← Header.blockSize_allocate s.2.file.header n, hah]

theorem sameBlockSize_free (off n : Nat) : Leads SameBlockSize (free off n) := by
  intro s a s' h
  obtain ⟨h', hrel, rfl⟩ := runs_free.1 h
  show h'.blockSize = _
  rw [← Header.blockSize_release s.2.file.header off n, hrel]

theorem sameBlockSize_writeHeader : Leads SameBlockSize writeHeader := by
  intro s a s' h
  rcases runs_writeHeader.1 h with ⟨-, rfl⟩ | ⟨-, -, block, -, -, rfl⟩ <;> rfl

theorem sameBlockSize_flush : Leads SameBlockSize flush :=
  leads_flush sameBlockSize_writeAt (fun _ => sameBlockSize_modifyIndex fun _ => rfl)
    (sameBlockSize_modifyIndex fun _ => rfl) sameBlockSize_writeHeader

theorem sameBlockSize_afterMutation : Leads SameBlockSize afterMutation :=
  sameBlockSize_current.bind fun _ => leads_ite sameBlockSize_flush (leads_pure _)

theorem sameBlockSize_truncateToFrontier : Leads SameBlockSize truncateToFrontier := by
  unfold truncateToFrontier
  refine sameBlockSize_current.bind fun _ => sameBlockSize_fileLen.bind fun _ => ?_
  refine leads_ite ?_ (leads_pure _)
  exact sameBlockSize_of_index fun _ _ _ h => by rw [runs_modify.1 h]

theorem sameBlockSize_doubleDirectory : Leads SameBlockSize doubleDirectory :=
  sameBlockSize_current.bind fun _ => Leads.bind (sameBlockSize_modifyIndex fun _ => rfl) fun _ =>
    (sameBlockSize_allocate _).bind fun _ => (sameBlockSize_free _ _).bind fun _ =>
      sameBlockSize_modifyIndex fun _ => rfl

/-- A split, its join points taken out first as in `confined_split`. -/
theorem sameBlockSize_split (hash off bits : Nat) : Leads SameBlockSize (split hash off bits) := by
  unfold split
  refine sameBlockSize_current.bind fun ix => ?_
  extract_lets newBits halve rest grow
  have hhalve : ∀ old, Leads SameBlockSize (halve old) := fun old =>
    sameBlockSize_header.bind fun h => sameBlockSize_blockSize.bind fun bs =>
      (sameBlockSize_allocate _).bind fun lo => (sameBlockSize_allocate _).bind fun hi =>
        sameBlockSize_current.bind fun d => Leads.bind (sameBlockSize_modifyIndex fun _ => rfl) fun _ =>
          (sameBlockSize_free _ _).bind fun _ => (sameBlockSize_cacheInsert _ _ _).bind fun _ =>
            sameBlockSize_cacheInsert _ _ _
  have hrest : ∀ u, Leads SameBlockSize (rest u) := by
    intro u
    refine sameBlockSize_current.bind fun ix' => ?_
    split
    refine Leads.bind (sameBlockSize_modifyIndex fun _ => rfl) fun _ => ?_
    split
    · exact (leads_pure _).bind hhalve
    · exact (sameBlockSize_readBucket _).bind hhalve
  have hgrow : ∀ u, Leads SameBlockSize (grow u) := fun _ => sameBlockSize_doubleDirectory.bind hrest
  exact leads_ite (sameBlockSize_current.bind fun _ =>
    leads_ite ((leads_throw _).bind hgrow) (hgrow ())) (hrest ())

theorem sameBlockSize_makeRoom (hash : Nat) : Leads SameBlockSize (makeRoom hash) := by
  unfold makeRoom
  generalize hashBits + 2 = fuel
  induction fuel with
  | zero => exact leads_throw _
  | succ fuel ih =>
    exact sameBlockSize_current.bind fun _ => (sameBlockSize_dirEntry _).bind fun _ =>
      (sameBlockSize_loadBucket _).bind fun _ =>
        leads_ite (leads_pure _) ((sameBlockSize_split _ _ _).bind fun _ => ih)

theorem sameBlockSize_store (key value : Bytes) : Leads SameBlockSize (store key value) := by
  unfold store
  refine sameBlockSize_checkWritable.bind fun _ => ?_
  extract_lets place checkValue
  have hchoose : ∀ loc n, Leads SameBlockSize (chooseRecord loc n) := by
    intro loc n
    unfold chooseRecord
    split
    · exact (sameBlockSize_elementAt _ _).bind fun _ => leads_ite (leads_pure _)
        ((sameBlockSize_allocate _).bind fun _ => (sameBlockSize_free _ _).bind fun _ => leads_pure _)
    · exact (sameBlockSize_makeRoom _).bind fun _ => (sameBlockSize_allocate _).bind fun _ =>
        leads_pure _
  have hplace : ∀ u, Leads SameBlockSize (place u) := by
    intro u
    refine (sameBlockSize_locate key).bind fun _ => (hchoose _ _).bind fun _ => ?_
    unfold placeRecord
    refine (sameBlockSize_writeAt _ _).bind fun _ => (sameBlockSize_updateBucket _ _).bind fun _ => ?_
    exact leads_ite ((leads_throw _).bind fun _ => sameBlockSize_afterMutation)
      sameBlockSize_afterMutation
  have hcheck : ∀ u, Leads SameBlockSize (checkValue u) := fun _ =>
    leads_ite ((leads_throw _).bind hplace) (hplace ())
  exact leads_ite ((leads_throw _).bind hcheck) (hcheck ())

theorem sameBlockSize_bootstrap : Leads SameBlockSize bootstrap := by
  unfold bootstrap
  exact sameBlockSize_blockSize.bind fun _ => (sameBlockSize_allocate _).bind fun _ =>
    (sameBlockSize_allocate _).bind fun _ => Leads.bind (sameBlockSize_modifyIndex fun _ => rfl) fun _ =>
      (sameBlockSize_cacheInsert _ _ _).bind fun _ => sameBlockSize_flush

end Index

end HashFile
