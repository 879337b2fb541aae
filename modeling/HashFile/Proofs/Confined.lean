import HashFile.Proofs.Coherence
import HashFile.Index.Open
import HashFile.Index.Traverse

/-!
# What an index action may touch

An index action works on its own file: whatever it does, and whether it
succeeds or fails part-way, the volume is left as it was but for the bytes of
that file, and the file stays open by the same path, description, mode and
options. On a file open to read nothing of the volume changes at all, since
every write needs a writer. This is `Confined`: it holds of every run, and
composes along binds and loops, so each action's proof follows its definition
step by step.

Nothing an index action does can therefore take or give back a lock, make or
remove a file, or reach another file's bytes.
-/
namespace HashFile

namespace Index

/-- One state follows another within what an index action may change: the
bytes of the index's own file, and nothing of the volume when the file is open
to read; the file stays open by the same path, in the same description and
mode, under the options it was opened with. -/
def Contained (s s' : Volume × Index) : Prop :=
  Stays s.1 s.2 s'.1 s'.2 ∧ (s'.2.file.path = s.2.file.path ∧ s'.2.options = s.2.options) ∧
    (s.2.file.writable = false → s'.1 = s.1)

namespace Contained

theorem refl (s : Volume × Index) : Contained s s := ⟨Stays.refl _ _, ⟨rfl, rfl⟩, fun _ => rfl⟩

theorem trans {s1 s2 s3 : Volume × Index} (h1 : Contained s1 s2) (h2 : Contained s2 s3) :
    Contained s1 s3 :=
  ⟨h1.1.trans h2.1, ⟨h2.2.1.1.trans h1.2.1.1, h2.2.1.2.trans h1.2.1.2⟩,
    fun hw => (h2.2.2 (h1.1.writable.trans hw)).trans (h1.2.2 hw)⟩

/-- Containment between pairs, read off their parts. The parts stay as they are,
so that no check needs to take a pair apart to compare it with a state. -/
theorem of_pairs {w v : Volume} {jx ix : Index} (h : Contained (w, jx) (v, ix)) :
    Stays w jx v ix ∧ (ix.file.path = jx.file.path ∧ ix.options = jx.options) ∧
      (jx.file.writable = false → v = w) := h

end Contained

/-- The run of the action from `s`, successful or not, stays contained. -/
def ConfinedAt {α : Type} (m : IndexM α) (s : Volume × Index) : Prop := Contained s (m.run.run s).2

/-- Every run of the action, successful or not, stays contained. -/
def Confined {α : Type} (m : IndexM α) : Prop := ∀ s, ConfinedAt m s

variable {α β : Type}

/-! ## Composition -/

theorem confined_pure (a : α) : Confined (pure a : IndexM α) := fun s => Contained.refl s

theorem confined_throw (e : StoreError) : Confined (throw e : IndexM α) := fun s => Contained.refl s

/-- A bind stays contained when its first action does, and so does the rest
from every state where the first action succeeds. -/
theorem ConfinedAt.bind {x : IndexM α} {f : α → IndexM β} {s : Volume × Index}
    (hx : ConfinedAt x s) (hf : ∀ a s', Runs x s a s' → ConfinedAt (f a) s') :
    ConfinedAt (x >>= f) s := by
  unfold ConfinedAt Runs at *
  rw [ExceptT.run_bind, StateT.run_bind]
  revert hx hf
  rcases x.run.run s with ⟨_ | a, s1⟩
  · exact fun hx _ => hx
  · exact fun hx hf => hx.trans (hf a s1 rfl)

theorem Confined.bind {x : IndexM α} {f : α → IndexM β} (hx : Confined x)
    (hf : ∀ a, Confined (f a)) : Confined (x >>= f) :=
  fun s => (hx s).bind fun a s' _ => hf a s'

theorem Confined.map {x : IndexM α} (hx : Confined x) (f : α → β) : Confined (f <$> x) := by
  intro s
  have h1 := hx s
  unfold ConfinedAt at *
  rw [ExceptT.run_map, StateT.run_map]
  exact h1

theorem confined_ite {c : Prop} [Decidable c] {x y : IndexM α} (hx : Confined x)
    (hy : Confined y) : Confined (if c then x else y) := by
  split
  · exact hx
  · exact hy

theorem confined_forM {l : List β} {f : β → IndexM PUnit} (hf : ∀ b, Confined (f b)) :
    Confined (l.forM f) := by
  induction l with
  | nil => exact confined_pure _
  | cons b l ih => exact (hf b).bind fun _ => ih

theorem confined_forIn {l : List β} {init : α} {f : β → α → IndexM (ForInStep α)}
    (hf : ∀ b a, Confined (f b a)) : Confined (forIn l init f) := by
  induction l generalizing init with
  | nil => exact confined_pure _
  | cons b l ih =>
    rw [List.forIn_cons]
    refine (hf b init).bind fun step => ?_
    cases step with
    | done a => exact confined_pure _
    | yield a => exact ih

/-! ## Reading and changing the index -/

theorem confined_get : Confined (get : IndexM (Volume × Index)) := fun s => Contained.refl s

theorem confined_current : Confined current := confined_get.bind fun _ => confined_pure _

theorem confined_modifyIndex {f : Index → Index}
    (hf : ∀ ix, (f ix).file.handle = ix.file.handle ∧ (f ix).file.writable = ix.file.writable ∧
      (f ix).file.path = ix.file.path ∧ (f ix).options = ix.options) :
    Confined (modifyIndex f) :=
  fun s => ⟨⟨Volume.Frame.refl _ _, (hf s.2).1, (hf s.2).2.1⟩, (hf s.2).2.2, fun _ => rfl⟩

theorem confined_modifyFile {f : StoreFile → StoreFile}
    (hf : ∀ st, (f st).handle = st.handle ∧ (f st).writable = st.writable ∧ (f st).path = st.path) :
    Confined (modifyFile f) :=
  confined_modifyIndex fun ix => ⟨(hf ix.file).1, (hf ix.file).2.1, (hf ix.file).2.2, rfl⟩

theorem confined_header : Confined header := confined_current.bind fun _ => confined_pure _

theorem confined_blockSize : Confined blockSize := confined_header.bind fun _ => confined_pure _

theorem confined_fatal (i : Inconsistency) : Confined (fatal i : IndexM α) := confined_throw _

theorem confined_checked (r : Except Overflow α) : Confined (checked r) := by
  cases r with
  | error o => exact confined_throw _
  | ok a => exact confined_pure _

/-! ## The file -/

theorem confined_readAt (off len : Nat) : Confined (readAt off len) := by
  unfold readAt
  dsimp only
  split
  · refine (confined_throw _).bind fun _ => confined_get.bind fun s => ?_
    split
    · exact confined_pure _
    · exact confined_fatal _
  · refine confined_get.bind fun s => ?_
    split
    · exact confined_pure _
    · exact confined_fatal _

theorem frame_writeAll (v : Volume) (ino off : Nat) (bytes : ByteArray) :
    Volume.Frame ino v (v.writeAll ino off bytes).2 := by
  unfold Volume.writeAll
  split
  · exact Volume.Frame.refl _ _
  · dsimp only
    split
    · exact Volume.frame_writeAt _ _ _ _
    · exact Volume.frame_writeAt _ _ _ _

theorem confinedAt_set {s t : Volume × Index} (h : Contained s t) :
    ConfinedAt (set t : IndexM PUnit) s := h

/-- A write reaches only the bytes of the index's file, and needs a writer. -/
theorem confined_writeAt (off : Nat) (bytes : ByteArray) : Confined (writeAt off bytes) := by
  intro s
  unfold writeAt
  refine (confined_current s).bind fun ix0 s1 h1 => ?_
  obtain ⟨hix0, hs1⟩ := runs_current.1 h1
  subst ix0 s1
  dsimp only
  split
  · exact (confined_throw _ s).bind fun _ _ h => absurd h runs_throw.1
  · rename_i hw
    refine (confined_get s).bind fun s2 s3 h2 => ?_
    obtain ⟨hs2, hs3⟩ := runs_get.1 h2
    subst s2 s3
    obtain ⟨v, ix⟩ := s
    dsimp only at hw ⊢
    rcases hr : v.writeAll ix.file.handle.ino off bytes with ⟨r, v'⟩
    have hc : Contained (v, ix) (v', ix) := by
      refine ⟨⟨?_, rfl, rfl⟩, ⟨rfl, rfl⟩, fun h => absurd h (by simpa using hw)⟩
      have := frame_writeAll v ix.file.handle.ino off bytes
      rwa [hr] at this
    refine (confinedAt_set hc).bind fun _ s4 h4 => ?_
    obtain rfl := runs_set.1 h4
    split
    · exact confined_throw _ _
    · exact confined_pure _ _

theorem confined_fileLen : Confined fileLen := confined_get.bind fun _ => confined_pure _

theorem confined_checkWritable : Confined checkWritable :=
  confined_current.bind fun _ => confined_ite (confined_throw _) (confined_pure _)

theorem confined_allocate (n : Nat) : Confined (allocate n) := by
  unfold allocate
  refine confined_header.bind fun h => ?_
  split
  exact Confined.bind (confined_modifyFile fun _ => ⟨rfl, rfl, rfl⟩) fun _ => confined_checked _

theorem confined_free (off n : Nat) : Confined (free off n) := by
  unfold free
  refine confined_header.bind fun h => ?_
  split
  exact Confined.bind (confined_modifyFile fun _ => ⟨rfl, rfl, rfl⟩) fun _ => confined_checked _

theorem confined_writeHeader : Confined writeHeader := by
  unfold writeHeader
  refine confined_current.bind fun ix => ?_
  dsimp only
  split
  · exact confined_pure _
  · split
    · exact confined_throw _
    · exact (confined_writeAt _ _).bind fun _ => confined_modifyFile fun _ => ⟨rfl, rfl, rfl⟩

/-- Cutting the file back changes only its own bytes, and only on a writer. -/
theorem confined_truncateToFrontier : Confined truncateToFrontier := by
  intro s
  unfold truncateToFrontier
  refine (confined_current s).bind fun ix0 s1 h1 => ?_
  obtain ⟨hix0, hs1⟩ := runs_current.1 h1
  subst ix0 s1
  refine (confined_fileLen s).bind fun n s2 h2 => ?_
  obtain ⟨hn, hs2⟩ := runs_fileLen.1 h2
  subst n s2
  split
  · rename_i hc
    obtain ⟨v, ix⟩ := s
    have hw : ix.file.writable = true := (Bool.and_eq_true _ _ ▸ hc).1
    exact ⟨⟨Volume.frame_setLen _ _ _, rfl, rfl⟩, ⟨rfl, rfl⟩,
      fun h => absurd (h.symm.trans hw) Bool.false_ne_true⟩
  · exact confined_pure _ _

/-! ## Buckets -/

theorem confined_readBucket (off : Nat) : Confined (readBucket off) := by
  unfold readBucket
  refine confined_header.bind fun h => (confined_readAt _ _).bind fun bytes => ?_
  split
  · exact confined_fatal _
  · exact confined_current.bind fun _ => confined_ite (confined_fatal _) (confined_pure _)

theorem confined_writeBucket (off : Nat) (b : Bucket) : Confined (writeBucket off b) :=
  confined_blockSize.bind fun _ => confined_writeAt _ _

theorem confined_writeBack (evicted : List (Nat × Bucket)) : Confined (writeBack evicted) :=
  confined_forM fun _ => confined_writeBucket _ _

theorem confined_cacheInsert (off : Nat) (b : Bucket) (dirty : Bool) :
    Confined (cacheInsert off b dirty) := by
  unfold cacheInsert
  refine confined_current.bind fun ix => ?_
  split
  exact Confined.bind (confined_modifyIndex fun _ => ⟨rfl, rfl, rfl, rfl⟩) fun _ => confined_writeBack _

theorem confined_loadBucket (off : Nat) : Confined (loadBucket off) := by
  unfold loadBucket
  refine confined_current.bind fun ix => ?_
  split
  · exact confined_pure _
  · exact (confined_readBucket _).bind fun _ =>
      (confined_cacheInsert _ _ _).bind fun _ => confined_pure _

theorem confined_updateBucket {f : Bucket → α × Bucket} (off : Nat) :
    Confined (updateBucket off f) := by
  unfold updateBucket
  refine (confined_loadBucket off).bind fun b => ?_
  split
  exact Confined.bind (confined_modifyIndex fun _ => ⟨rfl, rfl, rfl, rfl⟩) fun _ => confined_pure _

theorem confined_dirEntry (i : Nat) : Confined (dirEntry i) := by
  unfold dirEntry
  refine confined_current.bind fun ix => ?_
  split
  · exact confined_pure _
  · exact confined_fatal _

theorem confined_elementAt (off slot : Nat) : Confined (elementAt off slot) :=
  (confined_loadBucket off).bind fun _ => confined_pure _

theorem confined_readValue (e : Slot) : Confined (readValue e) :=
  (confined_checked _).bind fun _ => confined_readAt _ _

theorem confined_readKey (e : Slot) : Confined (readKey e) := confined_readAt _ _

/-! ## Writing back -/

theorem confined_flush : Confined flush := by
  unfold flush
  refine confined_current.bind fun ix => ?_
  dsimp only
  split
  · exact confined_pure _
  · refine confined_blockSize.bind fun bs => confined_current.bind fun ix' => ?_
    refine Confined.bind (confined_forIn fun p _ => ?_) fun _ => ?_
    · exact (confined_writeAt _ _).bind fun _ =>
        Confined.bind (confined_modifyIndex fun _ => ⟨rfl, rfl, rfl, rfl⟩) fun _ => confined_pure _
    · refine confined_current.bind fun ix'' => ?_
      split
      · exact (confined_writeAt _ _).bind fun _ =>
          Confined.bind (confined_modifyIndex fun _ => ⟨rfl, rfl, rfl, rfl⟩) fun _ => confined_writeHeader
      · exact confined_writeHeader

theorem confined_sync : Confined sync := confined_flush

theorem confined_finish : Confined finish := by
  unfold finish
  refine confined_current.bind fun ix => ?_
  exact confined_ite (confined_sync.bind fun _ => confined_truncateToFrontier) (confined_pure _)

/-! ## Finding, storing and deleting keys -/

theorem confined_firstHolding (key : Bytes) (l : List (Nat × Slot)) :
    Confined (firstHolding key l) := by
  induction l with
  | nil => exact confined_pure _
  | cons p l ih =>
    obtain ⟨s, e⟩ := p
    exact (confined_readKey e).bind fun _ => confined_ite (confined_pure _) ih

theorem confined_locate (key : Bytes) : Confined (locate key) :=
  confined_current.bind fun _ => (confined_dirEntry _).bind fun _ =>
    (confined_loadBucket _).bind fun _ => (confined_firstHolding _ _).bind fun _ => confined_pure _

theorem confined_afterMutation : Confined afterMutation :=
  confined_current.bind fun _ => confined_ite confined_sync (confined_pure _)

theorem confined_doubleDirectory : Confined doubleDirectory :=
  confined_current.bind fun _ =>
    Confined.bind (confined_modifyIndex fun _ => ⟨rfl, rfl, rfl, rfl⟩) fun _ =>
      (confined_allocate _).bind fun _ => (confined_free _ _).bind fun _ =>
        confined_modifyIndex fun _ => ⟨rfl, rfl, rfl, rfl⟩

/-- A split, its join points taken out first: the halving of the old bucket,
the part after the depth check, and the doubling before it. -/
theorem confined_split (hash off bits : Nat) : Confined (split hash off bits) := by
  unfold split
  refine confined_current.bind fun ix => ?_
  extract_lets newBits halve rest grow
  have hhalve : ∀ old, Confined (halve old) := by
    intro old
    refine confined_header.bind fun h => ?_
    dsimp only
    exact confined_blockSize.bind fun bs => (confined_allocate _).bind fun lo =>
      (confined_allocate _).bind fun hi => confined_current.bind fun d =>
        Confined.bind (confined_modifyIndex fun _ => ⟨rfl, rfl, rfl, rfl⟩) fun _ =>
          (confined_free _ _).bind fun _ => (confined_cacheInsert _ _ _).bind fun _ =>
            confined_cacheInsert _ _ _
  have hrest : ∀ u, Confined (rest u) := by
    intro u
    refine confined_current.bind fun ix' => ?_
    split
    refine Confined.bind (confined_modifyIndex fun _ => ⟨rfl, rfl, rfl, rfl⟩) fun _ => ?_
    split
    · exact (confined_pure _).bind hhalve
    · exact (confined_readBucket _).bind hhalve
  have hgrow : ∀ u, Confined (grow u) := fun _ => confined_doubleDirectory.bind hrest
  exact confined_ite (confined_current.bind fun _ =>
    confined_ite ((confined_fatal _).bind hgrow) (hgrow ())) (hrest ())

theorem confined_makeRoom (hash : Nat) : Confined (makeRoom hash) := by
  unfold makeRoom
  generalize hashBits + 2 = fuel
  induction fuel with
  | zero => exact confined_fatal _
  | succ fuel ih =>
    exact confined_current.bind fun _ => (confined_dirEntry _).bind fun _ =>
      (confined_loadBucket _).bind fun _ =>
        confined_ite (confined_pure _) ((confined_split _ _ _).bind fun _ => ih)

theorem confined_placeRecord (key value : Bytes) (hash off : Nat) (slot : Option Nat)
    (dataOffset : Nat) : Confined (placeRecord key value hash off slot dataOffset) := by
  unfold placeRecord
  refine (confined_writeAt _ _).bind fun _ => (confined_updateBucket _).bind fun _ => ?_
  extract_lets after
  exact confined_ite ((confined_fatal _).bind fun _ => confined_afterMutation) confined_afterMutation

theorem confined_chooseRecord (loc : Located) (n : Nat) : Confined (chooseRecord loc n) := by
  unfold chooseRecord
  split
  · exact (confined_elementAt _ _).bind fun _ => confined_ite (confined_pure _)
      ((confined_allocate _).bind fun _ => (confined_free _ _).bind fun _ => confined_pure _)
  · exact (confined_makeRoom _).bind fun _ => (confined_allocate _).bind fun _ => confined_pure _

theorem confined_store (key value : Bytes) : Confined (store key value) := by
  unfold store
  refine confined_checkWritable.bind fun _ => ?_
  extract_lets place checkValue
  have hplace : ∀ u, Confined (place u) := fun _ =>
    (confined_locate key).bind fun _ => (confined_chooseRecord _ _).bind fun _ =>
      confined_placeRecord _ _ _ _ _ _
  have hcheck : ∀ u, Confined (checkValue u) := fun _ =>
    confined_ite ((confined_throw _).bind hplace) (hplace ())
  exact confined_ite ((confined_throw _).bind hcheck) (hcheck ())

/-! ## Traversal -/

theorem confined_walkFrom (fuel i : Nat) (resume : Option (Nat × Nat × Nat)) :
    Confined (walkFrom fuel i resume) := by
  induction fuel generalizing i resume with
  | zero => exact confined_pure _
  | succ fuel ih =>
    unfold walkFrom
    refine confined_current.bind fun ix => ?_
    refine confined_ite ?_ (confined_pure _)
    refine (confined_dirEntry _).bind fun off => (confined_loadBucket _).bind fun b => ?_
    dsimp only
    split
    · exact (confined_readKey _).bind fun _ => confined_pure _
    · exact ih _ _

theorem confined_walk (i : Nat) (resume : Option (Nat × Nat × Nat)) : Confined (walk i resume) :=
  confined_current.bind fun _ => confined_walkFrom _ _ _

theorem confined_firstEntry : Confined firstEntry := confined_walk _ _

theorem confined_entryAfter (p : Position) : Confined (entryAfter p) := confined_walk _ _

theorem confined_isCurrent (p : Position) : Confined (isCurrent p) :=
  confined_current.bind fun _ => confined_pure _

theorem confined_valueAt (p : Position) : Confined (valueAt p) := by
  unfold valueAt
  refine (confined_isCurrent p).bind fun c => ?_
  refine confined_ite (confined_pure _) ?_
  exact (confined_elementAt _ _).bind fun _ =>
    confined_ite (confined_pure _) ((confined_readValue _).map _)

theorem confined_positionOf (key : Bytes) : Confined (positionOf key) := by
  unfold positionOf
  refine (confined_locate key).bind fun loc => ?_
  split
  · exact confined_pure _
  · exact (confined_loadBucket _).bind fun _ => confined_pure _

/-! ## Opening -/

theorem confined_bootstrap : Confined bootstrap :=
  confined_blockSize.bind fun _ => (confined_allocate _).bind fun _ => (confined_allocate _).bind fun _ =>
    Confined.bind (confined_modifyIndex fun _ => ⟨rfl, rfl, rfl, rfl⟩) fun _ =>
      (confined_cacheInsert _ _ _).bind fun _ => confined_flush

theorem confined_load : Confined load := by
  unfold load
  refine confined_header.bind fun h => ?_
  extract_lets elems outside readDir checkDepth
  have hread : ∀ u, Confined (readDir u) := by
    intro u
    refine (confined_readAt _ _).bind fun bytes => ?_
    dsimp only
    split
    · exact confined_fatal _
    · exact confined_modifyIndex fun _ => ⟨rfl, rfl, rfl, rfl⟩
  have hdepth : ∀ u, Confined (checkDepth u) := fun _ =>
    confined_ite ((confined_throw _).bind hread) (hread ())
  exact confined_ite ((confined_throw _).bind hdepth) (hdepth ())

end Index

end HashFile
