import HashFile.Proofs.Handover
import HashFile.Proofs.Guards

/-!
# One writer or many readers

Sessions are held under names side by side on one volume (`Handles`), and
opened, closed, dropped and reorganized in any order. As long as every open
takes its lock, each open session holds the lock of its mode on its file under
a description no other session has (`Handles.Inv`), and since the locks on a
file are compatible, a writer never shares its file with another session
(`Handles.Inv.exclusive`). The main statement, `one_writer_or_many_readers`,
gathers this with what opens and reorganizes do to the lock table.
-/
namespace HashFile

namespace Session

variable {v : Volume} {s : Session}

/-! ## Running sessions -/

variable {α β : Type}

theorem run_eq (m : SessionM α) (v : Volume) (s : Session) :
    run m v s = ((m.run.run (v, s)).1, (m.run.run (v, s)).2.1, (m.run.run (v, s)).2.2) := rfl

theorem Refuses.run_eq {e : StoreError} {m : SessionM α} (h : Refuses e m v s) :
    run m v s = (.error e, v, s) := by
  unfold Refuses at h
  rw [Session.run_eq, h]

theorem run_bind_of_ok {x : SessionM α} {f : α → SessionM β} {p p' : Volume × Session} {a : α}
    (h : x.run.run p = (.ok a, p')) : (x >>= f).run.run p = (f a).run.run p' := by
  rw [ExceptT.run_bind, StateT.run_bind, h]
  rfl

theorem run_bind_of_error {x : SessionM α} {f : α → SessionM β} {p p' : Volume × Session}
    {e : StoreError} (h : x.run.run p = (.error e, p')) : (x >>= f).run.run p = (.error e, p') := by
  rw [ExceptT.run_bind, StateT.run_bind, h]
  rfl

theorem run_requireWriter {ix : Index} (hix : s.index = some ix) (hw : ix.file.writable = true) :
    requireWriter.run.run (v, s) = (.ok (), (v, s)) := by
  obtain ⟨index, mode, path, lc, cur⟩ := s
  obtain ⟨⟨fpath, handle, header, dirty, writable, rf⟩, dir, cache, options, sync⟩ := ix
  simp only at hix hw
  subst hix hw
  rfl

theorem run_withIndex {m : IndexM α} {ix : Index} (hix : s.index = some ix) :
    (withIndex m).run.run (v, s) =
      ((Index.run m v ix).1, ((Index.run m v ix).2.1, { s with index := some (Index.run m v ix).2.2 })) := by
  obtain ⟨index, mode, path, lc, cur⟩ := s
  simp only at hix
  subst hix
  rfl

theorem run_reorganize_writer {ix : Index} (hix : s.index = some ix) (hw : ix.file.writable = true) :
    Session.reorganize.run.run (v, s) =
      match Index.reorganizeIn v ix with
      | (.ok st, v', ix') =>
        (.ok st, (v', { s with index := some ix', cursor := .unstarted, lenCache := some st.records }))
      | (.error e, v', ix') => (.error e, (v', { s with index := some ix' })) := by
  unfold Session.reorganize
  rw [run_bind_of_ok (run_requireWriter hix hw)]
  have hwi := run_withIndex (m := Index.reorganize) (v := v) hix
  have hre : Index.run Index.reorganize v ix = Index.reorganizeIn v ix := rfl
  rw [hre] at hwi
  rcases hr : Index.reorganizeIn v ix with ⟨_ | st, v', ix'⟩
  · rw [hr] at hwi
    rw [run_bind_of_error hwi]
  · rw [hr] at hwi
    rw [run_bind_of_ok hwi]
    rfl

theorem run_close {ix : Index} (hix : s.index = some ix) :
    close.run.run (v, s) =
      ((Index.run Index.finish v ix).1,
        ((Index.run Index.finish v ix).2.2.release (Index.run Index.finish v ix).2.1,
          { s with index := none, lenCache := none, cursor := .unstarted })) := by
  obtain ⟨index, mode, path, lc, cur⟩ := s
  simp only at hix
  subst hix
  rfl

theorem drop_of_index {ix : Index} (hix : s.index = some ix) :
    drop v s = (Index.run Index.finish v ix).2.2.release (Index.run Index.finish v ix).2.1 := by
  unfold drop
  rw [hix]

/-- Finishing an index and closing its file gives back its lock and nothing
else. -/
theorem releases_finish (ix : Index) (hl : v.Linked) :
    v.Releases ix.file.handle
      ((Index.run Index.finish v ix).2.2.release (Index.run Index.finish v ix).2.1) := by
  rcases h : Index.run Index.finish v ix with ⟨r, v1, ix1⟩
  have hc := Index.confined_finish.run_contained h
  show v.Releases ix.file.handle (v1.close ix1.file.handle)
  rw [hc.1.handle]
  exact hc.1.frame.sameTable.releases hl _

end Session

/-! ## Sessions side by side -/

/-- Sessions held under names over one volume. -/
structure Handles where
  volume : Volume
  held : String → Option Session

namespace Handles

/-- What is done to the sessions held: open one under a name, close it, drop
it, or reorganize its file. -/
inductive Action where
  | openWith (name : String) (c : Config)
  | close (name : String)
  | drop (name : String)
  | reorganize (name : String)

/-- No open skips its lock. -/
def Action.Locking : Action → Prop
  | .openWith _ c => c.options.nolock = false
  | _ => True

/-- The volume once the session held under a name, if any, is dropped. -/
def dropHeld (w : Handles) (n : String) : Volume :=
  match w.held n with
  | none => w.volume
  | some s => Session.drop w.volume s

/-- Do one action. An open under a name in use drops the session held there
first, and leaves the name free when it fails. -/
def step (w : Handles) : Action → Handles
  | .openWith n c =>
    match Session.openWith c (w.dropHeld n) with
    | (.ok s, v) => ⟨v, Function.update w.held n (some s)⟩
    | (.error _, v) => ⟨v, Function.update w.held n none⟩
  | .close n =>
    match w.held n with
    | none => w
    | some s =>
      let (_, v, s) := Session.run Session.close w.volume s
      ⟨v, Function.update w.held n (some s)⟩
  | .drop n => ⟨w.dropHeld n, Function.update w.held n none⟩
  | .reorganize n =>
    match w.held n with
    | none => w
    | some s =>
      let (_, v, s) := Session.run Session.reorganize w.volume s
      ⟨v, Function.update w.held n (some s)⟩

/-- The states reached from a volume whose locks are sound and whose entries
name files it has, with no session held, by actions that take their locks. -/
inductive Reachable : Handles → Prop
  | start (v : Volume) (hs : v.LocksSound) (hl : v.Linked) : Reachable ⟨v, fun _ => none⟩
  | step {w : Handles} (a : Action) (ha : a.Locking) (hw : Reachable w) : Reachable (w.step a)

/-- What an open index of a session holds on the volume: the lock of the
session's mode on its file, open for writing exactly when the mode writes,
locking, and by the session's path. -/
def Holds (v : Volume) (s : Session) (ix : Index) : Prop :=
  (ix.file.handle.id, StoreFile.lockKind s.mode) ∈ v.locksOf ix.file.handle.ino ∧
    ix.file.writable = s.mode.isWriter ∧ ix.options.nolock = false ∧ ix.file.path = s.path

/-- The invariant of the sessions held: the lock table is sound, every open
session holds its lock, and no two hold one description. -/
structure Inv (w : Handles) : Prop where
  sound : w.volume.LocksSound
  linked : w.volume.Linked
  holds : ∀ n s ix, w.held n = some s → s.index = some ix → Holds w.volume s ix
  distinct : ∀ n m s t ix iy, n ≠ m → w.held n = some s → w.held m = some t →
    s.index = some ix → t.index = some iy → ix.file.handle.id ≠ iy.file.handle.id

namespace Inv

variable {w : Handles} {n : String}

theorem start {v : Volume} (hs : v.LocksSound) (hl : v.Linked) : Inv ⟨v, fun _ => none⟩ where
  sound := hs
  linked := hl
  holds _ _ _ h := by cases h
  distinct _ _ _ _ _ _ _ h := by cases h

/-- Every open session's description was handed out already. -/
theorem lt_next (h : w.Inv) {m : String} {t : Session} {iy : Index} (hm : w.held m = some t)
    (hiy : t.index = some iy) : iy.file.handle.id < w.volume.nextDescription :=
  h.sound.issued _ _ (h.holds m t iy hm hiy).1

/-- The invariant after the session under one name changes: the sessions
under other names keep their locks in the new volume, and the new one, if
open, holds its lock under a description no other session has. -/
theorem update (h : w.Inv) {v' : Volume} {o : Option Session} (hs : v'.LocksSound)
    (hl : v'.Linked)
    (hkeep : ∀ m s ix, m ≠ n → w.held m = some s → s.index = some ix →
      (ix.file.handle.id, StoreFile.lockKind s.mode) ∈ v'.locksOf ix.file.handle.ino)
    (hnew : ∀ s ix, o = some s → s.index = some ix → Holds v' s ix ∧
      ∀ m t iy, m ≠ n → w.held m = some t → t.index = some iy →
        ix.file.handle.id ≠ iy.file.handle.id) :
    Inv ⟨v', Function.update w.held n o⟩ where
  sound := hs
  linked := hl
  holds m s ix hm hix := by
    dsimp only at hm ⊢
    by_cases hmn : m = n
    · subst hmn
      rw [Function.update_self] at hm
      exact (hnew s ix hm hix).1
    · rw [Function.update_of_ne hmn] at hm
      obtain ⟨-, hw, hno, hp⟩ := h.holds m s ix hm hix
      exact ⟨hkeep m s ix hmn hm hix, hw, hno, hp⟩
  distinct m1 m2 s t ix iy hne h1 h2 hix hiy := by
    dsimp only at h1 h2
    by_cases h1n : m1 = n
    · subst h1n
      rw [Function.update_self] at h1
      rw [Function.update_of_ne (Ne.symm hne)] at h2
      exact (hnew s ix h1 hix).2 m2 t iy (Ne.symm hne) h2 hiy
    · rw [Function.update_of_ne h1n] at h1
      by_cases h2n : m2 = n
      · subst h2n
        rw [Function.update_self] at h2
        exact fun e => (hnew t iy h2 hiy).2 m1 s ix h1n h1 hix e.symm
      · rw [Function.update_of_ne h2n] at h2
        exact h.distinct m1 m2 s t ix iy hne h1 h2 hix hiy

/-- Releasing one session's lock keeps the others' locks. -/
theorem keep_of_releases (h : w.Inv) {s : Session} {ix : Index} {v' : Volume}
    (hn : w.held n = some s) (hix : s.index = some ix) (hr : w.volume.Releases ix.file.handle v') :
    ∀ m t iy, m ≠ n → w.held m = some t → t.index = some iy →
      (iy.file.handle.id, StoreFile.lockKind t.mode) ∈ v'.locksOf iy.file.handle.ino :=
  fun m t iy hmn hm hiy =>
    hr.mem (h.holds m t iy hm hiy).1 (h.distinct m n t s iy ix hmn hm hn hiy hix)

theorem keep_of_locks (h : w.Inv) {v' : Volume} (hl : v'.locksOf = w.volume.locksOf) :
    ∀ m t iy, m ≠ n → w.held m = some t → t.index = some iy →
      (iy.file.handle.id, StoreFile.lockKind t.mode) ∈ v'.locksOf iy.file.handle.ino :=
  fun m t iy _ hm hiy => hl ▸ (h.holds m t iy hm hiy).1

/-- Dropping the session under a name keeps the invariant. -/
theorem dropHeld (h : w.Inv) (n : String) : Inv ⟨w.dropHeld n, Function.update w.held n none⟩ := by
  unfold Handles.dropHeld
  rcases hn : w.held n with _ | s
  · exact h.update h.sound h.linked (h.keep_of_locks rfl) (fun _ _ h => by cases h)
  · dsimp only
    rcases hix : s.index with _ | ix
    · rw [show Session.drop w.volume s = w.volume by unfold Session.drop; rw [hix]]
      exact h.update h.sound h.linked (h.keep_of_locks rfl) (fun _ _ h => by cases h)
    · have hr := Session.releases_finish ix h.linked
      rw [← Session.drop_of_index hix] at hr
      exact h.update (hr.sound h.sound) hr.linked (h.keep_of_releases hn hix hr)
        (fun _ _ h => by cases h)

theorem step_close (h : w.Inv) (n : String) : (w.step (.close n)).Inv := by
  simp only [Handles.step]
  rcases hn : w.held n with _ | s
  · exact h
  · dsimp only
    rw [Session.run_eq]
    rcases hix : s.index with _ | ix
    · rw [Session.refuses_close hix]
      exact h.update h.sound h.linked (h.keep_of_locks rfl) fun s' ix' hs' hix' => by
        cases hs'
        rw [hix] at hix'
        cases hix'
    · rw [Session.run_close hix]
      have hr := Session.releases_finish (v := w.volume) ix h.linked
      exact h.update (hr.sound h.sound) hr.linked (h.keep_of_releases hn hix hr)
        fun s' ix' hs' hix' => by
          cases hs'
          cases hix'

/-- Reorganizing keeps the invariant: on success the session goes on with the
copy, whose description is new and holds the exclusive lock; on failure it
keeps its file, and the lock table is as it was. -/
theorem step_reorganize (h : w.Inv) (n : String) : (w.step (.reorganize n)).Inv := by
  simp only [Handles.step]
  rcases hn : w.held n with _ | s
  · exact h
  dsimp only
  have hsame : Inv ⟨w.volume, Function.update w.held n (some s)⟩ :=
    h.update h.sound h.linked (h.keep_of_locks rfl) fun s' ix' hs' hix' => by
      obtain rfl : s = s' := Option.some.inj hs'
      exact ⟨h.holds n s ix' hn hix', fun m t iy hmn hm hiy =>
        h.distinct n m s t ix' iy (Ne.symm hmn) hn hm hix' hiy⟩
  rcases hix : s.index with _ | ix
  · have hrf : Session.Refuses .closedHandle Session.reorganize w.volume s :=
      (Session.refuses_requireWriter_of_closed hix).bind
    rw [hrf.run_eq]
    exact hsame
  by_cases hw : ix.file.writable = true
  swap
  · have hw' : ix.file.writable = false := by simpa using hw
    have hrf : Session.Refuses .readOnly Session.reorganize w.volume s :=
      (Session.refuses_requireWriter_of_readOnly hix hw').bind
    rw [hrf.run_eq]
    exact hsame
  have ho := h.holds n s ix hn hix
  rw [Session.run_eq, Session.run_reorganize_writer hix hw]
  rcases hr : Index.reorganizeIn w.volume ix with ⟨_ | st, v', ix'⟩
  · obtain ⟨hk, hsf⟩ := Index.reorganizeIn_outcome h.sound h.linked ho.2.2.1 hr
    dsimp only
    refine h.update (h.sound.of_locks hk.locks hk.next) hk.linked (h.keep_of_locks hk.locks)
      fun s' ix'' hs' hix' => ?_
    cases hs'
    cases hix'
    refine ⟨⟨?_, hsf.2.1.trans ho.2.1, hsf.2.2.2 ▸ ho.2.2.1, hsf.2.2.1.trans ho.2.2.2⟩, ?_⟩
    · rw [hk.locks, hsf.1]
      exact ho.1
    · intro m t iy hmn hm hiy
      rw [hsf.1]
      exact h.distinct n m s t ix iy (Ne.symm hmn) hn hm hix hiy
  · obtain ⟨v1, hg, rfl, -, hwr, hpath, hopt⟩ := Index.reorganizeIn_outcome h.sound h.linked ho.2.2.1 hr
    have hrel := (Volume.SameTable.refl v1).releases hg.linked ix.file.handle
    have hnew : ix.file.handle.id < ix'.file.handle.id :=
      Nat.lt_of_lt_of_le (h.lt_next hn hix) hg.fresh
    have hwriter : s.mode.isWriter = true := ho.2.1 ▸ hw
    dsimp only
    refine h.update (hrel.sound (hg.sound h.sound)) hrel.linked ?_ fun s' ix'' hs' hix' => ?_
    · intro m t iy hmn hm hiy
      exact hrel.mem (hg.mem (h.holds m t iy hm hiy).1) (h.distinct m n t s iy ix hmn hm hn hiy hix)
    · cases hs'
      cases hix'
      refine ⟨⟨?_, hwr.trans hwriter.symm, hopt ▸ ho.2.2.1, hpath.trans ho.2.2.2⟩, ?_⟩
      · show (ix'.file.handle.id, StoreFile.lockKind s.mode) ∈ _
        rw [StoreFile.lockKind_writer hwriter]
        exact hrel.mem hg.mem_self (Nat.ne_of_gt hnew)
      · intro m t iy _ hm hiy
        exact Nat.ne_of_gt (Nat.lt_of_lt_of_le (h.lt_next hm hiy) hg.fresh)

theorem step_drop (h : w.Inv) (n : String) : (w.step (.drop n)).Inv := h.dropHeld n

/-- An open keeps the invariant: the session dropped first gives its lock
back; a failed open takes none, and a successful one holds the lock of its
mode under a new description. -/
theorem step_openWith (h : w.Inv) (n : String) {c : Config} (hc : c.options.nolock = false) :
    (w.step (.openWith n c)).Inv := by
  have h0 := h.dropHeld n
  have ho := Session.openWith_outcome (c := c) h0.sound h0.linked hc
  have hother : ∀ m t, m ≠ n → w.held m = some t → Function.update w.held n none m = some t :=
    fun m t hmn hm => by rw [Function.update_of_ne hmn]; exact hm
  simp only [Handles.step]
  rcases hr : Session.openWith c (w.dropHeld n) with ⟨_ | s, v'⟩
  · rw [hr] at ho
    obtain ⟨hk, -⟩ := ho
    dsimp only
    refine h.update (h0.sound.of_locks hk.locks hk.next) hk.linked ?_ fun _ _ h => by cases h
    intro m t iy hmn hm hiy
    rw [hk.locks]
    exact (h0.holds m t iy (hother m t hmn hm) hiy).1
  · rw [hr] at ho
    obtain ⟨ix, hix, hp, hfp, hopt, hw, hg, -⟩ := ho
    dsimp only
    refine h.update (hg.sound h0.sound) hg.linked ?_ fun s' ix' hs' hix' => ?_
    · intro m t iy hmn hm hiy
      exact hg.mem (h0.holds m t iy (hother m t hmn hm) hiy).1
    · obtain rfl : s = s' := Option.some.inj hs'
      obtain rfl : ix = ix' := Option.some.inj (hix.symm.trans hix')
      refine ⟨⟨hg.mem_self, hw, hopt ▸ hc, hfp.trans hp.symm⟩, ?_⟩
      intro m t iy hmn hm hiy
      exact Nat.ne_of_gt (Nat.lt_of_lt_of_le (h0.lt_next (hother m t hmn hm) hiy) hg.fresh)

theorem step (h : w.Inv) (a : Action) (ha : a.Locking) : (w.step a).Inv := by
  cases a with
  | openWith n c => exact h.step_openWith n ha
  | close n => exact h.step_close n
  | drop n => exact h.step_drop n
  | reorganize n => exact h.step_reorganize n

/-- Of two sessions open on one file under different names, neither is a
writer: the locks they hold are different locks on that file, which stand
together only when shared. -/
theorem exclusive (h : w.Inv) {m : String} {s t : Session} {ix iy : Index} (hnm : n ≠ m)
    (hs : w.held n = some s) (ht : w.held m = some t) (hix : s.index = some ix)
    (hiy : t.index = some iy) (hino : ix.file.handle.ino = iy.file.handle.ino) :
    s.mode.isWriter = false := by
  have h1 := (h.holds n s ix hs hix).1
  have h2 := (h.holds m t iy ht hiy).1
  rw [← hino] at h2
  have hne : (ix.file.handle.id, StoreFile.lockKind s.mode) ≠
      (iy.file.handle.id, StoreFile.lockKind t.mode) :=
    fun e => h.distinct n m s t ix iy hnm hs ht hix hiy (congrArg Prod.fst e)
  exact StoreFile.lockKind_shared ((h.sound.compatible _).shared_of_ne h1 h2 hne)

/-- After a reorganize that succeeds, the file at the session's path is the
copy, and the session's description holds the only lock on it, an exclusive
one. -/
theorem reorganized (h : w.Inv) {s s' : Session} {st : ReorganizeStats} {v' : Volume}
    (hn : w.held n = some s) (hr : Session.run Session.reorganize w.volume s = (.ok st, v', s')) :
    ∃ ix, s'.index = some ix ∧ v'.stat s'.path = .ok (.file ix.file.handle.ino) ∧
      v'.locksOf ix.file.handle.ino = [(ix.file.handle.id, .exclusive)] := by
  rcases hix : s.index with _ | ix
  · have hrf : Session.Refuses .closedHandle Session.reorganize w.volume s :=
      (Session.refuses_requireWriter_of_closed hix).bind
    rw [hrf.run_eq] at hr
    cases hr
  by_cases hw : ix.file.writable = true
  swap
  · have hrf : Session.Refuses .readOnly Session.reorganize w.volume s :=
      (Session.refuses_requireWriter_of_readOnly hix (by simpa using hw)).bind
    rw [hrf.run_eq] at hr
    cases hr
  have ho := h.holds n s ix hn hix
  rw [Session.run_eq, Session.run_reorganize_writer hix hw] at hr
  rcases hre : Index.reorganizeIn w.volume ix with ⟨_ | st', v1, ix'⟩
  · rw [hre] at hr
    cases hr
  rw [hre] at hr
  simp only [Prod.mk.injEq] at hr
  obtain ⟨-, rfl, rfl⟩ := hr
  obtain ⟨v2, hg, rfl, hstat, -, hpath, -⟩ :=
    Index.reorganizeIn_outcome h.sound h.linked ho.2.2.1 hre
  refine ⟨ix', rfl, ?_, ?_⟩
  · show (v2.close ix.file.handle).stat s.path = _
    rw [← ho.2.2.2, ← hpath]
    exact hstat
  · have hnew : ix.file.handle.id < ix'.file.handle.id :=
      Nat.lt_of_lt_of_le (h.lt_next hn hix) hg.fresh
    rw [Volume.locksOf_close_of_not_held, hg.alone]
    rw [hg.alone]
    intro l hl
    rw [List.mem_singleton] at hl
    subst hl
    exact Nat.ne_of_gt hnew

end Inv

theorem Reachable.inv {w : Handles} (hw : w.Reachable) : w.Inv := by
  induction hw with
  | start v hs hl => exact Inv.start hs hl
  | step a ha _ ih => exact ih.step a ha

/-- One writer or many readers. In every state reached by opens that lock,
closes, drops and reorganizes, however many sessions are held: no writer
shares its file with another open session; an open that fails leaves the lock
table as it found it, and no open changes the bytes of a file a description
holds a lock on, so a new database is emptied only once its own exclusive lock
is held; and after a reorganize that succeeds, the session's path names the
copy, on which the session's description holds the only lock, an exclusive
one. -/
theorem one_writer_or_many_readers {w : Handles} (hw : w.Reachable) :
    (∀ n m s t ix iy, n ≠ m → w.held n = some s → w.held m = some t → s.index = some ix →
      t.index = some iy → ix.file.handle.ino = iy.file.handle.ino → s.mode.isWriter = false) ∧
    (∀ c : Config, c.options.nolock = false →
      (∀ e v', Session.openWith c w.volume = (.error e, v') → v'.locksOf = w.volume.locksOf) ∧
      ∀ r v', Session.openWith c w.volume = (r, v') → w.volume.SparesLocked v') ∧
    ∀ n s st v' s', w.held n = some s →
      Session.run Session.reorganize w.volume s = (.ok st, v', s') →
      ∃ ix, s'.index = some ix ∧ v'.stat s'.path = .ok (.file ix.file.handle.ino) ∧
        v'.locksOf ix.file.handle.ino = [(ix.file.handle.id, .exclusive)] := by
  have h := hw.inv
  refine ⟨fun n m s t ix iy hnm hs ht hix hiy hino => h.exclusive hnm hs ht hix hiy hino,
    fun c hc => ⟨fun _ _ ho => ?_, fun _ _ ho => ?_⟩, fun n s st v' s' hs hr => h.reorganized hs hr⟩
  · exact Session.openWith_error_locks h.sound h.linked hc ho
  · exact Session.openWith_sparesLocked h.sound h.linked hc ho

/-- Two opens by the cascade on one new file reach a state the theorem covers:
whatever modes they reach, the first is no writer sharing its file with the
second. -/
theorem cascade_pair_one_writer :
    let w : Handles := ((⟨Volume.empty, fun _ => none⟩ : Handles).step
      (.openWith "a" { path := "db" })).step (.openWith "b" { path := "db" })
    w.Reachable ∧ ∀ s t ix iy, w.held "a" = some s → w.held "b" = some t →
      s.index = some ix → t.index = some iy → ix.file.handle.ino = iy.file.handle.ino →
      s.mode.isWriter = false := by
  intro w
  have hr : w.Reachable :=
    .step _ rfl (.step _ rfl (.start _ Volume.LocksSound.empty Volume.Linked.empty))
  exact ⟨hr, fun s t ix iy => (one_writer_or_many_readers hr).1 "a" "b" s t ix iy (by decide)⟩


end Handles

end HashFile
