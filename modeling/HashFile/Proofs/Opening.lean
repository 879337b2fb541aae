import HashFile.Proofs.LockTable
import HashFile.Proofs.Confined
import HashFile.Session.Basic

/-!
# What opening does to the volume

Opening a database file takes a new description of the path's file and the
lock its mode asks for: shared for a reader, exclusive for a writer. The lock
is taken before anything else touches the file, so a new database is emptied
only under its own exclusive lock, and every failure after the file was opened
closes the description, which gives the lock back. Laying out or loading the
index then works on that file alone.

Each step is stated as what it does to the lock table (`Volume.Grants` on
success, `Volume.Keeps` on failure) and that it spares the bytes of every file
someone holds a lock on (`Volume.SparesLocked`); the cascade of modes composes
them, since a failed attempt leaves the table as it found it.
-/
namespace HashFile

namespace Volume

variable {v v1 v2 : Volume} {f : OpenFile} {k : LockKind}

variable {ix ix' : Index}

/-- What a grant gave survives a run on the granted file, and the run spares
the files locked before: a writer's file was locked by no one, and a reader
writes nothing. -/
theorem Grants.run (h : v.Grants f k v1) (hc : Index.Contained (v1, ix) (v2, ix'))
    (hf : ix.file.handle = f) (hk : k = .shared → ix.file.writable = false)
    (hs : v.SparesLocked v1) : v.Grants f k v2 ∧ v.SparesLocked v2 := by
  refine ⟨h.table hc.1.frame.sameTable, ?_⟩
  cases k with
  | exclusive =>
    have hfree := h.free
    intro j hj
    have hjf : j ≠ ix.file.handle.ino := by
      rw [hf]
      rintro rfl
      exact hj hfree
    rw [hc.1.frame.data j hjf]
    exact hs j hj
  | shared =>
    have hv : v2 = v1 := hc.2.2 (hk rfl)
    rw [hv]
    exact hs

variable {path : String} {a : Access}

/-- A description just opened that is refused its lock is closed again: the
lock table is as it was, and no locked file's bytes changed. -/
theorem keeps_of_refused (hs : v.LocksSound) (hl : v.Linked)
    (ho : v.openPath path a = .ok (.file f, v1)) :
    v.Keeps (v1.close f) ∧ v.SparesLocked (v1.close f) := by
  obtain ⟨hlk, hid, hnd, hdata⟩ := openPath_file_effect ho
  obtain ⟨hl1, -⟩ := hl.openPath ho
  have hc : (v1.close f).locksOf = v.locksOf := by
    rw [locksOf_close, hlk, hs.filter_fresh (Nat.le_of_eq hid.symm), Function.update_eq_self]
  refine ⟨⟨hc, ?_, hl1.of_entries rfl (Nat.le_of_eq (size_close v1 f).symm)⟩, fun j hj => ?_⟩
  · simp only [nextDescription_close, hnd]
    omega
  · rw [data_close]
    exact hdata j (lt_size_of_locked hj)

/-- A description just opened that is granted its lock: the grant, sparing
every locked file's bytes and keeping the names the open left. -/
theorem grants_of_tryLock (hs : v.LocksSound) (hl : v.Linked)
    (ho : v.openPath path a = .ok (.file f, v1)) (ht : v1.tryLock f k = some v2) :
    v.Grants f k v2 ∧ v.SparesLocked v2 ∧ v2.entries = v1.entries := by
  obtain ⟨hlk, hid, hnd, hdata⟩ := openPath_file_effect ho
  obtain ⟨hl1, hino⟩ := hl.openPath ho
  obtain ⟨hcomp, -⟩ := tryLock_eq_some ht
  obtain ⟨hent, hnd2, hdata2, hsize2⟩ := tryLock_keeps ht
  refine ⟨{ fresh := Nat.le_of_eq hid.symm
            next := by omega
            locks := by
              rw [locksOf_tryLock ht hino, hlk, hs.filter_fresh (Nat.le_of_eq hid.symm)]
            compatible := by
              rwa [hlk, hs.filter_fresh (Nat.le_of_eq hid.symm)] at hcomp
            linked := hl1.of_entries hent (Nat.le_of_eq hsize2.symm) },
    fun j hj => ?_, hent⟩
  rw [hdata2]
  exact hdata j (lt_size_of_locked hj)

end Volume

namespace StoreFile

variable {c : Config} {mode : OpenMode} {v v' : Volume} {f : OpenFile}

/-- A file is started on its own description, for writing exactly when the mode
writes; only a writer may find it new. -/
theorem start_eq_ok {st : StoreFile} {fresh : Bool} (h : start c mode f v = .ok (st, fresh)) :
    st.handle = f ∧ st.writable = mode.isWriter ∧ st.path = c.path ∧
      (fresh = true → mode.isWriter = true) := by
  unfold start at h
  dsimp only at h
  split at h
  · split at h
    · rename_i hw
      cases h
      exact ⟨rfl, rfl, rfl, fun _ => hw⟩
    · cases h
  · split at h
    · cases h
    · split at h
      · cases h
      · cases h
        exact ⟨rfl, rfl, rfl, fun h => by cases h⟩

theorem lockKind_writer (h : mode.isWriter = true) : lockKind mode = .exclusive := by
  simp [lockKind, h]

theorem lockKind_shared (h : lockKind mode = .shared) : mode.isWriter = false := by
  unfold lockKind at h
  split at h
  · cases h
  · rename_i hw
    simpa using hw

/-- What opening a database file does to the volume. On success its
description, the next one, holds the lock of the mode, and the file is open
for writing exactly when the mode writes; on failure the lock table is as
before. Either way no file that was locked has its bytes changed: a new
database is emptied only once its exclusive lock is held. -/
theorem openFile_outcome (mode : OpenMode) (hs : v.LocksSound) (hl : v.Linked) (hn : c.options.nolock = false) :
    match openFile c mode v with
    | (.ok (st, fresh), v') => v.Grants st.handle (lockKind mode) v' ∧ v.SparesLocked v' ∧
        st.writable = mode.isWriter ∧ st.path = c.path ∧ (fresh = true → mode.isWriter = true) ∧
        v'.stat c.path = .ok (.file st.handle.ino)
    | (.error _, v') => v.Keeps v' ∧ v.SparesLocked v' := by
  unfold openFile
  rcases ho : v.openPath c.path (access c.permissions mode) with fault | ⟨o, v1⟩
  · exact ⟨.refl hl, .refl v⟩
  rcases o with f | _
  · simp only [hn, Bool.false_eq_true, if_false]
    rcases ht : v1.tryLock f (lockKind mode) with _ | v2
    · exact Volume.keeps_of_refused hs hl ho
    · obtain ⟨hg2, hspare2, hent⟩ := Volume.grants_of_tryLock hs hl ho ht
      have hg3 : v.Grants f (lockKind mode) (if mode = .newDb then v2.setLen f.ino 0 else v2) := by
        split
        · exact hg2.table (Volume.frame_setLen _ _ _).sameTable
        · exact hg2
      have hspare3 : v.SparesLocked (if mode = .newDb then v2.setLen f.ino 0 else v2) := by
        split
        · rename_i hm
          have hfree : v.locksOf f.ino = [] := by
            subst hm
            exact Volume.Grants.free hg2
          intro j hj
          have hjf : j ≠ f.ino := by
            rintro rfl
            exact hj hfree
          rw [Volume.data_setLen_ne v2 hjf]
          exact hspare2 j hj
        · exact hspare2
      have hstat : (if mode = .newDb then v2.setLen f.ino 0 else v2).stat c.path =
          .ok (.file f.ino) := by
        rw [← Volume.stat_openPath ho]
        apply Volume.stat_eq_of_entries
        split
        · exact hent
        · exact hent
      dsimp only
      cases hr : start c mode f (if mode = .newDb then v2.setLen f.ino 0 else v2) with
      | ok r =>
        obtain ⟨st, fresh⟩ := r
        obtain ⟨hh, hw, hp, hf⟩ := start_eq_ok hr
        refine ⟨?_, hspare3, hw, hp, hf, ?_⟩
        · rw [hh]
          exact hg3
        · rw [hh]
          exact hstat
      | error e =>
        refine ⟨hg3.close hs, fun j hj => ?_⟩
        rw [Volume.data_close]
        exact hspare3 j hj
  · obtain rfl := Volume.openPath_eq_directory ho
    exact ⟨.refl hl, .refl _⟩

/-- Opening a path apart from the file `ino` spares that file: whatever the
outcome its bytes stay as they were, and a file opened is another one. -/
theorem openFile_spares {ino : Nat} {r : Outcome (StoreFile × Bool)} (hino : ino < v.inodes.size)
    (hsep : v.Apart c.path ino) (h : openFile c mode v = (r, v')) :
    v'.data ino = v.data ino ∧ ino < v'.inodes.size ∧
      ∀ st fresh, r = .ok (st, fresh) → st.handle.ino ≠ ino := by
  unfold openFile at h
  rcases ho : v.openPath c.path (access c.permissions mode) with fault | ⟨o, w1⟩
  · rw [ho] at h
    obtain ⟨rfl, rfl⟩ := Prod.mk.inj h
    exact ⟨rfl, hino, fun _ _ h => by cases h⟩
  rw [ho] at h
  rcases o with f | _
  · have hne := hsep.openPath hino ho
    have hd1 : w1.data ino = v.data ino := (Volume.openPath_file_effect ho).2.2.2 ino hino
    have hsz1 := Nat.lt_of_lt_of_le hino (Volume.openPath_file_source ho).2
    dsimp only at h
    generalize hlk : (if c.options.nolock = true then some w1 else w1.tryLock f (lockKind mode)) =
      locked at h
    rcases locked with _ | w2
    · obtain ⟨rfl, rfl⟩ := Prod.mk.inj h
      exact ⟨(Volume.data_close _ _ _).trans hd1, by rw [Volume.size_close]; exact hsz1,
        fun _ _ h => by cases h⟩
    have hd2 : w2.data = w1.data ∧ w2.inodes.size = w1.inodes.size := by
      split at hlk
      · cases hlk
        exact ⟨rfl, rfl⟩
      · exact ⟨(Volume.tryLock_keeps hlk).2.2.1, (Volume.tryLock_keeps hlk).2.2.2⟩
    dsimp only at h
    have hd3 : (if mode = .newDb then w2.setLen f.ino 0 else w2).data ino = w2.data ino ∧
        (if mode = .newDb then w2.setLen f.ino 0 else w2).inodes.size = w2.inodes.size := by
      split
      · exact ⟨Volume.data_setLen_ne _ hne.symm 0, Volume.size_setLen _ _ _⟩
      · exact ⟨rfl, rfl⟩
    generalize (if mode = .newDb then w2.setLen f.ino 0 else w2) = w3 at h hd3
    have hd : w3.data ino = v.data ino := hd3.1.trans ((congrFun hd2.1 ino).trans hd1)
    have hsz : ino < w3.inodes.size := by omega
    split at h
    · rename_i hst
      obtain ⟨rfl, rfl⟩ := Prod.mk.inj h
      refine ⟨hd, hsz, fun st fresh he => ?_⟩
      cases he
      rw [(start_eq_ok hst).1]
      exact hne
    · obtain ⟨rfl, rfl⟩ := Prod.mk.inj h
      exact ⟨(Volume.data_close _ _ _).trans hd, by rw [Volume.size_close]; exact hsz,
        fun _ _ h => by cases h⟩
  · rw [Volume.openPath_eq_directory ho] at h
    obtain ⟨rfl, rfl⟩ := Prod.mk.inj h
    exact ⟨rfl, hino, fun _ _ h => by cases h⟩

end StoreFile

namespace Index

variable {α : Type} {c : Config} {mode : OpenMode} {v v' : Volume} {ix ix' : Index}

/-- A confined action, run on a volume and an index, stays contained. -/
theorem Confined.run_contained {m : IndexM α} (hm : Confined m) {r : Outcome α}
    (h : run m v ix = (r, v', ix')) : Contained (v, ix) (v', ix') := by
  have hc := hm (v, ix)
  unfold ConfinedAt at hc
  unfold run at h
  rcases hx : m.run.run (v, ix) with ⟨r0, v0, ix0⟩
  rw [hx] at hc h
  cases h
  exact hc

theorem lockKind_shared_writable {st : StoreFile} (hw : st.writable = mode.isWriter)
    (h : StoreFile.lockKind mode = .shared) : st.writable = false := by
  unfold StoreFile.lockKind at h
  split at h
  · cases h
  · rename_i hm
    simpa [hw] using hm

/-- What opening an index does to the volume: opening its file, then laying out
or loading the index, which touches that file alone; a failure there closes
the file, which gives its lock back. -/
theorem openIn_outcome (mode : OpenMode) (hs : v.LocksSound) (hl : v.Linked) (hn : c.options.nolock = false) :
    match openIn c mode v with
    | (.ok ix, v') => v.Grants ix.file.handle (StoreFile.lockKind mode) v' ∧ v.SparesLocked v' ∧
        ix.file.writable = mode.isWriter ∧ ix.file.path = c.path ∧ ix.options = c.options ∧
        v'.stat c.path = .ok (.file ix.file.handle.ino)
    | (.error _, v') => v.Keeps v' ∧ v.SparesLocked v' := by
  have ho := StoreFile.openFile_outcome mode hs hl hn
  unfold openIn
  rcases h : StoreFile.openFile c mode v with ⟨_ | ⟨st, fresh⟩, v1⟩
  · rw [h] at ho
    exact ho
  · rw [h] at ho
    obtain ⟨hg, hsp, hw, hp, -, hstat⟩ := ho
    dsimp only
    have hm : Confined (if fresh = true then bootstrap else load) :=
      confined_ite confined_bootstrap confined_load
    rcases hr : run (if fresh = true then bootstrap else load) v1
      ⟨st, Directory.uniform 0 0 0, BucketCache.empty c.cacheSize, c.options, false⟩ with
      ⟨_ | u, v2, ix2⟩
    · have hc := hm.run_contained hr
      obtain ⟨hg2, hsp2⟩ := hg.run hc rfl (lockKind_shared_writable hw) hsp
      refine ⟨hg2.close hs, fun j hj => ?_⟩
      rw [Volume.data_close]
      exact hsp2 j hj
    · have hc := hm.run_contained hr
      obtain ⟨hg2, hsp2⟩ := hg.run hc rfl (lockKind_shared_writable hw) hsp
      refine ⟨?_, hsp2, hc.1.writable.trans hw, hc.2.1.1.trans hp, hc.2.1.2, ?_⟩
      · show v.Grants ix2.file.handle _ v2
        rw [hc.1.handle]
        exact hg2
      · show v2.stat c.path = .ok (.file ix2.file.handle.ino)
        rw [hc.1.handle, Volume.stat_eq_of_entries hc.1.frame.entries]
        exact hstat

/-- Opening an index on a path apart from the file `ino` spares that file:
laying out or loading the index touches the file opened alone. -/
theorem openIn_spares {ino : Nat} {r : Outcome Index} (hino : ino < v.inodes.size)
    (hsep : v.Apart c.path ino) (h : openIn c mode v = (r, v')) :
    v'.data ino = v.data ino ∧ ino < v'.inodes.size ∧ ∀ ix, r = .ok ix → ix.file.handle.ino ≠ ino := by
  unfold openIn at h
  rcases h0 : StoreFile.openFile c mode v with ⟨r0, v1⟩
  obtain ⟨hd1, hsz1, hne⟩ := StoreFile.openFile_spares hino hsep h0
  rw [h0] at h
  rcases r0 with e | ⟨st, fresh⟩
  · obtain ⟨rfl, rfl⟩ := Prod.mk.inj h
    exact ⟨hd1, hsz1, fun _ h => by cases h⟩
  dsimp only at h
  have hne0 := hne st fresh rfl
  have hm : Confined (if fresh = true then bootstrap else load) :=
    confined_ite confined_bootstrap confined_load
  rcases hr : run (if fresh = true then bootstrap else load) v1
    ⟨st, Directory.uniform 0 0 0, BucketCache.empty c.cacheSize, c.options, false⟩ with
    ⟨_ | u, v2, ix2⟩
  all_goals
    have hc := (hm.run_contained hr).1
    have hd2 : v2.data ino = v1.data ino := hc.frame.data ino (Ne.symm hne0)
    have hsz2 : ino < v2.inodes.size := by rw [hc.frame.size]; exact hsz1
    rw [hr] at h
  · obtain ⟨rfl, rfl⟩ := Prod.mk.inj h
    exact ⟨(Volume.data_close _ _ _).trans (hd2.trans hd1), by rw [Volume.size_close]; exact hsz2,
      fun _ h => by cases h⟩
  · obtain ⟨rfl, rfl⟩ := Prod.mk.inj h
    refine ⟨hd2.trans hd1, hsz2, fun ix hix => ?_⟩
    cases hix
    show ix2.file.handle.ino ≠ ino
    rw [hc.handle]
    exact hne0

end Index

namespace Session

variable {c : Config} {v v1 v2 : Volume} {s : Session}

/-- A session just opened from `v`, leaving `v'`: its index's description holds
the lock of its mode, taken from the locks of `v`, and no file locked in `v`
had its bytes changed. -/
def OpensOn (c : Config) (v : Volume) (s : Session) (v' : Volume) : Prop :=
  ∃ ix, s.index = some ix ∧ s.path = c.path ∧ ix.file.path = c.path ∧ ix.options = c.options ∧
    ix.file.writable = s.mode.isWriter ∧
    v.Grants ix.file.handle (StoreFile.lockKind s.mode) v' ∧ v.SparesLocked v'

/-- Failed attempts before an open that succeeds leave it as if made first. -/
theorem OpensOn.after (h1 : v.Keeps v1) (hs1 : v.SparesLocked v1) (h2 : OpensOn c v1 s v2) :
    OpensOn c v s v2 := by
  obtain ⟨ix, hix, hp, hfp, ho, hw, hg, hsp⟩ := h2
  exact ⟨ix, hix, hp, hfp, ho, hw, h1.grants hg, hs1.trans hsp h1.held⟩

theorem openMode_outcome (hs : v.LocksSound) (hl : v.Linked) (hn : c.options.nolock = false)
    (m : OpenMode) :
    match openMode c m v with
    | (.ok s, v') => OpensOn c v s v'
    | (.error _, v') => v.Keeps v' ∧ v.SparesLocked v' := by
  have ho := Index.openIn_outcome m hs hl hn
  unfold openMode
  rcases h : Index.openIn c m v with ⟨_ | ix, v'⟩
  · rw [h] at ho
    exact ho
  · rw [h] at ho
    obtain ⟨hg, hsp, hw, hp, hopt, -⟩ := ho
    exact ⟨ix, rfl, rfl, hp, hopt, hw, hg, hsp⟩

/-- The cascade tries modes one after another; each attempt that fails gives
back what it took, so the one that succeeds finds the locks as they were. -/
theorem cascadeFrom_outcome (hn : c.options.nolock = false) (ms : List OpenMode) :
    ∀ (last : Option StoreError) (v : Volume), v.LocksSound → v.Linked →
      match cascadeFrom c ms last v with
      | (.ok s, v') => OpensOn c v s v'
      | (.error _, v') => v.Keeps v' ∧ v.SparesLocked v' := by
  induction ms with
  | nil => exact fun _ v _ hl => ⟨Volume.Keeps.refl hl, Volume.SparesLocked.refl v⟩
  | cons m rest ih =>
    intro last v hs hl
    rw [cascadeFrom]
    by_cases hnr : (m = .reader && c.fallback = .neverReader) = true
    · rw [if_pos hnr]
      exact ⟨Volume.Keeps.refl hl, Volume.SparesLocked.refl v⟩
    rw [if_neg hnr]
    have ho := openMode_outcome hs hl hn m
    rcases h : openMode c m v with ⟨e | s, v1⟩
    · rw [h] at ho
      obtain ⟨hk, hsp⟩ := ho
      dsimp only
      by_cases hc : cascadesOn e = true
      · rw [if_pos hc]
        have hr := ih (some e) v1 (hs.of_locks hk.locks hk.next) hk.linked
        rcases h2 : cascadeFrom c rest (some e) v1 with ⟨e2 | s, v2⟩
        · rw [h2] at hr
          exact ⟨hk.trans hr.1, hsp.trans hr.2 hk.held⟩
        · rw [h2] at hr
          exact hr.after hk hsp
      · rw [if_neg hc]
        exact ⟨hk, hsp⟩
    · rw [h] at ho
      exact ho

/-- What opening a session by its configuration does to the volume: on
success the session's description holds the lock of the mode it opened in; on
failure no lock is left behind. Either way no file that was locked has its
bytes changed. -/
theorem openWith_outcome (hs : v.LocksSound) (hl : v.Linked) (hn : c.options.nolock = false) :
    match openWith c v with
    | (.ok s, v') => OpensOn c v s v'
    | (.error _, v') => v.Keeps v' ∧ v.SparesLocked v' := by
  unfold openWith
  rcases hv : c.validate with e | u
  · exact ⟨Volume.Keeps.refl hl, Volume.SparesLocked.refl v⟩
  · cases hm : c.mode with
    | some m => exact openMode_outcome hs hl hn m
    | none => exact cascadeFrom_outcome hn _ none v hs hl

/-- An open that fails leaves no lock behind. -/
theorem openWith_error_locks (hs : v.LocksSound) (hl : v.Linked) (hn : c.options.nolock = false)
    {e : StoreError} {v' : Volume} (h : openWith c v = (.error e, v')) : v'.locksOf = v.locksOf := by
  have ho := openWith_outcome hs hl hn
  rw [h] at ho
  exact ho.1.locks

/-- No open, failed or not, changes the bytes of a file a description holds a
lock on. -/
theorem openWith_sparesLocked (hs : v.LocksSound) (hl : v.Linked) (hn : c.options.nolock = false)
    {r : Outcome Session} {v' : Volume} (h : openWith c v = (r, v')) : v.SparesLocked v' := by
  have ho := openWith_outcome hs hl hn
  rw [h] at ho
  rcases r with e | s
  · exact ho.2
  · obtain ⟨-, -, -, -, -, -, -, hsp⟩ := ho
    exact hsp

end Session

end HashFile
