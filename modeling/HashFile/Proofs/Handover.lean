import HashFile.Proofs.Opening
import HashFile.Reorganize

/-!
# Handing a database over to its copy

Reorganizing copies the records into a new file at the copy's path, opened as
a new database and so under an exclusive lock of its own description, and then
moves the copy onto the database's path. The actions on the two indexes are
each confined to their own file, and the move changes entries only, so the
lock table changes in two places: the copy's lock is taken, and the old
description's is given back when it closes (`reorganizeIn_outcome`). On any
failure the copy's description is closed again and the table is as it was.
-/
namespace HashFile

namespace Index

variable {c : Config} {v v' v1 v2 : Volume} {f : OpenFile} {k : LockKind} {ix ix' : Index}

/-- What index actions keep of an index: its file's description, mode and
path, and its options. -/
def SameFile (ix ix' : Index) : Prop :=
  ix'.file.handle = ix.file.handle ∧ ix'.file.writable = ix.file.writable ∧
    ix'.file.path = ix.file.path ∧ ix'.options = ix.options

theorem SameFile.refl (ix : Index) : SameFile ix ix := ⟨rfl, rfl, rfl, rfl⟩

theorem SameFile.trans {ix'' : Index} (h1 : SameFile ix ix') (h2 : SameFile ix' ix'') :
    SameFile ix ix'' :=
  ⟨h2.1.trans h1.1, h2.2.1.trans h1.2.1, h2.2.2.1.trans h1.2.2.1, h2.2.2.2.trans h1.2.2.2⟩

theorem Contained.sameFile (hc : Contained (v, ix) (v', ix')) : SameFile ix ix' :=
  ⟨hc.1.handle, hc.1.writable, hc.2.1.1, hc.2.1.2⟩

/-- Copying records runs actions on two indexes, each confined to its own
file, so between them only files' bytes change. -/
theorem copyRecords_same (fuel : Nat) :
    ∀ (next : Option (Position × Bytes)) (n : Nat) (v : Volume) (self fresh : Index)
      {r : Outcome Nat} {v' : Volume} {self' fresh' : Index},
      copyRecords fuel next n v self fresh = (r, v', self', fresh') →
      v.SameTable v' ∧ SameFile self self' ∧ SameFile fresh fresh' := by
  induction fuel with
  | zero =>
    intro next n v self fresh r v' self' fresh' h
    rcases next with _ | ⟨p, key⟩ <;>
    · simp only [copyRecords, Prod.mk.injEq] at h
      obtain ⟨-, rfl, rfl, rfl⟩ := h
      exact ⟨.refl _, .refl _, .refl _⟩
  | succ fuel ih =>
    intro next n v self fresh r v' self' fresh' h
    rcases next with _ | ⟨p, key⟩
    · simp only [copyRecords, Prod.mk.injEq] at h
      obtain ⟨-, rfl, rfl, rfl⟩ := h
      exact ⟨.refl _, .refl _, .refl _⟩
    simp only [copyRecords] at h
    rcases h1 : run (valueAt p) v self with ⟨r1, v1, self1⟩
    have hc1 := (confined_valueAt p).run_contained h1
    rw [h1] at h
    rcases r1 with e | _ | value
    · simp only [Prod.mk.injEq] at h
      obtain ⟨-, rfl, rfl, rfl⟩ := h
      exact ⟨hc1.1.frame.sameTable, hc1.sameFile, .refl _⟩
    · simp only [Prod.mk.injEq] at h
      obtain ⟨-, rfl, rfl, rfl⟩ := h
      exact ⟨hc1.1.frame.sameTable, hc1.sameFile, .refl _⟩
    dsimp only at h
    rcases h2 : run (store key value) v1 fresh with ⟨r2, v2, fresh2⟩
    have hc2 := (confined_store key value).run_contained h2
    rw [h2] at h
    rcases r2 with e | _
    · simp only [Prod.mk.injEq] at h
      obtain ⟨-, rfl, rfl, rfl⟩ := h
      exact ⟨hc1.1.frame.sameTable.trans hc2.1.frame.sameTable, hc1.sameFile, hc2.sameFile⟩
    dsimp only at h
    rcases h3 : run (entryAfter p) v2 self1 with ⟨r3, v3, self3⟩
    have hc3 := (confined_entryAfter p).run_contained h3
    rw [h3] at h
    have ht : v.SameTable v3 :=
      (hc1.1.frame.sameTable.trans hc2.1.frame.sameTable).trans hc3.1.frame.sameTable
    rcases r3 with e | next
    · simp only [Prod.mk.injEq] at h
      obtain ⟨-, rfl, rfl, rfl⟩ := h
      exact ⟨ht, hc1.sameFile.trans hc3.sameFile, hc2.sameFile⟩
    · obtain ⟨ht', hs', hf'⟩ := ih next (n + 1) v3 self3 fresh2 h
      exact ⟨ht.trans ht', (hc1.sameFile.trans hc3.sameFile).trans hs', hc2.sameFile.trans hf'⟩

/-- What making the copy does to the volume: on success the copy's
description holds an exclusive lock on the file at the copy's path, and the
index copied from keeps its file; on failure the copy is closed and the lock
table is as before. -/
theorem copyInto_outcome {self self' : Index} {r : Outcome (Index × Nat)} (hs : v.LocksSound)
    (hl : v.Linked) (hn : c.options.nolock = false) (h : copyInto c v self = (r, v', self')) :
    match r with
    | .ok (fresh, _) => v.Grants fresh.file.handle .exclusive v' ∧
        v'.stat c.path = .ok (.file fresh.file.handle.ino) ∧ fresh.file.writable = true ∧
        SameFile self self'
    | .error _ => v.Keeps v' ∧ SameFile self self' := by
  have ho := openIn_outcome .newDb hs hl hn
  unfold copyInto at h
  rcases h0 : openIn c .newDb v with ⟨e | fresh, v1⟩
  · rw [h0] at ho h
    simp only [Prod.mk.injEq] at h
    obtain ⟨rfl, rfl, rfl⟩ := h
    exact ⟨ho.1, .refl _⟩
  rw [h0] at ho h
  obtain ⟨hg, -, hw, -, -, hstat⟩ := ho
  dsimp only at h
  rcases h1 : run firstEntry v1 self with ⟨_ | first, v2, self2⟩
  · have hc1 := confined_firstEntry.run_contained h1
    rw [h1] at h
    simp only [Prod.mk.injEq] at h
    obtain ⟨rfl, rfl, rfl⟩ := h
    exact ⟨(hg.table hc1.1.frame.sameTable).close hs, hc1.sameFile⟩
  have hc1 := confined_firstEntry.run_contained h1
  rw [h1] at h
  dsimp only at h
  rcases h2 : copyRecords (self2.dir.size * self2.file.header.bucketElems + 2) first 0 v2 self2
    fresh with ⟨_ | n, v3, self3, fresh3⟩
  · obtain ⟨ht2, hs2, hf2⟩ := copyRecords_same _ _ _ _ _ _ h2
    rw [h2] at h
    simp only [Prod.mk.injEq] at h
    obtain ⟨rfl, rfl, rfl⟩ := h
    refine ⟨?_, hc1.sameFile.trans hs2⟩
    show v.Keeps (v3.close fresh3.file.handle)
    rw [hf2.1]
    exact ((hg.table hc1.1.frame.sameTable).table ht2).close hs
  obtain ⟨ht2, hs2, hf2⟩ := copyRecords_same _ _ _ _ _ _ h2
  rw [h2] at h
  dsimp only at h
  have hm : Confined (do sync; truncateToFrontier) :=
    confined_sync.bind fun _ => confined_truncateToFrontier
  rcases h3 : run (do sync; truncateToFrontier) v3 fresh3 with ⟨_ | u, v4, fresh4⟩
  · have hc3 := hm.run_contained h3
    rw [h3] at h
    simp only [Prod.mk.injEq] at h
    obtain ⟨rfl, rfl, rfl⟩ := h
    refine ⟨?_, hc1.sameFile.trans hs2⟩
    show v.Keeps (v4.close fresh4.file.handle)
    rw [hc3.1.handle, hf2.1]
    exact (((hg.table hc1.1.frame.sameTable).table ht2).table hc3.1.frame.sameTable).close hs
  · have hc3 := hm.run_contained h3
    rw [h3] at h
    simp only [Prod.mk.injEq] at h
    obtain ⟨rfl, rfl, rfl⟩ := h
    have hfile : fresh4.file.handle = fresh.file.handle := hc3.1.handle.trans hf2.1
    refine ⟨?_, ?_, ?_, hc1.sameFile.trans hs2⟩
    · rw [hfile]
      exact ((hg.table hc1.1.frame.sameTable).table ht2).table hc3.1.frame.sameTable
    · rw [hfile, Volume.stat_eq_of_entries hc3.1.frame.entries,
        Volume.stat_eq_of_entries ht2.entries, Volume.stat_eq_of_entries hc1.1.frame.entries]
      exact hstat
    · rw [hc3.1.writable, hf2.2.1, hw]
      rfl

/-- Putting the copy in place moves its entry onto the target's path, after
giving it the target's mode bits; no lock and no description changes. -/
theorem install_eq_ok {copy : Nat} {target temp : String} (hl : v.Linked)
    (h : install v copy target temp = .ok v') :
    ∃ ino, v.stat temp = .ok (.file ino) ∧ v'.stat target = .ok (.file ino) ∧ v.Keeps v' := by
  unfold install at h
  rcases hst : v.stat target with f | e
  · rw [hst] at h
    cases h
  rw [hst, except_ok_bind] at h
  have hu : ∃ u : Volume, u.entries = v.entries ∧ u.locksOf = v.locksOf ∧
      u.nextDescription = v.nextDescription ∧ u.inodes.size = v.inodes.size ∧
      u.rename temp target = .ok v' := by
    cases e with
    | file ino =>
      exact ⟨v.setMode copy (v.mode ino), rfl, Volume.locksOf_setMode _ _, rfl,
        Array.size_modify .., h⟩
    | directory => exact ⟨v, rfl, rfl, rfl, rfl, h⟩
  obtain ⟨u, he, hlk, hnd, hsz, hr⟩ := hu
  obtain ⟨ino, hs1, hs2⟩ := Volume.stat_rename hr
  obtain ⟨hi, hn⟩ := Volume.rename_inodes hr
  refine ⟨ino, (Volume.stat_eq_of_entries he temp).symm.trans hs1, hs2, ?_⟩
  exact ⟨(Volume.locksOf_of_inodes hi).trans hlk, by omega,
    (hl.of_entries he (Nat.le_of_eq hsz.symm)).rename hr⟩

/-- Removing the copy changes neither the lock table nor any description. -/
theorem discard_keeps (hl : v.Linked) (path : String) : v.Keeps (discard v path) := by
  unfold discard
  split
  · rename_i v1 h
    obtain ⟨hi, hn⟩ := Volume.removeFile_inodes h
    exact ⟨Volume.locksOf_of_inodes hi, Nat.le_of_eq hn.symm, hl.removeFile h⟩
  · exact .refl hl

/-- What reorganizing does to the volume. On success the index goes on with
the copy, which now sits at the index's path under the exclusive lock of the
copy's description; the old file's description is closed. On failure the index
keeps its file, and the lock table is as it was. -/
theorem reorganizeIn_outcome {self : Index} (hs : v.LocksSound) (hl : v.Linked)
    (hn : self.options.nolock = false) {r : Outcome ReorganizeStats}
    (h : reorganizeIn v self = (r, v', ix')) :
    match r with
    | .ok _ => ∃ v1, v.Grants ix'.file.handle .exclusive v1 ∧ v' = v1.close self.file.handle ∧
        v'.stat ix'.file.path = .ok (.file ix'.file.handle.ino) ∧ ix'.file.writable = true ∧
        ix'.file.path = self.file.path ∧ ix'.options = self.options
    | .error _ => v.Keeps v' ∧ SameFile self ix' := by
  unfold reorganizeIn at h
  split at h
  · simp only [Prod.mk.injEq] at h
    obtain ⟨rfl, rfl, rfl⟩ := h
    exact ⟨.refl hl, .refl _⟩
  rename_i hw
  split at h
  · rename_i e v1 self1 h1
    simp only [Prod.mk.injEq] at h
    obtain ⟨rfl, rfl, rfl⟩ := h
    have hc1 := confined_flush.run_contained h1
    exact ⟨hc1.1.frame.sameTable.keeps hl, hc1.sameFile⟩
  rename_i u v1 self1 h1
  have hc1 := confined_flush.run_contained h1
  have hk1 := hc1.1.frame.sameTable.keeps hl
  have hs1 : v1.LocksSound := hs.of_locks hk1.locks hk1.next
  have ho1 : self1.options = self.options := hc1.2.1.2
  dsimp only at h
  split at h
  · rename_i e v2 self2 h2
    have hco := copyInto_outcome hs1 hk1.linked (by simpa [ho1] using hn) h2
    simp only [Prod.mk.injEq] at h
    obtain ⟨rfl, rfl, rfl⟩ := h
    refine ⟨?_, hc1.sameFile.trans hco.2⟩
    split
    · exact hk1.trans hco.1
    · exact (hk1.trans hco.1).trans (discard_keeps hco.1.linked _)
  rename_i fresh n v2 self2 h2
  have hco := copyInto_outcome hs1 hk1.linked (by simpa [ho1] using hn) h2
  obtain ⟨hg, hstat, hwf, hsf⟩ := hco
  have hg' := hk1.grants hg
  split at h
  · rename_i f h3
    simp only [Prod.mk.injEq] at h
    obtain ⟨rfl, rfl, rfl⟩ := h
    exact ⟨(hg'.close hs).trans (discard_keeps (hg'.close hs).linked _), hc1.sameFile.trans hsf⟩
  rename_i v3 h3
  simp only [Prod.mk.injEq] at h
  obtain ⟨rfl, rfl, rfl⟩ := h
  obtain ⟨ino, hst, hst', hk3⟩ := install_eq_ok hg.linked h3
  have hino : ino = fresh.file.handle.ino := by
    rw [hstat] at hst
    cases hst
    rfl
  refine ⟨v3, hg'.keeps hk3, ?_, ?_, hwf, hc1.2.1.1, hsf.2.2.2.trans ho1⟩
  · show self2.release v3 = _
    rw [release, hsf.1, hc1.1.handle]
  · show (self2.release v3).stat self1.file.path = .ok (.file fresh.file.handle.ino)
    rw [release, Volume.stat_eq_of_entries (Volume.entries_close _), ← hino]
    exact hst'

end Index

end HashFile
