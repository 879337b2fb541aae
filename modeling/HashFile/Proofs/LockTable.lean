import HashFile.Proofs.Paths
import HashFile.Proofs.Coherence

/-!
# The lock table of a volume

Each file keeps the locks open descriptions hold on it (`locksOf`). Taking a
lock checks the others: an exclusive lock needs none held by another
description, a shared one needs all of them shared, so the locks on a file are
always `Compatible`; closing a description removes its lock. Every other change
of the volume leaves the table alone.

A table is sound (`LocksSound`) when its locks are compatible and every one of
them belongs to a description the volume has already handed out; a new
description then owns no lock yet (`LocksSound.filter_fresh`), which is what
lets an open that fails give back exactly what it took.
-/
namespace HashFile

namespace Volume

/-- The locks open descriptions hold on a file. -/
def locksOf (v : Volume) (ino : Nat) : List (Nat × LockKind) := (v.inodes.getD ino default).locks

/-- Locks that may stand together: an exclusive lock stands alone. -/
def Compatible (l : List (Nat × LockKind)) : Prop := l.length ≤ 1 ∨ ∀ x ∈ l, x.2 = .shared

/-- A lock table as flock semantics leaves it: every lock belongs to a
description the volume has handed out, and no file's locks conflict. -/
structure LocksSound (v : Volume) : Prop where
  issued : ∀ j, ∀ l ∈ v.locksOf j, l.1 < v.nextDescription
  compatible : ∀ j, Compatible (v.locksOf j)

/-- Of two different locks standing together, each is shared. -/
theorem Compatible.shared_of_ne {l : List (Nat × LockKind)} (hc : Compatible l)
    {a b : Nat × LockKind} (ha : a ∈ l) (hb : b ∈ l) (hne : a ≠ b) : a.2 = .shared := by
  rcases hc with hlen | hall
  · match l, hlen with
    | [], _ => simp at ha
    | [x], _ =>
      rw [List.mem_singleton] at ha hb
      exact absurd (ha.trans hb.symm) hne
  · exact hall a ha

variable {v v' : Volume} {f : OpenFile} {k : LockKind}

theorem locksOf_of_inodes (h : v'.inodes = v.inodes) : v'.locksOf = v.locksOf := by
  funext j
  unfold locksOf
  rw [h]

theorem locksOf_of_size_le {j : Nat} (h : v.inodes.size ≤ j) : v.locksOf j = [] := by
  simp [locksOf, Array.getD_eq_getD_getElem?, Array.getElem?_eq_none h]
  rfl

theorem Frame.locksOf {ino : Nat} (h : Frame ino v v') : v'.locksOf = v.locksOf :=
  funext h.locks

@[simp] theorem locksOf_describe (ino : Nat) : (v.describe ino).2.locksOf = v.locksOf := rfl

@[simp] theorem locksOf_createFile (p : String) (mode : Nat) :
    (v.createFile p mode).2.locksOf = v.locksOf := by
  funext j
  simp only [createFile, locksOf, Array.getD_eq_getD_getElem?, Array.getElem?_push]
  split
  · rename_i hj
    subst hj
    simp
    rfl
  · rfl

/-- Changing the locks of one file, within the volume, changes nothing else. -/
theorem locksOf_modifyLocks {ino : Nat} (g : List (Nat × LockKind) → List (Nat × LockKind))
    (h : ino < v.inodes.size ∨ g [] = []) :
    ({ v with inodes := v.inodes.modify ino fun n => { n with locks := g n.locks } } : Volume).locksOf =
      Function.update v.locksOf ino (g (v.locksOf ino)) := by
  funext j
  simp only [locksOf, Array.getD_eq_getD_getElem?, Array.getElem?_modify]
  by_cases hj : j = ino
  · subst hj
    rw [Function.update_self, if_pos rfl]
    rcases Nat.lt_or_ge j v.inodes.size with hlt | hge
    · rw [Array.getElem?_eq_getElem hlt]
      rfl
    · rw [Array.getElem?_eq_none hge]
      rcases h with h | h
      · omega
      · exact h.symm
  · rw [Function.update_of_ne hj, if_neg (Ne.symm hj), locksOf, Array.getD_eq_getD_getElem?]

theorem data_modifyLocks {ino : Nat} (g : List (Nat × LockKind) → List (Nat × LockKind)) :
    ({ v with inodes := v.inodes.modify ino fun n => { n with locks := g n.locks } } : Volume).data =
      v.data := by
  funext j
  simp only [data, Array.getD_eq_getD_getElem?, Array.getElem?_modify]
  split
  · cases v.inodes[j]? <;> rfl
  · rfl

/-- What taking a lock needs: no lock of another description on the file for
an exclusive one, only shared ones for a shared one. The lock taken stands in
place of the description's own, and the locks on the file stay compatible. -/
theorem tryLock_eq_some (h : v.tryLock f k = some v') :
    Compatible ((f.id, k) :: (v.locksOf f.ino).filter fun l => l.1 ≠ f.id) ∧
      v' = { v with inodes := v.inodes.modify f.ino fun n =>
        { n with locks := (f.id, k) :: (v.locksOf f.ino).filter fun l => l.1 ≠ f.id } } := by
  unfold tryLock at h
  cases k with
  | exclusive =>
    dsimp only at h
    split at h
    · rename_i hg
      cases h
      refine ⟨.inl ?_, rfl⟩
      have he : ((v.locksOf f.ino).filter fun l => l.1 ≠ f.id) = [] := by
        simpa [locksOf, Array.getD_eq_getD_getElem?] using hg
      simp only [List.length_cons, he, List.length_nil, Nat.le_refl]
    · cases h
  | shared =>
    dsimp only at h
    split at h
    · rename_i hg
      cases h
      refine ⟨.inr fun x hx => ?_, rfl⟩
      rcases List.mem_cons.1 hx with rfl | hx
      · rfl
      · simpa using List.all_eq_true.1 hg x hx
    · cases h

theorem locksOf_tryLock (h : v.tryLock f k = some v') (hf : f.ino < v.inodes.size) :
    v'.locksOf = Function.update v.locksOf f.ino
      ((f.id, k) :: (v.locksOf f.ino).filter fun l => l.1 ≠ f.id) := by
  obtain ⟨-, rfl⟩ := tryLock_eq_some h
  exact locksOf_modifyLocks (fun _ => _) (.inl hf)

/-- Taking a lock changes no entry, no file's bytes and no description. -/
theorem tryLock_keeps (h : v.tryLock f k = some v') :
    v'.entries = v.entries ∧ v'.nextDescription = v.nextDescription ∧ v'.data = v.data ∧
      v'.inodes.size = v.inodes.size := by
  obtain ⟨-, rfl⟩ := tryLock_eq_some h
  exact ⟨rfl, rfl, data_modifyLocks (fun _ => _), Array.size_modify ..⟩

theorem locksOf_close (f : OpenFile) :
    (v.close f).locksOf = Function.update v.locksOf f.ino
      ((v.locksOf f.ino).filter fun l => l.1 ≠ f.id) :=
  locksOf_modifyLocks (fun l => l.filter fun l => l.1 ≠ f.id) (.inr rfl)

/-- Closing a description changes nothing on a file where it holds no lock. -/
theorem locksOf_close_of_not_held {j : Nat} (h : ∀ l ∈ v.locksOf j, l.1 ≠ f.id) :
    (v.close f).locksOf j = v.locksOf j := by
  rw [locksOf_close]
  by_cases hj : j = f.ino
  · subst hj
    rw [Function.update_self, List.filter_eq_self]
    intro l hl
    simpa using h l hl
  · rw [Function.update_of_ne hj]

@[simp] theorem entries_close (f : OpenFile) : (v.close f).entries = v.entries := rfl

@[simp] theorem nextDescription_close (f : OpenFile) :
    (v.close f).nextDescription = v.nextDescription := rfl

@[simp] theorem locksOf_setMode (ino mode : Nat) : (v.setMode ino mode).locksOf = v.locksOf := by
  funext j
  simp only [locksOf, setMode, Array.getD_eq_getD_getElem?, Array.getElem?_modify]
  split
  · cases v.inodes[j]? <;> rfl
  · rfl

@[simp] theorem entries_setMode (ino mode : Nat) : (v.setMode ino mode).entries = v.entries := rfl

@[simp] theorem nextDescription_setMode (ino mode : Nat) :
    (v.setMode ino mode).nextDescription = v.nextDescription := rfl

/-! ## Opening a path -/

theorem data_createFile (p : String) (mode : Nat) {j : Nat} (hj : j < v.inodes.size) :
    (v.createFile p mode).2.data j = v.data j := by
  simp only [createFile, data, Array.getD_eq_getD_getElem?, Array.getElem?_push,
    if_neg (Nat.ne_of_lt hj)]

/-- An open that reaches a file hands out the next description, and changes no
lock and none of the bytes of the files that were there. -/
theorem openPath_file_effect {path : String} {a : Access} {f : OpenFile}
    (h : v.openPath path a = .ok (.file f, v')) :
    v'.locksOf = v.locksOf ∧ f.id = v.nextDescription ∧
      v'.nextDescription = v.nextDescription + 1 ∧ ∀ j, j < v.inodes.size → v'.data j = v.data j := by
  obtain ⟨t, n, -, -, ⟨-, hd⟩ | ⟨mode, -, -, -, hd⟩⟩ := openPath_eq_file h
  · simp only [describe, Prod.mk.injEq] at hd
    obtain ⟨hf, rfl⟩ := hd
    exact ⟨rfl, hf ▸ rfl, rfl, fun _ _ => rfl⟩
  · simp only [describe, Prod.mk.injEq] at hd
    obtain ⟨hf, rfl⟩ := hd
    refine ⟨locksOf_createFile (t.leafPath n) mode, hf ▸ ?_, ?_,
      fun j hj => data_createFile (t.leafPath n) mode hj⟩
    · simp [createFile]
    · simp [createFile]

/-! ## A sound lock table -/

namespace LocksSound

/-- A volume with no file holds no lock. -/
theorem empty : LocksSound Volume.empty where
  issued j l hl := by
    rw [locksOf_of_size_le (Nat.zero_le j)] at hl
    cases hl
  compatible j := .inl (by rw [locksOf_of_size_le (Nat.zero_le j)]; exact Nat.zero_le 1)

theorem of_locks (hs : LocksSound v) (hl : v'.locksOf = v.locksOf)
    (hn : v.nextDescription ≤ v'.nextDescription) : LocksSound v' where
  issued j l hlj := Nat.lt_of_lt_of_le (hs.issued j l (hl ▸ hlj)) hn
  compatible j := hl ▸ hs.compatible j

/-- A description handed out after every lock owns none of them. -/
theorem filter_fresh (hs : LocksSound v) {id : Nat} (hid : v.nextDescription ≤ id) (j : Nat) :
    ((v.locksOf j).filter fun l => l.1 ≠ id) = v.locksOf j := by
  rw [List.filter_eq_self]
  intro l hl
  have := hs.issued j l hl
  simp only [ne_eq, decide_eq_true_eq]
  omega

theorem tryLock (hs : LocksSound v) (h : v.tryLock f k = some v') (hf : f.ino < v.inodes.size)
    (hid : f.id < v.nextDescription) : LocksSound v' := by
  obtain ⟨hc, -⟩ := tryLock_eq_some h
  obtain ⟨-, hn, -, -⟩ := tryLock_keeps h
  have hl := locksOf_tryLock h hf
  constructor
  · intro j l hlj
    rw [hl, hn] at *
    by_cases hj : j = f.ino
    · subst hj
      rw [Function.update_self] at hlj
      rcases List.mem_cons.1 hlj with rfl | hlj
      · exact hid
      · exact hs.issued _ l (List.mem_of_mem_filter hlj)
    · rw [Function.update_of_ne hj] at hlj
      exact hs.issued j l hlj
  · intro j
    rw [hl]
    by_cases hj : j = f.ino
    · subst hj
      rw [Function.update_self]
      exact hc
    · rw [Function.update_of_ne hj]
      exact hs.compatible j

theorem close (hs : LocksSound v) (f : OpenFile) : LocksSound (v.close f) := by
  have hl := locksOf_close (v := v) f
  constructor
  · intro j l hlj
    rw [hl] at hlj
    by_cases hj : j = f.ino
    · subst hj
      rw [Function.update_self] at hlj
      exact hs.issued _ l (List.mem_of_mem_filter hlj)
    · rw [Function.update_of_ne hj] at hlj
      exact hs.issued j l hlj
  · intro j
    rw [hl]
    by_cases hj : j = f.ino
    · subst hj
      rw [Function.update_self]
      rcases hs.compatible f.ino with h1 | h2
      · exact .inl (Nat.le_trans (List.length_filter_le _ _) h1)
      · exact .inr fun x hx => h2 x (List.mem_of_mem_filter hx)
    · rw [Function.update_of_ne hj]
      exact hs.compatible j

end LocksSound

/-! ## Changes of the lock table -/

variable {v1 v2 : Volume}

/-- A change that takes no lock and gives none back: the lock table is as it
was, descriptions are only handed out, and every entry still names a file. -/
structure Keeps (v v' : Volume) : Prop where
  locks : v'.locksOf = v.locksOf
  next : v.nextDescription ≤ v'.nextDescription
  linked : Linked v'

/-- A change that takes one lock: description `f`, handed out by the change,
holds a lock of kind `k` on its file next to the locks that were there, which
allow it; nothing else of the table changes. -/
structure Grants (v : Volume) (f : OpenFile) (k : LockKind) (v' : Volume) : Prop where
  fresh : v.nextDescription ≤ f.id
  next : f.id < v'.nextDescription
  locks : v'.locksOf = Function.update v.locksOf f.ino ((f.id, k) :: v.locksOf f.ino)
  compatible : Compatible ((f.id, k) :: v.locksOf f.ino)
  linked : Linked v'

/-- No file a description holds a lock on has its bytes changed. -/
def SparesLocked (v v' : Volume) : Prop := ∀ j, v.locksOf j ≠ [] → v'.data j = v.data j

theorem Keeps.refl (hl : Linked v) : Keeps v v := ⟨rfl, Nat.le_refl _, hl⟩

theorem Keeps.trans (h1 : Keeps v v1) (h2 : Keeps v1 v2) : Keeps v v2 :=
  ⟨h2.locks.trans h1.locks, Nat.le_trans h1.next h2.next, h2.linked⟩

theorem Keeps.grants (h1 : Keeps v v1) (h2 : Grants v1 f k v2) : Grants v f k v2 where
  fresh := Nat.le_trans h1.next h2.fresh
  next := h2.next
  locks := h1.locks ▸ h2.locks
  compatible := h1.locks ▸ h2.compatible
  linked := h2.linked

theorem Grants.keeps (h1 : Grants v f k v1) (h2 : Keeps v1 v2) : Grants v f k v2 where
  fresh := h1.fresh
  next := Nat.lt_of_lt_of_le h1.next h2.next
  locks := h2.locks.trans h1.locks
  compatible := h1.compatible
  linked := h2.linked

theorem SparesLocked.refl (v : Volume) : SparesLocked v v := fun _ _ => rfl

/-- Sparing locked files composes when the first change takes no lock away. -/
theorem SparesLocked.trans (h1 : SparesLocked v v1) (h2 : SparesLocked v1 v2)
    (hl : ∀ j, v.locksOf j ≠ [] → v1.locksOf j ≠ []) : SparesLocked v v2 :=
  fun j hj => (h2 j (hl j hj)).trans (h1 j hj)

theorem Keeps.held (h : Keeps v v1) : ∀ j, v.locksOf j ≠ [] → v1.locksOf j ≠ [] := by
  intro j hj
  rwa [h.locks]

theorem Grants.held (h : Grants v f k v1) : ∀ j, v.locksOf j ≠ [] → v1.locksOf j ≠ [] := by
  intro j hj
  rw [h.locks]
  by_cases hjf : j = f.ino
  · subst hjf
    simp
  · rwa [Function.update_of_ne hjf]

/-- An exclusive lock is granted only on a file no one else holds. -/
theorem Grants.free (h : Grants v f .exclusive v1) : v.locksOf f.ino = [] := by
  rcases h.compatible with hc | hc
  · simpa using hc
  · exact absurd (hc _ List.mem_cons_self) (by simp)

theorem Grants.sound (hs : LocksSound v) (h : Grants v f k v1) : LocksSound v1 := by
  constructor
  · intro j l hlj
    rw [h.locks] at hlj
    by_cases hjf : j = f.ino
    · subst hjf
      rw [Function.update_self] at hlj
      rcases List.mem_cons.1 hlj with rfl | hlj
      · exact h.next
      · exact Nat.lt_of_lt_of_le (hs.issued _ l hlj) (Nat.le_trans h.fresh (Nat.le_of_lt h.next))
    · rw [Function.update_of_ne hjf] at hlj
      exact Nat.lt_of_lt_of_le (hs.issued j l hlj) (Nat.le_trans h.fresh (Nat.le_of_lt h.next))
  · intro j
    rw [h.locks]
    by_cases hjf : j = f.ino
    · subst hjf
      rw [Function.update_self]
      exact h.compatible
    · rw [Function.update_of_ne hjf]
      exact hs.compatible j

/-- Closing the description a change granted a lock to gives the table back. -/
theorem Grants.close (hs : LocksSound v) (h : Grants v f k v1) : Keeps v (v1.close f) where
  locks := by
    rw [locksOf_close, h.locks, Function.update_self, Function.update_idem, List.filter_cons,
      if_neg (by simp), hs.filter_fresh h.fresh, Function.update_eq_self]
  next := Nat.le_trans h.fresh (Nat.le_of_lt h.next)
  linked := h.linked.of_entries rfl (Nat.le_of_eq (size_close v1 f).symm)

theorem lt_size_of_locked {j : Nat} (hj : v.locksOf j ≠ []) : j < v.inodes.size :=
  Nat.lt_of_not_le fun h => hj (locksOf_of_size_le h)

/-- Two volumes that differ at most in files' bytes: the same entries,
descriptions, files and locks. -/
structure SameTable (v v' : Volume) : Prop where
  entries : v'.entries = v.entries
  next : v'.nextDescription = v.nextDescription
  size : v'.inodes.size = v.inodes.size
  locks : v'.locksOf = v.locksOf

theorem SameTable.refl (v : Volume) : SameTable v v := ⟨rfl, rfl, rfl, rfl⟩

theorem SameTable.trans (h1 : SameTable v v1) (h2 : SameTable v1 v2) : SameTable v v2 :=
  ⟨h2.entries.trans h1.entries, h2.next.trans h1.next, h2.size.trans h1.size,
    h2.locks.trans h1.locks⟩

theorem Frame.sameTable {ino : Nat} (h : Frame ino v v1) : SameTable v v1 :=
  ⟨h.entries, h.nextDescription, h.size, h.locksOf⟩

theorem SameTable.keeps (h : SameTable v v1) (hl : v.Linked) : Keeps v v1 :=
  ⟨h.locks, Nat.le_of_eq h.next.symm, hl.of_entries h.entries (Nat.le_of_eq h.size.symm)⟩

/-- A change within files' bytes keeps what a grant gave. -/
theorem Grants.table (h : Grants v f k v1) (ht : SameTable v1 v2) : Grants v f k v2 where
  fresh := h.fresh
  next := ht.next ▸ h.next
  locks := ht.locks.trans h.locks
  compatible := h.compatible
  linked := h.linked.of_entries ht.entries (Nat.le_of_eq ht.size.symm)

/-- A change that gives back the lock of description `f` and leaves the rest
of the lock table. -/
structure Releases (v : Volume) (f : OpenFile) (v' : Volume) : Prop where
  locks : v'.locksOf = (v.close f).locksOf
  next : v'.nextDescription = v.nextDescription
  linked : v'.Linked

theorem SameTable.releases (ht : SameTable v v1) (hl : v.Linked) (f : OpenFile) :
    Releases v f (v1.close f) where
  locks := by rw [locksOf_close, locksOf_close, ht.locks]
  next := ht.next
  linked := (hl.of_entries ht.entries (Nat.le_of_eq ht.size.symm)).of_entries rfl
    (Nat.le_of_eq (size_close v1 f).symm)

theorem Releases.sound (hs : LocksSound v) (h : Releases v f v1) : LocksSound v1 :=
  (hs.close f).of_locks h.locks (Nat.le_of_eq h.next.symm)

/-- A lock of another description survives the release. -/
theorem Releases.mem (h : Releases v f v1) {j : Nat} {l : Nat × LockKind}
    (hl : l ∈ v.locksOf j) (hid : l.1 ≠ f.id) : l ∈ v1.locksOf j := by
  rw [h.locks, locksOf_close]
  by_cases hj : j = f.ino
  · subst hj
    rw [Function.update_self]
    exact List.mem_filter.2 ⟨hl, by simpa using hid⟩
  · rw [Function.update_of_ne hj]
    exact hl

/-- A grant takes no lock away. -/
theorem Grants.mem (h : Grants v f k v1) {j : Nat} {l : Nat × LockKind} (hl : l ∈ v.locksOf j) :
    l ∈ v1.locksOf j := by
  rw [h.locks]
  by_cases hj : j = f.ino
  · subst hj
    rw [Function.update_self]
    exact List.mem_cons_of_mem _ hl
  · rw [Function.update_of_ne hj]
    exact hl

theorem Grants.mem_self (h : Grants v f k v1) : (f.id, k) ∈ v1.locksOf f.ino := by
  rw [h.locks, Function.update_self]
  exact List.mem_cons_self

/-- An exclusive lock granted stands alone on its file. -/
theorem Grants.alone (h : Grants v f .exclusive v1) : v1.locksOf f.ino = [(f.id, .exclusive)] := by
  rw [h.locks, Function.update_self, h.free]

end Volume

end HashFile
