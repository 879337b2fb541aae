import HashFile.Volume
import Mathlib

/-!
# What a path names

A path is resolved through directory entries alone: the directories it passes
through must be directories, and its leaf names what it names. So every fact
about what paths name follows from what each change does to the entries, and
a change that keeps every directory a directory (`KeepsDirs`) resolves every
path to the same place as before.

Opening a path to a file leaves the path naming that file, whether it was
there or made by the open (`stat_openPath`); a move leaves its target naming
the file its source named (`stat_rename`); and neither a move nor a removal
touches any file's bytes, mode or locks.
-/
namespace HashFile

/-! ## Steps of a checked operation -/

@[simp] theorem except_error_bind {ε α β : Type} (e : ε) (f : α → Except ε β) :
    (Except.error e >>= f) = Except.error e := rfl

@[simp] theorem except_ok_bind {ε α β : Type} (a : α) (f : α → Except ε β) :
    (Except.ok a >>= f) = f a := rfl

namespace Volume

variable {v v' v'' : Volume} {p q path : String} {e : Entry}

/-! ## Directory entries -/

theorem lookup_filter_ne (l : List (String × Entry)) (p q : String) :
    (l.filter fun x => x.1 ≠ p).lookup q = if q = p then none else l.lookup q := by
  induction l with
  | nil => simp
  | cons x l ih =>
    obtain ⟨r, f⟩ := x
    rw [List.filter_cons]
    by_cases hr : r = p
    · subst hr
      rw [if_neg (by simp), ih]
      by_cases hq : q = r
      · simp [hq]
      · have hb : (q == r) = false := by simpa using hq
        simp [List.lookup, hq, hb]
    · rw [if_pos (by simpa using hr)]
      cases hb : q == r with
      | true =>
        have hq : q = r := by simpa using hb
        subst hq
        simp [List.lookup, hr]
      | false =>
        simp only [List.lookup, hb]
        exact ih

@[simp] theorem entries_setLayout (d : String) (l : DirLayout) :
    (v.setLayout d l).entries = v.entries := rfl

@[simp] theorem inodes_setLayout (d : String) (l : DirLayout) :
    (v.setLayout d l).inodes = v.inodes := rfl

@[simp] theorem entries_addRecord : (v.addRecord p).entries = v.entries := by
  unfold addRecord
  split
  rfl

@[simp] theorem inodes_addRecord : (v.addRecord p).inodes = v.inodes := by
  unfold addRecord
  split
  rfl

@[simp] theorem nextDescription_addRecord :
    (v.addRecord p).nextDescription = v.nextDescription := by
  unfold addRecord
  split
  rfl

@[simp] theorem entries_bind :
    (v.bind p e).entries = (p, e) :: v.entries.filter fun x => x.1 ≠ p := by
  unfold bind
  dsimp only
  split <;> simp

@[simp] theorem inodes_bind : (v.bind p e).inodes = v.inodes := by
  unfold bind
  dsimp only
  split <;> simp

@[simp] theorem nextDescription_bind : (v.bind p e).nextDescription = v.nextDescription := by
  unfold bind
  dsimp only
  split <;> simp

@[simp] theorem entries_unbind : (v.unbind p).entries = v.entries.filter fun x => x.1 ≠ p := by
  unfold unbind
  split
  rfl

@[simp] theorem inodes_unbind : (v.unbind p).inodes = v.inodes := by
  unfold unbind
  split
  rfl

@[simp] theorem nextDescription_unbind : (v.unbind p).nextDescription = v.nextDescription := by
  unfold unbind
  split
  rfl

theorem ne_root_of_not_dir (h : v.entry? p ≠ some .directory) : p ≠ "" := by
  rintro rfl
  exact h rfl

theorem entry?_bind (hp : p ≠ "") :
    Volume.entry? (v.bind p e) q = if q = p then some e else v.entry? q := by
  unfold entry?
  rw [entries_bind]
  by_cases hq : q = p
  · subst hq
    rw [if_neg hp, if_pos rfl]
    simp [List.lookup]
  · rw [if_neg hq]
    split
    · rfl
    · have hb : (q == p) = false := by simpa using hq
      simp only [List.lookup, hb]
      rw [lookup_filter_ne, if_neg hq]

theorem entry?_unbind (hp : p ≠ "") :
    Volume.entry? (v.unbind p) q = if q = p then none else v.entry? q := by
  unfold entry?
  rw [entries_unbind, lookup_filter_ne]
  by_cases hq : q = p
  · subst hq
    rw [if_neg hp, if_pos rfl, if_pos rfl]
  · rw [if_neg hq, if_neg hq]

/-! ## Directories kept -/

/-- Every path that names a directory in `v` names one in `v'`. -/
def KeepsDirs (v v' : Volume) : Prop :=
  ∀ p, v.entry? p = some .directory → v'.entry? p = some .directory

theorem KeepsDirs.refl (v : Volume) : KeepsDirs v v := fun _ h => h

theorem KeepsDirs.trans (h1 : KeepsDirs v v') (h2 : KeepsDirs v' v'') : KeepsDirs v v'' :=
  fun p h => h2 p (h1 p h)

/-- Binding a path that is no directory keeps every directory. -/
theorem keepsDirs_bind (hp : v.entry? p ≠ some .directory) : KeepsDirs v (v.bind p e) := by
  intro q hq
  have hqp : q ≠ p := by
    rintro rfl
    exact hp hq
  rw [entry?_bind (ne_root_of_not_dir hp), if_neg hqp]
  exact hq

/-- Unbinding a path that is no directory keeps every directory. -/
theorem keepsDirs_unbind (hp : v.entry? p ≠ some .directory) : KeepsDirs v (v.unbind p) := by
  intro q hq
  have hqp : q ≠ p := by
    rintro rfl
    exact hp hq
  rw [entry?_unbind (ne_root_of_not_dir hp), if_neg hqp]
  exact hq

theorem lookup_of_keepsDirs (hk : KeepsDirs v v') {acc : List String} {c : String}
    (h : v.lookup acc c = .ok (some .directory)) : v'.lookup acc c = .ok (some .directory) := by
  unfold lookup at *
  split
  · rw [if_pos ‹_›] at h
    cases h
  · rw [if_neg ‹_›] at h
    rw [hk _ (Except.ok.inj h)]

theorem checkDirs_go_of_keepsDirs (hk : KeepsDirs v v') {acc ds : List String}
    (h : checkDirs.go v acc ds = .ok ()) : checkDirs.go v' acc ds = .ok () := by
  induction ds generalizing acc with
  | nil => rfl
  | cons c rest ih =>
    simp only [checkDirs.go] at h ⊢
    split at h
    · cases h
    · rename_i hl
      rw [lookup_of_keepsDirs hk hl]
      exact ih h
    · cases h
    · cases h

/-- What locating a path checks. -/
theorem locate_eq_ok {t : Target} : v.locate path = .ok t ↔
    path.contains (Char.ofNat 0) = false ∧ path.utf8ByteSize < pathLimit ∧
      Target.parse path = some t ∧ v.checkDirs t.dirs = .ok () := by
  unfold locate
  by_cases h0 : path.contains (Char.ofNat 0) = true
  · simp [h0, throw, throwThe, MonadExceptOf.throw]
  by_cases h1 : pathLimit ≤ path.utf8ByteSize
  · simp only [h0, h1, throw, throwThe, MonadExceptOf.throw]
    simp only [Bool.false_eq_true, if_false, if_true, except_error_bind, reduceCtorEq, false_iff]
    omega
  cases hp : Target.parse path with
  | none => simp [h0, h1, throw, throwThe, MonadExceptOf.throw]
  | some t' =>
    have hlt : path.utf8ByteSize < pathLimit := by omega
    simp only [h0, h1, Bool.false_eq_true, if_false, Option.some.injEq, hlt, true_and]
    cases hc : v.checkDirs t'.dirs with
    | error f =>
      simp only [except_error_bind, reduceCtorEq, false_iff]
      rintro ⟨rfl, h⟩
      rw [hc] at h
      cases h
    | ok u =>
      show Except.ok t' = Except.ok t ↔ _
      rw [Except.ok.injEq]
      constructor
      · rintro rfl
        exact ⟨rfl, hc⟩
      · rintro ⟨rfl, -⟩
        rfl

theorem locate_of_keepsDirs (hk : KeepsDirs v v') {t : Target} (h : v.locate path = .ok t) :
    v'.locate path = .ok t := by
  obtain ⟨h0, h1, hp, hc⟩ := locate_eq_ok.1 h
  exact locate_eq_ok.2 ⟨h0, h1, hp, checkDirs_go_of_keepsDirs hk hc⟩

/-! ## What a path names -/

theorem find_eq_ok {t : Target} {n : String} {o : Option Entry} :
    t.find v n = .ok o ↔ n.utf8ByteSize ≤ nameLimit ∧ v.entry? (t.leafPath n) = o := by
  unfold Target.find lookup Target.leafPath
  split
  · simp only [reduceCtorEq, false_iff, not_and]
    omega
  · rename_i hn
    simp only [Except.ok.injEq, iff_and_self]
    intro
    omega

theorem stat_of_find {t : Target} {n : String} {ino : Nat} (hl : v.locate path = .ok t)
    (hleaf : t.leaf = .name n false) (hf : t.find v n = .ok (some (.file ino))) :
    v.stat path = .ok (.file ino) := by
  unfold stat
  rw [hl, except_ok_bind, hleaf]
  simp only [hf, except_ok_bind]
  rfl

/-- How an open reaches a file: the file the path names, or a new one made at
the path's leaf. Either way the path names a file and not a directory. -/
theorem openPath_eq_file {a : Access} {f : OpenFile} (h : v.openPath path a = .ok (.file f, v')) :
    ∃ t n, v.locate path = .ok t ∧ t.leaf = .name n false ∧
      ((t.find v n = .ok (some (.file f.ino)) ∧ v.describe f.ino = (f, v')) ∨
        ∃ mode, t.find v n = .ok none ∧ a.creates = some mode ∧ f.ino = v.inodes.size ∧
          (v.createFile (t.leafPath n) mode).2.describe f.ino = (f, v')) := by
  unfold openPath at h
  cases hl : v.locate path with
  | error e =>
    rw [hl] at h
    cases h
  | ok t =>
    rw [hl, except_ok_bind] at h
    refine ⟨t, ?_⟩
    cases hleaf : t.leaf with
    | here =>
      rw [hleaf] at h
      dsimp only at h
      split at h <;> cases h
    | name n slash =>
      rw [hleaf] at h
      dsimp only at h
      refine ⟨n, rfl, ?_⟩
      split at h
      · cases h
      rename_i hcs
      cases hf : t.find v n with
      | error e =>
        rw [hf] at h
        cases h
      | ok o =>
        rw [hf, except_ok_bind] at h
        rcases o with _ | ⟨ino | _⟩
        · cases hc : a.creates with
          | none =>
            rw [hc] at h
            cases h
          | some mode =>
            rw [hc] at h
            simp only [createFile, describe] at h
            cases h
            have hs : slash = false := by simpa [hc] using hcs
            exact ⟨hs ▸ rfl, .inr ⟨mode, rfl, rfl, rfl, rfl⟩⟩
        · dsimp only at h
          split at h
          · cases h
          split at h
          · cases h
          rename_i hs _
          simp only [describe] at h
          cases h
          exact ⟨by simpa using hs, .inl ⟨rfl, rfl⟩⟩
        · dsimp only at h
          split at h <;> cases h

@[simp] theorem entries_describe (ino : Nat) : (v.describe ino).2.entries = v.entries := rfl

theorem entries_createFile (mode : Nat) :
    (v.createFile p mode).2.entries = (v.bind p (.file v.inodes.size)).entries := rfl

theorem lookup_of_entries (h : v'.entries = v.entries) (acc : List String) (c : String) :
    v'.lookup acc c = v.lookup acc c := by
  unfold lookup entry?
  rw [h]

theorem checkDirs_go_of_entries (h : v'.entries = v.entries) (acc ds : List String) :
    checkDirs.go v' acc ds = checkDirs.go v acc ds := by
  induction ds generalizing acc with
  | nil => rfl
  | cons c rest ih => simp only [checkDirs.go, lookup_of_entries h, ih]

theorem locate_of_entries (h : v'.entries = v.entries) (path : String) :
    v'.locate path = v.locate path := by
  simp only [locate, checkDirs, checkDirs_go_of_entries h]

/-- What a path names depends on the directory entries alone. -/
theorem stat_eq_of_entries (h : v'.entries = v.entries) (path : String) :
    v'.stat path = v.stat path := by
  simp only [stat, locate_of_entries h, Target.find, lookup_of_entries h]

/-- An open that reaches a directory changes nothing. -/
theorem openPath_eq_directory {a : Access} (h : v.openPath path a = .ok (.directory, v')) :
    v' = v := by
  unfold openPath at h
  cases hl : v.locate path with
  | error e =>
    rw [hl] at h
    cases h
  | ok t =>
    rw [hl, except_ok_bind] at h
    cases hleaf : t.leaf with
    | here =>
      rw [hleaf] at h
      dsimp only at h
      split at h
      · cases h
      · cases h
        rfl
    | name n slash =>
      rw [hleaf] at h
      dsimp only at h
      split at h
      · cases h
      cases hf : t.find v n with
      | error e =>
        rw [hf] at h
        cases h
      | ok o =>
        rw [hf, except_ok_bind] at h
        rcases o with _ | ⟨ino | _⟩
        · cases hc : a.creates with
          | none =>
            rw [hc] at h
            cases h
          | some mode =>
            rw [hc] at h
            simp only [createFile, describe] at h
            cases h
        · dsimp only at h
          split at h
          · cases h
          split at h
          · cases h
          simp only [describe] at h
          cases h
        · dsimp only at h
          split at h
          · cases h
          · cases h
            rfl

/-- A path opened to a file names that file afterwards. -/
theorem stat_openPath {a : Access} {f : OpenFile} (h : v.openPath path a = .ok (.file f, v')) :
    v'.stat path = .ok (.file f.ino) := by
  obtain ⟨t, n, hl, hleaf, ⟨hf, hd⟩ | ⟨mode, hf, -, hino, hd⟩⟩ := openPath_eq_file h
  · obtain rfl : (v.describe f.ino).2 = v' := congrArg Prod.snd hd
    rw [stat_eq_of_entries (entries_describe _)]
    exact stat_of_find hl hleaf hf
  · obtain rfl : ((v.createFile (t.leafPath n) mode).2.describe f.ino).2 = v' := congrArg Prod.snd hd
    have hn := find_eq_ok.1 hf
    have hnd : v.entry? (t.leafPath n) ≠ some .directory := by
      rw [hn.2]
      simp
    rw [stat_eq_of_entries ((entries_describe _).trans (entries_createFile mode))]
    refine stat_of_find (locate_of_keepsDirs (keepsDirs_bind hnd) hl) hleaf (find_eq_ok.2 ⟨hn.1, ?_⟩)
    rw [entry?_bind (ne_root_of_not_dir hnd), if_pos rfl, hino]

/-- The file an open reaches is the one the path named, or a new one numbered
past every file of the volume, all of which it keeps. -/
theorem openPath_file_source {a : Access} {f : OpenFile}
    (h : v.openPath path a = .ok (.file f, v')) :
    (v.stat path = .ok (.file f.ino) ∨ f.ino = v.inodes.size) ∧ v.inodes.size ≤ v'.inodes.size := by
  obtain ⟨t, n, hl, hleaf, ⟨hf, hd⟩ | ⟨mode, -, -, hino, hd⟩⟩ := openPath_eq_file h
  · obtain rfl : (v.describe f.ino).2 = v' := congrArg Prod.snd hd
    exact ⟨.inl (stat_of_find hl hleaf hf), Nat.le_refl _⟩
  · obtain rfl : ((v.createFile (t.leafPath n) mode).2.describe f.ino).2 = v' := congrArg Prod.snd hd
    refine ⟨.inr hino, ?_⟩
    simp [describe, createFile]

/-- The path names no file, or a file other than `ino`: an open of it reaches
another file. -/
def Apart (v : Volume) (path : String) (ino : Nat) : Prop :=
  ∀ j, v.stat path = .ok (.file j) → j ≠ ino

theorem Apart.of_entries {ino : Nat} (h : v.Apart path ino) (he : v'.entries = v.entries) :
    v'.Apart path ino := fun j hj => h j (by rw [← stat_eq_of_entries he]; exact hj)

/-- An open of a path apart from `ino` reaches another file than `ino`, when the
volume has the file `ino`. -/
theorem Apart.openPath {ino : Nat} {a : Access} {f : OpenFile} (h : v.Apart path ino)
    (hino : ino < v.inodes.size) (ho : v.openPath path a = .ok (.file f, v')) : f.ino ≠ ino := by
  rcases (openPath_file_source ho).1 with hs | hs
  · exact h _ hs
  · omega

/-- What a successful move checks and does: both paths lead to a name, the
source names a file and the target no directory; the target is bound to the
file before the source's entry goes. -/
theorem rename_eq_ok {src dst : String} (h : v.rename src dst = .ok v') :
    ∃ s d n m ino o, v.locate src = .ok s ∧ v.locate dst = .ok d ∧
      s.leaf = .name n false ∧ d.leaf = .name m false ∧
      s.find v n = .ok (some (.file ino)) ∧ d.find v m = .ok o ∧ o ≠ some .directory ∧
      v' = if s.leafPath n = d.leafPath m then v
        else (v.bind (d.leafPath m) (.file ino)).unbind (s.leafPath n) := by
  unfold rename at h
  cases hs : v.locate src with
  | error e =>
    rw [hs] at h
    cases h
  | ok s =>
    cases hd : v.locate dst with
    | error e =>
      rw [hs, hd] at h
      cases h
    | ok d =>
      rw [hs, hd] at h
      simp only [except_ok_bind] at h
      refine ⟨s, d, ?_⟩
      cases hsl : s.leaf with
      | here =>
        rw [hsl] at h
        cases h
      | name n slash =>
        cases hdl : d.leaf with
        | here =>
          rw [hsl, hdl] at h
          cases h
        | name m slash' =>
          rw [hsl, hdl] at h
          dsimp only at h
          cases hf : s.find v n with
          | error e =>
            rw [hf] at h
            cases h
          | ok o1 =>
            rw [hf, except_ok_bind] at h
            rcases o1 with _ | ⟨ino | _⟩
            · cases h
            · dsimp only at h
              split at h
              · cases h
              rename_i hsl'
              have hslash : slash = false ∧ slash' = false := by simpa using hsl'
              cases hg : d.find v m with
              | error e =>
                rw [hg] at h
                cases h
              | ok o =>
                rw [hg, except_ok_bind] at h
                have ho : o ≠ some .directory := by
                  rintro rfl
                  cases h
                refine ⟨n, m, ino, o, rfl, rfl, by rw [hslash.1], by rw [hslash.2], hf, hg, ho, ?_⟩
                split at h
                · exact absurd rfl ho
                · split at h <;> rename_i hp <;> cases h <;> simp [hp]
            · cases h

/-- After a move the target names the file the source named. -/
theorem stat_rename {src dst : String} (h : v.rename src dst = .ok v') :
    ∃ ino, v.stat src = .ok (.file ino) ∧ v'.stat dst = .ok (.file ino) := by
  obtain ⟨s, d, n, m, ino, o, hs, hd, hsl, hdl, hf, hg, ho, rfl⟩ := rename_eq_ok h
  refine ⟨ino, stat_of_find hs hsl hf, ?_⟩
  have hsn := find_eq_ok.1 hf
  have hdn := find_eq_ok.1 hg
  split
  · rename_i hp
    exact stat_of_find hd hdl (find_eq_ok.2 ⟨hdn.1, hp ▸ hsn.2⟩)
  · rename_i hp
    have hdd : v.entry? (d.leafPath m) ≠ some .directory := hdn.2 ▸ ho
    have hsd : Volume.entry? (v.bind (d.leafPath m) (.file ino)) (s.leafPath n) ≠ some .directory := by
      rw [entry?_bind (ne_root_of_not_dir hdd), if_neg hp, hsn.2]
      simp
    have hk : KeepsDirs v ((v.bind (d.leafPath m) (.file ino)).unbind (s.leafPath n)) :=
      (keepsDirs_bind hdd).trans (keepsDirs_unbind hsd)
    refine stat_of_find (locate_of_keepsDirs hk hd) hdl (find_eq_ok.2 ⟨hdn.1, ?_⟩)
    rw [entry?_unbind (ne_root_of_not_dir hsd), if_neg (Ne.symm hp),
      entry?_bind (ne_root_of_not_dir hdd), if_pos rfl]

/-- A move changes entries only: no file's bytes, mode or locks. -/
theorem rename_inodes {src dst : String} (h : v.rename src dst = .ok v') :
    v'.inodes = v.inodes ∧ v'.nextDescription = v.nextDescription := by
  obtain ⟨s, d, n, m, ino, o, -, -, -, -, -, -, -, rfl⟩ := rename_eq_ok h
  split <;> simp

/-- What a successful removal does: the path names a file, and its entry goes. -/
theorem removeFile_eq_ok (h : v.removeFile path = .ok v') :
    ∃ p ino, v.entry? p = some (.file ino) ∧ v' = v.unbind p := by
  unfold removeFile at h
  cases hl : v.locate path with
  | error e =>
    rw [hl] at h
    cases h
  | ok t =>
    rw [hl, except_ok_bind] at h
    cases hleaf : t.leaf with
    | here =>
      rw [hleaf] at h
      cases h
    | name n slash =>
      rw [hleaf] at h
      dsimp only at h
      cases hf : t.find v n with
      | error e =>
        rw [hf] at h
        cases h
      | ok o =>
        rw [hf, except_ok_bind] at h
        rcases o with _ | ⟨ino | _⟩
        · cases h
        · dsimp only at h
          split at h
          · cases h
          · cases h
            exact ⟨t.leafPath n, ino, (find_eq_ok.1 hf).2, rfl⟩
        · cases h

/-- Removing a file takes an entry away and nothing else. -/
theorem removeFile_inodes (h : v.removeFile path = .ok v') :
    v'.inodes = v.inodes ∧ v'.nextDescription = v.nextDescription := by
  obtain ⟨p, ino, -, rfl⟩ := removeFile_eq_ok h
  simp

/-! ## Entries name files that exist -/

/-- Every entry names a file the volume has. -/
def Linked (v : Volume) : Prop :=
  ∀ p ino, v.entry? p = some (.file ino) → ino < v.inodes.size

theorem Linked.empty : Linked empty := by
  intro p ino hp
  unfold entry? at hp
  split at hp <;> cases hp

theorem Linked.of_entries (hl : Linked v) (he : v'.entries = v.entries)
    (hs : v.inodes.size ≤ v'.inodes.size) : Linked v' := by
  intro p ino hp
  have hp' : v.entry? p = some (.file ino) := by
    unfold entry? at *
    rwa [he] at hp
  exact Nat.lt_of_lt_of_le (hl p ino hp') hs

theorem Linked.bind (hl : Linked v) (hp : p ≠ "") {ino : Nat} (hi : ino < v.inodes.size) :
    Linked (v.bind p (.file ino)) := by
  intro q j hq
  rw [entry?_bind hp] at hq
  rw [inodes_bind]
  split at hq
  · cases hq
    exact hi
  · exact hl q j hq

theorem Linked.unbind (hl : Linked v) (hp : p ≠ "") : Linked (v.unbind p) := by
  intro q j hq
  rw [entry?_unbind hp] at hq
  rw [inodes_unbind]
  split at hq
  · cases hq
  · exact hl q j hq

theorem Linked.rename {src dst : String} (hl : Linked v) (h : v.rename src dst = .ok v') :
    Linked v' := by
  obtain ⟨s, d, n, m, ino, o, -, -, -, -, hf, hg, ho, rfl⟩ := rename_eq_ok h
  split
  · exact hl
  · rename_i hp
    have hsn := find_eq_ok.1 hf
    have hdd : v.entry? (d.leafPath m) ≠ some .directory := (find_eq_ok.1 hg).2 ▸ ho
    have hsd : Volume.entry? (v.bind (d.leafPath m) (.file ino)) (s.leafPath n) ≠ some .directory := by
      rw [entry?_bind (ne_root_of_not_dir hdd), if_neg hp, hsn.2]
      simp
    exact (hl.bind (ne_root_of_not_dir hdd) (hl _ _ hsn.2)).unbind (ne_root_of_not_dir hsd)

theorem Linked.removeFile (hl : Linked v) (h : v.removeFile path = .ok v') : Linked v' := by
  obtain ⟨p, ino, hp, rfl⟩ := removeFile_eq_ok h
  exact hl.unbind (ne_root_of_not_dir (by rw [hp]; simp))

/-- An open reaches a file the volume has, and every entry still does. -/
theorem Linked.openPath {a : Access} {f : OpenFile} (hl : Linked v)
    (h : v.openPath path a = .ok (.file f, v')) : Linked v' ∧ f.ino < v'.inodes.size := by
  obtain ⟨t, n, -, -, ⟨hf, hd⟩ | ⟨mode, hf, -, hino, hd⟩⟩ := openPath_eq_file h
  · obtain rfl : (v.describe f.ino).2 = v' := congrArg Prod.snd hd
    exact ⟨hl, hl _ _ (find_eq_ok.1 hf).2⟩
  · obtain rfl : ((v.createFile (t.leafPath n) mode).2.describe f.ino).2 = v' := congrArg Prod.snd hd
    have hnd : v.entry? (t.leafPath n) ≠ some .directory := by
      rw [(find_eq_ok.1 hf).2]
      simp
    refine ⟨fun q j hq => ?_, by simp [describe, createFile, hino]⟩
    have hq' : Volume.entry? (v.bind (t.leafPath n) (.file v.inodes.size)) q = some (.file j) := hq
    rw [entry?_bind (ne_root_of_not_dir hnd)] at hq'
    simp only [describe, createFile, Array.size_push]
    split at hq'
    · cases hq'
      omega
    · have := hl q j hq'
      omega

end Volume

end HashFile
