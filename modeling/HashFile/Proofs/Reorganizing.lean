import HashFile.Proofs.Copying
import HashFile.Proofs.Growth

/-!
# Reorganizing keeps the records

A reorganize flushes the index, copies its records into a new file at the
copy's path and moves the copy over the database's path. Every record reaches
the copy (`Index.Ready.copyInto`), and the move and the closing of the old
description change entries and locks only, so a reorganize that answers leaves
a sound index on the same path that answers every lookup as before, with the
same block size and sync mode (`Index.Ready.reorganizeIn`). A failure that is
not an overflow leaves the old index ready and reading as before, and removes
whatever the copy's path names as a file.

The copy's path is the database's with `.reorg` added. The move takes it away
only when the two paths name different entries: a path moved onto itself
stays (`Volume.stat_rename_src`).
-/

namespace HashFile

namespace Volume

variable {v v' : Volume} {path : String} {t : Target} {n : String} {j : Nat}

/-! ## What is left at a path -/

/-- A path names a file only through the entry of its named leaf. -/
theorem stat_eq_file (h : v.stat path = .ok (.file j)) :
    ∃ t n, v.locate path = .ok t ∧ t.leaf = .name n false ∧ t.find v n = .ok (some (.file j)) := by
  unfold stat at h
  cases hl : v.locate path with
  | error e =>
    rw [hl] at h
    cases h
  | ok t =>
    rw [hl, except_ok_bind] at h
    cases hleaf : t.leaf with
    | here =>
      rw [hleaf] at h
      cases h
    | name n slash =>
      rw [hleaf] at h
      dsimp only at h
      cases hf : t.find v n with
      | error e =>
        rw [hf] at h
        cases h
      | ok o =>
        rw [hf, except_ok_bind] at h
        rcases o with _ | ⟨ino | _⟩
        · cases h
        · cases slash
          · cases h
            exact ⟨t, n, rfl, hleaf, hf⟩
          · cases h
        · cases h

/-- A file a path names can be removed, which unbinds the path's leaf. -/
theorem removeFile_of_find (hl : v.locate path = .ok t) (hleaf : t.leaf = .name n false)
    (hf : t.find v n = .ok (some (.file j))) : v.removeFile path = .ok (v.unbind (t.leafPath n)) := by
  unfold removeFile
  rw [hl, except_ok_bind, hleaf]
  simp only [hf, except_ok_bind]
  rfl

/-- Only a path that names a file can be removed. -/
theorem stat_of_removeFile (h : v.removeFile path = .ok v') : ∃ ino, v.stat path = .ok (.file ino) := by
  unfold removeFile at h
  cases hl : v.locate path with
  | error e =>
    rw [hl] at h
    cases h
  | ok t =>
    rw [hl, except_ok_bind] at h
    cases hleaf : t.leaf with
    | here =>
      rw [hleaf] at h
      cases h
    | name n slash =>
      rw [hleaf] at h
      dsimp only at h
      cases hf : t.find v n with
      | error e =>
        rw [hf] at h
        cases h
      | ok o =>
        rw [hf, except_ok_bind] at h
        rcases o with _ | ⟨ino | _⟩
        · cases h
        · cases slash
          · exact ⟨ino, stat_of_find hl hleaf hf⟩
          · cases h
        · cases h

/-- Once the leaf of a path is unbound, the path names no file. -/
theorem stat_unbind_leaf {s : Bool} (hp : Target.parse path = some t) (hleaf : t.leaf = .name n s) :
    (v.unbind (t.leafPath n)).stat path ≠ .ok (.file j) := by
  intro h
  obtain ⟨t', n', hl, hleaf', hf⟩ := stat_eq_file h
  obtain ⟨-, -, hp', -⟩ := locate_eq_ok.1 hl
  rw [hp, Option.some.injEq] at hp'
  subst hp'
  rw [hleaf, Leaf.name.injEq] at hleaf'
  obtain ⟨rfl, -⟩ := hleaf'
  have he := (find_eq_ok.1 hf).2
  by_cases h0 : t.leafPath n = ""
  · rw [h0] at he
    unfold entry? at he
    simp at he
  · rw [entry?_unbind h0, if_pos rfl] at he
    cases he

/-- After a removal that may fail, the path names no file: a path that named
one is removed. -/
theorem stat_discard (v : Volume) (path : String) : (Index.discard v path).stat path ≠ .ok (.file j) := by
  unfold Index.discard
  cases hr : v.removeFile path with
  | error f =>
    intro h
    obtain ⟨t, n, hl, hleaf, hf⟩ := stat_eq_file h
    rw [removeFile_of_find hl hleaf hf] at hr
    cases hr
  | ok v' =>
    obtain ⟨ino, hs⟩ := stat_of_removeFile hr
    obtain ⟨t, n, hl, hleaf, hf⟩ := stat_eq_file hs
    rw [removeFile_of_find hl hleaf hf, Except.ok.injEq] at hr
    subst hr
    exact stat_unbind_leaf (locate_eq_ok.1 hl).2.2.1 hleaf

/-- A path that names a directory is not opened to write. -/
theorem openPath_of_directory {a : Access} (hd : v.stat path = .ok .directory)
    (hw : a.writes = true) : v.openPath path a = .error .isDirectory := by
  unfold stat at hd
  unfold openPath
  cases hl : v.locate path with
  | error e =>
    rw [hl] at hd
    cases hd
  | ok t =>
    rw [hl, except_ok_bind] at hd
    rw [except_ok_bind]
    cases hleaf : t.leaf with
    | here =>
      simp only [hw, if_true]
      rfl
    | name n slash =>
      rw [hleaf] at hd
      cases hf : t.find v n with
      | error e =>
        simp [hf] at hd
      | ok o =>
        rcases o with _ | ⟨ino | _⟩
        · simp [hf] at hd
        · cases slash <;> simp [hf, pure, Except.pure] at hd
        · cases slash <;> simp only [hf, hw, Bool.and_true, Bool.and_false, except_ok_bind] <;>
            split <;> rfl

/-- Nor is a directory removed as a file: a removal that may fail leaves the
volume as it was. -/
theorem discard_of_directory (hd : v.stat path = .ok .directory) : Index.discard v path = v := by
  unfold Index.discard
  cases hr : v.removeFile path with
  | error f => rfl
  | ok v' =>
    obtain ⟨ino, hs⟩ := stat_of_removeFile hr
    rw [hd] at hs
    cases hs

/-- The leaf path of a path that names a plain leaf, with no slash after it, is
its normal form: no trailing component was dropped, and the leaf is neither
empty nor `.`. -/
theorem normalize_eq_leafPath (hp : Target.parse path = some t) (hleaf : t.leaf = .name n false) :
    normalize path = t.leafPath n := by
  unfold Target.parse at hp
  split at hp
  · cases hp
  unfold normalize components Target.leafPath
  dsimp only at hp
  generalize path.splitOn "/" = parts at hp ⊢
  have hsuf : parts.reverse.dropWhile (· = "") <:+ parts.reverse := List.dropWhile_suffix _
  have hhead := List.head?_dropWhile_not (· = "") parts.reverse
  generalize parts.reverse.dropWhile (· = "") = back at hp hsuf hhead
  split at hp
  · cases hp
    cases hleaf
  · cases hp
    cases hleaf
  rename_i n' hn' hlast
  cases hp
  rw [Leaf.name.injEq, decide_eq_false_iff_not, Nat.not_lt, List.length_reverse] at hleaf
  obtain ⟨rfl, hlen⟩ := hleaf
  have hback : back = parts.reverse := hsuf.eq_of_length_le (by rw [List.length_reverse]; exact hlen)
  subst hback
  rw [List.reverse_reverse] at hlast
  rw [List.head?_reverse, hlast] at hhead
  have hne : n' ≠ "" := by simpa using hhead
  have hkeep : [n'].filter (fun c => decide (c ≠ "" ∧ c ≠ ".")) = [n'] :=
    List.filter_cons_of_pos (by simpa using ⟨hne, hn'⟩)
  obtain ⟨dirs, rfl⟩ := List.getLast?_eq_some_iff.1 hlast
  dsimp only
  rw [List.reverse_reverse, List.dropLast_concat, List.filter_append, hkeep]

/-- After a move between paths that name different entries, the source names
no file. -/
theorem stat_rename_src {src dst : String} (h : v.rename src dst = .ok v')
    (hne : normalize src ≠ normalize dst) : v'.stat src ≠ .ok (.file j) := by
  obtain ⟨s, d, n, m, ino, o, hs, hd, hsl, hdl, -, -, -, rfl⟩ := rename_eq_ok h
  have hsp := (locate_eq_ok.1 hs).2.2.1
  rw [normalize_eq_leafPath hsp hsl, normalize_eq_leafPath (locate_eq_ok.1 hd).2.2.1 hdl] at hne
  rw [if_neg hne]
  exact stat_unbind_leaf hsp hsl

@[simp] theorem data_setMode (ino mode i : Nat) : (v.setMode ino mode).data i = v.data i := by
  simp only [data, setMode, Array.getD_eq_getD_getElem?, Array.getElem?_modify]
  split
  · cases v.inodes[i]? <;> rfl
  · rfl

@[simp] theorem size_setMode (ino mode : Nat) : (v.setMode ino mode).inodes.size = v.inodes.size :=
  Array.size_modify ..

/-- A lock on a file no one has locked is granted, and is the file's only lock. -/
theorem tryLock_of_unlocked {f : OpenFile} {k : LockKind} (h : v.locksOf f.ino = []) :
    v.tryLock f k =
      some { v with inodes := v.inodes.modify f.ino fun n => { n with locks := [(f.id, k)] } } := by
  unfold tryLock
  unfold locksOf at h
  simp only [h, List.filter_nil]
  cases k <;> rfl

end Volume

namespace Index

variable {v v' : Volume} {ix ix' : Index}

/-! ## Putting the copy in place -/

/-- Putting the copy in place changes no file's bytes, and leaves the copy's
path naming no file when the two paths name different entries. -/
theorem install_data {copy : Nat} {target temp : String} (h : install v copy target temp = .ok v') :
    (∀ i, v'.data i = v.data i) ∧ v'.inodes.size = v.inodes.size ∧
      (Volume.normalize temp ≠ Volume.normalize target → ∀ j, v'.stat temp ≠ .ok (.file j)) := by
  unfold install at h
  rcases hst : v.stat target with f | e
  · rw [hst] at h
    cases h
  rw [hst, except_ok_bind] at h
  have hu : ∃ u : Volume, (∀ i, u.data i = v.data i) ∧ u.inodes.size = v.inodes.size ∧
      u.rename temp target = .ok v' := by
    cases e with
    | file ino =>
      exact ⟨v.setMode copy (v.mode ino), Volume.data_setMode _ _, Volume.size_setMode _ _, h⟩
    | directory => exact ⟨v, fun _ => rfl, rfl, h⟩
  obtain ⟨u, hd, hsz, hr⟩ := hu
  have hi := (Volume.rename_inodes hr).1
  refine ⟨fun i => ?_, by rw [hi, hsz], fun hne j => Volume.stat_rename_src hr hne⟩
  rw [← hd i]
  simp only [Volume.data, hi]

@[simp] theorem inodes_discard (v : Volume) (path : String) : (discard v path).inodes = v.inodes := by
  unfold discard
  split
  · rename_i v1 h
    exact (Volume.removeFile_inodes h).1
  · rfl

@[simp] theorem image_discard (path : String) : image (discard v path) ix = image v ix :=
  image_of_disk (by simp only [disk, Volume.data, inodes_discard])

theorem Ready.discard (hr : Ready v ix) (path : String) : Ready (discard v path) ix :=
  hr.of_disk (by simp only [disk, Volume.data, inodes_discard])
    (by rw [inodes_discard]; exact hr.sound.coherent.ino_lt)

/-! ## The flush first -/

/-- A flush of a ready index runs, and leaves it ready with the same image. -/
theorem Ready.flush (hr : Ready v ix) :
    ∃ v' ix', Runs Index.flush (v, ix) () (v', ix') ∧ Ready v' ix' ∧
      (image v ix).Agree (image v' ix') := by
  obtain ⟨⟨v', ix'⟩, hfl⟩ := hr.sound.flush_runs hr.frontier
  obtain ⟨hs', hag, -, -⟩ := hr.sound.flush hfl
  refine ⟨v', ix', hfl, hr.of_retains hs' (fun e he => ?_) (retains_flush _ _ _ hfl), hag⟩
  rwa [hag.slots] at he

/-- A contained change keeps the volume's entries linked and the copy's path
apart from the index's file: it binds no path and keeps the file. -/
theorem Contained.linked_apart (hc : Contained (v, ix) (v', ix')) (hl : v.Linked)
    (hsep : v.Apart (copyPath ix.file.path) ix.file.handle.ino) :
    v'.Linked ∧ v'.Apart (copyPath ix'.file.path) ix'.file.handle.ino := by
  have hf := hc.1.frame
  refine ⟨hl.of_entries hf.entries (Nat.le_of_eq hf.size.symm), ?_⟩
  rw [hc.sameFile.2.2.1, hc.1.handle]
  exact hsep.of_entries hf.entries

/-- The flush that starts a reorganize of a ready index keeps the index ready on
its file with the same image, the volume's entries linked and the copy's path
apart from the index's file. -/
theorem Ready.flush_apart (hr : Ready v ix) (hl : v.Linked)
    (hsep : v.Apart (copyPath ix.file.path) ix.file.handle.ino) :
    ∃ v' ix', Runs Index.flush (v, ix) () (v', ix') ∧ Ready v' ix' ∧
      (image v ix).Agree (image v' ix') ∧ SameFile ix ix' ∧ v'.Linked ∧
      v'.Apart (copyPath ix'.file.path) ix'.file.handle.ino := by
  obtain ⟨v1, ix1, hfl, hr1, hag1⟩ := hr.flush
  have hc1 := confined_flush.run_contained (run_eq_of_runs hfl)
  exact ⟨v1, ix1, hfl, hr1, hag1, hc1.sameFile, hc1.linked_apart hl hsep⟩

/-- A sound copy put in place of the database file, with the old file closed,
is sound under the database's path, options and sync mode: the move and the
close change entries and locks only. -/
theorem Sound.installed {fresh u : Index} {v3 : Volume} {home temp : String}
    {o : OpenOptions} {b : Bool} (hs : Sound v fresh)
    (h : install v fresh.file.handle.ino home temp = .ok v3) :
    (u.release v3).data fresh.file.handle.ino = v.data fresh.file.handle.ino ∧
      Sound (u.release v3)
        { fresh with file := { fresh.file with path := home }, syncMode := b, options := o } := by
  obtain ⟨hd3, hsz3, -⟩ := install_data h
  have hd : (u.release v3).data fresh.file.handle.ino = v.data fresh.file.handle.ino :=
    (Volume.data_close _ _ _).trans (hd3 _)
  have hsz : fresh.file.handle.ino < (u.release v3).inodes.size := by
    rw [release, Volume.size_close, hsz3]
    exact hs.coherent.ino_lt
  exact ⟨hd, (hs.of_disk hd hsz).of_parts rfl rfl rfl rfl rfl rfl⟩

/-- One state has the sync mode of another. -/
def SameSync (s s' : Volume × Index) : Prop := s'.2.syncMode = s.2.syncMode

instance : Std.Refl SameSync := ⟨fun _ => rfl⟩

instance : IsTrans (Volume × Index) SameSync := ⟨fun _ _ _ h1 h2 => h2.trans h1⟩

theorem sameSync_current : Leads SameSync current := Leads.of_eq fun _ _ _ h => (runs_current.1 h).2

theorem sameSync_writeAt (off : Nat) (bytes : ByteArray) : Leads SameSync (writeAt off bytes) := by
  intro s a s' h
  obtain ⟨-, -, rfl⟩ := runs_writeAt.1 h
  rfl

theorem sameSync_modifyIndex {f : Index → Index} (hf : ∀ ix, (f ix).syncMode = ix.syncMode) :
    Leads SameSync (modifyIndex f) := by
  rintro ⟨v, ix⟩ a s' h
  rw [runs_modifyIndex] at h
  subst h
  exact hf ix

theorem sameSync_writeHeader : Leads SameSync writeHeader := by
  intro s a s' h
  rcases runs_writeHeader.1 h with ⟨-, rfl⟩ | ⟨-, -, block, -, -, rfl⟩ <;> rfl

/-- A flush writes the cache, the directory and the header back, and marks
them clean; the sync mode stays. -/
theorem sameSync_flush : Leads SameSync flush := by
  unfold flush
  refine sameSync_current.bind fun ix => leads_ite (leads_pure _) ?_
  refine (Leads.of_eq fun _ _ _ h => (runs_blockSize.1 h).2).bind fun bs =>
    sameSync_current.bind fun ix' => ?_
  refine Leads.bind (leads_forIn fun p _ => ?_) fun _ => ?_
  · exact (sameSync_writeAt _ _).bind fun _ =>
      Leads.bind (sameSync_modifyIndex fun _ => rfl) fun _ => leads_pure _
  · refine sameSync_current.bind fun ix'' => leads_ite ?_ sameSync_writeHeader
    exact (sameSync_writeAt _ _).bind fun _ =>
      Leads.bind (sameSync_modifyIndex fun _ => rfl) fun _ => sameSync_writeHeader

/-! ## The whole reorganize -/

/-- Reorganizing a ready writer index whose copy's path is apart from its file,
on a volume whose entries name files it has. A reorganize that answers leaves a sound index on the same path, still writable, with the
same block size and sync mode, which answers every lookup as before; it counted
every record, and the copy's path names no file unless it names the database's
own entry. A failure other than an overflow leaves the index ready on its file,
answering every lookup as before, and the copy's path naming no file. -/
theorem Ready.reorganizeIn {r : Outcome ReorganizeStats} (hr : Ready v ix)
    (hw : ix.file.writable = true) (hl : v.Linked)
    (hsep : v.Apart (copyPath ix.file.path) ix.file.handle.ino)
    (h : Index.reorganizeIn v ix = (r, v', ix')) :
    match r with
    | .ok st => st.records = (image v ix).keys.length ∧ Sound v' ix' ∧ ix'.file.writable = true ∧
        ix'.file.path = ix.file.path ∧ ix'.file.header.blockSize = ix.file.header.blockSize ∧
        ix'.syncMode = ix.syncMode ∧ (∀ k, (image v' ix').lookup k = (image v ix).lookup k) ∧
        (Volume.normalize (copyPath ix.file.path) ≠ Volume.normalize ix.file.path →
          ∀ j, v'.stat (copyPath ix.file.path) ≠ .ok (.file j))
    | .error e => e.isOverflow = false → Ready v' ix' ∧ SameFile ix ix' ∧
        (∀ k, (image v' ix').lookup k = (image v ix).lookup k) ∧
        ∀ j, v'.stat (copyPath ix.file.path) ≠ .ok (.file j) := by
  unfold Index.reorganizeIn at h
  rw [if_neg (by simp [hw])] at h
  obtain ⟨v1, ix1, hfl, hr1, hag1, hsf1, hl1, hsep1⟩ := hr.flush_apart hl hsep
  have hpath1 : ix1.file.path = ix.file.path := hsf1.2.2.1
  rw [run_eq_of_runs hfl] at h
  dsimp only at h
  split at h
  · rename_i e v2 ix2 h2
    obtain ⟨⟨hr2, hag2, hsf, -⟩, -⟩ := hr1.copyInto hl1 hsep1 rfl h2
    simp only [Prod.mk.injEq] at h
    obtain ⟨rfl, rfl, rfl⟩ := h
    intro hov
    rw [hov, if_neg Bool.false_ne_true, ← hpath1]
    refine ⟨hr2.discard _, hsf1.trans hsf, fun k => ?_, fun j => Volume.stat_discard _ _⟩
    rw [image_discard, hag2.lookup, hag1.lookup]
  rename_i fresh n v2 ix2 h2
  obtain ⟨⟨hr2, hag2, hsf, hsy2⟩, hok⟩ := hr1.copyInto hl1 hsep1 rfl h2
  obtain ⟨hn2, hsf2, hw2, hfbs, hlk2⟩ := hok fresh n rfl
  split at h
  · rename_i f h3
    simp only [Prod.mk.injEq] at h
    obtain ⟨rfl, rfl, rfl⟩ := h
    intro _
    rw [← hpath1]
    refine ⟨(hr2.close _).discard _, hsf1.trans hsf, fun k => ?_,
      fun j => Volume.stat_discard _ _⟩
    rw [image_discard, release, image_close, hag2.lookup, hag1.lookup]
  rename_i v3 h3
  simp only [Prod.mk.injEq] at h
  obtain ⟨rfl, rfl, rfl⟩ := h
  obtain ⟨hd, hs3⟩ := hsf2.installed (u := ix2) (o := ix2.options) (b := ix2.syncMode) h3
  have hi : image (ix2.release v3) fresh = image v2 fresh := image_of_disk hd
  refine ⟨by rw [hn2, hag1.keys], hs3, hw2, hpath1, hfbs.trans (sameBlockSize_flush _ _ _ hfl),
    hsy2.trans (sameSync_flush _ _ _ hfl), fun k => ?_, fun hne j => ?_⟩
  · show (image (ix2.release v3) fresh).lookup k = _
    rw [hi, hlk2, hag1.lookup]
  · rw [release, Volume.stat_eq_of_entries (Volume.entries_close _), ← hpath1]
    exact (install_data h3).2.2 (by rw [hpath1]; exact hne) j

/-- A reorganize that answers, of a sound index whose copy's path is apart from
its file, on a volume whose entries name files it has, goes on with a sound
index open to write: the copy is kept sound by every store into it, whatever
the index copied from reads. -/
theorem Sound.reorganizeIn {st : ReorganizeStats} (hs : Sound v ix) (hl : v.Linked)
    (hsep : v.Apart (copyPath ix.file.path) ix.file.handle.ino)
    (h : Index.reorganizeIn v ix = (.ok st, v', ix')) : Sound v' ix' ∧ ix'.file.writable = true := by
  unfold Index.reorganizeIn at h
  split at h
  · cases h
  split at h
  · cases h
  rename_i v1 ix1 h1
  obtain ⟨hs1, -, -, -⟩ := hs.flush (runs_of_run_eq h1)
  obtain ⟨hl1, hsep1⟩ := (confined_flush.run_contained h1).linked_apart hl hsep
  dsimp only at h
  split at h
  · cases h
  rename_i fresh n v2 ix2 h2
  obtain ⟨hs2, hw2⟩ := hs1.copyInto hl1 hsep1 rfl h2
  split at h
  · cases h
  rename_i v3 h3
  simp only [Prod.mk.injEq] at h
  obtain ⟨-, rfl, rfl⟩ := h
  exact ⟨(hs2.installed h3).2, hw2⟩

/-- A copy whose path names a directory is not opened: the copy stops at once
and changes nothing. -/
theorem copyInto_of_directory {c : Config} {p : String} (hd : v.stat p = .ok .directory)
    (hc : c.path = p) : copyInto c v ix = (.error (.fileOpen p .isDirectory), v, ix) := by
  subst hc
  unfold copyInto openIn StoreFile.openFile
  rw [Volume.openPath_of_directory hd rfl]

/-- A directory at the copy's path stops a reorganize of a ready writer when it
opens the copy, and the directory is still there afterwards: the clean-up after
a failed copy removes only files. -/
theorem Ready.reorganizeIn_blocked {r : Outcome ReorganizeStats} (hr : Ready v ix)
    (hw : ix.file.writable = true) (hdir : v.stat (copyPath ix.file.path) = .ok .directory)
    (h : Index.reorganizeIn v ix = (r, v', ix')) :
    r = .error (.fileOpen (copyPath ix.file.path) .isDirectory) ∧
      v'.stat (copyPath ix.file.path) = .ok .directory := by
  unfold Index.reorganizeIn at h
  rw [if_neg (by simp [hw])] at h
  obtain ⟨v1, ix1, hfl, -, -⟩ := hr.flush
  have hc1 := confined_flush.run_contained (run_eq_of_runs hfl)
  have hpath1 : ix1.file.path = ix.file.path := hc1.sameFile.2.2.1
  have hdir1 : v1.stat (copyPath ix.file.path) = .ok .directory := by
    rw [Volume.stat_eq_of_entries hc1.1.frame.entries]
    exact hdir
  rw [run_eq_of_runs hfl] at h
  dsimp only at h
  rw [copyInto_of_directory hdir1 (by rw [hpath1])] at h
  simp only [Prod.mk.injEq] at h
  obtain ⟨rfl, rfl, -⟩ := h
  refine ⟨rfl, ?_⟩
  rw [if_neg (by simp [StoreError.isOverflow]), hpath1, Volume.discard_of_directory hdir1]
  exact hdir1

/-! ## A file laid out and locked -/

theorem linked_blank : blank.1.Linked := by
  intro p ino h
  unfold Volume.entry? at h
  split at h
  · cases h
  · change [("db", Entry.file 0)].lookup p = some (.file ino) at h
    by_cases hp : p = "db"
    · subst hp
      cases h
      decide
    · have hb : (p == "db") = false := beq_false_of_ne hp
      simp [List.lookup, hb] at h

theorem locksOf_blank (j : Nat) : blank.1.locksOf j = [] := by
  unfold Volume.locksOf
  rcases j with _ | j
  · rfl
  · simp [blank]
    rfl

/-- What laying out the file changed on the volume: the bytes of its file only.
It is stated of `laidOut` itself, not of the pair of its parts, so that no
later check compares the two and runs the layout. -/
theorem contained_laidOut : Contained blank laidOut := by
  have h := confined_bootstrap.run_contained (run_eq_of_runs runs_bootstrap_blank)
  rwa [Prod.eta, Prod.eta] at h

theorem size_laidOut : laidOut.1.inodes.size = 1 := contained_laidOut.1.frame.size

theorem ino_laidOut : laidOut.2.file.handle.ino = 0 := by
  rw [contained_laidOut.1.handle]
  rfl

theorem locksOf_laidOut : laidOut.1.locksOf = blank.1.locksOf := contained_laidOut.1.frame.locksOf

/-- The volume of `laidOut` once the writer that laid it out has taken the
exclusive lock of its description `0` on the file. -/
def lockedOut : Volume := (laidOut.1.tryLock ⟨0, 0⟩ .exclusive).getD laidOut.1

theorem tryLock_laidOut : laidOut.1.tryLock ⟨0, 0⟩ .exclusive = some lockedOut := by
  have h := Volume.tryLock_of_unlocked (f := ⟨0, 0⟩) (k := .exclusive)
    ((congrFun locksOf_laidOut 0).trans (locksOf_blank 0))
  unfold lockedOut
  rw [h]
  rfl

theorem ready_lockedOut : Ready lockedOut laidOut.2 := by
  obtain ⟨-, -, hd, hsz⟩ := Volume.tryLock_keeps tryLock_laidOut
  exact ready_laidOut.of_disk (congrFun hd _) (by rw [hsz, ino_laidOut, size_laidOut]; decide)

theorem linked_lockedOut : lockedOut.Linked := by
  obtain ⟨he, -, -, hsz⟩ := Volume.tryLock_keeps tryLock_laidOut
  exact linked_blank.of_entries (he.trans contained_laidOut.1.frame.entries)
    (by rw [hsz, size_laidOut]; decide)

theorem slots_lockedOut : (image lockedOut laidOut.2).slots = [] := by
  obtain ⟨-, -, hd, -⟩ := Volume.tryLock_keeps tryLock_laidOut
  rw [image_of_disk (congrFun hd _)]
  exact slots_laidOut

/-- The path of the copy of the database file, taken apart. -/
theorem locate_copyPath (w : Volume) : w.locate "db.reorg" = .ok ⟨[], .name "db.reorg" false⟩ := by
  unfold Volume.locate
  simp +decide [Volume.Target.parse, String.splitOn, String.splitOnAux, Volume.checkDirs,
    Volume.checkDirs.go]

/-- Where the database file is the only entry, the copy's path names nothing. -/
theorem apart_copyPath {w : Volume} {ino : Nat} (he : w.entries = [("db", .file 0)]) :
    w.Apart (copyPath "db") ino := by
  intro j hj
  rw [show copyPath "db" = "db.reorg" from rfl] at hj
  unfold Volume.stat at hj
  simp +decide [Index.locate_copyPath, Volume.Target.find, Volume.lookup, Volume.entry?, he,
    List.lookup, throw, throwThe, MonadExceptOf.throw] at hj

/-- Stores in the locked file bind no path: the volume names the database's
file only, by entries that name files it has, and the copy's path is apart
from the database's file. -/
theorem entries_of_stores {value : Bytes} (keys : List Bytes) {v : Volume} {ix : Index}
    (hrun : Runs (keys.forM fun k => Index.store k value) (lockedOut, laidOut.2) () (v, ix)) :
    v.entries = [("db", .file 0)] ∧ ix.file.path = "db" ∧ v.Linked ∧
      v.Apart (copyPath ix.file.path) ix.file.handle.ino := by
  have hc := Contained.of_pairs
    ((confined_forM fun k => confined_store k value).run_contained (run_eq_of_runs hrun))
  obtain ⟨he, -, -, -⟩ := Volume.tryLock_keeps tryLock_laidOut
  have hent : v.entries = [("db", .file 0)] :=
    hc.1.frame.entries.trans (he.trans contained_laidOut.1.frame.entries)
  have hpath : ix.file.path = "db" := by
    rw [hc.2.1.1, contained_laidOut.2.1.1]
    rfl
  refine ⟨hent, hpath, linked_lockedOut.of_entries hc.1.frame.entries
    (Nat.le_of_eq hc.1.frame.size.symm), ?_⟩
  rw [hpath]
  exact apart_copyPath hent

/-- Storing the crowd in the locked file runs and doubles its directory; the
copy's path stays apart from the file. -/
theorem crowd_lockedOut {value : Bytes} (hvs : value.size ≤ 4096) :
    ∃ v ix, Runs (crowd.forM fun k => Index.store k value) (lockedOut, laidOut.2) () (v, ix) ∧
      Ready v ix ∧ ix.file.writable = true ∧ (∀ k ∈ crowd, (image v ix).lookup k = some value) ∧
      laidOut.2.dir.bits < ix.dir.bits ∧ v.Linked ∧
      v.Apart (copyPath ix.file.path) ix.file.handle.ino := by
  obtain ⟨v, ix, hrun, hr, hw, hin, hbits⟩ := ready_lockedOut.storeCrowd laidOut_writable
    slots_lockedOut laidOut_blockSize (Nat.le_trans laidOut_nextBlock_le (by decide)) hvs
  exact ⟨v, ix, hrun, hr, hw, hin, by rw [laidOut_dir_bits]; exact hbits,
    (entries_of_stores crowd hrun).2.2⟩

/-- Storing the first twenty-one keys of the crowd in the locked file fills its
one bucket; the copy's path stays apart from the file. -/
theorem crowdFirst_lockedOut {value : Bytes} (hvs : value.size ≤ 4096) :
    ∃ v ix, Runs ((crowd.take 21).forM fun k => Index.store k value) (lockedOut, laidOut.2) ()
        (v, ix) ∧ Ready v ix ∧ ix.file.writable = true ∧
      (∀ k ∈ crowd.take 21, (image v ix).lookup k = some value) ∧
      (image v ix).keys.length ≤ ix.file.header.bucketElems ∧ v.Linked ∧
      v.Apart (copyPath ix.file.path) ix.file.handle.ino := by
  obtain ⟨v, ix, hrun, hr, hw, hin, hcount, -, -, -, hbs, -⟩ := ready_lockedOut.storeCrowdFirst
    laidOut_writable slots_lockedOut laidOut_blockSize laidOut_dir_bits laidOut_nextBlock_le hvs
  have helems : ix.file.header.bucketElems = 21 := by
    rw [hr.sound.elems, hbs]
    rfl
  exact ⟨v, ix, hrun, hr, hw, hin, helems ▸ hcount, (entries_of_stores (crowd.take 21) hrun).2.2⟩

end Index

namespace Session

variable {v : Volume}

/-- What a reorganize leaves of a session over the index `ix` on `v`, by its
outcome. One that answers leaves the session on a sound writable index at the
same path, with the same block size and sync mode, answering every lookup as
`ix` did, the record count known and the cursor reset; and the copy's path
names no file unless it names the database's own entry. A failure other than an
overflow leaves the session on its file, ready and answering as before, and
the copy's path naming no file. -/
def Reorganized (v : Volume) (ix : Index) : Outcome ReorganizeStats × Volume × Session → Prop
  | (.ok st, v', s') => ∃ ix', s'.index = some ix' ∧ st.records = (Index.image v ix).keys.length ∧
      Index.Sound v' ix' ∧ ix'.file.writable = true ∧ ix'.file.path = ix.file.path ∧
      ix'.file.header.blockSize = ix.file.header.blockSize ∧ ix'.syncMode = ix.syncMode ∧
      (∀ k, (Index.image v' ix').lookup k = (Index.image v ix).lookup k) ∧
      s'.lenCache = some st.records ∧ s'.cursor = .unstarted ∧
      (Volume.normalize (Index.copyPath ix.file.path) ≠ Volume.normalize ix.file.path →
        ∀ j, v'.stat (Index.copyPath ix.file.path) ≠ .ok (.file j))
  | (.error e, v', s') => e.isOverflow = false → ∃ ix', s'.index = some ix' ∧
      Index.Ready v' ix' ∧ Index.SameFile ix ix' ∧
      (∀ k, (Index.image v' ix').lookup k = (Index.image v ix).lookup k) ∧
      ∀ j, v'.stat (Index.copyPath ix.file.path) ≠ .ok (.file j)

/-- Reorganizing a writer session whose index is ready, on a volume whose entries
name files it has and where the copy's path is apart from the index's file,
keeps every record, or changes nothing it reads. -/
theorem reorganize_keeps {s : Session} {ix : Index} (hix : s.index = some ix)
    (hr : Index.Ready v ix) (hw : ix.file.writable = true) (hl : v.Linked)
    (hsep : v.Apart (Index.copyPath ix.file.path) ix.file.handle.ino) :
    Reorganized v ix (Session.reorganize.run.run (v, s)) := by
  rw [run_reorganize_writer hix hw]
  rcases h : Index.reorganizeIn v ix with ⟨_ | st, v', ix'⟩
  · intro hov
    obtain ⟨hr', hsf, hlk, hno⟩ := hr.reorganizeIn hw hl hsep h hov
    exact ⟨ix', rfl, hr', hsf, hlk, hno⟩
  · obtain ⟨hrec, hs', hw', hpath, hbs, hsync, hlk, hno⟩ := hr.reorganizeIn hw hl hsep h
    exact ⟨ix', rfl, hrec, hs', hw', hpath, hbs, hsync, hlk, rfl, rfl, hno⟩

/-- A writer session over the crowd stored in the locked file keeps its records
through a reorganize, or changes nothing it reads. -/
theorem reorganize_keeps_crowd :
    ∃ v ix, Runs (Index.crowd.forM fun k => Index.store k ⟨#[118]⟩)
        (Index.lockedOut, Index.laidOut.2) () (v, ix) ∧
      Index.laidOut.2.dir.bits < ix.dir.bits ∧
      (∀ k ∈ Index.crowd, (Index.image v ix).lookup k = some ⟨#[118]⟩) ∧
      (⟨some ix, .writer, "db", none, .unstarted⟩ : Session).index = some ix ∧ Index.Ready v ix ∧
      ix.file.writable = true ∧ v.Linked ∧
      v.Apart (Index.copyPath ix.file.path) ix.file.handle.ino ∧
      Reorganized v ix (Session.reorganize.run.run (v, ⟨some ix, .writer, "db", none, .unstarted⟩)) := by
  obtain ⟨v, ix, hrun, hr, hw, hin, hbits, hl, hsep⟩ :=
    Index.crowd_lockedOut (by decide : (⟨#[118]⟩ : Bytes).size ≤ 4096)
  exact ⟨v, ix, hrun, hbits, hin, rfl, hr, hw, hl, hsep, reorganize_keeps rfl hr hw hl hsep⟩

/-- A directory made at the copy's path of a writer session over the crowd
stored in the locked file stops its reorganize, and is still there afterwards. -/
theorem reorganize_leaves_directory_at_copy_path :
    ∃ v ix v1 v' s', Runs (Index.crowd.forM fun k => Index.store k ⟨#[118]⟩)
        (Index.lockedOut, Index.laidOut.2) () (v, ix) ∧ ix.file.path = "db" ∧
      v.mkdir "db.reorg" = .ok v1 ∧
      Session.reorganize.run.run (v1, ⟨some ix, .writer, "db", none, .unstarted⟩) =
        (.error (.fileOpen "db.reorg" .isDirectory), v', s') ∧
      v'.stat "db.reorg" = .ok .directory := by
  obtain ⟨v, ix, hrun, hr, hw, -⟩ := Index.crowd_lockedOut (by decide : (⟨#[118]⟩ : Bytes).size ≤ 4096)
  obtain ⟨he, hpath, -⟩ := Index.entries_of_stores _ hrun
  have hmk : v.mkdir "db.reorg" = .ok (v.bind "db.reorg" .directory) := by
    unfold Volume.mkdir
    simp +decide [Index.locate_copyPath, Volume.Target.find, Volume.lookup, Volume.entry?, he,
      Volume.Target.leafPath, List.lookup, pure, Except.pure]
  have hdir : (v.bind "db.reorg" .directory).stat "db.reorg" = .ok .directory := by
    unfold Volume.stat
    simp +decide [Index.locate_copyPath, Volume.Target.find, Volume.lookup, Volume.entry?_bind]
  have hr1 : Index.Ready (v.bind "db.reorg" .directory) ix :=
    hr.of_disk (by simp only [Index.disk, Volume.data, Volume.inodes_bind])
      (by rw [Volume.inodes_bind]; exact hr.sound.coherent.ino_lt)
  have hcp : Index.copyPath ix.file.path = "db.reorg" := by
    rw [hpath]
    rfl
  rcases h : Index.reorganizeIn (v.bind "db.reorg" .directory) ix with ⟨r, v', ix'⟩
  obtain ⟨rfl, hst⟩ := hr1.reorganizeIn_blocked hw (by rw [hcp]; exact hdir) h
  have hrun' : Session.reorganize.run.run (v.bind "db.reorg" .directory,
      ⟨some ix, .writer, "db", none, .unstarted⟩) =
      (.error (.fileOpen "db.reorg" .isDirectory), v', ⟨some ix', .writer, "db", none, .unstarted⟩) := by
    rw [run_reorganize_writer rfl hw, h, hcp]
  rw [hcp] at hst
  exact ⟨v, ix, _, v', _, hrun, hpath, hmk, hrun', hst⟩

end Session

end HashFile
