import HashFile.Proofs.Persistence
import HashFile.Proofs.Reorganizing
import HashFile.Proofs.Reachable

/-!
# The extendible-hash structure over a file's whole life

A file laid out blank is changed by stores and deletes, closed and opened again,
and reorganized into a fresh copy. Every index reached so (`Index.Evolves`) is
sound (`Evolves.sound`), so its image has the extendible-hash shape
(`Image.Shaped`): a directory of `2 ^ D` entries with `D ≤ 31`, each bucket
owning the aligned run of entries its depth gives, each element filed under the
hash of its key in the run of its bucket, probe chains without gaps, and no key
twice. The runs of such a directory are its buckets: from any entry the next
distinct one is the end of the range of the bucket there
(`Directory.Aligned.nextDistinct_eq`), and the directory counts each bucket once
(`Directory.Aligned.bucketCount_eq`).
-/
namespace HashFile

namespace Directory

variable {d : Directory}

/-! ## The runs of an aligned directory are its buckets -/

/-- Counting runs from `i` on, after `count` already counted, adds the number of
runs that start there. -/
theorem bucketCount_go_eq (i count fuel : Nat) :
    bucketCount.go d i count fuel = count + (d.heads fuel i).length := by
  induction fuel generalizing i count with
  | zero => rfl
  | succ fuel ih =>
    by_cases hi : i < d.size
    · rw [bucketCount.go, if_pos hi, ih, heads_succ hi, List.length_cons]
      omega
    · rw [bucketCount.go, if_neg hi, heads_of_size_le (by omega)]
      rfl

/-- An aligned directory counts each bucket it names once. -/
theorem Aligned.bucketCount_eq {depth : Nat → Nat} (ha : d.Aligned depth) :
    d.bucketCount = d.entries.toList.dedup.length := by
  have hheads : d.heads d.size 0 = d.heads (d.size + 1) 0 := heads_congr (by omega) (by omega)
  unfold bucketCount
  rw [bucketCount_go_eq, hheads, ← ha.heads_perm.length_eq, List.length_map, Nat.zero_add]

/-- In an aligned directory the entries that name the bucket at `i` are exactly
those of the range of `i` at the bucket's depth. -/
theorem Aligned.entryAt_eq_iff {depth : Nat → Nat} (ha : d.Aligned depth) {i j : Nat}
    (hi : i < d.size) (hj : j < d.size) :
    d.entryAt j = d.entryAt i ↔
      (d.rangeOf i (depth (d.entryAt i))).1 ≤ j ∧ j < (d.rangeOf i (depth (d.entryAt i))).2 :=
  (ha.runs i hi j hj).trans (mem_rangeOf_iff d i j _).symm

/-- In an aligned directory the run of equal entries from `i` ends where the
range of the bucket at `i` ends. -/
theorem Aligned.nextDistinct_eq {depth : Nat → Nat} (ha : d.Aligned depth) {i : Nat}
    (hi : i < d.size) : d.nextDistinct i = (d.rangeOf i (depth (d.entryAt i))).2 := by
  set b := depth (d.entryAt i)
  set r := d.rangeOf i b
  have hend : r.2 ≤ d.size := rangeOf_le_size ha.size_eq hi (ha.depth_le i hi)
  have hself : r.1 ≤ i ∧ i < r.2 := (mem_rangeOf_iff d i i b).2 rfl
  have hin : ∀ j < d.size, d.entryAt j = d.entryAt i ↔ r.1 ≤ j ∧ j < r.2 :=
    fun j hj => ha.entryAt_eq_iff hi hj
  obtain ⟨hlt, hle, hsame, hdiff⟩ := nextDistinct_spec hi
  apply Nat.le_antisymm
  · by_contra hgt
    have hout := (hin r.2 (by omega)).1 (hsame r.2 (by omega) (by omega))
    omega
  · by_contra hgt
    exact hdiff (by omega) ((hin _ (by omega)).2 ⟨by omega, by omega⟩)

end Directory

namespace Image

variable {I : Image}

theorem Shaped.bucketCount (hI : I.Shaped) : I.dir.bucketCount = I.live.length :=
  hI.aligned.bucketCount_eq

theorem Shaped.entryAt_eq_iff (hI : I.Shaped) {i j : Nat} (hi : i < I.dir.size)
    (hj : j < I.dir.size) :
    I.dir.entryAt j = I.dir.entryAt i ↔
      (I.dir.rangeOf i (I.bucket (I.dir.entryAt i)).depth).1 ≤ j ∧
        j < (I.dir.rangeOf i (I.bucket (I.dir.entryAt i)).depth).2 :=
  hI.aligned.entryAt_eq_iff hi hj

theorem Shaped.nextDistinct (hI : I.Shaped) {i : Nat} (hi : i < I.dir.size) :
    I.dir.nextDistinct i = (I.dir.rangeOf i (I.bucket (I.dir.entryAt i)).depth).2 :=
  hI.aligned.nextDistinct_eq hi

end Image

namespace Index

variable {v v1 v' w2 : Volume} {ix ix1 ix' : Index} {c : Config} {mode : OpenMode}

/-! ## Opening the same file again -/

/-- An open that answers opened the path to a file, got its lock (or asked for
none), and gives an index on that file, open to write when the mode writes; no
entry of the volume changed after the path was opened. -/
theorem openIn_opens {w : Volume} (h : openIn c mode w = (.ok ix', w2)) :
    ∃ f w1 w3, w.openPath c.path (StoreFile.access c.permissions mode) = .ok (.file f, w1) ∧
      (if c.options.nolock then some w1 else w1.tryLock f (StoreFile.lockKind mode)) = some w3 ∧
      ix'.file.handle = f ∧ ix'.file.writable = mode.isWriter ∧ w2.entries = w1.entries := by
  unfold openIn at h
  rcases hof : StoreFile.openFile c mode w with ⟨_ | ⟨st, fresh⟩, v2⟩
  · rw [hof] at h
    cases h
  rw [hof] at h
  dsimp only at h
  have hm : Confined (if fresh = true then bootstrap else load) :=
    confined_ite confined_bootstrap confined_load
  rcases hr : run (if fresh = true then bootstrap else load) v2
    ⟨st, Directory.uniform 0 0 0, BucketCache.empty c.cacheSize, c.options, false⟩ with
    ⟨_ | u, v3, ix3⟩
  · rw [hr] at h
    cases h
  rw [hr] at h
  cases u
  simp only [Prod.mk.injEq, Except.ok.injEq] at h
  obtain ⟨rfl, rfl⟩ := h
  have hc := hm.run_contained hr
  unfold StoreFile.openFile at hof
  rcases ho : w.openPath c.path (StoreFile.access c.permissions mode) with fault | ⟨o, w1⟩
  · rw [ho] at hof
    cases hof
  rw [ho] at hof
  rcases o with f | _
  · dsimp only at hof
    rcases hl : (if c.options.nolock then some w1 else w1.tryLock f (StoreFile.lockKind mode)) with
      _ | w3
    · rw [hl] at hof
      cases hof
    rw [hl] at hof
    dsimp only at hof
    have hent : (if mode = .newDb then w3.setLen f.ino 0 else w3).entries = w1.entries := by
      have h3 : w3.entries = w1.entries := by
        split at hl
        · cases hl
          rfl
        · exact (Volume.tryLock_keeps hl).1
      split
      · exact (Volume.frame_setLen w3 f.ino 0).entries.trans h3
      · exact h3
    split at hof
    · rename_i hst
      simp only [Prod.mk.injEq, Except.ok.injEq] at hof
      obtain ⟨rfl, rfl⟩ := hof
      obtain ⟨hh, hw, -, -⟩ := StoreFile.start_eq_ok hst
      exact ⟨f, w1, w3, rfl, hl, hc.1.handle.trans hh, hc.1.writable.trans hw,
        hc.1.frame.entries.trans hent⟩
    · cases hof
  · cases hof

/-- Nothing is dirty in an index read back. -/
theorem Reloaded.flushed (h : Reloaded v ix v' ix') : Flushed ix' where
  cache e he := by
    rw [h.cache] at he
    cases he
  dir := by rw [h.dir]
  header := h.headerDirty

/-- Opening the file of a flushed sound index again, in a mode that keeps its
bytes, reads the index back when the open finds that file. -/
theorem Sound.reloads (hs : Sound v ix) (hf : Flushed ix) (hmode : mode ≠ .newDb)
    (hopen : openIn c mode v = (.ok ix', w2)) (hsame : ix'.file.handle.ino = ix.file.handle.ino) :
    Reloaded v ix w2 ix' := by
  obtain ⟨f, w1, w3, hpath, hlock, hf', -⟩ := openIn_opens hopen
  obtain ⟨ix'', hopen', hre, -⟩ := hs.reopen hf hmode hpath (by rw [← hf', hsame]) hlock
  rw [hopen] at hopen'
  obtain ⟨hix, rfl⟩ := Prod.mk.inj hopen'
  cases hix
  exact hre

/-- Finishing a sound index leaves it flushed, when a writer was flushed by the
finish or a reader was flushed already; its file, given back and opened again,
reads it back, with the image it had. -/
theorem Sound.finish_reloads (hs : Sound v ix) (hfl : ix.file.writable = false → Flushed ix)
    (hfin : Runs Index.finish (v, ix) () (v1, ix1)) (hmode : mode ≠ .newDb)
    (hopen : openIn c mode (ix1.release v1) = (.ok ix', w2))
    (hsame : ix'.file.handle.ino = ix1.file.handle.ino) :
    Sound w2 ix' ∧ Flushed ix' ∧ (image v ix).Agree (image w2 ix') := by
  obtain ⟨hs1, hag1, -, hflw⟩ := hs.finish hfin
  have hf1 : Flushed ix1 := by
    by_cases hw : ix.file.writable = true
    · exact hflw hw
    · unfold Index.finish at hfin
      simp only [runs_bind, runs_current, and_assoc, exists_and_left, exists_eq_left] at hfin
      rw [if_neg hw] at hfin
      obtain ⟨-, hst⟩ := runs_pure.1 hfin
      obtain ⟨-, rfl⟩ := Prod.mk.inj hst
      exact hfl (by simpa using hw)
  have hs1' : Sound (ix1.release v1) ix1 :=
    hs1.of_disk (Volume.data_close _ _ _) (by rw [release, Volume.size_close]; exact hs1.coherent.ino_lt)
  have hre := hs1'.reloads hf1 hmode hopen hsame
  have hag2 := hre.agree hs1' hf1
  rw [Index.release, image_close] at hag2
  exact ⟨hre.sound hs1' hf1, hre.flushed, hag1.trans hag2⟩

/-! ## A file's whole life -/

/-- The indexes a file laid out blank evolves into: by stores and deletes, by a
close followed by opening the same file again in a mode that keeps its bytes,
and by a reorganize that answers, on a volume whose entries name files it has
and where the copy's path does not name the index's file. -/
inductive Evolves : Volume → Index → Prop
  | bootstrap {v v' : Volume} {ix ix' : Index} (hb : Blank v ix)
      (hr : Runs Index.bootstrap (v, ix) () (v', ix')) : Evolves v' ix'
  | store {v v' : Volume} {ix ix' : Index} {key value : Bytes} (h : Evolves v ix)
      (hr : Runs (Index.store key value) (v, ix) () (v', ix')) : Evolves v' ix'
  | delete {v v' : Volume} {ix ix' : Index} {key : Bytes} {found : Bool} (h : Evolves v ix)
      (hr : Runs (Index.delete key) (v, ix) found (v', ix')) : Evolves v' ix'
  | reopen {v v1 w2 : Volume} {ix ix1 ix' : Index} {c : Config} {mode : OpenMode}
      (h : Evolves v ix) (hfin : Runs Index.finish (v, ix) () (v1, ix1)) (hmode : mode ≠ .newDb)
      (hopen : openIn c mode (ix1.release v1) = (.ok ix', w2))
      (hsame : ix'.file.handle.ino = ix1.file.handle.ino) : Evolves w2 ix'
  | reorganize {v v' : Volume} {ix ix' : Index} {st : ReorganizeStats} (h : Evolves v ix)
      (hl : v.Linked) (hsep : v.Apart (copyPath ix.file.path) ix.file.handle.ino)
      (hre : reorganizeIn v ix = (.ok st, v', ix')) : Evolves v' ix'

/-- A delete that runs found the file writable. -/
theorem writable_of_delete {key : Bytes} {found : Bool}
    (hr : Runs (Index.delete key) (v, ix) found (v', ix')) : ix.file.writable = true := by
  unfold Index.delete at hr
  obtain ⟨_, s0, hcw, -⟩ := runs_bind.1 hr
  exact (runs_checkWritable.1 hcw).1

/-- Stores and deletes alone are evolutions: every reachable index evolves from
a blank file. -/
theorem Reachable.evolves (h : Reachable v ix) : Evolves v ix := by
  induction h with
  | bootstrap hb hr => exact .bootstrap hb hr
  | store _ hr ih => exact .store ih hr
  | delete _ hr ih => exact .delete ih hr

/-- Every index a blank file evolves into is sound; a reader, which comes only
from opening the file again, holds nothing dirty. -/
theorem Evolves.sound (h : Evolves v ix) : Sound v ix ∧ (ix.file.writable = false → Flushed ix) := by
  induction h with
  | bootstrap hb hr =>
    obtain ⟨hs, hst⟩ := Sound.bootstrap hb hr
    exact ⟨hs, fun hw => absurd (hst.writable.trans hb.writable) (by simp [hw])⟩
  | store _ hr ih =>
    obtain ⟨hs, hst, -⟩ := ih.1.store hr
    exact ⟨hs, fun hw => absurd (hst.writable.trans (runs_store hr).1) (by simp [hw])⟩
  | delete _ hr ih =>
    obtain ⟨-, hs, hst, -⟩ := ih.1.delete hr
    exact ⟨hs, fun hw => absurd (hst.writable.trans (writable_of_delete hr)) (by simp [hw])⟩
  | reopen _ hfin hmode hopen hsame ih =>
    obtain ⟨hs, hf, -⟩ := ih.1.finish_reloads ih.2 hfin hmode hopen hsame
    exact ⟨hs, fun _ => hf⟩
  | reorganize _ hl hsep hre ih =>
    obtain ⟨hs', hw'⟩ := ih.1.reorganizeIn hl hsep hre
    exact ⟨hs', fun hw => absurd (hw'.symm.trans hw) (by simp)⟩

/-- Every index a file laid out blank evolves into, through stores and deletes,
closing and opening the file again, and reorganizing, has the extendible-hash
shape: the directory has `2 ^ D` entries, `D ≤ 31` and `D` is the header's
depth; each bucket it names has a depth `b ≤ D` and owns exactly the aligned run
of `2 ^ (D - b)` entries around any of its entries; each element of a bucket
carries the hash and head of the key its record holds and is filed under that
hash in the bucket's run; each bucket counts its occupied slots and reaches each
element from its home slot through occupied slots only; no key is held twice.
So the entries naming a bucket are exactly those of the range of any of them,
the next distinct entry from any entry is the end of that range, and the
directory counts each bucket once. -/
theorem Evolves.keeps_extendible_hash (h : Evolves v ix) :
    (image v ix).Shaped ∧
      (∀ i < ix.dir.size, ∀ j < ix.dir.size, ix.dir.entryAt j = ix.dir.entryAt i ↔
        (ix.dir.rangeOf i (bucketAt v ix (ix.dir.entryAt i)).depth).1 ≤ j ∧
          j < (ix.dir.rangeOf i (bucketAt v ix (ix.dir.entryAt i)).depth).2) ∧
      (∀ i < ix.dir.size,
        ix.dir.nextDistinct i = (ix.dir.rangeOf i (bucketAt v ix (ix.dir.entryAt i)).depth).2) ∧
      ix.dir.bucketCount = (image v ix).live.length := by
  have hI := h.sound.1.shaped
  exact ⟨hI, fun _ hi _ hj => hI.entryAt_eq_iff hi hj, fun _ hi => hI.nextDistinct hi,
    hI.bucketCount⟩

/-- The store of the crowd in a new file evolves it into an index whose
directory doubled, and it keeps the extendible-hash shape. -/
theorem keeps_extendible_hash_crowd :
    ∃ v ix, Runs (crowd.forM fun k => Index.store k ⟨#[118]⟩) (laidOut.1, laidOut.2) () (v, ix) ∧
      laidOut.2.dir.bits < ix.dir.bits ∧ Evolves v ix ∧ (image v ix).Shaped ∧
      (∀ i < ix.dir.size, ∀ j < ix.dir.size, ix.dir.entryAt j = ix.dir.entryAt i ↔
        (ix.dir.rangeOf i (bucketAt v ix (ix.dir.entryAt i)).depth).1 ≤ j ∧
          j < (ix.dir.rangeOf i (bucketAt v ix (ix.dir.entryAt i)).depth).2) ∧
      (∀ i < ix.dir.size,
        ix.dir.nextDistinct i = (ix.dir.rangeOf i (bucketAt v ix (ix.dir.entryAt i)).depth).2) ∧
      ix.dir.bucketCount = (image v ix).live.length := by
  obtain ⟨v, ix, hrun, -, -, -, hbits⟩ := crowd_laidOut (by decide : (⟨#[118]⟩ : Bytes).size ≤ 4096)
  have h : Evolves v ix :=
    ((Reachable.bootstrap blank_blank runs_bootstrap_blank).of_stores hrun).evolves
  exact ⟨v, ix, hrun, hbits, h, Evolves.keeps_extendible_hash h⟩

end Index

end HashFile
