import HashFile.Proofs.Growth

/-!
# Indexes reached by stores and deletes

An index is reachable when a blank file was laid out by `bootstrap` and then
changed by successful stores and deletes, with whatever splits, directory
doublings and record moves they make. Each of these steps keeps the index
sound (`Sound.bootstrap`, `Sound.store`, `Sound.delete`), so every reachable
index is sound (`Reachable.sound`).

Soundness holds the layout of the file (`Header.Layout`): the header block, the
directory, the bucket blocks the directory names and the records of positive
size lie apart from each other and from the free regions, all below the
frontier. So an allocation hands out a region that overlaps nothing in use
(`Sound.allocate_apart`), and a write that stays within one region in use
leaves the bytes of every other (`Sound.write_within`).
-/
namespace HashFile

namespace Index

variable {v : Volume} {ix : Index}

/-- Indexes reached from a blank file by laying it out, then by successful
stores and deletes. -/
inductive Reachable : Volume → Index → Prop
  | bootstrap {v v' : Volume} {ix ix' : Index} (hb : Blank v ix)
      (hr : Runs Index.bootstrap (v, ix) () (v', ix')) : Reachable v' ix'
  | store {v v' : Volume} {ix ix' : Index} {key value : Bytes} (h : Reachable v ix)
      (hr : Runs (Index.store key value) (v, ix) () (v', ix')) : Reachable v' ix'
  | delete {v v' : Volume} {ix ix' : Index} {key : Bytes} {found : Bool} (h : Reachable v ix)
      (hr : Runs (Index.delete key) (v, ix) found (v', ix')) : Reachable v' ix'

/-- Every reachable index is sound. -/
theorem Reachable.sound (h : Reachable v ix) : Sound v ix := by
  induction h with
  | bootstrap hb hr => exact (Sound.bootstrap hb hr).1
  | store _ hr ih => exact (ih.store hr).1
  | delete _ hr ih => exact (ih.delete hr).2.1

/-- Every reachable index is sound, and its records start within the largest
file and, holding bytes, end within the file: a store writes its record before
it points a slot at it. -/
theorem Reachable.placed (h : Reachable v ix) : Sound v ix ∧
    (∀ e ∈ (image v ix).slots, 0 < e.recordSize →
      e.dataOffset + e.recordSize ≤ (ix.disk v).size) ∧
    ∀ e ∈ (image v ix).slots, e.dataOffset ≤ Volume.maxFileSize := by
  induction h with
  | bootstrap hb hr =>
    have hr' := (Ready.bootstrap hb hr).1
    exact ⟨hr'.sound, hr'.records, hr'.offsets⟩
  | store _ hr ih =>
    obtain ⟨hs, hrec, hoff⟩ := ih
    have hsl := hs.store_slots hr
    have hg := keptByUpdates_grows.store _ _ _ _ _ hr
    refine ⟨(hs.store hr).1, fun e he hpos => ?_, fun e he => ?_⟩
    · rcases hsl e he with hold | ⟨-, -, hnew⟩
      · exact Nat.le_trans (hrec e hold hpos) hg.2
      · exact hnew hpos
    · rcases hsl e he with hold | ⟨-, hnew, -⟩
      · exact hoff e hold
      · exact hnew
  | delete _ hr ih =>
    obtain ⟨hs, hrec, hoff⟩ := ih
    obtain ⟨-, hs', -, -, hsl⟩ := hs.delete hr
    have hg := keptByUpdates_grows.delete _ _ _ _ hr
    exact ⟨hs', fun e he hpos => Nat.le_trans (hrec e (hsl e he) hpos) hg.2,
      fun e he => hoff e (hsl e he)⟩

/-- A reachable index is ready when its frontier lies within the largest file. -/
theorem Reachable.ready (h : Reachable v ix)
    (hf : ix.file.header.nextBlock ≤ Volume.maxFileSize) : Ready v ix :=
  ⟨h.placed.1, h.placed.2.1, h.placed.2.2, hf⟩

/-- Stores that run one after another keep an index reachable. -/
theorem Reachable.of_stores {value : Bytes} {keys : List Bytes} {v' : Volume} {ix' : Index}
    (h : Reachable v ix)
    (hr : Runs (keys.forM fun k => Index.store k value) (v, ix) () (v', ix')) :
    Reachable v' ix' := by
  induction keys generalizing v ix with
  | nil =>
    obtain ⟨rfl, rfl⟩ := Prod.mk.inj (runs_forM_nil.1 hr)
    exact h
  | cons k ks ih =>
    obtain ⟨⟨v1, ix1⟩, h1, hrest⟩ := runs_forM_cons.1 hr
    exact ih (h.store h1) hrest

/-- A successful allocation of `n > 0` bytes from a sound index hands out a
region that overlaps no region in use. -/
theorem Sound.allocate_apart (hs : Sound v ix) {n off : Nat} {s' : Volume × Index} (hn : 0 < n)
    (ha : Runs (allocate n) (v, ix) off s') :
    ∀ r ∈ (image v ix).used, Region.Disjoint ⟨off, n⟩ r := by
  obtain ⟨h', hah, -⟩ := runs_allocate.1 ha
  exact (List.pairwise_cons.1 (hs.layout.allocate hn hah).1.used_disjoint).1

/-- A write that stays within one region in use leaves the bytes of every other
region in use as they were. -/
theorem Sound.write_within (hs : Sound v ix) {r u : Region} (hr : r ∈ (image v ix).used)
    (hu : u ∈ (image v ix).used) (hne : u ≠ r) {bytes : ByteArray} (hsz : bytes.size ≤ r.size) :
    SparseBytes.window (ix.disk (v.writeAt ix.file.handle.ino r.offset bytes)).byteAt
        u.offset u.size =
      SparseBytes.window (ix.disk v).byteAt u.offset u.size := by
  have : Std.Symm Region.Disjoint := ⟨fun _ _ h => h.symm⟩
  have hd : r.Disjoint u := hs.layout.used_disjoint.forall hr hu (Ne.symm hne)
  rw [disk_eq, Volume.data_writeAt v hs.coherent.ino_lt]
  apply SparseBytes.window_write_of_disjoint hs.coherent.ordered
  simp only [Region.Disjoint, Region.stop] at hd
  omega

/-- In every index reached by stores and deletes, the regions in use (the header
block, the directory, the bucket blocks the directory names and the records of
positive size) and the free regions lie apart below the frontier; no free
region ends at the frontier or touches another, and the free list is sorted by
size, then offset, within the capacity its block size gives. So an allocation
hands out a region apart from every region in use, and a write within one region
in use leaves every other as it was. -/
theorem Reachable.space_never_overlaps (h : Reachable v ix) :
    ix.file.header.Layout (image v ix).used ∧
      ix.file.header.avail.capacity = availCapacity ix.file.header.blockSize ∧
      (∀ (n off : Nat) (s' : Volume × Index), 0 < n → Runs (allocate n) (v, ix) off s' →
        ∀ r ∈ (image v ix).used, Region.Disjoint ⟨off, n⟩ r) ∧
      ∀ r ∈ (image v ix).used, ∀ u ∈ (image v ix).used, u ≠ r →
        ∀ bytes : ByteArray, bytes.size ≤ r.size →
          SparseBytes.window (ix.disk (v.writeAt ix.file.handle.ino r.offset bytes)).byteAt
              u.offset u.size =
            SparseBytes.window (ix.disk v).byteAt u.offset u.size := by
  have hs := h.sound
  exact ⟨hs.layout, hs.capacity, fun _ _ _ hn ha => hs.allocate_apart hn ha,
    fun _ hr _ hu hne _ hsz => hs.write_within hr hu hne hsz⟩

/-- The store of the crowd in a new file reaches an index whose directory
doubled, and its space does not overlap. -/
theorem space_never_overlaps_crowd :
    ∃ v ix, Runs (crowd.forM fun k => Index.store k ⟨#[118]⟩) (laidOut.1, laidOut.2) () (v, ix) ∧
      laidOut.2.dir.bits < ix.dir.bits ∧ Reachable v ix ∧
      ix.file.header.Layout (image v ix).used ∧
      ix.file.header.avail.capacity = availCapacity ix.file.header.blockSize ∧
      (∀ (n off : Nat) (s' : Volume × Index), 0 < n → Runs (allocate n) (v, ix) off s' →
        ∀ r ∈ (image v ix).used, Region.Disjoint ⟨off, n⟩ r) ∧
      ∀ r ∈ (image v ix).used, ∀ u ∈ (image v ix).used, u ≠ r →
        ∀ bytes : ByteArray, bytes.size ≤ r.size →
          SparseBytes.window (ix.disk (v.writeAt ix.file.handle.ino r.offset bytes)).byteAt
              u.offset u.size =
            SparseBytes.window (ix.disk v).byteAt u.offset u.size := by
  obtain ⟨v, ix, hrun, -, -, -, hbits⟩ := crowd_laidOut (by decide : (⟨#[118]⟩ : Bytes).size ≤ 4096)
  have h : Reachable v ix :=
    (Reachable.bootstrap blank_blank runs_bootstrap_blank).of_stores hrun
  exact ⟨v, ix, hrun, hbits, h, Reachable.space_never_overlaps h⟩

end Index

end HashFile
