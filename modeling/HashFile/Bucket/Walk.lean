import HashFile.Bucket.Basic
import HashFile.Word

/-!
# Walking a bucket

A traversal visits the slots of a bucket cyclically from its walk start: the
first slot that no probe run enters from the slot before it. Removal only ever
moves an entry back along its own run, toward its home, and never across the
walk start, so an entry still ahead of a walk stays ahead of it when the entry
the walk stands on is removed.

Positions in a walk are counted in steps from the start (`walkStep`);
`occupiedFrom start step` is the first occupied slot at least `step` steps in.
`seekOccupied` is the same search with each position `start + i` a word: a
walk starts at a slot, where every position is one and the two searches agree;
from a start near the largest word, the first position past it ends the search.
-/
namespace HashFile

namespace Bucket

/-- Whether some entry lies past `s` on a run that began before `s`: its path
from home to its slot went through the slot before `s` into `s`. -/
def chainEnters (b : Bucket) (s : Nat) : Bool :=
  let n := b.size
  if (b.slot ((s + n - 1) % n)).isVacant then false
  else b.occupied.any fun (pos, e) => decide ((pos + n - s) % n < (pos + n - b.home e.hash) % n)

/-- The slot a traversal of this bucket begins at. -/
def walkStart (b : Bucket) : Nat :=
  ((List.range b.size).find? fun s => !b.chainEnters s).getD 0

/-- How many steps into a walk from `start` the slot lies. -/
def walkStep (b : Bucket) (start s : Nat) : Nat :=
  let n := b.size
  (s % n + n - start % n) % n

/-- The first occupied slot at least `step` steps into a walk from `start`. -/
def occupiedFrom (b : Bucket) (start step : Nat) : Option (Nat × Slot) :=
  let n := b.size
  (((List.range (n - step)).map fun i => (start + step + i) % n).find? fun s =>
    !(b.slot s).isVacant).map fun s => (s, b.slot s)

/-- The first occupied slot among positions `start + i`, for `i` in order,
each reduced to a slot; a position that is no word ends the search. -/
def seekFrom (b : Bucket) (start : Nat) : List Nat → Except Overflow (Option (Nat × Slot))
  | [] => .ok none
  | i :: rest => do
    let s := (← addWord start i) % b.size
    if (b.slot s).isVacant then seekFrom b start rest else pure (some (s, b.slot s))

/-- `occupiedFrom` over word positions. -/
def seekOccupied (b : Bucket) (start step : Nat) : Except Overflow (Option (Nat × Slot)) :=
  seekFrom b start (List.range' step (b.size - step))

/-- Over positions that are words, the checked search is the plain one. -/
theorem seekFrom_eq (b : Bucket) (start : Nat) (l : List Nat)
    (h : ∀ i ∈ l, start + i < wordSize) :
    b.seekFrom start l =
      .ok (((l.map fun i => (start + i) % b.size).find? fun s => !(b.slot s).isVacant).map
        fun s => (s, b.slot s)) := by
  induction l with
  | nil => rfl
  | cons i rest ih =>
    have hi : start + i < wordSize := h i (by simp)
    have hr := ih fun j hj => h j (by simp [hj])
    simp only [seekFrom, addWord_of_lt hi, List.map_cons, List.find?_cons]
    by_cases hv : (b.slot ((start + i) % b.size)).isVacant
    · simp [hv, hr, bind, Except.bind]
    · simp [hv, bind, Except.bind, pure, Except.pure]

/-- From a start that leaves room for a whole turn, `seekOccupied` is `occupiedFrom`. -/
theorem seekOccupied_eq (b : Bucket) (start step : Nat) (h : start + b.size ≤ wordSize) :
    b.seekOccupied start step = .ok (b.occupiedFrom start step) := by
  unfold seekOccupied occupiedFrom
  rw [seekFrom_eq]
  · congr 2
    rw [List.range'_eq_map_range, List.map_map]
    congr 1
    refine List.map_congr_left fun i _ => ?_
    simp only [Function.comp_apply, Nat.add_assoc]
  · intro i hi
    simp [List.mem_range'] at hi
    omega

end Bucket

end HashFile
