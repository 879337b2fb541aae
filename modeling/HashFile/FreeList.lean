import HashFile.Word

/-!
# The free list

Free regions of the file, kept in the header block. The list is ordered by
size, then offset, so the first region that is large enough is the best fit.
A region given back merges with every region it touches; when the list then
holds more regions than its capacity, the smallest is dropped and reported, and
its bytes stay unused until the file is reorganized.

`pick` removes the first region with a property; `take`, `takeEndingAt` and the
merging in `release` are built from it, and `pick_length` is what makes the
merging loop terminate. Where a region's end is computed, the sum is a checked
word sum (`HashFile.Word`); an operation cut short by an overflow answers it
together with the list as it stood at that point.
-/
namespace HashFile

/-- A region of the file: `size` bytes from `offset`. -/
structure Region where
  offset : Nat
  size : Nat
  deriving DecidableEq, Repr, Inhabited

namespace Region

/-- The first byte after the region. -/
def stop (r : Region) : Nat := r.offset + r.size

/-- The first byte after the region, when it is a word. -/
def stop? (r : Region) : Except Overflow Nat := addWord r.offset r.size

/-- Order of the free list: by size, then by offset. -/
def precedes (a b : Region) : Bool :=
  a.size < b.size || (a.size == b.size && a.offset ≤ b.offset)

/-- Whether a region `e` touches a region `m`: `e` ends where `m` begins, or
else `m` ends where `e` begins. The second end is only computed when the first
comparison fails. -/
def touches (m e : Region) : Except Overflow Bool := do
  if (← e.stop?) == m.offset then pure true
  else pure ((← m.stop?) == e.offset)

/-- Whether a region ends at a position. -/
def endsAt (stop : Nat) (e : Region) : Except Overflow Bool := do
  pure ((← e.stop?) == stop)

end Region

/-- Remainders smaller than this stay with the allocation they were cut from. -/
def minSplit : Nat := 16

/-- A bounded list of free regions, ordered by size, then offset. -/
structure FreeList where
  regions : List Region
  capacity : Nat
  deriving DecidableEq, Repr, Inhabited

namespace FreeList

/-- The free list with no regions. -/
def empty (capacity : Nat) : FreeList := ⟨[], capacity⟩

/-- Remove the first region with property `p`. -/
def pick (p : Region → Bool) : List Region → Option (Region × List Region)
  | [] => none
  | r :: rs => if p r then some (r, rs) else (pick p rs).map fun (x, xs) => (x, r :: xs)

theorem pick_length {p : Region → Bool} :
    ∀ {l : List Region} {x : Region} {rest : List Region},
      pick p l = some (x, rest) → rest.length + 1 = l.length
  | [], _, _, h => by simp [pick] at h
  | r :: rs, x, rest, h => by
    unfold pick at h
    split at h
    · simp only [Option.some.injEq, Prod.mk.injEq] at h
      obtain ⟨-, rfl⟩ := h
      rfl
    · obtain ⟨⟨y, ys⟩, hy, he⟩ := Option.map_eq_some_iff.1 h
      simp only [Prod.mk.injEq] at he
      obtain ⟨-, rfl⟩ := he
      have := pick_length hy
      simp only [List.length_cons]
      omega

/-- Remove the first region with property `p`, asking `p` of the regions in
order; a failure of `p` stops the search. -/
def pickBy (p : Region → Except Overflow Bool) : List Region → Except Overflow (Option (Region × List Region))
  | [] => .ok none
  | r :: rs => do
    if ← p r then pure (some (r, rs))
    else pure ((← pickBy p rs).map fun (x, xs) => (x, r :: xs))

theorem pickBy_length {p : Region → Except Overflow Bool} :
    ∀ {l : List Region} {x : Region} {rest : List Region},
      pickBy p l = .ok (some (x, rest)) → rest.length + 1 = l.length
  | [], _, _, h => by simp [pickBy] at h
  | r :: rs, x, rest, h => by
    unfold pickBy at h
    cases hr : p r with
    | error o => simp [hr, bind, Except.bind] at h
    | ok b =>
      cases b with
      | true =>
        simp only [hr, bind, Except.bind, if_true, pure, Except.pure, Except.ok.injEq,
          Option.some.injEq, Prod.mk.injEq] at h
        obtain ⟨-, rfl⟩ := h
        rfl
      | false =>
        simp only [hr, bind, Except.bind, Bool.false_eq_true, if_false] at h
        cases hrs : pickBy p rs with
        | error o => simp [hrs] at h
        | ok found =>
          cases found with
          | none => simp [hrs, pure, Except.pure] at h
          | some y =>
            obtain ⟨y, ys⟩ := y
            simp only [hrs, Option.map_some, pure, Except.pure, Except.ok.injEq,
              Option.some.injEq, Prod.mk.injEq] at h
            obtain ⟨-, rfl⟩ := h
            have := pickBy_length hrs
            simp only [List.length_cons]
            omega

/-- Insert a region before the first one it precedes. -/
def insertOrdered (r : Region) : List Region → List Region
  | [] => [r]
  | x :: xs => if r.precedes x then r :: x :: xs else x :: insertOrdered r xs

/-- Merge `m` with every region it touches, repeatedly, until none touches it;
answers the merged region and the regions left. An overflow stops the merging
with the regions left at that point. -/
def absorb (m : Region) (l : List Region) : Except Overflow Region × List Region :=
  match h : pickBy (Region.touches m) l with
  | .error o => (.error o, l)
  | .ok none => (.ok m, l)
  | .ok (some (e, rest)) =>
    have : rest.length < l.length := by have := pickBy_length h; omega
    match addWord e.size m.size with
    | .error o => (.error o, rest)
    | .ok size => absorb ⟨min e.offset m.offset, size⟩ rest
termination_by l.length

/-- Rebuild a list from regions in any order: sort them and drop the smallest
beyond the capacity. -/
def ofList (rs : List Region) (capacity : Nat) : FreeList :=
  let sorted := rs.mergeSort Region.precedes
  ⟨sorted.drop (sorted.length - capacity), capacity⟩

/-- Take `size` bytes from the smallest region that holds them; a remainder of
at least `minSplit` bytes stays free. Answers the offset taken. The region
leaves the list before its remainder's offset is computed. -/
def take (f : FreeList) (size : Nat) : Except Overflow (Option Nat) × FreeList :=
  match pick (fun e => decide (size ≤ e.size)) f.regions with
  | none => (.ok none, f)
  | some (e, rest) =>
    let remainder := e.size - size
    if minSplit ≤ remainder then
      match addWord e.offset size with
      | .error o => (.error o, { f with regions := rest })
      | .ok offset => (.ok (some e.offset), { f with regions := insertOrdered ⟨offset, remainder⟩ rest })
    else (.ok (some e.offset), { f with regions := rest })

/-- Give a region back. It merges with the regions it touches; if the list then
overflows, its smallest region is dropped and answered. -/
def release (f : FreeList) (offset size : Nat) : Except Overflow (Option Region) × FreeList :=
  match absorb ⟨offset, size⟩ f.regions with
  | (.error o, rest) => (.error o, { f with regions := rest })
  | (.ok merged, rest) =>
    let regions := insertOrdered merged rest
    if f.capacity < regions.length then
      match regions with
      | [] => (.ok none, { f with regions })
      | smallest :: others => (.ok (some smallest), { f with regions := others })
    else (.ok none, { f with regions })

/-- Remove the region that ends exactly at `stop`, if any. -/
def takeEndingAt (f : FreeList) (stop : Nat) : Except Overflow (Option Region) × FreeList :=
  match pickBy (Region.endsAt stop) f.regions with
  | .error o => (.error o, f)
  | .ok none => (.ok none, f)
  | .ok (some (e, rest)) => (.ok (some e), { f with regions := rest })

/-- The number of bytes free for reuse, when it is a word. -/
def freeBytes (f : FreeList) : Except Overflow Nat := sumWords (f.regions.map Region.size)

/-- The number of free regions. -/
def length (f : FreeList) : Nat := f.regions.length

end FreeList

end HashFile
