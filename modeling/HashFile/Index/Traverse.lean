import HashFile.Index.Lookup
import HashFile.Bucket.Walk

/-!
# Traversal

A traversal visits the buckets in directory order, each once (a bucket's
directory run is contiguous, so the next bucket begins at the next distinct
entry), and the slots of each bucket cyclically from its walk start. A
`Position` records the directory index a key was reached through, the bucket,
the slot and the walk start, so that a traversal can go on from it.
-/
namespace HashFile

/-- Where a traversal stands. -/
structure Position where
  dirIndex : Nat
  bucketOffset : Nat
  slot : Nat
  start : Nat
  deriving DecidableEq, Repr, Inhabited

namespace Index

/-- Walk buckets from directory index `i`. `resume` goes on with a bucket walk
under way: its start, a slot, and how many steps past that slot to begin. Each
round moves to a later directory index, so `fuel` rounds past the directory's
size are never needed. -/
def walkFrom : Nat → Nat → Option (Nat × Nat × Nat) → IndexM (Option (Position × Bytes))
  | 0, _, _ => pure none
  | fuel + 1, i, resume => do
    let d := (← current).dir
    if i < d.size then
      let off ← dirEntry i
      let b ← loadBucket off
      let (start, step) := match resume with
        | some (start, slot, skip) => (start, b.walkStep start slot + skip)
        | none => (b.walkStart, 0)
      match b.occupiedFrom start step with
      | some (slot, e) => pure (some (⟨i, off, slot, start⟩, ← readKey e))
      | none => walkFrom fuel (d.nextDistinct i) none
    else pure none

/-- Walk from directory index `i`. -/
def walk (i : Nat) (resume : Option (Nat × Nat × Nat)) : IndexM (Option (Position × Bytes)) := do
  walkFrom ((← current).dir.size + 1) i resume

/-- The first entry of a traversal. -/
def firstEntry : IndexM (Option (Position × Bytes)) := walk 0 none

/-- The entry after a position. -/
def entryAfter (p : Position) : IndexM (Option (Position × Bytes)) :=
  walk p.dirIndex (some (p.start, p.slot, 1))

/-- The entry at a position, or the next one when its slot is now vacant. -/
def entryAt (p : Position) : IndexM (Option (Position × Bytes)) :=
  walk p.dirIndex (some (p.start, p.slot, 0))

/-- Whether a position still names the bucket it was taken in. -/
def isCurrent (p : Position) : IndexM Bool := do
  pure ((← current).dir.get? p.dirIndex == some p.bucketOffset)

/-- The key at a position, if the position is current and its slot occupied. -/
def keyAt (p : Position) : IndexM (Option Bytes) := do
  if !(← isCurrent p) then return none
  let e ← elementAt p.bucketOffset p.slot
  if e.isVacant then return none
  some <$> readKey e

/-- The value at a position, if the position is current and its slot occupied. -/
def valueAt (p : Position) : IndexM (Option Bytes) := do
  if !(← isCurrent p) then return none
  let e ← elementAt p.bucketOffset p.slot
  if e.isVacant then return none
  some <$> readValue e

/-- The position of a stored key. -/
def positionOf (key : Bytes) : IndexM (Option Position) := do
  let loc ← locate key
  match loc.slot with
  | none => pure none
  | some s =>
    let start := (← loadBucket loc.bucketOffset).walkStart
    pure (some ⟨loc.dirIndex, loc.bucketOffset, s, start⟩)

/-- The first key of a traversal. -/
def firstKey : IndexM (Option Bytes) := do
  pure ((← firstEntry).map Prod.snd)

/-- The key after a stored key in traversal order. -/
def nextKey (key : Bytes) : IndexM (Option Bytes) := do
  match ← positionOf key with
  | some p => pure ((← entryAfter p).map Prod.snd)
  | none => pure none

end Index

end HashFile
