import HashFile.Index.Traverse

/-!
# Cursors

A cursor walks every key once in traversal order and remembers where its last
key was. When that key has been deleted before the cursor moves on, the cursor
goes on from the same slot, which now holds the entry that followed (removal
only pulls later entries of the bucket's walk into the hole); when the
directory changed under it, the cursor finds the key again, or goes on from
its old place when the key is gone.

`Cursor.pairs` and `Cursor.keys` are the traversals of a fresh cursor, folded
with a step that may stop early. Without changes in between a traversal visits
each occupied slot once, which bounds its number of steps.
-/
namespace HashFile

/-- Where a cursor is. -/
inductive Cursor where
  | unstarted
  /-- On a key, found at a position. -/
  | onKey (p : Position) (key : Bytes)
  | exhausted
  deriving Inhabited

namespace Cursor

/-- Move onto what a traversal step found. -/
def settle : Option (Position × Bytes) → Option Bytes × Cursor
  | some (p, key) => (some key, .onKey p key)
  | none => (none, .exhausted)

/-- Start over and answer the first key. -/
def first : IndexM (Option Bytes × Cursor) := do
  pure (settle (← Index.firstEntry))

/-- Move past the key last answered. -/
def next : Cursor → IndexM (Option Bytes × Cursor)
  | .unstarted => first
  | .exhausted => pure (none, .exhausted)
  | .onKey p key => do
    let found ←
      if (← Index.keyAt p) == some key then Index.entryAfter p
      else if ← Index.isCurrent p then Index.entryAt p
      else
        match ← Index.positionOf key with
        | some moved => Index.entryAfter moved
        | none => Index.entryAt p
    pure (settle found)

/-- Put the cursor on a stored key; a key not stored resets it. -/
def seek (key : Bytes) : IndexM (Bool × Cursor) := do
  match ← Index.positionOf key with
  | some p => pure (true, .onKey p key)
  | none => pure (false, .unstarted)

/-- The key the cursor is on. -/
def current : Cursor → Option Bytes
  | .onKey _ key => some key
  | _ => none

/-- The position the cursor is on. -/
def position : Cursor → Option Position
  | .onKey p _ => some p
  | _ => none

/-- The pair after the cursor: its key, and the value read at its position or
else looked up. A key whose value cannot be found ends the traversal. -/
def nextPair (c : Cursor) : IndexM (Option (Bytes × Bytes) × Cursor) := do
  let (k, c) ← c.next
  match k with
  | none => pure (none, c)
  | some key =>
    let atPosition ← match c.position with
      | some p => Index.valueAt p
      | none => pure none
    match atPosition with
    | some value => pure (some (key, value), c)
    | none => pure ((← Index.fetch key).map fun value => (key, value), c)

/-- The most steps a traversal of the current index can take. -/
def traversalBound : IndexM Nat := do
  let ix ← Index.current
  pure (ix.dir.size * ix.file.header.bucketElems + 2)

/-- Fold the pairs of a traversal from a fresh cursor, until the step says stop. -/
def pairs {β : Type} (init : β) (f : β → Bytes → Bytes → Outcome (ForInStep β)) : IndexM β := do
  let rec go : Nat → Cursor → β → IndexM β
    | 0, _, acc => pure acc
    | fuel + 1, c, acc => do
      match ← c.nextPair with
      | (none, _) => pure acc
      | (some (k, v), c) =>
        match ← liftExcept (f acc k v) with
        | .done acc => pure acc
        | .yield acc => go fuel c acc
  go (← traversalBound) .unstarted init

/-- Fold the keys of a traversal from a fresh cursor, until the step says stop. -/
def keys {β : Type} (init : β) (f : β → Bytes → ForInStep β) : IndexM β := do
  let rec go : Nat → Cursor → β → IndexM β
    | 0, _, acc => pure acc
    | fuel + 1, c, acc => do
      match ← c.next with
      | (none, _) => pure acc
      | (some k, c) =>
        match f acc k with
        | .done acc => pure acc
        | .yield acc => go fuel c acc
  go (← traversalBound) .unstarted init

end Cursor

end HashFile
