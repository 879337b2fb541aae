import HashFile.Session.Basic
import HashFile.ByteMap

/-!
# Bulk operations

Operations over all records, each built on one traversal from a fresh cursor:
the keys, the values and the pairs in traversal order, callbacks called on each
of them in that order, the first key holding a value, the inverse map, and the
pairs a predicate selects or rejects. A predicate also learns how many times
it was called before (its pair's place in the traversal).

Deleting by a predicate first collects every match in one complete traversal
and only then deletes, so the deletions never disturb the traversal; a
predicate that fails stops it before anything is deleted. Clearing deletes the
traversal's keys in passes until none is left.
-/
namespace HashFile

/-- A predicate on a pair that knows how many times it was called before. -/
abbrev PairFilter := Nat → Bytes → Bytes → Bool

namespace Session

/-- The pairs in traversal order. -/
def toList : SessionM (List (Bytes × Bytes)) := do
  let acc ← withIndex (Cursor.pairs #[] fun acc k v => .ok (.yield (acc.push (k, v))))
  pure acc.toList

/-- The keys in traversal order. -/
def keys : SessionM (List Bytes) := do
  let acc ← withIndex (Cursor.keys #[] fun acc k => .yield (acc.push k))
  pure acc.toList

/-- The values in traversal order. -/
def values : SessionM (List Bytes) := do
  pure ((← toList).map Prod.snd)

/-- Call a callback on each pair in traversal order; the callback's own state
is threaded through the calls and answered. -/
def eachPair {β : Type} (init : β) (f : β → Bytes → Bytes → β) : SessionM β :=
  withIndex (Cursor.pairs init fun acc k v => .ok (.yield (f acc k v)))

/-- Call a callback on each key in traversal order, threading its state. -/
def eachKey {β : Type} (init : β) (f : β → Bytes → β) : SessionM β :=
  withIndex (Cursor.keys init fun acc k => .yield (f acc k))

/-- Call a callback on each value in traversal order: the pairs' callback
shown the value alone. -/
def eachValue {β : Type} (init : β) (f : β → Bytes → β) : SessionM β :=
  eachPair init fun acc _ v => f acc v

/-- The first `n` pairs in traversal order. -/
def take (n : Nat) : SessionM (List (Bytes × Bytes)) := do
  if n = 0 then requireOpen; return []
  let acc ← withIndex (Cursor.pairs #[] fun acc k v =>
    let acc := acc.push (k, v)
    .ok (if acc.size < n then .yield acc else .done acc))
  pure acc.toList

/-- The records as a map. -/
def toMap : SessionM ByteMap := do pure (ByteMap.ofPairs (← toList))

/-- The first key, in traversal order, that holds a value. -/
def keyOf (value : Bytes) : SessionM (Option Bytes) :=
  withIndex (Cursor.pairs none fun _ k v => .ok (if v == value then .done (some k) else .yield none))

/-- Whether some key holds a value. -/
def containsValue (value : Bytes) : SessionM Bool := do pure (← keyOf value).isSome

/-- The map from each value to the first key, in traversal order, holding it. -/
def invert : SessionM ByteMap := do
  pure (ByteMap.ofPairsFirst ((← toList).map fun (k, v) => (v, k)))

/-- The pairs a predicate accepts, in traversal order. -/
def select (p : PairFilter) : SessionM (List (Bytes × Bytes)) := do
  let (_, acc) ← withIndex (Cursor.pairs (0, #[]) fun (i, acc) k v =>
    .ok (.yield (i + 1, if p i k v then acc.push (k, v) else acc)))
  pure acc.toList

/-- The map of the pairs a predicate rejects; the file is not touched. -/
def reject (p : PairFilter) : SessionM ByteMap := do
  let (_, acc) ← withIndex (Cursor.pairs (0, #[]) fun (i, acc) k v =>
    .ok (.yield (i + 1, if p i k v then acc else acc.push (k, v))))
  pure (ByteMap.ofPairs acc.toList)

/-- Delete keys one by one; answers how many were stored. -/
def deleteEach (keys : List Bytes) : SessionM Nat :=
  keys.foldlM (fun n k => do pure (if ← withIndex (Index.delete k) then n + 1 else n)) 0

/-- Delete every pair a failing predicate accepts, after a full traversal;
a failure of the predicate stops the traversal, and nothing is deleted. -/
def tryDeleteIf (p : Nat → Bytes → Bytes → Outcome Bool) : SessionM Nat := do
  requireWriter
  let (_, doomed) ← withIndex (Cursor.pairs (0, #[]) fun (i, acc) k v => do
    pure (.yield (i + 1, if ← p i k v then acc.push k else acc)))
  requireWriter
  let n ← deleteEach doomed.toList
  noteDeleted n
  pure n

/-- Delete every pair a predicate accepts. -/
def deleteIf (p : PairFilter) : SessionM Nat := tryDeleteIf fun i k v => .ok (p i k v)

/-- Delete the keys of one pass: from `key` on, each key after its successor is found. -/
def clearPass : Nat → Option Bytes → IndexM Unit
  | 0, _ => pure ()
  | _, none => pure ()
  | fuel + 1, some current => do
    let next ← Index.nextKey current
    discard <| Index.delete current
    clearPass fuel next

/-- Delete passes until no key is left. -/
def clearAll : Nat → Nat → IndexM Unit
  | 0, _ => pure ()
  | fuel + 1, bound => do
    match ← Index.firstKey with
    | none => pure ()
    | some first =>
      clearPass bound (some first)
      clearAll fuel bound

/-- Delete every record. Each pass deletes at least its first key, and deletion
never splits, so the number of slots bounds both the passes and their lengths. -/
def clear : SessionM Unit := do
  requireWriter
  modifySession fun s => { s with lenCache := none }
  withIndex do
    let bound ← Cursor.traversalBound
    clearAll bound bound
  modifySession fun s => { s with lenCache := some 0, cursor := .unstarted }

/-- Remove and answer the first pair in traversal order. -/
def shift : SessionM (Option (Bytes × Bytes)) := do
  requireWriter
  match ← withIndex Index.firstKey with
  | none => pure none
  | some k =>
    match ← withIndex (Index.fetch k) with
    | none => pure none
    | some v =>
      if ← withIndex (Index.delete k) then noteDeleted 1
      pure (some (k, v))

/-- Store every pair, in order. -/
def update (pairs : List (Bytes × Bytes)) : SessionM Unit :=
  pairs.forM fun (k, v) => put k v

/-- Clear, then store every pair. -/
def replace (pairs : List (Bytes × Bytes)) : SessionM Unit := do
  clear
  update pairs

end Session

end HashFile
