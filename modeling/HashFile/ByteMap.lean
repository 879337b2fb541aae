import HashFile.Key

/-!
# Maps from byte strings

A map from byte strings to byte strings is a list of pairs sorted by key,
each key once. Byte strings are ordered lexicographically by their bytes, a
proper prefix first. `ByteMap.ofPairs` keeps the last value given for a key,
as inserting one pair after another does; `ByteMap.ofPairsFirst` keeps the
first.
-/
namespace HashFile

/-- Lexicographic order of byte lists: a proper prefix comes first. -/
def bytesListLe : List UInt8 → List UInt8 → Bool
  | [], _ => true
  | _ :: _, [] => false
  | a :: as, b :: bs => a < b || (a == b && bytesListLe as bs)

/-- Lexicographic order of byte strings. -/
def bytesLe (a b : Bytes) : Bool := bytesListLe a.toList b.toList

/-- A map from byte strings to byte strings, sorted by key. -/
abbrev ByteMap := List (Bytes × Bytes)

namespace ByteMap

/-- Of adjacent pairs with one key, keep the last. -/
def keepLast : List (Bytes × Bytes) → List (Bytes × Bytes)
  | a :: b :: rest => if a.1 == b.1 then keepLast (b :: rest) else a :: keepLast (b :: rest)
  | l => l

/-- Of adjacent pairs with one key, keep the first. -/
def keepFirst : List (Bytes × Bytes) → List (Bytes × Bytes)
  | a :: b :: rest => if a.1 == b.1 then keepFirst (a :: rest) else a :: keepFirst (b :: rest)
  | l => l

/-- The map of pairs inserted in order: a later pair replaces an earlier one with its key. -/
def ofPairs (ps : List (Bytes × Bytes)) : ByteMap :=
  keepLast (ps.mergeSort fun a b => bytesLe a.1 b.1)

/-- The map of pairs where the first pair with a key wins. -/
def ofPairsFirst (ps : List (Bytes × Bytes)) : ByteMap :=
  keepFirst (ps.mergeSort fun a b => bytesLe a.1 b.1)

end ByteMap

end HashFile
