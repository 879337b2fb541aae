/-!
# Directory blocks

The size a directory reports is the bytes of the blocks it holds. A new
directory has one block of `dirBlockSize` bytes holding two records, `.` and
`..`; every entry is one more record, an 8-byte head and the name padded to a
multiple of 4 (`recordSize`). A record spans its own bytes and the free space
after it, so the spans of a block add up to the block (`spanSum_place`,
`spanSum_merge`).

Adding an entry takes the first record whose free space holds the new record
and splits it there; removing one gives its span to the record before it. Free
space so stays where entries were, in pieces, and a block can refuse a name
that its free bytes would hold in sum.

When no record has room the directory becomes indexed: a root block over leaf
blocks that share the entries. Which leaf an entry goes to follows a hash of
its name under a seed of the file system's own, so the leaves are counted as
if they filled evenly: a power of two of them, the fewest that hold the
entries' records, at least two, and never fewer than before. Blocks are never
given back.
-/
namespace HashFile

/-- The size of a directory block. -/
def dirBlockSize : Nat := 4096

/-- The bytes the record of a name takes: an 8-byte head and the name, padded
to a multiple of 4. -/
def recordSize (name : String) : Nat := (8 + name.utf8ByteSize + 3) / 4 * 4

/-- A record of a directory block: the name it holds and the bytes it spans,
its own and the free space after it. -/
structure DirRecord where
  name : String
  span : Nat
  deriving Repr, Inhabited

/-- The free space after a record. -/
def DirRecord.room (r : DirRecord) : Nat := r.span - recordSize r.name

/-- How a directory holds its entries. -/
inductive DirLayout where
  /-- One block of records, in order. -/
  | linear (records : List DirRecord)
  /-- A root block over leaf blocks: the count of all its blocks, and the
  bytes the records of its entries take. -/
  | indexed (blocks bytes : Nat)
  deriving Repr, Inhabited

namespace DirLayout

/-- A new directory: `.` and `..` in one block, the free space after `..`. -/
def fresh : DirLayout := .linear [⟨".", 12⟩, ⟨"..", dirBlockSize - 12⟩]

/-- Split the first record with room for the record of a name, which takes
that room; `none` when no record has it. -/
def place (name : String) : List DirRecord → Option (List DirRecord)
  | [] => none
  | r :: rest =>
    if recordSize name ≤ r.room then
      some (⟨r.name, recordSize r.name⟩ :: ⟨name, r.room⟩ :: rest)
    else (place name rest).map (r :: ·)

/-- Give the span of the record of a name to the record before it. -/
def merge (name : String) : List DirRecord → List DirRecord
  | a :: b :: rest =>
    if b.name = name then ⟨a.name, a.span + b.span⟩ :: rest
    else a :: merge name (b :: rest)
  | rs => rs

/-- The leaf blocks for entries whose records take `bytes`: the fewest, as a
power of two, that hold them, and at least two. -/
def leavesFor (bytes : Nat) : Nat :=
  max 2 ((bytes + dirBlockSize - 1) / dirBlockSize).nextPowerOfTwo

/-- The blocks a directory holds. -/
def blocks : DirLayout → Nat
  | .linear _ => 1
  | .indexed n _ => n

/-- The size a directory reports. -/
def size (d : DirLayout) : Nat := dirBlockSize * d.blocks

/-- The bytes the records of a block's entries take: all records but `.` and
`..`, which lead the block. -/
def entryBytes (rs : List DirRecord) : Nat :=
  ((rs.drop 2).map fun r => recordSize r.name).foldr (· + ·) 0

/-- An indexed directory of at least `n` blocks whose entries' records take
`bytes`. -/
def indexedOver (n bytes : Nat) : DirLayout := .indexed (max n (1 + leavesFor bytes)) bytes

/-- Add the record of a name: into the first record with room for it, or, when
none has, into an index. -/
def insert (name : String) : DirLayout → DirLayout
  | .linear rs =>
    match place name rs with
    | some rs => .linear rs
    | none => indexedOver 1 (entryBytes rs + recordSize name)
  | .indexed n bytes => indexedOver n (bytes + recordSize name)

/-- Remove the record of a name. -/
def erase (name : String) : DirLayout → DirLayout
  | .linear rs => .linear (merge name rs)
  | .indexed n bytes => .indexed n (bytes - recordSize name)

/-- The bytes the records of a block span together. -/
def spanSum (rs : List DirRecord) : Nat := (rs.map DirRecord.span).foldr (· + ·) 0

theorem spanSum_place (name : String) (rs rs' : List DirRecord)
    (h : place name rs = some rs') : spanSum rs' = spanSum rs := by
  induction rs generalizing rs' with
  | nil => simp [place] at h
  | cons r rest ih =>
    simp only [place] at h
    split at h
    · rename_i hr
      cases h
      have : 0 < recordSize name := by unfold recordSize; omega
      simp only [spanSum, List.map_cons, List.foldr_cons, DirRecord.room] at hr ⊢
      omega
    · cases hp : place name rest with
      | none => simp [hp] at h
      | some rs'' =>
        simp only [hp, Option.map_some, Option.some.injEq] at h
        subst h
        have := ih rs'' hp
        simp only [spanSum, List.map_cons, List.foldr_cons] at this ⊢
        omega

theorem spanSum_merge (name : String) (rs : List DirRecord) :
    spanSum (merge name rs) = spanSum rs := by
  induction rs with
  | nil => simp [merge]
  | cons a rest ih =>
    cases rest with
    | nil => simp [merge]
    | cons b rest =>
      simp only [merge]
      split
      · simp only [spanSum, List.map_cons, List.foldr_cons]
        omega
      · simp only [spanSum, List.map_cons, List.foldr_cons] at ih ⊢
        omega

/-- Adding an entry never gives blocks back. -/
theorem blocks_le_insert (name : String) (d : DirLayout) : d.blocks ≤ (d.insert name).blocks := by
  cases d with
  | linear rs =>
    simp only [insert]
    split
    · exact Nat.le_refl _
    · exact Nat.le_max_left 1 _
  | indexed n bytes => exact Nat.le_max_left n _

/-- Removing an entry keeps the blocks. -/
@[simp] theorem blocks_erase (name : String) (d : DirLayout) : (d.erase name).blocks = d.blocks := by
  cases d <;> rfl

end DirLayout

end HashFile
