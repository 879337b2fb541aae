import HashFile.Bytes.LittleEndian

/-!
# The bucket directory

`2 ^ bits` bucket offsets indexed by the top `bits` bits of a key hash. A bucket
of local depth `d` owns the aligned run of `2 ^ (bits - d)` entries that share
its `d` leading bits (`rangeOf`); that runs are contiguous is what lets a
traversal visit each bucket once, moving from one run to the next with
`nextDistinct`.

On disk the directory is its entries as 8-byte little-endian words. It is kept
in memory and written when it changed (`dirty`).
-/
namespace HashFile

/-- The bucket directory. -/
structure Directory where
  /-- Global depth. -/
  bits : Nat
  entries : Array Nat
  /-- Where the directory is stored. -/
  offset : Nat
  dirty : Bool
  deriving DecidableEq, Repr, Inhabited

namespace Directory

/-- Bytes of a directory of depth `bits`. -/
def byteSize (bits : Nat) : Nat := 8 * Nat.pow 2 bits

/-- A directory whose entries all point at one bucket. -/
def uniform (bits bucket offset : Nat) : Directory :=
  ⟨bits, Array.replicate (Nat.pow 2 bits) bucket, offset, true⟩

/-- Read the entries of a directory of depth `bits` from its bytes. -/
def decode (bytes : ByteArray) (bits offset : Nat) : Directory :=
  ⟨bits, (Array.range (min (Nat.pow 2 bits) (bytes.size / 8))).map fun i => readWord bytes (8 * i) 8,
    offset, false⟩

/-- The bytes of the entries. -/
def encode (d : Directory) : ByteArray :=
  d.entries.foldl (fun b e => pushWord b 8 e) ByteArray.empty

/-- The number of entries. -/
def size (d : Directory) : Nat := d.entries.size

/-- The entry at an index. -/
def get? (d : Directory) (i : Nat) : Option Nat := d.entries[i]?

/-- Double the directory: every entry is written twice in place. -/
def double (d : Directory) : Directory :=
  { d with entries := d.entries.flatMap (fun e => #[e, e]), bits := d.bits + 1, dirty := true }

/-- The entries owned by the bucket of local depth `local` that index `i` maps to. -/
def rangeOf (d : Directory) (i localBits : Nat) : Nat × Nat :=
  let span := Nat.pow 2 (d.bits - localBits)
  let start := i / span * span
  (start, start + span)

/-- Point the entries `[lo, hi)` at a bucket. -/
def setRange (d : Directory) (lo hi bucket : Nat) : Directory :=
  { d with entries := (List.range (hi - lo)).foldl (fun es k => es.set! (lo + k) bucket) d.entries,
           dirty := true }

/-- The first index after `i` whose entry differs from entry `i`; the size
when there is none, or when `i` is past the end. -/
def nextDistinct (d : Directory) (i : Nat) : Nat :=
  match d.get? i with
  | none => d.size
  | some current =>
    let rec go (j : Nat) : Nat :=
      if h : j < d.size then
        if d.entries[j] = current then go (j + 1) else j
      else j
    termination_by d.size - j
    go i

/-- The number of distinct runs of entries: the number of buckets. -/
def bucketCount (d : Directory) : Nat :=
  let rec go (i count fuel : Nat) : Nat :=
    match fuel with
    | 0 => count
    | fuel + 1 => if i < d.size then go (d.nextDistinct i) (count + 1) fuel else count
  go 0 0 d.size

end Directory

end HashFile

