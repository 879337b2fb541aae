import HashFile.Key

/-!
# Buckets

A bucket is a fixed number of slots addressed by linear probing: a hash starts
at its home slot `hash % size` and moves forward, cyclically, to the first
vacant slot. A slot records where a record lives (`dataOffset`), the sizes of
its key and value, the key's hash and the first four key bytes. A vacant slot
carries the hash `vacantHash`, which no key hash reaches; a slot is judged
vacant by that hash alone.

Removal empties a slot and pulls later members of the probe run back into the
hole, so that every lookup that starts at an entry's home still reaches it
(`remove`). A bucket also carries its local depth: the number of leading hash
bits its keys share.
-/
namespace HashFile

/-- The hash value of a vacant slot. -/
def vacantHash : Nat := 0xFFFFFFFF

/-- One slot of a bucket. -/
structure Slot where
  hash : Nat
  /-- The first four bytes of the key, zero padded. -/
  head : List UInt8
  dataOffset : Nat
  keySize : Nat
  dataSize : Nat
  deriving DecidableEq, Repr, Inhabited

namespace Slot

/-- The slot that holds nothing. -/
def vacant : Slot := ⟨vacantHash, [0, 0, 0, 0], 0, 0, 0⟩

/-- A slot is vacant when it carries the vacant hash. -/
def isVacant (s : Slot) : Bool := s.hash == vacantHash

/-- Bytes of the record: the key followed by the value. -/
def recordSize (s : Slot) : Nat := s.keySize + s.dataSize

end Slot

/-- A bucket: local depth, number of entries and slots. -/
structure Bucket where
  depth : Nat
  count : Nat
  slots : Array Slot
  deriving DecidableEq, Repr, Inhabited

namespace Bucket

/-- A bucket with `elems` vacant slots. -/
def empty (depth elems : Nat) : Bucket := ⟨depth, 0, Array.replicate elems Slot.vacant⟩

/-- The number of slots. -/
def size (b : Bucket) : Nat := b.slots.size

/-- The slot at a position; positions past the end read as vacant. -/
def slot (b : Bucket) (i : Nat) : Slot := b.slots.getD i Slot.vacant

/-- No slot is left once the count reaches the size. -/
def isFull (b : Bucket) : Bool := b.size ≤ b.count

/-- The slot where probing for a hash starts. -/
def home (b : Bucket) (hash : Nat) : Nat := hash % b.size

/-- The positions of a cyclic walk over all `n` slots from `start`. -/
def cyclic (n start : Nat) : List Nat := (List.range n).map fun i => (start + i) % n

/-- The occupied slots on the probe path of a hash, in probe order. -/
def probe (b : Bucket) (hash : Nat) : List Nat :=
  (cyclic b.size (b.home hash)).takeWhile fun s => !(b.slot s).isVacant

/-- Put an entry into the first vacant slot of its probe path. Answers the
slot, or nothing when the bucket is full. -/
def insert (b : Bucket) (e : Slot) : Option Nat × Bucket :=
  if b.isFull then (none, b)
  else
    match (cyclic b.size (b.home e.hash)).find? fun s => (b.slot s).isVacant with
    | none => (none, b)
    | some s => (some s, { b with slots := b.slots.set! s e, count := b.count + 1 })

/-- Whether an entry whose home is `h`, found at `pos`, may move back into the
hole: the hole lies cyclically in `[h, pos)`. -/
def movable (hole pos h : Nat) : Bool :=
  if hole < pos then h ≤ hole || pos < h else h ≤ hole && pos < h

/-- Pull entries after the hole back into it while the run goes on. Each move
brings an entry closer to its home, and without a move the scan reaches the
hole within one round, so `size * (size * size + 1)` steps always suffice. -/
def shiftBack (b : Bucket) (hole pos : Nat) : Nat → Bucket
  | 0 => b
  | fuel + 1 =>
    if pos == hole || (b.slot pos).isVacant then b
    else
      let e := b.slot pos
      let next := (pos + 1) % b.size
      if movable hole pos (b.home e.hash) then
        shiftBack { b with slots := (b.slots.set! hole e).set! pos Slot.vacant } pos next fuel
      else shiftBack b hole next fuel

/-- Empty a slot and close the hole. Answers what the slot held. -/
def remove (b : Bucket) (i : Nat) : Slot × Bucket :=
  let removed := b.slot i
  if removed.isVacant then (removed, b)
  else
    let opened := { b with slots := b.slots.set! i Slot.vacant, count := b.count - 1 }
    (removed, opened.shiftBack i ((i + 1) % b.size) (b.size * (b.size * b.size + 1)))

/-- The occupied slots with their positions, in slot order. -/
def occupied (b : Bucket) : List (Nat × Slot) :=
  ((List.range b.size).map fun i => (i, b.slot i)).filter fun p => !p.2.isVacant

/-- The number of slots that are not vacant. -/
def occupiedCount (b : Bucket) : Nat := b.occupied.length

end Bucket

end HashFile
