import HashFile.Bucket.Basic
import HashFile.Error

/-!
# Bucket blocks

A bucket is stored in one block: its depth (4 bytes) and count (4 bytes), then
24 bytes per slot (hash 4, key head 4, record offset 8, key size 4, value
size 4), all little-endian, then zero bytes up to the block size. A block
shorter than its contents is cut.

Decoding checks that the block holds every slot, that the count does not exceed
the slots, and that the count equals the number of slots that are not vacant.
-/
namespace HashFile

/-- Bytes in front of the slots. -/
def bucketHeaderSize : Nat := 8

/-- Bytes per slot. -/
def slotBytes : Nat := 24

/-- How many slots fit in a block. -/
def elemsForBlock (blockSize : Nat) : Nat := (blockSize - bucketHeaderSize) / slotBytes

namespace Slot

/-- Append the 24 bytes of a slot. -/
def write (b : ByteArray) (s : Slot) : ByteArray :=
  pushWord (pushWord (pushWord (pushBytes (pushWord b 4 s.hash) s.head) 8 s.dataOffset) 4
    s.keySize) 4 s.dataSize

/-- The slot whose 24 bytes start at `pos`. -/
def read (bytes : ByteArray) (pos : Nat) : Slot where
  hash := readWord bytes pos 4
  head := (sliceBytes bytes (pos + 4) 4).toList
  dataOffset := readWord bytes (pos + 8) 8
  keySize := readWord bytes (pos + 16) 4
  dataSize := readWord bytes (pos + 20) 4

end Slot

namespace Bucket

/-- The block of a bucket. -/
def encode (b : Bucket) (blockSize : Nat) : ByteArray :=
  fitBytes (b.slots.foldl Slot.write (pushWord (pushWord ByteArray.empty 4 b.depth) 4 b.count))
    blockSize

/-- Read a bucket of `elems` slots from a block. -/
def decode (bytes : ByteArray) (elems : Nat) : Except BucketFault Bucket :=
  let needed := bucketHeaderSize + elems * slotBytes
  if bytes.size < needed then .error (.shortBlock bytes.size needed)
  else
    let count := readWord bytes 4 4
    if elems < count then .error (.countAboveSlots count elems)
    else
      let b : Bucket := ⟨readWord bytes 0 4, count,
        (Array.range elems).map fun i => Slot.read bytes (bucketHeaderSize + i * slotBytes)⟩
      let occupied := b.occupiedCount
      if occupied ≠ count then .error (.countMismatch count occupied)
      else .ok b

end Bucket

end HashFile
