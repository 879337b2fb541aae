import HashFile.FreeList
import HashFile.Error
import HashFile.Config
import HashFile.Bytes.Crc32

/-!
# The header block

Block 0 of every file: the block size, where the directory lies and how deep it
is, the number of slots per bucket, the allocation frontier (the first byte
never handed out) and the free list.

Space is handed out by `Header.allocate`, best fit from the free list and else
at the frontier, and given back by `Header.release`: space ending at the
frontier moves the frontier back, together with every free region that then
ends there. Both compute with checked word sums; when one overflows they answer
it with the header as it stood at that point.

On disk the block is the payload length (4 bytes) and its CRC-32 (4 bytes),
then the payload, then zero bytes up to the block size. The payload holds
magic (4), format version (2), block size (4), directory offset (8), directory
depth (4), slots per bucket (4), frontier (8), the number of free regions (8)
and each region's offset and size (8 + 8), all little-endian.
-/
namespace HashFile

/-- The magic number of a database file, the bytes "BDTA" read little-endian. -/
def headerMagic : Nat := 0x41544442

/-- The current format version. -/
def formatVersion : Nat := 1

/-- Length and checksum in front of the payload. -/
def headerPrefixSize : Nat := 8

/-- Bytes of the payload before the free regions. -/
def headerFixedSize : Nat := 42

/-- Bytes per free region in the payload. -/
def regionSize : Nat := 16

/-- How many free regions a header block of this size holds. -/
def availCapacity (blockSize : Nat) : Nat :=
  (blockSize - headerPrefixSize - headerFixedSize) / regionSize

/-- The decoded header. -/
structure Header where
  blockSize : Nat
  /-- Where the directory lies; 0 until the index is laid out. -/
  dirOffset : Nat
  /-- The directory has `2 ^ dirBits` entries. -/
  dirBits : Nat
  bucketElems : Nat
  /-- The first byte never handed out. -/
  nextBlock : Nat
  avail : FreeList
  deriving DecidableEq, Repr, Inhabited

namespace Header

/-- The header of a file just made: nothing allocated past block 0. -/
def fresh (blockSize : Nat) : Header where
  blockSize := blockSize
  dirOffset := 0
  dirBits := 0
  bucketElems := 0
  nextBlock := blockSize
  avail := FreeList.empty (availCapacity blockSize)

/-- Hand out `size` bytes: best fit from the free list, else at the frontier.
Asking for nothing answers the frontier and changes nothing. -/
def allocate (h : Header) (size : Nat) : Except Overflow Nat × Header :=
  if size = 0 then (.ok h.nextBlock, h)
  else
    match h.avail.take size with
    | (.error o, avail) => (.error o, { h with avail })
    | (.ok (some offset), avail) => (.ok offset, { h with avail })
    | (.ok none, _) =>
      match addWord h.nextBlock size with
      | .error o => (.error o, h)
      | .ok next => (.ok h.nextBlock, { h with nextBlock := next })

/-- Move the frontier back over free regions that end at it. -/
def shrinkFrontier (h : Header) : Except Overflow Unit × Header :=
  match hp : FreeList.pickBy (Region.endsAt h.nextBlock) h.avail.regions with
  | .error o => (.error o, h)
  | .ok none => (.ok (), h)
  | .ok (some (e, rest)) =>
    have : rest.length < h.avail.regions.length :=
      Nat.lt_of_lt_of_eq (Nat.lt_succ_self _) (FreeList.pickBy_length hp)
    shrinkFrontier { h with nextBlock := e.offset, avail := { h.avail with regions := rest } }
termination_by h.avail.regions.length

/-- Give back `size` bytes at `offset`. Space ending at the frontier moves it;
other space goes to the free list, which may drop its smallest region. -/
def release (h : Header) (offset size : Nat) : Except Overflow Unit × Header :=
  if size = 0 then (.ok (), h)
  else
    match addWord offset size with
    | .error o => (.error o, h)
    | .ok stop =>
      if stop = h.nextBlock then shrinkFrontier { h with nextBlock := offset }
      else
        let (r, avail) := h.avail.release offset size
        (r.map fun _ => (), { h with avail })

/-- The payload of the header block. -/
def payload (h : Header) : ByteArray :=
  let fixed := pushWord (pushWord (pushWord (pushWord (pushWord (pushWord (pushWord
    (pushWord ByteArray.empty 4 headerMagic) 2 formatVersion) 4 h.blockSize) 8 h.dirOffset)
    4 h.dirBits) 4 h.bucketElems) 8 h.nextBlock) 8 h.avail.regions.length
  h.avail.regions.foldl (fun b r => pushWord (pushWord b 8 r.offset) 8 r.size) fixed

/-- The header block, or the payload size when it does not fit the block. -/
def encode (h : Header) : Outcome ByteArray :=
  let p := h.payload
  if h.blockSize < headerPrefixSize + p.size then .error (.headerTooLarge p.size h.blockSize)
  else
    let block := pushWord (pushWord ByteArray.empty 4 p.size) 4 (crc32 p).toNat ++ p
    .ok (fitBytes block h.blockSize)

/-- The regions listed in a payload from byte 42 on. -/
def regionsAt (p : ByteArray) : Nat → Nat → List Region
  | 0, _ => []
  | n + 1, pos => ⟨readWord p pos 8, readWord p (pos + 8) 8⟩ :: regionsAt p n (pos + 16)

/-- How many bytes from the start of a file `decode` reads at most: the length
prefix, and the payload the prefix announces. -/
def span (lead : ByteArray) : Nat := headerPrefixSize + readWord lead 0 4

/-- Read the header from the first bytes of a file of length `fileLen`, checking
in this order: the length prefix is there; the payload length is plausible; the
payload is there; its checksum; the record is complete; magic; version; block
size. The free list is rebuilt in order, keeping the largest regions that fit. -/
def decode (data : ByteArray) (fileLen : Nat) : Outcome Header :=
  if data.size < headerPrefixSize then .error (.corrupt .truncatedHeader)
  else
    let len := readWord data 0 4
    let stored := readWord data 4 4
    if len < headerFixedSize ∨ fileLen < headerPrefixSize + len then
      .error (.corrupt (.implausibleHeaderLength len))
    else if data.size < headerPrefixSize + len then .error (.corrupt .truncatedHeader)
    else
      let p := sliceBytes data headerPrefixSize len
      if (crc32 p).toNat ≠ stored then .error (.corrupt .headerChecksum)
      else
        let count := readWord p 34 8
        if len < headerFixedSize + regionSize * count then .error (.corrupt .undecodableHeader)
        else
          let magic := readWord p 0 4
          let version := readWord p 4 2
          let blockSize := readWord p 6 4
          if magic ≠ headerMagic then .error (.corrupt (.badMagic magic))
          else if version ≠ formatVersion then .error (.corrupt (.unsupportedVersion version))
          else if !validBlockSize blockSize then .error (.corrupt (.badBlockSize blockSize))
          else .ok {
            blockSize
            dirOffset := readWord p 10 8
            dirBits := readWord p 18 4
            bucketElems := readWord p 22 4
            nextBlock := readWord p 26 8
            avail := FreeList.ofList (regionsAt p count headerFixedSize) (availCapacity blockSize) }

end Header

end HashFile
