import HashFile.Bytes.Crc32

/-!
# Keys and their hashes

Keys and values are byte strings. A key's hash is its CRC-32 cut to the low
`hashBits = 31` bits, so it never depends on anything but the key. The directory
is indexed by the top bits of the hash (`dirIndex`), a bucket of depth `d`
splits by bit `d` counted from the top (`splitBit`), and every bucket slot keeps
the first four bytes of its key (`Key.head`) to skip most mismatches without
reading the record.
-/
namespace HashFile

/-- Keys and values are byte strings. -/
abbrev Bytes := ByteArray

/-- Significant bits of a key hash. -/
def hashBits : Nat := 31

/-- Bytes of a key kept in its bucket slot. -/
def keyHeadLen : Nat := 4

/-- The hash of a key: its CRC-32 cut to 31 bits. -/
def Key.hash (key : Bytes) : Nat :=
  (crc32 key).toNat % Nat.pow 2 hashBits

/-- The first four bytes of a key, padded with zero bytes. -/
def Key.head (key : Bytes) : List UInt8 :=
  (fitBytes key keyHeadLen).toList

/-- The directory entry of a hash under `bits` bits of depth: its top `bits`
bits. The whole 32-bit word is shifted, so a hash with bit 31 set lands past the
directory. -/
def dirIndex (hash bits : Nat) : Nat :=
  if bits = 0 then 0 else hash / Nat.pow 2 (hashBits - bits)

/-- The bit that sends a hash to the lower (0) or upper (1) half when a bucket
splits to depth `newBits`. -/
def splitBit (hash newBits : Nat) : Nat :=
  hash / Nat.pow 2 (hashBits - newBits) % 2

end HashFile
