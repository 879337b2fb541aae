import HashFile.Bytes.LittleEndian

/-!
# CRC-32

The checksum of the header block and the source of every key hash: the reflected
CRC-32 with polynomial `0xEDB88320`, initial value and final mask `0xFFFFFFFF`
(the checksum of zip and Ethernet). One input bit is taken by `crcShift`; a byte
is eight shifts, and `crcTable` holds those eight shifts for every byte value so
that `crc32` does one table lookup per input byte.
-/
namespace HashFile

/-- The reflected polynomial of CRC-32. -/
def crcPolynomial : UInt32 := 0xEDB88320

/-- One bit of the division: shift right, and subtract the polynomial when the bit shifted out is set. -/
def crcShift (c : UInt32) : UInt32 :=
  if c &&& 1 = 1 then (c >>> 1) ^^^ crcPolynomial else c >>> 1

/-- The eight shifts of one byte. -/
def crcShiftByte (c : UInt32) : UInt32 :=
  Nat.repeat crcShift 8 c

/-- The division of every byte value by the polynomial. -/
def crcTable : Array UInt32 :=
  (Array.range 256).map fun i => crcShiftByte i.toUInt32

/-- Feed one byte into a running checksum register. -/
def crcByte (c : UInt32) (b : UInt8) : UInt32 :=
  crcTable.getD ((c ^^^ b.toUInt32) &&& 0xFF).toNat 0 ^^^ (c >>> 8)

/-- The CRC-32 of a byte string. -/
def crc32 (data : ByteArray) : UInt32 :=
  data.foldl crcByte 0xFFFFFFFF ^^^ 0xFFFFFFFF

end HashFile
