/-!
# Hexadecimal text

Lowercase hexadecimal digits of numbers and byte strings, as they appear in
messages (`0x1f`, `0x41544442`) and in dumps of file contents.
-/
namespace HashFile

/-- The lowercase hexadecimal digit of a number below 16. -/
def hexDigit (d : Nat) : Char :=
  if d < 10 then Char.ofNat (48 + d) else Char.ofNat (87 + d)

/-- The lowercase hexadecimal digits of `n`, most significant first, without leading zeros. -/
def hexDigits (n : Nat) : List Char :=
  (Nat.toDigits 16 n).map fun c => c.toLower

/-- The digits of `n` padded with zeros on the left to at least `width` digits. -/
def hexPadded (n width : Nat) : String :=
  let ds := hexDigits n
  String.ofList (List.replicate (width - ds.length) '0' ++ ds)

/-- A number written `0x` followed by its lowercase digits. -/
def hexLiteral (n : Nat) : String :=
  "0x" ++ String.ofList (hexDigits n)

/-- Two lowercase digits per byte. -/
def hexOfBytes (b : ByteArray) : String :=
  String.ofList (b.toList.flatMap fun x => [hexDigit (x.toNat / 16), hexDigit (x.toNat % 16)])

/-- The value of a hexadecimal digit of either case. -/
def hexValue? (c : Char) : Option Nat :=
  if '0' ≤ c ∧ c ≤ '9' then some (c.toNat - 48)
  else if 'a' ≤ c ∧ c ≤ 'f' then some (c.toNat - 87)
  else if 'A' ≤ c ∧ c ≤ 'F' then some (c.toNat - 55)
  else none

/-- The byte a pair of characters stands for: two hexadecimal digits, or a
plus sign and one digit, read as a number in base 16. -/
def hexPair? (a b : Char) : Option Nat :=
  if a = '+' then hexValue? b
  else do
    let hi ← hexValue? a
    let lo ← hexValue? b
    pure (16 * hi + lo)

/-- How hexadecimal text fails to stand for bytes. -/
inductive HexFault where
  /-- The text has an odd number of bytes. -/
  | oddLength
  /-- A pair of bytes ends inside a character. -/
  | splitChar
  /-- A pair is not a byte in base 16. -/
  | notByte
  deriving DecidableEq, Repr

/-- Whether a byte continues a character of UTF-8 text rather than starting one. -/
def isContinuation (b : UInt8) : Bool := b.toNat / 64 = 2

/-- The bytes of text read two bytes at a time, from the left, stopping at the
first pair that fails. A pair that ends inside a character fails so. A pair
that does not is two characters of the ASCII range or one character of two
bytes; only the first can be a byte, as `hexPair?` reads it. -/
def hexPairs : List UInt8 → Except HexFault (List UInt8)
  | a :: b :: rest =>
    if (rest.head?.map isContinuation).getD false then .error .splitChar
    else
      match hexPair? (Char.ofNat a.toNat) (Char.ofNat b.toNat) with
      | none => .error .notByte
      | some x => do
        let tail ← hexPairs rest
        pure (UInt8.ofNat x :: tail)
  | _ => .ok []

/-- The bytes UTF-8 text stands for in hexadecimal, two bytes of text per byte. -/
def bytesOfHex (text : String) : Except HexFault ByteArray :=
  let u := text.toUTF8.toList
  if u.length % 2 = 1 then .error .oddLength
  else (hexPairs u).map fun bs => ⟨bs.toArray⟩

end HashFile
