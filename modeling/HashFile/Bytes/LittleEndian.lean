/-!
# Little-endian words

Every number the store keeps in its file is an unsigned word of 2, 4 or 8 bytes,
least significant byte first. `leBytes w n` is the `w`-byte word of `n` (bits
above `8 * w` dropped) and `ofLeBytes` reads one back.

On byte strings, `pushWord` appends a word and `readWord` reads the
word that starts at a position.
-/
namespace HashFile

/-- The `w` little-endian bytes of `n`; bits above `8 * w` are dropped. -/
def leBytes : Nat → Nat → List UInt8
  | 0, _ => []
  | w + 1, n => UInt8.ofNat (n % 256) :: leBytes w (n / 256)

/-- The natural number with the given little-endian bytes. -/
def ofLeBytes : List UInt8 → Nat
  | [] => 0
  | b :: bs => b.toNat + 256 * ofLeBytes bs

@[simp] theorem leBytes_zero (n : Nat) : leBytes 0 n = [] := rfl

@[simp] theorem leBytes_succ (w n : Nat) :
    leBytes (w + 1) n = UInt8.ofNat (n % 256) :: leBytes w (n / 256) := rfl

@[simp] theorem ofLeBytes_nil : ofLeBytes [] = 0 := rfl

@[simp] theorem ofLeBytes_cons (b : UInt8) (bs : List UInt8) :
    ofLeBytes (b :: bs) = b.toNat + 256 * ofLeBytes bs := rfl

@[simp] theorem length_leBytes (w n : Nat) : (leBytes w n).length = w := by
  induction w generalizing n with
  | zero => rfl
  | succ w ih => simp [ih]

/-- Read `w` bytes from position `pos` as a little-endian word; bytes past the end read as 0. -/
def readWord (b : ByteArray) (pos w : Nat) : Nat :=
  ofLeBytes ((List.range w).map fun i => b[pos + i]?.getD 0)

/-- Append the `w`-byte little-endian word of `n`. -/
def pushWord (b : ByteArray) (w n : Nat) : ByteArray :=
  (leBytes w n).foldl ByteArray.push b

/-- Append a list of bytes. -/
def pushBytes (b : ByteArray) (bs : List UInt8) : ByteArray :=
  bs.foldl ByteArray.push b

/-- The `w` little-endian bytes of `n` as a byte string. -/
def wordBytes (w n : Nat) : ByteArray :=
  pushWord ByteArray.empty w n

/-- Bytes `[pos, pos + len)` of `b`, cut short at the end of `b`. -/
def sliceBytes (b : ByteArray) (pos len : Nat) : ByteArray :=
  b.extract pos (pos + len)

/-- The first `n` bytes of `b`, padded with zero bytes when `b` is shorter. -/
def fitBytes (b : ByteArray) (n : Nat) : ByteArray :=
  if b.size ≥ n then b.extract 0 n
  else b ++ ⟨Array.replicate (n - b.size) 0⟩

end HashFile
