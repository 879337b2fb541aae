/-!
# Word arithmetic

Offsets, sizes and counts in the store are unsigned 64-bit words. The store
computes with them as numbers, and a sum that does not fit in a word is an
error of its own: the operation stops at that sum, and whatever it changed
before stays changed. `addWord` is that checked sum, `sumWords` the checked
total of a list.
-/
namespace HashFile

/-- The number of values a 64-bit word takes. -/
def wordSize : Nat := Nat.pow 2 64

/-- A sum that does not fit in a word. -/
structure Overflow where
  deriving DecidableEq, Repr, Inhabited

/-- The sum of two words, when it is one. -/
def addWord (a b : Nat) : Except Overflow Nat :=
  if a + b < wordSize then .ok (a + b) else .error {}

/-- The total of words, when it is one. Partial sums only grow, so the total
fits exactly when every partial sum from the left does. -/
def sumWords (ns : List Nat) : Except Overflow Nat :=
  let total := ns.foldr (· + ·) 0
  if total < wordSize then .ok total else .error {}

@[simp] theorem addWord_of_lt {a b : Nat} (h : a + b < wordSize) : addWord a b = .ok (a + b) := by
  simp [addWord, h]

end HashFile
