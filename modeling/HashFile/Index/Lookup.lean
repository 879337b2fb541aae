import HashFile.Index.Basic

/-!
# Finding a key

A key is looked for in the bucket its hash's directory entry names, along the
probe path of its hash. A slot is a candidate when its hash, key size and key
head agree with the key's; the record of each candidate is read in probe order
until one holds the key.
-/
namespace HashFile

/-- Where a key is, or would go. -/
structure Located where
  hash : Nat
  dirIndex : Nat
  bucketOffset : Nat
  /-- The slot that holds the key, if it is stored. -/
  slot : Option Nat
  deriving DecidableEq, Repr

namespace Index

/-- The first candidate slot whose record holds the key. -/
def firstHolding (key : Bytes) : List (Nat × Slot) → IndexM (Option Nat)
  | [] => pure none
  | (s, e) :: rest => do
    if (← readKey e) == key then pure (some s) else firstHolding key rest

/-- Look a key up. -/
def locate (key : Bytes) : IndexM Located := do
  let hash := Key.hash key
  let di := dirIndex hash (← current).dir.bits
  let off ← dirEntry di
  let head := Key.head key
  let b ← loadBucket off
  let candidates := (b.probe hash).filterMap fun s =>
    let e := b.slot s
    if e.hash == hash && e.keySize == key.size && e.head == head then some (s, e) else none
  pure ⟨hash, di, off, ← firstHolding key candidates⟩

/-- The value stored under a key. -/
def fetch (key : Bytes) : IndexM (Option Bytes) := do
  let loc ← locate key
  match loc.slot with
  | none => pure none
  | some s => some <$> readValue (← elementAt loc.bucketOffset s)

/-- Whether a key is stored. -/
def containsKey (key : Bytes) : IndexM Bool := do
  pure (← locate key).slot.isSome

end Index

end HashFile
