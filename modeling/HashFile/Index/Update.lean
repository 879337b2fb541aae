import HashFile.Index.Lookup

/-!
# Storing and deleting

A new key goes to the bucket its hash selects; when that bucket is full it
splits, by the next hash bit, into two buckets of one more bit of depth, and
the directory doubles first when the bucket was already as deep as it
(`makeRoom`). Each split deepens the bucket the hash selects, and the depth
cannot pass `hashBits`, so `makeRoom` ends after at most `hashBits + 1` rounds.

A record is written at a fresh allocation; rewriting a key keeps its record's
place when the new record has the same size. Deleting frees the record and
closes the hole in the bucket.
-/
namespace HashFile

/-- Point a slot of a bucket at an entry: the given slot, or the first vacant
one on the entry's probe path; answers whether a slot took it. -/
def Bucket.place (b : Bucket) (slot : Option Nat) (e : Slot) : Bool × Bucket :=
  match slot with
  | some s => (true, { b with slots := b.slots.set! s e })
  | none =>
    let (r, b) := b.insert e
    (r.isSome, b)

namespace Index

/-- Key and value sizes are 32-bit words: a key or value of this many bytes or
more is refused. -/
def sizeLimit : Nat := Nat.pow 2 32

/-- Sync after a change when the index is in sync mode. -/
def afterMutation : IndexM Unit := do
  if (← current).syncMode then sync

/-- Double the directory into a new allocation and free the old one. -/
def doubleDirectory : IndexM Unit := do
  let d := (← current).dir
  let oldOffset := d.offset
  let oldSize := Directory.byteSize d.bits
  modifyIndex fun ix => { ix with dir := ix.dir.double }
  let newOffset ← allocate (Directory.byteSize (d.bits + 1))
  free oldOffset oldSize
  modifyIndex fun ix => { ix with
    dir := { ix.dir with offset := newOffset },
    file := { ix.file with
      header := { ix.file.header with dirOffset := newOffset, dirBits := ix.dir.bits },
      headerDirty := true } }

/-- Split the bucket at `off`, of depth `bits`, that `hash` selects: its entries
go to a low and a high bucket by the next hash bit, the directory run it owned
is halved between them, and its block is freed. -/
def split (hash off bits : Nat) : IndexM Unit := do
  if (← current).dir.bits ≤ bits then
    if hashBits ≤ (← current).dir.bits then fatal .splitTooDeep
    doubleDirectory
  let (cached, cache) := (← current).cache.remove off
  modifyIndex fun ix => { ix with cache }
  let old ← match cached with
    | some b => pure b
    | none => readBucket off
  let newBits := bits + 1
  let elems := (← header).bucketElems
  let (low, high) := old.occupied.foldl (fun (lo, hi) (_, e) =>
      if splitBit e.hash newBits = 0 then ((lo.insert e).2, hi) else (lo, (hi.insert e).2))
    (Bucket.empty newBits elems, Bucket.empty newBits elems)
  let bs ← blockSize
  let lowOffset ← allocate bs
  let highOffset ← allocate bs
  let d := (← current).dir
  let (start, stop) := d.rangeOf (dirIndex hash d.bits) bits
  let mid := start + (stop - start) / 2
  modifyIndex fun ix => { ix with dir := (ix.dir.setRange start mid lowOffset).setRange mid stop highOffset }
  free off bs
  cacheInsert lowOffset low true
  cacheInsert highOffset high true

/-- Split until the bucket `hash` selects has a free slot; answers its offset. -/
def makeRoom (hash : Nat) : IndexM Nat :=
  let rec go : Nat → IndexM Nat
    | 0 => fatal .splitTooDeep
    | fuel + 1 => do
      let off ← dirEntry (dirIndex hash (← current).dir.bits)
      let b ← loadBucket off
      if !b.isFull then pure off
      else
        split hash off b.depth
        go fuel
  go (hashBits + 2)

/-- Write a key's record at a place chosen for it and point a slot of a bucket
at it: the given slot, or a fresh one on the hash's probe path. -/
def placeRecord (key value : Bytes) (hash bucketOffset : Nat) (slot : Option Nat)
    (dataOffset : Nat) : IndexM Unit := do
  writeAt dataOffset (key ++ value)
  let e : Slot := ⟨hash, Key.head key, dataOffset, key.size, value.size⟩
  let placed ← updateBucket bucketOffset fun b => b.place slot e
  if !placed then fatal (.bucketFullAfterSplit bucketOffset)
  afterMutation

/-- Choose the bucket, slot and place of a located key's new record: a stored
key keeps its slot, and its record's place when the size is unchanged, else
the record moves to a fresh allocation and the old one is freed; a new key
gets a bucket with room and a fresh allocation. -/
def chooseRecord (loc : Located) (recordSize : Nat) : IndexM (Nat × Option Nat × Nat) :=
  match loc.slot with
  | some s => do
    let old ← elementAt loc.bucketOffset s
    if old.recordSize = recordSize then pure (loc.bucketOffset, some s, old.dataOffset)
    else
      let fresh ← allocate recordSize
      free old.dataOffset old.recordSize
      pure (loc.bucketOffset, some s, fresh)
  | none => do
    let off ← makeRoom loc.hash
    pure (off, none, ← allocate recordSize)

/-- Store a value under a key, replacing any value it had. -/
def store (key value : Bytes) : IndexM Unit := do
  checkWritable
  if sizeLimit ≤ key.size then throw (.invalidArgument (.keyTooLarge key.size))
  if sizeLimit ≤ value.size then throw (.invalidArgument (.valueTooLarge value.size))
  let loc ← locate key
  let (bucketOffset, slot, dataOffset) ← chooseRecord loc (key.size + value.size)
  placeRecord key value loc.hash bucketOffset slot dataOffset

/-- Delete a key; answers whether it was stored. -/
def delete (key : Bytes) : IndexM Bool := do
  checkWritable
  let loc ← locate key
  match loc.slot with
  | none => pure false
  | some s =>
    let removed ← updateBucket loc.bucketOffset fun b => b.remove s
    free removed.dataOffset removed.recordSize
    afterMutation
    pure true

end Index

end HashFile
