import HashFile.Index.Update

/-!
# Opening an index

A new file is laid out with a directory of one block whose entries all point
at one empty bucket, and written at once. An existing file's directory is read
and checked: the header's slots per bucket must match its block size, the
directory may be at most `hashBits` deep, and every entry must name a block
inside the allocated area.
-/
namespace HashFile

namespace Index

/-- The largest value of an 8-byte word. -/
def wordMax : Nat := Nat.pow 2 64 - 1

/-- Lay out a new file: a directory of one block and one empty bucket. -/
def bootstrap : IndexM Unit := do
  let bs ← blockSize
  let bits := Nat.log2 (bs / 8)
  let elems := elemsForBlock bs
  let dirOffset ← allocate (Directory.byteSize bits)
  let bucketOffset ← allocate bs
  modifyIndex fun ix => { ix with
    dir := Directory.uniform bits bucketOffset dirOffset,
    file := { ix.file with
      header := { ix.file.header with dirOffset, dirBits := bits, bucketElems := elems },
      headerDirty := true } }
  cacheInsert bucketOffset (Bucket.empty 0 elems) true
  flush

/-- Read and check the directory of an existing file. -/
def load : IndexM Unit := do
  let h ← header
  let elems := elemsForBlock h.blockSize
  if h.bucketElems ≠ elems then
    throw (.corrupt (.slotsPerBucket h.bucketElems h.blockSize elems))
  if hashBits < h.dirBits then throw (.corrupt (.directoryTooDeep h.dirBits))
  let bytes ← readAt h.dirOffset (Directory.byteSize h.dirBits)
  let d := Directory.decode bytes h.dirBits h.dirOffset
  let outside (e : Nat) : Bool := e < h.blockSize || h.nextBlock < min (e + h.blockSize) wordMax
  match d.entries.find? outside with
  | some e => fatal (.entryOutside e h.blockSize h.nextBlock)
  | none => modifyIndex fun ix => { ix with dir := d }

/-- Open the file of a configuration in a mode and lay out or load its index.
A failure after the file was opened closes it. -/
def openIn (c : Config) (mode : OpenMode) (v : Volume) : Outcome Index × Volume :=
  match StoreFile.openFile c mode v with
  | (.error e, v) => (.error e, v)
  | (.ok (st, fresh), v) =>
    let ix : Index := ⟨st, Directory.uniform 0 0 0, BucketCache.empty c.cacheSize, c.options, false⟩
    match run (if fresh then bootstrap else load) v ix with
    | (.ok (), v, ix) => (.ok { ix with syncMode := c.options.sync }, v)
    | (.error e, v, _) => (.error e, v.close st.handle)

/-- Close the file of an index, giving its lock back. -/
def release (ix : Index) (v : Volume) : Volume := v.close ix.file.handle

end Index

end HashFile
