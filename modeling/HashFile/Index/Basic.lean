import HashFile.StoreFile
import HashFile.Directory
import HashFile.BucketCache
import HashFile.Bucket.Codec

/-!
# The hash index

An open hash index: its file, the directory kept in memory, the bucket cache,
the open options and whether every change is synced. Index actions run in
`IndexM`, which threads the volume and the index and keeps the changes made
before a failure, as the file keeps the bytes written before one.

This module holds the index's access to its file (reads that must not run past
the end, writes that need a writer, allocation through the header) and to its
buckets (read through the cache, changed in the cache, written back when
evicted or flushed).
-/
namespace HashFile

/-- An open hash index. -/
structure Index where
  file : StoreFile
  dir : Directory
  cache : BucketCache
  options : OpenOptions
  syncMode : Bool
  deriving Inhabited

/-- Index actions: they read and change the volume and the index, and keep
their changes when they fail. -/
abbrev IndexM := ExceptT StoreError (StateM (Volume × Index))

/-- Size and shape of an index. -/
structure IndexStats where
  blockSize : Nat
  dirBits : Nat
  buckets : Nat
  bucketElems : Nat
  freeRegions : Nat
  freeBytes : Nat
  nextBlock : Nat
  deriving DecidableEq, Repr

namespace Index

/-- Run an index action on a volume and an index. -/
def run {α : Type} (m : IndexM α) (v : Volume) (ix : Index) : Outcome α × Volume × Index :=
  let (r, v, ix) := (m.run.run (v, ix)).run
  (r, v, ix)

/-- The index. -/
def current : IndexM Index := do pure (← get).2

/-- Change the index. -/
def modifyIndex (f : Index → Index) : IndexM Unit := modify fun (v, ix) => (v, f ix)

/-- Change the open file. -/
def modifyFile (f : StoreFile → StoreFile) : IndexM Unit :=
  modifyIndex fun ix => { ix with file := f ix.file }

/-- The header. -/
def header : IndexM Header := do pure (← current).file.header

/-- The block size of the file. -/
def blockSize : IndexM Nat := do pure (← header).blockSize

/-- Fail through the fatal path. -/
def fatal {α : Type} (i : Inconsistency) : IndexM α := throw (.fatal i)

/-- Bytes `[off, off + len)` of the file. A position no file reaches is refused
by the file system; running past the end is an internal inconsistency. -/
def readAt (off len : Nat) : IndexM ByteArray := do
  if let .error f := Volume.seek off then throw (.io f)
  let (v, ix) ← get
  match v.readAt ix.file.handle.ino off len with
  | some b => pure b
  | none => fatal (.readPastEnd len off)

/-- Write bytes at an offset; only a writer may. -/
def writeAt (off : Nat) (bytes : ByteArray) : IndexM Unit := do
  let st := (← current).file
  if !st.writable then throw .readOnly
  let ino := st.handle.ino
  let (v, ix) ← get
  let (r, v) := v.writeAll ino off bytes
  set (v, ix)
  if let .error f := r then throw (.io f)

/-- The length of the file. -/
def fileLen : IndexM Nat := do
  let (v, ix) ← get
  pure (v.fileLen ix.file.handle.ino)

/-- Stop with an overflow, if a step overflowed. -/
def checked {α : Type} : Except Overflow α → IndexM α
  | .ok a => pure a
  | .error _ => throw .overflow

/-- Reserve `size` bytes of the file. -/
def allocate (size : Nat) : IndexM Nat := do
  let (off, h) := (← header).allocate size
  modifyFile fun st => { st with header := h, headerDirty := st.headerDirty || size != 0 }
  checked off

/-- Give `size` bytes at `off` back. -/
def free (off size : Nat) : IndexM Unit := do
  let (r, h) := (← header).release off size
  modifyFile fun st => { st with header := h, headerDirty := st.headerDirty || size != 0 }
  checked r

/-- Write the header block if it changed. -/
def writeHeader : IndexM Unit := do
  let st := (← current).file
  if !st.headerDirty || !st.writable then return
  match st.header.encode with
  | .error e => throw e
  | .ok block =>
    writeAt 0 block
    modifyFile fun st => { st with headerDirty := false }

/-- Cut the file back to the allocation frontier. -/
def truncateToFrontier : IndexM Unit := do
  let st := (← current).file
  if st.writable && st.header.nextBlock < (← fileLen) then
    let ino := st.handle.ino
    let n := st.header.nextBlock
    modify fun (v, ix) => (v.setLen ino n, ix)

/-- Refuse changes to a file opened to read. -/
def checkWritable : IndexM Unit := do
  if !(← current).file.writable then throw .readOnly

/-- Read and check the bucket stored at an offset. -/
def readBucket (off : Nat) : IndexM Bucket := do
  let h ← header
  let bytes ← readAt off h.blockSize
  match Bucket.decode bytes h.bucketElems with
  | .error f => fatal (.badBucket off f)
  | .ok b =>
    let bits := (← current).dir.bits
    if bits < b.depth then fatal (.bucketTooDeep off b.depth bits) else pure b

/-- Write a bucket to its block. -/
def writeBucket (off : Nat) (b : Bucket) : IndexM Unit := do
  writeAt off (b.encode (← blockSize))

/-- Write buckets evicted from the cache. -/
def writeBack (evicted : List (Nat × Bucket)) : IndexM Unit :=
  evicted.forM fun (off, b) => writeBucket off b

/-- Cache a bucket and write back what it pushes out. -/
def cacheInsert (off : Nat) (b : Bucket) (dirty : Bool) : IndexM Unit := do
  let (evicted, cache) := (← current).cache.insert off b dirty
  modifyIndex fun ix => { ix with cache }
  writeBack evicted

/-- The bucket at an offset, read into the cache when it is not there. -/
def loadBucket (off : Nat) : IndexM Bucket := do
  match (← current).cache.find? off with
  | some b => pure b
  | none =>
    let b ← readBucket off
    cacheInsert off b false
    pure b

/-- Change the bucket at an offset in the cache, marking it dirty. -/
def updateBucket {α : Type} (off : Nat) (f : Bucket → α × Bucket) : IndexM α := do
  let (a, b) := f (← loadBucket off)
  modifyIndex fun ix => { ix with cache := ix.cache.update off fun _ => b }
  pure a

/-- The directory entry at an index. -/
def dirEntry (i : Nat) : IndexM Nat := do
  match (← current).dir.get? i with
  | some off => pure off
  | none => fatal (.directoryIndex i)

/-- The slot at a position of a bucket; past the end, a vacant slot. -/
def elementAt (off slot : Nat) : IndexM Slot := do
  pure ((← loadBucket off).slot slot)

/-- The value bytes of the record a slot points at. -/
def readValue (e : Slot) : IndexM ByteArray := do
  readAt (← checked (addWord e.dataOffset e.keySize)) e.dataSize

/-- The key bytes of the record a slot points at. -/
def readKey (e : Slot) : IndexM ByteArray :=
  readAt e.dataOffset e.keySize

/-- Write dirty buckets, then the directory if it changed, then the header. -/
def flush : IndexM Unit := do
  if !(← current).file.writable then return
  let bs ← blockSize
  for (off, b) in (← current).cache.dirtyBuckets do
    writeAt off (b.encode bs)
    modifyIndex fun ix => { ix with cache := ix.cache.markClean off }
  let d := (← current).dir
  if d.dirty then
    writeAt d.offset d.encode
    modifyIndex fun ix => { ix with dir := { ix.dir with dirty := false } }
  writeHeader

/-- Flush; the data then is on the volume. -/
def sync : IndexM Unit := flush

/-- The last flush of a session: sync and cut the file back to its frontier. -/
def finish : IndexM Unit := do
  if (← current).file.writable then
    sync
    truncateToFrontier

/-- Size and shape of the index; the free bytes are a word sum. -/
def stats (ix : Index) : Except Overflow IndexStats := do
  pure {
    blockSize := ix.file.header.blockSize
    dirBits := ix.dir.bits
    buckets := ix.dir.bucketCount
    bucketElems := ix.file.header.bucketElems
    freeRegions := ix.file.header.avail.length
    freeBytes := ← ix.file.header.avail.freeBytes
    nextBlock := ix.file.header.nextBlock }

end Index

end HashFile
