import HashFile.Bucket.Basic

/-!
# The bucket cache

A bounded set of decoded buckets keyed by file offset, evicted first in, first
out. A bucket changed in memory is dirty until it is written; evicting a dirty
bucket hands it back so that its owner writes it. The capacity is at least one,
and the bucket just inserted is never the one evicted for it.

Entries are kept oldest first, one per offset.
-/
namespace HashFile

/-- A cached bucket. -/
structure CacheEntry where
  offset : Nat
  bucket : Bucket
  dirty : Bool
  deriving DecidableEq, Repr, Inhabited

/-- The bucket cache. -/
structure BucketCache where
  /-- Oldest first. -/
  entries : List CacheEntry
  capacity : Nat
  deriving DecidableEq, Repr, Inhabited

namespace BucketCache

/-- An empty cache; a capacity of 0 counts as 1. -/
def empty (capacity : Nat) : BucketCache := ⟨[], max capacity 1⟩

/-- The cached bucket at an offset. -/
def find? (c : BucketCache) (offset : Nat) : Option Bucket :=
  (c.entries.find? fun e => e.offset == offset).map CacheEntry.bucket

/-- Whether a bucket at the offset is cached. -/
def contains (c : BucketCache) (offset : Nat) : Bool :=
  c.entries.any fun e => e.offset == offset

/-- Drop the oldest entries other than `keep` until at most `capacity` remain.
Answers the dirty entries dropped, oldest first. -/
def evictTo (c : BucketCache) (capacity : Nat) (keep : Option Nat) :
    List (Nat × Bucket) × BucketCache :=
  let rec go (excess : Nat) : List CacheEntry → List (Nat × Bucket) × List CacheEntry
    | [] => ([], [])
    | e :: rest =>
      if excess = 0 then ([], e :: rest)
      else if some e.offset = keep then
        let (out, kept) := go excess rest
        (out, e :: kept)
      else
        let (out, kept) := go (excess - 1) rest
        (if e.dirty then (e.offset, e.bucket) :: out else out, kept)
  let (out, kept) := go (c.entries.length - capacity) c.entries
  (out, { c with entries := kept })

/-- Cache a bucket, replacing the entry at its offset in place or adding it as
the newest. Answers the dirty buckets evicted to make room. -/
def insert (c : BucketCache) (offset : Nat) (b : Bucket) (dirty : Bool) :
    List (Nat × Bucket) × BucketCache :=
  let entries :=
    if c.contains offset then
      c.entries.map fun e => if e.offset == offset then ⟨offset, b, dirty⟩ else e
    else c.entries ++ [⟨offset, b, dirty⟩]
  evictTo { c with entries } c.capacity (some offset)

/-- Take a bucket out of the cache. -/
def remove (c : BucketCache) (offset : Nat) : Option Bucket × BucketCache :=
  (c.find? offset, { c with entries := c.entries.filter fun e => e.offset != offset })

/-- Change a cached bucket, marking it dirty. -/
def update (c : BucketCache) (offset : Nat) (f : Bucket → Bucket) : BucketCache :=
  { c with entries := c.entries.map fun e =>
      if e.offset == offset then { e with bucket := f e.bucket, dirty := true } else e }

/-- Change the capacity (at least 1). Answers the dirty buckets that no longer fit. -/
def setCapacity (c : BucketCache) (capacity : Nat) : List (Nat × Bucket) × BucketCache :=
  let c := { c with capacity := max capacity 1 }
  c.evictTo c.capacity none

/-- The dirty buckets, oldest first. -/
def dirtyBuckets (c : BucketCache) : List (Nat × Bucket) :=
  (c.entries.filter CacheEntry.dirty).map fun e => (e.offset, e.bucket)

/-- Mark a bucket as written. -/
def markClean (c : BucketCache) (offset : Nat) : BucketCache :=
  { c with entries := c.entries.map fun e => if e.offset == offset then { e with dirty := false } else e }

end BucketCache

end HashFile
