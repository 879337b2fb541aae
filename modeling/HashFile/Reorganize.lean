import HashFile.Session.Basic

/-!
# Reorganizing

Reorganizing compacts a database, leaving no dead space: every record is copied,
in traversal order, into a new file next to it (the path with `.reorg` added),
which is synced, cut to its frontier and renamed over the old file. The session
goes on with the new file; the old one is closed, which gives its lock back. The
copy has no free regions, and its directory is only as deep as the surviving
keys need.

If anything fails, the copy is removed and the session goes on with the old
file, unchanged but for the flush that came first. An overflow that cuts the
copy short leaves the copy where it is: nothing after it runs.
-/
namespace HashFile

/-- What a reorganize did. -/
structure ReorganizeStats where
  records : Nat
  bytesBefore : Nat
  bytesAfter : Nat
  deriving DecidableEq, Repr

/-- Bytes given back to the volume. -/
def ReorganizeStats.reclaimed (s : ReorganizeStats) : Nat := s.bytesBefore - s.bytesAfter

namespace Index

/-- The path of the copy made next to a database file. -/
def copyPath (path : String) : String := path ++ ".reorg"

/-- Copy the records of `self` from the entry `next` on into `fresh`, counting
them; `fuel` bounds the steps of the traversal. -/
def copyRecords : Nat → Option (Position × Bytes) → Nat → Volume → Index → Index →
    Outcome Nat × Volume × Index × Index
  | _, none, n, v, self, fresh => (.ok n, v, self, fresh)
  | 0, some _, n, v, self, fresh => (.ok n, v, self, fresh)
  | fuel + 1, some (p, key), n, v, self, fresh =>
    match run (valueAt p) v self with
    | (.error e, v, self) => (.error e, v, self, fresh)
    | (.ok none, v, self) => (.error (.fatal (.recordVanished p.slot)), v, self, fresh)
    | (.ok (some value), v, self) =>
      match run (store key value) v fresh with
      | (.error e, v, fresh) => (.error e, v, self, fresh)
      | (.ok (), v, fresh) =>
        match run (entryAfter p) v self with
        | (.error e, v, self) => (.error e, v, self, fresh)
        | (.ok next, v, self) => copyRecords fuel next (n + 1) v self fresh

/-- Make the copy: a new file for `c`, every record of `self`, synced and cut
to its frontier. A failure closes the copy. -/
def copyInto (c : Config) (v : Volume) (self : Index) : Outcome (Index × Nat) × Volume × Index :=
  match openIn c .newDb v with
  | (.error e, v) => (.error e, v, self)
  | (.ok fresh, v) =>
    match run firstEntry v self with
    | (.error e, v, self) => (.error e, fresh.release v, self)
    | (.ok first, v, self) =>
      let bound := self.dir.size * self.file.header.bucketElems + 2
      match copyRecords bound first 0 v self fresh with
      | (.error e, v, self, fresh) => (.error e, fresh.release v, self)
      | (.ok n, v, self, fresh) =>
        match run (do sync; truncateToFrontier) v fresh with
        | (.error e, v, fresh) => (.error e, fresh.release v, self)
        | (.ok (), v, fresh) => (.ok (fresh, n), v, self)

/-- Put the copy in place of the database file, which must still be there,
after giving the copy the mode bits of the file it replaces. -/
def install (v : Volume) (copy : Nat) (target temp : String) : Except FileFault Volume := do
  let v := match ← v.stat target with
    | .file ino => v.setMode copy (v.mode ino)
    | .directory => v
  v.rename temp target

/-- Remove a file, ignoring failure. -/
def discard (v : Volume) (path : String) : Volume :=
  match v.removeFile path with
  | .ok v => v
  | .error _ => v

/-- Reorganize the index's file and go on with the copy. -/
def reorganizeIn (v : Volume) (self : Index) : Outcome ReorganizeStats × Volume × Index :=
  if !self.file.writable then (.error .readOnly, v, self)
  else
    match run flush v self with
    | (.error e, v, self) => (.error e, v, self)
    | (.ok (), v, self) =>
      let home := self.file.path
      let temp := copyPath home
      let before := v.fileLen self.file.handle.ino
      let c : Config := {
        path := temp, blockSize := self.file.header.blockSize, mode := some .newDb,
        options := { self.options with sync := false }, fallback := .neverReader,
        cacheSize := self.cache.capacity, reportsFatal := self.file.reportsFatal }
      match copyInto c v self with
      | (.error e, v, self) => (.error e, if e.isOverflow then v else discard v temp, self)
      | (.ok (fresh, records), v, self) =>
        match install v fresh.file.handle.ino home temp with
        | .error f => (.error (.io f), discard (fresh.release v) temp, self)
        | .ok v =>
          let fresh := { fresh with
            file := { fresh.file with path := home },
            syncMode := self.syncMode, options := self.options }
          let after := v.fileLen fresh.file.handle.ino
          (.ok ⟨records, before, after⟩, self.release v, fresh)

/-- Reorganize as an index action. -/
def reorganize : IndexM ReorganizeStats :=
  ExceptT.mk (StateT.mk fun (v, self) =>
    let (r, v, ix) := reorganizeIn v self
    pure (r, (v, ix)))

end Index

/-- Reorganize the session's file; the cursor starts over and the count is known. -/
def Session.reorganize : SessionM ReorganizeStats := do
  Session.requireWriter
  let stats ← Session.withIndex Index.reorganize
  Session.modifySession fun s => { s with cursor := .unstarted, lenCache := some stats.records }
  pure stats

end HashFile
