import HashFile.Header
import HashFile.Volume

/-!
# Opening a database file

A session's file: the path it was opened by, its open description, the header
held in memory (written back when it changed) and whether it may be written.

`StoreFile.open` opens the path for the mode, takes the lock (shared for a
reader, exclusive for a writer) unless the options say not to, empties the file
for `newDb`, and then reads the header. An empty file is a new database for a
writer, which must lay out its index first, and corrupt for a reader. A failure
after the file was opened closes it again, which gives its lock back.
-/
namespace HashFile

/-- An open database file. -/
structure StoreFile where
  /-- The path as the caller gave it. -/
  path : String
  handle : OpenFile
  header : Header
  /-- The header changed since it was last written. -/
  headerDirty : Bool
  writable : Bool
  /-- Whether internal consistency failures go to the caller's log. -/
  reportsFatal : Bool
  deriving Inhabited

namespace StoreFile

/-- How a mode opens its path: always to read, a writer also to write, and a
mode that may make the file with mode bits `perms`. -/
def access (perms : Nat) : OpenMode → Volume.Access
  | .reader => .read
  | .writer => .update
  | .writeCreate | .newDb => .updateNew perms

/-- The lock a mode takes. -/
def lockKind (m : OpenMode) : LockKind := if m.isWriter then .exclusive else .shared

/-- Read the header of an opened file, or lay out nothing for an empty one.
Answers the file and whether it is new. -/
def start (c : Config) (mode : OpenMode) (f : OpenFile) (v : Volume) : Outcome (StoreFile × Bool) :=
  let len := v.fileLen f.ino
  let base : StoreFile :=
    ⟨c.path, f, Header.fresh c.blockSize, false, mode.isWriter, c.reportsFatal⟩
  if len = 0 then
    if mode.isWriter then .ok ({ base with headerDirty := true }, true)
    else .error (.corrupt .emptyFile)
  else
    let lead := v.readFrom f.ino 0 headerPrefixSize
    match Header.decode (v.readFrom f.ino 0 (Header.span lead)) len with
    | .error e => .error e
    | .ok h =>
      if h.dirOffset = 0 then .error (.corrupt .directoryNeverWritten)
      else .ok ({ base with header := h }, false)

/-- Open a database file in a mode. -/
def openFile (c : Config) (mode : OpenMode) (v : Volume) : Outcome (StoreFile × Bool) × Volume :=
  match v.openPath c.path (access c.permissions mode) with
  | .error fault => (.error (.fileOpen c.path fault), v)
  -- A directory opened to read has no header block to read.
  | .ok (.directory, v) => (.error (.corrupt .truncatedHeader), v)
  | .ok (.file f, v) =>
    let locked := if c.options.nolock then some v else v.tryLock f (lockKind mode)
    match locked with
    | none =>
      (.error (if mode.isWriter then .cannotBeWriter c.path else .cannotBeReader c.path), v.close f)
    | some v =>
      let v := if mode = .newDb then v.setLen f.ino 0 else v
      match start c mode f v with
      | .ok r => (.ok r, v)
      | .error e => (.error e, v.close f)

end StoreFile

end HashFile
