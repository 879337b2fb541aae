import HashFile.Error
import HashFile.SparseBytes
import HashFile.DirBlock

/-!
# Volumes

The medium a store lives on: a tree of directories and files addressed by
relative paths, files as byte strings, and advisory locks. A path names a file
through a directory entry; the file itself (its inode) lives on while an open
description refers to it, so a file removed or renamed over while open keeps
its bytes for whoever has it open.

Locks belong to open descriptions. An exclusive lock is granted only when no
other description holds a lock on the file, a shared one only when no other
description holds an exclusive lock, and closing a description releases its
lock.

Paths are split at `/`. Every component before the last is a directory to pass
through: a missing one is `notFound`, a file in the way is `notDirectory`; empty
components and `.` stay in the directory reached so far. The last component is
the leaf: `.` (or nothing, as in `/`) is the directory reached itself, and a
name followed by a slash must be a directory. The empty path names nothing.
So `db`, `./db` and `.//db` name one file, which `db/` and `db/.` do not reach.
`..` is an ordinary name: the volume is one tree with nothing above its root.
A name longer than `nameLimit` bytes is refused when it is looked up, and a
path of `pathLimit` bytes or more is refused before anything, as is a path
with a NUL character.

Every directory keeps the layout of its blocks (`DirLayout`), which gives the
size it reports. An entry added to a directory adds its record there, and an
entry removed takes its record away; an entry renamed over another keeps the
record of the one it replaces.

A file carries the mode bits it was made with. Only the owner's bits count:
opening an existing file to read needs its read bit, to write its write bit,
while making a new file always succeeds.
-/
namespace HashFile

/-- The two kinds of advisory lock. -/
inductive LockKind where
  | shared
  | exclusive
  deriving DecidableEq, Repr, Inhabited

/-- The bytes of a file and the locks open descriptions hold on it. -/
structure Inode where
  data : SparseBytes
  /-- Mode bits: `0o400` lets the owner read, `0o200` write. -/
  mode : Nat
  /-- Open descriptions holding a lock, with its kind. -/
  locks : List (Nat × LockKind)
  deriving Inhabited

/-- What a directory entry names. -/
inductive Entry where
  | file (ino : Nat)
  | directory
  deriving DecidableEq, Repr, Inhabited

/-- A tree of directories and files. -/
structure Volume where
  /-- Directory entries by normalized path; the root is implicit. -/
  entries : List (String × Entry)
  /-- Every file ever made, by number; a file stays after its last entry goes. -/
  inodes : Array Inode
  /-- The number of the next open description. -/
  nextDescription : Nat
  /-- The layout of each directory that changed, by normalized path; the
  others are fresh. -/
  dirs : List (String × DirLayout)
  deriving Inhabited

/-- An open description of a file. -/
structure OpenFile where
  ino : Nat
  /-- The description's own number, which owns its lock. -/
  id : Nat
  deriving DecidableEq, Repr, Inhabited

namespace Volume

/-- The empty volume. -/
def empty : Volume := ⟨[], #[], 0, []⟩

/-- The components of a path that name something: empty ones and `.` dropped. -/
def components (path : String) : List String :=
  (path.splitOn "/").filter fun c => c ≠ "" ∧ c ≠ "."

/-- The normal form of a path: its naming components joined by `/`. -/
def normalize (path : String) : String :=
  "/".intercalate (components path)

/-- What a normalized path names; the empty path is the root directory. -/
def entry? (v : Volume) (p : String) : Option Entry :=
  if p = "" then some .directory else v.entries.lookup p

/-- The last component of a path. -/
inductive Leaf where
  /-- The directory reached by the components before it. -/
  | here
  /-- An entry of that directory; with `slash` it must be a directory. -/
  | name (n : String) (slash : Bool)
  deriving DecidableEq, Repr

/-- A path taken apart: the directories it passes through, and its leaf. -/
structure Target where
  dirs : List String
  leaf : Leaf
  deriving DecidableEq, Repr

/-- Take a path apart; the empty path names nothing. -/
def Target.parse (path : String) : Option Target :=
  if path = "" then none
  else
    let parts := path.splitOn "/"
    let kept := parts.reverse.dropWhile (· = "") |>.reverse
    let slash := decide (kept.length < parts.length)
    let dirsOf (cs : List String) := cs.filter fun c => c ≠ "" ∧ c ≠ "."
    match kept.getLast? with
    | none => some ⟨[], .here⟩
    | some "." => some ⟨dirsOf kept.dropLast, .here⟩
    | some n => some ⟨dirsOf kept.dropLast, .name n slash⟩

/-- The normalized path of the directory a target's leaf lies in. -/
def Target.dirPath (t : Target) : String := "/".intercalate t.dirs

/-- The normalized path of a named leaf. -/
def Target.leafPath (t : Target) (n : String) : String := "/".intercalate (t.dirs ++ [n])

/-- The longest name a directory takes, in bytes. -/
def nameLimit : Nat := 255

/-- Paths reach this many bytes only to be refused. -/
def pathLimit : Nat := 4096

/-- Look a name up under a normalized directory path. -/
def lookup (v : Volume) (dir : List String) (n : String) : Except FileFault (Option Entry) :=
  if nameLimit < n.utf8ByteSize then .error .nameTooLong
  else .ok (v.entry? ("/".intercalate (dir ++ [n])))

/-- Check that every directory a path passes through is one. -/
def checkDirs (v : Volume) (dirs : List String) : Except FileFault Unit :=
  let rec go (acc : List String) : List String → Except FileFault Unit
    | [] => .ok ()
    | c :: rest =>
      match v.lookup acc c with
      | .error f => .error f
      | .ok (some .directory) => go (acc ++ [c]) rest
      | .ok (some (.file _)) => .error .notDirectory
      | .ok none => .error .notFound
  go [] dirs

/-- Take a path apart and check the directories it passes through. -/
def locate (v : Volume) (path : String) : Except FileFault Target := do
  if path.contains (Char.ofNat 0) then throw .nulInName
  if pathLimit ≤ path.utf8ByteSize then throw .nameTooLong
  match Target.parse path with
  | none => throw .notFound
  | some t =>
    v.checkDirs t.dirs
    pure t

/-- Look up the named leaf of a located path. -/
def Target.find (v : Volume) (t : Target) (n : String) : Except FileFault (Option Entry) :=
  v.lookup t.dirs n

/-- What a path names. -/
def stat (v : Volume) (path : String) : Except FileFault Entry := do
  let t ← v.locate path
  match t.leaf with
  | .here => pure .directory
  | .name n slash =>
    match ← t.find v n with
    | none => throw .notFound
    | some (.file ino) => if slash then throw .notDirectory else pure (.file ino)
    | some .directory => pure .directory

/-- Whether something is at a path; only a missing leaf or directory answers `false`. -/
def present (v : Volume) (path : String) : Except FileFault Bool :=
  match v.stat path with
  | .ok _ => .ok true
  | .error .notFound => .ok false
  | .error f => .error f

/-- Whether a path names a directory. -/
def isDir (v : Volume) (path : String) : Bool :=
  match v.stat path with
  | .ok .directory => true
  | _ => false

/-- The contents of a file. -/
def data (v : Volume) (ino : Nat) : SparseBytes := (v.inodes.getD ino default).data

/-- The length of a file. -/
def fileLen (v : Volume) (ino : Nat) : Nat := (v.data ino).size

/-- Change the contents of a file. -/
def modifyData (v : Volume) (ino : Nat) (f : SparseBytes → SparseBytes) : Volume :=
  { v with inodes := v.inodes.modify ino fun n => { n with data := f n.data } }

/-- Bytes `[off, off + len)` of a file; `none` when they run past its end. -/
def readAt (v : Volume) (ino off len : Nat) : Option ByteArray :=
  let d := v.data ino
  if len = 0 then some ByteArray.empty
  else if off + len ≤ d.size then some (d.read off len)
  else none

/-- At most `len` bytes of a file from `off`, as far as the file reaches. -/
def readFrom (v : Volume) (ino off len : Nat) : ByteArray := (v.data ino).read off len

/-- The largest length a file reaches: `2 ^ 32 - 1` blocks of 4096 bytes. A
file may be moved to any position up to it, and no write goes past it. -/
def maxFileSize : Nat := (Nat.pow 2 32 - 1) * 4096

/-- Move to a position in a file; a position past `maxFileSize` is refused. -/
def seek (off : Nat) : Except FileFault Unit :=
  if off ≤ maxFileSize then .ok () else .error .invalidArgument

/-- Positions and lengths are signed 64-bit numbers, below this bound. -/
def positionLimit : Nat := Nat.pow 2 63

/-- Move to a position in a directory: every position that is a signed 64-bit
number is taken. -/
def seekDir (off : Nat) : Except FileFault Unit :=
  if off < positionLimit then .ok () else .error .invalidArgument

/-- Check a length a file is cut or extended to: it must be a position, and
no larger than the largest file. -/
def checkLength (len : Nat) : Except FileFault Unit :=
  if positionLimit ≤ len then .error .lengthOutOfRange
  else if maxFileSize < len then .error .fileTooLarge
  else .ok ()

/-- Write bytes at an offset; the bytes of any gap after the end read as zero.
Writing nothing changes nothing. -/
def writeAt (v : Volume) (ino off : Nat) (bytes : ByteArray) : Volume :=
  if bytes.size = 0 then v
  else v.modifyData ino fun d => d.write off bytes

/-- Move to `off` and write all of `bytes`, as repeated writes do: the bytes
that fit below `maxFileSize` are written, and a write with bytes left at the
limit fails there, keeping what it wrote. -/
def writeAll (v : Volume) (ino off : Nat) (bytes : ByteArray) : Except FileFault Unit × Volume :=
  match seek off with
  | .error e => (.error e, v)
  | .ok () =>
    let room := maxFileSize - off
    if bytes.size ≤ room then (.ok (), v.writeAt ino off bytes)
    else (.error .fileTooLarge, v.writeAt ino off (bytes.extract 0 room))

/-- Cut a file to a length or extend it with zero bytes. -/
def setLen (v : Volume) (ino len : Nat) : Volume :=
  v.modifyData ino fun d => d.setLen len

/-- The directory a normalized path lies in, and its name there. -/
def splitLast (p : String) : String × String :=
  match (p.splitOn "/").reverse with
  | name :: dirs => ("/".intercalate dirs.reverse, name)
  | [] => ("", p)

/-- The layout of a directory's blocks. -/
def layout (v : Volume) (d : String) : DirLayout := (v.dirs.lookup d).getD .fresh

/-- Set the layout of a directory's blocks. -/
def setLayout (v : Volume) (d : String) (l : DirLayout) : Volume :=
  { v with dirs := (d, l) :: v.dirs.filter fun q => q.1 ≠ d }

/-- The size a directory reports. -/
def dirSize (v : Volume) (path : String) : Nat := (v.layout (normalize path)).size

/-- Add the record of a normalized path's entry to its directory. -/
def addRecord (v : Volume) (p : String) : Volume :=
  let (d, name) := splitLast p
  v.setLayout d ((v.layout d).insert name)

/-- Bind a normalized path to an entry, replacing what it named; a new name
adds its record to the directory. -/
def bind (v : Volume) (p : String) (e : Entry) : Volume :=
  let isNew := (v.entries.lookup p).isNone
  let v := { v with entries := (p, e) :: v.entries.filter fun q => q.1 ≠ p }
  if isNew then v.addRecord p else v

/-- Remove the entry of a normalized path and its record. -/
def unbind (v : Volume) (p : String) : Volume :=
  let (d, name) := splitLast p
  let v := { v with entries := v.entries.filter fun q => q.1 ≠ p }
  v.setLayout d ((v.layout d).erase name)

/-- A new empty file with mode bits `mode`, bound at a normalized path. -/
def createFile (v : Volume) (p : String) (mode : Nat) : Nat × Volume :=
  let ino := v.inodes.size
  (ino, { v.bind p (.file ino) with inodes := v.inodes.push ⟨SparseBytes.empty, mode, []⟩ })

/-- A new open description of a file. -/
def describe (v : Volume) (ino : Nat) : OpenFile × Volume :=
  (⟨ino, v.nextDescription⟩, { v with nextDescription := v.nextDescription + 1 })

/-- How a path is opened: to read, to write, and whether an absent file is
made, with the mode bits it gets. Only a path opened without writing may be
a directory. -/
structure Access where
  reads : Bool
  writes : Bool
  creates : Option Nat
  deriving DecidableEq, Repr

/-- The mode bits a file is made with when no others are asked for. -/
def defaultMode : Nat := 0o666

namespace Access

/-- Read only. -/
def read : Access := ⟨true, false, none⟩

/-- Write only; the file must exist. -/
def write : Access := ⟨false, true, none⟩

/-- Write only; an absent file is made with the default mode bits. -/
def writeNew : Access := ⟨false, true, some defaultMode⟩

/-- Read and write; the file must exist. -/
def update : Access := ⟨true, true, none⟩

/-- Read and write; an absent file is made with mode bits `mode`. -/
def updateNew (mode : Nat) : Access := ⟨true, true, some mode⟩

/-- Whether a file's mode bits let its owner open it so. -/
def permits (a : Access) (mode : Nat) : Bool :=
  (!a.reads || mode.testBit 8) && (!a.writes || mode.testBit 7)

end Access

/-- The mode bits of a file. -/
def mode (v : Volume) (ino : Nat) : Nat := (v.inodes.getD ino default).mode

/-- Give a file other mode bits. -/
def setMode (v : Volume) (ino mode : Nat) : Volume :=
  { v with inodes := v.inodes.modify ino fun n => { n with mode } }

/-- What an open call reaches: a file, or a directory opened to read. -/
inductive Opened where
  | file (f : OpenFile)
  | directory
  deriving Inhabited

/-- Open a path. Making a file refuses a leaf that must be a directory, and
writing refuses a directory. -/
def openPath (v : Volume) (path : String) (access : Access) : Except FileFault (Opened × Volume) := do
  let t ← v.locate path
  match t.leaf with
  | .here => if access.writes then throw .isDirectory else pure (.directory, v)
  | .name n slash =>
    if access.creates.isSome && slash then throw .isDirectory
    match ← t.find v n with
    | some (.file ino) =>
      if slash then throw .notDirectory
      else if !access.permits (v.mode ino) then throw .permissionDenied
      else
        let (f, v) := v.describe ino
        pure (.file f, v)
    | some .directory => if access.writes then throw .isDirectory else pure (.directory, v)
    | none =>
      match access.creates with
      | some mode =>
        let (ino, v) := v.createFile (t.leafPath n) mode
        let (f, v) := v.describe ino
        pure (.file f, v)
      | none => throw .notFound

/-- Try to take a lock without waiting. -/
def tryLock (v : Volume) (f : OpenFile) (kind : LockKind) : Option Volume :=
  let others := (v.inodes.getD f.ino default).locks.filter fun l => l.1 ≠ f.id
  let granted : Bool := match kind with
    | .exclusive => others.isEmpty
    | .shared => others.all fun l => l.2 = .shared
  if granted then
    some { v with inodes := v.inodes.modify f.ino fun n => { n with locks := (f.id, kind) :: others } }
  else none

/-- Close a description, releasing its lock. -/
def close (v : Volume) (f : OpenFile) : Volume :=
  { v with inodes := v.inodes.modify f.ino fun n => { n with locks := n.locks.filter fun l => l.1 ≠ f.id } }

/-- Make one directory; its leaf must be a name that is not taken. -/
def mkdir (v : Volume) (path : String) : Except FileFault Volume := do
  let t ← v.locate path
  match t.leaf with
  | .here => throw .alreadyExists
  | .name n _ =>
    match ← t.find v n with
    | some _ => throw .alreadyExists
    | none => pure (v.bind (t.leafPath n) .directory)

/-- The path a path's last naming component lies in: the components before it,
with a leading `.` and `/` kept. The empty path and `/` have none. -/
def parent? (path : String) : Option String :=
  let parts := path.splitOn "/"
  let lead := match parts with
    | "" :: _ :: _ => "/"
    | "." :: _ => "./"
    | _ => ""
  match (components path).dropLast, components path with
  | _, [] => if lead = "./" then some "" else none
  | [], _ => some (if lead = "./" then "." else if lead = "/" then "/" else "")
  | cs, _ => some (lead ++ "/".intercalate cs)

/-- Make a directory and the missing directories above it, as far as `fuel`
levels go. A path that already is a directory is fine. The directories made
stay made when a deeper one then fails. -/
def mkdirAll : Nat → Volume → String → Except FileFault Unit × Volume
  | 0, v, path =>
    match v.mkdir path with
    | .ok v => (.ok (), v)
    | .error e => (.error e, v)
  | fuel + 1, v, path =>
    if path = "" then (.ok (), v)
    else
      let settle (v : Volume) (e : FileFault) : Except FileFault Unit × Volume :=
        (if v.isDir path then .ok () else .error e, v)
      match v.mkdir path with
      | .ok v => (.ok (), v)
      | .error .notFound =>
        match parent? path with
        | none => (.error .notFound, v)
        | some p =>
          match mkdirAll fuel v p with
          | (.error e, v) => (.error e, v)
          | (.ok (), v) =>
            match v.mkdir path with
            | .ok v => (.ok (), v)
            | .error e => settle v e
      | .error e => settle v e

/-- Make a directory with the directories above it. -/
def makeDirs (v : Volume) (path : String) : Except FileFault Unit × Volume :=
  mkdirAll ((path.splitOn "/").length + 1) v path

/-- Remove the entry of a file. -/
def removeFile (v : Volume) (path : String) : Except FileFault Volume := do
  let t ← v.locate path
  match t.leaf with
  | .here => throw .isDirectory
  | .name n slash =>
    match ← t.find v n with
    | some (.file _) => if slash then throw .notDirectory else pure (v.unbind (t.leafPath n))
    | some .directory => throw .isDirectory
    | none => throw .notFound

/-- Move the entry of a file to another path, replacing a file there. The new
name is bound before the old one goes, and a path moved onto itself stays. -/
def rename (v : Volume) (src dst : String) : Except FileFault Volume := do
  let s ← v.locate src
  let d ← v.locate dst
  match s.leaf, d.leaf with
  | .name n slash, .name m slash' =>
    match ← s.find v n with
    | some (.file ino) =>
      if slash || slash' then throw .notDirectory
      else
        match ← d.find v m with
        | some .directory => throw .isDirectory
        | _ =>
          if s.leafPath n = d.leafPath m then pure v
          else pure ((v.bind (d.leafPath m) (.file ino)).unbind (s.leafPath n))
    | some .directory => throw .isDirectory
    | none => throw .notFound
  | _, _ => throw .isDirectory

/-- The file a path names, opened to read its bytes: a directory opens but
cannot be read. -/
def fileAt (v : Volume) (path : String) : Except FileFault Nat := do
  match ← v.openPath path .read with
  | (.file f, _) => pure f.ino
  | (.directory, _) => throw .isDirectory

end Volume

end HashFile
