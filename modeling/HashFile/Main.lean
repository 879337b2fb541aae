import HashFile.Cli.Run

/-!
# The command-line tool on disk

The tool runs on a volume. Here the part of the disk it can reach is read into
one: the directories above the database file, the file itself, and the copy a
reorganize makes beside it. After the run, the files that changed are written
back and a file that went away is removed. Locks are not taken on disk: a run
is one process working alone.
-/
namespace HashFile

namespace Tool

/-- What a path holds on disk. -/
inductive Found where
  | file (data : ByteArray)
  | directory
  /-- Nothing, or nothing reachable: a component of the path is missing or a file. -/
  | absent

/-- Look at a path on disk by reading it: a directory refuses to be read with
`EISDIR` (21). -/
def probe (path : String) : IO Found := do
  match ← (IO.FS.readBinFile path).toBaseIO with
  | .ok data => pure (.file data)
  | .error (.inappropriateType _ 21 _) => pure .directory
  | .error _ => pure .absent

/-- The path on disk of the first `n` components of a path. -/
def diskPrefix (path : String) (n : Nat) : String :=
  (if path.startsWith "/" then "/" else "") ++ "/".intercalate ((Volume.components path).take n)

/-- Put what is on disk at a path into the volume under its normal form. -/
def place (v : Volume) (path : String) : Found → Volume
  | .file data =>
    let (ino, v) := v.createFile (Volume.normalize path) Volume.defaultMode
    v.writeAt ino 0 data
  | .directory => v.bind (Volume.normalize path) .directory
  | .absent => v

/-- Read the directories above a path into the volume, as far as they are directories. -/
def loadParents (path : String) : Nat → Nat → Volume → IO (Volume × Bool)
  | 0, _, v => pure (v, true)
  | left + 1, n, v => do
    match ← probe (diskPrefix path n) with
    | .directory => loadParents path left (n + 1) (v.bind (Volume.normalize (diskPrefix path n)) .directory)
    | found => pure (place v (diskPrefix path n) found, false)

/-- The files the tool may touch: the database file and the copy beside it. -/
def touched (path : String) : List String := [path, path ++ ".reorg"]

/-- Read what the tool may reach into a volume; also answers what each touched
file held. -/
def load (path : String) : IO (Volume × List (String × Option ByteArray)) := do
  let depth := (Volume.components path).length
  let (v, reachable) ← loadParents path (depth - 1) 1 Volume.empty
  if !reachable then return (v, [])
  let mut v := v
  let mut before := []
  for p in touched path do
    let found ← probe p
    v := place v p found
    before := before ++ [(p, match found with
      | .file data => some data
      | _ => none)]
  pure (v, before)

/-- Write back the touched files that changed, and remove those that went away. -/
def store (v : Volume) (before : List (String × Option ByteArray)) : IO Unit := do
  for (p, old) in before do
    let now := match v.entry? (Volume.normalize p) with
      | some (.file ino) => some (v.data ino).toBytes
      | _ => none
    match old, now with
    | _, some data =>
      if old.map (·.data) != some data.data then IO.FS.writeBinFile p data
    | some _, none => try IO.FS.removeFile p catch _ => pure ()
    | none, none => pure ()

/-- Run the tool on the disk. -/
def runOnDisk (args : List String) : IO UInt32 := do
  let (v, before) ← match Cli.parse args with
    | .invoke inv => load inv.file
    | _ => pure (Volume.empty, [])
  let (exit, v) := Cli.runTool args v
  store v before
  let out ← IO.getStdout
  out.write exit.stdout
  out.flush
  pure exit.code.toUInt32

end Tool

end HashFile

/-- The command-line tool. -/
def main (args : List String) : IO UInt32 := HashFile.Tool.runOnDisk args
