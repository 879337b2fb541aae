import HashFile.Cli.Parse
import HashFile.Reorganize

/-!
# Running the command-line tool

A command line is read, then the tool either prints (a help page or the
version, exit code 0), refuses it (exit code 2, nothing printed), or opens the
database and runs the command. `version` answers without opening. A reader is
opened when `--reader` asks for it, `writeCreate` for a command that changes
the file, and the open cascade otherwise.

A key that `get` or `del` does not find gives exit code 2. Any failure of the
store gives exit code 1, and an overflow that cuts a command short gives 101:
the session is then dropped, and what `keys` or `dump` printed before the
failure stays printed. A command that succeeds closes the
session, and a failure to close also gives exit code 1.
-/
namespace HashFile

namespace Cli

/-- How a run of the tool ends: its exit code and what it printed. -/
structure Exit where
  code : Nat
  stdout : ByteArray

/-- The configuration a command line opens the database with. -/
def Invocation.config (inv : Invocation) : Config :=
  { path := inv.file, blockSize := inv.blockSize,
    options := { sync := inv.sync, nolock := inv.noLock },
    mode := if inv.reader then some .reader else if inv.command.writes then some .writeCreate else none }

/-- A line of output. -/
def line (parts : List Bytes) : ByteArray :=
  parts.foldl (· ++ ·) ByteArray.empty |>.push 10

/-- Print the traversal from a cursor on, a line for each step, until it ends or
fails; what was printed before a failure stays printed. -/
def printFrom (step : Cursor → IndexM (Option ByteArray × Cursor)) :
    Nat → Cursor → ByteArray → IndexM (ByteArray × Option StoreError)
  | 0, _, out => pure (out, none)
  | fuel + 1, c, out => do
    match ← tryCatch (do pure (Except.ok (← step c))) (fun e => pure (Except.error e)) with
    | .error e => pure (out, some e)
    | .ok (none, _) => pure (out, none)
    | .ok (some text, c) => printFrom step fuel c (out ++ text)

/-- Print a whole traversal from a fresh cursor. -/
def printAll (step : Cursor → IndexM (Option ByteArray × Cursor)) :
    IndexM (ByteArray × Option StoreError) := do
  printFrom step (← Cursor.traversalBound) .unstarted ByteArray.empty

/-- The key of each step, on a line. -/
def keyLine (c : Cursor) : IndexM (Option ByteArray × Cursor) := do
  let (k, c) ← c.next
  pure (k.map fun k => line [k], c)

/-- The pair of each step, tab separated, on a line. -/
def pairLine (c : Cursor) : IndexM (Option ByteArray × Cursor) := do
  let (p, c) ← c.nextPair
  pure (p.map fun (k, v) => line [k, ByteArray.mk #[9], v], c)

/-- What a command does on an open session: its exit code and output, and the
failure that cut its output short, if one did. -/
def perform : Command → SessionM (Nat × ByteArray × Option StoreError)
  | .get key => do
    match ← Session.get key.toUTF8 with
    | some value => pure (0, line [value], none)
    | none => pure (2, .empty, none)
  | .set key value => do
    Session.put key.toUTF8 value.toUTF8
    pure (0, .empty, none)
  | .del key => do
    match ← Session.delete key.toUTF8 with
    | some _ => pure (0, .empty, none)
    | none => pure (2, .empty, none)
  | .keys => do
    let (out, failure) ← Session.withIndex (printAll keyLine)
    pure (0, out, failure)
  | .dump => do
    let (out, failure) ← Session.withIndex (printAll pairLine)
    pure (0, out, failure)
  | .len => do
    pure (0, line [(toString (← Session.len)).toUTF8], none)
  | .reorganize => do
    let s ← Session.reorganize
    let text := toString s.records ++ " records, " ++ toString s.bytesBefore ++ " -> " ++
      toString s.bytesAfter ++ " bytes"
    pure (0, line [text.toUTF8], none)
  | .version => pure (0, .empty, none)

/-- The exit code of a failed run: 1, or 101 when an overflow cut it short. -/
def failureCode (e : StoreError) : Nat := if e.isOverflow then 101 else 1

/-- Run a parsed command line on a volume. -/
def invoke (inv : Invocation) (v : Volume) : Exit × Volume :=
  match inv.command with
  | .version => (⟨0, (engineVersion ++ "\n").toUTF8⟩, v)
  | cmd =>
    match Session.openWith inv.config v with
    | (.error e, v) => (⟨failureCode e, .empty⟩, v)
    | (.ok s, v) =>
      match Session.run (perform cmd) v s with
      | (.error e, v, s) => (⟨failureCode e, .empty⟩, Session.drop v s)
      | (.ok (_, out, some e), v, s) => (⟨failureCode e, out⟩, Session.drop v s)
      | (.ok (code, out, none), v, s) =>
        match Session.run Session.close v s with
        | (.error _, v, _) => (⟨1, out⟩, v)
        | (.ok (), v, _) => (⟨code, out⟩, v)

/-- Run the tool with its arguments (without the program name) on a volume. -/
def runTool (args : List String) (v : Volume) : Exit × Volume :=
  match parse args with
  | .print text => (⟨0, text.toUTF8⟩, v)
  | .usage _ => (⟨2, .empty⟩, v)
  | .invoke inv => invoke inv v

end Cli

end HashFile
