import HashFile.Cli.Help

/-!
# Command-line arguments

The tool takes its options first and then one subcommand with its arguments:

    atlasdbm [-f FILE] [--reader] [--sync] [--no-lock] [-b BLOCK_SIZE] COMMAND ARGS...

An option's value follows it as the next argument, after `=`, or (for the short
forms) directly; a separate value may not look like an option. Each option may
be given once. `-h`/`--help` and `-V`/`--version` take no value; they print
and stop where they stand, and so does a short cluster that starts with them;
the `help` subcommand prints the page of the tool or of a subcommand.
After `--` a subcommand takes everything as its arguments. Anything else is a
usage error.

A value given with its option is taken at once. A value given as the next
argument waits: it is taken, and checked, when the next option is met, or once
the subcommand has read its own arguments. So a help page asked for by the
`help` subcommand, or inside a subcommand, is printed even when the waiting
value is bad or repeats an option, while any option after the value first
takes it.
-/
namespace HashFile

namespace Cli

/-- What the tool is asked to do. -/
inductive Command where
  | get (key : String)
  | set (key value : String)
  | del (key : String)
  | keys
  | dump
  | len
  | reorganize
  | version
  deriving DecidableEq, Repr

/-- The commands that change the file open it with `writeCreate`. -/
def Command.writes : Command → Bool
  | .set _ _ | .del _ | .reorganize => true
  | _ => false

/-- A parsed command line. -/
structure Invocation where
  file : String := "./atlasdbm.db"
  reader : Bool := false
  sync : Bool := false
  noLock : Bool := false
  blockSize : Nat := 2048
  command : Command
  deriving DecidableEq, Repr

/-- How reading the command line ends. -/
inductive Parsed where
  /-- Run a command. -/
  | invoke (inv : Invocation)
  /-- Print a help page or the version and stop. -/
  | print (text : String)
  /-- Refuse the command line, with the reason. -/
  | usage (reason : String)
  deriving DecidableEq, Repr

/-- The options that take a value. -/
inductive Valued where
  | file
  | blockSize
  deriving DecidableEq, Repr

/-- The options met before the subcommand. -/
structure Options where
  file : Option String := none
  reader : Bool := false
  sync : Bool := false
  noLock : Bool := false
  blockSize : Option Nat := none
  /-- A value given as the next argument, not yet taken. -/
  waiting : Option (Valued × String) := none
  deriving DecidableEq, Repr

/-- A block size argument: a signed decimal integer (digits after an optional
`+` or `-`) between 0 and `2 ^ 32 - 1`, so `-0` is 0. -/
def parseBlockSize (s : String) : Option Nat :=
  let negative := s.startsWith "-"
  let digits := if s.startsWith "+" || negative then (s.drop 1).toString else s
  if digits.isEmpty || !digits.all Char.isDigit then none
  else
    let n := digits.foldl (fun n c => 10 * n + (c.toNat - 48)) 0
    if negative then (if n = 0 then some 0 else none)
    else if n < Nat.pow 2 32 then some n else none

/-- Whether an argument stands for an option rather than a value. -/
def looksLikeOption (s : String) : Bool := s.startsWith "-" && s != "-"

/-- Record a flag, refusing a second one. -/
def setFlag (name : String) (was : Bool) (set : Options) : Except String Options :=
  if was then .error ("the argument '" ++ name ++ "' cannot be used multiple times") else .ok set

/-- Take the value of an option, refusing a second one and a bad block size. -/
def Options.take (o : Options) : Valued → String → Except String Options
  | .file, v =>
    if o.file.isSome then .error "the argument '--file <FILE>' cannot be used multiple times"
    else .ok { o with file := some v }
  | .blockSize, v =>
    if o.blockSize.isSome then .error "the argument '--block-size <BLOCK_SIZE>' cannot be used multiple times"
    else
      match parseBlockSize v with
      | none => .error ("invalid value '" ++ v ++ "' for '--block-size <BLOCK_SIZE>'")
      | some n => .ok { o with blockSize := some n }

/-- Take the waiting value, if there is one. -/
def Options.settle (o : Options) : Except String Options :=
  match o.waiting with
  | none => .ok o
  | some (which, v) => { o with waiting := none }.take which v

/-- The name of an option that takes a value, as messages write it. -/
def Valued.label : Valued → String
  | .file => "--file <FILE>"
  | .blockSize => "--block-size <BLOCK_SIZE>"

/-- An option that takes a value: one given with it is taken at once, the next
argument waits. Either way the value waiting before is taken first. -/
def valueOption (o : Options) (which : Valued) (given : Option String) (rest : List String) :
    Except String (Options × List String) := do
  let o ← o.settle
  match given, rest with
  | some v, rest => pure (← o.take which v, rest)
  | none, v :: rest =>
    if looksLikeOption v then throw ("a value is required for '" ++ which.label ++ "'")
    else pure ({ o with waiting := some (which, v) }, rest)
  | none, [] => throw ("a value is required for '" ++ which.label ++ "'")

/-- The arguments of a subcommand; the waiting value is taken after them. -/
def parseCommand (name : String) (o : Options) : List String → List String → Bool → Parsed
  | [], args, _ =>
    let inv (c : Command) : Parsed :=
      match o.settle with
      | .error e => .usage e
      | .ok o => .invoke {
        file := o.file.getD "./atlasdbm.db", reader := o.reader, sync := o.sync, noLock := o.noLock,
        blockSize := o.blockSize.getD 2048, command := c }
    match name, args with
    | "get", [k] => inv (.get k)
    | "set", [k, v] => inv (.set k v)
    | "del", [k] => inv (.del k)
    | "keys", [] => inv .keys
    | "dump", [] => inv .dump
    | "len", [] => inv .len
    | "reorganize", [] => inv .reorganize
    | "version", [] => inv .version
    | _, _ => .usage "the following required arguments were not provided"
  | a :: rest, args, escaped =>
    if !escaped && a = "--" then parseCommand name o rest args true
    else if !escaped && (a.startsWith "-h" || a = "--help") then .print ((commandHelp name).getD mainHelp)
    else if !escaped && looksLikeOption a then .usage ("unexpected argument '" ++ a ++ "' found")
    else
      let arity := match name with
        | "get" | "del" => 1
        | "set" => 2
        | _ => 0
      if args.length < arity then parseCommand name o rest (args ++ [a]) escaped
      else .usage ("unexpected argument '" ++ a ++ "' found")

/-- The `help` subcommand. -/
def parseHelp : List String → Parsed
  | [] => .print mainHelp
  | [name] =>
    match commandHelp name with
    | some text => .print text
    | none => .usage ("unrecognized subcommand '" ++ name ++ "'")
  | _ :: a :: _ => .usage ("unexpected argument '" ++ a ++ "' found")

/-- What an option argument asks for: a page to print, or options to go on with. -/
inductive OptionStep where
  | print (text : String)
  | next (o : Options) (rest : List String)
  | refuse (reason : String)

/-- Go on after an option, or refuse it. -/
def OptionStep.ofExcept : Except String (Options × List String) → OptionStep
  | .ok (o, rest) => .next o rest
  | .error e => .refuse e

/-- Print a page once the waiting value is taken. -/
def printAfter (o : Options) (text : String) : OptionStep :=
  match o.settle with
  | .ok _ => .print text
  | .error e => .refuse e

/-- Read one long option. -/
def longOption (o : Options) (a : String) (rest : List String) : OptionStep :=
  let body := (a.drop 2).toString
  let (name, given) := match body.splitOn "=" with
    | [n] => (n, none)
    | n :: vs => (n, some ("=".intercalate vs))
    | [] => (body, none)
  let flag (label : String) (was : Options → Bool) (set : Options → Options) : OptionStep :=
    if given.isSome then .refuse ("unexpected value for '" ++ label ++ "'")
    else .ofExcept (do
      let o ← o.settle
      pure (← setFlag label (was o) (set o), rest))
  let page (text : String) : OptionStep :=
    if given.isSome then .refuse ("unexpected value for '--" ++ name ++ "'") else printAfter o text
  match name with
  | "help" => page mainHelp
  | "version" => page versionText
  | "reader" => flag "--reader" (·.reader) fun o => { o with reader := true }
  | "sync" => flag "--sync" (·.sync) fun o => { o with sync := true }
  | "no-lock" => flag "--no-lock" (·.noLock) fun o => { o with noLock := true }
  | "file" => .ofExcept (valueOption o .file given rest)
  | "block-size" => .ofExcept (valueOption o .blockSize given rest)
  | _ => .refuse ("unexpected argument '" ++ a ++ "' found")

/-- Read one short option: its letter decides, and what follows it is its value. -/
def shortOption (o : Options) (a : String) (rest : List String) : OptionStep :=
  let attached := (a.drop 2).toString
  let given := if attached.isEmpty then none
    else some (if attached.startsWith "=" then (attached.drop 1).toString else attached)
  match a.toList with
  | _ :: 'h' :: _ => printAfter o mainHelp
  | _ :: 'V' :: _ => printAfter o versionText
  | _ :: 'f' :: _ => .ofExcept (valueOption o .file given rest)
  | _ :: 'b' :: _ => .ofExcept (valueOption o .blockSize given rest)
  | _ => .refuse ("unexpected argument '" ++ a ++ "' found")

/-- Read the options, then the subcommand. Each round takes at least one
argument, so `fuel` beyond their number is never needed. -/
def parseOptions : Nat → Options → List String → Parsed
  | 0, _, _ => .usage "too many arguments"
  | _ + 1, _, [] => .usage "'atlasdbm' requires a subcommand but one was not provided"
  | fuel + 1, o, a :: rest =>
    let continueWith : OptionStep → Parsed
      | .print text => .print text
      | .refuse reason => .usage reason
      | .next o rest => parseOptions fuel o rest
    if a = "--" then
      match rest with
      | [] => .usage "'atlasdbm' requires a subcommand but one was not provided"
      | b :: _ => .usage ("unexpected argument '" ++ b ++ "' found")
    else if a.startsWith "--" then continueWith (longOption o a rest)
    else if looksLikeOption a then continueWith (shortOption o a rest)
    else if a = "help" then parseHelp rest
    else if (commandTable.map (·.1)).contains a then parseCommand a o rest [] false
    else .usage ("unrecognized subcommand '" ++ a ++ "'")

/-- Read a command line (without the program name). -/
def parse (args : List String) : Parsed := parseOptions (args.length + 1) {} args

end Cli

end HashFile
