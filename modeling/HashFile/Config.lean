import HashFile.Key
import HashFile.Error

/-!
# Open modes, options and session configuration

A session opens its file in one of four modes: a reader shares the file with
other readers, and the three writer modes hold it alone (`Writer` needs the file,
`WriteCreate` makes it, `NewDb` empties it). Integer flags carry an explicit mode
in their low two bits when the bit `modeExplicit` is set; the option bits are
`FAST` (accepted, no effect), `SYNC` (sync after every change) and `NOLOCK`
(take no lock). `parseFlags` splits a flag word and refuses unknown bits.

A `Config` fixes everything a session needs besides the file: the block size of
a new file, the explicit mode or the cascade WriteCreate, Writer, Reader with its
fallback policy, the bucket cache size, and whether internal consistency failures
are reported to the caller's log.
-/
namespace HashFile

/-- The engine's name, version and file format version. -/
def engineVersion : String := "AtlasDBM 0.1.0 (format 1)"

/-- How a session opens its file. -/
inductive OpenMode where
  | reader
  | writer
  | writeCreate
  | newDb
  deriving DecidableEq, Repr, Inhabited

/-- The mark of an explicitly requested mode in integer flags. -/
def modeExplicit : Nat := 0x20000000

/-- Option bits of integer flags. -/
def fastBit : Nat := 0x10
def syncBit : Nat := 0x20
def nolockBit : Nat := 0x40

namespace OpenMode

/-- The mode named by the two low bits of a flag word. -/
def ofBits (raw : Nat) : OpenMode :=
  match raw % 4 with
  | 0 => .reader
  | 1 => .writer
  | 2 => .writeCreate
  | _ => .newDb

/-- The integer flag word that requests this mode. -/
def flagWord : OpenMode → Nat
  | .reader => modeExplicit
  | .writer => modeExplicit + 1
  | .writeCreate => modeExplicit + 2
  | .newDb => modeExplicit + 3

/-- Every mode but `reader` takes the file alone and may change it. -/
def isWriter : OpenMode → Bool
  | .reader => false
  | _ => true

/-- The mode's name. -/
def name : OpenMode → String
  | .reader => "Reader"
  | .writer => "Writer"
  | .writeCreate => "WriteCreate"
  | .newDb => "NewDb"

/-- The mode with a given name. -/
def ofName? : String → Option OpenMode
  | "Reader" => some .reader
  | "Writer" => some .writer
  | "WriteCreate" => some .writeCreate
  | "NewDb" => some .newDb
  | _ => none

end OpenMode

/-- Option bits combinable with any mode. -/
structure OpenOptions where
  fast : Bool := false
  sync : Bool := false
  nolock : Bool := false
  deriving DecidableEq, Repr, Inhabited

namespace OpenOptions

/-- The option word of these options. -/
def bits (o : OpenOptions) : Nat :=
  (if o.fast then fastBit else 0) + (if o.sync then syncBit else 0) +
    (if o.nolock then nolockBit else 0)

/-- The options whose bits are set in a word; other bits are ignored. -/
def ofBits (raw : Nat) : OpenOptions :=
  { fast := raw.testBit 4, sync := raw.testBit 5, nolock := raw.testBit 6 }

/-- Whether a word holds option bits only. -/
def onlyOptionBits (raw : Nat) : Bool :=
  raw &&& (fastBit + syncBit + nolockBit) = raw

end OpenOptions

/-- What the open cascade does when it cannot get write access. -/
inductive Fallback where
  /-- Hand back a reader. -/
  | silent
  /-- Hand back a reader, with a warning in the diagnostic log. -/
  | warn
  /-- Fail instead of handing back a reader. -/
  | neverReader
  deriving DecidableEq, Repr, Inhabited

/-- The policy with a given name. -/
def Fallback.ofName? : String → Option Fallback
  | "Silent" => some .silent
  | "Warn" => some .warn
  | "NeverReader" => some .neverReader
  | _ => none

/-- Everything a session needs to open a file. -/
structure Config where
  path : String := "./atlasdbm.db"
  /-- Block size of a file made by this session; a file keeps the size it was made with. -/
  blockSize : Nat := 2048
  /-- Permission bits of a file made by this session. -/
  permissions : Nat := 0o666
  /-- The explicit mode, or `none` for the cascade. -/
  mode : Option OpenMode := none
  options : OpenOptions := {}
  fallback : Fallback := .warn
  /-- Buckets held in memory. -/
  cacheSize : Nat := 64
  /-- Whether internal consistency failures are reported to the caller's log. -/
  reportsFatal : Bool := false
  deriving Repr, Inhabited

/-- Block sizes a file may have: powers of two from 512 to 65536. -/
def validBlockSize (n : Nat) : Bool :=
  512 ≤ n && n ≤ 65536 && n &&& (n - 1) = 0

/-- Split a flag word into an explicit mode and option bits. Without the mark
`modeExplicit` the word holds option bits only and the cascade is asked for;
any bit that is neither mode nor option is refused. -/
def parseFlags (raw : Nat) : Outcome (Option OpenMode × OpenOptions) :=
  let (mode, rest) :=
    if raw &&& modeExplicit ≠ 0 then
      (some (OpenMode.ofBits raw), raw - (raw &&& (modeExplicit + 3)))
    else (none, raw)
  if OpenOptions.onlyOptionBits rest then .ok (mode, OpenOptions.ofBits rest)
  else .error (.invalidArgument (.unknownFlags raw))

/-- Check the values that cannot be fixed up later: the block size, then the cache size. -/
def Config.validate (c : Config) : Outcome Unit :=
  if !validBlockSize c.blockSize then .error (.invalidArgument (.blockSize c.blockSize))
  else if c.cacheSize = 0 then .error (.invalidArgument .cacheSize)
  else .ok ()

end HashFile
