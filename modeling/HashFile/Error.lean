import HashFile.Text.Hex
import HashFile.Text.Quoted
import HashFile.Word

/-!
# Errors

Every failure of the store is a cause with its own constructor; its wording is
given in one place, `StoreError.message`.

* `FileFault`: what the operating system answers a file call with.
* `Corruption`: the file is not a database, or its header contradicts itself.
* `BucketFault`: a bucket block that cannot be read back.
* `Inconsistency`: the index points somewhere it must not; these are the
  failures a session reports to its fatal log.
* `ArgumentFault`: a caller's value is refused.

`StoreError.overflow` is apart from these: it is not a failure the store
reports but an operation cut short by a word sum that overflowed (see
`HashFile.Word`), and nothing that would have run after it runs.
-/
namespace HashFile

/-- Failures of file calls, with the operating system's texts. -/
inductive FileFault where
  | notFound
  | isDirectory
  | notDirectory
  | alreadyExists
  /-- A position past the largest file. -/
  | invalidArgument
  /-- A write or a length past the largest file. -/
  | fileTooLarge
  /-- A length that is no signed 64-bit number. -/
  | lengthOutOfRange
  /-- A path, or a name in it, longer than the file system takes. -/
  | nameTooLong
  /-- A path with a NUL character, which no system call can be given. -/
  | nulInName
  /-- A file whose mode bits do not let its owner open it so. -/
  | permissionDenied
  deriving DecidableEq, Repr, Inhabited

/-- The text of a file call failure. -/
def FileFault.message : FileFault → String
  | .notFound => "No such file or directory (os error 2)"
  | .isDirectory => "Is a directory (os error 21)"
  | .notDirectory => "Not a directory (os error 20)"
  | .alreadyExists => "File exists (os error 17)"
  | .invalidArgument => "Invalid argument (os error 22)"
  | .fileTooLarge => "File too large (os error 27)"
  | .lengthOutOfRange => "out of range integral type conversion attempted"
  | .nameTooLong => "File name too long (os error 36)"
  | .nulInName => "file name contained an unexpected NUL byte"
  | .permissionDenied => "Permission denied (os error 13)"

/-- Ways the header block shows the file is not a usable database. -/
inductive Corruption where
  | truncatedHeader
  | implausibleHeaderLength (len : Nat)
  | headerChecksum
  /-- The checksummed payload ends before the header record does. -/
  | undecodableHeader
  | badMagic (magic : Nat)
  | unsupportedVersion (version : Nat)
  | badBlockSize (blockSize : Nat)
  | emptyFile
  | directoryNeverWritten
  | slotsPerBucket (claimed blockSize holds : Nat)
  | directoryTooDeep (bits : Nat)
  deriving DecidableEq, Repr

/-- The text of a corruption. -/
def Corruption.message : Corruption → String
  | .truncatedHeader => "truncated header block"
  | .implausibleHeaderLength n => "implausible header length " ++ toString n
  | .headerChecksum => "header checksum mismatch"
  | .undecodableHeader => "undecodable header: io error: unexpected end of file"
  | .badMagic m => "bad magic number 0x" ++ hexPadded m 8
  | .unsupportedVersion v => "unsupported format version " ++ toString v
  | .badBlockSize b => "bad block size " ++ toString b
  | .emptyFile => "empty database file"
  | .directoryNeverWritten => "database directory was never written"
  | .slotsPerBucket c b h =>
    "header claims " ++ toString c ++ " slots per bucket, block size " ++ toString b ++
      " holds " ++ toString h
  | .directoryTooDeep d => "directory depth " ++ toString d ++ " exceeds hash width"

/-- Ways a bucket block fails to decode. -/
inductive BucketFault where
  /-- The block is shorter than its header and slots. -/
  | shortBlock (size needed : Nat)
  | countAboveSlots (count slots : Nat)
  | countMismatch (count occupied : Nat)
  deriving DecidableEq, Repr

/-- The text of a bucket fault. -/
def BucketFault.message : BucketFault → String
  | .shortBlock s n => "bucket block is " ++ toString s ++ " bytes, need " ++ toString n
  | .countAboveSlots c n => "bucket count " ++ toString c ++ " exceeds " ++ toString n ++ " slots"
  | .countMismatch c n =>
    "bucket count " ++ toString c ++ " but " ++ toString n ++ " occupied slots"

/-- Internal consistency failures: the index points where it must not. -/
inductive Inconsistency where
  | readPastEnd (len offset : Nat)
  | entryOutside (entry low high : Nat)
  | badBucket (offset : Nat) (fault : BucketFault)
  | bucketTooDeep (offset depth dirDepth : Nat)
  | bucketFullAfterSplit (offset : Nat)
  | directoryIndex (index : Nat)
  | splitTooDeep
  /-- A record a traversal found was gone when its value was read for a copy. -/
  | recordVanished (slot : Nat)
  deriving DecidableEq, Repr

/-- The text of an internal consistency failure. -/
def Inconsistency.message : Inconsistency → String
  | .readPastEnd len off =>
    "read of " ++ toString len ++ " bytes at offset " ++ toString off ++ " runs past end of file"
  | .entryOutside e lo hi =>
    "directory entry " ++ toString e ++ " outside allocated area [" ++ toString lo ++ ", " ++
      toString hi ++ ")"
  | .badBucket off f => "bucket at " ++ toString off ++ ": " ++ f.message
  | .bucketTooDeep off d dd =>
    "bucket at " ++ toString off ++ " has depth " ++ toString d ++ " above directory depth " ++
      toString dd
  | .bucketFullAfterSplit off => "bucket at " ++ toString off ++ " full after split"
  | .directoryIndex i => "directory index " ++ toString i ++ " out of range"
  | .splitTooDeep => "bucket split would exceed the hash width"
  | .recordVanished slot => "record at slot " ++ toString slot ++ " vanished during copy"

/-- Values a caller passed that are refused. -/
inductive ArgumentFault where
  | unknownFlags (raw : Nat)
  | blockSize (got : Nat)
  | cacheSize
  | keyTooLarge (len : Nat)
  | valueTooLarge (len : Nat)
  /-- A failure a caller's own code reported through the store, with its text. -/
  | caller (text : String)
  deriving DecidableEq, Repr

/-- The text of a refused argument. -/
def ArgumentFault.message : ArgumentFault → String
  | .unknownFlags raw => "unknown open flags: " ++ hexLiteral raw
  | .blockSize got =>
    "block size must be a power of two in 512..=65536, got " ++ toString got
  | .cacheSize => "cache size must be at least 1"
  | .keyTooLarge n => "key of " ++ toString n ++ " bytes is too large"
  | .valueTooLarge n => "value of " ++ toString n ++ " bytes is too large"
  | .caller text => text

/-- Everything a store operation can fail with. -/
inductive StoreError where
  | io (fault : FileFault)
  | fileOpen (path : String) (fault : FileFault)
  | cannotBeReader (path : String)
  | cannotBeWriter (path : String)
  | corrupt (c : Corruption)
  | headerTooLarge (payload blockSize : Nat)
  | fatal (i : Inconsistency)
  | keyNotFound
  | closedHandle
  | readOnly
  | invalidArgument (a : ArgumentFault)
  /-- A word sum overflowed: the operation was cut short where it happened,
  and no caller step after it ran. -/
  | overflow
  deriving DecidableEq, Repr

namespace StoreError

/-- The text of an error. -/
def message : StoreError → String
  | .io f => "IO error: " ++ f.message
  | .fileOpen p f => "Cannot open database file " ++ quoted p ++ ": " ++ f.message
  | .cannotBeReader p => "Cannot open " ++ quoted p ++ " as a reader: locked by a writer"
  | .cannotBeWriter p => "Cannot open " ++ quoted p ++ " as a writer: locked by another session"
  | .corrupt c => "Corrupt database: " ++ c.message
  | .headerTooLarge n b =>
    "Serialization error: header payload of " ++ toString n ++ " bytes does not fit a " ++
      toString b ++ " byte block"
  | .fatal i => "Fatal database error: " ++ i.message
  | .keyNotFound => "Key not found"
  | .closedHandle => "Database handle is closed"
  | .readOnly => "Database was opened read-only"
  | .invalidArgument a => "Invalid argument: " ++ a.message
  | .overflow => "arithmetic overflow"

/-- Another session holds the lock. -/
def isLockContention : StoreError → Bool
  | .cannotBeReader _ | .cannotBeWriter _ => true
  | _ => false

/-- The operation was cut short by an overflow. -/
def isOverflow : StoreError → Bool
  | .overflow => true
  | _ => false

/-- The file itself could not be opened. -/
def isFileOpen : StoreError → Bool
  | .fileOpen _ _ => true
  | _ => false

end StoreError

/-- Results of store operations. -/
abbrev Outcome := Except StoreError

end HashFile
