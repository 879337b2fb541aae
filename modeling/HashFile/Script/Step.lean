import HashFile.Session.Bulk

/-!
# Scripts

A script drives sessions over one volume, step by step. Sessions are held
under names, and each name remembers the last key it was given while moving
through the keys; a step names the session it acts on, opens one under a name,
works on the files of the volume directly, runs the command-line tool, or
shares a session among several names. Every step answers with a reply, or
with the failure that stopped it; a failure does not end the script.

This module holds the language: the rules that select pairs, the requests
a session answers, the steps of a script, and the shape of the replies.
-/
namespace HashFile

namespace Script

/-- A rule on stored pairs. A rule is asked about pairs one after another,
and may also look at how many pairs it was asked about before. -/
inductive PairRule where
  | always
  | never
  | keyStartsWith (b : Bytes)
  | keyEndsWith (b : Bytes)
  | keyIs (b : Bytes)
  | valueIs (b : Bytes)
  | valueStartsWith (b : Bytes)
  | keyAmong (bs : List Bytes)
  | keyShorterThan (n : Nat)
  | valueShorterThan (n : Nat)
  /-- Every `m`-th pair, starting from pair number `r` (counting from 0). -/
  | everyNth (m r : Nat)

/-- Whether one byte string starts another. -/
def startsWith (b pre : Bytes) : Bool := pre.toList.isPrefixOf b.toList

/-- Whether one byte string ends another. -/
def endsWith (b post : Bytes) : Bool := post.toList.isSuffixOf b.toList

/-- Whether a rule holds of the pair asked about after `calls` others. -/
def PairRule.holds : PairRule → PairFilter
  | .always, _, _, _ => true
  | .never, _, _, _ => false
  | .keyStartsWith b, _, k, _ => startsWith k b
  | .keyEndsWith b, _, k, _ => endsWith k b
  | .keyIs b, _, k, _ => k == b
  | .valueIs b, _, _, v => v == b
  | .valueStartsWith b, _, _, v => startsWith v b
  | .keyAmong bs, _, k, _ => bs.contains k
  | .keyShorterThan n, _, k, _ => k.size < n
  | .valueShorterThan n, _, _, v => v.size < n
  | .everyNth m r, calls, _, _ => calls % m == r

/-- Why a step failed, when the store is not to blame. -/
inductive Failure where
  | store (e : StoreError)
  /-- The step was not understood. -/
  | badInput (reason : String)
  /-- No session is held under the name. -/
  | noHandle (reason : String)
  /-- A file step failed. -/
  | fileIo (f : FileFault)

/-- An argument a step reads only when it comes to it: its value, or the
failure reading it gives. -/
abbrev Later (α : Type) := Except Failure α

/-- What a session is asked to do. -/
inductive Request where
  | isClosed
  | mode
  | isWriter
  | path
  | close
  | get (key : Bytes)
  | fetch (key : Bytes)
  | fetchOr (key default : Bytes)
  /-- The value, or else the key's bytes reversed. -/
  | fetchOrReversed (key : Bytes)
  | put (key value : Bytes)
  | delete (key : Bytes)
  | contains (key : Bytes)
  | valuesAt (keys : List Bytes)
  | len
  | isEmpty
  | firstKey
  | nextKey (key : Bytes)
  | keys
  | values
  | pairs
  | toMap
  | invert
  | take (n : Nat)
  | keyOf (value : Bytes)
  | containsValue (value : Bytes)
  | select (rule : PairRule)
  | reject (rule : PairRule)
  | deleteIf (rule : PairRule)
  /-- Delete by a rule that fails when asked for the `failAt`-th time. -/
  | deleteIfFailing (rule : PairRule) (failAt : Nat)
  | clear
  | shift
  | update (pairs : List (Bytes × Bytes))
  | replace (pairs : List (Bytes × Bytes))
  /-- Store `count` numbered pairs from `start` on: key `stem ++ i`, value
  `valueStem ++ i` repeated `repeats` times, with `i` in decimal. -/
  | putNumbered (stem : Bytes) (count start : Nat) (valueStem : Bytes) (repeats : Nat)
  /-- Delete keys one by one, each read just before it is deleted; the first
  failure ends the request, keeping the deletions before it. -/
  | deleteAll (keys : List (Later Bytes))
  /-- Walk the keys with `firstKey` and `nextKey`, deleting those the rule
  selects (asked with an empty value), and answer at most `limit` keys met. -/
  | walk (rule : Option PairRule) (limit : Nat)
  | sync
  | reorganize
  | setCacheSize (n : Nat)
  | cacheSize
  | syncMode
  | setSyncMode (on : Bool)
  | setFastMode (on : Bool)
  | describe
  | stats
  /-- A request that could not be read, with the reason. -/
  | malformed (reason : String)
  /-- A request whose reading crashed: it fails as an overflow does. -/
  | crashed
  /-- A request without a name: it ends a run of requests, and the step that
  asked for them fails with the reason. -/
  | unnamed (reason : String)

/-- Whether a request moves through the keys, so that the key it answers is
remembered for the name that asked. -/
def Request.movesOn : Request → Bool
  | .firstKey | .nextKey _ => true
  | _ => false

/-- A step of a script. -/
inductive Step where
  /-- Open a path with integer flags under a name. -/
  | openFlags (name path : String) (perms flags : Nat)
  /-- Open a path with integer flags under a name, if something is there. -/
  | openExisting (name path : String) (perms flags : Nat)
  /-- Open by a configuration under a name. -/
  | openConfig (name : String) (c : Config)
  /-- Open a path, run requests until one fails, and close. -/
  | withOpen (path : String) (perms flags : Nat) (body : List Request)
  /-- A request to the session under a name. -/
  | ask (name : String) (r : Request)
  /-- The key after the last key a name was given by `firstKey`, `nextKey`
  or `nextLast`. -/
  | nextLast (name : String)
  /-- Delete the last key a name was given. -/
  | deleteLast (name : String)
  /-- Forget the session under a name without closing it first. -/
  | drop (name : String)
  /-- The fatal failures reported since the last time, then forgotten. -/
  | fatalLog
  | fileExists (path : String)
  | fileLen (path : String)
  | fileCrc (path : String)
  /-- Up to `len` bytes of a file from `offset`, in hexadecimal. The file is
  opened first, then the offset read and moved to, then the length read; a
  directory answers nothing for no bytes and refuses to be read. -/
  | fileHex (path : String) (offset len : Later Nat)
  /-- Write bytes into a file, making it if it is missing. The file is opened
  first, then the offset read and moved to, and the bytes written. -/
  | writeBytes (path : String) (offset : Later Nat) (data : Bytes)
  /-- Set the length of a file that exists; the length is read once it is open. -/
  | truncate (path : String) (len : Later Nat)
  | mkdir (path : String)
  | remove (path : String)
  /-- Run the command-line tool with its arguments. -/
  | tool (args : List String)
  /-- Move the session under a name to a shared name. -/
  | share (name shared : String)
  /-- Give a shared session another shared name. -/
  | shareAgain (shared other : String)
  /-- Forget a shared name; the session goes with its last name. -/
  | unshare (shared : String)
  /-- Requests to a shared session, answered one by one. -/
  | askShared (shared : String) (rs : List Request)
  /-- A single request to a shared session. -/
  | askSharedOne (shared : String) (r : Request)
  /-- A step that could not be read, with the reason. -/
  | malformed (reason : String)
  /-- A step whose reading crashed: it fails as an overflow does. -/
  | crashed
  /-- An open under a name whose other arguments could not be read: the
  session held under the name is dropped first, then the step fails. -/
  | openRefused (name : String) (f : Failure)

/-- What a step answers. -/
inductive Reply where
  | null
  | flag (b : Bool)
  | count (n : Nat)
  | text (s : String)
  | bytes (b : Bytes)
  | list (items : List Reply)
  | fields (entries : List (String × Reply))
  /-- A step that succeeded, with its reply. -/
  | ok (r : Reply)
  /-- A step that failed. -/
  | failed (f : Failure)

/-- A pair as a reply. -/
def Reply.pair (k v : Bytes) : Reply := .list [.bytes k, .bytes v]

/-- Pairs as a reply. -/
def Reply.pairs (ps : List (Bytes × Bytes)) : Reply := .list (ps.map fun (k, v) => Reply.pair k v)

/-- Byte strings as a reply. -/
def Reply.byteList (bs : List Bytes) : Reply := .list (bs.map .bytes)

/-- Perhaps a byte string, as a reply. -/
def Reply.maybe : Option Bytes → Reply
  | some b => .bytes b
  | none => .null

end Script

end HashFile
