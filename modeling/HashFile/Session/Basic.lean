import HashFile.Cursor
import HashFile.Index.Open

/-!
# Sessions

A session is what a caller holds: the open index (none once closed), the mode
it was opened in, its path, the number of records when it is known without a
scan, and the cursor that `firstKey` and `nextKey` drive.

Opening with an explicit mode opens in that mode; otherwise the cascade tries
`writeCreate`, then `writer`, then `reader`, moving on only when the file is
locked by another session or cannot be opened, and never trying `reader` under
the `neverReader` policy.

Every operation on a closed session fails with `closedHandle`, and every change
on a reader with `readOnly`. A store forgets the known count (it may insert or
replace); a delete lowers it.
-/
namespace HashFile

/-- An open database session. -/
structure Session where
  index : Option Index
  mode : OpenMode
  path : String
  /-- The number of records, when known without a scan. -/
  lenCache : Option Nat
  cursor : Cursor
  deriving Inhabited

/-- Session actions: they read and change the volume and the session, and keep
their changes when they fail. -/
abbrev SessionM := ExceptT StoreError (StateM (Volume × Session))

namespace Session

/-! ## Opening and closing -/

/-- Open in one mode. -/
def openMode (c : Config) (mode : OpenMode) (v : Volume) : Outcome Session × Volume :=
  match Index.openIn c mode v with
  | (.ok ix, v) => (.ok ⟨some ix, mode, c.path, none, .unstarted⟩, v)
  | (.error e, v) => (.error e, v)

/-- Whether the cascade moves on to the next mode after this failure. -/
def cascadesOn (e : StoreError) : Bool := e.isLockContention || e.isFileOpen

/-- Try the modes in turn; answer the last failure that let the cascade move on. -/
def cascadeFrom (c : Config) : List OpenMode → Option StoreError → Volume → Outcome Session × Volume
  | [], last, v => (.error (last.getD (.cannotBeWriter c.path)), v)
  | m :: rest, last, v =>
    if m = .reader && c.fallback = .neverReader then (.error (last.getD (.cannotBeWriter c.path)), v)
    else
      match openMode c m v with
      | (.ok s, v) => (.ok s, v)
      | (.error e, v) => if cascadesOn e then cascadeFrom c rest (some e) v else (.error e, v)

/-- Open as a configuration says: check it, then open in its mode or by the cascade. -/
def openWith (c : Config) (v : Volume) : Outcome Session × Volume :=
  match c.validate with
  | .error e => (.error e, v)
  | .ok () =>
    match c.mode with
    | some m => openMode c m v
    | none => cascadeFrom c [.writeCreate, .writer, .reader] none v

/-- Open a path with integer flags: a mode word or-ed with option bits, or
option bits alone for the cascade. -/
def openFlags (path : String) (permissions flags : Nat) (v : Volume) : Outcome Session × Volume :=
  match parseFlags flags with
  | .error e => (.error e, v)
  | .ok (mode, options) => openWith { path, permissions, mode, options } v

/-- Open a path only if something is there. -/
def openExisting (path : String) (permissions flags : Nat) (v : Volume) :
    Outcome (Option Session) × Volume :=
  match v.present path with
  | .error f => (.error (.io f), v)
  | .ok false => (.ok none, v)
  | .ok true =>
    match openFlags path permissions flags v with
    | (.ok s, v) => (.ok (some s), v)
    | (.error e, v) => (.error e, v)

/-- Whether the session was closed. -/
def isClosed (s : Session) : Bool := s.index.isNone

/-- Whether the session was opened in a writer mode. -/
def isWriter (s : Session) : Bool := s.mode.isWriter

/-- Run an index action on the session's index. -/
def withIndex {α : Type} (m : IndexM α) : SessionM α :=
  ExceptT.mk (StateT.mk fun (v, s) =>
    match s.index with
    | none => pure (.error .closedHandle, (v, s))
    | some ix =>
      let s := { s with index := none }
      let (r, v, ix) := Index.run m v ix
      pure (r, (v, { s with index := some ix })))

/-- Run a session action on a volume and a session. -/
def run {α : Type} (m : SessionM α) (v : Volume) (s : Session) : Outcome α × Volume × Session :=
  let (r, v, s) := (m.run.run (v, s)).run
  (r, v, s)

/-- The session's own fields. -/
def state : SessionM Session := do pure (← get).2

/-- Change the session's own fields. -/
def modifySession (f : Session → Session) : SessionM Unit := modify fun (v, s) => (v, f s)

/-- Fail unless the session is open. -/
def requireOpen : SessionM Unit := do
  if (← state).isClosed then throw .closedHandle

/-- Fail unless the session is open as a writer. -/
def requireWriter : SessionM Unit := do
  match (← state).index with
  | none => throw .closedHandle
  | some ix => if !ix.file.writable then throw .readOnly

/-- Close the session: write everything, cut the file to its frontier and give
the lock back. A second close fails. -/
def close : SessionM Unit :=
  ExceptT.mk (StateT.mk fun (v, s) =>
    match s.index with
    | none => pure (.error .closedHandle, (v, s))
    | some ix =>
      let s := { s with index := none, lenCache := none, cursor := .unstarted }
      let (r, v, ix) := Index.run Index.finish v ix
      pure (r, (ix.release v, s)))

/-- Drop the session without a caller to hear of failures: close it if it is open. -/
def drop (v : Volume) (s : Session) : Volume :=
  match s.index with
  | none => v
  | some ix =>
    let (_, v, ix) := Index.run Index.finish v ix
    ix.release v

/-! ## Point operations -/

/-- The value stored under a key. -/
def get (key : Bytes) : SessionM (Option Bytes) := withIndex (Index.fetch key)

/-- The value stored under a key, or `keyNotFound`. -/
def fetch (key : Bytes) : SessionM Bytes := do
  match ← get key with
  | some v => pure v
  | none => throw .keyNotFound

/-- Store a value under a key. The known count is forgotten, also when the store
fails, but not when an overflow cut it short. -/
def put (key value : Bytes) : SessionM Unit := do
  requireWriter
  let r ← tryCatch (do withIndex (Index.store key value); pure none) fun e => pure (some e)
  if let some e := r then if e.isOverflow then throw e
  modifySession fun s => { s with lenCache := none }
  match r with
  | some e => throw e
  | none => pure ()

/-- Lower the known count after deletions. -/
def noteDeleted (n : Nat) : SessionM Unit :=
  modifySession fun s => { s with lenCache := s.lenCache.map (· - n) }

/-- Delete a key; answers the value it had. -/
def delete (key : Bytes) : SessionM (Option Bytes) := do
  requireWriter
  match ← withIndex (Index.fetch key) with
  | none => pure none
  | some value =>
    if ← withIndex (Index.delete key) then noteDeleted 1
    pure (some value)

/-- Whether a key is stored. -/
def containsKey (key : Bytes) : SessionM Bool := withIndex (Index.containsKey key)

/-- The values of several keys. -/
def valuesAt (keys : List Bytes) : SessionM (List (Option Bytes)) := do
  requireOpen
  keys.mapM get

/-! ## Count and traversal -/

/-- The first key in traversal order; the session cursor moves onto it. -/
def firstKey : SessionM (Option Bytes) := do
  let (k, c) ← withIndex Cursor.first
  modifySession fun s => { s with cursor := c }
  pure k

/-- The key after a key in traversal order. The session cursor goes on from
the key it is on, so deleting that key first does not end the walk; another
key is looked up, and a key not stored answers none. -/
def nextKey (key : Bytes) : SessionM (Option Bytes) := do
  requireOpen
  let c := (← state).cursor
  let c ← if c.current == some key then pure c
    else
      let (found, c) ← withIndex (Cursor.seek key)
      modifySession fun s => { s with cursor := c }
      if !found then return none
      pure c
  let (k, c) ← withIndex c.next
  modifySession fun s => { s with cursor := c }
  pure k

/-- The number of records; a scan when it is not known. -/
def len : SessionM Nat := do
  match (← state).lenCache with
  | some n => requireOpen; pure n
  | none =>
    let n ← withIndex (Cursor.keys 0 fun n _ => .yield (n + 1))
    modifySession fun s => { s with lenCache := some n }
    pure n

/-- Whether no record is stored. -/
def isEmpty : SessionM Bool := do
  match (← state).lenCache with
  | some n => requireOpen; pure (n == 0)
  | none => pure (← firstKey).isNone

/-! ## Tuning -/

/-- Write everything to the file. -/
def sync : SessionM Unit := do
  requireWriter
  withIndex Index.sync

/-- Change the number of buckets kept in memory, writing back what no longer fits. -/
def setCacheSize (n : Nat) : SessionM Unit := withIndex do
  if n = 0 then throw (.invalidArgument .cacheSize)
  let (evicted, cache) := (← Index.current).cache.setCapacity n
  Index.modifyIndex fun ix => { ix with cache }
  Index.writeBack evicted

/-- The number of buckets kept in memory. -/
def cacheSize : SessionM Nat := withIndex do pure (← Index.current).cache.capacity

/-- Sync after every change, or not. -/
def setSyncMode (on : Bool) : SessionM Unit :=
  withIndex (Index.modifyIndex fun ix => { ix with syncMode := on })

/-- Whether every change is synced. -/
def syncMode : SessionM Bool := withIndex do pure (← Index.current).syncMode

/-- Size and shape of the index. -/
def stats : SessionM IndexStats := withIndex do Index.checked (← Index.current).stats

/-- The session as debugging output shows it. -/
def describe (s : Session) : String :=
  let count := match s.lenCache with
    | some n => "Some(" ++ toString n ++ ")"
    | none => "None"
  "Dbm \x7b path: " ++ quoted s.path ++ ", mode: " ++ s.mode.name ++ ", closed: " ++
    toString s.isClosed ++ ", len_cache: " ++ count ++ " \x7d"

end Session

end HashFile
