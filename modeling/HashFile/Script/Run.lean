import HashFile.Script.Step
import HashFile.Reorganize
import HashFile.Cli.Run

/-!
# Running scripts

A script runs against a world: the volume, the sessions held under names, and
the shared sessions. A held session keeps whether fatal failures of its store
are written to the world's log. The world also keeps, for each name, the last
key a `firstKey` or `nextKey` step under that name answered, so that `nextLast`
and `deleteLast` can go on from there; the key belongs to the name, not to the
session, so it outlives closing, reopening and sharing.

Opening under a name that is in use first drops the session held there, which
closes it and gives its lock back; if the open then fails the name stays
unbound. A shared session lives while some shared name refers to it: naming
another session under a shared name, or forgetting the name, drops the session
when that was its last name.

Fatal failures are logged when they reach the caller of a session whose
configuration asks for it, once per failing request, with the inner message.
-/
namespace HashFile

namespace Script

/-- A session held under a name. -/
structure Handle where
  session : Session
  /-- Whether fatal failures are written to the log. -/
  reportsFatal : Bool := false
  deriving Inhabited

/-- Requests run on the volume and one held session; the changes stay when
they fail. -/
abbrev RequestM := ExceptT Failure (StateM (Volume × Handle))

/-- Run a session action inside a request. -/
def lift {α : Type} (m : SessionM α) : RequestM α :=
  ExceptT.mk (StateT.mk fun (v, h) =>
    let s := h.session
    let h := { h with session := default }
    let (r, v, s) := Session.run m v s
    pure (r.mapError .store, (v, { h with session := s })))

/-- A rule that fails when asked for the `failAt`-th time (counting from 0). -/
def failingRule (rule : PairRule) (failAt : Nat) (calls : Nat) (k v : Bytes) : Outcome Bool :=
  if calls = failAt then .error (.invalidArgument (.caller ("predicate failed at call " ++ toString calls)))
  else .ok (rule.holds calls k v)

/-- Walk from a key on: note it, delete it if the rule selects it, and go on
from its successor; `fuel` keys at most are noted. -/
def walkFrom (rule : Option PairRule) : Nat → Nat → Option Bytes → Array Bytes → SessionM (Array Bytes)
  | 0, _, _, met => pure met
  | _ + 1, _, none, met => pure met
  | fuel + 1, calls, some k, met => do
    let calls ← match rule with
      | none => pure calls
      | some r =>
        if r.holds calls k ByteArray.empty then discard (Session.delete k)
        pure (calls + 1)
    let next ← Session.nextKey k
    walkFrom rule fuel calls next (met.push k)

/-- The longest byte string that can be made: its length is a signed 64-bit number. -/
def lengthLimit : Nat := Nat.pow 2 63 - 1

/-- A byte string repeated `n` times. -/
def repeated (b : Bytes) (n : Nat) : Bytes :=
  if b.size = 0 then ByteArray.empty else (List.replicate n b).foldl (· ++ ·) ByteArray.empty

/-- An overflow, as a request's failure. -/
def overflow {α : Type} : RequestM α := throw (.store .overflow)

/-- Store the numbered pairs of `putNumbered`, one by one: for each number `i`,
key `stem ++ i` and value `valueStem ++ i` repeated `repeats` times, with `i` in
decimal. A value longer than `lengthLimit` cannot be made and cuts the run short. -/
def putNumberedFrom (stem valueStem : Bytes) (repeats : Nat) : List Nat → RequestM Unit
  | [] => pure ()
  | i :: rest => do
    let n := (toString i).toUTF8
    let unit := valueStem ++ n
    if lengthLimit < unit.size * repeats then overflow
    lift (Session.put (stem ++ n) (repeated unit repeats))
    putNumberedFrom stem valueStem repeats rest

/-- Size and shape of the index, as a reply. -/
def statsReply (s : IndexStats) : Reply :=
  .fields [("block_size", .count s.blockSize), ("dir_bits", .count s.dirBits),
    ("buckets", .count s.buckets), ("bucket_elems", .count s.bucketElems),
    ("free_regions", .count s.freeRegions), ("free_bytes", .count s.freeBytes),
    ("next_block", .count s.nextBlock)]

/-- What a reorganize did, as a reply. -/
def reorganizeReply (s : ReorganizeStats) : Reply :=
  .fields [("records", .count s.records), ("bytes_before", .count s.bytesBefore),
    ("bytes_after", .count s.bytesAfter), ("reclaimed", .count s.reclaimed)]

/-- Answer a request. -/
def answer : Request → RequestM Reply
  | .malformed reason => throw (.badInput reason)
  | .crashed => overflow
  | .unnamed reason => throw (.badInput reason)
  | .isClosed => do pure (.flag (← lift Session.state).isClosed)
  | .mode => do pure (.text (← lift Session.state).mode.name)
  | .isWriter => do pure (.flag (← lift Session.state).isWriter)
  | .path => do pure (.text (← lift Session.state).path)
  | .close => do lift Session.close; pure .null
  | .get k => do pure (.maybe (← lift (Session.get k)))
  | .fetch k => do pure (.bytes (← lift (Session.fetch k)))
  | .fetchOr k d => do pure (.bytes ((← lift (Session.get k)).getD d))
  | .fetchOrReversed k => do pure (.bytes ((← lift (Session.get k)).getD ⟨k.data.reverse⟩))
  | .put k v => do lift (Session.put k v); pure .null
  | .delete k => do pure (.maybe (← lift (Session.delete k)))
  | .contains k => do pure (.flag (← lift (Session.containsKey k)))
  | .valuesAt ks => do pure (.list ((← lift (Session.valuesAt ks)).map .maybe))
  | .len => do pure (.count (← lift Session.len))
  | .isEmpty => do pure (.flag (← lift Session.isEmpty))
  | .firstKey => do pure (.maybe (← lift Session.firstKey))
  | .nextKey k => do pure (.maybe (← lift (Session.nextKey k)))
  | .keys => do pure (.byteList (← lift Session.keys))
  | .values => do pure (.byteList (← lift Session.values))
  | .pairs => do pure (.pairs (← lift Session.toList))
  | .toMap => do pure (.pairs (← lift Session.toMap))
  | .invert => do pure (.pairs (← lift Session.invert))
  | .take n => do pure (.pairs (← lift (Session.take n)))
  | .keyOf v => do pure (.maybe (← lift (Session.keyOf v)))
  | .containsValue v => do pure (.flag (← lift (Session.containsValue v)))
  | .select rule => do pure (.pairs (← lift (Session.select rule.holds)))
  | .reject rule => do pure (.pairs (← lift (Session.reject rule.holds)))
  | .deleteIf rule => do pure (.count (← lift (Session.deleteIf rule.holds)))
  | .deleteIfFailing rule failAt => do
    pure (.count (← lift (Session.tryDeleteIf (failingRule rule failAt))))
  | .clear => do lift Session.clear; pure .null
  | .shift => do
    match ← lift Session.shift with
    | some (k, v) => pure (.pair k v)
    | none => pure .null
  | .update ps => do lift (Session.update ps); pure .null
  | .replace ps => do lift (Session.replace ps); pure .null
  | .putNumbered stem count start valueStem repeats => do
    if wordSize ≤ start + count then overflow
    putNumberedFrom stem valueStem repeats (List.range' start count)
    pure .null
  | .deleteAll ks => do
    let n ← ks.foldlM (fun n k => do
      match k with
      | .error f => throw f
      | .ok k => pure (if (← lift (Session.delete k)).isSome then n + 1 else n)) 0
    pure (.count n)
  | .walk rule limit => do
    let first ← lift Session.firstKey
    pure (.byteList (← lift (walkFrom rule limit 0 first #[])).toList)
  | .sync => do lift Session.sync; pure .null
  | .reorganize => do pure (reorganizeReply (← lift Session.reorganize))
  | .setCacheSize n => do lift (Session.setCacheSize n); pure .null
  | .cacheSize => do pure (.count (← lift Session.cacheSize))
  | .syncMode => do pure (.flag (← lift Session.syncMode))
  | .setSyncMode on => do lift (Session.setSyncMode on); pure .null
  | .setFastMode on => do lift (Session.setSyncMode !on); pure .null
  | .describe => do pure (.text (Session.describe (← lift Session.state)))
  | .stats => do pure (statsReply (← lift Session.stats))

/-- A reply from the outcome of a request. -/
def Reply.ofExcept : Except Failure Reply → Reply
  | .ok r => .ok r
  | .error f => .failed f

/-- The fatal failure to log, if a request failed with one. -/
def fatalNote (h : Handle) : Except Failure Reply → Option String
  | .error (.store (.fatal i)) => if h.reportsFatal then some i.message else none
  | _ => none

/-- Answer a request with a held session: the reply, the fatal note, and what changed. -/
def serve (r : Request) (v : Volume) (h : Handle) : Reply × Option String × Volume × Handle :=
  let (res, v, h) := ((answer r).run.run (v, h)).run
  (Reply.ofExcept res, fatalNote h res, v, h)

/-- How a run of requests ended. -/
inductive RunEnd where
  /-- Every request was answered. -/
  | finished
  /-- A request failed, and the run stopped there. -/
  | stopped
  /-- An overflow cut a request short, and the whole run with it. -/
  | cutShort
  /-- A request had no name; the run ended before it. -/
  | refused (reason : String)
  deriving DecidableEq, Repr

/-- Whether a reply is an overflow. -/
def Reply.isOverflow : Reply → Bool
  | .failed (.store .overflow) => true
  | _ => false

/-- Answer requests in order, collecting the replies; with `stopOnFailure` the
first failing request ends the run, and an overflow always does; a request
without a name ends it before it is answered. -/
def serveAll (stopOnFailure : Bool) :
    List Request → Volume → Handle → Array Reply → Array String → Array Reply × Array String × RunEnd × Volume × Handle
  | [], v, h, replies, notes => (replies, notes, .finished, v, h)
  | .unnamed reason :: _, v, h, replies, notes => (replies, notes, .refused reason, v, h)
  | r :: rest, v, h, replies, notes =>
    let (reply, note, v, h) := serve r v h
    let replies := replies.push reply
    let notes := match note with
      | some n => notes.push n
      | none => notes
    if reply.isOverflow then (replies, notes, .cutShort, v, h)
    else
      match reply with
      | .failed _ =>
        if stopOnFailure then (replies, notes, .stopped, v, h) else serveAll stopOnFailure rest v h replies notes
      | _ => serveAll stopOnFailure rest v h replies notes

/-- The volume and the sessions a script works with. -/
structure World where
  volume : Volume := Volume.empty
  /-- Sessions by name. -/
  held : List (String × Handle) := []
  /-- Shared names and the shared session each refers to. -/
  sharedNames : List (String × Nat) := []
  /-- Shared sessions by number. -/
  shared : List (Nat × Handle) := []
  nextShared : Nat := 0
  /-- Fatal failures reported since the log was last read. -/
  fatalLog : Array String := #[]
  /-- The last key each name was given while moving through the keys. -/
  lastKeys : List (String × Bytes) := []
  deriving Inhabited

namespace World

/-- Work on the volume. -/
def withVolume {α : Type} (w : World) (f : Volume → α × Volume) : α × World :=
  let v := w.volume
  let w := { w with volume := Volume.empty }
  let (a, v) := f v
  (a, { w with volume := v })

/-- Take the session held under a name out of the world. -/
def takeHeld (w : World) (name : String) : Option Handle × World :=
  match w.held.lookup name with
  | none => (none, w)
  | some h => (some h, { w with held := w.held.filter fun p => p.1 ≠ name })

/-- Hold a session under a name. -/
def hold (w : World) (name : String) (h : Handle) : World :=
  { w with held := (name, h) :: w.held.filter fun p => p.1 ≠ name }

/-- Drop the session held under a name, closing it; answers whether one was held. -/
def release (w : World) (name : String) : Bool × World :=
  match w.takeHeld name with
  | (none, w) => (false, w)
  | (some h, w) => w.withVolume fun v => (true, Session.drop v h.session)

/-- Note a fatal failure in the log. -/
def note (w : World) : Option String → World
  | some n => { w with fatalLog := w.fatalLog.push n }
  | none => w

/-- Drop a shared session that no shared name refers to any more. -/
def collect (w : World) (id : Nat) : World :=
  if w.sharedNames.any (·.2 == id) then w
  else
    match w.shared.lookup id with
    | none => w
    | some h =>
      let w := { w with shared := w.shared.filter fun p => p.1 ≠ id }
      (w.withVolume fun v => ((), Session.drop v h.session)).2

/-- Let a shared name refer to a shared session, dropping what it referred to
before if that was its last name. -/
def nameShared (w : World) (name : String) (id : Nat) : World :=
  let old := w.sharedNames.lookup name
  let w := { w with sharedNames := (name, id) :: w.sharedNames.filter fun p => p.1 ≠ name }
  match old with
  | some o => w.collect o
  | none => w

/-- The shared session a shared name refers to. -/
def sharedId (w : World) (name : String) : Except Failure Nat :=
  match w.sharedNames.lookup name with
  | some id => .ok id
  | none => .error (.noHandle ("no shared handle " ++ name))

/-- Answer requests with a shared session. -/
def serveShared (w : World) (id : Nat) (stopOnFailure : Bool) (rs : List Request) :
    Array Reply × RunEnd × World :=
  match w.shared.lookup id with
  | none => (#[], .finished, w)
  | some h =>
    let w := { w with shared := w.shared.filter fun p => p.1 ≠ id }
    let ((replies, notes, ended, h), w) := w.withVolume fun v =>
      let (replies, notes, ended, v, h) := serveAll stopOnFailure rs v h #[] #[]
      ((replies, notes, ended, h), v)
    (replies, ended, { w with shared := (id, h) :: w.shared, fatalLog := w.fatalLog ++ notes })

/-- Answer a request with the session held under a name. -/
def ask (w : World) (name : String) (r : Request) : Reply × World :=
  match w.takeHeld name with
  | (none, w) => (.failed (.noHandle ("no handle " ++ name)), w)
  | (some h, w) =>
    let ((reply, note, h), w) := w.withVolume fun v =>
      let (reply, note, v, h) := serve r v h
      ((reply, note, h), v)
    (reply, (w.hold name h).note note)

/-- Remember the key a step moving through the keys gave a name, if it gave one. -/
def remember (w : World) (name : String) : Reply → World
  | .ok (.bytes k) => { w with lastKeys := (name, k) :: w.lastKeys.filter fun p => p.1 ≠ name }
  | _ => w

/-- Ask for a request about the last key a name was given: the name must hold
a session, and must have been given a key. -/
def askLast (w : World) (name : String) (r : Bytes → Request) : Reply × World :=
  if (w.held.lookup name).isNone then (.failed (.noHandle ("no handle " ++ name)), w)
  else
    match w.lastKeys.lookup name with
    | none => (.failed (.badInput "no key returned by the cursor yet"), w)
    | some k => w.ask name (r k)

/-- A failed step. -/
def fail (w : World) (f : Failure) : Reply × World := (.failed f, w)

/-- A file step on the volume; what it changed stays when it fails. -/
def fileStep (w : World) (f : Volume → Except FileFault Reply × Volume) : Reply × World :=
  w.withVolume fun v =>
    match f v with
    | (.ok r, v) => (.ok r, v)
    | (.error e, v) => (.failed (.fileIo e), v)

/-- A file step that changes nothing when it fails. -/
def fileStepOr (w : World) (f : Volume → Except FileFault (Reply × Volume)) : Reply × World :=
  w.fileStep fun v =>
    match f v with
    | .ok (r, v) => (.ok r, v)
    | .error e => (.error e, v)

/-- Open a session under a name, dropping the one held there first. -/
def openAs (w : World) (name : String) (reportsFatal : Bool)
    (opener : Volume → Outcome (Option Session) × Volume) : Reply × World :=
  let (_, w) := w.release name
  let (r, w) := w.withVolume opener
  match r with
  | .ok (some s) => (.ok (.text s.mode.name), w.hold name { session := s, reportsFatal })
  | .ok none => (.ok .null, w)
  | .error e =>
    let w := match e with
      | .fatal i => if reportsFatal then w.note (some i.message) else w
      | _ => w
    (.failed (.store e), w)

/-- Close what a body left open, and answer how the body ended. -/
def closeAfter (body : List Request) (ended : RunEnd) (v : Volume) (s : Session) : Reply × Volume :=
  let (closed, v) :=
    if s.isClosed then (Except.ok (), v)
    else
      let (r, v, _) := Session.run Session.close v s
      (r, v)
  let outcome : Reply :=
    if ended = .stopped then .failed (.store (.invalidArgument (.caller "body step failed")))
    else
      match closed with
      | .error e => .failed (.store e)
      | .ok () => .ok (.count body.length)
  (outcome, v)

/-- Open a path, answer requests until one fails, and close unless a request did.
An overflow in the body cuts the whole step short; the session is dropped. -/
def withOpen (w : World) (path : String) (perms flags : Nat) (body : List Request) : Reply × World :=
  w.withVolume fun v =>
    match Session.openFlags path perms flags v with
    | (.error e, v) => (.ok (.fields [("inner", .list []), ("outcome", .failed (.store e))]), v)
    | (.ok s, v) =>
      match serveAll true body v { session := s } #[] #[] with
      | (_, _, .cutShort, v, h) => (.failed (.store .overflow), Session.drop v h.session)
      | (_, _, .refused reason, v, h) => (.failed (.badInput reason), Session.drop v h.session)
      | (replies, _, ended, v, h) =>
        let (outcome, v) := closeAfter body ended v h.session
        (.ok (.fields [("inner", .list replies.toList), ("outcome", outcome)]), v)

/-- Run one step. -/
def step (w : World) : Step → Reply × World
  | .openFlags name path perms flags =>
    w.openAs name false fun v =>
      let (r, v) := Session.openFlags path perms flags v
      (r.map some, v)
  | .openExisting name path perms flags => w.openAs name false (Session.openExisting path perms flags)
  | .openConfig name c =>
    w.openAs name c.reportsFatal fun v =>
      let (r, v) := Session.openWith c v
      (r.map some, v)
  | .withOpen path perms flags body => w.withOpen path perms flags body
  | .ask name r =>
    let (reply, w) := w.ask name r
    (reply, if r.movesOn then w.remember name reply else w)
  | .nextLast name =>
    let (reply, w) := w.askLast name .nextKey
    (reply, w.remember name reply)
  | .deleteLast name => w.askLast name .delete
  | .drop name =>
    let (had, w) := w.release name
    (.ok (.flag had), w)
  | .fatalLog => (.ok (.list (w.fatalLog.toList.map .text)), { w with fatalLog := #[] })
  | .fileExists path =>
    let found := match w.volume.stat path with
      | .ok _ => true
      | .error _ => false
    (.ok (.flag found), w)
  | .fileLen path =>
    let len : Reply := match w.volume.stat path with
      | .ok (.file ino) => .count (w.volume.fileLen ino)
      | .ok .directory => .count (w.volume.dirSize path)
      | .error _ => .null
    (.ok len, w)
  | .fileCrc path =>
    w.fileStepOr fun v => do
      let ino ← v.fileAt path
      pure (.count (crc32 (v.data ino).toBytes).toNat, v)
  | .fileHex path offset len =>
    let reply : Except Failure Reply := do
      let (opened, _) ← (w.volume.openPath path .read).mapError .fileIo
      let offset ← offset
      match opened with
      | .file f =>
        (Volume.seek offset).mapError .fileIo
        let len ← len
        pure (.text (hexOfBytes (w.volume.readFrom f.ino offset len)))
      | .directory =>
        (Volume.seekDir offset).mapError .fileIo
        -- Reading nothing asks nothing of the directory.
        if (← len) = 0 then pure (.text "") else throw (.fileIo .isDirectory)
    (Reply.ofExcept reply, w)
  | .writeBytes path offset data =>
    w.withVolume fun v =>
      match v.openPath path .writeNew with
      | .error e => (.failed (.fileIo e), v)
      | .ok (.directory, v) => (.failed (.fileIo .isDirectory), v)
      | .ok (.file f, v) =>
        let ready : Except Failure Nat := do
          let off ← offset
          (Volume.seek off).mapError .fileIo
          pure off
        match ready with
        | .error e => (.failed e, v.close f)
        | .ok off =>
          let (r, v) := v.writeAll f.ino off data
          (Reply.ofExcept ((r.mapError .fileIo).map fun _ => .null), v.close f)
  | .truncate path len =>
    w.withVolume fun v =>
      match v.openPath path .write with
      | .error e => (.failed (.fileIo e), v)
      | .ok (.directory, v) => (.failed (.fileIo .isDirectory), v)
      | .ok (.file f, v) =>
        let ready : Except Failure Nat := do
          let n ← len
          (Volume.checkLength n).mapError .fileIo
          pure n
        match ready with
        | .error e => (.failed e, v.close f)
        | .ok n => (.ok .null, (v.setLen f.ino n).close f)
  | .mkdir path => w.fileStep fun v =>
    let (r, v) := v.makeDirs path
    (r.map fun _ => .null, v)
  | .remove path => w.fileStepOr fun v => do pure (.null, ← v.removeFile path)
  | .tool args =>
    -- A program's arguments are C strings, which end at the first NUL.
    if args.any (·.contains (Char.ofNat 0)) then
      w.fail (.badInput "cannot run cli: nul byte found in provided data")
    else
      let (exit, w) := w.withVolume (Cli.runTool args)
      (.ok (.fields [("code", .count exit.code), ("stdout", .bytes exit.stdout)]), w)
  | .share name sharedName =>
    match w.takeHeld name with
    | (none, w) => w.fail (.noHandle ("no handle " ++ name))
    | (some h, w) =>
      let id := w.nextShared
      let w := { w with shared := (id, h) :: w.shared, nextShared := id + 1 }
      (.ok .null, w.nameShared sharedName id)
  | .shareAgain sharedName other =>
    match w.sharedId sharedName with
    | .error f => w.fail f
    | .ok id => (.ok .null, w.nameShared other id)
  | .unshare sharedName =>
    match w.sharedNames.lookup sharedName with
    | none => (.ok (.flag false), w)
    | some id =>
      let w := { w with sharedNames := w.sharedNames.filter fun p => p.1 ≠ sharedName }
      (.ok (.flag true), w.collect id)
  | .askShared sharedName rs =>
    match w.sharedId sharedName with
    | .error f => w.fail f
    | .ok id =>
      match w.serveShared id false rs with
      | (_, .cutShort, w) => (.failed (.store .overflow), w)
      | (_, .refused reason, w) => (.failed (.badInput reason), w)
      | (replies, _, w) => (.ok (.list replies.toList), w)
  | .askSharedOne sharedName r =>
    match w.sharedId sharedName with
    | .error f => w.fail f
    | .ok id =>
      let (replies, _, w) := w.serveShared id false [r]
      (replies.toList.headD .null, w)
  | .malformed reason => w.fail (.badInput reason)
  | .crashed => w.fail (.store .overflow)
  | .openRefused name f =>
    let (_, w) := w.release name
    w.fail f

/-- Run a script from the empty world: one reply per step. -/
def runScript (steps : List Step) : List Reply :=
  let (replies, _) := steps.foldl (fun (acc, w) s =>
    let (r, w) := w.step s
    (acc.push r, w)) ((#[] : Array Reply), ({} : World))
  replies.toList

end World

end Script

end HashFile
