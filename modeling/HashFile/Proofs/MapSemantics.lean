import HashFile.Proofs.SessionSteps
import HashFile.Script.Step

/-!
# A writer session is a finite map

The point operations of a writer session (`PointOp`) are read against a finite
map from byte strings to byte strings, as their own specification:
`PointOp.apply` is what an operation does to the map (a put binds its key, the
last write winning; an update puts its pairs in order; a delete erases its
key; the rest leave it) and `PointOp.reply` what it answers over the map it
finds (a get or a delete the key's value, a fetch the value or the failure
`keyNotFound`, a contains whether the key is bound).

`Session.Holds path M v s` says that the session holds an index over `v` that
is sound, open to write and stores `M`, on the file `path` names. Each
operation keeps it and answers as the map says (`Session.Holds.call`), however
many splits, directory doublings, reallocations and evictions it makes; a close
followed by opening the same path again reads the map back. A session opened on
a new file holds the empty map (`Session.holds_of_newDb`), so every run of
operations on it answers as the map does, step after step
(`Session.point_operations_follow_map`). Puts run whenever the stores of the
index run (`Session.runs_puts`), so the crowd of keys put through a new
database, splitting its bucket and doubling its directory, is one such run.
-/
namespace HashFile

namespace Volume

variable {v v' : Volume} {path : String} {a : Access} {f : OpenFile} {j : Nat}

/-- A path that names a file opens to that file. -/
theorem ino_of_openPath (hs : v.stat path = .ok (.file j))
    (h : v.openPath path a = .ok (.file f, v')) : f.ino = j := by
  obtain ⟨t, n, hl, hleaf, hf⟩ := stat_eq_file hs
  obtain ⟨t', n', hl', hleaf', ⟨hf', -⟩ | ⟨-, hf', -⟩⟩ := openPath_eq_file h
  all_goals
    rw [hl, Except.ok.injEq] at hl'
    subst hl'
    rw [hleaf, Leaf.name.injEq] at hleaf'
    obtain ⟨rfl, -⟩ := hleaf'
    rw [hf] at hf'
  · simp only [Except.ok.injEq, Option.some.injEq, Entry.file.injEq] at hf'
    exact hf'.symm
  · cases hf'

end Volume

/-- A point operation of a writer session, with its arguments. -/
inductive PointOp where
  | put (key value : Bytes)
  | update (pairs : List (Bytes × Bytes))
  | delete (key : Bytes)
  | get (key : Bytes)
  | fetch (key : Bytes)
  | fetchOr (key default : Bytes)
  | contains (key : Bytes)
  | valuesAt (keys : List Bytes)
  | sync
  | setCacheSize (n : Nat)
  | setSyncMode (on : Bool)
  /-- Close the session, then open its path again as a writer. -/
  | reopen

namespace PointOp

/-- Open the path of a configuration again as a writer, in place of the session. -/
def reopenWith (c : Config) : SessionM Unit := do
  let (v, s) ← getThe (Volume × Session)
  match Session.openMode c .writer v with
  | (.ok s', v') => set (v', s')
  | (.error e, v') =>
    set (v', s)
    throw e

/-- Run a point operation on a session. A fetch of a key not stored answers its
failure, as a reply shows it; every other failure is a failure of the run. -/
def call (c : Config) : PointOp → SessionM Script.Reply
  | .put k x => do Session.put k x; pure .null
  | .update ps => do Session.update ps; pure .null
  | .delete k => do pure (.maybe (← Session.delete k))
  | .get k => do pure (.maybe (← Session.get k))
  | .fetch k => tryCatch (Script.Reply.bytes <$> Session.fetch k) fun e =>
      if e = .keyNotFound then pure (.failed (.store e)) else throw e
  | .fetchOr k d => do pure (.bytes ((← Session.get k).getD d))
  | .contains k => do pure (.flag (← Session.containsKey k))
  | .valuesAt ks => do pure (.list ((← Session.valuesAt ks).map .maybe))
  | .sync => do Session.sync; pure .null
  | .setCacheSize n => do Session.setCacheSize n; pure .null
  | .setSyncMode b => do Session.setSyncMode b; pure .null
  | .reopen => do Session.close; reopenWith c; pure .null

/-- What a point operation does to the stored map. -/
def apply (M : Bytes → Option Bytes) : PointOp → Bytes → Option Bytes
  | .put k x => Function.update M k (some x)
  | .update ps => ps.foldl (fun M p => Function.update M p.1 (some p.2)) M
  | .delete k => Function.update M k none
  | _ => M

/-- What a point operation answers over the stored map. -/
def reply (M : Bytes → Option Bytes) : PointOp → Script.Reply
  | .delete k => .maybe (M k)
  | .get k => .maybe (M k)
  | .fetch k =>
    match M k with
    | some x => .bytes x
    | none => .failed (.store .keyNotFound)
  | .fetchOr k d => .bytes ((M k).getD d)
  | .contains k => .flag (M k).isSome
  | .valuesAt ks => .list (ks.map fun k => .maybe (M k))
  | _ => .null

/-- The map operations leave, run in turn. -/
def applyAll (M : Bytes → Option Bytes) (ops : List PointOp) : Bytes → Option Bytes :=
  ops.foldl (fun M op => op.apply M) M

/-- The answers of operations run in turn, each over the map those before it leave. -/
def replies : (Bytes → Option Bytes) → List PointOp → List Script.Reply
  | _, [] => []
  | M, op :: ops => op.reply M :: replies (op.apply M) ops

example : replies (fun _ => none) [.put ⟨#[1]⟩ ⟨#[7]⟩, .get ⟨#[1]⟩, .delete ⟨#[1]⟩, .contains ⟨#[1]⟩] =
    [.null, .maybe (some ⟨#[7]⟩), .maybe (some ⟨#[7]⟩), .flag false] := by
  rfl

variable {c : Config} {v v' : Volume} {s s' : Session}

/-- Opening the path again as a writer, when it answers, gives a new session on
the index the open reads. -/
theorem runs_reopenWith (h : Runs (reopenWith c) (v, s) () (v', s')) :
    ∃ ix, Index.openIn c .writer v = (.ok ix, v') ∧ s' = ⟨some ix, .writer, c.path, none, .unstarted⟩ := by
  unfold reopenWith at h
  obtain ⟨_, _, hget, h⟩ := runs_bind.1 h
  obtain ⟨rfl, rfl⟩ := runs_get.1 hget
  dsimp only at h
  split at h
  · next s2 v2 hm =>
    obtain ⟨rfl, rfl⟩ := Prod.mk.inj (runs_set.1 h)
    unfold Session.openMode at hm
    split at hm
    · next ix v3 hopen =>
      simp only [Prod.mk.injEq, Except.ok.injEq] at hm
      obtain ⟨rfl, rfl⟩ := hm
      exact ⟨ix, hopen, rfl⟩
    · cases hm
  · obtain ⟨_, _, -, h⟩ := runs_bind.1 h
    exact (runs_throw.1 h).elim

end PointOp

namespace Index

variable {path : String} {M M' : Bytes → Option Bytes} {v v' : Volume} {ix ix' : Index}
  {key : Bytes}

/-- An index over `v` that is sound, open to write and stores the map `M`, on
the file that `path` names. -/
structure Stores (path : String) (M : Bytes → Option Bytes) (v : Volume) (ix : Index) : Prop where
  sound : Sound v ix
  writable : ix.file.writable = true
  lookup : ∀ k, (image v ix).lookup k = M k
  named : v.stat path = .ok (.file ix.file.handle.ino)

/-- A step that keeps the file and reaches a sound index storing `M'`. -/
theorem Stores.step (h : Stores path M v ix) (hs : Sound v' ix') (hst : Stays v ix v' ix')
    (hl : ∀ k, (image v' ix').lookup k = M' k) : Stores path M' v' ix' :=
  ⟨hs, hst.writable.trans h.writable, hl, by
    rw [Volume.stat_eq_of_entries hst.frame.entries, hst.handle]
    exact h.named⟩

/-- A step that keeps the file and what lookups see. -/
theorem Stores.agree (h : Stores path M v ix) (hs : Sound v' ix') (hag : (image v ix).Agree (image v' ix'))
    (hst : Stays v ix v' ix') : Stores path M v' ix' :=
  h.step hs hst fun k => (hag.lookup k).trans (h.lookup k)

theorem Stores.fetch {r : Option Bytes} (h : Stores path M v ix)
    (hr : Runs (Index.fetch key) (v, ix) r (v', ix')) : r = M key ∧ Stores path M v' ix' := by
  obtain ⟨rfl, hs, hag, hst⟩ := h.sound.fetch hr
  exact ⟨h.lookup key, h.agree hs hag hst⟩

theorem Stores.containsKey {r : Bool} (h : Stores path M v ix)
    (hr : Runs (Index.containsKey key) (v, ix) r (v', ix')) :
    r = (M key).isSome ∧ Stores path M v' ix' := by
  obtain ⟨rfl, hs, hag, hst⟩ := h.sound.containsKey hr
  exact ⟨by rw [h.lookup key], h.agree hs hag hst⟩

theorem Stores.store {value : Bytes} (h : Stores path M v ix)
    (hr : Runs (Index.store key value) (v, ix) () (v', ix')) :
    Stores path (Function.update M key (some value)) v' ix' := by
  obtain ⟨hs, hst, hl⟩ := h.sound.store hr
  exact h.step hs hst fun k => by rw [hl, Function.update_apply, h.lookup]

theorem Stores.delete {r : Bool} (h : Stores path M v ix)
    (hr : Runs (Index.delete key) (v, ix) r (v', ix')) :
    Stores path (Function.update M key none) v' ix' := by
  obtain ⟨-, hs, hst, hl, -⟩ := h.sound.delete hr
  exact h.step hs hst fun k => by rw [hl, Function.update_apply, h.lookup]

theorem Stores.sync (h : Stores path M v ix) (hr : Runs Index.sync (v, ix) () (v', ix')) :
    Stores path M v' ix' := by
  obtain ⟨hs, hag, hst, -⟩ := h.sound.sync hr
  exact h.agree hs hag hst

theorem Stores.resize {n : Nat} (h : Stores path M v ix)
    (hr : Runs (Index.writeBack (ix.cache.setCapacity n).1)
      (v, { ix with cache := (ix.cache.setCapacity n).2 }) () (v', ix')) : Stores path M v' ix' := by
  obtain ⟨hs, hag, hst⟩ := h.sound.resize n hr
  exact h.agree hs hag hst

theorem Stores.syncMode (h : Stores path M v ix) (b : Bool) :
    Stores path M v { ix with syncMode := b } :=
  h.step (h.sound.of_parts rfl rfl rfl rfl rfl rfl) ⟨Volume.Frame.refl _ v, rfl, rfl⟩ fun k => by
    rw [image_of_parts rfl rfl rfl rfl]
    exact h.lookup k

/-- A new database opens once its file does: laying out the emptied file
always runs. -/
theorem openIn_newDb_runs {c : Config} {p : StoreFile × Bool} {v1 : Volume}
    (hv : validBlockSize c.blockSize = true) (hl : v.Linked)
    (hof : StoreFile.openFile c .newDb v = (.ok p, v1)) : ∃ ix v', openIn c .newDb v = (.ok ix, v') := by
  obtain ⟨st, isNew⟩ := p
  obtain ⟨rfl, hhead, hw, hino, hdata⟩ := openFile_newDb hl hof
  obtain ⟨⟨v2, ix2⟩, hrun⟩ := (blank_of_newDb hv hhead hw hino hdata).bootstrap_runs
  refine ⟨{ ix2 with syncMode := c.options.sync }, v2, ?_⟩
  unfold openIn
  rw [hof]
  dsimp only
  rw [if_pos rfl, run_eq_of_runs hrun]

end Index

namespace Session

variable {c : Config} {path : String} {M : Bytes → Option Bytes} {v v' : Volume} {s s' : Session}
  {key : Bytes}

/-- The session holds an index over `v` that is sound, open to write and stores
the map `M`, on the file that `path` names. -/
def Holds (path : String) (M : Bytes → Option Bytes) (v : Volume) (s : Session) : Prop :=
  ∃ ix, s.index = some ix ∧ Index.Stores path M v ix

theorem Holds.get {r : Option Bytes} (h : Holds path M v s) (hr : Runs (get key) (v, s) r (v', s')) :
    r = M key ∧ Holds path M v' s' := by
  obtain ⟨ix, hix, hst⟩ := h
  obtain ⟨v1, ix1, hf, hs⟩ := (runs_withIndex hix).1 hr
  obtain ⟨rfl, rfl⟩ := Prod.mk.inj hs
  obtain ⟨rfl, hst1⟩ := hst.fetch hf
  exact ⟨rfl, ix1, rfl, hst1⟩

/-- Reading keys one by one answers each key's value. -/
theorem Holds.getEach {ks : List Bytes} {rs : List (Option Bytes)} (h : Holds path M v s)
    (hr : Runs (ks.mapM Session.get) (v, s) rs (v', s')) : rs = ks.map M ∧ Holds path M v' s' := by
  induction ks generalizing v s rs with
  | nil =>
    obtain ⟨rfl, hs⟩ := runs_pure.1 hr
    obtain ⟨rfl, rfl⟩ := Prod.mk.inj hs
    exact ⟨rfl, h⟩
  | cons k ks ih =>
    rw [List.mapM_cons] at hr
    obtain ⟨r, ⟨v1, s1⟩, h1, hr⟩ := runs_bind.1 hr
    obtain ⟨rs', ⟨v2, s2⟩, h2, hr⟩ := runs_bind.1 hr
    obtain ⟨rfl, hs⟩ := runs_pure.1 hr
    obtain ⟨rfl, rfl⟩ := Prod.mk.inj hs
    obtain ⟨rfl, h1'⟩ := h.get h1
    obtain ⟨rfl, h2'⟩ := ih h1' h2
    exact ⟨rfl, h2'⟩

theorem Holds.containsKey {r : Bool} (h : Holds path M v s)
    (hr : Runs (containsKey key) (v, s) r (v', s')) : r = (M key).isSome ∧ Holds path M v' s' := by
  obtain ⟨ix, hix, hst⟩ := h
  obtain ⟨v1, ix1, hf, hs⟩ := (runs_withIndex hix).1 hr
  obtain ⟨rfl, rfl⟩ := Prod.mk.inj hs
  obtain ⟨rfl, hst1⟩ := hst.containsKey hf
  exact ⟨rfl, ix1, rfl, hst1⟩

theorem Holds.put {x : Bytes} (h : Holds path M v s) (hr : Runs (put key x) (v, s) () (v', s')) :
    Holds path (Function.update M key (some x)) v' s' := by
  obtain ⟨ix, hix, hst⟩ := h
  obtain ⟨v1, ix1, hstore, hs⟩ := runs_put hix hst.writable hr
  obtain ⟨rfl, rfl⟩ := Prod.mk.inj hs
  exact ⟨ix1, rfl, hst.store hstore⟩

/-- Storing pairs in order puts each in turn. -/
theorem Holds.update {ps : List (Bytes × Bytes)} (h : Holds path M v s)
    (hr : Runs (update ps) (v, s) () (v', s')) :
    Holds path (ps.foldl (fun M p => Function.update M p.1 (some p.2)) M) v' s' := by
  induction ps generalizing M v s with
  | nil =>
    obtain ⟨rfl, rfl⟩ := Prod.mk.inj (runs_forM_nil.1 hr)
    exact h
  | cons p ps ih =>
    obtain ⟨k, x⟩ := p
    obtain ⟨⟨v1, s1⟩, hput, hrest⟩ := runs_forM_cons.1 hr
    exact ih (h.put hput) hrest

/-- A delete answers the value the key had, and erases the key. -/
theorem Holds.delete {r : Option Bytes} (h : Holds path M v s)
    (hr : Runs (delete key) (v, s) r (v', s')) :
    r = M key ∧ Holds path (Function.update M key none) v' s' := by
  obtain ⟨ix, hix, hst⟩ := h
  cases r with
  | none =>
    obtain ⟨ix1, hf, rfl⟩ := runs_delete_none hix hst.writable hr
    obtain ⟨hk, hst1⟩ := hst.fetch hf
    refine ⟨hk, ix1, rfl, ?_⟩
    rw [hk, Function.update_eq_self]
    exact hst1
  | some x =>
    obtain ⟨v1, ix1, b, ix2, hf, hdel, hix2⟩ := runs_delete_some hix hst.writable hr
    obtain ⟨hk, hst1⟩ := hst.fetch hf
    exact ⟨hk, ix2, hix2, hst1.delete hdel⟩

theorem Holds.sync (h : Holds path M v s) (hr : Runs sync (v, s) () (v', s')) :
    Holds path M v' s' := by
  obtain ⟨ix, hix, hst⟩ := h
  obtain ⟨ix1, hsync, rfl⟩ := runs_sync hix hst.writable hr
  exact ⟨ix1, rfl, hst.sync hsync⟩

theorem Holds.setCacheSize {n : Nat} (h : Holds path M v s)
    (hr : Runs (setCacheSize n) (v, s) () (v', s')) : Holds path M v' s' := by
  obtain ⟨ix, hix, hst⟩ := h
  obtain ⟨v1, ix1, hwb, hs⟩ := runs_setCacheSize hix hr
  obtain ⟨rfl, rfl⟩ := Prod.mk.inj hs
  exact ⟨ix1, rfl, hst.resize hwb⟩

theorem Holds.setSyncMode {b : Bool} (h : Holds path M v s)
    (hr : Runs (setSyncMode b) (v, s) () (v', s')) : Holds path M v' s' := by
  obtain ⟨ix, hix, hst⟩ := h
  obtain ⟨rfl, rfl⟩ := Prod.mk.inj (runs_setSyncMode hix hr)
  exact ⟨_, rfl, hst.syncMode b⟩

/-- Closing the session and opening its path again as a writer reads back the
map: the finish flushes it to the file, the path still names that file, and
the open reads it back. -/
theorem Holds.reopen {v1 : Volume} {s1 : Session} (h : Holds c.path M v s)
    (hc : Runs close (v, s) () (v1, s1)) (ho : Runs (PointOp.reopenWith c) (v1, s1) () (v', s')) :
    Holds c.path M v' s' := by
  obtain ⟨ix, hix, hst⟩ := h
  obtain ⟨v2, ix2, hfin, rfl⟩ := runs_close hix hc
  obtain ⟨ix', hopen, rfl⟩ := PointOp.runs_reopenWith ho
  obtain ⟨-, -, hst2, -⟩ := hst.sound.finish hfin
  have hstat : (ix2.release v2).stat c.path = .ok (.file ix2.file.handle.ino) := by
    rw [Index.release, Volume.stat_eq_of_entries (Volume.entries_close _),
      Volume.stat_eq_of_entries hst2.frame.entries, hst2.handle]
    exact hst.named
  obtain ⟨f, w1, w3, hpath, -, hf, hw, hent⟩ := Index.openIn_opens hopen
  have hsame : ix'.file.handle.ino = ix2.file.handle.ino := by
    rw [hf]
    exact Volume.ino_of_openPath hstat hpath
  obtain ⟨hs', -, hag⟩ := hst.sound.finish_reloads
    (fun hro => by rw [hst.writable] at hro; cases hro) hfin (by decide) hopen hsame
  refine ⟨ix', rfl, hs', by rw [hw]; rfl, fun k => (hag.lookup k).trans (hst.lookup k), ?_⟩
  rw [Volume.stat_eq_of_entries hent, Volume.stat_openPath hpath, hf]

/-- One point operation answers as the map says and leaves the map it says. -/
theorem Holds.call {op : PointOp} {r : Script.Reply} (h : Holds c.path M v s)
    (hr : Runs (op.call c) (v, s) r (v', s')) :
    r = op.reply M ∧ Holds c.path (op.apply M) v' s' := by
  cases op with
  | put k x =>
    obtain ⟨_, ⟨v1, s1⟩, h1, hr⟩ := runs_bind.1 hr
    obtain ⟨rfl, hs⟩ := runs_pure.1 hr
    obtain ⟨rfl, rfl⟩ := Prod.mk.inj hs
    exact ⟨rfl, h.put h1⟩
  | update ps =>
    obtain ⟨_, ⟨v1, s1⟩, h1, hr⟩ := runs_bind.1 hr
    obtain ⟨rfl, hs⟩ := runs_pure.1 hr
    obtain ⟨rfl, rfl⟩ := Prod.mk.inj hs
    exact ⟨rfl, h.update h1⟩
  | delete k =>
    obtain ⟨x, ⟨v1, s1⟩, h1, hr⟩ := runs_bind.1 hr
    obtain ⟨rfl, hs⟩ := runs_pure.1 hr
    obtain ⟨rfl, rfl⟩ := Prod.mk.inj hs
    obtain ⟨rfl, h1'⟩ := h.delete h1
    exact ⟨rfl, h1'⟩
  | get k =>
    obtain ⟨x, ⟨v1, s1⟩, h1, hr⟩ := runs_bind.1 hr
    obtain ⟨rfl, hs⟩ := runs_pure.1 hr
    obtain ⟨rfl, rfl⟩ := Prod.mk.inj hs
    obtain ⟨rfl, h1'⟩ := h.get h1
    exact ⟨rfl, h1'⟩
  | fetch k =>
    rcases runs_tryCatch.1 hr with hok | ⟨e, st1, he, hh⟩
    · obtain ⟨x, h1, rfl⟩ := runs_map.1 hok
      obtain ⟨hx, h1'⟩ := h.get (runs_fetch h1)
      refine ⟨?_, h1'⟩
      simp only [PointOp.reply, ← hx]
    · by_cases hek : e = .keyNotFound
      · subst hek
        rw [if_pos rfl] at hh
        obtain ⟨rfl, rfl⟩ := runs_pure.1 hh
        obtain ⟨hx, h1'⟩ := h.get (fetch_keyNotFound (run_map_of_error he))
        refine ⟨?_, h1'⟩
        simp only [PointOp.reply, ← hx]
      · rw [if_neg hek] at hh
        exact (runs_throw.1 hh).elim
  | fetchOr k d =>
    obtain ⟨x, ⟨v1, s1⟩, h1, hr⟩ := runs_bind.1 hr
    obtain ⟨rfl, hs⟩ := runs_pure.1 hr
    obtain ⟨rfl, rfl⟩ := Prod.mk.inj hs
    obtain ⟨rfl, h1'⟩ := h.get h1
    exact ⟨rfl, h1'⟩
  | contains k =>
    obtain ⟨x, ⟨v1, s1⟩, h1, hr⟩ := runs_bind.1 hr
    obtain ⟨rfl, hs⟩ := runs_pure.1 hr
    obtain ⟨rfl, rfl⟩ := Prod.mk.inj hs
    obtain ⟨rfl, h1'⟩ := h.containsKey h1
    exact ⟨rfl, h1'⟩
  | valuesAt ks =>
    obtain ⟨xs, ⟨v1, s1⟩, h1, hr⟩ := runs_bind.1 hr
    obtain ⟨rfl, hs⟩ := runs_pure.1 hr
    obtain ⟨rfl, rfl⟩ := Prod.mk.inj hs
    obtain ⟨ix, hix, -⟩ := id h
    obtain ⟨rfl, h1'⟩ := h.getEach (runs_valuesAt hix h1)
    exact ⟨by simp only [PointOp.reply, List.map_map]; rfl, h1'⟩
  | sync =>
    obtain ⟨_, ⟨v1, s1⟩, h1, hr⟩ := runs_bind.1 hr
    obtain ⟨rfl, hs⟩ := runs_pure.1 hr
    obtain ⟨rfl, rfl⟩ := Prod.mk.inj hs
    exact ⟨rfl, h.sync h1⟩
  | setCacheSize n =>
    obtain ⟨_, ⟨v1, s1⟩, h1, hr⟩ := runs_bind.1 hr
    obtain ⟨rfl, hs⟩ := runs_pure.1 hr
    obtain ⟨rfl, rfl⟩ := Prod.mk.inj hs
    exact ⟨rfl, h.setCacheSize h1⟩
  | setSyncMode b =>
    obtain ⟨_, ⟨v1, s1⟩, h1, hr⟩ := runs_bind.1 hr
    obtain ⟨rfl, hs⟩ := runs_pure.1 hr
    obtain ⟨rfl, rfl⟩ := Prod.mk.inj hs
    exact ⟨rfl, h.setSyncMode h1⟩
  | reopen =>
    obtain ⟨_, ⟨v1, s1⟩, h1, hr⟩ := runs_bind.1 hr
    obtain ⟨_, ⟨v2, s2⟩, h2, hr⟩ := runs_bind.1 hr
    obtain ⟨rfl, hs⟩ := runs_pure.1 hr
    obtain ⟨rfl, rfl⟩ := Prod.mk.inj hs
    exact ⟨rfl, h.reopen h1 h2⟩

/-- Operations run in turn answer as the map says, each over the map those
before it leave, and leave the map they say. -/
theorem Holds.calls {ops : List PointOp} {rs : List Script.Reply} (h : Holds c.path M v s)
    (hr : Runs (ops.mapM (PointOp.call c)) (v, s) rs (v', s')) :
    rs = PointOp.replies M ops ∧ Holds c.path (PointOp.applyAll M ops) v' s' := by
  induction ops generalizing M v s rs with
  | nil =>
    obtain ⟨rfl, hs⟩ := runs_pure.1 hr
    obtain ⟨rfl, rfl⟩ := Prod.mk.inj hs
    exact ⟨rfl, h⟩
  | cons op ops ih =>
    rw [List.mapM_cons] at hr
    obtain ⟨r, ⟨v1, s1⟩, h1, hr⟩ := runs_bind.1 hr
    obtain ⟨rs', ⟨v2, s2⟩, h2, hr⟩ := runs_bind.1 hr
    obtain ⟨rfl, hs⟩ := runs_pure.1 hr
    obtain ⟨rfl, rfl⟩ := Prod.mk.inj hs
    obtain ⟨rfl, h1'⟩ := h.call h1
    obtain ⟨rfl, h2'⟩ := ih h1' h2
    exact ⟨rfl, h2'⟩

/-- A session opened on a new file holds the empty map. -/
theorem holds_of_newDb (hl : v.Linked) (hmode : c.mode = some .newDb)
    (h : openWith c v = (.ok s, v')) : Holds c.path (fun _ => none) v' s := by
  unfold openWith at h
  rcases hv : c.validate with e | ⟨⟩
  · rw [hv] at h
    cases h
  rw [hv] at h
  dsimp only at h
  rw [hmode] at h
  dsimp only at h
  have hvb : validBlockSize c.blockSize = true := by
    unfold Config.validate at hv
    by_contra hb
    rw [if_pos (by simpa using hb)] at hv
    cases hv
  unfold openMode at h
  rcases ho : Index.openIn c .newDb v with ⟨_ | ix, w⟩
  · rw [ho] at h
    cases h
  rw [ho] at h
  simp only [Prod.mk.injEq, Except.ok.injEq] at h
  obtain ⟨rfl, rfl⟩ := h
  obtain ⟨hr, hnone, -⟩ := Index.openIn_newDb hvb hl ho
  obtain ⟨f, w1, w3, hpath, -, hf, hw, hent⟩ := Index.openIn_opens ho
  refine ⟨ix, rfl, hr.sound, by rw [hw]; rfl, hnone, ?_⟩
  rw [Volume.stat_eq_of_entries hent, Volume.stat_openPath hpath, hf]

/-- A writer session opened on a new file, whatever its block size and cache
size, runs every sequence of point operations in which no call fails as a
finite map does: each answer is the map's, over the map the operations before
it leave, and the session ends holding the map they leave, sound and on the
same file. -/
theorem point_operations_follow_map {v1 : Volume} {ops : List PointOp} {rs : List Script.Reply}
    (hl : v.Linked) (hmode : c.mode = some .newDb) (hopen : openWith c v = (.ok s, v1))
    (hrun : Runs (ops.mapM (PointOp.call c)) (v1, s) rs (v', s')) :
    rs = PointOp.replies (fun _ => none) ops ∧
      Holds c.path (PointOp.applyAll (fun _ => none) ops) v' s' :=
  (holds_of_newDb hl hmode hopen).calls hrun

/-- A new database at "db" of 512-byte blocks opens on an empty volume. -/
theorem openWith_db_newDb :
    ∃ ix v2, Index.openIn { path := "db", blockSize := 512, mode := some .newDb } .newDb
        Volume.empty = (.ok ix, v2) ∧
      openWith { path := "db", blockSize := 512, mode := some .newDb } Volume.empty =
        (.ok ⟨some ix, .newDb, "db", none, .unstarted⟩, v2) := by
  have hof : (StoreFile.openFile { path := "db", blockSize := 512, mode := some .newDb } .newDb
      Volume.empty).1.toOption.isSome = true := by cbv
  rcases h : StoreFile.openFile { path := "db", blockSize := 512, mode := some .newDb } .newDb
    Volume.empty with ⟨_ | p, v1⟩
  · rw [h] at hof
    cases hof
  obtain ⟨ix, v2, ho⟩ := Index.openIn_newDb_runs (by decide) Volume.Linked.empty h
  refine ⟨ix, v2, ho, ?_⟩
  unfold openWith openMode
  rw [show Config.validate { path := "db", blockSize := 512, mode := some .newDb } = .ok () by
    decide]
  dsimp only
  rw [ho]

/-- Puts of one value, whose stores run one after another on a writer session's
index, run as point operations that each answer nothing. -/
theorem runs_puts (x : Bytes) (keys : List Bytes) {ix ix' : Index} (hix : s.index = some ix)
    (hw : ix.file.writable = true) (hr : Runs (keys.forM fun k => Index.store k x) (v, ix) () (v', ix')) :
    ∃ s', s'.index = some ix' ∧
      Runs ((keys.map fun k => PointOp.put k x).mapM (PointOp.call c)) (v, s)
        (keys.map fun _ => Script.Reply.null) (v', s') := by
  induction keys generalizing v ix s with
  | nil =>
    obtain ⟨rfl, rfl⟩ := Prod.mk.inj (runs_forM_nil.1 hr)
    exact ⟨s, hix, runs_pure.2 ⟨rfl, rfl⟩⟩
  | cons k ks ih =>
    obtain ⟨⟨v1, ix1⟩, hst, hrest⟩ := runs_forM_cons.1 hr
    have hw1 : ix1.file.writable = true :=
      (Index.keptByUpdates_sameMode.store k x _ _ _ hst).2.trans hw
    obtain ⟨s', hix', hrun⟩ := ih (s := { s with index := some ix1, lenCache := none }) rfl hw1 hrest
    refine ⟨s', hix', ?_⟩
    rw [List.map_cons, List.map_cons, List.mapM_cons]
    exact runs_bind.2 ⟨.null, _, runs_bind.2 ⟨(), _, runs_put_of_store hix hw hst,
      runs_pure.2 ⟨rfl, rfl⟩⟩, runs_bind.2 ⟨_, _, hrun, runs_pure.2 ⟨rfl, rfl⟩⟩⟩

/-- Putting the crowd through a new database, which splits its first bucket and
doubles its directory, answers as the map says and leaves the map of the crowd. -/
theorem point_operations_follow_map_crowd :
    ∃ s v1 rs v' s', openWith { path := "db", blockSize := 512, mode := some .newDb } Volume.empty =
        (.ok s, v1) ∧
      Runs ((Index.crowd.map fun k => PointOp.put k ⟨#[118]⟩).mapM
        (PointOp.call { path := "db", blockSize := 512, mode := some .newDb })) (v1, s) rs (v', s') ∧
      (∃ ix, s'.index = some ix ∧ 6 < ix.dir.bits) ∧
      rs = PointOp.replies (fun _ => none) (Index.crowd.map fun k => PointOp.put k ⟨#[118]⟩) ∧
      Holds "db" (PointOp.applyAll (fun _ => none) (Index.crowd.map fun k => PointOp.put k ⟨#[118]⟩))
        v' s' := by
  obtain ⟨ix, v2, ho, hopen⟩ := openWith_db_newDb
  obtain ⟨hr, -, hbs, hslots, -, hnext, -⟩ := Index.openIn_newDb (by decide) Volume.Linked.empty ho
  have hw : ix.file.writable = true := by
    obtain ⟨ix0, hix0, hst⟩ := holds_of_newDb Volume.Linked.empty rfl hopen
    cases Option.some.inj hix0
    exact hst.writable
  rw [Index.log2_block512] at hnext
  obtain ⟨v', ix', hrun, -, -, -, hbits⟩ := hr.storeCrowd hw hslots hbs
    (Nat.le_trans hnext (by decide)) (by decide : (⟨#[118]⟩ : Bytes).size ≤ 4096)
  obtain ⟨s', hix', hputs⟩ := runs_puts (c := { path := "db", blockSize := 512, mode := some .newDb })
    (s := ⟨some ix, .newDb, "db", none, .unstarted⟩) ⟨#[118]⟩ Index.crowd rfl hw hrun
  obtain ⟨hrs, hholds⟩ := point_operations_follow_map Volume.Linked.empty rfl hopen hputs
  exact ⟨_, _, _, _, _, hopen, hputs, ⟨ix', hix', hbits⟩, hrs, hholds⟩

end Session

end HashFile
