import HashFile.Reorganize
import HashFile.Session.Bulk
import Mathlib

/-!
# The guards of a session

A call on a session reaches the index through a guard: a closed session answers
`closedHandle`, and a session whose file is open to read answers `readOnly` to
every call that would change the store. A refused call changes nothing: the
volume and the session are left as they were (`Refuses`).

The guards are not in one place: each call meets one on its own way to the
index (`withIndex`, `requireOpen` or `requireWriter`). Storing a list of pairs
stores them one by one through `put`, so an empty list meets no guard at all:
it succeeds on a closed session and on a reader alike (`run_update_nil`).
Every other call is refused (`Call.closed_refuses`, `Call.readOnly_refuses`).

`Call` lists the calls of a session that reach its index, with their
arguments. The others read the session's own fields (whether it is closed, its
mode, its path, its description), and the conveniences of the interface call
one of these first (a default after `get`, `store` for `put`, the fast mode as
the opposite of the sync mode, the lazy traversals as the first step of
`toList` and `keys`).
-/
namespace HashFile

namespace Session

/-- `m` fails at once with `e`, leaving the volume and the session as they were. -/
def Refuses {α : Type} (e : StoreError) (m : SessionM α) (v : Volume) (s : Session) : Prop :=
  m.run.run (v, s) = (.error e, (v, s))

variable {v : Volume} {s : Session} {e : StoreError}

theorem Refuses.bind {α β : Type} {x : SessionM α} {f : α → SessionM β} (h : Refuses e x v s) :
    Refuses e (x >>= f) v s := by
  unfold Refuses at *
  rw [ExceptT.run_bind, StateT.run_bind, h]
  rfl

theorem Refuses.discard {α : Type} {x : SessionM α} (h : Refuses e x v s) :
    Refuses e (discard x) v s := by
  unfold Refuses at *
  show (ExceptT.map _ x).run.run (v, s) = _
  simp only [ExceptT.map, ExceptT.run_mk, StateT.run_bind]
  erw [h]
  rfl

/-- A step that reads the session goes on with the session as it is. -/
theorem Refuses.state_bind {α : Type} {f : Session → SessionM α} (h : Refuses e (f s) v s) :
    Refuses e (state >>= f) v s := h

/-! ## The three guards -/

theorem refuses_withIndex {α : Type} (m : IndexM α) (h : s.index = none) :
    Refuses .closedHandle (withIndex m) v s := by
  obtain ⟨idx, mode, path, len, cur⟩ := s
  cases h
  rfl

theorem refuses_requireOpen (h : s.index = none) : Refuses .closedHandle requireOpen v s := by
  obtain ⟨idx, mode, path, len, cur⟩ := s
  cases h
  rfl

theorem refuses_requireWriter_of_closed (h : s.index = none) :
    Refuses .closedHandle requireWriter v s := by
  obtain ⟨idx, mode, path, len, cur⟩ := s
  cases h
  rfl

theorem refuses_requireWriter_of_readOnly {ix : Index} (h : s.index = some ix)
    (hw : ix.file.writable = false) : Refuses .readOnly requireWriter v s := by
  obtain ⟨idx, mode, path, len, cur⟩ := s
  cases h
  obtain ⟨⟨fp, fh, hd, hdd, wr, rf⟩, dir, cache, opts, sm⟩ := ix
  cases hw
  rfl

theorem refuses_close (h : s.index = none) : Refuses .closedHandle close v s := by
  obtain ⟨idx, mode, path, len, cur⟩ := s
  cases h
  rfl

/-- Storing no pairs meets no guard: it succeeds and changes nothing. -/
theorem run_update_nil : (update []).run.run (v, s) = (.ok (), (v, s)) := rfl

end Session

/-- A call of a session that reaches its index, with its arguments. -/
inductive Call where
  | close
  | get (key : Bytes)
  | fetch (key : Bytes)
  | put (key value : Bytes)
  | delete (key : Bytes)
  | containsKey (key : Bytes)
  | valuesAt (keys : List Bytes)
  | len
  | isEmpty
  | firstKey
  | nextKey (key : Bytes)
  | sync
  | setCacheSize (n : Nat)
  | cacheSize
  | setSyncMode (b : Bool)
  | syncMode
  | stats
  | toList
  | keys
  | values
  | take (n : Nat)
  | toMap
  | keyOf (value : Bytes)
  | containsValue (value : Bytes)
  | invert
  | select (p : PairFilter)
  | reject (p : PairFilter)
  | tryDeleteIf (p : Nat → Bytes → Bytes → Outcome Bool)
  | deleteIf (p : PairFilter)
  | clear
  | shift
  | update (pairs : List (Bytes × Bytes))
  | replace (pairs : List (Bytes × Bytes))
  | reorganize

namespace Call

open Session

/-- Run a call, keeping only whether it succeeded. -/
def run : Call → SessionM Unit
  | .close => Session.close
  | .get k => discard (Session.get k)
  | .fetch k => discard (Session.fetch k)
  | .put k x => Session.put k x
  | .delete k => discard (Session.delete k)
  | .containsKey k => discard (Session.containsKey k)
  | .valuesAt ks => discard (Session.valuesAt ks)
  | .len => discard Session.len
  | .isEmpty => discard Session.isEmpty
  | .firstKey => discard Session.firstKey
  | .nextKey k => discard (Session.nextKey k)
  | .sync => Session.sync
  | .setCacheSize n => Session.setCacheSize n
  | .cacheSize => discard Session.cacheSize
  | .setSyncMode b => Session.setSyncMode b
  | .syncMode => discard Session.syncMode
  | .stats => discard Session.stats
  | .toList => discard Session.toList
  | .keys => discard Session.keys
  | .values => discard Session.values
  | .take n => discard (Session.take n)
  | .toMap => discard Session.toMap
  | .keyOf x => discard (Session.keyOf x)
  | .containsValue x => discard (Session.containsValue x)
  | .invert => discard Session.invert
  | .select p => discard (Session.select p)
  | .reject p => discard (Session.reject p)
  | .tryDeleteIf p => discard (Session.tryDeleteIf p)
  | .deleteIf p => discard (Session.deleteIf p)
  | .clear => Session.clear
  | .shift => discard Session.shift
  | .update ps => Session.update ps
  | .replace ps => Session.replace ps
  | .reorganize => discard Session.reorganize

/-- Whether a call changes the store. -/
def writes : Call → Bool
  | .put .. | .delete _ | .sync | .tryDeleteIf _ | .deleteIf _ | .clear | .shift | .update _
  | .replace _ | .reorganize => true
  | _ => false

variable {v : Volume} {s : Session} {e : StoreError}

/-- A call that changes the store, but for storing no pairs, is refused
whenever `requireWriter` is: it is the first step of each. -/
theorem refuses_of_requireWriter {c : Call} (hc : c.writes = true) (hu : c ≠ .update [])
    (h : Refuses e requireWriter v s) : Refuses e c.run v s := by
  have hclear : Refuses e Session.clear v s := h.bind
  cases c <;> simp only [writes, Bool.false_eq_true] at hc
  case put k x => exact h.bind
  case delete k => exact h.bind.discard
  case sync => exact h.bind
  case tryDeleteIf p => exact h.bind.discard
  case deleteIf p => exact h.bind.discard
  case clear => exact hclear
  case shift => exact h.bind.discard
  case update ps =>
    cases ps with
    | nil => exact absurd rfl hu
    | cons p ps =>
      obtain ⟨k, x⟩ := p
      exact h.bind.bind
  case replace ps => exact hclear.bind
  case reorganize => exact h.bind.discard

/-- Storing no pairs is never refused. -/
theorem not_refuses_update_nil : ¬ Refuses e (update []).run v s := by
  intro h
  cases h.symm.trans run_update_nil

/-- On a closed session every call but storing no pairs is refused with
`closedHandle`. -/
theorem closed_refuses {c : Call} (hu : c ≠ .update []) (h : s.index = none) :
    Refuses .closedHandle c.run v s := by
  have hi {α : Type} (m : IndexM α) : Refuses .closedHandle (withIndex m) v s := refuses_withIndex m h
  have ho : Refuses .closedHandle requireOpen v s := refuses_requireOpen h
  have htl : Refuses .closedHandle Session.toList v s := (hi _).bind
  cases hc : c.writes
  case true => exact refuses_of_requireWriter hc hu (refuses_requireWriter_of_closed h)
  cases c <;> simp only [writes, Bool.true_eq_false] at hc
  case close => exact refuses_close h
  case get k => exact (hi _).discard
  case fetch k => exact (hi _).bind.discard
  case containsKey k => exact (hi _).discard
  case valuesAt ks => exact ho.bind.discard
  case len =>
    refine Refuses.discard (Refuses.state_bind ?_)
    split
    · exact ho.bind
    · exact (hi _).bind
  case isEmpty =>
    refine Refuses.discard (Refuses.state_bind ?_)
    split
    · exact ho.bind
    · exact (hi _).bind.bind
  case firstKey => exact (hi _).bind.discard
  case nextKey k => exact ho.bind.discard
  case setCacheSize n => exact hi _
  case cacheSize => exact (hi _).discard
  case setSyncMode b =>
    show Refuses _ (Session.setSyncMode b) v s
    exact hi _
  case syncMode => exact (hi _).discard
  case stats => exact (hi _).discard
  case toList => exact htl.discard
  case keys => exact (hi _).bind.discard
  case values => exact htl.bind.discard
  case take n =>
    refine Refuses.discard ?_
    unfold Session.take
    split
    · exact ho.bind
    · exact (hi _).bind
  case toMap => exact htl.bind.discard
  case keyOf x => exact (hi _).discard
  case containsValue x => exact (hi _).bind.discard
  case invert => exact htl.bind.discard
  case select p => exact (hi _).bind.discard
  case reject p => exact (hi _).bind.discard

/-- On a session whose file is open to read, every call that changes the store
but storing no pairs is refused with `readOnly`. -/
theorem readOnly_refuses {c : Call} (hc : c.writes = true) (hu : c ≠ .update []) {ix : Index}
    (h : s.index = some ix) (hw : ix.file.writable = false) : Refuses .readOnly c.run v s :=
  refuses_of_requireWriter hc hu (refuses_requireWriter_of_readOnly h hw)

/-- The guards of a session, exactly: on a closed session every call is
refused with `closedHandle`, and on a session whose file is open to read every
call that changes the store is refused with `readOnly`, each leaving the volume
and the session as they were, except storing no pairs, which meets no guard and
succeeds without a change. -/
theorem refused_iff_ne_update_nil (c : Call) (v : Volume) (s : Session) :
    (s.index = none → (Refuses .closedHandle c.run v s ↔ c ≠ .update [])) ∧
    (∀ ix : Index, s.index = some ix → ix.file.writable = false → c.writes = true →
      (Refuses .readOnly c.run v s ↔ c ≠ .update [])) ∧
    (Call.update []).run.run.run (v, s) = (.ok (), (v, s)) :=
  ⟨fun h => ⟨fun hr hu => not_refuses_update_nil (hu ▸ hr), fun hu => closed_refuses hu h⟩,
    fun _ h hw hc => ⟨fun hr hu => not_refuses_update_nil (hu ▸ hr),
      fun hu => readOnly_refuses hc hu h hw⟩,
    run_update_nil⟩

/-- Asking a closed session for its count is refused. -/
theorem closed_len_refused :
    Refuses .closedHandle Call.len.run Volume.empty ⟨none, .newDb, "db", none, .unstarted⟩ :=
  ((refused_iff_ne_update_nil .len Volume.empty _).1 rfl).2 (by intro h; cases h)

/-- Storing no pairs on a closed session is not refused. -/
theorem closed_update_nil_not_refused :
    ¬ Refuses .closedHandle (Call.update []).run Volume.empty
      ⟨none, .newDb, "db", none, .unstarted⟩ :=
  not_refuses_update_nil

end Call

end HashFile
