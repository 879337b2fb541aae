import HashFile.Proofs.BulkViews
import HashFile.Proofs.Copying
import HashFile.Proofs.Growth

/-!
# Walks list every key once

Three walks list the stored keys one after another until none is answered: a
walk of entries (`firstEntry`, then `entryAfter` the position last found), a
chain of lookups (`firstKey`, then `nextKey` of the key last answered), and a
session's cursor (`Session.firstKey`, then `Session.nextKey` of the key last
answered). The loops below are these clients, with a bound on their rounds.

On a ready index each walk answers the keys of the traversal, in order
(`Image.traversal`), which lists every stored key once. The walk of entries
finds, past each position, the position after it (`Ready.walkAfter`);
the chain of lookups finds the position of each key again and goes on from it
(`Ready.nextKey`); the cursor stands before the positions still to come and each
step moves it past one (`Cursor.Before`). A session asked for the key after a
key it is not on, and that is not stored, answers none, and a scan for the
count answers the number of stored keys.
-/
namespace HashFile

namespace Index

/-- The keys of a walk of entries from a found entry on: its key, then those
from the entry after it, for at most `fuel` entries. -/
def entryKeys : Nat → Option (Position × Bytes) → IndexM (List Bytes)
  | 0, _ => pure []
  | _ + 1, none => pure []
  | fuel + 1, some (p, k) => do
    let rest ← entryKeys fuel (← entryAfter p)
    pure (k :: rest)

/-- A walk of entries from the first. -/
def entryWalk (fuel : Nat) : IndexM (List Bytes) := do
  entryKeys fuel (← firstEntry)

/-- The keys of a chain of lookups from a key on: the key, then those from the
key after it, for at most `fuel` keys. -/
def keyChain : Nat → Option Bytes → IndexM (List Bytes)
  | 0, _ => pure []
  | _ + 1, none => pure []
  | fuel + 1, some k => do
    let rest ← keyChain fuel (← nextKey k)
    pure (k :: rest)

/-- A chain of lookups from the first key. -/
def keyWalk (fuel : Nat) : IndexM (List Bytes) := do
  keyChain fuel (← firstKey)

end Index

namespace Session

/-- The keys a session's cursor answers from a key on: the key, then those from
the key after it, for at most `fuel` keys. -/
def keyChain : Nat → Option Bytes → SessionM (List Bytes)
  | 0, _ => pure []
  | _ + 1, none => pure []
  | fuel + 1, some k => do
    let rest ← keyChain fuel (← nextKey k)
    pure (k :: rest)

/-- The keys a session's cursor answers from the first key. -/
def keyWalk (fuel : Nat) : SessionM (List Bytes) := do
  keyChain fuel (← firstKey)

end Session

namespace Index

variable {v : Volume} {ix : Index}

/-! ## The walk of entries -/

theorem runs_entryKeys_none (fuel : Nat) {s : Volume × Index} :
    Runs (entryKeys fuel none) s [] s := by
  cases fuel <;> exact runs_pure.2 ⟨rfl, rfl⟩

/-- From a position of the traversal, with rounds to spare, the walk of entries
answers the keys from that position on. -/
theorem Ready.entryKeys (fuel : Nat) :
    ∀ {v : Volume} {ix : Index} {A R : List Position} {p : Position}, Ready v ix →
      (image v ix).positions = A ++ p :: R → R.length < fuel →
      ∃ v' ix', Runs (Index.entryKeys fuel (some ((image v ix).keyed p))) (v, ix)
        ((p :: R).map fun q => ((image v ix).pairAt q).1) (v', ix') ∧ Reads v ix v' ix' := by
  induction fuel with
  | zero => exact fun _ _ hlen => absurd hlen (Nat.not_lt_zero _)
  | succ fuel ih =>
    intro v ix A R p hr hp hlen
    obtain ⟨v1, ix1, hafter, hrd⟩ := hr.walkAfter hp
    rw [Image.keyed, Index.entryKeys.eq_3]
    cases R with
    | nil =>
      exact ⟨v1, ix1, runs_bind.2 ⟨_, _, hafter, runs_bind.2 ⟨[], _, runs_entryKeys_none fuel,
        runs_pure.2 ⟨rfl, rfl⟩⟩⟩, hrd⟩
    | cons q R =>
      have hI := hr.sound.shaped
      have hq : q ∈ (image v ix).positions := hp ▸ List.mem_append_right A (by simp)
      have hp1 : (image v1 ix1).positions = (A ++ [p]) ++ q :: R := by
        rw [hrd.agree.positions, hp, List.append_assoc, List.singleton_append]
      obtain ⟨v2, ix2, hrest, hrd2⟩ := ih hrd.ready hp1 (by simp only [List.length_cons] at hlen; omega)
      rw [hrd.agree.keyed hI hq] at hrest
      have hkeys : (q :: R).map (fun x => ((image v1 ix1).pairAt x).1) =
          (q :: R).map fun x => ((image v ix).pairAt x).1 :=
        List.map_congr_left fun x hx => congrArg Prod.fst
          (hrd.agree.pairAt hI (hp ▸ List.mem_append_right A (List.mem_cons_of_mem p hx)))
      rw [hkeys] at hrest
      exact ⟨v2, ix2, runs_bind.2 ⟨_, _, hafter, runs_bind.2 ⟨_, _, hrest,
        runs_pure.2 ⟨rfl, rfl⟩⟩⟩, hrd.trans hrd2⟩

/-- A walk of entries of a ready index, with more rounds than keys, answers
the keys of the traversal and only reads. -/
theorem Ready.entryWalk (hr : Ready v ix) {fuel : Nat}
    (hfuel : ((image v ix).traversal.map Prod.fst).length < fuel) :
    ∃ v' ix', Runs (Index.entryWalk fuel) (v, ix) ((image v ix).traversal.map Prod.fst) (v', ix') ∧
      Reads v ix v' ix' := by
  obtain ⟨v1, ix1, hfirst', hrd⟩ := hr.firstEntry
  unfold Index.entryWalk
  rw [Image.traversal_keys]
  rw [Image.traversal_keys, List.length_map] at hfuel
  cases hP : (image v ix).positions with
  | nil =>
    rw [hP] at hfirst'
    exact ⟨v1, ix1, runs_bind.2 ⟨_, _, hfirst', runs_entryKeys_none fuel⟩, hrd⟩
  | cons p R =>
    rw [hP] at hfirst' hfuel
    have hp1 : (image v1 ix1).positions = [] ++ p :: R := by rw [hrd.agree.positions, hP]; rfl
    obtain ⟨v2, ix2, hrest, hrd2⟩ := Ready.entryKeys fuel hrd.ready hp1 (by simp only [List.length_cons] at hfuel; omega)
    have hp : p ∈ (image v ix).positions := by rw [hP]; exact List.mem_cons_self
    rw [hrd.agree.keyed hr.sound.shaped hp,
      List.map_congr_left fun x hx => congrArg Prod.fst (hrd.agree.pairAt hr.sound.shaped
        (show x ∈ (image v ix).positions by rw [hP]; exact hx))] at hrest
    exact ⟨v2, ix2, runs_bind.2 ⟨_, _, hfirst', hrest⟩, hrd.trans hrd2⟩

/-! ## The chain of lookups -/

theorem runs_keyChain_none (fuel : Nat) {s : Volume × Index} :
    Runs (keyChain fuel none) s [] s := by
  cases fuel <;> exact runs_pure.2 ⟨rfl, rfl⟩

/-- From a key of the traversal, with rounds to spare, the chain of lookups
answers the keys from that key on. -/
theorem Ready.keyChain (fuel : Nat) :
    ∀ {v : Volume} {ix : Index} {A R : List Bytes} {k : Bytes}, Ready v ix →
      (image v ix).traversal.map Prod.fst = A ++ k :: R → R.length < fuel →
      ∃ v' ix', Runs (Index.keyChain fuel (some k)) (v, ix) (k :: R) (v', ix') ∧ Reads v ix v' ix' := by
  induction fuel with
  | zero => exact fun _ _ hlen => absurd hlen (Nat.not_lt_zero _)
  | succ fuel ih =>
    intro v ix A R k hr hT hlen
    obtain ⟨r, v1, ix1, hnext, hrd, -, hafter⟩ := hr.nextKey k
    rw [hafter A R hT] at hnext
    rw [Index.keyChain.eq_3]
    cases R with
    | nil =>
      exact ⟨v1, ix1, runs_bind.2 ⟨_, _, hnext, runs_bind.2 ⟨[], _, runs_keyChain_none fuel,
        runs_pure.2 ⟨rfl, rfl⟩⟩⟩, hrd⟩
    | cons k' R =>
      have hT1 : (image v1 ix1).traversal.map Prod.fst = (A ++ [k]) ++ k' :: R := by
        rw [hrd.agree.traversal hr.sound.shaped, hT, List.append_assoc, List.singleton_append]
      obtain ⟨v2, ix2, hrest, hrd2⟩ := ih hrd.ready hT1 (by simp only [List.length_cons] at hlen; omega)
      exact ⟨v2, ix2, runs_bind.2 ⟨_, _, hnext, runs_bind.2 ⟨_, _, hrest,
        runs_pure.2 ⟨rfl, rfl⟩⟩⟩, hrd.trans hrd2⟩

/-- A chain of lookups of a ready index, with more rounds than keys, answers the
keys of the traversal and only reads. -/
theorem Ready.keyWalk (hr : Ready v ix) {fuel : Nat}
    (hfuel : ((image v ix).traversal.map Prod.fst).length < fuel) :
    ∃ v' ix', Runs (Index.keyWalk fuel) (v, ix) ((image v ix).traversal.map Prod.fst) (v', ix') ∧
      Reads v ix v' ix' := by
  obtain ⟨v1, ix1, hfirst, hrd⟩ := hr.firstKey
  unfold Index.keyWalk
  cases hT : (image v ix).traversal.map Prod.fst with
  | nil =>
    rw [hT] at hfirst
    exact ⟨v1, ix1, runs_bind.2 ⟨_, _, hfirst, runs_keyChain_none fuel⟩, hrd⟩
  | cons k R =>
    rw [hT] at hfirst hfuel
    have hT1 : (image v1 ix1).traversal.map Prod.fst = [] ++ k :: R := by
      rw [hrd.agree.traversal hr.sound.shaped, hT]
      rfl
    obtain ⟨v2, ix2, hrest, hrd2⟩ := Ready.keyChain fuel hrd.ready hT1 (by simp only [List.length_cons] at hfuel; omega)
    exact ⟨v2, ix2, runs_bind.2 ⟨_, _, hfirst, hrest⟩, hrd.trans hrd2⟩

end Index

namespace Session

variable {v : Volume} {s : Session} {ix : Index}

/-! ## The session's cursor -/

/-- A session whose cursor is on a key, asked for the key after it, moves the
cursor past the next position of the traversal and answers its key. -/
theorem runs_nextKey_of_cursor (hix : s.index = some ix) (hr : Index.Ready v ix)
    {p : Position} {k : Bytes} {R : List Position} (hcur : s.cursor = .onKey p k)
    (hc : (Cursor.onKey p k).Before (Index.image v ix) R) :
    ∃ v' ix', Runs (nextKey k) (v, s) (R.head?.map fun q => ((Index.image v ix).pairAt q).1)
      (v', { s with index := some ix', cursor :=
        (Cursor.settle (R.head?.map (Index.image v ix).keyed)).2 }) ∧
      Index.Reads v ix v' ix' := by
  obtain ⟨v1, ix1, hnext, hrd⟩ := Cursor.Before.next hc hr
  refine ⟨v1, ix1, ?_, hrd⟩
  have hon : ((Cursor.onKey p k).current == some k) = true := beq_self_eq_true _
  unfold nextKey
  refine runs_bind.2 ⟨(), _, runs_requireOpen hix, runs_bind.2 ⟨s, _, runs_state, ?_⟩⟩
  dsimp only
  rw [hcur, if_pos hon]
  refine runs_bind.2 ⟨_, _, runs_pure.2 ⟨rfl, rfl⟩, runs_bind.2 ⟨_, _,
    (runs_withIndex hix).2 ⟨v1, ix1, hnext, rfl⟩, ?_⟩⟩
  refine runs_bind.2 ⟨(), _, runs_modifySession.2 rfl, runs_pure.2 ⟨?_, rfl⟩⟩
  cases R <;> rfl

theorem runs_keyChain_none (fuel : Nat) {st : Volume × Session} :
    Runs (keyChain fuel none) st [] st := by
  cases fuel <;> exact runs_pure.2 ⟨rfl, rfl⟩

/-- From a cursor on a key of the traversal, with rounds to spare, the session
answers the keys from that key on. -/
theorem keyChain_of_cursor (fuel : Nat) :
    ∀ {v : Volume} {s : Session} {ix : Index} {p : Position} {k : Bytes} {R : List Position},
      s.index = some ix → Index.Ready v ix → s.cursor = .onKey p k →
      (Cursor.onKey p k).Before (Index.image v ix) R → R.length < fuel →
      ∃ st, Runs (keyChain fuel (some k)) (v, s)
        (k :: R.map fun q => ((Index.image v ix).pairAt q).1) st := by
  induction fuel with
  | zero => exact fun _ _ _ _ hlen => absurd hlen (Nat.not_lt_zero _)
  | succ fuel ih =>
    intro v s ix p k R hix hr hcur hc hlen
    obtain ⟨v1, ix1, hnext, hrd⟩ := runs_nextKey_of_cursor hix hr hcur hc
    rw [keyChain.eq_3]
    cases R with
    | nil =>
      exact ⟨_, runs_bind.2 ⟨_, _, hnext, runs_bind.2 ⟨[], _, runs_keyChain_none fuel,
        runs_pure.2 ⟨rfl, rfl⟩⟩⟩⟩
    | cons q R =>
      have hI := hr.sound.shaped
      have hc1 : (Cursor.onKey q ((Index.image v ix).keyOf ((Index.image v ix).slotAt q))).Before
          (Index.image v1 ix1) R := (Cursor.Before.settle hc).agree hrd.agree hI
      have hq : q ∈ (Index.image v ix).positions := hc.mem List.mem_cons_self
      have hkey : ((Index.image v ix).pairAt q).1 =
          (Index.image v ix).keyOf ((Index.image v ix).slotAt q) := rfl
      obtain ⟨st, hrest⟩ := ih (s := { s with index := some ix1, cursor := .onKey q (
          (Index.image v ix).keyOf ((Index.image v ix).slotAt q)) })
        rfl hrd.ready rfl hc1 (by simp only [List.length_cons] at hlen; omega)
      rw [List.map_congr_left fun x hx => congrArg Prod.fst (hrd.agree.pairAt hI
        (hc.mem (List.mem_cons_of_mem q hx)))] at hrest
      refine ⟨st, runs_bind.2 ⟨_, _, hnext, runs_bind.2 ⟨_, _, ?_, runs_pure.2 ⟨rfl, rfl⟩⟩⟩⟩
      rw [List.head?_cons, Option.map_some, hkey]
      exact hrest

/-- The first key of a session moves its cursor onto the first position of the
traversal. -/
theorem runs_firstKey (hix : s.index = some ix) (hr : Index.Ready v ix) :
    ∃ v' ix', Runs firstKey (v, s)
      ((Index.image v ix).positions.head?.map fun q => ((Index.image v ix).pairAt q).1)
      (v', { s with index := some ix', cursor := (Cursor.settle
        ((Index.image v ix).positions.head?.map (Index.image v ix).keyed)).2 }) ∧
      Index.Reads v ix v' ix' := by
  have hstart : Cursor.unstarted.Before (Index.image v ix) (Index.image v ix).positions := rfl
  obtain ⟨v1, ix1, hfirst, hrd⟩ := hstart.next hr
  refine ⟨v1, ix1, ?_, hrd⟩
  unfold firstKey
  refine runs_bind.2 ⟨_, _, (runs_withIndex hix).2 ⟨v1, ix1, hfirst, rfl⟩,
    runs_bind.2 ⟨(), _, runs_modifySession.2 rfl, runs_pure.2 ⟨?_, rfl⟩⟩⟩
  cases (Index.image v ix).positions <;> rfl

/-- A session's cursor walk over a ready index, with more rounds than keys,
answers the keys of the traversal. -/
theorem keyWalk_of_ready (hix : s.index = some ix) (hr : Index.Ready v ix) {fuel : Nat}
    (hfuel : ((Index.image v ix).traversal.map Prod.fst).length < fuel) :
    ∃ st, Runs (keyWalk fuel) (v, s) ((Index.image v ix).traversal.map Prod.fst) st := by
  obtain ⟨v1, ix1, hfirst, hrd⟩ := runs_firstKey hix hr
  have hI := hr.sound.shaped
  unfold keyWalk
  rw [Image.traversal_keys]
  rw [Image.traversal_keys, List.length_map] at hfuel
  cases hP : (Index.image v ix).positions with
  | nil =>
    rw [hP] at hfirst
    exact ⟨_, runs_bind.2 ⟨_, _, hfirst, runs_keyChain_none fuel⟩⟩
  | cons p R =>
    rw [hP] at hfirst hfuel
    have hc : (Cursor.onKey p ((Index.image v ix).keyOf ((Index.image v ix).slotAt p))).Before
        (Index.image v1 ix1) R := by
      have h0 : Cursor.unstarted.Before (Index.image v ix) (p :: R) := hP.symm
      exact (Cursor.Before.settle h0).agree hrd.agree hI
    obtain ⟨st, hrest⟩ := keyChain_of_cursor fuel (s := { s with index := some ix1, cursor := .onKey p (
        (Index.image v ix).keyOf ((Index.image v ix).slotAt p)) })
      rfl hrd.ready rfl hc (by simp only [List.length_cons] at hfuel; omega)
    rw [List.map_congr_left fun x hx => congrArg Prod.fst (hrd.agree.pairAt hI
      (show x ∈ (Index.image v ix).positions by rw [hP]; exact List.mem_cons_of_mem p hx))] at hrest
    exact ⟨st, runs_bind.2 ⟨_, _, hfirst, hrest⟩⟩

/-- A session asked for the key after a key it is not on, and that is not
stored, answers none. -/
theorem runs_nextKey_of_missing (hix : s.index = some ix) (hr : Index.Ready v ix) {k : Bytes}
    (hcur : s.cursor.current ≠ some k) (hk : (Index.image v ix).lookup k = none) :
    ∃ st, Runs (nextKey k) (v, s) none st := by
  obtain ⟨r, v1, ix1, hpos, -, hnone, -⟩ := hr.positionOf k
  have hr0 : r = none := hnone.2 hk
  subst hr0
  have hseek : Runs (Cursor.seek k) (v, ix) (false, .unstarted) (v1, ix1) := by
    unfold Cursor.seek
    exact runs_bind.2 ⟨none, _, hpos, runs_pure.2 ⟨rfl, rfl⟩⟩
  have hoff : (s.cursor.current == some k) = false := by
    rw [Bool.eq_false_iff]
    intro h
    exact hcur (beq_iff_eq.1 h)
  refine ⟨(v1, { s with index := some ix1, cursor := .unstarted }), ?_⟩
  unfold nextKey
  refine runs_bind.2 ⟨(), _, runs_requireOpen hix, runs_bind.2 ⟨s, _, runs_state, ?_⟩⟩
  dsimp only
  rw [if_neg (by rw [hoff]; exact Bool.false_ne_true)]
  exact runs_bind.2 ⟨_, _, (runs_withIndex hix).2 ⟨v1, ix1, hseek, rfl⟩,
    runs_bind.2 ⟨(), _, runs_modifySession.2 rfl, runs_pure.2 ⟨rfl, rfl⟩⟩⟩

/-- A session whose count is not known scans for it, and answers the number of
stored keys. -/
theorem runs_len_scan (hix : s.index = some ix) (hr : Index.Ready v ix) (hn : s.lenCache = none) :
    ∃ st, Runs len (v, s) (Index.image v ix).keys.length st := by
  obtain ⟨v1, ix1, hkeys, -⟩ := hr.keys 0 fun n _ => .yield (n + 1)
  have hcount : forIn (m := Id) ((Index.image v ix).traversal.map Prod.fst) 0
      (fun _ n => ForInStep.yield (n + 1)) = (Index.image v ix).keys.length := by
    rw [forIn_yield_id, ← (Image.traversal_keys_perm hr.sound.shaped).length_eq]
    simp
  rw [hcount] at hkeys
  refine ⟨(v1, { s with index := some ix1, lenCache := some (Index.image v ix).keys.length }), ?_⟩
  unfold len
  refine runs_bind.2 ⟨s, _, runs_state, ?_⟩
  rw [hn]
  exact runs_bind.2 ⟨_, _, (runs_withIndex hix).2 ⟨v1, ix1, hkeys, rfl⟩,
    runs_bind.2 ⟨(), _, runs_modifySession.2 rfl, runs_pure.2 ⟨rfl, rfl⟩⟩⟩

/-! ## Exactness -/

/-- How the walks of a session's index answer, with `T` the keys of its
traversal: `T` lists each stored key once; the walk of entries, the chain of
lookups and the session's cursor, each with more rounds than keys, answer `T`;
the session answers none after a key that is neither stored nor the one its
cursor is on; and a scan for the count answers the number of stored keys. -/
structure WalksExactly (v : Volume) (s : Session) (ix : Index) (T : List Bytes) : Prop where
  nodup : T.Nodup
  mem : ∀ k, k ∈ T ↔ (Index.image v ix).lookup k ≠ none
  entries : ∀ fuel, T.length < fuel → ∃ st, Runs (Index.entryWalk fuel) (v, ix) T st
  lookups : ∀ fuel, T.length < fuel → ∃ st, Runs (Index.keyWalk fuel) (v, ix) T st
  cursor : ∀ fuel, T.length < fuel → ∃ st, Runs (keyWalk fuel) (v, s) T st
  missing : ∀ k, k ∉ T → s.cursor.current ≠ some k → ∃ st, Runs (nextKey k) (v, s) none st
  count : s.lenCache = none → ∃ st, Runs len (v, s) (Index.image v ix).keys.length st

/-- On a session over a ready index, the walk of entries, the chain of lookups
and the session's cursor all answer the keys of the traversal, which lists
every stored key once; a key neither stored nor under the cursor has no key
after it, and a scan for the count finds every stored key. -/
theorem walks_list_keys_once (hix : s.index = some ix) (hr : Index.Ready v ix) :
    WalksExactly v s ix ((Index.image v ix).traversal.map Prod.fst) where
  nodup := Image.nodup_traversal_keys hr.sound.shaped
  mem _ := Image.mem_traversal_keys hr.sound.shaped
  entries _ hf := by
    obtain ⟨v', ix', h, -⟩ := hr.entryWalk hf
    exact ⟨_, h⟩
  lookups _ hf := by
    obtain ⟨v', ix', h, -⟩ := hr.keyWalk hf
    exact ⟨_, h⟩
  cursor _ hf := keyWalk_of_ready hix hr hf
  missing k hk hcur := runs_nextKey_of_missing hix hr hcur
    (Classical.byContradiction fun hl => hk ((Image.mem_traversal_keys hr.sound.shaped).2 hl))
  count hn := runs_len_scan hix hr hn

/-- A writer session over the crowd stored in a new file walks all its keys. -/
theorem walks_list_keys_once_crowd :
    ∃ v ix, Runs (Index.crowd.forM fun k => Index.store k ⟨#[118]⟩) (Index.laidOut.1, Index.laidOut.2) () (v, ix) ∧
      Index.laidOut.2.dir.bits < ix.dir.bits ∧
      (∀ k ∈ Index.crowd, (Index.image v ix).lookup k = some ⟨#[118]⟩) ∧
      (⟨some ix, .writer, "db", none, .unstarted⟩ : Session).index = some ix ∧ Index.Ready v ix ∧
      WalksExactly v ⟨some ix, .writer, "db", none, .unstarted⟩ ix
        ((Index.image v ix).traversal.map Prod.fst) := by
  obtain ⟨v, ix, hrun, hr, -, hin, hbits⟩ := Index.crowd_laidOut (by decide : (⟨#[118]⟩ : Bytes).size ≤ 4096)
  exact ⟨v, ix, hrun, hbits, hin, rfl, hr, walks_list_keys_once rfl hr⟩

end Session

end HashFile
