import HashFile.Proofs.Traversal
import HashFile.Proofs.Deleting
import HashFile.Proofs.Exclusion
import HashFile.Proofs.Reach
import HashFile.Proofs.Growth

/-!
# Clearing

Clearing deletes the keys of a traversal in passes until none is left. A pass
starts at the first key, and each of its steps finds the key after the current
one before it deletes the current one, so the key a step deletes is stored
when it is deleted and the step goes on with a key still stored
(`Index.Ready.clearPass_step`). A deletion may pull keys the pass has not
reached behind its walk, so one pass need not delete everything; what ends
clearing is a measure, the number of stored keys: every pass deletes at least
its first key (`Index.Ready.clearPass`), and there are never more keys than
slots, which bounds the passes (`Index.Ready.clearAll`).

A cleared session stores nothing, knows its count to be zero and has no first
key; storing pairs after it leaves each key with the value of its last pair
(`Session.clear_empties`).
-/
namespace HashFile

namespace Image

variable {I J K : Image}

/-- `J` binds only keys that `I` binds, each to the same value: it forgot the
others. -/
def Forgets (I J : Image) : Prop := ∀ k, J.lookup k = none ∨ J.lookup k = I.lookup k

theorem Forgets.refl (I : Image) : I.Forgets I := fun _ => .inr rfl

theorem Forgets.trans (h1 : I.Forgets J) (h2 : J.Forgets K) : I.Forgets K := fun k => by
  rcases h2 k with h | h
  · exact .inl h
  · rw [h]
    exact h1 k

/-- Forgetting one key is forgetting. -/
theorem forgets_of_erase {key : Bytes}
    (h : ∀ k, J.lookup k = if k = key then none else I.lookup k) : I.Forgets J := fun k => by
  rw [h k]
  by_cases hk : k = key
  · exact .inl (if_pos hk)
  · exact .inr (if_neg hk)

/-- The stored keys are those a lookup finds. -/
theorem mem_keys_iff (hk : I.keys.Nodup) {k : Bytes} : k ∈ I.keys ↔ I.lookup k ≠ none :=
  ⟨fun hm hl => not_mem_keys_of_lookup hk hl hm,
    fun hl => Classical.byContradiction fun hm => hl (lookup_eq_none hm)⟩

/-- An image that forgot a key stored in another stores fewer keys. -/
theorem length_keys_lt (hI : I.keys.Nodup) (hJ : J.keys.Nodup) (hf : I.Forgets J) {k : Bytes}
    (hk : I.lookup k ≠ none) (hgone : J.lookup k = none) : J.keys.length < I.keys.length := by
  have hsub : J.keys ⊆ I.keys.filter fun x => x ≠ k := by
    intro x hx
    have hxJ := (mem_keys_iff hJ).1 hx
    refine List.mem_filter.2 ⟨(mem_keys_iff hI).2 ?_, decide_eq_true fun h => hxJ (h ▸ hgone)⟩
    rcases hf x with h | h
    · exact absurd h hxJ
    · rw [← h]
      exact hxJ
  calc J.keys.length ≤ (I.keys.filter fun x => x ≠ k).length := (hJ.subperm hsub).length_le
    _ < I.keys.length := List.length_filter_lt_length_iff_exists.2
        ⟨k, (mem_keys_iff hI).2 hk, by simp⟩

/-- A traversal lists the stored keys. -/
theorem traversal_keys_perm (hI : I.Shaped) : (I.traversal.map Prod.fst).Perm I.keys := by
  rw [traversal_keys]
  have h := (slots_positions_perm hI).map I.keyOf
  rw [List.map_map] at h
  exact h

theorem mem_traversal_keys (hI : I.Shaped) {k : Bytes} :
    k ∈ I.traversal.map Prod.fst ↔ I.lookup k ≠ none :=
  ((traversal_keys_perm hI).mem_iff).trans (mem_keys_iff hI.keys_nodup)

/-- The traversal of a shaped image visits a position for each key. -/
theorem length_positions (hI : I.Shaped) : I.positions.length = I.keys.length := by
  rw [← (traversal_keys_perm hI).length_eq, List.length_map, traversal, List.length_map]

/-- A shaped image stores at most as many keys as its directory's buckets hold. -/
theorem length_keys_le (hI : I.Shaped) : I.keys.length ≤ I.dir.size * I.header.bucketElems := by
  have h := length_positionsFrom_le hI (I.dir.size + 1) 0
  rw [Nat.sub_zero] at h
  rw [← length_positions hI]
  exact h

end Image

namespace Index

variable {v v' : Volume} {ix ix' : Index}

/-- A step of a pass runs on a ready writer: it deletes the current key and no
other, and goes on with the key after it in the traversal, which is still
stored (or with none, when the current key was not stored or was the last). -/
theorem Ready.clearPass_step (hr : Ready v ix) (hw : ix.file.writable = true) (k : Bytes)
    (n : Nat) :
    ∃ next v' ix', (Session.clearPass (n + 1) (some k)).run.run (v, ix) =
        (Session.clearPass n next).run.run (v', ix') ∧ Ready v' ix' ∧ Stays v ix v' ix' ∧
      (∀ k', (image v' ix').lookup k' = if k' = k then none else (image v ix).lookup k') ∧
      ∀ k', next = some k' → (image v' ix').lookup k' ≠ none := by
  have hI := hr.sound.shaped
  obtain ⟨next, v1, ix1, hnext, hrd1, hmiss, hafter⟩ := hr.nextKey k
  have hw1 : ix1.file.writable = true := by rw [hrd1.keeps.file]; exact hw
  obtain ⟨v2, ix2, hdel, hr2, hst2, hlook⟩ := hrd1.ready.delete hw1 k
  have hlook' : ∀ k', (image v2 ix2).lookup k' = if k' = k then none else (image v ix).lookup k' :=
    fun k' => by rw [hlook, hrd1.agree.lookup]
  refine ⟨next, v2, ix2, ?_, hr2, hrd1.keeps.stays.trans hst2, hlook', fun k' hk' => ?_⟩
  · rw [Session.clearPass.eq_3, Runs.run_bind hnext, Runs.run_bind (runs_discard hdel)]
  · by_cases hk : k ∈ (image v ix).traversal.map Prod.fst
    · obtain ⟨A, R, hAR⟩ := List.append_of_mem hk
      have hR : k' ∈ R := List.mem_of_mem_head? ((hafter A R hAR).symm.trans hk')
      have hnd := Image.nodup_traversal_keys hI
      rw [hAR] at hnd
      have hne : k' ≠ k := fun h => (List.nodup_cons.1 (List.nodup_append.1 hnd).2.1).1 (h ▸ hR)
      rw [hlook', if_neg hne]
      exact (Image.mem_traversal_keys hI).1 (hAR ▸ List.mem_append_right A (List.mem_cons_of_mem k hR))
    · rw [hmiss hk] at hk'
      cases hk'

/-- A pass runs on a ready writer, keeps it ready and only forgets keys; a
pass of at least one step deletes the key it starts from. -/
theorem Ready.clearPass (hr : Ready v ix) (hw : ix.file.writable = true) (n : Nat)
    (cur : Option Bytes) :
    ∃ v' ix', Runs (Session.clearPass n cur) (v, ix) () (v', ix') ∧ Ready v' ix' ∧ Stays v ix v' ix' ∧
      (image v ix).Forgets (image v' ix') ∧
      ∀ k, 0 < n → cur = some k → (image v' ix').lookup k = none := by
  induction n generalizing v ix cur with
  | zero =>
    exact ⟨v, ix, runs_pure.2 ⟨rfl, rfl⟩, hr, Stays.refl v ix, Image.Forgets.refl _,
      fun _ h => absurd h (Nat.lt_irrefl 0)⟩
  | succ n ih =>
    cases cur with
    | none =>
      exact ⟨v, ix, runs_pure.2 ⟨rfl, rfl⟩, hr, Stays.refl v ix, Image.Forgets.refl _,
        fun _ _ h => by cases h⟩
    | some c =>
      obtain ⟨next, v1, ix1, hstep, hr1, hst1, hlook1, -⟩ := hr.clearPass_step hw c n
      obtain ⟨v2, ix2, hpass, hr2, hst2, hf2, -⟩ := ih hr1 (by rw [hst1.writable]; exact hw) next
      refine ⟨v2, ix2, ?_, hr2, hst1.trans hst2, (Image.forgets_of_erase hlook1).trans hf2,
        fun k _ hk => ?_⟩
      · unfold Runs
        rw [hstep]
        exact hpass
      · cases hk
        have hc : (image v1 ix1).lookup c = none := by rw [hlook1, if_pos rfl]
        rcases hf2 c with h | h
        · exact h
        · rw [h, hc]

/-- Passes from the first key run on a ready writer and leave it with no key,
given more rounds than keys: each pass deletes at least its first key. -/
theorem Ready.clearAll (hr : Ready v ix) (hw : ix.file.writable = true) {F : Nat} (bound : Nat)
    (hF : (image v ix).keys.length < F) (hb : 0 < bound) :
    ∃ v' ix', Runs (Session.clearAll F bound) (v, ix) () (v', ix') ∧ Ready v' ix' ∧ Stays v ix v' ix' ∧
      (image v' ix').keys = [] := by
  induction F generalizing v ix with
  | zero => exact absurd hF (Nat.not_lt_zero _)
  | succ F ih =>
    have hI := hr.sound.shaped
    obtain ⟨v1, ix1, hfirst, hrd1⟩ := hr.firstKey
    have hw1 : ix1.file.writable = true := by rw [hrd1.keeps.file]; exact hw
    have hkeys1 : (image v1 ix1).keys = (image v ix).keys := hrd1.agree.keys
    cases hK : (image v ix).traversal.map Prod.fst with
    | nil =>
      rw [hK] at hfirst
      refine ⟨v1, ix1, ?_, hrd1.ready, hrd1.keeps.stays, ?_⟩
      · unfold Session.clearAll
        exact runs_bind.2 ⟨none, _, hfirst, runs_pure.2 ⟨rfl, rfl⟩⟩
      · have hp := Image.traversal_keys_perm hI
        rw [hK] at hp
        rw [hkeys1]
        exact hp.nil_eq.symm
    | cons k rest =>
      rw [hK] at hfirst
      have hk : (image v1 ix1).lookup k ≠ none := by
        rw [hrd1.agree.lookup]
        exact (Image.mem_traversal_keys hI).1 (hK ▸ List.mem_cons_self)
      obtain ⟨v2, ix2, hpass, hr2, hst2, hf2, hdel⟩ := hrd1.ready.clearPass hw1 bound (some k)
      have hlt := Image.length_keys_lt hrd1.ready.sound.shaped.keys_nodup
        hr2.sound.shaped.keys_nodup hf2 hk (hdel k hb rfl)
      rw [hkeys1] at hlt
      obtain ⟨v3, ix3, hrest, hr3, hst3, hkeys⟩ :=
        ih hr2 (by rw [hst2.writable]; exact hw1) (by omega)
      refine ⟨v3, ix3, ?_, hr3, hrd1.keeps.stays.trans (hst2.trans hst3), hkeys⟩
      unfold Session.clearAll
      exact runs_bind.2 ⟨some k, _, hfirst, runs_bind.2 ⟨(), _, hpass, hrest⟩⟩

end Index

namespace Session

variable {v v' : Volume} {s : Session} {ix : Index} {α : Type}

/-! ## Running index actions in a session -/

theorem runs_withIndex {m : IndexM α} {a : α} {st : Volume × Session} (hix : s.index = some ix) :
    Runs (withIndex m) (v, s) a st ↔
      ∃ v' ix', Runs m (v, ix) a (v', ix') ∧ st = (v', { s with index := some ix' }) := by
  unfold Runs
  rw [run_withIndex hix]
  rcases h : m.run.run (v, ix) with ⟨r, v1, ix1⟩
  have hrun : Index.run m v ix = (r, v1, ix1) := by
    unfold Index.run
    rw [h]
    rfl
  rw [hrun]
  constructor
  · intro he
    obtain ⟨rfl, rfl⟩ := Prod.mk.inj he
    exact ⟨v1, ix1, rfl, rfl⟩
  · rintro ⟨v', ix', he, rfl⟩
    obtain ⟨rfl, he⟩ := Prod.mk.inj he
    rw [he]

theorem runs_modifySession {f : Session → Session} {a : PUnit} {st : Volume × Session} :
    Runs (modifySession f) (v, s) a st ↔ st = (v, f s) := runs_modify

theorem runs_state : Runs state (v, s) s (v, s) :=
  runs_bind.2 ⟨(v, s), _, runs_get.2 ⟨rfl, rfl⟩, runs_pure.2 ⟨rfl, rfl⟩⟩

theorem runs_requireOpen (hix : s.index = some ix) : Runs requireOpen (v, s) () (v, s) := by
  unfold requireOpen
  refine runs_bind.2 ⟨s, _, runs_state, ?_⟩
  have hopen : s.isClosed = false := by rw [isClosed, hix]; rfl
  rw [hopen, if_neg Bool.false_ne_true]
  exact runs_pure.2 ⟨rfl, rfl⟩

/-- A store through a writer session that answers is a store of its index that
answers; the session forgets its count. -/
theorem runs_put (hix : s.index = some ix) (hw : ix.file.writable = true) {k x : Bytes}
    {st : Volume × Session} (h : Runs (put k x) (v, s) () st) :
    ∃ v' ix', Runs (Index.store k x) (v, ix) () (v', ix') ∧
      st = (v', { s with index := some ix', lenCache := none }) := by
  unfold put at h
  obtain ⟨_, st0, hreq, h⟩ := runs_bind.1 h
  obtain rfl : st0 = (v, s) := (Prod.mk.inj (hreq.symm.trans (run_requireWriter hix hw))).2
  obtain ⟨r, ⟨v1, s1⟩, htry, h⟩ := runs_bind.1 h
  rcases runs_tryCatch.1 htry with hok | ⟨e, st1, -, he⟩
  · obtain ⟨_, ⟨v2, s2⟩, hwi, hp⟩ := runs_bind.1 hok
    obtain ⟨rfl, hs2⟩ := runs_pure.1 hp
    obtain ⟨rfl, rfl⟩ := Prod.mk.inj hs2
    obtain ⟨v', ix', hstore, hst⟩ := (runs_withIndex hix).1 hwi
    obtain ⟨rfl, rfl⟩ := Prod.mk.inj hst
    obtain ⟨_, st3, hmod, h⟩ := runs_bind.1 h
    obtain ⟨-, rfl⟩ := runs_pure.1 h
    exact ⟨_, ix', hstore, runs_modifySession.1 hmod⟩
  · obtain ⟨rfl, -⟩ := runs_pure.1 he
    dsimp only at h
    split at h
    · exact (runs_throw.1 h).elim
    · obtain ⟨_, st3, -, h⟩ := runs_bind.1 h
      exact (runs_throw.1 h).elim

/-- A store of a writer session's index that answers is a put of the session
that answers; the session forgets its count. -/
theorem runs_put_of_store (hix : s.index = some ix) (hw : ix.file.writable = true) {k x : Bytes}
    (h : Runs (Index.store k x) (v, ix) () (v', ix')) :
    Runs (put k x) (v, s) () (v', { s with index := some ix', lenCache := none }) := by
  have htry : Runs (tryCatch (do withIndex (Index.store k x); pure none) fun e => pure (some e))
      (v, s) none (v', { s with index := some ix' }) :=
    runs_tryCatch.2 (.inl (runs_bind.2 ⟨(), _, (runs_withIndex hix).2 ⟨v', ix', h, rfl⟩,
      runs_pure.2 ⟨rfl, rfl⟩⟩))
  unfold put
  refine runs_bind.2 ⟨(), _, run_requireWriter hix hw, runs_bind.2 ⟨none, _, htry, ?_⟩⟩
  exact runs_bind.2 ⟨(), _, runs_modifySession.2 rfl, runs_pure.2 ⟨rfl, rfl⟩⟩

end Session

end HashFile
