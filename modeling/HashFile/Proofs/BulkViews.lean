import HashFile.Proofs.Clearing
import HashFile.Proofs.Growth

/-!
# Bulk views of a session

Every bulk read of a session is one traversal from a fresh cursor, folded with
its own step, and a traversal of a ready index visits the pairs of
`Image.traversal` in order while only reading (`Index.Ready.pairs`,
`Index.Ready.keys`). So the views agree: the keys, the values and the pairs are
the projections of that one list, callbacks are called on its elements in
order, the first `n` pairs are its prefix, a selection is its filter, the first
key holding a value is found by searching it, and the maps are built from it
(`bulk_views`). None of these reads changes the stored map, the traversal or
the session's count and cursor (`Answers`).

The maps are lists sorted by key. Sorting is stable, so among pairs with one
key the first stays first (`ByteMap.lookup_mergeSort`), and keeping the first of
adjacent pairs with one key keeps what a lookup finds
(`ByteMap.lookup_keepFirst`): the inverse map sends each value to the first key
that holds it. A traversal lists each key once, so the map of its pairs holds
exactly those pairs (`ByteMap.ofPairs_perm`).
-/
namespace HashFile

instance lawfulBEqByteArray : LawfulBEq ByteArray where
  eq_of_beq h := (bytes_beq_iff _ _).1 h
  rfl := (bytes_beq_iff _ _).2 rfl

namespace ByteMap

/-! ## Maps of byte strings -/

theorem bytesListLe_refl : ∀ l : List UInt8, bytesListLe l l = true
  | [] => rfl
  | a :: l => by simp [bytesListLe, bytesListLe_refl l]

theorem bytesListLe_total : ∀ a b : List UInt8, (bytesListLe a b || bytesListLe b a) = true
  | [], _ => rfl
  | _ :: _, [] => rfl
  | x :: xs, y :: ys => by
    rcases Nat.lt_trichotomy x.toNat y.toNat with h | h | h
    · simp [bytesListLe, UInt8.lt_iff_toNat_lt, h]
    · obtain rfl : x = y := UInt8.toNat_inj.1 h
      have := bytesListLe_total xs ys
      simp only [bytesListLe, beq_self_eq_true, Bool.true_and] at this ⊢
      simpa [UInt8.lt_iff_toNat_lt] using this
    · simp [bytesListLe, UInt8.lt_iff_toNat_lt, h]

theorem bytesListLe_trans : ∀ a b c : List UInt8,
    bytesListLe a b = true → bytesListLe b c = true → bytesListLe a c = true
  | [], _, _, _, _ => rfl
  | _ :: _, [], _, h, _ => by simp [bytesListLe] at h
  | _ :: _, _ :: _, [], _, h => by simp [bytesListLe] at h
  | x :: xs, y :: ys, z :: zs, h1, h2 => by
    simp only [bytesListLe, Bool.or_eq_true, decide_eq_true_eq, Bool.and_eq_true, beq_iff_eq,
      UInt8.lt_iff_toNat_lt] at h1 h2 ⊢
    rcases h1 with h1 | ⟨rfl, h1⟩ <;> rcases h2 with h2 | ⟨rfl, h2⟩
    · exact .inl (Nat.lt_trans h1 h2)
    · exact .inl h1
    · exact .inl h2
    · exact .inr ⟨rfl, bytesListLe_trans xs ys zs h1 h2⟩

/-- The order a map is sorted by: its keys, byte by byte. -/
theorem keyLe_trans (a b c : Bytes × Bytes) :
    bytesLe a.1 b.1 = true → bytesLe b.1 c.1 = true → bytesLe a.1 c.1 = true :=
  bytesListLe_trans _ _ _

theorem keyLe_total (a b : Bytes × Bytes) : (bytesLe a.1 b.1 || bytesLe b.1 a.1) = true :=
  bytesListLe_total _ _

/-- Keeping the last of adjacent pairs with one key changes nothing when every
key is listed once. -/
theorem keepLast_of_nodup : ∀ {l : List (Bytes × Bytes)}, (l.map Prod.fst).Nodup → keepLast l = l
  | [], _ => by simp [keepLast]
  | [_], _ => by simp [keepLast]
  | a :: b :: rest, h => by
    have hab : a.1 ≠ b.1 := fun he => (List.nodup_cons.1 h).1 (by simp [he])
    rw [keepLast.eq_1, if_neg (by simpa using hab), keepLast_of_nodup (List.nodup_cons.1 h).2]

/-- The map of pairs that list each key once holds exactly those pairs. -/
theorem ofPairs_perm {ps : List (Bytes × Bytes)} (h : (ps.map Prod.fst).Nodup) :
    (ofPairs ps).Perm ps := by
  have hp := List.mergeSort_perm ps fun a b => bytesLe a.1 b.1
  unfold ofPairs
  rw [keepLast_of_nodup ((hp.map Prod.fst).nodup_iff.2 h)]
  exact hp

/-- Keeping the first of adjacent pairs with one key keeps what a lookup finds:
a pair dropped follows one with its key. -/
theorem lookup_keepFirst (x : Bytes) (l : List (Bytes × Bytes)) :
    (keepFirst l).lookup x = l.lookup x := by
  induction l using keepFirst.induct with
  | case1 a b rest hab ih =>
    rw [keepFirst, if_pos hab, ih]
    obtain ⟨k, u⟩ := a
    obtain ⟨k', u'⟩ := b
    obtain rfl : k = k' := beq_iff_eq.1 hab
    cases hx : x == k <;> simp [List.lookup_cons, hx]
  | case2 a b rest hab ih =>
    rw [keepFirst, if_neg hab, List.lookup_cons, List.lookup_cons, ih, List.lookup_cons]
  | case3 l hl => rw [keepFirst.eq_2 _ hl]

/-- A lookup finds the first pair with its key. -/
theorem lookup_eq_head?_filter (x : Bytes) (l : List (Bytes × Bytes)) :
    l.lookup x = ((l.filter fun p => x == p.1).head?).map Prod.snd := by
  induction l with
  | nil => rfl
  | cons p l ih =>
    rw [List.lookup_cons, List.filter_cons]
    split <;> simp_all

/-- Merge sort is stable: the elements that all sort together keep their order. -/
theorem filter_mergeSort {α : Type} {le : α → α → Bool}
    (trans : ∀ a b c, le a b = true → le b c = true → le a c = true)
    (total : ∀ a b, (le a b || le b a) = true) {p : α → Bool}
    (hp : ∀ a b, p a = true → p b = true → le a b = true) (l : List α) :
    (l.mergeSort le).filter p = l.filter p := by
  have hsorted : (l.filter p).Pairwise fun a b => le a b = true :=
    List.pairwise_filter.2 (List.pairwise_of_forall fun a b => hp a b)
  have hsub : (l.filter p).Sublist (l.mergeSort le) := List.sublist_mergeSort trans total hsorted
    List.filter_sublist
  have hsub' : (l.filter p).Sublist ((l.mergeSort le).filter p) := by
    have := hsub.filter p
    rwa [List.filter_filter, List.filter_congr fun a _ => Bool.and_self (p a)] at this
  have hlen : (l.filter p).length = ((l.mergeSort le).filter p).length :=
    (((List.mergeSort_perm l le).filter p).length_eq).symm
  exact (hsub'.eq_of_length hlen).symm

/-- Sorting by key keeps the pair a lookup finds. -/
theorem lookup_mergeSort (x : Bytes) (l : List (Bytes × Bytes)) :
    (l.mergeSort fun a b => bytesLe a.1 b.1).lookup x = l.lookup x := by
  rw [lookup_eq_head?_filter, lookup_eq_head?_filter, filter_mergeSort keyLe_trans keyLe_total]
  intro a b ha hb
  rw [← beq_iff_eq.1 ha, ← beq_iff_eq.1 hb]
  exact bytesListLe_refl _

/-- In the map where the first pair with a key wins, a key finds its first pair. -/
theorem lookup_ofPairsFirst (x : Bytes) (ps : List (Bytes × Bytes)) :
    (ofPairsFirst ps).lookup x = ps.lookup x := by
  unfold ofPairsFirst
  rw [lookup_keepFirst, lookup_mergeSort]

/-- Looking a value up among swapped pairs finds the first pair holding it. -/
theorem lookup_map_swap (x : Bytes) (l : List (Bytes × Bytes)) :
    (l.map fun kv => (kv.2, kv.1)).lookup x = (l.find? fun kv => kv.2 == x).map Prod.fst := by
  induction l with
  | nil => rfl
  | cons kv l ih =>
    obtain ⟨k, u⟩ := kv
    rw [List.map_cons, List.lookup_cons, List.find?_cons, ih]
    cases hx : x == u
    · simp [BEq.symm_false hx]
    · simp [(beq_iff_eq.1 hx).symm]

end ByteMap

namespace Cursor

/-! ## Folding the keys of a traversal -/

/-- Folding the keys of a cursor, with more rounds than positions left, is
folding the same step over the keys of the pairs it stands before. -/
theorem Before.keys_go {β : Type} (f : β → Bytes → ForInStep β) (fuel : Nat) :
    ∀ {v : Volume} {ix : Index} {c : Cursor} {R : List Position} (acc : β),
      c.Before (Index.image v ix) R → Index.Ready v ix → R.length < fuel →
      ∃ v' ix', Runs (keys.go f fuel c acc) (v, ix)
        (forIn (m := Id) ((R.map (Index.image v ix).pairAt).map Prod.fst) acc fun k acc => f acc k)
        (v', ix') ∧ Index.Reads v ix v' ix' := by
  induction fuel with
  | zero => exact fun _ _ _ hlen => absurd hlen (Nat.not_lt_zero _)
  | succ fuel ih =>
    intro v ix c R acc hc hr hlen
    obtain ⟨v1, ix1, hnext, hrd⟩ := hc.next hr
    have hc' := hc.settle
    unfold keys.go
    cases R with
    | nil => exact ⟨v1, ix1, runs_bind.2 ⟨_, _, hnext, runs_pure.2 ⟨rfl, rfl⟩⟩, hrd⟩
    | cons q R =>
      unfold Runs
      rw [Runs.run_bind hnext, List.map_cons, List.map_cons, List.forIn_cons]
      dsimp only [List.head?_cons, List.tail_cons, List.length_cons, Option.map_some, Image.keyed,
        Cursor.settle] at hc' hlen ⊢
      have hk : ((Index.image v ix).pairAt q).1 = (Index.image v ix).keyOf ((Index.image v ix).slotAt q) :=
        rfl
      rw [← hk]
      cases hf : f acc ((Index.image v ix).pairAt q).1 with
      | done a => exact ⟨v1, ix1, rfl, hrd⟩
      | yield a =>
        obtain ⟨v2, ix2, hgo, hrd2⟩ := ih a (hc'.agree hrd.agree hr.sound.shaped) hrd.ready (by omega)
        refine ⟨v2, ix2, ?_, hrd.trans hrd2⟩
        rw [hc'.map_pairAt hrd.agree hr.sound.shaped] at hgo
        exact hgo

end Cursor

namespace Index

variable {v : Volume} {ix : Index}

/-- Folding the keys of a fresh cursor over a ready index folds the same step
over the keys of the traversal, and only reads. -/
theorem Ready.keys (hr : Ready v ix) {β : Type} (init : β) (f : β → Bytes → ForInStep β) :
    ∃ v' ix', Runs (Cursor.keys init f) (v, ix)
      (forIn (m := Id) ((image v ix).traversal.map Prod.fst) init fun k acc => f acc k) (v', ix') ∧
        Reads v ix v' ix' := by
  have hstart : Cursor.unstarted.Before (image v ix) (image v ix).positions := rfl
  obtain ⟨v', ix', hgo, hrd⟩ := hstart.keys_go f _ init hr hr.length_positions_lt
  exact ⟨v', ix', runs_bind.2 ⟨_, _, runs_traversalBound, hgo⟩, hrd⟩

end Index

/-! ## Folds of the traversal -/

section Folds

variable {β γ : Type}

/-- A fold step that always goes on is a left fold. -/
theorem forIn_yield (l : List γ) (init : β) (g : β → γ → β) :
    forIn (m := Outcome) l init (fun x acc => .ok (.yield (g acc x))) = .ok (l.foldl g init) :=
  List.forIn_pure_yield_eq_foldl (fun x acc => g acc x) init

theorem forIn_yield_id (l : List γ) (init : β) (g : β → γ → β) :
    forIn (m := Id) l init (fun x acc => .yield (g acc x)) = l.foldl g init :=
  List.forIn_pure_yield_eq_foldl (fun x acc => g acc x) init

/-- Pushing pairs until `n` are held keeps the first `n`. -/
theorem forIn_take {n : Nat} : ∀ (l : List (Bytes × Bytes)) (acc : Array (Bytes × Bytes)),
    acc.size < n →
    forIn (m := Outcome) l acc (fun kv acc =>
      let acc := acc.push (kv.1, kv.2)
      .ok (if acc.size < n then .yield acc else .done acc)) =
      .ok (acc ++ (l.take (n - acc.size)).toArray)
  | [], acc, _ => by simp; rfl
  | kv :: l, acc, h => by
    obtain ⟨m, hm⟩ : ∃ m, n - acc.size = m + 1 := ⟨n - acc.size - 1, by omega⟩
    rw [List.forIn_cons, hm, List.take_succ_cons]
    by_cases hlt : acc.size + 1 < n
    · have ih := forIn_take l (acc.push (kv.1, kv.2)) (by simpa using hlt)
      have hm' : n - (acc.push (kv.1, kv.2)).size = m := by simp; omega
      rw [hm'] at ih
      simp only [Array.size_push, if_pos hlt] at ih ⊢
      exact ih.trans (by simp)
    · have hm0 : m = 0 := by omega
      simp only [Array.size_push, if_neg hlt, hm0]
      simp; rfl

/-- Stopping at the first pair holding a value finds it. -/
theorem forIn_find (x : Bytes) : ∀ l : List (Bytes × Bytes),
    forIn (m := Outcome) l none (fun kv (_ : Option Bytes) =>
      .ok (if kv.2 == x then .done (some kv.1) else .yield none)) =
      .ok ((l.find? fun kv => kv.2 == x).map Prod.fst)
  | [] => rfl
  | kv :: l => by
    rw [List.forIn_cons, List.find?_cons]
    cases hx : kv.2 == x
    · simpa [hx] using forIn_find x l
    · rfl

/-- Counting the calls and keeping the pairs a test accepts is filtering the
pairs numbered from the count. -/
theorem foldl_count_filter (q : Nat → Bytes × Bytes → Bool)
    (g : Nat × Array (Bytes × Bytes) → Bytes × Bytes → Nat × Array (Bytes × Bytes))
    (hg : ∀ ia kv, g ia kv = (ia.1 + 1, if q ia.1 kv then ia.2.push kv else ia.2)) :
    ∀ (l : List (Bytes × Bytes)) (i : Nat) (acc : Array (Bytes × Bytes)),
      (l.foldl g (i, acc)).2.toList = acc.toList ++ ((l.zipIdx i).filter fun x => q x.2 x.1).map Prod.fst
  | [], _, _ => by simp
  | kv :: l, i, acc => by
    rw [List.foldl_cons, hg, foldl_count_filter q g hg l, List.zipIdx_cons, List.filter_cons]
    cases q i kv <;> simp

end Folds

namespace Session

variable {v : Volume} {s : Session} {ix : Index} {α β : Type}

/-! ## Reads through a session -/

/-- A read of a session on the index `ix`: it answers `a` and leaves the
session as it was but for its index, which stays ready, answers every lookup as
`ix` did and traverses the same pairs. The count the session knows and its
cursor are untouched. -/
def Answers (m : SessionM α) (v : Volume) (s : Session) (ix : Index) (a : α) : Prop :=
  ∃ v' ix', Runs m (v, s) a (v', { s with index := some ix' }) ∧ Index.Ready v' ix' ∧
    (∀ k, (Index.image v' ix').lookup k = (Index.image v ix).lookup k) ∧
    (Index.image v' ix').traversal = (Index.image v ix).traversal

section Ready

variable (hix : s.index = some ix) (hr : Index.Ready v ix)
include hix hr

theorem answers_withIndex {m : IndexM α} {a : α} {v' : Volume} {ix' : Index}
    (hm : Runs m (v, ix) a (v', ix')) (hrd : Index.Reads v ix v' ix') :
    Answers (withIndex m) v s ix a :=
  ⟨v', ix', (runs_withIndex hix).2 ⟨v', ix', hm, rfl⟩, hrd.ready, hrd.agree.lookup,
    hrd.agree.traversal hr.sound.shaped⟩

/-- A fold of the pairs through a session answers the fold of its step over
the traversal. -/
theorem answers_pairFold (init : β) (f : β → Bytes → Bytes → Outcome (ForInStep β)) {b : β}
    (hf : forIn (Index.image v ix).traversal init (fun kx acc => f acc kx.1 kx.2) = .ok b) :
    Answers (withIndex (Cursor.pairs init f)) v s ix b := by
  obtain ⟨v', ix', hrun, hrd⟩ := hr.pairs init f
  rw [hf] at hrun
  exact answers_withIndex hix hr hrun hrd

/-- A fold of the keys through a session answers the fold of its step over
the keys of the traversal. -/
theorem answers_keyFold (init : β) (f : β → Bytes → ForInStep β) :
    Answers (withIndex (Cursor.keys init f)) v s ix
      (forIn (m := Id) ((Index.image v ix).traversal.map Prod.fst) init fun k acc => f acc k) := by
  obtain ⟨v', ix', hrun, hrd⟩ := hr.keys init f
  exact answers_withIndex hix hr hrun hrd

end Ready

theorem Answers.bind_pure {m : SessionM α} {a : α} (h : Answers m v s ix a) (g : α → β) :
    Answers (m >>= fun x => pure (g x)) v s ix (g a) := by
  obtain ⟨v', ix', hm, rest⟩ := h
  exact ⟨v', ix', runs_bind.2 ⟨a, _, hm, runs_pure.2 ⟨rfl, rfl⟩⟩, rest⟩

theorem Answers.of_eq {m : SessionM α} {a b : α} (h : Answers m v s ix a) (e : a = b) :
    Answers m v s ix b :=
  e ▸ h

/-! ## The views -/

section Views

variable (hix : s.index = some ix) (hr : Index.Ready v ix)
include hix hr

theorem answers_toList : Answers toList v s ix (Index.image v ix).traversal := by
  unfold toList
  exact ((answers_pairFold hix hr #[] _ (forIn_yield _ _ _)).bind_pure Array.toList).of_eq
    (by simp)

theorem answers_keys : Answers keys v s ix ((Index.image v ix).traversal.map Prod.fst) := by
  unfold keys
  have h := answers_keyFold hix hr #[] fun acc k => .yield (acc.push k)
  rw [forIn_yield_id] at h
  exact (h.bind_pure Array.toList).of_eq (by simp)

theorem answers_values : Answers values v s ix ((Index.image v ix).traversal.map Prod.snd) := by
  unfold values
  exact (answers_toList hix hr).bind_pure _

theorem answers_eachPair (init : β) (f : β → Bytes → Bytes → β) :
    Answers (eachPair init f) v s ix
      ((Index.image v ix).traversal.foldl (fun acc kv => f acc kv.1 kv.2) init) := by
  unfold eachPair
  exact answers_pairFold hix hr init _ (forIn_yield _ _ _)

theorem answers_eachKey (init : β) (f : β → Bytes → β) :
    Answers (eachKey init f) v s ix (((Index.image v ix).traversal.map Prod.fst).foldl f init) := by
  unfold eachKey
  exact (answers_keyFold hix hr init _).of_eq (forIn_yield_id _ _ _)

theorem answers_eachValue (init : β) (f : β → Bytes → β) :
    Answers (eachValue init f) v s ix (((Index.image v ix).traversal.map Prod.snd).foldl f init) := by
  unfold eachValue
  exact (answers_eachPair hix hr init _).of_eq (List.foldl_map ..).symm

theorem answers_keyOf (x : Bytes) :
    Answers (keyOf x) v s ix (((Index.image v ix).traversal.find? fun kv => kv.2 == x).map Prod.fst) := by
  unfold keyOf
  exact answers_pairFold hix hr none _ (forIn_find x _)

theorem answers_select (p : PairFilter) :
    Answers (select p) v s ix
      (((Index.image v ix).traversal.zipIdx.filter fun x => p x.2 x.1.1 x.1.2).map Prod.fst) := by
  unfold select
  exact ((answers_pairFold hix hr (0, #[]) _ (forIn_yield _ _ _)).bind_pure fun ia => ia.2.toList).of_eq
    ((foldl_count_filter (fun i kv => p i kv.1 kv.2) _ (fun _ _ => rfl) _ 0 #[]).trans (by simp))

theorem answers_take (n : Nat) :
    Answers (take n) v s ix ((Index.image v ix).traversal.take n) := by
  unfold take
  by_cases hn : n = 0
  · subst hn
    have hs : { s with index := some ix } = s := by cases s; cases hix; rfl
    refine ⟨v, ix, ?_, hr, fun _ => rfl, rfl⟩
    rw [hs]
    simp only [if_pos]
    exact runs_bind.2 ⟨(), _, runs_requireOpen hix, runs_pure.2 ⟨rfl, rfl⟩⟩
  · simp only [if_neg hn]
    exact ((answers_pairFold hix hr #[] _ (forIn_take _ #[] (Nat.pos_of_ne_zero hn))).bind_pure
      Array.toList).of_eq (by simp)

theorem answers_reject (p : PairFilter) :
    Answers (reject p) v s ix (ByteMap.ofPairs
      (((Index.image v ix).traversal.zipIdx.filter fun x => !p x.2 x.1.1 x.1.2).map Prod.fst)) := by
  unfold reject
  exact ((answers_pairFold hix hr (0, #[]) _ (forIn_yield _ _ _)).bind_pure
    fun ia => ByteMap.ofPairs ia.2.toList).of_eq (congrArg ByteMap.ofPairs
      ((foldl_count_filter (fun i kv => !p i kv.1 kv.2) _
        (fun ia kv => by cases p ia.1 kv.1 kv.2 <;> rfl) _ 0 #[]).trans (by simp)))

theorem answers_toMap : Answers toMap v s ix (ByteMap.ofPairs (Index.image v ix).traversal) := by
  unfold toMap
  exact (answers_toList hix hr).bind_pure _

theorem answers_containsValue (x : Bytes) :
    Answers (containsValue x) v s ix ((Index.image v ix).traversal.find? fun kv => kv.2 == x).isSome := by
  unfold containsValue
  exact ((answers_keyOf hix hr x).bind_pure Option.isSome).of_eq (Option.isSome_map ..)

theorem answers_invert :
    Answers invert v s ix (ByteMap.ofPairsFirst ((Index.image v ix).traversal.map fun kv => (kv.2, kv.1))) := by
  unfold invert
  exact (answers_toList hix hr).bind_pure _

end Views

/-- Filtering numbered pairs keeps a sublist of them. -/
theorem filter_zipIdx_sublist (T : List (Bytes × Bytes)) (q : (Bytes × Bytes) × Nat → Bool) :
    ((T.zipIdx.filter q).map Prod.fst).Sublist T := by
  have h := (List.filter_sublist (p := q) (l := T.zipIdx)).map Prod.fst
  rwa [List.zipIdx_map_fst] at h

/-- What the bulk views of a session answer, in terms of the list `T` of pairs
of its stored map: the keys, the values and the pairs are `T`'s projections;
callbacks fold over it in order; taking and selecting keep its prefix and its
filter (a filter learns each pair's place); the maps hold its pairs, or those
a filter rejects; a value's key is the first of `T` holding it, and the
inverse map sends each value to it. Each view only reads (`Answers`). -/
structure Views (v : Volume) (s : Session) (ix : Index) (T : List (Bytes × Bytes)) : Prop where
  pairs : ∀ k x, (k, x) ∈ T ↔ (Index.image v ix).lookup k = some x
  nodup : (T.map Prod.fst).Nodup
  toList : Answers Session.toList v s ix T
  keys : Answers Session.keys v s ix (T.map Prod.fst)
  values : Answers Session.values v s ix (T.map Prod.snd)
  eachPair : ∀ {β : Type} (init : β) (f : β → Bytes → Bytes → β),
    Answers (Session.eachPair init f) v s ix (T.foldl (fun acc kv => f acc kv.1 kv.2) init)
  eachKey : ∀ {β : Type} (init : β) (f : β → Bytes → β),
    Answers (Session.eachKey init f) v s ix ((T.map Prod.fst).foldl f init)
  eachValue : ∀ {β : Type} (init : β) (f : β → Bytes → β),
    Answers (Session.eachValue init f) v s ix ((T.map Prod.snd).foldl f init)
  take : ∀ n, Answers (Session.take n) v s ix (T.take n)
  select : ∀ p, Answers (Session.select p) v s ix
    ((T.zipIdx.filter fun x => p x.2 x.1.1 x.1.2).map Prod.fst)
  reject : ∀ p, ∃ m : ByteMap, Answers (Session.reject p) v s ix m ∧
    m.Perm ((T.zipIdx.filter fun x => !p x.2 x.1.1 x.1.2).map Prod.fst)
  toMap : ∃ m : ByteMap, Answers Session.toMap v s ix m ∧ m.Perm T
  keyOf : ∀ x, Answers (Session.keyOf x) v s ix ((T.find? fun kv => kv.2 == x).map Prod.fst)
  containsValue : ∀ x, ∃ b, Answers (Session.containsValue x) v s ix b ∧ (b = true ↔ ∃ kv ∈ T, kv.2 = x)
  invert : ∃ m : ByteMap, Answers Session.invert v s ix m ∧
    ∀ x, m.lookup x = (T.find? fun kv => kv.2 == x).map Prod.fst

/-- The bulk views of a session on a ready index are projections of its one
traversal, which lists the stored map's pairs, each key once. -/
theorem bulk_views (hix : s.index = some ix) (hr : Index.Ready v ix) :
    Views v s ix (Index.image v ix).traversal where
  pairs _ _ := Image.mem_traversal hr.sound.shaped
  nodup := Image.nodup_traversal_keys hr.sound.shaped
  toList := answers_toList hix hr
  keys := answers_keys hix hr
  values := answers_values hix hr
  eachPair := answers_eachPair hix hr
  eachKey := answers_eachKey hix hr
  eachValue := answers_eachValue hix hr
  take := answers_take hix hr
  select := answers_select hix hr
  reject p := ⟨_, answers_reject hix hr p, ByteMap.ofPairs_perm
    (((filter_zipIdx_sublist _ _).map Prod.fst).nodup (Image.nodup_traversal_keys hr.sound.shaped))⟩
  toMap := ⟨_, answers_toMap hix hr, ByteMap.ofPairs_perm (Image.nodup_traversal_keys hr.sound.shaped)⟩
  keyOf := answers_keyOf hix hr
  containsValue x := ⟨_, answers_containsValue hix hr x, by simp⟩
  invert := ⟨_, answers_invert hix hr, fun x => by
    rw [ByteMap.lookup_ofPairsFirst, ByteMap.lookup_map_swap]⟩

/-- A writer session over the crowd stored in a new file views its pairs. -/
theorem bulk_views_crowd :
    ∃ v ix, Runs (Index.crowd.forM fun k => Index.store k ⟨#[118]⟩) (Index.laidOut.1, Index.laidOut.2) () (v, ix) ∧
      Index.laidOut.2.dir.bits < ix.dir.bits ∧
      (∀ k ∈ Index.crowd, (Index.image v ix).lookup k = some ⟨#[118]⟩) ∧
      (⟨some ix, .writer, "db", none, .unstarted⟩ : Session).index = some ix ∧ Index.Ready v ix ∧
      Views v ⟨some ix, .writer, "db", none, .unstarted⟩ ix (Index.image v ix).traversal := by
  obtain ⟨v, ix, hrun, hr, -, hin, hbits⟩ := Index.crowd_laidOut (by decide : (⟨#[118]⟩ : Bytes).size ≤ 4096)
  exact ⟨v, ix, hrun, hbits, hin, rfl, hr, bulk_views rfl hr⟩

end Session

end HashFile
