import HashFile.Proofs.WalkOrder
import HashFile.Proofs.Ready

/-!
# Traversals of a ready index

A walk of a ready index (`Index.walkFrom`) goes through the positions of
`Image.positions` in order: from a run of the directory it answers the first
position there on (`Index.Ready.walkFrom`), and resumed past a position it
answers the one after (`Index.Ready.walkFrom_after`). A cursor stands before
the positions still to come (`Cursor.Before`); each step answers the next pair
of `Image.traversal` and stands before the rest (`Cursor.Before.nextPair`), and
every step only reads. Folding the pairs of a fresh cursor is therefore folding
the same step over the traversal (`Index.Ready.pairs`): the traversal bound is
never reached, since a traversal visits at most the slots of the directory's
buckets.
-/

namespace HashFile

namespace Image

variable (I : Image)

/-- What a walk answers on landing at a position: the position and its key. -/
def keyed (p : Position) : Position × Bytes := (p, I.keyOf (I.slotAt p))

variable {I}

theorem Agree.keyed {J : Image} (h : I.Agree J) (hI : I.Shaped) {F i : Nat} {p : Position}
    (hp : p ∈ I.positionsFrom F i) : J.keyed p = I.keyed p := by
  unfold Image.keyed
  rw [h.slotAt hp, h.keyOf (slotAt_mem_slots hI hp)]

/-- Images that agree answer the first step of a walk alike. -/
theorem Agree.head?_keyed {J : Image} (h : I.Agree J) (hI : I.Shaped) (F i : Nat) :
    (J.positionsFrom F i).head?.map J.keyed = (I.positionsFrom F i).head?.map I.keyed := by
  rw [h.positionsFrom]
  cases hL : I.positionsFrom F i with
  | nil => rfl
  | cons p _ =>
    rw [List.head?_cons, Option.map_some, Option.map_some,
      h.keyed hI (hL ▸ List.mem_cons_self)]

/-- The key a walk answers on landing at the head of a list of positions is
the key of the list's first pair. -/
theorem keyed_head?_snd (L : List Position) :
    (L.head?.map I.keyed).map Prod.snd = (L.map I.pairAt).head?.map Prod.fst := by
  cases L <;> rfl

/-- A slot of the walk of the bucket at any index of a shaped image is visited
by the traversal, at the head of the index's run. -/
theorem exists_head_mem_positions {i s : Nat} (hi : i < I.dir.size)
    (hs : s ∈ (I.bucket (I.dir.entryAt i)).walkOrder (I.bucket (I.dir.entryAt i)).walkStart) :
    ∃ h, h ≤ i ∧ i < I.dir.nextDistinct h ∧
      (⟨h, I.dir.entryAt i, s, (I.bucket (I.dir.entryAt i)).walkStart⟩ : Position) ∈ I.positions := by
  obtain ⟨h, hh, hhi, hih⟩ := Directory.heads_cover (d := I.dir)
    (show I.dir.size - 0 < I.dir.size + 1 by omega) (Nat.zero_le _) hi
  have heh : I.dir.entryAt i = I.dir.entryAt h :=
    (Directory.nextDistinct_spec (Directory.mem_heads hh).2).2.2.1 _ hhi hih
  exact ⟨h, hhi, hih, List.mem_flatMap.2 ⟨h, hh, mem_bucketPositions.2 ⟨rfl, heh, rfl, hs⟩⟩⟩

/-- The keys of a traversal are the keys at its positions. -/
theorem traversal_keys : I.traversal.map Prod.fst = I.positions.map fun p => (I.pairAt p).1 := by
  rw [traversal, List.map_map]
  rfl

end Image

namespace Index

variable {v v' : Volume} {ix ix' : Index}

theorem Ready.walkFrom (hr : Ready v ix) (fuel i : Nat) :
    ∃ v' ix', Runs (walkFrom fuel i none) (v, ix)
      (((image v ix).positionsFrom fuel i).head?.map (image v ix).keyed) (v', ix') ∧
        Reads v ix v' ix' := by
  induction fuel generalizing v ix i with
  | zero => exact ⟨v, ix, runs_pure.2 ⟨rfl, rfl⟩, Reads.refl hr⟩
  | succ fuel ih =>
    by_cases hi : i < ix.dir.size
    · have hlive := Image.entryAt_mem_live (I := image v ix) hi
      obtain ⟨v1, ix1, hload, hrd⟩ := hr.loadBucket (o := ix.dir.entryAt i) hlive
      have hocc := Bucket.occupiedFrom_zero (bucketAt v ix (ix.dir.entryAt i))
        (bucketAt v ix (ix.dir.entryAt i)).walkStart
      have hpos : (image v ix).positionsFrom (fuel + 1) i = _ := Image.positionsFrom_succ hi
      unfold Image.bucketPositions at hpos
      cases hw : (bucketAt v ix (ix.dir.entryAt i)).walkOrder
          (bucketAt v ix (ix.dir.entryAt i)).walkStart with
      | nil =>
        rw [hw, List.head?_nil, Option.map_none] at hocc
        obtain ⟨v2, ix2, hrest, hrd2⟩ := ih hrd.ready (ix.dir.nextDistinct i)
        refine ⟨v2, ix2, ?_, hrd.trans hrd2⟩
        rw [hrd.agree.head?_keyed hr.sound.shaped] at hrest
        rw [hpos]
        erw [hw]
        rw [List.map_nil, List.nil_append]
        unfold walkFrom
        refine runs_bind.2 ⟨ix, (v, ix), runs_current.2 ⟨rfl, rfl⟩, ?_⟩
        rw [if_pos hi]
        refine runs_bind.2 ⟨_, _, runs_dirEntry.2 ⟨Directory.get?_eq_entryAt hi, rfl⟩,
          runs_bind.2 ⟨_, _, hload, ?_⟩⟩
        dsimp only
        rw [hocc]
        exact hrest
      | cons s rest =>
        rw [hw, List.head?_cons, Option.map_some] at hocc
        obtain ⟨tail, hp⟩ : ∃ tail, (image v ix).positionsFrom (fuel + 1) i =
            ⟨i, ix.dir.entryAt i, s, (bucketAt v ix (ix.dir.entryAt i)).walkStart⟩ :: tail := by
          rw [hpos]
          erw [hw]
          exact ⟨_, rfl⟩
        have hmem := Image.slotAt_mem_slots hr.sound.shaped (hp ▸ List.mem_cons_self)
        have hmem1 : (image v ix).slotAt ⟨i, ix.dir.entryAt i, s, (bucketAt v ix (ix.dir.entryAt i)).walkStart⟩ ∈ (image v1 ix1).slots := by
          rw [hrd.agree.slots]
          exact hmem
        have hkey := hrd.ready.readKey hmem1
        rw [hrd.agree.keyOf hmem] at hkey
        refine ⟨v1, ix1, ?_, hrd⟩
        rw [hp, List.head?_cons, Option.map_some]
        unfold walkFrom
        refine runs_bind.2 ⟨ix, (v, ix), runs_current.2 ⟨rfl, rfl⟩, ?_⟩
        rw [if_pos hi]
        refine runs_bind.2 ⟨_, _, runs_dirEntry.2 ⟨Directory.get?_eq_entryAt hi, rfl⟩,
          runs_bind.2 ⟨_, _, hload, ?_⟩⟩
        dsimp only
        rw [hocc]
        exact runs_bind.2 ⟨_, _, hkey, runs_pure.2 ⟨rfl, rfl⟩⟩
    · refine ⟨v, ix, ?_, Reads.refl hr⟩
      rw [Image.positionsFrom_of_size_le (not_lt.1 hi)]
      unfold walkFrom
      refine runs_bind.2 ⟨ix, (v, ix), runs_current.2 ⟨rfl, rfl⟩, ?_⟩
      rw [if_neg hi]
      exact runs_pure.2 ⟨rfl, rfl⟩

/-- A walk resumed past a slot of a live bucket's walk goes on with the rest of
that walk, then with the runs after its own. -/
theorem Ready.walkFrom_after (hr : Ready v ix) (fuel : Nat) {i st sl : Nat} {pre rest : List Nat}
    (hi : i < ix.dir.size)
    (hw : (bucketAt v ix (ix.dir.entryAt i)).walkOrder st = pre ++ sl :: rest) :
    ∃ v' ix', Runs (Index.walkFrom (fuel + 1) i (some (st, sl, 1))) (v, ix)
      ((rest.map (fun s => (⟨i, ix.dir.entryAt i, s, st⟩ : Position)) ++
          (image v ix).positionsFrom fuel (ix.dir.nextDistinct i)).head?.map
        (image v ix).keyed) (v', ix') ∧ Reads v ix v' ix' := by
  have hlive := Image.entryAt_mem_live (I := image v ix) hi
  obtain ⟨v1, ix1, hload, hrd⟩ := hr.loadBucket (o := ix.dir.entryAt i) hlive
  have hocc : (bucketAt v ix (ix.dir.entryAt i)).occupiedFrom st
      ((bucketAt v ix (ix.dir.entryAt i)).walkStep st sl + 1) = _ :=
    Bucket.occupiedFrom_next (hr.sound.shaped.wf _ hlive).size_pos hw
  cases rest with
  | nil =>
    rw [List.head?_nil, Option.map_none] at hocc
    obtain ⟨v2, ix2, hrest, hrd2⟩ := hrd.ready.walkFrom fuel (ix.dir.nextDistinct i)
    refine ⟨v2, ix2, ?_, hrd.trans hrd2⟩
    rw [hrd.agree.head?_keyed hr.sound.shaped] at hrest
    rw [List.map_nil, List.nil_append]
    unfold Index.walkFrom
    refine runs_bind.2 ⟨ix, (v, ix), runs_current.2 ⟨rfl, rfl⟩, ?_⟩
    rw [if_pos hi]
    refine runs_bind.2 ⟨_, _, runs_dirEntry.2 ⟨Directory.get?_eq_entryAt hi, rfl⟩,
      runs_bind.2 ⟨_, _, hload, ?_⟩⟩
    dsimp only
    rw [hocc]
    exact hrest
  | cons t rest =>
    rw [List.head?_cons, Option.map_some] at hocc
    have hmem : (bucketAt v ix (ix.dir.entryAt i)).slot t ∈ (image v ix).slots :=
      Image.slot_mem_slots hr.sound.shaped hlive
        (show t ∈ (bucketAt v ix (ix.dir.entryAt i)).walkOrder st by rw [hw]; simp)
    have hmem1 : (bucketAt v ix (ix.dir.entryAt i)).slot t ∈ (image v1 ix1).slots := by
      rw [hrd.agree.slots]
      exact hmem
    have hkey := hrd.ready.readKey hmem1
    rw [hrd.agree.keyOf hmem] at hkey
    refine ⟨v1, ix1, ?_, hrd⟩
    rw [List.map_cons, List.cons_append, List.head?_cons, Option.map_some]
    unfold Index.walkFrom
    refine runs_bind.2 ⟨ix, (v, ix), runs_current.2 ⟨rfl, rfl⟩, ?_⟩
    rw [if_pos hi]
    refine runs_bind.2 ⟨_, _, runs_dirEntry.2 ⟨Directory.get?_eq_entryAt hi, rfl⟩,
      runs_bind.2 ⟨_, _, hload, ?_⟩⟩
    dsimp only
    rw [hocc]
    exact runs_bind.2 ⟨_, _, hkey, runs_pure.2 ⟨rfl, rfl⟩⟩

/-- A position of a traversal still names its bucket. -/
theorem runs_isCurrent {p : Position} (hi : p.dirIndex < ix.dir.size)
    (ho : p.bucketOffset = ix.dir.entryAt p.dirIndex) : Runs (isCurrent p) (v, ix) true (v, ix) := by
  unfold isCurrent
  refine runs_bind.2 ⟨ix, (v, ix), runs_current.2 ⟨rfl, rfl⟩, runs_pure.2 ⟨?_, rfl⟩⟩
  rw [Directory.get?_eq_entryAt hi, ho, beq_self_eq_true]

/-- What the lookups at a position of a traversal share: the position is current,
its bucket is live and its slot holds a record. -/
theorem Ready.slotAt_facts (hr : Ready v ix) {F j : Nat} {p : Position}
    (hp : p ∈ (image v ix).positionsFrom F j) :
    Runs (isCurrent p) (v, ix) true (v, ix) ∧ p.bucketOffset ∈ (image v ix).live ∧
      ((image v ix).slotAt p).isVacant = false ∧ (image v ix).slotAt p ∈ (image v ix).slots := by
  obtain ⟨hlt, hb⟩ := Image.mem_positionsFrom hp
  obtain ⟨-, hbo, -, hs⟩ := Image.mem_bucketPositions.1 hb
  have hlive := hbo ▸ Image.entryAt_mem_live hlt
  exact ⟨runs_isCurrent hlt hbo, hlive, Bucket.occupied_of_mem_walkOrder hs,
    Image.slot_mem_slots hr.sound.shaped hlive hs⟩

/-- The key at a position of a traversal is its record's key. -/
theorem Ready.keyAt (hr : Ready v ix) {F j : Nat} {p : Position}
    (hp : p ∈ (image v ix).positionsFrom F j) :
    ∃ v' ix', Runs (keyAt p) (v, ix) (some ((image v ix).keyOf ((image v ix).slotAt p))) (v', ix') ∧
      Reads v ix v' ix' := by
  obtain ⟨hcur, hlive, hocc, hmem⟩ := hr.slotAt_facts hp
  obtain ⟨v1, ix1, hel, hrd⟩ := hr.elementAt hlive p.slot
  have hmem1 : (image v ix).slotAt p ∈ (image v1 ix1).slots := by
    rw [hrd.agree.slots]
    exact hmem
  have hkey := hrd.ready.readKey hmem1
  rw [hrd.agree.keyOf hmem] at hkey
  refine ⟨v1, ix1, ?_, hrd⟩
  unfold Index.keyAt
  refine runs_bind.2 ⟨true, (v, ix), hcur, ?_⟩
  rw [Bool.not_true, if_neg Bool.false_ne_true]
  refine runs_bind.2 ⟨_, _, hel, ?_⟩
  erw [hocc]
  rw [if_neg Bool.false_ne_true]
  exact runs_map.2 ⟨_, hkey, rfl⟩

/-- The value at a position of a traversal is its record's value. -/
theorem Ready.valueAt (hr : Ready v ix) {F j : Nat} {p : Position}
    (hp : p ∈ (image v ix).positionsFrom F j) :
    ∃ v' ix', Runs (valueAt p) (v, ix) (some ((image v ix).valueOf ((image v ix).slotAt p)))
      (v', ix') ∧ Reads v ix v' ix' := by
  obtain ⟨hcur, hlive, hocc, hmem⟩ := hr.slotAt_facts hp
  obtain ⟨v1, ix1, hel, hrd⟩ := hr.elementAt hlive p.slot
  have hmem1 : (image v ix).slotAt p ∈ (image v1 ix1).slots := by
    rw [hrd.agree.slots]
    exact hmem
  have hval := hrd.ready.readValue hmem1
  rw [hrd.agree.valueOf hmem] at hval
  refine ⟨v1, ix1, ?_, hrd⟩
  unfold Index.valueAt
  refine runs_bind.2 ⟨true, (v, ix), hcur, ?_⟩
  rw [Bool.not_true, if_neg Bool.false_ne_true]
  refine runs_bind.2 ⟨_, _, hel, ?_⟩
  erw [hocc]
  rw [if_neg Bool.false_ne_true]
  exact runs_map.2 ⟨_, hval, rfl⟩

/-- In a ready index, the first key is the first key of the traversal. -/
theorem Ready.firstKey (hr : Ready v ix) :
    ∃ v' ix', Runs firstKey (v, ix) ((image v ix).traversal.map Prod.fst).head? (v', ix') ∧
      Reads v ix v' ix' := by
  obtain ⟨v1, ix1, hwalk, hrd⟩ := hr.walkFrom (ix.dir.size + 1) 0
  refine ⟨v1, ix1, ?_, hrd⟩
  unfold Index.firstKey firstEntry walk
  refine runs_bind.2 ⟨_, _, runs_bind.2 ⟨ix, (v, ix), runs_current.2 ⟨rfl, rfl⟩, hwalk⟩,
    runs_pure.2 ⟨?_, rfl⟩⟩
  rw [Image.keyed_head?_snd, Image.traversal, List.head?_map]
  rfl

/-- In a ready index, the position of a stored key is its slot in the bucket its
hash selects, walked from that bucket's walk start; a key not stored has none. -/
theorem Ready.positionOf (hr : Ready v ix) (key : Bytes) :
    ∃ r v' ix', Runs (positionOf key) (v, ix) r (v', ix') ∧ Reads v ix v' ix' ∧
      (r = none ↔ (image v ix).lookup key = none) ∧
      ∀ q, r = some q → q.dirIndex < ix.dir.size ∧ q.bucketOffset = ix.dir.entryAt q.dirIndex ∧
        q.start = (bucketAt v ix q.bucketOffset).walkStart ∧
        q.slot ∈ (bucketAt v ix q.bucketOffset).walkOrder q.start ∧
        (image v ix).keyOf ((image v ix).slotAt q) = key := by
  obtain ⟨loc, v1, ix1, hloc, hrd1⟩ := hr.locate key
  obtain ⟨-, -, -, -, hdi, hoff, hlive, hsome, hnone⟩ := hr.sound.locate hloc
  cases hslot : loc.slot with
  | none =>
    refine ⟨none, v1, ix1, ?_, hrd1, ⟨fun _ => hnone.1 hslot, fun _ => rfl⟩, fun q hq => by cases hq⟩
    unfold Index.positionOf
    refine runs_bind.2 ⟨loc, _, hloc, ?_⟩
    rw [hslot]
    exact runs_pure.2 ⟨rfl, rfl⟩
  | some s =>
    obtain ⟨hlt, hvac, hkey⟩ := hsome s hslot
    have ho1 : loc.bucketOffset ∈ (image v1 ix1).live := by rw [hrd1.live]; exact hlive
    obtain ⟨v2, ix2, hload, hrd2⟩ := hrd1.ready.loadBucket ho1
    rw [hrd1.bucketAt hlive] at hload
    have hsize : loc.dirIndex < ix.dir.size := by
      have := hr.sound.shaped.aligned.size_eq
      simp only [image] at this
      rw [hdi, this]
      exact dirIndex_lt (Key.hash_lt key) hr.sound.shaped.bits_le
    refine ⟨some ⟨loc.dirIndex, loc.bucketOffset, s, (bucketAt v ix loc.bucketOffset).walkStart⟩,
      v2, ix2, ?_, hrd1.trans hrd2, ⟨fun h => (by cases h), fun h => ?_⟩, fun q hq => ?_⟩
    · unfold Index.positionOf
      refine runs_bind.2 ⟨loc, _, hloc, ?_⟩
      rw [hslot]
      exact runs_bind.2 ⟨_, _, hload, runs_pure.2 ⟨rfl, rfl⟩⟩
    · have hs := hnone.2 h
      rw [hslot] at hs
      cases hs
    · cases hq
      have hn := (hr.sound.shaped.wf _ hlive).size_pos
      exact ⟨hsize, hoff, rfl, Bucket.mem_walkOrder hn hlt hvac, hkey⟩

/-- Resumed past a position of the traversal, from any index of its run, a walk
answers the key of the pair after it. -/
theorem Ready.entryAfter (hr : Ready v ix) {A R : List Position} {p : Position}
    (hp : (image v ix).positions = A ++ p :: R) {i : Nat} (hhi : p.dirIndex ≤ i)
    (hin : i < ix.dir.nextDistinct p.dirIndex) :
    ∃ r v' ix', Runs (Index.entryAfter ⟨i, p.bucketOffset, p.slot, p.start⟩) (v, ix) r (v', ix') ∧
      r.map Prod.snd = (R.map (image v ix).pairAt).head?.map Prod.fst ∧ Reads v ix v' ix' := by
  obtain ⟨hh, ho, -, pre, rest, hw, hR⟩ := Image.positions_eq_append hr.sound.shaped hp
  obtain ⟨-, -, hrun, -⟩ := Directory.nextDistinct_spec hh
  have hi : i < ix.dir.size := Nat.lt_of_lt_of_le hin (Directory.nextDistinct_spec hh).2.1
  have hei : ix.dir.entryAt i = p.bucketOffset := (hrun i hhi hin).trans ho.symm
  have hnd : ix.dir.nextDistinct i = ix.dir.nextDistinct p.dirIndex :=
    Directory.nextDistinct_eq_of_run hh hhi hin
  have hw' : (bucketAt v ix (ix.dir.entryAt i)).walkOrder p.start = pre ++ p.slot :: rest := by
    rw [hei]
    exact hw
  obtain ⟨v', ix', hwalk, hrd⟩ := hr.walkFrom_after ix.dir.size hi hw'
  refine ⟨_, v', ix', runs_bind.2 ⟨ix, (v, ix), runs_current.2 ⟨rfl, rfl⟩, hwalk⟩, ?_, hrd⟩
  rw [Image.keyed_head?_snd, hR, hnd, hei]
  simp only [List.map_append, List.map_map]
  rfl

/-- In a ready index, the key after a stored key is the next key of the
traversal, and a key not stored has none after it. -/
theorem Ready.nextKey (hr : Ready v ix) (key : Bytes) :
    ∃ r v' ix', Runs (nextKey key) (v, ix) r (v', ix') ∧ Reads v ix v' ix' ∧
      (key ∉ (image v ix).traversal.map Prod.fst → r = none) ∧
      ∀ A R, (image v ix).traversal.map Prod.fst = A ++ key :: R → r = R.head? := by
  obtain ⟨r0, v1, ix1, hpos, hrd1, hnone, hsome⟩ := hr.positionOf key
  have hI := hr.sound.shaped
  cases hr0 : r0 with
  | none =>
    have hmiss : key ∉ (image v ix).traversal.map Prod.fst := by
      intro hk
      obtain ⟨⟨k, x⟩, hkx, rfl⟩ := List.mem_map.1 hk
      have hl := (Image.mem_traversal hI).1 hkx
      rw [hnone.1 hr0] at hl
      cases hl
    refine ⟨none, v1, ix1, ?_, hrd1, fun _ => rfl, fun A R hK => absurd (hK ▸ List.mem_append_right A
      List.mem_cons_self) hmiss⟩
    unfold Index.nextKey
    refine runs_bind.2 ⟨none, _, hr0 ▸ hpos, runs_pure.2 ⟨rfl, rfl⟩⟩
  | some q =>
    obtain ⟨hq, ho, hst, hs, hkey⟩ := hsome q hr0
    obtain ⟨di, o, sl, st⟩ := q
    dsimp only at hq ho hst hs hkey
    subst ho hst
    obtain ⟨h, hhq, hqh, hpm⟩ := Image.exists_head_mem_positions (I := image v ix) hq hs
    obtain ⟨A0, R0, hsplit⟩ := List.append_of_mem hpm
    have hsplit1 := hrd1.agree.positions.trans hsplit
    have hdir : ix1.dir = ix.dir := hrd1.keeps.dir
    obtain ⟨r, v2, ix2, hafter, hans, hrd2⟩ := hrd1.ready.entryAfter hsplit1
      (i := di) hhq (by rw [hdir]; exact hqh)
    have hR0 : R0.map (image v1 ix1).pairAt = R0.map (image v ix).pairAt :=
      List.map_congr_left fun x hx => hrd1.agree.pairAt hI
        (hsplit ▸ List.mem_append_right _ (List.mem_cons_of_mem _ hx))
    rw [hR0] at hans
    have hK : (image v ix).traversal.map Prod.fst =
        A0.map (fun x => ((image v ix).pairAt x).1) ++ key ::
          (R0.map (image v ix).pairAt).map Prod.fst := by
      rw [Image.traversal_keys, hsplit, List.map_append, List.map_cons, List.map_map]
      rw [← hkey]
      rfl
    refine ⟨r.map Prod.snd, v2, ix2, ?_, hrd1.trans hrd2,
      fun hk => absurd (hK ▸ List.mem_append_right _ List.mem_cons_self) hk, fun A R hAR => ?_⟩
    · unfold Index.nextKey
      rw [hr0] at hpos
      exact runs_bind.2 ⟨_, _, hpos, runs_bind.2 ⟨r, _, hafter, runs_pure.2 ⟨rfl, rfl⟩⟩⟩
    · have hnd := Image.nodup_traversal_keys hI
      rw [hK] at hnd
      obtain ⟨-, hRR⟩ := append_cons_inj_of_nodup hnd (hK.symm.trans hAR)
      rw [hans, ← hRR]
      exact List.head?_map.symm

end Index

namespace Cursor

variable {v v' : Volume} {ix ix' : Index}

/-- Where a cursor stands in a traversal of `I`, before the positions `R`: a
fresh cursor before all of them, a cursor on the key of a position before those
after it, an exhausted cursor before none. -/
def Before (I : Image) : Cursor → List Position → Prop
  | .unstarted, R => R = I.positions
  | .onKey p key, R => ∃ A, I.positions = A ++ p :: R ∧ key = I.keyOf (I.slotAt p)
  | .exhausted, R => R = []

variable {I J : Image} {c : Cursor} {R : List Position}

/-- The positions a cursor stands before end the traversal. -/
theorem Before.suffix (hc : c.Before I R) : ∃ A, I.positions = A ++ R := by
  cases c with
  | unstarted => exact ⟨[], hc ▸ rfl⟩
  | onKey p key =>
    obtain ⟨A, hA, -⟩ := hc
    exact ⟨A ++ [p], by rw [hA, List.append_assoc, List.singleton_append]⟩
  | exhausted => exact ⟨I.positions, by rw [show R = [] from hc, List.append_nil]⟩

theorem Before.mem (hc : c.Before I R) {q : Position} (hq : q ∈ R) : q ∈ I.positions := by
  obtain ⟨A, hA⟩ := hc.suffix
  exact hA ▸ List.mem_append_right A hq

theorem Before.onKey_mem {p : Position} {key : Bytes} (hc : (onKey p key).Before I R) :
    p ∈ I.positions := by
  obtain ⟨A, hA, -⟩ := hc
  exact hA ▸ List.mem_append_right A List.mem_cons_self

/-- Images that agree see the next step of a cursor alike. -/
theorem Before.head?_keyed (hc : c.Before I R) (h : I.Agree J) (hI : I.Shaped) :
    R.head?.map J.keyed = R.head?.map I.keyed := by
  cases R with
  | nil => rfl
  | cons q R =>
    rw [List.head?_cons, Option.map_some, Option.map_some, h.keyed hI (hc.mem List.mem_cons_self)]

/-- A cursor that moves onto what a walk finds stands before the rest. -/
theorem Before.settle (hc : c.Before I R) : (Cursor.settle (R.head?.map I.keyed)).2.Before I R.tail := by
  cases R with
  | nil => rfl
  | cons q R =>
    obtain ⟨A, hA⟩ := hc.suffix
    exact ⟨A, hA, rfl⟩

/-- Where a cursor stands does not change under reads. -/
theorem Before.agree (hc : c.Before I R) (h : I.Agree J) (hI : I.Shaped) : c.Before J R := by
  cases c with
  | unstarted =>
    show R = J.positions
    rw [h.positions]
    exact hc
  | onKey p key =>
    obtain ⟨A, hA, hk⟩ := hc
    have hp : p ∈ I.positions := hA ▸ List.mem_append_right A List.mem_cons_self
    refine ⟨A, by rw [h.positions, hA], ?_⟩
    rw [hk]
    exact (congrArg Prod.snd (h.keyed hI hp)).symm
  | exhausted => exact hc

theorem Before.next (hc : c.Before (Index.image v ix) R) (hr : Index.Ready v ix) :
    ∃ v' ix', Runs c.next (v, ix) (Cursor.settle (R.head?.map (Index.image v ix).keyed)) (v', ix') ∧
      Index.Reads v ix v' ix' := by
  cases c with
  | unstarted =>
    obtain ⟨v1, ix1, hwalk, hrd⟩ := hr.walkFrom (ix.dir.size + 1) 0
    refine ⟨v1, ix1, ?_, hrd⟩
    rw [show R = (Index.image v ix).positions from hc]
    unfold Cursor.next first Index.firstEntry Index.walk
    exact runs_bind.2 ⟨_, _, runs_bind.2 ⟨ix, (v, ix), Index.runs_current.2 ⟨rfl, rfl⟩, hwalk⟩,
      runs_pure.2 ⟨rfl, rfl⟩⟩
  | onKey p key =>
    have hp := hc.onKey_mem
    obtain ⟨v1, ix1, hkey, hrd⟩ := hr.keyAt hp
    have hkeyed := hc.head?_keyed hrd.agree hr.sound.shaped
    obtain ⟨A, hA, hk⟩ := hc
    rw [← hk] at hkey
    have hp1 : p ∈ (Index.image v1 ix1).positions := by
      rw [hrd.agree.positions]
      exact hp
    have hcur := (hrd.ready.slotAt_facts hp1).1
    have hA1 : (Index.image v1 ix1).positions = A ++ p :: R := by
      rw [hrd.agree.positions]
      exact hA
    obtain ⟨hi, ho, -, pre, rest, hw, hR⟩ := Image.positions_eq_append hrd.ready.sound.shaped hA1
    obtain ⟨i, o, sl, st⟩ := p
    dsimp only at hi ho hw hR
    subst ho
    obtain ⟨v2, ix2, hwalk, hrd2⟩ := hrd.ready.walkFrom_after ix1.dir.size hi hw
    have hwalk' : Runs (Index.walkFrom (ix1.dir.size + 1) i (some (st, sl, 1))) (v1, ix1)
        (R.head?.map (Index.image v1 ix1).keyed) (v2, ix2) := by
      rw [hR]
      exact hwalk
    rw [hkeyed] at hwalk'
    refine ⟨v2, ix2, ?_, hrd.trans hrd2⟩
    unfold Cursor.next
    refine runs_bind.2 ⟨_, _, hkey, runs_bind.2 ⟨_, _, hcur, ?_⟩⟩
    rw [if_pos (show (some key == some key) = true from (bytes_beq_iff key key).2 rfl)]
    unfold Index.entryAfter Index.walk
    exact runs_bind.2 ⟨_, _, runs_bind.2 ⟨ix1, (v1, ix1), Index.runs_current.2 ⟨rfl, rfl⟩, hwalk'⟩,
      runs_pure.2 ⟨rfl, rfl⟩⟩
  | exhausted =>
    rw [show R = [] from hc]
    exact ⟨v, ix, runs_pure.2 ⟨rfl, rfl⟩, Index.Reads.refl hr⟩

/-- A step of a cursor answers the next pair of the traversal and stands before
the rest. -/
theorem Before.nextPair (hc : c.Before (Index.image v ix) R) (hr : Index.Ready v ix) :
    ∃ c' v' ix', Runs c.nextPair (v, ix) (R.head?.map (Index.image v ix).pairAt, c') (v', ix') ∧
      Index.Reads v ix v' ix' ∧ c'.Before (Index.image v ix) R.tail := by
  obtain ⟨v1, ix1, hnext, hrd⟩ := hc.next hr
  have hset := hc.settle
  cases R with
  | nil =>
    refine ⟨.exhausted, v1, ix1, ?_, hrd, hset⟩
    unfold Cursor.nextPair
    exact runs_bind.2 ⟨_, _, hnext, runs_pure.2 ⟨rfl, rfl⟩⟩
  | cons q R =>
    have hq : q ∈ (Index.image v ix).positions := hc.mem List.mem_cons_self
    have hq1 : q ∈ (Index.image v1 ix1).positions := by
      rw [hrd.agree.positions]
      exact hq
    obtain ⟨v2, ix2, hval, hrd2⟩ := hrd.ready.valueAt hq1
    have hv : (Index.image v1 ix1).valueOf ((Index.image v1 ix1).slotAt q) =
        (Index.image v ix).valueOf ((Index.image v ix).slotAt q) :=
      congrArg Prod.snd (hrd.agree.pairAt hr.sound.shaped hq)
    rw [hv] at hval
    refine ⟨_, v2, ix2, ?_, hrd.trans hrd2, hset⟩
    unfold Cursor.nextPair
    refine runs_bind.2 ⟨_, _, hnext, ?_⟩
    simp only [List.head?_cons, Option.map_some]
    dsimp only [Cursor.settle, Cursor.position]
    exact runs_bind.2 ⟨_, _, hval, runs_pure.2 ⟨rfl, rfl⟩⟩

theorem Before.map_pairAt (hc : c.Before I R) (h : I.Agree J) (hI : I.Shaped) :
    R.map J.pairAt = R.map I.pairAt :=
  List.map_congr_left fun _ hq => h.pairAt hI (hc.mem hq)

/-- Folding the pairs of a cursor, with more rounds than pairs left, is folding
the same step over the pairs it stands before. -/
theorem Before.pairs_go {β : Type} (f : β → Bytes → Bytes → Outcome (ForInStep β)) (fuel : Nat) :
    ∀ {v : Volume} {ix : Index} {c : Cursor} {R : List Position} (acc : β),
      c.Before (Index.image v ix) R → Index.Ready v ix → R.length < fuel →
      ∃ v' ix', (pairs.go f fuel c acc).run.run (v, ix) =
        (forIn (R.map (Index.image v ix).pairAt) acc (fun kx acc => f acc kx.1 kx.2), (v', ix')) ∧
        Index.Reads v ix v' ix' := by
  induction fuel with
  | zero => exact fun _ _ _ hlen => absurd hlen (Nat.not_lt_zero _)
  | succ fuel ih =>
    intro v ix c R acc hc hr hlen
    obtain ⟨c', v1, ix1, hstep, hrd, hc'⟩ := hc.nextPair hr
    unfold pairs.go
    rw [Runs.run_bind hstep]
    cases R with
    | nil => exact ⟨v1, ix1, rfl, hrd⟩
    | cons q R =>
      have hR : c'.Before (Index.image v1 ix1) R := hc'.agree hrd.agree hr.sound.shaped
      rw [List.head?_cons, Option.map_some, List.map_cons, List.forIn_cons]
      generalize (Index.image v ix).pairAt q = kx
      obtain ⟨k, x⟩ := kx
      dsimp only
      cases hf : f acc k x with
      | error e => exact ⟨v1, ix1, rfl, hrd⟩
      | ok st =>
        cases st with
        | done a => exact ⟨v1, ix1, rfl, hrd⟩
        | yield a =>
          obtain ⟨v2, ix2, hgo, hrd2⟩ := ih a hR hrd.ready (by simp at hlen; omega)
          refine ⟨v2, ix2, ?_, hrd.trans hrd2⟩
          have hc'' : c'.Before (Index.image v ix) R := hc'
          rw [hc''.map_pairAt hrd.agree hr.sound.shaped] at hgo
          exact hgo

end Cursor

namespace Index

variable {v : Volume} {ix : Index}

theorem runs_traversalBound :
    Runs Cursor.traversalBound (v, ix) (ix.dir.size * ix.file.header.bucketElems + 2) (v, ix) := by
  unfold Cursor.traversalBound
  exact runs_bind.2 ⟨ix, _, runs_current.2 ⟨rfl, rfl⟩, runs_pure.2 ⟨rfl, rfl⟩⟩

/-- A traversal of a ready index takes fewer steps than its bound. -/
theorem Ready.length_positions_lt (hr : Ready v ix) :
    (image v ix).positions.length < ix.dir.size * ix.file.header.bucketElems + 2 := by
  have hlen := Image.length_positionsFrom_le hr.sound.shaped (ix.dir.size + 1) 0
  rw [Nat.sub_zero] at hlen
  exact Nat.lt_of_le_of_lt hlen (Nat.lt_add_of_pos_right (by decide))

/-- Folding the pairs of a fresh cursor over a ready index folds the same step
over the traversal, and only reads. -/
theorem Ready.pairs (hr : Ready v ix) {β : Type} (init : β)
    (f : β → Bytes → Bytes → Outcome (ForInStep β)) :
    ∃ v' ix', (Cursor.pairs init f).run.run (v, ix) =
      (forIn (image v ix).traversal init (fun kx acc => f acc kx.1 kx.2), (v', ix')) ∧
        Reads v ix v' ix' := by
  have hstart : Cursor.unstarted.Before (image v ix) (image v ix).positions := rfl
  obtain ⟨v', ix', hgo, hrd⟩ := hstart.pairs_go f _ init hr hr.length_positions_lt
  refine ⟨v', ix', ?_, hrd⟩
  unfold Cursor.pairs
  rw [Runs.run_bind runs_traversalBound]
  exact hgo

end Index

end HashFile
