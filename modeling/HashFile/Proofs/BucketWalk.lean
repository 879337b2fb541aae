import HashFile.Proofs.BucketChains
import HashFile.Proofs.WalkOrder

/-!
# Walking a bucket while removing from it

A walk of a bucket starts at a slot `s` and meets the occupied slots cyclically
from it, each `walkStep s` steps in. The walk may remove the entry it stands
on; removal closes the hole by pulling later entries back toward their homes,
and the walk goes on at the removed entry's step. For the walk to meet every
entry once, a removal must never move an entry from ahead of the walk to
behind it. It cannot when no probe path crosses into `s` from the slot before
it (`Uncrossed`): every entry's home then lies between `s` and its slot, so an
entry nearer `s` than the hole has its whole path before the hole and never
moves, and an entry that moves lands on its own path, no nearer `s` than the
hole it fills (`remove_behind`).

Some boundary stays uncrossed in every bucket a table holds: every boundary of
an empty bucket, the one after the slot an insert fills, and every boundary
under removals, which only shorten paths (`Reachable.uncrossed`). So
`walkStart` always finds a boundary no chain enters and never falls back, and
a walk from it, whichever entries it removes, ends having visited each entry
of the bucket once (`walk_survives_removal`).
-/
namespace HashFile

namespace Bucket

/-! ## Distances around the ring -/

section Ring

variable {n s h p o : Nat}

theorem sub_mod_eq_gap {a b : Nat} (ha : a < n) (hb : b < n) : (b + n - a) % n = gap n a b := by
  unfold gap
  split
  · rw [show b + n - a = b - a + n by omega, Nat.add_mod_right, Nat.mod_eq_of_lt (by omega)]
  · exact Nat.mod_eq_of_lt (by omega)

/-- Walking back from `p`, `h` comes no later than `s` exactly when, walking
forward from `s`, `h` comes no later than `p`. -/
theorem gap_le_gap_iff (hs : s < n) (hh : h < n) (hp : p < n) :
    gap n h p ≤ gap n s p ↔ gap n s h ≤ gap n s p := by
  unfold gap
  split_ifs <;> omega

/-- A slot `p` between `s` and `o`, with `h` between `s` and `p`, is nearer `h` than `o` is. -/
theorem gap_lt_gap_of_between (hs : s < n) (hh : h < n) (hp : p < n) (ho : o < n)
    (hhp : gap n s h ≤ gap n s p) (hpo : gap n s p < gap n s o) : gap n h p < gap n h o := by
  unfold gap at *
  split_ifs at * <;> omega

/-- A slot `o` on the way from `h` to `p`, with `h` between `s` and `p`, lies
between `h` and `p` as seen from `s`. -/
theorem between_of_gap_lt (hs : s < n) (hh : h < n) (hp : p < n)
    (hhp : gap n s h ≤ gap n s p) (hop : gap n h o < gap n h p) :
    gap n s h ≤ gap n s o ∧ gap n s o < gap n s p := by
  unfold gap at *
  split_ifs at * <;> omega

/-- A path from `h` to `p` that passes into `s` runs through the slot before `s`. -/
theorem gap_pred_lt (hs : s < n) (hh : h < n) (hx : gap n s p < gap n h p) :
    gap n h ((s + n - 1) % n) < gap n h p := by
  have hpred : (s + n - 1) % n = if s = 0 then n - 1 else s - 1 := by
    split
    · subst s
      rw [Nat.zero_add]
      exact Nat.mod_eq_of_lt (by omega)
    · rw [show s + n - 1 = s - 1 + n by omega, Nat.add_mod_right, Nat.mod_eq_of_lt (by omega)]
  rw [hpred]
  unfold gap at *
  split_ifs at * <;> omega

theorem pred_succ_mod {v : Nat} (hv : v < n) : ((v + 1) % n + n - 1) % n = v := by
  by_cases h : v + 1 = n
  · rw [h, Nat.mod_self, Nat.zero_add, Nat.mod_eq_of_lt (by omega)]
    omega
  · rw [Nat.mod_eq_of_lt (show v + 1 < n by omega), show v + 1 + n - 1 = v + n by omega,
      Nat.add_mod_right, Nat.mod_eq_of_lt hv]

/-- The slot before a boundary is the farthest slot from it. -/
theorem gap_succ_self {v : Nat} (hv : v < n) : gap n ((v + 1) % n) v = n - 1 := by
  unfold gap
  by_cases h : v + 1 = n
  · rw [h, Nat.mod_self]
    split <;> omega
  · rw [Nat.mod_eq_of_lt (by omega)]
    split <;> omega

end Ring

/-! ## Uncrossed boundaries -/

/-- No probe path crosses into the slot `s` from the slot before it: walking
from `s`, every entry's home comes no later than the entry. -/
def Uncrossed (b : Bucket) (s : Nat) : Prop :=
  ∀ q < b.size, (b.slot q).isVacant = false →
    gap b.size s (b.home (b.slot q).hash) ≤ gap b.size s q

variable {b : Bucket} {s : Nat}

theorem home_congr {c : Bucket} (h : c.size = b.size) (hash : Nat) : c.home hash = b.home hash := by
  simp only [home, h]

/-- In a bucket with intact chains the boundary after a vacant slot is
uncrossed: a path into `s` runs through the slot before it. -/
theorem uncrossed_of_vacant_pred (hw : b.WF) (hs : s < b.size)
    (hv : (b.slot ((s + b.size - 1) % b.size)).isVacant = true) : b.Uncrossed s := by
  intro q hq hqv
  have hh := home_lt hw.size_pos (b.slot q).hash
  refine (gap_le_gap_iff hs hh hq).1 (Nat.le_of_not_lt fun hx => ?_)
  have hpred := hw.chained q hq hqv _ (Nat.mod_lt _ hw.size_pos) (gap_pred_lt hs hh hx)
  rw [hpred] at hv
  cases hv

theorem chainEnters_of_uncrossed (hs : s < b.size) (hu : b.Uncrossed s) : b.chainEnters s = false := by
  unfold chainEnters
  dsimp only
  split
  · rfl
  · rw [List.any_eq_false]
    rintro ⟨pos, e⟩ hmem
    obtain ⟨hp, rfl, hev⟩ := mem_occupied.1 hmem
    have hh := home_lt (Nat.zero_lt_of_lt hs) (b.slot pos).hash
    rw [sub_mod_eq_gap hs hp, sub_mod_eq_gap hh hp]
    simpa using (gap_le_gap_iff hs hh hp).2 (hu pos hp hev)

/-- A boundary no chain enters is uncrossed: either the slot before it is
vacant, or no entry's path passes into it. -/
theorem uncrossed_of_chainEnters (hw : b.WF) (hs : s < b.size) (h : b.chainEnters s = false) :
    b.Uncrossed s := by
  unfold chainEnters at h
  dsimp only at h
  split at h
  · next hv => exact uncrossed_of_vacant_pred hw hs hv
  · intro q hq hqv
    have hh := home_lt hw.size_pos (b.slot q).hash
    have hq' := List.any_eq_false.1 h _ (mem_occupied.2 ⟨hq, rfl, hqv⟩)
    rw [sub_mod_eq_gap hs hq, sub_mod_eq_gap hh hq] at hq'
    exact (gap_le_gap_iff hs hh hq).1 (by simpa using hq')

/-! ## Boundaries under removal -/

/-- A property of a scanned bucket and its hole that every move of the scan
keeps holds when the scan ends. -/
theorem Scans.inv {P : Bucket → Nat → Prop}
    (hmove : ∀ b hole pos, hole < b.size → pos < b.size → hole ≠ pos →
      (b.slot pos).isVacant = false →
      gap b.size (b.home (b.slot pos).hash) hole < gap b.size (b.home (b.slot pos).hash) pos →
      P b hole → P (b.moveBack hole pos) pos)
    {r : Bucket} {hole pos : Nat} (hs : b.Scans hole pos r) :
    hole < b.size → pos < b.size → P b hole → ∃ hole', P r hole' := by
  induction hs with
  | stop _ => exact fun _ _ hP => ⟨_, hP⟩
  | @move b r hole pos hstop hm _ ih =>
    intro hh hp hP
    have hn : 0 < b.size := Nat.zero_lt_of_lt hh
    rw [Bool.or_eq_false_iff] at hstop
    have hne : hole ≠ pos := fun he => by simp [he] at hstop
    have hx := (movable_iff hh hp (home_lt hn _)).1 hm
    have hsz : (b.moveBack hole pos).size = b.size := size_move b hole pos
    exact ih (by rw [hsz]; exact hp) (by rw [hsz]; exact Nat.mod_lt _ hn)
      (hmove b hole pos hh hp hne hstop.2 hx hP)
  | skip _ _ _ ih =>
    intro hh _ hP
    exact ih hh (Nat.mod_lt _ (Nat.zero_lt_of_lt hh)) hP

/-- Moving an entry back along its path keeps a boundary it did not cross
uncrossed: its new slot is still past its home. -/
theorem Uncrossed.moveBack (hu : b.Uncrossed s) (hs : s < b.size) {hole pos : Nat}
    (hh : hole < b.size) (hp : pos < b.size) (hne : hole ≠ pos) (hv : (b.slot pos).isVacant = false)
    (hx : gap b.size (b.home (b.slot pos).hash) hole < gap b.size (b.home (b.slot pos).hash) pos) :
    (b.moveBack hole pos).Uncrossed s := by
  have hsz : (b.moveBack hole pos).size = b.size := size_move b hole pos
  intro q hq hqv
  rw [hsz] at hq ⊢
  rw [home_congr hsz]
  have hslot : (b.moveBack hole pos).slot q = _ := slot_move b hh hne q
  rw [hslot] at hqv ⊢
  by_cases hqp : q = pos
  · rw [if_pos hqp] at hqv
    cases hqv
  rw [if_neg hqp] at hqv ⊢
  by_cases hqh : q = hole
  · rw [if_pos hqh]
    subst hqh
    exact (between_of_gap_lt hs (home_lt (Nat.zero_lt_of_lt hs) _) hp
      (hu pos hp hv) hx).1
  · rw [if_neg hqh] at hqv ⊢
    exact hu q hq hqv

theorem size_vacate (b : Bucket) (i : Nat) :
    ({ b with slots := b.slots.set! i Slot.vacant, count := b.count - 1 } : Bucket).size = b.size :=
  size_set b i Slot.vacant

/-- Emptying a slot keeps every boundary uncrossed. -/
theorem Uncrossed.vacate (hu : b.Uncrossed s) (i : Nat) :
    ({ b with slots := b.slots.set! i Slot.vacant, count := b.count - 1 } : Bucket).Uncrossed s := by
  have hsz := size_vacate b i
  intro q hq hqv
  rw [hsz] at hq ⊢
  rw [home_congr hsz]
  have hslot := slot_set b b.depth (b.count - 1) i Slot.vacant q
  rw [hslot] at hqv ⊢
  split at hqv
  · cases hqv
  · rw [if_neg (by assumption)]
    exact hu q hq hqv

/-- Removal keeps every uncrossed boundary uncrossed: it empties a slot and
moves entries back along their paths. -/
theorem Uncrossed.remove (hu : b.Uncrossed s) (hw : b.WF) (hs : s < b.size) {i : Nat}
    (hi : i < b.size) : (b.remove i).2.Uncrossed s := by
  by_cases hv : (b.slot i).isVacant = true
  · rw [remove_of_vacant hv]
    exact hu
  have hsz := size_vacate b i
  obtain ⟨_, h, -⟩ := (scans_remove hw hi (Bool.eq_false_iff.2 hv)).inv
    (P := fun c _ => c.Uncrossed s ∧ c.size = b.size)
    (fun c hole pos hh hp hne hpv hx hP =>
      ⟨hP.1.moveBack (hP.2 ▸ hs) hh hp hne hpv hx, (size_move c hole pos).trans hP.2⟩)
    (by rw [hsz]; exact hi) (by rw [hsz]; exact Nat.mod_lt _ hw.size_pos) ⟨hu.vacate i, hsz⟩
  exact h

theorem size_remove (hw : b.WF) {i : Nat} (hi : i < b.size) : (b.remove i).2.size = b.size := by
  by_cases hv : (b.slot i).isVacant = true
  · rw [remove_of_vacant hv]
  · exact (remove_spec hw hi (Bool.eq_false_iff.2 hv)).2.2.1

/-- Every bucket a table holds has an uncrossed boundary: an empty bucket has
all of them, an insert leaves the boundary after the slot it fills uncrossed,
and removals keep each. -/
theorem Reachable.uncrossed (hb : b.Reachable) : ∃ s < b.size, b.Uncrossed s := by
  induction hb with
  | empty depth elems h =>
    refine ⟨0, by simpa [size, Bucket.empty] using h, fun q _ hqv => ?_⟩
    rw [slot_empty] at hqv
    cases hqv
  | @insert b e hb _ ih =>
    have hw := hb.wf
    by_cases hfull : b.isFull = true
    · rw [insert_of_full hfull]
      exact ih
    obtain ⟨v, hv, hvac, -, hins⟩ := insert_eq hw (Bool.eq_false_iff.2 hfull) e
    rw [hins]
    have hsz : (Bucket.mk b.depth (b.count + 1) (b.slots.set! v e)).size = b.size := size_set b v e
    have hn := hw.size_pos
    have hs : (v + 1) % b.size < b.size := Nat.mod_lt _ hn
    have hu := uncrossed_of_vacant_pred hw hs (by rw [pred_succ_mod hv]; exact hvac)
    refine ⟨(v + 1) % b.size, by rw [hsz]; exact hs, fun q hq hqv => ?_⟩
    rw [hsz] at hq ⊢
    rw [home_congr hsz]
    rw [slot_set] at hqv ⊢
    split
    · next hqv' =>
      obtain ⟨rfl, -⟩ := hqv'
      rw [gap_succ_self hv]
      exact Nat.le_pred_of_lt (gap_lt hs (home_lt hn _))
    · next hqv' =>
      rw [if_neg hqv'] at hqv
      exact hu q hq hqv
  | @remove b i hb hi ih =>
    obtain ⟨s, hs, hu⟩ := ih
    exact ⟨s, by rw [size_remove hb.wf hi]; exact hs, hu.remove hb.wf hs hi⟩

/-- A bucket with an uncrossed boundary has a walk start: the search finds the
first boundary no chain enters, which is uncrossed. -/
theorem walkStart_spec (hw : b.WF) (h : ∃ s < b.size, b.Uncrossed s) :
    ((List.range b.size).find? fun s => !b.chainEnters s) = some b.walkStart ∧
      b.walkStart < b.size ∧ b.chainEnters b.walkStart = false ∧ b.Uncrossed b.walkStart := by
  obtain ⟨s0, hs0, hu0⟩ := h
  have hsome : ((List.range b.size).find? fun s => !b.chainEnters s).isSome := by
    rw [List.find?_isSome]
    exact ⟨s0, List.mem_range.2 hs0, by rw [chainEnters_of_uncrossed hs0 hu0]; rfl⟩
  obtain ⟨s, hfind⟩ := Option.isSome_iff_exists.1 hsome
  have hstart : b.walkStart = s := by
    unfold walkStart
    rw [hfind]
    rfl
  have hs : s < b.size := List.mem_range.1 (List.mem_of_find?_eq_some hfind)
  have hopen : b.chainEnters s = false := by simpa using List.find?_some hfind
  rw [hstart]
  exact ⟨hfind, hs, hopen, uncrossed_of_chainEnters hw hs hopen⟩

/-! ## What removal keeps behind the walk -/

section Removal

variable {c : Bucket} {q : Nat}

/-- What a removal at `q` keeps of the bucket `c`, with the boundary `s`
uncrossed, while its scan runs on `b` with the hole at `hole`: the boundary
stays uncrossed, the hole is no nearer `s` than `q`, every slot nearer `s` than
`q` is as in `c`, and every other slot is vacant or holds an entry of `c`, not
the one removed, from a slot no nearer `s`. -/
structure Behind (c : Bucket) (s q : Nat) (b : Bucket) (hole : Nat) : Prop where
  size_eq : b.size = c.size
  uncrossed : b.Uncrossed s
  hole_far : gap c.size s q ≤ gap c.size s hole
  before : ∀ r < c.size, gap c.size s r < gap c.size s q → b.slot r = c.slot r
  back : ∀ r < c.size, gap c.size s q ≤ gap c.size s r → (b.slot r).isVacant = true ∨
    ∃ r' < c.size, r' ≠ q ∧ gap c.size s r ≤ gap c.size s r' ∧ b.slot r = c.slot r'

/-- A move of the scan keeps what the removal keeps behind the walk: the entry
it moves lies no nearer `s` than the hole, since an entry nearer `s` has its
whole path nearer `s` than the hole, and it lands between the hole and its old
slot. -/
theorem Behind.moveBack (hs : s < c.size) {b : Bucket} {hole pos : Nat} (hd : Behind c s q b hole)
    (hh : hole < b.size) (hp : pos < b.size) (hne : hole ≠ pos) (hv : (b.slot pos).isVacant = false)
    (hx : gap b.size (b.home (b.slot pos).hash) hole < gap b.size (b.home (b.slot pos).hash) pos) :
    Behind c s q (b.moveBack hole pos) pos := by
  have hsz : (b.moveBack hole pos).size = b.size := size_move b hole pos
  have hslot : ∀ i, (b.moveBack hole pos).slot i = _ := slot_move b hh hne
  rw [hd.size_eq] at hh hp hx
  rw [home_congr hd.size_eq] at hx
  have hhm := home_lt (Nat.zero_lt_of_lt hs) (b.slot pos).hash
  have hu := hd.uncrossed pos (by rw [hd.size_eq]; exact hp) hv
  rw [hd.size_eq, home_congr hd.size_eq] at hu
  have hfar : gap c.size s q ≤ gap c.size s pos := Nat.le_of_not_lt fun hnear =>
    Nat.lt_asymm hx (gap_lt_gap_of_between hs hhm hp hh hu (Nat.lt_of_lt_of_le hnear hd.hole_far))
  have hmid := between_of_gap_lt hs hhm hp hu hx
  refine ⟨hsz.trans hd.size_eq,
    hd.uncrossed.moveBack (by rw [hd.size_eq]; exact hs) (by rw [hd.size_eq]; exact hh)
      (by rw [hd.size_eq]; exact hp) hne hv (by rw [hd.size_eq, home_congr hd.size_eq]; exact hx),
    hfar, fun r hr hnear => ?_, fun r hr hfar' => ?_⟩
  · have hrp : r ≠ pos := fun he => by rw [he] at hnear; omega
    have hrh : r ≠ hole := fun he => by rw [he] at hnear; exact absurd hd.hole_far (by omega)
    rw [hslot, if_neg hrp, if_neg hrh]
    exact hd.before r hr hnear
  · rw [hslot]
    split
    · exact .inl rfl
    split
    · next hrh =>
      subst hrh
      rcases hd.back pos hp hfar with hvac | ⟨r', hr', hrq, hle, heq⟩
      · rw [hv] at hvac
        cases hvac
      · exact .inr ⟨r', hr', hrq, by omega, heq⟩
    · exact hd.back r hr hfar'

/-- Removing an entry from a bucket with the boundary `s` uncrossed changes no
slot nearer `s` than the removed one, and leaves every slot at least as far
vacant or holding an entry of the bucket, not the removed one, from a slot no
nearer `s`: entries only move back, and never nearer `s` than the removed slot. -/
theorem remove_behind (hw : c.WF) (hu : c.Uncrossed s) (hs : s < c.size) (hq : q < c.size)
    (hv : (c.slot q).isVacant = false) :
    (∀ r < c.size, gap c.size s r < gap c.size s q → (c.remove q).2.slot r = c.slot r) ∧
      ∀ r < c.size, gap c.size s q ≤ gap c.size s r → ((c.remove q).2.slot r).isVacant = true ∨
        ∃ r' < c.size, r' ≠ q ∧ gap c.size s r ≤ gap c.size s r' ∧ (c.remove q).2.slot r = c.slot r' := by
  have hsz := size_vacate c q
  have hslot := slot_set c c.depth (c.count - 1) q Slot.vacant
  have hstart : Behind c s q { c with slots := c.slots.set! q Slot.vacant, count := c.count - 1 } q := by
    refine ⟨hsz, hu.vacate q, Nat.le_refl _, fun r _ hnear => ?_, fun r _ _ => ?_⟩
    · rw [hslot, if_neg fun he => by rw [he.1] at hnear; exact Nat.lt_irrefl _ hnear]
    · rw [hslot]
      split
      · exact .inl rfl
      · next hrq =>
        by_cases hrv : (c.slot r).isVacant = true
        · exact .inl hrv
        · exact .inr ⟨r, by assumption, fun he => hrq ⟨he, hq⟩, Nat.le_refl _, rfl⟩
  obtain ⟨_, hd⟩ := (scans_remove hw hq hv).inv (P := Behind c s q)
    (fun b hole pos hh hp hne hpv hx hd => hd.moveBack hs hh hp hne hpv hx)
    (by rw [hsz]; exact hq) (by rw [hsz]; exact Nat.mod_lt _ hw.size_pos) hstart
  exact ⟨hd.before, hd.back⟩

end Removal

/-! ## The rest of a walk -/

/-- The occupied slots a walk from `s` meets from its step `t` on, in order. -/
def later (b : Bucket) (s t : Nat) : List Nat :=
  ((cyclic b.size s).drop t).filter fun r => !(b.slot r).isVacant

theorem occupiedFrom_eq_later (b : Bucket) (s t : Nat) :
    b.occupiedFrom s t = (b.later s t).head?.map fun r => (r, b.slot r) := by
  rw [occupiedFrom_eq, later, List.head?_filter]

theorem later_zero (b : Bucket) (s : Nat) : b.later s 0 = b.walkOrder s := by
  rw [later, List.drop_zero]
  rfl

theorem later_eq_nil {t : Nat} (h : b.occupiedFrom s t = none) : b.later s t = [] := by
  rw [occupiedFrom_eq_later, Option.map_eq_none_iff, List.head?_eq_none_iff] at h
  exact h

/-- The slot a walk finds from step `t` is occupied, and the walk's rest from
there is that slot and the rest one step past it. -/
theorem later_of_occupiedFrom (hn : 0 < b.size) {t q : Nat} {e : Slot}
    (h : b.occupiedFrom s t = some (q, e)) :
    e = b.slot q ∧ q < b.size ∧ (b.slot q).isVacant = false ∧
      b.later s t = q :: b.later s (b.walkStep s q + 1) := by
  rw [occupiedFrom_eq_later] at h
  cases hl : b.later s t with
  | nil =>
    rw [hl] at h
    cases h
  | cons q' rest =>
    rw [hl, List.head?_cons, Option.map_some, Option.some.injEq, Prod.mk.injEq] at h
    obtain ⟨rfl, rfl⟩ := h
    obtain ⟨l₁, l₂, hsplit, -, hocc, hrest⟩ := List.filter_eq_cons_iff.1 hl
    have hlen := congrArg List.length hsplit
    rw [List.length_drop, length_cyclic, List.length_append, List.length_cons] at hlen
    have hj : t + l₁.length < b.size := by omega
    have hj' : t + l₁.length < (cyclic b.size s).length := by rw [length_cyclic]; exact hj
    have hl₁ : l₁.length < ((cyclic b.size s).drop t).length := by rw [hsplit]; simp
    have hat : (cyclic b.size s)[t + l₁.length] = q' := by
      have h1 : ((cyclic b.size s).drop t)[l₁.length] = q' := by
        simp only [hsplit, List.getElem_append_right (Nat.le_refl _), Nat.sub_self,
          List.getElem_cons_zero]
      rw [List.getElem_drop] at h1
      exact h1
    rw [getElem_cyclic] at hat
    subst hat
    have hdrop : (cyclic b.size s).drop (t + l₁.length + 1) = l₂ := by
      rw [Nat.add_assoc, ← List.drop_drop, hsplit]
      simp
    refine ⟨rfl, Nat.mod_lt _ hn, by simpa using hocc, ?_⟩
    rw [walkStep_cyclic hn hj, later, hdrop, hrest]

/-! ## The rest of a walk after a removal -/

section Removal

variable {c : Bucket} {q : Nat}

/-- A removal at the slot a walk stands on, with the boundary `s` uncrossed,
leaves from that step on exactly the entries the walk had still to meet past it. -/
theorem later_remove_perm (hw : c.WF) (hu : c.Uncrossed s) (hs : s < c.size) (hq : q < c.size)
    (hv : (c.slot q).isVacant = false) :
    (((c.remove q).2.later s (c.walkStep s q)).map (c.remove q).2.slot).Perm
      ((c.later s (c.walkStep s q + 1)).map c.slot) := by
  obtain ⟨-, hw', hsz, -, hperm⟩ := remove_spec hw hq hv
  have hbefore := (remove_behind hw hu hs hq hv).1
  have hn := hw.size_pos
  have hk : c.walkStep s q = gap c.size s q := by rw [walkStep_eq_gap hn hq, Nat.mod_eq_of_lt hs]
  rw [hk]
  have hearly : ∀ r ∈ (cyclic c.size s).take (gap c.size s q),
      r < c.size ∧ gap c.size s r < gap c.size s q := by
    intro r hr
    obtain ⟨i, hi, rfl⟩ := List.mem_iff_getElem.1 hr
    rw [List.length_take, length_cyclic] at hi
    have hin : i < c.size := by omega
    have hg : gap c.size (s % c.size) ((s + i) % c.size) = i := gap_cyclic hn hin
    rw [Nat.mod_eq_of_lt hs] at hg
    rw [List.getElem_take, getElem_cyclic, hg]
    exact ⟨Nat.mod_lt _ hn, by omega⟩
  have hE : (((cyclic c.size s).take (gap c.size s q)).filter
        fun r => !((c.remove q).2.slot r).isVacant).map (c.remove q).2.slot =
      (((cyclic c.size s).take (gap c.size s q)).filter fun r => !(c.slot r).isVacant).map c.slot := by
    rw [List.filter_congr fun r hr => by rw [hbefore r (hearly r hr).1 (hearly r hr).2]]
    exact List.map_congr_left fun r hr =>
      hbefore r (hearly r (List.mem_of_mem_filter hr)).1 (hearly r (List.mem_of_mem_filter hr)).2
  have hsplit : ∀ b : Bucket, b.size = c.size → b.walkOrder s =
      ((cyclic c.size s).take (gap c.size s q)).filter (fun r => !(b.slot r).isVacant) ++
        b.later s (gap c.size s q) := by
    intro b hb
    rw [walkOrder, later, hb, ← List.filter_append, List.take_append_drop]
  have hlater : c.later s (gap c.size s q) = q :: c.later s (gap c.size s q + 1) := by
    rw [later, List.drop_eq_getElem_cons (by rw [length_cyclic]; exact gap_lt hs hq), getElem_cyclic,
      add_gap_mod hs hq, List.filter_cons_of_pos (by simp [hv])]
    rfl
  have h1 := walkOrder_perm hn s
  have h2 := walkOrder_perm (by rw [hsz]; exact hn) s (b := (c.remove q).2)
  rw [hsplit c rfl, hlater, List.map_append, List.map_cons] at h1
  rw [hsplit _ hsz, List.map_append, hE] at h2
  have h3 := ((h2.append_right [c.slot q]).trans hperm).trans h1.symm
  rw [List.append_assoc] at h3
  exact ((List.perm_append_singleton _ _).symm.trans ((List.perm_append_left_iff _).1 h3)).cons_inv

end Removal

/-! ## Walks -/

/-- What a walk from `s` keeps of the bucket it walks: intact chains, and the
boundary `s` uncrossed. -/
structure Walking (c : Bucket) (s : Nat) : Prop where
  wf : c.WF
  start_lt : s < c.size
  uncrossed : c.Uncrossed s

theorem Walking.remove {c : Bucket} (hc : c.Walking s) {q : Nat} (hq : q < c.size) :
    (c.remove q).2.Walking s := by
  by_cases hv : (c.slot q).isVacant = true
  · rw [remove_of_vacant hv]
    exact hc
  obtain ⟨-, hw', hsz, -, -⟩ := remove_spec hc.wf hq (Bool.eq_false_iff.2 hv)
  exact ⟨hw', by rw [hsz]; exact hc.start_lt, hc.uncrossed.remove hc.wf hc.start_lt hq⟩

/-- A walk of a bucket from the slot `s`, whose visit number `k` removes its
entry when `pick k` says so. At step `t` it visits the first occupied slot at
least `t` steps in, and goes on at that slot's step after removing the entry,
or one step past it after keeping it; with no such slot it ends. It answers
the entries it visited, in order. -/
inductive Walks (s : Nat) (pick : Nat → Bool) : Nat → Bucket → Nat → List Slot → Prop
  | done {k : Nat} {b : Bucket} {t : Nat} : b.occupiedFrom s t = none → Walks s pick k b t []
  | keep {k : Nat} {b : Bucket} {t q : Nat} {e : Slot} {L : List Slot} :
      b.occupiedFrom s t = some (q, e) → pick k = false →
      Walks s pick (k + 1) b (b.walkStep s q + 1) L → Walks s pick k b t (e :: L)
  | drop {k : Nat} {b : Bucket} {t q : Nat} {e : Slot} {L : List Slot} :
      b.occupiedFrom s t = some (q, e) → pick k = true →
      Walks s pick (k + 1) (b.remove q).2 (b.walkStep s q) L → Walks s pick k b t (e :: L)

/-- A walk visits exactly the entries it had still to meet, each once: a kept
entry is passed, and a removal leaves just the entries past it. -/
theorem Walks.perm {pick : Nat → Bool} {k t : Nat} {c : Bucket} {L : List Slot}
    (h : Walks s pick k c t L) (hc : c.Walking s) : L.Perm ((c.later s t).map c.slot) := by
  induction h with
  | done hnone =>
    rw [later_eq_nil hnone]
    exact .nil
  | keep hsome _ _ ih =>
    obtain ⟨rfl, -, -, hl⟩ := later_of_occupiedFrom hc.wf.size_pos hsome
    rw [hl, List.map_cons]
    exact (ih hc).cons _
  | drop hsome _ _ ih =>
    obtain ⟨rfl, hq, hv, hl⟩ := later_of_occupiedFrom hc.wf.size_pos hsome
    rw [hl, List.map_cons]
    exact ((ih (hc.remove hq)).trans
      (later_remove_perm hc.wf hc.uncrossed hc.start_lt hq hv)).cons _

/-- Whatever it removes, a walk ends: each visit leaves one entry fewer to meet. -/
theorem walks_exists (pick : Nat → Bool) (m : Nat) :
    ∀ (k t : Nat) {c : Bucket}, c.Walking s → (c.later s t).length = m →
      ∃ L, Walks s pick k c t L := by
  induction m with
  | zero =>
    intro k t c _ hm
    refine ⟨[], .done ?_⟩
    rw [occupiedFrom_eq_later, List.eq_nil_of_length_eq_zero hm]
    rfl
  | succ m ih =>
    intro k t c hc hm
    cases ho : c.occupiedFrom s t with
    | none =>
      rw [later_eq_nil ho] at hm
      cases hm
    | some qe =>
      obtain ⟨q, e⟩ := qe
      obtain ⟨rfl, hq, hv, hl⟩ := later_of_occupiedFrom hc.wf.size_pos ho
      rw [hl, List.length_cons] at hm
      cases hp : pick k
      · obtain ⟨L, hL⟩ := ih (k + 1) (c.walkStep s q + 1) hc (by omega)
        exact ⟨_, .keep ho hp hL⟩
      · have hlen := (later_remove_perm hc.wf hc.uncrossed hc.start_lt hq hv).length_eq
        rw [List.length_map, List.length_map] at hlen
        obtain ⟨L, hL⟩ := ih (k + 1) (c.walkStep s q) (hc.remove hq) (by omega)
        exact ⟨_, .drop ho hp hL⟩

/-! ## Walking from the walk start -/

/-- What a walk of a bucket from its walk start can rely on. The search for the
start finds a slot, so its fallback is never taken, and no probe chain enters it
from the slot before. Removing an entry changes no slot a walk meets before it,
and every slot at its step or later is vacant or holds an entry, not the one
removed, from a slot at least as many steps in. A walk that removes any
entries it likes ends, having visited every entry of the bucket once. -/
structure WalksSafely (b : Bucket) : Prop where
  start_found : ((List.range b.size).find? fun s => !b.chainEnters s) = some b.walkStart
  start_open : b.chainEnters b.walkStart = false
  keeps_before : ∀ q < b.size, (b.slot q).isVacant = false → ∀ r < b.size,
    b.walkStep b.walkStart r < b.walkStep b.walkStart q → (b.remove q).2.slot r = b.slot r
  moves_back : ∀ q < b.size, (b.slot q).isVacant = false → ∀ r < b.size,
    b.walkStep b.walkStart q ≤ b.walkStep b.walkStart r →
      ((b.remove q).2.slot r).isVacant = true ∨ ∃ r' < b.size, r' ≠ q ∧
        b.walkStep b.walkStart r ≤ b.walkStep b.walkStart r' ∧ (b.remove q).2.slot r = b.slot r'
  ends : ∀ pick, ∃ L, Walks b.walkStart pick 0 b 0 L
  visits : ∀ pick L, Walks b.walkStart pick 0 b 0 L → L.Perm b.entries

/-- Every bucket a table holds can be walked from its walk start while
removing: the start is found, removals never move an entry from ahead of the
walk to behind it, and every walk ends having visited each entry once. -/
theorem walk_survives_removal (hb : b.Reachable) : b.WalksSafely := by
  have hw := hb.wf
  obtain ⟨hfind, hs, hopen, hu⟩ := walkStart_spec hw hb.uncrossed
  have hc : b.Walking b.walkStart := ⟨hw, hs, hu⟩
  have hstep : ∀ r < b.size, b.walkStep b.walkStart r = gap b.size b.walkStart r := fun r hr => by
    rw [walkStep_eq_gap hw.size_pos hr, Nat.mod_eq_of_lt hs]
  refine ⟨hfind, hopen, fun q hq hv r hr hlt => ?_, fun q hq hv r hr hle => ?_,
    fun pick => walks_exists pick _ 0 0 hc rfl, fun pick L hL => ?_⟩
  · rw [hstep r hr, hstep q hq] at hlt
    exact (remove_behind hw hu hs hq hv).1 r hr hlt
  · rw [hstep r hr, hstep q hq] at hle
    rcases (remove_behind hw hu hs hq hv).2 r hr hle with hvac | ⟨r', hr', hrq, hle', heq⟩
    · exact .inl hvac
    · exact .inr ⟨r', hr', hrq, by rw [hstep r hr, hstep r' hr']; exact hle', heq⟩
  · have hL' := hL.perm hc
    rw [later_zero] at hL'
    exact hL'.trans (walkOrder_perm hw.size_pos _)

/-- Three entries of home 3 in a bucket of four slots, the chain wrapping to
slots 0 and 1. -/
def wrappedFour : Bucket :=
  ((((empty 0 4).insert ⟨3, [1, 0, 0, 0], 0, 1, 1⟩).2.insert ⟨7, [2, 0, 0, 0], 2, 1, 1⟩).2.insert
    ⟨11, [3, 0, 0, 0], 4, 1, 1⟩).2

theorem reachable_wrappedFour : wrappedFour.Reachable := by
  unfold wrappedFour
  exact .insert (.insert (.insert (.empty 0 4 (by decide)) (by decide)) (by decide)) (by decide)

/-- The walk of the wrapped chain starts at the vacant slot 2, the one slot no
chain enters, and removing the chain's first entry, met first, pulls the other
two back over the slots the walk has still to meet. -/
theorem walk_survives_removal_wrapped :
    wrappedFour.Reachable ∧ wrappedFour.WalksSafely ∧ wrappedFour.walkStart = 2 ∧
      (wrappedFour.slot 0).hash = 7 ∧ (wrappedFour.slot 1).hash = 11 ∧
      ((wrappedFour.remove 3).2.slot 3).hash = 7 ∧ ((wrappedFour.remove 3).2.slot 0).hash = 11 :=
  ⟨reachable_wrappedFour, walk_survives_removal reachable_wrappedFour, by decide, by decide,
    by decide, by decide, by decide⟩

end Bucket

end HashFile
