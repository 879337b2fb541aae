import HashFile.Proofs.Probing

/-!
# Closing a hole

`Bucket.remove` empties a slot and then scans forward from it, moving back
into the hole every entry whose probe path runs through the hole. While it
scans, the only vacant slot an entry's path may cross is the hole
(`ChainedBut`), and every slot the scan has passed since the hole was made holds
an entry whose path stays clear of the hole (`Closing`). When the scan meets a
vacant slot, or comes round to the hole, no path crosses the hole any more and
the bucket is chained again (`chained_of_closing`).

The scan ends in time because its fuel, `size * (size * size + 1)`, is more
than the measure `displacement * size + size - k`, where `displacement` sums how
far each entry sits past its home and `k` is how far the scan is past the hole:
a skip raises `k` by one, and a move lowers the displacement by at least one
(`shiftBack_closes`).
-/
namespace HashFile

namespace Bucket

/-! ## Ring distances -/

/-- On a path from `a`, a slot before `c` splits the way to `c` in two. -/
theorem gap_add {n a b c : Nat} (ha : a < n) (hb : b < n) (hc : c < n)
    (h : gap n a b ≤ gap n a c) : gap n a c = gap n a b + gap n b c := by
  unfold gap at *
  split at h <;> split at h <;> split <;> split <;> omega

/-- Two hops that stay within one turn add up. -/
theorem gap_trans {n a b c : Nat} (ha : a < n) (hb : b < n)
    (h : gap n a b + gap n b c < n) : gap n a c = gap n a b + gap n b c := by
  unfold gap at *
  split at h <;> split at h <;> split <;> omega

/-- `movable` asks whether the hole lies on the path from `h` to `pos`. -/
theorem movable_iff {n hole pos h : Nat} (hh : hole < n) (hp : pos < n) (hn : h < n) :
    movable hole pos h = true ↔ gap n h hole < gap n h pos := by
  unfold movable gap
  split <;> split <;> split <;> simp <;> omega

/-! ## Invariants of the scan -/

/-- Every entry is reached from its home through occupied slots, except that
the slot `hole` may be vacant on the way. -/
def ChainedBut (b : Bucket) (hole : Nat) : Prop :=
  ∀ q < b.size, (b.slot q).isVacant = false →
    ∀ r < b.size, gap b.size (b.home (b.slot q).hash) r < gap b.size (b.home (b.slot q).hash) q →
      r ≠ hole → (b.slot r).isVacant = false

/-- The probe path of the entry at `q` runs through `hole`. -/
def Crosses (b : Bucket) (hole q : Nat) : Prop :=
  gap b.size (b.home (b.slot q).hash) hole < gap b.size (b.home (b.slot q).hash) q

/-- The scan stands `k` slots past a vacant `hole`; the slots in between are
occupied by entries whose paths stay clear of the hole. -/
structure Closing (b : Bucket) (hole k : Nat) : Prop where
  hole_lt : hole < b.size
  pos_k : 0 < k
  k_le : k ≤ b.size
  hole_vacant : (b.slot hole).isVacant = true
  chained : b.ChainedBut hole
  passed : ∀ r < b.size, 0 < gap b.size hole r → gap b.size hole r < k →
    (b.slot r).isVacant = false ∧ ¬ b.Crosses hole r

/-- Once the scan meets a vacant slot or comes round to the hole, no path
crosses the hole, so the bucket is chained. -/
theorem chained_of_closing {b : Bucket} {hole k : Nat} (hc : b.Closing hole k)
    (hstop : k = b.size ∨ (b.slot ((hole + k) % b.size)).isVacant = true) : b.Chained := by
  have hn : 0 < b.size := Nat.lt_of_le_of_lt (Nat.zero_le _) hc.hole_lt
  intro q hq hqv r hr hgap
  by_cases hrh : r = hole
  · subst hrh
    have hh := home_lt hn (b.slot q).hash
    have hqh : q ≠ r := fun h => by rw [h, hc.hole_vacant] at hqv; cases hqv
    have hsplit := gap_add hh hc.hole_lt hq (Nat.le_of_lt hgap)
    have hpos : 0 < gap b.size r q := by
      refine Nat.pos_of_ne_zero fun h0 => hqh ?_
      exact (gap_inj hc.hole_lt hc.hole_lt hq (by rw [gap_self, h0])).symm
    have hin : gap b.size r q < k := by
      refine Nat.lt_of_not_le fun hk => ?_
      rcases hstop with hk' | hvac
      · exact absurd (gap_lt hc.hole_lt hq) (by omega)
      · have hqn := gap_lt hc.hole_lt hq
        have hkn : k < b.size := Nat.lt_of_le_of_lt hk hqn
        have hpn : (r + k) % b.size < b.size := Nat.mod_lt _ hn
        have hp : gap b.size r ((r + k) % b.size) = k := gap_add_mod hc.hole_lt hkn
        have hpq : (r + k) % b.size ≠ q := fun h => by rw [h, hqv] at hvac; cases hvac
        have hlt : k < gap b.size r q := by
          refine Nat.lt_of_le_of_ne hk fun h => hpq ?_
          exact gap_inj hc.hole_lt hpn hq (by rw [hp, h])
        have hhp : gap b.size (b.home (b.slot q).hash) ((r + k) % b.size) =
            gap b.size (b.home (b.slot q).hash) r + k := by
          rw [gap_trans hh hc.hole_lt (by rw [hp]; have := gap_lt hh hq; omega), hp]
        have hpne : (r + k) % b.size ≠ r := fun h => by
          rw [h, gap_self] at hp; exact absurd hp (Nat.ne_of_lt hc.pos_k)
        have := hc.chained q hq hqv _ hpn (by omega) hpne
        rw [this] at hvac
        cases hvac
    exact absurd hgap (hc.passed q hq hpos hin).2
  · exact hc.chained q hq hqv r hr hgap hrh

/-! ## How far entries sit from home -/

/-- How far the entry at a slot sits past its home; nothing for a vacant slot. -/
def drift (b : Bucket) (q : Nat) : Nat :=
  if (b.slot q).isVacant then 0 else gap b.size (b.home (b.slot q).hash) q

/-- How far the entries sit past their homes, in all. -/
def displacement (b : Bucket) : Nat := ((List.range b.size).map b.drift).sum

/-- Changing a function at one point of a list without repeats changes the sum
by the difference there. -/
theorem sum_map_eq_off {l : List Nat} (hl : l.Nodup) {x : Nat} (hx : x ∈ l) {f g : Nat → Nat}
    (h : ∀ i, i ≠ x → g i = f i) : (l.map g).sum + f x = (l.map f).sum + g x := by
  induction l with
  | nil => simp at hx
  | cons i l ih =>
    rw [List.nodup_cons] at hl
    by_cases hi : i = x
    · subst hi
      have hrest : l.map g = l.map f :=
        List.map_congr_left fun j hj => h j fun he => hl.1 (he ▸ hj)
      simp only [List.map_cons, List.sum_cons, hrest]
      omega
    · have hx' : x ∈ l := by simpa [Ne.symm hi] using hx
      simp only [List.map_cons, List.sum_cons, h i hi]
      have := ih hl.2 hx'
      omega

theorem sum_map_le {l : List Nat} {f : Nat → Nat} {m : Nat} (h : ∀ i ∈ l, f i ≤ m) :
    (l.map f).sum ≤ l.length * m := by
  induction l with
  | nil => simp
  | cons i l ih =>
    simp only [List.map_cons, List.sum_cons, List.length_cons, Nat.succ_mul]
    have := ih fun j hj => h j (List.mem_cons_of_mem _ hj)
    have := h i List.mem_cons_self
    omega

theorem displacement_le (b : Bucket) (hn : 0 < b.size) :
    b.displacement ≤ b.size * b.size := by
  have := sum_map_le (l := List.range b.size) (f := b.drift) (m := b.size) fun q hq => by
    unfold drift
    split
    · exact Nat.zero_le _
    · exact Nat.le_of_lt (gap_lt (home_lt hn _) (List.mem_range.1 hq))
  simpa [displacement] using this

/-! ## One step of the scan -/

/-- The bucket after moving the entry at `pos` into `hole`. -/
theorem slot_move (b : Bucket) {hole pos : Nat} (hh : hole < b.size) (hne : hole ≠ pos) (i : Nat) :
    ({ b with slots := (b.slots.set! hole (b.slot pos)).set! pos Slot.vacant } : Bucket).slot i =
      if i = pos then Slot.vacant else if i = hole then b.slot pos else b.slot i := by
  have h1 := slot_set (Bucket.mk b.depth b.count (b.slots.set! hole (b.slot pos))) b.depth b.count
    pos Slot.vacant i
  simp only [size_set] at h1
  change (Bucket.mk b.depth b.count ((Bucket.mk b.depth b.count
    (b.slots.set! hole (b.slot pos))).slots.set! pos Slot.vacant)).slot i = _
  rw [h1, slot_set b b.depth b.count hole (b.slot pos) i]
  by_cases hip : i = pos
  · subst hip
    by_cases hs : i < b.size
    · simp [hs]
    · simp only [hs, and_false, if_false, if_true]
      split <;> exact slot_of_size_le (Nat.le_of_not_lt hs)
  · simp [hip, hh]

theorem size_move (b : Bucket) (hole pos : Nat) :
    ({ b with slots := (b.slots.set! hole (b.slot pos)).set! pos Slot.vacant } : Bucket).size =
      b.size := by
  simp [size]

/-- The slot `k` steps past the hole is the hole itself only after a whole turn. -/
theorem add_mod_eq_self_iff {n hole k : Nat} (hh : hole < n) (hk : 0 < k) (hkn : k ≤ n) :
    (hole + k) % n = hole ↔ k = n := by
  constructor
  · intro h
    refine Classical.byContradiction fun hne => ?_
    have := gap_add_mod hh (Nat.lt_of_le_of_ne hkn hne)
    rw [h, gap_self] at this
    omega
  · rintro rfl
    rw [Nat.add_mod_right, Nat.mod_eq_of_lt hh]

section step

variable {b : Bucket} {hole k : Nat}

/-- Moving a crossing entry into the hole leaves a new hole where it stood,
with nothing passed yet, and lowers the displacement. -/
theorem closing_move (hc : b.Closing hole k) (hk : k < b.size)
    (hv : (b.slot ((hole + k) % b.size)).isVacant = false)
    (hx : b.Crosses hole ((hole + k) % b.size)) :
    let pos := (hole + k) % b.size
    let b' : Bucket := { b with slots := (b.slots.set! hole (b.slot pos)).set! pos Slot.vacant }
    b'.Closing pos 1 ∧ b'.displacement < b.displacement ∧ b'.entries.Perm b.entries := by
  intro pos b'
  replace hv : (b.slot pos).isVacant = false := hv
  replace hx : b.Crosses hole pos := hx
  have hn : 0 < b.size := Nat.lt_of_le_of_lt (Nat.zero_le _) hc.hole_lt
  have hp : pos < b.size := Nat.mod_lt _ hn
  have hne : hole ≠ pos := fun h =>
    Nat.ne_of_lt hk ((add_mod_eq_self_iff hc.hole_lt hc.pos_k hc.k_le).1 h.symm)
  have hsize : b'.size = b.size := size_move b hole pos
  have hslot : ∀ i, b'.slot i =
      if i = pos then Slot.vacant else if i = hole then b.slot pos else b.slot i :=
    slot_move b hc.hole_lt hne
  have hhome : ∀ h, b'.home h = b.home h := fun h => by simp only [home, hsize]
  have he := home_lt hn (b.slot pos).hash
  refine ⟨⟨by rw [hsize]; exact hp, Nat.one_pos, by rw [hsize]; exact hn,
    by rw [hslot, if_pos rfl]; rfl, ?_, ?_⟩, ?_, ?_⟩
  · intro q hq hqv r hr hgap hrp
    rw [hsize] at hq hr hgap
    rw [hhome] at hgap
    rw [hslot] at hqv hgap ⊢
    rw [if_neg hrp]
    by_cases hqp : q = pos
    · rw [if_pos hqp] at hqv; cases hqv
    rw [if_neg hqp] at hqv hgap
    by_cases hqh : q = hole
    · rw [if_pos hqh] at hgap
      subst hqh
      have hrh : r ≠ q := fun h => by rw [h] at hgap; exact Nat.lt_irrefl _ hgap
      rw [if_neg hrh]
      exact hc.chained pos hp hv r hr (Nat.lt_trans hgap hx) hrh
    · rw [if_neg hqh] at hqv hgap
      by_cases hrh : r = hole
      · rw [if_pos hrh]; exact hv
      · rw [if_neg hrh]; exact hc.chained q hq hqv r hr hgap hrh
  · intro r hr h0 h1
    omega
  · have hd : ∀ i, i ≠ hole → i ≠ pos → b'.drift i = b.drift i := fun i hih hip => by
      simp only [drift, hsize, hhome, hslot, if_neg hip, if_neg hih]
    let mid : Nat → Nat := fun i => if i = hole then b'.drift hole else b.drift i
    have hnd := List.nodup_range (n := b.size)
    have h1 := sum_map_eq_off hnd (List.mem_range.2 hc.hole_lt) (f := b.drift) (g := mid)
      fun i hi => by simp only [mid, if_neg hi]
    have h2 := sum_map_eq_off hnd (List.mem_range.2 hp) (f := mid) (g := b'.drift)
      fun i hi => by
        simp only [mid]
        split
        · next hih => rw [hih]
        · next hih => exact hd i hih hi
    have hdh : b.drift hole = 0 := by simp [drift, hc.hole_vacant]
    have hdh' : b'.drift hole = gap b.size (b.home (b.slot pos).hash) hole := by
      simp [drift, hsize, hhome, hslot, hne, hv]
    have hdp : b.drift pos = gap b.size (b.home (b.slot pos).hash) pos := by simp [drift, hv]
    have hdp' : b'.drift pos = 0 := by simp [drift, hslot, isVacant_vacant]
    have hmp : mid pos = b.drift pos := by simp only [mid, if_neg (Ne.symm hne)]
    have hmh : mid hole = b'.drift hole := by simp only [mid, if_pos rfl]
    unfold displacement
    rw [hsize]
    unfold Crosses at hx
    omega
  · have h1 := entries_set_perm b hc.hole_lt b.depth b.count (b.slot pos)
    have hb1 : (Bucket.mk b.depth b.count (b.slots.set! hole (b.slot pos))).size = b.size :=
      size_set b hole _
    have h2 := entries_set_perm (Bucket.mk b.depth b.count (b.slots.set! hole (b.slot pos)))
      (by rw [hb1]; exact hp) b.depth b.count Slot.vacant
    have hheld : (Bucket.mk b.depth b.count (b.slots.set! hole (b.slot pos))).held pos =
        [b.slot pos] := by
      have : (Bucket.mk b.depth b.count (b.slots.set! hole (b.slot pos))).slot pos = b.slot pos := by
        rw [slot_set, if_neg fun h => hne h.1.symm]
      simp only [held, this, hv, Bool.false_eq_true, if_false]
    rw [hheld] at h2
    simp only [held, hc.hole_vacant, if_true, List.append_nil, hv, Bool.false_eq_true,
      if_false, isVacant_vacant] at h1 h2
    exact List.perm_append_right_iff _ |>.1 (h2.trans h1)

/-- Passing an entry whose path avoids the hole adds it to the passed slots. -/
theorem closing_skip (hc : b.Closing hole k) (hk : k < b.size)
    (hv : (b.slot ((hole + k) % b.size)).isVacant = false)
    (hx : ¬ b.Crosses hole ((hole + k) % b.size)) : b.Closing hole (k + 1) := by
  refine ⟨hc.hole_lt, Nat.succ_pos _, hk, hc.hole_vacant, hc.chained, ?_⟩
  intro r hr h0 h1
  rcases Nat.lt_or_eq_of_le (Nat.le_of_lt_succ h1) with hlt | heq
  · exact hc.passed r hr h0 hlt
  · have hn : 0 < b.size := Nat.lt_of_le_of_lt (Nat.zero_le _) hc.hole_lt
    have : r = (hole + k) % b.size :=
      gap_inj hc.hole_lt hr (Nat.mod_lt _ hn) (by rw [heq, gap_add_mod hc.hole_lt hk])
    subst this
    exact ⟨hv, hx⟩

end step

/-! ## The whole scan -/

/-- The bucket after the entry at `pos` moves back into `hole`. -/
def moveBack (b : Bucket) (hole pos : Nat) : Bucket :=
  { b with slots := (b.slots.set! hole (b.slot pos)).set! pos Slot.vacant }

/-- The scan of `remove` as its loop runs it, with no bound on its rounds, from a
hole and a scan position to the bucket it leaves: it stops on coming round to the
hole or at a vacant slot, moves back into the hole an entry whose path runs
through it (the entry's old slot is the new hole), and passes over any other
entry. -/
inductive Scans : Bucket → Nat → Nat → Bucket → Prop
  | stop {b : Bucket} {hole pos : Nat} : (pos == hole || (b.slot pos).isVacant) = true →
      Scans b hole pos b
  | move {b r : Bucket} {hole pos : Nat} : (pos == hole || (b.slot pos).isVacant) = false →
      movable hole pos (b.home (b.slot pos).hash) = true →
      Scans (b.moveBack hole pos) pos ((pos + 1) % b.size) r → Scans b hole pos r
  | skip {b r : Bucket} {hole pos : Nat} : (pos == hole || (b.slot pos).isVacant) = false →
      movable hole pos (b.home (b.slot pos).hash) = false →
      Scans b hole ((pos + 1) % b.size) r → Scans b hole pos r

/-- One past the slot `k` steps past the hole is `k + 1` steps past it. -/
theorem succ_add_mod (n hole k : Nat) : ((hole + k) % n + 1) % n = (hole + (k + 1)) % n := by
  rw [Nat.add_mod, Nat.mod_mod, ← Nat.add_mod, Nat.add_assoc]

/-- With fuel above the measure the scan never runs out of it: it ends as the
loop does, at the hole or at a vacant slot. -/
theorem scans_shiftBack (fuel : Nat) :
    ∀ {b : Bucket} {hole k : Nat}, b.Closing hole k →
      b.displacement * b.size + (b.size - k) < fuel →
      b.Scans hole ((hole + k) % b.size) (b.shiftBack hole ((hole + k) % b.size) fuel) := by
  induction fuel with
  | zero => intro b hole k _ h; omega
  | succ fuel ih =>
    intro b hole k hc hfuel
    have hn : 0 < b.size := Nat.lt_of_le_of_lt (Nat.zero_le _) hc.hole_lt
    rw [shiftBack]
    by_cases hstop : ((hole + k) % b.size == hole || (b.slot ((hole + k) % b.size)).isVacant) = true
    · rw [if_pos hstop]
      exact .stop hstop
    rw [Bool.not_eq_true] at hstop
    rw [if_neg (by rw [hstop]; exact Bool.false_ne_true)]
    have hk : k < b.size := by
      refine Nat.lt_of_le_of_ne hc.k_le fun hk => ?_
      rw [(add_mod_eq_self_iff hc.hole_lt hc.pos_k hc.k_le).2 hk, beq_self_eq_true,
        Bool.true_or] at hstop
      cases hstop
    have hv : (b.slot ((hole + k) % b.size)).isVacant = false := by
      rw [Bool.or_eq_false_iff] at hstop
      exact hstop.2
    have hp : (hole + k) % b.size < b.size := Nat.mod_lt _ hn
    have hmov := movable_iff (h := b.home (b.slot ((hole + k) % b.size)).hash) hc.hole_lt hp
      (home_lt hn _)
    dsimp only
    split
    · next hm =>
      obtain ⟨hc', hdisp, -⟩ := closing_move hc hk hv (hmov.1 hm)
      have hsz := size_move b hole ((hole + k) % b.size)
      have hbound : (b.displacement - 1 + 1) * b.size ≤ b.displacement * b.size :=
        Nat.mul_le_mul_right _ (by omega)
      have hdisp' := Nat.mul_le_mul_right b.size (Nat.le_sub_one_of_lt hdisp)
      rw [Nat.succ_mul] at hbound
      have hnext := ih hc' (by rw [hsz]; omega)
      rw [hsz] at hnext
      exact .move hstop hm hnext
    · next hm =>
      have hc' := closing_skip hc hk hv fun hx => hm (hmov.2 hx)
      have hnext := ih hc' (by omega)
      rw [← succ_add_mod] at hnext
      exact .skip hstop (Bool.eq_false_iff.2 hm) hnext

/-- A scan that ends closes the hole: the bucket comes out chained, holding the
same entries. -/
theorem Scans.closes {b r : Bucket} {hole pos : Nat} (hs : b.Scans hole pos r) :
    ∀ {k : Nat}, b.Closing hole k → pos = (hole + k) % b.size →
      r.Chained ∧ r.size = b.size ∧ r.depth = b.depth ∧ r.count = b.count ∧
        r.entries.Perm b.entries := by
  induction hs with
  | @stop b hole pos hstop =>
    intro k hc hpos
    subst hpos
    refine ⟨chained_of_closing hc ?_, rfl, rfl, rfl, .refl _⟩
    rcases Bool.or_eq_true_iff.1 hstop with hh | hv
    · exact .inl ((add_mod_eq_self_iff hc.hole_lt hc.pos_k hc.k_le).1 (beq_iff_eq.1 hh))
    · exact .inr hv
  | @move b r hole pos hstop hm _ ih =>
    intro k hc hpos
    subst hpos
    have hn : 0 < b.size := Nat.lt_of_le_of_lt (Nat.zero_le _) hc.hole_lt
    rw [Bool.or_eq_false_iff] at hstop
    have hk : k < b.size := Nat.lt_of_le_of_ne hc.k_le fun hk =>
      absurd ((add_mod_eq_self_iff hc.hole_lt hc.pos_k hc.k_le).2 hk) (by simpa using hstop.1)
    have hx := (movable_iff hc.hole_lt (Nat.mod_lt _ hn) (home_lt hn _)).1 hm
    obtain ⟨hc', -, hperm⟩ := closing_move hc hk hstop.2 hx
    have hsz := size_move b hole ((hole + k) % b.size)
    obtain ⟨hch, hs, hd, hcnt, hper⟩ := ih hc' (by rw [moveBack, hsz])
    rw [moveBack, hsz] at hs
    exact ⟨hch, hs, hd, hcnt, hper.trans hperm⟩
  | @skip b r hole pos hstop hm _ ih =>
    intro k hc hpos
    subst hpos
    have hn : 0 < b.size := Nat.lt_of_le_of_lt (Nat.zero_le _) hc.hole_lt
    rw [Bool.or_eq_false_iff] at hstop
    have hk : k < b.size := Nat.lt_of_le_of_ne hc.k_le fun hk =>
      absurd ((add_mod_eq_self_iff hc.hole_lt hc.pos_k hc.k_le).2 hk) (by simpa using hstop.1)
    have hx : ¬ b.Crosses hole ((hole + k) % b.size) := fun hx =>
      absurd ((movable_iff hc.hole_lt (Nat.mod_lt _ hn) (home_lt hn _)).2 hx) (by simp [hm])
    exact ih (closing_skip hc hk hstop.2 hx) (succ_add_mod _ _ _)

/-- With fuel above the measure, the scan closes the hole: the bucket comes out
chained, holding the same entries. -/
theorem shiftBack_closes (fuel : Nat) {b : Bucket} {hole k : Nat} (hc : b.Closing hole k)
    (hfuel : b.displacement * b.size + (b.size - k) < fuel) :
    let r := b.shiftBack hole ((hole + k) % b.size) fuel
    r.Chained ∧ r.size = b.size ∧ r.depth = b.depth ∧ r.count = b.count ∧
      r.entries.Perm b.entries :=
  (scans_shiftBack fuel hc hfuel).closes hc rfl

/-- Removing from a well-formed bucket answers what the slot held, keeps the
bucket well formed and takes exactly that entry away. -/
theorem remove_spec {b : Bucket} (hw : b.WF) {i : Nat} (hi : i < b.size)
    (hv : (b.slot i).isVacant = false) :
    (b.remove i).1 = b.slot i ∧ (b.remove i).2.WF ∧ (b.remove i).2.size = b.size ∧
      (b.remove i).2.depth = b.depth ∧ ((b.remove i).2.entries ++ [b.slot i]).Perm b.entries := by
  let opened : Bucket := { b with slots := b.slots.set! i Slot.vacant, count := b.count - 1 }
  have hsize : opened.size = b.size := size_set b i _
  have hslot : ∀ j, opened.slot j = if j = i ∧ i < b.size then Slot.vacant else b.slot j :=
    slot_set b _ _ i Slot.vacant
  have hperm := entries_set_perm b hi b.depth (b.count - 1) Slot.vacant
  simp only [held, hv, Bool.false_eq_true, if_false, isVacant_vacant, if_true,
    List.append_nil] at hperm
  have hc : opened.Closing i 1 := by
    refine ⟨by rw [hsize]; exact hi, Nat.one_pos, by rw [hsize]; exact hw.size_pos,
      by rw [hslot, if_pos ⟨rfl, hi⟩]; rfl, ?_, ?_⟩
    · intro q hq hqv r hr hgap hri
      rw [hsize] at hq hr hgap
      rw [hslot] at hqv hgap ⊢
      have hqi : ¬ (q = i ∧ i < b.size) := fun h => by
        rw [if_pos h, isVacant_vacant] at hqv; cases hqv
      rw [if_neg hqi] at hqv hgap
      rw [if_neg fun h => hri h.1]
      exact hw.chained q hq hqv r hr (by simpa only [home, hsize] using hgap)
    · intro r _ h0 h1
      omega
  have hfuel : opened.displacement * opened.size + (opened.size - 1) <
      b.size * (b.size * b.size + 1) := by
    have hd := Nat.mul_le_mul_right b.size (displacement_le opened (by rw [hsize]; exact hw.size_pos))
    rw [hsize] at hd ⊢
    rw [Nat.mul_add, Nat.mul_one, Nat.mul_comm b.size (b.size * b.size)]
    have := hw.size_pos
    omega
  obtain ⟨hch, hs, hd, hcnt, hper⟩ := shiftBack_closes _ hc hfuel
  rw [hsize] at hch hs hd hcnt hper
  have hrm : b.remove i = (b.slot i, opened.shiftBack i ((i + 1) % b.size)
      (b.size * (b.size * b.size + 1))) := by
    simp [remove, hv, opened]
  rw [hrm]
  refine ⟨rfl, ⟨by rw [hs]; exact hw.size_pos, ?_, hch⟩, hs, hd, ?_⟩
  · have hl := hper.length_eq
    have hl' := hperm.length_eq
    rw [length_entries, length_entries] at hl
    simp only [List.length_append, List.length_singleton, length_entries] at hl'
    have hl'' : opened.occupiedCount + 1 = b.occupiedCount := hl'
    have := hw.count_eq
    show _ = _
    rw [hcnt, hl]
    show b.count - 1 = opened.occupiedCount
    omega
  · exact (hper.append_right _).trans hperm

end Bucket

end HashFile
