import HashFile.Proofs.Codec

/-!
# Probing a bucket

Slots form a ring. An entry lives at its home slot or, when that is taken, at
the first vacant slot after it; so every slot from an entry's home up to the
entry is occupied (`Chained`). This is what makes a lookup that stops at the
first vacant slot of its probe path find every entry of its hash (`mem_probe`).

Positions on the ring are compared by `gap n a b`, the number of steps forward
from slot `a` to slot `b`; written without `%`, its arithmetic is linear and
`omega` decides it.

A bucket is well formed (`WF`) when it has a slot, its count is its number of
occupied slots, and it is chained. Inserting keeps it well formed and adds the
entry to the bucket's entries (`entries_insert`).
-/
namespace HashFile

namespace Bucket

/-- Steps forward from slot `a` to slot `b` on a ring of `n` slots. -/
def gap (n a b : Nat) : Nat := if a ≤ b then b - a else b + n - a

theorem gap_lt {n a b : Nat} (ha : a < n) (hb : b < n) : gap n a b < n := by
  unfold gap; split <;> omega

theorem gap_self (n a : Nat) : gap n a a = 0 := by simp [gap]

/-- A slot `k` steps past `a`, reduced to the ring, as one wrap at most. -/
theorem add_mod_eq {n a k : Nat} (ha : a < n) (hk : k ≤ n) :
    (a + k) % n = if a + k < n then a + k else a + k - n := by
  split
  · exact Nat.mod_eq_of_lt (by omega)
  · rw [Nat.mod_eq_sub_mod (by omega), Nat.mod_eq_of_lt (by omega)]

theorem gap_add_mod {n a k : Nat} (ha : a < n) (hk : k < n) : gap n a ((a + k) % n) = k := by
  rw [add_mod_eq ha (Nat.le_of_lt hk)]
  unfold gap
  split <;> split <;> omega

theorem add_gap_mod {n a b : Nat} (ha : a < n) (hb : b < n) : (a + gap n a b) % n = b := by
  rw [add_mod_eq ha (Nat.le_of_lt (gap_lt ha hb))]
  unfold gap
  split <;> split <;> omega

theorem gap_inj {n a b c : Nat} (ha : a < n) (hb : b < n) (hc : c < n) (h : gap n a b = gap n a c) :
    b = c := by
  unfold gap at h
  split at h <;> split at h <;> omega

theorem size_set (b : Bucket) (s : Nat) (e : Slot) :
    ({ b with slots := b.slots.set! s e } : Bucket).size = b.size := by
  simp [size]

theorem slot_set (b : Bucket) (d c s : Nat) (e : Slot) (i : Nat) :
    (Bucket.mk d c (b.slots.set! s e)).slot i = if i = s ∧ s < b.size then e else b.slot i := by
  simp only [slot, Array.getD_eq_getD_getElem?, Array.set!_eq_setIfInBounds,
    Array.getElem?_setIfInBounds, size]
  by_cases h : s = i <;> by_cases hs : s < b.slots.size <;> simp [h, hs] <;> grind

theorem slot_of_size_le {b : Bucket} {i : Nat} (h : b.size ≤ i) : b.slot i = Slot.vacant := by
  simp only [slot, Array.getD_eq_getD_getElem?]
  rw [Array.getElem?_eq_none_iff.2 (by simpa [size] using h)]
  rfl

theorem isVacant_vacant : Slot.vacant.isVacant = true := rfl

/-- Every entry is reached from its home through occupied slots only. -/
def Chained (b : Bucket) : Prop :=
  ∀ q < b.size, (b.slot q).isVacant = false →
    ∀ r < b.size, gap b.size (b.home (b.slot q).hash) r < gap b.size (b.home (b.slot q).hash) q →
      (b.slot r).isVacant = false

/-- A bucket that lookups, inserts and removals can work on. -/
structure WF (b : Bucket) : Prop where
  size_pos : 0 < b.size
  count_eq : b.count = b.occupiedCount
  chained : b.Chained

theorem home_lt {b : Bucket} (h : 0 < b.size) (hash : Nat) : b.home hash < b.size :=
  Nat.mod_lt _ h

/-! ## Occupied slots and entries -/

theorem mem_occupied {b : Bucket} {i : Nat} {e : Slot} :
    (i, e) ∈ b.occupied ↔ i < b.size ∧ b.slot i = e ∧ e.isVacant = false := by
  simp only [occupied, List.mem_filter, List.mem_map, List.mem_range, Prod.mk.injEq,
    Bool.not_eq_eq_eq_not, Bool.not_true]
  constructor
  · rintro ⟨⟨j, hj, rfl, rfl⟩, hv⟩
    exact ⟨hj, rfl, hv⟩
  · rintro ⟨hi, rfl, hv⟩
    exact ⟨⟨i, hi, rfl, rfl⟩, by simp [hv]⟩

/-- The entries of a bucket, in slot order. -/
def entries (b : Bucket) : List Slot := b.occupied.map Prod.snd

theorem mem_entries {b : Bucket} {e : Slot} :
    e ∈ b.entries ↔ ∃ i < b.size, b.slot i = e ∧ e.isVacant = false := by
  simp only [entries, List.mem_map, Prod.exists, exists_eq_right, mem_occupied]

theorem length_entries (b : Bucket) : b.entries.length = b.occupiedCount := by
  simp [entries, occupiedCount]

/-- The entry a slot holds, as a list of at most one. -/
def held (b : Bucket) (i : Nat) : List Slot := if (b.slot i).isVacant then [] else [b.slot i]

theorem entries_eq_flatMap (b : Bucket) :
    b.entries = (List.range b.size).flatMap b.held := by
  simp only [entries, occupied]
  induction (List.range b.size) with
  | nil => rfl
  | cons i l ih =>
    simp only [List.map_cons, List.filter_cons, List.flatMap_cons]
    split <;> simp_all [held]

/-- Changing what one index of a list without repeats maps to trades its old
image for its new one. -/
theorem flatMap_perm_of_eq_off {l : List Nat} (hl : l.Nodup) {s : Nat} (hs : s ∈ l)
    {f g : Nat → List Slot} (h : ∀ i, i ≠ s → g i = f i) :
    (l.flatMap g ++ f s).Perm (l.flatMap f ++ g s) := by
  induction l with
  | nil => simp at hs
  | cons i l ih =>
    rw [List.nodup_cons] at hl
    by_cases hi : i = s
    · subst hi
      have hrest : l.flatMap g = l.flatMap f := by
        simp only [List.flatMap_def]
        rw [List.map_congr_left fun j hj => h j (fun he => hl.1 (he ▸ hj))]
      simp only [List.flatMap_cons, hrest]
      rw [List.perm_iff_count]
      intro a
      simp only [List.count_append]
      omega
    · have hs' : s ∈ l := by simpa [Ne.symm hi] using hs
      simp only [List.flatMap_cons, h i hi, List.append_assoc]
      exact List.Perm.append_left _ (ih hl.2 hs')

/-- Writing one slot trades what it held for what is written, and keeps the
other entries. -/
theorem entries_set_perm (b : Bucket) {s : Nat} (hs : s < b.size) (d c : Nat) (e : Slot) :
    ((Bucket.mk d c (b.slots.set! s e)).entries ++ b.held s).Perm
      (b.entries ++ if e.isVacant then [] else [e]) := by
  have hsize : (Bucket.mk d c (b.slots.set! s e)).size = b.size := by simp [size]
  have hheld : ∀ i, (Bucket.mk d c (b.slots.set! s e)).held i =
      if i = s then (if e.isVacant then [] else [e]) else b.held i := by
    intro i
    simp only [held, slot_set b d c s e i]
    by_cases h : i = s
    · simp [h, hs]
    · simp [h]
  rw [entries_eq_flatMap, entries_eq_flatMap, hsize]
  have := flatMap_perm_of_eq_off (List.nodup_range) (List.mem_range.2 hs)
    (f := b.held) (g := (Bucket.mk d c (b.slots.set! s e)).held)
    (fun i hi => by rw [hheld, if_neg hi])
  rwa [hheld s, if_pos rfl] at this

/-! ## The probe path -/

theorem length_cyclic (n s : Nat) : (cyclic n s).length = n := by simp [cyclic]

theorem getElem_cyclic {n s i : Nat} (hi : i < (cyclic n s).length) :
    (cyclic n s)[i] = (s + i) % n := by
  simp [cyclic]

theorem getElem_mem_takeWhile {l : List Nat} {p : Nat → Bool} {d : Nat} (hd : d < l.length)
    (h : ∀ j (hj : j ≤ d), p (l[j]) = true) : l[d] ∈ l.takeWhile p := by
  induction l generalizing d with
  | nil => simp at hd
  | cons x l ih =>
    have h0 : p x = true := h 0 (Nat.zero_le _)
    rw [List.takeWhile_cons_of_pos h0]
    cases d with
    | zero => simp
    | succ d =>
      simp only [List.getElem_cons_succ, List.mem_cons]
      exact Or.inr (ih (by simpa using hd) fun j hj => h (j + 1) (by omega))

/-- Every entry lies on the probe path of its hash. -/
theorem mem_probe {b : Bucket} (hw : b.WF) {q : Nat} (hq : q < b.size)
    (hv : (b.slot q).isVacant = false) : q ∈ b.probe (b.slot q).hash := by
  have hh := home_lt hw.size_pos (b.slot q).hash
  have hd : gap b.size (b.home (b.slot q).hash) q <
      (cyclic b.size (b.home (b.slot q).hash)).length := by
    rw [length_cyclic]; exact gap_lt hh hq
  have hq' : (cyclic b.size (b.home (b.slot q).hash))[gap b.size (b.home (b.slot q).hash) q] =
      q := by
    rw [getElem_cyclic, add_gap_mod hh hq]
  have hocc : ∀ j (hj : j ≤ gap b.size (b.home (b.slot q).hash) q),
      (!(b.slot (cyclic b.size (b.home (b.slot q).hash))[j]).isVacant) = true := by
    intro j hj
    rw [getElem_cyclic]
    have hjn : j < b.size := by rw [length_cyclic] at hd; omega
    rcases Nat.lt_or_eq_of_le hj with hlt | rfl
    · have := hw.chained q hq hv ((b.home (b.slot q).hash + j) % b.size)
        (Nat.mod_lt _ hw.size_pos) (by rw [gap_add_mod hh hjn]; exact hlt)
      simp [this]
    · rw [add_gap_mod hh hq]
      simp [hv]
  have := getElem_mem_takeWhile (p := fun s => !(b.slot s).isVacant) hd hocc
  rwa [hq'] at this

/-- The probe path holds only occupied slots. -/
theorem of_mem_probe {b : Bucket} (hw : b.WF) {hash s : Nat} (hs : s ∈ b.probe hash) :
    s < b.size ∧ (b.slot s).isVacant = false := by
  unfold probe at hs
  have hp : (!(b.slot s).isVacant) = true := by
    have := List.all_takeWhile (l := cyclic b.size (b.home hash))
      (p := fun s => !(b.slot s).isVacant)
    rw [List.all_eq_true] at this
    exact this s hs
  have hm := (List.takeWhile_sublist _).subset hs
  simp only [cyclic, List.mem_map, List.mem_range] at hm
  obtain ⟨i, -, rfl⟩ := hm
  exact ⟨Nat.mod_lt _ hw.size_pos, by simpa using hp⟩

/-! ## Inserting -/

/-- A bucket that is not full has a vacant slot. -/
theorem exists_vacant {b : Bucket} (hw : b.WF) (hfull : b.isFull = false) :
    ∃ v < b.size, (b.slot v).isVacant = true := by
  have hlt : b.entries.length < b.size := by
    rw [length_entries, ← hw.count_eq]
    simpa [isFull] using hfull
  refine Classical.byContradiction fun hno => ?_
  simp only [not_exists, not_and, Bool.not_eq_true] at hno
  have : b.entries.length = b.size := by
    have : ∀ i ∈ List.range b.size, b.held i = [b.slot i] := fun i hi => by
      simp [held, hno i (List.mem_range.1 hi)]
    rw [entries_eq_flatMap, List.flatMap_def, List.map_congr_left this]
    simp [Function.comp_def, List.map_const']
  omega

/-- Where an insertion goes: the first vacant slot of the entry's probe path. -/
theorem insert_eq {b : Bucket} (hw : b.WF) (hfull : b.isFull = false) (e : Slot) :
    ∃ s < b.size, (b.slot s).isVacant = true ∧
      (∀ r < b.size, gap b.size (b.home e.hash) r < gap b.size (b.home e.hash) s →
        (b.slot r).isVacant = false) ∧
      b.insert e = (some s, ⟨b.depth, b.count + 1, b.slots.set! s e⟩) := by
  have hh := home_lt hw.size_pos e.hash
  obtain ⟨v, hv, hvac⟩ := exists_vacant hw hfull
  have hfind : ((cyclic b.size (b.home e.hash)).find? fun s => (b.slot s).isVacant).isSome := by
    rw [List.find?_isSome]
    refine ⟨v, ?_, hvac⟩
    simp only [cyclic, List.mem_map, List.mem_range]
    exact ⟨gap b.size (b.home e.hash) v, gap_lt hh hv, add_gap_mod hh hv⟩
  obtain ⟨s, hs⟩ := Option.isSome_iff_exists.1 hfind
  obtain ⟨hsv, i, hi, rfl, hbefore⟩ := List.find?_eq_some_iff_getElem.1 hs
  have hin : i < b.size := by rwa [length_cyclic] at hi
  refine ⟨_, by rw [getElem_cyclic]; exact Nat.mod_lt _ hw.size_pos, hsv, ?_, ?_⟩
  · intro r hr hgap
    rw [getElem_cyclic, gap_add_mod hh hin] at hgap
    have := hbefore _ hgap
    rw [getElem_cyclic, add_gap_mod hh hr] at this
    simpa using this
  · simp only [insert, hfull, Bool.false_eq_true, if_false, hs]

/-- Inserting into a bucket that is not full places the entry and keeps it well formed. -/
theorem wf_insert {b : Bucket} (hw : b.WF) {e : Slot}
    (he : e.isVacant = false) {s : Nat} (hs : s < b.size) (hsv : (b.slot s).isVacant = true)
    (hbefore : ∀ r < b.size, gap b.size (b.home e.hash) r < gap b.size (b.home e.hash) s →
      (b.slot r).isVacant = false) :
    (Bucket.mk b.depth (b.count + 1) (b.slots.set! s e)).WF := by
  have hsize : (Bucket.mk b.depth (b.count + 1) (b.slots.set! s e)).size = b.size := by
    simp [size]
  have hhome : ∀ h, (Bucket.mk b.depth (b.count + 1) (b.slots.set! s e)).home h = b.home h := by
    intro h; simp only [home, hsize]
  refine ⟨by rw [hsize]; exact hw.size_pos, ?_, ?_⟩
  · have hp := entries_set_perm b hs b.depth (b.count + 1) e
    have hl := hp.length_eq
    simp only [held, hsv, if_true, he, Bool.false_eq_true, if_false, List.append_nil,
      List.length_append, List.length_singleton] at hl
    rw [← length_entries, hl, length_entries, ← hw.count_eq]
  · intro q hq hqv r hr hgap
    rw [hsize] at hq hr hgap
    rw [hhome] at hgap
    rw [slot_set] at hqv hgap ⊢
    by_cases hqs : q = s
    · subst hqs
      simp only [hs, and_self, if_true] at hgap
      by_cases hrs : r = q
      · subst hrs; simp at hgap
      · simp only [hrs, false_and, if_false]
        exact hbefore r hr hgap
    · simp only [hqs, false_and, if_false] at hqv hgap
      by_cases hrs : r = s
      · subst hrs; simp [hs, he]
      · simp only [hrs, false_and, if_false]
        exact hw.chained q hq hqv r hr hgap

/-- Inserting adds the entry to the bucket's entries. -/
theorem entries_insert_perm {b : Bucket} {s : Nat} (hs : s < b.size)
    (hsv : (b.slot s).isVacant = true) {e : Slot} (he : e.isVacant = false) :
    (Bucket.mk b.depth (b.count + 1) (b.slots.set! s e)).entries.Perm (b.entries ++ [e]) := by
  have hp := entries_set_perm b hs b.depth (b.count + 1) e
  simpa [held, hsv, he] using hp

/-! ## Growing a bucket -/

/-- `b` is `b0` with the entries `E` inserted: well formed, of the same size
and depth, and holding the entries of `b0` and `E`. -/
structure Grown (b b0 : Bucket) (E : List Slot) : Prop where
  wf : b.WF
  size : b.size = b0.size
  depth : b.depth = b0.depth
  entries : b.entries.Perm (b0.entries ++ E)
  slots : ∀ x ∈ b.slots, x ∈ b0.slots ∨ x ∈ E

theorem Grown.refl {b : Bucket} (hw : b.WF) : Grown b b [] :=
  ⟨hw, rfl, rfl, by simp, fun x hx => .inl hx⟩

theorem Grown.trans {b b1 b0 : Bucket} {E1 E2 : List Slot} (h1 : Grown b1 b0 E1) (h2 : Grown b b1 E2) :
    Grown b b0 (E1 ++ E2) := by
  refine ⟨h2.wf, h2.size.trans h1.size, h2.depth.trans h1.depth, ?_, fun x hx => ?_⟩
  · rw [← List.append_assoc]
    exact h2.entries.trans (h1.entries.append_right E2)
  · rcases h2.slots x hx with hx | hx
    · rcases h1.slots x hx with hx | hx
      · exact .inl hx
      · exact .inr (List.mem_append_left _ hx)
    · exact .inr (List.mem_append_right _ hx)

/-- Inserting into a well formed bucket that is not full places the entry in a
slot; the bucket counts one more entry. -/
theorem insert_spec {b : Bucket} (hw : b.WF) (hfull : b.isFull = false) {e : Slot}
    (he : e.isVacant = false) :
    (b.insert e).1.isSome ∧ Grown (b.insert e).2 b [e] ∧ (b.insert e).2.count = b.count + 1 := by
  obtain ⟨s, hs, hsv, hbefore, hins⟩ := insert_eq hw hfull e
  rw [hins]
  refine ⟨rfl, ⟨wf_insert hw he hs hsv hbefore, by simp [size], rfl, entries_insert_perm hs hsv he,
    fun x hx => ?_⟩, rfl⟩
  rcases Array.mem_or_eq_of_mem_setIfInBounds hx with hx | rfl
  · exact .inl hx
  · exact .inr List.mem_cons_self

@[simp] theorem slot_empty (depth elems i : Nat) : (empty depth elems).slot i = Slot.vacant := by
  simp [empty, slot, Array.getD_eq_getD_getElem?, Array.getElem?_replicate]
  split <;> rfl

theorem occupied_empty (depth elems : Nat) : (empty depth elems).occupied = [] := by
  simp only [occupied, List.filter_eq_nil_iff, List.mem_map]
  rintro _ ⟨i, -, rfl⟩
  simp [isVacant_vacant]

theorem entries_empty (depth elems : Nat) : (empty depth elems).entries = [] := by
  simp [entries, occupied_empty]

/-- A bucket with no entries and at least one slot is well formed. -/
theorem wf_empty {depth elems : Nat} (h : 0 < elems) : (empty depth elems).WF := by
  refine ⟨by simpa [empty, size] using h, ?_, fun q _ hq => by rw [slot_empty] at hq; cases hq⟩
  show 0 = (empty depth elems).occupied.length
  rw [occupied_empty]
  rfl

/-- An entry of a bucket whose fields fit has fields that fit. -/
theorem Fits.entry {b : Bucket} {elems : Nat} (hb : b.Fits elems) {e : Slot}
    (he : e ∈ b.entries) : e.Fits := by
  obtain ⟨i, hi, rfl, -⟩ := mem_entries.1 he
  apply hb.slots
  simp only [slot, Array.getD_eq_getD_getElem?, Array.getElem?_eq_getElem hi, Option.getD_some]
  exact Array.getElem_mem hi

/-- A bucket grown from an empty one by entries whose fields fit has fields
that fit. -/
theorem Grown.fits {b : Bucket} {d elems : Nat} {E : List Slot} (hg : Grown b (empty d elems) E)
    (hE : ∀ e ∈ E, e.Fits) (hd : d < 2 ^ 32) (helems : elems < 2 ^ 32) : b.Fits elems := by
  have hsize : b.slots.size = elems := by
    have := hg.size
    simpa [Bucket.size, empty] using this
  refine ⟨hsize, by rw [hg.depth]; exact hd, ?_, hg.wf.count_eq.symm, fun x hx => ?_⟩
  · have := occupiedCount_le b
    rw [← hg.wf.count_eq] at this
    simp only [Bucket.size] at this
    omega
  · rcases hg.slots x hx with hx | hx
    · simp only [empty, Array.mem_replicate] at hx
      rw [hx.2]
      exact Slot.fits_vacant
    · exact hE x hx

/-- Handing entries out to two buckets by a predicate, inserting each into the
bucket it goes to: each bucket receives the entries sent to it. There is room
when each bucket can take all of them. -/
theorem foldl_distribute {p : Slot → Bool} {f : Bucket × Bucket → Nat × Slot → Bucket × Bucket}
    (hf : ∀ lo hi i e, f (lo, hi) (i, e) =
      if p e then ((lo.insert e).2, hi) else (lo, (hi.insert e).2)) :
    ∀ (l : List (Nat × Slot)) (lo hi : Bucket), lo.WF → hi.WF →
      (∀ x ∈ l, x.2.isVacant = false) → lo.count + l.length ≤ lo.size →
      hi.count + l.length ≤ hi.size →
      Grown (l.foldl f (lo, hi)).1 lo ((l.map Prod.snd).filter p) ∧
        Grown (l.foldl f (lo, hi)).2 hi ((l.map Prod.snd).filter fun e => !p e)
  | [], lo, hi, hlo, hhi, _, _, _ => ⟨by simpa using Grown.refl hlo, by simpa using Grown.refl hhi⟩
  | (i, e) :: l, lo, hi, hlo, hhi, hvac, hclo, hchi => by
    have he : e.isVacant = false := hvac (i, e) List.mem_cons_self
    have hvac' : ∀ x ∈ l, x.2.isVacant = false := fun x hx => hvac x (List.mem_cons_of_mem _ hx)
    simp only [List.length_cons] at hclo hchi
    simp only [List.foldl_cons, hf, List.map_cons, List.filter_cons]
    by_cases hp : p e = true
    · obtain ⟨-, hg, hcount⟩ := insert_spec hlo (by simp [isFull]; omega) he
      obtain ⟨h1, h2⟩ := foldl_distribute hf l _ hi hg.wf hhi hvac'
        (by rw [hcount, hg.size]; omega) (by omega)
      simp only [hp, if_true, Bool.not_true, Bool.false_eq_true, if_false]
      exact ⟨by simpa using hg.trans h1, h2⟩
    · obtain ⟨-, hg, hcount⟩ := insert_spec hhi (by simp [isFull]; omega) he
      obtain ⟨h1, h2⟩ := foldl_distribute hf l lo _ hlo hg.wf hvac' (by omega)
        (by rw [hcount, hg.size]; omega)
      simp only [hp, Bool.false_eq_true, if_false, Bool.not_false, if_true]
      exact ⟨h1, by simpa using hg.trans h2⟩

end Bucket

end HashFile
