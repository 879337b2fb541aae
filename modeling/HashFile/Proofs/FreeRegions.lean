import HashFile.Proofs.Allocation

/-!
# The free list keeps its shape

A free list is well formed (`FreeList.Valid`) when its regions are sorted
strictly by size, then offset, are not empty, lie apart from each other (no two
share a byte or touch), end below the word limit, and are no more than its
capacity. Every operation on such a list keeps it so, and does exactly what it
says, with no word sum overflowing on the way:

* `take` hands out the start of the best fit, the first region in the list's
  order that is large enough; what is left of it stays free when it is at least
  `minSplit` bytes (`take_spec`);
* `takeEndingAt` removes the one region that ends at a position (`takeEndingAt_spec`);
* `release` merges a region given back with every free region next to it and,
  when the list then holds more than its capacity, drops and answers its
  smallest region (`release_spec`).

The checks these operations make through checked word sums (`Region.touches`,
`Region.endsAt`) never fail on a well-formed list, so each is its pure reading
(`touches_eq`, `endsAt_of_lt`). Merging is the one loop: a region given back
has at most one free neighbour on each side, because free regions never touch
each other, so the merge takes exactly the regions next to it (`absorb_eq`).

The bytes free are counted without overflow: the regions are disjoint and end
below the word limit, so their sizes add up to less than it (`sum_size_lt`).
-/
namespace HashFile

namespace Region

/-- The strict order of the free list: by size, then by offset. -/
def Before (a b : Region) : Prop := a.size < b.size ∨ a.size = b.size ∧ a.offset < b.offset

/-- Byte `i` lies in the region. -/
def Covers (r : Region) (i : Nat) : Prop := r.offset ≤ i ∧ i < r.stop

/-- One region ends where the other begins. -/
def adjacent (m e : Region) : Bool := e.stop == m.offset || m.stop == e.offset

/-- The bytes of a region, as a set. -/
def cells (r : Region) : Finset Nat := Finset.Ico r.offset r.stop

theorem adjacent_iff {m e : Region} : m.adjacent e = true ↔ e.stop = m.offset ∨ m.stop = e.offset := by
  simp [adjacent]

theorem before_iff {a b : Region} : a.Before b ↔ a.precedes b = true ∧ a ≠ b := by
  obtain ⟨ao, as⟩ := a
  obtain ⟨bo, bs⟩ := b
  simp only [Before, precedes, Bool.or_eq_true, Bool.and_eq_true, beq_iff_eq, decide_eq_true_eq,
    ne_eq, Region.mk.injEq]
  omega

/-- A region that is not empty is not apart from itself. -/
theorem Apart.ne {a b : Region} (h : a.Apart b) (ha : 0 < a.size) : a ≠ b := by
  rintro rfl
  unfold Apart stop at h
  omega

theorem mem_cells {r : Region} {i : Nat} : i ∈ r.cells ↔ r.Covers i := by
  simp [cells, Covers]

end Region

namespace FreeList

/-! ## Well-formed lists of free regions -/

/-- The regions of a well-formed free list: sorted strictly by size, then offset,
not empty, apart from each other and ending below the word limit. -/
structure Shaped (l : List Region) : Prop where
  sorted : l.Pairwise Region.Before
  pos : ∀ a ∈ l, 0 < a.size
  apart : l.Pairwise Region.Apart
  fits : ∀ a ∈ l, a.stop < wordSize

/-- A well-formed free list: its regions are shaped and within its capacity. -/
structure Valid (f : FreeList) : Prop where
  shaped : Shaped f.regions
  length_le : f.regions.length ≤ f.capacity

/-- Sorted strictly is sorted with no region twice. -/
theorem sorted_iff {l : List Region} :
    l.Pairwise Region.Before ↔ l.Pairwise (fun a b => a.precedes b = true) ∧ l.Nodup := by
  rw [List.Nodup, ← List.pairwise_and_iff]
  exact List.Pairwise.iff fun _ _ => Region.before_iff

theorem Shaped.sublist {l l' : List Region} (h : Shaped l) (hs : l'.Sublist l) : Shaped l' :=
  ⟨h.sorted.sublist hs, fun a ha => h.pos a (hs.subset ha), h.apart.sublist hs,
    fun a ha => h.fits a (hs.subset ha)⟩

/-- Inserting a region apart from all the others keeps the list shaped. -/
theorem Shaped.insertOrdered {l : List Region} (h : Shaped l) {r : Region} (hr : 0 < r.size)
    (hfit : r.stop < wordSize) (hap : ∀ x ∈ l, r.Apart x) : Shaped (FreeList.insertOrdered r l) := by
  have hperm := insertOrdered_perm r l
  have hmem : ∀ a ∈ FreeList.insertOrdered r l, a = r ∨ a ∈ l := fun a ha =>
    List.mem_cons.1 (hperm.subset ha)
  have hnotin : r ∉ l := fun hin => (hap r hin).ne hr rfl
  refine ⟨sorted_iff.2 ⟨sorted_insertOrdered r (sorted_iff.1 h.sorted).1, ?_⟩, ?_, ?_, ?_⟩
  · exact hperm.nodup_iff.2 (List.nodup_cons.2 ⟨hnotin, (sorted_iff.1 h.sorted).2⟩)
  · intro a ha
    rcases hmem a ha with rfl | ha
    · exact hr
    · exact h.pos a ha
  · exact (hperm.pairwise_iff fun hab => Region.Apart.symm hab).2 (List.pairwise_cons.2 ⟨hap, h.apart⟩)
  · intro a ha
    rcases hmem a ha with rfl | ha
    · exact hfit
    · exact h.fits a ha

/-! ## Counting the free bytes -/

/-- The bytes of a list of regions, as a set. -/
def cellsOf (l : List Region) : Finset Nat := l.foldr (fun r c => r.cells ∪ c) ∅

theorem mem_cellsOf {l : List Region} {i : Nat} : i ∈ cellsOf l ↔ ∃ a ∈ l, a.Covers i := by
  induction l with
  | nil => simp [cellsOf]
  | cons r l ih =>
    simp only [cellsOf, List.foldr_cons, Finset.mem_union, Region.mem_cells, List.mem_cons,
      exists_eq_or_imp] at ih ⊢
    rw [ih]

/-- Disjoint regions hold as many bytes together as their sizes add up to. -/
theorem card_cellsOf : ∀ {l : List Region}, l.Pairwise Region.Disjoint →
    (cellsOf l).card = (l.map Region.size).sum
  | [], _ => rfl
  | r :: l, h => by
    rw [List.pairwise_cons] at h
    have hdisj : ∀ i ∈ r.cells, i ∉ cellsOf l := by
      intro i hi hl
      obtain ⟨a, ha, hai⟩ := mem_cellsOf.1 hl
      have hra := h.1 a ha
      rw [Region.mem_cells] at hi
      simp only [Region.Covers, Region.Disjoint, Region.stop] at hi hai hra
      omega
    show (r.cells ∪ cellsOf l).card = _
    rw [Finset.card_union_of_disjoint (Finset.disjoint_left.2 hdisj), card_cellsOf h.2, List.map_cons,
      List.sum_cons, Region.cells, Nat.card_Ico, Region.stop, Nat.add_sub_cancel_left]

/-- Disjoint regions below `N` have sizes adding up to at most `N`. -/
theorem sum_size_le {l : List Region} (h : l.Pairwise Region.Disjoint) {N : Nat}
    (hN : ∀ a ∈ l, a.stop ≤ N) : (l.map Region.size).sum ≤ N := by
  have hsub : cellsOf l ⊆ Finset.range N := by
    intro i hi
    obtain ⟨a, ha, hai⟩ := mem_cellsOf.1 hi
    have := hN a ha
    simp only [Region.Covers] at hai
    simpa using Nat.lt_of_lt_of_le hai.2 this
  rw [← card_cellsOf h, ← Finset.card_range N]
  exact Finset.card_le_card hsub

/-- The sizes of a shaped list add up to less than a word. -/
theorem sum_size_lt {l : List Region} (h : Shaped l) : (l.map Region.size).sum < wordSize := by
  have hpos : 0 < wordSize := by decide
  have := sum_size_le (h.apart.imp fun hab => Region.Apart.disjoint hab)
    (N := wordSize - 1) fun a ha => by have := h.fits a ha; omega
  omega

/-- The free bytes of a shaped list are counted without overflow. -/
theorem freeBytes_eq {f : FreeList} (h : Shaped f.regions) :
    f.freeBytes = .ok (f.regions.map Region.size).sum := by
  unfold freeBytes sumWords
  rw [← List.sum_eq_foldr, if_pos (sum_size_lt h)]

/-! ## The checks, read purely -/

/-- The end of a region is computed when it is a word. -/
theorem stop?_of_lt {r : Region} (h : r.stop < wordSize) : r.stop? = .ok r.stop :=
  addWord_of_lt h

/-- Whether a region touches another is a pure test on regions within a word. -/
theorem touches_eq {m e : Region} (hm : m.stop < wordSize) (he : e.stop < wordSize) :
    Region.touches m e = .ok (m.adjacent e) := by
  unfold Region.touches Region.adjacent
  rw [stop?_of_lt he, stop?_of_lt hm]
  by_cases h : e.stop = m.offset <;> simp [h, bind, Except.bind, pure, Except.pure]

theorem endsAt_of_lt {e : Region} (he : e.stop < wordSize) (n : Nat) :
    Region.endsAt n e = .ok (e.stop == n) := by
  unfold Region.endsAt
  rw [stop?_of_lt he]
  rfl

/-- A checked search whose check never fails is the plain search. -/
theorem pickBy_eq_pick {p : Region → Except Overflow Bool} {q : Region → Bool} :
    ∀ {l : List Region}, (∀ x ∈ l, p x = .ok (q x)) → pickBy p l = .ok (pick q l)
  | [], _ => rfl
  | r :: rs, h => by
    have hrs := pickBy_eq_pick fun x hx => h x (List.mem_cons_of_mem r hx)
    unfold pickBy pick
    rw [h r List.mem_cons_self]
    cases q r <;> simp [hrs, bind, Except.bind, pure, Except.pure]

/-- When the search finds nothing, no region has the property. -/
theorem pick_eq_none {q : Region → Bool} :
    ∀ {l : List Region}, pick q l = none → ∀ x ∈ l, q x = false
  | [], _ => by simp
  | r :: rs, h => by
    unfold pick at h
    split at h
    · cases h
    · next hr =>
      intro x hx
      rcases List.mem_cons.1 hx with rfl | hx
      · simpa using hr
      · exact pick_eq_none (by simpa using h) x hx

/-! ## Merging a region given back -/

/-- What merging the region `r` given back keeps, while it has grown to `m` and
the regions `l` are left: the free regions left are shaped but for their order,
`m` holds `r`, ends below the word limit and misses every region left, and a
region left that touches `m` touches `r`. -/
structure Absorbing (r m : Region) (l : List Region) : Prop where
  apart : l.Pairwise Region.Apart
  pos : ∀ x ∈ l, 0 < x.size
  fits : ∀ x ∈ l, x.stop < wordSize
  stop_lt : m.stop < wordSize
  disjoint : ∀ x ∈ l, m.Disjoint x
  holds : m.offset ≤ r.offset ∧ r.stop ≤ m.stop
  touches : ∀ x ∈ l, m.adjacent x = true → r.adjacent x = true

/-- Merging one region that touches `m` keeps the merge going as it was: the
merged region is `m` and that region side by side, and no region left can
touch it on a side where `r` does not, since that region would touch the one
just merged. -/
theorem Absorbing.merge {r m e : Region} {pre post : List Region}
    (h : Absorbing r m (pre ++ e :: post)) (he : m.adjacent e = true) :
    Absorbing r ⟨min e.offset m.offset, e.size + m.size⟩ (pre ++ post) := by
  have hsub : (pre ++ post).Sublist (pre ++ e :: post) :=
    (List.Sublist.refl pre).append (List.sublist_cons_self e post)
  have hmem : ∀ x ∈ pre ++ post, x ∈ pre ++ e :: post := fun x hx => hsub.subset hx
  have hemem : e ∈ pre ++ e :: post := by simp
  have hside := Region.adjacent_iff.1 he
  have hme := h.disjoint e hemem
  have hepos := h.pos e hemem
  have hefit := h.fits e hemem
  have hmfit := h.stop_lt
  simp only [Region.Disjoint, Region.stop] at hside hme hefit hmfit
  refine ⟨h.apart.sublist hsub, fun x hx => h.pos x (hmem x hx), fun x hx => h.fits x (hmem x hx),
    ?_, ?_, ?_, ?_⟩
  · show min e.offset m.offset + (e.size + m.size) < wordSize
    omega
  · intro x hx
    have hxe := FreeList.apart_of_split h.apart hx
    have hmx := h.disjoint x (hmem x hx)
    simp only [Region.Disjoint, Region.Apart, Region.stop] at hxe hmx ⊢
    omega
  · have := h.holds
    simp only [Region.stop] at this ⊢
    omega
  · intro x hx hxm
    have hxe := FreeList.apart_of_split h.apart hx
    have hxpos := h.pos x (hmem x hx)
    rw [Region.adjacent_iff] at hxm
    simp only [Region.Apart, Region.stop] at hxe hxm
    apply h.touches x (hmem x hx)
    rw [Region.adjacent_iff]
    simp only [Region.stop]
    omega

/-- When no region left touches `m`, none touches the region given back. -/
theorem Absorbing.done {r m : Region} {l : List Region} (h : Absorbing r m l)
    (hnone : ∀ x ∈ l, m.adjacent x = false) : ∀ x ∈ l, r.adjacent x = false := by
  intro x hx
  have hmx := h.disjoint x hx
  have hxpos := h.pos x hx
  have hholds := h.holds
  have hnot := hnone x hx
  simp only [Region.adjacent, Bool.or_eq_false_iff, beq_eq_false_iff_ne, ne_eq] at hnot ⊢
  simp only [Region.Disjoint, Region.stop] at hmx hholds hnot ⊢
  omega

/-- Merging a region given back takes exactly the free regions next to it: the
merged region covers it and them, its size is their sizes added up, it ends
below the word limit, and it lies apart from every region left, which are the
others. No word sum overflows on the way. -/
theorem absorb_eq (r : Region) : ∀ (m : Region) (l : List Region), Absorbing r m l →
    ∃ m', absorb m l = (.ok m', l.filter fun x => !r.adjacent x) ∧
      (∀ i, m'.Covers i ↔ m.Covers i ∨ ∃ a ∈ l, r.adjacent a = true ∧ a.Covers i) ∧
      m'.size = m.size + ((l.filter r.adjacent).map Region.size).sum ∧
      m'.stop < wordSize ∧ ∀ x ∈ l.filter (fun x => !r.adjacent x), m'.Apart x
  | m, l, h => by
    have hp : pickBy (Region.touches m) l = .ok (pick m.adjacent l) :=
      pickBy_eq_pick fun x hx => touches_eq h.stop_lt (h.fits x hx)
    rw [absorb.eq_1]
    split
    · next o ho => rw [hp] at ho; cases ho
    · next hn =>
      rw [hp] at hn
      have hnone := pick_eq_none (Except.ok.inj hn)
      have hfalse := h.done hnone
      have hkeep : l.filter (fun x => !r.adjacent x) = l :=
        List.filter_eq_self.2 fun x hx => by simp [hfalse x hx]
      have hdrop : l.filter r.adjacent = [] := List.filter_eq_nil_iff.2 fun x hx => by simp [hfalse x hx]
      refine ⟨m, by rw [hkeep], fun i => ?_, by simp [hdrop], h.stop_lt, fun x hx => ?_⟩
      · constructor
        · exact .inl
        · rintro (hi | ⟨a, ha, hra, -⟩)
          · exact hi
          · simp [hfalse a ha] at hra
      · rw [hkeep] at hx
        have hmx := h.disjoint x hx
        have hnot := hnone x hx
        simp only [Region.adjacent, Bool.or_eq_false_iff, beq_eq_false_iff_ne, ne_eq] at hnot
        simp only [Region.Disjoint, Region.Apart, Region.stop] at hmx hnot ⊢
        omega
    · next e rest hs =>
      rw [hp] at hs
      obtain ⟨pre, post, rfl, rfl, hte, -⟩ := pick_eq_some (Except.ok.inj hs)
      have h' := h.merge hte
      have hre : r.adjacent e = true := h.touches e (by simp) hte
      have hsum : e.size + m.size < wordSize := by
        have := h'.stop_lt
        simp only [Region.stop] at this
        omega
      rw [addWord_of_lt hsum]
      dsimp only
      obtain ⟨m', habs, hcov, hsize, hstop, hapart⟩ := absorb_eq r _ (pre ++ post) h'
      have hfilter : (pre ++ e :: post).filter (fun x => !r.adjacent x) =
          (pre ++ post).filter fun x => !r.adjacent x := by
        simp [List.filter_append, hre]
      have hside := Region.adjacent_iff.1 hte
      refine ⟨m', by rw [habs, hfilter], fun i => ?_, ?_, hstop, by rw [hfilter]; exact hapart⟩
      · have hmerge : (⟨min e.offset m.offset, e.size + m.size⟩ : Region).Covers i ↔
            m.Covers i ∨ e.Covers i := by
          simp only [Region.Covers, Region.stop] at hside ⊢
          omega
        rw [hcov, hmerge]
        simp only [List.mem_append, List.mem_cons]
        constructor
        · rintro ((hm | he) | ⟨a, ha, hra, hai⟩)
          · exact .inl hm
          · exact .inr ⟨e, .inr (.inl rfl), hre, he⟩
          · exact .inr ⟨a, ha.imp_right .inr, hra, hai⟩
        · rintro (hm | ⟨a, ha, hra, hai⟩)
          · exact .inl (.inl hm)
          · rcases ha with ha | rfl | ha
            · exact .inr ⟨a, .inl ha, hra, hai⟩
            · exact .inl (.inr hai)
            · exact .inr ⟨a, .inr ha, hra, hai⟩
      · rw [hsize]
        simp [List.filter_append, hre]
        omega
termination_by _ l => l.length

/-- Splitting a list by adjacency to a region splits the sum of its sizes. -/
theorem sum_filter_adjacent (r : Region) (l : List Region) :
    ((l.filter r.adjacent).map Region.size).sum +
      ((l.filter fun x => !r.adjacent x).map Region.size).sum = (l.map Region.size).sum := by
  induction l with
  | nil => rfl
  | cons x l ih =>
    cases hx : r.adjacent x <;> simp [hx] <;> omega

/-! ## Taking space -/

/-- A take that finds a region large enough within a word answers its start and
keeps its remainder when that is at least `minSplit` bytes. -/
theorem take_of_pick {f : FreeList} {s : Nat} {e : Region} {rest : List Region}
    (hp : pick (fun e => decide (s ≤ e.size)) f.regions = some (e, rest)) (he : e.stop < wordSize) :
    f.take s = (.ok (some e.offset), ⟨if minSplit ≤ e.size - s then
      FreeList.insertOrdered ⟨e.offset + s, e.size - s⟩ rest else rest, f.capacity⟩) := by
  obtain ⟨-, -, -, -, hfit, -⟩ := pick_eq_some hp
  have hsum : e.offset + s < wordSize := by
    simp only [decide_eq_true_eq] at hfit
    simp only [Region.stop] at he
    omega
  rw [take.eq_1, hp]
  dsimp only
  split
  · rw [addWord_of_lt hsum]
  · rfl

/-- Taking `s` bytes out of the free region `e` of `f`: `e` is the best fit,
its start is answered, and it leaves the list, its remainder staying free when
at least `minSplit` bytes; the bytes free drop by what was taken. -/
structure TakesFrom (f : FreeList) (s : Nat) (e : Region) : Prop where
  mem : e ∈ f.regions
  fits : s ≤ e.size
  best : ∀ x ∈ f.regions, s ≤ x.size → x ≠ e → e.Before x
  answer : (f.take s).1 = .ok (some e.offset)
  capacity : (f.take s).2.capacity = f.capacity
  regions : (f.take s).2.regions.Perm
    ((if minSplit ≤ e.size - s then [⟨e.offset + s, e.size - s⟩] else []) ++ f.regions.erase e)
  freeBytes : ∃ t t', f.freeBytes = .ok t ∧ (f.take s).2.freeBytes = .ok t' ∧
    t' + (if minSplit ≤ e.size - s then s else e.size) = t

/-- Taking from a well-formed free list keeps it well formed, and answers
nothing, changing nothing, exactly when no region is large enough. -/
theorem take_spec {f : FreeList} (hv : f.Valid) {s : Nat} (hs : 0 < s) :
    (f.take s).2.Valid ∧
      ((f.take s = (.ok none, f) ∧ ∀ e ∈ f.regions, e.size < s) ∨ ∃ e, TakesFrom f s e) := by
  cases hp : pick (fun e => decide (s ≤ e.size)) f.regions with
  | none =>
    have htake : f.take s = (.ok none, f) := by rw [take.eq_1, hp]
    refine ⟨by rw [htake]; exact hv, .inl ⟨htake, fun e he => ?_⟩⟩
    simpa using pick_eq_none hp e he
  | some found =>
    obtain ⟨e, rest⟩ := found
    obtain ⟨pre, post, hl, rfl, hfit, hpre⟩ := pick_eq_some hp
    simp only [decide_eq_true_eq] at hfit
    have hemem : e ∈ f.regions := by rw [hl]; simp
    have hefit := hv.shaped.fits e hemem
    have htake := take_of_pick hp hefit
    have hsub : (pre ++ post).Sublist f.regions := by
      rw [hl]; exact (List.Sublist.refl pre).append (List.sublist_cons_self e post)
    have happ : (pre ++ e :: post).Pairwise Region.Apart := hl ▸ hv.shaped.apart
    have hlen : f.regions.length = (pre ++ post).length + 1 := by rw [hl]; simp; omega
    have hnotin : e ∉ pre := fun he => by simpa [hfit] using hpre e he
    have herase : f.regions.erase e = pre ++ post := by
      rw [hl, List.erase_append_right _ hnotin, List.erase_cons_head]
    have hregs : (f.take s).2.regions.Perm
        ((if minSplit ≤ e.size - s then [⟨e.offset + s, e.size - s⟩] else []) ++ (pre ++ post)) := by
      rw [htake]
      split
      · exact insertOrdered_perm _ _
      · exact .refl _
    have hvalid : (f.take s).2.Valid := by
      rw [htake]
      split
      · next hsplit =>
        refine ⟨(hv.shaped.sublist hsub).insertOrdered ?_ ?_ fun x hx => ?_, ?_⟩
        · unfold minSplit at hsplit; show 0 < e.size - s; omega
        · show e.offset + s + (e.size - s) < wordSize
          simp only [Region.stop] at hefit; omega
        · have hex := FreeList.apart_of_split happ hx
          simp only [Region.Apart, Region.stop] at hex ⊢; omega
        · show (FreeList.insertOrdered _ (pre ++ post)).length ≤ f.capacity
          rw [(insertOrdered_perm _ _).length_eq, List.length_cons, ← hlen]
          exact hv.length_le
      · exact ⟨hv.shaped.sublist hsub, Nat.le_trans hsub.length_le hv.length_le⟩
    refine ⟨hvalid, .inr ⟨e, ⟨hemem, hfit, fun x hx hxs hxe => ?_, by rw [htake], by rw [htake],
      herase ▸ hregs, ?_⟩⟩⟩
    · rw [hl] at hx
      have hsorted : (pre ++ e :: post).Pairwise Region.Before := hl ▸ hv.shaped.sorted
      rcases List.mem_append.1 hx with hx | hx
      · simpa [hxs] using hpre x hx
      · rcases List.mem_cons.1 hx with rfl | hx
        · exact absurd rfl hxe
        · exact List.rel_of_pairwise_cons (List.pairwise_append.1 hsorted).2.1 hx
    · refine ⟨_, _, freeBytes_eq hv.shaped, freeBytes_eq hvalid.shaped, ?_⟩
      have hsum : (f.regions.map Region.size).sum = e.size + ((pre ++ post).map Region.size).sum := by
        rw [hl]; simp; omega
      rw [(hregs.map Region.size).sum_eq, hsum]
      split <;> simp <;> omega

/-! ## Taking the region that ends at a position -/

/-- Taking the region that ends at `n` from a well-formed free list keeps it
well formed; there is at most one, and it is removed and answered, or nothing
changes. -/
theorem takeEndingAt_spec {f : FreeList} (hv : f.Valid) (n : Nat) :
    (f.takeEndingAt n).2.Valid ∧
      ((f.takeEndingAt n = (.ok none, f) ∧ ∀ a ∈ f.regions, a.stop ≠ n) ∨
        ∃ a ∈ f.regions, a.stop = n ∧ (∀ b ∈ f.regions, b.stop = n → b = a) ∧
          f.takeEndingAt n = (.ok (some a), ⟨f.regions.erase a, f.capacity⟩)) := by
  have hp : pickBy (Region.endsAt n) f.regions = .ok (pick (fun e => e.stop == n) f.regions) :=
    pickBy_eq_pick fun x hx => endsAt_of_lt (hv.shaped.fits x hx) n
  cases hq : pick (fun e => e.stop == n) f.regions with
  | none =>
    have htake : f.takeEndingAt n = (.ok none, f) := by rw [takeEndingAt, hp, hq]
    refine ⟨by rw [htake]; exact hv, .inl ⟨htake, fun a ha => ?_⟩⟩
    simpa using pick_eq_none hq a ha
  | some found =>
    obtain ⟨a, rest⟩ := found
    obtain ⟨pre, post, hl, rfl, hend, hpre⟩ := pick_eq_some hq
    have hstop : a.stop = n := by simpa using hend
    have hnotin : a ∉ pre := fun ha => by simpa [hstop] using hpre a ha
    have herase : f.regions.erase a = pre ++ post := by
      rw [hl, List.erase_append_right _ hnotin, List.erase_cons_head]
    have hsub : (pre ++ post).Sublist f.regions := by
      rw [hl]; exact (List.Sublist.refl pre).append (List.sublist_cons_self a post)
    have htake : f.takeEndingAt n = (.ok (some a), ⟨f.regions.erase a, f.capacity⟩) := by
      rw [takeEndingAt, hp, hq, herase]
    refine ⟨by rw [htake, herase]; exact ⟨hv.shaped.sublist hsub, Nat.le_trans hsub.length_le hv.length_le⟩,
      .inr ⟨a, by rw [hl]; simp, hstop, fun b hb hbn => ?_, htake⟩⟩
    rw [hl] at hb
    rcases List.mem_append.1 hb with hb | hb
    · have hab := FreeList.apart_of_split (hl ▸ hv.shaped.apart) (List.mem_append_left post hb)
      have hbpos := hv.shaped.pos b (hsub.subset (List.mem_append_left post hb))
      simp only [Region.Apart, Region.stop] at hab hstop hbn hbpos
      omega
    · rcases List.mem_cons.1 hb with rfl | hb
      · rfl
      · have hab := FreeList.apart_of_split (hl ▸ hv.shaped.apart) (List.mem_append_right pre hb)
        have hbpos := hv.shaped.pos b (hsub.subset (List.mem_append_right pre hb))
        simp only [Region.Apart, Region.stop] at hab hstop hbn hbpos
        omega

/-! ## Giving space back -/

/-- Giving back `s` bytes at `o` to `f`: they merge with every free region next
to them into `merged`, which joins the regions that were not next to them, in
order (`grown`); when that is more regions than the capacity, the smallest
leaves and is answered. The bytes free grow by `s`, less what was dropped. -/
structure ReleasesAs (f : FreeList) (o s : Nat) (merged : Region) (grown : List Region) : Prop where
  covers : ∀ i, merged.Covers i ↔ (⟨o, s⟩ : Region).Covers i ∨
    ∃ a ∈ f.regions, Region.adjacent ⟨o, s⟩ a = true ∧ a.Covers i
  perm : grown.Perm (merged :: f.regions.filter fun a => !Region.adjacent ⟨o, s⟩ a)
  sorted : grown.Pairwise Region.Before
  result : f.release o s = if f.capacity < grown.length then
    (.ok grown.head?, ⟨grown.tail, f.capacity⟩) else (.ok none, ⟨grown, f.capacity⟩)
  freeBytes : ∃ t t', f.freeBytes = .ok t ∧ (f.release o s).2.freeBytes = .ok t' ∧
    t' + (if f.capacity < grown.length then (grown.head?.map Region.size).getD 0 else 0) = t + s

/-- Giving back to a well-formed free list a region of a positive size within a
word that misses every free region keeps the list well formed. -/
theorem release_spec {f : FreeList} (hv : f.Valid) {o s : Nat} (hs : 0 < s) (hfit : o + s < wordSize)
    (hdisj : ∀ a ∈ f.regions, Region.Disjoint ⟨o, s⟩ a) :
    (f.release o s).2.Valid ∧ ∃ merged grown, ReleasesAs f o s merged grown := by
  have habs : Absorbing ⟨o, s⟩ ⟨o, s⟩ f.regions :=
    ⟨hv.shaped.apart, hv.shaped.pos, hv.shaped.fits, hfit, hdisj, ⟨le_refl _, le_refl _⟩,
      fun _ _ h => h⟩
  obtain ⟨merged, hm, hcov, hsize, hstop, hapart⟩ := absorb_eq _ _ _ habs
  have hmsize : merged.size =
      s + ((f.regions.filter (Region.adjacent ⟨o, s⟩)).map Region.size).sum := hsize
  have hshaped := (hv.shaped.sublist List.filter_sublist).insertOrdered
    (show 0 < merged.size by omega) hstop hapart
  have hperm := insertOrdered_perm merged (f.regions.filter fun a => !Region.adjacent ⟨o, s⟩ a)
  generalize hgrown : FreeList.insertOrdered merged
    (f.regions.filter fun a => !Region.adjacent ⟨o, s⟩ a) = grown at hshaped hperm
  obtain ⟨x, xs, rfl⟩ : ∃ x xs, grown = x :: xs :=
    List.exists_cons_of_ne_nil fun h => by simp [h] at hperm
  have hrel : f.release o s = if f.capacity < (x :: xs).length then
      (.ok (x :: xs).head?, ⟨(x :: xs).tail, f.capacity⟩) else (.ok none, ⟨x :: xs, f.capacity⟩) := by
    unfold release
    rw [hm]
    dsimp only
    rw [hgrown]
    split <;> rfl
  have hlen : (x :: xs).length ≤ f.capacity + 1 := by
    rw [hperm.length_eq, List.length_cons]
    exact Nat.succ_le_succ (Nat.le_trans (List.length_filter_le _ _) hv.length_le)
  have hvalid : (f.release o s).2.Valid := by
    rw [hrel]
    split
    · exact ⟨hshaped.sublist (List.sublist_cons_self x xs), by simp at hlen ⊢; omega⟩
    · next hle => exact ⟨hshaped, Nat.le_of_not_lt hle⟩
  refine ⟨hvalid, merged, x :: xs, ⟨fun i => ?_, hperm, hshaped.sorted, hrel, ?_⟩⟩
  · rw [hcov]
  · refine ⟨_, _, freeBytes_eq hv.shaped, freeBytes_eq hvalid.shaped, ?_⟩
    have hsplit := sum_filter_adjacent ⟨o, s⟩ f.regions
    have hgrow : ((x :: xs).map Region.size).sum = merged.size +
        ((f.regions.filter fun a => !Region.adjacent ⟨o, s⟩ a).map Region.size).sum := by
      rw [(hperm.map Region.size).sum_eq]; simp
    rw [hrel]
    split
    · simp only [List.map_cons, List.sum_cons, List.tail_cons, List.head?_cons, Option.map_some,
        Option.getD_some] at hgrow ⊢
      omega
    · simp only [Nat.add_zero]
      omega

/-! ## Every operation -/

/-- What every operation on a free list does: a take of a positive size, a take
of the region ending at a position, and the release of a region of positive
size within a word that misses every free region each leave the list well
formed, answer without overflow, and do what `take_spec`, `takeEndingAt_spec`
and `release_spec` say. -/
structure Behaves (f : FreeList) : Prop where
  take : ∀ s, 0 < s → (f.take s).2.Valid ∧
    ((f.take s = (.ok none, f) ∧ ∀ e ∈ f.regions, e.size < s) ∨ ∃ e, TakesFrom f s e)
  takeEndingAt : ∀ n, (f.takeEndingAt n).2.Valid ∧
    ((f.takeEndingAt n = (.ok none, f) ∧ ∀ a ∈ f.regions, a.stop ≠ n) ∨
      ∃ a ∈ f.regions, a.stop = n ∧ (∀ b ∈ f.regions, b.stop = n → b = a) ∧
        f.takeEndingAt n = (.ok (some a), ⟨f.regions.erase a, f.capacity⟩))
  release : ∀ o s, 0 < s → o + s < wordSize → (∀ a ∈ f.regions, Region.Disjoint ⟨o, s⟩ a) →
    (f.release o s).2.Valid ∧ ∃ merged grown, ReleasesAs f o s merged grown

/-- A well-formed free list behaves: its shape survives every operation, and
each does what it says. -/
theorem operations_keep_shape (f : FreeList) (hv : f.Valid) : f.Behaves :=
  ⟨fun _ hs => take_spec hv hs, fun n => takeEndingAt_spec hv n,
    fun _ _ hs hfit hdisj => release_spec hv hs hfit hdisj⟩

/-- A free list of two regions, of 32 bytes at 4096 and of 100 bytes at 1024,
with room for four, is well formed and behaves. -/
theorem operations_keep_shape_two_regions :
    Valid ⟨[⟨4096, 32⟩, ⟨1024, 100⟩], 4⟩ ∧ Behaves ⟨[⟨4096, 32⟩, ⟨1024, 100⟩], 4⟩ := by
  have hv : Valid ⟨[⟨4096, 32⟩, ⟨1024, 100⟩], 4⟩ :=
    ⟨⟨by simp [Region.Before], by simp, by simp [Region.Apart, Region.stop],
      by simp [Region.stop, wordSize]⟩, by decide⟩
  exact ⟨hv, operations_keep_shape _ hv⟩

end FreeList

end HashFile
