import HashFile.Header
import Mathlib

/-!
# Space allocation

The header hands out and takes back regions of the file. Its layout is sound
for a list of regions in use (`Header.Layout`) when the regions in use and the
free regions are pairwise disjoint and lie below the allocation frontier, no
free region ends at the frontier, no two free regions touch, and the free list
is sorted by size, then offset, within its capacity.

Allocation keeps the layout and adds the region it hands out to the regions in
use (`Layout.allocate`); giving a region in use back keeps the layout and drops
it (`Layout.release`). So a region handed out never overlaps anything in use,
and space is never handed out twice. A remainder too small to stay free, or the
smallest region dropped from a full free list, is neither used nor free: it is
leaked until the file is reorganized, which the layout allows.
-/
namespace HashFile

namespace Region

/-- Two regions share no byte. -/
def Disjoint (a b : Region) : Prop := a.stop ≤ b.offset ∨ b.stop ≤ a.offset

/-- Two regions are disjoint and do not touch. -/
def Apart (a b : Region) : Prop := a.stop < b.offset ∨ b.stop < a.offset

theorem Disjoint.symm {a b : Region} (h : a.Disjoint b) : b.Disjoint a := Or.symm h

theorem Apart.symm {a b : Region} (h : a.Apart b) : b.Apart a := Or.symm h

theorem Apart.disjoint {a b : Region} (h : a.Apart b) : a.Disjoint b := by
  unfold Apart at h; unfold Disjoint; omega

/-- The order of the free list is total. -/
theorem precedes_total (a b : Region) : a.precedes b = true ∨ b.precedes a = true := by
  simp only [precedes, Bool.or_eq_true, Bool.and_eq_true, beq_iff_eq, decide_eq_true_eq]
  omega

theorem precedes_trans {a b c : Region} (hab : a.precedes b = true) (hbc : b.precedes c = true) :
    a.precedes c = true := by
  simp only [precedes, Bool.or_eq_true, Bool.and_eq_true, beq_iff_eq, decide_eq_true_eq] at *
  omega

end Region

namespace FreeList

/-! ## Taking a region out of a list -/

/-- `pick` removes the first region with the property from where it stood. -/
theorem pick_eq_some {p : Region → Bool} :
    ∀ {l : List Region} {x : Region} {rest : List Region}, pick p l = some (x, rest) →
      ∃ pre post, l = pre ++ x :: post ∧ rest = pre ++ post ∧ p x = true ∧
        ∀ y ∈ pre, p y = false
  | [], _, _, h => by simp [pick] at h
  | r :: rs, x, rest, h => by
    unfold pick at h
    split at h
    · next hr =>
      simp only [Option.some.injEq, Prod.mk.injEq] at h
      obtain ⟨rfl, rfl⟩ := h
      exact ⟨[], rs, rfl, rfl, hr, by simp⟩
    · next hr =>
      obtain ⟨⟨y, ys⟩, hy, he⟩ := Option.map_eq_some_iff.1 h
      simp only [Prod.mk.injEq] at he
      obtain ⟨rfl, rfl⟩ := he
      obtain ⟨pre, post, rfl, rfl, hx, hpre⟩ := pick_eq_some hy
      refine ⟨r :: pre, post, rfl, rfl, hx, ?_⟩
      intro y hy
      rcases List.mem_cons.1 hy with rfl | hy
      · simpa using hr
      · exact hpre y hy

/-- `pickBy` removes the first region the check accepts from where it stood;
every region before it was checked and refused. -/
theorem pickBy_eq_some {p : Region → Except Overflow Bool} :
    ∀ {l : List Region} {x : Region} {rest : List Region}, pickBy p l = .ok (some (x, rest)) →
      ∃ pre post, l = pre ++ x :: post ∧ rest = pre ++ post ∧ p x = .ok true ∧
        ∀ y ∈ pre, p y = .ok false
  | [], _, _, h => by simp [pickBy] at h
  | r :: rs, x, rest, h => by
    unfold pickBy at h
    cases hr : p r with
    | error o => simp [hr, bind, Except.bind] at h
    | ok b =>
      cases b with
      | true =>
        simp only [hr, bind, Except.bind, if_true, pure, Except.pure, Except.ok.injEq,
          Option.some.injEq, Prod.mk.injEq] at h
        obtain ⟨rfl, rfl⟩ := h
        exact ⟨[], rs, rfl, rfl, hr, by simp⟩
      | false =>
        simp only [hr, bind, Except.bind, Bool.false_eq_true, if_false] at h
        cases hrs : pickBy p rs with
        | error o => simp [hrs] at h
        | ok found =>
          cases found with
          | none => simp [hrs, pure, Except.pure] at h
          | some y =>
            obtain ⟨y, ys⟩ := y
            simp only [hrs, Option.map_some, pure, Except.pure, Except.ok.injEq,
              Option.some.injEq, Prod.mk.injEq] at h
            obtain ⟨rfl, rfl⟩ := h
            obtain ⟨pre, post, rfl, rfl, hx, hpre⟩ := pickBy_eq_some hrs
            refine ⟨r :: pre, post, rfl, rfl, hx, ?_⟩
            intro y hy
            rcases List.mem_cons.1 hy with rfl | hy
            · exact hr
            · exact hpre y hy

/-- When `pickBy` finds nothing, the check refused every region. -/
theorem pickBy_eq_none {p : Region → Except Overflow Bool} :
    ∀ {l : List Region}, pickBy p l = .ok none → ∀ y ∈ l, p y = .ok false
  | [], _ => by simp
  | r :: rs, h => by
    unfold pickBy at h
    cases hr : p r with
    | error o => simp [hr, bind, Except.bind] at h
    | ok b =>
      cases b with
      | true => simp [hr, bind, Except.bind, pure, Except.pure] at h
      | false =>
        simp only [hr, bind, Except.bind, Bool.false_eq_true, if_false] at h
        cases hrs : pickBy p rs with
        | error o => simp [hrs] at h
        | ok found =>
          cases found with
          | none =>
            intro y hy
            rcases List.mem_cons.1 hy with rfl | hy
            · exact hr
            · exact pickBy_eq_none hrs y hy
          | some y => simp [hrs, pure, Except.pure] at h

/-! ## Inserting in order -/

theorem insertOrdered_perm (r : Region) : ∀ l : List Region, (insertOrdered r l).Perm (r :: l)
  | [] => .refl _
  | x :: xs => by
    unfold insertOrdered
    split
    · exact .refl _
    · exact ((insertOrdered_perm r xs).cons x).trans (.swap r x xs)

/-- Inserting keeps the list sorted. -/
theorem sorted_insertOrdered (r : Region) :
    ∀ {l : List Region}, l.Pairwise (fun a b => a.precedes b = true) →
      (insertOrdered r l).Pairwise (fun a b => a.precedes b = true)
  | [], _ => List.pairwise_singleton _ r
  | x :: xs, h => by
    rw [List.pairwise_cons] at h
    unfold insertOrdered
    split
    · next hr =>
      refine List.Pairwise.cons ?_ (List.pairwise_cons.2 h)
      intro y hy
      rcases List.mem_cons.1 hy with rfl | hy
      · exact hr
      · exact Region.precedes_trans hr (h.1 y hy)
    · next hr =>
      refine List.Pairwise.cons ?_ (sorted_insertOrdered r h.2)
      intro y hy
      rcases List.mem_cons.1 ((insertOrdered_perm r xs).subset hy) with rfl | hy
      · exact (Region.precedes_total x y).resolve_right (by simpa using hr)
      · exact h.1 y hy

/-! ## Merging a region given back -/

theorem stop?_eq {r : Region} {s : Nat} (h : r.stop? = .ok s) : s = r.stop := by
  unfold Region.stop? addWord at h
  split at h
  · simp only [Except.ok.injEq] at h; exact h.symm
  · cases h

theorem touches_eq_true {m e : Region} (h : Region.touches m e = .ok true) :
    e.stop = m.offset ∨ m.stop = e.offset := by
  unfold Region.touches at h
  cases he : e.stop? with
  | error o => simp [he, bind, Except.bind] at h
  | ok s =>
    by_cases hsm : s = m.offset
    · exact .inl (stop?_eq he ▸ hsm)
    · cases hm : m.stop? with
      | error o => simp [he, hm, hsm, bind, Except.bind] at h
      | ok t =>
        simp [he, hm, hsm, bind, Except.bind, pure, Except.pure] at h
        exact .inr (stop?_eq hm ▸ h)

theorem touches_eq_false {m e : Region} (h : Region.touches m e = .ok false) :
    e.stop ≠ m.offset ∧ m.stop ≠ e.offset := by
  unfold Region.touches at h
  cases he : e.stop? with
  | error o => simp [he, bind, Except.bind] at h
  | ok s =>
    by_cases hsm : s = m.offset
    · simp [he, hsm, bind, Except.bind, pure, Except.pure] at h
    · cases hm : m.stop? with
      | error o => simp [he, hm, hsm, bind, Except.bind] at h
      | ok t =>
        simp [he, hm, hsm, bind, Except.bind, pure, Except.pure] at h
        exact ⟨stop?_eq he ▸ hsm, stop?_eq hm ▸ h⟩

/-- What `absorb` does: the regions it takes leave the list, the merged region
covers what they and `m` covered and nothing else, and no region left touches
it. -/
theorem absorb_spec (m : Region) (l : List Region) {m' : Region} {l' : List Region}
    (h : absorb m l = (.ok m', l')) :
    ∃ taken, l.Perm (taken ++ l') ∧ l'.Sublist l ∧
      (∀ u : Region, 0 < u.size → u.Disjoint m → (∀ x ∈ taken, u.Disjoint x) → u.Disjoint m') ∧
      (∀ N, m.stop < N → (∀ x ∈ taken, x.stop < N) → m'.stop < N) ∧
      m.size ≤ m'.size ∧ ∀ x ∈ l', Region.touches m' x = .ok false := by
  unfold absorb at h
  split at h
  · simp at h
  · next hp =>
    simp only [Prod.mk.injEq, Except.ok.injEq] at h
    obtain ⟨rfl, rfl⟩ := h
    exact ⟨[], .refl _, .refl _, fun u _ hu _ => hu, fun N hN _ => hN, Nat.le_refl _,
      pickBy_eq_none hp⟩
  · next e rest hp =>
    have hlen : rest.length < l.length := by have := pickBy_length hp; omega
    split at h
    · simp at h
    · next size hsize =>
      have hsz : size = e.size + m.size := by
        unfold addWord at hsize; split at hsize <;> simp_all
      obtain ⟨pre, post, rfl, rfl, hte, -⟩ := pickBy_eq_some hp
      have ht := touches_eq_true hte
      obtain ⟨taken, hperm, hsub, hdisj, hstop, hsizele, htouch⟩ :=
        absorb_spec ⟨min e.offset m.offset, size⟩ (pre ++ post) h
      refine ⟨e :: taken, ?_, ?_, ?_, ?_, ?_, htouch⟩
      · exact List.perm_middle.trans (hperm.cons e)
      · exact hsub.trans ((List.Sublist.refl pre).append (List.sublist_cons_self e post))
      · intro u hu hum hut
        apply hdisj u hu _ fun x hx => hut x (List.mem_cons_of_mem _ hx)
        have hue : u.Disjoint e := hut e List.mem_cons_self
        simp only [Region.Disjoint, Region.stop, hsz] at hum hue ht ⊢
        omega
      · intro N hN hx
        apply hstop N _ fun x hx' => hx x (List.mem_cons_of_mem _ hx')
        have hxe : e.stop < N := hx e List.mem_cons_self
        simp only [Region.stop, hsz] at hN hxe ht ⊢
        omega
      · simp only [hsz] at hsizele
        omega
termination_by l.length

/-- What `take` hands out: the start of the first region large enough, whose
rest stays free when it is at least `minSplit` bytes. -/
theorem take_eq_some {f f' : FreeList} {size off : Nat} (h : f.take size = (.ok (some off), f')) :
    ∃ pre e post, f.regions = pre ++ e :: post ∧ off = e.offset ∧ size ≤ e.size ∧
      f'.capacity = f.capacity ∧
      (if minSplit ≤ e.size - size then
        f'.regions = insertOrdered ⟨e.offset + size, e.size - size⟩ (pre ++ post)
      else f'.regions = pre ++ post) := by
  unfold take at h
  split at h
  · simp at h
  · next e rest hp =>
    obtain ⟨pre, post, hl, rfl, hfit, -⟩ := pick_eq_some hp
    refine ⟨pre, e, post, hl, ?_⟩
    dsimp only at h
    by_cases hsplit : minSplit ≤ e.size - size
    · rw [if_pos hsplit] at h
      split at h
      · simp at h
      · next o ho =>
        simp only [Prod.mk.injEq, Except.ok.injEq, Option.some.injEq] at h
        obtain ⟨rfl, rfl⟩ := h
        have : o = e.offset + size := by
          unfold addWord at ho; split at ho <;> simp_all
        subst this
        exact ⟨rfl, by simpa using hfit, rfl, by rw [if_pos hsplit]⟩
    · rw [if_neg hsplit] at h
      simp only [Prod.mk.injEq, Except.ok.injEq, Option.some.injEq] at h
      obtain ⟨rfl, rfl⟩ := h
      exact ⟨rfl, by simpa using hfit, rfl, by rw [if_neg hsplit]⟩

theorem take_eq_none {f f' : FreeList} {size : Nat} (h : f.take size = (.ok none, f')) :
    f' = f := by
  unfold take at h
  split at h
  · simp only [Prod.mk.injEq] at h; exact h.2.symm
  · dsimp only at h
    split at h
    · split at h <;> simp at h
    · simp at h

/-- What `release` keeps: the merged region with the regions it did not touch,
less the smallest region when the list overflows. -/
theorem release_eq {f f' : FreeList} {off size : Nat} {r : Option Region}
    (h : f.release off size = (.ok r, f')) :
    ∃ merged rest, absorb ⟨off, size⟩ f.regions = (.ok merged, rest) ∧
      f'.regions.Sublist (insertOrdered merged rest) ∧ f'.capacity = f.capacity ∧
      (f'.regions.length ≤ f.capacity ∨ f'.regions.length = rest.length) := by
  unfold release at h
  split at h
  · simp at h
  · next merged rest habs =>
    refine ⟨merged, rest, habs, ?_⟩
    dsimp only at h
    split at h
    · next hover =>
      split at h
      · next hnil =>
        simp only [Prod.mk.injEq] at h
        obtain ⟨-, rfl⟩ := h
        exact ⟨by simp only [hnil, List.Sublist.refl], rfl, .inl (by rw [hnil]; exact Nat.zero_le _)⟩
      · next smallest others hcons =>
        simp only [Prod.mk.injEq] at h
        obtain ⟨-, rfl⟩ := h
        refine ⟨by rw [hcons]; exact List.sublist_cons_self _ _, rfl, .inr ?_⟩
        have := (insertOrdered_perm merged rest).length_eq
        rw [hcons] at this
        simp only [List.length_cons] at this
        exact Nat.succ.inj this
    · next hfit =>
      simp only [Prod.mk.injEq] at h
      obtain ⟨-, rfl⟩ := h
      exact ⟨.refl _, rfl, .inl (Nat.le_of_not_lt hfit)⟩

/-- A region picked out of a list of regions that are pairwise apart is apart
from every region left. -/
theorem apart_of_split {pre post : List Region} {e x : Region}
    (h : (pre ++ e :: post).Pairwise Region.Apart) (hx : x ∈ pre ++ post) : e.Apart x := by
  rw [List.pairwise_append] at h
  rcases List.mem_append.1 hx with hx | hx
  · exact (h.2.2 x hx e List.mem_cons_self).symm
  · exact List.rel_of_pairwise_cons h.2.1 hx

end FreeList

theorem Region.endsAt_eq {N : Nat} {e : Region} {b : Bool} (h : Region.endsAt N e = .ok b) :
    (b = true ↔ e.stop = N) := by
  unfold Region.endsAt at h
  cases he : e.stop? with
  | error o => simp [he, bind, Except.bind] at h
  | ok s =>
    simp only [he, bind, Except.bind, pure, Except.pure, Except.ok.injEq] at h
    rw [← h, FreeList.stop?_eq he]
    simp

namespace Header

/-- Moving the frontier back over the free regions that end at it leaves no
free region ending there, and nothing in use past it. -/
theorem shrinkFrontier_spec (h : Header) {U : List Region} {h' : Header}
    (hs : h.shrinkFrontier = (.ok (), h'))
    (hU : ∀ r ∈ U, 0 < r.size ∧ r.stop ≤ h.nextBlock ∧ ∀ a ∈ h.avail.regions, r.Disjoint a)
    (hapart : h.avail.regions.Pairwise Region.Apart)
    (hpos : ∀ a ∈ h.avail.regions, 0 < a.size)
    (hbelow : ∀ a ∈ h.avail.regions, a.stop ≤ h.nextBlock) :
    ∃ next rest, h' = { h with nextBlock := next, avail := ⟨rest, h.avail.capacity⟩ } ∧
      rest.Sublist h.avail.regions ∧ next ≤ h.nextBlock ∧
      (∀ r ∈ U, r.stop ≤ next) ∧ ∀ a ∈ rest, a.stop < next := by
  unfold shrinkFrontier at hs
  split at hs
  · simp at hs
  · next hp =>
    simp only [Prod.mk.injEq] at hs
    obtain ⟨-, rfl⟩ := hs
    refine ⟨h.nextBlock, h.avail.regions, rfl, .refl _, Nat.le_refl _,
      fun r hr => (hU r hr).2.1, fun a ha => ?_⟩
    have hne : a.stop ≠ h.nextBlock := fun heq =>
      Bool.false_ne_true ((Region.endsAt_eq (FreeList.pickBy_eq_none hp a ha)).2 heq)
    exact Nat.lt_of_le_of_ne (hbelow a ha) hne
  · next e rest hp =>
    have hlen : rest.length < h.avail.regions.length := by
      have := FreeList.pickBy_length hp; omega
    obtain ⟨pre, post, hl, rfl, hend, -⟩ := FreeList.pickBy_eq_some hp
    have hstop : e.offset + e.size = h.nextBlock := (Region.endsAt_eq hend).1 rfl
    have hmem : e ∈ h.avail.regions := by rw [hl]; simp
    have hsub : (pre ++ post).Sublist h.avail.regions := by
      rw [hl]; exact (List.Sublist.refl pre).append (List.sublist_cons_self e post)
    have hea := hpos e hmem
    rw [hl] at hapart
    obtain ⟨next, rest', rfl, hsub', hle, hUn, hrest⟩ := shrinkFrontier_spec _ hs
      (fun r hr => by
        obtain ⟨hrpos, hrle, hrd⟩ := hU r hr
        refine ⟨hrpos, ?_, fun a ha => hrd a (hsub.subset ha)⟩
        show r.offset + r.size ≤ e.offset
        have := hrd e hmem
        simp only [Region.Disjoint, Region.stop] at this hrle
        omega)
      (hapart.sublist ((List.Sublist.refl pre).append (List.sublist_cons_self e post)))
      (fun a ha => hpos a (hsub.subset ha))
      (fun a ha => by
        show a.offset + a.size ≤ e.offset
        have hx := FreeList.apart_of_split hapart ha
        have := hpos a (hsub.subset ha)
        have := hbelow a (hsub.subset ha)
        unfold Region.Apart Region.stop at hx this
        omega)
    exact ⟨next, rest', rfl, hsub'.trans hsub, Nat.le_trans hle (by show e.offset ≤ _; omega),
      hUn, hrest⟩
termination_by h.avail.regions.length
decreasing_by simp_wf; simp only [List.length_append] at hlen; omega

/-! ## The layout of the file -/

/-- The header's allocation state is sound for the regions in `used`: regions
in use and free regions are pairwise disjoint and below the frontier; free
regions are not empty, never touch each other or end at the frontier, and are
kept sorted within the list's capacity. -/
structure Layout (h : Header) (used : List Region) : Prop where
  used_disjoint : used.Pairwise Region.Disjoint
  used_pos : ∀ r ∈ used, 0 < r.size
  used_below : ∀ r ∈ used, r.stop ≤ h.nextBlock
  free_used : ∀ r ∈ used, ∀ a ∈ h.avail.regions, r.Disjoint a
  free_apart : h.avail.regions.Pairwise Region.Apart
  free_pos : ∀ a ∈ h.avail.regions, 0 < a.size
  free_below : ∀ a ∈ h.avail.regions, a.stop < h.nextBlock
  sorted : h.avail.regions.Pairwise fun a b => a.precedes b = true
  length_le : h.avail.regions.length ≤ h.avail.capacity
  next_lt : h.nextBlock < wordSize

/-- The layout reads only the header's allocation state: its frontier and free
list. -/
theorem Layout.congr {h h' : Header} {U : List Region} (hl : h.Layout U)
    (hnext : h'.nextBlock = h.nextBlock) (havail : h'.avail = h.avail) : h'.Layout U where
  used_disjoint := hl.used_disjoint
  used_pos := hl.used_pos
  used_below r hr := hnext ▸ hl.used_below r hr
  free_used r hr := havail ▸ hl.free_used r hr
  free_apart := havail ▸ hl.free_apart
  free_pos := havail ▸ hl.free_pos
  free_below := hnext ▸ havail ▸ hl.free_below
  sorted := havail ▸ hl.sorted
  length_le := havail ▸ hl.length_le
  next_lt := hnext ▸ hl.next_lt

/-- Only which regions are in use matters, not their order. -/
theorem Layout.perm {h : Header} {U U' : List Region} (hl : h.Layout U) (hp : U.Perm U') :
    h.Layout U' where
  used_disjoint := (hp.pairwise_iff fun hab => Region.Disjoint.symm hab).1 hl.used_disjoint
  used_pos r hr := hl.used_pos r (hp.symm.subset hr)
  used_below r hr := hl.used_below r (hp.symm.subset hr)
  free_used r hr := hl.free_used r (hp.symm.subset hr)
  free_apart := hl.free_apart
  free_pos := hl.free_pos
  free_below := hl.free_below
  sorted := hl.sorted
  length_le := hl.length_le
  next_lt := hl.next_lt

/-- Handing out the first `n` bytes of the free region `e` keeps the layout,
with those bytes in use and what remains of `e` free when it is large enough. -/
theorem layout_take {h : Header} {U : List Region} (hl : h.Layout U) {pre post : List Region}
    {e : Region} (hregs : h.avail.regions = pre ++ e :: post) {n : Nat} (hn : 0 < n)
    (hfit : n ≤ e.size) {A : FreeList} (hcap : A.capacity = h.avail.capacity)
    (hA : A.regions = if minSplit ≤ e.size - n then
      FreeList.insertOrdered ⟨e.offset + n, e.size - n⟩ (pre ++ post) else pre ++ post) :
    ({ h with avail := A } : Header).Layout (⟨e.offset, n⟩ :: U) := by
  have hmem : e ∈ h.avail.regions := by rw [hregs]; simp
  have happ := hl.free_apart
  rw [hregs] at happ
  have hsub : (pre ++ post).Sublist h.avail.regions := by
    rw [hregs]; exact (List.Sublist.refl pre).append (List.sublist_cons_self e post)
  have hepos := hl.free_pos e hmem
  have hebelow := hl.free_below e hmem
  have hRU : ∀ u ∈ U, Region.Disjoint ⟨e.offset, n⟩ u := fun u hu => by
    have := hl.free_used u hu e hmem
    simp only [Region.Disjoint, Region.stop] at *; omega
  have hRrest : ∀ x ∈ pre ++ post, Region.Disjoint ⟨e.offset, n⟩ x := fun x hx => by
    have := FreeList.apart_of_split happ hx
    simp only [Region.Apart, Region.Disjoint, Region.stop] at *; omega
  have hfree : ∀ a ∈ A.regions, (a ∈ pre ++ post) ∨
      (minSplit ≤ e.size - n ∧ a = ⟨e.offset + n, e.size - n⟩) := fun a ha => by
    rw [hA] at ha
    split at ha
    · next hs =>
      rcases List.mem_cons.1 ((FreeList.insertOrdered_perm _ _).subset ha) with rfl | ha
      · exact .inr ⟨hs, rfl⟩
      · exact .inl ha
    · exact .inl ha
  refine ⟨List.pairwise_cons.2 ⟨hRU, hl.used_disjoint⟩, ?_, ?_, ?_, ?_, ?_, ?_, ?_, ?_, hl.next_lt⟩
  · intro r hr
    rcases List.mem_cons.1 hr with rfl | hr
    · exact hn
    · exact hl.used_pos r hr
  · intro r hr
    rcases List.mem_cons.1 hr with rfl | hr
    · show e.offset + n ≤ h.nextBlock
      simp only [Region.stop] at hebelow; omega
    · exact hl.used_below r hr
  · intro r hr a ha
    rcases hfree a ha with ha | ⟨-, rfl⟩
    · rcases List.mem_cons.1 hr with rfl | hr
      · exact hRrest a ha
      · exact hl.free_used r hr a (hsub.subset ha)
    · rcases List.mem_cons.1 hr with rfl | hr
      · simp only [Region.Disjoint, Region.stop]; omega
      · have := hl.free_used r hr e hmem
        simp only [Region.Disjoint, Region.stop] at *; omega
  · show A.regions.Pairwise Region.Apart
    rw [hA]
    split
    · refine ((FreeList.insertOrdered_perm _ _).pairwise_iff fun hab => Region.Apart.symm hab).2 ?_
      refine List.pairwise_cons.2 ⟨fun x hx => ?_, happ.sublist ?_⟩
      · have := FreeList.apart_of_split happ hx
        simp only [Region.Apart, Region.stop] at *; omega
      · exact (List.Sublist.refl pre).append (List.sublist_cons_self e post)
    · exact happ.sublist ((List.Sublist.refl pre).append (List.sublist_cons_self e post))
  · intro a ha
    rcases hfree a ha with ha | ⟨hs, rfl⟩
    · exact hl.free_pos a (hsub.subset ha)
    · show 0 < e.size - n
      unfold minSplit at hs; omega
  · intro a ha
    rcases hfree a ha with ha | ⟨-, rfl⟩
    · exact hl.free_below a (hsub.subset ha)
    · show e.offset + n + (e.size - n) < h.nextBlock
      simp only [Region.stop] at hebelow; omega
  · show A.regions.Pairwise fun a b => a.precedes b = true
    have hsorted := hl.sorted.sublist hsub
    rw [hA]
    split
    · exact FreeList.sorted_insertOrdered _ hsorted
    · exact hsorted
  · show A.regions.length ≤ A.capacity
    have hlen : h.avail.regions.length = (pre ++ post).length + 1 := by
      rw [hregs]; simp; omega
    have := hl.length_le
    rw [hA, hcap]
    split
    · rw [(FreeList.insertOrdered_perm _ _).length_eq]; simp only [List.length_cons]; omega
    · omega

/-- A successful allocation of `n > 0` bytes answers a region that joins those in
use without breaking the layout; only the frontier and the free list change. -/
theorem Layout.allocate {h h' : Header} {U : List Region} {n off : Nat} (hl : h.Layout U)
    (hn : 0 < n) (ha : h.allocate n = (.ok off, h')) :
    h'.Layout (⟨off, n⟩ :: U) ∧ ∃ next avail,
      h' = { h with nextBlock := next, avail } ∧ avail.capacity = h.avail.capacity := by
  unfold Header.allocate at ha
  rw [if_neg (Nat.pos_iff_ne_zero.1 hn)] at ha
  split at ha
  · simp at ha
  · next offset avail htake =>
    simp only [Prod.mk.injEq, Except.ok.injEq] at ha
    obtain ⟨rfl, rfl⟩ := ha
    obtain ⟨pre, e, post, hregs, rfl, hfit, hcap, hnew⟩ := FreeList.take_eq_some htake
    refine ⟨layout_take hl hregs hn hfit hcap ?_, h.nextBlock, avail, rfl, hcap⟩
    split <;> simp_all
  · next avail htake =>
    split at ha
    · simp at ha
    · next next hnext =>
      simp only [Prod.mk.injEq, Except.ok.injEq] at ha
      obtain ⟨rfl, rfl⟩ := ha
      have hsum : next = h.nextBlock + n ∧ h.nextBlock + n < wordSize := by
        unfold addWord at hnext; split at hnext <;> simp_all
      refine ⟨⟨List.pairwise_cons.2 ⟨fun u hu => ?_, hl.used_disjoint⟩, ?_, ?_, ?_,
        hl.free_apart, hl.free_pos, ?_, hl.sorted, hl.length_le, ?_⟩,
        next, h.avail, rfl, rfl⟩
      · have := hl.used_below u hu
        exact .inr this
      · intro r hr
        rcases List.mem_cons.1 hr with rfl | hr
        · exact hn
        · exact hl.used_pos r hr
      · intro r hr
        rcases List.mem_cons.1 hr with rfl | hr
        · show h.nextBlock + n ≤ next; omega
        · exact Nat.le_trans (hl.used_below r hr) (by show h.nextBlock ≤ next; omega)
      · intro r hr a ha
        rcases List.mem_cons.1 hr with rfl | hr
        · exact .inr (Nat.le_of_lt (hl.free_below a ha))
        · exact hl.free_used r hr a ha
      · intro a ha
        exact Nat.lt_of_lt_of_le (hl.free_below a ha) (by show h.nextBlock ≤ next; omega)
      · show next < wordSize; omega

/-- Giving back a region in use keeps the layout for the regions still in use;
only the frontier and the free list change. -/
theorem Layout.release {h h' : Header} {r : Region} {U : List Region} (hl : h.Layout (r :: U))
    (hr : h.release r.offset r.size = (.ok (), h')) :
    h'.Layout U ∧ ∃ next avail,
      h' = { h with nextBlock := next, avail } ∧ avail.capacity = h.avail.capacity := by
  have hrpos : 0 < r.size := hl.used_pos r List.mem_cons_self
  have hrbelow : r.stop ≤ h.nextBlock := hl.used_below r List.mem_cons_self
  have hrU : ∀ u ∈ U, r.Disjoint u := fun _ hu => List.rel_of_pairwise_cons hl.used_disjoint hu
  have hUd : U.Pairwise Region.Disjoint := (List.pairwise_cons.1 hl.used_disjoint).2
  unfold Header.release at hr
  rw [if_neg (Nat.pos_iff_ne_zero.1 hrpos)] at hr
  split at hr
  · simp at hr
  · next stop hstop =>
    have hst : stop = r.stop := by
      unfold addWord at hstop; split at hstop <;> simp_all [Region.stop]
    subst hst
    split at hr
    · next hend =>
      obtain ⟨next, rest, rfl, hsub, hle, hUn, hrest⟩ := shrinkFrontier_spec _ hr
        (U := U)
        (fun u hu => by
          have hd := hrU u hu
          have hup := hl.used_pos u (List.mem_cons_of_mem _ hu)
          have hub := hl.used_below u (List.mem_cons_of_mem _ hu)
          refine ⟨hup, ?_, hl.free_used u (List.mem_cons_of_mem _ hu)⟩
          show u.offset + u.size ≤ r.offset
          simp only [Region.Disjoint, Region.stop] at hd hub hend
          omega)
        hl.free_apart hl.free_pos
        (fun a ha => by
          have hd := hl.free_used r List.mem_cons_self a ha
          have hab := hl.free_below a ha
          show a.offset + a.size ≤ r.offset
          simp only [Region.Disjoint, Region.stop] at hd hab hend
          omega)
      have hnext : next < wordSize := by
        have := hl.next_lt
        have : next ≤ r.offset := hle
        simp only [Region.stop] at hend; omega
      refine ⟨⟨hUd, fun u hu => hl.used_pos u (List.mem_cons_of_mem _ hu), hUn,
        fun u hu a ha => hl.free_used u (List.mem_cons_of_mem _ hu) a (hsub.subset ha),
        hl.free_apart.sublist hsub, fun a ha => hl.free_pos a (hsub.subset ha), hrest,
        hl.sorted.sublist hsub, Nat.le_trans hsub.length_le hl.length_le, hnext⟩,
        next, ⟨rest, h.avail.capacity⟩, rfl, rfl⟩
    · next hend =>
      dsimp only at hr
      generalize hrel : h.avail.release r.offset r.size = res at hr
      obtain ⟨res, avail⟩ := res
      simp only [Prod.mk.injEq] at hr
      obtain ⟨hres, rfl⟩ := hr
      cases res with
      | error o => simp [Except.map] at hres
      | ok x =>
      obtain ⟨merged, rest, habs, hsub, hcap, hlen⟩ := FreeList.release_eq hrel
      obtain ⟨taken, hperm, hrest, hdisj, hstopN, hsize, htouch⟩ := FreeList.absorb_spec _ _ habs
      have htaken : ∀ x ∈ taken, x ∈ h.avail.regions := fun x hx =>
        hperm.symm.subset (List.mem_append_left _ hx)
      have happ : (taken ++ rest).Pairwise Region.Apart :=
        (hperm.pairwise_iff fun hab => Region.Apart.symm hab).1 hl.free_apart
      have hmerged : ∀ u : Region, 0 < u.size → u.Disjoint r →
          (∀ x ∈ taken, u.Disjoint x) → u.Disjoint merged := fun u hu hur hux =>
        hdisj u hu hur hux
      have hfree : ∀ a ∈ avail.regions, a = merged ∨ a ∈ rest := fun a ha =>
        List.mem_cons.1 ((FreeList.insertOrdered_perm merged rest).subset (hsub.subset ha))
      have hmpos : 0 < merged.size := Nat.lt_of_lt_of_le hrpos hsize
      have hmbelow : merged.stop < h.nextBlock := by
        refine hstopN _ ?_ fun x hx => hl.free_below x (htaken x hx)
        exact Nat.lt_of_le_of_ne hrbelow hend
      have hmapart : ∀ x ∈ rest, merged.Apart x := fun x hx => by
        have hxmem := hrest.subset hx
        have hxd : x.Disjoint merged := hmerged x (hl.free_pos x hxmem)
          (hl.free_used r List.mem_cons_self x hxmem).symm
          (fun y hy => (List.pairwise_append.1 happ).2.2 y hy x hx |>.symm.disjoint)
        have ht := FreeList.touches_eq_false (htouch x hx)
        simp only [Region.Disjoint, Region.Apart, Region.stop] at hxd ht ⊢
        omega
      have hfree_apart : (merged :: rest).Pairwise Region.Apart :=
        List.pairwise_cons.2 ⟨hmapart, (List.pairwise_append.1 happ).2.1⟩
      have hins := FreeList.insertOrdered_perm merged rest
      refine ⟨⟨hUd, fun u hu => hl.used_pos u (List.mem_cons_of_mem _ hu),
        fun u hu => hl.used_below u (List.mem_cons_of_mem _ hu), ?_, ?_, ?_, ?_, ?_, ?_,
        hl.next_lt⟩, h.nextBlock, avail, rfl, hcap⟩
      · intro u hu a ha
        have hu' := List.mem_cons_of_mem r hu
        rcases hfree a ha with rfl | ha
        · exact hmerged u (hl.used_pos u hu') (hrU u hu).symm
            fun x hx => hl.free_used u hu' x (htaken x hx)
        · exact hl.free_used u hu' a (hrest.subset ha)
      · exact ((hins.pairwise_iff fun hab => Region.Apart.symm hab).2 hfree_apart).sublist hsub
      · intro a ha
        rcases hfree a ha with rfl | ha
        · exact hmpos
        · exact hl.free_pos a (hrest.subset ha)
      · intro a ha
        rcases hfree a ha with rfl | ha
        · exact hmbelow
        · exact hl.free_below a (hrest.subset ha)
      · exact (FreeList.sorted_insertOrdered merged (hl.sorted.sublist hrest)).sublist hsub
      · show avail.regions.length ≤ avail.capacity
        rw [hcap]
        rcases hlen with hlen | hlen
        · exact hlen
        · rw [hlen]; exact Nat.le_trans hrest.length_le hl.length_le

end Header

end HashFile
