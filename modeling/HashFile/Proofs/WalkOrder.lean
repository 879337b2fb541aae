import HashFile.Proofs.Image
import HashFile.Bucket.Walk
import HashFile.Index.Traverse

/-!
# The order of a traversal

A traversal visits the buckets in directory order, each at the first index of
its run of entries (`Directory.heads`), and in each bucket the occupied slots
cyclically from the bucket's walk start (`Bucket.walkOrder`). Both orders are
lists here, apart from the actions that follow them: `occupiedFrom` past an
occupied slot finds the next slot in walk order (`occupiedFrom_next`), a walk
meets every entry of its bucket once (`walkOrder_perm`), and the first indices
of the runs of an aligned directory name every bucket once (`heads_perm`).

Together they give the positions a traversal of an image visits
(`Image.positions`) and the pairs it answers (`Image.traversal`): every record
of a shaped image once (`slots_positions_perm`), so the traversal lists each
stored key once with its value (`mem_traversal`). What follows a position is
read off the walk order of its bucket and the runs after its own
(`positions_eq_append`).
-/
namespace HashFile

namespace Bucket

variable {b : Bucket} {start : Nat}

/-- The occupied slots in the order a walk from `start` meets them. -/
def walkOrder (b : Bucket) (start : Nat) : List Nat :=
  (cyclic b.size start).filter fun s => !(b.slot s).isVacant

theorem add_mod_eq_mod_add {n start i : Nat} (hi : i < n) :
    (start + i) % n = (start % n + i) % n := by
  rw [Nat.add_mod, Nat.mod_eq_of_lt hi]

theorem mem_cyclic {n start s : Nat} (hn : 0 < n) : s ∈ cyclic n start ↔ s < n := by
  constructor
  · intro h
    obtain ⟨i, -, rfl⟩ := List.mem_map.1 h
    exact Nat.mod_lt _ hn
  · intro hs
    have hst : start % n < n := Nat.mod_lt _ hn
    have hg := gap_lt hst hs
    refine List.mem_map.2 ⟨gap n (start % n) s, List.mem_range.2 hg, ?_⟩
    rw [add_mod_eq_mod_add hg]
    exact add_gap_mod hst hs

/-- A walk meets each slot once: the slot `t` steps in is `t` steps in. -/
theorem gap_cyclic {n start t : Nat} (hn : 0 < n) (ht : t < n) :
    gap n (start % n) ((start + t) % n) = t := by
  rw [add_mod_eq_mod_add ht]
  exact gap_add_mod (Nat.mod_lt _ hn) ht

theorem nodup_cyclic {n start : Nat} (hn : 0 < n) : (cyclic n start).Nodup := by
  refine List.Nodup.map_on (fun i hi j hj hij => ?_) List.nodup_range
  calc i = gap n (start % n) ((start + i) % n) := (gap_cyclic hn (List.mem_range.1 hi)).symm
    _ = gap n (start % n) ((start + j) % n) := by rw [hij]
    _ = j := gap_cyclic hn (List.mem_range.1 hj)

theorem cyclic_perm {n start : Nat} (hn : 0 < n) : (cyclic n start).Perm (List.range n) :=
  (List.perm_ext_iff_of_nodup (nodup_cyclic hn) List.nodup_range).2 fun s => by
    rw [mem_cyclic hn, List.mem_range]

theorem walkStep_eq_gap (hn : 0 < b.size) {s : Nat} (hs : s < b.size) :
    b.walkStep start s = gap b.size (start % b.size) s := by
  have hst : start % b.size < b.size := Nat.mod_lt _ hn
  simp only [walkStep, Nat.mod_eq_of_lt hs, gap]
  split
  · rw [show s + b.size - start % b.size = s - start % b.size + b.size by omega, Nat.add_mod_right,
      Nat.mod_eq_of_lt (by omega)]
  · exact Nat.mod_eq_of_lt (by omega)

/-- The slot `t` steps into a walk is `t` steps in. -/
theorem walkStep_cyclic (hn : 0 < b.size) {t : Nat} (ht : t < b.size) :
    b.walkStep start ((start + t) % b.size) = t := by
  rw [walkStep_eq_gap hn (Nat.mod_lt _ hn)]
  exact gap_cyclic hn ht

/-- `occupiedFrom` is the first occupied slot of the walk past its first `step` positions. -/
theorem occupiedFrom_eq (b : Bucket) (start step : Nat) :
    b.occupiedFrom start step =
      (((cyclic b.size start).drop step).find? fun s => !(b.slot s).isVacant).map
        fun s => (s, b.slot s) := by
  have hr : (List.range b.size).drop step = (List.range (b.size - step)).map (step + ·) := by
    rw [List.range_eq_range', List.drop_range', List.range'_eq_map_range, Nat.zero_add, Nat.mul_one]
  have hl : (List.range (b.size - step)).map (fun i => (start + step + i) % b.size) =
      (cyclic b.size start).drop step := by
    rw [cyclic, ← List.map_drop, hr, List.map_map]
    congr 1
    funext i
    simp only [Function.comp, Nat.add_assoc]
  simp only [occupiedFrom, hl]

/-- A walk from its start finds the first slot of the walk order. -/
theorem occupiedFrom_zero (b : Bucket) (start : Nat) :
    b.occupiedFrom start 0 = (b.walkOrder start).head?.map fun s => (s, b.slot s) := by
  rw [occupiedFrom_eq, List.drop_zero, walkOrder, List.head?_filter]

/-- Past an occupied slot, a walk finds the next slot of the walk order, or none
after the last. -/
theorem occupiedFrom_next (hn : 0 < b.size) {pre rest : List Nat} {s : Nat}
    (h : b.walkOrder start = pre ++ s :: rest) :
    b.occupiedFrom start (b.walkStep start s + 1) = rest.head?.map fun t => (t, b.slot t) := by
  obtain ⟨l₁, l₂, hcyc, -, hl₂⟩ := List.filter_eq_append_iff.1 h
  obtain ⟨m₁, m₂, rfl, -, -, hm₂⟩ := List.filter_eq_cons_iff.1 hl₂
  set t := (l₁ ++ m₁).length
  have hlen : t < b.size := by
    have := congrArg List.length hcyc
    simp only [length_cyclic, List.length_append, List.length_cons] at this
    simp only [t, List.length_append]
    omega
  have hsplit : cyclic b.size start = (l₁ ++ m₁) ++ s :: m₂ := by rw [hcyc, List.append_assoc]
  have hs : s = (start + t) % b.size := by
    have hat : (cyclic b.size start)[t]? = some s := by
      rw [hsplit, List.getElem?_append_right (Nat.le_refl _), Nat.sub_self, List.getElem?_cons_zero]
    rw [List.getElem?_eq_getElem (by rw [length_cyclic]; exact hlen), getElem_cyclic] at hat
    exact (Option.some.inj hat).symm
  have hdrop : (cyclic b.size start).drop (t + 1) = m₂ := by
    rw [hsplit, show l₁ ++ m₁ ++ s :: m₂ = (l₁ ++ m₁ ++ [s]) ++ m₂ by simp]
    exact List.drop_left' (by simp only [t, List.length_append, List.length_singleton])
  rw [hs, walkStep_cyclic hn hlen, occupiedFrom_eq, hdrop, ← List.head?_filter, hm₂]

theorem nodup_walkOrder (hn : 0 < b.size) (start : Nat) : (b.walkOrder start).Nodup :=
  (nodup_cyclic hn).filter _

/-- A walk meets every entry of its bucket once. -/
theorem walkOrder_perm (hn : 0 < b.size) (start : Nat) :
    ((b.walkOrder start).map b.slot).Perm b.entries := by
  have hocc : b.entries = ((List.range b.size).filter fun s => !(b.slot s).isVacant).map b.slot := by
    simp only [entries, occupied, List.filter_map, List.map_map]
    rfl
  rw [hocc]
  exact (((cyclic_perm hn).filter _).map _)

theorem lt_of_mem_walkOrder (hn : 0 < b.size) {s : Nat} (hs : s ∈ b.walkOrder start) : s < b.size :=
  (mem_cyclic hn).1 (List.mem_of_mem_filter hs)

theorem length_walkOrder_le (b : Bucket) (start : Nat) : (b.walkOrder start).length ≤ b.size :=
  (List.length_filter_le _ _).trans (by rw [cyclic, List.length_map, List.length_range])

theorem occupied_of_mem_walkOrder {s : Nat} (hs : s ∈ b.walkOrder start) :
    (b.slot s).isVacant = false := by
  simpa using (List.mem_filter.1 hs).2

/-- A walk meets every occupied slot. -/
theorem mem_walkOrder (hn : 0 < b.size) {s : Nat} (hs : s < b.size)
    (hocc : (b.slot s).isVacant = false) : s ∈ b.walkOrder start :=
  List.mem_filter.2 ⟨(mem_cyclic hn).2 hs, by simp [hocc]⟩

end Bucket

namespace Directory

variable {d : Directory}

theorem entryAt_eq_getElem {i : Nat} (hi : i < d.size) : d.entryAt i = d.entries[i] := by
  simp only [entryAt, Array.getD_eq_getD_getElem?]
  rw [Array.getElem?_eq_getElem hi]
  rfl

/-- The search of `nextDistinct` passes over entries equal to `current` and
stops at the first that differs, or at the end. -/
theorem nextDistinct_go_spec (current j : Nat) :
    j ≤ nextDistinct.go d current j ∧ (j ≤ d.size → nextDistinct.go d current j ≤ d.size) ∧
      (∀ k, j ≤ k → k < nextDistinct.go d current j → d.entryAt k = current) ∧
      (nextDistinct.go d current j < d.size → d.entryAt (nextDistinct.go d current j) ≠ current) := by
  induction j using nextDistinct.go.induct d current with
  | case1 x hx heq ih =>
    have hgo : nextDistinct.go d current x = nextDistinct.go d current (x + 1) := by
      rw [nextDistinct.go, dif_pos hx]
      exact if_pos heq
    rw [hgo]
    obtain ⟨h1, h2, h3, h4⟩ := ih
    refine ⟨by omega, fun _ => h2 (by omega), fun k hk hkr => ?_, h4⟩
    rcases Nat.eq_or_lt_of_le hk with rfl | hk
    · rw [entryAt_eq_getElem hx]
      exact heq
    · exact h3 k hk hkr
  | case2 x hx hne =>
    have hgo : nextDistinct.go d current x = x := by
      rw [nextDistinct.go, dif_pos hx]
      exact if_neg hne
    rw [hgo]
    exact ⟨Nat.le_refl _, fun _ => Nat.le_of_lt hx, fun k hk hkr => absurd hkr (by omega),
      fun _ => by rw [entryAt_eq_getElem hx]; exact hne⟩
  | case3 x hx =>
    rw [nextDistinct.go, dif_neg hx]
    exact ⟨Nat.le_refl _, fun h => h, fun k hk hkr => absurd hkr (by omega), fun h => absurd h hx⟩

/-- The run of `i`'s entry goes on up to `nextDistinct i`, which holds another
entry or is the end. -/
theorem nextDistinct_spec {i : Nat} (hi : i < d.size) :
    i < d.nextDistinct i ∧ d.nextDistinct i ≤ d.size ∧
      (∀ k, i ≤ k → k < d.nextDistinct i → d.entryAt k = d.entryAt i) ∧
      (d.nextDistinct i < d.size → d.entryAt (d.nextDistinct i) ≠ d.entryAt i) := by
  have hstep : nextDistinct.go d (d.entryAt i) i = nextDistinct.go d (d.entryAt i) (i + 1) := by
    rw [nextDistinct.go, dif_pos hi]
    exact if_pos (entryAt_eq_getElem hi).symm
  have hnd : d.nextDistinct i = nextDistinct.go d (d.entryAt i) i := by
    simp only [nextDistinct, get?_eq_entryAt hi]
  obtain ⟨h1, h2, h3, h4⟩ := nextDistinct_go_spec (d := d) (d.entryAt i) (i + 1)
  rw [hnd, hstep]
  refine ⟨by omega, h2 (by omega), fun k hk hkr => ?_, h4⟩
  rcases Nat.eq_or_lt_of_le hk with rfl | hk
  · rfl
  · exact h3 k hk hkr

/-- Every index of a run ends the run where its first index does. -/
theorem nextDistinct_eq_of_run {h i : Nat} (hh : h < d.size) (hhi : h ≤ i)
    (hin : i < d.nextDistinct h) : d.nextDistinct i = d.nextDistinct h := by
  obtain ⟨-, hle, hrun, hdiff⟩ := nextDistinct_spec hh
  have hi : i < d.size := by omega
  obtain ⟨hlt', hle', hrun', hdiff'⟩ := nextDistinct_spec hi
  have hei : d.entryAt i = d.entryAt h := hrun i hhi hin
  rcases Nat.lt_trichotomy (d.nextDistinct i) (d.nextDistinct h) with hlt | heq | hgt
  · exact absurd (hrun _ (by omega) hlt) (hei ▸ hdiff' (by omega))
  · exact heq
  · exact absurd ((hrun' _ (by omega) hgt).trans hei) (hdiff (by omega))

/-- In an aligned directory the indices of one entry are contiguous. -/
theorem Aligned.between {depth : Nat → Nat} (ha : d.Aligned depth) {i k j : Nat}
    (hik : i ≤ k) (hkj : k ≤ j) (hj : j < d.size) (he : d.entryAt j = d.entryAt i) :
    d.entryAt k = d.entryAt i := by
  have hi : i < d.size := by omega
  have hk : k < d.size := by omega
  have hij := (ha.runs i hi j hj).1 he
  refine (ha.runs i hi k hk).2 (Nat.le_antisymm ?_ (Nat.div_le_div_right hik))
  rw [← hij]
  exact Nat.div_le_div_right hkj

/-- The first index of each run of equal entries from `i` on: where a
traversal enters each bucket. -/
def heads (d : Directory) : Nat → Nat → List Nat
  | 0, _ => []
  | fuel + 1, i => if i < d.size then i :: d.heads fuel (d.nextDistinct i) else []

theorem heads_succ {fuel i : Nat} (hi : i < d.size) :
    d.heads (fuel + 1) i = i :: d.heads fuel (d.nextDistinct i) := by
  rw [heads, if_pos hi]

theorem heads_of_size_le {fuel i : Nat} (hi : d.size ≤ i) : d.heads fuel i = [] := by
  cases fuel with
  | zero => rfl
  | succ fuel => rw [heads, if_neg (by omega)]

theorem mem_heads {fuel i h : Nat} (hh : h ∈ d.heads fuel i) : i ≤ h ∧ h < d.size := by
  induction fuel generalizing i with
  | zero => cases hh
  | succ fuel ih =>
    by_cases hi : i < d.size
    · rw [heads_succ hi] at hh
      rcases List.mem_cons.1 hh with rfl | hh
      · exact ⟨Nat.le_refl _, hi⟩
      · have hrest := ih hh
        have hlt := (nextDistinct_spec hi).1
        exact ⟨by omega, hrest.2⟩
    · rw [heads_of_size_le (by omega)] at hh
      cases hh

/-- Each run starts at a later index. -/
theorem length_heads_le (fuel i : Nat) : (d.heads fuel i).length ≤ d.size - i := by
  induction fuel generalizing i with
  | zero => exact Nat.zero_le _
  | succ fuel ih =>
    by_cases hi : i < d.size
    · rw [heads_succ hi, List.length_cons]
      have hrest := ih (d.nextDistinct i)
      have hlt := (nextDistinct_spec hi).1
      omega
    · rw [heads_of_size_le (by omega)]
      exact Nat.zero_le _

/-- With fuel for every run, some run from `i` on holds each index from `i` on. -/
theorem heads_cover {fuel i j : Nat} (hf : d.size - i < fuel) (hij : i ≤ j) (hj : j < d.size) :
    ∃ h ∈ d.heads fuel i, h ≤ j ∧ j < d.nextDistinct h := by
  induction fuel generalizing i with
  | zero => omega
  | succ fuel ih =>
    have hi : i < d.size := by omega
    rw [heads_succ hi]
    by_cases hjn : j < d.nextDistinct i
    · exact ⟨i, List.mem_cons_self, hij, hjn⟩
    · have hlt := (nextDistinct_spec hi).1
      obtain ⟨h, hh, hhj, hjh⟩ := ih (i := d.nextDistinct i) (by omega) (by omega)
      exact ⟨h, List.mem_cons_of_mem _ hh, hhj, hjh⟩

/-- An aligned directory enters each bucket at one run only. -/
theorem Aligned.nodup_heads {depth : Nat → Nat} (ha : d.Aligned depth) (fuel i : Nat) :
    ((d.heads fuel i).map d.entryAt).Nodup := by
  induction fuel generalizing i with
  | zero => exact List.nodup_nil
  | succ fuel ih =>
    by_cases hi : i < d.size
    · rw [heads_succ hi, List.map_cons, List.nodup_cons]
      refine ⟨fun hmem => ?_, ih _⟩
      obtain ⟨h, hh, he⟩ := List.mem_map.1 hmem
      obtain ⟨hnh, hhs⟩ := mem_heads hh
      obtain ⟨hlt, -, -, hdiff⟩ := nextDistinct_spec hi
      exact hdiff (by omega) (ha.between (Nat.le_of_lt hlt) hnh hhs he)
    · rw [heads_of_size_le (by omega)]
      exact List.nodup_nil

/-- The runs of an aligned directory name every bucket once. -/
theorem Aligned.heads_perm {depth : Nat → Nat} (ha : d.Aligned depth) :
    ((d.heads (d.size + 1) 0).map d.entryAt).Perm d.entries.toList.dedup := by
  refine (List.perm_ext_iff_of_nodup (ha.nodup_heads _ _) (List.nodup_dedup _)).2 fun o => ?_
  have hent : o ∈ d.entries.toList.dedup ↔ ∃ j, ∃ hj : j < d.size, d.entries[j] = o := by
    rw [List.mem_dedup, Array.mem_toList_iff, Array.mem_iff_getElem]
    rfl
  rw [hent]
  constructor
  · rintro hmem
    obtain ⟨h, hh, rfl⟩ := List.mem_map.1 hmem
    have hhs := (mem_heads hh).2
    exact ⟨h, hhs, (entryAt_eq_getElem hhs).symm⟩
  · rintro ⟨j, hj, rfl⟩
    obtain ⟨h, hh, hhj, hjh⟩ :=
      heads_cover (d := d) (show d.size - 0 < d.size + 1 by omega) (Nat.zero_le j) hj
    have hhs := (mem_heads hh).2
    refine List.mem_map.2 ⟨h, hh, ?_⟩
    rw [← entryAt_eq_getElem hj]
    exact ((nextDistinct_spec hhs).2.2.1 j hhj hjh).symm

/-- Fuel beyond the runs left changes nothing. -/
theorem heads_congr {F F' i : Nat} (hF : d.size - i ≤ F) (hF' : d.size - i ≤ F') :
    d.heads F i = d.heads F' i := by
  induction F generalizing F' i with
  | zero => rw [heads_of_size_le (by omega), heads_of_size_le (by omega)]
  | succ F ih =>
    by_cases hi : i < d.size
    · obtain ⟨F'', rfl⟩ : ∃ F'', F' = F'' + 1 := ⟨F' - 1, by omega⟩
      have hlt := (nextDistinct_spec hi).1
      rw [heads_succ hi, heads_succ hi]
      exact congrArg _ (ih (by omega) (by omega))
    · rw [heads_of_size_le (by omega), heads_of_size_le (by omega)]

/-- The runs after one run are the runs from the next distinct entry on, with
the fuel left. -/
theorem heads_eq_append {F i j : Nat} {H₁ H₂ : List Nat} (h : d.heads F i = H₁ ++ j :: H₂) :
    j < d.size ∧ i + H₁.length ≤ j ∧ H₂ = d.heads (F - H₁.length - 1) (d.nextDistinct j) := by
  induction H₁ generalizing F i with
  | nil =>
    cases F with
    | zero => cases h
    | succ F =>
      by_cases hi : i < d.size
      · rw [heads_succ hi, List.nil_append] at h
        obtain ⟨rfl, rfl⟩ := List.cons.inj h
        exact ⟨hi, by simp, by simp⟩
      · rw [heads_of_size_le (by omega)] at h
        cases h
  | cons x H₁ ih =>
    cases F with
    | zero => cases h
    | succ F =>
      by_cases hi : i < d.size
      · rw [heads_succ hi, List.cons_append] at h
        obtain ⟨rfl, htail⟩ := List.cons.inj h
        obtain ⟨hj, hle, hH⟩ := ih htail
        have hlt := (nextDistinct_spec hi).1
        refine ⟨hj, by simp only [List.length_cons]; omega, ?_⟩
        rw [hH]
        congr 1
        simp only [List.length_cons]
        omega
      · rw [heads_of_size_le (by omega)] at h
        cases h

/-- The next distinct entry reads only the entries: it is the first index past
`i` that holds another entry. -/
theorem nextDistinct_congr {d' : Directory} (h : d'.entries = d.entries) (i : Nat) :
    d'.nextDistinct i = d.nextDistinct i := by
  have hsize : d'.size = d.size := by simp only [size, h]
  have hentry : ∀ k, d'.entryAt k = d.entryAt k := fun k => by simp only [entryAt, h]
  by_cases hi : i < d.size
  · obtain ⟨a1, a2, a3, a4⟩ := nextDistinct_spec hi
    obtain ⟨b1, b2, b3, b4⟩ := nextDistinct_spec (d := d') (by rw [hsize]; exact hi)
    rw [hsize] at b2 b4
    simp only [hentry] at b3 b4
    by_contra hne
    rcases Nat.lt_or_gt_of_ne hne with hlt | hlt
    · exact b4 (by omega) (a3 _ (by omega) hlt)
    · exact a4 (by omega) (b3 _ (by omega) hlt)
  · have hnone : ∀ d'' : Directory, d''.size ≤ i → d''.nextDistinct i = d''.size := fun d'' hd => by
      unfold nextDistinct
      rw [show d''.get? i = none from Array.getElem?_eq_none hd]
    rw [hnone d' (by omega), hnone d (by omega), hsize]

/-- The runs read only the entries. -/
theorem heads_congr_entries {d' : Directory} (h : d'.entries = d.entries) (F i : Nat) :
    d'.heads F i = d.heads F i := by
  have hsize : d'.size = d.size := by simp only [size, h]
  induction F generalizing i with
  | zero => rfl
  | succ F ih => simp only [heads, hsize, nextDistinct_congr h, ih]

end Directory

/-- In a list without repeats, what follows an element is fixed. -/
theorem append_cons_inj_of_nodup {α : Type} {A B C D : List α} {x : α}
    (h : (A ++ x :: B).Nodup) (he : A ++ x :: B = C ++ x :: D) : A = C ∧ B = D := by
  induction A generalizing C with
  | nil =>
    cases C with
    | nil => exact ⟨rfl, (List.cons.inj he).2⟩
    | cons c C =>
      obtain ⟨rfl, hB⟩ := List.cons.inj he
      exact absurd (hB ▸ List.mem_append_right _ List.mem_cons_self) (List.nodup_cons.1 h).1
  | cons a A ih =>
    cases C with
    | nil =>
      obtain ⟨rfl, -⟩ := List.cons.inj he
      exact absurd (List.mem_append_right _ List.mem_cons_self) (List.nodup_cons.1 h).1
    | cons c C =>
      obtain ⟨rfl, htail⟩ := List.cons.inj he
      obtain ⟨hA, hB⟩ := ih (List.nodup_cons.1 h).2 htail
      exact ⟨by rw [hA], hB⟩

namespace Image

variable (I : Image)

/-- The positions a traversal visits in the bucket the directory names at `i`:
its occupied slots in walk order from the bucket's walk start. -/
def bucketPositions (i : Nat) : List Position :=
  ((I.bucket (I.dir.entryAt i)).walkOrder (I.bucket (I.dir.entryAt i)).walkStart).map
    fun s => ⟨i, I.dir.entryAt i, s, (I.bucket (I.dir.entryAt i)).walkStart⟩

/-- The positions a traversal visits from the run at `i` on. -/
def positionsFrom (fuel i : Nat) : List Position :=
  (I.dir.heads fuel i).flatMap I.bucketPositions

/-- The positions a traversal visits, in order. -/
def positions : List Position := I.positionsFrom (I.dir.size + 1) 0

/-- The slot at a position. -/
def slotAt (p : Position) : Slot := (I.bucket p.bucketOffset).slot p.slot

/-- The key and value of the record at a position. -/
def pairAt (p : Position) : Bytes × Bytes := (I.keyOf (I.slotAt p), I.valueOf (I.slotAt p))

/-- The pairs a traversal answers, in order. -/
def traversal : List (Bytes × Bytes) := I.positions.map I.pairAt

variable {I}

theorem positionsFrom_succ {fuel i : Nat} (hi : i < I.dir.size) :
    I.positionsFrom (fuel + 1) i =
      I.bucketPositions i ++ I.positionsFrom fuel (I.dir.nextDistinct i) := by
  rw [positionsFrom, Directory.heads_succ hi, List.flatMap_cons]
  rfl

theorem positionsFrom_of_size_le {fuel i : Nat} (hi : I.dir.size ≤ i) :
    I.positionsFrom fuel i = [] := by
  rw [positionsFrom, Directory.heads_of_size_le hi, List.flatMap_nil]

theorem mem_bucketPositions {i : Nat} {p : Position} :
    p ∈ I.bucketPositions i ↔ p.dirIndex = i ∧ p.bucketOffset = I.dir.entryAt i ∧
      p.start = (I.bucket p.bucketOffset).walkStart ∧
      p.slot ∈ (I.bucket p.bucketOffset).walkOrder p.start := by
  constructor
  · intro hp
    obtain ⟨s, hs, rfl⟩ := List.mem_map.1 hp
    exact ⟨rfl, rfl, rfl, hs⟩
  · rintro ⟨h1, h2, h3, h4⟩
    obtain ⟨di, bo, s, st⟩ := p
    simp only at h1 h2 h3 h4
    subst h1 h2 h3
    exact List.mem_map.2 ⟨s, h4, rfl⟩

/-- The bucket a run names is live and has slots. -/
theorem size_pos_of_lt (hI : I.Shaped) {i : Nat} (hi : i < I.dir.size) :
    0 < (I.bucket (I.dir.entryAt i)).size :=
  (hI.wf _ (entryAt_mem_live hi)).size_pos

theorem nodup_positionsFrom (hI : I.Shaped) (F i : Nat) : (I.positionsFrom F i).Nodup := by
  unfold positionsFrom
  refine List.nodup_flatMap.2 ⟨fun j hj => ?_, ?_⟩
  · exact (Bucket.nodup_walkOrder (size_pos_of_lt hI (Directory.mem_heads hj).2) _).map
      fun a b h => congrArg Position.slot h
  · refine ((hI.aligned.nodup_heads F i).of_map _).imp fun {a b} hab p hpa hpb => ?_
    exact hab ((mem_bucketPositions.1 hpa).1.symm.trans (mem_bucketPositions.1 hpb).1)

theorem mem_positionsFrom {F i : Nat} {p : Position} (hp : p ∈ I.positionsFrom F i) :
    p.dirIndex < I.dir.size ∧ p ∈ I.bucketPositions p.dirIndex := by
  obtain ⟨j, hj, hpj⟩ := List.mem_flatMap.1 hp
  obtain ⟨rfl, -⟩ := mem_bucketPositions.1 hpj
  exact ⟨(Directory.mem_heads hj).2, hpj⟩

/-- A walk of a live bucket lands on records only. -/
theorem slot_mem_slots (hI : I.Shaped) {o start s : Nat} (ho : o ∈ I.live)
    (hs : s ∈ (I.bucket o).walkOrder start) : (I.bucket o).slot s ∈ I.slots :=
  mem_slots.2 ⟨o, ho, Bucket.mem_entries.2
    ⟨s, Bucket.lt_of_mem_walkOrder (hI.wf _ ho).size_pos hs, rfl,
      Bucket.occupied_of_mem_walkOrder hs⟩⟩

/-- A traversal lands on records only. -/
theorem slotAt_mem_slots (hI : I.Shaped) {F i : Nat} {p : Position}
    (hp : p ∈ I.positionsFrom F i) : I.slotAt p ∈ I.slots := by
  obtain ⟨hlt, hb⟩ := mem_positionsFrom hp
  obtain ⟨-, hbo, -, hs⟩ := mem_bucketPositions.1 hb
  exact slot_mem_slots hI (hbo ▸ entryAt_mem_live hlt) hs

/-- A traversal from the run at `i` visits at most the slots of the buckets of
the runs left. -/
theorem length_positionsFrom_le (hI : I.Shaped) (F i : Nat) :
    (I.positionsFrom F i).length ≤ (I.dir.size - i) * I.header.bucketElems := by
  unfold positionsFrom
  rw [List.length_flatMap]
  have hbucket : ∀ n ∈ (I.dir.heads F i).map fun j => (I.bucketPositions j).length,
      n ≤ I.header.bucketElems := by
    intro n hn
    obtain ⟨j, hj, rfl⟩ := List.mem_map.1 hn
    unfold bucketPositions
    rw [List.length_map, ← (hI.fits _ (entryAt_mem_live (Directory.mem_heads hj).2)).size]
    exact Bucket.length_walkOrder_le _ _
  calc ((I.dir.heads F i).map fun j => (I.bucketPositions j).length).sum
      ≤ (I.dir.heads F i).length * I.header.bucketElems := by
        have h := List.sum_le_card_nsmul _ _ hbucket
        rwa [List.length_map, smul_eq_mul] at h
    _ ≤ (I.dir.size - i) * I.header.bucketElems :=
        Nat.mul_le_mul_right _ (Directory.length_heads_le F i)

/-- What follows a position of a traversal: the rest of its bucket's walk, then
the runs after its own. -/
theorem positions_eq_append (hI : I.Shaped) {A R : List Position} {p : Position}
    (h : I.positions = A ++ p :: R) :
    p.dirIndex < I.dir.size ∧ p.bucketOffset = I.dir.entryAt p.dirIndex ∧
      p.start = (I.bucket p.bucketOffset).walkStart ∧
      ∃ pre rest, (I.bucket p.bucketOffset).walkOrder p.start = pre ++ p.slot :: rest ∧
        R = rest.map (fun s => ⟨p.dirIndex, p.bucketOffset, s, p.start⟩) ++
          I.positionsFrom I.dir.size (I.dir.nextDistinct p.dirIndex) := by
  have hmem : p ∈ I.positions := h ▸ List.mem_append_right _ List.mem_cons_self
  obtain ⟨j, hj, hpj⟩ := List.mem_flatMap.1 hmem
  obtain ⟨rfl, hbo, hst, hs⟩ := mem_bucketPositions.1 hpj
  obtain ⟨H₁, H₂, hH⟩ := List.append_of_mem hj
  obtain ⟨hjs, hle, hH₂⟩ := Directory.heads_eq_append hH
  obtain ⟨pre, rest, hw⟩ := List.append_of_mem hs
  refine ⟨hjs, hbo, hst, pre, rest, hw, ?_⟩
  have hlt := (Directory.nextDistinct_spec hjs).1
  have hbp : I.bucketPositions p.dirIndex =
      pre.map (fun s => ⟨p.dirIndex, p.bucketOffset, s, p.start⟩) ++
        p :: rest.map (fun s => ⟨p.dirIndex, p.bucketOffset, s, p.start⟩) := by
    unfold bucketPositions
    rw [← hbo, ← hst, hw, List.map_append, List.map_cons]
  have hsplit : I.positions =
      (H₁.flatMap I.bucketPositions ++ pre.map (fun s => ⟨p.dirIndex, p.bucketOffset, s, p.start⟩)) ++
        p :: (rest.map (fun s => ⟨p.dirIndex, p.bucketOffset, s, p.start⟩) ++
          H₂.flatMap I.bucketPositions) := by
    rw [positions, positionsFrom, hH, List.flatMap_append, List.flatMap_cons, hbp]
    simp only [List.append_assoc, List.cons_append]
  have hnd : (A ++ p :: R).Nodup := h ▸ nodup_positionsFrom hI _ _
  rw [(append_cons_inj_of_nodup hnd (h.symm.trans hsplit)).2, hH₂,
    Directory.heads_congr (by omega) (by omega : _ ≤ I.dir.size)]
  rfl

/-- A traversal visits every record of a shaped image once. -/
theorem slots_positions_perm (hI : I.Shaped) : (I.positions.map I.slotAt).Perm I.slots := by
  unfold positions positionsFrom
  rw [List.map_flatMap]
  have hwalk : ∀ j ∈ I.dir.heads (I.dir.size + 1) 0,
      List.Perm ((I.bucketPositions j).map I.slotAt) (I.bucket (I.dir.entryAt j)).entries := by
    intro j hj
    unfold bucketPositions
    rw [List.map_map]
    exact Bucket.walkOrder_perm (size_pos_of_lt hI (Directory.mem_heads hj).2) _
  refine (List.Perm.flatMap_left _ hwalk).trans ?_
  rw [← List.flatMap_map (f := I.dir.entryAt) (g := fun o => (I.bucket o).entries)]
  exact hI.aligned.heads_perm.flatMap_right _


/-- A traversal lists each stored key once. -/
theorem nodup_traversal_keys (hI : I.Shaped) : (I.traversal.map Prod.fst).Nodup := by
  have h := (((slots_positions_perm hI).map I.keyOf).nodup_iff).2 hI.keys_nodup
  rw [List.map_map] at h
  unfold traversal
  rw [List.map_map]
  exact h

/-- A traversal lists exactly the stored pairs. -/
theorem mem_traversal (hI : I.Shaped) {k x : Bytes} :
    (k, x) ∈ I.traversal ↔ I.lookup k = some x := by
  rw [lookup_eq_some_iff hI.keys_nodup]
  unfold traversal
  simp only [List.mem_map, pairAt, Prod.mk.injEq]
  constructor
  · rintro ⟨p, hp, hk, hx⟩
    exact ⟨I.slotAt p, slotAt_mem_slots hI hp, hk, hx⟩
  · rintro ⟨e, he, hk, hx⟩
    obtain ⟨p, hp, rfl⟩ := List.mem_map.1 ((slots_positions_perm hI).symm.subset he)
    exact ⟨p, hp, hk, hx⟩

/-- Images that agree are traversed alike. -/
theorem Agree.positionsFrom {J : Image} (h : I.Agree J) (F i : Nat) :
    J.positionsFrom F i = I.positionsFrom F i := by
  unfold Image.positionsFrom
  rw [Directory.heads_congr_entries h.entries]
  refine List.flatMap_congr fun j hj => ?_
  have hlive := entryAt_mem_live (Directory.mem_heads hj).2
  unfold bucketPositions
  rw [h.entryAt, h.bucket _ hlive]

theorem Agree.positions {J : Image} (h : I.Agree J) : J.positions = I.positions := by
  unfold Image.positions
  rw [h.size, h.positionsFrom]

theorem Agree.slotAt {J : Image} (h : I.Agree J) {F i : Nat} {p : Position}
    (hp : p ∈ I.positionsFrom F i) : J.slotAt p = I.slotAt p := by
  obtain ⟨hlt, hb⟩ := mem_positionsFrom hp
  obtain ⟨-, hbo, -⟩ := mem_bucketPositions.1 hb
  unfold Image.slotAt
  rw [h.bucket _ (hbo ▸ entryAt_mem_live hlt)]

theorem Agree.pairAt {J : Image} (h : I.Agree J) (hI : I.Shaped) {F i : Nat} {p : Position}
    (hp : p ∈ I.positionsFrom F i) : J.pairAt p = I.pairAt p := by
  have hmem := slotAt_mem_slots hI hp
  unfold Image.pairAt
  rw [h.slotAt hp, h.keyOf hmem, h.valueOf hmem]

theorem Agree.traversal {J : Image} (h : I.Agree J) (hI : I.Shaped) :
    J.traversal = I.traversal := by
  unfold Image.traversal
  rw [h.positions]
  exact List.map_congr_left fun p hp => h.pairAt hI hp

end Image

end HashFile
