import HashFile.Directory
import HashFile.Key
import Mathlib

/-!
# Directory runs

A directory of depth `D` is aligned for a choice of bucket depths when the
indices holding one bucket are exactly those that agree in their top
`depth` bits: an aligned run of `2 ^ (D - depth)` indices (`Aligned`), which is
the range `rangeOf` names. Doubling keeps this, each index turning into two; a
split hands the lower half of a run to one new bucket and the upper half to the
other, one bit deeper (`aligned_split`).

A key hash selects its index by its top bits (`dirIndex`), so the index of a
deeper directory is the index of a shallower one followed by more bits
(`dirIndex_div`); the bit a split looks at (`splitBit`) is the bit that tells
the two halves of the run apart.
-/
namespace HashFile

namespace Directory

/-- The entry at an index; `0` past the end. -/
def entryAt (d : Directory) (i : Nat) : Nat := d.entries.getD i 0

theorem byteSize_eq (bits : Nat) : byteSize bits = 8 * 2 ^ bits := rfl

theorem get?_eq_entryAt {d : Directory} {i : Nat} (h : i < d.size) :
    d.get? i = some (d.entryAt i) := by
  simp [get?, entryAt, size] at *
  simp [h]

theorem get?_eq_none {d : Directory} {i : Nat} (h : d.size ≤ i) : d.get? i = none := by
  simp only [get?, size] at *
  exact Array.getElem?_eq_none h

theorem entryAt_of_size_le {d : Directory} {i : Nat} (h : d.size ≤ i) : d.entryAt i = 0 := by
  simp only [entryAt, size, Array.getD_eq_getD_getElem?] at *
  rw [Array.getElem?_eq_none h]
  rfl

/-- The entries form aligned runs for the bucket depths `depth`: the indices
holding the entry of `i` are exactly those that share `i`'s top bits. -/
structure Aligned (d : Directory) (depth : Nat → Nat) : Prop where
  size_eq : d.size = 2 ^ d.bits
  depth_le : ∀ i < d.size, depth (d.entryAt i) ≤ d.bits
  runs : ∀ i < d.size, ∀ j < d.size,
    d.entryAt j = d.entryAt i ↔
      j / 2 ^ (d.bits - depth (d.entryAt i)) = i / 2 ^ (d.bits - depth (d.entryAt i))

/-- Alignment reads only the entries, the depth and the depths of the buckets
the entries name. -/
theorem Aligned.congr {d d' : Directory} {depth depth' : Nat → Nat} (h : d.Aligned depth)
    (hentries : d'.entries = d.entries) (hbits : d'.bits = d.bits)
    (hdepth : ∀ i < d.size, depth' (d.entryAt i) = depth (d.entryAt i)) : d'.Aligned depth' := by
  have hsize : d'.size = d.size := by simp only [size, hentries]
  have hentry : ∀ i, d'.entryAt i = d.entryAt i := fun i => by simp only [entryAt, hentries]
  refine ⟨by rw [hsize, hbits, h.size_eq], fun i hi => ?_, fun i hi j hj => ?_⟩
  · rw [hsize] at hi
    rw [hentry, hbits, hdepth i hi]
    exact h.depth_le i hi
  · rw [hsize] at hi hj
    rw [hentry, hentry, hbits, hdepth i hi]
    exact h.runs i hi j hj

/-- Sharing the top bits with `i` is lying in the range `rangeOf i`. -/
theorem mem_rangeOf_iff (d : Directory) (i j b : Nat) :
    ((d.rangeOf i b).1 ≤ j ∧ j < (d.rangeOf i b).2) ↔
      j / 2 ^ (d.bits - b) = i / 2 ^ (d.bits - b) := by
  have hs : 0 < 2 ^ (d.bits - b) := Nat.pow_pos (by decide)
  simp only [rangeOf, Nat.pow_eq]
  rw [Nat.div_eq_iff hs]
  omega

/-! ## Doubling -/

theorem getElem?_flatMap_pair {α : Type} (l : List α) (j : Nat) :
    (l.flatMap fun e => [e, e])[j]? = l[j / 2]? := by
  induction l generalizing j with
  | nil => simp
  | cons x l ih =>
    match j with
    | 0 => rfl
    | 1 => rfl
    | j + 2 =>
      simp only [List.flatMap_cons, List.cons_append, List.nil_append, List.getElem?_cons_succ]
      rw [ih, show (j + 2) / 2 = j / 2 + 1 by omega, List.getElem?_cons_succ]

theorem entryAt_double (d : Directory) (j : Nat) : d.double.entryAt j = d.entryAt (j / 2) := by
  simp only [entryAt, double, Array.getD_eq_getD_getElem?]
  rw [← Array.getElem?_toList, ← Array.getElem?_toList, Array.toList_flatMap]
  rw [show (d.entries.toList.flatMap fun e => [e, e]) =
      (d.entries.toList.flatMap fun e => [e, e]) from rfl, getElem?_flatMap_pair]

theorem length_flatMap_pair {α : Type} (l : List α) :
    (l.flatMap fun e => [e, e]).length = 2 * l.length := by
  induction l with
  | nil => rfl
  | cons x l ih =>
    simp only [List.flatMap_cons, List.length_append, ih, List.length_cons, List.length_nil]
    omega

theorem size_double (d : Directory) : d.double.size = 2 * d.size := by
  simp only [size, double]
  rw [← Array.length_toList, ← Array.length_toList, Array.toList_flatMap]
  exact length_flatMap_pair _

@[simp] theorem bits_double (d : Directory) : d.double.bits = d.bits + 1 := rfl

@[simp] theorem offset_double (d : Directory) : d.double.offset = d.offset := rfl

/-- Doubling keeps the runs aligned: each run doubles in length. -/
theorem aligned_double {d : Directory} {depth : Nat → Nat} (h : d.Aligned depth) :
    d.double.Aligned depth := by
  have hsz := size_double d
  refine ⟨by rw [hsz, h.size_eq, bits_double, Nat.pow_succ, Nat.mul_comm], ?_, ?_⟩
  · intro i hi
    rw [entryAt_double, bits_double]
    exact Nat.le_succ_of_le (h.depth_le _ (by omega))
  · intro i hi j hj
    rw [entryAt_double, entryAt_double, bits_double]
    have hb := h.depth_le (i / 2) (by omega)
    rw [h.runs (i / 2) (by omega) (j / 2) (by omega), Nat.div_div_eq_div_mul,
      Nat.div_div_eq_div_mul, ← Nat.pow_succ', Nat.sub_add_comm hb]

/-! ## Pointing a range at a bucket -/

theorem getD_set! (es : Array Nat) (i x j : Nat) :
    (es.set! i x).getD j 0 = if j = i ∧ i < es.size then x else es.getD j 0 := by
  simp only [Array.getD_eq_getD_getElem?, Array.set!_eq_setIfInBounds,
    Array.getElem?_setIfInBounds]
  by_cases h : i = j <;> by_cases hs : i < es.size <;> simp [h, hs] <;> grind

theorem getD_foldl_set! (es : Array Nat) (lo x j : Nat) :
    ∀ m, ((List.range m).foldl (fun es k => es.set! (lo + k) x) es).getD j 0 =
      (if lo ≤ j ∧ j < lo + m ∧ j < es.size then x else es.getD j 0) ∧
    ((List.range m).foldl (fun es k => es.set! (lo + k) x) es).size = es.size
  | 0 => ⟨by rw [if_neg (by omega)]; rfl, rfl⟩
  | m + 1 => by
    obtain ⟨ih, hsz⟩ := getD_foldl_set! es lo x j m
    rw [List.range_succ, List.foldl_append, List.foldl_cons, List.foldl_nil, getD_set!,
      Array.size_set!, hsz, ih]
    refine ⟨?_, rfl⟩
    by_cases h1 : j = lo + m ∧ lo + m < es.size
    · rw [if_pos h1, if_pos (by omega)]
    · rw [if_neg h1]
      by_cases h2 : lo ≤ j ∧ j < lo + m ∧ j < es.size
      · rw [if_pos h2, if_pos (by omega)]
      · rw [if_neg h2, if_neg (by omega)]

theorem entryAt_setRange (d : Directory) (lo hi x j : Nat) :
    (d.setRange lo hi x).entryAt j = if lo ≤ j ∧ j < hi ∧ j < d.size then x else d.entryAt j := by
  have hf := (getD_foldl_set! d.entries lo x j (hi - lo)).1
  simp only [entryAt, setRange]
  rw [hf]
  by_cases h : lo ≤ j ∧ j < hi ∧ j < d.size
  · rw [if_pos (by simp only [size] at h; omega), if_pos h]
  · rw [if_neg (by simp only [size] at h; omega), if_neg h]

theorem size_setRange (d : Directory) (lo hi x : Nat) : (d.setRange lo hi x).size = d.size :=
  (getD_foldl_set! d.entries lo x 0 (hi - lo)).2

@[simp] theorem bits_setRange (d : Directory) (lo hi x : Nat) :
    (d.setRange lo hi x).bits = d.bits := rfl

@[simp] theorem offset_setRange (d : Directory) (lo hi x : Nat) :
    (d.setRange lo hi x).offset = d.offset := rfl

/-! ## Splitting a run -/

/-- The run of `i` under depth `b` ends inside the directory. -/
theorem rangeOf_le_size {d : Directory} (hs : d.size = 2 ^ d.bits) {i b : Nat} (hi : i < d.size)
    (hb : b ≤ d.bits) : (d.rangeOf i b).2 ≤ d.size := by
  have hspan : 0 < 2 ^ (d.bits - b) := Nat.pow_pos (by decide)
  have htotal : 2 ^ d.bits = 2 ^ b * 2 ^ (d.bits - b) := by
    rw [← Nat.pow_add, Nat.add_sub_cancel' hb]
  have hq : i / 2 ^ (d.bits - b) < 2 ^ b := by
    rw [Nat.div_lt_iff_lt_mul hspan, ← htotal, ← hs]; exact hi
  have := Nat.mul_le_mul_right (2 ^ (d.bits - b)) (Nat.succ_le_of_lt hq)
  simp only [rangeOf]
  rw [hs, htotal]
  rw [Nat.succ_mul] at this
  exact this

/-- The run of `i0` at depth `b` is two runs at depth `b + 1`: its lower half
and its upper half. -/
theorem rangeOf_halves (d : Directory) (i0 b : Nat) (hbD : b < d.bits) :
    (d.rangeOf i0 b).2 = (d.rangeOf i0 b).1 + 2 * 2 ^ (d.bits - (b + 1)) ∧
    ∀ x, (x / 2 ^ (d.bits - (b + 1)) = 2 * (i0 / 2 ^ (d.bits - b)) ↔
          (d.rangeOf i0 b).1 ≤ x ∧ x < (d.rangeOf i0 b).1 + 2 ^ (d.bits - (b + 1))) ∧
        (x / 2 ^ (d.bits - (b + 1)) = 2 * (i0 / 2 ^ (d.bits - b)) + 1 ↔
          (d.rangeOf i0 b).1 + 2 ^ (d.bits - (b + 1)) ≤ x ∧ x < (d.rangeOf i0 b).2) := by
  have hhalf : 0 < 2 ^ (d.bits - (b + 1)) := Nat.pow_pos (by decide)
  have hspan : 2 ^ (d.bits - b) = 2 * 2 ^ (d.bits - (b + 1)) := by
    rw [show d.bits - b = d.bits - (b + 1) + 1 by omega, Nat.pow_succ, Nat.mul_comm]
  have hr1 : (d.rangeOf i0 b).1 = 2 * (i0 / 2 ^ (d.bits - b) * 2 ^ (d.bits - (b + 1))) := by
    simp only [rangeOf, Nat.pow_eq]; rw [hspan, Nat.mul_left_comm]
  have hr2 : (d.rangeOf i0 b).2 = (d.rangeOf i0 b).1 + 2 * 2 ^ (d.bits - (b + 1)) := by
    simp only [rangeOf, Nat.pow_eq]; rw [hspan]
  refine ⟨hr2, fun x => ⟨?_, ?_⟩⟩
  · rw [Nat.div_eq_iff hhalf, Nat.mul_assoc, hr1]; omega
  · rw [Nat.div_eq_iff hhalf, Nat.succ_mul, Nat.mul_assoc, hr2, hr1]; omega

/-- A split hands the lower half of a run to `lo` and the upper half to `up`,
both one bit deeper; the directory stays aligned. -/
theorem aligned_split {d : Directory} {depth depth' : Nat → Nat} (h : d.Aligned depth)
    {i0 b : Nat} (hi0 : i0 < d.size) (hb : depth (d.entryAt i0) = b) (hbD : b < d.bits)
    {lo up : Nat} (hlo : ∀ j < d.size, d.entryAt j ≠ lo) (hup : ∀ j < d.size, d.entryAt j ≠ up)
    (hne : lo ≠ up) (hd : ∀ o, o ≠ lo → o ≠ up → depth' o = depth o)
    (hdlo : depth' lo = b + 1) (hdup : depth' up = b + 1) :
    ((d.setRange (d.rangeOf i0 b).1 ((d.rangeOf i0 b).1 + ((d.rangeOf i0 b).2 - (d.rangeOf i0 b).1) / 2) lo).setRange
      ((d.rangeOf i0 b).1 + ((d.rangeOf i0 b).2 - (d.rangeOf i0 b).1) / 2) (d.rangeOf i0 b).2 up).Aligned
      depth' := by
  have hrun : ∀ j < d.size, d.entryAt j = d.entryAt i0 ↔
      (d.rangeOf i0 b).1 ≤ j ∧ j < (d.rangeOf i0 b).2 := fun j hj => by
    rw [h.runs i0 hi0 j hj, hb, mem_rangeOf_iff]
  have hstop := rangeOf_le_size h.size_eq hi0 (Nat.le_of_lt hbD)
  obtain ⟨hr2, hhalves⟩ := rangeOf_halves d i0 b hbD
  have hhalf : 0 < 2 ^ (d.bits - (b + 1)) := Nat.pow_pos (by decide)
  generalize (d.rangeOf i0 b).1 = start at *
  generalize (d.rangeOf i0 b).2 = stop at *
  generalize hh : 2 ^ (d.bits - (b + 1)) = half at *
  generalize i0 / 2 ^ (d.bits - b) = q at *
  have hlow : ∀ x, x / half = 2 * q ↔ start ≤ x ∧ x < start + half := fun x => (hhalves x).1
  have hupper : ∀ x, x / half = 2 * q + 1 ↔ start + half ≤ x ∧ x < stop := fun x => (hhalves x).2
  have hmid : start + (stop - start) / 2 = start + half := by omega
  rw [hmid]
  have hentry : ∀ j, ((d.setRange start (start + half) lo).setRange (start + half) stop up).entryAt j =
      if start + half ≤ j ∧ j < stop ∧ j < d.size then up
      else if start ≤ j ∧ j < start + half ∧ j < d.size then lo else d.entryAt j := fun j => by
    rw [entryAt_setRange, size_setRange, entryAt_setRange]
  have hsz : ((d.setRange start (start + half) lo).setRange (start + half) stop up).size = d.size := by
    rw [size_setRange, size_setRange]
  refine ⟨by rw [hsz, h.size_eq]; rfl, ?_, ?_⟩
  · intro i hi
    rw [hsz] at hi
    simp only [bits_setRange]
    rw [hentry]
    split
    · rw [hdup]; exact hbD
    · split
      · rw [hdlo]; exact hbD
      · rw [hd _ (hlo i hi) (hup i hi)]; exact h.depth_le i hi
  · intro i hi j hj
    rw [hsz] at hi hj
    simp only [bits_setRange]
    have hei := hentry i
    rw [hentry j]
    by_cases hiu : start + half ≤ i ∧ i < stop
    · rw [if_pos ⟨hiu.1, hiu.2, hi⟩] at hei
      rw [hei, hdup, hh, (hupper i).2 hiu, hupper j]
      by_cases hju : start + half ≤ j ∧ j < stop
      · rw [if_pos ⟨hju.1, hju.2, hj⟩]; exact iff_of_true rfl hju
      · rw [if_neg fun h => hju ⟨h.1, h.2.1⟩]
        refine iff_of_false ?_ hju
        split
        · exact hne
        · exact hup j hj
    by_cases hil : start ≤ i ∧ i < start + half
    · rw [if_neg fun h => hiu ⟨h.1, h.2.1⟩, if_pos ⟨hil.1, hil.2, hi⟩] at hei
      rw [hei, hdlo, hh, (hlow i).2 hil, hlow j]
      by_cases hju : start + half ≤ j ∧ j < stop
      · rw [if_pos ⟨hju.1, hju.2, hj⟩]
        exact iff_of_false (Ne.symm hne) (by omega)
      · rw [if_neg fun h => hju ⟨h.1, h.2.1⟩]
        by_cases hjl : start ≤ j ∧ j < start + half
        · rw [if_pos ⟨hjl.1, hjl.2, hj⟩]; exact iff_of_true rfl hjl
        · rw [if_neg fun h => hjl ⟨h.1, h.2.1⟩]
          exact iff_of_false (hlo j hj) hjl
    have hio : ¬ (start ≤ i ∧ i < stop) := by omega
    have hne0 : d.entryAt i ≠ d.entryAt i0 := fun he => hio ((hrun i hi).1 he)
    rw [if_neg fun h => hiu ⟨h.1, h.2.1⟩, if_neg fun h => hil ⟨h.1, h.2.1⟩] at hei
    rw [hei, hd _ (hlo i hi) (hup i hi), ← h.runs i hi j hj]
    by_cases hjr : start ≤ j ∧ j < stop
    · have hjo : d.entryAt j = d.entryAt i0 := (hrun j hj).2 hjr
      refine iff_of_false ?_ fun he => hne0 (he ▸ hjo)
      split
      · exact fun he => hup i hi he.symm
      · split
        · exact fun he => hlo i hi he.symm
        · omega
    · rw [if_neg fun h => hjr ⟨by omega, h.2.1⟩, if_neg fun h => hjr ⟨h.1, by omega⟩]

end Directory

/-! ## Hash bits -/

theorem Key.hash_lt (key : Bytes) : Key.hash key < 2 ^ hashBits :=
  Nat.mod_lt _ (Nat.pow_pos (by decide))

section hash

variable {hash : Nat}

theorem dirIndex_eq (h : hash < 2 ^ hashBits) {bits : Nat} :
    dirIndex hash bits = hash / 2 ^ (hashBits - bits) := by
  unfold dirIndex
  split
  · next hb => rw [hb, Nat.sub_zero, Nat.div_eq_of_lt h]
  · rfl

/-- A hash selects an index inside a directory of at most `hashBits` bits. -/
theorem dirIndex_lt (h : hash < 2 ^ hashBits) {bits : Nat} (hb : bits ≤ hashBits) :
    dirIndex hash bits < 2 ^ bits := by
  rw [dirIndex_eq h, Nat.div_lt_iff_lt_mul (Nat.pow_pos (by decide)), ← Nat.pow_add,
    Nat.add_sub_cancel' hb]
  exact h

/-- The index under fewer bits is the index under more bits with the last
ones dropped. -/
theorem dirIndex_div (h : hash < 2 ^ hashBits) {c D : Nat} (hc : c ≤ D) (hD : D ≤ hashBits) :
    dirIndex hash D / 2 ^ (D - c) = dirIndex hash c := by
  rw [dirIndex_eq h, dirIndex_eq h, Nat.div_div_eq_div_mul, ← Nat.pow_add]
  congr 2
  omega

/-- The bit a split to depth `b + 1` looks at is the last bit of the index
under `b + 1` bits. -/
theorem dirIndex_half (h : hash < 2 ^ hashBits) {b D : Nat} (hb : b < D) (hD : D ≤ hashBits) :
    dirIndex hash D / 2 ^ (D - (b + 1)) = 2 * (dirIndex hash D / 2 ^ (D - b)) + splitBit hash (b + 1) := by
  rw [dirIndex_div h (Nat.succ_le_of_lt hb) hD, dirIndex_div h (Nat.le_of_lt hb) hD,
    ← dirIndex_div h (Nat.le_succ b) (Nat.le_trans (Nat.succ_le_of_lt hb) hD)]
  have hs : splitBit hash (b + 1) = dirIndex hash (b + 1) % 2 := by
    rw [splitBit, Nat.pow_eq, dirIndex_eq h]
  rw [hs, show b.succ - b = 1 by omega, Nat.pow_one, Nat.succ_eq_add_one]
  omega

/-- In a run cut into two halves, the index a hash selects lies in the lower
half exactly when the hash bit the split looks at is 0. -/
theorem dirIndex_lt_mid (h : hash < 2 ^ hashBits) {d : Directory} {i0 b : Nat}
    (hbD : b < d.bits) (hD : d.bits ≤ hashBits)
    (hin : (d.rangeOf i0 b).1 ≤ dirIndex hash d.bits ∧ dirIndex hash d.bits < (d.rangeOf i0 b).2) :
    dirIndex hash d.bits < (d.rangeOf i0 b).1 + ((d.rangeOf i0 b).2 - (d.rangeOf i0 b).1) / 2 ↔
      splitBit hash (b + 1) = 0 := by
  obtain ⟨hr2, hhalves⟩ := Directory.rangeOf_halves d i0 b hbD
  have hhalf := dirIndex_half h hbD hD
  rw [(Directory.mem_rangeOf_iff d i0 (dirIndex hash d.bits) b).1 hin] at hhalf
  have hbit : splitBit hash (b + 1) < 2 := Nat.mod_lt _ (by decide)
  rw [hr2]
  constructor
  · intro hlt
    refine Classical.byContradiction fun hne => ?_
    rw [show splitBit hash (b + 1) = 1 by omega] at hhalf
    have := ((hhalves _).2.1 hhalf).1
    omega
  · intro h0
    rw [h0, Nat.add_zero] at hhalf
    have := ((hhalves _).1.1 hhalf).2
    omega

end hash

end HashFile
