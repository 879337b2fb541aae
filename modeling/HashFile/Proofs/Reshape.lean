import HashFile.Proofs.Image

/-!
# Reshaping the table

The changes an index makes to its table, taken on images: doubling the
directory, splitting a bucket into two, and changing the entries of one bucket.
Doubling and splitting move records between buckets without touching them:
the table keeps its shape and holds the same records (`Same`). Changing one
bucket keeps the shape when the entries it then holds are placed as the shape
asks, which the store and delete steps establish for the entry they add or
take out.
-/
namespace HashFile

namespace Image

variable {I J : Image}

/-- What a record of a shaped image knows of its key. -/
theorem Shaped.hash_head (hI : I.Shaped) {e : Slot} (he : e ∈ I.slots) :
    e.hash = Key.hash (I.keyOf e) ∧ e.head = Key.head (I.keyOf e) := by
  obtain ⟨o, ho, he⟩ := mem_slots.1 he
  exact ⟨hI.hash_eq o ho e he, hI.head_eq o ho e he⟩

theorem Shaped.hash_lt (hI : I.Shaped) {e : Slot} (he : e ∈ I.slots) : e.hash < 2 ^ hashBits := by
  rw [(hI.hash_head he).1]
  exact Key.hash_lt _

/-- The slots, with those of one live bucket first. -/
theorem slots_perm_cons {o : Nat} (ho : o ∈ I.live) :
    I.slots.Perm ((I.bucket o).entries ++ (I.live.erase o).flatMap fun x => (I.bucket x).entries) := by
  unfold slots
  simpa using (List.perm_cons_erase ho).flatMap_right fun x => (I.bucket x).entries

/-- Images with the same live buckets, in any order, hold the same slots. -/
theorem slots_perm_of_live (hlive : J.live.Perm I.live)
    (hb : ∀ o ∈ I.live, J.bucket o = I.bucket o) : J.slots.Perm I.slots := by
  unfold slots
  refine (hlive.flatMap_right _).trans ?_
  rw [List.flatMap_congr fun o ho => by rw [hb o ho]]

/-- The records of a shaped image know their keys in every image holding the
same records. -/
theorem Shaped.of_same (hI : I.Shaped) (hs : Same I J) {e : Slot}
    (he : e ∈ I.slots) : e.hash = Key.hash (J.keyOf e) ∧ e.head = Key.head (J.keyOf e) := by
  rw [hs.keyOf he]
  exact hI.hash_head he

/-! ## Doubling the directory -/

/-- Doubling the directory, wherever it is then stored, keeps the table's shape
and its records; the same buckets stay live. -/
theorem Shaped.double (hI : I.Shaped) (hlt : I.dir.bits < hashBits)
    (hentries : J.dir.entries = I.dir.double.entries) (hbits : J.dir.bits = I.dir.bits + 1)
    (hdirBits : J.header.dirBits = J.dir.bits) (hdirOffset : J.header.dirOffset = J.dir.offset)
    (helems : J.header.bucketElems = I.header.bucketElems)
    (hbucket : ∀ o ∈ I.live, J.bucket o = I.bucket o)
    (hbyte : ∀ e ∈ I.slots, ∀ i, e.dataOffset ≤ i → i < e.dataOffset + e.recordSize →
      J.byte i = I.byte i) :
    J.Shaped ∧ Same I J ∧ J.live.Perm I.live := by
  have hentry : ∀ j, J.dir.entryAt j = I.dir.entryAt (j / 2) := fun j => by
    rw [← Directory.entryAt_double]
    simp only [Directory.entryAt, hentries]
  have hsize : J.dir.size = 2 * I.dir.size := by
    rw [← Directory.size_double]
    simp only [Directory.size, hentries]
  have hmem : ∀ o, o ∈ J.live ↔ o ∈ I.live := by
    intro o
    constructor
    · intro ho
      obtain ⟨j, hj, rfl⟩ := exists_entryAt_of_mem_live ho
      rw [hentry]
      exact entryAt_mem_live (by omega)
    · intro ho
      obtain ⟨i, hi, rfl⟩ := exists_entryAt_of_mem_live ho
      have := entryAt_mem_live (I := J) (show 2 * i < J.dir.size by omega)
      rwa [hentry, Nat.mul_div_cancel_left _ (by decide)] at this
  have hlive : J.live.Perm I.live := (List.perm_ext_iff_of_nodup nodup_live nodup_live).2 hmem
  have hsame : Same I J := ⟨slots_perm_of_live hlive hbucket, hbyte⟩
  have hb : ∀ o ∈ J.live, J.bucket o = I.bucket o ∧ o ∈ I.live := fun o ho =>
    ⟨hbucket o ((hmem o).1 ho), (hmem o).1 ho⟩
  refine ⟨⟨by omega, ?_, hdirBits, hdirOffset, fun o ho => ?_, fun o ho => ?_,
    fun o ho e he => ?_, fun o ho e he => ?_, fun o ho e he => ?_,
    hsame.keys_nodup hI.keys_nodup⟩, hsame, hlive⟩
  · refine (Directory.aligned_double hI.aligned).congr hentries
      (by rw [hbits, Directory.bits_double]) fun i hi => ?_
    rw [Directory.size_double] at hi
    rw [Directory.entryAt_double, hbucket _ (entryAt_mem_live (by omega))]
  · rw [(hb o ho).1]
    exact hI.wf o (hb o ho).2
  · rw [(hb o ho).1, helems]
    exact hI.fits o (hb o ho).2
  · rw [(hb o ho).1] at he
    exact (hI.of_same hsame (mem_slots.2 ⟨o, (hb o ho).2, he⟩)).1
  · rw [(hb o ho).1] at he
    exact (hI.of_same hsame (mem_slots.2 ⟨o, (hb o ho).2, he⟩)).2
  · rw [(hb o ho).1] at he
    have hlt' := hI.hash_lt (mem_slots.2 ⟨o, (hb o ho).2, he⟩)
    have hdiv := dirIndex_div hlt' (Nat.le_add_right I.dir.bits 1) hlt
    rw [Nat.add_sub_cancel_left, Nat.pow_one] at hdiv
    rw [hentry, hbits, hdiv]
    exact hI.home o (hb o ho).2 e he

/-! ## Splitting a bucket -/

/-- The entries of a directory after the run `[start, stop)` is cut at `mid`
and pointed at two buckets. -/
theorem entryAt_split (d : Directory) (start mid stop lo hi j : Nat) :
    ((d.setRange start mid lo).setRange mid stop hi).entryAt j =
      if mid ≤ j ∧ j < stop ∧ j < d.size then hi
      else if start ≤ j ∧ j < mid ∧ j < d.size then lo else d.entryAt j := by
  rw [Directory.entryAt_setRange, Directory.size_setRange, Directory.entryAt_setRange]

/-- Splitting the bucket `off` that index `i0` names, of depth `b` below the
directory's, into `lo` and `hi`: the lower half of its run goes to `lo`, which
takes the entries whose next hash bit is 0, and the upper half to `hi`, which
takes the others. The table keeps its shape and its records, and `lo` and `hi`
replace `off` among the live buckets. -/
theorem Shaped.split (hI : I.Shaped) {i0 off b lo hi : Nat} (hi0 : i0 < I.dir.size)
    (hoff : I.dir.entryAt i0 = off) (hb : (I.bucket off).depth = b) (hbD : b < I.dir.bits)
    (hlo : lo ∉ I.live) (hhi : hi ∉ I.live) (hne : lo ≠ hi)
    (hentries : J.dir.entries = ((I.dir.setRange (I.dir.rangeOf i0 b).1
      ((I.dir.rangeOf i0 b).1 + ((I.dir.rangeOf i0 b).2 - (I.dir.rangeOf i0 b).1) / 2) lo).setRange
      ((I.dir.rangeOf i0 b).1 + ((I.dir.rangeOf i0 b).2 - (I.dir.rangeOf i0 b).1) / 2)
      (I.dir.rangeOf i0 b).2 hi).entries)
    (hbits : J.dir.bits = I.dir.bits)
    (hdirBits : J.header.dirBits = J.dir.bits) (hdirOffset : J.header.dirOffset = J.dir.offset)
    (helems : J.header.bucketElems = I.header.bucketElems)
    (hwlo : (J.bucket lo).WF) (hflo : (J.bucket lo).Fits I.header.bucketElems)
    (hdlo : (J.bucket lo).depth = b + 1)
    (helo : (J.bucket lo).entries.Perm
      ((I.bucket off).entries.filter fun e => splitBit e.hash (b + 1) = 0))
    (hwhi : (J.bucket hi).WF) (hfhi : (J.bucket hi).Fits I.header.bucketElems)
    (hdhi : (J.bucket hi).depth = b + 1)
    (hehi : (J.bucket hi).entries.Perm
      ((I.bucket off).entries.filter fun e => !decide (splitBit e.hash (b + 1) = 0)))
    (hbucket : ∀ o ∈ I.live, o ≠ off → J.bucket o = I.bucket o)
    (hbyte : ∀ e ∈ I.slots, ∀ i, e.dataOffset ≤ i → i < e.dataOffset + e.recordSize →
      J.byte i = I.byte i) :
    J.Shaped ∧ Same I J ∧ J.live.Perm (lo :: hi :: I.live.erase off) := by
  have hoffL : off ∈ I.live := hoff ▸ entryAt_mem_live hi0
  have hsizeJ : J.dir.size = I.dir.size := by
    rw [show J.dir.size = _ from congrArg Array.size hentries]
    exact (Directory.size_setRange _ _ _ _).trans (Directory.size_setRange _ _ _ _)
  have hrun : ∀ j < I.dir.size, I.dir.entryAt j = off ↔
      (I.dir.rangeOf i0 b).1 ≤ j ∧ j < (I.dir.rangeOf i0 b).2 := fun j hj => by
    rw [← hoff, hI.aligned.runs i0 hi0 j hj, hoff, hb, Directory.mem_rangeOf_iff]
  have hstop := Directory.rangeOf_le_size hI.aligned.size_eq hi0 (Nat.le_of_lt hbD)
  have hr2 := (Directory.rangeOf_halves I.dir i0 b hbD).1
  have hhalf : 0 < 2 ^ (I.dir.bits - (b + 1)) := Nat.pow_pos (by decide)
  have hJentry : ∀ j, J.dir.entryAt j = ((I.dir.setRange (I.dir.rangeOf i0 b).1
      ((I.dir.rangeOf i0 b).1 + ((I.dir.rangeOf i0 b).2 - (I.dir.rangeOf i0 b).1) / 2) lo).setRange
      ((I.dir.rangeOf i0 b).1 + ((I.dir.rangeOf i0 b).2 - (I.dir.rangeOf i0 b).1) / 2)
      (I.dir.rangeOf i0 b).2 hi).entryAt j := fun j => by simp only [Directory.entryAt, hentries]
  have hal := @Directory.aligned_split I.dir _
    (fun o => if o = lo then b + 1 else if o = hi then b + 1 else (I.bucket o).depth) hI.aligned
    i0 b hi0 (by rw [hoff, hb]) hbD lo hi (fun j hj h => hlo (h ▸ entryAt_mem_live hj))
    (fun j hj h => hhi (h ▸ entryAt_mem_live hj)) hne (fun o h1 h2 => by simp [h1, h2])
    (by simp) (by simp [Ne.symm hne])
  have hselect : ∀ h, h < 2 ^ hashBits → (I.dir.rangeOf i0 b).1 ≤ dirIndex h I.dir.bits ∧
      dirIndex h I.dir.bits < (I.dir.rangeOf i0 b).2 →
      (dirIndex h I.dir.bits < (I.dir.rangeOf i0 b).1 +
        ((I.dir.rangeOf i0 b).2 - (I.dir.rangeOf i0 b).1) / 2 ↔ splitBit h (b + 1) = 0) :=
    fun h hh hin => dirIndex_lt_mid hh hbD hI.bits_le hin
  generalize (I.dir.rangeOf i0 b).1 = start at *
  generalize (I.dir.rangeOf i0 b).2 = stop at *
  have hJentry0 := hJentry
  simp only [entryAt_split] at hJentry
  have hmem : ∀ o, o ∈ J.live ↔ o = lo ∨ o = hi ∨ (o ∈ I.live ∧ o ≠ off) := by
    intro o
    constructor
    · intro ho
      obtain ⟨j, hj, rfl⟩ := exists_entryAt_of_mem_live ho
      rw [hsizeJ] at hj
      rw [hJentry]
      split
      · exact .inr (.inl rfl)
      · split
        · exact .inl rfl
        · refine .inr (.inr ⟨entryAt_mem_live hj, fun h => ?_⟩)
          have := (hrun j hj).1 h
          omega
    · rintro (rfl | rfl | ⟨ho, hne'⟩)
      · have := entryAt_mem_live (I := J) (show start < J.dir.size by omega)
        rwa [hJentry, if_neg (by omega), if_pos (by omega)] at this
      · have := entryAt_mem_live (I := J)
          (show start + (stop - start) / 2 < J.dir.size by omega)
        rwa [hJentry, if_pos (by omega)] at this
      · obtain ⟨i, hi', rfl⟩ := exists_entryAt_of_mem_live ho
        have hout : ¬ (start ≤ i ∧ i < stop) := fun h => hne' ((hrun i hi').2 h)
        have := entryAt_mem_live (I := J) (show i < J.dir.size by omega)
        rwa [hJentry, if_neg (by omega), if_neg (by omega)] at this
  have hlive : J.live.Perm (lo :: hi :: I.live.erase off) := by
    refine (List.perm_ext_iff_of_nodup nodup_live ?_).2 fun o => ?_
    · refine List.nodup_cons.2 ⟨?_, List.nodup_cons.2 ⟨?_, nodup_live.erase off⟩⟩
      · simp only [List.mem_cons, not_or]
        exact ⟨hne, fun h => hlo (List.mem_of_mem_erase h)⟩
      · exact fun h => hhi (List.mem_of_mem_erase h)
    · rw [hmem, List.mem_cons, List.mem_cons, nodup_live.mem_erase_iff]
      tauto
  have hcases : ∀ o ∈ J.live, o = lo ∨ o = hi ∨
      (o ∈ I.live ∧ o ≠ off ∧ J.bucket o = I.bucket o) := by
    intro o ho
    rcases (hmem o).1 ho with h | h | ⟨h1, h2⟩
    · exact .inl h
    · exact .inr (.inl h)
    · exact .inr (.inr ⟨h1, h2, hbucket o h1 h2⟩)
  have hsplitE : ((J.bucket lo).entries ++ (J.bucket hi).entries).Perm (I.bucket off).entries :=
    (helo.append hehi).trans (List.filter_append_perm _ _)
  have hslots : J.slots.Perm I.slots := by
    rw [show J.slots = J.live.flatMap fun o => (J.bucket o).entries from rfl]
    refine (hlive.flatMap_right _).trans ((List.Perm.trans ?_ (slots_perm_cons hoffL).symm))
    have hrest : ((I.live.erase off).flatMap fun o => (J.bucket o).entries) =
        (I.live.erase off).flatMap fun o => (I.bucket o).entries :=
      List.flatMap_congr fun o ho => by
        rw [hbucket o (List.mem_of_mem_erase ho) (nodup_live.mem_erase_iff.1 ho).1]
    rw [List.flatMap_cons, List.flatMap_cons, ← List.append_assoc, hrest]
    exact hsplitE.append_right _
  have hsame : Same I J := ⟨hslots, hbyte⟩
  have hsub : ∀ o ∈ J.live, ∀ e ∈ (J.bucket o).entries, e ∈ I.slots := fun o ho e he =>
    hslots.subset (mem_slots.2 ⟨o, ho, he⟩)
  refine ⟨⟨by rw [hbits]; exact hI.bits_le, ?_, hdirBits, hdirOffset, fun o ho => ?_,
    fun o ho => ?_, fun o ho e he => (hI.of_same hsame (hsub o ho e he)).1,
    fun o ho e he => (hI.of_same hsame (hsub o ho e he)).2, fun o ho e he => ?_,
    hsame.keys_nodup hI.keys_nodup⟩, hsame, hlive⟩
  · refine hal.congr hentries hbits fun i hi' => ?_
    have hiJ : i < J.dir.size := by
      rw [hsizeJ]
      simpa [Directory.size_setRange] using hi'
    rw [← hJentry0 i]
    rcases hcases _ (entryAt_mem_live hiJ) with h | h | ⟨h1, -, h3⟩
    · rw [h, hdlo, if_pos rfl]
    · rw [h, hdhi, if_neg (Ne.symm hne), if_pos rfl]
    · have h1lo : J.dir.entryAt i ≠ lo := fun h => hlo (h ▸ h1)
      have h1hi : J.dir.entryAt i ≠ hi := fun h => hhi (h ▸ h1)
      rw [h3, if_neg h1lo, if_neg h1hi]
  · rcases hcases o ho with rfl | rfl | ⟨h1, -, h3⟩
    · exact hwlo
    · exact hwhi
    · rw [h3]; exact hI.wf o h1
  · rcases hcases o ho with rfl | rfl | ⟨h1, -, h3⟩
    · rw [helems]; exact hflo
    · rw [helems]; exact hfhi
    · rw [h3, helems]; exact hI.fits o h1
  · have hlt := hI.hash_lt (hsub o ho e he)
    have hj : dirIndex e.hash I.dir.bits < I.dir.size := by
      rw [hI.aligned.size_eq]
      exact dirIndex_lt hlt hI.bits_le
    rw [hbits, hJentry]
    rcases hcases o ho with rfl | rfl | ⟨h1, h2, h3⟩
    · obtain ⟨heo, hbit⟩ := List.mem_filter.1 (helo.subset he)
      have hin := (hrun _ hj).1 (hI.home off hoffL e heo)
      have hlow := (hselect _ hlt hin).2 (by simpa using hbit)
      rw [if_neg (by omega), if_pos ⟨hin.1, hlow, hj⟩]
    · obtain ⟨heo, hbit⟩ := List.mem_filter.1 (hehi.subset he)
      have hin := (hrun _ hj).1 (hI.home off hoffL e heo)
      have hup : ¬ dirIndex e.hash I.dir.bits < start + (stop - start) / 2 := fun h =>
        by simp [(hselect _ hlt hin).1 h] at hbit
      rw [if_pos ⟨by omega, hin.2, hj⟩]
    · rw [h3] at he
      have hhome := hI.home o h1 e he
      have hout : ¬ (start ≤ dirIndex e.hash I.dir.bits ∧ dirIndex e.hash I.dir.bits < stop) :=
        fun h => h2 (hhome ▸ (hrun _ hj).2 h)
      rw [if_neg (by omega), if_neg (by omega), hhome]

/-! ## Changing one bucket -/

/-- Changing the entries of one live bucket, and the bytes of no record of
another, keeps the table's shape when the bucket stays well formed and of its
depth and every entry it holds is placed as the shape asks. The same buckets
stay live, and the slots are the bucket's new entries and those of the others. -/
theorem Shaped.update (hI : I.Shaped) {off : Nat} (hoff : off ∈ I.live)
    (hentries : J.dir.entries = I.dir.entries) (hbits : J.dir.bits = I.dir.bits)
    (hdirBits : J.header.dirBits = J.dir.bits) (hdirOffset : J.header.dirOffset = J.dir.offset)
    (helems : J.header.bucketElems = I.header.bucketElems)
    (hwf : (J.bucket off).WF) (hfits : (J.bucket off).Fits I.header.bucketElems)
    (hdepth : (J.bucket off).depth = (I.bucket off).depth)
    (hplaced : ∀ e ∈ (J.bucket off).entries, e.hash = Key.hash (J.keyOf e) ∧
      e.head = Key.head (J.keyOf e) ∧ I.dir.entryAt (dirIndex e.hash I.dir.bits) = off)
    (hbucket : ∀ o ∈ I.live, o ≠ off → J.bucket o = I.bucket o)
    (hbyte : ∀ o ∈ I.live, o ≠ off → ∀ e ∈ (I.bucket o).entries, ∀ i, e.dataOffset ≤ i →
      i < e.dataOffset + e.recordSize → J.byte i = I.byte i)
    (hkeys : J.keys.Nodup) :
    J.Shaped ∧ J.live = I.live ∧
      J.slots.Perm ((J.bucket off).entries ++
        (I.live.erase off).flatMap fun o => (I.bucket o).entries) := by
  have hlive : J.live = I.live := by simp only [live, hentries]
  have hentry : ∀ i, J.dir.entryAt i = I.dir.entryAt i := fun i => by
    simp only [Directory.entryAt, hentries]
  have hslots : J.slots.Perm ((J.bucket off).entries ++
      (I.live.erase off).flatMap fun o => (I.bucket o).entries) := by
    have := slots_perm_cons (I := J) (hlive ▸ hoff)
    rwa [hlive, List.flatMap_congr fun o ho => by
      rw [hbucket o (List.mem_of_mem_erase ho) (nodup_live.mem_erase_iff.1 ho).1]] at this
  have hother : ∀ o ∈ I.live, o ≠ off → ∀ e ∈ (J.bucket o).entries,
      e.hash = Key.hash (J.keyOf e) ∧ e.head = Key.head (J.keyOf e) := by
    intro o ho hne e he
    rw [hbucket o ho hne] at he
    rw [keyOf_congr (hbyte o ho hne e he)]
    exact ⟨hI.hash_eq o ho e he, hI.head_eq o ho e he⟩
  refine ⟨⟨by rw [hbits]; exact hI.bits_le, ?_, hdirBits, hdirOffset, fun o ho => ?_,
    fun o ho => ?_, fun o ho e he => ?_, fun o ho e he => ?_, fun o ho e he => ?_, hkeys⟩,
    hlive, hslots⟩
  · refine hI.aligned.congr hentries hbits fun i hi => ?_
    by_cases h : I.dir.entryAt i = off
    · rw [h, hdepth]
    · rw [hbucket _ (entryAt_mem_live hi) h]
  · rw [hlive] at ho
    by_cases h : o = off
    · subst h; exact hwf
    · rw [hbucket o ho h]; exact hI.wf o ho
  · rw [hlive] at ho
    by_cases h : o = off
    · subst h; rw [helems]; exact hfits
    · rw [hbucket o ho h, helems]; exact hI.fits o ho
  · rw [hlive] at ho
    by_cases h : o = off
    · subst h; exact (hplaced e he).1
    · exact (hother o ho h e he).1
  · rw [hlive] at ho
    by_cases h : o = off
    · subst h; exact (hplaced e he).2.1
    · exact (hother o ho h e he).2
  · rw [hlive] at ho
    rw [hentry, hbits]
    by_cases h : o = off
    · subst h; exact (hplaced e he).2.2
    · rw [hbucket o ho h] at he
      exact hI.home o ho e he

end Image

end HashFile
