import HashFile.Volume
import Mathlib

/-!
# The bytes of a file

A file with holes is a length and the runs written into it. Here it is read
byte by byte: `SparseBytes.byteAt s i` is the byte at position `i`, taken from
the last run that covers `i`, or zero in a hole. Three facts carry every later
proof about the store's file:

* a read is the bytes at the positions it covers (`getElem?_read`);
* a write changes exactly the positions it covers (`byteAt_write`), provided
  the runs are in order, which every write keeps (`Ordered`);
* cutting or extending the length keeps the bytes below it (`byteAt_setLen`).

A run joined with a write that overlaps or touches it (`ByteRun.under`) holds
the write's bytes and, outside them, its own; that is what `place` relies on.
-/
namespace HashFile

/-- A copy of `len` bytes into a byte string that reaches its target position
puts the copied bytes there and keeps every other byte. -/
theorem copySlice_getElem? (src dest : ByteArray) (srcOff destOff len : Nat) (exact : Bool)
    (hd : destOff ≤ dest.size) (hs : srcOff + len ≤ src.size) (j : Nat) :
    (src.copySlice srcOff dest destOff len exact).data[j]? =
      if destOff ≤ j ∧ j < destOff + len then src.data[srcOff + (j - destOff)]?
      else dest.data[j]? := by
  simp only [ByteArray.copySlice]
  grind [ByteArray.size_data]

namespace ByteRun

/-- The byte a run holds at a position of the file, if it covers it. -/
def byte? (r : ByteRun) (i : Nat) : Option UInt8 :=
  if r.start ≤ i then r.bytes.data[i - r.start]? else none

theorem isSome_byte? {r : ByteRun} {i : Nat} :
    (r.byte? i).isSome ↔ r.start ≤ i ∧ i < r.stop := by
  unfold byte? stop
  grind [ByteArray.size_data]

theorem byte?_eq_none {r : ByteRun} {i : Nat} (h : i < r.start ∨ r.stop ≤ i) :
    r.byte? i = none := by
  rw [← Option.not_isSome_iff_eq_none, isSome_byte?]
  omega

theorem start_le_stop (r : ByteRun) : r.start ≤ r.stop := Nat.le_add_right _ _

/-- Joining a run with a write that overlaps or touches it keeps the write's
bytes and, outside the write, the run's. -/
theorem byte?_under {r w : ByteRun} (h1 : ¬ r.stop < w.start) (h2 : ¬ w.stop < r.start)
    (i : Nat) : (r.under w).byte? i = (w.byte? i).or (r.byte? i) := by
  unfold stop at h1 h2
  unfold under
  split
  · simp only [byte?]
    rw [copySlice_getElem? _ _ _ _ _ _ (by omega) (by omega)]
    grind [ByteArray.size_data]
  · simp only [byte?, ByteArray.data_append, ByteArray.data_extract, stop]
    grind [ByteArray.size_data]

theorem start_under (r w : ByteRun) : (r.under w).start = min r.start w.start := by
  unfold under
  split <;> (dsimp only; omega)

end ByteRun

namespace SparseBytes

/-- The byte the runs give a position: the last run that covers it. -/
def runsByte? : List ByteRun → Nat → Option UInt8
  | [], _ => none
  | r :: rs, i => (runsByte? rs i).or (r.byte? i)

/-- The byte at a position; a hole reads zero. -/
def byteAt (s : SparseBytes) (i : Nat) : UInt8 := (runsByte? s.runs i).getD 0

/-- Runs in order of position, each ending before the next one starts. -/
def Ordered (rs : List ByteRun) : Prop := rs.Pairwise fun a b => a.stop < b.start

theorem runsByte?_eq_none {rs : List ByteRun} {i : Nat} (h : ∀ r ∈ rs, i < r.start) :
    runsByte? rs i = none := by
  induction rs with
  | nil => rfl
  | cons r rs ih =>
    simp only [List.mem_cons, forall_eq_or_imp] at h
    simp [runsByte?, ih h.2, ByteRun.byte?_eq_none (Or.inl h.1)]

/-- A run of ordered runs and the runs after it never cover one position. -/
theorem byte?_or_comm {r : ByteRun} {rs : List ByteRun} (h : ∀ x ∈ rs, r.stop < x.start)
    (i : Nat) : (r.byte? i).or (runsByte? rs i) = (runsByte? rs i).or (r.byte? i) := by
  by_cases hi : i < r.stop
  · have : runsByte? rs i = none := runsByte?_eq_none fun x hx => by have := h x hx; omega
    simp [this, Option.or_none]
  · simp [ByteRun.byte?_eq_none (Or.inr (Nat.le_of_not_lt hi)), Option.or_none]

/-- Every run that `place` leaves starts no earlier than the write or the runs it met. -/
theorem start_le_of_mem_place {w : ByteRun} {rs : List ByteRun} {b : Nat}
    (hw : b ≤ w.start) (hrs : ∀ r ∈ rs, b ≤ r.start) : ∀ x ∈ place w rs, b ≤ x.start := by
  induction rs generalizing w with
  | nil => simpa [place] using hw
  | cons r rest ih =>
    simp only [List.mem_cons, forall_eq_or_imp] at hrs
    unfold place
    split
    · simpa using ⟨hrs.1, ih hw hrs.2⟩
    · split
      · simpa using ⟨hw, hrs.1, hrs.2⟩
      · exact ih (by rw [ByteRun.start_under]; omega) hrs.2

/-- Placing a write keeps the runs in order. -/
theorem ordered_place (w : ByteRun) {rs : List ByteRun} (hs : Ordered rs) :
    Ordered (place w rs) := by
  induction rs generalizing w with
  | nil => simp [place, Ordered]
  | cons r rest ih =>
    unfold Ordered at hs
    rw [List.pairwise_cons] at hs
    unfold place
    split
    · rename_i hlt
      refine List.pairwise_cons.2 ⟨fun x hx => ?_, ih w hs.2⟩
      exact start_le_of_mem_place (b := r.stop + 1) (by omega)
        (fun y hy => hs.1 y hy) x hx
    · split
      · rename_i _ hlt
        refine List.pairwise_cons.2 ⟨fun x hx => ?_, List.pairwise_cons.2 hs⟩
        simp only [List.mem_cons] at hx
        rcases hx with rfl | hx
        · exact hlt
        · have := hs.1 x hx; have := r.start_le_stop; omega
      · exact ih _ hs.2

/-- A write placed over ordered runs lies on top of them. -/
theorem runsByte?_place (w : ByteRun) {rs : List ByteRun} (hs : Ordered rs) (i : Nat) :
    runsByte? (place w rs) i = (w.byte? i).or (runsByte? rs i) := by
  induction rs generalizing w with
  | nil => simp [place, runsByte?, Option.or_none]
  | cons r rest ih =>
    unfold Ordered at hs
    rw [List.pairwise_cons] at hs
    unfold place
    split
    · simp only [runsByte?, ih w hs.2, Option.or_assoc]
    · split
      · rename_i _ hlt
        simp only [runsByte?]
        by_cases hi : i < w.stop
        · have : runsByte? (r :: rest) i = none := by
            refine runsByte?_eq_none fun x hx => ?_
            simp only [List.mem_cons] at hx
            rcases hx with rfl | hx
            · omega
            · have := hs.1 x hx; have := r.start_le_stop; omega
          simp only [runsByte?] at this
          simp [this, Option.or_none]
        · simp [ByteRun.byte?_eq_none (Or.inr (Nat.le_of_not_lt hi))]
      · rename_i h1 h2
        rw [ih _ hs.2, ByteRun.byte?_under h1 h2, Option.or_assoc, byte?_or_comm hs.1]
        rfl

/-- A write keeps the runs in order. -/
theorem ordered_write {s : SparseBytes} (hs : Ordered s.runs) (off : Nat) (b : ByteArray) :
    Ordered (s.write off b).runs := by
  unfold write
  split
  · exact hs
  · exact ordered_place _ hs

/-- A write changes exactly the bytes it covers. -/
theorem byteAt_write {s : SparseBytes} (hs : Ordered s.runs) (off : Nat) (b : ByteArray)
    (i : Nat) : (s.write off b).byteAt i = ((ByteRun.mk off b).byte? i).getD (s.byteAt i) := by
  unfold write byteAt
  split
  · rename_i h
    rw [ByteRun.byte?_eq_none (by simp only [ByteRun.stop, h]; omega)]
    rfl
  · rw [runsByte?_place _ hs]
    cases (ByteRun.mk off b).byte? i <;> rfl

/-- A write leaves every byte it does not cover. -/
theorem byteAt_write_of_not_mem {s : SparseBytes} (hs : Ordered s.runs) {off : Nat} {b : ByteArray}
    {i : Nat} (h : ¬ (off ≤ i ∧ i < off + b.size)) : (s.write off b).byteAt i = s.byteAt i := by
  rw [byteAt_write hs, ByteRun.byte?_eq_none (by simp only [ByteRun.stop]; omega)]
  rfl

/-- Cutting the runs keeps the bytes below the cut. -/
theorem runsByte?_cut {rs : List ByteRun} (hs : Ordered rs) (len i : Nat) :
    runsByte? (cut len rs) i = if i < len then runsByte? rs i else none := by
  induction rs with
  | nil => simp [cut, runsByte?]
  | cons r rest ih =>
    unfold Ordered at hs
    rw [List.pairwise_cons] at hs
    have later : ∀ x ∈ rest, r.stop < x.start := hs.1
    unfold cut
    split
    · split
      · refine (runsByte?_eq_none fun x hx => ?_).symm
        simp only [List.mem_cons] at hx
        rcases hx with rfl | hx
        · omega
        · have := later x hx; have := r.start_le_stop; omega
      · rfl
    · split
      · simp only [runsByte?, ih hs.2]
        split
        · rfl
        · exact ByteRun.byte?_eq_none (Or.inr (by omega))
      · rename_i h1 h2
        have hrest : ∀ j, j < len → runsByte? rest j = none := fun j hj =>
          runsByte?_eq_none fun x hx => by have := later x hx; simp only [ByteRun.stop] at *; omega
        simp only [runsByte?, Option.none_or, ByteRun.byte?, ByteArray.data_extract]
        simp only [ByteRun.stop] at h2
        by_cases hi : i < len
        · rw [if_pos hi, hrest i hi, Option.none_or]
          grind [ByteArray.size_data]
        · grind [ByteArray.size_data]

/-- Every run left by a cut starts where one of the runs did. -/
theorem start_of_mem_cut {len : Nat} :
    ∀ {rs : List ByteRun} {x : ByteRun}, x ∈ cut len rs → ∃ r ∈ rs, x.start = r.start
  | [], _, h => by simp [cut] at h
  | r :: rest, x, h => by
    unfold cut at h
    split at h
    · simp at h
    · split at h
      · simp only [List.mem_cons] at h
        rcases h with rfl | h
        · exact ⟨x, by simp, rfl⟩
        · obtain ⟨y, hy, he⟩ := start_of_mem_cut h
          exact ⟨y, by simp [hy], he⟩
      · simp only [List.mem_singleton] at h
        subst h
        exact ⟨r, by simp, rfl⟩

/-- Cutting keeps the runs in order. -/
theorem ordered_cut {rs : List ByteRun} (hs : Ordered rs) (len : Nat) : Ordered (cut len rs) := by
  induction rs with
  | nil => simp [cut, Ordered]
  | cons r rest ih =>
    unfold Ordered at hs
    rw [List.pairwise_cons] at hs
    unfold cut
    split
    · simp [Ordered]
    · split
      · refine List.pairwise_cons.2 ⟨fun x hx => ?_, ih hs.2⟩
        obtain ⟨y, hy, he⟩ := start_of_mem_cut hx
        rw [he]
        exact hs.1 y hy
      · simp [Ordered]

/-- Cutting or extending keeps the runs in order. -/
theorem ordered_setLen {s : SparseBytes} (hs : Ordered s.runs) (len : Nat) :
    Ordered (s.setLen len).runs :=
  ordered_cut hs len

/-- Cutting or extending keeps the bytes below the new length. -/
theorem byteAt_setLen {s : SparseBytes} (hs : Ordered s.runs) (len i : Nat) :
    (s.setLen len).byteAt i = if i < len then s.byteAt i else 0 := by
  simp only [byteAt, setLen, runsByte?_cut hs]
  split <;> rfl

/-- One run laid over a read window of `stop - off` bytes: the window keeps its
size, and the run's bytes lie over what the window held. -/
theorem copyRun_spec (off stop j : Nat) (r : ByteRun) (acc : ByteArray)
    (hacc : acc.size = stop - off) (hj : j < stop - off) :
    (if r.stop ≤ off ∨ stop ≤ r.start then acc
      else r.bytes.copySlice (max off r.start - r.start) acc (max off r.start - off)
        (min stop r.stop - max off r.start)).size = stop - off ∧
    (if r.stop ≤ off ∨ stop ≤ r.start then acc
      else r.bytes.copySlice (max off r.start - r.start) acc (max off r.start - off)
        (min stop r.stop - max off r.start)).data[j]? = (r.byte? (off + j)).or acc.data[j]? := by
  split
  · refine ⟨hacc, ?_⟩
    rw [ByteRun.byte?_eq_none (by omega)]
    rfl
  · rename_i hin
    simp only [ByteRun.stop] at hin ⊢
    refine ⟨by rw [size_copySlice]; omega, ?_⟩
    rw [copySlice_getElem? _ _ _ _ _ _ (by omega) (by omega)]
    unfold ByteRun.byte?
    grind [ByteArray.size_data]

/-- A read is the bytes at the positions it covers, as far as the string reaches. -/
theorem getElem?_read (s : SparseBytes) (off len j : Nat) :
    (s.read off len).data[j]? =
      if j < min (off + len) s.size - off then some (s.byteAt (off + j)) else none := by
  have hsize := size_read s off len
  unfold read at hsize ⊢
  unfold byteAt
  dsimp only at hsize ⊢
  generalize min (off + len) s.size = stop at hsize ⊢
  generalize s.runs = runs at hsize ⊢
  split
  · rename_i hj
    suffices ∀ (acc : ByteArray), acc.size = stop - off →
        (runs.foldl (fun acc r =>
          if r.stop ≤ off ∨ stop ≤ r.start then acc
          else r.bytes.copySlice (max off r.start - r.start) acc (max off r.start - off)
            (min stop r.stop - max off r.start)) acc).data[j]? =
          (runsByte? runs (off + j)).or acc.data[j]? by
      rw [this _ (by simp [zeros, ByteArray.size])]
      simp only [zeros, Array.getElem?_replicate, if_pos hj]
      cases runsByte? runs (off + j) <;> rfl
    clear hsize
    induction runs with
    | nil => intro acc _; rfl
    | cons r rest ih =>
      intro acc hacc
      have step := copyRun_spec off stop j r acc hacc hj
      simp only [List.foldl_cons, runsByte?, Option.or_assoc]
      rw [ih _ step.1, step.2]
  · rw [Array.getElem?_eq_none_iff.2]
    simp only [ByteArray.size_data]
    omega

/-- `len` bytes of a byte function from `off`. -/
def window (f : Nat → UInt8) (off len : Nat) : ByteArray :=
  ⟨Array.ofFn fun j : Fin len => f (off + j)⟩

@[simp] theorem size_window (f : Nat → UInt8) (off len : Nat) : (window f off len).size = len := by
  simp [window, ByteArray.size]

theorem getElem?_window (f : Nat → UInt8) (off len j : Nat) :
    (window f off len).data[j]? = if j < len then some (f (off + j)) else none := by
  simp only [window, Array.getElem?_ofFn]
  split <;> rfl

/-- Windows agree when their byte functions agree on them. -/
theorem window_congr {f g : Nat → UInt8} {off len : Nat}
    (h : ∀ i, off ≤ i → i < off + len → f i = g i) : window f off len = window g off len := by
  unfold window
  congr 2
  funext j
  exact h _ (Nat.le_add_right _ _) (by omega)

/-- A read inside the string is the window of its bytes. -/
theorem read_eq_window {s : SparseBytes} {off len : Nat} (h : off + len ≤ s.size) :
    s.read off len = window s.byteAt off len := by
  have : (s.read off len).data = (window s.byteAt off len).data := by
    apply Array.ext_getElem?
    intro j
    rw [getElem?_read, getElem?_window]
    simp only [Nat.min_eq_left h, Nat.add_sub_cancel_left]
  cases hr : s.read off len
  cases hw : window s.byteAt off len
  simp_all

/-- A write leaves every window it does not overlap. -/
theorem window_write_of_disjoint {s : SparseBytes} (hs : Ordered s.runs) {off : Nat}
    {b : ByteArray} {o n : Nat} (h : o + n ≤ off ∨ off + b.size ≤ o) :
    window (s.write off b).byteAt o n = window s.byteAt o n := by
  apply window_congr
  intro i h1 h2
  rw [byteAt_write hs, ByteRun.byte?_eq_none (by simp only [ByteRun.stop]; omega)]
  rfl

/-- What is written is read back where it lies. -/
theorem window_write_self {s : SparseBytes} (hs : Ordered s.runs) (off : Nat) (b : ByteArray) :
    window (s.write off b).byteAt off b.size = b := by
  have : (window (s.write off b).byteAt off b.size).data = b.data := by
    apply Array.ext_getElem?
    intro j
    rw [getElem?_window]
    split
    · rename_i hj
      rw [byteAt_write hs]
      simp only [ByteRun.byte?, Nat.le_add_right, if_true, Nat.add_sub_cancel_left]
      rw [Array.getElem?_eq_getElem (by simpa using hj)]
      rfl
    · rename_i hj
      rw [Array.getElem?_eq_none (by simpa using hj)]
  cases hw : window (s.write off b).byteAt off b.size
  cases b
  simp_all

/-- A record written as two parts reads back each part where it lies. -/
theorem window_write_append {s : SparseBytes} (hs : Ordered s.runs) (off : Nat) (a b : ByteArray) :
    window (s.write off (a ++ b)).byteAt off a.size = a ∧
      window (s.write off (a ++ b)).byteAt (off + a.size) b.size = b := by
  have hbyte : ∀ j, j < a.size + b.size →
      some ((s.write off (a ++ b)).byteAt (off + j)) = (a.data ++ b.data)[j]? := by
    intro j hj
    rw [byteAt_write hs]
    simp only [ByteRun.byte?, Nat.le_add_right, if_true, Nat.add_sub_cancel_left,
      ByteArray.data_append]
    rw [Array.getElem?_eq_getElem (by simpa using hj)]
    rfl
  constructor
  · apply ByteArray.ext
    apply Array.ext_getElem?
    intro j
    rw [getElem?_window]
    split
    · next hj =>
      rw [hbyte j (by omega), Array.getElem?_append_left (by rw [ByteArray.size_data]; exact hj)]
    · next hj => exact (Array.getElem?_eq_none (by rw [ByteArray.size_data]; omega)).symm
  · apply ByteArray.ext
    apply Array.ext_getElem?
    intro j
    rw [getElem?_window]
    split
    · next hj =>
      rw [Nat.add_assoc, hbyte _ (by omega),
        Array.getElem?_append_right (by rw [ByteArray.size_data]; omega), ByteArray.size_data,
        Nat.add_sub_cancel_left]
    · next hj => exact (Array.getElem?_eq_none (by rw [ByteArray.size_data]; omega)).symm

theorem size_write_le {s : SparseBytes} {off : Nat} {b : ByteArray} {N : Nat} (hs : s.size ≤ N)
    (hw : off + b.size ≤ N) : (s.write off b).size ≤ N := by
  by_cases h0 : b.size = 0
  · rw [write_of_size_eq_zero s off h0]; exact hs
  · rw [size_write s off h0]; omega

theorem le_size_write (s : SparseBytes) (off : Nat) (b : ByteArray) :
    s.size ≤ (s.write off b).size ∧ off + b.size ≤ (s.write off b).size ∨ b.size = 0 := by
  by_cases h0 : b.size = 0
  · exact .inr h0
  · rw [size_write s off h0]; omega

end SparseBytes

/-! ## The files of a volume -/

namespace Volume

variable (v : Volume)

theorem data_modifyData {ino : Nat} (h : ino < v.inodes.size) (f : SparseBytes → SparseBytes) :
    (v.modifyData ino f).data ino = f (v.data ino) := by
  simp only [data, modifyData, Array.getD_eq_getD_getElem?, Array.getElem?_modify, if_true,
    Array.getElem?_eq_getElem h, Option.map_some, Option.getD_some]

theorem data_modifyData_ne {ino i : Nat} (h : i ≠ ino) (f : SparseBytes → SparseBytes) :
    (v.modifyData ino f).data i = v.data i := by
  simp only [data, modifyData, Array.getD_eq_getD_getElem?, Array.getElem?_modify,
    if_neg (Ne.symm h)]

@[simp] theorem size_modifyData (ino : Nat) (f : SparseBytes → SparseBytes) :
    (v.modifyData ino f).inodes.size = v.inodes.size := by
  simp [modifyData]

theorem data_writeAt {ino : Nat} (h : ino < v.inodes.size) (off : Nat) (bytes : ByteArray) :
    (v.writeAt ino off bytes).data ino = (v.data ino).write off bytes := by
  unfold writeAt
  split
  · rename_i h0; rw [SparseBytes.write_of_size_eq_zero _ _ h0]
  · exact data_modifyData v h _

theorem data_writeAt_ne {ino i : Nat} (h : i ≠ ino) (off : Nat) (bytes : ByteArray) :
    (v.writeAt ino off bytes).data i = v.data i := by
  unfold writeAt
  split
  · rfl
  · exact data_modifyData_ne v h _

@[simp] theorem size_writeAt (ino off : Nat) (bytes : ByteArray) :
    (v.writeAt ino off bytes).inodes.size = v.inodes.size := by
  unfold writeAt
  split <;> simp

theorem data_setLen {ino : Nat} (h : ino < v.inodes.size) (len : Nat) :
    (v.setLen ino len).data ino = (v.data ino).setLen len :=
  data_modifyData v h _

theorem data_setLen_ne {ino i : Nat} (h : i ≠ ino) (len : Nat) :
    (v.setLen ino len).data i = v.data i :=
  data_modifyData_ne v h _

@[simp] theorem size_setLen (ino len : Nat) : (v.setLen ino len).inodes.size = v.inodes.size :=
  size_modifyData v ino _

@[simp] theorem data_close (f : OpenFile) (i : Nat) : (v.close f).data i = v.data i := by
  simp only [data, close, Array.getD_eq_getD_getElem?, Array.getElem?_modify]
  split
  · cases v.inodes[i]? <;> rfl
  · rfl

@[simp] theorem size_close (f : OpenFile) : (v.close f).inodes.size = v.inodes.size := by
  simp [close]

/-- A read answers the bytes of the file in its range, which lies inside the
file unless it is empty. -/
theorem readAt_eq_some {ino off len : Nat} {b : ByteArray} (h : v.readAt ino off len = some b) :
    b = SparseBytes.window (v.data ino).byteAt off len ∧ (len = 0 ∨ off + len ≤ v.fileLen ino) := by
  unfold readAt at h
  split at h
  · rename_i h0
    subst h0
    cases h
    exact ⟨ByteArray.ext (by simp [SparseBytes.window]), .inl rfl⟩
  · simp only at h
    split at h
    · rename_i hlen
      cases h
      exact ⟨SparseBytes.read_eq_window hlen, .inr hlen⟩
    · cases h

/-- A whole write succeeds exactly when it ends within the largest file. -/
theorem writeAll_eq_ok {ino off : Nat} {bytes : ByteArray} {v' : Volume} :
    v.writeAll ino off bytes = (.ok (), v') ↔
      off + bytes.size ≤ maxFileSize ∧ v' = v.writeAt ino off bytes := by
  by_cases hoff : off ≤ maxFileSize
  · have hs : seek off = .ok () := by simp [seek, hoff]
    simp only [writeAll, hs]
    by_cases hb : bytes.size ≤ maxFileSize - off
    · simp only [hb, if_true, Prod.mk.injEq, true_and]
      constructor
      · rintro rfl; exact ⟨by omega, rfl⟩
      · rintro ⟨-, rfl⟩; rfl
    · simp only [hb, if_false, Prod.mk.injEq, reduceCtorEq, false_and, false_iff, not_and]
      intro h; omega
  · have hs : seek off = .error .invalidArgument := by simp [seek, hoff]
    simp only [writeAll, hs, Prod.mk.injEq, reduceCtorEq, false_and, false_iff, not_and]
    intro h; omega

end Volume

end HashFile
