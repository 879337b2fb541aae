/-!
# Sparse byte strings

The contents of a file with holes: a length, and the runs of bytes written into
it, in order of position, each ending before the next one starts. Every byte
inside the length but outside the runs reads as zero. A file grown by a write
far past its end, or by setting a larger length, so costs only the bytes that
were written.

Writing lays the new bytes over the runs they overlap or touch and joins them
into one run; the new bytes win where they overlap. A file written from its
start without gaps, as a store file is, stays a single run, and a write into
it changes that run where it lies.
-/
namespace HashFile

/-- Bytes written at a position. -/
structure ByteRun where
  start : Nat
  bytes : ByteArray
  deriving Inhabited

/-- The position just past a run. -/
def ByteRun.stop (r : ByteRun) : Nat := r.start + r.bytes.size

/-- Join a run with bytes `w` written over it; they must overlap or touch. The
bytes of `w` win, and the run's bytes outside `w` stay. -/
def ByteRun.under (r w : ByteRun) : ByteRun :=
  if r.start ≤ w.start then ⟨r.start, w.bytes.copySlice 0 r.bytes (w.start - r.start) w.bytes.size false⟩
  else ⟨w.start, w.bytes ++ r.bytes.extract (w.stop - r.start) r.bytes.size⟩

/-- A byte string of some length, given by the runs written into it. -/
structure SparseBytes where
  size : Nat
  /-- Written runs, by position, apart from one another. -/
  runs : List ByteRun
  deriving Inhabited

namespace SparseBytes

/-- The empty string. -/
def empty : SparseBytes := ⟨0, []⟩

/-- Lay a run over runs in order of position: the runs it overlaps or touches
join it, and the others stay in place. -/
def place (w : ByteRun) : List ByteRun → List ByteRun
  | [] => [w]
  | r :: rest =>
    if r.stop < w.start then r :: place w rest
    else if w.stop < r.start then w :: r :: rest
    else place (r.under w) rest

/-- Write bytes at a position; the length grows to the end of the write.
Writing nothing changes nothing. -/
def write (s : SparseBytes) (off : Nat) (bytes : ByteArray) : SparseBytes :=
  if bytes.size = 0 then s
  else
    let w : ByteRun := ⟨off, bytes⟩
    ⟨max s.size w.stop, place w s.runs⟩

/-- A byte string that is all one run. -/
def ofBytes (b : ByteArray) : SparseBytes := empty.write 0 b

/-- Keep the runs, and the part of a run, below a length. -/
def cut (len : Nat) : List ByteRun → List ByteRun
  | [] => []
  | r :: rest =>
    if len ≤ r.start then []
    else if r.stop ≤ len then r :: cut len rest
    else [⟨r.start, r.bytes.extract 0 (len - r.start)⟩]

/-- Cut to a length, or extend with zero bytes to it. -/
def setLen (s : SparseBytes) (len : Nat) : SparseBytes := ⟨len, cut len s.runs⟩

/-- `n` zero bytes. -/
def zeros (n : Nat) : ByteArray := ⟨Array.replicate n 0⟩

/-- The bytes from `off`, at most `len` of them, as far as the string reaches:
zero bytes with the written runs copied over them. -/
def read (s : SparseBytes) (off len : Nat) : ByteArray :=
  let stop := min (off + len) s.size
  s.runs.foldl (fun acc r =>
    if r.stop ≤ off ∨ stop ≤ r.start then acc
    else
      let lo := max off r.start
      let hi := min stop r.stop
      r.bytes.copySlice (lo - r.start) acc (lo - off) (hi - lo)) (zeros (stop - off))

/-- All the bytes. -/
def toBytes (s : SparseBytes) : ByteArray := s.read 0 s.size

@[simp] theorem size_setLen (s : SparseBytes) (len : Nat) : (s.setLen len).size = len := rfl

theorem write_of_size_eq_zero (s : SparseBytes) (off : Nat) {bytes : ByteArray}
    (h : bytes.size = 0) : s.write off bytes = s := by
  simp [write, h]

theorem size_write (s : SparseBytes) (off : Nat) {bytes : ByteArray} (h : bytes.size ≠ 0) :
    (s.write off bytes).size = max s.size (off + bytes.size) := by
  simp [write, h, ByteRun.stop]

/-- The length of a copy of a slice into a byte string. -/
theorem size_copySlice (src : ByteArray) (srcOff : Nat) (dest : ByteArray) (destOff len : Nat)
    (exact : Bool) :
    (src.copySlice srcOff dest destOff len exact).size =
      min destOff dest.size + (min (srcOff + len) src.size - srcOff) +
        (dest.size - (destOff + min len (src.size - srcOff))) := by
  rw [ByteArray.copySlice]
  show (_ ++ _ ++ _ : Array UInt8).size = _
  simp only [Array.size_append, Array.size_extract, ByteArray.size_data]
  omega

/-- Reading gives the bytes of the window that lie inside the string, no more. -/
@[simp] theorem size_read (s : SparseBytes) (off len : Nat) :
    (s.read off len).size = min (off + len) s.size - off := by
  unfold read
  generalize min (off + len) s.size = stop
  generalize s.runs = runs
  suffices ∀ (acc : ByteArray), acc.size = stop - off →
      (runs.foldl (fun acc r =>
        if r.stop ≤ off ∨ stop ≤ r.start then acc
        else r.bytes.copySlice (max off r.start - r.start) acc (max off r.start - off)
          (min stop r.stop - max off r.start)) acc).size = stop - off from
    this _ (by simp [zeros, ByteArray.size])
  induction runs with
  | nil => intro acc h; exact h
  | cons r rest ih =>
    intro acc h
    simp only [List.foldl_cons]
    apply ih
    split
    · exact h
    · rename_i hr
      rw [size_copySlice]
      simp only [ByteRun.stop] at hr ⊢
      omega

end SparseBytes

end HashFile
