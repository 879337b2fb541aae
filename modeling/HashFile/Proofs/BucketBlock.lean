import HashFile.Proofs.Codec

/-!
# Which blocks hold a bucket

`Bucket.decode_encode` reads a bucket back from its own block. This module
looks at decoding from the other side, for any bytes at all: a block is refused
exactly when it is shorter than its slots, when its count field exceeds the
slots, or when its count field disagrees with the slots whose hash is not the
vacant one (`decode_error_iff`). These three conditions are stated on the raw
bytes (`countField`, `occupiedField`), not through the decoder.

A block that is accepted is written back by the bucket read from it: its first
`8 + 24 * elems` bytes are those of the encoding (`take_encode_of_decode`). Each
field is a little-endian word of the bytes where it lies, so writing the word
back gives those bytes (`leBytes_readWord`).
-/
namespace HashFile

/-! ## Words read back as bytes -/

/-- The bytes of a list, read as a word and written with as many bytes, are the
list again. -/
theorem leBytes_ofLeBytes : ∀ l : List UInt8, leBytes l.length (ofLeBytes l) = l
  | [] => rfl
  | b :: bs => by
    have hb : b.toNat < 256 := UInt8.toNat_lt b
    have hdiv : (b.toNat + 256 * ofLeBytes bs) / 256 = ofLeBytes bs := by omega
    rw [List.length_cons, leBytes_succ, ofLeBytes_cons, hdiv, leBytes_ofLeBytes bs]
    simp

theorem ofLeBytes_lt : ∀ l : List UInt8, ofLeBytes l < 256 ^ l.length
  | [] => Nat.one_pos
  | b :: bs => by
    have hb : b.toNat < 256 := UInt8.toNat_lt b
    have ih := ofLeBytes_lt bs
    rw [ofLeBytes_cons, List.length_cons, Nat.pow_succ]
    omega

/-- A word read from `w` bytes fits them, wherever it is read. -/
theorem readWord_lt (x : ByteArray) (pos w : Nat) : readWord x pos w < 256 ^ w := by
  have := ofLeBytes_lt ((List.range w).map fun i => x[pos + i]?.getD 0)
  rwa [List.length_map, List.length_range] at this

/-- Within the byte string, a word is the number of the bytes where it lies. -/
theorem readWord_eq_ofLeBytes {x : ByteArray} {pos w : Nat} (h : pos + w ≤ x.size) :
    readWord x pos w = ofLeBytes ((x.data.toList.drop pos).take w) := by
  unfold readWord
  congr 1
  apply List.ext_getElem (by simp; omega)
  intro i h1 h2
  simp only [List.length_map, List.length_range] at h1
  simp only [List.getElem_map, List.getElem_range, List.getElem_take, List.getElem_drop,
    getElem?_eq_data, Array.getElem?_toList]
  rw [Array.getElem?_eq_getElem (by simp only [ByteArray.size_data]; omega)]
  rfl

/-- Writing back a word read within the byte string gives the bytes it was
read from. -/
theorem leBytes_readWord {x : ByteArray} {pos w : Nat} (h : pos + w ≤ x.size) :
    leBytes w (readWord x pos w) = (x.data.toList.drop pos).take w := by
  have hlen : ((x.data.toList.drop pos).take w).length = w := by
    simp only [List.length_take, List.length_drop, Array.length_toList, ByteArray.size_data]
    omega
  have hword := leBytes_ofLeBytes ((x.data.toList.drop pos).take w)
  rwa [hlen, ← readWord_eq_ofLeBytes h] at hword

/-- The next `a + b` bytes from a position are the next `a`, then the `b` after
them. -/
theorem take_drop_add (l : List UInt8) (pos a b : Nat) :
    (l.drop pos).take (a + b) = (l.drop pos).take a ++ (l.drop (pos + a)).take b := by
  rw [List.take_add, List.drop_drop]

/-- `n` runs of `k` bytes from `pos`, cut one run at a time. -/
theorem take_drop_runs (l : List UInt8) (pos k : Nat) :
    ∀ n, (l.drop pos).take (n * k) =
      (List.range n).flatMap fun i => (l.drop (pos + i * k)).take k
  | 0 => by simp
  | n + 1 => by
    rw [Nat.succ_mul, take_drop_add, take_drop_runs l pos k n, List.range_succ,
      List.flatMap_append, List.flatMap_singleton]

/-! ## A slot read within the block -/

namespace Slot

/-- A slot read within the byte string fits its words. -/
theorem fits_read {x : ByteArray} {pos : Nat} (h : pos + 24 ≤ x.size) : (read x pos).Fits where
  hash := readWord_lt x pos 4
  head := by
    simp only [read, toList_eq_data, toList_sliceBytes, List.length_take, List.length_drop,
      Array.length_toList, ByteArray.size_data]
    omega
  dataOffset := lt_of_lt_of_eq (readWord_lt x (pos + 8) 8) (by norm_num)
  keySize := readWord_lt x (pos + 16) 4
  dataSize := readWord_lt x (pos + 20) 4

/-- The 24 bytes of a slot read within the byte string are the bytes it was
read from. -/
theorem bytes_read {x : ByteArray} {pos : Nat} (h : pos + 24 ≤ x.size) :
    (read x pos).bytes = (x.data.toList.drop pos).take 24 := by
  have hsplit : (x.data.toList.drop pos).take 24 =
      (x.data.toList.drop pos).take 4 ++ (x.data.toList.drop (pos + 4)).take 4 ++
        (x.data.toList.drop (pos + 8)).take 8 ++ (x.data.toList.drop (pos + 16)).take 4 ++
          (x.data.toList.drop (pos + 20)).take 4 := by
    rw [show 24 = 4 + (4 + (8 + (4 + 4))) from rfl, take_drop_add, take_drop_add _ (pos + 4),
      take_drop_add _ (pos + 4 + 4), take_drop_add _ (pos + 4 + 4 + 8)]
    simp only [List.append_assoc, Nat.add_assoc]
  rw [hsplit]
  simp only [bytes, read, toList_eq_data, toList_sliceBytes,
    leBytes_readWord (show pos + 4 ≤ x.size by omega),
    leBytes_readWord (show pos + 8 + 8 ≤ x.size by omega),
    leBytes_readWord (show pos + 16 + 4 ≤ x.size by omega),
    leBytes_readWord (show pos + 20 + 4 ≤ x.size by omega)]

end Slot

namespace Bucket

/-- The bytes of the header and slots of a block of `elems` slots. -/
def contentSize (elems : Nat) : Nat := bucketHeaderSize + elems * slotBytes

/-- The count field of a block. -/
def countField (x : ByteArray) : Nat := readWord x 4 4

/-- The number of slots among the first `elems` whose hash is not the vacant one. -/
def occupiedField (x : ByteArray) (elems : Nat) : Nat :=
  ((List.range elems).filter fun i => readWord x (bucketHeaderSize + i * slotBytes) 4 ≠ vacantHash).length

/-- The bucket a block of `elems` slots holds, read field by field with no check. -/
def readAll (x : ByteArray) (elems : Nat) : Bucket :=
  ⟨readWord x 0 4, countField x,
    (Array.range elems).map fun i => Slot.read x (bucketHeaderSize + i * slotBytes)⟩

/-- Decoding is reading every field, then the three checks. -/
theorem decode_eq (x : ByteArray) (elems : Nat) :
    decode x elems =
      if x.size < contentSize elems then .error (.shortBlock x.size (contentSize elems))
      else if elems < countField x then .error (.countAboveSlots (countField x) elems)
      else if (readAll x elems).occupiedCount ≠ countField x then
        .error (.countMismatch (countField x) (readAll x elems).occupiedCount)
      else .ok (readAll x elems) := rfl

@[simp] theorem size_readAll (x : ByteArray) (elems : Nat) : (readAll x elems).size = elems := by
  simp [readAll, size]

theorem slot_readAll {x : ByteArray} {elems i : Nat} (hi : i < elems) :
    (readAll x elems).slot i = Slot.read x (bucketHeaderSize + i * slotBytes) := by
  simp [readAll, slot, Array.getD_eq_getD_getElem?, hi]

/-- The occupied slots read from a block are those whose hash field is not the
vacant one. -/
theorem occupiedCount_readAll (x : ByteArray) (elems : Nat) :
    (readAll x elems).occupiedCount = occupiedField x elems := by
  unfold occupiedCount occupied occupiedField
  rw [size_readAll, List.filter_map, List.length_map]
  congr 1
  apply List.filter_congr
  intro i hi
  rw [Function.comp_apply, slot_readAll (List.mem_range.1 hi)]
  simp [Slot.isVacant, Slot.read, beq_eq_decide]

/-- Decoding refuses a block exactly when it is shorter than its slots, its
count exceeds its slots, or its count is not the number of slots in use. -/
theorem decode_error_iff (x : ByteArray) (elems : Nat) :
    (∃ e, decode x elems = .error e) ↔
      x.size < contentSize elems ∨ elems < countField x ∨ countField x ≠ occupiedField x elems := by
  rw [decode_eq, occupiedCount_readAll]
  by_cases hshort : x.size < contentSize elems
  · simp [hshort]
  · by_cases hcount : elems < countField x
    · simp [hshort, hcount]
    · by_cases hocc : occupiedField x elems = countField x
      · simp [hshort, hcount, hocc]
      · simp [hshort, hcount, hocc, Ne.symm hocc]

/-- What decoding answers, when it answers a bucket. -/
theorem eq_readAll_of_decode {x : ByteArray} {elems : Nat} {b : Bucket}
    (h : decode x elems = .ok b) :
    b = readAll x elems ∧ contentSize elems ≤ x.size ∧ countField x ≤ elems ∧
      (readAll x elems).occupiedCount = countField x := by
  rw [decode_eq] at h
  by_cases hshort : x.size < contentSize elems
  · simp [hshort] at h
  · by_cases hcount : elems < countField x
    · simp [hshort, hcount] at h
    · by_cases hocc : (readAll x elems).occupiedCount = countField x
      · simp only [hshort, hcount, hocc, if_false, ne_eq, not_true_eq_false, Except.ok.injEq] at h
        exact ⟨h.symm, by omega, by omega, hocc⟩
      · simp [hshort, hcount, hocc] at h

/-- A bucket read from a block that holds its slots fits its block. -/
theorem fits_readAll {x : ByteArray} {elems : Nat} (hsize : contentSize elems ≤ x.size)
    (hocc : (readAll x elems).occupiedCount = countField x) : (readAll x elems).Fits elems where
  size := by simp [readAll]
  depth := lt_of_lt_of_eq (readWord_lt x 0 4) (by norm_num)
  count := lt_of_lt_of_eq (readWord_lt x 4 4) (by norm_num)
  occupied := hocc
  slots := by
    intro s hs
    obtain ⟨i, hi, rfl⟩ := Array.mem_map.1 hs
    have hi' : i < elems := by simpa using hi
    apply Slot.fits_read
    have : (i + 1) * slotBytes ≤ elems * slotBytes := Nat.mul_le_mul_right _ hi'
    simp only [contentSize, bucketHeaderSize, slotBytes, Nat.succ_mul] at hsize this ⊢
    omega

/-- The header and slot bytes of a block, as the fields read from it write them. -/
theorem take_eq_fields {x : ByteArray} {elems : Nat} (hsize : contentSize elems ≤ x.size) :
    x.data.toList.take (contentSize elems) =
      leBytes 4 (readWord x 0 4) ++ leBytes 4 (countField x) ++
        (readAll x elems).slots.toList.flatMap Slot.bytes := by
  have hslots : (readAll x elems).slots.toList.flatMap Slot.bytes =
      (x.data.toList.drop bucketHeaderSize).take (elems * slotBytes) := by
    rw [take_drop_runs]
    simp only [readAll, Array.toList_map, Array.toList_range, List.flatMap_map]
    apply List.flatMap_congr
    intro i hi
    have hi' : i < elems := List.mem_range.1 hi
    have : (i + 1) * slotBytes ≤ elems * slotBytes := Nat.mul_le_mul_right _ hi'
    apply Slot.bytes_read
    simp only [contentSize, bucketHeaderSize, slotBytes, Nat.succ_mul] at hsize this ⊢
    omega
  simp only [contentSize, bucketHeaderSize] at hsize
  rw [hslots, countField, leBytes_readWord (show 0 + 4 ≤ x.size by omega),
    leBytes_readWord (show 4 + 4 ≤ x.size by omega), contentSize, bucketHeaderSize,
    show 8 = 4 + 4 from rfl, List.take_add, List.take_add, List.drop_zero]

/-- A block that decodes is written back by its bucket, byte for byte, over
its header and slots. -/
theorem take_encode_of_decode {x : ByteArray} {elems : Nat} {b : Bucket}
    (h : decode x elems = .ok b) :
    (b.encode x.size).data.toList.take (contentSize elems) = x.data.toList.take (contentSize elems) := by
  obtain ⟨rfl, hsize, -, hocc⟩ := eq_readAll_of_decode h
  have hfits := fits_readAll hsize hocc
  have hlen : ((readAll x elems).slots.toList.flatMap Slot.bytes).length = 24 * elems := by
    rw [length_flatMap_bytes fun s hs => (hfits.slots s (by simpa using hs)).head]
    simp [hfits.size]
  rw [toList_encode hfits hsize, take_eq_fields hsize, List.take_append_of_le_length (by
    simp only [List.length_append, length_leBytes, hlen, contentSize, bucketHeaderSize, slotBytes]
    omega)]
  apply List.take_of_length_le
  simp only [List.length_append, length_leBytes, hlen, contentSize, bucketHeaderSize, slotBytes]
  omega

/-- Bucket blocks, both ways: a bucket whose fields fit and whose count is its
number of occupied slots reads back from its block; any bytes are refused
exactly when they are too short for the slots, their count exceeds the slots,
or their count is not the number of occupied slots; and a bucket read from
bytes writes them back over its header and slots. -/
theorem block_round_trips :
    (∀ (b : Bucket) (elems blockSize : Nat), contentSize elems ≤ blockSize → b.Fits elems →
      decode (b.encode blockSize) elems = .ok b) ∧
    (∀ (x : ByteArray) (elems : Nat), (∃ e, decode x elems = .error e) ↔
      x.size < contentSize elems ∨ elems < countField x ∨ countField x ≠ occupiedField x elems) ∧
    (∀ (x : ByteArray) (elems : Nat) (b : Bucket), decode x elems = .ok b →
      (b.encode x.size).data.toList.take (contentSize elems) =
        x.data.toList.take (contentSize elems)) :=
  ⟨fun _ _ _ hbs hb => decode_encode hb hbs, decode_error_iff, fun _ _ _ h => take_encode_of_decode h⟩

/-- A bucket of two slots, one of them in use, reads back from a block of 512
bytes. -/
theorem block_round_trips_two_slots :
    contentSize 2 ≤ 512 ∧ (⟨2, 1, #[⟨5, [0, 0, 0, 0], 1024, 3, 4⟩, Slot.vacant]⟩ : Bucket).Fits 2 ∧
      decode ((⟨2, 1, #[⟨5, [0, 0, 0, 0], 1024, 3, 4⟩, Slot.vacant]⟩ : Bucket).encode 512) 2 =
        .ok ⟨2, 1, #[⟨5, [0, 0, 0, 0], 1024, 3, 4⟩, Slot.vacant]⟩ := by
  have hbs : contentSize 2 ≤ 512 := by decide
  have hfits : (⟨2, 1, #[⟨5, [0, 0, 0, 0], 1024, 3, 4⟩, Slot.vacant]⟩ : Bucket).Fits 2 := by
    refine ⟨rfl, by decide, by decide, by decide, fun s hs => ?_⟩
    simp only [List.mem_toArray, List.mem_cons, List.not_mem_nil, or_false] at hs
    rcases hs with rfl | rfl
    · exact ⟨by decide, rfl, by decide, by decide, by decide⟩
    · exact Slot.fits_vacant
  exact ⟨hbs, hfits, block_round_trips.1 _ 2 512 hbs hfits⟩

end Bucket

end HashFile
