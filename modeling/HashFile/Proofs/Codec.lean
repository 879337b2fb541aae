import HashFile.Bucket.Codec
import HashFile.Directory
import HashFile.Header
import Mathlib

/-!
# Reading back what was written

The store's blocks are sequences of little-endian words. A word written with
`pushWord` is read back by `readWord` at the position where its bytes landed
(`readWord_of_toList`), modulo the word size; everything below is that fact
applied field by field.

A slot is 24 bytes (`Slot.bytes`) and a bucket block is its depth, its count,
its slots and zero padding. A bucket whose fields fit their words decodes to
itself (`decode_encode`): this is what lets a bucket leave the cache and be
read again unchanged. A directory is its entries as 8-byte words, and reads
back from them as well (`Directory.decode_encode`). A header encodes whenever
its free list fits its block (`Header.encode_ok`).
-/
namespace HashFile

theorem get!_eq_getElem (b : ByteArray) (i : Nat) (h : i < b.data.toList.length) :
    b.get! i = b.data.toList[i] := by
  obtain ⟨bs⟩ := b
  simp only [ByteArray.get!, Array.getElem_toList]
  exact getElem!_pos bs i (by simpa using h)

theorem toList_loop (b : ByteArray) (i : Nat) (r : List UInt8) :
    ByteArray.toList.loop b i r = r.reverse ++ b.data.toList.drop i := by
  induction i, r using ByteArray.toList.loop.induct b with
  | case1 i r hi ih =>
    rw [ByteArray.toList.loop, if_pos hi, ih, get!_eq_getElem b i (by simpa using hi), List.reverse_cons,
      List.append_assoc, List.singleton_append, List.getElem_cons_drop]
  | case2 i r hi =>
    rw [ByteArray.toList.loop, if_neg hi, List.drop_eq_nil_of_le (by simpa using hi),
      List.append_nil]

/-- The bytes of a byte string as a list are those of its array. -/
theorem toList_eq_data (b : ByteArray) : b.toList = b.data.toList := by
  simp [ByteArray.toList, toList_loop]

theorem toList_push (b : ByteArray) (x : UInt8) :
    (b.push x).data.toList = b.data.toList ++ [x] := by
  simp [ByteArray.data_push]

theorem toList_pushBytes (b : ByteArray) (bs : List UInt8) :
    (pushBytes b bs).data.toList = b.data.toList ++ bs := by
  induction bs generalizing b with
  | nil => simp [pushBytes]
  | cons x bs ih =>
    simp only [pushBytes, List.foldl_cons] at ih ⊢
    rw [ih, toList_push, List.append_assoc, List.singleton_append]

theorem toList_pushWord (b : ByteArray) (w n : Nat) :
    (pushWord b w n).data.toList = b.data.toList ++ leBytes w n :=
  toList_pushBytes b (leBytes w n)

theorem size_pushWord (b : ByteArray) (w n : Nat) : (pushWord b w n).size = b.size + w := by
  have := congrArg List.length (toList_pushWord b w n)
  simpa using this

theorem getElem?_eq_data (b : ByteArray) (i : Nat) : b[i]? = b.data.toList[i]? := by
  simp [getElem?_def, ByteArray.getElem_eq_getElem_data]

/-- A word holds its number modulo `256 ^ w`. -/
theorem ofLeBytes_leBytes (w n : Nat) : ofLeBytes (leBytes w n) = n % 256 ^ w := by
  induction w generalizing n with
  | zero => simp [Nat.mod_one]
  | succ w ih =>
    have low : (UInt8.ofNat (n % 256)).toNat = n % 256 := by simp
    rw [leBytes_succ, ofLeBytes_cons, ih, low, Nat.pow_succ', Nat.mod_mul]

/-- A word is read back where its bytes lie, modulo the word size. -/
theorem readWord_of_toList {b : ByteArray} {pre post : List UInt8} {w n : Nat}
    (h : b.data.toList = pre ++ (leBytes w n ++ post)) :
    readWord b pre.length w = n % 256 ^ w := by
  rw [readWord, ← ofLeBytes_leBytes]
  congr 1
  apply List.ext_getElem (by simp only [List.length_map, List.length_range, length_leBytes])
  intro i hi _
  simp only [List.length_map, List.length_range] at hi
  simp only [List.getElem_map, List.getElem_range, getElem?_eq_data, h]
  rw [List.getElem?_append_right (by omega), Nat.add_sub_cancel_left,
    List.getElem?_append_left (by rw [length_leBytes]; exact hi),
    List.getElem?_eq_getElem (by rw [length_leBytes]; exact hi)]
  rfl

/-- A word that fits is read back where its bytes lie. -/
theorem readWord_eq {b : ByteArray} {pre post : List UInt8} {w n : Nat}
    (h : b.data.toList = pre ++ (leBytes w n ++ post)) (hn : n < 256 ^ w) :
    readWord b pre.length w = n := by
  rw [readWord_of_toList h, Nat.mod_eq_of_lt hn]

theorem take_drop_of_eq {l pre mid post : List UInt8} (h : l = pre ++ (mid ++ post)) :
    (l.drop pre.length).take mid.length = mid := by
  subst h
  simp

/-- The bytes `[pos, pos + len)` of a byte string, as a list. -/
theorem toList_sliceBytes (b : ByteArray) (pos len : Nat) :
    (sliceBytes b pos len).data.toList = (b.data.toList.drop pos).take len := by
  simp only [sliceBytes, ByteArray.data_extract, Array.toList_extract, List.extract]
  rw [Nat.add_sub_cancel_left]

/-- A block is cut or padded to exactly its size. -/
theorem size_fitBytes (b : ByteArray) (n : Nat) : (fitBytes b n).size = n := by
  unfold fitBytes
  split
  · simp; omega
  · rw [ByteArray.size_append]
    show b.size + (Array.replicate (n - b.size) (0 : UInt8)).size = n
    rw [Array.size_replicate]; omega

namespace Slot

/-- The 24 bytes of a slot. -/
def bytes (s : Slot) : List UInt8 :=
  leBytes 4 s.hash ++ s.head ++ leBytes 8 s.dataOffset ++ leBytes 4 s.keySize ++
    leBytes 4 s.dataSize

/-- Every field of a slot fits its word, and its key head is four bytes. -/
structure Fits (s : Slot) : Prop where
  hash : s.hash < 2 ^ 32
  head : s.head.length = 4
  dataOffset : s.dataOffset < 2 ^ 64
  keySize : s.keySize < 2 ^ 32
  dataSize : s.dataSize < 2 ^ 32

theorem length_bytes {s : Slot} (h : s.head.length = 4) : s.bytes.length = 24 := by
  simp [bytes, h]

theorem toList_write (b : ByteArray) (s : Slot) :
    (Slot.write b s).data.toList = b.data.toList ++ s.bytes := by
  simp [Slot.write, toList_pushWord, toList_pushBytes, bytes]

/-- A slot is read back where its bytes lie. -/
theorem read_of_toList {b : ByteArray} {pre post : List UInt8} {s : Slot} (hs : s.Fits)
    (h : b.data.toList = pre ++ (s.bytes ++ post)) : Slot.read b pre.length = s := by
  obtain ⟨hash, head, off, ks, ds⟩ := s
  have h4 : head.length = 4 := hs.head
  simp only [bytes, List.append_assoc] at h
  have hhash : readWord b pre.length 4 = hash := readWord_eq h hs.hash
  have hhead : (sliceBytes b (pre.length + 4) 4).toList = head := by
    have hpre : pre.length + 4 = (pre ++ leBytes 4 hash).length := by simp
    have := take_drop_of_eq (show b.data.toList = (pre ++ leBytes 4 hash) ++
      (head ++ (leBytes 8 off ++ (leBytes 4 ks ++ (leBytes 4 ds ++ post)))) by
        rw [h]; simp only [List.append_assoc])
    rw [h4] at this
    rw [toList_eq_data, toList_sliceBytes, hpre, this]
  have hoff : readWord b (pre.length + 8) 8 = off := by
    have hpre : pre.length + 8 = (pre ++ (leBytes 4 hash ++ head)).length := by simp [h4]
    rw [hpre]
    exact readWord_eq (show b.data.toList = (pre ++ (leBytes 4 hash ++ head)) ++
      (leBytes 8 off ++ (leBytes 4 ks ++ (leBytes 4 ds ++ post))) by
        rw [h]; simp only [List.append_assoc]) hs.dataOffset
  have hks : readWord b (pre.length + 16) 4 = ks := by
    have hpre : pre.length + 16 = (pre ++ (leBytes 4 hash ++ (head ++ leBytes 8 off))).length := by
      simp [h4]
    rw [hpre]
    exact readWord_eq (show b.data.toList = (pre ++ (leBytes 4 hash ++ (head ++ leBytes 8 off))) ++
      (leBytes 4 ks ++ (leBytes 4 ds ++ post)) by
        rw [h]; simp only [List.append_assoc]) hs.keySize
  have hds : readWord b (pre.length + 20) 4 = ds := by
    have hpre : pre.length + 20 =
        (pre ++ (leBytes 4 hash ++ (head ++ (leBytes 8 off ++ leBytes 4 ks)))).length := by
      simp [h4]
    rw [hpre]
    exact readWord_eq (show b.data.toList =
      (pre ++ (leBytes 4 hash ++ (head ++ (leBytes 8 off ++ leBytes 4 ks)))) ++
        (leBytes 4 ds ++ post) by
        rw [h]; simp only [List.append_assoc]) hs.dataSize
  simp only [Slot.read, hhash, hhead, hoff, hks, hds]

theorem fits_vacant : vacant.Fits := ⟨by decide, rfl, by decide, by decide, by decide⟩

end Slot

theorem length_flatMap_bytes {l : List Slot} (h : ∀ s ∈ l, s.head.length = 4) :
    (l.flatMap Slot.bytes).length = 24 * l.length := by
  induction l with
  | nil => rfl
  | cons s l ih =>
    simp only [List.mem_cons, forall_eq_or_imp] at h
    simp only [List.flatMap_cons, List.length_append, Slot.length_bytes h.1, ih h.2,
      List.length_cons]
    omega

namespace Bucket

/-- The fields of a bucket fit their words, it has `elems` slots, and its count
is its number of occupied slots. -/
structure Fits (b : Bucket) (elems : Nat) : Prop where
  size : b.slots.size = elems
  depth : b.depth < 2 ^ 32
  count : b.count < 2 ^ 32
  occupied : b.occupiedCount = b.count
  slots : ∀ s ∈ b.slots, s.Fits

theorem toList_foldl_write (b : Bucket) (acc : ByteArray) :
    (b.slots.foldl Slot.write acc).data.toList =
      acc.data.toList ++ b.slots.toList.flatMap Slot.bytes := by
  rw [← Array.foldl_toList]
  generalize b.slots.toList = l
  induction l generalizing acc with
  | nil => simp
  | cons s l ih => simp [ih, Slot.toList_write, List.append_assoc]

/-- A bucket block: depth, count, the slots, then zero bytes. -/
theorem toList_encode {b : Bucket} {elems : Nat} (hb : b.Fits elems) {blockSize : Nat}
    (hbs : bucketHeaderSize + elems * slotBytes ≤ blockSize) :
    (b.encode blockSize).data.toList =
      leBytes 4 b.depth ++ leBytes 4 b.count ++ b.slots.toList.flatMap Slot.bytes ++
        List.replicate (blockSize - (8 + 24 * elems)) 0 := by
  have hlen : (b.slots.toList.flatMap Slot.bytes).length = 24 * elems := by
    rw [length_flatMap_bytes (fun s hs => (hb.slots s (by simpa using hs)).head)]
    simp [hb.size]
  have hcontent : (b.slots.foldl Slot.write
      (pushWord (pushWord ByteArray.empty 4 b.depth) 4 b.count)).data.toList =
      leBytes 4 b.depth ++ leBytes 4 b.count ++ b.slots.toList.flatMap Slot.bytes := by
    rw [toList_foldl_write, toList_pushWord, toList_pushWord]
    simp
  have hsize : (b.slots.foldl Slot.write
      (pushWord (pushWord ByteArray.empty 4 b.depth) 4 b.count)).size = 8 + 24 * elems := by
    rw [← ByteArray.size_data, ← Array.length_toList, hcontent]
    simp [hlen]
    omega
  simp only [bucketHeaderSize, slotBytes] at hbs
  unfold encode fitBytes
  split
  · rename_i hge
    have heq : blockSize = 8 + 24 * elems := by omega
    subst heq
    rw [ByteArray.data_extract, Array.toList_extract, List.extract, Nat.sub_zero, List.drop_zero,
      hcontent, List.take_of_length_le (by simp [hlen]; omega)]
    simp
  · rw [ByteArray.data_append, Array.toList_append, hcontent, hsize]
    simp

@[simp] theorem size_encode (b : Bucket) (blockSize : Nat) : (b.encode blockSize).size = blockSize :=
  size_fitBytes _ _

theorem occupiedCount_le (b : Bucket) : b.occupiedCount ≤ b.size := by
  unfold occupiedCount occupied
  exact Nat.le_trans (List.length_filter_le _ _) (by simp)

/-- A bucket whose fields fit decodes from its block to itself. -/
theorem decode_encode {b : Bucket} {elems : Nat} (hb : b.Fits elems) {blockSize : Nat}
    (hbs : bucketHeaderSize + elems * slotBytes ≤ blockSize) :
    decode (b.encode blockSize) elems = .ok b := by
  have henc := toList_encode hb hbs
  simp only [List.append_assoc] at henc
  have hheads : ∀ s ∈ b.slots.toList, s.head.length = 4 :=
    fun s hs => (hb.slots s (by simpa using hs)).head
  have hsize : (b.encode blockSize).size = blockSize := by
    rw [← ByteArray.size_data, ← Array.length_toList, henc]
    simp only [List.length_append, length_leBytes, List.length_replicate,
      length_flatMap_bytes hheads, Array.length_toList, hb.size]
    simp only [bucketHeaderSize, slotBytes] at hbs
    omega
  have hdepth : readWord (b.encode blockSize) 0 4 = b.depth :=
    readWord_eq (show _ = [] ++ (leBytes 4 b.depth ++ _) from henc) hb.depth
  have hcount : readWord (b.encode blockSize) 4 4 = b.count := by
    have := readWord_eq (show _ = leBytes 4 b.depth ++ (leBytes 4 b.count ++ _) from henc) hb.count
    simpa only [length_leBytes] using this
  have hslot : ∀ i (hi : i < b.slots.size),
      Slot.read (b.encode blockSize) (bucketHeaderSize + i * slotBytes) = b.slots[i] := by
    intro i hi
    have hi' : i < b.slots.toList.length := by simp [hi]
    have hsplit : b.slots.toList =
        b.slots.toList.take i ++ (b.slots[i] :: b.slots.toList.drop (i + 1)) := by
      rw [← Array.getElem_toList hi', List.getElem_cons_drop, List.take_append_drop]
    have hpre : bucketHeaderSize + i * slotBytes = (leBytes 4 b.depth ++ (leBytes 4 b.count ++
        (b.slots.toList.take i).flatMap Slot.bytes)).length := by
      rw [List.length_append, List.length_append, length_flatMap_bytes
        (fun s hs => hheads s (List.mem_of_mem_take hs))]
      simp only [length_leBytes, List.length_take, Nat.min_eq_left (Nat.le_of_lt hi'),
        bucketHeaderSize, slotBytes]
      omega
    have hlist : (b.encode blockSize).data.toList = (leBytes 4 b.depth ++ (leBytes 4 b.count ++
        (b.slots.toList.take i).flatMap Slot.bytes)) ++ (b.slots[i].bytes ++
        ((b.slots.toList.drop (i + 1)).flatMap Slot.bytes ++
          List.replicate (blockSize - (8 + 24 * elems)) 0)) := by
      rw [henc]
      conv => lhs; rw [hsplit]
      simp only [List.flatMap_append, List.flatMap_cons, List.append_assoc]
    rw [hpre]
    exact Slot.read_of_toList (hb.slots _ (Array.getElem_mem _)) hlist
  have hslots : ((Array.range elems).map fun i =>
      Slot.read (b.encode blockSize) (bucketHeaderSize + i * slotBytes)) = b.slots := by
    apply Array.ext (by simp [hb.size])
    intro i h1 _
    simp only [Array.getElem_map, Array.getElem_range]
    exact hslot i (by simpa [hb.size] using h1)
  have hcount_le : ¬ elems < b.count := by
    have := occupiedCount_le b
    rw [hb.occupied] at this
    simp only [size, hb.size] at this
    omega
  unfold decode
  simp only [hsize, hcount, hdepth, hslots]
  rw [if_neg (by simp only [bucketHeaderSize, slotBytes] at hbs ⊢; omega), if_neg hcount_le]
  simp [hb.occupied]

end Bucket

namespace Directory

theorem toList_foldl_pushWord (l : List Nat) (acc : ByteArray) :
    (l.foldl (fun b e => pushWord b 8 e) acc).data.toList = acc.data.toList ++ l.flatMap (leBytes 8) := by
  induction l generalizing acc with
  | nil => simp
  | cons e l ih => simp [ih, toList_pushWord, List.append_assoc]

/-- The bytes of a directory: its entries as 8-byte words. -/
theorem toList_encode (d : Directory) :
    d.encode.data.toList = d.entries.toList.flatMap (leBytes 8) := by
  unfold encode
  rw [← Array.foldl_toList, toList_foldl_pushWord]
  rfl

@[simp] theorem size_encode (d : Directory) : d.encode.size = 8 * d.entries.size := by
  rw [← ByteArray.size_data, ← Array.length_toList, toList_encode, List.length_flatMap]
  simp only [length_leBytes, List.map_const', List.sum_replicate_nat, Array.length_toList]
  omega

/-- A directory of `2 ^ bits` entries that fit their words reads back from its
bytes, as written. -/
theorem decode_encode {d : Directory} (hsize : d.entries.size = 2 ^ d.bits)
    (hfit : ∀ e ∈ d.entries, e < 2 ^ 64) :
    decode d.encode d.bits d.offset = { d with dirty := false } := by
  unfold decode
  have hlen : min (2 ^ d.bits) (d.encode.size / 8) = d.entries.size := by
    rw [size_encode, hsize]
    simp
  simp only [Nat.pow_eq, hlen]
  congr 1
  apply Array.ext (by simp)
  intro i h1 h2
  simp only [Array.getElem_map, Array.getElem_range]
  simp only [Array.size_map, Array.size_range] at h1
  have hsplit : d.entries.toList = d.entries.toList.take i ++
      (d.entries[i] :: d.entries.toList.drop (i + 1)) := by
    rw [← Array.getElem_toList (by simpa using h1), List.getElem_cons_drop, List.take_append_drop]
  have hpre : 8 * i = ((d.entries.toList.take i).flatMap (leBytes 8)).length := by
    rw [List.length_flatMap]
    simp only [length_leBytes, List.map_const', List.sum_replicate_nat, List.length_take,
      Array.length_toList, Nat.min_eq_left (Nat.le_of_lt h1)]
    omega
  have hlist : d.encode.data.toList = (d.entries.toList.take i).flatMap (leBytes 8) ++
      (leBytes 8 d.entries[i] ++ (d.entries.toList.drop (i + 1)).flatMap (leBytes 8)) := by
    rw [toList_encode]
    conv => lhs; rw [hsplit]
    simp only [List.flatMap_append, List.flatMap_cons]
  rw [hpre]
  exact readWord_eq hlist (hfit _ (Array.getElem_mem _))

end Directory

namespace Header

/-- An encoded header fills its block. -/
theorem size_of_encode {h : Header} {block : ByteArray} (he : h.encode = .ok block) :
    block.size = h.blockSize := by
  unfold encode at he
  simp only at he
  split at he
  · cases he
  · cases he
    exact size_fitBytes _ _

/-- A header's payload: the fixed fields, then sixteen bytes for each free region. -/
theorem size_payload (h : Header) :
    h.payload.size = headerFixedSize + regionSize * h.avail.regions.length := by
  have hfold : ∀ (rs : List Region) (acc : ByteArray),
      (rs.foldl (fun b r => pushWord (pushWord b 8 r.offset) 8 r.size) acc).size =
        acc.size + regionSize * rs.length := by
    intro rs
    induction rs with
    | nil => intro acc; simp
    | cons r rs ih =>
      intro acc
      rw [List.foldl_cons, ih, size_pushWord, size_pushWord, List.length_cons]
      unfold regionSize
      omega
  unfold payload
  rw [hfold]
  simp [size_pushWord, headerFixedSize]

/-- A header whose free list fits its block encodes. -/
theorem encode_ok {h : Header}
    (hfit : headerPrefixSize + headerFixedSize + regionSize * h.avail.regions.length ≤ h.blockSize) :
    ∃ block, h.encode = .ok block := by
  unfold encode
  rw [if_neg (by rw [size_payload]; omega)]
  exact ⟨_, rfl⟩

end Header

end HashFile
