import HashFile.Proofs.Allocation
import HashFile.Proofs.DirectoryRuns
import HashFile.Proofs.ShiftBack
import HashFile.Proofs.Codec
import HashFile.Proofs.FileBytes
import HashFile.Index.Basic

/-!
# The image of an index

What an open index holds, as a lookup sees it: the header and the directory
kept in memory, the bucket at every offset (the cached one, else the one its
block decodes to) and the bytes of the file. From the image follow the
records (the occupied slots of the buckets the directory names), the map from
keys to values they hold (`lookup`), and the regions of the file in use
(`used`): the header block, the directory, every bucket block and every
record of positive size.

`Shaped` is the shape of an extendible hash table: the directory holds each
bucket on an aligned run of its entries, the buckets are well formed and full
of entries whose hashes select them, and no key is stored twice. `Agree` says
that two images have the same header and directory, the same buckets where the
directory points and the same record bytes; such images hold the same records
and use the same regions, so most steps of an index action are checked against
it instead of being followed byte by byte.
-/
namespace HashFile

/-- Byte strings compare as their bytes. -/
theorem bytes_beq_iff (a b : Bytes) : (a == b) = true ↔ a = b := by
  cases a with
  | mk a =>
    cases b with
    | mk b =>
      show (a.isEqv b fun x y => decide (x = y)) = true ↔ _
      rw [Array.isEqv_iff_rel]
      constructor
      · rintro ⟨hs, h⟩
        congr 1
        exact Array.ext hs fun i h1 _ => by simpa using h i h1
      · rintro h
        cases h
        exact ⟨rfl, fun i _ => by simp⟩

/-- `find?` only reads its predicate on the members of the list. -/
theorem find?_congr_of_mem {α : Type} {p q : α → Bool} :
    ∀ {l : List α}, (∀ x ∈ l, p x = q x) → l.find? p = l.find? q
  | [], _ => rfl
  | x :: l, h => by
    simp only [List.find?_cons, h x List.mem_cons_self,
      find?_congr_of_mem fun y hy => h y (List.mem_cons_of_mem _ hy)]

/-- An index as lookups see it. -/
structure Image where
  header : Header
  dir : Directory
  bucket : Nat → Bucket
  byte : Nat → UInt8

/-- Where a record lies: its key, then its value. -/
def Slot.region (e : Slot) : Region := ⟨e.dataOffset, e.recordSize⟩

namespace Image

variable (I : Image)

/-- The buckets the directory names, each once. -/
def live : List Nat := I.dir.entries.toList.dedup

/-- The occupied slots of the buckets the directory names. -/
def slots : List Slot := I.live.flatMap fun o => (I.bucket o).entries

/-- The key of the record a slot points at. -/
def keyOf (e : Slot) : Bytes := SparseBytes.window I.byte e.dataOffset e.keySize

/-- The value of the record a slot points at. -/
def valueOf (e : Slot) : Bytes := SparseBytes.window I.byte (e.dataOffset + e.keySize) e.dataSize

/-- The stored keys. -/
def keys : List Bytes := I.slots.map I.keyOf

/-- The value stored under a key. -/
def lookup (k : Bytes) : Option Bytes :=
  (I.slots.find? fun e => decide (I.keyOf e = k)).map I.valueOf

/-- The block of the bucket at an offset. -/
def block (o : Nat) : Region := ⟨o, I.header.blockSize⟩

/-- The regions of the records of positive size. -/
def records : List Region := (I.slots.filter fun e => 0 < e.recordSize).map Slot.region

/-- The regions in use: the header block, the directory, the bucket blocks and
the records. -/
def used : List Region :=
  ⟨0, I.header.blockSize⟩ :: ⟨I.dir.offset, Directory.byteSize I.dir.bits⟩ ::
    (I.live.map I.block ++ I.records)

/-- The shape of an extendible hash table. -/
structure Shaped : Prop where
  bits_le : I.dir.bits ≤ hashBits
  aligned : I.dir.Aligned fun o => (I.bucket o).depth
  dirBits_eq : I.header.dirBits = I.dir.bits
  dirOffset_eq : I.header.dirOffset = I.dir.offset
  wf : ∀ o ∈ I.live, (I.bucket o).WF
  fits : ∀ o ∈ I.live, (I.bucket o).Fits I.header.bucketElems
  hash_eq : ∀ o ∈ I.live, ∀ e ∈ (I.bucket o).entries, e.hash = Key.hash (I.keyOf e)
  head_eq : ∀ o ∈ I.live, ∀ e ∈ (I.bucket o).entries, e.head = Key.head (I.keyOf e)
  home : ∀ o ∈ I.live, ∀ e ∈ (I.bucket o).entries,
    I.dir.entryAt (dirIndex e.hash I.dir.bits) = o
  keys_nodup : I.keys.Nodup

variable {I}

theorem mem_live {o : Nat} : o ∈ I.live ↔ o ∈ I.dir.entries.toList := List.mem_dedup

theorem nodup_live : I.live.Nodup := List.nodup_dedup _

theorem entryAt_mem_live {i : Nat} (hi : i < I.dir.size) : I.dir.entryAt i ∈ I.live := by
  rw [mem_live, Array.mem_toList_iff]
  simp only [Directory.entryAt, Array.getD_eq_getD_getElem?]
  rw [Array.getElem?_eq_getElem hi]
  exact Array.getElem_mem hi

theorem exists_entryAt_of_mem_live {o : Nat} (ho : o ∈ I.live) :
    ∃ i < I.dir.size, I.dir.entryAt i = o := by
  rw [mem_live, Array.mem_toList_iff] at ho
  obtain ⟨i, hi, rfl⟩ := Array.mem_iff_getElem.1 ho
  refine ⟨i, hi, ?_⟩
  simp only [Directory.entryAt, Array.getD_eq_getD_getElem?]
  rw [Array.getElem?_eq_getElem hi]
  rfl

theorem mem_slots {e : Slot} : e ∈ I.slots ↔ ∃ o ∈ I.live, e ∈ (I.bucket o).entries := by
  simp [slots]

/-- A record's key and value are read from its bytes alone. -/
theorem keyOf_congr {J : Image} {e : Slot}
    (h : ∀ i, e.dataOffset ≤ i → i < e.dataOffset + e.recordSize → J.byte i = I.byte i) :
    J.keyOf e = I.keyOf e :=
  SparseBytes.window_congr fun i h1 h2 => h i h1 (by simp only [Slot.recordSize]; omega)

theorem valueOf_congr {J : Image} {e : Slot}
    (h : ∀ i, e.dataOffset ≤ i → i < e.dataOffset + e.recordSize → J.byte i = I.byte i) :
    J.valueOf e = I.valueOf e :=
  SparseBytes.window_congr fun i h1 h2 => h i (by omega) (by simp only [Slot.recordSize]; omega)

/-- A slot is the only one holding its key. -/
theorem eq_of_keyOf_eq (hk : I.keys.Nodup) {e e' : Slot} (he : e ∈ I.slots) (he' : e' ∈ I.slots)
    (h : I.keyOf e = I.keyOf e') : e = e' :=
  List.inj_on_of_nodup_map hk he he' h

/-- The value stored under the key of a record is that record's value. -/
theorem lookup_keyOf (hk : I.keys.Nodup) {e : Slot} (he : e ∈ I.slots) :
    I.lookup (I.keyOf e) = some (I.valueOf e) := by
  unfold lookup
  have hsome : (I.slots.find? fun x => decide (I.keyOf x = I.keyOf e)).isSome := by
    rw [List.find?_isSome]
    exact ⟨e, he, by simp⟩
  obtain ⟨x, hx⟩ := Option.isSome_iff_exists.1 hsome
  have hxe : I.keyOf x = I.keyOf e := by simpa using List.find?_some hx
  rw [hx, eq_of_keyOf_eq hk (List.mem_of_find?_eq_some hx) he hxe]
  rfl

/-- A key no record holds has no value. -/
theorem lookup_eq_none {k : Bytes} (hk : k ∉ I.keys) : I.lookup k = none := by
  unfold lookup
  rw [List.find?_eq_none.2]
  · rfl
  · intro x hx h
    exact hk (List.mem_map.2 ⟨x, hx, by simpa using h⟩)

theorem lookup_eq_some_iff (hk : I.keys.Nodup) {k v : Bytes} :
    I.lookup k = some v ↔ ∃ e ∈ I.slots, I.keyOf e = k ∧ I.valueOf e = v := by
  constructor
  · intro h
    by_cases hmem : k ∈ I.keys
    · obtain ⟨e, he, rfl⟩ := List.mem_map.1 hmem
      rw [lookup_keyOf hk he] at h
      exact ⟨e, he, rfl, Option.some.inj h⟩
    · rw [lookup_eq_none hmem] at h
      cases h
  · rintro ⟨e, he, rfl, rfl⟩
    exact lookup_keyOf hk he

/-! ## Agreement -/

/-- Two images with the same block size, directory and bucket shape, the same
buckets where the directory points and the same bytes on every record of the
first. Their allocation states may differ. -/
structure Agree (I J : Image) : Prop where
  blockSize : J.header.blockSize = I.header.blockSize
  dirOffset : J.header.dirOffset = I.header.dirOffset
  dirBits : J.header.dirBits = I.header.dirBits
  bucketElems : J.header.bucketElems = I.header.bucketElems
  bits : J.dir.bits = I.dir.bits
  entries : J.dir.entries = I.dir.entries
  offset : J.dir.offset = I.dir.offset
  bucket : ∀ o ∈ I.live, J.bucket o = I.bucket o
  byte : ∀ e ∈ I.slots, ∀ i, e.dataOffset ≤ i → i < e.dataOffset + e.recordSize →
    J.byte i = I.byte i

namespace Agree

variable {J K : Image}

theorem refl (I : Image) : Agree I I :=
  ⟨rfl, rfl, rfl, rfl, rfl, rfl, rfl, fun _ _ => rfl, fun _ _ _ _ _ => rfl⟩

theorem live (h : Agree I J) : J.live = I.live := by
  simp only [Image.live, h.entries]

theorem slots (h : Agree I J) : J.slots = I.slots := by
  simp only [Image.slots, h.live]
  exact List.flatMap_congr fun o ho => by rw [h.bucket o ho]

theorem keyOf (h : Agree I J) {e : Slot} (he : e ∈ I.slots) : J.keyOf e = I.keyOf e :=
  SparseBytes.window_congr fun i h1 h2 => h.byte e he i h1 (by simp only [Slot.recordSize]; omega)

theorem valueOf (h : Agree I J) {e : Slot} (he : e ∈ I.slots) : J.valueOf e = I.valueOf e :=
  SparseBytes.window_congr fun i h1 h2 => h.byte e he i (by omega)
    (by simp only [Slot.recordSize]; omega)

theorem keys (h : Agree I J) : J.keys = I.keys := by
  simp only [Image.keys, h.slots]
  exact List.map_congr_left fun e he => h.keyOf he

theorem lookup (h : Agree I J) (k : Bytes) : J.lookup k = I.lookup k := by
  unfold Image.lookup
  rw [h.slots]
  have hf : (I.slots.find? fun e => decide (J.keyOf e = k)) =
      I.slots.find? fun e => decide (I.keyOf e = k) :=
    find?_congr_of_mem fun e he => by rw [h.keyOf he]
  rw [hf]
  cases hx : I.slots.find? fun e => decide (I.keyOf e = k) with
  | none => rfl
  | some e => simp only [Option.map_some, h.valueOf (List.mem_of_find?_eq_some hx)]

theorem used (h : Agree I J) : J.used = I.used := by
  have hb : J.block = I.block := by funext o; simp only [Image.block, h.blockSize]
  simp only [Image.used, Image.records, hb, h.live, h.slots, h.blockSize, h.bits, h.offset]

theorem trans (h1 : Agree I J) (h2 : Agree J K) : Agree I K := by
  refine ⟨h2.blockSize.trans h1.blockSize, h2.dirOffset.trans h1.dirOffset,
    h2.dirBits.trans h1.dirBits, h2.bucketElems.trans h1.bucketElems, h2.bits.trans h1.bits, h2.entries.trans h1.entries,
    h2.offset.trans h1.offset, fun o ho => ?_, fun e he i hi1 hi2 => ?_⟩
  · rw [h2.bucket o (h1.live ▸ ho), h1.bucket o ho]
  · rw [h2.byte e (h1.slots ▸ he) i hi1 hi2, h1.byte e he i hi1 hi2]

theorem symm (h : Agree I J) : Agree J I := by
  refine ⟨h.blockSize.symm, h.dirOffset.symm, h.dirBits.symm, h.bucketElems.symm, h.bits.symm, h.entries.symm, h.offset.symm, fun o ho => ?_,
    fun e he i hi1 hi2 => ?_⟩
  · exact (h.bucket o (h.live ▸ ho)).symm
  · exact (h.byte e (h.slots ▸ he) i hi1 hi2).symm

theorem size (h : Agree I J) : J.dir.size = I.dir.size := by
  simp only [Directory.size, h.entries]

theorem entryAt (h : Agree I J) (i : Nat) : J.dir.entryAt i = I.dir.entryAt i := by
  simp only [Directory.entryAt, h.entries]

theorem aligned (h : Agree I J) (ha : I.dir.Aligned fun o => (I.bucket o).depth) :
    J.dir.Aligned fun o => (J.bucket o).depth := by
  have hd : ∀ i < I.dir.size, (J.bucket (I.dir.entryAt i)).depth = (I.bucket (I.dir.entryAt i)).depth :=
    fun i hi => by rw [h.bucket _ (entryAt_mem_live hi)]
  refine ⟨by rw [h.size, h.bits, ha.size_eq], fun i hi => ?_, fun i hi j hj => ?_⟩
  · rw [h.size] at hi
    rw [h.entryAt, h.bits, hd i hi]
    exact ha.depth_le i hi
  · rw [h.size] at hi hj
    simp only [h.entryAt, h.bits]
    rw [hd i hi]
    exact ha.runs i hi j hj

theorem shaped (h : Agree I J) (hs : I.Shaped) : J.Shaped := by
  have hlive := h.live
  refine ⟨h.bits ▸ hs.bits_le, h.aligned hs.aligned, by rw [h.dirBits, h.bits, hs.dirBits_eq],
    by rw [h.dirOffset, h.offset, hs.dirOffset_eq], ?_, ?_, ?_, ?_, ?_, by rw [h.keys]; exact hs.keys_nodup⟩
  · intro o ho
    rw [hlive] at ho
    rw [h.bucket o ho]
    exact hs.wf o ho
  · intro o ho
    rw [hlive] at ho
    rw [h.bucket o ho, h.bucketElems]
    exact hs.fits o ho
  · intro o ho e he
    rw [hlive] at ho
    rw [h.bucket o ho] at he
    rw [h.keyOf (mem_slots.2 ⟨o, ho, he⟩)]
    exact hs.hash_eq o ho e he
  · intro o ho e he
    rw [hlive] at ho
    rw [h.bucket o ho] at he
    rw [h.keyOf (mem_slots.2 ⟨o, ho, he⟩)]
    exact hs.head_eq o ho e he
  · intro o ho e he
    rw [hlive] at ho
    rw [h.bucket o ho] at he
    rw [h.entryAt, h.bits]
    exact hs.home o ho e he

end Agree

/-! ## Holding the same records -/

/-- Two images that hold the same records: the same slots, in any order, and
the same bytes in each. Their directories, buckets and allocation states may
differ. -/
structure Same (I J : Image) : Prop where
  slots : J.slots.Perm I.slots
  byte : ∀ e ∈ I.slots, ∀ i, e.dataOffset ≤ i → i < e.dataOffset + e.recordSize →
    J.byte i = I.byte i

namespace Same

variable {J K : Image}

theorem refl (I : Image) : Same I I := ⟨List.Perm.refl _, fun _ _ _ _ _ => rfl⟩

theorem trans (h1 : Same I J) (h2 : Same J K) : Same I K :=
  ⟨h2.slots.trans h1.slots, fun e he i hi1 hi2 => by
    rw [h2.byte e (h1.slots.symm.subset he) i hi1 hi2, h1.byte e he i hi1 hi2]⟩

theorem keyOf (h : Same I J) {e : Slot} (he : e ∈ I.slots) : J.keyOf e = I.keyOf e :=
  SparseBytes.window_congr fun i h1 h2 => h.byte e he i h1 (by simp only [Slot.recordSize]; omega)

theorem valueOf (h : Same I J) {e : Slot} (he : e ∈ I.slots) : J.valueOf e = I.valueOf e :=
  SparseBytes.window_congr fun i h1 h2 => h.byte e he i (by omega)
    (by simp only [Slot.recordSize]; omega)

theorem keys (h : Same I J) : J.keys.Perm I.keys := by
  unfold Image.keys
  have hmap : I.slots.map J.keyOf = I.slots.map I.keyOf := List.map_congr_left fun e he => h.keyOf he
  exact hmap ▸ h.slots.map J.keyOf

theorem keys_nodup (h : Same I J) (hk : I.keys.Nodup) : J.keys.Nodup := h.keys.nodup_iff.2 hk

/-- Images holding the same records answer every lookup alike. -/
theorem lookup (h : Same I J) (hk : I.keys.Nodup) (k : Bytes) : J.lookup k = I.lookup k := by
  apply Option.ext
  intro x
  rw [lookup_eq_some_iff (h.keys_nodup hk), lookup_eq_some_iff hk]
  constructor
  · rintro ⟨e, he, hke, hve⟩
    have he' := h.slots.subset he
    exact ⟨e, he', by rw [← h.keyOf he']; exact hke, by rw [← h.valueOf he']; exact hve⟩
  · rintro ⟨e, he, hke, hve⟩
    exact ⟨e, h.slots.symm.subset he, by rw [h.keyOf he]; exact hke, by rw [h.valueOf he]; exact hve⟩

theorem records (h : Same I J) : J.records.Perm I.records := (h.slots.filter _).map _

end Same

theorem Agree.same {J : Image} (h : Agree I J) : Same I J := ⟨by rw [h.slots], h.byte⟩

end Image

/-! ## The image of an open index -/

namespace Index

/-- The bytes of the index's file. -/
def disk (v : Volume) (ix : Index) : SparseBytes := v.data ix.file.handle.ino

/-- The bucket the block at an offset decodes to. -/
def storedBucket (v : Volume) (ix : Index) (o : Nat) : Bucket :=
  match Bucket.decode (SparseBytes.window (disk v ix).byteAt o ix.file.header.blockSize)
      ix.file.header.bucketElems with
  | .ok b => b
  | .error _ => default

/-- The bucket at an offset: the cached one, else the stored one. -/
def bucketAt (v : Volume) (ix : Index) (o : Nat) : Bucket :=
  (ix.cache.find? o).getD (storedBucket v ix o)

/-- The image of an open index. -/
def image (v : Volume) (ix : Index) : Image :=
  ⟨ix.file.header, ix.dir, bucketAt v ix, (disk v ix).byteAt⟩

end Index

end HashFile
