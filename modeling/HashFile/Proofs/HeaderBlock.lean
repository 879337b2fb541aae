import HashFile.Proofs.Flush

/-!
# The header block read back

A header block is the payload length and its CRC-32, the payload, and zero
bytes up to the block size. The payload is the fixed fields followed by the
free regions, sixteen bytes each (`Header.toList_payload`), so the block is
exactly those words laid end to end (`Header.toList_encode`).

Reading the block back finds each word where it was written. Every check of
`Header.decode` passes on it: the length is the payload's, the payload is in
the block and the file, its checksum is the one written, magic, version and
block size are those of the format. The free list is rebuilt by sorting and
keeping the largest regions that fit; a list that is already sorted and within
its capacity comes out unchanged. So a header whose fields fit their words,
whose block size is valid and whose free list is sorted and within capacity
reads back as itself from any file at least one block long
(`Header.decode_encode`).

Whether a header can be written depends only on how many free regions it
lists: the block must hold the prefix, the fixed fields and sixteen bytes per
region (`Header.encode_error_iff`).
-/
namespace HashFile

/-- A word is read back wherever the bytes from its position on begin with it. -/
theorem readWord_of_drop {b : ByteArray} {pos w n : Nat} {post : List UInt8}
    (h : b.data.toList.drop pos = leBytes w n ++ post) : readWord b pos w = n % 256 ^ w := by
  cases w with
  | zero => simp [readWord, Nat.mod_one]
  | succ w =>
    have hpos : pos < b.data.toList.length := by
      refine Nat.lt_of_not_le fun hle => ?_
      rw [List.drop_eq_nil_of_le hle] at h
      simp at h
    have hsplit : b.data.toList = b.data.toList.take pos ++ (leBytes (w + 1) n ++ post) := by
      rw [← h, List.take_append_drop]
    have := readWord_of_toList hsplit
    rwa [List.length_take, Nat.min_eq_left (Nat.le_of_lt hpos)] at this

/-- A block shorter than its size is padded with zero bytes. -/
theorem toList_fitBytes_of_le {b : ByteArray} {n : Nat} (h : b.size ≤ n) :
    (fitBytes b n).data.toList = b.data.toList ++ List.replicate (n - b.size) 0 := by
  unfold fitBytes
  split
  · rename_i hge
    have heq : b.size = n := Nat.le_antisymm h hge
    subst heq
    rw [ByteArray.data_extract, Array.toList_extract, List.extract, Nat.sub_zero, List.drop_zero,
      Nat.sub_self, List.replicate_zero, List.append_nil]
    exact List.take_of_length_le (by simp)
  · rw [ByteArray.data_append, Array.toList_append]
    simp

namespace Region

/-- The sixteen bytes of a free region in a header payload. -/
def bytes (r : Region) : List UInt8 := leBytes 8 r.offset ++ leBytes 8 r.size

/-- Both words of a region fit their eight bytes. -/
def Fits (r : Region) : Prop := r.offset < 2 ^ 64 ∧ r.size < 2 ^ 64

theorem length_bytes (r : Region) : r.bytes.length = 16 := by simp [bytes]

theorem offset_lt {r : Region} (h : r.Fits) : r.offset < 256 ^ 8 := lt_of_lt_of_eq h.1 (by norm_num)

theorem size_lt {r : Region} (h : r.Fits) : r.size < 256 ^ 8 := lt_of_lt_of_eq h.2 (by norm_num)

end Region

theorem drop_leBytes_append (w n : Nat) (l : List UInt8) : (leBytes w n ++ l).drop w = l :=
  List.drop_left' (length_leBytes w n)

/-- Past a word that the bytes from `k` on begin with come the bytes after it. -/
theorem drop_add_of_drop {l : List UInt8} {k w n : Nat} {rest : List UInt8}
    (h : l.drop k = leBytes w n ++ rest) : l.drop (k + w) = rest := by
  rw [← List.drop_drop, h, drop_leBytes_append]

theorem toList_foldl_region (rs : List Region) (acc : ByteArray) :
    (rs.foldl (fun b r => pushWord (pushWord b 8 r.offset) 8 r.size) acc).data.toList =
      acc.data.toList ++ rs.flatMap Region.bytes := by
  induction rs generalizing acc with
  | nil => simp
  | cons r rs ih =>
    simp [ih, toList_pushWord, Region.bytes, List.append_assoc]

namespace Header

/-- The regions listed from a position of a payload are read back from their
bytes there. -/
theorem regionsAt_of_drop {p : ByteArray} :
    ∀ {rs : List Region} {pos : Nat} {post : List UInt8}, (∀ r ∈ rs, r.Fits) →
      p.data.toList.drop pos = rs.flatMap Region.bytes ++ post → regionsAt p rs.length pos = rs
  | [], _, _, _, _ => rfl
  | r :: rs, pos, post, hfit, h => by
    have hr : r.Fits := hfit r List.mem_cons_self
    rw [List.flatMap_cons, Region.bytes, List.append_assoc, List.append_assoc] at h
    have hoff : readWord p pos 8 = r.offset := by
      rw [readWord_of_drop h, Nat.mod_eq_of_lt (Region.offset_lt hr)]
    have hsize : readWord p (pos + 8) 8 = r.size := by
      have h8 : p.data.toList.drop (pos + 8) =
          leBytes 8 r.size ++ (rs.flatMap Region.bytes ++ post) := by
        rw [← List.drop_drop, h, drop_leBytes_append]
      rw [readWord_of_drop h8, Nat.mod_eq_of_lt (Region.size_lt hr)]
    have hrest : p.data.toList.drop (pos + 16) = rs.flatMap Region.bytes ++ post := by
      rw [show pos + 16 = pos + 8 + 8 from rfl, ← List.drop_drop, ← List.drop_drop, h,
        drop_leBytes_append, drop_leBytes_append]
    rw [List.length_cons, regionsAt, hoff, hsize, regionsAt_of_drop (fun x hx => hfit x
      (List.mem_cons_of_mem _ hx)) hrest]

/-- The words of a header payload, in order: magic, version, block size,
directory offset and depth, slots per bucket, frontier, the number of free
regions, and the regions. -/
theorem toList_payload (h : Header) :
    h.payload.data.toList =
      leBytes 4 headerMagic ++ (leBytes 2 formatVersion ++ (leBytes 4 h.blockSize ++
        (leBytes 8 h.dirOffset ++ (leBytes 4 h.dirBits ++ (leBytes 4 h.bucketElems ++
          (leBytes 8 h.nextBlock ++ (leBytes 8 h.avail.regions.length ++
            h.avail.regions.flatMap Region.bytes))))))) := by
  unfold payload
  simp [toList_foldl_region, toList_pushWord]

/-- The fields of a header fit the words they are written in. -/
structure Fits (h : Header) : Prop where
  dirOffset : h.dirOffset < 2 ^ 64
  dirBits : h.dirBits < 2 ^ 32
  bucketElems : h.bucketElems < 2 ^ 32
  nextBlock : h.nextBlock < 2 ^ 64
  regions : ∀ r ∈ h.avail.regions, r.Fits

/-- A header that fits its block is written as the payload's length and
checksum, the payload, and zero bytes. -/
theorem toList_encode {h : Header}
    (hfit : headerPrefixSize + h.payload.size ≤ h.blockSize) :
    h.encode = .ok (fitBytes (pushWord (pushWord ByteArray.empty 4 h.payload.size) 4
        (crc32 h.payload).toNat ++ h.payload) h.blockSize) ∧
      (fitBytes (pushWord (pushWord ByteArray.empty 4 h.payload.size) 4
        (crc32 h.payload).toNat ++ h.payload) h.blockSize).data.toList =
        leBytes 4 h.payload.size ++ (leBytes 4 (crc32 h.payload).toNat ++
          (h.payload.data.toList ++ List.replicate (h.blockSize - (8 + h.payload.size)) 0)) := by
  have hpre : (pushWord (pushWord ByteArray.empty 4 h.payload.size) 4
      (crc32 h.payload).toNat ++ h.payload).size = 8 + h.payload.size := by
    rw [ByteArray.size_append, size_pushWord, size_pushWord]
    rfl
  refine ⟨by unfold encode; rw [if_neg (Nat.not_lt_of_le hfit)], ?_⟩
  rw [toList_fitBytes_of_le (by rw [hpre]; exact hfit), hpre, ByteArray.data_append,
    Array.toList_append, toList_pushWord, toList_pushWord]
  simp

/-- Rebuilding a sorted free list within its capacity keeps it as it is. -/
theorem ofList_of_sorted {f : FreeList}
    (hsorted : f.regions.Pairwise fun a b => a.precedes b = true)
    (hlen : f.regions.length ≤ f.capacity) : FreeList.ofList f.regions f.capacity = f := by
  simp only [FreeList.ofList, List.mergeSort_of_pairwise hsorted, Nat.sub_eq_zero_of_le hlen,
    List.drop_zero]

/-- The words of a payload are read back where they were written. -/
theorem readWord_payload {h : Header} (hfit : h.Fits) (hbs : h.blockSize < 2 ^ 32)
    (hn : h.avail.regions.length < 2 ^ 64) :
    readWord h.payload 0 4 = headerMagic ∧ readWord h.payload 4 2 = formatVersion ∧
      readWord h.payload 6 4 = h.blockSize ∧ readWord h.payload 10 8 = h.dirOffset ∧
      readWord h.payload 18 4 = h.dirBits ∧ readWord h.payload 22 4 = h.bucketElems ∧
      readWord h.payload 26 8 = h.nextBlock ∧
      readWord h.payload 34 8 = h.avail.regions.length ∧
      regionsAt h.payload h.avail.regions.length headerFixedSize = h.avail.regions := by
  have d0 := (List.drop_zero (l := h.payload.data.toList)).trans (toList_payload h)
  have d4 := drop_add_of_drop d0
  have d6 := drop_add_of_drop d4
  have d10 := drop_add_of_drop d6
  have d18 := drop_add_of_drop d10
  have d22 := drop_add_of_drop d18
  have d26 := drop_add_of_drop d22
  have d34 := drop_add_of_drop d26
  have d42 := drop_add_of_drop d34
  have at_ : ∀ {pos w n : Nat} {post : List UInt8}, n < 256 ^ w →
      h.payload.data.toList.drop pos = leBytes w n ++ post → readWord h.payload pos w = n :=
    fun hn hd => by rw [readWord_of_drop hd, Nat.mod_eq_of_lt hn]
  exact ⟨at_ (by decide) d0, at_ (by decide) d4, at_ (by simpa using hbs) d6,
    at_ (by simpa using hfit.dirOffset) d10, at_ (by simpa using hfit.dirBits) d18,
    at_ (by simpa using hfit.bucketElems) d22, at_ (by simpa using hfit.nextBlock) d26,
    at_ (by simpa using hn) d34, regionsAt_of_drop hfit.regions (d42.trans
      (List.append_nil _).symm)⟩

/-- A header whose fields fit their words, whose block size is valid and whose
free list is sorted and within its capacity is written to a block of exactly
its size, and that block reads back as the same header from any file at least
one block long. -/
theorem decode_encode {h : Header} (hbs : validBlockSize h.blockSize = true)
    (hcap : h.avail.capacity = availCapacity h.blockSize)
    (hsorted : h.avail.regions.Pairwise fun a b => a.precedes b = true)
    (hlen : h.avail.regions.length ≤ availCapacity h.blockSize) (hfit : h.Fits) :
    ∃ block, h.encode = .ok block ∧ block.size = h.blockSize ∧
      ∀ fileLen, h.blockSize ≤ fileLen → decode block fileLen = .ok h := by
  have hb := validBlockSize_bounds hbs
  have hpsize := size_payload h
  have hwords := Index.header_fits hbs hlen
  have hroom : headerPrefixSize + h.payload.size ≤ h.blockSize := by
    rw [hpsize, ← Nat.add_assoc]
    exact hwords
  obtain ⟨henc, hbytes⟩ := toList_encode hroom
  set block := fitBytes (pushWord (pushWord ByteArray.empty 4 h.payload.size) 4
    (crc32 h.payload).toNat ++ h.payload) h.blockSize
  refine ⟨_, henc, size_fitBytes _ _, fun fileLen hfl => ?_⟩
  have hlenw : readWord block 0 4 = h.payload.size := by
    rw [readWord_of_drop ((List.drop_zero).trans hbytes), Nat.mod_eq_of_lt]
    unfold headerPrefixSize at hroom
    have : h.blockSize < 256 ^ 4 := by norm_num; omega
    omega
  have hcrcw : readWord block 4 4 = (crc32 h.payload).toNat := by
    rw [readWord_of_drop (drop_add_of_drop ((List.drop_zero).trans hbytes)), Nat.mod_eq_of_lt]
    simpa using UInt32.toNat_lt (crc32 h.payload)
  have hslice : sliceBytes block headerPrefixSize h.payload.size = h.payload := by
    refine ByteArray.ext (Array.ext' ?_)
    rw [toList_sliceBytes, show headerPrefixSize = 0 + 4 + 4 from rfl,
      drop_add_of_drop (drop_add_of_drop ((List.drop_zero).trans hbytes))]
    simp
  obtain ⟨hm, hv, hbsw, hdo, hdb, hbe, hnb, hcount, hregions⟩ := readWord_payload hfit
    (by omega) (by
    unfold headerPrefixSize headerFixedSize regionSize at hwords
    omega)
  have hsize : block.size = h.blockSize := size_fitBytes _ _
  have c1 : ¬ h.blockSize < headerPrefixSize := by unfold headerPrefixSize; omega
  have c2 : ¬ (h.payload.size < headerFixedSize ∨ fileLen < headerPrefixSize + h.payload.size) := by
    rw [hpsize] at hroom ⊢
    omega
  have c3 : ¬ h.payload.size < headerFixedSize + regionSize * h.avail.regions.length := by
    rw [hpsize]
    exact Nat.lt_irrefl _
  have hfree : FreeList.ofList h.avail.regions (availCapacity h.blockSize) = h.avail := by
    rw [← hcap]
    exact ofList_of_sorted hsorted (hcap ▸ hlen)
  unfold decode
  simp only [hsize, hlenw, hcrcw, hslice, hcount, hm, hv, hbsw, hdo, hdb, hbe, hnb, hregions, hbs,
    hfree, if_neg c1, if_neg c2, if_neg (Nat.not_lt_of_le hroom), if_neg c3]
  simp

/-- Writing a header fails exactly when its block cannot hold the prefix, the
fixed fields and sixteen bytes for each free region, and then with the size of
the payload that does not fit. -/
theorem encode_error_iff (h : Header) (e : StoreError) :
    h.encode = .error e ↔
      e = .headerTooLarge (headerFixedSize + regionSize * h.avail.regions.length) h.blockSize ∧
        h.blockSize < headerPrefixSize + headerFixedSize + regionSize * h.avail.regions.length := by
  have hp := size_payload h
  unfold encode
  by_cases hfit : h.blockSize < headerPrefixSize + h.payload.size
  · rw [if_pos hfit, hp]
    constructor
    · intro he
      cases he
      exact ⟨rfl, by omega⟩
    · rintro ⟨rfl, -⟩
      rfl
  · rw [if_neg hfit]
    constructor
    · intro he
      cases he
    · rintro ⟨-, hlt⟩
      omega

/-- The header block. A header whose block size is valid, whose fields fit
their words and whose free list is sorted and within its capacity is written to
a block of exactly its size, which reads back as the same header from any file
at least one block long. A header of any block size of at least fifty bytes
fails to be written, with the size of its payload, exactly when the block
cannot hold sixteen bytes for each free region, so never when the regions are
within the capacity of the block. -/
theorem block_reads_back {h : Header} (hbs : validBlockSize h.blockSize = true)
    (hcap : h.avail.capacity = availCapacity h.blockSize)
    (hsorted : h.avail.regions.Pairwise fun a b => a.precedes b = true)
    (hlen : h.avail.regions.length ≤ availCapacity h.blockSize) (hfit : h.Fits) :
    (∃ block, h.encode = .ok block ∧ block.size = h.blockSize ∧
      ∀ fileLen, h.blockSize ≤ fileLen → decode block fileLen = .ok h) ∧
    ∀ h' : Header, headerPrefixSize + headerFixedSize ≤ h'.blockSize →
      (∀ e, h'.encode = .error e ↔
        e = .headerTooLarge (headerFixedSize + regionSize * h'.avail.regions.length) h'.blockSize ∧
          h'.blockSize < headerPrefixSize + headerFixedSize + regionSize * h'.avail.regions.length) ∧
      (h'.avail.regions.length ≤ availCapacity h'.blockSize → ∃ block, h'.encode = .ok block) := by
  refine ⟨decode_encode hbs hcap hsorted hlen hfit, fun h' h50 => ⟨encode_error_iff h', fun hle => ?_⟩⟩
  apply encode_ok
  have := Nat.div_mul_le_self (h'.blockSize - headerPrefixSize - headerFixedSize) regionSize
  unfold availCapacity at hle
  have := Nat.mul_le_mul_left regionSize hle
  unfold headerPrefixSize headerFixedSize regionSize at *
  omega

theorem block_reads_back_sample :
    let h : Header := { fresh 512 with avail := ⟨[⟨1024, 16⟩, ⟨512, 32⟩], availCapacity 512⟩ }
    validBlockSize h.blockSize = true ∧ h.avail.capacity = availCapacity h.blockSize ∧
      (h.avail.regions.Pairwise fun a b => a.precedes b = true) ∧
      h.avail.regions.length ≤ availCapacity h.blockSize ∧ h.Fits ∧
      (∃ block, h.encode = .ok block ∧ block.size = h.blockSize ∧
        ∀ fileLen, h.blockSize ≤ fileLen → decode block fileLen = .ok h) ∧
      ∀ h' : Header, headerPrefixSize + headerFixedSize ≤ h'.blockSize →
        (∀ e, h'.encode = .error e ↔
          e = .headerTooLarge (headerFixedSize + regionSize * h'.avail.regions.length) h'.blockSize ∧
            h'.blockSize < headerPrefixSize + headerFixedSize + regionSize * h'.avail.regions.length) ∧
        (h'.avail.regions.length ≤ availCapacity h'.blockSize → ∃ block, h'.encode = .ok block) := by
  intro h
  have hfit : h.Fits := ⟨by decide, by decide, by decide, by decide, by simp [h, Region.Fits]⟩
  exact ⟨by decide, rfl, by decide, by decide, hfit,
    block_reads_back (by decide) rfl (by decide) (by decide) hfit⟩

end Header

end HashFile
