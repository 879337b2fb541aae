import HashFile.Proofs.Flush
import HashFile.Proofs.Lookup
import HashFile.Proofs.Reshape
import HashFile.Index.Update

/-!
# Making room

A store into a full bucket first splits it: the directory doubles when the
bucket is as deep as the directory, the bucket is taken out of the cache, its
entries are handed to two new buckets by the next hash bit, the halves of its
run of directory entries are pointed at them, its block is freed, and the new
buckets are cached dirty. `makeRoom` splits until the bucket a hash selects
has a vacant slot.

Each step is checked against the image: doubling and splitting keep an index
sound and holding the same records (`Same`), so lookups answer as before.
-/
namespace HashFile

namespace Bucket

/-- The entries of a bucket handed to two empty buckets one bit deeper: those
whose bit `newBits` is 0 to the first, the others to the second. -/
def halves (old : Bucket) (newBits elems : Nat) : Bucket × Bucket :=
  old.occupied.foldl (fun (lo, hi) (_, e) =>
      if splitBit e.hash newBits = 0 then ((lo.insert e).2, hi) else (lo, (hi.insert e).2))
    (empty newBits elems, empty newBits elems)

/-- A bucket grown from an empty one holds just the entries put in. -/
theorem Grown.entries_perm {b : Bucket} {d elems : Nat} {E : List Slot}
    (hg : Grown b (empty d elems) E) : b.entries.Perm E := by
  simpa [entries_empty] using hg.entries

theorem length_occupied_le (b : Bucket) : b.occupied.length ≤ b.size := by
  simpa [occupied] using List.length_filter_le _ ((List.range b.size).map fun i => (i, b.slot i))

/-- The halves of a well-formed bucket hold its entries, split by the bit, and
fit the bucket format. -/
theorem halves_spec {old : Bucket} {newBits elems : Nat} (hw : old.WF) (hf : old.Fits elems)
    (hbits : newBits < 2 ^ 32) (helems : elems < 2 ^ 32) :
    Grown (old.halves newBits elems).1 (empty newBits elems)
        (old.entries.filter fun e => splitBit e.hash newBits = 0) ∧
      (old.halves newBits elems).1.Fits elems ∧
      Grown (old.halves newBits elems).2 (empty newBits elems)
        (old.entries.filter fun e => !decide (splitBit e.hash newBits = 0)) ∧
      (old.halves newBits elems).2.Fits elems := by
  have hsize : old.size = elems := hf.size
  have hpos : 0 < elems := hsize ▸ hw.size_pos
  have hroom : (empty newBits elems).count + old.occupied.length ≤ (empty newBits elems).size := by
    have := length_occupied_le old
    simp only [empty, size, Array.size_replicate]
    omega
  obtain ⟨hlo, hhi⟩ := foldl_distribute (p := fun e => decide (splitBit e.hash newBits = 0))
    (f := fun (lo, hi) (_, e) =>
      if splitBit e.hash newBits = 0 then ((lo.insert e).2, hi) else (lo, (hi.insert e).2))
    (fun _ _ _ _ => by simp only [decide_eq_true_eq]) old.occupied _ _ (wf_empty hpos)
    (wf_empty hpos) (fun x hx => (mem_occupied.1 hx).2.2) hroom hroom
  have hE : ∀ (p : Slot → Bool), ∀ e ∈ old.entries.filter p, e.Fits :=
    fun _ e he => hf.entry (List.mem_filter.1 he).1
  exact ⟨hlo, hlo.fits (hE _) hbits helems, hhi, hhi.fits (hE _) hbits helems⟩

end Bucket

namespace Header

/-- Two blocks taken for the halves of a split bucket, then the bucket's own
block given back: the halves take its place among the regions in use, and
neither was in use before. -/
theorem Layout.split {h h1 h2 h3 : Header} {hdr dirR : Region} {L : List Nat} {R : List Region}
    {bs off lo hi : Nat} (hl : h.Layout (hdr :: dirR :: (L.map (fun o => ⟨o, bs⟩) ++ R)))
    (hbs : 0 < bs) (hoff : off ∈ L)
    (ha1 : h.allocate bs = (.ok lo, h1)) (ha2 : h1.allocate bs = (.ok hi, h2))
    (hrel : h2.release off bs = (.ok (), h3)) :
    h3.Layout (hdr :: dirR :: ((lo :: hi :: L.erase off).map (fun o => ⟨o, bs⟩) ++ R)) ∧
      lo ∉ L ∧ hi ∉ L ∧ lo ≠ hi ∧
      ∃ next avail, h3 = { h with nextBlock := next, avail } ∧ avail.capacity = h.avail.capacity := by
  obtain ⟨hl1, n1, a1, rfl, hc1⟩ := hl.allocate hbs ha1
  obtain ⟨hl2, n2, a2, rfl, hc2⟩ := hl1.allocate hbs ha2
  have hd := hl2.used_disjoint
  rw [List.pairwise_cons, List.pairwise_cons] at hd
  have hfresh : ∀ x, (∀ r ∈ hdr :: dirR :: (L.map (fun o => ⟨o, bs⟩) ++ R),
      Region.Disjoint ⟨x, bs⟩ r) → x ∉ L := by
    intro x hx hxL
    have := hx ⟨x, bs⟩ (List.mem_cons_of_mem _ (List.mem_cons_of_mem _
      (List.mem_append_left _ (List.mem_map_of_mem hxL))))
    simp only [Region.Disjoint, Region.stop] at this
    omega
  have hlo : lo ∉ L := hfresh lo hd.2.1
  have hhi : hi ∉ L := hfresh hi fun r hr => hd.1 r (List.mem_cons_of_mem _ hr)
  have hne : lo ≠ hi := by
    rintro rfl
    have := hd.1 ⟨lo, bs⟩ List.mem_cons_self
    simp only [Region.Disjoint, Region.stop] at this
    omega
  have hL : (L.map (fun o => (⟨o, bs⟩ : Region)) ++ R).Perm
      (⟨off, bs⟩ :: ((L.erase off).map (fun o => ⟨o, bs⟩) ++ R)) :=
    ((List.perm_cons_erase hoff).map _).append_right R
  have hfront : List.Perm ([⟨hi, bs⟩, ⟨lo, bs⟩, hdr, dirR] ++
      ⟨off, bs⟩ :: ((L.erase off).map (fun o => ⟨o, bs⟩) ++ R))
      (⟨off, bs⟩ :: ([⟨hi, bs⟩, ⟨lo, bs⟩, hdr, dirR] ++
        ((L.erase off).map (fun o => ⟨o, bs⟩) ++ R))) := List.perm_middle
  have hhalves : List.Perm ([⟨hi, bs⟩, ⟨lo, bs⟩] ++ ([hdr, dirR] ++
      ((L.erase off).map (fun o => ⟨o, bs⟩) ++ R)))
      ([hdr, dirR] ++ ([⟨hi, bs⟩, ⟨lo, bs⟩] ++ ((L.erase off).map (fun o => ⟨o, bs⟩) ++ R))) :=
    List.perm_append_comm_assoc _ _ _
  have hperm := (List.Perm.cons _ (.cons _ (.cons _ (.cons _ hL)))).trans
    (hfront.trans (.cons _ (hhalves.trans (.cons _ (.cons _ (.swap _ _ _))))))
  obtain ⟨hl3, n3, a3, rfl, hc3⟩ := Layout.release (r := ⟨off, bs⟩) (hl2.perm hperm) hrel
  exact ⟨hl3, hlo, hhi, hne, n3, a3, rfl, hc3.trans (hc2.trans hc1)⟩

end Header

namespace Index

variable {v v' : Volume} {ix ix' : Index}

/-! ## Taking a split apart

A split first takes the bucket out of the cache, reading it from its block when
it was not cached, and then builds and places its halves. -/

/-- Take the bucket at `off` out of the cache, or read it from its block. -/
def takeBucket (off : Nat) : IndexM Bucket := do
  let (cached, cache) := (← current).cache.remove off
  modifyIndex fun ix => { ix with cache }
  match cached with
  | some b => pure b
  | none => readBucket off

/-- Split the bucket `old`, taken from `off`, into halves placed in new blocks. -/
def splitWith (hash off bits : Nat) (old : Bucket) : IndexM Unit := do
  let newBits := bits + 1
  let elems := (← header).bucketElems
  let (low, high) := old.halves newBits elems
  let bs ← blockSize
  let lowOffset ← allocate bs
  let highOffset ← allocate bs
  let d := (← current).dir
  let (start, stop) := d.rangeOf (dirIndex hash d.bits) bits
  let mid := start + (stop - start) / 2
  modifyIndex fun ix => { ix with dir := (ix.dir.setRange start mid lowOffset).setRange mid stop highOffset }
  free off bs
  cacheInsert lowOffset low true
  cacheInsert highOffset high true

theorem runs_takeBucket {s s' : Volume × Index} {off : Nat} {old : Bucket} :
    Runs (takeBucket off) s old s' ↔ s' = (s.1, { s.2 with cache := (s.2.cache.remove off).2 }) ∧
      (s.2.cache.find? off = some old ∨
        (s.2.cache.find? off = none ∧ Runs (readBucket off) s' old s')) := by
  unfold takeBucket
  simp only [runs_bind, runs_current, runs_modifyIndex, and_assoc, exists_and_left, exists_eq_left,
    exists_const]
  simp only [BucketCache.remove]
  split
  · rename_i b hb
    simp only [hb, runs_pure, Option.some.injEq, reduceCtorEq, false_and, or_false]
    constructor
    · rintro ⟨rfl, rfl⟩; exact ⟨rfl, rfl⟩
    · rintro ⟨rfl, rfl⟩; exact ⟨rfl, rfl⟩
  · rename_i hb
    simp only [hb, reduceCtorEq, false_or, true_and]
    constructor
    · intro h
      obtain ⟨rfl, -⟩ := runs_readBucket.1 h
      exact ⟨rfl, h⟩
    · rintro ⟨rfl, h⟩; exact h

/-- A split doubles the directory when the bucket is as deep as it, then takes
the bucket out and splits it. -/
theorem runs_split {s s' : Volume × Index} {hash off bits : Nat} {a : PUnit}
    (hr : Runs (split hash off bits) s a s') :
    ∃ s1, ((s.2.dir.bits ≤ bits ∧ s.2.dir.bits < hashBits ∧ Runs doubleDirectory s () s1) ∨
        (bits < s.2.dir.bits ∧ s1 = s)) ∧
      ∃ s2 old, Runs (takeBucket off) s1 old s2 ∧ Runs (splitWith hash off bits old) s2 () s' := by
  unfold split at hr
  simp only [runs_bind, runs_current, and_assoc, exists_and_left, exists_eq_left] at hr
  split at hr
  case' isTrue hle =>
    simp only [runs_bind, runs_current, and_assoc, exists_and_left, exists_eq_left] at hr
    split at hr
    · obtain ⟨_, _, hf, -⟩ := runs_bind.1 hr
      exact (runs_fatal.1 hf).elim
    rename_i hlt
    obtain ⟨_, s1, hd, hr⟩ := runs_bind.1 hr
    refine ⟨s1, .inl ⟨hle, Nat.lt_of_not_le hlt, hd⟩, ?_⟩
  case' isFalse hlt =>
    refine ⟨s, .inr ⟨Nat.lt_of_not_le hlt, rfl⟩, ?_⟩
  all_goals
    simp only [runs_bind, runs_current, runs_modifyIndex, and_assoc, exists_and_left,
      exists_eq_left, exists_const] at hr
    split at hr
    · rename_i _ b hb
      obtain ⟨_, _, hold, hr⟩ := runs_bind.1 hr
      obtain ⟨rfl, rfl⟩ := runs_pure.1 hold
      refine ⟨_, _, runs_takeBucket.2 ⟨rfl, .inl hb⟩, ?_⟩
      exact hr
    · rename_i _ hb
      obtain ⟨old, s3, hread, hr⟩ := runs_bind.1 hr
      obtain ⟨rfl, -⟩ := runs_readBucket.1 hread
      refine ⟨_, old, runs_takeBucket.2 ⟨rfl, .inr ⟨hb, hread⟩⟩, ?_⟩
      exact hr

/-- The bucket taken out is the one the index held there. -/
theorem takeBucket_bucketAt {off : Nat} {old : Bucket} {s : Volume × Index}
    (ht : Runs (takeBucket off) (v, ix) old s) :
    old = bucketAt v ix off ∧ s = (v, { ix with cache := (ix.cache.remove off).2 }) := by
  obtain ⟨rfl, hcached⟩ := runs_takeBucket.1 ht
  refine ⟨?_, rfl⟩
  rcases hcached with h | ⟨h, hread⟩
  · simp [bucketAt, h]
  · rw [readBucket_stored hread]
    simp [bucketAt, h]
    rfl

/-! ## Doubling the directory -/

/-- Doubling the directory into a new allocation keeps the index sound and its
records; every bucket stays where it was, named by twice as many entries. -/
theorem Sound.doubleDirectory (hs : Sound v ix) (hlt : ix.dir.bits < hashBits)
    (hr : Runs Index.doubleDirectory (v, ix) () (v', ix')) :
    Sound v' ix' ∧ (image v ix).Same (image v' ix') ∧ Stays v ix v' ix' ∧
      ix'.dir.bits = ix.dir.bits + 1 ∧ (∀ j, ix'.dir.entryAt j = ix.dir.entryAt (j / 2)) ∧
      bucketAt v' ix' = bucketAt v ix ∧ ix'.cache = ix.cache ∧
      (image v' ix').live.Perm (image v ix).live ∧
      ix'.file.header.bucketElems = ix.file.header.bucketElems := by
  unfold Index.doubleDirectory at hr
  simp only [runs_bind, runs_current, runs_modifyIndex, and_assoc, exists_and_left,
    exists_eq_left, exists_const] at hr
  obtain ⟨newOffset, s2, halloc, _, s3, hfree, hs'⟩ := hr
  obtain ⟨h1, hh1, rfl⟩ := runs_allocate.1 halloc
  obtain ⟨h2, hh2, rfl⟩ := runs_free.1 hfree
  obtain ⟨hv, rfl⟩ := Prod.mk.inj hs'
  subst v'
  obtain ⟨hl1, next1, avail1, rfl, hcap1⟩ := hs.layout.allocate
    (show 0 < Directory.byteSize (ix.dir.bits + 1) by
      have := Nat.two_pow_pos (ix.dir.bits + 1); simp only [Directory.byteSize_eq]; omega) hh1
  have hmid : List.Perm (⟨newOffset, Directory.byteSize (ix.dir.bits + 1)⟩ :: (image v ix).used)
      (⟨ix.dir.offset, Directory.byteSize ix.dir.bits⟩ ::
        ([⟨newOffset, Directory.byteSize (ix.dir.bits + 1)⟩, ⟨0, ix.file.header.blockSize⟩] ++
          ((image v ix).live.map (image v ix).block ++ (image v ix).records))) :=
    show List.Perm ([_, _] ++ _ :: _) _ from List.perm_middle
  obtain ⟨hl2, next2, avail2, rfl, hcap2⟩ := Header.Layout.release (hl1.perm hmid) hh2
  clear halloc hfree hh1 hh2 hmid hs'
  dsimp only
  generalize hix' : (Index.mk _ _ _ _ _ : Index) = ix'
  have hcache : ix'.cache = ix.cache := by rw [← hix']
  have hhandle : ix'.file.handle = ix.file.handle := by rw [← hix']
  have hwritable : ix'.file.writable = ix.file.writable := by rw [← hix']
  have hbs : ix'.file.header.blockSize = ix.file.header.blockSize := by rw [← hix']
  have helems : ix'.file.header.bucketElems = ix.file.header.bucketElems := by rw [← hix']
  have hb : bucketAt v ix' = bucketAt v ix := bucketAt_congr hcache hhandle hbs helems
  obtain ⟨hshaped, hsame, hlive⟩ := hs.shaped.double (J := image v ix') hlt
    (by rw [← hix']; rfl) (by rw [← hix']; rfl) (by rw [← hix']; rfl) (by rw [← hix']; rfl)
    helems (fun o _ => by simp only [image, hb]) (fun _ _ _ _ _ => by simp only [image, disk_eq, hhandle])
  have hused : (image v ix').used.Perm
      (⟨newOffset, Directory.byteSize (ix.dir.bits + 1)⟩ :: ⟨0, ix.file.header.blockSize⟩ ::
        ((image v ix).live.map (image v ix).block ++ (image v ix).records)) := by
    have hblock : (image v ix').block = (image v ix).block := by
      funext o; simp only [Image.block, image, hbs]
    have hoff : ix'.dir.offset = newOffset := by rw [← hix']
    have hdbits : ix'.dir.bits = ix.dir.bits + 1 := by rw [← hix']; rfl
    have hused : (image v ix').used = ⟨0, ix.file.header.blockSize⟩ ::
        ⟨newOffset, Directory.byteSize (ix.dir.bits + 1)⟩ ::
          ((image v ix').live.map (image v ix).block ++ (image v ix').records) := by
      rw [Image.used, hblock, ← hoff, ← hdbits, ← hbs]; rfl
    rw [hused]
    exact (List.Perm.swap _ _ _).trans (.cons _ (.cons _ (.append (hlive.map _) hsame.records)))
  refine ⟨⟨hshaped, ?_, ?_, ?_, ?_, ?_⟩, hsame, ⟨Volume.Frame.refl _ v, hhandle, hwritable⟩, ?_, ?_, ?_,
    ?_, hlive, rfl⟩
  · refine (hl2.perm hused.symm).congr ?_ ?_ <;> rw [← hix']
  · rw [hbs]; exact hs.blockSize
  · rw [hbs, helems]; exact hs.elems
  · rw [hbs, ← hs.capacity, ← hcap1, ← hcap2, ← hix']
  · refine (hs.coherent.reheader hcache hhandle hwritable hbs helems ?_ ?_).congr
      fun o => hlive.mem_iff.symm
    all_goals intro h; rw [← hix'] at h; cases h
  · rfl
  · exact Directory.entryAt_double ix.dir
  · exact hb
  · rfl

/-! ## Splitting a bucket -/

/-- Splitting the bucket `off` that `hash` selects, of depth `bits` below the
directory's, keeps the index sound and its records. Two new buckets take its
place among the live ones, holding its halves, and `hash` then selects the one
of its own split bit. -/
theorem Sound.splitWith (hs : Sound v ix) (hwr : ix.file.writable = true) {hash off bits : Nat}
    (hh : hash < 2 ^ hashBits) (hoff : ix.dir.entryAt (dirIndex hash ix.dir.bits) = off)
    (hbits : (bucketAt v ix off).depth = bits) (hbD : bits < ix.dir.bits)
    {s : Volume × Index} {old : Bucket} (ht : Runs (takeBucket off) (v, ix) old s)
    (hr : Runs (splitWith hash off bits old) s () (v', ix')) :
    Sound v' ix' ∧ (image v ix).Same (image v' ix') ∧ Stays v ix v' ix' ∧
      ix'.dir.bits = ix.dir.bits ∧
      ∃ lo hi, lo ≠ hi ∧ lo ∉ (image v ix).live ∧ hi ∉ (image v ix).live ∧
        (image v' ix').live.Perm (lo :: hi :: (image v ix).live.erase off) ∧
        bucketAt v' ix' lo = ((bucketAt v ix off).halves (bits + 1) ix.file.header.bucketElems).1 ∧
        bucketAt v' ix' hi = ((bucketAt v ix off).halves (bits + 1) ix.file.header.bucketElems).2 ∧
        ix'.dir.entryAt (dirIndex hash ix'.dir.bits) =
          (if splitBit hash (bits + 1) = 0 then lo else hi) ∧
        ∀ o ∈ (image v ix).live, o ≠ off → bucketAt v' ix' o = bucketAt v ix o := by
  obtain ⟨rfl, rfl⟩ := takeBucket_bucketAt ht
  unfold Index.splitWith at hr
  simp only [runs_bind, runs_header, runs_blockSize, runs_current, runs_modifyIndex, and_assoc,
    exists_and_left, exists_eq_left, exists_const] at hr
  have hi0 : dirIndex hash ix.dir.bits < 2 ^ ix.dir.bits := dirIndex_lt hh hs.shaped.bits_le
  have hoffL : off ∈ (image v ix).live := hoff ▸ (hs.get?_dir hi0).2
  have hbs : 0 < ix.file.header.blockSize := hs.spread.pos
  obtain ⟨lo, s1, ha1, hi, s2, ha2, _, s3, hfree, _, ⟨v4, ix4⟩, hc1, hc2⟩ := hr
  obtain ⟨h1, hh1, rfl⟩ := runs_allocate.1 ha1
  obtain ⟨h2, hh2, rfl⟩ := runs_allocate.1 ha2
  obtain ⟨h3, hh3, rfl⟩ := runs_free.1 hfree
  dsimp only at hh2 hh3 hc1 hc2
  obtain ⟨hl3, hlo, hhi, hne, next, avail, rfl, hcap⟩ := Header.Layout.split hs.layout hbs hoffL
    hh1 hh2 hh3
  clear ha1 ha2 hfree hh1 hh2 hh3
  generalize hix3 : (Index.mk _ _ _ _ _ : Index) = ix3 at hc1
  have hfile3 : ix3.file.handle = ix.file.handle ∧ ix3.file.writable = ix.file.writable ∧
      ix3.file.header.blockSize = ix.file.header.blockSize ∧
      ix3.file.header.bucketElems = ix.file.header.bucketElems := by
    rw [← hix3]; exact ⟨rfl, rfl, rfl, rfl⟩
  obtain ⟨hhandle3, hwritable3, hbs3, helems3⟩ := hfile3
  have hbits32 : bits + 1 < 2 ^ 32 := by
    have : ix.dir.bits ≤ 31 := hs.shaped.bits_le
    omega
  have helems32 : ix.file.header.bucketElems < 2 ^ 32 := by
    have := hs.room
    have := (validBlockSize_bounds hs.blockSize).2
    simp only [bucketHeaderSize, slotBytes] at *
    omega
  obtain ⟨hglo, hflo, hghi, hfhi⟩ := Bucket.halves_spec (hs.shaped.wf off hoffL)
    (hs.shaped.fits off hoffL) hbits32 helems32
  obtain ⟨hcr, hbr⟩ := hs.coherent.remove Image.nodup_live off
  have hc3 : Coherent v ix3 ((image v ix).live.erase off) := by
    refine hcr.reheader (by rw [← hix3]) hhandle3 hwritable3 hbs3 helems3 ?_ ?_
    · intro h
      rw [← hix3] at h
      simp [Nat.pos_iff_ne_zero.1 hbs] at h
    · intro h
      rw [← hix3] at h
      simp [Directory.setRange] at h
  have hsp3 : Spread ix3 (lo :: hi :: (image v ix).live.erase off) := by
    refine spread_of_pairwise (R := (image v ix).records) (by rw [hbs3]; exact hbs)
      (by rw [hbs3, helems3]; exact hs.room) ?_
    rw [← hix3]
    exact hl3.used_disjoint
  obtain ⟨hix4, hc4, hfind4, hk4⟩ := hc3.cacheInsert
    (hsp3.mono fun x hx => by simp only [List.mem_cons] at hx ⊢; tauto)
    (by rw [helems3]; exact hflo) (fun h => by cases h) (fun _ => by rw [hwritable3]; exact hwr) hc1
  have hsp4 : Spread ix4 (hi :: lo :: (image v ix).live.erase off) := by
    rw [hix4]
    exact (hsp3.recache _).mono fun x hx => by simp only [List.mem_cons] at hx ⊢; tauto
  obtain ⟨-, hc5, hfind5, hk5⟩ := hc4.cacheInsert hsp4 (by rw [hk4.file, helems3]; exact hfhi)
    (fun h => by cases h) (fun _ => by rw [hk4.file, hwritable3]; exact hwr) hc2
  clear hc1 hc2 hsp4
  have hfile' : ix'.file = ix3.file := hk5.file.trans hk4.file
  have hdir' : ix'.dir = ix3.dir := hk5.dir.trans hk4.dir
  have hJlo : bucketAt v' ix' lo = ((bucketAt v ix off).halves (bits + 1)
      ix.file.header.bucketElems).1 := by
    rw [hk5.bucket lo ⟨List.mem_cons_self, hne⟩]
    simp [bucketAt, hfind4]
  have hJhi : bucketAt v' ix' hi = ((bucketAt v ix off).halves (bits + 1)
      ix.file.header.bucketElems).2 := by
    simp [bucketAt, hfind5]
  have hb3 : bucketAt v ix3 = bucketAt v { ix with cache := (ix.cache.remove off).2 } :=
    bucketAt_congr (by rw [← hix3]) hhandle3 hbs3 helems3
  have hJrest : ∀ o ∈ (image v ix).live, o ≠ off → bucketAt v' ix' o = bucketAt v ix o := by
    intro o ho hoo
    have hoL : o ∈ (image v ix).live.erase off := Image.nodup_live.mem_erase_iff.2 ⟨hoo, ho⟩
    have holo : o ≠ lo := fun h => hlo (h ▸ ho)
    have hohi : o ≠ hi := fun h => hhi (h ▸ ho)
    rw [hk5.bucket o ⟨List.mem_cons_of_mem _ hoL, hohi⟩, hk4.bucket o ⟨hoL, holo⟩, hb3, hbr o hoo]
  have hrecblk : ∀ o ∈ lo :: hi :: (image v ix).live.erase off, ∀ r ∈ (image v ix).records,
      Region.Disjoint ⟨o, ix.file.header.blockSize⟩ r := by
    have hd := hl3.used_disjoint
    rw [List.pairwise_cons, List.pairwise_cons, List.pairwise_append] at hd
    exact fun o ho r hr => hd.2.2.2.2 _ (List.mem_map_of_mem ho) r hr
  have hJbyte : ∀ e ∈ (image v ix).slots, ∀ i, e.dataOffset ≤ i → i < e.dataOffset + e.recordSize →
      (image v' ix').byte i = (image v ix).byte i := by
    intro e he i hi1 hi2
    have hrec : e.region ∈ (image v ix).records :=
      List.mem_map_of_mem (List.mem_filter.2 ⟨he, by simpa using (show 0 < e.recordSize by omega)⟩)
    have hout : ∀ o ∈ lo :: hi :: (image v ix).live.erase off,
        ¬ (o ≤ i ∧ i < o + ix.file.header.blockSize) := by
      intro o ho hin
      have := hrecblk o ho _ hrec
      simp only [Region.Disjoint, Region.stop, Slot.region] at this
      omega
    show (ix'.disk v').byteAt i = (ix.disk v).byteAt i
    rw [hk5.byte i ?_, hk4.byte i ?_, disk_eq, disk_eq, hhandle3]
    · intro o ho
      rw [hbs3]
      exact hout o (List.mem_cons_of_mem _ (List.mem_cons_of_mem _ ho))
    · intro o ho
      rw [hk4.file, hbs3]
      exact hout o (by simp only [List.mem_cons] at ho ⊢; tauto)
  have hsize : dirIndex hash ix.dir.bits < (image v ix).dir.size := by
    show _ < ix.dir.size
    have := hs.shaped.aligned.size_eq
    simp only [image] at this
    omega
  obtain ⟨hshaped, hsame, hlive⟩ := Image.Shaped.split (J := image v' ix') hs.shaped hsize hoff
    hbits hbD hlo hhi hne
    (by show ix'.dir.entries = _; rw [hdir', ← hix3]; rfl)
    (by show ix'.dir.bits = _; rw [hdir', ← hix3]; rfl)
    (by show ix'.file.header.dirBits = ix'.dir.bits; rw [hfile', hdir', ← hix3]
        exact hs.shaped.dirBits_eq)
    (by show ix'.file.header.dirOffset = ix'.dir.offset; rw [hfile', hdir', ← hix3]
        exact hs.shaped.dirOffset_eq)
    (by show ix'.file.header.bucketElems = _; rw [hfile', helems3]; rfl)
    (by show (bucketAt v' ix' lo).WF; rw [hJlo]; exact hglo.wf)
    (by show (bucketAt v' ix' lo).Fits _; rw [hJlo]; exact hflo)
    (by show (bucketAt v' ix' lo).depth = _; rw [hJlo]; exact hglo.depth)
    (by show (bucketAt v' ix' lo).entries.Perm _; rw [hJlo]
        exact hglo.entries_perm)
    (by show (bucketAt v' ix' hi).WF; rw [hJhi]; exact hghi.wf)
    (by show (bucketAt v' ix' hi).Fits _; rw [hJhi]; exact hfhi)
    (by show (bucketAt v' ix' hi).depth = _; rw [hJhi]; exact hghi.depth)
    (by show (bucketAt v' ix' hi).entries.Perm _; rw [hJhi]
        exact hghi.entries_perm)
    hJrest hJbyte
  have hhdr' : ix'.file.header = { ix.file.header with nextBlock := next, avail } := by
    rw [hfile', ← hix3]
  have hused : (image v' ix').used.Perm (⟨0, ix.file.header.blockSize⟩ ::
      ⟨ix.dir.offset, Directory.byteSize ix.dir.bits⟩ ::
        ((lo :: hi :: (image v ix).live.erase off).map (fun o => ⟨o, ix.file.header.blockSize⟩) ++
          (image v ix).records)) := by
    have hJbs : (image v' ix').header.blockSize = ix.file.header.blockSize := by
      show ix'.file.header.blockSize = _
      rw [hfile', hbs3]
    have hJdir : (image v' ix').dir.offset = ix.dir.offset ∧ (image v' ix').dir.bits = ix.dir.bits := by
      show ix'.dir.offset = _ ∧ ix'.dir.bits = _
      rw [hdir', ← hix3]
      exact ⟨rfl, rfl⟩
    have hJblock : (image v' ix').block = fun o => ⟨o, ix.file.header.blockSize⟩ := by
      funext o
      simp only [Image.block, hJbs]
    rw [Image.used, hJbs, hJdir.1, hJdir.2, hJblock]
    exact .cons _ (.cons _ (.append (hlive.map _) hsame.records))
  have hbits' : ix'.dir.bits = ix.dir.bits := by rw [hdir', ← hix3]; rfl
  have hentry : ix'.dir.entryAt (dirIndex hash ix'.dir.bits) =
      if splitBit hash (bits + 1) = 0 then lo else hi := by
    have hin := (Directory.mem_rangeOf_iff ix.dir (dirIndex hash ix.dir.bits)
      (dirIndex hash ix.dir.bits) bits).2 rfl
    have hmid := dirIndex_lt_mid hh hbD hs.shaped.bits_le hin
    rw [hbits', hdir', ← hix3]
    show ((ix.dir.setRange _ _ lo).setRange _ _ hi).entryAt _ = _
    rw [Image.entryAt_split]
    by_cases hb0 : splitBit hash (bits + 1) = 0
    · rw [if_pos hb0, if_neg (fun h => absurd h.1 (Nat.not_le.2 (hmid.2 hb0))),
        if_pos ⟨hin.1, hmid.2 hb0, hsize⟩]
    · rw [if_neg hb0, if_pos ⟨Nat.le_of_not_lt (fun h => hb0 (hmid.1 h)), hin.2, hsize⟩]
  refine ⟨⟨hshaped, ?_, ?_, ?_, ?_, ?_⟩, hsame, ?_, hbits', lo, hi, hne, hlo, hhi, hlive, hJlo, hJhi,
    hentry, hJrest⟩
  · rw [hhdr']
    exact hl3.perm hused.symm
  · rw [hfile', hbs3]
    exact hs.blockSize
  · rw [hfile', hbs3, helems3]
    exact hs.elems
  · rw [hhdr']
    exact hcap.trans hs.capacity
  · refine hc5.congr fun o => ?_
    rw [hlive.mem_iff]
    simp only [List.mem_cons]
    tauto
  · exact (Stays.mk (Volume.Frame.refl _ v) hhandle3 hwritable3).trans (hk4.stays.trans hk5.stays)

/-- A split of the bucket `hash` selects keeps the index sound and its
records, doubling the directory first when the bucket is as deep as it. Two
new buckets holding its halves replace it among the live ones, and `hash`
then selects the one of its own split bit. -/
theorem Sound.split (hs : Sound v ix) (hwr : ix.file.writable = true) {hash off bits : Nat}
    (hh : hash < 2 ^ hashBits) (hoff : ix.dir.entryAt (dirIndex hash ix.dir.bits) = off)
    (hbits : (bucketAt v ix off).depth = bits)
    (hr : Runs (Index.split hash off bits) (v, ix) () (v', ix')) :
    Sound v' ix' ∧ (image v ix).Same (image v' ix') ∧ Stays v ix v' ix' ∧
      ∃ lo hi, lo ≠ hi ∧ lo ∉ (image v ix).live ∧ hi ∉ (image v ix).live ∧
        (image v' ix').live.Perm (lo :: hi :: (image v ix).live.erase off) ∧
        bucketAt v' ix' lo = ((bucketAt v ix off).halves (bits + 1) ix.file.header.bucketElems).1 ∧
        bucketAt v' ix' hi = ((bucketAt v ix off).halves (bits + 1) ix.file.header.bucketElems).2 ∧
        ix'.dir.entryAt (dirIndex hash ix'.dir.bits) =
          (if splitBit hash (bits + 1) = 0 then lo else hi) ∧
        ∀ o ∈ (image v ix).live, o ≠ off → bucketAt v' ix' o = bucketAt v ix o := by
  obtain ⟨⟨v1, ix1⟩, hd, s2, old, ht, hsw⟩ := runs_split hr
  have hfirst : Sound v1 ix1 ∧ (image v ix).Same (image v1 ix1) ∧ Stays v ix v1 ix1 ∧
      ix1.dir.entryAt (dirIndex hash ix1.dir.bits) = off ∧ (bucketAt v1 ix1 off).depth = bits ∧
      bits < ix1.dir.bits ∧ bucketAt v1 ix1 = bucketAt v ix ∧
      (image v1 ix1).live.Perm (image v ix).live ∧
      ix1.file.header.bucketElems = ix.file.header.bucketElems := by
    rcases hd with ⟨hle, hlt, hd⟩ | ⟨hlt, hs1⟩
    · obtain ⟨hs1, hsame, hst, hbits1, hentry, hb1, -, hlive1, helems1⟩ := hs.doubleDirectory hlt hd
      have hdeep : bits ≤ ix.dir.bits := by
        have hsize : dirIndex hash ix.dir.bits < (image v ix).dir.size := by
          rw [hs.shaped.aligned.size_eq]
          exact dirIndex_lt hh hs.shaped.bits_le
        have := hs.shaped.aligned.depth_le _ hsize
        rw [show (image v ix).dir.entryAt _ = off from hoff] at this
        exact hbits ▸ this
      have hidx : dirIndex hash (ix.dir.bits + 1) / 2 = dirIndex hash ix.dir.bits := by
        have := dirIndex_div hh (Nat.le_succ ix.dir.bits) (Nat.succ_le_of_lt hlt)
        rwa [show ix.dir.bits.succ - ix.dir.bits = 1 by omega, Nat.pow_one] at this
      refine ⟨hs1, hsame, hst, ?_, by rw [hb1]; exact hbits, by omega, hb1, hlive1, helems1⟩
      rw [hbits1, hentry, hidx, hoff]
    · obtain ⟨rfl, rfl⟩ := Prod.mk.inj hs1
      exact ⟨hs, Image.Same.refl _, Stays.refl _ _, hoff, hbits, hlt, rfl, List.Perm.refl _, rfl⟩
  obtain ⟨hs1, hsame1, hst1, hoff1, hbits1, hbD1, hb1, hlive1, helems1⟩ := hfirst
  obtain ⟨hs2, hsame2, hst2, -, lo, hi, hne, hlo, hhi, hlive2, hJlo, hJhi, hentry, hrest⟩ :=
    hs1.splitWith (by rw [hst1.writable]; exact hwr) hh hoff1 hbits1 hbD1 ht hsw
  rw [hb1, helems1] at hJlo hJhi
  rw [hb1] at hrest
  exact ⟨hs2, hsame1.trans hsame2, hst1.trans hst2, lo, hi, hne, fun h => hlo (hlive1.mem_iff.2 h),
    fun h => hhi (hlive1.mem_iff.2 h), hlive2.trans (.cons _ (.cons _ (hlive1.erase off))), hJlo, hJhi,
    hentry, fun o ho hoo => hrest o (hlive1.mem_iff.2 ho) hoo⟩

/-! ## Making room -/

/-- Each round of `makeRoom` loads the bucket `hash` selects and answers it
when it has a vacant slot, else splits it and goes on: whatever round answers,
the index is sound, holds the same records, and the answer is the bucket `hash`
selects, with a vacant slot. -/
theorem Sound.makeRoomGo (hs : Sound v ix) (hwr : ix.file.writable = true) {hash : Nat}
    (hh : hash < 2 ^ hashBits) {fuel off : Nat}
    (hr : Runs (makeRoom.go hash fuel) (v, ix) off (v', ix')) :
    Sound v' ix' ∧ (image v ix).Same (image v' ix') ∧ Stays v ix v' ix' ∧
      ix'.dir.entryAt (dirIndex hash ix'.dir.bits) = off ∧ (bucketAt v' ix' off).isFull = false := by
  induction fuel generalizing v ix with
  | zero =>
    unfold makeRoom.go at hr
    exact (runs_fatal.1 hr).elim
  | succ fuel ih =>
    unfold makeRoom.go at hr
    simp only [runs_bind, runs_current, runs_dirEntry, and_assoc, exists_and_left,
      exists_eq_left] at hr
    obtain ⟨off0, hget, b, ⟨v1, ix1⟩, hload, hr⟩ := hr
    obtain ⟨hget', hlive⟩ := hs.get?_dir (dirIndex_lt hh hs.shaped.bits_le)
    have hoff : ix.dir.entryAt (dirIndex hash ix.dir.bits) = off0 :=
      Option.some.inj (hget'.symm.trans hget)
    rw [hoff] at hlive
    obtain ⟨rfl, hs1, hag1, hst1⟩ := hs.loadBucket hlive hload
    have hoff1 : ix1.dir.entryAt (dirIndex hash ix1.dir.bits) = off0 := by
      rw [show ix1.dir.bits = ix.dir.bits from hag1.bits, ← hoff]
      exact hag1.entryAt _
    have hb1 : bucketAt v1 ix1 off0 = bucketAt v ix off0 := hag1.bucket _ hlive
    split at hr
    · rename_i hfull
      obtain ⟨rfl, hs'⟩ := runs_pure.1 hr
      obtain ⟨rfl, rfl⟩ := Prod.mk.inj hs'
      refine ⟨hs1, hag1.same, hst1, hoff1, ?_⟩
      rw [hb1]
      simpa using hfull
    · obtain ⟨_, ⟨v2, ix2⟩, hsplit, hr⟩ := runs_bind.1 hr
      obtain ⟨hs2, hsame2, hst2, -⟩ := hs1.split (by rw [hst1.writable]; exact hwr) hh hoff1
        (by rw [hb1]) hsplit
      obtain ⟨hs3, hsame3, hst3, hoff3, hfull3⟩ := ih hs2
        (by rw [hst2.writable, hst1.writable]; exact hwr) hr
      exact ⟨hs3, hag1.same.trans (hsame2.trans hsame3), hst1.trans (hst2.trans hst3), hoff3,
        hfull3⟩

/-- Making room for a new entry keeps the index sound and its records, and
answers the bucket the hash then selects, which has a vacant slot. -/
theorem Sound.makeRoom (hs : Sound v ix) (hwr : ix.file.writable = true) {hash off : Nat}
    (hh : hash < 2 ^ hashBits) (hr : Runs (Index.makeRoom hash) (v, ix) off (v', ix')) :
    Sound v' ix' ∧ (image v ix).Same (image v' ix') ∧ Stays v ix v' ix' ∧
      ix'.dir.entryAt (dirIndex hash ix'.dir.bits) = off ∧ (bucketAt v' ix' off).isFull = false :=
  hs.makeRoomGo hwr hh hr

end Index

end HashFile
