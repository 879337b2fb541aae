import HashFile.Proofs.Reach

/-!
# Making room ends

`makeRoom` splits the bucket a hash selects until that bucket has a vacant
slot, and a split may send every entry to the hash's side, so nothing in the
loop bounds it. What does is the depth of the bucket the hash selects
(`selectedDepth`). A split of that bucket, of depth `bits`, hands each of its
entries to one of two new buckets of depth `bits + 1`, the one of the entry's
next hash bit, and the hash then selects the new bucket of its own bit
(`Sound.split_halves`). A bucket is never deeper than the directory, the
directory never deeper than `hashBits`, and a split at that depth fails
instead of doubling the directory (`split_at_full_width`).

So from a bucket of depth `b0` the loop answers or fails within
`hashBits + 1 - b0` rounds, after at most `hashBits - b0` splits, and a longer
bound on the rounds changes nothing (`Sound.makeRoomGo_fuel`).
-/
namespace HashFile

namespace Index

variable {v v' : Volume} {ix ix' : Index} {hash : Nat}

/-- The depth of the bucket a hash selects. -/
def selectedDepth (v : Volume) (ix : Index) (hash : Nat) : Nat :=
  (bucketAt v ix (ix.dir.entryAt (dirIndex hash ix.dir.bits))).depth

/-- In a sound index the bucket a hash selects is no deeper than the directory. -/
theorem Sound.selectedDepth_le (hs : Sound v ix) (hh : hash < 2 ^ hashBits) :
    selectedDepth v ix hash ≤ ix.dir.bits := by
  have hi : dirIndex hash ix.dir.bits < (image v ix).dir.size := by
    rw [hs.shaped.aligned.size_eq]
    exact dirIndex_lt hh hs.shaped.bits_le
  exact hs.shaped.aligned.depth_le _ hi

/-! ## One split -/

/-- A split of the bucket `off` a hash selects, of depth `bits`: every entry of
the bucket goes to one of two new buckets of depth `bits + 1`, the first when
its next hash bit is 0 and the second when it is 1; the new buckets take the
old one's place among the live ones; and the hash then selects the new bucket
of its own bit. -/
theorem Sound.split_halves (hs : Sound v ix) (hwr : ix.file.writable = true)
    (hh : hash < 2 ^ hashBits) {off bits : Nat}
    (hoff : ix.dir.entryAt (dirIndex hash ix.dir.bits) = off)
    (hbits : (bucketAt v ix off).depth = bits)
    (hr : Runs (Index.split hash off bits) (v, ix) () (v', ix')) :
    ∃ lo hi, lo ≠ hi ∧ lo ∉ (image v ix).live ∧ hi ∉ (image v ix).live ∧
      (image v' ix').live.Perm (lo :: hi :: (image v ix).live.erase off) ∧
      (bucketAt v' ix' lo).depth = bits + 1 ∧ (bucketAt v' ix' hi).depth = bits + 1 ∧
      (bucketAt v' ix' lo).entries.Perm
        ((bucketAt v ix off).entries.filter fun e => splitBit e.hash (bits + 1) = 0) ∧
      (bucketAt v' ix' hi).entries.Perm
        ((bucketAt v ix off).entries.filter fun e => splitBit e.hash (bits + 1) = 1) ∧
      ix'.dir.entryAt (dirIndex hash ix'.dir.bits) =
        if splitBit hash (bits + 1) = 0 then lo else hi := by
  obtain ⟨-, -, -, lo, hi, hne, hlo, hhi, hlive, hJlo, hJhi, hentry, -⟩ := hs.split hwr hh hoff hbits hr
  have hoffL : off ∈ (image v ix).live := hoff ▸ (hs.get?_dir (dirIndex_lt hh hs.shaped.bits_le)).2
  have hbits32 : bits + 1 < 2 ^ 32 := by
    have hle : bits ≤ ix.dir.bits := by
      have := hs.selectedDepth_le hh
      unfold selectedDepth at this
      rwa [hoff, hbits] at this
    have hD : ix.dir.bits ≤ hashBits := hs.shaped.bits_le
    unfold hashBits at hD
    omega
  have hwf : (bucketAt v ix off).WF := hs.shaped.wf off hoffL
  have hfits : (bucketAt v ix off).Fits ix.file.header.bucketElems := hs.shaped.fits off hoffL
  obtain ⟨hglo, -, hghi, -⟩ := Bucket.halves_spec hwf hfits hbits32
    (elems_lt_of_valid hs.blockSize hs.elems)
  have hbit : ∀ n, n < 2 → (!decide (n = 0)) = decide (n = 1) := by decide
  refine ⟨lo, hi, hne, hlo, hhi, hlive, ?_, ?_, ?_, ?_, hentry⟩
  · rw [hJlo, hglo.depth]
    rfl
  · rw [hJhi, hghi.depth]
    rfl
  · rw [hJlo]
    exact hglo.entries_perm
  · rw [hJhi]
    exact hghi.entries_perm.trans (.of_eq (List.filter_congr fun e _ =>
      hbit (splitBit e.hash (bits + 1)) (Nat.mod_lt _ (by decide))))

/-- Splitting the bucket a hash selects deepens it by one bit. -/
theorem Sound.split_deepens (hs : Sound v ix) (hwr : ix.file.writable = true)
    (hh : hash < 2 ^ hashBits) {off bits : Nat}
    (hoff : ix.dir.entryAt (dirIndex hash ix.dir.bits) = off)
    (hbits : (bucketAt v ix off).depth = bits)
    (hr : Runs (Index.split hash off bits) (v, ix) () (v', ix')) :
    selectedDepth v' ix' hash = bits + 1 := by
  obtain ⟨lo, hi, -, -, -, -, hdlo, hdhi, -, -, hentry⟩ := hs.split_halves hwr hh hoff hbits hr
  unfold selectedDepth
  rw [hentry]
  split
  · exact hdlo
  · exact hdhi

/-- Where the bucket is as deep as the directory and the directory as deep as
the hash is wide, a split fails at once and changes nothing. -/
theorem split_at_full_width {s : Volume × Index} {off bits : Nat} (hD : s.2.dir.bits ≤ bits)
    (hw : hashBits ≤ s.2.dir.bits) :
    (Index.split hash off bits).run.run s = (.error (.fatal .splitTooDeep), s) := by
  unfold Index.split
  rw [Runs.run_bind (runs_current.2 ⟨rfl, rfl⟩), if_pos hD, Runs.run_bind (runs_current.2 ⟨rfl, rfl⟩),
    if_pos hw]
  rfl

/-! ## The rounds of `makeRoom` -/

/-- A bound on the rounds of `makeRoom` past `hashBits + 1` less the depth of
the selected bucket changes nothing: a round answers, fails, or splits the
selected bucket, which deepens it by one bit, and no bucket gets deeper than
the directory nor the directory deeper than `hashBits`. -/
theorem Sound.makeRoomGo_fuel (hs : Sound v ix) (hwr : ix.file.writable = true)
    (hh : hash < 2 ^ hashBits) {n m : Nat} (hn : hashBits + 1 - selectedDepth v ix hash ≤ n)
    (hm : hashBits + 1 - selectedDepth v ix hash ≤ m) :
    (makeRoom.go hash n).run.run (v, ix) = (makeRoom.go hash m).run.run (v, ix) := by
  induction n generalizing m v ix with
  | zero =>
    have := hs.selectedDepth_le hh
    have : ix.dir.bits ≤ hashBits := hs.shaped.bits_le
    omega
  | succ n ih =>
    obtain ⟨m, rfl⟩ : ∃ m', m = m' + 1 := ⟨m - 1, by
      have := hs.selectedDepth_le hh
      have : ix.dir.bits ≤ hashBits := hs.shaped.bits_le
      omega⟩
    unfold makeRoom.go
    refine run_bind_congr fun ix0 s0 h0 => ?_
    obtain ⟨hix0, rfl⟩ := runs_current.1 h0
    rw [hix0]
    refine run_bind_congr fun off s1 h1 => ?_
    obtain ⟨hget, rfl⟩ := runs_dirEntry.1 h1
    obtain ⟨hget', hlive⟩ := hs.get?_dir (dirIndex_lt hh hs.shaped.bits_le)
    have hoff : ix.dir.entryAt (dirIndex hash ix.dir.bits) = off :=
      Option.some.inj (hget'.symm.trans hget)
    rw [hoff] at hlive
    refine run_bind_congr fun b s2 h2 => ?_
    obtain ⟨v2, ix2⟩ := s2
    obtain ⟨rfl, hs2, hag2, hst2⟩ := hs.loadBucket hlive h2
    have hoff2 : ix2.dir.entryAt (dirIndex hash ix2.dir.bits) = off := by
      rw [show ix2.dir.bits = ix.dir.bits from hag2.bits, ← hoff]
      exact hag2.entryAt _
    have hb2 : bucketAt v2 ix2 off = bucketAt v ix off := hag2.bucket _ hlive
    cases hfull : (bucketAt v ix off).isFull
    · rfl
    · refine run_bind_congr fun _ s3 h3 => ?_
      obtain ⟨v3, ix3⟩ := s3
      have hwr2 : ix2.file.writable = true := by rw [hst2.writable]; exact hwr
      obtain ⟨hs3, -, hst3, -⟩ := hs2.split hwr2 hh hoff2 (by rw [hb2]) h3
      have hdeep := hs2.split_deepens hwr2 hh hoff2 (by rw [hb2]) h3
      have hsel : selectedDepth v ix hash = (bucketAt v ix off).depth := by
        unfold selectedDepth
        rw [hoff]
      exact ih hs3 (by rw [hst3.writable]; exact hwr2) (by omega) (by omega)

end Index

end HashFile
