import HashFile.Proofs.Sound
import HashFile.Index.Lookup

/-!
# Lookups answer the image

A lookup goes to the bucket that the directory entry of the key's hash names,
walks the probe path of the hash in that bucket, keeps the slots whose hash,
key size and key head agree with the key's, and reads their keys until one is
the key. In a sound index this finds the key exactly when the image stores it
(`Sound.locate`): every record of the key sits in that bucket (`Shaped.home`),
on that probe path (`mem_probe`), with that hash and head (`Shaped.hash_eq`,
`Shaped.head_eq`).

So `fetch` answers the image's value of the key and `containsKey` whether it
has one (`Sound.fetch`, `Sound.containsKey`); neither changes what a lookup
sees, though both may move buckets between the cache and the file.
-/
namespace HashFile

namespace Index

variable {v v' : Volume} {ix ix' : Index}

/-- Reading the keys of candidate slots changes nothing. The answer is a
candidate whose record holds the key, and none only when no candidate's does. -/
theorem runs_firstHolding {key : Bytes} {s s' : Volume × Index} :
    ∀ {cands : List (Nat × Slot)} {r : Option Nat}, Runs (firstHolding key cands) s r s' →
      s' = s ∧ (∀ i, r = some i → ∃ e, (i, e) ∈ cands ∧ (image s.1 s.2).keyOf e = key) ∧
        (r = none → ∀ p ∈ cands, (image s.1 s.2).keyOf p.2 ≠ key)
  | [], r, hr => by
    obtain ⟨rfl, rfl⟩ := runs_pure.1 hr
    exact ⟨rfl, (fun _ h => nomatch h), fun _ _ h => nomatch h⟩
  | (i, e) :: rest, r, hr => by
    unfold firstHolding at hr
    obtain ⟨k, s1, hk, hrest⟩ := runs_bind.1 hr
    obtain ⟨-, hsome, rfl⟩ := runs_readAt.1 (runs_readKey.1 hk)
    have hkey : k = (image s1.1 s1.2).keyOf e := (Volume.readAt_eq_some _ hsome).1
    by_cases hkk : (k == key) = true
    · rw [if_pos hkk] at hrest
      obtain ⟨rfl, rfl⟩ := runs_pure.1 hrest
      refine ⟨rfl, (fun j hj => ?_), fun h => nomatch h⟩
      cases hj
      exact ⟨e, List.mem_cons_self, hkey ▸ (bytes_beq_iff k key).1 hkk⟩
    · rw [if_neg hkk] at hrest
      obtain ⟨rfl, hsome', hnone⟩ := runs_firstHolding hrest
      refine ⟨rfl, fun j hj => ?_, fun hn p hp => ?_⟩
      · obtain ⟨e', he', hk'⟩ := hsome' j hj
        exact ⟨e', List.mem_cons_of_mem _ he', hk'⟩
      · rcases List.mem_cons.1 hp with rfl | hp
        · rw [← hkey]
          exact fun h => hkk ((bytes_beq_iff k key).2 h)
        · exact hnone hn p hp

/-- The candidates of a lookup: the slots on the probe path of the key's hash
whose hash, key size and key head agree with the key's. -/
theorem mem_candidates {b : Bucket} {key : Bytes} {p : Nat × Slot} :
    p ∈ (b.probe (Key.hash key)).filterMap (fun x =>
        if ((b.slot x).hash == Key.hash key && (b.slot x).keySize == key.size &&
            (b.slot x).head == Key.head key) = true then some (x, b.slot x) else none) ↔
      p.1 ∈ b.probe (Key.hash key) ∧ p.2 = b.slot p.1 ∧ p.2.hash = Key.hash key ∧
        p.2.keySize = key.size ∧ p.2.head = Key.head key := by
  obtain ⟨i, e⟩ := p
  simp only [List.mem_filterMap, Bool.and_eq_true, beq_iff_eq]
  constructor
  · rintro ⟨x, hx, hif⟩
    split at hif
    · next h =>
      cases hif
      exact ⟨hx, rfl, h.1.1, h.1.2, h.2⟩
    · cases hif
  · rintro ⟨hx, rfl, hh, hs, hd⟩
    exact ⟨i, hx, by rw [if_pos ⟨⟨hh, hs⟩, hd⟩]⟩

/-- The bucket the directory names for a key's hash in a sound index: the one
that holds the key's record if any does. -/
theorem Sound.home_of_keyOf (hs : Sound v ix) {e : Slot} (he : e ∈ (image v ix).slots) :
    e ∈ (bucketAt v ix (ix.dir.entryAt (dirIndex (Key.hash ((image v ix).keyOf e)) ix.dir.bits))).entries := by
  obtain ⟨o, ho, he⟩ := Image.mem_slots.1 he
  have hh := hs.shaped.hash_eq o ho e he
  have hhome := hs.shaped.home o ho e he
  rw [hh] at hhome
  change (image v ix).dir.entryAt _ = o at hhome
  simp only [image] at hhome ⊢
  rw [hhome]
  exact he

/-- Loading a live bucket answers the bucket there, and keeps the index sound
and its image. -/
theorem Sound.loadBucket (hs : Sound v ix) {o : Nat} (ho : o ∈ (image v ix).live) {b : Bucket}
    (hr : Runs (loadBucket o) (v, ix) b (v', ix')) :
    b = bucketAt v ix o ∧ Sound v' ix' ∧ (image v ix).Agree (image v' ix') ∧ Stays v ix v' ix' := by
  obtain ⟨rfl, hc1, -, hk1⟩ := hs.coherent.loadBucket hs.spread ho (hs.shaped.fits _ ho) hr
  obtain ⟨hs1, hag1⟩ := hs.keeps (fun _ h => h) hc1 hk1
  exact ⟨rfl, hs1, hag1, hk1.stays⟩

/-- In a sound index, looking a key up finds the bucket its hash selects and
in it the slot of the key's record, exactly when the image stores the key; it
keeps the index sound and what lookups see. -/
theorem Sound.locate (hs : Sound v ix) {key : Bytes} {loc : Located}
    (hr : Runs (locate key) (v, ix) loc (v', ix')) :
    Sound v' ix' ∧ (image v ix).Agree (image v' ix') ∧ Stays v ix v' ix' ∧
      loc.hash = Key.hash key ∧
      loc.dirIndex = dirIndex (Key.hash key) ix.dir.bits ∧
      loc.bucketOffset = ix.dir.entryAt loc.dirIndex ∧ loc.bucketOffset ∈ (image v ix).live ∧
      (∀ i, loc.slot = some i → i < (bucketAt v ix loc.bucketOffset).size ∧
        ((bucketAt v ix loc.bucketOffset).slot i).isVacant = false ∧
        (image v ix).keyOf ((bucketAt v ix loc.bucketOffset).slot i) = key) ∧
      (loc.slot = none ↔ (image v ix).lookup key = none) := by
  unfold Index.locate at hr
  simp only [runs_bind, runs_current, runs_dirEntry, runs_pure, and_assoc, exists_and_left,
    exists_eq_left] at hr
  obtain ⟨off, hget, b, ⟨v1, ix1⟩, hload, r, s2, hfh, rfl, hs2⟩ := hr
  have hdi : dirIndex (Key.hash key) ix.dir.bits < 2 ^ ix.dir.bits :=
    dirIndex_lt (Key.hash_lt key) hs.shaped.bits_le
  obtain ⟨hget', hlive⟩ := hs.get?_dir hdi
  have hoff : ix.dir.entryAt (dirIndex (Key.hash key) ix.dir.bits) = off :=
    Option.some.inj (hget'.symm.trans hget)
  rw [hoff] at hlive
  have hwf := hs.shaped.wf _ hlive
  obtain ⟨rfl, hs1, hag1, hst1⟩ := hs.loadBucket hlive hload
  obtain ⟨rfl, hsome, hnone⟩ := runs_firstHolding hfh
  obtain ⟨rfl, rfl⟩ := Prod.mk.inj hs2
  dsimp only at hsome hnone
  have hcand : ∀ p ∈ ((bucketAt v ix off).probe (Key.hash key)).filterMap (fun x =>
      if ((bucketAt v ix off).slot x).hash == Key.hash key &&
          ((bucketAt v ix off).slot x).keySize == key.size &&
          ((bucketAt v ix off).slot x).head == Key.head key then
        some (x, (bucketAt v ix off).slot x) else none),
      p.1 < (bucketAt v ix off).size ∧ ((bucketAt v ix off).slot p.1).isVacant = false ∧
        p.2 = (bucketAt v ix off).slot p.1 ∧ p.2 ∈ (image v ix).slots := by
    intro p hp
    obtain ⟨hpr, hp2, -⟩ := mem_candidates.1 hp
    obtain ⟨hlt, hvac⟩ := Bucket.of_mem_probe hwf hpr
    refine ⟨hlt, hvac, hp2, Image.mem_slots.2 ⟨off, hlive, ?_⟩⟩
    rw [hp2]
    exact Bucket.mem_entries.2 ⟨p.1, hlt, rfl, hvac⟩
  refine ⟨hs1, hag1, hst1, rfl, rfl, hoff.symm, hlive, fun i hi => ?_,
    ⟨fun hn => ?_, fun hl => ?_⟩⟩
  · obtain ⟨e, he, hke⟩ := hsome i hi
    obtain ⟨hlt, hvac, heq, hmem⟩ := hcand (i, e) he
    dsimp only at hlt hvac heq
    subst heq
    exact ⟨hlt, hvac, by rw [← hag1.keyOf hmem]; exact hke⟩
  · apply Image.lookup_eq_none
    intro hkey
    obtain ⟨e, he, hke⟩ := List.mem_map.1 hkey
    have hhome := hs.home_of_keyOf he
    rw [hke, hoff] at hhome
    obtain ⟨q, hq, rfl, hvac⟩ := Bucket.mem_entries.1 hhome
    have hfits := hs.shaped.head_eq _ hlive _ hhome
    have hhash := hs.shaped.hash_eq _ hlive _ hhome
    refine hnone hn (q, (bucketAt v ix off).slot q) (mem_candidates.2 ⟨?_, rfl, ?_, ?_, ?_⟩) ?_
    · have := Bucket.mem_probe hwf hq hvac
      change q ∈ (bucketAt v ix off).probe ((bucketAt v ix off).slot q).hash at this
      rwa [hhash, hke] at this
    · rw [← hke]; exact hhash
    · rw [← hke]; simp [Image.keyOf]
    · rw [← hke]; exact hfits
    · rw [hag1.keyOf he]; exact hke
  · cases hr : r with
    | none => rfl
    | some i =>
      obtain ⟨e, he, hke⟩ := hsome i hr
      obtain ⟨-, -, -, hmem⟩ := hcand (i, e) he
      dsimp only at hmem
      rw [hag1.keyOf hmem] at hke
      rw [← hke, Image.lookup_keyOf hs.shaped.keys_nodup hmem] at hl
      cases hl

/-- In a sound index, fetching a key answers the image's value of it, and
keeps the index sound and what lookups see. -/
theorem Sound.fetch (hs : Sound v ix) {key : Bytes} {r : Option Bytes}
    (hr : Runs (fetch key) (v, ix) r (v', ix')) :
    r = (image v ix).lookup key ∧ Sound v' ix' ∧ (image v ix).Agree (image v' ix') ∧
      Stays v ix v' ix' := by
  unfold Index.fetch at hr
  obtain ⟨loc, ⟨v1, ix1⟩, hloc, hr⟩ := runs_bind.1 hr
  obtain ⟨hs1, hag1, hst1, -, -, -, hlive, hsome, hnone⟩ := hs.locate hloc
  cases hslot : loc.slot with
  | none =>
    rw [hslot] at hr
    obtain ⟨rfl, hs'⟩ := runs_pure.1 hr
    obtain ⟨rfl, rfl⟩ := Prod.mk.inj hs'
    exact ⟨(hnone.1 hslot).symm, hs1, hag1, hst1⟩
  | some i =>
    rw [hslot] at hr
    obtain ⟨e, ⟨v2, ix2⟩, hel, hr⟩ := runs_bind.1 hr
    obtain ⟨x, hval, rfl⟩ := runs_map.1 hr
    obtain ⟨b, hl, rfl⟩ := runs_elementAt.1 hel
    obtain ⟨hlt, hvac, hkey⟩ := hsome i hslot
    have hlive1 : loc.bucketOffset ∈ (image v1 ix1).live := by rw [hag1.live]; exact hlive
    obtain ⟨rfl, hs2, hag2, hst2⟩ := hs1.loadBucket hlive1 hl
    obtain ⟨-, hread⟩ := runs_readValue.1 hval
    obtain ⟨-, hsome', hst⟩ := runs_readAt.1 hread
    obtain ⟨rfl, rfl⟩ := Prod.mk.inj hst
    have hb : bucketAt v1 ix1 loc.bucketOffset = bucketAt v ix loc.bucketOffset :=
      hag1.bucket _ hlive
    have hmem : (bucketAt v ix loc.bucketOffset).slot i ∈ (image v ix).slots :=
      Image.mem_slots.2 ⟨_, hlive, Bucket.mem_entries.2 ⟨i, hlt, rfl, hvac⟩⟩
    have hag := hag1.trans hag2
    refine ⟨?_, hs2, hag, hst1.trans hst2⟩
    rw [← hkey, Image.lookup_keyOf hs.shaped.keys_nodup hmem, (Volume.readAt_eq_some _ hsome').1, hb]
    exact congrArg some (hag.valueOf hmem)

/-- In a sound index, `containsKey` answers whether the image stores the key,
and keeps the index sound and what lookups see. -/
theorem Sound.containsKey (hs : Sound v ix) {key : Bytes} {r : Bool}
    (hr : Runs (containsKey key) (v, ix) r (v', ix')) :
    r = ((image v ix).lookup key).isSome ∧ Sound v' ix' ∧ (image v ix).Agree (image v' ix') ∧
      Stays v ix v' ix' := by
  unfold Index.containsKey at hr
  obtain ⟨loc, s1, hloc, hr⟩ := runs_bind.1 hr
  obtain ⟨rfl, rfl⟩ := runs_pure.1 hr
  obtain ⟨hs1, hag1, hst1, -, -, -, -, -, hnone⟩ := hs.locate hloc
  refine ⟨?_, hs1, hag1, hst1⟩
  cases h : loc.slot with
  | none => rw [hnone.1 h]; rfl
  | some i =>
    cases hl : (image v ix).lookup key with
    | none => rw [hnone.2 hl] at h; cases h
    | some _ => rfl

end Index

end HashFile
