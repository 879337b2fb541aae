import HashFile.Proofs.Evolution

/-!
# A writer session, call by call

What each point operation of a writer session does, read off the index action
it runs. Three facts are needed beyond the index actions' own.

A lookup never fails with `keyNotFound` (`Index.fetch_failsWith`): that failure
belongs to `Session.fetch` alone, which raises it exactly when the lookup it
makes answers nothing (`Session.fetch_keyNotFound`).

Resizing the cache keeps the index sound and what it stores
(`Index.Sound.resize`): the buckets it evicts are the dirty ones dropped, and
they are written back to their blocks.

Every call of a writer session that answers is a run of its index action on
the session's index, and leaves the session holding the index it reached.
-/
namespace HashFile

section Generic

variable {σ ε α β : Type} {P : ε → Prop}

/-- Every failed run of `m` fails with an error that `P` holds of. -/
def FailsWith (P : ε → Prop) (m : ExceptT ε (StateM σ) α) : Prop :=
  ∀ s e s', m.run.run s = (.error e, s') → P e

/-- An action that runs from every state never fails. -/
theorem failsWith_of_runs {m : ExceptT ε (StateM σ) α} (h : ∀ s, ∃ a s', Runs m s a s') :
    FailsWith P m := by
  intro s e s' he
  obtain ⟨a, s'', hr⟩ := h s
  rw [Runs] at hr
  rw [hr] at he
  cases he

theorem failsWith_pure (a : α) : FailsWith P (pure a : ExceptT ε (StateM σ) α) :=
  failsWith_of_runs fun s => ⟨a, s, runs_pure.2 ⟨rfl, rfl⟩⟩

theorem failsWith_get : FailsWith P (get : ExceptT ε (StateM σ) σ) :=
  failsWith_of_runs fun s => ⟨s, s, runs_get.2 ⟨rfl, rfl⟩⟩

theorem failsWith_throw {e : ε} (he : P e) : FailsWith P (throw e : ExceptT ε (StateM σ) α) := by
  intro s e' s' h
  cases h
  exact he

/-- An action that starts by failing fails so, whatever follows. -/
theorem failsWith_throw_bind {e : ε} (he : P e) {f : α → ExceptT ε (StateM σ) β} :
    FailsWith P (throw e >>= f) := by
  intro s e' s' h
  cases h
  exact he

theorem FailsWith.bind {x : ExceptT ε (StateM σ) α} {f : α → ExceptT ε (StateM σ) β}
    (hx : FailsWith P x) (hf : ∀ a, FailsWith P (f a)) : FailsWith P (x >>= f) := by
  intro s e s'' h
  rw [ExceptT.run_bind, StateT.run_bind] at h
  rcases hr : x.run.run s with ⟨r, s'⟩
  rw [hr] at h
  cases r with
  | error e' =>
    cases h
    exact hx s e s' hr
  | ok a => exact hf a s' e s'' h

/-- A mapped action fails where the action fails, and so. -/
theorem run_map_of_error {f : α → β} {x : ExceptT ε (StateM σ) α} {s s' : σ} {e : ε}
    (h : (f <$> x).run.run s = (.error e, s')) : x.run.run s = (.error e, s') := by
  rw [ExceptT.run_map, StateT.run_map] at h
  rcases hr : x.run.run s with ⟨r, s1⟩
  rw [hr] at h
  cases r with
  | error e' =>
    cases h
    rfl
  | ok a => cases h

theorem FailsWith.map {x : ExceptT ε (StateM σ) α} (hx : FailsWith P x) (f : α → β) :
    FailsWith P (f <$> x) :=
  fun s e s' h => hx s e s' (run_map_of_error h)

theorem failsWith_forM {l : List β} {f : β → ExceptT ε (StateM σ) PUnit}
    (hf : ∀ b, FailsWith P (f b)) : FailsWith P (l.forM f) := by
  induction l with
  | nil => exact failsWith_pure _
  | cons b l ih => exact (hf b).bind fun _ => ih

end Generic

namespace Index

/-! ## Lookups never fail for a missing key -/

theorem failsWith_current : FailsWith (· ≠ StoreError.keyNotFound) current :=
  failsWith_of_runs fun s => ⟨s.2, s, runs_current.2 ⟨rfl, rfl⟩⟩

theorem failsWith_modifyIndex (f : Index → Index) :
    FailsWith (· ≠ StoreError.keyNotFound) (modifyIndex f) :=
  failsWith_of_runs fun _ => ⟨(), _, runs_modifyIndex.2 rfl⟩

theorem failsWith_blockSize : FailsWith (· ≠ StoreError.keyNotFound) blockSize :=
  failsWith_of_runs fun s => ⟨_, s, runs_blockSize.2 ⟨rfl, rfl⟩⟩

theorem failsWith_fatal {α : Type} (i : Inconsistency) :
    FailsWith (· ≠ StoreError.keyNotFound) (fatal i : IndexM α) :=
  failsWith_throw (by simp)

theorem failsWith_checked {α : Type} (r : Except Overflow α) :
    FailsWith (· ≠ StoreError.keyNotFound) (checked r) := by
  cases r with
  | error o => exact failsWith_throw (by simp)
  | ok a => exact failsWith_pure a

theorem failsWith_readAt (off len : Nat) : FailsWith (· ≠ StoreError.keyNotFound) (readAt off len) := by
  unfold readAt
  dsimp only
  split
  · exact failsWith_throw_bind (by simp)
  · refine failsWith_get.bind fun st => ?_
    obtain ⟨v, ix⟩ := st
    dsimp only
    split
    · exact failsWith_pure _
    · exact failsWith_fatal _

theorem failsWith_writeAt (off : Nat) (bytes : ByteArray) :
    FailsWith (· ≠ StoreError.keyNotFound) (writeAt off bytes) := by
  unfold writeAt
  refine failsWith_current.bind fun ix => ?_
  dsimp only
  split
  · exact failsWith_throw_bind (by simp)
  · refine failsWith_get.bind fun st => ?_
    obtain ⟨v, ix'⟩ := st
    dsimp only
    refine (failsWith_of_runs fun s => ⟨(), _, runs_set.2 rfl⟩).bind fun _ => ?_
    split
    · exact failsWith_throw (by simp)
    · exact failsWith_pure _

theorem failsWith_readBucket (o : Nat) : FailsWith (· ≠ StoreError.keyNotFound) (readBucket o) := by
  unfold readBucket header
  refine (failsWith_current.bind fun _ => failsWith_pure _).bind fun h => ?_
  refine (failsWith_readAt _ _).bind fun bytes => ?_
  split
  · exact failsWith_fatal _
  · refine failsWith_current.bind fun _ => ?_
    dsimp only
    split
    · exact failsWith_fatal _
    · exact failsWith_pure _

theorem failsWith_writeBack (l : List (Nat × Bucket)) :
    FailsWith (· ≠ StoreError.keyNotFound) (writeBack l) := by
  unfold writeBack writeBucket
  exact failsWith_forM fun p => failsWith_blockSize.bind fun _ => failsWith_writeAt _ _

theorem failsWith_loadBucket (o : Nat) : FailsWith (· ≠ StoreError.keyNotFound) (loadBucket o) := by
  unfold loadBucket cacheInsert
  refine failsWith_current.bind fun ix => ?_
  split
  · exact failsWith_pure _
  · exact (failsWith_readBucket o).bind fun b => (failsWith_current.bind fun _ =>
      (failsWith_modifyIndex _).bind fun _ => failsWith_writeBack _).bind fun _ => failsWith_pure b

theorem failsWith_firstHolding (key : Bytes) (l : List (Nat × Slot)) :
    FailsWith (· ≠ StoreError.keyNotFound) (firstHolding key l) := by
  induction l with
  | nil => exact failsWith_pure _
  | cons p l ih =>
    obtain ⟨s, e⟩ := p
    exact (failsWith_readAt _ _).bind fun _ => by
      split
      · exact failsWith_pure _
      · exact ih

/-- A lookup fails only for a fault of the file or of the index, never for the
key it looks for. -/
theorem fetch_failsWith (key : Bytes) : FailsWith (· ≠ StoreError.keyNotFound) (fetch key) := by
  unfold fetch locate dirEntry elementAt readValue
  refine (failsWith_current.bind fun _ => ?_).bind fun loc => ?_
  · refine (failsWith_current.bind fun _ => ?_).bind fun _ => (failsWith_loadBucket _).bind fun _ =>
      (failsWith_firstHolding _ _).bind fun _ => failsWith_pure _
    split
    · exact failsWith_pure _
    · exact failsWith_fatal _
  · split
    · exact failsWith_pure _
    · exact ((failsWith_loadBucket _).bind fun _ => failsWith_pure _).bind fun e =>
        ((failsWith_checked _).bind fun _ => failsWith_readAt _ _).map _

/-! ## Resizing the cache -/

variable {v v' : Volume} {ix ix' : Index} {L : List Nat}

/-- Dropping entries from the cache keeps the cache and the file in step at
every offset but those of the dirty entries dropped, and keeps the bucket at
each of those offsets. -/
theorem Coherent.evict (hc : Coherent v ix L)
    (hroom : bucketHeaderSize + ix.file.header.bucketElems * slotBytes ≤ ix.file.header.blockSize)
    {c' : BucketCache} {dropped : List CacheEntry}
    (hp : ix.cache.entries.Perm (c'.entries ++ dropped)) :
    Coherent v { ix with cache := c' }
        (L.filter fun x => x ∉ (dropped.filter CacheEntry.dirty).map CacheEntry.offset) ∧
      ∀ x ∈ L, x ∉ (dropped.filter CacheEntry.dirty).map CacheEntry.offset →
        bucketAt v { ix with cache := c' } x = bucketAt v ix x := by
  have hnd := BucketCache.Distinct.perm hc.distinct hp
  rw [List.map_append, List.nodup_append] at hnd
  obtain ⟨hd1, -, hsep⟩ := hnd
  have hd1' : ({ ix with cache := c' } : Index).cache.Distinct := hd1
  have hkept : ∀ e ∈ c'.entries, e ∈ ix.cache.entries :=
    fun e he => hp.symm.subset (List.mem_append_left _ he)
  have hold : ∀ x ∈ L, x ∉ (dropped.filter CacheEntry.dirty).map CacheEntry.offset →
      bucketAt v { ix with cache := c' } x = bucketAt v ix x ∧
        (¬ DirtyAt { ix with cache := c' } x → ¬ ix.DirtyAt x) := by
    intro x hx hxD
    by_cases hcx : ∃ e ∈ ix.cache.entries, e.offset = x
    · obtain ⟨e, he, rfl⟩ := hcx
      rcases List.mem_append.1 (hp.subset he) with he1 | he1
      · rw [bucketAt_of_mem hd1' he1, bucketAt_of_mem hc.distinct he,
          dirtyAt_iff hd1' he1, dirtyAt_iff hc.distinct he]
        exact ⟨rfl, id⟩
      · have hclean : e.dirty = false := by
          cases hdirty : e.dirty
          · rfl
          · exact absurd (List.mem_map_of_mem (List.mem_filter.2 ⟨he1, hdirty⟩)) hxD
        have hnd0 : ¬ ix.DirtyAt e.offset := by
          rw [dirtyAt_iff hc.distinct he, hclean]
          simp
        have hu : ∀ e' ∈ ({ ix with cache := c' } : Index).cache.entries, e'.offset ≠ e.offset :=
          fun e' he' => hsep _ (List.mem_map_of_mem he') _ (List.mem_map_of_mem he1)
        refine ⟨?_, fun _ => hnd0⟩
        rw [bucketAt_of_uncached hu, bucketAt_of_mem hc.distinct he]
        have hw := (hc.stored _ hx hnd0).2
        rw [bucketAt_of_mem hc.distinct he] at hw
        exact storedBucket_of_window (hc.fits e he) hroom hw
    · have hu : ∀ e ∈ ix.cache.entries, e.offset ≠ x := fun e he h => hcx ⟨e, he, h⟩
      have hu1 : ∀ e ∈ ({ ix with cache := c' } : Index).cache.entries, e.offset ≠ x :=
        fun e he => hu e (hkept e he)
      exact ⟨by rw [bucketAt_of_uncached hu1, bucketAt_of_uncached hu]; rfl, fun _ => not_dirtyAt hu⟩
  refine ⟨⟨hc.ino_lt, hc.ordered, hc.size_le, hd1', fun e he => ?_,
    fun e he => hc.fits e (hkept e he), fun x hx hnd => ?_,
    fun hro e he => hc.clean hro e (hkept e he), hc.header, hc.dir⟩,
    fun x hx hxD => (hold x hx hxD).1⟩
  · refine List.mem_filter.2 ⟨hc.cached e (hkept e he), decide_eq_true fun hD => ?_⟩
    obtain ⟨e', he', heo⟩ := List.mem_map.1 hD
    exact hsep _ (List.mem_map_of_mem he) _
      (List.mem_map_of_mem (List.mem_filter.1 he').1) heo.symm
  · obtain ⟨hx, hxD⟩ := List.mem_filter.1 hx
    have hxD : x ∉ (dropped.filter CacheEntry.dirty).map CacheEntry.offset := by simpa using hxD
    obtain ⟨hb, hdirty⟩ := hold x hx hxD
    obtain ⟨hlen, hwin⟩ := hc.stored x hx (hdirty hnd)
    exact ⟨hlen, by rw [hb]; exact hwin⟩

/-- Dropping entries from the cache, then writing back the dirty ones dropped,
keeps the cache and the file in step for `L` and every bucket at `L`, and
touches only the blocks written. -/
theorem Coherent.evictBack (hc : Coherent v ix L) (hsp : Spread ix L)
    {c' : BucketCache} {dropped : List CacheEntry}
    (hp : ix.cache.entries.Perm (c'.entries ++ dropped)) (hcap : c'.capacity = ix.cache.capacity)
    (hr : Runs (Index.writeBack ((dropped.filter CacheEntry.dirty).map BucketCache.written))
      (v, { ix with cache := c' }) () (v', ix')) :
    ix' = { ix with cache := c' } ∧ Coherent v' ix' L ∧
      Keeps (· ∈ L) ((dropped.filter CacheEntry.dirty).map CacheEntry.offset) v ix v' ix' := by
  set D := (dropped.filter CacheEntry.dirty).map CacheEntry.offset
  obtain ⟨hc1, hold⟩ := hc.evict hsp.room hp
  have hnd := BucketCache.Distinct.perm hc.distinct hp
  rw [List.map_append, List.nodup_append] at hnd
  have hdrop : ∀ e ∈ dropped, e ∈ ix.cache.entries :=
    fun e he => hp.symm.subset (List.mem_append_right _ he)
  have hDL : ∀ x ∈ D, x ∈ L := by
    intro x hx
    obtain ⟨e, he, rfl⟩ := List.mem_map.1 hx
    exact hc.cached e (hdrop e (List.mem_filter.1 he).1)
  have hoffs : ((dropped.filter CacheEntry.dirty).map BucketCache.written).map Prod.fst = D := by
    simp only [D, List.map_map]
    rfl
  obtain ⟨rfl, hc2, hk2, hwb⟩ := hc1.writeBack
    ((hsp.recache c').mono fun x hx => by
      rw [hoffs, List.mem_append] at hx
      rcases hx with hx | hx
      · exact (List.mem_filter.1 hx).1
      · exact hDL x hx)
    (by rw [hoffs]; exact hnd.2.1.sublist (List.Sublist.map _ List.filter_sublist))
    (fun p hp' => by
      obtain ⟨e, he, rfl⟩ := List.mem_map.1 hp'
      refine ⟨fun h => ?_, hc.fits e (hdrop e (List.mem_filter.1 he).1)⟩
      have := (List.mem_filter.1 h).2
      simp only [decide_eq_true_eq] at this
      exact this (List.mem_map_of_mem he))
    hr
  rw [hoffs] at hc2 hk2
  refine ⟨rfl, hc2.congr fun x => ⟨fun hx => ?_, fun hx => ?_⟩,
    ⟨hk2.frame, rfl, rfl, rfl, rfl, hcap, fun x hx => ?_, fun i hi => hk2.byte i hi⟩⟩
  · rcases List.mem_append.1 hx with hx | hx
    · exact (List.mem_filter.1 hx).1
    · exact hDL x hx
  · by_cases hxD : x ∈ D
    · exact List.mem_append_right _ hxD
    · exact List.mem_append_left _ (List.mem_filter.2 ⟨hx, decide_eq_true hxD⟩)
  · by_cases hxD : x ∈ D
    · obtain ⟨e, he, rfl⟩ := List.mem_map.1 hxD
      rw [bucketAt_of_mem hc.distinct (hdrop e (List.mem_filter.1 he).1)]
      exact hwb (BucketCache.written e) (List.mem_map_of_mem he)
    · rw [hk2.bucket x (List.mem_filter.2 ⟨hx, decide_eq_true hxD⟩)]
      exact hold x hx hxD

/-- The image does not see the cache's capacity. -/
@[simp] theorem image_recapacity (v : Volume) (ix : Index) (m : Nat) :
    image v { ix with cache := { ix.cache with capacity := m } } = image v ix := rfl

/-- Soundness does not see the cache's capacity. -/
theorem Sound.recapacity (hs : Sound v ix) (m : Nat) :
    Sound v { ix with cache := { ix.cache with capacity := m } } :=
  have hco := hs.coherent
  ⟨hs.shaped, hs.layout, hs.blockSize, hs.elems, hs.capacity,
    ⟨hco.ino_lt, hco.ordered, hco.size_le, hco.distinct, hco.cached, hco.fits, hco.stored,
      hco.clean, hco.header, hco.dir⟩⟩

/-- Resizing the cache of a sound index, and writing back the dirty buckets it
evicts, keeps the index sound and its image. -/
theorem Sound.resize (hs : Sound v ix) (n : Nat)
    (hr : Runs (Index.writeBack (ix.cache.setCapacity n).1)
      (v, { ix with cache := (ix.cache.setCapacity n).2 }) () (v', ix')) :
    Sound v' ix' ∧ (image v ix).Agree (image v' ix') ∧ Stays v ix v' ix' := by
  set ix0 : Index := { ix with cache := { ix.cache with capacity := max n 1 } }
  have hs0 : Sound v ix0 := hs.recapacity _
  obtain ⟨dropped, hp, hout, -, hcap⟩ := ix0.cache.evictTo_spec (max n 1) none
  have hset : ix.cache.setCapacity n = ix0.cache.evictTo (max n 1) none := rfl
  rw [hset, hout] at hr
  obtain ⟨rfl, hc, hk⟩ := hs0.coherent.evictBack hs0.spread hp hcap hr
  have hW : ∀ o ∈ (dropped.filter CacheEntry.dirty).map CacheEntry.offset,
      o ∈ (image v ix0).live := by
    intro o ho
    obtain ⟨e, he, rfl⟩ := List.mem_map.1 ho
    exact hs0.coherent.cached e (hp.symm.subset (List.mem_append_right _ (List.mem_filter.1 he).1))
  obtain ⟨hs', hag⟩ := hs0.keeps hW hc hk
  exact ⟨hs', hag, hk.frame, rfl, rfl⟩

end Index

namespace Session

variable {v v' : Volume} {s s' : Session} {ix : Index} {key : Bytes} {α : Type}

/-! ## The calls of a writer session -/

/-- A session action on the index fails as the index action does, or because
the session is closed. -/
theorem failsWith_withIndex {P : StoreError → Prop} {m : IndexM α} (hm : FailsWith P m)
    (hc : P .closedHandle) : FailsWith P (withIndex m) := by
  rintro ⟨v, s⟩ e st h
  cases hix : s.index with
  | none =>
    have href := refuses_withIndex (v := v) m hix
    unfold Refuses at href
    rw [href] at h
    cases h
    exact hc
  | some ix =>
    rw [run_withIndex hix] at h
    unfold Index.run at h
    rcases hr : m.run.run (v, ix) with ⟨r, v1, ix1⟩
    rw [hr] at h
    obtain ⟨rfl, -⟩ := Prod.mk.inj h
    exact hm _ _ _ hr

/-- A fetch that answers a value found it by a lookup. -/
theorem runs_fetch {x : Bytes} {st : Volume × Session} (h : Runs (fetch key) (v, s) x st) :
    Runs (get key) (v, s) (some x) st := by
  unfold fetch at h
  obtain ⟨r, st1, hget, h⟩ := runs_bind.1 h
  cases r with
  | none => exact (runs_throw.1 h).elim
  | some y =>
    obtain ⟨rfl, rfl⟩ := runs_pure.1 h
    exact hget

/-- A fetch fails with `keyNotFound` exactly after a lookup that answered
nothing: the lookup itself never fails so. -/
theorem fetch_keyNotFound {st : Volume × Session}
    (h : (fetch key).run.run (v, s) = (.error .keyNotFound, st)) : Runs (get key) (v, s) none st := by
  unfold fetch at h
  rw [ExceptT.run_bind, StateT.run_bind] at h
  rcases hr : (get key).run.run (v, s) with ⟨r, st1⟩
  rw [hr] at h
  cases r with
  | error e =>
    cases h
    exact absurd rfl (failsWith_withIndex (Index.fetch_failsWith key) (by simp) _ _ _ hr)
  | ok r =>
    cases r with
    | some y => cases h
    | none =>
      cases h
      exact hr

/-- A delete of a writer session that answers nothing looked the key up, found
nothing, and changed nothing else. -/
theorem runs_delete_none (hix : s.index = some ix) (hw : ix.file.writable = true)
    (h : Runs (delete key) (v, s) none (v', s')) :
    ∃ ix', Runs (Index.fetch key) (v, ix) none (v', ix') ∧ s' = { s with index := some ix' } := by
  unfold delete at h
  obtain ⟨_, st0, hreq, h⟩ := runs_bind.1 h
  obtain rfl : st0 = (v, s) := (Prod.mk.inj (hreq.symm.trans (run_requireWriter hix hw))).2
  obtain ⟨y, ⟨v1, s1⟩, hfetch, h⟩ := runs_bind.1 h
  obtain ⟨v1', ix1, hfetch1, hst⟩ := (runs_withIndex hix).1 hfetch
  obtain ⟨rfl, rfl⟩ := Prod.mk.inj hst
  cases y with
  | none =>
    obtain ⟨-, hs'⟩ := runs_pure.1 h
    obtain ⟨rfl, rfl⟩ := Prod.mk.inj hs'
    exact ⟨ix1, hfetch1, rfl⟩
  | some y =>
    obtain ⟨r, st2, -, h⟩ := runs_bind.1 h
    dsimp only at h
    split at h
    · obtain ⟨_, st3, -, h⟩ := runs_bind.1 h
      exact absurd (runs_pure.1 h).1 (by simp)
    · exact absurd (runs_pure.1 h).1 (by simp)

/-- Reading several keys reads them one by one. -/
theorem runs_valuesAt (hix : s.index = some ix) {ks : List Bytes} {rs : List (Option Bytes)}
    {st : Volume × Session} (h : Runs (valuesAt ks) (v, s) rs st) :
    Runs (ks.mapM get) (v, s) rs st := by
  unfold valuesAt at h
  obtain ⟨_, st0, hreq, h⟩ := runs_bind.1 h
  obtain rfl : st0 = (v, s) := (Prod.mk.inj (hreq.symm.trans (runs_requireOpen hix))).2
  exact h

/-- Switching the sync mode changes the index's mode and nothing else. -/
theorem runs_setSyncMode (hix : s.index = some ix) {b : Bool} {st : Volume × Session}
    (h : Runs (setSyncMode b) (v, s) () st) :
    st = (v, { s with index := some { ix with syncMode := b } }) := by
  unfold setSyncMode at h
  obtain ⟨v1, ix1, hm, rfl⟩ := (runs_withIndex hix).1 h
  obtain ⟨rfl, rfl⟩ := Prod.mk.inj (Index.runs_modifyIndex.1 hm)
  rfl

/-- Resizing the cache of a session resizes its index's cache and writes back
what it evicts. -/
theorem runs_setCacheSize (hix : s.index = some ix) {n : Nat} {st : Volume × Session}
    (h : Runs (setCacheSize n) (v, s) () st) :
    ∃ v' ix', Runs (Index.writeBack (ix.cache.setCapacity n).1)
        (v, { ix with cache := (ix.cache.setCapacity n).2 }) () (v', ix') ∧
      st = (v', { s with index := some ix' }) := by
  unfold setCacheSize at h
  obtain ⟨v', ix', hr, rfl⟩ := (runs_withIndex hix).1 h
  refine ⟨v', ix', ?_, rfl⟩
  simp only [runs_bind, runs_ite, runs_throw, Index.runs_current] at hr
  split at hr
  · obtain ⟨_, _, hf, -⟩ := hr
    exact hf.elim
  · obtain ⟨_, _, ⟨rfl, rfl⟩, _, s2, hm, hwb⟩ := hr
    rw [Index.runs_modifyIndex] at hm
    subst hm
    exact hwb

end Session

end HashFile
