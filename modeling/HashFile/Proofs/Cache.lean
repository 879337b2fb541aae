import HashFile.BucketCache
import Mathlib

/-!
# The bucket cache by its entries

Every operation of the cache is described here by the entries it leaves,
read as a set: with one entry per offset (`Distinct`), an entry is the cached
state of its offset, and `find?` answers its bucket.

Eviction is the one operation that loses entries. `evictTo_spec` says which:
the entries split into those kept and those dropped, no dropped entry is the
one to keep, and what is handed back to be written are exactly the dirty ones
dropped. Inserting replaces the entry of its offset or adds one, and always
keeps it (`insert_spec`).
-/
namespace HashFile

namespace BucketCache

/-- An evicted entry as it is handed back: its offset and bucket. -/
def written (e : CacheEntry) : Nat × Bucket := (e.offset, e.bucket)

@[simp] theorem written_fst (e : CacheEntry) : (written e).1 = e.offset := rfl

@[simp] theorem written_snd (e : CacheEntry) : (written e).2 = e.bucket := rfl

/-- One entry per offset. -/
def Distinct (c : BucketCache) : Prop := (c.entries.map CacheEntry.offset).Nodup

theorem find?_of_mem {c : BucketCache} (hd : c.Distinct) {e : CacheEntry} (he : e ∈ c.entries) :
    c.find? e.offset = some e.bucket := by
  unfold find?
  obtain ⟨pre, post, hsplit⟩ := List.append_of_mem he
  unfold Distinct at hd
  rw [hsplit, List.map_append, List.map_cons, List.nodup_append] at hd
  rw [hsplit]
  have hpre : ∀ x ∈ pre, (x.offset == e.offset) = false := by
    intro x hx
    have := hd.2.2 x.offset (List.mem_map_of_mem hx) e.offset List.mem_cons_self
    simpa using this
  rw [List.find?_append, List.find?_eq_none.2 (by simpa using hpre)]
  simp

theorem find?_eq_none {c : BucketCache} {o : Nat} (h : ∀ e ∈ c.entries, e.offset ≠ o) :
    c.find? o = none := by
  unfold find?
  rw [List.find?_eq_none.2 (by simpa using h)]
  rfl

/-- The bucket cached at an offset is the bucket of an entry there. -/
theorem mem_of_find? {c : BucketCache} {o : Nat} {b : Bucket} (h : c.find? o = some b) :
    ∃ e ∈ c.entries, e.offset = o ∧ e.bucket = b := by
  unfold find? at h
  obtain ⟨e, he, rfl⟩ := Option.map_eq_some_iff.1 h
  exact ⟨e, List.mem_of_find?_eq_some he, by simpa using List.find?_some he, rfl⟩

/-! ## Eviction -/

theorem go_spec (keep : Option Nat) : ∀ (excess : Nat) (l : List CacheEntry),
    ∃ dropped, l.Perm ((evictTo.go keep excess l).2 ++ dropped) ∧
      (evictTo.go keep excess l).1 = (dropped.filter CacheEntry.dirty).map written ∧
      ∀ e ∈ dropped, some e.offset ≠ keep
  | _, [] => ⟨[], by simp [evictTo.go]⟩
  | excess, e :: rest => by
    by_cases h0 : excess = 0
    · subst h0
      exact ⟨[], by simp [evictTo.go]⟩
    · by_cases hk : some e.offset = keep
      · obtain ⟨dropped, hp, hout, hne⟩ := go_spec keep excess rest
        refine ⟨dropped, ?_, ?_, hne⟩
        · simp only [evictTo.go, h0, hk, if_true, if_false, List.cons_append]
          exact hp.cons e
        · simp only [evictTo.go, h0, hk, if_true, if_false]
          exact hout
      · obtain ⟨dropped, hp, hout, hne⟩ := go_spec keep (excess - 1) rest
        refine ⟨e :: dropped, ?_, ?_, ?_⟩
        · simp only [evictTo.go, h0, hk, if_false]
          exact (hp.cons e).trans List.perm_middle.symm
        · simp only [evictTo.go, h0, hk, if_false, List.filter_cons]
          cases e.dirty <;> simp [hout, written]
        · intro x hx
          rcases List.mem_cons.1 hx with rfl | hx
          · exact hk
          · exact hne x hx

/-- What eviction keeps, drops and hands back. -/
theorem evictTo_spec (c : BucketCache) (capacity : Nat) (keep : Option Nat) :
    ∃ dropped, c.entries.Perm ((c.evictTo capacity keep).2.entries ++ dropped) ∧
      (c.evictTo capacity keep).1 = (dropped.filter CacheEntry.dirty).map written ∧
      (∀ e ∈ dropped, some e.offset ≠ keep) ∧
      (c.evictTo capacity keep).2.capacity = c.capacity :=
  let ⟨dropped, hp, hout, hne⟩ := go_spec keep (c.entries.length - capacity) c.entries
  ⟨dropped, hp, hout, hne, rfl⟩

theorem Distinct.perm {l l' : List CacheEntry} (hd : (l.map CacheEntry.offset).Nodup)
    (hp : l.Perm l') : (l'.map CacheEntry.offset).Nodup :=
  (hp.map _).nodup_iff.1 hd

/-! ## Insertion, removal and updates -/

/-- The entries an insertion starts from, before eviction. -/
theorem mem_insert_entries {c : BucketCache} {o : Nat} {b : Bucket} {d : Bool} {x : CacheEntry} :
    x ∈ (if c.contains o then
        c.entries.map fun e => if e.offset == o then ⟨o, b, d⟩ else e
      else c.entries ++ [⟨o, b, d⟩]) ↔ x = ⟨o, b, d⟩ ∨ (x ∈ c.entries ∧ x.offset ≠ o) := by
  split
  · next hc =>
    obtain ⟨e0, he0, he0o⟩ := List.any_eq_true.1 hc
    simp only [List.mem_map]
    constructor
    · rintro ⟨e, he, rfl⟩
      by_cases heo : e.offset = o
      · simp [heo]
      · simp [heo, he]
    · rintro (rfl | ⟨hx, hxo⟩)
      · exact ⟨e0, he0, by simp [he0o]⟩
      · exact ⟨x, hx, by simp [hxo]⟩
  · next hc =>
    simp only [contains, List.any_eq_true, beq_iff_eq, not_exists, not_and] at hc
    simp only [List.mem_append, List.mem_singleton]
    constructor
    · rintro (hx | rfl)
      · exact .inr ⟨hx, hc x hx⟩
      · exact .inl rfl
    · rintro (rfl | ⟨hx, -⟩)
      · exact .inr rfl
      · exact .inl hx

theorem distinct_insert_entries {c : BucketCache} (hd : c.Distinct) (o : Nat) (b : Bucket)
    (d : Bool) :
    ((if c.contains o then
        c.entries.map fun e => if e.offset == o then ⟨o, b, d⟩ else e
      else c.entries ++ [⟨o, b, d⟩]).map CacheEntry.offset).Nodup := by
  split
  · rw [List.map_map]
    have : (CacheEntry.offset ∘ fun e : CacheEntry => if e.offset == o then ⟨o, b, d⟩ else e) =
        CacheEntry.offset := by
      funext e
      by_cases h : e.offset = o <;> simp [h]
    rw [this]
    exact hd
  · next hc =>
    simp only [contains, List.any_eq_true, beq_iff_eq, not_exists, not_and] at hc
    rw [List.map_append, List.nodup_append]
    refine ⟨hd, by simp, ?_⟩
    intro a ha b' hb
    simp only [List.map_cons, List.map_nil, List.mem_singleton] at hb
    obtain ⟨x, hx, rfl⟩ := List.mem_map.1 ha
    exact hb ▸ hc x hx

/-- Inserting keeps the new entry, drops no entry of its offset, and hands back
the dirty entries it evicts. -/
theorem insert_spec (c : BucketCache) (o : Nat) (b : Bucket) (d : Bool) :
    ∃ dropped, (∀ x, x ∈ (c.insert o b d).2.entries ∨ x ∈ dropped ↔
        x = ⟨o, b, d⟩ ∨ (x ∈ c.entries ∧ x.offset ≠ o)) ∧
      (c.Distinct → (c.insert o b d).2.Distinct ∧
        (((c.insert o b d).2.entries ++ dropped).map CacheEntry.offset).Nodup) ∧
      (c.insert o b d).1 = (dropped.filter CacheEntry.dirty).map written ∧
      (∀ e ∈ dropped, e.offset ≠ o) ∧ (c.insert o b d).2.capacity = c.capacity := by
  simp only [insert]
  obtain ⟨dropped, hp, hout, hne, hcap⟩ := evictTo_spec
    { c with entries := if c.contains o then
        c.entries.map fun e => if e.offset == o then ⟨o, b, d⟩ else e
      else c.entries ++ [⟨o, b, d⟩] } c.capacity (some o)
  refine ⟨dropped, fun x => ?_, fun hd => ?_, hout, fun e he h => hne e he (by rw [h]), hcap⟩
  · rw [← List.mem_append, ← hp.mem_iff]
    exact mem_insert_entries
  · have := Distinct.perm (distinct_insert_entries hd o b d) hp
    exact ⟨(List.nodup_append.1 (by simpa using this)).1, this⟩

/-- What was just inserted is found. -/
theorem find?_insert {c : BucketCache} (hd : c.Distinct) (o : Nat) (b : Bucket) (d : Bool) :
    (c.insert o b d).2.find? o = some b := by
  obtain ⟨dropped, hmem, hdist, -, hne, -⟩ := insert_spec c o b d
  have hin : (⟨o, b, d⟩ : CacheEntry) ∈ (c.insert o b d).2.entries :=
    ((hmem _).2 (.inl rfl)).resolve_right fun h => hne _ h rfl
  exact find?_of_mem (hdist hd).1 hin

theorem mem_remove {c : BucketCache} {o : Nat} {x : CacheEntry} :
    x ∈ (c.remove o).2.entries ↔ x ∈ c.entries ∧ x.offset ≠ o := by
  simp [remove]

/-- Taking a bucket out of the cache leaves the others. -/
theorem find?_remove (c : BucketCache) (o x : Nat) :
    (c.remove o).2.find? x = if x = o then none else c.find? x := by
  unfold find? remove
  rw [List.find?_filter]
  by_cases h : x = o
  · subst h
    rw [if_pos rfl, List.find?_eq_none.2 fun e _ => by by_cases he : e.offset = x <;> simp [he]]
    rfl
  · rw [if_neg h]
    congr 2
    funext e
    by_cases he : e.offset = x
    · simp [he, h]
    · simp [he]

theorem Distinct.remove {c : BucketCache} (hd : c.Distinct) (o : Nat) : (c.remove o).2.Distinct :=
  hd.sublist (List.Sublist.map _ List.filter_sublist)

theorem mem_update {c : BucketCache} {o : Nat} {f : Bucket → Bucket} {x : CacheEntry} :
    x ∈ (c.update o f).entries ↔
      ∃ e ∈ c.entries, x = if e.offset = o then { e with bucket := f e.bucket, dirty := true }
        else e := by
  simp only [update, List.mem_map, beq_iff_eq]
  constructor
  · rintro ⟨e, he, rfl⟩; exact ⟨e, he, rfl⟩
  · rintro ⟨e, he, rfl⟩; exact ⟨e, he, rfl⟩

/-- After a change at `o`, the cache answers the changed bucket there and the
same buckets elsewhere. -/
theorem find?_update (c : BucketCache) (o : Nat) (f : Bucket → Bucket) (x : Nat) :
    (c.update o f).find? x = if x = o then (c.find? o).map f else c.find? x := by
  unfold find? update
  rw [List.find?_map]
  have hp : ((fun e : CacheEntry => e.offset == x) ∘ fun e =>
      if e.offset == o then { e with bucket := f e.bucket, dirty := true } else e) =
      fun e => e.offset == x := by
    funext e
    by_cases h : e.offset = o <;> simp [h]
  rw [hp]
  by_cases hxo : x = o
  · subst hxo
    cases h : c.entries.find? (fun e => e.offset == x) with
    | none => simp
    | some e =>
      have he : e.offset = x := by simpa using List.find?_some h
      simp [he]
  · cases h : c.entries.find? (fun e => e.offset == x) with
    | none => simp [hxo]
    | some e =>
      have he : e.offset = x := by simpa using List.find?_some h
      simp [he, hxo]

theorem offsets_update (c : BucketCache) (o : Nat) (f : Bucket → Bucket) :
    (c.update o f).entries.map CacheEntry.offset = c.entries.map CacheEntry.offset := by
  simp only [update, List.map_map]
  congr 1
  funext e
  by_cases h : e.offset = o <;> simp [h]

theorem offsets_markClean (c : BucketCache) (o : Nat) :
    (c.markClean o).entries.map CacheEntry.offset = c.entries.map CacheEntry.offset := by
  simp only [markClean, List.map_map]
  congr 1
  funext e
  by_cases h : e.offset = o <;> simp [h]

/-- Marking a bucket clean changes no bucket the cache answers. -/
theorem find?_markClean (c : BucketCache) (o x : Nat) : (c.markClean o).find? x = c.find? x := by
  unfold find? markClean
  rw [List.find?_map]
  have hp : ((fun e : CacheEntry => e.offset == x) ∘ fun e =>
      if e.offset == o then { e with dirty := false } else e) = fun e => e.offset == x := by
    funext e
    by_cases h : e.offset = o <;> simp [h]
  rw [hp]
  cases c.entries.find? (fun e => e.offset == x) with
  | none => rfl
  | some e => by_cases h : e.offset = o <;> simp [h]

theorem mem_markClean {c : BucketCache} {o : Nat} {x : CacheEntry} :
    x ∈ (c.markClean o).entries ↔
      ∃ e ∈ c.entries, x = if e.offset = o then { e with dirty := false } else e := by
  simp only [markClean, List.mem_map, beq_iff_eq]
  constructor
  · rintro ⟨e, he, rfl⟩; exact ⟨e, he, rfl⟩
  · rintro ⟨e, he, rfl⟩; exact ⟨e, he, rfl⟩

theorem mem_dirtyBuckets {c : BucketCache} {p : Nat × Bucket} :
    p ∈ c.dirtyBuckets ↔ ∃ e ∈ c.entries, e.dirty = true ∧ p = written e := by
  simp only [dirtyBuckets, List.mem_map, List.mem_filter, written]
  constructor
  · rintro ⟨e, ⟨he, hd⟩, rfl⟩; exact ⟨e, he, hd, rfl⟩
  · rintro ⟨e, he, hd, rfl⟩; exact ⟨e, ⟨he, hd⟩, rfl⟩

/-- After the offsets of a list are marked clean, a dirty entry is one that
was dirty before, at an offset the list does not name. -/
theorem dirty_foldl_markClean {P : List (Nat × Bucket)} {c : BucketCache} {e : CacheEntry}
    (he : e ∈ (P.foldl (fun c p => c.markClean p.1) c).entries) (hd : e.dirty = true) :
    e ∈ c.entries ∧ e.offset ∉ P.map Prod.fst := by
  induction P generalizing c with
  | nil => exact ⟨he, by simp⟩
  | cons p P ih =>
    obtain ⟨he1, hP⟩ := ih he
    obtain ⟨e0, he0, rfl⟩ := mem_markClean.1 he1
    by_cases h : e0.offset = p.1
    · simp [h] at hd
    · simp only [h, if_false] at hP ⊢
      exact ⟨he0, by simp [h, hP]⟩

/-- The dirty buckets of a cache sit at distinct offsets. -/
theorem Distinct.dirtyBuckets {c : BucketCache} (hd : c.Distinct) :
    (c.dirtyBuckets.map Prod.fst).Nodup := by
  simp only [BucketCache.dirtyBuckets, List.map_map]
  exact hd.sublist (List.filter_sublist.map _)

end BucketCache

end HashFile
