import HashFile.Proofs.CacheInserts

/-!
# The bucket cache as a table and a queue

The bucket cache of the index keeps one list of entries, oldest first
(`BucketCache`). The cache it stands for keeps two structures: a hash map from
offsets to cached buckets, and a queue of offsets in the order they were first
cached. Eviction pops offsets from the front of the queue while the map holds
more entries than the capacity, sets aside the offset it must keep, drops the
others from the map, and at the end pushes the offsets it set aside back to the
front; when the queue runs dry it stops.

This module states that cache (`CacheTable`) and shows that it is the list
cache in other clothes. The queue names each offset of the map exactly once
and nothing else (`Coherent`), and reading the map along the queue gives the
list (`view`). Every operation keeps the queue coherent and answers what the
list cache answers, and the list it leaves is the one the list cache leaves
(`Coherent.simulates`). So after any operations from an empty cache the table
is coherent and its view is the list cache replayed over them
(`replay_view`), and the laws of the list cache are the laws of the table.

The heart of it is eviction (`evictLoop_view`): a pass that sets an offset
aside and puts it back at the front leaves the queue as the list cache leaves
its list, where the kept entry never moved.
-/
namespace HashFile

/-- A bucket in the cache, with whether it changed since it was written. -/
structure CachedBucket where
  bucket : Bucket
  dirty : Bool

/-- The bucket cache as a map from offsets to buckets and a queue of the
offsets, oldest first. -/
structure CacheTable where
  entries : Std.HashMap Nat CachedBucket
  /-- Insertion order, oldest first. -/
  order : List Nat
  capacity : Nat

namespace CacheTable

/-- An empty cache; a capacity of 0 counts as 1. -/
def new (capacity : Nat) : CacheTable := ⟨∅, [], max capacity 1⟩

/-- Whether a bucket at the offset is cached. -/
def contains (t : CacheTable) (o : Nat) : Bool := t.entries.contains o

/-- The cached bucket at an offset. -/
def get (t : CacheTable) (o : Nat) : Option Bucket := t.entries[o]?.map CachedBucket.bucket

/-- Change a cached bucket, marking it dirty. -/
def update (t : CacheTable) (o : Nat) (f : Bucket → Bucket) : CacheTable :=
  { t with entries := t.entries.modify o fun c => ⟨f c.bucket, true⟩ }

/-- Mark a bucket as written. -/
def markClean (t : CacheTable) (o : Nat) : CacheTable :=
  { t with entries := t.entries.modify o fun c => { c with dirty := false } }

/-- One pass of eviction over the queue `order` of the map `entries`, down to
`capacity` entries and sparing `keep`. The offsets set aside so far are in
`skipped`, latest first, and the dirty buckets dropped so far in `written`,
oldest first. The pass ends when the map is small enough or the queue is empty,
and the offsets set aside go back to the front of the queue in their order. -/
def evictLoop (capacity : Nat) (keep : Option Nat) :
    List Nat → Std.HashMap Nat CachedBucket → List Nat → List (Nat × Bucket) →
      List (Nat × Bucket) × Std.HashMap Nat CachedBucket × List Nat
  | order, entries, skipped, written =>
    if capacity < entries.size then
      match order with
      | [] => (written, entries, skipped.reverse)
      | o :: rest =>
        if some o = keep then evictLoop capacity keep rest entries (o :: skipped) written
        else
          match entries[o]? with
          | some c =>
            evictLoop capacity keep rest (entries.erase o) skipped
              (if c.dirty then written ++ [(o, c.bucket)] else written)
          | none => evictLoop capacity keep rest entries skipped written
    else (written, entries, skipped.reverse ++ order)

/-- Drop the oldest entries other than `keep` until at most `capacity` remain.
Answers the dirty buckets dropped, oldest first. -/
def evictTo (t : CacheTable) (capacity : Nat) (keep : Option Nat) :
    List (Nat × Bucket) × CacheTable :=
  let (written, entries, order) := evictLoop capacity keep t.order t.entries [] []
  (written, { t with entries, order })

/-- Put a bucket in the map; an offset not cached before joins the back of the
queue. -/
def stage (t : CacheTable) (o : Nat) (b : Bucket) (dirty : Bool) : CacheTable :=
  { t with
    entries := t.entries.insert o ⟨b, dirty⟩
    order := if t.entries.contains o then t.order else t.order ++ [o] }

/-- Cache a bucket. Answers the dirty buckets evicted to make room. -/
def insert (t : CacheTable) (o : Nat) (b : Bucket) (dirty : Bool) :
    List (Nat × Bucket) × CacheTable :=
  (t.stage o b dirty).evictTo t.capacity (some o)

/-- Take a bucket out of the cache. -/
def remove (t : CacheTable) (o : Nat) : Option Bucket × CacheTable :=
  (t.get o, { t with order := t.order.filter (· != o), entries := t.entries.erase o })

/-- Change the capacity (at least 1). Answers the dirty buckets that no longer fit. -/
def setCapacity (t : CacheTable) (capacity : Nat) : List (Nat × Bucket) × CacheTable :=
  let t := { t with capacity := max capacity 1 }
  t.evictTo t.capacity none

/-- The dirty buckets, in the order of the queue. -/
def dirty (t : CacheTable) : List (Nat × Bucket) :=
  t.order.filterMap fun o => (t.entries[o]?.filter CachedBucket.dirty).map fun c => (o, c.bucket)

/-- The cache an operation of the owner leaves. -/
def apply : BucketCache.Op → CacheTable → CacheTable
  | .insert o b d, t => (t.insert o b d).2
  | .remove o, t => (t.remove o).2
  | .update o f, t => t.update o f
  | .markClean o, t => t.markClean o
  | .setCapacity n, t => (t.setCapacity n).2

/-- The cache a sequence of operations leaves, from an empty one asked for
capacity `n`. -/
def replay (n : Nat) (ops : List BucketCache.Op) : CacheTable :=
  ops.foldl (fun t op => apply op t) (new n)

/-! ## Reading the map along the queue -/

/-- The entry the map caches at an offset. -/
def entryAt (m : Std.HashMap Nat CachedBucket) (o : Nat) : Option CacheEntry :=
  m[o]?.map fun c => ⟨o, c.bucket, c.dirty⟩

/-- The entries of the map read along a queue. -/
def viewOf (m : Std.HashMap Nat CachedBucket) (q : List Nat) : List CacheEntry :=
  q.filterMap (entryAt m)

/-- The list cache the table stands for: its map read along its queue. -/
def view (t : CacheTable) : BucketCache := ⟨viewOf t.entries t.order, t.capacity⟩

/-- The queue names each offset of the map once, and nothing else. -/
def Coherent (t : CacheTable) : Prop := t.order.Nodup ∧ ∀ o, o ∈ t.entries ↔ o ∈ t.order

section View

variable {m m' : Std.HashMap Nat CachedBucket} {q q' : List Nat} {o : Nat}

theorem viewOf_append : viewOf m (q ++ q') = viewOf m q ++ viewOf m q' := List.filterMap_append

theorem viewOf_cons {c : CachedBucket} (hc : m[o]? = some c) :
    viewOf m (o :: q) = ⟨o, c.bucket, c.dirty⟩ :: viewOf m q := by
  simp [viewOf, entryAt, hc]

/-- Maps that agree along a queue read the same along it. -/
theorem viewOf_congr (h : ∀ x ∈ q, m'[x]? = m[x]?) : viewOf m' q = viewOf m q :=
  List.filterMap_congr fun x hx => by simp only [entryAt, h x hx]

@[simp] theorem viewOf_nil : viewOf m [] = [] := rfl

theorem viewOf_cons_none (hc : m[o]? = none) : viewOf m (o :: q) = viewOf m q := by
  simp [viewOf, entryAt, hc]

theorem viewOf_erase (ho : o ∉ q) : viewOf (m.erase o) q = viewOf m q :=
  viewOf_congr fun x hx => by
    have hne : o ≠ x := by
      rintro rfl
      exact ho hx
    rw [Std.HashMap.getElem?_erase, if_neg (by simpa using hne)]

theorem getElem?_of_mem (ho : o ∈ m) : ∃ c, m[o]? = some c :=
  Option.isSome_iff_exists.1 (Std.HashMap.isSome_getElem?_iff_mem.2 ho)

/-- A queue of offsets the map holds reads back as itself. -/
theorem map_offset_viewOf (hq : ∀ x ∈ q, x ∈ m) : (viewOf m q).map CacheEntry.offset = q := by
  induction q with
  | nil => rfl
  | cons x q ih =>
    obtain ⟨c, hc⟩ := getElem?_of_mem (hq x List.mem_cons_self)
    rw [viewOf_cons hc, List.map_cons, ih fun y hy => hq y (List.mem_cons_of_mem x hy)]

/-- Caching at an offset the map holds replaces its entry in place. -/
theorem viewOf_insert_of_mem (hq : ∀ x ∈ q, x ∈ m) (b : Bucket) (d : Bool) :
    viewOf (m.insert o ⟨b, d⟩) q =
      (viewOf m q).map fun e => if e.offset == o then ⟨o, b, d⟩ else e := by
  induction q with
  | nil => rfl
  | cons x q ih =>
    obtain ⟨c, hc⟩ := getElem?_of_mem (hq x List.mem_cons_self)
    have hx : (m.insert o ⟨b, d⟩)[x]? = if o = x then some ⟨b, d⟩ else some c := by
      rw [Std.HashMap.getElem?_insert, hc]
      simp
    rw [viewOf_cons hc, List.map_cons, ← ih fun y hy => hq y (List.mem_cons_of_mem x hy)]
    by_cases hox : o = x
    · subst hox
      rw [if_pos rfl] at hx
      rw [viewOf_cons hx]
      simp
    · rw [if_neg hox] at hx
      rw [viewOf_cons hx]
      simp [Ne.symm hox]

/-- Caching at an offset off the queue leaves the queue's reading alone. -/
theorem viewOf_insert_of_not_mem (ho : o ∉ q) (x : CachedBucket) : viewOf (m.insert o x) q = viewOf m q :=
  viewOf_congr fun y hy => by
    have hne : o ≠ y := by
      rintro rfl
      exact ho hy
    rw [Std.HashMap.getElem?_insert, if_neg (by simpa using hne)]

/-- Changing the bucket at an offset changes its entry in place. -/
theorem viewOf_modify (g : CachedBucket → CachedBucket) :
    viewOf (m.modify o g) q = (viewOf m q).map fun e =>
      if e.offset == o then ⟨o, (g ⟨e.bucket, e.dirty⟩).bucket, (g ⟨e.bucket, e.dirty⟩).dirty⟩ else e := by
  induction q with
  | nil => rfl
  | cons x q ih =>
    cases hc : m[x]? with
    | none =>
      have hx : (m.modify o g)[x]? = none := by
        rw [Std.HashMap.getElem?_modify]
        split <;> simp_all
      rw [viewOf_cons_none hx, viewOf_cons_none hc, ih]
    | some c =>
      by_cases hox : o = x
      · subst hox
        have hx : (m.modify o g)[o]? = some (g c) := by
          rw [Std.HashMap.getElem?_modify, hc]
          simp
        rw [viewOf_cons hx, viewOf_cons hc, List.map_cons, ih]
        simp
      · have hx : (m.modify o g)[x]? = some c := by
          rw [Std.HashMap.getElem?_modify, if_neg (by simpa using hox), hc]
        rw [viewOf_cons hx, viewOf_cons hc, List.map_cons, ih]
        simp [Ne.symm hox]

/-- Taking an offset out of the map and the queue filters its entry out. -/
theorem viewOf_erase_filter :
    viewOf (m.erase o) (q.filter (· != o)) = (viewOf m q).filter fun e => e.offset != o := by
  induction q with
  | nil => rfl
  | cons x q ih =>
    by_cases hxo : x = o
    · subst hxo
      rw [List.filter_cons, if_neg (by simp), ih]
      cases hc : m[x]? with
      | none => rw [viewOf_cons_none hc]
      | some c => simp [viewOf_cons hc]
    · have hne : (x != o) = true := by simpa using hxo
      have hx : (m.erase o)[x]? = m[x]? := by
        rw [Std.HashMap.getElem?_erase, if_neg (by simpa using Ne.symm hxo)]
      rw [List.filter_cons, if_pos hne]
      cases hc : m[x]? with
      | none =>
        rw [hc] at hx
        rw [viewOf_cons_none hx, viewOf_cons_none hc, ih]
      | some c =>
        rw [hc] at hx
        rw [viewOf_cons hx, viewOf_cons hc, List.filter_cons, if_pos hne, ih]

/-- Along a queue of offsets the map holds, the first entry of an offset is the
map's. -/
theorem find?_viewOf (hq : ∀ x ∈ q, x ∈ m) (o : Nat) :
    ((viewOf m q).find? fun e => e.offset == o) = if o ∈ q then entryAt m o else none := by
  induction q with
  | nil => simp
  | cons x q ih =>
    obtain ⟨c, hc⟩ := getElem?_of_mem (hq x List.mem_cons_self)
    rw [viewOf_cons hc, List.find?_cons, ih fun y hy => hq y (List.mem_cons_of_mem x hy)]
    by_cases hxo : x = o
    · subst hxo
      simp [entryAt, hc]
    · simp [beq_false_of_ne hxo, Ne.symm hxo]

/-- The dirty buckets read along a queue. -/
theorem dirty_viewOf :
    (q.filterMap fun x => (m[x]?.filter CachedBucket.dirty).map fun c => (x, c.bucket)) =
      ((viewOf m q).filter CacheEntry.dirty).map BucketCache.written := by
  induction q with
  | nil => rfl
  | cons x q ih =>
    cases hc : m[x]? with
    | none => rw [List.filterMap_cons, hc, viewOf_cons_none hc, ih]; rfl
    | some c =>
      rw [List.filterMap_cons, viewOf_cons hc, List.filter_cons, hc, ih]
      cases hd : c.dirty <;> simp [hd, Option.filter, BucketCache.written]

end View

/-! ## Eviction -/

/-- A pass of eviction is the list cache's eviction of the map read along the
queue. It drops what the list cache drops and hands back the same dirty
buckets. The offsets it set aside are back at the front of the queue, so the
queue it leaves is the list the list cache keeps, and the map it leaves reads
along that queue as the list. -/
theorem evictLoop_view (cap : Nat) (keep : Option Nat) :
    ∀ (q : List Nat) (m : Std.HashMap Nat CachedBucket) (sk : List Nat) (out : List (Nat × Bucket)),
      (sk.reverse ++ q).Nodup → (∀ o, o ∈ m ↔ o ∈ sk.reverse ++ q) →
      let r := BucketCache.evictTo.go keep (m.size - cap) (viewOf m q)
      ∃ m', evictLoop cap keep q m sk out = (out ++ r.1, m', sk.reverse ++ r.2.map CacheEntry.offset) ∧
        (∀ o, o ∈ m' ↔ o ∈ sk.reverse ++ r.2.map CacheEntry.offset) ∧
        viewOf m' (sk.reverse ++ r.2.map CacheEntry.offset) = viewOf m sk.reverse ++ r.2
  | [], m, sk, out, _, hmem => by
    refine ⟨m, ?_, by simpa [BucketCache.evictTo.go] using hmem, by simp [BucketCache.evictTo.go]⟩
    unfold evictLoop
    split <;> simp [BucketCache.evictTo.go]
  | o :: q, m, sk, out, hnd, hmem => by
    intro r
    obtain ⟨c, hc⟩ := getElem?_of_mem ((hmem o).2 (by simp))
    have hview : viewOf m (o :: q) = ⟨o, c.bucket, c.dirty⟩ :: viewOf m q := viewOf_cons hc
    by_cases hcap : cap < m.size
    · have hex : m.size - cap ≠ 0 := by omega
      by_cases hk : some o = keep
      · have hsk : (o :: sk).reverse ++ q = sk.reverse ++ o :: q := by simp
        obtain ⟨m', heq, hmem', hview'⟩ :=
          evictLoop_view cap keep q m (o :: sk) out (hsk ▸ hnd) (hsk ▸ hmem)
        have hr : r = ((BucketCache.evictTo.go keep (m.size - cap) (viewOf m q)).1,
            ⟨o, c.bucket, c.dirty⟩ :: (BucketCache.evictTo.go keep (m.size - cap) (viewOf m q)).2) := by
          simp only [r, hview, BucketCache.evictTo.go, hex, hk, if_false, if_true]
        refine ⟨m', ?_, ?_, ?_⟩
        · rw [evictLoop, if_pos hcap]
          simp only [hk, if_true, heq, hr, List.map_cons]
          simp
        · rw [hr]
          simpa using hmem'
        · have hone : viewOf m (o :: sk).reverse = viewOf m sk.reverse ++ [⟨o, c.bucket, c.dirty⟩] := by
            rw [List.reverse_cons, viewOf_append, viewOf_cons hc, viewOf_nil]
          rw [hone, List.reverse_cons, List.append_assoc, List.singleton_append, List.append_assoc,
            List.singleton_append] at hview'
          rw [hr, List.map_cons]
          exact hview'
      · have hnd' : (sk.reverse ++ q).Nodup := by
          simpa using (List.nodup_middle.1 hnd).of_cons
        have hout : o ∉ sk.reverse ++ q := by
          have := List.nodup_middle.1 hnd
          exact (List.nodup_cons.1 this).1
        have hmem1 : ∀ x, x ∈ m.erase o ↔ x ∈ sk.reverse ++ q := by
          intro x
          rw [Std.HashMap.mem_erase, hmem x]
          constructor
          · rintro ⟨hne, hx⟩
            simp only [List.mem_append, List.mem_cons] at hx ⊢
            rcases hx with hx | rfl | hx
            · exact .inl hx
            · simp at hne
            · exact .inr hx
          · intro hx
            have hne : x ≠ o := by
              rintro rfl
              exact hout hx
            refine ⟨beq_false_of_ne hne.symm, ?_⟩
            simp only [List.mem_append, List.mem_cons] at hx ⊢
            tauto
        have hsize : (m.erase o).size - cap = m.size - cap - 1 := by
          rw [Std.HashMap.size_erase, if_pos ((hmem o).2 (by simp))]
          omega
        obtain ⟨m', heq, hmem', hview'⟩ := evictLoop_view cap keep q (m.erase o) sk
          (if c.dirty then out ++ [(o, c.bucket)] else out) hnd' hmem1
        have hq : viewOf (m.erase o) q = viewOf m q :=
          viewOf_erase fun h => hout (List.mem_append_right _ h)
        have hsk : viewOf (m.erase o) sk.reverse = viewOf m sk.reverse :=
          viewOf_erase fun h => hout (List.mem_append_left _ h)
        rw [hsize, hq] at heq hmem' hview'
        rw [hsk] at hview'
        have hr : r = ((if c.dirty then (o, c.bucket) :: (BucketCache.evictTo.go keep (m.size - cap - 1)
              (viewOf m q)).1 else (BucketCache.evictTo.go keep (m.size - cap - 1) (viewOf m q)).1),
            (BucketCache.evictTo.go keep (m.size - cap - 1) (viewOf m q)).2) := by
          simp only [r, hview, BucketCache.evictTo.go, hex, hk, if_false]
        refine ⟨m', ?_, by rw [hr]; exact hmem', by rw [hr]; exact hview'⟩
        rw [evictLoop, if_pos hcap]
        simp only [hk, if_false, hc, heq, hr]
        cases c.dirty <;> simp
    · have hex : m.size - cap = 0 := by omega
      have hr : r = ([], viewOf m (o :: q)) := by
        simp only [r, hview, BucketCache.evictTo.go, hex, if_true]
      have hq : (viewOf m (o :: q)).map CacheEntry.offset = o :: q :=
        map_offset_viewOf fun x hx => (hmem x).2 (List.mem_append_right _ hx)
      refine ⟨m, ?_, ?_, ?_⟩
      · rw [evictLoop, if_neg hcap, hr, hq]
        simp
      · rw [hr, hq]
        exact hmem
      · rw [hr, hq, viewOf_append]

/-! ## A coherent table stands for its view -/

theorem coherent_new (n : Nat) : (new n).Coherent :=
  ⟨List.nodup_nil, fun o => by simp [new]⟩

theorem view_new (n : Nat) : (new n).view = BucketCache.empty n := rfl

namespace Coherent

variable {t : CacheTable}

theorem mem_entries (ht : t.Coherent) {x : Nat} (hx : x ∈ t.order) : x ∈ t.entries := (ht.2 x).2 hx

theorem map_offset_view (ht : t.Coherent) : t.view.entries.map CacheEntry.offset = t.order :=
  map_offset_viewOf fun _ hx => ht.mem_entries hx

theorem distinct (ht : t.Coherent) : t.view.Distinct := by
  unfold BucketCache.Distinct
  rw [ht.map_offset_view]
  exact ht.1

/-- The map holds as many entries as the queue names. -/
theorem size_eq (ht : t.Coherent) : t.entries.size = t.view.entries.length := by
  have hp : t.entries.keys.Perm t.order :=
    (List.perm_ext_iff_of_nodup Std.HashMap.nodup_keys ht.1).2 fun x => by
      rw [Std.HashMap.mem_keys, ht.2]
  rw [← Std.HashMap.length_keys, hp.length_eq, ← ht.map_offset_view, List.length_map]

theorem contains_eq (ht : t.Coherent) (o : Nat) : t.contains o = t.view.contains o := by
  rw [Bool.eq_iff_iff, BucketCache.contains_iff_mem_order, BucketCache.order, ht.map_offset_view,
    contains, Std.HashMap.contains_iff_mem, ht.2]

theorem get_eq (ht : t.Coherent) (o : Nat) : t.get o = t.view.find? o := by
  unfold get BucketCache.find? view
  rw [find?_viewOf fun _ hx => ht.mem_entries hx]
  by_cases ho : o ∈ t.order
  · rw [if_pos ho, entryAt]
    cases t.entries[o]? <;> rfl
  · rw [if_neg ho, Std.HashMap.getElem?_eq_none fun h => ho ((ht.2 o).1 h)]
    rfl

theorem dirty_eq (t : CacheTable) : t.dirty = t.view.dirtyBuckets := dirty_viewOf

/-- Eviction from a coherent table is eviction from its view, and keeps the
table coherent. -/
theorem evictTo (ht : t.Coherent) (cap : Nat) (keep : Option Nat) :
    (t.evictTo cap keep).1 = (t.view.evictTo cap keep).1 ∧
      (t.evictTo cap keep).2.view = (t.view.evictTo cap keep).2 ∧
      (t.evictTo cap keep).2.Coherent := by
  obtain ⟨m', heq, hmem', hview'⟩ := evictLoop_view cap keep t.order t.entries [] []
    (by simpa using ht.1) (by simpa using ht.2)
  simp only [List.reverse_nil, List.nil_append, viewOf_nil] at heq hmem' hview'
  have hgo : t.view.evictTo cap keep =
      ((BucketCache.evictTo.go keep (t.entries.size - cap) (viewOf t.entries t.order)).1,
        ⟨(BucketCache.evictTo.go keep (t.entries.size - cap) (viewOf t.entries t.order)).2,
          t.capacity⟩) := by
    rw [ht.size_eq]
    rfl
  have hsub := ((BucketCache.evictTo_evictsOldest t.view cap keep).sublist).map CacheEntry.offset
  rw [hgo] at hsub
  have hnd := ht.distinct.sublist hsub
  unfold CacheTable.evictTo
  rw [heq, hgo]
  exact ⟨rfl, by simp only [view, hview'], hnd, hmem'⟩

/-- Staging a bucket in a coherent table stages it in the view. -/
theorem stage (ht : t.Coherent) (o : Nat) (b : Bucket) (d : Bool) :
    (t.stage o b d).Coherent ∧ (t.stage o b d).view = ⟨t.view.staged o b d, t.capacity⟩ := by
  have hcv := ht.contains_eq o
  unfold CacheTable.stage BucketCache.staged
  by_cases hc : t.entries.contains o = true
  · have hct : t.contains o = true := hc
    rw [if_pos hc, ← hcv, if_pos hct]
    refine ⟨⟨ht.1, fun x => ?_⟩, ?_⟩
    · rw [Std.HashMap.mem_insert, ← ht.2]
      constructor
      · rintro (h | h)
        · rwa [← beq_iff_eq.1 h]
        · exact h
      · exact .inr
    · simp only [view]
      rw [viewOf_insert_of_mem fun _ hx => ht.mem_entries hx]
  · have hno : o ∉ t.order := fun h => hc (Std.HashMap.contains_iff_mem.2 (ht.mem_entries h))
    have hcf : t.contains o = false := Bool.eq_false_iff.2 hc
    rw [if_neg hc, ← hcv, hcf]
    have hnd : (t.order ++ [o]).Nodup := by
      rw [List.nodup_append]
      exact ⟨ht.1, List.nodup_singleton o, fun a ha b hb hab => hno (by simp_all)⟩
    refine ⟨⟨hnd, fun x => ?_⟩, ?_⟩
    · rw [Std.HashMap.mem_insert, ht.2, List.mem_append, List.mem_singleton]
      constructor
      · rintro (h | h)
        · exact .inr (beq_iff_eq.1 h).symm
        · exact .inl h
      · rintro (h | rfl)
        · exact .inr h
        · exact .inl (beq_self_eq_true _)
    · simp only [view, viewOf_append, viewOf_insert_of_not_mem hno,
        viewOf_cons (show (t.entries.insert o ⟨b, d⟩)[o]? = some ⟨b, d⟩ by simp), viewOf_nil]
      rfl

theorem insert (ht : t.Coherent) (o : Nat) (b : Bucket) (d : Bool) :
    (t.insert o b d).1 = (t.view.insert o b d).1 ∧ (t.insert o b d).2.view = (t.view.insert o b d).2 ∧
      (t.insert o b d).2.Coherent := by
  obtain ⟨hs, hv⟩ := ht.stage o b d
  have h := hs.evictTo t.capacity (some o)
  rw [hv] at h
  exact h

theorem remove (ht : t.Coherent) (o : Nat) :
    (t.remove o).1 = (t.view.remove o).1 ∧ (t.remove o).2.view = (t.view.remove o).2 ∧
      (t.remove o).2.Coherent := by
  refine ⟨ht.get_eq o, by simp only [view, CacheTable.remove, BucketCache.remove, viewOf_erase_filter],
    List.Nodup.filter _ ht.1, fun x => ?_⟩
  simp only [CacheTable.remove, Std.HashMap.mem_erase, List.mem_filter, ht.2, bne_iff_ne, ne_eq,
    beq_eq_false_iff_ne]
  constructor
  · rintro ⟨hne, hx⟩
    exact ⟨hx, Ne.symm hne⟩
  · rintro ⟨hx, hne⟩
    exact ⟨Ne.symm hne, hx⟩

theorem update (ht : t.Coherent) (o : Nat) (f : Bucket → Bucket) :
    (t.update o f).view = t.view.update o f ∧ (t.update o f).Coherent := by
  refine ⟨?_, ht.1, fun x => by rw [CacheTable.update, Std.HashMap.mem_modify, ht.2]⟩
  simp only [view, CacheTable.update, BucketCache.update, viewOf_modify]
  congr 2
  funext e
  by_cases h : e.offset = o
  · simp [h]
  · simp [h]

theorem markClean (ht : t.Coherent) (o : Nat) :
    (t.markClean o).view = t.view.markClean o ∧ (t.markClean o).Coherent := by
  refine ⟨?_, ht.1, fun x => by rw [CacheTable.markClean, Std.HashMap.mem_modify, ht.2]⟩
  simp only [view, CacheTable.markClean, BucketCache.markClean, viewOf_modify]
  congr 2
  funext e
  by_cases h : e.offset = o
  · simp [h]
  · simp [h]

theorem setCapacity (ht : t.Coherent) (n : Nat) :
    (t.setCapacity n).1 = (t.view.setCapacity n).1 ∧
      (t.setCapacity n).2.view = (t.view.setCapacity n).2 ∧ (t.setCapacity n).2.Coherent :=
  evictTo (t := { t with capacity := max n 1 }) ht (max n 1) none

/-- Every operation keeps a table coherent, and its view is the view operated
on. -/
theorem apply (ht : t.Coherent) : ∀ op : BucketCache.Op,
    (CacheTable.apply op t).Coherent ∧ (CacheTable.apply op t).view = op.apply t.view
  | .insert o b d => ⟨(ht.insert o b d).2.2, (ht.insert o b d).2.1⟩
  | .remove o => ⟨(ht.remove o).2.2, (ht.remove o).2.1⟩
  | .update o f => ⟨(ht.update o f).2, (ht.update o f).1⟩
  | .markClean o => ⟨(ht.markClean o).2, (ht.markClean o).1⟩
  | .setCapacity n => ⟨(ht.setCapacity n).2.2, (ht.setCapacity n).2.1⟩

end Coherent

/-- After any operations from an empty cache, the table is coherent and stands
for the list cache replayed over them. -/
theorem replay_view (n : Nat) (ops : List BucketCache.Op) :
    (replay n ops).Coherent ∧ (replay n ops).view = BucketCache.replay n ops := by
  unfold replay BucketCache.replay
  suffices ∀ (t : CacheTable) (c : BucketCache), t.Coherent → t.view = c →
      (ops.foldl (fun t op => apply op t) t).Coherent ∧
        (ops.foldl (fun t op => apply op t) t).view = ops.foldl (fun c op => op.apply c) c from
    this _ _ (coherent_new n) (view_new n)
  induction ops with
  | nil => exact fun t c ht hv => ⟨ht, hv⟩
  | cons op ops ih =>
    intro t c ht hv
    obtain ⟨ht', hv'⟩ := ht.apply op
    exact ih _ _ ht' (hv ▸ hv')

/-- What a table does, read against the list cache it stands for: the queue
names each cached offset exactly once and nothing else, the map holds as many
entries as the list, and every operation answers what the list cache answers
and leaves the list the list cache leaves. -/
structure Simulates (t : CacheTable) : Prop where
  queue : ∀ o, t.order.count o = if t.contains o then 1 else 0
  size : t.entries.size = t.view.entries.length
  get : ∀ o, t.get o = t.view.find? o
  dirty : t.dirty = t.view.dirtyBuckets
  insert : ∀ o b d, (t.insert o b d).1 = (t.view.insert o b d).1 ∧
    (t.insert o b d).2.view = (t.view.insert o b d).2
  remove : ∀ o, (t.remove o).1 = (t.view.remove o).1 ∧ (t.remove o).2.view = (t.view.remove o).2
  setCapacity : ∀ n, (t.setCapacity n).1 = (t.view.setCapacity n).1 ∧
    (t.setCapacity n).2.view = (t.view.setCapacity n).2
  apply : ∀ op, (apply op t).view = op.apply t.view

theorem Coherent.simulates {t : CacheTable} (ht : t.Coherent) : t.Simulates where
  queue o := by
    rw [List.Nodup.count ht.1]
    exact if_congr ((ht.2 o).symm.trans Std.HashMap.contains_iff_mem.symm) rfl rfl
  size := ht.size_eq
  get := ht.get_eq
  dirty := Coherent.dirty_eq t
  insert o b d := ⟨(ht.insert o b d).1, (ht.insert o b d).2.1⟩
  remove o := ⟨(ht.remove o).1, (ht.remove o).2.1⟩
  setCapacity n := ⟨(ht.setCapacity n).1, (ht.setCapacity n).2.1⟩
  apply op := (ht.apply op).2

/-- The bucket cache kept as a map and a queue, after any operations from an
empty cache, reads against the list cache replayed over the same operations
and obeys its laws; and the index caches a bucket only at an offset the cache
does not hold. -/
theorem replay_obeys_laws :
    (∀ (n : Nat) (ops : List BucketCache.Op), (replay n ops).Simulates ∧
      (replay n ops).view = BucketCache.replay n ops ∧ (BucketCache.replay n ops).Laws) ∧
      Index.InsertsFresh := by
  refine ⟨fun n ops => ?_, Index.insertsFresh⟩
  obtain ⟨ht, hv⟩ := replay_view n ops
  exact ⟨ht.simulates, hv, (BucketCache.wf_replay n ops).laws⟩

end CacheTable

end HashFile
