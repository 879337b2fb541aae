import HashFile.Proofs.Cache

/-!
# The bucket cache as a queue

The cache keeps one list of entries, oldest first. The list is at once the map
from offsets to buckets that lookups read and the queue that eviction empties
from its front. This module shows that the list stays fit for both roles after
any sequence of operations from an empty cache (`Wf`, `wf_replay`):
- each offset appears once;
- the capacity is at least one;
- the entries fit within the capacity.

Eviction is described by the entries it takes (`EvictsOldest`): it drops
entries from a front part of the list, sparing the one it must keep. It drops
as many as the excess over the capacity asks for, or every entry that may go.
The rest stays unchanged and in order.

From this it follows that an insertion never evicts what it inserts and leaves
the cache within its capacity, and that lowering the capacity leaves the cache
within the new one. The queue only loses offsets, apart from a new one joining
at the back (`order_apply`). The dirty buckets are read along the queue
(`Distinct.dirtyBuckets_eq`).
-/
namespace HashFile

namespace BucketCache

/-! ## The queue and the map -/

/-- The cached offsets in the order eviction visits them, oldest first. -/
def order (c : BucketCache) : List Nat := c.entries.map CacheEntry.offset

/-- The entry cached at an offset. -/
def lookup (c : BucketCache) (o : Nat) : Option CacheEntry :=
  c.entries.find? fun e => e.offset == o

theorem contains_iff_mem_order {c : BucketCache} {o : Nat} :
    c.contains o = true ↔ o ∈ c.order := by
  simp [contains, order]

theorem contains_eq_false {c : BucketCache} {o : Nat} (h : ∀ e ∈ c.entries, e.offset ≠ o) :
    c.contains o = false := by
  simpa [contains] using h

/-- A miss is an offset the cache does not hold. -/
theorem contains_eq_false_of_find? {c : BucketCache} {o : Nat} (h : c.find? o = none) :
    c.contains o = false := by
  unfold find? at h
  rw [Option.map_eq_none_iff, List.find?_eq_none] at h
  exact contains_eq_false fun e he heq => h e he (by simp [heq])

/-- With one entry per offset, the queue names each cached offset once and
nothing else. -/
theorem Distinct.count_order {c : BucketCache} (hd : c.Distinct) (o : Nat) :
    c.order.count o = if c.contains o then 1 else 0 := by
  rw [List.Nodup.count (show c.order.Nodup from hd)]
  simp only [← contains_iff_mem_order]

theorem Distinct.lookup_of_mem {c : BucketCache} (hd : c.Distinct) {e : CacheEntry}
    (he : e ∈ c.entries) : c.lookup e.offset = some e := by
  obtain ⟨pre, post, hsplit⟩ := List.append_of_mem he
  unfold Distinct at hd
  rw [hsplit, List.map_append, List.map_cons, List.nodup_append] at hd
  have hpre : ∀ x ∈ pre, (x.offset == e.offset) = false := by
    intro x hx
    have := hd.2.2 x.offset (List.mem_map_of_mem hx) e.offset List.mem_cons_self
    simpa using this
  unfold lookup
  rw [hsplit, List.find?_append, List.find?_eq_none.2 (by simpa using hpre)]
  simp

/-- The dirty buckets of the entries of a list, each of which the cache looks
up at its offset, read along the list's offsets. -/
theorem dirty_along {c : BucketCache} {l : List CacheEntry}
    (hl : ∀ e ∈ l, c.lookup e.offset = some e) :
    (l.filter CacheEntry.dirty).map written =
      (l.map CacheEntry.offset).filterMap fun o => ((c.lookup o).filter CacheEntry.dirty).map written := by
  induction l with
  | nil => rfl
  | cons e l ih =>
    rw [List.map_cons, List.filterMap_cons, hl e List.mem_cons_self,
      ← ih fun x hx => hl x (List.mem_cons_of_mem e hx)]
    cases hdirty : e.dirty <;> simp [hdirty, Option.filter]

/-- The dirty buckets are those the queue's offsets look up, when dirty, in
the queue's order. -/
theorem Distinct.dirtyBuckets_eq {c : BucketCache} (hd : c.Distinct) :
    c.dirtyBuckets =
      c.order.filterMap fun o => ((c.lookup o).filter CacheEntry.dirty).map written :=
  dirty_along fun _ he => hd.lookup_of_mem he

/-! ## Eviction takes the oldest entries -/

/-- Whether eviction must spare an entry. -/
def spared (keep : Option Nat) (e : CacheEntry) : Bool := decide (some e.offset = keep)

/-- Eviction from `l` down to `cap` entries, sparing `keep`, answered `out`
and left `kept`. It took the entries other than `keep` from a front part of
the list, as many as the excess over `cap` or every one that could go. It left
the rest as it was and in order, and handed back the dirty ones it took. -/
def EvictsOldest (keep : Option Nat) (cap : Nat) (l : List CacheEntry)
    (out : List (Nat × Bucket)) (kept : List CacheEntry) : Prop :=
  ∃ front back, l = front ++ back ∧ kept = front.filter (spared keep) ++ back ∧
    out = ((front.filter (!spared keep ·)).filter CacheEntry.dirty).map written ∧
    (front.filter (!spared keep ·)).length = min (l.length - cap) (l.filter (!spared keep ·)).length

theorem go_evictsOldest (keep : Option Nat) : ∀ (excess : Nat) (l : List CacheEntry),
    ∃ front back, l = front ++ back ∧
      (evictTo.go keep excess l).2 = front.filter (spared keep) ++ back ∧
      (evictTo.go keep excess l).1 =
        ((front.filter (!spared keep ·)).filter CacheEntry.dirty).map written ∧
      (front.filter (!spared keep ·)).length = min excess (l.filter (!spared keep ·)).length
  | _, [] => ⟨[], [], by simp [evictTo.go]⟩
  | excess, e :: rest => by
    by_cases h0 : excess = 0
    · subst h0
      exact ⟨[], e :: rest, by simp [evictTo.go]⟩
    by_cases hk : some e.offset = keep
    · have hs : spared keep e = true := decide_eq_true hk
      obtain ⟨front, back, hl, hkept, hout, hlen⟩ := go_evictsOldest keep excess rest
      refine ⟨e :: front, back, by rw [hl, List.cons_append], ?_, ?_, ?_⟩
      · simp only [evictTo.go, h0, hk, if_true, if_false, hkept, List.filter_cons, hs,
          List.cons_append]
      · simp only [evictTo.go, h0, hk, if_true, if_false, hout, List.filter_cons, hs,
          Bool.not_true, Bool.false_eq_true]
      · simp only [List.filter_cons, hs, Bool.not_true, Bool.false_eq_true, if_false, hlen]
    · have hs : spared keep e = false := decide_eq_false hk
      obtain ⟨front, back, hl, hkept, hout, hlen⟩ := go_evictsOldest keep (excess - 1) rest
      refine ⟨e :: front, back, by rw [hl, List.cons_append], ?_, ?_, ?_⟩
      · simp only [evictTo.go, h0, hk, if_false, hkept, List.filter_cons, hs,
          Bool.false_eq_true]
      · simp only [evictTo.go, h0, hk, if_false, hout, List.filter_cons, hs, Bool.not_false,
          if_true]
        cases e.dirty <;> simp [written]
      · simp only [List.filter_cons, hs, Bool.not_false, if_true, List.length_cons, hlen]
        omega

theorem evictTo_evictsOldest (c : BucketCache) (cap : Nat) (keep : Option Nat) :
    EvictsOldest keep cap c.entries (c.evictTo cap keep).1 (c.evictTo cap keep).2.entries :=
  go_evictsOldest keep (c.entries.length - cap) c.entries

section EvictsOldest

variable {keep : Option Nat} {cap : Nat} {l kept : List CacheEntry} {out : List (Nat × Bucket)}

theorem EvictsOldest.sublist (h : EvictsOldest keep cap l out kept) : kept.Sublist l := by
  obtain ⟨front, back, rfl, rfl, -⟩ := h
  exact (List.filter_sublist).append (List.Sublist.refl back)

/-- Eviction keeps what it does not take: the entries it took and those it
kept make up the list. -/
theorem EvictsOldest.length_add (h : EvictsOldest keep cap l out kept) :
    kept.length + min (l.length - cap) (l.filter (!spared keep ·)).length = l.length := by
  obtain ⟨front, back, rfl, rfl, -, hlen⟩ := h
  have hsplit := front.length_eq_length_filter_add (spared keep)
  rw [← hlen, List.length_append, List.length_append]
  omega

/-- Eviction reaches the capacity when enough entries may go. -/
theorem EvictsOldest.length_le (h : EvictsOldest keep cap l out kept)
    (henough : l.length - cap ≤ (l.filter (!spared keep ·)).length) : kept.length ≤ cap := by
  have := h.length_add
  omega

end EvictsOldest

/-- In a list with one entry per offset, at most one entry is spared. -/
theorem length_filter_spared_le {l : List CacheEntry} (hd : (l.map CacheEntry.offset).Nodup)
    (o : Nat) : (l.filter (spared (some o))).length ≤ 1 := by
  have hnd : ((l.filter (spared (some o))).map CacheEntry.offset).Nodup :=
    hd.sublist (List.filter_sublist.map _)
  have hall : ∀ x ∈ (l.filter (spared (some o))).map CacheEntry.offset, o = x := by
    intro x hx
    obtain ⟨e, he, rfl⟩ := List.mem_map.1 hx
    have := (List.mem_filter.1 he).2
    simp only [spared, decide_eq_true_eq, Option.some.injEq] at this
    exact this.symm
  have hcount := List.count_eq_length.2 hall
  rw [List.length_map] at hcount
  rw [← hcount]
  exact List.nodup_iff_count_le_one.1 hnd o

/-! ## Insertion -/

/-- The entries an insertion evicts from: the entry at its offset replaced in
place, or the new entry added as the newest. -/
def staged (c : BucketCache) (o : Nat) (b : Bucket) (d : Bool) : List CacheEntry :=
  if c.contains o then c.entries.map fun e => if e.offset == o then ⟨o, b, d⟩ else e
  else c.entries ++ [⟨o, b, d⟩]

/-- Staging keeps the queue, adding a new offset at its back. -/
theorem map_offset_staged (c : BucketCache) (o : Nat) (b : Bucket) (d : Bool) :
    (c.staged o b d).map CacheEntry.offset = c.order ++ if c.contains o then [] else [o] := by
  unfold staged order
  split
  · rw [List.map_map, List.append_nil]
    congr 1
    funext e
    by_cases h : e.offset = o <;> simp [h]
  · simp

theorem length_staged (c : BucketCache) (o : Nat) (b : Bucket) (d : Bool) :
    (c.staged o b d).length = c.entries.length + if c.contains o then 0 else 1 := by
  unfold staged
  split <;> simp

/-- The eviction of an insertion takes the oldest entries other than the one
inserted. -/
theorem insert_evictsOldest (c : BucketCache) (o : Nat) (b : Bucket) (d : Bool) :
    EvictsOldest (some o) c.capacity (c.staged o b d) (c.insert o b d).1
      (c.insert o b d).2.entries :=
  evictTo_evictsOldest ⟨c.staged o b d, c.capacity⟩ c.capacity (some o)

/-- An insertion into a cache within its capacity leaves it within it. -/
theorem length_insert_le {c : BucketCache} (hd : c.Distinct) (hpos : 0 < c.capacity)
    (hlen : c.entries.length ≤ c.capacity) (o : Nat) (b : Bucket) (d : Bool) :
    (c.insert o b d).2.entries.length ≤ c.capacity := by
  have hnd : ((c.staged o b d).map CacheEntry.offset).Nodup := distinct_insert_entries hd o b d
  have hone := length_filter_spared_le hnd o
  have hsplit := (c.staged o b d).length_eq_length_filter_add (spared (some o))
  have hstaged := length_staged c o b d
  refine (insert_evictsOldest c o b d).length_le ?_
  split at hstaged <;> omega

/-- An insertion answers what it inserted and hands back no bucket of its offset. -/
theorem find?_insert_self {c : BucketCache} (hd : c.Distinct) (o : Nat) (b : Bucket) (d : Bool) :
    (c.insert o b d).2.find? o = some b ∧ ∀ p ∈ (c.insert o b d).1, p.1 ≠ o := by
  obtain ⟨dropped, hmem, hdist, hout, hne, -⟩ := insert_spec c o b d
  have hnew : (⟨o, b, d⟩ : CacheEntry) ∈ (c.insert o b d).2.entries := by
    rcases (hmem ⟨o, b, d⟩).2 (.inl rfl) with h | h
    · exact h
    · exact absurd rfl (hne _ h)
  refine ⟨find?_of_mem (hdist hd).1 hnew, fun p hp => ?_⟩
  rw [hout] at hp
  obtain ⟨e, he, rfl⟩ := List.mem_map.1 hp
  exact hne e (List.mem_filter.1 he).1

/-- An entry after an insertion is the one inserted or was there before. -/
theorem offset_eq_or_mem_of_insert {c : BucketCache} {o : Nat} {b : Bucket} {d : Bool}
    {x : CacheEntry} (hx : x ∈ (c.insert o b d).2.entries) : x.offset = o ∨ x ∈ c.entries := by
  obtain ⟨dropped, hmem, -⟩ := insert_spec c o b d
  rcases (hmem x).1 (.inl hx) with rfl | ⟨hx, -⟩
  · exact .inl rfl
  · exact .inr hx

/-! ## Changing the capacity -/

/-- Changing the capacity takes the oldest entries, sparing none. -/
theorem setCapacity_evictsOldest (c : BucketCache) (n : Nat) :
    EvictsOldest none (max n 1) c.entries (c.setCapacity n).1 (c.setCapacity n).2.entries :=
  evictTo_evictsOldest { c with capacity := max n 1 } (max n 1) none

theorem length_setCapacity_le (c : BucketCache) (n : Nat) :
    (c.setCapacity n).2.entries.length ≤ max n 1 := by
  refine (setCapacity_evictsOldest c n).length_le ?_
  have hall : c.entries.filter (!spared none ·) = c.entries := List.filter_eq_self.2 fun e _ => by
    simp [spared]
  rw [hall]
  exact Nat.sub_le _ _

/-! ## Operations -/

/-- An operation on the cache, as its owner calls it. -/
inductive Op
  | insert (offset : Nat) (bucket : Bucket) (dirty : Bool)
  | remove (offset : Nat)
  | update (offset : Nat) (f : Bucket → Bucket)
  | markClean (offset : Nat)
  | setCapacity (capacity : Nat)

/-- The cache an operation leaves. -/
def Op.apply : Op → BucketCache → BucketCache
  | .insert o b d, c => (c.insert o b d).2
  | .remove o, c => (c.remove o).2
  | .update o f, c => c.update o f
  | .markClean o, c => c.markClean o
  | .setCapacity n, c => (c.setCapacity n).2

/-- The offset an operation adds to the queue: an insertion's, when it is new. -/
def Op.arrival : Op → BucketCache → List Nat
  | .insert o _ _, c => if c.contains o then [] else [o]
  | _, _ => []

/-- The cache a sequence of operations leaves, from an empty one asked for
capacity `n`. -/
def replay (n : Nat) (ops : List Op) : BucketCache :=
  ops.foldl (fun c op => op.apply c) (empty n)

/-- The queue keeps its order under every operation; only a new offset joins
it, at the back. -/
theorem order_apply (c : BucketCache) : ∀ op : Op, (op.apply c).order.Sublist (c.order ++ op.arrival c)
  | .insert o b d => by
    have h := ((insert_evictsOldest c o b d).sublist).map CacheEntry.offset
    rwa [map_offset_staged] at h
  | .remove o => by
    simp only [Op.apply, Op.arrival, List.append_nil, order, remove]
    exact List.filter_sublist.map _
  | .update o f => by
    simp only [Op.apply, Op.arrival, List.append_nil, order, offsets_update]
    exact List.Sublist.refl _
  | .markClean o => by
    simp only [Op.apply, Op.arrival, List.append_nil, order, offsets_markClean]
    exact List.Sublist.refl _
  | .setCapacity n => by
    simp only [Op.apply, Op.arrival, List.append_nil, order]
    exact (setCapacity_evictsOldest c n).sublist.map _

/-- A cache fit to serve as map and queue: one entry per offset, a capacity of
at least one, and no more entries than it. -/
structure Wf (c : BucketCache) : Prop where
  distinct : c.Distinct
  capacity_pos : 0 < c.capacity
  length_le : c.entries.length ≤ c.capacity

theorem wf_empty (n : Nat) : (empty n).Wf :=
  ⟨List.nodup_nil, by simp [empty], Nat.zero_le _⟩

/-- Every operation keeps a cache fit to serve as map and queue. -/
theorem Wf.apply {c : BucketCache} (hw : c.Wf) : ∀ op : Op, (op.apply c).Wf
  | .insert o b d => by
    obtain ⟨dropped, -, hdist, -, -, hcap⟩ := insert_spec c o b d
    show (c.insert o b d).2.Wf
    exact ⟨(hdist hw.distinct).1, hcap ▸ hw.capacity_pos,
      hcap ▸ length_insert_le hw.distinct hw.capacity_pos hw.length_le o b d⟩
  | .remove o =>
    ⟨hw.distinct.remove o, hw.capacity_pos,
      Nat.le_trans (List.length_filter_le _ _) hw.length_le⟩
  | .update o f =>
    ⟨show ((c.update o f).entries.map _).Nodup by rw [offsets_update]; exact hw.distinct,
      hw.capacity_pos, show (c.update o f).entries.length ≤ c.capacity by
        simpa [update] using hw.length_le⟩
  | .markClean o =>
    ⟨show ((c.markClean o).entries.map _).Nodup by rw [offsets_markClean]; exact hw.distinct,
      hw.capacity_pos, show (c.markClean o).entries.length ≤ c.capacity by
        simpa [markClean] using hw.length_le⟩
  | .setCapacity n =>
    ⟨hw.distinct.sublist ((setCapacity_evictsOldest c n).sublist.map _),
      Nat.lt_of_lt_of_le Nat.zero_lt_one (Nat.le_max_right n 1), length_setCapacity_le c n⟩

/-- After any sequence of operations from an empty cache, the cache is fit to
serve as map and queue. -/
theorem wf_replay (n : Nat) (ops : List Op) : (replay n ops).Wf := by
  unfold replay
  suffices ∀ c : BucketCache, c.Wf → (ops.foldl (fun c op => op.apply c) c).Wf from
    this _ (wf_empty n)
  induction ops with
  | nil => exact fun _ hw => hw
  | cons op ops ih => exact fun c hw => ih _ (hw.apply op)

/-- With room for two, a third bucket pushes out the oldest, and the newest
stays last. -/
example : (replay 2 [.insert 1 (Bucket.empty 0 1) false, .insert 2 (Bucket.empty 0 1) true,
    .insert 3 (Bucket.empty 0 1) false]).order = [2, 3] := by decide

/-! ## The laws of a cache reached by any operations -/

/-- What a cache reached by operations from an empty one does. -/
structure Laws (c : BucketCache) : Prop where
  /-- The queue names each cached offset exactly once, and nothing else. -/
  queue : ∀ o, c.order.count o = if c.contains o then 1 else 0
  capacity_pos : 0 < c.capacity
  length_le : c.entries.length ≤ c.capacity
  /-- An insertion keeps what it inserts, hands back no bucket of its offset
  and leaves the cache within its capacity. -/
  insert : ∀ o b d, (c.insert o b d).2.find? o = some b ∧ (∀ p ∈ (c.insert o b d).1, p.1 ≠ o) ∧
    (c.insert o b d).2.entries.length ≤ (c.insert o b d).2.capacity
  /-- What an insertion evicts are the oldest entries other than the one it
  inserts; the others stay as they were. -/
  insert_evicts : ∀ o b d,
    EvictsOldest (some o) c.capacity (c.staged o b d) (c.insert o b d).1 (c.insert o b d).2.entries
  /-- A new capacity is the one asked for, at least one, and the cache is cut
  down to it from its oldest entries. -/
  setCapacity : ∀ n, (c.setCapacity n).2.capacity = max n 1 ∧
    (c.setCapacity n).2.entries.length ≤ max n 1 ∧
    EvictsOldest none (max n 1) c.entries (c.setCapacity n).1 (c.setCapacity n).2.entries
  /-- No other operation changes the capacity. -/
  capacity_apply : ∀ op : Op, (∀ n, op ≠ .setCapacity n) → (op.apply c).capacity = c.capacity
  /-- The dirty buckets, read along the queue. -/
  dirty : c.dirtyBuckets =
    c.order.filterMap fun o => ((c.lookup o).filter CacheEntry.dirty).map written
  /-- Each operation keeps the queue's order, and only a new offset joins it,
  at the back. -/
  order : ∀ op : Op, (op.apply c).order.Sublist (c.order ++ op.arrival c)

theorem capacity_apply (c : BucketCache) :
    ∀ op : Op, (∀ n, op ≠ .setCapacity n) → (op.apply c).capacity = c.capacity
  | .insert o b d, _ => by
    obtain ⟨dropped, -, -, -, -, hcap⟩ := insert_spec c o b d
    exact hcap
  | .remove _, _ => rfl
  | .update _ _, _ => rfl
  | .markClean _, _ => rfl
  | .setCapacity n, h => absurd rfl (h n)

theorem Wf.laws {c : BucketCache} (hw : c.Wf) : c.Laws where
  queue := hw.distinct.count_order
  capacity_pos := hw.capacity_pos
  length_le := hw.length_le
  insert o b d := by
    obtain ⟨hfind, hout⟩ := find?_insert_self hw.distinct o b d
    exact ⟨hfind, hout, (hw.apply (.insert o b d)).length_le⟩
  insert_evicts := insert_evictsOldest c
  setCapacity n := ⟨rfl, length_setCapacity_le c n, setCapacity_evictsOldest c n⟩
  capacity_apply := capacity_apply c
  dirty := hw.distinct.dirtyBuckets_eq
  order := order_apply c

end BucketCache

end HashFile
