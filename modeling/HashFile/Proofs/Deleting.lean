import HashFile.Proofs.Ready
import HashFile.Proofs.FreeRegions

/-!
# Deleting from a ready index

Deleting never fails on a ready writer. Giving a record's space back cannot
overflow: every region the header knows, in use or free, ends below the
frontier, which is a word, so every end the free list computes and every
merged size is one too (`Header.release_ok`). The lookup only reads, the
bucket changed is a live one, and a flush in sync mode writes only blocks
within the allocated area, which a ready index keeps within the largest file.

A delete then keeps the index ready (`Ready.delete`): it keeps it sound, adds
no record, never shortens the file and never moves the frontier out.
-/
namespace HashFile

namespace FreeList

theorem touches_ok {m e : Region} (hm : m.stop < wordSize) (he : e.stop < wordSize) :
    ∃ b, Region.touches m e = .ok b := by
  simp only [Region.touches, stop?_of_lt he, stop?_of_lt hm, bind, Except.bind, pure, Except.pure]
  split
  · exact ⟨_, rfl⟩
  · exact ⟨_, rfl⟩

theorem endsAt_ok (N : Nat) {e : Region} (he : e.stop < wordSize) :
    ∃ b, Region.endsAt N e = .ok b := by
  simp only [Region.endsAt, stop?_of_lt he, bind, Except.bind, pure, Except.pure]
  exact ⟨_, rfl⟩

/-- Picking a region runs when the test runs on every region. -/
theorem pickBy_ok {p : Region → Except Overflow Bool} :
    ∀ {l : List Region}, (∀ r ∈ l, ∃ b, p r = .ok b) → ∃ x, pickBy p l = .ok x
  | [], _ => ⟨none, rfl⟩
  | r :: rs, h => by
    obtain ⟨b, hb⟩ := h r List.mem_cons_self
    obtain ⟨x, hx⟩ := pickBy_ok fun q hq => h q (List.mem_cons_of_mem _ hq)
    unfold pickBy
    cases b with
    | true => exact ⟨some (r, rs), by simp only [hb, bind, Except.bind, if_true, pure, Except.pure]⟩
    | false =>
      exact ⟨x.map fun y => (y.1, r :: y.2), by simp only [hb, hx, bind, Except.bind,
        Bool.false_eq_true, if_false, pure, Except.pure]⟩

/-- Merging a region that ends within a word with regions that do never
overflows: regions that touch end where the merged one does. -/
theorem absorb_ok (m : Region) (l : List Region) (hm : m.stop < wordSize)
    (hl : ∀ x ∈ l, x.stop < wordSize) : ∃ m' l', absorb m l = (.ok m', l') := by
  fun_induction absorb m l with
  | case1 m l o hp =>
    obtain ⟨x, hx⟩ := pickBy_ok fun r hr => touches_ok hm (hl r hr)
    rw [hx] at hp
    cases hp
  | case2 m l hp => exact ⟨_, _, rfl⟩
  | case3 m l e rest hp _ o hsize =>
    obtain ⟨pre, post, rfl, -, hte, -⟩ := pickBy_eq_some hp
    have ht := touches_eq_true hte
    have he := hl e (List.mem_append_right _ List.mem_cons_self)
    unfold addWord at hsize
    rw [if_pos (by simp only [Region.stop] at ht hm he; omega)] at hsize
    cases hsize
  | case4 m l e rest hp _ size hsize ih =>
    obtain ⟨pre, post, rfl, rfl, hte, -⟩ := pickBy_eq_some hp
    have ht := touches_eq_true hte
    have he := hl e (List.mem_append_right _ List.mem_cons_self)
    have hsz : size = e.size + m.size := by
      unfold addWord at hsize; split at hsize <;> simp_all
    refine ih ?_ fun x hx => hl x ?_
    · simp only [Region.stop] at ht hm he ⊢
      omega
    · rcases List.mem_append.1 hx with hx | hx
      · exact List.mem_append_left _ hx
      · exact List.mem_append_right _ (List.mem_cons_of_mem _ hx)

/-- Giving a region back to a free list whose regions end within a word never
overflows. -/
theorem release_ok {f : FreeList} {off size : Nat} (hm : off + size < wordSize)
    (hl : ∀ x ∈ f.regions, x.stop < wordSize) : ∃ r f', f.release off size = (.ok r, f') := by
  obtain ⟨m', l', habs⟩ := absorb_ok ⟨off, size⟩ f.regions hm hl
  unfold release
  rw [habs]
  dsimp only
  split
  · split
    · exact ⟨_, _, rfl⟩
    · exact ⟨_, _, rfl⟩
  · exact ⟨_, _, rfl⟩

end FreeList

namespace Header

/-- Moving the frontier back over free regions that end within a word never
overflows. -/
theorem shrinkFrontier_ok (h : Header) (hl : ∀ x ∈ h.avail.regions, x.stop < wordSize) :
    ∃ h', h.shrinkFrontier = (.ok (), h') := by
  fun_induction shrinkFrontier h with
  | case1 h o hp =>
    obtain ⟨x, hx⟩ := FreeList.pickBy_ok fun r hr => FreeList.endsAt_ok h.nextBlock (hl r hr)
    rw [hx] at hp
    cases hp
  | case2 h hp => exact ⟨_, rfl⟩
  | case3 h e rest hp _ ih =>
    obtain ⟨pre, post, hsplit, rfl, -, -⟩ := FreeList.pickBy_eq_some hp
    refine ih fun x hx => hl x ?_
    rw [hsplit]
    rcases List.mem_append.1 hx with hx | hx
    · exact List.mem_append_left _ hx
    · exact List.mem_append_right _ (List.mem_cons_of_mem _ hx)

/-- Giving back space below the frontier never overflows when the frontier is a
word and every free region ends below it. -/
theorem release_ok {h : Header} {off size : Nat} (hs : 0 < size → off + size ≤ h.nextBlock)
    (hn : h.nextBlock < wordSize) (hl : ∀ x ∈ h.avail.regions, x.stop < h.nextBlock) :
    ∃ h', h.release off size = (.ok (), h') := by
  unfold release
  by_cases h0 : size = 0
  · exact ⟨h, if_pos h0⟩
  rw [if_neg h0]
  have hstop := hs (Nat.pos_of_ne_zero h0)
  have hadd : addWord off size = .ok (off + size) := by
    unfold addWord
    rw [if_pos (by omega)]
  rw [hadd]
  dsimp only
  have hfree : ∀ x ∈ h.avail.regions, x.stop < wordSize := fun x hx =>
    Nat.lt_trans (hl x hx) hn
  split
  · exact shrinkFrontier_ok _ hfree
  · have hm : off + size < wordSize := by omega
    obtain ⟨r, f', hr⟩ := FreeList.release_ok hm hfree
    rw [hr]
    exact ⟨_, rfl⟩

end Header

namespace Index

variable {v : Volume} {ix : Index}

/-- A sound index gives back the space of any of its records: the header
that results keeps the block size, and its free list stays within capacity. -/
theorem Sound.release_ok (hs : Sound v ix) {e : Slot} (he : e ∈ (image v ix).slots) :
    ∃ h', ix.file.header.release e.dataOffset e.recordSize = (.ok (), h') ∧
      h'.blockSize = ix.file.header.blockSize ∧
      h'.avail.regions.length ≤ availCapacity ix.file.header.blockSize := by
  have hl := hs.layout
  by_cases hpos : 0 < e.recordSize
  · have hmem : e.region ∈ (image v ix).used :=
      List.mem_cons_of_mem _ (List.mem_cons_of_mem _ (List.mem_append_right _
        (List.mem_map_of_mem (List.mem_filter.2 ⟨he, by simpa using hpos⟩))))
    obtain ⟨h', hrel⟩ := Header.release_ok (fun _ => hl.used_below _ hmem) hl.next_lt
      hl.free_below
    obtain ⟨hl', next, avail, rfl, hcap⟩ := (hl.perm (List.perm_cons_erase hmem)).release hrel
    refine ⟨_, hrel, rfl, ?_⟩
    rw [← hs.capacity, ← hcap]
    exact hl'.length_le
  · refine ⟨ix.file.header, by rw [Header.release, if_pos (by omega)], rfl, ?_⟩
    rw [← hs.capacity]
    exact hl.length_le

/-- Deleting a key from a ready writer runs: the lookup only reads, the bucket
holding the key is live, its record's space is given back, and a flush in sync
mode writes only within the allocated area. -/
theorem Ready.delete_runs (hr : Ready v ix) (hw : ix.file.writable = true) (key : Bytes) :
    ∃ r s', Runs (Index.delete key) (v, ix) r s' := by
  obtain ⟨loc, v1, ix1, hloc, hrd1⟩ := hr.locate key
  have hcw : Runs checkWritable (v, ix) () (v, ix) := runs_checkWritable.2 ⟨hw, rfl⟩
  unfold Index.delete
  cases hslot : loc.slot with
  | none =>
    exact ⟨false, (v1, ix1), runs_bind.2 ⟨(), _, hcw, runs_bind.2 ⟨loc, _, hloc, by
      rw [hslot]; exact runs_pure.2 ⟨rfl, rfl⟩⟩⟩⟩
  | some i =>
    obtain ⟨-, -, -, -, -, -, hlive, hsome, -⟩ := hr.sound.locate hloc
    obtain ⟨hlt, hvac, -⟩ := hsome i hslot
    have hr1 := hrd1.ready
    have ho1 : loc.bucketOffset ∈ (image v1 ix1).live := by rw [hrd1.live]; exact hlive
    rw [← hrd1.bucketAt hlive] at hlt hvac
    obtain ⟨v2, ix2, hload, hrd2⟩ := hr1.loadBucket ho1
    have hr2 := hrd2.ready
    set b := bucketAt v1 ix1 loc.bucketOffset
    have hrm := (Bucket.remove_spec (hr1.sound.shaped.wf _ ho1) hlt hvac).1
    have hmem : b.slot i ∈ (image v2 ix2).slots := by
      rw [hrd2.agree.slots]
      exact Image.mem_slots.2 ⟨_, ho1, Bucket.mem_entries.2 ⟨i, hlt, rfl, hvac⟩⟩
    set ix2' : Index := { ix2 with cache := ix2.cache.update loc.bucketOffset fun _ => (b.remove i).2 }
    have hup : Runs (updateBucket loc.bucketOffset fun b => b.remove i) (v1, ix1) (b.slot i)
        (v2, ix2') :=
      runs_updateBucket.2 ⟨b, _, hload, hrm.symm, rfl⟩
    obtain ⟨h3, hrel, hbs3, hlen3⟩ := hr2.sound.release_ok hmem
    set hd : Bool := ix2'.file.headerDirty || (b.slot i).recordSize != 0
    set ix3 : Index := { ix2' with file := { ix2'.file with header := h3, headerDirty := hd } }
    have hfree : Runs (free (b.slot i).dataOffset (b.slot i).recordSize) (v2, ix2') () (v2, ix3) :=
      runs_free.2 ⟨h3, hrel, rfl⟩
    obtain ⟨s4, hafter⟩ : ∃ s4, Runs afterMutation (v2, ix3) () s4 := by
      have hdirty : ∀ p ∈ ix3.cache.dirtyBuckets,
          p.1 + ix3.file.header.blockSize ≤ Volume.maxFileSize := by
        intro p hp
        obtain ⟨e, he, -, rfl⟩ := BucketCache.mem_dirtyBuckets.1 hp
        obtain ⟨e0, he0, rfl⟩ := BucketCache.mem_update.1 he
        have hoff : (if e0.offset = loc.bucketOffset then
            { e0 with bucket := (b.remove i).2, dirty := true } else e0).offset = e0.offset := by
          split <;> rfl
        show (BucketCache.written _).1 + h3.blockSize ≤ _
        rw [BucketCache.written_fst, hoff, hbs3]
        exact Nat.le_trans (hr2.sound.cached_below he0) hr2.frontier
      unfold Index.afterMutation
      by_cases hsync : ix3.syncMode = true
      · obtain ⟨s4, hf⟩ := flush_runs_of (v := v2) hdirty
          (Nat.le_trans hr2.sound.dir_below hr2.frontier)
          (header_fits (by rw [hbs3]; exact hr2.sound.blockSize) (by rw [hbs3]; exact hlen3))
          (by rw [hbs3]; exact Nat.le_trans hr2.sound.blockSize_below hr2.frontier)
        exact ⟨s4, runs_bind.2 ⟨ix3, _, runs_current.2 ⟨rfl, rfl⟩, by rw [if_pos hsync]; exact hf⟩⟩
      · exact ⟨_, runs_bind.2 ⟨ix3, _, runs_current.2 ⟨rfl, rfl⟩, by
          rw [if_neg hsync]; exact runs_pure.2 ⟨rfl, rfl⟩⟩⟩
    exact ⟨true, s4, runs_bind.2 ⟨(), _, hcw, runs_bind.2 ⟨loc, _, hloc, by
      rw [hslot]
      exact runs_bind.2 ⟨b.slot i, _, hup, runs_bind.2 ⟨(), _, hfree,
        runs_bind.2 ⟨(), _, hafter, runs_pure.2 ⟨rfl, rfl⟩⟩⟩⟩⟩⟩⟩

/-- Deleting a key from a ready writer runs, answers whether the key was
stored, erases it from what lookups see and keeps the index ready. -/
theorem Ready.delete (hr : Ready v ix) (hw : ix.file.writable = true) (key : Bytes) :
    ∃ v' ix', Runs (Index.delete key) (v, ix) ((image v ix).lookup key).isSome (v', ix') ∧
      Ready v' ix' ∧ Stays v ix v' ix' ∧
      ∀ k, (image v' ix').lookup k = if k = key then none else (image v ix).lookup k := by
  obtain ⟨r, ⟨v', ix'⟩, hrun⟩ := hr.delete_runs hw key
  obtain ⟨rfl, hs', hst, hlook, hsl⟩ := hr.sound.delete hrun
  exact ⟨v', ix', hrun, hr.of_retains hs' hsl (retains_delete key _ _ _ hrun), hst, hlook⟩

end Index

end HashFile
