import HashFile.Proofs.ShiftBack

/-!
# Probe chains under inserts and removals

A bucket keeps its probe chains intact (`WF`): it has a slot, it counts its
occupied slots, and every entry is reached from its home through occupied slots
only. Every operation on a bucket keeps this. Inserting answers nothing exactly
when the bucket is full, and then changes nothing; otherwise the entry goes to
the first vacant slot of its probe path and the count goes up by one. Removing
answers what the slot held; a vacant slot leaves the bucket as it is, and an
occupied one is emptied and then closed by a scan that runs to its end as the
loop does (`Scans`), leaving one entry and one count fewer. So a lookup that
follows the probe path of a hash meets every entry of that hash
(`KeepsChains`).

The buckets a table holds are made empty and then changed only by inserts of
entries with a real key hash and by removals (`Reachable`); they all keep their
chains (`Reachable.wf`).
-/
namespace HashFile

namespace Bucket

variable {b : Bucket}

/-- A vacant slot is removed by answering it and changing nothing. -/
theorem remove_of_vacant {i : Nat} (hv : (b.slot i).isVacant = true) : b.remove i = (b.slot i, b) := by
  simp [remove, hv]

/-- A full bucket takes nothing in. -/
theorem insert_of_full (hfull : b.isFull = true) (e : Slot) : b.insert e = (none, b) := by
  simp [insert, hfull]

/-- A well-formed bucket counts at most its slots. -/
theorem WF.count_le (hw : b.WF) : b.count ≤ b.size := hw.count_eq ▸ occupiedCount_le b

/-- Removing an occupied slot is the scan of the loop, from the bucket with
that slot emptied and counted out, run to its end. -/
theorem scans_remove (hw : b.WF) {i : Nat} (hi : i < b.size) (hv : (b.slot i).isVacant = false) :
    Scans { b with slots := b.slots.set! i Slot.vacant, count := b.count - 1 } i
      ((i + 1) % b.size) (b.remove i).2 := by
  let opened : Bucket := { b with slots := b.slots.set! i Slot.vacant, count := b.count - 1 }
  have hsize : opened.size = b.size := size_set b i _
  have hc : opened.Closing i 1 := by
    have hslot : ∀ j, opened.slot j = if j = i ∧ i < b.size then Slot.vacant else b.slot j :=
      slot_set b _ _ i Slot.vacant
    refine ⟨by rw [hsize]; exact hi, Nat.one_pos, by rw [hsize]; exact hw.size_pos,
      by rw [hslot, if_pos ⟨rfl, hi⟩]; rfl, ?_, fun r _ h0 h1 => by omega⟩
    intro q hq hqv r hr hgap hri
    rw [hsize] at hq hr hgap
    rw [hslot] at hqv hgap ⊢
    have hqi : ¬ (q = i ∧ i < b.size) := fun h => by
      rw [if_pos h, isVacant_vacant] at hqv; cases hqv
    rw [if_neg hqi] at hqv hgap
    rw [if_neg fun h => hri h.1]
    exact hw.chained q hq hqv r hr (by simpa only [home, hsize] using hgap)
  have hfuel : opened.displacement * opened.size + (opened.size - 1) <
      b.size * (b.size * b.size + 1) := by
    have hd := Nat.mul_le_mul_right b.size (displacement_le opened (by rw [hsize]; exact hw.size_pos))
    rw [hsize] at hd ⊢
    rw [Nat.mul_add, Nat.mul_one, Nat.mul_comm b.size (b.size * b.size)]
    have := hw.size_pos
    omega
  have hrun := scans_shiftBack _ hc hfuel
  rw [hsize] at hrun
  have hrm : (b.remove i).2 = opened.shiftBack i ((i + 1) % b.size)
      (b.size * (b.size * b.size + 1)) := by
    simp [remove, hv, opened]
  rw [hrm]
  exact hrun

/-- What a bucket with intact probe chains does on every operation. -/
structure KeepsChains (b : Bucket) : Prop where
  /-- Inserting answers nothing exactly when every slot is counted. -/
  insert_none_iff : ∀ e, (b.insert e).1 = none ↔ b.count = b.size
  /-- An insert that answers nothing leaves the bucket unchanged. -/
  insert_none : ∀ e, (b.insert e).1 = none → (b.insert e).2 = b
  /-- Otherwise the entry goes to the first vacant slot of its probe path, the
  count goes up by one, and an entry with a key hash keeps the chains intact. -/
  insert_some : ∀ e, b.count < b.size → ∃ s < b.size, (b.insert e).1 = some s ∧
    (b.slot s).isVacant = true ∧
    (∀ r < b.size, gap b.size (b.home e.hash) r < gap b.size (b.home e.hash) s →
      (b.slot r).isVacant = false) ∧
    (b.insert e).2 = ⟨b.depth, b.count + 1, b.slots.set! s e⟩ ∧
    (e.isVacant = false → (b.insert e).2.WF)
  /-- Removing answers what the slot held. -/
  remove_fst : ∀ i, (b.remove i).1 = b.slot i
  /-- Removing at a vacant slot changes nothing. -/
  remove_vacant : ∀ i, (b.slot i).isVacant = true → (b.remove i).2 = b
  /-- Removing an occupied slot ends the scan of its loop, keeps the chains
  intact, takes exactly that entry away and counts one fewer. -/
  remove_occupied : ∀ i < b.size, (b.slot i).isVacant = false →
    Scans { b with slots := b.slots.set! i Slot.vacant, count := b.count - 1 } i
      ((i + 1) % b.size) (b.remove i).2 ∧
    (b.remove i).2.WF ∧ ((b.remove i).2.entries ++ [b.slot i]).Perm b.entries ∧
    (b.remove i).2.count + 1 = b.count
  /-- The probe path of a hash meets every entry of that hash. -/
  probe : ∀ hash, ∀ q < b.size, (b.slot q).isVacant = false → (b.slot q).hash = hash →
    q ∈ b.probe hash

/-- A bucket with intact probe chains keeps them on every operation. -/
theorem WF.keepsChains (hw : b.WF) : b.KeepsChains where
  insert_none_iff e := by
    have hle := hw.count_le
    by_cases hfull : b.isFull = true
    · rw [insert_of_full hfull]
      simp only [isFull, decide_eq_true_eq] at hfull
      exact ⟨fun _ => by omega, fun _ => rfl⟩
    · rw [Bool.not_eq_true] at hfull
      obtain ⟨s, -, -, -, hins⟩ := insert_eq hw hfull e
      simp only [isFull, decide_eq_false_iff_not, Nat.not_le] at hfull
      rw [hins]
      exact ⟨fun h => (by cases h), fun h => by omega⟩
  insert_none e h := by
    by_cases hfull : b.isFull = true
    · rw [insert_of_full hfull]
    · obtain ⟨s, -, -, -, hins⟩ := insert_eq hw (Bool.eq_false_iff.2 hfull) e
      rw [hins] at h
      cases h
  insert_some e hlt := by
    have hfull : b.isFull = false := by simp [isFull]; omega
    obtain ⟨s, hs, hsv, hbefore, hins⟩ := insert_eq hw hfull e
    refine ⟨s, hs, by rw [hins], hsv, hbefore, by rw [hins], fun he => ?_⟩
    rw [hins]
    exact wf_insert hw he hs hsv hbefore
  remove_fst i := by
    by_cases hv : (b.slot i).isVacant = true
    · rw [remove_of_vacant hv]
    · simp [remove, hv]
  remove_vacant i hv := by rw [remove_of_vacant hv]
  remove_occupied i hi hv := by
    obtain ⟨-, hw', -, -, hperm⟩ := remove_spec hw hi hv
    refine ⟨scans_remove hw hi hv, hw', hperm, ?_⟩
    have hl := hperm.length_eq
    rw [List.length_append, List.length_singleton, length_entries, length_entries] at hl
    rw [hw'.count_eq, hw.count_eq]
    exact hl
  probe hash q hq hv hh := hh ▸ mem_probe hw hq hv

/-- The buckets a table holds: made empty with at least one slot, then changed
by inserting entries whose hash is a key hash (never the vacant hash) and by
removing at any of its slots. -/
inductive Reachable : Bucket → Prop
  | empty (depth elems : Nat) : 0 < elems → Reachable (empty depth elems)
  | insert {b : Bucket} {e : Slot} : Reachable b → e.isVacant = false → Reachable (b.insert e).2
  | remove {b : Bucket} {i : Nat} : Reachable b → i < b.size → Reachable (b.remove i).2

/-- Every bucket a table holds keeps its probe chains intact. -/
theorem Reachable.wf (hb : b.Reachable) : b.WF := by
  induction hb with
  | empty depth elems h => exact wf_empty h
  | @insert b e _ he ih =>
    by_cases hfull : b.isFull = true
    · rw [insert_of_full hfull]
      exact ih
    · exact (insert_spec ih (Bool.eq_false_iff.2 hfull) he).2.1.wf
  | @remove b i _ hi ih =>
    by_cases hv : (b.slot i).isVacant = true
    · rw [remove_of_vacant hv]
      exact ih
    · exact (remove_spec ih hi (Bool.eq_false_iff.2 hv)).2.1

/-- Bucket operations keep probe chains intact: every bucket a table holds has
them, and on a bucket that has them every insert, removal and probe behaves as
`KeepsChains` says. -/
theorem probe_chains_kept :
    (∀ b : Bucket, b.Reachable → b.WF) ∧ ∀ b : Bucket, b.WF → b.KeepsChains :=
  ⟨fun _ hb => hb.wf, fun _ hw => hw.keepsChains⟩

/-- Three entries of one home in a bucket of three slots: the chain from slot 2
wraps past the end to slots 0 and 1. -/
def wrapped : Bucket :=
  ((((empty 0 3).insert ⟨2, [1, 0, 0, 0], 0, 1, 1⟩).2.insert ⟨5, [2, 0, 0, 0], 2, 1, 1⟩).2.insert
    ⟨8, [3, 0, 0, 0], 4, 1, 1⟩).2

theorem reachable_wrapped : wrapped.Reachable := by
  unfold wrapped
  exact .insert (.insert (.insert (.empty 0 3 (by decide)) (by decide)) (by decide)) (by decide)

/-- The wrapped chain keeps its entries reachable, and removing its first entry
pulls the other two back along it, the second across the end of the bucket. -/
theorem probe_chains_kept_wrapped :
    wrapped.Reachable ∧ wrapped.WF ∧ wrapped.KeepsChains ∧
      (wrapped.slot 0).hash = 5 ∧ (wrapped.slot 1).hash = 8 ∧
      ((wrapped.remove 2).2.slot 2).hash = 5 ∧ ((wrapped.remove 2).2.slot 0).hash = 8 ∧
      ((wrapped.remove 2).2.slot 1).isVacant = true := by
  have hw := probe_chains_kept.1 _ reachable_wrapped
  exact ⟨reachable_wrapped, hw, probe_chains_kept.2 _ hw, by decide, by decide, by decide, by decide,
    by decide⟩

end Bucket

end HashFile
