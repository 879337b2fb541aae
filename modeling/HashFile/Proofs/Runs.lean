import HashFile.Session.Basic
import Mathlib

/-!
# Successful runs of store actions

Index and session actions run in a state monad with exceptions, and keep the
changes made before a failure. What this library proves about them is what a
*successful* run does: `Runs m s a s'` says that `m`, started in `s`, answers `a`
and leaves `s'`.

The lemmas below take the run of a composite action apart: a bind runs when
its first action runs and the rest runs from where it stopped, `pure` leaves the
state alone, `throw` never runs, and `get`, `set` and `modify` read and write the
state. With them a run of a `do` block unfolds, by `simp only`, into the runs of
its steps.
-/
namespace HashFile

section Generic

variable {σ ε α β : Type}

/-- `m`, started in `s`, answers `a` and leaves `s'`. -/
def Runs (m : ExceptT ε (StateM σ) α) (s : σ) (a : α) (s' : σ) : Prop :=
  m.run.run s = (.ok a, s')

theorem runs_pure {a b : α} {s s' : σ} :
    Runs (pure a : ExceptT ε (StateM σ) α) s b s' ↔ b = a ∧ s' = s := by
  constructor
  · intro h; cases h; exact ⟨rfl, rfl⟩
  · rintro ⟨rfl, rfl⟩; rfl

theorem runs_bind {x : ExceptT ε (StateM σ) α} {f : α → ExceptT ε (StateM σ) β} {s s'' : σ}
    {b : β} : Runs (x >>= f) s b s'' ↔ ∃ a s', Runs x s a s' ∧ Runs (f a) s' b s'' := by
  unfold Runs
  rw [ExceptT.run_bind, StateT.run_bind]
  cases hr : x.run.run s with
  | mk r s' =>
    cases r with
    | error e =>
      constructor
      · intro h; cases h
      · rintro ⟨a, s1, h1, -⟩; cases h1
    | ok a =>
      constructor
      · intro h; exact ⟨a, s', rfl, h⟩
      · rintro ⟨a', s1, h1, h2⟩; cases h1; exact h2

/-- Two continuations that agree after every successful run of the first
action make the same run of the bind, failures included. -/
theorem run_bind_congr {x : ExceptT ε (StateM σ) α} {f g : α → ExceptT ε (StateM σ) β} {s : σ}
    (h : ∀ a s', Runs x s a s' → (f a).run.run s' = (g a).run.run s') :
    (x >>= f).run.run s = (x >>= g).run.run s := by
  rw [ExceptT.run_bind, StateT.run_bind, ExceptT.run_bind, StateT.run_bind]
  cases hr : x.run.run s with
  | mk r s' =>
    cases r with
    | error e => rfl
    | ok a => exact h a s' hr

/-- After a successful first action, a bind runs as its continuation. -/
theorem Runs.run_bind {x : ExceptT ε (StateM σ) α} {f : α → ExceptT ε (StateM σ) β}
    {s s' : σ} {a : α} (h : Runs x s a s') : (x >>= f).run.run s = (f a).run.run s' := by
  unfold Runs at h
  rw [ExceptT.run_bind, StateT.run_bind, h]
  rfl

/-- A failure of the first action is the failure of the bind. -/
theorem run_bind_of_error {x : ExceptT ε (StateM σ) α} {f : α → ExceptT ε (StateM σ) β}
    {s s' : σ} {e : ε} (h : x.run.run s = (.error e, s')) : (x >>= f).run.run s = (.error e, s') := by
  rw [ExceptT.run_bind, StateT.run_bind, h]
  rfl

theorem runs_map {f : α → β} {x : ExceptT ε (StateM σ) α} {s s' : σ} {b : β} :
    Runs (f <$> x) s b s' ↔ ∃ a, Runs x s a s' ∧ b = f a := by
  unfold Runs
  rw [ExceptT.run_map, StateT.run_map]
  cases hr : x.run.run s with
  | mk r s1 =>
    cases r with
    | error e =>
      constructor
      · intro h; cases h
      · rintro ⟨a, h1, -⟩; cases h1
    | ok a =>
      constructor
      · intro h; cases h; exact ⟨a, rfl, rfl⟩
      · rintro ⟨a', h1, rfl⟩; cases h1; rfl

/-- An action whose answer is dropped runs where the action runs. -/
theorem runs_discard {x : ExceptT ε (StateM σ) α} {s s' : σ} {a : α} (h : Runs x s a s') :
    Runs (discard x) s () s' :=
  runs_map.2 ⟨a, h, rfl⟩

theorem runs_get {s s' : σ} {a : σ} :
    Runs (get : ExceptT ε (StateM σ) σ) s a s' ↔ a = s ∧ s' = s := by
  constructor
  · intro h; cases h; exact ⟨rfl, rfl⟩
  · rintro ⟨rfl, rfl⟩; rfl

theorem runs_set {s s' t : σ} {a : PUnit} :
    Runs (set t : ExceptT ε (StateM σ) PUnit) s a s' ↔ s' = t := by
  constructor
  · intro h; cases h; rfl
  · rintro rfl; rfl

theorem runs_modify {f : σ → σ} {s s' : σ} {a : PUnit} :
    Runs (modify f : ExceptT ε (StateM σ) PUnit) s a s' ↔ s' = f s := by
  constructor
  · intro h; cases h; rfl
  · rintro rfl; rfl

theorem runs_throw {e : ε} {s s' : σ} {a : α} :
    Runs (throw e : ExceptT ε (StateM σ) α) s a s' ↔ False :=
  ⟨(fun h => by cases h), False.elim⟩

/-- An action given by its effect on the state. -/
theorem runs_mk {f : σ → Except ε α × σ} {s s' : σ} {a : α} :
    Runs (ExceptT.mk (StateT.mk fun s => pure (f s)) : ExceptT ε (StateM σ) α) s a s' ↔
      f s = (.ok a, s') := Iff.rfl

theorem runs_ite {c : Prop} [Decidable c] {x y : ExceptT ε (StateM σ) α} {s s' : σ} {a : α} :
    Runs (if c then x else y) s a s' ↔ if c then Runs x s a s' else Runs y s a s' := by
  split <;> rfl

/-- A handled action runs when the action runs, or when it fails and the
handler runs from where it failed. -/
theorem runs_tryCatch {x : ExceptT ε (StateM σ) α} {h : ε → ExceptT ε (StateM σ) α} {s s' : σ}
    {a : α} : Runs (tryCatch x h) s a s' ↔
      Runs x s a s' ∨ ∃ e s1, x.run.run s = (.error e, s1) ∧ Runs (h e) s1 a s' := by
  unfold Runs
  show (ExceptT.tryCatch x h).run.run s = _ ↔ _
  simp only [ExceptT.tryCatch, ExceptT.run, ExceptT.mk, StateT.run_bind]
  cases hr : StateT.run x s with
  | mk r s1 =>
    cases r with
    | error e =>
      constructor
      · intro hh; exact .inr ⟨e, s1, rfl, hh⟩
      · rintro (hh | ⟨e', s2, he, hh⟩)
        · cases hh
        · cases he; exact hh
    | ok b =>
      constructor
      · intro hh; exact .inl hh
      · rintro (hh | ⟨e', s2, he, -⟩)
        · exact hh
        · cases he

theorem runs_forM_nil {f : β → ExceptT ε (StateM σ) PUnit} {s s' : σ} {a : PUnit} :
    Runs ([].forM f) s a s' ↔ s' = s := by
  show Runs (pure ()) s a s' ↔ s' = s
  simp only [runs_pure, true_and]

theorem runs_forM_cons {f : β → ExceptT ε (StateM σ) PUnit} {x : β} {xs : List β} {s s' : σ}
    {a : PUnit} : Runs ((x :: xs).forM f) s a s' ↔ ∃ s1, Runs (f x) s () s1 ∧ Runs (xs.forM f) s1 () s' := by
  show Runs (f x >>= fun _ => xs.forM f) s a s' ↔ _
  simp only [runs_bind]
  constructor
  · rintro ⟨⟨⟩, s1, h1, h2⟩; exact ⟨s1, h1, h2⟩
  · rintro ⟨s1, h1, h2⟩; exact ⟨(), s1, h1, h2⟩

end Generic

end HashFile
