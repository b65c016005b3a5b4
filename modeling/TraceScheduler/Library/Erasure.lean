import Mathlib.Data.List.Basic

/-!
# Two runs that agree on what is observed

A computation that may fail is observed through a function on its results.  Two of them agree when
both fail or their results look the same.  Agreement goes through sequencing and through folds, so a
part of the state that no step reads can be erased from a whole run at once.
-/

namespace TraceScheduler

variable {α₁ α₂ β ε γ δ₁ δ₂ : Type*}

/-- Continuations that agree wherever the results so far look the same. -/
theorem bind_map_congr {x₁ : Option α₁} {x₂ : Option α₂} {f₁ : α₁ → β} {f₂ : α₂ → β}
    {k₁ : α₁ → Option δ₁} {k₂ : α₂ → Option δ₂} {g₁ : δ₁ → γ} {g₂ : δ₂ → γ}
    (hx : x₁.map f₁ = x₂.map f₂)
    (hk : ∀ a₁ a₂, f₁ a₁ = f₂ a₂ → (k₁ a₁).map g₁ = (k₂ a₂).map g₂) :
    (x₁.bind k₁).map g₁ = (x₂.bind k₂).map g₂ := by
  cases x₁ with
  | none =>
    cases x₂ with
    | none => rfl
    | some a₂ => cases hx
  | some a₁ =>
    cases x₂ with
    | none => cases hx
    | some a₂ => exact hk a₁ a₂ (Option.some.inj hx)

/-- One step that keeps the agreement keeps it over every list. -/
theorem foldl_congr_of_step {f₁ : α₁ → β} {f₂ : α₂ → β} {step₁ : α₁ → ε → α₁} {step₂ : α₂ → ε → α₂}
    (hstep : ∀ a₁ a₂ x, f₁ a₁ = f₂ a₂ → f₁ (step₁ a₁ x) = f₂ (step₂ a₂ x)) (l : List ε) {a₁ : α₁}
    {a₂ : α₂} (ha : f₁ a₁ = f₂ a₂) : f₁ (l.foldl step₁ a₁) = f₂ (l.foldl step₂ a₂) := by
  induction l generalizing a₁ a₂ with
  | nil => exact ha
  | cons x l ih =>
    rw [List.foldl_cons, List.foldl_cons]
    exact ih (hstep a₁ a₂ x ha)

theorem foldlM_map_congr {f₁ : α₁ → β} {f₂ : α₂ → β} {step₁ : α₁ → ε → Option α₁}
    {step₂ : α₂ → ε → Option α₂}
    (hstep : ∀ a₁ a₂ x, f₁ a₁ = f₂ a₂ → (step₁ a₁ x).map f₁ = (step₂ a₂ x).map f₂) (l : List ε)
    {a₁ : α₁} {a₂ : α₂} (ha : f₁ a₁ = f₂ a₂) :
    (l.foldlM step₁ a₁).map f₁ = (l.foldlM step₂ a₂).map f₂ := by
  induction l generalizing a₁ a₂ with
  | nil => exact congrArg some ha
  | cons x l ih =>
    rw [List.foldlM_cons, List.foldlM_cons]
    exact bind_map_congr (hstep a₁ a₂ x ha) fun _ _ hb => ih hb

/-! ### A part of the state that no step changes -/

theorem foldl_unchanged {f : α₁ → β} {step : α₁ → ε → α₁} (hstep : ∀ a x, f (step a x) = f a)
    (l : List ε) (a : α₁) : f (l.foldl step a) = f a := by
  induction l generalizing a with
  | nil => rfl
  | cons x l ih =>
    rw [List.foldl_cons]
    exact (ih (step a x)).trans (hstep a x)

theorem foldlM_unchanged {f : α₁ → β} {step : α₁ → ε → Option α₁}
    (hstep : ∀ a x a', step a x = some a' → f a' = f a) {l : List ε} {a a' : α₁}
    (h : l.foldlM step a = some a') : f a' = f a := by
  induction l generalizing a with
  | nil => rw [Option.some.inj h]
  | cons x l ih =>
    rw [List.foldlM_cons] at h
    obtain ⟨a₁, hfirst, hrest⟩ := Option.bind_eq_some_iff.mp h
    exact (ih hrest).trans (hstep a x a₁ hfirst)

end TraceScheduler
