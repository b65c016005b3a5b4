import Mathlib.Logic.Basic
import Mathlib.Data.Nat.Init
import Mathlib.Tactic.Common

/-!
# Least placements

Items are placed at positions, and which positions are legal for an item depends on where the items it
needs are placed: the lower these are, the more is legal.  A placement is least when each movable item
is below every position that is legal for it.  Then it is below every placement in which each item's
own position is legal (`below_of_least`), by induction along the needs.
-/

namespace TraceScheduler

variable {I B : Type*}

/-- Wherever the second placement puts the item, the first puts it at or below that. -/
def Below (le : B → B → Prop) (pos₁ pos₂ : I → B → Prop) (i : I) : Prop :=
  ∀ b₂, pos₂ i b₂ → ∃ b₁, pos₁ i b₁ ∧ le b₁ b₂

variable {le : B → B → Prop} {pos₁ pos₂ : I → B → Prop} {i : I}

theorem Below.of_iff (hrefl : ∀ b, le b b) (h : ∀ b, pos₁ i b ↔ pos₂ i b) :
    Below le pos₁ pos₂ i :=
  fun b hb => ⟨b, (h b).mpr hb, hrefl b⟩

/-- An item that neither placement has moved. -/
theorem Below.of_unmoved {pos₁' pos₂' : I → B → Prop} (h : Below le pos₁ pos₂ i)
    (h₁ : ∀ b, pos₁' i b ↔ pos₁ i b) (h₂ : ∀ b, pos₂' i b ↔ pos₂ i b) :
    Below le pos₁' pos₂' i := by
  intro b hb
  obtain ⟨b₁, hb₁, hle⟩ := h b ((h₂ b).mp hb)
  exact ⟨b₁, (h₁ b₁).mpr hb₁, hle⟩

/-- **A least placement is below every legal one.** `S` are the states that place the items. -/
theorem below_of_least {S : Type*} (pos legal : S → I → B → Prop) {s₁ s₂ : S} (needs : I → I → Prop)
    (movable : I → Prop) (rank : I → ℕ)
    (hrank : ∀ i d, movable i → movable d → needs i d → rank d < rank i)
    (hfixed : ∀ i, ¬ movable i → Below le (pos s₁) (pos s₂) i)
    (hmono : ∀ i b, movable i → (∀ d, needs i d → Below le (pos s₁) (pos s₂) d) → legal s₂ i b →
      legal s₁ i b)
    (hleast : ∀ i b, movable i → legal s₁ i b → ∃ b₁, pos s₁ i b₁ ∧ le b₁ b)
    (hlegal : ∀ i b, movable i → pos s₂ i b → legal s₂ i b) (i : I) :
    Below le (pos s₁) (pos s₂) i := by
  induction hr : rank i using Nat.strong_induction_on generalizing i with
  | _ r ih =>
    by_cases hi : movable i
    · intro b hb
      apply hleast i b hi
      apply hmono i b hi ?_ (hlegal i b hi hb)
      intro d hd
      by_cases hdm : movable d
      · exact ih (rank d) (hr ▸ hrank i d hi hdm hd) d rfl
      · exact hfixed d hdm
    · exact hfixed i hi

end TraceScheduler
