import Mathlib.Data.Finset.Card
import Mathlib.Data.Finset.Range
import Mathlib.Order.Monotone.Basic
import Mathlib.Order.WellFounded

/-!
# Descent

An infinite run of a system with a measure that no step raises and every step of interest lowers.
Only so many steps can be of interest as the measure says at the beginning (`card_steps_le`), and
from some point on there are none (`eventually_no_step`).
-/

namespace TraceScheduler

variable {μ : ℕ → ℕ} {Step : ℕ → Prop}

/-- **The measure at the beginning bounds the steps of interest.** -/
theorem card_steps_le [DecidablePred Step] (hle : ∀ k, μ (k + 1) ≤ μ k)
    (hlt : ∀ k, Step k → μ (k + 1) < μ k) (n : ℕ) :
    ((Finset.range n).filter Step).card + μ n ≤ μ 0 := by
  induction n with
  | zero => simp
  | succ n ih =>
    rw [Finset.range_add_one, Finset.filter_insert]
    split
    · rename_i hstep
      have hnew : n ∉ (Finset.range n).filter Step := by simp
      have := hlt n hstep
      rw [Finset.card_insert_of_notMem hnew]
      omega
    · have := hle n
      omega

theorem eventually_no_step (hle : ∀ k, μ (k + 1) ≤ μ k) (hlt : ∀ k, Step k → μ (k + 1) < μ k) :
    ∃ N, ∀ k, N ≤ k → ¬ Step k := by
  refine ⟨Function.argmin μ, fun k hk hstep => ?_⟩
  have hanti : Antitone μ := antitone_nat_of_succ_le hle
  have hleast : μ (Function.argmin μ) ≤ μ (k + 1) := Function.argmin_le μ (k + 1)
  have hbefore := hanti hk
  have hlower := hlt k hstep
  omega

end TraceScheduler
