import Mathlib.Logic.Function.Iterate
import Mathlib.Order.Basic
import Mathlib.Tactic.Common

/-!
# Two deterministic machines in lockstep up to silent steps

Each machine is a total step function with an observation on its states; a state that steps to
itself has stopped.  `Lockstep R` asks that related states look the same and that, unless both
have stopped, each side can take some positive number of steps, silent until the last one, into
related states again.  Then every observation of one machine is an observation of the other
(`Lockstep.forward`, `Lockstep.backward`), so whatever never shows on one side never shows on the
other.
-/

namespace TraceScheduler

section

variable {σ τ O : Type*}

/-- The first `n` steps from `s` do not change the observation, the last one possibly excepted. -/
def SilentBelow (step : σ → σ) (obs : σ → O) (s : σ) (n : ℕ) : Prop :=
  ∀ k < n, obs (step^[k] s) = obs s

structure Lockstep (step₁ : σ → σ) (step₂ : τ → τ) (obs₁ : σ → O) (obs₂ : τ → O)
    (R : σ → τ → Prop) : Prop where
  looks : ∀ s t, R s t → obs₁ s = obs₂ t
  moves : ∀ s t, R s t → (step₁ s = s ∧ step₂ t = t) ∨
    ∃ m n, 0 < m ∧ 0 < n ∧ SilentBelow step₁ obs₁ s m ∧ SilentBelow step₂ obs₂ t n ∧
      R (step₁^[m] s) (step₂^[n] t)

variable {step₁ : σ → σ} {step₂ : τ → τ} {obs₁ : σ → O} {obs₂ : τ → O} {R : σ → τ → Prop}

theorem Lockstep.symm (h : Lockstep step₁ step₂ obs₁ obs₂ R) :
    Lockstep step₂ step₁ obs₂ obs₁ (fun t s => R s t) where
  looks t s hR := (h.looks s t hR).symm
  moves t s hR := by
    rcases h.moves s t hR with ⟨hs, ht⟩ | ⟨m, n, hm, hn, hsm, htn, hR'⟩
    · exact .inl ⟨ht, hs⟩
    · exact .inr ⟨n, m, hn, hm, htn, hsm, hR'⟩

/-- Every observation the first machine makes, the second one makes too. -/
theorem Lockstep.forward (h : Lockstep step₁ step₂ obs₁ obs₂ R) {s : σ} {t : τ} (hR : R s t)
    (k : ℕ) : ∃ k', obs₂ (step₂^[k'] t) = obs₁ (step₁^[k] s) := by
  induction k using Nat.strongRecOn generalizing s t with
  | _ k ih =>
    rcases h.moves s t hR with ⟨hs, ht⟩ | ⟨m, n, hm, _, hsm, _, hR'⟩
    · refine ⟨0, ?_⟩
      rw [Function.iterate_fixed hs, Function.iterate_zero_apply]
      exact (h.looks s t hR).symm
    · by_cases hk : k < m
      · -- still inside the silent stretch
        refine ⟨0, ?_⟩
        rw [hsm k hk, Function.iterate_zero_apply]
        exact (h.looks s t hR).symm
      · obtain ⟨k', hk'⟩ := ih (k - m) (by omega) hR'
        refine ⟨k' + n, ?_⟩
        rw [Function.iterate_add_apply, hk', ← Function.iterate_add_apply,
          Nat.sub_add_cancel (Nat.le_of_not_lt hk)]

theorem Lockstep.backward (h : Lockstep step₁ step₂ obs₁ obs₂ R) {s : σ} {t : τ} (hR : R s t)
    (k : ℕ) : ∃ k', obs₁ (step₁^[k'] s) = obs₂ (step₂^[k] t) :=
  h.symm.forward (R := fun t s => R s t) hR k

end

end TraceScheduler
