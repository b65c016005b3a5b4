import Mathlib.Data.List.Basic
import Mathlib.Tactic.Common

/-!
# Work that can be resumed

A job works through a list of items.  `P n s` says that in the state `s` the first `n` items are
settled.  If working on an item that is settled already settles nothing anew, and working on the next
one settles it, then a job that starts over where `n` items are settled has never fewer of them
settled, and has all of them settled in the end (`Advances.run`).
-/

namespace TraceScheduler

variable {σ ι : Type*} (step : σ → ι → σ) (items : List ι) (P : ℕ → σ → Prop)

/-- Working on item `k`, when it is settled or the next to be. -/
def Advances : Prop :=
  ∀ k item, items[k]? = some item → ∀ n s, k ≤ n → P n s → P (max n (k + 1)) (step s item)

variable {step items P}

/-- **The first `k` items**, with `n` of them settled before. -/
theorem Advances.take (h : Advances step items P) {n : ℕ} {s : σ} (hs : P n s) {k : ℕ}
    (hk : k ≤ items.length) : P (max n k) ((items.take k).foldl step s) := by
  induction k with
  | zero => simpa using hs
  | succ k ih =>
    have hlt : k < items.length := hk
    have hitem : items[k]? = some items[k] := List.getElem?_eq_getElem hlt
    have hnext := h k items[k] hitem (max n k) _ (Nat.le_max_right n k) (ih (Nat.le_of_lt hlt))
    rw [List.take_add_one, hitem, List.foldl_append]
    have hmax : max (max n k) (k + 1) = max n (k + 1) := by omega
    rw [hmax] at hnext
    exact hnext

theorem Advances.run (h : Advances step items P) {n : ℕ} {s : σ} (hn : n ≤ items.length)
    (hs : P n s) : P items.length (items.foldl step s) := by
  have hall := h.take hs (Nat.le_refl items.length)
  rw [List.take_length, Nat.max_eq_right hn] at hall
  exact hall

/-- The settled items after one more: the same, or one more. -/
theorem take_max_succ {n k : ℕ} {item : ι} (hk : items[k]? = some item) (hkn : k ≤ n) :
    (item ∈ items.take n ∧ items.take (max n (k + 1)) = items.take n) ∨
      items.take (max n (k + 1)) = items.take n ++ [item] := by
  rcases Nat.lt_or_ge k n with hlt | hge
  · left
    have hget : (items.take n)[k]? = some item := by rw [List.getElem?_take_of_lt hlt, hk]
    exact ⟨List.mem_of_getElem? hget, by rw [Nat.max_eq_left hlt]⟩
  · right
    obtain rfl : k = n := by omega
    rw [Nat.max_eq_right (Nat.le_succ k), List.take_add_one, hk]
    rfl

end TraceScheduler
