import Mathlib.Data.List.Perm.Basic
import Mathlib.Data.List.Sort
import Mathlib.Data.Nat.Init

/-!
# Scheduling by a priority that falls along every edge

Nodes wait for their predecessors, and the scheduler always takes a ready node of the highest priority
(`Greedy`).  If priorities fall along every edge, then some ancestor of a waiting node is ready and
more urgent than the node itself, so the choice among the ready nodes is a choice among **all** the
nodes left (`Greedy.le_of_not_mem`).  Hence the priorities come in order (`Greedy.pairwise`), and two
greedy schedules of the same nodes differ within groups of one priority only (`Greedy.map_eq`).
-/

namespace TraceScheduler

open scoped List

variable {α β : Type*} [PartialOrder β] {edge : α → α → Prop} {prio : α → β} {node : α → Prop}
  {done l l' : List α}

/-- A node that waits for nothing any more. -/
structure Ready (edge : α → α → Prop) (node : α → Prop) (done : List α) (n : α) : Prop where
  node : node n
  not_done : n ∉ done
  preds : ∀ p, edge p n → p ∈ done

/-- Each member was ready when it was taken, and no ready node had a higher priority. -/
inductive Greedy (edge : α → α → Prop) (node : α → Prop) (prio : α → β) : List α → Prop
  | nil : Greedy edge node prio []
  | concat {done : List α} {best : α} : Greedy edge node prio done → Ready edge node done best →
      (∀ m, Ready edge node done m → prio m ≤ prio best) → Greedy edge node prio (done ++ [best])

section

variable (rank : α → ℕ) (hrank : ∀ p n, edge p n → node n → rank p < rank n)
  (hnode : ∀ p n, edge p n → node n → node p) (hprio : ∀ p n, edge p n → prio n < prio p)

include hrank hnode hprio

/-- Behind every node left there is a ready one that is at least as urgent. -/
theorem exists_ready {n : α} (hn : node n) (hdone : n ∉ done) :
    ∃ m, Ready edge node done m ∧ prio n ≤ prio m := by
  induction hr : rank n using Nat.strong_induction_on generalizing n with
  | _ r ih =>
    by_cases hpreds : ∀ p, edge p n → p ∈ done
    · exact ⟨n, ⟨hn, hdone, hpreds⟩, le_refl _⟩
    · simp only [not_forall] at hpreds
      obtain ⟨p, hp, hpd⟩ := hpreds
      obtain ⟨m, hm, hle⟩ := ih (rank p) (hr ▸ hrank p n hp hn) (hnode p n hp hn) hpd rfl
      exact ⟨m, hm, (hprio p n hp).le.trans hle⟩

/-- **The most urgent of the ready nodes is the most urgent of all nodes left.** -/
theorem le_of_ready {best n : α} (hbest : ∀ m, Ready edge node done m → prio m ≤ prio best)
    (hn : node n) (hdone : n ∉ done) : prio n ≤ prio best := by
  obtain ⟨m, hm, hle⟩ := exists_ready rank hrank hnode hprio hn hdone
  exact hle.trans (hbest m hm)

/-- Nothing left is more urgent than anything taken. -/
theorem Greedy.le_of_not_mem (h : Greedy edge node prio l) {a n : α} (ha : a ∈ l) (hn : node n)
    (hnl : n ∉ l) : prio n ≤ prio a := by
  induction h with
  | nil => cases ha
  | @concat done best _ hready hbest ih =>
    have hnd : n ∉ done := fun h => hnl (List.mem_append_left _ h)
    cases List.mem_append.mp ha with
    | inl ha => exact ih ha hnd
    | inr ha =>
      rw [List.mem_singleton.mp ha]
      exact le_of_ready rank hrank hnode hprio hbest hn hnd

/-- **Priorities come in order.** -/
theorem Greedy.pairwise (h : Greedy edge node prio l) : l.Pairwise fun a b => prio b ≤ prio a := by
  induction h with
  | nil => exact List.Pairwise.nil
  | @concat done best hdone hready hbest ih =>
    apply List.pairwise_append.mpr
    refine ⟨ih, List.pairwise_singleton _ _, ?_⟩
    intro a ha b hb
    rw [List.mem_singleton.mp hb]
    exact hdone.le_of_not_mem rank hrank hnode hprio ha hready.node hready.not_done

/-- **Two greedy schedules of the same nodes** have the same sequence of priorities. -/
theorem Greedy.map_eq (h : Greedy edge node prio l) (h' : Greedy edge node prio l') (hperm : l ~ l') :
    l.map prio = l'.map prio := by
  have hsorted : (l.map prio).Pairwise fun a b => b ≤ a :=
    List.pairwise_map.mpr (h.pairwise rank hrank hnode hprio)
  have hsorted' : (l'.map prio).Pairwise fun a b => b ≤ a :=
    List.pairwise_map.mpr (h'.pairwise rank hrank hnode hprio)
  apply (hperm.map prio).eq_of_pairwise _ hsorted hsorted'
  intro a b _ _ hab hba
  exact le_antisymm hba hab

end

end TraceScheduler
