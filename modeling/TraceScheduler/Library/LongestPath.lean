import Mathlib.Algebra.BigOperators.Group.List.Basic
import Mathlib.Algebra.Order.Group.Int
import Mathlib.Algebra.Ring.Int.Defs
import Mathlib.Logic.Relation
import Mathlib.Order.Bounds.Basic
import Mathlib.Tactic.Common

/-!
# Longest paths

A weighted path to a sink, and the recurrence whose solution is the greatest weight of one.  The
recurrence speaks of one edge at a time.  Because the weights are positive its values fall along every
edge, so following an edge that attains the maximum ends in a sink (`IsPathLength.isGreatest`); no
order of the nodes is needed.
-/

namespace TraceScheduler

variable {α : Type*} {succs : α → List α} {weight len : α → ℤ} {nodes : List α} {n m : α}
  {path : List α}

/-- `path` starts at a node and ends in a node without successors. -/
inductive SinkPath (succs : α → List α) : α → List α → Prop
  | sink {n : α} : succs n = [] → SinkPath succs n [n]
  | step {n m : α} {path : List α} : m ∈ succs n → SinkPath succs m path →
      SinkPath succs n (n :: path)

/-- The sum of the weights along a path. -/
def pathWeight (weight : α → ℤ) (path : List α) : ℤ := (path.map weight).sum

@[simp] theorem pathWeight_cons : pathWeight weight (n :: path) = weight n + pathWeight weight path := by
  rw [pathWeight, List.map_cons, List.sum_cons, pathWeight]

@[simp] theorem pathWeight_nil : pathWeight weight [] = 0 := rfl

/-- The recurrence: the weight of a node, and the largest value among its successors. -/
structure IsPathLength (succs : α → List α) (weight : α → ℤ) (nodes : List α) (len : α → ℤ) :
    Prop where
  closed : ∀ n ∈ nodes, ∀ m ∈ succs n, m ∈ nodes
  sink : ∀ n ∈ nodes, succs n = [] → len n = weight n
  step : ∀ n ∈ nodes, ∀ m ∈ succs n, weight n + len m ≤ len n
  attained : ∀ n ∈ nodes, succs n ≠ [] → ∃ m ∈ succs n, len n = weight n + len m

/-- The values fall along every edge, so nothing leads back to itself. -/
theorem IsPathLength.acyclic (h : IsPathLength succs weight nodes len)
    (hweight : ∀ n ∈ nodes, 0 < weight n) (hn : n ∈ nodes) :
    ¬ Relation.TransGen (fun a b => b ∈ succs a) n n := by
  have hfalls : ∀ m, Relation.TransGen (fun a b => b ∈ succs a) n m → m ∈ nodes ∧ len m < len n := by
    intro m hnm
    induction hnm with
    | single hm =>
      have hstep := h.step n hn _ hm
      have hpos := hweight n hn
      exact ⟨h.closed n hn _ hm, by omega⟩
    | @tail a b _ hm ih =>
      have hstep := h.step a ih.1 b hm
      have hpos := hweight a ih.1
      exact ⟨h.closed a ih.1 b hm, by omega⟩
  intro hcycle
  exact absurd (hfalls n hcycle).2 (Int.lt_irrefl _)

theorem IsPathLength.pathWeight_le (h : IsPathLength succs weight nodes len) (hn : n ∈ nodes)
    (hpath : SinkPath succs n path) : pathWeight weight path ≤ len n := by
  induction hpath with
  | sink hsink =>
    rw [pathWeight_cons, pathWeight_nil, h.sink _ hn hsink]
    omega
  | step hm _ ih =>
    have hle := h.step _ hn _ hm
    have hrest := ih (h.closed _ hn _ hm)
    rw [pathWeight_cons]
    omega

/-- Some path attains the value: each step goes to a smaller one. -/
theorem IsPathLength.exists_path (h : IsPathLength succs weight nodes len)
    (hweight : ∀ n ∈ nodes, 0 < weight n) (hlen : ∀ n ∈ nodes, 0 ≤ len n) (hn : n ∈ nodes) :
    ∃ path, SinkPath succs n path ∧ len n = pathWeight weight path := by
  induction hk : (len n).toNat using Nat.strong_induction_on generalizing n with
  | _ k ih =>
    by_cases hsink : succs n = []
    · refine ⟨[n], .sink hsink, ?_⟩
      rw [h.sink n hn hsink, pathWeight_cons, pathWeight_nil, add_zero]
    · obtain ⟨m, hm, heq⟩ := h.attained n hn hsink
      have hmem := h.closed n hn m hm
      have hpos := hweight n hn
      have hnonneg := hlen m hmem
      obtain ⟨path, hpath, hlength⟩ := ih (len m).toNat (by omega) hmem rfl
      refine ⟨n :: path, .step hm hpath, ?_⟩
      rw [heq, hlength, pathWeight_cons]

/-- **The solution of the recurrence is the greatest weight of a path to a sink.** -/
theorem IsPathLength.isGreatest (h : IsPathLength succs weight nodes len)
    (hweight : ∀ n ∈ nodes, 0 < weight n) (hlen : ∀ n ∈ nodes, 0 ≤ len n) (hn : n ∈ nodes) :
    IsGreatest {w | ∃ path, SinkPath succs n path ∧ w = pathWeight weight path} (len n) := by
  constructor
  · exact h.exists_path hweight hlen hn
  · intro w hw
    obtain ⟨path, hpath, rfl⟩ := hw
    exact h.pathWeight_le hn hpath

end TraceScheduler
