import TraceScheduler.Library.PairOrder
import Mathlib.Data.Finset.Card
import Mathlib.Logic.Relation

/-!
# What a release order contains

Some nodes are eligible, and an eligible node is released as soon as all its predecessors have been.
`IsReleaseOrder` is the outcome on any finite graph, cyclic or not: an order that contains a node
exactly if it is eligible and all its predecessors are in the order too.  Such an order contains
exactly the nodes behind which, themselves included, everything is eligible and nothing lies on a
cycle (`IsReleaseOrder.mem_iff_ancestors`).
-/

namespace TraceScheduler

open scoped List

variable {α : Type*} {edge : α → α → Prop} {eligible : α → Prop} {order nodes : List α} {m n : α}

/-- Everything is released whose predecessors are, after them and once. -/
structure IsReleaseOrder (edge : α → α → Prop) (eligible : α → Prop) (order : List α) : Prop where
  nodup : order.Nodup
  mem_iff : ∀ n, n ∈ order ↔ eligible n ∧ ∀ p, edge p n → p ∈ order
  ordered : ∀ p n, edge p n → n ∈ order → [p, n] <+ order

theorem IsReleaseOrder.mem_of_ancestor (h : IsReleaseOrder edge eligible order)
    (hmn : Relation.ReflTransGen edge m n) (hn : n ∈ order) : m ∈ order := by
  induction hmn using Relation.ReflTransGen.head_induction_on with
  | refl => exact hn
  | head hstep _ ih => exact ((h.mem_iff _).mp ih).2 _ hstep

/-- A chain of edges into the order runs forward in it. -/
theorem IsReleaseOrder.before (h : IsReleaseOrder edge eligible order)
    (hmn : Relation.TransGen edge m n) (hn : n ∈ order) : [m, n] <+ order := by
  induction hmn with
  | single hstep => exact h.ordered _ _ hstep hn
  | @tail a b _ hstep ih =>
    have hab := h.ordered a b hstep hn
    exact sublist_pair_trans h.nodup (ih (hab.subset List.mem_cons_self)) hab

/-- **Induction over the ancestors** of a node none of which lies on a cycle. -/
theorem ancestor_induction (hnodes : ∀ a b, edge a b → a ∈ nodes) {motive : α → Prop}
    (hstep : ∀ n, (∀ p, edge p n → motive p) → motive n)
    (hacyclic : ∀ m, Relation.ReflTransGen edge m n → ¬ Relation.TransGen edge m m) : motive n := by
  classical
  let ancestors : α → Finset α := fun n => nodes.toFinset.filter fun m => Relation.TransGen edge m n
  induction hk : (ancestors n).card using Nat.strong_induction_on generalizing n with
  | _ k ih =>
    apply hstep
    intro p hpn
    have hlt : (ancestors p).card < (ancestors n).card := by
      apply Finset.card_lt_card
      apply Finset.ssubset_iff_subset_ne.mpr
      have hp : p ∈ ancestors n :=
        Finset.mem_filter.mpr ⟨List.mem_toFinset.mpr (hnodes p n hpn), .single hpn⟩
      constructor
      · intro m hm
        obtain ⟨hmem, hmp⟩ := Finset.mem_filter.mp hm
        exact Finset.mem_filter.mpr ⟨hmem, hmp.tail hpn⟩
      · intro heq
        -- `p` is an ancestor of `n` and not of itself
        rw [← heq] at hp
        exact hacyclic p (.single hpn) (Finset.mem_filter.mp hp).2
    apply ih _ (hk ▸ hlt) _ rfl
    intro m hmp
    exact hacyclic m (hmp.tail hpn)

/-- **Exactly the nodes behind which all is eligible and nothing is cyclic.** -/
theorem IsReleaseOrder.mem_iff_ancestors (h : IsReleaseOrder edge eligible order)
    (hnodes : ∀ a b, edge a b → a ∈ nodes) :
    n ∈ order ↔ ∀ m, Relation.ReflTransGen edge m n → eligible m ∧ ¬ Relation.TransGen edge m m := by
  constructor
  · intro hn m hmn
    have hm := h.mem_of_ancestor hmn hn
    refine ⟨((h.mem_iff m).mp hm).1, ?_⟩
    intro hcycle
    have hnodup := (h.before hcycle hm).nodup h.nodup
    simp at hnodup
  · intro hall
    have hmem : (∀ m, Relation.ReflTransGen edge m n → eligible m) → n ∈ order := by
      apply ancestor_induction (motive := fun n => (∀ m, Relation.ReflTransGen edge m n →
        eligible m) → n ∈ order) hnodes _ fun m hmn => (hall m hmn).2
      intro n ih helig
      refine (h.mem_iff n).mpr ⟨helig n .refl, ?_⟩
      intro p hpn
      apply ih p hpn
      intro m hmp
      exact helig m (hmp.tail hpn)
    exact hmem fun m hmn => (hall m hmn).1

end TraceScheduler
