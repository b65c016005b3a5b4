import TraceScheduler.Library.Dominance
import Mathlib.Data.List.Basic
import Mathlib.Data.List.Nodup
import Mathlib.Data.List.Perm.Subperm

/-!
# Breadth-first order of a flow graph

`bfsLoop` is the usual worklist: the order grows at its end while an index walks over it.  On a
finite universe closed under successors the loop ends (`bfsLoop_isSome`), and its result has the
four properties gathered in `IsBreadthFirst`.  From them alone:

* the order lists exactly the reachable blocks (`IsBreadthFirst.mem_iff`);
* **breadth-first positions extend the dominance order** (`IsBreadthFirst.idxOf_le_of_dominates`),
  on any graph: the tree path to a block runs through all its dominators.

The same search, run on the graph without one block or without one edge, decides dominance and
edge dominance (`dominatesB_iff`, `edgeDominatesB_iff`).
-/

namespace TraceScheduler

namespace FlowGraph

variable {B : Type*} [DecidableEq B] {G : FlowGraph B}

/-- Append the members of `ss` that the order does not hold yet. -/
def visitSuccs (order ss : List B) : List B :=
  ss.foldl (fun order s => if s ∈ order then order else order ++ [s]) order

/-- The breadth-first worklist, `none` when the fuel runs out. -/
def bfsLoop (G : FlowGraph B) : ℕ → ℕ → List B → Option (List B)
  | 0, _, _ => none
  | fuel + 1, i, order =>
      match order[i]? with
      | none => some order
      | some b => bfsLoop G fuel (i + 1) (visitSuccs order (G.succs b))

def breadthFirst (G : FlowGraph B) (fuel : ℕ) : Option (List B) := bfsLoop G fuel 0 [G.entry]

/-- What a breadth-first order is: no repetition, headed by the entry, closed under successors, and
every other block discovered from an earlier one. -/
structure IsBreadthFirst (G : FlowGraph B) (order : List B) : Prop where
  nodup : order.Nodup
  head : order.head? = some G.entry
  closed : ∀ u ∈ order, ∀ v ∈ G.succs u, v ∈ order
  parent : ∀ v ∈ order, v = G.entry ∨
    ∃ u ∈ order, v ∈ G.succs u ∧ order.idxOf u < order.idxOf v

/-! ### One round of the worklist -/

/-- The part of `IsBreadthFirst` that holds throughout the search, with the blocks before `i` closed. -/
structure BfsInv (G : FlowGraph B) (i : ℕ) (order : List B) : Prop where
  nodup : order.Nodup
  head : order.head? = some G.entry
  closed : ∀ u ∈ order, order.idxOf u < i → ∀ v ∈ G.succs u, v ∈ order
  parent : ∀ v ∈ order, v = G.entry ∨
    ∃ u ∈ order, v ∈ G.succs u ∧ order.idxOf u < order.idxOf v

theorem mem_visitSuccs {order ss : List B} {x : B} :
    x ∈ visitSuccs order ss ↔ x ∈ order ∨ x ∈ ss := by
  induction ss generalizing order with
  | nil => simp [visitSuccs]
  | cons s ss ih =>
    rw [visitSuccs, List.foldl_cons, ← visitSuccs, ih, List.mem_cons]
    split
    · rename_i hs
      constructor
      · rintro (h | h)
        · exact .inl h
        · exact .inr (.inr h)
      · rintro (h | rfl | h)
        · exact .inl h
        · exact .inl hs
        · exact .inr h
    · rw [List.mem_append, List.mem_singleton, or_assoc]

theorem prefix_visitSuccs (order ss : List B) : order <+: visitSuccs order ss := by
  induction ss generalizing order with
  | nil => exact List.prefix_refl _
  | cons s ss ih =>
    rw [visitSuccs, List.foldl_cons, ← visitSuccs]
    split
    · exact ih order
    · exact (List.prefix_append _ _).trans (ih _)

/-- Discovering one block from an earlier one keeps the discovery order. -/
theorem BfsInv.push {i : ℕ} {order : List B} {u s : B} (h : BfsInv G i order) (hu : u ∈ order)
    (hi : i ≤ order.length) (hs : s ∈ G.succs u) (hnew : s ∉ order) :
    BfsInv G i (order ++ [s]) where
  nodup := by
    refine List.nodup_append.mpr ⟨h.nodup, List.nodup_singleton _, ?_⟩
    rintro x hx y hy rfl
    exact hnew (List.mem_singleton.mp hy ▸ hx)
  head := by
    obtain ⟨t, ht⟩ : ∃ t, order = G.entry :: t := by
      have hhead := h.head
      cases order with
      | nil => cases hhead
      | cons b t => exact ⟨t, by rw [List.head?_cons, Option.some.injEq] at hhead; rw [hhead]⟩
    rw [ht]
    rfl
  closed := by
    intro w hw hlt v hv
    rcases List.mem_append.mp hw with hw | hw
    · rw [List.idxOf_append_of_mem hw] at hlt
      exact List.mem_append_left _ (h.closed w hw hlt v hv)
    · obtain rfl := List.mem_singleton.mp hw
      rw [List.idxOf_append_of_notMem hnew] at hlt
      omega
  parent := by
    intro v hv
    rcases List.mem_append.mp hv with hv | hv
    · rcases h.parent v hv with he | ⟨w, hw, hvw, hlt⟩
      · exact .inl he
      · refine .inr ⟨w, List.mem_append_left _ hw, hvw, ?_⟩
        rwa [List.idxOf_append_of_mem hw, List.idxOf_append_of_mem hv]
    · obtain rfl := List.mem_singleton.mp hv
      refine .inr ⟨u, List.mem_append_left _ hu, hs, ?_⟩
      rw [List.idxOf_append_of_mem hu, List.idxOf_append_of_notMem hnew]
      have := List.idxOf_lt_length_of_mem hu
      omega

theorem BfsInv.visitSuccs {i : ℕ} {order ss : List B} {u : B} (h : BfsInv G i order)
    (hu : u ∈ order) (hi : i ≤ order.length) (hss : ∀ s ∈ ss, s ∈ G.succs u) :
    BfsInv G i (visitSuccs order ss) := by
  induction ss generalizing order with
  | nil => exact h
  | cons s ss ih =>
    have hss' : ∀ s ∈ ss, s ∈ G.succs u := fun x hx => hss x (List.mem_cons_of_mem _ hx)
    rw [FlowGraph.visitSuccs, List.foldl_cons, ← FlowGraph.visitSuccs]
    split
    · exact ih h hu hi hss'
    · rename_i hnew
      refine ih (h.push hu hi (hss s List.mem_cons_self) hnew) (List.mem_append_left _ hu) ?_ hss'
      rw [List.length_append]
      omega

/-- One round of the worklist: the block at index `i` joins the closed part. -/
theorem BfsInv.step {i : ℕ} {order : List B} {b : B} (h : BfsInv G i order)
    (hb : order[i]? = some b) : BfsInv G (i + 1) (FlowGraph.visitSuccs order (G.succs b)) := by
  obtain ⟨hi, hbi⟩ := List.getElem?_eq_some_iff.mp hb
  have hbmem : b ∈ order := hbi ▸ List.getElem_mem hi
  have hidx : order.idxOf b = i := by rw [← hbi]; exact h.nodup.idxOf_getElem i hi
  have h' := h.visitSuccs hbmem hi.le fun _ hs => hs
  refine ⟨h'.nodup, h'.head, ?_, h'.parent⟩
  intro u hu hlt v hv
  obtain ⟨t, ht⟩ := prefix_visitSuccs order (G.succs b)
  have hidx' : ∀ w ∈ order, (FlowGraph.visitSuccs order (G.succs b)).idxOf w = order.idxOf w := by
    intro w hw
    rw [← ht]
    exact List.idxOf_append_of_mem hw
  by_cases hub : u = b
  · subst hub
    exact mem_visitSuccs.mpr (.inr hv)
  · refine h'.closed u hu ?_ v hv
    -- `u` is not the block at index `i`, so its position is below `i`
    have hne : (FlowGraph.visitSuccs order (G.succs b)).idxOf u ≠ i := by
      intro he
      apply hub
      rw [← List.getElem_idxOf (List.idxOf_lt_length_of_mem hu)]
      have hlen : i < (FlowGraph.visitSuccs order (G.succs b)).length := by
        rw [← ht, List.length_append]; omega
      have : (FlowGraph.visitSuccs order (G.succs b))[i] = b := by
        simp only [← ht]
        rw [List.getElem_append_left hi, hbi]
      simp only [he, this]
    omega

theorem bfsInv_init : BfsInv G 0 [G.entry] where
  nodup := List.nodup_singleton _
  head := rfl
  closed := by intro u _ h; omega
  parent := fun v hv => .inl (List.mem_singleton.mp hv)

/-! ### The whole search -/

theorem bfsLoop_spec {fuel i : ℕ} {order result : List B} (h : BfsInv G i order)
    (hrun : bfsLoop G fuel i order = some result) : IsBreadthFirst G result := by
  induction fuel generalizing i order with
  | zero => cases hrun
  | succ fuel ih =>
    rw [bfsLoop] at hrun
    cases hb : order[i]? with
    | none =>
      rw [hb] at hrun
      obtain rfl := Option.some.inj hrun
      have hi := List.getElem?_eq_none_iff.mp hb
      refine ⟨h.nodup, h.head, fun u hu v hv => h.closed u hu ?_ v hv, h.parent⟩
      have := List.idxOf_lt_length_of_mem hu
      omega
    | some b =>
      rw [hb] at hrun
      exact ih (h.step hb) hrun

theorem breadthFirst_spec {fuel : ℕ} {order : List B} (h : G.breadthFirst fuel = some order) :
    IsBreadthFirst G order := bfsLoop_spec bfsInv_init h

omit [DecidableEq B] in
theorem nodup_length_le {l U : List B} (h : l.Nodup) (hsub : ∀ x ∈ l, x ∈ U) :
    l.length ≤ U.length := (h.subperm hsub).length_le

/-- On a universe closed under successors the search ends within one round per block. -/
theorem bfsLoop_isSome {U : List B} (hU : ∀ u ∈ U, ∀ v ∈ G.succs u, v ∈ U) {fuel i : ℕ}
    {order : List B} (h : BfsInv G i order) (hsub : ∀ x ∈ order, x ∈ U) (hi : i ≤ order.length)
    (hfuel : U.length < fuel + i) : (bfsLoop G fuel i order).isSome := by
  induction fuel generalizing i order with
  | zero =>
    -- the index never passes the order, and the order has no more members than the universe
    have := nodup_length_le h.nodup hsub
    omega
  | succ fuel ih =>
    rw [bfsLoop]
    cases hb : order[i]? with
    | none => rfl
    | some b =>
      have hlt : i < order.length := (List.getElem?_eq_some_iff.mp hb).1
      have hlen := (prefix_visitSuccs order (G.succs b)).length_le
      refine ih (h.step hb) ?_ (by omega) (by omega)
      intro x hx
      rcases mem_visitSuccs.mp hx with hx | hx
      · exact hsub x hx
      · exact hU b (hsub b (List.mem_of_getElem? hb)) x hx

theorem breadthFirst_isSome {U : List B} (hentry : G.entry ∈ U)
    (hU : ∀ u ∈ U, ∀ v ∈ G.succs u, v ∈ U) :
    ∃ order, G.breadthFirst (U.length + 1) = some order := by
  refine Option.isSome_iff_exists.mp (bfsLoop_isSome hU bfsInv_init ?_ (Nat.zero_le _) (by omega))
  intro x hx
  exact List.mem_singleton.mp hx ▸ hentry

/-! ### Reachability and dominance in the order -/

theorem IsBreadthFirst.mem_iff {order : List B} (h : IsBreadthFirst G order) {b : B} :
    b ∈ order ↔ G.Reachable b := by
  constructor
  · intro hb
    induction hn : order.idxOf b using Nat.strong_induction_on generalizing b with
    | _ n ih =>
      rcases h.parent b hb with rfl | ⟨u, hu, hbu, hlt⟩
      · exact .entry
      · exact (ih _ (hn ▸ hlt) hu rfl).step hbu
  · intro hb
    exact hb.closed (List.mem_of_mem_head? h.head) fun u v hu hv => h.closed u hu v hv

theorem IsBreadthFirst.idxOf_entry {order : List B} (h : IsBreadthFirst G order) :
    order.idxOf G.entry = 0 := by
  obtain ⟨t, ht⟩ := List.head?_eq_some_iff.mp h.head
  rw [ht]
  exact List.idxOf_cons_self

theorem IsBreadthFirst.idxOf_eq_zero {order : List B} (h : IsBreadthFirst G order) {b : B}
    (hb : b ∈ order) : order.idxOf b = 0 ↔ b = G.entry := by
  rw [← h.idxOf_entry, List.idxOf_inj hb]

/-- **Breadth-first positions extend dominance**: a dominator never comes after what it dominates. -/
theorem IsBreadthFirst.idxOf_le_of_dominates {order : List B} (h : IsBreadthFirst G order) {a b : B}
    (hab : G.Dominates a b) (hb : b ∈ order) : order.idxOf a ≤ order.idxOf b := by
  -- induction along the discovery tree: the dominator already dominates the parent
  induction hn : order.idxOf b using Nat.strong_induction_on generalizing b with
  | _ n ih =>
    by_cases hne : a = b
    · exact (hne ▸ hn).le
    · rcases h.parent b hb with rfl | ⟨u, hu, hbu, hlt⟩
      · exact absurd hab.eq_entry hne
      · have := ih _ (hn ▸ hlt) (hab.pred hne hbu) hu rfl
        omega

/-! ### Deciding dominance by search -/

/-- The graph without the block `x`. -/
def remove (G : FlowGraph B) (x : B) : FlowGraph B where
  entry := G.entry
  succs u := (G.succs u).filter (· ≠ x)

/-- The graph without the edge `u → v`. -/
def removeEdge (G : FlowGraph B) (u v : B) : FlowGraph B where
  entry := G.entry
  succs w := if w = u then (G.succs w).filter (· ≠ v) else G.succs w

theorem avoids_iff_remove {x b : B} : G.Avoids x b ↔ G.entry ≠ x ∧ (G.remove x).Reachable b := by
  constructor
  · intro h
    induction h with
    | entry hne => exact ⟨hne, .entry⟩
    | step _ hs hne ih => exact ⟨ih.1, ih.2.step (List.mem_filter.mpr ⟨hs, by simpa using hne⟩)⟩
  · rintro ⟨hne, hb⟩
    refine hb.closed (.entry hne) fun u v hu hv => ?_
    obtain ⟨hv, hvx⟩ := List.mem_filter.mp hv
    exact hu.step hv (by simpa using hvx)

theorem path_removeEdge {u v b : B} {l : List B} (h : G.Path b l) (hedge : ¬ [v, u] <:+: l) :
    (G.removeEdge u v).Path b l := by
  induction h with
  | entry => exact .entry
  | @step w b l hp hs ih =>
    refine .step (ih fun h => hedge (h.trans (List.suffix_cons _ _).isInfix)) ?_
    by_cases hw : w = u
    · subst hw
      have hb : b ≠ v := by
        intro heq
        subst heq
        obtain ⟨t, rfl⟩ := hp.exists_cons
        exact hedge ⟨[], t, rfl⟩
      simp only [removeEdge, if_true]
      exact List.mem_filter.mpr ⟨hs, by simpa using hb⟩
    · simpa only [removeEdge, if_neg hw] using hs

theorem path_of_removeEdge {u v b : B} {l : List B} (h : (G.removeEdge u v).Path b l) :
    G.Path b l ∧ ¬ [v, u] <:+: l := by
  induction h with
  | entry => exact ⟨.entry, fun h => by simpa using h.length_le⟩
  | @step w b l hp hs ih =>
    have hs' : b ∈ G.succs w ∧ ¬ (w = u ∧ b = v) := by
      by_cases hw : w = u
      · simp only [removeEdge, hw, if_true] at hs
        obtain ⟨hs, hb⟩ := List.mem_filter.mp hs
        exact ⟨hw ▸ hs, fun h => by simp [h.2] at hb⟩
      · simp only [removeEdge, if_neg hw] at hs
        exact ⟨hs, fun h => hw h.1⟩
    refine ⟨ih.1.step hs'.1, fun h => ?_⟩
    rcases List.infix_cons_iff.mp h with hpre | hinf
    · obtain ⟨t, rfl⟩ := ih.1.exists_cons
      rw [List.cons_prefix_cons, List.cons_prefix_cons] at hpre
      exact hs'.2 ⟨hpre.2.1.symm, hpre.1.symm⟩
    · exact ih.2 hinf

theorem edgeDominates_iff_removeEdge {u v b : B} :
    G.EdgeDominates u v b ↔ ¬ (G.removeEdge u v).Reachable b := by
  constructor
  · rintro h ⟨l, hl⟩
    obtain ⟨hp, hedge⟩ := path_of_removeEdge hl
    exact hedge (h l hp)
  · intro h l hl
    by_contra hedge
    exact h ⟨l, path_removeEdge hl hedge⟩

/-- Reachability by search, on a universe of blocks. -/
def reachableB (G : FlowGraph B) (U : List B) (b : B) : Bool :=
  match G.breadthFirst (U.length + 1) with
  | some order => order.contains b
  | none => false

def dominatesB (G : FlowGraph B) (U : List B) (a b : B) : Bool :=
  G.entry == a || !(G.remove a).reachableB U b

def edgeDominatesB (G : FlowGraph B) (U : List B) (u v b : B) : Bool :=
  !(G.removeEdge u v).reachableB U b

section Decide

variable {U : List B} (hentry : G.entry ∈ U) (hU : ∀ u ∈ U, ∀ v ∈ G.succs u, v ∈ U)

include hentry hU

theorem reachableB_iff {b : B} : G.reachableB U b = true ↔ G.Reachable b := by
  obtain ⟨order, horder⟩ := breadthFirst_isSome hentry hU
  rw [reachableB, horder]
  simpa using (breadthFirst_spec horder).mem_iff

theorem dominatesB_iff {a b : B} : G.dominatesB U a b = true ↔ G.Dominates a b := by
  have hrem : (G.remove a).reachableB U b = true ↔ (G.remove a).Reachable b :=
    reachableB_iff (G := G.remove a) hentry fun u hu v hv => hU u hu v (List.mem_filter.mp hv).1
  rw [dominatesB, Bool.or_eq_true, beq_iff_eq, Bool.not_eq_true', ← Bool.not_eq_true, hrem,
    ← not_iff_not, not_dominates_iff_avoids, avoids_iff_remove]
  tauto

theorem edgeDominatesB_iff {u v b : B} :
    G.edgeDominatesB U u v b = true ↔ G.EdgeDominates u v b := by
  have hrem : (G.removeEdge u v).reachableB U b = true ↔ (G.removeEdge u v).Reachable b := by
    refine reachableB_iff (G := G.removeEdge u v) hentry fun w hw x hx => hU w hw x ?_
    simp only [removeEdge] at hx
    split at hx
    · exact (List.mem_filter.mp hx).1
    · exact hx
  rw [edgeDominatesB, Bool.not_eq_true', ← Bool.not_eq_true, hrem, edgeDominates_iff_removeEdge]

end Decide

end FlowGraph

end TraceScheduler
