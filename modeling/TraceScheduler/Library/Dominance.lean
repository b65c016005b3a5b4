import Mathlib.Data.List.Infix
import Mathlib.Tactic.Common

/-!
# Flow graphs: paths from the entry, dominance and edge dominance

A flow graph is a rooted directed graph given by an entry and a successor list.  Everything here is
stated over an arbitrary type of blocks and for arbitrary graphs: irreducible loops, self loops,
repeated edges and unreachable blocks are all allowed.

* `Path b l`: `l` is a path from the entry to `b`, listed **last block first**;
* `Dominates a b`: every path from the entry to `b` passes through `a`;
* `EdgeDominates u v b`: every path from the entry to `b` uses the edge `u → v`;
* `Avoids x b`: some path from the entry to `b` stays clear of `x`, as a step relation.

The order facts (`Dominates.trans`, `Dominates.antisymm`, `Dominates.total`) and the fact about one edge
(`Dominates.pred`) are what the development uses: they carry an availability fact from the entry of a
block to the end of each of its predecessors.
-/

namespace TraceScheduler

/-- A rooted directed graph: an entry block and, for each block, its list of successors. -/
structure FlowGraph (B : Type*) where
  entry : B
  succs : B → List B

namespace FlowGraph

variable {B : Type*} {G : FlowGraph B} {a b c u v x : B} {l : List B}

/-- `G.Path b l`: `l` lists, last block first, the blocks of a path from the entry to `b`. -/
inductive Path (G : FlowGraph B) : B → List B → Prop
  | entry : Path G G.entry [G.entry]
  | step {u v : B} {l : List B} : Path G u l → v ∈ G.succs u → Path G v (v :: l)

def Reachable (G : FlowGraph B) (b : B) : Prop := ∃ l, G.Path b l

/-- Every path from the entry to `b` passes through `a`. -/
def Dominates (G : FlowGraph B) (a b : B) : Prop := ∀ l, G.Path b l → a ∈ l

def StrictlyDominates (G : FlowGraph B) (a b : B) : Prop := a ≠ b ∧ G.Dominates a b

/-- Every path from the entry to `b` uses the edge `u → v`. -/
def EdgeDominates (G : FlowGraph B) (u v b : B) : Prop := ∀ l, G.Path b l → [v, u] <:+: l

/-- `b` is reached by a path that stays clear of `x`. -/
inductive Avoids (G : FlowGraph B) (x : B) : B → Prop
  | entry : G.entry ≠ x → Avoids G x G.entry
  | step {u v : B} : Avoids G x u → v ∈ G.succs u → v ≠ x → Avoids G x v

/-! ### Paths -/

theorem Path.exists_cons (h : G.Path b l) : ∃ t, l = b :: t := by
  cases h with
  | entry => exact ⟨[], rfl⟩
  | step _ _ => exact ⟨_, rfl⟩

theorem Path.mem_self (h : G.Path b l) : b ∈ l := by
  obtain ⟨t, rfl⟩ := h.exists_cons
  exact List.mem_cons_self

/-- A path through `a` starts with a path to `a`. -/
theorem Path.exists_suffix (h : G.Path b l) (ha : a ∈ l) : ∃ l', G.Path a l' ∧ l' <:+ l := by
  induction h with
  | entry =>
    obtain rfl := List.mem_singleton.mp ha
    exact ⟨_, .entry, List.suffix_refl _⟩
  | step hp hs ih =>
    rcases List.mem_cons.mp ha with rfl | ha
    · exact ⟨_, .step hp hs, List.suffix_refl _⟩
    · obtain ⟨l', hl', hsuf⟩ := ih ha
      exact ⟨l', hl', hsuf.trans (List.suffix_cons _ _)⟩

theorem Reachable.entry : G.Reachable G.entry := ⟨_, .entry⟩

theorem Reachable.step (h : G.Reachable u) (hv : v ∈ G.succs u) : G.Reachable v := by
  obtain ⟨l, hl⟩ := h
  exact ⟨_, hl.step hv⟩

/-- Reachability is the least set that holds the entry and is closed under successors. -/
theorem Reachable.closed {P : B → Prop} (h : G.Reachable b) (h0 : P G.entry)
    (hstep : ∀ u v, P u → v ∈ G.succs u → P v) : P b := by
  obtain ⟨l, hl⟩ := h
  induction hl with
  | entry => exact h0
  | step _ hs ih => exact hstep _ _ ih hs

/-- A reachable block is reached by a path that meets it only at its end. -/
theorem Reachable.exists_first (h : G.Reachable b) : ∃ l, G.Path b (b :: l) ∧ b ∉ l := by
  obtain ⟨l, hl⟩ := h
  induction hn : l.length using Nat.strong_induction_on generalizing l with
  | _ n ih =>
    cases hl with
    | entry => exact ⟨[], .entry, List.not_mem_nil⟩
    | @step u _ t hp hs =>
      by_cases hb : b ∈ t
      · obtain ⟨l', hl', hsuf⟩ := hp.exists_suffix hb
        refine ih l'.length ?_ l' hl' rfl
        have hlen := hsuf.length_le
        simp only [List.length_cons] at hn
        omega
      · exact ⟨t, hp.step hs, hb⟩

/-! ### Dominance -/

theorem Dominates.refl (b : B) : G.Dominates b b := fun _ hl => hl.mem_self

theorem Dominates.trans (hab : G.Dominates a b) (hbc : G.Dominates b c) : G.Dominates a c := by
  intro l hl
  obtain ⟨l', hl', hsuf⟩ := hl.exists_suffix (hbc l hl)
  exact hsuf.subset (hab l' hl')

theorem Dominates.reachable (h : G.Dominates a b) (hb : G.Reachable b) : G.Reachable a := by
  obtain ⟨l, hl⟩ := hb
  obtain ⟨l', hl', _⟩ := hl.exists_suffix (h l hl)
  exact ⟨l', hl'⟩

theorem Dominates.entry (b : B) : G.Dominates G.entry b := by
  intro l hl
  induction hl with
  | entry => exact List.mem_cons_self
  | step _ _ ih => exact List.mem_cons_of_mem _ ih

theorem Dominates.eq_entry (h : G.Dominates a G.entry) : a = G.entry :=
  List.mem_singleton.mp (h _ .entry)

theorem Dominates.antisymm (hab : G.Dominates a b) (hba : G.Dominates b a)
    (ha : G.Reachable a) : a = b := by
  obtain ⟨l, hl, hfirst⟩ := ha.exists_first
  rcases List.mem_cons.mp (hba _ hl) with h | hb
  · exact h.symm
  · -- a path to `b` inside the tail would meet `a` again
    cases hl with
    | entry => exact absurd hb List.not_mem_nil
    | step hp _ =>
      obtain ⟨l', hl', hsuf⟩ := hp.exists_suffix hb
      exact absurd (hsuf.subset (hab l' hl')) hfirst

/-- A strict dominator of `v` dominates every predecessor of `v`. -/
theorem Dominates.pred (h : G.Dominates a v) (hne : a ≠ v) (hs : v ∈ G.succs u) :
    G.Dominates a u := by
  intro l hl
  rcases List.mem_cons.mp (h _ (hl.step hs)) with h | h
  · exact absurd h hne
  · exact h

theorem Avoids.exists_path (h : G.Avoids x b) : ∃ l, G.Path b l ∧ x ∉ l := by
  induction h with
  | entry hne => exact ⟨_, .entry, fun hx => hne (List.mem_singleton.mp hx).symm⟩
  | step _ hs hne ih =>
    obtain ⟨l, hl, hx⟩ := ih
    refine ⟨_, hl.step hs, fun hx' => ?_⟩
    rcases List.mem_cons.mp hx' with rfl | hx'
    · exact hne rfl
    · exact hx hx'

theorem Path.avoids (h : G.Path b l) (hx : x ∉ l) : G.Avoids x b := by
  induction h with
  | entry => exact .entry fun he => hx (he ▸ List.mem_cons_self)
  | step _ hs ih =>
    refine .step (ih fun h => hx (List.mem_cons_of_mem _ h)) hs fun he => ?_
    exact hx (he ▸ List.mem_cons_self)

/-- Avoidance decides dominance. -/
theorem not_dominates_iff_avoids : ¬ G.Dominates x b ↔ G.Avoids x b := by
  constructor
  · intro h
    simp only [Dominates, not_forall] at h
    obtain ⟨l, hl, hx⟩ := h
    exact hl.avoids hx
  · intro h hd
    obtain ⟨l, hl, hx⟩ := h.exists_path
    exact hx (hd l hl)

/-- Two dominators of one reachable block are comparable. -/
theorem Dominates.total (ha : G.Dominates a c) (hb : G.Dominates b c) (hc : G.Reachable c) :
    G.Dominates a b ∨ G.Dominates b a := by
  by_contra hnot
  rw [not_or, not_dominates_iff_avoids, not_dominates_iff_avoids] at hnot
  obtain ⟨hab, hba⟩ := hnot
  have hne : a ≠ b := by
    intro heq
    subst heq
    exact (not_dominates_iff_avoids.mpr hab) (.refl a)
  -- every reachable block avoids one of the two: where a path runs into one, it switches to the other
  have hall : G.Avoids a c ∨ G.Avoids b c := by
    refine hc.closed (P := fun d => G.Avoids a d ∨ G.Avoids b d) ?_ ?_
    · by_cases he : G.entry = a
      · exact .inr (.entry fun h => hne (he.symm.trans h))
      · exact .inl (.entry he)
    · rintro u v (hu | hu) hs
      · by_cases hv : v = a
        · exact .inr (hv ▸ hba)
        · exact .inl (hu.step hs hv)
      · by_cases hv : v = b
        · exact .inl (hv ▸ hab)
        · exact .inr (hu.step hs hv)
  rcases hall with h | h
  · exact not_dominates_iff_avoids.mpr h ha
  · exact not_dominates_iff_avoids.mpr h hb

/-- The strict dominator closest to `b`: the other ones dominate it. -/
structure IsImmediateDominator (G : FlowGraph B) (d b : B) : Prop where
  strict : G.StrictlyDominates d b
  closest : ∀ a, G.StrictlyDominates a b → G.Dominates a d

theorem IsImmediateDominator.unique (h : G.IsImmediateDominator a c)
    (h' : G.IsImmediateDominator b c) (hc : G.Reachable c) : a = b :=
  (h'.closest a h.strict).antisymm (h.closest b h'.strict) (h.strict.2.reachable hc)

/-- A strict dominator that dominates no other one is the closest. -/
theorem isImmediateDominator_of_last (h : G.StrictlyDominates a c) (hc : G.Reachable c)
    (hlast : ∀ b, G.StrictlyDominates b c → b ≠ a → ¬ G.Dominates a b) :
    G.IsImmediateDominator a c := by
  refine ⟨h, ?_⟩
  intro b hb
  by_cases hne : b = a
  · exact hne ▸ .refl b
  · exact (hb.2.total h.2 hc).resolve_right (hlast b hb hne)

/-! ### Edge dominance -/

theorem EdgeDominates.source_dominates (h : G.EdgeDominates u v b) : G.Dominates u b :=
  fun l hl => (h l hl).subset (by simp)

/-- No edge out of a reachable block dominates that block. -/
theorem not_edgeDominates_source (hu : G.Reachable u) : ¬ G.EdgeDominates u v u := by
  intro h
  obtain ⟨l, hl, hfirst⟩ := hu.exists_first
  rcases List.infix_cons_iff.mp (h _ hl) with hpre | hinf
  · rw [List.cons_prefix_cons] at hpre
    exact hfirst (hpre.2.subset List.mem_cons_self)
  · exact hfirst (hinf.subset (by simp))

end FlowGraph

end TraceScheduler
