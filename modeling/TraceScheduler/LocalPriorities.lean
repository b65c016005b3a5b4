import TraceScheduler.LocalCompleteness

/-!
# When the graph of a block is acyclic

`buildLocalDDG` gives PHIs nodes and edges.  In reachable code every other instruction stands behind
its operands, so edges into anything but a PHI run forward in the block; an edge into a PHI comes from
wherever in the block its value is computed.  A cycle therefore goes through a PHI that reads, on some
back edge, a value computed from it (`dependsWithin_acyclic_iff`): the counter of a loop, where the
header increments it.  On a cycle the recurrence of the critical paths has no solution.
-/

namespace TraceScheduler

open scoped List

variable {F : Function} {bb : BasicBlock} {a b d n p : InstrId}

/-- Within `bb`, `b` depends on `a`: it reads `a`, or both may touch memory and `a` comes first. -/
def Function.DependsWithin (F : Function) (bb : BasicBlock) (a b : InstrId) : Prop :=
  a ∈ F.body bb ∧ b ∈ F.body bb ∧ (F.Uses b a ∨
    (isOrderedOp (F.instr a) = true ∧ isOrderedOp (F.instr b) = true ∧ [a, b] <+ F.body bb))

/-- No PHI of `bb` reads a value of `bb` that depends on the PHI. -/
def Function.NoPhiCycle (F : Function) (bb : BasicBlock) : Prop :=
  ∀ p d, p ∈ F.body bb → (F.instr p).isPHI = true → d ∈ F.body bb → F.Uses p d →
    ¬ Relation.ReflTransGen (F.DependsWithin bb) p d

theorem edge_buildLocalDDG_iff : (buildLocalDDG F bb).Edge a b ↔ F.DependsWithin bb a b := by
  rw [edge_buildLocalDDG, mem_localDependenceEdges, mem_memoryOrderEdges, Function.DependsWithin]
  constructor
  · intro h
    cases h with
    | inl huse => exact ⟨huse.1, huse.2.1, .inl huse.2.2⟩
    | inr hmem =>
      obtain ⟨hb, hcase⟩ := hmem
      cases hcase with
      | inl hnil => cases hnil.1
      | inr hsub =>
        exact ⟨hsub.2.subset (by simp), hsub.2.subset (by simp), .inr ⟨hsub.1, hb, hsub.2⟩⟩
  · intro h
    obtain ⟨ha, hb, hdep⟩ := h
    cases hdep with
    | inl huse => exact .inl ⟨ha, hb, huse⟩
    | inr hmem => exact .inr ⟨hmem.2.1, .inr ⟨hmem.1, hmem.2.2⟩⟩

theorem edge_buildLocalDDG_eq : (buildLocalDDG F bb).Edge = F.DependsWithin bb := by
  funext a b
  exact propext edge_buildLocalDDG_iff

section

variable (hwf : F.WellFormed) (hssa : F.SSADominance) (hbb : F.cfg.Reachable bb)

include hwf

/-- What a PHI depends on, it reads. -/
theorem uses_of_dependsWithin (hphi : (F.instr p).isPHI = true) (h : F.DependsWithin bb d p) :
    F.Uses p d := by
  obtain ⟨_, _, hdep⟩ := h
  cases hdep with
  | inl huse => exact huse
  | inr hmem =>
    have hop := hmem.2.1
    rw [not_isOrderedOp_of_isPHI hwf hphi] at hop
    cases hop

include hssa hbb

/-- Until it comes to a PHI, a chain of dependences runs forward in the block. -/
theorem before_of_dependsWithin (h : Relation.TransGen (F.DependsWithin bb) a b)
    (hphi : ∀ c, Relation.TransGen (F.DependsWithin bb) a c →
      Relation.ReflTransGen (F.DependsWithin bb) c b → (F.instr c).isPHI = false) :
    [a, b] <+ F.body bb := by
  induction h with
  | single hab =>
    apply localEdge_before hwf hssa hbb (edge_buildLocalDDG_iff.mpr hab)
    exact hphi _ (.single hab) .refl
  | @tail b c hab hbc ih =>
    have hbefore : [b, c] <+ F.body bb := by
      apply localEdge_before hwf hssa hbb (edge_buildLocalDDG_iff.mpr hbc)
      exact hphi c (hab.tail hbc) .refl
    apply sublist_pair_trans (hwf.body_nodup bb) _ hbefore
    apply ih
    intro x hax hxb
    exact hphi x hax (hxb.tail hbc)

/-- **A cycle goes through a PHI** that reads what depends on it. -/
theorem dependsWithin_acyclic_iff :
    (∀ n, ¬ Relation.TransGen (F.DependsWithin bb) n n) ↔ F.NoPhiCycle bb := by
  constructor
  · intro hacyclic p d hp _ hd huse hpd
    exact hacyclic p (Relation.TransGen.tail' hpd ⟨hd, hp, .inl huse⟩)
  · intro hnone n hcycle
    have hnophi : ∀ c, Relation.TransGen (F.DependsWithin bb) n c →
        Relation.ReflTransGen (F.DependsWithin bb) c n → (F.instr c).isPHI = false := by
      intro c hnc hcn
      by_contra hphi
      have hphi : (F.instr c).isPHI = true := by simpa using hphi
      obtain ⟨d, hnd, hdc⟩ := Relation.TransGen.tail'_iff.mp hnc
      exact hnone c d hdc.2.1 hphi hdc.1 (uses_of_dependsWithin hwf hphi hdc) (hcn.trans hnd)
    have hbefore := before_of_dependsWithin hwf hssa hbb hcycle hnophi
    have hnodup := hbefore.nodup (hwf.body_nodup bb)
    simp at hnodup

/-- **The graph of a block is acyclic with consistent priorities exactly when no PHI of the block reads
a value of the block that depends on it.** -/
theorem localPriorities_iff :
    ∃ ddg, (buildLocalDDG F bb).computeCriticalPath = some ddg ∧
      (((∀ n, ¬ Relation.TransGen (buildLocalDDG F bb).Edge n n) ∧ ddg.ConsistentPriorities) ↔
        F.NoPhiCycle bb) := by
  have hbuilt := wellBuilt_buildLocalDDG (F := F) (hwf.body_nodup bb)
  obtain ⟨ddg, hddg⟩ := DDG.computeCriticalPath_isSome hbuilt
  refine ⟨ddg, hddg, ?_⟩
  have hdelay : ∀ n ∈ (buildLocalDDG F bb).nodes, 0 < ((buildLocalDDG F bb).node n).delay := by
    intro n _
    rw [buildLocalDDG_delay]
    exact getDelay_pos _
  rw [DDG.consistentPriorities_iff hbuilt.closed hdelay hddg, ← dependsWithin_acyclic_iff hwf hssa hbb,
    edge_buildLocalDDG_eq]
  constructor
  · intro h
    exact h.1
  · intro h
    exact ⟨h, fun n _ => h n⟩

end

theorem twoBlocks_priorities_iff :
    ∃ ddg, (buildLocalDDG twoBlocks 0).computeCriticalPath = some ddg ∧
      (((∀ n, ¬ Relation.TransGen (buildLocalDDG twoBlocks 0).Edge n n) ∧ ddg.ConsistentPriorities) ↔
        twoBlocks.NoPhiCycle 0) :=
  localPriorities_iff twoBlocks_wellFormed twoBlocks_ssa .entry

/-- **The counter of a one-block loop** and its increment depend on each other, and the increment's
critical path misses the one of the counter. -/
theorem countingLoop_cyclic : countingLoop.WellFormed ∧ countingLoop.SSADominance ∧
    countingLoop.cfg.Reachable 1 ∧
    Relation.TransGen (buildLocalDDG countingLoop 1).Edge 1 1 ∧
    ∃ ddg, (buildLocalDDG countingLoop 1).computeCriticalPath = some ddg ∧
      (ddg.node 2).criticalPath = 2 ∧ (ddg.node 2).delay = 1 ∧ 1 ∈ (ddg.node 2).successors ∧
      (ddg.node 1).criticalPath = 3 ∧ ¬ ddg.ConsistentPriorities := by
  have hcycle : Relation.TransGen (buildLocalDDG countingLoop 1).Edge 1 1 :=
    .tail (.single (by decide : 2 ∈ ((buildLocalDDG countingLoop 1).node 1).successors))
      (by decide : 1 ∈ ((buildLocalDDG countingLoop 1).node 2).successors)
  refine ⟨countingLoop_verified.1, countingLoop_verified.2, .step .entry (by decide), hcycle, ?_⟩
  refine ⟨_, rfl, rfl, rfl, by decide, rfl, ?_⟩
  intro hlength
  have hstep := hlength.step 2 (by decide) 1 (by decide)
  exact absurd hstep (by decide)

end TraceScheduler
