import TraceScheduler.EarliestPlacement

/-!
# Loops

The scheduler leaves moving code out of loops to other passes: a target must have the innermost loop
of the original block, and no loop header is a target.  An instruction may be moved in one trace only,
but the invariant does not need that: the innermost loop is the same after any number of hoists.  So
at every moment of the pass each instruction is in the loop it came from, and headers only lose.
-/

namespace TraceScheduler

open scoped List

variable {F F' : Function} {A : Analyses F.cfg} {traces : List (List BasicBlock)}

/-- Where an instruction that has left its block may be. -/
structure MovedWithinLoop (F : Function) (A : Analyses F.cfg) (i : InstrId) (b b' : BasicBlock) :
    Prop where
  dominates : F.cfg.StrictlyDominates b' b
  not_anchor : F.isAnchor i = false
  not_header : A.isLoopHeader b' = false
  same_loop : A.getLoopFor b' = A.getLoopFor b
  speculated : ∃ F₁ t, A.isSafeToSpeculativelyExecute F₁ i t = true

/-- What hoists within traces do to one instruction. -/
theorem Motions.withinLoop (hwf : F.WellFormed) (h : Motions (HoistOkOn A traces) F F') {i : InstrId}
    {b b' : BasicBlock} (hb : i ∈ F.body b) (hb' : i ∈ F'.body b') :
    b' = b ∨ MovedWithinLoop F A i b b' := by
  have hloop : ∀ b, i ∈ F.body b → b' = b ∨ (A.isLoopHeader b' = false ∧
      A.getLoopFor b' = A.getLoopFor b ∧ ∃ F₁ t, A.isSafeToSpeculativelyExecute F₁ i t = true) := by
    refine h.mem_of_closed hwf (R := fun i b' => ∀ b, i ∈ F.body b → b' = b ∨
      (A.isLoopHeader b' = false ∧ A.getLoopFor b' = A.getLoopFor b ∧
        ∃ F₁ t, A.isSafeToSpeculativelyExecute F₁ i t = true)) ?_ ?_ hb'
    · rintro i src dst hsrc ⟨trace, _, _, _, _, hheader, hsame, hsafe⟩ b hb
      have hsame' := isSameLoopOrOuter_iff.mp hsame
      refine .inr ⟨hheader, ?_, hsafe⟩
      rcases hsrc b hb with rfl | ⟨_, hloop, _⟩
      · exact hsame'.symm
      · exact hsame'.symm.trans hloop
    · intro i b' hb' b hb
      exact .inl (hwf.body_unique hb' hb)
  rcases hloop b hb with heq | ⟨hheader, hsame, hsafe⟩
  · exact .inl heq
  · rcases h.dominates hwf hb hb' with heq | ⟨hdom, _⟩
    · exact .inl heq
    · refine .inr ⟨hdom, ?_, hheader, hsame, hsafe⟩
      by_contra hanchor
      rw [Bool.not_eq_false] at hanchor
      exact hdom.1 (hwf.body_unique ((h.mem_of_anchor hwf hanchor).mp hb') hb)

/-- **No instruction enters or leaves a loop.** At every moment of the global pass, in both modes, each
instruction is in its block or in a strict dominator of it that is no loop header and has the same
innermost loop; then it is no anchor and was called safe to speculate.  In particular a loop header
holds nothing that it did not hold. -/
theorem globalSchedulerPass_loops (hF : Schedulable F) (usePressure : Bool) (env : SchedEnv)
    (profile : Profile) (A : Analyses F.cfg) :
    ∃ st, globalSchedulerPass usePressure env F profile A = some st ∧
      ∀ M, M ∈ st.trail.moments ∨ M = st.trail.current →
        (∀ i b, i ∈ F.body b → ∃ b', i ∈ M.body b' ∧ (b' = b ∨ MovedWithinLoop F A i b b')) ∧
        ∀ b, A.isLoopHeader b = true → ∀ i ∈ M.body b, i ∈ F.body b := by
  obtain ⟨st, _, _, traces, hrun, hspec⟩ := globalSchedulerPass_spec hF usePressure env profile A
  refine ⟨st, hrun, fun M hM => ?_⟩
  have hmotions : Motions (HoistOkOn A traces) F M := by
    rcases hM with hM | rfl
    · exact hspec.steps.of_start hM
    · exact hspec.steps.current
  constructor
  · intro i b hb
    obtain ⟨b', hb'⟩ := (hmotions.exists_mem hF.wf).mpr ⟨b, hb⟩
    exact ⟨b', hb', hmotions.withinLoop hF.wf hb hb'⟩
  · intro b hheader i hi
    obtain ⟨b₀, hb₀⟩ := (hmotions.exists_mem hF.wf).mp ⟨b, hi⟩
    rcases hmotions.withinLoop hF.wf hb₀ hi with rfl | hmoved
    · exact hb₀
    · rw [hmoved.not_header] at hheader
      cases hheader

theorem twoBlocks_loops : ∃ st,
    globalSchedulerPass false ⟨none, none, false⟩ twoBlocks certain twoBlocksAnalyses = some st ∧
      ∀ i b, i ∈ twoBlocks.body b → ∃ b', i ∈ st.trail.current.body b' ∧
        (b' = b ∨ MovedWithinLoop twoBlocks twoBlocksAnalyses i b b') := by
  obtain ⟨st, hrun, hloops⟩ := globalSchedulerPass_loops ⟨twoBlocks_wellFormed, twoBlocks_ssa⟩ false
    ⟨none, none, false⟩ certain twoBlocksAnalyses
  exact ⟨st, hrun, (hloops _ (.inr rfl)).1⟩

end TraceScheduler
