import TraceScheduler.SchedulerPass

/-!
# Hoisting and EH pads

An EH pad has to be the first instruction of its block that is not a PHI.  Most pads sit at the top of
a block that a hoist enters at its end, but a `catchswitch` is pad and terminator at once: whatever is
hoisted into its block comes before it.  The target search of Phase 2 does not look at the kind of
terminator it inserts before, so the rule survives a run exactly when no step of it picks such a block
(`applySchedule_padsFirst_iff`).  `unwinding` is a function on which one does.
-/

namespace TraceScheduler

open scoped List

/-- Only PHIs stand before an EH pad in its block, a pad that is the terminator included. -/
def PadsFirst (F : Function) : Prop :=
  ∀ b, (F.body b).Pairwise fun j i => (F.instr i).isEHPad = true → (F.instr j).isPHI = true

/-- The terminator of the block is itself an EH pad. -/
def endsInPad (F : Function) (b : BasicBlock) : Bool :=
  match F.getTerminator b with
  | some t => (F.instr t).isEHPad
  | none => false

variable {F F' : Function} {P : InstrId → BasicBlock → BasicBlock → Prop} {b : BasicBlock}
  {i : InstrId}

theorem isEHPad_of_not_anchor {I : Instruction} (h : isSchedulingAnchor I = false) :
    I.isEHPad = false := by
  by_contra hpad
  rw [isSchedulingAnchor_of_isEHPad (by simpa using hpad)] at h
  cases h

/-- A non-PHI in a block that ends in a pad breaks the rule. -/
theorem not_padsFirst (hi : i ∈ F.body b) (hphi : (F.instr i).isPHI = false)
    (hterm : (F.instr i).isTerminator = false) (hend : endsInPad F b = true) : ¬ PadsFirst F := by
  intro hpads
  rw [endsInPad] at hend
  cases ht : F.getTerminator b with
  | none =>
    rw [ht] at hend
    cases hend
  | some t =>
    rw [ht] at hend
    obtain ⟨hlast, htt⟩ := Function.getTerminator_eq_some.mp ht
    obtain ⟨l, hl⟩ := List.getLast?_eq_some_iff.mp hlast
    rw [hl, List.mem_append, List.mem_singleton] at hi
    rcases hi with hi | rfl
    · have hpair := hpads b
      rw [hl] at hpair
      rw [(List.pairwise_append.mp hpair).2.2 i hi t List.mem_cons_self hend] at hphi
      cases hphi
    · rw [hterm] at htt
      cases htt

theorem endsInPad_eq (hwf : F.WellFormed) (h : Motions P F F') (b : BasicBlock) :
    endsInPad F' b = endsInPad F b := by
  rw [endsInPad, endsInPad, h.getTerminator_eq hwf, h.sameCode.instr]

/-! ### One edit -/

/-- An edit keeps the rule, unless it hoists into a block that ends in a pad. -/
theorem Motion.padsFirst (h : Motion P F F')
    (hP : ∀ i src dst, P i src dst → endsInPad F dst = false) (hpads : PadsFirst F) :
    PadsFirst F' := by
  intro b
  rw [h.sameCode.instr]
  refine h.pairwise (fun j i hi hpad => ?_) (fun j src dst t hPj ht hpad => ?_) hpads b
  · rw [isEHPad_of_not_anchor hi] at hpad
    cases hpad
  · have hend := hP j src dst hPj
    rw [endsInPad, ht] at hend
    rw [show (F.instr t).isEHPad = false from hend] at hpad
    cases hpad

theorem Motions.padsFirst_of_no_hoist (h : Motions (fun _ _ _ => False) F F')
    (hpads : PadsFirst F) : PadsFirst F' := by
  induction h with
  | refl => exact hpads
  | tail _ hstep ih => exact hstep.padsFirst (fun _ _ _ hP => hP.elim) ih

/-! ### A run of Phase 2 -/

section Phase2

variable {G : FlowGraph BasicBlock} {ctx : HoistContext G} {F₁ : Function} {st : HoistState}

/-- At every step, the first block that passes the checks, if there is one, does not end in a pad. -/
def ClearOfPads (ctx : HoistContext G) : List InstrId → HoistState → Prop
  | [], _ => True
  | i :: schedule, st =>
      (∀ targetBB, chosenTarget ctx st i = some targetBB →
        endsInPad st.trail.current targetBB = false) ∧
      ClearOfPads ctx schedule (hoistStep ctx st i)

/-- **The rule survives a run of Phase 2 exactly when no step hoists into a block that ends in a
pad.** -/
theorem padsFirst_foldl_hoistStep (hctx : OnTrace ctx F₁) {schedule : List InstrId}
    (h : Phase2Inv ctx F₁ schedule st) (hnd : schedule.Nodup)
    (hsched : ScheduledOnTrace ctx F₁ schedule) (hpads : PadsFirst st.trail.current) :
    PadsFirst (schedule.foldl (hoistStep ctx) st).trail.current ↔ ClearOfPads ctx schedule st := by
  induction schedule generalizing st with
  | nil => exact ⟨fun _ => trivial, fun _ => hpads⟩
  | cons i schedule ih =>
    obtain ⟨bb, hbb, hi⟩ := hsched i List.mem_cons_self
    have hwf := h.moved.wellFormed hctx.wf
    obtain ⟨hinv, hsteps, _, hself⟩ := h.hoistStep hctx hnd hbb hi
    have hnd' := (List.nodup_cons.mp hnd).2
    have hsched' : ScheduledOnTrace ctx F₁ schedule := fun j hj =>
      hsched j (List.mem_cons_of_mem _ hj)
    rw [List.foldl_cons, ClearOfPads]
    cases hchosen : chosenTarget ctx st i with
    | none =>
      have hpads' : PadsFirst (hoistStep ctx st i).trail.current := by
        rw [hoistStep_trail, hchosen]
        exact hpads
      rw [ih hinv hnd' hsched' hpads']
      simp
    | some targetBB =>
      obtain ⟨F', hmotion, htrail, _⟩ := chosenTarget_motion hctx h hbb hi hchosen
      have hcur : (hoistStep ctx st i).trail.current = F' := by
        rw [htrail]
        rfl
      cases hend : endsInPad st.trail.current targetBB with
      | false =>
        have hpads' : PadsFirst (hoistStep ctx st i).trail.current := by
          rw [hcur]
          exact hmotion.padsFirst (fun _ _ _ hP => hP.2 ▸ hend) hpads
        rw [ih hinv hnd' hsched' hpads']
        simp [hend]
      | true =>
        -- the instruction stays before the pad, since no later step moves it
        obtain ⟨_, hsteps', hother⟩ := hinv.run_all hctx hnd' hsched'
        have hanchor : st.trail.current.isAnchor i = false :=
          (chosenTarget_some hctx hwf ((h.moved.cfg_eq hctx.wf).trans hctx.cfg) hbb hi hchosen).1
        have hmem : i ∈ (schedule.foldl (hoistStep ctx) (hoistStep ctx st i)).trail.current.body
            targetBB := by
          rw [hother i (List.nodup_cons.mp hnd).1, hself, hchosen]
          rfl
        have hrun : Motions (HoistOk ctx.analyses ctx.trace) st.trail.current
            (schedule.foldl (hoistStep ctx) (hoistStep ctx st i)).trail.current :=
          hsteps.current.trans hsteps'.current
        have hinstr := hrun.sameCode.instr
        have hnot : ¬ PadsFirst (schedule.foldl (hoistStep ctx) (hoistStep ctx st i)).trail.current := by
          refine not_padsFirst hmem ?_ ?_ ?_
          · rw [hinstr]
            exact isPHI_of_not_anchor hanchor
          · rw [hinstr]
            exact isTerminator_of_not_anchor hanchor
          · rw [endsInPad_eq hwf hrun]
            exact hend
        refine ⟨fun hfinal => absurd hfinal hnot, fun hclear => ?_⟩
        rw [hclear.1 targetBB rfl] at hend
        cases hend

end Phase2

/-- **Exactly when `applySchedule` keeps EH pads first.** Phase 1 never breaks the rule; Phase 2 keeps
it if and only if, at each of its steps, the first earlier block of the trace that passes the loop,
dominance, operand, speculation and pressure checks is not terminated by a pad. -/
theorem applySchedule_padsFirst_iff {G : FlowGraph BasicBlock} (A : Analyses G)
    (universeIndex : Value → Option ℕ) (liveness : LivenessResult) (usePressure : Bool)
    (pressureBudget : ℤ) (statsOn : Bool) {trace : List BasicBlock} {schedule : List InstrId}
    {tr : Trail} (h : Appliable G tr.current trace schedule) (stats : HoistStats)
    (hpads : PadsFirst tr.current) :
    PadsFirst (applySchedule A universeIndex liveness usePressure pressureBudget statsOn schedule
        trace tr stats).trail.current ↔
      ClearOfPads (hoistContext A universeIndex liveness usePressure pressureBudget statsOn tr.current
        trace) schedule ⟨reorderTrace schedule trace tr, fun bb => (liveness bb).inSet, stats⟩ := by
  obtain ⟨hctx, hinv⟩ :=
    h.phase2Inv A universeIndex liveness usePressure pressureBudget statsOn stats
  have hphase1 := reorderTrace_steps h.nodup h.wf h.respects
  exact padsFirst_foldl_hoistStep hctx hinv h.nodup h.scheduled
    (hphase1.current.padsFirst_of_no_hoist hpads)

/-! ### A function that unwinds

The entry `0` invokes something that may throw: it goes on to `3` and returns, or unwinds to the
`catchswitch` in `1`, whose only handler is `2`.  The handler adds a constant to the argument.  With
the usual profile for an `invoke` one trace is `[1, 2]`, and the addition can be speculated. -/

def unwinding : Function :=
  .ofTables 1
    [⟨.invoke, [], [], [3, 1], true, false, true, true⟩,
      ⟨.catchSwitch, [], [], [2], false, true, false, false⟩,
      ⟨.catchPad, [.instruction 1], [], [], false, true, true, true⟩,
      .value .other [.argument 0, .constant 1],
      ⟨.terminator, [.instruction 2], [], [3], true, false, true, true⟩,
      .branch [] []]
    [0] [[1], [2, 3, 4], [5]]

theorem unwinding_wellFormed : unwinding.WellFormed :=
  (Function.verify_sound (by decide) rfl).1

theorem unwinding_ssa : unwinding.SSADominance :=
  (Function.verify_sound (by decide) rfl).2

theorem unwinding_padsFirst : PadsFirst unwinding := by
  intro b
  by_cases hb : b ∈ unwinding.blocks
  · have hall : ∀ b ∈ unwinding.blocks, (unwinding.body b).Pairwise fun j i =>
        (unwinding.instr i).isEHPad = true → (unwinding.instr j).isPHI = true := by decide
    exact hall b hb
  · rw [show unwinding.body b = [] from Function.body_ofTables hb]
    exact List.Pairwise.nil

def unwindingProfile : Profile where
  edgeProbability a b :=
    if a = 0 ∧ b = 1 then 2 ^ 11 else if a = 0 ∧ b = 3 then 2 ^ 31 - 2 ^ 11 else 2 ^ 31
  blockFreq b := if b = 0 ∨ b = 3 then 2 ^ 20 else 1

/-- No loops; only the addition may be speculated. -/
def unwindingAnalyses : Analyses unwinding.cfg where
  DT := unwinding_wellFormed.dominatorTree
  isLoopHeader _ := false
  getLoopFor _ := none
  isSafeToSpeculativelyExecute _ i _ := i == 3

/-- **The pass hoists the addition above the `catchswitch`**, with or without a pressure budget. -/
theorem unwinding_not_padsFirst :
    unwinding.WellFormed ∧ unwinding.SSADominance ∧ PadsFirst unwinding ∧ ∀ usePressure, ∃ st,
      globalSchedulerPass usePressure ⟨none, none, false⟩ unwinding unwindingProfile
        unwindingAnalyses = some st ∧
      st.trail.current.body 1 = [3, 1] ∧ ¬ PadsFirst st.trail.current := by
  refine ⟨unwinding_wellFormed, unwinding_ssa, unwinding_padsFirst, fun usePressure => ?_⟩
  cases usePressure with
  | false => exact ⟨_, rfl, rfl, not_padsFirst (b := 1) (i := 3) (by decide) rfl rfl rfl⟩
  | true => exact ⟨_, rfl, rfl, not_padsFirst (b := 1) (i := 3) (by decide) rfl rfl rfl⟩

theorem unwinding_appliable : Appliable unwinding.cfg unwinding [1, 2] [2, 3] where
  wf := unwinding_wellFormed
  cfg := rfl
  reachable b hb := by
    have hreach : ∀ b ∈ [1, 2], unwinding.cfg.reachableB unwinding.blocks b = true := by decide
    exact (FlowGraph.reachableB_iff Function.entry_mem_blocks
      fun u _ v hv => unwinding_wellFormed.succs_mem u v hv).mp (hreach b hb)
  nodup := by decide
  scheduled := by decide
  respects bb hbb u hu d _ hanchor _ huse _ _ := by
    -- the addition is the only non-anchor, and it uses no instruction
    have hnone : ∀ bb ∈ [1, 2], ∀ u ∈ unwinding.body bb,
        isSchedulingAnchor (unwinding.instr u) = false →
          operandInstructions (unwinding.instr u) = [] := by decide
    have hempty := hnone bb hbb u hu hanchor
    rw [Function.Uses, ← mem_operandInstructions, hempty] at huse
    cases huse

theorem unwinding_applySchedule_iff : Appliable unwinding.cfg unwinding [1, 2] [2, 3] ∧
    (PadsFirst (applySchedule unwindingAnalyses (fun _ => none) (fun _ => ⟨∅, ∅, ∅, ∅⟩) false 12 false
        [2, 3] [1, 2] (Trail.start unwinding) ⟨0, 0, 0, 0, 0, 0, 0⟩).trail.current ↔
      ClearOfPads (hoistContext unwindingAnalyses (fun _ => none) (fun _ => ⟨∅, ∅, ∅, ∅⟩) false 12
        false unwinding [1, 2]) [2, 3]
        ⟨reorderTrace [2, 3] [1, 2] (Trail.start unwinding), fun _ => ∅, ⟨0, 0, 0, 0, 0, 0, 0⟩⟩) :=
  ⟨unwinding_appliable, applySchedule_padsFirst_iff unwindingAnalyses (fun _ => none)
    (fun _ => ⟨∅, ∅, ∅, ∅⟩) false 12 false
    (show Appliable unwinding.cfg (Trail.start unwinding).current [1, 2] [2, 3] from unwinding_appliable)
    ⟨0, 0, 0, 0, 0, 0, 0⟩ unwinding_padsFirst⟩

end TraceScheduler
