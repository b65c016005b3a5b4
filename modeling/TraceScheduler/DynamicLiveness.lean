import TraceScheduler.LivenessMotion
import TraceScheduler.PressureBudget

/-!
# The tracked live sets and recomputed liveness

Phase 2 starts from the `in` sets of the analysis and keeps them up to date with one bit: a hoist
records the value at its target.  The blocks between the target and the value's users are left as they
are, although the value now passes through them.  No other value needs a bit
(`LiveOnEntry.of_hoist`), so recomputed liveness stays below the tracked sets exactly in the runs that
start below them and in which every such block counts the value already (`applySchedule_counts_iff`).
The analysis is run once, so a trace that comes later may start above.
-/

namespace TraceScheduler

open scoped List

variable {F F₁ : Function} {A : Analyses F.cfg} {trace : List BasicBlock} {st : HoistState}
  {i : InstrId} {targetBB : BasicBlock}

/-- On entry to each block of the trace, the tracked set holds every value that liveness analysis,
run again on the function as it stands, finds live there. -/
def LiveCounted (F : Function) (trace : List BasicBlock) (st : HoistState) : Prop :=
  ∀ liveness, computeLiveness st.trail.current = some liveness → ∀ b ∈ trace, ∀ v,
    HasBit st.trail.current (liveness b).inSet v → HasBit F (st.dynamicLive b) v

/-- The `in` sets, as of `F`, hold what is live on entry to the trace in `F₁`, the function as an
earlier trace may have left it. -/
def LiveInCounted (F : Function) (liveness : LivenessResult) (F₁ : Function)
    (trace : List BasicBlock) : Prop :=
  ∀ b ∈ trace, ∀ v ∈ valueUniverse F, F₁.LiveOnEntry v b → HasBit F (liveness b).inSet v

/-- Every other block of the trace from which a user of `i` can be reached without passing the target
counts the value of `i` already. -/
def CountedAlready (F : Function) (trace : List BasicBlock) (st : HoistState) (i : InstrId)
    (targetBB : BasicBlock) : Prop :=
  (F.instr i).isVoidTy = false → ∀ b ∈ trace, b ≠ targetBB →
    (∃ c u, u ∈ st.trail.current.body c ∧ F.Uses u i ∧ F.cfg.LeadsTo (fun e => e ≠ targetBB) b c) →
      HasBit F (st.dynamicLive b) (.instruction i)

/-- `LiveCounted`, in terms of the instructions. -/
theorem liveCounted_iff {P : InstrId → BasicBlock → BasicBlock → Prop} (hwf : F.WellFormed)
    (h : Motions P F st.trail.current) : LiveCounted F trace st ↔
      ∀ b ∈ trace, ∀ v ∈ valueUniverse F, st.trail.current.LiveOnEntry v b →
        HasBit F (st.dynamicLive b) v := by
  have hwf' := h.wellFormed hwf
  obtain ⟨liveness, hlive, hspec⟩ :=
    computeLiveness_spec (F := st.trail.current) fun b _ => hwf'.succs_mem b
  constructor
  · intro hcounted b hb v hv hon
    apply hcounted liveness hlive b hb v
    exact (hspec.hasBit_iff hwf').mpr ⟨(h.mem_valueUniverse hwf).mpr hv, hon⟩
  · intro hcounted liveness' hlive' b hb v hbit
    obtain rfl := Option.some.inj (hlive.symm.trans hlive')
    obtain ⟨hv, hon⟩ := (hspec.hasBit_iff hwf').mp hbit
    exact hcounted b hb v ((h.mem_valueUniverse hwf).mp hv) hon

/-! ### One hoist -/

section

variable {G : FlowGraph BasicBlock} {ctx : HoistContext G}

theorem subset_addResult (F : Function) (i : InstrId) (live : Finset ℕ) :
    live ⊆ addResult ctx F i live := by
  rw [addResult]
  split
  · exact subset_rfl
  · cases ctx.universeIndex (.instruction i) with
    | none => exact subset_rfl
    | some idx => exact Finset.subset_insert idx live

theorem hasBit_addResult {F' : Function}
    (hindex : ctx.universeIndex = buildValueIndex (valueUniverse F)) (hinstr : F'.instr = F.instr)
    (hi : Value.instruction i ∈ valueUniverse F) (live : Finset ℕ) :
    HasBit F (addResult ctx F' i live) (.instruction i) := by
  obtain ⟨idx, hidx⟩ := Option.isSome_iff_exists.mp (buildValueIndex_isSome.mpr hi)
  have hvoid : (F'.instr i).isVoidTy = false := by
    rw [hinstr]
    exact isVoidTy_of_mem_valueUniverse hi
  refine ⟨idx, hidx, ?_⟩
  rw [addResult, hvoid, hindex, hidx]
  exact Finset.mem_insert_self idx live

end

section

variable {G : FlowGraph BasicBlock} {ctx : HoistContext G} {rest : List InstrId}
  {origBB : BasicBlock}

/-- A chosen move, as a hoist of the function so far. -/
theorem chosenTarget_hoisted (hctx : OnTrace ctx F₁) (h : Phase2Inv ctx F₁ (i :: rest) st)
    (ho : origBB ∈ ctx.trace) (hi : i ∈ F₁.body origBB)
    (hchosen : chosenTarget ctx st i = some targetBB) :
    Hoisted st.trail.current (hoistStep ctx st i).trail.current i origBB targetBB := by
  have hwf := h.moved.wellFormed hctx.wf
  have hcfg := (h.moved.cfg_eq hctx.wf).trans hctx.cfg
  obtain ⟨F', hmotion, htrail, hmem⟩ := chosenTarget_motion hctx h ho hi hchosen
  obtain ⟨hanchor, _, hidx, hlegal, _⟩ := chosenTarget_some hctx hwf hcfg ho hi hchosen
  have hcur : (hoistStep ctx st i).trail.current = F' := by
    rw [htrail]
    rfl
  rw [hcur]
  refine ⟨hmotion.mono fun _ _ _ _ => trivial, (h.pending i List.mem_cons_self origBB).mpr hi,
    hanchor, ?_, ?_, hmem⟩
  · rw [hcfg]
    exact hctx.reachable origBB ho
  · rw [hcfg]
    refine ⟨?_, hlegal.dominates⟩
    intro heq
    rw [heq] at hidx
    exact Nat.lt_irrefl _ hidx

end

section

variable {ctx : HoistContext F.cfg} {rest : List InstrId} {origBB : BasicBlock}

/-- The function so far is `F` moved around. -/
theorem Phase2Inv.moved_all {schedule : List InstrId} (hmoved : Motions (fun _ _ _ => True) F F₁)
    (h : Phase2Inv ctx F₁ schedule st) : Motions (fun _ _ _ => True) F st.trail.current :=
  hmoved.trans (h.moved.mono fun _ _ _ _ => trivial)

/-- **One hoist** keeps the tracked sets above liveness exactly when its value is counted already in
the blocks it now passes through. -/
theorem liveCounted_hoistStep_iff (hwf : F.WellFormed) (hssa : F.SSADominance)
    (hmoved : Motions (fun _ _ _ => True) F F₁) (hctx : OnTrace ctx F₁)
    (hindex : ctx.universeIndex = buildValueIndex (valueUniverse F))
    (h : Phase2Inv ctx F₁ (i :: rest) st) (hnd : (i :: rest).Nodup) (ho : origBB ∈ ctx.trace)
    (hi : i ∈ F₁.body origBB) (hchosen : chosenTarget ctx st i = some targetBB)
    (hcounted : LiveCounted F ctx.trace st) :
    LiveCounted F ctx.trace (hoistStep ctx st i) ↔ CountedAlready F ctx.trace st i targetBB := by
  have hhoist := chosenTarget_hoisted hctx h ho hi hchosen
  have hall := h.moved_all hmoved
  have hwf' := hall.wellFormed hwf
  have hssa' := hall.ssa hwf hssa
  have hcfg := hall.cfg_eq hwf
  have hinstr := hall.sameCode.instr
  have hbefore := (liveCounted_iff hwf hall).mp hcounted
  have hreach : ∀ b ∈ ctx.trace, st.trail.current.cfg.Reachable b := by
    intro b hb
    rw [hcfg]
    exact hctx.reachable b hb
  have hafter : ∀ b ∈ ctx.trace,
      (hoistStep ctx st i).trail.current.LiveOnEntry (.instruction i) b ↔
        ∃ c u, u ∈ st.trail.current.body c ∧ F.Uses u i ∧
          F.cfg.LeadsTo (fun e => e ≠ targetBB) b c := by
    intro b hb
    rw [liveOnEntry_hoisted hwf' hssa' hhoist (hreach b hb), hcfg]
    simp only [Function.Uses, hinstr]
  have hvalue : (F.instr i).isVoidTy = false → Value.instruction i ∈ valueUniverse F := by
    intro hvoid
    rw [← hmoved.sameCode.instr] at hvoid
    apply (hmoved.mem_valueUniverse hwf).mp
    exact mem_valueUniverse.mpr (.inr ⟨origBB, hctx.wf.mem_blocks hi, i, hi, hvoid, rfl⟩)
  rw [liveCounted_iff hwf ((h.hoistStep hctx hnd ho hi).1.moved_all hmoved),
    dynamicLive_hoistStep hchosen]
  constructor
  · intro hlive hvoid b hb hne huser
    have hbit := hlive b hb (.instruction i) (hvalue hvoid) ((hafter b hb).mpr huser)
    rw [Function.update_of_ne hne] at hbit
    exact hbit
  · intro halready b hb v hv hlive
    by_cases hvi : v = .instruction i
    · subst hvi
      by_cases hbt : b = targetBB
      · subst hbt
        rw [Function.update_self]
        exact hasBit_addResult hindex hinstr hv _
      · rw [Function.update_of_ne hbt]
        exact halready (isVoidTy_of_mem_valueUniverse hv) b hb hbt ((hafter b hb).mp hlive)
    · -- another value was live before the hoist
      obtain ⟨idx, hidx, hin⟩ := hbefore b hb v hv (hlive.of_hoist hwf' hssa' hhoist hvi (hreach b hb))
      refine ⟨idx, hidx, ?_⟩
      by_cases hbt : b = targetBB
      · subst hbt
        rw [Function.update_self]
        exact subset_addResult _ i _ hin
      · rw [Function.update_of_ne hbt]
        exact hin

/-! ### A run -/

/-- Where no target is chosen, the sets and the function stay as they are. -/
theorem liveCounted_hoistStep_none (hchosen : chosenTarget ctx st i = none)
    (hcounted : LiveCounted F ctx.trace st) : LiveCounted F ctx.trace (hoistStep ctx st i) := by
  obtain ⟨stats, hstep⟩ := hoistStep_eq ctx st i
  rw [hstep, hchosen]
  exact hcounted

/-- **A run of Phase 2**: the tracked sets stay above liveness after every hoist exactly when each hoist
finds its value counted in the blocks it passes through. -/
theorem liveCounted_run_iff (hwf : F.WellFormed) (hssa : F.SSADominance)
    (hmoved : Motions (fun _ _ _ => True) F F₁) (hctx : OnTrace ctx F₁)
    (hindex : ctx.universeIndex = buildValueIndex (valueUniverse F)) {schedule : List InstrId}
    (h : Phase2Inv ctx F₁ schedule st) (hnd : schedule.Nodup)
    (hsched : ScheduledOnTrace ctx F₁ schedule) (hcounted : LiveCounted F ctx.trace st) :
    AtEveryHoist ctx (fun st i _ => LiveCounted F ctx.trace (hoistStep ctx st i)) schedule st ↔
      AtEveryHoist ctx (CountedAlready F ctx.trace) schedule st := by
  induction schedule generalizing st with
  | nil => exact Iff.rfl
  | cons i schedule ih =>
    obtain ⟨bb, hbb, hi⟩ := hsched i List.mem_cons_self
    have hinv := (h.hoistStep hctx hnd hbb hi).1
    have hnd' := (List.nodup_cons.mp hnd).2
    have hsched' : ScheduledOnTrace ctx F₁ schedule := fun j hj =>
      hsched j (List.mem_cons_of_mem _ hj)
    rw [AtEveryHoist, AtEveryHoist]
    cases hchosen : chosenTarget ctx st i with
    | none =>
      rw [ih hinv hnd' hsched' (liveCounted_hoistStep_none hchosen hcounted)]
      simp
    | some targetBB =>
      have hiff := liveCounted_hoistStep_iff hwf hssa hmoved hctx hindex h hnd hbb hi hchosen hcounted
      constructor
      · intro hall
        have hcounted' := hall.1 targetBB rfl
        refine ⟨?_, (ih hinv hnd' hsched' hcounted').mp hall.2⟩
        intro t ht
        obtain rfl := Option.some.inj ht
        exact hiff.mp hcounted'
      · intro hall
        have hcounted' := hiff.mpr (hall.1 targetBB rfl)
        refine ⟨?_, (ih hinv hnd' hsched' hcounted').mpr hall.2⟩
        intro t ht
        exact hcounted'

/-- In every state of a run, that is in the first and after every hoist. -/
theorem liveCounted_prefix_iff {schedule : List InstrId} :
    (∀ done, done <+: schedule → LiveCounted F ctx.trace (done.foldl (hoistStep ctx) st)) ↔
      LiveCounted F ctx.trace st ∧
        AtEveryHoist ctx (fun st i _ => LiveCounted F ctx.trace (hoistStep ctx st i)) schedule st := by
  induction schedule generalizing st with
  | nil =>
    constructor
    · intro h
      exact ⟨h [] List.nil_prefix, trivial⟩
    · intro h done hdone
      rw [List.prefix_nil.mp hdone]
      exact h.1
  | cons i schedule ih =>
    rw [AtEveryHoist]
    constructor
    · intro h
      have hrest := ih.mp fun done hdone =>
        h (i :: done) (List.cons_prefix_cons.mpr ⟨rfl, hdone⟩)
      exact ⟨h [] List.nil_prefix, fun _ _ => hrest.1, hrest.2⟩
    · intro h done hdone
      obtain ⟨hcounted, hhoist, hlater⟩ := h
      cases done with
      | nil => exact hcounted
      | cons j done =>
        obtain ⟨rfl, hrest⟩ := List.cons_prefix_cons.mp hdone
        apply ih.mpr ⟨?_, hlater⟩ done hrest
        cases hchosen : chosenTarget ctx st j with
        | none => exact liveCounted_hoistStep_none hchosen hcounted
        | some targetBB => exact hhoist targetBB hchosen

end

/-- **Recomputed liveness stays below the tracked sets exactly when every hoisted value is counted
already in the other blocks from which a user of it can be reached around its target**, if it is below
them at the start.  At the start it is whenever the function is the one the analysis was run on; a trace
that comes later may find more values live. -/
theorem applySchedule_counts_iff (hwf : F.WellFormed) (hssa : F.SSADominance) {tr : Trail}
    (hmoved : Motions (fun _ _ _ => True) F tr.current) {schedule : List InstrId}
    (h : Appliable F.cfg tr.current trace schedule) (A : Analyses F.cfg) (usePressure : Bool)
    (pressureBudget : ℤ) (statsOn : Bool) (stats : HoistStats) :
    ∃ liveness, computeLiveness F = some liveness ∧
      let universeIndex := buildValueIndex (valueUniverse F)
      let ctx := hoistContext A universeIndex liveness usePressure pressureBudget statsOn tr.current
        trace
      let state := phase2State A universeIndex liveness usePressure pressureBudget statsOn trace tr
        stats schedule
      (tr.current = F → LiveInCounted F liveness tr.current trace) ∧
      (LiveInCounted F liveness tr.current trace →
        (AtEveryHoist ctx (fun st i _ => LiveCounted F trace (hoistStep ctx st i)) schedule (state []) ↔
          AtEveryHoist ctx (CountedAlready F trace) schedule (state []))) ∧
      ((∀ done, done <+: schedule → LiveCounted F trace (state done)) ↔
        LiveInCounted F liveness tr.current trace ∧
          AtEveryHoist ctx (CountedAlready F trace) schedule (state [])) := by
  obtain ⟨liveness, hlive, hspec⟩ := computeLiveness_spec fun b _ => hwf.succs_mem b
  refine ⟨liveness, hlive, ?_⟩
  intro universeIndex ctx state
  have hreorder := reorderTrace_steps h.nodup h.wf h.respects
  obtain ⟨hctx, hinv⟩ := h.phase2Inv A universeIndex liveness usePressure pressureBudget statsOn stats
  have hstart : LiveCounted F trace (state []) ↔ LiveInCounted F liveness tr.current trace := by
    apply (liveCounted_iff hwf (hinv.moved_all hmoved)).trans
    apply forall₂_congr
    intro b hb
    apply forall₂_congr
    intro v _
    apply imp_congr_left
    apply Function.liveOnEntry_reorder h.wf (hmoved.ssa hwf hssa) hreorder.current
    rw [h.cfg]
    exact h.reachable b hb
  have hrun : LiveCounted F trace (state []) →
      (AtEveryHoist ctx (fun st i _ => LiveCounted F trace (hoistStep ctx st i)) schedule (state []) ↔
        AtEveryHoist ctx (CountedAlready F trace) schedule (state [])) := fun hcounted =>
    liveCounted_run_iff hwf hssa hmoved hctx rfl hinv h.nodup h.scheduled hcounted
  refine ⟨?_, ?_, ?_⟩
  · intro hfresh b _ v hv hon
    rw [hfresh] at hon
    exact (hspec.hasBit_iff hwf).mpr ⟨hv, hon⟩
  · intro hcounted
    exact hrun (hstart.mpr hcounted)
  · rw [← hstart]
    apply liveCounted_prefix_iff.trans
    exact and_congr_right hrun

/-! ### A block in between -/

/-- The value of `2` is computed and returned in block `2`; blocks `0` and `1` lead there. -/
def throughMiddle : Function :=
  .ofTables 1
    [.branch [] [1], .branch [] [2], .value .other [.argument 0], .branch [.instruction 2] []]
    [0] [[1], [2, 3]]

theorem throughMiddle_verified : throughMiddle.WellFormed ∧ throughMiddle.SSADominance :=
  Function.verify_sound (by decide) rfl

/-- No loops, and nothing that may trap. -/
def throughMiddleAnalyses : Analyses throughMiddle.cfg where
  DT := throughMiddle_verified.1.dominatorTree
  isLoopHeader _ := false
  getLoopFor _ := none
  isSafeToSpeculativelyExecute _ _ _ := true

theorem throughMiddle_appliable : Appliable throughMiddle.cfg throughMiddle [0, 1, 2] [2] where
  wf := throughMiddle_verified.1
  cfg := rfl
  reachable b hb := by
    have hreach : ∀ b ∈ [0, 1, 2],
        throughMiddle.cfg.reachableB throughMiddle.blocks b = true := by decide
    exact (FlowGraph.reachableB_iff Function.entry_mem_blocks
      fun u _ v hv => throughMiddle_verified.1.succs_mem u v hv).mp (hreach b hb)
  nodup := by decide
  scheduled := by decide
  respects bb hbb u hu d _ hanchor _ huse _ _ := by
    have hnone : ∀ bb ∈ [0, 1, 2], ∀ u ∈ throughMiddle.body bb,
        isSchedulingAnchor (throughMiddle.instr u) = false →
          operandInstructions (throughMiddle.instr u) = [] := by decide
    have hempty := hnone bb hbb u hu hanchor
    rw [Function.Uses, ← mem_operandInstructions, hempty] at huse
    cases huse

theorem throughMiddle_counts_iff : throughMiddle.WellFormed ∧
    Appliable throughMiddle.cfg throughMiddle [0, 1, 2] [2] ∧
    ∃ liveness, computeLiveness throughMiddle = some liveness ∧
      let universeIndex := buildValueIndex (valueUniverse throughMiddle)
      let ctx := hoistContext throughMiddleAnalyses universeIndex liveness true 12 false throughMiddle
        [0, 1, 2]
      let start := phase2State throughMiddleAnalyses universeIndex liveness true 12 false [0, 1, 2]
        (Trail.start throughMiddle) ⟨0, 0, 0, 0, 0, 0, 0⟩ [2] []
      AtEveryHoist ctx (fun st i _ => LiveCounted throughMiddle [0, 1, 2] (hoistStep ctx st i)) [2]
          start ↔
        AtEveryHoist ctx (CountedAlready throughMiddle [0, 1, 2]) [2] start := by
  have hstart : Appliable throughMiddle.cfg (Trail.start throughMiddle).current [0, 1, 2] [2] :=
    throughMiddle_appliable
  obtain ⟨liveness, hlive, hfresh, hiff, _⟩ := applySchedule_counts_iff throughMiddle_verified.1
    throughMiddle_verified.2 .refl hstart throughMiddleAnalyses true 12 false ⟨0, 0, 0, 0, 0, 0, 0⟩
  exact ⟨throughMiddle_verified.1, throughMiddle_appliable, liveness, hlive, hiff (hfresh rfl)⟩

theorem throughMiddle_moved : ∃ liveness,
    computeLiveness ((throughMiddle.moveBefore 2 2 3).moveBefore 2 0 0) = some liveness ∧
      HasBit ((throughMiddle.moveBefore 2 2 3).moveBefore 2 0 0) (liveness 1).inSet (.instruction 2) :=
  ⟨_, rfl, 1, rfl, by decide⟩

/-- **The hoisted value passes through block `1` uncounted.** -/
theorem throughMiddle_not_counted :
    throughMiddle.WellFormed ∧ throughMiddle.SSADominance ∧ ∃ liveness,
      computeLiveness throughMiddle = some liveness ∧
      let universeIndex := buildValueIndex (valueUniverse throughMiddle)
      let ctx := hoistContext throughMiddleAnalyses universeIndex liveness true 12 false throughMiddle
        [0, 1, 2]
      let state := phase2State throughMiddleAnalyses universeIndex liveness true 12 false [0, 1, 2]
        (Trail.start throughMiddle) ⟨0, 0, 0, 0, 0, 0, 0⟩ [2]
      chosenTarget ctx (state []) 2 = some 0 ∧ ¬ LiveCounted throughMiddle [0, 1, 2] (state [2]) := by
  refine ⟨throughMiddle_verified.1, throughMiddle_verified.2, _, rfl, ?_⟩
  intro universeIndex ctx state
  have hchosen : chosenTarget ctx (state []) 2 = some 0 := rfl
  refine ⟨hchosen, ?_⟩
  intro hcounted
  have hcur : (state [2]).trail.current = (throughMiddle.moveBefore 2 2 3).moveBefore 2 0 0 := rfl
  have hdyn : (state [2]).dynamicLive 1 = {0} := rfl
  obtain ⟨liveness', hlive', hbit⟩ := throughMiddle_moved
  rw [LiveCounted, hcur] at hcounted
  have hcount := hcounted liveness' hlive' 1 (by decide) (.instruction 2) hbit
  rw [hdyn] at hcount
  obtain ⟨idx, hidx, hin⟩ := hcount
  obtain rfl : 1 = idx := Option.some.inj hidx
  simp at hin

end TraceScheduler
