import TraceScheduler.EarliestPlacement
import TraceScheduler.HoistStatistics
import TraceScheduler.PressureBudget
import TraceScheduler.TracePlan

/-!
# A budget that cannot be exceeded

No live set counts more than the values that there are.  With a budget of at least that many the pressure
check never rejects a target, and Phase 2 does what it does without the check (`Ample.hoistStep_eq`).
Pressure still breaks ties in the list scheduler, so the two global passes may order the code of a block
differently; but they put every instruction into the same block (`globalSchedulerPass_ample`).
-/

namespace TraceScheduler

section

variable {G : FlowGraph BasicBlock}

/-- The same context, without the pressure check. -/
def HoistContext.noPressure (ctx : HoistContext G) : HoistContext G := { ctx with usePressure := false }

/-- There are `N` values at most, and the budget is as large. -/
structure Ample (ctx : HoistContext G) (N : ℕ) : Prop where
  index_lt : ∀ v idx, ctx.universeIndex v = some idx → idx < N
  budget : (N : ℤ) ≤ ctx.pressureBudget

/-- The tracked live sets are sets of these values. -/
def LiveBelow (N : ℕ) (st : HoistState) : Prop := ∀ bb, st.dynamicLive bb ⊆ Finset.range N

variable {ctx : HoistContext G} {N : ℕ} {st : HoistState} {i : InstrId} {origBB targetBB : BasicBlock}
  {targets : List BasicBlock} {bestReason : BlockReason} {schedule : List InstrId}

/-! ### One target -/

theorem Ample.addResult_subset (h : Ample ctx N) (F : Function) (i : InstrId) {live : Finset ℕ}
    (hlive : live ⊆ Finset.range N) : addResult ctx F i live ⊆ Finset.range N := by
  rw [addResult]
  split
  · exact hlive
  · cases hidx : ctx.universeIndex (.instruction i) with
    | none => exact hlive
    | some idx => exact Finset.insert_subset (Finset.mem_range.mpr (h.index_lt _ _ hidx)) hlive

/-- **What the check compares with the budget** is at most the number of values. -/
theorem Ample.pressure_le (h : Ample ctx N) (F : Function) (i : InstrId) {live : Finset ℕ}
    (hlive : live ⊆ Finset.range N) :
    (live.card : ℤ) + pressureDelta F ctx.universeIndex ctx.liveness i live ≤ ctx.pressureBudget := by
  have hcard := card_addResult ctx F i live
  have hle := Finset.card_le_card (h.addResult_subset F i hlive)
  rw [Finset.card_range] at hle
  have hbudget := h.budget
  omega

theorem Ample.rejectReason_eq (h : Ample ctx N) (hst : LiveBelow N st) :
    rejectReason ctx st i origBB targetBB = rejectReason ctx.noPressure st i origBB targetBB := by
  have hwithin : decide (((st.dynamicLive targetBB).card : ℤ) + pressureDelta st.trail.current
      ctx.universeIndex ctx.liveness i (st.dynamicLive targetBB) > ctx.pressureBudget) = false := by
    rw [decide_eq_false_iff_not, not_lt]
    exact h.pressure_le st.trail.current i (hst targetBB)
  simp only [rejectReason, HoistContext.noPressure, hwithin, Bool.and_false, Bool.false_and]

theorem Ample.tryTargets_eq (h : Ample ctx N) (hst : LiveBelow N st) :
    tryTargets ctx st i origBB targets bestReason =
      tryTargets ctx.noPressure st i origBB targets bestReason := by
  induction targets generalizing bestReason with
  | nil => rfl
  | cons targetBB targets ih =>
    rw [tryTargets, tryTargets, h.rejectReason_eq hst]
    cases rejectReason ctx.noPressure st i origBB targetBB with
    | some r => exact ih
    | none => rfl

/-! ### Phase 2 -/

/-- **One step**: with the check or without it. -/
theorem Ample.hoistStep_eq (h : Ample ctx N) (hst : LiveBelow N st) :
    hoistStep ctx st i = hoistStep ctx.noPressure st i := by
  rw [hoistStep, hoistStep]
  dsimp only [HoistContext.noPressure]
  cases ctx.trace.idxOf? ((ctx.originalBlock i).getD (st.trail.current.getParent i)) with
  | none => rfl
  | some origIdx =>
    dsimp only
    have hcounted : LiveBelow N (if (ctx.statsOn && decide (origIdx > 0)) = true then
        { st with stats.candidates := st.stats.candidates + 1 } else st) := by
      split
      · exact hst
      · exact hst
    generalize (if (ctx.statsOn && decide (origIdx > 0)) = true then
      { st with stats.candidates := st.stats.candidates + 1 } else st) = st₁ at hcounted ⊢
    rw [h.tryTargets_eq hcounted]
    rfl

theorem Ample.liveBelow_hoistStep (h : Ample ctx N) (hst : LiveBelow N st) :
    LiveBelow N (hoistStep ctx st i) := by
  intro bb
  cases hchosen : chosenTarget ctx st i with
  | none =>
    rw [dynamicLive_of_none hchosen]
    exact hst bb
  | some targetBB =>
    rw [dynamicLive_hoistStep hchosen]
    by_cases hbb : bb = targetBB
    · rw [hbb, Function.update_self]
      exact h.addResult_subset st.trail.current i (hst targetBB)
    · rw [Function.update_of_ne hbb]
      exact hst bb

theorem Ample.foldl_hoistStep_eq (h : Ample ctx N) (hst : LiveBelow N st) :
    schedule.foldl (hoistStep ctx) st = schedule.foldl (hoistStep ctx.noPressure) st := by
  induction schedule generalizing st with
  | nil => rfl
  | cons i schedule ih =>
    rw [List.foldl_cons, List.foldl_cons, ← h.hoistStep_eq hst]
    exact ih (h.liveBelow_hoistStep hst)

/-! ### The counter -/

theorem rejectReason_ne_pressure (huse : ctx.usePressure = false) :
    rejectReason ctx st i origBB targetBB ≠ some .pressure := by
  rw [rejectReason, huse]
  split
  · simp
  · split
    · simp
    · split
      · simp
      · split
        · simp
        · split
          · simp
          · split
            · simp
            · simp

theorem tryTargets_ne_pressure (huse : ctx.usePressure = false) (hbest : bestReason ≠ .pressure) :
    (tryTargets ctx st i origBB targets bestReason).2.2 ≠ .pressure := by
  induction targets generalizing bestReason with
  | nil => exact hbest
  | cons targetBB targets ih =>
    rw [tryTargets]
    cases hreason : rejectReason ctx st i origBB targetBB with
    | none => exact hbest
    | some r =>
      apply ih
      rw [noteReason]
      split
      · rintro rfl
        exact rejectReason_ne_pressure huse hreason
      · exact hbest

/-- Without the check nothing is counted as blocked by pressure. -/
theorem blockedPressure_hoistStep (huse : ctx.usePressure = false) :
    (hoistStep ctx st i).stats.blockedPressure = st.stats.blockedPressure := by
  have htry : ∀ (st₁ : HoistState) (origBB : BasicBlock) (targets : List BasicBlock),
      (tryTargets ctx st₁ i origBB targets .none).1.stats = st₁.stats := by
    intro st₁ origBB targets
    rw [TraceScheduler.tryTargets_eq]
    cases targets.find? fun t => (rejectReason ctx st₁ i origBB t).isNone with
    | none => rfl
    | some t => exact hoistTo_stats_eq
  have hblocked : ∀ (s : HoistStats) (r : BlockReason), r ≠ .pressure →
      (s.countBlocked r).blockedPressure = s.blockedPressure := by
    intro s r hr
    cases r with
    | pressure => exact absurd rfl hr
    | _ => rfl
  rw [hoistStep]
  dsimp only
  cases ctx.trace.idxOf? ((ctx.originalBlock i).getD (st.trail.current.getParent i)) with
  | none => rfl
  | some origIdx =>
    dsimp only
    set st₁ : HoistState := if (ctx.statsOn && decide (origIdx > 0)) = true then
      { st with stats.candidates := st.stats.candidates + 1 } else st with hst₁
    have hfirst : st₁.stats.blockedPressure = st.stats.blockedPressure := by
      rw [hst₁]
      split
      · rfl
      · rfl
    split
    · split
      · exact hfirst
      · exact hfirst
    · have hreason : (tryTargets ctx st₁ i
          ((ctx.originalBlock i).getD (st.trail.current.getParent i)) (ctx.trace.take origIdx)
          .none).2.2 ≠ .pressure := tryTargets_ne_pressure huse (by decide)
      rw [← htry st₁ ((ctx.originalBlock i).getD (st.trail.current.getParent i))
        (ctx.trace.take origIdx)] at hfirst
      split
      · split
        · exact hfirst
        · rw [← hfirst]
          exact hblocked _ _ hreason
      · exact hfirst

theorem blockedPressure_foldl (huse : ctx.usePressure = false) (st : HoistState) :
    (schedule.foldl (hoistStep ctx) st).stats.blockedPressure = st.stats.blockedPressure := by
  induction schedule generalizing st with
  | nil => rfl
  | cons i schedule ih => rw [List.foldl_cons, ih, blockedPressure_hoistStep huse]

end

/-! ### The pass -/

/-- The numbers in the live sets are those of values. -/
theorem computeLiveness_bounded {F : Function} {livenessResult : LivenessResult}
    (h : computeLiveness F = some livenessResult) (b : BasicBlock) :
    (livenessResult b).inSet ⊆ Finset.range (valueUniverse F).length := by
  have hinv : LivenessInv F (valueUniverse F).length livenessResult :=
    untilStable_invariant (fun _ hb _ _ hst hupd => (hst.updateBlock (List.mem_reverse.mp hb) hupd).1)
      (livenessInv_init F) h
  exact hinv.in_bounded b

section

variable {F : Function} {A : Analyses F.cfg} {universeIndex : Value → Option ℕ}
  {livenessResult : LivenessResult} {pressureBudget : ℤ} {statsOn : Bool} {N : ℕ}
  {trace : List BasicBlock} {todo : List (List BasicBlock)} {st st' : PassState}
  {schedule : List InstrId}

/-- **Both phases** with an ample budget and without a check. -/
theorem applySchedule_ample (hindex : ∀ v idx, universeIndex v = some idx → idx < N)
    (hlive : ∀ b, (livenessResult b).inSet ⊆ Finset.range N) (hbudget : (N : ℤ) ≤ pressureBudget)
    (schedule : List InstrId) (trace : List BasicBlock) (tr : Trail) (stats : HoistStats) :
    applySchedule A universeIndex livenessResult true pressureBudget statsOn schedule trace tr stats =
      applySchedule A universeIndex livenessResult false pressureBudget statsOn schedule trace tr
        stats := by
  have hample : Ample (hoistContext A universeIndex livenessResult true pressureBudget statsOn
      tr.current trace) N := ⟨hindex, hbudget⟩
  exact hample.foldl_hoistStep_eq hlive

theorem ScheduledTrace.noPressure (hindex : ∀ v idx, universeIndex v = some idx → idx < N)
    (hlive : ∀ b, (livenessResult b).inSet ⊆ Finset.range N) (hbudget : (N : ℤ) ≤ pressureBudget)
    (h : ScheduledTrace F A universeIndex livenessResult true pressureBudget statsOn trace st st'
      schedule) :
    ScheduledTrace F A universeIndex livenessResult false pressureBudget statsOn trace st st'
      schedule := by
  refine ⟨h.complete, h.appliable, ?_⟩
  rw [h.result, applySchedule_ample hindex hlive hbudget]

theorem ScheduledTraces.noPressure (hindex : ∀ v idx, universeIndex v = some idx → idx < N)
    (hlive : ∀ b, (livenessResult b).inSet ⊆ Finset.range N) (hbudget : (N : ℤ) ≤ pressureBudget)
    (h : ScheduledTraces F A universeIndex livenessResult true pressureBudget statsOn todo st st') :
    ScheduledTraces F A universeIndex livenessResult false pressureBudget statsOn todo st st' := by
  induction h with
  | nil st => exact .nil st
  | cons hsched _ ih => exact .cons (hsched.noPressure hindex hlive hbudget) ih

/-- Instructions that are as early in one function as in the other, both ways, are in the same block. -/
theorem mem_of_earlier {P P' : InstrId → BasicBlock → BasicBlock → Prop} {F₁ F₂ : Function}
    (hwf : F.WellFormed) (h₁ : Motions P F F₁) (h₂ : Motions P' F F₂)
    (h : ∀ i, Earlier F.cfg F₁ F₂ i) (h' : ∀ i, Earlier F.cfg F₂ F₁ i) {i : InstrId} {b : BasicBlock}
    (hb : i ∈ F₂.body b) : i ∈ F₁.body b := by
  obtain ⟨b₀, hb₀⟩ := (h₂.exists_mem hwf).mp ⟨b, hb⟩
  obtain ⟨b₁, hb₁, hdom⟩ := h i b hb
  obtain ⟨b₂, hb₂, hdom'⟩ := h' i b₁ hb₁
  obtain rfl := (h₂.wellFormed hwf).body_unique hb hb₂
  by_cases hreach : F.cfg.Reachable b
  · rw [hdom'.antisymm hdom hreach]
    exact hb₁
  · -- a block that is not reachable is left as it is
    rcases h₂.dominates hwf hb₀ hb with rfl | ⟨hstrict, hreach₀⟩
    · rcases h₁.dominates hwf hb₀ hb₁ with rfl | ⟨_, hreach₀⟩
      · exact hb₁
      · exact absurd hreach₀ hreach
    · exact absurd (hstrict.2.reachable hreach₀) hreach

end

/-- **With an ample budget pressure decides the order only.** If the budget is at least the number of
values, both global passes put every instruction into the same block, and no candidate is counted as
blocked by pressure. -/
theorem globalSchedulerPass_ample {F : Function} (hwf : F.WellFormed) (hssa : F.SSADominance)
    (env : SchedEnv) (profile : Profile) (A : Analyses F.cfg) (hA : A.PositionFree)
    (hbudget : ((valueUniverse F).length : ℤ) ≤ getPressureBudget env) :
    ∃ st₁ st₂, globalSchedulerPass false env F profile A = some st₁ ∧
      globalSchedulerPass true env F profile A = some st₂ ∧
      (∀ i b, i ∈ st₁.trail.current.body b ↔ i ∈ st₂.trail.current.body b) ∧
      st₂.hoistStats.blockedPressure = 0 := by
  have hF : Schedulable F := ⟨hwf, hssa⟩
  have hindex : ∀ v idx, buildValueIndex (valueUniverse F) v = some idx →
      idx < (valueUniverse F).length := fun _ _ h => buildValueIndex_lt h
  obtain ⟨st₁, liveness₁, bfsOrder, traces, hrun₁, h₁⟩ := globalSchedulerPass_spec hF false env profile A
  obtain ⟨st₂, liveness₂, _, traces₂, hrun₂, h₂⟩ := globalSchedulerPass_spec hF true env profile A
  obtain rfl : liveness₁ = liveness₂ := Option.some.inj (h₁.liveness.symm.trans h₂.liveness)
  obtain rfl : traces = traces₂ := by
    obtain ⟨_, _, hid₁⟩ := h₁.identified
    obtain ⟨_, _, hid₂⟩ := h₂.identified
    exact congrArg TraceState.traces (Option.some.inj (hid₁.symm.trans hid₂))
  have hlive := computeLiveness_bounded h₁.liveness
  have hscheduled₂ := h₂.scheduled.noPressure hindex hlive hbudget
  have hinit : PassInv F A traces traces ⟨Trail.start F, ⟨0, 0, 0, 0, 0, 0, 0⟩, 0⟩ :=
    ⟨.refl _, fun _ _ _ _ _ => Iff.rfl⟩
  have hstart : ∀ i, Earlier F.cfg (Trail.start F).current (Trail.start F).current i :=
    fun i => .of_iff FlowGraph.Dominates.refl fun _ => Iff.rfl
  have htraces : ∀ trace ∈ traces, trace ∈ traces ∧
      IsTrace F profile (getTraceThreshold env) bfsOrder trace :=
    fun trace ht => ⟨ht, h₁.partition.isTrace trace ht⟩
  -- neither run checks the budget, so each is as early as the other
  have hearlier : ∀ i, Earlier F.cfg st₁.trail.current st₂.trail.current i :=
    h₁.scheduled.earlier hA hF h₁.bfs htraces h₁.partition.nodup hinit hinit hscheduled₂ hstart
  have hearlier' : ∀ i, Earlier F.cfg st₂.trail.current st₁.trail.current i :=
    hscheduled₂.earlier hA hF h₁.bfs htraces h₁.partition.nodup hinit hinit h₁.scheduled hstart
  refine ⟨st₁, st₂, hrun₁, hrun₂, fun i b => ⟨?_, ?_⟩, ?_⟩
  · exact mem_of_earlier hwf h₂.steps.current h₁.steps.current hearlier' hearlier
  · exact mem_of_earlier hwf h₁.steps.current h₂.steps.current hearlier hearlier'
  · obtain ⟨st, livenessResult, traceState, hrun, hliveness, _, hzero⟩ :=
      globalSchedulerPass_induct hF true env profile A
        (R := fun livenessResult _ st st' => computeLiveness F = some livenessResult →
          st'.hoistStats.blockedPressure = st.hoistStats.blockedPressure)
        (fun _ _ _ => rfl) (by
          intro livenessResult traces trace todo ddg st st₁ st₂ _ _ _ hturn hrest hliveness
          obtain ⟨_, schedule, _, _, _, rfl⟩ := scheduleTrace_eq_some hturn
          rw [hrest hliveness]
          dsimp only
          rw [applySchedule_ample hindex (computeLiveness_bounded hliveness) hbudget]
          exact blockedPressure_foldl rfl _)
    obtain rfl := Option.some.inj (hrun.symm.trans hrun₂)
    exact hzero hliveness

theorem twoBlocks_ample : ∃ st₁ st₂,
    globalSchedulerPass false ⟨none, none, false⟩ twoBlocks certain twoBlocksAnalyses = some st₁ ∧
    globalSchedulerPass true ⟨none, none, false⟩ twoBlocks certain twoBlocksAnalyses = some st₂ ∧
    (∀ i b, i ∈ st₁.trail.current.body b ↔ i ∈ st₂.trail.current.body b) ∧
    st₂.hoistStats.blockedPressure = 0 :=
  globalSchedulerPass_ample twoBlocks_wellFormed twoBlocks_ssa ⟨none, none, false⟩ certain
    twoBlocksAnalyses (fun _ _ _ _ _ => rfl) (by decide)

end TraceScheduler
