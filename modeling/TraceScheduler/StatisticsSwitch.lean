import TraceScheduler.HoistStatistics
import TraceScheduler.ProfileInvariance

/-!
# The switch for statistics

`SCHED_STATS` turns three kinds of counters on: those of trace growth, those of Phase 2, and the peak
of the running live sets.  No decision of either pass reads them, so the code that comes out is the
same with the switch on and off, at every moment; and with the switch off none of them ever moves.
-/

namespace TraceScheduler

open scoped List

/-! ### Nothing is counted while it is off -/

section

variable {F : Function} {bfsOrder visited : List BasicBlock} {prob : BasicBlock → ℕ}
  {isBackEdge : BasicBlock → Bool} {profile : Profile} {threshold : ℕ}

theorem foldl_considerEdge_stats (l : List BasicBlock) (acc : BestEdge) :
    (l.foldl (considerEdge threshold false prob isBackEdge visited) acc).stats = acc.stats := by
  induction l generalizing acc with
  | nil => rfl
  | cons x l ih =>
    rw [List.foldl_cons, ih, considerEdge]
    split
    · rfl
    · split
      · rfl
      · split
        · rfl
        · split
          · rfl
          · rfl

theorem growForward_stats {fuel : ℕ} {current : BasicBlock} {st st' : GrowState}
    (h : growForward F profile threshold false bfsOrder fuel current st = some st') :
    st'.stats = st.stats := by
  induction fuel generalizing current st with
  | zero => cases h
  | succ fuel ih =>
    rw [growForward, bestSuccessor] at h
    rw [foldl_considerEdge_stats] at h
    split at h
    · rename_i hbest
      obtain rfl := Option.some.inj h
      exact (Prod.mk.inj hbest).2.symm
    · rename_i hbest
      exact (ih h).trans (Prod.mk.inj hbest).2.symm

theorem growBackward_stats {fuel : ℕ} {current : BasicBlock} {st st' : GrowState}
    (h : growBackward F profile threshold false bfsOrder fuel current st = some st') :
    st'.stats = st.stats := by
  induction fuel generalizing current st with
  | zero => cases h
  | succ fuel ih =>
    rw [growBackward, bestPredecessor] at h
    rw [foldl_considerEdge_stats] at h
    split at h
    · rename_i hbest
      obtain rfl := Option.some.inj h
      exact (Prod.mk.inj hbest).2.symm
    · rename_i hbest
      exact (ih h).trans (Prod.mk.inj hbest).2.symm

theorem seedLoop_stats {growFuel fuel : ℕ} {candidates : List BasicBlock} {st st' : TraceState}
    (h : seedLoop F profile threshold false bfsOrder growFuel fuel candidates st = some st') :
    st'.stats = st.stats := by
  induction fuel generalizing candidates st with
  | zero => cases h
  | succ fuel ih =>
    rw [seedLoop] at h
    split at h
    · exact congrArg TraceState.stats (Option.some.inj h).symm
    · split at h
      · exact congrArg TraceState.stats (Option.some.inj h).symm
      · split at h
        · cases h
        · rename_i grown hgrow
          obtain ⟨forward, hforward, hbackward⟩ := Option.bind_eq_some_iff.mp hgrow
          exact (ih h).trans ((growBackward_stats hbackward).trans (growForward_stats hforward))

end

theorem listLoop_peak {F : Function} {universeIndex : Value → Option ℕ} {liveness : LivenessResult}
    {useRegPressure : Bool} {fuel : ℕ} {st st' : ListState}
    (h : listLoop F universeIndex liveness useRegPressure false fuel st = some st') :
    st'.peakLivePressure = st.peakLivePressure := by
  induction fuel generalizing st with
  | zero => cases h
  | succ fuel ih =>
    rw [listLoop] at h
    split at h
    · rw [Option.some.inj h]
    · split at h
      · cases h
      · exact (ih h).trans rfl

theorem listSchedule_peak {F : Function} {universeIndex : Value → Option ℕ} {liveness : LivenessResult}
    {useRegPressure : Bool} {g : DDG} {currentLive : Finset ℕ} {peak peak' : ℕ}
    {schedule : List InstrId}
    (h : listSchedule F universeIndex liveness g currentLive useRegPressure false peak =
      some (schedule, peak')) : peak' = peak := by
  obtain ⟨st, hrun, heq⟩ := Option.map_eq_some_iff.mp h
  obtain ⟨_, rfl⟩ := Prod.mk.inj heq
  exact listLoop_peak hrun

/-- Without a candidate there is nothing to count. -/
theorem hoistStep_stats {G : FlowGraph BasicBlock} {ctx : HoistContext G}
    (hcandidate : ∀ bb k, ctx.trace.idxOf? bb = some k → (ctx.statsOn && decide (k > 0)) = false)
    (st : HoistState) (i : InstrId) : (hoistStep ctx st i).stats = st.stats := by
  rw [hoistStep]
  dsimp only
  cases hidx : ctx.trace.idxOf? ((ctx.originalBlock i).getD (st.trail.current.getParent i)) with
  | none => rfl
  | some k =>
    simp only [hcandidate _ k hidx, Bool.false_eq_true, if_false]
    split
    · rfl
    · rw [tryTargets_eq]
      split
      · rfl
      · exact hoistTo_stats_eq

theorem scheduleTrace_counters {G : FlowGraph BasicBlock} {A : Analyses G}
    {universeIndex : Value → Option ℕ} {livenessResult : LivenessResult} {usePressure : Bool}
    {pressureBudget : ℤ} {st st' : PassState} {e : DDG × List BasicBlock}
    (h : scheduleTrace A universeIndex livenessResult usePressure pressureBudget false st e =
      some st') : st'.hoistStats = st.hoistStats ∧ st'.peakLivePressure = st.peakLivePressure := by
  obtain ⟨firstBB, _, hrest⟩ := Option.bind_eq_some_iff.mp h
  obtain ⟨⟨schedule, peak⟩, hrun, hst'⟩ := Option.bind_eq_some_iff.mp hrest
  obtain rfl := Option.some.inj hst'
  exact ⟨foldl_unchanged (hoistStep_stats fun _ _ _ => rfl) _ _, listSchedule_peak hrun⟩

theorem scheduleBlock_peak {livenessResult : LivenessResult} {universeIndex : Value → Option ℕ}
    {acc acc' : Trail × ℕ} {bb : BasicBlock}
    (h : scheduleBlock livenessResult universeIndex false acc bb = some acc') : acc'.2 = acc.2 := by
  obtain ⟨ddg, _, hrest⟩ := Option.bind_eq_some_iff.mp h
  obtain ⟨⟨schedule, peak⟩, hrun, hacc'⟩ := Option.bind_eq_some_iff.mp hrest
  obtain rfl := Option.some.inj hacc'
  exact listSchedule_peak hrun

/-! ### The switch changes no code -/

theorem scheduleBlock_trail_eq {livenessResult : LivenessResult} {universeIndex : Value → Option ℕ}
    {statsOn₁ statsOn₂ : Bool} {acc₁ acc₂ : Trail × ℕ} (hacc : acc₁.1 = acc₂.1) (bb : BasicBlock) :
    (scheduleBlock livenessResult universeIndex statsOn₁ acc₁ bb).map Prod.fst =
      (scheduleBlock livenessResult universeIndex statsOn₂ acc₂ bb).map Prod.fst := by
  rw [scheduleBlock, scheduleBlock, hacc]
  dsimp only
  cases (buildLocalDDG acc₂.1.current bb).computeCriticalPath with
  | none => rfl
  | some ddg =>
    simp only [Option.bind_eq_bind, Option.bind_some]
    apply bind_map_congr (listSchedule_schedule_eq ddg _ acc₁.2 acc₂.2)
    rintro ⟨schedule, peak₁⟩ ⟨_, peak₂⟩ rfl
    rfl

theorem localSchedulerPass_trail_eq (env : SchedEnv) (F : Function) (statsOn₁ statsOn₂ : Bool) :
    (localSchedulerPass { env with stats := statsOn₁ } F).map Prod.fst =
      (localSchedulerPass { env with stats := statsOn₂ } F).map Prod.fst := by
  rw [localSchedulerPass, localSchedulerPass]
  cases computeLiveness F with
  | none => rfl
  | some livenessResult =>
    apply foldlM_map_congr
    · intro acc₁ acc₂ bb hacc
      exact scheduleBlock_trail_eq hacc bb
    · rfl

/-- **`SCHED_STATS` does not influence the code.** Both passes go through the same functions with the
switch on and off, and end or fail alike.  With it off the counters of Phase 2, those of trace growth
and the recorded peaks are what they were reset to. -/
theorem schedStats_neutral (env : SchedEnv) (F : Function) (profile : Profile) (A : Analyses F.cfg) :
    (∀ usePressure statsOn₁ statsOn₂,
      (globalSchedulerPass usePressure { env with stats := statsOn₁ } F profile A).map
          PassState.trail =
        (globalSchedulerPass usePressure { env with stats := statsOn₂ } F profile A).map
          PassState.trail) ∧
    (∀ statsOn₁ statsOn₂, (localSchedulerPass { env with stats := statsOn₁ } F).map Prod.fst =
      (localSchedulerPass { env with stats := statsOn₂ } F).map Prod.fst) ∧
    (∀ usePressure st,
      globalSchedulerPass usePressure { env with stats := false } F profile A = some st →
        st.hoistStats = ⟨0, 0, 0, 0, 0, 0, 0⟩ ∧ st.peakLivePressure = 0) ∧
    (∀ tr peak, localSchedulerPass { env with stats := false } F = some (tr, peak) → peak = 0) ∧
    ∀ st, identifyTraces F profile (getTraceThreshold env) false = some st → st.stats = ⟨0, 0, 0⟩ := by
  refine ⟨fun usePressure statsOn₁ statsOn₂ => ?_, localSchedulerPass_trail_eq env F,
    fun usePressure st hrun => ?_, fun tr peak hrun => ?_, fun st hrun => ?_⟩
  · have hsame : SameChoices F profile (getTraceThreshold { env with stats := statsOn₁ }) profile
        (getTraceThreshold { env with stats := statsOn₂ }) := .refl F profile _
    exact hsame.trail_eq (fun _ => rfl) A
  · obtain ⟨livenessResult, _, hrest⟩ := Option.bind_eq_some_iff.mp hrun
    obtain ⟨traces, _, hrest⟩ := Option.bind_eq_some_iff.mp hrest
    obtain ⟨ddgs, _, hloop⟩ := Option.bind_eq_some_iff.mp hrest
    have hcounters := foldlM_unchanged (f := fun st : PassState =>
      (st.hoistStats, st.peakLivePressure)) (fun _ _ _ h => Prod.ext (scheduleTrace_counters h).1
        (scheduleTrace_counters h).2) hloop
    exact Prod.mk.inj hcounters
  · obtain ⟨livenessResult, _, hloop⟩ := Option.bind_eq_some_iff.mp hrun
    exact foldlM_unchanged (f := Prod.snd) (fun _ _ _ h => scheduleBlock_peak h) hloop
  · obtain ⟨bfsOrder, _, hloop⟩ := Option.bind_eq_some_iff.mp hrun
    exact seedLoop_stats hloop

end TraceScheduler
