import TraceScheduler.PassBehaviour
import TraceScheduler.StatisticsSwitch

/-!
# A threshold that no edge exceeds

An edge is followed when its probability is strictly above the threshold.  With
`SCHED_TRACE_THRESHOLD_PCT=100` none is, certain edges included: every trace is a single block, Phase 2
has no earlier block to try, and the global pass does what the local one is allowed to do.  It rearranges
regions.  So nothing rests on the speculation query any more, and what each block does is kept from
any state.
-/

namespace TraceScheduler

open scoped List

variable {F : Function} {profile : Profile} {threshold : ℕ} {bfsOrder trace : List BasicBlock}
  {traces : List (List BasicBlock)}

/-- A trace is a path of edges above the threshold. -/
theorem IsTrace.singleton (h : IsTrace F profile threshold bfsOrder trace)
    (hnone : ∀ a b, profile.edgeProbability a b ≤ threshold) : ∃ b, trace = [b] := by
  obtain ⟨b, tail, rfl⟩ := List.exists_cons_of_ne_nil h.nonempty
  cases tail with
  | nil => exact ⟨b, rfl⟩
  | cons c tail =>
    have hedge : LikelyEdge F profile threshold b c := (List.isChain_cons_cons.mp h.path).1
    exact absurd hedge.2 (Nat.not_lt.mpr (hnone b c))

/-- Nothing can be hoisted within one block. -/
theorem not_hoistOk_singleton {G : FlowGraph BasicBlock} {A : Analyses G} {i : InstrId}
    {b src dst : BasicBlock} : ¬ HoistOk A [b] i src dst := by
  rintro ⟨hsrc, hdst, hlt, _⟩
  rw [List.mem_singleton.mp hsrc, List.mem_singleton.mp hdst] at hlt
  exact Nat.lt_irrefl _ hlt

/-- And nothing is a candidate. -/
theorem idxOf?_singleton {b bb : BasicBlock} {k : ℕ} (h : [b].idxOf? bb = some k) : k = 0 := by
  have hlt := (List.idxOf?_eq_some_iff.mp h).1
  simp at hlt
  exact hlt

section

variable {A : Analyses F.cfg} {universeIndex : Value → Option ℕ} {livenessResult : LivenessResult}
  {usePressure : Bool} {pressureBudget : ℤ} {statsOn : Bool}

theorem scheduleTrace_singleton_stats {st st' : PassState} {e : DDG × List BasicBlock}
    {b : BasicBlock} (he : e.2 = [b])
    (h : scheduleTrace A universeIndex livenessResult usePressure pressureBudget statsOn st e =
      some st') : st'.hoistStats = st.hoistStats := by
  obtain ⟨firstBB, _, hrest⟩ := Option.bind_eq_some_iff.mp h
  obtain ⟨⟨schedule, peak⟩, _, hst'⟩ := Option.bind_eq_some_iff.mp hrest
  obtain rfl := Option.some.inj hst'
  refine foldl_unchanged (hoistStep_stats fun bb k hidx => ?_) _ _
  have hidx' : [b].idxOf? bb = some k := he ▸ hidx
  rw [idxOf?_singleton hidx']
  exact Bool.and_false _

theorem foldlM_singleton_stats (ddgs : List DDG) (htraces : ∀ trace ∈ traces, ∃ b, trace = [b])
    {st st' : PassState}
    (h : (ddgs.zip traces).foldlM (scheduleTrace A universeIndex livenessResult usePressure
      pressureBudget statsOn) st = some st') : st'.hoistStats = st.hoistStats := by
  induction ddgs generalizing traces st with
  | nil =>
    rw [List.zip_nil_left] at h
    rw [Option.some.inj h]
  | cons ddg ddgs ih =>
    cases traces with
    | nil => rw [Option.some.inj h]
    | cons trace traces =>
      obtain ⟨b, rfl⟩ := htraces trace List.mem_cons_self
      rw [List.zip_cons_cons, List.foldlM_cons] at h
      obtain ⟨st₁, hfirst, hrest⟩ := Option.bind_eq_some_iff.mp h
      exact (ih (fun t ht => htraces t (List.mem_cons_of_mem _ ht)) hrest).trans
        (scheduleTrace_singleton_stats rfl hfirst)

end

/-- The whole range of a probability. -/
theorem getTraceThreshold_hundred {env : SchedEnv} (h : env.traceThresholdPct = some 100) :
    getTraceThreshold env = 2 ^ 31 := by
  rw [getTraceThreshold, h]
  rfl

/-- **At a threshold of 100 the global pass stays within blocks**, in both modes and whatever LLVM says
about speculation.  Every trace is one block, there is no candidate to hoist, at every moment each
block is a rearrangement of itself, and each reachable block that runs from a state without undefined
behaviour does what it did. -/
theorem globalSchedulerPass_threshold100 (hF : Schedulable F) (usePressure : Bool) {env : SchedEnv}
    (hpct : env.traceThresholdPct = some 100)
    (hprob : ∀ a b, profile.edgeProbability a b ≤ 2 ^ 31) (A : Analyses F.cfg) :
    ∃ st traceState, globalSchedulerPass usePressure env F profile A = some st ∧
      identifyTraces F profile (getTraceThreshold env) (schedStatsEnabled env) = some traceState ∧
      (∀ trace ∈ traceState.traces, ∃ b, trace = [b]) ∧
      st.hoistStats = ⟨0, 0, 0, 0, 0, 0, 0⟩ ∧
      (∀ M ∈ st.trail.moments, ∀ b, M.body b ~ F.body b) ∧
      (∀ b, st.trail.current.body b ~ F.body b) ∧
      ∀ {V W : Type} (sem : Semantics V W) (args : ℕ → V) (b : BasicBlock), F.cfg.Reachable b →
        ∀ (prev : Option BasicBlock) (s : State V W), execBlock F sem args prev b s ≠ .trapped →
          execBlock st.trail.current sem args prev b s = execBlock F sem args prev b s := by
  obtain ⟨st, livenessResult, bfsOrder, traces, hrun, hspec⟩ :=
    globalSchedulerPass_spec hF usePressure env profile A
  obtain ⟨stats, visited, htraces⟩ := hspec.identified
  have hsingle : ∀ trace ∈ traces, ∃ b, trace = [b] := by
    intro trace htrace
    apply (hspec.partition.isTrace trace htrace).singleton
    rw [getTraceThreshold_hundred hpct]
    exact hprob
  have hsteps : Trail.Steps (fun _ _ _ => False) (Trail.start F) st.trail := by
    apply hspec.steps.mono
    rintro i src dst ⟨trace, htrace, hok⟩
    obtain ⟨b, rfl⟩ := hsingle trace htrace
    exact not_hoistOk_singleton hok
  have hperm : ∀ M, Motions (fun _ _ _ => False) F M → ∀ b, M.body b ~ F.body b := by
    intro M hM b
    have hwf := hM.wellFormed hF.wf
    exact (List.perm_ext_iff_of_nodup (hwf.body_nodup b) (hF.wf.body_nodup b)).mpr
      fun i => hM.mem_iff
  refine ⟨st, _, hrun, htraces, hsingle, ?_, fun M hM => hperm M (hsteps.of_start hM),
    hperm _ hsteps.current, fun sem args b hb prev s hub => ?_⟩
  · obtain ⟨_, _, hrest⟩ := Option.bind_eq_some_iff.mp hrun
    obtain ⟨traceState, hid, hrest⟩ := Option.bind_eq_some_iff.mp hrest
    obtain ⟨ddgs, _, hloop⟩ := Option.bind_eq_some_iff.mp hrest
    obtain rfl := Option.some.inj (htraces.symm.trans hid)
    exact foldlM_singleton_stats ddgs hsingle hloop
  · have hmotions : Motions (fun _ _ _ => False) F st.trail.current := hsteps.current
    exact hmotions.execBlock_eq hF.wf hF.ssa hb hub

theorem twoBlocks_threshold100 : ∃ st,
    globalSchedulerPass false ⟨some 100, none, true⟩ twoBlocks certain twoBlocksAnalyses = some st ∧
      st.hoistStats = ⟨0, 0, 0, 0, 0, 0, 0⟩ ∧ ∀ b, st.trail.current.body b ~ twoBlocks.body b := by
  have hpct : SchedEnv.traceThresholdPct ⟨some 100, none, true⟩ = some 100 := rfl
  have hprob : ∀ a b, certain.edgeProbability a b ≤ 2 ^ 31 := fun _ _ => Nat.le_refl _
  obtain ⟨st, _, hrun, _, _, hstats, _, hperm, _⟩ := globalSchedulerPass_threshold100
    ⟨twoBlocks_wellFormed, twoBlocks_ssa⟩ false hpct hprob twoBlocksAnalyses
  exact ⟨st, hrun, hstats, hperm⟩

end TraceScheduler
