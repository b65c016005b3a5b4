import TraceScheduler.GlobalSchedule
import TraceScheduler.LocalScheduler

/-!
# The passes

`globalSchedulerPass` computes liveness, traces, graphs and critical paths from the function as it
comes, then schedules the traces one after the other in the function as it has become.  The reaching
definitions, which the source computes as well and never reads, are in `ReachingDefinitions`.
`localSchedulerPass` is the local scheduler with its liveness analysis.  A result of `none` would mean
that some loop does not end.

`PassInv` is what holds between two traces: the function so far is reached by legal edits, and the
blocks of every trace still to come hold the instructions they held at first.
-/

namespace TraceScheduler

open scoped List

structure PassState where
  trail : Trail
  hoistStats : HoistStats
  peakLivePressure : ℕ

/-- One trace, with its graph: list schedule, then both phases. -/
def scheduleTrace {G : FlowGraph BasicBlock} (A : Analyses G) (universeIndex : Value → Option ℕ)
    (livenessResult : LivenessResult) (usePressure : Bool) (pressureBudget : ℤ) (statsOn : Bool)
    (st : PassState) (e : DDG × List BasicBlock) : Option PassState := do
  let firstBB ← e.2.head?
  let (schedule, peak) ← listSchedule st.trail.current universeIndex livenessResult e.1
    (livenessResult firstBB).inSet usePressure statsOn st.peakLivePressure
  let r := applySchedule A universeIndex livenessResult usePressure pressureBudget statsOn schedule
    e.2 st.trail st.hoistStats
  some ⟨r.trail, r.stats, peak⟩

def globalSchedulerPass (usePressure : Bool) (env : SchedEnv) (F : Function) (profile : Profile)
    (A : Analyses F.cfg) : Option PassState := do
  let livenessResult ← computeLiveness F
  let traces ← identifyTraces F profile (getTraceThreshold env) (schedStatsEnabled env)
  let ddgs ← (traces.traces.map (buildDDG F)).mapM DDG.computeCriticalPath
  let universeIndex := buildValueIndex (valueUniverse F)
  (ddgs.zip traces.traces).foldlM
    (scheduleTrace A universeIndex livenessResult usePressure (getPressureBudget env)
      (schedStatsEnabled env))
    ⟨Trail.start F, ⟨0, 0, 0, 0, 0, 0, 0⟩, 0⟩

def localSchedulerPass (env : SchedEnv) (F : Function) : Option (Trail × ℕ) := do
  let livenessResult ← computeLiveness F
  let universeIndex := buildValueIndex (valueUniverse F)
  runLocalScheduler livenessResult universeIndex (schedStatsEnabled env) F

/-! ### One trace -/

/-- A function to be scheduled. -/
structure Schedulable (F : Function) : Prop where
  wf : F.WellFormed
  ssa : F.SSADominance

/-- A hoist within some trace. -/
def HoistOkOn {G : FlowGraph BasicBlock} (A : Analyses G) (traces : List (List BasicBlock))
    (i : InstrId) (src dst : BasicBlock) : Prop := ∃ trace ∈ traces, HoistOk A trace i src dst

section

variable {F : Function} {A : Analyses F.cfg} {universeIndex : Value → Option ℕ}
  {livenessResult : LivenessResult} {usePressure : Bool} {pressureBudget : ℤ} {statsOn : Bool}
  {profile : Profile} {threshold : ℕ} {bfsOrder trace : List BasicBlock} {st : PassState}
  {traces : List (List BasicBlock)}

/-- Between two traces; `todo` is still to be scheduled. -/
structure PassInv (F : Function) (A : Analyses F.cfg) (traces todo : List (List BasicBlock))
    (st : PassState) : Prop where
  steps : Trail.Steps (HoistOkOn A traces) (Trail.start F) st.trail
  pending : ∀ trace ∈ todo, ∀ b ∈ trace, ∀ x, x ∈ st.trail.current.body b ↔ x ∈ F.body b

/-- What scheduling one trace amounts to. -/
structure ScheduledTrace (F : Function) (A : Analyses F.cfg) (universeIndex : Value → Option ℕ)
    (livenessResult : LivenessResult) (usePressure : Bool) (pressureBudget : ℤ) (statsOn : Bool)
    (trace : List BasicBlock) (st st' : PassState) (schedule : List InstrId) : Prop where
  complete : IsTraceSchedule F trace schedule
  appliable : Appliable F.cfg st.trail.current trace schedule
  result : st'.trail = (applySchedule A universeIndex livenessResult usePressure pressureBudget
    statsOn schedule trace st.trail st.hoistStats).trail

theorem PassInv.appliable (hF : Schedulable F) (hbfs : F.cfg.IsBreadthFirst bfsOrder)
    {todo : List (List BasicBlock)} (h : PassInv F A traces (trace :: todo) st)
    (htrace : IsTrace F profile threshold bfsOrder trace) {schedule : List InstrId}
    (hsched : IsTraceSchedule F trace schedule) :
    Appliable F.cfg st.trail.current trace schedule where
  wf := h.steps.current.wellFormed hF.wf
  cfg := h.steps.current.cfg_eq hF.wf
  reachable b hb := hbfs.mem_iff.mp (htrace.reachable b hb)
  nodup := hsched.nodup
  scheduled i hi := by
    obtain ⟨⟨bb, hbb, hmem⟩, _⟩ := (hsched.mem_iff i).mp hi
    exact ⟨bb, hbb, (h.pending trace List.mem_cons_self bb hbb i).mpr hmem⟩
  respects bb _ := hsched.respectsUses h.steps.current.sameCode.instr bb

variable (universeIndex livenessResult usePressure pressureBudget statsOn) in
/-- **Scheduling a trace** always gives a result. -/
theorem scheduleTrace_spec (hF : Schedulable F) (hbfs : F.cfg.IsBreadthFirst bfsOrder)
    {todo : List (List BasicBlock)} (h : PassInv F A traces (trace :: todo) st)
    (htrace : IsTrace F profile threshold bfsOrder trace) {ddg : DDG}
    (hddg : (buildDDG F trace).computeCriticalPath = some ddg) :
    ∃ st' schedule, scheduleTrace A universeIndex livenessResult usePressure pressureBudget statsOn st
        (ddg, trace) = some st' ∧
      ScheduledTrace F A universeIndex livenessResult usePressure pressureBudget statsOn trace st st'
        schedule := by
  obtain ⟨firstBB, tail, htail⟩ := List.exists_cons_of_ne_nil htrace.nonempty
  obtain ⟨ddg', schedule, peak', hddg', hrun, hsched⟩ := listSchedule_trace hF.wf hF.ssa hbfs htrace
    h.steps.current.sameCode.instr universeIndex livenessResult (livenessResult firstBB).inSet
    usePressure statsOn st.peakLivePressure
  obtain rfl := Option.some.inj (hddg.symm.trans hddg')
  have hhead : trace.head? = some firstBB := by rw [htail]; rfl
  let r := applySchedule A universeIndex livenessResult usePressure pressureBudget statsOn schedule
    trace st.trail st.hoistStats
  refine ⟨⟨r.trail, r.stats, peak'⟩, schedule, ?_, hsched, h.appliable hF hbfs htrace hsched, rfl⟩
  simp only [scheduleTrace, hhead, Option.bind_eq_bind, Option.bind_some, hrun, r]

/-- What a scheduled trace does to the function: legal edits, nothing outside the trace. -/
theorem ScheduledTrace.steps {st' : PassState} {schedule : List InstrId}
    (h : ScheduledTrace F A universeIndex livenessResult usePressure pressureBudget statsOn trace st
      st' schedule) : Trail.Steps (HoistOk A trace) st.trail st'.trail := by
  rw [h.result]
  exact applySchedule_steps h.appliable _

/-- An instruction of a block off the trace stays, and none comes in. -/
theorem ScheduledTrace.mem_off_trace {st' : PassState} {schedule : List InstrId}
    (h : ScheduledTrace F A universeIndex livenessResult usePressure pressureBudget statsOn trace st
      st' schedule) {b : BasicBlock} (hb : b ∉ trace) (x : InstrId) :
    x ∈ st'.trail.current.body b ↔ x ∈ st.trail.current.body b := by
  have hwf := h.appliable.wf
  constructor
  · intro hx
    -- a hoist ends in a block of the trace
    have hclosed := h.steps.current.mem_of_closed hwf
      (R := fun i b => i ∈ st.trail.current.body b ∨ b ∈ trace)
      (fun _ _ _ _ hP => .inr hP.2.1) (fun _ _ hi => .inl hi) hx
    exact hclosed.resolve_right hb
  · intro hx
    obtain ⟨b', hx'⟩ := (h.steps.current.exists_mem hwf).mpr ⟨b, hx⟩
    have hclosed := h.steps.current.mem_of_closed hwf
      (R := fun i b => i ∈ st.trail.current.body b ∨
        ∃ b₀ ∈ trace, i ∈ st.trail.current.body b₀)
      (fun i src _ hR hP => .inr (hR.elim (fun hi => ⟨src, hP.1, hi⟩) id))
      (fun _ _ hi => .inl hi) hx'
    rcases hclosed with hx₀ | ⟨b₀, hb₀, hx₀⟩
    · exact hwf.body_unique hx₀ hx ▸ hx'
    · exact absurd (hwf.body_unique hx₀ hx ▸ hb₀) hb

/-- The traces that are left are untouched. -/
theorem PassInv.next {todo : List (List BasicBlock)} (h : PassInv F A traces (trace :: todo) st)
    (hmem : trace ∈ traces) (hdisj : ∀ trace' ∈ todo, ∀ b ∈ trace', b ∉ trace)
    {st' : PassState} {schedule : List InstrId}
    (hsched : ScheduledTrace F A universeIndex livenessResult usePressure pressureBudget statsOn
      trace st st' schedule) : PassInv F A traces todo st' where
  steps := h.steps.trans (hsched.steps.mono fun _ _ _ hP => ⟨trace, hmem, hP⟩)
  pending trace' htrace' b hb x := by
    rw [hsched.mem_off_trace (hdisj trace' htrace' b hb)]
    exact h.pending trace' (List.mem_cons_of_mem _ htrace') b hb x

/-! ### All traces -/

/-- A whole run over the traces, trace by trace. -/
inductive ScheduledTraces (F : Function) (A : Analyses F.cfg) (universeIndex : Value → Option ℕ)
    (livenessResult : LivenessResult) (usePressure : Bool) (pressureBudget : ℤ) (statsOn : Bool) :
    List (List BasicBlock) → PassState → PassState → Prop
  | nil (st : PassState) : ScheduledTraces F A universeIndex livenessResult usePressure
      pressureBudget statsOn [] st st
  | cons {trace : List BasicBlock} {todo : List (List BasicBlock)} {st st₁ st₂ : PassState}
      {schedule : List InstrId} :
      ScheduledTrace F A universeIndex livenessResult usePressure pressureBudget statsOn trace st st₁
        schedule →
      ScheduledTraces F A universeIndex livenessResult usePressure pressureBudget statsOn todo st₁ st₂ →
      ScheduledTraces F A universeIndex livenessResult usePressure pressureBudget statsOn
        (trace :: todo) st st₂

variable (universeIndex livenessResult usePressure pressureBudget statsOn) in
theorem scheduleTraces_spec (hF : Schedulable F) (hbfs : F.cfg.IsBreadthFirst bfsOrder)
    {todo : List (List BasicBlock)} (h : PassInv F A traces todo st)
    (htraces : ∀ trace ∈ todo, trace ∈ traces ∧ IsTrace F profile threshold bfsOrder trace)
    (hdisj : todo.flatten.Nodup) :
    ∃ ddgs st', (todo.map (buildDDG F)).mapM DDG.computeCriticalPath = some ddgs ∧
      (ddgs.zip todo).foldlM (scheduleTrace A universeIndex livenessResult usePressure pressureBudget
        statsOn) st = some st' ∧
      ScheduledTraces F A universeIndex livenessResult usePressure pressureBudget statsOn todo st st' ∧
      PassInv F A traces [] st' := by
  induction todo generalizing st with
  | nil => exact ⟨[], st, rfl, rfl, .nil st, h⟩
  | cons trace todo ih =>
    obtain ⟨hmem, htrace⟩ := htraces trace List.mem_cons_self
    have hbuilt := wellBuilt_buildDDG (traceNodes_nodup hF.wf htrace.nodup)
    obtain ⟨ddg, hddg⟩ := DDG.computeCriticalPath_isSome hbuilt
    obtain ⟨st₁, schedule, hrun₁, hsched⟩ := scheduleTrace_spec universeIndex livenessResult
      usePressure pressureBudget statsOn hF hbfs h htrace hddg
    rw [List.flatten_cons] at hdisj
    have hoff : ∀ trace' ∈ todo, ∀ b ∈ trace', b ∉ trace := by
      intro trace' htrace' b hb hb'
      exact (List.nodup_append.mp hdisj).2.2 b hb' b (List.mem_flatten.mpr ⟨trace', htrace', hb⟩) rfl
    obtain ⟨ddgs, st₂, hddgs, hrun₂, hall, hinv⟩ := ih (h.next hmem hoff hsched)
      (fun t ht => htraces t (List.mem_cons_of_mem _ ht)) (List.nodup_append.mp hdisj).2.1
    refine ⟨ddg :: ddgs, st₂, ?_, ?_, .cons hsched hall, hinv⟩
    · rw [List.map_cons, List.mapM_cons, hddg, hddgs]
      rfl
    · rw [List.zip_cons_cons, List.foldlM_cons, hrun₁]
      exact hrun₂

/-- What the global pass amounts to. -/
structure GlobalRun (usePressure : Bool) (env : SchedEnv) (F : Function) (profile : Profile)
    (A : Analyses F.cfg) (livenessResult : LivenessResult) (bfsOrder : List BasicBlock)
    (traces : List (List BasicBlock)) (st : PassState) : Prop where
  liveness : computeLiveness F = some livenessResult
  bfs : F.cfg.IsBreadthFirst bfsOrder
  identified : ∃ traceIdStats visited, identifyTraces F profile (getTraceThreshold env)
    (schedStatsEnabled env) = some ⟨traces, visited, traceIdStats⟩
  partition : IsTracePartition F profile (getTraceThreshold env) bfsOrder traces
  scheduled : ScheduledTraces F A (buildValueIndex (valueUniverse F)) livenessResult usePressure
    (getPressureBudget env) (schedStatsEnabled env) traces
    ⟨Trail.start F, ⟨0, 0, 0, 0, 0, 0, 0⟩, 0⟩ st
  steps : Trail.Steps (HoistOkOn A traces) (Trail.start F) st.trail

/-- **The global pass ends**, and the function it leaves behind is reached by legal edits. -/
theorem globalSchedulerPass_spec (hF : Schedulable F) (usePressure : Bool) (env : SchedEnv)
    (profile : Profile) (A : Analyses F.cfg) :
    ∃ st livenessResult bfsOrder traces, globalSchedulerPass usePressure env F profile A = some st ∧
      GlobalRun usePressure env F profile A livenessResult bfsOrder traces st := by
  obtain ⟨livenessResult, hlive⟩ := Option.isSome_iff_exists.mp (computeLiveness_isSome F)
  obtain ⟨bfsOrder, ⟨traces, visited, traceIdStats⟩, hsearch, htraces, hpart⟩ := identifyTraces_spec
    hF.wf.cfgConsistent profile (getTraceThreshold env) (schedStatsEnabled env)
  have hbfs := FlowGraph.breadthFirst_spec hsearch
  have hinit : PassInv F A traces traces ⟨Trail.start F, ⟨0, 0, 0, 0, 0, 0, 0⟩, 0⟩ :=
    ⟨.refl _, fun _ _ _ _ _ => Iff.rfl⟩
  obtain ⟨ddgs, st, hddgs, hrun, hall, hinv⟩ := scheduleTraces_spec
    (buildValueIndex (valueUniverse F)) livenessResult usePressure (getPressureBudget env)
    (schedStatsEnabled env) hF hbfs hinit (fun t ht => ⟨ht, hpart.isTrace t ht⟩) hpart.nodup
  refine ⟨st, livenessResult, bfsOrder, traces, ?_,
    ⟨hlive, hbfs, ⟨_, _, htraces⟩, hpart, hall, hinv.steps⟩⟩
  simp only [globalSchedulerPass, hlive, htraces, Option.bind_eq_bind, Option.bind_some, hddgs, hrun]

end

/-- **The local pass ends**, and rearranges regions only. -/
theorem localSchedulerPass_spec {F : Function} (hwf : F.WellFormed) (env : SchedEnv) :
    ∃ tr peak, localSchedulerPass env F = some (tr, peak) ∧
      Trail.Steps (fun _ _ _ => False) (Trail.start F) tr := by
  obtain ⟨livenessResult, hlive⟩ := Option.isSome_iff_exists.mp (computeLiveness_isSome F)
  obtain ⟨tr, peak, hrun, hsteps⟩ := runLocalScheduler_spec hwf livenessResult
    (buildValueIndex (valueUniverse F)) (schedStatsEnabled env)
  refine ⟨tr, peak, ?_, hsteps⟩
  simp only [localSchedulerPass, hlive, Option.bind_eq_bind, Option.bind_some, hrun]

/-! ### What holds of every run -/

section

variable {F : Function} {P : InstrId → BasicBlock → BasicBlock → Prop} {tr : Trail}

/-- Legal edits keep the dominance condition at every moment. -/
theorem Trail.Steps.ssa (hwf : F.WellFormed) (hssa : F.SSADominance)
    (h : Trail.Steps P (Trail.start F) tr) :
    tr.current.SSADominance ∧ ∀ M ∈ tr.moments, M.SSADominance :=
  ⟨h.current.ssa hwf hssa, fun _ hM => (h.of_start hM).ssa hwf hssa⟩

/-- **SSA dominance is an invariant of the global pass**: it holds of the result and at every moment,
after each region that is rewritten and after each instruction that is hoisted. -/
theorem globalSchedulerPass_ssaDominance (hwf : F.WellFormed) (hssa : F.SSADominance)
    (usePressure : Bool) (env : SchedEnv) (profile : Profile) (A : Analyses F.cfg) :
    ∃ st, globalSchedulerPass usePressure env F profile A = some st ∧
      st.trail.current.SSADominance ∧ ∀ M ∈ st.trail.moments, M.SSADominance := by
  obtain ⟨st, _, _, _, hrun, hspec⟩ := globalSchedulerPass_spec ⟨hwf, hssa⟩ usePressure env profile A
  exact ⟨st, hrun, hspec.steps.ssa hwf hssa⟩

/-- Where hoists along traces lead: to an earlier block of the same trace. -/
theorem Motions.same_trace {profile : Profile} {threshold : ℕ} {bfsOrder : List BasicBlock}
    {traces : List (List BasicBlock)} {A : Analyses F.cfg} {F' : Function}
    (hpart : IsTracePartition F profile threshold bfsOrder traces) (hwf : F.WellFormed)
    (h : Motions (HoistOkOn A traces) F F') {i : InstrId} {b b' : BasicBlock}
    (hb : i ∈ F.body b) (hb' : i ∈ F'.body b') :
    b' = b ∨ ∃ trace ∈ traces, b ∈ trace ∧ b' ∈ trace ∧ trace.idxOf b' ≤ trace.idxOf b := by
  refine h.mem_of_closed hwf (R := fun i b' => ∀ b, i ∈ F.body b → b' = b ∨
    ∃ trace ∈ traces, b ∈ trace ∧ b' ∈ trace ∧ trace.idxOf b' ≤ trace.idxOf b) ?_ ?_ hb' b hb
  · rintro i src dst hsrc ⟨trace, ht, hsrct, hdstt, hlt, _⟩ b hb
    refine .inr ⟨trace, ht, ?_⟩
    rcases hsrc b hb with rfl | ⟨trace', ht', hbt', hsrct', hle⟩
    · exact ⟨hsrct, hdstt, hlt.le⟩
    · -- the block it comes from is in one trace only
      obtain rfl := hpart.unique ht' ht hsrct' hsrct
      exact ⟨hbt', hdstt, hlt.le.trans hle⟩
  · intro i b' hb' b hb
    exact .inl (hwf.body_unique hb' hb)

/-- **Anchors are fixed in every configuration.** The local pass and both global ones keep every
instruction, the anchors of each block in their order and the control-flow graph.  The local pass
keeps each instruction in its block; the global ones move it to an earlier block of its trace, if at
all, and never when it is an anchor. -/
theorem passes_keepAnchors (hwf : F.WellFormed) (hssa : F.SSADominance) (env : SchedEnv)
    (profile : Profile) (A : Analyses F.cfg) :
    (∃ tr peak, localSchedulerPass env F = some (tr, peak) ∧ KeepsAnchors F tr.current ∧
      ∀ i b, i ∈ tr.current.body b ↔ i ∈ F.body b) ∧
    ∀ usePressure, ∃ st traceState,
      globalSchedulerPass usePressure env F profile A = some st ∧
      identifyTraces F profile (getTraceThreshold env) (schedStatsEnabled env) = some traceState ∧
      KeepsAnchors F st.trail.current ∧
      (∀ i b, F.isAnchor i = true → (i ∈ st.trail.current.body b ↔ i ∈ F.body b)) ∧
      ∀ i b b', i ∈ F.body b → i ∈ st.trail.current.body b' → b' = b ∨
        ∃ trace ∈ traceState.traces, b ∈ trace ∧ b' ∈ trace ∧ trace.idxOf b' ≤ trace.idxOf b := by
  constructor
  · obtain ⟨tr, peak, hrun, hsteps⟩ := localSchedulerPass_spec hwf env
    exact ⟨tr, peak, hrun, hsteps.current.keepsAnchors hwf, fun i b => hsteps.current.mem_iff⟩
  · intro usePressure
    obtain ⟨st, _, _, traces, hrun, hspec⟩ :=
      globalSchedulerPass_spec ⟨hwf, hssa⟩ usePressure env profile A
    obtain ⟨stats, visited, htraces⟩ := hspec.identified
    have hmotions := hspec.steps.current
    refine ⟨st, _, hrun, htraces, hmotions.keepsAnchors hwf, fun i b hi => ?_, fun i b b' hb hb' => ?_⟩
    · exact hmotions.mem_of_anchor hwf hi
    · exact hmotions.same_trace hspec.partition hwf hb hb'

end

/-- No loops, and nothing that may trap. -/
def twoBlocksAnalyses : Analyses twoBlocks.cfg where
  DT := twoBlocks_wellFormed.dominatorTree
  isLoopHeader _ := false
  getLoopFor _ := none
  isSafeToSpeculativelyExecute _ _ _ := true

theorem twoBlocks_ssaDominance : twoBlocks.WellFormed ∧ twoBlocks.SSADominance ∧
    ∃ st, globalSchedulerPass true ⟨none, none, false⟩ twoBlocks certain twoBlocksAnalyses = some st ∧
      st.trail.current.SSADominance ∧ ∀ M ∈ st.trail.moments, M.SSADominance :=
  ⟨twoBlocks_wellFormed, twoBlocks_ssa, globalSchedulerPass_ssaDominance twoBlocks_wellFormed
    twoBlocks_ssa true ⟨none, none, false⟩ certain twoBlocksAnalyses⟩

theorem twoBlocks_keepAnchors :
    (∃ tr peak, localSchedulerPass ⟨none, none, false⟩ twoBlocks = some (tr, peak) ∧
      KeepsAnchors twoBlocks tr.current) ∧
    ∃ st, globalSchedulerPass false ⟨none, none, false⟩ twoBlocks certain twoBlocksAnalyses =
      some st ∧ KeepsAnchors twoBlocks st.trail.current := by
  obtain ⟨⟨tr, peak, hlocal, hkeeps, _⟩, hglobal⟩ := passes_keepAnchors twoBlocks_wellFormed
    twoBlocks_ssa ⟨none, none, false⟩ certain twoBlocksAnalyses
  obtain ⟨st, _, hrun, _, hkeeps', _⟩ := hglobal false
  exact ⟨⟨tr, peak, hlocal, hkeeps⟩, st, hrun, hkeeps'⟩

end TraceScheduler
