import TraceScheduler.ListPriority
import TraceScheduler.ProfileInvariance
import TraceScheduler.RegionOrder

/-!
# Planning ahead

Both passes take turns: a trace, or a block, is list scheduled and rewritten before the next one is
looked at, and the list scheduler reads the function as it is then.  What it reads there are the parent
blocks of the nodes, and edits elsewhere leave these as they are.  So the schedules can be drawn up
ahead, in the function as it comes, and applied one after the other (`globalSchedulerPass_planned`,
`localSchedulerPass_planned`).

`SameNodes` says what a run of the main loop needs of the function (`SameNodes.listSchedule_eq`), and
`globalSchedulerPass_induct` and `localSchedulerPass_induct` take a run of either pass apart.
-/

namespace TraceScheduler

open scoped List

/-! ### A run of the main loop in another function -/

/-- Two functions in which the schedulable nodes of a graph look alike. -/
structure SameNodes (F F' : Function) (g : DDG) : Prop where
  instr : F'.instr = F.instr
  parent : ∀ n ∈ g.nodes, isSchedulable F n = true → F'.getParent n = F.getParent n

section

variable {F F' : Function} {g : DDG} {universeIndex : Value → Option ℕ} {liveness : LivenessResult}
  {useRegPressure statsOn : Bool} {st : ListState} {currentLive : Finset ℕ} {peak : ℕ}

theorem ScheduleInv.node_of_queued (h : ScheduleInv F g st) {n : InstrId} (hn : n ∈ st.readyQueue) :
    n ∈ g.nodes ∧ isSchedulable F n = true := by
  obtain ⟨hnode, hs, _⟩ := (h.mem_iff n).mp (List.mem_append_right _ hn)
  exact ⟨hnode, hs⟩

theorem tieBreakDelta_congr (hinstr : F'.instr = F.instr) {n : InstrId}
    (hparent : F'.getParent n = F.getParent n) :
    tieBreakDelta F' universeIndex liveness currentLive useRegPressure n =
      tieBreakDelta F universeIndex liveness currentLive useRegPressure n := by
  rw [tieBreakDelta, tieBreakDelta, pressureDelta, pressureDelta, hinstr, hparent]

theorem SameNodes.pickBest_eq (h : SameNodes F F' g) (hinv : ScheduleInv F g st) :
    pickBest F' universeIndex liveness st.ddg st.readyQueue st.currentLive useRegPressure =
      pickBest F universeIndex liveness st.ddg st.readyQueue st.currentLive useRegPressure := by
  rw [pickBest, pickBest]
  congr 1
  apply List.foldl_ext
  intro acc n hn
  obtain ⟨hnode, hs⟩ := hinv.node_of_queued hn
  rw [considerNode, considerNode, tieBreakDelta_congr h.instr (h.parent n hnode hs)]

theorem SameNodes.scheduleNode_eq (h : SameNodes F F' g) (hinv : ScheduleInv F g st) {best : InstrId}
    (hbest : best ∈ st.readyQueue) :
    scheduleNode F' universeIndex liveness statsOn st best =
      scheduleNode F universeIndex liveness statsOn st best := by
  obtain ⟨hnode, hs⟩ := hinv.node_of_queued hbest
  have hlive : updateLiveSet F' universeIndex liveness best st.currentLive =
      updateLiveSet F universeIndex liveness best st.currentLive := by
    rw [updateLiveSet, updateLiveSet, h.instr, h.parent best hnode hs]
  have hrelease : releaseSuccessor F' = releaseSuccessor F := by
    funext acc succ
    rw [releaseSuccessor, releaseSuccessor, isSchedulable_eq_of_instr h.instr]
  rw [scheduleNode, scheduleNode, hlive, hrelease]

theorem initialListState_congr (hinstr : F'.instr = F.instr) :
    initialListState F' statsOn g currentLive peak = initialListState F statsOn g currentLive peak := by
  rw [initialListState, initialListState, isSchedulable_eq_of_instr hinstr]

theorem SameNodes.listLoop_eq (h : SameNodes F F' g) (hg : g.WellBuilt) (fuel : ℕ)
    (hinv : ScheduleInv F g st) :
    listLoop F' universeIndex liveness useRegPressure statsOn fuel st =
      listLoop F universeIndex liveness useRegPressure statsOn fuel st := by
  induction fuel generalizing st with
  | zero => rfl
  | succ fuel ih =>
    rw [listLoop, listLoop, h.pickBest_eq hinv]
    split
    · rfl
    · cases hpick : pickBest F universeIndex liveness st.ddg st.readyQueue st.currentLive
          useRegPressure with
      | none => rfl
      | some best =>
        have hbest := mem_of_pickBest hpick
        dsimp only
        rw [h.scheduleNode_eq hinv hbest]
        exact ih (hinv.scheduleNode hg hbest)

/-- **The schedule of a graph** is the same in both functions. -/
theorem SameNodes.listSchedule_eq (h : SameNodes F F' g) (hg : g.WellBuilt) :
    listSchedule F' universeIndex liveness g currentLive useRegPressure statsOn peak =
      listSchedule F universeIndex liveness g currentLive useRegPressure statsOn peak := by
  rw [listSchedule, listSchedule, initialListState_congr h.instr,
    h.listLoop_eq hg _ (scheduleInv_init hg currentLive peak)]

end

/-! ### The run over the traces -/

section

variable {F : Function} {A : Analyses F.cfg} {universeIndex : Value → Option ℕ}
  {livenessResult : LivenessResult} {usePressure : Bool} {pressureBudget : ℤ} {statsOn : Bool}
  {profile : Profile} {threshold : ℕ} {bfsOrder trace : List BasicBlock} {st st' : PassState}
  {traces todo : List (List BasicBlock)} {ddg : DDG}

/-- A trace still to come looks as it did at first. -/
theorem PassInv.sameNodes (hwf : F.WellFormed) (h : PassInv F A traces (trace :: todo) st)
    (hddg : (buildDDG F trace).computeCriticalPath = some ddg) : SameNodes F st.trail.current ddg := by
  refine ⟨h.steps.current.sameCode.instr, ?_⟩
  intro n hn _
  rw [(DDG.sameShape_computeCriticalPath hddg).nodes, buildDDG_nodes] at hn
  obtain ⟨bb, hbb, hbody, _⟩ := mem_traceNodes.mp hn
  have hbody' := (h.pending trace List.mem_cons_self bb hbb n).mpr hbody
  rw [(h.steps.current.wellFormed hwf).getParent_eq hbody', hwf.getParent_eq hbody]

theorem wellBuilt_of_trace (hwf : F.WellFormed) (htrace : trace.Nodup)
    (hddg : (buildDDG F trace).computeCriticalPath = some ddg) : ddg.WellBuilt :=
  (DDG.sameShape_computeCriticalPath hddg).wellBuilt (wellBuilt_buildDDG (traceNodes_nodup hwf htrace))

/-- The parts of one trace's turn: its schedule, then both phases. -/
theorem scheduleTrace_eq_some {e : DDG × List BasicBlock}
    (h : scheduleTrace A universeIndex livenessResult usePressure pressureBudget statsOn st e =
      some st') :
    ∃ firstBB schedule peak, e.2.head? = some firstBB ∧
      listSchedule st.trail.current universeIndex livenessResult e.1 (livenessResult firstBB).inSet
        usePressure statsOn st.peakLivePressure = some (schedule, peak) ∧
      st' = ⟨(applySchedule A universeIndex livenessResult usePressure pressureBudget statsOn schedule
          e.2 st.trail st.hoistStats).trail,
        (applySchedule A universeIndex livenessResult usePressure pressureBudget statsOn schedule
          e.2 st.trail st.hoistStats).stats, peak⟩ := by
  obtain ⟨firstBB, hfirst, hrest⟩ := Option.bind_eq_some_iff.mp h
  obtain ⟨⟨schedule, peak⟩, hrun, hst'⟩ := Option.bind_eq_some_iff.mp hrest
  exact ⟨firstBB, schedule, peak, hfirst, hrun, (Option.some.inj hst').symm⟩

/-- What holds of one turn and of what follows holds of the whole run. -/
theorem PassInv.run_induct {R : List (List BasicBlock) → PassState → PassState → Prop}
    (hnil : ∀ st, R [] st st)
    (hcons : ∀ trace todo ddg st st₁ st₂, PassInv F A traces (trace :: todo) st → trace.Nodup →
      (buildDDG F trace).computeCriticalPath = some ddg →
      scheduleTrace A universeIndex livenessResult usePressure pressureBudget statsOn st
        (ddg, trace) = some st₁ → R todo st₁ st₂ → R (trace :: todo) st st₂)
    (hF : Schedulable F) (hbfs : F.cfg.IsBreadthFirst bfsOrder) (h : PassInv F A traces todo st)
    (htraces : ∀ trace ∈ todo, trace ∈ traces ∧ IsTrace F profile threshold bfsOrder trace)
    (hdisj : todo.flatten.Nodup) {ddgs : List DDG}
    (hddgs : (todo.map (buildDDG F)).mapM DDG.computeCriticalPath = some ddgs)
    (hrun : (ddgs.zip todo).foldlM (scheduleTrace A universeIndex livenessResult usePressure
      pressureBudget statsOn) st = some st') : R todo st st' := by
  induction todo generalizing st ddgs with
  | nil =>
    obtain rfl := Option.some.inj hddgs
    obtain rfl := Option.some.inj hrun
    exact hnil st
  | cons trace todo ih =>
    obtain ⟨hmem, htrace⟩ := htraces trace List.mem_cons_self
    rw [List.map_cons, List.mapM_cons] at hddgs
    obtain ⟨ddg, hddg, hrest⟩ := Option.bind_eq_some_iff.mp hddgs
    obtain ⟨ddgs', hddgs', heq⟩ := Option.bind_eq_some_iff.mp hrest
    obtain rfl := Option.some.inj heq
    rw [List.zip_cons_cons, List.foldlM_cons] at hrun
    obtain ⟨st₁, hstep, hrun'⟩ := Option.bind_eq_some_iff.mp hrun
    obtain ⟨st₁', schedule, hstep', hsched⟩ := scheduleTrace_spec universeIndex livenessResult
      usePressure pressureBudget statsOn hF hbfs h htrace hddg
    obtain rfl := Option.some.inj (hstep.symm.trans hstep')
    rw [List.flatten_cons] at hdisj
    have hoff : ∀ trace' ∈ todo, ∀ b ∈ trace', b ∉ trace := by
      intro trace' htrace' b hb hb'
      exact (List.nodup_append.mp hdisj).2.2 b hb' b (List.mem_flatten.mpr ⟨trace', htrace', hb⟩) rfl
    apply hcons trace todo ddg st st₁ st' h htrace.nodup hddg hstep
    exact ih (h.next hmem hoff hsched) (fun t ht => htraces t (List.mem_cons_of_mem _ ht))
      (List.nodup_append.mp hdisj).2.1 hddgs' hrun'

end

/-- The run of the global pass, taken apart: `R` holds of it when it holds of no trace and one turn
extends it. -/
theorem globalSchedulerPass_induct {F : Function} (hF : Schedulable F) (usePressure : Bool)
    (env : SchedEnv) (profile : Profile) (A : Analyses F.cfg)
    {R : LivenessResult → List (List BasicBlock) → PassState → PassState → Prop}
    (hnil : ∀ livenessResult st, R livenessResult [] st st)
    (hcons : ∀ livenessResult traces trace todo ddg st st₁ st₂,
      PassInv F A traces (trace :: todo) st → trace.Nodup →
      (buildDDG F trace).computeCriticalPath = some ddg →
      scheduleTrace A (buildValueIndex (valueUniverse F)) livenessResult usePressure
        (getPressureBudget env) (schedStatsEnabled env) st (ddg, trace) = some st₁ →
      R livenessResult todo st₁ st₂ → R livenessResult (trace :: todo) st st₂) :
    ∃ st livenessResult traceState, globalSchedulerPass usePressure env F profile A = some st ∧
      computeLiveness F = some livenessResult ∧
      identifyTraces F profile (getTraceThreshold env) (schedStatsEnabled env) = some traceState ∧
      R livenessResult traceState.traces ⟨Trail.start F, ⟨0, 0, 0, 0, 0, 0, 0⟩, 0⟩ st := by
  obtain ⟨st, hrun⟩ : ∃ st, globalSchedulerPass usePressure env F profile A = some st := by
    obtain ⟨st, _, _, _, hrun, _⟩ := globalSchedulerPass_spec hF usePressure env profile A
    exact ⟨st, hrun⟩
  obtain ⟨bfsOrder, traceState, hsearch, htraces, hpart⟩ := identifyTraces_spec
    hF.wf.cfgConsistent profile (getTraceThreshold env) (schedStatsEnabled env)
  have hturns := hrun
  rw [globalSchedulerPass] at hturns
  obtain ⟨livenessResult, hlive, hturns⟩ := Option.bind_eq_some_iff.mp hturns
  obtain ⟨traceState', htraces', hturns⟩ := Option.bind_eq_some_iff.mp hturns
  obtain rfl := Option.some.inj (htraces.symm.trans htraces')
  obtain ⟨ddgs, hddgs, hturns⟩ := Option.bind_eq_some_iff.mp hturns
  refine ⟨st, livenessResult, traceState, hrun, hlive, htraces, ?_⟩
  have hinit : PassInv F A traceState.traces traceState.traces
      ⟨Trail.start F, ⟨0, 0, 0, 0, 0, 0, 0⟩, 0⟩ := ⟨.refl _, fun _ _ _ _ _ => Iff.rfl⟩
  exact PassInv.run_induct (hnil livenessResult) (hcons livenessResult traceState.traces) hF
    (FlowGraph.breadthFirst_spec hsearch) hinit
    (fun trace htrace => ⟨htrace, hpart.isTrace trace htrace⟩) hpart.nodup hddgs hturns

/-! ### The plan -/

/-- The schedule of a trace, drawn up in the function as it comes. -/
def planTrace (F : Function) (universeIndex : Value → Option ℕ) (livenessResult : LivenessResult)
    (usePressure : Bool) (trace : List BasicBlock) : Option (List InstrId) := do
  let firstBB ← trace.head?
  let ddg ← (buildDDG F trace).computeCriticalPath
  let (schedule, _) ← listSchedule F universeIndex livenessResult ddg (livenessResult firstBB).inSet
    usePressure false 0
  some schedule

/-- Both phases for a schedule that is there already. -/
def applyPlan {G : FlowGraph BasicBlock} (A : Analyses G) (universeIndex : Value → Option ℕ)
    (livenessResult : LivenessResult) (usePressure : Bool) (pressureBudget : ℤ) (statsOn : Bool)
    (st : Trail × HoistStats) (e : List InstrId × List BasicBlock) : Trail × HoistStats :=
  let r := applySchedule A universeIndex livenessResult usePressure pressureBudget statsOn e.1 e.2 st.1
    st.2
  (r.trail, r.stats)

/-- The schedule of a block, drawn up in the function as it comes. -/
def planBlock (F : Function) (universeIndex : Value → Option ℕ) (livenessResult : LivenessResult)
    (bb : BasicBlock) : Option (List InstrId) := do
  let ddg ← (buildLocalDDG F bb).computeCriticalPath
  let (schedule, _) ← listSchedule F universeIndex livenessResult ddg (livenessResult bb).inSet true
    false 0
  some schedule

/-- A schedule does not depend on what is counted beside it. -/
theorem listSchedule_uncounted {F : Function} {universeIndex : Value → Option ℕ}
    {liveness : LivenessResult} {useRegPressure statsOn : Bool} {g : DDG} {currentLive : Finset ℕ}
    {peak peak' : ℕ} {schedule : List InstrId}
    (h : listSchedule F universeIndex liveness g currentLive useRegPressure statsOn peak =
      some (schedule, peak')) :
    ∃ peak₀, listSchedule F universeIndex liveness g currentLive useRegPressure false 0 =
      some (schedule, peak₀) := by
  have heq : (listSchedule F universeIndex liveness g currentLive useRegPressure statsOn peak).map
      Prod.fst = (listSchedule F universeIndex liveness g currentLive useRegPressure false 0).map
        Prod.fst := listSchedule_schedule_eq g currentLive peak 0
  rw [h] at heq
  obtain ⟨⟨schedule₀, peak₀⟩, hrun, rfl⟩ := Option.map_eq_some_iff.mp heq.symm
  exact ⟨peak₀, hrun⟩

theorem planTrace_eq_some {F : Function} {universeIndex : Value → Option ℕ}
    {livenessResult : LivenessResult} {usePressure : Bool} {trace : List BasicBlock}
    {firstBB : BasicBlock} {ddg : DDG} {schedule : List InstrId} {peak : ℕ}
    (hfirst : trace.head? = some firstBB) (hddg : (buildDDG F trace).computeCriticalPath = some ddg)
    (hrun : listSchedule F universeIndex livenessResult ddg (livenessResult firstBB).inSet usePressure
      false 0 = some (schedule, peak)) :
    planTrace F universeIndex livenessResult usePressure trace = some schedule := by
  simp only [planTrace, hfirst, hddg, hrun, Option.bind_eq_bind, Option.bind_some]

/-- **One turn**: the schedule is the one of the function as it came. -/
theorem PassInv.turn_planned {F : Function} {A : Analyses F.cfg} {universeIndex : Value → Option ℕ}
    {livenessResult : LivenessResult} {usePressure : Bool} {pressureBudget : ℤ} {statsOn : Bool}
    {traces todo : List (List BasicBlock)} {trace : List BasicBlock} {ddg : DDG} {st st' : PassState}
    (hwf : F.WellFormed) (h : PassInv F A traces (trace :: todo) st) (hnodup : trace.Nodup)
    (hddg : (buildDDG F trace).computeCriticalPath = some ddg)
    (hturn : scheduleTrace A universeIndex livenessResult usePressure pressureBudget statsOn st
      (ddg, trace) = some st') :
    ∃ schedule, planTrace F universeIndex livenessResult usePressure trace = some schedule ∧
      (st'.trail, st'.hoistStats) = applyPlan A universeIndex livenessResult usePressure pressureBudget
        statsOn (st.trail, st.hoistStats) (schedule, trace) := by
  obtain ⟨firstBB, schedule, peak, hfirst, hlist, rfl⟩ := scheduleTrace_eq_some hturn
  rw [(h.sameNodes hwf hddg).listSchedule_eq (wellBuilt_of_trace hwf hnodup hddg)] at hlist
  obtain ⟨peak₀, hlist₀⟩ := listSchedule_uncounted hlist
  exact ⟨schedule, planTrace_eq_some hfirst hddg hlist₀, rfl⟩

/-- **The global pass follows a plan.** The schedules of all traces can be drawn up in the function as
it comes; the pass leaves the code and the counters behind that come from applying them one after the
other. -/
theorem globalSchedulerPass_planned {F : Function} (hwf : F.WellFormed) (hssa : F.SSADominance)
    (usePressure : Bool) (env : SchedEnv) (profile : Profile) (A : Analyses F.cfg) :
    ∃ st livenessResult traceState schedules,
      globalSchedulerPass usePressure env F profile A = some st ∧
      computeLiveness F = some livenessResult ∧
      identifyTraces F profile (getTraceThreshold env) (schedStatsEnabled env) = some traceState ∧
      traceState.traces.mapM
        (planTrace F (buildValueIndex (valueUniverse F)) livenessResult usePressure) =
          some schedules ∧
      (st.trail, st.hoistStats) = (schedules.zip traceState.traces).foldl
        (applyPlan A (buildValueIndex (valueUniverse F)) livenessResult usePressure
          (getPressureBudget env) (schedStatsEnabled env))
        (Trail.start F, ⟨0, 0, 0, 0, 0, 0, 0⟩) := by
  obtain ⟨st, livenessResult, traceState, hrun, hlive, htraces, schedules, hplan, happly⟩ :=
    globalSchedulerPass_induct ⟨hwf, hssa⟩ usePressure env profile A
      (R := fun livenessResult todo st st' => ∃ schedules,
        todo.mapM (planTrace F (buildValueIndex (valueUniverse F)) livenessResult usePressure) =
          some schedules ∧
        (st'.trail, st'.hoistStats) = (schedules.zip todo).foldl
          (applyPlan A (buildValueIndex (valueUniverse F)) livenessResult usePressure
            (getPressureBudget env) (schedStatsEnabled env)) (st.trail, st.hoistStats))
      (fun _ st => ⟨[], rfl, rfl⟩) (by
        rintro livenessResult traces trace todo ddg st st₁ st₂ hinv hnodup hddg hturn
          ⟨schedules, hplan, happly⟩
        obtain ⟨schedule, hschedule, hstep⟩ := hinv.turn_planned hwf hnodup hddg hturn
        refine ⟨schedule :: schedules, ?_, ?_⟩
        · rw [List.mapM_cons, hschedule, hplan]
          rfl
        · rw [List.zip_cons_cons, List.foldl_cons, ← hstep]
          exact happly)
  exact ⟨st, livenessResult, traceState, schedules, hrun, hlive, htraces, hplan, happly⟩

theorem twoBlocks_planned :
    ∃ st livenessResult traceState schedules,
      globalSchedulerPass true ⟨none, none, false⟩ twoBlocks certain twoBlocksAnalyses = some st ∧
      computeLiveness twoBlocks = some livenessResult ∧
      identifyTraces twoBlocks certain (getTraceThreshold ⟨none, none, false⟩) false =
        some traceState ∧
      traceState.traces.mapM (planTrace twoBlocks (buildValueIndex (valueUniverse twoBlocks))
        livenessResult true) = some schedules ∧
      (st.trail, st.hoistStats) = (schedules.zip traceState.traces).foldl
        (applyPlan twoBlocksAnalyses (buildValueIndex (valueUniverse twoBlocks)) livenessResult true
          (getPressureBudget ⟨none, none, false⟩) false)
        (Trail.start twoBlocks, ⟨0, 0, 0, 0, 0, 0, 0⟩) :=
  globalSchedulerPass_planned twoBlocks_wellFormed twoBlocks_ssa true ⟨none, none, false⟩ certain
    twoBlocksAnalyses

/-! ### The local pass -/

section

variable {F F' : Function} {bb : BasicBlock}

theorem memoryOrderEdges_congr (hinstr : F'.instr = F.instr) (ops body : List InstrId) :
    memoryOrderEdges F' ops body = memoryOrderEdges F ops body := by
  induction body generalizing ops with
  | nil => rfl
  | cons i body ih => rw [memoryOrderEdges, memoryOrderEdges, hinstr, ih, ih]

/-- The graph of a block depends on the block alone. -/
theorem buildLocalDDG_congr (hinstr : F'.instr = F.instr) (hbody : F'.body bb = F.body bb) :
    buildLocalDDG F' bb = buildLocalDDG F bb := by
  rw [buildLocalDDG, buildLocalDDG, localDependenceEdges, localDependenceEdges,
    memoryOrderEdges_congr hinstr, hbody, DDG.ofNodes, DDG.ofNodes, hinstr]

/-- Between two blocks of the local pass; `todo` is still to be scheduled. -/
structure BlocksInv (F : Function) (todo : List BasicBlock) (tr : Trail) : Prop where
  steps : Trail.Steps (fun _ _ _ => False) (Trail.start F) tr
  pending : ∀ b ∈ todo, tr.current.body b = F.body b

/-- The parts of one block's turn. -/
theorem scheduleBlock_eq_some {livenessResult : LivenessResult} {universeIndex : Value → Option ℕ}
    {statsOn : Bool} {acc acc' : Trail × ℕ}
    (h : scheduleBlock livenessResult universeIndex statsOn acc bb = some acc') :
    ∃ ddg schedule peak, (buildLocalDDG acc.1.current bb).computeCriticalPath = some ddg ∧
      listSchedule acc.1.current universeIndex livenessResult ddg (livenessResult bb).inSet true statsOn
        acc.2 = some (schedule, peak) ∧ acc' = (applyLocalSchedule schedule bb acc.1, peak) := by
  obtain ⟨ddg, hddg, hrest⟩ := Option.bind_eq_some_iff.mp h
  obtain ⟨⟨schedule, peak⟩, hrun, hacc'⟩ := Option.bind_eq_some_iff.mp hrest
  exact ⟨ddg, schedule, peak, hddg, hrun, (Option.some.inj hacc').symm⟩

variable {todo : List BasicBlock} {tr : Trail} {livenessResult : LivenessResult}
  {universeIndex : Value → Option ℕ} {statsOn : Bool}

theorem BlocksInv.wellFormed (hwf : F.WellFormed) (h : BlocksInv F todo tr) :
    tr.current.WellFormed := h.steps.current.wellFormed hwf

/-- A block still to come has the graph it had at first. -/
theorem BlocksInv.buildLocalDDG_eq (h : BlocksInv F (bb :: todo) tr) :
    buildLocalDDG tr.current bb = buildLocalDDG F bb :=
  buildLocalDDG_congr h.steps.current.sameCode.instr (h.pending bb List.mem_cons_self)

theorem BlocksInv.sameNodes (hwf : F.WellFormed) (h : BlocksInv F (bb :: todo) tr) {ddg : DDG}
    (hddg : (buildLocalDDG F bb).computeCriticalPath = some ddg) : SameNodes F tr.current ddg := by
  refine ⟨h.steps.current.sameCode.instr, ?_⟩
  intro n hn _
  rw [(DDG.sameShape_computeCriticalPath hddg).nodes, buildLocalDDG_nodes] at hn
  have hn' : n ∈ tr.current.body bb := by
    rw [h.pending bb List.mem_cons_self]
    exact hn
  rw [(h.wellFormed hwf).getParent_eq hn', hwf.getParent_eq hn]

/-- The other blocks stay as they are. -/
theorem BlocksInv.next (hwf : F.WellFormed) (h : BlocksInv F (bb :: todo) tr) (hbb : bb ∉ todo)
    {acc' : Trail × ℕ} {peak : ℕ}
    (hturn : scheduleBlock livenessResult universeIndex statsOn (tr, peak) bb = some acc') :
    BlocksInv F todo acc'.1 := by
  have hwf' := h.wellFormed hwf
  obtain ⟨acc'', hturn', hsteps⟩ := scheduleBlock_spec livenessResult universeIndex statsOn
    (show (tr, peak).1.current.WellFormed from hwf') bb
  obtain rfl := Option.some.inj (hturn.symm.trans hturn')
  refine ⟨h.steps.trans hsteps, ?_⟩
  intro b hb
  obtain ⟨ddg, schedule, peak', _, _, rfl⟩ := scheduleBlock_eq_some hturn
  have honce : ∀ c, c ≠ bb → ∀ i ∈ tr.current.body bb, i ∉ tr.current.body c := by
    intro c hc i hi hi'
    exact hc (hwf'.body_unique hi' hi)
  have hne : b ≠ bb := fun heq => hbb (heq ▸ hb)
  show (reorderBlockWithinRegions schedule bb tr).current.body b = F.body b
  rw [reorderBlockWithinRegions_mapRuns (hwf'.body_nodup bb) honce]
  show Function.update tr.current.body bb _ b = F.body b
  rw [Function.update_of_ne hne, h.pending b (List.mem_cons_of_mem _ hb)]

/-- What holds of one block and of what follows holds of the whole run. -/
theorem BlocksInv.run_induct {R : List BasicBlock → Trail × ℕ → Trail × ℕ → Prop}
    (hnil : ∀ acc, R [] acc acc)
    (hcons : ∀ bb todo tr peak acc₁ acc₂, BlocksInv F (bb :: todo) tr →
      scheduleBlock livenessResult universeIndex statsOn (tr, peak) bb = some acc₁ → R todo acc₁ acc₂ →
      R (bb :: todo) (tr, peak) acc₂)
    (hwf : F.WellFormed) (hnodup : todo.Nodup) {acc acc' : Trail × ℕ} (h : BlocksInv F todo acc.1)
    (hrun : todo.foldlM (scheduleBlock livenessResult universeIndex statsOn) acc = some acc') :
    R todo acc acc' := by
  induction todo generalizing acc with
  | nil =>
    obtain rfl := Option.some.inj hrun
    exact hnil acc
  | cons bb todo ih =>
    obtain ⟨tr, peak⟩ := acc
    rw [List.foldlM_cons] at hrun
    obtain ⟨acc₁, hstep, hrun'⟩ := Option.bind_eq_some_iff.mp hrun
    obtain ⟨hbb, hnodup⟩ := List.nodup_cons.mp hnodup
    exact hcons bb todo tr peak acc₁ acc' h hstep (ih hnodup (h.next hwf hbb hstep) hrun')

theorem planBlock_eq_some {ddg : DDG} {schedule : List InstrId} {peak : ℕ}
    (hddg : (buildLocalDDG F bb).computeCriticalPath = some ddg)
    (hrun : listSchedule F universeIndex livenessResult ddg (livenessResult bb).inSet true false 0 =
      some (schedule, peak)) : planBlock F universeIndex livenessResult bb = some schedule := by
  simp only [planBlock, hddg, hrun, Option.bind_eq_bind, Option.bind_some]

/-- **One block**: the schedule is the one of the function as it came. -/
theorem BlocksInv.turn_planned (hwf : F.WellFormed) (h : BlocksInv F (bb :: todo) tr)
    {acc' : Trail × ℕ} {peak : ℕ}
    (hturn : scheduleBlock livenessResult universeIndex statsOn (tr, peak) bb = some acc') :
    ∃ schedule, planBlock F universeIndex livenessResult bb = some schedule ∧
      acc'.1 = applyLocalSchedule schedule bb tr := by
  obtain ⟨ddg, schedule, peak', hddg, hlist, rfl⟩ := scheduleBlock_eq_some hturn
  rw [show (tr, peak).1.current = tr.current from rfl, h.buildLocalDDG_eq] at hddg
  have hbuilt := (DDG.sameShape_computeCriticalPath hddg).wellBuilt
    (wellBuilt_buildLocalDDG (hwf.body_nodup bb))
  rw [(h.sameNodes hwf hddg).listSchedule_eq hbuilt] at hlist
  obtain ⟨peak₀, hlist₀⟩ := listSchedule_uncounted hlist
  exact ⟨schedule, planBlock_eq_some hddg hlist₀, rfl⟩

end

/-- The run of the local pass, taken apart. -/
theorem localSchedulerPass_induct {F : Function} (hwf : F.WellFormed) (env : SchedEnv)
    {R : LivenessResult → List BasicBlock → Trail × ℕ → Trail × ℕ → Prop}
    (hnil : ∀ livenessResult acc, R livenessResult [] acc acc)
    (hcons : ∀ livenessResult bb todo tr peak acc₁ acc₂, BlocksInv F (bb :: todo) tr →
      scheduleBlock livenessResult (buildValueIndex (valueUniverse F)) (schedStatsEnabled env)
        (tr, peak) bb = some acc₁ →
      R livenessResult todo acc₁ acc₂ → R livenessResult (bb :: todo) (tr, peak) acc₂) :
    ∃ acc livenessResult, localSchedulerPass env F = some acc ∧
      computeLiveness F = some livenessResult ∧ R livenessResult F.blocks (Trail.start F, 0) acc := by
  obtain ⟨tr, peak, hrun, _⟩ := localSchedulerPass_spec hwf env
  have hturns := hrun
  rw [localSchedulerPass] at hturns
  obtain ⟨livenessResult, hlive, hturns⟩ := Option.bind_eq_some_iff.mp hturns
  have hinit : BlocksInv F F.blocks (Trail.start F) := ⟨.refl _, fun _ _ => rfl⟩
  exact ⟨(tr, peak), livenessResult, hrun, hlive,
    hinit.run_induct (hnil livenessResult) (hcons livenessResult) hwf hwf.blocks_nodup hturns⟩

/-- **The local pass follows a plan.** The schedules of all blocks can be drawn up in the function as it
comes, and are applied one after the other. -/
theorem localSchedulerPass_planned {F : Function} (hwf : F.WellFormed) (env : SchedEnv) :
    ∃ tr peak livenessResult schedules, localSchedulerPass env F = some (tr, peak) ∧
      computeLiveness F = some livenessResult ∧
      F.blocks.mapM (planBlock F (buildValueIndex (valueUniverse F)) livenessResult) =
        some schedules ∧
      tr = (schedules.zip F.blocks).foldl (fun tr e => applyLocalSchedule e.1 e.2 tr)
        (Trail.start F) := by
  obtain ⟨⟨tr, peak⟩, livenessResult, hrun, hlive, schedules, hplan, happly⟩ :=
    localSchedulerPass_induct hwf env
      (R := fun livenessResult todo acc acc' => ∃ schedules,
        todo.mapM (planBlock F (buildValueIndex (valueUniverse F)) livenessResult) =
          some schedules ∧
        acc'.1 = (schedules.zip todo).foldl (fun tr e => applyLocalSchedule e.1 e.2 tr) acc.1)
      (fun _ acc => ⟨[], rfl, rfl⟩) (by
        rintro livenessResult bb todo tr peak acc₁ acc₂ hinv hturn ⟨schedules, hplan, happly⟩
        obtain ⟨schedule, hschedule, hstep⟩ := hinv.turn_planned hwf hturn
        refine ⟨schedule :: schedules, ?_, ?_⟩
        · rw [List.mapM_cons, hschedule, hplan]
          rfl
        · rw [List.zip_cons_cons, List.foldl_cons, ← hstep]
          exact happly)
  exact ⟨tr, peak, livenessResult, schedules, hrun, hlive, hplan, happly⟩

theorem twoBlocks_localPlanned :
    ∃ tr peak livenessResult schedules,
      localSchedulerPass ⟨none, none, false⟩ twoBlocks = some (tr, peak) ∧
      computeLiveness twoBlocks = some livenessResult ∧
      twoBlocks.blocks.mapM (planBlock twoBlocks (buildValueIndex (valueUniverse twoBlocks))
        livenessResult) = some schedules ∧
      tr = (schedules.zip twoBlocks.blocks).foldl (fun tr e => applyLocalSchedule e.1 e.2 tr)
        (Trail.start twoBlocks) :=
  localSchedulerPass_planned twoBlocks_wellFormed ⟨none, none, false⟩

end TraceScheduler
