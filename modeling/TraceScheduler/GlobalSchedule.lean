import TraceScheduler.ApplySchedule
import TraceScheduler.SsaOrder

/-!
# Schedules of traces

Along a trace breadth-first positions increase, and a definition's block dominates the block of each
of its non-PHI users, so dependence edges always lead forward in the order in which `buildDDG` creates
its nodes (`edge_forward`).  The graph is acyclic, nothing waits for a PHI or a terminator
(`schedulable_of_edge`), and the list schedule is complete (`listSchedule_trace`).

A complete schedule covers every region of the trace's blocks (`region_covered`), and in it every
instruction comes after those it uses (`IsTraceSchedule.respectsUses`).
-/

namespace TraceScheduler

open scoped List

variable {F : Function} {profile : Profile} {threshold : ℕ} {bfsOrder trace : List BasicBlock}
  {a b i : InstrId}

theorem IsTrace.nodup (h : IsTrace F profile threshold bfsOrder trace) : trace.Nodup := by
  refine h.forward.imp fun hlt => ?_
  intro heq
  subst heq
  exact Nat.lt_irrefl _ hlt

/-- Blocks of a trace stand in breadth-first order. -/
theorem IsTrace.sublist_of_pos_le (h : IsTrace F profile threshold bfsOrder trace)
    {x y : BasicBlock} (hx : x ∈ trace) (hy : y ∈ trace) (hne : x ≠ y)
    (hpos : bfsPos bfsOrder x ≤ bfsPos bfsOrder y) : [x, y] <+ trace := by
  rcases sublist_pair_or hx hy hne with hsub | hsub
  · exact hsub
  · have := List.pairwise_iff_forall_sublist.mp h.forward hsub
    omega

/-- **A dominator of a block of the same trace stands before it.** -/
theorem IsTrace.sublist_of_dominates (h : IsTrace F profile threshold bfsOrder trace)
    (hbfs : F.cfg.IsBreadthFirst bfsOrder) {x y : BasicBlock} (hx : x ∈ trace) (hy : y ∈ trace)
    (hdom : F.cfg.StrictlyDominates x y) : [x, y] <+ trace :=
  h.sublist_of_pos_le hx hy hdom.1 (hbfs.idxOf_le_of_dominates hdom.2 (h.reachable y hy))

/-! ### The order of the nodes -/

theorem traceNodes_append (l₁ l₂ : List BasicBlock) :
    traceNodes F (l₁ ++ l₂) = traceNodes F l₁ ++ traceNodes F l₂ := List.flatMap_append

theorem traceNodes_nodup (hwf : F.WellFormed) (hnd : trace.Nodup) : (traceNodes F trace).Nodup := by
  induction trace with
  | nil => exact List.nodup_nil
  | cons bb trace ih =>
    obtain ⟨hbb, hnd⟩ := List.nodup_cons.mp hnd
    rw [← List.singleton_append, traceNodes_append]
    refine List.nodup_append.mpr ⟨?_, ih hnd, ?_⟩
    · rw [traceNodes, List.flatMap_singleton]
      exact (hwf.body_nodup bb).filter _
    · rintro x hx y hy rfl
      obtain ⟨b₁, hb₁, hx₁, _⟩ := mem_traceNodes.mp hx
      obtain ⟨b₂, hb₂, hx₂, _⟩ := mem_traceNodes.mp hy
      obtain rfl := List.mem_singleton.mp hb₁
      exact hbb (hwf.body_unique hx₁ hx₂ ▸ hb₂)

/-- Nodes of different blocks come in the order of the blocks. -/
theorem sublist_traceNodes_of_blocks {x y : BasicBlock} (hxy : [x, y] <+ trace) (ha : a ∈ F.body x)
    (haphi : (F.instr a).isPHI = false) (hb : b ∈ F.body y) (hbphi : (F.instr b).isPHI = false) :
    [a, b] <+ traceNodes F trace := by
  obtain ⟨l₁, l₂, rfl, hx⟩ := sublist_pair_iff.mp hxy
  rw [traceNodes_append]
  refine (List.singleton_sublist.mpr (mem_traceNodes.mpr ⟨x, hx, ha, haphi⟩)).append
    (List.singleton_sublist.mpr (mem_traceNodes.mpr ⟨y, List.mem_cons_self, hb, hbphi⟩))

/-- Nodes of one block come in its order. -/
theorem sublist_traceNodes_of_body {x : BasicBlock} (hx : x ∈ trace) (hab : [a, b] <+ F.body x)
    (haphi : (F.instr a).isPHI = false) (hbphi : (F.instr b).isPHI = false) :
    [a, b] <+ traceNodes F trace := by
  obtain ⟨l₁, l₂, rfl⟩ := List.append_of_mem hx
  rw [traceNodes_append, ← List.singleton_append (l := l₂), traceNodes_append]
  have hblock : [a, b] <+ traceNodes F [x] := by
    rw [traceNodes, List.flatMap_singleton]
    have hfilter := hab.filter fun i => !(F.instr i).isPHI
    simpa [haphi, hbphi] using hfilter
  exact (hblock.trans (List.sublist_append_left _ _)).trans (List.sublist_append_right _ _)

/-- **Edges lead forward** in the order in which the nodes were created. -/
theorem edge_forward (hwf : F.WellFormed) (hssa : F.SSADominance)
    (hbfs : F.cfg.IsBreadthFirst bfsOrder) (h : IsTrace F profile threshold bfsOrder trace)
    (hedge : (buildDDG F trace).Edge a b) : [a, b] <+ traceNodes F trace := by
  rcases edge_buildDDG.mp hedge with hedge | hedge
  · obtain ⟨ha, _, hb, _, huse⟩ := mem_trueDependenceEdges.mp hedge
    obtain ⟨ba, hba, haba, haphi⟩ := mem_traceNodes.mp ha
    obtain ⟨bb, hbb, hbbb, hbphi⟩ := mem_traceNodes.mp hb
    have hreach : F.cfg.Reachable bb := hbfs.mem_iff.mp (h.reachable bb hbb)
    obtain ⟨ba', bb', ha', hb', _, hprec⟩ := (hssa.use hbbb hbphi huse).precedes hwf hbbb hreach
    obtain rfl := hwf.body_unique haba ha'
    obtain rfl := hwf.body_unique hbbb hb'
    rcases hprec with hdom | ⟨rfl, hsub⟩
    · exact sublist_traceNodes_of_blocks (h.sublist_of_dominates hbfs hba hbb hdom) haba haphi hbbb
        hbphi
    · exact sublist_traceNodes_of_body hba hsub haphi hbphi
  · obtain ⟨ha, _, hb, _, bb, hbb, hsub⟩ := mem_traceMemoryEdges.mp hedge
    obtain ⟨_, _, _, haphi⟩ := mem_traceNodes.mp ha
    obtain ⟨_, _, _, hbphi⟩ := mem_traceNodes.mp hb
    exact sublist_traceNodes_of_body hbb hsub haphi hbphi

theorem edge_rank (hwf : F.WellFormed) (hssa : F.SSADominance)
    (hbfs : F.cfg.IsBreadthFirst bfsOrder) (h : IsTrace F profile threshold bfsOrder trace)
    (hedge : (buildDDG F trace).Edge a b) :
    (traceNodes F trace).idxOf a < (traceNodes F trace).idxOf b :=
  idxOf_lt_of_sublist_pair (traceNodes_nodup hwf h.nodup) (edge_forward hwf hssa hbfs h hedge)

/-- **The graph of a trace has no cycle.** -/
theorem buildDDG_acyclic (hwf : F.WellFormed) (hssa : F.SSADominance)
    (hbfs : F.cfg.IsBreadthFirst bfsOrder) (h : IsTrace F profile threshold bfsOrder trace)
    (n : InstrId) : ¬ Relation.TransGen (buildDDG F trace).Edge n n := by
  have hlt : ∀ m, Relation.TransGen (buildDDG F trace).Edge n m →
      (traceNodes F trace).idxOf n < (traceNodes F trace).idxOf m := by
    intro m hm
    induction hm with
    | single hedge => exact edge_rank hwf hssa hbfs h hedge
    | tail _ hedge ih => exact Nat.lt_trans ih (edge_rank hwf hssa hbfs h hedge)
  exact fun hcycle => Nat.lt_irrefl _ (hlt n hcycle)

/-- Nothing schedulable waits for a PHI or a terminator. -/
theorem schedulable_of_edge (hwf : F.WellFormed) (hedge : (buildDDG F trace).Edge a b) :
    isSchedulable F a = true := by
  rcases edge_buildDDG.mp hedge with hedge | hedge
  · obtain ⟨ha, hterm, _⟩ := mem_trueDependenceEdges.mp hedge
    obtain ⟨_, _, _, hphi⟩ := mem_traceNodes.mp ha
    simp [isSchedulable, hterm, hphi]
  · obtain ⟨ha, _, _, _, bb, _, hsub⟩ := mem_traceMemoryEdges.mp hedge
    obtain ⟨_, _, _, hphi⟩ := mem_traceNodes.mp ha
    have hterm := hwf.not_isTerminator_of_before hsub
    simp [isSchedulable, hterm, hphi]

/-! ### The schedule -/

/-- The instructions a schedule of the trace should hold. -/
theorem mem_traceNodes_schedulable : i ∈ traceNodes F trace ∧ isSchedulable F i = true ↔
    (∃ bb ∈ trace, i ∈ F.body bb) ∧ (F.instr i).isPHI = false ∧
      (F.instr i).isTerminator = false := by
  rw [mem_traceNodes]
  constructor
  · rintro ⟨⟨bb, hbb, hi, hphi⟩, hs⟩
    exact ⟨⟨bb, hbb, hi⟩, hphi, by simpa [isSchedulable, hphi] using hs⟩
  · rintro ⟨⟨bb, hbb, hi⟩, hphi, hterm⟩
    exact ⟨⟨bb, hbb, hi, hphi⟩, by simp [isSchedulable, hphi, hterm]⟩

/-- A complete schedule of a trace: every instruction that is neither PHI nor terminator, once, every
dependence before its dependents. -/
structure IsTraceSchedule (F : Function) (trace : List BasicBlock) (schedule : List InstrId) : Prop
    where
  nodup : schedule.Nodup
  mem_iff : ∀ i, i ∈ schedule ↔ (∃ bb ∈ trace, i ∈ F.body bb) ∧ (F.instr i).isPHI = false ∧
    (F.instr i).isTerminator = false
  ordered : ∀ a b, (buildDDG F trace).Edge a b → b ∈ schedule → [a, b] <+ schedule

theorem isSchedulable_eq_of_instr {F' : Function} (h : F'.instr = F.instr) :
    isSchedulable F' = isSchedulable F := by
  funext i
  rw [isSchedulable, isSchedulable, h]

/-- The schedule of any trace exists. -/
theorem listSchedule_exists (F' : Function) (hnd : (traceNodes F trace).Nodup)
    (universeIndex : Value → Option ℕ) (liveness : LivenessResult) (currentLive : Finset ℕ)
    (useRegPressure statsOn : Bool) (peak : ℕ) :
    ∃ ddg schedule peak', (buildDDG F trace).computeCriticalPath = some ddg ∧
      listSchedule F' universeIndex liveness ddg currentLive useRegPressure statsOn peak =
        some (schedule, peak') ∧ IsListSchedule F' (buildDDG F trace) schedule := by
  apply listSchedule_of_wellBuilt universeIndex liveness useRegPressure statsOn
    (wellBuilt_buildDDG hnd)
  · intro n
    rw [buildDDG_delay]
    exact Int.le_of_lt (getDelay_pos _)
  · exact fun n => buildDDG_criticalPath

/-- **The list schedule of a trace is complete**, whatever the function has become since its graph
was built. -/
theorem listSchedule_trace (hwf : F.WellFormed) (hssa : F.SSADominance)
    (hbfs : F.cfg.IsBreadthFirst bfsOrder) (h : IsTrace F profile threshold bfsOrder trace)
    {F' : Function} (hinstr : F'.instr = F.instr) (universeIndex : Value → Option ℕ)
    (liveness : LivenessResult) (currentLive : Finset ℕ) (useRegPressure statsOn : Bool) (peak : ℕ) :
    ∃ ddg schedule peak', (buildDDG F trace).computeCriticalPath = some ddg ∧
      listSchedule F' universeIndex liveness ddg currentLive useRegPressure statsOn peak =
        some (schedule, peak') ∧ IsTraceSchedule F trace schedule := by
  have hnd := traceNodes_nodup hwf h.nodup
  obtain ⟨ddg, schedule, peak', hddg, hrun, hsched⟩ := listSchedule_exists F' hnd
    universeIndex liveness currentLive useRegPressure statsOn peak
  refine ⟨ddg, schedule, peak', hddg, hrun, hsched.nodup, fun i => ?_, hsched.ordered⟩
  have heq := isSchedulable_eq_of_instr hinstr
  rw [← mem_traceNodes_schedulable]
  constructor
  · intro hi
    obtain ⟨hnode, hs, _⟩ := (hsched.mem_iff i).mp hi
    rw [buildDDG_nodes] at hnode
    rw [heq] at hs
    exact ⟨hnode, hs⟩
  · rintro ⟨hnode, hs⟩
    apply hsched.complete (wellBuilt_buildDDG hnd) fun n => (traceNodes F trace).idxOf n
    · exact fun a b hedge _ => edge_rank hwf hssa hbfs h hedge
    · intro a b hedge _
      rw [heq]
      exact schedulable_of_edge hwf hedge
    · exact buildDDG_nodes.symm ▸ hnode
    · rw [heq]
      exact hs

/-- A region of a traced block is covered by the schedule, also once other blocks have lost
instructions to earlier traces. -/
theorem region_covered {schedule : List InstrId} (hsched : IsTraceSchedule F trace schedule)
    {F' : Function} (hinstr : F'.instr = F.instr) {bb : BasicBlock} (hbb : bb ∈ trace)
    (hnd : (F'.body bb).Nodup) (hbody : ∀ i ∈ F'.body bb, i ∈ F.body bb) {region : List InstrId}
    {boundary : Option InstrId} (h : (region, boundary) ∈ collectRegions F' (F'.body bb) []) :
    (orderRegion schedule region).length = region.length := by
  apply orderRegion_covers hnd _ h
  intro i hi hanchor
  rw [hinstr] at hanchor
  exact (hsched.mem_iff i).mpr
    ⟨⟨bb, hbb, hbody i hi⟩, isPHI_of_not_anchor hanchor, isTerminator_of_not_anchor hanchor⟩

/-- Operands come before their users in a complete schedule. -/
theorem IsTraceSchedule.respectsUses {schedule : List InstrId}
    (hsched : IsTraceSchedule F trace schedule) {F' : Function} (hinstr : F'.instr = F.instr)
    (bb : BasicBlock) : RespectsUses F' schedule bb := by
  intro u _ d _ _ _ huse hus hds
  rw [Function.Uses, hinstr] at huse
  obtain ⟨hu, huphi, huterm⟩ := (hsched.mem_iff u).mp hus
  obtain ⟨hd, hdphi, hdterm⟩ := (hsched.mem_iff d).mp hds
  have hun := (mem_traceNodes_schedulable.mpr ⟨hu, huphi, huterm⟩).1
  have hdn := (mem_traceNodes_schedulable.mpr ⟨hd, hdphi, hdterm⟩).1
  exact hsched.ordered d u
    (edge_buildDDG.mpr (.inl (mem_trueDependenceEdges.mpr ⟨hdn, hdterm, hun, huterm, huse⟩))) hus

/-- **The global schedule is complete and respects dependences.** The dependence graph of a trace
has no cycle; list scheduling on it ends, for any live set and liveness result and with either
priority, in a list of every instruction of the trace that is neither PHI nor terminator, each once
and after everything it depends on.  So no region of a traced block is left out as incomplete. -/
theorem listSchedule_complete (hwf : F.WellFormed) (hssa : F.SSADominance) (profile : Profile)
    (threshold : ℕ) (statsOn : Bool) {st : TraceState}
    (hst : identifyTraces F profile threshold statsOn = some st) {trace : List BasicBlock}
    (htrace : trace ∈ st.traces) :
    (∀ n, ¬ Relation.TransGen (buildDDG F trace).Edge n n) ∧
    ∃ ddg, (buildDDG F trace).computeCriticalPath = some ddg ∧
      ∀ universeIndex liveness currentLive useRegPressure statsOn peak, ∃ schedule peak',
        listSchedule F universeIndex liveness ddg currentLive useRegPressure statsOn peak =
          some (schedule, peak') ∧
        schedule.Nodup ∧
        (∀ i, i ∈ schedule ↔ (∃ bb ∈ trace, i ∈ F.body bb) ∧ (F.instr i).isPHI = false ∧
          (F.instr i).isTerminator = false) ∧
        (∀ a b, (buildDDG F trace).Edge a b → b ∈ schedule → [a, b] <+ schedule) ∧
        ∀ F' : Function, F'.instr = F.instr → ∀ bb ∈ trace, (F'.body bb).Nodup →
          (∀ i ∈ F'.body bb, i ∈ F.body bb) → ∀ region boundary,
            (region, boundary) ∈ collectRegions F' (F'.body bb) [] →
              (orderRegion schedule region).length = region.length := by
  obtain ⟨bfsOrder, st', hsearch, hst', hpart⟩ :=
    identifyTraces_spec hwf.cfgConsistent profile threshold statsOn
  obtain rfl := Option.some.inj (hst.symm.trans hst')
  have hbfs := FlowGraph.breadthFirst_spec hsearch
  have h := hpart.isTrace trace htrace
  have hbuilt := wellBuilt_buildDDG (traceNodes_nodup hwf h.nodup)
  obtain ⟨ddg, hddg⟩ := DDG.computeCriticalPath_isSome hbuilt
  refine ⟨buildDDG_acyclic hwf hssa hbfs h, ddg, hddg, ?_⟩
  intro universeIndex liveness currentLive useRegPressure statsOn peak
  obtain ⟨ddg', schedule, peak', hddg', hrun, hsched⟩ := listSchedule_trace hwf hssa hbfs h
    (show F.instr = F.instr from rfl) universeIndex liveness currentLive useRegPressure statsOn peak
  obtain rfl := Option.some.inj (hddg.symm.trans hddg')
  refine ⟨schedule, peak', hrun, hsched.nodup, hsched.mem_iff, hsched.ordered, ?_⟩
  intro F' hinstr bb hbb hnd hbody region boundary hregion
  exact region_covered hsched hinstr hbb hnd hbody hregion

theorem twoBlocks_listSchedule_complete :
    ∃ ddg schedule peak, (buildDDG twoBlocks [0, 1]).computeCriticalPath = some ddg ∧
      listSchedule twoBlocks (fun _ => none) (fun _ => ⟨∅, ∅, ∅, ∅⟩) ddg ∅ true false 0 =
        some (schedule, peak) ∧
      ∀ i, i ∈ schedule ↔ (∃ bb ∈ [0, 1], i ∈ twoBlocks.body bb) ∧
        (twoBlocks.instr i).isPHI = false ∧ (twoBlocks.instr i).isTerminator = false := by
  obtain ⟨_, ddg, hddg, h⟩ := listSchedule_complete twoBlocks_wellFormed twoBlocks_ssa certain 60
    false identifyTraces_twoBlocks List.mem_cons_self
  obtain ⟨schedule, peak, hrun, _, hmem, _⟩ :=
    h (fun _ => none) (fun _ => ⟨∅, ∅, ∅, ∅⟩) ∅ true false 0
  exact ⟨ddg, schedule, peak, hddg, hrun, hmem⟩

end TraceScheduler
