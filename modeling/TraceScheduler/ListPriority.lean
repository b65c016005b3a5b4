import TraceScheduler.GlobalSchedule
import TraceScheduler.Library.GreedyOrder
import Mathlib.Data.Int.ConditionallyCompleteOrder
import Mathlib.Order.ConditionallyCompleteLattice.Basic

/-!
# The list scheduler is greedy

Every delay is positive and the graph of a trace has no cycle, so critical paths fall along every edge
(`criticalPath_lt`).  The scheduler looks at the ready nodes only, but the most urgent of them is then
the most urgent of all nodes left, and the register-pressure tie-break never reaches beyond one value
of the critical path: with and without it the schedule runs through the same sequence of critical
paths.

`LoopReaches` gathers the states of the main loop, `IsFirstBest` says which node of the queue a round
takes, and `LoopReaches.greedy` is the invariant that connects the run with `Greedy`.
-/

namespace TraceScheduler

open scoped List

/-! ### The choice of one round -/

/-- `best` has the highest critical path in the queue, among those the least delta, and among those it
comes first. -/
def IsFirstBest (cp delta : InstrId → ℤ) (queue : List InstrId) (best : InstrId) : Prop :=
  ∃ before after, queue = before ++ best :: after ∧
    (∀ n ∈ before, cp n < cp best ∨ (cp n = cp best ∧ delta best < delta n)) ∧
    ∀ n ∈ after, cp n < cp best ∨ (cp n = cp best ∧ delta best ≤ delta n)

variable {F F' : Function} {g : DDG} {universeIndex : Value → Option ℕ} {liveness : LivenessResult}
  {useRegPressure statsOn : Bool} {currentLive : Finset ℕ} {peak : ℕ} {st : ListState}
  {best : InstrId}

theorem IsFirstBest.mem {cp delta : InstrId → ℤ} {queue : List InstrId}
    (h : IsFirstBest cp delta queue best) : best ∈ queue := by
  obtain ⟨before, after, rfl, _⟩ := h
  simp

theorem IsFirstBest.le {cp delta : InstrId → ℤ} {queue : List InstrId}
    (h : IsFirstBest cp delta queue best) {n : InstrId} (hn : n ∈ queue) : cp n ≤ cp best := by
  obtain ⟨before, after, rfl, hbefore, hafter⟩ := h
  cases List.mem_append.mp hn with
  | inl hn =>
    have := hbefore n hn
    omega
  | inr hn =>
    cases List.mem_cons.mp hn with
    | inl heq => rw [heq]
    | inr hn =>
      have := hafter n hn
      omega

/-- What the comparison has found after some part of the queue. -/
def BestSoFar (cp delta : InstrId → ℤ) (seen : List InstrId) (acc : Best) : Prop :=
  (seen = [] ∧ acc = ⟨none, -1, INT_MAX⟩) ∨
    ∃ best, acc = ⟨some best, cp best, delta best⟩ ∧ IsFirstBest cp delta seen best

theorem BestSoFar.next (hcp : ∀ n, 0 ≤ (g.node n).criticalPath) {seen : List InstrId} {acc : Best}
    (h : BestSoFar (fun n => (g.node n).criticalPath)
      (tieBreakDelta F universeIndex liveness currentLive useRegPressure) seen acc) (n : InstrId) :
    BestSoFar (fun n => (g.node n).criticalPath)
      (tieBreakDelta F universeIndex liveness currentLive useRegPressure) (seen ++ [n])
      (considerNode F universeIndex liveness g currentLive useRegPressure acc n) := by
  right
  rw [considerNode]
  dsimp only
  cases h with
  | inl h =>
    obtain ⟨rfl, rfl⟩ := h
    have hn : (g.node n).criticalPath > -1 := by
      have := hcp n
      omega
    rw [if_pos hn]
    exact ⟨n, rfl, [], [], rfl, by simp, by simp⟩
  | inr h =>
    obtain ⟨best, rfl, before, after, rfl, hbefore, hafter⟩ := h
    dsimp only
    -- the new node wins on the critical path, or ties and wins on the delta, or loses
    split
    · rename_i hgt
      refine ⟨n, rfl, before ++ best :: after, [], rfl, ?_, by simp⟩
      intro m hm
      have hle := IsFirstBest.le ⟨before, after, rfl, hbefore, hafter⟩ hm
      dsimp only at hle ⊢
      omega
    · rename_i hgt
      split
      · rename_i htie
        refine ⟨n, ?_, before ++ best :: after, [], rfl, ?_, by simp⟩
        · rw [htie.1]
        · intro m hm
          dsimp only
          cases List.mem_append.mp hm with
          | inl hm =>
            have := hbefore m hm
            dsimp only at this
            omega
          | inr hm =>
            cases List.mem_cons.mp hm with
            | inl heq =>
              rw [heq]
              omega
            | inr hm =>
              have := hafter m hm
              dsimp only at this
              omega
      · rename_i htie
        refine ⟨best, rfl, before, after ++ [n], by simp, hbefore, ?_⟩
        intro m hm
        cases List.mem_append.mp hm with
        | inl hm => exact hafter m hm
        | inr hm =>
          rw [List.mem_singleton.mp hm]
          dsimp only
          omega

/-- **A round takes the first best node of the queue.** -/
theorem pickBest_isFirstBest (hcp : ∀ n, 0 ≤ (g.node n).criticalPath) {queue : List InstrId}
    (h : pickBest F universeIndex liveness g queue currentLive useRegPressure = some best) :
    IsFirstBest (fun n => (g.node n).criticalPath)
      (tieBreakDelta F universeIndex liveness currentLive useRegPressure) queue best := by
  have hgen : ∀ (l seen : List InstrId) (acc : Best),
      BestSoFar (fun n => (g.node n).criticalPath)
        (tieBreakDelta F universeIndex liveness currentLive useRegPressure) seen acc →
      BestSoFar (fun n => (g.node n).criticalPath)
        (tieBreakDelta F universeIndex liveness currentLive useRegPressure) (seen ++ l)
        (l.foldl (considerNode F universeIndex liveness g currentLive useRegPressure) acc) := by
    intro l
    induction l with
    | nil =>
      intro seen acc hacc
      rw [List.append_nil]
      exact hacc
    | cons n l ih =>
      intro seen acc hacc
      have hnext := ih (seen ++ [n]) _ (hacc.next hcp n)
      rw [List.append_assoc, List.singleton_append] at hnext
      exact hnext
  rw [pickBest] at h
  cases hgen queue [] _ (.inl ⟨rfl, rfl⟩) with
  | inl hnone =>
    rw [hnone.2] at h
    cases h
  | inr hsome =>
    obtain ⟨best', heq, hbest⟩ := hsome
    rw [heq] at h
    obtain rfl := Option.some.inj h
    exact hbest

/-! ### The run -/

/-- The states the main loop goes through, from its initial state on. -/
inductive LoopReaches (F : Function) (universeIndex : Value → Option ℕ) (liveness : LivenessResult)
    (useRegPressure statsOn : Bool) (start : ListState) : ListState → Prop
  | start : LoopReaches F universeIndex liveness useRegPressure statsOn start start
  | next {st : ListState} {best : InstrId} :
      LoopReaches F universeIndex liveness useRegPressure statsOn start st →
      pickBest F universeIndex liveness st.ddg st.readyQueue st.currentLive useRegPressure = some best →
      LoopReaches F universeIndex liveness useRegPressure statsOn start
        (scheduleNode F universeIndex liveness statsOn st best)

theorem listLoop_reaches {start st' : ListState} {fuel : ℕ}
    (h : LoopReaches F universeIndex liveness useRegPressure statsOn start st)
    (hrun : listLoop F universeIndex liveness useRegPressure statsOn fuel st = some st') :
    LoopReaches F universeIndex liveness useRegPressure statsOn start st' ∧ st'.readyQueue = [] := by
  induction fuel generalizing st with
  | zero => cases hrun
  | succ fuel ih =>
    rw [listLoop] at hrun
    split at hrun
    · rename_i hempty
      obtain rfl := Option.some.inj hrun
      exact ⟨h, List.isEmpty_iff.mp hempty⟩
    · cases hpick : pickBest F universeIndex liveness st.ddg st.readyQueue st.currentLive
          useRegPressure with
      | none =>
        rw [hpick] at hrun
        cases hrun
      | some best =>
        rw [hpick] at hrun
        exact ih (h.next hpick) hrun

section

variable (hg : g.WellBuilt) (hcp : ∀ n, 0 ≤ (g.node n).criticalPath)

include hg in
theorem LoopReaches.inv
    (h : LoopReaches F universeIndex liveness useRegPressure statsOn
      (initialListState F statsOn g currentLive peak) st) : ScheduleInv F g st := by
  induction h with
  | start => exact scheduleInv_init hg currentLive peak
  | next _ hpick ih => exact ih.scheduleNode hg (mem_of_pickBest hpick)

include hg in
/-- The queue holds the ready nodes. -/
theorem ScheduleInv.ready_iff (h : ScheduleInv F g st) {n : InstrId} :
    Ready g.Edge (fun n => n ∈ g.nodes ∧ isSchedulable F n = true) st.schedule n ↔
      n ∈ st.readyQueue := by
  constructor
  · intro hn
    have hmem : n ∈ st.schedule ++ st.readyQueue :=
      (h.mem_iff n).mpr ⟨hn.node.1, hn.node.2, fun p hp => hn.preds p (hg.mem_predecessors.mp hp)⟩
    exact (List.mem_append.mp hmem).resolve_left hn.not_done
  · intro hn
    obtain ⟨hnode, hs, hpreds⟩ := (h.mem_iff n).mp (List.mem_append_right _ hn)
    refine ⟨⟨hnode, hs⟩, ?_, fun p hp => hpreds p (hg.mem_predecessors.mpr hp)⟩
    intro hdone
    exact (List.nodup_append.mp h.nodup).2.2 n hdone n hn rfl

include hcp in
/-- A round takes the first best node, by the critical paths of the graph as it was given. -/
theorem ScheduleInv.isFirstBest (h : ScheduleInv F g st)
    (hpick : pickBest F universeIndex liveness st.ddg st.readyQueue st.currentLive useRegPressure =
      some best) :
    IsFirstBest (fun n => (g.node n).criticalPath)
      (tieBreakDelta F universeIndex liveness st.currentLive useRegPressure) st.readyQueue best := by
  have hbest := pickBest_isFirstBest (fun n => by rw [h.criticalPath]; exact hcp n) hpick
  simp only [h.criticalPath] at hbest
  exact hbest

include hg hcp in
/-- **The main loop is greedy.** -/
theorem LoopReaches.greedy
    (h : LoopReaches F universeIndex liveness useRegPressure statsOn
      (initialListState F statsOn g currentLive peak) st) :
    Greedy g.Edge (fun n => n ∈ g.nodes ∧ isSchedulable F n = true)
      (fun n => (g.node n).criticalPath) st.schedule := by
  induction h with
  | start => exact .nil
  | @next st best hreach hpick ih =>
    have hinv := hreach.inv hg
    have hbest := hinv.isFirstBest hcp hpick
    apply Greedy.concat ih ((hinv.ready_iff hg).mpr hbest.mem)
    intro m hm
    exact hbest.le ((hinv.ready_iff hg).mp hm)

end

/-! ### The graph of a trace -/

section

variable {profile : Profile} {threshold : ℕ} {bfsOrder trace : List BasicBlock} {ddg : DDG}
  {a b : InstrId}

theorem buildDDG_criticalPath_lt (hwf : F.WellFormed) (hssa : F.SSADominance)
    (hbfs : F.cfg.IsBreadthFirst bfsOrder) (h : IsTrace F profile threshold bfsOrder trace)
    (hddg : (buildDDG F trace).computeCriticalPath = some ddg)
    (hedge : (buildDDG F trace).Edge a b) :
    (ddg.node b).criticalPath < (ddg.node a).criticalPath := by
  apply DDG.criticalPath_lt (wellBuilt_buildDDG (traceNodes_nodup hwf h.nodup)) hddg _
    (buildDDG_acyclic hwf hssa hbfs h) hedge
  intro n
  rw [buildDDG_delay]
  exact getDelay_pos _

/-- A graph as the greedy argument needs it: edges lead forward in the trace, from nodes that are
scheduled, and critical paths fall along them. -/
structure PriorityGraph (F : Function) (trace : List BasicBlock) (ddg : DDG) : Prop where
  wellBuilt : ddg.WellBuilt
  nodes : ddg.nodes = traceNodes F trace
  nonneg : ∀ n, 0 ≤ (ddg.node n).criticalPath
  rank : ∀ p n, ddg.Edge p n → (traceNodes F trace).idxOf p < (traceNodes F trace).idxOf n
  schedulable : ∀ p n, ddg.Edge p n → isSchedulable F p = true
  falls : ∀ p n, ddg.Edge p n → (ddg.node n).criticalPath < (ddg.node p).criticalPath

theorem priorityGraph_buildDDG (hwf : F.WellFormed) (hssa : F.SSADominance)
    (hbfs : F.cfg.IsBreadthFirst bfsOrder) (h : IsTrace F profile threshold bfsOrder trace)
    (hddg : (buildDDG F trace).computeCriticalPath = some ddg) : PriorityGraph F trace ddg := by
  have hshape := DDG.sameShape_computeCriticalPath hddg
  refine ⟨hshape.wellBuilt (wellBuilt_buildDDG (traceNodes_nodup hwf h.nodup)), ?_, ?_, ?_, ?_, ?_⟩
  · rw [hshape.nodes, buildDDG_nodes]
  · apply DDG.criticalPath_nonneg hddg
    · intro n
      rw [buildDDG_delay]
      exact Int.le_of_lt (getDelay_pos _)
    · intro n
      exact buildDDG_criticalPath.ge
  · intro p n hpn
    exact edge_rank hwf hssa hbfs h (hshape.edge.mp hpn)
  · intro p n hpn
    exact schedulable_of_edge hwf (hshape.edge.mp hpn)
  · intro p n hpn
    exact buildDDG_criticalPath_lt hwf hssa hbfs h hddg (hshape.edge.mp hpn)

section

variable (h : PriorityGraph F trace ddg) (hinstr : F'.instr = F.instr)

include h hinstr

theorem PriorityGraph.pred_node (hedge : ddg.Edge a b) :
    a ∈ ddg.nodes ∧ isSchedulable F' a = true := by
  rw [isSchedulable_eq_of_instr hinstr]
  exact ⟨(h.wellBuilt.edge_mem hedge).1, h.schedulable a b hedge⟩

/-- **One round**: nothing left is more urgent than the node taken. -/
theorem PriorityGraph.le_of_pickBest
    (hreach : LoopReaches F' universeIndex liveness useRegPressure statsOn
      (initialListState F' statsOn ddg currentLive peak) st)
    (hbest : IsFirstBest (fun n => (ddg.node n).criticalPath)
      (tieBreakDelta F' universeIndex liveness st.currentLive useRegPressure) st.readyQueue best)
    (ha : a ∈ ddg.nodes) (hterm : (F.instr a).isTerminator = false) (hdone : a ∉ st.schedule) :
    (ddg.node a).criticalPath ≤ (ddg.node best).criticalPath := by
  have hinv := hreach.inv h.wellBuilt
  have hphi : (F.instr a).isPHI = false := by
    have hmem := ha
    rw [h.nodes] at hmem
    obtain ⟨_, _, _, hphi⟩ := mem_traceNodes.mp hmem
    exact hphi
  have hs : isSchedulable F' a = true := by
    rw [isSchedulable_eq_of_instr hinstr]
    simp [isSchedulable, hterm, hphi]
  apply le_of_ready (fun n => (traceNodes F trace).idxOf n) (fun p n hpn _ => h.rank p n hpn)
    (fun p n hpn _ => h.pred_node hinstr hpn) h.falls _ ⟨ha, hs⟩ hdone
  intro m hm
  exact hbest.le ((hinv.ready_iff h.wellBuilt).mp hm)

/-- **Two greedy schedules** of the trace. -/
theorem PriorityGraph.schedules {schedule₁ schedule₂ : List InstrId}
    (hgreedy₁ : Greedy ddg.Edge (fun n => n ∈ ddg.nodes ∧ isSchedulable F' n = true)
      (fun n => (ddg.node n).criticalPath) schedule₁)
    (hgreedy₂ : Greedy ddg.Edge (fun n => n ∈ ddg.nodes ∧ isSchedulable F' n = true)
      (fun n => (ddg.node n).criticalPath) schedule₂) (hperm : schedule₁ ~ schedule₂) :
    (schedule₁.Pairwise fun a b => (ddg.node b).criticalPath ≤ (ddg.node a).criticalPath) ∧
      (schedule₂.Pairwise fun a b => (ddg.node b).criticalPath ≤ (ddg.node a).criticalPath) ∧
      (schedule₁.map fun n => (ddg.node n).criticalPath) =
        (schedule₂.map fun n => (ddg.node n).criticalPath) ∧
      ∀ c, (schedule₁.filter fun n => (ddg.node n).criticalPath = c) ~
        schedule₂.filter fun n => (ddg.node n).criticalPath = c := by
  have hrank : ∀ p n, ddg.Edge p n → n ∈ ddg.nodes ∧ isSchedulable F' n = true →
      (traceNodes F trace).idxOf p < (traceNodes F trace).idxOf n := fun p n hpn _ => h.rank p n hpn
  have hnode : ∀ p n, ddg.Edge p n → n ∈ ddg.nodes ∧ isSchedulable F' n = true →
      p ∈ ddg.nodes ∧ isSchedulable F' p = true := fun p n hpn _ => h.pred_node hinstr hpn
  exact ⟨hgreedy₁.pairwise _ hrank hnode h.falls, hgreedy₂.pairwise _ hrank hnode h.falls,
    hgreedy₁.map_eq _ hrank hnode h.falls hgreedy₂ hperm, fun c => hperm.filter _⟩

end

/-- The schedule of a trace is greedy, and that of a state in which the loop ends. -/
theorem listSchedule_greedy (hwf : F.WellFormed) (hssa : F.SSADominance)
    (hbfs : F.cfg.IsBreadthFirst bfsOrder) (h : IsTrace F profile threshold bfsOrder trace)
    (hddg : (buildDDG F trace).computeCriticalPath = some ddg)
    (hinstr : F'.instr = F.instr) (universeIndex : Value → Option ℕ) (liveness : LivenessResult)
    (currentLive : Finset ℕ) (useRegPressure statsOn : Bool) (peak : ℕ) :
    ∃ st, LoopReaches F' universeIndex liveness useRegPressure statsOn
        (initialListState F' statsOn ddg currentLive peak) st ∧ st.readyQueue = [] ∧
      listSchedule F' universeIndex liveness ddg currentLive useRegPressure statsOn peak =
        some (st.schedule, st.peakLivePressure) ∧ IsTraceSchedule F trace st.schedule ∧
      Greedy ddg.Edge (fun n => n ∈ ddg.nodes ∧ isSchedulable F' n = true)
        (fun n => (ddg.node n).criticalPath) st.schedule := by
  have hgraph := priorityGraph_buildDDG hwf hssa hbfs h hddg
  obtain ⟨ddg', schedule, peak', hddg', hrun, hsched⟩ := listSchedule_trace hwf hssa hbfs h hinstr
    universeIndex liveness currentLive useRegPressure statsOn peak
  obtain rfl := Option.some.inj (hddg.symm.trans hddg')
  obtain ⟨st, hloop, hst⟩ := Option.map_eq_some_iff.mp hrun
  obtain ⟨rfl, rfl⟩ := Prod.mk.inj hst
  obtain ⟨hreach, hempty⟩ := listLoop_reaches .start hloop
  exact ⟨st, hreach, hempty, hrun, hsched, hreach.greedy hgraph.wellBuilt hgraph.nonneg⟩

/-- **The list scheduler always takes a most urgent node.** At every round of the main loop, whatever
the live sets are, the node taken has the highest critical path of all nodes left, and is the first in
the queue with the least pressure delta among the ready nodes of that critical path. The list returned
is the schedule of a state that these rounds lead to, with an empty queue. So schedules are sorted by
critical path, and with and without the tie-break they run through the same critical paths and differ
within groups of one critical path only. -/
theorem listSchedule_mostUrgent (hwf : F.WellFormed) (hssa : F.SSADominance) (profile : Profile)
    (threshold : ℕ) (statsOn : Bool) {traces : TraceState}
    (htraces : identifyTraces F profile threshold statsOn = some traces)
    (htrace : trace ∈ traces.traces) :
    ∃ ddg, (buildDDG F trace).computeCriticalPath = some ddg ∧
      ∀ F' : Function, F'.instr = F.instr → ∀ universeIndex liveness currentLive statsOn peak,
        (∀ useRegPressure st best,
          LoopReaches F' universeIndex liveness useRegPressure statsOn
            (initialListState F' statsOn ddg currentLive peak) st →
          pickBest F' universeIndex liveness st.ddg st.readyQueue st.currentLive useRegPressure =
            some best →
          (∀ n ∈ ddg.nodes, (F.instr n).isTerminator = false → n ∉ st.schedule →
            (ddg.node n).criticalPath ≤ (ddg.node best).criticalPath) ∧
          IsFirstBest (fun n => (ddg.node n).criticalPath)
            (tieBreakDelta F' universeIndex liveness st.currentLive useRegPressure) st.readyQueue
            best) ∧
        (∀ useRegPressure, ∃ st, LoopReaches F' universeIndex liveness useRegPressure statsOn
            (initialListState F' statsOn ddg currentLive peak) st ∧ st.readyQueue = [] ∧
          listSchedule F' universeIndex liveness ddg currentLive useRegPressure statsOn peak =
            some (st.schedule, st.peakLivePressure)) ∧
        ∃ schedule₁ peak₁ schedule₂ peak₂,
          listSchedule F' universeIndex liveness ddg currentLive true statsOn peak =
            some (schedule₁, peak₁) ∧
          listSchedule F' universeIndex liveness ddg currentLive false statsOn peak =
            some (schedule₂, peak₂) ∧
          (schedule₁.Pairwise fun a b => (ddg.node b).criticalPath ≤ (ddg.node a).criticalPath) ∧
          (schedule₂.Pairwise fun a b => (ddg.node b).criticalPath ≤ (ddg.node a).criticalPath) ∧
          (schedule₁.map fun n => (ddg.node n).criticalPath) =
            (schedule₂.map fun n => (ddg.node n).criticalPath) ∧
          ∀ c, (schedule₁.filter fun n => (ddg.node n).criticalPath = c) ~
            schedule₂.filter fun n => (ddg.node n).criticalPath = c := by
  obtain ⟨bfsOrder, traces', hsearch, htraces', hpart⟩ :=
    identifyTraces_spec hwf.cfgConsistent profile threshold statsOn
  obtain rfl := Option.some.inj (htraces.symm.trans htraces')
  have hbfs := FlowGraph.breadthFirst_spec hsearch
  have h := hpart.isTrace trace htrace
  obtain ⟨ddg, hddg⟩ :=
    DDG.computeCriticalPath_isSome (wellBuilt_buildDDG (traceNodes_nodup hwf h.nodup))
  have hgraph := priorityGraph_buildDDG hwf hssa hbfs h hddg
  refine ⟨ddg, hddg, ?_⟩
  intro F' hinstr universeIndex liveness currentLive statsOn peak
  have hrun := fun useRegPressure => listSchedule_greedy hwf hssa hbfs h hddg hinstr universeIndex
    liveness currentLive useRegPressure statsOn peak
  refine ⟨?_, ?_, ?_⟩
  · intro useRegPressure st best hreach hpick
    have hbest := (hreach.inv hgraph.wellBuilt).isFirstBest hgraph.nonneg hpick
    refine ⟨?_, hbest⟩
    intro n hn hterm hdone
    exact hgraph.le_of_pickBest hinstr hreach hbest hn hterm hdone
  · intro useRegPressure
    obtain ⟨st, hreach, hempty, hlist, _⟩ := hrun useRegPressure
    exact ⟨st, hreach, hempty, hlist⟩
  · obtain ⟨st₁, _, _, hrun₁, hsched₁, hgreedy₁⟩ := hrun true
    obtain ⟨st₂, _, _, hrun₂, hsched₂, hgreedy₂⟩ := hrun false
    have hperm : st₁.schedule ~ st₂.schedule := by
      apply (List.perm_ext_iff_of_nodup hsched₁.nodup hsched₂.nodup).mpr
      intro n
      rw [hsched₁.mem_iff, hsched₂.mem_iff]
    exact ⟨_, _, _, _, hrun₁, hrun₂,
      hgraph.schedules hinstr hgreedy₁ hgreedy₂ hperm⟩

end

theorem twoBlocks_mostUrgent :
    ∃ ddg, (buildDDG twoBlocks [0, 1]).computeCriticalPath = some ddg ∧
      ∃ schedule₁ peak₁ schedule₂ peak₂,
        listSchedule twoBlocks (fun _ => none) (fun _ => ⟨∅, ∅, ∅, ∅⟩) ddg ∅ true false 0 =
          some (schedule₁, peak₁) ∧
        listSchedule twoBlocks (fun _ => none) (fun _ => ⟨∅, ∅, ∅, ∅⟩) ddg ∅ false false 0 =
          some (schedule₂, peak₂) ∧
        (schedule₁.Pairwise fun a b => (ddg.node b).criticalPath ≤ (ddg.node a).criticalPath) ∧
        (schedule₁.map fun n => (ddg.node n).criticalPath) =
          (schedule₂.map fun n => (ddg.node n).criticalPath) := by
  obtain ⟨ddg, hddg, h⟩ := listSchedule_mostUrgent twoBlocks_wellFormed twoBlocks_ssa certain 60
    false identifyTraces_twoBlocks List.mem_cons_self
  obtain ⟨schedule₁, peak₁, schedule₂, peak₂, hrun₁, hrun₂, hsorted, _, hmap, _⟩ :=
    (h twoBlocks rfl (fun _ => none) (fun _ => ⟨∅, ∅, ∅, ∅⟩) ∅ false 0).2.2
  exact ⟨ddg, hddg, schedule₁, peak₁, schedule₂, peak₂, hrun₁, hrun₂, hsorted, hmap⟩

end TraceScheduler
