import TraceScheduler.Critical
import TraceScheduler.Liveness

/-!
# List scheduling

`listSchedule` keeps a queue of nodes whose predecessors are all scheduled, takes the most urgent one
(highest critical path, then lowest pressure delta, then first in the queue), and releases its
successors by counting down `predCount`.  PHIs and terminators never enter the queue, so whatever
depends on one of them stays out as well.

The heuristics only choose among the ready nodes.  `ScheduleInv` is what any choice preserves, and
`IsListSchedule` what it amounts to when the queue is empty: no repetition, every node after all its
predecessors, and **every** node whose predecessors are all scheduled.  On an acyclic graph in which
no schedulable node depends on a PHI or a terminator that is all of them (`IsListSchedule.complete`).
-/

namespace TraceScheduler

open scoped List

/-- The initial value of `bestDelta`. -/
def INT_MAX : ℤ := 2147483647

section

variable (F : Function) (universeIndex : Value → Option ℕ) (liveness : LivenessResult)

/-- One operand's contribution: minus one if it is live and dies in the block. -/
def operandDelta (bb : BasicBlock) (currentLive : Finset ℕ) (delta : ℤ) (v : Value) : ℤ :=
  match universeIndex v with
  | none => delta
  | some idx =>
      if idx ∈ currentLive ∧ idx ∉ (liveness bb).outSet then delta - 1 else delta

/-- How much scheduling `i` changes the register pressure. -/
def pressureDelta (i : InstrId) (currentLive : Finset ℕ) : ℤ :=
  let delta : ℤ :=
    if (F.instr i).isVoidTy then 0
    else
      match universeIndex (.instruction i) with
      | some idx => if idx ∈ currentLive then 0 else 1
      | none => 0
  (F.instr i).operands.foldl (operandDelta universeIndex liveness (F.getParent i) currentLive) delta

/-- Drop an operand that is not live out of the block. -/
def killOperand (bb : BasicBlock) (currentLive : Finset ℕ) (v : Value) : Finset ℕ :=
  match universeIndex v with
  | none => currentLive
  | some idx => if idx ∈ (liveness bb).outSet then currentLive else currentLive.erase idx

/-- The live set after scheduling `i`. -/
def updateLiveSet (i : InstrId) (currentLive : Finset ℕ) : Finset ℕ :=
  let currentLive :=
    if (F.instr i).isVoidTy then currentLive
    else
      match universeIndex (.instruction i) with
      | some idx => insert idx currentLive
      | none => currentLive
  (F.instr i).operands.foldl (killOperand universeIndex liveness (F.getParent i)) currentLive

/-- The best node so far, with its priorities. -/
structure Best where
  best : Option InstrId
  bestCP : ℤ
  bestDelta : ℤ

/-- The second priority of a node. -/
def tieBreakDelta (currentLive : Finset ℕ) (useRegPressure : Bool) (n : InstrId) : ℤ :=
  if useRegPressure then pressureDelta F universeIndex liveness n currentLive else 0

/-- Compare one node of the queue with the best so far. -/
def considerNode (g : DDG) (currentLive : Finset ℕ) (useRegPressure : Bool) (acc : Best)
    (n : InstrId) : Best :=
  let cp := (g.node n).criticalPath
  let delta := tieBreakDelta F universeIndex liveness currentLive useRegPressure n
  if cp > acc.bestCP then ⟨some n, cp, delta⟩
  else if cp = acc.bestCP ∧ delta < acc.bestDelta then ⟨some n, acc.bestCP, delta⟩
  else acc

def pickBest (g : DDG) (readyQueue : List InstrId) (currentLive : Finset ℕ)
    (useRegPressure : Bool) : Option InstrId :=
  (readyQueue.foldl (considerNode F universeIndex liveness g currentLive useRegPressure)
    ⟨none, -1, INT_MAX⟩).best

/-- The nodes that may enter the ready queue. -/
def isSchedulable (i : InstrId) : Bool := !(F.instr i).isTerminator && !(F.instr i).isPHI

/-- The state of the main loop. -/
structure ListState where
  ddg : DDG
  readyQueue : List InstrId
  schedule : List InstrId
  currentLive : Finset ℕ
  peakLivePressure : ℕ

/-- `predCount = predecessors.size()` for every node. -/
def resetPredCount (g : DDG) : DDG :=
  g.nodes.foldl (fun g n => g.setNode n
    { g.node n with predCount := (g.node n).predecessors.length }) g

/-- Count down one successor, and queue it when nothing it waits for is left. -/
def releaseSuccessor (acc : DDG × List InstrId) (succ : InstrId) : DDG × List InstrId :=
  let g := acc.1.setNode succ
    { acc.1.node succ with predCount := (acc.1.node succ).predCount - 1 }
  if (g.node succ).predCount = 0 ∧ isSchedulable F succ then (g, acc.2 ++ [succ]) else (g, acc.2)

/-- One round of the main loop, with the node chosen. -/
def scheduleNode (statsOn : Bool) (st : ListState) (best : InstrId) : ListState :=
  let currentLive := updateLiveSet F universeIndex liveness best st.currentLive
  let released := (st.ddg.node best).successors.foldl (releaseSuccessor F)
    (st.ddg, st.readyQueue.erase best)
  { ddg := released.1
    readyQueue := released.2
    schedule := st.schedule ++ [best]
    currentLive := currentLive
    peakLivePressure :=
      if statsOn then max st.peakLivePressure currentLive.card else st.peakLivePressure }

/-- The main loop, `none` when the fuel runs out or no node can be picked. -/
def listLoop (useRegPressure statsOn : Bool) : ℕ → ListState → Option ListState
  | 0, _ => none
  | fuel + 1, st =>
      if st.readyQueue.isEmpty then some st
      else
        match pickBest F universeIndex liveness st.ddg st.readyQueue st.currentLive
          useRegPressure with
        | none => none
        | some best =>
            listLoop useRegPressure statsOn fuel
              (scheduleNode F universeIndex liveness statsOn st best)

/-- The state before the main loop: the leaves are ready. -/
def initialListState (statsOn : Bool) (g : DDG) (currentLive : Finset ℕ) (peak : ℕ) : ListState :=
  let g := resetPredCount g
  { ddg := g
    readyQueue := g.nodes.filter fun n => (g.node n).predCount = 0 ∧ isSchedulable F n
    schedule := []
    currentLive := currentLive
    peakLivePressure := if statsOn then max peak currentLive.card else peak }

/-- The schedule of a graph, and the peak live pressure seen so far. -/
def listSchedule (g : DDG) (currentLive : Finset ℕ) (useRegPressure statsOn : Bool) (peak : ℕ) :
    Option (List InstrId × ℕ) :=
  (listLoop F universeIndex liveness useRegPressure statsOn (g.nodes.length + 1)
    (initialListState F statsOn g currentLive peak)).map fun st =>
      (st.schedule, st.peakLivePressure)

end

/-! ### What a schedule is -/

/-- The nodes scheduled, in an order that respects every edge, and nothing ready left over. -/
structure IsListSchedule (F : Function) (g : DDG) (schedule : List InstrId) : Prop where
  nodup : schedule.Nodup
  mem_iff : ∀ n, n ∈ schedule ↔
    n ∈ g.nodes ∧ isSchedulable F n = true ∧ ∀ p ∈ (g.node n).predecessors, p ∈ schedule
  ordered : ∀ p n, g.Edge p n → n ∈ schedule → [p, n] <+ schedule

/-- The invariant of the main loop. `g` is the graph as it was given. -/
structure ScheduleInv (F : Function) (g : DDG) (st : ListState) : Prop where
  successors : ∀ n, (st.ddg.node n).successors = (g.node n).successors
  criticalPath : ∀ n, (st.ddg.node n).criticalPath = (g.node n).criticalPath
  predCount : ∀ n ∈ g.nodes, (st.ddg.node n).predCount =
    ((g.node n).predecessors.filter (· ∉ st.schedule)).length
  nodup : (st.schedule ++ st.readyQueue).Nodup
  mem_iff : ∀ n, n ∈ st.schedule ++ st.readyQueue ↔
    n ∈ g.nodes ∧ isSchedulable F n = true ∧ ∀ p ∈ (g.node n).predecessors, p ∈ st.schedule
  ordered : ∀ p n, g.Edge p n → n ∈ st.schedule → [p, n] <+ st.schedule

variable {F : Function} {g : DDG} {st : ListState} {universeIndex : Value → Option ℕ}
  {liveness : LivenessResult} {useRegPressure statsOn : Bool}

theorem isSchedulable_iff {i : InstrId} :
    isSchedulable F i = true ↔ (F.instr i).isTerminator = false ∧ (F.instr i).isPHI = false := by
  rw [isSchedulable, Bool.and_eq_true, Bool.not_eq_true', Bool.not_eq_true']

/-- The node picked is one of the queue. -/
theorem mem_of_pickBest {queue : List InstrId} {currentLive : Finset ℕ} {best : InstrId}
    (h : pickBest F universeIndex liveness g queue currentLive useRegPressure = some best) :
    best ∈ queue := by
  have hgen : ∀ (l : List InstrId) (acc : Best), (∀ n, acc.best = some n → n ∈ queue) →
      (∀ n ∈ l, n ∈ queue) → ∀ n, (l.foldl
        (considerNode F universeIndex liveness g currentLive useRegPressure) acc).best = some n →
          n ∈ queue := by
    intro l
    induction l with
    | nil => exact fun acc hacc _ => hacc
    | cons k l ih =>
      intro acc hacc hl
      have hk := hl k List.mem_cons_self
      rw [List.foldl_cons]
      apply ih
      · intro n hn
        rw [considerNode] at hn
        split at hn
        · exact Option.some.inj hn ▸ hk
        · split at hn
          · exact Option.some.inj hn ▸ hk
          · exact hacc n hn
      · exact fun n hn => hl n (List.mem_cons_of_mem _ hn)
  exact hgen queue ⟨none, -1, INT_MAX⟩ (by simp) (fun _ h => h) best h

/-- A nonempty queue of nodes with nonnegative critical paths has a best node. -/
theorem pickBest_isSome {queue : List InstrId} {currentLive : Finset ℕ} (hq : queue ≠ [])
    (hcp : ∀ n ∈ queue, 0 ≤ (g.node n).criticalPath) :
    (pickBest F universeIndex liveness g queue currentLive useRegPressure).isSome := by
  have hkeep : ∀ (l : List InstrId) (acc : Best), acc.best.isSome → (l.foldl
      (considerNode F universeIndex liveness g currentLive useRegPressure) acc).best.isSome := by
    intro l
    induction l with
    | nil => exact fun acc h => h
    | cons k l ih =>
      intro acc h
      rw [List.foldl_cons]
      apply ih
      rw [considerNode]
      split
      · rfl
      · split
        · rfl
        · exact h
  cases queue with
  | nil => exact absurd rfl hq
  | cons k l =>
    -- the first node beats the initial `bestCP`
    have hk : (g.node k).criticalPath > -1 := by
      have := hcp k List.mem_cons_self
      omega
    rw [pickBest, List.foldl_cons]
    apply hkeep
    rw [considerNode]
    dsimp only
    rw [if_pos hk]
    rfl

/-! ### One round -/

/-- What resetting the counters does. -/
theorem resetPredCount_spec (g : DDG) : (resetPredCount g).nodes = g.nodes ∧
    (∀ n, ((resetPredCount g).node n).successors = (g.node n).successors) ∧
    (∀ n, ((resetPredCount g).node n).criticalPath = (g.node n).criticalPath) ∧
    ∀ n ∈ g.nodes, ((resetPredCount g).node n).predCount = (g.node n).predecessors.length := by
  have hgen : ∀ (l : List InstrId) (g : DDG),
      let r := l.foldl (fun g n => g.setNode n
        { g.node n with predCount := (g.node n).predecessors.length }) g
      r.nodes = g.nodes ∧ (∀ n, (r.node n).successors = (g.node n).successors) ∧
        (∀ n, (r.node n).criticalPath = (g.node n).criticalPath) ∧
        ∀ n, (r.node n).predCount =
          if n ∈ l then ((g.node n).predecessors.length : ℤ) else (g.node n).predCount := by
    intro l
    induction l with
    | nil => exact fun g => ⟨rfl, fun _ => rfl, fun _ => rfl, by simp⟩
    | cons k l ih =>
      intro g
      obtain ⟨hnodes, hsucc, hcp, hcount⟩ := ih (g.setNode k
        { g.node k with predCount := (g.node k).predecessors.length })
      refine ⟨hnodes, fun n => (hsucc n).trans ?_, fun n => (hcp n).trans ?_,
        fun n => (hcount n).trans ?_⟩
      all_goals
        simp only [DDG.setNode_node]
        by_cases hn : n = k
        · subst hn
          simp
        · simp [hn]
  obtain ⟨hnodes, hsucc, hcp, hcount⟩ := hgen g.nodes g
  refine ⟨hnodes, hsucc, hcp, fun n hn => ?_⟩
  rw [resetPredCount, hcount, if_pos hn]

/-- What releasing the successors of a node does. -/
theorem foldl_releaseSuccessor (queue : List InstrId) {succs : List InstrId} (hnd : succs.Nodup) :
    let r := succs.foldl (releaseSuccessor F) (g, queue)
    (∀ n, (r.1.node n).successors = (g.node n).successors) ∧
    (∀ n, (r.1.node n).criticalPath = (g.node n).criticalPath) ∧
    (∀ n, (r.1.node n).predCount =
      if n ∈ succs then (g.node n).predCount - 1 else (g.node n).predCount) ∧
    r.2 = queue ++ succs.filter fun n =>
      decide ((g.node n).predCount - 1 = 0) && isSchedulable F n := by
  induction succs generalizing g queue with
  | nil => exact ⟨fun _ => rfl, fun _ => rfl, by simp, by simp⟩
  | cons k succs ih =>
    obtain ⟨hk, hnd⟩ := List.nodup_cons.mp hnd
    set g₁ := g.setNode k { g.node k with predCount := (g.node k).predCount - 1 } with hg₁
    have hself : (g₁.node k).predCount = (g.node k).predCount - 1 := by
      rw [hg₁, DDG.setNode_node, if_pos rfl]
    have hother : ∀ n, n ≠ k → g₁.node n = g.node n := by
      intro n hn
      rw [hg₁, DDG.setNode_node, if_neg hn]
    have hstep : releaseSuccessor F (g, queue) k =
        (g₁, queue ++ [k].filter fun n =>
          decide ((g.node n).predCount - 1 = 0) && isSchedulable F n) := by
      simp only [releaseSuccessor, ← hg₁, hself, List.filter_cons, List.filter_nil,
        Bool.and_eq_true, decide_eq_true_eq]
      split
      · rfl
      · simp
    obtain ⟨hsucc, hcp, hcount, hqueue⟩ := ih (g := g₁) (queue ++ [k].filter fun n =>
      decide ((g.node n).predCount - 1 = 0) && isSchedulable F n) hnd
    rw [← hstep] at hsucc hcp hcount hqueue
    refine ⟨fun n => (hsucc n).trans ?_, fun n => (hcp n).trans ?_, fun n => (hcount n).trans ?_,
      hqueue.trans ?_⟩
    · by_cases hn : n = k
      · rw [hn, hg₁, DDG.setNode_node, if_pos rfl]
      · rw [hother n hn]
    · by_cases hn : n = k
      · rw [hn, hg₁, DDG.setNode_node, if_pos rfl]
      · rw [hother n hn]
    · by_cases hn : n = k
      · subst hn
        rw [if_neg hk, if_pos List.mem_cons_self, hself]
      · rw [hother n hn]
        simp [hn]
    · have hfilter : (succs.filter fun n =>
          decide ((g₁.node n).predCount - 1 = 0) && isSchedulable F n) =
          succs.filter fun n => decide ((g.node n).predCount - 1 = 0) && isSchedulable F n :=
        List.filter_congr fun n hn => by rw [hother n fun he => hk (he ▸ hn)]
      rw [hfilter, List.append_assoc, ← List.filter_append, List.singleton_append]

/-- One node less to wait for. -/
theorem length_filter_not_mem_append {l schedule : List InstrId} {best : InstrId} (hnd : l.Nodup)
    (hbest : best ∉ schedule) : ((l.filter (· ∉ schedule ++ [best])).length : ℤ) =
      if best ∈ l then ((l.filter (· ∉ schedule)).length : ℤ) - 1
      else (l.filter (· ∉ schedule)).length := by
  have hsplit : l.filter (· ∉ schedule ++ [best]) = (l.filter (· ∉ schedule)).erase best := by
    rw [(hnd.filter _).erase_eq_filter, List.filter_filter]
    refine List.filter_congr fun x _ => ?_
    rw [Bool.eq_iff_iff]
    simp [and_comm]
  rw [hsplit]
  split
  · rename_i hl
    have hmem : best ∈ l.filter (· ∉ schedule) := List.mem_filter.mpr ⟨hl, by simpa using hbest⟩
    have hpos := List.length_pos_of_mem hmem
    rw [List.length_erase_of_mem hmem]
    omega
  · rename_i hl
    rw [List.erase_of_not_mem fun h => hl (List.mem_filter.mp h).1]

/-- **One round keeps the invariant**, whichever ready node is chosen. -/
theorem ScheduleInv.scheduleNode (hg : g.WellBuilt) (h : ScheduleInv F g st) {best : InstrId}
    (hbest : best ∈ st.readyQueue) :
    ScheduleInv F g (scheduleNode F universeIndex liveness statsOn st best) := by
  have hbS : best ∉ st.schedule := fun hS => (List.nodup_append.mp h.nodup).2.2 best hS best hbest rfl
  have hbpreds : ∀ p ∈ (g.node best).predecessors, p ∈ st.schedule :=
    ((h.mem_iff best).mp (List.mem_append_right _ hbest)).2.2
  have hsuccs : (st.ddg.node best).successors.Nodup := by rw [h.successors]; exact hg.succ_nodup best
  have hedge : ∀ {n}, n ∈ (st.ddg.node best).successors ↔ best ∈ (g.node n).predecessors := by
    intro n
    rw [h.successors, hg.mem_predecessors, DDG.Edge]
  obtain ⟨hsucc, hcp, hcount, hqueue⟩ :=
    foldl_releaseSuccessor (F := F) (g := st.ddg) (st.readyQueue.erase best) hsuccs
  set new := (st.ddg.node best).successors.filter fun n =>
    decide ((st.ddg.node n).predCount - 1 = 0) && isSchedulable F n with hnew
  have hpred : ∀ n ∈ g.nodes, (((st.ddg.node best).successors.foldl (releaseSuccessor F)
      (st.ddg, st.readyQueue.erase best)).1.node n).predCount =
        ((g.node n).predecessors.filter (· ∉ st.schedule ++ [best])).length := by
    intro n hn
    rw [hcount, length_filter_not_mem_append (hg.pred_nodup n) hbS, h.predCount n hn]
    simp only [hedge]
  -- a successor is released exactly when the chosen node was the last it waited for
  have hmemNew : ∀ n, n ∈ new ↔ best ∈ (g.node n).predecessors ∧ isSchedulable F n = true ∧
      ∀ p ∈ (g.node n).predecessors, p ∈ st.schedule ++ [best] := by
    intro n
    rw [hnew, List.mem_filter, hedge, Bool.and_eq_true, decide_eq_true_eq]
    refine and_congr_right fun hbn => ?_
    have hn : n ∈ g.nodes := (hg.edge_mem (hg.mem_predecessors.mp hbn)).2
    have hzero : (st.ddg.node n).predCount - 1 = 0 ↔
        ∀ p ∈ (g.node n).predecessors, p ∈ st.schedule ++ [best] := by
      have hlen := length_filter_not_mem_append (hg.pred_nodup n) hbS
      rw [if_pos hbn, ← h.predCount n hn] at hlen
      rw [← hlen, Int.natCast_eq_zero, List.length_eq_zero_iff, List.filter_eq_nil_iff]
      simp only [decide_eq_true_eq, not_not]
    rw [hzero, and_comm]
  have hdisj : ∀ n ∈ new, n ∉ st.schedule ++ st.readyQueue := by
    intro n hn hold
    exact hbS (((h.mem_iff n).mp hold).2.2 best ((hmemNew n).mp hn).1)
  refine ⟨fun n => (hsucc n).trans (h.successors n), fun n => (hcp n).trans (h.criticalPath n),
    hpred, ?_, ?_, ?_⟩
  · show (st.schedule ++ [best] ++ ((st.ddg.node best).successors.foldl (releaseSuccessor F)
      (st.ddg, st.readyQueue.erase best)).2).Nodup
    rw [hqueue, ← List.append_assoc, List.append_assoc st.schedule]
    have hperm : st.schedule ++ ([best] ++ st.readyQueue.erase best) ~
        st.schedule ++ st.readyQueue := (List.perm_cons_erase hbest).symm.append_left _
    refine List.nodup_append.mpr ⟨hperm.nodup_iff.mpr h.nodup, hsuccs.filter _, ?_⟩
    rintro x hx y hy rfl
    exact hdisj x hy (hperm.mem_iff.mp hx)
  · intro n
    show n ∈ st.schedule ++ [best] ++ ((st.ddg.node best).successors.foldl (releaseSuccessor F)
      (st.ddg, st.readyQueue.erase best)).2 ↔ n ∈ g.nodes ∧ isSchedulable F n = true ∧
        ∀ p ∈ (g.node n).predecessors, p ∈ st.schedule ++ [best]
    rw [hqueue]
    have hweaken : (∀ p ∈ (g.node n).predecessors, p ∈ st.schedule) →
        ∀ p ∈ (g.node n).predecessors, p ∈ st.schedule ++ [best] :=
      fun hp p hmem => List.mem_append_left _ (hp p hmem)
    constructor
    · intro hn
      simp only [List.mem_append, List.mem_singleton] at hn
      have hold : n ∈ st.schedule ++ st.readyQueue ∨ n ∈ new := by
        rcases hn with (hn | rfl) | hn | hn
        · exact .inl (List.mem_append_left _ hn)
        · exact .inl (List.mem_append_right _ hbest)
        · exact .inl (List.mem_append_right _ (List.mem_of_mem_erase hn))
        · exact .inr hn
      rcases hold with hold | hn
      · obtain ⟨hn, hs, hp⟩ := (h.mem_iff n).mp hold
        exact ⟨hn, hs, hweaken hp⟩
      · obtain ⟨hbn, hs, hp⟩ := (hmemNew n).mp hn
        exact ⟨(hg.edge_mem (hg.mem_predecessors.mp hbn)).2, hs, hp⟩
    · rintro ⟨hn, hs, hp⟩
      by_cases hbn : best ∈ (g.node n).predecessors
      · have := (hmemNew n).mpr ⟨hbn, hs, hp⟩
        simp [this]
      · have hold : n ∈ st.schedule ++ st.readyQueue := by
          refine (h.mem_iff n).mpr ⟨hn, hs, fun p hmem => ?_⟩
          refine (List.mem_append.mp (hp p hmem)).resolve_right fun he => hbn ?_
          exact List.mem_singleton.mp he ▸ hmem
        rcases List.mem_append.mp hold with hS | hQ
        · simp [hS]
        · by_cases hnb : n = best
          · simp [hnb]
          · have := (List.mem_erase_of_ne hnb).mpr hQ
            simp [this]
  · intro p n hpn hn
    rcases List.mem_append.mp hn with hn | hn
    · exact (h.ordered p n hpn hn).trans (List.sublist_append_left _ _)
    · obtain rfl := List.mem_singleton.mp hn
      have hp : p ∈ st.schedule := hbpreds p (hg.mem_predecessors.mpr hpn)
      exact (List.singleton_sublist.mpr hp).append (List.Sublist.refl [n])

theorem scheduleInv_init (hg : g.WellBuilt) (currentLive : Finset ℕ) (peak : ℕ) :
    ScheduleInv F g (initialListState F statsOn g currentLive peak) := by
  obtain ⟨hnodes, hsucc, hcp, hcount⟩ := resetPredCount_spec g
  refine ⟨hsucc, hcp, fun n hn => ?_, ?_, fun n => ?_, ?_⟩
  · show ((resetPredCount g).node n).predCount = _
    rw [hcount n hn]
    simp [initialListState]
  · show ([] ++ (resetPredCount g).nodes.filter _).Nodup
    rw [hnodes, List.nil_append]
    exact hg.nodes_nodup.filter _
  · show n ∈ [] ++ (resetPredCount g).nodes.filter _ ↔ _ ∧ _ ∧ ∀ p ∈ (g.node n).predecessors, p ∈ []
    rw [hnodes, List.nil_append, List.mem_filter, decide_eq_true_eq]
    refine and_congr_right fun hn => ?_
    rw [hcount n hn, and_comm]
    refine and_congr_right fun _ => ?_
    rw [Int.natCast_eq_zero, List.length_eq_zero_iff, List.eq_nil_iff_forall_not_mem]
    simp
  · intro p n _ hn
    cases hn

variable (universeIndex liveness useRegPressure) in
theorem ScheduleInv.exists_pickBest (h : ScheduleInv F g st)
    (hcp : ∀ n ∈ g.nodes, 0 ≤ (g.node n).criticalPath) (hne : st.readyQueue ≠ []) :
    ∃ best, pickBest F universeIndex liveness st.ddg st.readyQueue st.currentLive useRegPressure =
      some best := by
  apply Option.isSome_iff_exists.mp
  apply pickBest_isSome hne
  intro n hn
  rw [h.criticalPath]
  exact hcp n ((h.mem_iff n).mp (List.mem_append_right _ hn)).1

/-- The main loop ends in a schedule. -/
theorem listLoop_spec (hg : g.WellBuilt) (hcp : ∀ n ∈ g.nodes, 0 ≤ (g.node n).criticalPath)
    {fuel : ℕ}
    (h : ScheduleInv F g st) (hfuel : g.nodes.length < fuel + st.schedule.length) :
    ∃ st', listLoop F universeIndex liveness useRegPressure statsOn fuel st = some st' ∧
      IsListSchedule F g st'.schedule := by
  induction fuel generalizing st with
  | zero =>
    have hle : st.schedule.length ≤ g.nodes.length := by
      refine ((List.nodup_append.mp h.nodup).1.subperm fun n hn => ?_).length_le
      exact ((h.mem_iff n).mp (List.mem_append_left _ hn)).1
    omega
  | succ fuel ih =>
    rw [listLoop]
    split
    · rename_i hempty
      obtain hnil := List.isEmpty_iff.mp hempty
      refine ⟨st, rfl, (List.nodup_append.mp h.nodup).1, fun n => ?_, h.ordered⟩
      rw [← h.mem_iff n, hnil, List.append_nil]
    · rename_i hne
      obtain ⟨best, hpick⟩ := h.exists_pickBest universeIndex liveness useRegPressure hcp
        (fun hnil => hne (List.isEmpty_iff.mpr hnil))
      rw [hpick]
      apply ih (h.scheduleNode hg (mem_of_pickBest hpick))
      show g.nodes.length < fuel + (st.schedule ++ [best]).length
      rw [List.length_append, List.length_singleton]
      omega

variable (universeIndex liveness useRegPressure statsOn) in
/-- **List scheduling ends**, and its result is a list schedule. -/
theorem listSchedule_spec (hg : g.WellBuilt) (hcp : ∀ n ∈ g.nodes, 0 ≤ (g.node n).criticalPath)
    (currentLive : Finset ℕ) (peak : ℕ) :
    ∃ schedule peak', listSchedule F universeIndex liveness g currentLive useRegPressure statsOn
      peak = some (schedule, peak') ∧ IsListSchedule F g schedule := by
  have hfuel : g.nodes.length < (g.nodes.length + 1) +
      (initialListState F statsOn g currentLive peak).schedule.length := by
    simp [initialListState]
  obtain ⟨st', hrun, hst'⟩ := listLoop_spec (F := F) hg hcp
    (scheduleInv_init hg currentLive peak) hfuel
  exact ⟨st'.schedule, st'.peakLivePressure, by rw [listSchedule, hrun]; rfl, hst'⟩

variable (universeIndex liveness useRegPressure statsOn) in
/-- The schedule of a graph as it was built: critical paths first, then the list. -/
theorem listSchedule_of_wellBuilt (hg : g.WellBuilt) (hdelay : ∀ n, 0 ≤ (g.node n).delay)
    (hinit : ∀ n, (g.node n).criticalPath = 0) (currentLive : Finset ℕ) (peak : ℕ) :
    ∃ ddg schedule peak', g.computeCriticalPath = some ddg ∧
      listSchedule F universeIndex liveness ddg currentLive useRegPressure statsOn peak =
        some (schedule, peak') ∧ IsListSchedule F g schedule := by
  obtain ⟨ddg, hddg⟩ := DDG.computeCriticalPath_isSome hg
  have hshape := DDG.sameShape_computeCriticalPath hddg
  have hcp := DDG.criticalPath_nonneg hddg hdelay fun n => (hinit n).ge
  obtain ⟨schedule, peak', hrun, hsched⟩ := listSchedule_spec (F := F) universeIndex liveness
    useRegPressure statsOn (hshape.wellBuilt hg) (fun n _ => hcp n) currentLive peak
  refine ⟨ddg, schedule, peak', hddg, hrun, hsched.nodup, fun n => ?_, fun p n hedge hn => ?_⟩
  · rw [hsched.mem_iff, hshape.nodes, hshape.predecessors]
  · exact hsched.ordered p n (hshape.edge.mpr hedge) hn

/-- **A schedule is complete** when the edges into schedulable nodes follow some order and leave
schedulable nodes. -/
theorem IsListSchedule.complete {schedule : List InstrId} (h : IsListSchedule F g schedule)
    (hg : g.WellBuilt) (rank : InstrId → ℕ)
    (hrank : ∀ a b, g.Edge a b → isSchedulable F b = true → rank a < rank b)
    (hclosed : ∀ a b, g.Edge a b → isSchedulable F b = true → isSchedulable F a = true)
    {n : InstrId} (hn : n ∈ g.nodes) (hs : isSchedulable F n = true) : n ∈ schedule := by
  induction hr : rank n using Nat.strong_induction_on generalizing n with
  | _ r ih =>
    refine (h.mem_iff n).mpr ⟨hn, hs, fun p hp => ?_⟩
    have hpn := hg.mem_predecessors.mp hp
    exact ih (rank p) (hr ▸ hrank p n hpn hs) (hg.edge_mem hpn).1 (hclosed p n hpn hs) rfl

/-! ### Graphs that differ where the scheduler does not look -/

section Congr

variable {N : InstrId → Prop} {g₁ g₂ : DDG} {st₁ st₂ : ListState}

/-- The same successors, critical paths and counts at the nodes `N`, from which no other node is ever
queued. -/
structure SameOn (F : Function) (N : InstrId → Prop) (g₁ g₂ : DDG) : Prop where
  successors : ∀ n, N n → (g₁.node n).successors = (g₂.node n).successors
  closed : ∀ n, N n → ∀ s ∈ (g₁.node n).successors, isSchedulable F s = true → N s
  criticalPath : ∀ n, N n → (g₁.node n).criticalPath = (g₂.node n).criticalPath
  predCount : ∀ n, N n → (g₁.node n).predCount = (g₂.node n).predCount

theorem SameOn.countDown (h : SameOn F N g₁ g₂) (s : InstrId) : SameOn F N
    (g₁.setNode s { g₁.node s with predCount := (g₁.node s).predCount - 1 })
    (g₂.setNode s { g₂.node s with predCount := (g₂.node s).predCount - 1 }) := by
  have hsucc : ∀ (g : DDG) n, ((g.setNode s
      { g.node s with predCount := (g.node s).predCount - 1 }).node n).successors =
        (g.node n).successors := by
    intro g n
    rw [DDG.setNode_node]
    split
    · rename_i heq
      rw [heq]
    · rfl
  refine ⟨fun n hn => ?_, fun n hn m hm hs => ?_, fun n hn => ?_, fun n hn => ?_⟩
  · rw [hsucc, hsucc]
    exact h.successors n hn
  · rw [hsucc] at hm
    exact h.closed n hn m hm hs
  · rw [DDG.setNode_node, DDG.setNode_node]
    split
    · rename_i heq
      exact h.criticalPath s (heq ▸ hn)
    · exact h.criticalPath n hn
  · rw [DDG.setNode_node, DDG.setNode_node]
    split
    · rename_i heq
      show (g₁.node s).predCount - 1 = (g₂.node s).predCount - 1
      rw [h.predCount s (heq ▸ hn)]
    · exact h.predCount n hn

theorem SameOn.release (h : SameOn F N g₁ g₂) {queue : List InstrId}
    (hqueue : ∀ n ∈ queue, N n) {s : InstrId} (hs : isSchedulable F s = true → N s) :
    (releaseSuccessor F (g₁, queue) s).2 = (releaseSuccessor F (g₂, queue) s).2 ∧
      (∀ n ∈ (releaseSuccessor F (g₁, queue) s).2, N n) ∧
      SameOn F N (releaseSuccessor F (g₁, queue) s).1
        (releaseSuccessor F (g₂, queue) s).1 := by
  have hdown := h.countDown s
  rw [releaseSuccessor, releaseSuccessor]
  dsimp only
  by_cases hsched : isSchedulable F s = true
  · have hcount := hdown.predCount s (hs hsched)
    rw [← hcount]
    split
    · refine ⟨rfl, fun n hn => ?_, hdown⟩
      rcases List.mem_append.mp hn with hn | hn
      · exact hqueue n hn
      · exact List.mem_singleton.mp hn ▸ hs hsched
    · exact ⟨rfl, hqueue, hdown⟩
  · rw [if_neg fun hc => hsched hc.2, if_neg fun hc => hsched hc.2]
    exact ⟨rfl, hqueue, hdown⟩

theorem SameOn.releaseAll (h : SameOn F N g₁ g₂) {queue succs : List InstrId}
    (hqueue : ∀ n ∈ queue, N n) (hsuccs : ∀ s ∈ succs, isSchedulable F s = true → N s) :
    (succs.foldl (releaseSuccessor F) (g₁, queue)).2 =
        (succs.foldl (releaseSuccessor F) (g₂, queue)).2 ∧
      (∀ n ∈ (succs.foldl (releaseSuccessor F) (g₁, queue)).2, N n) ∧
      SameOn F N (succs.foldl (releaseSuccessor F) (g₁, queue)).1
        (succs.foldl (releaseSuccessor F) (g₂, queue)).1 := by
  induction succs generalizing g₁ g₂ queue with
  | nil => exact ⟨rfl, hqueue, h⟩
  | cons s succs ih =>
    obtain ⟨heq, hmem, hsame⟩ := h.release hqueue (hsuccs s List.mem_cons_self)
    rw [List.foldl_cons, List.foldl_cons]
    have hpair : releaseSuccessor F (g₂, queue) s =
        ((releaseSuccessor F (g₂, queue) s).1,
          (releaseSuccessor F (g₁, queue) s).2) := by
      rw [heq]
    rw [hpair]
    exact ih hsame hmem fun x hx => hsuccs x (List.mem_cons_of_mem _ hx)

theorem SameOn.pick (h : SameOn F N g₁ g₂) {queue : List InstrId} (hqueue : ∀ n ∈ queue, N n)
    (currentLive : Finset ℕ) :
    pickBest F universeIndex liveness g₁ queue currentLive useRegPressure =
      pickBest F universeIndex liveness g₂ queue currentLive useRegPressure := by
  rw [pickBest, pickBest]
  congr 1
  refine List.foldl_ext _ _ _ fun acc n hn => ?_
  rw [considerNode, considerNode, h.criticalPath n (hqueue n hn)]

/-- Two runs in step. -/
structure SameReady (F : Function) (N : InstrId → Prop) (st₁ st₂ : ListState) : Prop where
  graph : SameOn F N st₁.ddg st₂.ddg
  queue : st₁.readyQueue = st₂.readyQueue
  queued : ∀ n ∈ st₁.readyQueue, N n
  schedule : st₁.schedule = st₂.schedule
  live : st₁.currentLive = st₂.currentLive
  peak : st₁.peakLivePressure = st₂.peakLivePressure

theorem SameReady.next (h : SameReady F N st₁ st₂) {best : InstrId}
    (hbest : best ∈ st₁.readyQueue) :
    SameReady F N (scheduleNode F universeIndex liveness statsOn st₁ best)
      (scheduleNode F universeIndex liveness statsOn st₂ best) := by
  have hN := h.queued best hbest
  have hqueue : ∀ n ∈ st₁.readyQueue.erase best, N n := fun n hn =>
    h.queued n (List.mem_of_mem_erase hn)
  obtain ⟨heq, hmem, hsame⟩ := h.graph.releaseAll hqueue (h.graph.closed best hN)
  have hrun : (st₂.ddg.node best).successors.foldl (releaseSuccessor F)
      (st₂.ddg, st₂.readyQueue.erase best) =
        (st₁.ddg.node best).successors.foldl (releaseSuccessor F)
          (st₂.ddg, st₁.readyQueue.erase best) := by
    rw [h.graph.successors best hN, h.queue]
  refine ⟨?_, ?_, hmem, ?_, ?_, ?_⟩
  · simp only [scheduleNode, hrun]
    exact hsame
  · simp only [scheduleNode, hrun]
    exact heq
  · simp only [scheduleNode, h.schedule]
  · simp only [scheduleNode, h.live]
  · simp only [scheduleNode, h.live, h.peak]

theorem SameReady.run (h : SameReady F N st₁ st₂) {fuel₁ fuel₂ : ℕ} {r₁ r₂ : ListState}
    (h₁ : listLoop F universeIndex liveness useRegPressure statsOn fuel₁ st₁ = some r₁)
    (h₂ : listLoop F universeIndex liveness useRegPressure statsOn fuel₂ st₂ =
      some r₂) : SameReady F N r₁ r₂ := by
  induction fuel₁ generalizing fuel₂ st₁ st₂ with
  | zero => cases h₁
  | succ fuel₁ ih =>
    cases fuel₂ with
    | zero => cases h₂
    | succ fuel₂ =>
      rw [listLoop] at h₁ h₂
      rw [← h.queue, ← h.live, ← h.graph.pick h.queued] at h₂
      split at h₁
      · rename_i hempty
        rw [if_pos hempty] at h₂
        obtain rfl := Option.some.inj h₁
        obtain rfl := Option.some.inj h₂
        exact h
      · rename_i hne
        rw [if_neg hne] at h₂
        cases hpick : pickBest F universeIndex liveness st₁.ddg st₁.readyQueue
            st₁.currentLive useRegPressure with
        | none =>
          rw [hpick] at h₁
          cases h₁
        | some best =>
          rw [hpick] at h₁ h₂
          exact ih (h.next (mem_of_pickBest hpick)) h₁ h₂

/-- **Two graphs with the same schedulable nodes have the same schedule**, when these nodes have the
same successors, critical paths and numbers of predecessors in both. -/
theorem listSchedule_congr {p : InstrId → Bool} (hg : g₁.WellBuilt)
    (hnodes : g₂.nodes = g₁.nodes.filter p) (hp : ∀ n, isSchedulable F n = true → p n = true)
    (hsucc : ∀ n ∈ g₁.nodes, isSchedulable F n = true →
      (g₁.node n).successors = (g₂.node n).successors)
    (hcp : ∀ n ∈ g₁.nodes, isSchedulable F n = true →
      (g₁.node n).criticalPath = (g₂.node n).criticalPath)
    (hpreds : ∀ n ∈ g₁.nodes, isSchedulable F n = true →
      (g₁.node n).predecessors.length = (g₂.node n).predecessors.length)
    {currentLive : Finset ℕ} {peak : ℕ} {r₁ r₂ : List InstrId × ℕ}
    (h₁ : listSchedule F universeIndex liveness g₁ currentLive useRegPressure statsOn peak = some r₁)
    (h₂ : listSchedule F universeIndex liveness g₂ currentLive useRegPressure statsOn peak = some r₂) :
    r₁ = r₂ := by
  obtain ⟨st₁, hrun₁, rfl⟩ := Option.map_eq_some_iff.mp h₁
  obtain ⟨st₂, hrun₂, rfl⟩ := Option.map_eq_some_iff.mp h₂
  obtain ⟨hnodes₁, hsucc₁, hcp₁, hcount₁⟩ := resetPredCount_spec g₁
  obtain ⟨hnodes₂, hsucc₂, hcp₂, hcount₂⟩ := resetPredCount_spec g₂
  have hmem₂ : ∀ n ∈ g₁.nodes, isSchedulable F n = true → n ∈ g₂.nodes := by
    intro n hn hs
    rw [hnodes]
    exact List.mem_filter.mpr ⟨hn, hp n hs⟩
  have hcount : ∀ n ∈ g₁.nodes, isSchedulable F n = true →
      ((resetPredCount g₁).node n).predCount = ((resetPredCount g₂).node n).predCount := by
    intro n hn hs
    rw [hcount₁ n hn, hcount₂ n (hmem₂ n hn hs), hpreds n hn hs]
  have hstart : SameReady F (fun n => n ∈ g₁.nodes ∧ isSchedulable F n = true)
      (initialListState F statsOn g₁ currentLive peak)
      (initialListState F statsOn g₂ currentLive peak) := by
    refine ⟨⟨fun n hn => ?_, fun n _ s hs hsched => ?_, fun n hn => ?_, fun n hn => ?_⟩, ?_,
      fun n hn => ?_, rfl, rfl, rfl⟩
    · show ((resetPredCount g₁).node n).successors = ((resetPredCount g₂).node n).successors
      rw [hsucc₁, hsucc₂, hsucc n hn.1 hn.2]
    · have hedge : s ∈ (g₁.node n).successors := hsucc₁ n ▸ hs
      exact ⟨(hg.edge_mem hedge).2, hsched⟩
    · show ((resetPredCount g₁).node n).criticalPath = ((resetPredCount g₂).node n).criticalPath
      rw [hcp₁, hcp₂, hcp n hn.1 hn.2]
    · exact hcount n hn.1 hn.2
    · show (resetPredCount g₁).nodes.filter _ = (resetPredCount g₂).nodes.filter _
      rw [hnodes₁, hnodes₂, hnodes, List.filter_filter]
      apply List.filter_congr
      intro n hn
      rw [Bool.eq_iff_iff]
      simp only [decide_eq_true_eq, Bool.and_eq_true]
      constructor
      · intro h
        exact ⟨⟨hcount n hn h.2 ▸ h.1, h.2⟩, hp n h.2⟩
      · intro h
        exact ⟨(hcount n hn h.1.2).symm ▸ h.1.1, h.1.2⟩
    · have hn' : n ∈ (resetPredCount g₁).nodes.filter fun n =>
          ((resetPredCount g₁).node n).predCount = 0 ∧ isSchedulable F n := hn
      obtain ⟨hmem, hready⟩ := List.mem_filter.mp hn'
      rw [hnodes₁] at hmem
      exact ⟨hmem, (of_decide_eq_true hready).2⟩
  have hend := hstart.run hrun₁ hrun₂
  rw [hend.schedule, hend.peak]

end Congr

end TraceScheduler
