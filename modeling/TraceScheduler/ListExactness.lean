import TraceScheduler.Library.ReleaseOrder
import TraceScheduler.ListPriority

/-!
# What the list scheduler does on any graph

`addEdge` may build a graph with cycles, and with PHIs and terminators in the middle of it.  The loop
ends on all of them.  The counter of a node is the number of its predecessors still to come, so it
reaches zero once and never goes below; a PHI, a terminator and a node on a cycle hold back whatever
depends on them.  The schedule is therefore the release order of the graph (`Library.ReleaseOrder`),
and it contains exactly the nodes with nothing of the kind among themselves and their ancestors
(`listSchedule_exact`).
-/

namespace TraceScheduler

open scoped List

variable {F : Function} {g : DDG} {universeIndex : Value → Option ℕ} {liveness : LivenessResult}
  {useRegPressure statsOn : Bool} {currentLive : Finset ℕ} {peak : ℕ} {st : ListState}
  {best : InstrId} {schedule done : List InstrId}

/-- The graph and the queue at some point of a round: no node is queued twice and no counter is
negative. -/
structure SoundQueue (nodes : List InstrId) (acc : DDG × List InstrId) : Prop where
  nodup : acc.2.Nodup
  predCount_nonneg : ∀ n ∈ nodes, 0 ≤ (acc.1.node n).predCount

theorem ScheduleInv.soundQueue (h : ScheduleInv F g st) :
    SoundQueue g.nodes (st.ddg, st.readyQueue) := by
  refine ⟨(List.nodup_append.mp h.nodup).2.1, ?_⟩
  intro n hn
  show 0 ≤ (st.ddg.node n).predCount
  rw [h.predCount n hn]
  exact Int.natCast_nonneg _

/-- **While a round releases the successors** of the chosen node, one after the other. -/
theorem ScheduleInv.soundQueue_release (hg : g.WellBuilt) (h : ScheduleInv F g st)
    (hbest : best ∈ st.readyQueue) (hdone : done <+: (st.ddg.node best).successors) :
    SoundQueue g.nodes (done.foldl (releaseSuccessor F) (st.ddg, st.readyQueue.erase best)) := by
  have hnd : (st.ddg.node best).successors.Nodup := by
    rw [h.successors]
    exact hg.succ_nodup best
  obtain ⟨_, _, hcount, hqueue⟩ := foldl_releaseSuccessor (F := F) (g := st.ddg)
    (st.readyQueue.erase best) (hdone.sublist.nodup hnd)
  obtain ⟨_, _, hcount', hqueue'⟩ := foldl_releaseSuccessor (F := F) (g := st.ddg)
    (st.readyQueue.erase best) hnd
  -- the round ends in a sound state, and a part of it gets no further
  have hnext : ScheduleInv F g (TraceScheduler.scheduleNode F (fun _ => none)
      (fun _ => ⟨∅, ∅, ∅, ∅⟩) false st best) := h.scheduleNode hg hbest
  have hend := hnext.soundQueue
  constructor
  · rw [hqueue]
    have hnodup : ((st.ddg.node best).successors.foldl (releaseSuccessor F)
        (st.ddg, st.readyQueue.erase best)).2.Nodup := hend.nodup
    rw [hqueue'] at hnodup
    exact ((hdone.sublist.filter _).append_left _).nodup hnodup
  · intro n hn
    have hpos : 0 ≤ (((st.ddg.node best).successors.foldl (releaseSuccessor F)
        (st.ddg, st.readyQueue.erase best)).1.node n).predCount := hend.predCount_nonneg n hn
    have hbefore := h.soundQueue.predCount_nonneg n hn
    rw [hcount]
    rw [hcount'] at hpos
    split
    · rename_i hmem
      rw [if_pos (hdone.subset hmem)] at hpos
      exact hpos
    · exact hbefore

/-- A schedule is the release order of its graph. -/
theorem IsListSchedule.isReleaseOrder (hg : g.WellBuilt) (h : IsListSchedule F g schedule) :
    IsReleaseOrder g.Edge (fun n => n ∈ g.nodes ∧ isSchedulable F n = true) schedule := by
  refine ⟨h.nodup, ?_, h.ordered⟩
  intro n
  rw [h.mem_iff, and_assoc]
  simp only [hg.mem_predecessors]

/-- **List scheduling is exact on every graph** that `addEdge` builds, whatever the live set, the
liveness result and the use of register pressure. It ends; the queue has no duplicates and no counter
goes negative at any point of it, and a queue that is not empty has a best node. The schedule contains
once each node that is neither a PHI nor a terminator nor on a cycle and has no such node among its
ancestors, and nothing else, predecessors first. -/
theorem listSchedule_exact (F : Function) (universeIndex : Value → Option ℕ)
    (liveness : LivenessResult) (useRegPressure statsOn : Bool) (currentLive : Finset ℕ) (peak : ℕ)
    (hg : g.WellBuilt) (hcp : ∀ n ∈ g.nodes, 0 ≤ (g.node n).criticalPath) :
    (∀ st, LoopReaches F universeIndex liveness useRegPressure statsOn
        (initialListState F statsOn g currentLive peak) st →
      SoundQueue g.nodes (st.ddg, st.readyQueue) ∧
      (st.readyQueue ≠ [] → ∃ best, best ∈ st.readyQueue ∧
        pickBest F universeIndex liveness st.ddg st.readyQueue st.currentLive useRegPressure =
          some best ∧
        ∀ done, done <+: (st.ddg.node best).successors → SoundQueue g.nodes
          (done.foldl (releaseSuccessor F) (st.ddg, st.readyQueue.erase best)))) ∧
    ∃ schedule peak', listSchedule F universeIndex liveness g currentLive useRegPressure statsOn
        peak = some (schedule, peak') ∧
      schedule.Nodup ∧
      (∀ n, n ∈ schedule ↔ ∀ m, g.ReachesVia m n →
        (m ∈ g.nodes ∧ (F.instr m).isTerminator = false ∧ (F.instr m).isPHI = false) ∧
          ¬ Relation.TransGen g.Edge m m) ∧
      ∀ p n, g.Edge p n → n ∈ schedule → [p, n] <+ schedule := by
  constructor
  · intro st hst
    have hinv := hst.inv hg
    refine ⟨hinv.soundQueue, ?_⟩
    intro hne
    obtain ⟨best, hpick⟩ := hinv.exists_pickBest universeIndex liveness useRegPressure hcp hne
    have hbest := mem_of_pickBest hpick
    exact ⟨best, hbest, hpick, fun done hdone => hinv.soundQueue_release hg hbest hdone⟩
  · obtain ⟨schedule, peak', hrun, hsched⟩ := listSchedule_spec (F := F) universeIndex liveness
      useRegPressure statsOn hg hcp currentLive peak
    refine ⟨schedule, peak', hrun, hsched.nodup, ?_, hsched.ordered⟩
    intro n
    rw [(hsched.isReleaseOrder hg).mem_iff_ancestors fun a b hab => (hg.edge_mem hab).1]
    simp only [isSchedulable_iff]

/-- The block of the counting loop, with the cycle through its PHI. -/
def countingLoopGraph : DDG :=
  (DDG.ofNodes countingLoop [1, 2, 3]).addEdges [(2, 1), (1, 2), (2, 3)]

theorem countingLoopGraph_exact : countingLoopGraph.WellBuilt ∧
    ∃ schedule peak', listSchedule countingLoop (fun _ => none) (fun _ => ⟨∅, ∅, ∅, ∅⟩)
        countingLoopGraph ∅ true false 0 = some (schedule, peak') ∧
      schedule.Nodup ∧
      (∀ n, n ∈ schedule ↔ ∀ m, countingLoopGraph.ReachesVia m n →
        (m ∈ countingLoopGraph.nodes ∧ (countingLoop.instr m).isTerminator = false ∧
          (countingLoop.instr m).isPHI = false) ∧
          ¬ Relation.TransGen countingLoopGraph.Edge m m) ∧
      ∀ p n, countingLoopGraph.Edge p n → n ∈ schedule → [p, n] <+ schedule := by
  have hg : countingLoopGraph.WellBuilt :=
    DDG.WellBuilt.addEdges (DDG.wellBuilt_ofNodes (by decide)) (by decide)
  have hcp : ∀ n ∈ countingLoopGraph.nodes, 0 ≤ (countingLoopGraph.node n).criticalPath := by decide
  exact ⟨hg, (listSchedule_exact countingLoop (fun _ => none) (fun _ => ⟨∅, ∅, ∅, ∅⟩) true false ∅ 0
    hg hcp).2⟩

end TraceScheduler
