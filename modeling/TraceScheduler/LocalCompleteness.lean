import TraceScheduler.LivenessDominance
import TraceScheduler.LocalGlobal

/-!
# When the local schedule is complete

In the graph of a block PHIs are nodes with edges, and they never enter the ready queue.  Nothing that
uses a PHI of its own block is ever released, nor anything that depends on such a user, and a region
with one such instruction is left as it is.  That is the only way to lose an instruction
(`localSchedule_complete_iff`): terminators come last and are used by nothing in their block, and the
edges into schedulable nodes run forward in the block.
-/

namespace TraceScheduler

open scoped List

variable {F : Function} {bb : BasicBlock} {a b i d : InstrId}

/-- A member of `bb` that is neither a PHI nor a terminator. -/
def Function.IsOrdinary (F : Function) (bb : BasicBlock) (i : InstrId) : Prop :=
  i ∈ F.body bb ∧ (F.instr i).isPHI = false ∧ (F.instr i).isTerminator = false

/-- No ordinary instruction of `bb` reads a PHI of `bb`. -/
def Function.NoPhiUsers (F : Function) (bb : BasicBlock) : Prop :=
  ∀ i d, F.IsOrdinary bb i → d ∈ F.body bb → (F.instr d).isPHI = true → ¬ F.Uses i d

section

variable (hwf : F.WellFormed) (hssa : F.SSADominance) (hbb : F.cfg.Reachable bb)

include hwf hssa hbb

/-- Operands stand before their users. -/
theorem operand_before (ha : a ∈ F.body bb) (hb : b ∈ F.body bb) (hphi : (F.instr b).isPHI = false)
    (huse : F.Uses b a) : [a, b] <+ F.body bb := by
  cases hssa.above hwf hbb hb hphi huse with
  | inl hbefore => exact hbefore
  | inr hdom =>
    obtain ⟨ba, ha', hdom⟩ := hdom
    exact absurd (hwf.body_unique ha' ha) hdom.1

/-- Edges into anything but a PHI run forward in the block. -/
theorem localEdge_before (hedge : (buildLocalDDG F bb).Edge a b) (hphi : (F.instr b).isPHI = false) :
    [a, b] <+ F.body bb := by
  cases edge_buildLocalDDG.mp hedge with
  | inl hdep =>
    obtain ⟨ha, hb, huse⟩ := mem_localDependenceEdges.mp hdep
    exact operand_before hwf hssa hbb ha hb hphi huse
  | inr hmem =>
    obtain ⟨_, hcase⟩ := mem_memoryOrderEdges.mp hmem
    cases hcase with
    | inl hnil => cases hnil.1
    | inr hsub => exact hsub.2

/-- What a schedulable node waits for is schedulable, unless it is a PHI that the node reads. -/
theorem localEdge_schedulable (hedge : (buildLocalDDG F bb).Edge a b)
    (hs : isSchedulable F b = true) :
    isSchedulable F a = true ∨ ((F.instr a).isPHI = true ∧ a ∈ F.body bb ∧ F.Uses b a) := by
  have hbefore := localEdge_before hwf hssa hbb hedge (isSchedulable_iff.mp hs).2
  have hterm := hwf.not_isTerminator_of_before hbefore
  cases hphi : (F.instr a).isPHI with
  | false => exact .inl (isSchedulable_iff.mpr ⟨hterm, hphi⟩)
  | true =>
    right
    cases edge_buildLocalDDG.mp hedge with
    | inl hdep =>
      obtain ⟨ha, _, huse⟩ := mem_localDependenceEdges.mp hdep
      exact ⟨rfl, ha, huse⟩
    | inr hmem =>
      have hends := memoryOrderEdge_ends hwf hmem
      rw [(isSchedulable_iff.mp hends.1).2] at hphi
      cases hphi

/-- A local schedule holds every ordinary instruction exactly when none of them reads a PHI of the
block. -/
theorem IsListSchedule.local_complete_iff {schedule : List InstrId}
    (h : IsListSchedule F (buildLocalDDG F bb) schedule) :
    (∀ i, F.IsOrdinary bb i → i ∈ schedule) ↔ F.NoPhiUsers bb := by
  have hbuilt := wellBuilt_buildLocalDDG (hwf.body_nodup bb)
  constructor
  · intro hall i d hi hd hphi huse
    have hedge : (buildLocalDDG F bb).Edge d i :=
      edge_buildLocalDDG.mpr (.inl (mem_localDependenceEdges.mpr ⟨hd, hi.1, huse⟩))
    -- the PHI would have to be scheduled first
    have hdsched := ((h.mem_iff i).mp (hall i hi)).2.2 d (hbuilt.mem_predecessors.mpr hedge)
    have hs := ((h.mem_iff d).mp hdsched).2.1
    rw [(isSchedulable_iff.mp hs).2] at hphi
    cases hphi
  · intro hnone i hi
    apply h.complete hbuilt fun n => (F.body bb).idxOf n
    · intro a b hedge hs
      exact idxOf_lt_of_sublist_pair (hwf.body_nodup bb)
        (localEdge_before hwf hssa hbb hedge (isSchedulable_iff.mp hs).2)
    · intro a b hedge hs
      apply (localEdge_schedulable hwf hssa hbb hedge hs).resolve_right
      intro hphi
      have hb : F.IsOrdinary bb b :=
        ⟨(localEdge_before hwf hssa hbb hedge (isSchedulable_iff.mp hs).2).subset (by simp),
          (isSchedulable_iff.mp hs).2, (isSchedulable_iff.mp hs).1⟩
      exact hnone b a hb hphi.2.1 hphi.1 hphi.2.2
    · rw [buildLocalDDG_nodes]
      exact hi.1
    · exact isSchedulable_iff.mpr ⟨hi.2.2, hi.2.1⟩

end

/-- **The local schedule is complete exactly when no ordinary instruction reads a PHI of the block**,
and then it covers every region. -/
theorem localSchedule_complete_iff (hwf : F.WellFormed) (hssa : F.SSADominance)
    (hbb : F.cfg.Reachable bb) :
    ∃ ddg, (buildLocalDDG F bb).computeCriticalPath = some ddg ∧
      ∀ universeIndex liveness currentLive statsOn peak, ∃ schedule peak',
        listSchedule F universeIndex liveness ddg currentLive true statsOn peak =
          some (schedule, peak') ∧
        (((∀ i, F.IsOrdinary bb i → schedule.count i = 1) ∧
          (∀ i ∈ schedule, F.IsOrdinary bb i) ∧
          ∀ region boundary, (region, boundary) ∈ collectRegions F (F.body bb) [] →
            (orderRegion schedule region).length = region.length) ↔ F.NoPhiUsers bb) := by
  obtain ⟨ddg, hddg⟩ :=
    DDG.computeCriticalPath_isSome (wellBuilt_buildLocalDDG (F := F) (hwf.body_nodup bb))
  refine ⟨ddg, hddg, ?_⟩
  intro universeIndex liveness currentLive statsOn peak
  obtain ⟨ddg', schedule, peak', hddg', hrun, hsched⟩ :=
    localSchedule_exists liveness universeIndex statsOn (hwf.body_nodup bb) currentLive peak
  obtain rfl := Option.some.inj (hddg.symm.trans hddg')
  refine ⟨schedule, peak', hrun, ?_⟩
  rw [← hsched.local_complete_iff hwf hssa hbb]
  constructor
  · intro h i hi
    apply List.count_pos_iff.mp
    have hcount := h.1 i hi
    omega
  · intro hall
    refine ⟨?_, ?_, ?_⟩
    · intro i hi
      exact List.count_eq_one_of_mem hsched.nodup (hall i hi)
    · intro i hi
      obtain ⟨hnode, hs, _⟩ := (hsched.mem_iff i).mp hi
      rw [buildLocalDDG_nodes] at hnode
      exact ⟨hnode, (isSchedulable_iff.mp hs).2, (isSchedulable_iff.mp hs).1⟩
    · intro region boundary hregion
      apply orderRegion_covers (hwf.body_nodup bb) _ hregion
      intro i hi hanchor
      exact hall i ⟨hi, isPHI_of_not_anchor hanchor, isTerminator_of_not_anchor hanchor⟩

theorem twoBlocks_complete_iff :
    ∃ ddg, (buildLocalDDG twoBlocks 0).computeCriticalPath = some ddg ∧
      ∀ universeIndex liveness currentLive statsOn peak, ∃ schedule peak',
        listSchedule twoBlocks universeIndex liveness ddg currentLive true statsOn peak =
          some (schedule, peak') ∧
        (((∀ i, twoBlocks.IsOrdinary 0 i → schedule.count i = 1) ∧
          (∀ i ∈ schedule, twoBlocks.IsOrdinary 0 i) ∧
          ∀ region boundary, (region, boundary) ∈ collectRegions twoBlocks (twoBlocks.body 0) [] →
            (orderRegion schedule region).length = region.length) ↔ twoBlocks.NoPhiUsers 0) :=
  localSchedule_complete_iff twoBlocks_wellFormed twoBlocks_ssa .entry

/-- The body of the counting loop is not scheduled at all. -/
theorem countingLoop_not_complete : countingLoop.WellFormed ∧ countingLoop.SSADominance ∧
    countingLoop.cfg.Reachable 1 ∧ countingLoop.IsOrdinary 1 2 ∧
    ∃ ddg livenessResult, (buildLocalDDG countingLoop 1).computeCriticalPath = some ddg ∧
      computeLiveness countingLoop = some livenessResult ∧
      listSchedule countingLoop (buildValueIndex (valueUniverse countingLoop)) livenessResult ddg
        (livenessResult 1).inSet true false 0 = some ([], 0) ∧
      ([2], some 3) ∈ collectRegions countingLoop (countingLoop.body 1) [] ∧
      (orderRegion [] [2]).length ≠ 1 := by
  refine ⟨countingLoop_verified.1, countingLoop_verified.2, .step .entry (by decide), ?_, ?_⟩
  · exact ⟨by decide, rfl, rfl⟩
  · exact ⟨_, _, rfl, rfl, rfl, by decide, by decide⟩

end TraceScheduler
