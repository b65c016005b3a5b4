import TraceScheduler.CodeMotion
import TraceScheduler.ListScheduler

/-!
# The local scheduler

Each block gets a graph of its own.  `buildLocalDDG` differs from `buildDDG` in what it covers: PHIs
and terminators are nodes here, and operands make edges from and to them as well.  So an instruction
that depends on a PHI of its block never becomes ready and the schedule may be partial; the region
rewriter then leaves the regions it does not cover as they are.

For correctness that does not matter: an operand of the block is scheduled before its user whenever
the user is scheduled at all (`localSchedule_respectsUses`), so the whole pass is a sequence of legal
rearrangements (`runLocalScheduler_spec`).
-/

namespace TraceScheduler

open scoped List

/-- Edges from every operand defined in the block. -/
def localDependenceEdges (F : Function) (bb : BasicBlock) : List (InstrId × InstrId) :=
  (F.body bb).flatMap fun i =>
    ((operandInstructions (F.instr i)).filter fun d => (F.body bb).contains d).map fun d => (d, i)

/-- The graph of one block. -/
def buildLocalDDG (F : Function) (bb : BasicBlock) : DDG :=
  ((DDG.ofNodes F (F.body bb)).addEdges (localDependenceEdges F bb)).addEdges
    (memoryOrderEdges F [] (F.body bb))

def applyLocalSchedule (schedule : List InstrId) (bb : BasicBlock) (tr : Trail) : Trail :=
  reorderBlockWithinRegions schedule bb tr

section

variable (livenessResult : LivenessResult) (universeIndex : Value → Option ℕ) (statsOn : Bool)

/-- One block: graph, critical paths, schedule, rewriting. -/
def scheduleBlock (acc : Trail × ℕ) (bb : BasicBlock) : Option (Trail × ℕ) := do
  let F := acc.1.current
  let ddg ← (buildLocalDDG F bb).computeCriticalPath
  let (schedule, peak) ← listSchedule F universeIndex livenessResult ddg
    (livenessResult bb).inSet true statsOn acc.2
  some (applyLocalSchedule schedule bb acc.1, peak)

/-- All blocks, one after the other. -/
def runLocalScheduler (F : Function) : Option (Trail × ℕ) :=
  F.blocks.foldlM (scheduleBlock livenessResult universeIndex statsOn) (Trail.start F, 0)

end

/-! ### The graph of a block -/

variable {F : Function} {bb : BasicBlock} {a b i : InstrId} {livenessResult : LivenessResult}
  {universeIndex : Value → Option ℕ} {statsOn : Bool}

theorem mem_localDependenceEdges : (a, b) ∈ localDependenceEdges F bb ↔
    a ∈ F.body bb ∧ b ∈ F.body bb ∧ F.Uses b a := by
  simp only [localDependenceEdges, List.mem_flatMap, List.mem_map, List.mem_filter,
    mem_operandInstructions, List.contains_iff_mem, Prod.mk.injEq]
  constructor
  · rintro ⟨i, hi, d, ⟨huse, hd⟩, rfl, rfl⟩
    exact ⟨hd, hi, huse⟩
  · rintro ⟨ha, hb, huse⟩
    exact ⟨b, hb, a, ⟨huse, ha⟩, rfl, rfl⟩

theorem edge_buildLocalDDG : (buildLocalDDG F bb).Edge a b ↔
    (a, b) ∈ localDependenceEdges F bb ∨ (a, b) ∈ memoryOrderEdges F [] (F.body bb) := by
  rw [buildLocalDDG, DDG.edge_addEdges, DDG.edge_addEdges]
  simp [DDG.not_edge_ofNodes]

@[simp] theorem buildLocalDDG_nodes : (buildLocalDDG F bb).nodes = F.body bb := by
  rw [buildLocalDDG, DDG.addEdges_nodes, DDG.addEdges_nodes]
  rfl

theorem buildLocalDDG_delay : ((buildLocalDDG F bb).node i).delay = getDelay (F.instr i) := by
  rw [buildLocalDDG, DDG.addEdges_delay, DDG.addEdges_delay]
  rfl

theorem buildLocalDDG_criticalPath : ((buildLocalDDG F bb).node i).criticalPath = 0 := by
  rw [buildLocalDDG, DDG.addEdges_criticalPath, DDG.addEdges_criticalPath]
  rfl

theorem wellBuilt_buildLocalDDG (hnd : (F.body bb).Nodup) : (buildLocalDDG F bb).WellBuilt := by
  refine DDG.WellBuilt.addEdges (DDG.WellBuilt.addEdges (DDG.wellBuilt_ofNodes hnd) ?_) ?_
  · rintro ⟨a, b⟩ hab
    obtain ⟨ha, hb, _⟩ := mem_localDependenceEdges.mp hab
    exact ⟨ha, hb⟩
  · rintro ⟨a, b⟩ hab
    rw [DDG.addEdges_nodes]
    obtain ⟨_, ⟨hnil, _⟩ | ⟨_, hsub⟩⟩ := mem_memoryOrderEdges.mp hab
    · cases hnil
    · exact ⟨hsub.subset List.mem_cons_self, hsub.subset (by simp)⟩

/-! ### The pass -/

variable (livenessResult universeIndex statsOn) in
/-- The schedule of a block exists, whatever the liveness result. -/
theorem localSchedule_exists (hnd : (F.body bb).Nodup) (currentLive : Finset ℕ) (peak : ℕ) :
    ∃ ddg schedule peak', (buildLocalDDG F bb).computeCriticalPath = some ddg ∧
      listSchedule F universeIndex livenessResult ddg currentLive true statsOn peak =
        some (schedule, peak') ∧ IsListSchedule F (buildLocalDDG F bb) schedule := by
  apply listSchedule_of_wellBuilt universeIndex livenessResult true statsOn
    (wellBuilt_buildLocalDDG hnd)
  · intro n
    rw [buildLocalDDG_delay]
    exact Int.le_of_lt (getDelay_pos _)
  · exact fun n => buildLocalDDG_criticalPath

/-- An operand of the block is scheduled before its user. -/
theorem localSchedule_respectsUses {schedule : List InstrId}
    (h : IsListSchedule F (buildLocalDDG F bb) schedule) : RespectsUses F schedule bb := by
  intro u hu d hd _ _ huse hus _
  exact h.ordered d u (edge_buildLocalDDG.mpr (.inl (mem_localDependenceEdges.mpr ⟨hd, hu, huse⟩))) hus

variable (livenessResult universeIndex statsOn) in
theorem scheduleBlock_spec {acc : Trail × ℕ} (hwf : acc.1.current.WellFormed) (bb : BasicBlock) :
    ∃ acc', scheduleBlock livenessResult universeIndex statsOn acc bb = some acc' ∧
      Trail.Steps (fun _ _ _ => False) acc.1 acc'.1 := by
  obtain ⟨ddg, schedule, peak', hddg, hrun, hsched⟩ := localSchedule_exists (F := acc.1.current)
    livenessResult universeIndex statsOn (hwf.body_nodup bb) (livenessResult bb).inSet acc.2
  refine ⟨(applyLocalSchedule schedule bb acc.1, peak'), ?_, ?_⟩
  · rw [scheduleBlock]
    simp only [hddg, Option.bind_eq_bind, Option.bind_some, hrun]
  · exact reorderBlockWithinRegions_steps hsched.nodup hwf (localSchedule_respectsUses hsched)

variable (livenessResult universeIndex statsOn) in
/-- Any list of blocks. -/
theorem foldlM_scheduleBlock_spec (bbs : List BasicBlock) (acc : Trail × ℕ)
    (hwf : acc.1.current.WellFormed) :
    ∃ acc', bbs.foldlM (scheduleBlock livenessResult universeIndex statsOn) acc = some acc' ∧
      Trail.Steps (fun _ _ _ => False) acc.1 acc'.1 := by
  induction bbs generalizing acc with
  | nil => exact ⟨acc, rfl, .refl _⟩
  | cons bb bbs ih =>
    obtain ⟨acc₁, hstep, hsteps₁⟩ := scheduleBlock_spec livenessResult universeIndex statsOn hwf bb
    obtain ⟨acc₂, hrun, hsteps₂⟩ := ih acc₁ (hsteps₁.current.wellFormed hwf)
    refine ⟨acc₂, ?_, hsteps₁.trans hsteps₂⟩
    rw [List.foldlM_cons, hstep]
    exact hrun

/-- **The local pass ends, and rearranges regions only.** -/
theorem runLocalScheduler_spec (hwf : F.WellFormed) (livenessResult : LivenessResult)
    (universeIndex : Value → Option ℕ) (statsOn : Bool) :
    ∃ tr peak, runLocalScheduler livenessResult universeIndex statsOn F = some (tr, peak) ∧
      Trail.Steps (fun _ _ _ => False) (Trail.start F) tr := by
  obtain ⟨⟨tr, peak⟩, hrun, hsteps⟩ := foldlM_scheduleBlock_spec livenessResult universeIndex
    statsOn F.blocks (Trail.start F, 0) hwf
  exact ⟨tr, peak, hrun, hsteps⟩

end TraceScheduler
