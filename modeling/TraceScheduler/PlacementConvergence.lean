import TraceScheduler.Library.Descent
import TraceScheduler.PassPipeline

/-!
# Repeated runs

Running the scheduler again may move more: what a later trace has hoisted is an operand in an earlier
one, and profiles and budgets may change between runs.  But instructions only move up the dominator
tree.  So their distances from the entry (`height`) bound the number of runs that move anything, over
all pipelines, and a pipeline that goes on forever moves nothing from some run on.
-/

namespace TraceScheduler

open scoped List

/-- The blocks that strictly dominate a block. -/
def dominatorsAbove (F : Function) (b : BasicBlock) : Finset BasicBlock :=
  F.blocks.toFinset.filter fun a => a ≠ b ∧ F.cfg.dominatesB F.blocks a b = true

/-- How far the instructions of `F` that may move are from the entry, at their places in `M`. -/
def height (F M : Function) : ℕ :=
  (((F.blocks.flatMap F.body).filter fun i => !F.isAnchor i).map fun i =>
    (dominatorsAbove F (M.getParent i)).card).sum

/-- Some instruction has left its block. -/
def Moves (M M' : Function) : Prop := ∃ i b, i ∈ M.body b ∧ i ∉ M'.body b

variable {F M M' : Function} {P : InstrId → BasicBlock → BasicBlock → Prop} {a b : BasicBlock}
  {i : InstrId}

theorem mem_dominatorsAbove (hwf : F.WellFormed) :
    a ∈ dominatorsAbove F b ↔ a ∈ F.blocks ∧ F.cfg.StrictlyDominates a b := by
  rw [dominatorsAbove, Finset.mem_filter, List.mem_toFinset, FlowGraph.StrictlyDominates,
    FlowGraph.dominatesB_iff Function.entry_mem_blocks fun u _ v hv => hwf.succs_mem u v hv]

/-- A dominator has fewer blocks above it. -/
theorem dominatorsAbove_card_lt (hwf : F.WellFormed) (h : F.cfg.StrictlyDominates a b)
    (hb : F.cfg.Reachable b) : (dominatorsAbove F a).card < (dominatorsAbove F b).card := by
  have ha := h.2.reachable hb
  have hmem : ∀ {c}, F.cfg.Reachable c → c ∈ F.blocks := by
    intro c hc
    exact hc.closed Function.entry_mem_blocks fun u v _ hv => hwf.succs_mem u v hv
  apply Finset.card_lt_card
  rw [Finset.ssubset_iff_of_subset]
  · refine ⟨a, (mem_dominatorsAbove hwf).mpr ⟨hmem ha, h⟩, fun hself => ?_⟩
    exact ((mem_dominatorsAbove hwf).mp hself).2.1 rfl
  · intro c hc
    obtain ⟨hcb, hca⟩ := (mem_dominatorsAbove hwf).mp hc
    refine (mem_dominatorsAbove hwf).mpr ⟨hcb, ?_, hca.2.trans h.2⟩
    rintro rfl
    exact h.1 (h.2.antisymm hca.2 ha)

variable {P' : InstrId → BasicBlock → BasicBlock → Prop}

/-- What further edits do to one instruction. -/
theorem Motions.dominatorsAbove_le (hwf : F.WellFormed) (h : Motions P F M) (h' : Motions P' M M')
    (hi : i ∈ M.body b) :
    (dominatorsAbove F (M'.getParent i)).card ≤ (dominatorsAbove F (M.getParent i)).card ∧
      (i ∉ M'.body b →
        (dominatorsAbove F (M'.getParent i)).card < (dominatorsAbove F (M.getParent i)).card) := by
  have hM := h.wellFormed hwf
  have hM' := h'.wellFormed hM
  obtain ⟨b', hi'⟩ := (h'.exists_mem hM).mpr ⟨b, hi⟩
  rw [hM.getParent_eq hi, hM'.getParent_eq hi']
  rcases h'.dominates hM hi hi' with rfl | ⟨hdom, hreach⟩
  · exact ⟨Nat.le_refl _, fun hnot => absurd hi' hnot⟩
  · rw [h.cfg_eq hwf] at hdom hreach
    have hlt := dominatorsAbove_card_lt hwf hdom hreach
    exact ⟨Nat.le_of_lt hlt, fun _ => hlt⟩

/-- **Edits lower the height**, as soon as an instruction leaves its block. -/
theorem Motions.height_le (hwf : F.WellFormed) (h : Motions P F M) (h' : Motions P' M M') :
    height F M' ≤ height F M ∧ (Moves M M' → height F M' < height F M) := by
  have hM := h.wellFormed hwf
  have hplaced : ∀ i ∈ (F.blocks.flatMap F.body).filter fun i => !F.isAnchor i,
      ∃ b, i ∈ M.body b := by
    intro i hi
    obtain ⟨b, _, hb⟩ := List.mem_flatMap.mp (List.mem_filter.mp hi).1
    exact (h.exists_mem hwf).mpr ⟨b, hb⟩
  have hle : ∀ i ∈ (F.blocks.flatMap F.body).filter fun i => !F.isAnchor i,
      (dominatorsAbove F (M'.getParent i)).card ≤ (dominatorsAbove F (M.getParent i)).card := by
    intro i hi
    obtain ⟨b, hb⟩ := hplaced i hi
    exact (h.dominatorsAbove_le hwf h' hb).1
  refine ⟨List.sum_le_sum hle, ?_⟩
  rintro ⟨i, b, hb, hleft⟩
  obtain ⟨b₀, hb₀⟩ := (h.exists_mem hwf).mp ⟨b, hb⟩
  have hanchor : F.isAnchor i = false := by
    rw [← h.isAnchor_eq]
    by_contra hanchor
    rw [Bool.not_eq_false] at hanchor
    exact hleft ((h'.mem_of_anchor hM hanchor).mpr hb)
  have hmem : i ∈ (F.blocks.flatMap F.body).filter fun i => !F.isAnchor i :=
    List.mem_filter.mpr ⟨List.mem_flatMap.mpr ⟨b₀, hwf.mem_blocks hb₀, hb₀⟩, by simp [hanchor]⟩
  exact List.sum_lt_sum _ _ hle ⟨i, hmem, (h.dominatorsAbove_le hwf h' hb).2 hleft⟩

/-! ### An endless pipeline -/

variable {env : SchedEnv} {FAM : FunctionAnalysisManager}

/-- One more pass. -/
theorem runPasses_concat {FPM : FunctionPassManager} {pass : SchedulerPass}
    (hM : runPasses env FAM FPM F = some M) (hM' : runPass env FAM M pass = some M') :
    runPasses env FAM (FPM ++ [pass]) F = some M' := by
  rw [runPasses] at hM
  rw [runPasses, List.foldlM_append, hM]
  simpa using hM'

/-- The functions between the passes of an endless pipeline. -/
theorem runPasses_states (hF : Schedulable F) (env : SchedEnv) (FAM : FunctionAnalysisManager)
    (passes : ℕ → SchedulerPass) : ∃ states : ℕ → Function,
      (∀ n, runPasses env FAM ((List.range n).map passes) F = some (states n)) ∧
      (∀ n, Motions (fun i _ _ => FAM.Speculates F i) F (states n)) ∧
      ∀ n, Motions (fun i _ _ => FAM.Speculates (states n) i) (states n) (states (n + 1)) := by
  choose states hrun hmotions using fun n => runPasses_spec hF env FAM ((List.range n).map passes)
  refine ⟨states, hrun, hmotions, fun n => ?_⟩
  obtain ⟨M', hpass, hstep⟩ := runPass_spec ((hmotions n).schedulable hF) env FAM (passes n)
  have hnext := runPasses_concat (hrun n) hpass
  rw [← List.map_singleton, ← List.map_append, ← List.range_succ, hrun (n + 1)] at hnext
  rw [Option.some.inj hnext]
  exact hstep

theorem not_moves_iff (hM : M.WellFormed) (h : Motions P M M') :
    ¬ Moves M M' ↔ ∀ i b, i ∈ M'.body b ↔ i ∈ M.body b := by
  constructor
  · intro hstay i b
    have hkept : ∀ b, i ∈ M.body b → i ∈ M'.body b := by
      intro b hb
      by_contra hleft
      exact hstay ⟨i, b, hb, hleft⟩
    refine ⟨fun hb => ?_, hkept b⟩
    obtain ⟨b₀, hb₀⟩ := (h.exists_mem hM).mp ⟨b, hb⟩
    exact (h.wellFormed hM).body_unique hb (hkept b₀ hb₀) ▸ hb₀
  · rintro hsame ⟨i, b, hb, hleft⟩
    exact hleft ((hsame i b).mpr hb)

open Classical in
/-- **Repeated runs come to rest.** However many passes are run one after the other, and whatever the
profiles say, only so many of them move an instruction to another block as the height of the function
allows; and an endless pipeline moves nothing from some pass on. -/
theorem passPipeline_converges (hF : Schedulable F) (env : SchedEnv) (FAM : FunctionAnalysisManager)
    (passes : ℕ → SchedulerPass) :
    ∃ states : ℕ → Function,
      (∀ n, runPasses env FAM ((List.range n).map passes) F = some (states n)) ∧
      (∀ n, ((Finset.range n).filter fun k => Moves (states k) (states (k + 1))).card ≤ height F F) ∧
      ∃ N, ∀ n, N ≤ n → ∀ i b, i ∈ (states n).body b ↔ i ∈ (states N).body b := by
  obtain ⟨states, hrun, hmotions, hstep⟩ := runPasses_states hF env FAM passes
  have hle : ∀ k, height F (states (k + 1)) ≤ height F (states k) :=
    fun k => ((hmotions k).height_le hF.wf (hstep k)).1
  have hlt : ∀ k, Moves (states k) (states (k + 1)) →
      height F (states (k + 1)) < height F (states k) :=
    fun k => ((hmotions k).height_le hF.wf (hstep k)).2
  have hstart : states 0 = F := Option.some.inj (hrun 0).symm
  refine ⟨states, hrun, fun n => ?_, ?_⟩
  · have hcount := card_steps_le (μ := fun k => height F (states k)) hle hlt n
    rw [hstart] at hcount
    omega
  · obtain ⟨N, hN⟩ := eventually_no_step (μ := fun k => height F (states k)) hle hlt
    refine ⟨N, fun n hn => ?_⟩
    induction n, hn using Nat.le_induction with
    | base => exact fun _ _ => Iff.rfl
    | succ n hn ih =>
      have hwf := (hmotions n).wellFormed hF.wf
      have hsame := (not_moves_iff hwf (hstep n)).mp (hN n hn)
      exact fun i b => (hsame i b).trans (ih i b)

theorem twoBlocks_converges : height twoBlocks twoBlocks = 1 ∧ ∃ states : ℕ → Function,
    (∀ n, runPasses ⟨none, none, false⟩ straightAnalyses
      ((List.range n).map fun _ => .globalSchedulerPass true) twoBlocks = some (states n)) ∧
    ∃ N, ∀ n, N ≤ n → ∀ i b, i ∈ (states n).body b ↔ i ∈ (states N).body b := by
  obtain ⟨states, hrun, _, hrest⟩ := passPipeline_converges ⟨twoBlocks_wellFormed, twoBlocks_ssa⟩
    ⟨none, none, false⟩ straightAnalyses fun _ => .globalSchedulerPass true
  exact ⟨by decide, states, hrun, hrest⟩

end TraceScheduler
