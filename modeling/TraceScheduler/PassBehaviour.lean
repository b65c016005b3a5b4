import TraceScheduler.MotionBehaviour
import TraceScheduler.SchedulerPass

/-!
# The passes preserve behaviour

Both passes refine legal code motion, and legal code motion preserves behaviour.  For the global pass
that is the behaviour of the whole function, under the one thing its hoists rest on: an instruction
that LLVM calls safe to speculate does not trap.  The local pass hoists nothing, and preserves each
reachable block from any state in which it is entered.
-/

namespace TraceScheduler

open scoped List

variable {V W : Type*} {F : Function} {sem : Semantics V W} {args : ℕ → V}

/-- **The global pass preserves behaviour.** Of a call without undefined behaviour, the result of the
pass shows the same blocks, operations, operands, results and world, step by step, and returns the
same; it does not trap.  The speculation query promises only that an instruction does not trap,
whatever the values of its operands. -/
theorem globalSchedulerPass_behaviour (hwf : F.WellFormed) (hssa : F.SSADominance)
    (usePressure : Bool) (env : SchedEnv) (profile : Profile) (A : Analyses F.cfg)
    (hsafe : ∀ F₁ i t, A.isSafeToSpeculativelyExecute F₁ i t = true →
      ∀ names, (sem.eval i (operandValues F sem args names i)).isSome)
    {w : W} (hub : NoUndefinedBehaviour F sem args w) :
    ∃ st, globalSchedulerPass usePressure env F profile A = some st ∧
      NoUndefinedBehaviour st.trail.current sem args w ∧
      (∀ n, ∃ m, (runSteps st.trail.current sem args w m).observe =
        (runSteps F sem args w n).observe) ∧
      ∀ n, ∃ m, (runSteps F sem args w m).observe =
        (runSteps st.trail.current sem args w n).observe := by
  obtain ⟨st, _, _, traces, hrun, hspec⟩ :=
    globalSchedulerPass_spec ⟨hwf, hssa⟩ usePressure env profile A
  have hsched : Rescheduled (fun i => ∃ F₁ t, A.isSafeToSpeculativelyExecute F₁ i t = true) F
      st.trail.current := by
    refine hspec.steps.current.rescheduled hwf hssa fun i src dst hP => ?_
    obtain ⟨_, _, _, _, _, _, _, hspeculate⟩ := hP
    exact hspeculate
  refine ⟨st, hrun, hsched.behaviour ?_ hub⟩
  rintro i ⟨F₁, t, hspeculate⟩
  exact hsafe F₁ i t hspeculate

/-- **The local pass preserves every reachable block**, whatever the liveness result.  Entered from
anywhere in any state, a block that has an execution has the same one afterwards: the same value of
every name, the same world, the same operations with the same operands, the same way out.  And an
operand defined in the block still stands before its user. -/
theorem runLocalScheduler_execBlock (hwf : F.WellFormed) (hssa : F.SSADominance)
    (livenessResult : LivenessResult) (universeIndex : Value → Option ℕ) (statsOn : Bool)
    {b : BasicBlock} (hb : F.cfg.Reachable b) :
    ∃ tr peak, runLocalScheduler livenessResult universeIndex statsOn F = some (tr, peak) ∧
      (∀ (sem : Semantics V W) (args : ℕ → V) (prev : Option BasicBlock) (s : State V W),
        execBlock F sem args prev b s ≠ .trapped →
          execBlock tr.current sem args prev b s = execBlock F sem args prev b s) ∧
      ∀ u ∈ tr.current.body b, ∀ d ∈ tr.current.body b, (F.instr u).isPHI = false → F.Uses u d →
        [d, u] <+ tr.current.body b := by
  obtain ⟨tr, peak, hrun, hsteps⟩ := runLocalScheduler_spec hwf livenessResult universeIndex statsOn
  have hmotions : Motions (fun _ _ _ => False) F tr.current := hsteps.current
  refine ⟨tr, peak, hrun, fun sem args prev s hub => ?_, fun u hu d hd hphi huse => ?_⟩
  · exact hmotions.execBlock_eq hwf hssa hb hub
  · have hb' : tr.current.cfg.Reachable b := by
      rw [hmotions.cfg_eq hwf]
      exact hb
    refine sublist_of_uses (hmotions.wellFormed hwf) (hmotions.ssa hwf hssa) hb' hu ?_ ?_ hd
    · rw [hmotions.sameCode.instr]
      exact hphi
    · rw [Function.Uses, hmotions.sameCode.instr]
      exact huse

/-! ### A semantics to instantiate them at -/

/-- Every instruction yields a number, `1` branches to the second block and `3` returns. -/
def counting : Semantics ℕ Unit where
  constant n := n
  poison := 0
  eval _ vals := some (vals.sum + 1)
  anchor _ _ w := .value 0 w
  terminator i vals w := if i = 1 then .branch 1 0 w else .ret vals.sum w

theorem counting_running : ∀ n < 4,
    (runSteps twoBlocks counting (fun _ => 0) () n).status = .running
  | 0, _ => rfl
  | 1, _ => rfl
  | 2, _ => rfl
  | 3, _ => rfl

theorem counting_returned (n : ℕ) :
    (runSteps twoBlocks counting (fun _ => 0) () (n + 4)).status = .returned 2 := by
  have hfix : step twoBlocks counting (fun _ => 0) (runSteps twoBlocks counting (fun _ => 0) () 4) =
      runSteps twoBlocks counting (fun _ => 0) () 4 := rfl
  rw [runSteps, Function.iterate_add_apply, ← runSteps, Function.iterate_fixed hfix n]
  rfl

theorem counting_noUndefinedBehaviour :
    NoUndefinedBehaviour twoBlocks counting (fun _ => 0) () := by
  intro n htrap
  rcases Nat.lt_or_ge n 4 with h | h
  · rw [counting_running n h] at htrap
    cases htrap
  · obtain ⟨k, rfl⟩ := Nat.exists_eq_add_of_le' h
    rw [counting_returned k] at htrap
    cases htrap

theorem twoBlocks_behaviour : NoUndefinedBehaviour twoBlocks counting (fun _ => 0) () ∧
    ∃ st, globalSchedulerPass false ⟨none, none, false⟩ twoBlocks certain twoBlocksAnalyses = some st ∧
      ∀ n, ∃ m, (runSteps twoBlocks counting (fun _ => 0) () m).observe =
        (runSteps st.trail.current counting (fun _ => 0) () n).observe := by
  obtain ⟨st, hrun, _, _, hback⟩ := globalSchedulerPass_behaviour twoBlocks_wellFormed twoBlocks_ssa
    false ⟨none, none, false⟩ certain twoBlocksAnalyses (fun _ _ _ _ _ => rfl)
    counting_noUndefinedBehaviour
  exact ⟨counting_noUndefinedBehaviour, st, hrun, hback⟩

theorem twoBlocks_execBlock : ∃ tr peak,
    runLocalScheduler (fun _ => ⟨∅, ∅, ∅, ∅⟩) (fun _ => none) true twoBlocks = some (tr, peak) ∧
      ∀ s, execBlock tr.current counting (fun _ => 0) none 0 s =
        execBlock twoBlocks counting (fun _ => 0) none 0 s := by
  obtain ⟨tr, peak, hrun, hexec, _⟩ := runLocalScheduler_execBlock (V := ℕ) (W := Unit)
    twoBlocks_wellFormed twoBlocks_ssa (fun _ => ⟨∅, ∅, ∅, ∅⟩) (fun _ => none) true
    (FlowGraph.Reachable.entry (G := twoBlocks.cfg))
  exact ⟨tr, peak, hrun, fun s => hexec counting (fun _ => 0) none s fun h => by cases h⟩
end TraceScheduler
