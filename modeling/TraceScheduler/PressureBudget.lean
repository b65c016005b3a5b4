import TraceScheduler.PressureDelta
import TraceScheduler.SchedulerPass

/-!
# The tracked live sets and the register budget

Phase 2 compares `count + delta` with the budget, where `delta` credits the operands that are counted
at the target and not live out of the block the instruction comes from.  The update after the move
adds the result and takes nothing away, so the count afterwards is `count + delta` plus one for each
such credit (`card_addResult`).  The budget therefore holds for the tracked sets exactly in the runs
whose hoists claim no credit (`applySchedule_budget_iff`).
-/

namespace TraceScheduler

section

variable {G : FlowGraph BasicBlock}

/-- `Q` holds of every hoist of a run of Phase 2: the state before it, the instruction and the target. -/
def AtEveryHoist (ctx : HoistContext G) (Q : HoistState → InstrId → BasicBlock → Prop) :
    List InstrId → HoistState → Prop
  | [], _ => True
  | i :: schedule, st =>
      (∀ targetBB, chosenTarget ctx st i = some targetBB → Q st i targetBB) ∧
        AtEveryHoist ctx Q schedule (hoistStep ctx st i)

variable {ctx : HoistContext G} {Q Q' : HoistState → InstrId → BasicBlock → Prop} {st : HoistState}
  {i : InstrId} {targetBB : BasicBlock} {schedule : List InstrId}

theorem AtEveryHoist.congr
    (h : ∀ st i targetBB, chosenTarget ctx st i = some targetBB →
      (Q st i targetBB ↔ Q' st i targetBB)) :
    AtEveryHoist ctx Q schedule st ↔ AtEveryHoist ctx Q' schedule st := by
  induction schedule generalizing st with
  | nil => exact Iff.rfl
  | cons i schedule ih =>
    rw [AtEveryHoist, AtEveryHoist, ih]
    apply and_congr_left
    intro _
    exact forall_congr' fun targetBB => imp_congr_right fun hchosen => h st i targetBB hchosen

/-- What the checks leave of a chosen target: it has a terminator and is within the budget. -/
theorem chosenTarget_checked (h : chosenTarget ctx st i = some targetBB) :
    (∃ t, st.trail.current.getTerminator targetBB = some t) ∧ WithinBudget ctx st i targetBB := by
  rw [chosenTarget] at h
  split at h
  · cases h
  · split at h
    · cases h
    · have hnone := List.find?_some h
      rw [Option.isNone_iff_eq_none, rejectReason] at hnone
      split at hnone
      · cases hnone
      · split at hnone
        · cases hnone
        · split at hnone
          · cases hnone
          · split at hnone
            · cases hnone
            · rename_i t ht
              refine ⟨⟨t, ht⟩, ?_⟩
              split at hnone
              · cases hnone
              · split at hnone
                · cases hnone
                · split at hnone
                  · cases hnone
                  · rename_i hpressure
                    intro huse
                    simpa [huse] using hpressure

/-! ### Counting -/

/-- The live set with the value of `i` in it. -/
def addResult (ctx : HoistContext G) (F : Function) (i : InstrId) (live : Finset ℕ) : Finset ℕ :=
  if (F.instr i).isVoidTy then live
  else
    match ctx.universeIndex (.instruction i) with
    | some idx => insert idx live
    | none => live

/-- A hoist adds the value to the live set of its target, and leaves the other sets alone. -/
theorem dynamicLive_hoistStep (h : chosenTarget ctx st i = some targetBB) :
    (hoistStep ctx st i).dynamicLive = Function.update st.dynamicLive targetBB
      (addResult ctx st.trail.current i (st.dynamicLive targetBB)) := by
  obtain ⟨⟨t, ht⟩, _⟩ := chosenTarget_checked h
  obtain ⟨stats, hstep⟩ := hoistStep_eq ctx st i
  rw [hstep, h]
  show (hoistTo ctx st i targetBB).dynamicLive = _
  rw [hoistTo, addResult]
  simp only [ht]
  split
  · rw [Function.update_eq_self]
  · cases ctx.universeIndex (.instruction i) with
    | none => rw [Function.update_eq_self]
    | some idx => rfl

theorem dynamicLive_of_none (h : chosenTarget ctx st i = none) :
    (hoistStep ctx st i).dynamicLive = st.dynamicLive := by
  obtain ⟨stats, hstep⟩ := hoistStep_eq ctx st i
  rw [hstep, h]

/-- An operand for which the pressure check claims a credit: counted in `live`, and not live out of
`bb`. -/
def earnsCredit (ctx : HoistContext G) (bb : BasicBlock) (live : Finset ℕ) (v : Value) : Bool :=
  match ctx.universeIndex v with
  | some idx => decide (idx ∈ live ∧ idx ∉ (ctx.liveness bb).outSet)
  | none => false

theorem diesIn_eq_earnsCredit (bb : BasicBlock) (live : Finset ℕ) :
    diesIn ctx.universeIndex ctx.liveness bb live = earnsCredit ctx bb live :=
  rfl

/-- **The count after the result is added** is the count and the delta, and the credits on top. -/
theorem card_addResult (ctx : HoistContext G) (F : Function) (i : InstrId) (live : Finset ℕ) :
    ((addResult ctx F i live).card : ℤ) =
      live.card + pressureDelta F ctx.universeIndex ctx.liveness i live +
        (F.instr i).operands.countP (earnsCredit ctx (F.getParent i) live) := by
  rw [pressureDelta, foldl_operandDelta, diesIn_eq_earnsCredit, addResult]
  split
  · omega
  · cases ctx.universeIndex (.instruction i) with
    | none =>
      dsimp only
      omega
    | some idx =>
      dsimp only
      split
      · rename_i hlive
        rw [Finset.insert_eq_of_mem hlive]
        omega
      · rename_i hlive
        rw [Finset.card_insert_of_notMem hlive]
        omega

/-- No operand of `i` earns a credit at the target. -/
def NoCredit (ctx : HoistContext G) (st : HoistState) (i : InstrId) (targetBB : BasicBlock) : Prop :=
  ∀ v ∈ (st.trail.current.instr i).operands,
    earnsCredit ctx (st.trail.current.getParent i) (st.dynamicLive targetBB) v = false

/-- After the hoist the target counts what the decision compared with the budget, which is at most the
budget. -/
def CountsAsDecided (ctx : HoistContext G) (st : HoistState) (i : InstrId) (targetBB : BasicBlock) :
    Prop :=
  (((hoistStep ctx st i).dynamicLive targetBB).card : ℤ) = (st.dynamicLive targetBB).card +
      pressureDelta st.trail.current ctx.universeIndex ctx.liveness i (st.dynamicLive targetBB) ∧
    (((hoistStep ctx st i).dynamicLive targetBB).card : ℤ) ≤ ctx.pressureBudget

/-- **One hoist** counts as decided exactly when it claims no credit. -/
theorem countsAsDecided_iff (huse : ctx.usePressure = true)
    (h : chosenTarget ctx st i = some targetBB) :
    CountsAsDecided ctx st i targetBB ↔ NoCredit ctx st i targetBB := by
  have hbudget := (chosenTarget_checked h).2 huse
  have hcard := card_addResult ctx st.trail.current i (st.dynamicLive targetBB)
  rw [CountsAsDecided, dynamicLive_hoistStep h, Function.update_self]
  have hzero : NoCredit ctx st i targetBB ↔ (st.trail.current.instr i).operands.countP
      (earnsCredit ctx (st.trail.current.getParent i) (st.dynamicLive targetBB)) = 0 := by
    rw [List.countP_eq_zero]
    simp only [NoCredit, Bool.not_eq_true]
  rw [hzero]
  constructor
  · intro hcount
    omega
  · intro hnone
    rw [hnone] at hcard
    constructor
    · omega
    · omega

/-- While hoists count as decided, no count exceeds both the budget and what it was. -/
theorem card_foldl_hoistStep_le {M : ℤ} (hM : ctx.pressureBudget ≤ M) {b : BasicBlock}
    (hst : ((st.dynamicLive b).card : ℤ) ≤ M)
    (h : AtEveryHoist ctx (CountsAsDecided ctx) schedule st) :
    (((schedule.foldl (hoistStep ctx) st).dynamicLive b).card : ℤ) ≤ M := by
  induction schedule generalizing st with
  | nil => exact hst
  | cons i schedule ih =>
    rw [List.foldl_cons]
    apply ih _ h.2
    cases hchosen : chosenTarget ctx st i with
    | none =>
      rw [dynamicLive_of_none hchosen]
      exact hst
    | some targetBB =>
      by_cases hb : b = targetBB
      · have hle := (h.1 targetBB hchosen).2
        rw [hb]
        omega
      · rw [dynamicLive_hoistStep hchosen, Function.update_of_ne hb]
        exact hst

theorem AtEveryHoist.of_prefix {done : List InstrId} (h : AtEveryHoist ctx Q schedule st)
    (hdone : done <+: schedule) : AtEveryHoist ctx Q done st := by
  induction done generalizing schedule st with
  | nil => trivial
  | cons i done ih =>
    obtain ⟨rest, rfl⟩ := hdone
    exact ⟨h.1, ih h.2 (List.prefix_append done rest)⟩

/-! ### A run of `applySchedule` -/

variable (A : Analyses G) (universeIndex : Value → Option ℕ) (liveness : LivenessResult)
  (usePressure : Bool) (pressureBudget : ℤ) (statsOn : Bool) (trace : List BasicBlock) (tr : Trail)
  (stats : HoistStats)

/-- The state of Phase 2 after the instructions `done`, when Phase 1 has applied `schedule`. -/
def phase2State (schedule done : List InstrId) : HoistState :=
  done.foldl
    (hoistStep (hoistContext A universeIndex liveness usePressure pressureBudget statsOn tr.current
      trace))
    ⟨reorderTrace schedule trace tr, fun bb => (liveness bb).inSet, stats⟩

/-- **The budget is respected exactly when no hoist claims a credit.** On every trace, schedule,
liveness result and budget: after every hoist the target counts what the decision compared with the
budget, and so no block of the trace ever counts more than the budget and what it began with, if and
only if no operand of a hoisted instruction is counted at its target and not live out of the block the
instruction comes from. -/
theorem applySchedule_budget_iff (schedule : List InstrId) :
    let ctx := hoistContext A universeIndex liveness true pressureBudget statsOn tr.current trace
    let state := phase2State A universeIndex liveness true pressureBudget statsOn trace tr stats schedule
    applySchedule A universeIndex liveness true pressureBudget statsOn schedule trace tr stats =
        state schedule ∧
      ((AtEveryHoist ctx (CountsAsDecided ctx) schedule (state []) ∧
        ∀ done, done <+: schedule → ∀ targetBB ∈ trace,
          (((state done).dynamicLive targetBB).card : ℤ) ≤
            max pressureBudget (((state []).dynamicLive targetBB).card : ℤ)) ↔
        AtEveryHoist ctx (NoCredit ctx) schedule (state [])) := by
  intro ctx state
  refine ⟨rfl, ?_⟩
  have hiff : AtEveryHoist ctx (CountsAsDecided ctx) schedule (state []) ↔
      AtEveryHoist ctx (NoCredit ctx) schedule (state []) :=
    AtEveryHoist.congr fun _ _ _ hchosen => countsAsDecided_iff rfl hchosen
  rw [← hiff]
  constructor
  · intro h
    exact h.1
  · intro h
    refine ⟨h, ?_⟩
    intro done hdone targetBB _
    exact card_foldl_hoistStep_le (le_max_left _ _) (le_max_right _ _) (h.of_prefix hdone)

end

/-! ### A credit that is not redeemed -/

/-- The argument is read in block `1` only, so it is live on entry to `0` and not out of `1`. -/
def readsArgument : Function :=
  .ofTables 1
    [.branch [] [1], .value .other [.argument 0], .branch [.instruction 1] []]
    [0] [[1, 2]]

theorem readsArgument_wellFormed : readsArgument.WellFormed :=
  (Function.verify_sound (by decide) rfl).1

/-- No loops, and nothing that may trap. -/
def readsArgumentAnalyses : Analyses readsArgument.cfg where
  DT := readsArgument_wellFormed.dominatorTree
  isLoopHeader _ := false
  getLoopFor _ := none
  isSafeToSpeculativelyExecute _ _ _ := true

/-- **With a budget of one the target ends up with two values.** -/
theorem readsArgument_over_budget : readsArgument.WellFormed ∧ ∃ livenessResult,
    computeLiveness readsArgument = some livenessResult ∧
    let universeIndex := buildValueIndex (valueUniverse readsArgument)
    let ctx := hoistContext readsArgumentAnalyses universeIndex livenessResult true 1 false
      readsArgument [0, 1]
    let state := phase2State readsArgumentAnalyses universeIndex livenessResult true 1 false [0, 1]
      (Trail.start readsArgument) ⟨0, 0, 0, 0, 0, 0, 0⟩ [1]
    chosenTarget ctx (state []) 1 = some 0 ∧ ¬ CountsAsDecided ctx (state []) 1 0 ∧
      ((state []).dynamicLive 0).card = 1 ∧ ((state [1]).dynamicLive 0).card = 2 := by
  refine ⟨readsArgument_wellFormed, _, rfl, ?_⟩
  intro universeIndex ctx state
  refine ⟨rfl, ?_, rfl, rfl⟩
  intro hcount
  have hle : (((hoistStep ctx (state []) 1).dynamicLive 0).card : ℤ) ≤ 1 := hcount.2
  have htwo : ((hoistStep ctx (state []) 1).dynamicLive 0).card = 2 := rfl
  omega

end TraceScheduler
