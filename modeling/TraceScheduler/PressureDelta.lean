import TraceScheduler.ListScheduler
import TraceScheduler.LivenessPaths

/-!
# The pressure delta and the live set

`pressureDelta` walks over the operand uses and counts; `updateLiveSet` walks over the same uses and
clears bits.  A value that dies is cleared once and counted at each of its uses, so the count after
the update is the count before it, the delta, and one for every use beyond the first
(`card_updateLiveSet`).  The two agree exactly when no value that dies is used twice.
-/

namespace TraceScheduler

section

variable {F : Function} {universeIndex : Value → Option ℕ} {liveness : LivenessResult}
  {bb : BasicBlock} {i : InstrId} {live : Finset ℕ} {v w : Value} {idx : ℕ}

variable (universeIndex liveness) in
/-- `v` is in `live` and not live out of `bb`. -/
def diesIn (bb : BasicBlock) (live : Finset ℕ) (v : Value) : Bool :=
  match universeIndex v with
  | some idx => decide (idx ∈ live ∧ idx ∉ (liveness bb).outSet)
  | none => false

theorem diesIn_iff : diesIn universeIndex liveness bb live v = true ↔
    ∃ idx, universeIndex v = some idx ∧ idx ∈ live ∧ idx ∉ (liveness bb).outSet := by
  rw [diesIn]
  cases universeIndex v with
  | none => simp
  | some idx => simp

theorem operandDelta_eq (bb : BasicBlock) (live : Finset ℕ) (delta : ℤ) (v : Value) :
    operandDelta universeIndex liveness bb live delta v =
      if diesIn universeIndex liveness bb live v = true then delta - 1 else delta := by
  rw [operandDelta, diesIn]
  cases universeIndex v with
  | none => simp
  | some idx => simp

/-- The operand loop takes one away at every use of a value that dies. -/
theorem foldl_operandDelta (bb : BasicBlock) (live : Finset ℕ) (ops : List Value) (delta : ℤ) :
    ops.foldl (operandDelta universeIndex liveness bb live) delta =
      delta - ops.countP (diesIn universeIndex liveness bb live) := by
  induction ops generalizing delta with
  | nil => simp
  | cons v ops ih =>
    rw [List.foldl_cons, ih, operandDelta_eq]
    by_cases hdies : diesIn universeIndex liveness bb live v = true
    · rw [if_pos hdies, List.countP_cons_of_pos hdies]
      omega
    · rw [if_neg hdies, List.countP_cons_of_neg hdies]

theorem killOperand_of_dies (hv : universeIndex v = some idx) (hout : idx ∉ (liveness bb).outSet) :
    killOperand universeIndex liveness bb live v = live.erase idx := by
  rw [killOperand, hv]
  exact if_neg hout

theorem killOperand_of_not_dies (h : diesIn universeIndex liveness bb live v = false) :
    killOperand universeIndex liveness bb live v = live := by
  cases hv : universeIndex v with
  | none => rw [killOperand, hv]
  | some idx =>
    by_cases hout : idx ∈ (liveness bb).outSet
    · rw [killOperand, hv]
      exact if_pos hout
    · rw [killOperand_of_dies hv hout]
      apply Finset.erase_eq_of_notMem
      intro hlive
      rw [diesIn_iff.mpr ⟨idx, hv, hlive, hout⟩] at h
      cases h

/-- After a value is cleared, the same values die as before but that one. -/
theorem diesIn_erase (hinj : ∀ v w idx, universeIndex v = some idx → universeIndex w = some idx → v = w)
    (hv : universeIndex v = some idx) : diesIn universeIndex liveness bb (live.erase idx) w = true ↔
      w ≠ v ∧ diesIn universeIndex liveness bb live w = true := by
  rw [diesIn_iff, diesIn_iff]
  constructor
  · intro h
    obtain ⟨k, hk, hlive, hout⟩ := h
    obtain ⟨hne, hlive⟩ := Finset.mem_erase.mp hlive
    refine ⟨?_, k, hk, hlive, hout⟩
    intro heq
    rw [heq, hv] at hk
    exact hne (Option.some.inj hk).symm
  · intro h
    obtain ⟨hne, k, hk, hlive, hout⟩ := h
    refine ⟨k, hk, Finset.mem_erase.mpr ⟨?_, hlive⟩, hout⟩
    intro heq
    exact hne (hinj w v idx (heq ▸ hk) hv)

/-- The clearing loop removes every value that dies once. -/
theorem card_foldl_killOperand (live : Finset ℕ)
    (hinj : ∀ v w idx, universeIndex v = some idx → universeIndex w = some idx → v = w)
    (ops : List Value) :
    (ops.foldl (killOperand universeIndex liveness bb) live).card +
      (ops.filter (diesIn universeIndex liveness bb live)).toFinset.card = live.card := by
  induction ops generalizing live with
  | nil => simp
  | cons v ops ih =>
    rw [List.foldl_cons]
    cases hdies : diesIn universeIndex liveness bb live v with
    | false =>
      rw [killOperand_of_not_dies hdies, List.filter_cons_of_neg (by simp [hdies])]
      exact ih live
    | true =>
      obtain ⟨idx, hv, hlive, hout⟩ := diesIn_iff.mp hdies
      have hset : ((v :: ops).filter (diesIn universeIndex liveness bb live)).toFinset =
          insert v (ops.filter (diesIn universeIndex liveness bb (live.erase idx))).toFinset := by
        ext w
        rw [List.filter_cons_of_pos hdies]
        simp only [List.mem_toFinset, List.mem_cons, List.mem_filter, Finset.mem_insert,
          diesIn_erase hinj hv]
        tauto
      have hnot : v ∉ (ops.filter (diesIn universeIndex liveness bb (live.erase idx))).toFinset := by
        simp [diesIn_erase hinj hv]
      have hih := ih (live.erase idx)
      rw [Finset.card_erase_of_mem hlive] at hih
      have hpos : 0 < live.card := Finset.card_pos.mpr ⟨idx, hlive⟩
      rw [killOperand_of_dies hv hout, hset, Finset.card_insert_of_notMem hnot]
      omega

/-- Another value in the set does not change whether `v` dies. -/
theorem diesIn_insert (hne : universeIndex v ≠ some idx) :
    diesIn universeIndex liveness bb (insert idx live) v = diesIn universeIndex liveness bb live v := by
  rw [Bool.eq_iff_iff, diesIn_iff, diesIn_iff]
  constructor
  · intro h
    obtain ⟨k, hk, hlive, hout⟩ := h
    refine ⟨k, hk, Finset.mem_of_mem_insert_of_ne hlive ?_, hout⟩
    intro heq
    exact hne (heq ▸ hk)
  · intro h
    obtain ⟨k, hk, hlive, hout⟩ := h
    exact ⟨k, hk, Finset.mem_insert_of_mem hlive, hout⟩

/-- **The count after the update** is the count and the delta, and one for every use of a dying value
beyond its first. -/
theorem card_updateLiveSet
    (hinj : ∀ v w idx, universeIndex v = some idx → universeIndex w = some idx → v = w)
    (hself : Value.instruction i ∉ (F.instr i).operands) :
    let dying := (F.instr i).operands.filter (diesIn universeIndex liveness (F.getParent i) live)
    ((updateLiveSet F universeIndex liveness i live).card : ℤ) + dying.toFinset.card =
      live.card + pressureDelta F universeIndex liveness i live + dying.length := by
  intro dying
  have hlength : dying.length =
      (F.instr i).operands.countP (diesIn universeIndex liveness (F.getParent i) live) :=
    List.countP_eq_length_filter.symm
  rw [updateLiveSet, pressureDelta, foldl_operandDelta, hlength]
  -- the set once the result is in, and the same operands dying in it
  have hkill : ∀ with_result : Finset ℕ,
      (F.instr i).operands.filter (diesIn universeIndex liveness (F.getParent i) with_result) =
        dying →
      ((F.instr i).operands.foldl (killOperand universeIndex liveness (F.getParent i))
        with_result).card + dying.toFinset.card = with_result.card := by
    intro with_result hsame
    rw [← hsame]
    exact card_foldl_killOperand _ hinj _
  split
  · have hcard := hkill live rfl
    omega
  · cases hi : universeIndex (.instruction i) with
    | none =>
      have hcard := hkill live rfl
      dsimp only
      omega
    | some idx =>
      have hcard := hkill (insert idx live) (by
        apply List.filter_congr
        intro v hv
        apply diesIn_insert
        intro heq
        exact hself (hinj _ _ idx hi heq ▸ hv))
      dsimp only
      split
      · rename_i hlive
        rw [Finset.insert_eq_of_mem hlive] at hcard ⊢
        omega
      · rename_i hlive
        rw [Finset.card_insert_of_notMem hlive] at hcard
        omega

end

/-- **The delta is exact exactly when no dying value is used twice.** For every instruction that is
not its own operand, whatever list numbers the values, whatever the live set and the liveness
result. -/
theorem pressureDelta_exact_iff (F : Function) (values : List Value) (liveness : LivenessResult)
    (currentLive : Finset ℕ) {i : InstrId} (hself : Value.instruction i ∉ (F.instr i).operands) :
    let universeIndex := buildValueIndex values
    ((updateLiveSet F universeIndex liveness i currentLive).card : ℤ) =
        currentLive.card + pressureDelta F universeIndex liveness i currentLive ↔
      ∀ v idx, universeIndex v = some idx → idx ∈ currentLive →
        idx ∉ (liveness (F.getParent i)).outSet → (F.instr i).operands.count v ≤ 1 := by
  intro universeIndex
  have hcard : ((updateLiveSet F universeIndex liveness i currentLive).card : ℤ) + _ =
      currentLive.card + pressureDelta F universeIndex liveness i currentLive + _ :=
    card_updateLiveSet (fun _ _ _ hv hw => buildValueIndex_inj hv hw) hself
  set dying := (F.instr i).operands.filter
    (diesIn universeIndex liveness (F.getParent i) currentLive) with hdying
  have hnodup : dying.toFinset.card = dying.length ↔ dying.Nodup :=
    Multiset.toFinset_card_eq_card_iff_nodup (m := (dying : Multiset Value))
  have hcount : dying.Nodup ↔ ∀ v idx, universeIndex v = some idx → idx ∈ currentLive →
      idx ∉ (liveness (F.getParent i)).outSet → (F.instr i).operands.count v ≤ 1 := by
    rw [List.nodup_iff_count_le_one]
    constructor
    · intro h v idx hv hlive hout
      have hdies := diesIn_iff.mpr ⟨idx, hv, hlive, hout⟩
      rw [← List.count_filter hdies]
      exact h v
    · intro h v
      by_cases hdies : diesIn universeIndex liveness (F.getParent i) currentLive v = true
      · obtain ⟨idx, hv, hlive, hout⟩ := diesIn_iff.mp hdies
        rw [hdying, List.count_filter hdies]
        exact h v idx hv hlive hout
      · rw [List.count_eq_zero_of_not_mem]
        · exact Nat.zero_le 1
        · exact fun hmem => hdies (List.mem_filter.mp hmem).2
  rw [← hcount, ← hnodup]
  constructor
  · intro hexact
    omega
  · intro hlen
    omega

theorem twoBlocks_exact_iff :
    let universeIndex := buildValueIndex (valueUniverse twoBlocks)
    let liveness : LivenessResult := fun _ => ⟨{0}, ∅, ∅, ∅⟩
    Value.instruction 0 ∉ (twoBlocks.instr 0).operands ∧
      (((updateLiveSet twoBlocks universeIndex liveness 0 {0}).card : ℤ) =
          ({0} : Finset ℕ).card + pressureDelta twoBlocks universeIndex liveness 0 {0} ↔
        ∀ v idx, universeIndex v = some idx → idx ∈ ({0} : Finset ℕ) →
          idx ∉ (liveness (twoBlocks.getParent 0)).outSet → (twoBlocks.instr 0).operands.count v ≤ 1) := by
  intro universeIndex liveness
  have hself : Value.instruction 0 ∉ (twoBlocks.instr 0).operands := by decide
  exact ⟨hself, pressureDelta_exact_iff twoBlocks (valueUniverse twoBlocks) liveness {0} hself⟩

/-- The sum of the argument and itself, and its return. -/
def doubles : Function :=
  .ofTables 1 [.value .other [.argument 0, .argument 0], .branch [.instruction 0] []] [0, 1] []

/-- **Both uses of the argument are counted**, and its bit is cleared once. -/
theorem doubles_not_exact : doubles.WellFormed ∧ ∃ livenessResult,
    computeLiveness doubles = some livenessResult ∧
    let universeIndex := buildValueIndex (valueUniverse doubles)
    let currentLive := (livenessResult 0).inSet
    let currentLive' := updateLiveSet doubles universeIndex livenessResult 0 currentLive
    Value.instruction 0 ∉ (doubles.instr 0).operands ∧
      currentLive.card = 1 ∧ pressureDelta doubles universeIndex livenessResult 0 currentLive = -1 ∧
      currentLive'.card = 1 ∧ (currentLive'.card : ℤ) ≠ currentLive.card +
        pressureDelta doubles universeIndex livenessResult 0 currentLive := by
  refine ⟨(Function.verify_sound (by decide) rfl).1, _, rfl, ?_⟩
  exact ⟨by decide, rfl, rfl, rfl, by decide⟩

end TraceScheduler
