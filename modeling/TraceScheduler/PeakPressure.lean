import TraceScheduler.TracePlan
import Mathlib.Order.Bounds.Basic

/-!
# Peak live pressure

With `SCHED_STATS` on, the main loop compares the size of its running live set with the peak after every
instruction, and the peak goes from one trace to the next.  What is reported for a function is the least
upper bound of the sizes of all live sets that occur while its traces, or its blocks, are scheduled
(`globalSchedulerPass_peak`, `localSchedulerPass_peak`).  Since schedules can be drawn up ahead, these
are live sets of the function as it comes, and neither the order of the traces nor what was hoisted out
of an earlier one plays a part.
-/

namespace TraceScheduler

open scoped List

/-! ### Least upper bounds that grow -/

section

variable {α : Type*} [SemilatticeSup α] {S T : Set α} {a b c p q : α}

/-- A bound that has been raised to a member, in place of the bound before and a value below it. -/
theorem isLUB_of_raised (hle : a ≤ p) (hmem : b ∈ S) (h : IsLUB (insert (p ⊔ b) S) c) :
    IsLUB (insert p (insert a S)) c := by
  have hbounds : upperBounds (insert p (insert a S)) = upperBounds (insert (p ⊔ b) S) := by
    ext x
    simp only [mem_upperBounds, Set.forall_mem_insert, sup_le_iff]
    constructor
    · rintro ⟨hp, _, hS⟩
      exact ⟨⟨hp, hS b hmem⟩, hS⟩
    · rintro ⟨⟨hp, _⟩, hS⟩
      exact ⟨hp, hle.trans hp, hS⟩
  rw [IsLUB, hbounds]
  exact h

/-- One bound carried on into the next. -/
theorem isLUB_insert_union (hS : IsLUB (insert a S) b) (hT : IsLUB (insert b T) c) :
    IsLUB (insert a (S ∪ T)) c := by
  have hbounds : upperBounds (insert a (S ∪ T)) = upperBounds (insert b T) := by
    ext x
    rw [← Set.insert_union, upperBounds_union, hS.upperBounds_eq, upperBounds_insert]
  rw [IsLUB, hbounds]
  exact hT

theorem isLUB_of_insert_zero {S : Set ℕ} {n : ℕ} (h : IsLUB (insert 0 S) n) : IsLUB S n := by
  have hbounds : upperBounds (insert 0 S) = upperBounds S := by
    ext x
    simp only [mem_upperBounds, Set.forall_mem_insert, Nat.zero_le, true_and]
  rw [IsLUB, ← hbounds]
  exact h

end

/-! ### One run of the main loop -/

section

variable (F : Function) (universeIndex : Value → Option ℕ) (liveness : LivenessResult)
  (useRegPressure : Bool)

/-- The sizes of the live sets from a state on. -/
def liveSizesFrom (start : ListState) : Set ℕ :=
  {n | ∃ st, LoopReaches F universeIndex liveness useRegPressure false start st ∧
    st.currentLive.card = n}

/-- The sizes of the live sets while a graph is scheduled. -/
def liveSizes (g : DDG) (currentLive : Finset ℕ) : Set ℕ :=
  liveSizesFrom F universeIndex liveness useRegPressure (initialListState F false g currentLive 0)

end

section

variable {F F' : Function} {universeIndex : Value → Option ℕ} {liveness : LivenessResult}
  {useRegPressure statsOn : Bool} {st start : ListState} {g : DDG} {currentLive : Finset ℕ}

/-- The first round of a run. -/
theorem loopReaches_iff_head :
    LoopReaches F universeIndex liveness useRegPressure statsOn start st ↔ st = start ∨
      ∃ best, pickBest F universeIndex liveness start.ddg start.readyQueue start.currentLive
          useRegPressure = some best ∧
        LoopReaches F universeIndex liveness useRegPressure statsOn
          (scheduleNode F universeIndex liveness statsOn start best) st := by
  constructor
  · intro h
    induction h with
    | start => exact .inl rfl
    | next _ hpick ih =>
      right
      cases ih with
      | inl heq =>
        subst heq
        exact ⟨_, hpick, .start⟩
      | inr ih =>
        obtain ⟨best, hbest, hreach⟩ := ih
        exact ⟨best, hbest, hreach.next hpick⟩
  · rintro (rfl | ⟨best, hbest, hreach⟩)
    · exact .start
    · induction hreach with
      | start => exact .next .start hbest
      | next _ hpick ih => exact ih.next hpick

/-- The live set at hand, and those of the rest of the run. -/
theorem liveSizesFrom_of_pick {best : InstrId}
    (hpick : pickBest F universeIndex liveness start.ddg start.readyQueue start.currentLive
      useRegPressure = some best) :
    liveSizesFrom F universeIndex liveness useRegPressure start =
      insert start.currentLive.card (liveSizesFrom F universeIndex liveness useRegPressure
        (scheduleNode F universeIndex liveness false start best)) := by
  ext n
  rw [Set.mem_insert_iff]
  constructor
  · rintro ⟨st, hreach, hcard⟩
    cases loopReaches_iff_head.mp hreach with
    | inl heq =>
      left
      rw [← hcard, heq]
    | inr hnext =>
      obtain ⟨best', hbest', hreach'⟩ := hnext
      obtain rfl := Option.some.inj (hpick.symm.trans hbest')
      exact .inr ⟨st, hreach', hcard⟩
  · rintro (rfl | ⟨st, hreach, hcard⟩)
    · exact ⟨start, .start, rfl⟩
    · exact ⟨st, loopReaches_iff_head.mpr (.inr ⟨best, hpick, hreach⟩), hcard⟩

theorem liveSizesFrom_of_empty (hempty : start.readyQueue = []) :
    liveSizesFrom F universeIndex liveness useRegPressure start = {start.currentLive.card} := by
  ext n
  rw [Set.mem_singleton_iff]
  constructor
  · rintro ⟨st, hreach, hcard⟩
    cases loopReaches_iff_head.mp hreach with
    | inl heq => rw [← hcard, heq]
    | inr hnext =>
      obtain ⟨best, hbest, _⟩ := hnext
      rw [hempty] at hbest
      cases hbest
  · rintro rfl
    exact ⟨start, .start, rfl⟩

/-- **A run records the peak of its live sets.** `uncounted` is the same run with the switch off. -/
theorem listLoop_isLUB {fuel : ℕ} {uncounted st' : ListState}
    (hsame : st.withoutPeak = uncounted.withoutPeak)
    (hle : st.currentLive.card ≤ st.peakLivePressure)
    (hrun : listLoop F universeIndex liveness useRegPressure true fuel st = some st') :
    IsLUB (insert st.peakLivePressure
      (liveSizesFrom F universeIndex liveness useRegPressure uncounted)) st'.peakLivePressure := by
  induction fuel generalizing st uncounted with
  | zero => cases hrun
  | succ fuel ih =>
    obtain ⟨ddg, queue, schedule, live, peak⟩ := st
    obtain ⟨_, _, _, _, peak₀⟩ := uncounted
    obtain ⟨rfl, rfl, rfl, rfl, _⟩ := ListState.mk.inj hsame
    rw [listLoop] at hrun
    dsimp only at hrun hle ⊢
    split at hrun
    · rename_i hempty
      obtain rfl := Option.some.inj hrun
      rw [liveSizesFrom_of_empty (List.isEmpty_iff.mp hempty)]
      have hlub : IsLUB {peak, live.card} (peak ⊔ live.card) := isLUB_pair
      rw [sup_eq_left.mpr hle] at hlub
      exact hlub
    · cases hpick : pickBest F universeIndex liveness ddg queue live useRegPressure with
      | none =>
        rw [hpick] at hrun
        cases hrun
      | some best =>
        rw [hpick] at hrun
        have hrun' : listLoop F universeIndex liveness useRegPressure true fuel
            (scheduleNode F universeIndex liveness true ⟨ddg, queue, schedule, live, peak⟩ best) =
              some st' := hrun
        have hsame' : (scheduleNode F universeIndex liveness true
            ⟨ddg, queue, schedule, live, peak⟩ best).withoutPeak =
              (scheduleNode F universeIndex liveness false
                ⟨ddg, queue, schedule, live, peak₀⟩ best).withoutPeak := rfl
        have hnext := ih hsame' (le_max_right _ _) hrun'
        rw [liveSizesFrom_of_pick hpick]
        exact isLUB_of_raised hle ⟨_, .start, rfl⟩ hnext

theorem listSchedule_isLUB {peak peak' : ℕ} {schedule : List InstrId}
    (h : listSchedule F universeIndex liveness g currentLive useRegPressure true peak =
      some (schedule, peak')) :
    IsLUB (insert peak (liveSizes F universeIndex liveness useRegPressure g currentLive)) peak' := by
  obtain ⟨st', hrun, heq⟩ := Option.map_eq_some_iff.mp h
  obtain ⟨_, rfl⟩ := Prod.mk.inj heq
  have hsame : (initialListState F true g currentLive peak).withoutPeak =
      (initialListState F false g currentLive 0).withoutPeak := rfl
  have hlub := listLoop_isLUB hsame (le_max_right _ _) hrun
  rw [← Set.insert_idem]
  exact isLUB_of_raised le_rfl ⟨_, .start, rfl⟩ hlub

end

/-! ### A function -/

/-- The sizes of the live sets while the traces are scheduled. -/
def traceLiveSizes (F : Function) (universeIndex : Value → Option ℕ) (liveness : LivenessResult)
    (usePressure : Bool) (traces : List (List BasicBlock)) : Set ℕ :=
  {n | ∃ trace ∈ traces, ∃ firstBB ddg, trace.head? = some firstBB ∧
    (buildDDG F trace).computeCriticalPath = some ddg ∧
    n ∈ liveSizes F universeIndex liveness usePressure ddg (liveness firstBB).inSet}

/-- The sizes of the live sets while the blocks are scheduled. -/
def blockLiveSizes (F : Function) (universeIndex : Value → Option ℕ) (liveness : LivenessResult)
    (blocks : List BasicBlock) : Set ℕ :=
  {n | ∃ bb ∈ blocks, ∃ ddg, (buildLocalDDG F bb).computeCriticalPath = some ddg ∧
    n ∈ liveSizes F universeIndex liveness true ddg (liveness bb).inSet}

section

variable {F : Function} {A : Analyses F.cfg} {universeIndex : Value → Option ℕ}
  {livenessResult : LivenessResult} {usePressure : Bool}

theorem traceLiveSizes_cons {trace : List BasicBlock} {traces : List (List BasicBlock)}
    {firstBB : BasicBlock} {ddg : DDG} (hfirst : trace.head? = some firstBB)
    (hddg : (buildDDG F trace).computeCriticalPath = some ddg) :
    traceLiveSizes F universeIndex livenessResult usePressure (trace :: traces) =
      liveSizes F universeIndex livenessResult usePressure ddg (livenessResult firstBB).inSet ∪
        traceLiveSizes F universeIndex livenessResult usePressure traces := by
  ext n
  constructor
  · rintro ⟨trace', htrace', firstBB', ddg', hfirst', hddg', hn⟩
    cases List.mem_cons.mp htrace' with
    | inl heq =>
      left
      rw [heq] at hfirst' hddg'
      obtain rfl := Option.some.inj (hfirst.symm.trans hfirst')
      obtain rfl := Option.some.inj (hddg.symm.trans hddg')
      exact hn
    | inr htail => exact .inr ⟨trace', htail, firstBB', ddg', hfirst', hddg', hn⟩
  · rintro (hn | ⟨trace', htrace', hrest⟩)
    · exact ⟨trace, List.mem_cons_self, firstBB, ddg, hfirst, hddg, hn⟩
    · exact ⟨trace', List.mem_cons_of_mem _ htrace', hrest⟩

theorem blockLiveSizes_cons {bb : BasicBlock} {blocks : List BasicBlock} {ddg : DDG}
    (hddg : (buildLocalDDG F bb).computeCriticalPath = some ddg) :
    blockLiveSizes F universeIndex livenessResult (bb :: blocks) =
      liveSizes F universeIndex livenessResult true ddg (livenessResult bb).inSet ∪
        blockLiveSizes F universeIndex livenessResult blocks := by
  ext n
  constructor
  · rintro ⟨bb', hbb', ddg', hddg', hn⟩
    cases List.mem_cons.mp hbb' with
    | inl heq =>
      left
      rw [heq] at hddg' hn
      obtain rfl := Option.some.inj (hddg.symm.trans hddg')
      exact hn
    | inr htail => exact .inr ⟨bb', htail, ddg', hddg', hn⟩
  · rintro (hn | ⟨bb', hbb', hrest⟩)
    · exact ⟨bb, List.mem_cons_self, ddg, hddg, hn⟩
    · exact ⟨bb', List.mem_cons_of_mem _ hbb', hrest⟩

/-- **One trace** raises the peak to that of its live sets. -/
theorem PassInv.turn_isLUB {pressureBudget : ℤ} {traces todo : List (List BasicBlock)}
    {trace : List BasicBlock} {ddg : DDG} {st st' : PassState} {b : ℕ}
    (hwf : F.WellFormed) (h : PassInv F A traces (trace :: todo) st) (hnodup : trace.Nodup)
    (hddg : (buildDDG F trace).computeCriticalPath = some ddg)
    (hturn : scheduleTrace A universeIndex livenessResult usePressure pressureBudget true st
      (ddg, trace) = some st')
    (hrest : IsLUB (insert st'.peakLivePressure
      (traceLiveSizes F universeIndex livenessResult usePressure todo)) b) :
    IsLUB (insert st.peakLivePressure
      (traceLiveSizes F universeIndex livenessResult usePressure (trace :: todo))) b := by
  obtain ⟨firstBB, schedule, peak, hfirst, hlist, rfl⟩ := scheduleTrace_eq_some hturn
  rw [(h.sameNodes hwf hddg).listSchedule_eq (wellBuilt_of_trace hwf hnodup hddg)] at hlist
  rw [traceLiveSizes_cons hfirst hddg]
  exact isLUB_insert_union (listSchedule_isLUB hlist) hrest

/-- **One block** raises the peak to that of its live sets. -/
theorem BlocksInv.turn_isLUB {bb : BasicBlock} {todo : List BasicBlock} {tr : Trail} {peak b : ℕ}
    {acc' : Trail × ℕ} (hwf : F.WellFormed) (h : BlocksInv F (bb :: todo) tr)
    (hturn : scheduleBlock livenessResult universeIndex true (tr, peak) bb = some acc')
    (hrest : IsLUB (insert acc'.2 (blockLiveSizes F universeIndex livenessResult todo)) b) :
    IsLUB (insert peak (blockLiveSizes F universeIndex livenessResult (bb :: todo))) b := by
  obtain ⟨ddg, schedule, peak', hddg, hlist, rfl⟩ := scheduleBlock_eq_some hturn
  rw [show (tr, peak).1.current = tr.current from rfl, h.buildLocalDDG_eq] at hddg
  have hbuilt := (DDG.sameShape_computeCriticalPath hddg).wellBuilt
    (wellBuilt_buildLocalDDG (hwf.body_nodup bb))
  rw [(h.sameNodes hwf hddg).listSchedule_eq hbuilt] at hlist
  rw [blockLiveSizes_cons hddg]
  exact isLUB_insert_union (listSchedule_isLUB hlist) hrest

end

/-- **The global pass reports the peak of all live sets.** With the statistics on, what it reports is
the least upper bound of the sizes the running live set has while the traces are list scheduled, each
in the function as it comes. -/
theorem globalSchedulerPass_peak {F : Function} (hwf : F.WellFormed) (hssa : F.SSADominance)
    (usePressure : Bool) (env : SchedEnv) (hstats : schedStatsEnabled env = true) (profile : Profile)
    (A : Analyses F.cfg) :
    ∃ st livenessResult traceState, globalSchedulerPass usePressure env F profile A = some st ∧
      computeLiveness F = some livenessResult ∧
      identifyTraces F profile (getTraceThreshold env) (schedStatsEnabled env) = some traceState ∧
      IsLUB (traceLiveSizes F (buildValueIndex (valueUniverse F)) livenessResult usePressure
        traceState.traces) st.peakLivePressure := by
  obtain ⟨st, livenessResult, traceState, hrun, hlive, htraces, hpeak⟩ :=
    globalSchedulerPass_induct ⟨hwf, hssa⟩ usePressure env profile A
      (R := fun livenessResult todo st st' => IsLUB (insert st.peakLivePressure
        (traceLiveSizes F (buildValueIndex (valueUniverse F)) livenessResult usePressure todo))
          st'.peakLivePressure)
      (fun _ st => by simp [traceLiveSizes]) (by
        intro livenessResult traces trace todo ddg st st₁ st₂ hinv hnodup hddg hturn hrest
        rw [hstats] at hturn
        exact hinv.turn_isLUB hwf hnodup hddg hturn hrest)
  exact ⟨st, livenessResult, traceState, hrun, hlive, htraces, isLUB_of_insert_zero hpeak⟩

theorem twoBlocks_peak :
    ∃ st livenessResult traceState,
      globalSchedulerPass true ⟨none, none, true⟩ twoBlocks certain twoBlocksAnalyses = some st ∧
      computeLiveness twoBlocks = some livenessResult ∧
      identifyTraces twoBlocks certain (getTraceThreshold ⟨none, none, true⟩) true =
        some traceState ∧
      IsLUB (traceLiveSizes twoBlocks (buildValueIndex (valueUniverse twoBlocks)) livenessResult true
        traceState.traces) st.peakLivePressure :=
  globalSchedulerPass_peak twoBlocks_wellFormed twoBlocks_ssa true ⟨none, none, true⟩ rfl certain
    twoBlocksAnalyses

/-- **The local pass reports the peak of all live sets**, block by block. -/
theorem localSchedulerPass_peak {F : Function} (hwf : F.WellFormed) (env : SchedEnv)
    (hstats : schedStatsEnabled env = true) :
    ∃ tr peak livenessResult, localSchedulerPass env F = some (tr, peak) ∧
      computeLiveness F = some livenessResult ∧
      IsLUB (blockLiveSizes F (buildValueIndex (valueUniverse F)) livenessResult F.blocks) peak := by
  obtain ⟨⟨tr, peak⟩, livenessResult, hrun, hlive, hpeak⟩ := localSchedulerPass_induct hwf env
    (R := fun livenessResult todo acc acc' => IsLUB (insert acc.2
      (blockLiveSizes F (buildValueIndex (valueUniverse F)) livenessResult todo)) acc'.2)
    (fun _ acc => by simp [blockLiveSizes]) (by
      intro livenessResult bb todo tr peak acc₁ acc₂ hinv hturn hrest
      rw [hstats] at hturn
      exact hinv.turn_isLUB hwf hturn hrest)
  exact ⟨tr, peak, livenessResult, hrun, hlive, isLUB_of_insert_zero hpeak⟩

theorem twoBlocks_localPeak :
    ∃ tr peak livenessResult, localSchedulerPass ⟨none, none, true⟩ twoBlocks = some (tr, peak) ∧
      computeLiveness twoBlocks = some livenessResult ∧
      IsLUB (blockLiveSizes twoBlocks (buildValueIndex (valueUniverse twoBlocks)) livenessResult
        twoBlocks.blocks) peak :=
  localSchedulerPass_peak twoBlocks_wellFormed ⟨none, none, true⟩ rfl

end TraceScheduler
