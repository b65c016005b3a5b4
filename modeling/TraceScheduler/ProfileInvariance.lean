import TraceScheduler.Library.Erasure
import TraceScheduler.Library.StableSelect
import TraceScheduler.SchedulerPass

/-!
# What the scheduler reads of a profile

Trace growth compares probabilities with the threshold, and with each other where two edges compete
for the same end of a trace; the seeds are taken by falling frequency.  Nothing else of a profile is
ever read, so two profiles that answer these comparisons alike give the same traces and, from then on,
the same code.  The counters that `SCHED_STATS` switches on are written and never read, so they make
no difference either.

Both are facts about two runs: every stage maps states that agree, apart from what is not read, to
states that agree again.
-/

namespace TraceScheduler

open scoped List

variable {F : Function} {profile₁ profile₂ : Profile} {threshold₁ threshold₂ : ℕ}
  {statsOn₁ statsOn₂ : Bool} {bfsOrder visited : List BasicBlock} {bb : BasicBlock}

/-- An edge of the control-flow graph, as a trace can meet it from either end. -/
def Function.HasEdge (F : Function) (a b : BasicBlock) : Prop := b ∈ F.successors a ∨ a ∈ F.preds b

/-- Two profiles, each with its threshold, that answer every comparison alike. -/
structure SameChoices (F : Function) (profile₁ : Profile) (threshold₁ : ℕ) (profile₂ : Profile)
    (threshold₂ : ℕ) : Prop where
  likely : ∀ a b, F.HasEdge a b →
    (threshold₁ < profile₁.edgeProbability a b ↔ threshold₂ < profile₂.edgeProbability a b)
  compete : ∀ a b c d, F.HasEdge a b → F.HasEdge c d → a = c ∨ b = d →
    threshold₁ < profile₁.edgeProbability a b → threshold₁ < profile₁.edgeProbability c d →
      (profile₁.edgeProbability a b < profile₁.edgeProbability c d ↔
        profile₂.edgeProbability a b < profile₂.edgeProbability c d)
  freq : ∀ a b, profile₁.blockFreq a ≤ profile₁.blockFreq b ↔
    profile₂.blockFreq a ≤ profile₂.blockFreq b
  cold : ∀ a, profile₁.blockFreq a = 0 ↔ profile₂.blockFreq a = 0

theorem SameChoices.refl (F : Function) (profile : Profile) (threshold : ℕ) :
    SameChoices F profile threshold profile threshold :=
  ⟨fun _ _ _ => Iff.rfl, fun _ _ _ _ _ _ _ _ _ => Iff.rfl, fun _ _ => Iff.rfl, fun _ => Iff.rfl⟩

/-! ### One edge -/

/-- The neighbours that may be taken. -/
def isEligible (threshold : ℕ) (prob : BasicBlock → ℕ) (isBackEdge : BasicBlock → Bool)
    (visited : List BasicBlock) (bb : BasicBlock) : Bool :=
  !visited.contains bb && decide (threshold < prob bb) && !isBackEdge bb

/-- Statistics apart, the search for the best edge is a scan for the greatest probability. -/
theorem foldl_considerEdge_eq {threshold : ℕ} {statsOn : Bool} {prob : BasicBlock → ℕ}
    {isBackEdge : BasicBlock → Bool} (l : List BasicBlock) (acc : BestEdge) :
    ((l.foldl (considerEdge threshold statsOn prob isBackEdge visited) acc).best,
      (l.foldl (considerEdge threshold statsOn prob isBackEdge visited) acc).bestProb) =
      l.foldl (keepMax prob (isEligible threshold prob isBackEdge visited))
        (acc.best, acc.bestProb) := by
  induction l generalizing acc with
  | nil => rfl
  | cons x l ih =>
    rw [List.foldl_cons, List.foldl_cons, ih]
    congr 1
    rw [considerEdge, keepMax, isEligible]
    by_cases hvisited : x ∈ visited
    · simp [hvisited]
    · by_cases hprob : prob x ≤ threshold
      · simp [hvisited, hprob, Nat.not_lt.mpr hprob]
      · by_cases hback : isBackEdge x = true
        · simp [hvisited, hprob, hback]
        · by_cases hbest : prob x > acc.bestProb
          · simp [hvisited, hprob, hback, hbest, Nat.not_le.mp hprob]
          · simp [hvisited, hprob, hback, hbest]

theorem considerEdge_best {threshold : ℕ} {statsOn : Bool} {prob : BasicBlock → ℕ}
    {isBackEdge : BasicBlock → Bool} {l : List BasicBlock} {stats : TraceIdStats} :
    (l.foldl (considerEdge threshold statsOn prob isBackEdge visited) ⟨none, 0, stats⟩).best =
      scanMax prob (isEligible threshold prob isBackEdge visited) l :=
  congrArg Prod.fst (foldl_considerEdge_eq l ⟨none, 0, stats⟩)

theorem scanMax_isEligible_congr {prob₁ prob₂ : BasicBlock → ℕ} {isBackEdge : BasicBlock → Bool}
    {l : List BasicBlock} (hlikely : ∀ x ∈ l, threshold₁ < prob₁ x ↔ threshold₂ < prob₂ x)
    (hlt : ∀ x ∈ l, ∀ y ∈ l, threshold₁ < prob₁ x → threshold₁ < prob₁ y →
      (prob₁ x < prob₁ y ↔ prob₂ x < prob₂ y)) :
    scanMax prob₁ (isEligible threshold₁ prob₁ isBackEdge visited) l =
      scanMax prob₂ (isEligible threshold₂ prob₂ isBackEdge visited) l := by
  have habove : ∀ x, isEligible threshold₁ prob₁ isBackEdge visited x = true →
      threshold₁ < prob₁ x := by
    intro x hx
    simp only [isEligible, Bool.and_eq_true, decide_eq_true_eq] at hx
    exact hx.1.2
  apply scanMax_congr
  · intro x hx
    simp only [isEligible, hlikely x hx]
  · intro x hx hp
    have h₁ := habove x hp
    have h₂ := (hlikely x hx).mp h₁
    constructor
    · intro _
      omega
    · intro _
      omega
  · intro x hx y hy hpx hpy
    exact hlt x hx y hy (habove x hpx) (habove y hpy)

/-! ### Traces -/

/-- What growth goes by, its statistics left out. -/
def GrowState.blocks (st : GrowState) : List BasicBlock × List BasicBlock := (st.trace, st.visited)

def TraceState.blocks (st : TraceState) : List (List BasicBlock) × List BasicBlock :=
  (st.traces, st.visited)

section Growth

variable (h : SameChoices F profile₁ threshold₁ profile₂ threshold₂)
  {stats₁ stats₂ : TraceIdStats} {current seed : BasicBlock}

include h

theorem SameChoices.bestSuccessor_eq :
    (bestSuccessor F profile₁ threshold₁ statsOn₁ bfsOrder visited stats₁ bb).1 =
      (bestSuccessor F profile₂ threshold₂ statsOn₂ bfsOrder visited stats₂ bb).1 := by
  rw [bestSuccessor, bestSuccessor]
  dsimp only
  rw [considerEdge_best, considerEdge_best]
  apply scanMax_isEligible_congr
  · intro x hx
    exact h.likely bb x (.inl hx)
  · intro x hx y hy
    exact h.compete bb x bb y (.inl hx) (.inl hy) (.inl rfl)

theorem SameChoices.bestPredecessor_eq :
    (bestPredecessor F profile₁ threshold₁ statsOn₁ bfsOrder visited stats₁ bb).1 =
      (bestPredecessor F profile₂ threshold₂ statsOn₂ bfsOrder visited stats₂ bb).1 := by
  rw [bestPredecessor, bestPredecessor]
  dsimp only
  rw [considerEdge_best, considerEdge_best]
  apply scanMax_isEligible_congr
  · intro x hx
    exact h.likely x bb (.inr hx)
  · intro x hx y hy
    exact h.compete x bb y bb (.inr hx) (.inr hy) (.inr rfl)

theorem SameChoices.growForward_eq {fuel : ℕ} {st₁ st₂ : GrowState} (hst : st₁.blocks = st₂.blocks) :
    (growForward F profile₁ threshold₁ statsOn₁ bfsOrder fuel current st₁).map GrowState.blocks =
      (growForward F profile₂ threshold₂ statsOn₂ bfsOrder fuel current st₂).map
        GrowState.blocks := by
  induction fuel generalizing current st₁ st₂ with
  | zero => rfl
  | succ fuel ih =>
    obtain ⟨htrace, hvisited⟩ := Prod.mk.inj hst
    have hbest : (bestSuccessor F profile₁ threshold₁ statsOn₁ bfsOrder st₁.visited st₁.stats
        current).1 = (bestSuccessor F profile₂ threshold₂ statsOn₂ bfsOrder st₁.visited st₂.stats
          current).1 := h.bestSuccessor_eq
    rw [growForward, growForward, ← hvisited]
    cases h₁ : bestSuccessor F profile₁ threshold₁ statsOn₁ bfsOrder st₁.visited st₁.stats current with
    | mk best₁ stats₁ =>
      cases h₂ : bestSuccessor F profile₂ threshold₂ statsOn₂ bfsOrder st₁.visited st₂.stats
          current with
      | mk best₂ stats₂ =>
        rw [h₁, h₂] at hbest
        obtain rfl : best₁ = best₂ := hbest
        cases best₁ with
        | none => exact congrArg some (Prod.ext htrace rfl)
        | some next =>
          apply ih
          rw [GrowState.blocks, GrowState.blocks, htrace]

theorem SameChoices.growBackward_eq {fuel : ℕ} {st₁ st₂ : GrowState}
    (hst : st₁.blocks = st₂.blocks) :
    (growBackward F profile₁ threshold₁ statsOn₁ bfsOrder fuel current st₁).map GrowState.blocks =
      (growBackward F profile₂ threshold₂ statsOn₂ bfsOrder fuel current st₂).map
        GrowState.blocks := by
  induction fuel generalizing current st₁ st₂ with
  | zero => rfl
  | succ fuel ih =>
    obtain ⟨htrace, hvisited⟩ := Prod.mk.inj hst
    have hbest : (bestPredecessor F profile₁ threshold₁ statsOn₁ bfsOrder st₁.visited st₁.stats
        current).1 = (bestPredecessor F profile₂ threshold₂ statsOn₂ bfsOrder st₁.visited st₂.stats
          current).1 := h.bestPredecessor_eq
    rw [growBackward, growBackward, ← hvisited]
    cases h₁ : bestPredecessor F profile₁ threshold₁ statsOn₁ bfsOrder st₁.visited st₁.stats
        current with
    | mk best₁ stats₁ =>
      cases h₂ : bestPredecessor F profile₂ threshold₂ statsOn₂ bfsOrder st₁.visited st₂.stats
          current with
      | mk best₂ stats₂ =>
        rw [h₁, h₂] at hbest
        obtain rfl : best₁ = best₂ := hbest
        cases best₁ with
        | none => exact congrArg some (Prod.ext htrace rfl)
        | some prev =>
          apply ih
          rw [GrowState.blocks, GrowState.blocks, htrace]

theorem SameChoices.growTrace_eq {fuel : ℕ} :
    (growTrace F profile₁ threshold₁ statsOn₁ bfsOrder fuel seed visited stats₁).map
        GrowState.blocks =
      (growTrace F profile₂ threshold₂ statsOn₂ bfsOrder fuel seed visited stats₂).map
        GrowState.blocks := by
  rw [growTrace, growTrace]
  exact bind_map_congr (h.growForward_eq rfl) fun _ _ hst => h.growBackward_eq hst

theorem SameChoices.seedLoop_eq {growFuel fuel : ℕ} {candidates : List BasicBlock}
    {st₁ st₂ : TraceState} (hst : st₁.blocks = st₂.blocks) :
    (seedLoop F profile₁ threshold₁ statsOn₁ bfsOrder growFuel fuel candidates st₁).map
        TraceState.blocks =
      (seedLoop F profile₂ threshold₂ statsOn₂ bfsOrder growFuel fuel candidates st₂).map
        TraceState.blocks := by
  induction fuel generalizing candidates st₁ st₂ with
  | zero => rfl
  | succ fuel ih =>
    obtain ⟨htraces, hvisited⟩ := Prod.mk.inj hst
    rw [seedLoop, seedLoop, ← hvisited]
    cases candidates.dropWhile fun bb => st₁.visited.contains bb with
    | nil => exact congrArg some hst
    | cons seed rest =>
      dsimp only
      by_cases hcold : profile₁.blockFreq seed = 0
      · rw [if_pos hcold, if_pos ((h.cold seed).mp hcold)]
        exact congrArg some hst
      · rw [if_neg hcold, if_neg fun h₂ => hcold ((h.cold seed).mpr h₂)]
        have hgrow : (growTrace F profile₁ threshold₁ statsOn₁ bfsOrder growFuel seed st₁.visited
            st₁.stats).map GrowState.blocks = (growTrace F profile₂ threshold₂ statsOn₂ bfsOrder
              growFuel seed st₁.visited st₂.stats).map GrowState.blocks := h.growTrace_eq
        cases h₁ : growTrace F profile₁ threshold₁ statsOn₁ bfsOrder growFuel seed st₁.visited
            st₁.stats with
        | none =>
          rw [h₁, Option.map_none, eq_comm, Option.map_eq_none_iff] at hgrow
          rw [hgrow]
        | some grown₁ =>
          rw [h₁] at hgrow
          obtain ⟨grown₂, h₂, hgrown⟩ := Option.map_eq_some_iff.mp hgrow.symm
          obtain ⟨htrace, hvisited'⟩ := Prod.mk.inj hgrown
          rw [h₂]
          apply ih
          rw [TraceState.blocks, TraceState.blocks, htraces, htrace, hvisited']

/-- **The traces depend on the profile through its comparisons only.** -/
theorem SameChoices.identifyTraces_eq :
    (identifyTraces F profile₁ threshold₁ statsOn₁).map TraceState.blocks =
      (identifyTraces F profile₂ threshold₂ statsOn₂).map TraceState.blocks := by
  rw [identifyTraces, identifyTraces]
  cases F.cfg.breadthFirst (F.blocks.length + 1) with
  | none => rfl
  | some bfsOrder =>
    have hsort := byKeyDesc_congr (l := bfsOrder) h.freq
    rw [byKeyDesc, byKeyDesc] at hsort
    simp only [Option.bind_eq_bind, Option.bind_some, hsort]
    exact h.seedLoop_eq rfl

end Growth

/-! ### One trace -/

section

variable {universeIndex : Value → Option ℕ} {liveness : LivenessResult} {useRegPressure : Bool}

/-- The main loop without the peak it records. -/
def ListState.withoutPeak (st : ListState) : ListState := { st with peakLivePressure := 0 }

theorem listLoop_withoutPeak {fuel : ℕ} {st₁ st₂ : ListState}
    (hst : st₁.withoutPeak = st₂.withoutPeak) :
    (listLoop F universeIndex liveness useRegPressure statsOn₁ fuel st₁).map
        ListState.withoutPeak =
      (listLoop F universeIndex liveness useRegPressure statsOn₂ fuel st₂).map
        ListState.withoutPeak := by
  induction fuel generalizing st₁ st₂ with
  | zero => rfl
  | succ fuel ih =>
    obtain ⟨ddg, queue, schedule, live, peak₁⟩ := st₁
    obtain ⟨_, _, _, _, peak₂⟩ := st₂
    obtain ⟨rfl, rfl, rfl, rfl, _⟩ := ListState.mk.inj hst
    rw [listLoop, listLoop]
    dsimp only
    split
    · rfl
    · cases pickBest F universeIndex liveness ddg queue live useRegPressure with
      | none => rfl
      | some best => exact ih rfl

theorem listSchedule_schedule_eq (g : DDG) (currentLive : Finset ℕ) (peak₁ peak₂ : ℕ) :
    (listSchedule F universeIndex liveness g currentLive useRegPressure statsOn₁ peak₁).map
        Prod.fst =
      (listSchedule F universeIndex liveness g currentLive useRegPressure statsOn₂ peak₂).map
        Prod.fst := by
  have hloop : (listLoop F universeIndex liveness useRegPressure statsOn₁ (g.nodes.length + 1)
      (initialListState F statsOn₁ g currentLive peak₁)).map ListState.withoutPeak =
        (listLoop F universeIndex liveness useRegPressure statsOn₂ (g.nodes.length + 1)
          (initialListState F statsOn₂ g currentLive peak₂)).map ListState.withoutPeak :=
    listLoop_withoutPeak rfl
  have hmap := congrArg (Option.map ListState.schedule) hloop
  rw [Option.map_map, Option.map_map] at hmap
  rw [listSchedule, listSchedule, Option.map_map, Option.map_map]
  exact hmap

end

/-- Phase 2 without its statistics. -/
def HoistState.code (st : HoistState) : Trail × (BasicBlock → Finset ℕ) := (st.trail, st.dynamicLive)

section

variable {G : FlowGraph BasicBlock} {ctx : HoistContext G} {budget : ℤ} {st₁ st₂ : HoistState}
  {i : InstrId} (hbudget : ctx.usePressure = true → budget = ctx.pressureBudget)

include hbudget

/-- No check reads the switch, and the budget is read only when pressure is respected. -/
theorem rejectReason_code (hst : st₁.code = st₂.code) (origBB targetBB : BasicBlock) :
    rejectReason { ctx with statsOn := statsOn₁, pressureBudget := budget } st₁ i origBB targetBB =
      rejectReason ctx st₂ i origBB targetBB := by
  obtain ⟨trail, live, stats₁⟩ := st₁
  obtain ⟨_, _, stats₂⟩ := st₂
  obtain ⟨rfl, rfl⟩ := Prod.mk.inj hst
  rw [rejectReason, rejectReason]
  dsimp only
  cases huse : ctx.usePressure with
  | false => simp only [Bool.false_and]
  | true => rw [hbudget huse]

theorem hoistStep_code (hst : st₁.code = st₂.code) :
    (hoistStep { ctx with statsOn := statsOn₁, pressureBudget := budget } st₁ i).code =
      (hoistStep ctx st₂ i).code := by
  have htrail : st₁.trail = st₂.trail := (Prod.mk.inj hst).1
  have htarget : chosenTarget { ctx with statsOn := statsOn₁, pressureBudget := budget } st₁ i =
      chosenTarget ctx st₂ i := by
    rw [chosenTarget, chosenTarget, htrail]
    simp only [rejectReason_code hbudget hst]
  obtain ⟨stats₁, h₁⟩ :=
    hoistStep_eq { ctx with statsOn := statsOn₁, pressureBudget := budget } st₁ i
  obtain ⟨stats₂, h₂⟩ := hoistStep_eq ctx st₂ i
  rw [h₁, h₂, htarget]
  cases chosenTarget ctx st₂ i with
  | none => exact hst
  | some t =>
    obtain ⟨trail, live, _⟩ := st₁
    obtain ⟨_, _, _⟩ := st₂
    obtain ⟨rfl, rfl⟩ := Prod.mk.inj hst
    dsimp only [HoistState.code]
    rw [hoistTo, hoistTo]
    dsimp only
    cases trail.current.getTerminator t with
    | none => rfl
    | some insertPoint => rfl

end

/-! ### The passes -/

section

variable {G : FlowGraph BasicBlock} {A : Analyses G} {universeIndex : Value → Option ℕ}
  {livenessResult : LivenessResult} {usePressure : Bool} {budget₁ budget₂ : ℤ}
  (hbudget : usePressure = true → budget₁ = budget₂)

include hbudget

theorem applySchedule_trail_eq (schedule : List InstrId) (trace : List BasicBlock) (tr : Trail)
    (stats₁ stats₂ : HoistStats) :
    (applySchedule A universeIndex livenessResult usePressure budget₁ statsOn₁ schedule trace tr
        stats₁).trail =
      (applySchedule A universeIndex livenessResult usePressure budget₂ statsOn₂ schedule trace tr
        stats₂).trail := by
  let ctx := hoistContext A universeIndex livenessResult usePressure budget₂ statsOn₂ tr.current trace
  have hstep : ∀ (st₁ st₂ : HoistState) (i : InstrId), st₁.code = st₂.code →
      (hoistStep { ctx with statsOn := statsOn₁, pressureBudget := budget₁ } st₁ i).code =
        (hoistStep ctx st₂ i).code := fun _ _ _ hst => hoistStep_code hbudget hst
  have hstart : HoistState.code
        ⟨reorderTrace schedule trace tr, fun bb => (livenessResult bb).inSet, stats₁⟩ =
      HoistState.code
        ⟨reorderTrace schedule trace tr, fun bb => (livenessResult bb).inSet, stats₂⟩ := rfl
  have hcode := foldl_congr_of_step hstep schedule hstart
  exact congrArg Prod.fst hcode

theorem scheduleTrace_trail_eq {st₁ st₂ : PassState} (hst : st₁.trail = st₂.trail)
    (e : DDG × List BasicBlock) :
    (scheduleTrace A universeIndex livenessResult usePressure budget₁ statsOn₁ st₁ e).map
        PassState.trail =
      (scheduleTrace A universeIndex livenessResult usePressure budget₂ statsOn₂ st₂ e).map
        PassState.trail := by
  rw [scheduleTrace, scheduleTrace, hst]
  cases e.2.head? with
  | none => rfl
  | some firstBB =>
    simp only [Option.bind_eq_bind, Option.bind_some]
    apply bind_map_congr
      (listSchedule_schedule_eq e.1 _ st₁.peakLivePressure st₂.peakLivePressure)
    rintro ⟨schedule, peak₁⟩ ⟨_, peak₂⟩ rfl
    exact congrArg some (applySchedule_trail_eq hbudget schedule e.2 st₂.trail st₁.hoistStats
      st₂.hoistStats)

end

/-- Two runs of the global pass from choices that agree. -/
theorem SameChoices.trail_eq {env₁ env₂ : SchedEnv} {usePressure : Bool}
    (h : SameChoices F profile₁ (getTraceThreshold env₁) profile₂ (getTraceThreshold env₂))
    (hbudget : usePressure = true → getPressureBudget env₁ = getPressureBudget env₂)
    (A : Analyses F.cfg) :
    (globalSchedulerPass usePressure env₁ F profile₁ A).map PassState.trail =
      (globalSchedulerPass usePressure env₂ F profile₂ A).map PassState.trail := by
  rw [globalSchedulerPass, globalSchedulerPass]
  cases computeLiveness F with
  | none => rfl
  | some livenessResult =>
    simp only [Option.bind_eq_bind, Option.bind_some]
    apply bind_map_congr h.identifyTraces_eq
    intro traces₁ traces₂ htraces
    obtain ⟨heq, _⟩ := Prod.mk.inj htraces
    rw [heq]
    cases (traces₂.traces.map (buildDDG F)).mapM DDG.computeCriticalPath with
    | none => rfl
    | some ddgs =>
      apply foldlM_map_congr
      · intro st₁ st₂ e hst
        exact scheduleTrace_trail_eq hbudget hst e
      · rfl

/-- **Only the order of a profile matters.** Two profiles that compare alike, each with its threshold,
give the same traces and the same code at every moment of the pass, with the pressure budget and
without. -/
theorem globalSchedulerPass_profileOrder {env₁ env₂ : SchedEnv}
    (h : SameChoices F profile₁ (getTraceThreshold env₁) profile₂ (getTraceThreshold env₂))
    (hbudget : getPressureBudget env₁ = getPressureBudget env₂) (A : Analyses F.cfg) :
    (identifyTraces F profile₁ (getTraceThreshold env₁) (schedStatsEnabled env₁)).map
        TraceState.traces =
      (identifyTraces F profile₂ (getTraceThreshold env₂) (schedStatsEnabled env₂)).map
        TraceState.traces ∧
    ∀ usePressure, (globalSchedulerPass usePressure env₁ F profile₁ A).map PassState.trail =
      (globalSchedulerPass usePressure env₂ F profile₂ A).map PassState.trail := by
  refine ⟨?_, fun usePressure => h.trail_eq (fun _ => hbudget) A⟩
  have htraces : (identifyTraces F profile₁ (getTraceThreshold env₁) (schedStatsEnabled env₁)).map
      TraceState.blocks = (identifyTraces F profile₂ (getTraceThreshold env₂)
        (schedStatsEnabled env₂)).map TraceState.blocks := h.identifyTraces_eq
  have hblocks := congrArg (Option.map Prod.fst) htraces
  rw [Option.map_map, Option.map_map] at hblocks
  exact hblocks

/-- Another profile in which the edge of `twoBlocks` is likely, under a stricter threshold. -/
theorem twoBlocks_profileOrder :
    SameChoices twoBlocks certain (getTraceThreshold ⟨none, none, false⟩)
      ⟨fun _ _ => 1900000000, fun _ => 7⟩ (getTraceThreshold ⟨some 80, none, true⟩) ∧
    (globalSchedulerPass true ⟨none, none, false⟩ twoBlocks certain twoBlocksAnalyses).map
        PassState.trail =
      (globalSchedulerPass true ⟨some 80, none, true⟩ twoBlocks
        ⟨fun _ _ => 1900000000, fun _ => 7⟩ twoBlocksAnalyses).map PassState.trail := by
  have h : SameChoices twoBlocks certain (getTraceThreshold ⟨none, none, false⟩)
      ⟨fun _ _ => 1900000000, fun _ => 7⟩ (getTraceThreshold ⟨some 80, none, true⟩) := by
    refine ⟨fun a b _ => ⟨fun _ => ?_, fun _ => ?_⟩, fun a b c d _ _ _ _ _ => ?_,
      fun a b => ?_, fun a => ?_⟩
    · show getTraceThreshold ⟨some 80, none, true⟩ < 1900000000
      decide
    · show getTraceThreshold ⟨none, none, false⟩ < 2 ^ 31
      decide
    · exact iff_of_false (Nat.lt_irrefl _) (Nat.lt_irrefl _)
    · show 1 ≤ 1 ↔ 7 ≤ 7
      decide
    · show 1 = 0 ↔ 7 = 0
      decide
  exact ⟨h, (globalSchedulerPass_profileOrder h rfl twoBlocksAnalyses).2 true⟩

end TraceScheduler
