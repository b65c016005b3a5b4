import TraceScheduler.CodeMotion
import TraceScheduler.Ddg
import TraceScheduler.ListScheduler
import TraceScheduler.TraceIdentification

/-!
# Applying a schedule

`applySchedule` works on one trace.  Phase 1 rewrites the regions of each block.  Phase 2 goes through
the schedule once and moves each non-anchor to the end of the first block of the trace that passes
every check: no loop header, same innermost loop, dominates the original block, operands dominate its
terminator, safe to execute there, and (with `usePressure`) within the register budget.

The LLVM analyses are answers supplied from outside (`Analyses`).  Only the dominator tree comes with
its meaning; whatever else a result needs of them is a hypothesis of that result.

Phase 2 refines the legal hoists of `CodeMotion` (`Phase2Inv.hoistStep`): the checks it makes are the ones
a hoist needs, because an instruction is still in its original block when its turn comes.
-/

namespace TraceScheduler

open scoped List

/-- What the pass asks LLVM about a function with control-flow graph `G`. A loop is known by a
number; the speculation query sees the function as it stands. -/
structure Analyses (G : FlowGraph BasicBlock) where
  DT : DominatorTree G
  isLoopHeader : BasicBlock → Bool
  getLoopFor : BasicBlock → Option ℕ
  isSafeToSpeculativelyExecute : Function → InstrId → InstrId → Bool

/-- The register pressure budget. -/
def getPressureBudget (env : SchedEnv) : ℤ :=
  match env.pressureBudget with
  | some parsed => if parsed > 0 then parsed else 12
  | none => 12

structure HoistStats where
  candidates : ℕ
  done : ℕ
  blockedDominance : ℕ
  blockedLoop : ℕ
  blockedOperand : ℕ
  blockedUnsafe : ℕ
  blockedPressure : ℕ
  deriving DecidableEq, Repr

/-- Why a target was rejected. -/
inductive BlockReason
  | none | loop | dominance | operand | unsafeTarget | pressure
  deriving DecidableEq, Repr

/-- The order of the enumeration in the source. -/
def BlockReason.rank : BlockReason → ℕ
  | .none => 0
  | .loop => 1
  | .dominance => 2
  | .operand => 3
  | .unsafeTarget => 4
  | .pressure => 5

/-- Everything Phase 2 reads and does not change. -/
structure HoistContext (G : FlowGraph BasicBlock) where
  analyses : Analyses G
  universeIndex : Value → Option ℕ
  liveness : LivenessResult
  usePressure : Bool
  pressureBudget : ℤ
  statsOn : Bool
  trace : List BasicBlock
  originalBlock : InstrId → Option BasicBlock

structure HoistState where
  trail : Trail
  dynamicLive : BasicBlock → Finset ℕ
  stats : HoistStats

/-- Both blocks have the same innermost loop, or none. -/
def isSameLoopOrOuter {G : FlowGraph BasicBlock} (A : Analyses G) (fromBB targetBB : BasicBlock) :
    Bool :=
  match A.getLoopFor fromBB, A.getLoopFor targetBB with
  | none, none => true
  | none, some _ => false
  | some _, none => false
  | some fromLoop, some targetLoop => fromLoop == targetLoop

section

variable {G : FlowGraph BasicBlock} (ctx : HoistContext G)

/-- The first check that `targetBB` fails, if any. -/
def rejectReason (st : HoistState) (i : InstrId) (origBB targetBB : BasicBlock) :
    Option BlockReason :=
  let F := st.trail.current
  if ctx.analyses.isLoopHeader targetBB then some .loop
  else if !isSameLoopOrOuter ctx.analyses origBB targetBB then some .loop
  else if !ctx.analyses.DT.dominates targetBB origBB then some .dominance
  else
    match F.getTerminator targetBB with
    | none => some .unsafeTarget
    | some insertPoint =>
        if (operandInstructions (F.instr i)).any fun d =>
            !ctx.analyses.DT.dominatesInst F d insertPoint then some .operand
        else if !ctx.analyses.isSafeToSpeculativelyExecute F i insertPoint then some .unsafeTarget
        else if ctx.usePressure && decide (((st.dynamicLive targetBB).card : ℤ) +
            pressureDelta F ctx.universeIndex ctx.liveness i (st.dynamicLive targetBB) >
              ctx.pressureBudget) then some .pressure
        else none

/-- Move `i` before the terminator of the target, and record its value as live there. -/
def hoistTo (st : HoistState) (i : InstrId) (targetBB : BasicBlock) : HoistState :=
  let F := st.trail.current
  match F.getTerminator targetBB with
  | none => st
  | some insertPoint =>
      { st with
        trail := st.trail.commit (F.moveBefore i targetBB insertPoint)
        dynamicLive :=
          if (F.instr i).isVoidTy then st.dynamicLive
          else
            match ctx.universeIndex (.instruction i) with
            | some idx =>
                Function.update st.dynamicLive targetBB (insert idx (st.dynamicLive targetBB))
            | none => st.dynamicLive }

def noteReason (bestReason r : BlockReason) : BlockReason :=
  if ctx.statsOn && decide (r.rank > bestReason.rank) then r else bestReason

/-- Try the targets in order: the state afterwards, whether the instruction moved, and the reason
noted. -/
def tryTargets (st : HoistState) (i : InstrId) (origBB : BasicBlock) :
    List BasicBlock → BlockReason → HoistState × Bool × BlockReason
  | [], bestReason => (st, false, bestReason)
  | targetBB :: targets, bestReason =>
      match rejectReason ctx st i origBB targetBB with
      | some r => tryTargets st i origBB targets (noteReason ctx bestReason r)
      | none => (hoistTo ctx st i targetBB, true, bestReason)

namespace HoistStats

/-- The counter of a candidate that stayed where it was. -/
def countBlocked (s : HoistStats) : BlockReason → HoistStats
  | .none => s
  | .loop => { s with blockedLoop := s.blockedLoop + 1 }
  | .dominance => { s with blockedDominance := s.blockedDominance + 1 }
  | .operand => { s with blockedOperand := s.blockedOperand + 1 }
  | .unsafeTarget => { s with blockedUnsafe := s.blockedUnsafe + 1 }
  | .pressure => { s with blockedPressure := s.blockedPressure + 1 }

end HoistStats

/-- One instruction of the schedule. -/
def hoistStep (st : HoistState) (i : InstrId) : HoistState :=
  let F := st.trail.current
  let origBB := (ctx.originalBlock i).getD (F.getParent i)
  match ctx.trace.idxOf? origBB with
  | none => st
  | some origIdx =>
      let isCandidate := ctx.statsOn && decide (origIdx > 0)
      let st :=
        if isCandidate then { st with stats.candidates := st.stats.candidates + 1 } else st
      if isSchedulingAnchor (F.instr i) then
        if isCandidate then { st with stats.blockedUnsafe := st.stats.blockedUnsafe + 1 } else st
      else
        let (st, moved, bestReason) :=
          tryTargets ctx st i origBB (ctx.trace.take origIdx) .none
        if isCandidate then
          if moved then { st with stats.done := st.stats.done + 1 }
          else { st with stats := st.stats.countBlocked bestReason }
        else st

end

/-- The block of a trace that holds an instruction. -/
def originalBlockOf (F : Function) (trace : List BasicBlock) (i : InstrId) : Option BasicBlock :=
  trace.find? fun bb => (F.body bb).contains i

/-- Phase 1: rewrite the regions of every block of the trace. -/
def reorderTrace (schedule : List InstrId) (trace : List BasicBlock) (tr : Trail) : Trail :=
  trace.foldl (fun tr bb => reorderBlockWithinRegions schedule bb tr) tr

section

variable {G : FlowGraph BasicBlock} (A : Analyses G) (universeIndex : Value → Option ℕ)
  (liveness : LivenessResult) (usePressure : Bool) (pressureBudget : ℤ) (statsOn : Bool)

/-- What Phase 2 reads on a trace of the function `F`. -/
def hoistContext (F : Function) (trace : List BasicBlock) : HoistContext G :=
  ⟨A, universeIndex, liveness, usePressure, pressureBudget, statsOn, trace, originalBlockOf F trace⟩

/-- Both phases on one trace. -/
def applySchedule (schedule : List InstrId) (trace : List BasicBlock) (tr : Trail)
    (stats : HoistStats) : HoistState :=
  schedule.foldl
    (hoistStep (hoistContext A universeIndex liveness usePressure pressureBudget statsOn tr.current
      trace))
    ⟨reorderTrace schedule trace tr, fun bb => (liveness bb).inSet, stats⟩

end

/-! ### One target -/

variable {G : FlowGraph BasicBlock} {ctx : HoistContext G} {st : HoistState} {F : Function}
  {i : InstrId} {origBB targetBB : BasicBlock}

/-- The checks of Phase 2 apart from the pressure budget. -/
structure LegalTarget (A : Analyses G) (F : Function) (i : InstrId) (origBB targetBB : BasicBlock) :
    Prop where
  not_header : A.isLoopHeader targetBB = false
  same_loop : isSameLoopOrOuter A origBB targetBB = true
  dominates : G.Dominates targetBB origBB
  insertion : ∃ t, F.getTerminator targetBB = some t ∧ (∀ d, F.Uses i d → F.InstDominates d t) ∧
    A.isSafeToSpeculativelyExecute F i t = true

/-- The register pressure at the target stays within the budget. -/
def WithinBudget (ctx : HoistContext G) (st : HoistState) (i : InstrId) (targetBB : BasicBlock) :
    Prop :=
  ctx.usePressure = true → ((st.dynamicLive targetBB).card : ℤ) +
    pressureDelta st.trail.current ctx.universeIndex ctx.liveness i (st.dynamicLive targetBB) ≤
      ctx.pressureBudget

/-- A target is accepted when it is legal and within the budget. -/
theorem rejectReason_eq_none (hwf : st.trail.current.WellFormed) (hcfg : st.trail.current.cfg = G) :
    rejectReason ctx st i origBB targetBB = none ↔
      LegalTarget ctx.analyses st.trail.current i origBB targetBB ∧
        WithinBudget ctx st i targetBB := by
  have hinst : ∀ t, st.trail.current.getTerminator targetBB = some t →
      ((((operandInstructions (st.trail.current.instr i)).any fun d =>
        !ctx.analyses.DT.dominatesInst st.trail.current d t) = true) ↔
          ¬ ∀ d, st.trail.current.Uses i d → st.trail.current.InstDominates d t) := by
    intro t ht
    have hphi : (st.trail.current.instr t).isPHI = false := by
      by_contra hphi
      have := (Function.getTerminator_eq_some.mp ht).2
      rw [Instruction.not_isTerminator_of_isPHI (by simpa using hphi)] at this
      cases this
    simp only [List.any_eq_true, mem_operandInstructions, Bool.not_eq_true', ← Bool.not_eq_true,
      ctx.analyses.DT.dominatesInst_iff st.trail.current hwf hcfg _ t hphi, not_forall, exists_prop]
  rw [rejectReason]
  constructor
  · intro h
    split at h
    · cases h
    rename_i hheader
    split at h
    · cases h
    rename_i hloop
    split at h
    · cases h
    rename_i hdom
    split at h
    · cases h
    rename_i t ht
    split at h
    · cases h
    rename_i hops
    split at h
    · cases h
    rename_i hsafe
    split at h
    · cases h
    rename_i hpressure
    rw [hinst t ht, not_not] at hops
    refine ⟨⟨by simpa using hheader, by simpa using hloop, ?_, t, ht, hops, by simpa using hsafe⟩, ?_⟩
    · rw [← ctx.analyses.DT.dominates_iff]
      simpa using hdom
    · intro huse
      simpa [huse] using hpressure
  · rintro ⟨⟨hheader, hloop, hdom, t, ht, hops, hsafe⟩, hpressure⟩
    rw [← ctx.analyses.DT.dominates_iff] at hdom
    rw [if_neg (by simp [hheader]), if_neg (by simp [hloop]), if_neg (by simp [hdom])]
    simp only [ht]
    rw [if_neg (by rw [hinst t ht, not_not]; exact hops), if_neg (by simp [hsafe]), if_neg]
    simp only [Bool.and_eq_true, decide_eq_true_eq, not_and, not_lt]
    exact hpressure

/-! ### One instruction -/

/-- The first acceptable target of an instruction, if it has one. -/
def chosenTarget (ctx : HoistContext G) (st : HoistState) (i : InstrId) : Option BasicBlock :=
  let F := st.trail.current
  let origBB := (ctx.originalBlock i).getD (F.getParent i)
  match ctx.trace.idxOf? origBB with
  | none => none
  | some origIdx =>
      if isSchedulingAnchor (F.instr i) then none
      else (ctx.trace.take origIdx).find? fun t => (rejectReason ctx st i origBB t).isNone

theorem tryTargets_eq (ctx : HoistContext G) (st : HoistState) (i : InstrId) (origBB : BasicBlock)
    (targets : List BasicBlock) (bestReason : BlockReason) :
    (tryTargets ctx st i origBB targets bestReason).1 =
      match targets.find? fun t => (rejectReason ctx st i origBB t).isNone with
      | none => st
      | some t => hoistTo ctx st i t := by
  induction targets generalizing bestReason with
  | nil => rfl
  | cons t ts ih =>
    rw [tryTargets]
    cases h : rejectReason ctx st i origBB t with
    | some r => simp [h, ih]
    | none => simp [h]

theorem hoistTo_stats {stats : HoistStats} :
    hoistTo ctx { st with stats := stats } i targetBB =
      { hoistTo ctx st i targetBB with stats := stats } := by
  rw [hoistTo, hoistTo]
  dsimp only
  cases st.trail.current.getTerminator targetBB with
  | none => rfl
  | some t => rfl

/-- Apart from the statistics, a step makes the chosen move and nothing else. -/
theorem hoistStep_eq (ctx : HoistContext G) (st : HoistState) (i : InstrId) : ∃ stats, hoistStep ctx st i =
    match chosenTarget ctx st i with
    | none => { st with stats := stats }
    | some t => { hoistTo ctx st i t with stats := stats } := by
  rw [hoistStep, chosenTarget]
  dsimp only
  cases ctx.trace.idxOf? ((ctx.originalBlock i).getD (st.trail.current.getParent i)) with
  | none => exact ⟨st.stats, rfl⟩
  | some k =>
    dsimp only
    obtain ⟨stats₁, hst₁⟩ : ∃ stats₁, (if (ctx.statsOn && decide (k > 0)) = true then
        { st with stats.candidates := st.stats.candidates + 1 } else st) =
          { st with stats := stats₁ } := by
      split
      · exact ⟨_, rfl⟩
      · exact ⟨st.stats, rfl⟩
    rw [hst₁]
    split
    · split
      · exact ⟨_, rfl⟩
      · exact ⟨_, rfl⟩
    · have htry := tryTargets_eq ctx { st with stats := stats₁ } i
        ((ctx.originalBlock i).getD (st.trail.current.getParent i)) (ctx.trace.take k) .none
      generalize tryTargets ctx { st with stats := stats₁ } i
        ((ctx.originalBlock i).getD (st.trail.current.getParent i)) (ctx.trace.take k) .none = r at htry ⊢
      obtain ⟨st₂, moved, bestReason⟩ := r
      have hfind : ((ctx.trace.take k).find? fun t => (rejectReason ctx { st with stats := stats₁ } i
          ((ctx.originalBlock i).getD (st.trail.current.getParent i)) t).isNone) =
          (ctx.trace.take k).find? fun t => (rejectReason ctx st i
            ((ctx.originalBlock i).getD (st.trail.current.getParent i)) t).isNone := rfl
      rw [hfind] at htry
      have hfinal : ∃ stats, (if (ctx.statsOn && decide (k > 0)) = true then
          if moved = true then { st₂ with stats.done := st₂.stats.done + 1 }
          else { st₂ with stats := st₂.stats.countBlocked bestReason }
          else st₂) = { st₂ with stats := stats } := by
        split
        · split
          · exact ⟨_, rfl⟩
          · exact ⟨_, rfl⟩
        · exact ⟨st₂.stats, rfl⟩
      obtain ⟨stats, hstats⟩ := hfinal
      refine ⟨stats, hstats.trans ?_⟩
      change st₂ = _ at htry
      rw [htry]
      split
      · rfl
      · rw [hoistTo_stats]

theorem hoistStep_trail (ctx : HoistContext G) (st : HoistState) (i : InstrId) :
    (hoistStep ctx st i).trail =
      match chosenTarget ctx st i with
      | none => st.trail
      | some t => (hoistTo ctx st i t).trail := by
  obtain ⟨stats, hstep⟩ := hoistStep_eq ctx st i
  rw [hstep]
  cases chosenTarget ctx st i with
  | none => rfl
  | some t => rfl

/-! ### Hoists are legal -/

/-- What is known of an accepted move besides dominance: it goes up the trace, to a target that is no
loop header, has the same innermost loop, and was found safe for the instruction. -/
def HoistOk (A : Analyses G) (trace : List BasicBlock) (i : InstrId) (src dst : BasicBlock) : Prop :=
  src ∈ trace ∧ dst ∈ trace ∧ trace.idxOf dst < trace.idxOf src ∧ A.isLoopHeader dst = false ∧
    isSameLoopOrOuter A src dst = true ∧
    ∃ F t, A.isSafeToSpeculativelyExecute F i t = true

/-- A hoist out of a block it is in, as the single list edit it amounts to. -/
theorem moveBefore_eq {src dst : BasicBlock} {pre post l : List InstrId} {t : InstrId}
    (hwf : F.WellFormed) (hsrc : F.body src = pre ++ i :: post) (hdst : F.body dst = l ++ [t])
    (hne : dst ≠ src) : F.moveBefore i dst t = { F with
      body := Function.update (Function.update F.body src (pre ++ post)) dst (l ++ [i, t]) } := by
  have hi : i ∈ F.body src := by rw [hsrc]; simp
  have hipre : i ∉ pre := by
    have hnd := hwf.body_nodup src
    rw [hsrc] at hnd
    exact fun h => (List.nodup_append.mp hnd).2.2 i h i List.mem_cons_self rfl
  have htl : t ∉ l := by
    have hnd := hwf.body_nodup dst
    rw [hdst] at hnd
    exact fun h => (List.nodup_append.mp hnd).2.2 t h t List.mem_cons_self rfl
  rw [Function.moveBefore]
  congr 1
  funext b
  by_cases hbd : b = dst
  · subst hbd
    rw [if_pos rfl, Function.update_self, List.erase_of_not_mem (hwf.not_mem_of_ne hi hne), hdst,
      insertBefore_append htl]
  · rw [if_neg hbd, Function.update_of_ne hbd]
    by_cases hbs : b = src
    · subst hbs
      rw [Function.update_self, hsrc, List.erase_append_right _ hipre, List.erase_cons_head]
    · rw [Function.update_of_ne hbs, List.erase_of_not_mem (hwf.not_mem_of_ne hi hbs)]

/-- A trace that Phase 2 is about to work on, in the function as it was before Phase 1. -/
structure OnTrace (ctx : HoistContext G) (F₁ : Function) : Prop where
  wf : F₁.WellFormed
  cfg : F₁.cfg = G
  reachable : ∀ b ∈ ctx.trace, G.Reachable b
  original : ctx.originalBlock = originalBlockOf F₁ ctx.trace

/-- The function so far, and instructions whose turn has not come. -/
structure Phase2Inv (ctx : HoistContext G) (F₁ : Function) (rest : List InstrId) (st : HoistState) :
    Prop where
  moved : Motions (HoistOk ctx.analyses ctx.trace) F₁ st.trail.current
  pending : ∀ i ∈ rest, ∀ b, i ∈ st.trail.current.body b ↔ i ∈ F₁.body b

section Phase2

variable {F₁ : Function} {rest : List InstrId}

theorem originalBlockOf_eq (hwf : F₁.WellFormed) {trace : List BasicBlock} (hi : i ∈ F₁.body origBB)
    (ho : origBB ∈ trace) : originalBlockOf F₁ trace i = some origBB := by
  have hsome : (originalBlockOf F₁ trace i).isSome :=
    List.find?_isSome.mpr ⟨origBB, ho, by simpa using hi⟩
  obtain ⟨b, hb⟩ := Option.isSome_iff_exists.mp hsome
  have hmem : i ∈ F₁.body b := by simpa using List.find?_some hb
  rw [hb, hwf.body_unique hmem hi]

/-- For an instruction of the trace the choice is among the blocks before its own. -/
theorem chosenTarget_eq (hctx : OnTrace ctx F₁) (ho : origBB ∈ ctx.trace)
    (hi : i ∈ F₁.body origBB) : chosenTarget ctx st i =
      if isSchedulingAnchor (st.trail.current.instr i) then none
      else (ctx.trace.take (ctx.trace.idxOf origBB)).find? fun t =>
        (rejectReason ctx st i origBB t).isNone := by
  rw [chosenTarget, hctx.original, originalBlockOf_eq hctx.wf hi ho, Option.getD_some,
    idxOf?_eq_some ho]

/-- What is known of a chosen target. -/
theorem chosenTarget_some (hctx : OnTrace ctx F₁) (hwf : st.trail.current.WellFormed)
    (hcfg : st.trail.current.cfg = G)
    (ho : origBB ∈ ctx.trace) (hi : i ∈ F₁.body origBB)
    (h : chosenTarget ctx st i = some targetBB) :
    st.trail.current.isAnchor i = false ∧ targetBB ∈ ctx.trace ∧
      ctx.trace.idxOf targetBB < ctx.trace.idxOf origBB ∧
      LegalTarget ctx.analyses st.trail.current i origBB targetBB ∧
      WithinBudget ctx st i targetBB := by
  rw [chosenTarget_eq hctx ho hi] at h
  split at h
  · cases h
  · rename_i hanchor
    have htake := List.mem_of_find?_eq_some h
    have hmem : targetBB ∈ ctx.trace := List.mem_of_mem_take htake
    have hidx := (List.mem_take_iff_idxOf_lt hmem).mp htake
    have hnone : rejectReason ctx st i origBB targetBB = none := by
      simpa using List.find?_some h
    obtain ⟨hlegal, hbudget⟩ := (rejectReason_eq_none hwf hcfg).mp hnone
    exact ⟨by simpa using hanchor, hmem, hidx, hlegal, hbudget⟩

/-- Without a pressure budget, no block before the one where the instruction ends up is legal. -/
theorem chosenTarget_first (hctx : OnTrace ctx F₁) (hwf : st.trail.current.WellFormed)
    (hcfg : st.trail.current.cfg = G) (ho : origBB ∈ ctx.trace) (hi : i ∈ F₁.body origBB)
    (hanchor : st.trail.current.isAnchor i = false) (hpressure : ctx.usePressure = false)
    {c : BasicBlock} (hc : c ∈ ctx.trace)
    (hlt : ctx.trace.idxOf c < ctx.trace.idxOf ((chosenTarget ctx st i).getD origBB)) :
    ¬ LegalTarget ctx.analyses st.trail.current i origBB c := by
  intro hlegal
  have hnone : rejectReason ctx st i origBB c = none := by
    apply (rejectReason_eq_none hwf hcfg).mpr
    apply And.intro hlegal
    intro huse
    rw [hpressure] at huse
    cases huse
  have haccepts : (rejectReason ctx st i origBB c).isNone = true := by rw [hnone]; rfl
  rw [chosenTarget_eq hctx ho hi, if_neg (by simpa using hanchor)] at hlt
  cases hfind : (ctx.trace.take (ctx.trace.idxOf origBB)).find? fun t =>
      (rejectReason ctx st i origBB t).isNone with
  | none =>
    rw [hfind, Option.getD_none] at hlt
    have hreject := List.find?_eq_none.mp hfind c ((List.mem_take_iff_idxOf_lt hc).mpr hlt)
    exact hreject haccepts
  | some b =>
    rw [hfind, Option.getD_some] at hlt
    have hb := List.mem_of_find?_eq_some hfind
    have hclt : ctx.trace.idxOf c < ctx.trace.idxOf origBB :=
      Nat.lt_trans hlt ((List.mem_take_iff_idxOf_lt (List.mem_of_mem_take hb)).mp hb)
    have hctake := (List.mem_take_iff_idxOf_lt hc).mpr hclt
    have hle := idxOf_find?_le hfind hctake haccepts
    rw [idxOf_take hb, idxOf_take hctake] at hle
    omega

/-- A chosen move is a legal hoist. -/
theorem chosenTarget_motion (hctx : OnTrace ctx F₁) (h : Phase2Inv ctx F₁ (i :: rest) st)
    (ho : origBB ∈ ctx.trace) (hi : i ∈ F₁.body origBB)
    (hchosen : chosenTarget ctx st i = some targetBB) :
    ∃ F', Motion (fun j src dst => HoistOk ctx.analyses ctx.trace j src dst ∧ dst = targetBB)
        st.trail.current F' ∧
      (hoistStep ctx st i).trail = st.trail.commit F' ∧
      ∀ x b, x ∈ F'.body b ↔
        (x ≠ i ∧ x ∈ st.trail.current.body b) ∨ (x = i ∧ b = targetBB) := by
  have hwf := h.moved.wellFormed hctx.wf
  have hcfg : st.trail.current.cfg = G := (h.moved.cfg_eq hctx.wf).trans hctx.cfg
  obtain ⟨hanchor, hmem, hidx, hlegal, _⟩ := chosenTarget_some hctx hwf hcfg ho hi hchosen
  obtain ⟨t, ht, hops, hsafe⟩ := hlegal.insertion
  have hne : targetBB ≠ origBB := by
    intro heq
    subst heq
    exact Nat.lt_irrefl _ hidx
  have hcur : i ∈ st.trail.current.body origBB := (h.pending i List.mem_cons_self origBB).mpr hi
  obtain ⟨pre, post, hsrc⟩ := List.append_of_mem hcur
  obtain ⟨hlast, hterm⟩ := Function.getTerminator_eq_some.mp ht
  obtain ⟨l, hdst⟩ := List.getLast?_eq_some_iff.mp hlast
  have hreach : st.trail.current.cfg.Reachable origBB := by
    rw [hcfg]
    exact hctx.reachable origBB ho
  have hdom : st.trail.current.cfg.Dominates targetBB origBB := by
    rw [hcfg]
    exact hlegal.dominates
  refine ⟨_, .hoist hsrc hdst hterm hne hreach hdom hanchor hops
    ⟨⟨ho, hmem, hidx, hlegal.not_header, hlegal.same_loop, _, t, hsafe⟩, rfl⟩, ?_, fun x b => ?_⟩
  · rw [hoistStep_trail, hchosen]
    dsimp only
    rw [hoistTo]
    simp only [ht]
    rw [moveBefore_eq hwf hsrc hdst hne]
  · exact Motion.mem_hoist hwf hsrc hdst hne

/-- **One step of Phase 2**: legal, and only the instruction whose turn it is changes its block. -/
theorem Phase2Inv.hoistStep (hctx : OnTrace ctx F₁) (h : Phase2Inv ctx F₁ (i :: rest) st)
    (hnd : (i :: rest).Nodup) (ho : origBB ∈ ctx.trace) (hi : i ∈ F₁.body origBB) :
    Phase2Inv ctx F₁ rest (hoistStep ctx st i) ∧
      Trail.Steps (HoistOk ctx.analyses ctx.trace) st.trail
        (TraceScheduler.hoistStep ctx st i).trail ∧
      (∀ x, x ≠ i → ∀ b, x ∈ (TraceScheduler.hoistStep ctx st i).trail.current.body b ↔
        x ∈ st.trail.current.body b) ∧
      ∀ b, i ∈ (TraceScheduler.hoistStep ctx st i).trail.current.body b ↔
        b = (chosenTarget ctx st i).getD origBB := by
  have hcur : ∀ b, i ∈ st.trail.current.body b ↔ b = origBB := by
    intro b
    rw [h.pending i List.mem_cons_self b]
    exact ⟨fun hb => hctx.wf.body_unique hb hi, fun hb => hb ▸ hi⟩
  obtain ⟨hirest, _⟩ := List.nodup_cons.mp hnd
  cases hchosen : chosenTarget ctx st i with
  | none =>
    have htrail : (TraceScheduler.hoistStep ctx st i).trail = st.trail := by
      rw [hoistStep_trail, hchosen]
    refine ⟨⟨htrail ▸ h.moved, ?_⟩, ?_, ?_, ?_⟩
    · rw [htrail]
      exact fun x hx => h.pending x (List.mem_cons_of_mem _ hx)
    · rw [htrail]
      exact .refl _
    · rw [htrail]
      exact fun _ _ _ => Iff.rfl
    · rw [htrail]
      exact hcur
  | some t =>
    obtain ⟨F', htarget, htrail, hmem⟩ := chosenTarget_motion hctx h ho hi hchosen
    have hmotion : Motion (HoistOk ctx.analyses ctx.trace) st.trail.current F' :=
      htarget.mono fun _ _ _ hP => hP.1
    have hother : ∀ x, x ≠ i → ∀ b, x ∈ F'.body b ↔ x ∈ st.trail.current.body b := by
      intro x hx b
      rw [hmem]
      simp [hx]
    refine ⟨⟨?_, ?_⟩, ?_, ?_, ?_⟩
    · rw [htrail]
      exact h.moved.tail hmotion
    · intro x hx b
      have hxi : x ≠ i := fun he => hirest (he ▸ hx)
      rw [htrail]
      exact (hother x hxi b).trans (h.pending x (List.mem_cons_of_mem _ hx) b)
    · rw [htrail]
      exact .commit hmotion
    · rw [htrail]
      exact hother
    · intro b
      rw [htrail]
      show i ∈ F'.body b ↔ b = t
      rw [hmem]
      simp

/-- Every instruction of the schedule is in a block of the trace. -/
def ScheduledOnTrace (ctx : HoistContext G) (F₁ : Function) (schedule : List InstrId) : Prop :=
  ∀ i ∈ schedule, ∃ bb ∈ ctx.trace, i ∈ F₁.body bb

/-- **A run of Phase 2**: legal, and no other instruction changes its block. -/
theorem Phase2Inv.run (hctx : OnTrace ctx F₁) {schedule : List InstrId}
    (h : Phase2Inv ctx F₁ (schedule ++ rest) st) (hnd : (schedule ++ rest).Nodup)
    (hsched : ScheduledOnTrace ctx F₁ schedule) :
    Phase2Inv ctx F₁ rest (schedule.foldl (TraceScheduler.hoistStep ctx) st) ∧
      Trail.Steps (HoistOk ctx.analyses ctx.trace) st.trail
        (schedule.foldl (TraceScheduler.hoistStep ctx) st).trail ∧
      ∀ x, x ∉ schedule → ∀ b,
        x ∈ (schedule.foldl (TraceScheduler.hoistStep ctx) st).trail.current.body b ↔
          x ∈ st.trail.current.body b := by
  induction schedule generalizing st with
  | nil => exact ⟨h, .refl _, fun _ _ _ => Iff.rfl⟩
  | cons i l ih =>
    obtain ⟨bb, hbb, hi⟩ := hsched i List.mem_cons_self
    obtain ⟨hinv, hsteps, hother, _⟩ := h.hoistStep hctx hnd hbb hi
    obtain ⟨hinv', hsteps', hother'⟩ := ih hinv (List.nodup_cons.mp hnd).2
      fun j hj => hsched j (List.mem_cons_of_mem _ hj)
    refine ⟨hinv', hsteps.trans hsteps', fun x hx b => ?_⟩
    obtain ⟨hxi, hxl⟩ := List.ne_and_not_mem_of_not_mem_cons hx
    exact (hother' x hxl b).trans (hother x hxi b)

theorem Phase2Inv.run_all (hctx : OnTrace ctx F₁) {schedule : List InstrId}
    (h : Phase2Inv ctx F₁ schedule st) (hnd : schedule.Nodup)
    (hsched : ScheduledOnTrace ctx F₁ schedule) :
    Phase2Inv ctx F₁ [] (schedule.foldl (TraceScheduler.hoistStep ctx) st) ∧
      Trail.Steps (HoistOk ctx.analyses ctx.trace) st.trail
        (schedule.foldl (TraceScheduler.hoistStep ctx) st).trail ∧
      ∀ x, x ∉ schedule → ∀ b,
        x ∈ (schedule.foldl (TraceScheduler.hoistStep ctx) st).trail.current.body b ↔
          x ∈ st.trail.current.body b := by
  rw [← List.append_nil schedule] at h hnd
  exact h.run hctx hnd hsched

/-- **Where an instruction ends up**: in the block chosen at its turn, when everything that is not
scheduled later is where it will stay. -/
theorem Phase2Inv.placement (hctx : OnTrace ctx F₁) {schedule later : List InstrId}
    (h : Phase2Inv ctx F₁ (schedule ++ i :: later) st) (hnd : (schedule ++ i :: later).Nodup)
    (hsched : ScheduledOnTrace ctx F₁ (schedule ++ i :: later)) (ho : origBB ∈ ctx.trace)
    (hi : i ∈ F₁.body origBB) :
    ∃ st', Phase2Inv ctx F₁ (i :: later) st' ∧
      (∀ x, x ∉ i :: later → ∀ b, x ∈ st'.trail.current.body b ↔
        x ∈ ((schedule ++ i :: later).foldl (TraceScheduler.hoistStep ctx) st).trail.current.body b) ∧
      ∀ b, i ∈ ((schedule ++ i :: later).foldl
          (TraceScheduler.hoistStep ctx) st).trail.current.body b ↔
        b = (chosenTarget ctx st' i).getD origBB := by
  obtain ⟨hinv, _, _⟩ := h.run hctx hnd fun j hj => hsched j (List.mem_append_left _ hj)
  have hnd' := (List.nodup_append.mp hnd).2.1
  obtain ⟨hinv', _, hother, hself⟩ := hinv.hoistStep hctx hnd' ho hi
  have hlater : ScheduledOnTrace ctx F₁ later := fun j hj =>
    hsched j (List.mem_append_right _ (List.mem_cons_of_mem _ hj))
  obtain ⟨_, _, hrest⟩ := hinv'.run_all hctx (List.nodup_cons.mp hnd').2 hlater
  refine ⟨_, hinv, fun x hx b => ?_, fun b => ?_⟩
  · obtain ⟨hxi, hxl⟩ := List.ne_and_not_mem_of_not_mem_cons hx
    rw [List.foldl_append, List.foldl_cons, hrest x hxl b, hother x hxi b]
  · rw [List.foldl_append, List.foldl_cons, hrest i (List.nodup_cons.mp hnd').1 b]
    exact hself b

end Phase2

/-! ### Both phases -/

section

variable {A : Analyses G} {universeIndex : Value → Option ℕ} {liveness : LivenessResult}
  {usePressure : Bool} {pressureBudget : ℤ} {statsOn : Bool} {tr : Trail} {trace : List BasicBlock}
  {schedule : List InstrId}

/-- Phase 1 rearranges regions, block by block. -/
theorem reorderTrace_steps (hnd : schedule.Nodup) (hwf : tr.current.WellFormed)
    (hresp : ∀ bb ∈ trace, RespectsUses tr.current schedule bb) :
    Trail.Steps (fun _ _ _ => False) tr (reorderTrace schedule trace tr) := by
  induction trace generalizing tr with
  | nil => exact .refl tr
  | cons bb trace ih =>
    have hstep := reorderBlockWithinRegions_steps hnd hwf (hresp bb List.mem_cons_self)
    refine hstep.trans (ih (hstep.current.wellFormed hwf) fun b hb => ?_)
    intro u hu d hd hua hda huse
    rw [hstep.current.isAnchor_eq] at hua hda
    rw [Function.Uses, hstep.current.sameCode.instr] at huse
    exact hresp b (List.mem_cons_of_mem _ hb) u (hstep.current.mem_iff.mp hu) d
      (hstep.current.mem_iff.mp hd) hua hda huse

/-- A function and a schedule that `applySchedule` can work on. -/
structure Appliable (G : FlowGraph BasicBlock) (F : Function) (trace : List BasicBlock)
    (schedule : List InstrId) : Prop where
  wf : F.WellFormed
  cfg : F.cfg = G
  reachable : ∀ b ∈ trace, G.Reachable b
  nodup : schedule.Nodup
  scheduled : ∀ i ∈ schedule, ∃ bb ∈ trace, i ∈ F.body bb
  respects : ∀ bb ∈ trace, RespectsUses F schedule bb

variable (A universeIndex liveness usePressure pressureBudget statsOn) in
/-- The state in which Phase 2 starts. -/
theorem Appliable.phase2Inv (h : Appliable G tr.current trace schedule) (stats : HoistStats) :
    OnTrace (hoistContext A universeIndex liveness usePressure pressureBudget statsOn tr.current
      trace) tr.current ∧
    Phase2Inv (hoistContext A universeIndex liveness usePressure pressureBudget statsOn tr.current
      trace) tr.current schedule
      ⟨reorderTrace schedule trace tr, fun bb => (liveness bb).inSet, stats⟩ := by
  have hsteps := reorderTrace_steps h.nodup h.wf h.respects
  refine ⟨⟨h.wf, h.cfg, h.reachable, rfl⟩, ⟨?_, fun i _ b => hsteps.current.mem_iff⟩⟩
  exact hsteps.current.mono fun _ _ _ hfalse => hfalse.elim

/-- **`applySchedule` makes legal edits only.** -/
theorem applySchedule_steps (h : Appliable G tr.current trace schedule) (stats : HoistStats) :
    Trail.Steps (HoistOk A trace) tr (applySchedule A universeIndex liveness usePressure
      pressureBudget statsOn schedule trace tr stats).trail := by
  have hsteps := reorderTrace_steps h.nodup h.wf h.respects
  obtain ⟨hctx, hinv⟩ :=
    h.phase2Inv A universeIndex liveness usePressure pressureBudget statsOn stats
  obtain ⟨_, hsteps', _⟩ := hinv.run_all hctx h.nodup h.scheduled
  exact (hsteps.mono fun _ _ _ hfalse => hfalse.elim).trans hsteps'

end

end TraceScheduler
