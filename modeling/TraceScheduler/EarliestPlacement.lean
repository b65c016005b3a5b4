import TraceScheduler.Library.LeastPlacement
import TraceScheduler.SchedulerPass

/-!
# Earliest placement

Without a pressure budget Phase 2 puts every non-anchor of a trace into the first block that is safe
for it, where safety is judged at the **final** positions of its operands (`ScheduledTrace.placed`): a
schedule has the operands of an instruction before it, so they have been placed when its turn comes,
and an operand that is placed earlier is available wherever it was (`Earlier.instDominates`).

Safe blocks of one instruction all dominate its original block, so the first of them dominates the
others, and by `below_of_least` the placement without a budget is at least as early as any other that
the passes can reach, trace after trace (`ScheduledTraces.earlier`).  Hence a budget can only delay
hoists, the order of the schedule does not matter without one, and a second Phase 2 finds nothing.
-/

namespace TraceScheduler

open scoped List

/-- The placement of a function's instructions. -/
abbrev Function.At (F : Function) (i : InstrId) (b : BasicBlock) : Prop := i ∈ F.body b

/-- `F₁` has the instruction in a dominator of its block in `F₂`, or in the same block. -/
abbrev Earlier (G : FlowGraph BasicBlock) (F₁ F₂ : Function) (i : InstrId) : Prop :=
  Below G.Dominates F₁.At F₂.At i

/-- The answer for an instruction and a target does not depend on where other instructions are. -/
def Analyses.PositionFree {G : FlowGraph BasicBlock} (A : Analyses G) : Prop :=
  ∀ F₁ F₂ i t, SameCode F₁ F₂ →
    A.isSafeToSpeculativelyExecute F₁ i t = A.isSafeToSpeculativelyExecute F₂ i t

variable {F F' F₁ F₂ : Function} {P P' : InstrId → BasicBlock → BasicBlock → Prop} {i d t : InstrId}
  {b origBB : BasicBlock}

/-- Legal edits, wherever they lead. -/
theorem Motions.forget (h : Motions P F F') : Motions (fun _ _ _ => True) F F' :=
  h.mono fun _ _ _ _ => trivial

/-! ### What earlier operands make legal -/

theorem isAnchor_of_invoke (h : (F.instr d).opcode = .invoke) : F.isAnchor d = true := by
  simp [Function.isAnchor, isSchedulingAnchor, Instruction.isCallBase, h]

theorem isAnchor_of_getTerminator (h : F.getTerminator b = some t) : F.isAnchor t = true :=
  isSchedulingAnchor_of_isTerminator (Function.getTerminator_eq_some.mp h).2

/-- What stands in a block before its end stands before the terminator. -/
theorem sublist_terminator (h : F.getTerminator b = some t) (hd : d ∈ F.body b) (hne : d ≠ t) :
    [d, t] <+ F.body b := by
  obtain ⟨l, hl⟩ := List.getLast?_eq_some_iff.mp (Function.getTerminator_eq_some.mp h).1
  rw [hl, List.mem_append, List.mem_singleton] at hd
  rw [hl]
  exact (List.singleton_sublist.mpr (hd.resolve_right hne)).append (List.Sublist.refl [t])

/-- **An operand moved to a dominator of its block is still available** at the end of every block
where it was. -/
theorem Earlier.instDominates (hwf : F.WellFormed) (h₁ : Motions P F F₁) (h₂ : Motions P' F F₂)
    (hd : Earlier F.cfg F₁ F₂ d) (ht : F.getTerminator b = some t) (h : F₂.InstDominates d t) :
    F₁.InstDominates d t := by
  have hwf₂ := h₂.wellFormed hwf
  have htF : t ∈ F.body b := List.mem_of_getLast? (Function.getTerminator_eq_some.mp ht).1
  have hta := isAnchor_of_getTerminator ht
  have ht₁ : t ∈ F₁.body b := (h₁.mem_of_anchor hwf hta).mpr htF
  have ht₂ : t ∈ F₂.body b := (h₂.mem_of_anchor hwf hta).mpr htF
  have hterm₁ : F₁.getTerminator b = some t := (h₁.getTerminator_eq hwf b).trans ht
  obtain ⟨b', hb', h⟩ := h
  obtain rfl := hwf₂.body_unique hb' ht₂
  refine ⟨b', ht₁, ?_⟩
  rw [h₁.cfg_eq hwf]
  rw [h₂.cfg_eq hwf] at h
  by_cases hreach : F.cfg.Reachable b'
  swap
  · exact .inl hreach
  apply Or.inr
  have hinvoke : (F.instr d).opcode = .invoke → ∀ c, d ∈ F₁.body c ↔ d ∈ F₂.body c := by
    intro hop c
    have ha := isAnchor_of_invoke hop
    rw [h₁.mem_of_anchor hwf ha, h₂.mem_of_anchor hwf ha]
  -- a value on a strict dominator of the block is available there
  have havail : ∀ c, d ∈ F₁.body c → (F.instr d).opcode ≠ .invoke → F.cfg.StrictlyDominates c b' →
      F₁.AvailableIn d b' := by
    intro c hc hop hdom
    refine ⟨c, hc, ?_⟩
    rw [h₁.sameCode.instr, if_neg hop, h₁.cfg_eq hwf]
    exact hdom
  rcases h with hnot | ⟨c, hc, hdom⟩ | hsub
  · exact absurd hreach hnot
  · rw [h₂.sameCode.instr, h₂.cfg_eq hwf] at hdom
    apply Or.inl
    by_cases hop : (F.instr d).opcode = .invoke
    · refine ⟨c, (hinvoke hop c).mpr hc, ?_⟩
      rw [h₁.sameCode.instr, h₁.cfg_eq hwf]
      exact hdom
    · rw [if_neg hop] at hdom
      obtain ⟨c₁, hc₁, hdom₁⟩ := hd c hc
      apply havail c₁ hc₁ hop
      refine ⟨?_, hdom₁.trans hdom.2⟩
      intro heq
      subst heq
      exact hdom.1 (hdom.2.antisymm hdom₁ (hdom.2.reachable hreach))
  · have hdb : d ∈ F₂.body b' := hsub.subset List.mem_cons_self
    have hne : d ≠ t := by
      intro heq
      subst heq
      have := hsub.nodup (hwf₂.body_nodup b')
      simp at this
    by_cases hop : (F.instr d).opcode = .invoke
    · exact .inr (sublist_terminator hterm₁ ((hinvoke hop b').mpr hdb) hne)
    · obtain ⟨c₁, hc₁, hdom₁⟩ := hd b' hdb
      by_cases heq : c₁ = b'
      · exact .inr (sublist_terminator hterm₁ (heq ▸ hc₁) hne)
      · exact .inl (havail c₁ hc₁ hop ⟨heq, hdom₁⟩)

/-- **A target stays legal when the operands are earlier.** -/
theorem LegalTarget.mono {A : Analyses F.cfg} (hA : A.PositionFree) (hwf : F.WellFormed)
    (h₁ : Motions P F F₁) (h₂ : Motions P' F F₂)
    (hops : ∀ d, F.Uses i d → Earlier F.cfg F₁ F₂ d) (h : LegalTarget A F₂ i origBB b) :
    LegalTarget A F₁ i origBB b where
  not_header := h.not_header
  same_loop := h.same_loop
  dominates := h.dominates
  insertion := by
    obtain ⟨t, ht, huses, hsafe⟩ := h.insertion
    have htF : F.getTerminator b = some t := (h₂.getTerminator_eq hwf b).symm.trans ht
    refine ⟨t, (h₁.getTerminator_eq hwf b).trans htF, fun d hd => ?_, ?_⟩
    · rw [Function.Uses, h₁.sameCode.instr] at hd
      apply (hops d hd).instDominates hwf h₁ h₂ htF
      apply huses
      rw [Function.Uses, h₂.sameCode.instr]
      exact hd
    · exact (hA F F₁ i t h₁.sameCode).symm.trans ((hA F F₂ i t h₂.sameCode).trans hsafe)

/-! ### Where Phase 2 puts an instruction -/

section

variable {A : Analyses F.cfg} {universeIndex : Value → Option ℕ} {livenessResult : LivenessResult}
  {usePressure : Bool} {pressureBudget : ℤ} {statsOn : Bool} {profile : Profile} {threshold : ℕ}
  {bfsOrder trace : List BasicBlock} {traces todo : List (List BasicBlock)} {st st' : PassState}
  {schedule : List InstrId}

/-- A block where `i`, found in `origBB`, may stay or be put. -/
def SafeBlock (A : Analyses F.cfg) (F' : Function) (trace : List BasicBlock) (i : InstrId)
    (origBB b : BasicBlock) : Prop :=
  b = origBB ∨ (b ∈ trace ∧ trace.idxOf b < trace.idxOf origBB ∧ LegalTarget A F' i origBB b)

/-- The first safe block of the trace. -/
structure EarliestSafe (A : Analyses F.cfg) (F' : Function) (trace : List BasicBlock) (i : InstrId)
    (origBB b : BasicBlock) : Prop where
  safe : SafeBlock A F' trace i origBB b
  least : ∀ c ∈ trace, trace.idxOf c < trace.idxOf b → ¬ LegalTarget A F' i origBB c

/-- Nothing that is not scheduled moves. -/
theorem ScheduledTrace.mem_of_not_mem (h : ScheduledTrace F A universeIndex livenessResult usePressure
    pressureBudget statsOn trace st st' schedule) (hi : i ∉ schedule) :
    i ∈ st'.trail.current.body b ↔ i ∈ st.trail.current.body b := by
  obtain ⟨hctx, hinv⟩ := h.appliable.phase2Inv A universeIndex livenessResult usePressure
    pressureBudget statsOn st.hoistStats
  obtain ⟨_, _, hother⟩ := hinv.run_all hctx h.appliable.nodup h.appliable.scheduled
  have hreorder := reorderTrace_steps h.appliable.nodup h.appliable.wf h.appliable.respects
  rw [h.result]
  exact (hother i hi b).trans hreorder.current.mem_iff

/-- Operands are never scheduled after their users. -/
theorem IsTraceSchedule.operand_not_later (h : IsTraceSchedule F trace schedule)
    {pre later : List InstrId} (hsplit : schedule = pre ++ i :: later) (huse : F.Uses i d) :
    d ∉ i :: later := by
  intro hd
  have hmem : ∀ j ∈ i :: later, j ∈ schedule := fun j hj => hsplit ▸ List.mem_append_right _ hj
  obtain ⟨hdb, hdphi, hdterm⟩ := (h.mem_iff d).mp (hmem d hd)
  obtain ⟨hib, hiphi, hiterm⟩ := (h.mem_iff i).mp (hmem i List.mem_cons_self)
  have hdn := (mem_traceNodes_schedulable.mpr ⟨hdb, hdphi, hdterm⟩).1
  have hin := (mem_traceNodes_schedulable.mpr ⟨hib, hiphi, hiterm⟩).1
  have hedge : (buildDDG F trace).Edge d i :=
    edge_buildDDG.mpr (.inl (mem_trueDependenceEdges.mpr ⟨hdn, hdterm, hin, hiterm, huse⟩))
  have hsub := h.ordered d i hedge (hmem i List.mem_cons_self)
  have hnd := h.nodup
  rw [hsplit] at hsub hnd
  have hpre : d ∈ pre := (sublist_pair_append hnd).mp hsub
  exact (List.nodup_append.mp hnd).2.2 d hpre d hd rfl

/-- **The final block of an instruction** is safe for the final positions of its operands, and
without a pressure budget the first such block. -/
theorem ScheduledTrace.placed (hA : A.PositionFree) (hF : Schedulable F)
    (hinv : PassInv F A traces (trace :: todo) st)
    (h : ScheduledTrace F A universeIndex livenessResult usePressure pressureBudget statsOn trace st
      st' schedule) (ho : origBB ∈ trace) (hi : i ∈ F.body origBB) (hanchor : F.isAnchor i = false) :
    ∃ b, i ∈ st'.trail.current.body b ∧ SafeBlock A st'.trail.current trace i origBB b ∧
      (usePressure = false → EarliestSafe A st'.trail.current trace i origBB b) := by
  have hwf₀ := h.appliable.wf
  have hi₀ : i ∈ st.trail.current.body origBB := (hinv.pending trace List.mem_cons_self origBB ho i).mpr hi
  have hsched : i ∈ schedule := (h.complete.mem_iff i).mpr ⟨⟨origBB, ho, hi⟩,
    isPHI_of_not_anchor hanchor, isTerminator_of_not_anchor hanchor⟩
  obtain ⟨pre, later, hsplit⟩ := List.append_of_mem hsched
  obtain ⟨hctx, hphase⟩ := h.appliable.phase2Inv A universeIndex livenessResult usePressure
    pressureBudget statsOn st.hoistStats
  have hnd := h.appliable.nodup
  have honTrace := h.appliable.scheduled
  rw [hsplit] at hphase hnd honTrace
  obtain ⟨stᵢ, hinvᵢ, hsame, hmem⟩ := hphase.placement hctx hnd honTrace ho hi₀
  have hresult := congrArg Trail.current h.result
  rw [hsplit] at hresult
  -- both the state at the turn of `i` and the result are reached from `F`
  have hmotionsᵢ : Motions (fun _ _ _ => True) F stᵢ.trail.current :=
    hinv.steps.current.forget.trans hinvᵢ.moved.forget
  have hmotions' : Motions (fun _ _ _ => True) F st'.trail.current :=
    hinv.steps.current.forget.trans h.steps.current.forget
  have hoperand : ∀ d, F.Uses i d → ∀ b,
      d ∈ stᵢ.trail.current.body b ↔ d ∈ st'.trail.current.body b := by
    intro d hd b
    rw [hresult]
    exact hsame d (h.complete.operand_not_later hsplit hd) b
  have hlegal : ∀ c, LegalTarget A stᵢ.trail.current i origBB c ↔
      LegalTarget A st'.trail.current i origBB c := by
    intro c
    constructor
    · apply LegalTarget.mono hA hF.wf hmotions' hmotionsᵢ
      exact fun d hd => .of_iff FlowGraph.Dominates.refl fun b => (hoperand d hd b).symm
    · apply LegalTarget.mono hA hF.wf hmotionsᵢ hmotions'
      exact fun d hd => .of_iff FlowGraph.Dominates.refl (hoperand d hd)
  have hwfᵢ := hmotionsᵢ.wellFormed hF.wf
  have hcfgᵢ := hmotionsᵢ.cfg_eq hF.wf
  have hanchorᵢ : stᵢ.trail.current.isAnchor i = false := by
    rw [hmotionsᵢ.isAnchor_eq]
    exact hanchor
  have hfinal : ∀ b, i ∈ st'.trail.current.body b ↔ b = (chosenTarget (hoistContext A universeIndex
      livenessResult usePressure pressureBudget statsOn st.trail.current trace) stᵢ i).getD origBB := by
    intro b
    rw [hresult]
    exact hmem b
  have hsafe : SafeBlock A st'.trail.current trace i origBB ((chosenTarget (hoistContext A
      universeIndex livenessResult usePressure pressureBudget statsOn st.trail.current trace)
        stᵢ i).getD origBB) := by
    cases hchosen : chosenTarget (hoistContext A universeIndex livenessResult usePressure
        pressureBudget statsOn st.trail.current trace) stᵢ i with
    | none => exact .inl rfl
    | some b =>
      obtain ⟨_, hb, hidx, hok, _⟩ := chosenTarget_some hctx hwfᵢ hcfgᵢ ho hi₀ hchosen
      exact .inr ⟨hb, hidx, (hlegal b).mp hok⟩
  refine ⟨_, (hfinal _).mpr rfl, hsafe, fun hpressure => ⟨hsafe, fun c hc hlt hc' => ?_⟩⟩
  exact chosenTarget_first hctx hwfᵢ hcfgᵢ ho hi₀ hanchorᵢ hpressure hc hlt ((hlegal c).mpr hc')

/-- An instruction that is an anchor or off the trace stays. -/
theorem ScheduledTrace.mem_of_fixed (h : ScheduledTrace F A universeIndex livenessResult usePressure
    pressureBudget statsOn trace st st' schedule) (hinv : PassInv F A traces (trace :: todo) st)
    (hi : ¬ (F.isAnchor i = false ∧ ∃ b ∈ trace, i ∈ F.body b)) (b : BasicBlock) :
    i ∈ st'.trail.current.body b ↔ i ∈ st.trail.current.body b := by
  by_cases hanchor : F.isAnchor i = true
  · apply h.steps.current.mem_of_anchor h.appliable.wf
    rw [hinv.steps.current.isAnchor_eq]
    exact hanchor
  · apply h.mem_of_not_mem
    intro hmem
    obtain ⟨hb, _⟩ := (h.complete.mem_iff i).mp hmem
    exact hi ⟨by simpa using hanchor, hb⟩

theorem SafeBlock.mem (h : SafeBlock A F' trace i origBB b) (ho : origBB ∈ trace) : b ∈ trace := by
  rcases h with rfl | ⟨hb, _⟩
  · exact ho
  · exact hb

theorem SafeBlock.dominates (h : SafeBlock A F' trace i origBB b) : F.cfg.Dominates b origBB := by
  rcases h with rfl | ⟨_, _, hok⟩
  · exact .refl b
  · exact hok.dominates

theorem SafeBlock.idxOf_le (h : SafeBlock A F' trace i origBB b) :
    trace.idxOf b ≤ trace.idxOf origBB := by
  rcases h with rfl | ⟨_, hlt, _⟩
  · exact Nat.le_refl _
  · exact Nat.le_of_lt hlt

/-- **The first safe block dominates all safe blocks.** They all dominate the original block, so any
two are comparable, and a dominator stands first in the trace. -/
theorem EarliestSafe.dominates_of_safe {c : BasicBlock} (hbfs : F.cfg.IsBreadthFirst bfsOrder)
    (htrace : IsTrace F profile threshold bfsOrder trace) (ho : origBB ∈ trace)
    (h : EarliestSafe A F' trace i origBB b) (hc : SafeBlock A F' trace i origBB c) :
    F.cfg.Dominates b c := by
  have hreach : F.cfg.Reachable origBB := hbfs.mem_iff.mp (htrace.reachable origBB ho)
  have hle : trace.idxOf b ≤ trace.idxOf c := by
    by_contra hlt
    rcases hc with rfl | ⟨hmem, _, hok⟩
    · exact hlt h.safe.idxOf_le
    · exact h.least c hmem (by omega) hok
  rcases h.safe.dominates.total hc.dominates hreach with hdom | hdom
  · exact hdom
  · by_cases heq : c = b
    · rw [heq]
      exact .refl b
    · -- a strict dominator would stand before it
      have hsub := htrace.sublist_of_dominates hbfs (hc.mem ho) (h.safe.mem ho) ⟨heq, hdom⟩
      have hlt := idxOf_lt_of_sublist_pair htrace.nodup hsub
      omega

/-- **One trace, with and without a budget.** If every instruction was at least as early in the run
without one, it still is. -/
theorem ScheduledTrace.earlier {usePressure₂ statsOn₂ : Bool} {pressureBudget₂ : ℤ}
    {schedule₁ schedule₂ : List InstrId} {st₁ st₁' st₂ st₂' : PassState} (hA : A.PositionFree)
    (hF : Schedulable F) (hbfs : F.cfg.IsBreadthFirst bfsOrder)
    (htrace : IsTrace F profile threshold bfsOrder trace)
    (hinv₁ : PassInv F A traces (trace :: todo) st₁) (hinv₂ : PassInv F A traces (trace :: todo) st₂)
    (h₁ : ScheduledTrace F A universeIndex livenessResult false pressureBudget statsOn trace st₁ st₁'
      schedule₁)
    (h₂ : ScheduledTrace F A universeIndex livenessResult usePressure₂ pressureBudget₂ statsOn₂ trace
      st₂ st₂' schedule₂)
    (h : ∀ x, Earlier F.cfg st₁.trail.current st₂.trail.current x) (x : InstrId) :
    Earlier F.cfg st₁'.trail.current st₂'.trail.current x := by
  have hm₁ : Motions (fun _ _ _ => True) F st₁'.trail.current :=
    hinv₁.steps.current.forget.trans h₁.steps.current.forget
  have hm₂ : Motions (fun _ _ _ => True) F st₂'.trail.current :=
    hinv₂.steps.current.forget.trans h₂.steps.current.forget
  let movable : InstrId → Prop := fun i => F.isAnchor i = false ∧ ∃ b ∈ trace, i ∈ F.body b
  let legal : Function → InstrId → BasicBlock → Prop := fun F' i b =>
    ∀ origBB ∈ trace, i ∈ F.body origBB → SafeBlock A F' trace i origBB b
  refine below_of_least Function.At legal (fun i d => F.Uses i d) movable
    (fun i => (traceNodes F trace).idxOf i) ?_ ?_ ?_ ?_ ?_ x
  · -- operands come first in the order of the nodes
    intro i d hi hd huse
    obtain ⟨hia, b, hb, hib⟩ := hi
    obtain ⟨hda, c, hc, hdc⟩ := hd
    have hnode : ∀ j c, F.isAnchor j = false → c ∈ trace → j ∈ F.body c → j ∈ traceNodes F trace :=
      fun j c hja hc hj => mem_traceNodes.mpr ⟨c, hc, hj, isPHI_of_not_anchor hja⟩
    have hedge : (d, i) ∈ trueDependenceEdges F trace := mem_trueDependenceEdges.mpr
      ⟨hnode d c hda hc hdc, isTerminator_of_not_anchor hda, hnode i b hia hb hib,
        isTerminator_of_not_anchor hia, huse⟩
    exact edge_rank hF.wf hF.ssa hbfs htrace (edge_buildDDG.mpr (.inl hedge))
  · intro i hi
    have hstay₁ := h₁.mem_of_fixed hinv₁ hi
    have hstay₂ := h₂.mem_of_fixed hinv₂ hi
    exact (h i).of_unmoved hstay₁ hstay₂
  · intro i b _ hops hlegal origBB ho hi
    rcases hlegal origBB ho hi with heq | ⟨hb, hlt, hok⟩
    · exact .inl heq
    · exact .inr ⟨hb, hlt, hok.mono hA hF.wf hm₁ hm₂ hops⟩
  · intro i b hi hlegal
    obtain ⟨hia, origBB, ho, hio⟩ := hi
    obtain ⟨b₁, hb₁, _, hfirst⟩ := h₁.placed hA hF hinv₁ ho hio hia
    exact ⟨b₁, hb₁, (hfirst rfl).dominates_of_safe hbfs htrace ho (hlegal origBB ho hio)⟩
  · intro i b hi hib origBB ho hio
    obtain ⟨b₂, hb₂, hsafe, _⟩ := h₂.placed hA hF hinv₂ ho hio hi.1
    rw [(hm₂.wellFormed hF.wf).body_unique hib hb₂]
    exact hsafe

/-! ### Nothing is left to move -/

theorem isSameLoopOrOuter_iff {a c : BasicBlock} :
    isSameLoopOrOuter A a c = true ↔ A.getLoopFor a = A.getLoopFor c := by
  rw [isSameLoopOrOuter]
  cases A.getLoopFor a with
  | none => cases A.getLoopFor c <;> simp
  | some k => cases A.getLoopFor c <;> simp

/-- A target that is legal from where the instruction has been put was legal from where it was. -/
theorem SafeBlock.legalTarget {c : BasicBlock} (h : SafeBlock A F' trace i origBB b)
    (hc : LegalTarget A F' i b c) : LegalTarget A F' i origBB c := by
  rcases h with rfl | ⟨_, _, hb⟩
  · exact hc
  · refine ⟨hc.not_header, ?_, hc.dominates.trans hb.dominates, hc.insertion⟩
    have hloop₁ := isSameLoopOrOuter_iff.mp hb.same_loop
    have hloop₂ := isSameLoopOrOuter_iff.mp hc.same_loop
    exact isSameLoopOrOuter_iff.mpr (hloop₁.trans hloop₂)

/-- An instruction that ends up in a block of the trace comes from one. -/
theorem ScheduledTrace.origin (h : ScheduledTrace F A universeIndex livenessResult usePressure
    pressureBudget statsOn trace st st' schedule) (hinv : PassInv F A traces (trace :: todo) st)
    (hb : b ∈ trace) (hi : i ∈ st'.trail.current.body b) : ∃ origBB ∈ trace, i ∈ F.body origBB := by
  obtain ⟨origBB, ho⟩ := (h.steps.current.exists_mem h.appliable.wf).mp ⟨b, hi⟩
  have hmem : origBB ∈ trace := by
    by_contra hoff
    have hstay := (h.mem_off_trace hoff i).mpr ho
    have hwf' := h.steps.current.wellFormed h.appliable.wf
    exact hoff (hwf'.body_unique hi hstay ▸ hb)
  exact ⟨origBB, hmem, (hinv.pending trace List.mem_cons_self origBB hmem i).mp ho⟩

/-- **No instruction has a target left** once the trace is done. -/
theorem ScheduledTrace.chosenTarget_eq_none (hA : A.PositionFree) (hF : Schedulable F)
    (hinv : PassInv F A traces (trace :: todo) st)
    (h : ScheduledTrace F A universeIndex livenessResult false pressureBudget statsOn trace st st'
      schedule) {st₀ : HoistState} (hst₀ : st₀.trail = st'.trail)
    (hi : ∃ b, i ∈ st'.trail.current.body b) :
    chosenTarget (hoistContext A universeIndex livenessResult false pressureBudget statsOn
      st'.trail.current trace) st₀ i = none := by
  have hwf' := h.steps.current.wellFormed h.appliable.wf
  have hcfg' : st'.trail.current.cfg = F.cfg :=
    (h.steps.current.cfg_eq h.appliable.wf).trans h.appliable.cfg
  obtain ⟨b, hb⟩ := hi
  by_cases hbt : b ∈ trace
  · have hctx : OnTrace (hoistContext A universeIndex livenessResult false pressureBudget statsOn
        st'.trail.current trace) st'.trail.current := ⟨hwf', hcfg', h.appliable.reachable, rfl⟩
    rw [chosenTarget_eq hctx hbt hb, hst₀]
    split
    · rfl
    · rename_i hanchor
      rw [List.find?_eq_none]
      intro c hc haccepts
      have hct := List.mem_of_mem_take hc
      have hlt := (List.mem_take_iff_idxOf_lt hct).mp hc
      have hanchorF : F.isAnchor i = false := by
        have hinitial : st.trail.current.isAnchor = F.isAnchor := hinv.steps.current.isAnchor_eq
        rw [← hinitial, ← h.steps.current.isAnchor_eq]
        simpa using hanchor
      obtain ⟨origBB, ho, hio⟩ := h.origin hinv hbt hb
      obtain ⟨b', hb', _, hfirst⟩ := h.placed hA hF hinv ho hio hanchorF
      obtain rfl := hwf'.body_unique hb hb'
      have hnone : rejectReason (hoistContext A universeIndex livenessResult false pressureBudget
          statsOn st'.trail.current trace) st₀ i b c = none := by simpa using haccepts
      have hlegal := ((rejectReason_eq_none (hst₀ ▸ hwf') (hst₀ ▸ hcfg')).mp hnone).1
      rw [hst₀] at hlegal
      exact (hfirst rfl).least c hct hlt ((hfirst rfl).safe.legalTarget hlegal)
  · -- off the trace there is nothing to try
    have horig : originalBlockOf st'.trail.current trace i = none := by
      apply List.find?_eq_none.mpr
      intro c hc hic
      have hic' : i ∈ st'.trail.current.body c := by simpa using hic
      exact hbt (hwf'.body_unique hb hic' ▸ hc)
    have hidx : trace.idxOf? b = none := List.idxOf?_eq_none_iff.mpr hbt
    simp only [chosenTarget, hoistContext, horig, Option.getD_none, hst₀, hwf'.getParent_eq hb, hidx]

/-- **A second Phase 2 moves nothing.** -/
theorem ScheduledTrace.rerun (hA : A.PositionFree) (hF : Schedulable F)
    (hinv : PassInv F A traces (trace :: todo) st)
    (h : ScheduledTrace F A universeIndex livenessResult false pressureBudget statsOn trace st st'
      schedule) {schedule' : List InstrId} (hmem : ∀ i ∈ schedule', ∃ b, i ∈ st'.trail.current.body b)
    {st₀ : HoistState} (hst₀ : st₀.trail = st'.trail) :
    (schedule'.foldl (hoistStep (hoistContext A universeIndex livenessResult false pressureBudget
      statsOn st'.trail.current trace)) st₀).trail = st'.trail := by
  induction schedule' generalizing st₀ with
  | nil => exact hst₀
  | cons i schedule' ih =>
    rw [List.foldl_cons]
    apply ih (fun j hj => hmem j (List.mem_cons_of_mem _ hj))
    rw [hoistStep_trail, h.chosenTarget_eq_none hA hF hinv hst₀ (hmem i List.mem_cons_self)]
    exact hst₀

/-- **All traces, with and without a budget.** -/
theorem ScheduledTraces.earlier {usePressure₂ statsOn₂ : Bool} {pressureBudget₂ : ℤ}
    {st₁ st₁' st₂ st₂' : PassState} (hA : A.PositionFree) (hF : Schedulable F)
    (hbfs : F.cfg.IsBreadthFirst bfsOrder)
    (htraces : ∀ trace ∈ todo, trace ∈ traces ∧ IsTrace F profile threshold bfsOrder trace)
    (hdisj : todo.flatten.Nodup) (hinv₁ : PassInv F A traces todo st₁)
    (hinv₂ : PassInv F A traces todo st₂)
    (hrun₁ : ScheduledTraces F A universeIndex livenessResult false pressureBudget statsOn todo st₁
      st₁')
    (hrun₂ : ScheduledTraces F A universeIndex livenessResult usePressure₂ pressureBudget₂ statsOn₂
      todo st₂ st₂')
    (h : ∀ x, Earlier F.cfg st₁.trail.current st₂.trail.current x) (x : InstrId) :
    Earlier F.cfg st₁'.trail.current st₂'.trail.current x := by
  induction todo generalizing st₁ st₂ with
  | nil =>
    cases hrun₁
    cases hrun₂
    exact h x
  | cons trace todo ih =>
    cases hrun₁ with
    | cons hs₁ hrest₁ =>
      cases hrun₂ with
      | cons hs₂ hrest₂ =>
        obtain ⟨hmem, htrace⟩ := htraces trace List.mem_cons_self
        rw [List.flatten_cons] at hdisj
        have hoff : ∀ trace' ∈ todo, ∀ b ∈ trace', b ∉ trace := by
          intro trace' htrace' b hb hb'
          exact (List.nodup_append.mp hdisj).2.2 b hb' b
            (List.mem_flatten.mpr ⟨trace', htrace', hb⟩) rfl
        apply ih
        · exact fun t ht => htraces t (List.mem_cons_of_mem _ ht)
        · exact (List.nodup_append.mp hdisj).2.1
        · exact hinv₁.next hmem hoff hs₁
        · exact hinv₂.next hmem hoff hs₂
        · exact hrest₁
        · exact hrest₂
        · exact fun y => hs₁.earlier hA hF hbfs htrace hinv₁ hinv₂ hs₂ h y

end

/-- **The pressure budget can only delay hoists.** -/
theorem globalSchedulerPass_noPressure_dominates (hwf : F.WellFormed) (hssa : F.SSADominance)
    (env : SchedEnv) (profile : Profile) (A : Analyses F.cfg) (hA : A.PositionFree) :
    ∃ st₁ st₂, globalSchedulerPass false env F profile A = some st₁ ∧
      globalSchedulerPass true env F profile A = some st₂ ∧
      ∀ i b₀, i ∈ F.body b₀ → ∃ b₁ b₂, i ∈ st₁.trail.current.body b₁ ∧
        i ∈ st₂.trail.current.body b₂ ∧ F.cfg.Dominates b₁ b₂ ∧ (b₂ ≠ b₀ → b₁ ≠ b₀) := by
  have hF : Schedulable F := ⟨hwf, hssa⟩
  obtain ⟨st₁, liveness₁, bfsOrder, traces, hrun₁, h₁⟩ := globalSchedulerPass_spec hF false env profile A
  obtain ⟨st₂, liveness₂, _, traces₂, hrun₂, h₂⟩ := globalSchedulerPass_spec hF true env profile A
  -- both runs work on the same traces, from the same liveness result
  obtain rfl : liveness₁ = liveness₂ := Option.some.inj (h₁.liveness.symm.trans h₂.liveness)
  obtain rfl : traces = traces₂ := by
    obtain ⟨_, _, hid₁⟩ := h₁.identified
    obtain ⟨_, _, hid₂⟩ := h₂.identified
    exact congrArg TraceState.traces (Option.some.inj (hid₁.symm.trans hid₂))
  have hinit : PassInv F A traces traces ⟨Trail.start F, ⟨0, 0, 0, 0, 0, 0, 0⟩, 0⟩ :=
    ⟨.refl _, fun _ _ _ _ _ => Iff.rfl⟩
  have hearlier : ∀ i, Earlier F.cfg st₁.trail.current st₂.trail.current i := by
    apply h₁.scheduled.earlier hA hF h₁.bfs (fun t ht => ⟨ht, h₁.partition.isTrace t ht⟩)
      h₁.partition.nodup hinit hinit h₂.scheduled
    exact fun i => .of_iff FlowGraph.Dominates.refl fun _ => Iff.rfl
  refine ⟨st₁, st₂, hrun₁, hrun₂, fun i b₀ hi => ?_⟩
  obtain ⟨b₂, hb₂⟩ := (h₂.steps.current.exists_mem hwf).mpr ⟨b₀, hi⟩
  obtain ⟨b₁, hb₁, hdom⟩ := hearlier i b₂ hb₂
  refine ⟨b₁, b₂, hb₁, hb₂, hdom, fun hmoved hstay => ?_⟩
  subst hstay
  rcases h₂.steps.current.dominates hwf hi hb₂ with heq | ⟨hstrict, hreach⟩
  · exact hmoved heq
  · exact hmoved (hstrict.2.antisymm hdom (hstrict.2.reachable hreach))

/-- **Phase 2 without a budget reaches the earliest safe placement.** On a trace of the function, with
any schedule that is complete and respects the dependences, every non-anchor ends up in the first block
of the trace that is safe for the final positions of its operands; a second Phase 2, over any
instructions of the function, moves nothing; and no two schedules place an instruction differently. -/
theorem applySchedule_earliest (hwf : F.WellFormed) (hssa : F.SSADominance) (profile : Profile)
    (threshold : ℕ) (statsOn : Bool) {traceState : TraceState}
    (hid : identifyTraces F profile threshold statsOn = some traceState) {trace : List BasicBlock}
    (htrace : trace ∈ traceState.traces) (A : Analyses F.cfg) (hA : A.PositionFree)
    (universeIndex : Value → Option ℕ) (livenessResult : LivenessResult) (pressureBudget : ℤ)
    (stats : HoistStats) :
    (∀ schedule st, IsTraceSchedule F trace schedule →
      applySchedule A universeIndex livenessResult false pressureBudget statsOn schedule trace
        (Trail.start F) stats = st →
      (∀ i, ∀ origBB ∈ trace, i ∈ F.body origBB → F.isAnchor i = false →
        ∃ b, i ∈ st.trail.current.body b ∧ EarliestSafe A st.trail.current trace i origBB b) ∧
      ∀ (schedule' : List InstrId) (st₀ : HoistState),
        (∀ i ∈ schedule', ∃ b, i ∈ st.trail.current.body b) → st₀.trail = st.trail →
        (schedule'.foldl (hoistStep (hoistContext A universeIndex livenessResult false pressureBudget
          statsOn st.trail.current trace)) st₀).trail = st.trail) ∧
    ∀ schedule₁ schedule₂, IsTraceSchedule F trace schedule₁ → IsTraceSchedule F trace schedule₂ →
      ∀ i b, i ∈ (applySchedule A universeIndex livenessResult false pressureBudget statsOn schedule₁
          trace (Trail.start F) stats).trail.current.body b ↔
        i ∈ (applySchedule A universeIndex livenessResult false pressureBudget statsOn schedule₂
          trace (Trail.start F) stats).trail.current.body b := by
  have hF : Schedulable F := ⟨hwf, hssa⟩
  obtain ⟨bfsOrder, traceState', hsearch, hid', hpart⟩ :=
    identifyTraces_spec hwf.cfgConsistent profile threshold statsOn
  obtain rfl := Option.some.inj (hid.symm.trans hid')
  have hbfs := FlowGraph.breadthFirst_spec hsearch
  have htr := hpart.isTrace trace htrace
  have hinit : PassInv F A [trace] [trace] ⟨Trail.start F, stats, 0⟩ :=
    ⟨.refl _, fun _ _ _ _ _ => Iff.rfl⟩
  -- an application of a schedule is a pass over the one trace
  have hrun : ∀ schedule, IsTraceSchedule F trace schedule →
      ScheduledTrace F A universeIndex livenessResult false pressureBudget statsOn trace
        ⟨Trail.start F, stats, 0⟩ ⟨(applySchedule A universeIndex livenessResult false pressureBudget
          statsOn schedule trace (Trail.start F) stats).trail, stats, 0⟩ schedule :=
    fun schedule hsched => ⟨hsched, hinit.appliable hF hbfs htr hsched, rfl⟩
  have hearlier : ∀ schedule₁ schedule₂, IsTraceSchedule F trace schedule₁ →
      IsTraceSchedule F trace schedule₂ → ∀ i, Earlier F.cfg
        (applySchedule A universeIndex livenessResult false pressureBudget statsOn schedule₁ trace
          (Trail.start F) stats).trail.current
        (applySchedule A universeIndex livenessResult false pressureBudget statsOn schedule₂ trace
          (Trail.start F) stats).trail.current i := by
    intro schedule₁ schedule₂ h₁ h₂
    apply (hrun schedule₁ h₁).earlier hA hF hbfs htr hinit hinit (hrun schedule₂ h₂)
    exact fun i => .of_iff FlowGraph.Dominates.refl fun _ => Iff.rfl
  constructor
  · intro schedule st hsched hst
    subst hst
    refine ⟨fun i origBB ho hi hanchor => ?_, fun schedule' st₀ hmem hst₀ => ?_⟩
    · obtain ⟨b, hb, _, hfirst⟩ := (hrun schedule hsched).placed hA hF hinit ho hi hanchor
      exact ⟨b, hb, hfirst rfl⟩
    · exact (hrun schedule hsched).rerun hA hF hinit hmem hst₀
  · have hsub : ∀ schedule₁ schedule₂, IsTraceSchedule F trace schedule₁ →
        IsTraceSchedule F trace schedule₂ → ∀ i b,
          i ∈ (applySchedule A universeIndex livenessResult false pressureBudget statsOn schedule₂
            trace (Trail.start F) stats).trail.current.body b →
          i ∈ (applySchedule A universeIndex livenessResult false pressureBudget statsOn schedule₁
            trace (Trail.start F) stats).trail.current.body b := by
      intro schedule₁ schedule₂ h₁ h₂ i b hb
      by_cases hbt : b ∈ trace
      · have hreach : F.cfg.Reachable b := hbfs.mem_iff.mp (htr.reachable b hbt)
        obtain ⟨b₁, hb₁, hdom₁⟩ := hearlier schedule₁ schedule₂ h₁ h₂ i b hb
        obtain ⟨b₂, hb₂, hdom₂⟩ := hearlier schedule₂ schedule₁ h₂ h₁ i b₁ hb₁
        have hwf₂ := (hrun schedule₂ h₂).steps.current.wellFormed hwf
        obtain rfl := hwf₂.body_unique hb hb₂
        rw [hdom₂.antisymm hdom₁ hreach]
        exact hb₁
      · exact ((hrun schedule₁ h₁).mem_off_trace hbt i).mpr
          (((hrun schedule₂ h₂).mem_off_trace hbt i).mp hb)
    intro schedule₁ schedule₂ h₁ h₂ i b
    exact ⟨hsub schedule₂ schedule₁ h₂ h₁ i b, hsub schedule₁ schedule₂ h₁ h₂ i b⟩

theorem twoBlocks_schedule : IsTraceSchedule twoBlocks [0, 1] [0, 2] where
  nodup := by decide
  mem_iff i := by
    have hnodes : traceNodes twoBlocks [0, 1] = [0, 1, 2, 3] := rfl
    rw [← mem_traceNodes_schedulable, hnodes]
    constructor
    · intro hi
      have hcheck : ∀ j ∈ [0, 2], j ∈ [0, 1, 2, 3] ∧ isSchedulable twoBlocks j = true := by decide
      exact hcheck i hi
    · rintro ⟨hi, hs⟩
      have hcheck : ∀ j ∈ [0, 1, 2, 3], isSchedulable twoBlocks j = true → j ∈ [0, 2] := by decide
      exact hcheck i hi hs
  ordered a b hedge _ := by
    have htrue : trueDependenceEdges twoBlocks [0, 1] = [(0, 2)] := rfl
    have hmemory : traceMemoryEdges twoBlocks [0, 1] = [] := rfl
    rw [edge_buildDDG, htrue, hmemory, List.mem_singleton] at hedge
    rcases hedge with hedge | hedge
    · obtain ⟨rfl, rfl⟩ := Prod.mk.inj hedge
      exact List.Sublist.refl _
    · cases hedge

theorem twoBlocks_earliest : ∃ st b, applySchedule twoBlocksAnalyses (fun _ => none)
      (fun _ => ⟨∅, ∅, ∅, ∅⟩) false 12 false [0, 2] [0, 1] (Trail.start twoBlocks)
        ⟨0, 0, 0, 0, 0, 0, 0⟩ = st ∧
    2 ∈ st.trail.current.body b ∧ EarliestSafe twoBlocksAnalyses st.trail.current [0, 1] 2 1 b := by
  obtain ⟨h, _⟩ := applySchedule_earliest twoBlocks_wellFormed twoBlocks_ssa certain 60 false
    identifyTraces_twoBlocks List.mem_cons_self twoBlocksAnalyses (fun _ _ _ _ _ => rfl)
    (fun _ => none) (fun _ => ⟨∅, ∅, ∅, ∅⟩) 12 ⟨0, 0, 0, 0, 0, 0, 0⟩
  obtain ⟨hplaced, _⟩ := h [0, 2] _ twoBlocks_schedule rfl
  obtain ⟨b, hb, hfirst⟩ := hplaced 2 1 (by decide) (by decide) (by decide)
  exact ⟨_, b, rfl, hb, hfirst⟩

theorem twoBlocks_noPressure_dominates : ∃ st₁ st₂,
    globalSchedulerPass false ⟨none, none, false⟩ twoBlocks certain twoBlocksAnalyses = some st₁ ∧
    globalSchedulerPass true ⟨none, none, false⟩ twoBlocks certain twoBlocksAnalyses = some st₂ ∧
    ∃ b₁ b₂, 2 ∈ st₁.trail.current.body b₁ ∧ 2 ∈ st₂.trail.current.body b₂ ∧
      twoBlocks.cfg.Dominates b₁ b₂ := by
  obtain ⟨st₁, st₂, hrun₁, hrun₂, h⟩ := globalSchedulerPass_noPressure_dominates
    twoBlocks_wellFormed twoBlocks_ssa ⟨none, none, false⟩ certain twoBlocksAnalyses
    fun _ _ _ _ _ => rfl
  obtain ⟨b₁, b₂, hb₁, hb₂, hdom, _⟩ := h 2 1 (by decide)
  exact ⟨st₁, st₂, hrun₁, hrun₂, b₁, b₂, hb₁, hb₂, hdom⟩

end TraceScheduler
