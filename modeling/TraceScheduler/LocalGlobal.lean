import TraceScheduler.GlobalSchedule
import TraceScheduler.LocalScheduler
import TraceScheduler.Verifier

/-!
# One block, scheduled both ways

The local scheduler is meant to differ from the global one in its region only, so on a trace of one
block the two should agree.  They do not always: `buildLocalDDG` has an edge for every operand,
`buildDDG` none from or to a PHI or a terminator, and such an edge makes an instruction more urgent or
keeps it, and whatever depends on it, out of the schedule.

`UsesAgree` says that a block has no such operand.  Then the graphs agree on the instructions that are
ever queued, and so do the critical paths, the schedules and the resulting blocks.  The blocks agree as
well when the dependences leave no choice in any region (`OrdersForced`), whatever the priorities.
-/

namespace TraceScheduler

open scoped List

/-- The global scheduler's treatment of the trace of one block, as far as Phase 1. -/
def scheduleAsTrace (livenessResult : LivenessResult) (universeIndex : Value → Option ℕ)
    (statsOn : Bool) (acc : Trail × ℕ) (bb : BasicBlock) : Option (Trail × ℕ) := do
  let F := acc.1.current
  let ddg ← (buildDDG F [bb]).computeCriticalPath
  let (schedule, peak) ← listSchedule F universeIndex livenessResult ddg
    (livenessResult bb).inSet true statsOn acc.2
  some (reorderBlockWithinRegions schedule bb acc.1, peak)

/-- Operands within the block lead between instructions that are both queued or both not, and no
PHI takes a value of the terminator when the terminator is ordered after another instruction. -/
structure UsesAgree (F : Function) (bb : BasicBlock) : Prop where
  schedulable : ∀ u ∈ F.body bb, ∀ d ∈ F.body bb, F.Uses u d →
    isSchedulable F u = isSchedulable F d
  backEdge : ∀ u ∈ F.body bb, ∀ d ∈ F.body bb, F.Uses u d → (F.instr u).isPHI = true →
    (F.instr d).isTerminator = true → ∀ i ∈ F.body bb, i ≠ d → isOrderedOp (F.instr i) = false

/-- In every region each instruction uses the one before it. -/
def OrdersForced (F : Function) (bb : BasicBlock) : Prop :=
  ∀ region ∈ collectRegions F (F.body bb) [], region.1.IsChain fun d u => F.Uses u d

variable {F : Function} {bb : BasicBlock} {a b i x : InstrId} {livenessResult : LivenessResult}
  {universeIndex : Value → Option ℕ} {statsOn : Bool}

/-! ### The two graphs -/

theorem traceNodes_singleton :
    traceNodes F [bb] = (F.body bb).filter fun i => !(F.instr i).isPHI := by
  rw [traceNodes, List.flatMap_singleton]

/-- PHIs are not ordered. -/
theorem not_isOrderedOp_of_isPHI (hwf : F.WellFormed) (hphi : (F.instr i).isPHI = true) :
    isOrderedOp (F.instr i) = false := by
  have hop : (F.instr i).opcode = .phi := by simpa [Instruction.isPHI] using hphi
  obtain ⟨hmem, heff⟩ := hwf.phi_pure i hphi
  rw [isOrderedOp, hmem, heff, Instruction.isCallBase, hop]
  rfl

/-- A memory edge leaves no terminator, and enters and leaves no PHI. -/
theorem memoryOrderEdge_ends (hwf : F.WellFormed)
    (h : (a, b) ∈ memoryOrderEdges F [] (F.body bb)) :
    isSchedulable F a = true ∧ (F.instr b).isPHI = false ∧ isOrderedOp (F.instr a) = true ∧
      a ≠ b ∧ a ∈ F.body bb ∧ b ∈ F.body bb := by
  obtain ⟨hb, ⟨hnil, _⟩ | ⟨ha, hsub⟩⟩ := mem_memoryOrderEdges.mp h
  · cases hnil
  have hphi : ∀ j, isOrderedOp (F.instr j) = true → (F.instr j).isPHI = false := by
    intro j hj
    by_contra hne
    rw [not_isOrderedOp_of_isPHI hwf (by simpa using hne)] at hj
    cases hj
  have hne : a ≠ b := by
    intro heq
    subst heq
    have := hsub.nodup (hwf.body_nodup bb)
    simp at this
  have hamem : a ∈ F.body bb := hsub.subset List.mem_cons_self
  have hbmem : b ∈ F.body bb := hsub.subset (by simp)
  have hnode : ∀ j ∈ F.body bb, isOrderedOp (F.instr j) = true → j ∈ traceNodes F [bb] := by
    intro j hj hop
    exact mem_traceNodes.mpr ⟨bb, List.mem_singleton_self bb, hj, hphi j hop⟩
  have hedge : (buildDDG F [bb]).Edge a b := by
    apply edge_buildDDG.mpr
    apply Or.inr
    exact mem_traceMemoryEdges.mpr ⟨hnode a hamem ha, ha, hnode b hbmem hb, hb, bb,
      List.mem_singleton_self bb, hsub⟩
  exact ⟨schedulable_of_edge hwf hedge, hphi b hb, ha, hne, hamem, hbmem⟩

/-- The graph of the one-block trace has the memory edges of the local one. -/
theorem traceMemoryEdges_singleton (hwf : F.WellFormed) :
    traceMemoryEdges F [bb] = memoryOrderEdges F [] (F.body bb) := by
  rw [traceMemoryEdges, List.flatMap_singleton, List.filter_eq_self]
  intro e he
  obtain ⟨ha, hb, _, _, hamem, hbmem⟩ := memoryOrderEdge_ends hwf he
  have haphi := (isSchedulable_iff.mp ha).2
  rw [traceNodes_singleton]
  simp [hamem, hbmem, haphi, hb]

namespace UsesAgree

variable (h : UsesAgree F bb)

include h

/-- The true dependences that leave a schedulable instruction are the same in both graphs. -/
theorem filter_dependenceEdges (hx : isSchedulable F x = true) :
    (localDependenceEdges F bb).filter (fun e => e.1 = x) =
      (trueDependenceEdges F [bb]).filter fun e => e.1 = x := by
  rw [localDependenceEdges, trueDependenceEdges, List.flatMap_singleton, List.filter_flatMap,
    List.filter_flatMap]
  apply List.flatMap_congr
  intro i hi
  obtain ⟨hxterm, hxphi⟩ := isSchedulable_iff.mp hx
  rw [List.filter_map]
  by_cases huse : x ∈ F.body bb ∧ F.Uses i x
  · have hsched : isSchedulable F i = true := (h.schedulable i hi x huse.1 huse.2).trans hx
    obtain ⟨hterm, hphi⟩ := isSchedulable_iff.mp hsched
    rw [if_neg (by simp [hphi]), if_neg (by simp [hterm]), List.filter_map, List.filter_filter,
      List.filter_filter]
    congr 1
    apply List.filter_congr
    intro d _
    by_cases hd : d = x
    · subst hd
      simp [hxterm, hxphi, huse.1, traceNodes_singleton]
    · simp [hd]
  · -- neither graph has an edge from `x` to `i`
    have hnone : ∀ l : List InstrId, (∀ d ∈ l, d ∈ operandInstructions (F.instr i)) →
        (x ∈ l → x ∈ F.body bb) → l.filter ((fun e : InstrId × InstrId => decide (e.1 = x)) ∘
          fun d => (d, i)) = [] := by
      intro l hl hmem
      rw [List.filter_eq_nil_iff]
      intro d hd
      simp only [Function.comp_apply, decide_eq_true_eq]
      intro hdx
      subst hdx
      exact huse ⟨hmem hd, mem_operandInstructions.mp (hl d hd)⟩
    rw [hnone _ (fun d hd => (List.mem_filter.mp hd).1) fun hx =>
      by simpa using (List.mem_filter.mp hx).2]
    split
    · rfl
    · split
      · rfl
      · rw [List.filter_map, hnone _ (fun d hd => (List.mem_filter.mp hd).1)]
        intro hx
        have := (List.mem_filter.mp hx).2
        rw [traceNodes_singleton] at this
        simp only [Bool.and_eq_true, List.contains_iff_mem, List.mem_filter] at this
        exact this.2.1

variable (hwf : F.WellFormed)

include hwf

/-- A schedulable instruction has the same successors in both graphs. -/
theorem successors_eq (hx : isSchedulable F x = true) :
    ((buildLocalDDG F bb).node x).successors = ((buildDDG F [bb]).node x).successors := by
  rw [buildLocalDDG, buildDDG, DDG.addEdges_successors, DDG.addEdges_successors,
    DDG.addEdges_successors, DDG.addEdges_successors, h.filter_dependenceEdges hx,
    traceMemoryEdges_singleton hwf]
  rfl

/-- A successor that is never queued is the terminator, and the edge is a memory edge. -/
theorem not_schedulable_successor (hx : isSchedulable F x = true)
    (hedge : (buildLocalDDG F bb).Edge x a) (ha : isSchedulable F a = false) :
    (x, a) ∈ memoryOrderEdges F [] (F.body bb) ∧ (F.instr a).isTerminator = true := by
  rcases edge_buildLocalDDG.mp hedge with hdep | hmem
  · obtain ⟨hxb, hab, huse⟩ := mem_localDependenceEdges.mp hdep
    rw [h.schedulable a hab x hxb huse, hx] at ha
    cases ha
  · refine ⟨hmem, ?_⟩
    have hphi := (memoryOrderEdge_ends hwf hmem).2.1
    by_contra hterm
    have := isSchedulable_iff.mpr ⟨by simpa using hterm, hphi⟩
    rw [ha] at this
    cases this

/-- An instruction that is never queued leads to no schedulable one. -/
theorem side_local (hx : isSchedulable F x = false) (hedge : (buildLocalDDG F bb).Edge x a) :
    isSchedulable F a = false := by
  rcases edge_buildLocalDDG.mp hedge with hdep | hmem
  · obtain ⟨hxb, hab, huse⟩ := mem_localDependenceEdges.mp hdep
    rw [h.schedulable a hab x hxb huse, hx]
  · rw [(memoryOrderEdge_ends hwf hmem).1] at hx
    cases hx

omit h in
theorem side_trace (hx : isSchedulable F x = false) : ¬ (buildDDG F [bb]).Edge x a := by
  intro hedge
  rw [schedulable_of_edge hwf hedge] at hx
  cases hx

/-- A schedulable instruction has the same critical path in both graphs. -/
theorem criticalPath_eq {ddg₁ ddg₂ : DDG} (h₁ : (buildLocalDDG F bb).computeCriticalPath = some ddg₁)
    (h₂ : (buildDDG F [bb]).computeCriticalPath = some ddg₂) (hxb : x ∈ F.body bb)
    (hx : isSchedulable F x = true) :
    (ddg₁.node x).criticalPath = (ddg₂.node x).criticalPath := by
  have hnodes : (buildDDG F [bb]).nodes =
      (buildLocalDDG F bb).nodes.filter fun i => !(F.instr i).isPHI := by
    rw [buildDDG_nodes, buildLocalDDG_nodes, traceNodes_singleton]
  have hnd := traceNodes_nodup hwf (List.nodup_singleton bb)
  apply DDG.criticalPath_congr (fun i => isSchedulable F i = true)
    (wellBuilt_buildLocalDDG (hwf.body_nodup bb)) (wellBuilt_buildDDG hnd) h₁ h₂ hnodes
  · intro i hi
    simp [(isSchedulable_iff.mp hi).2]
  · intro i hi s hs
    have := h.side_local hwf (by simpa using hi) hs
    simp [this]
  · intro i hi s hs
    exact absurd hs (side_trace hwf (by simpa using hi))
  · exact fun i hi => h.successors_eq hwf hi
  · intro i
    rw [buildLocalDDG_delay, buildDDG_delay]
  · exact fun i => buildLocalDDG_criticalPath
  · exact fun i => buildDDG_criticalPath
  · -- a side successor is the terminator, which only a PHI could use
    intro i hi s hs hside
    obtain ⟨hmem, hterm⟩ := h.not_schedulable_successor hwf hi hs (by simpa using hside)
    obtain ⟨_, _, hop, hne, hib, hsb⟩ := memoryOrderEdge_ends hwf hmem
    refine ⟨fun m hm => ?_, fun m hm => absurd hm (side_trace hwf (by simpa using hside))⟩
    rcases edge_buildLocalDDG.mp hm with hdep | hmem'
    · obtain ⟨_, hmb, huse⟩ := mem_localDependenceEdges.mp hdep
      by_cases hphi : (F.instr m).isPHI = true
      · rw [h.backEdge m hmb s hsb huse hphi hterm i hib hne] at hop
        cases hop
      · have hms := h.schedulable m hmb s hsb huse
        have hmterm : (F.instr m).isTerminator = true := by
          by_contra hmt
          have := isSchedulable_iff.mpr ⟨by simpa using hmt, by simpa using hphi⟩
          rw [hms] at this
          exact hside this
        obtain ⟨l, t, hbody, _⟩ := hwf.terminated bb (hwf.mem_blocks hmb)
        rw [hwf.eq_terminator hbody hmb hmterm, hwf.eq_terminator hbody hsb hterm]
    · exact absurd (memoryOrderEdge_ends hwf hmem').1 hside
  · exact buildLocalDDG_nodes.symm ▸ hxb
  · exact hx

/-- A schedulable instruction has as many predecessors in both graphs. -/
theorem predecessors_length_eq (hx : isSchedulable F x = true) :
    ((buildLocalDDG F bb).node x).predecessors.length =
      ((buildDDG F [bb]).node x).predecessors.length := by
  have hnd := traceNodes_nodup hwf (List.nodup_singleton bb)
  have hlocal := wellBuilt_buildLocalDDG (hwf.body_nodup bb)
  have htrace := wellBuilt_buildDDG hnd
  apply List.Perm.length_eq
  apply (List.perm_ext_iff_of_nodup (hlocal.pred_nodup x) (htrace.pred_nodup x)).mpr
  intro p
  rw [hlocal.mem_predecessors, htrace.mem_predecessors]
  constructor
  · intro hedge
    have hp : isSchedulable F p = true := by
      by_contra hp
      rw [h.side_local hwf (by simpa using hp) hedge] at hx
      cases hx
    rw [DDG.Edge, ← h.successors_eq hwf hp]
    exact hedge
  · intro hedge
    have hp : isSchedulable F p = true := by
      by_contra hp
      exact side_trace hwf (by simpa using hp) hedge
    rw [DDG.Edge, h.successors_eq hwf hp]
    exact hedge

end UsesAgree

/-! ### Regions without a choice -/

/-- Rewriting a region in which each instruction uses the one before it changes nothing. -/
theorem rewriteRegion_forced {schedule : List InstrId} {tr : Trail} {pre region post : List InstrId}
    {boundary : InstrId} (hwf : tr.current.WellFormed) (hnd : schedule.Nodup)
    (hresp : RespectsUses tr.current schedule bb)
    (hbody : tr.current.body bb = pre ++ region ++ boundary :: post)
    (hregion : ∀ i ∈ region, tr.current.isAnchor i = false)
    (hchain : region.IsChain fun d u => tr.current.Uses u d) :
    (rewriteRegion schedule bb tr (region, some boundary)).current = tr.current := by
  rcases rewriteRegion_cases hwf hnd hresp hbody hregion with heq | ⟨ordered, hperm, hdeps, heq⟩
  · rw [heq]
  · have hrnd : region.Nodup := by
      have hbnd := hwf.body_nodup bb
      rw [hbody] at hbnd
      exact (List.nodup_append.mp (List.nodup_append.mp hbnd).1).2.1
    have hsame : ordered = region := by
      apply eq_of_perm_of_isChain (hperm.nodup_iff.mpr hrnd) hperm
      apply hchain.imp_of_mem_imp
      intro d u hd hu huse
      exact hdeps u (hperm.mem_iff.mpr hu) d (hperm.mem_iff.mpr hd) huse
    rw [heq, hsame, ← hbody, Function.update_eq_self]
    rfl

/-- The regions still to be rewritten are those of the rest of the block. -/
theorem foldl_rewriteRegion_forced {schedule : List InstrId} (hwf : F.WellFormed)
    (hnd : schedule.Nodup) (hresp : RespectsUses F schedule bb) {rest current pre : List InstrId}
    (hbody : F.body bb = pre ++ current ++ rest) (hcur : ∀ i ∈ current, F.isAnchor i = false)
    (hchain : ∀ region ∈ collectRegions F rest current, region.1.IsChain fun d u => F.Uses u d)
    {tr : Trail} (htr : tr.current = F) :
    ((collectRegions F rest current).foldl (rewriteRegion schedule bb) tr).current = F := by
  induction rest generalizing current pre tr with
  | nil =>
    rw [collectRegions]
    split
    · exact htr
    · -- no anchor ends the run, so it is left alone
      rw [List.foldl_cons, List.foldl_nil, rewriteRegion]
      split
      · exact htr
      · exact htr
  | cons i rest ih =>
    rw [collectRegions] at hchain ⊢
    split
    · rename_i hi
      rw [if_pos hi] at hchain
      split
      · rename_i hnil
        rw [if_pos hnil] at hchain
        obtain rfl := List.isEmpty_iff.mp hnil
        have hbody' : F.body bb = (pre ++ [i]) ++ [] ++ rest := by simpa using hbody
        exact ih hbody' (by simp) hchain htr
      · rename_i hne
        rw [if_neg hne] at hchain
        have hbody' : F.body bb = (pre ++ current ++ [i]) ++ [] ++ rest := by simpa using hbody
        rw [List.foldl_cons]
        apply ih hbody' (by simp)
        · exact fun region hregion => hchain region (List.mem_cons_of_mem _ hregion)
        · subst htr
          exact rewriteRegion_forced hwf hnd hresp hbody hcur (hchain _ List.mem_cons_self)
    · rename_i hi
      rw [if_neg hi] at hchain
      have hbody' : F.body bb = pre ++ (current ++ [i]) ++ rest := by simpa using hbody
      apply ih hbody' ?_ hchain htr
      intro j hj
      rcases List.mem_append.mp hj with hj | hj
      · exact hcur j hj
      · rw [List.mem_singleton.mp hj]
        simpa using hi

/-- A block without a choice stays as it is. -/
theorem OrdersForced.reorder (h : OrdersForced F bb) (hwf : F.WellFormed) {schedule : List InstrId}
    (hnd : schedule.Nodup) (hresp : RespectsUses F schedule bb) :
    (reorderBlockWithinRegions schedule bb (Trail.start F)).current = F := by
  have hbody : F.body bb = [] ++ [] ++ F.body bb := rfl
  exact foldl_rewriteRegion_forced hwf hnd hresp hbody (by simp) h rfl

/-! ### Both ways -/

/-- Operands come before their users in the schedule of a one-block trace, too. -/
theorem traceSchedule_respectsUses {schedule : List InstrId}
    (h : IsListSchedule F (buildDDG F [bb]) schedule) : RespectsUses F schedule bb := by
  intro u hu d hd hua hda huse hus _
  have hnode : ∀ j ∈ F.body bb, F.isAnchor j = false → j ∈ traceNodes F [bb] := by
    intro j hj hja
    exact mem_traceNodes.mpr ⟨bb, List.mem_singleton_self bb, hj, isPHI_of_not_anchor hja⟩
  have hedge : (buildDDG F [bb]).Edge d u := by
    apply edge_buildDDG.mpr
    apply Or.inl
    exact mem_trueDependenceEdges.mpr ⟨hnode d hd hda, isTerminator_of_not_anchor hda,
      hnode u hu hua, isTerminator_of_not_anchor hua, huse⟩
  exact h.ordered d u hedge hus

/-- **A block whose operands stay within the schedulable instructions, or whose dependences leave no
choice, is ordered alike both ways**, from any liveness result. -/
theorem scheduleBlock_body_eq (hwf : F.WellFormed) (livenessResult : LivenessResult)
    (universeIndex : Value → Option ℕ) (statsOn : Bool) (peak : ℕ)
    (h : UsesAgree F bb ∨ OrdersForced F bb) : ∃ tr₁ peak₁ tr₂ peak₂,
      scheduleBlock livenessResult universeIndex statsOn (Trail.start F, peak) bb =
        some (tr₁, peak₁) ∧
      scheduleAsTrace livenessResult universeIndex statsOn (Trail.start F, peak) bb =
        some (tr₂, peak₂) ∧
      tr₁.current.body bb = tr₂.current.body bb := by
  have hnd := traceNodes_nodup hwf (List.nodup_singleton bb)
  obtain ⟨ddg₁, schedule₁, peak₁, hddg₁, hrun₁, hsched₁⟩ := localSchedule_exists livenessResult
    universeIndex statsOn (hwf.body_nodup bb) (livenessResult bb).inSet peak
  obtain ⟨ddg₂, schedule₂, peak₂, hddg₂, hrun₂, hsched₂⟩ := listSchedule_exists F hnd
    universeIndex livenessResult (livenessResult bb).inSet true statsOn peak
  refine ⟨reorderBlockWithinRegions schedule₁ bb (Trail.start F), peak₁,
    reorderBlockWithinRegions schedule₂ bb (Trail.start F), peak₂, ?_, ?_, ?_⟩
  · rw [scheduleBlock]
    simp only [Trail.start, hddg₁, Option.bind_eq_bind, Option.bind_some, hrun₁, applyLocalSchedule]
  · rw [scheduleAsTrace]
    simp only [Trail.start, hddg₂, Option.bind_eq_bind, Option.bind_some, hrun₂]
  rcases h with hagree | hforced
  · -- the schedules are the same
    have hshape₁ := DDG.sameShape_computeCriticalPath hddg₁
    have hshape₂ := DDG.sameShape_computeCriticalPath hddg₂
    have hnodes : ddg₂.nodes = ddg₁.nodes.filter fun i => !(F.instr i).isPHI := by
      rw [hshape₁.nodes, hshape₂.nodes, buildDDG_nodes, buildLocalDDG_nodes, traceNodes_singleton]
    have hbuilt₁ := wellBuilt_buildLocalDDG (hwf.body_nodup bb)
    have hsame : (schedule₁, peak₁) = (schedule₂, peak₂) := by
      apply listSchedule_congr (hshape₁.wellBuilt hbuilt₁) hnodes ?_ ?_ ?_ ?_ hrun₁ hrun₂
      · intro i hi
        simp [(isSchedulable_iff.mp hi).2]
      · intro i _ hi
        rw [hshape₁.successors, hshape₂.successors, hagree.successors_eq hwf hi]
      · intro i hmem hi
        rw [hshape₁.nodes, buildLocalDDG_nodes] at hmem
        exact hagree.criticalPath_eq hwf hddg₁ hddg₂ hmem hi
      · intro i _ hi
        rw [hshape₁.predecessors, hshape₂.predecessors, hagree.predecessors_length_eq hwf hi]
    rw [(Prod.mk.inj hsame).1]
  · rw [hforced.reorder hwf hsched₁.nodup (localSchedule_respectsUses hsched₁),
      hforced.reorder hwf hsched₂.nodup (traceSchedule_respectsUses hsched₂)]

theorem twoBlocks_body_eq : ∃ tr₁ peak₁ tr₂ peak₂,
    scheduleBlock (fun _ => ⟨∅, ∅, ∅, ∅⟩) (fun _ => none) true (Trail.start twoBlocks, 0) 0 =
      some (tr₁, peak₁) ∧
    scheduleAsTrace (fun _ => ⟨∅, ∅, ∅, ∅⟩) (fun _ => none) true (Trail.start twoBlocks, 0) 0 =
      some (tr₂, peak₂) ∧
    tr₁.current.body 0 = tr₂.current.body 0 :=
  scheduleBlock_body_eq twoBlocks_wellFormed (fun _ => ⟨∅, ∅, ∅, ∅⟩) (fun _ => none) true 0
    (.inl ⟨by decide, by decide⟩)

/-- Two independent values, the second of which is returned.  The return makes it urgent in the local
graph and is not seen in the other. -/
def returnsSecond : Function :=
  .ofTables 1
    [.value .other [.argument 0, .constant 1], .value .other [.argument 0],
      .branch [.instruction 1] []]
    [0, 1, 2] []

theorem returnsSecond_verified : returnsSecond.WellFormed ∧ returnsSecond.SSADominance :=
  Function.verify_sound (by decide) rfl

/-- The two orders of `returnsSecond`, scheduled from its own liveness result. -/
theorem returnsSecond_orders_differ :
    returnsSecond.WellFormed ∧ returnsSecond.SSADominance ∧ ∃ livenessResult,
      computeLiveness returnsSecond = some livenessResult ∧ ∃ tr₁ peak₁ tr₂ peak₂,
        scheduleBlock livenessResult (buildValueIndex (valueUniverse returnsSecond)) false
          (Trail.start returnsSecond, 0) 0 = some (tr₁, peak₁) ∧
        scheduleAsTrace livenessResult (buildValueIndex (valueUniverse returnsSecond)) false
          (Trail.start returnsSecond, 0) 0 = some (tr₂, peak₂) ∧
        tr₁.current.body 0 = [1, 0, 2] ∧ tr₂.current.body 0 = [0, 1, 2] := by
  obtain ⟨hwf, hssa⟩ := returnsSecond_verified
  exact ⟨hwf, hssa, _, rfl, _, _, _, _, rfl, rfl, rfl, rfl⟩

end TraceScheduler
