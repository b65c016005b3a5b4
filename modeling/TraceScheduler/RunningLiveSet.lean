import TraceScheduler.LocalCompleteness
import TraceScheduler.ListPriority

/-!
# The running live set

`updateLiveSet` looks at block-level liveness only: an operand that is not live out of the block is
dropped at its first scheduled user, whether or not another user follows.  What the running set holds
is therefore fixed by the prefix alone (`RunningLive`): the values on entry and those produced so far,
less those that are not live out and have been read.

So no value that is still needed is dropped exactly when no value is read twice in the block without
being live out of it (`ReadOnce`).
-/

namespace TraceScheduler

open scoped List

section

variable {F : Function} {universeIndex : Value → Option ℕ} {liveness : LivenessResult}
  {bb : BasicBlock} {i : InstrId} {idx : ℕ}

theorem mem_foldl_killOperand (ops : List Value) {live : Finset ℕ} :
    idx ∈ ops.foldl (killOperand universeIndex liveness bb) live ↔
      idx ∈ live ∧ (idx ∈ (liveness bb).outSet ∨ ∀ v ∈ ops, universeIndex v ≠ some idx) := by
  induction ops generalizing live with
  | nil => simp
  | cons v ops ih =>
    have hstep : idx ∈ killOperand universeIndex liveness bb live v ↔
        idx ∈ live ∧ (idx ∈ (liveness bb).outSet ∨ universeIndex v ≠ some idx) := by
      rw [killOperand]
      cases hv : universeIndex v with
      | none => simp
      | some k =>
        dsimp only
        by_cases hk : k = idx
        · subst hk
          by_cases hout : k ∈ (liveness bb).outSet
          · simp [hout]
          · simp [hout]
        · have hne : idx ≠ k := fun heq => hk heq.symm
          split
          · simp [hk]
          · simp [hk, hne]
    rw [List.foldl_cons, ih, hstep]
    simp only [List.forall_mem_cons]
    tauto

/-- The live set after one instruction. -/
theorem mem_updateLiveSet {live : Finset ℕ}
    (hvoid : ∀ k, universeIndex (.instruction i) = some k → (F.instr i).isVoidTy = false) :
    idx ∈ updateLiveSet F universeIndex liveness i live ↔
      (idx ∈ live ∨ universeIndex (.instruction i) = some idx) ∧
        (idx ∈ (liveness (F.getParent i)).outSet ∨
          ∀ v ∈ (F.instr i).operands, universeIndex v ≠ some idx) := by
  rw [updateLiveSet, mem_foldl_killOperand]
  apply and_congr_left
  intro _
  cases hi : universeIndex (.instruction i) with
  | none => simp
  | some k =>
    rw [if_neg (by simp [hvoid k hi])]
    dsimp only
    rw [Finset.mem_insert, Option.some.injEq, or_comm, eq_comm]

end

variable {F : Function} {g ddg : DDG} {liveness : LivenessResult} {useRegPressure statsOn : Bool}
  {peak : ℕ} {st : ListState} {bb : BasicBlock} {d u x y : InstrId} {v : Value}

/-! ### Graphs of one block -/

/-- A graph of schedulable instructions of one block in which users wait for their operands and for
nothing that comes later. -/
structure OrdersBlock (F : Function) (bb : BasicBlock) (g : DDG) : Prop where
  wellBuilt : g.WellBuilt
  mem_body : ∀ n ∈ g.nodes, n ∈ F.body bb
  mem_nodes : ∀ n ∈ F.body bb, isSchedulable F n = true → n ∈ g.nodes
  use_edge : ∀ d ∈ F.body bb, ∀ u ∈ F.body bb, isSchedulable F d = true → isSchedulable F u = true →
    F.Uses u d → g.Edge d u
  local_edge : ∀ a b, g.Edge a b → (buildLocalDDG F bb).Edge a b

theorem ordersBlock_local (hwf : F.WellFormed) : OrdersBlock F bb (buildLocalDDG F bb) := by
  refine ⟨wellBuilt_buildLocalDDG (hwf.body_nodup bb), ?_, ?_, ?_, fun _ _ h => h⟩
  · intro n hn
    rw [buildLocalDDG_nodes] at hn
    exact hn
  · intro n hn _
    rw [buildLocalDDG_nodes]
    exact hn
  · intro d hd u hu _ _ huse
    exact edge_buildLocalDDG.mpr (.inl (mem_localDependenceEdges.mpr ⟨hd, hu, huse⟩))

theorem ordersBlock_trace (hwf : F.WellFormed) : OrdersBlock F bb (buildDDG F [bb]) := by
  have hnodes : ∀ n, n ∈ traceNodes F [bb] ↔ n ∈ F.body bb ∧ (F.instr n).isPHI = false := by
    intro n
    rw [mem_traceNodes]
    simp
  refine ⟨wellBuilt_buildDDG (traceNodes_nodup hwf (List.nodup_singleton bb)), ?_, ?_, ?_, ?_⟩
  · intro n hn
    rw [buildDDG_nodes, hnodes] at hn
    exact hn.1
  · intro n hn hs
    rw [buildDDG_nodes, hnodes]
    exact ⟨hn, (isSchedulable_iff.mp hs).2⟩
  · intro d hd u hu hsd hsu huse
    obtain ⟨hdterm, hdphi⟩ := isSchedulable_iff.mp hsd
    obtain ⟨huterm, huphi⟩ := isSchedulable_iff.mp hsu
    apply edge_buildDDG.mpr
    apply Or.inl
    exact mem_trueDependenceEdges.mpr
      ⟨(hnodes d).mpr ⟨hd, hdphi⟩, hdterm, (hnodes u).mpr ⟨hu, huphi⟩, huterm, huse⟩
  · intro a b hab
    apply edge_buildLocalDDG.mpr
    cases edge_buildDDG.mp hab with
    | inl hdep =>
      obtain ⟨ha, _, hb, _, huse⟩ := mem_trueDependenceEdges.mp hdep
      exact .inl (mem_localDependenceEdges.mpr ⟨((hnodes a).mp ha).1, ((hnodes b).mp hb).1, huse⟩)
    | inr hmem =>
      rw [traceMemoryEdges_singleton hwf] at hmem
      exact .inr hmem

/-- Critical paths change nothing of that. -/
theorem OrdersBlock.computeCriticalPath (h : OrdersBlock F bb g)
    (hddg : g.computeCriticalPath = some ddg) : OrdersBlock F bb ddg := by
  have hshape := DDG.sameShape_computeCriticalPath hddg
  refine ⟨hshape.wellBuilt h.wellBuilt, ?_, ?_, ?_, ?_⟩
  · rw [hshape.nodes]
    exact h.mem_body
  · rw [hshape.nodes]
    exact h.mem_nodes
  · intro d hd u hu hsd hsu huse
    exact hshape.edge.mpr (h.use_edge d hd u hu hsd hsu huse)
  · intro a b hab
    exact h.local_edge a b (hshape.edge.mp hab)

/-! ### What the running set holds -/

/-- `v` is live on entry or the result of a scheduled instruction. -/
def Available (F : Function) (liveness : LivenessResult) (bb : BasicBlock) (schedule : List InstrId)
    (v : Value) : Prop :=
  HasBit F (liveness bb).inSet v ∨ ∃ d ∈ schedule, v = .instruction d

/-- `v` is live out of the block or read by an instruction of it that is not scheduled. -/
def StillNeeded (F : Function) (liveness : LivenessResult) (bb : BasicBlock)
    (schedule : List InstrId) (v : Value) : Prop :=
  HasBit F (liveness bb).outSet v ∨
    ∃ u ∈ F.body bb, u ∉ schedule ∧ v ∈ (F.instr u).operands

/-- What the running set holds after a prefix. -/
def RunningLive (F : Function) (liveness : LivenessResult) (bb : BasicBlock) (st : ListState) : Prop :=
  ∀ v ∈ valueUniverse F, HasBit F st.currentLive v ↔
    Available F liveness bb st.schedule v ∧
      (HasBit F (liveness bb).outSet v ∨ ∀ u ∈ st.schedule, v ∉ (F.instr u).operands)

/-- No value that is still needed has been dropped. -/
def NeverDrops (F : Function) (liveness : LivenessResult) (bb : BasicBlock) (st : ListState) : Prop :=
  ∀ v ∈ valueUniverse F, Available F liveness bb st.schedule v →
    StillNeeded F liveness bb st.schedule v → HasBit F st.currentLive v

/-- A value that two instructions of the block read is live out of it. -/
def ReadOnce (F : Function) (liveness : LivenessResult) (bb : BasicBlock) : Prop :=
  ∀ v ∈ valueUniverse F, ¬ HasBit F (liveness bb).outSet v → ∀ x ∈ F.body bb, ∀ y ∈ F.body bb,
    v ∈ (F.instr x).operands → v ∈ (F.instr y).operands → x = y

theorem hasBit_iff {bits : Finset ℕ} {idx : ℕ} (hv : buildValueIndex (valueUniverse F) v = some idx) :
    HasBit F bits v ↔ idx ∈ bits := by
  constructor
  · intro h
    obtain ⟨idx', hidx, hmem⟩ := h
    obtain rfl : idx = idx' := Option.some.inj (hv.symm.trans hidx)
    exact hmem
  · intro h
    exact ⟨idx, hv, h⟩

theorem hasBit_updateLiveSet {best : InstrId} {live : Finset ℕ} (hwf : F.WellFormed)
    (hbody : best ∈ F.body bb) (hv : v ∈ valueUniverse F) :
    HasBit F (updateLiveSet F (buildValueIndex (valueUniverse F)) liveness best live) v ↔
      (HasBit F live v ∨ v = .instruction best) ∧
        (HasBit F (liveness bb).outSet v ∨ v ∉ (F.instr best).operands) := by
  obtain ⟨idx, hidx⟩ := Option.isSome_iff_exists.mp (buildValueIndex_isSome.mpr hv)
  have hresult : buildValueIndex (valueUniverse F) (.instruction best) = some idx ↔
      v = .instruction best := by
    constructor
    · intro heq
      exact buildValueIndex_inj hidx heq
    · intro heq
      rw [← heq]
      exact hidx
  have hread : (∀ w ∈ (F.instr best).operands,
      buildValueIndex (valueUniverse F) w ≠ some idx) ↔ v ∉ (F.instr best).operands := by
    constructor
    · intro hall hmem
      exact hall v hmem hidx
    · intro hnot w hw heq
      rw [buildValueIndex_inj hidx heq] at hnot
      exact hnot hw
  have hvoid : ∀ k, buildValueIndex (valueUniverse F) (.instruction best) = some k →
      (F.instr best).isVoidTy = false := by
    intro k hk
    apply isVoidTy_of_mem_valueUniverse
    apply buildValueIndex_isSome.mp
    rw [hk]
    rfl
  rw [hasBit_iff hidx, hasBit_iff hidx, hasBit_iff hidx, mem_updateLiveSet hvoid,
    hwf.getParent_eq hbody, hresult, hread]

theorem available_append {schedule : List InstrId} {best : InstrId} :
    Available F liveness bb (schedule ++ [best]) v ↔
      Available F liveness bb schedule v ∨ v = .instruction best := by
  simp only [Available, List.mem_append, List.mem_singleton, or_and_right, exists_or,
    exists_eq_left, or_assoc]

/-- The states of the main loop on `ddg`, from the values live on entry to `bb`. -/
abbrev BlockReaches (F : Function) (liveness : LivenessResult) (useRegPressure statsOn : Bool)
    (bb : BasicBlock) (peak : ℕ) (ddg : DDG) : ListState → Prop :=
  LoopReaches F (buildValueIndex (valueUniverse F)) liveness useRegPressure statsOn
    (initialListState F statsOn ddg (liveness bb).inSet peak)

/-- What has been scheduled belongs to the block. -/
theorem OrdersBlock.mem_of_scheduled (hg : OrdersBlock F bb ddg) (h : ScheduleInv F ddg st)
    (hd : d ∈ st.schedule) : d ∈ F.body bb ∧ isSchedulable F d = true := by
  obtain ⟨hnode, hs, _⟩ := (h.mem_iff d).mp (List.mem_append_left _ hd)
  exact ⟨hg.mem_body d hnode, hs⟩

/-- Operands of the block are scheduled before their users. -/
theorem OrdersBlock.operand_scheduled (hg : OrdersBlock F bb ddg) (h : ScheduleInv F ddg st)
    (hu : u ∈ st.schedule) (hd : d ∈ F.body bb) (hs : isSchedulable F d = true)
    (huse : F.Uses u d) : d ∈ st.schedule := by
  obtain ⟨hub, hus⟩ := hg.mem_of_scheduled h hu
  have hedge := hg.use_edge d hd u hub hs hus huse
  exact ((h.mem_iff u).mp (List.mem_append_left _ hu)).2.2 d
    (hg.wellBuilt.mem_predecessors.mpr hedge)

/-- **One round**, whichever ready node is taken. -/
theorem RunningLive.scheduleNode {best : InstrId} (hwf : F.WellFormed) (hg : OrdersBlock F bb ddg)
    (hinv : ScheduleInv F ddg st) (h : RunningLive F liveness bb st) (hbest : best ∈ st.readyQueue) :
    RunningLive F liveness bb
      (scheduleNode F (buildValueIndex (valueUniverse F)) liveness statsOn st best) := by
  have hnext : ScheduleInv F ddg (TraceScheduler.scheduleNode F (buildValueIndex (valueUniverse F))
      liveness statsOn st best) := hinv.scheduleNode hg.wellBuilt hbest
  have hscheduled : (TraceScheduler.scheduleNode F (buildValueIndex (valueUniverse F)) liveness
      statsOn st best).schedule = st.schedule ++ [best] := rfl
  obtain ⟨hbody, hs⟩ : best ∈ F.body bb ∧ isSchedulable F best = true :=
    hg.mem_of_scheduled hnext (by rw [hscheduled]; simp)
  intro v hv
  -- the result of the new instruction has no user yet
  have hfresh : v = .instruction best → ∀ u ∈ st.schedule, v ∉ (F.instr u).operands := by
    intro heq u hu huse
    rw [heq] at huse
    have hdone := hg.operand_scheduled hinv hu hbody hs huse
    exact (List.nodup_append.mp hinv.nodup).2.2 best hdone best hbest rfl
  have hunread : (∀ u ∈ st.schedule ++ [best], v ∉ (F.instr u).operands) ↔
      (∀ u ∈ st.schedule, v ∉ (F.instr u).operands) ∧ v ∉ (F.instr best).operands := by
    rw [List.forall_mem_append, List.forall_mem_singleton]
  show HasBit F (updateLiveSet F _ liveness best st.currentLive) v ↔ _
  -- distribute, and drop the case that the new result has been read already
  have hkeep : (Available F liveness bb st.schedule v ∧
        (HasBit F (liveness bb).outSet v ∨ ∀ u ∈ st.schedule, v ∉ (F.instr u).operands)) ∨
        v = .instruction best ↔
      (Available F liveness bb st.schedule v ∨ v = .instruction best) ∧
        (HasBit F (liveness bb).outSet v ∨ ∀ u ∈ st.schedule, v ∉ (F.instr u).operands) := by
    rw [and_or_right, or_assoc, or_iff_left_of_imp hfresh]
  rw [hasBit_updateLiveSet hwf hbody hv, h v hv, hscheduled, available_append, hunread, hkeep,
    or_and_left, and_assoc]

/-- **What the running set holds, after every prefix.** -/
theorem BlockReaches.runningLive (hwf : F.WellFormed) (hg : OrdersBlock F bb ddg)
    (h : BlockReaches F liveness useRegPressure statsOn bb peak ddg st) :
    RunningLive F liveness bb st := by
  induction h with
  | start =>
    intro v _
    simp [initialListState, Available]
  | next hreach hpick ih =>
    exact ih.scheduleNode hwf hg (hreach.inv hg.wellBuilt) (mem_of_pickBest hpick)

/-! ### When nothing is dropped too early -/

theorem RunningLive.neverDrops (h : RunningLive F liveness bb st) (hg : OrdersBlock F bb ddg)
    (hinv : ScheduleInv F ddg st) (honce : ReadOnce F liveness bb) :
    NeverDrops F liveness bb st := by
  intro v hv hav hneed
  apply (h v hv).mpr
  refine ⟨hav, ?_⟩
  by_cases hout : HasBit F (liveness bb).outSet v
  · exact .inl hout
  right
  intro x hx huse
  obtain ⟨u, hu, hnot, huse'⟩ := hneed.resolve_left hout
  -- the reader that is left would be the one that is done
  obtain rfl := honce v hv hout x (hg.mem_of_scheduled hinv hx).1 u hu huse huse'
  exact hnot hx

/-- Of two instructions one is scheduled first. -/
theorem BlockReaches.exists_between (hne : x ≠ y)
    (h : BlockReaches F liveness useRegPressure statsOn bb peak ddg st)
    (hx : x ∈ st.schedule ∨ y ∈ st.schedule) :
    ∃ st', BlockReaches F liveness useRegPressure statsOn bb peak ddg st' ∧
      ((x ∈ st'.schedule ∧ y ∉ st'.schedule) ∨ (y ∈ st'.schedule ∧ x ∉ st'.schedule)) := by
  induction h with
  | start => simp [initialListState] at hx
  | @next st best hreach hpick ih =>
    by_cases hold : x ∈ st.schedule ∨ y ∈ st.schedule
    · exact ih hold
    obtain ⟨hxold, hyold⟩ := not_or.mp hold
    refine ⟨_, hreach.next hpick, ?_⟩
    have hscheduled : (scheduleNode F (buildValueIndex (valueUniverse F)) liveness
        statsOn st best).schedule = st.schedule ++ [best] := rfl
    rw [hscheduled] at hx ⊢
    simp only [List.mem_append, List.mem_singleton, hxold, hyold, false_or] at hx ⊢
    cases hx with
    | inl hx => exact .inl ⟨hx, fun hy => hne (hx.trans hy.symm)⟩
    | inr hy => exact .inr ⟨hy, fun hx => hne (hx.trans hy.symm)⟩

section

variable (hwf : F.WellFormed) (hssa : F.SSADominance) (hbb : F.cfg.Reachable bb)
  (hphi : ∀ i ∈ F.body bb, (F.instr i).isPHI = false)

include hwf hssa hbb hphi

/-- Every instruction but the terminator is scheduled in the end. -/
theorem OrdersBlock.complete {schedule : List InstrId} (hg : OrdersBlock F bb ddg)
    (h : IsListSchedule F ddg schedule) (hd : d ∈ F.body bb)
    (hterm : (F.instr d).isTerminator = false) : d ∈ schedule := by
  have hs := isSchedulable_iff.mpr ⟨hterm, hphi d hd⟩
  apply h.complete hg.wellBuilt (fun n => (F.body bb).idxOf n) _ _ (hg.mem_nodes d hd hs) hs
  · intro a b hab hb
    exact idxOf_lt_of_sublist_pair (hwf.body_nodup bb)
      (localEdge_before hwf hssa hbb (hg.local_edge a b hab) (isSchedulable_iff.mp hb).2)
  · intro a b hab hb
    apply (localEdge_schedulable hwf hssa hbb (hg.local_edge a b hab) hb).resolve_right
    intro hcase
    rw [hphi a hcase.2.1] at hcase
    cases hcase.1

/-- What a scheduled instruction reads is available. -/
theorem OrdersBlock.available (hlive : IsLiveness F liveness) (hg : OrdersBlock F bb ddg)
    (hinv : ScheduleInv F ddg st) (hv : v ∈ valueUniverse F) (hu : u ∈ st.schedule)
    (huse : v ∈ (F.instr u).operands) : Available F liveness bb st.schedule v := by
  obtain ⟨hub, hus⟩ := hg.mem_of_scheduled hinv hu
  by_cases hdef : F.DefinedIn v bb
  · right
    obtain ⟨d, hd, rfl⟩ := hdef
    have hbefore := operand_before hwf hssa hbb hd hub (hphi u hub) huse
    have hterm := hwf.not_isTerminator_of_before hbefore
    have hs := isSchedulable_iff.mpr ⟨hterm, hphi d hd⟩
    exact ⟨d, hg.operand_scheduled hinv hu hd hs huse, rfl⟩
  · left
    obtain ⟨idx, hidx⟩ := Option.isSome_iff_exists.mp (buildValueIndex_isSome.mpr hv)
    apply (hasBit_iff hidx).mpr
    apply (hlive.mem_in_iff hwf hidx).mpr
    refine ⟨bb, u, hub, huse, ?_, .refl bb⟩
    intro hbefore
    obtain ⟨d, rfl, hsub⟩ := hbefore
    exact hdef ⟨d, hsub.subset List.mem_cons_self, rfl⟩

/-- A value read twice and not live out is dropped while one of its readers is waiting. -/
theorem OrdersBlock.readOnce {st₁ : ListState} (hlive : IsLiveness F liveness)
    (hg : OrdersBlock F bb ddg)
    (hend : BlockReaches F liveness useRegPressure statsOn bb peak ddg st₁)
    (hsched : IsListSchedule F ddg st₁.schedule)
    (hnever : ∀ st, BlockReaches F liveness useRegPressure statsOn bb peak ddg st →
      NeverDrops F liveness bb st) : ReadOnce F liveness bb := by
  intro v hv hout x hx y hy hxuse hyuse
  by_contra hne
  have hone : x ∈ st₁.schedule ∨ y ∈ st₁.schedule := by
    by_cases hterm : (F.instr x).isTerminator = false
    · exact .inl (hg.complete hwf hssa hbb hphi hsched hx hterm)
    · right
      apply hg.complete hwf hssa hbb hphi hsched hy
      by_contra hterm'
      -- a block has one terminator
      obtain ⟨l, t, hbody, _⟩ := hwf.exists_terminator (hwf.mem_blocks hx)
      exact hne ((hwf.eq_terminator hbody hx (by simpa using hterm)).trans
        (hwf.eq_terminator hbody hy (by simpa using hterm')).symm)
  have hdropped : ∀ st a b, BlockReaches F liveness useRegPressure statsOn bb peak ddg st →
      a ∈ st.schedule → b ∈ F.body bb → b ∉ st.schedule → v ∈ (F.instr a).operands →
      v ∈ (F.instr b).operands → False := by
    intro st a b hst ha hb hnot hause hbuse
    have hinv := hst.inv hg.wellBuilt
    have hav := hg.available hwf hssa hbb hphi hlive hinv hv ha hause
    have hbit := hnever st hst v hv hav (.inr ⟨b, hb, hnot, hbuse⟩)
    cases ((hst.runningLive hwf hg v hv).mp hbit).2 with
    | inl h => exact hout h
    | inr hunread => exact hunread a ha hause
  obtain ⟨st, hst, hfirst⟩ := BlockReaches.exists_between hne hend hone
  cases hfirst with
  | inl h => exact hdropped st x y hst h.1 hy h.2 hxuse hyuse
  | inr h => exact hdropped st y x hst h.1 hx h.2 hyuse hxuse

end

/-- The last state of the loop. -/
theorem exists_blockReaches (hg : OrdersBlock F bb ddg) (hcp : ∀ n, 0 ≤ (ddg.node n).criticalPath) :
    ∃ st, BlockReaches F liveness useRegPressure statsOn bb peak ddg st ∧
      IsListSchedule F ddg st.schedule := by
  obtain ⟨schedule, peak', hrun, hsched⟩ := listSchedule_spec (F := F)
    (buildValueIndex (valueUniverse F)) liveness useRegPressure statsOn hg.wellBuilt
    (fun n _ => hcp n) (liveness bb).inSet peak
  obtain ⟨st, hloop, hst⟩ := Option.map_eq_some_iff.mp hrun
  obtain ⟨rfl, rfl⟩ := Prod.mk.inj hst
  exact ⟨st, (listLoop_reaches .start hloop).1, hsched⟩

/-- **The running live set after every prefix.** It holds the available values that are live out of
the block or that nothing scheduled has read.  So no value that is still needed is ever dropped if
every value read twice in the block is live out of it, and in a reachable block only if. -/
theorem listSchedule_runningLive (hwf : F.WellFormed) (hssa : F.SSADominance) (bb : BasicBlock)
    (hphi : ∀ i ∈ F.body bb, (F.instr i).isPHI = false) :
    ∃ liveness, computeLiveness F = some liveness ∧
      ∀ g, g = buildLocalDDG F bb ∨ g = buildDDG F [bb] →
        ∃ ddg, g.computeCriticalPath = some ddg ∧ ∀ useRegPressure statsOn peak,
          (∀ st, BlockReaches F liveness useRegPressure statsOn bb peak ddg st →
            RunningLive F liveness bb st) ∧
          (ReadOnce F liveness bb → ∀ st,
            BlockReaches F liveness useRegPressure statsOn bb peak ddg st →
              NeverDrops F liveness bb st) ∧
          (F.cfg.Reachable bb → (∀ st,
            BlockReaches F liveness useRegPressure statsOn bb peak ddg st →
              NeverDrops F liveness bb st) → ReadOnce F liveness bb) := by
  obtain ⟨liveness, hliveness, hlive⟩ := computeLiveness_spec fun b _ => hwf.succs_mem b
  refine ⟨liveness, hliveness, ?_⟩
  intro g hkind
  have hgraph : OrdersBlock F bb g ∧ (∀ n, (g.node n).delay = getDelay (F.instr n)) ∧
      ∀ n, (g.node n).criticalPath = 0 := by
    cases hkind with
    | inl h =>
      rw [h]
      exact ⟨ordersBlock_local hwf, fun _ => buildLocalDDG_delay, fun _ => buildLocalDDG_criticalPath⟩
    | inr h =>
      rw [h]
      exact ⟨ordersBlock_trace hwf, fun _ => buildDDG_delay, fun _ => buildDDG_criticalPath⟩
  obtain ⟨horders, hdelay, hinit⟩ := hgraph
  obtain ⟨ddg, hddg⟩ := DDG.computeCriticalPath_isSome horders.wellBuilt
  have hg := horders.computeCriticalPath hddg
  have hcp : ∀ n, 0 ≤ (ddg.node n).criticalPath := by
    apply DDG.criticalPath_nonneg hddg
    · intro n
      rw [hdelay]
      exact Int.le_of_lt (getDelay_pos _)
    · exact fun n => (hinit n).ge
  refine ⟨ddg, hddg, ?_⟩
  intro useRegPressure statsOn peak
  refine ⟨?_, ?_, ?_⟩
  · intro st hst
    exact hst.runningLive hwf hg
  · intro honce st hst
    exact (hst.runningLive hwf hg).neverDrops hg (hst.inv hg.wellBuilt) honce
  · intro hbb hnever
    obtain ⟨st, hend, hsched⟩ := exists_blockReaches hg hcp
    exact hg.readOnce hwf hssa hbb hphi hlive hend hsched hnever

theorem twoBlocks_runningLive :
    ∃ liveness ddg, computeLiveness twoBlocks = some liveness ∧
      (buildLocalDDG twoBlocks 0).computeCriticalPath = some ddg ∧
      ∀ useRegPressure statsOn peak st,
        BlockReaches twoBlocks liveness useRegPressure statsOn 0 peak ddg st →
          RunningLive twoBlocks liveness 0 st := by
  obtain ⟨liveness, hliveness, h⟩ :=
    listSchedule_runningLive twoBlocks_wellFormed twoBlocks_ssa 0 (by decide)
  obtain ⟨ddg, hddg, h⟩ := h _ (.inl rfl)
  refine ⟨liveness, ddg, hliveness, hddg, ?_⟩
  intro useRegPressure statsOn peak
  exact (h useRegPressure statsOn peak).1

/-- The argument of `returnsSecond` is live on entry and read by both instructions, and dropped after
the first. -/
theorem returnsSecond_drops : returnsSecond.WellFormed ∧ returnsSecond.SSADominance ∧
    (∀ i ∈ returnsSecond.body 0, (returnsSecond.instr i).isPHI = false) ∧
    ∃ liveness ddg st, computeLiveness returnsSecond = some liveness ∧
      (buildLocalDDG returnsSecond 0).computeCriticalPath = some ddg ∧
      BlockReaches returnsSecond liveness true false 0 0 ddg st ∧ st.schedule = [1] ∧
      ¬ NeverDrops returnsSecond liveness 0 st := by
  obtain ⟨hwf, hssa⟩ := returnsSecond_verified
  refine ⟨hwf, hssa, by decide, _, _, _, rfl, rfl,
    .next .start (show pickBest _ _ _ _ _ _ _ = some 1 from rfl), rfl, ?_⟩
  intro hnever
  have hbit := hnever (.argument 0) (by decide) (.inl ⟨0, rfl, by decide⟩)
    (.inr ⟨0, by decide, by decide, by decide⟩)
  rw [hasBit_iff rfl] at hbit
  revert hbit
  decide

end TraceScheduler
