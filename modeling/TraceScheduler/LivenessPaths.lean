import TraceScheduler.Library.BackwardFlow
import TraceScheduler.Liveness
import TraceScheduler.Verifier

/-!
# Liveness is path-based liveness

What the fixed point of `computeLiveness` contains.  `mem_useSet` and `mem_defSet` say what the two
sets of a block hold, and `computeLiveness_paths` that a value is live on entry to a block exactly
when a walk leads from it to an upward-exposed use with no definition on the way, in every graph and
whatever order the blocks are visited in.

The iteration is in place, so its states are neither round numbers nor below each other by
construction.  What carries the proof is that each visit adds only bits some walk accounts for
(`PathInv.updateBlock`), and that the last round leaves a solution of the equations.
-/

namespace TraceScheduler

open scoped List

/-! ### Numbers of values -/

variable {F : Function} {values : List Value} {v w : Value} {idx : ℕ} {b : BasicBlock}

/-- Two values never share a number. -/
theorem buildValueIndex_inj (hv : buildValueIndex values v = some idx)
    (hw : buildValueIndex values w = some idx) : v = w := by
  have h := getElem_of_buildValueIndex hv
  rw [getElem_of_buildValueIndex hw] at h
  exact (Option.some.inj h).symm

/-- Exactly the values of the list have a number. -/
theorem buildValueIndex_isSome : (buildValueIndex values v).isSome ↔ v ∈ values := by
  constructor
  · intro h
    obtain ⟨idx, hidx⟩ := Option.isSome_iff_exists.mp h
    exact List.mem_of_getElem? (getElem_of_buildValueIndex hidx)
  · have hgen : ∀ (l : List (Value × ℕ)) (index : Value → Option ℕ),
        (index v).isSome ∨ v ∈ l.map Prod.fst →
        (l.foldl (fun (index : Value → Option ℕ) e => Function.update index e.1 (some e.2))
          index v).isSome := by
      intro l
      induction l with
      | nil => exact fun index h => h.resolve_right (by simp)
      | cons e l ih =>
        intro index h
        apply ih
        show (Function.update index e.1 (some e.2) v).isSome ∨ _
        by_cases hve : v = e.1
        · left
          rw [hve, Function.update_self]
          rfl
        · rw [Function.update_of_ne hve]
          rw [List.map_cons, List.mem_cons] at h
          tauto
    intro h
    apply hgen
    right
    rw [List.zipIdx_map_fst]
    exact h

/-! ### Upward-exposed uses and definitions -/

section

variable {universeIndex : Value → Option ℕ} {bs : BlockStateLiveness} {i : InstrId}

theorem recordUse_spec (universeIndex : Value → Option ℕ) (bs : BlockStateLiveness) (v : Value)
    (idx : ℕ) : (recordUse universeIndex bs v).defSet = bs.defSet ∧
    (idx ∈ (recordUse universeIndex bs v).useSet ↔
      idx ∈ bs.useSet ∨ (idx ∉ bs.defSet ∧ universeIndex v = some idx)) := by
  rw [recordUse]
  cases hv : universeIndex v with
  | none => simp
  | some k =>
    dsimp only
    split
    · rename_i hk
      refine ⟨rfl, ?_⟩
      constructor
      · exact Or.inl
      · intro h
        apply h.resolve_right
        intro hnew
        exact hnew.1 (Option.some.inj hnew.2 ▸ hk)
    · rename_i hk
      refine ⟨rfl, ?_⟩
      show idx ∈ insert k bs.useSet ↔ _
      rw [Finset.mem_insert, Option.some.injEq]
      constructor
      · intro h
        cases h with
        | inl h => exact .inr ⟨h ▸ hk, h.symm⟩
        | inr h => exact .inl h
      · intro h
        cases h with
        | inl h => exact .inr h
        | inr h => exact .inl h.2.symm

theorem foldl_recordUse_spec (universeIndex : Value → Option ℕ) (bs : BlockStateLiveness) (idx : ℕ)
    (ops : List Value) :
    (ops.foldl (recordUse universeIndex) bs).defSet = bs.defSet ∧
      (idx ∈ (ops.foldl (recordUse universeIndex) bs).useSet ↔
        idx ∈ bs.useSet ∨ (idx ∉ bs.defSet ∧ ∃ v ∈ ops, universeIndex v = some idx)) := by
  induction ops generalizing bs with
  | nil => simp
  | cons v ops ih =>
    have hone := recordUse_spec universeIndex bs v idx
    have hrest := ih (recordUse universeIndex bs v)
    rw [List.foldl_cons]
    refine ⟨hrest.1.trans hone.1, ?_⟩
    rw [hrest.2, hone.1, hone.2]
    simp only [List.mem_cons, exists_eq_or_imp, and_or_left, or_assoc]

/-- What one instruction adds to the sets of its block. -/
theorem recordInstruction_spec (F : Function) (universeIndex : Value → Option ℕ)
    (bs : BlockStateLiveness) (i : InstrId) (idx : ℕ) :
    (idx ∈ (recordInstruction F universeIndex bs i).defSet ↔
      idx ∈ bs.defSet ∨ universeIndex (.instruction i) = some idx) ∧
    (idx ∈ (recordInstruction F universeIndex bs i).useSet ↔ idx ∈ bs.useSet ∨
      (idx ∉ bs.defSet ∧ ∃ v ∈ (F.instr i).operands, universeIndex v = some idx)) := by
  have hops := foldl_recordUse_spec universeIndex bs idx (F.instr i).operands
  rw [recordInstruction]
  cases hi : universeIndex (.instruction i) with
  | none =>
    dsimp only
    rw [hops.1]
    exact ⟨by simp, hops.2⟩
  | some k =>
    refine ⟨?_, hops.2⟩
    show idx ∈ insert k _ ↔ _
    rw [Finset.mem_insert, hops.1, Option.some.injEq, or_comm, eq_comm]

/-- `i` uses the value numbered `idx`, and nothing before it in `l` defines it. -/
def ExposedIn (F : Function) (universeIndex : Value → Option ℕ) (l : List InstrId) (idx : ℕ) : Prop :=
  ∃ done i rest, l = done ++ i :: rest ∧ (∃ v ∈ (F.instr i).operands, universeIndex v = some idx) ∧
    ∀ d ∈ done, universeIndex (.instruction d) ≠ some idx

theorem exposedIn_cons {l : List InstrId} : ExposedIn F universeIndex (i :: l) idx ↔
    (∃ v ∈ (F.instr i).operands, universeIndex v = some idx) ∨
      (universeIndex (.instruction i) ≠ some idx ∧ ExposedIn F universeIndex l idx) := by
  constructor
  · intro h
    obtain ⟨done, j, rest, heq, huse, hdone⟩ := h
    cases done with
    | nil =>
      rw [List.nil_append] at heq
      obtain ⟨rfl, rfl⟩ := List.cons_eq_cons.mp heq
      exact .inl huse
    | cons d done =>
      rw [List.cons_append] at heq
      obtain ⟨rfl, rfl⟩ := List.cons_eq_cons.mp heq
      exact .inr ⟨hdone _ List.mem_cons_self, done, j, rest, rfl, huse,
        fun d hd => hdone d (List.mem_cons_of_mem _ hd)⟩
  · intro h
    cases h with
    | inl huse => exact ⟨[], i, l, rfl, huse, by simp⟩
    | inr h =>
      obtain ⟨hi, done, j, rest, heq, huse, hdone⟩ := h
      exact ⟨i :: done, j, rest, by rw [heq, List.cons_append], huse, List.forall_mem_cons.mpr ⟨hi, hdone⟩⟩

theorem foldl_recordInstruction_spec (bs : BlockStateLiveness) (l : List InstrId) :
    (idx ∈ (l.foldl (recordInstruction F universeIndex) bs).defSet ↔
      idx ∈ bs.defSet ∨ ∃ i ∈ l, universeIndex (.instruction i) = some idx) ∧
    (idx ∈ (l.foldl (recordInstruction F universeIndex) bs).useSet ↔
      idx ∈ bs.useSet ∨ (idx ∉ bs.defSet ∧ ExposedIn F universeIndex l idx)) := by
  induction l generalizing bs with
  | nil =>
    refine ⟨by simp, ?_⟩
    simp [ExposedIn]
  | cons i l ih =>
    have hone := recordInstruction_spec F universeIndex bs i idx
    have hrest := ih (recordInstruction F universeIndex bs i)
    rw [List.foldl_cons]
    constructor
    · rw [hrest.1, hone.1]
      simp only [List.mem_cons, exists_eq_or_imp, or_assoc]
    · rw [hrest.2, hone.1, hone.2, exposedIn_cons]
      simp only [not_or, and_or_left, and_assoc, or_assoc, ne_eq]

/-- **Definitions** of a block. -/
theorem mem_defSet : idx ∈ (useDef F universeIndex b).defSet ↔
    ∃ i ∈ F.body b, universeIndex (.instruction i) = some idx := by
  rw [useDef, (foldl_recordInstruction_spec _ (F.body b)).1]
  simp

/-- **Upward-exposed uses** of a block. -/
theorem mem_useSet : idx ∈ (useDef F universeIndex b).useSet ↔
    ExposedIn F universeIndex (F.body b) idx := by
  rw [useDef, (foldl_recordInstruction_spec _ (F.body b)).2]
  simp

end

/-! ### Values -/

namespace Function

/-- `v` is the result of an instruction of `b`. -/
def DefinedIn (F : Function) (v : Value) (b : BasicBlock) : Prop :=
  ∃ d ∈ F.body b, v = .instruction d

/-- `v` is the result of an instruction that stands before `u` in `b`. -/
def DefinedBefore (F : Function) (v : Value) (u : InstrId) (b : BasicBlock) : Prop :=
  ∃ d, v = .instruction d ∧ [d, u] <+ F.body b

/-- A walk that does not pass a definition of `v` leads from `b` to a use of `v` with no definition
before it in its block. -/
def LiveOnEntry (F : Function) (v : Value) (b : BasicBlock) : Prop :=
  ∃ c u, u ∈ F.body c ∧ v ∈ (F.instr u).operands ∧ ¬ F.DefinedBefore v u c ∧
    F.cfg.LeadsTo (fun e => ¬ F.DefinedIn v e) b c

end Function

theorem mem_defSet_iff (hv : buildValueIndex values v = some idx) :
    idx ∈ (useDef F (buildValueIndex values) b).defSet ↔ F.DefinedIn v b := by
  rw [mem_defSet]
  constructor
  · intro h
    obtain ⟨i, hi, hidx⟩ := h
    exact ⟨i, hi, buildValueIndex_inj hv hidx⟩
  · intro h
    obtain ⟨i, hi, rfl⟩ := h
    exact ⟨i, hi, hv⟩

theorem mem_useSet_iff (hnd : (F.body b).Nodup) (hv : buildValueIndex values v = some idx) :
    idx ∈ (useDef F (buildValueIndex values) b).useSet ↔
      ∃ u ∈ F.body b, v ∈ (F.instr u).operands ∧ ¬ F.DefinedBefore v u b := by
  rw [mem_useSet]
  constructor
  · intro h
    obtain ⟨done, u, rest, hbody, ⟨w, hw, hidx⟩, hdone⟩ := h
    obtain rfl := buildValueIndex_inj hv hidx
    refine ⟨u, by rw [hbody]; simp, hw, ?_⟩
    intro hdef
    obtain ⟨d, rfl, hdu⟩ := hdef
    rw [hbody] at hdu hnd
    exact hdone d ((sublist_pair_append hnd).mp hdu) hv
  · intro h
    obtain ⟨u, hu, huse, hdef⟩ := h
    obtain ⟨done, rest, hbody⟩ := List.append_of_mem hu
    refine ⟨done, u, rest, hbody, ⟨v, huse, hv⟩, ?_⟩
    intro d hd hidx
    obtain rfl := buildValueIndex_inj hv hidx
    apply hdef
    refine ⟨d, rfl, ?_⟩
    rw [hbody] at hnd ⊢
    exact (sublist_pair_append hnd).mpr hd

/-! ### The fixed point -/

theorem BlockStateLiveness.eq_of_sets {x y : BlockStateLiveness} (hin : x.inSet = y.inSet)
    (hout : x.outSet = y.outSet) (huse : x.useSet = y.useSet) (hdef : x.defSet = y.defSet) :
    x = y := by
  cases x
  cases y
  subst hin hout huse hdef
  rfl

/-- The states of the iteration: the sets computed beforehand stay, other blocks are not touched, and
every bit is accounted for by a walk. -/
structure PathInv (F : Function) (init st : LivenessResult) : Prop where
  use_eq : ∀ b, (st b).useSet = (init b).useSet
  def_eq : ∀ b, (st b).defSet = (init b).defSet
  elsewhere : ∀ b, b ∉ F.blocks → st b = init b
  grounded : F.cfg.Grounded (fun b idx => idx ∈ (init b).useSet) (fun b idx => idx ∈ (init b).defSet)
    fun b idx => idx ∈ (st b).inSet

variable {init st st' : LivenessResult}

theorem PathInv.visit (h : PathInv F init st) (hb : b ∈ F.blocks)
    (hst : updateBlock F b st = some st') : PathInv F init st' := by
  rw [updateBlock] at hst
  split at hst
  · obtain rfl := Option.some.inj hst
    refine ⟨?_, ?_, ?_, h.grounded.next ?_⟩
    · intro c
      by_cases hc : c = b
      · subst hc
        rw [Function.update_self]
        exact h.use_eq c
      · rw [Function.update_of_ne hc]
        exact h.use_eq c
    · intro c
      by_cases hc : c = b
      · subst hc
        rw [Function.update_self]
        exact h.def_eq c
      · rw [Function.update_of_ne hc]
        exact h.def_eq c
    · intro c hc
      have hcb : c ≠ b := by
        intro hcb
        exact hc (hcb ▸ hb)
      rw [Function.update_of_ne hcb]
      exact h.elsewhere c hc
    · intro c idx hidx
      by_cases hc : c = b
      · subst hc
        right
        rw [Function.update_self] at hidx
        cases Finset.mem_union.mp hidx with
        | inl huse => exact .inl (h.use_eq c ▸ huse)
        | inr hpass =>
          obtain ⟨hmeet, hdef⟩ := Finset.mem_sdiff.mp hpass
          exact .inr ⟨h.def_eq c ▸ hdef, mem_meetSuccessors.mp hmeet⟩
      · rw [Function.update_of_ne hc] at hidx
        exact .inl hidx
  · cases hst

theorem pathInv_init (hinit : ∀ b, (init b).inSet = ∅) : PathInv F init init := by
  refine ⟨fun _ => rfl, fun _ => rfl, fun _ _ => rfl, ?_⟩
  intro b idx hidx
  simp [hinit b] at hidx

/-- A block whose equations have nothing to change. -/
theorem updateBlock_eq_none : updateBlock F b st = none ↔
    (st b).inSet = (st b).useSet ∪ (meetSuccessors F st b \ (st b).defSet) ∧
      (st b).outSet = meetSuccessors F st b := by
  rw [updateBlock]
  split
  · rename_i hchange
    constructor
    · intro h
      cases h
    · intro h
      cases hchange with
      | inl hin => exact absurd h.1.symm hin
      | inr hout => exact absurd h.2.symm hout
  · rename_i hchange
    simp only [ne_eq, not_or, not_not] at hchange
    exact ⟨fun _ => ⟨hchange.1.symm, hchange.2.symm⟩, fun _ => rfl⟩

section

variable (hsuccs : ∀ b ∈ F.blocks, ∀ s ∈ F.successors b, s ∈ F.blocks)
  (hstable : ∀ b ∈ F.blocks, updateBlock F b st = none)

include hsuccs hstable

/-- **Where nothing changes any more, a bit is what walks lead to.** -/
theorem PathInv.mem_inSet (h : PathInv F init st) (hb : b ∈ F.blocks) : idx ∈ (st b).inSet ↔
    F.cfg.Wanted (fun b idx => idx ∈ (init b).useSet) (fun b idx => idx ∈ (init b).defSet) b idx := by
  have hsolves : F.cfg.Solves (fun b idx => idx ∈ (init b).useSet)
      (fun b idx => idx ∈ (init b).defSet) (fun b idx => idx ∈ (st b).inSet) (· ∈ F.blocks) := by
    constructor
    · intro c idx hc hidx
      show idx ∈ (st c).inSet
      rw [(updateBlock_eq_none.mp (hstable c hc)).1, h.use_eq]
      exact Finset.mem_union_left _ hidx
    · intro c s idx hc hdef hs hidx
      show idx ∈ (st c).inSet
      rw [(updateBlock_eq_none.mp (hstable c hc)).1, h.def_eq]
      exact Finset.mem_union_right _
        (Finset.mem_sdiff.mpr ⟨mem_meetSuccessors.mpr ⟨s, hs, hidx⟩, hdef⟩)
  exact hsolves.live_iff h.grounded (fun c s hc hs => hsuccs c hc s hs) hb

/-- Two stable states of iterations from one start are the same. -/
theorem PathInv.unique (h : PathInv F init st) (h' : PathInv F init st')
    (hstable' : ∀ b ∈ F.blocks, updateBlock F b st' = none) : st' = st := by
  have hin : ∀ b, (st' b).inSet = (st b).inSet := by
    intro b
    by_cases hb : b ∈ F.blocks
    · ext idx
      rw [h.mem_inSet hsuccs hstable hb, h'.mem_inSet hsuccs hstable' hb]
    · rw [h.elsewhere b hb, h'.elsewhere b hb]
  funext b
  by_cases hb : b ∈ F.blocks
  · have hout : (st' b).outSet = (st b).outSet := by
      rw [(updateBlock_eq_none.mp (hstable b hb)).2, (updateBlock_eq_none.mp (hstable' b hb)).2]
      ext idx
      simp only [mem_meetSuccessors, hin]
    have huse := (h'.use_eq b).trans (h.use_eq b).symm
    have hdef := (h'.def_eq b).trans (h.def_eq b).symm
    exact BlockStateLiveness.eq_of_sets (hin b) hout huse hdef
  · rw [h.elsewhere b hb, h'.elsewhere b hb]

end

/-- The iteration with the blocks visited in a given order. -/
def livenessInOrder (F : Function) (order : List BasicBlock) : Option LivenessResult :=
  untilStable (updateBlock F) order (2 * (valueUniverse F).length * F.blocks.length + 1)
    (initialLiveness F (buildValueIndex (valueUniverse F)))

/-- The code visits the blocks in reverse. -/
theorem livenessInOrder_reverse (F : Function) : livenessInOrder F F.blocks.reverse = computeLiveness F :=
  rfl

/-- The bit of `v` is set. -/
def HasBit (F : Function) (bits : Finset ℕ) (v : Value) : Prop :=
  ∃ idx, buildValueIndex (valueUniverse F) v = some idx ∧ idx ∈ bits

/-- Any order of visits ends, in a stable state of the invariant. -/
theorem livenessInOrder_spec (order : List BasicBlock) (horder : ∀ b, b ∈ order ↔ b ∈ F.blocks) :
    ∃ st, livenessInOrder F order = some st ∧
      PathInv F (initialLiveness F (buildValueIndex (valueUniverse F))) st ∧
      ∀ b ∈ F.blocks, updateBlock F b st = none := by
  have hends : (livenessInOrder F order).isSome :=
    untilStable_isSome (fun _ h => h.liveBits_le)
      (fun b hb _ _ h hst => h.updateBlock ((horder b).mp hb) hst) (livenessInv_init F) (by omega)
  obtain ⟨st, hst⟩ := Option.isSome_iff_exists.mp hends
  refine ⟨st, hst, ?_, ?_⟩
  · apply untilStable_invariant (fun b hb _ _ h hst => h.visit ((horder b).mp hb) hst) _ hst
    apply pathInv_init
    intro b
    rw [initialLiveness]
    split
    · exact (startsEmpty_useDef F _ b).inSet
    · rfl
  · intro b hb
    exact untilStable_stable hst b ((horder b).mpr hb)

/-- What the analysis returns: its own use and definition sets, and on entry whatever a walk leads
to from there. -/
structure IsLiveness (F : Function) (st : LivenessResult) : Prop where
  use_eq : ∀ b ∈ F.blocks,
    (st b).useSet = (useDef F (buildValueIndex (valueUniverse F)) b).useSet
  def_eq : ∀ b ∈ F.blocks,
    (st b).defSet = (useDef F (buildValueIndex (valueUniverse F)) b).defSet
  mem_in : ∀ b ∈ F.blocks, ∀ idx, idx ∈ (st b).inSet ↔
    F.cfg.Wanted (fun b idx => idx ∈ (st b).useSet) (fun b idx => idx ∈ (st b).defSet) b idx
  mem_out : ∀ b ∈ F.blocks, ∀ idx, idx ∈ (st b).outSet ↔
    ∃ s ∈ F.successors b, idx ∈ (st s).inSet
  elsewhere : ∀ b, b ∉ F.blocks → st b = ⟨∅, ∅, ∅, ∅⟩

theorem PathInv.isLiveness (hsuccs : ∀ b ∈ F.blocks, ∀ s ∈ F.successors b, s ∈ F.blocks)
    (h : PathInv F (initialLiveness F (buildValueIndex (valueUniverse F))) st)
    (hstable : ∀ b ∈ F.blocks, updateBlock F b st = none) : IsLiveness F st := by
  refine ⟨?_, ?_, ?_, ?_, ?_⟩
  · intro b hb
    rw [h.use_eq, initialLiveness, if_pos (by simpa using hb)]
  · intro b hb
    rw [h.def_eq, initialLiveness, if_pos (by simpa using hb)]
  · intro b hb idx
    rw [h.mem_inSet hsuccs hstable hb]
    simp only [h.use_eq, h.def_eq]
  · intro b hb idx
    rw [(updateBlock_eq_none.mp (hstable b hb)).2, mem_meetSuccessors]
  · intro b hb
    rw [h.elsewhere b hb, initialLiveness, if_neg (by simpa using hb)]

section

variable (h : IsLiveness F st) (hwf : F.WellFormed)

include h hwf

theorem IsLiveness.sets_eq (b : BasicBlock) :
    (st b).useSet = (useDef F (buildValueIndex (valueUniverse F)) b).useSet ∧
      (st b).defSet = (useDef F (buildValueIndex (valueUniverse F)) b).defSet := by
  by_cases hb : b ∈ F.blocks
  · exact ⟨h.use_eq b hb, h.def_eq b hb⟩
  · have hbody : F.body b = [] := List.eq_nil_iff_forall_not_mem.mpr fun i hi => hb (hwf.mem_blocks hi)
    rw [h.elsewhere b hb, useDef, hbody]
    exact ⟨rfl, rfl⟩

/-- **What is live on entry**, in terms of the instructions. -/
theorem IsLiveness.mem_in_iff (hv : buildValueIndex (valueUniverse F) v = some idx) :
    idx ∈ (st b).inSet ↔ F.LiveOnEntry v b := by
  have hwanted : F.LiveOnEntry v b ↔
      F.cfg.Wanted (fun b idx => idx ∈ (st b).useSet) (fun b idx => idx ∈ (st b).defSet) b idx := by
    simp only [FlowGraph.Wanted, (h.sets_eq hwf _).1, (h.sets_eq hwf _).2,
      mem_useSet_iff (hwf.body_nodup _) hv, mem_defSet_iff hv]
    constructor
    · intro hlive
      obtain ⟨c, u, hu, huse, hdef, hwalk⟩ := hlive
      exact ⟨c, ⟨u, hu, huse, hdef⟩, hwalk⟩
    · intro hlive
      obtain ⟨c, ⟨u, hu, huse, hdef⟩, hwalk⟩ := hlive
      exact ⟨c, u, hu, huse, hdef, hwalk⟩
  rw [hwanted]
  by_cases hb : b ∈ F.blocks
  · exact h.mem_in b hb idx
  · -- outside the function nothing is used, and no edge leads anywhere
    have hempty := h.elsewhere b hb
    have hbody : F.body b = [] := List.eq_nil_iff_forall_not_mem.mpr fun i hi => hb (hwf.mem_blocks hi)
    rw [hempty]
    constructor
    · intro hidx
      exact absurd hidx (Finset.notMem_empty idx)
    · intro hlive
      obtain ⟨c, huse, hwalk⟩ := hlive
      cases hwalk with
      | refl =>
        rw [hempty] at huse
        exact huse
      | step _ hs _ =>
        rw [Function.cfg_succs, Function.successors, Function.getTerminator, hbody] at hs
        cases hs

theorem IsLiveness.hasBit_iff :
    HasBit F (st b).inSet v ↔ v ∈ valueUniverse F ∧ F.LiveOnEntry v b := by
  constructor
  · intro hbit
    obtain ⟨idx, hidx, hin⟩ := hbit
    exact ⟨buildValueIndex_isSome.mp (Option.isSome_iff_exists.mpr ⟨idx, hidx⟩),
      (h.mem_in_iff hwf hidx).mp hin⟩
  · intro hlive
    obtain ⟨idx, hidx⟩ := Option.isSome_iff_exists.mp (buildValueIndex_isSome.mpr hlive.1)
    exact ⟨idx, hidx, (h.mem_in_iff hwf hidx).mpr hlive.2⟩

omit hwf in
theorem IsLiveness.hasBit_out (hb : b ∈ F.blocks) :
    HasBit F (st b).outSet v ↔ ∃ s ∈ F.successors b, HasBit F (st s).inSet v := by
  constructor
  · intro hbit
    obtain ⟨idx, hidx, hout⟩ := hbit
    obtain ⟨s, hs, hin⟩ := (h.mem_out b hb idx).mp hout
    exact ⟨s, hs, idx, hidx, hin⟩
  · intro hbit
    obtain ⟨s, hs, idx, hidx, hin⟩ := hbit
    exact ⟨idx, hidx, (h.mem_out b hb idx).mpr ⟨s, hs, hin⟩⟩

end

theorem computeLiveness_spec (hsuccs : ∀ b ∈ F.blocks, ∀ s ∈ F.successors b, s ∈ F.blocks) :
    ∃ st, computeLiveness F = some st ∧ IsLiveness F st := by
  obtain ⟨st, hst, hinv, hstable⟩ :=
    livenessInOrder_spec F.blocks.reverse fun _ => List.mem_reverse
  rw [livenessInOrder_reverse] at hst
  exact ⟨st, hst, hinv.isLiveness hsuccs hstable⟩

/-- **Liveness is path-based liveness**, in every graph and for every order of visits. -/
theorem computeLiveness_paths (F : Function)
    (hsuccs : ∀ b ∈ F.blocks, ∀ s ∈ F.successors b, s ∈ F.blocks) :
    ∃ st, computeLiveness F = some st ∧
      (∀ b ∈ F.blocks,
        (st b).useSet = (useDef F (buildValueIndex (valueUniverse F)) b).useSet ∧
        (st b).defSet = (useDef F (buildValueIndex (valueUniverse F)) b).defSet) ∧
      (∀ b ∈ F.blocks, ∀ v, HasBit F (st b).inSet v ↔
        ∃ path last, F.cfg.IsWalk (path ++ [last]) ∧ (path ++ [last]).head? = some b ∧
          HasBit F (st last).useSet v ∧ ∀ d ∈ path, ¬ HasBit F (st d).defSet v) ∧
      (∀ b ∈ F.blocks, ∀ v, HasBit F (st b).outSet v ↔
        ∃ s ∈ F.successors b, HasBit F (st s).inSet v) ∧
      ∀ order, (∀ b, b ∈ order ↔ b ∈ F.blocks) → livenessInOrder F order = some st := by
  obtain ⟨st, hst, hinv, hstable⟩ :=
    livenessInOrder_spec F.blocks.reverse fun _ => List.mem_reverse
  rw [livenessInOrder_reverse] at hst
  have hlive := hinv.isLiveness hsuccs hstable
  refine ⟨st, hst, fun b hb => ⟨hlive.use_eq b hb, hlive.def_eq b hb⟩, ?_, ?_, ?_⟩
  · intro b hb v
    constructor
    · intro h
      obtain ⟨idx, hidx, hin⟩ := h
      obtain ⟨c, huse, hwalk⟩ := (hlive.mem_in b hb idx).mp hin
      obtain ⟨path, hpath, hhead, hclear⟩ := FlowGraph.leadsTo_iff_walk.mp hwalk
      refine ⟨path, c, hpath, hhead, ⟨idx, hidx, huse⟩, ?_⟩
      intro d hd hdef
      obtain ⟨idx', hidx', hdef⟩ := hdef
      obtain rfl : idx = idx' := Option.some.inj (hidx.symm.trans hidx')
      exact hclear d hd hdef
    · intro h
      obtain ⟨path, c, hpath, hhead, huse, hclear⟩ := h
      obtain ⟨idx, hidx, huse⟩ := huse
      refine ⟨idx, hidx, (hlive.mem_in b hb idx).mpr ⟨c, huse, ?_⟩⟩
      apply FlowGraph.leadsTo_iff_walk.mpr
      exact ⟨path, hpath, hhead, fun d hd hdef => hclear d hd ⟨idx, hidx, hdef⟩⟩
  · exact fun b hb v => hlive.hasBit_out hb
  · intro order horder
    obtain ⟨st', hst', hinv', hstable'⟩ := livenessInOrder_spec order horder
    rw [hst', hinv.unique hsuccs hstable hinv' hstable']

theorem countingLoop_paths : ∃ st, computeLiveness countingLoop = some st ∧
    (∀ b ∈ countingLoop.blocks,
      (st b).useSet =
        (useDef countingLoop (buildValueIndex (valueUniverse countingLoop)) b).useSet ∧
      (st b).defSet =
        (useDef countingLoop (buildValueIndex (valueUniverse countingLoop)) b).defSet) ∧
    (∀ b ∈ countingLoop.blocks, ∀ v, HasBit countingLoop (st b).inSet v ↔
      ∃ path last, countingLoop.cfg.IsWalk (path ++ [last]) ∧ (path ++ [last]).head? = some b ∧
        HasBit countingLoop (st last).useSet v ∧
          ∀ d ∈ path, ¬ HasBit countingLoop (st d).defSet v) ∧
    (∀ b ∈ countingLoop.blocks, ∀ v, HasBit countingLoop (st b).outSet v ↔
      ∃ s ∈ countingLoop.successors b, HasBit countingLoop (st s).inSet v) ∧
    ∀ order, (∀ b, b ∈ order ↔ b ∈ countingLoop.blocks) →
      livenessInOrder countingLoop order = some st :=
  computeLiveness_paths countingLoop fun b _ => countingLoop_verified.1.succs_mem b

end TraceScheduler
