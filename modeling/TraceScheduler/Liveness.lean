import TraceScheduler.Function
import TraceScheduler.Library.RoundRobin
import Mathlib.Data.Finset.Card
import Mathlib.Algebra.Order.BigOperators.Group.List
import Mathlib.Algebra.Order.Group.Nat
import Mathlib.Algebra.Ring.Nat

/-!
# Liveness

The universe numbers the arguments and then, in program order, the instructions that produce a value;
a bit vector over it is a finite set of numbers.  `useDef` collects a block's upward-exposed uses and
its definitions, and `computeLiveness` iterates the backward equations round-robin, last block first,
until a whole round changes nothing.

Nothing the schedulers guarantee depends on what the sets contain, so later modules take the result
as it comes.  What matters here is that there is one: `computeLiveness_isSome`.
-/

namespace TraceScheduler

/-- The four bit vectors of a block. -/
structure BlockStateLiveness where
  inSet : Finset ℕ
  outSet : Finset ℕ
  useSet : Finset ℕ
  defSet : Finset ℕ
  deriving DecidableEq

abbrev LivenessResult := BasicBlock → BlockStateLiveness

/-- Arguments, then the instructions that are not void, in program order. -/
def valueUniverse (F : Function) : List Value :=
  (List.range F.numArgs).map .argument ++
    F.blocks.flatMap fun b =>
      ((F.body b).filter fun i => !(F.instr i).isVoidTy).map .instruction

/-- The number of each value of the universe. -/
def buildValueIndex (values : List Value) : Value → Option ℕ :=
  values.zipIdx.foldl (fun (index : Value → Option ℕ) e => Function.update index e.1 (some e.2))
    fun _ => none

section

variable (F : Function) (universeIndex : Value → Option ℕ)

/-- An operand is an upward-exposed use unless the block has defined it before. -/
def recordUse (bs : BlockStateLiveness) (v : Value) : BlockStateLiveness :=
  match universeIndex v with
  | some idx => if idx ∈ bs.defSet then bs else { bs with useSet := insert idx bs.useSet }
  | none => bs

def recordInstruction (bs : BlockStateLiveness) (i : InstrId) : BlockStateLiveness :=
  let bs := (F.instr i).operands.foldl (recordUse universeIndex) bs
  match universeIndex (.instruction i) with
  | some idx => { bs with defSet := insert idx bs.defSet }
  | none => bs

def useDef (b : BasicBlock) : BlockStateLiveness :=
  (F.body b).foldl (recordInstruction F universeIndex) ⟨∅, ∅, ∅, ∅⟩

/-- The union of the `in` sets of the successors. -/
def meetSuccessors (st : LivenessResult) (b : BasicBlock) : Finset ℕ :=
  (F.successors b).foldl (fun out succ => out ∪ (st succ).inSet) ∅

/-- The equations of one block: its new state, if it differs from the old one. -/
def updateBlock (b : BasicBlock) (st : LivenessResult) : Option LivenessResult :=
  let newOut := meetSuccessors F st b
  let newIn := (st b).useSet ∪ (newOut \ (st b).defSet)
  if newIn ≠ (st b).inSet ∨ newOut ≠ (st b).outSet then
    some (Function.update st b { st b with inSet := newIn, outSet := newOut })
  else none

/-- The state before the iteration: use and definition sets, nothing live. -/
def initialLiveness : LivenessResult := fun b =>
  if F.blocks.contains b then useDef F universeIndex b else ⟨∅, ∅, ∅, ∅⟩

end

/-- Backward liveness; `none` would mean that the iteration does not end. -/
def computeLiveness (F : Function) : Option LivenessResult :=
  let values := valueUniverse F
  untilStable (updateBlock F) F.blocks.reverse (2 * values.length * F.blocks.length + 1)
    (initialLiveness F (buildValueIndex values))

/-! ### Bits are numbers of universe values -/

/-- A number comes from the list or was there before. -/
theorem mem_of_foldl_index {l : List (Value × ℕ)} {index : Value → Option ℕ} {v : Value} {idx : ℕ}
    (h : l.foldl (fun (index : Value → Option ℕ) e => Function.update index e.1 (some e.2)) index v =
      some idx) : (v, idx) ∈ l ∨ index v = some idx := by
  induction l generalizing index with
  | nil => exact .inr h
  | cons e l ih =>
    cases ih h with
    | inl hmem => exact .inl (List.mem_cons_of_mem e hmem)
    | inr hindex =>
      change Function.update index e.1 (some e.2) v = some idx at hindex
      by_cases hve : v = e.1
      · rw [hve, Function.update_self] at hindex
        obtain rfl := Option.some.inj hindex
        rw [hve]
        exact .inl List.mem_cons_self
      · rw [Function.update_of_ne hve] at hindex
        exact .inr hindex

/-- The number a value gets is a position of it. -/
theorem getElem_of_buildValueIndex {values : List Value} {v : Value} {idx : ℕ}
    (h : buildValueIndex values v = some idx) : values[idx]? = some v := by
  cases mem_of_foldl_index h with
  | inl hmem => exact List.mem_zipIdx_iff_getElem?.mp hmem
  | inr hnone => cases hnone

theorem buildValueIndex_lt {values : List Value} {v : Value} {idx : ℕ}
    (h : buildValueIndex values v = some idx) : idx < values.length :=
  (List.getElem?_eq_some_iff.mp (getElem_of_buildValueIndex h)).1

/-- A block state before the iteration: nothing is live, and uses are numbers below `N`. -/
structure StartsEmpty (N : ℕ) (bs : BlockStateLiveness) : Prop where
  inSet : bs.inSet = ∅
  outSet : bs.outSet = ∅
  use_bounded : bs.useSet ⊆ Finset.range N

theorem StartsEmpty.recordUse {values : List Value} {bs : BlockStateLiveness}
    (h : StartsEmpty values.length bs) (v : Value) :
    StartsEmpty values.length (recordUse (buildValueIndex values) bs v) := by
  rw [TraceScheduler.recordUse]
  split
  · rename_i idx hidx
    split
    · exact h
    · exact ⟨h.inSet, h.outSet,
        Finset.insert_subset (Finset.mem_range.mpr (buildValueIndex_lt hidx)) h.use_bounded⟩
  · exact h

theorem StartsEmpty.recordInstruction {F : Function} {values : List Value}
    {bs : BlockStateLiveness} (h : StartsEmpty values.length bs) (i : InstrId) :
    StartsEmpty values.length (recordInstruction F (buildValueIndex values) bs i) := by
  have hops : StartsEmpty values.length
      ((F.instr i).operands.foldl (TraceScheduler.recordUse (buildValueIndex values)) bs) := by
    induction (F.instr i).operands generalizing bs with
    | nil => exact h
    | cons v ops ih => exact ih (h.recordUse v)
  rw [TraceScheduler.recordInstruction]
  split
  · exact ⟨hops.inSet, hops.outSet, hops.use_bounded⟩
  · exact hops

theorem startsEmpty_useDef (F : Function) (values : List Value) (b : BasicBlock) :
    StartsEmpty values.length (useDef F (buildValueIndex values) b) := by
  have hgen : ∀ (l : List InstrId) (bs : BlockStateLiveness), StartsEmpty values.length bs →
      StartsEmpty values.length (l.foldl (recordInstruction F (buildValueIndex values)) bs) := by
    intro l
    induction l with
    | nil => exact fun _ h => h
    | cons i l ih => exact fun bs h => ih _ (h.recordInstruction i)
  exact hgen _ _ ⟨rfl, rfl, Finset.empty_subset _⟩

/-! ### The iteration ends -/

/-- The states the iteration goes through: bounded, and never above what the equations ask for. -/
structure LivenessInv (F : Function) (N : ℕ) (st : LivenessResult) : Prop where
  use_bounded : ∀ b, (st b).useSet ⊆ Finset.range N
  in_bounded : ∀ b, (st b).inSet ⊆ Finset.range N
  out_bounded : ∀ b, (st b).outSet ⊆ Finset.range N
  out_le : ∀ b, (st b).outSet ⊆ meetSuccessors F st b
  in_le : ∀ b, (st b).inSet ⊆ (st b).useSet ∪ (meetSuccessors F st b \ (st b).defSet)

theorem mem_meetSuccessors {F : Function} {st : LivenessResult} {b : BasicBlock} {x : ℕ} :
    x ∈ meetSuccessors F st b ↔ ∃ s ∈ F.successors b, x ∈ (st s).inSet := by
  have hgen : ∀ (l : List BasicBlock) (out : Finset ℕ),
      x ∈ l.foldl (fun out succ => out ∪ (st succ).inSet) out ↔
        x ∈ out ∨ ∃ s ∈ l, x ∈ (st s).inSet := by
    intro l
    induction l with
    | nil => simp
    | cons s l ih =>
      intro out
      rw [List.foldl_cons, ih]
      simp [or_assoc]
  rw [meetSuccessors, hgen]
  simp

theorem meetSuccessors_mono {F : Function} {st st' : LivenessResult}
    (h : ∀ b, (st b).inSet ⊆ (st' b).inSet) (b : BasicBlock) :
    meetSuccessors F st b ⊆ meetSuccessors F st' b := by
  intro x hx
  obtain ⟨s, hs, hx⟩ := mem_meetSuccessors.mp hx
  exact mem_meetSuccessors.mpr ⟨s, hs, h s hx⟩

/-- The number of live bits over all blocks. -/
def liveBits (F : Function) (st : LivenessResult) : ℕ :=
  (F.blocks.map fun b => (st b).inSet.card + (st b).outSet.card).sum

theorem LivenessInv.liveBits_le {F : Function} {N : ℕ} {st : LivenessResult}
    (h : LivenessInv F N st) : liveBits F st ≤ 2 * N * F.blocks.length := by
  have hone : ∀ b, (st b).inSet.card + (st b).outSet.card ≤ 2 * N := by
    intro b
    have h1 := Finset.card_le_card (h.in_bounded b)
    have h2 := Finset.card_le_card (h.out_bounded b)
    rw [Finset.card_range] at h1 h2
    omega
  rw [liveBits]
  induction F.blocks with
  | nil => simp
  | cons b l ih =>
    have := hone b
    rw [List.map_cons, List.sum_cons, List.length_cons, Nat.mul_succ]
    omega

/-- One block's equations keep the invariant and add at least one bit when they change anything. -/
theorem LivenessInv.updateBlock {F : Function} {N : ℕ} {st st' : LivenessResult}
    (h : LivenessInv F N st) {b : BasicBlock} (hb : b ∈ F.blocks)
    (hst : updateBlock F b st = some st') : LivenessInv F N st' ∧ liveBits F st < liveBits F st' := by
  rw [TraceScheduler.updateBlock] at hst
  split at hst
  · rename_i hchange
    obtain rfl := Option.some.inj hst
    generalize hnext : ({ st b with
      inSet := (st b).useSet ∪ (meetSuccessors F st b \ (st b).defSet)
      outSet := meetSuccessors F st b } : BlockStateLiveness) = bs
    have huse : bs.useSet = (st b).useSet := by rw [← hnext]
    have hdef : bs.defSet = (st b).defSet := by rw [← hnext]
    have hout : bs.outSet = meetSuccessors F st b := by rw [← hnext]
    have hin : bs.inSet = (st b).useSet ∪ (meetSuccessors F st b \ (st b).defSet) := by rw [← hnext]
    have hgrow : ∀ c, (st c).inSet ⊆ (Function.update st b bs c).inSet := by
      intro c
      by_cases hc : c = b
      · subst hc
        rw [Function.update_self, hin]
        exact h.in_le c
      · rw [Function.update_of_ne hc]
    have hmeet := meetSuccessors_mono (F := F) hgrow
    have houtN : meetSuccessors F st b ⊆ Finset.range N := by
      intro x hx
      obtain ⟨s, _, hx⟩ := mem_meetSuccessors.mp hx
      exact h.in_bounded s hx
    have hinv : LivenessInv F N (Function.update st b bs) := by
      refine ⟨fun c => ?_, fun c => ?_, fun c => ?_, fun c => ?_, fun c => ?_⟩
      all_goals
        by_cases hc : c = b
        · subst hc
          rw [Function.update_self]
          first
            | rw [huse]; exact h.use_bounded c
            | rw [hin]
              exact Finset.union_subset (h.use_bounded c) (Finset.sdiff_subset.trans houtN)
            | rw [hout]; exact houtN
            | rw [hout]; exact hmeet c
            | rw [hin, huse, hdef]
              exact Finset.union_subset_union_right (Finset.sdiff_subset_sdiff (hmeet c) subset_rfl)
        · rw [Function.update_of_ne hc]
          first
            | exact h.use_bounded c
            | exact h.in_bounded c
            | exact h.out_bounded c
            | exact (h.out_le c).trans (hmeet c)
            | exact (h.in_le c).trans
                (Finset.union_subset_union_right (Finset.sdiff_subset_sdiff (hmeet c) subset_rfl))
    refine ⟨hinv, ?_⟩
    -- both sets of `b` only grow, and one of them does
    refine List.sum_lt_sum _ _ (fun c _ => ?_) ⟨b, hb, ?_⟩
    · by_cases hc : c = b
      · subst hc
        rw [Function.update_self, hin, hout]
        exact Nat.add_le_add (Finset.card_le_card (h.in_le c)) (Finset.card_le_card (h.out_le c))
      · rw [Function.update_of_ne hc]
    · rw [Function.update_self, hin, hout]
      rcases hchange with hchange | hchange
      · exact Nat.add_lt_add_of_lt_of_le
          (Finset.card_lt_card (Finset.ssubset_iff_subset_ne.mpr ⟨h.in_le b, Ne.symm hchange⟩))
          (Finset.card_le_card (h.out_le b))
      · exact Nat.add_lt_add_of_le_of_lt (Finset.card_le_card (h.in_le b))
          (Finset.card_lt_card (Finset.ssubset_iff_subset_ne.mpr ⟨h.out_le b, Ne.symm hchange⟩))
  · cases hst

theorem livenessInv_init (F : Function) :
    LivenessInv F (valueUniverse F).length
      (initialLiveness F (buildValueIndex (valueUniverse F))) := by
  have hempty : ∀ b, StartsEmpty (valueUniverse F).length
      (initialLiveness F (buildValueIndex (valueUniverse F)) b) := by
    intro b
    rw [initialLiveness]
    split
    · exact startsEmpty_useDef F _ b
    · exact ⟨rfl, rfl, Finset.empty_subset _⟩
  refine ⟨fun b => (hempty b).use_bounded, fun b => ?_, fun b => ?_, fun b => ?_, fun b => ?_⟩
  · rw [(hempty b).inSet]
    exact Finset.empty_subset _
  · rw [(hempty b).outSet]
    exact Finset.empty_subset _
  · rw [(hempty b).outSet]
    exact Finset.empty_subset _
  · rw [(hempty b).inSet]
    exact Finset.empty_subset _

/-- **Liveness analysis ends.** -/
theorem computeLiveness_isSome (F : Function) : (computeLiveness F).isSome :=
  untilStable_isSome (fun _ h => h.liveBits_le)
    (fun _ hb _ _ h hst => h.updateBlock (List.mem_reverse.mp hb) hst) (livenessInv_init F) (by omega)

end TraceScheduler
