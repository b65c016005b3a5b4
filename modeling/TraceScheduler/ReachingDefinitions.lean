import TraceScheduler.Library.BreadthFirst
import TraceScheduler.Library.ForwardFlow
import TraceScheduler.Library.QuietRounds
import TraceScheduler.SsaOrder
import TraceScheduler.Verifier
import Mathlib.Algebra.Order.BigOperators.Group.List
import Mathlib.Algebra.Order.Group.Nat
import Mathlib.Algebra.Ring.Nat
import Mathlib.Data.Finset.Card

/-!
# Reaching definitions

The global pass computes them and reads them nowhere.  The analysis is the textbook one, for values
with names: a block generates its own definitions and kills the other definitions of the same name.
Blocks are visited in breadth-first order, so a predecessor may be a block that is never visited; the
map then answers with an empty state.

The sets are what forward walks say (`computeReaching_paths`).  In SSA form names are different, nothing
is killed, and every use is reached by its definition (`computeReaching_uses`).
-/

namespace TraceScheduler

open scoped List

/-- The four bit vectors of a block. -/
structure BlockStateReaching where
  inSet : Finset ℕ
  outSet : Finset ℕ
  genSet : Finset ℕ
  killSet : Finset ℕ
  deriving DecidableEq

abbrev ReachingResult := BasicBlock → BlockStateReaching

/-- The state of a block that the map does not hold. -/
def BlockStateReaching.absent : BlockStateReaching := ⟨∅, ∅, ∅, ∅⟩

/-- The definitions, in program order. -/
def definitionUniverse (F : Function) : List InstrId :=
  F.blocks.flatMap fun b => (F.body b).filter fun i => !(F.instr i).isVoidTy

def meetUnion : List (Finset ℕ) → Finset ℕ
  | [] => ∅
  | first :: ins => ins.foldl (fun out s => out ∪ s) first

section

variable (F : Function) (getName : InstrId → String) (definitions : List InstrId)

/-- Every other definition with the name of `i`, if it has one. -/
def killDefinition (i : InstrId) (defIdx : ℕ) (kill : Finset ℕ) (e : InstrId × ℕ) : Finset ℕ :=
  if e.2 = defIdx then kill
  else if getName i ≠ "" ∧ getName e.1 = getName i then insert e.2 kill
  else kill

def recordDefinition (bs : BlockStateReaching) (i : InstrId) : BlockStateReaching :=
  if (F.instr i).isVoidTy then bs
  else
    match definitions.idxOf? i with
    | none => bs
    | some defIdx =>
        { bs with
          genSet := insert defIdx bs.genSet
          killSet := definitions.zipIdx.foldl (killDefinition getName i defIdx) bs.killSet }

def genKill (b : BasicBlock) : BlockStateReaching :=
  (F.body b).foldl (recordDefinition F getName definitions) .absent

/-- The states before the iteration, for the blocks of the order. -/
def initialReaching (order : List BasicBlock) : ReachingResult := fun b =>
  if order.contains b then genKill F getName definitions b else .absent

/-- `IN`, from the predecessors, a block without any excepted. -/
def meetPredecessors (st : ReachingResult) (b : BasicBlock) : Finset ℕ :=
  let predOuts := (F.preds b).map fun pred => (st pred).outSet
  meetUnion (if predOuts.isEmpty then [∅] else predOuts)

/-- The equations of one block, and whether `OUT` has changed. -/
def visitReaching (b : BasicBlock) (st : ReachingResult) : ReachingResult × Bool :=
  let newIn := meetPredecessors F st b
  let newOut := (st b).genSet ∪ (newIn \ (st b).killSet)
  if newOut ≠ (st b).outSet then
    (Function.update st b { st b with inSet := newIn, outSet := newOut }, true)
  else (Function.update st b { st b with inSet := newIn }, false)

end

/-- Forward reaching definitions; `none` would mean that one of the loops does not end. -/
def computeReaching (F : Function) (getName : InstrId → String) : Option ReachingResult := do
  let definitions := definitionUniverse F
  let order ← F.cfg.breadthFirst (F.blocks.length + 1)
  untilQuiet (visitReaching F) order (definitions.length * order.length + 1)
    (initialReaching F getName definitions order)

variable {F : Function} {getName : InstrId → String} {definitions : List InstrId}
  {order : List BasicBlock} {st : ReachingResult} {b : BasicBlock} {i d : InstrId} {idx : ℕ}

/-! ### Generated and killed -/

/-- What a fold collects, one element at a time. -/
theorem foldl_collects {σ ε : Type*} {step : σ → ε → σ} {S : σ → Prop} {P : ε → Prop}
    (h : ∀ s e, S (step s e) ↔ S s ∨ P e) (l : List ε) (s : σ) :
    S (l.foldl step s) ↔ S s ∨ ∃ e ∈ l, P e := by
  induction l generalizing s with
  | nil => simp
  | cons e l ih =>
    rw [List.foldl_cons, ih, h]
    simp [or_assoc]

theorem mem_meetUnion {l : List (Finset ℕ)} : idx ∈ meetUnion l ↔ ∃ s ∈ l, idx ∈ s := by
  cases l with
  | nil => simp [meetUnion]
  | cons first l =>
    have hstep : ∀ out s : Finset ℕ, idx ∈ out ∪ s ↔ idx ∈ out ∨ idx ∈ s :=
      fun _ _ => Finset.mem_union
    rw [meetUnion, foldl_collects (S := fun out => idx ∈ out) hstep]
    simp

theorem mem_meetPredecessors : idx ∈ meetPredecessors F st b ↔
    ∃ p ∈ F.preds b, idx ∈ (st p).outSet := by
  rw [meetPredecessors, mem_meetUnion]
  cases hpreds : F.preds b with
  | nil => simp
  | cons p ps => simp

/-- Another definition of the same name. -/
def Redefines (getName : InstrId → String) (i d : InstrId) : Prop :=
  i ≠ d ∧ getName i ≠ "" ∧ getName d = getName i

/-- A block in which another definition of the same name stands. -/
def KilledIn (F : Function) (getName : InstrId → String) (d : InstrId) (b : BasicBlock) : Prop :=
  ∃ i ∈ F.body b, (F.instr i).isVoidTy = false ∧ Redefines getName i d

theorem mem_definitionUniverse (hwf : F.WellFormed) : d ∈ definitionUniverse F ↔
    (∃ b, d ∈ F.body b) ∧ (F.instr d).isVoidTy = false := by
  rw [definitionUniverse, List.mem_flatMap]
  constructor
  · rintro ⟨b, _, hd⟩
    obtain ⟨hmem, hvoid⟩ := List.mem_filter.mp hd
    exact ⟨⟨b, hmem⟩, by simpa using hvoid⟩
  · rintro ⟨⟨b, hmem⟩, hvoid⟩
    exact ⟨b, hwf.mem_blocks hmem, List.mem_filter.mpr ⟨hmem, by simpa using hvoid⟩⟩

theorem definitionUniverse_nodup (hwf : F.WellFormed) : (definitionUniverse F).Nodup := by
  rw [definitionUniverse, ← List.filter_flatMap]
  exact hwf.flatMap_nodup.filter _

/-- In a list without repetition a number is a position. -/
theorem idxOf?_eq_some_iff_getElem (hnd : definitions.Nodup) :
    definitions.idxOf? d = some idx ↔ definitions[idx]? = some d := by
  rw [List.idxOf?_eq_some_iff, List.getElem?_eq_some_iff]
  constructor
  · rintro ⟨hlt, heq, _⟩
    exact ⟨hlt, by simpa using heq⟩
  · rintro ⟨hlt, heq⟩
    refine ⟨hlt, by simpa using heq, fun j hj hbefore => ?_⟩
    have hj' : definitions[j] = d := by simpa using hbefore
    have := (List.Nodup.getElem_inj_iff hnd).mp (hj'.trans heq.symm)
    omega

theorem mem_killDefinition {defIdx : ℕ} (kill : Finset ℕ) (e : InstrId × ℕ) :
    idx ∈ killDefinition getName i defIdx kill e ↔ idx ∈ kill ∨
      (e.2 = idx ∧ idx ≠ defIdx ∧ getName i ≠ "" ∧ getName e.1 = getName i) := by
  rw [killDefinition]
  split
  · rename_i hself
    constructor
    · exact .inl
    · rintro (h | ⟨rfl, hne, _⟩)
      · exact h
      · exact absurd hself hne
  · rename_i hother
    split
    · rename_i hname
      rw [Finset.mem_insert]
      constructor
      · rintro (rfl | h)
        · exact .inr ⟨rfl, hother, hname⟩
        · exact .inl h
      · rintro (h | ⟨rfl, _⟩)
        · exact .inr h
        · exact .inl rfl
    · rename_i hname
      constructor
      · exact .inl
      · rintro (h | ⟨_, _, h⟩)
        · exact h
        · exact absurd h hname

/-- One instruction, when the definitions are numbered without repetition. -/
theorem recordDefinition_spec (hnd : definitions.Nodup) (hd : definitions.idxOf? d = some idx)
    (bs : BlockStateReaching) (i : InstrId) :
    (idx ∈ (recordDefinition F getName definitions bs i).genSet ↔
      idx ∈ bs.genSet ∨ ((F.instr i).isVoidTy = false ∧ i = d)) ∧
    (idx ∈ (recordDefinition F getName definitions bs i).killSet ↔ idx ∈ bs.killSet ∨
      (i ∈ definitions ∧ (F.instr i).isVoidTy = false ∧ Redefines getName i d)) := by
  have hget := (idxOf?_eq_some_iff_getElem hnd).mp hd
  rw [recordDefinition]
  cases hvoid : (F.instr i).isVoidTy with
  | true => simp
  | false =>
    rw [if_neg (by simp)]
    cases hi : definitions.idxOf? i with
    | none =>
      have hmem : i ∉ definitions := List.idxOf?_eq_none_iff.mp hi
      have hid : i ≠ d := fun heq => hmem (heq ▸ List.mem_of_getElem? hget)
      simp [hmem, hid]
    | some defIdx =>
      have hgeti := (idxOf?_eq_some_iff_getElem hnd).mp hi
      have hsame : idx = defIdx ↔ i = d := by
        constructor
        · rintro rfl
          exact Option.some.inj (hgeti.symm.trans hget)
        · rintro rfl
          exact Option.some.inj (hd.symm.trans hi)
      constructor
      · show idx ∈ insert defIdx bs.genSet ↔ _
        rw [Finset.mem_insert, hsame, or_comm]
        simp
      · show idx ∈ definitions.zipIdx.foldl (killDefinition getName i defIdx) bs.killSet ↔ _
        rw [foldl_collects (S := fun kill => idx ∈ kill) mem_killDefinition]
        apply or_congr_right
        constructor
        · rintro ⟨⟨x, k⟩, hmem, rfl, hne, hname⟩
          obtain rfl := Option.some.inj ((List.mem_zipIdx_iff_getElem?.mp hmem).symm.trans hget)
          exact ⟨List.mem_of_getElem? hgeti, rfl, fun heq => hne (hsame.mpr heq), hname⟩
        · rintro ⟨_, _, hne, hname⟩
          exact ⟨(d, idx), List.mem_zipIdx_iff_getElem?.mpr hget, rfl, fun heq => hne (hsame.mp heq),
            hname⟩

/-- What a block generates and kills, in terms of instructions. -/
theorem genKill_spec (hwf : F.WellFormed) (hd : (definitionUniverse F).idxOf? d = some idx)
    (b : BasicBlock) :
    (idx ∈ (genKill F getName (definitionUniverse F) b).genSet ↔ d ∈ F.body b) ∧
    (idx ∈ (genKill F getName (definitionUniverse F) b).killSet ↔ KilledIn F getName d b) := by
  have hnd := definitionUniverse_nodup hwf
  have hdmem := (mem_definitionUniverse hwf).mp
    (List.mem_of_getElem? ((idxOf?_eq_some_iff_getElem hnd).mp hd))
  rw [genKill]
  constructor
  · rw [foldl_collects (S := fun bs : BlockStateReaching => idx ∈ bs.genSet)
      fun bs i => (recordDefinition_spec hnd hd bs i).1]
    constructor
    · rintro (h | ⟨i, hi, _, rfl⟩)
      · cases h
      · exact hi
    · intro hi
      exact .inr ⟨d, hi, hdmem.2, rfl⟩
  · rw [foldl_collects (S := fun bs : BlockStateReaching => idx ∈ bs.killSet)
      fun bs i => (recordDefinition_spec hnd hd bs i).2]
    constructor
    · rintro (h | ⟨i, hi, _, hvoid, hname⟩)
      · cases h
      · exact ⟨i, hi, hvoid, hname⟩
    · rintro ⟨i, hi, hvoid, hname⟩
      exact .inr ⟨i, hi, (mem_definitionUniverse hwf).mpr ⟨⟨b, hi⟩, hvoid⟩, hvoid, hname⟩

/-! ### The iteration -/

/-- The predecessors a visit can learn something from. -/
def reachedPreds (F : Function) (order : List BasicBlock) (b : BasicBlock) : List BasicBlock :=
  (F.preds b).filter fun p => order.contains p

theorem mem_reachedPreds {p : BasicBlock} : p ∈ reachedPreds F order b ↔ p ∈ F.preds b ∧ p ∈ order := by
  rw [reachedPreds, List.mem_filter, List.contains_iff_mem]

theorem arePredecessors_reachedPreds (hwf : F.WellFormed) (hbfs : F.cfg.IsBreadthFirst order) :
    F.cfg.ArePredecessors (reachedPreds F order) := by
  intro b p
  rw [mem_reachedPreds, hwf.mem_preds, hbfs.mem_iff]
  exact and_comm

/-- The states of the iteration; `N` is the number of definitions and `init` what the blocks generate
and kill. -/
structure ReachingInv (F : Function) (order : List BasicBlock) (N : ℕ) (init st : ReachingResult) :
    Prop where
  gen_eq : ∀ b ∈ order, (st b).genSet = (init b).genSet
  kill_eq : ∀ b ∈ order, (st b).killSet = (init b).killSet
  unreached : ∀ b, b ∉ order → (st b).outSet = ∅
  bounded : ∀ b, (st b).outSet ⊆ Finset.range N
  out_le : ∀ b, (st b).outSet ⊆ (st b).genSet ∪ (meetPredecessors F st b \ (st b).killSet)
  grounded : (F.cfg.reversed (reachedPreds F order)).Grounded (fun b x => x ∈ (init b).genSet)
    (fun b x => x ∈ (init b).killSet) fun b x => x ∈ (st b).outSet

theorem meetPredecessors_mono {st' : ReachingResult} (h : ∀ b, (st b).outSet ⊆ (st' b).outSet)
    (b : BasicBlock) : meetPredecessors F st b ⊆ meetPredecessors F st' b := by
  intro x hx
  obtain ⟨p, hp, hx⟩ := mem_meetPredecessors.mp hx
  exact mem_meetPredecessors.mpr ⟨p, hp, h p hx⟩

theorem meetPredecessors_congr {st' : ReachingResult} (h : ∀ b, (st b).outSet = (st' b).outSet)
    (b : BasicBlock) : meetPredecessors F st b = meetPredecessors F st' b :=
  (meetPredecessors_mono (fun c => (h c).subset) b).antisymm
    (meetPredecessors_mono (fun c => (h c).superset) b)

/-- What a visit stores. -/
theorem visitReaching_fst (b : BasicBlock) (st : ReachingResult) :
    (visitReaching F b st).1 = Function.update st b { st b with
      inSet := meetPredecessors F st b
      outSet := (st b).genSet ∪ (meetPredecessors F st b \ (st b).killSet) } := by
  rw [visitReaching]
  dsimp only
  split
  · rfl
  · rename_i hsame
    rw [not_not] at hsame
    rw [hsame]

theorem visitReaching_snd (b : BasicBlock) (st : ReachingResult) :
    (visitReaching F b st).2 = true ↔
      (st b).genSet ∪ (meetPredecessors F st b \ (st b).killSet) ≠ (st b).outSet := by
  rw [visitReaching]
  dsimp only
  split
  · rename_i hne
    exact iff_of_true rfl hne
  · rename_i hsame
    exact iff_of_false (by simp) hsame

/-- A visited block, field by field. -/
theorem visitReaching_other {c : BasicBlock} (hc : c ≠ b) : (visitReaching F b st).1 c = st c := by
  rw [visitReaching_fst, Function.update_of_ne hc]

theorem visitReaching_self : (visitReaching F b st).1 b = { st b with
    inSet := meetPredecessors F st b
    outSet := (st b).genSet ∪ (meetPredecessors F st b \ (st b).killSet) } := by
  rw [visitReaching_fst, Function.update_self]

variable {N : ℕ} {init : ReachingResult}

theorem ReachingInv.grows (h : ReachingInv F order N init st) (b c : BasicBlock) :
    (st c).outSet ⊆ ((visitReaching F b st).1 c).outSet := by
  by_cases hc : c = b
  · subst hc
    rw [visitReaching_self]
    exact h.out_le c
  · rw [visitReaching_other hc]

theorem ReachingInv.visit (h : ReachingInv F order N init st)
    (hgen : ∀ b, (init b).genSet ⊆ Finset.range N) (hb : b ∈ order) :
    ReachingInv F order N init (visitReaching F b st).1 := by
  have hgrow := h.grows b
  refine ⟨fun c hcord => ?_, fun c hcord => ?_, fun c hc => ?_, fun c => ?_, fun c => ?_,
    h.grounded.next ?_⟩
  · by_cases hc : c = b
    · subst hc
      rw [visitReaching_self]
      exact h.gen_eq c hcord
    · rw [visitReaching_other hc]
      exact h.gen_eq c hcord
  · by_cases hc : c = b
    · subst hc
      rw [visitReaching_self]
      exact h.kill_eq c hcord
    · rw [visitReaching_other hc]
      exact h.kill_eq c hcord
  · have hne : c ≠ b := fun heq => hc (heq ▸ hb)
    rw [visitReaching_other hne]
    exact h.unreached c hc
  · by_cases hc : c = b
    · subst hc
      rw [visitReaching_self]
      apply Finset.union_subset
      · rw [h.gen_eq c hb]
        exact hgen c
      · intro x hx
        obtain ⟨p, _, hp⟩ := mem_meetPredecessors.mp (Finset.mem_sdiff.mp hx).1
        exact h.bounded p hp
    · rw [visitReaching_other hc]
      exact h.bounded c
  · -- `IN` can only have grown since the block was visited
    have hmeet := meetPredecessors_mono (F := F) hgrow c
    by_cases hc : c = b
    · subst hc
      rw [visitReaching_self]
      exact Finset.union_subset_union_right (Finset.sdiff_subset_sdiff hmeet subset_rfl)
    · rw [visitReaching_other hc]
      exact (h.out_le c).trans
        (Finset.union_subset_union_right (Finset.sdiff_subset_sdiff hmeet subset_rfl))
  · intro c x hx
    by_cases hc : c = b
    · subst hc
      rw [visitReaching_self] at hx
      rcases Finset.mem_union.mp hx with hx | hx
      · exact .inr (.inl (h.gen_eq c hb ▸ hx))
      · obtain ⟨hmeet, hkill⟩ := Finset.mem_sdiff.mp hx
        obtain ⟨p, hp, hout⟩ := mem_meetPredecessors.mp hmeet
        have hporder : p ∈ order := by
          by_contra hnot
          rw [h.unreached p hnot] at hout
          exact absurd hout (Finset.notMem_empty x)
        exact .inr (.inr ⟨h.kill_eq c hb ▸ hkill, p, mem_reachedPreds.mpr ⟨hp, hporder⟩, hout⟩)
    · rw [visitReaching_other hc] at hx
      exact .inl hx

/-- The number of bits in all `OUT` sets. -/
def outBits (order : List BasicBlock) (st : ReachingResult) : ℕ :=
  (order.map fun b => (st b).outSet.card).sum

theorem ReachingInv.outBits_le (h : ReachingInv F order N init st) :
    outBits order st ≤ N * order.length := by
  have hone : ∀ b, (st b).outSet.card ≤ N := by
    intro b
    have hcard := Finset.card_le_card (h.bounded b)
    rwa [Finset.card_range] at hcard
  have hall : ∀ n ∈ order.map fun b => (st b).outSet.card, n ≤ N := by
    intro n hn
    obtain ⟨b, _, rfl⟩ := List.mem_map.mp hn
    exact hone b
  have hsum := List.sum_le_card_nsmul _ N hall
  rwa [List.length_map, nsmul_eq_mul, Nat.mul_comm] at hsum

/-- A visit adds bits only, and reports when it adds any. -/
theorem visitRaises_reaching (hgen : ∀ b, (init b).genSet ⊆ Finset.range N) :
    VisitRaises (visitReaching F) order (ReachingInv F order N init) (outBits order) := by
  intro b hb st h
  have hle : ∀ c ∈ order, (st c).outSet.card ≤ ((visitReaching F b st).1 c).outSet.card :=
    fun c _ => Finset.card_le_card (h.grows b c)
  refine ⟨h.visit hgen hb, List.sum_le_sum hle, fun hreport => ?_⟩
  rw [visitReaching_snd] at hreport
  refine List.sum_lt_sum _ _ hle ⟨b, hb, Finset.card_lt_card ?_⟩
  rw [visitReaching_self]
  exact Finset.ssubset_iff_subset_ne.mpr ⟨h.out_le b, Ne.symm hreport⟩

/-- The equations of one block hold. -/
def Solved (F : Function) (b : BasicBlock) (st : ReachingResult) : Prop :=
  (st b).inSet = meetPredecessors F st b ∧
    (st b).outSet = (st b).genSet ∪ (meetPredecessors F st b \ (st b).killSet)

theorem settles_reaching : Settles (visitReaching F) order (ReachingInv F order N init) (Solved F) := by
  have hsame : ∀ b st, (visitReaching F b st).2 = false →
      ∀ c, ((visitReaching F b st).1 c).outSet = (st c).outSet := by
    intro b st hquiet c
    by_cases hc : c = b
    · subst hc
      rw [visitReaching_self]
      by_contra hne
      rw [← Bool.not_eq_true, visitReaching_snd] at hquiet
      exact hquiet hne
    · rw [visitReaching_other hc]
  constructor
  · intro b _ st _ hquiet
    have hmeet := meetPredecessors_congr (F := F) (hsame b st hquiet) b
    rw [Solved, hmeet, visitReaching_self]
    exact ⟨rfl, rfl⟩
  · intro b _ c st _ hquiet hsolved
    have hmeet := meetPredecessors_congr (F := F) (hsame b st hquiet) c
    rw [Solved, hmeet]
    by_cases hc : c = b
    · subst hc
      rw [visitReaching_self]
      exact ⟨rfl, rfl⟩
    · rw [visitReaching_other hc]
      exact hsolved

/-- Before the iteration nothing is in `IN` or `OUT`. -/
theorem genKill_bounded (b : BasicBlock) : (genKill F getName definitions b).inSet = ∅ ∧
    (genKill F getName definitions b).outSet = ∅ ∧
    (genKill F getName definitions b).genSet ⊆ Finset.range definitions.length := by
  have hgen : ∀ (l : List InstrId) (bs : BlockStateReaching), (bs.inSet = ∅ ∧ bs.outSet = ∅ ∧
      bs.genSet ⊆ Finset.range definitions.length) →
        ((l.foldl (recordDefinition F getName definitions) bs).inSet = ∅ ∧
          (l.foldl (recordDefinition F getName definitions) bs).outSet = ∅ ∧
          (l.foldl (recordDefinition F getName definitions) bs).genSet ⊆
            Finset.range definitions.length) := by
    intro l
    induction l with
    | nil => exact fun _ h => h
    | cons i l ih =>
      rintro bs ⟨hin, hout, hbound⟩
      apply ih
      rw [recordDefinition]
      split
      · exact ⟨hin, hout, hbound⟩
      · split
        · exact ⟨hin, hout, hbound⟩
        · rename_i defIdx hi
          have hlt := (List.idxOf?_eq_some_iff.mp hi).1
          exact ⟨hin, hout, Finset.insert_subset (Finset.mem_range.mpr hlt) hbound⟩
  exact hgen _ _ ⟨rfl, rfl, Finset.empty_subset _⟩

theorem initialReaching_outSet (b : BasicBlock) :
    (initialReaching F getName definitions order b).outSet = ∅ := by
  rw [initialReaching]
  split
  · exact (genKill_bounded b).2.1
  · rfl

theorem initialReaching_of_mem (hb : b ∈ order) :
    initialReaching F getName definitions order b = genKill F getName definitions b := by
  rw [initialReaching, if_pos (List.contains_iff_mem.mpr hb)]

theorem reachingInv_init : ReachingInv F order definitions.length (genKill F getName definitions)
    (initialReaching F getName definitions order) := by
  have hout : ∀ b, (initialReaching F getName definitions order b).outSet = ∅ :=
    initialReaching_outSet
  refine ⟨fun b hb => ?_, fun b hb => ?_, fun b _ => hout b, fun b => ?_, fun b => ?_,
    fun b x hx => ?_⟩
  · rw [initialReaching_of_mem hb]
  · rw [initialReaching_of_mem hb]
  · rw [hout b]
    exact Finset.empty_subset _
  · rw [hout b]
    exact Finset.empty_subset _
  · change x ∈ (initialReaching F getName definitions order b).outSet at hx
    rw [hout b] at hx
    exact absurd hx (Finset.notMem_empty x)

/-- A solution, reached by adding what the equations ask for. -/
structure IsReaching (F : Function) (getName : InstrId → String) (order : List BasicBlock)
    (st : ReachingResult) : Prop where
  bfs : F.cfg.IsBreadthFirst order
  inv : ReachingInv F order (definitionUniverse F).length
    (genKill F getName (definitionUniverse F)) st
  solved : ∀ b ∈ order, Solved F b st

/-- The iteration ends in a solution. -/
theorem computeReaching_spec (hwf : F.WellFormed) (getName : InstrId → String) :
    ∃ order st, computeReaching F getName = some st ∧ IsReaching F getName order st := by
  obtain ⟨order, hsearch⟩ := FlowGraph.breadthFirst_isSome (G := F.cfg) (U := F.blocks)
    Function.entry_mem_blocks fun u _ v hv => hwf.succs_mem u v hv
  have hgen : ∀ b, (genKill F getName (definitionUniverse F) b).genSet ⊆
      Finset.range (definitionUniverse F).length := fun b => (genKill_bounded b).2.2
  have hraises : VisitRaises (visitReaching F) order (ReachingInv F order
      (definitionUniverse F).length (genKill F getName (definitionUniverse F))) (outBits order) :=
    visitRaises_reaching hgen
  have hinit : ReachingInv F order (definitionUniverse F).length
      (genKill F getName (definitionUniverse F))
      (initialReaching F getName (definitionUniverse F) order) := reachingInv_init
  have hsome : (untilQuiet (visitReaching F) order
      ((definitionUniverse F).length * order.length + 1)
      (initialReaching F getName (definitionUniverse F) order)).isSome :=
    untilQuiet_isSome hraises (fun _ h => h.outBits_le) hinit (by omega)
  obtain ⟨st, hrun⟩ := Option.isSome_iff_exists.mp hsome
  have hcompute : computeReaching F getName = some st := by
    simp only [computeReaching, hsearch]
    exact hrun
  refine ⟨order, st, hcompute, FlowGraph.breadthFirst_spec hsearch,
    untilQuiet_invariant hraises hinit hrun, ?_⟩
  exact untilQuiet_quiet settles_reaching (fun b hb st h => h.visit hgen hb) hinit hrun

/-! ### Walks -/

/-- A walk along which `d` is not killed leads from a reachable block with `d` to `b`. -/
def FlowsInto (F : Function) (getName : InstrId → String) (d : InstrId) (b : BasicBlock) : Prop :=
  ∃ c, F.cfg.Reachable c ∧ d ∈ F.body c ∧ F.cfg.Follows (fun e => ¬ KilledIn F getName d e) c b

/-- The bit of `d` leaves a block exactly if `d` stands there or reaches it and survives. -/
theorem IsReaching.mem_outSet (hwf : F.WellFormed) (h : IsReaching F getName order st)
    (hd : (definitionUniverse F).idxOf? d = some idx) (hb : F.cfg.Reachable b) :
    idx ∈ (st b).outSet ↔ d ∈ F.body b ∨ (¬ KilledIn F getName d b ∧ FlowsInto F getName d b) := by
  have hpreds := arePredecessors_reachedPreds hwf h.bfs
  have hsolves : (F.cfg.reversed (reachedPreds F order)).Solves
      (fun b x => x ∈ (genKill F getName (definitionUniverse F) b).genSet)
      (fun b x => x ∈ (genKill F getName (definitionUniverse F) b).killSet)
      (fun b x => x ∈ (st b).outSet) (fun b => b ∈ order) := by
    constructor
    · intro c x hc hx
      rw [(h.solved c hc).2, h.inv.gen_eq c hc]
      exact Finset.mem_union_left _ hx
    · intro c p x hc hx hp hout
      rw [(h.solved c hc).2, h.inv.kill_eq c hc]
      have hmeet := mem_meetPredecessors.mpr ⟨p, (mem_reachedPreds.mp hp).1, hout⟩
      exact Finset.mem_union_right _ (Finset.mem_sdiff.mpr ⟨hmeet, hx⟩)
  have hclosed : ∀ c p, c ∈ order → p ∈ (F.cfg.reversed (reachedPreds F order)).succs c → p ∈ order :=
    fun c p _ hp => (mem_reachedPreds.mp hp).2
  have hlive := hsolves.live_iff h.inv.grounded hclosed (h.bfs.mem_iff.mpr hb) (x := idx)
  rw [FlowGraph.wanted_reversed hpreds] at hlive
  simp only [genKill_spec hwf hd] at hlive
  exact hlive

theorem IsReaching.mem_inSet (hwf : F.WellFormed) (h : IsReaching F getName order st)
    (hd : (definitionUniverse F).idxOf? d = some idx) (hb : F.cfg.Reachable b) :
    idx ∈ (st b).inSet ↔ FlowsInto F getName d b := by
  rw [(h.solved b (h.bfs.mem_iff.mpr hb)).1, mem_meetPredecessors, FlowsInto]
  -- both sides speak of the last edge
  simp only [FlowGraph.follows_iff (b := b), Function.cfg_succs, ← hwf.mem_preds]
  constructor
  · rintro ⟨p, hp, hout⟩
    have hpreach : F.cfg.Reachable p := by
      rw [← h.bfs.mem_iff]
      by_contra hnot
      rw [h.inv.unreached p hnot] at hout
      exact absurd hout (Finset.notMem_empty idx)
    rcases (h.mem_outSet hwf hd hpreach).mp hout with hmem | ⟨hkill, c, hc, hmem, hfollows⟩
    · exact ⟨p, hpreach, hmem, p, hp, .inl rfl⟩
    · exact ⟨c, hc, hmem, p, hp, .inr ⟨hkill, hfollows⟩⟩
  · rintro ⟨c, hc, hmem, p, hp, rfl | ⟨hkill, hfollows⟩⟩
    · exact ⟨p, hp, (h.mem_outSet hwf hd hc).mpr (.inl hmem)⟩
    · exact ⟨p, hp, (h.mem_outSet hwf hd (hfollows.reachable hc)).mpr
        (.inr ⟨hkill, c, hc, hmem, hfollows⟩)⟩

/-- **The analysis is what forward walks say.**  It ends, and at a reachable block the bit of a
definition is in `IN` exactly if a walk leads from a reachable block with the definition to this one,
past no block with another definition of its name; and in `OUT` exactly if the definition stands in
the block or comes in and is not killed. -/
theorem computeReaching_paths (F : Function) (hwf : F.WellFormed) (getName : InstrId → String) :
    ∃ st, computeReaching F getName = some st ∧ ∀ b, F.cfg.Reachable b → ∀ d idx,
      (definitionUniverse F).idxOf? d = some idx →
        (idx ∈ (st b).inSet ↔ FlowsInto F getName d b) ∧
        (idx ∈ (st b).outSet ↔
          d ∈ F.body b ∨ (idx ∈ (st b).inSet ∧ ¬ KilledIn F getName d b)) := by
  obtain ⟨order, st, hrun, h⟩ := computeReaching_spec hwf getName
  refine ⟨st, hrun, fun b hb d idx hd => ?_⟩
  have hin := h.mem_inSet hwf hd hb
  refine ⟨hin, ?_⟩
  rw [h.mem_outSet hwf hd hb, hin, and_comm]

/-- Two definitions of one name in one block: both leave it, and both come around the loop. -/
theorem countingLoop_reaching :
    ∃ st, computeReaching countingLoop (fun i => if i ≤ 2 then "x" else "") = some st ∧
      ∀ b, countingLoop.cfg.Reachable b → ∀ d idx,
        (definitionUniverse countingLoop).idxOf? d = some idx →
          (idx ∈ (st b).inSet ↔ FlowsInto countingLoop (fun i => if i ≤ 2 then "x" else "") d b) ∧
          (idx ∈ (st b).outSet ↔ d ∈ countingLoop.body b ∨ (idx ∈ (st b).inSet ∧
            ¬ KilledIn countingLoop (fun i => if i ≤ 2 then "x" else "") d b)) :=
  computeReaching_paths countingLoop countingLoop_verified.1 fun i => if i ≤ 2 then "x" else ""

/-! ### Static single assignment -/

/-- No two instructions have the same name, as the symbol table of a function guarantees. -/
def NamesUnique (getName : InstrId → String) : Prop :=
  ∀ i d, getName i ≠ "" → getName d = getName i → i = d

theorem NamesUnique.not_killedIn (h : NamesUnique getName) : ¬ KilledIn F getName d b := by
  rintro ⟨i, _, _, hne, hname, hsame⟩
  exact hne (h i d hname hsame)

/-- A definition that strictly dominates a reachable block reaches it. -/
theorem flowsInto_of_availableIn (hnames : NamesUnique getName) (hav : F.AvailableIn d b)
    (hb : F.cfg.Reachable b) : FlowsInto F getName d b := by
  obtain ⟨c, hmem, hdom⟩ := hav.strictlyDominates hb
  have hc := hdom.2.reachable hb
  have hclear : ∀ e, ¬ ¬ KilledIn F getName d e → F.cfg.Avoids c e := by
    intro e hkill
    exact absurd hnames.not_killedIn hkill
  have hwalk : F.cfg.LeadsTo (fun e => ¬ KilledIn F getName d e) c b :=
    FlowGraph.leadsTo_of_dominates hclear hdom.2 hb
  cases hwalk with
  | refl => exact absurd rfl hdom.1
  | step _ hs hrest => exact ⟨c, hc, hmem, _, hs, hrest⟩

/-- **Every use is reached by its definition.**  In SSA form, where no two instructions have the same
name, the definition of an operand stands before the use in its block or is in `IN` of the block, and
that of a PHI operand is in `OUT` of the incoming block. -/
theorem computeReaching_uses (F : Function) (hwf : F.WellFormed) (hssa : F.SSADominance)
    (getName : InstrId → String) (hnames : NamesUnique getName)
    (hvoid : ∀ b u d, u ∈ F.body b → Value.instruction d ∈ (F.instr u).operands →
      (F.instr d).isVoidTy = false) :
    ∃ st, computeReaching F getName = some st ∧
      (∀ b u d, F.cfg.Reachable b → u ∈ F.body b → (F.instr u).isPHI = false →
        Value.instruction d ∈ (F.instr u).operands →
        ∃ idx, (definitionUniverse F).idxOf? d = some idx ∧
          ([d, u] <+ F.body b ∨ idx ∈ (st b).inSet)) ∧
      (∀ b u p d, u ∈ F.body b → (F.instr u).isPHI = true →
        (p, Value.instruction d) ∈ (F.instr u).incoming.zip (F.instr u).operands →
        F.cfg.Reachable p →
        ∃ idx, (definitionUniverse F).idxOf? d = some idx ∧ idx ∈ (st p).outSet) := by
  obtain ⟨order, st, hrun, h⟩ := computeReaching_spec hwf getName
  have hindex : ∀ {b u c d}, u ∈ F.body b → Value.instruction d ∈ (F.instr u).operands →
      d ∈ F.body c → ∃ idx, (definitionUniverse F).idxOf? d = some idx := by
    intro b u c d hu huse hc
    have hmem := (mem_definitionUniverse hwf).mpr ⟨⟨c, hc⟩, hvoid b u d hu huse⟩
    exact Option.isSome_iff_exists.mp (List.isSome_idxOf?.mpr hmem)
  refine ⟨st, hrun, ?_, ?_⟩
  · intro b u d hb hu hphi huse
    obtain ⟨b', hu', hdom⟩ := hssa.use hu hphi huse
    obtain rfl := hwf.body_unique hu hu'
    rcases hdom with hunreach | hav | hbefore
    · exact absurd hb hunreach
    · obtain ⟨c, hc, _⟩ := hav.strictlyDominates hb
      obtain ⟨idx, hidx⟩ := hindex hu huse hc
      have hreaches := flowsInto_of_availableIn hnames hav hb
      exact ⟨idx, hidx, .inr ((h.mem_inSet hwf hidx hb).mpr hreaches)⟩
    · have hd : d ∈ F.body b := hbefore.subset List.mem_cons_self
      obtain ⟨idx, hidx⟩ := hindex hu huse hd
      exact ⟨idx, hidx, .inl hbefore⟩
  · intro b u p d hu hphi huse hp
    have hoperand := (List.of_mem_zip huse).2
    rcases hssa.phi hu hphi huse with hunreach | hav | ⟨hd, _⟩
    · exact absurd hp hunreach
    · obtain ⟨c, hc, _⟩ := hav.strictlyDominates hp
      obtain ⟨idx, hidx⟩ := hindex hu hoperand hc
      have hreaches := flowsInto_of_availableIn hnames hav hp
      exact ⟨idx, hidx, (h.mem_outSet hwf hidx hp).mpr (.inr ⟨hnames.not_killedIn, hreaches⟩)⟩
    · obtain ⟨idx, hidx⟩ := hindex hu hoperand hd
      exact ⟨idx, hidx, (h.mem_outSet hwf hidx hp).mpr (.inl hd)⟩

theorem countingLoop_reachingUses :
    ∃ st, computeReaching countingLoop (fun i => if i = 2 then "next" else "") = some st ∧
      (∀ b u d, countingLoop.cfg.Reachable b → u ∈ countingLoop.body b →
        (countingLoop.instr u).isPHI = false →
        Value.instruction d ∈ (countingLoop.instr u).operands →
        ∃ idx, (definitionUniverse countingLoop).idxOf? d = some idx ∧
          ([d, u] <+ countingLoop.body b ∨ idx ∈ (st b).inSet)) ∧
      (∀ b u p d, u ∈ countingLoop.body b → (countingLoop.instr u).isPHI = true →
        (p, Value.instruction d) ∈
          (countingLoop.instr u).incoming.zip (countingLoop.instr u).operands →
        countingLoop.cfg.Reachable p →
        ∃ idx, (definitionUniverse countingLoop).idxOf? d = some idx ∧ idx ∈ (st p).outSet) := by
  apply computeReaching_uses countingLoop countingLoop_verified.1 countingLoop_verified.2
  · intro i d hi hd
    by_cases hi2 : i = 2
    · by_cases hd2 : d = 2
      · rw [hi2, hd2]
      · simp [hi2, hd2] at hd
    · simp [hi2] at hi
  · intro b u d hu huse
    have hall : ∀ b ∈ countingLoop.blocks, ∀ u ∈ countingLoop.body b,
        ∀ v ∈ (countingLoop.instr u).operands,
          v ∈ [.constant 0, .argument 0, .instruction 1, .instruction 2] := by decide
    have hvalue := hall b (countingLoop_verified.1.mem_blocks hu) u hu _ huse
    simp only [List.mem_cons, Value.instruction.injEq, List.not_mem_nil, or_false, reduceCtorEq,
      false_or] at hvalue
    rcases hvalue with rfl | rfl
    · rfl
    · rfl

end TraceScheduler
