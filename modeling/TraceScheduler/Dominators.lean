import TraceScheduler.Library.RoundRobin
import TraceScheduler.TraceIdentification
import Mathlib.Algebra.Order.BigOperators.Group.List
import Mathlib.Algebra.Order.Group.Nat
import Mathlib.Data.Finset.Card
import Mathlib.Data.Finset.Range
import Mathlib.Data.Finset.Sort

/-!
# Dominators by iteration

`computeDominators` numbers the reachable blocks in breadth-first order, starts from full bit sets
everywhere but at the entry, and recomputes the sets in place until none changes.

The iteration only ever removes bits (`DomInv.shrinks`) and never removes the bit of a dominator
(`DomInv.sound`).  Where it ends, the bit of a block that some path avoids is gone from every set along
that path (`not_mem_of_avoids`).  The strict dominators of a block form a chain, so the scan for one that
dominates no other finds the closest, in whichever order it goes through the bits.
-/

namespace TraceScheduler

/-- What `computeDominators` returns. The bits are positions of `order`; a missing immediate dominator
is the null pointer. -/
structure DomInfo where
  order : List BasicBlock
  idx : BasicBlock → Option ℕ
  dom : BasicBlock → Finset ℕ
  idom : BasicBlock → Option BasicBlock

section

variable (F : Function) (order : List BasicBlock) (dom : BasicBlock → Finset ℕ)

/-- The entry dominates itself, the other blocks start with every bit. -/
def initialDom : BasicBlock → Finset ℕ := fun b =>
  match order.idxOf? b with
  | none => ∅
  | some 0 => {0}
  | some _ => Finset.range order.length

/-- A predecessor that was reached takes part in the intersection. -/
def meetPred (acc : Finset ℕ × Bool) (pred : BasicBlock) : Finset ℕ × Bool :=
  match order.idxOf? pred with
  | some _ => (acc.1 ∩ dom pred, true)
  | none => acc

/-- The block itself, and what dominates all its predecessors. -/
def transferDom (BB : BasicBlock) (i : ℕ) : Finset ℕ :=
  let (newDom, hasPred) := (F.preds BB).foldl (meetPred order dom) (Finset.range order.length, false)
  insert i (if hasPred then newDom else ∅)

/-- The new sets, if the one of this block changes. -/
def updateDom (e : BasicBlock × ℕ) (dom : BasicBlock → Finset ℕ) :
    Option (BasicBlock → Finset ℕ) :=
  let newDom := transferDom F order dom e.1 e.2
  if newDom ≠ dom e.1 then some (Function.update dom e.1 newDom) else none

/-- Every block but the entry, with its number. -/
def numberedBlocks : List (BasicBlock × ℕ) := order.zipIdx.drop 1

variable (setBits : Finset ℕ → List ℕ)

/-- Another of the bits belongs to a block that `d` dominates. -/
def dominatedByAnother (bits : List ℕ) (d : ℕ) : Bool :=
  bits.any fun d2 => d2 != d && (order[d2]?).any fun b => decide (d ∈ dom b)

/-- The first strict dominator that is not dominated by another. -/
def findIdom (strictDom : Finset ℕ) : Option BasicBlock :=
  ((setBits strictDom).find? fun d => !dominatedByAnother order dom (setBits strictDom) d).bind
    fun d => order[d]?

def immediateDominators : BasicBlock → Option BasicBlock :=
  (numberedBlocks order).foldl (fun idom e =>
    Function.update idom e.1 (findIdom order dom setBits ((dom e.1).erase e.2))) fun _ => none

/-- `none` would mean that one of the loops does not end; `setBits` lists the bits of a set in some
order. -/
def computeDominators : Option DomInfo := do
  let order ← F.cfg.breadthFirst (F.blocks.length + 1)
  let dom ← untilStable (updateDom F order) (numberedBlocks order)
    (order.length * order.length + 1) (initialDom order)
  some ⟨order, order.idxOf?, dom, immediateDominators order dom setBits⟩

end

/-! ### One block -/

section

variable {F : Function} {order : List BasicBlock} {dom dom' : BasicBlock → Finset ℕ}
  {a b : BasicBlock} {i j : ℕ}

variable (order dom) in
theorem foldl_meetPred (l : List BasicBlock) (acc : Finset ℕ × Bool) :
    let r := l.foldl (meetPred order dom) acc
    (∀ j, j ∈ r.1 ↔ j ∈ acc.1 ∧ ∀ p ∈ l, p ∈ order → j ∈ dom p) ∧
      (r.2 = true ↔ acc.2 = true ∨ ∃ p ∈ l, p ∈ order) := by
  induction l generalizing acc with
  | nil => simp
  | cons p l ih =>
    obtain ⟨hmem, hpred⟩ := ih (meetPred order dom acc p)
    by_cases hp : p ∈ order
    · have hstep : meetPred order dom acc p = (acc.1 ∩ dom p, true) := by
        rw [meetPred, idxOf?_eq_some hp]
      rw [hstep] at hmem hpred
      rw [List.foldl_cons, hstep]
      refine ⟨fun j => (hmem j).trans ?_, hpred.trans ?_⟩
      · simp [hp, and_assoc]
      · simp [hp]
    · have hstep : meetPred order dom acc p = acc := by
        rw [meetPred, List.idxOf?_eq_none_iff.mpr hp]
      rw [hstep] at hmem hpred
      rw [List.foldl_cons, hstep]
      refine ⟨fun j => (hmem j).trans ?_, hpred.trans ?_⟩
      · simp [hp]
      · simp [hp]

theorem mem_transferDom : j ∈ transferDom F order dom b i ↔
    j = i ∨ (∃ p ∈ F.preds b, p ∈ order) ∧ j < order.length ∧
      ∀ p ∈ F.preds b, p ∈ order → j ∈ dom p := by
  have hspec := foldl_meetPred order dom (F.preds b)
    (Finset.range order.length, false)
  rw [transferDom]
  generalize (F.preds b).foldl (meetPred order dom) (Finset.range order.length, false) = r at hspec ⊢
  obtain ⟨newDom, hasPred⟩ := r
  obtain ⟨hmem, hpred⟩ := hspec
  have hpred : hasPred = true ↔ ∃ p ∈ F.preds b, p ∈ order := by simpa using hpred
  have hmem : ∀ j, j ∈ newDom ↔ j < order.length ∧ ∀ p ∈ F.preds b, p ∈ order → j ∈ dom p := by
    simpa using hmem
  rw [Finset.mem_insert, ← hpred, ← hmem]
  split
  · rename_i h
    simp [h]
  · rename_i h
    simp [h]

theorem transferDom_mono (h : ∀ p ∈ order, dom' p ⊆ dom p) :
    transferDom F order dom' b i ⊆ transferDom F order dom b i := by
  intro j hj
  rw [mem_transferDom] at hj ⊢
  exact hj.imp_right fun ⟨hex, hlt, hall⟩ => ⟨hex, hlt, fun p hp hpo => h p hpo (hall p hp hpo)⟩

theorem idxOf_eq_iff (hnd : order.Nodup) : order[i]? = some b ↔ b ∈ order ∧ order.idxOf b = i := by
  constructor
  · intro h
    obtain ⟨hlt, hget⟩ := List.getElem?_eq_some_iff.mp h
    rw [← hget]
    exact ⟨List.getElem_mem hlt, hnd.idxOf_getElem i hlt⟩
  · intro ⟨hb, hi⟩
    rw [← hi]
    exact List.getElem?_idxOf hb

theorem mem_numberedBlocks (hbfs : F.cfg.IsBreadthFirst order) :
    (b, i) ∈ numberedBlocks order ↔ b ∈ order ∧ order.idxOf b = i ∧ b ≠ F.entry := by
  have hdrop : (b, i) ∈ numberedBlocks order ↔ order[i]? = some b ∧ 0 < i := by
    rw [numberedBlocks]
    cases order with
    | nil => simp
    | cons entry rest =>
      rw [List.zipIdx_cons, List.drop_one, List.tail_cons,
        List.mk_mem_zipIdx_iff_le_and_getElem?_sub]
      cases i with
      | zero => simp
      | succ k => simp
  rw [hdrop, idxOf_eq_iff hbfs.nodup, and_assoc]
  refine and_congr_right fun hb => and_congr_right fun hi => ?_
  rw [← hi, Nat.pos_iff_ne_zero, ne_eq, hbfs.idxOf_eq_zero hb]
  exact Iff.rfl

/-! ### The iteration -/

/-- What holds before and after every update. -/
structure DomInv (F : Function) (order : List BasicBlock) (dom : BasicBlock → Finset ℕ) : Prop where
  entry : dom F.entry = {0}
  bounded : ∀ b ∈ order, dom b ⊆ Finset.range order.length
  shrinks : ∀ b i, (b, i) ∈ numberedBlocks order → transferDom F order dom b i ⊆ dom b
  sound : ∀ a ∈ order, ∀ b ∈ order, F.cfg.Dominates a b → order.idxOf a ∈ dom b

/-- The bits that are gone. -/
def clearedBits (order : List BasicBlock) (dom : BasicBlock → Finset ℕ) : ℕ :=
  (order.map fun b => order.length - (dom b).card).sum

theorem clearedBits_le : clearedBits order dom ≤ order.length * order.length := by
  have h := List.sum_le_card_nsmul (order.map fun b => order.length - (dom b).card) order.length
    (by simp)
  rw [List.length_map] at h
  exact h

/-- One set loses a bit, and the others are what they were. -/
theorem clearedBits_lt {s : Finset ℕ} (hb : b ∈ order) (hbounded : dom b ⊆ Finset.range order.length)
    (hs : s ⊂ dom b) : clearedBits order dom < clearedBits order (Function.update dom b s) := by
  refine List.sum_lt_sum _ _ (fun c _ => ?_) ⟨b, hb, ?_⟩
  · apply Nat.sub_le_sub_left
    apply Finset.card_le_card
    by_cases hc : c = b
    · rw [hc, Function.update_self]
      exact hs.subset
    · rw [Function.update_of_ne hc]
  · have hlt := Finset.card_lt_card hs
    have hle := Finset.card_le_card hbounded
    rw [Finset.card_range] at hle
    rw [Function.update_self]
    omega

/-- A recomputed set keeps the bits of the dominators. -/
theorem DomInv.sound_transferDom (hF : F.CfgConsistent) (hbfs : F.cfg.IsBreadthFirst order)
    (h : DomInv F order dom) (ha : a ∈ order) (hb : b ∈ order) (hne : b ≠ F.entry)
    (hdom : F.cfg.Dominates a b) :
    order.idxOf a ∈ transferDom F order dom b (order.idxOf b) := by
  rw [mem_transferDom]
  by_cases hab : a = b
  · exact .inl (hab ▸ rfl)
  · right
    refine ⟨?_, List.idxOf_lt_length_iff.mpr ha, ?_⟩
    · obtain ⟨u, hu, hs, _⟩ := (hbfs.parent b hb).resolve_left hne
      exact ⟨u, (hF.mem_preds b u).mpr hs, hu⟩
    · intro p hp hpo
      exact h.sound a ha p hpo (hdom.pred hab ((hF.mem_preds b p).mp hp))

/-- **One update.** -/
theorem DomInv.updateDom (hF : F.CfgConsistent) (hbfs : F.cfg.IsBreadthFirst order)
    (h : DomInv F order dom) {e : BasicBlock × ℕ} (he : e ∈ numberedBlocks order)
    (hupd : updateDom F order e dom = some dom') :
    DomInv F order dom' ∧ clearedBits order dom < clearedBits order dom' := by
  obtain ⟨b, i⟩ := e
  obtain ⟨hb, hi, hne⟩ := (mem_numberedBlocks hbfs).mp he
  rw [TraceScheduler.updateDom] at hupd
  split at hupd
  · rename_i hchange
    obtain rfl := Option.some.inj hupd
    have hself := h.shrinks b i he
    have hsub : ∀ c, Function.update dom b (transferDom F order dom b i) c ⊆ dom c := by
      intro c
      by_cases hc : c = b
      · rw [hc, Function.update_self]
        exact hself
      · rw [Function.update_of_ne hc]
    refine ⟨⟨?_, ?_, ?_, ?_⟩, ?_⟩
    · rw [Function.update_of_ne hne.symm]
      exact h.entry
    · exact fun c hc => (hsub c).trans (h.bounded c hc)
    · intro c k hc
      have hmono := transferDom_mono (F := F) (b := c) (i := k) fun p (_ : p ∈ order) => hsub p
      by_cases hcb : c = b
      · subst hcb
        obtain rfl : k = i := (((mem_numberedBlocks hbfs).mp hc).2.1).symm.trans hi
        rw [Function.update_self]
        exact hmono
      · rw [Function.update_of_ne hcb]
        exact hmono.trans (h.shrinks c k hc)
    · intro a ha c hc hdom
      by_cases hcb : c = b
      · subst hcb
        rw [Function.update_self, ← hi]
        exact h.sound_transferDom hF hbfs ha hc hne hdom
      · rw [Function.update_of_ne hcb]
        exact h.sound a ha c hc hdom
    · exact clearedBits_lt hb (h.bounded b hb) (Finset.ssubset_iff_subset_ne.mpr ⟨hself, hchange⟩)
  · cases hupd

theorem domInv_initial (hbfs : F.cfg.IsBreadthFirst order) : DomInv F order (initialDom order) := by
  have hentry : initialDom order F.entry = {0} := by
    have hmem : F.entry ∈ order := List.mem_of_mem_head? hbfs.head
    rw [initialDom, idxOf?_eq_some hmem]
    simp only [show order.idxOf F.entry = 0 from hbfs.idxOf_entry]
  have hother : ∀ b ∈ order, b ≠ F.entry → initialDom order b = Finset.range order.length := by
    intro b hb hne
    rw [initialDom, idxOf?_eq_some hb]
    split
    · rename_i h
      cases h
    · rename_i h
      exact absurd ((hbfs.idxOf_eq_zero hb).mp (Option.some.inj h)) hne
    · rfl
  have hpos : 0 < order.length := List.length_pos_of_mem (List.mem_of_mem_head? hbfs.head)
  refine ⟨hentry, ?_, ?_, ?_⟩
  · intro b hb
    by_cases hne : b = F.entry
    · rw [hne, hentry, Finset.singleton_subset_iff, Finset.mem_range]
      exact hpos
    · rw [hother b hb hne]
  · intro b i hbi
    obtain ⟨hb, hi, hne⟩ := (mem_numberedBlocks hbfs).mp hbi
    rw [hother b hb hne]
    intro j hj
    rw [Finset.mem_range]
    rcases mem_transferDom.mp hj with hj | ⟨_, hj, _⟩
    · rw [hj, ← hi]
      exact List.idxOf_lt_length_iff.mpr hb
    · exact hj
  · intro a ha b hb hdom
    by_cases hne : b = F.entry
    · rw [hne] at hdom
      rw [hne, hentry, hdom.eq_entry, Finset.mem_singleton]
      exact hbfs.idxOf_entry
    · rw [hother b hb hne, Finset.mem_range]
      exact List.idxOf_lt_length_iff.mpr ha

/-- A path that avoids `a` clears its bit. -/
theorem DomInv.not_mem_of_avoids (hF : F.CfgConsistent) (hbfs : F.cfg.IsBreadthFirst order)
    (h : DomInv F order dom)
    (hstable : ∀ e ∈ numberedBlocks order, TraceScheduler.updateDom F order e dom = none)
    (ha : a ∈ order) (havoids : F.cfg.Avoids a b) : order.idxOf a ∉ dom b := by
  induction havoids with
  | entry hne =>
    show order.idxOf a ∉ dom F.entry
    rw [h.entry, Finset.mem_singleton]
    intro hzero
    exact hne ((hbfs.idxOf_eq_zero ha).mp hzero).symm
  | @step u v havoids hs hne ih =>
    obtain ⟨l, hl, _⟩ := havoids.exists_path
    have hu : u ∈ order := hbfs.mem_iff.mpr ⟨l, hl⟩
    have hv : v ∈ order := hbfs.closed u hu v hs
    by_cases hentry : v = F.entry
    · rw [hentry, h.entry, Finset.mem_singleton]
      intro hzero
      exact hne (hentry.trans ((hbfs.idxOf_eq_zero ha).mp hzero).symm)
    · have hvi : (v, order.idxOf v) ∈ numberedBlocks order :=
        (mem_numberedBlocks hbfs).mpr ⟨hv, rfl, hentry⟩
      have hfixed := hstable _ hvi
      rw [TraceScheduler.updateDom] at hfixed
      split at hfixed
      · cases hfixed
      · rename_i hsame
        rw [not_not] at hsame
        rw [← hsame, mem_transferDom]
        intro hmem
        rcases hmem with hmem | ⟨_, _, hall⟩
        · exact hne ((List.idxOf_inj ha).mp hmem).symm
        · exact ih (hall u ((hF.mem_preds v u).mpr hs) hu)

/-- **Where the iteration ends, the bits are the dominators.** -/
theorem DomInv.mem_iff (hF : F.CfgConsistent) (hbfs : F.cfg.IsBreadthFirst order)
    (h : DomInv F order dom)
    (hstable : ∀ e ∈ numberedBlocks order, TraceScheduler.updateDom F order e dom = none)
    (ha : a ∈ order) (hb : b ∈ order) : order.idxOf a ∈ dom b ↔ F.cfg.Dominates a b := by
  constructor
  · intro hmem
    by_contra hdom
    exact h.not_mem_of_avoids hF hbfs hstable ha (FlowGraph.not_dominates_iff_avoids.mp hdom) hmem
  · exact h.sound a ha b hb

/-! ### Immediate dominators -/

section

variable {setBits : Finset ℕ → List ℕ} (hbits : ∀ s d, d ∈ setBits s ↔ d ∈ s)
  (hbfs : F.cfg.IsBreadthFirst order) (hbounded : dom b ⊆ Finset.range order.length)
  (hdom : ∀ a ∈ order, ∀ b ∈ order, order.idxOf a ∈ dom b ↔ F.cfg.Dominates a b) (hb : b ∈ order)

include hdom hb

theorem mem_strictDom (ha : a ∈ order) :
    order.idxOf a ∈ (dom b).erase (order.idxOf b) ↔ F.cfg.StrictlyDominates a b := by
  rw [Finset.mem_erase, hdom a ha b hb, FlowGraph.StrictlyDominates, ne_eq, List.idxOf_inj ha]

include hbfs hbounded

/-- The other bits of a block are its strict dominators. -/
theorem exists_strictDominator {d : ℕ} (hd : d ∈ (dom b).erase (order.idxOf b)) :
    ∃ a ∈ order, order.idxOf a = d ∧ F.cfg.StrictlyDominates a b := by
  have hlt : d < order.length := Finset.mem_range.mp (hbounded (Finset.mem_of_mem_erase hd))
  have hidx : order.idxOf order[d] = d := hbfs.nodup.idxOf_getElem d hlt
  have hmem : order[d] ∈ order := List.getElem_mem hlt
  refine ⟨order[d], hmem, hidx, (mem_strictDom hdom hb hmem).mp ?_⟩
  rw [hidx]
  exact hd

/-- The last strict dominator in breadth-first order dominates no other one. -/
theorem exists_last_strictDominator (hne : b ≠ F.entry) :
    ∃ a ∈ order, F.cfg.StrictlyDominates a b ∧
      ∀ c, F.cfg.StrictlyDominates c b → c ≠ a → ¬ F.cfg.Dominates a c := by
  have hentry : order.idxOf F.entry ∈ (dom b).erase (order.idxOf b) :=
    (mem_strictDom hdom hb (List.mem_of_mem_head? hbfs.head)).mpr ⟨hne.symm, .entry b⟩
  obtain ⟨a, ha, hmax, hab⟩ := exists_strictDominator hbfs hbounded hdom hb
    (Finset.max'_mem _ ⟨_, hentry⟩)
  refine ⟨a, ha, hab, ?_⟩
  intro c hc hca hac
  have hco : c ∈ order := hbfs.mem_iff.mpr (hc.2.reachable (hbfs.mem_iff.mp hb))
  have hle := hbfs.idxOf_le_of_dominates hac hco
  have hge := Finset.le_max' _ _ ((mem_strictDom hdom hb hco).mpr hc)
  rw [← hmax] at hge
  exact hca ((List.idxOf_inj hco).mp (Nat.le_antisymm hge hle))

include hbits

/-- What the inner loop looks for: a strict dominator that dominates no other one. -/
theorem dominatedByAnother_eq_false_iff (ha : a ∈ order) :
    dominatedByAnother order dom (setBits ((dom b).erase (order.idxOf b))) (order.idxOf a) = false ↔
      ∀ c, F.cfg.StrictlyDominates c b → c ≠ a → ¬ F.cfg.Dominates a c := by
  rw [dominatedByAnother, List.any_eq_false]
  constructor
  · intro h c hc hca hac
    have hco : c ∈ order := hbfs.mem_iff.mpr (hc.2.reachable (hbfs.mem_iff.mp hb))
    apply h (order.idxOf c) ((hbits _ _).mpr ((mem_strictDom hdom hb hco).mpr hc))
    rw [List.getElem?_idxOf hco, Option.any_some, Bool.and_eq_true, bne_iff_ne, ne_eq,
      List.idxOf_inj hco, decide_eq_true_eq, hdom a ha c hco]
    exact ⟨hca, hac⟩
  · intro h d hd
    obtain ⟨c, hco, rfl, hc⟩ :=
      exists_strictDominator hbfs hbounded hdom hb ((hbits _ _).mp hd)
    rw [List.getElem?_idxOf hco, Option.any_some, Bool.and_eq_true, bne_iff_ne, ne_eq,
      List.idxOf_inj hco, decide_eq_true_eq, hdom a ha c hco]
    exact fun hand => h c hc hand.1 hand.2

/-- The scan ends in the closest strict dominator, whatever the order of the bits. -/
theorem findIdom_spec (hne : b ≠ F.entry) :
    ∃ d, findIdom order dom setBits ((dom b).erase (order.idxOf b)) = some d ∧
      F.cfg.IsImmediateDominator d b := by
  have htest : ∀ a ∈ order, (!dominatedByAnother order dom
      (setBits ((dom b).erase (order.idxOf b))) (order.idxOf a)) = true ↔
        ∀ c, F.cfg.StrictlyDominates c b → c ≠ a → ¬ F.cfg.Dominates a c := by
    intro a ha
    rw [Bool.not_eq_true', dominatedByAnother_eq_false_iff hbits hbfs hbounded hdom hb ha]
  obtain ⟨a, ha, hab, hlast⟩ := exists_last_strictDominator hbfs hbounded hdom hb hne
  have hsome : ((setBits ((dom b).erase (order.idxOf b))).find? fun d =>
      !dominatedByAnother order dom (setBits ((dom b).erase (order.idxOf b))) d).isSome :=
    List.find?_isSome.mpr ⟨order.idxOf a,
      (hbits _ _).mpr ((mem_strictDom hdom hb ha).mpr hab), (htest a ha).mpr hlast⟩
  obtain ⟨d, hd⟩ := Option.isSome_iff_exists.mp hsome
  obtain ⟨c, hc, rfl, hcb⟩ := exists_strictDominator hbfs hbounded hdom hb
    ((hbits _ _).mp (List.mem_of_find?_eq_some hd))
  refine ⟨c, ?_, ?_⟩
  · rw [findIdom, hd, Option.bind_some]
    exact List.getElem?_idxOf hc
  · apply FlowGraph.isImmediateDominator_of_last hcb (hbfs.mem_iff.mp hb)
    have hpass := List.find?_some hd
    exact (htest c hc).mp hpass

end

theorem foldl_update_of_mem {α β : Type*} [DecidableEq α] {g : α × ℕ → β} {l : List (α × ℕ)}
    (hnd : (l.map Prod.fst).Nodup) {e : α × ℕ} (he : e ∈ l) (f : α → β) :
    l.foldl (fun f e => Function.update f e.1 (g e)) f e.1 = g e := by
  induction l using List.reverseRecOn with
  | nil => cases he
  | append_singleton l e' ih =>
    rw [List.map_append, List.nodup_append] at hnd
    rw [List.foldl_append, List.foldl_cons, List.foldl_nil]
    rcases List.mem_append.mp he with he | he
    · have hne : e.1 ≠ e'.1 := hnd.2.2 _ (List.mem_map_of_mem he) _ (by simp)
      rw [Function.update_of_ne hne]
      exact ih hnd.1 he
    · rw [List.mem_singleton.mp he]
      exact Function.update_self ..

end

/-- **`computeDominators` is exact.** On any graph the iteration ends; among the reachable blocks the
bit of `a` is set for `b` just if every path to `b` passes through `a`; and every reachable block but the
entry gets the one strict dominator that all its strict dominators dominate, in whichever order
the bits of a set are scanned. -/
theorem computeDominators_exact {F : Function} (hF : F.CfgConsistent) (setBits : Finset ℕ → List ℕ)
    (hbits : ∀ s d, d ∈ setBits s ↔ d ∈ s) :
    ∃ info, computeDominators F setBits = some info ∧
      (∀ b, b ∈ info.order ↔ F.cfg.Reachable b) ∧
      (∀ a b, F.cfg.Reachable a → F.cfg.Reachable b →
        ∃ i, info.idx a = some i ∧ (i ∈ info.dom b ↔ F.cfg.Dominates a b)) ∧
      ∀ b, F.cfg.Reachable b → b ≠ F.entry → ∃ d, info.idom b = some d ∧
        F.cfg.StrictlyDominates d b ∧ (∀ a, F.cfg.StrictlyDominates a b → F.cfg.Dominates a d) ∧
        ∀ d', F.cfg.StrictlyDominates d' b →
          (∀ a, F.cfg.StrictlyDominates a b → F.cfg.Dominates a d') → d' = d := by
  obtain ⟨order, hsearch⟩ := FlowGraph.breadthFirst_isSome (G := F.cfg) (U := F.blocks)
    Function.entry_mem_blocks fun u _ v hv => hF.succs_mem u v hv
  have hbfs := FlowGraph.breadthFirst_spec hsearch
  have hinit := domInv_initial hbfs
  have hstep : ∀ e ∈ numberedBlocks order, ∀ dom dom', DomInv F order dom →
      updateDom F order e dom = some dom' →
        DomInv F order dom' ∧ clearedBits order dom < clearedBits order dom' :=
    fun e he dom dom' hdom hupd => hdom.updateDom hF hbfs he hupd
  have hends : (untilStable (updateDom F order) (numberedBlocks order)
      (order.length * order.length + 1) (initialDom order)).isSome :=
    untilStable_isSome (fun _ _ => clearedBits_le) hstep hinit (by omega)
  obtain ⟨dom, hrun⟩ := Option.isSome_iff_exists.mp hends
  have hinv : DomInv F order dom :=
    untilStable_invariant (fun e he dom dom' hdom hupd => (hstep e he dom dom' hdom hupd).1) hinit hrun
  have hdom : ∀ a ∈ order, ∀ b ∈ order, order.idxOf a ∈ dom b ↔ F.cfg.Dominates a b :=
    fun a ha b hb => hinv.mem_iff hF hbfs (untilStable_stable hrun) ha hb
  refine ⟨⟨order, order.idxOf?, dom, immediateDominators order dom setBits⟩, ?_, ?_, ?_, ?_⟩
  · simp only [computeDominators, hsearch, hrun, Option.bind_eq_bind, Option.bind_some]
  · exact fun b => hbfs.mem_iff
  · intro a b ha hb
    have hao := hbfs.mem_iff.mpr ha
    exact ⟨order.idxOf a, idxOf?_eq_some hao, hdom a hao b (hbfs.mem_iff.mpr hb)⟩
  · intro b hb hne
    have hbo := hbfs.mem_iff.mpr hb
    obtain ⟨d, hfind, himm⟩ := findIdom_spec hbits hbfs (hinv.bounded b hbo) hdom hbo hne
    refine ⟨d, ?_, himm.strict, himm.closest, ?_⟩
    · show immediateDominators order dom setBits b = some d
      rw [← hfind]
      have hmem : (b, order.idxOf b) ∈ numberedBlocks order :=
        (mem_numberedBlocks hbfs).mpr ⟨hbo, rfl, hne⟩
      have hkeys : ((numberedBlocks order).map Prod.fst).Nodup := by
        rw [numberedBlocks, List.map_drop, List.zipIdx_map_fst]
        exact hbfs.nodup.sublist (List.drop_sublist _ _)
      exact foldl_update_of_mem hkeys hmem _
    · intro d' hd' hclosest
      exact FlowGraph.IsImmediateDominator.unique ⟨hd', hclosest⟩ himm hb

/-- On the counting loop, with the bits scanned from the lowest up as the source does. -/
theorem countingLoop_dominators :
    ∃ info, computeDominators countingLoop (fun s => s.sort (· ≤ ·)) = some info ∧
      (∀ b, b ∈ info.order ↔ countingLoop.cfg.Reachable b) ∧
      ∀ a b, countingLoop.cfg.Reachable a → countingLoop.cfg.Reachable b →
        ∃ i, info.idx a = some i ∧ (i ∈ info.dom b ↔ countingLoop.cfg.Dominates a b) := by
  obtain ⟨info, hrun, horder, hdom, _⟩ := computeDominators_exact
    countingLoop_verified.1.cfgConsistent (fun s => s.sort (· ≤ ·)) fun s d => Finset.mem_sort _
  exact ⟨info, hrun, horder, hdom⟩

end TraceScheduler
