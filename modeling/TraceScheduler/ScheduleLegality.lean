import TraceScheduler.Function
import Mathlib.Data.List.Perm.Basic
import Mathlib.Data.List.Perm.Subperm

/-!
# Scheduling anchors and the region rewriter

`isSchedulingAnchor` says which instructions no scheduler may move.  `reorderBlockWithinRegions`
cuts a block into the maximal runs of non-anchors, collects them all, and then rewrites one run after
the other by splicing its members, in schedule order, before the anchor that ends it; a run the
schedule does not cover is left alone.

The list facts proved here are about one splice run (`foldl_moveBefore_body`) and about the order a
schedule gives to a run (`orderRegion_eq_filter`, `orderRegion_perm`).
-/

namespace TraceScheduler

open scoped List

/-- Instructions that stay where they are: the fixed boundaries of scheduling regions. -/
def isSchedulingAnchor (I : Instruction) : Bool :=
  I.isPHI || I.isTerminator || I.opcode == .alloca || I.isCallBase || I.isEHPad || I.isTokenTy ||
    I.mayReadOrWriteMemory || I.mayHaveSideEffects

/-- Whether an instruction of `F` is an anchor. -/
abbrev Function.isAnchor (F : Function) (i : InstrId) : Bool := isSchedulingAnchor (F.instr i)

/-- `i` reads the value of `d`. -/
abbrev Function.Uses (F : Function) (i d : InstrId) : Prop :=
  Value.instruction d ∈ (F.instr i).operands

/-- The runs of non-anchors of a block, each with the anchor that ends it. `current` is the run being
collected; a run that no anchor ends has no boundary. -/
def collectRegions (F : Function) :
    List InstrId → List InstrId → List (List InstrId × Option InstrId)
  | [], current => if current.isEmpty then [] else [(current, none)]
  | i :: rest, current =>
      if isSchedulingAnchor (F.instr i) then
        if current.isEmpty then collectRegions F rest []
        else (current, some i) :: collectRegions F rest []
      else collectRegions F rest (current ++ [i])

/-- Append a scheduled instruction that is a member of the region and has not been seen. -/
def takeMember (region ordered : List InstrId) (i : InstrId) : List InstrId :=
  if region.contains i && !ordered.contains i then ordered ++ [i] else ordered

/-- The members of a region in order of first occurrence in the schedule. -/
def orderRegion (schedule region : List InstrId) : List InstrId :=
  schedule.foldl (takeMember region) []

/-- Rewrite one region, unless the schedule misses a member or no anchor ends the region. -/
def rewriteRegion (schedule : List InstrId) (bb : BasicBlock) (tr : Trail)
    (region : List InstrId × Option InstrId) : Trail :=
  let ordered := orderRegion schedule region.1
  if ordered.length ≠ region.1.length then tr
  else
    match region.2 with
    | none => tr
    | some boundary =>
        tr.commit (ordered.foldl (fun F i => F.moveBefore i bb boundary) tr.current)

def reorderBlockWithinRegions (schedule : List InstrId) (bb : BasicBlock) (tr : Trail) : Trail :=
  (collectRegions tr.current (tr.current.body bb) []).foldl (rewriteRegion schedule bb) tr

/-! ### Anchors -/

theorem isSchedulingAnchor_of_isPHI {I : Instruction} (h : I.isPHI = true) :
    isSchedulingAnchor I = true := by simp [isSchedulingAnchor, h]

theorem isSchedulingAnchor_of_isTerminator {I : Instruction} (h : I.isTerminator = true) :
    isSchedulingAnchor I = true := by simp [isSchedulingAnchor, h]

theorem isSchedulingAnchor_of_isEHPad {I : Instruction} (h : I.isEHPad = true) :
    isSchedulingAnchor I = true := by simp [isSchedulingAnchor, h]

theorem isPHI_of_not_anchor {I : Instruction} (h : isSchedulingAnchor I = false) :
    I.isPHI = false := by
  by_contra hphi
  rw [isSchedulingAnchor_of_isPHI (by simpa using hphi)] at h
  cases h

theorem isTerminator_of_not_anchor {I : Instruction} (h : isSchedulingAnchor I = false) :
    I.isTerminator = false := by
  by_contra hterm
  rw [isSchedulingAnchor_of_isTerminator (by simpa using hterm)] at h
  cases h

/-! ### The order a schedule gives to a region -/

/-- A region is a run of the block, and holds no anchor. -/
theorem mem_collectRegions {F : Function} {l current region : List InstrId} {b : Option InstrId}
    (hcur : ∀ i ∈ current, isSchedulingAnchor (F.instr i) = false)
    (h : (region, b) ∈ collectRegions F l current) :
    region <+ current ++ l ∧ ∀ i ∈ region, isSchedulingAnchor (F.instr i) = false := by
  induction l generalizing current with
  | nil =>
    rw [collectRegions] at h
    split at h
    · cases h
    · obtain ⟨rfl, rfl⟩ := Prod.mk.inj (List.mem_singleton.mp h)
      exact ⟨List.sublist_append_left _ _, hcur⟩
  | cons i rest ih =>
    rw [collectRegions] at h
    have hlater : (region, b) ∈ collectRegions F rest [] →
        region <+ current ++ i :: rest ∧ ∀ j ∈ region, isSchedulingAnchor (F.instr j) = false := by
      intro h
      obtain ⟨hsub, hj⟩ := ih (by simp) h
      exact ⟨(hsub.trans (List.sublist_cons_self i rest)).trans (List.sublist_append_right _ _), hj⟩
    split at h
    · -- an anchor: the region is the one it closes, or a later one
      split at h
      · exact hlater h
      · rcases List.mem_cons.mp h with heq | h
        · obtain ⟨rfl, rfl⟩ := Prod.mk.inj heq
          exact ⟨List.sublist_append_left _ _, hcur⟩
        · exact hlater h
    · rename_i hi
      have hcur' : ∀ k ∈ current ++ [i], isSchedulingAnchor (F.instr k) = false := by
        intro k hk
        rcases List.mem_append.mp hk with hk | hk
        · exact hcur k hk
        · rw [List.mem_singleton.mp hk]
          simpa using hi
      simpa using ih hcur' h

theorem orderRegion_spec (schedule region : List InstrId) :
    (orderRegion schedule region).Nodup ∧
      ∀ i, i ∈ orderRegion schedule region ↔ i ∈ schedule ∧ i ∈ region := by
  suffices hgen : ∀ (ordered : List InstrId), ordered.Nodup →
      (schedule.foldl (takeMember region) ordered).Nodup ∧
      ∀ i, i ∈ schedule.foldl (takeMember region) ordered ↔
          i ∈ ordered ∨ (i ∈ schedule ∧ i ∈ region) by
    simpa [orderRegion] using hgen [] List.nodup_nil
  induction schedule with
  | nil => intro ordered hnd; simpa using hnd
  | cons s rest ih =>
    intro ordered hnd
    rw [List.foldl_cons, takeMember]
    split
    · rename_i hs
      simp only [Bool.and_eq_true, List.contains_iff_mem, Bool.not_eq_true', ← Bool.not_eq_true] at hs
      have hnd' : (ordered ++ [s]).Nodup := by
        refine List.nodup_append.mpr ⟨hnd, List.nodup_singleton _, ?_⟩
        rintro x hx y hy rfl
        exact hs.2 (List.mem_singleton.mp hy ▸ hx)
      refine ⟨(ih _ hnd').1, fun i => ?_⟩
      rw [(ih _ hnd').2 i]
      simp only [List.mem_append, List.mem_cons, List.not_mem_nil, or_false]
      constructor
      · rintro ((h | rfl) | h)
        · exact .inl h
        · exact .inr ⟨.inl rfl, hs.1⟩
        · exact .inr ⟨.inr h.1, h.2⟩
      · rintro (h | ⟨rfl | h, hr⟩)
        · exact .inl (.inl h)
        · exact .inl (.inr rfl)
        · exact .inr ⟨h, hr⟩
    · rename_i hs
      simp only [Bool.and_eq_true, List.contains_iff_mem, Bool.not_eq_true', ← Bool.not_eq_true,
        not_and, not_not] at hs
      refine ⟨(ih _ hnd).1, fun i => ?_⟩
      rw [(ih _ hnd).2 i, List.mem_cons]
      constructor
      · rintro (h | h)
        · exact .inl h
        · exact .inr ⟨.inr h.1, h.2⟩
      · rintro (h | ⟨rfl | h, hr⟩)
        · exact .inl h
        · exact .inl (hs hr)
        · exact .inr ⟨h, hr⟩

/-- A region of the right length in the schedule's order is a rearrangement of the region. -/
theorem orderRegion_perm {schedule region : List InstrId}
    (hlen : (orderRegion schedule region).length = region.length) :
    orderRegion schedule region ~ region := by
  obtain ⟨hnd, hmem⟩ := orderRegion_spec schedule region
  exact (hnd.subperm fun i hi => ((hmem i).mp hi).2).perm_of_length_le hlen.ge

theorem orderRegion_length_eq {schedule region : List InstrId} (hnd : region.Nodup)
    (hsub : ∀ i ∈ region, i ∈ schedule) :
    (orderRegion schedule region).length = region.length := by
  obtain ⟨hnd', hmem⟩ := orderRegion_spec schedule region
  apply le_antisymm
  · exact (hnd'.subperm fun i hi => ((hmem i).mp hi).2).length_le
  · exact (hnd.subperm fun i hi => (hmem i).mpr ⟨hsub i hi, hi⟩).length_le

/-- A schedule with every non-anchor of a block covers its regions. -/
theorem orderRegion_covers {F : Function} {body schedule region : List InstrId}
    {boundary : Option InstrId} (hnd : body.Nodup)
    (hall : ∀ i ∈ body, isSchedulingAnchor (F.instr i) = false → i ∈ schedule)
    (h : (region, boundary) ∈ collectRegions F body []) :
    (orderRegion schedule region).length = region.length := by
  obtain ⟨hsub, hanchor⟩ := mem_collectRegions (by simp) h
  rw [List.nil_append] at hsub
  apply orderRegion_length_eq (hsub.nodup hnd)
  intro i hi
  exact hall i (hsub.subset hi) (hanchor i hi)

/-- A schedule without repetition orders a region by restriction. -/
theorem orderRegion_eq_filter {schedule : List InstrId} (region : List InstrId)
    (hnd : schedule.Nodup) :
    orderRegion schedule region = schedule.filter fun i => region.contains i := by
  suffices hgen : ∀ ordered : List InstrId, (∀ i ∈ schedule, i ∉ ordered) →
      schedule.foldl (takeMember region) ordered =
      ordered ++ schedule.filter fun i => region.contains i by
    simpa [orderRegion] using hgen [] (by simp)
  induction schedule with
  | nil => intro ordered _; simp
  | cons s rest ih =>
    intro ordered hdisj
    obtain ⟨hs, hnd⟩ := List.nodup_cons.mp hnd
    have hs' : ordered.contains s = false := by simpa using hdisj s List.mem_cons_self
    rw [List.foldl_cons, takeMember, hs', Bool.not_false, Bool.and_true]
    by_cases hr : region.contains s = true
    · rw [if_pos hr, ih hnd, List.filter_cons_of_pos hr, List.append_assoc, List.singleton_append]
      intro i hi hmem
      rcases List.mem_append.mp hmem with hmem | hmem
      · exact hdisj i (List.mem_cons_of_mem _ hi) hmem
      · exact hs (List.mem_singleton.mp hmem ▸ hi)
    · rw [if_neg hr, ih hnd _ fun i hi => hdisj i (List.mem_cons_of_mem _ hi),
        List.filter_cons_of_neg hr]

/-! ### Splicing -/

theorem insertBefore_append {i b : InstrId} {l₁ l₂ : List InstrId} (hb : b ∉ l₁) :
    insertBefore i b (l₁ ++ b :: l₂) = l₁ ++ i :: b :: l₂ := by
  induction l₁ with
  | nil => simp [insertBefore]
  | cons x xs ih =>
    obtain ⟨hx, hxs⟩ := List.ne_and_not_mem_of_not_mem_cons hb
    rw [List.cons_append, insertBefore, if_neg (Ne.symm hx), ih hxs, List.cons_append]

/-- Splicing the members of a run, in a new order, before the element that ends the run. -/
theorem foldl_splice (done : List InstrId) {pre ordered rest post : List InstrId} {b : InstrId}
    (hperm : ordered ~ rest) (hnd : (pre ++ rest ++ done ++ b :: post).Nodup) :
    ordered.foldl (fun l i => insertBefore i b (l.erase i)) (pre ++ rest ++ done ++ b :: post) =
      pre ++ done ++ ordered ++ b :: post := by
  induction ordered generalizing done rest with
  | nil =>
    obtain rfl := hperm.symm.eq_nil
    simp
  | cons i os ih =>
    obtain ⟨hi, hos⟩ := List.cons_perm_iff_perm_erase.mp hperm
    have hpre : i ∉ pre := by
      intro h
      rw [List.append_assoc, List.append_assoc] at hnd
      exact (List.nodup_append.mp hnd).2.2 i h i (List.mem_append_left _ hi) rfl
    have hb : b ∉ pre ++ rest.erase i ++ done := by
      intro h
      refine (List.nodup_append.mp hnd).2.2 b ?_ b List.mem_cons_self rfl
      simp only [List.mem_append] at h ⊢
      rcases h with (h | h) | h
      · exact .inl (.inl h)
      · exact .inl (.inr (List.mem_of_mem_erase h))
      · exact .inr h
    have hstep : insertBefore i b ((pre ++ rest ++ done ++ b :: post).erase i) =
        pre ++ rest.erase i ++ (done ++ [i]) ++ b :: post := by
      have herase : (pre ++ rest ++ done ++ b :: post).erase i =
          (pre ++ rest.erase i ++ done) ++ b :: post := by
        simp only [List.append_assoc]
        rw [List.erase_append_right _ hpre, List.erase_append_left _ hi]
      rw [herase, insertBefore_append hb]
      simp
    have hnd' : (pre ++ rest.erase i ++ (done ++ [i]) ++ b :: post).Nodup := by
      refine (List.Perm.nodup_iff ?_).mp hnd
      simp only [List.append_assoc]
      refine List.Perm.append_left pre ?_
      have h1 : rest ++ (done ++ b :: post) ~ (i :: rest.erase i) ++ (done ++ b :: post) :=
        (List.perm_cons_erase hi).append_right _
      refine h1.trans ?_
      rw [List.cons_append]
      refine (List.perm_middle.symm).trans ?_
      refine List.Perm.append_left _ ?_
      exact List.perm_middle.symm
    rw [List.foldl_cons, hstep, ih (done ++ [i]) hos hnd']
    simp

theorem foldl_moveBefore_body {F : Function} {bb : BasicBlock} {b : InstrId}
    {ordered : List InstrId} (hother : ∀ c, c ≠ bb → ∀ i ∈ ordered, i ∉ F.body c) :
    (ordered.foldl (fun F i => F.moveBefore i bb b) F) =
      { F with
        body := Function.update F.body bb
          (ordered.foldl (fun l i => insertBefore i b (l.erase i)) (F.body bb)) } := by
  induction ordered generalizing F with
  | nil => simp
  | cons i os ih =>
    have hbody : (F.moveBefore i bb b).body =
        Function.update F.body bb (insertBefore i b ((F.body bb).erase i)) := by
      funext c
      by_cases hc : c = bb
      · subst hc
        simp [Function.moveBefore]
      · rw [Function.update_of_ne hc]
        simp only [Function.moveBefore, if_neg hc]
        exact List.erase_of_not_mem (hother c hc i List.mem_cons_self)
    have hmove : F.moveBefore i bb b = { F with body := (F.moveBefore i bb b).body } := rfl
    rw [List.foldl_cons, hmove, hbody, ih]
    · simp
    · intro c hc j hj
      show j ∉ Function.update F.body bb (insertBefore i b ((F.body bb).erase i)) c
      rw [Function.update_of_ne hc]
      exact hother c hc j (List.mem_cons_of_mem _ hj)

/-- **Rewriting a region that an anchor ends** is one edit, or none if the schedule misses a member. -/
theorem rewriteRegion_eq {schedule : List InstrId} {bb : BasicBlock} {tr : Trail}
    {pre region post : List InstrId} {boundary : InstrId} (hnd : (tr.current.body bb).Nodup)
    (honce : ∀ c, c ≠ bb → ∀ i ∈ tr.current.body bb, i ∉ tr.current.body c)
    (hbody : tr.current.body bb = pre ++ region ++ boundary :: post) :
    rewriteRegion schedule bb tr (region, some boundary) =
      if (orderRegion schedule region).length = region.length then
        tr.commit { tr.current with
          body := Function.update tr.current.body bb
            (pre ++ orderRegion schedule region ++ boundary :: post) }
      else tr := by
  by_cases hlen : (orderRegion schedule region).length = region.length
  · have hperm := orderRegion_perm hlen
    have hsplice := foldl_splice [] hperm (by simpa [hbody] using hnd)
    simp only [List.append_nil] at hsplice
    simp only [rewriteRegion, hlen, ne_eq, not_true_eq_false, if_false, if_true]
    rw [foldl_moveBefore_body, hbody, hsplice]
    intro c hc i hi
    apply honce c hc
    rw [hbody]
    simp [hperm.mem_iff.mp hi]
  · rw [if_neg hlen, rewriteRegion, if_pos hlen]

end TraceScheduler
