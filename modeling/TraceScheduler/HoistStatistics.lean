import Mathlib.Data.List.Find
import TraceScheduler.RegionOrder
import TraceScheduler.SchedulerPass

/-!
# The hoist statistics

`applySchedule` is called once for each trace, and the counters run on from `resetHoistStats` to
`emitHoistStats`.  Every candidate has exactly one outcome (`hoistStep_accounts`), whatever the traces
and schedules are, so the counters always add up.

That `done` counts the instructions whose block changed needs more: the traces are disjoint and a
schedule lists an instruction once, so an instruction that has left its block has had its only turn
(`TurnInv`, `CallInv`).
-/

namespace TraceScheduler

open scoped List

/-! ### The outcome of one candidate -/

namespace HoistStats

/-- The candidates that stayed where they were. -/
def blocked (s : HoistStats) : ℕ :=
  s.blockedDominance + s.blockedLoop + s.blockedOperand + s.blockedUnsafe + s.blockedPressure

/-- From `s` to `s'` one instruction had its turn. -/
structure Accounts (s s' : HoistStats) (candidate moved : Bool) : Prop where
  candidates : s'.candidates = s.candidates + candidate.toNat
  done : s'.done = s.done + moved.toNat
  blocked : s'.blocked = s.blocked + (candidate && !moved).toNat

@[simp] theorem countBlocked_candidates (s : HoistStats) (r : BlockReason) :
    (s.countBlocked r).candidates = s.candidates := by
  cases r <;> rfl

@[simp] theorem countBlocked_done (s : HoistStats) (r : BlockReason) :
    (s.countBlocked r).done = s.done := by
  cases r <;> rfl

theorem countBlocked_blocked (s : HoistStats) {r : BlockReason} (hr : r ≠ .none) :
    (s.countBlocked r).blocked = s.blocked + 1 := by
  cases r with
  | none => exact absurd rfl hr
  | _ =>
    simp only [countBlocked, blocked]
    omega

end HoistStats

theorem BlockReason.rank_eq_zero {r : BlockReason} : r.rank = 0 ↔ r = .none := by
  cases r <;> simp [rank]

section

variable {G : FlowGraph BasicBlock} {ctx : HoistContext G} {st : HoistState} {i : InstrId}
  {origBB t : BasicBlock} {targets : List BasicBlock} {best r : BlockReason}

/-- A target that is rejected is rejected for a reason. -/
theorem rejectReason_ne_none : rejectReason ctx st i origBB t ≠ some .none := by
  intro h
  rw [rejectReason] at h
  split at h
  · cases h
  split at h
  · cases h
  split at h
  · cases h
  split at h
  · cases h
  split at h
  · cases h
  split at h
  · cases h
  split at h
  · cases h
  · cases h

theorem noteReason_ne_none (hstats : ctx.statsOn = true) (h : best ≠ .none ∨ r ≠ .none) :
    noteReason ctx best r ≠ .none := by
  rw [noteReason, hstats, Bool.true_and]
  split
  · rename_i hrank
    intro hr
    rw [BlockReason.rank_eq_zero.mpr hr] at hrank
    simp at hrank
  · rename_i hrank
    intro hbest
    rw [decide_eq_true_eq, BlockReason.rank_eq_zero.mpr hbest, gt_iff_lt, Nat.pos_iff_ne_zero,
      not_not, BlockReason.rank_eq_zero] at hrank
    exact h.elim (fun hne => hne hbest) fun hne => hne hrank

@[simp] theorem hoistTo_stats_eq : (hoistTo ctx st i t).stats = st.stats := by
  rw [hoistTo]
  split
  · rfl
  · rfl

variable (ctx st i origBB best) in
/-- What the target loop says about its result. -/
theorem tryTargets_spec (hstats : ctx.statsOn = true) (h : best ≠ .none ∨ targets ≠ []) :
    let found := targets.find? fun t => (rejectReason ctx st i origBB t).isNone
    let (st', moved, reason) := tryTargets ctx st i origBB targets best
    st'.stats = st.stats ∧ moved = found.isSome ∧ (moved = false → reason ≠ .none) := by
  induction targets generalizing best with
  | nil =>
    refine ⟨rfl, rfl, ?_⟩
    intro _
    exact h.resolve_right (fun hne => hne rfl)
  | cons t ts ih =>
    rw [tryTargets]
    cases hreject : rejectReason ctx st i origBB t with
    | none => simp [hreject]
    | some r =>
      have hr : r ≠ .none := by
        intro heq
        rw [heq] at hreject
        exact rejectReason_ne_none hreject
      have hnext := ih (noteReason ctx best r) (.inl (noteReason_ne_none hstats (.inr hr)))
      rw [List.find?_cons_of_neg (by simp [hreject])]
      exact hnext

/-- Where the block of an instruction before any move stands in the trace. -/
def originalIndex (ctx : HoistContext G) (st : HoistState) (i : InstrId) : Option ℕ :=
  ctx.trace.idxOf? ((ctx.originalBlock i).getD (st.trail.current.getParent i))

/-- Phase 2 has a block to try for the instruction. -/
def isCandidate (ctx : HoistContext G) (st : HoistState) (i : InstrId) : Bool :=
  (originalIndex ctx st i).any fun k => decide (0 < k)

/-- A candidate has a block to try. -/
theorem take_ne_nil {trace : List BasicBlock} {k : ℕ} (hidx : trace.idxOf? origBB = some k)
    (hk : 0 < k) : trace.take k ≠ [] := by
  have hmem : origBB ∈ trace := List.isSome_idxOf?.mp (by rw [hidx]; rfl)
  intro hnil
  rcases List.take_eq_nil_iff.mp hnil with hzero | hempty
  · omega
  · rw [hempty] at hmem
    cases hmem

variable (st i) in
/-- **Every candidate has one outcome.** -/
theorem hoistStep_accounts (hstats : ctx.statsOn = true) :
    st.stats.Accounts (hoistStep ctx st i).stats (isCandidate ctx st i)
      (chosenTarget ctx st i).isSome := by
  rw [hoistStep, chosenTarget, isCandidate, originalIndex]
  dsimp only
  generalize (ctx.originalBlock i).getD (st.trail.current.getParent i) = origBB
  cases hidx : ctx.trace.idxOf? origBB with
  | none => exact ⟨rfl, rfl, rfl⟩
  | some k =>
    rw [Option.any_some, hstats]
    simp only [Bool.true_and]
    by_cases hk : 0 < k
    · simp only [hk, decide_true, if_true]
      split
      · -- an anchor is a candidate that never moves
        refine ⟨rfl, rfl, ?_⟩
        simp only [HoistStats.blocked, Option.isSome_none, Bool.not_false, Bool.and_true,
          Bool.toNat_true]
        omega
      · have htargets := take_ne_nil hidx hk
        have hspec := tryTargets_spec ctx { st with stats.candidates := st.stats.candidates + 1 } i
          origBB .none hstats (.inr htargets)
        generalize tryTargets ctx { st with stats.candidates := st.stats.candidates + 1 } i origBB
          (ctx.trace.take k) .none = found at hspec ⊢
        obtain ⟨st', moved, reason⟩ := found
        obtain ⟨hstats', hmoved, hreason⟩ := hspec
        have hchosen : (List.find? (fun t => (rejectReason ctx st i origBB t).isNone)
            (ctx.trace.take k)).isSome = moved := hmoved.symm
        rw [hchosen]
        change st'.stats = { st.stats with candidates := st.stats.candidates + 1 } at hstats'
        cases moved with
        | true =>
          refine ⟨?_, ?_, ?_⟩
          · simp [hstats']
          · simp [hstats']
          · simp [hstats', HoistStats.blocked]
        | false =>
          refine ⟨?_, ?_, ?_⟩
          · simp [hstats']
          · simp [hstats']
          · have hone := HoistStats.countBlocked_blocked st'.stats (hreason rfl)
            simpa [hstats', HoistStats.blocked] using hone
    · simp only [gt_iff_lt, Nat.eq_zero_of_not_pos hk, Nat.lt_irrefl, decide_false,
        Bool.false_eq_true, if_false, List.take_zero, tryTargets, List.find?_nil, ite_self]
      exact ⟨rfl, rfl, rfl⟩

/-- What a chosen target is, whatever the function. -/
theorem chosenTarget_eq_some (h : chosenTarget ctx st i = some t) :
    ∃ k insertPoint, originalIndex ctx st i = some k ∧ t ∈ ctx.trace.take k ∧
      st.trail.current.isAnchor i = false ∧ st.trail.current.getTerminator t = some insertPoint := by
  rw [chosenTarget] at h
  split at h
  · cases h
  rename_i k hk
  split at h
  · cases h
  rename_i hanchor
  refine ⟨k, ?_⟩
  have haccepted := List.find?_some h
  cases hterm : st.trail.current.getTerminator t with
  | some insertPoint =>
    exact ⟨insertPoint, hk, List.mem_of_find?_eq_some h, by simpa using hanchor, rfl⟩
  | none =>
    rw [rejectReason] at haccepted
    simp only [hterm] at haccepted
    split at haccepted
    · cases haccepted
    split at haccepted
    · cases haccepted
    split at haccepted
    · cases haccepted
    · cases haccepted

/-- **The counters keep adding up.** -/
theorem hoistStep_balanced (hstats : ctx.statsOn = true)
    (h : st.stats.candidates = st.stats.done + st.stats.blocked) :
    (hoistStep ctx st i).stats.candidates =
      (hoistStep ctx st i).stats.done + (hoistStep ctx st i).stats.blocked := by
  have hacc := hoistStep_accounts st i hstats
  have hmoved : (chosenTarget ctx st i).isSome = true → isCandidate ctx st i = true := by
    intro hsome
    obtain ⟨t, ht⟩ := Option.isSome_iff_exists.mp hsome
    obtain ⟨k, _, hidx, hmem, _⟩ := chosenTarget_eq_some ht
    rw [isCandidate, hidx, Option.any_some, decide_eq_true_eq]
    have hlt := (List.mem_take_iff_idxOf_lt (List.mem_of_mem_take hmem)).mp hmem
    exact Nat.zero_lt_of_lt hlt
  rw [hacc.candidates, hacc.done, hacc.blocked, h]
  cases hm : (chosenTarget ctx st i).isSome with
  | true =>
    rw [hmoved hm]
    simp only [Bool.not_true, Bool.and_false, Bool.toNat_true, Bool.toNat_false]
    omega
  | false =>
    simp only [Bool.not_false, Bool.and_true, Bool.toNat_false]
    omega

theorem foldl_hoistStep_balanced (hstats : ctx.statsOn = true) {schedule : List InstrId}
    (h : st.stats.candidates = st.stats.done + st.stats.blocked) :
    (schedule.foldl (hoistStep ctx) st).stats.candidates =
      (schedule.foldl (hoistStep ctx) st).stats.done +
        (schedule.foldl (hoistStep ctx) st).stats.blocked := by
  induction schedule generalizing st with
  | nil => exact h
  | cons i schedule ih => exact ih (hoistStep_balanced hstats h)

/-- The unreachable branch: a candidate that stays has a reason. -/
theorem tryTargets_reason (hstats : ctx.statsOn = true) {k : ℕ}
    (hidx : ctx.trace.idxOf? origBB = some k) (hk : 0 < k)
    (hstays : (tryTargets ctx st i origBB (ctx.trace.take k) .none).2.1 = false) :
    (tryTargets ctx st i origBB (ctx.trace.take k) .none).2.2 ≠ .none := by
  have hspec := tryTargets_spec ctx st i origBB .none hstats (.inr (take_ne_nil hidx hk))
  generalize tryTargets ctx st i origBB (ctx.trace.take k) .none = found at hspec hstays ⊢
  obtain ⟨st', moved, reason⟩ := found
  exact hspec.2.2 hstays

end

/-! ### Where the instructions are -/

/-- `F'` has the instructions of `F` in its blocks, each in one of them. -/
structure Placed (F F' : Function) : Prop where
  instr : F'.instr = F.instr
  blocks : F'.blocks = F.blocks
  body_nodup : ∀ b, (F'.body b).Nodup
  body_unique : ∀ {i b b'}, i ∈ F'.body b → i ∈ F'.body b' → b = b'
  mem_blocks : ∀ {i b}, i ∈ F'.body b → b ∈ F.blocks
  exists_mem : ∀ {i b}, i ∈ F.body b → ∃ b', i ∈ F'.body b'

/-- The instructions whose block is no longer the one they started in. -/
def movedInstrs (F F' : Function) : Finset InstrId :=
  (F.blocks.flatMap F.body).toFinset.filter fun i => F'.getParent i ≠ F.getParent i

section

variable {F F' F'' : Function} {i x t : InstrId} {b c dst : BasicBlock}

theorem Function.WellFormed.placed (hwf : F.WellFormed) : Placed F F :=
  ⟨rfl, rfl, hwf.body_nodup, hwf.body_unique, hwf.mem_blocks, fun hi => ⟨_, hi⟩⟩

namespace Placed

theorem getParent_eq (h : Placed F F') (hi : i ∈ F'.body b) : F'.getParent i = b :=
  Function.getParent_of_mem (h.blocks ▸ h.mem_blocks hi) hi fun _ hi' => h.body_unique hi' hi

/-- Instructions may change places within their blocks. -/
theorem of_mem_iff (h : Placed F F') (hinstr : F''.instr = F'.instr)
    (hblocks : F''.blocks = F'.blocks) (hnd : ∀ b, (F''.body b).Nodup)
    (hmem : ∀ b i, i ∈ F''.body b ↔ i ∈ F'.body b) : Placed F F'' where
  instr := hinstr.trans h.instr
  blocks := hblocks.trans h.blocks
  body_nodup := hnd
  body_unique hb hb' := h.body_unique ((hmem _ _).mp hb) ((hmem _ _).mp hb')
  mem_blocks hb := h.mem_blocks ((hmem _ _).mp hb)
  exists_mem hb := by
    obtain ⟨b', hb'⟩ := h.exists_mem hb
    exact ⟨b', (hmem _ _).mpr hb'⟩

end Placed

theorem insertBefore_perm {l : List InstrId} (ht : t ∈ l) : insertBefore i t l ~ i :: l := by
  obtain ⟨l₁, l₂, hl, hnew⟩ := List.eq_append_cons_of_mem ht
  rw [hl, insertBefore_append hnew]
  exact List.perm_middle

/-- Only the instruction that moves changes its block. -/
theorem mem_moveBefore (hnd : ∀ b, (F.body b).Nodup) (ht : t ∈ F.body dst) (hne : t ≠ i) :
    x ∈ (F.moveBefore i dst t).body b ↔ (x ≠ i ∧ x ∈ F.body b) ∨ (x = i ∧ b = dst) := by
  rw [Function.moveBefore]
  dsimp only
  split
  · rename_i hb
    rw [(insertBefore_perm ((hnd b).mem_erase_iff.mpr ⟨hne, hb ▸ ht⟩)).mem_iff, List.mem_cons,
      (hnd b).mem_erase_iff]
    tauto
  · rename_i hb
    rw [(hnd b).mem_erase_iff]
    tauto

theorem Placed.moveBefore (h : Placed F F') (ht : t ∈ F'.body dst) (hne : t ≠ i) :
    Placed F (F'.moveBefore i dst t) := by
  have hmem : ∀ {x c}, x ∈ (F'.moveBefore i dst t).body c ↔
      (x ≠ i ∧ x ∈ F'.body c) ∨ (x = i ∧ c = dst) := mem_moveBefore h.body_nodup ht hne
  refine ⟨h.instr, h.blocks, ?_, ?_, ?_, ?_⟩
  · intro c
    rw [Function.moveBefore]
    dsimp only
    split
    · rename_i hc
      have hte : t ∈ (F'.body c).erase i := (h.body_nodup c).mem_erase_iff.mpr ⟨hne, hc ▸ ht⟩
      rw [(insertBefore_perm hte).nodup_iff]
      exact List.nodup_cons.mpr ⟨(h.body_nodup c).not_mem_erase, (h.body_nodup c).erase i⟩
    · exact (h.body_nodup c).erase i
  · intro x c c' hc hc'
    rcases hmem.mp hc with ⟨hx, hc⟩ | ⟨hx, rfl⟩
    · rcases hmem.mp hc' with ⟨_, hc'⟩ | ⟨hx', _⟩
      · exact h.body_unique hc hc'
      · exact absurd hx' hx
    · rcases hmem.mp hc' with ⟨hx', _⟩ | ⟨_, rfl⟩
      · exact absurd hx hx'
      · rfl
  · intro x c hc
    rcases hmem.mp hc with ⟨_, hc⟩ | ⟨_, rfl⟩
    · exact h.mem_blocks hc
    · exact h.mem_blocks ht
  · intro x c hc
    by_cases hx : x = i
    · exact ⟨dst, hmem.mpr (.inr ⟨hx, rfl⟩)⟩
    · obtain ⟨c', hc'⟩ := h.exists_mem hc
      exact ⟨c', hmem.mpr (.inl ⟨hx, hc'⟩)⟩

/-- An instruction that leaves its original block is one more that moved. -/
theorem card_movedInstrs_moveBefore (hwf : F.WellFormed) (h : Placed F F') (ht : t ∈ F'.body dst)
    (hne : t ≠ i) (hi : i ∈ F.body b) (hhome : i ∈ F'.body b) (hdst : dst ≠ b) :
    (movedInstrs F (F'.moveBefore i dst t)).card = (movedInstrs F F').card + 1 := by
  have hmem : ∀ {x c}, x ∈ (F'.moveBefore i dst t).body c ↔
      (x ≠ i ∧ x ∈ F'.body c) ∨ (x = i ∧ c = dst) := mem_moveBefore h.body_nodup ht hne
  have hplaced := h.moveBefore ht hne
  have hstays : i ∉ movedInstrs F F' := by
    rw [movedInstrs, Finset.mem_filter, hwf.getParent_eq hi, h.getParent_eq hhome]
    simp
  rw [← Finset.card_insert_of_notMem hstays]
  congr 1
  ext x
  rw [Finset.mem_insert, movedInstrs, movedInstrs, Finset.mem_filter, Finset.mem_filter]
  by_cases hx : x = i
  · rw [hx, hplaced.getParent_eq (hmem.mpr (.inr ⟨rfl, rfl⟩)), hwf.getParent_eq hi,
      List.mem_toFinset, hwf.mem_flatMap]
    simp only [true_or, iff_true]
    exact ⟨⟨b, hi⟩, hdst⟩
  · simp only [hx, false_or]
    apply and_congr_right
    intro hxF
    obtain ⟨c, hc⟩ := hwf.mem_flatMap.mp (List.mem_toFinset.mp hxF)
    obtain ⟨c', hc'⟩ := h.exists_mem hc
    rw [hplaced.getParent_eq (hmem.mpr (.inl ⟨hx, hc'⟩)), h.getParent_eq hc']

/-- Phase 1 keeps every instruction in its block. -/
theorem Placed.reorderBlockWithinRegions {tr : Trail} (h : Placed F tr.current)
    (schedule : List InstrId) (bb : BasicBlock) :
    Placed F (reorderBlockWithinRegions schedule bb tr).current ∧
      ∀ b i, i ∈ (TraceScheduler.reorderBlockWithinRegions schedule bb tr).current.body b ↔
        i ∈ tr.current.body b := by
  have hperm : mapRuns tr.current.isAnchor (scheduledRegion schedule) (tr.current.body bb) [] ~
      tr.current.body bb := mapRuns_perm scheduledRegion_perm _ _
  rw [reorderBlockWithinRegions_mapRuns (h.body_nodup bb)
    fun c hc i hi hi' => hc (h.body_unique hi' hi)]
  have hmem : ∀ b i, i ∈ Function.update tr.current.body bb
      (mapRuns tr.current.isAnchor (scheduledRegion schedule) (tr.current.body bb) []) b ↔
        i ∈ tr.current.body b := by
    intro b i
    by_cases hb : b = bb
    · rw [hb, Function.update_self, hperm.mem_iff]
    · rw [Function.update_of_ne hb]
  refine ⟨h.of_mem_iff rfl rfl ?_ hmem, hmem⟩
  intro b
  by_cases hb : b = bb
  · subst hb
    show List.Nodup (Function.update tr.current.body b _ b)
    rw [Function.update_self]
    exact hperm.nodup_iff.mpr (h.body_nodup b)
  · show List.Nodup (Function.update tr.current.body bb _ b)
    rw [Function.update_of_ne hb]
    exact h.body_nodup b

theorem Placed.reorderTrace {tr : Trail} (h : Placed F tr.current) (schedule : List InstrId)
    (trace : List BasicBlock) :
    Placed F (reorderTrace schedule trace tr).current ∧
      ∀ b i, i ∈ (TraceScheduler.reorderTrace schedule trace tr).current.body b ↔
        i ∈ tr.current.body b := by
  induction trace generalizing tr with
  | nil => exact ⟨h, fun _ _ => Iff.rfl⟩
  | cons bb trace ih =>
    obtain ⟨hplaced, hmem⟩ := h.reorderBlockWithinRegions schedule bb
    obtain ⟨hplaced', hmem'⟩ := ih hplaced
    exact ⟨hplaced', fun b i => (hmem' b i).trans (hmem b i)⟩

/-- The count depends on which block holds what. -/
theorem movedInstrs_congr (h : Placed F F') (h' : Placed F F'') (hwf : F.WellFormed)
    (hmem : ∀ b i, i ∈ F''.body b ↔ i ∈ F'.body b) : movedInstrs F F'' = movedInstrs F F' := by
  rw [movedInstrs, movedInstrs]
  apply Finset.filter_congr
  intro i hi
  obtain ⟨b, hb⟩ := hwf.mem_flatMap.mp (List.mem_toFinset.mp hi)
  obtain ⟨b', hb'⟩ := h.exists_mem hb
  rw [h.getParent_eq hb', h'.getParent_eq ((hmem b' i).mpr hb')]

end

/-! ### One turn -/

/-- Phase 2 on a trace of `F`, with the instructions whose turn has not come. -/
structure TurnInv (F : Function) (trace : List BasicBlock) (rest : List InstrId) (st : HoistState) :
    Prop where
  placed : Placed F st.trail.current
  pending : ∀ i ∈ rest, ∀ b ∈ trace, i ∈ st.trail.current.body b ↔ i ∈ F.body b
  done : st.stats.done = (movedInstrs F st.trail.current).card

section

variable {G : FlowGraph BasicBlock} {ctx : HoistContext G} {st : HoistState} {F : Function}
  {i : InstrId} {rest : List InstrId} {b t : BasicBlock}

theorem TurnInv.originalIndex_eq (hwf : F.WellFormed)
    (horig : ctx.originalBlock = originalBlockOf F ctx.trace)
    (h : TurnInv F ctx.trace (i :: rest) st) (hi : i ∈ F.body b) :
    originalIndex ctx st i = ctx.trace.idxOf? b := by
  rw [originalIndex, horig]
  by_cases hb : b ∈ ctx.trace
  · rw [originalBlockOf_eq hwf hi hb, Option.getD_some]
  · -- an instruction from elsewhere is still elsewhere
    have hnone : originalBlockOf F ctx.trace i = none := by
      rw [originalBlockOf, List.find?_eq_none]
      intro c hc hic
      have hic : i ∈ F.body c := by simpa using hic
      exact hb (hwf.body_unique hi hic ▸ hc)
    obtain ⟨c, hc⟩ := h.placed.exists_mem hi
    rw [hnone, Option.getD_none, h.placed.getParent_eq hc, List.idxOf?_eq_none_iff.mpr hb,
      List.idxOf?_eq_none_iff]
    intro hct
    have hic := (h.pending i List.mem_cons_self c hct).mp hc
    exact hb (hwf.body_unique hi hic ▸ hct)

theorem TurnInv.isCandidate_eq (hwf : F.WellFormed)
    (horig : ctx.originalBlock = originalBlockOf F ctx.trace)
    (h : TurnInv F ctx.trace (i :: rest) st) (hi : i ∈ F.body b) :
    isCandidate ctx st i =
      decide (F.getParent i ∈ ctx.trace ∧ 0 < ctx.trace.idxOf (F.getParent i)) := by
  rw [isCandidate, h.originalIndex_eq hwf horig hi, hwf.getParent_eq hi]
  by_cases hb : b ∈ ctx.trace
  · rw [idxOf?_eq_some hb, Option.any_some]
    simp [hb]
  · rw [List.idxOf?_eq_none_iff.mpr hb]
    simp [hb]

/-- A chosen target is an earlier block, and the move goes before its terminator. -/
theorem TurnInv.moveBefore (hwf : F.WellFormed)
    (horig : ctx.originalBlock = originalBlockOf F ctx.trace)
    (h : TurnInv F ctx.trace (i :: rest) st) (hi : i ∈ F.body b)
    (hchosen : chosenTarget ctx st i = some t) : b ∈ ctx.trace ∧ t ∈ ctx.trace ∧ t ≠ b ∧
      ∃ insertPoint ∈ st.trail.current.body t, insertPoint ≠ i ∧
        (hoistStep ctx st i).trail.current = st.trail.current.moveBefore i t insertPoint := by
  obtain ⟨k, insertPoint, hk, ht, hanchor, hterm⟩ := chosenTarget_eq_some hchosen
  have htrace : t ∈ ctx.trace := List.mem_of_mem_take ht
  have hlt := (List.mem_take_iff_idxOf_lt htrace).mp ht
  rw [h.originalIndex_eq hwf horig hi] at hk
  have hb : b ∈ ctx.trace := List.isSome_idxOf?.mp (by rw [hk]; rfl)
  rw [idxOf?_eq_some hb] at hk
  obtain ⟨hlast, hisTerm⟩ := Function.getTerminator_eq_some.mp hterm
  refine ⟨hb, htrace, ?_, insertPoint, List.mem_of_getLast? hlast, ?_, ?_⟩
  · intro heq
    rw [heq, Option.some.inj hk] at hlt
    exact Nat.lt_irrefl _ hlt
  · intro heq
    rw [heq, isTerminator_of_not_anchor hanchor] at hisTerm
    cases hisTerm
  · rw [hoistStep_trail, hchosen]
    show (hoistTo ctx st i t).trail.current = _
    rw [hoistTo]
    simp only [hterm]
    rfl

/-- **One turn.** -/
theorem TurnInv.hoistStep (hstats : ctx.statsOn = true) (hwf : F.WellFormed)
    (horig : ctx.originalBlock = originalBlockOf F ctx.trace)
    (h : TurnInv F ctx.trace (i :: rest) st) (hnd : (i :: rest).Nodup) (hi : i ∈ F.body b) :
    TurnInv F ctx.trace rest (hoistStep ctx st i) ∧
      (∀ c, c ∉ ctx.trace → ∀ x, x ∈ (TraceScheduler.hoistStep ctx st i).trail.current.body c ↔
        x ∈ st.trail.current.body c) ∧
      (TraceScheduler.hoistStep ctx st i).stats.candidates = st.stats.candidates +
        (decide (F.getParent i ∈ ctx.trace ∧ 0 < ctx.trace.idxOf (F.getParent i))).toNat := by
  have hacc := hoistStep_accounts st i hstats
  have hdone := hacc.done
  rw [← h.isCandidate_eq hwf horig hi]
  cases hchosen : chosenTarget ctx st i with
  | none =>
    have htrail := hoistStep_trail ctx st i
    rw [hchosen] at htrail hdone
    refine ⟨⟨htrail ▸ h.placed, ?_, ?_⟩, ?_, hacc.candidates⟩
    · rw [htrail]
      exact fun x hx => h.pending x (List.mem_cons_of_mem _ hx)
    · rw [htrail, hdone, h.done]
      rfl
    · rw [htrail]
      exact fun _ _ _ => Iff.rfl
  | some t =>
    obtain ⟨hb, htrace, htb, insertPoint, hmem, hne, htrail⟩ := h.moveBefore hwf horig hi hchosen
    have hhome : i ∈ st.trail.current.body b := (h.pending i List.mem_cons_self b hb).mpr hi
    have hmove : ∀ {x c}, x ∈ (st.trail.current.moveBefore i t insertPoint).body c ↔
        (x ≠ i ∧ x ∈ st.trail.current.body c) ∨ (x = i ∧ c = t) :=
      mem_moveBefore h.placed.body_nodup hmem hne
    rw [hchosen] at hdone
    refine ⟨⟨?_, ?_, ?_⟩, ?_, hacc.candidates⟩
    · rw [htrail]
      exact h.placed.moveBefore hmem hne
    · intro x hx c hc
      have hxi : x ≠ i := fun heq => (List.nodup_cons.mp hnd).1 (heq ▸ hx)
      rw [htrail, hmove, ← h.pending x (List.mem_cons_of_mem _ hx) c hc]
      simp [hxi]
    · rw [htrail, card_movedInstrs_moveBefore hwf h.placed hmem hne hi hhome htb, hdone, h.done]
      rfl
    · intro c hc x
      have hct : c ≠ t := fun heq => hc (heq ▸ htrace)
      have hxi : x ∈ st.trail.current.body c → x ≠ i := by
        intro hx heq
        exact hc (h.placed.body_unique (heq ▸ hx) hhome ▸ hb)
      rw [htrail, hmove]
      constructor
      · rintro (⟨_, hx⟩ | ⟨_, heq⟩)
        · exact hx
        · exact absurd heq hct
      · intro hx
        exact .inl ⟨hxi hx, hx⟩

/-- **All turns of a schedule.** -/
theorem TurnInv.run (hstats : ctx.statsOn = true) (hwf : F.WellFormed)
    (horig : ctx.originalBlock = originalBlockOf F ctx.trace) {schedule : List InstrId}
    (h : TurnInv F ctx.trace schedule st) (hnd : schedule.Nodup)
    (hin : ∀ i ∈ schedule, ∃ b, i ∈ F.body b) :
    let st' := schedule.foldl (TraceScheduler.hoistStep ctx) st
    TurnInv F ctx.trace [] st' ∧
      (∀ c, c ∉ ctx.trace → ∀ x, x ∈ st'.trail.current.body c ↔ x ∈ st.trail.current.body c) ∧
      st'.stats.candidates = st.stats.candidates + schedule.countP fun i =>
        F.getParent i ∈ ctx.trace ∧ 0 < ctx.trace.idxOf (F.getParent i) := by
  induction schedule generalizing st with
  | nil => exact ⟨h, fun _ _ _ => Iff.rfl, rfl⟩
  | cons i schedule ih =>
    obtain ⟨b, hi⟩ := hin i List.mem_cons_self
    obtain ⟨hnext, hout, hcount⟩ := h.hoistStep hstats hwf horig hnd hi
    obtain ⟨hend, hout', hcount'⟩ := ih hnext (List.nodup_cons.mp hnd).2
      fun j hj => hin j (List.mem_cons_of_mem _ hj)
    refine ⟨hend, fun c hc x => (hout' c hc x).trans (hout c hc x), ?_⟩
    rw [List.foldl_cons, hcount', hcount, List.countP_cons]
    by_cases hcand : F.getParent i ∈ ctx.trace ∧ 0 < ctx.trace.idxOf (F.getParent i)
    · simp only [hcand, and_self, decide_true, Bool.toNat_true, if_true]
      omega
    · simp only [hcand, decide_false, Bool.toNat_false, Bool.false_eq_true, if_false]
      omega

end

/-! ### All calls -/

/-- One call of `applySchedule`. -/
structure ScheduleCall where
  schedule : List InstrId
  trace : List BasicBlock

/-- The scheduled instructions of `F` with an earlier block in the trace to go to. -/
def ScheduleCall.candidates (F : Function) (call : ScheduleCall) : ℕ :=
  call.schedule.countP fun i =>
    F.getParent i ∈ call.trace ∧ 0 < call.trace.idxOf (F.getParent i)

def resetHoistStats : HoistStats := ⟨0, 0, 0, 0, 0, 0, 0⟩

section

variable {G : FlowGraph BasicBlock} (A : Analyses G) (universeIndex : Value → Option ℕ)
  (liveness : LivenessResult) (usePressure : Bool) (pressureBudget : ℤ) (statsOn : Bool)

/-- A call on what the earlier ones left. -/
def applyCall (acc : Trail × HoistStats) (call : ScheduleCall) : Trail × HoistStats :=
  let r := applySchedule A universeIndex liveness usePressure pressureBudget statsOn call.schedule
    call.trace acc.1 acc.2
  (r.trail, r.stats)

/-- All calls for a function, from `resetHoistStats` on. -/
def applySchedules (F : Function) (calls : List ScheduleCall) : Trail × HoistStats :=
  calls.foldl (applyCall A universeIndex liveness usePressure pressureBudget statsOn)
    (Trail.start F, resetHoistStats)

end

section

variable {G : FlowGraph BasicBlock} {A : Analyses G} {universeIndex : Value → Option ℕ}
  {liveness : LivenessResult} {usePressure : Bool} {pressureBudget : ℤ} {F : Function}
  {acc : Trail × HoistStats} {call : ScheduleCall} {calls : List ScheduleCall}

/-- The counters of every call add up, whatever its trace and schedule are. -/
theorem applyCall_balanced (h : acc.2.candidates = acc.2.done + acc.2.blocked) :
    let acc' := applyCall A universeIndex liveness usePressure pressureBudget true acc call
    acc'.2.candidates = acc'.2.done + acc'.2.blocked := by
  exact foldl_hoistStep_balanced rfl h

/-- Between two calls; the blocks in `todo` are still to be scheduled. -/
structure CallInv (F : Function) (todo : List BasicBlock) (acc : Trail × HoistStats) : Prop where
  placed : Placed F acc.1.current
  pending : ∀ b ∈ todo, ∀ i, i ∈ acc.1.current.body b ↔ i ∈ F.body b
  done : acc.2.done = (movedInstrs F acc.1.current).card

variable (A universeIndex liveness usePressure pressureBudget) in
/-- **One call.** -/
theorem CallInv.applyCall (hwf : F.WellFormed) {todo : List BasicBlock}
    (h : CallInv F (call.trace ++ todo) acc) (hdisj : (call.trace ++ todo).Nodup)
    (hnd : call.schedule.Nodup) (hin : ∀ i ∈ call.schedule, ∃ b, i ∈ F.body b) :
    let acc' := applyCall A universeIndex liveness usePressure pressureBudget true acc call
    CallInv F todo acc' ∧ acc'.2.candidates = acc.2.candidates + call.candidates F := by
  intro acc'
  set ctx := hoistContext A universeIndex liveness usePressure pressureBudget true acc.1.current
    call.trace with hctx
  obtain ⟨hplaced, hmem⟩ := h.placed.reorderTrace call.schedule call.trace
  have htrace : ∀ b ∈ call.trace, ∀ i, i ∈ acc.1.current.body b ↔ i ∈ F.body b :=
    fun b hb => h.pending b (List.mem_append_left _ hb)
  have horig : ctx.originalBlock = originalBlockOf F ctx.trace := by
    funext i
    show originalBlockOf acc.1.current call.trace i = originalBlockOf F call.trace i
    rw [originalBlockOf, originalBlockOf]
    apply List.find?_congr
    intro b hb
    rw [Bool.eq_iff_iff, List.contains_iff_mem, List.contains_iff_mem]
    exact htrace b hb i
  have hturn : TurnInv F ctx.trace call.schedule
      ⟨reorderTrace call.schedule call.trace acc.1, fun bb => (liveness bb).inSet, acc.2⟩ := by
    refine ⟨hplaced, fun i _ b hb => (hmem b i).trans (htrace b hb i), ?_⟩
    rw [movedInstrs_congr h.placed hplaced hwf hmem]
    exact h.done
  obtain ⟨hend, hout, hcount⟩ := hturn.run rfl hwf horig hnd hin
  refine ⟨⟨hend.placed, ?_, hend.done⟩, hcount⟩
  intro b hb i
  have hnot : b ∉ call.trace := fun hb' => (List.nodup_append.mp hdisj).2.2 b hb' b hb rfl
  exact ((hout b hnot i).trans (hmem b i)).trans (h.pending b (List.mem_append_right _ hb) i)

/-- What the callers promise: disjoint traces, and schedules that list instructions of the function,
each of them once. -/
structure CallsOk (F : Function) (calls : List ScheduleCall) : Prop where
  disjoint : (calls.flatMap ScheduleCall.trace).Nodup
  nodup : ∀ call ∈ calls, call.schedule.Nodup
  mem : ∀ call ∈ calls, ∀ i ∈ call.schedule, ∃ b, i ∈ F.body b

theorem CallInv.run (hwf : F.WellFormed)
    (h : CallInv F (calls.flatMap ScheduleCall.trace) acc) (hok : CallsOk F calls) :
    let acc' := calls.foldl
      (TraceScheduler.applyCall A universeIndex liveness usePressure pressureBudget true) acc
    CallInv F [] acc' ∧
      acc'.2.candidates = acc.2.candidates + (calls.map (ScheduleCall.candidates F)).sum := by
  induction calls generalizing acc with
  | nil => exact ⟨h, rfl⟩
  | cons call calls ih =>
    have hdisj := hok.disjoint
    rw [List.flatMap_cons] at h hdisj
    obtain ⟨hnext, hcount⟩ := CallInv.applyCall A universeIndex liveness usePressure
      pressureBudget hwf h hdisj (hok.nodup call List.mem_cons_self) (hok.mem call List.mem_cons_self)
    obtain ⟨hend, hcount'⟩ := ih hnext
      ⟨(List.nodup_append.mp hdisj).2.1, fun c hc => hok.nodup c (List.mem_cons_of_mem _ hc),
        fun c hc => hok.mem c (List.mem_cons_of_mem _ hc)⟩
    refine ⟨hend, ?_⟩
    rw [List.foldl_cons, hcount', hcount, List.map_cons, List.sum_cons, Nat.add_assoc]

theorem applySchedules_balanced (h : acc.2.candidates = acc.2.done + acc.2.blocked) :
    let acc' := calls.foldl
      (applyCall A universeIndex liveness usePressure pressureBudget true) acc
    acc'.2.candidates = acc'.2.done + acc'.2.blocked := by
  induction calls generalizing acc with
  | nil => exact h
  | cons call calls ih => exact ih (applyCall_balanced h)

end

/-! ### The calls of the pass -/

section

variable {F : Function} {A : Analyses F.cfg} {universeIndex : Value → Option ℕ}
  {livenessResult : LivenessResult} {usePressure statsOn : Bool} {pressureBudget : ℤ}
  {todo : List (List BasicBlock)} {ddgs : List DDG} {st st' : PassState}

/-- A run over the traces is a series of calls, one for each trace. -/
theorem foldlM_scheduleTrace_calls (hwf : F.WellFormed) (hnd : ∀ trace ∈ todo, trace.Nodup)
    (hddgs : (todo.map (buildDDG F)).mapM DDG.computeCriticalPath = some ddgs)
    (hrun : (ddgs.zip todo).foldlM (scheduleTrace A universeIndex livenessResult usePressure
      pressureBudget statsOn) st = some st') :
    ∃ calls : List ScheduleCall, calls.map ScheduleCall.trace = todo ∧
      (∀ call ∈ calls, call.schedule.Nodup ∧ ∀ i ∈ call.schedule, ∃ b, i ∈ F.body b) ∧
      (st'.trail, st'.hoistStats) = calls.foldl (applyCall A universeIndex livenessResult
        usePressure pressureBudget statsOn) (st.trail, st.hoistStats) := by
  induction todo generalizing ddgs st with
  | nil =>
    simp only [List.zip_nil_right, List.foldlM_nil] at hrun
    obtain rfl := Option.some.inj hrun
    exact ⟨[], rfl, fun _ h => absurd h List.not_mem_nil, rfl⟩
  | cons trace todo ih =>
    rw [List.map_cons, List.mapM_cons] at hddgs
    simp only [Option.bind_eq_bind, Option.bind_eq_some_iff] at hddgs
    obtain ⟨ddg, hddg, ddgs', hddgs', hcons⟩ := hddgs
    obtain rfl := Option.some.inj hcons
    rw [List.zip_cons_cons, List.foldlM_cons] at hrun
    cases trace with
    | nil => cases hrun
    | cons firstBB rest =>
      obtain ⟨ddg', schedule, peak', hddg', hlist, hsched⟩ := listSchedule_exists st.trail.current
        (traceNodes_nodup hwf (hnd _ List.mem_cons_self)) universeIndex livenessResult
        (livenessResult firstBB).inSet usePressure statsOn st.peakLivePressure
      obtain rfl := Option.some.inj (hddg.symm.trans hddg')
      simp only [scheduleTrace, List.head?_cons, Option.bind_eq_bind, Option.bind_some, hlist] at hrun
      obtain ⟨calls, htraces, hok, hcalls⟩ := ih (fun t ht => hnd t (List.mem_cons_of_mem _ ht))
        hddgs' hrun
      refine ⟨⟨schedule, firstBB :: rest⟩ :: calls, by rw [List.map_cons, htraces], ?_, hcalls⟩
      intro call hcall
      rcases List.mem_cons.mp hcall with rfl | hcall
      · refine ⟨hsched.nodup, fun i hi => ?_⟩
        have hnode := ((hsched.mem_iff i).mp hi).1
        rw [buildDDG_nodes] at hnode
        obtain ⟨bb, _, hmem, _⟩ := mem_traceNodes.mp hnode
        exact ⟨bb, hmem⟩
      · exact hok call hcall

/-- **The pass keeps the promise.** -/
theorem globalSchedulerPass_calls (hwf : F.WellFormed) {env : SchedEnv} {profile : Profile}
    (hrun : globalSchedulerPass usePressure env F profile A = some st) :
    ∃ universeIndex livenessResult calls, CallsOk F calls ∧ (st.trail, st.hoistStats) =
      applySchedules A universeIndex livenessResult usePressure (getPressureBudget env)
        (schedStatsEnabled env) F calls := by
  obtain ⟨bfsOrder, traces, hsearch, htraces, hpart⟩ := identifyTraces_spec
    hwf.cfgConsistent profile (getTraceThreshold env) (schedStatsEnabled env)
  rw [globalSchedulerPass] at hrun
  simp only [Option.bind_eq_bind, htraces, Option.bind_some, Option.bind_eq_some_iff] at hrun
  obtain ⟨livenessResult, _, ddgs, hddgs, hrun⟩ := hrun
  have hnd : ∀ trace ∈ traces.traces, trace.Nodup := fun t ht => (hpart.isTrace t ht).nodup
  obtain ⟨calls, hmap, hok, hcalls⟩ := foldlM_scheduleTrace_calls hwf hnd hddgs hrun
  refine ⟨_, _, calls, ⟨?_, fun c hc => (hok c hc).1, fun c hc => (hok c hc).2⟩, hcalls⟩
  rw [List.flatMap_def, hmap]
  exact hpart.nodup

end

/-- **Hoist statistics conserve candidates.** The counters add up after any calls, since a candidate
that stays always has a reason.  With disjoint traces and schedules that list an instruction of the
function once, `done` counts the instructions whose block changed, and `candidates` the scheduled ones whose
original block is not the first of the trace; the calls of the pass are such. -/
theorem applySchedules_hoistStats (F : Function) (A : Analyses F.cfg)
    (universeIndex : Value → Option ℕ) (liveness : LivenessResult) (usePressure : Bool)
    (pressureBudget : ℤ) (calls : List ScheduleCall) :
    let r := applySchedules A universeIndex liveness usePressure pressureBudget true F calls
    r.2.candidates = r.2.done + (r.2.blockedDominance + r.2.blockedLoop + r.2.blockedOperand +
      r.2.blockedUnsafe + r.2.blockedPressure) ∧
    (∀ (ctx : HoistContext F.cfg) st i origBB k, ctx.statsOn = true →
      ctx.trace.idxOf? origBB = some k → 0 < k →
      (tryTargets ctx st i origBB (ctx.trace.take k) .none).2.1 = false →
      (tryTargets ctx st i origBB (ctx.trace.take k) .none).2.2 ≠ .none) ∧
    (F.WellFormed → CallsOk F calls → r.2.done = (movedInstrs F r.1.current).card ∧
      r.2.candidates = (calls.map (ScheduleCall.candidates F)).sum) ∧
    ∀ env profile st, F.WellFormed → globalSchedulerPass usePressure env F profile A = some st →
      ∃ universeIndex livenessResult calls, CallsOk F calls ∧ (st.trail, st.hoistStats) =
        applySchedules A universeIndex livenessResult usePressure (getPressureBudget env)
          (schedStatsEnabled env) F calls := by
  intro r
  refine ⟨applySchedules_balanced rfl, ?_, ?_, ?_⟩
  · intro ctx st i origBB k hstats hidx hk hstays
    exact tryTargets_reason hstats hidx hk hstays
  · intro hwf hok
    have hinit : CallInv F (calls.flatMap ScheduleCall.trace) (Trail.start F, resetHoistStats) := by
      refine ⟨hwf.placed, fun _ _ _ => Iff.rfl, ?_⟩
      simp [movedInstrs, Trail.start, resetHoistStats]
    obtain ⟨hend, hcount⟩ := hinit.run hwf hok
    refine ⟨hend.done, hcount.trans ?_⟩
    exact Nat.zero_add _
  · intro env profile st hwf hrun
    exact globalSchedulerPass_calls hwf hrun

/-- Instruction `2` is the one candidate of the trace. -/
theorem twoBlocks_hoistStats :
    let calls : List ScheduleCall := [⟨[0, 2], [0, 1]⟩]
    let r := applySchedules twoBlocksAnalyses (fun _ => none) (fun _ => ⟨∅, ∅, ∅, ∅⟩) false 12 true
      twoBlocks calls
    CallsOk twoBlocks calls ∧ r.2.candidates = 1 ∧
      r.2.done = (movedInstrs twoBlocks r.1.current).card := by
  have hok : CallsOk twoBlocks [⟨[0, 2], [0, 1]⟩] := by
    refine ⟨by decide, by decide, ?_⟩
    intro call hcall i hi
    rw [List.mem_singleton.mp hcall] at hi
    rcases List.mem_cons.mp hi with rfl | hi
    · exact ⟨0, by decide⟩
    · rw [List.mem_singleton.mp hi]
      exact ⟨1, by decide⟩
  obtain ⟨_, _, hexact, _⟩ := applySchedules_hoistStats twoBlocks twoBlocksAnalyses (fun _ => none)
    (fun _ => ⟨∅, ∅, ∅, ∅⟩) false 12 [⟨[0, 2], [0, 1]⟩]
  obtain ⟨hdone, hcandidates⟩ := hexact twoBlocks_wellFormed hok
  exact ⟨hok, hcandidates, hdone⟩

end TraceScheduler
