import TraceScheduler.Library.Segments
import TraceScheduler.ScheduleLegality
import Mathlib.Logic.Relation

/-!
# Legal code motion

What the scheduler is for, without its heuristics: a `Motion` is one edit that a correct scheduler
may make.  There are two.

* `reorder`: a run of non-anchors, inside one block and followed by some instruction, is rearranged
  so that operands still come before their users;
* `hoist`: a non-anchor leaves a reachable block for the end of another block that dominates it and
  in which all its operands are available; `P i src dst` is whatever else the move needs.

Each edit keeps the control-flow graph, the structural rules, the dominance condition of SSA form and
the anchors of every block (`Motion.cfg_eq`, `Motion.wellFormed`, `Motion.ssa`, `Motion.aligned`);
`Motions` lifts these to runs of edits.  The passes refine this model: every function they go through
is reached by motions.
-/

namespace TraceScheduler

open scoped List

/-- One legal edit. -/
inductive Motion (P : InstrId → BasicBlock → BasicBlock → Prop) : Function → Function → Prop
  | reorder {F : Function} {bb : BasicBlock} {pre region ordered post : List InstrId}
      {boundary : InstrId} (hbody : F.body bb = pre ++ region ++ boundary :: post)
      (hperm : ordered ~ region) (hregion : ∀ i ∈ region, F.isAnchor i = false)
      (hdeps : ∀ u ∈ ordered, ∀ d ∈ ordered, F.Uses u d → [d, u] <+ ordered) :
      Motion P F { F with
        body := Function.update F.body bb (pre ++ ordered ++ boundary :: post) }
  | hoist {F : Function} {src dst : BasicBlock} {pre post l : List InstrId} {i t : InstrId}
      (hsrc : F.body src = pre ++ i :: post) (hdst : F.body dst = l ++ [t])
      (hterm : (F.instr t).isTerminator = true) (hne : dst ≠ src)
      (hreach : F.cfg.Reachable src) (hdom : F.cfg.Dominates dst src)
      (hanchor : F.isAnchor i = false) (hops : ∀ d, F.Uses i d → F.InstDominates d t)
      (hP : P i src dst) :
      Motion P F { F with
        body := Function.update (Function.update F.body src (pre ++ post)) dst (l ++ [i, t]) }

/-- Any number of legal edits. -/
abbrev Motions (P : InstrId → BasicBlock → BasicBlock → Prop) : Function → Function → Prop :=
  Relation.ReflTransGen (Motion P)

/-- The edits never touch anything but the placement. -/
structure SameCode (F F' : Function) : Prop where
  numArgs : F'.numArgs = F.numArgs
  entry : F'.entry = F.entry
  otherBlocks : F'.otherBlocks = F.otherBlocks
  instr : F'.instr = F.instr
  preds : F'.preds = F.preds

/-- `r'` holds nothing that `r` does not hold, instructions that satisfy `safe` excepted. -/
def GainsOnly (safe : InstrId → Prop) (r r' : List InstrId) : Prop := ∀ i ∈ r', i ∈ r ∨ safe i

theorem GainsOnly.refl {safe : InstrId → Prop} (r : List InstrId) : GainsOnly safe r r :=
  fun _ hi => .inl hi

theorem GainsOnly.trans {safe : InstrId → Prop} {r s t : List InstrId} (hrs : GainsOnly safe r s)
    (hst : GainsOnly safe s t) : GainsOnly safe r t := by
  intro i hi
  rcases hst i hi with hi | hi
  · exact hrs i hi
  · exact .inr hi

theorem SameCode.refl (F : Function) : SameCode F F := ⟨rfl, rfl, rfl, rfl, rfl⟩

theorem SameCode.trans {F₁ F₂ F₃ : Function} (h : SameCode F₁ F₂) (h' : SameCode F₂ F₃) :
    SameCode F₁ F₃ :=
  ⟨h'.numArgs.trans h.numArgs, h'.entry.trans h.entry, h'.otherBlocks.trans h.otherBlocks,
    h'.instr.trans h.instr, h'.preds.trans h.preds⟩

theorem SameCode.blocks {F F' : Function} (h : SameCode F F') : F'.blocks = F.blocks := by
  rw [Function.blocks, Function.blocks, h.entry, h.otherBlocks]

variable {P : InstrId → BasicBlock → BasicBlock → Prop} {F F' : Function}

namespace Motion

theorem mono {P' : InstrId → BasicBlock → BasicBlock → Prop}
    (hP : ∀ i src dst, P i src dst → P' i src dst) (h : Motion P F F') : Motion P' F F' := by
  cases h with
  | reorder hbody hperm hregion hdeps => exact .reorder hbody hperm hregion hdeps
  | hoist hsrc hdst hterm hne hreach hdom hanchor hops hPi =>
    exact .hoist hsrc hdst hterm hne hreach hdom hanchor hops (hP _ _ _ hPi)

theorem sameCode (h : Motion P F F') : SameCode F F' := by
  cases h with
  | reorder => exact ⟨rfl, rfl, rfl, rfl, rfl⟩
  | hoist => exact ⟨rfl, rfl, rfl, rfl, rfl⟩

/-! ### Where an instruction is after an edit -/

theorem mem_reorder {bb b : BasicBlock} {pre region ordered post : List InstrId}
    {boundary i : InstrId} (hbody : F.body bb = pre ++ region ++ boundary :: post)
    (hperm : ordered ~ region) :
    i ∈ Function.update F.body bb (pre ++ ordered ++ boundary :: post) b ↔ i ∈ F.body b := by
  by_cases hb : b = bb
  · subst hb
    rw [Function.update_self, hbody]
    simp only [List.mem_append, hperm.mem_iff]
  · rw [Function.update_of_ne hb]

theorem mem_hoist {src dst b : BasicBlock} {pre post l : List InstrId} {i j t : InstrId}
    (hwf : F.WellFormed) (hsrc : F.body src = pre ++ i :: post) (hdst : F.body dst = l ++ [t])
    (hne : dst ≠ src) :
    j ∈ Function.update (Function.update F.body src (pre ++ post)) dst (l ++ [i, t]) b ↔
      (j ≠ i ∧ j ∈ F.body b) ∨ (j = i ∧ b = dst) := by
  have hi : i ∈ F.body src := by rw [hsrc]; simp
  have hidst : i ∉ F.body dst := hwf.not_mem_of_ne hi hne
  by_cases hbd : b = dst
  · subst hbd
    rw [Function.update_self, hdst]
    rw [hdst] at hidst
    simp only [List.mem_append, List.mem_cons, List.not_mem_nil, or_false] at hidst ⊢
    constructor
    · rintro (hj | rfl | rfl)
      · exact .inl ⟨fun he => hidst (.inl (he ▸ hj)), .inl hj⟩
      · exact .inr ⟨rfl, trivial⟩
      · exact .inl ⟨fun he => hidst (.inr he.symm), .inr rfl⟩
    · rintro (⟨_, hj | rfl⟩ | ⟨rfl, _⟩)
      · exact .inl hj
      · exact .inr (.inr rfl)
      · exact .inr (.inl rfl)
  · rw [Function.update_of_ne hbd]
    by_cases hbs : b = src
    · subst hbs
      have hnd := hwf.body_nodup b
      rw [hsrc] at hnd
      have hipre : i ∉ pre ++ post := (List.nodup_middle.mp hnd).notMem
      rw [Function.update_self, hsrc]
      simp only [List.mem_append, List.mem_cons] at hipre ⊢
      constructor
      · rintro (hj | hj)
        · exact .inl ⟨fun he => hipre (.inl (he ▸ hj)), .inl hj⟩
        · exact .inl ⟨fun he => hipre (.inr (he ▸ hj)), .inr (.inr hj)⟩
      · rintro (⟨hji, hj | rfl | hj⟩ | ⟨_, hb⟩)
        · exact .inl hj
        · exact absurd rfl hji
        · exact .inr hj
        · exact absurd hb hbd
    · rw [Function.update_of_ne hbs]
      constructor
      · intro hj
        exact .inl ⟨fun he => hwf.not_mem_of_ne hi hbs (he ▸ hj), hj⟩
      · rintro (⟨_, hj⟩ | ⟨_, hb⟩)
        · exact hj
        · exact absurd hb hbd

/-- An instruction is in the function after a motion only if it was there before. -/
theorem exists_mem (hwf : F.WellFormed) (h : Motion P F F') {j : InstrId} :
    (∃ b, j ∈ F'.body b) ↔ ∃ b, j ∈ F.body b := by
  cases h with
  | reorder hbody hperm _ _ =>
    exact exists_congr fun b => mem_reorder hbody hperm
  | @hoist src dst _ _ _ i t hsrc hdst _ hne _ _ _ _ _ =>
    constructor
    · rintro ⟨b, hj⟩
      rcases (mem_hoist hwf hsrc hdst hne).mp hj with ⟨_, hj⟩ | ⟨rfl, _⟩
      · exact ⟨b, hj⟩
      · exact ⟨src, by rw [hsrc]; simp⟩
    · rintro ⟨b, hj⟩
      by_cases hji : j = i
      · exact ⟨dst, (mem_hoist hwf hsrc hdst hne).mpr (.inr ⟨hji, rfl⟩)⟩
      · exact ⟨b, (mem_hoist hwf hsrc hdst hne).mpr (.inl ⟨hji, hj⟩)⟩

/-- Only the hoisted instruction changes its block, and it is no anchor. -/
theorem mem_of_anchor (hwf : F.WellFormed) (h : Motion P F F') {j : InstrId} {b : BasicBlock}
    (hj : F.isAnchor j = true) : j ∈ F'.body b ↔ j ∈ F.body b := by
  cases h with
  | reorder hbody hperm _ _ => exact mem_reorder hbody hperm
  | @hoist src dst _ _ _ i t hsrc hdst _ hne _ _ hanchor _ _ =>
    have hji : j ≠ i := by
      intro heq
      subst heq
      rw [hanchor] at hj
      cases hj
    constructor
    · intro hmem
      rcases (mem_hoist hwf hsrc hdst hne).mp hmem with ⟨_, h⟩ | ⟨h, _⟩
      · exact h
      · exact absurd h hji
    · intro hmem
      exact (mem_hoist hwf hsrc hdst hne).mpr (.inl ⟨hji, hmem⟩)

/-! ### The control-flow graph -/

theorem getLast?_body (hwf : F.WellFormed) (h : Motion P F F') (b : BasicBlock) :
    (F'.body b).getLast? = (F.body b).getLast? := by
  cases h with
  | @reorder bb pre region ordered post boundary hbody _ _ _ =>
    show (Function.update F.body bb _ b).getLast? = _
    by_cases hb : b = bb
    · subst hb
      rw [Function.update_self, hbody, List.getLast?_append_cons, List.getLast?_append_cons]
    · rw [Function.update_of_ne hb]
  | @hoist src dst pre post l i t hsrc hdst _ hne _ _ hanchor _ _ =>
    show (Function.update (Function.update F.body src _) dst _ b).getLast? = _
    by_cases hbd : b = dst
    · subst hbd
      rw [Function.update_self, hdst]
      simp
    · rw [Function.update_of_ne hbd]
      by_cases hbs : b = src
      · subst hbs
        -- the instruction that leaves is not the terminator, so something follows it
        have hpost : post ≠ [] := by
          intro heq
          subst heq
          obtain ⟨l', t', hb', ht', _⟩ :=
            hwf.terminated b (hwf.mem_blocks (i := i) (by rw [hsrc]; simp))
          obtain ⟨_, heq⟩ := List.append_inj' (hsrc.symm.trans hb') rfl
          obtain rfl : i = t' := by simpa using heq
          rw [isTerminator_of_not_anchor hanchor] at ht'
          cases ht'
        obtain ⟨x, xs, rfl⟩ := List.exists_cons_of_ne_nil hpost
        rw [Function.update_self, hsrc, List.getLast?_append, List.getLast?_append]
        simp
      · rw [Function.update_of_ne hbs]

theorem getTerminator_eq (hwf : F.WellFormed) (h : Motion P F F') (b : BasicBlock) :
    F'.getTerminator b = F.getTerminator b := by
  rw [Function.getTerminator, Function.getTerminator, h.getLast?_body hwf, h.sameCode.instr]

theorem successors_eq (hwf : F.WellFormed) (h : Motion P F F') (b : BasicBlock) :
    F'.successors b = F.successors b := by
  rw [Function.successors, Function.successors, h.getTerminator_eq hwf, h.sameCode.instr]

theorem cfg_eq (hwf : F.WellFormed) (h : Motion P F F') : F'.cfg = F.cfg := by
  rw [Function.cfg, Function.cfg, h.sameCode.entry, show F'.successors = F.successors from
    funext (h.successors_eq hwf)]

/-! ### The structural rules -/

theorem body_nodup (hwf : F.WellFormed) (h : Motion P F F') (b : BasicBlock) :
    (F'.body b).Nodup := by
  cases h with
  | @reorder bb pre region ordered post boundary hbody hperm _ _ =>
    show (Function.update F.body bb _ b).Nodup
    by_cases hb : b = bb
    · subst hb
      rw [Function.update_self]
      have hnd := hwf.body_nodup b
      rw [hbody] at hnd
      exact ((hperm.append_left pre).append_right _).nodup_iff.mpr hnd
    · rw [Function.update_of_ne hb]
      exact hwf.body_nodup b
  | @hoist src dst pre post l i t hsrc hdst _ hne _ _ _ _ _ =>
    show (Function.update (Function.update F.body src _) dst _ b).Nodup
    have hi : i ∈ F.body src := by rw [hsrc]; simp
    by_cases hbd : b = dst
    · subst hbd
      have hidst := hwf.not_mem_of_ne hi hne
      have hnd := hwf.body_nodup b
      rw [hdst] at hidst hnd
      rw [Function.update_self]
      have hperm : l ++ [i, t] ~ i :: (l ++ [t]) := List.perm_middle
      exact hperm.nodup_iff.mpr (List.nodup_cons.mpr ⟨hidst, hnd⟩)
    · rw [Function.update_of_ne hbd]
      by_cases hbs : b = src
      · subst hbs
        have hnd := hwf.body_nodup b
        rw [hsrc] at hnd
        rw [Function.update_self]
        exact (List.nodup_middle.mp hnd).of_cons
      · rw [Function.update_of_ne hbs]
        exact hwf.body_nodup b

theorem body_unique (hwf : F.WellFormed) (h : Motion P F F') {j : InstrId} {b b' : BasicBlock}
    (hj : j ∈ F'.body b) (hj' : j ∈ F'.body b') : b = b' := by
  cases h with
  | reorder hbody hperm _ _ =>
    exact hwf.body_unique ((mem_reorder hbody hperm).mp hj) ((mem_reorder hbody hperm).mp hj')
  | hoist hsrc hdst _ hne _ _ _ _ _ =>
    rcases (mem_hoist hwf hsrc hdst hne).mp hj with ⟨hji, hj⟩ | ⟨hji, rfl⟩
    · rcases (mem_hoist hwf hsrc hdst hne).mp hj' with ⟨_, hj'⟩ | ⟨hji', _⟩
      · exact hwf.body_unique hj hj'
      · exact absurd hji' hji
    · rcases (mem_hoist hwf hsrc hdst hne).mp hj' with ⟨hji', _⟩ | ⟨_, hb'⟩
      · exact absurd hji hji'
      · exact hb'.symm

theorem mem_blocks (hwf : F.WellFormed) (h : Motion P F F') {j : InstrId} {b : BasicBlock}
    (hj : j ∈ F'.body b) : b ∈ F.blocks := by
  cases h with
  | reorder hbody hperm _ _ => exact hwf.mem_blocks ((mem_reorder hbody hperm).mp hj)
  | @hoist src dst pre post l i t hsrc hdst _ hne _ _ _ _ _ =>
    rcases (mem_hoist hwf hsrc hdst hne).mp hj with ⟨_, hj⟩ | ⟨_, rfl⟩
    · exact hwf.mem_blocks hj
    · exact hwf.mem_blocks (i := t) (by rw [hdst]; simp)

/-- A motion moves no terminator: it stays last, and nothing before it is one. -/
theorem terminated (hwf : F.WellFormed) (h : Motion P F F') {b : BasicBlock} (hb : b ∈ F.blocks) :
    ∃ l t, F'.body b = l ++ [t] ∧ (F'.instr t).isTerminator = true ∧
      ∀ i ∈ l, (F'.instr i).isTerminator = false := by
  obtain ⟨l, t, hbody, ht, _⟩ := hwf.terminated b hb
  have hlast : (F'.body b).getLast? = some t := by
    rw [h.getLast?_body hwf, hbody, List.getLast?_concat]
  obtain ⟨l', hl'⟩ := List.getLast?_eq_some_iff.mp hlast
  refine ⟨l', t, hl', by rw [h.sameCode.instr]; exact ht, fun i hi => ?_⟩
  have hnd := h.body_nodup hwf b
  rw [hl'] at hnd
  have hit : i ≠ t := by
    intro heq
    subst heq
    exact (List.nodup_append.mp hnd).2.2 i hi i List.mem_cons_self rfl
  have hib : i ∈ F'.body b := by rw [hl']; exact List.mem_append_left _ hi
  rw [h.sameCode.instr]
  by_contra hterm
  rw [Bool.not_eq_false] at hterm
  have hanchor : F.isAnchor i = true := isSchedulingAnchor_of_isTerminator hterm
  exact hit (hwf.eq_terminator hbody ((h.mem_of_anchor hwf hanchor).mp hib) hterm)

/-- What never holds against a non-anchor, nor against the terminator a hoist inserts before, goes on
holding along every block. -/
theorem pairwise {R : InstrId → InstrId → Prop} (h : Motion P F F')
    (hR : ∀ i j, F.isAnchor j = false → R i j)
    (hterm : ∀ i src dst t, P i src dst → F.getTerminator dst = some t → R i t)
    (hp : ∀ b, (F.body b).Pairwise R) (b : BasicBlock) : (F'.body b).Pairwise R := by
  cases h with
  | @reorder bb pre region ordered post boundary hbody hperm hregion _ =>
    show (Function.update F.body bb _ b).Pairwise _
    by_cases hb : b = bb
    · subst hb
      have hp := hp b
      rw [Function.update_self]
      rw [hbody, List.append_assoc, List.pairwise_append, List.pairwise_append] at hp
      rw [List.append_assoc, List.pairwise_append, List.pairwise_append]
      obtain ⟨hpre, ⟨_, hpost, hcross⟩, hall⟩ := hp
      refine ⟨hpre, ⟨?_, hpost, fun i hi => hcross i (hperm.mem_iff.mp hi)⟩, fun i hi j hj => ?_⟩
      · exact List.pairwise_of_forall_mem_list fun i _ j hj =>
          hR i j (hregion j (hperm.mem_iff.mp hj))
      · rw [List.mem_append, hperm.mem_iff, ← List.mem_append] at hj
        exact hall i hi j hj
    · rw [Function.update_of_ne hb]
      exact hp b
  | @hoist src dst pre post l i t hsrc hdst ht hne _ _ hanchor _ hPi =>
    show (Function.update (Function.update F.body src _) dst _ b).Pairwise _
    by_cases hbd : b = dst
    · subst hbd
      have hp := hp b
      rw [hdst, List.pairwise_append] at hp
      obtain ⟨hl, _, hcross⟩ := hp
      have hit : R i t := hterm _ _ _ t hPi (Function.getTerminator_append hdst ht)
      rw [Function.update_self, List.pairwise_append]
      refine ⟨hl, by simpa using hit, fun j hj k hk => ?_⟩
      rcases List.mem_cons.mp hk with rfl | hk
      · exact hR j k hanchor
      · exact hcross j hj k hk
    · rw [Function.update_of_ne hbd]
      by_cases hbs : b = src
      · subst hbs
        have hp := hp b
        rw [hsrc] at hp
        rw [Function.update_self]
        exact hp.sublist ((List.sublist_cons_self i post).append_left pre)
      · rw [Function.update_of_ne hbs]
        exact hp b

theorem phis_first (hwf : F.WellFormed) (h : Motion P F F') (b : BasicBlock) :
    (F'.body b).Pairwise fun i j => (F'.instr j).isPHI = true → (F'.instr i).isPHI = true := by
  rw [h.sameCode.instr]
  refine h.pairwise (fun i j hj hphi => ?_) (fun i src dst t _ ht hphi => ?_) hwf.phis_first b
  · rw [isPHI_of_not_anchor hj] at hphi
    cases hphi
  · have hterm := (Function.getTerminator_eq_some.mp ht).2
    rw [Instruction.not_isTerminator_of_isPHI hphi] at hterm
    cases hterm

theorem wellFormed (hwf : F.WellFormed) (h : Motion P F F') : F'.WellFormed where
  blocks_nodup := by rw [h.sameCode.blocks]; exact hwf.blocks_nodup
  body_nodup := h.body_nodup hwf
  body_unique := h.body_unique hwf
  mem_blocks := by
    intro i b hi
    rw [h.sameCode.blocks]
    exact h.mem_blocks hwf hi
  terminated := by
    intro b hb
    rw [h.sameCode.blocks] at hb
    exact h.terminated hwf hb
  phis_first := h.phis_first hwf
  phi_pure := by rw [h.sameCode.instr]; exact hwf.phi_pure
  succs_mem := by
    intro b s hs
    rw [h.successors_eq hwf] at hs
    rw [h.sameCode.blocks]
    exact hwf.succs_mem b s hs
  entry_not_succ := by
    intro b
    rw [h.successors_eq hwf, h.sameCode.entry]
    exact hwf.entry_not_succ b
  mem_preds := by
    intro b p
    rw [h.successors_eq hwf, h.sameCode.preds]
    exact hwf.mem_preds b p

/-! ### The dominance condition -/

/-- A value available on entry to a block stays so: an instruction that moves, moves up. -/
theorem availableIn (hwf : F.WellFormed) (h : Motion P F F') {d : InstrId} {b : BasicBlock}
    (hb : F.cfg.Reachable b) (hd : F.AvailableIn d b) : F'.AvailableIn d b := by
  obtain ⟨bd, hdb, hav⟩ := hd
  have hcfg := h.cfg_eq hwf
  have hinstr := h.sameCode.instr
  cases h with
  | reorder hbody hperm _ _ =>
    refine ⟨bd, (mem_reorder hbody hperm).mpr hdb, ?_⟩
    rw [hcfg]
    exact hav
  | @hoist src dst _ _ _ i t hsrc hdst _ hne hreach hdom hanchor _ _ =>
    by_cases hdi : d = i
    · subst hdi
      have hinv : ¬ (F.instr d).opcode = .invoke := by
        intro hinv
        have := isTerminator_of_not_anchor hanchor
        simp [Instruction.isTerminator, hinv] at this
      obtain rfl : bd = src := hwf.body_unique hdb (by rw [hsrc]; simp)
      rw [if_neg hinv] at hav
      refine ⟨dst, (mem_hoist hwf hsrc hdst hne).mpr (.inr ⟨rfl, rfl⟩), ?_⟩
      rw [hcfg, if_neg hinv]
      refine ⟨?_, hdom.trans hav.2⟩
      intro heq
      subst heq
      exact hne (hdom.antisymm hav.2 (hdom.reachable hreach))
    · refine ⟨bd, (mem_hoist hwf hsrc hdst hne).mpr (.inl ⟨hdi, hdb⟩), ?_⟩
      rw [hcfg]
      exact hav

/-- The hoisted instruction is available in the block it left. -/
theorem hoist_availableIn (hwf : F.WellFormed) {src dst : BasicBlock} {pre post l : List InstrId}
    {i t : InstrId} (hsrc : F.body src = pre ++ i :: post) (hdst : F.body dst = l ++ [t])
    (hne : dst ≠ src) (hdom : F.cfg.Dominates dst src) (hanchor : F.isAnchor i = false)
    {F' : Function}
    (hF' : F' = { F with
      body := Function.update (Function.update F.body src (pre ++ post)) dst (l ++ [i, t]) })
    (hcfg : F'.cfg = F.cfg) : F'.AvailableIn i src := by
  have hinv : ¬ (F.instr i).opcode = .invoke := by
    intro hinv
    have := isTerminator_of_not_anchor hanchor
    simp [Instruction.isTerminator, hinv] at this
  refine ⟨dst, ?_, ?_⟩
  · rw [hF']
    exact (mem_hoist hwf hsrc hdst hne).mpr (.inr ⟨rfl, rfl⟩)
  · rw [hcfg, hF', if_neg hinv]
    exact ⟨hne, hdom⟩

/-- Dominance of a use survives every motion. -/
theorem instDominates (hwf : F.WellFormed) (h : Motion P F F') {d u : InstrId} (huse : F.Uses u d)
    (hd : F.InstDominates d u) : F'.InstDominates d u := by
  obtain ⟨b, hub, hav⟩ := hd
  have hmotion := h
  have hcfg := h.cfg_eq hwf
  cases h with
  | @reorder bb pre region ordered post boundary hbody hperm hregion hdeps =>
    refine ⟨b, (mem_reorder hbody hperm).mpr hub, ?_⟩
    rw [hcfg]
    by_cases hreach : F.cfg.Reachable b
    · rcases hav with hav | hav | hav
      · exact absurd hreach hav
      · exact .inr (.inl (hmotion.availableIn hwf hreach hav))
      · refine .inr (.inr ?_)
        show [d, u] <+ Function.update F.body bb (pre ++ ordered ++ boundary :: post) b
        by_cases hb : b = bb
        · subst hb
          rw [Function.update_self, sublist_pair_append_iff,
            sublist_pair_append_iff]
          rw [hbody, sublist_pair_append_iff, sublist_pair_append_iff] at hav
          simp only [List.mem_append, hperm.mem_iff]
          -- only a pair inside the region needs the order of the new arrangement
          rcases hav with (h | h | h) | h | h
          · exact .inl (.inl h)
          · have hdr : d ∈ ordered := hperm.mem_iff.mpr (h.subset List.mem_cons_self)
            have hur : u ∈ ordered := hperm.mem_iff.mpr (h.subset (by simp))
            exact .inl (.inr (.inl (hdeps u hur d hdr huse)))
          · exact .inl (.inr (.inr h))
          · exact .inr (.inl h)
          · exact .inr (.inr ⟨List.mem_append.mp h.1, h.2⟩)
        · rw [Function.update_of_ne hb]
          exact hav
    · exact .inl hreach
  | @hoist src dst pre post l i t hsrc hdst hterm hne hreach hdom hanchor hops _ =>
    by_cases hui : u = i
    · -- the hoisted instruction itself: its operands were checked at the insertion point
      subst hui
      obtain ⟨bt, htb, hav⟩ := hops d huse
      obtain rfl : bt = dst := hwf.body_unique htb (by rw [hdst]; simp)
      have hdstr : F.cfg.Reachable bt := hdom.reachable hreach
      refine ⟨bt, (mem_hoist hwf hsrc hdst hne).mpr (.inr ⟨rfl, rfl⟩), ?_⟩
      rw [hcfg]
      rcases hav with hav | hav | hav
      · exact absurd hdstr hav
      · exact .inr (.inl (hmotion.availableIn hwf hdstr hav))
      · refine .inr (.inr ?_)
        show [d, u] <+ Function.update (Function.update F.body src _) bt (l ++ [u, t]) bt
        rw [Function.update_self]
        have hnd := hwf.body_nodup bt
        rw [hdst] at hav hnd
        exact sublist_pair_iff.mpr
          ⟨l, [t], rfl, (sublist_pair_append hnd).mp hav⟩
    · refine ⟨b, (mem_hoist hwf hsrc hdst hne).mpr (.inl ⟨hui, hub⟩), ?_⟩
      rw [hcfg]
      by_cases hreachb : F.cfg.Reachable b
      · rcases hav with hav | hav | hav
        · exact absurd hreachb hav
        · exact .inr (.inl (hmotion.availableIn hwf hreachb hav))
        · by_cases hdi : d = i
          · subst hdi
            obtain rfl : b = src := hwf.body_unique (hav.subset List.mem_cons_self) (by rw [hsrc]; simp)
            exact .inr (.inl (hoist_availableIn hwf hsrc hdst hne hdom hanchor rfl hcfg))
          · refine .inr (.inr ?_)
            show [d, u] <+ Function.update (Function.update F.body src _) dst (l ++ [i, t]) b
            by_cases hbd : b = dst
            · subst hbd
              rw [Function.update_self]
              rw [hdst] at hav
              exact hav.trans ((List.Sublist.refl l).append (by simp))
            · rw [Function.update_of_ne hbd]
              by_cases hbs : b = src
              · subst hbs
                rw [Function.update_self]
                have hnd := hwf.body_nodup b
                rw [hsrc] at hav hnd
                have hipre : i ∉ pre := fun hi =>
                  (List.nodup_append.mp hnd).2.2 i hi i List.mem_cons_self rfl
                have herase := hav.erase i
                rw [List.erase_append_right _ hipre, List.erase_cons_head,
                  List.erase_of_not_mem (by simp [Ne.symm hdi, Ne.symm hui])] at herase
                exact herase
              · rw [Function.update_of_ne hbs]
                exact hav
      · exact .inl hreachb

/-- A value that may flow into a PHI along an edge still may. -/
theorem availableOnEdge (hwf : F.WellFormed) (h : Motion P F F') {d : InstrId} {p b : BasicBlock}
    (hd : F.AvailableOnEdge d p b) : F'.AvailableOnEdge d p b := by
  have hmotion := h
  have hcfg := h.cfg_eq hwf
  rw [Function.AvailableOnEdge, hcfg]
  by_cases hreachp : F.cfg.Reachable p
  · rcases hd with hd | hd | ⟨hdp, hinv⟩
    · exact absurd hreachp hd
    · exact .inr (.inl (hmotion.availableIn hwf hreachp hd))
    · cases h with
      | reorder hbody hperm _ _ => exact .inr (.inr ⟨(mem_reorder hbody hperm).mpr hdp, hinv⟩)
      | @hoist src dst _ _ _ i t hsrc hdst _ hne _ hdom hanchor _ _ =>
        by_cases hdi : d = i
        · subst hdi
          obtain rfl : p = src := hwf.body_unique hdp (by rw [hsrc]; simp)
          exact .inr (.inl (hoist_availableIn hwf hsrc hdst hne hdom hanchor rfl hcfg))
        · exact .inr (.inr ⟨(mem_hoist hwf hsrc hdst hne).mpr (.inl ⟨hdi, hdp⟩), hinv⟩)
  · exact .inl hreachp

theorem ssa (hwf : F.WellFormed) (hssa : F.SSADominance) (h : Motion P F F') :
    F'.SSADominance where
  use := by
    intro b u d hu hphi huse
    rw [h.sameCode.instr] at hphi huse
    obtain ⟨b', hub'⟩ := (h.exists_mem hwf).mp ⟨b, hu⟩
    exact h.instDominates hwf huse (hssa.use hub' hphi huse)
  phi := by
    intro b u p d hu hphi hin
    rw [h.sameCode.instr] at hphi hin
    have hanchor : F.isAnchor u = true := isSchedulingAnchor_of_isPHI hphi
    exact h.availableOnEdge hwf (hssa.phi ((h.mem_of_anchor hwf hanchor).mp hu) hphi hin)

/-! ### Anchors, run by run -/

/-- The anchors of every block stay; a region gains nothing but instructions that satisfy `safe`. -/
theorem aligned {safe : InstrId → Prop} (hP : ∀ i src dst, P i src dst → safe i)
    (h : Motion P F F') (b : BasicBlock) :
    Aligned F.isAnchor (GainsOnly safe) (F.body b) (F'.body b) := by
  have hrefl : ∀ r : List InstrId, GainsOnly safe r r := GainsOnly.refl
  cases h with
  | @reorder bb pre region ordered post boundary hbody hperm hregion _ =>
    show Aligned _ _ _ (Function.update F.body bb _ b)
    by_cases hb : b = bb
    · subst hb
      rw [Function.update_self, hbody]
      refine Aligned.edit hrefl hregion (fun i hi => hregion i (hperm.mem_iff.mp hi)) ?_ _ _
      intro x y i hi
      simp only [List.mem_append, hperm.mem_iff] at hi ⊢
      exact .inl hi
    · rw [Function.update_of_ne hb]
      exact Aligned.refl hrefl _
  | @hoist src dst pre post l i t hsrc hdst _ hne _ _ hanchor _ hPi =>
    show Aligned _ _ _ (Function.update (Function.update F.body src _) dst _ b)
    have hi : ∀ j ∈ [i], F.isAnchor j = false := by simpa using hanchor
    have hnil : ∀ j ∈ ([] : List InstrId), F.isAnchor j = false := by simp
    by_cases hbd : b = dst
    · subst hbd
      rw [Function.update_self, hdst]
      have hgain : ∀ x y, GainsOnly safe (x ++ [] ++ y) (x ++ [i] ++ y) := by
        intro x y j hj
        simp only [List.append_assoc, List.mem_append, List.mem_singleton] at hj
        rcases hj with hj | rfl | hj
        · exact .inl (by simp [hj])
        · exact .inr (hP _ _ _ hPi)
        · exact .inl (by simp [hj])
      simpa using Aligned.edit hrefl hnil hi hgain l [t]
    · rw [Function.update_of_ne hbd]
      by_cases hbs : b = src
      · subst hbs
        rw [Function.update_self, hsrc]
        have hlose : ∀ x y, GainsOnly safe (x ++ [i] ++ y) (x ++ [] ++ y) := by
          intro x y j hj
          simp only [List.append_nil, List.mem_append] at hj
          exact .inl (by rcases hj with hj | hj <;> simp [hj])
        simpa using Aligned.edit hrefl hi hnil hlose pre post
      · rw [Function.update_of_ne hbs]
        exact Aligned.refl hrefl _

/-- Without hoists a motion rearranges each region. -/
theorem aligned_perm (h : Motion (fun _ _ _ => False) F F') (b : BasicBlock) :
    Aligned F.isAnchor List.Perm (F.body b) (F'.body b) := by
  cases h with
  | @reorder bb pre region ordered post boundary hbody hperm hregion _ =>
    show Aligned _ _ _ (Function.update F.body bb _ b)
    by_cases hb : b = bb
    · subst hb
      rw [Function.update_self, hbody]
      refine Aligned.edit List.Perm.refl hregion (fun i hi => hregion i (hperm.mem_iff.mp hi)) ?_ _ _
      exact fun x y => (hperm.symm.append_left x).append_right y
    · rw [Function.update_of_ne hb]
      exact Aligned.refl List.Perm.refl _
  | hoist _ _ _ _ _ _ _ _ hP => exact hP.elim

end Motion

/-! ### Runs of edits -/

namespace Motions

theorem mono {P' : InstrId → BasicBlock → BasicBlock → Prop}
    (hP : ∀ i src dst, P i src dst → P' i src dst) (h : Motions P F F') : Motions P' F F' :=
  Relation.ReflTransGen.mono (fun _ _ h => h.mono hP) F F' h

theorem sameCode (h : Motions P F F') : SameCode F F' := by
  induction h with
  | refl => exact .refl F
  | tail _ hstep ih => exact ih.trans hstep.sameCode

theorem wellFormed (hwf : F.WellFormed) (h : Motions P F F') : F'.WellFormed := by
  induction h with
  | refl => exact hwf
  | tail _ hstep ih => exact hstep.wellFormed ih

theorem cfg_eq (hwf : F.WellFormed) (h : Motions P F F') : F'.cfg = F.cfg := by
  induction h with
  | refl => rfl
  | tail hrun hstep ih => exact (hstep.cfg_eq (wellFormed hwf hrun)).trans ih

theorem ssa (hwf : F.WellFormed) (hssa : F.SSADominance) (h : Motions P F F') :
    F'.SSADominance := by
  induction h with
  | refl => exact hssa
  | tail hrun hstep ih => exact hstep.ssa (wellFormed hwf hrun) ih

theorem isAnchor_eq (h : Motions P F F') : F'.isAnchor = F.isAnchor := by
  funext i
  rw [Function.isAnchor, Function.isAnchor, h.sameCode.instr]

theorem getTerminator_eq (hwf : F.WellFormed) (h : Motions P F F') (b : BasicBlock) :
    F'.getTerminator b = F.getTerminator b := by
  induction h with
  | refl => rfl
  | tail hrun hstep ih => exact (hstep.getTerminator_eq (wellFormed hwf hrun) b).trans ih

theorem mem_of_anchor (hwf : F.WellFormed) (h : Motions P F F') {j : InstrId} {b : BasicBlock}
    (hj : F.isAnchor j = true) : j ∈ F'.body b ↔ j ∈ F.body b := by
  induction h with
  | refl => rfl
  | tail hrun hstep ih =>
    rw [hstep.mem_of_anchor (wellFormed hwf hrun) (by rw [isAnchor_eq hrun]; exact hj), ih]

theorem exists_mem (hwf : F.WellFormed) (h : Motions P F F') {j : InstrId} :
    (∃ b, j ∈ F'.body b) ↔ ∃ b, j ∈ F.body b := by
  induction h with
  | refl => rfl
  | tail hrun hstep ih => rw [hstep.exists_mem (wellFormed hwf hrun), ih]

theorem aligned {safe : InstrId → Prop} (hP : ∀ i src dst, P i src dst → safe i)
    (h : Motions P F F') (b : BasicBlock) :
    Aligned F.isAnchor (GainsOnly safe) (F.body b) (F'.body b) := by
  induction h with
  | refl => exact Aligned.refl GainsOnly.refl _
  | tail hrun hstep ih =>
    have hlast := hstep.aligned hP b
    rw [isAnchor_eq hrun] at hlast
    exact ih.trans (fun _ _ _ hrs hst => hrs.trans hst) hlast

theorem aligned_perm (h : Motions (fun _ _ _ => False) F F') (b : BasicBlock) :
    Aligned F.isAnchor List.Perm (F.body b) (F'.body b) := by
  induction h with
  | refl => exact Aligned.refl List.Perm.refl _
  | tail hrun hstep ih =>
    have hlast := hstep.aligned_perm b
    rw [isAnchor_eq hrun] at hlast
    exact ih.trans (fun _ _ _ hrs hst => hrs.trans hst) hlast

/-- Every block keeps its sequence of anchors. -/
theorem filter_isAnchor (h : Motions P F F') (b : BasicBlock) :
    (F'.body b).filter F.isAnchor = (F.body b).filter F.isAnchor :=
  (h.aligned (fun _ _ _ _ => trivial) b).filter_eq

/-- No instruction is lost and none is duplicated. -/
theorem flatMap_perm (hwf : F.WellFormed) (h : Motions P F F') :
    F'.blocks.flatMap F'.body ~ F.blocks.flatMap F.body := by
  have hwf' := h.wellFormed hwf
  refine (List.perm_ext_iff_of_nodup hwf'.flatMap_nodup hwf.flatMap_nodup).mpr fun i => ?_
  rw [hwf'.mem_flatMap, hwf.mem_flatMap]
  exact h.exists_mem hwf

/-- An instruction stays in its block or leaves it by hoists. -/
theorem mem_of_closed (hwf : F.WellFormed) (h : Motions P F F') {R : InstrId → BasicBlock → Prop}
    (hR : ∀ i src dst, R i src → P i src dst → R i dst) (h0 : ∀ i b, i ∈ F.body b → R i b)
    {i : InstrId} {b : BasicBlock} (hi : i ∈ F'.body b) : R i b := by
  induction h generalizing i b with
  | refl => exact h0 i b hi
  | tail hrun hstep ih =>
    have hwf' := wellFormed hwf hrun
    cases hstep with
    | reorder hbody hperm _ _ => exact ih ((Motion.mem_reorder hbody hperm).mp hi)
    | hoist hsrc hdst _ hne _ _ _ _ hPi =>
      rcases (Motion.mem_hoist hwf' hsrc hdst hne).mp hi with ⟨_, hi⟩ | ⟨rfl, rfl⟩
      · exact ih hi
      · exact hR _ _ _ (ih (by rw [hsrc]; simp)) hPi

/-- Hoists lead to dominators of the original block. -/
theorem dominates (hwf : F.WellFormed) (h : Motions P F F') {i : InstrId} {b₀ b : BasicBlock}
    (hi : i ∈ F.body b₀) (hb : i ∈ F'.body b) :
    b = b₀ ∨ (F.cfg.StrictlyDominates b b₀ ∧ F.cfg.Reachable b₀) := by
  induction h generalizing b with
  | refl => exact .inl (hwf.body_unique hb hi)
  | tail hrun hstep ih =>
    have hwf' := wellFormed hwf hrun
    have hcfg := cfg_eq hwf hrun
    cases hstep with
    | reorder hbody hperm _ _ => exact ih ((Motion.mem_reorder hbody hperm).mp hb)
    | hoist hsrc hdst _ hne hreach hdom _ _ _ =>
      rcases (Motion.mem_hoist hwf' hsrc hdst hne).mp hb with ⟨_, hb⟩ | ⟨rfl, rfl⟩
      · exact ih hb
      · rw [hcfg] at hreach hdom
        apply Or.inr
        rcases ih (by rw [hsrc]; simp) with rfl | ⟨hstrict, hreach₀⟩
        · exact ⟨⟨hne, hdom⟩, hreach⟩
        · refine ⟨⟨?_, hdom.trans hstrict.2⟩, hreach₀⟩
          intro heq
          subst heq
          exact hne (hdom.antisymm hstrict.2 hreach₀)

/-- Without hoists every instruction stays in its block. -/
theorem mem_iff (h : Motions (fun _ _ _ => False) F F') {i : InstrId} {b : BasicBlock} :
    i ∈ F'.body b ↔ i ∈ F.body b := by
  induction h with
  | refl => rfl
  | tail _ hstep ih =>
    cases hstep with
    | reorder hbody hperm _ _ => exact (Motion.mem_reorder hbody hperm).trans ih
    | hoist _ _ _ _ _ _ _ _ hP => exact hP.elim

end Motions

/-- What no pass changes: the instructions as a whole, the anchors of each block in their order, and
the control-flow graph. -/
structure KeepsAnchors (F F' : Function) : Prop where
  code : SameCode F F'
  perm : F'.blocks.flatMap F'.body ~ F.blocks.flatMap F.body
  anchors : ∀ b, (F'.body b).filter F.isAnchor = (F.body b).filter F.isAnchor
  cfg : F'.cfg = F.cfg

theorem Motions.keepsAnchors (hwf : F.WellFormed) (h : Motions P F F') : KeepsAnchors F F' :=
  ⟨h.sameCode, h.flatMap_perm hwf, h.filter_isAnchor, h.cfg_eq hwf⟩

/-! ### The region rewriter refines the model -/

/-- `tr'` goes on from `tr` by legal edits: every function it adds, the current one included, is
reached by motions. -/
structure Trail.Steps (P : InstrId → BasicBlock → BasicBlock → Prop) (tr tr' : Trail) : Prop where
  current : Motions P tr.current tr'.current
  moments : ∀ M ∈ tr'.moments, M ∈ tr.moments ∨ Motions P tr.current M

namespace Trail.Steps

variable {tr tr' tr'' : Trail}

theorem refl (tr : Trail) : Steps P tr tr := ⟨.refl, fun _ hM => .inl hM⟩

theorem trans (h : Steps P tr tr') (h' : Steps P tr' tr'') : Steps P tr tr'' := by
  refine ⟨h.current.trans h'.current, fun M hM => ?_⟩
  rcases h'.moments M hM with hM | hM
  · exact h.moments M hM
  · exact .inr (h.current.trans hM)

theorem commit (hm : Motion P tr.current F') : Steps P tr (tr.commit F') := by
  refine ⟨.single hm, fun M hM => ?_⟩
  rcases List.mem_append.mp hM with hM | hM
  · exact .inl hM
  · exact .inr (List.mem_singleton.mp hM ▸ .single hm)

theorem mono {P' : InstrId → BasicBlock → BasicBlock → Prop}
    (hP : ∀ i src dst, P i src dst → P' i src dst) (h : Steps P tr tr') : Steps P' tr tr' :=
  ⟨h.current.mono hP, fun M hM => (h.moments M hM).imp_right fun h => h.mono hP⟩

/-- From the start every moment is reached by motions. -/
theorem of_start (h : Steps P (Trail.start F) tr) {M : Function} (hM : M ∈ tr.moments) :
    Motions P F M := by
  rcases h.moments M hM with hM | hM
  · cases hM
  · exact hM

end Trail.Steps

/-- A schedule in which the operands of a block's non-anchors come before them, as far as both are
scheduled. -/
def RespectsUses (F : Function) (schedule : List InstrId) (bb : BasicBlock) : Prop :=
  ∀ u ∈ F.body bb, ∀ d ∈ F.body bb, F.isAnchor u = false → F.isAnchor d = false → F.Uses u d →
    u ∈ schedule → d ∈ schedule → [d, u] <+ schedule

/-- Rewriting one region respects the uses within it, or is no edit. -/
theorem rewriteRegion_cases {schedule : List InstrId} {bb : BasicBlock} {tr : Trail}
    {pre region post : List InstrId} {boundary : InstrId} (hwf : tr.current.WellFormed)
    (hnd : schedule.Nodup) (hresp : RespectsUses tr.current schedule bb)
    (hbody : tr.current.body bb = pre ++ region ++ boundary :: post)
    (hregion : ∀ i ∈ region, tr.current.isAnchor i = false) :
    rewriteRegion schedule bb tr (region, some boundary) = tr ∨
      ∃ ordered, ordered ~ region ∧
        (∀ u ∈ ordered, ∀ d ∈ ordered, tr.current.Uses u d → [d, u] <+ ordered) ∧
        rewriteRegion schedule bb tr (region, some boundary) = tr.commit { tr.current with
          body := Function.update tr.current.body bb (pre ++ ordered ++ boundary :: post) } := by
  rw [rewriteRegion_eq (hwf.body_nodup bb) (fun c hc i hi => hwf.not_mem_of_ne hi hc) hbody]
  split
  · rename_i hlen
    have hperm := orderRegion_perm hlen
    refine .inr ⟨orderRegion schedule region, hperm, fun u hu d hd huse => ?_, rfl⟩
    have hmem : ∀ i ∈ region, i ∈ tr.current.body bb := by
      intro i hi
      rw [hbody]
      simp [hi]
    have hur := hperm.mem_iff.mp hu
    have hdr := hperm.mem_iff.mp hd
    have hus := ((orderRegion_spec schedule region).2 u).mp hu
    have hds := ((orderRegion_spec schedule region).2 d).mp hd
    have hsub := hresp u (hmem u hur) d (hmem d hdr) (hregion u hur) (hregion d hdr) huse
      hus.1 hds.1
    have hfilter := hsub.filter fun i => region.contains i
    rw [orderRegion_eq_filter region hnd]
    simpa [hur, hdr] using hfilter
  · exact .inl rfl

theorem respectsUses_of_motion {schedule : List InstrId} {bb : BasicBlock}
    (h : RespectsUses F schedule bb) (hm : Motion (fun _ _ _ => False) F F') :
    RespectsUses F' schedule bb := by
  have hrun : Motions (fun _ _ _ => False) F F' := .single hm
  intro u hu d hd hua hda huse
  rw [hrun.isAnchor_eq] at hua hda
  rw [Function.Uses, hrun.sameCode.instr] at huse
  exact h u (hrun.mem_iff.mp hu) d (hrun.mem_iff.mp hd) hua hda huse

/-- The regions still to be rewritten are those of the untouched rest of the block. -/
theorem foldl_rewriteRegion_steps {schedule : List InstrId} {bb : BasicBlock} {G : Function}
    (hnd : schedule.Nodup) {rest current pre : List InstrId} {tr : Trail}
    (hG : G.instr = tr.current.instr) (hwf : tr.current.WellFormed)
    (hresp : RespectsUses tr.current schedule bb)
    (hbody : tr.current.body bb = pre ++ current ++ rest)
    (hcur : ∀ i ∈ current, tr.current.isAnchor i = false) :
    Trail.Steps (fun _ _ _ => False) tr
      ((collectRegions G rest current).foldl (rewriteRegion schedule bb) tr) := by
  induction rest generalizing current pre tr with
  | nil =>
    rw [collectRegions]
    split
    · exact .refl tr
    · -- no anchor ends the run, so it is left alone
      rw [List.foldl_cons, List.foldl_nil, rewriteRegion]
      split
      · exact .refl tr
      · exact .refl tr
  | cons i rest ih =>
    rw [collectRegions]
    split
    · split
      · rename_i hnil
        obtain rfl := List.isEmpty_iff.mp hnil
        have hbody' : tr.current.body bb = (pre ++ [i]) ++ [] ++ rest := by simpa using hbody
        exact ih hG hwf hresp hbody' (by simp)
      · rw [List.foldl_cons]
        rcases rewriteRegion_cases hwf hnd hresp hbody hcur with
          heq | ⟨ordered, hperm, hdeps, heq⟩
        · rw [heq]
          have hbody' : tr.current.body bb = (pre ++ current ++ [i]) ++ [] ++ rest := by
            simpa using hbody
          exact ih hG hwf hresp hbody' (by simp)
        · rw [heq]
          have hm : Motion (fun _ _ _ => False) tr.current { tr.current with
              body := Function.update tr.current.body bb (pre ++ ordered ++ i :: rest) } :=
            .reorder hbody hperm hcur hdeps
          have hbody' : Function.update tr.current.body bb (pre ++ ordered ++ i :: rest) bb =
              (pre ++ ordered ++ [i]) ++ [] ++ rest := by
            simp
          exact (Trail.Steps.commit hm).trans (ih hG (hm.wellFormed hwf)
            (respectsUses_of_motion hresp hm) hbody' (by simp))
    · rename_i hi
      have hbody' : tr.current.body bb = pre ++ (current ++ [i]) ++ rest := by simpa using hbody
      refine ih hG hwf hresp hbody' fun j hj => ?_
      rcases List.mem_append.mp hj with hj | hj
      · exact hcur j hj
      · rw [List.mem_singleton.mp hj, Function.isAnchor, ← hG]
        simpa using hi

/-- **The region rewriter makes legal edits only**, whatever the schedule leaves out. -/
theorem reorderBlockWithinRegions_steps {schedule : List InstrId} {bb : BasicBlock} {tr : Trail}
    (hnd : schedule.Nodup) (hwf : tr.current.WellFormed)
    (hresp : RespectsUses tr.current schedule bb) :
    Trail.Steps (fun _ _ _ => False) tr (reorderBlockWithinRegions schedule bb tr) :=
  foldl_rewriteRegion_steps hnd rfl hwf hresp
    (show tr.current.body bb = [] ++ [] ++ tr.current.body bb from rfl) (by simp)

end TraceScheduler
