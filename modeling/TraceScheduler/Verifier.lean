import TraceScheduler.Function
import Mathlib.Data.List.GetD
import Mathlib.Data.List.Pairwise

/-!
# Computing dominance, and a verifier

Everything `Function` defines by paths can be computed for a function with finitely many blocks.
`availableInB` and `instDominatesB` search for the answers, and `WellFormed.dominatorTree` is the
dominator tree built from them.

`ofTables` builds a function from the lists of its blocks and instructions, and `verify` checks such
a function block by block.  `verify_sound` says that what is accepted obeys the structural rules and
the dominance condition of SSA form.
-/

namespace TraceScheduler

open scoped List

namespace Function

def availableInB (F : Function) (d : InstrId) (b : BasicBlock) : Bool :=
  F.blocks.any fun bd => (F.body bd).contains d &&
    if (F.instr d).opcode = .invoke then
      match (F.instr d).normalDest with
      | some n => F.cfg.edgeDominatesB F.blocks bd n b
      | none => false
    else bd != b && F.cfg.dominatesB F.blocks bd b

def instDominatesB (F : Function) (d u : InstrId) : Bool :=
  F.blocks.any fun b => (F.body b).contains u &&
    (!F.cfg.reachableB F.blocks b || F.availableInB d b || [d, u].isSublist (F.body b))

section

variable {F : Function} {b : BasicBlock} (h : F.WellFormed)

include h

theorem availableInB_iff {d : InstrId} : F.availableInB d b = true ↔ F.AvailableIn d b := by
  have hU : ∀ u ∈ F.blocks, ∀ v ∈ F.cfg.succs u, v ∈ F.blocks := fun u _ v hv => h.succs_mem u v hv
  have hcond : ∀ bd, (if (F.instr d).opcode = .invoke then
      match (F.instr d).normalDest with
      | some n => F.cfg.edgeDominatesB F.blocks bd n b
      | none => false
      else bd != b && F.cfg.dominatesB F.blocks bd b) = true ↔
      if (F.instr d).opcode = .invoke then
        ∃ n, (F.instr d).normalDest = some n ∧ F.cfg.EdgeDominates bd n b
      else F.cfg.StrictlyDominates bd b := by
    intro bd
    split
    · cases hn : (F.instr d).normalDest with
      | none => simp
      | some n => simpa using FlowGraph.edgeDominatesB_iff entry_mem_blocks hU
    · rw [Bool.and_eq_true, bne_iff_ne, FlowGraph.dominatesB_iff entry_mem_blocks hU]
      rfl
  rw [availableInB, AvailableIn]
  simp only [List.any_eq_true, Bool.and_eq_true, List.contains_iff_mem, hcond]
  exact ⟨fun ⟨bd, _, hd⟩ => ⟨bd, hd⟩, fun ⟨bd, hd⟩ => ⟨bd, h.mem_blocks hd.1, hd⟩⟩

theorem instDominatesB_iff {d u : InstrId} : F.instDominatesB d u = true ↔ F.InstDominates d u := by
  have hU : ∀ u ∈ F.blocks, ∀ v ∈ F.cfg.succs u, v ∈ F.blocks := fun u _ v hv => h.succs_mem u v hv
  rw [instDominatesB, InstDominates]
  simp only [List.any_eq_true, Bool.and_eq_true, Bool.or_eq_true, List.contains_iff_mem,
    Bool.not_eq_true', ← Bool.not_eq_true, FlowGraph.reachableB_iff entry_mem_blocks hU,
    availableInB_iff h, List.isSublist_iff_sublist, or_assoc]
  exact ⟨fun ⟨b, _, hb⟩ => ⟨b, hb⟩, fun ⟨b, hb⟩ => ⟨b, h.mem_blocks hb.1, hb⟩⟩

end

/-- The dominator tree of a well-formed function. -/
def WellFormed.dominatorTree {F : Function} (h : F.WellFormed) : DominatorTree F.cfg where
  dominates := F.cfg.dominatesB F.blocks
  dominatesInst F' := F'.instDominatesB
  dominates_iff _ _ :=
    FlowGraph.dominatesB_iff entry_mem_blocks fun u _ v hv => h.succs_mem u v hv
  dominatesInst_iff _ h' _ _ _ _ := instDominatesB_iff h'

def availableOnEdgeB (F : Function) (d : InstrId) (p b : BasicBlock) : Bool :=
  !F.cfg.reachableB F.blocks p || F.availableInB d p ||
    ((F.body p).contains d &&
      ((F.instr d).opcode != .invoke || (F.instr d).normalDest == some b))

theorem availableOnEdgeB_iff {F : Function} (h : F.WellFormed) {d : InstrId} {p b : BasicBlock} :
    F.availableOnEdgeB d p b = true ↔ F.AvailableOnEdge d p b := by
  have hU : ∀ u ∈ F.blocks, ∀ v ∈ F.cfg.succs u, v ∈ F.blocks := fun u _ v hv => h.succs_mem u v hv
  rw [availableOnEdgeB, AvailableOnEdge]
  simp only [Bool.or_eq_true, Bool.and_eq_true, List.contains_iff_mem, Bool.not_eq_true',
    ← Bool.not_eq_true, FlowGraph.reachableB_iff entry_mem_blocks hU, availableInB_iff h,
    bne_iff_ne, beq_iff_eq, or_assoc, imp_iff_not_or, ne_eq]

end Function

/-! ### Functions from tables -/

/-- An instruction that computes a value and touches no memory. -/
def Instruction.value (opcode : Opcode) (operands : List Value) : Instruction :=
  ⟨opcode, operands, [], [], false, false, false, false⟩

/-- A branch, or a return if there is nowhere to go. -/
def Instruction.branch (operands : List Value) (successors : List BasicBlock) : Instruction :=
  ⟨.terminator, operands, [], successors, true, false, false, false⟩

namespace Function

/-- The function whose blocks are `first` and `others`, numbered from zero. -/
def ofTables (numArgs : ℕ) (instrs : List Instruction) (first : List InstrId)
    (others : List (List InstrId)) : Function :=
  let G : Function :=
    { numArgs := numArgs
      entry := 0
      otherBlocks := List.range' 1 others.length
      body := fun b => (first :: others).getD b []
      instr := fun i => instrs.getD i (.branch [] [])
      preds := fun _ => [] }
  { G with preds := fun b => G.blocks.filter fun p => (G.successors p).contains b }

/-- One instruction of the block `b`: PHIs are pure and fed on their edges, the operands of the others
are dominated by their definitions. -/
def verifyInstr (F : Function) (b : BasicBlock) (u : InstrId) : Bool :=
  if (F.instr u).isPHI then
    ((F.instr u).incoming.zip (F.instr u).operands).all fun e =>
      match e.2 with
      | .instruction d => F.availableOnEdgeB d e.1 b
      | _ => true
  else (F.instr u).operands.all fun v =>
      match v with
      | .instruction d => F.instDominatesB d u
      | _ => true

/-- The shape of the block `b`: one terminator, last; PHIs first; successors other than the entry. -/
def verifyBlock (F : Function) (b : BasicBlock) : Bool :=
  (match (F.body b).getLast? with
    | some t => (F.instr t).isTerminator
    | none => false) &&
  (F.body b).dropLast.all (fun i => !(F.instr i).isTerminator) &&
  decide ((F.body b).Pairwise fun i j => (F.instr j).isPHI = true → (F.instr i).isPHI = true) &&
  (F.successors b).all fun s => F.otherBlocks.contains s

def verify (F : Function) : Bool :=
  decide (F.blocks.flatMap F.body).Nodup && F.blocks.all F.verifyBlock &&
    F.blocks.all fun b => (F.body b).all (F.verifyInstr b)

variable {numArgs : ℕ} {instrs : List Instruction} {first : List InstrId}
  {others : List (List InstrId)} {b : BasicBlock}

theorem mem_blocks_ofTables :
    b ∈ (ofTables numArgs instrs first others).blocks ↔ b < others.length + 1 := by
  have hrange : ∀ n : ℕ, n ∈ 0 :: List.range' 1 others.length ↔ n < others.length + 1 := by
    intro n
    rw [List.mem_cons, List.mem_range'_1]
    omega
  exact hrange b

theorem body_ofTables (h : b ∉ (ofTables numArgs instrs first others).blocks) :
    (ofTables numArgs instrs first others).body b = [] := by
  rw [mem_blocks_ofTables] at h
  show (first :: others).getD b [] = []
  rw [List.getD_eq_default]
  simpa using h

theorem wellFormed_ofTables (hphi : ∀ I ∈ instrs, I.isPHI = true →
      I.mayReadOrWriteMemory = false ∧ I.mayHaveSideEffects = false)
    (h : (ofTables numArgs instrs first others).verify = true) :
    (ofTables numArgs instrs first others).WellFormed := by
  set F := ofTables numArgs instrs first others with hF
  simp only [verify, Bool.and_eq_true, decide_eq_true_eq, List.all_eq_true] at h
  obtain ⟨⟨hnd, hblock⟩, _⟩ := h
  obtain ⟨hbody, hdisj⟩ := List.nodup_flatMap.mp hnd
  have hblocks : F.blocks.Nodup := by
    show (0 :: List.range' 1 others.length).Nodup
    exact List.nodup_cons.mpr ⟨by simp, List.nodup_range'⟩
  have hmem : ∀ {i b}, i ∈ F.body b → b ∈ F.blocks := by
    intro i b hi
    by_contra hb
    rw [body_ofTables hb] at hi
    cases hi
  have hshape : ∀ b ∈ F.blocks, F.verifyBlock b = true := hblock
  simp only [verifyBlock, Bool.and_eq_true, decide_eq_true_eq, List.all_eq_true,
    List.contains_iff_mem] at hshape
  have hsucc : ∀ b s, s ∈ F.successors b → s ∈ F.otherBlocks := by
    intro b s hs
    by_cases hb : b ∈ F.blocks
    · exact (hshape b hb).2 s hs
    · rw [successors, getTerminator, body_ofTables hb] at hs
      cases hs
  refine ⟨hblocks, fun b => ?_, fun {i b b'} hi hi' => ?_, hmem, fun b hb => ?_, fun b => ?_,
    fun i hi => ?_, fun b s hs => List.mem_cons_of_mem _ (hsucc b s hs), fun b hentry => ?_,
    fun b p => ?_⟩
  · by_cases hb : b ∈ F.blocks
    · exact hbody b hb
    · rw [body_ofTables hb]
      exact List.nodup_nil
  · by_contra hne
    have : Std.Symm fun b b' => List.Disjoint (F.body b) (F.body b') :=
      ⟨fun _ _ h _ hb hb' => h hb' hb⟩
    exact hdisj.forall (hmem hi) (hmem hi') hne hi hi'
  · obtain ⟨⟨⟨hlast, hinit⟩, _⟩, _⟩ := hshape b hb
    cases ht : (F.body b).getLast? with
    | none =>
      rw [ht] at hlast
      cases hlast
    | some t =>
      rw [ht] at hlast
      obtain ⟨l, hl⟩ := List.getLast?_eq_some_iff.mp ht
      refine ⟨l, t, hl, hlast, fun i hi => ?_⟩
      have := hinit i (by rw [hl, List.dropLast_concat]; exact hi)
      simpa using this
  · by_cases hb : b ∈ F.blocks
    · exact (hshape b hb).1.2
    · rw [body_ofTables hb]
      exact List.Pairwise.nil
  · have hi' : F.instr i = instrs.getD i (.branch [] []) := rfl
    by_cases hlt : i < instrs.length
    · rw [hi', List.getD_eq_getElem _ _ hlt] at hi ⊢
      exact hphi _ (List.getElem_mem hlt) hi
    · rw [hi', List.getD_eq_default _ _ (Nat.le_of_not_lt hlt)] at hi
      cases hi
  · have := hsucc b F.entry hentry
    exact (List.nodup_cons.mp hblocks).1 this
  · have hpreds : F.preds b = F.blocks.filter fun p => (F.successors p).contains b := rfl
    rw [hpreds, List.mem_filter, List.contains_iff_mem]
    refine ⟨fun hp => hp.2, fun hp => ⟨?_, hp⟩⟩
    by_contra hb
    rw [successors, getTerminator, body_ofTables hb] at hp
    cases hp

/-- **The verifier is sound.** -/
theorem verify_sound (hphi : ∀ I ∈ instrs, I.isPHI = true →
      I.mayReadOrWriteMemory = false ∧ I.mayHaveSideEffects = false)
    (h : (ofTables numArgs instrs first others).verify = true) :
    (ofTables numArgs instrs first others).WellFormed ∧
      (ofTables numArgs instrs first others).SSADominance := by
  have hwf := wellFormed_ofTables hphi h
  simp only [verify, Bool.and_eq_true, List.all_eq_true] at h
  refine ⟨hwf, fun {b u d} hu hphi huse => ?_, fun {b u p d} hu hphi huse => ?_⟩
  · have hcheck := h.2 b (hwf.mem_blocks hu) u hu
    rw [verifyInstr, if_neg (by simp [hphi]), List.all_eq_true] at hcheck
    exact (instDominatesB_iff hwf).mp (hcheck _ huse)
  · have hcheck := h.2 b (hwf.mem_blocks hu) u hu
    rw [verifyInstr, if_pos hphi, List.all_eq_true] at hcheck
    exact (availableOnEdgeB_iff hwf).mp (hcheck _ huse)

end Function

/-! ### Two blocks in a row -/

/-- The smallest function on which a trace has two blocks and an instruction to hoist: `0` computes a
value and branches to `1`, which uses the value and returns. -/
def twoBlocks : Function :=
  .ofTables 1
    [.value .other [.argument 0], .branch [] [1],
      .value .other [.instruction 0], .branch [.instruction 2] []]
    [0, 1] [[2, 3]]

theorem twoBlocks_wellFormed : twoBlocks.WellFormed :=
  (Function.verify_sound (by decide) rfl).1

theorem twoBlocks_ssa : twoBlocks.SSADominance :=
  (Function.verify_sound (by decide) rfl).2

/-! ### A loop -/

/-- A counting loop of one block: `1` is the counter, `2` its next value, which goes around the loop
and is returned. -/
def countingLoop : Function :=
  .ofTables 1
    [.branch [] [1],
      ⟨.phi, [.constant 0, .instruction 2], [0, 1], [], false, false, false, false⟩,
      .value .other [.instruction 1, .argument 0], .branch [.instruction 2] [1, 2],
      .branch [.instruction 2] []]
    [0] [[1, 2, 3], [4]]

theorem countingLoop_verified : countingLoop.WellFormed ∧ countingLoop.SSADominance :=
  Function.verify_sound (by decide) rfl

end TraceScheduler
