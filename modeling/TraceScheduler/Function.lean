import TraceScheduler.Library.BreadthFirst
import TraceScheduler.Library.PairOrder
import Mathlib.Data.List.Basic

/-!
# Functions in SSA form

The part of LLVM IR the scheduler looks at.  A `Function` has two halves: a table `instr` that says
what each instruction is (opcode, operands, successors, the answers of LLVM's memory and side-effect
queries), which no pass here ever writes, and the placement `body`, the instruction list of each
block, which is all that `moveBefore` changes.  Blocks and instructions are pointers in the source;
here they are numbers, compared for equality only.

* `Function.cfg`: the control-flow graph, read off the terminators;
* `WellFormed`: the structural rules of the verifier (one terminator, last; PHIs first; an
  instruction sits in one place);
* `InstDominates`, `AvailableOnEdge`: LLVM's instruction dominance at the current positions, with the
  exception for `invoke`, whose result exists on its normal edge only;
* `SSADominance`: every non-PHI use is dominated by its definition and every PHI operand is available
  at the end of its incoming block;
* `DominatorTree`: the answers of LLVM's dominator tree, exact by construction.
-/

namespace TraceScheduler

open scoped List

abbrev BasicBlock := ℕ

abbrev InstrId := ℕ

/-- The instruction classes the scheduler tells apart. `terminator` stands for every terminator that
is neither a call nor an EH pad, `other` for every remaining instruction. -/
inductive Opcode
  | phi | alloca | load | store | call | invoke | callBr
  | mul | udiv | sdiv
  | landingPad | catchPad | cleanupPad | catchSwitch
  | terminator | other
  deriving DecidableEq, Repr

/-- What an operand refers to. -/
inductive Value
  | argument (n : ℕ)
  | instruction (i : InstrId)
  | constant (n : ℕ)
  deriving DecidableEq, Repr

/-- An instruction without its position. `incoming` lists the blocks of a PHI, one for each operand;
`successors` the blocks a terminator may branch to, an `invoke`'s normal destination first. -/
structure Instruction where
  opcode : Opcode
  operands : List Value
  incoming : List BasicBlock
  successors : List BasicBlock
  isVoidTy : Bool
  isTokenTy : Bool
  mayReadOrWriteMemory : Bool
  mayHaveSideEffects : Bool
  deriving DecidableEq, Repr

namespace Instruction

def isPHI (I : Instruction) : Bool := I.opcode == .phi

def isTerminator (I : Instruction) : Bool :=
  match I.opcode with
  | .terminator | .invoke | .callBr | .catchSwitch => true
  | _ => false

def isEHPad (I : Instruction) : Bool :=
  match I.opcode with
  | .landingPad | .catchPad | .cleanupPad | .catchSwitch => true
  | _ => false

def isCallBase (I : Instruction) : Bool :=
  match I.opcode with
  | .call | .invoke | .callBr => true
  | _ => false

/-- The block in which the result of an `invoke` exists. -/
def normalDest (I : Instruction) : Option BasicBlock := I.successors.head?

theorem not_isTerminator_of_isPHI {I : Instruction} (h : I.isPHI = true) :
    I.isTerminator = false := by
  simp only [isPHI, beq_iff_eq] at h
  simp [isTerminator, h]

end Instruction

structure Function where
  numArgs : ℕ
  entry : BasicBlock
  otherBlocks : List BasicBlock
  body : BasicBlock → List InstrId
  instr : InstrId → Instruction
  preds : BasicBlock → List BasicBlock

/-- Insert `i` before the first occurrence of `before`. -/
def insertBefore (i before : InstrId) : List InstrId → List InstrId
  | [] => []
  | x :: xs => if x = before then i :: x :: xs else x :: insertBefore i before xs

namespace Function

def blocks (F : Function) : List BasicBlock := F.entry :: F.otherBlocks

/-- The last instruction of a block, if it is a terminator. -/
def getTerminator (F : Function) (b : BasicBlock) : Option InstrId :=
  (F.body b).getLast?.filter fun t => (F.instr t).isTerminator

def successors (F : Function) (b : BasicBlock) : List BasicBlock :=
  match F.getTerminator b with
  | some t => (F.instr t).successors
  | none => []

def cfg (F : Function) : FlowGraph BasicBlock := ⟨F.entry, F.successors⟩

/-- The block that holds `i`. -/
def getParent (F : Function) (i : InstrId) : BasicBlock :=
  (F.blocks.find? fun b => (F.body b).contains i).getD F.entry

/-- `i->moveBefore(*bb, before)`: unlink `i` and insert it in `bb` before the instruction `before`. -/
def moveBefore (F : Function) (i : InstrId) (bb : BasicBlock) (before : InstrId) : Function :=
  { F with
    body := fun b =>
      if b = bb then insertBefore i before ((F.body b).erase i) else (F.body b).erase i }

/-- The structural rules of the IR verifier. -/
structure WellFormed (F : Function) : Prop where
  blocks_nodup : F.blocks.Nodup
  body_nodup : ∀ b, (F.body b).Nodup
  body_unique : ∀ {i b b'}, i ∈ F.body b → i ∈ F.body b' → b = b'
  mem_blocks : ∀ {i b}, i ∈ F.body b → b ∈ F.blocks
  terminated : ∀ b ∈ F.blocks, ∃ l t, F.body b = l ++ [t] ∧ (F.instr t).isTerminator = true ∧
    ∀ i ∈ l, (F.instr i).isTerminator = false
  phis_first : ∀ b, (F.body b).Pairwise fun i j =>
    (F.instr j).isPHI = true → (F.instr i).isPHI = true
  phi_pure : ∀ i, (F.instr i).isPHI = true →
    (F.instr i).mayReadOrWriteMemory = false ∧ (F.instr i).mayHaveSideEffects = false
  succs_mem : ∀ b, ∀ s ∈ F.successors b, s ∈ F.blocks
  entry_not_succ : ∀ b, F.entry ∉ F.successors b
  mem_preds : ∀ b p, p ∈ F.preds b ↔ b ∈ F.successors p

/-! ### Dominance of instructions -/

/-- `dominates(Instruction *d, BasicBlock *b)`: the value of `d` exists on entry to `b`. -/
def AvailableIn (F : Function) (d : InstrId) (b : BasicBlock) : Prop :=
  ∃ bd, d ∈ F.body bd ∧
    if (F.instr d).opcode = .invoke then
      ∃ n, (F.instr d).normalDest = some n ∧ F.cfg.EdgeDominates bd n b
    else F.cfg.StrictlyDominates bd b

/-- `dominates(Value *d, Instruction *u)` for a user `u` that is no PHI, at the current positions. -/
def InstDominates (F : Function) (d u : InstrId) : Prop :=
  ∃ b, u ∈ F.body b ∧ (¬ F.cfg.Reachable b ∨ F.AvailableIn d b ∨ [d, u] <+ F.body b)

/-- `d` may flow into a PHI of `b` from the incoming block `p`. -/
def AvailableOnEdge (F : Function) (d : InstrId) (p b : BasicBlock) : Prop :=
  ¬ F.cfg.Reachable p ∨ F.AvailableIn d p ∨
    (d ∈ F.body p ∧ ((F.instr d).opcode = .invoke → (F.instr d).normalDest = some b))

/-- The dominance condition of SSA form. -/
structure SSADominance (F : Function) : Prop where
  use : ∀ {b u d}, u ∈ F.body b → (F.instr u).isPHI = false →
    Value.instruction d ∈ (F.instr u).operands → F.InstDominates d u
  phi : ∀ {b u p d}, u ∈ F.body b → (F.instr u).isPHI = true →
    (p, Value.instruction d) ∈ (F.instr u).incoming.zip (F.instr u).operands →
    F.AvailableOnEdge d p b

/-! ### Parents and terminators -/

variable {F : Function} {i t : InstrId} {b : BasicBlock}

theorem entry_mem_blocks : F.entry ∈ F.blocks := List.mem_cons_self

@[simp] theorem cfg_entry : F.cfg.entry = F.entry := rfl

@[simp] theorem cfg_succs : F.cfg.succs b = F.successors b := rfl

theorem getTerminator_eq_some : F.getTerminator b = some t ↔
    (F.body b).getLast? = some t ∧ (F.instr t).isTerminator = true := by
  rw [getTerminator, Option.filter_eq_some_iff]

theorem getTerminator_append {l : List InstrId} (h : F.body b = l ++ [t])
    (ht : (F.instr t).isTerminator = true) : F.getTerminator b = some t := by
  rw [getTerminator_eq_some, h, List.getLast?_concat]
  exact ⟨rfl, ht⟩

theorem successors_append {l : List InstrId} (h : F.body b = l ++ [t])
    (ht : (F.instr t).isTerminator = true) : F.successors b = (F.instr t).successors := by
  rw [successors, getTerminator_append h ht]

theorem getParent_of_mem (hb : b ∈ F.blocks) (hi : i ∈ F.body b)
    (hunique : ∀ b', i ∈ F.body b' → b' = b) : F.getParent i = b := by
  have hex : ∃ b' ∈ F.blocks, (F.body b').contains i = true := ⟨b, hb, by simpa using hi⟩
  obtain ⟨b', hb'⟩ := Option.isSome_iff_exists.mp (List.find?_isSome.mpr hex)
  rw [getParent, hb', Option.getD_some]
  exact hunique b' (by simpa using List.find?_some hb')

namespace WellFormed

variable (h : F.WellFormed)

include h

theorem getParent_eq (hi : i ∈ F.body b) : F.getParent i = b :=
  getParent_of_mem (h.mem_blocks hi) hi fun _ hi' => h.body_unique hi' hi

/-- A block's terminator is its only one. -/
theorem eq_terminator {l : List InstrId} (hb : F.body b = l ++ [t]) (hi : i ∈ F.body b)
    (hterm : (F.instr i).isTerminator = true) : i = t := by
  obtain ⟨l', t', hb', _, hl'⟩ := h.terminated b (h.mem_blocks hi)
  have heq := hb.symm.trans hb'
  obtain ⟨_, ht⟩ := List.append_inj' heq rfl
  obtain rfl : t = t' := by simpa using ht
  rw [hb', List.mem_append, List.mem_singleton] at hi
  rcases hi with hi | hi
  · rw [hl' i hi] at hterm
    cases hterm
  · exact hi

/-- Nothing follows a terminator. -/
theorem eq_nil_of_isTerminator {l l' : List InstrId} (hb : F.body b = l ++ t :: l')
    (hterm : (F.instr t).isTerminator = true) : l' = [] := by
  obtain ⟨m, u, hbody, _, hm⟩ := h.terminated b (h.mem_blocks (i := t) (by rw [hb]; simp))
  rcases List.eq_nil_or_concat l' with hl | ⟨l'', x, rfl⟩
  · exact hl
  · have heq : (l ++ t :: l'') ++ [x] = m ++ [u] := by
      rw [← hbody, hb]
      simp
    obtain ⟨rfl, _⟩ := List.append_inj' heq rfl
    rw [hm t (by simp)] at hterm
    cases hterm

/-- What comes before something else is no terminator. -/
theorem not_isTerminator_of_before {d u : InstrId} (hbefore : [d, u] <+ F.body b) :
    (F.instr d).isTerminator = false := by
  obtain ⟨l₁, l₂, hbody, hd⟩ := sublist_pair_iff.mp hbefore
  obtain ⟨m₁, m₂, rfl⟩ := List.append_of_mem hd
  have hsplit : F.body b = m₁ ++ d :: (m₂ ++ u :: l₂) := by
    rw [hbody]
    simp
  by_contra hterm
  have hnil := h.eq_nil_of_isTerminator hsplit (by simpa using hterm)
  simp at hnil

theorem exists_terminator (hb : b ∈ F.blocks) : ∃ l t, F.body b = l ++ [t] ∧
    F.getTerminator b = some t ∧ (F.instr t).isTerminator = true := by
  obtain ⟨l, t, hbody, ht, _⟩ := h.terminated b hb
  exact ⟨l, t, hbody, getTerminator_append hbody ht, ht⟩

theorem not_mem_of_ne {b' : BasicBlock} (hi : i ∈ F.body b) (hne : b' ≠ b) : i ∉ F.body b' :=
  fun hi' => hne (h.body_unique hi' hi)

/-- An instruction occurs once in the function. -/
theorem flatMap_nodup : (F.blocks.flatMap F.body).Nodup := by
  refine List.nodup_flatMap.mpr ⟨fun b _ => h.body_nodup b, h.blocks_nodup.imp fun hne i hi hi' => ?_⟩
  exact hne (h.body_unique hi hi')

theorem mem_flatMap : i ∈ F.blocks.flatMap F.body ↔ ∃ b, i ∈ F.body b := by
  rw [List.mem_flatMap]
  exact ⟨fun ⟨b, _, hi⟩ => ⟨b, hi⟩, fun ⟨b, hi⟩ => ⟨b, h.mem_blocks hi, hi⟩⟩

end WellFormed

end Function

/-- The dominator tree of a control-flow graph: block dominance, and instruction dominance at the
positions of whatever function with that graph is queried. -/
structure DominatorTree (G : FlowGraph BasicBlock) where
  dominates : BasicBlock → BasicBlock → Bool
  dominatesInst : Function → InstrId → InstrId → Bool
  dominates_iff : ∀ a b, dominates a b = true ↔ G.Dominates a b
  dominatesInst_iff : ∀ F : Function, F.WellFormed → F.cfg = G → ∀ d u,
    (F.instr u).isPHI = false → (dominatesInst F d u = true ↔ F.InstDominates d u)

/-- A function under transformation, with the functions it has been, one for each completed edit. -/
structure Trail where
  current : Function
  moments : List Function

def Trail.start (F : Function) : Trail := ⟨F, []⟩

def Trail.commit (tr : Trail) (F : Function) : Trail := ⟨F, tr.moments ++ [F]⟩

end TraceScheduler
