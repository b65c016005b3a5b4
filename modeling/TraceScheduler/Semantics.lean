import TraceScheduler.Library.Dataflow
import TraceScheduler.Library.Lockstep
import TraceScheduler.ScheduleLegality

/-!
# Execution of functions

A small-step semantics in which only the split into anchors and non-anchors is fixed.  A `Semantics`
supplies the rest: a non-anchor is a partial function of its operand values, undefined where it
traps; every other anchor and every terminator may read and change an arbitrary `World` (memory and
whatever calls do), may trap, and may never return.  PHIs are evaluated together, on entry to their
block, from the edge just taken.

The log records every block entered and every anchor executed with its operand values and result.
`Config.observe` is all that can be seen of a state: how the run stands, the world and the log.  The
SSA environment is not part of it.

`execInstr` is one instruction, `execInstrs` a block, `step` one instruction of a whole run.
-/

namespace TraceScheduler

/-- What an anchor that is neither PHI nor terminator does: it yields a value, never returns
(`exit`, an infinite loop, an exception that leaves the function), or has undefined behaviour. -/
inductive AnchorResult (V W : Type*)
  | value (v : V) (w : W)
  | stop (w : W)
  | trap

/-- What a terminator does. -/
inductive TerminatorResult (V W : Type*)
  | branch (b : BasicBlock) (v : V) (w : W)
  | ret (v : V) (w : W)
  | stop (w : W)
  | trap

/-- The meaning of instructions. `eval` covers the non-anchors; `poison` is what a PHI without an
entry for the edge taken evaluates to. -/
structure Semantics (V W : Type*) where
  constant : ℕ → V
  poison : V
  eval : InstrId → List V → Option V
  anchor : InstrId → List V → W → AnchorResult V W
  terminator : InstrId → List V → W → TerminatorResult V W

/-- One entry of the log; a result is missing when the operation did not return. -/
inductive Event (V : Type*)
  | enter (b : BasicBlock)
  | operation (i : InstrId) (operands : List V) (result : Option V)

structure State (V W : Type*) where
  env : InstrId → V
  world : W
  log : List (Event V)

/-- How the execution of one instruction, or of a block, ends. -/
inductive Outcome (V W : Type*)
  | next (s : State V W)
  | goto (b : BasicBlock) (s : State V W)
  | returned (v : V) (s : State V W)
  | stopped (s : State V W)
  | trapped

inductive Status (V : Type*)
  | running
  | returned (v : V)
  | stopped
  | trapped

/-- A run in progress: the block, what is left of it, and the state. -/
structure Config (V W : Type*) where
  block : BasicBlock
  rest : List InstrId
  state : State V W
  status : Status V

/-- The visible part of a configuration. -/
def Config.observe {V W : Type*} (c : Config V W) : Status V × W × List (Event V) :=
  (c.status, c.state.world, c.state.log)

section

variable {V W : Type*}

/-- `f(args)` with the constants of `sem`, in the environment `env`. -/
def Semantics.valueOf (sem : Semantics V W) (args : ℕ → V) (env : InstrId → V) : Value → V
  | .argument n => args n
  | .instruction i => env i
  | .constant n => sem.constant n

variable (F : Function) (sem : Semantics V W) (args : ℕ → V)

def operandValues (env : InstrId → V) (i : InstrId) : List V :=
  (F.instr i).operands.map (sem.valueOf args env)

def execTerminator (i : InstrId) (s : State V W) : Outcome V W :=
  let vals := operandValues F sem args s.env i
  match sem.terminator i vals s.world with
  | .branch b v w =>
      if (F.instr i).successors.contains b then
        .goto b ⟨Function.update s.env i v, w, s.log ++ [.operation i vals (some v)]⟩
      else .trapped
  | .ret v w => .returned v ⟨s.env, w, s.log ++ [.operation i vals (some v)]⟩
  | .stop w => .stopped ⟨s.env, w, s.log ++ [.operation i vals none]⟩
  | .trap => .trapped

def execAnchor (i : InstrId) (s : State V W) : Outcome V W :=
  let vals := operandValues F sem args s.env i
  match sem.anchor i vals s.world with
  | .value v w => .next ⟨Function.update s.env i v, w, s.log ++ [.operation i vals (some v)]⟩
  | .stop w => .stopped ⟨s.env, w, s.log ++ [.operation i vals none]⟩
  | .trap => .trapped

def execPure (i : InstrId) (s : State V W) : Outcome V W :=
  match sem.eval i (operandValues F sem args s.env i) with
  | some v => .next { s with env := Function.update s.env i v }
  | none => .trapped

/-- Execute one instruction. A PHI has its value already. -/
def execInstr (i : InstrId) (s : State V W) : Outcome V W :=
  if (F.instr i).isPHI then .next s
  else if (F.instr i).isTerminator then execTerminator F sem args i s
  else if F.isAnchor i then execAnchor F sem args i s
  else execPure F sem args i s

/-- Execute the instructions of a block from some point on; running off its end is no execution. -/
def execInstrs : List InstrId → State V W → Outcome V W
  | [], _ => .trapped
  | i :: rest, s =>
      match execInstr F sem args i s with
      | .next s' => execInstrs rest s'
      | o => o

/-- The value of a PHI on the edge from `prev`. -/
def phiValue (env : InstrId → V) (prev : Option BasicBlock) (i : InstrId) : V :=
  match ((F.instr i).incoming.zip (F.instr i).operands).find? fun e => some e.1 = prev with
  | some (_, v) => sem.valueOf args env v
  | none => sem.poison

/-- Enter a block: all its PHIs take the value of the edge at once. -/
def enterBlock (prev : Option BasicBlock) (b : BasicBlock) (s : State V W) : State V W where
  env i :=
    if (F.instr i).isPHI && (F.body b).contains i then phiValue F sem args s.env prev i else s.env i
  world := s.world
  log := s.log ++ [.enter b]

/-- Execute a whole block, entered from `prev`. -/
def execBlock (prev : Option BasicBlock) (b : BasicBlock) (s : State V W) : Outcome V W :=
  execInstrs F sem args (F.body b) (enterBlock F sem args prev b s)

def step (c : Config V W) : Config V W :=
  match c.status with
  | .running =>
      match c.rest with
      | [] => { c with status := .trapped }
      | i :: rest =>
          match execInstr F sem args i c.state with
          | .next s => { c with rest := rest, state := s }
          | .goto b s => ⟨b, F.body b, enterBlock F sem args (some c.block) b s, .running⟩
          | .returned v s => { c with state := s, status := .returned v }
          | .stopped s => { c with state := s, status := .stopped }
          | .trapped => { c with status := .trapped }
  | _ => c

/-- The call of the function with a given world. -/
def start (w : W) : Config V W :=
  ⟨F.entry, F.body F.entry,
    enterBlock F sem args none F.entry ⟨fun _ => sem.poison, w, []⟩, .running⟩

/-- The state after `n` instructions. -/
def runSteps (w : W) (n : ℕ) : Config V W := (step F sem args)^[n] (start F sem args w)

/-- The run has no undefined behaviour. -/
def NoUndefinedBehaviour (w : W) : Prop := ∀ n, (runSteps F sem args w n).status ≠ .trapped

/-! ### The pure part of a function -/

variable {F sem args}

theorem operandValues_congr {env env' : InstrId → V} {i : InstrId}
    (h : ∀ d, F.Uses i d → env d = env' d) :
    operandValues F sem args env i = operandValues F sem args env' i := by
  refine List.map_congr_left fun v hv => ?_
  cases v with
  | argument n => rfl
  | instruction d => exact h d hv
  | constant n => rfl

variable (F sem args)

/-- The non-anchors of a function, apart from a set of names read from the environment. -/
def pureDataflow (base : InstrId → Prop) : Dataflow InstrId V where
  base := base
  deps := F.Uses
  eval i env := sem.eval i (operandValues F sem args env i)
  eval_congr _ _ _ h := by rw [operandValues_congr h]

variable {F sem args}

theorem execInstr_of_not_anchor {i : InstrId} (h : F.isAnchor i = false) (s : State V W) :
    execInstr F sem args i s = execPure F sem args i s := by
  have hphi := isPHI_of_not_anchor h
  have hterm := isTerminator_of_not_anchor h
  simp [execInstr, hphi, hterm, h]

@[simp] theorem pureDataflow_eval (base : InstrId → Prop) (i : InstrId) (env : InstrId → V) :
    (pureDataflow F sem args base).eval i env = sem.eval i (operandValues F sem args env i) := rfl

variable (sem args) in
/-- One step at a non-anchor. -/
theorem step_of_not_anchor {i : InstrId} (hi : F.isAnchor i = false) {t : List InstrId}
    {c : Config V W} (hc : c.status = .running) (hrest : c.rest = i :: t) :
    step F sem args c =
      match sem.eval i (operandValues F sem args c.state.env i) with
      | some v =>
          { c with rest := t, state := { c.state with env := Function.update c.state.env i v } }
      | none => { c with status := .trapped } := by
  rw [step, hc, hrest]
  dsimp only
  rw [execInstr_of_not_anchor hi, execPure]
  cases sem.eval i (operandValues F sem args c.state.env i) with
  | none => rfl
  | some v => rfl

variable (sem args) in
/-- A run of non-anchors is a run of the pure part: it touches the environment only. -/
theorem execInstrs_region (base : InstrId → Prop) {r : List InstrId}
    (hr : ∀ i ∈ r, F.isAnchor i = false) (t : List InstrId) (s : State V W) :
    execInstrs F sem args (r ++ t) s =
      match (pureDataflow F sem args base).run r s.env with
      | some env => execInstrs F sem args t { s with env := env }
      | none => .trapped := by
  induction r generalizing s with
  | nil => rfl
  | cons i r ih =>
    rw [List.cons_append, execInstrs, execInstr_of_not_anchor (hr i List.mem_cons_self), execPure,
      Dataflow.run, pureDataflow_eval]
    cases sem.eval i (operandValues F sem args s.env i) with
    | none => rfl
    | some v => exact ih (fun j hj => hr j (List.mem_cons_of_mem _ hj)) _

/-- The same for the machine: the steps through a region are silent. -/
theorem step_region {base : InstrId → Prop} {r : List InstrId}
    (hr : ∀ i ∈ r, F.isAnchor i = false) {t : List InstrId} {c : Config V W} {env : InstrId → V}
    (hc : c.status = .running) (hrest : c.rest = r ++ t)
    (hrun : (pureDataflow F sem args base).run r c.state.env = some env) :
    (step F sem args)^[r.length] c =
        { c with rest := t, state := { c.state with env := env } } ∧
      ∀ k ≤ r.length, ((step F sem args)^[k] c).observe = c.observe := by
  induction r generalizing c with
  | nil =>
    obtain rfl := Option.some.inj hrun
    refine ⟨by rw [List.nil_append] at hrest; rw [← hrest]; rfl, fun k hk => ?_⟩
    obtain rfl := Nat.le_zero.mp hk
    rfl
  | cons i r ih =>
    rw [Dataflow.run, pureDataflow_eval] at hrun
    rw [List.cons_append] at hrest
    have hstep := step_of_not_anchor sem args (hr i List.mem_cons_self) hc hrest
    cases heval : sem.eval i (operandValues F sem args c.state.env i) with
    | none => rw [heval] at hrun; cases hrun
    | some v =>
      rw [heval] at hrun hstep
      dsimp only at hstep
      have hobs : (step F sem args c).observe = c.observe := by rw [hstep]; rfl
      obtain ⟨hend, hsilent⟩ := ih (c := step F sem args c)
        (fun j hj => hr j (List.mem_cons_of_mem _ hj)) (by rw [hstep]; exact hc)
        (by rw [hstep]) (by rw [hstep]; exact hrun)
      refine ⟨?_, fun k hk => ?_⟩
      · rw [List.length_cons, Function.iterate_succ_apply, hend, hstep]
      · cases k with
        | zero => rfl
        | succ k =>
          rw [Function.iterate_succ_apply, hsilent k (by simpa using hk), hobs]

/-- A region with a trapping member traps. -/
theorem step_region_trap {base : InstrId → Prop} {r : List InstrId}
    (hr : ∀ i ∈ r, F.isAnchor i = false) {t : List InstrId} {c : Config V W}
    (hc : c.status = .running) (hrest : c.rest = r ++ t)
    (hrun : (pureDataflow F sem args base).run r c.state.env = none) :
    ∃ k, ((step F sem args)^[k] c).status = .trapped := by
  induction r generalizing c with
  | nil => cases hrun
  | cons i r ih =>
    rw [Dataflow.run, pureDataflow_eval] at hrun
    rw [List.cons_append] at hrest
    have hstep := step_of_not_anchor sem args (hr i List.mem_cons_self) hc hrest
    cases heval : sem.eval i (operandValues F sem args c.state.env i) with
    | none =>
      refine ⟨1, ?_⟩
      rw [Function.iterate_one, hstep, heval]
    | some v =>
      rw [heval] at hrun hstep
      dsimp only at hstep
      obtain ⟨k, hk⟩ := ih (c := step F sem args c)
        (fun j hj => hr j (List.mem_cons_of_mem _ hj)) (by rw [hstep]; exact hc)
        (by rw [hstep]) (by rw [hstep]; exact hrun)
      exact ⟨k + 1, by rw [Function.iterate_succ_apply]; exact hk⟩

end

end TraceScheduler
