import TraceScheduler.CodeMotion
import TraceScheduler.SsaOrder

/-!
# Legal code motion preserves behaviour

`Rescheduled safe F F'` is all that a run of legal edits leaves to say about its two ends: the same
code and the same control-flow graph, both in SSA form, the same anchors in every block in the same
order, and between two anchors nothing new but instructions that satisfy `safe`.  If those never
trap, the two functions cannot be told apart.

The argument runs both functions anchor by anchor (`Rescheduled.lockstep`).  Between anchors only
pure instructions execute, silently.  At an anchor the environments agree on what it reads, although
they may disagree elsewhere: every available pure name holds what it denotes over the anchors
executed so far, and that does not depend on where the name was computed.

* `Rescheduled.behaviour`: whole runs, every finite prefix of one matched by one of the other;
* `Motions.execBlock_eq`: when nothing leaves its block, executing a block from **any** state gives
  the same outcome, environment included.
-/

namespace TraceScheduler

open scoped List

structure Rescheduled (safe : InstrId → Prop) (F F' : Function) : Prop where
  wf : F.WellFormed
  wf' : F'.WellFormed
  ssa : F.SSADominance
  ssa' : F'.SSADominance
  code : SameCode F F'
  cfg : F'.cfg = F.cfg
  anchors : ∀ {i b}, F.isAnchor i = true → (i ∈ F'.body b ↔ i ∈ F.body b)
  aligned : ∀ b, Aligned F.isAnchor (GainsOnly safe) (F.body b) (F'.body b)

theorem Motions.rescheduled {P : InstrId → BasicBlock → BasicBlock → Prop} {F F' : Function}
    {safe : InstrId → Prop} (h : Motions P F F') (hwf : F.WellFormed) (hssa : F.SSADominance)
    (hP : ∀ i src dst, P i src dst → safe i) : Rescheduled safe F F' where
  wf := hwf
  wf' := h.wellFormed hwf
  ssa := hssa
  ssa' := h.ssa hwf hssa
  code := h.sameCode
  cfg := h.cfg_eq hwf
  anchors := h.mem_of_anchor hwf
  aligned := h.aligned hP

section

variable {V W : Type*} {sem : Semantics V W} {args : ℕ → V} {F F' : Function}

/-- The code of two functions is one, so are their execution functions on one instruction. -/
theorem operandValues_eq_of_instr (h : F'.instr = F.instr) :
    operandValues F' sem args = operandValues F sem args := by
  funext env i
  rw [operandValues, operandValues, h]

theorem isAnchor_eq_of_instr (h : F'.instr = F.instr) : F'.isAnchor = F.isAnchor := by
  funext i
  rw [Function.isAnchor, Function.isAnchor, h]

theorem uses_eq_of_instr (h : F'.instr = F.instr) : F'.Uses = F.Uses := by
  funext i d
  rw [Function.Uses, Function.Uses, h]

theorem execInstr_eq_of_instr (h : F'.instr = F.instr) :
    execInstr F' sem args = execInstr F sem args := by
  funext i s
  rw [execInstr, execInstr, execTerminator, execTerminator, execAnchor, execAnchor, execPure,
    execPure, operandValues_eq_of_instr h, isAnchor_eq_of_instr h, h]

theorem pureDataflow_eq_of_instr (h : F'.instr = F.instr) (base : InstrId → Prop) :
    pureDataflow F' sem args base = pureDataflow F sem args base := by
  simp only [pureDataflow, operandValues_eq_of_instr h, uses_eq_of_instr h]

/-! ### The invariant of one run -/

/-- The pure part of a function over its anchors. -/
abbrev overAnchors (F : Function) (sem : Semantics V W) (args : ℕ → V) : Dataflow InstrId V :=
  pureDataflow F sem args fun i => F.isAnchor i = true

theorem overAnchors_eq_of_instr (h : F'.instr = F.instr) :
    overAnchors F' sem args = overAnchors F sem args := by
  rw [overAnchors, pureDataflow_eq_of_instr h, isAnchor_eq_of_instr h]

/-- A running configuration in reachable code: every pure value that exists is up to date. -/
structure Current (F : Function) (sem : Semantics V W) (args : ℕ → V) (c : Config V W)
    (done : List InstrId) : Prop where
  running : c.status = .running
  body : F.body c.block = done ++ c.rest
  reach : F.cfg.Reachable c.block
  holds : (overAnchors F sem args).Holds c.state.env (F.AvailAt c.block done)

section OneRun

variable {c : Config V W} {done r t : List InstrId} {a d : InstrId}

/-- The next region, as definitions that read only what exists. -/
theorem Current.ordered (hwf : F.WellFormed) (hssa : F.SSADominance)
    (h : Current F sem args c done) (hrest : c.rest = r ++ t)
    (hr : ∀ i ∈ r, F.isAnchor i = false) :
    (overAnchors F sem args).Ordered (F.AvailAt c.block done) r := by
  refine Dataflow.ordered_of_split fun l₁ i l₂ heq => ?_
  have hi : F.isAnchor i = false := hr i (by rw [heq]; simp)
  refine ⟨by simp [pureDataflow, hi], fun d huse => ?_⟩
  by_cases hd : F.isAnchor d = true
  · exact .inl hd
  · have hbody : F.body c.block = (done ++ l₁) ++ i :: (l₂ ++ t) := by
      rw [h.body, hrest, heq]
      simp
    obtain ⟨hda, hav⟩ := Function.availAt_of_uses hwf hssa h.reach hbody (isPHI_of_not_anchor hi)
      huse (by simpa using hd)
    rcases hav with hav | hav
    · rcases List.mem_append.mp hav with hav | hav
      · exact .inr (.inl ⟨hda, .inl hav⟩)
      · exact .inr (.inr hav)
    · exact .inr (.inl ⟨hda, .inr hav⟩)

/-- Behind a region the invariant holds again. -/
theorem Current.region (hwf : F.WellFormed) (hssa : F.SSADominance)
    (h : Current F sem args c done) (hrest : c.rest = r ++ t)
    (hr : ∀ i ∈ r, F.isAnchor i = false) {env : InstrId → V}
    (hrun : (overAnchors F sem args).run r c.state.env = some env) :
    Current F sem args { c with rest := t, state := { c.state with env := env } } (done ++ r) := by
  obtain ⟨hholds, _, _⟩ := h.holds.run (h.ordered hwf hssa hrest hr) hrun
  refine ⟨h.running, by rw [h.body, hrest, List.append_assoc], h.reach, hholds.mono ?_⟩
  rintro x ⟨hxa, hx | hx⟩
  · rcases List.mem_append.mp hx with hx | hx
    · exact .inl ⟨hxa, .inl hx⟩
    · exact .inr hx
  · exact .inl ⟨hxa, .inr hx⟩

/-- Writing the result of the next anchor leaves every pure value up to date. -/
theorem Current.write (hwf : F.WellFormed) (hssa : F.SSADominance)
    (h : Current F sem args c done) (hrest : c.rest = a :: t) (ha : F.isAnchor a = true) (v : V) :
    (overAnchors F sem args).Holds (Function.update c.state.env a v) (F.AvailAt c.block done) := by
  refine h.holds.write (S := fun y => y = a) ?_ ?_ ?_
  · rintro y rfl
    exact ha
  · intro y hy
    rw [Function.update_of_ne hy]
  · rintro x hx _ y rfl
    exact Function.not_dependsOn hwf hssa (fun _ hy => hy) h.body h.reach
      (by rw [hrest]; exact List.mem_cons_self) ha hx

/-- Evaluating the PHIs of a block on entry leaves every pure value up to date. -/
theorem Current.enter (hwf : F.WellFormed) (hssa : F.SSADominance)
    (h : Current F sem args c done) (hrest : c.rest = [a])
    (hterm : (F.instr a).isTerminator = true) {s : BasicBlock} (hs : s ∈ F.successors c.block)
    (v : V) (w : W) (log : List (Event V)) :
    Current F sem args ⟨s, F.body s, enterBlock F sem args (some c.block) s
      ⟨Function.update c.state.env a v, w, log⟩, .running⟩ [] := by
  have hreach : F.cfg.Reachable s := h.reach.step hs
  have hbody : F.body c.block = done ++ [a] := by rw [h.body, hrest]
  refine ⟨rfl, rfl, hreach, ?_⟩
  have hwrite := (h.write hwf hssa hrest (isSchedulingAnchor_of_isTerminator hterm) v).mono
    fun x hx => Function.AvailAt.pred hbody hterm hs hx
  refine hwrite.write (S := fun y => (F.instr y).isPHI = true ∧ y ∈ F.body s) ?_ ?_ ?_
  · exact fun y hy => isSchedulingAnchor_of_isPHI hy.1
  · intro y hy
    have : ((F.instr y).isPHI && (F.body s).contains y) = false := by
      rw [← Bool.not_eq_true, Bool.and_eq_true, List.contains_iff_mem]
      exact hy
    simp only [enterBlock, this, Bool.false_eq_true, if_false]
  · rintro x hx _ y ⟨hphi, hy⟩
    have hbody₀ : F.body s = [] ++ F.body s := rfl
    exact Function.not_dependsOn hwf hssa (fun _ hy => hy) hbody₀ hreach hy
      (isSchedulingAnchor_of_isPHI hphi) hx

end OneRun

/-! ### Two runs side by side -/

/-- Both functions stand before corresponding parts of one block and agree on all anchors. -/
structure InStep (safe : InstrId → Prop) (F F' : Function) (sem : Semantics V W) (args : ℕ → V)
    (c c' : Config V W) (done done' : List InstrId) : Prop where
  left : Current F sem args c done
  right : Current F' sem args c' done'
  block : c'.block = c.block
  world : c'.state.world = c.state.world
  log : c'.state.log = c.state.log
  agree : ∀ a, F.isAnchor a = true → c.state.env a = c'.state.env a
  aligned : Aligned F.isAnchor (GainsOnly safe) c.rest c'.rest
  noTrap : ∀ n, ((step F sem args)^[n] c).status ≠ .trapped

/-- Related configurations: in step, or both ended in the same way. -/
def Related (safe : InstrId → Prop) (F F' : Function) (sem : Semantics V W) (args : ℕ → V)
    (c c' : Config V W) : Prop :=
  (∃ done done', InStep safe F F' sem args c c' done done') ∨
    (c.status ≠ .running ∧ c'.status ≠ .running ∧ c'.observe = c.observe)

theorem step_of_ended {c : Config V W} (h : c.status ≠ .running) : step F sem args c = c := by
  rw [step]
  split
  · rename_i heq
    exact absurd heq h
  · rfl

namespace InStep

variable {safe : InstrId → Prop} {c c' : Config V W} {done done' r r' t t' : List InstrId}
  {a : InstrId}

theorem observe_eq (h : InStep safe F F' sem args c c' done done') : c'.observe = c.observe := by
  rw [Config.observe, Config.observe, h.left.running, h.right.running, h.world, h.log]

/-- At corresponding anchors both functions read the same operand values. -/
theorem operandValues_eq (hsched : Rescheduled safe F F')
    (h : InStep safe F F' sem args c c' done done') (hrest : c.rest = a :: t)
    (hrest' : c'.rest = a :: t') (hphi : (F.instr a).isPHI = false) :
    operandValues F sem args c.state.env a = operandValues F sem args c'.state.env a := by
  refine operandValues_congr fun d huse => ?_
  by_cases hd : F.isAnchor d = true
  · exact h.agree d hd
  · have hd' : F.isAnchor d = false := by simpa using hd
    have hright := h.right.holds
    rw [overAnchors_eq_of_instr hsched.code.instr] at hright
    have hbody : F.body c.block = done ++ a :: t := by rw [h.left.body, hrest]
    have hbody' : F'.body c'.block = done' ++ a :: t' := by rw [h.right.body, hrest']
    have hinstr := hsched.code.instr
    refine h.left.holds.agree hright (fun b hb => h.agree b hb) (.inr ?_) (.inr ?_)
    · exact Function.availAt_of_uses hsched.wf hsched.ssa h.left.reach hbody hphi huse hd'
    · refine Function.availAt_of_uses hsched.wf' hsched.ssa' h.right.reach hbody' ?_ ?_ ?_
      · rw [hinstr]
        exact hphi
      · rw [uses_eq_of_instr hinstr]
        exact huse
      · rw [isAnchor_eq_of_instr hinstr]
        exact hd'

/-- On corresponding edges both functions give a PHI the same value. -/
theorem phiValue_eq (hsched : Rescheduled safe F F')
    (h : InStep safe F F' sem args c c' done done') (hrest : c.rest = [a])
    (hrest' : c'.rest = [a]) (hterm : (F.instr a).isTerminator = true) {s : BasicBlock} {i : InstrId}
    (hi : i ∈ F.body s) (hphi : (F.instr i).isPHI = true) (v : V) :
    phiValue F sem args (Function.update c.state.env a v) (some c.block) i =
      phiValue F' sem args (Function.update c'.state.env a v) (some c'.block) i := by
  rw [phiValue, phiValue, hsched.code.instr, h.block]
  cases hfind : ((F.instr i).incoming.zip (F.instr i).operands).find?
      fun e => some e.1 = some c.block with
  | none => rfl
  | some e =>
    obtain ⟨p, u⟩ := e
    obtain rfl : p = c.block := by simpa using List.find?_some hfind
    have hmem := List.mem_of_find?_eq_some hfind
    cases u with
    | argument n => rfl
    | constant n => rfl
    | instruction d =>
      show Function.update c.state.env a v d = Function.update c'.state.env a v d
      by_cases hda : d = a
      · rw [hda, Function.update_self, Function.update_self]
      · rw [Function.update_of_ne hda, Function.update_of_ne hda]
        by_cases hd : F.isAnchor d = true
        · exact h.agree d hd
        · have hd' : F.isAnchor d = false := by simpa using hd
          have hi' : i ∈ F'.body s := (hsched.anchors (isSchedulingAnchor_of_isPHI hphi)).mpr hi
          have hright := h.right.holds
          rw [overAnchors_eq_of_instr hsched.code.instr] at hright
          refine h.left.holds.agree hright (fun b hb => h.agree b hb) (.inr ?_) (.inr ?_)
          · exact Function.availAt_of_edge h.left.reach (by rw [h.left.body, hrest]) hterm
              (hsched.ssa.phi hi hphi hmem) hd'
          · refine Function.availAt_of_edge h.right.reach (by rw [h.right.body, hrest'])
              (by rw [hsched.code.instr]; exact hterm) (s := s) ?_
              (by rw [Function.isAnchor, hsched.code.instr]; exact hd')
            rw [h.block]
            exact hsched.ssa'.phi hi' (by rw [hsched.code.instr]; exact hphi)
              (by rw [hsched.code.instr]; exact hmem)

/-- On corresponding edges the anchors of the next block start out alike. -/
theorem enterBlock_agree (hsched : Rescheduled safe F F')
    (h : InStep safe F F' sem args c c' done done') (hrest : c.rest = [a])
    (hrest' : c'.rest = [a]) (hterm : (F.instr a).isTerminator = true) {s : BasicBlock} (v : V)
    (w : W) (log : List (Event V)) {x : InstrId} (hx : F.isAnchor x = true) :
    (enterBlock F sem args (some c.block) s ⟨Function.update c.state.env a v, w, log⟩).env x =
      (enterBlock F' sem args (some c'.block) s
        ⟨Function.update c'.state.env a v, w, log⟩).env x := by
  have hcontains : (F'.body s).contains x = (F.body s).contains x := by
    rw [Bool.eq_iff_iff, List.contains_iff_mem, List.contains_iff_mem]
    exact hsched.anchors hx
  simp only [enterBlock, hsched.code.instr, hcontains]
  split
  · rename_i hphi
    rw [Bool.and_eq_true, List.contains_iff_mem] at hphi
    exact h.phiValue_eq hsched hrest hrest' hterm hphi.2 hphi.1 v
  · by_cases hxa : x = a
    · rw [hxa, Function.update_self, Function.update_self]
    · rw [Function.update_of_ne hxa, Function.update_of_ne hxa, h.agree x hx]

/-- Both functions run through corresponding regions, silently. -/
theorem region (hsched : Rescheduled safe F F')
    (hsafe : ∀ i, safe i → ∀ env, (sem.eval i (operandValues F sem args env i)).isSome)
    (h : InStep safe F F' sem args c c' done done') (hrest : c.rest = r ++ t)
    (hrest' : c'.rest = r' ++ t') (hr : ∀ i ∈ r, F.isAnchor i = false)
    (hr' : ∀ i ∈ r', F.isAnchor i = false) (hgain : GainsOnly safe r r')
    (htail : Aligned F.isAnchor (GainsOnly safe) t t') :
    ∃ d d', InStep safe F F' sem args d d' (done ++ r) (done' ++ r') ∧ d.rest = t ∧ d'.rest = t' ∧
      (step F sem args)^[r.length] c = d ∧ (step F' sem args)^[r'.length] c' = d' ∧
      (∀ k ≤ r.length, ((step F sem args)^[k] c).observe = c.observe) ∧
      ∀ k ≤ r'.length, ((step F' sem args)^[k] c').observe = c'.observe := by
  have hinstr := hsched.code.instr
  have hr'' : ∀ i ∈ r', F'.isAnchor i = false := by
    rw [isAnchor_eq_of_instr hinstr]
    exact hr'
  have hord := h.left.ordered hsched.wf hsched.ssa hrest hr
  have hord' := h.right.ordered hsched.wf' hsched.ssa' hrest' hr''
  have hholds' := h.right.holds
  -- the original function executed its region, so the region has values
  obtain ⟨env, hrun⟩ : ∃ env, (overAnchors F sem args).run r c.state.env = some env := by
    cases hrun : (overAnchors F sem args).run r c.state.env with
    | some env => exact ⟨env, rfl⟩
    | none =>
      obtain ⟨k, hk⟩ := step_region_trap hr h.left.running hrest hrun
      exact absurd hk (h.noTrap k)
  obtain ⟨_, hout, hden⟩ := h.left.holds.run hord hrun
  -- every member of the other region was a member here, or never traps
  obtain ⟨env', hrun'⟩ : ∃ env', (overAnchors F' sem args).run r' c'.state.env = some env' := by
    refine hholds'.run_isSome hord' fun x hx => ?_
    rw [overAnchors_eq_of_instr hinstr]
    rcases hgain x hx with hx | hx
    · exact .inl ⟨_, (hden x hx).of_base_eq fun a ha => h.agree a ha⟩
    · exact .inr (hsafe x hx)
  obtain ⟨_, hout', _⟩ := hholds'.run hord' hrun'
  obtain ⟨hend, hsilent⟩ := step_region hr h.left.running hrest hrun
  obtain ⟨hend', hsilent'⟩ := step_region hr'' h.right.running hrest' hrun'
  refine ⟨_, _, ?_, rfl, rfl, hend, hend', hsilent, hsilent'⟩
  refine ⟨h.left.region hsched.wf hsched.ssa hrest hr hrun,
    h.right.region hsched.wf' hsched.ssa' hrest' hr'' hrun', h.block, h.world, h.log, ?_, htail, ?_⟩
  · intro a ha
    have hnot : ∀ l : List InstrId, (∀ i ∈ l, F.isAnchor i = false) → a ∉ l := by
      intro l hl hmem
      rw [hl a hmem] at ha
      cases ha
    show env a = env' a
    rw [hout a (hnot r hr), hout' a (hnot r' hr'), h.agree a ha]
  · intro n
    rw [← hend, ← Function.iterate_add_apply]
    exact h.noTrap _

/-- Past an anchor that is no terminator, whatever it wrote. -/
theorem pass (hsched : Rescheduled safe F F') (h : InStep safe F F' sem args c c' done done')
    (hrest : c.rest = a :: t) (hrest' : c'.rest = a :: t') (ha : F.isAnchor a = true)
    (htail : Aligned F.isAnchor (GainsOnly safe) t t') {s s' : State V W}
    (hs : step F sem args c = { c with rest := t, state := s })
    (hholds : (overAnchors F sem args).Holds s.env (F.AvailAt c.block done))
    (hholds' : (overAnchors F' sem args).Holds s'.env (F'.AvailAt c'.block done'))
    (hworld : s'.world = s.world) (hlog : s'.log = s.log)
    (hagree : ∀ x, F.isAnchor x = true → s.env x = s'.env x) :
    InStep safe F F' sem args { c with rest := t, state := s } { c' with rest := t', state := s' }
      (done ++ [a]) (done' ++ [a]) := by
  refine ⟨⟨h.left.running, ?_, h.left.reach, ?_⟩, ⟨h.right.running, ?_, h.right.reach, ?_⟩,
    h.block, hworld, hlog, hagree, htail, ?_⟩
  · rw [h.left.body, hrest]
    simp
  · refine hholds.mono fun x hx => ⟨hx.1, hx.2.imp_left fun hmem => ?_⟩
    refine (List.mem_append.mp hmem).resolve_right fun hxa => ?_
    have := hx.1
    rw [List.mem_singleton.mp hxa, ha] at this
    cases this
  · rw [h.right.body, hrest']
    simp
  · refine hholds'.mono fun x hx => ⟨hx.1, hx.2.imp_left fun hmem => ?_⟩
    refine (List.mem_append.mp hmem).resolve_right fun hxa => ?_
    have := hx.1
    rw [List.mem_singleton.mp hxa, isAnchor_eq_of_instr hsched.code.instr, ha] at this
    cases this
  · intro n
    rw [← hs]
    exact h.noTrap (n + 1)

variable (sem args) in
/-- The machine on the next instruction. -/
theorem step_eq (hrunning : c.status = .running) (hrest : c.rest = a :: t) :
    step F sem args c =
      match execInstr F sem args a c.state with
      | .next s => { c with rest := t, state := s }
      | .goto b s => ⟨b, F.body b, enterBlock F sem args (some c.block) b s, .running⟩
      | .returned v s => { c with state := s, status := .returned v }
      | .stopped s => { c with state := s, status := .stopped }
      | .trapped => { c with status := .trapped } := by
  cases c with
  | mk block rest state status =>
    cases hrunning
    cases hrest
    rfl

/-- At a PHI nothing happens. -/
theorem phi (hsched : Rescheduled safe F F') (h : InStep safe F F' sem args c c' done done')
    (hrest : c.rest = a :: t) (hrest' : c'.rest = a :: t') (hphi : (F.instr a).isPHI = true)
    (htail : Aligned F.isAnchor (GainsOnly safe) t t') :
    Related safe F F' sem args (step F sem args c) (step F' sem args c') := by
  have hexec : ∀ s, execInstr F sem args a s = .next s := fun s => by rw [execInstr, if_pos hphi]
  have hs := step_eq (F := F) sem args h.left.running hrest
  have hs' := step_eq (F := F') sem args h.right.running hrest'
  rw [execInstr_eq_of_instr hsched.code.instr] at hs'
  rw [hexec] at hs hs'
  rw [hs, hs']
  exact .inl ⟨_, _, h.pass hsched hrest hrest' (isSchedulingAnchor_of_isPHI hphi) htail hs
    h.left.holds h.right.holds h.world h.log h.agree⟩

/-- At a terminator both functions take the same edge, or end alike. -/
theorem terminator (hsched : Rescheduled safe F F')
    (h : InStep safe F F' sem args c c' done done') (hrest : c.rest = a :: t)
    (hrest' : c'.rest = a :: t') (hterm : (F.instr a).isTerminator = true) :
    Related safe F F' sem args (step F sem args c) (step F' sem args c') := by
  have hinstr := hsched.code.instr
  have hphi : (F.instr a).isPHI = false := by
    by_contra hphi
    rw [Instruction.not_isTerminator_of_isPHI (by simpa using hphi)] at hterm
    cases hterm
  have hvals := h.operandValues_eq hsched hrest hrest' hphi
  have hexec : ∀ s, execInstr F sem args a s = execTerminator F sem args a s := fun s => by
    rw [execInstr, if_neg (by simp [hphi]), if_pos hterm]
  have hs := step_eq (F := F) sem args h.left.running hrest
  have hs' := step_eq (F := F') sem args h.right.running hrest'
  rw [execInstr_eq_of_instr hinstr] at hs'
  rw [hexec, execTerminator] at hs hs'
  have hno := h.noTrap 1
  rw [Function.iterate_one] at hno
  rw [← hvals, h.world, h.log] at hs'
  have hterm' : (F'.instr a).isTerminator = true := by rw [hinstr]; exact hterm
  obtain rfl : t = [] := hsched.wf.eq_nil_of_isTerminator (by rw [h.left.body, hrest]) hterm
  obtain rfl : t' = [] := hsched.wf'.eq_nil_of_isTerminator (by rw [h.right.body, hrest']) hterm'
  have hbody : F.body c.block = done ++ [a] := by rw [h.left.body, hrest]
  cases hres : sem.terminator a (operandValues F sem args c.state.env a) c.state.world with
  | branch b v w =>
    rw [hres] at hs hs'
    by_cases hb : (F.instr a).successors.contains b = true
    · simp only [hb, if_true] at hs hs'
      have hb' : b ∈ F.successors c.block := by
        rw [Function.successors_append hbody hterm]
        simpa using hb
      have hb'' : b ∈ F'.successors c'.block := by
        have : F'.successors c.block = F.successors c.block := congrFun (congrArg
          FlowGraph.succs hsched.cfg) c.block
        rw [h.block, this]
        exact hb'
      rw [hs, hs']
      refine .inl ⟨[], [], h.left.enter hsched.wf hsched.ssa hrest hterm hb' v w _,
        h.right.enter hsched.wf' hsched.ssa' hrest' hterm' hb'' v w _, rfl, rfl, rfl, ?_,
        hsched.aligned b, ?_⟩
      · exact fun x hx => h.enterBlock_agree hsched hrest hrest' hterm v w _ hx
      · intro n
        rw [← hs]
        exact h.noTrap (n + 1)
    · simp only [hb] at hs
      rw [hs] at hno
      exact absurd rfl hno
  | ret v w =>
    rw [hres] at hs hs'
    rw [hs, hs']
    exact .inr ⟨by simp, by simp, rfl⟩
  | stop w =>
    rw [hres] at hs hs'
    rw [hs, hs']
    exact .inr ⟨by simp, by simp, rfl⟩
  | trap =>
    rw [hres] at hs
    rw [hs] at hno
    exact absurd rfl hno

/-- Any other anchor reads the same operands in the same world, so it does the same. -/
theorem operation (hsched : Rescheduled safe F F')
    (h : InStep safe F F' sem args c c' done done') (hrest : c.rest = a :: t)
    (hrest' : c'.rest = a :: t') (ha : F.isAnchor a = true) (hphi : (F.instr a).isPHI = false)
    (hterm : (F.instr a).isTerminator = false) (htail : Aligned F.isAnchor (GainsOnly safe) t t') :
    Related safe F F' sem args (step F sem args c) (step F' sem args c') := by
  have hinstr := hsched.code.instr
  have hvals := h.operandValues_eq hsched hrest hrest' hphi
  have hexec : ∀ s, execInstr F sem args a s = execAnchor F sem args a s := fun s => by
    rw [execInstr, if_neg (by simp [hphi]), if_neg (by simp [hterm]), if_pos ha]
  have hs := step_eq (F := F) sem args h.left.running hrest
  have hs' := step_eq (F := F') sem args h.right.running hrest'
  rw [execInstr_eq_of_instr hinstr] at hs'
  rw [hexec, execAnchor] at hs hs'
  rw [← hvals, h.world, h.log] at hs'
  have hno := h.noTrap 1
  rw [Function.iterate_one] at hno
  have ha' : F'.isAnchor a = true := by rw [isAnchor_eq_of_instr hinstr]; exact ha
  cases hres : sem.anchor a (operandValues F sem args c.state.env a) c.state.world with
  | value v w =>
    rw [hres] at hs hs'
    have hwrite := h.left.write hsched.wf hsched.ssa hrest ha v
    have hwrite' := h.right.write hsched.wf' hsched.ssa' hrest' ha' v
    rw [hs, hs']
    refine .inl ⟨_, _, h.pass hsched hrest hrest' ha htail hs hwrite hwrite' rfl rfl ?_⟩
    intro x hx
    show Function.update c.state.env a v x = Function.update c'.state.env a v x
    by_cases hxa : x = a
    · rw [hxa, Function.update_self, Function.update_self]
    · rw [Function.update_of_ne hxa, Function.update_of_ne hxa, h.agree x hx]
  | stop w =>
    rw [hres] at hs hs'
    rw [hs, hs']
    exact .inr ⟨by simp, by simp, rfl⟩
  | trap =>
    rw [hres] at hs
    rw [hs] at hno
    exact absurd rfl hno

theorem anchor (hsched : Rescheduled safe F F')
    (h : InStep safe F F' sem args c c' done done') (hrest : c.rest = a :: t)
    (hrest' : c'.rest = a :: t') (ha : F.isAnchor a = true)
    (htail : Aligned F.isAnchor (GainsOnly safe) t t') :
    Related safe F F' sem args (step F sem args c) (step F' sem args c') := by
  by_cases hphi : (F.instr a).isPHI = true
  · exact h.phi hsched hrest hrest' hphi htail
  · by_cases hterm : (F.instr a).isTerminator = true
    · exact h.terminator hsched hrest hrest' hterm
    · exact h.operation hsched hrest hrest' ha (by simpa using hphi) (by simpa using hterm) htail

/-- A run without undefined behaviour does not fall off the end of a block. -/
theorem exists_anchor (h : InStep safe F F' sem args c c' done done') :
    ∃ i ∈ c.rest, F.isAnchor i = true := by
  by_contra hnone
  simp only [not_exists, not_and, Bool.not_eq_true] at hnone
  have hrest : c.rest = c.rest ++ [] := (List.append_nil _).symm
  cases hrun : (overAnchors F sem args).run c.rest c.state.env with
  | none =>
    obtain ⟨k, hk⟩ := step_region_trap hnone h.left.running hrest hrun
    exact h.noTrap k hk
  | some env =>
    obtain ⟨hend, _⟩ := step_region hnone h.left.running hrest hrun
    refine h.noTrap (c.rest.length + 1) ?_
    rw [Function.iterate_succ_apply', hend]
    simp only [step, h.left.running]

end InStep

section Runs

variable {safe : InstrId → Prop}

/-- **The two functions run in lockstep.** -/
theorem Rescheduled.lockstep (hsched : Rescheduled safe F F')
    (hsafe : ∀ i, safe i → ∀ env, (sem.eval i (operandValues F sem args env i)).isSome) :
    Lockstep (step F sem args) (step F' sem args) Config.observe Config.observe
      (Related safe F F' sem args) where
  looks := by
    rintro c c' (⟨_, _, h⟩ | ⟨_, _, h⟩)
    · exact h.observe_eq.symm
    · exact h.symm
  moves := by
    rintro c c' (⟨done, done', h⟩ | ⟨hc, hc', _⟩)
    · refine .inr ?_
      obtain ⟨i, hi, hia⟩ := h.exists_anchor
      have haligned := h.aligned
      generalize hrest : c.rest = l at haligned
      generalize hrest' : c'.rest = l' at haligned
      cases haligned with
      | last hr _ _ =>
        rw [hrest] at hi
        rw [hr i hi] at hia
        cases hia
      | cut hr hr' ha hgain htail =>
        -- a region, then the anchor that ends it
        obtain ⟨d, d', hd, hdrest, hdrest', hend, hend', hsilent, hsilent'⟩ :=
          h.region hsched hsafe hrest hrest' hr hr' hgain (.cut (r := []) (by simp)
            (by simp) ha (GainsOnly.refl _) htail)
        refine ⟨_ + 1, _ + 1, Nat.succ_pos _, Nat.succ_pos _,
          fun k hk => hsilent k (Nat.lt_succ_iff.mp hk),
          fun k hk => hsilent' k (Nat.lt_succ_iff.mp hk), ?_⟩
        rw [Function.iterate_succ_apply', Function.iterate_succ_apply', hend, hend']
        exact hd.anchor hsched hdrest hdrest' ha htail
    · exact .inl ⟨step_of_ended hc, step_of_ended hc'⟩

/-- On entry nothing has been computed yet. -/
theorem current_start (w : W) : Current F sem args (start F sem args w) [] := by
  refine ⟨rfl, rfl, .entry, ?_⟩
  rintro x ⟨_, hx | ⟨bx, _, hne, hdom⟩⟩
  · cases hx
  · exact absurd hdom.eq_entry hne

theorem start_env (w : W) : (start F sem args w).state.env = fun _ => sem.poison := by
  funext i
  have hfind : ∀ l : List (BasicBlock × Value),
      (l.find? fun e => decide (some e.1 = (none : Option BasicBlock))) = none := fun l =>
    List.find?_eq_none.mpr (by simp)
  simp only [start, enterBlock, phiValue, hfind, ite_self]

theorem Rescheduled.related_start (hsched : Rescheduled safe F F') {w : W}
    (hub : NoUndefinedBehaviour F sem args w) :
    Related safe F F' sem args (start F sem args w) (start F' sem args w) := by
  refine .inl ⟨[], [], current_start w, current_start w, hsched.code.entry, rfl, ?_, ?_, ?_, hub⟩
  · simp only [start, enterBlock, hsched.code.entry]
  · intro a _
    rw [start_env, start_env]
  · show Aligned _ _ (F.body F.entry) (F'.body F'.entry)
    rw [hsched.code.entry]
    exact hsched.aligned F.entry

/-- **Legal code motion preserves behaviour**: no undefined behaviour appears, and the two functions
show the same, step by step, whichever of them is watched. -/
theorem Rescheduled.behaviour (hsched : Rescheduled safe F F')
    (hsafe : ∀ i, safe i → ∀ env, (sem.eval i (operandValues F sem args env i)).isSome) {w : W}
    (hub : NoUndefinedBehaviour F sem args w) :
    NoUndefinedBehaviour F' sem args w ∧
      (∀ n, ∃ m, (runSteps F' sem args w m).observe = (runSteps F sem args w n).observe) ∧
      ∀ n, ∃ m, (runSteps F sem args w m).observe = (runSteps F' sem args w n).observe := by
  have hlock : Lockstep (step F sem args) (step F' sem args) Config.observe Config.observe
      (Related safe F F' sem args) := hsched.lockstep hsafe
  have hstart := hsched.related_start hub
  have hback : ∀ n, ∃ m, (runSteps F sem args w m).observe = (runSteps F' sem args w n).observe :=
    hlock.backward hstart
  refine ⟨fun n htrap => ?_, hlock.forward hstart, hback⟩
  obtain ⟨m, hm⟩ := hback n
  refine hub m ?_
  have := congrArg Prod.fst hm
  exact this.trans htrap

end Runs

/-! ### One block, from any state -/

section OneBlock

variable {b : BasicBlock}

/-- The pure part of one block: whatever is defined elsewhere is read from the environment. -/
abbrev withinBlock (F : Function) (sem : Semantics V W) (args : ℕ → V) (b : BasicBlock) :
    Dataflow InstrId V :=
  pureDataflow F sem args fun i => F.isAnchor i = true ∨ i ∉ F.body b

/-- In reachable code an operand defined in the same block stands before its user. -/
theorem sublist_of_uses (hwf : F.WellFormed) (hssa : F.SSADominance) (hb : F.cfg.Reachable b)
    {u d : InstrId} (hu : u ∈ F.body b) (hphi : (F.instr u).isPHI = false) (huse : F.Uses u d)
    (hd : d ∈ F.body b) : [d, u] <+ F.body b := by
  obtain ⟨b', hub', hav⟩ := hssa.use hu hphi huse
  obtain rfl := hwf.body_unique hu hub'
  rcases hav with hav | hav | hav
  · exact absurd hb hav
  · obtain ⟨bd, hdbd, hne, _⟩ := hav.strictlyDominates hb
    exact absurd (hwf.body_unique hdbd hd) hne
  · exact hav

variable (sem args) in
/-- A region of a block, as definitions that read only what the block has executed. -/
theorem withinBlock_ordered (hwf : F.WellFormed) (hssa : F.SSADominance) (hb : F.cfg.Reachable b)
    {done r t : List InstrId} (hbody : F.body b = done ++ (r ++ t))
    (hr : ∀ i ∈ r, F.isAnchor i = false) :
    (withinBlock F sem args b).Ordered (fun x => F.isAnchor x = false ∧ x ∈ done) r := by
  refine Dataflow.ordered_of_split fun l₁ i l₂ heq => ?_
  have hi : F.isAnchor i = false := hr i (by rw [heq]; simp)
  have hsplit : F.body b = (done ++ l₁) ++ i :: (l₂ ++ t) := by
    rw [hbody, heq]
    simp
  have hib : i ∈ F.body b := by rw [hsplit]; simp
  refine ⟨by simp [pureDataflow, hi, hib], fun d huse => ?_⟩
  by_cases hd : F.isAnchor d = true
  · exact .inl (.inl hd)
  by_cases hdb : d ∈ F.body b
  · have hsub := sublist_of_uses hwf hssa hb hib (isPHI_of_not_anchor hi) huse hdb
    have hnd := hwf.body_nodup b
    rw [hsplit] at hsub hnd
    rcases List.mem_append.mp ((sublist_pair_append hnd).mp hsub) with hmem | hmem
    · exact .inr (.inl ⟨by simpa using hd, hmem⟩)
    · exact .inr (.inr hmem)
  · exact .inl (.inr hdb)

/-- An instruction that lets the block go on writes its own name at most. -/
theorem execInstr_next_env {i : InstrId} {s s' : State V W}
    (h : execInstr F sem args i s = .next s') {y : InstrId} (hy : y ≠ i) : s'.env y = s.env y := by
  rw [execInstr] at h
  split at h
  · cases h
    rfl
  · split at h
    · rw [execTerminator] at h
      cases hres : sem.terminator i (operandValues F sem args s.env i) s.world with
      | branch b v w =>
        simp only [hres] at h
        split at h <;> cases h
      | ret v w => simp only [hres] at h; cases h
      | stop w => simp only [hres] at h; cases h
      | trap => simp only [hres] at h; cases h
    · split at h
      · rw [execAnchor] at h
        cases hres : sem.anchor i (operandValues F sem args s.env i) s.world with
        | value v w =>
          simp only [hres] at h
          cases h
          exact Function.update_of_ne hy _ _
        | stop w => simp only [hres] at h; cases h
        | trap => simp only [hres] at h; cases h
      · rw [execPure] at h
        cases hres : sem.eval i (operandValues F sem args s.env i) with
        | some v =>
          simp only [hres] at h
          cases h
          exact Function.update_of_ne hy _ _
        | none => simp only [hres] at h; cases h

/-- Rearranged regions between the same anchors execute to the same outcome. -/
theorem execInstrs_aligned {F F' : Function} (hwf : F.WellFormed) (hssa : F.SSADominance)
    (h : Motions (fun _ _ _ => False) F F') (hb : F.cfg.Reachable b)
    {done done' rest rest' : List InstrId} (hbody : F.body b = done ++ rest)
    (hbody' : F'.body b = done' ++ rest') (hdone : ∀ x, x ∈ done' ↔ x ∈ done)
    (haligned : Aligned F.isAnchor List.Perm rest rest') {s : State V W}
    (hholds : (withinBlock F sem args b).Holds s.env fun x => F.isAnchor x = false ∧ x ∈ done)
    (hub : execInstrs F sem args rest s ≠ .trapped) :
    execInstrs F' sem args rest' s = execInstrs F sem args rest s := by
  have hinstr := h.sameCode.instr
  have hwf' := h.wellFormed hwf
  have hssa' := h.ssa hwf hssa
  have hb' : F'.cfg.Reachable b := by rw [h.cfg_eq hwf]; exact hb
  have hsame : withinBlock F' sem args b = withinBlock F sem args b := by
    rw [withinBlock, pureDataflow_eq_of_instr hinstr, isAnchor_eq_of_instr hinstr]
    simp only [withinBlock, h.mem_iff]
  induction haligned generalizing done done' s with
  | @last r r' hr hr' hperm =>
    -- a block that does not end in an anchor has no execution
    refine absurd ?_ hub
    have hregion := execInstrs_region sem args
      (fun i => F.isAnchor i = true ∨ i ∉ F.body b) hr [] s
    rw [List.append_nil] at hregion
    rw [hregion]
    cases (pureDataflow F sem args _).run r s.env with
    | none => rfl
    | some env => rfl
  | @cut r r' t t' a hr hr' ha hperm htail ih =>
    have hr'' : ∀ i ∈ r', F'.isAnchor i = false := by
      rw [isAnchor_eq_of_instr hinstr]
      exact hr'
    have hregion := execInstrs_region sem args
      (fun i => F.isAnchor i = true ∨ i ∉ F.body b) hr (a :: t) s
    have hregion' := execInstrs_region sem args
      (fun i => F'.isAnchor i = true ∨ i ∉ F'.body b) hr'' (a :: t') s
    have hord := withinBlock_ordered sem args hwf hssa hb hbody hr
    have hord' := withinBlock_ordered sem args hwf' hssa' hb' hbody' hr''
    rw [hsame, isAnchor_eq_of_instr hinstr] at hord'
    simp only [hdone] at hord'
    rw [hregion] at hub ⊢
    rw [hregion']
    cases hrun : (withinBlock F sem args b).run r s.env with
    | none => rw [hrun] at hub; exact absurd rfl hub
    | some env =>
      have hrun' := hholds.run_perm hord hord' (fun x => hperm.mem_iff.symm) hrun
      obtain ⟨hnew, _, _⟩ := hholds.run hord hrun
      rw [← hsame] at hrun'
      rw [hrun']
      rw [hrun] at hub
      have hstate : (withinBlock F sem args b).Holds env
          fun x => F.isAnchor x = false ∧ x ∈ done ++ r ++ [a] := by
        refine hnew.mono ?_
        rintro x ⟨hxa, hx⟩
        simp only [List.mem_append, List.mem_singleton] at hx
        rcases hx with (hx | hx) | rfl
        · exact .inl ⟨hxa, hx⟩
        · exact .inr hx
        · rw [ha] at hxa
          cases hxa
      show execInstrs F' sem args (a :: t') { s with env := env } =
        execInstrs F sem args (a :: t) { s with env := env }
      change execInstrs F sem args (a :: t) { s with env := env } ≠ .trapped at hub
      rw [execInstrs] at hub
      rw [execInstrs, execInstrs, execInstr_eq_of_instr hinstr]
      cases hexec : execInstr F sem args a { s with env := env } with
      | next s' =>
        rw [hexec] at hub
        have hsplit : F.body b = (done ++ r ++ [a]) ++ t := by rw [hbody]; simp
        have hsplit' : F'.body b = (done' ++ r' ++ [a]) ++ t' := by rw [hbody']; simp
        refine ih hsplit hsplit' (fun x => ?_) ?_ hub
        · simp only [List.mem_append, hdone, hperm.mem_iff]
        · -- no value computed so far depends on the anchor just executed
          refine hstate.write (S := fun y => y = a) ?_ ?_ ?_
          · rintro y rfl
            exact .inl ha
          · exact fun y hy => execInstr_next_env hexec hy
          · rintro x ⟨hxa, hx⟩ _ y rfl
            have hsplit : F.body b = (done ++ r) ++ y :: t := by rw [hbody]; simp
            refine Function.not_dependsOn hwf hssa (fun y hy => .inl hy) hsplit hb List.mem_cons_self ha
              ⟨hxa, .inl ?_⟩
            refine (List.mem_append.mp hx).resolve_right fun hxy => ?_
            rw [List.mem_singleton.mp hxy, ha] at hxa
            cases hxa
      | goto d s' => rfl
      | returned v s' => rfl
      | stopped s' => rfl
      | trapped => rfl

/-- The PHIs of a block take the same values. -/
theorem enterBlock_eq {F F' : Function} (h : Motions (fun _ _ _ => False) F F')
    (prev : Option BasicBlock) (s : State V W) :
    enterBlock F' sem args prev b s = enterBlock F sem args prev b s := by
  have hcontains : ∀ i, (F'.body b).contains i = (F.body b).contains i := by
    intro i
    rw [Bool.eq_iff_iff, List.contains_iff_mem, List.contains_iff_mem]
    exact h.mem_iff
  simp only [enterBlock, phiValue, h.sameCode.instr, hcontains]

/-- **Rearranging regions preserves the block**: entered from anywhere in any state, a block that has
an execution has the same one afterwards, down to the final value of every name. -/
theorem Motions.execBlock_eq {F F' : Function} (h : Motions (fun _ _ _ => False) F F')
    (hwf : F.WellFormed) (hssa : F.SSADominance) (hb : F.cfg.Reachable b)
    {prev : Option BasicBlock} {s : State V W} (hub : execBlock F sem args prev b s ≠ .trapped) :
    execBlock F' sem args prev b s = execBlock F sem args prev b s := by
  rw [execBlock, enterBlock_eq h, execBlock]
  have hbody : F.body b = [] ++ F.body b := rfl
  have hbody' : F'.body b = [] ++ F'.body b := rfl
  refine execInstrs_aligned hwf hssa h hb hbody hbody' (fun _ => Iff.rfl)
    (h.aligned_perm b) ?_ hub
  rintro x ⟨_, hx⟩
  cases hx

end OneBlock

end

end TraceScheduler
