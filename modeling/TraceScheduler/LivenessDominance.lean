import TraceScheduler.LivenessPaths
import TraceScheduler.SsaOrder

/-!
# Liveness and dominance

In SSA form a value used by a non-PHI is available there, so wherever it is live on entry its block
strictly dominates: the walk to the use stays clear of that block, and strict dominance is carried
backwards along such walks.  `computeLiveness` treats the operands of a PHI in the same way, as uses
in the PHI's own block, although SSA form asks for them on the incoming edges only.  A value that
comes around a loop is then live on entry to the loop, and from there back to the entry.

`computeLiveness_strict_iff` says exactly when no such value exists.
-/

namespace TraceScheduler

open scoped List

variable {F : Function} {st : LivenessResult} {b : BasicBlock} {d : InstrId} {v : Value}

namespace Function

/-- Each value a PHI of reachable code reads is defined before it in its block, or in a block that
strictly dominates it. -/
def PhiOperandsAbove (F : Function) : Prop :=
  ∀ b u d, F.cfg.Reachable b → u ∈ F.body b → (F.instr u).isPHI = true → F.Uses u d →
    Value.instruction d ∈ valueUniverse F →
      [d, u] <+ F.body b ∨ ∃ bd, d ∈ F.body bd ∧ F.cfg.StrictlyDominates bd b

/-- **A live value comes from above**, if its use does. -/
theorem LiveOnEntry.strictlyDominates (hb : F.cfg.Reachable b)
    (h : F.LiveOnEntry (.instruction d) b)
    (habove : ∀ c u, F.cfg.Reachable c → u ∈ F.body c → F.Uses u d →
      [d, u] <+ F.body c ∨ ∃ bd, d ∈ F.body bd ∧ F.cfg.StrictlyDominates bd c) :
    ∃ bd, d ∈ F.body bd ∧ F.cfg.StrictlyDominates bd b := by
  obtain ⟨c, u, hu, huse, hdef, hwalk⟩ := h
  have hc : F.cfg.Reachable c := hwalk.closed hb fun _ _ hx hs => hx.step hs
  cases habove c u hc hu huse with
  | inl hbefore => exact absurd ⟨d, rfl, hbefore⟩ hdef
  | inr hdom =>
    obtain ⟨bd, hd, hdom⟩ := hdom
    refine ⟨bd, hd, ?_⟩
    have hclear : F.cfg.LeadsTo (fun e => e ≠ bd) b c := by
      apply hwalk.mono
      intro e he heq
      exact he ⟨d, heq ▸ hd, rfl⟩
    exact hclear.strictlyDominates hdom

theorem SSADominance.above (hssa : F.SSADominance) (hwf : F.WellFormed) (hb : F.cfg.Reachable b)
    {u : InstrId} (hu : u ∈ F.body b) (hphi : (F.instr u).isPHI = false) (huse : F.Uses u d) :
    [d, u] <+ F.body b ∨ ∃ bd, d ∈ F.body bd ∧ F.cfg.StrictlyDominates bd b := by
  obtain ⟨bd, bu, hd, hu', _, hdom⟩ := (hssa.use hu hphi huse).precedes hwf hu hb
  obtain rfl := hwf.body_unique hu hu'
  cases hdom with
  | inl hdom => exact .inr ⟨bd, hd, hdom⟩
  | inr hbefore => exact .inl hbefore.2

end Function

/-- What the universe is made of. -/
theorem mem_valueUniverse : v ∈ valueUniverse F ↔ (∃ n < F.numArgs, v = .argument n) ∨
    ∃ b ∈ F.blocks, ∃ d ∈ F.body b, (F.instr d).isVoidTy = false ∧ v = .instruction d := by
  rw [valueUniverse, List.mem_append]
  simp only [List.mem_map, List.mem_range, List.mem_flatMap, List.mem_filter, Bool.not_eq_true',
    and_assoc, eq_comm (a := v)]

/-- Results of void instructions are not numbered. -/
theorem isVoidTy_of_mem_valueUniverse {i : InstrId} (h : Value.instruction i ∈ valueUniverse F) :
    (F.instr i).isVoidTy = false := by
  cases mem_valueUniverse.mp h with
  | inl harg =>
    obtain ⟨n, _, hn⟩ := harg
    cases hn
  | inr hin =>
    obtain ⟨_, _, d, _, hvoid, heq⟩ := hin
    cases heq
    exact hvoid

/-- **Live values are defined in a strict dominator exactly when the operands of PHIs are.** -/
theorem computeLiveness_strict_iff (hwf : F.WellFormed) (hssa : F.SSADominance) :
    ∃ st, computeLiveness F = some st ∧
      (((∀ b, F.cfg.Reachable b → ∀ d, HasBit F (st b).inSet (.instruction d) →
          ∃ bd, d ∈ F.body bd ∧ F.cfg.StrictlyDominates bd b) ∧
        ∀ v, HasBit F (st F.entry).inSet v → ∃ n, v = .argument n) ↔ F.PhiOperandsAbove) := by
  obtain ⟨st, hst, hlive⟩ := computeLiveness_spec fun b _ => hwf.succs_mem b
  refine ⟨st, hst, ?_⟩
  constructor
  · intro h b u d hb hu _ huse huniv
    by_cases hbefore : [d, u] <+ F.body b
    · exact .inl hbefore
    · right
      obtain ⟨idx, hidx⟩ := Option.isSome_iff_exists.mp (buildValueIndex_isSome.mpr huniv)
      apply h.1 b hb d
      refine ⟨idx, hidx, (hlive.mem_in_iff hwf hidx).mpr ⟨b, u, hu, huse, ?_, .refl b⟩⟩
      intro hdef
      obtain ⟨d', heq, hbefore'⟩ := hdef
      cases heq
      exact hbefore hbefore'
  · intro habove
    have hstrict : ∀ b, F.cfg.Reachable b → ∀ d, HasBit F (st b).inSet (.instruction d) →
        ∃ bd, d ∈ F.body bd ∧ F.cfg.StrictlyDominates bd b := by
      intro b hb d hbit
      obtain ⟨idx, hidx, hin⟩ := hbit
      have huniv : Value.instruction d ∈ valueUniverse F :=
        buildValueIndex_isSome.mp (Option.isSome_iff_exists.mpr ⟨idx, hidx⟩)
      apply ((hlive.mem_in_iff hwf hidx).mp hin).strictlyDominates hb
      intro c u hc hu huse
      cases hphi : (F.instr u).isPHI with
      | true => exact habove c u d hc hu hphi huse huniv
      | false => exact hssa.above hwf hc hu hphi huse
    refine ⟨hstrict, ?_⟩
    intro v hbit
    obtain ⟨idx, hidx, _⟩ := id hbit
    have huniv : v ∈ valueUniverse F :=
      buildValueIndex_isSome.mp (Option.isSome_iff_exists.mpr ⟨idx, hidx⟩)
    cases mem_valueUniverse.mp huniv with
    | inl harg =>
      obtain ⟨n, _, hn⟩ := harg
      exact ⟨n, hn⟩
    | inr hinstr =>
      obtain ⟨_, _, d, _, _, rfl⟩ := hinstr
      -- nothing strictly dominates the entry
      obtain ⟨bd, _, hdom⟩ := hstrict F.entry .entry d hbit
      exact absurd hdom.2.eq_entry hdom.1

theorem countingLoop_strict_iff : ∃ st, computeLiveness countingLoop = some st ∧
    (((∀ b, countingLoop.cfg.Reachable b →
        ∀ d, HasBit countingLoop (st b).inSet (.instruction d) →
          ∃ bd, d ∈ countingLoop.body bd ∧ countingLoop.cfg.StrictlyDominates bd b) ∧
      ∀ v, HasBit countingLoop (st countingLoop.entry).inSet v → ∃ n, v = .argument n) ↔
        countingLoop.PhiOperandsAbove) :=
  computeLiveness_strict_iff countingLoop_verified.1 countingLoop_verified.2

/-- In the counting loop the counter's next value is live on entry to the function. -/
theorem countingLoop_not_strict : countingLoop.WellFormed ∧ countingLoop.SSADominance ∧
    ¬ ∃ st, computeLiveness countingLoop = some st ∧
      (∀ b, countingLoop.cfg.Reachable b →
        ∀ d, HasBit countingLoop (st b).inSet (.instruction d) →
          ∃ bd, d ∈ countingLoop.body bd ∧ countingLoop.cfg.StrictlyDominates bd b) := by
  refine ⟨countingLoop_verified.1, countingLoop_verified.2, ?_⟩
  intro h
  obtain ⟨st, hst, hstrict⟩ := h
  have hbit : ∀ st, computeLiveness countingLoop = some st → 2 ∈ (st 0).inSet := by
    intro st hst
    obtain rfl := Option.some.inj hst
    decide
  obtain ⟨bd, _, hdom⟩ := hstrict 0 .entry 2 ⟨2, rfl, hbit st hst⟩
  exact hdom.1 hdom.2.eq_entry

end TraceScheduler
