import TraceScheduler.LivenessMotion
import TraceScheduler.LocalScheduler

/-!
# The local pass and the liveness it uses

`runLocalScheduler` computes liveness once and reads the sets of a block after the blocks before it
have been rewritten.  Rearranging regions changes neither which values there are nor which of them are
live on entry to a reachable block, so an analysis run again at any point would find the same values
under other numbers (`sameLiveness_of_motions`).
-/

namespace TraceScheduler

open scoped List

variable {F F' : Function} {liveness again : LivenessResult}

/-- The same values are live on entry to and out of every block. -/
def SameLiveness (F F' : Function) (liveness again : LivenessResult) : Prop :=
  ∀ b ∈ F.blocks, ∀ v,
    (HasBit F' (again b).inSet v ↔ HasBit F (liveness b).inSet v) ∧
      (HasBit F' (again b).outSet v ↔ HasBit F (liveness b).outSet v)

section

variable (hwf : F.WellFormed) (hssa : F.SSADominance) (hreach : ∀ b ∈ F.blocks, F.cfg.Reachable b)

include hwf hssa hreach

/-- **Rearranged regions have the same liveness**, value by value. -/
theorem sameLiveness_of_motions (h : Motions (fun _ _ _ => False) F F')
    (hlive : IsLiveness F liveness) (hagain : IsLiveness F' again) :
    SameLiveness F F' liveness again := by
  have hwf' := h.wellFormed hwf
  have hin : ∀ b ∈ F.blocks, ∀ v,
      HasBit F' (again b).inSet v ↔ HasBit F (liveness b).inSet v := by
    intro b hb v
    rw [hagain.hasBit_iff hwf', hlive.hasBit_iff hwf, h.mem_valueUniverse hwf,
      Function.liveOnEntry_reorder hwf hssa h (hreach b hb)]
  intro b hb v
  refine ⟨hin b hb v, ?_⟩
  have hb' : b ∈ F'.blocks := by
    rw [h.sameCode.blocks]
    exact hb
  have hsuccs : F'.successors b = F.successors b := congrArg (fun G => G.succs b) (h.cfg_eq hwf)
  rw [hagain.hasBit_out hb', hlive.hasBit_out hb, hsuccs]
  constructor
  · intro hout
    obtain ⟨s, hs, hbit⟩ := hout
    exact ⟨s, hs, (hin s (hwf.succs_mem b s hs) v).mp hbit⟩
  · intro hout
    obtain ⟨s, hs, hbit⟩ := hout
    exact ⟨s, hs, (hin s (hwf.succs_mem b s hs) v).mpr hbit⟩

/-- **The sets stay exact while the local pass runs.** After the blocks of any initial part of the
function have been rewritten, liveness analysis run again finds the same values live on entry to and
out of every block. -/
theorem runLocalScheduler_sameLiveness (statsOn : Bool) :
    ∃ livenessResult, computeLiveness F = some livenessResult ∧
      let universeIndex := buildValueIndex (valueUniverse F)
      (∃ acc, runLocalScheduler livenessResult universeIndex statsOn F = some acc) ∧
      ∀ done, done <+: F.blocks → ∃ acc again,
        done.foldlM (scheduleBlock livenessResult universeIndex statsOn) (Trail.start F, 0) =
          some acc ∧
        computeLiveness acc.1.current = some again ∧
        SameLiveness F acc.1.current livenessResult again := by
  obtain ⟨livenessResult, hcompute, hlive⟩ := computeLiveness_spec fun b _ => hwf.succs_mem b
  refine ⟨livenessResult, hcompute, ?_⟩
  intro universeIndex
  obtain ⟨tr, peak, hrun, _⟩ := runLocalScheduler_spec hwf livenessResult universeIndex statsOn
  refine ⟨⟨(tr, peak), hrun⟩, ?_⟩
  intro done _
  obtain ⟨acc, hacc, hsteps⟩ := foldlM_scheduleBlock_spec livenessResult universeIndex statsOn done
    (Trail.start F, 0) hwf
  have hwf' := hsteps.current.wellFormed hwf
  obtain ⟨again, hcompute', hagain⟩ := computeLiveness_spec fun b _ => hwf'.succs_mem b
  exact ⟨acc, again, hacc, hcompute',
    sameLiveness_of_motions hwf hssa hreach hsteps.current hlive hagain⟩

end

theorem twoBlocks_sameLiveness :
    (∀ b ∈ twoBlocks.blocks, twoBlocks.cfg.Reachable b) ∧
    ∃ livenessResult, computeLiveness twoBlocks = some livenessResult ∧
      let universeIndex := buildValueIndex (valueUniverse twoBlocks)
      (∃ acc, runLocalScheduler livenessResult universeIndex true twoBlocks = some acc) ∧
      ∀ done, done <+: twoBlocks.blocks → ∃ acc again,
        done.foldlM (scheduleBlock livenessResult universeIndex true) (Trail.start twoBlocks, 0) =
          some acc ∧
        computeLiveness acc.1.current = some again ∧
        SameLiveness twoBlocks acc.1.current livenessResult again := by
  have hreach : ∀ b ∈ twoBlocks.blocks, twoBlocks.cfg.Reachable b := by
    intro b hb
    have hentry : twoBlocks.cfg.Reachable 0 := FlowGraph.Reachable.entry
    have hnext : (1 : BasicBlock) ∈ twoBlocks.cfg.succs 0 := by decide
    have hblocks : twoBlocks.blocks = [0, 1] := rfl
    rw [hblocks] at hb
    rcases List.mem_pair.mp hb with h | h
    · rw [h]
      exact hentry
    · rw [h]
      exact hentry.step hnext
  obtain ⟨hwf, hssa⟩ : twoBlocks.WellFormed ∧ twoBlocks.SSADominance :=
    Function.verify_sound (by decide) rfl
  exact ⟨hreach, runLocalScheduler_sameLiveness hwf hssa hreach true⟩

end TraceScheduler
