import TraceScheduler.CodeMotion
import TraceScheduler.LivenessDominance

/-!
# Liveness under code motion

What an edit does to the values live on entry to reachable blocks.  Rearranging regions changes
nothing, and a hoist makes no value live except its own: an operand of the hoisted instruction is
defined above the target, and was live there already because some walk leads on to the block the
instruction came from (`LiveOnEntry.of_hoist`).  The hoisted value itself becomes live wherever one of
its users can be reached without passing the target (`liveOnEntry_hoisted`).
-/

namespace TraceScheduler

open scoped List

variable {F F' : Function} {b c : BasicBlock} {d i u : InstrId} {v : Value}

namespace Function

/-- A definition that stands before a use goes on doing so, as long as it stays in the block: among
PHIs the order is fixed, and otherwise it is a matter of SSA form. -/
theorem DefinedBefore.of_keepsAnchors (hwf : F.WellFormed) (hwf' : F'.WellFormed)
    (hssa' : F'.SSADominance) (hkeeps : KeepsAnchors F F') (hc : F.cfg.Reachable c)
    (hu : u ∈ F'.body c) (huse : v ∈ (F.instr u).operands)
    (hdef : F.DefinedIn v c → F'.DefinedIn v c) (h : F.DefinedBefore v u c) :
    F'.DefinedBefore v u c := by
  obtain ⟨d, rfl, hbefore⟩ := h
  have hinstr := hkeeps.code.instr
  refine ⟨d, rfl, ?_⟩
  cases hphi : (F.instr u).isPHI with
  | false =>
    obtain ⟨d', hd', heq⟩ := hdef ⟨d, hbefore.subset List.mem_cons_self, rfl⟩
    cases heq
    rw [← hkeeps.cfg] at hc
    rw [← hinstr] at hphi huse
    cases hssa'.above hwf' hc hu hphi huse with
    | inl hbefore' => exact hbefore'
    | inr hdom =>
      obtain ⟨bd, hbd, hdom⟩ := hdom
      exact absurd (hwf'.body_unique hbd hd') hdom.1
  | true =>
    have hdphi : (F.instr d).isPHI = true :=
      List.pairwise_iff_forall_sublist.mp (hwf.phis_first c) hbefore hphi
    have hfilter := hbefore.filter F.isAnchor
    have hanchors : [d, u].filter F.isAnchor = [d, u] := by
      simp [Function.isAnchor, isSchedulingAnchor_of_isPHI hdphi, isSchedulingAnchor_of_isPHI hphi]
    rw [hanchors, ← hkeeps.anchors c] at hfilter
    exact hfilter.trans List.filter_sublist

end Function

theorem KeepsAnchors.symm (h : KeepsAnchors F F') : KeepsAnchors F' F where
  code := ⟨h.code.numArgs.symm, h.code.entry.symm, h.code.otherBlocks.symm, h.code.instr.symm,
    h.code.preds.symm⟩
  perm := h.perm.symm
  anchors b := by
    have hanchor : F'.isAnchor = F.isAnchor := by
      funext i
      rw [Function.isAnchor, Function.isAnchor, h.code.instr]
    rw [hanchor]
    exact (h.anchors b).symm
  cfg := h.cfg.symm

/-- Moving instructions does not change which values there are. -/
theorem Motions.mem_valueUniverse {P : InstrId → BasicBlock → BasicBlock → Prop}
    (hwf : F.WellFormed) (h : Motions P F F') :
    v ∈ valueUniverse F' ↔ v ∈ valueUniverse F := by
  have hcode := h.sameCode
  have hinstr : ∀ {F'' : Function}, F''.WellFormed → ((∃ b ∈ F''.blocks, ∃ d ∈ F''.body b,
      (F''.instr d).isVoidTy = false ∧ v = .instruction d) ↔
      ∃ d, (∃ b, d ∈ F''.body b) ∧ (F''.instr d).isVoidTy = false ∧ v = .instruction d) := by
    intro F'' hwf''
    constructor
    · intro hv
      obtain ⟨b, _, d, hd, hvoid⟩ := hv
      exact ⟨d, ⟨b, hd⟩, hvoid⟩
    · intro hv
      obtain ⟨d, ⟨b, hd⟩, hvoid⟩ := hv
      exact ⟨b, hwf''.mem_blocks hd, d, hd, hvoid⟩
  rw [TraceScheduler.mem_valueUniverse, TraceScheduler.mem_valueUniverse,
    hinstr (h.wellFormed hwf), hinstr hwf, hcode.numArgs, hcode.instr]
  simp only [h.exists_mem hwf]

/-- Where the blocks keep their instructions and the order of their anchors, no value becomes live. -/
theorem Function.LiveOnEntry.of_keepsAnchors (hwf : F.WellFormed) (hwf' : F'.WellFormed)
    (hssa' : F'.SSADominance) (hkeeps : KeepsAnchors F F')
    (hmem : ∀ x b, x ∈ F'.body b ↔ x ∈ F.body b) (hb : F.cfg.Reachable b)
    (hlive : F'.LiveOnEntry v b) : F.LiveOnEntry v b := by
  obtain ⟨c, u, hu, huse, hdef, hwalk⟩ := hlive
  rw [hkeeps.code.instr] at huse
  rw [hkeeps.cfg] at hwalk
  have hc : F.cfg.Reachable c := hwalk.closed hb fun _ _ hx hs => hx.step hs
  have hdefined : ∀ e, F.DefinedIn v e → F'.DefinedIn v e := by
    intro e he
    obtain ⟨d, hd, rfl⟩ := he
    exact ⟨d, (hmem d e).mpr hd, rfl⟩
  refine ⟨c, u, (hmem u c).mp hu, huse, ?_, ?_⟩
  · intro hbefore
    exact hdef (hbefore.of_keepsAnchors hwf hwf' hssa' hkeeps hc hu huse (hdefined c))
  · apply hwalk.mono
    intro e he hin
    exact he (hdefined e hin)

section

variable (hwf : F.WellFormed) (hssa : F.SSADominance)

include hwf hssa

/-- **Rearranging regions** changes nothing. -/
theorem Function.liveOnEntry_reorder (h : Motions (fun _ _ _ => False) F F')
    (hb : F.cfg.Reachable b) : F'.LiveOnEntry v b ↔ F.LiveOnEntry v b := by
  have hwf' := h.wellFormed hwf
  have hkeeps := h.keepsAnchors hwf
  constructor
  · intro hlive
    exact hlive.of_keepsAnchors hwf hwf' (h.ssa hwf hssa) hkeeps (fun _ _ => h.mem_iff) hb
  · intro hlive
    rw [← hkeeps.cfg] at hb
    exact hlive.of_keepsAnchors hwf' hwf hssa hkeeps.symm (fun _ _ => h.mem_iff.symm) hb

/-- In reachable code nothing but a PHI reads itself. -/
theorem not_uses_self (hb : F.cfg.Reachable b) (hi : i ∈ F.body b)
    (hphi : (F.instr i).isPHI = false) : ¬ F.Uses i i := by
  intro huse
  cases hssa.above hwf hb hi hphi huse with
  | inl hbefore =>
    have hnd := hbefore.nodup (hwf.body_nodup b)
    simp at hnd
  | inr hdom =>
    obtain ⟨bd, hbd, hdom⟩ := hdom
    exact hdom.1 (hwf.body_unique hbd hi)

end

/-- `i` has left `src` for the end of `dst`, which strictly dominates it. -/
structure Hoisted (F F' : Function) (i : InstrId) (src dst : BasicBlock) : Prop where
  motion : Motion (fun _ _ _ => True) F F'
  mem_src : i ∈ F.body src
  not_anchor : F.isAnchor i = false
  reachable : F.cfg.Reachable src
  dominates : F.cfg.StrictlyDominates dst src
  mem_iff : ∀ x b, x ∈ F'.body b ↔ (x ≠ i ∧ x ∈ F.body b) ∨ (x = i ∧ b = dst)

section

variable {src dst : BasicBlock} (hwf : F.WellFormed) (hssa : F.SSADominance)
  (h : Hoisted F F' i src dst)

include h in
theorem Hoisted.definedIn_iff (hv : v ≠ .instruction i) :
    F'.DefinedIn v b ↔ F.DefinedIn v b := by
  constructor
  · intro hin
    obtain ⟨d, hd, rfl⟩ := hin
    cases (h.mem_iff d b).mp hd with
    | inl hd => exact ⟨d, hd.2, rfl⟩
    | inr hd => exact absurd (congrArg Value.instruction hd.1) hv
  · intro hin
    obtain ⟨d, hd, rfl⟩ := hin
    refine ⟨d, (h.mem_iff d b).mpr (.inl ⟨?_, hd⟩), rfl⟩
    intro hdi
    exact hv (congrArg Value.instruction hdi)

include h in
theorem Hoisted.definedIn_self : F'.DefinedIn (.instruction i) b ↔ b = dst := by
  constructor
  · intro hin
    obtain ⟨d, hd, heq⟩ := hin
    cases heq
    exact (((h.mem_iff i b).mp hd).resolve_left fun hne => hne.1 rfl).2
  · intro hb
    exact ⟨i, (h.mem_iff i b).mpr (.inr ⟨rfl, hb⟩), rfl⟩

include hwf hssa h

/-- **A hoist makes no other value live.** -/
theorem Function.LiveOnEntry.of_hoist (hv : v ≠ .instruction i) (hb : F.cfg.Reachable b)
    (hlive : F'.LiveOnEntry v b) : F.LiveOnEntry v b := by
  obtain ⟨c, u, hu, huse, hdef, hwalk⟩ := hlive
  have hwf' := h.motion.wellFormed hwf
  have hssa' := h.motion.ssa hwf hssa
  have hcfg := h.motion.cfg_eq hwf
  have hinstr := h.motion.sameCode.instr
  rw [hcfg] at hwalk
  have hc : F.cfg.Reachable c := hwalk.closed hb fun _ _ hx hs => hx.step hs
  have hwalk' : F.cfg.LeadsTo (fun e => ¬ F.DefinedIn v e) b c := by
    apply hwalk.mono
    intro e he hin
    exact he ((h.definedIn_iff hv).mpr hin)
  cases (h.mem_iff u c).mp hu with
  | inl hu' =>
    rw [hinstr] at huse
    refine ⟨c, u, hu'.2, huse, ?_, hwalk'⟩
    intro hbefore
    have hmotions : Motions (fun _ _ _ => True) F F' := .single h.motion
    exact hdef (hbefore.of_keepsAnchors hwf hwf' hssa' (hmotions.keepsAnchors hwf) hc hu huse
      (h.definedIn_iff hv).mpr)
  | inr hu' =>
    -- the use is the hoisted instruction itself: go on from the target to where it came from
    obtain ⟨rfl, rfl⟩ := hu'
    have hphi : (F'.instr u).isPHI = false := by
      rw [hinstr]
      exact isPHI_of_not_anchor h.not_anchor
    have habove : ∀ e, F.DefinedIn v e → F.cfg.StrictlyDominates e c := by
      intro e he
      obtain ⟨d, hd, rfl⟩ := he
      have hc' := hc
      rw [← hcfg] at hc'
      cases hssa'.above hwf' hc' hu hphi huse with
      | inl hbefore => exact absurd ⟨d, rfl, hbefore⟩ hdef
      | inr hdom =>
        obtain ⟨bd, hbd, hdom⟩ := hdom
        have hdu : d ≠ u := fun heq => hv (congrArg Value.instruction heq)
        have hbd' := ((h.mem_iff d bd).mp hbd).resolve_right fun heq => hdu heq.1
        obtain rfl := hwf.body_unique hd hbd'.2
        rw [hcfg] at hdom
        exact hdom
    have hon : F.cfg.LeadsTo (fun e => ¬ F.DefinedIn v e) c src := by
      apply FlowGraph.leadsTo_of_dominates _ h.dominates.2 h.reachable
      intro e he
      exact (habove e (not_not.mp he)).avoids hc
    rw [hinstr] at huse
    refine ⟨src, u, h.mem_src, huse, ?_, hwalk'.trans hon⟩
    intro hbefore
    obtain ⟨d, rfl, hbefore⟩ := hbefore
    -- a definition above the target is not in the block below it
    have hdom := habove src ⟨d, hbefore.subset List.mem_cons_self, rfl⟩
    exact hdom.1 (hdom.2.antisymm h.dominates.2 h.reachable)

/-- No user of the hoisted value stands behind it in the target. -/
theorem Hoisted.not_definedBefore (hc : F.cfg.Reachable c) (hu : u ∈ F.body c) (huse : F.Uses u i) :
    ¬ F'.DefinedBefore (.instruction i) u c := by
  intro hbefore
  obtain ⟨d, heq, hbefore⟩ := hbefore
  cases heq
  obtain rfl := h.definedIn_self.mp ⟨i, hbefore.subset List.mem_cons_self, rfl⟩
  cases huphi : (F.instr u).isPHI with
  | true =>
    -- only PHIs stand before a PHI
    have hiphi := List.pairwise_iff_forall_sublist.mp
      ((h.motion.wellFormed hwf).phis_first c) hbefore
    rw [h.motion.sameCode.instr, isPHI_of_not_anchor h.not_anchor] at hiphi
    cases hiphi huphi
  | false =>
    -- a user in the target would have been dominated by the block below it
    cases hssa.above hwf hc hu huphi huse with
    | inl hbefore =>
      have hsrc := hwf.body_unique (hbefore.subset List.mem_cons_self) h.mem_src
      exact h.dominates.1 hsrc
    | inr hdom =>
      obtain ⟨bd, hbd, hdom⟩ := hdom
      obtain rfl := hwf.body_unique hbd h.mem_src
      exact hdom.1 (hdom.2.antisymm h.dominates.2 h.reachable)

/-- **Where the hoisted value is live**: wherever one of its users can be reached without passing the
target. -/
theorem liveOnEntry_hoisted (hb : F.cfg.Reachable b) :
    F'.LiveOnEntry (.instruction i) b ↔ ∃ c u, u ∈ F.body c ∧ F.Uses u i ∧
      F.cfg.LeadsTo (fun e => e ≠ dst) b c := by
  have hcfg := h.motion.cfg_eq hwf
  have hinstr := h.motion.sameCode.instr
  have hphi : (F.instr i).isPHI = false := isPHI_of_not_anchor h.not_anchor
  have hself : ∀ u, F.Uses u i → u ≠ i := by
    intro u huse heq
    rw [heq] at huse
    exact not_uses_self hwf hssa h.reachable h.mem_src hphi huse
  constructor
  · intro hlive
    obtain ⟨c, u, hu, huse, _, hwalk⟩ := hlive
    rw [hinstr] at huse
    have hu' := ((h.mem_iff u c).mp hu).resolve_right fun heq => hself u huse heq.1
    rw [hcfg] at hwalk
    refine ⟨c, u, hu'.2, huse, hwalk.mono ?_⟩
    intro e he heq
    exact he (h.definedIn_self.mpr heq)
  · intro hlive
    obtain ⟨c, u, hu, huse, hwalk⟩ := hlive
    have hc : F.cfg.Reachable c := hwalk.closed hb fun _ _ hx hs => hx.step hs
    refine ⟨c, u, (h.mem_iff u c).mpr (.inl ⟨hself u huse, hu⟩), ?_,
      h.not_definedBefore hwf hssa hc hu huse, ?_⟩
    · rw [hinstr]
      exact huse
    · rw [hcfg]
      apply hwalk.mono
      intro e he hin
      exact he (h.definedIn_self.mp hin)

end

end TraceScheduler
