import TraceScheduler.Semantics

/-!
# The order of definitions in SSA form

In reachable code dominance orders the definitions a value depends on: `Precedes a x` says that `a`
stands before `x`, in a strictly dominating block or earlier in the same block.  It is transitive, it
contains every non-PHI use (`InstDominates.precedes`), and so an instruction precedes whatever is
computed from it through non-anchors (`precedes_of_dependsOn`).

What execution needs from this is one fact: a pure value that exists at some point of a block does
not depend on an anchor that is still to come in that block (`not_dependsOn`).  Writing the anchor's
result therefore leaves the value up to date, loops included.
-/

namespace TraceScheduler

open scoped List

namespace Function

variable {F : Function} {a d i x : InstrId} {b : BasicBlock}

/-- `a` stands before `x`, which is in reachable code. -/
def Precedes (F : Function) (a x : InstrId) : Prop :=
  ∃ ba bx, a ∈ F.body ba ∧ x ∈ F.body bx ∧ F.cfg.Reachable bx ∧
    (F.cfg.StrictlyDominates ba bx ∨ (ba = bx ∧ [a, x] <+ F.body bx))

/-- A pure value that exists at the point of `b` before which `done` has been executed. -/
def AvailAt (F : Function) (b : BasicBlock) (done : List InstrId) (x : InstrId) : Prop :=
  F.isAnchor x = false ∧ (x ∈ done ∨ ∃ bx, x ∈ F.body bx ∧ F.cfg.StrictlyDominates bx b)

theorem AvailableIn.strictlyDominates (h : F.AvailableIn d b) (hb : F.cfg.Reachable b) :
    ∃ bd, d ∈ F.body bd ∧ F.cfg.StrictlyDominates bd b := by
  obtain ⟨bd, hd, hav⟩ := h
  refine ⟨bd, hd, ?_⟩
  split at hav
  · obtain ⟨n, _, hedge⟩ := hav
    refine ⟨?_, hedge.source_dominates⟩
    intro heq
    subst heq
    exact FlowGraph.not_edgeDominates_source hb hedge
  · exact hav

theorem InstDominates.precedes (hwf : F.WellFormed) (hx : x ∈ F.body b)
    (hb : F.cfg.Reachable b) (h : F.InstDominates a x) : F.Precedes a x := by
  obtain ⟨b', hx', hav⟩ := h
  obtain rfl := hwf.body_unique hx hx'
  rcases hav with hav | hav | hav
  · exact absurd hb hav
  · obtain ⟨ba, ha, hdom⟩ := hav.strictlyDominates hb
    exact ⟨ba, b, ha, hx, hb, .inl hdom⟩
  · exact ⟨b, b, hav.subset List.mem_cons_self, hx, hb, .inr ⟨rfl, hav⟩⟩

theorem Precedes.trans (hwf : F.WellFormed) (had : F.Precedes a d) (hdx : F.Precedes d x) :
    F.Precedes a x := by
  obtain ⟨ba, bd, ha, hd, _, had⟩ := had
  obtain ⟨bd', bx, hd', hx, hbx, hdx⟩ := hdx
  obtain rfl := hwf.body_unique hd hd'
  refine ⟨ba, bx, ha, hx, hbx, ?_⟩
  rcases had with had | ⟨rfl, had⟩
  · rcases hdx with hdx | ⟨rfl, _⟩
    · refine .inl ⟨?_, had.2.trans hdx.2⟩
      intro heq
      subst heq
      exact hdx.1 (hdx.2.antisymm had.2 (hdx.2.reachable hbx))
    · exact .inl had
  · rcases hdx with hdx | ⟨rfl, hdx⟩
    · exact .inl hdx
    · exact .inr ⟨rfl, sublist_pair_trans (hwf.body_nodup _) had hdx⟩

theorem Precedes.reachable (h : F.Precedes a x) : ∃ ba, a ∈ F.body ba ∧ F.cfg.Reachable ba := by
  obtain ⟨ba, bx, ha, _, hbx, hdom | ⟨rfl, _⟩⟩ := h
  · exact ⟨ba, ha, hdom.2.reachable hbx⟩
  · exact ⟨ba, ha, hbx⟩

section

variable {V W : Type*} {sem : Semantics V W} {args : ℕ → V} {base : InstrId → Prop}

/-- An anchor precedes every pure value computed from it. -/
theorem precedes_of_dependsOn (hwf : F.WellFormed) (hssa : F.SSADominance)
    (hbase : ∀ y, F.isAnchor y = true → base y)
    (hdep : (pureDataflow F sem args base).DependsOn x a) (hx : F.isAnchor x = false)
    (hxb : x ∈ F.body b) (hb : F.cfg.Reachable b) (ha : F.isAnchor a = true) : F.Precedes a x := by
  induction hdep generalizing b with
  | refl x =>
    rw [ha] at hx
    cases hx
  | @step x d a hnb huse hdep ih =>
    have hdx : F.Precedes d x :=
      (hssa.use hxb (isPHI_of_not_anchor hx) huse).precedes hwf hxb hb
    by_cases hd : F.isAnchor d = true
    · -- the value of an anchor is not unfolded further
      cases hdep with
      | refl => exact hdx
      | step hnb' _ _ => exact absurd (hbase d hd) hnb'
    · obtain ⟨bd, hdb, hbd⟩ := hdx.reachable
      exact (ih (by simpa using hd) hdb hbd ha).trans hwf hdx

/-- **A pure value that exists at a point does not depend on an anchor still to come.** -/
theorem not_dependsOn (hwf : F.WellFormed) (hssa : F.SSADominance)
    (hbase : ∀ y, F.isAnchor y = true → base y) {done rest : List InstrId}
    (hbody : F.body b = done ++ rest) (hb : F.cfg.Reachable b) (harest : a ∈ rest)
    (ha : F.isAnchor a = true) (hx : F.AvailAt b done x) :
    ¬ (pureDataflow F sem args base).DependsOn x a := by
  intro hdep
  obtain ⟨hxa, hx⟩ := hx
  have hab : a ∈ F.body b := by rw [hbody]; exact List.mem_append_right _ harest
  have hxb : ∃ bx, x ∈ F.body bx ∧ F.cfg.Reachable bx := by
    rcases hx with hx | ⟨bx, hx, hdom⟩
    · exact ⟨b, by rw [hbody]; exact List.mem_append_left _ hx, hb⟩
    · exact ⟨bx, hx, hdom.2.reachable hb⟩
  obtain ⟨bx, hxbx, hbx⟩ := hxb
  obtain ⟨ba, bx', ha', hx', _, hprec⟩ :=
    precedes_of_dependsOn hwf hssa hbase hdep hxa hxbx hbx ha
  obtain rfl := hwf.body_unique hab ha'
  obtain rfl := hwf.body_unique hxbx hx'
  rcases hx with hx | ⟨by', hy, hdom⟩
  · -- `x` was executed before `a`, so `a` does not come before it
    have hxb : x ∈ F.body b := by
      rw [hbody]
      exact List.mem_append_left _ hx
    obtain rfl := hwf.body_unique hxbx hxb
    rcases hprec with hprec | ⟨_, hprec⟩
    · exact hprec.1 rfl
    · obtain ⟨d₁, d₂, rfl⟩ := List.append_of_mem hx
      have hnd := hwf.body_nodup bx
      have heq : d₁ ++ x :: d₂ ++ rest = d₁ ++ x :: (d₂ ++ rest) := by simp
      rw [hbody, heq] at hprec hnd
      have had₁ := (sublist_pair_append hnd).mp hprec
      exact (List.nodup_append.mp hnd).2.2 a had₁ a (by simp [harest]) rfl
  · obtain rfl := hwf.body_unique hxbx hy
    rcases hprec with hprec | ⟨rfl, _⟩
    · exact hdom.1 (hdom.2.antisymm hprec.2 hbx)
    · exact hdom.1 rfl

end

/-- What a non-PHI reads at its place: an anchor's result or a pure value that exists there. -/
theorem availAt_of_uses (hwf : F.WellFormed) (hssa : F.SSADominance) (hb : F.cfg.Reachable b)
    {done rest : List InstrId} (hbody : F.body b = done ++ i :: rest)
    (hi : (F.instr i).isPHI = false) (huse : F.Uses i d) (hd : F.isAnchor d = false) :
    F.AvailAt b done d := by
  have hib : i ∈ F.body b := by rw [hbody]; simp
  obtain ⟨b', hib', hav⟩ := hssa.use hib hi huse
  obtain rfl := hwf.body_unique hib hib'
  refine ⟨hd, ?_⟩
  rcases hav with hav | hav | hav
  · exact absurd hb hav
  · exact .inr (hav.strictlyDominates hb)
  · have hnd := hwf.body_nodup b
    rw [hbody] at hav hnd
    exact .inl ((sublist_pair_append hnd).mp hav)

/-- What a PHI reads on an edge: an anchor's result or a pure value that exists at the end of the
incoming block. -/
theorem availAt_of_edge {p s : BasicBlock} (hp : F.cfg.Reachable p)
    {done : List InstrId} {t : InstrId} (hbody : F.body p = done ++ [t])
    (ht : (F.instr t).isTerminator = true) (hav : F.AvailableOnEdge d p s)
    (hd : F.isAnchor d = false) : F.AvailAt p done d := by
  refine ⟨hd, ?_⟩
  rcases hav with hav | hav | ⟨hdp, _⟩
  · exact absurd hp hav
  · exact .inr (hav.strictlyDominates hp)
  · rw [hbody, List.mem_append, List.mem_singleton] at hdp
    rcases hdp with hdp | rfl
    · exact .inl hdp
    · rw [isTerminator_of_not_anchor hd] at ht
      cases ht

/-- What exists on entry to a block exists at the end of each of its predecessors. -/
theorem AvailAt.pred {p s : BasicBlock} {done : List InstrId} {t : InstrId}
    (hbody : F.body p = done ++ [t]) (ht : (F.instr t).isTerminator = true)
    (hs : s ∈ F.successors p) (hx : F.AvailAt s [] x) : F.AvailAt p done x := by
  obtain ⟨hxa, hx | ⟨bx, hxb, hne, hdom⟩⟩ := hx
  · cases hx
  · refine ⟨hxa, ?_⟩
    by_cases hbp : bx = p
    · subst hbp
      rw [hbody, List.mem_append, List.mem_singleton] at hxb
      rcases hxb with hxb | rfl
      · exact .inl hxb
      · rw [isTerminator_of_not_anchor hxa] at ht
        cases ht
    · exact .inr ⟨bx, hxb, hbp, hdom.pred hne hs⟩

end Function

end TraceScheduler
