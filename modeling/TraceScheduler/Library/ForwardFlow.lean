import TraceScheduler.Library.BackwardFlow

/-!
# Forward may-analysis

A forward may-analysis is a backward one on the reversed graph: what holds on the way out of a block
is what the block generates and what reaches it and survives.  `reversed preds` is that graph; its
walks are the walks of the graph itself, read from their ends (`reversed_leadsTo`).  So an item leaves
`b` exactly if it is generated there or follows a walk from where it is generated, past no block that
kills it (`wanted_reversed`).
-/

namespace TraceScheduler

namespace FlowGraph

variable {B α : Type*} {G : FlowGraph B} {preds : B → List B} {clear : B → Prop} {b c p : B}

/-- The graph whose edges lead to predecessors. -/
def reversed (G : FlowGraph B) (preds : B → List B) : FlowGraph B := ⟨G.entry, preds⟩

/-- A walk of at least one edge from `c` to `b`; every block strictly between them is clear. -/
def Follows (G : FlowGraph B) (clear : B → Prop) (c b : B) : Prop :=
  ∃ s ∈ G.succs c, G.LeadsTo clear s b

theorem Follows.snoc (h : G.Follows clear c p) (hp : clear p) (hb : b ∈ G.succs p) :
    G.Follows clear c b := by
  obtain ⟨s, hs, hwalk⟩ := h
  exact ⟨s, hs, hwalk.snoc hp hb⟩

theorem Follows.reachable (h : G.Follows clear c b) (hc : G.Reachable c) : G.Reachable b := by
  obtain ⟨s, hs, hwalk⟩ := h
  exact hwalk.closed (hc.step hs) fun u v hu hv => hu.step hv

/-- The last edge of a walk. -/
theorem follows_iff : G.Follows clear c b ↔
    ∃ p, b ∈ G.succs p ∧ (p = c ∨ (clear p ∧ G.Follows clear c p)) := by
  constructor
  · rintro ⟨s, hs, hwalk⟩
    induction hwalk generalizing c with
    | refl b => exact ⟨c, hs, .inl rfl⟩
    | @step s s' b hclear hs' _ ih =>
      obtain ⟨p, hb, hp⟩ := ih hs'
      refine ⟨p, hb, .inr ?_⟩
      rcases hp with rfl | ⟨hpclear, t, ht, hrest⟩
      · exact ⟨hclear, p, hs, .refl p⟩
      · exact ⟨hpclear, s, hs, .step hclear ht hrest⟩
  · rintro ⟨p, hb, rfl | ⟨hclear, hfollows⟩⟩
    · exact ⟨b, hb, .refl b⟩
    · exact hfollows.snoc hclear hb

/-- The predecessors of a block, among the reachable ones. -/
def ArePredecessors (G : FlowGraph B) (preds : B → List B) : Prop :=
  ∀ b p, p ∈ preds b ↔ G.Reachable p ∧ b ∈ G.succs p

theorem Follows.of_reversed (hpreds : G.ArePredecessors preds)
    (h : (G.reversed preds).LeadsTo clear p c) (hb : b ∈ G.succs p) : G.Follows clear c b := by
  induction h generalizing b with
  | refl c => exact ⟨b, hb, .refl b⟩
  | @step p q c hp hq _ ih => exact (ih ((hpreds p q).mp hq).2).snoc hp hb

theorem Follows.to_reversed (hpreds : G.ArePredecessors preds) (hc : G.Reachable c)
    (h : G.Follows clear c b) : ∃ p ∈ preds b, (G.reversed preds).LeadsTo clear p c := by
  obtain ⟨s, hs, hwalk⟩ := h
  induction hwalk generalizing c with
  | refl b => exact ⟨c, (hpreds b c).mpr ⟨hc, hs⟩, .refl c⟩
  | @step s s' b hclear hs' _ ih =>
    obtain ⟨p, hp, hback⟩ := ih (hc.step hs) hs'
    exact ⟨p, hp, hback.snoc hclear ((hpreds s c).mpr ⟨hc, hs⟩)⟩

/-- **A walk of the graph, read from its end.** -/
theorem reversed_leadsTo (hpreds : G.ArePredecessors preds) (hc : G.Reachable c) :
    (∃ p ∈ preds b, (G.reversed preds).LeadsTo clear p c) ↔ G.Follows clear c b := by
  constructor
  · rintro ⟨p, hp, hback⟩
    exact Follows.of_reversed hpreds hback ((hpreds b p).mp hp).2
  · exact fun h => h.to_reversed hpreds hc

/-- Walking back ends where it began, or in a reachable block. -/
theorem LeadsTo.reversed_reachable (hpreds : G.ArePredecessors preds)
    (h : (G.reversed preds).LeadsTo clear p c) (hp : G.Reachable p) : G.Reachable c :=
  h.closed hp fun u v _ hv => ((hpreds u v).mp hv).1

variable {gen kill : B → α → Prop} {x : α}

/-- **What leaves a block**: what it generates, and what follows a walk to it from a
reachable block that generates it and is not killed between nor here. -/
theorem wanted_reversed (hpreds : G.ArePredecessors preds) :
    (G.reversed preds).Wanted gen kill b x ↔ gen b x ∨
      (¬ kill b x ∧ ∃ c, G.Reachable c ∧ gen c x ∧ G.Follows (fun d => ¬ kill d x) c b) := by
  constructor
  · rintro ⟨c, hc, hback⟩
    cases hback with
    | refl => exact .inl hc
    | step hkill hp hrest =>
      have hreach := hrest.reversed_reachable hpreds ((hpreds _ _).mp hp).1
      exact .inr ⟨hkill, c, hreach, hc, (reversed_leadsTo hpreds hreach).mp ⟨_, hp, hrest⟩⟩
  · rintro (hgen | ⟨hkill, c, hreach, hc, hfollows⟩)
    · exact .here hgen
    · obtain ⟨p, hp, hback⟩ := hfollows.to_reversed hpreds hreach
      exact ⟨c, hc, .step hkill hp hback⟩

end FlowGraph

end TraceScheduler
