import TraceScheduler.Library.Dominance
import Mathlib.Data.List.Chain

/-!
# Walks and backward may-analysis

A backward may-analysis collects, for each block, the items that some walk from the block leads to
before they are killed: `x` is wanted at `b` if it is generated there, or if it survives `b` and is
wanted at a successor.  Such equations have many solutions on a graph with cycles, because a cycle
may keep an item alive all by itself.  Two facts pin the intended one down:

* a solution holds whatever a walk leads to (`Solves.of_leadsTo`);
* an iteration that starts empty only ever adds items that a walk accounts for (`Grounded.next`).

`LeadsTo clear b c` is the walk, with the blocks before its end clear; `leadsTo_iff_walk` is the same
with the list of blocks written out.
-/

namespace TraceScheduler

namespace FlowGraph

variable {B : Type*} {G : FlowGraph B} {b c s : B}

/-- Some walk leads from `b` to `c`, and every block on it before its end is clear. -/
inductive LeadsTo (G : FlowGraph B) (clear : B → Prop) : B → B → Prop
  | refl (b : B) : LeadsTo G clear b b
  | step {b s c : B} : clear b → s ∈ G.succs b → LeadsTo G clear s c → LeadsTo G clear b c

/-- The members follow each other along edges. -/
abbrev IsWalk (G : FlowGraph B) (l : List B) : Prop := l.IsChain fun u v => v ∈ G.succs u

variable {clear clear' : B → Prop}

theorem LeadsTo.mono (h : G.LeadsTo clear b c) (hclear : ∀ d, clear d → clear' d) :
    G.LeadsTo clear' b c := by
  induction h with
  | refl b => exact .refl b
  | step hb hs _ ih => exact .step (hclear _ hb) hs ih

theorem LeadsTo.trans {d : B} (h : G.LeadsTo clear b c) (h' : G.LeadsTo clear c d) :
    G.LeadsTo clear b d := by
  induction h with
  | refl b => exact h'
  | step hb hs _ ih => exact .step hb hs (ih h')

/-- A walk from a closed set stays in it. -/
theorem LeadsTo.closed {P : B → Prop} (h : G.LeadsTo clear b c) (hb : P b)
    (hstep : ∀ u v, P u → v ∈ G.succs u → P v) : P c := by
  induction h with
  | refl b => exact hb
  | step _ hs _ ih => exact ih (hstep _ _ hb hs)

theorem leadsTo_iff_walk : G.LeadsTo clear b c ↔
    ∃ l, G.IsWalk (l ++ [c]) ∧ (l ++ [c]).head? = some b ∧ ∀ d ∈ l, clear d := by
  constructor
  · intro h
    induction h with
    | refl b => exact ⟨[], by simp, rfl, by simp⟩
    | @step b s c hb hs _ ih =>
      obtain ⟨l, hwalk, hhead, hl⟩ := ih
      refine ⟨b :: l, ?_, rfl, ?_⟩
      · show (b :: (l ++ [c])).IsChain _
        rw [List.isChain_cons]
        refine ⟨?_, hwalk⟩
        intro y hy
        rw [hhead] at hy
        exact Option.some.inj hy ▸ hs
      · intro d hd
        cases List.mem_cons.mp hd with
        | inl hd => exact hd ▸ hb
        | inr hd => exact hl d hd
  · intro h
    obtain ⟨l, hwalk, hhead, hl⟩ := h
    induction l generalizing b with
    | nil =>
      obtain rfl : c = b := by simpa using hhead
      exact .refl c
    | cons a l ih =>
      obtain rfl : a = b := by simpa using hhead
      have hchain : (a :: (l ++ [c])).IsChain fun u v => v ∈ G.succs u := hwalk
      rw [List.isChain_cons] at hchain
      obtain ⟨s, hs⟩ : ∃ s, (l ++ [c]).head? = some s := by
        cases l with
        | nil => exact ⟨c, rfl⟩
        | cons s l => exact ⟨s, rfl⟩
      apply LeadsTo.step (hl a List.mem_cons_self) (hchain.1 s hs)
      exact ih hchain.2 hs fun d hd => hl d (List.mem_cons_of_mem a hd)

/-- **Strict dominance is carried backwards along a walk** that stays clear of the dominator. -/
theorem LeadsTo.strictlyDominates {a : B} (h : G.LeadsTo (fun d => d ≠ a) b c)
    (ha : G.StrictlyDominates a c) : G.StrictlyDominates a b := by
  induction h with
  | refl b => exact ha
  | @step b s c hb hs hwalk ih =>
    have hs' := ih ha
    exact ⟨Ne.symm hb, hs'.2.pred hs'.1 hs⟩

theorem LeadsTo.snoc (h : G.LeadsTo clear b c) (hc : clear c) (hs : s ∈ G.succs c) :
    G.LeadsTo clear b s :=
  h.trans (.step hc hs (.refl s))

theorem StrictlyDominates.avoids {a t : B} (h : G.StrictlyDominates a t) (ht : G.Reachable t) :
    G.Avoids t a := by
  apply not_dominates_iff_avoids.mp
  intro hta
  exact h.1 (h.2.antisymm hta (h.2.reachable ht))

/-- **From a dominator a walk leads down** through clear blocks, when every other block is reached
around the dominator. -/
theorem leadsTo_of_dominates {t : B} (hclear : ∀ d, ¬ clear d → G.Avoids t d)
    (ht : G.Dominates t c) (hc : G.Reachable c) : G.LeadsTo clear t c := by
  -- every block is reached around `t` or through clear blocks from `t`
  have hall : G.Avoids t c ∨ G.LeadsTo clear t c := by
    refine hc.closed (P := fun x => G.Avoids t x ∨ G.LeadsTo clear t x) ?_ ?_
    · by_cases he : G.entry = t
      · right
        rw [he]
        exact .refl t
      · exact .inl (.entry he)
    · intro x y hx hs
      by_cases hy : y = t
      · right
        rw [hy]
        exact .refl t
      · cases hx with
        | inl hx => exact .inl (hx.step hs hy)
        | inr hx =>
          by_cases hxc : clear x
          · exact .inr (hx.snoc hxc hs)
          · exact .inl ((hclear x hxc).step hs hy)
  cases hall with
  | inl havoid => exact absurd ht (not_dominates_iff_avoids.mpr havoid)
  | inr hwalk => exact hwalk

/-! ### Backward equations -/

section

variable {α : Type*} (gen kill live live' : B → α → Prop)

/-- A walk leads from `b` to a block that generates `x`, and no block before it kills `x`. -/
def Wanted (G : FlowGraph B) (b : B) (x : α) : Prop :=
  ∃ c, gen c x ∧ G.LeadsTo (fun d => ¬ kill d x) b c

/-- Whatever is live is wanted. -/
def Grounded (G : FlowGraph B) : Prop := ∀ b x, live b x → G.Wanted gen kill b x

/-- On the blocks `U`, what a block generates is live there, and so is what it does not kill and a
successor has live. -/
structure Solves (G : FlowGraph B) (U : B → Prop) : Prop where
  gen_live : ∀ b x, U b → gen b x → live b x
  pass : ∀ b s x, U b → ¬ kill b x → s ∈ G.succs b → live s x → live b x

variable {gen kill live live'} {x : α}

theorem Wanted.here (h : gen b x) : G.Wanted gen kill b x := ⟨b, h, .refl b⟩

theorem Wanted.back (h : G.Wanted gen kill s x) (hb : ¬ kill b x) (hs : s ∈ G.succs b) :
    G.Wanted gen kill b x := by
  obtain ⟨c, hc, hwalk⟩ := h
  exact ⟨c, hc, .step hb hs hwalk⟩

/-- Adding what the equations ask for keeps the sets grounded. -/
theorem Grounded.next (h : G.Grounded gen kill live) (hnext : ∀ b x, live' b x →
    live b x ∨ gen b x ∨ (¬ kill b x ∧ ∃ s ∈ G.succs b, live s x)) :
    G.Grounded gen kill live' := by
  intro b x hx
  cases hnext b x hx with
  | inl hlive => exact h b x hlive
  | inr hnew =>
    cases hnew with
    | inl hgen => exact .here hgen
    | inr hpass =>
      obtain ⟨hkill, s, hs, hlive⟩ := hpass
      exact (h s x hlive).back hkill hs

variable {U : B → Prop}

theorem Solves.of_leadsTo (h : G.Solves gen kill live U) (hU : ∀ b s, U b → s ∈ G.succs b → U s)
    (hb : U b) (hwalk : G.LeadsTo (fun d => ¬ kill d x) b c) (hc : gen c x) : live b x := by
  induction hwalk with
  | refl b => exact h.gen_live b x hb hc
  | @step b s c hkill hs _ ih => exact h.pass b s x hb hkill hs (ih (hU b s hb hs) hc)

/-- **A grounded solution is what walks lead to.** -/
theorem Solves.live_iff (h : G.Solves gen kill live U) (hground : G.Grounded gen kill live)
    (hU : ∀ b s, U b → s ∈ G.succs b → U s) (hb : U b) : live b x ↔ G.Wanted gen kill b x := by
  constructor
  · exact hground b x
  · intro hx
    obtain ⟨c, hc, hwalk⟩ := hx
    exact h.of_leadsTo hU hb hwalk hc

end

end FlowGraph

end TraceScheduler
