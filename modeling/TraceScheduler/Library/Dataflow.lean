import Mathlib.Logic.Function.Basic
import Mathlib.Tactic.Common

/-!
# Pure definitions and the values they denote

A `Dataflow` splits the names of a program into *base* names, whose value is whatever the
environment holds, and *pure* names, each defined by a partial function of the names it reads.
`Denotes ρ x v` says that `v` is the value of `x` once every pure definition below it is unfolded
down to base names.  Three facts make it an invariant of straight-line execution:

* a name denotes at most one value (`Denotes.unique`), and that value depends on the environment
  only through the base names below it (`Denotes.congr`);
* executing a pure definition adds its name to the set that holds its own denotation
  (`Holds.define`);
* writing base names keeps the set, as long as no member depends on a written name (`Holds.write`).

Two environments that agree on base names therefore agree on every name both of them hold, in
whatever order the pure definitions were executed (`Holds.agree`).
-/

namespace TraceScheduler

/-- Names that are either read from the environment (`base`) or defined by a pure function. -/
structure Dataflow (N V : Type*) where
  base : N → Prop
  deps : N → N → Prop
  eval : N → (N → V) → Option V
  eval_congr : ∀ x ρ ρ', (∀ d, deps x d → ρ d = ρ' d) → eval x ρ = eval x ρ'

namespace Dataflow

variable {N V : Type*} (D : Dataflow N V)

/-- The value of a name in an environment, pure definitions unfolded down to base names. -/
inductive Denotes (ρ : N → V) : N → V → Prop
  | base {x : N} : D.base x → Denotes ρ x (ρ x)
  | pure {x : N} {v : V} (vs : N → V) : ¬ D.base x → (∀ d, D.deps x d → Denotes ρ d (vs d)) →
      D.eval x vs = some v → Denotes ρ x v

/-- `x` reads `a`, directly or through pure definitions. -/
inductive DependsOn : N → N → Prop
  | refl (x : N) : DependsOn x x
  | step {x d a : N} : ¬ D.base x → D.deps x d → DependsOn d a → DependsOn x a

/-- Every name of `A` holds the value it denotes. -/
def Holds (ρ : N → V) (A : N → Prop) : Prop := ∀ x, A x → D.Denotes ρ x (ρ x)

variable {D} {ρ ρ' : N → V} {A A' : N → Prop} {x a : N} {v w : V}

theorem Denotes.unique (h : D.Denotes ρ x v) (h' : D.Denotes ρ x w) : v = w := by
  induction h generalizing w with
  | base hb =>
    cases h' with
    | base _ => rfl
    | pure _ hnb _ _ => exact absurd hb hnb
  | pure vs hnb _ heval ih =>
    cases h' with
    | base hb => exact absurd hb hnb
    | pure ws _ hdeps' heval' =>
      have hvs : D.eval _ vs = D.eval _ ws :=
        D.eval_congr _ _ _ fun d hd => ih d hd (hdeps' d hd)
      rw [heval, heval'] at hvs
      exact Option.some.inj hvs

theorem Denotes.congr (h : D.Denotes ρ x v)
    (hag : ∀ a, D.base a → D.DependsOn x a → ρ a = ρ' a) : D.Denotes ρ' x v := by
  induction h with
  | @base x hb =>
    rw [hag x hb (.refl x)]
    exact .base hb
  | pure vs hnb hdeps heval ih =>
    exact .pure vs hnb (fun d hd => ih d hd fun a ha hda => hag a ha (.step hnb hd hda)) heval

/-- Agreement on base names is agreement on denotations. -/
theorem Denotes.of_base_eq (h : D.Denotes ρ x v) (hag : ∀ a, D.base a → ρ a = ρ' a) :
    D.Denotes ρ' x v := h.congr fun a ha _ => hag a ha

/-- A name that is base or held denotes its own entry. -/
theorem Holds.denotes (h : D.Holds ρ A) (hx : D.base x ∨ A x) : D.Denotes ρ x (ρ x) := by
  rcases hx with hx | hx
  · exact .base hx
  · exact h x hx

theorem Holds.mono (h : D.Holds ρ A) (hsub : ∀ x, A' x → A x) : D.Holds ρ A' :=
  fun x hx => h x (hsub x hx)

/-- **Executing a pure definition** makes its name hold its denotation and disturbs no other. -/
theorem Holds.define [DecidableEq N] (h : D.Holds ρ A) (hx : ¬ D.base x)
    (hdeps : ∀ d, D.deps x d → D.base d ∨ A d) (heval : D.eval x ρ = some v) :
    D.Holds (Function.update ρ x v) (fun y => A y ∨ y = x) := by
  have hag : ∀ a, D.base a → ρ a = Function.update ρ x v a := by
    intro a ha
    rw [Function.update_of_ne]
    intro heq
    subst heq
    exact hx ha
  intro y hy
  by_cases hyx : y = x
  · subst hyx
    rw [Function.update_self]
    exact .pure ρ hx (fun d hd => (h.denotes (hdeps d hd)).of_base_eq hag) heval
  · rw [Function.update_of_ne hyx]
    exact (h y (hy.resolve_right hyx)).of_base_eq hag

/-- **Writing base names** that no held pure name depends on. -/
theorem Holds.write {S : N → Prop} (h : D.Holds ρ A) (hS : ∀ y, S y → D.base y)
    (hout : ∀ y, ¬ S y → ρ' y = ρ y)
    (hfree : ∀ x, A x → ¬ D.base x → ∀ a, S a → ¬ D.DependsOn x a) : D.Holds ρ' A := by
  intro x hx
  by_cases hb : D.base x
  · exact .base hb
  · rw [hout x fun hSx => hb (hS x hSx)]
    refine (h x hx).congr fun a _ hdep => (hout a fun hSa => ?_).symm
    exact hfree x hx hb a hSa hdep

/-- **Environments that agree on base names agree wherever both hold.** -/
theorem Holds.agree (h : D.Holds ρ A) (h' : D.Holds ρ' A') (hag : ∀ a, D.base a → ρ a = ρ' a)
    (hx : D.base x ∨ A x) (hx' : D.base x ∨ A' x) : ρ x = ρ' x :=
  ((h.denotes hx).of_base_eq hag).unique (h'.denotes hx')

/-- A pure name with a denotation evaluates to it wherever the names it reads hold. -/
theorem Holds.eval_eq (h : D.Holds ρ A) (hden : D.Denotes ρ x v) (hx : ¬ D.base x)
    (hdeps : ∀ d, D.deps x d → D.base d ∨ A d) : D.eval x ρ = some v := by
  cases hden with
  | base hb => exact absurd hb hx
  | pure vs _ hdeps' heval =>
    rw [← heval]
    exact D.eval_congr _ _ _ fun d hd => (h.denotes (hdeps d hd)).unique (hdeps' d hd)

/-! ### Running a list of pure definitions -/

section Run

variable [DecidableEq N] {l l' : List N}

/-- Execute pure definitions one after the other; `none` when one of them has no value. -/
def run (D : Dataflow N V) : List N → (N → V) → Option (N → V)
  | [], ρ => some ρ
  | x :: xs, ρ =>
      match D.eval x ρ with
      | some v => run D xs (Function.update ρ x v)
      | none => none

/-- Each member is pure and reads only base names, names of `A` and earlier members. -/
def Ordered (D : Dataflow N V) : (N → Prop) → List N → Prop
  | _, [] => True
  | A, x :: xs => ¬ D.base x ∧ (∀ d, D.deps x d → D.base d ∨ A d) ∧
      Ordered D (fun y => A y ∨ y = x) xs

omit [DecidableEq N] in
theorem ordered_of_split {D : Dataflow N V} {A : N → Prop}
    (h : ∀ l₁ x l₂, l = l₁ ++ x :: l₂ →
      ¬ D.base x ∧ ∀ d, D.deps x d → D.base d ∨ A d ∨ d ∈ l₁) : D.Ordered A l := by
  induction l generalizing A with
  | nil => trivial
  | cons x xs ih =>
    obtain ⟨hx, hdeps⟩ := h [] x xs rfl
    refine ⟨hx, fun d hd => by simpa using hdeps d hd, ih fun l₁ y l₂ heq => ?_⟩
    obtain ⟨hy, hdeps'⟩ := h (x :: l₁) y l₂ (by rw [heq, List.cons_append])
    refine ⟨hy, fun d hd => ?_⟩
    rcases hdeps' d hd with hb | hA | hmem
    · exact .inl hb
    · exact .inr (.inl (.inl hA))
    · rcases List.mem_cons.mp hmem with rfl | hmem
      · exact .inr (.inl (.inr rfl))
      · exact .inr (.inr hmem)

/-- What a run leaves behind: its members hold what they denoted at the start, nothing else moved. -/
theorem Holds.run (h : D.Holds ρ A) (hord : D.Ordered A l) (hrun : D.run l ρ = some ρ') :
    D.Holds ρ' (fun y => A y ∨ y ∈ l) ∧ (∀ y, y ∉ l → ρ' y = ρ y) ∧
      ∀ x ∈ l, D.Denotes ρ x (ρ' x) := by
  induction l generalizing ρ A with
  | nil =>
    obtain rfl := Option.some.inj hrun
    exact ⟨h.mono (by simp), fun _ _ => rfl, by simp⟩
  | cons x xs ih =>
    obtain ⟨hx, hdeps, hord⟩ := hord
    rw [Dataflow.run] at hrun
    cases heval : D.eval x ρ with
    | none => rw [heval] at hrun; cases hrun
    | some v =>
      rw [heval] at hrun
      obtain ⟨hholds, hout, hden⟩ := ih (h.define hx hdeps heval) hord hrun
      have hag : ∀ a, D.base a → Function.update ρ x v a = ρ a := by
        intro a ha
        rw [Function.update_of_ne]
        intro heq
        subst heq
        exact hx ha
      have hden' : ∀ y ∈ xs, D.Denotes ρ y (ρ' y) := fun y hy => (hden y hy).of_base_eq hag
      have hxden : D.Denotes ρ x (ρ' x) := by
        by_cases hmem : x ∈ xs
        · exact hden' x hmem
        · rw [hout x hmem, Function.update_self]
          exact .pure ρ hx (fun d hd => h.denotes (hdeps d hd)) heval
      refine ⟨hholds.mono ?_, ?_, ?_⟩
      · intro y hy
        rcases hy with hy | hy
        · exact .inl (.inl hy)
        · rcases List.mem_cons.mp hy with rfl | hy
          · exact .inl (.inr rfl)
          · exact .inr hy
      · intro y hy
        obtain ⟨hyx, hy⟩ := List.ne_and_not_mem_of_not_mem_cons hy
        rw [hout y hy, Function.update_of_ne hyx]
      · intro y hy
        rcases List.mem_cons.mp hy with rfl | hy
        · exact hxden
        · exact hden' y hy

/-- A run goes through when each member has a denotation or never fails. -/
theorem Holds.run_isSome (h : D.Holds ρ A) (hord : D.Ordered A l)
    (hval : ∀ x ∈ l, (∃ v, D.Denotes ρ x v) ∨ ∀ σ, (D.eval x σ).isSome) :
    ∃ ρ', D.run l ρ = some ρ' := by
  induction l generalizing ρ A with
  | nil => exact ⟨ρ, rfl⟩
  | cons x xs ih =>
    obtain ⟨hx, hdeps, hord⟩ := hord
    obtain ⟨v, heval⟩ : ∃ v, D.eval x ρ = some v := by
      rcases hval x List.mem_cons_self with ⟨v, hden⟩ | hsafe
      · exact ⟨v, h.eval_eq hden hx hdeps⟩
      · exact Option.isSome_iff_exists.mp (hsafe ρ)
    rw [Dataflow.run, heval]
    refine ih (h.define hx hdeps heval) hord fun y hy => ?_
    refine (hval y (List.mem_cons_of_mem _ hy)).imp_left fun ⟨w, hw⟩ => ⟨w, hw.of_base_eq ?_⟩
    intro a ha
    rw [Function.update_of_ne]
    intro heq
    subst heq
    exact hx ha

/-- **Dependence-respecting rearrangements commute**: two orders of the same definitions lead from
one environment to the same environment. -/
theorem Holds.run_perm (h : D.Holds ρ A) (hord : D.Ordered A l) (hord' : D.Ordered A l')
    (hmem : ∀ x, x ∈ l' ↔ x ∈ l) (hrun : D.run l ρ = some ρ') : D.run l' ρ = some ρ' := by
  obtain ⟨_, hout, hden⟩ := h.run hord hrun
  obtain ⟨σ, hσ⟩ := h.run_isSome hord' fun x hx => .inl ⟨_, hden x ((hmem x).mp hx)⟩
  obtain ⟨_, hout', hden'⟩ := h.run hord' hσ
  rw [hσ]
  congr 1
  funext x
  by_cases hx : x ∈ l
  · exact (hden' x ((hmem x).mpr hx)).unique (hden x hx)
  · rw [hout' x fun h => hx ((hmem x).mp h), hout x hx]

end Run

end Dataflow

end TraceScheduler
