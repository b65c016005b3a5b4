import Mathlib.Data.Set.Function
import Mathlib.Logic.Function.Basic

/-!
# Scripts

A script calls commands and reads and writes a store in between, until it returns a value or raises an
error.  A command answers in one of the ways that its effect allows, and leaves a patch: the values of
the keys it has written to.  What a script does not say is what its commands do; `Runs` has that as a
parameter.

A script is confined (`Confined`) if it writes to certain keys only, and if it can do the same again on
any store that agrees on what it looks at, with the same left in what it certainly writes.  The rules
for that follow the syntax.  Scripts that are confined to keys of their own can be run one after the
other, each with its errors caught, and each does what it does by itself (`runs_collect_iff`).
-/

namespace TraceScheduler

/-- Scripts over commands `C` with answers `A`, and a store of values `ν` under keys `κ`. -/
inductive Script (C A κ ν ε α : Type)
  | pure (a : α)
  | raise (e : ε)
  | call (c : C) (next : A → Script C A κ ν ε α)
  | fetch (k : κ) (next : ν → Script C A κ ν ε α)
  | put (k : κ) (v : ν) (next : Script C A κ ν ε α)

namespace Script

variable {C A κ ν ε α β : Type}

def bind : Script C A κ ν ε α → (α → Script C A κ ν ε β) → Script C A κ ν ε β
  | .pure a, f => f a
  | .raise e, _ => .raise e
  | .call c next, f => .call c fun a => (next a).bind f
  | .fetch k next, f => .fetch k fun v => (next v).bind f
  | .put k v next, f => .put k v (next.bind f)

instance : Monad (Script C A κ ν ε) where
  pure := .pure
  bind := .bind

/-- A script whose error is a result. -/
def attempt : Script C A κ ν ε α → Script C A κ ν ε (Except ε α)
  | .pure a => .pure (.ok a)
  | .raise e => .pure (.error e)
  | .call c next => .call c fun a => (next a).attempt
  | .fetch k next => .fetch k fun v => (next v).attempt
  | .put k v next => .put k v next.attempt

/-- A result, or its error raised. -/
def ofExcept : Except ε α → Script C A κ ν ε α
  | .ok a => .pure a
  | .error e => .raise e

def read (k : κ) : Script C A κ ν ε ν := .fetch k .pure

def write (k : κ) (v : ν) : Script C A κ ν ε Unit := .put k v (.pure ())

/-- The results of a script for each element of a list. -/
def collect {ι : Type} (f : ι → Script C A κ ν ε α) : List ι → Script C A κ ν ε (List α)
  | [] => .pure []
  | i :: is => do
      let a ← f i
      let as ← collect f is
      return a :: as

/-! ### Runs -/

/-- The store after a patch. -/
def overlay (p : κ → Option ν) (s : κ → ν) : κ → ν := fun k => (p k).getD (s k)

variable [DecidableEq κ]

section

variable (effect : C → (κ → ν) → A → (κ → Option ν) → Prop)

/-- A run of a script from a store, with its result and the store that it leaves. -/
inductive Runs : Script C A κ ν ε α → (κ → ν) → Except ε α → (κ → ν) → Prop
  | pure {a : α} {s : κ → ν} : Runs (.pure a) s (.ok a) s
  | raise {e : ε} {s : κ → ν} : Runs (.raise e) s (.error e) s
  | call {c : C} {next : A → Script C A κ ν ε α} {s s' : κ → ν} {a : A} {p : κ → Option ν}
      {r : Except ε α} : effect c s a p → Runs (next a) (overlay p s) r s' → Runs (.call c next) s r s'
  | fetch {k : κ} {next : ν → Script C A κ ν ε α} {s s' : κ → ν} {r : Except ε α} :
      Runs (next (s k)) s r s' → Runs (.fetch k next) s r s'
  | put {k : κ} {v : ν} {next : Script C A κ ν ε α} {s s' : κ → ν} {r : Except ε α} :
      Runs next (Function.update s k v) r s' → Runs (.put k v next) s r s'

end

variable {effect : C → (κ → ν) → A → (κ → Option ν) → Prop} {s s' t : κ → ν} {r : Except ε α}
  {x : Script C A κ ν ε α} {f : α → Script C A κ ν ε β}

theorem runs_bind {r : Except ε β} : Runs effect (x >>= f) s r s' ↔
    (∃ a t, Runs effect x s (.ok a) t ∧ Runs effect (f a) t r s') ∨
      ∃ e, r = .error e ∧ Runs effect x s (.error e) s' := by
  change Runs effect (x.bind f) s r s' ↔ _
  constructor
  · intro h
    induction x generalizing s with
    | pure a => exact .inl ⟨a, s, .pure, h⟩
    | raise e =>
      cases h with
      | raise => exact .inr ⟨e, rfl, .raise⟩
    | call c next ih =>
      cases h with
      | call heffect hrest =>
        rcases ih _ hrest with ⟨a, t, hx, hf⟩ | ⟨e, rfl, hx⟩
        · exact .inl ⟨a, t, .call heffect hx, hf⟩
        · exact .inr ⟨e, rfl, .call heffect hx⟩
    | fetch k next ih =>
      cases h with
      | fetch hrest =>
        rcases ih _ hrest with ⟨a, t, hx, hf⟩ | ⟨e, rfl, hx⟩
        · exact .inl ⟨a, t, .fetch hx, hf⟩
        · exact .inr ⟨e, rfl, .fetch hx⟩
    | put k v next ih =>
      cases h with
      | put hrest =>
        rcases ih hrest with ⟨a, t, hx, hf⟩ | ⟨e, rfl, hx⟩
        · exact .inl ⟨a, t, .put hx, hf⟩
        · exact .inr ⟨e, rfl, .put hx⟩
  · rintro (⟨a, t, hx, hf⟩ | ⟨e, rfl, hx⟩)
    · generalize hr : Except.ok a = r₀ at hx
      induction hx with
      | pure =>
        cases hr
        exact hf
      | raise => cases hr
      | call heffect _ ih => exact .call heffect (ih hf hr)
      | fetch _ ih => exact .fetch (ih hf hr)
      | put _ ih => exact .put (ih hf hr)
    · generalize hr : Except.error e = r₀ at hx
      induction hx with
      | pure => cases hr
      | raise =>
        cases hr
        exact .raise
      | call heffect _ ih => exact .call heffect (ih hr)
      | fetch _ ih => exact .fetch (ih hr)
      | put _ ih => exact .put (ih hr)

theorem runs_attempt {r : Except ε (Except ε α)} :
    Runs effect x.attempt s r s' ↔ ∃ r₀, r = .ok r₀ ∧ Runs effect x s r₀ s' := by
  constructor
  · intro h
    induction x generalizing s with
    | pure a =>
      cases h with
      | pure => exact ⟨_, rfl, .pure⟩
    | raise e =>
      cases h with
      | pure => exact ⟨_, rfl, .raise⟩
    | call c next ih =>
      cases h with
      | call heffect hrest =>
        obtain ⟨r₀, rfl, hx⟩ := ih _ hrest
        exact ⟨r₀, rfl, .call heffect hx⟩
    | fetch k next ih =>
      cases h with
      | fetch hrest =>
        obtain ⟨r₀, rfl, hx⟩ := ih _ hrest
        exact ⟨r₀, rfl, .fetch hx⟩
    | put k v next ih =>
      cases h with
      | put hrest =>
        obtain ⟨r₀, rfl, hx⟩ := ih hrest
        exact ⟨r₀, rfl, .put hx⟩
  · rintro ⟨r₀, rfl, hx⟩
    induction hx with
    | pure => exact .pure
    | raise => exact .pure
    | call heffect _ ih => exact .call heffect ih
    | fetch _ ih => exact .fetch ih
    | put _ ih => exact .put ih

/-! ### What a script looks at and writes -/

/-- A script that looks only at the keys of `reads`, writes only to those of `writes`, and has written to
those of `fresh` when it returns. -/
structure Confined (effect : C → (κ → ν) → A → (κ → Option ν) → Prop) (reads writes fresh : Set κ)
    (x : Script C A κ ν ε α) : Prop where
  frame : ∀ s r s', Runs effect x s r s' → ∀ k, k ∉ writes → s' k = s k
  replay : ∀ s r s', Runs effect x s r s' → ∀ t same, reads ⊆ same → Set.EqOn s t same →
    ∃ t', Runs effect x t r t' ∧ Set.EqOn s' t' same ∧ ∀ a, r = .ok a → Set.EqOn s' t' fresh

variable {R R' U U' W W' : Set κ}

theorem Confined.mono (h : Confined effect R U W x) (hreads : R ⊆ R') (hwrites : U ⊆ U')
    (hfresh : W' ⊆ W) : Confined effect R' U' W' x := by
  refine ⟨fun s r s' hrun k hk => h.frame s r s' hrun k fun hmem => hk (hwrites hmem), ?_⟩
  intro s r s' hrun t same hsame hst
  obtain ⟨t', hrun', hkept, hwritten⟩ := h.replay s r s' hrun t same (hreads.trans hsame) hst
  exact ⟨t', hrun', hkept, fun a ha => (hwritten a ha).mono hfresh⟩

theorem confined_ofExcept (hfresh : W ⊆ R) (r : Except ε α) :
    Confined effect R U W (ofExcept r : Script C A κ ν ε α) := by
  constructor
  · intro s r₀ s' hrun k _
    cases r with
    | ok a =>
      cases hrun with
      | pure => rfl
    | error e =>
      cases hrun with
      | raise => rfl
  · intro s r₀ s' hrun t same hsame hst
    cases r with
    | ok a =>
      cases hrun with
      | pure => exact ⟨t, .pure, hst, fun _ _ => hst.mono (hfresh.trans hsame)⟩
    | error e =>
      cases hrun with
      | raise => exact ⟨t, .raise, hst, fun _ ha => nomatch ha⟩

theorem confined_pure (hfresh : W ⊆ R) (a : α) :
    Confined effect R U W (Pure.pure a : Script C A κ ν ε α) := confined_ofExcept hfresh (.ok a)

theorem confined_raise (e : ε) : Confined effect R U W (.raise e : Script C A κ ν ε α) := by
  constructor
  · intro s r₀ s' hrun k _
    cases hrun with
    | raise => rfl
  · intro s r₀ s' hrun t same _ hst
    cases hrun with
    | raise => exact ⟨t, .raise, hst, fun _ ha => nomatch ha⟩

theorem confined_read {k : κ} (hk : k ∈ R) :
    Confined effect R U ∅ (read k : Script C A κ ν ε ν) := by
  constructor
  · intro s r s' hrun k' _
    cases hrun with
    | fetch hrest =>
      cases hrest with
      | pure => rfl
  · intro s r s' hrun t same hsame hst
    cases hrun with
    | fetch hrest =>
      cases hrest with
      | pure =>
        refine ⟨t, .fetch ?_, hst, fun _ _ => Set.eqOn_empty _ _⟩
        rw [hst (hsame hk)]
        exact .pure

theorem confined_write {k : κ} (hk : k ∈ U) (v : ν) :
    Confined effect R U {k} (write k v : Script C A κ ν ε Unit) := by
  constructor
  · intro s r s' hrun k' hk'
    cases hrun with
    | put hrest =>
      cases hrest with
      | pure =>
        apply Function.update_of_ne
        intro heq
        exact hk' (heq ▸ hk)
  · intro s r s' hrun t same hsame hst
    cases hrun with
    | put hrest =>
      cases hrest with
      | pure =>
        refine ⟨_, .put .pure, ?_, ?_⟩
        · intro k' hk'
          by_cases heq : k' = k
          · rw [heq, Function.update_self, Function.update_self]
          · rw [Function.update_of_ne heq, Function.update_of_ne heq, hst hk']
        · rintro _ _ k' rfl
          rw [Function.update_self, Function.update_self]

/-- A command that answers the same on what looks the same to it, and then writes the same. What it has
written, the rest of the script may look at. -/
theorem confined_call {c : C} {next : A → Script C A κ ν ε α}
    (hreads : ∀ s t a p, Set.EqOn s t R → effect c s a p → effect c t a p)
    (hwrites : ∀ s a p, effect c s a p → ∀ k, k ∉ U → p k = none)
    (hnext : ∀ s a p, effect c s a p →
      Confined effect (R ∪ {k | (p k).isSome}) U W (next a)) :
    Confined effect R U W (.call c next) := by
  constructor
  · intro s r s' hrun k hk
    cases hrun with
    | @call _ _ _ _ a p _ heffect hrest =>
      rw [(hnext s a p heffect).frame _ _ _ hrest k hk, overlay, hwrites s a p heffect k hk]
      rfl
  · intro s r s' hrun t same hsame hst
    cases hrun with
    | @call _ _ _ _ a p _ heffect hrest =>
      have hover : Set.EqOn (overlay p s) (overlay p t) (same ∪ {k | (p k).isSome}) := by
        rintro k (hk | hk)
        · rw [overlay, overlay, hst hk]
        · obtain ⟨v, hv⟩ := Option.isSome_iff_exists.mp hk
          rw [overlay, overlay, hv]
          rfl
      obtain ⟨t', hrest', hkept, hwritten⟩ := (hnext s a p heffect).replay _ _ _ hrest _ _
        (Set.union_subset_union_left _ hsame) hover
      exact ⟨t', .call (hreads s t a p (hst.mono hsame) heffect) hrest',
        hkept.mono Set.subset_union_left, hwritten⟩

theorem Confined.bind (h : Confined effect R U W x) (hf : ∀ a, Confined effect (R ∪ W) U W' (f a)) :
    Confined effect R U (W ∪ W') (x >>= f) := by
  constructor
  · intro s r s' hrun k hk
    rcases runs_bind.mp hrun with ⟨a, t, hx, hrest⟩ | ⟨e, rfl, hx⟩
    · rw [(hf a).frame _ _ _ hrest k hk, h.frame _ _ _ hx k hk]
    · exact h.frame _ _ _ hx k hk
  · intro s r s' hrun t same hsame hst
    rcases runs_bind.mp hrun with ⟨a, s₁, hx, hrest⟩ | ⟨e, rfl, hx⟩
    · obtain ⟨t₁, hx', hkept, hwritten⟩ := h.replay _ _ _ hx t same hsame hst
      have hsame' : R ∪ W ⊆ same ∪ W := Set.union_subset_union_left W hsame
      obtain ⟨t', hrest', hkept', hwritten'⟩ := (hf a).replay _ _ _ hrest t₁ (same ∪ W) hsame'
        (Set.eqOn_union.mpr ⟨hkept, hwritten a rfl⟩)
      obtain ⟨hkept', hfresh⟩ := Set.eqOn_union.mp hkept'
      exact ⟨t', runs_bind.mpr (.inl ⟨a, t₁, hx', hrest'⟩), hkept',
        fun b hb => Set.eqOn_union.mpr ⟨hfresh, hwritten' b hb⟩⟩
    · obtain ⟨t', hx', hkept, _⟩ := h.replay _ _ _ hx t same hsame hst
      exact ⟨t', runs_bind.mpr (.inr ⟨e, rfl, hx'⟩), hkept, fun _ hb => nomatch hb⟩

/-- The same, where only what the second script writes is asked for. -/
theorem Confined.andThen (h : Confined effect R U W x)
    (hf : ∀ a, Confined effect (R ∪ W) U W' (f a)) : Confined effect R U W' (x >>= f) :=
  (h.bind hf).mono subset_rfl subset_rfl Set.subset_union_right

/-- The same, where nothing is asked of what the first script writes. -/
theorem Confined.before (h : Confined effect R U ∅ x) (hf : ∀ a, Confined effect R U W (f a)) :
    Confined effect R U W (x >>= f) :=
  h.andThen fun a => (hf a).mono Set.subset_union_left subset_rfl subset_rfl

theorem Confined.attempt (h : Confined effect R U W x) : Confined effect R U ∅ x.attempt := by
  constructor
  · intro s r s' hrun k hk
    obtain ⟨r₀, rfl, hx⟩ := runs_attempt.mp hrun
    exact h.frame _ _ _ hx k hk
  · intro s r s' hrun t same hsame hst
    obtain ⟨r₀, rfl, hx⟩ := runs_attempt.mp hrun
    obtain ⟨t', hx', hkept, _⟩ := h.replay _ _ _ hx t same hsame hst
    exact ⟨t', runs_attempt.mpr ⟨r₀, rfl, hx'⟩, hkept, fun _ _ => Set.eqOn_empty _ _⟩

variable {ι : Type} {xs : ι → Script C A κ ν ε α} {is : List ι} {fresh : ι → Set κ}

theorem confined_collect (h : ∀ i ∈ is, Confined effect R U (fresh i) (xs i)) :
    Confined effect R U {k | ∃ i ∈ is, k ∈ fresh i} (collect xs is) := by
  induction is with
  | nil => exact confined_pure (fun k hk => by simp at hk) []
  | cons i is ih =>
    rw [List.forall_mem_cons] at h
    obtain ⟨hfirst, hrest⟩ := h
    have hbind := hfirst.bind fun a => ((ih hrest).mono Set.subset_union_left subset_rfl subset_rfl).bind
      fun as => confined_pure (Set.empty_subset _) (a :: as)
    refine hbind.mono subset_rfl subset_rfl ?_
    rintro k ⟨j, hj, hk⟩
    rcases List.mem_cons.mp hj with rfl | hj
    · exact .inl hk
    · exact .inr (.inl ⟨j, hj, hk⟩)

/-! ### Scripts with keys of their own -/

theorem runs_collect_nil {f : ι → Script C A κ ν ε α} {r : Except ε (List α)} :
    Runs effect (collect f []) s r s' ↔ r = .ok [] ∧ s' = s := by
  constructor
  · intro h
    cases h with
    | pure => exact ⟨rfl, rfl⟩
  · rintro ⟨rfl, rfl⟩
    exact .pure

/-- A loop that catches errors goes on to its end. -/
theorem runs_collect_cons {i : ι} {r : Except ε (List (Except ε α))} :
    Runs effect (collect (fun i => (xs i).attempt) (i :: is)) s r s' ↔
      ∃ o t os, r = .ok (o :: os) ∧ Runs effect (xs i) s o t ∧
        Runs effect (collect (fun i => (xs i).attempt) is) t (.ok os) s' := by
  have hok : ∀ {is : List ι} {s r s'}, Runs effect (collect (fun i => (xs i).attempt) is) s r s' →
      ∃ os, r = .ok os := by
    intro is
    induction is with
    | nil =>
      intro s r s' h
      exact ⟨[], (runs_collect_nil.mp h).1⟩
    | cons i is ih =>
      intro s r s' h
      rcases runs_bind.mp h with ⟨o, t, _, hrest⟩ | ⟨e, _, hfirst⟩
      · rcases runs_bind.mp hrest with ⟨os, t, _, hlast⟩ | ⟨e, _, hrest⟩
        · cases hlast
          exact ⟨_, rfl⟩
        · obtain ⟨os, hos⟩ := ih hrest
          cases hos
      · obtain ⟨o, ho, _⟩ := runs_attempt.mp hfirst
        cases ho
  constructor
  · intro h
    rcases runs_bind.mp h with ⟨o, t, hfirst, hrest⟩ | ⟨e, _, hfirst⟩
    · obtain ⟨o', ho, hfirst⟩ := runs_attempt.mp hfirst
      obtain rfl := Except.ok.inj ho
      rcases runs_bind.mp hrest with ⟨os, t', hrest, hlast⟩ | ⟨e, _, hrest⟩
      · cases hlast
        exact ⟨o, t, os, rfl, hfirst, hrest⟩
      · obtain ⟨os, hos⟩ := hok hrest
        cases hos
    · obtain ⟨o, ho, _⟩ := runs_attempt.mp hfirst
      cases ho
  · rintro ⟨o, t, os, rfl, hfirst, hrest⟩
    exact runs_bind.mpr (.inl ⟨o, t, runs_attempt.mpr ⟨o, rfl, hfirst⟩,
      runs_bind.mpr (.inl ⟨os, s', hrest, .pure⟩)⟩)

/-- **Scripts with keys of their own** can be run in a loop that catches errors: each does what it does by
itself, and leaves what it then leaves in its own keys. -/
theorem runs_collect_iff [Inhabited ε] {reads writes : ι → Set κ} (hnd : is.Nodup)
    (hconf : ∀ i ∈ is, Confined effect (reads i) (writes i) (fresh i) (xs i))
    (hwrites : ∀ i ∈ is, ∀ j ∈ is, ∀ k, k ∈ writes i → k ∈ writes j → i = j)
    (hreads : ∀ i ∈ is, ∀ j ∈ is, ∀ k, k ∈ reads i → k ∈ writes j → i = j)
    {r : Except ε (List (Except ε α))} :
    Runs effect (collect (fun i => (xs i).attempt) is) s r s' ↔
      ∃ outcome : ι → Except ε α, r = .ok (is.map outcome) ∧
        (∀ i ∈ is, ∃ t, Runs effect (xs i) s (outcome i) t ∧ Set.EqOn s' t (writes i)) ∧
        ∀ k, (∀ i ∈ is, k ∉ writes i) → s' k = s k := by
  classical
  induction is generalizing s r with
  | nil =>
    rw [runs_collect_nil]
    constructor
    · rintro ⟨rfl, rfl⟩
      exact ⟨fun _ => .error default, rfl, by simp, by simp⟩
    · rintro ⟨outcome, rfl, _, hkept⟩
      exact ⟨rfl, funext fun k => hkept k (by simp)⟩
  | cons i is ih =>
    obtain ⟨hi, hnd⟩ := List.nodup_cons.mp hnd
    rw [List.forall_mem_cons] at hconf
    have hne : ∀ j ∈ is, i ≠ j := fun j hj heq => hi (heq ▸ hj)
    have ih := fun s r => ih (s := s) (r := r) hnd hconf.2
      (fun j hj l hl => hwrites j (List.mem_cons_of_mem i hj) l (List.mem_cons_of_mem i hl))
      (fun j hj l hl => hreads j (List.mem_cons_of_mem i hj) l (List.mem_cons_of_mem i hl))
    -- the first script and the others do not meddle with each other
    have hother : ∀ j ∈ is, ∀ {s₁ s₂ : κ → ν} {o u}, Set.EqOn s₁ s₂ (writes i)ᶜ →
        Runs effect (xs j) s₁ o u → ∃ u', Runs effect (xs j) s₂ o u' ∧ Set.EqOn u u' (writes j) := by
      intro j hj s₁ s₂ o u hsame hrun
      have hj' := List.mem_cons_of_mem i hj
      have hlooks : reads j ⊆ (writes i)ᶜ := fun k hk hki =>
        hne j hj (hreads j hj' i List.mem_cons_self k hk hki).symm
      have howns : writes j ⊆ (writes i)ᶜ := fun k hk hki =>
        hne j hj (hwrites i List.mem_cons_self j hj' k hki hk)
      obtain ⟨u', hrun', hkept, _⟩ := (hconf.2 j hj).replay _ _ _ hrun s₂ _ hlooks hsame
      exact ⟨u', hrun', hkept.mono howns⟩
    have hfree : ∀ k ∈ writes i, ∀ j ∈ is, k ∉ writes j := fun k hk j hj hkj =>
      hne j hj (hwrites i List.mem_cons_self j (List.mem_cons_of_mem i hj) k hk hkj)
    rw [runs_collect_cons]
    constructor
    · rintro ⟨o, t, os, rfl, hfirst, hrest⟩
      obtain ⟨outcome, hos, halone, hkept⟩ := (ih t _).mp hrest
      obtain rfl := Except.ok.inj hos
      have hback : Set.EqOn t s (writes i)ᶜ := fun k hk => hconf.1.frame _ _ _ hfirst k hk
      have hsame : ∀ j ∈ is, Function.update outcome i o j = outcome j :=
        fun j hj => Function.update_of_ne (hne j hj).symm _ _
      refine ⟨Function.update outcome i o, ?_, ?_, ?_⟩
      · rw [List.map_cons, Function.update_self, List.map_congr_left hsame]
      · rw [List.forall_mem_cons, Function.update_self]
        refine ⟨⟨t, hfirst, fun k hk => hkept k (hfree k hk)⟩, fun j hj => ?_⟩
        obtain ⟨u, hrun, hleft⟩ := halone j hj
        obtain ⟨u', hrun', hleft'⟩ := hother j hj hback hrun
        rw [hsame j hj]
        exact ⟨u', hrun', hleft.trans hleft'⟩
      · intro k hk
        rw [List.forall_mem_cons] at hk
        rw [hkept k hk.2, hback hk.1]
    · rintro ⟨outcome, rfl, halone, hkept⟩
      obtain ⟨⟨t, hfirst, hleft⟩, halone⟩ := List.forall_mem_cons.mp halone
      have hthere : Set.EqOn s t (writes i)ᶜ := fun k hk => (hconf.1.frame _ _ _ hfirst k hk).symm
      refine ⟨outcome i, t, is.map outcome, rfl, hfirst, (ih t _).mpr ⟨outcome, rfl, ?_, ?_⟩⟩
      · intro j hj
        obtain ⟨u, hrun, hleft⟩ := halone j hj
        obtain ⟨u', hrun', hleft'⟩ := hother j hj hthere hrun
        exact ⟨u', hrun', hleft.trans hleft'⟩
      · intro k hk
        by_cases hki : k ∈ writes i
        · exact hleft hki
        · rw [← hthere hki]
          exact hkept k (List.forall_mem_cons.mpr ⟨hki, hk⟩)

/-! ### Evaluation -/

/-- The run of a script whose commands have one answer each. -/
def eval (answer : C → (κ → ν) → A × (κ → Option ν)) :
    Script C A κ ν ε α → (κ → ν) → Except ε α × (κ → ν)
  | .pure a, s => (.ok a, s)
  | .raise e, s => (.error e, s)
  | .call c next, s => (next (answer c s).1).eval answer (overlay (answer c s).2 s)
  | .fetch k next, s => (next (s k)).eval answer s
  | .put k v next, s => next.eval answer (Function.update s k v)

theorem runs_eval (answer : C → (κ → ν) → A × (κ → Option ν)) (x : Script C A κ ν ε α) (s : κ → ν) :
    Runs (fun c s a p => answer c s = (a, p)) x s (x.eval answer s).1 (x.eval answer s).2 := by
  induction x generalizing s with
  | pure a => exact .pure
  | raise e => exact .raise
  | call c next ih => exact .call rfl (ih _ _)
  | fetch k next ih => exact .fetch (ih _ _)
  | put k v next ih => exact .put (ih _)

end Script

end TraceScheduler
