import Mathlib.Logic.Function.Basic
import Mathlib.Tactic.Common

/-!
# Tasks that share a store

Tasks take their steps on one store, in any order.  Each of them owns some of the keys: only the owner
writes to such a key, and the other tasks do not look at it.  Then a task gets on with its work as it
does by itself (`Interleaved.alone`), and what the tasks can leave in some order of their steps, they
can leave when each starts only after the one before has stopped, and the other way round
(`interleaved_iff_inTurn`).
-/

namespace TraceScheduler

variable {ι Local κ ν : Type*}

section

variable (step : ι → Local → (κ → ν) → Local → (κ → ν) → Prop)

/-- Some steps of one task. -/
inductive Alone (i : ι) (l : Local) (s : κ → ν) : Local → (κ → ν) → Prop
  | refl : Alone i l s l s
  | tail {l₁ l₂ : Local} {s₁ s₂ : κ → ν} : Alone i l s l₁ s₁ → step i l₁ s₁ l₂ s₂ → Alone i l s l₂ s₂

variable [DecidableEq ι]

/-- Some steps of the tasks, in any order. -/
inductive Interleaved (tasks : List ι) (ls : ι → Local) (s : κ → ν) : (ι → Local) → (κ → ν) → Prop
  | refl : Interleaved tasks ls s ls s
  | tail {ls₁ : ι → Local} {s₁ s₂ : κ → ν} {i : ι} {l : Local} : Interleaved tasks ls s ls₁ s₁ →
      i ∈ tasks → step i (ls₁ i) s₁ l s₂ → Interleaved tasks ls s (Function.update ls₁ i l) s₂

/-- Some steps of each task, one task after the other. -/
inductive InTurn : List ι → (ι → Local) → (κ → ν) → (ι → Local) → (κ → ν) → Prop
  | nil (ls : ι → Local) (s : κ → ν) : InTurn [] ls s ls s
  | cons {i : ι} {is : List ι} {ls ls' : ι → Local} {s s₁ s' : κ → ν} {l : Local} :
      Alone step i (ls i) s l s₁ → InTurn is (Function.update ls i l) s₁ ls' s' →
      InTurn (i :: is) ls s ls' s'

end

section

variable (tasks : List ι) (owns : ι → κ → Prop)

/-- A task may look at the keys that no other task owns. -/
def Visible (i : ι) (k : κ) : Prop := ∀ j ∈ tasks, owns j k → j = i

/-- Two stores that look the same to a task. -/
def LooksSame (i : ι) (s t : κ → ν) : Prop := ∀ k, Visible tasks owns i k → t k = s k

/-- What a task writes, it owns, and what another task owns, it does not look at. -/
structure Separate (step : ι → Local → (κ → ν) → Local → (κ → ν) → Prop) : Prop where
  disjoint : ∀ i ∈ tasks, ∀ j ∈ tasks, ∀ k, owns i k → owns j k → i = j
  writes : ∀ i ∈ tasks, ∀ l s l' s', step i l s l' s' → ∀ k, ¬ owns i k → s' k = s k
  reads : ∀ i ∈ tasks, ∀ l s l' s', step i l s l' s' → ∀ t, LooksSame tasks owns i s t →
    ∃ t', step i l t l' t' ∧ LooksSame tasks owns i s' t'

end

variable {step : ι → Local → (κ → ν) → Local → (κ → ν) → Prop} {tasks : List ι}
  {owns : ι → κ → Prop} {ls ls' : ι → Local} {l l' : Local} {s s₁ s' t : κ → ν} {i j : ι} {k : κ}

theorem LooksSame.symm (h : LooksSame tasks owns i s t) : LooksSame tasks owns i t s :=
  fun k hk => (h k hk).symm

theorem LooksSame.trans (h : LooksSame tasks owns i s s₁) (h' : LooksSame tasks owns i s₁ t) :
    LooksSame tasks owns i s t := fun k hk => (h' k hk).trans (h k hk)

/-! ### One task -/

theorem Separate.visible_of_owns (hsep : Separate tasks owns step) (hi : i ∈ tasks) (hk : owns i k) :
    Visible tasks owns i k := fun j hj hjk => hsep.disjoint j hj i hi k hjk hk

theorem Separate.alone_writes (hsep : Separate tasks owns step) (hi : i ∈ tasks)
    (h : Alone step i l s l' s') (hk : ¬ owns i k) : s' k = s k := by
  induction h with
  | refl => rfl
  | tail _ hstep ih => rw [hsep.writes i hi _ _ _ _ hstep k hk, ih]

/-- What a task does by itself it does on any store that looks the same to it. -/
theorem Separate.alone_reads (hsep : Separate tasks owns step) (hi : i ∈ tasks)
    (h : Alone step i l s l' s') (hst : LooksSame tasks owns i s t) :
    ∃ t', Alone step i l t l' t' ∧ LooksSame tasks owns i s' t' := by
  induction h with
  | refl => exact ⟨t, .refl, hst⟩
  | tail _ hstep ih =>
    obtain ⟨t₁, halone, hsame⟩ := ih
    obtain ⟨t₂, hstep', hsame'⟩ := hsep.reads i hi _ _ _ _ hstep t₁ hsame
    exact ⟨t₂, halone.tail hstep', hsame'⟩

/-- The steps of another task leave what a task looks at as it was. -/
theorem Separate.looksSame_of_alone (hsep : Separate tasks owns step) (hi : i ∈ tasks) (hne : j ≠ i)
    (h : Alone step i l s l' s') : LooksSame tasks owns j s s' := by
  intro k hk
  apply hsep.alone_writes hi h
  intro howns
  exact hne (hk i hi howns).symm

/-! ### All tasks -/

variable [DecidableEq ι]

/-- **Every task gets on as it does by itself**, with the same in the keys it owns. -/
theorem Interleaved.alone (h : Interleaved step tasks ls s ls' s') (hsep : Separate tasks owns step)
    (hi : i ∈ tasks) : ∃ t, Alone step i (ls i) s (ls' i) t ∧ LooksSame tasks owns i s' t := by
  induction h with
  | refl => exact ⟨s, .refl, fun k _ => rfl⟩
  | @tail ls₁ s₁ s₂ j l _ hj hstep ih =>
    obtain ⟨t₁, halone, hsame⟩ := ih
    by_cases hji : j = i
    · subst hji
      obtain ⟨t₂, hstep', hsame'⟩ := hsep.reads j hj _ _ _ _ hstep t₁ hsame
      rw [Function.update_self]
      exact ⟨t₂, halone.tail hstep', hsame'⟩
    · rw [Function.update_of_ne (Ne.symm hji)]
      have hone : Alone step j (ls₁ j) s₁ l s₂ := Alone.refl.tail hstep
      exact ⟨t₁, halone, (hsep.looksSame_of_alone hj (Ne.symm hji) hone).symm.trans hsame⟩

theorem Interleaved.writes (h : Interleaved step tasks ls s ls' s') (hsep : Separate tasks owns step)
    (hk : ∀ i ∈ tasks, ¬ owns i k) : s' k = s k := by
  induction h with
  | refl => rfl
  | tail _ hi hstep ih => rw [hsep.writes _ hi _ _ _ _ hstep k (hk _ hi), ih]

theorem Interleaved.local_eq (h : Interleaved step tasks ls s ls' s') (hi : i ∉ tasks) :
    ls' i = ls i := by
  induction h with
  | refl => rfl
  | @tail _ _ _ j _ _ hj _ ih =>
    have hne : i ≠ j := fun heq => hi (heq ▸ hj)
    rw [Function.update_of_ne hne, ih]

/-- Tasks that get on by themselves do so in turn. -/
theorem Separate.inTurn (hsep : Separate tasks owns step) {order : List ι} {u : ι → κ → ν}
    (horder : ∀ i ∈ order, i ∈ tasks) (hnd : order.Nodup)
    (halone : ∀ i ∈ order, Alone step i (ls i) s (ls' i) (u i))
    (hsame : ∀ i ∈ order, LooksSame tasks owns i s t) :
    ∃ ls'' t', InTurn step order ls t ls'' t' ∧ (∀ i ∈ order, ls'' i = ls' i) ∧
      (∀ i, i ∉ order → ls'' i = ls i) ∧ (∀ i ∈ order, ∀ k, owns i k → t' k = u i k) ∧
      ∀ k, (∀ i ∈ order, ¬ owns i k) → t' k = t k := by
  induction order generalizing ls t with
  | nil => exact ⟨ls, t, .nil ls t, by simp, by simp, by simp, by simp⟩
  | cons i is ih =>
    obtain ⟨hi, his⟩ := List.forall_mem_cons.mp horder
    obtain ⟨hfirst, hrest⟩ := List.forall_mem_cons.mp halone
    obtain ⟨hmem, hnd⟩ := List.nodup_cons.mp hnd
    have hne : ∀ j ∈ is, j ≠ i := fun j hj heq => hmem (heq ▸ hj)
    obtain ⟨t₁, hfirst, hsame₁⟩ := hsep.alone_reads hi hfirst (hsame i List.mem_cons_self)
    -- the others still see what they have seen before
    have hrest' : ∀ j ∈ is, Alone step j (Function.update ls i (ls' i) j) s (ls' j) (u j) := by
      intro j hj
      rw [Function.update_of_ne (hne j hj)]
      exact hrest j hj
    have hsame' : ∀ j ∈ is, LooksSame tasks owns j s t₁ := fun j hj =>
      (hsame j (List.mem_cons_of_mem i hj)).trans (hsep.looksSame_of_alone hi (hne j hj) hfirst)
    obtain ⟨ls'', t', hturn, hlocal, hother, howned, hkept⟩ := ih his hnd hrest' hsame'
    refine ⟨ls'', t', .cons hfirst hturn, ?_, ?_, ?_, ?_⟩
    · rw [List.forall_mem_cons]
      refine ⟨?_, hlocal⟩
      rw [hother i hmem, Function.update_self]
    · intro j hj
      obtain ⟨hji, hj⟩ := List.ne_and_not_mem_of_not_mem_cons hj
      rw [hother j hj, Function.update_of_ne hji]
    · rw [List.forall_mem_cons]
      refine ⟨?_, howned⟩
      intro k hk
      have hfree : ∀ j ∈ is, ¬ owns j k := fun j hj hjk =>
        hne j hj (hsep.disjoint j (his j hj) i hi k hjk hk)
      rw [hkept k hfree]
      exact hsame₁ k (hsep.visible_of_owns hi hk)
    · intro k hk
      rw [List.forall_mem_cons] at hk
      rw [hkept k hk.2, hsep.alone_writes hi hfirst hk.1]

theorem Interleaved.trans {ls'' : ι → Local} {s'' : κ → ν} (h : Interleaved step tasks ls s ls' s')
    (h' : Interleaved step tasks ls' s' ls'' s'') : Interleaved step tasks ls s ls'' s'' := by
  induction h' with
  | refl => exact h
  | tail _ hi hstep ih => exact ih.tail hi hstep

theorem Alone.interleaved (h : Alone step i (ls i) s l' s') (hi : i ∈ tasks) :
    Interleaved step tasks ls s (Function.update ls i l') s' := by
  generalize hl : ls i = l at h
  induction h with
  | refl =>
    rw [← hl, Function.update_eq_self]
    exact .refl
  | @tail l₁ l₂ s₁ s₂ _ hstep ih =>
    have hstep' : step i (Function.update ls i l₁ i) s₁ l₂ s₂ := by
      rw [Function.update_self]
      exact hstep
    have hnext := ih.tail hi hstep'
    rwa [Function.update_idem] at hnext

/-- A task goes on by itself. -/
theorem Interleaved.andAlone {l : Local} {s'' : κ → ν} (h : Interleaved step tasks ls s ls' s')
    (hi : i ∈ tasks) (hl : ls' i = l) (halone : Alone step i l s' l' s'') :
    Interleaved step tasks ls s (Function.update ls' i l') s'' := by
  subst hl
  exact h.trans (halone.interleaved hi)

theorem InTurn.interleaved {order : List ι} (h : InTurn step order ls s ls' s')
    (horder : ∀ i ∈ order, i ∈ tasks) : Interleaved step tasks ls s ls' s' := by
  induction h with
  | nil ls s => exact .refl
  | cons halone _ ih =>
    rw [List.forall_mem_cons] at horder
    exact (halone.interleaved horder.1).trans (ih horder.2)

/-- What each task does by itself, and what becomes of the rest. -/
theorem Interleaved.each (h : Interleaved step tasks ls s ls' s') (hsep : Separate tasks owns step) :
    (∀ i ∈ tasks, ∃ t, Alone step i (ls i) s (ls' i) t ∧ ∀ k, owns i k → s' k = t k) ∧
      (∀ i, i ∉ tasks → ls' i = ls i) ∧ ∀ k, (∀ i ∈ tasks, ¬ owns i k) → s' k = s k := by
  refine ⟨fun i hi => ?_, fun i hi => h.local_eq hi, fun k hk => h.writes hsep hk⟩
  obtain ⟨t, halone, hsame⟩ := h.alone hsep hi
  exact ⟨t, halone, fun k hk => (hsame k (hsep.visible_of_owns hi hk)).symm⟩

/-- **One task after the other**: each does what it does by itself, and leaves what it then leaves in the
keys it owns. -/
theorem inTurn_iff (hsep : Separate tasks owns step) (hnd : tasks.Nodup) :
    InTurn step tasks ls s ls' s' ↔
      (∀ i ∈ tasks, ∃ t, Alone step i (ls i) s (ls' i) t ∧ ∀ k, owns i k → s' k = t k) ∧
        (∀ i, i ∉ tasks → ls' i = ls i) ∧ ∀ k, (∀ i ∈ tasks, ¬ owns i k) → s' k = s k := by
  constructor
  · intro h
    have hpool := h.interleaved fun i hi => hi
    exact hpool.each hsep
  · rintro ⟨halone, hlocal, hkept⟩
    have hstores : Nonempty (κ → ν) := ⟨s⟩
    choose! u halone howned using halone
    obtain ⟨ls'', t', hturn, hlocal', hother', howned', hkept'⟩ :=
      hsep.inTurn (fun i hi => hi) hnd halone fun i _ k _ => rfl
    obtain rfl : ls'' = ls' := by
      funext i
      by_cases hi : i ∈ tasks
      · exact hlocal' i hi
      · rw [hother' i hi, hlocal i hi]
    obtain rfl : t' = s' := by
      funext k
      by_cases hk : ∃ i ∈ tasks, owns i k
      · obtain ⟨i, hi, hk⟩ := hk
        rw [howned' i hi k hk, howned i hi k hk]
      · push Not at hk
        rw [hkept' k hk, hkept k hk]
    exact hturn

/-- **Any order of the steps, or one task after the other**: the tasks can leave the same. -/
theorem interleaved_iff_inTurn (hsep : Separate tasks owns step) (hnd : tasks.Nodup) :
    Interleaved step tasks ls s ls' s' ↔ InTurn step tasks ls s ls' s' := by
  constructor
  · intro h
    exact (inTurn_iff hsep hnd).mpr (h.each hsep)
  · intro h
    exact h.interleaved fun i hi => hi

end TraceScheduler
