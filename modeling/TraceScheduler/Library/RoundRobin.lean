import Mathlib.Tactic.Common

/-!
# Round-robin iteration to a fixed point

`untilStable update items` visits the items in turn, applies `update` wherever it has something to
change, and starts over until a whole round changes nothing.  If every change raises a measure that
an invariant bounds, the iteration ends (`untilStable_isSome`), and what it ends in is stable under
every item (`untilStable_stable`) and still satisfies the invariant (`untilStable_invariant`).
-/

namespace TraceScheduler

section

variable {ι σ : Type*} (update : ι → σ → Option σ)

/-- Visit one item: the new state, and whether anything has changed so far in this round. -/
def visitItem (acc : σ × Bool) (i : ι) : σ × Bool :=
  match update i acc.1 with
  | some s => (s, true)
  | none => acc

/-- Rounds over `items` until one changes nothing, `none` when the fuel runs out. -/
def untilStable (items : List ι) : ℕ → σ → Option σ
  | 0, _ => none
  | fuel + 1, s =>
      let (s', changed) := items.foldl (visitItem update) (s, false)
      if changed then untilStable items fuel s' else some s'

variable {update} {items : List ι} {I : σ → Prop} {μ : σ → ℕ} {M : ℕ}

/-- A round keeps the invariant, never lowers the measure, and raises it if it changes anything. -/
theorem foldl_visitItem_spec (hstep : ∀ i ∈ items, ∀ s s', I s → update i s = some s' →
      I s' ∧ μ s < μ s') {s : σ} {changed : Bool} (hs : I s) :
    let r := items.foldl (visitItem update) (s, changed)
    I r.1 ∧ μ s ≤ μ r.1 ∧ (changed = false → r.2 = true → μ s < μ r.1) := by
  induction items generalizing s changed with
  | nil =>
    refine ⟨hs, Nat.le_refl _, fun hc hr => ?_⟩
    rw [List.foldl_nil, hc] at hr
    cases hr
  | cons i is ih =>
    have hstep' := fun j hj => hstep j (List.mem_cons_of_mem i hj)
    rw [List.foldl_cons, visitItem]
    cases hu : update i s with
    | none => exact ih hstep' hs
    | some s' =>
      obtain ⟨hI, hlt⟩ := hstep i List.mem_cons_self s s' hs hu
      obtain ⟨hI', hle, _⟩ := ih hstep' hI
      exact ⟨hI', Nat.le_trans (Nat.le_of_lt hlt) hle, fun _ _ => Nat.lt_of_lt_of_le hlt hle⟩

/-- A round that changes nothing ends where it began. -/
theorem foldl_visitItem_unchanged {s : σ} {changed : Bool}
    (h : (items.foldl (visitItem update) (s, changed)).2 = false) :
    changed = false ∧ (items.foldl (visitItem update) (s, changed)).1 = s ∧
      ∀ i ∈ items, update i s = none := by
  induction items generalizing s changed with
  | nil => exact ⟨h, rfl, by simp⟩
  | cons i is ih =>
    rw [List.foldl_cons, visitItem] at h ⊢
    cases hu : update i s with
    | none =>
      rw [hu] at h
      obtain ⟨hc, heq, hstable⟩ := ih h
      exact ⟨hc, heq, List.forall_mem_cons.mpr ⟨hu, hstable⟩⟩
    | some s' =>
      rw [hu] at h
      cases (ih h).1

theorem untilStable_isSome (hbound : ∀ s, I s → μ s ≤ M)
    (hstep : ∀ i ∈ items, ∀ s s', I s → update i s = some s' → I s' ∧ μ s < μ s') {fuel : ℕ} {s : σ}
    (hs : I s) (hfuel : M < fuel + μ s) : (untilStable update items fuel s).isSome := by
  induction fuel generalizing s with
  | zero =>
    have := hbound s hs
    omega
  | succ fuel ih =>
    obtain ⟨hI, _, hlt⟩ := foldl_visitItem_spec hstep hs
    rw [untilStable]
    cases hr : items.foldl (visitItem update) (s, false) with
    | mk s' changed =>
      rw [hr] at hI hlt
      cases changed with
      | false => rfl
      | true =>
        have hlt' : μ s < μ s' := hlt rfl rfl
        exact ih hI (by omega)

theorem untilStable_invariant (hstep : ∀ i ∈ items, ∀ s s', I s → update i s = some s' → I s')
    {fuel : ℕ} {s r : σ} (hs : I s) (h : untilStable update items fuel s = some r) : I r := by
  have hround : ∀ (l : List ι), (∀ i ∈ l, i ∈ items) → ∀ (s : σ) (changed : Bool), I s →
      I (l.foldl (visitItem update) (s, changed)).1 := by
    intro l hl
    induction l with
    | nil => exact fun _ _ hs => hs
    | cons i is ih =>
      intro s changed hs
      rw [List.foldl_cons, visitItem]
      cases hu : update i s with
      | none => exact ih (fun j hj => hl j (List.mem_cons_of_mem _ hj)) _ _ hs
      | some s' =>
        exact ih (fun j hj => hl j (List.mem_cons_of_mem _ hj)) _ _
          (hstep i (hl i List.mem_cons_self) s s' hs hu)
  induction fuel generalizing s with
  | zero => cases h
  | succ fuel ih =>
    rw [untilStable] at h
    have hI := hround items (fun _ hi => hi) s false hs
    cases hr : items.foldl (visitItem update) (s, false) with
    | mk s' changed =>
      rw [hr] at h hI
      cases changed with
      | false =>
        obtain rfl := Option.some.inj h
        exact hI
      | true => exact ih hI h

theorem untilStable_stable {fuel : ℕ} {s r : σ} (h : untilStable update items fuel s = some r) :
    ∀ i ∈ items, update i r = none := by
  induction fuel generalizing s with
  | zero => cases h
  | succ fuel ih =>
    rw [untilStable] at h
    cases hr : items.foldl (visitItem update) (s, false) with
    | mk s' changed =>
      rw [hr] at h
      cases changed with
      | false =>
        obtain rfl := Option.some.inj h
        obtain ⟨_, heq, hstable⟩ := foldl_visitItem_unchanged (by rw [hr])
        rw [hr] at heq
        obtain rfl : s' = s := heq
        exact hstable
      | true => exact ih h

end

end TraceScheduler
