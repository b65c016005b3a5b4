import Mathlib.Tactic.Common

/-!
# Rounds until nothing is reported

`untilQuiet visit items` visits the items in turn and starts over until a whole round reports no
change.  A visit may change the state without reporting it, as an iteration does that stores what it
computes on the way and compares only the result.  If every report raises a measure that an invariant
bounds, the rounds end (`untilQuiet_isSome`); and what a silent visit establishes and the other silent
visits keep holds of every item in the end (`untilQuiet_quiet`).
-/

namespace TraceScheduler

section

variable {ι σ : Type*} (visit : ι → σ → σ × Bool)

/-- Visit one item; the flag says whether a change has been reported in this round. -/
def visitNext (acc : σ × Bool) (i : ι) : σ × Bool :=
  let r := visit i acc.1
  (r.1, acc.2 || r.2)

/-- Rounds over `items` until one reports nothing, `none` when the fuel runs out. -/
def untilQuiet (items : List ι) : ℕ → σ → Option σ
  | 0, _ => none
  | fuel + 1, s =>
      let (s', changed) := items.foldl (visitNext visit) (s, false)
      if changed then untilQuiet items fuel s' else some s'

variable {visit} {items : List ι} {I : σ → Prop} {μ : σ → ℕ} {M : ℕ}

/-- A visit keeps the invariant, never lowers the measure, and raises it if it reports a change. -/
def VisitRaises (visit : ι → σ → σ × Bool) (items : List ι) (I : σ → Prop) (μ : σ → ℕ) : Prop :=
  ∀ i ∈ items, ∀ s, I s → I (visit i s).1 ∧ μ s ≤ μ (visit i s).1 ∧
    ((visit i s).2 = true → μ s < μ (visit i s).1)

theorem VisitRaises.tail {i : ι} (h : VisitRaises visit (i :: items) I μ) :
    VisitRaises visit items I μ :=
  fun j hj => h j (List.mem_cons_of_mem i hj)

theorem VisitRaises.round (h : VisitRaises visit items I μ) {s : σ} (changed : Bool) (hs : I s) :
    I (items.foldl (visitNext visit) (s, changed)).1 ∧
      μ s ≤ μ (items.foldl (visitNext visit) (s, changed)).1 ∧
      (changed = false → (items.foldl (visitNext visit) (s, changed)).2 = true →
        μ s < μ (items.foldl (visitNext visit) (s, changed)).1) := by
  induction items generalizing s changed with
  | nil =>
    refine ⟨hs, Nat.le_refl _, fun hc hr => ?_⟩
    rw [List.foldl_nil, hc] at hr
    cases hr
  | cons i is ih =>
    obtain ⟨hI, hle, hlt⟩ := h i List.mem_cons_self s hs
    obtain ⟨hI', hle', hlt'⟩ := ih h.tail (changed || (visit i s).2) hI
    rw [List.foldl_cons]
    refine ⟨hI', Nat.le_trans hle hle', fun hc hr => ?_⟩
    cases hreport : (visit i s).2 with
    | true => exact Nat.lt_of_lt_of_le (hlt hreport) hle'
    | false => exact Nat.lt_of_le_of_lt hle (hlt' (by rw [hc, hreport]; rfl) hr)

theorem untilQuiet_isSome (h : VisitRaises visit items I μ) (hbound : ∀ s, I s → μ s ≤ M)
    {fuel : ℕ} {s : σ} (hs : I s) (hfuel : M < fuel + μ s) :
    (untilQuiet visit items fuel s).isSome := by
  induction fuel generalizing s with
  | zero =>
    have := hbound s hs
    omega
  | succ fuel ih =>
    obtain ⟨hI, _, hlt⟩ := h.round false hs
    rw [untilQuiet]
    cases hr : items.foldl (visitNext visit) (s, false) with
    | mk s' changed =>
      rw [hr] at hI hlt
      cases changed with
      | false => rfl
      | true =>
        have hlt' : μ s < μ s' := hlt rfl rfl
        exact ih hI (by omega)

theorem untilQuiet_invariant (h : VisitRaises visit items I μ) {fuel : ℕ} {s r : σ} (hs : I s)
    (hrun : untilQuiet visit items fuel s = some r) : I r := by
  induction fuel generalizing s with
  | zero => cases hrun
  | succ fuel ih =>
    obtain ⟨hI, _, _⟩ := h.round false hs
    rw [untilQuiet] at hrun
    cases hr : items.foldl (visitNext visit) (s, false) with
    | mk s' changed =>
      rw [hr] at hrun hI
      cases changed with
      | false =>
        obtain rfl := Option.some.inj hrun
        exact hI
      | true => exact ih hI hrun

/-! ### The last round -/

variable {Q : ι → σ → Prop}

/-- A silent visit to `i` makes `Q i` true, and no silent visit makes any `Q j` false. -/
structure Settles (visit : ι → σ → σ × Bool) (items : List ι) (I : σ → Prop) (Q : ι → σ → Prop) :
    Prop where
  makes : ∀ i ∈ items, ∀ s, I s → (visit i s).2 = false → Q i (visit i s).1
  keeps : ∀ i ∈ items, ∀ j s, I s → (visit i s).2 = false → Q j s → Q j (visit i s).1

theorem Settles.round (h : Settles visit items I Q)
    (hI : ∀ i ∈ items, ∀ s, I s → I (visit i s).1) {s : σ} (changed : Bool) (hs : I s)
    (hquiet : (items.foldl (visitNext visit) (s, changed)).2 = false) :
    changed = false ∧
      (∀ j, Q j s → Q j (items.foldl (visitNext visit) (s, changed)).1) ∧
      ∀ i ∈ items, Q i (items.foldl (visitNext visit) (s, changed)).1 := by
  induction items generalizing s changed with
  | nil => exact ⟨hquiet, fun _ hj => hj, fun _ hi => by cases hi⟩
  | cons i is ih =>
    have hmem : ∀ {j}, j ∈ is → j ∈ i :: is := List.mem_cons_of_mem i
    rw [List.foldl_cons] at hquiet ⊢
    obtain ⟨hnow, hkept, hall⟩ := ih ⟨fun j hj => h.makes j (hmem hj), fun j hj => h.keeps j (hmem hj)⟩
      (fun j hj => hI j (hmem hj)) (changed || (visit i s).2) (hI i List.mem_cons_self s hs) hquiet
    rw [Bool.or_eq_false_iff] at hnow
    refine ⟨hnow.1, fun j hj => ?_, fun j hj => ?_⟩
    · exact hkept j (h.keeps i List.mem_cons_self j s hs hnow.2 hj)
    · rcases List.mem_cons.mp hj with rfl | hj
      · exact hkept j (h.makes j List.mem_cons_self s hs hnow.2)
      · exact hall j hj

/-- **What the last round leaves behind.** -/
theorem untilQuiet_quiet (h : Settles visit items I Q)
    (hI : ∀ i ∈ items, ∀ s, I s → I (visit i s).1) {fuel : ℕ} {s r : σ} (hs : I s)
    (hrun : untilQuiet visit items fuel s = some r) : ∀ i ∈ items, Q i r := by
  have hround : ∀ (l : List ι) (s : σ) (changed : Bool), (∀ i ∈ l, i ∈ items) → I s →
      I (l.foldl (visitNext visit) (s, changed)).1 := by
    intro l
    induction l with
    | nil => exact fun _ _ _ hs => hs
    | cons i l ih =>
      intro s changed hl hs
      exact ih _ _ (fun j hj => hl j (List.mem_cons_of_mem _ hj)) (hI i (hl i List.mem_cons_self) s hs)
  induction fuel generalizing s with
  | zero => cases hrun
  | succ fuel ih =>
    have hnext := hround items s false (fun _ hi => hi) hs
    rw [untilQuiet] at hrun
    cases hr : items.foldl (visitNext visit) (s, false) with
    | mk s' changed =>
      rw [hr] at hrun hnext
      cases changed with
      | false =>
        obtain rfl := Option.some.inj hrun
        obtain ⟨_, _, hall⟩ := h.round hI false hs (by rw [hr])
        rw [hr] at hall
        exact hall
      | true => exact ih hnext hrun

end

end TraceScheduler
