import TraceScheduler.Library.PairOrder
import Mathlib.Data.List.Sort

/-!
# Selecting a maximum with a sorted list

`scanMax key p l` goes through `l` and keeps the first element with the greatest positive key among
those that satisfy `p`.  Sorted by falling key, with ties in their original order, the list answers
every such question at once: the element selected is the first one that satisfies `p`, if its key is
positive (`scanMax_eq`).
-/

namespace TraceScheduler

open scoped List

variable {α : Type*} {key : α → ℕ} {p : α → Bool} {l l₁ l₂ : List α} {b : α} {acc : Option α × ℕ}
  {m : ℕ}

/-- Keep an element whose key exceeds the best so far. -/
def keepMax (key : α → ℕ) (p : α → Bool) (acc : Option α × ℕ) (x : α) : Option α × ℕ :=
  if p x then (if key x > acc.2 then (some x, key x) else acc) else acc

/-- The first element of greatest positive key among those that satisfy `p`. -/
def scanMax (key : α → ℕ) (p : α → Bool) (l : List α) : Option α :=
  (l.foldl (keepMax key p) (none, 0)).1

/-- Nothing beats the best so far. -/
theorem foldl_keepMax_of_le (h : ∀ x ∈ l, p x = true → key x ≤ acc.2) :
    l.foldl (keepMax key p) acc = acc := by
  induction l with
  | nil => rfl
  | cons x l ih =>
    have hx : keepMax key p acc x = acc := by
      rw [keepMax]
      split
      · rename_i hp
        exact if_neg (Nat.not_lt.mpr (h x List.mem_cons_self hp))
      · rfl
    rw [List.foldl_cons, hx]
    exact ih fun y hy => h y (List.mem_cons_of_mem _ hy)

theorem foldl_keepMax_lt (h : ∀ x ∈ l, p x = true → key x < m) (hacc : acc.2 < m) :
    (l.foldl (keepMax key p) acc).2 < m := by
  induction l generalizing acc with
  | nil => exact hacc
  | cons x l ih =>
    rw [List.foldl_cons]
    apply ih fun y hy => h y (List.mem_cons_of_mem _ hy)
    rw [keepMax]
    split
    · rename_i hp
      split
      · exact h x List.mem_cons_self hp
      · exact hacc
    · exact hacc

/-- An element wins if what comes before it is smaller and what comes after it is not greater. -/
theorem scanMax_append_cons (hb : p b = true) (hpos : 0 < key b)
    (hbefore : ∀ x ∈ l₁, p x = true → key x < key b)
    (hafter : ∀ x ∈ l₂, p x = true → key x ≤ key b) : scanMax key p (l₁ ++ b :: l₂) = some b := by
  have hlt : (l₁.foldl (keepMax key p) (none, 0)).2 < key b := foldl_keepMax_lt hbefore hpos
  have hstep : keepMax key p (l₁.foldl (keepMax key p) (none, 0)) b = (some b, key b) := by
    rw [keepMax, if_pos hb, if_pos hlt]
  rw [scanMax, List.foldl_append, List.foldl_cons, hstep, foldl_keepMax_of_le hafter]

/-- The scan reads of the keys only how they compare, where `p` holds. -/
theorem foldl_keepMax_congr {key' : α → ℕ} {s : List α} (hpos : ∀ x ∈ s, p x = true →
      (0 < key x ↔ 0 < key' x))
    (hlt : ∀ x ∈ s, ∀ y ∈ s, p x = true → p y = true → (key x < key y ↔ key' x < key' y))
    (hl : ∀ x ∈ l, x ∈ s) {acc acc' : Option α × ℕ}
    (hacc : (acc = (none, 0) ∧ acc' = (none, 0)) ∨
      ∃ b ∈ s, p b = true ∧ acc = (some b, key b) ∧ acc' = (some b, key' b)) :
    (l.foldl (keepMax key p) acc).1 = (l.foldl (keepMax key' p) acc').1 := by
  induction l generalizing acc acc' with
  | nil =>
    rcases hacc with ⟨rfl, rfl⟩ | ⟨b, _, _, rfl, rfl⟩
    · rfl
    · rfl
  | cons x l ih =>
    have hxs := hl x List.mem_cons_self
    rw [List.foldl_cons, List.foldl_cons]
    apply ih fun y hy => hl y (List.mem_cons_of_mem _ hy)
    rw [keepMax, keepMax]
    by_cases hp : p x = true
    · rw [if_pos hp, if_pos hp]
      rcases hacc with ⟨rfl, rfl⟩ | ⟨b, hb, hpb, rfl, rfl⟩
      · by_cases hx : 0 < key x
        · rw [if_pos hx, if_pos ((hpos x hxs hp).mp hx)]
          exact .inr ⟨x, hxs, hp, rfl, rfl⟩
        · rw [if_neg hx, if_neg fun h => hx ((hpos x hxs hp).mpr h)]
          exact .inl ⟨rfl, rfl⟩
      · by_cases hx : key b < key x
        · rw [if_pos hx, if_pos ((hlt b hb x hxs hpb hp).mp hx)]
          exact .inr ⟨x, hxs, hp, rfl, rfl⟩
        · rw [if_neg hx, if_neg fun h => hx ((hlt b hb x hxs hpb hp).mpr h)]
          exact .inr ⟨b, hb, hpb, rfl, rfl⟩
    · rw [if_neg hp, if_neg hp]
      exact hacc

theorem scanMax_congr {key' : α → ℕ} {p' : α → Bool} (hp : ∀ x ∈ l, p x = p' x)
    (hpos : ∀ x ∈ l, p x = true → (0 < key x ↔ 0 < key' x))
    (hlt : ∀ x ∈ l, ∀ y ∈ l, p x = true → p y = true → (key x < key y ↔ key' x < key' y)) :
    scanMax key p l = scanMax key' p' l := by
  have hsame : scanMax key p l = scanMax key' p l :=
    foldl_keepMax_congr hpos hlt (fun _ h => h) (.inl ⟨rfl, rfl⟩)
  rw [hsame, scanMax, scanMax]
  congr 1
  refine List.foldl_ext _ _ _ fun acc x hx => ?_
  rw [keepMax, keepMax, hp x hx]

/-- The list by falling keys, ties in their original order. -/
def byKeyDesc (key : α → ℕ) (l : List α) : List α := l.insertionSort fun a b => key a ≥ key b

theorem byKeyDesc_perm (key : α → ℕ) (l : List α) : byKeyDesc key l ~ l := List.perm_insertionSort _ _

theorem byKeyDesc_pairwise (key : α → ℕ) (l : List α) :
    (byKeyDesc key l).Pairwise fun a b => key a ≥ key b := by
  have : Std.Total fun a b : α => key a ≥ key b := ⟨fun a b => Nat.le_total _ _⟩
  have : IsTrans α fun a b => key a ≥ key b := ⟨fun a b c hab hbc => Nat.le_trans hbc hab⟩
  exact List.pairwise_insertionSort _ _

theorem byKeyDesc_congr {key' : α → ℕ} (h : ∀ x y, key x ≤ key y ↔ key' x ≤ key' y) :
    byKeyDesc key l = byKeyDesc key' l := by
  have heq : (fun a b => key a ≥ key b) = fun a b => key' a ≥ key' b :=
    funext fun a => funext fun b => propext (h b a)
  rw [byKeyDesc, byKeyDesc]
  simp only [heq]

section

variable (hfind : (byKeyDesc key l).find? p = some b)

include hfind

/-- The first of the sorted list has the greatest key. -/
theorem key_le_of_find? {x : α} (hx : x ∈ l) (hp : p x = true) : key x ≤ key b := by
  obtain ⟨_, s₁, s₂, hsorted, hpassed⟩ := List.find?_eq_some_iff_append.mp hfind
  have hfalls := byKeyDesc_pairwise key l
  rw [hsorted] at hfalls
  rw [← (byKeyDesc_perm key l).mem_iff, hsorted] at hx
  rcases List.mem_append.mp hx with hx | hx
  · have hneg := hpassed x hx
    rw [hp] at hneg
    cases hneg
  · rcases List.mem_cons.mp hx with heq | hx
    · rw [heq]
    · exact (List.pairwise_cons.mp (List.pairwise_append.mp hfalls).2.1).1 x hx

/-- Nothing before it in the original list has the same key: a tie would stay in front of it. -/
theorem key_lt_of_find? (hnd : l.Nodup) (hl : l = l₁ ++ b :: l₂) {x : α} (hx : x ∈ l₁)
    (hp : p x = true) : key x < key b := by
  have hxl : x ∈ l := by
    rw [hl]
    exact List.mem_append_left _ hx
  apply Nat.lt_of_le_of_ne (key_le_of_find? hfind hxl hp)
  intro heq
  obtain ⟨_, s₁, s₂, hsorted, hpassed⟩ := List.find?_eq_some_iff_append.mp hfind
  have hpair : [x, b] <+ l := sublist_pair_iff.mpr ⟨l₁, l₂, hl, hx⟩
  have hsortpair : [x, b] <+ byKeyDesc key l :=
    List.pair_sublist_insertionSort (Nat.le_of_eq heq.symm) hpair
  have hsnd : (s₁ ++ b :: s₂).Nodup := hsorted ▸ (byKeyDesc_perm key l).nodup_iff.mpr hnd
  rw [hsorted] at hsortpair
  have hneg := hpassed x ((sublist_pair_append hsnd).mp hsortpair)
  rw [hp] at hneg
  cases hneg

end

/-- **The rescan selects the first of the sorted list.** -/
theorem scanMax_eq (hnd : l.Nodup) :
    scanMax key p l = ((byKeyDesc key l).find? p).filter fun b => decide (key b ≠ 0) := by
  cases hfind : (byKeyDesc key l).find? p with
  | none =>
    have hnone := List.find?_eq_none.mp hfind
    rw [scanMax, foldl_keepMax_of_le]
    · rfl
    · intro x hx hp
      exact absurd hp (hnone x ((byKeyDesc_perm key l).mem_iff.mpr hx))
  | some b =>
    have hle : ∀ x ∈ l, p x = true → key x ≤ key b := fun x hx hp => key_le_of_find? hfind hx hp
    by_cases hzero : key b = 0
    · rw [Option.filter_some, if_neg (by simpa using hzero), scanMax, foldl_keepMax_of_le]
      intro x hx hp
      have hx := hle x hx hp
      omega
    · have hmem : b ∈ l :=
        (byKeyDesc_perm key l).mem_iff.mp (List.mem_of_find?_eq_some hfind)
      obtain ⟨l₁, l₂, hl⟩ := List.append_of_mem hmem
      have hbefore : ∀ x ∈ l₁, p x = true → key x < key b :=
        fun x hx hp => key_lt_of_find? hfind hnd hl hx hp
      rw [Option.filter_some, if_pos (by simpa using hzero)]
      rw [hl] at hle ⊢
      apply scanMax_append_cons (List.find?_some hfind) (Nat.pos_of_ne_zero hzero) hbefore
      intro x hx hp
      exact hle x (List.mem_append_right _ (List.mem_cons_of_mem _ hx)) hp

end TraceScheduler
