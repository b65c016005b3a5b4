import Mathlib.Data.List.Basic
import Mathlib.Data.List.Perm.Basic
import Mathlib.Tactic.Common

/-!
# Lists cut at marked elements

A list with some elements marked is a sequence of unmarked runs, each but the last ended by a marked
element.  `Aligned mark Q l l'` says that `l` and `l'` have the same marked elements in the same
order and that corresponding runs are related by `Q`.  It is a preorder when `Q` is one
(`Aligned.refl`, `Aligned.trans`), and an edit inside one run keeps it (`Aligned.edit`), so a chain
of local edits can be judged run by run at the end.

`mapRuns` rearranges every run that a marked element ends, each on its own: the marked elements stay
where they are (`mapRuns_getElem?`) and so do the bounds of every run (`mapRuns_run`).
-/

namespace TraceScheduler

open scoped List

variable {α : Type*} {mark : α → Bool} {Q Q' : List α → List α → Prop}

/-- `l` and `l'` have the same marked elements, and `Q` relates their runs one by one. -/
inductive Aligned (mark : α → Bool) (Q : List α → List α → Prop) : List α → List α → Prop
  | last {r r' : List α} : (∀ x ∈ r, mark x = false) → (∀ x ∈ r', mark x = false) → Q r r' →
      Aligned mark Q r r'
  | cut {r r' t t' : List α} {a : α} : (∀ x ∈ r, mark x = false) → (∀ x ∈ r', mark x = false) →
      mark a = true → Q r r' → Aligned mark Q t t' → Aligned mark Q (r ++ a :: t) (r' ++ a :: t')

/-- Every list is one unmarked run or starts with one and a marked element after it. -/
theorem unmarked_or_cut (mark : α → Bool) (l : List α) :
    (∀ x ∈ l, mark x = false) ∨
      ∃ r a t, l = r ++ a :: t ∧ (∀ x ∈ r, mark x = false) ∧ mark a = true := by
  induction l with
  | nil => exact .inl (by simp)
  | cons x xs ih =>
    by_cases hx : mark x = true
    · exact .inr ⟨[], x, xs, rfl, by simp, hx⟩
    · have hx' : mark x = false := by simpa using hx
      rcases ih with h | ⟨r, a, t, rfl, hr, ha⟩
      · exact .inl (List.forall_mem_cons.mpr ⟨hx', h⟩)
      · exact .inr ⟨x :: r, a, t, rfl, List.forall_mem_cons.mpr ⟨hx', hr⟩, ha⟩

/-- The first marked element, and the run before it, are determined by the list. -/
theorem cut_unique {r s t t' : List α} {a a' : α} (h : r ++ a :: t = s ++ a' :: t')
    (hr : ∀ x ∈ r, mark x = false) (ha : mark a = true) (hs : ∀ x ∈ s, mark x = false)
    (ha' : mark a' = true) : r = s ∧ a = a' ∧ t = t' := by
  induction r generalizing s with
  | nil =>
    cases s with
    | nil =>
      obtain ⟨h1, h2⟩ := List.cons.inj h
      exact ⟨rfl, h1, h2⟩
    | cons y ys =>
      obtain ⟨rfl, _⟩ := List.cons.inj h
      rw [hs a List.mem_cons_self] at ha
      cases ha
  | cons x xs ih =>
    cases s with
    | nil =>
      obtain ⟨rfl, _⟩ := List.cons.inj h
      rw [hr x List.mem_cons_self] at ha'
      cases ha'
    | cons y ys =>
      simp only [List.cons_append, List.cons.injEq] at h
      obtain ⟨rfl, h⟩ := h
      obtain ⟨rfl, h1, h2⟩ := ih h (fun z hz => hr z (List.mem_cons_of_mem _ hz))
        (fun z hz => hs z (List.mem_cons_of_mem _ hz))
      exact ⟨rfl, h1, h2⟩

namespace Aligned

theorem filter_eq {l l' : List α} (h : Aligned mark Q l l') : l'.filter mark = l.filter mark := by
  have hnone : ∀ r : List α, (∀ x ∈ r, mark x = false) → r.filter mark = [] := by
    intro r hr
    exact List.filter_eq_nil_iff.mpr fun x hx => by simp [hr x hx]
  induction h with
  | last hr hr' _ => rw [hnone _ hr, hnone _ hr']
  | cut hr hr' ha _ _ ih =>
    rw [List.filter_append, List.filter_append, List.filter_cons_of_pos ha,
      List.filter_cons_of_pos ha, hnone _ hr, hnone _ hr', ih]

theorem refl (hQ : ∀ r, Q r r) (l : List α) : Aligned mark Q l l := by
  induction hn : l.length using Nat.strongRecOn generalizing l with
  | ind n ih =>
    rcases unmarked_or_cut mark l with h | ⟨r, a, t, rfl, hr, ha⟩
    · exact .last h h (hQ l)
    · refine .cut hr hr ha (hQ r) (ih t.length ?_ t rfl)
      rw [← hn, List.length_append, List.length_cons]
      omega

theorem trans (hQ : ∀ r s t, Q r s → Q s t → Q r t) {l₁ l₂ l₃ : List α}
    (h : Aligned mark Q l₁ l₂) (h' : Aligned mark Q l₂ l₃) : Aligned mark Q l₁ l₃ := by
  induction h generalizing l₃ with
  | last hr hs hq =>
    cases h' with
    | last _ ht hq' => exact .last hr ht (hQ _ _ _ hq hq')
    | cut _ _ ha _ _ =>
      rw [hs _ (List.mem_append_right _ List.mem_cons_self)] at ha
      cases ha
  | @cut r s t₁ t₂ a hr hs ha hq ht ih =>
    generalize hm : s ++ a :: t₂ = m at h'
    cases h' with
    | last hs' _ _ =>
      rw [hs' a (hm ▸ List.mem_append_right _ List.mem_cons_self)] at ha
      cases ha
    | cut hs' hr' ha' hq' ht' =>
      obtain ⟨rfl, rfl, rfl⟩ := cut_unique hm hs ha hs' ha'
      exact .cut hr hr' ha (hQ _ _ _ hq hq') (ih ht')

/-- Replacing unmarked elements inside one run. -/
theorem edit (hrefl : ∀ r, Q r r) {r r' : List α} (hr : ∀ x ∈ r, mark x = false)
    (hr' : ∀ x ∈ r', mark x = false) (hQ : ∀ x y, Q (x ++ r ++ y) (x ++ r' ++ y))
    (pre post : List α) : Aligned mark Q (pre ++ r ++ post) (pre ++ r' ++ post) := by
  induction hn : pre.length using Nat.strongRecOn generalizing pre with
  | ind n ih =>
    rcases unmarked_or_cut mark pre with hpre | ⟨s, a, t, rfl, hs, ha⟩
    · -- the edited run starts the list; it ends with the first marked element of `post`
      have hrun : ∀ y z : List α, (∀ x ∈ y, mark x = false) → (∀ x ∈ z, mark x = false) →
          ∀ x ∈ pre ++ y ++ z, mark x = false := by
        intro y z hy hz x hx
        simp only [List.mem_append] at hx
        rcases hx with (hx | hx) | hx
        · exact hpre x hx
        · exact hy x hx
        · exact hz x hx
      rcases unmarked_or_cut mark post with hpost | ⟨y, a, t, rfl, hy, ha⟩
      · exact .last (hrun r post hr hpost) (hrun r' post hr' hpost) (hQ pre post)
      · have h := Aligned.cut (hrun r y hr hy) (hrun r' y hr' hy) ha (hQ pre y)
          (refl hrefl t)
        simpa using h
    · have hlen : t.length < n := by
        rw [← hn, List.length_append, List.length_cons]
        omega
      have h := Aligned.cut hs hs ha (hrefl s) (ih t.length hlen t rfl)
      simpa using h

end Aligned

/-! ### Rearranging the runs -/

/-- Apply `f` to every run that a marked element ends. `current` is the run being collected. -/
def mapRuns (mark : α → Bool) (f : List α → List α) : List α → List α → List α
  | [], current => current
  | x :: rest, current =>
      if mark x then f current ++ x :: mapRuns mark f rest []
      else mapRuns mark f rest (current ++ [x])

/-- `run` is a maximal unmarked part of `pre ++ run ++ post`. -/
structure IsRun (mark : α → Bool) (pre run post : List α) : Prop where
  unmarked : ∀ x ∈ run, mark x = false
  before : ∀ x ∈ pre.getLast?, mark x = true
  after : ∀ x ∈ post.head?, mark x = true

section

variable {f : List α → List α} {l current pre run post : List α} {a : α} {k : ℕ}

theorem mapRuns_mark (ha : mark a = true) :
    mapRuns mark f (a :: l) current = f current ++ a :: mapRuns mark f l [] := by
  rw [mapRuns, if_pos ha]

theorem mapRuns_unmarked (hrun : ∀ x ∈ run, mark x = false) :
    mapRuns mark f (run ++ l) current = mapRuns mark f l (current ++ run) := by
  induction run generalizing current with
  | nil => rw [List.nil_append, List.append_nil]
  | cons x run ih =>
    have hx : ¬ mark x = true := by simp [hrun x List.mem_cons_self]
    rw [List.cons_append, mapRuns, if_neg hx, ih fun y hy => hrun y (List.mem_cons_of_mem _ hy),
      List.append_assoc, List.singleton_append]

variable (hf : ∀ r, f r ~ r)

include hf

/-- What comes up to a marked element is rearranged, and what follows it is a list of its own. -/
theorem mapRuns_cut (ha : mark a = true) (pre current : List α) : ∃ pre', pre' ~ current ++ pre ∧
    ∀ post, mapRuns mark f (pre ++ a :: post) current = pre' ++ a :: mapRuns mark f post [] := by
  induction pre generalizing current with
  | nil =>
    refine ⟨f current, ?_, fun post => mapRuns_mark ha⟩
    rw [List.append_nil]
    exact hf current
  | cons x pre ih =>
    by_cases hx : mark x = true
    · obtain ⟨pre', hperm, hcut⟩ := ih []
      refine ⟨f current ++ x :: pre', (hf current).append (hperm.cons x), ?_⟩
      intro post
      rw [List.cons_append, mapRuns_mark hx, hcut, List.append_assoc, List.cons_append]
    · obtain ⟨pre', hperm, hcut⟩ := ih (current ++ [x])
      refine ⟨pre', by simpa using hperm, ?_⟩
      intro post
      rw [List.cons_append, mapRuns, if_neg hx, hcut]

theorem mapRuns_perm (l current : List α) : mapRuns mark f l current ~ current ++ l := by
  induction l generalizing current with
  | nil =>
    rw [mapRuns, List.append_nil]
  | cons x l ih =>
    rw [mapRuns]
    split
    · exact (hf current).append ((ih []).cons x)
    · have h := ih (current ++ [x])
      rw [List.append_assoc, List.singleton_append] at h
      exact h

/-- **Marked elements keep their index.** -/
theorem mapRuns_getElem? (ha : mark a = true) (hk : l[k]? = some a) :
    (mapRuns mark f l [])[k]? = some a := by
  obtain ⟨hlt, hget⟩ := List.getElem?_eq_some_iff.mp hk
  have hsplit : l = l.take k ++ a :: l.drop (k + 1) := by
    rw [← hget, List.getElem_cons_drop, List.take_append_drop]
  obtain ⟨pre', hperm, hcut⟩ := mapRuns_cut hf ha (l.take k) []
  have hlen : pre'.length = k := by
    rw [hperm.length_eq, List.nil_append, List.length_take, Nat.min_eq_left (Nat.le_of_lt hlt)]
  rw [hsplit, hcut, List.getElem?_append_right (Nat.le_of_eq hlen), hlen, Nat.sub_self]
  rfl

/-- **Every run is rearranged on its own**, in its place; one that ends the list stays as it is. -/
theorem mapRuns_run (h : IsRun mark pre run post) : ∃ pre' run' post',
    mapRuns mark f (pre ++ run ++ post) [] = pre' ++ run' ++ post' ∧ pre' ~ pre ∧ post' ~ post ∧
      run' = if post = [] then run else f run := by
  -- the run and what follows it, as a list of its own
  have htail : ∃ run' post', mapRuns mark f (run ++ post) [] = run' ++ post' ∧ post' ~ post ∧
      run' = if post = [] then run else f run := by
    rw [mapRuns_unmarked h.unmarked, List.nil_append]
    cases post with
    | nil => exact ⟨run, [], by rw [mapRuns, List.append_nil], .refl _, by rw [if_pos rfl]⟩
    | cons b post =>
      refine ⟨f run, b :: mapRuns mark f post [], mapRuns_mark (h.after b rfl), ?_, ?_⟩
      · exact (mapRuns_perm hf _ _).cons b
      · rw [if_neg (List.cons_ne_nil _ _)]
  obtain ⟨run', post', heq, hpost, hrun⟩ := htail
  rcases List.eq_nil_or_concat pre with hnil | ⟨front, a, hconcat⟩
  · refine ⟨[], run', post', ?_, by rw [hnil], hpost, hrun⟩
    rw [hnil, List.nil_append, List.nil_append, heq]
  · rw [List.concat_eq_append] at hconcat
    have ha : mark a = true := h.before a (by rw [hconcat, List.getLast?_concat]; rfl)
    obtain ⟨front', hperm, hcut⟩ := mapRuns_cut hf ha front []
    refine ⟨front' ++ [a], run', post', ?_, ?_, hpost, hrun⟩
    · rw [hconcat, List.append_assoc, List.append_assoc, List.singleton_append, hcut, heq]
      simp
    · rw [hconcat]
      exact hperm.append_right [a]

end

end TraceScheduler
