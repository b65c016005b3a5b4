import Mathlib.Data.List.Basic
import Mathlib.Data.List.Nodup
import Mathlib.Tactic.Common

/-!
# Who comes first in a list

`[d, u] <+ l` says that `d` stands before `u` in `l`, once at least.  In a list without repetition
this is a strict order (`sublist_pair_trans`, `sublist_pair_or`), the one of positions
(`idxOf_lt_of_sublist_pair`), and the part of the list before `u` holds exactly what stands before it
(`sublist_pair_append`).
-/

namespace TraceScheduler

open scoped List

variable {α : Type*}

theorem sublist_pair_iff {d u : α} {l : List α} :
    [d, u] <+ l ↔ ∃ l₁ l₂, l = l₁ ++ u :: l₂ ∧ d ∈ l₁ := by
  constructor
  · intro hsub
    obtain ⟨r₁, r₂, rfl, hd, hu⟩ := List.cons_sublist_iff.mp hsub
    obtain ⟨s, r, rfl⟩ := List.append_of_mem (List.singleton_sublist.mp hu)
    exact ⟨r₁ ++ s, r, by simp, List.mem_append_left _ hd⟩
  · rintro ⟨l₁, l₂, rfl, hd⟩
    exact (List.singleton_sublist.mpr hd).append (List.singleton_sublist.mpr List.mem_cons_self)

theorem sublist_pair_append_iff {d u : α} {l₁ l₂ : List α} :
    [d, u] <+ l₁ ++ l₂ ↔ [d, u] <+ l₁ ∨ [d, u] <+ l₂ ∨ (d ∈ l₁ ∧ u ∈ l₂) := by
  constructor
  · intro h
    obtain ⟨r₁, r₂, heq, h₁, h₂⟩ := List.sublist_append_iff.mp h
    rcases r₁ with _ | ⟨x, _ | ⟨y, r₁⟩⟩
    · exact .inr (.inl (by simpa [heq] using h₂))
    · simp only [List.cons_append, List.nil_append, List.cons.injEq] at heq
      obtain ⟨rfl, rfl⟩ := heq
      exact .inr (.inr ⟨List.singleton_sublist.mp h₁, List.singleton_sublist.mp h₂⟩)
    · simp only [List.cons_append, List.cons.injEq] at heq
      obtain ⟨rfl, rfl, _⟩ := heq
      exact .inl ((List.sublist_append_left [d, u] r₁).trans h₁)
  · rintro (h | h | ⟨hd, hu⟩)
    · exact h.trans (List.sublist_append_left _ _)
    · exact h.trans (List.sublist_append_right _ _)
    · exact (List.singleton_sublist.mpr hd).append (List.singleton_sublist.mpr hu)

/-- In a list without repetition, what stands before `u` is the part of the list before `u`. -/
theorem sublist_pair_append {d u : α} {l₁ l₂ : List α}
    (hnd : (l₁ ++ u :: l₂).Nodup) : [d, u] <+ l₁ ++ u :: l₂ ↔ d ∈ l₁ := by
  classical
  constructor
  · intro hsub
    obtain ⟨r₁, r₂, heq, hd⟩ := sublist_pair_iff.mp hsub
    have hu₁ : u ∉ l₁ := fun hu => (List.nodup_append.mp hnd).2.2 u hu u List.mem_cons_self rfl
    have hu₂ : u ∉ r₁ := by
      rw [heq] at hnd
      exact fun hu => (List.nodup_append.mp hnd).2.2 u hu u List.mem_cons_self rfl
    have : l₁ = r₁ := by
      have h1 : (l₁ ++ u :: l₂).idxOf u = l₁.length + (u :: l₂).idxOf u :=
        List.idxOf_append_of_notMem hu₁
      have h2 : (r₁ ++ u :: r₂).idxOf u = r₁.length + (u :: r₂).idxOf u :=
        List.idxOf_append_of_notMem hu₂
      rw [List.idxOf_cons_self, Nat.add_zero] at h1 h2
      rw [heq, h2] at h1
      exact (List.append_inj heq h1.symm).1
    exact this ▸ hd
  · intro hd
    exact sublist_pair_iff.mpr ⟨l₁, l₂, rfl, hd⟩

theorem sublist_pair_trans {a d x : α} {l : List α} (hnd : l.Nodup) (had : [a, d] <+ l)
    (hdx : [d, x] <+ l) : [a, x] <+ l := by
  obtain ⟨l₁, l₂, rfl, hd⟩ := sublist_pair_iff.mp hdx
  obtain ⟨m₁, m₂, rfl⟩ := List.append_of_mem hd
  have heq : m₁ ++ d :: m₂ ++ x :: l₂ = m₁ ++ d :: (m₂ ++ x :: l₂) := by simp
  rw [heq] at had hnd
  have ha := (sublist_pair_append hnd).mp had
  exact sublist_pair_iff.mpr ⟨_, l₂, rfl, List.mem_append_left _ ha⟩

/-- Two different members of a list stand in one order or the other. -/
theorem sublist_pair_or {l : List α} {x y : α} (hx : x ∈ l) (hy : y ∈ l) (hne : x ≠ y) :
    [x, y] <+ l ∨ [y, x] <+ l := by
  obtain ⟨l₁, l₂, rfl⟩ := List.append_of_mem hx
  rcases List.mem_append.mp hy with hy | hy
  · exact .inr (sublist_pair_iff.mpr ⟨l₁, l₂, rfl, hy⟩)
  · rcases List.mem_cons.mp hy with hy | hy
    · exact absurd hy.symm hne
    · refine .inl ((List.singleton_sublist.mpr hy).cons_cons x |>.trans ?_)
      exact List.sublist_append_right _ _

/-- A list in which neighbours of a rearrangement keep their order is that rearrangement. -/
theorem eq_of_perm_of_isChain {l l' : List α} (hnd : l.Nodup) (hperm : l ~ l')
    (hchain : l'.IsChain fun x y => [x, y] <+ l) : l = l' := by
  have : Trans (fun x y => [x, y] <+ l) (fun x y => [x, y] <+ l) fun x y => [x, y] <+ l :=
    ⟨fun hxy hyz => sublist_pair_trans hnd hxy hyz⟩
  have hl : l.Pairwise fun x y => [x, y] <+ l := List.pairwise_iff_forall_sublist.mpr fun h => h
  apply hperm.eq_of_pairwise ?_ hl (List.isChain_iff_pairwise.mp hchain)
  intro x y _ _ hxy hyx
  have hxx := (sublist_pair_trans hnd hxy hyx).nodup hnd
  simp at hxx

theorem idxOf_lt_of_sublist_pair [DecidableEq α] {l : List α} (hnd : l.Nodup) {x y : α} (h : [x, y] <+ l) :
    l.idxOf x < l.idxOf y := by
  obtain ⟨l₁, l₂, rfl, hx⟩ := sublist_pair_iff.mp h
  have hy : y ∉ l₁ := fun hy => (List.nodup_append.mp hnd).2.2 y hy y List.mem_cons_self rfl
  rw [List.idxOf_append_of_mem hx, List.idxOf_append_of_notMem hy, List.idxOf_cons_self]
  have := List.idxOf_lt_length_iff.mpr hx
  omega

/-! ### Positions -/

theorem idxOf?_eq_some [DecidableEq α] {l : List α} {x : α} (h : x ∈ l) :
    l.idxOf? x = some (l.idxOf x) := by
  cases hidx : l.idxOf? x with
  | none => exact absurd h (List.idxOf?_eq_none_iff.mp hidx)
  | some k => rw [List.idxOf_eq_getD_idxOf?, hidx, Option.getD_some]

theorem idxOf_take [DecidableEq α] {l : List α} {x : α} {n : ℕ} (h : x ∈ l.take n) :
    (l.take n).idxOf x = l.idxOf x := by
  have happend : (l.take n ++ l.drop n).idxOf x = (l.take n).idxOf x := List.idxOf_append_of_mem h
  rw [List.take_append_drop] at happend
  exact happend.symm

/-- What `find?` returns stands before everything else that passes the test. -/
theorem idxOf_find?_le [DecidableEq α] {l : List α} {p : α → Bool} {x y : α}
    (h : l.find? p = some x) (hy : y ∈ l) (hpy : p y = true) : l.idxOf x ≤ l.idxOf y := by
  induction l with
  | nil => cases hy
  | cons a l ih =>
    by_cases ha : p a = true
    · rw [List.find?_cons_of_pos ha] at h
      obtain rfl := Option.some.inj h
      rw [List.idxOf_cons_self]
      exact Nat.zero_le _
    · rw [List.find?_cons_of_neg ha] at h
      have hya : a ≠ y := fun heq => ha (heq ▸ hpy)
      have hxa : a ≠ x := fun heq => ha (heq ▸ List.find?_some h)
      have hy' : y ∈ l := (List.mem_cons.mp hy).resolve_left hya.symm
      rw [List.idxOf_cons_ne _ hxa, List.idxOf_cons_ne _ hya]
      have := ih h hy'
      omega

/-! ### Filtered lists -/

section

variable {main : α → Prop} [DecidablePred main] [DecidableEq α]

/-- Orders that agree on the main nodes agree on those before a given one. -/
theorem filter_eq_of_split {x : α} (hx : main x) {a₁ a₂ l₁ l₂ : List α}
    (hnd₁ : (a₁ ++ x :: l₁).Nodup) (hnd₂ : (a₂ ++ x :: l₂).Nodup)
    (h : (a₁ ++ x :: l₁).filter main = (a₂ ++ x :: l₂).filter main) :
    a₁.filter main = a₂.filter main := by
  have hxa₁ : x ∉ a₁.filter main := fun h => (List.nodup_append.mp hnd₁).2.2 x
    (List.mem_of_mem_filter h) x List.mem_cons_self rfl
  have hxa₂ : x ∉ a₂.filter main := fun h => (List.nodup_append.mp hnd₂).2.2 x
    (List.mem_of_mem_filter h) x List.mem_cons_self rfl
  rw [List.filter_append, List.filter_append, List.filter_cons_of_pos (by simpa using hx),
    List.filter_cons_of_pos (by simpa using hx)] at h
  have hlen := congrArg (List.idxOf x) h
  rw [List.idxOf_append_of_notMem hxa₁, List.idxOf_append_of_notMem hxa₂, List.idxOf_cons_self,
    List.idxOf_cons_self] at hlen
  exact (List.append_inj h (by omega)).1

/-- What comes before a main node comes before it among the main nodes. -/
theorem idxOf_filter_lt {x s : α} (hx : main x) (hs : main s) {a l : List α}
    (hnd : (a ++ x :: l).Nodup) (hsa : s ∈ a) :
    ((a ++ x :: l).filter main).idxOf s < ((a ++ x :: l).filter main).idxOf x := by
  have hsf : s ∈ a.filter main := List.mem_filter.mpr ⟨hsa, by simpa using hs⟩
  have hxa : x ∉ a.filter main := fun h => (List.nodup_append.mp hnd).2.2 x
    (List.mem_of_mem_filter h) x List.mem_cons_self rfl
  rw [List.filter_append, List.idxOf_append_of_mem hsf, List.filter_cons_of_pos (by simpa using hx),
    List.idxOf_append_of_notMem hxa]
  exact Nat.lt_add_right _ (List.idxOf_lt_length_of_mem hsf)

end

end TraceScheduler
