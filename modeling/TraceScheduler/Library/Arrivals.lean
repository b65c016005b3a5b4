import Mathlib.Data.List.Basic

/-!
# A list that loses members and gains others before its last one

`arrange own arrivals here` holds the members of `own` that are still `here`, in their order, the last
of them kept last; before it come the others that are `here`, in the order of `arrivals`.  A member
that leaves and a newcomer that is put before the last member are both edits of the list
(`arrange_leave`, `arrange_arrive`), so a list that is edited again and again is known from its first
state and from who is in it at the end.
-/

namespace TraceScheduler

variable {α : Type*} [DecidableEq α] {own arrivals l : List α} {here here' : α → Bool} {x t : α}

def arrange (own arrivals : List α) (here : α → Bool) : List α :=
  let kept := own.filter here
  kept.dropLast ++ arrivals.filter (fun x => here x && !own.contains x) ++ kept.getLast?.toList

theorem arrange_concat (here : α → Bool) (ht : here t = true) : arrange (l ++ [t]) arrivals here =
    l.filter here ++ arrivals.filter (fun x => here x && !(l ++ [t]).contains x) ++ [t] := by
  have hkept : (l ++ [t]).filter here = l.filter here ++ [t] := by
    rw [List.filter_append, List.filter_cons_of_pos ht, List.filter_nil]
  rw [arrange, hkept, List.dropLast_concat, List.getLast?_concat]
  rfl

theorem arrange_congr (h : ∀ x, x ∈ own ∨ x ∈ arrivals → here x = here' x) :
    arrange own arrivals here = arrange own arrivals here' := by
  have hown : own.filter here = own.filter here' := List.filter_congr fun x hx => h x (.inl hx)
  have harrived : arrivals.filter (fun x => here x && !own.contains x) =
      arrivals.filter fun x => here' x && !own.contains x :=
    List.filter_congr fun x hx => by rw [h x (.inr hx)]
  rw [arrange, arrange, hown, harrived]

/-- With nobody gone and nobody come it is the list itself. -/
theorem arrange_eq_self (hown : ∀ x ∈ own, here x = true)
    (hcome : ∀ x ∈ arrivals, here x = true → x ∈ own) : arrange own arrivals here = own := by
  have hnone : arrivals.filter (fun x => here x && !own.contains x) = [] := by
    apply List.filter_eq_nil_iff.mpr
    intro x hx hcame
    rw [Bool.and_eq_true, Bool.not_eq_true', ← Bool.not_eq_true, List.contains_iff_mem] at hcame
    exact hcame.2 (hcome x hx hcame.1)
  rw [arrange, hnone, List.filter_eq_self.mpr hown, List.append_nil]
  rcases List.eq_nil_or_concat own with rfl | ⟨l, t, rfl⟩
  · rfl
  · rw [List.concat_eq_append, List.dropLast_concat, List.getLast?_concat]
    rfl

/-- Somebody who does not come to this list. -/
theorem arrange_pass (hx : here x = true → x ∈ own) :
    arrange own (arrivals ++ [x]) here = arrange own arrivals here := by
  have hnot : (here x && !own.contains x) = false := by
    cases hhere : here x with
    | false => rfl
    | true => simpa using hx hhere
  rw [arrange, arrange, List.filter_append, List.filter_cons_of_neg (by rw [hnot]; simp),
    List.filter_nil, List.append_nil]

/-- A member leaves. -/
theorem arrange_leave (ht : here t = true) (hne : t ≠ x) :
    arrange (l ++ [t]) arrivals (fun y => here y && decide (y ≠ x)) =
      (arrange (l ++ [t]) arrivals here).filter fun y => decide (y ≠ x) := by
  have ht' : (fun y => here y && decide (y ≠ x)) t = true := by
    show (here t && decide (t ≠ x)) = true
    rw [ht, decide_eq_true hne]
    rfl
  have hlast : [t].filter (fun y => decide (y ≠ x)) = [t] := by simp [hne]
  rw [arrange_concat (fun y => here y && decide (y ≠ x)) ht', arrange_concat here ht,
    List.filter_append, List.filter_append, hlast, List.filter_filter, List.filter_filter]
  congr 2
  · exact List.filter_congr fun y _ => Bool.and_comm _ _
  · apply List.filter_congr
    intro y _
    rw [Bool.and_comm (here y), Bool.and_assoc]

/-- A newcomer is put before the last member. -/
theorem arrange_arrive (ht : here t = true) (hown : x ∉ l ++ [t]) (hnew : x ∉ arrivals)
    {m : List α} (hm : arrange (l ++ [t]) arrivals here = m ++ [t]) :
    arrange (l ++ [t]) (arrivals ++ [x]) (fun y => here y || decide (y = x)) = m ++ [x, t] := by
  have ht' : (fun y => here y || decide (y = x)) t = true := by
    show (here t || decide (t = x)) = true
    rw [ht]
    rfl
  have hkeep : ∀ y, y ≠ x → (here y || decide (y = x)) = here y := by
    intro y hy
    rw [decide_eq_false hy, Bool.or_false]
  have hl : l.filter (fun y => here y || decide (y = x)) = l.filter here := by
    apply List.filter_congr
    intro y hy
    exact hkeep y fun heq => hown (List.mem_append_left _ (heq ▸ hy))
  have harrived : arrivals.filter (fun y => (here y || decide (y = x)) && !(l ++ [t]).contains y) =
      arrivals.filter fun y => here y && !(l ++ [t]).contains y := by
    apply List.filter_congr
    intro y hy
    rw [hkeep y fun heq => hnew (heq ▸ hy)]
  have hx : [x].filter (fun y => (here y || decide (y = x)) && !(l ++ [t]).contains y) = [x] := by
    simpa using hown
  rw [arrange_concat here ht] at hm
  have hm' : l.filter here ++ arrivals.filter (fun y => here y && !(l ++ [t]).contains y) = m :=
    List.append_cancel_right hm
  rw [arrange_concat (fun y => here y || decide (y = x)) ht', hl, List.filter_append, harrived, hx,
    ← List.append_assoc, hm', List.append_assoc]
  rfl

end TraceScheduler
