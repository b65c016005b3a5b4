import TraceScheduler.Library.PairOrder
import Mathlib.Data.List.Basic
import Mathlib.Data.List.Sublists
import Mathlib.Data.List.Perm.Subperm
import Mathlib.Logic.Relation
import Mathlib.Tactic.Common

/-!
# Depth-first post-order

`visitNode succs fuel n (visited, result)` is the recursive depth-first search that appends a node to
`result` when all its successors have been searched; `postOrder` starts it from every node of a list.
On a graph with cycles the result is still an order: each successor of a node either was finished
before it or reaches it (`IsPostOrder.closed`), because a successor that is visited but unfinished
lies on the path being searched.

Fuel bounds the depth of the recursion; one unit for each node is enough (`postOrder_isSome`).
-/

namespace TraceScheduler

open scoped List

variable {α : Type*} [DecidableEq α]

/-- The search from one unvisited node. -/
def visitNode (succs : α → List α) : ℕ → α → List α × List α → Option (List α × List α)
  | 0, _, _ => none
  | fuel + 1, n, (visited, result) =>
      ((succs n).foldlM (fun acc s => if s ∈ acc.1 then some acc else visitNode succs fuel s acc)
        (n :: visited, result)).map fun acc => (acc.1, acc.2 ++ [n])

/-- The search from every node of a list that is still unvisited. -/
def postOrder (succs : α → List α) (fuel : ℕ) (nodes : List α) : Option (List α) :=
  (nodes.foldlM (fun acc n => if n ∈ acc.1 then some acc else visitNode succs fuel n acc)
    (([], []) : List α × List α)).map Prod.snd

/-- The edges of the graph. -/
def EdgeOf (succs : α → List α) (a b : α) : Prop := b ∈ succs a

/-- There is a path, possibly of length zero. -/
abbrev Reaches (succs : α → List α) : α → α → Prop := Relation.ReflTransGen (EdgeOf succs)

/-- What a post-order is. -/
structure IsPostOrder (succs : α → List α) (nodes result : List α) : Prop where
  nodup : result.Nodup
  mem_iff : ∀ n, n ∈ result ↔ n ∈ nodes
  closed : ∀ n ∈ result, ∀ m ∈ succs n, [m, n] <+ result ∨ Reaches succs m n

/-- The state of the search. A visited node that is not in `result` is on the current path. -/
structure DfsInv (succs : α → List α) (nodes visited result : List α) : Prop where
  nodup : result.Nodup
  visited_mem : ∀ n ∈ visited, n ∈ nodes
  result_mem : ∀ n ∈ result, n ∈ visited
  closed : ∀ n ∈ result, ∀ m ∈ succs n, [m, n] <+ result ∨ Reaches succs m n

/-- What a search leaves unchanged, and what it leaves on the path. -/
structure Extends (visited result visited' result' : List α) : Prop where
  visited_sub : ∀ n ∈ visited, n ∈ visited'
  result_sub : ∀ n ∈ result, n ∈ result'
  path : ∀ n, (n ∈ visited' ∧ n ∉ result') ↔ (n ∈ visited ∧ n ∉ result)

variable {succs : α → List α} {nodes visited result : List α}

omit [DecidableEq α] in
theorem Extends.refl : Extends visited result visited result :=
  ⟨fun _ h => h, fun _ h => h, fun _ => Iff.rfl⟩

omit [DecidableEq α] in
theorem Extends.trans {v₂ r₂ v₃ r₃ : List α} (h : Extends visited result v₂ r₂)
    (h' : Extends v₂ r₂ v₃ r₃) : Extends visited result v₃ r₃ :=
  ⟨fun n hn => h'.visited_sub n (h.visited_sub n hn), fun n hn => h'.result_sub n (h.result_sub n hn),
    fun n => (h'.path n).trans (h.path n)⟩

/-- Searching a list of nodes one after the other, given what one search does. -/
theorem foldlM_visitNode_spec {fuel : ℕ}
    (hone : ∀ (n : α) (v r : List α), n ∈ nodes → n ∉ v → DfsInv succs nodes v r →
      (∀ x ∈ v, x ∉ r → Reaches succs x n) → ∀ v' r', visitNode succs fuel n (v, r) = some (v', r') →
      DfsInv succs nodes v' r' ∧ Extends v r v' r' ∧ n ∈ v')
    {ns v r v' r' : List α} (hns : ∀ n ∈ ns, n ∈ nodes) (hinv : DfsInv succs nodes v r)
    (hpath : ∀ n ∈ ns, ∀ x ∈ v, x ∉ r → Reaches succs x n)
    (h : ns.foldlM (fun acc n => if n ∈ acc.1 then some acc else visitNode succs fuel n acc) (v, r) =
      some (v', r')) :
    DfsInv succs nodes v' r' ∧ Extends v r v' r' ∧ ∀ n ∈ ns, n ∈ v' := by
  induction ns generalizing v r with
  | nil =>
    obtain ⟨rfl, rfl⟩ := Prod.mk.inj (Option.some.inj h)
    exact ⟨hinv, .refl, by simp⟩
  | cons n ns ih =>
    rw [List.foldlM_cons] at h
    have hns' := fun m hm => hns m (List.mem_cons_of_mem n hm)
    by_cases hn : n ∈ v
    · simp only [hn, if_true, Option.bind_eq_bind, Option.bind_some] at h
      obtain ⟨hinv', hext, hmem⟩ :=
        ih hns' hinv (fun m hm => hpath m (List.mem_cons_of_mem _ hm)) h
      exact ⟨hinv', hext, List.forall_mem_cons.mpr ⟨hext.visited_sub n hn, hmem⟩⟩
    · simp only [hn, if_false, Option.bind_eq_bind] at h
      obtain ⟨⟨v₁, r₁⟩, hvisit, h⟩ := Option.bind_eq_some_iff.mp h
      obtain ⟨hinv₁, hext₁, hnv₁⟩ :=
        hone n v r (hns n List.mem_cons_self) hn hinv (hpath n List.mem_cons_self) v₁ r₁ hvisit
      have hpath₁ : ∀ m ∈ ns, ∀ x ∈ v₁, x ∉ r₁ → Reaches succs x m := by
        intro m hm x hx hxr
        obtain ⟨hxv, hxr⟩ := (hext₁.path x).mp ⟨hx, hxr⟩
        exact hpath m (List.mem_cons_of_mem _ hm) x hxv hxr
      obtain ⟨hinv', hext, hmem⟩ := ih hns' hinv₁ hpath₁ h
      exact ⟨hinv', hext₁.trans hext, List.forall_mem_cons.mpr ⟨hext.visited_sub n hnv₁, hmem⟩⟩

/-- One search, from a node that every node on the current path reaches. -/
theorem visitNode_spec (hclosed : ∀ n ∈ nodes, ∀ m ∈ succs n, m ∈ nodes) {fuel : ℕ} {n : α}
    {v r v' r' : List α} (hn : n ∈ nodes) (hnv : n ∉ v) (hinv : DfsInv succs nodes v r)
    (hpath : ∀ x ∈ v, x ∉ r → Reaches succs x n)
    (h : visitNode succs fuel n (v, r) = some (v', r')) :
    DfsInv succs nodes v' r' ∧ Extends v r v' r' ∧ n ∈ v' := by
  induction fuel generalizing n v r v' r' with
  | zero => cases h
  | succ fuel ih =>
    rw [visitNode] at h
    obtain ⟨⟨v₂, r₂⟩, hfold, heq⟩ := Option.map_eq_some_iff.mp h
    obtain ⟨rfl, rfl⟩ := Prod.mk.inj heq
    have hnr : n ∉ r := fun hr => hnv (hinv.result_mem n hr)
    have hinv₁ : DfsInv succs nodes (n :: v) r :=
      ⟨hinv.nodup, List.forall_mem_cons.mpr ⟨hn, hinv.visited_mem⟩,
        fun x hx => List.mem_cons_of_mem _ (hinv.result_mem x hx), hinv.closed⟩
    have hpath₁ : ∀ m ∈ succs n, ∀ x ∈ n :: v, x ∉ r → Reaches succs x m := by
      intro m hm x hx hxr
      rcases List.mem_cons.mp hx with rfl | hx
      · exact .single hm
      · exact (hpath x hx hxr).tail hm
    obtain ⟨hinv₂, hext₂, hsucc₂⟩ := foldlM_visitNode_spec
      (fun m v r hm hmv hinv hpath v' r' h => ih hm hmv hinv hpath h)
      (hclosed n hn) hinv₁ hpath₁ hfold
    obtain ⟨hnv₂, hnr₂⟩ := (hext₂.path n).mpr ⟨List.mem_cons_self, hnr⟩
    refine ⟨⟨?_, hinv₂.visited_mem, ?_, ?_⟩, ⟨?_, ?_, ?_⟩, hnv₂⟩
    · exact List.nodup_append.mpr ⟨hinv₂.nodup, List.nodup_singleton _, fun x hx y hy he =>
        hnr₂ (by rw [← List.mem_singleton.mp hy, ← he]; exact hx)⟩
    · intro x hx
      rcases List.mem_append.mp hx with hx | hx
      · exact hinv₂.result_mem x hx
      · exact List.mem_singleton.mp hx ▸ hnv₂
    · intro x hx m hm
      rcases List.mem_append.mp hx with hx | hx
      · exact (hinv₂.closed x hx m hm).imp_left fun hsub => hsub.trans (List.sublist_append_left _ _)
      · obtain rfl := List.mem_singleton.mp hx
        by_cases hmr : m ∈ r₂
        · exact .inl ((List.singleton_sublist.mpr hmr).append (List.Sublist.refl [x]))
        · -- visited but unfinished: the successor lies on the path to `x`
          obtain ⟨hmv, hmr⟩ := (hext₂.path m).mp ⟨hsucc₂ m hm, hmr⟩
          rcases List.mem_cons.mp hmv with rfl | hmv
          · exact .inr .refl
          · exact .inr (hpath m hmv hmr)
    · exact fun x hx => hext₂.visited_sub x (List.mem_cons_of_mem _ hx)
    · exact fun x hx => List.mem_append_left _ (hext₂.result_sub x hx)
    · intro x
      rw [List.mem_append, List.mem_singleton, not_or]
      constructor
      · rintro ⟨hxv, hxr, hxn⟩
        obtain ⟨hxv, hxr⟩ := (hext₂.path x).mp ⟨hxv, hxr⟩
        exact ⟨(List.mem_cons.mp hxv).resolve_left hxn, hxr⟩
      · rintro ⟨hxv, hxr⟩
        obtain ⟨hxv₂, hxr₂⟩ := (hext₂.path x).mpr ⟨List.mem_cons_of_mem _ hxv, hxr⟩
        refine ⟨hxv₂, hxr₂, ?_⟩
        intro heq
        subst heq
        exact hnv hxv

/-- **The result of the search is a post-order.** -/
theorem postOrder_spec (hclosed : ∀ n ∈ nodes, ∀ m ∈ succs n, m ∈ nodes) {fuel : ℕ}
    (h : postOrder succs fuel nodes = some result) : IsPostOrder succs nodes result := by
  obtain ⟨⟨v, r⟩, hfold, rfl⟩ := Option.map_eq_some_iff.mp h
  have hinit : DfsInv succs nodes [] [] := ⟨List.nodup_nil, by simp, by simp, by simp⟩
  obtain ⟨hinv, hext, hmem⟩ := foldlM_visitNode_spec
    (fun m v r hm hmv hinv hpath v' r' h => visitNode_spec hclosed hm hmv hinv hpath h)
    (fun _ hm => hm) hinit (by simp) hfold
  refine ⟨hinv.nodup, fun n => ⟨fun hn => hinv.visited_mem n (hinv.result_mem n hn), fun hn => ?_⟩,
    hinv.closed⟩
  by_contra hnr
  obtain ⟨hnil, _⟩ := (hext.path n).mp ⟨hmem n hn, hnr⟩
  cases hnil

/-! ### The search ends -/

/-- Visited nodes stay visited. -/
theorem foldlM_visitNode_isSome {fuel : ℕ}
    (hone : ∀ (n : α) (v r : List α), n ∈ nodes → n ∉ v → (nodes.filter (· ∉ v)).length ≤ fuel →
      ∃ v' r', visitNode succs fuel n (v, r) = some (v', r') ∧ ∀ x ∈ v, x ∈ v')
    {ns v r : List α} (hns : ∀ n ∈ ns, n ∈ nodes) (hfuel : (nodes.filter (· ∉ v)).length ≤ fuel) :
    ∃ v' r', ns.foldlM (fun acc n => if n ∈ acc.1 then some acc else visitNode succs fuel n acc)
      (v, r) = some (v', r') ∧ ∀ x ∈ v, x ∈ v' := by
  induction ns generalizing v r with
  | nil => exact ⟨v, r, rfl, fun _ h => h⟩
  | cons n ns ih =>
    have hns' := fun m hm => hns m (List.mem_cons_of_mem n hm)
    rw [List.foldlM_cons]
    by_cases hn : n ∈ v
    · simp only [hn, if_true, Option.bind_eq_bind, Option.bind_some]
      exact ih hns' hfuel
    · simp only [hn, if_false, Option.bind_eq_bind]
      obtain ⟨v₁, r₁, hvisit, hsub₁⟩ := hone n v r (hns n List.mem_cons_self) hn hfuel
      have hfuel₁ : (nodes.filter (· ∉ v₁)).length ≤ fuel := by
        refine Nat.le_trans (List.Sublist.length_le ?_) hfuel
        refine List.monotone_filter_right nodes fun x hx => ?_
        simp only [decide_eq_true_eq] at hx ⊢
        exact fun h => hx (hsub₁ x h)
      obtain ⟨v', r', h, hsub⟩ := ih (v := v₁) (r := r₁) hns' hfuel₁
      exact ⟨v', r', by rw [hvisit, Option.bind_some, h], fun x hx => hsub x (hsub₁ x hx)⟩

theorem visitNode_isSome (hclosed : ∀ n ∈ nodes, ∀ m ∈ succs n, m ∈ nodes) {fuel : ℕ} {n : α}
    {v r : List α} (hn : n ∈ nodes) (hnv : n ∉ v) (hfuel : (nodes.filter (· ∉ v)).length ≤ fuel) :
    ∃ v' r', visitNode succs fuel n (v, r) = some (v', r') ∧ ∀ x ∈ v, x ∈ v' := by
  induction fuel generalizing n v r with
  | zero =>
    have hmem : n ∈ nodes.filter (· ∉ v) := List.mem_filter.mpr ⟨hn, by simpa using hnv⟩
    rw [List.eq_nil_of_length_eq_zero (Nat.le_zero.mp hfuel)] at hmem
    cases hmem
  | succ fuel ih =>
    have hlt : (nodes.filter (· ∉ n :: v)).length < (nodes.filter (· ∉ v)).length := by
      have hsub : nodes.filter (· ∉ n :: v) <+ nodes.filter (· ∉ v) := by
        refine List.monotone_filter_right nodes fun x hx => ?_
        simp only [decide_eq_true_eq, List.mem_cons, not_or] at hx ⊢
        exact hx.2
      refine Nat.lt_of_le_of_ne hsub.length_le fun heq => ?_
      have hmem : n ∈ nodes.filter (· ∉ v) := List.mem_filter.mpr ⟨hn, by simpa using hnv⟩
      rw [← hsub.eq_of_length heq] at hmem
      simp at hmem
    obtain ⟨v', r', h, hsub⟩ := foldlM_visitNode_isSome (r := r)
      (fun m v r hm hmv hf => ih hm hmv hf) (hclosed n hn) (v := n :: v) (by omega)
    refine ⟨v', r' ++ [n], ?_, fun x hx => hsub x (List.mem_cons_of_mem _ hx)⟩
    rw [visitNode, h]
    rfl

/-- **The search ends** within a recursion depth of one for each node. -/
theorem postOrder_isSome (hclosed : ∀ n ∈ nodes, ∀ m ∈ succs n, m ∈ nodes) :
    ∃ result, postOrder succs nodes.length nodes = some result := by
  obtain ⟨v, r, h, _⟩ := foldlM_visitNode_isSome
    (fun m v r hm hmv hf => visitNode_isSome hclosed hm hmv hf) (v := []) (r := [])
    (fun _ h => h) (List.length_filter_le _ _)
  exact ⟨r, by rw [postOrder, h]; rfl⟩

/-! ### Comparing two searches

Call some nodes main.  Two graphs in which the main nodes have the same successors, and in which no
other node leads to a main one, may differ in everything else: the post-orders agree on the main
nodes. -/

section Compare

variable {main : α → Prop} [DecidablePred main] {succs₁ succs₂ : α → List α}

/-- Two states of a search that agree on the main nodes. -/
structure Agree (main : α → Prop) [DecidablePred main] (a b : List α × List α) : Prop where
  visited : ∀ x, main x → (x ∈ a.1 ↔ x ∈ b.1)
  result : a.2.filter main = b.2.filter main

omit [DecidableEq α] in
theorem Agree.refl (a : List α × List α) : Agree main a a := ⟨fun _ _ => Iff.rfl, rfl⟩

omit [DecidableEq α] in
theorem Agree.symm {a b : List α × List α} (h : Agree main a b) : Agree main b a :=
  ⟨fun x hx => (h.visited x hx).symm, h.result.symm⟩

omit [DecidableEq α] in
theorem Agree.trans {a b c : List α × List α} (h : Agree main a b) (h' : Agree main b c) :
    Agree main a c :=
  ⟨fun x hx => (h.visited x hx).trans (h'.visited x hx), h.result.trans h'.result⟩

/-- Search a list of nodes one after the other. -/
def visitAll (succs : α → List α) (fuel : ℕ) (ns : List α) (acc : List α × List α) :
    Option (List α × List α) :=
  ns.foldlM (fun acc n => if n ∈ acc.1 then some acc else visitNode succs fuel n acc) acc

theorem visitAll_cons {fuel : ℕ} {n : α} {ns : List α} {acc acc' : List α × List α}
    (h : visitAll succs fuel (n :: ns) acc = some acc') :
    ∃ mid, (if n ∈ acc.1 then some acc else visitNode succs fuel n acc) = some mid ∧
      visitAll succs fuel ns mid = some acc' := by
  rw [visitAll, List.foldlM_cons] at h
  exact Option.bind_eq_some_iff.mp h

theorem visitNode_succ {fuel : ℕ} {n : α} {acc acc' : List α × List α}
    (h : visitNode succs (fuel + 1) n acc = some acc') :
    ∃ mid, visitAll succs fuel (succs n) (n :: acc.1, acc.2) = some mid ∧
      acc' = (mid.1, mid.2 ++ [n]) := by
  rw [visitNode] at h
  obtain ⟨mid, hmid, rfl⟩ := Option.map_eq_some_iff.mp h
  exact ⟨mid, hmid, rfl⟩

/-- A search among the other nodes leaves the main ones alone. -/
theorem visitNode_side (hside : ∀ x, ¬ main x → ∀ s ∈ succs x, ¬ main s) {fuel : ℕ} {n : α}
    {acc acc' : List α × List α} (hn : ¬ main n) (h : visitNode succs fuel n acc = some acc') :
    Agree main acc acc' := by
  induction fuel generalizing n acc acc' with
  | zero => cases h
  | succ fuel ih =>
    have hall : ∀ (ns : List α) (a a' : List α × List α), (∀ s ∈ ns, ¬ main s) →
        visitAll succs fuel ns a = some a' → Agree main a a' := by
      intro ns
      induction ns with
      | nil =>
        intro a a' _ h
        exact Option.some.inj h ▸ .refl a
      | cons s ns ihs =>
        intro a a' hns h
        obtain ⟨mid, hmid, hrest⟩ := visitAll_cons h
        refine Agree.trans ?_ (ihs mid a' (fun x hx => hns x (List.mem_cons_of_mem _ hx)) hrest)
        split at hmid
        · exact Option.some.inj hmid ▸ .refl a
        · exact ih (hns s List.mem_cons_self) hmid
    obtain ⟨mid, hmid, rfl⟩ := visitNode_succ h
    have hagree := hall _ _ _ (hside n hn) hmid
    refine ⟨fun x hx => ?_, ?_⟩
    · rw [← hagree.visited x hx, List.mem_cons]
      exact ⟨.inr, fun h => h.resolve_left fun he => hn (he ▸ hx)⟩
    · rw [List.filter_append, ← hagree.result]
      simp [hn]

theorem step_side (hside : ∀ x, ¬ main x → ∀ s ∈ succs x, ¬ main s) {fuel : ℕ} {n : α}
    {acc acc' : List α × List α} (hn : ¬ main n)
    (h : (if n ∈ acc.1 then some acc else visitNode succs fuel n acc) = some acc') :
    Agree main acc acc' := by
  split at h
  · exact Option.some.inj h ▸ .refl acc
  · exact visitNode_side hside hn h

/-- Searches from the same main nodes agree, given that single searches do; the second one may leave
out nodes that are not main. -/
theorem visitAll_agree {fuel₁ fuel₂ : ℕ} {p : α → Bool} (hp : ∀ x, main x → p x = true)
    (hside₁ : ∀ x, ¬ main x → ∀ s ∈ succs₁ x, ¬ main s)
    (hside₂ : ∀ x, ¬ main x → ∀ s ∈ succs₂ x, ¬ main s)
    (hone : ∀ (n : α) (a b a' b' : List α × List α), main n → Agree main a b →
      visitNode succs₁ fuel₁ n a = some a' → visitNode succs₂ fuel₂ n b = some b' →
        Agree main a' b')
    {ns : List α} {a b a' b' : List α × List α} (hab : Agree main a b)
    (h₁ : visitAll succs₁ fuel₁ ns a = some a')
    (h₂ : visitAll succs₂ fuel₂ (ns.filter p) b = some b') : Agree main a' b' := by
  induction ns generalizing a b with
  | nil =>
    obtain rfl := Option.some.inj h₁
    obtain rfl := Option.some.inj h₂
    exact hab
  | cons n ns ih =>
    obtain ⟨mid₁, hmid₁, h₁⟩ := visitAll_cons h₁
    by_cases hn : main n
    · rw [List.filter_cons_of_pos (hp n hn)] at h₂
      obtain ⟨mid₂, hmid₂, h₂⟩ := visitAll_cons h₂
      refine ih ?_ h₁ h₂
      by_cases hmem : n ∈ a.1
      · rw [if_pos hmem] at hmid₁
        rw [if_pos ((hab.visited n hn).mp hmem)] at hmid₂
        obtain rfl := Option.some.inj hmid₁
        obtain rfl := Option.some.inj hmid₂
        exact hab
      · rw [if_neg hmem] at hmid₁
        rw [if_neg fun hb => hmem ((hab.visited n hn).mpr hb)] at hmid₂
        exact hone n a b mid₁ mid₂ hn hab hmid₁ hmid₂
    · have hleft : Agree main mid₁ b := (step_side hside₁ hn hmid₁).symm.trans hab
      by_cases hpn : p n = true
      · rw [List.filter_cons_of_pos hpn] at h₂
        obtain ⟨mid₂, hmid₂, h₂⟩ := visitAll_cons h₂
        exact ih (hleft.trans (step_side hside₂ hn hmid₂)) h₁ h₂
      · rw [List.filter_cons_of_neg hpn] at h₂
        exact ih hleft h₁ h₂

theorem visitNode_agree (hside₁ : ∀ x, ¬ main x → ∀ s ∈ succs₁ x, ¬ main s)
    (hside₂ : ∀ x, ¬ main x → ∀ s ∈ succs₂ x, ¬ main s)
    (hmain : ∀ x, main x → succs₁ x = succs₂ x) {fuel₁ fuel₂ : ℕ} {n : α}
    {a b a' b' : List α × List α} (hn : main n) (hab : Agree main a b)
    (h₁ : visitNode succs₁ fuel₁ n a = some a') (h₂ : visitNode succs₂ fuel₂ n b = some b') :
    Agree main a' b' := by
  induction fuel₁ generalizing fuel₂ n a b a' b' with
  | zero => cases h₁
  | succ fuel₁ ih =>
    cases fuel₂ with
    | zero => cases h₂
    | succ fuel₂ =>
      obtain ⟨mid₁, hmid₁, rfl⟩ := visitNode_succ h₁
      obtain ⟨mid₂, hmid₂, rfl⟩ := visitNode_succ h₂
      rw [← hmain n hn, ← List.filter_true (succs₁ n)] at hmid₂
      have hstart : Agree main (n :: a.1, a.2) (n :: b.1, b.2) := by
        refine ⟨fun x hx => ?_, hab.result⟩
        rw [List.mem_cons, List.mem_cons, hab.visited x hx]
      have hagree := visitAll_agree (fun _ _ => rfl) hside₁ hside₂
        (fun m a b a' b' hm hab h₁ h₂ => ih hm hab h₁ h₂) hstart hmid₁ hmid₂
      refine ⟨hagree.visited, ?_⟩
      rw [List.filter_append, List.filter_append, hagree.result]

/-- **The post-orders agree on the main nodes.** -/
theorem postOrder_agree {p : α → Bool} (hp : ∀ x, main x → p x = true)
    (hside₁ : ∀ x, ¬ main x → ∀ s ∈ succs₁ x, ¬ main s)
    (hside₂ : ∀ x, ¬ main x → ∀ s ∈ succs₂ x, ¬ main s)
    (hmain : ∀ x, main x → succs₁ x = succs₂ x) {fuel₁ fuel₂ : ℕ} {nodes r₁ r₂ : List α}
    (h₁ : postOrder succs₁ fuel₁ nodes = some r₁)
    (h₂ : postOrder succs₂ fuel₂ (nodes.filter p) = some r₂) :
    r₁.filter main = r₂.filter main := by
  obtain ⟨a, ha, rfl⟩ := Option.map_eq_some_iff.mp h₁
  obtain ⟨b, hb, rfl⟩ := Option.map_eq_some_iff.mp h₂
  exact (visitAll_agree hp hside₁ hside₂
    (fun n a b a' b' hn hab h₁ h₂ => visitNode_agree hside₁ hside₂ hmain hn hab h₁ h₂)
    (.refl ([], [])) ha hb).result

end Compare

omit [DecidableEq α] in
/-- A node that leads to itself at most is finished before every other node that leads to it. -/
theorem IsPostOrder.mem_of_sink {a l : List α} {x s : α}
    (h : IsPostOrder succs nodes (a ++ x :: l)) (hs : s ∈ succs x) (hself : ∀ m ∈ succs s, m = s)
    (hne : s ≠ x) : s ∈ a := by
  have hstuck : ∀ y, Reaches succs s y → y = s := by
    intro y hy
    induction hy with
    | refl => rfl
    | tail _ hedge ih =>
      rw [ih] at hedge
      exact hself _ hedge
  rcases h.closed x (by simp) s hs with hsub | hreach
  · exact (sublist_pair_append h.nodup).mp hsub
  · exact absurd (hstuck x hreach).symm hne

end TraceScheduler
