import TraceScheduler.Library.BreadthFirst
import Mathlib.Order.Lattice.Nat

/-!
# Depths in breadth-first order

The depth of a block is the number of blocks on a shortest path to it.  `IsBreadthFirst` alone also
holds of other search orders; what makes the order breadth-first is that the worklist is a queue
(`FirstIn`): no block is discovered later than the blocks after it could have been.  From that,
**positions extend the order of depths** (`depth_le_of_idxOf_le`), on any graph.
-/

namespace TraceScheduler

namespace FlowGraph

variable {B : Type*} {G : FlowGraph B} {b u v : B} {l : List B}

/-- The number of blocks on a shortest path to `b`. -/
noncomputable def depth (G : FlowGraph B) (b : B) : ℕ := sInf {n | ∃ l, G.Path b l ∧ l.length = n}

theorem depth_le_of_path (h : G.Path b l) : G.depth b ≤ l.length := Nat.sInf_le ⟨l, h, rfl⟩

theorem Reachable.exists_depth (h : G.Reachable b) : ∃ l, G.Path b l ∧ l.length = G.depth b := by
  obtain ⟨l, hl⟩ := h
  exact Nat.sInf_mem (s := {n | ∃ l, G.Path b l ∧ l.length = n}) ⟨l.length, l, hl, rfl⟩

variable [DecidableEq B] {order ss : List B} {i fuel : ℕ}

/-- Every block but the entry was discovered from a block not after `i`, and not after any block from
which it, or one that stands later, could have been discovered. -/
def FirstIn (G : FlowGraph B) (i : ℕ) (order : List B) : Prop :=
  ∀ v ∈ order, v = G.entry ∨ ∃ u ∈ order, v ∈ G.succs u ∧ order.idxOf u ≤ i ∧
    ∀ w ∈ order, order.idxOf v ≤ order.idxOf w → ∀ x ∈ order, w ∈ G.succs x →
      order.idxOf u ≤ order.idxOf x

theorem idxOf_append_new {s : B} (hnew : s ∉ order) : (order ++ [s]).idxOf s = order.length := by
  rw [List.idxOf_append_of_notMem hnew]
  simp

/-- Discovering one block from the block at index `i`. -/
theorem FirstIn.push {s : B} (h : FirstIn G i order) (hinv : BfsInv G i order) (hb : b ∈ order)
    (hi : order.idxOf b = i) (hs : s ∈ G.succs b) (hnew : s ∉ order) :
    FirstIn G i (order ++ [s]) := by
  have hold : ∀ {w}, w ∈ order → (order ++ [s]).idxOf w = order.idxOf w :=
    fun hw => List.idxOf_append_of_mem hw
  have hlen : i < order.length := hi ▸ List.idxOf_lt_length_of_mem hb
  -- the new block could not have been discovered before index `i`
  have hlate : ∀ x ∈ order ++ [s], s ∈ G.succs x → i ≤ (order ++ [s]).idxOf x := by
    intro x hx hsx
    cases List.mem_append.mp hx with
    | inl hx =>
      rw [hold hx]
      by_contra hlt
      exact hnew (hinv.closed x hx (by omega) s hsx)
    | inr hx =>
      rw [List.mem_singleton.mp hx, idxOf_append_new hnew]
      omega
  intro v hv
  cases List.mem_append.mp hv with
  | inl hv =>
    cases h v hv with
    | inl hentry => exact .inl hentry
    | inr hparent =>
      obtain ⟨u, hu, hvu, hui, hfirst⟩ := hparent
      refine .inr ⟨u, List.mem_append_left _ hu, hvu, by rw [hold hu]; exact hui, ?_⟩
      intro w hw hle x hx hwx
      rw [hold hu]
      cases List.mem_append.mp hw with
      | inl hw =>
        cases List.mem_append.mp hx with
        | inl hx =>
          rw [hold hv, hold hw] at hle
          rw [hold hx]
          exact hfirst w hw hle x hx hwx
        | inr hx =>
          rw [List.mem_singleton.mp hx, idxOf_append_new hnew]
          omega
      | inr hw =>
        rw [List.mem_singleton.mp hw] at hwx
        exact hui.trans (hlate x hx hwx)
  | inr hv =>
    obtain rfl := List.mem_singleton.mp hv
    refine .inr ⟨b, List.mem_append_left _ hb, hs, by rw [hold hb, hi], ?_⟩
    intro w hw hle x hx hwx
    rw [hold hb, hi]
    cases List.mem_append.mp hw with
    | inl hw =>
      -- nothing stands after the new block
      rw [idxOf_append_new hnew, hold hw] at hle
      have := List.idxOf_lt_length_of_mem hw
      omega
    | inr hw =>
      rw [List.mem_singleton.mp hw] at hwx
      exact hlate x hx hwx

theorem FirstIn.visitSuccs (h : FirstIn G i order) (hinv : BfsInv G i order) (hb : b ∈ order)
    (hi : order.idxOf b = i) (hss : ∀ s ∈ ss, s ∈ G.succs b) :
    FirstIn G i (visitSuccs order ss) := by
  induction ss generalizing order with
  | nil => exact h
  | cons s ss ih =>
    have hss' : ∀ s ∈ ss, s ∈ G.succs b := fun x hx => hss x (List.mem_cons_of_mem _ hx)
    have hs := hss s List.mem_cons_self
    rw [FlowGraph.visitSuccs, List.foldl_cons, ← FlowGraph.visitSuccs]
    split
    · exact ih h hinv hb hi hss'
    · rename_i hnew
      have hlen := List.idxOf_lt_length_of_mem hb
      apply ih (h.push hinv hb hi hs hnew) (hinv.push hb (by omega) hs hnew)
        (List.mem_append_left _ hb) _ hss'
      rw [List.idxOf_append_of_mem hb]
      exact hi

theorem bfsLoop_firstIn {result : List B} (h : FirstIn G i order) (hinv : BfsInv G i order)
    (hrun : bfsLoop G fuel i order = some result) : ∃ n, FirstIn G n result := by
  induction fuel generalizing i order with
  | zero => cases hrun
  | succ fuel ih =>
    rw [bfsLoop] at hrun
    cases hb : order[i]? with
    | none =>
      rw [hb] at hrun
      obtain rfl := Option.some.inj hrun
      exact ⟨i, h⟩
    | some b =>
      rw [hb] at hrun
      obtain ⟨hi, hbi⟩ := List.getElem?_eq_some_iff.mp hb
      have hbmem : b ∈ order := hbi ▸ List.getElem_mem hi
      have hidx : order.idxOf b = i := by
        rw [← hbi]
        exact hinv.nodup.idxOf_getElem i hi
      have hnext := h.visitSuccs hinv hbmem hidx fun _ hs => hs
      apply ih _ (hinv.step hb) hrun
      intro v hv
      cases hnext v hv with
      | inl hentry => exact .inl hentry
      | inr hparent =>
        obtain ⟨u, hu, hvu, hui, hfirst⟩ := hparent
        exact .inr ⟨u, hu, hvu, Nat.le_succ_of_le hui, hfirst⟩

/-- A path leads to every block of the order that is no longer than a given path to the same or a
later block. -/
theorem FirstIn.exists_path (h : FirstIn G i order) (hbfs : IsBreadthFirst G order)
    (hpath : G.Path b l) (hv : v ∈ order) (hle : order.idxOf v ≤ order.idxOf b) :
    ∃ l', G.Path v l' ∧ l'.length ≤ l.length := by
  have hentry : ∀ {b l}, G.Path b l → ∃ l', G.Path G.entry l' ∧ l'.length ≤ l.length := by
    intro b l hpath
    obtain ⟨t, rfl⟩ := hpath.exists_cons
    exact ⟨[G.entry], .entry, by simp⟩
  induction hpath generalizing v with
  | entry =>
    -- nothing stands before the entry
    have hzero := hbfs.idxOf_entry
    have hvh : v = G.entry := (hbfs.idxOf_eq_zero hv).mp (by omega)
    rw [hvh]
    exact hentry .entry
  | @step x w t hx hwx ih =>
    cases h v hv with
    | inl hvh =>
      rw [hvh]
      exact hentry (hx.step hwx)
    | inr hparent =>
      obtain ⟨u, hu, hvu, _, hfirst⟩ := hparent
      have hxo : x ∈ order := hbfs.mem_iff.mpr ⟨t, hx⟩
      have hwo : w ∈ order := hbfs.closed x hxo w hwx
      obtain ⟨l', hl', hlen⟩ := ih hu (hfirst w hwo hle x hxo hwx)
      refine ⟨v :: l', hl'.step hvu, ?_⟩
      rw [List.length_cons, List.length_cons]
      omega

/-- **Breadth-first positions extend the order of depths.** -/
theorem depth_le_of_idxOf_le (h : G.breadthFirst fuel = some order) (hu : u ∈ order) (hv : v ∈ order)
    (hle : order.idxOf u ≤ order.idxOf v) : G.depth u ≤ G.depth v := by
  have hbfs := breadthFirst_spec h
  have hinit : FirstIn G 0 [G.entry] := fun v hv => .inl (List.mem_singleton.mp hv)
  obtain ⟨n, hfirst⟩ := bfsLoop_firstIn hinit bfsInv_init h
  obtain ⟨l, hl, hlen⟩ := (hbfs.mem_iff.mp hv).exists_depth
  obtain ⟨l', hl', hlen'⟩ := hfirst.exists_path hbfs hl hu hle
  have := depth_le_of_path hl'
  omega

end FlowGraph

end TraceScheduler
