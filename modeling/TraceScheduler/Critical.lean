import TraceScheduler.Ddg
import TraceScheduler.Library.LongestPath
import TraceScheduler.Library.PostOrder

/-!
# Critical paths

`topologicalSort` reverses a depth-first post-order; `computeCriticalPath` walks it backwards, sinks
first, and gives each node its delay plus the largest critical path among its successors.

The pass computes critical paths for acyclic graphs and graphs with cycles alike.  In general they
are only known to be nonnegative (`criticalPath_nonneg`, enough for `pickBest` to choose); for a node
on no cycle the recurrence holds of the final values (`criticalPath_eq`).
-/

namespace TraceScheduler

open scoped List

namespace DDG

def topologicalSort (g : DDG) : Option (List InstrId) :=
  (postOrder (fun n => (g.node n).successors) g.nodes.length g.nodes).map List.reverse

def raiseMaxCP (g : DDG) (maxSuccCP : ℤ) (succ : InstrId) : ℤ :=
  if (g.node succ).criticalPath > maxSuccCP then (g.node succ).criticalPath else maxSuccCP

/-- The largest critical path among the successors, zero if there are none. -/
def maxSuccCP (g : DDG) (n : InstrId) : ℤ := (g.node n).successors.foldl (raiseMaxCP g) 0

/-- Set the critical path of one node. -/
def setCriticalPath (g : DDG) (n : InstrId) : DDG :=
  if (g.node n).successors.isEmpty then
    g.setNode n { g.node n with criticalPath := (g.node n).delay }
  else g.setNode n { g.node n with criticalPath := (g.node n).delay + g.maxSuccCP n }

def computeCriticalPath (g : DDG) : Option DDG :=
  g.topologicalSort.map fun topoOrder => topoOrder.reverse.foldl setCriticalPath g

/-! ### What it leaves alone -/

/-- Two graphs that differ in the critical paths only. -/
structure SameShape (g g' : DDG) : Prop where
  nodes : g'.nodes = g.nodes
  successors : ∀ n, (g'.node n).successors = (g.node n).successors
  predecessors : ∀ n, (g'.node n).predecessors = (g.node n).predecessors
  delay : ∀ n, (g'.node n).delay = (g.node n).delay

variable {g g' g'' : DDG} {n m : InstrId}

theorem SameShape.refl : SameShape g g := ⟨rfl, fun _ => rfl, fun _ => rfl, fun _ => rfl⟩

theorem SameShape.trans (h : SameShape g g') (h' : SameShape g' g'') : SameShape g g'' :=
  ⟨h'.nodes.trans h.nodes, fun n => (h'.successors n).trans (h.successors n),
    fun n => (h'.predecessors n).trans (h.predecessors n),
    fun n => (h'.delay n).trans (h.delay n)⟩

theorem SameShape.edge (h : SameShape g g') : g'.Edge n m ↔ g.Edge n m := by
  rw [Edge, Edge, h.successors]

theorem SameShape.wellBuilt (h : SameShape g g') (hg : g.WellBuilt) : g'.WellBuilt where
  nodes_nodup := by rw [h.nodes]; exact hg.nodes_nodup
  succ_nodup := by intro a; rw [h.successors]; exact hg.succ_nodup a
  pred_nodup := by intro a; rw [h.predecessors]; exact hg.pred_nodup a
  mem_predecessors := by intro a b; rw [h.predecessors, h.edge]; exact hg.mem_predecessors
  edge_mem := by intro a b hab; rw [h.nodes]; exact hg.edge_mem (h.edge.mp hab)

theorem sameShape_setNode {cp : ℤ} :
    SameShape g (g.setNode n { g.node n with criticalPath := cp }) := by
  refine ⟨rfl, fun m => ?_, fun m => ?_, fun m => ?_⟩
  all_goals
    rw [setNode_node]
    split
    · rename_i h
      rw [h]
    · rfl

theorem sameShape_setCriticalPath : SameShape g (g.setCriticalPath n) := by
  rw [setCriticalPath]
  split
  · exact sameShape_setNode
  · exact sameShape_setNode

theorem sameShape_foldl (l : List InstrId) : SameShape g (l.foldl setCriticalPath g) := by
  induction l generalizing g with
  | nil => exact .refl
  | cons n l ih => exact sameShape_setCriticalPath.trans ih

theorem sameShape_computeCriticalPath (h : g.computeCriticalPath = some g') : SameShape g g' := by
  obtain ⟨order, _, rfl⟩ := Option.map_eq_some_iff.mp h
  exact sameShape_foldl _

theorem WellBuilt.closed (hg : g.WellBuilt) : ∀ n ∈ g.nodes, ∀ m, g.Edge n m → m ∈ g.nodes :=
  fun _ _ _ hm => (hg.edge_mem hm).2

theorem topologicalSort_spec (hclosed : ∀ n ∈ g.nodes, ∀ m, g.Edge n m → m ∈ g.nodes) :
    ∃ result, g.topologicalSort = some result.reverse ∧
      IsPostOrder (fun n => (g.node n).successors) g.nodes result := by
  obtain ⟨result, hresult⟩ := postOrder_isSome hclosed
  refine ⟨result, ?_, postOrder_spec hclosed hresult⟩
  rw [topologicalSort, hresult]
  rfl

/-- **The reversed post-order of an acyclic graph** has every node once and every edge pointing
forward. -/
theorem topologicalSort_acyclic (hclosed : ∀ n ∈ g.nodes, ∀ m, g.Edge n m → m ∈ g.nodes)
    (hacyclic : ∀ n ∈ g.nodes, ¬ Relation.TransGen g.Edge n n) :
    ∃ order, g.topologicalSort = some order ∧ order.Nodup ∧ (∀ n, n ∈ order ↔ n ∈ g.nodes) ∧
      ∀ a ∈ g.nodes, ∀ b, g.Edge a b → [a, b] <+ order := by
  obtain ⟨result, hsort, hpost⟩ := topologicalSort_spec hclosed
  refine ⟨result.reverse, hsort, List.nodup_reverse.mpr hpost.nodup, ?_, ?_⟩
  · intro n
    rw [List.mem_reverse, hpost.mem_iff]
  · intro a ha b hab
    cases hpost.closed a ((hpost.mem_iff a).mpr ha) b hab with
    | inl hsub => exact hsub.reverse
    | inr hback => exact absurd (Relation.TransGen.head' hab hback) (hacyclic a ha)

theorem computeCriticalPath_of_closed (hclosed : ∀ n ∈ g.nodes, ∀ m, g.Edge n m → m ∈ g.nodes) :
    ∃ g', g.computeCriticalPath = some g' := by
  obtain ⟨result, hsort, _⟩ := topologicalSort_spec hclosed
  exact ⟨_, by rw [computeCriticalPath, hsort]; rfl⟩

theorem computeCriticalPath_isSome (hg : g.WellBuilt) :
    ∃ g', g.computeCriticalPath = some g' :=
  computeCriticalPath_of_closed hg.closed

/-! ### The values -/

theorem maxSuccCP_nonneg : 0 ≤ g.maxSuccCP n := by
  have hgen : ∀ (l : List InstrId) (c : ℤ), 0 ≤ c → 0 ≤ l.foldl (raiseMaxCP g) c := by
    intro l
    induction l with
    | nil => exact fun _ h => h
    | cons s l ih =>
      intro c hc
      refine ih _ ?_
      rw [raiseMaxCP]
      split
      · omega
      · exact hc
  exact hgen _ 0 (Int.le_refl 0)

theorem le_maxSuccCP (hm : m ∈ (g.node n).successors) : (g.node m).criticalPath ≤ g.maxSuccCP n := by
  have hstep : ∀ (c : ℤ) (s : InstrId), c ≤ raiseMaxCP g c s ∧
      (g.node s).criticalPath ≤ raiseMaxCP g c s := by
    intro c s
    rw [raiseMaxCP]
    split <;> omega
  have hgen : ∀ (l : List InstrId) (c : ℤ), c ≤ l.foldl (raiseMaxCP g) c ∧
      ∀ s ∈ l, (g.node s).criticalPath ≤ l.foldl (raiseMaxCP g) c := by
    intro l
    induction l with
    | nil => exact fun c => ⟨Int.le_refl c, by simp⟩
    | cons s l ih =>
      intro c
      obtain ⟨hc, hl⟩ := ih (raiseMaxCP g c s)
      have hs := hstep c s
      rw [List.foldl_cons]
      refine ⟨by omega, ?_⟩
      intro t ht
      cases List.mem_cons.mp ht with
      | inl heq =>
        rw [heq]
        omega
      | inr ht => exact hl t ht
  exact (hgen _ 0).2 m hm

theorem maxSuccCP_congr (hsucc : (g'.node n).successors = (g.node n).successors)
    (hcp : ∀ s ∈ (g.node n).successors, (g'.node s).criticalPath = (g.node s).criticalPath) :
    g'.maxSuccCP n = g.maxSuccCP n := by
  rw [maxSuccCP, maxSuccCP, hsucc]
  refine List.foldl_ext _ _ _ fun c s hs => ?_
  rw [raiseMaxCP, raiseMaxCP, hcp s hs]

theorem setCriticalPath_of_ne (h : m ≠ n) :
    ((g.setCriticalPath n).node m).criticalPath = (g.node m).criticalPath := by
  rw [setCriticalPath]
  split <;> rw [setNode_node, if_neg h]

/-- Both branches give the delay plus the largest critical path of a successor. -/
theorem setCriticalPath_self :
    ((g.setCriticalPath n).node n).criticalPath = (g.node n).delay + g.maxSuccCP n := by
  rw [setCriticalPath]
  split
  · rename_i h
    rw [setNode_node, if_pos rfl, maxSuccCP, List.isEmpty_iff.mp h]
    simp
  · rw [setNode_node, if_pos rfl]

theorem foldl_setCriticalPath_of_not_mem {l : List InstrId} (h : n ∉ l) :
    ((l.foldl setCriticalPath g).node n).criticalPath = (g.node n).criticalPath := by
  induction l generalizing g with
  | nil => rfl
  | cons k l ih =>
    obtain ⟨hnk, hnl⟩ := List.ne_and_not_mem_of_not_mem_cons h
    rw [List.foldl_cons, ih hnl, setCriticalPath_of_ne hnk]

theorem foldl_setCriticalPath_nonneg {l : List InstrId} (hdelay : ∀ n, 0 ≤ (g.node n).delay)
    (hcp : ∀ n, 0 ≤ (g.node n).criticalPath) :
    0 ≤ ((l.foldl setCriticalPath g).node n).criticalPath := by
  induction l generalizing g with
  | nil => exact hcp n
  | cons k l ih =>
    refine ih (fun m => ?_) fun m => ?_
    · rw [sameShape_setCriticalPath.delay]
      exact hdelay m
    · by_cases hm : m = k
      · rw [hm, setCriticalPath_self]
        exact Int.add_nonneg (hdelay k) maxSuccCP_nonneg
      · rw [setCriticalPath_of_ne hm]
        exact hcp m

theorem criticalPath_nonneg (h : g.computeCriticalPath = some g')
    (hdelay : ∀ n, 0 ≤ (g.node n).delay) (hcp : ∀ n, 0 ≤ (g.node n).criticalPath) (n : InstrId) :
    0 ≤ (g'.node n).criticalPath := by
  obtain ⟨order, _, rfl⟩ := Option.map_eq_some_iff.mp h
  exact foldl_setCriticalPath_nonneg hdelay hcp

/-- There is a path of edges, possibly of length zero. -/
abbrev ReachesVia (g : DDG) : InstrId → InstrId → Prop := Relation.ReflTransGen g.Edge

/-- A node is written once. What it takes from a successor is the final value if the successor comes
before it in the order, and the initial value otherwise. -/
theorem foldl_setCriticalPath_eq {l₁ l₂ : List InstrId} (hnd : (l₁ ++ n :: l₂).Nodup) {v : DDG}
    (hv : ∀ s ∈ (g.node n).successors, (v.node s).criticalPath =
      if s ∈ l₁ then (((l₁ ++ n :: l₂).foldl setCriticalPath g).node s).criticalPath
      else (g.node s).criticalPath)
    (hvn : (v.node n).successors = (g.node n).successors) :
    (((l₁ ++ n :: l₂).foldl setCriticalPath g).node n).criticalPath =
      (g.node n).delay + v.maxSuccCP n := by
  have hn₂ : n ∉ l₂ := (List.nodup_cons.mp (List.nodup_append.mp hnd).2.1).1
  have hshape : SameShape g (l₁.foldl setCriticalPath g) := sameShape_foldl l₁
  rw [List.foldl_append, List.foldl_cons, foldl_setCriticalPath_of_not_mem hn₂, setCriticalPath_self,
    hshape.delay]
  congr 1
  refine maxSuccCP_congr ?_ fun s hs => ?_
  · rw [hshape.successors, hvn]
  · rw [hvn] at hs
    rw [hv s hs]
    split
    · rename_i hs₁
      have hs₂ : s ∉ n :: l₂ := fun hs₂ => (List.nodup_append.mp hnd).2.2 s hs₁ s hs₂ rfl
      rw [List.foldl_append, foldl_setCriticalPath_of_not_mem hs₂]
    · rename_i hs₁
      rw [foldl_setCriticalPath_of_not_mem hs₁]

/-- **A node none of whose successors leads back to it** has its delay plus the largest critical
path among its successors, all values final. -/
theorem criticalPath_eq (hclosed : ∀ n ∈ g.nodes, ∀ m, g.Edge n m → m ∈ g.nodes)
    (h : g.computeCriticalPath = some g') (hn : n ∈ g.nodes)
    (hcycle : ∀ m, g.Edge n m → ¬ g.ReachesVia m n) :
    (g'.node n).criticalPath = (g'.node n).delay + g'.maxSuccCP n := by
  have hshape := sameShape_computeCriticalPath h
  obtain ⟨order, horder, rfl⟩ := Option.map_eq_some_iff.mp h
  obtain ⟨result, hresult, rfl⟩ := Option.map_eq_some_iff.mp horder
  rw [List.reverse_reverse] at hshape ⊢
  have hpost := postOrder_spec hclosed hresult
  obtain ⟨l₁, l₂, rfl⟩ := List.append_of_mem ((hpost.mem_iff n).mpr hn)
  rw [hshape.delay]
  refine foldl_setCriticalPath_eq hpost.nodup (fun m hm => ?_) (hshape.successors n)
  -- every successor is finished first, since it does not lead back
  have hm₁ : m ∈ l₁ := by
    rcases hpost.closed n (by simp) m hm with hsub | hreach
    · exact (sublist_pair_append hpost.nodup).mp hsub
    · exact absurd hreach (hcycle m hm)
  rw [if_pos hm₁]

/-- A positive maximum is the critical path of a successor. -/
theorem exists_maxSuccCP (hpos : 0 < g.maxSuccCP n) :
    ∃ m ∈ (g.node n).successors, (g.node m).criticalPath = g.maxSuccCP n := by
  have hgen : ∀ (l : List InstrId) (c : ℤ), l.foldl (raiseMaxCP g) c = c ∨
      ∃ m ∈ l, (g.node m).criticalPath = l.foldl (raiseMaxCP g) c := by
    intro l
    induction l with
    | nil => exact fun c => .inl rfl
    | cons s l ih =>
      intro c
      rw [List.foldl_cons]
      rcases ih (raiseMaxCP g c s) with hsame | ⟨m, hm, hcp⟩
      · rw [hsame, raiseMaxCP]
        split
        · exact .inr ⟨s, List.mem_cons_self, rfl⟩
        · exact .inl rfl
      · exact .inr ⟨m, List.mem_cons_of_mem _ hm, hcp⟩
  rcases hgen (g.node n).successors 0 with hzero | hmem
  · rw [maxSuccCP, hzero] at hpos
    exact absurd hpos (Int.lt_irrefl 0)
  · exact hmem

/-- **Critical paths solve the recurrence** on an acyclic graph with positive delays, whatever they
were before. -/
theorem isPathLength_criticalPath (hclosed : ∀ n ∈ g.nodes, ∀ m, g.Edge n m → m ∈ g.nodes)
    (hdelay : ∀ n ∈ g.nodes, 0 < (g.node n).delay)
    (hacyclic : ∀ n ∈ g.nodes, ¬ Relation.TransGen g.Edge n n)
    (h : g.computeCriticalPath = some g') :
    (∀ n ∈ g.nodes, 0 < (g'.node n).criticalPath) ∧
      IsPathLength (fun n => (g.node n).successors) (fun n => (g.node n).delay) g.nodes
        fun n => (g'.node n).criticalPath := by
  have hshape := sameShape_computeCriticalPath h
  have heq : ∀ n ∈ g.nodes, (g'.node n).criticalPath = (g.node n).delay + g'.maxSuccCP n := by
    intro n hn
    rw [← hshape.delay]
    apply criticalPath_eq hclosed h hn
    intro m hm hback
    exact hacyclic n hn (Relation.TransGen.head' hm hback)
  have hpos : ∀ n ∈ g.nodes, 0 < (g'.node n).criticalPath := by
    intro n hn
    have hmax : 0 ≤ g'.maxSuccCP n := maxSuccCP_nonneg
    have hd := hdelay n hn
    rw [heq n hn]
    omega
  have hsuccs : ∀ {n m}, m ∈ (g.node n).successors → m ∈ (g'.node n).successors := by
    intro n m hm
    rw [hshape.successors]
    exact hm
  refine ⟨hpos, hclosed, ?_, ?_, ?_⟩
  · intro n hn hsink
    have hmax : g'.maxSuccCP n = 0 := by
      rw [maxSuccCP, hshape.successors, hsink, List.foldl_nil]
    rw [heq n hn, hmax, Int.add_zero]
  · intro n hn m hm
    have hle := le_maxSuccCP (hsuccs hm)
    rw [heq n hn]
    omega
  · intro n hn hne
    obtain ⟨s, hs⟩ := List.exists_mem_of_ne_nil _ hne
    have hle := le_maxSuccCP (hsuccs hs)
    have hspos := hpos s (hclosed n hn s hs)
    obtain ⟨m, hm, hcp⟩ := exists_maxSuccCP (g := g') (n := n) (by omega)
    rw [hshape.successors] at hm
    exact ⟨m, hm, by rw [heq n hn, hcp]⟩

/-- **Critical paths fall along every edge** of a graph without cycles, delays being positive. -/
theorem criticalPath_lt (hg : g.WellBuilt) (h : g.computeCriticalPath = some g')
    (hdelay : ∀ n, 0 < (g.node n).delay) (hacyclic : ∀ n, ¬ Relation.TransGen g.Edge n n)
    (hedge : g.Edge n m) : (g'.node m).criticalPath < (g'.node n).criticalPath := by
  obtain ⟨_, hlength⟩ := isPathLength_criticalPath hg.closed (fun n _ => hdelay n)
    (fun n _ => hacyclic n) h
  have hstep := hlength.step n (hg.edge_mem hedge).1 m hedge
  have hpos := hdelay n
  omega

/-- Every node has its delay plus the largest critical path among its successors. -/
abbrev ConsistentPriorities (g : DDG) : Prop :=
  IsPathLength (fun n => (g.node n).successors) (fun n => (g.node n).delay) g.nodes
    fun n => (g.node n).criticalPath

theorem SameShape.consistentPriorities (h : SameShape g g') : g'.ConsistentPriorities ↔
    IsPathLength (fun n => (g.node n).successors) (fun n => (g.node n).delay) g.nodes
      fun n => (g'.node n).criticalPath := by
  rw [ConsistentPriorities, h.nodes]
  simp only [h.successors, h.delay]

/-- **Priorities are consistent exactly on acyclic graphs**, delays being positive. -/
theorem consistentPriorities_iff (hclosed : ∀ n ∈ g.nodes, ∀ m, g.Edge n m → m ∈ g.nodes)
    (hdelay : ∀ n ∈ g.nodes, 0 < (g.node n).delay) (h : g.computeCriticalPath = some g') :
    g'.ConsistentPriorities ↔ ∀ n ∈ g.nodes, ¬ Relation.TransGen g.Edge n n := by
  rw [(sameShape_computeCriticalPath h).consistentPriorities]
  constructor
  · intro hlength n hn
    exact hlength.acyclic hdelay hn
  · intro hacyclic
    exact (isPathLength_criticalPath hclosed hdelay hacyclic h).2

/-- **Critical paths are longest paths**: the greatest sum of delays on a path to a node without
successors. The nodes and the successors come in any order, and the critical paths start with any
values. -/
theorem computeCriticalPath_longest (g : DDG)
    (hclosed : ∀ n ∈ g.nodes, ∀ m, g.Edge n m → m ∈ g.nodes)
    (hdelay : ∀ n ∈ g.nodes, 0 < (g.node n).delay)
    (hacyclic : ∀ n ∈ g.nodes, ¬ Relation.TransGen g.Edge n n) :
    (∃ order, g.topologicalSort = some order ∧ order.Nodup ∧ (∀ n, n ∈ order ↔ n ∈ g.nodes) ∧
      ∀ a ∈ g.nodes, ∀ b, g.Edge a b → [a, b] <+ order) ∧
    ∃ g', g.computeCriticalPath = some g' ∧ ∀ n ∈ g.nodes,
      IsGreatest {w | ∃ path, SinkPath (fun n => (g.node n).successors) n path ∧
        w = pathWeight (fun n => (g.node n).delay) path} (g'.node n).criticalPath := by
  refine ⟨topologicalSort_acyclic hclosed hacyclic, ?_⟩
  obtain ⟨g', h⟩ := computeCriticalPath_of_closed hclosed
  obtain ⟨hpos, hlength⟩ := isPathLength_criticalPath hclosed hdelay hacyclic h
  refine ⟨g', h, ?_⟩
  intro n hn
  exact hlength.isGreatest hdelay (fun m hm => Int.le_of_lt (hpos m hm)) hn

/-- A load, a multiplication of what it loads, and their sum; with values left from before. -/
def loadMulAdd : DDG where
  nodes := [1, 0, 2]
  node i := [⟨3, 7, 0, [2, 1], []⟩, ⟨2, -4, 0, [2], [0]⟩].getD i ⟨1, 9, 0, [], [0, 1]⟩

theorem loadMulAdd_longest :
    (∃ order, loadMulAdd.topologicalSort = some order ∧ order.Nodup ∧
      (∀ n, n ∈ order ↔ n ∈ loadMulAdd.nodes) ∧
      ∀ a ∈ loadMulAdd.nodes, ∀ b, loadMulAdd.Edge a b → [a, b] <+ order) ∧
    ∃ g', loadMulAdd.computeCriticalPath = some g' ∧ ∀ n ∈ loadMulAdd.nodes,
      IsGreatest {w | ∃ path, SinkPath (fun n => (loadMulAdd.node n).successors) n path ∧
        w = pathWeight (fun n => (loadMulAdd.node n).delay) path} (g'.node n).criticalPath := by
  have hedges : ∀ a ∈ loadMulAdd.nodes, ∀ b ∈ (loadMulAdd.node a).successors,
      b ∈ loadMulAdd.nodes ∧ a < b := by decide
  have hclosed : ∀ n ∈ loadMulAdd.nodes, ∀ m, loadMulAdd.Edge n m → m ∈ loadMulAdd.nodes :=
    fun n hn m hm => (hedges n hn m hm).1
  apply computeCriticalPath_longest loadMulAdd hclosed (by decide)
  -- edges go to larger numbers
  have hlt : ∀ n ∈ loadMulAdd.nodes, ∀ m, Relation.TransGen loadMulAdd.Edge n m →
      m ∈ loadMulAdd.nodes ∧ n < m := by
    intro n hn m hnm
    induction hnm with
    | single hedge => exact hedges n hn _ hedge
    | tail _ hedge ih =>
      obtain ⟨hmem, hlt⟩ := hedges _ ih.1 _ hedge
      exact ⟨hmem, ih.2.trans hlt⟩
  intro n hn hcycle
  exact Nat.lt_irrefl n (hlt n hn n hcycle).2

/-- A node that leads to itself at most has its own delay. -/
theorem criticalPath_sink (hinit : ∀ n, (g.node n).criticalPath = 0) {order : List InstrId}
    (hnd : order.Nodup) (hn : n ∈ order) (hsink : ∀ m ∈ (g.node n).successors, m = n) :
    ((order.foldl setCriticalPath g).node n).criticalPath = (g.node n).delay := by
  obtain ⟨l₁, l₂, rfl⟩ := List.append_of_mem hn
  have hn₁ : n ∉ l₁ := fun h => (List.nodup_append.mp hnd).2.2 n h n List.mem_cons_self rfl
  have hmax : g.maxSuccCP n = 0 := by
    have hgen : ∀ l : List InstrId, l.foldl (raiseMaxCP g) 0 = 0 := by
      intro l
      induction l with
      | nil => rfl
      | cons m l ih =>
        rw [List.foldl_cons, raiseMaxCP, hinit m, if_neg (Int.lt_irrefl 0)]
        exact ih
    exact hgen _
  rw [foldl_setCriticalPath_eq hnd (v := g) (fun m hm => ?_) rfl, hmax, Int.add_zero]
  rw [hsink m hm, if_neg hn₁]

/-- **Two graphs with the same main nodes give them the same critical paths**, when the main nodes
have the same delays and successors in both, no other node leads to a main one, and the other nodes
they lead to are sinks. -/
theorem criticalPath_congr {g₁ g₂ g₁' g₂' : DDG} (main : InstrId → Prop) [DecidablePred main]
    {p : InstrId → Bool} (hg₁ : g₁.WellBuilt) (hg₂ : g₂.WellBuilt)
    (h₁ : g₁.computeCriticalPath = some g₁') (h₂ : g₂.computeCriticalPath = some g₂')
    (hnodes : g₂.nodes = g₁.nodes.filter p) (hp : ∀ x, main x → p x = true)
    (hside₁ : ∀ x, ¬ main x → ∀ s ∈ (g₁.node x).successors, ¬ main s)
    (hside₂ : ∀ x, ¬ main x → ∀ s ∈ (g₂.node x).successors, ¬ main s)
    (hmain : ∀ x, main x → (g₁.node x).successors = (g₂.node x).successors)
    (hdelay : ∀ x, (g₁.node x).delay = (g₂.node x).delay)
    (hinit₁ : ∀ x, (g₁.node x).criticalPath = 0) (hinit₂ : ∀ x, (g₂.node x).criticalPath = 0)
    (hsink : ∀ x, main x → ∀ s ∈ (g₁.node x).successors, ¬ main s →
      (∀ m ∈ (g₁.node s).successors, m = s) ∧ ∀ m ∈ (g₂.node s).successors, m = s)
    {x : InstrId} (hx : x ∈ g₁.nodes) (hxm : main x) :
    (g₁'.node x).criticalPath = (g₂'.node x).criticalPath := by
  obtain ⟨order₁, horder₁, rfl⟩ := Option.map_eq_some_iff.mp h₁
  obtain ⟨r₁, hr₁, rfl⟩ := Option.map_eq_some_iff.mp horder₁
  obtain ⟨order₂, horder₂, rfl⟩ := Option.map_eq_some_iff.mp h₂
  obtain ⟨r₂, hr₂, rfl⟩ := Option.map_eq_some_iff.mp horder₂
  rw [List.reverse_reverse, List.reverse_reverse]
  have hpost₁ := postOrder_spec (fun n _ m hm => (hg₁.edge_mem hm).2) hr₁
  have hpost₂ := postOrder_spec (fun n _ m hm => (hg₂.edge_mem hm).2) hr₂
  have hagree : r₁.filter main = r₂.filter main := by
    rw [hnodes] at hr₂
    exact postOrder_agree hp hside₁ hside₂ hmain hr₁ hr₂
  induction hk : (r₁.filter main).idxOf x using Nat.strong_induction_on generalizing x with
  | _ k ih =>
    have hx₁ : x ∈ r₁ := (hpost₁.mem_iff x).mpr hx
    have hx₂ : x ∈ r₂ := by
      have : x ∈ r₂.filter main := hagree ▸ List.mem_filter.mpr ⟨hx₁, by simpa using hxm⟩
      exact List.mem_of_mem_filter this
    obtain ⟨a₁, l₁, hsplit₁⟩ := List.append_of_mem hx₁
    obtain ⟨a₂, l₂, hsplit₂⟩ := List.append_of_mem hx₂
    have hnd₁ := hpost₁.nodup
    have hnd₂ := hpost₂.nodup
    rw [hsplit₁] at hnd₁
    rw [hsplit₂] at hnd₂
    -- the main nodes before `x` are the same in both orders
    have hfilter : a₁.filter main = a₂.filter main := by
      rw [hsplit₁, hsplit₂] at hagree
      exact filter_eq_of_split hxm hnd₁ hnd₂ hagree
    have hmem : ∀ s, main s → (s ∈ a₁ ↔ s ∈ a₂) := by
      intro s hs
      have h := congrArg (s ∈ ·) hfilter
      simpa [hs] using h
    -- what `x` takes from its successors, as a graph of its own
    let v : DDG := ⟨g₁.nodes, fun s =>
      { g₁.node s with
        criticalPath := if s ∈ a₁ then ((r₁.foldl setCriticalPath g₁).node s).criticalPath else 0 }⟩
    have hv₂ : ∀ s ∈ (g₂.node x).successors, (v.node s).criticalPath =
        if s ∈ a₂ then ((r₂.foldl setCriticalPath g₂).node s).criticalPath
        else (g₂.node s).criticalPath := by
      intro s hs
      rw [← hmain x hxm] at hs
      show (if s ∈ a₁ then ((r₁.foldl setCriticalPath g₁).node s).criticalPath else 0) = _
      by_cases hsm : main s
      · by_cases hs₁ : s ∈ a₁
        · rw [if_pos hs₁, if_pos ((hmem s hsm).mp hs₁)]
          have hlt : (r₁.filter main).idxOf s < k := by
            rw [← hk, hsplit₁]
            exact idxOf_filter_lt hxm hsm hnd₁ hs₁
          exact ih _ hlt (hg₁.edge_mem hs).2 hsm rfl
        · rw [if_neg hs₁, if_neg fun h => hs₁ ((hmem s hsm).mpr h), hinit₂]
      · obtain ⟨hself₁, hself₂⟩ := hsink x hxm s hs hsm
        have hne : s ≠ x := fun he => hsm (he ▸ hxm)
        have hs₁ : s ∈ a₁ := (hsplit₁ ▸ hpost₁).mem_of_sink hs hself₁ hne
        have hs₂ : s ∈ a₂ := (hsplit₂ ▸ hpost₂).mem_of_sink (hmain x hxm ▸ hs) hself₂ hne
        rw [if_pos hs₁, if_pos hs₂, criticalPath_sink hinit₁ hpost₁.nodup
          (by rw [hsplit₁]; exact List.mem_append_left _ hs₁) hself₁, criticalPath_sink hinit₂
          hpost₂.nodup (by rw [hsplit₂]; exact List.mem_append_left _ hs₂) hself₂, hdelay]
    have hv₁ : ∀ s ∈ (g₁.node x).successors, (v.node s).criticalPath =
        if s ∈ a₁ then ((r₁.foldl setCriticalPath g₁).node s).criticalPath
        else (g₁.node s).criticalPath := by
      intro s _
      rw [hinit₁]
    have hx₁' : ((r₁.foldl setCriticalPath g₁).node x).criticalPath =
        (g₁.node x).delay + v.maxSuccCP x := by
      rw [hsplit₁] at hv₁ ⊢
      exact foldl_setCriticalPath_eq hnd₁ hv₁ rfl
    have hx₂' : ((r₂.foldl setCriticalPath g₂).node x).criticalPath =
        (g₂.node x).delay + v.maxSuccCP x := by
      rw [hsplit₂] at hv₂ ⊢
      exact foldl_setCriticalPath_eq hnd₂ hv₂ (hmain x hxm)
    rw [hx₁', hx₂', hdelay]

end DDG

theorem getDelay_pos (I : Instruction) : 0 < getDelay I := by
  rw [getDelay]
  split <;> decide

end TraceScheduler
