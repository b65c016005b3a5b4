import TraceScheduler.ScheduleLegality

/-!
# Dependence graphs

A `DDG` has one node for each instruction it covers.  The source keeps nodes behind pointers; here a
node is found by its instruction, so the graph is the node list in creation order and a table.

`buildDDG` (one trace) and `addEdge` follow the source.  Its two nests of loops are written as the
lists of `addEdge` calls they make, in order: `trueDependenceEdges` and `memoryOrderEdges`.  Whatever
list of edges is added, the result is `WellBuilt` (`WellBuilt.addEdges`): both adjacency lists are
duplicate-free and agree, and the edges are exactly those of the list (`edge_addEdges`).
-/

namespace TraceScheduler

open scoped List

structure DDGNode where
  delay : ℤ
  criticalPath : ℤ
  predCount : ℤ
  successors : List InstrId
  predecessors : List InstrId
  deriving DecidableEq, Repr

structure DDG where
  nodes : List InstrId
  node : InstrId → DDGNode

/-- The latency model. -/
def getDelay (I : Instruction) : ℤ :=
  match I.opcode with
  | .load => 3
  | .store => 1
  | .call => 5
  | .mul => 2
  | .udiv | .sdiv => 10
  | _ => 1

namespace DDG

/-- Write one node. -/
def setNode (g : DDG) (i : InstrId) (n : DDGNode) : DDG :=
  { g with node := Function.update g.node i n }

def addEdge (g : DDG) (src dst : InstrId) : DDG :=
  if (g.node src).successors.contains dst then g
  else
    let g := g.setNode src
      { g.node src with successors := (g.node src).successors ++ [dst] }
    g.setNode dst
      { g.node dst with
        predecessors := (g.node dst).predecessors ++ [src]
        predCount := (g.node dst).predCount + 1 }

def addEdges (g : DDG) (edges : List (InstrId × InstrId)) : DDG :=
  edges.foldl (fun g e => g.addEdge e.1 e.2) g

/-- A graph without edges. -/
def ofNodes (F : Function) (nodes : List InstrId) : DDG where
  nodes := nodes
  node i := ⟨getDelay (F.instr i), 0, 0, [], []⟩

end DDG

/-- Operations that keep their original order: they may observe or change program state. -/
def isOrderedOp (I : Instruction) : Bool :=
  I.isCallBase || I.mayReadOrWriteMemory || I.mayHaveSideEffects

/-- An edge to every ordered operation from each one before it in the list. -/
def memoryOrderEdges (F : Function) : List InstrId → List InstrId → List (InstrId × InstrId)
  | _, [] => []
  | orderedOps, i :: rest =>
      if isOrderedOp (F.instr i) then
        orderedOps.map (fun prev => (prev, i)) ++ memoryOrderEdges F (orderedOps ++ [i]) rest
      else memoryOrderEdges F orderedOps rest

/-- The instructions among the operands. -/
def operandInstructions (I : Instruction) : List InstrId :=
  I.operands.filterMap fun v =>
    match v with
    | .instruction d => some d
    | _ => none

/-- The nodes of a trace's graph: everything but PHIs. -/
def traceNodes (F : Function) (trace : List BasicBlock) : List InstrId :=
  trace.flatMap fun bb => (F.body bb).filter fun i => !(F.instr i).isPHI

/-- The true dependences of a trace. PHIs and terminators are skipped at both ends. -/
def trueDependenceEdges (F : Function) (trace : List BasicBlock) : List (InstrId × InstrId) :=
  trace.flatMap fun bb => (F.body bb).flatMap fun i =>
    if (F.instr i).isPHI then []
    else if (F.instr i).isTerminator then []
    else
      ((operandInstructions (F.instr i)).filter fun d =>
        !(F.instr d).isPHI && !(F.instr d).isTerminator && (traceNodes F trace).contains d).map
          fun d => (d, i)

/-- The original order of memory operations and calls, block by block. -/
def traceMemoryEdges (F : Function) (trace : List BasicBlock) : List (InstrId × InstrId) :=
  trace.flatMap fun bb => (memoryOrderEdges F [] (F.body bb)).filter fun e =>
    (traceNodes F trace).contains e.1 && (traceNodes F trace).contains e.2

/-- The graph of one trace. -/
def buildDDG (F : Function) (trace : List BasicBlock) : DDG :=
  ((DDG.ofNodes F (traceNodes F trace)).addEdges (trueDependenceEdges F trace)).addEdges
    (traceMemoryEdges F trace)

/-! ### What adding edges builds -/

namespace DDG

variable {g : DDG} {a b i src dst : InstrId} {edges : List (InstrId × InstrId)}

/-- `b` must come after `a`. -/
def Edge (g : DDG) (a b : InstrId) : Prop := b ∈ (g.node a).successors

/-- The graphs that `addEdge` builds on nodes without edges. -/
structure WellBuilt (g : DDG) : Prop where
  nodes_nodup : g.nodes.Nodup
  succ_nodup : ∀ a, (g.node a).successors.Nodup
  pred_nodup : ∀ a, (g.node a).predecessors.Nodup
  mem_predecessors : ∀ {a b}, a ∈ (g.node b).predecessors ↔ g.Edge a b
  edge_mem : ∀ {a b}, g.Edge a b → a ∈ g.nodes ∧ b ∈ g.nodes

theorem setNode_node (n : DDGNode) :
    (g.setNode i n).node a = if a = i then n else g.node a := Function.update_apply ..

@[simp] theorem setNode_nodes (n : DDGNode) : (g.setNode i n).nodes = g.nodes := rfl

@[simp] theorem addEdge_nodes : (g.addEdge src dst).nodes = g.nodes := by
  rw [addEdge]
  split <;> rfl

/-- The adjacency lists after one call of `addEdge`. -/
theorem addEdge_successors : ((g.addEdge src dst).node a).successors =
    if a = src ∧ dst ∉ (g.node src).successors then (g.node a).successors ++ [dst]
    else (g.node a).successors := by
  rw [addEdge]
  by_cases hmem : dst ∈ (g.node src).successors
  · simp [hmem]
  · simp only [List.contains_iff_mem, hmem, if_false, not_false_eq_true, and_true, setNode_node]
    by_cases hd : a = dst
    · subst hd
      by_cases hs : a = src
      · simp [hs]
      · simp [hs]
    · by_cases hs : a = src
      · simp [hs, show ¬ src = dst from hs ▸ hd]
      · simp [hs, hd]

theorem addEdge_predecessors : ((g.addEdge src dst).node b).predecessors =
    if b = dst ∧ dst ∉ (g.node src).successors then (g.node b).predecessors ++ [src]
    else (g.node b).predecessors := by
  rw [addEdge]
  by_cases hmem : dst ∈ (g.node src).successors
  · simp [hmem]
  · simp only [List.contains_iff_mem, hmem, if_false, not_false_eq_true, and_true, setNode_node]
    by_cases hd : b = dst
    · subst hd
      by_cases hs : b = src
      · simp [hs]
      · simp [hs]
    · by_cases hs : b = src
      · simp [hs, show ¬ src = dst from hs ▸ hd]
      · simp [hs, hd]

theorem addEdge_delay : ((g.addEdge src dst).node a).delay = (g.node a).delay := by
  rw [addEdge]
  split
  · rfl
  · simp only [setNode_node]
    split
    · rename_i h
      subst h
      split
      · rename_i h
        rw [h]
      · rfl
    · split
      · rename_i h
        rw [h]
      · rfl

theorem addEdge_criticalPath :
    ((g.addEdge src dst).node a).criticalPath = (g.node a).criticalPath := by
  rw [addEdge]
  split
  · rfl
  · simp only [setNode_node]
    split
    · rename_i h
      subst h
      split
      · rename_i h
        rw [h]
      · rfl
    · split
      · rename_i h
        rw [h]
      · rfl

theorem edge_addEdge : (g.addEdge src dst).Edge a b ↔ g.Edge a b ∨ (a = src ∧ b = dst) := by
  rw [Edge, Edge, addEdge_successors]
  split
  · rename_i h
    rw [List.mem_append, List.mem_singleton]
    simp [h.1]
  · rename_i h
    constructor
    · exact .inl
    · rintro (h' | ⟨rfl, rfl⟩)
      · exact h'
      · simpa using h

theorem WellBuilt.addEdge (h : g.WellBuilt) (hsrc : src ∈ g.nodes) (hdst : dst ∈ g.nodes) :
    (g.addEdge src dst).WellBuilt where
  nodes_nodup := by simpa using h.nodes_nodup
  succ_nodup := by
    intro a
    rw [addEdge_successors]
    split
    · rename_i hnew
      obtain ⟨rfl, hnew⟩ := hnew
      exact List.nodup_append.mpr ⟨h.succ_nodup a, List.nodup_singleton _, fun x hx y hy he =>
        hnew (by rw [← List.mem_singleton.mp hy, ← he]; exact hx)⟩
    · exact h.succ_nodup a
  pred_nodup := by
    intro b
    rw [addEdge_predecessors]
    split
    · rename_i hnew
      obtain ⟨rfl, hnew⟩ := hnew
      refine List.nodup_append.mpr ⟨h.pred_nodup b, List.nodup_singleton _, fun x hx y hy he => ?_⟩
      obtain rfl := List.mem_singleton.mp hy
      subst he
      exact hnew (h.mem_predecessors.mp hx)
    · exact h.pred_nodup b
  mem_predecessors := by
    intro a b
    rw [edge_addEdge, addEdge_predecessors]
    split
    · rename_i hnew
      rw [List.mem_append, List.mem_singleton, h.mem_predecessors]
      simp [hnew.1]
    · rename_i hold
      rw [h.mem_predecessors]
      constructor
      · exact .inl
      · rintro (h' | ⟨rfl, rfl⟩)
        · exact h'
        · simpa [Edge] using hold
  edge_mem := by
    intro a b hab
    rw [addEdge_nodes]
    rcases edge_addEdge.mp hab with hab | ⟨rfl, rfl⟩
    · exact h.edge_mem hab
    · exact ⟨hsrc, hdst⟩

@[simp] theorem addEdges_nodes : (g.addEdges edges).nodes = g.nodes := by
  induction edges generalizing g with
  | nil => rfl
  | cons e es ih => rw [addEdges, List.foldl_cons, ← addEdges, ih, addEdge_nodes]

theorem addEdges_delay : ((g.addEdges edges).node a).delay = (g.node a).delay := by
  induction edges generalizing g with
  | nil => rfl
  | cons e es ih => rw [addEdges, List.foldl_cons, ← addEdges, ih, addEdge_delay]

theorem addEdges_criticalPath :
    ((g.addEdges edges).node a).criticalPath = (g.node a).criticalPath := by
  induction edges generalizing g with
  | nil => rfl
  | cons e es ih => rw [addEdges, List.foldl_cons, ← addEdges, ih, addEdge_criticalPath]

theorem edge_addEdges : (g.addEdges edges).Edge a b ↔ g.Edge a b ∨ (a, b) ∈ edges := by
  induction edges generalizing g with
  | nil => simp [addEdges]
  | cons e es ih =>
    rw [addEdges, List.foldl_cons, ← addEdges, ih, edge_addEdge, List.mem_cons, or_assoc]
    simp only [Prod.ext_iff]

/-- A list of successors after one more edge. -/
def addSuccessor (successors : List InstrId) (dst : InstrId) : List InstrId :=
  if dst ∈ successors then successors else successors ++ [dst]

/-- A node's successors depend on the edges that leave it, in their order. -/
theorem addEdges_successors : ((g.addEdges edges).node a).successors =
    ((edges.filter fun e => e.1 = a).map Prod.snd).foldl addSuccessor (g.node a).successors := by
  induction edges generalizing g with
  | nil => rfl
  | cons e es ih =>
    rw [addEdges, List.foldl_cons, ← addEdges, ih, addEdge_successors]
    by_cases he : e.1 = a
    · subst he
      rw [List.filter_cons_of_pos (by simp), List.map_cons, List.foldl_cons, addSuccessor]
      by_cases hmem : e.2 ∈ (g.node e.1).successors
      · rw [if_pos hmem, if_neg fun h => h.2 hmem]
      · rw [if_neg hmem, if_pos ⟨rfl, hmem⟩]
    · rw [List.filter_cons_of_neg (by simpa using he), if_neg fun h => he h.1.symm]

theorem WellBuilt.addEdges (h : g.WellBuilt) (hedges : ∀ e ∈ edges, e.1 ∈ g.nodes ∧ e.2 ∈ g.nodes) :
    (g.addEdges edges).WellBuilt := by
  induction edges generalizing g with
  | nil => exact h
  | cons e es ih =>
    obtain ⟨h1, h2⟩ := hedges e List.mem_cons_self
    rw [DDG.addEdges, List.foldl_cons, ← DDG.addEdges]
    exact ih (h.addEdge h1 h2) fun e' he' => by simpa using hedges e' (List.mem_cons_of_mem _ he')

theorem wellBuilt_ofNodes {F : Function} {nodes : List InstrId} (h : nodes.Nodup) :
    (ofNodes F nodes).WellBuilt :=
  ⟨h, fun _ => List.nodup_nil, fun _ => List.nodup_nil, by simp [ofNodes, Edge], by
    simp [ofNodes, Edge]⟩

theorem not_edge_ofNodes {F : Function} {nodes : List InstrId} : ¬ (ofNodes F nodes).Edge a b := by
  simp [ofNodes, Edge]

end DDG

theorem mem_operandInstructions {I : Instruction} {d : InstrId} :
    d ∈ operandInstructions I ↔ Value.instruction d ∈ I.operands := by
  rw [operandInstructions, List.mem_filterMap]
  constructor
  · rintro ⟨v, hv, heq⟩
    cases v with
    | instruction i =>
      obtain rfl := Option.some.inj heq
      exact hv
    | argument n => cases heq
    | constant n => cases heq
  · exact fun h => ⟨_, h, rfl⟩

/-- Memory edges lead from one ordered operation to a later one. -/
theorem mem_memoryOrderEdges {F : Function} {orderedOps l : List InstrId} {a b : InstrId} :
    (a, b) ∈ memoryOrderEdges F orderedOps l ↔
      isOrderedOp (F.instr b) = true ∧
        ((a ∈ orderedOps ∧ b ∈ l) ∨ (isOrderedOp (F.instr a) = true ∧ [a, b] <+ l)) := by
  induction l generalizing orderedOps with
  | nil => simp [memoryOrderEdges]
  | cons i rest ih =>
    have hcons : [a, b] <+ (i :: rest) ↔ [a, b] <+ rest ∨ (a = i ∧ b ∈ rest) := by
      rw [List.sublist_cons_iff]
      refine or_congr_right ⟨?_, ?_⟩
      · rintro ⟨r, heq, hr⟩
        obtain ⟨rfl, rfl⟩ := List.cons.inj heq
        exact ⟨rfl, List.singleton_sublist.mp hr⟩
      · rintro ⟨rfl, hb⟩
        exact ⟨[b], rfl, List.singleton_sublist.mpr hb⟩
    rw [memoryOrderEdges, hcons]
    split
    · rename_i hi
      simp only [List.mem_append, List.mem_map, Prod.mk.injEq, ih, List.mem_cons,
        List.not_mem_nil, or_false]
      constructor
      · rintro (⟨_, ha, rfl, rfl⟩ | ⟨hb, ⟨ha | rfl, hmem⟩ | ⟨ha, hsub⟩⟩)
        · exact ⟨hi, .inl ⟨ha, .inl rfl⟩⟩
        · exact ⟨hb, .inl ⟨ha, .inr hmem⟩⟩
        · exact ⟨hb, .inr ⟨hi, .inr ⟨rfl, hmem⟩⟩⟩
        · exact ⟨hb, .inr ⟨ha, .inl hsub⟩⟩
      · rintro ⟨hb, ⟨ha, rfl | hmem⟩ | ⟨ha, hsub | ⟨rfl, hmem⟩⟩⟩
        · exact .inl ⟨a, ha, rfl, rfl⟩
        · exact .inr ⟨hb, .inl ⟨.inl ha, hmem⟩⟩
        · exact .inr ⟨hb, .inr ⟨ha, hsub⟩⟩
        · exact .inr ⟨hb, .inl ⟨.inr rfl, hmem⟩⟩
    · rename_i hi
      rw [ih, List.mem_cons]
      constructor
      · rintro ⟨hb, ⟨ha, hmem⟩ | ⟨ha, hsub⟩⟩
        · exact ⟨hb, .inl ⟨ha, .inr hmem⟩⟩
        · exact ⟨hb, .inr ⟨ha, .inl hsub⟩⟩
      · rintro ⟨hb, ⟨ha, rfl | hmem⟩ | ⟨ha, hsub | ⟨rfl, hmem⟩⟩⟩
        · exact absurd hb hi
        · exact ⟨hb, .inl ⟨ha, hmem⟩⟩
        · exact ⟨hb, .inr ⟨ha, hsub⟩⟩
        · exact absurd ha hi

/-! ### The graph of a trace -/

section

variable {F : Function} {trace : List BasicBlock} {a b i : InstrId}

theorem mem_traceNodes :
    i ∈ traceNodes F trace ↔ ∃ bb ∈ trace, i ∈ F.body bb ∧ (F.instr i).isPHI = false := by
  simp [traceNodes]

theorem mem_trueDependenceEdges : (a, b) ∈ trueDependenceEdges F trace ↔
    a ∈ traceNodes F trace ∧ (F.instr a).isTerminator = false ∧
      b ∈ traceNodes F trace ∧ (F.instr b).isTerminator = false ∧ F.Uses b a := by
  rw [trueDependenceEdges, List.mem_flatMap]
  simp only [List.mem_flatMap]
  constructor
  · rintro ⟨bb, hbb, i, hi, hmem⟩
    split at hmem
    · cases hmem
    · rename_i hphi
      split at hmem
      · cases hmem
      · rename_i hterm
        obtain ⟨d, hd, heq⟩ := List.mem_map.mp hmem
        obtain ⟨rfl, rfl⟩ := Prod.mk.inj heq
        obtain ⟨huse, hd⟩ := List.mem_filter.mp hd
        simp only [Bool.and_eq_true, Bool.not_eq_true', List.contains_iff_mem] at hd
        exact ⟨hd.2, hd.1.2, mem_traceNodes.mpr ⟨bb, hbb, hi, by simpa using hphi⟩,
          by simpa using hterm, mem_operandInstructions.mp huse⟩
  · rintro ⟨ha, hat, hb, hbt, huse⟩
    obtain ⟨bb, hbb, hbmem, hbphi⟩ := mem_traceNodes.mp hb
    refine ⟨bb, hbb, b, hbmem, ?_⟩
    rw [if_neg (by simp [hbphi]), if_neg (by simp [hbt])]
    refine List.mem_map.mpr ⟨a, List.mem_filter.mpr ⟨mem_operandInstructions.mpr huse, ?_⟩, rfl⟩
    obtain ⟨_, _, _, haphi⟩ := mem_traceNodes.mp ha
    simp [haphi, hat, ha]

theorem mem_traceMemoryEdges : (a, b) ∈ traceMemoryEdges F trace ↔
    a ∈ traceNodes F trace ∧ isOrderedOp (F.instr a) = true ∧
      b ∈ traceNodes F trace ∧ isOrderedOp (F.instr b) = true ∧
        ∃ bb ∈ trace, [a, b] <+ (F.body bb) := by
  rw [traceMemoryEdges, List.mem_flatMap]
  constructor
  · rintro ⟨bb, hbb, hmem⟩
    obtain ⟨hmem, hnodes⟩ := List.mem_filter.mp hmem
    simp only [Bool.and_eq_true, List.contains_iff_mem] at hnodes
    obtain ⟨hb, ⟨hnil, _⟩ | ⟨ha, hsub⟩⟩ := mem_memoryOrderEdges.mp hmem
    · cases hnil
    · exact ⟨hnodes.1, ha, hnodes.2, hb, bb, hbb, hsub⟩
  · rintro ⟨ha, haop, hb, hbop, bb, hbb, hsub⟩
    refine ⟨bb, hbb, List.mem_filter.mpr ⟨mem_memoryOrderEdges.mpr ⟨hbop, .inr ⟨haop, hsub⟩⟩, ?_⟩⟩
    simp [ha, hb]

@[simp] theorem buildDDG_nodes : (buildDDG F trace).nodes = traceNodes F trace := by
  rw [buildDDG, DDG.addEdges_nodes, DDG.addEdges_nodes]
  rfl

theorem edge_buildDDG : (buildDDG F trace).Edge a b ↔
    (a, b) ∈ trueDependenceEdges F trace ∨ (a, b) ∈ traceMemoryEdges F trace := by
  rw [buildDDG, DDG.edge_addEdges, DDG.edge_addEdges]
  simp [DDG.not_edge_ofNodes]

theorem buildDDG_delay : ((buildDDG F trace).node i).delay = getDelay (F.instr i) := by
  rw [buildDDG, DDG.addEdges_delay, DDG.addEdges_delay]
  rfl

theorem buildDDG_criticalPath : ((buildDDG F trace).node i).criticalPath = 0 := by
  rw [buildDDG, DDG.addEdges_criticalPath, DDG.addEdges_criticalPath]
  rfl

theorem wellBuilt_buildDDG (hnd : (traceNodes F trace).Nodup) : (buildDDG F trace).WellBuilt := by
  refine DDG.WellBuilt.addEdges (DDG.WellBuilt.addEdges (DDG.wellBuilt_ofNodes hnd) ?_) ?_
  · rintro ⟨a, b⟩ hab
    obtain ⟨ha, _, hb, _⟩ := mem_trueDependenceEdges.mp hab
    exact ⟨ha, hb⟩
  · rintro ⟨a, b⟩ hab
    obtain ⟨ha, _, hb, _⟩ := mem_traceMemoryEdges.mp hab
    rw [DDG.addEdges_nodes]
    exact ⟨ha, hb⟩

end

end TraceScheduler
