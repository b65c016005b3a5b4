import TraceScheduler.TraceIdentification
import Mathlib.Data.List.Count

/-!
# Trace statistics

While traces grow, every edge that is looked at is counted, and a block may be looked at from both
sides: forward from its predecessors and backward from its successors.  Yet no edge is counted twice,
because an edge is looked at from an end that is in a trace towards one that is in none, and each block
is scanned once in each direction.  So the counters are a tally of different edges of the function
(`identifyTraces_tally`).
-/

namespace TraceScheduler

open scoped List

/-- The edges of the control-flow graph, as often as they occur. -/
def Function.edges (F : Function) : List (BasicBlock × BasicBlock) :=
  F.blocks.flatMap fun u => (F.successors u).map fun v => (u, v)

/-- A predecessor is listed once for each edge. -/
def Function.PredsCounted (F : Function) : Prop :=
  ∀ b p, (F.preds b).count p = (F.successors p).count b

/-- Above the threshold. -/
def likely (profile : Profile) (threshold : ℕ) (e : BasicBlock × BasicBlock) : Bool :=
  decide (threshold < profile.edgeProbability e.1 e.2)

/-- Against the order of the search. -/
def goesBack (bfsOrder : List BasicBlock) (e : BasicBlock × BasicBlock) : Bool :=
  decide (bfsPos bfsOrder e.2 < bfsPos bfsOrder e.1)

variable {F : Function} {profile : Profile} {threshold : ℕ} {bfsOrder : List BasicBlock}
  {examined : List (BasicBlock × BasicBlock)} {stats : TraceIdStats}

/-- The counters, when these edges have been looked at. -/
structure Counts (profile : Profile) (threshold : ℕ) (bfsOrder : List BasicBlock)
    (examined : List (BasicBlock × BasicBlock)) (stats : TraceIdStats) : Prop where
  above : stats.edgesAboveThreshold = examined.countP (likely profile threshold)
  below : stats.edgesBelowThreshold = examined.countP fun e => !likely profile threshold e
  back : stats.backedgesSkipped =
    examined.countP fun e => likely profile threshold e && goesBack bfsOrder e

/-- Likely edges go back or do not. -/
theorem countP_likely (profile : Profile) (threshold : ℕ) (bfsOrder : List BasicBlock)
    (l : List (BasicBlock × BasicBlock)) : l.countP (likely profile threshold) =
      l.countP (fun e => likely profile threshold e && goesBack bfsOrder e) +
        l.countP fun e => likely profile threshold e && !goesBack bfsOrder e := by
  rw [List.countP_eq_countP_filter_add l (likely profile threshold) (goesBack bfsOrder),
    List.countP_filter, List.countP_filter]

theorem Counts.below_one (h : Counts profile threshold bfsOrder examined stats)
    {e : BasicBlock × BasicBlock} (he : likely profile threshold e = false) :
    Counts profile threshold bfsOrder (examined ++ [e]) (stats.countBelow true) where
  above := by simp [TraceIdStats.countBelow, List.countP_append, he, h.above]
  below := by simp [TraceIdStats.countBelow, List.countP_append, he, h.below]
  back := by simp [TraceIdStats.countBelow, List.countP_append, he, h.back]

theorem Counts.above_one (h : Counts profile threshold bfsOrder examined stats)
    {e : BasicBlock × BasicBlock} (he : likely profile threshold e = true)
    (hback : goesBack bfsOrder e = false) :
    Counts profile threshold bfsOrder (examined ++ [e]) (stats.countAbove true) where
  above := by simp [TraceIdStats.countAbove, List.countP_append, he, h.above]
  below := by simp [TraceIdStats.countAbove, List.countP_append, he, h.below]
  back := by simp [TraceIdStats.countAbove, List.countP_append, hback, h.back]

theorem Counts.back_one (h : Counts profile threshold bfsOrder examined stats)
    {e : BasicBlock × BasicBlock} (he : likely profile threshold e = true)
    (hback : goesBack bfsOrder e = true) :
    Counts profile threshold bfsOrder (examined ++ [e])
      ((stats.countAbove true).countBackedge true) where
  above := by
    simp [TraceIdStats.countAbove, TraceIdStats.countBackedge, List.countP_append, he, h.above]
  below := by
    simp [TraceIdStats.countAbove, TraceIdStats.countBackedge, List.countP_append, he, h.below]
  back := by
    simp [TraceIdStats.countAbove, TraceIdStats.countBackedge, List.countP_append, he, hback, h.back]

/-! ### One scan -/

section

variable {prob : BasicBlock → ℕ} {isBackEdge : BasicBlock → Bool} {visited : List BasicBlock}
  {edgeOf : BasicBlock → BasicBlock × BasicBlock}

/-- The edges a scan looks at: those to neighbours that are in no trace. -/
def scanned (edgeOf : BasicBlock → BasicBlock × BasicBlock) (visited l : List BasicBlock) :
    List (BasicBlock × BasicBlock) :=
  (l.filter fun b => !visited.contains b).map edgeOf

theorem mem_scanned {l : List BasicBlock} {e : BasicBlock × BasicBlock} :
    e ∈ scanned edgeOf visited l ↔ ∃ b ∈ l, b ∉ visited ∧ edgeOf b = e := by
  simp [scanned, and_assoc]

variable (hprob : ∀ x, decide (threshold < prob x) = likely profile threshold (edgeOf x))
  (hback : ∀ x, isBackEdge x = goesBack bfsOrder (edgeOf x))

include hprob hback

/-- One neighbour. -/
theorem Counts.considerEdge {acc : BestEdge}
    (h : Counts profile threshold bfsOrder examined acc.stats) (x : BasicBlock) :
    Counts profile threshold bfsOrder (examined ++ scanned edgeOf visited [x])
      (TraceScheduler.considerEdge threshold true prob isBackEdge visited acc x).stats := by
  rw [TraceScheduler.considerEdge]
  split
  · rename_i hvisited
    have hnone : scanned edgeOf visited [x] = [] := by
      rw [scanned, List.filter_singleton, hvisited]
      rfl
    rw [hnone, List.append_nil]
    exact h
  · rename_i hvisited
    rw [Bool.not_eq_true] at hvisited
    have hone : scanned edgeOf visited [x] = [edgeOf x] := by
      rw [scanned, List.filter_singleton, hvisited]
      rfl
    rw [hone]
    split
    · rename_i hunlikely
      apply h.below_one
      rw [← hprob]
      exact decide_eq_false (by omega)
    · rename_i hlikely
      have he : likely profile threshold (edgeOf x) = true := by
        rw [← hprob]
        exact decide_eq_true (by omega)
      dsimp only
      split
      · rename_i hisback
        exact h.back_one he ((hback x).symm.trans hisback)
      · rename_i hisback
        have hforward : goesBack bfsOrder (edgeOf x) = false := by
          rw [← hback x]
          simpa using hisback
        split
        · exact h.above_one he hforward
        · exact h.above_one he hforward

/-- **The counters of a scan.** -/
theorem Counts.scan (l : List BasicBlock) {acc : BestEdge}
    (h : Counts profile threshold bfsOrder examined acc.stats) :
    Counts profile threshold bfsOrder (examined ++ scanned edgeOf visited l)
      (l.foldl (TraceScheduler.considerEdge threshold true prob isBackEdge visited) acc).stats := by
  induction l generalizing acc examined with
  | nil =>
    rw [scanned, List.filter_nil, List.map_nil, List.append_nil]
    exact h
  | cons x l ih =>
    have hhead : Counts profile threshold bfsOrder (examined ++ scanned edgeOf visited [x])
        (TraceScheduler.considerEdge threshold true prob isBackEdge visited acc x).stats :=
      h.considerEdge hprob hback x
    have hnext := ih hhead
    rw [List.append_assoc] at hnext
    have hsplit : scanned edgeOf visited (x :: l) =
        scanned edgeOf visited [x] ++ scanned edgeOf visited l := by
      rw [scanned, scanned, scanned, ← List.map_append, ← List.filter_append]
      rfl
    rw [hsplit]
    exact hnext

end

/-! ### The tally -/

/-- What has been looked at: forward from the blocks `fwd` and backward from the blocks `bwd`.  Of the
edges counted as likely and not as back edges, `joins` have been used to grow traces. -/
structure Tally (F : Function) (profile : Profile) (threshold : ℕ)
    (bfsOrder fwd bwd visited : List BasicBlock)
    (examined : List (BasicBlock × BasicBlock)) (joins : ℕ) (stats : TraceIdStats) : Prop where
  counts : Counts profile threshold bfsOrder examined stats
  fwd_sub : ∀ b ∈ fwd, b ∈ visited
  bwd_sub : ∀ b ∈ bwd, b ∈ visited
  seen_from : ∀ e ∈ examined, e.1 ∈ fwd ∨ e.2 ∈ bwd
  count_le : ∀ e, examined.count e ≤ (F.successors e.1).count e.2
  joins_le : stats.backedgesSkipped + joins ≤ stats.edgesAboveThreshold

variable {fwd bwd fwd' bwd' visited : List BasicBlock} {joins : ℕ} {bb : BasicBlock}

/-- One scan that looks at new edges only. -/
theorem Tally.scan {prob : BasicBlock → ℕ} {isBackEdge : BasicBlock → Bool}
    {edgeOf : BasicBlock → BasicBlock × BasicBlock} {l : List BasicBlock} {r : BestEdge}
    (h : Tally F profile threshold bfsOrder fwd bwd visited examined joins stats)
    (hprob : ∀ x, decide (threshold < prob x) = likely profile threshold (edgeOf x))
    (hback : ∀ x, isBackEdge x = goesBack bfsOrder (edgeOf x))
    (hr : l.foldl (considerEdge threshold true prob isBackEdge visited) ⟨none, 0, stats⟩ = r)
    (hnew : ∀ e ∈ scanned edgeOf visited l, e ∉ examined)
    (hcount : ∀ e ∈ scanned edgeOf visited l,
      (scanned edgeOf visited l).count e ≤ (F.successors e.1).count e.2)
    (hfrom : ∀ e ∈ scanned edgeOf visited l, e.1 ∈ fwd' ∨ e.2 ∈ bwd')
    (hfwd : ∀ b ∈ fwd, b ∈ fwd') (hbwd : ∀ b ∈ bwd, b ∈ bwd') (hfwd' : ∀ b ∈ fwd', b ∈ visited)
    (hbwd' : ∀ b ∈ bwd', b ∈ visited) :
    Tally F profile threshold bfsOrder fwd' bwd' visited (examined ++ scanned edgeOf visited l)
      (joins + r.best.toList.length) r.stats ∧
      ∀ b, r.best = some b → b ∉ visited ∧ edgeOf b ∈ examined ++ scanned edgeOf visited l := by
  have hcounts : Counts profile threshold bfsOrder (examined ++ scanned edgeOf visited l) r.stats := by
    have hinit : Counts profile threshold bfsOrder examined (BestEdge.mk none 0 stats).stats := h.counts
    rw [← hr]
    exact hinit.scan hprob hback l
  have hbest : ∀ b, r.best = some b → b ∉ visited ∧ edgeOf b ∈ scanned edgeOf visited l ∧
      likely profile threshold (edgeOf b) = true ∧ goesBack bfsOrder (edgeOf b) = false := by
    intro b hb
    rw [← hr] at hb
    rcases foldl_considerEdge_spec hb with hb | ⟨hmem, hnot, hlikely, hforward⟩
    · cases hb
    · refine ⟨hnot, mem_scanned.mpr ⟨b, hmem, hnot, rfl⟩, ?_, ?_⟩
      · rw [← hprob]
        exact decide_eq_true hlikely
      · rw [← hback]
        exact hforward
  refine ⟨⟨hcounts, hfwd', hbwd', ?_, ?_, ?_⟩, fun b hb =>
    ⟨(hbest b hb).1, List.mem_append_right _ (hbest b hb).2.1⟩⟩
  · intro e he
    rcases List.mem_append.mp he with he | he
    · exact (h.seen_from e he).imp (hfwd _) (hbwd _)
    · exact hfrom e he
  · intro e
    rw [List.count_append]
    by_cases he : e ∈ scanned edgeOf visited l
    · rw [List.count_eq_zero_of_not_mem (hnew e he), Nat.zero_add]
      exact hcount e he
    · rw [List.count_eq_zero_of_not_mem he, Nat.add_zero]
      exact h.count_le e
  · -- the best edge is one of the new likely edges that do not go back
    have hbefore := h.joins_le
    rw [h.counts.back, h.counts.above, countP_likely profile threshold bfsOrder] at hbefore
    rw [hcounts.back, hcounts.above, countP_likely profile threshold bfsOrder, List.countP_append,
      List.countP_append]
    have hone : r.best.toList.length ≤ (scanned edgeOf visited l).countP
        fun e => likely profile threshold e && !goesBack bfsOrder e := by
      cases hb : r.best with
      | none => exact Nat.zero_le _
      | some b =>
        obtain ⟨_, hmem, hlikely, hforward⟩ := hbest b hb
        have hgood : (likely profile threshold (edgeOf b) && !goesBack bfsOrder (edgeOf b)) = true := by
          rw [hlikely, hforward]
          rfl
        exact List.countP_pos_iff.mpr ⟨edgeOf b, hmem, hgood⟩
    omega

theorem count_scanned_le (edgeOf : BasicBlock → BasicBlock × BasicBlock) (visited l : List BasicBlock)
    (e : BasicBlock × BasicBlock) : (scanned edgeOf visited l).count e ≤ (l.map edgeOf).count e :=
  (List.filter_sublist.map edgeOf).count_le e

theorem count_map_fst_le (l : List BasicBlock) (v : BasicBlock) (e : BasicBlock × BasicBlock) :
    (l.map fun u => (u, v)).count e ≤ l.count e.1 := by
  have hle := List.count_le_count_map (f := Prod.fst) (l := l.map fun u => (u, v)) (x := e)
  rwa [List.map_map, show Prod.fst ∘ (fun u => (u, v)) = id from rfl, List.map_id] at hle

theorem count_map_snd_le (l : List BasicBlock) (u : BasicBlock) (e : BasicBlock × BasicBlock) :
    (l.map fun v => (u, v)).count e ≤ l.count e.2 := by
  have hle := List.count_le_count_map (f := Prod.snd) (l := l.map fun v => (u, v)) (x := e)
  rwa [List.map_map, show Prod.snd ∘ (fun v => (u, v)) = id from rfl, List.map_id] at hle

/-- **Looking forward from a block** that has not been scanned in this direction. -/
theorem Tally.forward {next : Option BasicBlock} {stats' : TraceIdStats}
    (h : Tally F profile threshold bfsOrder fwd bwd visited examined joins stats)
    (hbb : bb ∈ visited) (hnew : bb ∉ fwd)
    (hbest : bestSuccessor F profile threshold true bfsOrder visited stats bb = (next, stats')) :
    ∃ examined', (∀ e ∈ examined, e ∈ examined') ∧
      Tally F profile threshold bfsOrder (bb :: fwd) bwd visited examined'
        (joins + next.toList.length) stats' ∧
      ∀ b, next = some b → b ∉ visited ∧ (bb, b) ∈ examined' := by
  obtain ⟨hnext, hstats⟩ := Prod.mk.inj hbest
  refine ⟨examined ++ scanned (fun v => (bb, v)) visited (F.successors bb),
    fun e he => List.mem_append_left _ he, ?_⟩
  rw [← hnext, ← hstats]
  refine h.scan (fun _ => rfl) (fun _ => rfl) rfl ?_ ?_ ?_ (fun b hb => List.mem_cons_of_mem _ hb)
    (fun b hb => hb) (List.forall_mem_cons.mpr ⟨hbb, h.fwd_sub⟩) h.bwd_sub
  · -- one end is scanned for the first time, and the other is in no trace
    intro e he hold
    obtain ⟨v, _, hv, rfl⟩ := mem_scanned.mp he
    rcases h.seen_from _ hold with hfrom | hfrom
    · exact hnew hfrom
    · exact hv (h.bwd_sub v hfrom)
  · intro e he
    have hle := count_scanned_le (fun v => (bb, v)) visited (F.successors bb) e
    obtain ⟨v, _, _, rfl⟩ := mem_scanned.mp he
    exact hle.trans (count_map_snd_le (F.successors bb) bb (bb, v))
  · intro e he
    obtain ⟨v, _, _, rfl⟩ := mem_scanned.mp he
    exact .inl List.mem_cons_self

/-- **Looking backward.** -/
theorem Tally.backward (hcounted : F.PredsCounted) {prev : Option BasicBlock} {stats' : TraceIdStats}
    (h : Tally F profile threshold bfsOrder fwd bwd visited examined joins stats)
    (hbb : bb ∈ visited) (hnew : bb ∉ bwd)
    (hbest : bestPredecessor F profile threshold true bfsOrder visited stats bb = (prev, stats')) :
    ∃ examined', (∀ e ∈ examined, e ∈ examined') ∧
      Tally F profile threshold bfsOrder fwd (bb :: bwd) visited examined'
        (joins + prev.toList.length) stats' ∧
      ∀ b, prev = some b → b ∉ visited ∧ (b, bb) ∈ examined' := by
  obtain ⟨hprev, hstats⟩ := Prod.mk.inj hbest
  refine ⟨examined ++ scanned (fun u => (u, bb)) visited (F.preds bb),
    fun e he => List.mem_append_left _ he, ?_⟩
  rw [← hprev, ← hstats]
  refine h.scan (fun _ => rfl) (fun _ => rfl) rfl ?_ ?_ ?_ (fun b hb => hb)
    (fun b hb => List.mem_cons_of_mem _ hb) h.fwd_sub (List.forall_mem_cons.mpr ⟨hbb, h.bwd_sub⟩)
  · intro e he hold
    obtain ⟨u, _, hu, rfl⟩ := mem_scanned.mp he
    rcases h.seen_from _ hold with hfrom | hfrom
    · exact hu (h.fwd_sub u hfrom)
    · exact hnew hfrom
  · intro e he
    have hle := count_scanned_le (fun u => (u, bb)) visited (F.preds bb) e
    obtain ⟨u, _, _, rfl⟩ := mem_scanned.mp he
    have hpreds := count_map_fst_le (F.preds bb) bb (u, bb)
    rw [hcounted bb u] at hpreds
    exact hle.trans hpreds
  · intro e he
    obtain ⟨u, _, _, rfl⟩ := mem_scanned.mp he
    exact .inr List.mem_cons_self

/-- A block more that is in a trace. -/
theorem Tally.visit (h : Tally F profile threshold bfsOrder fwd bwd visited examined joins stats)
    (b : BasicBlock) : Tally F profile threshold bfsOrder fwd bwd (b :: visited) examined joins stats :=
  ⟨h.counts, fun c hc => List.mem_cons_of_mem _ (h.fwd_sub c hc),
    fun c hc => List.mem_cons_of_mem _ (h.bwd_sub c hc), h.seen_from, h.count_le, h.joins_le⟩

/-! ### Growing traces -/

/-- Every edge of the trace has been looked at. -/
def Joined (examined : List (BasicBlock × BasicBlock)) (trace : List BasicBlock) : Prop :=
  trace.IsChain fun a b => (a, b) ∈ examined

theorem Joined.mono {examined' : List (BasicBlock × BasicBlock)} {trace : List BasicBlock}
    (h : Joined examined trace) (hsub : ∀ e ∈ examined, e ∈ examined') : Joined examined' trace :=
  List.IsChain.imp (fun _ _ hab => hsub _ hab) h

/-- A trace being grown, when `base` joins belong to other traces. -/
structure GrowTally (F : Function) (profile : Profile) (threshold : ℕ)
    (bfsOrder fwd bwd : List BasicBlock) (examined : List (BasicBlock × BasicBlock))
    (base joins : ℕ) (st : GrowState) : Prop where
  tally : Tally F profile threshold bfsOrder fwd bwd st.visited examined joins st.stats
  joined : Joined examined st.trace
  trace_sub : ∀ b ∈ st.trace, b ∈ st.visited
  length_eq : st.trace.length + base = joins + 1

variable {fuel base : ℕ} {current next prev : BasicBlock} {st st' : GrowState}
  {examined' : List (BasicBlock × BasicBlock)}

theorem GrowTally.append (h : GrowTally F profile threshold bfsOrder fwd bwd examined base joins st)
    (htally : Tally F profile threshold bfsOrder fwd' bwd st.visited examined' (joins + 1) stats)
    (hsub : ∀ e ∈ examined, e ∈ examined') (hlast : st.trace.getLast? = some current)
    (hedge : (current, next) ∈ examined') :
    GrowTally F profile threshold bfsOrder fwd' bwd examined' base (joins + 1)
      ⟨st.trace ++ [next], next :: st.visited, stats⟩ := by
  refine ⟨htally.visit next, List.isChain_append.mpr ⟨h.joined.mono hsub, List.isChain_singleton _, ?_⟩,
    fun b hb => ?_, ?_⟩
  · intro a ha b hb
    rw [hlast] at ha
    obtain rfl := Option.some.inj ha
    obtain rfl := Option.some.inj hb
    exact hedge
  · rcases List.mem_append.mp hb with hb | hb
    · exact List.mem_cons_of_mem _ (h.trace_sub b hb)
    · exact List.mem_cons.mpr (.inl (List.mem_singleton.mp hb))
  · have := h.length_eq
    rw [List.length_append, List.length_singleton]
    omega

theorem GrowTally.cons (h : GrowTally F profile threshold bfsOrder fwd bwd examined base joins st)
    (htally : Tally F profile threshold bfsOrder fwd bwd' st.visited examined' (joins + 1) stats)
    (hsub : ∀ e ∈ examined, e ∈ examined') (hhead : st.trace.head? = some current)
    (hedge : (prev, current) ∈ examined') :
    GrowTally F profile threshold bfsOrder fwd bwd' examined' base (joins + 1)
      ⟨prev :: st.trace, prev :: st.visited, stats⟩ := by
  refine ⟨htally.visit prev, List.isChain_cons.mpr ⟨fun b hb => ?_, h.joined.mono hsub⟩,
    fun b hb => ?_, ?_⟩
  · rw [hhead] at hb
    obtain rfl := Option.some.inj hb
    exact hedge
  · rcases List.mem_cons.mp hb with rfl | hb
    · exact List.mem_cons_self
    · exact List.mem_cons_of_mem _ (h.trace_sub b hb)
  · have := h.length_eq
    rw [List.length_cons]
    omega

theorem growForward_tally
    (h : GrowTally F profile threshold bfsOrder fwd bwd examined base joins st)
    (hnew : current ∉ fwd) (hlast : st.trace.getLast? = some current)
    (hrun : growForward F profile threshold true bfsOrder fuel current st = some st') :
    ∃ fwd' examined' joins', (∀ e ∈ examined, e ∈ examined') ∧ st'.trace.head? = st.trace.head? ∧
      GrowTally F profile threshold bfsOrder fwd' bwd examined' base joins' st' := by
  induction fuel generalizing current st fwd examined joins with
  | zero => cases hrun
  | succ fuel ih =>
    rw [growForward] at hrun
    cases hbest : bestSuccessor F profile threshold true bfsOrder st.visited st.stats current with
    | mk next stats =>
      rw [hbest] at hrun
      have hcur := h.trace_sub current (List.mem_of_getLast? hlast)
      obtain ⟨examined', hsub, htally, hjoin⟩ := h.tally.forward hcur hnew hbest
      cases next with
      | none =>
        obtain rfl := Option.some.inj hrun
        exact ⟨current :: fwd, examined', joins, hsub, rfl, htally, h.joined.mono hsub, h.trace_sub,
          h.length_eq⟩
      | some next =>
        obtain ⟨hnext, hedge⟩ := hjoin next rfl
        have hnew' : next ∉ current :: fwd := fun hmem => hnext (htally.fwd_sub next hmem)
        have hgrown := h.append htally hsub hlast hedge
        obtain ⟨fwd', examined'', joins', hsub', hhead, hrest⟩ :=
          ih hgrown hnew' List.getLast?_concat hrun
        refine ⟨fwd', examined'', joins', fun e he => hsub' e (hsub e he), ?_, hrest⟩
        refine hhead.trans (List.head?_append_of_ne_nil _ ?_)
        intro hnil
        rw [hnil] at hlast
        cases hlast

theorem growBackward_tally (hcounted : F.PredsCounted)
    (h : GrowTally F profile threshold bfsOrder fwd bwd examined base joins st)
    (hnew : current ∉ bwd) (hhead : st.trace.head? = some current)
    (hrun : growBackward F profile threshold true bfsOrder fuel current st = some st') :
    ∃ bwd' examined' joins', (∀ e ∈ examined, e ∈ examined') ∧
      GrowTally F profile threshold bfsOrder fwd bwd' examined' base joins' st' := by
  induction fuel generalizing current st bwd examined joins with
  | zero => cases hrun
  | succ fuel ih =>
    rw [growBackward] at hrun
    cases hbest : bestPredecessor F profile threshold true bfsOrder st.visited st.stats current with
    | mk prev stats =>
      rw [hbest] at hrun
      have hcur := h.trace_sub current (List.mem_of_head? hhead)
      obtain ⟨examined', hsub, htally, hjoin⟩ := h.tally.backward hcounted hcur hnew hbest
      cases prev with
      | none =>
        obtain rfl := Option.some.inj hrun
        exact ⟨current :: bwd, examined', joins, hsub, htally, h.joined.mono hsub, h.trace_sub,
          h.length_eq⟩
      | some prev =>
        obtain ⟨hprev, hedge⟩ := hjoin prev rfl
        have hnew' : prev ∉ current :: bwd := fun hmem => hprev (htally.bwd_sub prev hmem)
        have hgrown := h.cons htally hsub hhead hedge
        obtain ⟨bwd', examined'', joins', hsub', hrest⟩ := ih hgrown hnew' rfl hrun
        exact ⟨bwd', examined'', joins', fun e he => hsub' e (hsub e he), hrest⟩

theorem growTrace_tally (hcounted : F.PredsCounted) {seed : BasicBlock}
    (h : Tally F profile threshold bfsOrder fwd bwd visited examined joins stats)
    (hseed : seed ∉ visited)
    (hrun : growTrace F profile threshold true bfsOrder fuel seed visited stats = some st') :
    ∃ fwd' bwd' examined' joins', (∀ e ∈ examined, e ∈ examined') ∧
      GrowTally F profile threshold bfsOrder fwd' bwd' examined' joins joins' st' := by
  have hinit : GrowTally F profile threshold bfsOrder fwd bwd examined joins joins
      ⟨[seed], seed :: visited, stats⟩ :=
    ⟨h.visit seed, List.isChain_singleton _, fun b hb => List.mem_cons.mpr (.inl (by simpa using hb)),
      by simp [Nat.add_comm]⟩
  obtain ⟨forward, hforward, hbackward⟩ := Option.bind_eq_some_iff.mp hrun
  obtain ⟨fwd', examined', joins', hsub, hhead, hgrown⟩ :=
    growForward_tally hinit (fun hmem => hseed (h.fwd_sub seed hmem)) rfl hforward
  obtain ⟨bwd', examined'', joins'', hsub', hrest⟩ :=
    growBackward_tally hcounted hgrown (fun hmem => hseed (h.bwd_sub seed hmem)) hhead hbackward
  exact ⟨fwd', bwd', examined'', joins'', fun e he => hsub' e (hsub e he), hrest⟩

/-! ### All traces -/

/-- The tally between two traces. -/
structure SeedTally (F : Function) (profile : Profile) (threshold : ℕ) (bfsOrder : List BasicBlock)
    (examined : List (BasicBlock × BasicBlock)) (st : TraceState) : Prop where
  tally : ∃ fwd bwd joins, Tally F profile threshold bfsOrder fwd bwd st.visited examined joins st.stats ∧
    st.traces.flatten.length = joins + st.traces.length
  joined : ∀ trace ∈ st.traces, Joined examined trace

theorem seedLoop_tally (hcounted : F.PredsCounted) {growFuel : ℕ} {candidates : List BasicBlock}
    {st st' : TraceState} (h : SeedTally F profile threshold bfsOrder examined st)
    (hrun : seedLoop F profile threshold true bfsOrder growFuel fuel candidates st = some st') :
    ∃ examined', SeedTally F profile threshold bfsOrder examined' st' := by
  induction fuel generalizing candidates st examined with
  | zero => cases hrun
  | succ fuel ih =>
    rw [seedLoop] at hrun
    have hfirst := List.head?_dropWhile_not (fun bb => st.visited.contains bb) candidates
    cases hcand : candidates.dropWhile fun bb => st.visited.contains bb with
    | nil =>
      rw [hcand] at hrun
      obtain rfl := Option.some.inj hrun
      exact ⟨examined, h⟩
    | cons seed rest =>
      rw [hcand] at hrun hfirst
      dsimp only at hrun
      split at hrun
      · obtain rfl := Option.some.inj hrun
        exact ⟨examined, h⟩
      · have hseed : seed ∉ st.visited := by simpa using hfirst
        cases hgrow : growTrace F profile threshold true bfsOrder growFuel seed st.visited st.stats with
        | none =>
          rw [hgrow] at hrun
          cases hrun
        | some grown =>
          rw [hgrow] at hrun
          obtain ⟨fwd, bwd, joins, htally, hlength⟩ := h.tally
          obtain ⟨fwd', bwd', examined', joins', hsub, hgrown⟩ :=
            growTrace_tally hcounted htally hseed hgrow
          refine ih ⟨⟨fwd', bwd', joins', hgrown.tally, ?_⟩, fun trace htrace => ?_⟩ hrun
          · have hgrownLength := hgrown.length_eq
            rw [List.flatten_append, List.flatten_singleton, List.length_append, List.length_append,
              List.length_singleton]
            omega
          · rcases List.mem_append.mp htrace with htrace | htrace
            · exact (h.joined trace htrace).mono hsub
            · exact List.mem_singleton.mp htrace ▸ hgrown.joined

/-- An edge occurs among the edges as often as in the successors of its tail. -/
theorem Function.count_edges_le (hwf : F.WellFormed) (e : BasicBlock × BasicBlock) :
    (F.successors e.1).count e.2 ≤ F.edges.count e := by
  by_cases hmem : e.2 ∈ F.successors e.1
  · have hblock : e.1 ∈ F.blocks := by
      cases hterm : F.getTerminator e.1 with
      | none => simp [Function.successors, hterm] at hmem
      | some t =>
        exact hwf.mem_blocks (List.mem_of_getLast? (Function.getTerminator_eq_some.mp hterm).1)
    obtain ⟨pre, post, hsplit⟩ := List.append_of_mem hblock
    rw [Function.edges, hsplit, List.flatMap_append, List.flatMap_cons, List.count_append,
      List.count_append]
    have hown := List.count_le_count_map (f := fun v => (e.1, v)) (l := F.successors e.1) (x := e.2)
    have hself : (e.1, e.2) = e := rfl
    rw [hself] at hown
    omega
  · rw [List.count_eq_zero_of_not_mem hmem]
    exact Nat.zero_le _

/-- **The counters are a tally of different edges.** With statistics on, there is a selection of edges,
each taken at most as often as the graph has it, such that the counters say how many of them are above
the threshold, how many are not, and how many of the former go back.  Every edge of a trace is among
them, and apart from the back edges the edges above the threshold are at least as many as the traces
have joined blocks. -/
theorem identifyTraces_tally (hwf : F.WellFormed) (hcounted : F.PredsCounted) (profile : Profile)
    (threshold : ℕ) :
    ∃ bfsOrder st examined, F.cfg.breadthFirst (F.blocks.length + 1) = some bfsOrder ∧
      identifyTraces F profile threshold true = some st ∧ examined <+~ F.edges ∧
      Counts profile threshold bfsOrder examined st.stats ∧
      (∀ trace ∈ st.traces, trace.IsChain fun a b => (a, b) ∈ examined) ∧
      st.stats.edgesAboveThreshold + st.stats.edgesBelowThreshold ≤ F.edges.length ∧
      st.traces.flatten.length + st.stats.backedgesSkipped ≤
        st.stats.edgesAboveThreshold + st.traces.length := by
  obtain ⟨bfsOrder, st, hbfs, hrun, _⟩ := identifyTraces_spec hwf.cfgConsistent profile threshold true
  have hloop := hrun
  rw [identifyTraces, hbfs] at hloop
  have hinit : SeedTally F profile threshold bfsOrder [] ⟨[], [], ⟨0, 0, 0⟩⟩ :=
    ⟨⟨[], [], 0, ⟨⟨rfl, rfl, rfl⟩, by simp, by simp, by simp, by simp, by simp⟩, rfl⟩, by simp⟩
  obtain ⟨examined, hfinal⟩ := seedLoop_tally hcounted hinit hloop
  obtain ⟨fwd, bwd, joins, htally, hlength⟩ := hfinal.tally
  have hsubperm : examined <+~ F.edges := by
    rw [List.subperm_ext_iff]
    intro e _
    exact (htally.count_le e).trans (Function.count_edges_le hwf e)
  refine ⟨bfsOrder, st, examined, hbfs, hrun, hsubperm, htally.counts, hfinal.joined, ?_, ?_⟩
  · have hsum := List.length_eq_countP_add_countP (likely profile threshold) (l := examined)
    have hle := hsubperm.length_le
    rw [htally.counts.above, htally.counts.below]
    simp only [Bool.not_eq_true, Bool.decide_eq_false] at hsum
    omega
  · have hjoins := htally.joins_le
    omega

theorem Function.predsCounted_of_nodup (hF : F.CfgConsistent) (hpreds : ∀ b, (F.preds b).Nodup)
    (hsuccs : ∀ b, (F.successors b).Nodup) : F.PredsCounted := by
  intro b p
  rw [(hpreds b).count, (hsuccs p).count]
  simp only [hF.mem_preds b p]

theorem twoBlocks_predsCounted : twoBlocks.PredsCounted := by
  apply Function.predsCounted_of_nodup twoBlocks_wellFormed.cfgConsistent
  · intro b
    show (twoBlocks.blocks.filter fun p => (twoBlocks.successors p).contains b).Nodup
    exact twoBlocks_wellFormed.blocks_nodup.filter _
  · intro b
    match b with
    | 0 => decide
    | 1 => decide
    | _ + 2 => exact List.nodup_nil

/-- The one edge is counted once, although both blocks are scanned in both directions. -/
theorem twoBlocks_tally : ∃ bfsOrder st examined,
    twoBlocks.cfg.breadthFirst (twoBlocks.blocks.length + 1) = some bfsOrder ∧
    identifyTraces twoBlocks ⟨fun _ _ => 2 ^ 31, fun _ => 1⟩ 0 true = some st ∧
    examined <+~ twoBlocks.edges ∧
    st.stats.edgesAboveThreshold + st.stats.edgesBelowThreshold ≤ 1 := by
  obtain ⟨bfsOrder, st, examined, hbfs, hrun, hsub, _, _, hle, _⟩ := identifyTraces_tally
    twoBlocks_wellFormed twoBlocks_predsCounted ⟨fun _ _ => 2 ^ 31, fun _ => 1⟩ 0
  exact ⟨bfsOrder, st, examined, hbfs, hrun, hsub, hle⟩

end TraceScheduler
