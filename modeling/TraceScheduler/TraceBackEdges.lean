import TraceScheduler.Library.BackwardFlow
import TraceScheduler.Library.BreadthFirstDepth
import TraceScheduler.TraceIdentification

/-!
# Which edges are skipped as back edges

Trace growth takes an edge for a back edge when it goes back in breadth-first position.  An edge that
closes a cycle need not go back, and an edge that goes back need not close a cycle: at a join whose
arms have different lengths, the edge from the longer arm leads to a block that the shorter arm has
reached before.

`Considers` says which edges a run looks at, `Skips` which of them it takes for back edges.  All of
these close cycles exactly when every edge looked at that closes none leads farther from the entry, or
to a block at the same depth that is found later (`GoesForward`).
-/

namespace TraceScheduler

section

variable (F : Function) (profile : Profile) (threshold : ℕ) (statsOn : Bool)
  (bfsOrder : List BasicBlock)

/-- The successors that are taken for targets of back edges. -/
def skippedSuccessors (visited : List BasicBlock) (bb : BasicBlock) : List BasicBlock :=
  (F.successors bb).filter fun succ => !visited.contains succ &&
    decide (threshold < profile.edgeProbability bb succ) &&
    decide (bfsPos bfsOrder succ < bfsPos bfsOrder bb)

/-- The predecessors that are taken for sources of back edges. -/
def skippedPredecessors (visited : List BasicBlock) (bb : BasicBlock) : List BasicBlock :=
  (F.preds bb).filter fun pred => !visited.contains pred &&
    decide (threshold < profile.edgeProbability pred bb) &&
    decide (bfsPos bfsOrder pred > bfsPos bfsOrder bb)

/-- The calls of `bestSuccessor` in the forward growth of one trace. -/
inductive GrowsForward (seed : BasicBlock) (start : GrowState) : BasicBlock → GrowState → Prop
  | seed : GrowsForward seed start seed start
  | next {current next : BasicBlock} {st : GrowState} {stats : TraceIdStats} :
      GrowsForward seed start current st →
      bestSuccessor F profile threshold statsOn bfsOrder st.visited st.stats current =
        (some next, stats) →
      GrowsForward seed start next ⟨st.trace ++ [next], next :: st.visited, stats⟩

/-- The calls of `bestPredecessor` in the backward growth of one trace. -/
inductive GrowsBackward (seed : BasicBlock) (start : GrowState) : BasicBlock → GrowState → Prop
  | seed : GrowsBackward seed start seed start
  | next {current prev : BasicBlock} {st : GrowState} {stats : TraceIdStats} :
      GrowsBackward seed start current st →
      bestPredecessor F profile threshold statsOn bfsOrder st.visited st.stats current =
        (some prev, stats) →
      GrowsBackward seed start prev ⟨prev :: st.trace, prev :: st.visited, stats⟩

/-- The states of the seed loop of `identifyTraces`. -/
inductive SeedReaches : List BasicBlock → TraceState → Prop
  | start :
      SeedReaches (bfsOrder.insertionSort fun a b => profile.blockFreq a ≥ profile.blockFreq b)
        ⟨[], [], ⟨0, 0, 0⟩⟩
  | next {candidates rest : List BasicBlock} {st : TraceState} {seed : BasicBlock}
      {grown : GrowState} : SeedReaches candidates st →
      (candidates.dropWhile fun bb => st.visited.contains bb) = seed :: rest →
      profile.blockFreq seed ≠ 0 →
      growTrace F profile threshold statsOn bfsOrder (bfsOrder.length + 1) seed st.visited
        st.stats = some grown →
      SeedReaches (seed :: rest) ⟨st.traces ++ [grown.trace], grown.visited, grown.stats⟩

/-- The seeds, with the growth state they start from. -/
def PicksSeed (seed : BasicBlock) (start : GrowState) : Prop :=
  ∃ candidates rest st, SeedReaches F profile threshold statsOn bfsOrder candidates st ∧
    (candidates.dropWhile fun bb => st.visited.contains bb) = seed :: rest ∧
    profile.blockFreq seed ≠ 0 ∧ start = ⟨[seed], seed :: st.visited, st.stats⟩

/-- The calls of `bestSuccessor`. -/
def AsksSuccessor (bb : BasicBlock) (st : GrowState) : Prop :=
  ∃ seed start, PicksSeed F profile threshold statsOn bfsOrder seed start ∧
    GrowsForward F profile threshold statsOn bfsOrder seed start bb st

/-- The calls of `bestPredecessor`. -/
def AsksPredecessor (bb : BasicBlock) (st : GrowState) : Prop :=
  ∃ seed start forward, PicksSeed F profile threshold statsOn bfsOrder seed start ∧
    growForward F profile threshold statsOn bfsOrder (bfsOrder.length + 1) seed start =
      some forward ∧
    GrowsBackward F profile threshold statsOn bfsOrder seed forward bb st

/-- The edge from `a` to `b` is above the threshold and is looked at while its other end is in no
trace. -/
def Considers (a b : BasicBlock) : Prop :=
  LikelyEdge F profile threshold a b ∧
    ((∃ st, AsksSuccessor F profile threshold statsOn bfsOrder a st ∧ b ∉ st.visited) ∨
      ∃ st, AsksPredecessor F profile threshold statsOn bfsOrder b st ∧ a ∉ st.visited)

/-- The edge from `a` to `b` is skipped for breadth-first positions. -/
def Skips (a b : BasicBlock) : Prop :=
  (∃ st, AsksSuccessor F profile threshold statsOn bfsOrder a st ∧
      b ∈ skippedSuccessors F profile threshold bfsOrder st.visited a) ∨
    ∃ st, AsksPredecessor F profile threshold statsOn bfsOrder b st ∧
      a ∈ skippedPredecessors F profile threshold bfsOrder st.visited b

/-- The edge from `a` to `b` lies on a cycle. -/
def ClosesCycle (a b : BasicBlock) : Prop := F.cfg.LeadsTo (fun _ => True) b a

/-- `b` is farther from the entry than `a`, or as far and found later. -/
def GoesForward (a b : BasicBlock) : Prop :=
  F.cfg.depth a < F.cfg.depth b ∨
    (F.cfg.depth a = F.cfg.depth b ∧ bfsPos bfsOrder a < bfsPos bfsOrder b)

/-- Every seed whose forward growth ends at a block has left only edges that lead into traces or close
cycles there. -/
def EndsRight : Prop :=
  ∀ seed start grown last, PicksSeed F profile threshold statsOn bfsOrder seed start →
    growForward F profile threshold statsOn bfsOrder (bfsOrder.length + 1) seed start =
      some grown →
    grown.trace.getLast? = some last →
    ∀ b, LikelyEdge F profile threshold last b → b ∈ grown.visited ∨ ClosesCycle F last b

end

variable {F : Function} {profile : Profile} {threshold : ℕ} {statsOn : Bool}
  {bfsOrder visited : List BasicBlock} {stats : TraceIdStats} {bb a b seed : BasicBlock}
  {start st : GrowState}

/-! ### One call -/

/-- If nothing is best, every neighbour failed a check. -/
theorem foldl_considerEdge_eq_none {prob : BasicBlock → ℕ} {isBackEdge : BasicBlock → Bool}
    {l : List BasicBlock} {acc : BestEdge} (hacc : acc.best = none → acc.bestProb = 0)
    (h : (l.foldl (considerEdge threshold statsOn prob isBackEdge visited) acc).best = none) :
    acc.best = none ∧
      ∀ x ∈ l, x ∈ visited ∨ prob x ≤ threshold ∨ isBackEdge x = true := by
  induction l generalizing acc with
  | nil => exact ⟨h, by simp⟩
  | cons x l ih =>
    rw [List.foldl_cons] at h
    have hstep : ((considerEdge threshold statsOn prob isBackEdge visited acc x).best = none →
        (considerEdge threshold statsOn prob isBackEdge visited acc x).bestProb = 0) ∧
        ((considerEdge threshold statsOn prob isBackEdge visited acc x).best = none →
          acc.best = none ∧ (x ∈ visited ∨ prob x ≤ threshold ∨ isBackEdge x = true)) := by
      rw [considerEdge]
      split
      · rename_i hvisited
        exact ⟨hacc, fun hnone => ⟨hnone, .inl (by simpa using hvisited)⟩⟩
      · split
        · rename_i hprob
          exact ⟨hacc, fun hnone => ⟨hnone, .inr (.inl hprob)⟩⟩
        · rename_i hprob
          split
          · rename_i hback
            exact ⟨hacc, fun hnone => ⟨hnone, .inr (.inr hback)⟩⟩
          · split
            · exact ⟨fun hnone => (by cases hnone), fun hnone => (by cases hnone)⟩
            · rename_i hbest
              refine ⟨hacc, ?_⟩
              intro hnone
              -- an edge above the threshold beats having none
              have := hacc hnone
              omega
    obtain ⟨hnone, hrest⟩ := ih hstep.1 h
    obtain ⟨hacc', hx⟩ := hstep.2 hnone
    exact ⟨hacc', List.forall_mem_cons.mpr ⟨hx, hrest⟩⟩

theorem bestSuccessor_eq_none
    (h : (bestSuccessor F profile threshold statsOn bfsOrder visited stats bb).1 = none)
    (hlikely : LikelyEdge F profile threshold bb b) :
    b ∈ visited ∨ b ∈ skippedSuccessors F profile threshold bfsOrder visited bb := by
  obtain ⟨_, hall⟩ := foldl_considerEdge_eq_none (fun _ => rfl) h
  by_cases hvisited : b ∈ visited
  · exact .inl hvisited
  right
  apply List.mem_filter.mpr
  refine ⟨hlikely.1, ?_⟩
  have hprob := hlikely.2
  cases hall b hlikely.1 with
  | inl h => exact absurd h hvisited
  | inr h =>
    have hback := h.resolve_left (by omega)
    simp only [Bool.and_eq_true, Bool.not_eq_true', decide_eq_true_eq] at hback ⊢
    exact ⟨⟨by simpa using hvisited, hprob⟩, hback⟩

/-! ### The run -/

/-- An edge is skipped if it is looked at and goes back. -/
theorem skips_iff (hF : F.CfgConsistent) :
    Skips F profile threshold statsOn bfsOrder a b ↔
      Considers F profile threshold statsOn bfsOrder a b ∧
        bfsPos bfsOrder b < bfsPos bfsOrder a := by
  simp only [Skips, Considers, skippedSuccessors, skippedPredecessors, List.mem_filter,
    Bool.and_eq_true, Bool.not_eq_true', decide_eq_true_eq, LikelyEdge, hF.mem_preds,
    List.contains_eq_mem, decide_eq_false_iff_not, gt_iff_lt]
  constructor
  · intro h
    cases h with
    | inl h =>
      obtain ⟨st, hasks, hsucc, ⟨hvisited, hprob⟩, hpos⟩ := h
      exact ⟨⟨⟨hsucc, hprob⟩, .inl ⟨st, hasks, hvisited⟩⟩, hpos⟩
    | inr h =>
      obtain ⟨st, hasks, hsucc, ⟨hvisited, hprob⟩, hpos⟩ := h
      exact ⟨⟨⟨hsucc, hprob⟩, .inr ⟨st, hasks, hvisited⟩⟩, hpos⟩
  · intro h
    obtain ⟨⟨⟨hsucc, hprob⟩, hasks⟩, hpos⟩ := h
    cases hasks with
    | inl h =>
      obtain ⟨st, hasks, hvisited⟩ := h
      exact .inl ⟨st, hasks, hsucc, ⟨hvisited, hprob⟩, hpos⟩
    | inr h =>
      obtain ⟨st, hasks, hvisited⟩ := h
      exact .inr ⟨st, hasks, hsucc, ⟨hvisited, hprob⟩, hpos⟩

/-- Forward growth ends at a block that has no best successor. -/
theorem growForward_ends {fuel : ℕ} {current : BasicBlock} {grown : GrowState}
    (h : GrowsForward F profile threshold statsOn bfsOrder seed start current st)
    (hlast : st.trace.getLast? = some current)
    (hrun : growForward F profile threshold statsOn bfsOrder fuel current st = some grown) :
    ∃ last st', GrowsForward F profile threshold statsOn bfsOrder seed start last st' ∧
      (bestSuccessor F profile threshold statsOn bfsOrder st'.visited st'.stats last).1 = none ∧
      grown.trace.getLast? = some last ∧ grown.visited = st'.visited := by
  induction fuel generalizing current st with
  | zero => cases hrun
  | succ fuel ih =>
    rw [growForward] at hrun
    cases hbest : bestSuccessor F profile threshold statsOn bfsOrder st.visited st.stats current with
    | mk best stats =>
      cases best with
      | none =>
        rw [hbest] at hrun
        obtain rfl := Option.some.inj hrun
        exact ⟨current, st, h, by rw [hbest], hlast, rfl⟩
      | some next =>
        rw [hbest] at hrun
        exact ih (h.next hbest) List.getLast?_concat hrun

/-- The run of the seed loop. -/
theorem seedLoop_reaches {fuel : ℕ} {candidates : List BasicBlock} {ts ts' : TraceState}
    (h : SeedReaches F profile threshold statsOn bfsOrder candidates ts)
    (hrun : seedLoop F profile threshold statsOn bfsOrder (bfsOrder.length + 1) fuel candidates ts =
      some ts') :
    ∃ candidates', SeedReaches F profile threshold statsOn bfsOrder candidates' ts' := by
  induction fuel generalizing candidates ts with
  | zero => cases hrun
  | succ fuel ih =>
    rw [seedLoop] at hrun
    cases hcand : candidates.dropWhile fun bb => ts.visited.contains bb with
    | nil =>
      rw [hcand] at hrun
      obtain rfl := Option.some.inj hrun
      exact ⟨candidates, h⟩
    | cons seed rest =>
      rw [hcand] at hrun
      dsimp only at hrun
      split at hrun
      · obtain rfl := Option.some.inj hrun
        exact ⟨candidates, h⟩
      · rename_i hfreq
        cases hgrow : growTrace F profile threshold statsOn bfsOrder (bfsOrder.length + 1) seed
            ts.visited ts.stats with
        | none =>
          rw [hgrow] at hrun
          cases hrun
        | some grown =>
          rw [hgrow] at hrun
          exact ih (h.next hcand hfreq hgrow) hrun

theorem SeedReaches.mem {candidates : List BasicBlock} {ts : TraceState}
    (h : SeedReaches F profile threshold statsOn bfsOrder candidates ts) (hb : bb ∈ candidates) :
    bb ∈ bfsOrder := by
  induction h with
  | start => exact (byKeyDesc_perm profile.blockFreq bfsOrder).mem_iff.mp hb
  | next _ hdrop _ _ ih =>
    rw [← hdrop] at hb
    exact ih ((List.dropWhile_sublist _).subset hb)

theorem GrowsForward.reachable
    (h : GrowsForward F profile threshold statsOn bfsOrder seed start bb st)
    (hseed : F.cfg.Reachable seed) : F.cfg.Reachable bb := by
  induction h with
  | seed => exact hseed
  | next _ hbest ih => exact ih.step (bestSuccessor_spec hbest).2.1.1

/-- Going forward is going forward in position. -/
theorem goesForward_iff {fuel : ℕ} (hsearch : F.cfg.breadthFirst fuel = some bfsOrder)
    (ha : F.cfg.Reachable a) (hb : F.cfg.Reachable b) :
    GoesForward F bfsOrder a b ↔ bfsPos bfsOrder a < bfsPos bfsOrder b := by
  have hbfs := FlowGraph.breadthFirst_spec hsearch
  have ha := hbfs.mem_iff.mpr ha
  have hb := hbfs.mem_iff.mpr hb
  constructor
  · intro h
    cases h with
    | inl hdepth =>
      by_contra hle
      have := FlowGraph.depth_le_of_idxOf_le hsearch hb ha (Nat.le_of_not_lt hle)
      omega
    | inr h => exact h.2
  · intro hlt
    have hle := FlowGraph.depth_le_of_idxOf_le hsearch ha hb (Nat.le_of_lt hlt)
    cases Nat.lt_or_eq_of_le hle with
    | inl h => exact .inl h
    | inr h => exact .inr ⟨h, hlt⟩

/-- If only cycle-closing edges are skipped, forward growth ends as it should. -/
theorem endsRight (hbfs : F.cfg.IsBreadthFirst bfsOrder)
    (h : ∀ a b, Skips F profile threshold statsOn bfsOrder a b → F.cfg.Reachable a →
      F.cfg.Reachable b → ClosesCycle F a b) :
    EndsRight F profile threshold statsOn bfsOrder := by
  intro seed start grown last hpick hrun hlast b hlikely
  have hseed : F.cfg.Reachable seed ∧ start.trace = [seed] := by
    obtain ⟨candidates, rest, ts, hreach, hdrop, _, rfl⟩ := hpick
    refine ⟨hbfs.mem_iff.mp (hreach.mem ?_), rfl⟩
    apply (List.dropWhile_sublist fun bb => ts.visited.contains bb).subset
    rw [hdrop]
    exact List.mem_cons_self
  have hstart : start.trace.getLast? = some seed := by
    rw [hseed.2]
    rfl
  obtain ⟨last', st, hgrows, hnone, hlast', hvisited⟩ := growForward_ends .seed hstart hrun
  obtain rfl : last = last' := Option.some.inj (hlast.symm.trans hlast')
  rw [hvisited]
  apply (bestSuccessor_eq_none hnone hlikely).imp_right
  intro hskipped
  have hreach := hgrows.reachable hseed.1
  exact h last b (.inl ⟨st, ⟨seed, start, hpick, hgrows⟩, hskipped⟩) hreach (hreach.step hlikely.1)

/-- **Only cycle-closing edges are skipped exactly when all other edges looked at go forward**, away
from the entry or to a block at the same depth found later.  Then forward growth ends only where every
likely edge leads into a trace or closes a cycle. -/
theorem identifyTraces_backEdges_iff (hF : F.CfgConsistent) (profile : Profile) (threshold : ℕ)
    (statsOn : Bool) :
    ∃ bfsOrder traces, F.cfg.breadthFirst (F.blocks.length + 1) = some bfsOrder ∧
      identifyTraces F profile threshold statsOn = some traces ∧
      (∃ candidates, SeedReaches F profile threshold statsOn bfsOrder candidates traces) ∧
      (((∀ a b, Skips F profile threshold statsOn bfsOrder a b → F.cfg.Reachable a →
            F.cfg.Reachable b → ClosesCycle F a b) ∧
          EndsRight F profile threshold statsOn bfsOrder) ↔
        ∀ a b, Considers F profile threshold statsOn bfsOrder a b → F.cfg.Reachable a →
          F.cfg.Reachable b → ¬ ClosesCycle F a b → GoesForward F bfsOrder a b) := by
  obtain ⟨bfsOrder, traces, hsearch, htraces, _⟩ := identifyTraces_spec hF profile threshold statsOn
  have hbfs := FlowGraph.breadthFirst_spec hsearch
  have hloop := htraces
  rw [identifyTraces, hsearch] at hloop
  refine ⟨bfsOrder, traces, hsearch, htraces, seedLoop_reaches .start hloop, ?_⟩
  constructor
  · intro h a b hconsiders ha hb hcycle
    apply (goesForward_iff hsearch ha hb).mpr
    apply bfsPos_lt (hbfs.mem_iff.mpr ha)
    · intro heq
      subst heq
      exact hcycle (.refl a)
    · by_contra hlt
      exact hcycle (h.1 a b ((skips_iff hF).mpr ⟨hconsiders, Nat.lt_of_not_le hlt⟩) ha hb)
  · intro h
    have hskips : ∀ a b, Skips F profile threshold statsOn bfsOrder a b → F.cfg.Reachable a →
        F.cfg.Reachable b → ClosesCycle F a b := by
      intro a b hskips ha hb
      obtain ⟨hconsiders, hback⟩ := (skips_iff hF).mp hskips
      by_contra hcycle
      have := (goesForward_iff hsearch ha hb).mp (h a b hconsiders ha hb hcycle)
      omega
    exact ⟨hskips, endsRight hbfs hskips⟩

theorem twoBlocks_backEdges_iff :
    ∃ bfsOrder traces, twoBlocks.cfg.breadthFirst 3 = some bfsOrder ∧
      identifyTraces twoBlocks certain 60 true = some traces ∧
      (∃ candidates, SeedReaches twoBlocks certain 60 true bfsOrder candidates traces) ∧
      (((∀ a b, Skips twoBlocks certain 60 true bfsOrder a b → twoBlocks.cfg.Reachable a →
            twoBlocks.cfg.Reachable b → ClosesCycle twoBlocks a b) ∧
          EndsRight twoBlocks certain 60 true bfsOrder) ↔
        ∀ a b, Considers twoBlocks certain 60 true bfsOrder a b → twoBlocks.cfg.Reachable a →
          twoBlocks.cfg.Reachable b → ¬ ClosesCycle twoBlocks a b →
            GoesForward twoBlocks bfsOrder a b) :=
  identifyTraces_backEdges_iff twoBlocks_wellFormed.cfgConsistent certain 60 true

/-- A likely detour: `0` branches to `1` or, mostly, to `2`, which goes on to `1`. -/
def likelyDetour : Function :=
  .ofTables 1 [.branch [.argument 0] [1, 2], .branch [] [], .branch [] [1]] [0] [[1], [2]]

/-- Nine times out of ten the detour is taken. -/
def mostlyDetour : Profile where
  edgeProbability a b :=
    if a = 0 then (if b = 1 then branchProbability 1 10 else branchProbability 9 10)
    else branchProbability 1 1
  blockFreq b := if b = 2 then 9 else 10

/-- The edge from the detour to the join is skipped, though there is no cycle, and the trace is cut. -/
theorem likelyDetour_cut : likelyDetour.WellFormed ∧
    likelyDetour.cfg.breadthFirst 4 = some [0, 1, 2] ∧
    identifyTraces likelyDetour mostlyDetour (branchProbability 60 100) false =
      some ⟨[[0, 2], [1]], [1, 2, 0], ⟨0, 0, 0⟩⟩ ∧
    likelyDetour.cfg.Reachable 2 ∧ likelyDetour.cfg.Reachable 1 ∧
    Skips likelyDetour mostlyDetour (branchProbability 60 100) false [0, 1, 2] 2 1 ∧
    ¬ ClosesCycle likelyDetour 2 1 := by
  refine ⟨(Function.verify_sound (by decide) rfl).1, rfl, rfl, .step .entry (by decide),
    .step .entry (by decide), ?_, ?_⟩
  · have hpick : PicksSeed likelyDetour mostlyDetour (branchProbability 60 100) false [0, 1, 2] 0
        ⟨[0], [0], ⟨0, 0, 0⟩⟩ := ⟨_, _, _, .start, rfl, by decide, rfl⟩
    exact .inl ⟨_, ⟨0, _, hpick, .next .seed rfl⟩, by decide⟩
  · intro hcycle
    -- nothing leaves the join
    have hstay : (2 : BasicBlock) = 1 := by
      apply hcycle.closed (P := fun b => b = 1) rfl
      intro u v hu hv
      rw [hu] at hv
      cases hv
    exact absurd hstay (by decide)

end TraceScheduler
