import TraceScheduler.Library.StableSelect
import TraceScheduler.Verifier
import Mathlib.Algebra.Ring.Nat
import Mathlib.Data.List.Chain
import Mathlib.Data.List.Sort
import Mathlib.Data.List.TakeWhile

/-!
# Trace identification

A trace is a path of likely edges.  Seeds are taken in order of block frequency; each is grown
forward and then backward, along the most probable edge that exceeds the threshold, leads to a block
of no trace yet, and is no back edge.  A back edge is told by breadth-first positions, and a block
that the search did not reach is positioned after every other one.

`identifyTraces` carries the set of visited blocks through all traces.  `IsTracePartition` is what
the result amounts to; the later modules use traces through it only.
-/

namespace TraceScheduler

open scoped List

/-- The environment variables the passes read, as parsed by `atoi` where they are set. -/
structure SchedEnv where
  traceThresholdPct : Option ℤ
  pressureBudget : Option ℤ
  stats : Bool

/-- `BranchProbability(n, d)`: a numerator over `2^31`, rounded. -/
def branchProbability (n d : ℕ) : ℕ := (n * 2 ^ 31 + d / 2) / d

/-- The threshold on edge probabilities. -/
def getTraceThreshold (env : SchedEnv) : ℕ :=
  let pct : ℤ :=
    match env.traceThresholdPct with
    | some parsed => if parsed > 0 ∧ parsed ≤ 100 then parsed else 60
    | none => 60
  branchProbability pct.toNat 100

def schedStatsEnabled (env : SchedEnv) : Bool := env.stats

/-- Branch probabilities, as numerators over `2^31`, and block frequencies. -/
structure Profile where
  edgeProbability : BasicBlock → BasicBlock → ℕ
  blockFreq : BasicBlock → ℕ

structure TraceIdStats where
  edgesAboveThreshold : ℕ
  edgesBelowThreshold : ℕ
  backedgesSkipped : ℕ
  deriving DecidableEq, Repr

namespace TraceIdStats

/-! The counters move only when statistics are on. -/

def countAbove (statsOn : Bool) (s : TraceIdStats) : TraceIdStats :=
  if statsOn then { s with edgesAboveThreshold := s.edgesAboveThreshold + 1 } else s

def countBelow (statsOn : Bool) (s : TraceIdStats) : TraceIdStats :=
  if statsOn then { s with edgesBelowThreshold := s.edgesBelowThreshold + 1 } else s

def countBackedge (statsOn : Bool) (s : TraceIdStats) : TraceIdStats :=
  if statsOn then { s with backedgesSkipped := s.backedgesSkipped + 1 } else s

end TraceIdStats

/-- The position of a block in breadth-first order, the length of the order if it is not there. -/
def bfsPos (bfsOrder : List BasicBlock) (bb : BasicBlock) : ℕ := bfsOrder.idxOf bb

/-- The best neighbour so far, its probability, and the statistics. -/
structure BestEdge where
  best : Option BasicBlock
  bestProb : ℕ
  stats : TraceIdStats

section

variable (F : Function) (profile : Profile) (threshold : ℕ) (statsOn : Bool)
  (bfsOrder : List BasicBlock)

/-- One neighbour: skipped if it is visited, if the edge is too unlikely, or if it is a back edge. -/
def considerEdge (prob : BasicBlock → ℕ) (isBackEdge : BasicBlock → Bool)
    (visited : List BasicBlock) (acc : BestEdge) (bb : BasicBlock) : BestEdge :=
  if visited.contains bb then acc
  else if prob bb ≤ threshold then { acc with stats := acc.stats.countBelow statsOn }
  else
    let stats := acc.stats.countAbove statsOn
    if isBackEdge bb then { acc with stats := stats.countBackedge statsOn }
    else if prob bb > acc.bestProb then ⟨some bb, prob bb, stats⟩
    else { acc with stats := stats }

def bestSuccessor (visited : List BasicBlock) (stats : TraceIdStats) (bb : BasicBlock) :
    Option BasicBlock × TraceIdStats :=
  let r := (F.successors bb).foldl
    (considerEdge threshold statsOn (fun succ => profile.edgeProbability bb succ)
      (fun succ => decide (bfsPos bfsOrder succ < bfsPos bfsOrder bb)) visited)
    ⟨none, 0, stats⟩
  (r.best, r.stats)

def bestPredecessor (visited : List BasicBlock) (stats : TraceIdStats) (bb : BasicBlock) :
    Option BasicBlock × TraceIdStats :=
  let r := (F.preds bb).foldl
    (considerEdge threshold statsOn (fun pred => profile.edgeProbability pred bb)
      (fun pred => decide (bfsPos bfsOrder pred > bfsPos bfsOrder bb)) visited)
    ⟨none, 0, stats⟩
  (r.best, r.stats)

/-- A trace that is being grown, with the blocks of all traces so far. -/
structure GrowState where
  trace : List BasicBlock
  visited : List BasicBlock
  stats : TraceIdStats

/-- Follow the best successor until there is none. -/
def growForward : ℕ → BasicBlock → GrowState → Option GrowState
  | 0, _, _ => none
  | fuel + 1, current, st =>
      match bestSuccessor F profile threshold statsOn bfsOrder st.visited st.stats current with
      | (none, stats) => some { st with stats := stats }
      | (some next, stats) =>
          growForward fuel next ⟨st.trace ++ [next], next :: st.visited, stats⟩

/-- Follow the best predecessor until there is none. -/
def growBackward : ℕ → BasicBlock → GrowState → Option GrowState
  | 0, _, _ => none
  | fuel + 1, current, st =>
      match bestPredecessor F profile threshold statsOn bfsOrder st.visited st.stats current with
      | (none, stats) => some { st with stats := stats }
      | (some prev, stats) =>
          growBackward fuel prev ⟨prev :: st.trace, prev :: st.visited, stats⟩

/-- The trace of one seed. -/
def growTrace (fuel : ℕ) (seed : BasicBlock) (visited : List BasicBlock) (stats : TraceIdStats) :
    Option GrowState := do
  let forward ← growForward F profile threshold statsOn bfsOrder fuel seed
    ⟨[seed], seed :: visited, stats⟩
  growBackward F profile threshold statsOn bfsOrder fuel seed forward

/-- The traces so far, and the blocks they hold. -/
structure TraceState where
  traces : List (List BasicBlock)
  visited : List BasicBlock
  stats : TraceIdStats

/-- Pick seeds until none is left. `candidates` is `byFreqDesc` from the cursor on. -/
def seedLoop (growFuel : ℕ) : ℕ → List BasicBlock → TraceState → Option TraceState
  | 0, _, _ => none
  | fuel + 1, candidates, st =>
      match candidates.dropWhile fun bb => st.visited.contains bb with
      | [] => some st
      | seed :: rest =>
          if profile.blockFreq seed = 0 then some st
          else
            match growTrace F profile threshold statsOn bfsOrder growFuel seed st.visited
              st.stats with
            | none => none
            | some grown =>
                seedLoop growFuel fuel (seed :: rest)
                  ⟨st.traces ++ [grown.trace], grown.visited, grown.stats⟩

end

/-- All traces of a function, hottest seed first. -/
def identifyTraces (F : Function) (profile : Profile) (threshold : ℕ) (statsOn : Bool) :
    Option TraceState := do
  let bfsOrder ← F.cfg.breadthFirst (F.blocks.length + 1)
  let byFreqDesc := bfsOrder.insertionSort fun a b => profile.blockFreq a ≥ profile.blockFreq b
  seedLoop F profile threshold statsOn bfsOrder (bfsOrder.length + 1) (bfsOrder.length + 1)
    byFreqDesc ⟨[], [], ⟨0, 0, 0⟩⟩

/-! ### What the result amounts to -/

/-- The lists of predecessors and successors of a control-flow graph fit together. -/
structure Function.CfgConsistent (F : Function) : Prop where
  succs_mem : ∀ b, ∀ s ∈ F.successors b, s ∈ F.blocks
  mem_preds : ∀ b p, p ∈ F.preds b ↔ b ∈ F.successors p

theorem Function.WellFormed.cfgConsistent {F : Function} (h : F.WellFormed) : F.CfgConsistent :=
  ⟨h.succs_mem, h.mem_preds⟩

/-- A likely edge. -/
def LikelyEdge (F : Function) (profile : Profile) (threshold : ℕ) (a b : BasicBlock) : Prop :=
  b ∈ F.successors a ∧ threshold < profile.edgeProbability a b

/-- One trace: a path of likely edges through reachable blocks, forward in breadth-first order. -/
structure IsTrace (F : Function) (profile : Profile) (threshold : ℕ) (bfsOrder trace : List BasicBlock) :
    Prop where
  nonempty : trace ≠ []
  reachable : ∀ b ∈ trace, b ∈ bfsOrder
  path : trace.IsChain (LikelyEdge F profile threshold)
  forward : trace.Pairwise fun a b => bfsPos bfsOrder a < bfsPos bfsOrder b

variable {F : Function} {profile : Profile} {threshold : ℕ} {statsOn : Bool}
  {bfsOrder visited : List BasicBlock} {stats : TraceIdStats} {bb : BasicBlock}

/-! ### One edge -/

/-- Whatever edge is best passed all the checks. -/
theorem foldl_considerEdge_spec {prob : BasicBlock → ℕ} {isBackEdge : BasicBlock → Bool}
    {l : List BasicBlock} {acc : BestEdge} {b : BasicBlock}
    (h : (l.foldl (considerEdge threshold statsOn prob isBackEdge visited) acc).best = some b) :
    acc.best = some b ∨
      (b ∈ l ∧ b ∉ visited ∧ threshold < prob b ∧ isBackEdge b = false) := by
  induction l generalizing acc with
  | nil => exact .inl h
  | cons x l ih =>
    rw [List.foldl_cons] at h
    rcases ih h with h | ⟨hb, hrest⟩
    · rw [considerEdge] at h
      split at h
      · exact .inl h
      · rename_i hvisited
        split at h
        · exact .inl h
        · rename_i hprob
          split at h
          · exact .inl h
          · rename_i hback
            split at h
            · obtain rfl := Option.some.inj h
              exact .inr ⟨List.mem_cons_self, by simpa using hvisited, by omega, by simpa using hback⟩
            · exact .inl h
    · exact .inr ⟨List.mem_cons_of_mem _ hb, hrest⟩

theorem bestSuccessor_spec {next : BasicBlock} {stats' : TraceIdStats}
    (h : bestSuccessor F profile threshold statsOn bfsOrder visited stats bb = (some next, stats')) :
    next ∉ visited ∧ LikelyEdge F profile threshold bb next ∧
      bfsPos bfsOrder bb ≤ bfsPos bfsOrder next := by
  obtain ⟨hbest, _⟩ := Prod.mk.inj h
  rcases foldl_considerEdge_spec hbest with h | ⟨hmem, hvisited, hprob, hback⟩
  · cases h
  · exact ⟨hvisited, ⟨hmem, hprob⟩, by simpa using hback⟩

theorem bestPredecessor_spec (hF : F.CfgConsistent) {prev : BasicBlock} {stats' : TraceIdStats}
    (h : bestPredecessor F profile threshold statsOn bfsOrder visited stats bb = (some prev, stats')) :
    prev ∉ visited ∧ LikelyEdge F profile threshold prev bb ∧
      bfsPos bfsOrder prev ≤ bfsPos bfsOrder bb := by
  obtain ⟨hbest, _⟩ := Prod.mk.inj h
  rcases foldl_considerEdge_spec hbest with h | ⟨hmem, hvisited, hprob, hback⟩
  · cases h
  · exact ⟨hvisited, ⟨(hF.mem_preds bb prev).mp hmem, hprob⟩, by simpa using hback⟩

/-! ### Growing one trace -/

/-- A trace being grown: a trace, disjoint from the blocks visited before it. -/
structure GrowInv (F : Function) (profile : Profile) (threshold : ℕ)
    (bfsOrder before : List BasicBlock) (st : GrowState) : Prop where
  isTrace : IsTrace F profile threshold bfsOrder st.trace
  visited_perm : st.visited ~ st.trace ++ before
  nodup : st.visited.Nodup
  visited_mem : ∀ b ∈ st.visited, b ∈ bfsOrder

section Grow

variable {before : List BasicBlock} {st : GrowState} {current next prev : BasicBlock}

/-- Different blocks of the order have different positions. -/
theorem bfsPos_lt {a b : BasicBlock} (ha : a ∈ bfsOrder) (hne : a ≠ b)
    (hle : bfsPos bfsOrder a ≤ bfsPos bfsOrder b) : bfsPos bfsOrder a < bfsPos bfsOrder b :=
  Nat.lt_of_le_of_ne hle fun heq => hne ((List.idxOf_inj ha).mp heq)

/-- In a trace no block comes after the last one, or before the first one, in position. -/
theorem IsTrace.pos_le_last {trace : List BasicBlock}
    (h : IsTrace F profile threshold bfsOrder trace) (hlast : trace.getLast? = some current)
    {a : BasicBlock} (ha : a ∈ trace) : bfsPos bfsOrder a ≤ bfsPos bfsOrder current := by
  obtain ⟨l, rfl⟩ := List.getLast?_eq_some_iff.mp hlast
  rcases List.mem_append.mp ha with ha | ha
  · exact Nat.le_of_lt ((List.pairwise_append.mp h.forward).2.2 a ha current (by simp))
  · rw [List.mem_singleton.mp ha]

theorem IsTrace.head_pos_le {trace : List BasicBlock}
    (h : IsTrace F profile threshold bfsOrder trace) (hhead : trace.head? = some current)
    {a : BasicBlock} (ha : a ∈ trace) : bfsPos bfsOrder current ≤ bfsPos bfsOrder a := by
  obtain ⟨l, rfl⟩ := List.head?_eq_some_iff.mp hhead
  rcases List.mem_cons.mp ha with rfl | ha
  · exact Nat.le_refl _
  · exact Nat.le_of_lt ((List.pairwise_cons.mp h.forward).1 a ha)

theorem GrowInv.forward (h : GrowInv F profile threshold bfsOrder before st)
    (hbfs : F.cfg.IsBreadthFirst bfsOrder) (hlast : st.trace.getLast? = some current)
    (hnext : next ∉ st.visited) (hedge : LikelyEdge F profile threshold current next)
    (hpos : bfsPos bfsOrder current ≤ bfsPos bfsOrder next) (stats : TraceIdStats) :
    GrowInv F profile threshold bfsOrder before
      ⟨st.trace ++ [next], next :: st.visited, stats⟩ := by
  have hcur : current ∈ st.trace := List.mem_of_getLast? hlast
  have hcurV : current ∈ st.visited := h.visited_perm.mem_iff.mpr (List.mem_append_left _ hcur)
  have hcurB := h.isTrace.reachable current hcur
  have hnextB : next ∈ bfsOrder := hbfs.closed current hcurB next hedge.1
  have hne : current ≠ next := by
    intro heq
    subst heq
    exact hnext hcurV
  have hlt := bfsPos_lt hcurB hne hpos
  refine ⟨⟨by simp, ?_, ?_, ?_⟩, ?_, List.nodup_cons.mpr ⟨hnext, h.nodup⟩,
    List.forall_mem_cons.mpr ⟨hnextB, h.visited_mem⟩⟩
  · intro b hb
    rcases List.mem_append.mp hb with hb | hb
    · exact h.isTrace.reachable b hb
    · exact List.mem_singleton.mp hb ▸ hnextB
  · refine List.isChain_append.mpr ⟨h.isTrace.path, List.isChain_singleton _, ?_⟩
    intro a ha b hb
    rw [hlast] at ha
    obtain rfl := Option.some.inj ha
    obtain rfl := Option.some.inj hb
    exact hedge
  · refine List.pairwise_append.mpr ⟨h.isTrace.forward, List.pairwise_singleton _ _, ?_⟩
    intro a ha b hb
    obtain rfl := List.mem_singleton.mp hb
    exact Nat.lt_of_le_of_lt (h.isTrace.pos_le_last hlast ha) hlt
  · show next :: st.visited ~ st.trace ++ [next] ++ before
    rw [List.append_assoc, List.singleton_append]
    exact (h.visited_perm.cons next).trans List.perm_middle.symm

theorem GrowInv.backward (h : GrowInv F profile threshold bfsOrder before st)
    (hhead : st.trace.head? = some current)
    (hprev : prev ∉ st.visited) (hedge : LikelyEdge F profile threshold prev current)
    (hpos : bfsPos bfsOrder prev ≤ bfsPos bfsOrder current) (stats : TraceIdStats) :
    GrowInv F profile threshold bfsOrder before
      ⟨prev :: st.trace, prev :: st.visited, stats⟩ := by
  have hcur : current ∈ st.trace := List.mem_of_head? hhead
  have hcurV : current ∈ st.visited := h.visited_perm.mem_iff.mpr (List.mem_append_left _ hcur)
  have hcurB := h.isTrace.reachable current hcur
  -- an unreachable block would be positioned after every other one
  have hprevB : prev ∈ bfsOrder :=
    List.idxOf_lt_length_iff.mp (Nat.lt_of_le_of_lt hpos (List.idxOf_lt_length_iff.mpr hcurB))
  have hlt := bfsPos_lt hprevB (fun he => hprev (he ▸ hcurV)) hpos
  refine ⟨⟨by simp, List.forall_mem_cons.mpr ⟨hprevB, h.isTrace.reachable⟩, ?_, ?_⟩, ?_,
    List.nodup_cons.mpr ⟨hprev, h.nodup⟩, List.forall_mem_cons.mpr ⟨hprevB, h.visited_mem⟩⟩
  · refine List.isChain_cons.mpr ⟨fun b hb => ?_, h.isTrace.path⟩
    rw [hhead] at hb
    exact Option.some.inj hb ▸ hedge
  · refine List.pairwise_cons.mpr ⟨fun b hb => ?_, h.isTrace.forward⟩
    exact Nat.lt_of_lt_of_le hlt (h.isTrace.head_pos_le hhead hb)
  · exact h.visited_perm.cons prev

/-- Growth ends when the blocks run out, if not before. -/
theorem GrowInv.visited_length_le (h : GrowInv F profile threshold bfsOrder before st) :
    st.visited.length ≤ bfsOrder.length := (h.nodup.subperm h.visited_mem).length_le

variable (statsOn) in
theorem growForward_spec (hbfs : F.cfg.IsBreadthFirst bfsOrder) {fuel : ℕ}
    (h : GrowInv F profile threshold bfsOrder before st) (hlast : st.trace.getLast? = some current)
    (hfuel : bfsOrder.length < fuel + st.visited.length) :
    ∃ st', growForward F profile threshold statsOn bfsOrder fuel current st = some st' ∧
      GrowInv F profile threshold bfsOrder before st' ∧ st'.trace.head? = st.trace.head? ∧
      st.visited.length ≤ st'.visited.length := by
  induction fuel generalizing current st with
  | zero =>
    have := h.visited_length_le
    omega
  | succ fuel ih =>
    rw [growForward]
    cases hbest : bestSuccessor F profile threshold statsOn bfsOrder st.visited st.stats current with
    | mk best stats =>
      cases best with
      | none =>
        exact ⟨_, rfl, ⟨h.isTrace, h.visited_perm, h.nodup, h.visited_mem⟩, rfl, Nat.le_refl _⟩
      | some next =>
        obtain ⟨hnext, hedge, hpos⟩ := bestSuccessor_spec hbest
        have hlast' : (st.trace ++ [next]).getLast? = some next := List.getLast?_concat
        obtain ⟨st', hrun, hinv, hhead, hlen⟩ := ih (h.forward hbfs hlast hnext hedge hpos stats)
          hlast' (by rw [List.length_cons]; omega)
        refine ⟨st', hrun, hinv, hhead.trans ?_, Nat.le_of_succ_le hlen⟩
        exact List.head?_append_of_ne_nil _ h.isTrace.nonempty

variable (statsOn) in
theorem growBackward_spec (hF : F.CfgConsistent) {fuel : ℕ}
    (h : GrowInv F profile threshold bfsOrder before st) (hhead : st.trace.head? = some current)
    (hfuel : bfsOrder.length < fuel + st.visited.length) :
    ∃ st', growBackward F profile threshold statsOn bfsOrder fuel current st = some st' ∧
      GrowInv F profile threshold bfsOrder before st' := by
  induction fuel generalizing current st with
  | zero =>
    have := h.visited_length_le
    omega
  | succ fuel ih =>
    rw [growBackward]
    cases hbest :
        bestPredecessor F profile threshold statsOn bfsOrder st.visited st.stats current with
    | mk best stats =>
      cases best with
      | none => exact ⟨_, rfl, h.isTrace, h.visited_perm, h.nodup, h.visited_mem⟩
      | some prev =>
        obtain ⟨hprev, hedge, hpos⟩ := bestPredecessor_spec hF hbest
        have hhead' : (prev :: st.trace).head? = some prev := rfl
        exact ih (h.backward hhead hprev hedge hpos stats) hhead'
          (by rw [List.length_cons]; omega)

variable (statsOn) in
/-- **The trace of a seed.** -/
theorem growTrace_spec (hF : F.CfgConsistent) (hbfs : F.cfg.IsBreadthFirst bfsOrder)
    {seed : BasicBlock} (hseed : seed ∈ bfsOrder) (hnew : seed ∉ before) (hnd : before.Nodup)
    (hbefore : ∀ b ∈ before, b ∈ bfsOrder) {fuel : ℕ} (hfuel : bfsOrder.length < fuel) :
    ∃ st, growTrace F profile threshold statsOn bfsOrder fuel seed before stats = some st ∧
      GrowInv F profile threshold bfsOrder before st := by
  have hinit : GrowInv F profile threshold bfsOrder before ⟨[seed], seed :: before, stats⟩ :=
    ⟨⟨by simp, by simpa using hseed, List.isChain_singleton _, List.pairwise_singleton _ _⟩,
      List.Perm.refl _, List.nodup_cons.mpr ⟨hnew, hnd⟩,
      List.forall_mem_cons.mpr ⟨hseed, hbefore⟩⟩
  have hfuel' : ∀ st : GrowState, bfsOrder.length < fuel + st.visited.length := by
    intro st
    omega
  have hlast : [seed].getLast? = some seed := rfl
  obtain ⟨st₁, hrun₁, hinv₁, hhead, _⟩ := growForward_spec statsOn hbfs hinit hlast (hfuel' _)
  obtain ⟨st₂, hrun₂, hinv₂⟩ := growBackward_spec statsOn hF hinv₁ hhead (hfuel' _)
  exact ⟨st₂, by rw [growTrace, hrun₁]; exact hrun₂, hinv₂⟩

end Grow

/-! ### All traces -/

/-- A set of traces: disjoint, and together they hold every block that is ever executed. -/
structure IsTracePartition (F : Function) (profile : Profile) (threshold : ℕ)
    (bfsOrder : List BasicBlock) (traces : List (List BasicBlock)) : Prop where
  isTrace : ∀ trace ∈ traces, IsTrace F profile threshold bfsOrder trace
  nodup : traces.flatten.Nodup
  covers : ∀ b ∈ bfsOrder, profile.blockFreq b ≠ 0 → b ∈ traces.flatten

/-- The invariant of the seed loop. -/
structure SeedInv (F : Function) (profile : Profile) (threshold : ℕ)
    (bfsOrder candidates : List BasicBlock) (st : TraceState) : Prop where
  isTrace : ∀ trace ∈ st.traces, IsTrace F profile threshold bfsOrder trace
  visited_perm : st.visited ~ st.traces.flatten
  nodup : st.visited.Nodup
  visited_mem : ∀ b ∈ st.visited, b ∈ bfsOrder
  pending : ∀ b ∈ bfsOrder, b ∈ st.visited ∨ b ∈ candidates
  candidates_mem : ∀ b ∈ candidates, b ∈ bfsOrder
  sorted : candidates.Pairwise fun a b => profile.blockFreq a ≥ profile.blockFreq b

variable (statsOn) in
theorem seedLoop_spec (hF : F.CfgConsistent) (hbfs : F.cfg.IsBreadthFirst bfsOrder)
    {growFuel fuel : ℕ} (hgrow : bfsOrder.length < growFuel) {candidates : List BasicBlock}
    {st : TraceState} (h : SeedInv F profile threshold bfsOrder candidates st)
    (hfuel : bfsOrder.length < fuel + st.visited.length) :
    ∃ st', seedLoop F profile threshold statsOn bfsOrder growFuel fuel candidates st = some st' ∧
      IsTracePartition F profile threshold bfsOrder st'.traces := by
  induction fuel generalizing candidates st with
  | zero =>
    have := (h.nodup.subperm h.visited_mem).length_le
    omega
  | succ fuel ih =>
    rw [seedLoop]
    have hsplit := List.takeWhile_append_dropWhile (p := fun bb => st.visited.contains bb)
      (l := candidates)
    have hpassed : ∀ b ∈ candidates.takeWhile fun bb => st.visited.contains bb, b ∈ st.visited :=
      fun b hb => by simpa using List.mem_takeWhile_imp hb
    -- what was pending is visited, or still to come
    have hpending : ∀ b ∈ bfsOrder, b ∈ st.visited ∨
        b ∈ candidates.dropWhile fun bb => st.visited.contains bb := by
      intro b hb
      rcases h.pending b hb with hb | hb
      · exact .inl hb
      · rw [← hsplit] at hb
        exact (List.mem_append.mp hb).imp_left (hpassed b)
    have hsorted := h.sorted
    rw [← hsplit] at hsorted
    have hdrop := (List.pairwise_append.mp hsorted).2.1
    cases hcand : candidates.dropWhile fun bb => st.visited.contains bb with
    | nil =>
      refine ⟨st, rfl, h.isTrace, h.visited_perm.nodup_iff.mp h.nodup, fun b hb _ => ?_⟩
      rcases hpending b hb with hb | hb
      · exact h.visited_perm.mem_iff.mp hb
      · rw [hcand] at hb
        cases hb
    | cons seed rest =>
      rw [hcand] at hpending hdrop
      have hsub : ∀ b ∈ seed :: rest, b ∈ candidates := by
        intro b hb
        rw [← hcand] at hb
        rw [← hsplit]
        exact List.mem_append_right _ hb
      dsimp only
      split
      · rename_i hzero
        refine ⟨st, rfl, h.isTrace, h.visited_perm.nodup_iff.mp h.nodup, fun b hb hfreq => ?_⟩
        rcases hpending b hb with hb | hb
        · exact h.visited_perm.mem_iff.mp hb
        · -- frequencies only fall from the seed on
          rcases List.mem_cons.mp hb with rfl | hb
          · exact absurd hzero hfreq
          · have := (List.pairwise_cons.mp hdrop).1 b hb
            omega
      · have hnew : seed ∉ st.visited := by
          have := List.head?_dropWhile_not (fun bb => st.visited.contains bb) candidates
          rw [hcand] at this
          simpa using this
        have hseed := h.candidates_mem seed (hsub seed List.mem_cons_self)
        obtain ⟨grown, hrun, hinv⟩ := growTrace_spec statsOn hF hbfs hseed hnew h.nodup h.visited_mem hgrow
        rw [hrun]
        refine ih ⟨?_, ?_, hinv.nodup, hinv.visited_mem, ?_,
          fun b hb => h.candidates_mem b (hsub b hb), hdrop⟩ ?_
        · intro trace htrace
          rcases List.mem_append.mp htrace with htrace | htrace
          · exact h.isTrace trace htrace
          · exact List.mem_singleton.mp htrace ▸ hinv.isTrace
        · show grown.visited ~ (st.traces ++ [grown.trace]).flatten
          rw [List.flatten_append, List.flatten_singleton]
          exact hinv.visited_perm.trans
            (List.perm_append_comm.trans (h.visited_perm.append_right _))
        · intro b hb
          refine (hpending b hb).imp_left fun hb => ?_
          exact hinv.visited_perm.mem_iff.mpr (List.mem_append_right _ hb)
        · have hlen := hinv.visited_perm.length_eq
          have hpos := List.length_pos_of_ne_nil hinv.isTrace.nonempty
          rw [List.length_append] at hlen
          show bfsOrder.length < fuel + grown.visited.length
          omega

/-- **Trace identification ends**, with a partition into traces. -/
theorem identifyTraces_spec (hF : F.CfgConsistent) (profile : Profile) (threshold : ℕ)
    (statsOn : Bool) : ∃ bfsOrder st, F.cfg.breadthFirst (F.blocks.length + 1) = some bfsOrder ∧
      identifyTraces F profile threshold statsOn = some st ∧
      IsTracePartition F profile threshold bfsOrder st.traces := by
  obtain ⟨bfsOrder, hrun⟩ := FlowGraph.breadthFirst_isSome (G := F.cfg) (U := F.blocks)
    Function.entry_mem_blocks fun u _ v hv => hF.succs_mem u v hv
  have hbfs := FlowGraph.breadthFirst_spec hrun
  have hperm := byKeyDesc_perm profile.blockFreq bfsOrder
  have hsorted := byKeyDesc_pairwise profile.blockFreq bfsOrder
  have hinit : SeedInv F profile threshold bfsOrder
      (bfsOrder.insertionSort fun a b => profile.blockFreq a ≥ profile.blockFreq b)
      ⟨[], [], ⟨0, 0, 0⟩⟩ :=
    ⟨by simp, List.Perm.refl _, List.nodup_nil, by simp,
      fun b hb => .inr (hperm.mem_iff.mpr hb), fun b hb => hperm.mem_iff.mp hb, hsorted⟩
  obtain ⟨st, hst, hpart⟩ := seedLoop_spec statsOn hF hbfs (Nat.lt_succ_self bfsOrder.length) hinit
    (Nat.lt_succ_self bfsOrder.length)
  exact ⟨bfsOrder, st, hrun, by rw [identifyTraces, hrun]; exact hst, hpart⟩

/-- A block lies in one trace of a partition at most. -/
theorem IsTracePartition.unique {traces : List (List BasicBlock)}
    (h : IsTracePartition F profile threshold bfsOrder traces) {trace trace' : List BasicBlock}
    (ht : trace ∈ traces) (ht' : trace' ∈ traces) (hb : bb ∈ trace) (hb' : bb ∈ trace') :
    trace = trace' := by
  by_contra hne
  have hdisjoint := (List.nodup_flatten.mp h.nodup).2
  have : Std.Symm (@List.Disjoint BasicBlock) := ⟨fun _ _ h _ ha hb => h hb ha⟩
  exact hdisjoint.forall ht ht' hne hb hb'

/-- A later block of a trace dominates no earlier one. -/
theorem IsTrace.not_dominates {trace : List BasicBlock} (hbfs : F.cfg.IsBreadthFirst bfsOrder)
    (h : IsTrace F profile threshold bfsOrder trace) :
    trace.Pairwise fun a b => ¬ F.cfg.Dominates b a := by
  refine List.pairwise_iff_forall_sublist.mpr fun {a b} hsub hdom => ?_
  have ha : a ∈ bfsOrder := h.reachable a (hsub.subset List.mem_cons_self)
  have hlt : bfsPos bfsOrder a < bfsPos bfsOrder b :=
    List.pairwise_iff_forall_sublist.mp h.forward hsub
  have hle : bfsPos bfsOrder b ≤ bfsPos bfsOrder a := hbfs.idxOf_le_of_dominates hdom ha
  exact Nat.not_lt.mpr hle hlt

/-- **The traces partition the executed blocks into forward paths.** Trace identification ends;
every reachable block of non-zero frequency lies in one trace, no block occurs twice, and no
unreachable block occurs.  A trace is not empty, its consecutive blocks are joined by edges above the
threshold, and it goes forward in breadth-first order, hence against no dominance. -/
theorem identifyTraces_partition (hF : F.CfgConsistent) (profile : Profile) (threshold : ℕ)
    (statsOn : Bool) :
    ∃ bfsOrder traces visited stats,
      F.cfg.breadthFirst (F.blocks.length + 1) = some bfsOrder ∧
      identifyTraces F profile threshold statsOn = some ⟨traces, visited, stats⟩ ∧
      (∀ b, F.cfg.Reachable b → profile.blockFreq b ≠ 0 → ∃! trace, trace ∈ traces ∧ b ∈ trace) ∧
      traces.flatten.Nodup ∧
      (∀ b, ¬ F.cfg.Reachable b → ∀ trace ∈ traces, b ∉ trace) ∧
      ∀ trace ∈ traces, trace ≠ [] ∧
        trace.IsChain (fun a b => b ∈ F.successors a ∧ threshold < profile.edgeProbability a b) ∧
        trace.Pairwise (fun a b => bfsPos bfsOrder a < bfsPos bfsOrder b) ∧
        trace.IsChain (fun a b => ¬ F.cfg.Dominates b a) ∧
        trace.Pairwise (fun a b => ¬ F.cfg.Dominates b a) := by
  obtain ⟨bfsOrder, ⟨traces, visited, stats⟩, hrun, hst, hpart⟩ :=
    identifyTraces_spec hF profile threshold statsOn
  have hbfs := FlowGraph.breadthFirst_spec hrun
  refine ⟨bfsOrder, traces, visited, stats, hrun, hst, ?_, hpart.nodup, ?_, ?_⟩
  · intro b hb hfreq
    obtain ⟨trace, ht, hbt⟩ := List.mem_flatten.mp (hpart.covers b (hbfs.mem_iff.mpr hb) hfreq)
    refine ⟨trace, ⟨ht, hbt⟩, fun trace' h' => ?_⟩
    exact hpart.unique h'.1 ht h'.2 hbt
  · intro b hb trace ht hbt
    exact hb (hbfs.mem_iff.mp ((hpart.isTrace trace ht).reachable b hbt))
  · intro trace ht
    have htrace := hpart.isTrace trace ht
    have hdom := htrace.not_dominates hbfs
    exact ⟨htrace.nonempty, htrace.path, htrace.forward, hdom.isChain, hdom⟩

/-- A profile in which every edge is certain. -/
def certain : Profile := ⟨fun _ _ => 2 ^ 31, fun _ => 1⟩

theorem identifyTraces_twoBlocks :
    identifyTraces twoBlocks certain 60 false = some ⟨[[0, 1]], [1, 0], ⟨0, 0, 0⟩⟩ := rfl

theorem twoBlocks_partition :
    twoBlocks.CfgConsistent ∧ ∃ bfsOrder traces visited stats,
      twoBlocks.cfg.breadthFirst 3 = some bfsOrder ∧
      identifyTraces twoBlocks certain 60 true = some ⟨traces, visited, stats⟩ ∧
      (∀ b, twoBlocks.cfg.Reachable b → 1 ≠ 0 → ∃! trace, trace ∈ traces ∧ b ∈ trace) ∧
      traces.flatten.Nodup ∧
      (∀ b, ¬ twoBlocks.cfg.Reachable b → ∀ trace ∈ traces, b ∉ trace) ∧
      ∀ trace ∈ traces, trace ≠ [] ∧
        trace.IsChain (fun a b => b ∈ twoBlocks.successors a ∧ 60 < 2 ^ 31) ∧
        trace.Pairwise (fun a b => bfsPos bfsOrder a < bfsPos bfsOrder b) ∧
        trace.IsChain (fun a b => ¬ twoBlocks.cfg.Dominates b a) ∧
        trace.Pairwise (fun a b => ¬ twoBlocks.cfg.Dominates b a) :=
  ⟨twoBlocks_wellFormed.cfgConsistent,
    identifyTraces_partition twoBlocks_wellFormed.cfgConsistent certain 60 true⟩

end TraceScheduler
