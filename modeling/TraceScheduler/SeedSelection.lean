import TraceScheduler.Library.StableSelect
import TraceScheduler.TraceIdentification

/-!
# Seeds by cursor and seeds by rescan

The seed loop walks a cursor over the blocks sorted by frequency.  The version it replaced scanned the
whole breadth-first order before every trace for the unvisited block of the greatest positive
frequency.  Here both are runs of one loop, `traceLoop`, that differ in how the next seed is picked.
Between two picks growth adds any number of blocks to the visited set and removes none, so everything
the cursor has passed stays visited (`CursorInv`); what it stops at is then what the scan selects
(`scanMax_eq`).
-/

namespace TraceScheduler

open scoped List

/-! ### Two ways to pick a seed -/

section

variable (F : Function) (profile : Profile) (threshold : ℕ) (statsOn : Bool)
  (bfsOrder : List BasicBlock)

/-- The block under the cursor once it has passed the visited ones, and the list from there on. -/
def cursorPick (candidates visited : List BasicBlock) : Option (BasicBlock × List BasicBlock) :=
  match candidates.dropWhile fun bb => visited.contains bb with
  | [] => none
  | seed :: rest => if profile.blockFreq seed = 0 then none else some (seed, seed :: rest)

/-- The first unvisited block of the greatest frequency, starting from zero. -/
def rescanPick (_ : Unit) (visited : List BasicBlock) : Option (BasicBlock × Unit) :=
  (scanMax profile.blockFreq (fun bb => !visited.contains bb) bfsOrder).map fun seed => (seed, ())

/-- Pick a seed and grow its trace until no seed is left; the result with the seeds in order. -/
def traceLoop {σ : Type} (pick : σ → List BasicBlock → Option (BasicBlock × σ)) (growFuel : ℕ) :
    ℕ → σ → TraceState → Option (TraceState × List BasicBlock)
  | 0, _, _ => none
  | fuel + 1, s, st =>
      match pick s st.visited with
      | none => some (st, [])
      | some (seed, s') =>
          match growTrace F profile threshold statsOn bfsOrder growFuel seed st.visited st.stats with
          | none => none
          | some grown =>
              (traceLoop pick growFuel fuel s'
                ⟨st.traces ++ [grown.trace], grown.visited, grown.stats⟩).map fun r =>
                  (r.1, seed :: r.2)

end

/-- Trace identification with the cursor, and the seeds it picks. -/
def identifyTracesByCursor (F : Function) (profile : Profile) (threshold : ℕ) (statsOn : Bool) :
    Option (TraceState × List BasicBlock) := do
  let bfsOrder ← F.cfg.breadthFirst (F.blocks.length + 1)
  traceLoop F profile threshold statsOn bfsOrder (cursorPick profile) (bfsOrder.length + 1)
    (bfsOrder.length + 1) (byKeyDesc profile.blockFreq bfsOrder) ⟨[], [], ⟨0, 0, 0⟩⟩

/-- Trace identification with a rescan before every trace, and the seeds it picks. -/
def identifyTracesByRescan (F : Function) (profile : Profile) (threshold : ℕ) (statsOn : Bool) :
    Option (TraceState × List BasicBlock) := do
  let bfsOrder ← F.cfg.breadthFirst (F.blocks.length + 1)
  traceLoop F profile threshold statsOn bfsOrder (rescanPick profile bfsOrder) (bfsOrder.length + 1)
    (bfsOrder.length + 1) () ⟨[], [], ⟨0, 0, 0⟩⟩

variable {F : Function} {profile : Profile} {threshold growFuel fuel : ℕ} {statsOn : Bool}
  {bfsOrder candidates candidates' visited visited' : List BasicBlock} {stats : TraceIdStats}
  {seed bb : BasicBlock} {st : TraceState} {grow grow' : GrowState}

/-- The seed loop is the loop with the cursor. -/
theorem seedLoop_eq_traceLoop :
    seedLoop F profile threshold statsOn bfsOrder growFuel fuel candidates st =
      (traceLoop F profile threshold statsOn bfsOrder (cursorPick profile) growFuel fuel candidates
        st).map Prod.fst := by
  induction fuel generalizing candidates st with
  | zero => rfl
  | succ fuel ih =>
    rw [seedLoop, traceLoop, cursorPick]
    cases candidates.dropWhile fun bb => st.visited.contains bb with
    | nil => rfl
    | cons seed rest =>
      dsimp only
      by_cases hzero : profile.blockFreq seed = 0
      · rw [if_pos hzero, if_pos hzero]
        rfl
      · rw [if_neg hzero, if_neg hzero]
        dsimp only
        cases growTrace F profile threshold statsOn bfsOrder growFuel seed st.visited st.stats with
        | none => rfl
        | some grown =>
          dsimp only
          rw [ih, Option.map_map]
          rfl

/-! ### Growth only adds -/

/-- Growth keeps the blocks of the trace and of the visited set. -/
structure Grows (grow grow' : GrowState) : Prop where
  trace : ∀ b ∈ grow.trace, b ∈ grow'.trace
  visited : ∀ b ∈ grow.visited, b ∈ grow'.visited

theorem grows_forward
    (h : growForward F profile threshold statsOn bfsOrder fuel bb grow = some grow') :
    Grows grow grow' := by
  induction fuel generalizing bb grow with
  | zero => cases h
  | succ fuel ih =>
    rw [growForward] at h
    split at h
    · obtain rfl := Option.some.inj h
      exact ⟨fun _ hb => hb, fun _ hb => hb⟩
    · have hrest := ih h
      exact ⟨fun b hb => hrest.trace b (List.mem_append_left _ hb),
        fun b hb => hrest.visited b (List.mem_cons_of_mem _ hb)⟩

theorem grows_backward
    (h : growBackward F profile threshold statsOn bfsOrder fuel bb grow = some grow') :
    Grows grow grow' := by
  induction fuel generalizing bb grow with
  | zero => cases h
  | succ fuel ih =>
    rw [growBackward] at h
    split at h
    · obtain rfl := Option.some.inj h
      exact ⟨fun _ hb => hb, fun _ hb => hb⟩
    · have hrest := ih h
      exact ⟨fun b hb => hrest.trace b (List.mem_cons_of_mem _ hb),
        fun b hb => hrest.visited b (List.mem_cons_of_mem _ hb)⟩

/-- A trace holds its seed, and what was visited stays visited. -/
theorem grows_seed
    (h : growTrace F profile threshold statsOn bfsOrder growFuel seed visited stats = some grow) :
    seed ∈ grow.trace ∧ ∀ b ∈ seed :: visited, b ∈ grow.visited := by
  rw [growTrace] at h
  obtain ⟨forward, hforward, hbackward⟩ := Option.bind_eq_some_iff.mp h
  have hf := grows_forward hforward
  have hb := grows_backward hbackward
  exact ⟨hb.trace seed (hf.trace seed (List.mem_singleton_self seed)),
    fun b hmem => hb.visited b (hf.visited b hmem)⟩

/-! ### The same picks -/

/-- **Two ways to pick** lead to the same run when some relation between their states, which growth
does not break, makes them pick the same seed. -/
theorem traceLoop_congr {σ τ : Type} {pick : σ → List BasicBlock → Option (BasicBlock × σ)}
    {pick' : τ → List BasicBlock → Option (BasicBlock × τ)} (R : σ → τ → List BasicBlock → Prop)
    (hgrow : ∀ s t visited visited', R s t visited → (∀ b ∈ visited, b ∈ visited') → R s t visited')
    (hpick : ∀ s t visited, R s t visited →
      (pick s visited = none ∧ pick' t visited = none) ∨
        ∃ seed s' t', pick s visited = some (seed, s') ∧ pick' t visited = some (seed, t') ∧
          R s' t' visited)
    {s : σ} {t : τ} (hR : R s t st.visited) :
    traceLoop F profile threshold statsOn bfsOrder pick growFuel fuel s st =
      traceLoop F profile threshold statsOn bfsOrder pick' growFuel fuel t st := by
  induction fuel generalizing s t st with
  | zero => rfl
  | succ fuel ih =>
    rw [traceLoop, traceLoop]
    cases hpick s t st.visited hR with
    | inl hnone => rw [hnone.1, hnone.2]
    | inr hsome =>
      obtain ⟨seed, s', t', hs, ht, hR'⟩ := hsome
      rw [hs, ht]
      dsimp only
      cases hgrown : growTrace F profile threshold statsOn bfsOrder growFuel seed st.visited
          st.stats with
      | none => rfl
      | some grown =>
        dsimp only
        rw [ih]
        apply hgrow s' t' st.visited _ hR'
        intro b hb
        exact (grows_seed hgrown).2 b (List.mem_cons_of_mem _ hb)

/-- The candidates are the sorted blocks from the cursor on, and everything before it is visited. -/
def CursorInv (profile : Profile) (bfsOrder candidates visited : List BasicBlock) : Prop :=
  ∃ passed, byKeyDesc profile.blockFreq bfsOrder = passed ++ candidates ∧ ∀ b ∈ passed, b ∈ visited

theorem CursorInv.mono (h : CursorInv profile bfsOrder candidates visited)
    (hsub : ∀ b ∈ visited, b ∈ visited') : CursorInv profile bfsOrder candidates visited' := by
  obtain ⟨passed, heq, hpassed⟩ := h
  exact ⟨passed, heq, fun b hb => hsub b (hpassed b hb)⟩

/-- Moving the cursor past visited blocks. -/
theorem CursorInv.dropWhile (h : CursorInv profile bfsOrder candidates visited) :
    CursorInv profile bfsOrder (candidates.dropWhile fun bb => visited.contains bb) visited := by
  obtain ⟨passed, heq, hpassed⟩ := h
  refine ⟨passed ++ candidates.takeWhile fun bb => visited.contains bb, ?_, ?_⟩
  · rw [List.append_assoc, List.takeWhile_append_dropWhile, heq]
  · intro b hb
    rcases List.mem_append.mp hb with hb | hb
    · exact hpassed b hb
    · simpa using List.mem_takeWhile_imp hb

/-- **The cursor stops at the block the rescan selects.** -/
theorem CursorInv.pick (hnd : bfsOrder.Nodup) (h : CursorInv profile bfsOrder candidates visited) :
    (cursorPick profile candidates visited = none ∧ rescanPick profile bfsOrder () visited = none) ∨
      ∃ seed candidates' t, cursorPick profile candidates visited = some (seed, candidates') ∧
        rescanPick profile bfsOrder () visited = some (seed, t) ∧
        CursorInv profile bfsOrder candidates' visited := by
  have hdrop := h.dropWhile
  obtain ⟨passed, heq, hpassed⟩ := hdrop
  have hnone : passed.find? (fun bb => !visited.contains bb) = none := by
    apply List.find?_eq_none.mpr
    intro b hb
    simpa using hpassed b hb
  rw [rescanPick, scanMax_eq hnd, heq, List.find?_append, hnone, Option.none_or, cursorPick]
  cases hcand : candidates.dropWhile fun bb => visited.contains bb with
  | nil => exact .inl ⟨rfl, rfl⟩
  | cons seed rest =>
    have hnew : visited.contains seed = false := by
      have hhead := List.head?_dropWhile_not (fun bb => visited.contains bb) candidates
      rw [hcand] at hhead
      exact hhead
    rw [List.find?_cons_of_pos (by simp only [hnew, Bool.not_false])]
    dsimp only
    by_cases hzero : profile.blockFreq seed = 0
    · left
      rw [if_pos hzero, Option.filter_some, if_neg (by simpa using hzero)]
      exact ⟨rfl, rfl⟩
    · right
      rw [if_neg hzero, Option.filter_some, if_pos (by simpa using hzero)]
      exact ⟨seed, seed :: rest, (), rfl, rfl, passed, by rw [heq, hcand], hpassed⟩

/-! ### The seeds -/

/-- The seeds come from the candidates, in their order, and each lies in its trace. -/
theorem traceLoop_seeds {seeds : List BasicBlock} {st' : TraceState}
    (hsorted : candidates.Pairwise fun a b => profile.blockFreq a ≥ profile.blockFreq b)
    (h : traceLoop F profile threshold statsOn bfsOrder (cursorPick profile) growFuel fuel candidates
      st = some (st', seeds)) :
    (∀ b ∈ seeds, b ∈ candidates) ∧
      seeds.Pairwise (fun a b => profile.blockFreq a ≥ profile.blockFreq b) ∧
      ∃ traces, st'.traces = st.traces ++ traces ∧
        List.Forall₂ (fun seed trace => seed ∈ trace) seeds traces := by
  induction fuel generalizing candidates st seeds with
  | zero => cases h
  | succ fuel ih =>
    rw [traceLoop, cursorPick] at h
    cases hcand : candidates.dropWhile fun bb => st.visited.contains bb with
    | nil =>
      rw [hcand] at h
      obtain ⟨rfl, rfl⟩ := Prod.mk.inj (Option.some.inj h)
      exact ⟨fun b hb => absurd hb (List.not_mem_nil), List.Pairwise.nil, [],
        (List.append_nil _).symm, .nil⟩
    | cons seed rest =>
      have hsub : seed :: rest <+ candidates := hcand ▸ List.dropWhile_sublist _
      have hfalls := hsorted.sublist hsub
      rw [hcand] at h
      dsimp only at h
      by_cases hzero : profile.blockFreq seed = 0
      · rw [if_pos hzero] at h
        obtain ⟨rfl, rfl⟩ := Prod.mk.inj (Option.some.inj h)
        exact ⟨fun b hb => absurd hb (List.not_mem_nil), List.Pairwise.nil, [],
          (List.append_nil _).symm, .nil⟩
      · rw [if_neg hzero] at h
        dsimp only at h
        cases hgrown : growTrace F profile threshold statsOn bfsOrder growFuel seed st.visited
            st.stats with
        | none =>
          rw [hgrown] at h
          cases h
        | some grown =>
          rw [hgrown] at h
          obtain ⟨⟨st₁, seeds₁⟩, hrun, heq⟩ := Option.map_eq_some_iff.mp h
          obtain ⟨rfl, rfl⟩ := Prod.mk.inj heq
          obtain ⟨hmem, hpairs, traces, htraces, hseeds⟩ := ih hfalls hrun
          refine ⟨?_, ?_, grown.trace :: traces, ?_, .cons (grows_seed hgrown).1 hseeds⟩
          · exact List.forall_mem_cons.mpr
              ⟨hsub.subset List.mem_cons_self, fun b hb => hsub.subset (hmem b hb)⟩
          · apply List.pairwise_cons.mpr
            refine ⟨?_, hpairs⟩
            intro b hb
            rcases List.mem_cons.mp (hmem b hb) with heq | hrest
            · rw [heq]
            · exact (List.pairwise_cons.mp hfalls).1 b hrest
          · rw [htraces, List.append_assoc, List.singleton_append]

/-- **The cursor picks the seeds the rescan picks.** For every consistent control-flow graph, whatever
the frequencies and probabilities, both versions of trace identification end with the same traces from
the same seeds, one for each trace, in order of falling frequency. -/
theorem identifyTraces_rescan (hF : F.CfgConsistent) (profile : Profile) (threshold : ℕ)
    (statsOn : Bool) :
    ∃ st seeds, identifyTraces F profile threshold statsOn = some st ∧
      identifyTracesByCursor F profile threshold statsOn = some (st, seeds) ∧
      identifyTracesByRescan F profile threshold statsOn = some (st, seeds) ∧
      List.Forall₂ (fun seed trace => seed ∈ trace) seeds st.traces ∧
      seeds.Pairwise fun a b => profile.blockFreq a ≥ profile.blockFreq b := by
  obtain ⟨bfsOrder, st, hsearch, hst, _⟩ := identifyTraces_spec hF profile threshold statsOn
  have hbfs := FlowGraph.breadthFirst_spec hsearch
  have hrun := hst
  rw [identifyTraces, hsearch] at hrun
  replace hrun : seedLoop F profile threshold statsOn bfsOrder (bfsOrder.length + 1)
      (bfsOrder.length + 1) (byKeyDesc profile.blockFreq bfsOrder) ⟨[], [], ⟨0, 0, 0⟩⟩ = some st := hrun
  rw [seedLoop_eq_traceLoop] at hrun
  obtain ⟨⟨st', seeds⟩, hloop, heq⟩ := Option.map_eq_some_iff.mp hrun
  obtain rfl : st' = st := heq
  obtain ⟨_, hpairs, traces, htraces, hseeds⟩ := traceLoop_seeds (byKeyDesc_pairwise _ _) hloop
  have hcursor : identifyTracesByCursor F profile threshold statsOn = some (st', seeds) := by
    rw [identifyTracesByCursor, hsearch]
    exact hloop
  have hsame : identifyTracesByRescan F profile threshold statsOn = some (st', seeds) := by
    rw [identifyTracesByRescan, hsearch, ← hloop]
    symm
    apply traceLoop_congr fun candidates _ visited => CursorInv profile bfsOrder candidates visited
    · intro candidates _ visited visited' h hsub
      exact h.mono hsub
    · intro candidates t visited h
      exact h.pick hbfs.nodup
    · exact ⟨[], rfl, by simp⟩
  refine ⟨st', seeds, hst, hcursor, hsame, ?_, hpairs⟩
  rw [htraces, List.nil_append]
  exact hseeds

/-- Two blocks of the same frequency. -/
theorem twoBlocks_rescan : twoBlocks.CfgConsistent ∧
    ∃ st seeds, identifyTraces twoBlocks certain 60 false = some st ∧
      identifyTracesByCursor twoBlocks certain 60 false = some (st, seeds) ∧
      identifyTracesByRescan twoBlocks certain 60 false = some (st, seeds) ∧
      List.Forall₂ (fun seed trace => seed ∈ trace) seeds st.traces ∧
      seeds.Pairwise fun a b => certain.blockFreq a ≥ certain.blockFreq b :=
  ⟨twoBlocks_wellFormed.cfgConsistent,
    identifyTraces_rescan twoBlocks_wellFormed.cfgConsistent certain 60 false⟩

end TraceScheduler
