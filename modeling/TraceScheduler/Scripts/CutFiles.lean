import TraceScheduler.Scripts.CiGate

/-!
# Files that a kill has cut

The stage files and `results.csv` are written in place.  A run that is killed inside a write leaves a file
that is there but cut.  `--resume` takes a stage file that is there for done, and `load_json` raises an
exception on one that is cut: no proper beginning of a JSON object is JSON.  `CutRoot` adds to the output
root which of its files have been cut.  Where none of the files of a benchmark is, the loop body is that
of `RunSuite` (`benchStepCut_whole`); past one that is cut a resumed run does not get
(`foldlM_benchStepCut_stuck`).

A kill ends the containers with the run.  After a kill inside the rewriting of `results.csv` the rows that
are read from it can be anything, until a run without `--resume` starts it anew.  A resumed run that
cannot read the table at all, for a character that is cut or a field beyond the limit of the reader, ends
before its first benchmark and leaves everything as it is.
-/

namespace TraceScheduler.Scripts

/-- The output root, and which files have been cut: the stage files by benchmark, and `results.csv`, if
it has been cut since it was last started. -/
structure CutRoot where
  root : OutRoot
  cutA : String → Bool
  cutB : String → Bool
  cutCsv : Bool

namespace CutRoot

/-- Nothing is cut. -/
def whole (root : OutRoot) : CutRoot := ⟨root, fun _ => false, fun _ => false, false⟩

variable (st : CutRoot) (name : String)

/-- `os.path.exists(stage_a_path)`. -/
def hasA : Bool := (st.root.stageA name).isSome || st.cutA name

def hasB : Bool := (st.root.stageB name).isSome || st.cutB name

/-- A Stage A run that comes to its end. -/
def runA (o : StageARun) : CutRoot :=
  { st with
    root := runStageA name o st.root
    cutA := match o with
      | .failed _ => st.cutA
      | .wrote _ => Function.update st.cutA name false }

def runB (o : StageBRun) : CutRoot :=
  { st with
    root := runStageB name o st.root
    cutB := match o with
      | .failed => st.cutB
      | .wrote _ => Function.update st.cutB name false }

/-- Killed while `stageA.json` is written. -/
def cutStageA (linked : String → Bool) : CutRoot :=
  { st with
    root := { st.root.link name linked with stageA := Function.update st.root.stageA name none }
    cutA := Function.update st.cutA name true }

/-- Killed while `stageB.json` is written. -/
def cutStageB : CutRoot :=
  { st with
    root := { st.root with
      clock := st.root.clock + 1
      stageB := Function.update st.root.stageB name none }
    cutB := Function.update st.cutB name true }

end CutRoot

/-! ### One invocation -/

def stageAStepCut (args : Args) (name : String) (o : StageARun) (st : CutRoot) : CutRoot × Bool :=
  if args.resume && st.hasA name then (st, true)
  else
    (st.runA name o,
      match o with
      | .failed _ => false
      | .wrote _ => true)

/-- The results are correct, and gem5 data is asked for. -/
def asksStageB (args : Args) (name : String) (root : OutRoot) : Bool :=
  !args.skipGem5 && stageACorrect (loadStageA root name)

/-- Stage B is run. -/
def runsStageB (args : Args) (name : String) (st : CutRoot) : Bool :=
  asksStageB args name st.root && !(args.resume && st.hasB name)

def stageBStepCut (args : Args) (name : String) (o : StageBRun) (st : CutRoot) : CutRoot :=
  if runsStageB args name st then st.runB name o else st

/-- The loop body of `main`; `.error` is an exception. -/
def benchStepCut (args : Args) (outcomes : String → BenchOutcome) (st : CutRoot) (bench : Benchmark) :
    Except CutRoot CutRoot :=
  let o := outcomes bench.name
  let (st, done) := stageAStepCut args bench.name o.stageA st
  if done then
    if st.cutA bench.name then .error st
    else
      let st := stageBStepCut args bench.name o.stageB st
      if asksStageB args bench.name st.root && st.cutB bench.name then .error st
      else .ok { st with root := writeRows (rowsFor args bench st.root) st.root }
  else .ok st

def startCsvCut (args : Args) (st : CutRoot) : CutRoot :=
  { st with root := startCsv args st.root, cutCsv := args.resume && st.cutCsv }

def runSuiteCut (args : Args) (outcomes : String → BenchOutcome) (st : CutRoot) :
    Except CutRoot CutRoot :=
  if (unknownNames args.only).isEmpty then
    (selectedBenchmarks args.only).foldlM (benchStepCut args outcomes) (startCsvCut args st)
  else .error st

/-! ### Kills -/

/-- The binaries that a Stage A run links. -/
def StageARun.links : StageARun → String → Bool
  | .failed linked, key => linked key
  | .wrote runs, key => (runs key).linked

section

variable (args : Args) (outcomes : String → BenchOutcome)

/-- What a run leaves that is killed while it works on a benchmark. -/
inductive KilledAt (bench : Benchmark) (st : CutRoot) : CutRoot → Prop
  | before : KilledAt bench st st
  | inStageA (hruns : (args.resume && st.hasA bench.name) = false) (linked : String → Bool)
      (hlinked : ∀ key, linked key = true → (outcomes bench.name).stageA.links key = true) :
      KilledAt bench st { st with root := st.root.link bench.name linked }
  | writingStageA (hruns : (args.resume && st.hasA bench.name) = false) {runs : String → ConfigRun}
      (hwrites : (outcomes bench.name).stageA = .wrote runs) :
      KilledAt bench st (st.cutStageA bench.name fun key => (runs key).linked)
  | afterStageA : KilledAt bench st (stageAStepCut args bench.name (outcomes bench.name).stageA st).1
  | inStageB {st₁ : CutRoot}
      (hdone : stageAStepCut args bench.name (outcomes bench.name).stageA st = (st₁, true))
      (hloads : st₁.cutA bench.name = false) (hruns : runsStageB args bench.name st₁ = true) :
      KilledAt bench st (st₁.runB bench.name .failed)
  | writingStageB {st₁ : CutRoot} {stats : String → Dict Scalar}
      (hdone : stageAStepCut args bench.name (outcomes bench.name).stageA st = (st₁, true))
      (hloads : st₁.cutA bench.name = false) (hruns : runsStageB args bench.name st₁ = true)
      (hwrites : (outcomes bench.name).stageB = .wrote stats) :
      KilledAt bench st (st₁.cutStageB bench.name)
  | afterStageB {st₁ : CutRoot}
      (hdone : stageAStepCut args bench.name (outcomes bench.name).stageA st = (st₁, true))
      (hloads : st₁.cutA bench.name = false) :
      KilledAt bench st (stageBStepCut args bench.name (outcomes bench.name).stageB st₁)
  | writingCsv {st₁ : CutRoot}
      (hdone : (stageAStepCut args bench.name (outcomes bench.name).stageA st).2 = true)
      (hends : benchStepCut args outcomes st bench = .ok st₁) (csv : Option (List (Row String))) :
      KilledAt bench st { st₁ with root := { st₁.root with csv := csv }, cutCsv := true }

/-- What a run leaves that is killed after it has started, raises an exception or comes to its end. -/
inductive Interrupted (st : CutRoot) : CutRoot → Prop
  | atBench {done rest : List Benchmark} {bench : Benchmark} {st₁ st' : CutRoot}
      (hsplit : selectedBenchmarks args.only = done ++ bench :: rest)
      (hdone : done.foldlM (benchStepCut args outcomes) (startCsvCut args st) = .ok st₁)
      (hkilled : KilledAt args outcomes bench st₁ st') : Interrupted st st'
  | raised {st' : CutRoot} (hends : runSuiteCut args outcomes st = .error st') : Interrupted st st'
  | atEnd {st' : CutRoot} (hends : runSuiteCut args outcomes st = .ok st') : Interrupted st st'

end

/-! ### Where nothing is cut -/

/-- Neither stage file of the benchmark is cut. -/
structure CutRoot.Uncut (st : CutRoot) (name : String) : Prop where
  stageA : st.cutA name = false
  stageB : st.cutB name = false

variable {args : Args} {outcomes : String → BenchOutcome} {st st' : CutRoot} {root : OutRoot}
  {name name' : String} {bench : Benchmark} {benches done rest : List Benchmark}

theorem CutRoot.Uncut.withRoot (h : st.Uncut name) (root : OutRoot) :
    CutRoot.Uncut { st with root := root } name :=
  ⟨h.stageA, h.stageB⟩

theorem update_false {cut : String → Bool} (h : cut name = false) :
    Function.update cut name false = cut := by
  rw [← h]
  exact Function.update_eq_self name cut

theorem stageAStepCut_whole (hA : st.cutA name = false) (o : StageARun) :
    stageAStepCut args name o st =
      ({ st with root := (stageAStep args name o st.root).1 }, (stageAStep args name o st.root).2) := by
  have hrun : st.runA name o = { st with root := runStageA name o st.root } := by
    cases o with
    | failed linked => rfl
    | wrote runs => simp only [CutRoot.runA, update_false hA]
  have hhas : st.hasA name = (st.root.stageA name).isSome := by rw [CutRoot.hasA, hA, Bool.or_false]
  unfold stageAStepCut stageAStep
  rw [hhas, hrun]
  split
  · rfl
  · rfl

/-- Stage A is done. -/
theorem stageAStepCut_done (h : st.Uncut name) {o : StageARun} {st₁ : CutRoot}
    (hdone : stageAStepCut args name o st = (st₁, true)) :
    st₁ = { st with root := (stageAStep args name o st.root).1 } ∧
      (stageAStep args name o st.root).2 = true := by
  rw [stageAStepCut_whole h.stageA, Prod.mk.injEq] at hdone
  exact ⟨hdone.1.symm, hdone.2⟩

theorem stageBStepCut_whole (hB : st.cutB name = false) (o : StageBRun) :
    stageBStepCut args name o st = { st with root := stageBStep args name o st.root } := by
  have hrun : st.runB name o = { st with root := runStageB name o st.root } := by
    cases o with
    | failed => rfl
    | wrote stats => simp only [CutRoot.runB, update_false hB]
  have hhas : st.hasB name = (st.root.stageB name).isSome := by rw [CutRoot.hasB, hB, Bool.or_false]
  rw [stageBStepCut, runsStageB, asksStageB, hhas, stageBStep, hrun]
  cases args.skipGem5 with
  | true => rfl
  | false =>
    cases stageACorrect (loadStageA st.root name) with
    | false => rfl
    | true =>
      cases args.resume && (st.root.stageB name).isSome with
      | false => rfl
      | true => rfl

/-- **The loop body where no file is cut.** -/
theorem benchStepCut_whole (h : st.Uncut bench.name) :
    benchStepCut args outcomes st bench =
      .ok { st with root := benchStep args outcomes st.root bench } := by
  have hstepB : ∀ root o, stageBStepCut args bench.name o { st with root := root } =
      { st with root := stageBStep args bench.name o root } := by
    intro root o
    exact stageBStepCut_whole (h.withRoot root).stageB o
  simp only [benchStepCut, benchStep, stageAStepCut_whole h.stageA, hstepB, h.stageA, h.stageB,
    Bool.and_false, Bool.false_eq_true, if_false]
  split
  · rfl
  · rfl

theorem foldlM_benchStepCut_whole (h : ∀ bench ∈ benches, st.Uncut bench.name) :
    benches.foldlM (benchStepCut args outcomes) st =
      .ok { st with root := benches.foldl (benchStep args outcomes) st.root } := by
  induction benches generalizing st with
  | nil => rfl
  | cons bench benches ih =>
    rw [List.forall_mem_cons] at h
    rw [List.foldlM_cons, benchStepCut_whole h.1]
    exact ih fun other hother => (h.2 other hother).withRoot _

/-! ### The table -/

/-- The table is the same. -/
structure SameTable (st st' : CutRoot) : Prop where
  csv : st'.root.csv = st.root.csv
  cutCsv : st'.cutCsv = st.cutCsv

theorem SameTable.trans {st'' : CutRoot} (h : SameTable st st') (h' : SameTable st' st'') :
    SameTable st st'' :=
  ⟨h'.csv.trans h.csv, h'.cutCsv.trans h.cutCsv⟩

theorem sameTable_stageAStepCut (o : StageARun) : SameTable st (stageAStepCut args name o st).1 := by
  unfold stageAStepCut
  split
  · exact ⟨rfl, rfl⟩
  · cases o with
    | failed linked => exact ⟨rfl, rfl⟩
    | wrote runs => exact ⟨rfl, rfl⟩

theorem sameTable_stageBStepCut (o : StageBRun) : SameTable st (stageBStepCut args name o st) := by
  rw [stageBStepCut]
  split
  · exact ⟨(runStageB_keeps name o st.root).2, rfl⟩
  · exact ⟨rfl, rfl⟩

/-- **A kill leaves the table as it was, or cut.** -/
theorem KilledAt.sameTable (h : KilledAt args outcomes bench st st') :
    st'.cutCsv = true ∨ SameTable st st' := by
  have hA : SameTable st (stageAStepCut args bench.name (outcomes bench.name).stageA st).1 :=
    sameTable_stageAStepCut _
  have hafterA : ∀ {st₁ : CutRoot},
      stageAStepCut args bench.name (outcomes bench.name).stageA st = (st₁, true) →
        SameTable st st₁ := by
    intro st₁ hst₁
    rwa [hst₁] at hA
  cases h with
  | before => exact .inr ⟨rfl, rfl⟩
  | inStageA hruns linked hlinked => exact .inr ⟨rfl, rfl⟩
  | writingStageA hruns hwrites => exact .inr ⟨rfl, rfl⟩
  | afterStageA => exact .inr hA
  | inStageB hst₁ hloads hruns => exact .inr ((hafterA hst₁).trans ⟨rfl, rfl⟩)
  | writingStageB hst₁ hloads hruns hwrites => exact .inr ((hafterA hst₁).trans ⟨rfl, rfl⟩)
  | afterStageB hst₁ hloads => exact .inr ((hafterA hst₁).trans (sameTable_stageBStepCut _))
  | writingCsv hflag hends csv => exact .inl rfl

/-! ### What a resumed run does not get past -/

/-- Where `stageB.json` is cut, Stage A is done and asks for gem5. -/
def CutRoot.Held (args : Args) (st : CutRoot) (name : String) : Prop :=
  st.cutB name = true → (st.root.stageA name).isSome = true ∧ asksStageB args name st.root = true

/-- A file that is there is not written again. -/
theorem stageAStep_of_isSome (hresume : args.resume = true)
    (hthere : (root.stageA name').isSome = true) (o : StageARun) :
    (stageAStep args name o root).1.stageA name' = root.stageA name' := by
  unfold stageAStep
  split
  · rfl
  · rename_i hmissing
    have hne : name' ≠ name := by
      rintro rfl
      exact hmissing (by rw [hresume, hthere]; rfl)
    cases o with
    | failed linked => rfl
    | wrote runs => exact Function.update_of_ne hne _ _

theorem benchStep_of_isSome (hresume : args.resume = true)
    (hthere : (root.stageA name').isSome = true) :
    (benchStep args outcomes root bench).stageA name' = root.stageA name' := by
  have hA : (stageAStep args bench.name (outcomes bench.name).stageA root).1.stageA name' =
      root.stageA name' := stageAStep_of_isSome hresume hthere _
  rw [benchStep]
  dsimp only
  split
  · rw [writeRows]
    dsimp only
    rw [stageBStep_stageA, hA]
  · exact hA

theorem CutRoot.Held.of_stageA (h : st.Held args name) (hcut : st'.cutB name = st.cutB name)
    (hA : (st.root.stageA name).isSome = true → st'.root.stageA name = st.root.stageA name) :
    st'.Held args name := by
  intro hB
  rw [hcut] at hB
  obtain ⟨hthere, hasks⟩ := h hB
  have hload : loadStageA st'.root name = loadStageA st.root name := by
    rw [loadStageA, hA hthere, loadStageA]
  rw [asksStageB, hload, hA hthere]
  exact ⟨hthere, hasks⟩

theorem CutRoot.Held.foldl (h : st.Held args name) (hresume : args.resume = true)
    (outcomes : String → BenchOutcome) (benches : List Benchmark) :
    CutRoot.Held args { st with root := benches.foldl (benchStep args outcomes) st.root } name := by
  induction benches generalizing st with
  | nil => exact h
  | cons bench benches ih =>
    have hnext : CutRoot.Held args { st with root := benchStep args outcomes st.root bench } name :=
      h.of_stageA rfl fun hthere => benchStep_of_isSome hresume hthere
    exact ih hnext

/-- `--resume` finds a cut file, or the Stage A that came before it. -/
theorem CutRoot.Held.hasA (h : st.Held args name) (hcut : ¬ st.Uncut name) : st.hasA name = true := by
  rw [CutRoot.hasA, Bool.or_eq_true]
  cases hA : st.cutA name with
  | true => exact .inr rfl
  | false =>
    cases hB : st.cutB name with
    | true => exact .inl (h hB).1
    | false => exact absurd ⟨hA, hB⟩ hcut

theorem stageAStepCut_stuck (hresume : args.resume = true) (hheld : st.Held args name)
    (hcut : ¬ st.Uncut name) (o : StageARun) : stageAStepCut args name o st = (st, true) := by
  unfold stageAStepCut
  rw [hheld.hasA hcut, hresume]
  rfl

theorem runsStageB_stuck (hresume : args.resume = true) (hcut : ¬ st.Uncut name)
    (hloads : st.cutA name = false) : runsStageB args name st = false := by
  have hB : st.cutB name = true := by
    rw [← Bool.not_eq_false]
    exact fun hB => hcut ⟨hloads, hB⟩
  rw [runsStageB, CutRoot.hasB, hB, hresume, Bool.or_true]
  exact Bool.and_false _

theorem benchStepCut_stuck (hresume : args.resume = true) (hheld : st.Held args bench.name)
    (hcut : ¬ st.Uncut bench.name) : benchStepCut args outcomes st bench = .error st := by
  have hskip := stageAStepCut_stuck hresume hheld hcut (outcomes bench.name).stageA
  cases hA : st.cutA bench.name with
  | true => simp only [benchStepCut, hskip, hA, if_true]
  | false =>
    cases hB : st.cutB bench.name with
    | false => exact absurd ⟨hA, hB⟩ hcut
    | true =>
      have hskipB : stageBStepCut args bench.name (outcomes bench.name).stageB st = st := by
        rw [stageBStepCut, runsStageB_stuck hresume hcut hA]
        rfl
      simp only [benchStepCut, hskip, hskipB, hA, (hheld hB).2, hB, Bool.and_true, if_true,
        Bool.false_eq_true, if_false]

/-- A run that is killed at a cut file has changed nothing there. -/
theorem KilledAt.eq_of_stuck (h : KilledAt args outcomes bench st st') (hresume : args.resume = true)
    (hheld : st.Held args bench.name) (hcut : ¬ st.Uncut bench.name) : st' = st := by
  have hskip := stageAStepCut_stuck hresume hheld hcut (outcomes bench.name).stageA
  have hhas : (args.resume && st.hasA bench.name) = true := by
    rw [hresume, hheld.hasA hcut]
    rfl
  cases h with
  | before => rfl
  | inStageA hruns => cases hhas.symm.trans hruns
  | writingStageA hruns => cases hhas.symm.trans hruns
  | afterStageA => rw [hskip]
  | inStageB hdone hloads hruns =>
    obtain rfl := congrArg Prod.fst (hskip.symm.trans hdone)
    cases (runsStageB_stuck hresume hcut hloads).symm.trans hruns
  | writingStageB hdone hloads hruns =>
    obtain rfl := congrArg Prod.fst (hskip.symm.trans hdone)
    cases (runsStageB_stuck hresume hcut hloads).symm.trans hruns
  | afterStageB hdone hloads =>
    obtain rfl := congrArg Prod.fst (hskip.symm.trans hdone)
    rw [stageBStepCut, runsStageB_stuck hresume hcut hloads]
    rfl
  | writingCsv hdone hends => cases (benchStepCut_stuck hresume hheld hcut).symm.trans hends

/-- **A resumed run ends at the first cut file.** -/
theorem foldlM_benchStepCut_stuck (hresume : args.resume = true)
    (hdone : ∀ other ∈ done, st.Uncut other.name) (hheld : st.Held args bench.name)
    (hcut : ¬ st.Uncut bench.name) :
    (done ++ bench :: rest).foldlM (benchStepCut args outcomes) st =
      .error { st with root := done.foldl (benchStep args outcomes) st.root } := by
  have hcut' : ¬ CutRoot.Uncut { st with root := done.foldl (benchStep args outcomes) st.root }
      bench.name := fun h => hcut ⟨h.stageA, h.stageB⟩
  rw [List.foldlM_append, foldlM_benchStepCut_whole hdone]
  show (bench :: rest).foldlM (benchStepCut args outcomes) _ = _
  rw [List.foldlM_cons, benchStepCut_stuck hresume (hheld.foldl hresume outcomes done) hcut']
  rfl

theorem exists_firstCut (st : CutRoot) (benches : List Benchmark) :
    (∀ bench ∈ benches, st.Uncut bench.name) ∨ ∃ done bench rest, benches = done ++ bench :: rest ∧
      (∀ other ∈ done, st.Uncut other.name) ∧ ¬ st.Uncut bench.name := by
  induction benches with
  | nil => exact .inl fun _ h => absurd h List.not_mem_nil
  | cons first benches ih =>
    by_cases hfirst : st.Uncut first.name
    · rcases ih with hall | ⟨done, bench, rest, rfl, hdone, hcut⟩
      · exact .inl (List.forall_mem_cons.mpr ⟨hfirst, hall⟩)
      · exact .inr ⟨first :: done, bench, rest, rfl, List.forall_mem_cons.mpr ⟨hfirst, hdone⟩, hcut⟩
    · exact .inr ⟨[], first, benches, rfl, fun _ h => absurd h List.not_mem_nil, hfirst⟩

/-- **The benchmarks of a resumed run**, up to the first cut file. -/
theorem foldlM_benchStepCut_resumed (hresume : args.resume = true)
    (hheld : ∀ bench ∈ benches, st.Held args bench.name) :
    ((∀ bench ∈ benches, st.Uncut bench.name) ∧ benches.foldlM (benchStepCut args outcomes) st =
        .ok { st with root := benches.foldl (benchStep args outcomes) st.root }) ∨
      ∃ done bench rest, benches = done ++ bench :: rest ∧ ¬ st.Uncut bench.name ∧
        benches.foldlM (benchStepCut args outcomes) st =
          .error { st with root := done.foldl (benchStep args outcomes) st.root } := by
  rcases exists_firstCut st benches with hall | ⟨done, bench, rest, rfl, hdone, hcut⟩
  · exact .inl ⟨hall, foldlM_benchStepCut_whole hall⟩
  · exact .inr ⟨done, bench, rest, rfl, hcut,
      foldlM_benchStepCut_stuck hresume hdone (hheld bench (by simp)) hcut⟩

end TraceScheduler.Scripts
