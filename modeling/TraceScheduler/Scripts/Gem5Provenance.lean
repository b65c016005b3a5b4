import TraceScheduler.Scripts.CiGate

/-!
# Where the gem5 columns come from

Stage B writes a file only when it succeeds, and the file stays when Stage A runs again.  The suite loads
it whenever it exists, so a row may pair new Stage A data with the simulation of older binaries: after a
Stage B failure, or when a run without gem5 has replaced Stage A before `--resume`.  And a configuration
that fails in a later Stage A run leaves its old binary to be simulated.

`Step.Belongs` says that the rows written for a benchmark have gem5 numbers of their own build only, and
`Step.InOrder` when they do.  Over any sequence of invocations the two agree, step by step
(`belongs_iff_inOrder`), with one invariant: no file is newer than the clock.
-/

namespace TraceScheduler.Scripts

/-! ### The steps of a sequence of invocations -/

structure Invocation where
  args : Args
  outcomes : String → BenchOutcome

/-- One pass of the loop over the benchmarks: the invocation, the output root before, the benchmark. -/
structure Step where
  args : Args
  outcomes : String → BenchOutcome
  root : OutRoot
  bench : Benchmark

def benchSteps (args : Args) (outcomes : String → BenchOutcome) : OutRoot → List Benchmark → List Step
  | _, [] => []
  | root, bench :: rest =>
      ⟨args, outcomes, root, bench⟩ ::
        benchSteps args outcomes (benchStep args outcomes root bench) rest

/-- The steps of an invocation, none if a benchmark name is unknown. -/
def Invocation.steps (inv : Invocation) (root : OutRoot) : List Step :=
  if (unknownNames inv.args.only).isEmpty then
    benchSteps inv.args inv.outcomes (startCsv inv.args root) (selectedBenchmarks inv.args.only)
  else []

/-- An invocation with an unknown name leaves everything as it is. -/
def Invocation.run (inv : Invocation) (root : OutRoot) : OutRoot :=
  (runSuite inv.args inv.outcomes root).getD root

/-- The output root after a sequence of invocations, from a new one. -/
def rootAfter (history : List Invocation) : OutRoot :=
  history.foldl (fun root inv => inv.run root) .empty

/-- The steps of a sequence of invocations, from `root` on. -/
def historySteps : OutRoot → List Invocation → List Step
  | _, [] => []
  | root, inv :: rest => inv.steps root ++ historySteps (inv.run root) rest

namespace Step

variable (s : Step)

/-! ### What a step does -/

def name : String := s.bench.name

def stageA : StageARun := (s.outcomes s.bench.name).stageA

def stageB : StageBRun := (s.outcomes s.bench.name).stageB

/-- The output root after Stage A, and after both stages. -/
def afterA : OutRoot := (stageAStep s.args s.name s.stageA s.root).1

def files : OutRoot := stageBStep s.args s.name s.stageB s.afterA

/-- Whether rows are written. -/
def reports : Bool := (stageAStep s.args s.name s.stageA s.root).2

/-- The rows written for the benchmark. -/
def rows : List (Row String) := if s.reports then rowsFor s.args s.bench s.files else []

/-! ### What it depends on -/

/-- Stage A is run, not taken from an earlier run. -/
def Reruns : Prop := ¬ (s.args.resume = true ∧ (s.root.stageA s.name).isSome = true)

/-- There is Stage A data, from this step or from an earlier one, and it is correct, so that gem5 data
is asked for. -/
def AsksGem5 : Prop :=
  s.args.skipGem5 = false ∧
    ((s.Reruns ∧ ∃ runs, s.stageA = .wrote runs ∧ stageACorrect (runOne runs) = true) ∨
      (¬ s.Reruns ∧ stageACorrect (loadStageA s.root s.name) = true))

/-- Stage B is run. -/
def RunsGem5 : Prop :=
  s.AsksGem5 ∧ ¬ (s.args.resume = true ∧ (s.root.stageB s.name).isSome = true)

end Step

/-- One of the numbers of a gem5 entry is there. -/
def HasNumbers (stats : Dict Scalar) : Prop :=
  (getScalar stats "numInsts").text ≠ "" ∨ (getScalar stats "numCycles").text ≠ "" ∨
    (getScalar stats "ipc").text ≠ "" ∨ (getScalar stats "simSeconds").text ≠ ""

/-- The gem5 columns of a row are not all empty. -/
def Row.HasGem5 (r : Row String) : Prop :=
  r.gem5NumInsts ≠ "" ∨ r.gem5NumCycles ≠ "" ∨ r.gem5Ipc ≠ "" ∨ r.gem5SimSeconds ≠ ""

/-- The entry of a configuration. -/
def entryOf (stageB : StageB) (key : String) : Dict Scalar := (stageB.lookup key).getD []

namespace Step

variable (s : Step)

/-- Rows with gem5 numbers take them from a Stage B run after the Stage A run they report, and from a
binary that that run linked; and a failed Stage B run leaves none. -/
structure Belongs : Prop where
  build : ∀ r ∈ s.rows, r.HasGem5 → ∃ a b, s.files.stageA s.name = some a ∧
    s.files.stageB s.name = some b ∧ a.run < b.run ∧ b.binary r.config = some a.run
  failure : s.RunsGem5 → s.stageB = .failed → ∀ r ∈ s.rows, ¬ r.HasGem5

/-- The binary of a configuration is missing, or has been linked by the Stage A run that is reported:
the one of this step if Stage A is run, the one of the Stage A file otherwise. -/
def LinkedByReported (key : String) : Prop :=
  (s.root.binaries s.name key = none ∨
      (s.Reruns ∧ ∃ runs, s.stageA = .wrote runs ∧ (runs key).linked = true)) ∨
    (¬ s.Reruns ∧ s.root.binaries s.name key = (s.root.stageA s.name).map StageAFile.run)

/-- A Stage B file from an earlier step is of the Stage A run that is reported. -/
def OfReported (file : StageBFile) (key : String) : Prop :=
  ¬ s.Reruns ∧ ∃ a, s.root.stageA s.name = some a ∧ a.run < file.run ∧ file.binary key = some a.run

/-- When gem5 data is asked for, each configuration with numbers either is simulated in this step, from
a binary of the Stage A run reported, or has them from an earlier simulation of that run. -/
structure InOrder : Prop where
  simulated : s.RunsGem5 → ∀ stats, s.stageB = .wrote stats → ∀ cfg ∈ CONFIGS,
    HasNumbers (stats cfg.key) → s.LinkedByReported cfg.key
  loaded : s.AsksGem5 → (s.RunsGem5 → s.stageB = .failed) → ∀ file,
    s.root.stageB s.name = some file → ∀ cfg ∈ CONFIGS,
      HasNumbers (entryOf file.results cfg.key) → s.OfReported file cfg.key

/-! ### The files of a step -/

variable {s} {linked : String → Bool} {runs : String → ConfigRun} {stats : String → Dict Scalar}
  {key : String} {r : Row String}

theorem stageAStep_kept (h : ¬ s.Reruns) : stageAStep s.args s.name s.stageA s.root = (s.root, true) := by
  rw [Reruns, not_not] at h
  exact if_pos (by simp [h.1, h.2])

theorem stageAStep_rerun (h : s.Reruns) : stageAStep s.args s.name s.stageA s.root =
    (runStageA s.name s.stageA s.root,
      match s.stageA with
      | .failed _ => false
      | .wrote _ => true) := by
  have hkept : ¬ (s.args.resume && (s.root.stageA s.name).isSome) = true := by
    rw [Bool.and_eq_true]
    exact h
  exact if_neg hkept

theorem afterA_kept (h : ¬ s.Reruns) : s.afterA = s.root := by
  rw [afterA, stageAStep_kept h]

theorem afterA_wrote (h : s.Reruns) (hran : s.stageA = .wrote runs) :
    s.afterA = runStageA s.name (.wrote runs) s.root := by
  rw [afterA, stageAStep_rerun h, hran]

/-- Rows are written unless Stage A is run and fails. -/
theorem reports_iff : s.reports = true ↔ ¬ s.Reruns ∨ ∃ runs, s.stageA = .wrote runs := by
  by_cases h : s.Reruns
  · rw [reports, stageAStep_rerun h]
    cases hran : s.stageA with
    | failed linked => simp [h]
    | wrote runs => simp
  · rw [reports, stageAStep_kept h]
    simp [h]

theorem stageB_afterA : s.afterA.stageB = s.root.stageB := by
  by_cases h : s.Reruns
  · rw [afterA, stageAStep_rerun h]
    cases s.stageA with
    | failed linked => rfl
    | wrote runs => rfl
  · rw [afterA_kept h]

theorem stageA_files : s.files.stageA = s.afterA.stageA := by
  rw [files, stageBStep_stageA]

theorem loadStageA_wrote (h : s.Reruns) (hran : s.stageA = .wrote runs) :
    loadStageA s.afterA s.name = runOne runs := by
  rw [afterA_wrote h hran, loadStageA, runStageA]
  simp

/-- gem5 data is asked for. -/
theorem asksGem5_iff : s.AsksGem5 ↔ s.reports = true ∧ s.args.skipGem5 = false ∧
    stageACorrect (loadStageA s.afterA s.name) = true := by
  rw [AsksGem5, reports_iff]
  by_cases h : s.Reruns
  · cases hran : s.stageA with
    | failed linked => simp [h]
    | wrote runs => simp [h, loadStageA_wrote h hran]
  · simp [h, afterA_kept h]

theorem runsGem5_iff : s.RunsGem5 ↔ s.AsksGem5 ∧
    ¬ (s.args.resume && (s.afterA.stageB s.name).isSome) = true := by
  rw [RunsGem5, stageB_afterA, Bool.and_eq_true]

theorem files_simulated (h : s.RunsGem5) : s.files = runStageB s.name s.stageB s.afterA := by
  obtain ⟨hasks, hnew⟩ := runsGem5_iff.mp h
  obtain ⟨_, hskip, hcorrect⟩ := asksGem5_iff.mp hasks
  rw [files, stageBStep, if_neg (by simp [hskip]), if_neg (by simp [hcorrect]), if_neg hnew]

/-- Without a successful simulation the Stage B file is the old one. -/
theorem stageB_files (hasks : s.AsksGem5) (h : s.RunsGem5 → s.stageB = .failed) :
    s.files.stageB = s.root.stageB := by
  by_cases hruns : s.RunsGem5
  · rw [files_simulated hruns, h hruns, ← stageB_afterA]
    rfl
  · obtain ⟨_, hskip, hcorrect⟩ := asksGem5_iff.mp hasks
    have hold : (s.args.resume && (s.afterA.stageB s.name).isSome) = true := by
      by_contra hnew
      exact hruns (runsGem5_iff.mpr ⟨hasks, hnew⟩)
    rw [files, stageBStep, if_neg (by simp [hskip]), if_neg (by simp [hcorrect]), if_pos hold,
      stageB_afterA]

/-! ### The rows of a step -/

theorem not_hasNumbers_nil : ¬ HasNumbers (entryOf [] key) := by
  simp [HasNumbers, entryOf, getScalar, Scalar.text]

/-- A row has gem5 numbers if they are asked for and the Stage B file has them. -/
theorem hasGem5_iff (hreports : s.reports = true) (cfg : Config) :
    ((buildCsvRow s.bench.name s.bench.category (loadStageA s.files s.name)
      (if !s.args.skipGem5 && stageACorrect (loadStageA s.files s.name) then
        loadStageB s.files s.name else []) cfg).map Scalar.text).HasGem5 ↔
      s.AsksGem5 ∧ ∃ file, s.files.stageB s.name = some file ∧
        HasNumbers (entryOf file.results cfg.key) := by
  have hload : loadStageA s.files s.name = loadStageA s.afterA s.name := by
    rw [loadStageA, stageA_files]
    rfl
  have hasks : s.AsksGem5 ↔ (!s.args.skipGem5 && stageACorrect (loadStageA s.files s.name)) = true := by
    rw [asksGem5_iff, hload]
    simp [hreports]
  rw [hasks]
  -- the gem5 columns are the entry of the configuration, field by field
  show HasNumbers (entryOf _ cfg.key) ↔ _
  split
  · rename_i hcond
    rw [loadStageB]
    cases hfile : s.files.stageB s.name with
    | none => simp [not_hasNumbers_nil]
    | some file => simp [hcond]
  · rename_i hcond
    simp [hcond, not_hasNumbers_nil]

theorem row_of_mem (hr : r ∈ s.rows) : ∃ cfg ∈ CONFIGS, r.config = cfg.key ∧ s.reports = true ∧
    (r.HasGem5 ↔ s.AsksGem5 ∧ ∃ file, s.files.stageB s.name = some file ∧
      HasNumbers (entryOf file.results cfg.key)) := by
  rw [rows] at hr
  split at hr
  · rename_i hreports
    obtain ⟨row, hrow, rfl⟩ := List.mem_map.mp hr
    obtain ⟨cfg, hcfg, rfl⟩ := List.mem_map.mp hrow
    exact ⟨cfg, hcfg, rfl, hreports, hasGem5_iff hreports cfg⟩
  · cases hr

theorem exists_row (hreports : s.reports = true) {cfg : Config} (hcfg : cfg ∈ CONFIGS) :
    ∃ r ∈ s.rows, r.config = cfg.key ∧
      (r.HasGem5 ↔ s.AsksGem5 ∧ ∃ file, s.files.stageB s.name = some file ∧
        HasNumbers (entryOf file.results cfg.key)) := by
  rw [rows, if_pos hreports]
  exact ⟨_, List.mem_map_of_mem (List.mem_map_of_mem hcfg), rfl, hasGem5_iff hreports cfg⟩

end Step

/-! ### The clock -/

/-- No file and no binary is newer than the clock. -/
structure OutRoot.Timely (root : OutRoot) : Prop where
  stageA : ∀ name file, root.stageA name = some file → file.run < root.clock
  stageB : ∀ name file, root.stageB name = some file → file.run < root.clock
  binaries : ∀ name key run, root.binaries name key = some run → run < root.clock

theorem OutRoot.timely_empty : OutRoot.empty.Timely := by
  constructor
  · intro name file h
    cases h
  · intro name file h
    cases h
  · intro name key run h
    cases h

variable {root : OutRoot} {name : String} {args : Args} {outcomes : String → BenchOutcome}
  {bench : Benchmark}

theorem OutRoot.Timely.link (h : root.Timely) (name : String) (linked : String → Bool) :
    (root.link name linked).Timely := by
  constructor
  · intro n file hfile
    exact Nat.lt_succ_of_lt (h.stageA n file hfile)
  · intro n file hfile
    exact Nat.lt_succ_of_lt (h.stageB n file hfile)
  · intro n key run hrun
    show run < root.clock + 1
    rw [OutRoot.link] at hrun
    dsimp only at hrun
    by_cases hn : n = name
    · subst hn
      rw [Function.update_self] at hrun
      split at hrun
      · cases hrun
        omega
      · exact Nat.lt_succ_of_lt (h.binaries n key run hrun)
    · rw [Function.update_of_ne hn] at hrun
      exact Nat.lt_succ_of_lt (h.binaries n key run hrun)

/-- A file written now is older than the clock afterwards, as the others are. -/
theorem update_run_lt {α : Type} {run : α → ℕ} {files : String → Option α} {clock : ℕ} {new : α}
    (hnew : run new = clock) (h : ∀ n file, files n = some file → run file < clock + 1) :
    ∀ n file, Function.update files name (some new) n = some file → run file < clock + 1 := by
  intro n file hfile
  by_cases hn : n = name
  · subst hn
    rw [Function.update_self] at hfile
    cases hfile
    omega
  · rw [Function.update_of_ne hn] at hfile
    exact h n file hfile

theorem OutRoot.Timely.runStageA (h : root.Timely) (name : String) (o : StageARun) :
    (runStageA name o root).Timely := by
  cases o with
  | failed linked => exact h.link name linked
  | wrote runs =>
    have hlink := h.link name fun key => (runs key).linked
    exact ⟨update_run_lt rfl hlink.stageA, hlink.stageB, hlink.binaries⟩

theorem OutRoot.Timely.runStageB (h : root.Timely) (name : String) (o : StageBRun) :
    (runStageB name o root).Timely := by
  have hstageA : ∀ n file, root.stageA n = some file → file.run < root.clock + 1 := fun n file hfile =>
    Nat.lt_succ_of_lt (h.stageA n file hfile)
  have hstageB : ∀ n file, root.stageB n = some file → file.run < root.clock + 1 := fun n file hfile =>
    Nat.lt_succ_of_lt (h.stageB n file hfile)
  have hbinaries : ∀ n key run, root.binaries n key = some run → run < root.clock + 1 :=
    fun n key run hrun => Nat.lt_succ_of_lt (h.binaries n key run hrun)
  cases o with
  | failed => exact ⟨hstageA, hstageB, hbinaries⟩
  | wrote stats => exact ⟨hstageA, update_run_lt rfl hstageB, hbinaries⟩

/-! ### One step -/

namespace Step

variable {s : Step} {runs : String → ConfigRun} {stats : String → Dict Scalar} {key : String}
  {file a : StageAFile} {cfg : Config}

/-- The Stage A run that is reported. -/
theorem exists_reported (hasks : s.AsksGem5) : ∃ a, s.files.stageA s.name = some a ∧
    (s.Reruns → a.run = s.root.clock) ∧ (¬ s.Reruns → s.root.stageA s.name = some a) := by
  rw [stageA_files]
  cases hasks.2 with
  | inl h =>
    obtain ⟨hreruns, runs, hran, _⟩ := h
    refine ⟨⟨s.root.clock, runOne runs⟩, ?_, fun _ => rfl, fun hnot => absurd hreruns hnot⟩
    rw [afterA_wrote hreruns hran, runStageA]
    simp
  | inr h =>
    have hkept := h.1
    rw [Reruns, not_not] at hkept
    obtain ⟨a, ha⟩ := Option.isSome_iff_exists.mp hkept.2
    rw [afterA_kept h.1]
    exact ⟨a, ha, fun hreruns => absurd hreruns h.1, fun _ => ha⟩

/-- A reported run lies before whatever is run next. -/
theorem reported_run_lt (htimely : s.root.Timely) (hasks : s.AsksGem5)
    (ha : s.files.stageA s.name = some a) : a.run < s.afterA.clock := by
  obtain ⟨a', ha', hnew, hold⟩ := exists_reported hasks
  obtain rfl : a = a' := Option.some.inj (ha.symm.trans ha')
  cases hasks.2 with
  | inl h =>
    obtain ⟨hreruns, runs, hran, _⟩ := h
    rw [hnew hreruns, afterA_wrote hreruns hran]
    exact Nat.lt_succ_self _
  | inr h =>
    rw [afterA_kept h.1]
    exact htimely.stageA s.name a (hold h.1)

/-- The binaries that Stage B would find. -/
theorem linkedByReported_iff (htimely : s.root.Timely) (hasks : s.AsksGem5)
    (ha : s.files.stageA s.name = some a) : s.LinkedByReported key ↔
      s.afterA.binaries s.name key = none ∨ s.afterA.binaries s.name key = some a.run := by
  obtain ⟨a', ha', hnew, hold⟩ := exists_reported hasks
  obtain rfl : a = a' := Option.some.inj (ha.symm.trans ha')
  rw [LinkedByReported]
  cases hasks.2 with
  | inl h =>
    obtain ⟨hreruns, runs, hran, _⟩ := h
    have hbinaries : s.afterA.binaries s.name key =
        if (runs key).linked then some s.root.clock else s.root.binaries s.name key := by
      rw [afterA_wrote hreruns hran, runStageA, OutRoot.link]
      simp
    rw [hbinaries, hnew hreruns, hran]
    by_cases hlinked : (runs key).linked = true
    · simp [hreruns, hlinked]
    · have hold : s.root.binaries s.name key ≠ some s.root.clock := by
        intro h
        exact absurd (htimely.binaries _ _ _ h) (Nat.lt_irrefl _)
      simp [hreruns, hlinked, hold]
  | inr h =>
    rw [afterA_kept h.1, hold h.1]
    simp [h.1]

/-- The entry of a missing binary has no numbers. -/
theorem not_hasNumbers_missing :
    ¬ HasNumbers [("error", .str "binary missing, run Stage A first")] := by
  simp [HasNumbers, getScalar, Scalar.text, List.lookup_cons]

/-- A simulation has the numbers of the binaries that exist. -/
theorem hasNumbers_simulateAll (present : String → Bool) (hcfg : cfg ∈ CONFIGS) :
    HasNumbers (entryOf (simulateAll present stats) cfg.key) ↔
      present cfg.key = true ∧ HasNumbers (stats cfg.key) := by
  have hlookup : (simulateAll present stats).lookup cfg.key =
      some (if present cfg.key then stats cfg.key
        else [("error", .str "binary missing, run Stage A first")]) :=
    lookup_map_key (fun key => if present key then stats key
      else [("error", .str "binary missing, run Stage A first")]) CONFIGS (List.mem_map_of_mem hcfg)
  rw [entryOf, hlookup, Option.getD_some]
  split
  · rename_i hpresent
    simp [hpresent]
  · rename_i hpresent
    simp [hpresent, not_hasNumbers_missing]

/-- The Stage B file of a successful simulation. -/
theorem stageB_simulated (hruns : s.RunsGem5) (hwrote : s.stageB = .wrote stats) :
    ∃ b, s.files.stageB s.name = some b ∧ b.run = s.afterA.clock ∧
      b.binary = s.afterA.binaries s.name ∧ ∀ cfg ∈ CONFIGS,
        (HasNumbers (entryOf b.results cfg.key) ↔
          (s.afterA.binaries s.name cfg.key).isSome = true ∧ HasNumbers (stats cfg.key)) := by
  rw [files_simulated hruns, hwrote, runStageB]
  dsimp only
  rw [Function.update_self]
  exact ⟨_, rfl, rfl, rfl, fun cfg hcfg =>
    hasNumbers_simulateAll (fun key => (s.afterA.binaries s.name key).isSome) hcfg⟩

/-- The rows, by the Stage B file they take their numbers from. -/
theorem build_iff (hasks : s.AsksGem5) (ha : s.files.stageA s.name = some a) :
    (∀ r ∈ s.rows, r.HasGem5 → ∃ a b, s.files.stageA s.name = some a ∧
      s.files.stageB s.name = some b ∧ a.run < b.run ∧ b.binary r.config = some a.run) ↔
    ∀ b, s.files.stageB s.name = some b → ∀ cfg ∈ CONFIGS, HasNumbers (entryOf b.results cfg.key) →
      a.run < b.run ∧ b.binary cfg.key = some a.run := by
  constructor
  · intro h b hfile cfg hcfg hnumbers
    obtain ⟨r, hr, hconfig, hgem5⟩ := exists_row (asksGem5_iff.mp hasks).1 hcfg
    obtain ⟨a', b', ha', hb', hlt, hbinary⟩ := h r hr (hgem5.mpr ⟨hasks, b, hfile, hnumbers⟩)
    obtain rfl : a = a' := Option.some.inj (ha.symm.trans ha')
    obtain rfl : b = b' := Option.some.inj (hfile.symm.trans hb')
    rw [hconfig] at hbinary
    exact ⟨hlt, hbinary⟩
  · intro h r hr hhas
    obtain ⟨cfg, hcfg, hconfig, _, hgem5⟩ := row_of_mem hr
    obtain ⟨_, b, hfile, hnumbers⟩ := hgem5.mp hhas
    obtain ⟨hlt, hbinary⟩ := h b hfile cfg hcfg hnumbers
    rw [← hconfig] at hbinary
    exact ⟨a, b, ha, hfile, hlt, hbinary⟩

/-- **A step with a successful simulation.** -/
theorem belongs_simulated_iff (htimely : s.root.Timely) (hruns : s.RunsGem5)
    (hwrote : s.stageB = .wrote stats) : s.Belongs ↔
      ∀ cfg ∈ CONFIGS, HasNumbers (stats cfg.key) → s.LinkedByReported cfg.key := by
  have hasks := hruns.1
  obtain ⟨a, ha, _⟩ := exists_reported hasks
  obtain ⟨b, hfile, hrun, hbinaries, hentries⟩ := stageB_simulated hruns hwrote
  have hbuild := build_iff hasks ha
  have hlinked : ∀ key, s.LinkedByReported key ↔ s.afterA.binaries s.name key = none ∨
      s.afterA.binaries s.name key = some a.run := fun key => linkedByReported_iff htimely hasks ha
  constructor
  · intro h cfg hcfg hnumbers
    apply (hlinked cfg.key).mpr
    cases hbinary : s.afterA.binaries s.name cfg.key with
    | none => exact .inl rfl
    | some run =>
      right
      have hpresent : (s.afterA.binaries s.name cfg.key).isSome = true := by
        rw [hbinary]
        rfl
      have hof := (hbuild.mp h.build b hfile cfg hcfg ((hentries cfg hcfg).mpr ⟨hpresent, hnumbers⟩)).2
      rw [hbinaries, hbinary] at hof
      exact hof
  · intro h
    refine ⟨hbuild.mpr ?_, ?_⟩
    · intro b' hfile' cfg hcfg hnumbers
      obtain rfl : b = b' := Option.some.inj (hfile.symm.trans hfile')
      obtain ⟨hpresent, hnumbers⟩ := (hentries cfg hcfg).mp hnumbers
      rw [hrun, hbinaries]
      refine ⟨reported_run_lt htimely hasks ha, ?_⟩
      apply ((hlinked cfg.key).mp (h cfg hcfg hnumbers)).resolve_left
      intro hnone
      rw [hnone] at hpresent
      cases hpresent
    · intro _ hfailed
      rw [hwrote] at hfailed
      cases hfailed

/-- **A step that loads the Stage B file of an earlier one.** -/
theorem belongs_loaded_iff (htimely : s.root.Timely) (hasks : s.AsksGem5)
    (hold : s.RunsGem5 → s.stageB = .failed) : s.Belongs ↔
      ∀ file, s.root.stageB s.name = some file → ∀ cfg ∈ CONFIGS,
        HasNumbers (entryOf file.results cfg.key) → s.OfReported file cfg.key := by
  obtain ⟨a, ha, hnew, hkept⟩ := exists_reported hasks
  have hbuild := build_iff hasks ha
  have hfiles := stageB_files hasks hold
  constructor
  · intro h file hfile cfg hcfg hnumbers
    have hfile' := hfile
    rw [← hfiles] at hfile'
    obtain ⟨hlt, hbinary⟩ := hbuild.mp h.build file hfile' cfg hcfg hnumbers
    -- a file from before is older than a Stage A run of this step
    have hkeeps : ¬ s.Reruns := by
      intro hreruns
      have hbefore := htimely.stageB s.name file hfile
      have hclock := hnew hreruns
      omega
    exact ⟨hkeeps, a, hkept hkeeps, hlt, hbinary⟩
  · intro h
    refine ⟨hbuild.mpr ?_, ?_⟩
    · intro file hfile cfg hcfg hnumbers
      rw [hfiles] at hfile
      obtain ⟨hkeeps, a', ha', hlt, hbinary⟩ := h file hfile cfg hcfg hnumbers
      obtain rfl : a = a' := Option.some.inj ((hkept hkeeps).symm.trans ha')
      exact ⟨hlt, hbinary⟩
    · intro hruns _ r hr hhas
      obtain ⟨cfg, hcfg, _, _, hgem5⟩ := row_of_mem hr
      obtain ⟨_, file, hfile, hnumbers⟩ := hgem5.mp hhas
      rw [hfiles] at hfile
      obtain ⟨hkeeps, _⟩ := h file hfile cfg hcfg hnumbers
      -- Stage A was kept, so this is a resumed run, and it would have kept Stage B as well
      rw [Reruns, not_not] at hkeeps
      apply hruns.2
      refine ⟨hkeeps.1, ?_⟩
      rw [hfile]
      rfl

/-- **The rows of a step belong to the build reported exactly when its inputs are in order.** -/
theorem belongs_iff (htimely : s.root.Timely) : s.Belongs ↔ s.InOrder := by
  by_cases hasks : s.AsksGem5
  · by_cases hwrote : ∃ stats, s.RunsGem5 ∧ s.stageB = .wrote stats
    · obtain ⟨stats, hruns, hwrote⟩ := hwrote
      rw [belongs_simulated_iff htimely hruns hwrote]
      constructor
      · intro h
        refine ⟨?_, ?_⟩
        · intro _ stats' hwrote'
          rw [hwrote] at hwrote'
          cases hwrote'
          exact h
        · intro _ hfailed
          have := hfailed hruns
          rw [hwrote] at this
          cases this
      · intro h
        exact h.simulated hruns stats hwrote
    · have hold : s.RunsGem5 → s.stageB = .failed := by
        intro hruns
        cases hB : s.stageB with
        | failed => rfl
        | wrote stats => exact absurd ⟨stats, hruns, hB⟩ hwrote
      rw [belongs_loaded_iff htimely hasks hold]
      constructor
      · intro h
        refine ⟨?_, fun _ _ => h⟩
        intro hruns stats hB
        exact absurd ⟨stats, hruns, hB⟩ hwrote
      · intro h
        exact h.loaded hasks hold
  · -- no gem5 data is asked for, and no column has any
    have hnone : ∀ r ∈ s.rows, ¬ r.HasGem5 := by
      intro r hr hhas
      obtain ⟨cfg, _, _, _, hgem5⟩ := row_of_mem hr
      exact hasks (hgem5.mp hhas).1
    constructor
    · intro _
      exact ⟨fun hruns => absurd hruns.1 hasks, fun h => absurd h hasks⟩
    · intro _
      exact ⟨fun r hr hhas => absurd hhas (hnone r hr), fun _ _ r hr => hnone r hr⟩

/-- The loop body, by the parts of its step. -/
theorem benchStep_eq (s : Step) : benchStep s.args s.outcomes s.root s.bench =
    if s.reports then writeRows s.rows s.files else s.afterA := by
  rw [rows]
  by_cases h : s.reports = true
  · rw [if_pos h, if_pos h]
    show (if s.reports = true then _ else _) = _
    rw [if_pos h]
    rfl
  · rw [if_neg h]
    show (if s.reports = true then _ else _) = _
    rw [if_neg h]
    rfl

theorem timely_afterA (h : s.root.Timely) : s.afterA.Timely := by
  by_cases hreruns : s.Reruns
  · rw [afterA, stageAStep_rerun hreruns]
    exact h.runStageA s.name s.stageA
  · rw [afterA_kept hreruns]
    exact h

theorem timely_files (h : s.root.Timely) : s.files.Timely := by
  have hafterA := timely_afterA h
  rw [files]
  cases stageBStep_cases s.args s.name s.stageB s.afterA with
  | inl hskip =>
    rw [hskip]
    exact hafterA
  | inr hrun =>
    rw [hrun]
    exact hafterA.runStageB s.name s.stageB

/-- What a step preserves: the clock is ahead, and a row of the file is an old one or one of its own. -/
theorem benchStep_spec (s : Step) (h : s.root.Timely) :
    (benchStep s.args s.outcomes s.root s.bench).Timely ∧
      ∀ r ∈ (benchStep s.args s.outcomes s.root s.bench).csv.getD [],
        r ∈ s.root.csv.getD [] ∨ r ∈ s.rows := by
  have hafterA : s.afterA.csv = s.root.csv := by
    by_cases hreruns : s.Reruns
    · rw [afterA, stageAStep_rerun hreruns]
      cases s.stageA with
      | failed linked => rfl
      | wrote runs => rfl
    · rw [afterA_kept hreruns]
  have hfiles : s.files.csv = s.afterA.csv := by
    rw [files, stageBStep_csv]
  rw [benchStep_eq]
  split
  · refine ⟨⟨(timely_files h).stageA, (timely_files h).stageB, (timely_files h).binaries⟩, ?_⟩
    intro r hr
    have horigin := (foldl_upsert_spec s.rows (s.files.csv.getD [])).1 r hr
    rw [hfiles, hafterA] at horigin
    exact horigin.symm
  · refine ⟨timely_afterA h, ?_⟩
    intro r hr
    rw [hafterA] at hr
    exact .inl hr

end Step

/-! ### A sequence of invocations -/

/-- What a run preserves, over the benchmarks of an invocation. -/
theorem benchSteps_spec (args : Args) (outcomes : String → BenchOutcome) (benches : List Benchmark)
    (root : OutRoot) (h : root.Timely) :
    (∀ s ∈ benchSteps args outcomes root benches, s.root.Timely) ∧
      (benches.foldl (benchStep args outcomes) root).Timely ∧
      ∀ r ∈ (benches.foldl (benchStep args outcomes) root).csv.getD [],
        r ∈ root.csv.getD [] ∨ ∃ s ∈ benchSteps args outcomes root benches, r ∈ s.rows := by
  induction benches generalizing root with
  | nil =>
    refine ⟨fun s hs => ?_, h, fun r hr => .inl hr⟩
    cases hs
  | cons bench rest ih =>
    obtain ⟨hnext, hrows⟩ := Step.benchStep_spec ⟨args, outcomes, root, bench⟩ h
    obtain ⟨hsteps, hlast, horigin⟩ := ih (benchStep args outcomes root bench) hnext
    refine ⟨?_, hlast, ?_⟩
    · intro s hs
      cases List.mem_cons.mp hs with
      | inl hs =>
        rw [hs]
        exact h
      | inr hs => exact hsteps s hs
    · intro r hr
      cases horigin r hr with
      | inl hold =>
        apply (hrows r hold).imp_right
        intro hnew
        exact ⟨_, List.mem_cons_self, hnew⟩
      | inr hlater =>
        obtain ⟨s, hs, hr⟩ := hlater
        exact .inr ⟨s, List.mem_cons_of_mem _ hs, hr⟩

theorem Invocation.run_spec (inv : Invocation) (root : OutRoot) (h : root.Timely) :
    (∀ s ∈ inv.steps root, s.root.Timely) ∧ (inv.run root).Timely ∧
      ∀ r ∈ (inv.run root).csv.getD [],
        r ∈ root.csv.getD [] ∨ ∃ s ∈ inv.steps root, r ∈ s.rows := by
  rw [Invocation.steps, Invocation.run, runSuite]
  split
  · have hstart : (startCsv inv.args root).Timely ∧
        ∀ r ∈ (startCsv inv.args root).csv.getD [], r ∈ root.csv.getD [] := by
      rw [startCsv]
      split
      · exact ⟨h, fun r hr => hr⟩
      · refine ⟨⟨h.stageA, h.stageB, h.binaries⟩, fun r hr => ?_⟩
        cases hr
    obtain ⟨hsteps, hlast, horigin⟩ := benchSteps_spec inv.args inv.outcomes
      (selectedBenchmarks inv.args.only) (startCsv inv.args root) hstart.1
    exact ⟨hsteps, hlast, fun r hr => (horigin r hr).imp_left (hstart.2 r)⟩
  · refine ⟨fun s hs => ?_, h, fun r hr => .inl hr⟩
    cases hs

theorem historySteps_spec (history : List Invocation) (root : OutRoot) (h : root.Timely) :
    (∀ s ∈ historySteps root history, s.root.Timely) ∧
      ∀ r ∈ (history.foldl (fun root inv => inv.run root) root).csv.getD [],
        r ∈ root.csv.getD [] ∨ ∃ s ∈ historySteps root history, r ∈ s.rows := by
  induction history generalizing root with
  | nil =>
    refine ⟨fun s hs => ?_, fun r hr => .inl hr⟩
    cases hs
  | cons inv rest ih =>
    obtain ⟨hfirst, hnext, hrows⟩ := inv.run_spec root h
    obtain ⟨hlater, horigin⟩ := ih (inv.run root) hnext
    refine ⟨?_, ?_⟩
    · intro s hs
      exact (List.mem_append.mp hs).elim (hfirst s) (hlater s)
    · intro r hr
      cases horigin r hr with
      | inl hold =>
        apply (hrows r hold).imp_right
        rintro ⟨s, hs, hr⟩
        exact ⟨s, List.mem_append_left _ hs, hr⟩
      | inr hnew =>
        obtain ⟨s, hs, hr⟩ := hnew
        exact .inr ⟨s, List.mem_append_right _ hs, hr⟩

/-- **Provenance.** Over any sequence of invocations from a new output root: a row of the CSV is one that
some step wrote, and the gem5 columns of the rows written belong to the build they report in every step
exactly when every step is in order. -/
theorem belongs_iff_inOrder (history : List Invocation) :
    (∀ r ∈ (rootAfter history).csv.getD [], ∃ s ∈ historySteps .empty history, r ∈ s.rows) ∧
      ((∀ s ∈ historySteps .empty history, s.Belongs) ↔
        ∀ s ∈ historySteps .empty history, s.InOrder) := by
  obtain ⟨htimely, horigin⟩ := historySteps_spec history .empty OutRoot.timely_empty
  constructor
  · intro r hr
    apply (horigin r hr).resolve_left
    intro hr
    cases hr
  · apply forall₂_congr
    intro s hs
    exact Step.belongs_iff (htimely s hs)

/-- An invocation for one benchmark, with Stage A complete and correct. -/
def shaRun (skipGem5 resume : Bool) (o : StageBRun) : Invocation :=
  ⟨⟨["sha"], skipGem5, resume⟩, fun _ => ⟨.wrote fun _ => completed, o⟩⟩

def simulated : StageBRun := .wrote fun _ => [("numCycles", .num "100")]

/-- Stage B fails the second time, and the row has the numbers of the first.  And Stage A runs again
without gem5, after which `--resume` finds both files. -/
theorem shaRun_keepsNumbers :
    (¬ ∀ s ∈ historySteps .empty [shaRun false false simulated, shaRun false false .failed],
      s.Belongs) ∧
    ¬ ∀ s ∈ historySteps .empty
      [shaRun false false simulated, shaRun true false .failed, shaRun false true .failed],
      s.Belongs := by
  constructor
  · intro h
    have hlast := h ⟨_, _, _, ⟨"sha", "security"⟩⟩ (List.mem_cons_of_mem _ List.mem_cons_self)
    apply hlast.failure ⟨⟨rfl, .inl ⟨?_, fun _ => completed, rfl, by decide⟩⟩, ?_⟩ rfl _
      List.mem_cons_self
    · exact .inr (.inl (by decide))
    · intro hkept
      cases hkept.1
    · intro hkept
      cases hkept.1
  · intro h
    have hlast := h ⟨_, _, _, ⟨"sha", "security"⟩⟩
      (List.mem_cons_of_mem _ (List.mem_cons_of_mem _ List.mem_cons_self))
    obtain ⟨a, b, ha, hb, hlt, _⟩ := hlast.build _ List.mem_cons_self (.inr (.inl (by decide)))
    cases ha
    cases hb
    exact absurd hlt (by decide)

end TraceScheduler.Scripts
