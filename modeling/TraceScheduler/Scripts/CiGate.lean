import Mathlib.Data.List.Dedup
import TraceScheduler.Scripts.RunSuite

/-!
# The continuous-integration gate

`ciGate` reads `results.csv` and fails on an error text, and on a mismatch of a gating configuration.
What it cannot see is what left no trace in the file: a benchmark whose worker failed has no row, and
an error record with an empty message has an empty error column and no verdict.

`ciRun_iff` says what a green run means in terms of the outcomes; `ciRun_sound_iff` compares that with
what it should mean.
-/

namespace TraceScheduler.Scripts

def GATING_KEYS : List String := (CONFIGS.filter fun cfg => cfg.gatesCorrectness).map Config.key

/-- How the gate ends: without a file to read, with an exit message, or with a summary. -/
inductive GateResult
  | noFile
  | exited (message : String)
  | passed (summary : String)
  deriving DecidableEq, Repr

def GateResult.isSuccess : GateResult → Bool
  | .passed _ => true
  | _ => false

def ciGate (path : String) (csv : Option (List (Row String))) : GateResult :=
  match csv with
  | none => .noFile
  | some rows =>
      if rows.isEmpty then .exited (path ++ ": no rows -- every benchmark failed Stage A")
      else
        let errors := rows.filter fun r => r.error != ""
        let mismatches := rows.filter fun r => r.correctnessOkVsOriginal == "False"
        let fails := mismatches.filter fun r => GATING_KEYS.contains r.config
        if !errors.isEmpty || !fails.isEmpty then
          .exited ("\n" ++ toString errors.length ++ " config error(s), " ++ toString fails.length ++
            " correctness failure(s)")
        else
          let scheduled := rows.filter fun r => r.config != "original" && GATING_KEYS.contains r.config
          let benchmarks := (rows.map Row.benchmark).dedup
          .passed ("OK: " ++ toString scheduled.length ++ "/" ++ toString scheduled.length ++
            " gating configurations matched their baseline across " ++ toString benchmarks.length ++
            " benchmarks (" ++ toString rows.length ++ " rows total)")

/-- The suite and then the gate. -/
def ciRun (path : String) (args : Args) (outcomes : String → BenchOutcome) (root : OutRoot) : Bool :=
  match runSuite args outcomes root with
  | none => false
  | some root => (ciGate path root.csv).isSuccess

/-! ### What a green run should mean -/

/-- The same observable result. -/
def ConfigResult.SameAs (candidate original : ConfigResult) : Prop :=
  candidate.exitCode = original.exitCode ∧ candidate.stdoutSha256 = original.stdoutSha256 ∧
    candidate.outputSha256 = original.outputSha256

/-- The baseline completed with the same observable result. -/
def MatchesOriginal (runs : String → ConfigRun) (candidate : ConfigResult) : Prop :=
  ∃ original, (runs "original").outcome = .ok original ∧ candidate.SameAs original

/-- A gating configuration other than the baseline. -/
def Config.IsScheduled (cfg : Config) : Prop :=
  cfg ∈ CONFIGS ∧ cfg.gatesCorrectness = true ∧ cfg.key ≠ "original"

/-- Every scheduled configuration of every benchmark completed and matches the baseline. -/
def AllMatch (outcomes : String → BenchOutcome) (benches : List Benchmark) : Prop :=
  ∀ bench ∈ benches, ∃ runs, (outcomes bench.name).stageA = .wrote runs ∧
    ∀ cfg : Config, cfg.IsScheduled →
      ∃ candidate, (runs cfg.key).outcome = .ok candidate ∧ MatchesOriginal runs candidate

/-- No worker failed, and no scheduled configuration failed without a message. -/
def LeavesTraces (outcomes : String → BenchOutcome) (benches : List Benchmark) : Prop :=
  ∀ bench ∈ benches, ∃ runs, (outcomes bench.name).stageA = .wrote runs ∧
    ∀ cfg : Config, cfg.IsScheduled → (runs cfg.key).outcome ≠ .error ""

/-- Something the gate looks at: a message, or a scheduled configuration that completed without matching
the baseline. -/
def Noticeable (runs : String → ConfigRun) : Prop :=
  (∃ cfg ∈ CONFIGS, ∃ message, message ≠ "" ∧ (runs cfg.key).outcome = .error message) ∨
    ∃ cfg : Config, cfg.IsScheduled ∧
      ∃ candidate, (runs cfg.key).outcome = .ok candidate ∧ ¬ MatchesOriginal runs candidate

/-- Some benchmark whose worker succeeded has something noticeable, or none succeeded. -/
def IsNoticed (outcomes : String → BenchOutcome) (benches : List Benchmark) : Prop :=
  (∃ bench ∈ benches, ∃ runs, (outcomes bench.name).stageA = .wrote runs ∧ Noticeable runs) ∨
    ∀ bench ∈ benches, ∀ runs, (outcomes bench.name).stageA ≠ .wrote runs

/-! ### The rows of one benchmark -/

variable {runs : String → ConfigRun} {key name : String} {r row : Row String} {rows : List (Row String)}
  {args : Args} {outcomes : String → BenchOutcome} {root : OutRoot} {bench : Benchmark}
  {benches : List Benchmark} {cfg : Config}

theorem lookup_map_key {α : Type} (f : String → α) (l : List Config) (hkey : key ∈ l.map Config.key) :
    (l.map fun cfg => (cfg.key, f cfg.key)).lookup key = some (f key) := by
  induction l with
  | nil => cases hkey
  | cons cfg l ih =>
    rw [List.map_cons, List.lookup_cons]
    by_cases heq : key = cfg.key
    · subst heq
      simp
    · rw [beq_eq_false_iff_ne.mpr heq]
      apply ih
      rw [List.map_cons] at hkey
      exact (List.mem_cons.mp hkey).resolve_left heq

theorem lookup_runOne {cfg : Config} (hcfg : cfg ∈ CONFIGS) :
    (runOne runs).lookup cfg.key = some (recordOf (runs cfg.key).outcome) :=
  lookup_map_key (fun key => recordOf (runs key).outcome) CONFIGS (List.mem_map_of_mem hcfg)

theorem lookup_runOne_original :
    (runOne runs).lookup "original" = some (recordOf (runs "original").outcome) :=
  show (runOne runs).lookup (Config.mk "original" true).key = _ from lookup_runOne List.mem_cons_self

/-- The comparison with the baseline. -/
theorem configMatchesOriginal_runOne (hcfg : cfg ∈ CONFIGS) {candidate : ConfigResult}
    (h : (runs cfg.key).outcome = .ok candidate) :
    configMatchesOriginal (runOne runs) cfg.key = true ↔ MatchesOriginal runs candidate := by
  rw [configMatchesOriginal, lookup_runOne hcfg, lookup_runOne_original, h, MatchesOriginal]
  cases horiginal : (runs "original").outcome with
  | error message => simp [recordOf]
  | ok original => simp [recordOf, ConfigResult.SameAs, and_assoc]

/-- `r` has the verdict columns of a configuration of a benchmark. -/
structure IsRowOf (name : String) (runs : String → ConfigRun) (key : String) (r : Row String) : Prop where
  benchmark : r.benchmark = name
  config : r.config = key
  error : r.error = (errorOf ((runOne runs).lookup key)).text
  correct : r.correctnessOkVsOriginal =
    (match correctOf (runOne runs) key with
      | some b => Scalar.bool b
      | none => Scalar.none).text

theorem IsRowOf.error_iff (h : IsRowOf name runs cfg.key r) (hcfg : cfg ∈ CONFIGS) :
    r.error ≠ "" ↔ ∃ message, message ≠ "" ∧ (runs cfg.key).outcome = .error message := by
  rw [h.error, lookup_runOne hcfg]
  cases (runs cfg.key).outcome with
  | ok result => simp [recordOf, errorOf, Scalar.text]
  | error message => simp [recordOf, errorOf, Scalar.text]

theorem IsRowOf.correct_iff (h : IsRowOf name runs cfg.key r) (hcfg : cfg ∈ CONFIGS) :
    r.correctnessOkVsOriginal = "False" ↔ cfg.key ≠ "original" ∧
      ∃ candidate, (runs cfg.key).outcome = .ok candidate ∧ ¬ MatchesOriginal runs candidate := by
  rw [h.correct, correctOf, lookup_runOne hcfg, lookup_runOne_original]
  cases hout : (runs cfg.key).outcome with
  | error message => simp [recordOf, Scalar.text]
  | ok candidate =>
    have hmatch := configMatchesOriginal_runOne hcfg hout
    by_cases horiginal : cfg.key = "original"
    · simp [recordOf, Scalar.text, horiginal]
    · cases hb : configMatchesOriginal (runOne runs) cfg.key with
      | true =>
        have := hmatch.mp hb
        simp [recordOf, Scalar.text, horiginal, this]
      | false =>
        have : ¬ MatchesOriginal runs candidate := fun h => by simp [hmatch.mpr h] at hb
        simp [recordOf, Scalar.text, horiginal, this]

/-! ### The file of a fresh run -/

theorem mem_upsert : r ∈ upsert rows row → r = row ∨ r ∈ rows := by
  induction rows with
  | nil =>
    intro h
    exact .inl (List.mem_singleton.mp h)
  | cons x rest ih =>
    intro h
    rw [upsert] at h
    split at h
    · exact (List.mem_cons.mp h).imp_right (List.mem_cons_of_mem x)
    · cases List.mem_cons.mp h with
      | inl h => exact .inr (h ▸ List.mem_cons_self)
      | inr h => exact (ih h).imp_right (List.mem_cons_of_mem x)

theorem mem_upsert_self : row ∈ upsert rows row := by
  induction rows with
  | nil => exact List.mem_singleton_self row
  | cons x rest ih =>
    rw [upsert]
    split
    · exact List.mem_cons_self
    · exact List.mem_cons_of_mem x ih

theorem mem_upsert_of_mem (row : Row String) (h : r ∈ rows) :
    r ∈ upsert rows row ∨ (r.benchmark = row.benchmark ∧ r.config = row.config) := by
  induction rows with
  | nil => cases h
  | cons x rest ih =>
    rw [upsert]
    cases List.mem_cons.mp h with
    | inl h =>
      subst h
      split
      · rename_i hkey
        exact .inr hkey
      · exact .inl List.mem_cons_self
    | inr h =>
      split
      · exact .inl (List.mem_cons_of_mem row h)
      · exact (ih h).imp_left (List.mem_cons_of_mem x)

/-- Merged rows are old or new, and whatever was there is still there or has been replaced by a new row
with the same key. -/
theorem foldl_upsert_spec (new rows : List (Row String)) :
    (∀ r ∈ new.foldl upsert rows, r ∈ new ∨ r ∈ rows) ∧
      ∀ r, r ∈ new ∨ r ∈ rows → ∃ r' ∈ new.foldl upsert rows, (r' = r ∨ r' ∈ new) ∧
        r'.benchmark = r.benchmark ∧ r'.config = r.config := by
  induction new generalizing rows with
  | nil =>
    refine ⟨fun r hr => .inr hr, ?_⟩
    intro r hr
    exact ⟨r, hr.resolve_left (by simp), .inl rfl, rfl, rfl⟩
  | cons x new ih =>
    obtain ⟨horigin, hpresent⟩ := ih (upsert rows x)
    rw [List.foldl_cons]
    have hstep : ∀ r, r ∈ upsert rows x → ∃ r' ∈ new.foldl upsert (upsert rows x),
        (r' = r ∨ r' ∈ x :: new) ∧ r'.benchmark = r.benchmark ∧ r'.config = r.config := by
      intro r hr
      obtain ⟨r', hr', hcase, hkey⟩ := hpresent r (.inr hr)
      exact ⟨r', hr', hcase.imp_right (List.mem_cons_of_mem x), hkey⟩
    constructor
    · intro r hr
      cases horigin r hr with
      | inl h => exact .inl (List.mem_cons_of_mem x h)
      | inr h =>
        cases mem_upsert h with
        | inl h => exact .inl (h ▸ List.mem_cons_self)
        | inr h => exact .inr h
    · intro r hr
      cases hr with
      | inl hr =>
        cases List.mem_cons.mp hr with
        | inl h =>
          subst h
          exact hstep r mem_upsert_self
        | inr h =>
          obtain ⟨r', hr', hcase, hkey⟩ := hpresent r (.inl h)
          exact ⟨r', hr', hcase.imp_right (List.mem_cons_of_mem x), hkey⟩
      | inr hr =>
        cases mem_upsert_of_mem x hr with
        | inl h => exact hstep r h
        | inr hkey =>
          obtain ⟨r', hr', hcase, hkey'⟩ := hstep x mem_upsert_self
          refine ⟨r', hr', .inr ?_, hkey'.1.trans hkey.1.symm, hkey'.2.trans hkey.2.symm⟩
          cases hcase with
          | inl h => exact h ▸ List.mem_cons_self
          | inr h => exact h

/-- The rows of the benchmarks in `done`, one for each configuration of those that ran. -/
structure CsvOf (outcomes : String → BenchOutcome) (done : List Benchmark) (rows : List (Row String)) :
    Prop where
  origin : ∀ r ∈ rows, ∃ bench ∈ done, ∃ runs, (outcomes bench.name).stageA = .wrote runs ∧
    ∃ cfg ∈ CONFIGS, IsRowOf bench.name runs cfg.key r
  present : ∀ bench ∈ done, ∀ runs, (outcomes bench.name).stageA = .wrote runs →
    ∀ cfg ∈ CONFIGS, ∃ r ∈ rows, IsRowOf bench.name runs cfg.key r

/-- Rows with one key are rows of one benchmark and one configuration. -/
theorem IsRowOf.key_eq {name' key' : String} {runs' : String → ConfigRun} {r' : Row String}
    (h : IsRowOf name runs key r) (h' : IsRowOf name' runs' key' r')
    (hbenchmark : r'.benchmark = r.benchmark) (hconfig : r'.config = r.config) :
    name' = name ∧ key' = key :=
  ⟨h'.benchmark.symm.trans (hbenchmark.trans h.benchmark),
    h'.config.symm.trans (hconfig.trans h.config)⟩

/-- A benchmark more, its rows merged. -/
theorem CsvOf.merge {done : List Benchmark} {new : List (Row String)} (h : CsvOf outcomes done rows)
    (hran : (outcomes bench.name).stageA = .wrote runs)
    (hnew : ∀ r ∈ new, ∃ cfg ∈ CONFIGS, IsRowOf bench.name runs cfg.key r)
    (hall : ∀ cfg ∈ CONFIGS, ∃ r ∈ new, IsRowOf bench.name runs cfg.key r) :
    CsvOf outcomes (done ++ [bench]) (new.foldl upsert rows) := by
  obtain ⟨horigin, hpresent⟩ := foldl_upsert_spec new rows
  constructor
  · intro r hr
    cases horigin r hr with
    | inl hr => exact ⟨bench, by simp, runs, hran, hnew r hr⟩
    | inr hr =>
      obtain ⟨b, hb, hrest⟩ := h.origin r hr
      exact ⟨b, List.mem_append_left _ hb, hrest⟩
  · -- a row is replaced by rows of its own benchmark only
    have hkeep : ∀ b runs', (outcomes b).stageA = .wrote runs' → ∀ cfg ∈ CONFIGS, ∀ r,
        r ∈ new ∨ r ∈ rows → IsRowOf b runs' cfg.key r →
        ∃ r' ∈ new.foldl upsert rows, IsRowOf b runs' cfg.key r' := by
      intro b runs' hran' cfg _ r hr hisrow
      obtain ⟨r', hr', hcase, hbenchmark, hconfig⟩ := hpresent r hr
      cases hcase with
      | inl heq => exact ⟨r', hr', heq ▸ hisrow⟩
      | inr hmem =>
        obtain ⟨cfg', _, hisrow'⟩ := hnew r' hmem
        obtain ⟨hname, hkey⟩ := hisrow.key_eq hisrow' hbenchmark hconfig
        rw [← hname, hran] at hran'
        cases hran'
        exact ⟨r', hr', by rw [← hname, ← hkey]; exact hisrow'⟩
    intro b hb runs' hran' cfg hcfg
    cases List.mem_append.mp hb with
    | inl hb =>
      obtain ⟨r, hr, hisrow⟩ := h.present b hb runs' hran' cfg hcfg
      exact hkeep b.name runs' hran' cfg hcfg r (.inr hr) hisrow
    | inr hb =>
      obtain rfl := List.mem_singleton.mp hb
      obtain rfl : runs = runs' := by
        rw [hran] at hran'
        cases hran'
        rfl
      obtain ⟨r, hr, hisrow⟩ := hall cfg hcfg
      exact hkeep b.name runs hran cfg hcfg r (.inl hr) hisrow

/-- Stage B is skipped, or run. -/
theorem stageBStep_cases (args : Args) (name : String) (o : StageBRun) (root : OutRoot) :
    stageBStep args name o root = root ∨ stageBStep args name o root = runStageB name o root := by
  rw [stageBStep]
  split
  · exact .inl rfl
  split
  · exact .inl rfl
  split
  · exact .inl rfl
  · exact .inr rfl

/-- Stage B writes neither a Stage A file nor rows. -/
theorem runStageB_keeps (name : String) (o : StageBRun) (root : OutRoot) :
    (runStageB name o root).stageA = root.stageA ∧ (runStageB name o root).csv = root.csv := by
  cases o with
  | failed => exact ⟨rfl, rfl⟩
  | wrote stats => exact ⟨rfl, rfl⟩

theorem stageBStep_stageA (o : StageBRun) : (stageBStep args name o root).stageA = root.stageA := by
  cases stageBStep_cases args name o root with
  | inl h => rw [h]
  | inr h => rw [h, (runStageB_keeps name o root).1]

theorem stageBStep_csv (o : StageBRun) : (stageBStep args name o root).csv = root.csv := by
  cases stageBStep_cases args name o root with
  | inl h => rw [h]
  | inr h => rw [h, (runStageB_keeps name o root).2]

theorem isRowOf_rowsFor (hstage : loadStageA root bench.name = runOne runs)
    (hr : r ∈ rowsFor args bench root) :
    ∃ cfg ∈ CONFIGS, IsRowOf bench.name runs cfg.key r := by
  rw [rowsFor, hstage] at hr
  obtain ⟨row, hrow, rfl⟩ := List.mem_map.mp hr
  obtain ⟨cfg, hcfg, rfl⟩ := List.mem_map.mp hrow
  exact ⟨cfg, hcfg, rfl, rfl, rfl, rfl⟩

theorem exists_rowsFor (hstage : loadStageA root bench.name = runOne runs) (hcfg : cfg ∈ CONFIGS) :
    ∃ r ∈ rowsFor args bench root, IsRowOf bench.name runs cfg.key r := by
  rw [rowsFor, hstage]
  exact ⟨_, List.mem_map_of_mem (List.mem_map_of_mem hcfg), rfl, rfl, rfl, rfl⟩

theorem benchStep_failed (hfresh : args.resume = false) {linked : String → Bool}
    (hran : (outcomes bench.name).stageA = .failed linked) :
    benchStep args outcomes root bench = root.link bench.name linked := by
  rw [benchStep]
  simp [stageAStep, hfresh, hran, runStageA]

theorem benchStep_wrote (hfresh : args.resume = false)
    (hran : (outcomes bench.name).stageA = .wrote runs) :
    benchStep args outcomes root bench =
      writeRows
        (rowsFor args bench (stageBStep args bench.name (outcomes bench.name).stageB
          (runStageA bench.name (.wrote runs) root)))
        (stageBStep args bench.name (outcomes bench.name).stageB
          (runStageA bench.name (.wrote runs) root)) := by
  rw [benchStep]
  simp [stageAStep, hfresh, hran]

/-- **One benchmark of a fresh run.** -/
theorem benchStep_csvOf (hfresh : args.resume = false) {done : List Benchmark}
    (h : CsvOf outcomes done (root.csv.getD [])) (bench : Benchmark) :
    CsvOf outcomes (done ++ [bench]) ((benchStep args outcomes root bench).csv.getD []) := by
  cases hran : (outcomes bench.name).stageA with
  | failed linked =>
    rw [benchStep_failed hfresh hran]
    constructor
    · intro r hr
      obtain ⟨b, hb, hrest⟩ := h.origin r hr
      exact ⟨b, List.mem_append_left _ hb, hrest⟩
    · intro b hb runs hran'
      cases List.mem_append.mp hb with
      | inl hb => exact h.present b hb runs hran'
      | inr hb =>
        rw [List.mem_singleton.mp hb, hran] at hran'
        cases hran'
  | wrote runs =>
    rw [benchStep_wrote hfresh hran, writeRows, stageBStep_csv]
    have hstage : loadStageA (stageBStep args bench.name (outcomes bench.name).stageB
        (runStageA bench.name (.wrote runs) root)) bench.name = runOne runs := by
      rw [loadStageA, stageBStep_stageA, runStageA]
      simp
    apply h.merge hran
    · intro r hr
      exact isRowOf_rowsFor hstage hr
    · intro cfg hcfg
      exact exists_rowsFor hstage hcfg

/-- **The file of a fresh run.** -/
theorem runSuite_csvOf (hfresh : args.resume = false) {root' : OutRoot}
    (hrun : runSuite args outcomes root = some root') :
    CsvOf outcomes (selectedBenchmarks args.only) (root'.csv.getD []) := by
  have hgen : ∀ (l done : List Benchmark) (root : OutRoot), CsvOf outcomes done (root.csv.getD []) →
      CsvOf outcomes (done ++ l) ((l.foldl (benchStep args outcomes) root).csv.getD []) := by
    intro l
    induction l with
    | nil =>
      intro done root h
      rw [List.append_nil]
      exact h
    | cons bench l ih =>
      intro done root h
      have hnext := ih (done ++ [bench]) _ (benchStep_csvOf hfresh h bench)
      rw [List.append_assoc, List.singleton_append] at hnext
      exact hnext
  rw [runSuite] at hrun
  split at hrun
  · obtain rfl := Option.some.inj hrun
    have hclean : (startCsv args root).csv = none := by
      rw [startCsv, hfresh]
      rfl
    have hinit : CsvOf outcomes [] ((startCsv args root).csv.getD []) := by
      rw [hclean]
      constructor
      · intro r hr
        cases hr
      · intro b hb
        cases hb
    exact hgen (selectedBenchmarks args.only) [] _ hinit
  · cases hrun

/-! ### What a green run means -/

theorem mem_gatingKeys (hcfg : cfg ∈ CONFIGS) :
    GATING_KEYS.contains cfg.key = true ↔ cfg.gatesCorrectness = true := by
  revert cfg
  decide

theorem ciGate_isSuccess_iff {path : String} {csv : Option (List (Row String))} :
    (ciGate path csv).isSuccess = true ↔ csv.getD [] ≠ [] ∧
      ∀ r ∈ csv.getD [], r.error = "" ∧
        ¬ (r.correctnessOkVsOriginal = "False" ∧ GATING_KEYS.contains r.config = true) := by
  cases csv with
  | none => simp [ciGate, GateResult.isSuccess]
  | some rows =>
    rw [ciGate]
    dsimp only
    rw [Option.getD_some]
    split
    · rename_i hempty
      simp [GateResult.isSuccess, List.isEmpty_iff.mp hempty]
    · rename_i hne
      split
      · rename_i hbad
        simp only [Bool.or_eq_true, Bool.not_eq_true', List.isEmpty_eq_false_iff_exists_mem,
          List.mem_filter, bne_iff_ne, beq_iff_eq] at hbad
        simp only [GateResult.isSuccess, Bool.false_eq_true, false_iff, not_and]
        intro _ hclean
        cases hbad with
        | inl h =>
          obtain ⟨r, hr, herror⟩ := h
          exact herror (hclean r hr).1
        | inr h =>
          obtain ⟨r, ⟨hr, hfalse⟩, hgating⟩ := h
          exact (hclean r hr).2 hfalse hgating
      · rename_i hgood
        simp only [Bool.or_eq_true, Bool.not_eq_true', List.isEmpty_eq_false_iff_exists_mem,
          List.mem_filter, bne_iff_ne, beq_iff_eq, not_or, not_exists, not_and] at hgood
        simp only [GateResult.isSuccess, true_iff]
        refine ⟨fun hnil => hne (by rw [hnil]; rfl), ?_⟩
        intro r hr
        refine ⟨?_, ?_⟩
        · by_contra herror
          exact hgood.1 r hr herror
        · intro hfail
          exact hgood.2 r ⟨hr, hfail.1⟩ hfail.2

/-- The gate, on the rows of a fresh run. -/
theorem CsvOf.isSuccess_iff {path : String} {csv : Option (List (Row String))}
    (h : CsvOf outcomes benches (csv.getD [])) :
    (ciGate path csv).isSuccess = true ↔ ¬ IsNoticed outcomes benches := by
  rw [ciGate_isSuccess_iff]
  constructor
  · intro hgreen hnoticed
    obtain ⟨hne, hclean⟩ := hgreen
    cases hnoticed with
    | inl hnoticed =>
      obtain ⟨bench, hbench, runs, hran, hsomething⟩ := hnoticed
      cases hsomething with
      | inl herror =>
        obtain ⟨cfg, hcfg, message, hmessage, hout⟩ := herror
        obtain ⟨r, hr, hisrow⟩ := h.present bench hbench runs hran cfg hcfg
        exact (hisrow.error_iff hcfg).mpr ⟨message, hmessage, hout⟩ (hclean r hr).1
      | inr hmismatch =>
        obtain ⟨cfg, ⟨hcfg, hgates, hkey⟩, candidate, hout, hnot⟩ := hmismatch
        obtain ⟨r, hr, hisrow⟩ := h.present bench hbench runs hran cfg hcfg
        apply (hclean r hr).2
        refine ⟨(hisrow.correct_iff hcfg).mpr ⟨hkey, candidate, hout, hnot⟩, ?_⟩
        rw [hisrow.config]
        exact (mem_gatingKeys hcfg).mpr hgates
    | inr hnone =>
      obtain ⟨r, hr⟩ := List.exists_mem_of_ne_nil _ hne
      obtain ⟨bench, hbench, runs, hran, _⟩ := h.origin r hr
      exact hnone bench hbench runs hran
  · intro hquiet
    obtain ⟨hnothing, hsome⟩ := not_or.mp hquiet
    constructor
    · intro hnil
      apply hsome
      intro bench hbench runs hran
      obtain ⟨r, hr, _⟩ := h.present bench hbench runs hran ⟨"original", true⟩ List.mem_cons_self
      rw [hnil] at hr
      cases hr
    · intro r hr
      obtain ⟨bench, hbench, runs, hran, cfg, hcfg, hisrow⟩ := h.origin r hr
      constructor
      · by_contra herror
        obtain ⟨message, hmessage, hout⟩ := (hisrow.error_iff hcfg).mp herror
        exact hnothing ⟨bench, hbench, runs, hran, .inl ⟨cfg, hcfg, message, hmessage, hout⟩⟩
      · intro hfail
        obtain ⟨hfalse, hgating⟩ := hfail
        rw [hisrow.config] at hgating
        have hgates := (mem_gatingKeys hcfg).mp hgating
        obtain ⟨hkey, candidate, hout, hnot⟩ := (hisrow.correct_iff hcfg).mp hfalse
        exact hnothing ⟨bench, hbench, runs, hran,
          .inr ⟨cfg, ⟨hcfg, hgates, hkey⟩, candidate, hout, hnot⟩⟩

/-- **What a green run means.** Some worker succeeded, and no benchmark whose worker succeeded has
something noticeable. -/
theorem ciRun_iff (path : String) (hfresh : args.resume = false) (outcomes : String → BenchOutcome)
    (root : OutRoot) :
    ciRun path args outcomes root = true ↔ unknownNames args.only = [] ∧
      ¬ IsNoticed outcomes (selectedBenchmarks args.only) := by
  cases hrun : runSuite args outcomes root with
  | none =>
    have hunknown : unknownNames args.only ≠ [] := by
      intro hnil
      rw [runSuite, hnil] at hrun
      cases hrun
    simp [ciRun, hrun, hunknown]
  | some root' =>
    have hknown : unknownNames args.only = [] := by
      rw [runSuite] at hrun
      split at hrun
      · rename_i h
        exact List.isEmpty_iff.mp h
      · cases hrun
    have hgate : ciRun path args outcomes root = (ciGate path root'.csv).isSuccess := by
      rw [ciRun, hrun]
    rw [hgate, (runSuite_csvOf hfresh hrun).isSuccess_iff]
    simp [hknown]

/-- What leaves traces and is not noticed is in order. -/
theorem allMatch_of_leavesTraces (htraces : LeavesTraces outcomes benches)
    (hquiet : ¬ IsNoticed outcomes benches) : AllMatch outcomes benches := by
  obtain ⟨hnothing, _⟩ := not_or.mp hquiet
  intro bench hbench
  obtain ⟨runs, hran, hmessages⟩ := htraces bench hbench
  refine ⟨runs, hran, ?_⟩
  intro cfg hcfg
  cases hout : (runs cfg.key).outcome with
  | error message =>
    exfalso
    apply hnothing
    refine ⟨bench, hbench, runs, hran, .inl ⟨cfg, hcfg.1, message, ?_, hout⟩⟩
    intro hempty
    rw [hempty] at hout
    exact hmessages cfg hcfg hout
  | ok candidate =>
    refine ⟨candidate, rfl, ?_⟩
    by_contra hnot
    exact hnothing ⟨bench, hbench, runs, hran, .inr ⟨cfg, hcfg, candidate, hout, hnot⟩⟩

/-- What is in order leaves traces. -/
theorem AllMatch.leavesTraces (h : AllMatch outcomes benches) : LeavesTraces outcomes benches := by
  intro bench hbench
  obtain ⟨runs, hran, hmatch⟩ := h bench hbench
  refine ⟨runs, hran, ?_⟩
  intro cfg hcfg herror
  obtain ⟨candidate, hout, _⟩ := hmatch cfg hcfg
  rw [herror] at hout
  cases hout

/-- **A green run means that everything matches exactly when every failure leaves a trace, or something
else is noticed.** -/
theorem ciRun_sound_iff (path : String) (only : List String) (skipGem5 : Bool)
    (outcomes : String → BenchOutcome) (root : OutRoot) :
    (ciRun path ⟨only, skipGem5, false⟩ outcomes root = true →
        AllMatch outcomes (selectedBenchmarks only)) ↔
      unknownNames only ≠ [] ∨ LeavesTraces outcomes (selectedBenchmarks only) ∨
        IsNoticed outcomes (selectedBenchmarks only) := by
  rw [ciRun_iff path rfl outcomes root]
  constructor
  · intro h
    by_cases hknown : unknownNames only = []
    · right
      by_cases hnoticed : IsNoticed outcomes (selectedBenchmarks only)
      · exact .inr hnoticed
      · exact .inl (h ⟨hknown, hnoticed⟩).leavesTraces
    · exact .inl hknown
  · intro h hgreen
    obtain ⟨hknown, hquiet⟩ := hgreen
    exact allMatch_of_leavesTraces ((h.resolve_left fun h => h hknown).resolve_right hquiet) hquiet

/-- A configuration that completes with nothing to report. -/
def completed : ConfigRun := ⟨.ok ⟨[], 0, [], 0, "", none⟩, true⟩

/-- The worker of one benchmark fails. -/
def shaFails (name : String) : BenchOutcome :=
  ⟨if name = "sha" then .failed fun _ => false else .wrote fun _ => completed, .failed⟩

/-- One configuration raises an exception without a message. -/
def localSilent (_ : String) : BenchOutcome :=
  ⟨.wrote fun key => if key = "local" then ⟨.error "", false⟩ else completed, .failed⟩

/-- Both runs are green. -/
theorem ciRun_green :
    (ciRun "results.csv" ⟨["sha", "qsort"], true, false⟩ shaFails .empty = true ∧
      ¬ AllMatch shaFails (selectedBenchmarks ["sha", "qsort"])) ∧
    ciRun "results.csv" ⟨["sha"], true, false⟩ localSilent .empty = true ∧
      ¬ AllMatch localSilent (selectedBenchmarks ["sha"]) := by
  refine ⟨⟨rfl, ?_⟩, rfl, ?_⟩
  · intro h
    obtain ⟨runs, hran, _⟩ := h ⟨"sha", "security"⟩ (by decide)
    cases hran
  · intro h
    obtain ⟨runs, hran, hmatch⟩ := h ⟨"sha", "security"⟩ (by decide)
    obtain ⟨candidate, hout, _⟩ := hmatch ⟨"local", true⟩ ⟨by decide, rfl, by decide⟩
    cases hran
    cases hout

end TraceScheduler.Scripts
