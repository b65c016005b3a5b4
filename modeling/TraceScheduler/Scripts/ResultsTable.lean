import TraceScheduler.Scripts.Gem5Provenance
import TraceScheduler.Scripts.Resume

/-!
# The results table

`results.csv` outlives the runs that write it: rows of one run stand beside rows of another, benchmarks
come in by subsets, runs are killed and resumed.  Unless a kill has cut it, the file is a sequence of
reports, one a benchmark, each with a row for every configuration (`IsTable`); writing a report puts it
in the place of the one before or at the end (`IsTable.merge`).  And a report carries gem5 numbers only
if every scheduled configuration in it is correct (`reached_results`).
-/

namespace TraceScheduler.Scripts

/-- What one pass of the loop has to say about a benchmark. -/
structure Report where
  bench : Benchmark
  stageA : StageA
  stageB : StageB

namespace Report

def rows (report : Report) : List (Row String) :=
  (buildCsvRows report.bench.name report.bench.category report.stageA report.stageB).map
    (Row.map Scalar.text)

/-- Of a benchmark of the manifest, with gem5 data beside correct results only. -/
structure Ok (report : Report) : Prop where
  known : report.bench ∈ BENCHMARKS
  gated : report.stageB = [] ∨ stageACorrect report.stageA = true

end Report

/-- One report a benchmark. -/
structure IsTableOf (reports : List Report) (rows : List (Row String)) : Prop where
  ok : ∀ report ∈ reports, report.Ok
  nodup : (reports.map fun report => report.bench.name).Nodup
  rows : rows = reports.flatMap Report.rows

def IsTable (rows : List (Row String)) : Prop := ∃ reports, IsTableOf reports rows

/-! ### Reports -/

variable {report : Report} {reports : List Report} {rows : List (Row String)} {r : Row String}
  {args : Args} {outcomes : String → BenchOutcome} {root root' : OutRoot} {st st' : CutRoot}
  {bench : Benchmark}

theorem Report.keys (report : Report) :
    report.rows.map rowKey = CONFIGS.map fun cfg => (report.bench.name, cfg.key) := by
  rw [Report.rows, buildCsvRows, List.map_map, List.map_map]
  rfl

theorem Report.mem_rows : r ∈ report.rows ↔ ∃ cfg ∈ CONFIGS, r = (buildCsvRow report.bench.name
    report.bench.category report.stageA report.stageB cfg).map Scalar.text := by
  simp only [Report.rows, buildCsvRows, List.map_map, List.mem_map, Function.comp_apply, eq_comm]

theorem Report.benchmark_of_mem (h : r ∈ report.rows) : r.benchmark = report.bench.name := by
  obtain ⟨cfg, _, rfl⟩ := Report.mem_rows.mp h
  rfl

/-- Rows of different benchmarks have different keys. -/
theorem Report.rowKey_ne {report' : Report} (hne : report'.bench.name ≠ report.bench.name)
    {x : Row String} (hr : r ∈ report'.rows) (hx : x ∈ report.rows) : rowKey r ≠ rowKey x := by
  intro heq
  have hname : r.benchmark = x.benchmark := congrArg Prod.fst heq
  rw [Report.benchmark_of_mem hr, Report.benchmark_of_mem hx] at hname
  exact hne hname

/-- **Writing a report.** It takes the place of the benchmark's report, or goes to the end. -/
theorem IsTable.merge (h : IsTable rows) (hok : report.Ok) :
    IsTable (report.rows.foldl upsert rows) := by
  obtain ⟨reports, h⟩ := h
  have hkeys : (report.rows.map rowKey).Nodup := by
    rw [report.keys]
    exact configKeys_nodup report.bench.name
  rw [upsert_eq_upsertBy]
  by_cases hmem : report.bench.name ∈ reports.map fun report => report.bench.name
  · obtain ⟨old, hold, hname⟩ := List.mem_map.mp hmem
    obtain ⟨before, after, rfl⟩ := List.append_of_mem hold
    have hnd := h.nodup
    rw [List.map_append, List.map_cons] at hnd
    have hrows : rows = before.flatMap Report.rows ++ old.rows ++ after.flatMap Report.rows := by
      rw [h.rows, List.flatMap_append, List.flatMap_cons, List.append_assoc]
    have hold_keys : report.rows.map rowKey = old.rows.map rowKey := by
      rw [report.keys, old.keys, hname]
    have hbefore : ∀ r ∈ before.flatMap Report.rows, ∀ x ∈ report.rows, rowKey r ≠ rowKey x := by
      intro r hr x hx
      obtain ⟨other, hother, hr⟩ := List.mem_flatMap.mp hr
      refine Report.rowKey_ne ?_ hr hx
      rw [← hname]
      exact (List.nodup_append.mp hnd).2.2 _ (List.mem_map_of_mem hother) _ List.mem_cons_self
    rw [hrows, foldl_upsertBy_replace hold_keys hkeys hbefore]
    have hothers := h.ok
    rw [List.forall_mem_append, List.forall_mem_cons] at hothers
    refine ⟨before ++ report :: after, ⟨?_, ?_, ?_⟩⟩
    · rw [List.forall_mem_append, List.forall_mem_cons]
      exact ⟨hothers.1, hok, hothers.2.2⟩
    · rw [List.map_append, List.map_cons, ← hname]
      exact hnd
    · rw [List.flatMap_append, List.flatMap_cons, List.append_assoc]
  · have hnew : ∀ r ∈ rows, ∀ x ∈ report.rows, rowKey r ≠ rowKey x := by
      intro r hr x hx
      rw [h.rows] at hr
      obtain ⟨other, hother, hr⟩ := List.mem_flatMap.mp hr
      refine Report.rowKey_ne ?_ hr hx
      intro heq
      exact hmem (List.mem_map.mpr ⟨other, hother, heq⟩)
    rw [foldl_upsertBy_append hkeys hnew]
    refine ⟨reports ++ [report], ⟨?_, ?_, ?_⟩⟩
    · rw [List.forall_mem_append, List.forall_mem_singleton]
      exact ⟨h.ok, hok⟩
    · rw [List.map_append, List.map_singleton]
      exact List.Nodup.append h.nodup (List.nodup_singleton _) (List.disjoint_singleton.mpr hmem)
    · rw [List.flatMap_append, List.flatMap_singleton, h.rows]

theorem IsTable.nil : IsTable [] := ⟨[], by simp, by simp, rfl⟩

/-! ### Whatever happens -/

/-- The rows of a benchmark are a report. -/
theorem exists_report (args : Args) (root : OutRoot) (hbench : bench ∈ BENCHMARKS) :
    ∃ report : Report, report.Ok ∧ rowsFor args bench root = report.rows := by
  refine ⟨⟨bench, loadStageA root bench.name,
    if !args.skipGem5 && stageACorrect (loadStageA root bench.name) then loadStageB root bench.name
    else []⟩, ⟨hbench, ?_⟩, rfl⟩
  dsimp only
  split
  · rename_i hgate
    exact .inr (Bool.and_eq_true_iff.mp hgate).2
  · exact .inl rfl

/-- What a pass of the loop does to the file: nothing, or it writes a report. -/
theorem benchStep_csv (args : Args) (outcomes : String → BenchOutcome) (root : OutRoot)
    (hbench : bench ∈ BENCHMARKS) :
    (benchStep args outcomes root bench).csv = root.csv ∨ ∃ report : Report, report.Ok ∧
      (benchStep args outcomes root bench).csv =
        some (report.rows.foldl upsert (root.csv.getD [])) := by
  rw [benchStep]
  dsimp only
  split
  · right
    obtain ⟨report, hok, hrows⟩ := exists_report args (stageBStep args bench.name
      (outcomes bench.name).stageB (stageAStep args bench.name (outcomes bench.name).stageA root).1)
      hbench
    refine ⟨report, hok, ?_⟩
    rw [writeRows, hrows, stageBStep_csv, stageAStep_csv]
  · exact .inl (stageAStep_csv _)

/-- The file, if there is one, is a table. -/
def OutRoot.Tabled (root : OutRoot) : Prop := ∀ rows, root.csv = some rows → IsTable rows

theorem OutRoot.Tabled.getD (h : root.Tabled) : IsTable (root.csv.getD []) := by
  cases hcsv : root.csv with
  | none => exact .nil
  | some rows => exact h rows hcsv

theorem OutRoot.Tabled.of_csv (h : root.Tabled) (hcsv : root'.csv = root.csv) : root'.Tabled := by
  intro rows hrows
  exact h rows (hcsv ▸ hrows)

theorem OutRoot.Tabled.benchStep (h : root.Tabled) (hbench : bench ∈ BENCHMARKS) :
    (benchStep args outcomes root bench).Tabled := by
  rcases benchStep_csv args outcomes root hbench with hcsv | ⟨report, hok, hcsv⟩
  · exact h.of_csv hcsv
  · intro rows hrows
    obtain rfl := Option.some.inj (hcsv.symm.trans hrows)
    exact h.getD.merge hok

theorem OutRoot.Tabled.foldl (h : root.Tabled) {benches : List Benchmark}
    (hbenches : ∀ bench ∈ benches, bench ∈ BENCHMARKS) :
    (benches.foldl (Scripts.benchStep args outcomes) root).Tabled := by
  induction benches generalizing root with
  | nil => exact h
  | cons bench benches ih =>
    rw [List.forall_mem_cons] at hbenches
    exact ih (h.benchStep hbenches.1) hbenches.2

theorem OutRoot.Tabled.start (h : root.Tabled) : (startCsv args root).Tabled := by
  rw [startCsv]
  split
  · exact h
  · intro rows hrows
    cases hrows

theorem mem_BENCHMARKS_of_selected {only : List String} (h : bench ∈ selectedBenchmarks only) :
    bench ∈ BENCHMARKS := by
  rw [selectedBenchmarks] at h
  split at h
  · exact h
  · exact (List.mem_filter.mp h).1

/-- What a sequence of invocations leaves, from a new output root. Any of them may be killed, or ends
with an exception. -/
inductive Reached : CutRoot → Prop
  | start : Reached (.whole .empty)
  | run (inv : Invocation) {st st' : CutRoot} : Reached st →
      Interrupted inv.args inv.outcomes st st' → Reached st'

/-- The file is a table, if it has not been cut. -/
def CutRoot.Tabled (st : CutRoot) : Prop := st.cutCsv = false → st.root.Tabled

theorem CutRoot.Tabled.of_sameTable (h : st.Tabled) (hsame : SameTable st st') : st'.Tabled :=
  fun hcut => (h (hsame.cutCsv ▸ hcut)).of_csv hsame.csv

/-- **One benchmark**, whether the pass comes to its end or not. -/
theorem CutRoot.Tabled.benchStepCut (h : st.Tabled) (hbench : bench ∈ BENCHMARKS)
    (hends : benchStepCut args outcomes st bench = .ok st' ∨
      benchStepCut args outcomes st bench = .error st') : st'.Tabled := by
  have hA : SameTable st (stageAStepCut args bench.name (outcomes bench.name).stageA st).1 :=
    sameTable_stageAStepCut _
  rw [Scripts.benchStepCut] at hends
  generalize hstepA : stageAStepCut args bench.name (outcomes bench.name).stageA st = afterA at hA hends
  obtain ⟨st₁, done⟩ := afterA
  have hB : SameTable st (stageBStepCut args bench.name (outcomes bench.name).stageB st₁) :=
    hA.trans (sameTable_stageBStepCut _)
  dsimp only at hA hends
  split at hends
  · split at hends
    · rcases hends with hends | hends
      · cases hends
      · obtain rfl := Except.error.inj hends
        exact h.of_sameTable hA
    · generalize stageBStepCut args bench.name (outcomes bench.name).stageB st₁ = st₂ at hB hends
      split at hends
      · rcases hends with hends | hends
        · cases hends
        · obtain rfl := Except.error.inj hends
          exact h.of_sameTable hB
      · rcases hends with hends | hends
        · obtain rfl := Except.ok.inj hends
          intro hcut rows hrows
          obtain ⟨report, hok, hreport⟩ := exists_report args st₂.root hbench
          have htable : IsTable (st₂.root.csv.getD []) := (h.of_sameTable hB hcut).getD
          obtain rfl := Option.some.inj hrows
          rw [hreport]
          exact htable.merge hok
        · cases hends
  · rcases hends with hends | hends
    · obtain rfl := Except.ok.inj hends
      exact h.of_sameTable hA
    · cases hends

theorem CutRoot.Tabled.foldlM (h : st.Tabled) {benches : List Benchmark}
    (hbenches : ∀ bench ∈ benches, bench ∈ BENCHMARKS)
    (hends : benches.foldlM (Scripts.benchStepCut args outcomes) st = .ok st' ∨
      benches.foldlM (Scripts.benchStepCut args outcomes) st = .error st') : st'.Tabled := by
  induction benches generalizing st with
  | nil =>
    rcases hends with hends | hends
    · obtain rfl := Except.ok.inj hends
      exact h
    · cases hends
  | cons bench benches ih =>
    rw [List.forall_mem_cons] at hbenches
    rw [List.foldlM_cons] at hends
    cases hstep : Scripts.benchStepCut args outcomes st bench with
    | ok st₁ =>
      rw [hstep] at hends
      exact ih (h.benchStepCut hbenches.1 (.inl hstep)) hbenches.2 hends
    | error st₁ =>
      rw [hstep] at hends
      rcases hends with hends | hends
      · cases hends
      · obtain rfl := Except.error.inj hends
        exact h.benchStepCut hbenches.1 (.inr hstep)

theorem CutRoot.Tabled.start (h : st.Tabled) : (startCsvCut args st).Tabled := by
  intro hcut rows hrows
  cases hresume : args.resume with
  | true =>
    rw [startCsvCut_resume hresume] at hcut hrows
    exact h hcut rows hrows
  | false =>
    have hnone : (startCsvCut args st).root.csv = none := by
      rw [startCsvCut, startCsv, if_neg (by simp [hresume])]
    cases hnone.symm.trans hrows

theorem CutRoot.Tabled.killed (h : st.Tabled) (hkilled : KilledAt args outcomes bench st st') :
    st'.Tabled := by
  rcases hkilled.sameTable with hcut | hsame
  · intro hcut'
    cases hcut.symm.trans hcut'
  · exact h.of_sameTable hsame

/-- **The file is a table**, if it has not been cut, whatever has happened. -/
theorem Reached.tabled (h : Reached st) : st.Tabled := by
  induction h with
  | start =>
    intro _ rows hrows
    cases hrows
  | run inv _ hinterrupted ih =>
    have hselected : ∀ bench ∈ selectedBenchmarks inv.args.only, bench ∈ BENCHMARKS :=
      fun bench hbench => mem_BENCHMARKS_of_selected hbench
    cases hinterrupted with
    | atBench hsplit hdone hkilled =>
      refine (ih.start.foldlM (fun bench hbench => hselected bench ?_) (.inl hdone)).killed hkilled
      rw [hsplit]
      exact List.mem_append_left _ hbench
    | raised hraised =>
      rw [runSuiteCut] at hraised
      split at hraised
      · exact ih.start.foldlM hselected (.inr hraised)
      · obtain rfl := Except.error.inj hraised
        exact ih
    | atEnd hended =>
      rw [runSuiteCut] at hended
      split at hended
      · exact ih.start.foldlM hselected (.inl hended)
      · cases hended

/-! ### What a table says -/

theorem configMatchesOriginal_results {stageA : StageA} {key : String}
    (h : configMatchesOriginal stageA key = true) :
    ∃ original candidate, stageA.lookup "original" = some (.result original) ∧
      stageA.lookup key = some (.result candidate) := by
  rw [configMatchesOriginal] at h
  split at h
  · rename_i original candidate horiginal hcandidate
    exact ⟨original, candidate, horiginal, hcandidate⟩
  · cases h

/-- The gating rows of a report whose results are correct. -/
theorem gating_row (hcorrect : stageACorrect report.stageA = true) {cfg : Config} (hcfg : cfg ∈ CONFIGS)
    (hgates : cfg.gatesCorrectness = true) {row : Row String}
    (hrow : row = (buildCsvRow report.bench.name report.bench.category report.stageA report.stageB
      cfg).map Scalar.text) :
    row.error = "" ∧ (cfg.key ≠ "original" → row.correctnessOkVsOriginal = "True") := by
  rw [stageACorrect, Bool.and_eq_true, List.all_eq_true] at hcorrect
  have hlocal : configMatchesOriginal report.stageA "local" = true :=
    hcorrect.2 ⟨"local", true⟩ (by decide)
  obtain ⟨original, _, horiginal, _⟩ := configMatchesOriginal_results hlocal
  subst hrow
  by_cases hkey : cfg.key = "original"
  · refine ⟨?_, fun hne => absurd hkey hne⟩
    show (errorOf (report.stageA.lookup cfg.key)).text = ""
    rw [hkey, horiginal]
    rfl
  · have hmatch := hcorrect.2 cfg (List.mem_filter.mpr ⟨hcfg, by simp [hkey, hgates]⟩)
    obtain ⟨_, candidate, _, hcandidate⟩ := configMatchesOriginal_results hmatch
    constructor
    · show (errorOf (report.stageA.lookup cfg.key)).text = ""
      rw [hcandidate]
      rfl
    · intro _
      have hverdict : correctOf report.stageA cfg.key = some true := by
        rw [correctOf, hcandidate]
        dsimp only
        rw [horiginal, hmatch, if_pos (by simp [hkey])]
      simp only [buildCsvRow, Row.map, hverdict, Scalar.text]

/-- No gem5 data, no gem5 numbers. -/
theorem not_hasGem5_of_nil (hnil : report.stageB = []) (h : r ∈ report.rows) : ¬ r.HasGem5 := by
  obtain ⟨cfg, _, rfl⟩ := Report.mem_rows.mp h
  rw [hnil]
  intro hgem5
  rcases hgem5 with h | h | h | h
  · exact h rfl
  · exact h rfl
  · exact h rfl
  · exact h rfl

theorem IsTableOf.mem_rows (h : IsTableOf reports rows) :
    r ∈ rows ↔ ∃ report ∈ reports, r ∈ report.rows := by
  rw [h.rows, List.mem_flatMap]

theorem IsTableOf.nodup_keys (h : IsTableOf reports rows) : (rows.map rowKey).Nodup := by
  rw [h.rows, List.map_flatMap]
  apply List.nodup_flatMap.mpr
  constructor
  · intro report _
    rw [report.keys]
    exact configKeys_nodup report.bench.name
  · have hnames := List.pairwise_map.mp h.nodup
    apply hnames.imp
    intro report report' hne key hkey hkey'
    obtain ⟨r, hr, rfl⟩ := List.mem_map.mp hkey
    obtain ⟨r', hr', heq⟩ := List.mem_map.mp hkey'
    exact Report.rowKey_ne hne hr hr' heq.symm

/-- The report that a row belongs to is the one of its benchmark. -/
theorem IsTableOf.report_unique (h : IsTableOf reports rows) {report' : Report}
    (hreport : report ∈ reports) (hreport' : report' ∈ reports)
    (hname : report.bench.name = report'.bench.name) : report = report' :=
  List.inj_on_of_nodup_map h.nodup hreport hreport' hname

/-- A benchmark has a row for every configuration. -/
theorem IsTableOf.complete (h : IsTableOf reports rows) (hr : r ∈ rows) {cfg : Config}
    (hcfg : cfg ∈ CONFIGS) : ∃ r' ∈ rows, rowKey r' = (r.benchmark, cfg.key) := by
  obtain ⟨report, hreport, hr⟩ := h.mem_rows.mp hr
  refine ⟨_, h.mem_rows.mpr ⟨report, hreport, Report.mem_rows.mpr ⟨cfg, hcfg, rfl⟩⟩, ?_⟩
  rw [Report.benchmark_of_mem hr]
  rfl

/-- **A gem5 number vouches for its benchmark**: the gating configurations have no errors and match. -/
theorem IsTableOf.gated (h : IsTableOf reports rows) (hr : r ∈ rows) (hgem5 : r.HasGem5)
    {r' : Row String} (hr' : r' ∈ rows) (hsame : r'.benchmark = r.benchmark) {cfg : Config}
    (hcfg : cfg ∈ CONFIGS) (hgates : cfg.gatesCorrectness = true) (hconfig : r'.config = cfg.key) :
    r'.error = "" ∧ (cfg.key ≠ "original" → r'.correctnessOkVsOriginal = "True") := by
  obtain ⟨report, hreport, hr⟩ := h.mem_rows.mp hr
  obtain ⟨report', hreport', hr'⟩ := h.mem_rows.mp hr'
  -- both rows are of one report
  rw [Report.benchmark_of_mem hr, Report.benchmark_of_mem hr'] at hsame
  obtain rfl := h.report_unique hreport' hreport hsame
  have hcorrect : stageACorrect report'.stageA = true := by
    cases (h.ok report' hreport').gated with
    | inl hnil => exact absurd hgem5 (not_hasGem5_of_nil hnil hr)
    | inr hcorrect => exact hcorrect
  obtain ⟨cfg', hcfg', hrow⟩ := Report.mem_rows.mp hr'
  have hkey : cfg'.key = cfg.key := by
    rw [← hconfig, hrow]
    rfl
  have hconfigs : (CONFIGS.map Config.key).Nodup := by decide
  obtain rfl := List.inj_on_of_nodup_map hconfigs hcfg' hcfg hkey
  exact gating_row hcorrect hcfg hgates hrow

/-- **What `results.csv` says.** After any sequence of invocations, fresh or resumed, on any benchmarks,
with any failures, any of them killed, unless a kill has fallen inside a rewriting of the file since a
fresh run last started it: no two rows have the same benchmark and configuration; each row is of a
benchmark and a configuration of the manifest, and its benchmark has a row for every configuration; and
where a row has a gem5 number, no gating configuration of its benchmark has an error, and all of them
match the baseline. -/
theorem reached_results (h : Reached st) (hcut : st.cutCsv = false) (hcsv : st.root.csv = some rows) :
    (rows.map rowKey).Nodup ∧
    (∀ r ∈ rows, ∃ bench ∈ BENCHMARKS, ∃ cfg ∈ CONFIGS,
      r.benchmark = bench.name ∧ r.category = bench.category ∧ r.config = cfg.key ∧
        ∀ cfg' ∈ CONFIGS, ∃ r' ∈ rows, r'.benchmark = bench.name ∧ r'.config = cfg'.key) ∧
    ∀ r ∈ rows, r.HasGem5 → ∀ r' ∈ rows, r'.benchmark = r.benchmark →
      ∀ cfg ∈ CONFIGS, cfg.gatesCorrectness = true → r'.config = cfg.key →
        r'.error = "" ∧ (cfg.key ≠ "original" → r'.correctnessOkVsOriginal = "True") := by
  obtain ⟨reports, htable⟩ := h.tabled hcut rows hcsv
  refine ⟨htable.nodup_keys, ?_, ?_⟩
  · intro r hr
    obtain ⟨report, hreport, hr⟩ := htable.mem_rows.mp hr
    obtain ⟨cfg, hcfg, rfl⟩ := Report.mem_rows.mp hr
    refine ⟨report.bench, (htable.ok report hreport).known, cfg, hcfg, rfl, rfl, rfl, ?_⟩
    intro cfg' hcfg'
    exact ⟨_, htable.mem_rows.mpr ⟨report, hreport, Report.mem_rows.mpr ⟨cfg', hcfg', rfl⟩⟩, rfl, rfl⟩
  · intro r hr hgem5 r' hr' hsame cfg hcfg hgates hconfig
    exact htable.gated hr hgem5 hr' hsame hcfg hgates hconfig

/-- Killed in Stage A, and resumed to the end. -/
theorem sha_results : ∃ st rows,
    runSuiteCut ⟨["sha"], false, true⟩ identicalOutcomes
      (.whole (OutRoot.empty.link "sha" fun key => key == "original")) = .ok st ∧
    Reached st ∧ st.cutCsv = false ∧ st.root.csv = some rows ∧
    (rows.map rowKey).Nodup ∧
    (∀ r ∈ rows, ∃ bench ∈ BENCHMARKS, ∃ cfg ∈ CONFIGS,
      r.benchmark = bench.name ∧ r.category = bench.category ∧ r.config = cfg.key ∧
        ∀ cfg' ∈ CONFIGS, ∃ r' ∈ rows, r'.benchmark = bench.name ∧ r'.config = cfg'.key) ∧
    ∀ r ∈ rows, r.HasGem5 → ∀ r' ∈ rows, r'.benchmark = r.benchmark →
      ∀ cfg ∈ CONFIGS, cfg.gatesCorrectness = true → r'.config = cfg.key →
        r'.error = "" ∧ (cfg.key ≠ "original" → r'.correctnessOkVsOriginal = "True") := by
  have hsplit : selectedBenchmarks ["sha"] = [] ++ ⟨"sha", "security"⟩ :: [] := by decide
  have hkilled : KilledAt ⟨["sha"], false, false⟩ identicalOutcomes ⟨"sha", "security"⟩
      (.whole .empty) (.whole (OutRoot.empty.link "sha" fun key => key == "original")) :=
    .inStageA rfl (fun key => key == "original") fun _ _ => rfl
  have hfirst : Reached (.whole (OutRoot.empty.link "sha" fun key => key == "original")) :=
    .run ⟨⟨["sha"], false, false⟩, identicalOutcomes⟩ .start (.atBench hsplit rfl hkilled)
  obtain ⟨st, hends, hcut, rows, hcsv⟩ : ∃ st, runSuiteCut ⟨["sha"], false, true⟩ identicalOutcomes
      (.whole (OutRoot.empty.link "sha" fun key => key == "original")) = .ok st ∧
        st.cutCsv = false ∧ ∃ rows, st.root.csv = some rows := ⟨_, rfl, rfl, _, rfl⟩
  have hreached : Reached st :=
    .run ⟨⟨["sha"], false, true⟩, identicalOutcomes⟩ hfirst (.atEnd hends)
  exact ⟨st, rows, hends, hreached, hcut, hcsv, reached_results hreached hcut hcsv⟩

end TraceScheduler.Scripts
