import TraceScheduler.Library.Csv
import TraceScheduler.Scripts.ResultsTable

/-!
# The text of the results file

The rows of `results.csv` are a text to the scripts.  The suite writes it with `csv.DictWriter`; the gate
opens it with `newline=""` and the suite, when it resumes, without, so that carriage returns in an error
message come back as line feeds.  `results_roundTrip` says what either of them reads.

`runText` is an invocation on the text.  It goes through the same files and leaves the same rows as the
invocation on rows, up to these line ends, and the gate comes to the same verdict on either
(`textAfter_refines`).
-/

namespace TraceScheduler.Scripts

/-! ### Rows and columns -/

def csvFieldnames : List String :=
  ["benchmark", "category", "config", "error", "mca_instructions", "mca_total_cycles",
    "mca_total_uops", "mca_ipc", "mca_block_rthroughput", "spill_count", "gem5_num_insts",
    "gem5_num_cycles", "gem5_ipc", "gem5_sim_seconds", "trace_count", "edges_above_threshold",
    "edges_below_threshold", "backedges_skipped", "hoist_candidates", "hoist_done",
    "blocked_dominance", "blocked_loop", "blocked_operand", "blocked_unsafe_speculation",
    "blocked_pressure", "peak_live_pressure", "exit_code", "correctness_ok_vs_original"]

/-- The values of a row in the order of the columns. -/
def Row.values {α : Type} (r : Row α) : List α :=
  [r.benchmark, r.category, r.config, r.error, r.mcaInstructions, r.mcaTotalCycles, r.mcaTotalUops,
    r.mcaIpc, r.mcaBlockRthroughput, r.spillCount, r.gem5NumInsts, r.gem5NumCycles, r.gem5Ipc,
    r.gem5SimSeconds, r.traceCount, r.edgesAboveThreshold, r.edgesBelowThreshold,
    r.backedgesSkipped, r.hoistCandidates, r.hoistDone, r.blockedDominance, r.blockedLoop,
    r.blockedOperand, r.blockedUnsafeSpeculation, r.blockedPressure, r.peakLivePressure, r.exitCode,
    r.correctnessOkVsOriginal]

/-- A row of `csv.DictReader`, column by column; a column that is missing is written as an empty one. -/
def Row.ofDict (d : List (String × String)) : Row String :=
  let column := fun name => (d.lookup name).getD ""
  { benchmark := column "benchmark"
    category := column "category"
    config := column "config"
    error := column "error"
    mcaInstructions := column "mca_instructions"
    mcaTotalCycles := column "mca_total_cycles"
    mcaTotalUops := column "mca_total_uops"
    mcaIpc := column "mca_ipc"
    mcaBlockRthroughput := column "mca_block_rthroughput"
    spillCount := column "spill_count"
    gem5NumInsts := column "gem5_num_insts"
    gem5NumCycles := column "gem5_num_cycles"
    gem5Ipc := column "gem5_ipc"
    gem5SimSeconds := column "gem5_sim_seconds"
    traceCount := column "trace_count"
    edgesAboveThreshold := column "edges_above_threshold"
    edgesBelowThreshold := column "edges_below_threshold"
    backedgesSkipped := column "backedges_skipped"
    hoistCandidates := column "hoist_candidates"
    hoistDone := column "hoist_done"
    blockedDominance := column "blocked_dominance"
    blockedLoop := column "blocked_loop"
    blockedOperand := column "blocked_operand"
    blockedUnsafeSpeculation := column "blocked_unsafe_speculation"
    blockedPressure := column "blocked_pressure"
    peakLivePressure := column "peak_live_pressure"
    exitCode := column "exit_code"
    correctnessOkVsOriginal := column "correctness_ok_vs_original" }

/-- The records of rows, after the one of the names. -/
def recordsOf (rows : List (Row String)) : List Csv.Record :=
  csvFieldnames.map String.toList :: rows.map fun r => r.values.map String.toList

/-- `writeheader` and `writerows`. -/
def resultsText (rows : List (Row String)) : List Char := Csv.writeRows ['\r', '\n'] (recordsOf rows)

/-- The rows of `csv.DictReader`: the first record names the columns, empty ones are left out. -/
def dictRows : List Csv.Record → List (Row String)
  | [] => []
  | header :: records => (records.filter fun record => !record.isEmpty).map fun record =>
      Row.ofDict ((header.map String.ofList).zip (record.map String.ofList))

/-- The field size limit of the `csv` module. -/
def fieldSizeLimit : ℕ := 131072

/-- What the gate reads, with `newline=""`. -/
def readResults (text : List Char) : Option (List (Row String)) :=
  (Csv.readText fieldSizeLimit text).map dictRows

/-- What the suite reads. -/
def loadResults (text : List Char) : Option (List (Row String)) :=
  (Csv.readTranslated fieldSizeLimit text).map dictRows

/-! ### What is read -/

/-- A field with its line ends translated. -/
def translateField (s : String) : String := String.ofList (Csv.translate s.toList)

/-- All fields are short enough to be read. -/
def Row.Fits (r : Row String) : Prop := ∀ v ∈ r.values, v.length ≤ fieldSizeLimit

instance (r : Row String) : Decidable r.Fits :=
  inferInstanceAs (Decidable (∀ v ∈ r.values, v.length ≤ fieldSizeLimit))

variable {r r' row : Row String} {rows rows' new : List (Row String)}

theorem Row.ofDict_values (r : Row String) : Row.ofDict (csvFieldnames.zip r.values) = r := rfl

theorem Row.values_map {α β : Type} (f : α → β) (r : Row α) : (r.map f).values = r.values.map f := rfl

theorem map_ofList_toList (l : List String) : (l.map String.toList).map String.ofList = l := by
  rw [List.map_map]
  exact List.map_id'' (fun s => String.ofList_toList) l

theorem dictRows_recordsOf (rows : List (Row String)) : dictRows (recordsOf rows) = rows := by
  have hfilter : ((rows.map fun r => r.values.map String.toList).filter fun record =>
      !record.isEmpty) = rows.map fun r => r.values.map String.toList := by
    apply List.filter_eq_self.mpr
    intro record hrecord
    obtain ⟨r, _, rfl⟩ := List.mem_map.mp hrecord
    rfl
  rw [recordsOf, dictRows, hfilter, List.map_map]
  conv_rhs => rw [← List.map_id rows]
  apply List.map_congr_left
  intro r _
  simp only [Function.comp_apply, map_ofList_toList, Row.ofDict_values, id_eq]

theorem fits_recordsOf : Csv.Fits fieldSizeLimit (recordsOf rows) ↔ ∀ r ∈ rows, r.Fits := by
  have hheader : ∀ field ∈ csvFieldnames.map String.toList, field.length ≤ fieldSizeLimit := by decide
  rw [recordsOf, Csv.fits_cons, and_iff_right hheader, Csv.Fits, List.forall_mem_map]
  simp only [List.forall_mem_map, String.length_toList, Row.Fits]

theorem translate_recordsOf : (recordsOf rows).map (List.map Csv.translate) =
    recordsOf (rows.map (Row.map translateField)) := by
  have hheader : (csvFieldnames.map String.toList).map Csv.translate =
      csvFieldnames.map String.toList := by decide
  rw [recordsOf, recordsOf, List.map_cons, hheader, List.map_map, List.map_map]
  congr 1
  apply List.map_congr_left
  intro r _
  simp only [Function.comp_apply, Row.values_map, List.map_map]
  apply List.map_congr_left
  intro v _
  exact String.toList_ofList.symm

/-- What is read with `newline=""`. -/
theorem readResults_resultsText (rows : List (Row String)) :
    readResults (resultsText rows) = if ∀ r ∈ rows, r.Fits then some rows else none := by
  rw [readResults, resultsText, Csv.readText_writeRows (.inl rfl)]
  by_cases hfits : ∀ r ∈ rows, r.Fits
  · rw [if_pos (fits_recordsOf.mpr hfits), if_pos hfits]
    exact congrArg some (dictRows_recordsOf rows)
  · rw [if_neg fun h => hfits (fits_recordsOf.mp h), if_neg hfits]
    rfl

/-- What is read without. -/
theorem loadResults_resultsText (rows : List (Row String)) :
    loadResults (resultsText rows) = if ∀ r ∈ rows, (r.map translateField).Fits then
      some (rows.map (Row.map translateField)) else none := by
  have hfits_iff : Csv.Fits fieldSizeLimit ((recordsOf rows).map (List.map Csv.translate)) ↔
      ∀ r ∈ rows, (r.map translateField).Fits := by
    rw [translate_recordsOf, fits_recordsOf, List.forall_mem_map]
  rw [loadResults, resultsText, Csv.readTranslated_writeRows]
  by_cases hfits : ∀ r ∈ rows, (r.map translateField).Fits
  · rw [if_pos (hfits_iff.mpr hfits), if_pos hfits, translate_recordsOf]
    exact congrArg some (dictRows_recordsOf _)
  · rw [if_neg fun h => hfits (hfits_iff.mp h), if_neg hfits]
    rfl

/-- **What the scripts read of what the suite has written.** The gate reads the rows as they were; the
suite reads them with the line ends in their fields translated; either fails on a field that is longer
than the limit, and only then. -/
theorem results_roundTrip (rows : List (Row String)) :
    (readResults (resultsText rows) = if ∀ r ∈ rows, r.Fits then some rows else none) ∧
      loadResults (resultsText rows) =
        if ∀ r ∈ rows, (r.map translateField).Fits then some (rows.map (Row.map translateField))
        else none :=
  ⟨readResults_resultsText rows, loadResults_resultsText rows⟩

/-! ### Invocations on the text -/

/-- The output root with the text of the results file. The rows of `files` are not used. -/
structure TextRoot where
  files : OutRoot
  text : Option (List Char)

/-- The suite at work: the files with the rows in memory, and the text of the results file. -/
structure TextState where
  root : OutRoot
  text : Option (List Char)

/-- The loop body of `main`. -/
def benchStepText (args : Args) (outcomes : String → BenchOutcome) (st : TextState)
    (bench : Benchmark) : TextState :=
  let o := outcomes bench.name
  let (root, done) := stageAStep args bench.name o.stageA st.root
  if done then
    let root := stageBStep args bench.name o.stageB root
    let root := writeRows (rowsFor args bench root) root
    ⟨root, some (resultsText (root.csv.getD []))⟩
  else ⟨root, st.text⟩

/-- A fresh run removes the file; a resumed one reads it, later rows over earlier ones. -/
def startText (args : Args) (root : TextRoot) : Option TextState :=
  if args.resume then
    match root.text with
    | none => some ⟨{ root.files with csv := none }, none⟩
    | some text => (loadResults text).map fun existing =>
        ⟨{ root.files with csv := some (existing.foldl upsert []) }, some text⟩
  else some ⟨{ root.files with csv := none }, none⟩

/-- One invocation on the text, `none` when the file cannot be read. -/
def Invocation.runText (inv : Invocation) (root : TextRoot) : Option TextRoot :=
  if (unknownNames inv.args.only).isEmpty then
    (startText inv.args root).map fun st =>
      let st := (selectedBenchmarks inv.args.only).foldl (benchStepText inv.args inv.outcomes) st
      ⟨st.root, st.text⟩
  else some root

/-- A sequence of invocations, from a new output root. -/
def textAfter (history : List Invocation) : Option TextRoot :=
  history.foldlM (fun root inv => inv.runText root) ⟨.empty, none⟩

/-- The gate on the text, `none` when the file cannot be read. -/
def ciGateText (path : String) (text : Option (List Char)) : Option GateResult :=
  match text with
  | none => some .noFile
  | some text => (readResults text).map fun rows => ciGate path (some rows)

/-! ### Rows up to line ends -/

/-- The same row, or the row with its line ends translated. -/
def Row.Like (r r' : Row String) : Prop := r' = r ∨ r' = r.map translateField

/-- The same rows, some of them with their line ends translated. -/
abbrev SameRows : List (Row String) → List (Row String) → Prop := List.Forall₂ Row.Like

/-- There is no carriage return in the key. -/
def Row.CleanKey (r : Row String) : Prop :=
  '\r' ∉ r.benchmark.toList ∧ '\r' ∉ r.config.toList

theorem translateField_eq_self {v : String} (h : '\r' ∉ v.toList) : translateField v = v := by
  rw [translateField, Csv.translate_eq_self h, String.ofList_toList]

theorem translateField_translateField (v : String) :
    translateField (translateField v) = translateField v := by
  rw [translateField, translateField, String.toList_ofList, Csv.translate_translate]

theorem length_translateField_le (v : String) : (translateField v).length ≤ v.length := by
  rw [translateField, String.length_ofList, ← String.length_toList]
  exact Csv.length_translate_le

/-- A field without line ends is told apart from every other one. -/
theorem translateField_eq_iff {v w : String} (hreturn : '\r' ∉ w.toList) (hfeed : '\n' ∉ w.toList) :
    translateField v = w ↔ v = w := by
  rw [translateField, ← String.toList_inj, String.toList_ofList, Csv.translate_eq_iff hreturn hfeed,
    String.toList_inj]

theorem Row.Like.refl (r : Row String) : r.Like r := .inl rfl

theorem Row.Like.rowKey_eq (h : r.Like r') (hclean : r.CleanKey) : rowKey r' = rowKey r := by
  rcases h with rfl | rfl
  · rfl
  · show (translateField r.benchmark, translateField r.config) = (r.benchmark, r.config)
    rw [translateField_eq_self hclean.1, translateField_eq_self hclean.2]

theorem Row.Like.fits (h : r.Like r') (hfits : r.Fits) : r'.Fits := by
  rcases h with rfl | rfl
  · exact hfits
  · intro v hv
    rw [Row.values_map] at hv
    obtain ⟨w, hw, rfl⟩ := List.mem_map.mp hv
    exact Nat.le_trans (length_translateField_le w) (hfits w hw)

theorem Row.map_translateField_idem (r : Row String) :
    (r.map translateField).map translateField = r.map translateField := by
  simp only [Row.map, translateField_translateField]

theorem Row.Like.translate (h : r.Like r') : r.Like (r'.map translateField) := by
  rcases h with rfl | rfl
  · exact .inr rfl
  · exact .inr r.map_translateField_idem

/-! ### Rows that are merged -/

theorem SameRows.upsert (h : SameRows rows rows') (hclean : ∀ r ∈ rows, r.CleanKey)
    (row : Row String) : SameRows (upsert rows row) (upsert rows' row) := by
  rw [upsert_eq_upsertBy]
  induction h with
  | nil => exact .cons (.refl row) .nil
  | @cons r r' rows rows' hr hrows ih =>
    rw [List.forall_mem_cons] at hclean
    rw [upsertBy, upsertBy, hr.rowKey_eq hclean.1]
    split
    · exact .cons (.refl row) hrows
    · exact .cons hr (ih hclean.2)

theorem SameRows.foldl_upsert (h : SameRows rows rows') (hclean : ∀ r ∈ rows, r.CleanKey)
    (hnew : ∀ r ∈ new, r.CleanKey) : SameRows (new.foldl Scripts.upsert rows)
      (new.foldl Scripts.upsert rows') := by
  induction new generalizing rows rows' with
  | nil => exact h
  | cons row new ih =>
    rw [List.forall_mem_cons] at hnew
    refine ih (h.upsert hclean row) ?_ hnew.2
    intro r hr
    rcases mem_upsert hr with rfl | hr
    · exact hnew.1
    · exact hclean r hr

theorem SameRows.refl (rows : List (Row String)) : SameRows rows rows := by
  induction rows with
  | nil => exact .nil
  | cons r rows ih => exact .cons (.refl r) ih

theorem SameRows.map_rowKey (h : SameRows rows rows') (hclean : ∀ r ∈ rows, r.CleanKey) :
    rows'.map rowKey = rows.map rowKey := by
  induction h with
  | nil => rfl
  | cons hr _ ih =>
    rw [List.forall_mem_cons] at hclean
    rw [List.map_cons, List.map_cons, hr.rowKey_eq hclean.1, ih hclean.2]

theorem SameRows.fits (h : SameRows rows rows') (hfits : ∀ r ∈ rows, r.Fits) :
    ∀ r ∈ rows', r.Fits := by
  induction h with
  | nil => exact fun r hr => absurd hr List.not_mem_nil
  | cons hr _ ih =>
    rw [List.forall_mem_cons] at hfits ⊢
    exact ⟨hr.fits hfits.1, ih hfits.2⟩

theorem SameRows.translate (h : SameRows rows rows') :
    SameRows rows (rows'.map (Row.map translateField)) := by
  induction h with
  | nil => exact .nil
  | cons hr _ ih => exact .cons hr.translate ih

theorem cleanKey_of_report {report : Report} (hok : report.Ok) (hr : r ∈ report.rows) :
    r.CleanKey := by
  obtain ⟨cfg, hcfg, rfl⟩ := Report.mem_rows.mp hr
  have hnames : ∀ bench ∈ BENCHMARKS, '\r' ∉ bench.name.toList := by decide
  have hkeys : ∀ cfg ∈ CONFIGS, '\r' ∉ cfg.key.toList := by decide
  exact ⟨hnames report.bench hok.known, hkeys cfg hcfg⟩

theorem IsTable.cleanKey (h : IsTable rows) : ∀ r ∈ rows, r.CleanKey := by
  obtain ⟨reports, htable⟩ := h
  intro r hr
  obtain ⟨report, hreport, hr⟩ := htable.mem_rows.mp hr
  exact cleanKey_of_report (htable.ok report hreport) hr

/-- Rows with different keys make the dictionary that the suite keeps them in. -/
theorem foldl_upsert_nil (hnd : (rows.map rowKey).Nodup) : rows.foldl upsert [] = rows := by
  rw [upsert_eq_upsertBy]
  exact foldl_upsertBy_append hnd fun r hr => absurd hr List.not_mem_nil

/-! ### The files do not depend on the rows -/

variable {args : Args} {outcomes : String → BenchOutcome} {root : OutRoot} {bench : Benchmark}
  {name : String} {csv : Option (List (Row String))}

def OutRoot.withCsv (root : OutRoot) (csv : Option (List (Row String))) : OutRoot :=
  { root with csv := csv }

theorem stageAStep_withCsv (o : StageARun) : stageAStep args name o (root.withCsv csv) =
    ((stageAStep args name o root).1.withCsv csv, (stageAStep args name o root).2) := by
  have hstageA : (root.withCsv csv).stageA = root.stageA := rfl
  simp only [stageAStep, hstageA]
  split
  · rfl
  · cases o with
    | failed linked => rfl
    | wrote runs => rfl

theorem stageBStep_withCsv (o : StageBRun) : stageBStep args name o (root.withCsv csv) =
    (stageBStep args name o root).withCsv csv := by
  have hstageA : loadStageA (root.withCsv csv) name = loadStageA root name := rfl
  have hstageB : (root.withCsv csv).stageB = root.stageB := rfl
  rw [stageBStep, stageBStep, hstageA, hstageB]
  split
  · rfl
  · split
    · rfl
    · split
      · rfl
      · cases o with
        | failed => rfl
        | wrote stats => rfl

/-! ### Two levels -/

/-- The text holds the rows, some of them with their line ends translated. -/
def HoldsRows (csv : Option (List (Row String))) (text : Option (List Char)) : Prop :=
  match csv with
  | none => text = none
  | some rows => ∃ file, text = some (resultsText file) ∧ SameRows rows file

/-- The rows in memory. -/
def InMemory (csv memory : Option (List (Row String))) : Prop :=
  match csv with
  | none => memory = none
  | some rows => ∃ existing, memory = some existing ∧ SameRows rows existing

/-- The suite on rows and the suite on the text, side by side. -/
structure Tracks (root : OutRoot) (st : TextState) : Prop where
  files : st.root.withCsv none = root.withCsv none
  memory : InMemory root.csv st.root.csv
  text : HoldsRows root.csv st.text

/-- The output root with rows and the one with the text. -/
structure Refines (root : OutRoot) (troot : TextRoot) : Prop where
  files : troot.files.withCsv none = root.withCsv none
  text : HoldsRows root.csv troot.text

theorem InMemory.getD {csv memory : Option (List (Row String))} (h : InMemory csv memory) :
    SameRows (csv.getD []) (memory.getD []) := by
  cases csv with
  | none =>
    obtain rfl := h
    exact .nil
  | some rows =>
    obtain ⟨existing, rfl, hsame⟩ := h
    exact hsame

/-- **One benchmark.** -/
theorem Tracks.benchStep {st : TextState} (h : Tracks root st) (htable : root.Tabled)
    (hbench : bench ∈ BENCHMARKS) :
    Tracks (benchStep args outcomes root bench) (benchStepText args outcomes st bench) := by
  obtain ⟨root', text⟩ := st
  obtain ⟨hfiles, hmemory, htext⟩ := h
  dsimp only at hfiles hmemory htext
  obtain ⟨memory, rfl⟩ : ∃ memory, root' = root.withCsv memory := by
    have hroot' := congrArg (fun r : OutRoot => r.withCsv root'.csv) hfiles
    exact ⟨root'.csv, hroot'⟩
  simp only [Scripts.benchStep, benchStepText, stageAStep_withCsv, stageBStep_withCsv]
  split
  · set root₂ := stageBStep args bench.name (outcomes bench.name).stageB
      (stageAStep args bench.name (outcomes bench.name).stageA root).1 with hroot₂
    have hcsv : root₂.csv = root.csv := by rw [hroot₂, stageBStep_csv, stageAStep_csv]
    have hrows : rowsFor args bench (root₂.withCsv memory) = rowsFor args bench root₂ := rfl
    obtain ⟨report, hok, hreport⟩ := exists_report args root₂ hbench
    have hsame : SameRows ((rowsFor args bench root₂).foldl upsert (root₂.csv.getD []))
        ((rowsFor args bench root₂).foldl upsert (memory.getD [])) := by
      rw [hcsv, hreport]
      exact hmemory.getD.foldl_upsert htable.getD.cleanKey fun r hr => cleanKey_of_report hok hr
    rw [hrows]
    exact ⟨rfl, ⟨_, rfl, hsame⟩, ⟨_, rfl, hsame⟩⟩
  · refine ⟨rfl, ?_, ?_⟩
    · rw [stageAStep_csv]
      exact hmemory
    · rw [stageAStep_csv]
      exact htext

theorem Tracks.foldl {st : TextState} (h : Tracks root st) (htable : root.Tabled)
    {benches : List Benchmark} (hbenches : ∀ bench ∈ benches, bench ∈ BENCHMARKS) :
    Tracks (benches.foldl (Scripts.benchStep args outcomes) root)
      (benches.foldl (benchStepText args outcomes) st) := by
  induction benches generalizing root st with
  | nil => exact h
  | cons bench benches ih =>
    rw [List.forall_mem_cons] at hbenches
    exact ih (h.benchStep htable hbenches.1) (htable.benchStep hbenches.1) hbenches.2

/-- **The start.** A resumed run can read the file if all its fields are short enough. -/
theorem Refines.start {troot : TextRoot} (h : Refines root troot) (htable : root.Tabled)
    (hfits : ∀ rows, root.csv = some rows → ∀ r ∈ rows, r.Fits) :
    ∃ st, startText args troot = some st ∧ Tracks (startCsv args root) st := by
  rw [startText, startCsv]
  split
  · have htext := h.text
    cases hcsv : root.csv with
    | none =>
      rw [hcsv] at htext
      obtain htext : troot.text = none := htext
      rw [htext]
      refine ⟨_, rfl, ⟨h.files, ?_, ?_⟩⟩
      · rw [hcsv]
        rfl
      · rw [hcsv]
        rfl
    | some rows =>
      rw [hcsv] at htext
      obtain ⟨file, htext, hsame⟩ := htext
      have hread : ∀ r ∈ file, (r.map translateField).Fits := by
        have hall := hsame.translate.fits (hfits rows hcsv)
        rwa [List.forall_mem_map] at hall
      have hclean := (htable rows hcsv).cleanKey
      have hkeys : ((file.map (Row.map translateField)).map rowKey).Nodup := by
        obtain ⟨reports, htable⟩ := htable rows hcsv
        rw [hsame.translate.map_rowKey hclean]
        exact htable.nodup_keys
      rw [htext]
      dsimp only
      rw [loadResults_resultsText, if_pos hread, Option.map_some, foldl_upsert_nil hkeys]
      refine ⟨_, rfl, ⟨h.files, ?_, ?_⟩⟩
      · rw [hcsv]
        exact ⟨_, rfl, hsame.translate⟩
      · rw [hcsv]
        exact ⟨file, rfl, hsame⟩
  · exact ⟨_, rfl, ⟨h.files, rfl, rfl⟩⟩

/-- **One invocation.** -/
theorem Refines.run {troot : TextRoot} (h : Refines root troot) (htable : root.Tabled)
    (hfits : ∀ rows, root.csv = some rows → ∀ r ∈ rows, r.Fits) (inv : Invocation) :
    ∃ troot', inv.runText troot = some troot' ∧ Refines (inv.run root) troot' := by
  rw [Invocation.runText, Invocation.run, runSuite]
  split
  · obtain ⟨st, hstart, htracks⟩ : ∃ st, startText inv.args troot = some st ∧
        Tracks (startCsv inv.args root) st := h.start htable hfits
    have hend : Tracks
        ((selectedBenchmarks inv.args.only).foldl (Scripts.benchStep inv.args inv.outcomes)
          (startCsv inv.args root))
        ((selectedBenchmarks inv.args.only).foldl (benchStepText inv.args inv.outcomes) st) :=
      htracks.foldl htable.start fun bench hbench => mem_BENCHMARKS_of_selected hbench
    rw [hstart]
    exact ⟨_, rfl, ⟨hend.files, hend.text⟩⟩
  · exact ⟨troot, rfl, h⟩

/-! ### The gate -/

/-- What the gate looks at in a row. -/
theorem Row.Like.passes_iff (h : r.Like r') (hclean : r.CleanKey) :
    (r'.error = "" ∧ ¬ (r'.correctnessOkVsOriginal = "False" ∧
        GATING_KEYS.contains r'.config = true)) ↔
      (r.error = "" ∧ ¬ (r.correctnessOkVsOriginal = "False" ∧
        GATING_KEYS.contains r.config = true)) := by
  have hconfig : r'.config = r.config := congrArg Prod.snd (h.rowKey_eq hclean)
  rw [hconfig]
  rcases h with rfl | rfl
  · exact Iff.rfl
  · show (translateField r.error = "" ∧ ¬ (translateField r.correctnessOkVsOriginal = "False" ∧ _)) ↔ _
    rw [translateField_eq_iff (by decide) (by decide), translateField_eq_iff (by decide) (by decide)]

theorem SameRows.passes_iff (h : SameRows rows rows') (hclean : ∀ r ∈ rows, r.CleanKey) :
    (∀ r ∈ rows', r.error = "" ∧ ¬ (r.correctnessOkVsOriginal = "False" ∧
        GATING_KEYS.contains r.config = true)) ↔
      ∀ r ∈ rows, r.error = "" ∧ ¬ (r.correctnessOkVsOriginal = "False" ∧
        GATING_KEYS.contains r.config = true) := by
  induction h with
  | nil => exact Iff.rfl
  | cons hr _ ih =>
    rw [List.forall_mem_cons] at hclean
    rw [List.forall_mem_cons, List.forall_mem_cons, hr.passes_iff hclean.1, ih hclean.2]

/-- The gate comes to the same verdict on the text as on the rows. -/
theorem Refines.ciGate {troot : TextRoot} (h : Refines root troot) (htable : root.Tabled)
    (hfits : ∀ rows, root.csv = some rows → ∀ r ∈ rows, r.Fits) (path : String) :
    ∃ result, ciGateText path troot.text = some result ∧
      result.isSuccess = (Scripts.ciGate path root.csv).isSuccess := by
  have htext := h.text
  cases hcsv : root.csv with
  | none =>
    rw [hcsv] at htext
    obtain htext : troot.text = none := htext
    rw [htext]
    exact ⟨_, rfl, rfl⟩
  | some rows =>
    rw [hcsv] at htext
    obtain ⟨file, htext, hsame⟩ := htext
    rw [htext, ciGateText, readResults_resultsText, if_pos (hsame.fits (hfits rows hcsv))]
    refine ⟨_, rfl, ?_⟩
    have hnil : file = [] ↔ rows = [] := by
      cases hsame with
      | nil => exact Iff.rfl
      | cons _ _ => simp
    rw [Bool.eq_iff_iff, ciGate_isSuccess_iff, ciGate_isSuccess_iff, Option.getD_some,
      Option.getD_some, ne_eq, hnil, hsame.passes_iff (htable rows hcsv).cleanKey]

/-! ### Any sequence of invocations -/

theorem rootAfter_tabled (history : List Invocation) : (rootAfter history).Tabled := by
  induction history using List.reverseRecOn with
  | nil =>
    intro rows hrows
    cases hrows
  | append_singleton history inv ih =>
    rw [rootAfter, List.foldl_append]
    show (inv.run (rootAfter history)).Tabled
    rw [Invocation.run, runSuite]
    split
    · exact ih.start.foldl fun bench hbench => mem_BENCHMARKS_of_selected hbench
    · exact ih

/-- All rows of the table, after every part of the history, are short enough to be read. -/
def AlwaysFits (history : List Invocation) : Prop :=
  ∀ past, past <+: history → ∀ rows, (rootAfter past).csv = some rows → ∀ r ∈ rows, r.Fits

/-- **The rows are what the text holds.** After any sequence of invocations in which no field has grown
beyond the limit, the file could always be read, it holds the rows of the table with some of their line
ends translated, and the gate comes to the verdict it comes to on the rows. -/
theorem textAfter_refines (history : List Invocation) (hfits : AlwaysFits history) :
    ∃ troot, textAfter history = some troot ∧ Refines (rootAfter history) troot ∧
      ∀ path, ∃ result, ciGateText path troot.text = some result ∧
        result.isSuccess = (ciGate path (rootAfter history).csv).isSuccess := by
  have hrefines : ∃ troot, textAfter history = some troot ∧ Refines (rootAfter history) troot := by
    induction history using List.reverseRecOn with
    | nil => exact ⟨_, rfl, ⟨rfl, rfl⟩⟩
    | append_singleton history inv ih =>
      obtain ⟨troot, htext, hrefines⟩ := ih fun past hpast =>
        hfits past (hpast.trans (List.prefix_append history [inv]))
      obtain ⟨troot', hrun, hrefines'⟩ := hrefines.run (rootAfter_tabled history)
        (hfits history (List.prefix_append history [inv])) inv
      refine ⟨troot', ?_, ?_⟩
      · rw [textAfter, List.foldlM_append, ← textAfter, htext]
        show ((inv.runText troot).bind fun root => some root) = some troot'
        rw [hrun]
        rfl
      · rw [rootAfter, List.foldl_append]
        exact hrefines'
  obtain ⟨troot, htext, hrefines⟩ := hrefines
  exact ⟨troot, htext, hrefines, fun path => hrefines.ciGate (rootAfter_tabled history)
    (hfits history List.prefix_rfl) path⟩

theorem sha_alwaysFits : AlwaysFits [⟨⟨["sha"], false, false⟩, identicalOutcomes⟩] := by
  intro past hpast rows hcsv
  rcases List.prefix_cons_iff.mp hpast with rfl | ⟨rest, rfl, hrest⟩
  · cases hcsv
  · obtain rfl := List.prefix_nil.mp hrest
    obtain rfl := Option.some.inj hcsv
    decide +kernel

theorem sha_textAfter :
    ∃ troot, textAfter [⟨⟨["sha"], false, false⟩, identicalOutcomes⟩] = some troot ∧
      Refines (rootAfter [⟨⟨["sha"], false, false⟩, identicalOutcomes⟩]) troot ∧
      ∀ path, ∃ result, ciGateText path troot.text = some result ∧ result.isSuccess =
        (ciGate path (rootAfter [⟨⟨["sha"], false, false⟩, identicalOutcomes⟩]).csv).isSuccess :=
  textAfter_refines _ sha_alwaysFits

end TraceScheduler.Scripts
