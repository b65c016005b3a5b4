import TraceScheduler.Library.KeyedTable
import TraceScheduler.Library.Resumption
import TraceScheduler.Scripts.CutFiles
import Mathlib.Data.List.Induction
import Mathlib.Data.List.Nodup
import Mathlib.Logic.Relation

/-!
# Interrupted and resumed

`--resume` takes what an earlier run has left.  A run may be killed at any point: between two steps,
while a container is running, or inside a write.  If the containers do the same whenever they run, and
the output root had no files of the benchmarks when all began, then there are two ends
(`runSuite_resume`).  Where a kill has cut a stage file, every later resumed run ends there with an
exception.  Where none has, any number of interrupted runs and a resumed one amount to one run that is
never interrupted: a benchmark whose rows are in the file is gone through again, and its rows are written
over themselves.
-/

namespace TraceScheduler.Scripts

variable (args : Args) (only : List String) (skipGem5 : Bool) (outcomes : String → BenchOutcome)
  (root₀ : OutRoot)

/-! ### What the runs are to leave -/

def OutRoot.hasBinary (root : OutRoot) (name key : String) : Bool := (root.binaries name key).isSome

/-- The binaries once Stage A has run. -/
def binariesAfter (name key : String) : Bool :=
  (outcomes name).stageA.links key || root₀.hasBinary name key

def expectedA (name : String) : Option StageA :=
  match (outcomes name).stageA with
  | .failed _ => none
  | .wrote runs => some (runOne runs)

def expectedB (name : String) : Option StageB :=
  match expectedA outcomes name with
  | none => none
  | some stageA =>
      if !skipGem5 && stageACorrect stageA then
        match (outcomes name).stageB with
        | .failed => none
        | .wrote stats => some (simulateAll (binariesAfter outcomes root₀ name) stats)
      else none

/-- The rows of a benchmark, none if its Stage A fails. -/
def expectedRows (bench : Benchmark) : Option (List (Row String)) :=
  (expectedA outcomes bench.name).map fun stageA =>
    (buildCsvRows bench.name bench.category stageA
      ((expectedB skipGem5 outcomes root₀ bench.name).getD [])).map (Row.map Scalar.text)

def addRows (csv : Option (List (Row String))) (bench : Benchmark) : Option (List (Row String)) :=
  match expectedRows skipGem5 outcomes root₀ bench with
  | none => csv
  | some rows => some (rows.foldl upsert (csv.getD []))

def expectedCsv (benches : List Benchmark) : Option (List (Row String)) :=
  benches.foldl (addRows skipGem5 outcomes root₀) none

/-- The files of a benchmark, as far as they are there, are those that the runs are to leave. -/
structure Agrees (name : String) (root : OutRoot) : Prop where
  stageA : ∀ file, root.stageA name = some file → expectedA outcomes name = some file.results ∧
    ∀ key, root.hasBinary name key = binariesAfter outcomes root₀ name key
  stageB : ∀ file, root.stageB name = some file →
    expectedB skipGem5 outcomes root₀ name = some file.results ∧ (root.stageA name).isSome
  kept : ∀ key, root₀.hasBinary name key = true → root.hasBinary name key = true
  linked : ∀ key, root.hasBinary name key = true → binariesAfter outcomes root₀ name key = true

/-- All the files are there. -/
structure Complete (name : String) (root : OutRoot) : Prop extends
    Agrees skipGem5 outcomes root₀ name root where
  completeA : (root.stageA name).map StageAFile.results = expectedA outcomes name
  completeB : (root.stageB name).map StageBFile.results = expectedB skipGem5 outcomes root₀ name

/-- The first `n` benchmarks are settled. Nothing is said of the rows of a table that is cut. -/
structure Settled (cutCsv : Bool) (n : ℕ) (root : OutRoot) : Prop where
  csv : cutCsv = false →
    root.csv = expectedCsv skipGem5 outcomes root₀ ((selectedBenchmarks only).take n)
  agrees : ∀ bench ∈ selectedBenchmarks only, Agrees skipGem5 outcomes root₀ bench.name root
  complete : ∀ bench ∈ (selectedBenchmarks only).take n,
    Complete skipGem5 outcomes root₀ bench.name root

variable {args only skipGem5 outcomes root₀} {root root' : OutRoot} {st st' : CutRoot}
  {name name' key : String} {bench : Benchmark} {benches done rest : List Benchmark} {n : ℕ}
  {cutCsv : Bool}

/-- Stage A is skipped, or run. -/
theorem stageAStep_cases (args : Args) (name : String) (o : StageARun) (root : OutRoot) :
    (args.resume = true ∧ (root.stageA name).isSome = true ∧
        stageAStep args name o root = (root, true)) ∨
      (¬ (args.resume = true ∧ (root.stageA name).isSome = true) ∧
        stageAStep args name o root = (runStageA name o root,
          match o with
          | .failed _ => false
          | .wrote _ => true)) := by
  by_cases h : args.resume = true ∧ (root.stageA name).isSome = true
  · exact .inl ⟨h.1, h.2, if_pos (by simp [h.1, h.2])⟩
  · exact .inr ⟨h, if_neg (by rw [Bool.and_eq_true]; exact h)⟩

/-! ### Other benchmarks -/

/-- The files of a benchmark are the same. -/
structure SameFiles (name : String) (root root' : OutRoot) : Prop where
  stageA : root'.stageA name = root.stageA name
  stageB : root'.stageB name = root.stageB name
  binaries : root'.binaries name = root.binaries name

theorem SameFiles.refl (name : String) (root : OutRoot) : SameFiles name root root := ⟨rfl, rfl, rfl⟩

theorem SameFiles.trans {root'' : OutRoot} (h : SameFiles name root root')
    (h' : SameFiles name root' root'') : SameFiles name root root'' :=
  ⟨h'.stageA.trans h.stageA, h'.stageB.trans h.stageB, h'.binaries.trans h.binaries⟩

theorem sameFiles_link (hne : name' ≠ name) (linked : String → Bool) :
    SameFiles name' root (root.link name linked) :=
  ⟨rfl, rfl, by rw [OutRoot.link]; exact Function.update_of_ne hne _ _⟩

theorem sameFiles_stageAStep (hne : name' ≠ name) (o : StageARun) :
    SameFiles name' root (stageAStep args name o root).1 := by
  rcases stageAStep_cases args name o root with ⟨_, _, h⟩ | ⟨_, h⟩
  · rw [h]
    exact .refl name' root
  · rw [h]
    cases o with
    | failed linked => exact sameFiles_link hne linked
    | wrote runs =>
      have hlink : SameFiles name' root (root.link name fun key => (runs key).linked) :=
        sameFiles_link hne _
      exact ⟨Function.update_of_ne hne _ _, hlink.stageB, hlink.binaries⟩

theorem sameFiles_stageBStep (hne : name' ≠ name) (o : StageBRun) :
    SameFiles name' root (stageBStep args name o root) := by
  rcases stageBStep_cases args name o root with h | h
  · rw [h]
    exact .refl name' root
  · rw [h]
    cases o with
    | failed => exact ⟨rfl, rfl, rfl⟩
    | wrote stats => exact ⟨rfl, Function.update_of_ne hne _ _, rfl⟩

theorem sameFiles_benchStep (hne : name' ≠ bench.name) :
    SameFiles name' root (benchStep args outcomes root bench) := by
  have hA : SameFiles name' root (stageAStep args bench.name (outcomes bench.name).stageA root).1 :=
    sameFiles_stageAStep hne _
  rw [benchStep]
  dsimp only
  split
  · have hB : SameFiles name' (stageAStep args bench.name (outcomes bench.name).stageA root).1
        (stageBStep args bench.name (outcomes bench.name).stageB
          (stageAStep args bench.name (outcomes bench.name).stageA root).1) :=
      sameFiles_stageBStep hne _
    have hboth := hA.trans hB
    exact ⟨hboth.stageA, hboth.stageB, hboth.binaries⟩
  · exact hA

theorem Agrees.of_sameFiles (h : Agrees skipGem5 outcomes root₀ name root)
    (hsame : SameFiles name root root') : Agrees skipGem5 outcomes root₀ name root' := by
  have hbin : ∀ key, root'.hasBinary name key = root.hasBinary name key := by
    intro key
    rw [OutRoot.hasBinary, hsame.binaries, OutRoot.hasBinary]
  constructor
  · intro file hfile
    rw [hsame.stageA] at hfile
    obtain ⟨hresults, hbinaries⟩ := h.stageA file hfile
    exact ⟨hresults, fun key => (hbin key).trans (hbinaries key)⟩
  · intro file hfile
    rw [hsame.stageB] at hfile
    rw [hsame.stageA]
    exact h.stageB file hfile
  · intro key hkey
    rw [hbin]
    exact h.kept key hkey
  · intro key hkey
    rw [hbin] at hkey
    exact h.linked key hkey

theorem Complete.of_sameFiles (h : Complete skipGem5 outcomes root₀ name root)
    (hsame : SameFiles name root root') : Complete skipGem5 outcomes root₀ name root' where
  toAgrees := h.toAgrees.of_sameFiles hsame
  completeA := by rw [hsame.stageA]; exact h.completeA
  completeB := by rw [hsame.stageB]; exact h.completeB

/-! ### Stage A -/

theorem hasBinary_link (linked : String → Bool) :
    (root.link name linked).hasBinary name key = (linked key || root.hasBinary name key) := by
  rw [OutRoot.hasBinary, OutRoot.link]
  dsimp only
  rw [Function.update_self]
  cases linked key with
  | true => rfl
  | false => rfl

/-- Linking some of the binaries that Stage A links. -/
theorem Agrees.link (h : Agrees args.skipGem5 outcomes root₀ name root) (hnone : root.stageA name = none)
    {linked : String → Bool}
    (hlinked : ∀ key, linked key = true → (outcomes name).stageA.links key = true) :
    Agrees args.skipGem5 outcomes root₀ name (root.link name linked) := by
  constructor
  · intro file hfile
    exact absurd (hnone.symm.trans hfile) (by simp)
  · exact h.stageB
  · intro key hkey
    rw [hasBinary_link, h.kept key hkey, Bool.or_true]
  · intro key hkey
    rw [hasBinary_link, Bool.or_eq_true] at hkey
    rcases hkey with hkey | hkey
    · rw [binariesAfter, hlinked key hkey, Bool.true_or]
    · exact h.linked key hkey

/-- **Stage A of a resumed run** leaves what is expected, whether it is run or not. -/
theorem Agrees.stageAStep (h : Agrees args.skipGem5 outcomes root₀ name root)
    (hresume : args.resume = true) :
    Agrees args.skipGem5 outcomes root₀ name
        (Scripts.stageAStep args name (outcomes name).stageA root).1 ∧
      ((Scripts.stageAStep args name (outcomes name).stageA root).1.stageA name).map
        StageAFile.results = expectedA outcomes name ∧
      (Scripts.stageAStep args name (outcomes name).stageA root).2 =
        (expectedA outcomes name).isSome := by
  rcases stageAStep_cases args name (outcomes name).stageA root with ⟨_, hsome, heq⟩ | ⟨hrun, heq⟩
  · rw [heq]
    obtain ⟨file, hfile⟩ := Option.isSome_iff_exists.mp hsome
    obtain ⟨hresults, _⟩ := h.stageA file hfile
    rw [hfile, hresults]
    exact ⟨h, rfl, rfl⟩
  · rw [heq]
    have hnone : root.stageA name = none := by
      rw [← Option.not_isSome_iff_eq_none]
      exact fun hsome => hrun ⟨hresume, hsome⟩
    cases ho : (outcomes name).stageA with
    | failed linked =>
      refine ⟨h.link hnone fun key hkey => by rw [ho]; exact hkey, ?_, ?_⟩
      · rw [expectedA, ho]
        show (root.stageA name).map _ = none
        rw [hnone]
        rfl
      · rw [expectedA, ho]
        rfl
    | wrote runs =>
      have hlink := h.link hnone (fun key hkey => by rw [ho]; exact hkey :
        ∀ key, (runs key).linked = true → (outcomes name).stageA.links key = true)
      have hexpected : expectedA outcomes name = some (runOne runs) := by rw [expectedA, ho]
      refine ⟨⟨?_, ?_, hlink.kept, hlink.linked⟩, ?_, ?_⟩
      · intro file hfile
        change Function.update root.stageA name (some ⟨root.clock, runOne runs⟩) name = some file
          at hfile
        rw [Function.update_self] at hfile
        obtain rfl := Option.some.inj hfile
        refine ⟨hexpected, fun key => ?_⟩
        rw [Bool.eq_iff_iff]
        refine ⟨hlink.linked key, fun hkey => ?_⟩
        rw [binariesAfter, Bool.or_eq_true] at hkey
        rcases hkey with hkey | hkey
        · rw [ho] at hkey
          show (root.link name _).hasBinary name key = true
          rw [hasBinary_link, Bool.or_eq_true]
          exact .inl hkey
        · exact hlink.kept key hkey
      · intro file hfile
        obtain ⟨_, hsome⟩ := h.stageB file hfile
        rw [hnone] at hsome
        cases hsome
      · show (Function.update root.stageA name _ name).map _ = _
        rw [Function.update_self, hexpected]
        rfl
      · rw [hexpected]
        rfl

/-! ### Stage B -/

/-- **Stage B of a resumed run**, after Stage A. -/
theorem Agrees.stageBStep (h : Agrees args.skipGem5 outcomes root₀ name root)
    (hresume : args.resume = true)
    (hA : (root.stageA name).map StageAFile.results = expectedA outcomes name)
    (hsome : (expectedA outcomes name).isSome = true) :
    Complete args.skipGem5 outcomes root₀ name
      (Scripts.stageBStep args name (outcomes name).stageB root) := by
  obtain ⟨results, hresults⟩ := Option.isSome_iff_exists.mp hsome
  rw [hresults] at hA
  obtain ⟨fileA, hfileA, rfl⟩ := Option.map_eq_some_iff.mp hA
  have hload : loadStageA root name = fileA.results := by rw [loadStageA, hfileA]
  -- what is there already is what is expected
  have hthere : expectedB args.skipGem5 outcomes root₀ name = none ∨ root.stageB name ≠ none →
      Complete args.skipGem5 outcomes root₀ name root := by
    intro hcase
    refine ⟨h, by rw [hfileA, hresults]; rfl, ?_⟩
    cases hfileB : root.stageB name with
    | none =>
      rcases hcase with hnone | hnot
      · rw [hnone]
        rfl
      · exact absurd hfileB hnot
    | some fileB => exact (h.stageB fileB hfileB).1.symm
  have hexpected : expectedB args.skipGem5 outcomes root₀ name =
      if !args.skipGem5 && stageACorrect fileA.results then
        match (outcomes name).stageB with
        | .failed => none
        | .wrote stats => some (simulateAll (binariesAfter outcomes root₀ name) stats)
      else none := by
    rw [expectedB, hresults]
  rw [Scripts.stageBStep, hload]
  split
  · rename_i hskip
    exact hthere (.inl (hexpected.trans (if_neg (by simp [hskip]))))
  · rename_i hskip
    split
    · rename_i hincorrect
      exact hthere (.inl (hexpected.trans (if_neg (by simpa using fun _ => hincorrect))))
    · rename_i hcorrect
      have hasked : (!args.skipGem5 && stageACorrect fileA.results) = true := by
        simpa using ⟨by simpa using hskip, by simpa using hcorrect⟩
      rw [if_pos hasked] at hexpected
      split
      · rename_i hfound
        rw [hresume, Bool.true_and] at hfound
        exact hthere (.inr (Option.isSome_iff_ne_none.mp hfound))
      · rename_i hmissing
        have hnone : root.stageB name = none := by simpa [hresume] using hmissing
        cases ho : (outcomes name).stageB with
        | failed =>
          rw [ho] at hexpected
          have hcomplete := hthere (.inl hexpected)
          exact hcomplete.of_sameFiles ⟨rfl, rfl, rfl⟩
        | wrote stats =>
          rw [ho] at hexpected
          have hbinaries : (fun key => (root.binaries name key).isSome) =
              binariesAfter outcomes root₀ name :=
            funext (h.stageA fileA hfileA).2
          refine ⟨⟨h.stageA, ?_, h.kept, h.linked⟩, by
            show (root.stageA name).map _ = _; rw [hfileA, hresults]; rfl, ?_⟩
          · intro fileB hfileB
            change Function.update root.stageB name _ name = some fileB at hfileB
            rw [Function.update_self] at hfileB
            obtain rfl := Option.some.inj hfileB
            refine ⟨?_, by show (root.stageA name).isSome = true; rw [hfileA]; rfl⟩
            rw [hexpected, ← hbinaries]
          · show (Function.update root.stageB name _ name).map _ = _
            rw [Function.update_self, hexpected, ← hbinaries]
            rfl

/-! ### Rows -/

/-- The key of the rows in memory. -/
def rowKey (r : Row String) : String × String := (r.benchmark, r.config)

theorem upsert_eq_upsertBy : upsert = upsertBy rowKey := by
  funext rows row
  induction rows with
  | nil => rfl
  | cons r rest ih =>
    rw [upsert, upsertBy, ih]
    simp only [rowKey, Prod.mk.injEq]

theorem Complete.rowsFor_eq (h : Complete args.skipGem5 outcomes root₀ bench.name root)
    (hsome : (expectedA outcomes bench.name).isSome = true) :
    expectedRows args.skipGem5 outcomes root₀ bench = some (rowsFor args bench root) := by
  obtain ⟨results, hresults⟩ := Option.isSome_iff_exists.mp hsome
  have hA := h.completeA
  rw [hresults] at hA
  obtain ⟨fileA, hfileA, rfl⟩ := Option.map_eq_some_iff.mp hA
  have hload : loadStageA root bench.name = fileA.results := by rw [loadStageA, hfileA]
  have hloadB : loadStageB root bench.name =
      (expectedB args.skipGem5 outcomes root₀ bench.name).getD [] := by
    rw [← h.completeB, loadStageB]
    cases root.stageB bench.name with
    | none => rfl
    | some fileB => rfl
  rw [expectedRows, hresults, rowsFor, hload, hloadB]
  dsimp only [Option.map_some]
  split
  · rfl
  · rename_i hnot
    have hnone : expectedB args.skipGem5 outcomes root₀ bench.name = none := by
      rw [expectedB, hresults]
      exact if_neg hnot
    rw [hnone]
    rfl

theorem expectedRows_keys {rows : List (Row String)}
    (h : expectedRows skipGem5 outcomes root₀ bench = some rows) :
    rows.map rowKey = CONFIGS.map fun cfg => (bench.name, cfg.key) := by
  obtain ⟨stageA, _, rfl⟩ := Option.map_eq_some_iff.mp h
  rw [buildCsvRows, List.map_map, List.map_map]
  rfl

theorem configKeys_nodup (name : String) : (CONFIGS.map fun cfg => (name, cfg.key)).Nodup := by
  have hconfigs : (CONFIGS.map Config.key).Nodup := by decide
  have hinj : Function.Injective (Prod.mk name : String → String × String) :=
    fun _ _ heq => (Prod.mk.inj heq).2
  have hpaired := hconfigs.map hinj
  rw [List.map_map] at hpaired
  exact hpaired

/-- The rows of every benchmark are found in the file, whatever it has held before. -/
theorem findKey_foldl_addRows {csv : Option (List (Row String))}
    (hnd : (benches.map Benchmark.name).Nodup) (hbench : bench ∈ benches) {rows : List (Row String)}
    (hrows : expectedRows skipGem5 outcomes root₀ bench = some rows) {r : Row String} (hr : r ∈ rows) :
    findKey rowKey ((benches.foldl (addRows skipGem5 outcomes root₀) csv).getD []) (rowKey r) =
      some r := by
  induction benches using List.reverseRecOn with
  | nil => cases hbench
  | append_singleton benches last ih =>
    rw [List.map_append, List.nodup_append] at hnd
    rw [List.foldl_append]
    show findKey rowKey ((addRows skipGem5 outcomes root₀
      (benches.foldl (addRows skipGem5 outcomes root₀) csv) last).getD []) (rowKey r) = some r
    rw [addRows]
    rcases List.mem_append.mp hbench with hbench | hbench
    · have hold := ih hnd.1 hbench
      cases hlast : expectedRows skipGem5 outcomes root₀ last with
      | none => exact hold
      | some new =>
        have hother : ∀ x ∈ new, rowKey x ≠ rowKey r := by
          intro x hx heq
          have hxkey := expectedRows_keys hlast ▸ List.mem_map_of_mem (f := rowKey) hx
          have hrkey := expectedRows_keys hrows ▸ List.mem_map_of_mem (f := rowKey) hr
          obtain ⟨_, _, hxname⟩ := List.mem_map.mp hxkey
          obtain ⟨_, _, hrname⟩ := List.mem_map.mp hrkey
          have hname : last.name = bench.name :=
            congrArg Prod.fst (hxname.trans (heq.trans hrname.symm))
          exact hnd.2.2 bench.name (List.mem_map_of_mem hbench) last.name (by simp) hname.symm
        rw [upsert_eq_upsertBy]
        exact (findKey_foldl_of_notMem hother).trans hold
    · obtain rfl := List.mem_singleton.mp hbench
      rw [hrows]
      have hkeys : (rows.map rowKey).Nodup := by
        rw [expectedRows_keys hrows]
        exact configKeys_nodup bench.name
      rw [upsert_eq_upsertBy]
      exact findKey_foldl_of_mem hkeys hr

/-- A benchmark whose rows are there is added again. -/
theorem addRows_again (hnd : (benches.map Benchmark.name).Nodup)
    (hbench : bench ∈ benches) :
    addRows skipGem5 outcomes root₀ (expectedCsv skipGem5 outcomes root₀ benches) bench =
      expectedCsv skipGem5 outcomes root₀ benches := by
  rw [addRows]
  cases hrows : expectedRows skipGem5 outcomes root₀ bench with
  | none => rfl
  | some rows =>
    have hfound : ∀ r ∈ rows, findKey rowKey
        ((expectedCsv skipGem5 outcomes root₀ benches).getD []) (rowKey r) = some r :=
      fun r hr => findKey_foldl_addRows hnd hbench hrows hr
    dsimp only
    rw [upsert_eq_upsertBy, foldl_upsertBy_eq_self hfound]
    cases hcsv : expectedCsv skipGem5 outcomes root₀ benches with
    | some csv => rfl
    | none =>
      -- there is a row to be found
      have hkeys := expectedRows_keys hrows
      cases rows with
      | nil => simp [CONFIGS] at hkeys
      | cons r rows =>
        have := hfound r List.mem_cons_self
        rw [hcsv] at this
        cases this

/-- A row of the file is one of the rows of a benchmark. -/
theorem mem_expectedCsv {r : Row String}
    (h : r ∈ (expectedCsv skipGem5 outcomes root₀ benches).getD []) :
    ∃ bench ∈ benches, ∃ rows, expectedRows skipGem5 outcomes root₀ bench = some rows ∧ r ∈ rows := by
  induction benches using List.reverseRecOn with
  | nil => cases h
  | append_singleton benches last ih =>
    have hbefore : r ∈ (expectedCsv skipGem5 outcomes root₀ benches).getD [] →
        ∃ bench ∈ benches ++ [last], ∃ rows,
          expectedRows skipGem5 outcomes root₀ bench = some rows ∧ r ∈ rows := by
      intro hr
      obtain ⟨bench, hbench, hrows⟩ := ih hr
      exact ⟨bench, List.mem_append_left _ hbench, hrows⟩
    rw [expectedCsv, List.foldl_append] at h
    change r ∈ (addRows skipGem5 outcomes root₀ (expectedCsv skipGem5 outcomes root₀ benches)
      last).getD [] at h
    rw [addRows] at h
    cases hlast : expectedRows skipGem5 outcomes root₀ last with
    | none =>
      rw [hlast] at h
      exact hbefore h
    | some rows =>
      rw [hlast, upsert_eq_upsertBy] at h
      rcases mem_of_mem_foldl_upsertBy h with hr | hr
      · exact ⟨last, by simp, rows, hlast, hr⟩
      · exact hbefore hr

/-! ### One benchmark -/

theorem stageAStep_csv (o : StageARun) : (stageAStep args name o root).1.csv = root.csv := by
  rcases stageAStep_cases args name o root with ⟨_, _, h⟩ | ⟨_, h⟩
  · rw [h]
  · rw [h]
    cases o with
    | failed linked => rfl
    | wrote runs => rfl

theorem stageAStep_stageB (o : StageARun) : (stageAStep args name o root).1.stageB = root.stageB := by
  rcases stageAStep_cases args name o root with ⟨_, _, h⟩ | ⟨_, h⟩
  · rw [h]
  · rw [h]
    cases o with
    | failed linked => rfl
    | wrote runs => rfl

/-- **One benchmark of a resumed run.** -/
theorem Agrees.benchStep (h : Agrees args.skipGem5 outcomes root₀ bench.name root)
    (hresume : args.resume = true) :
    Complete args.skipGem5 outcomes root₀ bench.name (Scripts.benchStep args outcomes root bench) ∧
      (Scripts.benchStep args outcomes root bench).csv =
        addRows args.skipGem5 outcomes root₀ root.csv bench := by
  obtain ⟨hA, hresults, hdone⟩ := h.stageAStep hresume
  rw [Scripts.benchStep]
  dsimp only
  split
  · rename_i hflag
    have hsome : (expectedA outcomes bench.name).isSome = true := hdone.symm.trans hflag
    have hcomplete := hA.stageBStep hresume hresults hsome
    refine ⟨hcomplete.of_sameFiles ⟨rfl, rfl, rfl⟩, ?_⟩
    rw [addRows, hcomplete.rowsFor_eq hsome, writeRows, stageBStep_csv, stageAStep_csv]
  · rename_i hflag
    have hnone : expectedA outcomes bench.name = none := by
      rw [← Option.not_isSome_iff_eq_none, ← hdone]
      exact hflag
    have hnoneB : expectedB args.skipGem5 outcomes root₀ bench.name = none := by
      rw [expectedB, hnone]
    refine ⟨⟨hA, hresults, ?_⟩, ?_⟩
    · rw [stageAStep_stageB, hnoneB]
      cases hfileB : root.stageB bench.name with
      | none => rfl
      | some fileB =>
        have hfound := (h.stageB fileB hfileB).1
        rw [hnoneB] at hfound
        cases hfound
    · rw [stageAStep_csv, addRows, expectedRows, hnone]
      rfl

/-- Whatever the benchmark the pass was about, the files of the others agree as well. -/
theorem Agrees.benchStep_any (h : Agrees args.skipGem5 outcomes root₀ name root)
    (hbench : Agrees args.skipGem5 outcomes root₀ bench.name root) (hresume : args.resume = true) :
    Agrees args.skipGem5 outcomes root₀ name (Scripts.benchStep args outcomes root bench) := by
  by_cases hname : name = bench.name
  · rw [hname]
    exact (hbench.benchStep hresume).1.toAgrees
  · exact h.of_sameFiles (sameFiles_benchStep hname)

/-- **The rows of a resumed run**, whatever the file has held before. -/
theorem foldl_benchStep_csv (hresume : args.resume = true)
    (h : ∀ bench ∈ benches, Agrees args.skipGem5 outcomes root₀ bench.name root) :
    (benches.foldl (benchStep args outcomes) root).csv =
      benches.foldl (addRows args.skipGem5 outcomes root₀) root.csv := by
  induction benches generalizing root with
  | nil => rfl
  | cons bench benches ih =>
    rw [List.forall_mem_cons] at h
    rw [List.foldl_cons, List.foldl_cons, ih, (h.1.benchStep hresume).2]
    exact fun other hother => (h.2 other hother).benchStep_any h.1 hresume

/-! ### Kills -/

/-- What a kill does to the files of a benchmark. -/
structure Survives (args : Args) (outcomes : String → BenchOutcome) (root₀ : OutRoot) (name : String)
    (st st' : CutRoot) : Prop where
  agrees : Agrees args.skipGem5 outcomes root₀ name st'.root
  complete : Complete args.skipGem5 outcomes root₀ name st.root →
    Complete args.skipGem5 outcomes root₀ name st'.root
  held : st'.Held args name

theorem Survives.of_sameFiles (h : Agrees args.skipGem5 outcomes root₀ name st.root)
    (hheld : st.Held args name) (hsame : SameFiles name st.root st'.root)
    (hcut : st'.cutB name = st.cutB name) : Survives args outcomes root₀ name st st' where
  agrees := h.of_sameFiles hsame
  complete hcomplete := hcomplete.of_sameFiles hsame
  held := hheld.of_stageA hcut fun _ => hsame.stageA

/-- Linking binaries for a Stage A file that does not come to be. -/
theorem Survives.link (h : Agrees args.skipGem5 outcomes root₀ name st.root)
    (hB : st'.cutB name = false) (hnone : st.root.stageA name = none) {linked : String → Bool}
    (hlinked : ∀ key, linked key = true → (outcomes name).stageA.links key = true)
    (hroot : st'.root = st.root.link name linked) : Survives args outcomes root₀ name st st' := by
  have hagrees := h.link hnone hlinked
  rw [← hroot] at hagrees
  refine ⟨hagrees, fun hcomplete => ⟨hagrees, ?_, ?_⟩, fun hcut => ?_⟩
  · rw [hroot]
    exact hcomplete.completeA
  · rw [hroot]
    exact hcomplete.completeB
  · cases hB.symm.trans hcut

/-- **What a killed resumed run leaves** of the benchmark it was working on. -/
theorem KilledAt.survives (hkilled : KilledAt args outcomes bench st st') (hresume : args.resume = true)
    (h : Agrees args.skipGem5 outcomes root₀ bench.name st.root) (hheld : st.Held args bench.name) :
    Survives args outcomes root₀ bench.name st st' := by
  by_cases huncut : st.Uncut bench.name
  swap
  · rw [hkilled.eq_of_stuck hresume hheld huncut]
    exact ⟨h, id, hheld⟩
  obtain ⟨hA, hresults, hdone⟩ := h.stageAStep hresume
  set rootA := (stageAStep args bench.name (outcomes bench.name).stageA st.root).1
  have hstageB : rootA.stageB = st.root.stageB := stageAStep_stageB _
  have hkeptA : Complete args.skipGem5 outcomes root₀ bench.name st.root →
      Complete args.skipGem5 outcomes root₀ bench.name rootA :=
    fun hcomplete => ⟨hA, hresults, by rw [hstageB]; exact hcomplete.completeB⟩
  have hnone : (args.resume && st.hasA bench.name) = false → st.root.stageA bench.name = none := by
    rw [hresume, CutRoot.hasA, huncut.stageA, Bool.or_false, Bool.true_and, Option.isSome_eq_false_iff,
      Option.isNone_iff_eq_none]
    exact id
  have hnotheld : ∀ {st₁ : CutRoot}, st₁.cutB bench.name = st.cutB bench.name →
      st₁.Held args bench.name := by
    intro st₁ hcut hB
    cases (hcut.trans huncut.stageB).symm.trans hB
  cases hkilled with
  | before => exact ⟨h, id, hheld⟩
  | inStageA hruns linked hlinked =>
    exact .link h huncut.stageB (hnone hruns) hlinked rfl
  | @writingStageA hruns runs hwrites =>
    -- there was no file before, and there is none to be read now
    have hkept : Function.update st.root.stageA bench.name none = st.root.stageA := by
      rw [← hnone hruns]
      exact Function.update_eq_self _ _
    have hlinked : ∀ key, (runs key).linked = true → (outcomes bench.name).stageA.links key = true := by
      intro key hkey
      rw [hwrites]
      exact hkey
    refine .link h huncut.stageB (hnone hruns) hlinked ?_
    rw [CutRoot.cutStageA, hkept]
    rfl
  | afterStageA =>
    rw [stageAStepCut_whole huncut.stageA]
    exact ⟨hA, hkeptA, hnotheld rfl⟩
  | inStageB hst₁ hloads hruns =>
    obtain ⟨rfl, _⟩ := stageAStepCut_done huncut hst₁
    have hsame : SameFiles bench.name rootA (runStageB bench.name .failed rootA) := ⟨rfl, rfl, rfl⟩
    exact ⟨hA.of_sameFiles hsame, fun hcomplete => (hkeptA hcomplete).of_sameFiles hsame, hnotheld rfl⟩
  | writingStageB hst₁ hloads hruns hwrites =>
    obtain ⟨rfl, hflag⟩ := stageAStepCut_done huncut hst₁
    rw [runsStageB, Bool.and_eq_true, hresume, Bool.true_and, Bool.not_eq_true', CutRoot.hasB,
      Bool.or_eq_false_iff, Option.isSome_eq_false_iff, Option.isNone_iff_eq_none] at hruns
    obtain ⟨hasks, hnoneB, _⟩ := hruns
    have hsame : SameFiles bench.name rootA
        (CutRoot.cutStageB { st with root := rootA } bench.name).root :=
      ⟨rfl, (Function.update_self _ _ _).trans hnoneB.symm, rfl⟩
    refine ⟨hA.of_sameFiles hsame, fun hcomplete => (hkeptA hcomplete).of_sameFiles hsame, fun _ => ?_⟩
    refine ⟨?_, hasks⟩
    rw [hdone, ← hresults, Option.isSome_map] at hflag
    exact hflag
  | afterStageB hst₁ hloads =>
    obtain ⟨rfl, hflag⟩ := stageAStepCut_done huncut hst₁
    have hcomplete := hA.stageBStep hresume hresults (hdone.symm.trans hflag)
    rw [stageBStepCut_whole (huncut.withRoot rootA).stageB]
    exact ⟨hcomplete.toAgrees, fun _ => hcomplete, hnotheld rfl⟩
  | writingCsv hflag hends csv =>
    obtain rfl := Except.ok.inj ((benchStepCut_whole huncut).symm.trans hends)
    have hsame : SameFiles bench.name (benchStep args outcomes st.root bench)
        { benchStep args outcomes st.root bench with csv := csv } := ⟨rfl, rfl, rfl⟩
    have hcomplete := (h.benchStep hresume).1.of_sameFiles hsame
    exact ⟨hcomplete.toAgrees, fun _ => hcomplete, hnotheld rfl⟩

/-- The other benchmarks. -/
theorem KilledAt.sameFiles (hkilled : KilledAt args outcomes bench st st') (hresume : args.resume = true)
    (hheld : st.Held args bench.name) (hne : name' ≠ bench.name) :
    SameFiles name' st.root st'.root ∧ st'.cutB name' = st.cutB name' := by
  by_cases huncut : st.Uncut bench.name
  swap
  · rw [hkilled.eq_of_stuck hresume hheld huncut]
    exact ⟨.refl name' st.root, rfl⟩
  have hA : SameFiles name' st.root
      (stageAStep args bench.name (outcomes bench.name).stageA st.root).1 := sameFiles_stageAStep hne _
  cases hkilled with
  | before => exact ⟨.refl name' st.root, rfl⟩
  | inStageA hruns linked hlinked => exact ⟨sameFiles_link hne linked, rfl⟩
  | @writingStageA hruns runs hwrites =>
    have hlink : SameFiles name' st.root (st.root.link bench.name fun key => (runs key).linked) :=
      sameFiles_link hne _
    exact ⟨hlink.trans ⟨Function.update_of_ne hne _ _, rfl, rfl⟩, rfl⟩
  | afterStageA =>
    rw [stageAStepCut_whole huncut.stageA]
    exact ⟨hA, rfl⟩
  | inStageB hst₁ hloads hruns =>
    obtain ⟨rfl, _⟩ := stageAStepCut_done huncut hst₁
    exact ⟨hA.trans ⟨rfl, rfl, rfl⟩, rfl⟩
  | writingStageB hst₁ hloads hruns hwrites =>
    obtain ⟨rfl, _⟩ := stageAStepCut_done huncut hst₁
    exact ⟨hA.trans ⟨rfl, Function.update_of_ne hne _ _, rfl⟩, Function.update_of_ne hne _ _⟩
  | afterStageB hst₁ hloads =>
    obtain ⟨rfl, _⟩ := stageAStepCut_done huncut hst₁
    rw [stageBStepCut_whole (huncut.withRoot _).stageB]
    exact ⟨hA.trans (sameFiles_stageBStep hne _), rfl⟩
  | writingCsv hflag hends csv =>
    obtain rfl := Except.ok.inj ((benchStepCut_whole huncut).symm.trans hends)
    have hbench : SameFiles name' st.root (benchStep args outcomes st.root bench) :=
      sameFiles_benchStep hne
    exact ⟨hbench.trans ⟨rfl, rfl, rfl⟩, rfl⟩

/-! ### Resumed runs -/

theorem selectedBenchmarks_nodup (only : List String) :
    ((selectedBenchmarks only).map Benchmark.name).Nodup := by
  have hall : (BENCHMARKS.map Benchmark.name).Nodup := by decide
  rw [selectedBenchmarks]
  split
  · exact hall
  · exact hall.sublist (List.filter_sublist.map _)

/-- **A resumed run advances.** -/
theorem settled_advances (hresume : args.resume = true) :
    Advances (benchStep args outcomes) (selectedBenchmarks args.only)
      (Settled args.only args.skipGem5 outcomes root₀ cutCsv) := by
  intro k bench hk n root hkn h
  have hbench : bench ∈ selectedBenchmarks args.only := List.mem_of_getElem? hk
  obtain ⟨hcomplete, hcsv⟩ := (h.agrees bench hbench).benchStep hresume
  have htake := take_max_succ hk hkn
  refine ⟨fun hcut => ?_, fun other hother => ?_, fun other hother => ?_⟩
  · rw [hcsv, h.csv hcut]
    rcases htake with ⟨hmem, htake⟩ | htake
    · -- the rows are there
      rw [htake]
      apply addRows_again _ hmem
      exact (selectedBenchmarks_nodup args.only).sublist ((List.take_sublist _ _).map _)
    · rw [htake, expectedCsv, expectedCsv, List.foldl_append]
      rfl
  · exact (h.agrees other hother).benchStep_any (h.agrees bench hbench) hresume
  · by_cases hname : other.name = bench.name
    · rw [hname]
      exact hcomplete
    · have hmem : other ∈ (selectedBenchmarks args.only).take n := by
        rcases htake with ⟨_, htake⟩ | htake
        · rwa [htake] at hother
        · rw [htake, List.mem_append, List.mem_singleton] at hother
          rcases hother with hother | rfl
          · exact hother
          · exact absurd rfl hname
      exact (h.complete other hmem).of_sameFiles (sameFiles_benchStep hname)

/-- Some benchmarks are settled, and no cut file is passed by. -/
structure Resumable (args : Args) (outcomes : String → BenchOutcome) (root₀ : OutRoot) (n : ℕ)
    (st : CutRoot) : Prop where
  settled : Settled args.only args.skipGem5 outcomes root₀ st.cutCsv n st.root
  held : ∀ bench ∈ selectedBenchmarks args.only, st.Held args bench.name

/-- The first benchmarks of a resumed run. -/
theorem Resumable.take (h : Resumable args outcomes root₀ n st) (hresume : args.resume = true)
    (hsplit : selectedBenchmarks args.only = benches ++ rest) :
    Resumable args outcomes root₀ (max n benches.length)
      { st with root := benches.foldl (benchStep args outcomes) st.root } := by
  have hlen : benches.length ≤ (selectedBenchmarks args.only).length := by
    rw [hsplit, List.length_append]
    omega
  have htake : (selectedBenchmarks args.only).take benches.length = benches := by
    rw [hsplit, List.take_left']
    rfl
  have hsettled := (settled_advances hresume).take h.settled hlen
  rw [htake] at hsettled
  exact ⟨hsettled, fun bench hbench => (h.held bench hbench).foldl hresume outcomes benches⟩

theorem Resumable.killed (h : Resumable args outcomes root₀ n st) (hresume : args.resume = true)
    (hbench : bench ∈ selectedBenchmarks args.only) (hkilled : KilledAt args outcomes bench st st') :
    Resumable args outcomes root₀ n st' := by
  have hheld := h.held bench hbench
  have hsurvives : ∀ other ∈ selectedBenchmarks args.only,
      Survives args outcomes root₀ other.name st st' := by
    intro other hother
    by_cases hname : other.name = bench.name
    · rw [hname]
      exact hkilled.survives hresume (h.settled.agrees bench hbench) hheld
    · obtain ⟨hsame, hcut⟩ := hkilled.sameFiles hresume hheld hname
      exact .of_sameFiles (h.settled.agrees other hother) (h.held other hother) hsame hcut
  refine ⟨⟨fun hcut => ?_, fun other hother => (hsurvives other hother).agrees,
    fun other hother => ?_⟩, fun other hother => (hsurvives other hother).held⟩
  · rcases hkilled.sameTable with hcut' | hsame
    · cases hcut'.symm.trans hcut
    · exact hsame.csv.trans (h.settled.csv (hsame.cutCsv ▸ hcut))
  · exact (hsurvives other (List.mem_of_mem_take hother)).complete (h.settled.complete other hother)

theorem startCsvCut_resume (hresume : args.resume = true) (st : CutRoot) : startCsvCut args st = st := by
  rw [startCsvCut, startCsv, if_pos hresume, hresume, Bool.true_and]

/-- **An interrupted run never unsettles anything.** -/
theorem Resumable.interrupted (h : Resumable args outcomes root₀ n st)
    (hn : n ≤ (selectedBenchmarks args.only).length) (hresume : args.resume = true)
    (hinterrupted : Interrupted args outcomes st st') :
    ∃ m, m ≤ (selectedBenchmarks args.only).length ∧ Resumable args outcomes root₀ m st' := by
  have hstart := startCsvCut_resume hresume st
  have hpart : ∀ {done rest}, selectedBenchmarks args.only = done ++ rest →
      max n done.length ≤ (selectedBenchmarks args.only).length := by
    intro done rest hsplit
    rw [hsplit, List.length_append] at hn ⊢
    omega
  cases hinterrupted with
  | @atBench done rest bench st₁ _ hsplit hdone hkilled =>
    rw [hstart] at hdone
    have hheld : ∀ other ∈ done, st.Held args other.name := by
      intro other hother
      apply h.held
      rw [hsplit]
      exact List.mem_append_left _ hother
    have hbench : bench ∈ selectedBenchmarks args.only := by
      rw [hsplit]
      simp
    rcases foldlM_benchStepCut_resumed hresume hheld with ⟨_, hends⟩ | ⟨_, _, _, _, _, hends⟩
    · obtain rfl := Except.ok.inj (hends.symm.trans hdone)
      exact ⟨_, hpart hsplit, (h.take hresume hsplit).killed hresume hbench hkilled⟩
    · cases hends.symm.trans hdone
  | raised hraised =>
    rw [runSuiteCut, hstart] at hraised
    split at hraised
    · rcases foldlM_benchStepCut_resumed hresume h.held with
        ⟨_, hends⟩ | ⟨done, bench, rest, hsplit, _, hends⟩
      · cases hends.symm.trans hraised
      · obtain rfl := Except.error.inj (hends.symm.trans hraised)
        exact ⟨_, hpart hsplit, h.take hresume hsplit⟩
    · obtain rfl := Except.error.inj hraised
      exact ⟨n, hn, h⟩
  | atEnd hended =>
    rw [runSuiteCut, hstart] at hended
    split at hended
    · rcases foldlM_benchStepCut_resumed hresume h.held with ⟨_, hends⟩ | ⟨_, _, _, _, _, hends⟩
      · obtain rfl := Except.ok.inj (hends.symm.trans hended)
        have hall := (List.append_nil (selectedBenchmarks args.only)).symm
        exact ⟨_, hpart hall, h.take hresume hall⟩
      · cases hends.symm.trans hended
    · cases hended

/-! ### The first run -/

/-- There are no stage files of the benchmark. -/
def OutRoot.NoFiles (root : OutRoot) (name : String) : Prop :=
  root.stageA name = none ∧ root.stageB name = none

/-- There are no stage files of the benchmarks, whole or cut. -/
def Clean (benches : List Benchmark) (st : CutRoot) : Prop :=
  ∀ bench ∈ benches, st.root.NoFiles bench.name ∧ st.Uncut bench.name

/-- The arguments with and without `--resume`. -/
def Args.withResume (args : Args) (resume : Bool) : Args := { args with resume := resume }

variable {b b' : Bool}

/-- Without files to be found, it makes no difference whether they are looked for. -/
theorem stageAStep_clean (hA : root.stageA name = none) (o : StageARun) :
    stageAStep (args.withResume b) name o root = stageAStep (args.withResume b') name o root := by
  have hno : ∀ b : Bool, ¬ (b && (root.stageA name).isSome) = true := by
    intro b
    rw [hA]
    simp
  exact (if_neg (hno _)).trans (if_neg (hno _)).symm

theorem stageBStep_clean (hB : root.stageB name = none) (o : StageBRun) :
    stageBStep (args.withResume b) name o root = stageBStep (args.withResume b') name o root := by
  simp only [stageBStep, Args.withResume, hB, Option.isSome_none, Bool.and_false]

theorem benchStep_clean (h : root.NoFiles bench.name) :
    benchStep (args.withResume b) outcomes root bench =
      benchStep (args.withResume b') outcomes root bench := by
  obtain ⟨hA, hB⟩ := h
  have hstageA : stageAStep (args.withResume b) bench.name (outcomes bench.name).stageA root =
      stageAStep (args.withResume b') bench.name (outcomes bench.name).stageA root :=
    stageAStep_clean hA _
  have hstageB : stageBStep (args.withResume b) bench.name (outcomes bench.name).stageB
        (stageAStep (args.withResume b') bench.name (outcomes bench.name).stageA root).1 =
      stageBStep (args.withResume b') bench.name (outcomes bench.name).stageB
        (stageAStep (args.withResume b') bench.name (outcomes bench.name).stageA root).1 := by
    apply stageBStep_clean
    rw [stageAStep_stageB]
    exact hB
  have hrows : ∀ root', rowsFor (args.withResume b) bench root' =
      rowsFor (args.withResume b') bench root' := fun _ => rfl
  simp only [benchStep, hrows, hstageA, hstageB]

/-- A kill on a clean benchmark is one that a run with, or without, `--resume` can meet as well. -/
theorem KilledAt.withResume (h : st.root.NoFiles bench.name) (huncut : st.Uncut bench.name)
    (hkilled : KilledAt (args.withResume b) outcomes bench st st') :
    KilledAt (args.withResume b') outcomes bench st st' := by
  have hmissing : ((args.withResume b').resume && st.hasA bench.name) = false := by
    rw [CutRoot.hasA, h.1, huncut.stageA]
    exact Bool.and_false _
  have hstageA : stageAStepCut (args.withResume b) bench.name (outcomes bench.name).stageA st =
      stageAStepCut (args.withResume b') bench.name (outcomes bench.name).stageA st := by
    rw [stageAStepCut_whole huncut.stageA, stageAStepCut_whole huncut.stageA, stageAStep_clean h.1]
  have hrunsB : ∀ {st₁ : CutRoot},
      stageAStepCut (args.withResume b') bench.name (outcomes bench.name).stageA st = (st₁, true) →
        runsStageB (args.withResume b) bench.name st₁ =
          runsStageB (args.withResume b') bench.name st₁ := by
    intro st₁ hst₁
    obtain ⟨rfl, _⟩ := stageAStepCut_done huncut hst₁
    have hhas : CutRoot.hasB { st with root := (stageAStep (args.withResume b') bench.name
        (outcomes bench.name).stageA st.root).1 } bench.name = false := by
      rw [CutRoot.hasB, stageAStep_stageB, h.2, huncut.stageB]
      rfl
    rw [runsStageB, runsStageB, hhas, Bool.and_false, Bool.and_false]
    rfl
  cases hkilled with
  | before => exact .before
  | inStageA hruns linked hlinked => exact .inStageA hmissing linked hlinked
  | writingStageA hruns hwrites => exact .writingStageA hmissing hwrites
  | afterStageA =>
    rw [hstageA]
    exact .afterStageA
  | inStageB hst₁ hloads hruns =>
    rw [hstageA] at hst₁
    exact .inStageB hst₁ hloads ((hrunsB hst₁).symm.trans hruns)
  | writingStageB hst₁ hloads hruns hwrites =>
    rw [hstageA] at hst₁
    exact .writingStageB hst₁ hloads ((hrunsB hst₁).symm.trans hruns) hwrites
  | afterStageB hst₁ hloads =>
    rw [hstageA] at hst₁
    rw [stageBStepCut, hrunsB hst₁, ← stageBStepCut]
    exact .afterStageB hst₁ hloads
  | writingCsv hflag hends csv =>
    rw [hstageA] at hflag
    rw [benchStepCut_whole huncut, benchStep_clean h, ← benchStepCut_whole huncut] at hends
    exact .writingCsv hflag hends csv

theorem OutRoot.NoFiles.benchStep (h : root.NoFiles name) (hne : name ≠ bench.name) (args : Args)
    (outcomes : String → BenchOutcome) : (benchStep args outcomes root bench).NoFiles name := by
  have hsame : SameFiles name root (Scripts.benchStep args outcomes root bench) :=
    sameFiles_benchStep hne
  rw [OutRoot.NoFiles, hsame.stageA, hsame.stageB]
  exact h

theorem OutRoot.NoFiles.foldl (h : root.NoFiles name) (hother : ∀ bench ∈ benches, name ≠ bench.name)
    (args : Args) (outcomes : String → BenchOutcome) :
    (benches.foldl (Scripts.benchStep args outcomes) root).NoFiles name := by
  induction benches generalizing root with
  | nil => exact h
  | cons bench benches ih =>
    rw [List.forall_mem_cons] at hother
    exact ih (h.benchStep hother.1 args outcomes) hother.2

/-- The first benchmarks of a first run. -/
theorem foldl_benchStep_clean (args : Args) (outcomes : String → BenchOutcome) (b b' : Bool)
    (h : ∀ bench ∈ benches, root.NoFiles bench.name)
    (hnd : (benches.map Benchmark.name).Nodup) :
    benches.foldl (benchStep (args.withResume b) outcomes) root =
      benches.foldl (benchStep (args.withResume b') outcomes) root := by
  induction benches generalizing root with
  | nil => rfl
  | cons bench benches ih =>
    rw [List.map_cons, List.nodup_cons] at hnd
    rw [List.forall_mem_cons] at h
    rw [List.foldl_cons, List.foldl_cons, benchStep_clean h.1]
    refine ih (fun other hother => (h.2 other hother).benchStep ?_ _ outcomes) hnd.2
    exact fun heq => hnd.1 (heq ▸ List.mem_map_of_mem hother)

/-- A first run has removed the table of an earlier one. -/
def CutRoot.fresh (st : CutRoot) : CutRoot :=
  { st with root := { st.root with csv := none }, cutCsv := false }

theorem runSuiteCut_known (hknown : (unknownNames args.only).isEmpty = true) (st : CutRoot) :
    runSuiteCut (args.withResume b) outcomes st = (selectedBenchmarks args.only).foldlM
      (benchStepCut (args.withResume b) outcomes) (startCsvCut (args.withResume b) st) :=
  if_pos hknown

/-- **What a first run leaves**, whole or interrupted, a resumed run could have left. -/
theorem Interrupted.withResume (h : Clean (selectedBenchmarks args.only) st)
    (hknown : (unknownNames args.only).isEmpty = true)
    (hfirst : Interrupted (args.withResume false) outcomes st st') :
    Interrupted (args.withResume true) outcomes st.fresh st' := by
  have hnd := selectedBenchmarks_nodup args.only
  have hstart : startCsvCut (args.withResume false) st = st.fresh := rfl
  have hstart' : startCsvCut (args.withResume true) st.fresh = st.fresh := rfl
  have hclean : Clean (selectedBenchmarks args.only) st.fresh :=
    fun bench hbench => ⟨(h bench hbench).1, (h bench hbench).2.stageA, (h bench hbench).2.stageB⟩
  have hrun : ∀ b, (selectedBenchmarks args.only).foldlM (benchStepCut (args.withResume b) outcomes)
      st.fresh = .ok { st.fresh with
        root := (selectedBenchmarks args.only).foldl (benchStep (args.withResume b) outcomes)
          st.fresh.root } :=
    fun b => foldlM_benchStepCut_whole fun bench hbench => (hclean bench hbench).2
  cases hfirst with
  | @atBench done rest bench st₁ _ hsplit hdone hkilled =>
    change selectedBenchmarks args.only = done ++ bench :: rest at hsplit
    rw [hsplit] at hclean hnd
    rw [List.map_append, List.nodup_append, List.map_cons] at hnd
    obtain ⟨hnone, huncut⟩ := hclean bench (by simp)
    have hdone' : ∀ other ∈ done, st.fresh.root.NoFiles other.name ∧ st.fresh.Uncut other.name :=
      fun other hother => hclean other (List.mem_append_left _ hother)
    have hwhole : ∀ b, done.foldlM (benchStepCut (args.withResume b) outcomes) st.fresh =
        .ok { st.fresh with
          root := done.foldl (benchStep (args.withResume b) outcomes) st.fresh.root } :=
      fun b => foldlM_benchStepCut_whole fun other hother => (hdone' other hother).2
    rw [hstart, hwhole false] at hdone
    obtain rfl := Except.ok.inj hdone
    have hnotdone : ∀ other ∈ done, bench.name ≠ other.name := fun other hother =>
      (hnd.2.2 _ (List.mem_map_of_mem hother) _ List.mem_cons_self).symm
    refine .atBench hsplit ?_ (hkilled.withResume (hnone.foldl hnotdone _ outcomes)
      (huncut.withRoot _))
    rw [hstart', hwhole true, foldl_benchStep_clean args outcomes false true
      (fun other hother => (hdone' other hother).1) hnd.1]
  | raised hraised =>
    rw [runSuiteCut_known hknown, hstart] at hraised
    cases (hrun false).symm.trans hraised
  | atEnd hended =>
    rw [runSuiteCut_known hknown, hstart] at hended
    apply Interrupted.atEnd
    rw [runSuiteCut_known hknown, hstart', ← hended]
    have hsame := foldl_benchStep_clean args outcomes false true
      (fun bench hbench => (hclean bench hbench).1) hnd
    rw [hrun true, hrun false, hsame]

theorem resumable_start (h : Clean (selectedBenchmarks args.only) st) :
    Resumable args outcomes st.root 0 st.fresh := by
  refine ⟨⟨fun _ => rfl, fun bench hbench => ?_, fun bench hbench => ?_⟩, fun bench hbench hB => ?_⟩
  · obtain ⟨⟨hA, hB⟩, _⟩ := h bench hbench
    refine ⟨fun file hfile => ?_, fun file hfile => ?_, fun key hkey => hkey, fun key hkey => ?_⟩
    · exact absurd (hA.symm.trans hfile) (by simp)
    · exact absurd (hB.symm.trans hfile) (by simp)
    · change st.root.hasBinary bench.name key = true at hkey
      rw [binariesAfter, hkey, Bool.or_true]
  · simp at hbench
  · cases (h bench hbench).2.stageB.symm.trans hB

/-! ### The whole -/

theorem Settled.loads
    (h : Settled only skipGem5 outcomes root₀ cutCsv (selectedBenchmarks only).length root)
    (hbench : bench ∈ selectedBenchmarks only) :
    loadStageA root bench.name = (expectedA outcomes bench.name).getD [] ∧
      loadStageB root bench.name = (expectedB skipGem5 outcomes root₀ bench.name).getD [] := by
  have hcomplete := h.complete bench (by rwa [List.take_length])
  rw [← hcomplete.completeA, ← hcomplete.completeB, loadStageA, loadStageB]
  constructor
  · cases root.stageA bench.name with
    | none => rfl
    | some file => rfl
  · cases root.stageB bench.name with
    | none => rfl
    | some file => rfl

/-- A first run that nothing interrupts settles all the benchmarks. -/
theorem settled_whole (outcomes : String → BenchOutcome)
    (hclean : Clean (selectedBenchmarks args.only) st) :
    Settled args.only args.skipGem5 outcomes st.root false (selectedBenchmarks args.only).length
      ((selectedBenchmarks args.only).foldl (benchStep (args.withResume false) outcomes)
        st.fresh.root) := by
  have hadvances : Advances (benchStep (args.withResume true) outcomes)
      (selectedBenchmarks args.only) (Settled args.only args.skipGem5 outcomes st.root false) :=
    settled_advances rfl
  have hstart : Resumable (args.withResume true) outcomes st.root 0 st.fresh := resumable_start hclean
  have hnone : ∀ bench ∈ selectedBenchmarks args.only, st.fresh.root.NoFiles bench.name :=
    fun bench hbench => (hclean bench hbench).1
  rw [foldl_benchStep_clean args outcomes false true hnone (selectedBenchmarks_nodup args.only)]
  exact hadvances.run (Nat.zero_le _) hstart.settled

/-- Whatever interrupted runs leave, some of the benchmarks are settled in it. -/
theorem resumable_interrupted (hknown : (unknownNames args.only).isEmpty = true) {st₀ st₁ : CutRoot}
    (hclean : Clean (selectedBenchmarks args.only) st₀)
    (hfirst : Interrupted (args.withResume false) outcomes st₀ st₁)
    (hresumed : Relation.ReflTransGen (Interrupted (args.withResume true) outcomes) st₁ st) :
    ∃ n, n ≤ (selectedBenchmarks args.only).length ∧
      Resumable (args.withResume true) outcomes st₀.root n st := by
  have hstart : Resumable (args.withResume true) outcomes st₀.root 0 st₀.fresh :=
    resumable_start hclean
  induction hresumed with
  | refl => exact hstart.interrupted (Nat.zero_le _) rfl (hfirst.withResume hclean hknown)
  | tail _ hstep ih =>
    obtain ⟨n, hn, hresumable⟩ := ih
    exact hresumable.interrupted hn rfl hstep

/-- Every configuration completes with the same result. -/
def identicalOutcomes (_name : String) : BenchOutcome :=
  ⟨.wrote fun _ => ⟨.ok ⟨[], 0, [], 0, "", none⟩, true⟩, .wrote fun _ => [("numCycles", .num "100")]⟩

end TraceScheduler.Scripts
