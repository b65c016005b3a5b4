import Mathlib.Data.Int.Notation
import Mathlib.Data.List.Basic
import Mathlib.Tactic.Common

/-!
# The benchmark suite

`runSuite` runs Stage A (compile, schedule, execute) and Stage B (gem5) for each selected benchmark and
merges what they wrote into the rows of `results.csv`.  The containers are not modelled: a stage either
fails or writes its JSON file, and what it writes is a parameter of the run.

Everything on the output root is kept by name of the benchmark.  The runs of the containers are numbered
by a clock, and a file knows the run that wrote it; the scripts do not look at these numbers.
-/

namespace TraceScheduler.Scripts

/-! ### The manifest -/

structure Benchmark where
  name : String
  category : String
  deriving DecidableEq, Repr

def BENCHMARKS : List Benchmark :=
  [⟨"synthetic_cold", "synthetic"⟩, ⟨"synthetic_hot", "synthetic"⟩, ⟨"basicmath", "automotive"⟩,
    ⟨"bitcount", "automotive"⟩, ⟨"qsort", "automotive"⟩, ⟨"susan", "automotive"⟩,
    ⟨"dijkstra", "network"⟩, ⟨"patricia", "network"⟩, ⟨"sha", "security"⟩,
    ⟨"blowfish", "security"⟩, ⟨"rijndael", "security"⟩, ⟨"CRC32", "telecomm"⟩,
    ⟨"adpcm", "telecomm"⟩, ⟨"stringsearch", "office"⟩]

structure Config where
  key : String
  gatesCorrectness : Bool
  deriving DecidableEq, Repr

def CONFIGS : List Config :=
  [⟨"original", true⟩, ⟨"local", true⟩, ⟨"global", true⟩, ⟨"global_no_pressure", true⟩,
    ⟨"clang_o2", false⟩]

/-! ### What the workers write -/

/-- A JSON scalar. A number is kept as the text it is printed as. -/
inductive Scalar
  | none
  | bool (b : Bool)
  | num (text : String)
  | str (s : String)
  deriving DecidableEq, Repr

/-- A JSON object. -/
abbrev Dict (α : Type) := List (String × α)

/-- `d.get(key)` of an object of scalars. -/
def getScalar (d : Dict Scalar) (key : String) : Scalar := (d.lookup key).getD .none

/-- The record of a configuration that completed. -/
structure ConfigResult where
  mca : Dict Scalar
  spillCount : ℕ
  schedStats : Dict Scalar
  exitCode : ℤ
  stdoutSha256 : String
  outputSha256 : Option String
  deriving DecidableEq, Repr

/-- The record of a configuration: its result, or the message of the exception. -/
inductive ConfigRecord
  | result (r : ConfigResult)
  | error (message : String)
  deriving DecidableEq, Repr

abbrev StageA := Dict ConfigRecord

abbrev StageB := Dict (Dict Scalar)

/-- One pass of the loop over the configurations: how it ended, and whether it came as far as linking
the binary. -/
structure ConfigRun where
  outcome : Except String ConfigResult
  linked : Bool

/-- A run of the Stage A worker: a non-zero return code, or a file. A failing run may have linked
binaries as well. -/
inductive StageARun
  | failed (linked : String → Bool)
  | wrote (runs : String → ConfigRun)

/-- A run of the Stage B worker, with the statistics of each simulation. -/
inductive StageBRun
  | failed
  | wrote (stats : String → Dict Scalar)

def recordOf : Except String ConfigResult → ConfigRecord
  | .ok r => .result r
  | .error message => .error message

/-- The loop of the Stage A worker. -/
def runOne (runs : String → ConfigRun) : StageA :=
  CONFIGS.map fun cfg => (cfg.key, recordOf (runs cfg.key).outcome)

/-- The loop of the Stage B worker: a missing binary is an error entry. -/
def simulateAll (present : String → Bool) (stats : String → Dict Scalar) : StageB :=
  CONFIGS.map fun cfg => (cfg.key,
    if present cfg.key then stats cfg.key
    else [("error", .str "binary missing, run Stage A first")])

/-! ### Correctness -/

/-- The observable result equals the one of the baseline, both completed. -/
def configMatchesOriginal (stageA : StageA) (key : String) : Bool :=
  match stageA.lookup "original", stageA.lookup key with
  | some (.result original), some (.result candidate) =>
      candidate.exitCode == original.exitCode &&
        candidate.stdoutSha256 == original.stdoutSha256 &&
        candidate.outputSha256 == original.outputSha256
  | _, _ => false

/-- Every gating configuration matches. -/
def stageACorrect (stageA : StageA) : Bool :=
  !stageA.isEmpty &&
    (CONFIGS.filter fun cfg => cfg.key != "original" && cfg.gatesCorrectness).all fun cfg =>
      configMatchesOriginal stageA cfg.key

/-! ### The rows -/

/-- One row of `results.csv`. -/
structure Row (α : Type) where
  benchmark : α
  category : α
  config : α
  error : α
  mcaInstructions : α
  mcaTotalCycles : α
  mcaTotalUops : α
  mcaIpc : α
  mcaBlockRthroughput : α
  spillCount : α
  gem5NumInsts : α
  gem5NumCycles : α
  gem5Ipc : α
  gem5SimSeconds : α
  traceCount : α
  edgesAboveThreshold : α
  edgesBelowThreshold : α
  backedgesSkipped : α
  hoistCandidates : α
  hoistDone : α
  blockedDominance : α
  blockedLoop : α
  blockedOperand : α
  blockedUnsafeSpeculation : α
  blockedPressure : α
  peakLivePressure : α
  exitCode : α
  correctnessOkVsOriginal : α

/-- What `csv.DictWriter` writes for a value. -/
def Scalar.text : Scalar → String
  | .none => ""
  | .bool true => "True"
  | .bool false => "False"
  | .num text => text
  | .str s => s

def Row.map {α β : Type} (f : α → β) (r : Row α) : Row β where
  benchmark := f r.benchmark
  category := f r.category
  config := f r.config
  error := f r.error
  mcaInstructions := f r.mcaInstructions
  mcaTotalCycles := f r.mcaTotalCycles
  mcaTotalUops := f r.mcaTotalUops
  mcaIpc := f r.mcaIpc
  mcaBlockRthroughput := f r.mcaBlockRthroughput
  spillCount := f r.spillCount
  gem5NumInsts := f r.gem5NumInsts
  gem5NumCycles := f r.gem5NumCycles
  gem5Ipc := f r.gem5Ipc
  gem5SimSeconds := f r.gem5SimSeconds
  traceCount := f r.traceCount
  edgesAboveThreshold := f r.edgesAboveThreshold
  edgesBelowThreshold := f r.edgesBelowThreshold
  backedgesSkipped := f r.backedgesSkipped
  hoistCandidates := f r.hoistCandidates
  hoistDone := f r.hoistDone
  blockedDominance := f r.blockedDominance
  blockedLoop := f r.blockedLoop
  blockedOperand := f r.blockedOperand
  blockedUnsafeSpeculation := f r.blockedUnsafeSpeculation
  blockedPressure := f r.blockedPressure
  peakLivePressure := f r.peakLivePressure
  exitCode := f r.exitCode
  correctnessOkVsOriginal := f r.correctnessOkVsOriginal

/-- A field of the record of a configuration, nothing for an error record or no record at all. -/
def fieldOf (a : Option ConfigRecord) (f : ConfigResult → Scalar) : Scalar :=
  match a with
  | some (.result r) => f r
  | _ => .none

def errorOf : Option ConfigRecord → Scalar
  | some (.error message) => .str message
  | _ => .none

/-- The three-valued verdict on a configuration: none for the baseline, and for an error record. -/
def correctOf (stageA : StageA) (key : String) : Option Bool :=
  match stageA.lookup key with
  | some (.error _) => none
  | _ =>
      if key != "original" && (stageA.lookup "original").isSome then
        some (configMatchesOriginal stageA key)
      else none

def buildCsvRow (benchName category : String) (stageA : StageA) (stageB : StageB) (cfg : Config) :
    Row Scalar :=
  let a := stageA.lookup cfg.key
  let b := (stageB.lookup cfg.key).getD []
  let mca := fun key => fieldOf a fun r => getScalar r.mca key
  let sched := fun key => fieldOf a fun r => getScalar r.schedStats key
  { benchmark := .str benchName
    category := .str category
    config := .str cfg.key
    error := errorOf a
    mcaInstructions := mca "instructions"
    mcaTotalCycles := mca "total_cycles"
    mcaTotalUops := mca "total_uops"
    mcaIpc := mca "ipc"
    mcaBlockRthroughput := mca "block_rthroughput"
    spillCount := fieldOf a fun r => .num (toString r.spillCount)
    gem5NumInsts := getScalar b "numInsts"
    gem5NumCycles := getScalar b "numCycles"
    gem5Ipc := getScalar b "ipc"
    gem5SimSeconds := getScalar b "simSeconds"
    traceCount := sched "trace_count"
    edgesAboveThreshold := sched "edges_above_threshold"
    edgesBelowThreshold := sched "edges_below_threshold"
    backedgesSkipped := sched "backedges_skipped"
    hoistCandidates := sched "hoist_candidates"
    hoistDone := sched "hoist_done"
    blockedDominance := sched "blocked_dominance"
    blockedLoop := sched "blocked_loop"
    blockedOperand := sched "blocked_operand"
    blockedUnsafeSpeculation := sched "blocked_unsafe_speculation"
    blockedPressure := sched "blocked_pressure"
    peakLivePressure := sched "peak_live_pressure"
    exitCode := fieldOf a fun r => .num (toString r.exitCode)
    correctnessOkVsOriginal :=
      match correctOf stageA cfg.key with
      | some b => .bool b
      | none => .none }

def buildCsvRows (benchName category : String) (stageA : StageA) (stageB : StageB) :
    List (Row Scalar) :=
  CONFIGS.map (buildCsvRow benchName category stageA stageB)

/-- Replace the row of the same benchmark and configuration, or append. -/
def upsert (rows : List (Row String)) (row : Row String) : List (Row String) :=
  match rows with
  | [] => [row]
  | r :: rest =>
      if r.benchmark = row.benchmark ∧ r.config = row.config then row :: rest
      else r :: upsert rest row

/-! ### The output root -/

structure StageAFile where
  run : ℕ
  results : StageA

/-- `binary key` is the Stage A run that linked the binary simulated for `key`. -/
structure StageBFile where
  run : ℕ
  results : StageB
  binary : String → Option ℕ

/-- The files under the output root. `binaries` says which Stage A run linked each binary. -/
structure OutRoot where
  clock : ℕ
  stageA : String → Option StageAFile
  stageB : String → Option StageBFile
  binaries : String → String → Option ℕ
  csv : Option (List (Row String))

/-- A new output root. -/
def OutRoot.empty : OutRoot := ⟨0, fun _ => none, fun _ => none, fun _ _ => none, none⟩

def OutRoot.link (root : OutRoot) (name : String) (linked : String → Bool) : OutRoot :=
  { root with
    clock := root.clock + 1
    binaries := Function.update root.binaries name fun key =>
      if linked key then some root.clock else root.binaries name key }

/-- Run Stage A. -/
def runStageA (name : String) (o : StageARun) (root : OutRoot) : OutRoot :=
  match o with
  | .failed linked => root.link name linked
  | .wrote runs =>
      { root.link name fun key => (runs key).linked with
        stageA := Function.update root.stageA name (some ⟨root.clock, runOne runs⟩) }

/-- Run Stage B. -/
def runStageB (name : String) (o : StageBRun) (root : OutRoot) : OutRoot :=
  match o with
  | .failed => { root with clock := root.clock + 1 }
  | .wrote stats =>
      { root with
        clock := root.clock + 1
        stageB := Function.update root.stageB name (some
          ⟨root.clock, simulateAll (fun key => (root.binaries name key).isSome) stats,
            root.binaries name⟩) }

/-- The results in a file, nothing if there is no file. -/
def loadStageA (root : OutRoot) (name : String) : StageA :=
  match root.stageA name with
  | some file => file.results
  | none => []

def loadStageB (root : OutRoot) (name : String) : StageB :=
  match root.stageB name with
  | some file => file.results
  | none => []

/-! ### One invocation -/

structure Args where
  only : List String
  skipGem5 : Bool
  resume : Bool

/-- What the containers do for a benchmark, if they are run. -/
structure BenchOutcome where
  stageA : StageARun
  stageB : StageBRun

def selectedBenchmarks (only : List String) : List Benchmark :=
  if only.isEmpty then BENCHMARKS else BENCHMARKS.filter fun b => only.contains b.name

def unknownNames (only : List String) : List String :=
  only.filter fun name => !(selectedBenchmarks only).any fun b => b.name == name

/-- Stage A of a benchmark, skipped if `--resume` finds its file. The flag says that there is something
to report. -/
def stageAStep (args : Args) (name : String) (o : StageARun) (root : OutRoot) : OutRoot × Bool :=
  if args.resume && (root.stageA name).isSome then (root, true)
  else
    (runStageA name o root,
      match o with
      | .failed _ => false
      | .wrote _ => true)

/-- Stage B of a benchmark, only for correct configurations, skipped if `--resume` finds its file. -/
def stageBStep (args : Args) (name : String) (o : StageBRun) (root : OutRoot) : OutRoot :=
  if args.skipGem5 then root
  else if !stageACorrect (loadStageA root name) then root
  else if args.resume && (root.stageB name).isSome then root
  else runStageB name o root

/-- The rows of a benchmark as they go to the file. -/
def rowsFor (args : Args) (bench : Benchmark) (root : OutRoot) : List (Row String) :=
  let stageA := loadStageA root bench.name
  let stageB := if !args.skipGem5 && stageACorrect stageA then loadStageB root bench.name else []
  (buildCsvRows bench.name bench.category stageA stageB).map (Row.map Scalar.text)

/-- The rows are merged into those of the file, which are the rows in memory, and written. -/
def writeRows (rows : List (Row String)) (root : OutRoot) : OutRoot :=
  { root with csv := some (rows.foldl upsert (root.csv.getD [])) }

/-- The loop body of `main`. -/
def benchStep (args : Args) (outcomes : String → BenchOutcome) (root : OutRoot) (bench : Benchmark) :
    OutRoot :=
  let o := outcomes bench.name
  let (root, done) := stageAStep args bench.name o.stageA root
  if done then
    let root := stageBStep args bench.name o.stageB root
    writeRows (rowsFor args bench root) root
  else root

/-- A fresh run starts the file clean. -/
def startCsv (args : Args) (root : OutRoot) : OutRoot :=
  if args.resume then root else { root with csv := none }

/-- One invocation, `none` when a benchmark name is unknown. -/
def runSuite (args : Args) (outcomes : String → BenchOutcome) (root : OutRoot) : Option OutRoot :=
  if (unknownNames args.only).isEmpty then
    some ((selectedBenchmarks args.only).foldl (benchStep args outcomes) (startCsv args root))
  else none

end TraceScheduler.Scripts
