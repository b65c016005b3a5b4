import TraceScheduler.Library.Script
import TraceScheduler.Scripts.Gem5Worker
import TraceScheduler.Scripts.SchedStats

/-!
# The benchmark worker

The Stage A worker builds a benchmark with a profile, and then, for each configuration, schedules it,
compiles it, looks at the assembly and runs the binary.  It is a script that calls the compilers and runs
the programs they make; what these do is a parameter.

All configurations work in the directory of the benchmark, one after the other, and a configuration that
fails leaves its error and whatever it has written so far.
-/

namespace TraceScheduler.Scripts.BenchWorker

open TraceScheduler.Text

/-! ### What the worker is given -/

def PLUGIN : String := REPO ++ "/build/schedulerPass.so"

def MCPU : String := "rocket-rv64"

def RISCV_LINK_FLAGS : List String :=
  ["--target=riscv64-unknown-linux-gnu", "--sysroot=/usr/riscv64-linux-gnu",
    "-B/usr/lib/gcc-cross/riscv64-linux-gnu/11", "-L/usr/lib/gcc-cross/riscv64-linux-gnu/11",
    "-fuse-ld=lld", "-static"]

/-- What the worker looks at of a benchmark. -/
structure BenchBuild extends BenchRun where
  sources : List String
  libs : List String
  outputFile : Option String
  std : Option String
  stdoutNormalization : Option String

/-- The passes of a configuration. -/
def passes (cfg : Config) : Option String :=
  [("original", "mem2reg"), ("local", "mem2reg,localSchedulerPass"),
    ("global", "mem2reg,globalSchedulerPass"),
    ("global_no_pressure", "mem2reg,globalSchedulerPassNoPressure")].lookup cfg.key

/-- Whether a configuration runs with the statistics on. -/
def schedStats (cfg : Config) : Bool := ["global", "global_no_pressure"].contains cfg.key

def ccCompatFlags (bench : BenchBuild) : List String :=
  ["-std=" ++ bench.std.getD "gnu89", "-Xclang", "-disable-O0-optnone"]

/-- The value of an optional string, if it is true. -/
def truthy (s : Option String) : Option String := s.filter fun s => s != ""

/-! ### Commands -/

/-- The variables of an environment. -/
abbrev Env := String → Option String

structure Command where
  cmd : List String
  cwd : Option String
  env : Option Env
  stdin : Option (List Char)

structure Proc where
  returncode : ℤ
  stdout : List Char
  stderr : List Char

/-- The scripts of the worker. A command that cannot be started answers with the message of the
exception. -/
abbrev WorkerScript := Script Command (Except String Proc) String (Option Node) String

/-- What the commands can answer, and write. -/
abbrev Tools := Command → FileSystem → Except String Proc → (String → Option (Option Node)) → Prop

/-- The text of a file that is opened for reading. -/
def readFile (path : String) : WorkerScript (List Char) := do
  match ← Script.read path with
  | none => .raise ("[Errno 2] No such file or directory: '" ++ path ++ "'")
  | some .dir => .raise ("[Errno 21] Is a directory: '" ++ path ++ "'")
  | some (.file text) => return text

/-- A text is written to a file. No directory stands there. -/
def writeFile (path : String) (text : List Char) : WorkerScript Unit :=
  Script.write path (some (.file text))

def commandFailed (cmd : List String) (proc : Proc) : String :=
  "command failed (" ++ toString proc.returncode ++ "): " ++ " ".intercalate cmd ++ "\nstdout: " ++
    String.ofList proc.stdout ++ "\nstderr: " ++ String.ofList proc.stderr

/-- What `sh` makes of the answer. -/
def checked (cmd : List String) (check : Bool) : Except String Proc → WorkerScript Proc
  | .error message => .raise message
  | .ok proc => if check && proc.returncode != 0 then .raise (commandFailed cmd proc) else return proc

def sh (cmd : List String) (cwd : Option String) (env : Option Env) (stdinPath : Option String)
    (check : Bool) : WorkerScript Proc :=
  match stdinPath with
  | none => .call ⟨cmd, cwd, env, none⟩ (checked cmd check)
  | some path => do
      let stdin ← readFile path
      .call ⟨cmd, cwd, env, some stdin⟩ (checked cmd check)

/-- `sha256`. -/
def sha256 (hexdigest : List Char → String) (path : String) : WorkerScript (Option String) := do
  match ← Script.read path with
  | none => return none
  | some _ =>
      let text ← readFile path
      return some (hexdigest text)

/-! ### Searching a text -/

/-- A regular expression that matches at a place in one way at most. It is given whether a line begins
there and the text from there on, and returns the text after the match. -/
abbrev Pattern := Bool → List Char → Option (List Char)

/-- The text after a word. -/
def afterWord (word text : List Char) : Option (List Char) :=
  if word <+: text then some (text.drop word.length) else none

/-- The text after white space, if there is any. -/
def afterSpace (text : List Char) : List Char := text.dropWhile isSpace

/-- The text after at least one of some characters, and as many as there are. -/
def afterSome (p : Char → Bool) (text : List Char) : Option (List Char) :=
  if text.head?.any p then some (text.dropWhile p) else none

/-- `re.sub`, where `skip` characters still belong to the last match. -/
def substFrom (pattern : Pattern) (repl : List Char) : ℕ → Bool → List Char → List Char
  | _, _, [] => []
  | skip + 1, _, c :: cs => substFrom pattern repl skip (c == '\n') cs
  | 0, lineStart, c :: cs =>
      match pattern lineStart (c :: cs) with
      | some rest => repl ++ substFrom pattern repl (cs.length - rest.length) (c == '\n') cs
      | none => c :: substFrom pattern repl 0 (c == '\n') cs

def subst (pattern : Pattern) (repl text : List Char) : List Char := substFrom pattern repl 0 true text

/-- `text.count(word)`, where `skip` characters still belong to the last occurrence. -/
def countFrom (word : List Char) : ℕ → List Char → ℕ
  | _, [] => 0
  | skip + 1, _ :: cs => countFrom word skip cs
  | 0, c :: cs =>
      if word <+: c :: cs then countFrom word (word.length - 1) cs + 1 else countFrom word 0 cs

/-- The group after the first label that begins a line and has one, with white space in between. -/
def grabLine (group : Char → Bool) (label : List Char) : Bool → List Char → Option (List Char)
  | _, [] => none
  | lineStart, c :: cs =>
      ((if lineStart then afterWord label (c :: cs) else none).bind fun rest =>
        let value := (afterSpace rest).takeWhile group
        if value.isEmpty then none else some value).orElse fun _ => grabLine group label (c == '\n') cs

/-! ### What is made of the outputs -/

def isNumeral (c : Char) : Bool := c.isDigit || c == '.'

/-- `Time:\s*[0-9.]+\s*sec\.;` -/
def elapsedTime : Pattern := fun _ text => do
  let text ← afterWord "Time:".toList text
  let text ← afterSome isNumeral (afterSpace text)
  afterWord "sec.;".toList (afterSpace text)

/-- `^(Best|Worst)\s*>.*(?:\n|$)` -/
def rankLine : Pattern := fun lineStart text => do
  if !lineStart then none
  let text ← (afterWord "Best".toList text).orElse fun _ => afterWord "Worst".toList text
  let text ← afterWord ">".toList (afterSpace text)
  some ((text.dropWhile fun c => c != '\n').drop 1)

/-- `normalized_stdout`. -/
def normalizedStdout (bench : BenchBuild) (data : List Char) : Except String (List Char) :=
  match bench.stdoutNormalization with
  | none => .ok data
  | some mode =>
      if mode = "bitcount_timing" then
        .ok (subst rankLine [] (subst elapsedTime "Time: <elapsed> sec.;".toList data))
      else .error ("unknown stdout normalization mode: " ++ mode)

def mcaKeys : List (String × String) :=
  [("Instructions", "instructions"), ("Total Cycles", "total_cycles"), ("Total uOps", "total_uops"),
    ("Dispatch Width", "dispatch_width"), ("uOps Per Cycle", "uops_per_cycle"), ("IPC", "ipc"),
    ("Block RThroughput", "block_rthroughput")]

/-- `parse_mca`. A number is given as the text it is printed as. -/
def parseMca (numberText : Float64 → String) (text : List Char) : Except String (Dict Scalar) :=
  mcaKeys.mapM fun (label, key) =>
    match grabLine isNumeral (label ++ ":").toList true text with
    | none => .ok (key, .none)
    | some group =>
        match float group with
        | none => .error ("could not convert string to float: '" ++ String.ofList group ++ "'")
        | some x => .ok (key, .num (numberText x))

/-- The sums of `parse_sched_stats`, under the keys that the suite asks for. -/
def statsDict (numberText : Float64 → String) (stats : ParsedStats) : Dict Scalar :=
  (counters.map Prod.fst ++ ["peak_live_pressure"]).filterMap fun key =>
    (stats.totals key.toList).map fun x => (key, .num (numberText x))

/-! ### Paths and command lines -/

/-- `os.path.basename`. -/
def basename (path : String) : String :=
  String.ofList (path.toList.reverse.takeWhile fun c => c != '/').reverse

section

variable (bench : BenchBuild) (outRoot : String)

/-- A file in the directory of the benchmark. -/
def inBuildDir (name : String) : String := joinPath (buildDir bench.toBenchRun outRoot) name

def profInst : String := inBuildDir bench outRoot "prof_inst"

def profraw : String := inBuildDir bench outRoot "default.profraw"

def profdata : String := inBuildDir bench outRoot "prof.profdata"

def llOut (src : String) : String := inBuildDir bench outRoot (basename src ++ ".ll")

def llOutO2 (src : String) : String := inBuildDir bench outRoot (basename src ++ ".O2.ll")

def linkedLl : String := inBuildDir bench outRoot "linked.ll"

def linkedLlO2 : String := inBuildDir bench outRoot "linked.O2.ll"

def stdinPath : Option String := (truthy bench.stdin).map (joinPath (workdir bench.toBenchRun))

def instrumentCmd : List String :=
  ["clang", "-O0"] ++ ccCompatFlags bench ++ ["-fprofile-instr-generate"] ++ bench.sources ++
    bench.libs ++ ["-o", profInst bench outRoot]

def profileCmd : List String :=
  [profInst bench outRoot] ++ resolveArgs bench.runArgs (inBuildDir bench outRoot "prof_out")

def mergeCmd : List String :=
  ["llvm-profdata", "merge", profraw bench outRoot, "-o", profdata bench outRoot]

def compileCmd (level src out : String) : List String :=
  ["clang", level] ++ ccCompatFlags bench ++
    ["-fprofile-instr-use=" ++ profdata bench outRoot, "--target=riscv64-unknown-linux-gnu",
      "-emit-llvm", "-S", src, "-o", out]

def llvmLinkCmd (llFiles : List String) (out : String) : List String :=
  ["llvm-link"] ++ llFiles ++ ["-S", "-o", out]

def cpCmd (llFile out : String) : List String := ["cp", llFile, out]

variable (cfg : Config)

def outLl : String := inBuildDir bench outRoot ("out_" ++ cfg.key ++ ".ll")

def stderrPath : String := inBuildDir bench outRoot ("schedstats_" ++ cfg.key ++ ".txt")

def outS : String := inBuildDir bench outRoot ("out_" ++ cfg.key ++ ".s")

def outO : String := inBuildDir bench outRoot ("out_" ++ cfg.key ++ ".o")

def mcaTxt : String := inBuildDir bench outRoot ("mca_" ++ cfg.key ++ ".txt")

def binary : String := runBin bench.toBenchRun outRoot cfg.key

def outfilePath : String := inBuildDir bench outRoot ("outfile_" ++ cfg.key ++ ".bin")

def optCmd : List String :=
  if cfg.key = "clang_o2" then
    ["opt", "-verify-each", linkedLlO2 bench outRoot, "-S", "-o", outLl bench outRoot cfg]
  else
    ["opt"] ++ (if cfg.key = "original" then [] else ["-verify-each"]) ++
      ["-load-pass-plugin", PLUGIN, "-passes=" ++ (passes cfg).getD "None", linkedLl bench outRoot,
        "-S", "-o", outLl bench outRoot cfg]

def llcAsmCmd : List String :=
  ["llc", "-march=riscv64", "-mcpu=" ++ MCPU, outLl bench outRoot cfg, "-o", outS bench outRoot cfg]

def llcObjCmd : List String :=
  ["llc", "-march=riscv64", "-mcpu=" ++ MCPU, outLl bench outRoot cfg, "-filetype=obj", "-o",
    outO bench outRoot cfg]

def mcaCmd : List String := ["llvm-mca", "-march=riscv64", "-mcpu=" ++ MCPU, outS bench outRoot cfg]

def linkCmd : List String :=
  ["clang"] ++ RISCV_LINK_FLAGS ++ [outO bench outRoot cfg] ++ bench.libs ++
    ["-o", binary bench outRoot cfg]

def qemuCmd : List String :=
  ["qemu-riscv64", binary bench outRoot cfg] ++
    resolveArgs bench.runArgs (outfilePath bench outRoot cfg)

end

/-! ### The worker -/

section

variable (numberText : Float64 → String) (hexdigest : List Char → String) (bench : BenchBuild)
  (outRoot : String) (env : Env)

/-- The environment of the profiling run. -/
def runEnv : Env := Function.update env "LLVM_PROFILE_FILE" (some (profraw bench outRoot))

/-- The environment in which a configuration is scheduled. -/
def cfgEnv (cfg : Config) : Env :=
  if schedStats cfg then Function.update env "SCHED_STATS" (some "1") else env

/-- `run_config`. -/
def runConfig (cfg : Config) : WorkerScript ConfigResult := do
  let opt ← sh (optCmd bench outRoot cfg) none (some (cfgEnv env cfg)) none true
  writeFile (stderrPath bench outRoot cfg) opt.stderr
  let _ ← sh (llcAsmCmd bench outRoot cfg) none none none true
  let _ ← sh (llcObjCmd bench outRoot cfg) none none none true
  let mca ← sh (mcaCmd bench outRoot cfg) none none none false
  writeFile (mcaTxt bench outRoot cfg) mca.stdout
  let _ ← sh (linkCmd bench outRoot cfg) none none none true
  let run ← sh (qemuCmd bench outRoot cfg) (some (workdir bench.toBenchRun)) none (stdinPath bench) false
  let asm ← readFile (outS bench outRoot cfg)
  let mcaDict ← .ofExcept (parseMca numberText mca.stdout)
  let stats ← readFile (stderrPath bench outRoot cfg)
  let stdout ← .ofExcept (normalizedStdout bench run.stdout)
  let output ←
    match truthy bench.outputFile with
    | none => pure none
    | some _ => sha256 hexdigest (outfilePath bench outRoot cfg)
  return {
    mca := mcaDict
    spillCount := countFrom "Spill".toList 0 asm
    schedStats := statsDict numberText (parseSchedStats (Csv.translate stats))
    exitCode := run.returncode
    stdoutSha256 := hexdigest stdout
    outputSha256 := output }

/-- The files of the sources linked to one, or the only one copied. -/
def linkFiles (llFiles : List String) (out : String) : WorkerScript Unit := do
  match llFiles with
  | [] => .raise "list index out of range"
  | [llFile] => let _ ← sh (cpCmd llFile out) none none none true
  | _ => let _ ← sh (llvmLinkCmd llFiles out) none none none true

/-- `run_one` up to the configurations. -/
def prepare : WorkerScript Unit := do
  let cwd := some (workdir bench.toBenchRun)
  let _ ← sh (instrumentCmd bench outRoot) cwd none none true
  let _ ← sh (profileCmd bench outRoot) cwd (some (runEnv bench outRoot env)) (stdinPath bench) false
  let _ ← sh (mergeCmd bench outRoot) none none none true
  let _ ← Script.collect (fun src => do
    let _ ← sh (compileCmd bench outRoot "-O0" src (llOut bench outRoot src)) cwd none none true
    sh (compileCmd bench outRoot "-O2" src (llOutO2 bench outRoot src)) cwd none none true) bench.sources
  linkFiles (bench.sources.map (llOut bench outRoot)) (linkedLl bench outRoot)
  linkFiles (bench.sources.map (llOutO2 bench outRoot)) (linkedLlO2 bench outRoot)

/-- `run_one`. -/
def runOne : WorkerScript StageA := do
  prepare bench outRoot env
  let outcomes ← Script.collect
    (fun cfg => (runConfig numberText hexdigest bench outRoot env cfg).attempt) CONFIGS
  return (CONFIGS.zip outcomes).map fun result => (result.1.key, recordOf result.2)

end

end TraceScheduler.Scripts.BenchWorker
