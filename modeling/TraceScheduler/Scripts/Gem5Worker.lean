import TraceScheduler.Library.Csv
import TraceScheduler.Library.Interleaving
import TraceScheduler.Library.TextFields
import TraceScheduler.Scripts.RunSuite

/-!
# The gem5 worker

The Stage B worker simulates the configurations of a benchmark in a thread pool with a thread for each.
The threads work on one file system.  Each has an output directory and an output file of its own, and
none writes to a binary.  If the simulator keeps to the files that it is given, the pool returns what a
loop over the configurations returns, and that is what each simulation returns by itself
(`simulate_pool`); `simulateAll` takes it from there.

The simulator is a parameter.  It goes from one state to the next, reading and writing files, until it
ends with a return code or cannot be run at all.
-/

namespace TraceScheduler.Scripts

open TraceScheduler.Text

/-! ### Files -/

inductive Node
  | dir
  | file (text : List Char)
  deriving DecidableEq

/-- The files and directories, by the path that the worker uses. -/
abbrev FileSystem := String → Option Node

/-- `os.path.join`. -/
def joinPath (a b : String) : String :=
  if b.toList.head? = some '/' then b
  else if a = "" ∨ a.toList.getLast? = some '/' then a ++ b
  else a ++ "/" ++ b

/-! ### What the worker is given -/

def REPO : String := "/work"

def GEM5 : String := "/gem5/build/RISCV/gem5.opt"

def GEM5_CONFIG : String := "/gem5/configs/deprecated/example/se.py"

def CPU_OPTS : List String := ["--cpu-type=MinorCPU", "--caches", "--l2cache"]

/-- What the worker looks at of a benchmark. -/
structure BenchRun where
  name : String
  dir : String
  runArgs : List String
  stdin : Option String

/-- The simulator, with states `P`. `ended` is the return code, or none if it could not be run. -/
structure Gem5 (P : Type) where
  init : P
  step : List String → String → P → FileSystem → P → FileSystem → Prop
  ended : P → Option (Option ℤ)

/-! ### The statistics file -/

/-- White space and a group of the characters, at least one of either. -/
def spacedGroup (group : Char → Bool) (text : List Char) : Option (List Char) :=
  let value := (text.dropWhile isSpace).takeWhile group
  if text.head?.any isSpace && !value.isEmpty then some value else none

/-- The group after the first occurrence of the label that has one. -/
def grab (label : List Char) : List Char → Option (List Char)
  | [] => none
  | c :: cs =>
      (if label <+: c :: cs then
        spacedGroup (fun d => d.isDigit || d == '.') ((c :: cs).drop label.length)
      else none).orElse fun _ => grab label cs

/-- The group after the first word that begins a line, ends in `numInsts` and has one. -/
def grabInsts : Bool → List Char → Option (List Char)
  | _, [] => none
  | lineStart, c :: cs =>
      let word := (c :: cs).takeWhile fun d => !isSpace d
      (if lineStart && decide ("numInsts".toList <:+ word) then
        spacedGroup isDecimal ((c :: cs).dropWhile fun d => !isSpace d)
      else none).orElse fun _ => grabInsts (c == '\n') cs

/-- A group as a number; `none` is a `ValueError`. -/
def groupValue (numberText : Float64 → String) : Option (List Char) → Option Scalar
  | none => some .none
  | some group => (float group).map fun x => .num (numberText x)

/-- `parse_stats`. A number is given as the text it is printed as. -/
def parseStats (numberText : Float64 → String) : Option Node → Option (Dict Scalar)
  | none => some [("numInsts", .none), ("numCycles", .none), ("ipc", .none), ("simSeconds", .none)]
  | some .dir => none
  | some (.file text) => do
      let text := Csv.translate text
      let numInsts ← groupValue numberText (grabInsts true text)
      let numCycles ← groupValue numberText (grab "system.cpu.numCycles".toList text)
      let ipc ← groupValue numberText (grab "system.cpu.ipc".toList text)
      let simSeconds ← groupValue numberText (grab "simSeconds".toList text)
      some [("numInsts", numInsts), ("numCycles", numCycles), ("ipc", ipc), ("simSeconds", simSeconds)]

/-! ### One simulation -/

/-- `resolve_args`. -/
def resolveArgs (args : List String) (outfile : String) : List String :=
  args.map fun a => a.replace "\x7boutfile\x7d" outfile

section

variable (bench : BenchRun) (outRoot key : String)

def buildDir : String := joinPath outRoot bench.name

def workdir : String := joinPath REPO bench.dir

def runBin : String := joinPath (buildDir bench outRoot) ("run_" ++ key)

def outfile : String := joinPath (buildDir bench outRoot) ("gem5_outfile_" ++ key ++ ".bin")

def outdir : String := joinPath (buildDir bench outRoot) ("m5out_" ++ key)

def gem5Cmd : List String :=
  let args := resolveArgs bench.runArgs (outfile bench outRoot key)
  [GEM5, "--outdir=" ++ outdir bench outRoot key, GEM5_CONFIG] ++ CPU_OPTS ++
    ["-c", runBin bench outRoot key] ++
    (if args.isEmpty then [] else ["-o", " ".intercalate args]) ++
    match bench.stdin with
    | none => []
    | some stdin => if stdin = "" then [] else ["-i", joinPath (workdir bench) stdin]

end

/-- How far a thread is. The result is none if it raises an exception. -/
inductive Simulation (P : Type)
  | start
  | makeDir
  | running (p : P)
  | exited (returncode : ℤ)
  | done (result : Option (Dict Scalar))

def missingBinary : Dict Scalar := [("error", .str "binary missing, run Stage A first")]

variable {P : Type}

section

variable (gem5 : Gem5 P) (numberText : Float64 → String) (bench : BenchRun) (outRoot : String)

/-- One step of `simulate`. The directory of the benchmark is there if the binary is, so that only the
output directory has to be made. -/
inductive SimulateStep (cfg : Config) : Simulation P → FileSystem → Simulation P → FileSystem → Prop
  | missing {fs : FileSystem} (habsent : fs (runBin bench outRoot cfg.key) = none) :
      SimulateStep cfg .start fs (.done (some missingBinary)) fs
  | found {fs : FileSystem} (hpresent : (fs (runBin bench outRoot cfg.key)).isSome = true) :
      SimulateStep cfg .start fs .makeDir fs
  | mkdir {fs : FileSystem} (habsent : fs (outdir bench outRoot cfg.key) = none) :
      SimulateStep cfg .makeDir fs (.running gem5.init)
        (Function.update fs (outdir bench outRoot cfg.key) (some .dir))
  | isDir {fs : FileSystem} (hdir : fs (outdir bench outRoot cfg.key) = some .dir) :
      SimulateStep cfg .makeDir fs (.running gem5.init) fs
  | notDir {fs : FileSystem} {text : List Char}
      (hfile : fs (outdir bench outRoot cfg.key) = some (.file text)) :
      SimulateStep cfg .makeDir fs (.done none) fs
  | gem5 {p p' : P} {fs fs' : FileSystem} (hgoes : gem5.ended p = none)
      (hstep : gem5.step (gem5Cmd bench outRoot cfg.key) (workdir bench) p fs p' fs') :
      SimulateStep cfg (.running p) fs (.running p') fs'
  | exit {p : P} {fs : FileSystem} {returncode : ℤ} (hended : gem5.ended p = some (some returncode)) :
      SimulateStep cfg (.running p) fs (.exited returncode) fs
  | raise {p : P} {fs : FileSystem} (hended : gem5.ended p = some none) :
      SimulateStep cfg (.running p) fs (.done none) fs
  | parse {returncode : ℤ} {fs : FileSystem} :
      SimulateStep cfg (.exited returncode) fs
        (.done ((parseStats numberText (fs (joinPath (outdir bench outRoot cfg.key) "stats.txt"))).map
          fun stats => stats ++ [("gem5_returncode", .num (toString returncode))])) fs

/-- What `simulate` returns when it has the files to itself, and the files it leaves. -/
def SimulatesTo (cfg : Config) (fs : FileSystem) (stats : Dict Scalar) (fs' : FileSystem) : Prop :=
  Alone (SimulateStep gem5 numberText bench outRoot) cfg .start fs (.done (some stats)) fs'

/-- The threads have all ended, and these are their results in the order of the configurations. -/
def Returns (threads : Config → Simulation P) (results : StageB) : Prop :=
  ∃ stats : String → Dict Scalar, (∀ cfg ∈ CONFIGS, threads cfg = .done (some (stats cfg.key))) ∧
    results = CONFIGS.map fun cfg => (cfg.key, stats cfg.key)

/-- `run_one`: the thread pool returns the results, and leaves the files. -/
def PoolReturns (fs : FileSystem) (results : StageB) (fs' : FileSystem) : Prop :=
  ∃ threads, Interleaved (SimulateStep gem5 numberText bench outRoot) CONFIGS (fun _ => .start) fs
    threads fs' ∧ Returns threads results

/-- The same with a loop over the configurations instead of the pool. -/
def LoopReturns (fs : FileSystem) (results : StageB) (fs' : FileSystem) : Prop :=
  ∃ threads, InTurn (SimulateStep gem5 numberText bench outRoot) CONFIGS (fun _ => .start) fs
    threads fs' ∧ Returns threads results

/-! ### What the simulator keeps to -/

/-- The files of a configuration: its output directory with what is in it, and its output file. -/
def Owns (cfg : Config) (path : String) : Prop :=
  path = outdir bench outRoot cfg.key ∨ (outdir bench outRoot cfg.key).toList ++ ['/'] <+: path.toList ∨
    path = outfile bench outRoot cfg.key

/-- Run for a configuration, the simulator writes only to the files of that configuration, and does not
look at those of the others. -/
structure Gem5.KeepsToItsFiles : Prop where
  writes : ∀ cfg ∈ CONFIGS, ∀ p fs p' fs',
    gem5.step (gem5Cmd bench outRoot cfg.key) (workdir bench) p fs p' fs' →
      ∀ path, ¬ Owns bench outRoot cfg path → fs' path = fs path
  reads : ∀ cfg ∈ CONFIGS, ∀ p fs p' fs',
    gem5.step (gem5Cmd bench outRoot cfg.key) (workdir bench) p fs p' fs' →
      ∀ other, LooksSame CONFIGS (Owns bench outRoot) cfg fs other →
        ∃ other', gem5.step (gem5Cmd bench outRoot cfg.key) (workdir bench) p other p' other' ∧
          LooksSame CONFIGS (Owns bench outRoot) cfg fs' other'

end

/-! ### Paths -/

variable {gem5 : Gem5 P} {numberText : Float64 → String} {bench : BenchRun} {outRoot : String}
  {cfg cfg' : Config} {path : String} {fs fs' : FileSystem} {results : StageB}

/-- What all paths in a directory begin with. -/
def below (dir : String) : List Char :=
  if dir = "" ∨ dir.toList.getLast? = some '/' then dir.toList else dir.toList ++ ['/']

theorem toList_joinPath {a b : String} (hb : b.toList.head? ≠ some '/') :
    (joinPath a b).toList = below a ++ b.toList := by
  rw [joinPath, below, if_neg hb]
  split
  · rw [String.toList_append]
  · simp

/-- The first component of a path. -/
def firstComponent (path : List Char) : List Char := path.takeWhile fun c => c != '/'

theorem firstComponent_eq_self {name : List Char} (hname : '/' ∉ name) : firstComponent name = name := by
  apply List.takeWhile_eq_self_iff.mpr
  intro c hc
  rw [bne_iff_ne]
  exact fun heq => hname (heq ▸ hc)

theorem firstComponent_append {name rest : List Char} (hname : '/' ∉ name) :
    firstComponent (name ++ '/' :: rest) = name := by
  rw [firstComponent, List.takeWhile_append_of_pos, List.takeWhile_cons_of_neg, List.append_nil]
  · decide
  · intro c hc
    rw [bne_iff_ne]
    exact fun heq => hname (heq ▸ hc)

/-- The names of the output directory and of the output file. -/
def ownNames (cfg : Config) : List (List Char) :=
  [("m5out_" ++ cfg.key).toList, ("gem5_outfile_" ++ cfg.key ++ ".bin").toList]

theorem slash_notMem_ownNames : ∀ cfg ∈ CONFIGS, ∀ name ∈ ownNames cfg, '/' ∉ name := by decide

theorem ownNames_disjoint : ∀ cfg ∈ CONFIGS, ∀ cfg' ∈ CONFIGS, ∀ name ∈ ownNames cfg,
    name ∈ ownNames cfg' → cfg = cfg' := by decide

theorem runBin_notMem_ownNames : ∀ cfg ∈ CONFIGS, '/' ∉ ("run_" ++ cfg.key).toList ∧
    ∀ cfg' ∈ CONFIGS, ("run_" ++ cfg.key).toList ∉ ownNames cfg' := by decide

/-- The files of a configuration are below the directory of the benchmark, under its own names. -/
theorem Owns.firstComponent (h : Owns bench outRoot cfg path) (hcfg : cfg ∈ CONFIGS) :
    ∃ rest, path.toList = below (buildDir bench outRoot) ++ rest ∧
      Scripts.firstComponent rest ∈ ownNames cfg := by
  have hdir : '/' ∉ ("m5out_" ++ cfg.key).toList :=
    slash_notMem_ownNames cfg hcfg _ List.mem_cons_self
  have hfile : '/' ∉ ("gem5_outfile_" ++ cfg.key ++ ".bin").toList :=
    slash_notMem_ownNames cfg hcfg _ (List.mem_cons_of_mem _ List.mem_cons_self)
  have houtdir : (outdir bench outRoot cfg.key).toList =
      below (buildDir bench outRoot) ++ ("m5out_" ++ cfg.key).toList := by
    apply toList_joinPath
    simp
  rcases h with rfl | ⟨rest, hrest⟩ | rfl
  · refine ⟨_, houtdir, ?_⟩
    rw [firstComponent_eq_self hdir]
    exact List.mem_cons_self
  · rw [houtdir] at hrest
    refine ⟨("m5out_" ++ cfg.key).toList ++ '/' :: rest, ?_, ?_⟩
    · rw [← hrest]
      simp
    · rw [firstComponent_append hdir]
      exact List.mem_cons_self
  · refine ⟨("gem5_outfile_" ++ cfg.key ++ ".bin").toList, toList_joinPath (by simp), ?_⟩
    rw [firstComponent_eq_self hfile]
    exact List.mem_cons_of_mem _ List.mem_cons_self

/-- No two configurations own a file both. -/
theorem owns_disjoint (hcfg : cfg ∈ CONFIGS) (hcfg' : cfg' ∈ CONFIGS)
    (h : Owns bench outRoot cfg path) (h' : Owns bench outRoot cfg' path) : cfg = cfg' := by
  obtain ⟨rest, hpath, hname⟩ := h.firstComponent hcfg
  obtain ⟨rest', hpath', hname'⟩ := h'.firstComponent hcfg'
  obtain rfl : rest = rest' := List.append_cancel_left (hpath.symm.trans hpath')
  exact ownNames_disjoint cfg hcfg cfg' hcfg' _ hname hname'

/-- No configuration owns a binary. -/
theorem not_owns_runBin (hcfg : cfg ∈ CONFIGS) (hcfg' : cfg' ∈ CONFIGS) :
    ¬ Owns bench outRoot cfg' (runBin bench outRoot cfg.key) := by
  intro h
  obtain ⟨rest, hpath, hname⟩ := h.firstComponent hcfg'
  have hbin : (runBin bench outRoot cfg.key).toList =
      below (buildDir bench outRoot) ++ ("run_" ++ cfg.key).toList := by
    apply toList_joinPath
    simp
  obtain rfl : ("run_" ++ cfg.key).toList = rest := List.append_cancel_left (hbin.symm.trans hpath)
  obtain ⟨hslash, hnames⟩ := runBin_notMem_ownNames cfg hcfg
  rw [firstComponent_eq_self hslash] at hname
  exact hnames cfg' hcfg' hname

/-- The statistics file is in the output directory. -/
theorem owns_stats (hcfg : cfg ∈ CONFIGS) :
    Owns bench outRoot cfg (joinPath (outdir bench outRoot cfg.key) "stats.txt") := by
  have hkey : '/' ∉ ("m5out_" ++ cfg.key).toList :=
    slash_notMem_ownNames cfg hcfg _ List.mem_cons_self
  have houtdir : (outdir bench outRoot cfg.key).toList =
      below (buildDir bench outRoot) ++ ("m5out_" ++ cfg.key).toList := by
    apply toList_joinPath
    simp
  have hnonempty : ("m5out_" ++ cfg.key).toList ≠ [] := by simp
  have hbelow : below (outdir bench outRoot cfg.key) = (outdir bench outRoot cfg.key).toList ++ ['/'] := by
    rw [below, if_neg]
    rw [← String.toList_eq_nil_iff, houtdir, List.getLast?_append_of_ne_nil _ hnonempty]
    rintro (hnil | hlast)
    · exact hnonempty (List.append_eq_nil_iff.mp hnil).2
    · exact hkey (List.mem_of_getLast? hlast)
  right
  left
  rw [toList_joinPath (by decide), hbelow]
  exact List.prefix_append _ _

/-! ### The threads keep to their files -/

/-- **The threads are separate**, if the simulator is. -/
theorem separate_simulate (h : gem5.KeepsToItsFiles bench outRoot) :
    Separate CONFIGS (Owns bench outRoot) (SimulateStep gem5 numberText bench outRoot) := by
  have hbin : ∀ cfg ∈ CONFIGS, Visible CONFIGS (Owns bench outRoot) cfg (runBin bench outRoot cfg.key) :=
    fun cfg hcfg cfg' hcfg' howns => absurd howns (not_owns_runBin hcfg hcfg')
  have hown : ∀ cfg ∈ CONFIGS, ∀ path, Owns bench outRoot cfg path →
      Visible CONFIGS (Owns bench outRoot) cfg path :=
    fun cfg hcfg path howns cfg' hcfg' howns' => owns_disjoint hcfg' hcfg howns' howns
  constructor
  · intro cfg hcfg cfg' hcfg' path hpath hpath'
    exact owns_disjoint hcfg hcfg' hpath hpath'
  · intro cfg hcfg l fs l' fs' hstep path hpath
    cases hstep with
    | mkdir habsent =>
      apply Function.update_of_ne
      rintro rfl
      exact hpath (.inl rfl)
    | gem5 hgoes hstep => exact h.writes cfg hcfg _ _ _ _ hstep path hpath
    | _ => rfl
  · intro cfg hcfg l fs l' fs' hstep other hother
    have hbin_eq := hother _ (hbin cfg hcfg)
    have hdir_eq := hother _ (hown cfg hcfg _ (.inl rfl))
    have hstats_eq := hother _ (hown cfg hcfg _ (owns_stats hcfg))
    cases hstep with
    | missing habsent => exact ⟨other, .missing (hbin_eq.trans habsent), hother⟩
    | found hpresent => exact ⟨other, .found (by rw [hbin_eq]; exact hpresent), hother⟩
    | mkdir habsent =>
      refine ⟨_, .mkdir (hdir_eq.trans habsent), ?_⟩
      intro path hpath
      by_cases hdir : path = outdir bench outRoot cfg.key
      · rw [hdir, Function.update_self, Function.update_self]
      · rw [Function.update_of_ne hdir, Function.update_of_ne hdir, hother path hpath]
    | isDir hdir => exact ⟨other, .isDir (hdir_eq.trans hdir), hother⟩
    | notDir hfile => exact ⟨other, .notDir (hdir_eq.trans hfile), hother⟩
    | gem5 hgoes hstep =>
      obtain ⟨other', hstep', hother'⟩ := h.reads cfg hcfg _ _ _ _ hstep other hother
      exact ⟨other', .gem5 hgoes hstep', hother'⟩
    | exit hended => exact ⟨other, .exit hended, hother⟩
    | raise hended => exact ⟨other, .raise hended, hother⟩
    | parse =>
      rw [← hstats_eq]
      exact ⟨other, .parse, hother⟩

/-! ### The pool -/

/-- Without a binary a simulation does not begin. -/
theorem simulate_missing {l : Simulation P}
    (h : Alone (SimulateStep gem5 numberText bench outRoot) cfg .start fs l fs')
    (habsent : fs (runBin bench outRoot cfg.key) = none) :
    (l = .start ∨ l = .done (some missingBinary)) ∧ fs' = fs := by
  induction h with
  | refl => exact ⟨.inl rfl, rfl⟩
  | tail _ hstep ih =>
    obtain ⟨hl, rfl⟩ := ih
    rcases hl with rfl | rfl
    · cases hstep with
      | missing _ => exact ⟨.inr rfl, rfl⟩
      | found hpresent =>
        rw [habsent] at hpresent
        cases hpresent
    · cases hstep

/-- **The thread pool returns what a loop returns**, and leaves the same files.  It returns what
`simulateAll` makes of the statistics that each simulation returns by itself, on the files as they were
at the beginning; the files of a configuration that is simulated are those that this simulation leaves,
and no other file changes. -/
theorem simulate_pool (h : gem5.KeepsToItsFiles bench outRoot) :
    (PoolReturns gem5 numberText bench outRoot fs results fs' ↔
      LoopReturns gem5 numberText bench outRoot fs results fs') ∧
    (PoolReturns gem5 numberText bench outRoot fs results fs' ↔
      ∃ stats, results = simulateAll (fun key => (fs (runBin bench outRoot key)).isSome) stats ∧
        (∀ cfg ∈ CONFIGS, (fs (runBin bench outRoot cfg.key)).isSome = true →
          ∃ left, SimulatesTo gem5 numberText bench outRoot cfg fs (stats cfg.key) left ∧
            ∀ path, Owns bench outRoot cfg path → fs' path = left path) ∧
        ∀ path, (∀ cfg ∈ CONFIGS, (fs (runBin bench outRoot cfg.key)).isSome = true →
          ¬ Owns bench outRoot cfg path) → fs' path = fs path) := by
  have hsep : Separate CONFIGS (Owns bench outRoot) (SimulateStep gem5 numberText bench outRoot) :=
    separate_simulate h
  have hnd : CONFIGS.Nodup := by decide
  constructor
  · exact exists_congr fun threads => and_congr_left fun _ => interleaved_iff_inTurn hsep hnd
  constructor
  · rintro ⟨threads, hpool, stats, hdone, rfl⟩
    have halone : ∀ cfg ∈ CONFIGS, ∃ left,
        SimulatesTo gem5 numberText bench outRoot cfg fs (stats cfg.key) left ∧
          ∀ path, Owns bench outRoot cfg path → fs' path = left path := by
      intro cfg hcfg
      obtain ⟨left, halone, hsame⟩ := hpool.alone hsep hcfg
      rw [hdone cfg hcfg] at halone
      exact ⟨left, halone, fun path hpath => (hsame path (hsep.visible_of_owns hcfg hpath)).symm⟩
    refine ⟨stats, ?_, fun cfg hcfg _ => halone cfg hcfg, ?_⟩
    · apply List.map_congr_left
      intro cfg hcfg
      split
      · rfl
      · rename_i hpresent
        obtain ⟨left, hleft, _⟩ := halone cfg hcfg
        rw [Option.not_isSome_iff_eq_none] at hpresent
        rcases (simulate_missing hleft hpresent).1 with hstart | hmissing
        · cases hstart
        · injection hmissing with hmissing
          rw [Option.some.inj hmissing]
          rfl
    · intro path hpath
      by_cases howned : ∃ cfg ∈ CONFIGS, Owns bench outRoot cfg path
      · obtain ⟨cfg, hcfg, howns⟩ := howned
        have habsent : fs (runBin bench outRoot cfg.key) = none := by
          rw [← Option.not_isSome_iff_eq_none]
          exact fun hpresent => hpath cfg hcfg hpresent howns
        obtain ⟨left, hleft, hfiles⟩ := halone cfg hcfg
        rw [hfiles path howns, (simulate_missing hleft habsent).2]
      · push Not at howned
        exact hpool.writes hsep howned
  · rintro ⟨stats, rfl, hsimulated, hkept⟩
    -- what every thread does by itself, with or without a binary
    have halone : ∀ cfg ∈ CONFIGS, ∃ left, SimulatesTo gem5 numberText bench outRoot cfg fs
        (if (fs (runBin bench outRoot cfg.key)).isSome then stats cfg.key else missingBinary) left ∧
          ∀ path, Owns bench outRoot cfg path → fs' path = left path := by
      intro cfg hcfg
      by_cases hpresent : (fs (runBin bench outRoot cfg.key)).isSome = true
      · rw [if_pos hpresent]
        exact hsimulated cfg hcfg hpresent
      · rw [if_neg hpresent]
        refine ⟨fs, Alone.refl.tail (.missing (Option.not_isSome_iff_eq_none.mp hpresent)), ?_⟩
        intro path hpath
        apply hkept
        intro cfg' hcfg' hpresent' hpath'
        exact hpresent (owns_disjoint hcfg' hcfg hpath' hpath ▸ hpresent')
    choose! left hleft hfiles using halone
    obtain ⟨threads, t, hturn, hdone, _, howned, hother⟩ :=
      hsep.inTurn (fun _ hcfg => hcfg) hnd hleft fun _ _ _ _ => rfl
    obtain rfl : t = fs' := by
      funext path
      by_cases hpath : ∃ cfg ∈ CONFIGS, Owns bench outRoot cfg path
      · obtain ⟨cfg, hcfg, hpath⟩ := hpath
        rw [howned cfg hcfg path hpath, hfiles cfg hcfg path hpath]
      · push Not at hpath
        rw [hother path hpath, hkept path fun cfg hcfg _ => hpath cfg hcfg]
    exact ⟨threads, hturn.interleaved fun _ hcfg => hcfg, fun key =>
      if (fs (runBin bench outRoot key)).isSome then stats key else missingBinary, hdone, rfl⟩

/-- **A simulation can raise an exception in the pool** only if it can by itself, and then it can. -/
theorem simulate_raises (h : gem5.KeepsToItsFiles bench outRoot) (hcfg : cfg ∈ CONFIGS) :
    (∃ threads fs', Interleaved (SimulateStep gem5 numberText bench outRoot) CONFIGS
        (fun _ => .start) fs threads fs' ∧ threads cfg = .done none) ↔
      ∃ left, Alone (SimulateStep gem5 numberText bench outRoot) cfg .start fs (.done none) left := by
  constructor
  · rintro ⟨threads, fs', hpool, hraised⟩
    obtain ⟨left, halone, _⟩ := hpool.alone (separate_simulate h) hcfg
    rw [hraised] at halone
    exact ⟨left, halone⟩
  · rintro ⟨left, halone⟩
    refine ⟨_, left, Alone.interleaved halone hcfg, ?_⟩
    exact Function.update_self cfg _ _

/-! ### A run -/

def quickNode : Node := .file "simSeconds 3 # of simulated time\nsystem.cpu.numCycles 7\n".toList

/-- A simulator that writes its statistics at once. -/
def quickGem5 : Gem5 Bool where
  init := false
  step cmd _ p fs p' fs' := p = false ∧ p' = true ∧ fs' = Function.update fs
    (joinPath (String.ofList ((cmd.getD 1 "").toList.drop 9)) "stats.txt") (some quickNode)
  ended p := if p then some (some 0) else none

def shaBenchRun : BenchRun := ⟨"sha", "benchmarks/mibench-master/security/sha", ["input_small.asc"], none⟩

/-- What the simulator is told of its output directory. -/
theorem drop_outdir (bench : BenchRun) (outRoot key : String) :
    String.ofList (((gem5Cmd bench outRoot key).getD 1 "").toList.drop 9) =
      outdir bench outRoot key := by
  have harg : (gem5Cmd bench outRoot key).getD 1 "" = "--outdir=" ++ outdir bench outRoot key := rfl
  have hlength : "--outdir=".toList.length = 9 := by decide
  rw [harg, String.toList_append, ← hlength, List.drop_left, String.ofList_toList]

theorem quickGem5_keepsToItsFiles (bench : BenchRun) (outRoot : String) :
    quickGem5.KeepsToItsFiles bench outRoot := by
  constructor
  · rintro cfg hcfg p fs p' fs' ⟨_, _, rfl⟩ path hpath
    rw [drop_outdir]
    apply Function.update_of_ne
    rintro rfl
    exact hpath (owns_stats hcfg)
  · rintro cfg hcfg p fs p' fs' ⟨hp, hp', rfl⟩ other hother
    refine ⟨_, ⟨hp, hp', rfl⟩, ?_⟩
    intro path hpath
    rw [drop_outdir]
    by_cases hstats : path = joinPath (outdir bench outRoot cfg.key) "stats.txt"
    · rw [hstats, Function.update_self, Function.update_self]
    · rw [Function.update_of_ne hstats, Function.update_of_ne hstats, hother path hpath]

/-- Numbers as the witness prints them. -/
def quickText (x : Float64) : String := if x = .finite 7 then "7.0" else "3.0"

def quickStats : Dict Scalar :=
  [("numInsts", .none), ("numCycles", .num "7.0"), ("ipc", .none), ("simSeconds", .num "3.0"),
    ("gem5_returncode", .num "0")]

/-- The files once the simulator has written its statistics. -/
def withStats (bench : BenchRun) (outRoot key : String) (fs : FileSystem) : FileSystem :=
  Function.update (Function.update fs (outdir bench outRoot key) (some .dir))
    (joinPath (outdir bench outRoot key) "stats.txt") (some quickNode)

/-- A simulation up to there. -/
theorem quickGem5_runs (hpresent : (fs (runBin bench outRoot cfg.key)).isSome = true)
    (habsent : fs (outdir bench outRoot cfg.key) = none) :
    Alone (SimulateStep quickGem5 quickText bench outRoot) cfg .start fs (.running true)
      (withStats bench outRoot cfg.key fs) := by
  have hwrites : quickGem5.step (gem5Cmd bench outRoot cfg.key) (workdir bench) false
      (Function.update fs (outdir bench outRoot cfg.key) (some .dir)) true
      (withStats bench outRoot cfg.key fs) :=
    ⟨rfl, rfl, by rw [drop_outdir, withStats]⟩
  exact ((Alone.refl.tail (.found hpresent)).tail (.mkdir habsent)).tail (.gem5 rfl hwrites)

/-- The end of a simulation. -/
theorem quickGem5_ends
    (hstats : fs (joinPath (outdir bench outRoot cfg.key) "stats.txt") = some quickNode) :
    Alone (SimulateStep quickGem5 quickText bench outRoot) cfg (.running true) fs
      (.done (some quickStats)) fs := by
  have hparse : parseStats quickText (fs (joinPath (outdir bench outRoot cfg.key) "stats.txt")) =
      some [("numInsts", .none), ("numCycles", .num "7.0"), ("ipc", .none),
        ("simSeconds", .num "3.0")] := by
    rw [hstats]
    decide +kernel
  have hlast : SimulateStep quickGem5 quickText bench outRoot cfg (.exited 0) fs
      (.done (some quickStats)) fs := by
    have hdone : SimulateStep quickGem5 quickText bench outRoot cfg (.exited 0) fs
        (.done ((parseStats quickText (fs (joinPath (outdir bench outRoot cfg.key) "stats.txt"))).map
          fun stats => stats ++ [("gem5_returncode", .num "0")])) fs := .parse
    rw [hparse] at hdone
    exact hdone
  exact (Alone.refl.tail (.exit rfl)).tail hlast

/-- Two binaries are there. -/
def twoBinaries : FileSystem := fun path =>
  if path = runBin shaBenchRun "/work/build/results" "local" ∨
      path = runBin shaBenchRun "/work/build/results" "global" then some (.file [])
  else none

/-- Two simulations at the same time: neither has ended when both have written their statistics. -/
theorem sha_simulate_pool : ∃ midway fs₁ threads fs',
    Interleaved (SimulateStep quickGem5 quickText shaBenchRun "/work/build/results") CONFIGS
      (fun _ => .start) twoBinaries midway fs₁ ∧
    midway ⟨"local", true⟩ = .running true ∧ midway ⟨"global", true⟩ = .running true ∧
    Interleaved (SimulateStep quickGem5 quickText shaBenchRun "/work/build/results") CONFIGS
      midway fs₁ threads fs' ∧
    Returns threads [("original", missingBinary), ("local", quickStats), ("global", quickStats),
      ("global_no_pressure", missingBinary), ("clang_o2", missingBinary)] ∧
    LoopReturns quickGem5 quickText shaBenchRun "/work/build/results" twoBinaries
      [("original", missingBinary), ("local", quickStats), ("global", quickStats),
        ("global_no_pressure", missingBinary), ("clang_o2", missingBinary)] fs' := by
  set fsL := withStats shaBenchRun "/work/build/results" "local" twoBinaries
  set fsG := withStats shaBenchRun "/work/build/results" "global" fsL
  have hlocal : Alone (SimulateStep quickGem5 quickText shaBenchRun "/work/build/results")
      ⟨"local", true⟩ .start twoBinaries (.running true) fsL :=
    quickGem5_runs (by decide +kernel) (by decide +kernel)
  have hglobal : Alone (SimulateStep quickGem5 quickText shaBenchRun "/work/build/results")
      ⟨"global", true⟩ .start fsL (.running true) fsG :=
    quickGem5_runs (by decide +kernel) (by decide +kernel)
  have hlocalEnds : Alone (SimulateStep quickGem5 quickText shaBenchRun "/work/build/results")
      ⟨"local", true⟩ (.running true) fsG (.done (some quickStats)) fsG :=
    quickGem5_ends (by decide +kernel)
  have hglobalEnds : Alone (SimulateStep quickGem5 quickText shaBenchRun "/work/build/results")
      ⟨"global", true⟩ (.running true) fsG (.done (some quickStats)) fsG :=
    quickGem5_ends (by decide +kernel)
  have hmissing : ∀ cfg : Config, fsG (runBin shaBenchRun "/work/build/results" cfg.key) = none →
      Alone (SimulateStep quickGem5 quickText shaBenchRun "/work/build/results") cfg .start fsG
        (.done (some missingBinary)) fsG := fun cfg habsent => Alone.refl.tail (.missing habsent)
  have hL : (⟨"local", true⟩ : Config) ∈ CONFIGS := by decide
  have hG : (⟨"global", true⟩ : Config) ∈ CONFIGS := by decide
  set midway : Config → Simulation Bool := Function.update
    (Function.update (fun _ => .start) ⟨"local", true⟩ (.running true)) ⟨"global", true⟩ (.running true)
  have hbegin : Interleaved (SimulateStep quickGem5 quickText shaBenchRun "/work/build/results") CONFIGS
      (fun _ => .start) twoBinaries (fun _ => .start) twoBinaries := .refl
  have hlocalRuns := hbegin.andAlone hL rfl hlocal
  have hmidway : Interleaved (SimulateStep quickGem5 quickText shaBenchRun "/work/build/results")
      CONFIGS (fun _ => .start) twoBinaries midway fsG := hlocalRuns.andAlone hG rfl hglobal
  -- both end, and the others find no binary
  have hO : (⟨"original", true⟩ : Config) ∈ CONFIGS := by decide
  have hN : (⟨"global_no_pressure", true⟩ : Config) ∈ CONFIGS := by decide
  have hC : (⟨"clang_o2", false⟩ : Config) ∈ CONFIGS := by decide
  have hresume : Interleaved (SimulateStep quickGem5 quickText shaBenchRun "/work/build/results") CONFIGS
      midway fsG midway fsG := .refl
  have hlocalDone := hresume.andAlone hL rfl hlocalEnds
  have hglobalDone := hlocalDone.andAlone hG rfl hglobalEnds
  have horiginal := hglobalDone.andAlone hO rfl (hmissing _ (by decide +kernel))
  have hnoPressure := horiginal.andAlone hN rfl (hmissing _ (by decide +kernel))
  set threads : Config → Simulation Bool := Function.update (Function.update (Function.update
    (Function.update (Function.update midway ⟨"local", true⟩ (.done (some quickStats)))
      ⟨"global", true⟩ (.done (some quickStats))) ⟨"original", true⟩ (.done (some missingBinary)))
    ⟨"global_no_pressure", true⟩ (.done (some missingBinary)))
    ⟨"clang_o2", false⟩ (.done (some missingBinary))
  have hend : Interleaved (SimulateStep quickGem5 quickText shaBenchRun "/work/build/results") CONFIGS
      midway fsG threads fsG := hnoPressure.andAlone hC rfl (hmissing _ (by decide +kernel))
  have hreturns : Returns threads [("original", missingBinary), ("local", quickStats),
      ("global", quickStats), ("global_no_pressure", missingBinary), ("clang_o2", missingBinary)] := by
    refine ⟨fun key => if key = "local" ∨ key = "global" then quickStats else missingBinary, ?_, rfl⟩
    simp only [CONFIGS, List.forall_mem_cons]
    exact ⟨rfl, rfl, rfl, rfl, rfl, by simp⟩
  exact ⟨midway, fsG, threads, fsG, hmidway, rfl, rfl, hend, hreturns,
    (simulate_pool (quickGem5_keepsToItsFiles _ _)).1.mp ⟨threads, hmidway.trans hend, hreturns⟩⟩

end TraceScheduler.Scripts
