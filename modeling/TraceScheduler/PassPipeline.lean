import TraceScheduler.PassBehaviour

/-!
# Pipelines of passes

The plugin registers three names.  `opt` hands them over one by one, in the order of its `-passes`
text, and runs what they stand for on each function, every pass on what the one before it left.  A
pass preserves no analysis, so the next one gets its profile, its dominator tree and its loops from
the function as it has become.

Legal edits compose, so a whole pipeline is one run of them (`runPasses_spec`), and what holds of any
such run holds of every pipeline.  The passes of `opt` itself are not modelled: where the plugin is used,
`mem2reg` comes first, and the function here is the one that it leaves.
-/

namespace TraceScheduler

open scoped List

/-- The passes the plugin can add. -/
inductive SchedulerPass
  | globalSchedulerPass (usePressure : Bool)
  | localSchedulerPass
  deriving DecidableEq, Repr

abbrev FunctionPassManager := List SchedulerPass

/-- The parsing callback of the plugin: whether it knows the name, and the passes to be run. -/
def pipelineParsingCallback (Name : String) (FPM : FunctionPassManager) :
    Bool × FunctionPassManager :=
  if Name = "globalSchedulerPass" then (true, FPM ++ [.globalSchedulerPass true])
  else if Name = "localSchedulerPass" then (true, FPM ++ [.localSchedulerPass])
  else if Name = "globalSchedulerPassNoPressure" then (true, FPM ++ [.globalSchedulerPass false])
  else (false, FPM)

/-- The names of a pipeline in turn; one that the callback does not know is an error. `opt` also knows the
names of its own passes, which are not among these. -/
def parsePassPipeline : List String → FunctionPassManager → Option FunctionPassManager
  | [], FPM => some FPM
  | Name :: names, FPM =>
      let r := pipelineParsingCallback Name FPM
      if r.1 then parsePassPipeline names r.2 else none

/-- The analyses of every function a pass may be run on. -/
structure FunctionAnalysisManager where
  profile : Function → Profile
  analyses : (F : Function) → Analyses F.cfg

section

variable (env : SchedEnv) (FAM : FunctionAnalysisManager)

def runPass (F : Function) : SchedulerPass → Option Function
  | .globalSchedulerPass usePressure =>
      (globalSchedulerPass usePressure env F (FAM.profile F) (FAM.analyses F)).map
        fun st => st.trail.current
  | .localSchedulerPass => (localSchedulerPass env F).map fun r => r.1.current

def runPasses (FPM : FunctionPassManager) (F : Function) : Option Function :=
  FPM.foldlM (runPass env FAM) F

end

/-! ### Names -/

/-- The names the callback knows. -/
def passNames : List String :=
  ["globalSchedulerPass", "localSchedulerPass", "globalSchedulerPassNoPressure"]

theorem pipelineParsingCallback_cases (Name : String) (FPM : FunctionPassManager) :
    (Name ∈ passNames ∧ ∃ pass, pipelineParsingCallback Name FPM = (true, FPM ++ [pass])) ∨
      (Name ∉ passNames ∧ pipelineParsingCallback Name FPM = (false, FPM)) := by
  rw [pipelineParsingCallback]
  split
  · rename_i hname
    exact .inl ⟨by simp [hname, passNames], _, rfl⟩
  · rename_i hglobal
    split
    · rename_i hname
      exact .inl ⟨by simp [hname, passNames], _, rfl⟩
    · rename_i hlocal
      split
      · rename_i hname
        exact .inl ⟨by simp [hname, passNames], _, rfl⟩
      · rename_i hnoPressure
        exact .inr ⟨by simp [passNames, hglobal, hlocal, hnoPressure], rfl⟩

/-- A pipeline is accepted when every name in it is known; each name adds one pass. -/
theorem parsePassPipeline_spec (names : List String) (FPM : FunctionPassManager) :
    ((∀ Name ∈ names, Name ∈ passNames) → ∃ passes : FunctionPassManager,
      parsePassPipeline names FPM = some (FPM ++ passes) ∧ passes.length = names.length) ∧
    ((∃ Name ∈ names, Name ∉ passNames) → parsePassPipeline names FPM = none) := by
  induction names generalizing FPM with
  | nil => exact ⟨fun _ => ⟨[], by simp [parsePassPipeline], rfl⟩, fun ⟨_, h, _⟩ => by cases h⟩
  | cons Name names ih =>
    rw [parsePassPipeline]
    rcases pipelineParsingCallback_cases Name FPM with ⟨hmem, pass, hcall⟩ | ⟨hmem, hcall⟩
    · rw [hcall]
      obtain ⟨hknown, hunknown⟩ := ih (FPM ++ [pass])
      constructor
      · intro hall
        obtain ⟨passes, hparse, hlen⟩ := hknown fun n hn => hall n (List.mem_cons_of_mem _ hn)
        exact ⟨pass :: passes, by simp [hparse], by simp [hlen]⟩
      · rintro ⟨n, hn, hnot⟩
        rcases List.mem_cons.mp hn with rfl | hn
        · exact absurd hmem hnot
        · exact hunknown ⟨n, hn, hnot⟩
    · rw [hcall]
      constructor
      · intro hall
        exact absurd (hall Name List.mem_cons_self) hmem
      · intro _
        rfl

/-! ### A pipeline is a run of legal edits -/

/-- In some function with this code, LLVM was asked about the instruction and called it safe. -/
def FunctionAnalysisManager.Speculates (FAM : FunctionAnalysisManager) (F : Function)
    (i : InstrId) : Prop :=
  ∃ F₀, SameCode F F₀ ∧ ∃ F₁ t, (FAM.analyses F₀).isSafeToSpeculativelyExecute F₁ i t = true

variable {F F' : Function} {env : SchedEnv} {FAM : FunctionAnalysisManager}

/-- One pass. -/
theorem runPass_spec (hF : Schedulable F) (env : SchedEnv) (FAM : FunctionAnalysisManager)
    (pass : SchedulerPass) : ∃ F', runPass env FAM F pass = some F' ∧
      Motions (fun i _ _ => FAM.Speculates F i) F F' := by
  cases pass with
  | globalSchedulerPass usePressure =>
    obtain ⟨st, _, _, traces, hrun, hspec⟩ := globalSchedulerPass_spec hF usePressure env
      (FAM.profile F) (FAM.analyses F)
    refine ⟨st.trail.current, by rw [runPass, hrun]; rfl, hspec.steps.current.mono ?_⟩
    rintro i src dst ⟨_, _, _, _, _, _, _, hsafe⟩
    exact ⟨F, .refl F, hsafe⟩
  | localSchedulerPass =>
    obtain ⟨tr, peak, hrun, hsteps⟩ := localSchedulerPass_spec hF.wf env
    refine ⟨tr.current, by rw [runPass, hrun]; rfl, hsteps.current.mono ?_⟩
    intro _ _ _ hfalse
    exact hfalse.elim

theorem Motions.schedulable {P : InstrId → BasicBlock → BasicBlock → Prop} (hF : Schedulable F)
    (h : Motions P F F') : Schedulable F' :=
  ⟨h.wellFormed hF.wf, h.ssa hF.wf hF.ssa⟩

/-- **A pipeline ends**, and amounts to one run of legal edits. -/
theorem runPasses_spec (hF : Schedulable F) (env : SchedEnv) (FAM : FunctionAnalysisManager)
    (FPM : FunctionPassManager) : ∃ F', runPasses env FAM FPM F = some F' ∧
      Motions (fun i _ _ => FAM.Speculates F i) F F' := by
  induction FPM generalizing F with
  | nil => exact ⟨F, rfl, .refl⟩
  | cons pass FPM ih =>
    obtain ⟨F₁, hpass, hmotions₁⟩ := runPass_spec hF env FAM pass
    obtain ⟨F', hrest, hmotions⟩ := ih (hmotions₁.schedulable hF)
    refine ⟨F', ?_, hmotions₁.trans (hmotions.mono ?_)⟩
    · rw [runPasses, List.foldlM_cons, hpass]
      exact hrest
    · -- the passes never change the code, so what LLVM was asked is about this function
      rintro i _ _ ⟨F₀, hcode, hsafe⟩
      exact ⟨F₀, hmotions₁.sameCode.trans hcode, hsafe⟩

/-! ### What every pipeline keeps -/

variable {V W : Type*} {sem : Semantics V W} {args : ℕ → V}

/-- **Every pipeline of the plugin's passes is correct.** Names the plugin knows, in any order and
number, are accepted and run to the end.  What is left is well-formed SSA with the same code, anchors
and control-flow graph; every instruction is where it was or in a block that dominates it; and a call
without undefined behaviour goes on showing the same, in both directions. -/
theorem passPipeline_correct (hF : Schedulable F) (env : SchedEnv) (FAM : FunctionAnalysisManager)
    {names : List String} (hnames : ∀ Name ∈ names, Name ∈ passNames)
    (hsafe : ∀ i, FAM.Speculates F i →
      ∀ values, (sem.eval i (operandValues F sem args values i)).isSome)
    {w : W} (hub : NoUndefinedBehaviour F sem args w) :
    ∃ FPM F', parsePassPipeline names [] = some FPM ∧ FPM.length = names.length ∧
      runPasses env FAM FPM F = some F' ∧ Schedulable F' ∧ KeepsAnchors F F' ∧
      (∀ i b b', i ∈ F.body b → i ∈ F'.body b' →
        b' = b ∨ (F.cfg.StrictlyDominates b' b ∧ F.cfg.Reachable b)) ∧
      NoUndefinedBehaviour F' sem args w ∧
      (∀ n, ∃ m, (runSteps F' sem args w m).observe = (runSteps F sem args w n).observe) ∧
      ∀ n, ∃ m, (runSteps F sem args w m).observe = (runSteps F' sem args w n).observe := by
  obtain ⟨FPM, hparse, hlen⟩ := (parsePassPipeline_spec names []).1 hnames
  rw [List.nil_append] at hparse
  obtain ⟨F', hrun, hmotions⟩ := runPasses_spec hF env FAM FPM
  have hsched : Rescheduled (FAM.Speculates F) F F' :=
    hmotions.rescheduled hF.wf hF.ssa fun _ _ _ h => h
  refine ⟨FPM, F', hparse, hlen, hrun, hmotions.schedulable hF, hmotions.keepsAnchors hF.wf, ?_,
    hsched.behaviour hsafe hub⟩
  intro i b b' hb hb'
  exact hmotions.dominates hF.wf hb hb'

open Classical in
/-- The dominator tree of any function. -/
noncomputable def exactDominatorTree (F : Function) : DominatorTree F.cfg where
  dominates a b := decide (F.cfg.Dominates a b)
  dominatesInst F' d u := decide (F'.InstDominates d u)
  dominates_iff _ _ := decide_eq_true_iff
  dominatesInst_iff _ _ _ _ _ _ := decide_eq_true_iff

/-- Everything is likely, nothing is in a loop, and nothing traps. -/
noncomputable def straightAnalyses : FunctionAnalysisManager where
  profile _ := certain
  analyses F := ⟨exactDominatorTree F, fun _ => false, fun _ => none, fun _ _ _ => true⟩

theorem twoBlocks_passPipeline : ∃ FPM F',
    parsePassPipeline ["localSchedulerPass", "globalSchedulerPass", "localSchedulerPass"] [] =
      some FPM ∧
    runPasses ⟨none, none, false⟩ straightAnalyses FPM twoBlocks = some F' ∧
      KeepsAnchors twoBlocks F' := by
  have hnames : ∀ Name ∈ ["localSchedulerPass", "globalSchedulerPass", "localSchedulerPass"],
      Name ∈ passNames := by decide
  obtain ⟨FPM, F', hparse, _, hrun, _, hkeeps, _⟩ := passPipeline_correct
    ⟨twoBlocks_wellFormed, twoBlocks_ssa⟩ ⟨none, none, false⟩ straightAnalyses hnames
    (fun _ _ _ => rfl) counting_noUndefinedBehaviour
  exact ⟨FPM, F', hparse, hrun, hkeeps⟩

end TraceScheduler
