import TraceScheduler.Library.TextFields
import TraceScheduler.HoistStatistics

/-!
# The statistics lines and their parser

With statistics on, `globalSchedulerPass` prints five `SCHED_STATS` lines for each function:
`identifyTraces` three, `emitHoistStats` and `emitPeakLivePressure` one each.  `parse_sched_stats` reads
the standard error of a whole compilation, with the lines of all functions and whatever else was printed.

The parser adds up the values of a key (`IsLog.totals`) and keeps the histograms.  That is what the
counters ask for.  The peak live pressure is a maximum over the function, and the peak of the module would
be the maximum of these; the sum is that only if at most one function has a peak at all.
-/

namespace TraceScheduler.Scripts

open TraceScheduler.Text

/-! ### What is printed -/

/-- What the pass has counted when a function is done. -/
structure FunctionStats where
  traceLengths : List ℕ
  traceIdStats : TraceIdStats
  hoistStats : HoistStats
  peakLivePressure : ℕ
  deriving DecidableEq

/-- The statistics of a run of the pass. -/
def functionStats (traces : TraceState) (st : PassState) : FunctionStats :=
  ⟨traces.traces.map List.length, traces.stats, st.hoistStats, st.peakLivePressure⟩

/-- The pass has processed some function with these statistics. -/
def FunctionStats.OfPass (s : FunctionStats) : Prop :=
  ∃ (F : Function) (A : Analyses F.cfg) (usePressure : Bool) (env : SchedEnv) (profile : Profile)
    (traces : TraceState) (st : PassState), F.WellFormed ∧ schedStatsEnabled env = true ∧
      identifyTraces F profile (getTraceThreshold env) (schedStatsEnabled env) = some traces ∧
      globalSchedulerPass usePressure env F profile A = some st ∧ s = functionStats traces st

/-- One `key=value` of a statistics line: a number, or the text of a histogram. -/
inductive Field
  | number (key : String) (n : ℕ)
  | hist (key : String) (value : List Char)

def Field.text : Field → List Char
  | .number key n => key.toList ++ '=' :: Nat.toDigits 10 n
  | .hist key value => key.toList ++ '=' :: value

/-- The number of traces of each length, by length. -/
def lenHist (traceLengths : List ℕ) : List (ℕ × ℕ) :=
  (traceLengths.dedup.insertionSort (· ≤ ·)).map fun len => (len, traceLengths.count len)

def histText (hist : List (ℕ × ℕ)) : List Char :=
  [','].intercalate (hist.map fun kv => Nat.toDigits 10 kv.1 ++ ':' :: Nat.toDigits 10 kv.2)

namespace FunctionStats

variable (s : FunctionStats)

/-- The lines of `identifyTraces`. -/
def identifyTracesFields : List (List Field) :=
  [[.number "trace_count" s.traceLengths.length],
    [.hist "trace_len_hist" (histText (lenHist s.traceLengths))],
    [.number "edges_above_threshold" s.traceIdStats.edgesAboveThreshold,
      .number "edges_below_threshold" s.traceIdStats.edgesBelowThreshold,
      .number "backedges_skipped" s.traceIdStats.backedgesSkipped]]

def emitHoistStats : List Field :=
  [.number "hoist_candidates" s.hoistStats.candidates,
    .number "hoist_done" s.hoistStats.done,
    .number "blocked_dominance" s.hoistStats.blockedDominance,
    .number "blocked_loop" s.hoistStats.blockedLoop,
    .number "blocked_operand" s.hoistStats.blockedOperand,
    .number "blocked_unsafe_speculation" s.hoistStats.blockedUnsafe,
    .number "blocked_pressure" s.hoistStats.blockedPressure]

def emitPeakLivePressure : List Field := [.number "peak_live_pressure" s.peakLivePressure]

/-- The fields of all lines for a function. -/
def lines : List (List Field) :=
  s.identifyTracesFields ++ [s.emitHoistStats, s.emitPeakLivePressure]

end FunctionStats

/-- A line as it is printed. -/
def statsLine (fields : List Field) : List Char :=
  unfields "SCHED_STATS".toList (fields.map Field.text)

/-! ### The parser -/

/-- The dictionary of sums, and the histograms under `_hist_raw` (no entry if there are none). -/
structure ParsedStats where
  totals : List Char → Option Float64
  histLines : List (List Char)

/-- One `key=value`; what is neither a number nor a histogram is passed over. -/
def parseToken (acc : ParsedStats) (tok : List Char) : ParsedStats :=
  match splitOnce '=' tok with
  | none => acc
  | some (k, v) =>
      if "_hist".toList <:+ k then { acc with histLines := acc.histLines ++ [k ++ '=' :: v] }
      else
        match float v with
        | none => acc
        | some num =>
            { acc with
              totals := Function.update acc.totals k
                (some (((acc.totals k).getD (.finite 0)).add num)) }

def parseLine (acc : ParsedStats) (line : List Char) : ParsedStats :=
  if "SCHED_STATS".toList <+: line then (splitFields line).tail.foldl parseToken acc else acc

/-- `parse_sched_stats`. -/
def parseSchedStats (text : List Char) : ParsedStats :=
  (splitlines text).foldl parseLine ⟨fun _ => none, []⟩

/-! ### Reading a field back -/

/-- A key that a statistics line can hold. -/
def KeyOk (key : String) : Prop :=
  key.toList ≠ [] ∧ ∀ c ∈ key.toList, c ≠ '=' ∧ isSpace c = false

instance (key : String) : Decidable (KeyOk key) :=
  @instDecidableAnd _ _ _ (List.decidableBAll (fun c => c ≠ '=' ∧ isSpace c = false) key.toList)

/-- A field that the parser takes for what it is. -/
def Field.Ok : Field → Prop
  | .number key _ => KeyOk key ∧ ¬ "_hist".toList <:+ key.toList
  | .hist key value => KeyOk key ∧ "_hist".toList <:+ key.toList ∧ ∀ c ∈ value, isSpace c = false

/-- What a field adds to the result. -/
def Field.record (acc : ParsedStats) : Field → ParsedStats
  | .number key n =>
      { acc with
        totals := Function.update acc.totals key.toList
          (some (((acc.totals key.toList).getD (.finite 0)).add (.finite n))) }
  | .hist key value => { acc with histLines := acc.histLines ++ [key.toList ++ '=' :: value] }

section

variable {f : Field} {fields : List Field} {acc : ParsedStats}

theorem isSpace_of_mem_toDigits {n : ℕ} {c : Char} (hc : c ∈ Nat.toDigits 10 n) :
    isSpace c = false :=
  isSpace_of_isDigit (Nat.isDigit_of_mem_toDigits (by decide) (by decide) hc)

theorem Field.Ok.isField (h : f.Ok) : IsField f.text := by
  have hvalue : ∀ {key : String} {value : List Char}, KeyOk key →
      (∀ c ∈ value, isSpace c = false) → IsField (key.toList ++ '=' :: value) := by
    intro key value hkey hvalue
    refine ⟨by simp, ?_⟩
    intro c hc
    rcases List.mem_append.mp hc with hc | hc
    · exact (hkey.2 c hc).2
    · rcases List.mem_cons.mp hc with rfl | hc
      · decide
      · exact hvalue c hc
  cases f with
  | number key n => exact hvalue h.1 fun c hc => isSpace_of_mem_toDigits hc
  | hist key value => exact hvalue h.1 h.2.2

theorem parseToken_text (h : f.Ok) : parseToken acc f.text = f.record acc := by
  cases f with
  | number key n =>
    rw [Field.text, parseToken, splitOnce_append fun hc => (h.1.2 _ hc).1 rfl]
    simp only [h.2, if_false, float_toDigits, Field.record]
  | hist key value =>
    rw [Field.text, parseToken, splitOnce_append fun hc => (h.1.2 _ hc).1 rfl]
    simp only [h.2.1, if_true, Field.record]

theorem isField_name : IsField "SCHED_STATS".toList := by decide

theorem parseLine_statsLine (h : ∀ f ∈ fields, f.Ok) :
    parseLine acc (statsLine fields) = fields.foldl Field.record acc := by
  have hstarts : "SCHED_STATS".toList <+: statsLine fields := List.prefix_append _ _
  have hsplit : splitFields (statsLine fields) = "SCHED_STATS".toList :: fields.map Field.text := by
    apply splitFields_unfields
    · exact isField_name
    · intro text htext
      obtain ⟨f, hf, rfl⟩ := List.mem_map.mp htext
      exact (h f hf).isField
  rw [parseLine, if_pos hstarts, hsplit, List.tail_cons]
  clear hstarts hsplit
  induction fields generalizing acc with
  | nil => rfl
  | cons f fields ih =>
    rw [List.map_cons, List.foldl_cons, List.foldl_cons, parseToken_text (h f List.mem_cons_self)]
    exact ih fun g hg => h g (List.mem_cons_of_mem _ hg)

/-! ### All fields -/

/-- The number of a field with this key. -/
def Field.numberOf (k : String) : Field → Option ℕ
  | .number key n => if key = k then some n else none
  | .hist _ _ => none

/-- The line of a histogram. -/
def Field.histOf : Field → Option (List Char)
  | .number _ _ => none
  | .hist key value => some (Field.hist key value).text

/-- Adding numbers to an entry that may be missing. -/
def addAll : Option Float64 → List ℕ → Option Float64
  | entry, [] => entry
  | entry, n :: ns => addAll (some ((entry.getD (.finite 0)).add (.finite n))) ns

theorem addAll_some (q : ℚ) (ns : List ℕ) :
    addAll (some (.finite q)) ns = some (.finite (q + ns.sum)) := by
  induction ns generalizing q with
  | nil => simp [addAll]
  | cons n ns ih =>
    rw [addAll, Option.getD_some, Float64.add, ih, List.sum_cons, Nat.cast_add, add_assoc]

theorem addAll_none {ns : List ℕ} (hne : ns ≠ []) :
    addAll none ns = some (.finite (ns.sum : ℕ)) := by
  obtain ⟨n, ns, rfl⟩ := List.exists_cons_of_ne_nil hne
  rw [addAll, Option.getD_none, Float64.add, addAll_some, List.sum_cons, Nat.cast_add, zero_add]

theorem foldl_record_totals (k : String) :
    (fields.foldl Field.record acc).totals k.toList =
      addAll (acc.totals k.toList) (fields.filterMap (Field.numberOf k)) := by
  induction fields generalizing acc with
  | nil => rfl
  | cons f fields ih =>
    rw [List.foldl_cons, ih]
    cases f with
    | hist key value => rfl
    | number key n =>
      by_cases hkey : key = k
      · subst hkey
        rw [List.filterMap_cons_some (b := n) (by simp [Field.numberOf]), addAll, Field.record]
        dsimp only
        rw [Function.update_self]
      · have hne : k.toList ≠ key.toList := fun h => hkey (String.toList_inj.mp h).symm
        rw [List.filterMap_cons_none (by simp [Field.numberOf, hkey]), Field.record]
        dsimp only
        rw [Function.update_of_ne hne]

theorem foldl_record_histLines :
    (fields.foldl Field.record acc).histLines = acc.histLines ++ fields.filterMap Field.histOf := by
  induction fields generalizing acc with
  | nil => rw [List.foldl_nil, List.filterMap_nil, List.append_nil]
  | cons f fields ih =>
    rw [List.foldl_cons, ih]
    cases f with
    | number key n => rfl
    | hist key value =>
      have hcons : (Field.hist key value :: fields).filterMap Field.histOf =
          (Field.hist key value).text :: fields.filterMap Field.histOf := rfl
      rw [hcons, Field.text, Field.record, List.append_assoc, List.singleton_append]

/-! ### The lines of a function -/

theorem isSpace_of_mem_histText {hist : List (ℕ × ℕ)} {c : Char} (hc : c ∈ histText hist) :
    isSpace c = false := by
  have hentry : ∀ kv : ℕ × ℕ, c ∈ Nat.toDigits 10 kv.1 ++ ':' :: Nat.toDigits 10 kv.2 →
      isSpace c = false := by
    intro kv hc
    rcases List.mem_append.mp hc with hc | hc
    · exact isSpace_of_mem_toDigits hc
    · rcases List.mem_cons.mp hc with rfl | hc
      · decide
      · exact isSpace_of_mem_toDigits hc
  induction hist with
  | nil => cases hc
  | cons kv hist ih =>
    rw [histText, List.map_cons] at hc
    by_cases hnil : hist = []
    · rw [hnil, List.map_nil, List.intercalate_singleton] at hc
      exact hentry kv hc
    · rw [List.intercalate_cons_of_ne_nil (by simpa using hnil), List.mem_append, List.mem_append,
        List.mem_singleton] at hc
      rcases hc with (hc | hc) | hc
      · exact hentry kv hc
      · rw [hc]
        decide
      · exact ih hc

/-- **Every field the pass prints is read as it is meant.** -/
theorem lines_ok (s : FunctionStats) : ∀ line ∈ s.lines, ∀ f ∈ line, f.Ok := by
  simp only [FunctionStats.lines, FunctionStats.identifyTracesFields, FunctionStats.emitHoistStats,
    FunctionStats.emitPeakLivePressure, List.cons_append, List.nil_append, List.forall_mem_cons,
    List.not_mem_nil, false_imp_iff, implies_true, and_true, Field.Ok]
  refine ⟨by decide, ⟨by decide, by decide, fun c hc => isSpace_of_mem_histText hc⟩, ?_⟩
  decide

end

/-- The counters, which add up over the functions. -/
def counters : List (String × (FunctionStats → ℕ)) :=
  [("trace_count", fun s => s.traceLengths.length),
    ("edges_above_threshold", fun s => s.traceIdStats.edgesAboveThreshold),
    ("edges_below_threshold", fun s => s.traceIdStats.edgesBelowThreshold),
    ("backedges_skipped", fun s => s.traceIdStats.backedgesSkipped),
    ("hoist_candidates", fun s => s.hoistStats.candidates),
    ("hoist_done", fun s => s.hoistStats.done),
    ("blocked_dominance", fun s => s.hoistStats.blockedDominance),
    ("blocked_loop", fun s => s.hoistStats.blockedLoop),
    ("blocked_operand", fun s => s.hoistStats.blockedOperand),
    ("blocked_unsafe_speculation", fun s => s.hoistStats.blockedUnsafe),
    ("blocked_pressure", fun s => s.hoistStats.blockedPressure)]

/-- Each key stands once among the fields of a function. -/
theorem numbers_of_key {c : String × (FunctionStats → ℕ)}
    (hc : c ∈ ("peak_live_pressure", FunctionStats.peakLivePressure) :: counters)
    (s : FunctionStats) : s.lines.flatten.filterMap (Field.numberOf c.1) = [c.2 s] := by
  simp only [counters, List.mem_cons, List.not_mem_nil, or_false] at hc
  rcases hc with rfl | rfl | rfl | rfl | rfl | rfl | rfl | rfl | rfl | rfl | rfl | rfl
  all_goals rfl

/-! ### A whole compilation -/

/-- What a compilation prints, line by line: the statistics of the functions in their order, and any other
lines before, between and after. -/
structure IsLog (stats : List FunctionStats) (log : List (List Char)) : Prop where
  statsLines : log.filter (fun line => decide ("SCHED_STATS".toList <+: line)) =
    (stats.flatMap FunctionStats.lines).map statsLine
  others : ∀ line ∈ log, ¬ "SCHED_STATS".toList <+: line → ∀ c ∈ line, isLineBreak c = false

/-- What the statistics of a module should be. -/
structure ParsedStats.Agrees (r : ParsedStats) (stats : List FunctionStats) : Prop where
  counters : ∀ c ∈ counters, r.totals c.1.toList = some (.finite ((stats.map c.2).sum : ℕ))
  peak : r.totals "peak_live_pressure".toList =
    some (.finite ((stats.map FunctionStats.peakLivePressure).foldr max 0 : ℕ))
  histograms : r.histLines = stats.map fun s =>
    (Field.hist "trace_len_hist" (histText (lenHist s.traceLengths))).text

section

variable {stats : List FunctionStats} {log : List (List Char)}

theorem statsLine_no_break {fields : List Field} (h : ∀ f ∈ fields, f.Ok) :
    ∀ c ∈ statsLine fields, isLineBreak c = false := by
  intro c hc
  rw [statsLine, unfields, List.mem_append, List.mem_flatMap] at hc
  rcases hc with hc | ⟨text, htext, hc⟩
  · exact isLineBreak_of_not_isSpace (isField_name.2 c hc)
  · rcases List.mem_cons.mp hc with rfl | hc
    · decide
    · obtain ⟨f, hf, rfl⟩ := List.mem_map.mp htext
      exact isLineBreak_of_not_isSpace ((h f hf).isField.2 c hc)

theorem allLines_ok : ∀ fields ∈ stats.flatMap FunctionStats.lines, ∀ f ∈ fields, f.Ok := by
  intro fields hfields
  obtain ⟨s, _, hs⟩ := List.mem_flatMap.mp hfields
  exact lines_ok s fields hs

theorem IsLog.splitlines (h : IsLog stats log) : splitlines (unlines log) = log := by
  apply splitlines_unlines
  intro line hline
  by_cases hstarts : "SCHED_STATS".toList <+: line
  · have hmem : line ∈ (stats.flatMap FunctionStats.lines).map statsLine := by
      rw [← h.statsLines, List.mem_filter]
      exact ⟨hline, decide_eq_true hstarts⟩
    obtain ⟨fields, hfields, rfl⟩ := List.mem_map.mp hmem
    exact statsLine_no_break (allLines_ok fields hfields)
  · exact h.others line hline hstarts

theorem foldl_parseLine_statsLine {lines : List (List Field)} {acc : ParsedStats}
    (h : ∀ fields ∈ lines, ∀ f ∈ fields, f.Ok) :
    (lines.map statsLine).foldl parseLine acc = lines.flatten.foldl Field.record acc := by
  induction lines generalizing acc with
  | nil => rfl
  | cons fields lines ih =>
    rw [List.map_cons, List.foldl_cons, parseLine_statsLine (h fields List.mem_cons_self),
      List.flatten_cons, List.foldl_append, ih fun g hg => h g (List.mem_cons_of_mem _ hg)]

/-- **The parser reads the fields of all functions in turn**, and nothing else. -/
theorem IsLog.parse (h : IsLog stats log) : parseSchedStats (unlines log) =
    (stats.flatMap FunctionStats.lines).flatten.foldl Field.record ⟨fun _ => none, []⟩ := by
  have hskip : (fun acc line => if decide ("SCHED_STATS".toList <+: line) = true then
      parseLine acc line else acc) = parseLine := by
    funext acc line
    rw [parseLine]
    by_cases hstarts : "SCHED_STATS".toList <+: line
    · simp only [hstarts, decide_true, if_true]
    · simp only [hstarts, decide_false, Bool.false_eq_true, if_false]
  rw [parseSchedStats, h.splitlines, ← foldl_parseLine_statsLine allLines_ok, ← h.statsLines,
    List.foldl_filter, hskip]

theorem filterMap_lines {α : Type*} {g : Field → Option α} {value : FunctionStats → α}
    (hg : ∀ s : FunctionStats, s.lines.flatten.filterMap g = [value s]) :
    (stats.flatMap FunctionStats.lines).flatten.filterMap g = stats.map value := by
  induction stats with
  | nil => rfl
  | cons s stats ih =>
    rw [List.flatMap_cons, List.flatten_append, List.filterMap_append, ih, hg, List.map_cons,
      List.singleton_append]

/-- A key that each function prints once is summed. -/
theorem IsLog.totals (h : IsLog stats log) (hne : stats ≠ [])
    {c : String × (FunctionStats → ℕ)}
    (hc : c ∈ ("peak_live_pressure", FunctionStats.peakLivePressure) :: counters) :
    (parseSchedStats (unlines log)).totals c.1.toList =
      some (.finite ((stats.map c.2).sum : ℕ)) := by
  rw [h.parse, foldl_record_totals, filterMap_lines (numbers_of_key hc)]
  exact addAll_none (by simpa using hne)

theorem IsLog.totals_peak (h : IsLog stats log) (hne : stats ≠ []) :
    (parseSchedStats (unlines log)).totals "peak_live_pressure".toList =
      some (.finite ((stats.map FunctionStats.peakLivePressure).sum : ℕ)) :=
  h.totals (c := ("peak_live_pressure", FunctionStats.peakLivePressure)) hne List.mem_cons_self

theorem IsLog.histLines (h : IsLog stats log) :
    (parseSchedStats (unlines log)).histLines = stats.map fun s =>
      (Field.hist "trace_len_hist" (histText (lenHist s.traceLengths))).text := by
  rw [h.parse, foldl_record_histLines, List.nil_append]
  exact filterMap_lines fun s => rfl

/-- The sum of natural numbers is their maximum just if all but one are zero. -/
theorem sum_eq_foldr_max_iff (l : List ℕ) :
    l.sum = l.foldr max 0 ↔ (l.filter fun n => decide (n ≠ 0)).length ≤ 1 := by
  induction l with
  | nil => simp
  | cons n l ih =>
    have hle : ∀ l : List ℕ, l.foldr max 0 ≤ l.sum := by
      intro l
      induction l with
      | nil => exact Nat.le_refl 0
      | cons n l ih =>
        rw [List.foldr_cons, List.sum_cons]
        omega
    have hzero : l.sum = 0 ↔ (l.filter fun n => decide (n ≠ 0)).length = 0 := by
      rw [List.sum_eq_zero_iff, List.length_eq_zero_iff, List.filter_eq_nil_iff]
      simp
    have hl := hle l
    rw [List.foldr_cons, List.sum_cons]
    by_cases hn : n = 0
    · rw [hn, List.filter_cons_of_neg (by simp), ← ih]
      omega
    · rw [List.filter_cons_of_pos (by simpa using hn), List.length_cons]
      omega

/-- **The parser agrees with the emitters** just if at most one function has a peak. The counters
and the histograms always come out right; the peak is summed like a counter. -/
theorem parseSchedStats_agrees_iff (hne : stats ≠ []) (h : IsLog stats log) :
    (parseSchedStats (unlines log)).Agrees stats ↔
      (stats.filter fun s => decide (s.peakLivePressure ≠ 0)).length ≤ 1 := by
  have hpeak := h.totals_peak hne
  have hcount : (stats.filter fun s => decide (s.peakLivePressure ≠ 0)).length =
      ((stats.map FunctionStats.peakLivePressure).filter fun n => decide (n ≠ 0)).length := by
    rw [List.filter_map, List.length_map]
    rfl
  rw [hcount, ← sum_eq_foldr_max_iff]
  constructor
  · intro hagrees
    have hsum := Float64.finite.inj (Option.some.inj (hpeak.symm.trans hagrees.peak))
    exact Nat.cast_injective hsum
  · intro hsum
    refine ⟨fun c hc => h.totals hne (List.mem_cons_of_mem _ hc), ?_, h.histLines⟩
    rw [← hsum]
    exact hpeak

theorem FunctionStats.OfPass.balanced {s : FunctionStats} (h : s.OfPass) :
    s.hoistStats.candidates = s.hoistStats.done + s.hoistStats.blocked := by
  obtain ⟨F, A, usePressure, env, profile, traces, st, hwf, hstats, _, hrun, rfl⟩ := h
  obtain ⟨universeIndex, livenessResult, calls, _, hcalls⟩ := globalSchedulerPass_calls hwf hrun
  rw [hstats, Prod.mk.injEq] at hcalls
  show st.hoistStats.candidates = st.hoistStats.done + st.hoistStats.blocked
  rw [hcalls.2]
  exact applySchedules_balanced rfl

/-- **The reported hoist counters add up** for a module that the pass has processed. -/
theorem IsLog.hoists_balanced (hne : stats ≠ []) (h : IsLog stats log)
    (hpass : ∀ s ∈ stats, s.OfPass) :
    ∃ done dominance loop operand unsafeSpeculation pressure : ℕ,
      let totals := (parseSchedStats (unlines log)).totals
      totals "hoist_done".toList = some (.finite done) ∧
      totals "blocked_dominance".toList = some (.finite dominance) ∧
      totals "blocked_loop".toList = some (.finite loop) ∧
      totals "blocked_operand".toList = some (.finite operand) ∧
      totals "blocked_unsafe_speculation".toList = some (.finite unsafeSpeculation) ∧
      totals "blocked_pressure".toList = some (.finite pressure) ∧
      totals "hoist_candidates".toList = some (.finite
        (done + (dominance + loop + operand + unsafeSpeculation + pressure) : ℕ)) := by
  have hsum : (stats.map fun s => s.hoistStats.candidates).sum =
      (stats.map fun s => s.hoistStats.done).sum +
        ((stats.map fun s => s.hoistStats.blockedDominance).sum +
          (stats.map fun s => s.hoistStats.blockedLoop).sum +
          (stats.map fun s => s.hoistStats.blockedOperand).sum +
          (stats.map fun s => s.hoistStats.blockedUnsafe).sum +
          (stats.map fun s => s.hoistStats.blockedPressure).sum) := by
    clear h hne
    induction stats with
    | nil => rfl
    | cons s stats ih =>
      have hs := (hpass s List.mem_cons_self).balanced
      have hrest := ih fun t ht => hpass t (List.mem_cons_of_mem _ ht)
      rw [HoistStats.blocked] at hs
      simp only [List.map_cons, List.sum_cons]
      omega
  have hkey : ∀ c ∈ counters, (parseSchedStats (unlines log)).totals c.1.toList =
      some (.finite ((stats.map c.2).sum : ℕ)) := fun c hc => h.totals hne (List.mem_cons_of_mem _ hc)
  simp only [counters, List.forall_mem_cons] at hkey
  obtain ⟨_, _, _, _, hcandidates, hdone, hdominance, hloop, hoperand, hunsafe, hpressure, _⟩ := hkey
  refine ⟨_, _, _, _, _, _, hdone, hdominance, hloop, hoperand, hunsafe, hpressure, ?_⟩
  rw [← hsum]
  exact hcandidates

end

/-- The statistics of `twoBlocks`, where one instruction is hoisted and one value is live at a time. -/
def twoBlocksStats : FunctionStats := ⟨[2], ⟨1, 0, 0⟩, ⟨1, 1, 0, 0, 0, 0, 0⟩, 1⟩

theorem twoBlocksStats_ofPass : twoBlocksStats.OfPass := by
  have hcounts : (globalSchedulerPass true ⟨none, none, true⟩ twoBlocks certain
      twoBlocksAnalyses).map (fun st => (st.hoistStats, st.peakLivePressure)) =
        some (twoBlocksStats.hoistStats, twoBlocksStats.peakLivePressure) := rfl
  obtain ⟨st, hrun, hst⟩ := Option.map_eq_some_iff.mp hcounts
  obtain ⟨hhoist, hpeak⟩ := Prod.mk.inj hst
  refine ⟨twoBlocks, twoBlocksAnalyses, true, ⟨none, none, true⟩, certain,
    ⟨[[0, 1]], [1, 0], ⟨1, 0, 0⟩⟩, st, twoBlocks_wellFormed, rfl, rfl, hrun, ?_⟩
  rw [functionStats, hhoist, hpeak]
  rfl

/-- The statistics lines after a warning. -/
def warningThen (stats : List FunctionStats) : List (List Char) :=
  "1 warning generated.".toList :: (stats.flatMap FunctionStats.lines).map statsLine

theorem isLog_warningThen (stats : List FunctionStats) : IsLog stats (warningThen stats) := by
  have hstarts : ∀ line ∈ (stats.flatMap FunctionStats.lines).map statsLine,
      "SCHED_STATS".toList <+: line := by
    intro line hline
    obtain ⟨fields, _, rfl⟩ := List.mem_map.mp hline
    exact List.prefix_append _ _
  constructor
  · rw [warningThen, List.filter_cons_of_neg (by decide), List.filter_eq_self]
    exact fun line hline => decide_eq_true (hstarts line hline)
  · intro line hline hnot
    rcases List.mem_cons.mp hline with rfl | hline
    · have hbreak : ("1 warning generated.".toList.all fun c => !isLineBreak c) = true := by decide
      simpa using hbreak
    · exact absurd (hstarts line hline) hnot

/-- The statistics of a function of one block that has nothing to schedule. -/
def returnOnlyStats : FunctionStats := ⟨[1], ⟨0, 0, 0⟩, ⟨0, 0, 0, 0, 0, 0, 0⟩, 0⟩

/-- Three functions, one of which has a peak: the parser gives this peak back. -/
theorem twoBlocks_agrees_iff :
    let stats := [returnOnlyStats, twoBlocksStats, returnOnlyStats]
    IsLog stats (warningThen stats) ∧
      (parseSchedStats (unlines (warningThen stats))).totals "peak_live_pressure".toList =
        some (.finite (1 : ℕ)) ∧
      (parseSchedStats (unlines (warningThen stats))).Agrees stats := by
  have hlog := isLog_warningThen [returnOnlyStats, twoBlocksStats, returnOnlyStats]
  exact ⟨hlog, hlog.totals_peak (by simp),
    (parseSchedStats_agrees_iff (by simp) hlog).mpr (by decide)⟩

/-- A module with the function twice has the same peak, and the parser reports the double. -/
theorem twice_not_agrees :
    let stats := [twoBlocksStats, twoBlocksStats]
    (∀ s ∈ stats, s.OfPass) ∧ IsLog stats (warningThen stats) ∧
      (parseSchedStats (unlines (warningThen stats))).totals "peak_live_pressure".toList =
        some (.finite (2 : ℕ)) ∧
      ¬ (parseSchedStats (unlines (warningThen stats))).Agrees stats := by
  have hlog := isLog_warningThen [twoBlocksStats, twoBlocksStats]
  have htotal := hlog.totals_peak (by simp)
  refine ⟨?_, hlog, htotal, ?_⟩
  · intro s hs
    rcases List.mem_cons.mp hs with rfl | hs
    · exact twoBlocksStats_ofPass
    · rw [List.mem_singleton.mp hs]
      exact twoBlocksStats_ofPass
  intro h
  have hpeak := Float64.finite.inj (Option.some.inj (htotal.symm.trans h.peak))
  exact absurd (Nat.cast_injective hpeak) (by decide)

end TraceScheduler.Scripts
