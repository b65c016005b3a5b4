import Mathlib.Algebra.Order.Ring.Rat
import Mathlib.Tactic.Linarith
import TraceScheduler.Library.TextFields
import TraceScheduler.Scripts.ResultsFile

/-!
# The analysis of the results

`analyze` reads `results.csv` and compares the simulated cycles of the configurations.  It does not rely
on the suite: cycles count only for a configuration that compiled and matched the baseline.  On the
tables that the suite writes this filter has nothing to do, as there is no gem5 number beside a scheduled
configuration that is wrong (`analyze_reached`).

The arithmetic of floating-point numbers is a parameter.
-/

namespace TraceScheduler.Scripts

/-! ### Numbers -/

/-- What the analysis does with numbers. -/
structure Numbers (ν : Type) where
  /-- `float(s)`, `none` for a `ValueError`. -/
  toFloat : String → Option ν
  /-- Not zero. -/
  truthy : ν → Bool
  div : ν → ν → ν
  /-- `x > y`. -/
  gt : ν → ν → Bool
  zero : ν
  /-- The literals `1.02` and `0.98`. -/
  win : ν
  loss : ν
  toFloat_empty : toFloat "" = none
  not_win_and_loss : ∀ x, gt x win = true → gt loss x = false

variable {ν : Type} (N : Numbers ν)

/-- `(a / b) if (a and b) else None`. -/
def ratio (a b : Option ν) : Option ν :=
  match a, b with
  | some a, some b => if N.truthy a && N.truthy b then some (N.div a b) else none
  | _, _ => none

/-! ### The rows by benchmark -/

/-- Under its benchmark and its configuration, a later row over an earlier one. -/
def addRow (byBench : Dict (Dict (Row String))) (r : Row String) : Dict (Dict (Row String)) :=
  upsertBy Prod.fst byBench
    (r.benchmark, upsertBy Prod.fst ((byBench.lookup r.benchmark).getD []) (r.config, r))

def byBench (rows : List (Row String)) : Dict (Dict (Row String)) := rows.foldl addRow []

/-! ### A line of the summary -/

/-- The baseline is trusted; any other configuration must have compiled and matched it. -/
def isValid : Option (Row String) → Bool
  | none => false
  | some r =>
      if r.config = "original" then true
      else if r.error ≠ "" then false
      else r.correctnessOkVsOriginal == "True"

def status : Option (Row String) → String
  | none => "?"
  | some r => if r.error ≠ "" then "CRASH" else if isValid (some r) then "ok" else "WRONG"

/-- A column as a number. -/
def toFloat (cfgRow : Option (Row String)) (column : Row String → String) : Option ν :=
  cfgRow.bind fun r => N.toFloat (column r)

/-- The cycles of a configuration that can be trusted. -/
def cycles (cfgRow : Option (Row String)) : Option ν :=
  if isValid cfgRow then toFloat N cfgRow Row.gem5NumCycles else none

structure Entry (ν : Type) where
  name : String
  category : Option String
  cycO : Option ν
  cycL : Option ν
  cycG : Option ν
  cycGnp : Option ν
  spdGVsL : Option ν
  spdGVsO : Option ν
  spdGVsGnp : Option ν
  traces : Option ν
  hoistDone : Option ν
  blkPress : Option ν
  blkLoop : Option ν
  peakPr : Option ν
  status : String

/-- The loop body over the benchmarks. -/
def entry (name : String) (cfgs : Dict (Row String)) : Entry ν :=
  let o := cfgs.lookup "original"
  let l := cfgs.lookup "local"
  let g := cfgs.lookup "global"
  let gnp := cfgs.lookup "global_no_pressure"
  let cycO := cycles N o
  let cycL := cycles N l
  let cycG := cycles N g
  let cycGnp := cycles N gnp
  { name := name
    category := o.map Row.category
    cycO := cycO
    cycL := cycL
    cycG := cycG
    cycGnp := cycGnp
    spdGVsL := ratio N cycL cycG
    spdGVsO := ratio N cycO cycG
    spdGVsGnp := ratio N cycGnp cycG
    traces := toFloat N g Row.traceCount
    hoistDone := toFloat N g Row.hoistDone
    blkPress := toFloat N g Row.blockedPressure
    blkLoop := toFloat N g Row.blockedLoop
    peakPr := toFloat N g Row.peakLivePressure
    status := "L=" ++ status l ++ " G=" ++ status g ++ " GNP=" ++ status gnp }

/-! ### The report -/

/-- The key of `summary.sort` is smaller: a speedup comes before none, a larger one before a smaller. -/
def keyLt (a b : Entry ν) : Bool :=
  match a.spdGVsL, b.spdGVsL with
  | some x, some y => N.gt (if N.truthy x then x else N.zero) (if N.truthy y then y else N.zero)
  | some _, none => true
  | none, _ => false

structure Analysis (ν : Type) where
  summary : List (Entry ν)
  wins : List String
  regressions : List String
  noValidComparison : List String
  correctnessFails : List (String × String)

def analyze (rows : List (Row String)) : Analysis ν :=
  let summary := ((byBench rows).map fun kv => entry N kv.1 kv.2).mergeSort fun a b => !keyLt N b a
  { summary := summary
    wins := (summary.filter fun e => e.spdGVsL.any fun x => N.truthy x && N.gt x N.win).map Entry.name
    regressions :=
      (summary.filter fun e => e.spdGVsL.any fun x => N.truthy x && N.gt N.loss x).map Entry.name
    noValidComparison := (summary.filter fun e => e.spdGVsL.isNone).map Entry.name
    correctnessFails :=
      (rows.filter fun r => r.correctnessOkVsOriginal == "False").map rowKey }

/-! ### Tables that can be relied on -/

/-- Every benchmark is complete, and has gem5 numbers only if its gating configurations are correct. -/
structure Reliable (rows : List (Row String)) : Prop where
  nodup : (rows.map rowKey).Nodup
  complete : ∀ r ∈ rows, ∀ cfg ∈ CONFIGS, ∃ r' ∈ rows, rowKey r' = (r.benchmark, cfg.key)
  gated : ∀ r ∈ rows, r.gem5NumCycles ≠ "" → ∀ r' ∈ rows, r'.benchmark = r.benchmark →
    ∀ cfg ∈ CONFIGS, cfg.gatesCorrectness = true → r'.config = cfg.key →
      r'.error = "" ∧ (cfg.key ≠ "original" → r'.correctnessOkVsOriginal = "True")

variable {rows file : List (Row String)} {r r' : Row String} {N} {d : Dict (Dict (Row String))}
  {key : String × String}

theorem IsTable.reliable (h : IsTable rows) : Reliable rows := by
  obtain ⟨reports, h⟩ := h
  refine ⟨h.nodup_keys, fun r hr cfg hcfg => h.complete hr hcfg, ?_⟩
  intro r hr hgem5 r' hr' hsame cfg hcfg hgates hconfig
  exact h.gated hr (.inr (.inl hgem5)) hr' hsame hcfg hgates hconfig

theorem SameRows.exists_of_mem_right (h : SameRows rows file) (hr : r' ∈ file) :
    ∃ r ∈ rows, r.Like r' := by
  induction h with
  | nil => cases hr
  | cons hlike _ ih =>
    rcases List.mem_cons.mp hr with rfl | hr
    · exact ⟨_, List.mem_cons_self, hlike⟩
    · obtain ⟨r, hr, hlike⟩ := ih hr
      exact ⟨r, List.mem_cons_of_mem _ hr, hlike⟩

/-- A column with a text without line ends is the same. -/
theorem Row.Like.column_eq_iff (h : r.Like r') (column : ∀ {α : Type}, Row α → α)
    (hcolumn : column (r.map translateField) = translateField (column r)) {w : String}
    (hreturn : '\r' ∉ w.toList) (hfeed : '\n' ∉ w.toList) : column r' = w ↔ column r = w := by
  rcases h with rfl | rfl
  · exact Iff.rfl
  · rw [hcolumn, translateField_eq_iff hreturn hfeed]

/-- Line ends do not matter. -/
theorem Reliable.of_sameRows (h : Reliable rows) (hclean : ∀ r ∈ rows, r.CleanKey)
    (hsame : SameRows rows file) : Reliable file := by
  have hkeys := hsame.map_rowKey hclean
  constructor
  · rw [hkeys]
    exact h.nodup
  · intro r' hr' cfg hcfg
    obtain ⟨r, hr, hlike⟩ := hsame.exists_of_mem_right hr'
    obtain ⟨r₂, hr₂, hkey⟩ := h.complete r hr cfg hcfg
    have hmem : rowKey r₂ ∈ file.map rowKey := by
      rw [hkeys]
      exact List.mem_map_of_mem hr₂
    obtain ⟨r₂', hr₂', hkey'⟩ := List.mem_map.mp hmem
    have hbench : r'.benchmark = r.benchmark := congrArg Prod.fst (hlike.rowKey_eq (hclean r hr))
    exact ⟨r₂', hr₂', by rw [hkey', hkey, hbench]⟩
  · intro r' hr' hgem5 r₂' hr₂' hbench cfg hcfg hgates hconfig
    obtain ⟨r, hr, hlike⟩ := hsame.exists_of_mem_right hr'
    obtain ⟨r₂, hr₂, hlike₂⟩ := hsame.exists_of_mem_right hr₂'
    have hkey := hlike.rowKey_eq (hclean r hr)
    have hkey₂ := hlike₂.rowKey_eq (hclean r₂ hr₂)
    rw [Ne, hlike.column_eq_iff Row.gem5NumCycles rfl (by decide) (by decide)] at hgem5
    rw [hlike₂.column_eq_iff Row.error rfl (by decide) (by decide),
      hlike₂.column_eq_iff Row.correctnessOkVsOriginal rfl (by decide) (by decide)]
    refine h.gated r hr hgem5 r₂ hr₂ ?_ cfg hcfg hgates ?_
    · rw [← show r₂'.benchmark = r₂.benchmark from congrArg Prod.fst hkey₂, hbench]
      exact congrArg Prod.fst hkey
    · rw [← hconfig]
      exact (congrArg Prod.snd hkey₂).symm

/-! ### Finding a row -/

theorem lookup_eq_findKey {α : Type} (d : Dict α) (k : String) :
    d.lookup k = (findKey Prod.fst d k).map Prod.snd := by
  induction d with
  | nil => rfl
  | cons kv d ih =>
    obtain ⟨k', v⟩ := kv
    rw [List.lookup_cons, findKey_cons]
    by_cases hk : k' = k
    · subst hk
      simp
    · rw [beq_eq_false_iff_ne.mpr (Ne.symm hk), if_neg hk]
      exact ih

theorem lookup_upsertBy {α : Type} (d : Dict α) (k k' : String) (v : α) :
    (upsertBy Prod.fst d (k, v)).lookup k' = if k = k' then some v else d.lookup k' := by
  rw [lookup_eq_findKey, findKey_upsertBy, lookup_eq_findKey]
  split
  · rfl
  · rfl

/-- The row under a benchmark and a configuration. -/
def cell (d : Dict (Dict (Row String))) (key : String × String) : Option (Row String) :=
  (d.lookup key.1).bind fun cfgs => cfgs.lookup key.2

theorem cell_addRow : cell (addRow d r) key = if rowKey r = key then some r else cell d key := by
  obtain ⟨bench, config⟩ := key
  simp only [cell, addRow, lookup_upsertBy, rowKey, Prod.mk.injEq]
  by_cases hbench : r.benchmark = bench
  · subst hbench
    rw [if_pos rfl, Option.bind_some, lookup_upsertBy]
    by_cases hconfig : r.config = config
    · rw [if_pos hconfig, if_pos ⟨rfl, hconfig⟩]
    · rw [if_neg hconfig, if_neg fun h => hconfig h.2]
      cases d.lookup r.benchmark with
      | none => rfl
      | some cfgs => rfl
  · rw [if_neg hbench, if_neg fun h => hbench h.1]

/-- The two levels find what one table with both keys finds. -/
theorem cell_foldl {rows₀ new : List (Row String)} (h : ∀ key, cell d key = findKey rowKey rows₀ key) :
    cell (new.foldl addRow d) key = findKey rowKey (new.foldl (upsertBy rowKey) rows₀) key := by
  induction new generalizing d rows₀ with
  | nil => exact h key
  | cons r new ih =>
    apply ih
    intro key
    rw [cell_addRow, findKey_upsertBy, h key]

theorem cell_byBench (hnd : (rows.map rowKey).Nodup) (hr : r ∈ rows) :
    cell (byBench rows) (rowKey r) = some r := by
  have hnil : ∀ key, cell [] key = findKey rowKey [] key := fun _ => rfl
  rw [byBench, cell_foldl hnil]
  exact findKey_foldl_of_mem hnd hr

/-- **Each benchmark once.** -/
theorem names_byBench (rows : List (Row String)) : ((byBench rows).map Prod.fst).Nodup ∧
    ∀ name, name ∈ (byBench rows).map Prod.fst ↔ ∃ r ∈ rows, r.benchmark = name := by
  induction rows using List.reverseRecOn with
  | nil => exact ⟨List.nodup_nil, by simp [byBench]⟩
  | append_singleton rows r ih =>
    obtain ⟨hnd, hmem⟩ := ih
    rw [byBench, List.foldl_append, ← byBench]
    show ((addRow (byBench rows) r).map Prod.fst).Nodup ∧ ∀ name,
      name ∈ (addRow (byBench rows) r).map Prod.fst ↔ _
    rw [addRow, map_key_upsertBy]
    by_cases hold : r.benchmark ∈ (byBench rows).map Prod.fst
    · rw [if_pos hold]
      refine ⟨hnd, fun name => ?_⟩
      rw [hmem] at hold ⊢
      obtain ⟨r₀, hr₀, hbench⟩ := hold
      constructor
      · rintro ⟨x, hx, rfl⟩
        exact ⟨x, List.mem_append_left _ hx, rfl⟩
      · rintro ⟨x, hx, rfl⟩
        rcases List.mem_append.mp hx with hx | hx
        · exact ⟨x, hx, rfl⟩
        · obtain rfl := List.mem_singleton.mp hx
          exact ⟨r₀, hr₀, hbench⟩
    · rw [if_neg hold]
      refine ⟨List.Nodup.append hnd (List.nodup_singleton _) (List.disjoint_singleton.mpr hold), ?_⟩
      intro name
      rw [List.mem_append, hmem, List.mem_singleton]
      simp only [List.mem_append, List.mem_singleton, or_and_right, exists_or, exists_eq_left]
      rw [eq_comm]

/-! ### The summary -/

variable {e : Entry ν} {name : String} {cfgs : Dict (Row String)} {cfg : Config}

theorem Reliable.lookup (h : Reliable rows) (hmem : (name, cfgs) ∈ byBench rows) (hcfg : cfg ∈ CONFIGS) :
    ∃ r ∈ rows, rowKey r = (name, cfg.key) ∧ cfgs.lookup cfg.key = some r := by
  obtain ⟨hnd, hnames⟩ := names_byBench rows
  have hcfgs : (byBench rows).lookup name = some cfgs := by
    rw [lookup_eq_findKey]
    have hfind := findKey_of_mem hnd hmem
    rw [show findKey Prod.fst (byBench rows) name = some (name, cfgs) from hfind]
    rfl
  obtain ⟨r₀, hr₀, rfl⟩ := (hnames name).mp (List.mem_map.mpr ⟨_, hmem, rfl⟩)
  obtain ⟨r, hr, hkey⟩ := h.complete r₀ hr₀ cfg hcfg
  have hcell := cell_byBench h.nodup hr
  rw [hkey, cell, hcfgs, Option.bind_some] at hcell
  exact ⟨r, hr, hkey, hcell⟩

/-- A gem5 number vouches for all gating rows of its benchmark. -/
theorem Reliable.gating (h : Reliable rows) (hr : r ∈ rows) (hgem5 : r.gem5NumCycles ≠ "")
    (hr' : r' ∈ rows) (hsame : r'.benchmark = r.benchmark) (hgates : r'.config ∈ GATING_KEYS) :
    r'.error = "" ∧ (r'.config ≠ "original" → r'.correctnessOkVsOriginal = "True") := by
  obtain ⟨cfg, hcfg, hkey⟩ := List.mem_map.mp hgates
  obtain ⟨hcfg, hgates⟩ := List.mem_filter.mp hcfg
  have hok := h.gated r hr hgem5 r' hr' hsame cfg hcfg hgates hkey.symm
  rwa [hkey] at hok

theorem isValid_of_ok (herror : r.error = "")
    (hcorrect : r.config ≠ "original" → r.correctnessOkVsOriginal = "True") :
    isValid (some r) = true := by
  rw [isValid]
  split
  · rfl
  · rename_i hconfig
    rw [if_neg (not_not.mpr herror), hcorrect hconfig]
    rfl

/-- **The filter has nothing to do.** -/
theorem Reliable.cycles_eq (h : Reliable rows) (hr : r ∈ rows) (hgates : r.config ∈ GATING_KEYS) :
    cycles N (some r) = N.toFloat r.gem5NumCycles := by
  have hraw : toFloat N (some r) Row.gem5NumCycles = N.toFloat r.gem5NumCycles := rfl
  rw [cycles, hraw]
  by_cases hgem5 : r.gem5NumCycles = ""
  · rw [hgem5, N.toFloat_empty, ite_self]
  · obtain ⟨herror, hcorrect⟩ := h.gating hr hgem5 hr rfl hgates
    rw [if_pos (isValid_of_ok herror hcorrect)]

theorem status_of_ok (herror : r.error = "")
    (hcorrect : r.config ≠ "original" → r.correctnessOkVsOriginal = "True") :
    status (some r) = "ok" := by
  rw [status, if_neg (not_not.mpr herror), if_pos (isValid_of_ok herror hcorrect)]

theorem mem_summary : e ∈ (analyze N rows).summary ↔ ∃ kv ∈ byBench rows, entry N kv.1 kv.2 = e := by
  rw [← List.mem_map]
  exact (List.mergeSort_perm _ _).mem_iff

/-- The names in the summary are those of the benchmarks, each once. -/
theorem names_summary (N : Numbers ν) (rows : List (Row String)) :
    ((analyze N rows).summary.map Entry.name).Perm ((byBench rows).map Prod.fst) := by
  have hperm : (analyze N rows).summary.Perm ((byBench rows).map fun kv => entry N kv.1 kv.2) :=
    List.mergeSort_perm _ _
  have hmap := hperm.map Entry.name
  rwa [List.map_map] at hmap

/-- **A line of the summary** has the cycles in the table, and these only beside correct results. -/
theorem Reliable.summary_line (h : Reliable rows) (he : e ∈ (analyze N rows).summary) :
    ∃ o ∈ rows, ∃ l ∈ rows, ∃ g ∈ rows, ∃ gnp ∈ rows,
      rowKey o = (e.name, "original") ∧ rowKey l = (e.name, "local") ∧
      rowKey g = (e.name, "global") ∧ rowKey gnp = (e.name, "global_no_pressure") ∧
      e.cycO = N.toFloat o.gem5NumCycles ∧ e.cycL = N.toFloat l.gem5NumCycles ∧
      e.cycG = N.toFloat g.gem5NumCycles ∧ e.cycGnp = N.toFloat gnp.gem5NumCycles ∧
      ((∃ r ∈ rows, r.benchmark = e.name ∧ r.gem5NumCycles ≠ "") →
        e.status = "L=ok G=ok GNP=ok") := by
  obtain ⟨⟨name, cfgs⟩, hmem, rfl⟩ := mem_summary.mp he
  obtain ⟨o, ho, hokey, hofind⟩ : ∃ r ∈ rows, rowKey r = (name, "original") ∧
      cfgs.lookup "original" = some r := h.lookup hmem (show ⟨"original", true⟩ ∈ CONFIGS by decide)
  obtain ⟨l, hl, hlkey, hlfind⟩ : ∃ r ∈ rows, rowKey r = (name, "local") ∧
      cfgs.lookup "local" = some r := h.lookup hmem (show ⟨"local", true⟩ ∈ CONFIGS by decide)
  obtain ⟨g, hg, hgkey, hgfind⟩ : ∃ r ∈ rows, rowKey r = (name, "global") ∧
      cfgs.lookup "global" = some r := h.lookup hmem (show ⟨"global", true⟩ ∈ CONFIGS by decide)
  obtain ⟨gnp, hgnp, hgnpkey, hgnpfind⟩ : ∃ r ∈ rows, rowKey r = (name, "global_no_pressure") ∧
      cfgs.lookup "global_no_pressure" = some r :=
    h.lookup hmem (show ⟨"global_no_pressure", true⟩ ∈ CONFIGS by decide)
  have hgates : ∀ {r : Row String} {config : String}, rowKey r = (name, config) →
      config ∈ GATING_KEYS → r.config ∈ GATING_KEYS := by
    intro r config hkey hconfig
    rw [show r.config = config from congrArg Prod.snd hkey]
    exact hconfig
  have hogates := hgates hokey (by decide)
  have hlgates := hgates hlkey (by decide)
  have hggates := hgates hgkey (by decide)
  have hgnpgates := hgates hgnpkey (by decide)
  refine ⟨o, ho, l, hl, g, hg, gnp, hgnp, hokey, hlkey, hgkey, hgnpkey, ?_, ?_, ?_, ?_, ?_⟩
  · show cycles N (cfgs.lookup "original") = _
    rw [hofind, h.cycles_eq ho hogates]
  · show cycles N (cfgs.lookup "local") = _
    rw [hlfind, h.cycles_eq hl hlgates]
  · show cycles N (cfgs.lookup "global") = _
    rw [hgfind, h.cycles_eq hg hggates]
  · show cycles N (cfgs.lookup "global_no_pressure") = _
    rw [hgnpfind, h.cycles_eq hgnp hgnpgates]
  · rintro ⟨r, hr, hbench, hgem5⟩
    have hstatus : ∀ {r' : Row String} {config : String}, r' ∈ rows → rowKey r' = (name, config) →
        r'.config ∈ GATING_KEYS → status (some r') = "ok" := by
      intro r' config hr' hkey hgates
      have hsame : r'.benchmark = r.benchmark := (congrArg Prod.fst hkey).trans hbench.symm
      obtain ⟨herror, hcorrect⟩ := h.gating hr hgem5 hr' hsame hgates
      exact status_of_ok herror hcorrect
    show "L=" ++ status (cfgs.lookup "local") ++ " G=" ++ status (cfgs.lookup "global") ++
      " GNP=" ++ status (cfgs.lookup "global_no_pressure") = _
    rw [hlfind, hgfind, hgnpfind, hstatus hl hlkey hlgates, hstatus hg hgkey hggates,
      hstatus hgnp hgnpkey hgnpgates]
    decide

/-- A speedup over the local scheduler needs the cycles of both. -/
theorem Reliable.of_spdGVsL (h : Reliable rows) (he : e ∈ (analyze N rows).summary)
    (hspd : e.spdGVsL.isSome = true) (hr : r ∈ rows) (hbench : r.benchmark = e.name)
    (hgates : r.config ∈ GATING_KEYS) :
    r.error = "" ∧ (r.config ≠ "original" → r.correctnessOkVsOriginal = "True") := by
  obtain ⟨_, _, l, hl, _, _, _, _, _, hlkey, _, _, _, hcycL, _⟩ := h.summary_line he
  obtain ⟨⟨name, cfgs⟩, _, rfl⟩ := mem_summary.mp he
  have hgem5 : l.gem5NumCycles ≠ "" := by
    intro hempty
    have hratio : (entry N name cfgs).spdGVsL = ratio N (entry N name cfgs).cycL
        (entry N name cfgs).cycG := rfl
    rw [hratio, hcycL, hempty, N.toFloat_empty] at hspd
    cases hspd
  have hlbench : l.benchmark = name := congrArg Prod.fst hlkey
  exact h.gating hl hgem5 hr (hbench.trans hlbench.symm) hgates

/-- Lines that are sorted into different lists have different names. -/
theorem nodup_append_filter {α β : Type} {f : α → β} {l : List α} (hnd : (l.map f).Nodup)
    {p q : α → Bool} (hpq : ∀ x ∈ l, p x = true → q x = false) :
    ((l.filter p).map f ++ (l.filter q).map f).Nodup := by
  have hsub : ∀ p : α → Bool, ((l.filter p).map f).Nodup := fun p =>
    hnd.sublist (List.filter_sublist.map f)
  refine List.Nodup.append (hsub p) (hsub q) ?_
  intro y hy hy'
  obtain ⟨x, hx, rfl⟩ := List.mem_map.mp hy
  obtain ⟨x', hx', heq⟩ := List.mem_map.mp hy'
  obtain ⟨hx, hpx⟩ := List.mem_filter.mp hx
  obtain ⟨hx', hqx⟩ := List.mem_filter.mp hx'
  obtain rfl := List.inj_on_of_nodup_map hnd hx' hx heq
  rw [hpq x' hx' hpx] at hqx
  cases hqx

/-- No benchmark is in two of the lists. -/
theorem nodup_lists (N : Numbers ν) (rows : List (Row String)) : ((analyze N rows).wins ++
    (analyze N rows).regressions ++ (analyze N rows).noValidComparison).Nodup := by
  have hnd : ((analyze N rows).summary.map Entry.name).Nodup :=
    (names_summary N rows).nodup_iff.mpr (names_byBench rows).1
  have hwinsLosses : ((analyze N rows).wins ++ (analyze N rows).regressions).Nodup := by
    apply nodup_append_filter hnd
    intro e _ hwin
    cases hspd : e.spdGVsL with
    | none => rfl
    | some x =>
      rw [hspd, Option.any_some, Bool.and_eq_true] at hwin
      rw [Option.any_some, N.not_win_and_loss x hwin.2, Bool.and_false]
  have hvalid : ∀ {test : ν → Bool} {e : Entry ν}, e.spdGVsL.any test = true →
      e.spdGVsL.isNone = false := by
    intro test e hany
    cases hspd : e.spdGVsL with
    | none =>
      rw [hspd] at hany
      cases hany
    | some x => rfl
  have hwins : ((analyze N rows).wins ++ (analyze N rows).noValidComparison).Nodup :=
    nodup_append_filter hnd fun e _ hwin => hvalid hwin
  have hlosses : ((analyze N rows).regressions ++ (analyze N rows).noValidComparison).Nodup :=
    nodup_append_filter hnd fun e _ hloss => hvalid hloss
  refine List.Nodup.append hwinsLosses hwins.of_append_right ?_
  rw [List.disjoint_append_left]
  exact ⟨List.disjoint_of_nodup_append hwins, List.disjoint_of_nodup_append hlosses⟩

theorem Reliable.of_mem_lists (h : Reliable rows)
    (hname : r.benchmark ∈ (analyze N rows).wins ++ (analyze N rows).regressions) (hr : r ∈ rows)
    (hgates : r.config ∈ GATING_KEYS) :
    r.error = "" ∧ (r.config ≠ "original" → r.correctnessOkVsOriginal = "True") := by
  have hline : ∀ test : ν → Bool,
      r.benchmark ∈ ((analyze N rows).summary.filter fun e => e.spdGVsL.any test).map Entry.name →
        r.error = "" ∧ (r.config ≠ "original" → r.correctnessOkVsOriginal = "True") := by
    intro test hmem
    obtain ⟨e, he, hbench⟩ := List.mem_map.mp hmem
    obtain ⟨he, hany⟩ := List.mem_filter.mp he
    have hsome : e.spdGVsL.isSome = true := by
      cases hspd : e.spdGVsL with
      | none =>
        rw [hspd] at hany
        cases hany
      | some x => rfl
    exact h.of_spdGVsL he hsome hr hbench.symm hgates
  rcases List.mem_append.mp hname with hmem | hmem
  · exact hline _ hmem
  · exact hline _ hmem

/-- Exact arithmetic. -/
def exactNumbers : Numbers ℚ where
  toFloat s :=
    match Text.float s.toList with
    | some (.finite q) => some q
    | _ => none
  truthy x := x != 0
  div x y := x / y
  gt x y := decide (x > y)
  zero := 0
  win := 102 / 100
  loss := 98 / 100
  toFloat_empty := by decide +kernel
  not_win_and_loss := by
    intro x hwin
    rw [decide_eq_true_eq] at hwin
    apply decide_eq_false
    linarith

end TraceScheduler.Scripts
