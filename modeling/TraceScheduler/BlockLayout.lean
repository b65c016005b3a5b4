import TraceScheduler.Library.Arrivals
import TraceScheduler.RegionOrder
import TraceScheduler.SchedulerPass

/-!
# What a block holds after the global pass

Phase 1 makes `scheduledBody` of a block: its own instructions, each region in the order of the
schedule.  Phase 2 takes instructions out, leaves the others where they are, and puts newcomers before
the terminator as their turn comes.  So the result is known to the last position from the schedule and
from where each instruction ends up (`layout`); a block of no trace is not touched at all.
-/

namespace TraceScheduler

open scoped List

/-- A block after Phase 1. -/
def scheduledBody (F : Function) (schedule : List InstrId) (b : BasicBlock) : List InstrId :=
  mapRuns F.isAnchor (scheduledRegion schedule) (F.body b) []

def Function.holds (F : Function) (b : BasicBlock) (i : InstrId) : Bool := (F.body b).contains i

/-- A block once every instruction is where `place` says: its own ones that stay, anchors where they
were and regions in the order of the schedule, then the ones that came, in the order of the schedule,
then the terminator. -/
def layout (F : Function) (schedule : List InstrId) (place : InstrId → BasicBlock) (b : BasicBlock) :
    List InstrId :=
  arrange (scheduledBody F schedule b) schedule fun i => decide (place i = b)

theorem Function.holds_iff {F : Function} {b : BasicBlock} {i : InstrId} :
    F.holds b i = true ↔ i ∈ F.body b := by
  rw [Function.holds, List.contains_iff_mem]

/-! ### Phase 1 -/

variable {F F₁ F₂ : Function} {schedule : List InstrId} {trace : List BasicBlock} {tr : Trail}

theorem scheduledBody_congr {F' : Function} {b : BasicBlock} (hinstr : F'.instr = F.instr)
    (hbody : F'.body b = F.body b) : scheduledBody F' schedule b = scheduledBody F schedule b := by
  have hanchor : F'.isAnchor = F.isAnchor := by
    funext i
    rw [Function.isAnchor, Function.isAnchor, hinstr]
  rw [scheduledBody, scheduledBody, hanchor, hbody]

theorem RespectsUses.of_motions {F' : Function} {bb : BasicBlock} (h : RespectsUses F schedule bb)
    (hrun : Motions (fun _ _ _ => False) F F') : RespectsUses F' schedule bb := by
  induction hrun with
  | refl => exact h
  | tail _ hstep ih => exact respectsUses_of_motion ih hstep

theorem reorderTrace_body (hnd : schedule.Nodup) (htrace : trace.Nodup)
    (hwf : tr.current.WellFormed) (hresp : ∀ bb ∈ trace, RespectsUses tr.current schedule bb) :
    (∀ b ∈ trace, (reorderTrace schedule trace tr).current.body b =
      scheduledBody tr.current schedule b) ∧
    ∀ b, b ∉ trace → (reorderTrace schedule trace tr).current.body b = tr.current.body b := by
  induction trace generalizing tr with
  | nil =>
    constructor
    · intro b hb
      cases hb
    · intro b _
      rfl
  | cons bb trace ih =>
    obtain ⟨hbb, htrace⟩ := List.nodup_cons.mp htrace
    have hsteps := reorderBlockWithinRegions_steps hnd hwf (hresp bb List.mem_cons_self)
    set tr₁ := reorderBlockWithinRegions schedule bb tr with htr₁
    have hfirst : tr₁.current = { tr.current with
        body := Function.update tr.current.body bb (scheduledBody tr.current schedule bb) } :=
      reorderBlockWithinRegions_mapRuns (hwf.body_nodup bb) fun c hc i hi =>
        hwf.not_mem_of_ne hi hc
    have hself : tr₁.current.body bb = scheduledBody tr.current schedule bb := by
      rw [hfirst]
      exact Function.update_self ..
    have hother : ∀ c, c ≠ bb → tr₁.current.body c = tr.current.body c := by
      intro c hc
      rw [hfirst]
      exact Function.update_of_ne hc _ _
    obtain ⟨hon, hoff⟩ := ih htrace (hsteps.current.wellFormed hwf) fun b hb =>
      (hresp b (List.mem_cons_of_mem _ hb)).of_motions hsteps.current
    constructor
    · intro b hb
      rcases List.mem_cons.mp hb with rfl | hb
      · exact (hoff b hbb).trans hself
      · have hne : b ≠ bb := fun heq => hbb (heq ▸ hb)
        exact (hon b hb).trans (scheduledBody_congr hsteps.current.sameCode.instr (hother b hne))
    · intro b hb
      obtain ⟨hne, hb⟩ := List.ne_and_not_mem_of_not_mem_cons hb
      exact (hoff b hb).trans (hother b hne)

/-! ### Phase 2 -/

section

variable {G : FlowGraph BasicBlock} {ctx : HoistContext G} {st : HoistState} {i : InstrId}
  {origBB targetBB : BasicBlock} {rest done : List InstrId}

/-- The edit that a chosen target stands for. -/
theorem chosenTarget_edit (hctx : OnTrace ctx F₁) (h : Phase2Inv ctx F₁ (i :: rest) st)
    (ho : origBB ∈ ctx.trace) (hi : i ∈ F₁.body origBB)
    (hchosen : chosenTarget ctx st i = some targetBB) :
    ∃ pre post l t, st.trail.current.body origBB = pre ++ i :: post ∧
      st.trail.current.body targetBB = l ++ [t] ∧ targetBB ≠ origBB ∧
      st.trail.current.isAnchor i = false ∧
      (hoistStep ctx st i).trail.current = { st.trail.current with
        body := Function.update (Function.update st.trail.current.body origBB (pre ++ post)) targetBB
          (l ++ [i, t]) } := by
  have hwf := h.moved.wellFormed hctx.wf
  have hcfg : st.trail.current.cfg = G := (h.moved.cfg_eq hctx.wf).trans hctx.cfg
  obtain ⟨hanchor, _, hidx, hlegal, _⟩ := chosenTarget_some hctx hwf hcfg ho hi hchosen
  obtain ⟨t, ht, _, _⟩ := hlegal.insertion
  have hne : targetBB ≠ origBB := by
    intro heq
    subst heq
    exact Nat.lt_irrefl _ hidx
  have hcur : i ∈ st.trail.current.body origBB := (h.pending i List.mem_cons_self origBB).mpr hi
  obtain ⟨pre, post, hsrc⟩ := List.append_of_mem hcur
  obtain ⟨l, hdst⟩ := List.getLast?_eq_some_iff.mp (Function.getTerminator_eq_some.mp ht).1
  refine ⟨pre, post, l, t, hsrc, hdst, hne, hanchor, ?_⟩
  rw [hoistStep_trail, hchosen]
  dsimp only
  rw [hoistTo]
  simp only [ht]
  exact moveBefore_eq hwf hsrc hdst hne

/-- Each block is what Phase 1 made of it, with the moves made so far. -/
def LaidOut (own : BasicBlock → List InstrId) (done : List InstrId) (F : Function) : Prop :=
  ∀ b, F.body b = arrange (own b) done (F.holds b)

/-- The terminator of a block is where it was before both phases. -/
theorem Phase2Inv.terminator (hwf : F₁.WellFormed) (h : Phase2Inv ctx F₁ rest st)
    (hown : Motions (fun _ _ _ => False) F₁ F₂) {b : BasicBlock} (hb : b ∈ F₁.blocks) :
    ∃ l t, F₂.body b = l ++ [t] ∧ st.trail.current.holds b t = true ∧
      F₁.isAnchor t = true := by
  have hb₂ : b ∈ F₂.blocks := hown.sameCode.blocks ▸ hb
  obtain ⟨l, t, hbody, ht, _⟩ := (hown.wellFormed hwf).terminated b hb₂
  have hanchor : F₁.isAnchor t = true := by
    rw [← hown.isAnchor_eq]
    exact isSchedulingAnchor_of_isTerminator ht
  have ht₂ : t ∈ F₂.body b := by
    rw [hbody]
    exact List.mem_append_right _ List.mem_cons_self
  refine ⟨l, t, hbody, Function.holds_iff.mpr ?_, hanchor⟩
  exact (h.moved.mem_of_anchor hwf hanchor).mpr (hown.mem_iff.mp ht₂)

/-- **One step of Phase 2** takes the instruction from one block to the end of another. -/
theorem LaidOut.hoistStep (hctx : OnTrace ctx F₁) (h : Phase2Inv ctx F₁ (i :: rest) st)
    (hown : Motions (fun _ _ _ => False) F₁ F₂) (hlaid : LaidOut F₂.body done st.trail.current)
    (hnew : i ∉ done) (ho : origBB ∈ ctx.trace) (hi : i ∈ F₁.body origBB) :
    LaidOut F₂.body (done ++ [i]) (TraceScheduler.hoistStep ctx st i).trail.current := by
  have hwf := h.moved.wellFormed hctx.wf
  have hblocks : st.trail.current.blocks = F₁.blocks := h.moved.sameCode.blocks
  have hi₂ : i ∈ F₂.body origBB := hown.mem_iff.mpr hi
  have hcur : ∀ b, i ∈ st.trail.current.body b → i ∈ F₂.body b := by
    intro b hb
    exact hown.mem_iff.mpr ((h.pending i List.mem_cons_self b).mp hb)
  cases hchosen : chosenTarget ctx st i with
  | none =>
    intro b
    have htrail : (TraceScheduler.hoistStep ctx st i).trail = st.trail := by
      rw [hoistStep_trail, hchosen]
    rw [htrail, arrange_pass fun hb => hcur b (Function.holds_iff.mp hb)]
    exact hlaid b
  | some targetBB =>
    obtain ⟨pre, post, l, t, hsrc, hdst, hne, hanchor, hedit⟩ :=
      chosenTarget_edit hctx h ho hi hchosen
    have hicur : i ∈ st.trail.current.body origBB := by
      rw [hsrc]
      exact List.mem_append_right _ List.mem_cons_self
    intro b
    set F' := (TraceScheduler.hoistStep ctx st i).trail.current with hF'
    by_cases hbd : b = targetBB
    · -- the newcomer stands before the terminator
      subst hbd
      have hbody' : F'.body b = l ++ [i, t] := by
        rw [hedit]
        exact Function.update_self ..
      have hb : b ∈ F₁.blocks := by
        rw [← hblocks]
        apply hwf.mem_blocks (i := t)
        rw [hdst]
        exact List.mem_append_right _ List.mem_cons_self
      obtain ⟨L, t', hL, ht', _⟩ := h.terminator hctx.wf hown hb
      have hm := hlaid b
      rw [hdst, hL] at hm
      have hlast := hm
      rw [arrange_concat _ ht'] at hlast
      obtain rfl : t = t' := by simpa using (List.append_inj' hlast rfl).2
      have hiown : i ∉ L ++ [t] := by
        rw [← hL]
        exact fun hib => hne ((hown.wellFormed hctx.wf).body_unique hib hi₂)
      have hholds : ∀ y, F'.holds b y = (st.trail.current.holds b y || decide (y = i)) := by
        intro y
        rw [Bool.eq_iff_iff, Function.holds_iff, hbody', Bool.or_eq_true, Function.holds_iff, hdst,
          decide_eq_true_iff]
        simp only [List.mem_append, List.mem_cons, List.not_mem_nil, or_false]
        tauto
      rw [hbody', hL, arrange_congr fun y _ => hholds y]
      exact (arrange_arrive ht' hiown hnew hm.symm).symm
    · by_cases hbs : b = origBB
      · -- the instruction is gone, and the rest closes up
        subst hbs
        have hbody' : F'.body b = pre ++ post := by
          rw [hedit]
          exact (Function.update_of_ne hbd _ _).trans (Function.update_self ..)
        have hnd := hwf.body_nodup b
        rw [hsrc] at hnd
        have hipre : i ∉ pre ++ post := (List.nodup_middle.mp hnd).notMem
        have hb : b ∈ F₁.blocks := by
          rw [← hblocks]
          exact hwf.mem_blocks hicur
        obtain ⟨L, t', hL, ht', htanchor⟩ := h.terminator hctx.wf hown hb
        have hti : t' ≠ i := by
          intro heq
          rw [h.moved.isAnchor_eq, ← heq, htanchor] at hanchor
          cases hanchor
        have hholds : ∀ y, F'.holds b y = (st.trail.current.holds b y && decide (y ≠ i)) := by
          intro y
          rw [Bool.eq_iff_iff, Function.holds_iff, hbody', Bool.and_eq_true, Function.holds_iff, hsrc,
            decide_eq_true_iff]
          constructor
          · intro hy
            refine ⟨?_, fun heq => hipre (heq ▸ hy)⟩
            exact ((List.sublist_cons_self i post).append_left pre).subset hy
          · rintro ⟨hy, hyi⟩
            rcases List.mem_append.mp hy with hy | hy
            · exact List.mem_append_left _ hy
            · exact List.mem_append_right _ ((List.mem_cons.mp hy).resolve_left hyi)
        have hfilter : (pre ++ i :: post).filter (fun y => decide (y ≠ i)) = pre ++ post := by
          rw [List.filter_append, List.filter_cons_of_neg (by simp), ← List.filter_append]
          exact List.filter_eq_self.mpr fun y hy => decide_eq_true fun heq => hipre (heq ▸ hy)
        rw [arrange_pass fun _ => hi₂, arrange_congr fun y _ => hholds y, hL, arrange_leave ht' hti,
          ← hL, ← hlaid b, hsrc, hfilter, hbody']
      · have hbody' : F'.body b = st.trail.current.body b := by
          rw [hedit]
          exact (Function.update_of_ne hbd _ _).trans (Function.update_of_ne hbs _ _)
        have hholds : F'.holds b = st.trail.current.holds b := by
          funext y
          rw [Function.holds, Function.holds, hbody']
        rw [hholds, arrange_pass fun hb => hcur b (Function.holds_iff.mp hb), hbody']
        exact hlaid b

/-- A whole run of Phase 2. -/
theorem LaidOut.run (hctx : OnTrace ctx F₁) {schedule : List InstrId}
    (h : Phase2Inv ctx F₁ schedule st) (hown : Motions (fun _ _ _ => False) F₁ F₂)
    (hlaid : LaidOut F₂.body done st.trail.current) (hnd : (done ++ schedule).Nodup)
    (hsched : ScheduledOnTrace ctx F₁ schedule) :
    LaidOut F₂.body (done ++ schedule)
      (schedule.foldl (TraceScheduler.hoistStep ctx) st).trail.current := by
  induction schedule generalizing st done with
  | nil =>
    rw [List.append_nil]
    exact hlaid
  | cons i schedule ih =>
    obtain ⟨bb, hbb, hi⟩ := hsched i List.mem_cons_self
    have hparts := List.nodup_append.mp hnd
    have hnew : i ∉ done := fun hi => hparts.2.2 i hi i List.mem_cons_self rfl
    have hnext := hlaid.hoistStep hctx h hown hnew hbb hi
    obtain ⟨hinv, _, _, _⟩ := h.hoistStep hctx hparts.2.1 hbb hi
    have hsplit : done ++ i :: schedule = done ++ [i] ++ schedule := by simp
    rw [hsplit] at hnd ⊢
    exact ih hinv hnext hnd fun j hj => hsched j (List.mem_cons_of_mem _ hj)

end

/-! ### The pass -/

section

variable {A : Analyses F.cfg} {universeIndex : Value → Option ℕ} {livenessResult : LivenessResult}
  {usePressure : Bool} {pressureBudget : ℤ} {statsOn : Bool} {st st' : PassState}

/-- One trace: its blocks are laid out anew, no other block is touched. -/
theorem ScheduledTrace.bodies (h : ScheduledTrace F A universeIndex livenessResult usePressure
    pressureBudget statsOn trace st st' schedule) (htrace : trace.Nodup) :
    (∀ b ∈ trace, st'.trail.current.body b =
      arrange (scheduledBody st.trail.current schedule b) schedule (st'.trail.current.holds b)) ∧
    ∀ b, b ∉ trace → st'.trail.current.body b = st.trail.current.body b := by
  obtain ⟨hctx, hinv⟩ := h.appliable.phase2Inv A universeIndex livenessResult usePressure
    pressureBudget statsOn st.hoistStats
  have hphase1 : Motions (fun _ _ _ => False) st.trail.current
      (reorderTrace schedule trace st.trail).current :=
    (reorderTrace_steps h.appliable.nodup h.appliable.wf h.appliable.respects).current
  obtain ⟨hon, hoff⟩ := reorderTrace_body h.appliable.nodup htrace h.appliable.wf h.appliable.respects
  have hstart : LaidOut (reorderTrace schedule trace st.trail).current.body []
      (reorderTrace schedule trace st.trail).current := by
    intro b
    refine (arrange_eq_self (fun x hx => Function.holds_iff.mpr hx) ?_).symm
    intro x hx
    cases hx
  have hlaid := hstart.run hctx hinv hphase1 h.appliable.nodup h.appliable.scheduled
  rw [List.nil_append, ← applySchedule, ← h.result] at hlaid
  constructor
  · intro b hb
    rw [← hon b hb]
    exact hlaid b
  · intro b hb
    rw [hlaid b, hoff b hb]
    apply arrange_eq_self
    · intro x hx
      exact Function.holds_iff.mpr ((h.mem_off_trace hb x).mpr hx)
    · intro x _ hx
      exact (h.mem_off_trace hb x).mp (Function.holds_iff.mp hx)

theorem ScheduledTraces.bodies {todo : List (List BasicBlock)}
    (h : ScheduledTraces F A universeIndex livenessResult usePressure pressureBudget statsOn todo st
      st') (hdisj : todo.flatten.Nodup) (hinstr : st.trail.current.instr = F.instr)
    (hbody : ∀ b ∈ todo.flatten, st.trail.current.body b = F.body b) :
    (∀ b, b ∉ todo.flatten → st'.trail.current.body b = st.trail.current.body b) ∧
    ∀ trace ∈ todo, ∃ schedule, IsTraceSchedule F trace schedule ∧ ∀ b ∈ trace,
      st'.trail.current.body b =
        arrange (scheduledBody F schedule b) schedule (st'.trail.current.holds b) := by
  induction h with
  | nil st =>
    constructor
    · intro b _
      rfl
    · intro trace htrace
      cases htrace
  | @cons trace todo st st₁ st₂ schedule hfirst hrest ih =>
    rw [List.flatten_cons] at hdisj hbody
    obtain ⟨htrace, htodo, hapart⟩ := List.nodup_append.mp hdisj
    obtain ⟨hon, hoff⟩ := hfirst.bodies htrace
    have hinstr₁ : st₁.trail.current.instr = F.instr :=
      hfirst.steps.current.sameCode.instr.trans hinstr
    have hbody₁ : ∀ b ∈ todo.flatten, st₁.trail.current.body b = F.body b := by
      intro b hb
      rw [hoff b fun hb' => hapart b hb' b hb rfl]
      exact hbody b (List.mem_append_right _ hb)
    obtain ⟨hkept, hlaid⟩ := ih htodo hinstr₁ hbody₁
    constructor
    · intro b hb
      rw [List.flatten_cons, List.mem_append, not_or] at hb
      exact (hkept b hb.2).trans (hoff b hb.1)
    · intro trace' htrace'
      rcases List.mem_cons.mp htrace' with rfl | htrace'
      · refine ⟨schedule, hfirst.complete, fun b hb => ?_⟩
        have hsame := hkept b fun hb' => hapart b hb b hb' rfl
        have hholds : st₂.trail.current.holds b = st₁.trail.current.holds b := by
          funext x
          rw [Function.holds, Function.holds, hsame]
        rw [hholds, hsame, hon b hb,
          scheduledBody_congr hinstr (hbody b (List.mem_append_left _ hb))]
      · exact hlaid trace' htrace'

end

/-- **Where everything stands after the global pass.** A block of no trace is exactly as it was.  A
block of a trace holds its own instructions that stayed, anchors at their places among them and each
region in the order of the trace's schedule, then the instructions hoisted into it in the order of the
schedule, then its terminator. -/
theorem globalSchedulerPass_layout (hF : Schedulable F) (usePressure : Bool) (env : SchedEnv)
    (profile : Profile) (A : Analyses F.cfg) :
    ∃ st traceState, globalSchedulerPass usePressure env F profile A = some st ∧
      identifyTraces F profile (getTraceThreshold env) (schedStatsEnabled env) = some traceState ∧
      (∀ b, b ∉ traceState.traces.flatten → st.trail.current.body b = F.body b) ∧
      ∀ trace ∈ traceState.traces, ∃ schedule, IsTraceSchedule F trace schedule ∧ ∀ b ∈ trace,
        st.trail.current.body b = layout F schedule st.trail.current.getParent b := by
  obtain ⟨st, livenessResult, bfsOrder, traces, hrun, hspec⟩ :=
    globalSchedulerPass_spec hF usePressure env profile A
  obtain ⟨stats, visited, htraces⟩ := hspec.identified
  obtain ⟨hkept, hlaid⟩ := hspec.scheduled.bodies hspec.partition.nodup rfl fun _ _ => rfl
  refine ⟨st, _, hrun, htraces, hkept, fun trace htrace => ?_⟩
  obtain ⟨schedule, hsched, hbody⟩ := hlaid trace htrace
  refine ⟨schedule, hsched, fun b hb => (hbody b hb).trans ?_⟩
  have hmotions := hspec.steps.current
  have hwf := hmotions.wellFormed hF.wf
  rw [layout]
  apply arrange_congr
  intro i hi
  -- whatever is laid out is in the function, so it has a parent
  have hmem : ∃ b', i ∈ F.body b' := by
    rcases hi with hi | hi
    · exact ⟨b, (mapRuns_perm scheduledRegion_perm _ _).mem_iff.mp hi⟩
    · obtain ⟨⟨b', _, hb'⟩, _⟩ := (hsched.mem_iff i).mp hi
      exact ⟨b', hb'⟩
  obtain ⟨b', hb'⟩ := (hmotions.exists_mem hF.wf).mpr hmem
  rw [Bool.eq_iff_iff, Function.holds_iff, decide_eq_true_iff, hwf.getParent_eq hb']
  constructor
  · intro hib
    exact hwf.body_unique hb' hib
  · intro heq
    exact heq ▸ hb'

theorem twoBlocks_layout : ∃ st traceState,
    globalSchedulerPass true ⟨none, none, false⟩ twoBlocks certain twoBlocksAnalyses = some st ∧
      identifyTraces twoBlocks certain (getTraceThreshold ⟨none, none, false⟩) false =
        some traceState ∧
      ∀ trace ∈ traceState.traces, ∃ schedule, IsTraceSchedule twoBlocks trace schedule ∧
        ∀ b ∈ trace, st.trail.current.body b =
          layout twoBlocks schedule st.trail.current.getParent b := by
  obtain ⟨st, traceState, hrun, htraces, _, hlaid⟩ := globalSchedulerPass_layout
    ⟨twoBlocks_wellFormed, twoBlocks_ssa⟩ true ⟨none, none, false⟩ certain twoBlocksAnalyses
  exact ⟨st, traceState, hrun, htraces, hlaid⟩

end TraceScheduler
