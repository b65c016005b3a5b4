import TraceScheduler.Library.PairOrder
import TraceScheduler.Library.Segments
import TraceScheduler.ScheduleLegality
import TraceScheduler.Verifier

/-!
# What the region rewriter makes of a block

`reorderBlockWithinRegions` collects all regions before it touches the first, and then splices one
after the other into a block that keeps changing.  A splice moves the members of its own region only,
between the anchors around it, so the regions still to come are where they were collected.  The whole
rewriting therefore rearranges each run on its own (`reorderBlockWithinRegions_mapRuns`), whatever the
schedule repeats, leaves out or brings along from other blocks.
-/

namespace TraceScheduler

open scoped List

variable {F : Function} {schedule region rest current pre run post : List InstrId} {bb : BasicBlock}
  {tr : Trail}

/-! ### One region -/

/-- What rewriting leaves of a region that an anchor ends. -/
def scheduledRegion (schedule region : List InstrId) : List InstrId :=
  if (orderRegion schedule region).length = region.length then orderRegion schedule region
  else region

theorem scheduledRegion_perm (region : List InstrId) : scheduledRegion schedule region ~ region := by
  rw [scheduledRegion]
  split
  · rename_i hlen
    exact orderRegion_perm hlen
  · exact .refl region

/-- The members taken from a schedule come in the order of their first occurrence in it. -/
theorem orderRegion_pairwise (schedule region : List InstrId) :
    (orderRegion schedule region).Pairwise fun x y => schedule.idxOf x < schedule.idxOf y := by
  induction schedule using List.reverseRecOn with
  | nil => exact List.Pairwise.nil
  | append_singleton done s ih =>
    have hold : ∀ x ∈ orderRegion done region, (done ++ [s]).idxOf x = done.idxOf x ∧
        done.idxOf x < done.length := by
      intro x hx
      have hmem := (((orderRegion_spec done region).2 x).mp hx).1
      exact ⟨List.idxOf_append_of_mem hmem, List.idxOf_lt_length_iff.mpr hmem⟩
    have hpairs : (orderRegion done region).Pairwise fun x y =>
        (done ++ [s]).idxOf x < (done ++ [s]).idxOf y := by
      apply List.Pairwise.imp_of_mem _ ih
      intro x y hx hy hlt
      rw [(hold x hx).1, (hold y hy).1]
      exact hlt
    rw [orderRegion, List.foldl_append, List.foldl_cons, List.foldl_nil, ← orderRegion, takeMember]
    split
    · rename_i hnew
      simp only [Bool.and_eq_true, List.contains_iff_mem, Bool.not_eq_true', ← Bool.not_eq_true] at hnew
      apply List.pairwise_append.mpr
      refine ⟨hpairs, List.pairwise_singleton _ s, ?_⟩
      intro x hx y hy
      rw [List.mem_singleton.mp hy]
      -- a member of the region that was not taken before occurs for the first time
      have hs : s ∉ done := fun hs => hnew.2 (((orderRegion_spec done region).2 s).mpr ⟨hs, hnew.1⟩)
      rw [(hold x hx).1, List.idxOf_append_of_notMem hs, List.idxOf_cons_self]
      exact (hold x hx).2
    · exact hpairs

/-- A region whose members all occur in the schedule is put into its order, another one is left. -/
theorem scheduledRegion_spec (schedule : List InstrId) (hnd : region.Nodup) :
    ((∀ i ∈ region, i ∈ schedule) → (scheduledRegion schedule region).Pairwise fun x y =>
      schedule.idxOf x < schedule.idxOf y) ∧
    (¬ (∀ i ∈ region, i ∈ schedule) → scheduledRegion schedule region = region) := by
  rw [scheduledRegion]
  constructor
  · intro hall
    rw [if_pos (orderRegion_length_eq hnd hall)]
    exact orderRegion_pairwise schedule region
  · intro hmissing
    apply if_neg
    intro hlen
    apply hmissing
    intro i hi
    exact (((orderRegion_spec schedule region).2 i).mp ((orderRegion_perm hlen).mem_iff.mpr hi)).1

/-! ### All regions -/

/-- Rewriting a region that an anchor ends, in terms of the block. -/
theorem rewriteRegion_current (schedule : List InstrId) {boundary : InstrId}
    (hnd : (tr.current.body bb).Nodup)
    (honce : ∀ c, c ≠ bb → ∀ i ∈ tr.current.body bb, i ∉ tr.current.body c)
    (hbody : tr.current.body bb = pre ++ region ++ boundary :: post) :
    (rewriteRegion schedule bb tr (region, some boundary)).current = { tr.current with
      body := Function.update tr.current.body bb
        (pre ++ scheduledRegion schedule region ++ boundary :: post) } := by
  rw [rewriteRegion_eq hnd honce hbody, scheduledRegion]
  split
  · rfl
  · rw [← hbody, Function.update_eq_self]

/-- **The regions of the rest of a block**, when what comes before is done with. -/
theorem foldl_rewriteRegion_current (pre current : List InstrId) (hinstr : F.instr = tr.current.instr)
    (hnd : (tr.current.body bb).Nodup)
    (honce : ∀ c, c ≠ bb → ∀ i ∈ tr.current.body bb, i ∉ tr.current.body c)
    (hbody : tr.current.body bb = pre ++ current ++ rest) :
    ((collectRegions F rest current).foldl (rewriteRegion schedule bb) tr).current =
      { tr.current with
        body := Function.update tr.current.body bb
          (pre ++ mapRuns F.isAnchor (scheduledRegion schedule) rest current) } := by
  induction rest generalizing current pre tr with
  | nil =>
    rw [mapRuns, ← List.append_nil current, ← List.append_assoc, ← hbody, Function.update_eq_self,
      List.append_nil, collectRegions]
    split
    · rfl
    · -- no anchor ends the run
      rw [List.foldl_cons, List.foldl_nil, rewriteRegion]
      split
      · rfl
      · rfl
  | cons i rest ih =>
    by_cases hi : F.isAnchor i = true
    · rw [collectRegions, if_pos hi, mapRuns_mark hi]
      split
      · rename_i hnil
        obtain rfl := List.isEmpty_iff.mp hnil
        have hempty : scheduledRegion schedule [] = [] := (scheduledRegion_perm []).eq_nil
        rw [ih (pre ++ [i]) [] hinstr hnd honce (by simpa using hbody), hempty]
        simp
      · rw [List.foldl_cons]
        have hnext := rewriteRegion_current schedule hnd honce hbody
        set tr' := rewriteRegion schedule bb tr (current, some i) with htr'
        have hself : tr'.current.body bb =
            pre ++ scheduledRegion schedule current ++ i :: rest := by
          rw [hnext]
          exact Function.update_self ..
        have hother : ∀ c, c ≠ bb → tr'.current.body c = tr.current.body c := by
          intro c hc
          rw [hnext]
          exact Function.update_of_ne hc _ _
        have hperm : tr'.current.body bb ~ tr.current.body bb := by
          rw [hself, hbody]
          exact ((scheduledRegion_perm current).append_left pre).append_right _
        have hrest := ih (pre ++ scheduledRegion schedule current ++ [i]) []
          (by rw [hnext]; exact hinstr) (hperm.nodup_iff.mpr hnd)
          (fun c hc j hj => by
            rw [hother c hc]
            exact honce c hc j (hperm.mem_iff.mp hj))
          (by rw [hself]; simp)
        rw [hrest, hnext]
        simp
    · rw [collectRegions, if_neg hi, mapRuns, if_neg hi]
      exact ih pre (current ++ [i]) hinstr hnd honce (by simpa using hbody)

theorem reorderBlockWithinRegions_mapRuns (hnd : (tr.current.body bb).Nodup)
    (honce : ∀ c, c ≠ bb → ∀ i ∈ tr.current.body bb, i ∉ tr.current.body c) :
    (reorderBlockWithinRegions schedule bb tr).current = { tr.current with
      body := Function.update tr.current.body bb
        (mapRuns tr.current.isAnchor (scheduledRegion schedule) (tr.current.body bb) []) } :=
  foldl_rewriteRegion_current [] [] rfl hnd honce rfl

/-- **The rewriter is safe and exact for any schedule.** Only the block changes, to a permutation of
itself in which every anchor keeps its index and every maximal run of non-anchors its place and its
members. A run that an anchor ends is put into the order of first occurrence in the schedule if all
its members occur there; every other run is left as it is. -/
theorem reorderBlockWithinRegions_exact (schedule : List InstrId) (bb : BasicBlock) (tr : Trail)
    (hnd : (tr.current.body bb).Nodup)
    (honce : ∀ c, c ≠ bb → ∀ i ∈ tr.current.body bb, i ∉ tr.current.body c) :
    let body := tr.current.body bb
    ∃ body', (reorderBlockWithinRegions schedule bb tr).current =
        { tr.current with body := Function.update tr.current.body bb body' } ∧
      body' ~ body ∧
      (∀ (k : ℕ) i, body[k]? = some i → tr.current.isAnchor i = true → body'[k]? = some i) ∧
      ∀ pre run post, body = pre ++ run ++ post → IsRun tr.current.isAnchor pre run post →
        ∃ pre' run' post', body' = pre' ++ run' ++ post' ∧ pre'.length = pre.length ∧ run' ~ run ∧
          (post ≠ [] → (∀ i ∈ run, i ∈ schedule) →
            run'.Pairwise fun x y => schedule.idxOf x < schedule.idxOf y) ∧
          (post = [] ∨ ¬ (∀ i ∈ run, i ∈ schedule) → run' = run) := by
  intro body
  have hf : ∀ r, scheduledRegion schedule r ~ r := scheduledRegion_perm
  refine ⟨_, reorderBlockWithinRegions_mapRuns hnd honce, mapRuns_perm hf _ _, ?_, ?_⟩
  · intro k i hk hi
    exact mapRuns_getElem? hf hi hk
  · intro pre run post hbody hrun
    obtain ⟨pre', run', post', heq, hpre, _, hrun'⟩ := mapRuns_run hf hrun
    have hrunnd : run.Nodup := by
      have hall : body.Nodup := hnd
      rw [hbody] at hall
      exact (List.nodup_append.mp (List.nodup_append.mp hall).1).2.1
    obtain ⟨hordered, hkept⟩ := scheduledRegion_spec schedule hrunnd
    refine ⟨pre', run', post', ?_, hpre.length_eq, ?_, ?_, ?_⟩
    · rw [← heq, ← hbody]
    · rw [hrun']
      split
      · exact .refl run
      · exact hf run
    · intro hpost hall
      rw [hrun', if_neg hpost]
      exact hordered hall
    · intro hcase
      rw [hrun']
      split
      · rfl
      · rename_i hpost
        exact hkept (hcase.resolve_left hpost)

/-- A schedule with a repetition, an instruction of the other block and one that does not exist. -/
theorem twoBlocks_reorder_exact :
    let schedule : List InstrId := [2, 0, 9, 0]
    let body := twoBlocks.body 0
    ∃ body', (reorderBlockWithinRegions schedule 0 (Trail.start twoBlocks)).current =
        { twoBlocks with body := Function.update twoBlocks.body 0 body' } ∧
      body' ~ body ∧
      (∀ (k : ℕ) i, body[k]? = some i → twoBlocks.isAnchor i = true → body'[k]? = some i) ∧
      ∀ pre run post, body = pre ++ run ++ post → IsRun twoBlocks.isAnchor pre run post →
        ∃ pre' run' post', body' = pre' ++ run' ++ post' ∧ pre'.length = pre.length ∧ run' ~ run ∧
          (post ≠ [] → (∀ i ∈ run, i ∈ schedule) →
            run'.Pairwise fun x y => schedule.idxOf x < schedule.idxOf y) ∧
          (post = [] ∨ ¬ (∀ i ∈ run, i ∈ schedule) → run' = run) :=
  reorderBlockWithinRegions_exact [2, 0, 9, 0] 0 (Trail.start twoBlocks)
    (twoBlocks_wellFormed.body_nodup 0)
    fun _ hc _ hi => twoBlocks_wellFormed.not_mem_of_ne hi hc

end TraceScheduler
