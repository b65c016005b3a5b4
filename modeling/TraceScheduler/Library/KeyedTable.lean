import Mathlib.Data.List.Basic
import Mathlib.Tactic.Common

/-!
# Tables with keys

`upsertBy key` replaces the row with the same key, or appends.  The row that a key finds is the last
one written under it (`findKey_upsertBy`), and writing a row that is found already changes nothing
(`upsertBy_eq_self`); so a batch of rows that has been written can be written again.  A batch takes the
place of one with the same keys, or goes to the end (`foldl_upsertBy_replace`, `foldl_upsertBy_append`).
-/

namespace TraceScheduler

variable {ρ κ : Type*} [DecidableEq κ] (key : ρ → κ)

def upsertBy (rows : List ρ) (row : ρ) : List ρ :=
  match rows with
  | [] => [row]
  | r :: rest => if key r = key row then row :: rest else r :: upsertBy rest row

/-- The first row with a key. -/
def findKey (rows : List ρ) (k : κ) : Option ρ := rows.find? fun r => key r = k

variable {key} {rows new : List ρ} {row : ρ} {k : κ}

theorem findKey_cons (r : ρ) :
    findKey key (r :: rows) k = if key r = k then some r else findKey key rows k := by
  rw [findKey, List.find?_cons]
  by_cases h : key r = k
  · simp [h]
  · simp [h, findKey]

/-- **What a key finds** after a row has been written. -/
theorem findKey_upsertBy :
    findKey key (upsertBy key rows row) k = if key row = k then some row else findKey key rows k := by
  induction rows with
  | nil => rw [upsertBy, findKey_cons]
  | cons r rest ih =>
    rw [upsertBy]
    split
    · rename_i hr
      rw [findKey_cons, findKey_cons, hr]
      by_cases hk : key row = k
      · rw [if_pos hk, if_pos hk]
      · rw [if_neg hk, if_neg hk, if_neg hk]
    · rename_i hr
      rw [findKey_cons, findKey_cons, ih]
      by_cases hk : key row = k
      · rw [if_pos hk, if_pos hk, if_neg fun h => hr (h.trans hk.symm)]
      · rw [if_neg hk, if_neg hk]

theorem upsertBy_eq_self (h : findKey key rows (key row) = some row) :
    upsertBy key rows row = rows := by
  induction rows with
  | nil => cases h
  | cons r rest ih =>
    rw [findKey_cons] at h
    rw [upsertBy]
    split at h
    · rename_i hr
      rw [if_pos hr, Option.some.inj h]
    · rename_i hr
      rw [if_neg hr, ih h]

/-- Of rows with different keys each is found. -/
theorem findKey_of_mem (hnd : (rows.map key).Nodup) (h : row ∈ rows) :
    findKey key rows (key row) = some row := by
  induction rows with
  | nil => cases h
  | cons r rest ih =>
    rw [List.map_cons, List.nodup_cons] at hnd
    rw [findKey_cons]
    rcases List.mem_cons.mp h with rfl | h
    · rw [if_pos rfl]
    · have hne : key r ≠ key row := fun heq => hnd.1 (heq ▸ List.mem_map_of_mem h)
      rw [if_neg hne, ih hnd.2 h]

/-- The keys after a row has been written. -/
theorem map_key_upsertBy : (upsertBy key rows row).map key =
    if key row ∈ rows.map key then rows.map key else rows.map key ++ [key row] := by
  induction rows with
  | nil => rfl
  | cons r rest ih =>
    rw [upsertBy, List.map_cons]
    by_cases hr : key r = key row
    · rw [if_pos hr, if_pos (hr ▸ List.mem_cons_self), List.map_cons, hr]
    · rw [if_neg hr, List.map_cons, ih]
      by_cases hmem : key row ∈ rest.map key
      · rw [if_pos hmem, if_pos (List.mem_cons_of_mem _ hmem)]
      · rw [if_neg hmem, if_neg (List.not_mem_cons_of_ne_of_not_mem (Ne.symm hr) hmem),
          List.cons_append]

theorem mem_of_mem_upsertBy {r : ρ} (h : r ∈ upsertBy key rows row) : r = row ∨ r ∈ rows := by
  induction rows with
  | nil => exact .inl (List.mem_singleton.mp h)
  | cons first rest ih =>
    rw [upsertBy] at h
    split at h
    · rcases List.mem_cons.mp h with h | h
      · exact .inl h
      · exact .inr (List.mem_cons_of_mem first h)
    · rcases List.mem_cons.mp h with rfl | h
      · exact .inr List.mem_cons_self
      · exact (ih h).imp id (List.mem_cons_of_mem first)

/-! ### Batches -/

/-- A row is of the batch, or it was there. -/
theorem mem_of_mem_foldl_upsertBy (h : row ∈ new.foldl (upsertBy key) rows) :
    row ∈ new ∨ row ∈ rows := by
  induction new generalizing rows with
  | nil => exact .inr h
  | cons r new ih =>
    rcases ih h with h | h
    · exact .inl (List.mem_cons_of_mem r h)
    · rcases mem_of_mem_upsertBy h with rfl | h
      · exact .inl List.mem_cons_self
      · exact .inr h

/-- A key that no row of the batch has finds what it found. -/
theorem findKey_foldl_of_notMem (hk : ∀ r ∈ new, key r ≠ k) :
    findKey key (new.foldl (upsertBy key) rows) k = findKey key rows k := by
  induction new generalizing rows with
  | nil => rfl
  | cons r new ih =>
    rw [List.foldl_cons, ih fun x hx => hk x (List.mem_cons_of_mem r hx), findKey_upsertBy,
      if_neg (hk r List.mem_cons_self)]

/-- Every row of a batch with different keys is found. -/
theorem findKey_foldl_of_mem (hnd : (new.map key).Nodup) (h : row ∈ new) :
    findKey key (new.foldl (upsertBy key) rows) (key row) = some row := by
  induction new generalizing rows with
  | nil => cases h
  | cons r new ih =>
    rw [List.map_cons, List.nodup_cons] at hnd
    rw [List.foldl_cons]
    rcases List.mem_cons.mp h with rfl | h
    · rw [findKey_foldl_of_notMem, findKey_upsertBy, if_pos rfl]
      intro x hx heq
      exact hnd.1 (heq ▸ List.mem_map_of_mem hx)
    · exact ih hnd.2 h

/-- **A batch that is found can be written again.** -/
theorem foldl_upsertBy_eq_self (h : ∀ r ∈ new, findKey key rows (key r) = some r) :
    new.foldl (upsertBy key) rows = rows := by
  induction new with
  | nil => rfl
  | cons r new ih =>
    rw [List.foldl_cons, upsertBy_eq_self (h r List.mem_cons_self)]
    exact ih fun x hx => h x (List.mem_cons_of_mem r hx)

/-! ### Where rows go -/

theorem upsertBy_append_of_notMem {pre : List ρ} (hpre : ∀ r ∈ pre, key r ≠ key row) :
    upsertBy key (pre ++ rows) row = pre ++ upsertBy key rows row := by
  induction pre with
  | nil => rfl
  | cons r pre ih =>
    rw [List.cons_append, upsertBy, if_neg (hpre r List.mem_cons_self),
      ih fun x hx => hpre x (List.mem_cons_of_mem r hx), List.cons_append]

/-- **A batch replaces one with the same keys.** -/
theorem foldl_upsertBy_replace {pre old post : List ρ} (hkeys : new.map key = old.map key)
    (hnd : (new.map key).Nodup) (hpre : ∀ r ∈ pre, ∀ x ∈ new, key r ≠ key x) :
    new.foldl (upsertBy key) (pre ++ old ++ post) = pre ++ new ++ post := by
  induction new generalizing pre old with
  | nil =>
    obtain rfl := List.map_eq_nil_iff.mp hkeys.symm
    rfl
  | cons x new ih =>
    cases old with
    | nil => cases hkeys
    | cons o old =>
      rw [List.map_cons, List.map_cons, List.cons.injEq] at hkeys
      rw [List.map_cons, List.nodup_cons] at hnd
      have hfirst : upsertBy key (pre ++ (o :: old) ++ post) x = (pre ++ [x]) ++ old ++ post := by
        rw [List.append_assoc, upsertBy_append_of_notMem fun r hr => hpre r hr x List.mem_cons_self,
          List.cons_append, upsertBy, if_pos hkeys.1.symm]
        simp
      rw [List.foldl_cons, hfirst, ih hkeys.2 hnd.2]
      · simp
      · intro r hr y hy
        rcases List.mem_append.mp hr with hr | hr
        · exact hpre r hr y (List.mem_cons_of_mem x hy)
        · obtain rfl := List.mem_singleton.mp hr
          intro heq
          exact hnd.1 (heq ▸ List.mem_map_of_mem hy)

/-- **A batch of new keys** goes to the end. -/
theorem foldl_upsertBy_append (hnd : (new.map key).Nodup)
    (hnew : ∀ r ∈ rows, ∀ x ∈ new, key r ≠ key x) :
    new.foldl (upsertBy key) rows = rows ++ new := by
  induction new generalizing rows with
  | nil => exact (List.append_nil rows).symm
  | cons x new ih =>
    rw [List.map_cons, List.nodup_cons] at hnd
    have hfirst : upsertBy key rows x = rows ++ [x] := by
      rw [← List.append_nil rows, upsertBy_append_of_notMem fun r hr => hnew r hr x List.mem_cons_self,
        List.append_nil]
      rfl
    rw [List.foldl_cons, hfirst, ih hnd.2]
    · simp
    · intro r hr y hy
      rcases List.mem_append.mp hr with hr | hr
      · exact hnew r hr y (List.mem_cons_of_mem x hy)
      · obtain rfl := List.mem_singleton.mp hr
        intro heq
        exact hnd.1 (heq ▸ List.mem_map_of_mem hy)

end TraceScheduler
