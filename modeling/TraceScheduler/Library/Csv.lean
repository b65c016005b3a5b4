import Mathlib.Data.List.Basic
import Mathlib.Tactic.Common

/-!
# Comma-separated values

The writer and the reader of Python's `csv` module with the `excel` dialect, over lists of characters:
`writeRows` quotes a field where it has to, `processChar` is the reader's state machine, fed with the
lines of the file and the end of each.  A file opened with `newline=""` hands its lines over as they
are; otherwise carriage returns come out as line feeds (`translate`).

What is written reads back, if no field is longer than the reader's limit, and is refused otherwise
(`readText_writeRows`); with line ends translated it reads back with the line ends in the fields
translated (`readTranslated_writeRows`).
-/

namespace TraceScheduler.Csv

abbrev Record := List (List Char)

/-! ### Writing -/

def needsQuotes (field : List Char) : Bool :=
  field.any fun c => c == ',' || c == '"' || c == '\r' || c == '\n'

def doubleQuotes (field : List Char) : List Char :=
  field.flatMap fun c => if c = '"' then ['"', '"'] else [c]

/-- A field; an empty one is quoted if it is alone in its record. -/
def writeField (alone : Bool) (field : List Char) : List Char :=
  if needsQuotes field || (alone && field.isEmpty) then '"' :: (doubleQuotes field ++ ['"']) else field

def writeFields (alone : Bool) : Record → List Char
  | [] => []
  | [field] => writeField alone field
  | field :: fields => writeField alone field ++ ',' :: writeFields alone fields

/-- `writerow`, with the line terminator. -/
def writeRecord (terminator : List Char) (record : Record) : List Char :=
  writeFields (record.length == 1) record ++ terminator

def writeRows (terminator : List Char) (rows : List Record) : List Char :=
  rows.flatMap (writeRecord terminator)

theorem writeFields_cons_cons (alone : Bool) (field next : List Char) (record : Record) :
    writeFields alone (field :: next :: record) =
      writeField alone field ++ ',' :: writeFields alone (next :: record) := rfl

/-! ### Reading -/

inductive ReaderState
  | startRecord
  | startField
  | inField
  | inQuotedField
  | quoteInQuotedField
  | eatCrnl
  deriving DecidableEq, Repr

/-- The reader inside a record: the fields it has, and what there is of the next. -/
structure Reader where
  state : ReaderState
  field : List Char
  fields : Record

namespace Reader

def reset : Reader := ⟨.startRecord, [], []⟩

/-- `parse_save_field`, and the next state. -/
def saveField (r : Reader) (state : ReaderState) : Reader := ⟨state, [], r.fields ++ [r.field]⟩

/-- `parse_add_char`, and the next state. -/
def addChar (limit : ℕ) (r : Reader) (c : Char) (state : ReaderState) : Option Reader :=
  if r.field.length ≥ limit then none else some ⟨state, r.field ++ [c], r.fields⟩

def goto (r : Reader) (state : ReaderState) : Reader := { r with state := state }

/-- The end of a field, where a line ends. -/
def endField (r : Reader) (c : Option Char) : Reader :=
  r.saveField (if c.isNone then .startRecord else .eatCrnl)

end Reader

/-- A line ends here: at `EOL`, or at a line break. -/
def isEnd : Option Char → Bool
  | none => true
  | some c => c == '\n' || c == '\r'

/-- `parse_process_char`; `none` in place of a character is `EOL`. -/
def processChar (limit : ℕ) (r : Reader) (c : Option Char) : Option Reader :=
  match r.state, c with
  | .startRecord, none => some r
  | .startRecord, some c =>
      if isEnd (some c) then some (r.goto .eatCrnl)
      else if c = '"' then some (r.goto .inQuotedField)
      else if c = ',' then some (r.saveField .startField)
      else r.addChar limit c .inField
  | .startField, none => some (r.endField none)
  | .startField, some c =>
      if isEnd (some c) then some (r.endField (some c))
      else if c = '"' then some (r.goto .inQuotedField)
      else if c = ',' then some (r.saveField .startField)
      else r.addChar limit c .inField
  | .inField, none => some (r.endField none)
  | .inField, some c =>
      if isEnd (some c) then some (r.endField (some c))
      else if c = ',' then some (r.saveField .startField)
      else r.addChar limit c .inField
  | .inQuotedField, none => some r
  | .inQuotedField, some c =>
      if c = '"' then some (r.goto .quoteInQuotedField) else r.addChar limit c .inQuotedField
  | .quoteInQuotedField, none => some (r.endField none)
  | .quoteInQuotedField, some c =>
      if c = '"' then r.addChar limit c .inQuotedField
      else if c = ',' then some (r.saveField .startField)
      else if isEnd (some c) then some (r.endField (some c))
      else r.addChar limit c .inField
  | .eatCrnl, none => some (r.goto .startRecord)
  | .eatCrnl, some c => if isEnd (some c) then some r else none

/-- The end of a line: the record is complete, or goes on in the next line. -/
def endLine (limit : ℕ) (r : Reader) (rest : Reader → Option (List Record)) : Option (List Record) :=
  (processChar limit r none).bind fun r =>
    if r.state = .startRecord then (rest .reset).map (r.fields :: ·) else rest r

/-- The end of the file, in the middle of a record if it is in a quoted field. -/
def finish (r : Reader) : List Record :=
  if r.field ≠ [] ∨ r.state = .inQuotedField then [(r.saveField .startRecord).fields] else []

/-- The records of the lines that are left. -/
def readLines (limit : ℕ) : Reader → List (List Char) → Option (List Record)
  | r, [] => some (finish r)
  | r, line :: lines =>
      (line.foldlM (fun r c => processChar limit r (some c)) r).bind fun r =>
        endLine limit r fun r => readLines limit r lines

/-- A line ends after `c`; a carriage return and a line feed belong together. -/
def endsLine (c : Char) (rest : List Char) : Bool :=
  c == '\n' || (c == '\r' && rest.head? != some '\n')

/-- The lines of a file with their ends, after what there is of the first. -/
def linesFrom : List Char → List Char → List (List Char)
  | [], line => if line.isEmpty then [] else [line]
  | c :: cs, line =>
      if endsLine c cs then (line ++ [c]) :: linesFrom cs [] else linesFrom cs (line ++ [c])

/-- The records of a file that was opened with `newline=""`. -/
def readText (limit : ℕ) (text : List Char) : Option (List Record) :=
  readLines limit .reset (linesFrom text [])

/-- Line ends as a file gives them that was opened without `newline`. -/
def translate : List Char → List Char
  | [] => []
  | c :: cs =>
      if c = '\r' then
        if cs.head? = some '\n' then translate cs else '\n' :: translate cs
      else c :: translate cs

/-- The records of a file that was opened without `newline`. -/
def readTranslated (limit : ℕ) (text : List Char) : Option (List Record) :=
  readText limit (translate text)

/-! ### The reader, character by character -/

/-- The records from a character on; `inLine` says whether its line has begun. -/
def readFrom (limit : ℕ) : Reader → Bool → List Char → Option (List Record)
  | r, inLine, [] => if inLine then endLine limit r fun r => some (finish r) else some (finish r)
  | r, _, c :: cs =>
      (processChar limit r (some c)).bind fun r =>
        if endsLine c cs then endLine limit r fun r => readFrom limit r false cs
        else readFrom limit r true cs

variable {limit : ℕ} {r : Reader} {line cs rest field : List Char} {c : Char} {inLine : Bool}

/-- Reading line by line is reading character by character. -/
theorem readLines_linesFrom (text : List Char) : readLines limit r (linesFrom text line) =
    (line.foldlM (fun r c => processChar limit r (some c)) r).bind fun r =>
      readFrom limit r (!line.isEmpty) text := by
  induction text generalizing r line with
  | nil =>
    cases line with
    | nil => rfl
    | cons c line => rfl
  | cons c cs ih =>
    rw [linesFrom]
    split
    · rename_i hends
      rw [readLines, List.foldlM_append, Option.bind_eq_bind, Option.bind_assoc]
      congr 1
      funext r'
      rw [readFrom]
      simp only [List.foldlM_cons, List.foldlM_nil, Option.bind_eq_bind, Option.pure_def,
        Option.bind_fun_some, hends, if_true]
      congr 1
      funext r''
      congr 1
      funext r'''
      rw [ih]
      rfl
    · rename_i hends
      rw [ih, List.foldlM_append, Option.bind_eq_bind, Option.bind_assoc]
      congr 1
      funext r'
      rw [readFrom]
      have hline : (!(line ++ [c]).isEmpty) = true := by
        cases line with
        | nil => rfl
        | cons d line => rfl
      simp only [List.foldlM_cons, List.foldlM_nil, Option.bind_eq_bind, Option.pure_def,
        Option.bind_fun_some, hends, hline]
      rfl

theorem readText_eq (text : List Char) : readText limit text = readFrom limit .reset false text := by
  rw [readText, readLines_linesFrom]
  rfl

/-! ### One field -/

variable {fields : Record}

/-- A character inside quotes. -/
theorem readFrom_quoted (hc : c ≠ '"') :
    readFrom limit ⟨.inQuotedField, field, fields⟩ inLine (c :: cs) =
      if field.length < limit then
        readFrom limit ⟨.inQuotedField, field ++ [c], fields⟩ (!endsLine c cs) cs
      else none := by
  rw [readFrom]
  simp only [processChar, hc, if_false, Reader.addChar]
  by_cases hlt : field.length < limit
  · rw [if_neg (by omega), if_pos hlt, Option.bind_some]
    cases endsLine c cs with
    | true => rfl
    | false => rfl
  · rw [if_pos (by omega), if_neg hlt]
    rfl

/-- A quote inside quotes is written twice. -/
theorem readFrom_quotes :
    readFrom limit ⟨.inQuotedField, field, fields⟩ inLine ('"' :: '"' :: cs) =
      if field.length < limit then readFrom limit ⟨.inQuotedField, field ++ ['"'], fields⟩ true cs
      else none := by
  have hfirst : endsLine '"' ('"' :: cs) = false := rfl
  have hsecond : endsLine '"' cs = false := rfl
  rw [readFrom, hfirst]
  show readFrom limit ⟨.quoteInQuotedField, field, fields⟩ true ('"' :: cs) = _
  rw [readFrom, hsecond]
  simp only [processChar, if_true, Reader.addChar]
  by_cases hlt : field.length < limit
  · rw [if_neg (by omega), if_pos hlt]
    rfl
  · rw [if_pos (by omega), if_neg hlt]
    rfl

/-- **The rest of a quoted field**, up to the quote at its end. -/
theorem readFrom_quotedField (text : List Char) (hfield : field.length ≤ limit) :
    readFrom limit ⟨.inQuotedField, field, fields⟩ inLine (doubleQuotes text ++ '"' :: rest) =
      if field.length + text.length ≤ limit then
        readFrom limit ⟨.quoteInQuotedField, field ++ text, fields⟩ true rest
      else none := by
  induction text generalizing field inLine with
  | nil =>
    rw [if_pos (show field.length + ([] : List Char).length ≤ limit from hfield), List.append_nil]
    rfl
  | cons c text ih =>
    have hstep : ∀ inLine', (if field.length < limit then
          readFrom limit ⟨.inQuotedField, field ++ [c], fields⟩ inLine'
            (doubleQuotes text ++ '"' :: rest) else none) =
        if field.length + (c :: text).length ≤ limit then
          readFrom limit ⟨.quoteInQuotedField, field ++ c :: text, fields⟩ true rest
        else none := by
      intro inLine'
      by_cases hlt : field.length < limit
      · have hnext : (field ++ [c]).length ≤ limit := by
          rw [List.length_append, List.length_singleton]
          omega
        rw [if_pos hlt, ih hnext, List.append_assoc, List.singleton_append, List.length_append,
          List.length_singleton, List.length_cons, Nat.add_right_comm, Nat.add_assoc]
      · rw [if_neg hlt, if_neg (by rw [List.length_cons]; omega)]
    by_cases hc : c = '"'
    · subst hc
      have hdouble : doubleQuotes ('"' :: text) = '"' :: '"' :: doubleQuotes text := rfl
      rw [hdouble, List.cons_append, List.cons_append, readFrom_quotes, hstep]
    · have hdouble : doubleQuotes (c :: text) = c :: doubleQuotes text := by
        simp [doubleQuotes, hc]
      rw [hdouble, List.cons_append, readFrom_quoted hc, hstep]

/-- A character that needs no quotes. -/
def Plain (c : Char) : Prop := c ≠ ',' ∧ c ≠ '"' ∧ c ≠ '\r' ∧ c ≠ '\n'

theorem needsQuotes_eq_false : needsQuotes field = false ↔ ∀ c ∈ field, Plain c := by
  simp only [needsQuotes, List.any_eq_false, Bool.or_eq_true, beq_iff_eq, not_or, Plain, and_assoc]

theorem Plain.isEnd (hc : Plain c) : isEnd (some c) = false := by
  simp [Csv.isEnd, hc.2.2.1, hc.2.2.2]

theorem Plain.endsLine (hc : Plain c) : endsLine c cs = false := by
  simp [Csv.endsLine, hc.2.2.1, hc.2.2.2]

/-- A plain character goes into the field. -/
theorem readFrom_plain (hc : Plain c) {state : ReaderState}
    (hstate : state = .startRecord ∨ state = .startField ∨ state = .inField) :
    readFrom limit ⟨state, field, fields⟩ inLine (c :: cs) =
      if field.length < limit then readFrom limit ⟨.inField, field ++ [c], fields⟩ true cs else none := by
  have hprocess : processChar limit ⟨state, field, fields⟩ (some c) =
      Reader.addChar limit ⟨state, field, fields⟩ c .inField := by
    rcases hstate with rfl | rfl | rfl
    · simp [processChar, hc.isEnd, hc.1, hc.2.1]
    · simp [processChar, hc.isEnd, hc.1, hc.2.1]
    · simp [processChar, hc.isEnd, hc.1]
  rw [readFrom, hprocess, Reader.addChar, hc.endsLine]
  by_cases hlt : field.length < limit
  · rw [if_neg (by show ¬ field.length ≥ limit; omega), if_pos hlt]
    rfl
  · rw [if_pos (by show field.length ≥ limit; omega), if_neg hlt]
    rfl

/-- **The rest of a field without quotes.** -/
theorem readFrom_plainField {text : List Char} (htext : ∀ c ∈ text, Plain c)
    (hfield : field.length ≤ limit) :
    readFrom limit ⟨.inField, field, fields⟩ inLine (text ++ rest) =
      if field.length + text.length ≤ limit then
        readFrom limit ⟨.inField, field ++ text, fields⟩ (inLine || !text.isEmpty) rest
      else none := by
  induction text generalizing field inLine with
  | nil =>
    rw [if_pos (show field.length + ([] : List Char).length ≤ limit from hfield), List.append_nil]
    simp
  | cons c text ih =>
    rw [List.forall_mem_cons] at htext
    rw [List.cons_append, readFrom_plain htext.1 (.inr (.inr rfl))]
    by_cases hlt : field.length < limit
    · have hnext : (field ++ [c]).length ≤ limit := by
        rw [List.length_append, List.length_singleton]
        omega
      rw [if_pos hlt, ih htext.2 hnext, List.append_assoc, List.singleton_append, List.length_append,
        List.length_singleton, List.length_cons, Nat.add_right_comm, Nat.add_assoc]
      simp
    · rw [if_neg hlt, if_neg (by rw [List.length_cons]; omega)]

/-- **One field**, whatever comes after it. -/
theorem readFrom_writeField {start : ReaderState} (hstart : start = .startRecord ∨ start = .startField)
    (alone : Bool) (text : List Char) :
    ∃ state inLine', (state = .inField ∨ state = .quoteInQuotedField ∨
        (state = start ∧ text = [] ∧ alone = false)) ∧
      ∀ rest, readFrom limit ⟨start, [], fields⟩ inLine (writeField alone text ++ rest) =
        if text.length ≤ limit then readFrom limit ⟨state, text, fields⟩ inLine' rest else none := by
  rw [writeField]
  split
  · refine ⟨.quoteInQuotedField, true, .inr (.inl rfl), ?_⟩
    intro rest
    have hopen : readFrom limit ⟨start, [], fields⟩ inLine
        ('"' :: (doubleQuotes text ++ '"' :: rest)) =
          readFrom limit ⟨.inQuotedField, [], fields⟩ true (doubleQuotes text ++ '"' :: rest) := by
      rcases hstart with rfl | rfl
      · rfl
      · rfl
    have hquoted : readFrom limit ⟨.inQuotedField, [], fields⟩ true
        (doubleQuotes text ++ '"' :: rest) = if ([] : List Char).length + text.length ≤ limit then
          readFrom limit ⟨.quoteInQuotedField, [] ++ text, fields⟩ true rest else none :=
      readFrom_quotedField text (Nat.zero_le limit)
    rw [List.length_nil, Nat.zero_add, List.nil_append] at hquoted
    rw [List.cons_append, List.append_assoc, List.singleton_append, hopen, hquoted]
  · rename_i hplain
    rw [Bool.or_eq_true, not_or, Bool.not_eq_true, needsQuotes_eq_false] at hplain
    cases text with
    | nil =>
      refine ⟨start, inLine, .inr (.inr ⟨rfl, rfl, by simpa using hplain.2⟩), ?_⟩
      intro rest
      rw [if_pos (show ([] : List Char).length ≤ limit from Nat.zero_le limit)]
      rfl
    | cons c text =>
      have hchars := hplain.1
      rw [List.forall_mem_cons] at hchars
      refine ⟨.inField, true, .inl rfl, ?_⟩
      intro rest
      have hstate : start = .startRecord ∨ start = .startField ∨ start = .inField :=
        hstart.imp_right .inl
      rw [List.cons_append, readFrom_plain hchars.1 hstate, List.length_nil, List.nil_append]
      by_cases hlt : 0 < limit
      · have hrest : readFrom limit ⟨.inField, [c], fields⟩ true (text ++ rest) =
            if [c].length + text.length ≤ limit then
              readFrom limit ⟨.inField, [c] ++ text, fields⟩ (true || !text.isEmpty) rest
            else none := readFrom_plainField hchars.2 hlt
        rw [List.length_singleton, Bool.true_or, List.singleton_append, Nat.add_comm] at hrest
        rw [if_pos hlt, List.length_cons]
        exact hrest
      · rw [if_neg hlt, if_neg (by rw [List.length_cons]; omega)]

/-! ### Records -/

/-- A comma ends the field. -/
theorem readFrom_comma {state : ReaderState} (hstate : state ≠ .inQuotedField ∧ state ≠ .eatCrnl) :
    readFrom limit ⟨state, field, fields⟩ inLine (',' :: cs) =
      readFrom limit ⟨.startField, [], fields ++ [field]⟩ true cs := by
  have hends : endsLine ',' cs = false := rfl
  rw [readFrom, hends]
  cases state with
  | inQuotedField => exact absurd rfl hstate.1
  | eatCrnl => exact absurd rfl hstate.2
  | startRecord => rfl
  | startField => rfl
  | inField => rfl
  | quoteInQuotedField => rfl

/-- A line terminator: a line feed, with or without a carriage return. -/
def IsTerminator (terminator : List Char) : Prop := terminator = ['\r', '\n'] ∨ terminator = ['\n']

/-- A line terminator ends the field and the record. -/
theorem readFrom_terminator {terminator : List Char} (hterminator : IsTerminator terminator)
    {state : ReaderState}
    (hstate : state = .startField ∨ state = .inField ∨ state = .quoteInQuotedField) :
    readFrom limit ⟨state, field, fields⟩ inLine (terminator ++ rest) =
      (readFrom limit .reset false rest).map ((fields ++ [field]) :: ·) := by
  rcases hterminator with rfl | rfl
  · rcases hstate with rfl | rfl | rfl
    · rfl
    · rfl
    · rfl
  · rcases hstate with rfl | rfl | rfl
    · rfl
    · rfl
    · rfl

/-- **The fields of a record**, from one of them on. -/
theorem readFrom_writeFields {terminator : List Char} (hterminator : IsTerminator terminator)
    {alone : Bool} {record : Record} (hne : record ≠ []) {start : ReaderState}
    (hstart : start = .startField ∨ (start = .startRecord ∧ (record.length = 1 → alone = true))) :
    readFrom limit ⟨start, [], fields⟩ inLine (writeFields alone record ++ (terminator ++ rest)) =
      if ∀ field ∈ record, field.length ≤ limit then
        (readFrom limit .reset false rest).map ((fields ++ record) :: ·)
      else none := by
  induction record generalizing fields start inLine with
  | nil => exact absurd rfl hne
  | cons text record ih =>
    have hbegin : start = .startRecord ∨ start = .startField := hstart.symm.imp_left And.left
    obtain ⟨state, inLine', hstate, hfield⟩ : ∃ state inLine', (state = .inField ∨
        state = .quoteInQuotedField ∨ (state = start ∧ text = [] ∧ alone = false)) ∧
        ∀ rest, readFrom limit ⟨start, [], fields⟩ inLine (writeField alone text ++ rest) =
          if text.length ≤ limit then readFrom limit ⟨state, text, fields⟩ inLine' rest else none :=
      readFrom_writeField hbegin alone text
    cases record with
    | nil =>
      have hclosed : state = .startField ∨ state = .inField ∨ state = .quoteInQuotedField := by
        rcases hstate with rfl | rfl | ⟨rfl, _, halone⟩
        · exact .inr (.inl rfl)
        · exact .inr (.inr rfl)
        · -- a field that is alone is not left empty
          rcases hstart with rfl | ⟨_, hsingle⟩
          · exact .inl rfl
          · rw [hsingle rfl] at halone
            cases halone
      rw [writeFields, hfield, readFrom_terminator hterminator hclosed]
      simp only [List.forall_mem_singleton]
    | cons next record =>
      have hopen : state ≠ .inQuotedField ∧ state ≠ .eatCrnl := by
        rcases hstate with rfl | rfl | ⟨rfl, _⟩
        · decide
        · decide
        · rcases hbegin with rfl | rfl
          · decide
          · decide
      rw [writeFields_cons_cons, List.append_assoc, List.cons_append, hfield, readFrom_comma hopen,
        ih (by simp) (.inl rfl)]
      · simp only [List.forall_mem_cons (a := text)]
        by_cases hfits : text.length ≤ limit
        · simp [hfits]
        · simp [hfits]

/-- Every field is short enough for the reader. -/
def Fits (limit : ℕ) (rows : List Record) : Prop :=
  ∀ record ∈ rows, ∀ field ∈ record, field.length ≤ limit

instance (limit : ℕ) (rows : List Record) : Decidable (Fits limit rows) :=
  inferInstanceAs (Decidable (∀ record ∈ rows, ∀ field ∈ record, field.length ≤ limit))

theorem fits_cons {record : Record} {rows : List Record} : Fits limit (record :: rows) ↔
    (∀ field ∈ record, field.length ≤ limit) ∧ Fits limit rows := List.forall_mem_cons

/-- **What is written reads back**, or is refused when a field is too long. -/
theorem readText_writeRows {terminator : List Char} (hterminator : IsTerminator terminator)
    (rows : List Record) :
    readText limit (writeRows terminator rows) = if Fits limit rows then some rows else none := by
  rw [readText_eq]
  induction rows with
  | nil => rfl
  | cons record rows ih =>
    rw [writeRows, List.flatMap_cons, ← writeRows, writeRecord, List.append_assoc]
    have hrecord : readFrom limit .reset false
        (writeFields (record.length == 1) record ++ (terminator ++ writeRows terminator rows)) =
          if ∀ field ∈ record, field.length ≤ limit then
            (readFrom limit .reset false (writeRows terminator rows)).map (record :: ·)
          else none := by
      cases record with
      | nil =>
        rw [if_pos (by simp)]
        rcases hterminator with rfl | rfl
        · rfl
        · rfl
      | cons field record =>
        exact readFrom_writeFields hterminator (by simp) (.inr ⟨rfl, fun h => by simp [h]⟩)
    rw [hrecord, ih]
    by_cases hfits : ∀ field ∈ record, field.length ≤ limit
    · rw [if_pos hfits]
      by_cases hrows : Fits limit rows
      · rw [if_pos hrows, if_pos (fits_cons.mpr ⟨hfits, hrows⟩)]
        rfl
      · rw [if_neg hrows, if_neg fun h => hrows (fits_cons.mp h).2]
        rfl
    · rw [if_neg hfits, if_neg fun h => hfits (fits_cons.mp h).1]

/-! ### Translated line ends -/

theorem translate_cons (hc : c ≠ '\r') : translate (c :: cs) = c :: translate cs := by
  rw [translate, if_neg hc]

theorem translate_append {text : List Char} (hrest : rest.head? ≠ some '\n') :
    translate (text ++ rest) = translate text ++ translate rest := by
  induction text with
  | nil => rfl
  | cons c text ih =>
    have hhead : (text ++ rest).head? = some '\n' ↔ text.head? = some '\n' := by
      cases text with
      | nil => simp [hrest]
      | cons d text => rfl
    rw [List.cons_append, translate, translate, ih]
    simp only [hhead]
    split
    · split
      · rfl
      · rfl
    · rfl

/-- Without a carriage return there is nothing to translate. -/
theorem translate_eq_self (h : '\r' ∉ cs) : translate cs = cs := by
  induction cs with
  | nil => rfl
  | cons c cs ih =>
    rw [List.mem_cons, not_or] at h
    rw [translate_cons (Ne.symm h.1), ih h.2]

theorem not_mem_translate : '\r' ∉ translate cs := by
  induction cs with
  | nil => exact List.not_mem_nil
  | cons c cs ih =>
    rw [translate]
    split
    · split
      · exact ih
      · simp [ih]
    · rename_i hc
      simp [ih, Ne.symm hc]

theorem translate_translate : translate (translate cs) = translate cs :=
  translate_eq_self not_mem_translate

theorem length_translate_le : (translate cs).length ≤ cs.length := by
  induction cs with
  | nil => exact Nat.le_refl 0
  | cons c cs ih =>
    rw [translate]
    split
    · split
      · exact Nat.le_succ_of_le ih
      · exact Nat.succ_le_succ ih
    · exact Nat.succ_le_succ ih

theorem mem_translate_of_mem (h : '\r' ∈ cs) : '\n' ∈ translate cs := by
  induction cs with
  | nil => cases h
  | cons c cs ih =>
    rw [translate]
    split
    · split
      · rename_i hhead
        cases cs with
        | nil => cases hhead
        | cons d cs =>
          obtain rfl := Option.some.inj hhead
          rw [translate_cons (by decide)]
          exact List.mem_cons_self
      · exact List.mem_cons_self
    · rename_i hc
      exact List.mem_cons_of_mem c (ih ((List.mem_cons.mp h).resolve_left (Ne.symm hc)))

/-- A text without line ends comes from itself only. -/
theorem translate_eq_iff (hreturn : '\r' ∉ field) (hfeed : '\n' ∉ field) :
    translate cs = field ↔ cs = field := by
  constructor
  · intro h
    have hcs : '\r' ∉ cs := fun hmem => hfeed (h ▸ mem_translate_of_mem hmem)
    rw [← h, translate_eq_self hcs]
  · rintro rfl
    exact translate_eq_self hreturn

theorem translate_eq_nil : translate field = [] ↔ field = [] := by
  induction field with
  | nil => exact Iff.rfl
  | cons c field ih =>
    rw [translate]
    split
    · split
      · rename_i hhead
        rw [ih]
        cases field with
        | nil => cases hhead
        | cons d field => simp
      · simp
    · simp

theorem needsQuotes_translate : needsQuotes (translate field) = needsQuotes field := by
  induction field with
  | nil => rfl
  | cons c field ih =>
    rw [translate]
    split
    · rename_i hc
      have hquotes : needsQuotes (c :: field) = true := by simp [needsQuotes, hc]
      rw [hquotes]
      split
      · rename_i hhead
        rw [ih]
        cases field with
        | nil => cases hhead
        | cons d field =>
          obtain rfl := Option.some.inj hhead
          simp [needsQuotes]
      · simp [needsQuotes]
    · rw [needsQuotes, List.any_cons, ← needsQuotes, ih]
      rfl

theorem doubleQuotes_cons : doubleQuotes (c :: cs) =
    (if c = '"' then ['"', '"'] else [c]) ++ doubleQuotes cs := List.flatMap_cons

theorem head?_doubleQuotes : (doubleQuotes field).head? = some '\n' ↔ field.head? = some '\n' := by
  cases field with
  | nil => exact Iff.rfl
  | cons c field =>
    rw [doubleQuotes_cons]
    by_cases hc : c = '"'
    · subst hc
      exact Iff.rfl
    · rw [if_neg hc]
      rfl

theorem doubleQuotes_translate :
    doubleQuotes (translate field) = translate (doubleQuotes field) := by
  induction field with
  | nil => rfl
  | cons c field ih =>
    by_cases hc : c = '\r'
    · subst hc
      have hreturn : doubleQuotes ('\r' :: field) = '\r' :: doubleQuotes field := rfl
      rw [hreturn, translate, translate, if_pos rfl, if_pos rfl]
      simp only [head?_doubleQuotes]
      split
      · exact ih
      · rw [← ih]
        rfl
    · rw [translate_cons hc, doubleQuotes_cons, doubleQuotes_cons, ih]
      split
      · rfl
      · exact (translate_cons hc).symm

theorem writeField_translate (alone : Bool) :
    writeField alone (translate field) = translate (writeField alone field) := by
  have hempty : (translate field).isEmpty = field.isEmpty := by
    rw [Bool.eq_iff_iff, List.isEmpty_iff, List.isEmpty_iff, translate_eq_nil]
  rw [writeField, writeField, needsQuotes_translate, hempty]
  split
  · rw [translate_cons (by decide), translate_append (by decide), doubleQuotes_translate]
    rfl
  · rfl

theorem writeFields_translate (alone : Bool) (record : Record) :
    writeFields alone (record.map translate) = translate (writeFields alone record) := by
  induction record with
  | nil => rfl
  | cons text record ih =>
    cases record with
    | nil => exact writeField_translate alone
    | cons next record =>
      have hcomma : (',' :: writeFields alone (next :: record)).head? ≠ some '\n' := by
        rw [List.head?_cons]
        decide
      rw [writeFields_cons_cons, translate_append hcomma, translate_cons (by decide), ← ih,
        ← writeField_translate]
      rfl

/-- **A file whose line ends are translated** is the file of the translated fields. -/
theorem translate_writeRows (rows : List Record) :
    translate (writeRows ['\r', '\n'] rows) = writeRows ['\n'] (rows.map (List.map translate)) := by
  induction rows with
  | nil => rfl
  | cons record rows ih =>
    have hreturn : (['\r', '\n'] ++ writeRows ['\r', '\n'] rows).head? ≠ some '\n' := by
      rw [List.cons_append, List.head?_cons]
      decide
    have hends : translate (['\r', '\n'] ++ writeRows ['\r', '\n'] rows) =
        '\n' :: translate (writeRows ['\r', '\n'] rows) := rfl
    rw [List.map_cons, writeRows, writeRows, List.flatMap_cons, List.flatMap_cons, ← writeRows,
      ← writeRows, writeRecord, writeRecord, List.append_assoc, translate_append hreturn, hends, ih,
      writeFields_translate, List.length_map]
    simp

/-- **What is written reads back with its line ends translated**, if every field is short enough. -/
theorem readTranslated_writeRows (rows : List Record) :
    readTranslated limit (writeRows ['\r', '\n'] rows) =
      if Fits limit (rows.map (List.map translate)) then some (rows.map (List.map translate))
      else none := by
  rw [readTranslated, translate_writeRows, readText_writeRows (.inr rfl)]

end TraceScheduler.Csv
