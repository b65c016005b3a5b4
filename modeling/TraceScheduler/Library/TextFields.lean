import Mathlib.Algebra.Field.Rat
import Mathlib.Data.List.DropRight
import Mathlib.Data.List.Infix
import Mathlib.Tactic.Common

/-!
# Lines, fields and number literals of a text

What a Python script does to the text it reads, over lists of characters: `splitlines`, `split` at white
space, `split(sep, 1)` and `float`.

A text made of lines without line breaks splits into these lines (`splitlines_unlines`), a line made of
fields without white space into these fields (`splitFields_unfields`), and the decimal numeral of a
natural number reads as that number (`float_toDigits`).
-/

namespace TraceScheduler.Text

/-- `c.isspace()`. -/
def isSpace (c : Char) : Bool :=
  let n := c.toNat
  (9 ≤ n && n ≤ 13) || (28 ≤ n && n ≤ 32) || n == 0x85 || n == 0xA0 || n == 0x1680 ||
    (0x2000 ≤ n && n ≤ 0x200A) || n == 0x2028 || n == 0x2029 || n == 0x202F || n == 0x205F ||
    n == 0x3000

/-- Where `splitlines` ends a line. -/
def isLineBreak (c : Char) : Bool :=
  let n := c.toNat
  (10 ≤ n && n ≤ 13) || (28 ≤ n && n ≤ 30) || n == 0x85 || n == 0x2028 || n == 0x2029

theorem isLineBreak_of_not_isSpace {c : Char} (h : isSpace c = false) : isLineBreak c = false := by
  rw [← Bool.not_eq_true] at h ⊢
  simp only [isSpace, isLineBreak, Bool.or_eq_true, Bool.and_eq_true, decide_eq_true_eq,
    beq_iff_eq] at h ⊢
  omega

/-! ### Lines -/

/-- The rest of a text, with what there is of its first line. A line feed that comes right after the
carriage return of a break belongs to that break. -/
def splitlinesFrom : List Char → Bool → List Char → List (List Char)
  | [], _, line => if line.isEmpty then [] else [line]
  | c :: cs, afterReturn, line =>
      if afterReturn && c == '\n' then splitlinesFrom cs false line
      else if isLineBreak c then line :: splitlinesFrom cs (c == '\r') []
      else splitlinesFrom cs false (line ++ [c])

def splitlines (text : List Char) : List (List Char) := splitlinesFrom text false []

/-- Every line with its line feed. -/
def unlines (lines : List (List Char)) : List Char := lines.flatMap fun line => line ++ ['\n']

theorem splitlinesFrom_line {cs line : List Char} (hcs : ∀ c ∈ cs, isLineBreak c = false)
    (rest : List Char) :
    splitlinesFrom (cs ++ '\n' :: rest) false line = (line ++ cs) :: splitlines rest := by
  induction cs generalizing line with
  | nil =>
    rw [List.nil_append, List.append_nil, splitlinesFrom]
    rfl
  | cons c cs ih =>
    have hc : ¬ isLineBreak c = true := by simp [hcs c List.mem_cons_self]
    rw [List.cons_append, splitlinesFrom, Bool.false_and, if_neg Bool.false_ne_true, if_neg hc,
      ih fun d hd => hcs d (List.mem_cons_of_mem _ hd), List.append_assoc, List.singleton_append]

/-- **Lines without line breaks come back.** -/
theorem splitlines_unlines {lines : List (List Char)}
    (h : ∀ line ∈ lines, ∀ c ∈ line, isLineBreak c = false) : splitlines (unlines lines) = lines := by
  induction lines with
  | nil => rfl
  | cons line lines ih =>
    rw [unlines, List.flatMap_cons, List.append_assoc, List.singleton_append, splitlines,
      splitlinesFrom_line (h line List.mem_cons_self), List.nil_append, ← unlines,
      ih fun l hl => h l (List.mem_cons_of_mem _ hl)]

/-! ### Fields -/

/-- The rest of a line, with what there is of its first field. -/
def splitFieldsFrom : List Char → List Char → List (List Char)
  | [], field => if field.isEmpty then [] else [field]
  | c :: cs, field =>
      if isSpace c then
        if field.isEmpty then splitFieldsFrom cs [] else field :: splitFieldsFrom cs []
      else splitFieldsFrom cs (field ++ [c])

/-- `line.split()`. -/
def splitFields (line : List Char) : List (List Char) := splitFieldsFrom line []

/-- The first field, and the others each after a blank. -/
def unfields (first : List Char) (fields : List (List Char)) : List Char :=
  first ++ fields.flatMap fun field => ' ' :: field

theorem splitFieldsFrom_field {cs field : List Char} (hcs : ∀ c ∈ cs, isSpace c = false)
    (rest : List Char) : splitFieldsFrom (cs ++ rest) field = splitFieldsFrom rest (field ++ cs) := by
  induction cs generalizing field with
  | nil => rw [List.nil_append, List.append_nil]
  | cons c cs ih =>
    have hc : ¬ isSpace c = true := by simp [hcs c List.mem_cons_self]
    rw [List.cons_append, splitFieldsFrom, if_neg hc, ih fun d hd => hcs d (List.mem_cons_of_mem _ hd),
      List.append_assoc, List.singleton_append]

/-- A field of its own: not empty, and without white space. -/
def IsField (field : List Char) : Prop := field ≠ [] ∧ ∀ c ∈ field, isSpace c = false

-- the instance is named, as one that looks at every character would be found for `∀ c`
instance (field : List Char) : Decidable (IsField field) :=
  @instDecidableAnd _ _ _ (List.decidableBAll (fun c => isSpace c = false) field)

/-- **Fields without white space come back.** -/
theorem splitFields_unfields {first : List Char} {fields : List (List Char)} (hfirst : IsField first)
    (hfields : ∀ field ∈ fields, IsField field) :
    splitFields (unfields first fields) = first :: fields := by
  rw [splitFields, unfields, splitFieldsFrom_field hfirst.2, List.nil_append]
  induction fields generalizing first with
  | nil => rw [List.flatMap_nil, splitFieldsFrom, if_neg (by simpa using hfirst.1)]
  | cons field fields ih =>
    have hfield := hfields field List.mem_cons_self
    rw [List.flatMap_cons, List.cons_append, splitFieldsFrom, if_pos (by decide),
      if_neg (by simpa using hfirst.1), splitFieldsFrom_field hfield.2, List.nil_append,
      ih hfield fun f hf => hfields f (List.mem_cons_of_mem _ hf)]

/-- `s.split(sep, 1)` where the separator occurs. -/
def splitOnce (sep : Char) : List Char → Option (List Char × List Char)
  | [] => none
  | c :: cs =>
      if c = sep then some ([], cs) else (splitOnce sep cs).map fun kv => (c :: kv.1, kv.2)

theorem splitOnce_append {sep : Char} {k : List Char} (hk : sep ∉ k) (v : List Char) :
    splitOnce sep (k ++ sep :: v) = some (k, v) := by
  induction k with
  | nil => rw [List.nil_append, splitOnce, if_pos rfl]
  | cons c k ih =>
    obtain ⟨hc, hk⟩ := List.ne_and_not_mem_of_not_mem_cons hk
    rw [List.cons_append, splitOnce, if_neg hc.symm, ih hk, Option.map_some]

theorem splitOnce_eq_none {sep : Char} {s : List Char} (hs : sep ∉ s) : splitOnce sep s = none := by
  induction s with
  | nil => rfl
  | cons c s ih =>
    obtain ⟨hc, hs⟩ := List.ne_and_not_mem_of_not_mem_cons hs
    rw [splitOnce, if_neg hc.symm, ih hs, Option.map_none]

/-! ### Numbers -/

/-- A floating-point number. The finite ones are kept exactly, as integers up to `2 ^ 53` are. -/
inductive Float64
  | finite (q : ℚ)
  | inf (negative : Bool)
  | nan
  deriving DecidableEq

def Float64.add : Float64 → Float64 → Float64
  | .finite a, .finite b => .finite (a + b)
  | .finite _, .inf t => .inf t
  | .inf s, .finite _ => .inf s
  | .inf s, .inf t => if s = t then .inf s else .nan
  | .nan, _ => .nan
  | _, .nan => .nan

/-- `s.strip()`. -/
def strip (s : List Char) : List Char := (s.dropWhile isSpace).rdropWhile isSpace

/-- The zeros among the decimal digits of Unicode; each is followed by its nine. -/
def decimalZeros : List ℕ :=
  [0x30, 0x660, 0x6F0, 0x7C0, 0x966, 0x9E6, 0xA66, 0xAE6, 0xB66, 0xBE6, 0xC66, 0xCE6, 0xD66, 0xDE6,
    0xE50, 0xED0, 0xF20, 0x1040, 0x1090, 0x17E0, 0x1810, 0x1946, 0x19D0, 0x1A80, 0x1A90, 0x1B50,
    0x1BB0, 0x1C40, 0x1C50, 0xA620, 0xA8D0, 0xA900, 0xA9D0, 0xA9F0, 0xAA50, 0xABF0, 0xFF10, 0x104A0,
    0x10D30, 0x11066, 0x110F0, 0x11136, 0x111D0, 0x112F0, 0x11450, 0x114D0, 0x11650, 0x116C0,
    0x11730, 0x118E0, 0x11950, 0x11C50, 0x11D50, 0x11DA0, 0x16A60, 0x16AC0, 0x16B50, 0x1D7CE,
    0x1D7D8, 0x1D7E2, 0x1D7EC, 0x1D7F6, 0x1E140, 0x1E2F0, 0x1E950, 0x1FBF0]

/-- A decimal digit as an ASCII digit, and any other character as it is. -/
def asciiDecimal (c : Char) : Char :=
  match decimalZeros.find? fun z => z ≤ c.toNat && c.toNat < z + 10 with
  | none => c
  | some z => Char.ofNat (48 + (c.toNat - z))

/-- What `\d` matches. -/
def isDecimal (c : Char) : Bool := (asciiDecimal c).isDigit

/-- A sign, if there is one: whether it is a minus, and what follows it. -/
def takeSign : List Char → Bool × List Char
  | [] => (false, [])
  | c :: cs => if c = '-' then (true, cs) else if c = '+' then (false, cs) else (false, c :: cs)

/-- The digits of one part of a literal; a single underscore may stand between two of them. -/
def digitPart (s : List Char) : Option (List Char) :=
  if s.all (fun c => c.isDigit || c == '_') && s.head? != some '_' && s.getLast? != some '_' &&
      !decide (['_', '_'] <:+: s) then
    some (s.filter fun c => c != '_')
  else none

/-- The exponent of a literal, after its `e`. -/
def exponentPart (s : List Char) : Option ℤ :=
  let (negative, body) := takeSign s
  (digitPart body).bind fun digits =>
    if digits = [] then none
    else
      let e : ℤ := Nat.ofDigitChars 10 digits 0
      some (if negative then -e else e)

/-- A literal without its sign. -/
def decimal (s : List Char) : Option ℚ := do
  let mantissa := s.takeWhile fun c => c != 'e' && c != 'E'
  let e ← match s.dropWhile fun c => c != 'e' && c != 'E' with
    | [] => some 0
    | _ :: exponent => exponentPart exponent
  let (whole, fraction) := (splitOnce '.' mantissa).getD (mantissa, [])
  let w ← digitPart whole
  let f ← digitPart fraction
  if w = [] ∧ f = [] then none
  else some ((Nat.ofDigitChars 10 (w ++ f) 0 : ℚ) * 10 ^ (e - f.length))

/-- `float(s)`, where `none` is a `ValueError`. It takes decimal digits of all scripts. -/
def float (s : List Char) : Option Float64 :=
  let (negative, body) := takeSign (strip (s.map asciiDecimal))
  let name := body.map Char.toLower
  if name = "inf".toList ∨ name = "infinity".toList then some (.inf negative)
  else if name = "nan".toList then some .nan
  else (decimal body).map fun q => .finite (if negative then -q else q)

section

variable {c : Char} {s : List Char}

theorem isSpace_of_isDigit (h : c.isDigit = true) : isSpace c = false := by
  rw [Char.isDigit, Bool.and_eq_true, decide_eq_true_eq, decide_eq_true_eq] at h
  have hge : 48 ≤ c.toNat := h.1
  have hle : c.toNat ≤ 57 := h.2
  rw [← Bool.not_eq_true]
  simp only [isSpace, Bool.or_eq_true, Bool.and_eq_true, decide_eq_true_eq, beq_iff_eq]
  omega

/-- A digit is none of the other characters a literal may hold. -/
theorem ne_of_isDigit (h : c.isDigit = true) {d : Char} (hd : d.isDigit = false) : c ≠ d := by
  intro heq
  rw [heq, hd] at h
  cases h

theorem toLower_of_isDigit (h : c.isDigit = true) : c.toLower = c := by
  rw [Char.isDigit, Bool.and_eq_true, decide_eq_true_eq, decide_eq_true_eq] at h
  have hle : c.toNat ≤ 57 := h.2
  apply dif_neg
  intro hupper
  have hge : 65 ≤ c.toNat := hupper.1
  omega

theorem asciiDecimal_of_isDigit (h : c.isDigit = true) : asciiDecimal c = c := by
  rw [Char.isDigit, Bool.and_eq_true, decide_eq_true_eq, decide_eq_true_eq] at h
  have hge : 48 ≤ c.toNat := h.1
  have hle : c.toNat ≤ 57 := h.2
  have hfind : (decimalZeros.find? fun z => z ≤ c.toNat && c.toNat < z + 10) = some 48 := by
    rw [decimalZeros, List.find?_cons_of_pos]
    simp only [Bool.and_eq_true, decide_eq_true_eq]
    omega
  have hvalue : 48 + (c.toNat - 48) = c.toNat := by omega
  rw [asciiDecimal, hfind]
  show Char.ofNat (48 + (c.toNat - 48)) = c
  rw [hvalue, Char.ofNat_toNat]

theorem map_asciiDecimal_of_isDigit (h : ∀ c ∈ s, c.isDigit = true) : s.map asciiDecimal = s := by
  rw [List.map_congr_left fun c hc => asciiDecimal_of_isDigit (h c hc), List.map_id']

theorem strip_of_isDigit (h : ∀ c ∈ s, c.isDigit = true) : strip s = s := by
  have hspace : ∀ c ∈ s, isSpace c = false := fun c hc => isSpace_of_isDigit (h c hc)
  have hfront : s.dropWhile isSpace = s := by
    cases s with
    | nil => rfl
    | cons c s => rw [List.dropWhile_cons_of_neg (by simp [hspace c List.mem_cons_self])]
  rw [strip, hfront, List.rdropWhile_eq_self_iff]
  intro hne
  simp [hspace _ (List.getLast_mem hne)]

theorem digitPart_of_isDigit (h : ∀ c ∈ s, c.isDigit = true) : digitPart s = some s := by
  have hnot : ∀ c ∈ s, c ≠ '_' := fun c hc => ne_of_isDigit (h c hc) (by decide)
  have hmem : '_' ∉ s := fun hc => hnot _ hc rfl
  have hhead : s.head? ≠ some '_' := fun heq => hmem (List.mem_of_mem_head? heq)
  have hlast : s.getLast? ≠ some '_' := fun heq => hmem (List.mem_of_getLast? heq)
  have hinfix : ¬ ['_', '_'] <:+: s := fun hin => hmem (hin.subset List.mem_cons_self)
  have hfilter : s.filter (fun c => c != '_') = s := by
    rw [List.filter_eq_self]
    intro c hc
    simpa using hnot c hc
  rw [digitPart, hfilter, if_pos]
  simp only [Bool.and_eq_true, List.all_eq_true, Bool.or_eq_true, bne_iff_ne, ne_eq,
    Bool.not_eq_true', decide_eq_false_iff_not]
  exact ⟨⟨⟨fun c hc => .inl (h c hc), hhead⟩, hlast⟩, hinfix⟩

theorem decimal_of_isDigit (h : ∀ c ∈ s, c.isDigit = true) (hne : s ≠ []) :
    decimal s = some (Nat.ofDigitChars 10 s 0 : ℚ) := by
  have hexp : ∀ c ∈ s, (c != 'e' && c != 'E') = true := by
    intro c hc
    have he := ne_of_isDigit (h c hc) (d := 'e') (by decide)
    have hE := ne_of_isDigit (h c hc) (d := 'E') (by decide)
    simp [he, hE]
  have hpoint : '.' ∉ s := fun hc => ne_of_isDigit (h _ hc) (by decide) rfl
  have htake : s.takeWhile (fun c => c != 'e' && c != 'E') = s := List.takeWhile_eq_self_iff.mpr hexp
  have hdrop : s.dropWhile (fun c => c != 'e' && c != 'E') = [] := List.dropWhile_eq_nil_iff.mpr hexp
  have hnil : digitPart [] = some [] := rfl
  rw [decimal]
  simp only [htake, hdrop, splitOnce_eq_none hpoint, Option.getD_none, digitPart_of_isDigit h, hnil,
    Option.bind_eq_bind, Option.bind_some, hne, false_and, if_false, List.append_nil, List.length_nil]
  simp

/-- **A decimal numeral reads as its number.** -/
theorem float_toDigits (n : ℕ) : float (Nat.toDigits 10 n) = some (.finite n) := by
  have hdigits : ∀ c ∈ Nat.toDigits 10 n, c.isDigit = true := fun c hc =>
    Nat.isDigit_of_mem_toDigits (by decide) (by decide) hc
  have hdecimal := decimal_of_isDigit hdigits Nat.toDigits_ne_nil
  rw [Nat.ofDigitChars_ten_toDigits] at hdecimal
  rw [float, map_asciiDecimal_of_isDigit hdigits, strip_of_isDigit hdigits]
  obtain ⟨c, cs, hcs⟩ := List.exists_cons_of_ne_nil (Nat.toDigits_ne_nil (b := 10) (n := n))
  have hc : c.isDigit = true := hdigits c (by rw [hcs]; exact List.mem_cons_self)
  rw [hcs] at hdecimal ⊢
  have hsign : takeSign (c :: cs) = (false, c :: cs) := by
    rw [takeSign, if_neg (ne_of_isDigit hc (by decide)), if_neg (ne_of_isDigit hc (by decide))]
  have hlower : c.toLower = c := toLower_of_isDigit hc
  have hname : ∀ name : List Char, name.head?.all Char.isDigit = false →
      (c :: cs).map Char.toLower ≠ name := by
    intro name hname heq
    rw [← heq, List.map_cons, List.head?_cons, Option.all_some, hlower, hc] at hname
    cases hname
  rw [hsign]
  simp only [hname "inf".toList (by decide), hname "infinity".toList (by decide),
    hname "nan".toList (by decide), or_self, if_false, hdecimal, Option.map_some, Bool.false_eq_true]

end

end TraceScheduler.Text
