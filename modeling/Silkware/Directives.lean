import Mathlib.Data.Nat.Digits.Defs
import Mathlib.Tactic.Common
import Mathlib.Tactic.Positivity
import Mathlib.Tactic.Ring
import Mathlib.Data.Nat.Digits.Lemmas

/-!
The parser of printf's format specifications.

A specification is read into a record of its flags, width, precision, length and conversion. What
the parser accepts is told by a grammar of its own: a directive is written out as text, and its
meaning does not depend on the order of its flags. A string ends where its list ends.
-/

namespace Silkware.Directives

inductive SpecOpt
  | none
  | literal
  | star
  deriving DecidableEq, Repr

inductive LengthModifier
  | none
  | short
  | longDouble
  | char
  | long
  | longLong
  | intmax
  | sizet
  | ptrdifft
  deriving DecidableEq, Repr

inductive Conversion
  | percent
  | char
  | string
  | signedInt
  | binary
  | octal
  | hexInt
  | unsignedInt
  | pointer
  | floatDec
  | floatSci
  | floatShortest
  | floatHex
  deriving DecidableEq, Repr

structure FormatSpec where
  prepend : Option Char
  altForm : Bool
  fieldWidthOpt : SpecOpt
  fieldWidth : Int
  leftJustified : Bool
  leadingZeroPad : Bool
  precOpt : SpecOpt
  prec : Int
  lengthModifier : LengthModifier
  convSpec : Conversion
  caseAdjust : Nat
  deriving DecidableEq, Repr

/-- `INT_MAX`. -/
def intMax : Nat := 0x7fffffff

/-- An `int`; arithmetic that leaves it is undefined. -/
def int (x : Int) : Option Int := if -intMax - 1 ≤ x ∧ x ≤ intMax then some x else none

/-! ### The parser -/

/-- The `case` labels of the loop over the flags. -/
inductive Flag
  | minus
  | zero
  | plus
  | space
  | hash
  deriving DecidableEq, Repr

def Flag.char : Flag → Char
  | minus => '-'
  | zero => '0'
  | plus => '+'
  | space => ' '
  | hash => '#'

def flag? (c : Char) : Option Flag :=
  if c = '-' then some .minus
  else if c = '0' then some .zero
  else if c = '+' then some .plus
  else if c = ' ' then some .space
  else if c = '#' then some .hash
  else none

def setFlag (fs : FormatSpec) : Flag → FormatSpec
  | .minus => { fs with leftJustified := true, leadingZeroPad := false }
  | .zero => { fs with leadingZeroPad := !fs.leftJustified }
  | .plus => { fs with prepend := some '+' }
  | .space => if fs.prepend = none then { fs with prepend := some ' ' } else fs
  | .hash => { fs with altForm := true }

def flags (fs : FormatSpec) : List Char → FormatSpec × List Char
  | [] => (fs, [])
  | c :: cs =>
    match flag? c with
    | some g => flags (setFlag fs g) cs
    | none => (fs, c :: cs)

/-- The loop over the digits of a number. -/
def digits (n : Int) : List Char → Option (Int × List Char)
  | [] => some (n, [])
  | c :: cs => if c.isDigit then (int (n * 10 + (c.toNat - 48 : Nat))).bind (digits · cs)
    else some (n, c :: cs)

/-- Under `*` the width is not written here: it is read only once the argument is stored in it. -/
def fieldWidth (fs : FormatSpec) (cur : List Char) : Option (FormatSpec × List Char) :=
  if cur.head? = some '*' then some ({ fs with fieldWidthOpt := .star, fieldWidth := 0 }, cur.tail)
  else (digits 0 cur).map fun r =>
    ({ fs with
        fieldWidthOpt := if cur.head?.any Char.isDigit then .literal else .none
        fieldWidth := r.1 }, r.2)

def precision (fs : FormatSpec) (cur : List Char) : Option (FormatSpec × List Char) :=
  if cur.head? = some '.' then
    let cur := cur.tail
    if cur.head? = some '*' then some ({ fs with prec := 0, precOpt := .star }, cur.tail)
    else if cur.head? = some '-' then
      (digits 0 cur.tail).map fun r => ({ fs with prec := r.1, precOpt := .none }, r.2)
    else (digits 0 cur).map fun r => ({ fs with prec := r.1, precOpt := .literal }, r.2)
  else some ({ fs with prec := 0, precOpt := .none }, cur)

def lengthModifier : List Char → LengthModifier × List Char
  | 'h' :: 'h' :: cs => (.char, cs)
  | 'h' :: cs => (.short, cs)
  | 'l' :: 'l' :: cs => (.longLong, cs)
  | 'l' :: cs => (.long, cs)
  | 'L' :: cs => (.longDouble, cs)
  | 'j' :: cs => (.intmax, cs)
  | 'z' :: cs => (.sizet, cs)
  | 't' :: cs => (.ptrdifft, cs)
  | cs => (.none, cs)

/-- The integer conversions of one `case` chain: a precision takes the zero padding away. -/
def intSpec (fs : FormatSpec) (c : Conversion) : FormatSpec :=
  { fs with
    convSpec := c
    leadingZeroPad := if fs.precOpt ≠ .none then false else fs.leadingZeroPad }

def floatSpec (fs : FormatSpec) (c : Conversion) : FormatSpec :=
  { fs with convSpec := c, prec := if fs.precOpt = .none then 6 else fs.prec }

def conversion (fs : FormatSpec) : Char → Option FormatSpec
  | '%' => some { fs with convSpec := .percent, precOpt := .none }
  | 'c' => some { fs with convSpec := .char, precOpt := .none }
  | 's' => some { fs with convSpec := .string, leadingZeroPad := false }
  | 'i' => some (intSpec fs .signedInt)
  | 'd' => some (intSpec fs .signedInt)
  | 'o' => some (intSpec fs .octal)
  | 'u' => some (intSpec fs .unsignedInt)
  | 'X' => some (intSpec { fs with caseAdjust := 0 } .hexInt)
  | 'x' => some (intSpec fs .hexInt)
  | 'F' => some (floatSpec { fs with caseAdjust := 0 } .floatDec)
  | 'f' => some (floatSpec fs .floatDec)
  | 'E' => some (floatSpec { fs with caseAdjust := 0 } .floatSci)
  | 'e' => some (floatSpec fs .floatSci)
  | 'G' => some (floatSpec { fs with caseAdjust := 0 } .floatShortest)
  | 'g' => some (floatSpec fs .floatShortest)
  | 'A' => some (floatSpec { fs with caseAdjust := 0 } .floatHex)
  | 'a' => some (floatSpec fs .floatHex)
  | 'p' => some { fs with convSpec := .pointer, precOpt := .none }
  | 'B' => some { fs with caseAdjust := 0, convSpec := .binary }
  | 'b' => some { fs with convSpec := .binary }
  | _ => none

/-- The fields the parser sets first. The others are written before they are read. -/
def init : FormatSpec where
  prepend := none
  altForm := false
  fieldWidthOpt := .none
  fieldWidth := 0
  leftJustified := false
  leadingZeroPad := false
  precOpt := .none
  prec := 0
  lengthModifier := .none
  convSpec := .percent
  caseAdjust := 'a'.toNat - 'A'.toNat

/-- `npf_parse_format_spec`: the outer `none` is a number that leaves `int`, the inner one
`return 0`. -/
def parseFormatSpec (format : List Char) : Option (Option (FormatSpec × List Char)) :=
  let (fs, cur) := flags init format.tail
  (fieldWidth fs cur).bind fun (fs, cur) =>
  (precision fs cur).bind fun (fs, cur) =>
  let (m, cur) := lengthModifier cur
  match cur with
  | [] => some none
  | c :: cur => some ((conversion { fs with lengthModifier := m } c).map (·, cur))

/-! ### The grammar -/

def digitChar (d : Fin 10) : Char := Char.ofNat (48 + d)

def value (ds : List (Fin 10)) : Nat := Nat.ofDigits 10 (ds.reverse.map Fin.val)

/-- A width: a number does not begin with a zero, that would be a flag. -/
inductive Width
  | none
  | star
  | number (d : { d : Fin 10 // d ≠ 0 }) (ds : List (Fin 10))

/-- A precision; one with a minus sign counts as none, but its digits are kept. -/
inductive Precision
  | none
  | star
  | number (ds : List (Fin 10))
  | negative (ds : List (Fin 10))

def conversions : List Char :=
  ['%', 'c', 's', 'i', 'd', 'o', 'u', 'X', 'x', 'F', 'f', 'E', 'e', 'G', 'g', 'A', 'a', 'p', 'B', 'b']

structure Directive where
  flags : List Flag
  width : Width
  prec : Precision
  length : LengthModifier
  conv : Char
  conv_mem : conv ∈ conversions

def Width.text : Width → List Char
  | none => []
  | star => ['*']
  | number d ds => (d.1 :: ds).map digitChar

def Width.opt : Width → SpecOpt
  | none => .none
  | star => .star
  | number .. => .literal

def Width.size : Width → Nat
  | none => 0
  | star => 0
  | number d ds => value (d.1 :: ds)

def Precision.text : Precision → List Char
  | none => []
  | star => ['.', '*']
  | number ds => '.' :: ds.map digitChar
  | negative ds => '.' :: '-' :: ds.map digitChar

def Precision.opt : Precision → SpecOpt
  | none => .none
  | star => .star
  | number _ => .literal
  | negative _ => .none

def Precision.size : Precision → Nat
  | none => 0
  | star => 0
  | number ds => value ds
  | negative ds => value ds

def LengthModifier.text : LengthModifier → List Char
  | none => []
  | short => ['h']
  | longDouble => ['L']
  | char => ['h', 'h']
  | long => ['l']
  | longLong => ['l', 'l']
  | intmax => ['j']
  | sizet => ['z']
  | ptrdifft => ['t']

namespace Directive

variable (d : Directive)

def text : List Char :=
  '%' :: (d.flags.map Flag.char ++ (d.width.text ++ (d.prec.text ++ (d.length.text ++ [d.conv]))))

/-- The numbers of a directive are `int`s. -/
def Fits : Prop := d.width.size ≤ intMax ∧ d.prec.size ≤ intMax

instance decFits : Decidable d.Fits := inferInstanceAs (Decidable (_ ∧ _))

def kind : Conversion :=
  if d.conv = '%' then .percent
  else if d.conv = 'c' then .char
  else if d.conv = 's' then .string
  else if d.conv ∈ ['i', 'd'] then .signedInt
  else if d.conv = 'o' then .octal
  else if d.conv = 'u' then .unsignedInt
  else if d.conv ∈ ['x', 'X'] then .hexInt
  else if d.conv ∈ ['f', 'F'] then .floatDec
  else if d.conv ∈ ['e', 'E'] then .floatSci
  else if d.conv ∈ ['g', 'G'] then .floatShortest
  else if d.conv ∈ ['a', 'A'] then .floatHex
  else if d.conv = 'p' then .pointer
  else .binary

/-- The precision as the conversion sees it. -/
def precOpt : SpecOpt := if d.conv ∈ ['%', 'c', 'p'] then .none else d.prec.opt

/-- What a directive asks for. Flags count once and in any order; `-` beats `0` and `+` beats the
space. A precision beats `0`, and strings have none. -/
def meaning : FormatSpec where
  prepend := if .plus ∈ d.flags then some '+' else if .space ∈ d.flags then some ' ' else none
  altForm := decide (.hash ∈ d.flags)
  fieldWidthOpt := d.width.opt
  fieldWidth := d.width.size
  leftJustified := decide (.minus ∈ d.flags)
  leadingZeroPad := decide (.zero ∈ d.flags ∧ .minus ∉ d.flags ∧ d.conv ≠ 's' ∧
    ¬(d.conv ∈ ['i', 'd', 'o', 'u', 'x', 'X'] ∧ d.prec.opt ≠ .none))
  precOpt := d.precOpt
  prec := if d.conv ∈ ['f', 'F', 'e', 'E', 'g', 'G', 'a', 'A'] ∧ d.prec.opt = .none then 6
    else d.prec.size
  lengthModifier := d.length
  convSpec := d.kind
  caseAdjust := if d.conv ∈ ['X', 'F', 'E', 'G', 'A', 'B'] then 0 else 32

end Directive

/-! ### The parser and the grammar -/

variable {fs fs' : FormatSpec} {r r' s : List Char}

lemma flag?_char (g : Flag) : flag? g.char = some g := by
  cases g <;> rfl

lemma char_of_flag? {c : Char} {g : Flag} (h : flag? c = some g) : g.char = c := by
  unfold flag? at h
  split_ifs at h with h1 h2 h3 h4 h5 <;> obtain rfl := Option.some.inj h <;> simp_all [Flag.char]

lemma flags_text {gs : List Flag} (h : ∀ c ∈ r.head?, flag? c = none) :
    flags fs (gs.map Flag.char ++ r) = (gs.foldl setFlag fs, r) := by
  induction gs generalizing fs with
  | nil =>
    cases r with
    | nil => rfl
    | cons c cs => simp [flags, h c (by simp)]
  | cons g gs ih => simp [flags, flag?_char, ih]

/-- Every text begins with flags, and what follows does not. -/
lemma split_flags (s : List Char) :
    ∃ (gs : List Flag) (r : _), s = gs.map Flag.char ++ r ∧ ∀ c ∈ r.head?, flag? c = none := by
  induction s with
  | nil => exact ⟨[], [], rfl, by simp⟩
  | cons c cs ih =>
    rcases hc : flag? c with _ | g
    · exact ⟨[], c :: cs, rfl, by simpa using hc⟩
    · obtain ⟨gs, r, rfl, hr⟩ := ih
      exact ⟨g :: gs, r, by simp [char_of_flag? hc], hr⟩

lemma digitChar_isDigit (d : Fin 10) : (digitChar d).isDigit = true := by
  revert d
  decide

lemma digitChar_sub (d : Fin 10) : (digitChar d).toNat - 48 = d := by
  revert d
  decide

lemma exists_digitChar {c : Char} (h : c.isDigit = true) : ∃ d, digitChar d = c := by
  simp only [Char.isDigit, Bool.and_eq_true, decide_eq_true_eq, ge_iff_le, UInt32.le_iff_toNat_le] at h
  obtain ⟨h1, h2⟩ := h
  change 48 ≤ c.toNat at h1
  change c.toNat ≤ 57 at h2
  refine ⟨⟨c.toNat - 48, by omega⟩, ?_⟩
  rw [digitChar, show 48 + (c.toNat - 48) = c.toNat by omega, Char.ofNat_toNat]

lemma split_digits (s : List Char) :
    ∃ (ds : List (Fin 10)) (r : _), s = ds.map digitChar ++ r ∧ ∀ c ∈ r.head?, c.isDigit = false := by
  induction s with
  | nil => exact ⟨[], [], rfl, by simp⟩
  | cons c cs ih =>
    rcases hc : c.isDigit
    · exact ⟨[], c :: cs, rfl, by simpa using hc⟩
    · obtain ⟨ds, r, rfl, hr⟩ := ih
      obtain ⟨d, rfl⟩ := exists_digitChar hc
      exact ⟨d :: ds, r, rfl, hr⟩

lemma value_cons (d : Fin 10) (ds : List (Fin 10)) :
    value (d :: ds) = d * 10 ^ ds.length + value ds := by
  simp [value, Nat.ofDigits_append, Nat.add_comm, Nat.mul_comm]

/-- The loop over the digits reads their value, as long as it is an `int`. -/
lemma digits_text {n : Nat} {ds : List (Fin 10)} (hn : n ≤ intMax)
    (h : ∀ c ∈ r.head?, c.isDigit = false) : digits n (ds.map digitChar ++ r) =
      if n * 10 ^ ds.length + value ds ≤ intMax
      then some (((n * 10 ^ ds.length + value ds : Nat) : Int), r) else none := by
  induction ds generalizing n with
  | nil =>
    rw [if_pos (by simpa [value] using hn)]
    cases r with
    | nil => simp [digits, value]
    | cons c cs => simp [digits, value, h c (by simp)]
  | cons d ds ih =>
    have he : (n * 10 + d) * 10 ^ ds.length + value ds
        = n * 10 ^ (d :: ds).length + value (d :: ds) := by
      rw [value_cons, List.length_cons, pow_succ']
      ring
    simp only [List.map_cons, List.cons_append, digits, digitChar_isDigit, if_true, digitChar_sub]
    by_cases hs : n * 10 + d ≤ intMax
    · rw [int, if_pos (by omega), Option.bind_some, ← he, ← ih hs]
      push_cast
      rfl
    · have : n * 10 + d ≤ (n * 10 + d) * 10 ^ ds.length + value ds :=
        le_add_right (Nat.le_mul_of_pos_right _ (by positivity))
      rw [int, if_neg (by omega), Option.bind_none, ← he, if_neg (by omega)]

lemma map_digits {α : Type} {ds : List (Fin 10)} (f : Int × List Char → α)
    (h : ∀ c ∈ r.head?, c.isDigit = false) : (digits 0 (ds.map digitChar ++ r)).map f =
      if value ds ≤ intMax then some (f (value ds, r)) else none := by
  have hd : digits (0 : Nat) (ds.map digitChar ++ r) = _ := digits_text (Nat.zero_le _) h
  rw [Nat.zero_mul, Nat.zero_add] at hd
  rw [show (0 : Int) = (0 : Nat) from rfl, hd]
  split_ifs <;> rfl

lemma any_head_digits {ds : List (Fin 10)} (h : ∀ c ∈ r.head?, c.isDigit = false) :
    (ds.map digitChar ++ r).head?.any Char.isDigit = !ds.isEmpty := by
  cases ds with
  | nil => cases r <;> simp_all
  | cons d ds => simp [digitChar_isDigit]

lemma digitChar_ne (d : Fin 10) : digitChar d ≠ '*' ∧ digitChar d ≠ '-' := by
  revert d
  decide

/-- What can follow a width that has been read as far as it goes. -/
def Width.Ends (r : List Char) : Width → Prop
  | none => (∀ c ∈ r.head?, c.isDigit = false) ∧ r.head? ≠ some '*'
  | star => True
  | number .. => ∀ c ∈ r.head?, c.isDigit = false

def Precision.Ends (r : List Char) : Precision → Prop
  | none => r.head? ≠ some '.'
  | star => True
  | number ds => (∀ c ∈ r.head?, c.isDigit = false) ∧
      (ds = [] → r.head? ≠ some '*' ∧ r.head? ≠ some '-')
  | negative _ => ∀ c ∈ r.head?, c.isDigit = false

def LengthModifier.Ends (r : List Char) : LengthModifier → Prop
  | none => ∀ c ∈ r.head?, c ∉ ['h', 'l', 'L', 'j', 'z', 't']
  | short => r.head? ≠ some 'h'
  | long => r.head? ≠ some 'l'
  | _ => True

/-- The width of a text is read, if it is an `int`. -/
lemma fieldWidth_text {w : Width} (h : w.Ends r) :
    fieldWidth fs (w.text ++ r) = if w.size ≤ intMax
      then some ({ fs with fieldWidthOpt := w.opt, fieldWidth := w.size }, r) else none := by
  have hn (ds : List (Fin 10)) (h : ∀ c ∈ r.head?, c.isDigit = false)
      (hs : (ds.map digitChar ++ r).head? ≠ some '*') :
      fieldWidth fs (ds.map digitChar ++ r) = if value ds ≤ intMax then some ({ fs with
        fieldWidthOpt := if ds.isEmpty then .none else .literal, fieldWidth := value ds }, r)
      else none := by
    rw [fieldWidth, if_neg hs, any_head_digits h, map_digits _ h]
    cases ds <;> rfl
  cases w with
  | none => exact hn [] h.1 h.2
  | star => simp [fieldWidth, Width.text, Width.opt, Width.size]
  | number d ds => exact hn (d.1 :: ds) h (by simpa using (digitChar_ne d.1).1)

lemma precision_text {p : Precision} (h : p.Ends r) :
    precision fs (p.text ++ r) = if p.size ≤ intMax
      then some ({ fs with prec := p.size, precOpt := p.opt }, r) else none := by
  cases p with
  | none =>
    rw [Precision.text, List.nil_append, precision, if_neg h]
    rfl
  | star => simp [precision, Precision.text, Precision.opt, Precision.size]
  | number ds =>
    have hne : (ds.map digitChar ++ r).head? ≠ some '*' ∧ (ds.map digitChar ++ r).head? ≠ some '-' := by
      cases ds with
      | nil => exact h.2 rfl
      | cons d ds => simpa using digitChar_ne d
    rw [precision, Precision.text, List.cons_append, List.head?_cons, if_pos rfl, List.tail_cons]
    simp only
    rw [if_neg hne.1, if_neg hne.2]
    exact map_digits _ h.1
  | negative ds => exact map_digits _ h

lemma lengthModifier_text {m : LengthModifier} (h : m.Ends r) :
    lengthModifier (m.text ++ r) = (m, r) := by
  cases r with
  | nil => cases m <;> rfl
  | cons c cs => cases m <;> simp_all [LengthModifier.text, LengthModifier.Ends, lengthModifier]

lemma flag?_digit (d : Fin 10) : flag? (digitChar d) = none ↔ d ≠ 0 := by
  revert d
  decide

lemma split_width (h : ∀ c ∈ s.head?, flag? c = none) :
    ∃ (w : Width) (r : _), s = w.text ++ r ∧ w.Ends r := by
  by_cases hs : s.head? = some '*'
  · obtain ⟨cs, rfl⟩ := List.head?_eq_some_iff.mp hs
    exact ⟨.star, cs, rfl, trivial⟩
  · obtain ⟨ds, r, rfl, hr⟩ := split_digits s
    cases ds with
    | nil => exact ⟨.none, r, rfl, hr, hs⟩
    | cons d ds =>
      have hd : d ≠ 0 := (flag?_digit d).mp (h _ (by simp))
      exact ⟨.number ⟨d, hd⟩ ds, r, rfl, hr⟩

lemma split_precision (s : List Char) : ∃ (p : Precision) (r : _), s = p.text ++ r ∧ p.Ends r := by
  by_cases hd : s.head? = some '.'
  · obtain ⟨cs, rfl⟩ := List.head?_eq_some_iff.mp hd
    by_cases hs : cs.head? = some '*'
    · obtain ⟨cs, rfl⟩ := List.head?_eq_some_iff.mp hs
      exact ⟨.star, cs, rfl, trivial⟩
    · by_cases hm : cs.head? = some '-'
      · obtain ⟨cs, rfl⟩ := List.head?_eq_some_iff.mp hm
        obtain ⟨ds, r, rfl, hr⟩ := split_digits cs
        exact ⟨.negative ds, r, rfl, hr⟩
      · obtain ⟨ds, r, rfl, hr⟩ := split_digits cs
        exact ⟨.number ds, r, rfl, hr, by rintro rfl; exact ⟨hs, hm⟩⟩
  · exact ⟨.none, s, rfl, hd⟩

lemma split_length (s : List Char) :
    ∃ (m : LengthModifier) (r : _), s = m.text ++ r ∧ m.Ends r := by
  by_cases hh : s.head? = some 'h'
  · obtain ⟨cs, rfl⟩ := List.head?_eq_some_iff.mp hh
    by_cases hh' : cs.head? = some 'h'
    · obtain ⟨cs, rfl⟩ := List.head?_eq_some_iff.mp hh'
      exact ⟨.char, cs, rfl, trivial⟩
    · exact ⟨.short, cs, rfl, hh'⟩
  · by_cases hl : s.head? = some 'l'
    · obtain ⟨cs, rfl⟩ := List.head?_eq_some_iff.mp hl
      by_cases hl' : cs.head? = some 'l'
      · obtain ⟨cs, rfl⟩ := List.head?_eq_some_iff.mp hl'
        exact ⟨.longLong, cs, rfl, trivial⟩
      · exact ⟨.long, cs, rfl, hl'⟩
    · have one (m : LengthModifier) (c : Char) (hm : m.text = [c]) (he : ∀ r, m.Ends r)
          (hc : s.head? = some c) : ∃ (m : LengthModifier) (r : _), s = m.text ++ r ∧ m.Ends r := by
        obtain ⟨cs, rfl⟩ := List.head?_eq_some_iff.mp hc
        exact ⟨m, cs, by simp [hm], he cs⟩
      by_cases h1 : s.head? = some 'L'
      · exact one .longDouble _ rfl (fun _ => trivial) h1
      by_cases h2 : s.head? = some 'j'
      · exact one .intmax _ rfl (fun _ => trivial) h2
      by_cases h3 : s.head? = some 'z'
      · exact one .sizet _ rfl (fun _ => trivial) h3
      by_cases h4 : s.head? = some 't'
      · exact one .ptrdifft _ rfl (fun _ => trivial) h4
      refine ⟨.none, s, rfl, fun c hc hm => ?_⟩
      simp only [List.mem_cons, List.not_mem_nil, or_false] at hm
      rcases hm with rfl | rfl | rfl | rfl | rfl | rfl <;> exact absurd hc (by assumption)

/-- The parser on a text cut into its parts. -/
lemma parse_parts {gs : List Flag} {w : Width} {p : Precision} {m : LengthModifier}
    (h1 : ∀ c ∈ (w.text ++ (p.text ++ (m.text ++ r))).head?, flag? c = none)
    (h2 : w.Ends (p.text ++ (m.text ++ r))) (h3 : p.Ends (m.text ++ r)) (h4 : m.Ends r) :
    parseFormatSpec ('%' :: (gs.map Flag.char ++ (w.text ++ (p.text ++ (m.text ++ r))))) =
      if w.size ≤ intMax ∧ p.size ≤ intMax then some (match r with
        | [] => none
        | c :: cs => (conversion { gs.foldl setFlag init with
            fieldWidthOpt := w.opt, fieldWidth := w.size, prec := p.size, precOpt := p.opt
            lengthModifier := m } c).map (·, cs))
      else none := by
  rw [parseFormatSpec, List.tail_cons, flags_text h1]
  simp only
  rw [fieldWidth_text h2]
  by_cases hw : w.size ≤ intMax
  · rw [if_pos hw, Option.bind_some]
    simp only
    rw [precision_text h3]
    by_cases hp : p.size ≤ intMax
    · rw [if_pos hp, if_pos ⟨hw, hp⟩, Option.bind_some]
      simp only
      rw [lengthModifier_text h4]
      cases r <;> rfl
    · rw [if_neg hp, if_neg fun h => hp h.2, Option.bind_none]
  · rw [if_neg hw, if_neg fun h => hw h.1, Option.bind_none]

lemma foldl_setFlag (gs : List Flag) : gs.foldl setFlag init = { init with
    prepend := if .plus ∈ gs then some '+' else if .space ∈ gs then some ' ' else none
    altForm := decide (.hash ∈ gs)
    leftJustified := decide (.minus ∈ gs)
    leadingZeroPad := decide (.zero ∈ gs ∧ .minus ∉ gs) } := by
  induction gs using List.reverseRecOn with
  | nil => rfl
  | append_singleton gs g ih =>
    rw [List.foldl_append, List.foldl_cons, List.foldl_nil, ih]
    cases g <;> simp [setFlag, init]
    split_ifs <;> simp_all

namespace Directive

variable (d : Directive)

lemma conversion_eq : conversion { d.flags.foldl setFlag init with
    fieldWidthOpt := d.width.opt, fieldWidth := d.width.size, prec := d.prec.size
    precOpt := d.prec.opt, lengthModifier := d.length } d.conv = some d.meaning := by
  obtain ⟨gs, w, p, m, c, hc⟩ := d
  rw [foldl_setFlag]
  simp only [conversions, List.mem_cons, List.not_mem_nil, or_false] at hc
  rcases hc with rfl | rfl | rfl | rfl | rfl | rfl | rfl | rfl | rfl | rfl | rfl | rfl | rfl | rfl | rfl |
    rfl | rfl | rfl | rfl | rfl <;>
  simp [conversion, intSpec, floatSpec, meaning, precOpt, kind, init, Bool.and_comm,
    Bool.and_left_comm, Bool.and_assoc]

variable {d} {c : Char}

lemma head_length (h : c ∈ (d.length.text ++ d.conv :: r).head?) :
    c ∈ ['h', 'l', 'L', 'j', 'z', 't'] ++ conversions := by
  rw [List.mem_append]
  obtain ⟨gs, w, p, m, a, ha⟩ := d
  cases m <;> simp only [LengthModifier.text, List.nil_append, List.cons_append, List.head?_cons,
    Option.mem_def, Option.some.injEq] at h <;> subst h <;> first | exact .inr ha | exact .inl (by decide)

lemma head_prec (h : c ∈ (d.prec.text ++ (d.length.text ++ d.conv :: r)).head?) :
    c ∈ '.' :: (['h', 'l', 'L', 'j', 'z', 't'] ++ conversions) := by
  rcases hp : d.prec with _ | _ | ds | ds <;> rw [hp] at h
  · exact .tail _ (head_length h)
  all_goals
    obtain rfl : '.' = c := by simpa [Precision.text] using h
    exact .head _

/-- None of the characters that can begin the rest of a directive goes with what is before it. -/
lemma conv_plain : ∀ c ∈ '.' :: (['h', 'l', 'L', 'j', 'z', 't'] ++ conversions),
    c.isDigit = false ∧ c ≠ '*' ∧ c ≠ '-' ∧ flag? c = none := by
  simp [conversions, flag?]

lemma length_ends : d.length.Ends (d.conv :: r) := by
  have hc : ∀ c ∈ conversions, c ∉ ['h', 'l', 'L', 'j', 'z', 't'] := by
    simp [conversions]
  have h := hc _ d.conv_mem
  simp only [List.mem_cons, not_or] at h
  rcases d.length <;> simp_all [LengthModifier.Ends]

lemma prec_ends : d.prec.Ends (d.length.text ++ d.conv :: r) := by
  have hdot : '.' ∉ ['h', 'l', 'L', 'j', 'z', 't'] ++ conversions := by decide
  have hd : ∀ c ∈ (d.length.text ++ d.conv :: r).head?, c.isDigit = false :=
    fun c h => (conv_plain c (.tail _ (head_length h))).1
  rcases d.prec with _ | _ | ds | ds
  · exact fun h => hdot (head_length h)
  · trivial
  · exact ⟨hd, fun _ => ⟨fun h => (conv_plain _ (.tail _ (head_length h))).2.1 rfl,
      fun h => (conv_plain _ (.tail _ (head_length h))).2.2.1 rfl⟩⟩
  · exact hd

lemma width_ends : d.width.Ends (d.prec.text ++ (d.length.text ++ d.conv :: r)) := by
  have hd : ∀ c ∈ (d.prec.text ++ (d.length.text ++ d.conv :: r)).head?, c.isDigit = false :=
    fun c h => (conv_plain c (head_prec h)).1
  rcases d.width with _ | _ | ⟨e, ds⟩
  · exact ⟨hd, fun h => (conv_plain _ (head_prec h)).2.1 rfl⟩
  · trivial
  · exact hd

lemma flags_end : ∀ c ∈ (d.width.text ++ (d.prec.text ++ (d.length.text ++ d.conv :: r))).head?,
    flag? c = none := by
  intro c h
  rcases hw : d.width with _ | _ | ⟨e, ds⟩ <;> rw [hw] at h
  · exact (conv_plain c (head_prec h)).2.2.2
  · obtain rfl : '*' = c := by simpa [Width.text] using h
    rfl
  · obtain rfl : digitChar e.1 = c := by simpa [Width.text] using h
    exact (flag?_digit _).mpr e.2

/-- A directive is read as it is meant, whatever stands behind it. -/
lemma parse_text (d : Directive) (r : List Char) : parseFormatSpec (d.text ++ r) =
    if d.Fits then some (some (d.meaning, r)) else none := by
  have ht : d.text ++ r = '%' :: (d.flags.map Flag.char ++
      (d.width.text ++ (d.prec.text ++ (d.length.text ++ d.conv :: r)))) := by
    simp [text]
  rw [ht, parse_parts flags_end width_ends prec_ends length_ends]
  simp only [conversion_eq]
  rfl

end Directive

lemma conversion_mem {c : Char} (h : conversion fs c = some fs') : c ∈ conversions := by
  unfold conversion at h
  split at h
  case h_21 => cases h
  all_goals simp [conversions]

/-- What is accepted is a directive, with the text behind it. -/
lemma directive_of_parse {s rest : List Char}
    (h : parseFormatSpec ('%' :: s) = some (some (fs, rest))) :
    ∃ d : Directive, d.Fits ∧ '%' :: s = d.text ++ rest ∧ d.meaning = fs := by
  obtain ⟨gs, r1, rfl, h1⟩ := split_flags s
  obtain ⟨w, r2, rfl, h2⟩ := split_width h1
  obtain ⟨p, r3, rfl, h3⟩ := split_precision r2
  obtain ⟨m, r4, rfl, h4⟩ := split_length r3
  rw [parse_parts h1 h2 h3 h4] at h
  split_ifs at h with hf
  cases r4 with
  | nil => simp at h
  | cons c cs =>
    obtain ⟨fs', hc, he⟩ := Option.map_eq_some_iff.mp (Option.some.inj h)
    obtain ⟨rfl, rfl⟩ := Prod.mk.inj he
    let d : Directive := ⟨gs, w, p, m, c, conversion_mem hc⟩
    exact ⟨d, hf, by simp [d, Directive.text], Option.some.inj (d.conversion_eq.symm.trans hc)⟩

end Silkware.Directives
