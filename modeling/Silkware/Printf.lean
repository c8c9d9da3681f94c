import Silkware.Directives
import Silkware.Ftoa

/-!
printf.

A format is printed character by character; where a directive stands, its argument is turned into
text in a buffer, last character first, and sent out with its sign, prefix and padding. `none` is
undefined behaviour: an argument of another type, or an `int` that overflows.
-/

namespace Silkware.Printf

open Silkware.Directives Silkware.Ftoa

/-- An argument as it is passed: an `int`, an eight-byte integer or pointer, a string, or a
`double`, of which only the `float` it is converted to is kept. -/
inductive Arg
  | int (w : BitVec 32)
  | word (w : BitVec 64)
  | str (s : List Char)
  | double (f : BitVec 32)
  deriving DecidableEq, Repr

def takeInt : List Arg → Option (BitVec 32 × List Arg)
  | .int w :: args => some (w, args)
  | _ => none

def takeWord : List Arg → Option (BitVec 64 × List Arg)
  | .word w :: args => some (w, args)
  | _ => none

def takeStr : List Arg → Option (List Char × List Arg)
  | .str s :: args => some (s, args)
  | _ => none

def takeDouble : List Arg → Option (BitVec 32 × List Arg)
  | .double f :: args => some (f, args)
  | _ => none

/-- `NPF_EXTRACT` for the signed conversions. -/
def extractSigned (m : LengthModifier) (args : List Arg) : Option (Int × List Arg) :=
  match m with
  | .none | .longDouble => (takeInt args).map fun r => (r.1.toInt, r.2)
  | .short => (takeInt args).map fun r => ((r.1.setWidth 16).toInt, r.2)
  | .char => (takeInt args).map fun r => ((r.1.setWidth 8).toInt, r.2)
  | .long | .longLong | .intmax | .sizet | .ptrdifft => (takeWord args).map fun r => (r.1.toInt, r.2)

def extractUnsigned (m : LengthModifier) (args : List Arg) : Option (Nat × List Arg) :=
  match m with
  | .none | .longDouble => (takeInt args).map fun r => (r.1.toNat, r.2)
  | .short => (takeInt args).map fun r => ((r.1.setWidth 16).toNat, r.2)
  | .char => (takeInt args).map fun r => ((r.1.setWidth 8).toNat, r.2)
  | .long | .longLong | .intmax | .sizet | .ptrdifft => (takeWord args).map fun r => (r.1.toNat, r.2)

/-! ### Conversion into the buffer -/

/-- The loop of `npf_itoa_rev`: C's remainder has the sign of the number. -/
def itoaLoop (sign i : Int) : List Char :=
  Char.ofNat ('0'.toNat + (sign * i.tmod 10).toNat) ::
    if i.tdiv 10 = 0 then [] else itoaLoop sign (i.tdiv 10)
termination_by i.natAbs
decreasing_by
  rw [Int.natAbs_tdiv]
  have : i.natAbs ≠ 0 := fun h => by simp_all
  exact Nat.div_lt_self (by omega) (by decide)

def itoaRev (i : Int) : List Char := itoaLoop (if 0 ≤ i then 1 else -1) i

def utoaRev (base : { b : Nat // 1 < b }) (caseAdj i : Nat) : List Char :=
  let d := i % base
  Char.ofNat (if d < 10 then '0'.toNat + d else 'A'.toNat + caseAdj + (d - 10)) ::
    if i / base = 0 then [] else utoaRev base caseAdj (i / base)
termination_by i
decreasing_by
  have : i ≠ 0 := fun h => by simp_all
  exact Nat.div_lt_self (by omega) base.2

/-- `64 - clz(u)`. -/
def binLen (u : Nat) : Nat := if u = 0 then 1 else u.log2 + 1

/-- What the first `switch` leaves, with the precision, which it may change. -/
structure Converted where
  prec : Int
  cbuf : List Char := []
  cbufLen : Int := 0
  signC : Option Char := none
  need0x : Option Char := none
  zero : Bool := false
  fracChars : Int := 0
  infOrNan : Bool := false
  binval : Nat := 0

lemma one_lt_sixteen : 1 < 16 := by decide

def base (c : Conversion) : { b : Nat // 1 < b } :=
  if c = .octal then ⟨8, by decide⟩ else if c = .hexInt then ⟨16, one_lt_sixteen⟩
  else ⟨10, by decide⟩

/-- The loop over a string, up to its end or to the precision. -/
def stringLen (fs : FormatSpec) (len : Int) : List Char → Option Int
  | [] => some len
  | _ :: s =>
    if fs.precOpt = .none ∨ len < fs.prec then (int (len + 1)).bind (stringLen fs · s) else some len

def convertSigned (fs : FormatSpec) (val : Int) : Converted :=
  let c : Converted := {
    prec := fs.prec
    signC := if val < 0 then some '-' else fs.prepend
    zero := decide (val = 0) }
  if val = 0 ∧ fs.precOpt = .literal ∧ fs.prec = 0 then c
  else { c with cbuf := itoaRev val, cbufLen := (itoaRev val).length }

def convertUnsigned (fs : FormatSpec) (val : Nat) : Converted :=
  let c : Converted := { prec := fs.prec, zero := decide (val = 0) }
  let c :=
    if val = 0 ∧ fs.precOpt = .literal ∧ fs.prec = 0 then
      if fs.convSpec = .octal ∧ fs.altForm then { c with prec := 1 } else c
    else if fs.convSpec = .binary then { c with cbufLen := binLen val, binval := val }
    else
      let cbuf := utoaRev (base fs.convSpec) fs.caseAdjust val
      { c with cbuf := cbuf, cbufLen := cbuf.length }
  let c :=
    if val ≠ 0 ∧ fs.altForm ∧ fs.convSpec = .octal then
      { c with cbuf := c.cbuf ++ ['0'], cbufLen := c.cbufLen + 1 }
    else c
  if val ≠ 0 ∧ fs.altForm then
    if fs.convSpec = .hexInt then { c with need0x := some (Char.ofNat ('X'.toNat + fs.caseAdjust)) }
    else if fs.convSpec = .binary then
      { c with need0x := some (Char.ofNat ('B'.toNat + fs.caseAdjust)) }
    else c
  else c

/-- `val < 0.f`: neither zero nor a NaN, and the sign bit set. -/
def isNeg (f : BitVec 32) : Bool :=
  f.msb && f.toNat % 2 ^ 31 ≠ 0 && f.toNat % 2 ^ 31 ≤ 0x7f800000

def convertFloat (fs : FormatSpec) (val : BitVec 32) : Option Converted :=
  let t := ftoaRev val fs.caseAdjust
  let c : Converted := {
    prec := fs.prec
    signC := if isNeg val then some '-' else fs.prepend
    zero := decide (val.toNat % 2 ^ 31 = 0)
    fracChars := t.fracChars }
  if t.len < 0 then some { c with cbuf := t.buf, cbufLen := -t.len, infOrNan := true }
  else (int (t.fracChars - fs.prec)).bind fun x =>
    let precAdj := max 0 x
    (int (t.len - precAdj)).map fun len =>
      { c with cbuf := t.buf.drop precAdj.toNat, cbufLen := len }

/-- The first `switch`: extract the argument and convert it. -/
def convert (fs : FormatSpec) (args : List Arg) : Option (Converted × List Arg) :=
  match fs.convSpec with
  | .percent => some ({ prec := fs.prec, cbuf := ['%'], cbufLen := 1 }, args)
  | .char => (takeInt args).map fun r =>
      ({ prec := fs.prec, cbuf := [Char.ofNat (r.1.toNat % 2 ^ 8)], cbufLen := 1 }, r.2)
  | .string => (takeStr args).bind fun r =>
      (stringLen fs 0 r.1).map fun len => ({ prec := fs.prec, cbuf := r.1, cbufLen := len }, r.2)
  | .signedInt => (extractSigned fs.lengthModifier args).map fun r => (convertSigned fs r.1, r.2)
  | .binary | .octal | .hexInt | .unsignedInt =>
    (extractUnsigned fs.lengthModifier args).map fun r => (convertUnsigned fs r.1, r.2)
  | .pointer => (takeWord args).map fun r =>
      let cbuf := utoaRev ⟨16, one_lt_sixteen⟩ ('a'.toNat - 'A'.toNat) r.1.toNat
      ({ prec := fs.prec, cbuf := cbuf, cbufLen := cbuf.length, need0x := some 'x' }, r.2)
  | .floatDec | .floatSci | .floatShortest | .floatHex => (takeDouble args).bind fun r =>
      (convertFloat fs r.1).map (·, r.2)

/-! ### Padding -/

/-- The pad character, none where nothing is padded. -/
def padC (fs : FormatSpec) (c : Converted) : Option Char :=
  if fs.fieldWidthOpt = .literal then
    if fs.leadingZeroPad then
      if fs.convSpec ≠ .string ∧ fs.convSpec ≠ .char ∧ fs.convSpec ≠ .percent then
        if fs.precOpt = .literal ∧ c.prec = 0 ∧ c.zero then some ' ' else some '0'
      else none
    else some ' '
  else none

def precPad (fs : FormatSpec) (c : Converted) : Option Int :=
  if fs.convSpec ≠ .string ∧ ¬c.infOrNan then
    (int (c.prec - if fs.convSpec = .floatDec then c.fracChars else c.cbufLen)).map (max 0)
  else some 0

/-- A zero precision takes the decimal point with it. -/
def noPoint (fs : FormatSpec) (c : Converted) : Bool :=
  fs.convSpec = .floatDec && c.prec = 0 && !fs.altForm

def fieldPad (fs : FormatSpec) (c : Converted) (precPad : Int) : Option Int :=
  (int (fs.fieldWidth - c.cbufLen)).bind fun p =>
  (int (p - if c.signC.isSome then 1 else 0)).bind fun p =>
  (int (if c.need0x.isSome then p - 2 else p)).bind fun p =>
  (int (if noPoint fs c then p + 1 else p)).bind fun p =>
  (int (p - precPad)).map (max 0)

/-! ### Output -/

/-- The characters of the number, which the buffer holds in reverse. -/
def number (fs : FormatSpec) (c : Converted) : List Char :=
  if fs.convSpec = .binary then
    (List.range c.cbufLen.toNat).reverse.map fun i => Char.ofNat ('0'.toNat + c.binval >>> i % 2)
  else if noPoint fs c then ((c.cbuf.drop 1).take (c.cbufLen - 1).toNat).reverse
  else (c.cbuf.take c.cbufLen.toNat).reverse

/-- What is sent out, from the pad character on. -/
def output (fs : FormatSpec) (c : Converted) (precPad fieldPad : Int) : List Char :=
  let pad := padC fs c
  let pads := List.replicate fieldPad.toNat (pad.getD ' ')
  let zeros := List.replicate precPad.toNat '0'
  let pre := c.need0x.elim [] (['0', ·])
  let right := !fs.leftJustified && pad.isSome
  let signFirst := right && pad = some '0'
  let head :=
    if signFirst then c.signC.toList ++ pre ++ pads
    else if right then pads ++ pre
    else pre
  let payload :=
    if fs.convSpec = .string then c.cbuf.take c.cbufLen.toNat
    else (if signFirst then [] else c.signC.toList) ++
      (if fs.convSpec ≠ .floatDec then zeros else []) ++ number fs c ++
      (if fs.convSpec = .floatDec ∧ ¬c.infOrNan then zeros else [])
  head ++ payload ++ if fs.leftJustified && pad.isSome then pads else []

/-- A converted argument with its padding. -/
def send (fs : FormatSpec) (c : Converted) : Option (List Char) :=
  (precPad fs c).bind fun precPad =>
  (fieldPad fs c precPad).map fun fieldPad => output fs c precPad fieldPad

/-- The arguments of `*`. -/
def starWidth (fs : FormatSpec) (args : List Arg) : Option (FormatSpec × List Arg) :=
  if fs.fieldWidthOpt = .star then
    (takeInt args).bind fun r =>
      let fs := { fs with fieldWidthOpt := .literal }
      if r.1.toInt < 0 then
        (int (-r.1.toInt)).map fun w => ({ fs with fieldWidth := w, leftJustified := true }, r.2)
      else some ({ fs with fieldWidth := r.1.toInt }, r.2)
  else some (fs, args)

def starPrec (fs : FormatSpec) (args : List Arg) : Option (FormatSpec × List Arg) :=
  if fs.precOpt = .star then
    (takeInt args).map fun r =>
      ({ fs with precOpt := if (0 : Int) ≤ r.1.toInt then .literal else .none, prec := r.1.toInt }, r.2)
  else some (fs, args)

/-- A specification without `*`, and its argument. -/
def emit (fs : FormatSpec) (args : List Arg) : Option (List Char × List Arg) :=
  (convert fs args).bind fun r => (send fs r.1).map (·, r.2)

/-- The stars of a specification, filled in. -/
def stars (fs : FormatSpec) (args : List Arg) : Option (FormatSpec × List Arg) :=
  (starWidth fs args).bind fun r => starPrec r.1 r.2

/-- One turn of the loop at a specification. -/
def directive (fs : FormatSpec) (args : List Arg) : Option (List Char × List Arg) :=
  (stars fs args).bind fun r => emit r.1 r.2

lemma length_rest {s rest : List Char} {fs : FormatSpec}
    (h : parseFormatSpec ('%' :: s) = some (some (fs, rest))) : rest.length < s.length + 1 := by
  obtain ⟨d, -, hs, -⟩ := directive_of_parse h
  have := congrArg List.length hs
  simp only [Directive.text, List.length_append, List.length_cons] at this
  omega

/-- The loop of `npf_vpprintf`. -/
def vpprintf (args : List Arg) : List Char → Option (List Char)
  | [] => some []
  | c :: cur =>
    if _ : c = '%' then
      match _ : parseFormatSpec (c :: cur) with
      | none => none
      | some none => (vpprintf args cur).map (c :: ·)
      | some (some (fs, rest)) => (directive fs args).bind fun r =>
          (vpprintf r.2 rest).map (r.1 ++ ·)
    else (vpprintf args cur).map (c :: ·)
termination_by cur => cur.length
decreasing_by
  · simp
  · subst c
    exact length_rest (by assumption)
  · simp

end Silkware.Printf
