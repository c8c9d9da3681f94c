import Silkware.Printf

/-!
Padding, without its counts.

The text of a number is a prefix and its digits, filled up to the width on one side. That the counts
of the padding fit the lengths of the parts is shown here once for all conversions.
-/

namespace Silkware.PrintfPad

open Silkware.Directives hiding digits digitChar
open Silkware.Printf

/-- The width filled up: behind the text, with zeros between its prefix and its digits, or with
spaces before it. -/
def padWith (fill : Char) (fs : FormatSpec) (zero : Bool) (pre num : List Char) : List Char :=
  let n := (if fs.fieldWidthOpt = .literal then fs.fieldWidth.toNat else 0) - (pre ++ num).length
  if fs.leftJustified then pre ++ (num ++ List.replicate n fill)
  else if zero then pre ++ (List.replicate n '0' ++ num)
  else List.replicate n ' ' ++ (pre ++ num)

/-- The width as C has it: spaces behind the text. -/
def pad : FormatSpec → Bool → List Char → List Char → List Char := padWith ' '

/-- A specification that can be printed: the width is an `int`, and the precision leaves room for
the sums of the padding. -/
structure Printable (fs : FormatSpec) : Prop where
  width : 0 ≤ fs.fieldWidth ∧ fs.fieldWidth ≤ intMax
  prec : -0x40000000 ≤ fs.prec ∧ fs.prec ≤ 0x40000000

variable {fs : FormatSpec} {c : Converted} {pp : Int}

def pre0x (c : Converted) : List Char := c.need0x.elim [] (['0', ·])

/-- The zeros of the precision stand before a number, but behind a fraction. -/
def withZeros (fs : FormatSpec) (pp : Int) (num : List Char) : List Char :=
  if fs.convSpec = .floatDec then num ++ List.replicate pp.toNat '0'
  else List.replicate pp.toNat '0' ++ num

lemma int_eq {x : Int} (h : -intMax - 1 ≤ x ∧ x ≤ intMax) : int x = some x := if_pos h

lemma fieldPad_eq (hp : Printable fs) (hpp : 0 ≤ pp ∧ pp ≤ 0x40000000)
    (h0 : (if noPoint fs c then 1 else 0) ≤ c.cbufLen) (h64 : c.cbufLen ≤ 64) : fieldPad fs c pp = some (max 0 (fs.fieldWidth - c.cbufLen -
      c.signC.toList.length - (pre0x c).length + (if noPoint fs c then 1 else 0) - pp)) := by
  have hw := hp.width
  have hs : (if c.signC.isSome = true then (1 : Int) else 0) = c.signC.toList.length := by
    cases c.signC <;> rfl
  have hx (p : Int) : (if c.need0x.isSome = true then p - 2 else p) = p - (pre0x c).length := by
    rw [pre0x]
    cases c.need0x <;> simp
  have hn (p : Int) : (if noPoint fs c = true then p + 1 else p) =
      p + if noPoint fs c then 1 else 0 := by
    split_ifs <;> omega
  have hsl : c.signC.toList.length ≤ 1 := by cases c.signC <;> simp
  have hxl : (pre0x c).length ≤ 2 := by
    rw [pre0x]
    cases c.need0x <;> simp
  simp only [intMax] at hw
  have h1 : (0 : Int) ≤ (if noPoint fs c then 1 else 0) ∧ (if noPoint fs c then 1 else 0) ≤ (1 : Int) := by
    split_ifs <;> omega
  rw [fieldPad, hs, int_eq (by simp only [intMax]; omega), Option.bind_some,
    int_eq (by simp only [intMax]; omega), Option.bind_some, hx,
    int_eq (by simp only [intMax]; omega), Option.bind_some, hn,
    int_eq (by simp only [intMax]; omega), Option.bind_some, int_eq (by simp only [intMax]; omega)]
  rfl

/-- A number is padded whenever there is a width, and with zeros only under the flag. -/
lemma padC_cases (hk : fs.convSpec ∉ [.string, .char, .percent]) :
    (fs.fieldWidthOpt = .literal ∧ (padC fs c = some ' ' ∨ padC fs c = some '0')) ∨
    (fs.fieldWidthOpt ≠ .literal ∧ padC fs c = none) := by
  simp only [List.mem_cons, List.not_mem_nil, or_false, not_or] at hk
  rw [padC, if_pos hk]
  split_ifs with h1 h2 h3
  · exact .inl ⟨h1, .inl rfl⟩
  · exact .inl ⟨h1, .inr rfl⟩
  · exact .inl ⟨h1, .inl rfl⟩
  · exact .inr ⟨h1, rfl⟩

/-- **Padding** of a number in the buffer. Behind the text stands the pad character, zero or not. -/
lemma send_pad (hk : fs.convSpec ∉ [.string, .char, .percent]) (hp : Printable fs)
    (hpp : precPad fs c = some pp) (hpp0 : 0 ≤ pp ∧ pp ≤ 0x40000000)
    (hinf : c.infOrNan = true → pp = 0)
    (hlen : ((number fs c).length : Int) = c.cbufLen - if noPoint fs c then 1 else 0)
    (h64 : c.cbufLen ≤ 64) (hx : c.signC = none ∨ c.need0x = none) :
    send fs c = some (padWith ((padC fs c).getD ' ') fs (padC fs c = some '0')
      (c.signC.toList ++ pre0x c) (withZeros fs pp (number fs c))) := by
  have hs : fs.convSpec ≠ .string := fun h => hk (by simp [h])
  have hnp : (0 : Int) ≤ if noPoint fs c then 1 else 0 := by split_ifs <;> omega
  rw [send, hpp, Option.bind_some, fieldPad_eq hp hpp0 (by omega) h64, Option.map_some,
    Option.some.injEq]
  set fp := max 0 (fs.fieldWidth - c.cbufLen - c.signC.toList.length - (pre0x c).length +
    (if noPoint fs c then 1 else 0) - pp) with hfp
  have hzl : (withZeros fs pp (number fs c)).length = (number fs c).length + pp.toNat := by
    rw [withZeros]
    split_ifs <;> simp [Nat.add_comm]
  have hn : fp.toNat =
      fs.fieldWidth.toNat - (c.signC.toList ++ pre0x c ++ withZeros fs pp (number fs c)).length := by
    have hw := hp.width
    simp only [List.length_append, hzl]
    omega
  have hbody (r : List Char) : (if fs.convSpec ≠ .floatDec then List.replicate pp.toNat '0' else []) ++
      (number fs c ++ ((if fs.convSpec = .floatDec ∧ ¬c.infOrNan = true
        then List.replicate pp.toNat '0' else []) ++ r)) = withZeros fs pp (number fs c) ++ r := by
    rw [withZeros]
    by_cases hf : fs.convSpec = .floatDec
    · cases hi : c.infOrNan
      · simp [hf]
      · simp [hf, hinf hi]
    · simp [hf]
  have hswap (r : List Char) : pre0x c ++ (c.signC.toList ++ r) = c.signC.toList ++ (pre0x c ++ r) := by
    rcases hx with h | h <;> simp [pre0x, h]
  rw [output]
  simp only [if_neg hs, List.append_assoc]
  rw [hbody, show c.need0x.elim [] (['0', ·]) = pre0x c from rfl]
  rcases padC_cases (c := c) hk with ⟨hw, hpad | hpad⟩ | ⟨hw, hpad⟩
  · cases hl : fs.leftJustified <;> simp [hpad, hl, hn, padWith, hw, hswap]
  · cases hl : fs.leftJustified <;> simp [hpad, hl, hn, padWith, hw, hswap]
  · cases hl : fs.leftJustified <;> simp [hpad, hl, padWith, hw, hswap]

/-! ### Stars -/

/-- What filling in the stars leaves alone. -/
structure SameBut (fs fs' : FormatSpec) : Prop where
  conv : fs'.convSpec = fs.convSpec
  case : fs'.caseAdjust = fs.caseAdjust
  prepend : fs'.prepend = fs.prepend
  zero : fs'.leadingZeroPad = fs.leadingZeroPad
  prec : fs.precOpt ≠ .star → fs'.precOpt = fs.precOpt

lemma stars_same {fs' : FormatSpec} {args rest : List Arg} (h : stars fs args = some (fs', rest)) :
    SameBut fs fs' := by
  obtain ⟨⟨fs₁, r⟩, hw, hp⟩ := Option.bind_eq_some_iff.mp h
  have h1 : SameBut fs fs₁ := by
    unfold starWidth at hw
    split_ifs at hw
    · obtain ⟨x, -, hx⟩ := Option.bind_eq_some_iff.mp hw
      simp only at hx
      split_ifs at hx
      · obtain ⟨w, -, hw⟩ := Option.map_eq_some_iff.mp hx
        obtain ⟨rfl, -⟩ := Prod.mk.inj hw
        exact ⟨rfl, rfl, rfl, rfl, fun _ => rfl⟩
      · obtain ⟨rfl, -⟩ := Prod.mk.inj (Option.some.inj hx)
        exact ⟨rfl, rfl, rfl, rfl, fun _ => rfl⟩
    · obtain ⟨rfl, -⟩ := Prod.mk.inj (Option.some.inj hw)
      exact ⟨rfl, rfl, rfl, rfl, fun _ => rfl⟩
  have h2 : SameBut fs₁ fs' := by
    simp only [starPrec] at hp
    split_ifs at hp with hstar
    · obtain ⟨x, -, hx⟩ := Option.map_eq_some_iff.mp hp
      obtain ⟨rfl, -⟩ := Prod.mk.inj hx
      exact ⟨rfl, rfl, rfl, rfl, fun h => absurd hstar h⟩
    · obtain ⟨rfl, -⟩ := Prod.mk.inj (Option.some.inj hp)
      exact ⟨rfl, rfl, rfl, rfl, fun _ => rfl⟩
  exact ⟨h2.conv.trans h1.conv, h2.case.trans h1.case, h2.prepend.trans h1.prepend,
    h2.zero.trans h1.zero, fun h => (h2.prec (by rwa [h1.prec h])).trans (h1.prec h)⟩

end Silkware.PrintfPad
