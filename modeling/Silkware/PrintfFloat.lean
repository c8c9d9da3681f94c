import Silkware.PrintfPad

/-!
The conversion of floating-point numbers.

A finite number below `2 ^ 64` is written with its exact integer part and as many digits behind the
point as the precision asks for. The first eight of them are those of the number, cut off and not
rounded.
-/

namespace Silkware.PrintfFloat

open Silkware.Directives hiding digits digitChar
open Silkware.Ftoa Silkware.Printf Silkware.PrintfPad

variable {fs : FormatSpec} {f : BitVec 32} {t : Text}

/-- The value of a fraction, as many digits as there are. -/
def fraction (s : List Char) : Nat := Nat.ofDigits 10 (s.reverse.map digitVal)

def signText (fs : FormatSpec) (f : BitVec 32) : List Char :=
  if isNeg f then ['-'] else fs.prepend.toList

/-- The pad character of a number: a zero without digits behind the point is padded with spaces. -/
def padChar (fs : FormatSpec) (f : BitVec 32) : Option Char :=
  padC fs { prec := fs.prec, zero := decide (f.toNat % 2 ^ 31 = 0) }

/-- A number with its sign, filled up to the width. -/
def padded (fs : FormatSpec) (f : BitVec 32) (num : List Char) : List Char :=
  padWith ((padChar fs f).getD ' ') fs (padChar fs f = some '0') (signText fs f) num

def point (fs : FormatSpec) : List Char := if fs.prec = 0 ∧ fs.altForm = false then [] else ['.']

/-! ### Cutting and filling up -/

/-- A fraction of `n` digits brought to `p` digits. -/
def fit (frac : List Char) (p : Nat) : List Char :=
  (frac.drop (frac.length - p)).reverse ++ List.replicate (p - frac.length) '0'

lemma length_fit (frac : List Char) (p : Nat) : (fit frac p).length = p := by
  rw [fit, List.length_append, List.length_reverse, List.length_drop, List.length_replicate]
  omega

/-- The digits of `r / u`: a cut is a cut, and an exact fraction can be filled up. -/
lemma fraction_fit {frac : List Char} {r u : Nat} (p : Nat) (hu : 0 < u)
    (hval : ∀ q ≤ frac.length, Nat.ofDigits 10 ((frac.drop (frac.length - q)).map digitVal) =
      r * 10 ^ q / u)
    (hcut : 8 ≤ frac.length ∨ r * 10 ^ frac.length % u = 0) :
    fraction (fit frac p) / 10 ^ (p - min p 8) = r * 10 ^ min p 8 / u := by
  set n := frac.length with hn
  have hfit : fraction (fit frac p) = 10 ^ (p - n) * (r * 10 ^ min p n / u) := by
    rw [fraction, fit, List.reverse_append, List.reverse_replicate, List.reverse_reverse,
      List.map_append, List.map_replicate, Nat.ofDigits_append,
      show digitVal '0' = 0 from rfl, Nat.ofDigits_replicate_zero, Nat.zero_add,
      List.length_replicate, ← hval (min p n) (min_le_right _ _), ← hn]
    congr 3
    rcases le_total p n with h | h
    · rw [min_eq_left h]
    · rw [min_eq_right h, show n - p = n - n by omega]
  have split {a b : Nat} (h : a ≤ b) : 10 ^ b = 10 ^ a * 10 ^ (b - a) := by
    rw [← pow_add, Nat.add_sub_cancel' h]
  have hpow (k : Nat) : 0 < 10 ^ k := by positivity
  have hj : min p 8 ≤ p := min_le_left _ _
  rw [hfit]
  rcases le_or_gt p n with h | h
  · rw [min_eq_left h, Nat.sub_eq_zero_of_le h, pow_zero, Nat.one_mul, Nat.div_div_eq_div_mul,
      split hj, ← Nat.mul_assoc, Nat.mul_div_mul_right _ _ (hpow _)]
  · rw [min_eq_right h.le]
    rcases le_or_gt (min p 8) n with hjn | hjn
    · rw [show p - min p 8 = (p - n) + (n - min p 8) by omega, pow_add,
        Nat.mul_div_mul_left _ _ (hpow _), Nat.div_div_eq_div_mul, split hjn, ← Nat.mul_assoc,
        Nat.mul_div_mul_right _ _ (hpow _)]
    · have h8 : ¬8 ≤ n := by
        have := min_le_right p 8
        omega
      obtain ⟨a, ha⟩ := Nat.dvd_of_mod_eq_zero (hcut.resolve_left h8)
      rw [ha, Nat.mul_div_cancel_left _ hu, split hjn.le, ← Nat.mul_assoc, ha, Nat.mul_assoc,
        Nat.mul_div_cancel_left _ hu, show p - n = (p - min p 8) + (min p 8 - n) by omega, pow_add,
        Nat.mul_assoc, Nat.mul_div_cancel_left _ (hpow _), Nat.mul_comm]

/-! ### A finite number -/

/-- What the conversion leaves of a number that is written out. -/
def finite (fs : FormatSpec) (f : BitVec 32) (t : Text) : Converted where
  prec := fs.prec
  cbuf := t.buf.drop (t.fracChars - fs.prec.toNat)
  cbufLen := t.len - (t.fracChars - fs.prec.toNat : Nat)
  signC := if isNeg f then some '-' else fs.prepend
  zero := decide (f.toNat % 2 ^ 31 = 0)
  fracChars := t.fracChars

lemma convertFloat_finite (hp : Printable fs) (h0 : 0 ≤ fs.prec)
    (ht : Written f (ftoaRev f fs.caseAdjust)) :
    convertFloat fs f = some (finite fs f (ftoaRev f fs.caseAdjust)) := by
  have hprec := hp.prec
  obtain ⟨frac, hbuf, hfrac, -⟩ := ht.buf
  have hlen := ht.len
  have hshort := ht.short
  have hle : (ftoaRev f fs.caseAdjust).fracChars ≤ (ftoaRev f fs.caseAdjust).buf.length := by
    rw [hbuf, List.length_append, hfrac]
    omega
  have hmax : max 0 ((ftoaRev f fs.caseAdjust).fracChars - fs.prec) =
      ((ftoaRev f fs.caseAdjust).fracChars - fs.prec.toNat : Nat) := by omega
  rw [convertFloat]
  simp only
  rw [if_neg (by omega), int_eq (by simp only [intMax]; omega), Option.bind_some]
  simp only [hmax]
  rw [int_eq (by simp only [intMax]; omega), Option.map_some]
  rfl

/-- The buffer of a number, as it is sent out. -/
lemma number_finite (hc : fs.convSpec = .floatDec) {frac num : List Char}
    (hbuf : t.buf = frac ++ '.' :: num) (hfrac : frac.length = t.fracChars)
    (hlen : t.len = t.buf.length) :
    number fs (finite fs f t) = num.reverse ++ (point fs ++ (frac.drop (frac.length - fs.prec.toNat)).reverse) ∧
    ((number fs (finite fs f t)).length : Int) =
      (finite fs f t).cbufLen - if noPoint fs (finite fs f t) then 1 else 0 := by
  have hle : t.fracChars - fs.prec.toNat ≤ frac.length := by omega
  have hcbuf : (finite fs f t).cbuf = frac.drop (frac.length - fs.prec.toNat) ++ '.' :: num := by
    rw [finite, hbuf, List.drop_append_of_le_length hle, hfrac]
  have hcl : (finite fs f t).cbufLen = (finite fs f t).cbuf.length := by
    have : t.buf.length = frac.length + (num.length + 1) := by simp [hbuf]
    simp only [finite, List.length_drop, hlen]
    omega
  have hnp : noPoint fs (finite fs f t) = decide (fs.prec = 0 ∧ fs.altForm = false) := by
    rw [noPoint, hc]
    change (true && decide (fs.prec = 0) && !fs.altForm) = _
    cases fs.altForm <;> simp
  have hnb : fs.convSpec ≠ .binary := by simp [hc]
  by_cases hn : fs.prec = 0 ∧ fs.altForm = false
  · have hdrop : frac.drop (frac.length - fs.prec.toNat) = [] := by simp [hn.1]
    rw [number, if_neg hnb, if_pos (by rw [hnp]; simpa using hn), hcl, hcbuf, hdrop, point, if_pos hn, hnp]
    simp [hn]
  · rw [number, if_neg hnb, if_neg (by rw [hnp]; simpa using hn), hcl, Int.toNat_natCast,
      List.take_length, hcbuf, point, if_neg hn, hnp]
    simp [hn]
    omega

/-- A number that is written out is sent as its integer part, the point and its digits. -/
lemma send_finite (hc : fs.convSpec = .floatDec) (hp : Printable fs) (h0 : 0 ≤ fs.prec)
    (ht : Written f t) : ∃ frac, frac.length = t.fracChars ∧ (∀ c ∈ frac, c.isDigit = true) ∧
      (∀ q ≤ t.fracChars, Nat.ofDigits 10 ((frac.drop (t.fracChars - q)).map digitVal) =
        Ftoa.frac f * 10 ^ q / 2 ^ 60) ∧
      send fs (finite fs f t) = some (padded fs f ((doDigits (num f / den f)).reverse ++
        (point fs ++ fit frac fs.prec.toNat))) := by
  obtain ⟨frac, hbuf, hfrac, hdig, hval⟩ := ht.buf
  have hprec := hp.prec
  have hshort := ht.short
  have hlen := ht.len
  obtain ⟨hnum, hl⟩ := number_finite (f := f) hc hbuf hfrac hlen
  have hle : t.fracChars ≤ t.buf.length := by
    rw [hbuf, List.length_append, hfrac]
    omega
  have hpp : precPad fs (finite fs f t) = some ((fs.prec.toNat - t.fracChars : Nat) : Int) := by
    rw [precPad, if_pos ⟨by simp [hc], by simp [finite]⟩, if_pos hc, finite]
    simp only
    rw [int_eq (by simp only [intMax]; omega), Option.map_some, Option.some.injEq]
    omega
  refine ⟨frac, hfrac, hdig, hval, ?_⟩
  rw [send_pad (by simp [hc]) hp hpp (by omega) (by simp [finite]) hl (by simp only [finite]; omega)
    (.inr rfl), withZeros, if_pos hc, hnum, Int.toNat_natCast, ← hfrac, List.append_assoc,
    List.append_assoc]
  have hsign : (finite fs f t).signC.toList ++ pre0x (finite fs f t) = signText fs f := by
    simp only [finite, pre0x, signText, Option.elim, List.append_nil]
    split_ifs <;> rfl
  rw [hsign]
  rfl

lemma digits_fit {frac : List Char} (h : ∀ c ∈ frac, c.isDigit = true) (p : Nat) :
    ∀ c ∈ fit frac p, c.isDigit = true := by
  intro c hc
  rcases List.mem_append.mp hc with hc | hc
  · exact h c (List.mem_of_mem_drop (List.mem_reverse.mp hc))
  · rw [List.eq_of_mem_replicate hc]
    rfl

/-- The fraction of the number, as the digits see it. -/
lemma frac_digits (h : -60 ≤ exponent f) (q : Nat) :
    Ftoa.frac f * 10 ^ q / 2 ^ 60 = num f % den f * 10 ^ q / den f := by
  have hd := den_pos f
  have hu : 0 < 2 ^ 60 := by norm_num
  have hf := frac_eq h
  generalize 2 ^ 60 = u at hu hf
  calc Ftoa.frac f * 10 ^ q / u = Ftoa.frac f * 10 ^ q * den f / (u * den f) :=
        (Nat.mul_div_mul_right _ _ hd).symm
    _ = num f % den f * 10 ^ q * u / (den f * u) := by
        rw [Nat.mul_right_comm, hf, Nat.mul_right_comm, Nat.mul_comm u]
    _ = num f % den f * 10 ^ q / den f := Nat.mul_div_mul_right _ _ hu

/-! ### The directives -/

variable {d : Directive} {args rest : List Arg}

lemma floatDec_of_directive (hd : d.conv = 'f' ∨ d.conv = 'F') (h : stars d.meaning args = some (fs, rest)) :
    fs.convSpec = .floatDec := by
  rw [(stars_same h).conv]
  rcases hd with hd | hd <;> simp [Directive.meaning, Directive.kind, hd]

/-- **A finite number below `2 ^ 64`** is printed with its exact integer part and as many digits
behind the point as the precision asks for. The first eight are those of the number, cut off; a
number below `2 ^ -36` is printed as zero. -/
theorem float_printed (hd : d.conv = 'f' ∨ d.conv = 'F')
    (h : stars d.meaning args = some (fs, .double f :: rest)) (hp : Printable fs) (h0 : 0 ≤ fs.prec)
    (hfin : f.toNat >>> 23 % 2 ^ 8 ≠ 0xff) (he : exponent f < 41) :
    ∃ frac : List Char, directive d.meaning args = some (padded fs f
        ((Numerals.digits 10 (num f / den f)).reverse.map digit ++ (point fs ++ frac)), rest) ∧
      frac.length = fs.prec.toNat ∧ (∀ c ∈ frac, c.isDigit = true) ∧
      fraction frac / 10 ^ (fs.prec.toNat - min fs.prec.toNat 8) =
        if -60 ≤ exponent f then num f % den f * 10 ^ min fs.prec.toNat 8 / den f else 0 := by
  have hc := floatDec_of_directive hd h
  have ht : Written f (ftoaRev f fs.caseAdjust) := ftoaRev_written hfin he
  obtain ⟨frac, hfrac, hdig, hval, hsend⟩ := send_finite hc hp h0 ht
  have hcut := ht.cut
  rw [← hfrac] at hval hcut
  refine ⟨fit frac fs.prec.toNat, ?_, length_fit _ _, digits_fit hdig _, ?_⟩
  · rw [directive, h, Option.bind_some, emit, convert, hc]
    simp only [takeDouble, Option.bind_some]
    rw [convertFloat_finite hp h0 ht, Option.map_some, Option.bind_some, hsend, doDigits_eq,
      List.map_reverse]
    rfl
  · rw [fraction_fit _ (by norm_num) hval hcut]
    split_ifs with h60
    · exact frac_digits h60 _
    · rw [frac_small (not_le.mp h60), Nat.zero_mul, Nat.zero_div]

/-- `%.*f`. -/
def starDigits : Directive := ⟨[], .none, .star, .none, 'f', by decide⟩

theorem float_printed_pi : ∃ fs, stars starDigits.meaning [.int 3, .double 0x40490fdb] =
    some (fs, [.double 0x40490fdb]) ∧ ∃ frac : List Char,
      directive starDigits.meaning [.int 3, .double 0x40490fdb] = some (padded fs 0x40490fdb
        ((Numerals.digits 10 (num 0x40490fdb / den 0x40490fdb)).reverse.map digit ++
          (point fs ++ frac)), []) ∧
      frac.length = fs.prec.toNat ∧ (∀ c ∈ frac, c.isDigit = true) ∧
      fraction frac / 10 ^ (fs.prec.toNat - min fs.prec.toNat 8) =
        if -60 ≤ exponent 0x40490fdb then num 0x40490fdb % den 0x40490fdb *
          10 ^ min fs.prec.toNat 8 / den 0x40490fdb else 0 := by
  have h : stars starDigits.meaning [.int 3, .double 0x40490fdb] = some (_, [.double 0x40490fdb]) := rfl
  exact ⟨_, h, float_printed (.inl rfl) h ⟨by decide, by decide⟩ (by decide) (by decide) (by decide)⟩

/-- What is written instead of a number that is not finite, or from `2 ^ 64` on. -/
def name (fs : FormatSpec) (f : BitVec 32) : List Char :=
  (if f.toNat >>> 23 % 2 ^ 8 = 0xff then
    if f.toNat % 2 ^ 23 ≠ 0 then ['N', 'A', 'N'] else ['I', 'N', 'F']
  else ['O', 'O', 'R']).map fun c => Char.ofNat (c.toNat + fs.caseAdjust)

lemma ftoaRev_name (h : f.toNat >>> 23 % 2 ^ 8 = 0xff ∨ 41 ≤ exponent f) :
    ftoaRev f fs.caseAdjust = ⟨(name fs f).reverse, -3, 0⟩ := by
  rw [ftoaRev, name]
  split_ifs with h1 h2
  · rfl
  · rfl
  · have ho : fsplitAbs f = none := if_pos (by omega)
    rw [ho]
    rfl

/-- **Every other number** is printed by name. A zero precision takes the last letter with it, as it
takes the decimal point. -/
theorem name_printed (hd : d.conv = 'f' ∨ d.conv = 'F')
    (h : stars d.meaning args = some (fs, .double f :: rest)) (hp : Printable fs)
    (hf : f.toNat >>> 23 % 2 ^ 8 = 0xff ∨ 41 ≤ exponent f) :
    directive d.meaning args = some (padded fs f
      (if fs.prec = 0 ∧ fs.altForm = false then (name fs f).dropLast else name fs f), rest) := by
  have hc := floatDec_of_directive hd h
  have ht : ftoaRev f fs.caseAdjust = _ := ftoaRev_name hf
  set c : Converted := {
    prec := fs.prec, cbuf := (name fs f).reverse, cbufLen := 3
    signC := if isNeg f then some '-' else fs.prepend
    zero := decide (f.toNat % 2 ^ 31 = 0), infOrNan := true } with hcdef
  have hconv : convertFloat fs f = some c := by
    rw [convertFloat, ht]
    rfl
  obtain ⟨x, y, z, hname⟩ : ∃ x y z, name fs f = [x, y, z] := by
    unfold name
    split_ifs <;> exact ⟨_, _, _, rfl⟩
  have hnp : noPoint fs c = decide (fs.prec = 0 ∧ fs.altForm = false) := by
    rw [noPoint, hc]
    change (true && decide (fs.prec = 0) && !fs.altForm) = _
    cases fs.altForm <;> simp
  have hnum : number fs c =
      if fs.prec = 0 ∧ fs.altForm = false then (name fs f).dropLast else name fs f := by
    rw [number, if_neg (by simp [hc]), hnp]
    by_cases hn : fs.prec = 0 ∧ fs.altForm = false
    · simp [hn, hcdef, hname]
    · simp [hn, hcdef, hname]
  have hlen : ((number fs c).length : Int) = c.cbufLen - if noPoint fs c then 1 else 0 := by
    rw [hnum, hnp, hname]
    by_cases hn : fs.prec = 0 ∧ fs.altForm = false <;> simp [hn, hcdef]
  have hpp : precPad fs c = some 0 := if_neg (by simp [hcdef])
  have hsign : c.signC.toList ++ pre0x c = signText fs f := by
    simp only [hcdef, pre0x, signText, Option.elim, List.append_nil]
    split_ifs <;> rfl
  rw [directive, h, Option.bind_some, emit, convert, hc]
  simp only [takeDouble, Option.bind_some]
  rw [hconv, Option.map_some, Option.bind_some,
    send_pad (by simp [hc]) hp hpp (by omega) (fun _ => rfl) hlen (by simp [hcdef]) (.inr rfl),
    withZeros, if_pos hc, Int.toNat_zero, List.replicate_zero, List.append_nil, hsign, hnum]
  rfl

/-- `%.0f` of an infinity. -/
def noDigits : Directive := ⟨[], .none, .number [], .none, 'F', by decide⟩

theorem name_printed_inf : directive noDigits.meaning [.double 0x7f800000] = some (['I', 'N'], []) := by
  have h : stars noDigits.meaning [.double 0x7f800000] = some (_, [.double 0x7f800000]) := rfl
  rw [name_printed (.inr rfl) h ⟨by decide, by decide⟩ (.inl (by decide))]
  decide

end Silkware.PrintfFloat
