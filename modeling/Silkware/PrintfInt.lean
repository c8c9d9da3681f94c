import Silkware.PrintfPad

/-!
The integer conversions.

What printf writes for an integer is told without its buffer and its padding counts: a sign, a
prefix, the digits with the zeros of the precision, and the width filled up on one side. The text
reads back as the integer.
-/

namespace Silkware.PrintfInt

open Silkware.Directives hiding digits digitChar
open Silkware.Printf Silkware.PrintfPad Silkware.Numerals

variable {fs : FormatSpec} {c : Converted}

/-! ### The buffer -/

lemma utoaRev_eq (b : { b : Nat // 1 < b }) (a i : Nat) :
    utoaRev b a i = (digits b i).map (digitChar ('A'.toNat + a)) := by
  induction i using Nat.strong_induction_on with
  | _ i ih =>
    rw [utoaRev, digits_eq_cons b.2, List.map_cons]
    split_ifs with hd h h
    · rw [digitChar, if_pos hd]
      rfl
    · rw [digitChar, if_pos hd, ih (i / b) (Nat.div_lt_self (Nat.pos_of_ne_zero fun h0 => by simp_all) b.2)]
      rfl
    · rw [digitChar, if_neg hd]
      rfl
    · rw [digitChar, if_neg hd, ih (i / b) (Nat.div_lt_self (Nat.pos_of_ne_zero fun h0 => by simp_all) b.2)]

lemma itoaLoop_eq {g : Int} (hg : g = 1 ∨ g = -1) (a n : Nat) :
    itoaLoop g (g * n) = (digits 10 n).map (digitChar a) := by
  induction n using Nat.strong_induction_on with
  | _ n ih =>
    have hmod : g * (g * n).tmod 10 = (n % 10 : Nat) := by
      rcases hg with rfl | rfl <;> simp [Int.neg_tmod] <;> rfl
    have hdiv : (g * n).tdiv 10 = g * (n / 10 : Nat) := by
      rcases hg with rfl | rfl <;> simp [Int.neg_tdiv]
    have hz : g * (n / 10 : Nat) = 0 ↔ n / 10 = 0 := by
      rcases hg with rfl | rfl <;> omega
    rw [itoaLoop, digits_eq_cons (by decide), List.map_cons, hmod, hdiv]
    have hd : digitChar a (n % 10) = Char.ofNat ('0'.toNat + (n % 10)) := by
      rw [digitChar, if_pos (Nat.mod_lt _ (by decide))]
      rfl
    simp only [hz, Int.toNat_natCast, hd]
    split_ifs with h
    · rfl
    · rw [ih (n / 10) (by omega)]

lemma itoaRev_eq (a : Nat) (i : Int) : itoaRev i = (digits 10 i.natAbs).map (digitChar a) := by
  rw [itoaRev]
  split_ifs with h
  · conv_lhs => rw [show i = 1 * (i.natAbs : Int) by omega]
    exact itoaLoop_eq (.inl rfl) a _
  · conv_lhs => rw [show i = -1 * (i.natAbs : Int) by omega]
    exact itoaLoop_eq (.inr rfl) a _

/-! ### The text of an integer -/

def ints : List Conversion := [.signedInt, .octal, .hexInt, .unsignedInt]

def letter (fs : FormatSpec) : Nat := 'A'.toNat + fs.caseAdjust

/-- The digits with the zeros of the precision. `#` makes an octal number begin with a zero. -/
def numeral (fs : FormatSpec) (mag : Nat) : List Char :=
  let ds := if mag = 0 ∧ fs.precOpt = .literal ∧ fs.prec = 0 then []
    else (digits (base fs.convSpec) mag).reverse.map (digitChar (letter fs))
  let num := List.replicate (fs.prec.toNat - ds.length) '0' ++ ds
  if fs.convSpec = .octal ∧ fs.altForm ∧ num.head? ≠ some '0' then '0' :: num else num

def intPrefix (fs : FormatSpec) (val : Int) : List Char :=
  if fs.convSpec = .signedInt then if val < 0 then ['-'] else fs.prepend.toList
  else if fs.convSpec = .hexInt ∧ fs.altForm ∧ val ≠ 0 then
    ['0', Char.ofNat ('X'.toNat + fs.caseAdjust)]
  else []

/-- The text of an integer under `d`, `i`, `o`, `u`, `x` and `X`, filled up behind with `fill`. -/
def filledText (fill : Char) (fs : FormatSpec) (val : Int) : List Char :=
  padWith fill fs fs.leadingZeroPad (intPrefix fs val) (numeral fs val.natAbs)

/-- The text of an integer as C has it. -/
def intText : FormatSpec → Int → List Char := filledText ' '

/-- The character that fills up behind the text: a zero where the flag `0` has outlived `-`. -/
def fill (fs : FormatSpec) : Char := if fs.leadingZeroPad then '0' else ' '

/-- What the parser makes of an integer conversion. -/
structure IntSpec (fs : FormatSpec) : Prop where
  conv : fs.convSpec ∈ ints
  case : fs.caseAdjust = 0 ∨ fs.caseAdjust = 32
  flag : fs.leadingZeroPad = true → fs.precOpt = .none
  prepend : fs.prepend ∈ [none, some '+', some ' ']

lemma length_digits_le_64 {b v : Nat} (hb : 1 < b) (h : v < 2 ^ 64) : (digits b v).length ≤ 64 :=
  length_digits_le hb (by decide) (h.trans_le (Nat.pow_le_pow_left hb 64))

lemma number_eq (hc : fs.convSpec ∈ ints) (hlen : c.cbufLen = c.cbuf.length) :
    number fs c = c.cbuf.reverse := by
  have hkind : ∀ k ∈ ints, k ≠ .binary ∧ k ≠ .floatDec := by decide
  obtain ⟨hb, hf⟩ := hkind _ hc
  rw [number, if_neg hb, if_neg (by simp [noPoint, hf]), hlen, Int.toNat_natCast, List.take_length]

/-- The pad character of an integer: the flag decides. -/
lemma pad_padC (hs : IntSpec fs) (pre num : List Char) :
    padWith ((padC fs c).getD ' ') fs (padC fs c = some '0') pre num =
      padWith (fill fs) fs fs.leadingZeroPad pre num := by
  have hkind : ∀ k ∈ ints, k ≠ .string ∧ k ≠ .char ∧ k ≠ .percent := by decide
  by_cases hw : fs.fieldWidthOpt = .literal
  · cases hz : fs.leadingZeroPad
    · simp [padC, hw, hz, fill]
    · simp [padC, hw, hz, hkind _ hs.conv, hs.flag hz, fill]
  · simp [padWith, hw]

/-- The buffer of a conversion, and what else matters for its text. -/
structure Holds (fs : FormatSpec) (c : Converted) (val : Int) : Prop where
  prec : -0x40000000 ≤ c.prec ∧ c.prec ≤ 0x40000000
  inf : c.infOrNan = false
  len : c.cbufLen = c.cbuf.length
  short : c.cbuf.length ≤ 64
  head : c.signC.toList ++ pre0x c = intPrefix fs val
  one : c.signC = none ∨ c.need0x = none
  digits : List.replicate (c.prec - c.cbufLen).toNat '0' ++ c.cbuf.reverse = numeral fs val.natAbs

lemma emit_holds {val : Int} (hs : IntSpec fs) (hp : Printable fs) (h : Holds fs c val) :
    send fs c = some (filledText (fill fs) fs val) := by
  have hkind : ∀ k ∈ ints, k ∉ [.string, .char, .percent] ∧ k ≠ .string ∧ k ≠ .floatDec := by decide
  obtain ⟨hk, hstr, hf⟩ := hkind _ hs.conv
  have hnum := number_eq hs.conv h.len
  have hprec := h.prec
  have hlen := h.len
  have hshort := h.short
  have hpp : precPad fs c = some (max 0 (c.prec - c.cbufLen)) := by
    rw [precPad, if_pos ⟨hstr, by simp [h.inf]⟩, if_neg hf, int_eq (by simp only [intMax]; omega)]
    rfl
  have hn : ((number fs c).length : Int) = c.cbufLen - if noPoint fs c then 1 else 0 := by
    rw [hnum, List.length_reverse, hlen, if_neg (by simp [noPoint, hf]), sub_zero]
  have hz : (max 0 (c.prec - c.cbufLen)).toNat = (c.prec - c.cbufLen).toNat := by omega
  rw [send_pad hk hp hpp (by omega) (by simp [h.inf]) hn (by omega) h.one, pad_padC hs, h.head,
    withZeros, if_neg hf, hz, hnum, h.digits]
  rfl

lemma zeros_eq (p : Int) (n : Nat) : (p - n).toNat = p.toNat - n := by omega

lemma holds_signed {val : Int} (hp : Printable fs) (hc : fs.convSpec = .signedInt)
    (hv : val.natAbs < 2 ^ 64) : Holds fs (convertSigned fs val) val := by
  have hb : (base fs.convSpec : Nat) = 10 := by rw [hc]; rfl
  have ho : ¬(fs.convSpec = .octal) := by simp [hc]
  by_cases h0 : val = 0 ∧ fs.precOpt = .literal ∧ fs.prec = 0
  · refine ⟨?_, ?_, ?_, ?_, ?_, ?_, ?_⟩ <;> simp only [convertSigned, if_pos h0]
    · exact hp.prec
    · rfl
    · simp
    · simp [h0.1, intPrefix, hc, pre0x]
    · exact .inr trivial
    · simp [numeral, h0, ho]
  · have h0' : ¬(val.natAbs = 0 ∧ fs.precOpt = .literal ∧ fs.prec = 0) := by
      rwa [Int.natAbs_eq_zero]
    refine ⟨?_, ?_, ?_, ?_, ?_, ?_, ?_⟩ <;> simp only [convertSigned, if_neg h0]
    · exact hp.prec
    · rw [itoaRev_eq (letter fs), List.length_map]
      exact length_digits_le_64 (by decide) hv
    · by_cases hv0 : val < 0 <;> simp [intPrefix, hc, pre0x, hv0]
    · exact .inr trivial
    · simp only [numeral, if_neg h0', hb, ho, false_and, if_false, itoaRev_eq (letter fs), zeros_eq,
        List.map_reverse, List.length_reverse]

lemma letter_eq (hs : IntSpec fs) : Letter (letter fs) :=
  hs.case.imp (fun h => by rw [letter, h]; rfl) (fun h => by rw [letter, h]; rfl)

lemma digitChar_eq_zero {a d : Nat} (ha : Letter a) (h : d < 16) : digitChar a d = '0' ↔ d = 0 := by
  rcases ha with rfl | rfl <;> interval_cases d <;> decide

/-- A number that is not zero does not begin with a zero. -/
lemma head_digits (hs : IntSpec fs) {b v : Nat} (hb : 1 < b) (h16 : b ≤ 16) (hv : v ≠ 0) :
    ((digits b v).reverse.map (digitChar (letter fs))).head? ≠ some '0' := by
  rw [List.head?_map, List.head?_reverse]
  intro h
  obtain ⟨d, hd, hc⟩ := Option.map_eq_some_iff.mp h
  have hlt := lt_of_mem_digits hb (List.mem_of_getLast? hd)
  rw [digitChar_eq_zero (letter_eq hs) (hlt.trans_le h16)] at hc
  exact getLast?_digits hv (hc ▸ hd)

/-- The zero of `#` and the zeros of the precision. -/
lemma octal_zeros {ds : List Char} (p : Nat) (h : ds.head? ≠ some '0') :
    List.replicate (p - (ds.length + 1)) '0' ++ '0' :: ds =
      if (List.replicate (p - ds.length) '0' ++ ds).head? ≠ some '0'
      then '0' :: (List.replicate (p - ds.length) '0' ++ ds)
      else List.replicate (p - ds.length) '0' ++ ds := by
  obtain hn | ⟨n, hn⟩ : p - ds.length = 0 ∨ ∃ n, p - ds.length = n + 1 := by
    cases p - ds.length <;> simp
  · rw [hn, show p - (ds.length + 1) = 0 by omega]
    simp [h]
  · rw [hn, show p - (ds.length + 1) = n by omega]
    rw [if_neg (by simp [List.replicate_succ]), List.append_cons, ← List.replicate_succ']

lemma base_le (hc : fs.convSpec ∈ ints) : (base fs.convSpec : Nat) ≤ 16 := by
  have h : ∀ k ∈ ints, (base k : Nat) ≤ 16 := by decide
  exact h _ hc

/-- The buffer of an unsigned conversion. -/
def unsignedBuf (fs : FormatSpec) (v : Nat) : List Char :=
  (if v = 0 ∧ fs.precOpt = .literal ∧ fs.prec = 0 then [] else utoaRev (base fs.convSpec) fs.caseAdjust v) ++
    if v ≠ 0 ∧ fs.altForm ∧ fs.convSpec = .octal then ['0'] else []

lemma convertUnsigned_eq (hb : fs.convSpec ≠ .binary) (v : Nat) : convertUnsigned fs v = {
    prec := if (v = 0 ∧ fs.precOpt = .literal ∧ fs.prec = 0) ∧ fs.convSpec = .octal ∧ fs.altForm
      then 1 else fs.prec
    cbuf := unsignedBuf fs v
    cbufLen := (unsignedBuf fs v).length
    need0x := if v ≠ 0 ∧ fs.altForm ∧ fs.convSpec = .hexInt
      then some (Char.ofNat ('X'.toNat + fs.caseAdjust)) else none
    zero := decide (v = 0) } := by
  unfold convertUnsigned unsignedBuf
  by_cases h0 : v = 0 ∧ fs.precOpt = .literal ∧ fs.prec = 0
  · by_cases ho : fs.convSpec = .octal ∧ fs.altForm = true
    · simp [h0, ho]
    · simp [h0, ho]
  · simp only [if_neg h0, if_neg hb, if_neg fun h : (_ ∧ _ ∧ _) ∧ _ ∧ _ => h0 h.1]
    by_cases hv : v ≠ 0 ∧ fs.altForm = true
    · by_cases ho : fs.convSpec = .octal
      · simp [hv, ho]
      · by_cases hx : fs.convSpec = .hexInt <;> simp [hv, ho, hx]
    · have hv' (p : Prop) : ¬(v ≠ 0 ∧ fs.altForm = true ∧ p) := fun h => hv ⟨h.1, h.2.1⟩
      simp only [if_neg hv, if_neg (hv' _), List.append_nil]

lemma length_unsignedBuf {v : Nat} (hv : v < 2 ^ 64) : (unsignedBuf fs v).length ≤ 64 := by
  have hlen : (utoaRev (base fs.convSpec) fs.caseAdjust v).length =
      (digits (base fs.convSpec) v).length := by rw [utoaRev_eq, List.length_map]
  have h64 := length_digits_le_64 (base fs.convSpec).2 hv
  rw [unsignedBuf, List.length_append]
  by_cases ho : fs.convSpec = .octal
  · have h22 : (digits (base fs.convSpec) v).length ≤ 22 := by
      rw [ho]
      exact length_digits_le (by decide) (by decide) (hv.trans (by decide))
    split_ifs <;> simp only [List.length_nil, List.length_singleton] <;> omega
  · rw [if_neg (fun h : _ ∧ _ ∧ _ => ho h.2.2), List.length_nil, Nat.add_zero]
    split_ifs
    · exact Nat.zero_le _
    · omega

lemma unsigned_digits (hs : IntSpec fs) (v : Nat) :
    List.replicate ((if (v = 0 ∧ fs.precOpt = .literal ∧ fs.prec = 0) ∧ fs.convSpec = .octal ∧
      fs.altForm = true then 1 else fs.prec) - ((unsignedBuf fs v).length : Int)).toNat '0' ++
      (unsignedBuf fs v).reverse = numeral fs (v : Int).natAbs := by
  have hu := utoaRev_eq (base fs.convSpec) fs.caseAdjust v
  rw [numeral, Int.natAbs_natCast]
  by_cases h0 : v = 0 ∧ fs.precOpt = .literal ∧ fs.prec = 0
  · have hbuf : unsignedBuf fs v = [] := by simp [unsignedBuf, h0]
    rw [hbuf, if_pos h0]
    by_cases ho : fs.convSpec = .octal ∧ fs.altForm = true
    · simp [h0, ho]
    · simp [h0, ho]
  · rw [if_neg h0, if_neg fun h : (_ ∧ _ ∧ _) ∧ _ ∧ _ => h0 h.1]
    set ds := (digits (base fs.convSpec) v).reverse.map (digitChar (letter fs)) with hds
    have hrev : (utoaRev (base fs.convSpec) fs.caseAdjust v).reverse = ds := by
      rw [hu, hds, List.map_reverse]
      rfl
    by_cases ho : v ≠ 0 ∧ fs.altForm = true ∧ fs.convSpec = .octal
    · have hbuf : (unsignedBuf fs v).reverse = '0' :: ds := by
        rw [unsignedBuf, if_neg h0, if_pos ho, List.reverse_append, hrev]
        rfl
      have hlen : (unsignedBuf fs v).length = ds.length + 1 := by
        rw [← List.length_reverse, hbuf, List.length_cons]
      have hne : ds.head? ≠ some '0' := head_digits hs (base fs.convSpec).2 (base_le hs.conv) ho.1
      rw [hbuf, hlen, zeros_eq, octal_zeros _ hne]
      simp [ho.2.1, ho.2.2]
    · have hbuf : (unsignedBuf fs v).reverse = ds := by
        rw [unsignedBuf, if_neg h0, if_neg ho, List.append_nil, hrev]
      have hlen : (unsignedBuf fs v).length = ds.length := by rw [← List.length_reverse, hbuf]
      rw [hbuf, hlen, zeros_eq, if_neg]
      rintro ⟨h1, h2, h3⟩
      have hv : v = 0 := not_not.mp fun h => ho ⟨h, h2, h1⟩
      refine h3 ?_
      have h0' : ds = ['0'] := by
        rw [hds, hv]
        rfl
      rw [h0']
      cases fs.prec.toNat - ['0'].length <;> simp [List.replicate_succ]

lemma holds_unsigned {v : Nat} (hs : IntSpec fs) (hp : Printable fs) (hc : fs.convSpec ≠ .signedInt)
    (hv : v < 2 ^ 64) : Holds fs (convertUnsigned fs v) v := by
  have hkind : ∀ k ∈ ints, k ≠ .binary := by decide
  have hb := (base fs.convSpec).2
  have h16 := base_le hs.conv
  have hu := utoaRev_eq (base fs.convSpec) fs.caseAdjust v
  have hpre : (if v ≠ 0 ∧ fs.altForm = true ∧ fs.convSpec = .hexInt
      then some (Char.ofNat ('X'.toNat + fs.caseAdjust)) else none).elim [] (['0', ·]) =
      intPrefix fs v := by
    rw [intPrefix, if_neg hc]
    by_cases hx : fs.convSpec = .hexInt ∧ fs.altForm = true ∧ (v : Int) ≠ 0
    · rw [if_pos hx, if_pos ⟨by simpa using hx.2.2, hx.2.1, hx.1⟩]
      rfl
    · rw [if_neg hx, if_neg fun h => hx ⟨h.2.2, h.2.1, by simpa using h.1⟩]
      rfl
  rw [convertUnsigned_eq (hkind _ hs.conv)]
  refine ⟨?_, rfl, rfl, ?_, hpre, .inl rfl, ?_⟩
  · simp only
    split_ifs
    · omega
    · exact hp.prec
  · exact length_unsignedBuf hv
  · exact unsigned_digits hs v

/-! ### The directives -/

/-- The integer a directive prints. -/
def extractInt (fs : FormatSpec) (args : List Arg) : Option (Int × List Arg) :=
  if fs.convSpec = .signedInt then extractSigned fs.lengthModifier args
  else (extractUnsigned fs.lengthModifier args).map fun r => ((r.1 : Int), r.2)

lemma natAbs_toInt_lt {w : Nat} (x : BitVec w) (h : w ≤ 64) : x.toInt.natAbs < 2 ^ 64 := by
  have h1 := BitVec.two_mul_toInt_lt (x := x)
  have h2 := BitVec.le_two_mul_toInt (x := x)
  have h3 : (2 : Int) ^ w ≤ 2 ^ 64 := pow_le_pow_right₀ (by decide) h
  omega

lemma extractSigned_lt {m : LengthModifier} {args : List Arg} {r : Int × List Arg}
    (h : extractSigned m args = some r) : r.1.natAbs < 2 ^ 64 := by
  unfold extractSigned at h
  cases m <;> obtain ⟨x, -, rfl⟩ := Option.map_eq_some_iff.mp h <;> exact natAbs_toInt_lt _ (by decide)

lemma extractUnsigned_lt {m : LengthModifier} {args : List Arg} {r : Nat × List Arg}
    (h : extractUnsigned m args = some r) : r.1 < 2 ^ 64 := by
  have hlt {w : Nat} (x : BitVec w) (hw : w ≤ 64) : x.toNat < 2 ^ 64 :=
    x.isLt.trans_le (Nat.pow_le_pow_right (by decide) hw)
  unfold extractUnsigned at h
  cases m <;> obtain ⟨x, -, rfl⟩ := Option.map_eq_some_iff.mp h <;> exact hlt _ (by decide)

/-- Every integer conversion writes the text of its integer. -/
lemma emit_int (hs : IntSpec fs) (hp : Printable fs) (args : List Arg) :
    emit fs args = (extractInt fs args).map fun r => (filledText (fill fs) fs r.1, r.2) := by
  rw [emit, extractInt]
  by_cases hc : fs.convSpec = .signedInt
  · have hconv : convert fs args = (extractSigned fs.lengthModifier args).map fun r =>
        (convertSigned fs r.1, r.2) := by rw [convert, hc]
    rw [hconv, if_pos hc]
    rcases he : extractSigned fs.lengthModifier args with _ | r
    · rfl
    · rw [Option.map_some, Option.bind_some, emit_holds hs hp (holds_signed hp hc (extractSigned_lt he))]
      rfl
  · have hconv : convert fs args = (extractUnsigned fs.lengthModifier args).map fun r =>
        (convertUnsigned fs r.1, r.2) := by
      have := hs.conv
      simp only [ints, List.mem_cons, List.not_mem_nil, or_false] at this
      rcases this with h | h | h | h <;> first | exact absurd h hc | rw [convert, h]
    rw [hconv, if_neg hc]
    rcases he : extractUnsigned fs.lengthModifier args with _ | r
    · rfl
    · rw [Option.map_some, Option.bind_some, emit_holds hs hp (holds_unsigned hs hp hc (extractUnsigned_lt he))]
      rfl

/-! ### Reading back -/

lemma numeral_digits (fs : FormatSpec) (mag : Nat) : ∃ ds, (∀ d ∈ ds, d < (base fs.convSpec : Nat)) ∧
    Nat.ofDigits (base fs.convSpec : Nat) ds = mag ∧
    numeral fs mag = ds.reverse.map (digitChar (letter fs)) := by
  set b : Nat := (base fs.convSpec).1 with hb
  have hb1 : 1 < b := (base fs.convSpec).2
  have zero (ds : List Nat) (n : Nat) (h : ∀ d ∈ ds, d < b) :
      ∀ d ∈ ds ++ List.replicate n 0, d < b := by
    intro d hd
    rcases List.mem_append.mp hd with hd | hd
    · exact h d hd
    · rw [List.eq_of_mem_replicate hd]
      omega
  have text (ds : List Nat) (n : Nat) : (ds ++ List.replicate n 0).reverse.map (digitChar (letter fs)) =
      List.replicate n '0' ++ ds.reverse.map (digitChar (letter fs)) := by
    rw [List.reverse_append, List.map_append, List.reverse_replicate, List.map_replicate]
    rfl
  obtain ⟨ds, hlt, hval, htext⟩ : ∃ ds, (∀ d ∈ ds, d < b) ∧ Nat.ofDigits b ds = mag ∧
      (if mag = 0 ∧ fs.precOpt = .literal ∧ fs.prec = 0 then []
        else (digits b mag).reverse.map (digitChar (letter fs))) = ds.reverse.map (digitChar (letter fs)) := by
    split_ifs with h
    · exact ⟨[], by simp, by simp [h.1], rfl⟩
    · exact ⟨digits b mag, fun d => lt_of_mem_digits hb1, ofDigits_digits b mag, rfl⟩
  have hval0 (n : Nat) : Nat.ofDigits b (ds ++ List.replicate n 0) = mag := by
    rw [Nat.ofDigits_append_replicate_zero, hval]
  simp only [numeral, ← hb, htext, ← text]
  split_ifs
  · refine ⟨ds ++ List.replicate ((fs.prec.toNat - (ds.reverse.map (digitChar (letter fs))).length) + 1) 0,
      zero ds _ hlt, hval0 _, ?_⟩
    rw [text, text, List.replicate_succ]
    rfl
  · exact ⟨_, zero ds _ hlt, hval0 _, rfl⟩

lemma prefix_shape (hs : IntSpec fs) {val : Int} (hv : fs.convSpec ≠ .signedInt → 0 ≤ val) :
    ∃ k g pre, intPrefix fs val = List.replicate k ' ' ++ (signText g ++ pre) ∧
      (pre = [] ∨ (base fs.convSpec : Nat) = 16 ∧ (pre = ['0', 'x'] ∨ pre = ['0', 'X'])) ∧
      (g = some true ↔ val < 0) := by
  rw [intPrefix]
  by_cases hc : fs.convSpec = .signedInt
  · rw [if_pos hc]
    split_ifs with h
    · exact ⟨0, some true, [], rfl, .inl rfl, by simp [h]⟩
    · have := hs.prepend
      simp only [List.mem_cons, List.not_mem_nil, or_false] at this
      rcases this with hp | hp | hp <;> rw [hp]
      · exact ⟨0, none, [], rfl, .inl rfl, by simp [h]⟩
      · exact ⟨0, some false, [], rfl, .inl rfl, by simp [h]⟩
      · exact ⟨1, none, [], rfl, .inl rfl, by simp [h]⟩
  · have h0 : ¬val < 0 := not_lt.mpr (hv hc)
    rw [if_neg hc]
    split_ifs with h
    · refine ⟨0, none, _, rfl, .inr ⟨by rw [h.1]; rfl, ?_⟩, by simp [h0]⟩
      rcases hs.case with h | h <;> rw [h]
      · exact .inr rfl
      · exact .inl rfl
    · exact ⟨0, none, [], rfl, .inl rfl, by simp [h0]⟩

/-- The zeros that stand behind an integer: a negative `*` width makes it left-justified, and the
flag `0` stays. -/
def behind (fs : FormatSpec) (val : Int) : Nat :=
  if fs.leftJustified ∧ fs.leadingZeroPad then
    (if fs.fieldWidthOpt = .literal then fs.fieldWidth.toNat else 0) -
      (intPrefix fs val ++ numeral fs val.natAbs).length
  else 0

lemma lt_append {b : Nat} {ds : List Nat} (hb : 1 < b) (n : Nat) (h : ∀ d ∈ ds, d < b) :
    (∀ d ∈ ds ++ List.replicate n 0, d < b) ∧ ∀ d ∈ List.replicate n 0 ++ ds, d < b := by
  have h0 : ∀ d ∈ List.replicate n 0, d < b := fun d hd => by
    rw [List.eq_of_mem_replicate hd]
    omega
  exact ⟨fun d hd => (List.mem_append.mp hd).elim (h d) (h0 d),
    fun d hd => (List.mem_append.mp hd).elim (h0 d) (h d)⟩

/-- The text of an integer reads back as the integer, but for the zeros behind it. -/
lemma scan_filledText (hs : IntSpec fs) {val : Int} (hv : fs.convSpec ≠ .signedInt → 0 ≤ val) :
    scan (base fs.convSpec) (filledText (fill fs) fs val) =
      val * (base fs.convSpec : Nat) ^ behind fs val := by
  obtain ⟨ds, hlt, hval, hnum⟩ := numeral_digits fs val.natAbs
  obtain ⟨k, g, pre, hpre, hp, hg⟩ := prefix_shape hs hv
  have hsign : (if g = some true then -1 else 1) * (val.natAbs : Int) = val := by
    split_ifs with h
    · have := hg.mp h
      omega
    · have := mt hg.mpr h
      omega
  have read (k j : Nat) {es : List Nat} (h : ∀ d ∈ es, d < (base fs.convSpec : Nat)) :=
    scan_text (letter_eq hs) (base_le hs.conv) h k j g hp
  have zeros (n : Nat) : List.replicate n '0' = (List.replicate n 0).map (digitChar (letter fs)) := by
    rw [List.map_replicate]
    rfl
  set n := (if fs.fieldWidthOpt = .literal then fs.fieldWidth.toNat else 0) -
    (intPrefix fs val ++ numeral fs val.natAbs).length with hn
  have hlt' := lt_append (base fs.convSpec).2 n hlt
  rw [filledText, padWith, behind, ← hn]
  simp only [hpre, hnum]
  cases hz : fs.leadingZeroPad <;> cases hl : fs.leftJustified
  · have := read (n + k) 0 hlt
    rw [hval, hsign, List.replicate_zero, List.append_nil, ← List.replicate_append_replicate,
      List.append_assoc] at this
    simpa using this
  · have := read k n hlt
    rw [hval, hsign] at this
    simpa [fill, hz, List.append_assoc] using this
  · have := read k 0 hlt'.1
    rw [Nat.ofDigits_append_replicate_zero, hval, hsign] at this
    simpa [zeros, List.append_assoc] using this
  · have := read k 0 hlt'.2
    rw [Nat.ofDigits_append, Nat.ofDigits_replicate_zero, List.length_replicate, Nat.zero_add, hval,
      Nat.cast_mul, ← mul_assoc, mul_right_comm, hsign] at this
    simpa [zeros, fill, hz, List.append_assoc] using this

/-! ### The directives -/

lemma filledText_intText (h : fs.leftJustified = true → fs.leadingZeroPad = false) (v : Int) :
    filledText (fill fs) fs v = intText fs v := by
  rw [intText, filledText, filledText, padWith, padWith]
  cases hl : fs.leftJustified
  · rfl
  · rw [fill, h hl]
    rfl

def intConvs : List Char := ['d', 'i', 'o', 'u', 'x', 'X']

variable {d : Directive} {args rest : List Arg}

lemma intSpec_of_directive (hd : d.conv ∈ intConvs) (h : stars d.meaning args = some (fs, rest)) :
    IntSpec fs := by
  have hs := stars_same h
  have hm : d.meaning.convSpec ∈ ints := by
    simp only [intConvs, List.mem_cons, List.not_mem_nil, or_false] at hd
    rcases hd with hd | hd | hd | hd | hd | hd <;> simp [Directive.meaning, Directive.kind, hd, ints]
  have hflag : d.meaning.leadingZeroPad = true → d.meaning.precOpt = .none := by
    intro hz
    simp only [intConvs, List.mem_cons, List.not_mem_nil, or_false] at hd
    simp only [Directive.meaning, Directive.precOpt, decide_eq_true_eq] at hz ⊢
    have hnot : d.conv ∉ ['%', 'c', 'p'] := by rcases hd with hd | hd | hd | hd | hd | hd <;> simp [hd]
    rw [if_neg hnot]
    by_contra hp
    refine hz.2.2.2 ⟨?_, hp⟩
    rcases hd with hd | hd | hd | hd | hd | hd <;> simp [hd]
  refine ⟨hs.conv ▸ hm, ?_, fun hz => ?_, ?_⟩
  · rw [hs.case]
    simp only [Directive.meaning]
    split_ifs <;> simp
  · have hz' := hflag (hs.zero ▸ hz)
    exact (hs.prec (by simp [hz'])).trans hz'
  · rw [hs.prepend]
    simp only [Directive.meaning]
    split_ifs <;> simp

/-- `%+0*d`. -/
def plusZeroStar : Directive := ⟨[.plus, .zero], .star, .none, .none, 'd', by decide⟩

/-- **What is printed reads back**: the text of an integer conversion, read in its base, is the
integer that was passed. Only a negative `*` width under the flag `0` puts zeros behind it, and each
of them multiplies it by the base. -/
theorem int_reads_back (hd : d.conv ∈ intConvs) (h : stars d.meaning args = some (fs, rest))
    (hp : Printable fs) {out : List Char} {rest' : List Arg}
    (hout : directive d.meaning args = some (out, rest')) :
    ∃ v, extractInt fs rest = some (v, rest') ∧
      scan (base fs.convSpec) out = v * (base fs.convSpec : Nat) ^ behind fs v := by
  have hs := intSpec_of_directive hd h
  rw [directive, h, Option.bind_some] at hout
  simp only at hout
  rw [emit_int hs hp rest] at hout
  obtain ⟨⟨v, r⟩, he, hr⟩ := Option.map_eq_some_iff.mp hout
  obtain ⟨rfl, rfl⟩ := Prod.mk.inj hr
  refine ⟨v, he, scan_filledText hs fun hc => ?_⟩
  rw [extractInt, if_neg hc] at he
  obtain ⟨u, -, hu⟩ := Option.map_eq_some_iff.mp he
  obtain ⟨rfl, -⟩ := Prod.mk.inj hu
  exact Int.natCast_nonneg _

lemma plusZeroStar_out : directive plusZeroStar.meaning [.int (-6), .int 42] =
    some (['+', '4', '2', '0', '0', '0'], []) := by
  have h : stars plusZeroStar.meaning [.int (-6), .int 42] = some (_, [.int 42]) := rfl
  rw [directive, h, Option.bind_some]
  simp only
  rw [emit_int (intSpec_of_directive (by decide) h) ⟨by decide, by decide⟩]
  decide

theorem int_reads_back_scaled : ∃ fs, stars plusZeroStar.meaning [.int (-6), .int 42] =
    some (fs, [.int 42]) ∧ ∃ v, extractInt fs [.int 42] = some (v, []) ∧
      scan (base fs.convSpec) ['+', '4', '2', '0', '0', '0'] =
        v * (base fs.convSpec : Nat) ^ behind fs v := by
  have h : stars plusZeroStar.meaning [.int (-6), .int 42] = some (_, [.int 42]) := rfl
  exact ⟨_, h, int_reads_back (by decide) h ⟨by decide, by decide⟩ plusZeroStar_out⟩

end Silkware.PrintfInt
