import Silkware.PrintfFloat
import Silkware.PrintfInt

/-!
Whole formats.

A format is printed piece by piece, no conversion writes beyond its buffer, and `npf_vsnprintf`
writes no more than it is given room for.
-/

namespace Silkware.PrintfRuns

open Silkware.Directives hiding digits digitChar
open Silkware.Ftoa Silkware.Printf Silkware.PrintfInt

/-! ### Pieces -/

/-- A plain character, or a directive. -/
inductive Piece
  | char (c : { c : Char // c ≠ '%' })
  | directive (d : { d : Directive // d.Fits })

def Piece.text : Piece → List Char
  | char c => [c.1]
  | directive d => d.1.text

def Piece.print : Piece → List Arg → Option (List Char × List Arg)
  | char c, args => some ([c.1], args)
  | directive d, args => Printf.directive d.1.meaning args

/-- The pieces one after the other, each with the arguments the ones before it have left. -/
def print : List Piece → List Arg → Option (List Char × List Arg)
  | [], args => some ([], args)
  | p :: ps, args => (p.print args).bind fun r => (print ps r.2).map fun q => (r.1 ++ q.1, q.2)

variable {args : List Arg} {cur r : List Char}

lemma vpprintf_char {c : Char} (h : c ≠ '%') :
    vpprintf args (c :: cur) = (vpprintf args cur).map (c :: ·) := by
  rw [vpprintf, dif_neg h]

/-- A `%` where no directive stands is printed as it is. -/
lemma vpprintf_stray (h : parseFormatSpec ('%' :: cur) = some none) :
    vpprintf args ('%' :: cur) = (vpprintf args cur).map ('%' :: ·) := by
  rw [vpprintf, dif_pos rfl]
  split
  · simp_all
  · rfl
  · simp_all

lemma vpprintf_directive {d : Directive} (hf : d.Fits) : vpprintf args (d.text ++ r) =
    (Printf.directive d.meaning args).bind fun q => (vpprintf q.2 r).map (q.1 ++ ·) := by
  have hp := d.parse_text r
  rw [if_pos hf] at hp
  obtain ⟨s, hs⟩ : ∃ s, d.text ++ r = '%' :: s := ⟨_, rfl⟩
  rw [hs] at hp ⊢
  rw [vpprintf, dif_pos rfl]
  split
  · simp_all
  · simp_all
  · rename_i fs rest h
    obtain ⟨rfl, rfl⟩ : d.meaning = fs ∧ r = rest := by simpa [hp] using h
    rfl

/-- **A format** of plain characters and directives is printed piece by piece, and the rest of the
format goes on with the arguments that are left. -/
theorem vpprintf_pieces (ps : List Piece) (args : List Arg) (tail : List Char) :
    vpprintf args (ps.flatMap Piece.text ++ tail) =
      (print ps args).bind fun q => (vpprintf q.2 tail).map (q.1 ++ ·) := by
  induction ps generalizing args with
  | nil => simp [print]
  | cons p ps ih =>
    rw [List.flatMap_cons, List.append_assoc, print]
    cases p with
    | char c =>
      rw [Piece.text, List.singleton_append, vpprintf_char c.2, ih, Piece.print, Option.bind_some]
      cases print ps args with
      | none => rfl
      | some q => simp [Function.comp_def]
    | directive d =>
      rw [Piece.text, vpprintf_directive d.2, Piece.print]
      cases Printf.directive d.1.meaning args with
      | none => rfl
      | some x =>
        rw [Option.bind_some, Option.bind_some, ih]
        cases print ps x.2 with
        | none => rfl
        | some q => simp [Function.comp_def]

/-! ### The buffer of a conversion -/

lemma length_utoaRev {b : { b : Nat // 1 < b }} {a v k : Nat} (hk : 0 < k) (h : v < (b : Nat) ^ k) :
    (utoaRev b a v).length ≤ k := by
  rw [utoaRev_eq, List.length_map]
  exact Numerals.length_digits_le b.2 hk h

lemma length_unsigned {fs : FormatSpec} {v : Nat} (hv : v < 2 ^ 64) :
    (utoaRev (base fs.convSpec) fs.caseAdjust v).length ≤ 22 := by
  refine length_utoaRev (by decide) (hv.trans_le ?_)
  have h8 : 8 ≤ (base fs.convSpec : Nat) := by
    unfold base
    split_ifs <;> decide
  calc 2 ^ 64 ≤ 8 ^ 22 := by decide
    _ ≤ (base fs.convSpec : Nat) ^ 22 := Nat.pow_le_pow_left h8 22

lemma length_itoaRev {v : Int} (hv : v.natAbs < 2 ^ 64) : (itoaRev v).length ≤ 20 := by
  rw [itoaRev_eq 65, List.length_map]
  exact Numerals.length_digits_le (by decide) (by decide) (hv.trans (by decide))

lemma length_ftoaRev (f : BitVec 32) (caseAdj : Nat) : (ftoaRev f caseAdj).buf.length ≤ 28 := by
  by_cases hx : f.toNat >>> 23 % 2 ^ 8 = 0xff
  · rw [ftoaRev, if_pos hx]
    split_ifs <;> simp [word]
  · rcases lt_or_ge (exponent f) 41 with he | he
    · exact (ftoaRev_written hx he).short
    · have ho : fsplitAbs f = none := if_pos (by omega)
      rw [ftoaRev, if_neg hx, ho]
      simp [word]

lemma ftoaRev_len (f : BitVec 32) (caseAdj : Nat) :
    (ftoaRev f caseAdj).len = (ftoaRev f caseAdj).buf.length ∨
      (ftoaRev f caseAdj).len = -3 ∧ (ftoaRev f caseAdj).buf.length = 3 := by
  by_cases hx : f.toNat >>> 23 % 2 ^ 8 = 0xff
  · rw [ftoaRev, if_pos hx]
    split_ifs <;> exact .inr ⟨rfl, rfl⟩
  · rcases lt_or_ge (exponent f) 41 with he | he
    · exact .inl (ftoaRev_written hx he).len
    · have ho : fsplitAbs f = none := if_pos (by omega)
      rw [ftoaRev, if_neg hx, ho]
      exact .inr ⟨rfl, rfl⟩

/-- The buffer holds what is written into it, and what is sent from it has been written. -/
structure Holding (fs : FormatSpec) (c : Converted) : Prop where
  fits : fs.convSpec ≠ .string → c.cbuf.length ≤ 32
  written : fs.convSpec ≠ .binary → c.cbufLen ≤ c.cbuf.length
  bits : fs.convSpec = .binary → c.cbufLen ≤ 64

lemma holding_unsigned {fs : FormatSpec} {v : Nat} (hv : v < 2 ^ 64) :
    Holding fs (convertUnsigned fs v) := by
  by_cases hb : fs.convSpec = .binary
  · refine ⟨fun _ => ?_, fun h => absurd hb h, fun _ => ?_⟩
    · have hbuf : (convertUnsigned fs v).cbuf = [] := by
        simp [convertUnsigned, hb, apply_ite Converted.cbuf]
      simp [hbuf]
    · have hlen : (convertUnsigned fs v).cbufLen = 0 ∨ (convertUnsigned fs v).cbufLen = binLen v := by
        by_cases h0 : v = 0 ∧ fs.precOpt = .literal ∧ fs.prec = 0
        · simp [convertUnsigned, hb, h0]
        · simp [convertUnsigned, hb, h0, apply_ite Converted.cbufLen]
      have h64 : binLen v ≤ 64 := by
        unfold binLen
        split_ifs with h
        · decide
        · have := (Nat.log2_lt h).mpr hv
          omega
      omega
  · rw [convertUnsigned_eq hb]
    refine ⟨fun _ => ?_, fun _ => le_rfl, fun h => absurd h hb⟩
    have hu : (utoaRev (base fs.convSpec) fs.caseAdjust v).length ≤ 22 := length_unsigned hv
    simp only [unsignedBuf, List.length_append]
    split_ifs <;> simp <;> omega

lemma eq_of_int {x y : Int} (h : int x = some y) : y = x := by
  unfold int at h
  split_ifs at h
  exact (Option.some.inj h).symm

lemma stringLen_le {fs : FormatSpec} {n k : Int} (s : List Char) (h : stringLen fs n s = some k) :
    k ≤ n + s.length := by
  induction s generalizing n with
  | nil =>
    obtain rfl := Option.some.inj h
    simp
  | cons c s ih =>
    rw [stringLen] at h
    split_ifs at h
    · obtain ⟨m, hm, h'⟩ := Option.bind_eq_some_iff.mp h
      have := eq_of_int hm
      have := ih h'
      simp only [List.length_cons]
      omega
    · obtain rfl := Option.some.inj h
      simp only [List.length_cons]
      omega

lemma holding_float {fs : FormatSpec} {f : BitVec 32} {c : Converted} (hb : fs.convSpec ≠ .binary)
    (h : convertFloat fs f = some c) : Holding fs c := by
  have h28 := length_ftoaRev f fs.caseAdjust
  have hlen := ftoaRev_len f fs.caseAdjust
  simp only [convertFloat] at h
  by_cases hneg : (ftoaRev f fs.caseAdjust).len < 0
  · rw [if_pos hneg] at h
    obtain rfl := Option.some.inj h
    exact ⟨fun _ => by simp only; omega, fun _ => by simp only; omega, fun h => absurd h hb⟩
  · rw [if_neg hneg] at h
    obtain ⟨x, hx, h'⟩ := Option.bind_eq_some_iff.mp h
    obtain ⟨len, hl, rfl⟩ := Option.map_eq_some_iff.mp h'
    have hl' := eq_of_int hl
    refine ⟨fun _ => ?_, fun _ => ?_, fun h => absurd h hb⟩ <;> simp only [List.length_drop] <;> omega

/-- `npf_bufputc_ctx_t`; `dst` gives the characters by their offset in the buffer. -/
structure BufputcCtx where
  dst : Nat → Char
  len : Nat
  cur : Nat

def bufputc (ctx : BufputcCtx) (c : Char) : BufputcCtx :=
  if ctx.cur < ctx.len then { ctx with dst := Function.update ctx.dst ctx.cur c, cur := ctx.cur + 1 }
  else ctx

def nul : Char := Char.ofNat 0

/-- The buffer, none for a null pointer, and the number of characters. -/
def vsnprintf (buffer : Option (Nat → Char)) (bufsz : Nat) (format : List Char) (args : List Arg) :
    Option (Option (Nat → Char) × Int) :=
  (vpprintf args format).bind fun out => (int out.length).map fun n =>
    (buffer.map fun dst => ((out ++ [nul]).foldl bufputc ⟨dst, bufsz, 0⟩).dst, n)

lemma foldl_bufputc (s : List Char) {ctx : BufputcCtx} (h : ctx.cur ≤ ctx.len) (i : Nat) :
    (s.foldl bufputc ctx).dst i =
      if ctx.cur ≤ i ∧ i < ctx.len ∧ i < ctx.cur + s.length then s.getD (i - ctx.cur) nul
      else ctx.dst i := by
  induction s generalizing ctx with
  | nil => rw [if_neg (by simp; omega), List.foldl_nil]
  | cons c s ih =>
    rw [List.foldl_cons, bufputc]
    by_cases hc : ctx.cur < ctx.len
    · rw [if_pos hc, ih (by simpa using hc)]
      simp only [List.length_cons]
      rcases lt_trichotomy i ctx.cur with hi | rfl | hi
      · rw [if_neg (by omega), if_neg (by omega), Function.update_of_ne (by omega)]
      · rw [if_neg (by omega), if_pos (by omega), Function.update_self, Nat.sub_self, List.getD_cons_zero]
      · rw [Function.update_of_ne (by omega), show i - ctx.cur = (i - (ctx.cur + 1)) + 1 by omega,
          List.getD_cons_succ]
        by_cases hl : i < ctx.len ∧ i < ctx.cur + (s.length + 1)
        · rw [if_pos (by omega), if_pos (by omega)]
        · rw [if_neg (by omega), if_neg (by omega)]
    · rw [if_neg hc, ih h, if_neg (by omega), if_neg (by omega)]

/-- **A buffer of `bufsz` bytes** gets the beginning of the output with its end mark, as far as it
has room, and nothing beyond it is written; the result counts the whole output. -/
theorem vsnprintf_fits {format out : List Char} {args : List Arg} (dst : Nat → Char) (bufsz : Nat)
    (h : vpprintf args format = some out) (hn : out.length ≤ intMax) :
    ∃ dst' : Nat → Char,
      vsnprintf (some dst) bufsz format args = some (some dst', (out.length : Int)) ∧
      ∀ i, dst' i = if i < bufsz ∧ i ≤ out.length then (out ++ [nul]).getD i nul else dst i := by
  refine ⟨((out ++ [nul]).foldl bufputc ⟨dst, bufsz, 0⟩).dst, ?_, fun i => ?_⟩
  · rw [vsnprintf, h, Option.bind_some, PrintfPad.int_eq (by omega), Option.map_some, Option.map_some]
  · rw [foldl_bufputc _ (Nat.zero_le _)]
    simp only [Nat.zero_le, true_and, Nat.sub_zero, Nat.zero_add, List.length_append,
      List.length_singleton, Nat.lt_succ_iff]

theorem vsnprintf_fits_two : vpprintf [] ['h', 'i'] = some ['h', 'i'] ∧ ∃ dst' : Nat → Char,
    vsnprintf (some fun _ => 'x') 2 ['h', 'i'] [] = some (some dst', 2) ∧
      ∀ i, dst' i = if i < 2 ∧ i ≤ 2 then (['h', 'i'] ++ [nul]).getD i nul else 'x' := by
  have h : vpprintf [] ['h', 'i'] = some ['h', 'i'] := by
    rw [vpprintf_char (by decide), vpprintf_char (by decide), vpprintf]
    rfl
  exact ⟨h, vsnprintf_fits (fun _ => 'x') 2 h (by decide)⟩

end Silkware.PrintfRuns
