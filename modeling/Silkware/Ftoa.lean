import Mathlib.Tactic.Ring
import Silkware.Bits
import Silkware.Numerals

/-!
The text of a single-precision number.

The number is a mantissa times a power of two. Its integer part is shifted out; its fraction is a
multiple of `2 ^ -60`, and its decimal digits come one by one as that multiple is multiplied by ten
and the part above `2 ^ 60` is taken off. Zeros behind the point are counted and eight digits are
written after them. The text is built from its last character to its first.
-/

namespace Silkware.Ftoa

open Silkware.Bits
open Silkware.Numerals (digits)

/-! ### Digits -/

def digit (d : Nat) : Char := Char.ofNat ('0'.toNat + d)

/-- `do { .. } while (i)` over the decimal digits. -/
def doDigits (i : Nat) : List Char :=
  digit (i % 10) :: if i / 10 = 0 then [] else doDigits (i / 10)
termination_by i

/-- `while (i) { .. }` over the decimal digits. -/
def whileDigits (i : Nat) : List Char :=
  if i = 0 then [] else digit (i % 10) :: whileDigits (i / 10)
termination_by i

lemma whileDigits_eq (i : Nat) : whileDigits i = (Nat.digits 10 i).map digit := by
  induction i using Nat.strong_induction_on with
  | _ i ih =>
    rw [whileDigits]
    split_ifs with h
    · simp [h]
    · rw [Nat.digits_of_two_le_of_pos (by omega) (by omega), List.map_cons, ih (i / 10) (by omega)]

lemma doDigits_eq (i : Nat) : doDigits i = (digits 10 i).map digit := by
  induction i using Nat.strong_induction_on with
  | _ i ih =>
    rw [doDigits, Numerals.digits_eq_cons (by norm_num), List.map_cons]
    split_ifs with h
    · rfl
    · rw [ih (i / 10) (by omega)]

/-! ### Splitting a number -/

def exponent (f : BitVec 32) : Int := (f.toNat >>> 23 % 2 ^ 8 : Nat) - 127 - 23

/-- The mantissa with its implicit bit, which numbers near zero do not have. -/
def mantissaNorm (f : BitVec 32) : Nat := 2 ^ 23 ||| f.toNat % 2 ^ 23

def intPart (f : BitVec 32) : Nat :=
  if 0 < exponent f then mantissaNorm f <<< (exponent f).toNat
  else if exponent f < 0 then
    if 23 < -exponent f then 0 else mantissaNorm f >>> (-exponent f).toNat
  else mantissaNorm f

/-- The fraction as a multiple of `2 ^ -60`. The shift drops what does not fit into 64 bits. -/
def frac (f : BitVec 32) : Nat :=
  let shift := 64 + exponent f - 4
  (if 64 - 4 ≤ shift ∨ shift < 0 then 0 else mantissaNorm f <<< shift.toNat % 2 ^ 64) % 2 ^ 60

/-- Count the zeros at the beginning of the fraction: how many, and what is left. -/
def zeros (frac : Nat) : Nat × Nat :=
  if frac ≠ 0 ∧ frac >>> 60 = 0 then
    let r := zeros (frac % 2 ^ 60 * 10)
    (r.1 + 1, r.2)
  else (0, frac)
termination_by 2 ^ 60 - frac
decreasing_by
  have : frac < 2 ^ 60 := by simp_all [Nat.shiftRight_eq_div_pow]
  omega

/-- The loop over the digits of the fraction, `i` to go. -/
def fracDigits : (i frac fracPart : Nat) → Nat
  | 0, _, fracPart => fracPart
  | i + 1, frac, fracPart =>
    if frac = 0 then fracPart else fracDigits i (frac % 2 ^ 60 * 10) (fracPart * 10 + frac >>> 60)

/-- `npf_fsplit_abs`: the integer part, the digits of the fraction and the zeros before them; none
for a number from `2 ^ 64` on. -/
def fsplitAbs (f : BitVec 32) : Option (Nat × Nat × Nat) :=
  if 64 - 23 ≤ exponent f then none
  else
    let (n, rest) := zeros (frac f * 10)
    some (intPart f, fracDigits 8 rest 0, n)

/-- What `npf_ftoa_rev` leaves: the characters, its result, and `out_frac_chars`. -/
structure Text where
  buf : List Char
  len : Int
  fracChars : Nat

def word (s : List Char) (caseAdj : Nat) : Text where
  buf := s.map fun c => Char.ofNat (c.toNat + caseAdj)
  len := -3
  fracChars := 0

def ftoaRev (f : BitVec 32) (caseAdj : Nat) : Text :=
  if f.toNat >>> 23 % 2 ^ 8 = 0xff then
    if f.toNat % 2 ^ 23 ≠ 0 then word ['N', 'A', 'N'] caseAdj else word ['F', 'N', 'I'] caseAdj
  else
    match fsplitAbs f with
    | none => word ['R', 'O', 'O'] caseAdj
    | some (intPart, fracPart, zeros) =>
      let frac := whileDigits fracPart ++ List.replicate zeros '0'
      let buf := frac ++ '.' :: doDigits intPart
      ⟨buf, buf.length, frac.length⟩

/-! ### What the parts are -/

variable {f : BitVec 32}

/-- The number is `num f / den f`. -/
def num (f : BitVec 32) : Nat :=
  if 0 ≤ exponent f then mantissaNorm f * 2 ^ (exponent f).toNat else mantissaNorm f

def den (f : BitVec 32) : Nat := if 0 ≤ exponent f then 1 else 2 ^ (-exponent f).toNat

lemma mantissaNorm_lt (f : BitVec 32) : mantissaNorm f < 2 ^ 24 := by
  have h : f.toNat % 2 ^ 23 < 2 ^ 23 := Nat.mod_lt _ (by norm_num)
  rw [mantissaNorm, or_eq_add 23 (Nat.mod_self _) h]
  omega

lemma den_pos (f : BitVec 32) : 0 < den f := by
  unfold den
  split_ifs <;> positivity

lemma intPart_eq (f : BitVec 32) : intPart f = num f / den f := by
  unfold intPart num den
  rcases lt_trichotomy (exponent f) 0 with h | h | h
  · simp only [if_neg (not_lt.mpr h.le), if_pos h, if_neg (not_le.mpr h)]
    by_cases h2 : 23 < -exponent f
    · rw [if_pos h2]
      refine (Nat.div_eq_of_lt ((mantissaNorm_lt f).trans_le ?_)).symm
      exact Nat.pow_le_pow_right (by norm_num) (by omega)
    · rw [if_neg h2, Nat.shiftRight_eq_div_pow]
  · simp [h]
  · rw [if_pos h, if_pos h.le, if_pos h.le, Nat.shiftLeft_eq, Nat.div_one]

lemma frac_lt (f : BitVec 32) : frac f < 2 ^ 60 := Nat.mod_lt _ (by norm_num)

/-- The fraction is exact unless the number is below `2 ^ -36`. -/
lemma frac_eq (h : -60 ≤ exponent f) : frac f * den f = num f % den f * 2 ^ 60 := by
  unfold frac num den
  by_cases h0 : 0 ≤ exponent f
  · simp only [if_pos h0, if_pos (show 64 - 4 ≤ 64 + exponent f - 4 ∨ _ from .inl (by omega))]
    simp [Nat.mod_one]
  · obtain ⟨a, ha⟩ : ∃ a : Nat, exponent f = -a := ⟨(-exponent f).toNat, by omega⟩
    obtain ⟨b, hb⟩ : ∃ b, a + b = 60 := ⟨60 - a, by omega⟩
    have hs : (64 + exponent f - 4).toNat = b := by omega
    simp only [if_neg h0, hs, if_neg (show ¬(64 - 4 ≤ 64 + exponent f - 4 ∨ 64 + exponent f - 4 < 0) by omega)]
    rw [Nat.mod_mod_of_dvd _ (by norm_num), Nat.shiftLeft_eq, show (-exponent f).toNat = a by omega, ← hb,
      pow_add, Nat.mul_mod_mul_right]
    ring

lemma frac_small (h : exponent f < -60) : frac f = 0 := by
  unfold frac
  simp only [if_pos (show 64 - 4 ≤ 64 + exponent f - 4 ∨ 64 + exponent f - 4 < 0 from .inr (by omega))]
  rfl

/-! ### The digits of the fraction -/

lemma zeros_spec (g : Nat) : ∃ n, zeros g = (n, g * 10 ^ n) ∧ (∀ k < n, g * 10 ^ k < 2 ^ 60) ∧
    (g = 0 → n = 0) ∧ (g ≠ 0 → 2 ^ 60 ≤ g * 10 ^ n) := by
  induction g using zeros.induct with
  | case1 g h ih =>
    have hlt : g < 2 ^ 60 := by
      obtain ⟨-, h⟩ := h
      rw [Nat.shiftRight_eq_div_pow] at h
      omega
    rw [Nat.mod_eq_of_lt hlt] at ih
    obtain ⟨n, hz, hbefore, -, hafter⟩ := ih
    refine ⟨n + 1, ?_, fun k hk => ?_, fun hg => absurd hg h.1, fun hg => ?_⟩
    · rw [zeros, if_pos h, Nat.mod_eq_of_lt hlt, hz, pow_succ' 10 n, Nat.mul_assoc]
    · cases k with
      | zero => simpa using hlt
      | succ k =>
        rw [pow_succ' 10 k, ← Nat.mul_assoc]
        exact hbefore k (by omega)
    · rw [pow_succ' 10 n, ← Nat.mul_assoc]
      exact hafter (by omega)
  | case2 g h =>
    refine ⟨0, by rw [zeros, if_neg h, pow_zero, Nat.mul_one], by omega, fun _ => rfl, fun hg => ?_⟩
    rw [Nat.shiftRight_eq_div_pow] at h
    omega

/-- Long division: the digits so far are the quotient, what is left is the remainder. -/
lemma fracDigits_spec (i x : Nat) : ∃ k ≤ i, fracDigits i (x % 2 ^ 60 * 10) (x / 2 ^ 60) =
    x * 10 ^ k / 2 ^ 60 ∧ (k = i ∨ x * 10 ^ k % 2 ^ 60 = 0) := by
  induction i generalizing x with
  | zero => exact ⟨0, le_rfl, by simp [fracDigits], .inl rfl⟩
  | succ i ih =>
    rw [fracDigits]
    split_ifs with h
    · exact ⟨0, by omega, by simp, .inr (by simpa using h)⟩
    · have hq : x / 2 ^ 60 * 10 + (x % 2 ^ 60 * 10) >>> 60 = x * 10 / 2 ^ 60 := by
        rw [Nat.shiftRight_eq_div_pow]
        omega
      have hr : x % 2 ^ 60 * 10 % 2 ^ 60 = x * 10 % 2 ^ 60 := by omega
      obtain ⟨k, hk, he, hd⟩ := ih (x * 10)
      rw [hq, hr]
      refine ⟨k + 1, by omega, ?_, ?_⟩
      · rw [he, pow_succ' 10 k, ← Nat.mul_assoc]
      · rw [pow_succ' 10 k, ← Nat.mul_assoc]
        exact hd.imp (fun h => by omega) id

/-- Of a fraction `x / u` whose first digit is not zero, `k` digits are `k` digits. -/
lemma length_digits {u x : Nat} (k : Nat) (h : x < u) (h2 : u ≤ x * 10) :
    (Nat.digits 10 (x * 10 ^ k / u)).length = k := by
  have hu : 0 < u := by omega
  cases k with
  | zero => simp [Nat.div_eq_of_lt h]
  | succ k =>
    refine le_antisymm ((Nat.digits_length_le_iff (by norm_num) _).mpr ?_)
      ((Nat.lt_digits_length_iff (by norm_num) _).mpr ?_)
    · rw [Nat.div_lt_iff_lt_mul hu, Nat.mul_comm]
      exact (Nat.mul_lt_mul_left (by positivity)).mpr h
    · rw [Nat.le_div_iff_mul_le hu, pow_succ' 10 k, ← Nat.mul_assoc, Nat.mul_comm]
      exact Nat.mul_le_mul_right _ h2

/-- The split: the fraction cut after `z + k` digits, of which `z` are zeros in front. -/
lemma fsplitAbs_spec {i p z : Nat} (h : fsplitAbs f = some (i, p, z)) :
    i = num f / den f ∧ ∃ k ≤ 8, p = frac f * 10 ^ (z + k) / 2 ^ 60 ∧ (Nat.digits 10 p).length = k ∧
      frac f * 10 ^ z < 2 ^ 60 ∧ (frac f = 0 → z = 0) ∧ (k = 8 ∨ frac f * 10 ^ (z + k) % 2 ^ 60 = 0) := by
  unfold fsplitAbs at h
  split_ifs at h
  obtain ⟨n, hz, hbefore, hzero, hafter⟩ := zeros_spec (frac f * 10)
  simp only [hz, Option.some.injEq, Prod.mk.injEq] at h
  obtain ⟨rfl, rfl, rfl⟩ := h
  refine ⟨intPart_eq f, ?_⟩
  have hlt : frac f * 10 ^ n < 2 ^ 60 := by
    cases n with
    | zero => simpa using frac_lt f
    | succ n =>
      rw [pow_succ' 10 n, ← Nat.mul_assoc]
      exact hbefore n (by omega)
  by_cases h0 : frac f = 0
  · exact ⟨0, by omega, by simp [h0, fracDigits], by simp [h0, fracDigits], hlt,
      fun _ => hzero (by simp [h0]), .inr (by simp [h0])⟩
  · obtain ⟨k, hk, he, hd⟩ := fracDigits_spec 8 (frac f * 10 ^ n)
    have hr : frac f * 10 * 10 ^ n = frac f * 10 ^ n * 10 := by ring
    have hge := hafter (by omega)
    rw [hr] at hge
    rw [Nat.mod_eq_of_lt hlt, Nat.div_eq_of_lt hlt, ← hr] at he
    refine ⟨k, hk, ?_, ?_, hlt, fun h => absurd h h0, ?_⟩
    · rw [he, pow_add, Nat.mul_assoc]
    · rw [he]
      exact length_digits k hlt hge
    · rw [pow_add, ← Nat.mul_assoc]
      exact hd

/-! ### The text -/

def digitVal (c : Char) : Nat := c.toNat - '0'.toNat

lemma digitVal_digit {d : Nat} (h : d < 10) : digitVal (digit d) = d := by
  interval_cases d <;> rfl

lemma isDigit_digit {d : Nat} (h : d < 10) : (digit d).isDigit = true := by
  interval_cases d <;> rfl

lemma map_digitVal {ds : List Nat} (h : ∀ d ∈ ds, d < 10) : (ds.map digit).map digitVal = ds := by
  induction ds with
  | nil => rfl
  | cons d ds ih =>
    rw [List.map_cons, List.map_cons, digitVal_digit (h d (by simp)), ih fun e he => h e (by simp [he])]

lemma length_doDigits {n k : Nat} (hk : 0 < k) (h : n < 10 ^ k) : (doDigits n).length ≤ k := by
  rw [doDigits_eq, List.length_map]
  exact Numerals.length_digits_le (by norm_num) hk h

/-- A number written out: the integer part, and a fraction that is cut and not rounded. It can be
cut shorter, and it is exact or has eight digits. The text fits into 28 characters. -/
structure Written (f : BitVec 32) (t : Text) : Prop where
  buf : ∃ frac : List Char, t.buf = frac ++ '.' :: doDigits (num f / den f) ∧
    frac.length = t.fracChars ∧ (∀ c ∈ frac, c.isDigit = true) ∧ ∀ q ≤ t.fracChars,
      Nat.ofDigits 10 ((frac.drop (t.fracChars - q)).map digitVal) = Ftoa.frac f * 10 ^ q / 2 ^ 60
  len : t.len = t.buf.length
  cut : 8 ≤ t.fracChars ∨ Ftoa.frac f * 10 ^ t.fracChars % 2 ^ 60 = 0
  short : t.buf.length ≤ 28

/-- A fraction that is not zero has a first digit soon. -/
lemma pow_zeros_lt {z : Nat} (he : exponent f < 0) (h0 : frac f ≠ 0) (hp : frac f * 10 ^ z < 2 ^ 60) :
    -60 ≤ exponent f ∧ 10 ^ z < 2 ^ (-exponent f).toNat := by
  have h60 : -60 ≤ exponent f := not_lt.mp fun h => h0 (frac_small h)
  have hf := frac_eq h60
  have hd := den_pos f
  rw [show 2 ^ (-exponent f).toNat = den f by rw [den, if_neg (not_le.mpr he)]]
  refine ⟨h60, ?_⟩
  generalize 2 ^ 60 = u at hf hp
  have hu : u ≤ frac f * den f := by
    have hpos : 0 < frac f * den f := Nat.mul_pos (Nat.pos_of_ne_zero h0) hd
    rw [hf] at hpos ⊢
    exact Nat.le_mul_of_pos_left u (Nat.pos_of_mul_pos_right hpos)
  refine Nat.lt_of_mul_lt_mul_left (a := u) ?_
  calc u * 10 ^ z ≤ frac f * den f * 10 ^ z := Nat.mul_le_mul_right _ hu
    _ = frac f * 10 ^ z * den f := Nat.mul_right_comm ..
    _ < u * den f := (Nat.mul_lt_mul_right hd).mpr hp

lemma fracChars_le {z k : Nat} (he : exponent f < 41) (hk : k ≤ 8) (hp : frac f * 10 ^ z < 2 ^ 60)
    (h0 : frac f = 0 → z = 0 ∧ k = 0) : z + k + (doDigits (num f / den f)).length ≤ 27 := by
  have hm := mantissaNorm_lt f
  rcases lt_or_ge (exponent f) 0 with h | h
  · have hi : num f / den f ≤ mantissaNorm f := by
      rw [num, if_neg (not_le.mpr h)]
      exact Nat.div_le_self _ _
    have h8 : (doDigits (num f / den f)).length ≤ 8 := length_doDigits (by norm_num) (by omega)
    by_cases hf : frac f = 0
    · obtain ⟨rfl, rfl⟩ := h0 hf
      omega
    · obtain ⟨h60, hz⟩ := pow_zeros_lt h hf hp
      rcases lt_or_ge (-exponent f) 24 with ha | ha
      · have h7 : 10 ^ z < 10 ^ 7 :=
          calc 10 ^ z < 2 ^ (-exponent f).toNat := hz
            _ ≤ 2 ^ 23 := Nat.pow_le_pow_right (by norm_num) (by omega)
            _ ≤ 10 ^ 7 := by norm_num
        have := (Nat.pow_lt_pow_iff_right (by norm_num)).mp h7
        omega
      · have h19 : 10 ^ z < 10 ^ 19 :=
          calc 10 ^ z < 2 ^ (-exponent f).toNat := hz
            _ ≤ 2 ^ 60 := Nat.pow_le_pow_right (by norm_num) (by omega)
            _ ≤ 10 ^ 19 := by norm_num
        have := (Nat.pow_lt_pow_iff_right (by norm_num)).mp h19
        have hn : num f / den f = 0 := by
          rw [num, den, if_neg (not_le.mpr h), if_neg (not_le.mpr h)]
          exact Nat.div_eq_of_lt (hm.trans_le (Nat.pow_le_pow_right (by norm_num) (by omega)))
        have : (doDigits (num f / den f)).length = 1 := by
          rw [hn, doDigits_eq]
          rfl
        omega
  · have hf : frac f = 0 := by
      have := frac_eq (f := f) (by omega)
      simpa [den, h, Nat.mod_one] using this
    obtain ⟨rfl, rfl⟩ := h0 hf
    have hn : num f / den f < 10 ^ 20 := by
      have h40 : 2 ^ (exponent f).toNat ≤ 2 ^ 40 := Nat.pow_le_pow_right (by norm_num) (by omega)
      rw [num, den, if_pos h, if_pos h, Nat.div_one]
      calc mantissaNorm f * 2 ^ (exponent f).toNat ≤ 2 ^ 24 * 2 ^ 40 := Nat.mul_le_mul hm.le h40
        _ < 10 ^ 20 := by norm_num
    have := length_doDigits (by norm_num) hn
    omega

/-- **A finite number below `2 ^ 64`** is written out, in at most 28 characters. -/
lemma ftoaRev_written {caseAdj : Nat} (hfin : f.toNat >>> 23 % 2 ^ 8 ≠ 0xff) (he : exponent f < 41) :
    Written f (ftoaRev f caseAdj) := by
  obtain ⟨⟨i, p, z⟩, hs⟩ : ∃ r, fsplitAbs f = some r := by
    unfold fsplitAbs
    rw [if_neg (by omega)]
    exact ⟨_, rfl⟩
  obtain ⟨rfl, k, hk, hp, hlen, hlt, hz, hcut⟩ := fsplitAbs_spec hs
  have hchars : (whileDigits p ++ List.replicate z '0').length = z + k := by
    rw [List.length_append, whileDigits_eq, List.length_map, hlen, List.length_replicate, Nat.add_comm]
  have hval : (whileDigits p ++ List.replicate z '0').map digitVal =
      Nat.digits 10 p ++ List.replicate z 0 := by
    rw [List.map_append, whileDigits_eq, map_digitVal fun d hd => Nat.digits_lt_base (by norm_num) hd,
      List.map_replicate]
    rfl
  have hk0 : frac f = 0 → z = 0 ∧ k = 0 := by
    intro h
    refine ⟨hz h, ?_⟩
    rw [← hlen, hp, h]
    simp
  rw [ftoaRev, if_neg hfin, hs]
  refine ⟨⟨_, rfl, rfl, fun c hc => ?_, fun q hq => ?_⟩, rfl, ?_, ?_⟩
  · rcases List.mem_append.mp hc with h | h
    · rw [whileDigits_eq] at h
      obtain ⟨d, hd, rfl⟩ := List.mem_map.mp h
      exact isDigit_digit (Nat.digits_lt_base (by norm_num) hd)
    · rw [List.eq_of_mem_replicate h]
      rfl
  · simp only at hq ⊢
    rw [hchars] at hq ⊢
    rw [List.map_drop, hval, ← Nat.ofDigits_div_pow_eq_ofDigits_drop _ (by norm_num) _ ?_,
      Nat.ofDigits_append_replicate_zero, Nat.ofDigits_digits, hp,
      Nat.div_div_eq_div_mul, show z + k = q + (z + k - q) by omega, pow_add, ← Nat.mul_assoc,
      Nat.add_sub_cancel_left]
    · exact Nat.mul_div_mul_right _ _ (by positivity)
    · intro l hl
      rcases List.mem_append.mp hl with h | h
      · exact Nat.digits_lt_base (by norm_num) h
      · obtain rfl := List.eq_of_mem_replicate h
        norm_num
  · simp only [hchars]
    exact hcut.imp (fun h => by omega) id
  · have := fracChars_le he hk hlt hk0
    simp only [List.length_append, List.length_cons] at hchars ⊢
    omega

end Silkware.Ftoa
