import Mathlib.Data.Nat.Bitwise
import Mathlib.Data.Nat.ModEq
import Mathlib.Data.Nat.Prime.Basic
import Mathlib.Data.Set.Function
import Mathlib.Tactic.Ring

/-!
The steps of xorshift generators on words of `w` bits: a word is xored with itself shifted right or
left, or multiplied by an odd constant. None of the steps maps two words to one.

Two words with the same image differ by a word that the step sends to zero. A shift to the right makes
it smaller; for a shift to the left it is a multiple of `2 ^ w`.
-/

namespace Silkware.XorShift

variable {w k c x y : ℕ}

/-- `x ^= x >> k` -/
def shiftRightStep (k x : ℕ) : ℕ := x ^^^ x >>> k

/-- `x ^= x << k` -/
def shiftLeftStep (w k x : ℕ) : ℕ := x ^^^ (x <<< k) % 2 ^ w

/-- `x * c` -/
def mulStep (w c x : ℕ) : ℕ := x * c % 2 ^ w

lemma shiftRightStep_xor (k x y : ℕ) :
    shiftRightStep k (x ^^^ y) = shiftRightStep k x ^^^ shiftRightStep k y := by
  unfold shiftRightStep
  rw [Nat.shiftRight_xor_distrib]
  ac_rfl

lemma shiftLeftStep_xor (w k x y : ℕ) :
    shiftLeftStep w k (x ^^^ y) = shiftLeftStep w k x ^^^ shiftLeftStep w k y := by
  unfold shiftLeftStep
  rw [Nat.shiftLeft_xor_distrib, Nat.xor_mod_two_pow]
  ac_rfl

lemma shiftRightStep_eq_zero (hk : 0 < k) (h : shiftRightStep k x = 0) : x = 0 := by
  rw [shiftRightStep, Nat.xor_eq_zero_iff, Nat.shiftRight_eq_div_pow] at h
  by_contra h0
  have hlt : x / 2 ^ k < x :=
    Nat.div_lt_self (Nat.pos_of_ne_zero h0) (Nat.one_lt_two_pow hk.ne')
  omega

lemma shiftLeftStep_eq_zero (hk : 0 < k) (hx : x < 2 ^ w) (h : shiftLeftStep w k x = 0) :
    x = 0 := by
  rw [shiftLeftStep, Nat.xor_eq_zero_iff, Nat.shiftLeft_eq] at h
  -- `x` and `x * 2 ^ k` are the same word, so `2 ^ w` divides `x * (2 ^ k - 1)`
  have hmod : x ≡ x * 2 ^ k [MOD 2 ^ w] := by
    rw [Nat.ModEq, Nat.mod_eq_of_lt hx]
    exact h
  have hpow : 1 ≤ 2 ^ k := Nat.one_le_two_pow
  have hdvd : 2 ^ w ∣ x * (2 ^ k - 1) := by
    have := (Nat.modEq_iff_dvd' (Nat.le_mul_of_pos_right x hpow)).mp hmod
    rwa [Nat.mul_sub, Nat.mul_one]
  have hodd : Odd (2 ^ k - 1) :=
    Nat.Even.sub_odd hpow ((Nat.even_pow' hk.ne').mpr even_two) odd_one
  have hcop : Nat.Coprime (2 ^ w) (2 ^ k - 1) := (Nat.coprime_two_left.mpr hodd).pow_left w
  exact Nat.eq_zero_of_dvd_of_lt (hcop.dvd_of_dvd_mul_right hdvd) hx

lemma shiftRightStep_inj (hk : 0 < k) (h : shiftRightStep k x = shiftRightStep k y) : x = y := by
  refine Nat.xor_eq_zero_iff.mp (shiftRightStep_eq_zero hk ?_)
  rw [shiftRightStep_xor, h, Nat.xor_self]

lemma shiftLeftStep_inj (hk : 0 < k) (hx : x < 2 ^ w) (hy : y < 2 ^ w)
    (h : shiftLeftStep w k x = shiftLeftStep w k y) : x = y := by
  refine Nat.xor_eq_zero_iff.mp (shiftLeftStep_eq_zero hk (Nat.xor_lt_two_pow hx hy) ?_)
  rw [shiftLeftStep_xor, h, Nat.xor_self]

lemma mulStep_inj (hc : Odd c) (hx : x < 2 ^ w) (hy : y < 2 ^ w)
    (h : mulStep w c x = mulStep w c y) : x = y := by
  have hcop : Nat.Coprime (2 ^ w) c := (Nat.coprime_two_left.mpr hc).pow_left w
  have hmod : x ≡ y [MOD 2 ^ w] := Nat.ModEq.cancel_right_of_coprime hcop h
  exact hmod.eq_of_lt_of_lt hx hy

lemma shiftRightStep_lt (hx : x < 2 ^ w) : shiftRightStep k x < 2 ^ w :=
  Nat.xor_lt_two_pow hx ((Nat.shiftRight_le x k).trans_lt hx)

lemma shiftLeftStep_lt (hx : x < 2 ^ w) : shiftLeftStep w k x < 2 ^ w :=
  Nat.xor_lt_two_pow hx (Nat.mod_lt _ (Nat.two_pow_pos w))

/-- An xorshift generator of three shifts and a multiplication. -/
def xorShiftStar (w a b c mult x : ℕ) : ℕ :=
  mulStep w mult (shiftRightStep c (shiftLeftStep w b (shiftRightStep a x)))

/-- **Different words have different images**, for any shifts and any odd multiplier. -/
theorem xorShiftStar_injOn {a b c mult : ℕ} (ha : 0 < a) (hb : 0 < b) (hc : 0 < c)
    (hm : Odd mult) : Set.InjOn (xorShiftStar w a b c mult) (Set.Iio (2 ^ w)) := by
  intro x hx y hy h
  have hx1 : shiftRightStep a x < 2 ^ w := shiftRightStep_lt hx
  have hy1 : shiftRightStep a y < 2 ^ w := shiftRightStep_lt hy
  have hx2 : shiftLeftStep w b (shiftRightStep a x) < 2 ^ w := shiftLeftStep_lt hx1
  have hy2 : shiftLeftStep w b (shiftRightStep a y) < 2 ^ w := shiftLeftStep_lt hy1
  have h3 := mulStep_inj hm (shiftRightStep_lt hx2) (shiftRightStep_lt hy2) h
  have h2 := shiftLeftStep_inj hb hx1 hy1 (shiftRightStep_inj hc h3)
  exact shiftRightStep_inj ha h2

lemma xorShiftStar_zero (w a b c mult : ℕ) : xorShiftStar w a b c mult 0 = 0 := by
  simp [xorShiftStar, mulStep, shiftLeftStep, shiftRightStep]

end Silkware.XorShift
