import Mathlib.Data.Finset.Card
import Mathlib.Data.Nat.Bitwise
import Mathlib.Data.Nat.Log
import Mathlib.Tactic.Common
import Mathlib.Tactic.Ring

/-!
Bit tricks on natural numbers: spreading the top bit of a 64-bit word downwards, flipping one bit of a
multiple of a power of two, taking the top bit away, and putting a word together from fields.
-/

namespace Silkware.Bits

/-- Or a number with itself shifted right by each of the distances in turn. -/
def spread (x : ℕ) (l : List ℕ) : ℕ := l.foldl (fun y s => y ||| y >>> s) x

lemma spread_testBit (x : ℕ) (k i : ℕ) :
    (spread x ((List.range k).map (2 ^ ·))).testBit i = true ↔
      ∃ d < 2 ^ k, x.testBit (i + d) = true := by
  induction k generalizing i with
  | zero => simp [spread]
  | succ k ih =>
    have hs : spread x ((List.range (k + 1)).map (2 ^ ·)) =
        spread x ((List.range k).map (2 ^ ·)) |||
          spread x ((List.range k).map (2 ^ ·)) >>> 2 ^ k := by
      simp [spread, List.range_succ]
    rw [hs, Nat.testBit_or, Nat.testBit_shiftRight, Bool.or_eq_true, ih, ih]
    have hp : 2 ^ (k + 1) = 2 ^ k + 2 ^ k := by ring
    constructor
    · rintro (⟨d, hd, h⟩ | ⟨d, hd, h⟩)
      · exact ⟨d, by omega, h⟩
      · exact ⟨2 ^ k + d, by omega, by rw [← h]; congr 1; omega⟩
    · rintro ⟨d, hd, h⟩
      rcases Nat.lt_or_ge d (2 ^ k) with h1 | h1
      · exact Or.inl ⟨d, h1, h⟩
      · exact Or.inr ⟨d - 2 ^ k, by omega, by rw [← h]; congr 1; omega⟩

/-- On a nonzero 64-bit word, six doublings of the distance fill every bit below the top. -/
lemma spread_eq {x : ℕ} (h0 : x ≠ 0) (h : x < 2 ^ 64) :
    spread x ((List.range 6).map (2 ^ ·)) = 2 ^ (x.log2 + 1) - 1 := by
  have hlog : x.log2 < 64 := (Nat.log2_lt h0).mpr h
  refine Nat.eq_of_testBit_eq fun i => ?_
  rw [Nat.testBit_two_pow_sub_one, Bool.eq_iff_iff, spread_testBit, decide_eq_true_iff]
  constructor
  · rintro ⟨d, -, hd⟩
    by_contra hi
    rw [Nat.testBit_lt_two_pow (lt_of_lt_of_le Nat.lt_log2_self
      (Nat.pow_le_pow_right (by omega) (by omega)))] at hd
    cases hd
  · intro hi
    exact ⟨x.log2 - i, by norm_num; omega, by
      rw [show i + (x.log2 - i) = x.log2 by omega]; exact Nat.testBit_log2 h0⟩

lemma xor_one (q : ℕ) : q ^^^ 1 = if q % 2 = 0 then q + 1 else q - 1 := by
  refine Nat.eq_of_testBit_eq fun i => ?_
  cases i with
  | zero =>
    by_cases h : q % 2 = 0
    · rw [if_pos h]
      simp [Nat.testBit_zero]
    · rw [if_neg h]
      simp [Nat.testBit_zero]
      omega
  | succ i =>
    have h1 : (1 : ℕ).testBit (i + 1) = false := by rw [Nat.testBit_succ]; simp
    rw [Nat.testBit_xor, h1, Bool.xor_false]
    split
    · rw [Nat.testBit_succ, Nat.testBit_succ]; congr 1; omega
    · rw [Nat.testBit_succ, Nat.testBit_succ]; congr 1; omega

/-- Flipping bit `k` of a multiple of `2 ^ k` moves to the other half of the enclosing
multiple of `2 ^ (k + 1)`. -/
lemma xor_two_pow (q k : ℕ) :
    (q * 2 ^ k) ^^^ 2 ^ k = if q % 2 = 0 then (q + 1) * 2 ^ k else (q - 1) * 2 ^ k := by
  have h : (q * 2 ^ k) ^^^ 2 ^ k = (q ^^^ 1) * 2 ^ k := by
    rw [← Nat.shiftLeft_eq, ← Nat.shiftLeft_eq, Nat.shiftLeft_xor_distrib, Nat.shiftLeft_eq 1,
      Nat.one_mul]
  rw [h, xor_one]
  split <;> rfl

/-! ### The top bit taken away -/

/-- The number of bits that are one, among the lowest `w`. -/
def oneBits (w x : ℕ) : ℕ := ((Finset.range w).filter fun i => x.testBit i).card

lemma oneBits_zero (w : ℕ) : oneBits w 0 = 0 := by simp [oneBits]

lemma sub_top_lt (x : ℕ) : x - 2 ^ x.log2 < 2 ^ x.log2 := by
  have h1 : x < 2 ^ (x.log2 + 1) := Nat.lt_log2_self
  have h2 : 2 ^ (x.log2 + 1) = 2 ^ x.log2 + 2 ^ x.log2 := by ring
  have h3 : 1 ≤ 2 ^ x.log2 := Nat.one_le_two_pow
  omega

lemma testBit_sub_top {x : ℕ} (h : x ≠ 0) (i : ℕ) :
    (x - 2 ^ x.log2).testBit i = true ↔ i ≠ x.log2 ∧ x.testBit i = true := by
  obtain ⟨y, hy⟩ : ∃ y, x - 2 ^ x.log2 = y := ⟨_, rfl⟩
  have hlt : y < 2 ^ x.log2 := hy ▸ sub_top_lt x
  have hx : x = 2 ^ x.log2 + y := by
    have := Nat.log2_self_le h
    omega
  rw [hy]
  rcases Nat.lt_trichotomy i x.log2 with hi | hi | hi
  · have hb : x.testBit i = y.testBit i := by
      calc
        x.testBit i = (2 ^ x.log2 + y).testBit i := congrArg (Nat.testBit · i) hx
        _ = y.testBit i := Nat.testBit_two_pow_add_gt hi y
    rw [hb]
    exact ⟨fun h => ⟨hi.ne, h⟩, fun h => h.2⟩
  · rw [Nat.testBit_lt_two_pow (hi ▸ hlt)]
    exact iff_of_false Bool.false_ne_true fun h => h.1 hi
  · have hpow : 2 ^ (x.log2 + 1) ≤ 2 ^ i := Nat.pow_le_pow_right (by omega) hi
    have hxi : x < 2 ^ i := Nat.lt_log2_self.trans_le hpow
    rw [Nat.testBit_lt_two_pow hxi, Nat.testBit_lt_two_pow (by omega)]
    exact iff_of_false Bool.false_ne_true fun h => Bool.false_ne_true h.2

/-- One of the one bits is the top bit. -/
lemma oneBits_sub_top {w x : ℕ} (h0 : x ≠ 0) (h : x < 2 ^ w) :
    oneBits w (x - 2 ^ x.log2) + 1 = oneBits w x := by
  have htop : x.log2 ∈ (Finset.range w).filter fun i => x.testBit i :=
    Finset.mem_filter.mpr ⟨Finset.mem_range.mpr ((Nat.log2_lt h0).mpr h), Nat.testBit_log2 h0⟩
  rw [oneBits, oneBits, ← Finset.card_erase_add_one htop]
  congr 2
  ext i
  rw [Finset.mem_erase, Finset.mem_filter, Finset.mem_filter, testBit_sub_top h0]
  tauto

/-! ### Fields of a word -/

/-- The bits of a word under a mask that ends in `k` zeros. -/
lemma and_mul_two_pow (x c k : ℕ) : x &&& c * 2 ^ k = (x / 2 ^ k &&& c) * 2 ^ k := by
  have hmod : (x &&& c * 2 ^ k) % 2 ^ k = 0 := by
    rw [Nat.and_mod_two_pow, Nat.mul_mod_left, Nat.and_zero]
  have hdiv : (x &&& c * 2 ^ k) / 2 ^ k = x / 2 ^ k &&& c := by
    rw [Nat.and_div_two_pow, Nat.mul_div_cancel _ (Nat.two_pow_pos k)]
  rw [← hdiv, Nat.div_mul_cancel (Nat.dvd_of_mod_eq_zero hmod)]

/-- Fields that do not overlap. -/
lemma or_eq_add {x y : ℕ} (k : ℕ) (hx : x % 2 ^ k = 0) (hy : y < 2 ^ k) : x ||| y = x + y := by
  rw [← Nat.mul_div_cancel' (Nat.dvd_of_mod_eq_zero hx), ← Nat.two_pow_add_eq_or_of_lt hy]
end Silkware.Bits
