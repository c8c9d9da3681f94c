import Silkware.Orbits
import Silkware.PageAllocInv

/-!
`prev_pow2` and `next_pow2` of `page_alloc.c`, on all words for which the power of two is a word.

`page_alloc_init` takes powers of two off the length of a piece of memory; each of them is one of the
bits of the length.
-/

namespace Silkware.PowersOfTwo

open Silkware.Bits Silkware.Kern Silkware.Orbits Silkware.PageAlloc Silkware.PageAllocInv

/-- `p` is the power of two with `p ≤ x < 2 * p`. -/
def IsPrev (x p : ℕ) : Prop := p.isPowerOfTwo ∧ p ≤ x ∧ x < 2 * p

/-- `p` is the power of two with `x ≤ p < 2 * x`. -/
def IsNext (x p : ℕ) : Prop := p.isPowerOfTwo ∧ x ≤ p ∧ p < 2 * x

/-- `len -= prev_pow2(len)` -/
def takeOff (x : ℕ) : ℕ := sub64 x (prevPow2 x)

/-- Two powers of two of which neither is twice the other or more. -/
lemma isPowerOfTwo_eq {p q : ℕ} (hp : p.isPowerOfTwo) (hq : q.isPowerOfTwo) (h1 : p < 2 * q)
    (h2 : q < 2 * p) : p = q := by
  obtain ⟨i, rfl⟩ := hp
  obtain ⟨j, rfl⟩ := hq
  rw [← Nat.pow_succ'] at h1 h2
  have hij : i < j + 1 := (Nat.pow_lt_pow_iff_right (by omega)).mp h1
  have hji : j < i + 1 := (Nat.pow_lt_pow_iff_right (by omega)).mp h2
  rw [show i = j by omega]

lemma isPrev_iff {x p : ℕ} (h0 : x ≠ 0) (h : x < 2 ^ 64) : IsPrev x p ↔ p = prevPow2 x := by
  have hprev : IsPrev x (prevPow2 x) := by
    rw [prevPow2_eq h0 h]
    have hlt : x < 2 ^ (x.log2 + 1) := Nat.lt_log2_self
    rw [Nat.pow_succ'] at hlt
    exact ⟨⟨_, rfl⟩, Nat.log2_self_le h0, hlt⟩
  constructor
  · rintro ⟨hp, h1, h2⟩
    obtain ⟨hq, h3, h4⟩ := hprev
    exact isPowerOfTwo_eq hp hq (by omega) (by omega)
  · rintro rfl
    exact hprev

lemma isNext_iff {x p : ℕ} (h0 : 1 ≤ x) (h : x ≤ 2 ^ 63) : IsNext x p ↔ p = nextPow2 x := by
  have hnext : IsNext x (nextPow2 x) := by
    obtain ⟨k, -, e, hle⟩ := nextPow2_eq h0 h
    exact ⟨⟨k, e⟩, e ▸ hle, nextPow2_lt h0 h⟩
  constructor
  · rintro ⟨hp, h1, h2⟩
    obtain ⟨hq, h3, h4⟩ := hnext
    exact isPowerOfTwo_eq hp hq (by omega) (by omega)
  · rintro rfl
    exact hnext

lemma takeOff_eq {x : ℕ} (h0 : x ≠ 0) (h : x < 2 ^ 64) : takeOff x = x - 2 ^ x.log2 := by
  rw [takeOff, prevPow2_eq h0 h, sub64_eq (Nat.log2_self_le h0) h]

/-- One step takes the top bit away. -/
lemma takeOff_step {x : ℕ} (h : x < 2 ^ 64) (h0 : x ≠ 0) :
    takeOff x < 2 ^ 64 ∧ oneBits 64 (takeOff x) + 1 = oneBits 64 x := by
  rw [takeOff_eq h0 h]
  exact ⟨(Nat.sub_le _ _).trans_lt h, oneBits_sub_top h0 h⟩

lemma takeOff_steps {x : ℕ} (h : x < 2 ^ 64) : IsLeast {n | takeOff^[n] x = 0} (oneBits 64 x) :=
  isLeast_steps (P := (· < 2 ^ 64)) (fun _ hy h0 => takeOff_step hy h0) (oneBits_zero 64) h

/-- **Rounding to powers of two.** `prev_pow2` and `next_pow2` return the power of two below and above
a word, and taking powers of two off it leads to zero in as many steps as it has one bits. -/
theorem pow2_rounding (x : ℕ) (h : x < 2 ^ 64) :
    (x ≠ 0 → ∀ p, IsPrev x p ↔ p = prevPow2 x) ∧
      (1 ≤ x → x ≤ 2 ^ 63 → ∀ p, IsNext x p ↔ p = nextPow2 x) ∧
        IsLeast {n | takeOff^[n] x = 0} (oneBits 64 x) :=
  ⟨fun h0 _ => isPrev_iff h0 h, fun h1 h63 _ => isNext_iff h1 h63, takeOff_steps h⟩

/-- 11 is 8 + 2 + 1. -/
theorem pow2_rounding_eleven : (∀ p, IsPrev 11 p ↔ p = 8) ∧ (∀ p, IsNext 11 p ↔ p = 16) ∧
    IsLeast {n | takeOff^[n] 11 = 0} 3 := by
  obtain ⟨hprev, hnext, hsteps⟩ := pow2_rounding 11 (by decide)
  exact ⟨hprev (by decide), hnext (by decide) (by decide), hsteps⟩

end Silkware.PowersOfTwo
