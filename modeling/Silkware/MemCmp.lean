import Mathlib.Tactic.Common
import Silkware.ByteMem

/-!
`memcmp` of `mem.c`.

The loop runs from the last byte to the first. It finds out whether two strings are equal, but
the sign of its result is that of the last difference, not of the first one.
-/

namespace Silkware.MemCmp

open Silkware.ByteMem

/-- `while (n--) if (s1[n] != s2[n]) return s1[n] < s2[n] ? -1 : 1;` -/
def memcmp (m : Mem) (s1 s2 : ℕ) : ℕ → ℤ
  | 0 => 0
  | n + 1 =>
    if m (s1 + n) ≠ m (s2 + n) then if m (s1 + n) < m (s2 + n) then -1 else 1
    else memcmp m s1 s2 n

/-! ### The first and the last difference of two strings -/

section Differences

variable {α : Type*} {a b : ℕ → α} {n k l : ℕ}

/-- `a` and `b` have the same first `n` entries. -/
def SameBelow (a b : ℕ → α) (n : ℕ) : Prop := ∀ i < n, a i = b i

def FirstDiff (a b : ℕ → α) (n k : ℕ) : Prop := k < n ∧ a k ≠ b k ∧ ∀ i < k, a i = b i

def LastDiff (a b : ℕ → α) (n k : ℕ) : Prop := k < n ∧ a k ≠ b k ∧ ∀ i < n, k < i → a i = b i

lemma exists_lastDiff (h : ¬ SameBelow a b n) : ∃ l, LastDiff a b n l := by
  induction n with
  | zero => exact absurd (fun i hi => absurd hi (by omega)) h
  | succ n ih =>
    by_cases hn : a n = b n
    · have h1 : ¬ SameBelow a b n := by
        intro hs
        refine h fun i hi => ?_
        rcases Nat.lt_succ_iff_lt_or_eq.mp hi with hi | rfl
        · exact hs i hi
        · exact hn
      obtain ⟨l, hl, hne, hup⟩ := ih h1
      refine ⟨l, by omega, hne, fun i hi hli => ?_⟩
      rcases Nat.lt_succ_iff_lt_or_eq.mp hi with hi | rfl
      · exact hup i hi hli
      · exact hn
    · exact ⟨n, by omega, hn, fun i hi hni => absurd hi (by omega)⟩

lemma FirstDiff.not_same (h : FirstDiff a b n k) : ¬ SameBelow a b n := fun hs => h.2.1 (hs k h.1)

end Differences

/-! ### What the loop returns -/

/-- The string of bytes at `p`. -/
def bytesAt (m : Mem) (p : ℕ) : ℕ → UInt8 := fun i => m (p + i)

/-- The same loop on two strings, wherever they are. -/
def memcmpBytes (a b : ℕ → UInt8) : ℕ → ℤ
  | 0 => 0
  | n + 1 => if a n ≠ b n then if a n < b n then -1 else 1 else memcmpBytes a b n

lemma memcmp_eq_bytes (m : Mem) (s1 s2 n : ℕ) :
    memcmp m s1 s2 n = memcmpBytes (bytesAt m s1) (bytesAt m s2) n := by
  induction n with
  | zero => rfl
  | succ n ih =>
    rw [memcmp, memcmpBytes, ih]
    rfl

lemma memcmpBytes_eq_zero_iff {a b : ℕ → UInt8} {n : ℕ} :
    memcmpBytes a b n = 0 ↔ SameBelow a b n := by
  induction n with
  | zero => exact ⟨fun _ i hi => absurd hi (by omega), fun _ => rfl⟩
  | succ n ih =>
    rw [memcmpBytes]
    by_cases hn : a n = b n
    · rw [if_neg (not_not_intro hn), ih]
      constructor
      · intro h i hi
        rcases Nat.lt_succ_iff_lt_or_eq.mp hi with hi | rfl
        · exact h i hi
        · exact hn
      · exact fun h i hi => h i (by omega)
    · rw [if_pos hn]
      constructor
      · intro h
        split at h <;> omega
      · exact fun h => absurd (h n (by omega)) hn

lemma memcmp_eq_zero_iff {m : Mem} {s1 s2 n : ℕ} :
    memcmp m s1 s2 n = 0 ↔ SameBelow (bytesAt m s1) (bytesAt m s2) n := by
  rw [memcmp_eq_bytes, memcmpBytes_eq_zero_iff]

/-- The loop returns at the last difference, which it meets first. -/
lemma memcmp_of_lastDiff {m : Mem} {s1 s2 n l : ℕ}
    (h : LastDiff (bytesAt m s1) (bytesAt m s2) n l) :
    memcmp m s1 s2 n = if m (s1 + l) < m (s2 + l) then -1 else 1 := by
  induction n with
  | zero => exact absurd h.1 (by omega)
  | succ n ih =>
    rw [memcmp]
    by_cases hl : l = n
    · subst hl
      exact if_pos h.2.1
    · have hln : l < n := by have := h.1; omega
      have hn : m (s1 + n) = m (s2 + n) := h.2.2 n (by omega) hln
      rw [if_neg (not_not_intro hn)]
      exact ih ⟨hln, h.2.1, fun i hi => h.2.2 i (by omega)⟩

lemma memcmp_neg_iff {m : Mem} {s1 s2 n l : ℕ}
    (h : LastDiff (bytesAt m s1) (bytesAt m s2) n l) :
    memcmp m s1 s2 n < 0 ↔ bytesAt m s1 l < bytesAt m s2 l := by
  rw [memcmp_of_lastDiff h]
  by_cases hl : m (s1 + l) < m (s2 + l)
  · exact ⟨fun _ => hl, fun _ => by rw [if_pos hl]; decide⟩
  · exact ⟨fun h1 => absurd h1 (by rw [if_neg hl]; decide), fun h1 => absurd h1 hl⟩

lemma memcmp_pos_iff {m : Mem} {s1 s2 n l : ℕ}
    (h : LastDiff (bytesAt m s1) (bytesAt m s2) n l) :
    0 < memcmp m s1 s2 n ↔ ¬ bytesAt m s1 l < bytesAt m s2 l := by
  rw [← memcmp_neg_iff h, memcmp_of_lastDiff h]
  split <;> decide

/-- `r` compares the strings `a` and `b` of length `n` as the C standard asks. -/
def Compares (r : ℤ) (a b : ℕ → UInt8) (n : ℕ) : Prop :=
  (r = 0 ↔ SameBelow a b n) ∧
    ∀ k, FirstDiff a b n k → (r < 0 ↔ a k < b k) ∧ (0 < r ↔ b k < a k)

lemma lt_iff_not_lt {x y : UInt8} (h : x ≠ y) : y < x ↔ ¬ x < y := by
  have h1 : x.toNat ≠ y.toNat := fun h1 => h (UInt8.toNat_inj.mp h1)
  rw [UInt8.lt_iff_toNat_lt, UInt8.lt_iff_toNat_lt]
  omega

/-- **`memcmp` compares strings** whose first and last difference point the same way, and no
others. -/
theorem memcmp_compares_iff (m : Mem) (s1 s2 n : ℕ) :
    Compares (memcmp m s1 s2 n) (bytesAt m s1) (bytesAt m s2) n ↔
      ∀ k l, FirstDiff (bytesAt m s1) (bytesAt m s2) n k →
        LastDiff (bytesAt m s1) (bytesAt m s2) n l →
        (bytesAt m s1 k < bytesAt m s2 k ↔ bytesAt m s1 l < bytesAt m s2 l) := by
  constructor
  · rintro ⟨-, h⟩ k l hk hl
    rw [← (h k hk).1, memcmp_neg_iff hl]
  · intro h
    refine ⟨memcmp_eq_zero_iff, fun k hk => ?_⟩
    obtain ⟨l, hl⟩ := exists_lastDiff hk.not_same
    constructor
    · rw [memcmp_neg_iff hl, h k l hk hl]
    · rw [memcmp_pos_iff hl, lt_iff_not_lt hk.2.1, h k l hk hl]

/-- The strings `01 02` and `02 01`, one after the other. -/
def swapped : Mem := fun x => if x = 1 ∨ x = 2 then 2 else 1

/-- `01 02` comes before `02 01`, and `memcmp` returns 1. -/
theorem memcmp_not_compares :
    ¬ ∀ (m : Mem) (s1 s2 n : ℕ), Compares (memcmp m s1 s2 n) (bytesAt m s1) (bytesAt m s2) n := by
  intro h
  have h0 : FirstDiff (bytesAt swapped 0) (bytesAt swapped 2) 2 0 :=
    ⟨by decide, by decide, fun i hi => absurd hi (by omega)⟩
  have h1 := ((h swapped 0 2 2).2 0 h0).1.mpr (by decide)
  exact absurd h1 (by decide)

end Silkware.MemCmp
