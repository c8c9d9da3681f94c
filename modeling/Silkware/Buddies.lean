import Mathlib.Data.Nat.Find
import Mathlib.Data.Set.Basic
import Mathlib.Tactic.Common
import Mathlib.Tactic.Ring

/-!
Blocks of a buddy system: block `q` of order `k` is the addresses from `q * 2 ^ k` on, `2 ^ k` of
them, and is one of the two halves of block `q / 2` of order `k + 1`.
-/

namespace Silkware.Buddies

/-- No block has both its halves in `S`. -/
def Merged (S : Set (ℕ × ℕ)) : Prop := ∀ k r, (k, 2 * r) ∈ S → (k, 2 * r + 1) ∉ S

variable {S S' : Set (ℕ × ℕ)} {K k q : ℕ}

/-- The other half. -/
def other (q : ℕ) : ℕ := if q % 2 = 0 then q + 1 else q - 1

lemma other_div (q : ℕ) : other q / 2 = q / 2 := by
  unfold other
  split <;> omega

lemma Merged.other_notMem (h : Merged S) (hq : (k, q) ∈ S) : (k, other q) ∉ S := by
  intro ho
  unfold other at ho
  split at ho
  · obtain ⟨r, rfl⟩ : ∃ r, q = 2 * r := ⟨q / 2, by omega⟩
    exact h k r hq ho
  · obtain ⟨r, rfl⟩ : ∃ r, q = 2 * r + 1 := ⟨q / 2, by omega⟩
    exact h k r ho hq

/-- A block whose other half is not there may be added. -/
lemma Merged.add (h : Merged S) (hS : ∀ x ∈ S', x = (k, q) ∨ x ∈ S) (ho : (k, other q) ∉ S) :
    Merged S' := by
  intro i r h1 h2
  rcases hS _ h1 with e1 | h1
  · obtain ⟨rfl, rfl⟩ := Prod.mk.inj e1
    rcases hS _ h2 with e2 | h2
    · have := (Prod.mk.inj e2).2
      omega
    · rw [other, if_pos (by omega)] at ho
      exact ho h2
  · rcases hS _ h2 with e2 | h2
    · obtain ⟨rfl, rfl⟩ := Prod.mk.inj e2
      rw [other, if_neg (by omega)] at ho
      exact ho h1
    · exact h i r h1 h2

/-- A block may be replaced by upper halves whose lower halves are not there. -/
lemma Merged.cut (h : Merged S)
    (hS : ∀ x ∈ S', x ∈ S ∨ ∃ r, x.2 = 2 * r + 1 ∧ (x.1, 2 * r) ∉ S') : Merged S' := by
  intro i r h1 h2
  rcases hS _ h1 with h1' | ⟨t, ht, -⟩
  · rcases hS _ h2 with h2' | ⟨t, ht, hno⟩
    · exact h i r h1' h2'
    · obtain rfl : t = r := by simp only at ht; omega
      exact hno h1
  · simp only at ht
    omega

/-- Both halves of a block lie in the same larger blocks. -/
lemma half_div {i : ℕ} (h : k < i) : other q * 2 ^ k / 2 ^ i = q * 2 ^ k / 2 ^ i := by
  have hdiv : ∀ p, p * 2 ^ k / 2 ^ i = p / 2 / 2 ^ (i - k - 1) := by
    intro p
    rw [show 2 ^ i = 2 * 2 ^ (i - k - 1) * 2 ^ k by
      rw [← pow_succ', ← pow_add, show i - k - 1 + 1 + k = i by omega],
      Nat.mul_div_mul_right _ _ (Nat.two_pow_pos k), Nat.div_div_eq_div_mul]
  rw [hdiv, hdiv, other_div]

/-- **Merged blocks that fill a block are that block**: the other half of a smallest one would
have to be there too. -/
theorem eq_whole (hlt : ∀ k q, (k, q) ∈ S → (q + 1) * 2 ^ k ≤ 2 ^ K)
    (hfill : ∀ a < 2 ^ K, ∃ k q, (k, q) ∈ S ∧ a / 2 ^ k = q)
    (hapart : ∀ k q i r a, (k, q) ∈ S → (i, r) ∈ S → a / 2 ^ k = q → a / 2 ^ i = r → k = i)
    (hm : Merged S) : (K, 0) ∈ S ∧ ∀ k q, (k, q) ∈ S → k = K := by
  classical
  have hex : ∃ k q, (k, q) ∈ S := by
    obtain ⟨k, q, h, -⟩ := hfill 0 (Nat.two_pow_pos K)
    exact ⟨k, q, h⟩
  obtain ⟨k, ⟨q, hq⟩, hmin⟩ : ∃ k, (∃ q, (k, q) ∈ S) ∧ ∀ i r, (i, r) ∈ S → k ≤ i :=
    ⟨Nat.find hex, Nat.find_spec hex, fun i r h => Nat.find_min' hex ⟨r, h⟩⟩
  have hdiv : q * 2 ^ k / 2 ^ k = q := Nat.mul_div_cancel _ (Nat.two_pow_pos k)
  have hle := hlt k q hq
  have hkK : k ≤ K := by
    refine (Nat.pow_le_pow_iff_right (show 1 < 2 by omega)).mp (le_trans ?_ hle)
    exact Nat.le_mul_of_pos_left _ (Nat.succ_pos q)
  -- the other half of a block smaller than the whole is filled by a larger block
  have hK : k = K := by
    by_contra hne
    have hpow : 2 ^ K = 2 * 2 ^ (K - k - 1) * 2 ^ k := by
      rw [← pow_succ', ← pow_add, show K - k - 1 + 1 + k = K by omega]
    rw [hpow] at hle
    have hq1 : q + 1 ≤ 2 * 2 ^ (K - k - 1) := Nat.le_of_mul_le_mul_right hle (Nat.two_pow_pos k)
    have ho : other q < 2 * 2 ^ (K - k - 1) := by
      unfold other
      split <;> omega
    obtain ⟨i, r, hr, hdivr⟩ := hfill (other q * 2 ^ k)
      (by rw [hpow]; exact Nat.mul_lt_mul_of_pos_right ho (Nat.two_pow_pos k))
    rcases Nat.lt_or_ge k i with hki | hki
    · rw [half_div hki] at hdivr
      have := hapart k q i r _ hq hr hdiv hdivr
      omega
    · obtain rfl : i = k := by have := hmin i r hr; omega
      rw [Nat.mul_div_cancel _ (Nat.two_pow_pos i)] at hdivr
      subst hdivr
      exact hm.other_notMem hq hr
  subst hK
  have hq0 : q = 0 := by
    have : (q + 1) * 2 ^ k ≤ 1 * 2 ^ k := by rwa [Nat.one_mul]
    have := Nat.le_of_mul_le_mul_right this (Nat.two_pow_pos k)
    omega
  subst hq0
  refine ⟨hq, fun i r hr => ?_⟩
  refine (hapart k 0 i r (r * 2 ^ i) hq hr ?_ (Nat.mul_div_cancel _ (Nat.two_pow_pos i))).symm
  refine Nat.div_eq_of_lt ?_
  have := hlt i r hr
  rw [Nat.add_mul] at this
  have := Nat.two_pow_pos i
  omega

end Silkware.Buddies
