import Mathlib.Tactic.Common
import Mathlib.Tactic.Ring

/-!
Byte-addressed memory with little-endian 64-bit words.

An address is a natural number. A word store keeps the low 64 bits of the value, as a
machine does, so a sum may be stored without reducing it first.
-/

namespace Silkware.ByteMem

abbrev Mem := ℕ → UInt8

/-- The 64-bit word at `a`, lowest byte first. -/
def rd (m : Mem) (a : ℕ) : ℕ :=
  (m a).toNat + (m (a + 1)).toNat * 2 ^ 8 + (m (a + 2)).toNat * 2 ^ 16 +
    (m (a + 3)).toNat * 2 ^ 24 + (m (a + 4)).toNat * 2 ^ 32 + (m (a + 5)).toNat * 2 ^ 40 +
    (m (a + 6)).toNat * 2 ^ 48 + (m (a + 7)).toNat * 2 ^ 56

/-- Byte `i` of the word `v`. -/
def byte (v i : ℕ) : UInt8 := UInt8.ofNat (v / 2 ^ (8 * i))

/-- Store the word `v` at `a`. -/
def wr (m : Mem) (a v : ℕ) : Mem := fun x =>
  if a ≤ x ∧ x < a + 8 then byte v (x - a) else m x

/-- Set the `n` bytes from `a` on to `c`. -/
def fill (m : Mem) (a n : ℕ) (c : UInt8) : Mem := fun x =>
  if a ≤ x ∧ x < a + n then c else m x

lemma rd_congr {m m' : Mem} {a : ℕ} (h : ∀ x, a ≤ x → x < a + 8 → m' x = m x) :
    rd m' a = rd m a := by
  unfold rd
  rw [h a (by omega) (by omega), h (a + 1) (by omega) (by omega), h (a + 2) (by omega) (by omega),
    h (a + 3) (by omega) (by omega), h (a + 4) (by omega) (by omega),
    h (a + 5) (by omega) (by omega), h (a + 6) (by omega) (by omega),
    h (a + 7) (by omega) (by omega)]

/-- The same bytes somewhere else are the same word. -/
lemma rd_move {m m' : Mem} {a b : ℕ} (h : ∀ i < 8, m' (a + i) = m (b + i)) : rd m' a = rd m b := by
  unfold rd
  have h0 := h 0 (by omega)
  rw [Nat.add_zero, Nat.add_zero] at h0
  rw [h0, h 1 (by omega), h 2 (by omega), h 3 (by omega), h 4 (by omega), h 5 (by omega),
    h 6 (by omega), h 7 (by omega)]

lemma rd_lt (m : Mem) (a : ℕ) : rd m a < 2 ^ 64 := by
  unfold rd
  have h : ∀ x, (m x).toNat < 256 := fun x => (m x).toNat_lt
  have h0 := h a; have h1 := h (a + 1); have h2 := h (a + 2); have h3 := h (a + 3)
  have h4 := h (a + 4); have h5 := h (a + 5); have h6 := h (a + 6); have h7 := h (a + 7)
  omega

lemma byte_toNat (v i : ℕ) : (byte v i).toNat = v / 2 ^ (8 * i) % 256 := by
  simp [byte]

lemma wr_in {m : Mem} {a v x : ℕ} (h1 : a ≤ x) (h2 : x < a + 8) :
    wr m a v x = byte v (x - a) := by
  simp [wr, h1, h2]

lemma wr_out {m : Mem} {a v x : ℕ} (h : x < a ∨ a + 8 ≤ x) : wr m a v x = m x := by
  unfold wr; rw [if_neg (by omega)]

lemma fill_out {m : Mem} {a n x : ℕ} {c : UInt8} (h : x < a ∨ a + n ≤ x) :
    fill m a n c x = m x := by
  unfold fill; rw [if_neg (by omega)]

lemma rd_wr_mod (m : Mem) (a v : ℕ) : rd (wr m a v) a = v % 2 ^ 64 := by
  unfold rd
  rw [wr_in (by omega) (by omega), wr_in (by omega) (by omega), wr_in (by omega) (by omega),
    wr_in (by omega) (by omega), wr_in (by omega) (by omega), wr_in (by omega) (by omega),
    wr_in (by omega) (by omega), wr_in (by omega) (by omega)]
  simp only [byte_toNat, Nat.add_sub_cancel_left, Nat.sub_self]
  omega

lemma rd_wr_same {m : Mem} {a v : ℕ} (h : v < 2 ^ 64) : rd (wr m a v) a = v := by
  rw [rd_wr_mod, Nat.mod_eq_of_lt h]

lemma rd_wr_sep {m : Mem} {a b v : ℕ} (h : a + 8 ≤ b ∨ b + 8 ≤ a) :
    rd (wr m a v) b = rd m b :=
  rd_congr fun x h1 h2 => wr_out (by omega)

/-- Store words one after the other from `a` on. -/
def wrWords (m : Mem) (a : ℕ) : List ℕ → Mem
  | [] => m
  | v :: vs => wrWords (wr m a v) (a + 8) vs

lemma wrWords_out {m : Mem} {a x : ℕ} {vs : List ℕ} (h : x < a ∨ a + 8 * vs.length ≤ x) :
    wrWords m a vs x = m x := by
  induction vs generalizing m a with
  | nil => rfl
  | cons v vs ih =>
    simp only [List.length_cons] at h
    rw [wrWords, ih (by omega), wr_out (by omega)]

lemma rd_wrWords {m : Mem} {a i : ℕ} {vs : List ℕ} (h : i < vs.length) :
    rd (wrWords m a vs) (a + 8 * i) = vs[i] % 2 ^ 64 := by
  induction vs generalizing m a i with
  | nil => cases h
  | cons v vs ih =>
    cases i with
    | zero =>
      have hout : ∀ x, a ≤ x → x < a + 8 → wrWords (wr m a v) (a + 8) vs x = wr m a v x :=
        fun x _ h2 => wrWords_out (by omega)
      simp only [wrWords, Nat.mul_zero, Nat.add_zero]
      rw [rd_congr hout, rd_wr_mod]
      rfl
    | succ i =>
      have := ih (m := wr m a v) (a := a + 8) (i := i) (by simpa using h)
      rw [wrWords, show a + 8 * (i + 1) = a + 8 + 8 * i by omega, this]
      rfl

end Silkware.ByteMem
