import Mathlib.Tactic.Common
import Mathlib.Tactic.Ring

/-!
States that keep bytes at addresses, and numbers read and written there with the lowest byte first.
-/

namespace Silkware.ByteStore

/-- Bytes at addresses, kept in a state: what is put is there, and nothing else changes. -/
structure Store (σ : Type*) where
  get : σ → ℕ → UInt8
  put : σ → ℕ → UInt8 → σ
  get_put : ∀ s q x, get (put s q x) q = x
  get_put_ne : ∀ s x {q r : ℕ}, r ≠ q → get (put s q x) r = get s r

variable {σ : Type*} (B : Store σ)

/-- The number in the `n` bytes from `p` on. -/
def Store.load (s : σ) (p : ℕ) : ℕ → ℕ
  | 0 => 0
  | n + 1 => (B.get s p).toNat + 256 * Store.load s (p + 1) n

/-- The lowest `n` bytes of `v`, written from `p` on. -/
def Store.save (s : σ) (p : ℕ) : ℕ → ℕ → σ
  | 0, _ => s
  | n + 1, v => Store.save (B.put s p (UInt8.ofNat v)) (p + 1) n (v / 256)

variable {B} {s : σ} {p : ℕ}

/-- What every byte put in the range keeps, a save keeps. -/
lemma save_induction {P : σ → Prop} {n v : ℕ}
    (hput : ∀ t q x, p ≤ q → q < p + n → P t → P (B.put t q x)) (hs : P s) : P (B.save s p n v) := by
  induction n generalizing s p v with
  | zero => exact hs
  | succ n ih =>
    refine ih (fun t q x h1 h2 => hput t q x (by omega) (by omega)) ?_
    exact hput s p _ (Nat.le_refl _) (by omega) hs

lemma get_save_out {n v q : ℕ} (hq : q < p ∨ p + n ≤ q) : B.get (B.save s p n v) q = B.get s q :=
  save_induction (P := fun t => B.get t q = B.get s q)
    (fun t r x h1 h2 ht => by rw [B.get_put_ne t x (show q ≠ r by omega), ht]) rfl

/-- The first byte saved is the lowest. -/
lemma get_save_first (s : σ) (p n v : ℕ) : B.get (B.save s p (n + 1) v) p = UInt8.ofNat v := by
  rw [Store.save, get_save_out (Or.inl (Nat.lt_succ_self p)), B.get_put]

/-- A load depends on its bytes only, wherever they are. -/
lemma load_map {τ : Type*} {C : Store τ} {t : τ} {q n : ℕ}
    (h : ∀ i < n, B.get s (p + i) = C.get t (q + i)) : B.load s p n = C.load t q n := by
  induction n generalizing p q with
  | zero => rfl
  | succ n ih =>
    have hrest : B.load s (p + 1) n = C.load t (q + 1) n := ih fun i hi => by
      rw [Nat.add_assoc, Nat.add_assoc, Nat.add_comm 1 i]
      exact h (i + 1) (by omega)
    rw [Store.load, Store.load, hrest]
    exact congrArg (UInt8.toNat · + _) (h 0 (by omega))

/-- Where a map takes each byte put in the range to a byte put in another state, it takes a save to
a save. -/
lemma save_map {τ : Type*} {C : Store τ} (φ : σ → τ) {I : σ → Prop} {q n v : ℕ}
    (hI : ∀ t r x, I t → I (B.put t r x))
    (hφ : ∀ t i x, i < n → I t → φ (B.put t (p + i) x) = C.put (φ t) (q + i) x) (hs : I s) :
    φ (B.save s p n v) = C.save (φ s) q n v := by
  induction n generalizing s p q v with
  | zero => rfl
  | succ n ih =>
    have hfst : φ (B.put s p (UInt8.ofNat v)) = C.put (φ s) q (UInt8.ofNat v) :=
      hφ s 0 _ (by omega) hs
    rw [Store.save, Store.save, ← hfst]
    refine ih (fun t i x hi ht => ?_) (hI _ _ _ hs)
    rw [Nat.add_assoc, Nat.add_assoc, Nat.add_comm 1 i]
    exact hφ t (i + 1) x (by omega) ht

/-- A save writes no more of its number than fits. -/
lemma save_mod (s : σ) (p n v : ℕ) : B.save s p n (v % 256 ^ n) = B.save s p n v := by
  induction n generalizing s p v with
  | zero => rfl
  | succ n ih =>
    have hfst : UInt8.ofNat (v % 256 ^ (n + 1)) = UInt8.ofNat v := by
      refine UInt8.toNat_inj.mp ?_
      rw [UInt8.toNat_ofNat', UInt8.toNat_ofNat', Nat.pow_succ]
      exact Nat.mod_mod_of_dvd _ (Nat.dvd_mul_left _ _)
    have hrest : v % 256 ^ (n + 1) / 256 = v / 256 % 256 ^ n := by
      rw [Nat.pow_succ', Nat.mod_mul_right_div_self]
    rw [Store.save, Store.save, hfst, hrest, ih]

/-- The lowest byte of a load is the byte at its address. -/
lemma ofNat_load (s : σ) (p n : ℕ) : UInt8.ofNat (B.load s p (n + 1)) = B.get s p := by
  have hlt := (B.get s p).toNat_lt
  refine UInt8.toNat_inj.mp ?_
  rw [UInt8.toNat_ofNat', Store.load]
  omega

/-- A load whose first byte has just been put. -/
lemma load_put (s : σ) (p n : ℕ) (x : UInt8) :
    B.load (B.put s p x) p (n + 1) = x.toNat + 256 * B.load s (p + 1) n := by
  have h : B.load (B.put s p x) (p + 1) n = B.load s (p + 1) n :=
    load_map fun i _ => B.get_put_ne s x (by omega)
  rw [Store.load, B.get_put, h]

/-- A load after a save gives back as much as fits. -/
theorem load_save (s : σ) (p n v : ℕ) : B.load (B.save s p n v) p n = v % 256 ^ n := by
  induction n generalizing s p v with
  | zero => rw [Store.load, Nat.pow_zero, Nat.mod_one]
  | succ n ih =>
    calc
      B.load (B.save s p (n + 1) v) p (n + 1) = (UInt8.ofNat v).toNat + 256 * (v / 256 % 256 ^ n) := by
        rw [Store.load, get_save_first, Store.save, ih]
      _ = v % 256 + 256 * (v / 256 % 256 ^ n) := by rw [UInt8.toNat_ofNat']
      _ = v % 256 ^ (n + 1) := by rw [Nat.pow_succ', Nat.mod_mul]

end Silkware.ByteStore
