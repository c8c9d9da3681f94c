import Silkware.ByteMem

/-!
The byte loops of `mem.c`.

`memmove` copies downwards where the target lies above the source and upwards where it lies below,
so that a byte is read before it is overwritten. `memcpy` is `memmove`.
-/

namespace Silkware.MemOps

open Silkware.ByteMem

/-- `while (n--) dst8[n] = src8[n]` -/
def copyDown (m : Mem) (dst src : ℕ) : ℕ → Mem
  | 0 => m
  | n + 1 => copyDown (Function.update m (dst + n) (m (src + n))) dst src n

/-- `for (; i < n; ++i) dst8[i] = src8[i]`, with `n - i` rounds left. -/
def copyUp (m : Mem) (dst src i : ℕ) : ℕ → Mem
  | 0 => m
  | left + 1 => copyUp (Function.update m (dst + i) (m (src + i))) dst src (i + 1) left

def memmove (m : Mem) (dst src n : ℕ) : Mem :=
  if src = dst ∨ n = 0 then m
  else if src < dst then copyDown m dst src n
  else copyUp m dst src 0 n

def memcpy (m : Mem) (dst src n : ℕ) : Mem := memmove m dst src n

/-- `while (n--) dst8[n] = c` -/
def memset (m : Mem) (dst : ℕ) (c : UInt8) : ℕ → Mem
  | 0 => m
  | n + 1 => memset (Function.update m (dst + n) c) dst c n

lemma copyDown_eq {dst src : ℕ} (h : src ≤ dst) (m : Mem) (n x : ℕ) :
    copyDown m dst src n x = if dst ≤ x ∧ x < dst + n then m (src + (x - dst)) else m x := by
  induction n generalizing m with
  | zero => rw [copyDown, if_neg (by omega)]
  | succ n ih =>
    rw [copyDown, ih]
    by_cases hx : dst ≤ x ∧ x < dst + n
    · -- the source of this byte lies below the byte just written
      rw [if_pos hx, if_pos (by omega), Function.update_of_ne (by omega)]
    · rw [if_neg hx]
      by_cases he : x = dst + n
      · subst he
        rw [Function.update_self, if_pos (by omega), Nat.add_sub_cancel_left]
      · rw [Function.update_of_ne he, if_neg (by omega)]

lemma copyUp_eq {dst src : ℕ} (h : dst ≤ src) (m : Mem) (i left x : ℕ) :
    copyUp m dst src i left x =
      if dst + i ≤ x ∧ x < dst + i + left then m (src + (x - dst)) else m x := by
  induction left generalizing m i with
  | zero => rw [copyUp, if_neg (by omega)]
  | succ left ih =>
    rw [copyUp, ih]
    by_cases hx : dst + (i + 1) ≤ x ∧ x < dst + (i + 1) + left
    · rw [if_pos hx, if_pos (by omega), Function.update_of_ne (by omega)]
    · rw [if_neg hx]
      by_cases he : x = dst + i
      · subst he
        rw [Function.update_self, if_pos (by omega), Nat.add_sub_cancel_left]
      · rw [Function.update_of_ne he, if_neg (by omega)]

/-- **`memmove` copies**, whether or not the two ranges overlap. -/
theorem memmove_eq (m : Mem) (dst src n x : ℕ) :
    memmove m dst src n x = if dst ≤ x ∧ x < dst + n then m (src + (x - dst)) else m x := by
  unfold memmove
  by_cases h0 : src = dst ∨ n = 0
  · rw [if_pos h0]
    by_cases hx : dst ≤ x ∧ x < dst + n
    · rw [if_pos hx, show src + (x - dst) = x by omega]
    · rw [if_neg hx]
  · rw [if_neg h0]
    by_cases hlt : src < dst
    · rw [if_pos hlt, copyDown_eq (by omega)]
    · rw [if_neg hlt, copyUp_eq (by omega)]
      rfl

lemma memcpy_in {m : Mem} {dst src n i : ℕ} (h : i < n) :
    memcpy m dst src n (dst + i) = m (src + i) := by
  rw [memcpy, memmove_eq, if_pos (by omega), Nat.add_sub_cancel_left]

lemma memcpy_out {m : Mem} {dst src n x : ℕ} (h : x < dst ∨ dst + n ≤ x) :
    memcpy m dst src n x = m x := by
  rw [memcpy, memmove_eq, if_neg (by omega)]

/-- Every byte of the target is what the byte of the source was before, however the two ranges
lie, and no other byte changes. -/
def CopiesAtOnce (copy : Mem → ℕ → ℕ → ℕ → Mem) : Prop :=
  ∀ m dst src n, (∀ i < n, copy m dst src n (dst + i) = m (src + i)) ∧
    ∀ x, (x < dst ∨ dst + n ≤ x) → copy m dst src n x = m x

/-- **`memmove` and `memcpy`** both copy as if all bytes were read before one is written. -/
theorem memmove_memcpy_copiesAtOnce : CopiesAtOnce memmove ∧ CopiesAtOnce memcpy := by
  have h : CopiesAtOnce memcpy := fun m dst src n =>
    ⟨fun i hi => memcpy_in hi, fun x hx => memcpy_out hx⟩
  exact ⟨h, h⟩

/-- The loop of `memset` fills the range. -/
theorem memset_eq_fill (m : Mem) (dst n : ℕ) (c : UInt8) : memset m dst c n = fill m dst n c := by
  induction n generalizing m with
  | zero =>
    ext x
    rw [memset, fill, if_neg (by omega)]
  | succ n ih =>
    ext x
    rw [memset, ih, fill, fill]
    by_cases hx : dst ≤ x ∧ x < dst + n
    · rw [if_pos hx, if_pos (by omega)]
    · rw [if_neg hx]
      by_cases he : x = dst + n
      · rw [he, Function.update_self, if_pos (by omega)]
      · rw [Function.update_of_ne he, if_neg (by omega)]

end Silkware.MemOps
