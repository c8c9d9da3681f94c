import Mathlib.Tactic.Common
import Mathlib.Tactic.Ring

/-!
What the kernel's functions share: how a call can fail to return, and the page.
-/

namespace Silkware.Kern

/-- Why a call does not return: it reached a panic or a failed assertion, it touched
memory it must not touch, or it loops. -/
inductive Stop | panic | fault | hang
  deriving DecidableEq, Repr

/-- 64-bit subtraction. -/
def sub64 (a b : ℕ) : ℕ := (a + (2 ^ 64 - b % 2 ^ 64)) % 2 ^ 64

lemma sub64_eq {a b : ℕ} (h : b ≤ a) (ha : a < 2 ^ 64) : sub64 a b = a - b := by
  unfold sub64; omega

/-- `PAGE_SIZE` -/
def pageSize : ℕ := 0x1000

/-- `x & ~0xFFF` -/
def floorPage (x : ℕ) : ℕ := x - x % 0x1000

/-- `round_up_page`, in 64-bit arithmetic. -/
def roundUpPage (x : ℕ) : ℕ := floorPage ((x + 0xFFF) % 2 ^ 64)

/-- Where `premap_anon` and `map_anon` put a mapping of `phys`: the address returned, and
the next value of `end_pos`. -/
def anonPos (endPos phys len : ℕ) : ℕ × ℕ :=
  ((endPos + (phys - floorPage phys)) % 2 ^ 64, roundUpPage ((endPos + len) % 2 ^ 64))

lemma anonPos_eq {endPos len : ℕ} (phys : ℕ) (h1 : endPos % pageSize = 0) (h2 : len % pageSize = 0)
    (h3 : endPos + len + pageSize ≤ 2 ^ 64) :
    anonPos endPos phys len = (endPos + phys % pageSize, endPos + len) := by
  unfold pageSize at *
  unfold anonPos roundUpPage floorPage
  refine Prod.ext ?_ ?_ <;> simp only <;> omega

end Silkware.Kern
