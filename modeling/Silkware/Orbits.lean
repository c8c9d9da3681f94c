import Mathlib.Data.Set.Finite.Basic
import Mathlib.Logic.Function.Iterate
import Mathlib.Order.Bounds.Basic

/-!
Loops that apply a function while their point is inside a set.

The points are an orbit of the function. In a finite set the loop ends just when it never comes back
to a point it has seen. Where each step lowers a count by one, the count says how many steps there are.
-/

namespace Silkware.Orbits

variable {α : Type*} {f : α → α} {P : α → Prop} {x : α} {i j : ℕ}

/-- The first `n` points are inside. -/
def Inside (f : α → α) (P : α → Prop) (x : α) (n : ℕ) : Prop := ∀ k < n, P (f^[k] x)

def Leaves (f : α → α) (P : α → Prop) (x : α) : Prop := ∃ n, ¬ P (f^[n] x)

lemma Inside.mono (h : Inside f P x j) (hij : i ≤ j) : Inside f P x i := fun k hk => h k (by omega)

/-- A point that comes back comes back for ever. -/
lemma not_leaves_of_return (hij : i ≤ j) (h : Inside f P x (j + 1)) (he : f^[j + 1] x = f^[i] x) :
    ¬ Leaves f P x := by
  have hall : ∀ n, P (f^[n] x) := by
    intro n
    induction n using Nat.strong_induction_on with
    | _ n ih =>
      by_cases hn : n < j + 1
      · exact h n hn
      · -- the point was seen a period earlier
        have hback : f^[n] x = f^[n - (j + 1) + i] x := by
          calc
            f^[n] x = f^[n - (j + 1) + (j + 1)] x := by rw [Nat.sub_add_cancel (by omega)]
            _ = f^[n - (j + 1)] (f^[j + 1] x) := Function.iterate_add_apply ..
            _ = f^[n - (j + 1) + i] x := by rw [he, Function.iterate_add_apply]
        rw [hback]
        exact ih _ (by omega)
  rintro ⟨n, hn⟩
  exact hn (hall n)

/-- Points that are all new fill up a finite set. -/
lemma leaves_of_new (hfin : {y | P y}.Finite)
    (h : ∀ j, Inside f P x (j + 1) → ∀ i ≤ j, f^[j + 1] x ≠ f^[i] x) : Leaves f P x := by
  by_contra hstay
  have hall : ∀ n, P (f^[n] x) := by
    intro n
    by_contra hn
    exact hstay ⟨n, hn⟩
  have hinj : Function.Injective fun n => f^[n] x := by
    have hne : ∀ i j, i < j → f^[j] x ≠ f^[i] x := by
      intro i j hij
      obtain ⟨j, rfl⟩ : ∃ k, j = k + 1 := ⟨j - 1, by omega⟩
      exact h j (fun k _ => hall k) i (by omega)
    intro i j he
    rcases Nat.lt_trichotomy i j with hij | hij | hij
    · exact absurd he.symm (hne i j hij)
    · exact hij
    · exact absurd he (hne j i hij)
  exact Set.infinite_of_injective_forall_mem hinj hall hfin

/-- **A loop in a finite set ends** just when every step inside leads to a point not seen before. -/
theorem leaves_iff (hfin : {y | P y}.Finite) :
    Leaves f P x ↔ ∀ j, Inside f P x (j + 1) → ∀ i ≤ j, f^[j + 1] x ≠ f^[i] x :=
  ⟨fun h _ hj _ hij he => not_leaves_of_return hij hj he h, leaves_of_new hfin⟩

/-- A count that every step but that at `z` lowers by one is the number of steps to `z`. -/
theorem isLeast_steps {c : α → ℕ} {z : α}
    (hstep : ∀ y, P y → y ≠ z → P (f y) ∧ c (f y) + 1 = c y) (hz : c z = 0) (hx : P x) :
    IsLeast {n | f^[n] x = z} (c x) := by
  obtain ⟨k, hk⟩ : ∃ k, c x = k := ⟨_, rfl⟩
  rw [hk]
  induction k generalizing x with
  | zero =>
    have hxz : x = z := by
      by_contra hne
      have := (hstep x hx hne).2
      omega
    exact ⟨hxz, fun n _ => Nat.zero_le n⟩
  | succ k ih =>
    have hne : x ≠ z := by
      rintro rfl
      omega
    obtain ⟨hp, hc⟩ := hstep x hx hne
    obtain ⟨hmem, hleast⟩ := ih hp (by omega)
    refine ⟨hmem, fun n hn => ?_⟩
    cases n with
    | zero => exact absurd hn hne
    | succ n => exact Nat.succ_le_succ (hleast hn)

end Silkware.Orbits
