import Mathlib.Data.List.Basic
import Mathlib.Tactic.Common

/-!
Singly linked lists threaded through a store.

`nx` reads the link of a node. A chain names the nodes a traversal visits in order, and
where it stands afterwards: `NULL`, a sentinel, or a node further on.
-/

namespace Silkware.Links

variable {α : Type*} {nx nx' : α → α}

/-- From `a`, following `nx` visits the nodes `l` and then stands at `z`. -/
def Chain (nx : α → α) : α → List α → α → Prop
  | a, [], z => a = z
  | a, b :: l, z => a = b ∧ Chain nx (nx b) l z

@[simp] lemma chain_nil {a z : α} : Chain nx a [] z ↔ a = z := Iff.rfl

@[simp] lemma chain_cons {a b z : α} {l : List α} :
    Chain nx a (b :: l) z ↔ a = b ∧ Chain nx (nx b) l z := Iff.rfl

lemma chain_append {l l' : List α} {a z : α} :
    Chain nx a (l ++ l') z ↔ ∃ c, Chain nx a l c ∧ Chain nx c l' z := by
  induction l generalizing a with
  | nil => simp
  | cons b l ih => simp only [List.cons_append, chain_cons, ih]; constructor <;> aesop

lemma chain_snoc {l : List α} {a b z : α} :
    Chain nx a (l ++ [b]) z ↔ Chain nx a l b ∧ nx b = z := by
  rw [chain_append]
  constructor
  · rintro ⟨c, h, rfl, h'⟩; exact ⟨h, h'⟩
  · rintro ⟨h, h'⟩; exact ⟨b, h, rfl, h'⟩

/-- A chain only depends on the links of its nodes. -/
lemma Chain.congr {l : List α} {a z : α} (h : Chain nx a l z) (hn : ∀ b ∈ l, nx' b = nx b) :
    Chain nx' a l z := by
  induction l generalizing a with
  | nil => exact h
  | cons b l ih =>
    refine ⟨h.1, ?_⟩
    rw [hn b (by simp)]
    exact ih h.2 fun c hc => hn c (by simp [hc])

/-- The node a chain starts at is on it once, at its head. -/
lemma Chain.head {l₁ l₂ : List α} {b z : α} (h : Chain nx b (l₁ ++ b :: l₂) z)
    (hnd : (l₁ ++ b :: l₂).Nodup) : l₁ = [] := by
  cases l₁ with
  | nil => rfl
  | cons y l₁ =>
    obtain rfl : b = y := h.1
    simp at hnd

/-- A chain to a node that is not on it is the only one. -/
lemma Chain.unique {l l' : List α} {a z : α} (h : Chain nx a l z) (h' : Chain nx a l' z)
    (hl : z ∉ l) (hl' : z ∉ l') : l = l' := by
  induction l generalizing a l' with
  | nil =>
    obtain rfl : a = z := h
    cases l' with
    | nil => rfl
    | cons b l' => exact absurd (by rw [h'.1]; simp) hl'
  | cons b l ih =>
    obtain ⟨rfl, h2⟩ := h
    cases l' with
    | nil => exact absurd (by rw [← chain_nil.mp h']; simp) hl
    | cons c l' =>
      obtain ⟨rfl, h2'⟩ := h'
      rw [ih h2 h2' (fun hz => hl (by simp [hz])) (fun hz => hl' (by simp [hz]))]

/-- Redirecting the last link of a chain. -/
lemma Chain.relink {l : List α} {a p x y : α} (h : Chain nx a (l ++ [p]) x)
    (hn : ∀ b ∈ l, nx' b = nx b) (hp : nx' p = y) : Chain nx' a (l ++ [p]) y := by
  obtain ⟨hl, -⟩ := chain_snoc.mp h
  exact chain_snoc.mpr ⟨hl.congr hn, hp⟩

/-- The nodes a traversal from `a` sees before it meets one where it stops. -/
def Visited (nx : α → α) (stop : α → Prop) (a b : α) : Prop :=
  ∃ l, Chain nx a l b ∧ (∀ x ∈ l, ¬ stop x) ∧ ¬ stop b

lemma visited_iff {stop : α → Prop} {a b z : α} {l : List α} (h : Chain nx a l z)
    (hl : ∀ x ∈ l, ¬ stop x) (hz : stop z) : Visited nx stop a b ↔ b ∈ l := by
  constructor
  · rintro ⟨l', h', hl', hb⟩
    induction l generalizing a l' with
    | nil =>
      obtain rfl : a = z := h
      cases l' with
      | nil => obtain rfl : a = b := h'; exact absurd hz hb
      | cons c l' => obtain ⟨rfl, -⟩ := h'; exact absurd hz (hl' _ (by simp))
    | cons c l ih =>
      obtain ⟨rfl, h2⟩ := h
      cases l' with
      | nil => obtain rfl : a = b := h'; simp
      | cons d l' =>
        obtain ⟨rfl, h2'⟩ := h'
        exact List.mem_cons_of_mem _ (ih h2 (fun x hx => hl x (by simp [hx])) l' h2'
          (fun x hx => hl' x (by simp [hx])))
  · intro hb
    obtain ⟨l1, l2, rfl⟩ := List.append_of_mem hb
    obtain ⟨c, h1, rfl, -⟩ := chain_append.mp h
    exact ⟨l1, h1, fun x hx => hl x (by simp [hx]), hl c (by simp)⟩

end Silkware.Links
