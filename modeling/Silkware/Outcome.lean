import Mathlib.Tactic.Common

/-!
Postconditions for computations that may stop.

`OrStops e x P` says of a call `x` that it returns a value with `P`, or that it stops for the
one reason `e`; every other way not to return is excluded. `Gives x P` says nothing of calls that
do not return.
-/

namespace Silkware.Outcome

universe u

variable {ε : Type*} {α β : Type u} {e : ε} {x : Except ε α} {P Q : α → Prop}

def OrStops (e : ε) (x : Except ε α) (P : α → Prop) : Prop :=
  x = .error e ∨ ∃ a, x = .ok a ∧ P a

lemma OrStops.ok {a : α} (h : P a) : OrStops e (.ok a) P := Or.inr ⟨a, rfl, h⟩

lemma OrStops.pure {a : α} (h : P a) : OrStops e (Pure.pure a) P := OrStops.ok h

lemma OrStops.stop : OrStops e (.error e) P := Or.inl rfl

lemma OrStops.mono (h : OrStops e x P) (hq : ∀ a, P a → Q a) : OrStops e x Q := by
  rcases h with h | ⟨a, h, ha⟩
  · exact Or.inl h
  · exact Or.inr ⟨a, h, hq a ha⟩

lemma OrStops.bind {f : α → Except ε β} {R : β → Prop} (h : OrStops e x P)
    (hf : ∀ a, P a → OrStops e (f a) R) : OrStops e (x >>= f) R := by
  rcases h with rfl | ⟨a, rfl, ha⟩
  · exact Or.inl rfl
  · exact hf a ha

/-- A call that does not stop for the reason allowed returns. -/
lemma OrStops.returns (h : OrStops e x P) (hne : x ≠ .error e) : ∃ a, x = .ok a ∧ P a :=
  h.resolve_left hne

lemma OrStops.of_ok {a : α} (h : OrStops e x P) (ha : x = .ok a) : P a := by
  rcases h with h | ⟨b, h, hb⟩
  · rw [h] at ha; cases ha
  · rw [h, Except.ok.injEq] at ha
    exact ha ▸ hb

lemma exists_of_isOk (h : x.isOk = true) : ∃ a, x = .ok a := by
  cases x with
  | error e => cases h
  | ok a => exact ⟨a, rfl⟩

/-- A value read off the result shows that there is one. -/
lemma exists_of_map {β : Type*} {f : α → β} {b : β} (h : x.map f = .ok b) :
    ∃ a, x = .ok a ∧ f a = b := by
  cases x with
  | error e => cases h
  | ok a => exact ⟨a, rfl, Except.ok.inj h⟩

lemma exists_of_bind {f : α → Except ε β} {b : β} (h : x.bind f = .ok b) :
    ∃ a, x = .ok a ∧ f a = .ok b := by
  cases x with
  | error e => cases h
  | ok a => exact ⟨a, rfl, h⟩

/-! ### Only where it returns -/

def Gives (x : Except ε α) (P : α → Prop) : Prop := ∀ a, x = .ok a → P a

lemma Gives.pure {a : α} (h : P a) : Gives (Pure.pure a : Except ε α) P := by
  rintro _ ⟨⟩
  exact h

lemma Gives.error : Gives (.error e) P := by
  rintro _ ⟨⟩

lemma Gives.mono (h : Gives x P) (hq : ∀ a, P a → Q a) : Gives x Q := fun a ha => hq a (h a ha)

lemma Gives.bind {f : α → Except ε β} {R : β → Prop} (h : Gives x P) (hf : ∀ a, P a → Gives (f a) R) :
    Gives (x >>= f) R := by
  intro b hb
  obtain ⟨a, ha, hb⟩ := exists_of_bind hb
  exact hf a (h a ha) b hb

/-- Nothing is known of the first value. -/
lemma Gives.then {f : α → Except ε β} {R : β → Prop} (hf : ∀ a, Gives (f a) R) : Gives (x >>= f) R :=
  Gives.bind (P := fun _ => True) (fun _ _ => trivial) fun a _ => hf a

end Silkware.Outcome
