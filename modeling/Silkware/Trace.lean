import Silkware.Outcome

/-!
What a computation records on its way.

The record stands beside the computation: after a call that returned it goes on with what the
rest records. Of every record in a run one assumes `C` and concludes `Q`, along with what the run
itself comes to.
-/

namespace Silkware.Trace

open Silkware.Outcome

universe u

variable {ε κ : Type*} {α β : Type u} {e : ε} {x : Except ε α} {k l : List κ} {P P' : α → Prop}
  {R : β → Prop} {C Q : κ → Prop}

/-- What is recorded after a call that returned. -/
def after (x : Except ε α) (f : α → List κ) : List κ :=
  match x with
  | .ok a => f a
  | .error _ => []

/-- Where all that is recorded meets `C`, it meets `Q`, and the call returns or stops for the one
reason. -/
def Serves (C Q : κ → Prop) (e : ε) (l : List κ) (x : Except ε α) (P : α → Prop) : Prop :=
  (∀ k ∈ l, C k) → (∀ k ∈ l, Q k) ∧ OrStops e x P

lemma Serves.silent (h : OrStops e x P) : Serves C Q e [] x P := fun _ => ⟨nofun, h⟩

lemma Serves.mono (h : Serves C Q e l x P) (hp : ∀ a, P a → P' a) : Serves C Q e l x P' := by
  intro hc
  obtain ⟨hq, hx⟩ := h hc
  exact ⟨hq, hx.mono hp⟩

/-- A record is made first. -/
lemma Serves.cons {i : κ} (hi : C i → Q i ∧ Serves C Q e l x P) : Serves C Q e (i :: l) x P := by
  intro hc
  obtain ⟨hqi, h⟩ := hi (hc i List.mem_cons_self)
  obtain ⟨hq, hx⟩ := h fun k hk => hc k (List.mem_cons_of_mem i hk)
  exact ⟨List.forall_mem_cons.mpr ⟨hqi, hq⟩, hx⟩

/-- One call after the other. -/
lemma Serves.bind {f : α → Except ε β} {g : α → List κ} (h : Serves C Q e l x P)
    (hf : ∀ a, P a → Serves C Q e (g a) (f a) R) : Serves C Q e (l ++ after x g) (x >>= f) R := by
  intro hc
  rw [List.forall_mem_append] at hc
  obtain ⟨hq, hx⟩ := h hc.1
  rw [List.forall_mem_append]
  rcases hx with rfl | ⟨a, rfl, ha⟩
  · exact ⟨⟨hq, nofun⟩, OrStops.stop⟩
  · obtain ⟨hqa, hxa⟩ := hf a ha hc.2
    exact ⟨⟨hq, hqa⟩, hxa⟩

/-- The same where the first call records nothing. -/
lemma Serves.bind_silent {f : α → Except ε β} {g : α → List κ} (h : OrStops e x P)
    (hf : ∀ a, P a → Serves C Q e (g a) (f a) R) : Serves C Q e (after x g) (x >>= f) R :=
  (Serves.silent h).bind hf

/-- The same where the second call records nothing. -/
lemma Serves.finish {f : α → Except ε β} (h : Serves C Q e l x P)
    (hf : ∀ a, P a → OrStops e (f a) R) : Serves C Q e l (x >>= f) R := by
  intro hc
  obtain ⟨hq, hx⟩ := h hc
  exact ⟨hq, hx.bind hf⟩

end Silkware.Trace
