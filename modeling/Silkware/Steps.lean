import Mathlib.Data.Set.Basic
import Mathlib.Tactic.Common

/-!
Programs of atomic steps on a shared state.

A step updates the state and goes on with what it saw there before. Between two steps others may
act on the state. A program ignores a set of updates if none of its steps can tell whether one of
them has happened, and none undoes it.
-/

namespace Silkware.Steps

inductive Prog (σ ε α : Type)
  | ret (a : α)
  | stop (e : ε)
  | step (upd : σ → σ) (k : σ → Prog σ ε α)

namespace Prog

variable {σ ε α β : Type} {G H : Set (σ → σ)} {p : Prog σ ε α} {s : σ} {g : σ → σ}

protected def bind : Prog σ ε α → (α → Prog σ ε β) → Prog σ ε β
  | ret a, f => f a
  | stop e, _ => stop e
  | step upd k, f => step upd fun s => (k s).bind f

instance monad : Monad (Prog σ ε) where
  pure := ret
  bind := Prog.bind

/-- The whole program with nothing in between. -/
def run : Prog σ ε α → σ → Except ε (σ × α)
  | ret a, s => .ok (s, a)
  | stop e, _ => .error e
  | step upd k, s => (k s).run (upd s)

/-- Read the state. -/
def read (f : σ → α) : Prog σ ε α := step id fun s => ret (f s)

/-- Write to the state. -/
def update (f : σ → σ) : Prog σ ε Unit := step f fun _ => ret ()

@[simp] lemma run_pure (a : α) (s : σ) : (pure a : Prog σ ε α).run s = .ok (s, a) := rfl

@[simp] lemma run_stop (e : ε) (s : σ) : (stop e : Prog σ ε α).run s = .error e := rfl

@[simp] lemma run_read (f : σ → α) (s : σ) : (read f : Prog σ ε α).run s = .ok (s, f s) := rfl

@[simp] lemma run_update (f : σ → σ) (s : σ) :
    (update f : Prog σ ε Unit).run s = .ok (f s, ()) := rfl

lemma run_bind (p : Prog σ ε α) (f : α → Prog σ ε β) (s : σ) :
    (p >>= f).run s = p.run s >>= fun r => (f r.2).run r.1 := by
  induction p generalizing s with
  | ret a => rfl
  | stop e => rfl
  | step upd k ih => exact ih s (upd s)

lemma run_map (f : α → β) (p : Prog σ ε α) (s : σ) :
    (f <$> p).run s = (p.run s).map fun r => (r.1, f r.2) := by
  refine (run_bind p (fun a => pure (f a)) s).trans ?_
  cases p.run s with
  | error e => rfl
  | ok r => rfl

@[simp] lemma read_bind_run (f : σ → α) (k : α → Prog σ ε β) (s : σ) :
    (read f >>= k).run s = (k (f s)).run s := rfl

@[simp] lemma update_bind_run (f : σ → σ) (k : Unit → Prog σ ε β) (s : σ) :
    (update f >>= k).run s = (k ()).run (f s) := rfl

/-! ### What a program ignores -/

def Ignores (G : Set (σ → σ)) : Prog σ ε α → σ → Prop
  | ret _, _ => True
  | stop _, _ => True
  | step upd k, s => (∀ g ∈ G, upd (g s) = g (upd s) ∧ k (g s) = k s) ∧ (k s).Ignores G (upd s)

lemma Ignores.mono (h : p.Ignores G s) (hs : H ⊆ G) : p.Ignores H s := by
  induction p generalizing s with
  | ret a => trivial
  | stop e => trivial
  | step upd k ih => exact ⟨fun g hg => h.1 g (hs hg), ih s h.2⟩

/-- After one of the updates the program goes on to ignore them all. -/
lemma Ignores.after (h : p.Ignores G s) (hG : ∀ f ∈ G, ∀ g ∈ G, f ∘ g ∈ G) (hg : g ∈ G) :
    p.Ignores G (g s) := by
  induction p generalizing s with
  | ret a => trivial
  | stop e => trivial
  | step upd k ih =>
    obtain ⟨hu, hk⟩ := h.1 g hg
    refine ⟨fun f hf => ?_, ?_⟩
    · obtain ⟨hu', hk'⟩ := h.1 (f ∘ g) (hG f hf g hg)
      refine ⟨?_, hk'.trans hk.symm⟩
      calc upd (f (g s)) = f (g (upd s)) := hu'
        _ = f (upd (g s)) := by rw [hu]
    · rw [hk, hu]
      exact ih s h.2

/-- The update comes after the program as well as before it. -/
lemma Ignores.run (h : p.Ignores G s) (hg : g ∈ G) :
    p.run (g s) = (p.run s).map fun r => (g r.1, r.2) := by
  induction p generalizing s with
  | ret a => rfl
  | stop e => rfl
  | step upd k ih =>
    obtain ⟨hu, hk⟩ := h.1 g hg
    change (k (g s)).run (upd (g s)) = _
    rw [hk, hu]
    exact ih s h.2

lemma Ignores.bind {f : α → Prog σ ε β} (h : p.Ignores G s)
    (hf : ∀ t a, p.run s = .ok (t, a) → (f a).Ignores G t) : (p >>= f).Ignores G s := by
  induction p generalizing s with
  | ret a => exact hf s a rfl
  | stop e => trivial
  | step upd k ih =>
    refine ⟨fun g hg => ?_, ih s h.2 hf⟩
    obtain ⟨hu, hk⟩ := h.1 g hg
    refine ⟨hu, ?_⟩
    change (k (g s)).bind f = (k s).bind f
    rw [hk]

lemma Ignores.map (f : α → β) (h : p.Ignores G s) : (f <$> p).Ignores G s :=
  h.bind (f := fun a => pure (f a)) fun _ _ _ => trivial

lemma Ignores.read {f : σ → α} {k : α → Prog σ ε β} (hf : ∀ g ∈ G, f (g s) = f s)
    (hk : (k (f s)).Ignores G s) : (Prog.read f >>= k).Ignores G s := by
  refine ⟨fun g hg => ⟨rfl, ?_⟩, hk⟩
  change k (f (g s)) = k (f s)
  rw [hf g hg]

lemma Ignores.update {f : σ → σ} {k : Unit → Prog σ ε β} (hf : ∀ g ∈ G, f (g s) = g (f s))
    (hk : (k ()).Ignores G (f s)) : (Prog.update f >>= k).Ignores G s :=
  ⟨fun g hg => ⟨hf g hg, rfl⟩, hk⟩

end Prog

end Silkware.Steps
