import Mathlib.Algebra.BigOperators.Group.Finset.Basic
import Mathlib.Algebra.Order.BigOperators.Group.Multiset
import Mathlib.Data.Fintype.Basic
import Mathlib.Tactic.Abel
import Silkware.Steps

/-!
Procedures under one spin lock, called by several processors at once.

A procedure is a program of atomic steps on the shared state. A processor that calls one spins on
the lock until the test-and-set finds it clear, takes the steps of the procedure one at a time and
clears the lock. Meanwhile others call, spin, and act on what the procedures have handed out to
them: a call consumes resources and gives resources back, and the holders of resources may update
the state without the lock.

If the procedures ignore what the holders may do, a run comes to the same as one call after the
other, in the order in which the lock was taken.
-/

namespace Silkware.SpinLock

open Silkware.Steps

/-- `pre` is what a call consumes, `post` what it hands out with its result, and `mine` what the
holders of resources may do to the state. -/
structure Locked (σ ε ω α ρ : Type) where
  body : ω → Prog σ ε α
  pre : ω → Multiset ρ
  post : ω → α → Multiset ρ
  mine : Multiset ρ → Set (σ → σ)

inductive Cpu (σ ε ω α : Type)
  | idle
  | spinning (op : ω)
  | inside (op : ω) (rest : Prog σ ε α)

/-- The processor holds the lock. -/
inductive Cpu.Inside {σ ε ω α : Type} : Cpu σ ε ω α → Prop
  | mk (op : ω) (rest : Prog σ ε α) : Inside (.inside op rest)

/-- `held` is what has been handed out and not been given back. -/
structure Conf (ι σ ε ω α ρ : Type) where
  shared : σ
  lock : Bool
  cpus : ι → Cpu σ ε ω α
  held : Multiset ρ

inductive Event (ι σ ω α : Type)
  | call (i : ι) (op : ω)
  | spin (i : ι)
  | acquire (i : ι) (op : ω)
  | step (i : ι)
  | release (i : ι) (op : ω) (a : α)
  | write (g : σ → σ)

variable {ι σ ε ω α ρ : Type} {L : Locked σ ε ω α ρ}

/-- One atomic step of one processor. There is none from a program that has stopped. -/
inductive Step [DecidableEq ι] [DecidableEq ρ] (L : Locked σ ε ω α ρ) (c : Conf ι σ ε ω α ρ) :
    Event ι σ ω α → Conf ι σ ε ω α ρ → Prop
  | call {i : ι} {op : ω} (h : c.cpus i = .idle) (hp : L.pre op ≤ c.held) :
      Step L c (.call i op)
        { c with cpus := Function.update c.cpus i (.spinning op), held := c.held - L.pre op }
  | spin {i : ι} {op : ω} (h : c.cpus i = .spinning op) (hl : c.lock = true) : Step L c (.spin i) c
  | acquire {i : ι} {op : ω} (h : c.cpus i = .spinning op) (hl : c.lock = false) :
      Step L c (.acquire i op)
        { c with lock := true, cpus := Function.update c.cpus i (.inside op (L.body op)) }
  | step {i : ι} {op : ω} {upd : σ → σ} {k : σ → Prog σ ε α}
      (h : c.cpus i = .inside op (.step upd k)) :
      Step L c (.step i)
        { c with shared := upd c.shared, cpus := Function.update c.cpus i (.inside op (k c.shared)) }
  | release {i : ι} {op : ω} {a : α} (h : c.cpus i = .inside op (.ret a)) :
      Step L c (.release i op a)
        { c with
          lock := false, cpus := Function.update c.cpus i .idle, held := L.post op a + c.held }
  | write {g : σ → σ} (h : g ∈ L.mine c.held) : Step L c (.write g) { c with shared := g c.shared }

/-- Runs in which a procedure is entered only in states that are `ok` for the call. -/
inductive Run [DecidableEq ι] [DecidableEq ρ] (L : Locked σ ε ω α ρ) (ok : ω → σ → Prop)
    (c₀ : Conf ι σ ε ω α ρ) : List (Event ι σ ω α) → Conf ι σ ε ω α ρ → Prop
  | nil : Run L ok c₀ [] c₀
  | snoc {es : List (Event ι σ ω α)} {c c' : Conf ι σ ε ω α ρ} {e : Event ι σ ω α}
      (h : Run L ok c₀ es c) (hs : Step L c e c')
      (hok : ∀ i op, e = .acquire i op → ok op c.shared) : Run L ok c₀ (es ++ [e]) c'

/-- The calls that have returned, with their results. -/
def rets (es : List (Event ι σ ω α)) : List (ω × α) :=
  es.filterMap fun e => match e with
    | .release _ op a => some (op, a)
    | _ => none

def writes (es : List (Event ι σ ω α)) : List (σ → σ) :=
  es.filterMap fun e => match e with
    | .write g => some g
    | _ => none

/-! ### One call after the other -/

inductive Act (σ ω α : Type)
  | call (op : ω) (a : α)
  | write (g : σ → σ)

/-- Whole calls and updates, each from where the one before it ended. -/
inductive Serial (L : Locked σ ε ω α ρ) (ok : ω → σ → Prop) (s : σ) (H : Multiset ρ) :
    List (Act σ ω α) → σ → Multiset ρ → Prop
  | nil : Serial L ok s H [] s H
  | call {as : List (Act σ ω α)} {t u : σ} {K : Multiset ρ} {op : ω} {a : α}
      (h : Serial L ok s H as t (L.pre op + K)) (hok : ok op t)
      (hr : (L.body op).run t = .ok (u, a)) :
      Serial L ok s H (as ++ [.call op a]) u (L.post op a + K)
  | write {as : List (Act σ ω α)} {t : σ} {K : Multiset ρ} {g : σ → σ}
      (h : Serial L ok s H as t K) (hg : g ∈ L.mine K) :
      Serial L ok s H (as ++ [.write g]) (g t) K

def calls (as : List (Act σ ω α)) : List (ω × α) :=
  as.filterMap fun e => match e with
    | .call op a => some (op, a)
    | .write _ => none

def updates (as : List (Act σ ω α)) : List (σ → σ) :=
  as.filterMap fun e => match e with
    | .call _ _ => none
    | .write g => some g

/-- What the procedures owe each other: an invariant of whole calls, under which a call cannot
tell what the holders of other resources do meanwhile. -/
structure Sound (L : Locked σ ε ω α ρ) (ok : ω → σ → Prop) (inv : σ → Multiset ρ → Prop) :
    Prop where
  comp : ∀ H, ∀ f ∈ L.mine H, ∀ g ∈ L.mine H, f ∘ g ∈ L.mine H
  mono : ∀ H K, H ≤ K → L.mine H ⊆ L.mine K
  write : ∀ s H, ∀ g ∈ L.mine H, inv s H → inv (g s) H
  call : ∀ s H op t a, inv s (L.pre op + H) → ok op s → (L.body op).run s = .ok (t, a) →
    inv t (L.post op a + H)
  blind : ∀ s H op, inv s (L.pre op + H) → ok op s → (L.body op).Ignores (L.mine H) s

lemma Serial.inv {ok : ω → σ → Prop} {inv : σ → Multiset ρ → Prop} (hL : Sound L ok inv) {s t : σ}
    {H K : Multiset ρ} {as : List (Act σ ω α)} (h : Serial L ok s H as t K) (hi : inv s H) :
    inv t K := by
  induction h with
  | nil => exact hi
  | call _ hok hr ih => exact hL.call _ _ _ _ _ ih hok hr
  | write _ hg ih => exact hL.write _ _ _ hg ih

/-! ### The lock -/

/-- The lock is set exactly while a processor is inside, and then only one is. -/
inductive Excl (c : Conf ι σ ε ω α ρ) : Prop
  | free (hl : c.lock = false) (hn : ∀ j, ¬ (c.cpus j).Inside)
  | busy (i : ι) (hl : c.lock = true) (hi : (c.cpus i).Inside)
      (hn : ∀ j, (c.cpus j).Inside → j = i)

lemma not_inside_idle : ¬ (Cpu.idle : Cpu σ ε ω α).Inside := by
  rintro ⟨⟩

lemma not_inside_spinning {op : ω} : ¬ (Cpu.spinning op : Cpu σ ε ω α).Inside := by
  rintro ⟨⟩

lemma inside_update [DecidableEq ι] {f : ι → Cpu σ ε ω α} {i j : ι} {x : Cpu σ ε ω α} :
    (Function.update f i x j).Inside ↔ j = i ∧ x.Inside ∨ j ≠ i ∧ (f j).Inside := by
  by_cases h : j = i
  · subst h
    simp
  · simp [h]

/-- A processor outside moves to another place outside. -/
lemma Excl.move [DecidableEq ι] {c : Conf ι σ ε ω α ρ} (h : Excl c) {i : ι} {x : Cpu σ ε ω α} {s : σ}
    {H : Multiset ρ} (ho : ¬ (c.cpus i).Inside) (hx : ¬ x.Inside) :
    Excl (⟨s, c.lock, Function.update c.cpus i x, H⟩ : Conf ι σ ε ω α ρ) := by
  have hkeep : ∀ j, (Function.update c.cpus i x j).Inside ↔ (c.cpus j).Inside := by
    intro j
    rw [inside_update]
    by_cases hji : j = i
    · subst hji
      simp [ho, hx]
    · simp [hji]
  cases h with
  | free hl hn => exact .free hl fun j hj => hn j ((hkeep j).mp hj)
  | busy k hl hk hn => exact .busy k hl ((hkeep k).mpr hk) fun j hj => hn j ((hkeep j).mp hj)

/-- The processor inside is the one that moves. -/
lemma Excl.mover {c : Conf ι σ ε ω α ρ} (h : Excl c) {i : ι} {op : ω} {p : Prog σ ε α}
    (hi : c.cpus i = .inside op p) : c.lock = true ∧ ∀ j, (c.cpus j).Inside → j = i := by
  have hin : (c.cpus i).Inside := by
    rw [hi]
    exact ⟨op, p⟩
  cases h with
  | free _ hn => exact absurd hin (hn i)
  | busy j hl _ hn =>
    obtain rfl := hn i hin
    exact ⟨hl, hn⟩

lemma step_excl [DecidableEq ι] [DecidableEq ρ] {c c' : Conf ι σ ε ω α ρ} {e : Event ι σ ω α} (h : Excl c)
    (hs : Step L c e c') : Excl c' := by
  cases hs with
  | call hi hp => exact h.move (by rw [hi]; exact not_inside_idle) not_inside_spinning
  | spin _ _ => exact h
  | @acquire i op hi hl =>
    cases h with
    | busy k hk => rw [hl] at hk; cases hk
    | free _ hn =>
      refine .busy i rfl (inside_update.mpr (.inl ⟨rfl, ⟨op, _⟩⟩)) fun j hj => ?_
      rcases inside_update.mp hj with ⟨hji, -⟩ | ⟨-, hj⟩
      · exact hji
      · exact absurd hj (hn j)
  | @step i op upd k hi =>
    obtain ⟨hl, hn⟩ := h.mover hi
    refine .busy i hl (inside_update.mpr (.inl ⟨rfl, ⟨op, _⟩⟩)) fun j hj => ?_
    rcases inside_update.mp hj with ⟨hji, -⟩ | ⟨-, hj⟩
    · exact hji
    · exact hn j hj
  | @release i op a hi =>
    obtain ⟨-, hn⟩ := h.mover hi
    refine .free rfl fun j hj => ?_
    rcases inside_update.mp hj with ⟨-, hj⟩ | ⟨hji, hj⟩
    · exact not_inside_idle hj
    · exact hji (hn j hj)
  | write _ =>
    cases h with
    | free hl hn => exact .free hl hn
    | busy i hl hi hn => exact .busy i hl hi hn

/-- No procedure has been called yet, or every call has returned. -/
structure Quiet (c : Conf ι σ ε ω α ρ) : Prop where
  lock : c.lock = false
  idle : ∀ i, c.cpus i = .idle

lemma Quiet.excl {c : Conf ι σ ε ω α ρ} (h : Quiet c) : Excl c :=
  .free h.lock fun i hi => by
    rw [h.idle i] at hi
    exact not_inside_idle hi

/-- **Mutual exclusion.** In every run the lock is set exactly while a processor is inside, and
never is more than one. -/
lemma run_excl [DecidableEq ι] [DecidableEq ρ] {ok : ω → σ → Prop} {c₀ c : Conf ι σ ε ω α ρ}
    {es : List (Event ι σ ω α)} (h₀ : Quiet c₀) (h : Run L ok c₀ es c) : Excl c := by
  induction h with
  | nil => exact h₀.excl
  | snoc _ hs _ ih => exact step_excl ih hs

/-! ### A processor inside can go on -/

section Finish

variable [DecidableEq ι] [DecidableEq ρ] {ok : ω → σ → Prop} {c d e : Conf ι σ ε ω α ρ}
  {es fs : List (Event ι σ ω α)}

lemma Run.trans (h : Run L ok c es d) (h' : Run L ok d fs e) : Run L ok c (es ++ fs) e := by
  induction h' with
  | nil =>
    rw [List.append_nil]
    exact h
  | snoc _ hs hok ih =>
    rw [← List.append_assoc]
    exact .snoc ih hs hok

/-- The steps of the procedure, with no other processor in between. -/
lemma run_finish {i : ι} {op : ω} {p : Prog σ ε α} {t : σ} {a : α} (h : c.cpus i = .inside op p)
    (hr : p.run c.shared = .ok (t, a)) : ∃ es, rets es = [] ∧ Run L ok c es
      { c with shared := t, cpus := Function.update c.cpus i (.inside op (.ret a)) } := by
  induction p generalizing c with
  | ret b =>
    cases hr
    refine ⟨[], rfl, ?_⟩
    rw [← h, Function.update_eq_self]
    exact .nil
  | stop e => cases hr
  | step upd k ih =>
    have hs : Run L ok c [.step i] { c with
        shared := upd c.shared, cpus := Function.update c.cpus i (.inside op (k c.shared)) } :=
      .snoc .nil (.step h) fun j op' e => by cases e
    obtain ⟨es, he, hr'⟩ := ih c.shared (c := { c with
      shared := upd c.shared, cpus := Function.update c.cpus i (.inside op (k c.shared)) })
      (Function.update_self ..) hr
    simp only [Function.update_idem] at hr'
    refine ⟨.step i :: es, ?_, hs.trans hr'⟩
    rw [← he]
    rfl

lemma Run.finish {i : ι} {op : ω} {p : Prog σ ε α} {t : σ} {a : α} (h : Run L ok c es d)
    (hi : d.cpus i = .inside op p) (hr : p.run d.shared = .ok (t, a)) : ∃ fs, rets fs = rets es ∧
      Run L ok c fs
        { d with shared := t, cpus := Function.update d.cpus i (.inside op (.ret a)) } := by
  obtain ⟨gs, hg, h'⟩ : ∃ gs, rets gs = [] ∧ Run L ok d gs _ := run_finish hi hr
  refine ⟨es ++ gs, ?_, h.trans h'⟩
  rw [rets, List.filterMap_append]
  exact (congrArg (rets es ++ ·) hg).trans (List.append_nil _)

/-- A whole call of an idle processor, where the lock is clear. -/
lemma Run.whole {i : ι} {op : ω} {t : σ} {a : α} (h : Run L ok c es d) (hl : d.lock = false)
    (hi : d.cpus i = .idle) (hp : L.pre op ≤ d.held) (hok : ok op d.shared)
    (hr : (L.body op).run d.shared = .ok (t, a)) : ∃ fs e, Run L ok c fs e ∧
      rets fs = rets es ++ [(op, a)] ∧ e.lock = false ∧ e.shared = t ∧ e.cpus = d.cpus ∧
      e.held = L.post op a + (d.held - L.pre op) := by
  have h1 := h.snoc (.call hi hp) nofun
  have h2 := h1.snoc (e := .acquire i op) (.acquire (by simp) hl) fun j op' e => by cases e; exact hok
  obtain ⟨fs, hf, h3⟩ := h2.finish (i := i) (show _ = Cpu.inside op (L.body op) by simp) hr
  have h4 := h3.snoc (e := .release i op a) (.release (by simp)) nofun
  refine ⟨_, _, h4, ?_, rfl, rfl, ?_, rfl⟩
  · rw [rets, List.filterMap_append]
    refine congrArg (· ++ [(op, a)]) (hf.trans ?_)
    simp [rets, List.filterMap_append]
  · simp [← hi]

end Finish

/-! ### A run is one call after the other -/

section Serialize

variable [Fintype ι] {ok : ω → σ → Prop} {inv : σ → Multiset ρ → Prop}
  {c c' : Conf ι σ ε ω α ρ} {S : σ} {H : Multiset ρ}

/-- What a processor has given up for a call that has not taken the lock yet. -/
def wait (L : Locked σ ε ω α ρ) : Cpu σ ε ω α → Multiset ρ
  | .spinning op => L.pre op
  | _ => 0

@[simp] lemma wait_idle : wait L .idle = 0 := rfl

@[simp] lemma wait_spinning (op : ω) : wait L (.spinning op) = L.pre op := rfl

@[simp] lemma wait_inside (op : ω) (p : Prog σ ε α) : wait L (.inside op p) = 0 := rfl

/-- What is held, along with what the calls at the lock have given up. -/
def owed (L : Locked σ ε ω α ρ) (c : Conf ι σ ε ω α ρ) : Multiset ρ :=
  (∑ i, wait L (c.cpus i)) + c.held

lemma sum_update [DecidableEq ι] (f : ι → Cpu σ ε ω α) (i : ι) (x : Cpu σ ε ω α) :
    (∑ j, wait L (Function.update f i x j)) + wait L (f i) = (∑ j, wait L (f j)) + wait L x := by
  have h1 := Finset.add_sum_erase Finset.univ (fun j => wait L (f j)) (Finset.mem_univ i)
  have h2 := Finset.add_sum_erase Finset.univ (fun j => wait L (Function.update f i x j))
    (Finset.mem_univ i)
  have h3 : ∑ j ∈ Finset.univ.erase i, wait L (Function.update f i x j) =
      ∑ j ∈ Finset.univ.erase i, wait L (f j) :=
    Finset.sum_congr rfl fun j hj => by rw [Function.update_of_ne (Finset.ne_of_mem_erase hj)]
  simp only [Function.update_self] at h2
  rw [← h1, ← h2, h3]
  abel

/-- The sum changes only where the processor spins before or after. -/
lemma sum_move [DecidableEq ι] {f : ι → Cpu σ ε ω α} {i : ι} {x : Cpu σ ε ω α} (h : wait L (f i) = 0)
    (hx : wait L x = 0) : ∑ j, wait L (Function.update f i x j) = ∑ j, wait L (f j) := by
  have := sum_update (L := L) f i x
  rwa [h, hx, add_zero, add_zero] at this

/-- The state and the resources of the run of whole calls. A call counts from where it takes the
lock; one that will not return does not count. -/
inductive Sim (L : Locked σ ε ω α ρ) (c : Conf ι σ ε ω α ρ) (S : σ) (H : Multiset ρ) :
    List (ω × α) → Prop
  | free (hl : c.lock = false) (hS : S = c.shared) (hH : H = owed L c) : Sim L c S H []
  | busy {i : ι} {op : ω} {p : Prog σ ε α} {a : α} (hi : c.cpus i = .inside op p)
      (hr : p.run c.shared = .ok (S, a)) (hg : p.Ignores (L.mine (owed L c)) c.shared)
      (hH : H = L.post op a + owed L c) : Sim L c S H [(op, a)]
  | doomed {i : ι} {op : ω} {p : Prog σ ε α} {e : ε} (hi : c.cpus i = .inside op p)
      (hr : p.run c.shared = .error e) (hg : p.Ignores (L.mine (owed L c)) c.shared)
      (hH : H = L.pre op + owed L c) : Sim L c S H []

lemma Sim.keep {out : List (ω × α)} (h : Sim L c S H out) (hs : c'.shared = c.shared)
    (hl : c'.lock = c.lock) (ho : owed L c' = owed L c)
    (hc : ∀ i, (c.cpus i).Inside → c'.cpus i = c.cpus i) : Sim L c' S H out := by
  cases h with
  | free h1 h2 h3 => exact .free (hl.trans h1) (h2.trans hs.symm) (h3.trans ho.symm)
  | @busy i op p a hi hr hg hH =>
    have hi' := hc i (by rw [hi]; exact ⟨op, p⟩)
    exact .busy (hi'.trans hi) (by rw [hs]; exact hr) (by rw [hs, ho]; exact hg) (by rw [ho]; exact hH)
  | @doomed i op p e hi hr hg hH =>
    have hi' := hc i (by rw [hi]; exact ⟨op, p⟩)
    exact .doomed (hi'.trans hi) (by rw [hs]; exact hr) (by rw [hs, ho]; exact hg)
      (by rw [ho]; exact hH)

/-- What is held is part of what the run of whole calls has handed out. -/
lemma Sim.held_le {out : List (ω × α)} (h : Sim L c S H out) : c.held ≤ H := by
  have ho : c.held ≤ owed L c := Multiset.le_add_left _ _
  cases h with
  | free _ _ hH => exact hH ▸ ho
  | busy _ _ _ hH => exact hH ▸ ho.trans (Multiset.le_add_left _ _)
  | doomed _ _ _ hH => exact hH ▸ ho.trans (Multiset.le_add_left _ _)

lemma Sim.write {g : σ → σ} {out : List (ω × α)} (hL : Sound L ok inv) (h : Sim L c S H out)
    (hg : g ∈ L.mine c.held) : ∃ S', Serial L ok S H [.write g] S' H ∧
      Sim L { c with shared := g c.shared } S' H out := by
  have hgo : g ∈ L.mine (owed L c) := hL.mono _ _ (Multiset.le_add_left _ _) hg
  have hser : Serial L ok S H [.write g] (g S) H := .write .nil (hL.mono _ _ h.held_le hg)
  refine ⟨g S, hser, ?_⟩
  cases h with
  | free hl hS hH => exact .free hl (congrArg g hS) hH
  | busy hi hr hp hH =>
    refine .busy hi ?_ (hp.after (hL.comp _) hgo) hH
    rw [hp.run hgo, hr]
    rfl
  | @doomed i op p e hi hr hp hH =>
    refine .doomed hi (e := e) ?_ (hp.after (hL.comp _) hgo) hH
    rw [hp.run hgo, hr]
    rfl

lemma Serial.trans {s t u : σ} {H K M : Multiset ρ} {as bs : List (Act σ ω α)}
    (h : Serial L ok s H as t K) (h' : Serial L ok t K bs u M) : Serial L ok s H (as ++ bs) u M := by
  induction h' with
  | nil =>
    rw [List.append_nil]
    exact h
  | call _ hok hr ih =>
    rw [← List.append_assoc]
    exact .call ih hok hr
  | write _ hg ih =>
    rw [← List.append_assoc]
    exact .write ih hg

lemma Quiet.sim (h : Quiet c) : Sim L c c.shared c.held [] := by
  refine .free h.lock rfl ?_
  simp [owed, h.idle, wait]

/-- A processor inside will not return, whatever the holders of resources do. -/
inductive Stuck (L : Locked σ ε ω α ρ) (c : Conf ι σ ε ω α ρ) : Prop
  | mk {i : ι} {op : ω} {p : Prog σ ε α} {e : ε} (hi : c.cpus i = .inside op p)
    (hr : p.run c.shared = .error e) (hg : p.Ignores (L.mine (owed L c)) c.shared)

lemma Stuck.write {g : σ → σ} (hL : Sound L ok inv) (h : Stuck L c) (hg : g ∈ L.mine c.held) :
    Stuck L { c with shared := g c.shared } := by
  obtain @⟨i, op, p, e, hi, hr, hp⟩ := h
  have hgo : g ∈ L.mine (owed L c) := hL.mono _ _ (Multiset.le_add_left _ _) hg
  refine .mk hi (e := e) ?_ (hp.after (hL.comp _) hgo)
  rw [hp.run hgo, hr]
  rfl

variable [DecidableEq ι]

lemma owed_call [DecidableEq ρ] {i : ι} {op : ω} (h : c.cpus i = .idle) (hp : L.pre op ≤ c.held) :
    owed L { c with cpus := Function.update c.cpus i (.spinning op), held := c.held - L.pre op } =
      owed L c := by
  have hsum := sum_update (L := L) c.cpus i (.spinning op)
  rw [h, wait_idle, wait_spinning, add_zero] at hsum
  simp only [owed]
  rw [hsum, add_assoc, add_tsub_cancel_of_le hp]

lemma owed_acquire {i : ι} {op : ω} (h : c.cpus i = .spinning op) :
    owed L c = L.pre op +
      owed L { c with lock := true, cpus := Function.update c.cpus i (.inside op (L.body op)) } := by
  have hsum := sum_update (L := L) c.cpus i (.inside op (L.body op))
  rw [h, wait_inside, wait_spinning, add_zero] at hsum
  simp only [owed]
  rw [← hsum]
  abel

lemma Sim.acquire {i : ι} {op : ω} {out : List (ω × α)} (hL : Sound L ok inv) (hx : Excl c)
    (h : Sim L c S H out) (hi : inv S H) (hsp : c.cpus i = .spinning op) (hl : c.lock = false)
    (hok : ok op c.shared) : ∃ as S' H' out', Serial L ok S H as S' H' ∧
      Sim L { c with lock := true, cpus := Function.update c.cpus i (.inside op (L.body op)) } S' H'
        out' ∧ out ++ calls as = out' ∧ updates as = [] := by
  have ho := owed_acquire (L := L) hsp
  set d : Conf ι σ ε ω α ρ :=
    { c with lock := true, cpus := Function.update c.cpus i (.inside op (L.body op)) } with hd
  have hdi : d.cpus i = .inside op (L.body op) := Function.update_self ..
  cases h with
  | busy hj => rw [(hx.mover hj).1] at hl; cases hl
  | doomed hj => rw [(hx.mover hj).1] at hl; cases hl
  | free _ hS hH =>
    rw [ho] at hH
    subst hS hH
    have hb := hL.blind _ _ _ hi hok
    cases hr : (L.body op).run c.shared with
    | error e => exact ⟨[], _, _, [], .nil, .doomed hdi hr hb rfl, rfl, rfl⟩
    | ok r =>
      obtain ⟨t, a⟩ := r
      exact ⟨[.call op a], t, _, [(op, a)], .call .nil hok hr, .busy hdi hr hb rfl, rfl, rfl⟩

lemma Sim.step {i : ι} {op : ω} {upd : σ → σ} {k : σ → Prog σ ε α} {out : List (ω × α)}
    (hx : Excl c) (h : Sim L c S H out) (hin : c.cpus i = .inside op (.step upd k)) :
    Sim L { c with
      shared := upd c.shared, cpus := Function.update c.cpus i (.inside op (k c.shared)) } S H out := by
  obtain ⟨hl, hn⟩ := hx.mover hin
  set d : Conf ι σ ε ω α ρ := { c with
    shared := upd c.shared, cpus := Function.update c.cpus i (.inside op (k c.shared)) } with hd
  have hdi : d.cpus i = .inside op (k c.shared) := Function.update_self ..
  have ho : owed L d = owed L c := by
    simp only [owed, hd]
    rw [sum_move (by rw [hin]; rfl) rfl]
  cases h with
  | free hl' => rw [hl] at hl'; cases hl'
  | @busy j op' p a hj hr hg hH =>
    obtain rfl := hn j (by rw [hj]; exact ⟨op', p⟩)
    rw [hin] at hj
    cases hj
    exact .busy hdi hr (by rw [ho]; exact hg.2) (by rw [ho]; exact hH)
  | @doomed j op' p e hj hr hg hH =>
    obtain rfl := hn j (by rw [hj]; exact ⟨op', p⟩)
    rw [hin] at hj
    cases hj
    exact .doomed hdi hr (by rw [ho]; exact hg.2) (by rw [ho]; exact hH)

lemma Sim.release {i : ι} {op : ω} {a : α} {out : List (ω × α)} (hx : Excl c)
    (h : Sim L c S H out) (hin : c.cpus i = .inside op (.ret a)) : out = [(op, a)] ∧
      Sim L { c with
        lock := false, cpus := Function.update c.cpus i .idle, held := L.post op a + c.held } S H
        [] := by
  obtain ⟨hl, hn⟩ := hx.mover hin
  cases h with
  | free hl' => rw [hl] at hl'; cases hl'
  | @doomed j op' p e hj hr hg hH =>
    obtain rfl := hn j (by rw [hj]; exact ⟨op', p⟩)
    rw [hin] at hj
    cases hj
    cases hr
  | @busy j op' p a' hj hr hg hH =>
    obtain rfl := hn j (by rw [hj]; exact ⟨op', p⟩)
    rw [hin] at hj
    cases hj
    cases hr
    refine ⟨rfl, .free rfl rfl ?_⟩
    rw [hH]
    simp only [owed]
    rw [sum_move (by rw [hin]; rfl) rfl]
    abel

variable [DecidableEq ρ]

/-- One step is no step of the run of whole calls, or one. -/
lemma step_sim {out : List (ω × α)} {e : Event ι σ ω α} (hL : Sound L ok inv) (hx : Excl c)
    (h : Sim L c S H out) (hi : inv S H) (hs : Step L c e c')
    (hok : ∀ i op, e = .acquire i op → ok op c.shared) :
    ∃ as S' H' out', Serial L ok S H as S' H' ∧ Sim L c' S' H' out' ∧
      out ++ calls as = rets [e] ++ out' ∧ updates as = writes [e] := by
  cases hs with
  | @call i op hc hp =>
    refine ⟨[], S, H, out, .nil, h.keep rfl rfl (owed_call hc hp) fun j hj => ?_, by simp [calls, rets],
      rfl⟩
    refine Function.update_of_ne ?_ _ _
    rintro rfl
    rw [hc] at hj
    exact not_inside_idle hj
  | spin _ _ => exact ⟨[], S, H, out, .nil, h, by simp [calls, rets], rfl⟩
  | @acquire i op hsp hl =>
    obtain ⟨as, S', H', out', h1, h2, h3, h4⟩ := h.acquire hL hx hi hsp hl (hok i op rfl)
    exact ⟨as, S', H', out', h1, h2, h3, h4⟩
  | step hin => exact ⟨[], S, H, out, .nil, h.step hx hin, by simp [calls, rets], rfl⟩
  | release hin =>
    obtain ⟨rfl, h'⟩ := h.release hx hin
    exact ⟨[], S, H, [], .nil, h', rfl, rfl⟩
  | write hg =>
    obtain ⟨S', h1, h2⟩ := h.write hL hg
    exact ⟨_, S', H, out, h1, h2, by simp [calls, rets], rfl⟩

/-- **Whole calls.** A run comes to the same as calls one after the other, with the results in the
order in which they are returned and the updates of the holders in the order they are made. -/
lemma run_serial {c₀ : Conf ι σ ε ω α ρ} {es : List (Event ι σ ω α)} (hL : Sound L ok inv)
    (h₀ : Quiet c₀) (hi : inv c₀.shared c₀.held) (h : Run L ok c₀ es c) :
    ∃ as S H out, Serial L ok c₀.shared c₀.held as S H ∧ Sim L c S H out ∧
      calls as = rets es ++ out ∧ updates as = writes es := by
  induction h with
  | nil => exact ⟨[], _, _, [], .nil, h₀.sim, rfl, rfl⟩
  | @snoc es c c' e hr hs hok ih =>
    obtain ⟨as, S, H, out, h1, h2, h3, h4⟩ := ih
    obtain ⟨bs, S', H', out', k1, k2, k3, k4⟩ := step_sim hL (run_excl h₀ hr) h2 (h1.inv hL hi) hs hok
    refine ⟨as ++ bs, S', H', out', h1.trans k1, k2, ?_, ?_⟩
    · calc calls (as ++ bs) = calls as ++ calls bs := List.filterMap_append ..
        _ = rets es ++ (out ++ calls bs) := by rw [h3, List.append_assoc]
        _ = rets (es ++ [e]) ++ out' := by
          rw [k3, ← List.append_assoc]
          exact congrArg (· ++ out') (List.filterMap_append ..).symm
    · calc updates (as ++ bs) = updates as ++ updates bs := List.filterMap_append ..
        _ = writes (es ++ [e]) := by
          rw [h4, k4]
          exact (List.filterMap_append ..).symm

/-- A processor that stops keeps the lock: no other gets in. -/
lemma step_stuck {e : Event ι σ ω α} (hL : Sound L ok inv) (hx : Excl c) (h : Stuck L c)
    (hs : Step L c e c') : Stuck L c' ∧ rets [e] = [] := by
  have h' := h
  obtain @⟨i, op, p, x, hi, hr, hg⟩ := h'
  obtain ⟨hl, hn⟩ := hx.mover hi
  have hin : (c.cpus i).Inside := by
    rw [hi]
    exact ⟨op, p⟩
  cases hs with
  | @call j op' hj hp =>
    have hij : i ≠ j := by
      rintro rfl
      rw [hj] at hin
      exact not_inside_idle hin
    have hi' : Function.update c.cpus j (.spinning op') i = .inside op p :=
      (Function.update_of_ne hij _ _).trans hi
    exact ⟨.mk (e := x) hi' hr (by rw [owed_call hj hp]; exact hg), rfl⟩
  | spin _ _ => exact ⟨h, rfl⟩
  | acquire _ hl' => rw [hl] at hl'; cases hl'
  | @step j op' upd k hj =>
    obtain rfl := hn j (by rw [hj]; exact ⟨op', _⟩)
    rw [hi] at hj
    cases hj
    refine ⟨.mk (e := x) (Function.update_self ..) hr ?_, rfl⟩
    simp only [owed]
    rw [sum_move (by rw [hi]; rfl) rfl]
    exact hg.2
  | @release j op' a hj =>
    obtain rfl := hn j (by rw [hj]; exact ⟨op', _⟩)
    rw [hi] at hj
    cases hj
    cases hr
  | write hw => exact ⟨h.write hL hw, rfl⟩

lemma run_stuck {es : List (Event ι σ ω α)} (hL : Sound L ok inv) (hx : Excl c) (h : Stuck L c)
    (hr : Run L ok c es c') : Excl c' ∧ Stuck L c' ∧ rets es = [] := by
  induction hr with
  | nil => exact ⟨hx, h, rfl⟩
  | snoc _ hs _ ih =>
    obtain ⟨hx', h', hes⟩ := ih
    obtain ⟨h'', he⟩ := step_stuck hL hx' h' hs
    refine ⟨step_excl hx' hs, h'', ?_⟩
    rw [rets, List.filterMap_append]
    exact List.append_eq_nil_iff.mpr ⟨hes, he⟩

/-- Where the lock is clear the state is that of the run of whole calls. -/
lemma run_inv {c₀ : Conf ι σ ε ω α ρ} {es : List (Event ι σ ω α)} (hL : Sound L ok inv)
    (h₀ : Quiet c₀) (hi : inv c₀.shared c₀.held) (h : Run L ok c₀ es c) (hl : c.lock = false) :
    inv c.shared (owed L c) := by
  obtain ⟨as, S, H, out, h1, h2, -, -⟩ := run_serial hL h₀ hi h
  have hI := h1.inv hL hi
  have hx := run_excl h₀ h
  cases h2 with
  | free _ hS hH => rwa [hS, hH] at hI
  | busy hj => rw [(hx.mover hj).1] at hl; cases hl
  | doomed hj => rw [(hx.mover hj).1] at hl; cases hl

/-- A call that cannot return takes the lock for good. -/
lemma run_blocked {c₀ d : Conf ι σ ε ω α ρ} {es fs : List (Event ι σ ω α)} {i : ι} {op : ω} {e : ε}
    (hL : Sound L ok inv) (h₀ : Quiet c₀) (hi : inv c₀.shared c₀.held) (h : Run L ok c₀ es c)
    (hok : ok op c.shared) (hs : Step L c (.acquire i op) c')
    (hr : (L.body op).run c.shared = .error e) (h' : Run L ok c' fs d) :
    d.lock = true ∧ rets fs = [] := by
  have hx := run_excl h₀ h
  have hx' := step_excl hx hs
  have hst : Stuck L c' := by
    cases hs with
    | acquire hsp hl =>
      have hI := run_inv hL h₀ hi h hl
      rw [owed_acquire hsp] at hI
      exact .mk (Function.update_self ..) hr (hL.blind _ _ _ hI hok)
  obtain ⟨hxd, ⟨hi, -, -⟩, hrets⟩ := run_stuck hL hx' hst h'
  exact ⟨(hxd.mover hi).1, hrets⟩

end Serialize

end Silkware.SpinLock
