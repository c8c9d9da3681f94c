import Mathlib.Data.Finset.Card
import Mathlib.Data.Fintype.Basic
import Mathlib.Data.Fintype.Card
import Mathlib.Tactic.Common

/-!
The start of the other processors in `arch/x86_64/mp.c`.

Each of them sets itself up in `mp_start` and increments `cpus_ready`, which starts at one; `mp_init`
waits on the first processor until the count is `ncpus`. The increment loads, adds and stores, and
others may store in between.
-/

namespace Silkware.MpStart

/-- Where a processor is in `mp_start`: before the increment, between its load and its store, or
behind it. -/
inductive Phase
  | starting
  | loaded (v : ℕ)
  | ready
  deriving DecidableEq

/-- `passed` once `mp_init` has left its loop. -/
structure State (ι : Type) where
  cpusReady : ℕ
  phase : ι → Phase
  passed : Bool

def init (ι : Type) : State ι := ⟨1, fun _ => .starting, false⟩

/-- A store tells the value loaded and the value that it overwrites. -/
inductive Event (ι : Type)
  | load (i : ι)
  | store (i : ι) (v cur : ℕ)
  | wait
  | pass

variable {ι : Type} [Fintype ι] {s t u : State ι} {es fs : List (Event ι)}

/-- `ι` are the processors that `mp_init` starts, so that `ncpus` is one more. -/
def ncpus (ι : Type) [Fintype ι] : ℕ := Fintype.card ι + 1

inductive Step [DecidableEq ι] (s : State ι) : Event ι → State ι → Prop
  | load {i : ι} (h : s.phase i = .starting) :
      Step s (.load i) { s with phase := Function.update s.phase i (.loaded s.cpusReady) }
  | store {i : ι} {v : ℕ} (h : s.phase i = .loaded v) :
      Step s (.store i v s.cpusReady)
        { s with cpusReady := v + 1, phase := Function.update s.phase i .ready }
  | wait (h : s.cpusReady ≠ ncpus ι) (hp : s.passed = false) : Step s .wait s
  | pass (h : s.cpusReady = ncpus ι) (hp : s.passed = false) : Step s .pass { s with passed := true }

inductive Run [DecidableEq ι] (s : State ι) : List (Event ι) → State ι → Prop
  | nil : Run s [] s
  | snoc {es : List (Event ι)} {t u : State ι} {e : Event ι} (h : Run s es t) (hs : Step t e u) :
      Run s (es ++ [e]) u

/-- No store overwrites another value than the one that was loaded. -/
def Clean (es : List (Event ι)) : Prop := ∀ i v cur, .store i v cur ∈ es → v = cur

/-- The processors that have done their increment. -/
def done (s : State ι) : ℕ := (Finset.univ.filter fun i => s.phase i = .ready).card

lemma done_le (s : State ι) : done s ≤ Fintype.card ι := Finset.card_filter_le _ _

lemma done_all : done s = Fintype.card ι ↔ ∀ i, s.phase i = .ready := by
  rw [done, ← Finset.card_univ, Finset.card_filter_eq_iff]
  simp

lemma done_load [DecidableEq ι] {i : ι} {v : ℕ} (h : s.phase i = .starting) :
    done { s with phase := Function.update s.phase i (.loaded v) } = done s := by
  refine congrArg Finset.card (Finset.filter_congr fun j _ => ?_)
  by_cases hj : j = i
  · subst hj
    simp [h]
  · simp [hj]

lemma done_store [DecidableEq ι] {i : ι} {v n : ℕ} (h : s.phase i = .loaded v) :
    done { s with cpusReady := n, phase := Function.update s.phase i .ready } = done s + 1 := by
  have hi : i ∉ Finset.univ.filter fun j => s.phase j = .ready := by simp [h]
  rw [done, done, ← Finset.card_insert_of_notMem hi]
  congr 1
  ext j
  by_cases hj : j = i
  · subst hj
    simp
  · simp [hj]

/-! ### What the count can be -/

/-- The count is at most what it should be. A value that was loaded is as large only if nothing
has been stored since. -/
structure Inv (s : State ι) : Prop where
  le : s.cpusReady ≤ done s + 1
  loaded : ∀ i v, s.phase i = .loaded v → v ≤ done s + 1 ∧ (v = done s + 1 → s.cpusReady = v)
  passed : s.passed = true → s.cpusReady = ncpus ι

/-- A full count is exact. -/
lemma Inv.full (h : Inv s) (hn : s.cpusReady = ncpus ι) :
    (∀ i, s.phase i = .ready) ∧ s.cpusReady = done s + 1 := by
  have h1 := h.le
  have h2 := done_le s
  unfold ncpus at hn
  exact ⟨done_all.mp (by omega), by omega⟩

lemma init_inv : Inv (init ι) := by
  refine ⟨Nat.le_add_left _ _, ?_, ?_⟩
  · rintro i v ⟨⟩
  · rintro ⟨⟩

variable [DecidableEq ι]

lemma step_inv {e : Event ι} (h : Inv s) (hs : Step s e t) : Inv t := by
  cases hs with
  | @load i hi =>
    have hd : done { s with phase := Function.update s.phase i (.loaded s.cpusReady) } = done s :=
      done_load hi
    refine ⟨by rw [hd]; exact h.le, fun j v hj => ?_, fun hp => ?_⟩
    · rw [hd]
      by_cases hji : j = i
      · subst hji
        simp only [Function.update_self, Phase.loaded.injEq] at hj
        subst hj
        exact ⟨h.le, fun _ => rfl⟩
      · simp only [Function.update_of_ne hji] at hj
        exact h.loaded j v hj
    · have := (h.full (h.passed hp)).1 i
      rw [hi] at this
      cases this
  | @store i v hi =>
    have hd : done { s with cpusReady := v + 1, phase := Function.update s.phase i .ready } =
        done s + 1 := done_store hi
    obtain ⟨hv, hvr⟩ := h.loaded i v hi
    refine ⟨by rw [hd]; simp only; omega, fun j w hj => ?_, fun hp => ?_⟩
    · rw [hd]
      by_cases hji : j = i
      · subst hji
        simp only [Function.update_self] at hj
        cases hj
      · simp only [Function.update_of_ne hji] at hj
        have := (h.loaded j w hj).1
        simp only
        omega
    · have := (h.full (h.passed hp)).1 i
      rw [hi] at this
      cases this
  | wait _ _ => exact h
  | pass hn hp => exact ⟨h.le, h.loaded, fun _ => hn⟩

lemma run_inv (h : Inv s) (hr : Run s es t) : Inv t := by
  induction hr with
  | nil => exact h
  | snoc _ hs ih => exact step_inv ih hs

/-- A store keeps the count exact if it is clean, and makes it too small for good otherwise. -/
lemma step_exact {e : Event ι} (h : Inv s) (hs : Step s e t) :
    t.cpusReady = done t + 1 ↔ s.cpusReady = done s + 1 ∧ Clean [e] := by
  cases hs with
  | @load i hi =>
    have hd : done { s with phase := Function.update s.phase i (.loaded s.cpusReady) } = done s :=
      done_load hi
    rw [hd]
    simp [Clean]
  | @store i v hi =>
    have hd : done { s with cpusReady := v + 1, phase := Function.update s.phase i .ready } =
        done s + 1 := done_store hi
    obtain ⟨hv, hvr⟩ := h.loaded i v hi
    have hle := h.le
    rw [hd]
    have hc : Clean [Event.store i v s.cpusReady] ↔ v = s.cpusReady := by
      constructor
      · intro hc
        exact hc i v _ (by simp)
      · intro hc j w cur hm
        simp only [List.mem_singleton, Event.store.injEq] at hm
        obtain ⟨-, rfl, rfl⟩ := hm
        exact hc
    rw [hc]
    change v + 1 = done s + 1 + 1 ↔ _
    constructor
    · intro he
      have := hvr (by omega)
      omega
    · omega
  | wait _ _ => simp [Clean]
  | pass _ _ => simp [Clean, done]

lemma run_exact (hr : Run (init ι) es t) : t.cpusReady = done t + 1 ↔ Clean es := by
  induction hr with
  | nil => simp [Clean, init, done]
  | @snoc es t u e hr hs ih =>
    rw [step_exact (run_inv init_inv hr) hs, ih]
    constructor
    · rintro ⟨h1, h2⟩ i v cur hm
      rcases List.mem_append.mp hm with hm | hm
      · exact h1 i v cur hm
      · exact h2 i v cur hm
    · intro h
      exact ⟨fun i v cur hm => h i v cur (List.mem_append_left _ hm),
        fun i v cur hm => h i v cur (List.mem_append_right _ hm)⟩

lemma Run.trans (h : Run s es t) (h' : Run t fs u) : Run s (es ++ fs) u := by
  induction h' with
  | nil =>
    rw [List.append_nil]
    exact h
  | snoc _ hs ih =>
    rw [← List.append_assoc]
    exact .snoc ih hs

/-- **The barrier.** In every interleaving `mp_init` goes on only after every processor has done
its increment. Once all have, the count is `ncpus` exactly if no increment overlapped another; a
single update that is lost keeps `mp_init` in its loop for ever. -/
theorem barrier (hr : Run (init ι) es s) :
    (s.passed = true → ∀ i, s.phase i = .ready) ∧
      ((∀ i, s.phase i = .ready) → (s.cpusReady = ncpus ι ↔ Clean es)) ∧
      (¬ Clean es → ∀ fs t, Run s fs t → t.cpusReady ≠ ncpus ι ∧ t.passed = false) := by
  have hi := run_inv init_inv hr
  refine ⟨fun hp => (hi.full (hi.passed hp)).1, fun hall => ?_, fun hc fs t hr' => ?_⟩
  · rw [← run_exact hr, done_all.mpr hall, ncpus]
  · have hrt := hr.trans hr'
    have hit := run_inv init_inv hrt
    have hne : t.cpusReady ≠ ncpus ι := fun hn => by
      have hcl := (run_exact hrt).mp (hit.full hn).2
      exact hc fun i v cur hm => hcl i v cur (List.mem_append_left _ hm)
    refine ⟨hne, ?_⟩
    cases hp : t.passed with
    | false => rfl
    | true => exact absurd (hit.passed hp) hne

/-! ### Every count is possible -/

/-- The count is at least two as soon as one processor has stored. -/
structure Low (s : State ι) : Prop where
  pos : 1 ≤ s.cpusReady
  loaded : ∀ i v, s.phase i = .loaded v → 1 ≤ v
  two : ∀ i, s.phase i = .ready → 2 ≤ s.cpusReady

lemma step_low {e : Event ι} (h : Low s) (hs : Step s e t) : Low t := by
  cases hs with
  | @load i hi =>
    refine ⟨h.pos, fun j v hj => ?_, fun j hj => ?_⟩
    · by_cases hji : j = i
      · subst hji
        simp only [Function.update_self, Phase.loaded.injEq] at hj
        exact hj ▸ h.pos
      · simp only [Function.update_of_ne hji] at hj
        exact h.loaded j v hj
    · by_cases hji : j = i
      · subst hji
        simp at hj
      · simp only [Function.update_of_ne hji] at hj
        exact h.two j hj
  | @store i v hi =>
    have hv := h.loaded i v hi
    refine ⟨Nat.le_add_left _ _, fun j w hj => ?_, fun _ _ => Nat.succ_le_succ hv⟩
    by_cases hji : j = i
    · subst hji
      simp at hj
    · simp only [Function.update_of_ne hji] at hj
      exact h.loaded j w hj
  | wait _ _ => exact h
  | pass _ _ => exact ⟨h.pos, h.loaded, h.two⟩

lemma run_low (hr : Run (init ι) es s) : Low s := by
  induction hr with
  | nil => exact ⟨le_refl _, by simp [init], by simp [init]⟩
  | snoc _ hs ih => exact step_low ih hs

section Schedule

variable {l : List ι} {f : ι → Phase} {i j : ι} {p q : Phase}

omit [Fintype ι] in
lemma update_off (hj : j ∈ l) (hi : i ∉ l) (h : f j = q) : Function.update f i p j = q :=
  (Function.update_of_ne (ne_of_mem_of_not_mem hj hi) _ _).trans h

/-- The processors of the list are moved to one phase. -/
def mark (l : List ι) (p : Phase) (f : ι → Phase) (i : ι) : Phase := if i ∈ l then p else f i

omit [Fintype ι] in
lemma mark_cons (f : ι → Phase) : mark (i :: l) p f = mark l p (Function.update f i p) := by
  funext j
  by_cases hj : j = i
  · subst hj
    simp [mark]
  · simp [mark, hj]

/-- Processors that all load the count before any of them stores. -/
lemma load_all (hl : l.Nodup) (hs : ∀ i ∈ l, s.phase i = .starting) :
    ∃ es, Run s es { s with phase := mark l (.loaded s.cpusReady) s.phase } := by
  induction l generalizing s with
  | nil => exact ⟨[], .nil⟩
  | cons i l ih =>
    obtain ⟨hi, hl⟩ := List.nodup_cons.mp hl
    obtain ⟨es, hr⟩ := ih (s := { s with phase := Function.update s.phase i (.loaded s.cpusReady) }) hl
      fun j hj => update_off hj hi (hs j (List.mem_cons_of_mem i hj))
    have h1 : Run s [.load i] _ := .snoc .nil (.load (hs i List.mem_cons_self))
    refine ⟨[.load i] ++ es, ?_⟩
    rw [mark_cons]
    exact h1.trans hr

/-- The stores of processors that have loaded the same value. -/
lemma store_all {v : ℕ} (hl : l.Nodup) (hs : ∀ i ∈ l, s.phase i = .loaded v) :
    ∃ es, Run s es { s with
      cpusReady := if l = [] then s.cpusReady else v + 1, phase := mark l .ready s.phase } := by
  induction l generalizing s with
  | nil => exact ⟨[], .nil⟩
  | cons i l ih =>
    obtain ⟨hi, hl⟩ := List.nodup_cons.mp hl
    obtain ⟨es, hr⟩ := ih (s := { s with
        cpusReady := v + 1, phase := Function.update s.phase i .ready }) hl
      fun j hj => update_off hj hi (hs j (List.mem_cons_of_mem i hj))
    have h1 : Run s [.store i v s.cpusReady] _ := .snoc .nil (.store (hs i List.mem_cons_self))
    refine ⟨[.store i v s.cpusReady] ++ es, ?_⟩
    rw [mark_cons, if_neg (List.cons_ne_nil i l)]
    simp only [ite_self] at hr
    exact h1.trans hr

/-- Processors that increment the count one after the other. -/
lemma each (hl : l.Nodup) (hs : ∀ i ∈ l, s.phase i = .starting) :
    ∃ es, Run s es { s with
      cpusReady := s.cpusReady + l.length, phase := mark l .ready s.phase } := by
  induction l generalizing s with
  | nil => exact ⟨[], .nil⟩
  | cons i l ih =>
    obtain ⟨hi, hl⟩ := List.nodup_cons.mp hl
    obtain ⟨es, hr⟩ := ih (s := { s with
        cpusReady := s.cpusReady + 1, phase := Function.update s.phase i .ready }) hl
      fun j hj => update_off hj hi (hs j (List.mem_cons_of_mem i hj))
    have h1 : Run s [.load i] _ := .snoc .nil (.load (hs i List.mem_cons_self))
    have h2 := h1.snoc (e := .store i s.cpusReady s.cpusReady) (.store (Function.update_self ..))
    simp only [Function.update_idem] at h2
    refine ⟨[.load i] ++ [.store i s.cpusReady s.cpusReady] ++ es, ?_⟩
    rw [mark_cons, List.length_cons, Nat.add_comm l.length, ← Nat.add_assoc]
    exact h2.trans hr

end Schedule

/-- **Every count.** The count that is left when all processors have done their increment can be
any number from two to `ncpus`, and no other. -/
theorem every_count (h : 0 < Fintype.card ι) (m : ℕ) :
    (∃ es, ∃ s : State ι, Run (init ι) es s ∧ (∀ i, s.phase i = .ready) ∧ s.cpusReady = m) ↔
      2 ≤ m ∧ m ≤ ncpus ι := by
  constructor
  · rintro ⟨es, s, hr, hall, rfl⟩
    obtain ⟨i⟩ := Fintype.card_pos_iff.mp h
    have hle := (run_inv init_inv hr).le
    rw [done_all.mpr hall] at hle
    exact ⟨(run_low hr).two i (hall i), hle⟩
  · rintro ⟨h2, hm⟩
    unfold ncpus at hm
    -- the processors of the first part lose all updates but one
    obtain ⟨l, r, hl, hlen, hnd, hmem⟩ : ∃ l r : List ι, l ≠ [] ∧ r.length = m - 2 ∧ (l ++ r).Nodup ∧
        ∀ i, i ∈ l ++ r := by
      have hcard : (Finset.univ : Finset ι).toList.length = Fintype.card ι := Finset.length_toList _
      refine ⟨(Finset.univ : Finset ι).toList.take (Fintype.card ι - (m - 2)),
        (Finset.univ : Finset ι).toList.drop (Fintype.card ι - (m - 2)), fun he => ?_, ?_, ?_,
        fun i => ?_⟩
      · have := congrArg List.length he
        rw [List.length_take, hcard, List.length_nil] at this
        omega
      · rw [List.length_drop, hcard]
        omega
      · rw [List.take_append_drop]
        exact Finset.nodup_toList _
      · rw [List.take_append_drop]
        simp
    obtain ⟨hnl, hnr, hdis⟩ := List.nodup_append.mp hnd
    obtain ⟨es₁, h1⟩ := load_all (s := init ι) hnl fun _ _ => rfl
    obtain ⟨es₂, h2'⟩ := store_all (v := 1) (s := { init ι with
      phase := mark l (.loaded (init ι).cpusReady) (init ι).phase }) hnl fun i hi => by
        simp [mark, hi, init]
    obtain ⟨es₃, h3⟩ := each (l := r) (s := { init ι with
        cpusReady := if l = [] then (init ι).cpusReady else 1 + 1
        phase := mark l .ready (mark l (.loaded (init ι).cpusReady) (init ι).phase) }) hnr
      fun i hi => by
        have : i ∉ l := fun hil => hdis i hil i hi rfl
        simp [mark, this, init]
    refine ⟨_, _, (h1.trans h2').trans h3, fun i => ?_, ?_⟩
    · rcases List.mem_append.mp (hmem i) with hi | hi
      · by_cases hir : i ∈ r <;> simp [mark, hi, hir]
      · simp [mark, hi]
    · simp only [if_neg hl, hlen]
      omega

/-- Two processors load the count before either stores it; `mp_init` never goes on. -/
theorem barrier_lost : ∃ es, ∃ s : State (Fin 2), Run (init (Fin 2)) es s ∧
    (∀ i, s.phase i = .ready) ∧ s.cpusReady = 2 ∧
    (s.passed = true → ∀ i, s.phase i = .ready) ∧
      ((∀ i, s.phase i = .ready) → (s.cpusReady = ncpus (Fin 2) ↔ Clean es)) ∧
      (¬ Clean es → ∀ fs t, Run s fs t → t.cpusReady ≠ ncpus (Fin 2) ∧ t.passed = false) := by
  obtain ⟨es₁, h1⟩ := load_all (s := init (Fin 2)) (l := [0, 1]) (by decide) fun _ _ => rfl
  obtain ⟨es₂, h2⟩ := store_all (v := 1) (l := [0, 1]) (s := { init (Fin 2) with
    phase := mark [0, 1] (.loaded (init (Fin 2)).cpusReady) (init (Fin 2)).phase }) (by decide)
    (by decide)
  exact ⟨_, _, h1.trans h2, by decide, rfl, barrier (h1.trans h2)⟩

theorem every_count_three : (∃ es, ∃ s : State (Fin 3), Run (init (Fin 3)) es s ∧
    (∀ i, s.phase i = .ready) ∧ s.cpusReady = 3) ↔ 2 ≤ 3 ∧ 3 ≤ ncpus (Fin 3) :=
  every_count (by decide) 3

end Silkware.MpStart
