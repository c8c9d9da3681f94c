import Mathlib.Data.List.Nodup
import Mathlib.Logic.Function.Basic
import Silkware.Kern

/-!
Calls of `proc_new` on many CPUs at once.

The CPUs share `pid_cur`, its lock and `procmap`. A step is what one CPU does between two
accesses to these; a CPU that finds the lock taken stays where it is. What else a process is
made of, `procp_init` and `proc_pages_init` fill in: any value of a type `α`.
-/

namespace Silkware.ProcNew

/-- Where a CPU is in `proc_new`, with the variables `pid` and `p.pid` that it has set. -/
inductive Pc
  | idle
  | locked
  | counted (pid : ℕ)
  | unlocked (pid : ℕ)
  | named (pid ppid : ℕ)
  | stored (ppid : ℕ)
  deriving DecidableEq

/-- `struct proc` -/
structure Proc (α : Type) where
  pid : ℕ
  rest : α

/-- The shared variables, where each CPU is, and what the calls have returned. -/
structure St (ι α : Type) where
  pidCur : ℕ
  lock : Bool
  procmap : ℕ → Option (Proc α)
  pc : ι → Pc
  returned : List ℕ

def start (ι α : Type) : St ι α := ⟨0, false, fun _ => none, fun _ => .idle, []⟩

variable {ι α : Type} [DecidableEq ι]

def St.goto (s : St ι α) (c : ι) (x : Pc) : St ι α := { s with pc := Function.update s.pc c x }

/-- One step of CPU `c`; `rest` is what a record that it stores now holds besides the pid. -/
def step (s : St ι α) (c : ι) (rest : α) : St ι α :=
  match s.pc c with
  | .idle => if s.lock then s else { s.goto c .locked with lock := true }
  | .locked =>
    let pid := (s.pidCur + 1) % 2 ^ 64
    { s.goto c (.counted pid) with pidCur := pid }
  | .counted pid => { s.goto c (.unlocked pid) with lock := false }
  | .unlocked pid => s.goto c (.named pid s.pidCur)
  | .named pid ppid =>
    { s.goto c (.stored ppid) with procmap := Function.update s.procmap pid (some ⟨ppid, rest⟩) }
  | .stored ppid => { s.goto c .idle with returned := s.returned ++ [ppid] }

/-- An interleaving: the CPUs in the order of their steps. -/
def run (s : St ι α) (l : List (ι × α)) : St ι α := l.foldl (fun s x => step s x.1 x.2) s

/-- A step is no increment, or no CPU is between its increment and its read of `pid_cur`, and
the number does not wrap around. -/
def Alone (s : St ι α) (c : ι) : Prop :=
  s.pc c = .locked → s.pidCur + 1 < 2 ^ 64 ∧ ∀ d pid, s.pc d ≠ .unlocked pid

/-- Every step of the interleaving meets `Alone`. -/
def AllAlone : St ι α → List (ι × α) → Prop
  | _, [] => True
  | s, x :: l => Alone s x.1 ∧ AllAlone (step s x.1 x.2) l

/-- What the calls promise: no pid is returned twice, and every record is stored under its
own pid. -/
structure Identified (s : St ι α) : Prop where
  nodup : s.returned.Nodup
  records : ∀ k p, s.procmap k = some p → p.pid = k

/-! ### The invariant -/

/-- The number that a call has drawn. -/
def Pc.ticket : Pc → Option ℕ
  | .idle | .locked => none
  | .counted pid | .unlocked pid | .named pid _ => some pid
  | .stored ppid => some ppid

def Pc.holds : Pc → Bool
  | .locked | .counted _ => true
  | _ => false

structure Inv (s : St ι α) : Prop extends Identified s where
  held : ∀ c, (s.pc c).holds → s.lock = true
  owner : ∀ c d, (s.pc c).holds → (s.pc d).holds → c = d
  current : ∀ c pid, s.pc c = .counted pid ∨ s.pc c = .unlocked pid → pid = s.pidCur
  named : ∀ c pid ppid, s.pc c = .named pid ppid → ppid = pid
  ticket : ∀ c t, (s.pc c).ticket = some t → t ≤ s.pidCur ∧ t ∉ s.returned
  distinct : ∀ c d t, (s.pc c).ticket = some t → (s.pc d).ticket = some t → c = d
  returned : ∀ t ∈ s.returned, t ≤ s.pidCur

variable {s : St ι α} {c : ι} {rest : α}

omit [DecidableEq ι] in
lemma Inv.start : Inv (start ι α) := by
  refine ⟨⟨List.nodup_nil, nofun⟩, ?_, ?_, ?_, ?_, ?_, ?_, ?_⟩ <;> simp [ProcNew.start, Pc.holds, Pc.ticket]

lemma goto_pc (s : St ι α) (c d : ι) (x : Pc) :
    (s.goto c x).pc d = if d = c then x else s.pc d := Function.update_apply _ _ _ _

lemma goto_cases {x : Pc} (P : Pc → Prop) {d : ι} (h : P ((s.goto c x).pc d)) :
    d = c ∧ P x ∨ d ≠ c ∧ P (s.pc d) := by
  rw [goto_pc] at h
  split at h
  · exact Or.inl ⟨‹_›, h⟩
  · exact Or.inr ⟨‹_›, h⟩

/-- The number `t` is at the disposal of CPU `c`. -/
def Free (s : St ι α) (c : ι) (t : ℕ) : Prop :=
  t ≤ s.pidCur ∧ t ∉ s.returned ∧ ∀ d, (s.pc d).ticket = some t → d = c

omit [DecidableEq ι] in
lemma Inv.free (h : Inv s) {t : ℕ} (ht : (s.pc c).ticket = some t) : Free s c t :=
  ⟨(h.ticket c t ht).1, (h.ticket c t ht).2, fun d hd => h.distinct d c t hd ht⟩

/-- A CPU moves on, with the lock only if nobody else has it, and a number only if it is free. -/
lemma Inv.goto (h : Inv s) {x : Pc}
    (hh : x.holds → s.lock = true ∧ ∀ d, (s.pc d).holds → d = c)
    (hc : ∀ pid, x = .counted pid ∨ x = .unlocked pid → pid = s.pidCur)
    (hn : ∀ pid ppid, x = .named pid ppid → ppid = pid)
    (ht : ∀ t, x.ticket = some t → Free s c t) : Inv (s.goto c x) := by
  refine ⟨⟨h.nodup, h.records⟩, fun d hd => ?_, fun d e hd he => ?_, fun d pid hd => ?_,
    fun d pid ppid hd => ?_, fun d t hd => ?_, fun d e t hd he => ?_, h.returned⟩
  · rcases goto_cases (·.holds = true) hd with ⟨-, hx⟩ | ⟨-, hd⟩
    · exact (hh hx).1
    · exact h.held d hd
  · rcases goto_cases (·.holds = true) hd with ⟨h1, hx⟩ | ⟨-, hd'⟩ <;>
      rcases goto_cases (·.holds = true) he with ⟨h2, hy⟩ | ⟨-, he'⟩
    · rw [h1, h2]
    · rw [h1, (hh hx).2 e he']
    · rw [h2, (hh hy).2 d hd']
    · exact h.owner d e hd' he'
  · rcases goto_cases (fun y => y = .counted pid ∨ y = .unlocked pid) hd with ⟨-, hx⟩ | ⟨-, hd⟩
    · exact hc pid hx
    · exact h.current d pid hd
  · rcases goto_cases (· = .named pid ppid) hd with ⟨-, hx⟩ | ⟨-, hd⟩
    · exact hn pid ppid hx
    · exact h.named d pid ppid hd
  · rcases goto_cases (·.ticket = some t) hd with ⟨-, hx⟩ | ⟨-, hd⟩
    · exact ⟨(ht t hx).1, (ht t hx).2.1⟩
    · exact h.ticket d t hd
  · rcases goto_cases (·.ticket = some t) hd with ⟨h1, hx⟩ | ⟨-, hd'⟩ <;>
      rcases goto_cases (·.ticket = some t) he with ⟨h2, hy⟩ | ⟨-, he'⟩
    · rw [h1, h2]
    · rw [h1, (ht t hx).2.2 e he']
    · rw [h2, (ht t hy).2.2 d hd']
    · exact h.distinct d e t hd' he'

/-! ### The steps -/

/-- `ACQUIRE` gets the lock. -/
lemma Inv.acquire (h : Inv s) (hl : s.lock = false) :
    Inv { s.goto c .locked with lock := true } := by
  have hfree : ∀ d, (s.pc d).holds → d = c := by
    intro d hd
    rw [h.held d hd] at hl
    cases hl
  have h' : Inv { s with lock := true } := { h with held := fun _ _ => rfl }
  exact h'.goto (fun _ => ⟨rfl, hfree⟩) (by simp) (by simp) (by simp [Pc.ticket])

/-- `pid = ++pid_cur`, while no other call has still to read `pid_cur`. -/
lemma Inv.count (h : Inv s) (hpc : s.pc c = .locked) (hno : ∀ d pid, s.pc d ≠ .unlocked pid) :
    Inv { s.goto c (.counted (s.pidCur + 1)) with pidCur := s.pidCur + 1 } := by
  have hc : (s.pc c).holds = true := by rw [hpc]; rfl
  have h' : Inv { s with pidCur := s.pidCur + 1 } := { h with
    current := by
      rintro d pid (hd | hd)
      · have hd' : (s.pc d).holds = true := by rw [hd]; rfl
        rw [h.owner d c hd' hc, hpc] at hd
        cases hd
      · exact absurd hd (hno d pid)
    ticket := fun d t hd => ⟨Nat.le_succ_of_le (h.ticket d t hd).1, (h.ticket d t hd).2⟩
    returned := fun t ht => Nat.le_succ_of_le (h.returned t ht) }
  refine h'.goto (fun _ => ⟨h.held c hc, fun d hd => h.owner d c hd hc⟩) (by simp) (by simp) ?_
  rintro t ⟨⟩
  refine ⟨Nat.le_refl _, fun ht => ?_, fun d hd => ?_⟩
  · have := h.returned _ ht
    omega
  · have := (h.ticket d _ hd).1
    omega

/-- `RELEASE` -/
lemma Inv.release (h : Inv s) {pid : ℕ} (hpc : s.pc c = .counted pid) :
    Inv { s.goto c (.unlocked pid) with lock := false } := by
  have hc : (s.pc c).holds = true := by rw [hpc]; rfl
  have hg : Inv (s.goto c (.unlocked pid)) := by
    refine h.goto (by simp [Pc.holds]) ?_ (by simp) ?_
    · rintro _ (hx | hx) <;> cases hx
      exact h.current c pid (Or.inl hpc)
    · rintro _ ⟨⟩
      exact h.free (by rw [hpc]; rfl)
  refine { hg with held := fun d hd => ?_ }
  rcases goto_cases (·.holds = true) hd with ⟨-, hx⟩ | ⟨hdc, hd⟩
  · cases hx
  · exact absurd (h.owner d c hd hc) hdc

/-- `map_insert` of the record under the number drawn. -/
lemma Inv.store (h : Inv s) (k : ℕ) (rest : α) :
    Inv { s with procmap := Function.update s.procmap k (some ⟨k, rest⟩) } := { h with
  records := by
    intro k' p hp
    simp only [Function.update_apply] at hp
    split at hp
    · cases hp
      exact ‹k' = k›.symm
    · exact h.records k' p hp }

/-- The call returns its number. -/
lemma Inv.ret (h : Inv s) {t : ℕ} (hpc : s.pc c = .stored t) :
    Inv { s.goto c .idle with returned := s.returned ++ [t] } := by
  obtain ⟨hle, hnew, hmine⟩ := h.free (c := c) (t := t) (by rw [hpc]; rfl)
  have hg : Inv (s.goto c .idle) := by
    exact h.goto (by simp [Pc.holds]) (by simp) (by simp) (by simp [Pc.ticket])
  refine { hg with
    nodup := List.nodup_append.mpr ⟨h.nodup, by simp, ?_⟩
    ticket := fun d u hd => ⟨(hg.ticket d u hd).1, ?_⟩
    returned := ?_ }
  · rintro a ha b hb rfl
    rw [List.mem_singleton] at hb
    exact hnew (hb ▸ ha)
  · intro hu
    rcases List.mem_append.mp hu with hu | hu
    · exact (hg.ticket d u hd).2 hu
    · rw [List.mem_singleton] at hu
      subst hu
      rcases goto_cases (·.ticket = some u) hd with ⟨-, hx⟩ | ⟨hdc, hd⟩
      · cases hx
      · exact hdc (hmine d hd)
  · intro u hu
    rcases List.mem_append.mp hu with hu | hu
    · exact h.returned u hu
    · rw [List.mem_singleton] at hu
      exact hu ▸ hle

lemma Inv.step (h : Inv s) (ha : Alone s c) : Inv (step s c rest) := by
  unfold ProcNew.step
  cases hpc : s.pc c with
  | idle =>
    simp only
    split
    · exact h
    · exact h.acquire (by simpa using ‹¬ s.lock = true›)
  | locked =>
    obtain ⟨hlt, hno⟩ := ha hpc
    simp only [Nat.mod_eq_of_lt hlt]
    exact h.count hpc hno
  | counted pid => exact h.release hpc
  | unlocked pid =>
    refine h.goto (by simp [Pc.holds]) (by simp) ?_ ?_
    · rintro _ _ ⟨⟩
      exact (h.current c pid (Or.inr hpc)).symm
    · rintro _ ⟨⟩
      exact h.free (by rw [hpc]; rfl)
  | named pid ppid =>
    obtain rfl := h.named c pid ppid hpc
    have hg : Inv (s.goto c (.stored ppid)) := by
      refine h.goto (by simp [Pc.holds]) (by simp) (by simp) ?_
      rintro _ ⟨⟩
      exact h.free (by rw [hpc]; rfl)
    exact hg.store ppid rest
  | stored ppid => exact h.ret hpc

lemma Inv.run (h : Inv s) {l : List (ι × α)} (ha : AllAlone s l) : Inv (run s l) := by
  induction l generalizing s with
  | nil => exact h
  | cons x l ih => exact ih (h.step ha.1) ha.2

/-- **Processes are told apart**, in every interleaving in which no CPU counts a process while
another has still to read the number it drew, and the numbers do not run out. -/
theorem pids_identify (l : List (ι × α)) (h : AllAlone (start ι α) l) :
    Identified (run (start ι α) l) := (Inv.start.run h).toIdentified

/-- Two calls that overlap: one reads before the other counts. -/
def oneReads : List (Bool × Unit) :=
  [(true, ()), (true, ()), (true, ()), (true, ()), (false, ()), (false, ()), (false, ()),
    (false, ()), (true, ()), (false, ()), (true, ()), (false, ())]

theorem pids_identify_oneReads : (run (start Bool Unit) oneReads).returned = [1, 2] ∧
    Identified (run (start Bool Unit) oneReads) := by
  refine ⟨rfl, pids_identify _ ?_⟩
  simp only [oneReads, AllAlone, Alone]
  refine ⟨?_, ?_, ?_, ?_, ?_, ?_, ?_, ?_, ?_, ?_, ?_, ?_, trivial⟩
  all_goals
    rintro ⟨⟩
    try exact ⟨by decide, by rintro (_ | _) pid ⟨⟩⟩

/-- Two calls on two CPUs: both count before either reads. -/
def bothCount : List (Bool × Unit) :=
  [(true, ()), (true, ()), (true, ()), (false, ()), (false, ()), (false, ()), (true, ()),
    (false, ()), (true, ()), (false, ()), (true, ()), (false, ())]

theorem pid_returned_twice : (run (start Bool Unit) bothCount).returned = [2, 2] ∧
    ((run (start Bool Unit) bothCount).procmap 1).map (·.pid) = some 2 ∧
    ¬ Identified (run (start Bool Unit) bothCount) := by
  refine ⟨rfl, rfl, fun h => ?_⟩
  exact absurd h.nodup (by decide)

end Silkware.ProcNew
