import Mathlib.Algebra.BigOperators.Fin
import Mathlib.Algebra.Order.BigOperators.Group.Finset
import Mathlib.Algebra.Order.Group.Multiset
import Mathlib.Logic.Relation
import Silkware.SchedInv

/-!
Whole runs of the scheduler: `schedule`, `proc_next` and `unschedule` on any CPUs, each made
under the lock of the queue it works on.
-/

namespace Silkware.SchedRuns

open Silkware.Kern Silkware.Links Silkware.Fifo Silkware.Sched Silkware.SchedInv

/-- The run queues, and the nodes that are allocated. -/
structure Sys where
  st : State
  held : List ℕ

/-- What a step shows: the node that `schedule` links in, the node that `proc_next` runs and
whether it changed the queues over, and the node that `unschedule` frees, or 0. -/
inductive Ev
  | schedule (new pid : ℕ) (priority : Prio)
  | next (c b : ℕ) (swap : Bool)
  | unschedule (c pid b : ℕ)
  | other

/-- One call that returns, or a change to memory that is not a node of the scheduler. -/
inductive Step (ncpus : ℕ) (s : Sys) : Ev → Sys → Prop
  | schedule {junk new pid : ℕ} {priority : Prio} {st : State} (hpid : pid ≠ 0) (h0 : new ≠ 0)
      (hnew : new ∉ s.held) (h : Sched.schedule s.st ncpus junk new pid priority = .ok st) :
      Step ncpus s (.schedule new pid priority) ⟨st, new :: s.held⟩
  | next {known : ℕ → Bool} {c b : ℕ} {swap : Bool} {st : State} (hc : c < ncpus)
      (h : procNext known s.st c = .ok (st, b, swap)) : Step ncpus s (.next c b swap) ⟨st, s.held⟩
  | unschedule {fuel c pid b : ℕ} {st : State} (hc : c < ncpus)
      (h : Sched.unschedule fuel s.st c pid = .ok (st, b)) :
      Step ncpus s (.unschedule c pid b) ⟨st, s.held.erase b⟩
  | other {node : ℕ → Node} (h : ∀ b ∈ s.held, node b = s.st.node b) :
      Step ncpus s .other { s with st.node := node }

/-- A node is on a list. -/
def OnQueue (s : State) (q : ℕ) (i : Prio) (b : ℕ) : Prop :=
  Visited (nx s) (fun x => x = 0) ((s.queue q).start i) b

/-- `L` is what one reads following the links. -/
def Reads (s : State) (L : Lists) : Prop :=
  ∀ q i, Chain (nx s) ((s.queue q).start i) (L q i) 0 ∧ 0 ∉ L q i

/-- The processes on a CPU's two queues, with their priorities. -/
def bag (s : State) (L : Lists) (c : ℕ) : Multiset (ℕ × Prio) :=
  ∑ i : Prio, (↑((L (s.cpu c).active i ++ L (s.cpu c).inactive i).map
    fun b => ((s.node b).pid, i)) : Multiset (ℕ × Prio))

/-- Some CPU has a count that `schedule` takes for smaller than its start value. -/
def CanPlace (ncpus : ℕ) (s : Sys) : Prop := ∃ c < ncpus, (s.st.cpu c).n < 2 ^ 32 - 1

/-- Runs in which `schedule` is called only in states that meet `G`. -/
def Runs (G : Sys → Prop) (ncpus : ℕ) : Sys → Sys → Prop :=
  Relation.ReflTransGen fun s s' => ∃ ev, (∀ new pid i, ev = .schedule new pid i → G s) ∧
    Step ncpus s ev s'

/-- What holds of the run queues, and of each call made on them; of `schedule` where `G`
holds. -/
structure Sound (G : Sys → Prop) (ncpus : ℕ) (s : Sys) : Prop where
  null : ∀ q i, (s.st.queue q).start i = 0 ↔ (s.st.queue q).end_ i = 0
  finite : ∀ q i, ∃ l, Chain (nx s.st) ((s.st.queue q).start i) l 0 ∧ l.Nodup ∧
    ∀ b, b ∈ l ↔ OnQueue s.st q i b
  last : ∀ q i, (s.st.queue q).end_ i ≠ 0 → OnQueue s.st q i ((s.st.queue q).end_ i) ∧
    nx s.st ((s.st.queue q).end_ i) = 0
  one : ∀ b q i r j, OnQueue s.st q i b → OnQueue s.st r j b → q = r ∧ i = j
  next : ∀ known c b swap st, c < ncpus → procNext known s.st c = .ok (st, b, swap) →
    ∀ L L', Reads s.st L → Reads st L' → ∀ d, bag st L' d = bag s.st L d
  schedule : ∀ junk new pid i, pid ≠ 0 → new ≠ 0 → new ∉ s.held → G s →
    ∃ st, Sched.schedule s.st ncpus junk new pid i = .ok st ∧
      ∃ c < ncpus, ∀ L L', Reads s.st L → Reads st L' →
        bag st L' c = (pid, i) ::ₘ bag s.st L c ∧ ∀ d, d ≠ c → bag st L' d = bag s.st L d
  unschedule : ∀ c pid, c < ncpus → ∃ fuel₀, ∀ fuel ≥ fuel₀, ∃ st b,
    Sched.unschedule fuel s.st c pid = .ok (st, b) ∧
      ∀ L L', Reads s.st L → Reads st L' →
        (bag st L' c = bag s.st L c ∨ ∃ i, bag s.st L c = (pid, i) ::ₘ bag st L' c) ∧
        ∀ d, d ≠ c → bag st L' d = bag s.st L d

/-! ### The invariant -/

structure Inv (s : Sys) (L : Lists) : Prop where
  rep : Rep s.st L
  held : ∀ q i, ∀ b ∈ L q i, b ∈ s.held
  pid : ∀ q i, ∀ b ∈ L q i, (s.st.node b).pid ≠ 0
  own : ∀ c, ((s.st.cpu c).active = 2 * c ∧ (s.st.cpu c).inactive = 2 * c + 1) ∨
    ((s.st.cpu c).active = 2 * c + 1 ∧ (s.st.cpu c).inactive = 2 * c)

lemma Inv.init (node : ℕ → Node) (junk : ℕ → ℕ) : Inv ⟨schedInit node junk, []⟩ fun _ _ => [] :=
  ⟨⟨fun _ _ => Holds.nil _ _, by simp⟩, by simp, by simp, fun c => Or.inl ⟨rfl, rfl⟩⟩

variable {ncpus : ℕ} {s s' : Sys} {L : Lists}

lemma Inv.ne (h : Inv s L) (c : ℕ) : (s.st.cpu c).active ≠ (s.st.cpu c).inactive := by
  have := h.own c
  omega

/-! ### What a step does to the lists -/

/-- Every CPU has the queues it had. -/
def SameQueues (s s' : State) : Prop := ∀ d, (s'.cpu d).active = (s.cpu d).active ∧
  (s'.cpu d).inactive = (s.cpu d).inactive

/-- The effect of a step, in terms of the lists and of who owns which queue. -/
inductive LStep (ncpus : ℕ) (s : Sys) (L : Lists) : Ev → Sys → Lists → Prop
  | schedule {s' : Sys} {c new pid : ℕ} {i : Prio} (hc : c < ncpus) (hnew : ∀ q j, new ∉ L q j)
      (hpid : (s'.st.node new).pid = pid)
      (hq : SameQueues s.st s'.st)
      (hp : ∀ b, b ≠ new → (s'.st.node b).pid = (s.st.node b).pid) :
      LStep ncpus s L (.schedule new pid i) s'
        (put L (s.st.cpu c).inactive i (L (s.st.cpu c).inactive i ++ [new]))
  | next {s' : Sys} {c b : ℕ} {i : Prio} {l : List ℕ} (hlow : ∀ j < i, L (s.st.cpu c).active j = [])
      (hl : L (s.st.cpu c).active i = b :: l) (hs : Same s.st s'.st) :
      LStep ncpus s L (.next c b false) s' (move L (s.st.cpu c).active (s.st.cpu c).inactive i b l)
  | swap {s' : Sys} {c b : ℕ} {i : Prio} {l : List ℕ} (hnone : ∀ j, L (s.st.cpu c).active j = [])
      (hlow : ∀ j < i, L (s.st.cpu c).inactive j = []) (hl : L (s.st.cpu c).inactive i = b :: l)
      (hc : (s'.st.cpu c).active = (s.st.cpu c).inactive ∧
        (s'.st.cpu c).inactive = (s.st.cpu c).active) (hd : ∀ d, d ≠ c → s'.st.cpu d = s.st.cpu d)
      (hp : ∀ b, (s'.st.node b).pid = (s.st.node b).pid) :
      LStep ncpus s L (.next c b true) s' (move L (s.st.cpu c).inactive (s.st.cpu c).active i b l)
  | absent {s' : Sys} {c pid : ℕ}
      (hq : SameQueues s.st s'.st)
      (hp : ∀ b, (s'.st.node b).pid = (s.st.node b).pid) : LStep ncpus s L (.unschedule c pid 0) s' L
  | remove {s' : Sys} {c pid b q : ℕ} {i : Prio} {l1 l2 : List ℕ} (hb : b ≠ 0)
      (hqc : q = (s.st.cpu c).active ∨ q = (s.st.cpu c).inactive) (hl : L q i = l1 ++ b :: l2)
      (hpid : (s.st.node b).pid = pid)
      (hq : SameQueues s.st s'.st)
      (hp : ∀ b, (s'.st.node b).pid = (s.st.node b).pid) :
      LStep ncpus s L (.unschedule c pid b) s' (put L q i (l1 ++ l2))
  | other {s' : Sys} (hc : s'.st.cpu = s.st.cpu)
      (hp : ∀ q i, ∀ b ∈ L q i, (s'.st.node b).pid = (s.st.node b).pid) : LStep ncpus s L .other s' L

lemma Rep.setCpu {s : State} (h : Rep s L) (c : ℕ) (x : CpuQueue) : Rep (setCpu s c x) L :=
  ⟨h.list, h.one⟩

lemma mem_put {L : Lists} {q r : ℕ} {i j : Prio} {l : List ℕ} {b : ℕ} (h : b ∈ put L q i l r j) :
    b ∈ l ∨ b ∈ L r j := by
  simp only [put] at h
  split at h
  · exact Or.inl h
  · exact Or.inr h

lemma schedule_lists {st : State} {junk new pid : ℕ} {i : Prio} (h : Inv s L) (hpid : pid ≠ 0)
    (h0 : new ≠ 0) (hnew : new ∉ s.held)
    (hr : Sched.schedule s.st ncpus junk new pid i = .ok st) :
    ∃ L', Inv ⟨st, new :: s.held⟩ L' ∧
      LStep ncpus s L (.schedule new pid i) ⟨st, new :: s.held⟩ L' := by
  have hno : ∀ q j, new ∉ L q j := fun q j hb => hnew (h.held q j new hb)
  set s₁ : State := { s.st with node := fun b => if b = new then ⟨0, pid⟩ else s.st.node b } with hs₁
  have hnode : ∀ b, b ≠ new → s₁.node b = s.st.node b := fun b hb => by simp [hs₁, hb]
  have hrep : Rep s₁ L := ⟨fun q j => (h.rep.list q j).congr fun b hb => by
    simp only [nx, hnode b (fun e => hno q j (e ▸ hb))], h.rep.one⟩
  rw [Sched.schedule] at hr
  simp only [← hs₁] at hr
  set c := cpuMin s₁ ncpus junk
  split at hr
  · rename_i hc
    cases hr
    set s₂ := setCpu s₁ c { s₁.cpu c with n := ((s₁.cpu c).n + 1) % 2 ^ 32 } with hs₂
    have hq : SameQueues s.st s₂ := by
      intro d
      simp only [hs₂, Sched.setCpu]
      split
      · rename_i hd; rw [hd]; exact ⟨rfl, rfl⟩
      · exact ⟨rfl, rfl⟩
    have hsame := push_same s₂ c new i
    have hpush := (Rep.setCpu hrep c _ : Rep s₂ L).push c i h0
      (by simp [nx, Sched.setCpu, hs₁]) hno
    rw [(hq c).2] at hpush
    have hpid' : ∀ b, ((pushUnlocked s₂ c new i).node b).pid =
        if b = new then pid else (s.st.node b).pid := by
      intro b
      rw [hsame.pid]
      simp only [hs₂, Sched.setCpu, hs₁]
      split <;> rfl
    have hq' : SameQueues s.st (pushUnlocked s₂ c new i) := fun d => by rw [hsame.cpu]; exact hq d
    refine ⟨_, ⟨hpush, fun q j b hb => ?_, fun q j b hb => ?_, fun d => ?_⟩,
      .schedule hc hno (by rw [hpid', if_pos rfl]) hq' fun b hb => by rw [hpid', if_neg hb]⟩
    · rcases mem_put hb with hb | hb
      · rcases List.mem_append.mp hb with hb | hb
        · exact List.mem_cons_of_mem _ (h.held _ _ b hb)
        · rw [List.mem_singleton.mp hb]; simp
      · exact List.mem_cons_of_mem _ (h.held q j b hb)
    · rw [hpid']
      split
      · exact hpid
      · rename_i hbn
        rcases mem_put hb with hb | hb
        · rcases List.mem_append.mp hb with hb | hb
          · exact h.pid _ _ b hb
          · exact absurd (List.mem_singleton.mp hb) hbn
        · exact h.pid q j b hb
    · rw [(hq' d).1, (hq' d).2]; exact h.own d
  · cases hr

lemma mem_move {L : Lists} {q q' r : ℕ} {i j : Prio} {l : List ℕ} {b x : ℕ} (hl : L q i = b :: l)
    (h : x ∈ move L q q' i b l r j) : ∃ r j, x ∈ L r j := by
  rcases mem_put h with h | h
  · rcases List.mem_append.mp h with h | h
    · exact ⟨q', i, h⟩
    · exact ⟨q, i, by rw [hl]; simp [List.mem_singleton.mp h]⟩
  · rcases mem_put h with h | h
    · exact ⟨q, i, by rw [hl]; simp [h]⟩
    · exact ⟨r, j, h⟩

/-- Taking a node off a queue keeps what is known of all nodes. -/
lemma Inv.move (h : Inv s L) {st : State} {q q' : ℕ} {i : Prio} {b : ℕ} {l : List ℕ}
    (hl : L q i = b :: l) (hrep : Rep st (move L q q' i b l))
    (hp : ∀ b, (st.node b).pid = (s.st.node b).pid)
    (hown : ∀ c, ((st.cpu c).active = 2 * c ∧ (st.cpu c).inactive = 2 * c + 1) ∨
      ((st.cpu c).active = 2 * c + 1 ∧ (st.cpu c).inactive = 2 * c)) :
    Inv ⟨st, s.held⟩ (SchedInv.move L q q' i b l) := by
  refine ⟨hrep, fun r j x hx => ?_, fun r j x hx => ?_, hown⟩
  · obtain ⟨r, j, hx⟩ := mem_move hl hx
    exact h.held r j x hx
  · obtain ⟨r, j, hx⟩ := mem_move hl hx
    rw [hp]
    exact h.pid r j x hx

/-- The priorities before a place in the loop are the smaller ones. -/
lemma finRange_before {is₁ is₂ : List Prio} {i j : Prio}
    (h : List.finRange nPrior = is₁ ++ i :: is₂) (hj : j < i) : j ∈ is₁ := by
  have hs : (List.finRange nPrior).Pairwise (· < ·) := List.pairwise_lt_finRange _
  have hm : j ∈ List.finRange nPrior := List.mem_finRange j
  rw [h] at hs hm
  obtain ⟨-, h2, -⟩ := List.pairwise_append.mp hs
  rcases List.mem_append.mp hm with hm | hm
  · exact hm
  · rcases List.mem_cons.mp hm with rfl | hm
    · exact absurd hj (lt_irrefl _)
    · exact absurd hj (not_lt_of_gt ((List.pairwise_cons.mp h2).1 j hm))

lemma next_lists (ncpus : ℕ) {known : ℕ → Bool} {c b : ℕ} {swap : Bool} {st : State} (h : Inv s L)
    (hr : procNext known s.st c = .ok (st, b, swap)) :
    ∃ L', Inv ⟨st, s.held⟩ L' ∧ LStep ncpus s L (.next c b swap) ⟨st, s.held⟩ L' := by
  have hpop : Popped s.st L c _ (popUnlocked s.st c) := h.rep.popLoop (h.ne c) _
  rw [procNext] at hr
  cases hpu : popUnlocked s.st c with
  | mk s₁ r =>
    rw [hpu] at hpop hr
    cases hpop with
    | @node is₁ is₂ i b' l _ his hlow hl hrep hs =>
      have hp0 := h.pid _ i b' (by rw [hl]; simp)
      simp only [if_pos hp0, procActivate] at hr
      split at hr
      · simp only [bind, Except.bind, pure, Except.pure, Except.ok.injEq, Prod.mk.injEq] at hr
        obtain ⟨rfl, rfl, rfl⟩ := hr
        exact ⟨_, h.move hl hrep hs.pid (fun d => by rw [hs.cpu]; exact h.own d),
          .next (fun j hj => hlow j (finRange_before his hj)) hl hs⟩
      · simp [bind, Except.bind, throw, throwThe, MonadExceptOf.throw] at hr
    | none hnone =>
      simp only [ne_eq, not_true, if_false] at hr
      set s₂ := setCpu s.st c ⟨(s.st.cpu c).inactive, (s.st.cpu c).active, (s.st.cpu c).n⟩ with hs₂
      have hcpu : (s₂.cpu c).active = (s.st.cpu c).inactive ∧
          (s₂.cpu c).inactive = (s.st.cpu c).active := by simp [hs₂, Sched.setCpu]
      have hcpu' : ∀ d, d ≠ c → s₂.cpu d = s.st.cpu d := fun d hd => by simp [hs₂, Sched.setCpu, hd]
      have hpop : Popped s₂ L c _ (popUnlocked s₂ c) :=
        (Rep.setCpu h.rep c _ : Rep s₂ L).popLoop (by rw [hcpu.1, hcpu.2]; exact (h.ne c).symm) _
      cases hpu₂ : popUnlocked s₂ c with
      | mk s₃ r =>
        rw [hpu₂] at hpop hr
        cases hpop with
        | none => simp [bind, Except.bind, throw, throwThe, MonadExceptOf.throw] at hr
        | @node is₁ is₂ i b' l _ his hlow hl hrep hs =>
          rw [hcpu.1] at hlow hl
          rw [hcpu.1, hcpu.2] at hrep
          have hp0 : (s₂.node b').pid ≠ 0 := h.pid _ i b' (by rw [hl]; simp)
          simp only [if_neg hp0, procActivate] at hr
          split at hr
          · simp only [bind, Except.bind, pure, Except.pure, Except.ok.injEq, Prod.mk.injEq] at hr
            obtain ⟨rfl, rfl, rfl⟩ := hr
            refine ⟨_, h.move hl hrep hs.pid fun d => ?_, .swap (fun j => hnone j (List.mem_finRange j))
              (fun j hj => hlow j (finRange_before his hj)) hl (by rw [hs.cpu]; exact hcpu)
              (fun d hd => by rw [hs.cpu]; exact hcpu' d hd) hs.pid⟩
            rw [hs.cpu]
            by_cases hd : d = c
            · rw [hd, hcpu.1, hcpu.2]
              have := h.own c
              omega
            · rw [hcpu' d hd]; exact h.own d
          · simp [bind, Except.bind, throw, throwThe, MonadExceptOf.throw] at hr

/-- The nodes left after one was cut out of its list. -/
lemma mem_cut {st : State} (h : Rep st L) {q r : ℕ} {i j : Prio} {b x : ℕ} {l1 l2 : List ℕ}
    (hl : L q i = l1 ++ b :: l2) (hx : x ∈ put L q i (l1 ++ l2) r j) : x ∈ L r j ∧ x ≠ b := by
  have hnd := (h.list q i).nodup
  rw [hl] at hnd
  by_cases hrj : r = q ∧ j = i
  · rw [hrj.1, hrj.2, put_same] at hx
    rw [hrj.1, hrj.2, hl]
    have h1 := (List.nodup_cons.mp (List.perm_middle.nodup_iff.mp hnd)).1
    refine ⟨by simp only [List.mem_append, List.mem_cons] at hx ⊢; tauto, ?_⟩
    rintro rfl
    exact h1 hx
  · rw [put_other L _ hrj] at hx
    refine ⟨hx, ?_⟩
    rintro rfl
    exact hrj (h.one x r j q i hx (by rw [hl]; simp))

/-- Removing a node keeps what is known of the others. -/
lemma Inv.remove (h : Inv s L) {st : State} {q : ℕ} {i : Prio} {b : ℕ} {l1 l2 : List ℕ}
    (hl : L q i = l1 ++ b :: l2) (hrep : Rep st (put L q i (l1 ++ l2)))
    (hp : ∀ b, (st.node b).pid = (s.st.node b).pid) (hq : SameQueues s.st st) :
    Inv ⟨st, s.held.erase b⟩ (put L q i (l1 ++ l2)) := by
  refine ⟨hrep, fun r j x hx => ?_, fun r j x hx => ?_, fun d => ?_⟩
  · obtain ⟨h1, h2⟩ := mem_cut h.rep hl hx
    exact (List.mem_erase_of_ne h2).mpr (h.held r j x h1)
  · rw [hp]; exact h.pid r j x (mem_cut h.rep hl hx).1
  · rw [(hq d).1, (hq d).2]; exact h.own d

lemma unschedule_lists (ncpus : ℕ) {fuel c pid b : ℕ} {st : State} (h : Inv s L)
    (hr : Sched.unschedule fuel s.st c pid = .ok (st, b)) :
    ∃ L', Inv ⟨st, s.held.erase b⟩ L' ∧
      LStep ncpus s L (.unschedule c pid b) ⟨st, s.held.erase b⟩ L' := by
  rw [Sched.unschedule] at hr
  obtain ⟨s₁, hs₁⟩ : ∃ s₁, s₁ = setCpu s.st c
    { s.st.cpu c with n := ((s.st.cpu c).n + (2 ^ 32 - 1)) % 2 ^ 32 } := ⟨_, rfl⟩
  simp only [← hs₁] at hr
  have hnode : s₁.node = s.st.node := by rw [hs₁]; rfl
  have hrep : Rep s₁ L := by rw [hs₁]; exact Rep.setCpu h.rep c _
  have hq : SameQueues s.st s₁ := by
    intro d
    simp only [hs₁, Sched.setCpu]
    split
    · rename_i hd; rw [hd]; exact ⟨rfl, rfl⟩
    · exact ⟨rfl, rfl⟩
  -- a node found in one of the two queues
  have hfound : ∀ {q : ℕ} {i : Prio} {b : ℕ} {l1 l2 : List ℕ} {st : State}, b ≠ 0 →
      (q = (s.st.cpu c).active ∨ q = (s.st.cpu c).inactive) → L q i = l1 ++ b :: l2 →
      (s₁.node b).pid = pid → Rep st (put L q i (l1 ++ l2)) → Same s₁ st →
      ∃ L', Inv ⟨st, s.held.erase b⟩ L' ∧
        LStep ncpus s L (.unschedule c pid b) ⟨st, s.held.erase b⟩ L' := by
    intro q i b l1 l2 st hb hqc hl hpid hrep hs
    have hq' : SameQueues s.st st := fun d => by rw [hs.cpu]; exact hq d
    have hp : ∀ x, (st.node x).pid = (s.st.node x).pid := fun x => by rw [hs.pid, hnode]
    exact ⟨_, h.remove hl hrep hp hq', .remove hb hqc hl (by rw [← hnode]; exact hpid) hq' hp⟩
  cases hr1 : queueTryremove fuel s₁ (s₁.cpu c).active pid with
  | error e => simp [hr1, bind, Except.bind] at hr
  | ok r =>
    have hrem := hrep.removeLoop hr1
    simp only [hr1, bind, Except.bind, pure, Except.pure] at hr
    cases hrem with
    | node hb hl hpid hrep' hs =>
      rw [if_pos hb] at hr
      cases hr
      exact hfound hb (Or.inl (hq c).1) hl hpid hrep' hs
    | none hn =>
      simp only [ne_eq, not_true, if_false] at hr
      have hrem := hrep.removeLoop hr
      cases hrem with
      | node hb hl hpid hrep' hs => exact hfound hb (Or.inr (hq c).2) hl hpid hrep' hs
      | none hn =>
        refine ⟨L, ⟨hrep, fun q i x hx => ?_, fun q i x hx => ?_, fun d => ?_⟩,
          .absent hq fun x => by rw [hnode]⟩
        · have hx0 : x ≠ 0 := (h.rep.list q i).ne x hx
          exact (List.mem_erase_of_ne hx0).mpr (h.held q i x hx)
        · simp only [hnode]; exact h.pid q i x hx
        · rw [(hq d).1, (hq d).2]; exact h.own d

/-- **What every step does to the lists.** -/
lemma step_lists {ev : Ev} (h : Inv s L) (hs : Step ncpus s ev s') :
    ∃ L', Inv s' L' ∧ LStep ncpus s L ev s' L' := by
  cases hs with
  | schedule hpid h0 hnew hr => exact schedule_lists h hpid h0 hnew hr
  | next hc hr => exact next_lists ncpus h hr
  | unschedule hc hr => exact unschedule_lists ncpus h hr
  | @other node hn =>
    have hnode : ∀ q i, ∀ b ∈ L q i, node b = s.st.node b := fun q i b hb => hn b (h.held q i b hb)
    refine ⟨L, ⟨⟨fun q i => (h.rep.list q i).congr fun b hb => ?_, h.rep.one⟩, h.held,
      fun q i b hb => ?_, h.own⟩, .other rfl fun q i b hb => by simp only [hnode q i b hb]⟩
    · simp only [nx, hnode q i b hb]
    · simp only [hnode q i b hb]; exact h.pid q i b hb

/-! ### The processes on a CPU -/

lemma Reads.eq {st : State} {L L' : Lists} (h : Rep st L) (h' : Reads st L') : L' = L := by
  funext q i
  exact (h' q i).1.unique (h.list q i).chain (h' q i).2 fun h0 => (h.list q i).ne 0 h0 rfl

lemma Rep.reads {st : State} (h : Rep st L) : Reads st L :=
  fun q i => ⟨(h.list q i).chain, fun h0 => (h.list q i).ne 0 h0 rfl⟩

/-- Both queues of a CPU hold the same nodes in some order. -/
lemma bag_perm {st st' : State} {L L' : Lists} {c : ℕ}
    (hp : ∀ i, (L' (st'.cpu c).active i ++ L' (st'.cpu c).inactive i).Perm
      (L (st.cpu c).active i ++ L (st.cpu c).inactive i))
    (hpid : ∀ i, ∀ b ∈ L (st.cpu c).active i ++ L (st.cpu c).inactive i,
      (st'.node b).pid = (st.node b).pid) : bag st' L' c = bag st L c := by
  refine Finset.sum_congr rfl fun i _ => ?_
  rw [Multiset.coe_eq_coe]
  refine ((hp i).map _).trans (List.Perm.of_eq ?_)
  exact List.map_congr_left fun b hb => by rw [hpid i b hb]

/-- One queue of a CPU holds one node more. -/
lemma bag_cons {st st' : State} {L L' : Lists} {c b : ℕ} {i : Prio}
    (hi : (L' (st'.cpu c).active i ++ L' (st'.cpu c).inactive i).Perm
      (b :: (L (st.cpu c).active i ++ L (st.cpu c).inactive i)))
    (hj : ∀ j, j ≠ i → (L' (st'.cpu c).active j ++ L' (st'.cpu c).inactive j).Perm
      (L (st.cpu c).active j ++ L (st.cpu c).inactive j))
    (hpid : ∀ j, ∀ x ∈ L (st.cpu c).active j ++ L (st.cpu c).inactive j,
      (st'.node x).pid = (st.node x).pid) :
    bag st' L' c = ((st'.node b).pid, i) ::ₘ bag st L c := by
  have hadd : ∀ j : Prio, (↑((L' (st'.cpu c).active j ++ L' (st'.cpu c).inactive j).map
        fun x => ((st'.node x).pid, j)) : Multiset (ℕ × Prio)) =
      (↑((L (st.cpu c).active j ++ L (st.cpu c).inactive j).map
        fun x => ((st.node x).pid, j)) : Multiset (ℕ × Prio)) +
      if j = i then {((st'.node b).pid, i)} else 0 := by
    intro j
    have hmap : (L (st.cpu c).active j ++ L (st.cpu c).inactive j).map
        (fun x => ((st'.node x).pid, j)) = (L (st.cpu c).active j ++
          L (st.cpu c).inactive j).map fun x => ((st.node x).pid, j) :=
      List.map_congr_left fun x hx => by rw [hpid j x hx]
    by_cases hji : j = i
    · subst hji
      rw [if_pos rfl, add_comm, Multiset.singleton_add, ← hmap, Multiset.cons_coe,
        Multiset.coe_eq_coe]
      exact hi.map _
    · rw [if_neg hji, add_zero, ← hmap, Multiset.coe_eq_coe]
      exact (hj j hji).map _
  rw [bag, Finset.sum_congr rfl fun j _ => hadd j, Finset.sum_add_distrib, Finset.sum_ite_eq',
    if_pos (Finset.mem_univ i), add_comm, Multiset.singleton_add, bag]

/-- A CPU whose two lists are untouched. -/
lemma bag_same {st st' : State} {L L' : Lists} {d : ℕ} (ha : (st'.cpu d).active = (st.cpu d).active)
    (hi : (st'.cpu d).inactive = (st.cpu d).inactive)
    (hL : ∀ q i, q = (st.cpu d).active ∨ q = (st.cpu d).inactive → L' q i = L q i)
    (hpid : ∀ q i, ∀ b ∈ L q i, (st'.node b).pid = (st.node b).pid) : bag st' L' d = bag st L d := by
  refine bag_perm (fun i => ?_) fun i b hb => ?_
  · rw [ha, hi, hL _ i (Or.inl rfl), hL _ i (Or.inr rfl)]
  · rcases List.mem_append.mp hb with hb | hb
    · exact hpid _ i b hb
    · exact hpid _ i b hb

/-- The queues of two CPUs are different ones. -/
lemma Inv.queue_ne (h : Inv s L) {c d q r : ℕ} (hd : d ≠ c)
    (hq : q = (s.st.cpu c).active ∨ q = (s.st.cpu c).inactive)
    (hr : r = (s.st.cpu d).active ∨ r = (s.st.cpu d).inactive) : r ≠ q := by
  have h1 := h.own c
  have h2 := h.own d
  omega

lemma move_other {L : Lists} {q q' r b : ℕ} {i j : Prio} {l : List ℕ} (h1 : r ≠ q) (h2 : r ≠ q') :
    SchedInv.move L q q' i b l r j = L r j := by
  rw [SchedInv.move, put_other _ _ (fun hc => h2 hc.1), put_other _ _ (fun hc => h1 hc.1)]

/-- The two lists a node moves between hold the same nodes as before. -/
lemma move_perm {L : Lists} {q q' b : ℕ} {i : Prio} {l : List ℕ} (hne : q ≠ q')
    (hl : L q i = b :: l) (j : Prio) :
    (SchedInv.move L q q' i b l q j ++ SchedInv.move L q q' i b l q' j).Perm (L q j ++ L q' j) := by
  by_cases hj : j = i
  · subst hj
    have h1 : SchedInv.move L q q' j b l q j = l := by
      rw [SchedInv.move, put_other _ _ (fun hc => hne hc.1), put_same]
    have h2 : SchedInv.move L q q' j b l q' j = L q' j ++ [b] := put_same _ _ _ _
    rw [h1, h2, hl, ← List.append_assoc]
    exact List.perm_append_comm
  · rw [SchedInv.move, put_other _ _ (fun hc => hj hc.2), put_other _ _ (fun hc => hj hc.2),
      put_other _ _ (fun hc => hj hc.2), put_other _ _ (fun hc => hj hc.2)]

/-- `proc_next` leaves every CPU's processes as they are. -/
lemma next_bag {c b : ℕ} {swap : Bool} {L' : Lists} (h : Inv s L)
    (hs : LStep ncpus s L (.next c b swap) s' L') (d : ℕ) : bag s'.st L' d = bag s.st L d := by
  have hne := h.ne c
  cases hs with
  | next hlow hl hs =>
    by_cases hd : d = c
    · subst hd
      refine bag_perm (fun j => ?_) fun j x _ => hs.pid x
      rw [hs.cpu]
      exact move_perm hne hl j
    · refine bag_same (by rw [hs.cpu]) (by rw [hs.cpu]) (fun q j hq => ?_) fun _ _ x _ => hs.pid x
      exact move_other (h.queue_ne hd (Or.inl rfl) hq) (h.queue_ne hd (Or.inr rfl) hq)
  | swap hnone hlow hl hc hd' hp =>
    by_cases hd : d = c
    · subst hd
      refine bag_perm (fun j => ?_) fun j x _ => hp x
      rw [hc.1, hc.2]
      exact (move_perm (Ne.symm hne) hl j).trans List.perm_append_comm
    · refine bag_same (by rw [hd' d hd]) (by rw [hd' d hd]) (fun q j hq => ?_) fun _ _ x _ => hp x
      exact move_other (h.queue_ne hd (Or.inr rfl) hq) (h.queue_ne hd (Or.inl rfl) hq)

/-- `schedule` adds one process to one CPU. -/
lemma schedule_bag {new pid : ℕ} {i : Prio} {L' : Lists} (h : Inv s L)
    (hs : LStep ncpus s L (.schedule new pid i) s' L') :
    ∃ c < ncpus, new ∈ L' (s.st.cpu c).inactive i ∧ bag s'.st L' c = (pid, i) ::ₘ bag s.st L c ∧
      ∀ d, d ≠ c → bag s'.st L' d = bag s.st L d := by
  cases hs with
  | @schedule _ c _ _ _ hc hnew hpid hq hp =>
    have hp' : ∀ q j, ∀ x ∈ L q j, (s'.st.node x).pid = (s.st.node x).pid :=
      fun q j x hx => hp x fun e => hnew q j (e ▸ hx)
    refine ⟨c, hc, by rw [put_same]; simp, ?_, fun d hd => ?_⟩
    · rw [← hpid]
      refine bag_cons ?_ (fun j hj => ?_) fun j x hx => ?_
      · rw [(hq c).1, (hq c).2, put_same, put_other _ _ (fun hc => h.ne c hc.1), ← List.append_assoc]
        exact @List.perm_append_comm _ _ [new]
      · rw [(hq c).1, (hq c).2, put_other _ _ (fun hc => hj hc.2), put_other _ _ (fun hc => hj hc.2)]
      · rcases List.mem_append.mp hx with hx | hx
        · exact hp' _ j x hx
        · exact hp' _ j x hx
    · refine bag_same (hq d).1 (hq d).2 (fun q j hqd => ?_) hp'
      exact put_other _ _ fun hc => h.queue_ne hd (Or.inr rfl) hqd hc.1

/-- A process that `unschedule` finds is taken off its CPU. -/
lemma remove_bag {c pid b : ℕ} {L' : Lists} (h : Inv s L) (hb : b ≠ 0)
    (hs : LStep ncpus s L (.unschedule c pid b) s' L') :
    (∃ i, bag s.st L c = (pid, i) ::ₘ bag s'.st L' c) ∧ ∀ d, d ≠ c → bag s'.st L' d = bag s.st L d := by
  cases hs with
  | absent hq hp => exact absurd rfl hb
  | @remove _ _ _ _ q i l1 l2 hb hqc hl hpid hq hp =>
    refine ⟨⟨i, ?_⟩, fun d hd => ?_⟩
    · rw [← hpid]
      have hmid : (L q i).Perm (b :: (l1 ++ l2)) := by rw [hl]; exact List.perm_middle
      refine bag_cons ?_ (fun j hj => ?_) fun j x _ => (hp x).symm
      · rw [(hq c).1, (hq c).2]
        rcases hqc with rfl | rfl
        · rw [put_same, put_other _ _ (fun hc => h.ne c hc.1.symm)]
          exact hmid.append_right _
        · rw [put_same, put_other _ _ (fun hc => h.ne c hc.1)]
          exact (hmid.append_left _).trans List.perm_middle
      · rw [(hq c).1, (hq c).2, put_other _ _ (fun hc => hj hc.2), put_other _ _ (fun hc => hj hc.2)]
    · refine bag_same (hq d).1 (hq d).2 (fun r j hr => ?_) fun _ _ x _ => hp x
      exact put_other _ _ fun hc => h.queue_ne hd hqc hr hc.1

/-- `unschedule` takes at most one process, and only from its own CPU. -/
lemma unschedule_bag {c pid b : ℕ} {L' : Lists} (h : Inv s L)
    (hs : LStep ncpus s L (.unschedule c pid b) s' L') :
    (bag s'.st L' c = bag s.st L c ∨ ∃ i, bag s.st L c = (pid, i) ::ₘ bag s'.st L' c) ∧
      ∀ d, d ≠ c → bag s'.st L' d = bag s.st L d := by
  by_cases hb : b = 0
  · cases hs with
    | absent hq hp =>
      have hsame : ∀ d, bag s'.st L d = bag s.st L d := fun d =>
        bag_same (hq d).1 (hq d).2 (fun _ _ _ => rfl) fun _ _ x _ => hp x
      exact ⟨Or.inl (hsame c), fun d _ => hsame d⟩
    | remove hb' => exact absurd hb hb'
  · obtain ⟨h1, h2⟩ := remove_bag h hb hs
    exact ⟨Or.inr h1, h2⟩

/-! ### The calls return -/

/-- The search for the smallest count keeps its start value, or ends at a CPU of the list with a
smaller count. -/
lemma cpuMin_fold (n : ℕ → ℕ) (l : List ℕ) (r : ℕ × ℕ) :
    let r' := l.foldl (fun r c => if n c < r.1 then (n c, c) else r) r
    r'.1 ≤ r.1 ∧ (∀ c ∈ l, r'.1 ≤ n c) ∧ (r' = r ∨ r'.2 ∈ l ∧ r'.1 = n r'.2 ∧ r'.1 < r.1) := by
  induction l generalizing r with
  | nil => exact ⟨Nat.le_refl _, by simp, Or.inl rfl⟩
  | cons c l ih =>
    simp only [List.foldl_cons, List.mem_cons, forall_eq_or_imp]
    by_cases hc : n c < r.1
    · rw [if_pos hc]
      obtain ⟨h1, h2, h3⟩ := ih (n c, c)
      simp only at h1 h3
      refine ⟨by omega, ⟨h1, h2⟩, Or.inr ?_⟩
      rcases h3 with h3 | ⟨h3, h4, h5⟩
      · rw [h3]
        exact ⟨Or.inl rfl, rfl, hc⟩
      · exact ⟨Or.inr h3, h4, by omega⟩
    · rw [if_neg hc]
      obtain ⟨h1, h2, h3⟩ := ih r
      refine ⟨h1, ⟨by omega, h2⟩, ?_⟩
      rcases h3 with h3 | ⟨h3, h4, h5⟩
      · exact Or.inl h3
      · exact Or.inr ⟨Or.inr h3, h4, h5⟩

/-- `schedule` chooses a CPU with the smallest count, if one is below `UINT32_MAX`. -/
lemma cpuMin_spec {st : State} (junk : ℕ) (h : ∃ c < ncpus, (st.cpu c).n < 2 ^ 32 - 1) :
    cpuMin st ncpus junk < ncpus ∧ (st.cpu (cpuMin st ncpus junk)).n < 2 ^ 32 - 1 ∧
      ∀ d < ncpus, (st.cpu (cpuMin st ncpus junk)).n ≤ (st.cpu d).n := by
  obtain ⟨-, h2, h3⟩ := cpuMin_fold (fun c => (st.cpu c).n) (List.range ncpus) (2 ^ 32 - 1, junk)
  rcases h3 with h3 | ⟨h3, h4, h5⟩
  · obtain ⟨c, hc, hn⟩ := h
    have := h2 c (List.mem_range.mpr hc)
    rw [h3] at this
    simp only at this
    omega
  · rw [← cpuMin] at h3 h4
    rw [h4] at h2 h5
    exact ⟨List.mem_range.mp h3, h5, fun d hd => h2 d (List.mem_range.mpr hd)⟩

lemma schedule_total {st : State} (junk new pid : ℕ) (i : Prio)
    (h : ∃ c < ncpus, (st.cpu c).n < 2 ^ 32 - 1) :
    ∃ st', Sched.schedule st ncpus junk new pid i = .ok st' := by
  rw [Sched.schedule]
  simp only
  rw [if_pos]
  · exact ⟨_, rfl⟩
  · exact (cpuMin_spec _ h).1

lemma unschedule_total (c pid : ℕ) (h : Inv s L) :
    ∃ fuel₀, ∀ fuel ≥ fuel₀, ∃ r, Sched.unschedule fuel s.st c pid = .ok r := by
  refine ⟨1 + ∑ i, ((L (s.st.cpu c).active i).length + (L (s.st.cpu c).inactive i).length),
    fun fuel hf => ?_⟩
  have hlen : ∀ i : Prio, (L (s.st.cpu c).active i).length < fuel ∧
      (L (s.st.cpu c).inactive i).length < fuel := by
    intro i
    have hle := Finset.single_le_sum (f := fun i => (L (s.st.cpu c).active i).length +
      (L (s.st.cpu c).inactive i).length) (fun j _ => Nat.zero_le _) (Finset.mem_univ i)
    omega
  rw [Sched.unschedule]
  obtain ⟨s₁, hs₁⟩ : ∃ s₁, s₁ = setCpu s.st c
    { s.st.cpu c with n := ((s.st.cpu c).n + (2 ^ 32 - 1)) % 2 ^ 32 } := ⟨_, rfl⟩
  simp only [← hs₁]
  have hrep : Rep s₁ L := by rw [hs₁]; exact Rep.setCpu h.rep c _
  have hc : (s₁.cpu c).active = (s.st.cpu c).active ∧ (s₁.cpu c).inactive = (s.st.cpu c).inactive := by
    rw [hs₁]; simp [Sched.setCpu]
  obtain ⟨r, hr⟩ := hrep.removeLoop_total pid
    fun i (_ : i ∈ List.finRange nPrior) => show (L (s₁.cpu c).active i).length < fuel by
      rw [hc.1]; exact (hlen i).1
  simp only [queueTryremove, hr, bind, Except.bind]
  have hrem := hrep.removeLoop hr
  cases hrem with
  | node hb _ _ _ _ => rw [if_pos hb]; exact ⟨_, rfl⟩
  | none hn =>
    simp only [ne_eq, not_true, if_false]
    exact hrep.removeLoop_total pid fun i _ => by rw [hc.2]; exact (hlen i).2

/-! ### Every run -/

lemma onQueue_iff (h : Inv s L) {q : ℕ} {i : Prio} {b : ℕ} : OnQueue s.st q i b ↔ b ∈ L q i :=
  visited_iff (h.rep.list q i).chain (fun x hx => (h.rep.list q i).ne x hx) rfl

lemma Inv.sound (h : Inv s L) : Sound (CanPlace ncpus) ncpus s := by
  refine ⟨fun q i => ?_, fun q i => ⟨L q i, (h.rep.list q i).chain, (h.rep.list q i).nodup, fun b =>
    (onQueue_iff h).symm⟩, fun q i hne => ⟨?_, (h.rep.list q i).next_end hne⟩,
    fun b q i r j hb hb' => ?_, fun known c b swap st hc hr A A' hA hA' d => ?_,
    fun junk new pid i hpid h0 hnew hG => ?_, fun c pid hc => ?_⟩
  · rw [(h.rep.list q i).start_eq_null, (h.rep.list q i).end_eq_null]
  · rw [onQueue_iff h]
    exact (h.rep.list q i).end_mem hne
  · exact h.rep.one b q i r j ((onQueue_iff h).mp hb) ((onQueue_iff h).mp hb')
  · obtain ⟨L', h', hs⟩ := next_lists ncpus h hr
    rw [hA.eq h.rep, hA'.eq h'.rep]
    exact next_bag h hs d
  · obtain ⟨st, hr⟩ := schedule_total junk new pid i hG
    obtain ⟨L', h', hs⟩ := schedule_lists h hpid h0 hnew hr
    obtain ⟨c, hc, -, hb⟩ := schedule_bag h hs
    refine ⟨st, hr, c, hc, fun A A' hA hA' => ?_⟩
    rw [hA.eq h.rep, hA'.eq h'.rep]
    exact hb
  · obtain ⟨fuel₀, hf⟩ := unschedule_total c pid h
    refine ⟨fuel₀, fun fuel hfuel => ?_⟩
    obtain ⟨⟨st, b⟩, hr⟩ := hf fuel hfuel
    obtain ⟨L', h', hs⟩ := unschedule_lists ncpus h hr
    refine ⟨st, b, hr, fun A A' hA hA' => ?_⟩
    rw [hA.eq h.rep, hA'.eq h'.rep]
    exact unschedule_bag h hs

lemma runs_inv {G : Sys → Prop} (h : Inv s L) (hr : Runs G ncpus s s') : ∃ L', Inv s' L' := by
  induction hr with
  | refl => exact ⟨L, h⟩
  | tail _ hst ih =>
    obtain ⟨ev, -, hst⟩ := hst
    obtain ⟨L', h'⟩ := ih
    obtain ⟨L'', h'', -⟩ := step_lists h' hst
    exact ⟨L'', h''⟩

/-- **No process is lost or duplicated.** In every run from `sched_init` that calls `schedule`
only while some CPU's count is below `UINT32_MAX`, the queues are well formed, and every call
changes the processes on the CPUs as it should. -/
theorem queues_sound {node : ℕ → Node} {junk : ℕ → ℕ}
    (hr : Runs (CanPlace ncpus) ncpus ⟨schedInit node junk, []⟩ s) : Sound (CanPlace ncpus) ncpus s := by
  obtain ⟨L, h⟩ := runs_inv (Inv.init node junk) hr
  exact h.sound

/-- The run queues of one CPU whose count happens to be zero. -/
def oneCpu : Sys := ⟨schedInit (fun _ => ⟨0, 0⟩) fun _ => 0, []⟩

/-- After `unschedule` of a process that is not there the count is `UINT32_MAX`, and `schedule`
finds no CPU. -/
theorem schedule_finds_no_cpu :
    ∃ s, Runs (fun _ => True) 1 oneCpu s ∧ ¬ Sound (fun _ => True) 1 s := by
  obtain ⟨st, hu, hn⟩ : ∃ st, Sched.unschedule 1 oneCpu.st 0 7 = .ok (st, 0) ∧
      (st.cpu 0).n = 2 ^ 32 - 1 := ⟨_, rfl, by decide⟩
  refine ⟨⟨st, []⟩, .single ⟨_, fun _ _ _ _ => trivial, .unschedule (by decide) hu⟩, fun h => ?_⟩
  obtain ⟨st', hs, -⟩ := h.schedule 1 8 5 0 (by decide) (by decide) (by simp) trivial
  have hc : ∀ node, cpuMin { st with node } 1 1 = 1 := by
    intro node
    simp [cpuMin, List.range_succ, hn]
  rw [Sched.schedule] at hs
  simp only [hc] at hs
  cases hs

/-- One process is scheduled and run. -/
theorem queues_sound_oneCpu : ∃ s, Runs (CanPlace 1) 1 oneCpu s ∧ OnQueue s.st 1 0 8 ∧
    Sound (CanPlace 1) 1 s := by
  obtain ⟨st, hs, ho⟩ : ∃ st, Sched.schedule oneCpu.st 1 0 8 5 0 = .ok st ∧
      (st.queue 1).start 0 = 8 := ⟨_, rfl, rfl⟩
  have hr : Runs (CanPlace 1) 1 oneCpu ⟨st, [8]⟩ :=
    .single ⟨_, fun _ _ _ _ => ⟨0, by decide, by decide⟩,
      .schedule (by decide) (by decide) (by simp [oneCpu]) hs⟩
  exact ⟨_, hr, ⟨[], ho, by simp, by simp⟩, queues_sound hr⟩

end Silkware.SchedRuns
