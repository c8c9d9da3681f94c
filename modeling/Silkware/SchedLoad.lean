import Silkware.SchedRuns

/-!
How the processes are spread over the CPUs: the counts `n` that `schedule` goes by, and what a
CPU without processes does at its timer tick.
-/

namespace Silkware.SchedLoad

open Silkware.Fifo Silkware.Kern Silkware.Links Silkware.Sched Silkware.SchedInv Silkware.SchedRuns

variable {ncpus : ℕ} {s s' : Sys} {L : Lists}

/-! ### What the calls do to the counts -/

lemma popLoop_cpu (s : State) (c : ℕ) (is : List Prio) : (popLoop s c is).1.cpu = s.cpu := by
  induction is with
  | nil => rfl
  | cons i is ih =>
    rw [popLoop]
    simp only
    split
    · rw [(push_same _ c _ i).cpu, cpu_setNext, cpu_setStart]
      split <;> rfl
    · exact ih

lemma setCpu_n (s : State) (c d : ℕ) (x : CpuQueue) :
    ((setCpu s c x).cpu d).n = if d = c then x.n else (s.cpu d).n := by
  simp only [setCpu]
  split <;> rfl

/-- The queues of CPU `c` changed over. -/
def swapped (s : State) (c : ℕ) : State :=
  setCpu s c { s.cpu c with active := (s.cpu c).inactive, inactive := (s.cpu c).active }

/-- What `proc_next` can do: run the first node of the active queue, or change the queues over
and run the first node then, or stop because there is none or because the process is unknown. -/
lemma procNext_eq (known : ℕ → Bool) (s : State) (c : ℕ) : procNext known s c =
    if (popUnlocked s c).2.2 ≠ 0 then
      if known (popUnlocked s c).2.2 then .ok ((popUnlocked s c).1, (popUnlocked s c).2.1, false)
      else .error .panic
    else
      let r := popUnlocked (swapped (popUnlocked s c).1 c) c
      if r.2.2 ≠ 0 ∧ known r.2.2 then .ok (r.1, r.2.1, true) else .error .panic := by
  have hsw : ∀ s : State, setCpu s c ⟨(s.cpu c).inactive, (s.cpu c).active, (s.cpu c).n⟩ =
      swapped s c := fun _ => rfl
  rw [procNext]
  simp only [hsw, procActivate]
  split
  · split
    · rfl
    · rfl
  · generalize popUnlocked (swapped (popUnlocked s c).1 c) c = r
    by_cases h0 : r.2.2 = 0
    · simp only [h0, ne_eq, not_true, false_and, if_true, if_false]
      rfl
    · by_cases hk : known r.2.2 = true
      · simp only [h0, hk, ne_eq, not_false_iff, true_and, if_true, if_false]
        rfl
      · simp only [h0, hk, ne_eq, not_false_iff, true_and, if_false]
        rfl

/-- `proc_next` leaves the counts alone. -/
lemma procNext_n {known : ℕ → Bool} {st st' : State} {c b : ℕ} {swap : Bool}
    (h : procNext known st c = .ok (st', b, swap)) (d : ℕ) : (st'.cpu d).n = (st.cpu d).n := by
  have hpop : ∀ st, (popUnlocked st c).1.cpu = st.cpu := fun st => popLoop_cpu st c _
  rw [procNext_eq] at h
  split at h
  · split at h
    · cases h
      rw [hpop]
    · cases h
  · simp only at h
    split at h
    · cases h
      rw [hpop, swapped, setCpu_n, hpop]
      split
      · rename_i hd
        rw [hd]
      · rfl
    · cases h

lemma removeLoop_cpu {fuel q pid : ℕ} {st : State} {is : List Prio} {r : State × ℕ}
    (h : removeLoop fuel st q pid is = .ok r) : r.1.cpu = st.cpu := by
  induction is with
  | nil => cases h; rfl
  | cons i is ih =>
    rw [removeLoop] at h
    cases hw : removeWalk st pid fuel 0 ((st.queue q).start i) with
    | error e => simp [hw, bind, Except.bind] at h
    | ok o =>
      simp only [hw, bind, Except.bind] at h
      cases o with
      | none => exact ih h
      | some pn =>
        cases h
        simp only
        split <;> split <;> rfl

/-- `unschedule` counts down on its own CPU. -/
lemma unschedule_n {fuel c pid b : ℕ} {st st' : State}
    (h : Sched.unschedule fuel st c pid = .ok (st', b)) (d : ℕ) :
    (st'.cpu d).n = if d = c then ((st.cpu c).n + (2 ^ 32 - 1)) % 2 ^ 32 else (st.cpu d).n := by
  rw [Sched.unschedule] at h
  obtain ⟨s₁, hs₁⟩ : ∃ s₁, s₁ = setCpu st c
    { st.cpu c with n := ((st.cpu c).n + (2 ^ 32 - 1)) % 2 ^ 32 } := ⟨_, rfl⟩
  simp only [← hs₁] at h
  have hst : st'.cpu = s₁.cpu := by
    cases hr : queueTryremove fuel s₁ (s₁.cpu c).active pid with
    | error e => simp [hr, bind, Except.bind] at h
    | ok r =>
      simp only [hr, bind, Except.bind, pure, Except.pure] at h
      have h1 := removeLoop_cpu hr
      split at h
      · cases h; exact h1
      · rw [← h1]; exact removeLoop_cpu h
  rw [hst, hs₁, setCpu_n]

/-- `schedule` counts up on the CPU it chose, and puts the node at the end of a list there. -/
lemma schedule_n {junk new pid : ℕ} {i : Prio} {st st' : State}
    (h : Sched.schedule st ncpus junk new pid i = .ok st') :
    cpuMin st ncpus junk < ncpus ∧
      (∀ d, (st'.cpu d).n = if d = cpuMin st ncpus junk then
        ((st.cpu (cpuMin st ncpus junk)).n + 1) % 2 ^ 32 else (st.cpu d).n) ∧
      (st'.queue (st.cpu (cpuMin st ncpus junk)).inactive).end_ i = new := by
  rw [Sched.schedule] at h
  simp only [show ∀ node, cpuMin { st with node } ncpus junk = cpuMin st ncpus junk from
    fun _ => rfl] at h
  generalize cpuMin st ncpus junk = c at h ⊢
  split at h
  · rename_i hc
    cases h
    refine ⟨hc, fun d => ?_, ?_⟩
    · rw [(push_same _ c new i).cpu, setCpu_n]
    · simp only [pushUnlocked]
      split <;> split <;> simp [setCpu]
  · cases h

/-- The CPU that `schedule` chose gets the process. -/
lemma schedule_bag_at {junk new pid : ℕ} {i : Prio} {st : State} (h : Inv s L) (hpid : pid ≠ 0)
    (h0 : new ≠ 0) (hnew : new ∉ s.held)
    (hr : Sched.schedule s.st ncpus junk new pid i = .ok st) :
    ∃ L', Inv ⟨st, new :: s.held⟩ L' ∧
      bag st L' (cpuMin s.st ncpus junk) = (pid, i) ::ₘ bag s.st L (cpuMin s.st ncpus junk) ∧
      ∀ d, d ≠ cpuMin s.st ncpus junk → bag st L' d = bag s.st L d := by
  obtain ⟨L', h', hs⟩ := schedule_lists h hpid h0 hnew hr
  obtain ⟨c, -, hmem, hb, hd⟩ := schedule_bag h hs
  obtain ⟨-, -, hend⟩ := schedule_n hr
  have hmem' : new ∈ L' (s.st.cpu (cpuMin s.st ncpus junk)).inactive i := by
    have := (h'.rep.list (s.st.cpu (cpuMin s.st ncpus junk)).inactive i).end_mem
    simp only [hend] at this
    exact this h0
  have hc : cpuMin s.st ncpus junk = c := by
    by_contra hne
    have hq := (h'.rep.one new _ i _ i hmem hmem').1
    exact h.queue_ne hne (Or.inr rfl) (Or.inr rfl) hq.symm
  rw [hc]
  exact ⟨L', h', hb, hd⟩

lemma mem_bag {st : State} {L : Lists} {c pid : ℕ} {i : Prio} :
    (pid, i) ∈ bag st L c ↔
      ∃ b ∈ L (st.cpu c).active i ++ L (st.cpu c).inactive i, (st.node b).pid = pid := by
  simp only [bag, Multiset.mem_sum, Finset.mem_univ, true_and, Multiset.mem_coe, List.mem_map,
    Prod.mk.injEq]
  constructor
  · rintro ⟨j, b, hb, hp, rfl⟩
    exact ⟨b, hb, hp⟩
  · rintro ⟨b, hb, hp⟩
    exact ⟨i, b, hb, hp, rfl⟩

/-- `unschedule` finds a process that is on one of the queues of its CPU. -/
lemma unschedule_finds {fuel c pid b : ℕ} {i : Prio} {st : State} (h : Inv s L)
    (hm : (pid, i) ∈ bag s.st L c) (hr : Sched.unschedule fuel s.st c pid = .ok (st, b)) : b ≠ 0 := by
  obtain ⟨x, hx, hp⟩ := mem_bag.mp hm
  rw [Sched.unschedule] at hr
  obtain ⟨s₁, hs₁⟩ : ∃ s₁, s₁ = setCpu s.st c
    { s.st.cpu c with n := ((s.st.cpu c).n + (2 ^ 32 - 1)) % 2 ^ 32 } := ⟨_, rfl⟩
  simp only [← hs₁] at hr
  have hrep : Rep s₁ L := by rw [hs₁]; exact Rep.setCpu h.rep c _
  have hp₁ : (s₁.node x).pid = pid := by rw [hs₁]; exact hp
  have hq : (s₁.cpu c).active = (s.st.cpu c).active ∧ (s₁.cpu c).inactive = (s.st.cpu c).inactive := by
    rw [hs₁]; simp [setCpu]
  cases hr1 : queueTryremove fuel s₁ (s₁.cpu c).active pid with
  | error e => simp [hr1, bind, Except.bind] at hr
  | ok r =>
    simp only [hr1, bind, Except.bind, pure, Except.pure] at hr
    cases hrep.removeLoop hr1 with
    | node hb => rw [if_pos hb] at hr; cases hr; exact hb
    | none hn =>
      simp only [ne_eq, not_true, if_false] at hr
      cases hrep.removeLoop hr with
      | node hb => exact hb
      | none hn' =>
        rcases List.mem_append.mp hx with hx | hx
        · exact absurd hp₁ (hn i (List.mem_finRange i) x (by rw [hq.1]; exact hx))
        · exact absurd hp₁ (hn' i (List.mem_finRange i) x (by rw [hq.2]; exact hx))

/-! ### The counts are exact -/

/-- A process is on one of the queues of CPU `c`. -/
def Queued (s : State) (c pid : ℕ) : Prop := ∃ L i, Reads s L ∧ (pid, i) ∈ bag s L c

/-- Calls of `schedule` while some CPU's count is below `UINT32_MAX`, of `unschedule` for a
process on the calling CPU, and of `proc_next`. -/
def Meets (ncpus : ℕ) (s : Sys) : Ev → Prop
  | .schedule _ _ _ => CanPlace ncpus s
  | .unschedule c pid _ => Queued s.st c pid
  | _ => True

/-- Runs whose calls all meet `Meets`. -/
def Calls (ncpus : ℕ) : Sys → Sys → Prop :=
  Relation.ReflTransGen fun s s' => ∃ ev, Meets ncpus s ev ∧ Step ncpus s ev s'

/-- Every CPU's count is the number of nodes on its two queues. -/
def Exact (ncpus : ℕ) (s : State) : Prop :=
  ∀ L, Reads s L → ∀ c < ncpus, (s.cpu c).n = (bag s L c).card

/-- `schedule` puts a process on a CPU with the fewest processes. -/
def Balances (ncpus : ℕ) (s : Sys) : Prop :=
  ∀ junk new pid i, pid ≠ 0 → new ≠ 0 → new ∉ s.held → CanPlace ncpus s →
    ∃ st, Sched.schedule s.st ncpus junk new pid i = .ok st ∧ ∃ c < ncpus, ∀ L L', Reads s.st L →
      Reads st L' → bag st L' c = (pid, i) ::ₘ bag s.st L c ∧
        ∀ d < ncpus, (bag s.st L c).card ≤ (bag s.st L d).card

/-- The counts are exact on the lists `L`. -/
def Counted (ncpus : ℕ) (s : State) (L : Lists) : Prop :=
  ∀ c < ncpus, (s.cpu c).n = (bag s L c).card ∧ (s.cpu c).n < 2 ^ 32

lemma Counted.step {ev : Ev} (h : Inv s L) (hc : Counted ncpus s.st L) (hm : Meets ncpus s ev)
    (hs : Step ncpus s ev s') : ∃ L', Inv s' L' ∧ Counted ncpus s'.st L' := by
  cases hs with
  | @schedule junk new pid i st hpid h0 hnew hr =>
    obtain ⟨L', h', hb, hd⟩ := schedule_bag_at h hpid h0 hnew hr
    obtain ⟨-, hn, -⟩ := schedule_n hr
    obtain ⟨hlt, hmax, -⟩ := cpuMin_spec junk hm
    generalize cpuMin s.st ncpus junk = c₀ at *
    refine ⟨L', h', fun c hcc => ?_⟩
    rw [hn c]
    split
    · rename_i he
      rw [he, hb, Multiset.card_cons, ← (hc c₀ hlt).1, Nat.mod_eq_of_lt (by omega)]
      exact ⟨rfl, by omega⟩
    · rename_i he
      rw [hd c he]
      exact hc c hcc
  | @next known c b swap st hcc hr =>
    obtain ⟨L', h', hs⟩ := next_lists ncpus h hr
    refine ⟨L', h', fun d hd => ?_⟩
    rw [procNext_n hr d, next_bag h hs d]
    exact hc d hd
  | @unschedule fuel c pid b st hcc hr =>
    obtain ⟨A, i, hA, hm⟩ := hm
    rw [hA.eq h.rep] at hm
    obtain ⟨L', h', hs⟩ := unschedule_lists ncpus h hr
    obtain ⟨⟨j, hb⟩, hd⟩ := remove_bag h (unschedule_finds h hm hr) hs
    refine ⟨L', h', fun d hdd => ?_⟩
    rw [unschedule_n hr d]
    split
    · rename_i he
      have hcard : (s.st.cpu c).n = (bag st L' c).card + 1 := by
        rw [(hc c hcc).1, hb, Multiset.card_cons]
      have := (hc c hcc).2
      rw [he, hcard]
      simp only
      omega
    · rename_i he
      rw [hd d he]
      exact hc d hdd
  | @other node hn =>
    obtain ⟨L', h', hs⟩ := step_lists h (Step.other hn : Step ncpus s _ _)
    cases hs with
    | other hcpu hp =>
      refine ⟨L, h', fun d hd => ?_⟩
      have hb : bag { s.st with node := node } L d = bag s.st L d :=
        bag_same rfl rfl (fun _ _ _ => rfl) hp
      exact hb ▸ hc d hd

lemma Counted.runs (h : Inv s L) (hc : Counted ncpus s.st L) (hr : Calls ncpus s s') :
    ∃ L', Inv s' L' ∧ Counted ncpus s'.st L' := by
  induction hr with
  | refl => exact ⟨L, h, hc⟩
  | tail _ hst ih =>
    obtain ⟨ev, hm, hst⟩ := hst
    obtain ⟨L', h', hc'⟩ := ih
    exact Counted.step h' hc' hm hst

lemma Counted.exact (h : Inv s L) (hc : Counted ncpus s.st L) : Exact ncpus s.st := by
  intro A hA c hcc
  rw [hA.eq h.rep]
  exact (hc c hcc).1

lemma Counted.balances (h : Inv s L) (hc : Counted ncpus s.st L) : Balances ncpus s := by
  intro junk new pid i hpid h0 hnew hG
  obtain ⟨st, hr⟩ := schedule_total junk new pid i hG
  obtain ⟨L', h', hb, -⟩ := schedule_bag_at h hpid h0 hnew hr
  obtain ⟨hlt, -, hmin⟩ := cpuMin_spec junk hG
  refine ⟨st, hr, _, hlt, fun A A' hA hA' => ?_⟩
  rw [hA.eq h.rep, hA'.eq h'.rep]
  refine ⟨hb, fun d hd => ?_⟩
  rw [← (hc _ hlt).1, ← (hc d hd).1]
  exact hmin d hd

lemma bag_nil (st : State) (c : ℕ) : bag st (fun _ _ => []) c = 0 :=
  Finset.sum_eq_zero fun _ _ => rfl

/-- **The counts are exact** in all states of all runs exactly when the memory that `sched_init`
gets for them is zero. -/
theorem counts_exact_iff (ncpus : ℕ) (node : ℕ → Node) (junk : ℕ → ℕ) :
    (∀ s, Calls ncpus ⟨schedInit node junk, []⟩ s → Exact ncpus s.st ∧ Balances ncpus s) ↔
      ∀ c < ncpus, junk c % 2 ^ 32 = 0 := by
  have h := Inv.init node junk
  constructor
  · intro hall c hc
    have := (hall _ .refl).1 _ (Rep.reads h.rep) c hc
    rwa [bag_nil, Multiset.card_zero] at this
  · intro hz s hr
    have h0 : Counted ncpus (schedInit node junk) fun _ _ => [] := by
      intro c hc
      rw [bag_nil]
      simp only [schedInit, hz c hc, Multiset.card_zero]
      exact ⟨trivial, by decide⟩
    obtain ⟨L, h', hc⟩ := Counted.runs h h0 hr
    exact ⟨hc.exact h', hc.balances h'⟩

/-- The count of a CPU starts at what was in memory. -/
theorem count_starts_at_junk : ¬ Exact 1 (schedInit (fun _ => ⟨0, 0⟩) fun _ => 5) := by
  intro h
  have := h _ (Rep.reads (Inv.init (fun _ => ⟨0, 0⟩) fun _ => 5).rep) 0 (by decide)
  rw [bag_nil] at this
  exact absurd this (by decide)

/-! ### Timer ticks -/

/-- The timer interrupt on CPU `c`, as far as the run queues go: `isr_handle` calls `ctx_switch`
once the scheduler is ready, and `ctx_switch` calls `proc_next`. -/
def timerTick (schedReady : Bool) (known : ℕ → Bool) (s : State) (c : ℕ) : Except Stop State :=
  if schedReady then do
    let (s, _) ← procNext known s c
    return s
  else return s

/-- The tick on CPU `c` gets to the panic "No processes available!": it stops although every
process is known, so that the assertion of `proc_activate` cannot be what fails. -/
def NoProcesses (s : State) (c : ℕ) : Prop := timerTick true (fun _ => true) s c = .error .panic

/-- CPU `c` has a process on its queues. -/
def Busy (s : State) (c : ℕ) : Prop := ∃ pid, Queued s c pid

/-- Some CPU has a process on its queues. -/
def Work (ncpus : ℕ) (s : State) : Prop := ∃ d < ncpus, Busy s d

/-- A search of the active queue of CPU `c` finds it empty, or finds a process on it. -/
lemma pop_cases (h : Inv s L) {st : State} (hrep : Rep st L) (hnode : st.node = s.st.node) {c : ℕ}
    (hne : (st.cpu c).active ≠ (st.cpu c).inactive) :
    popUnlocked st c = (st, 0, 0) ∧ (∀ i, L (st.cpu c).active i = []) ∨
      (popUnlocked st c).2.2 ≠ 0 ∧ ∃ i, ∃ b ∈ L (st.cpu c).active i,
        (popUnlocked st c).2.2 = (s.st.node b).pid := by
  have hpop : Popped st L c _ (popUnlocked st c) := hrep.popLoop hne _
  cases hpu : popUnlocked st c with
  | mk s₁ r =>
    rw [hpu] at hpop
    cases hpop with
    | none hn => exact Or.inl ⟨rfl, fun i => hn i (List.mem_finRange i)⟩
    | @node is₁ is₂ i b l _ his hlow hl hrep hs =>
      have hb : b ∈ L (st.cpu c).active i := by rw [hl]; simp
      simp only [hnode]
      exact Or.inr ⟨h.pid _ i b hb, i, b, hb, rfl⟩

/-- What `proc_next` finds on CPU `c`: nothing, or a process of that CPU. -/
lemma procNext_cases (h : Inv s L) (c : ℕ) :
    bag s.st L c = 0 ∧ (∀ known, procNext known s.st c = .error .panic) ∨
      ∃ pid i r, (pid, i) ∈ bag s.st L c ∧
        ∀ known, procNext known s.st c = if known pid then .ok r else .error .panic := by
  rcases pop_cases h h.rep rfl (h.ne c) with ⟨hp, hemp⟩ | ⟨hp, i, b, hb, hpid⟩
  · -- the active queue is empty, so the inactive one decides
    have hcpu : ((swapped s.st c).cpu c).active = (s.st.cpu c).inactive ∧
        ((swapped s.st c).cpu c).inactive = (s.st.cpu c).active := by simp [swapped, setCpu]
    have hrep : Rep (swapped s.st c) L := Rep.setCpu h.rep c _
    have hsw := pop_cases h (c := c) hrep rfl (by rw [hcpu.1, hcpu.2]; exact (h.ne c).symm)
    rw [hcpu.1] at hsw
    have heq : ∀ known, procNext known s.st c =
        if (popUnlocked (swapped s.st c) c).2.2 ≠ 0 ∧ known (popUnlocked (swapped s.st c) c).2.2 then
          .ok ((popUnlocked (swapped s.st c) c).1, (popUnlocked (swapped s.st c) c).2.1, true)
        else .error .panic := by
      intro known
      rw [procNext_eq, hp, if_neg (by simp)]
    rcases hsw with ⟨hp', hemp'⟩ | ⟨hp', i, b, hb, hpid⟩
    · refine Or.inl ⟨Finset.sum_eq_zero fun i _ => ?_, fun known => ?_⟩
      · rw [hemp i, hemp' i]
        rfl
      · rw [heq, hp', if_neg (by simp)]
    · refine Or.inr ⟨(s.st.node b).pid, i, ((popUnlocked (swapped s.st c) c).1,
        (popUnlocked (swapped s.st c) c).2.1, true),
        mem_bag.mpr ⟨b, List.mem_append_right _ hb, rfl⟩, fun known => ?_⟩
      rw [heq, hpid]
      rw [hpid] at hp'
      simp only [hp', ne_eq, not_false_iff, true_and]
  · refine Or.inr ⟨(s.st.node b).pid, i, ((popUnlocked s.st c).1, (popUnlocked s.st c).2.1, false),
      mem_bag.mpr ⟨b, List.mem_append_left _ hb, rfl⟩, fun known => ?_⟩
    rw [procNext_eq, if_pos hp, hpid]

lemma busy_iff (h : Inv s L) (c : ℕ) : Busy s.st c ↔ bag s.st L c ≠ 0 := by
  constructor
  · rintro ⟨pid, A, i, hA, hm⟩ h0
    rw [hA.eq h.rep, h0] at hm
    exact Multiset.notMem_zero _ hm
  · intro h0
    obtain ⟨⟨pid, i⟩, hm⟩ := Multiset.exists_mem_of_ne_zero h0
    exact ⟨pid, L, i, Rep.reads h.rep, hm⟩

/-- A tick finds no process exactly on a CPU that has none. -/
lemma noProcesses_iff (h : Inv s L) (c : ℕ) : NoProcesses s.st c ↔ ¬ Busy s.st c := by
  rw [busy_iff h, not_not, NoProcesses, timerTick, if_pos rfl]
  rcases procNext_cases h c with ⟨h0, hp⟩ | ⟨pid, i, r, hm, hp⟩
  · rw [hp]
    exact ⟨fun _ => h0, fun _ => rfl⟩
  · rw [hp, if_pos rfl]
    refine ⟨nofun, fun h0 => ?_⟩
    rw [h0] at hm
    exact absurd hm (Multiset.notMem_zero _)

/-- With two CPUs or more, the first process leaves a CPU without one. -/
lemma one_process (hn : 2 ≤ ncpus) : ∃ s, Runs (fun _ => True) ncpus oneCpu s ∧
    Work ncpus s.st ∧ ∃ d < ncpus, ¬ Busy s.st d := by
  have h := Inv.init (fun _ => ⟨0, 0⟩) fun _ => 0
  have hcan : CanPlace ncpus oneCpu := ⟨0, by omega, by decide⟩
  obtain ⟨st, hr⟩ := schedule_total 0 8 5 0 hcan
  obtain ⟨L', h', hb, hd⟩ := schedule_bag_at h (by decide) (by decide) (by simp) hr
  obtain ⟨hlt, -, -⟩ := cpuMin_spec 0 hcan
  refine ⟨⟨st, [8]⟩, .single ⟨_, fun _ _ _ _ => trivial, .schedule (by decide) (by decide)
    (by simp [oneCpu]) hr⟩, ⟨_, hlt, ?_⟩, ?_⟩
  · refine (busy_iff h' _).mpr ?_
    exact hb.trans_ne (Multiset.cons_ne_zero)
  · obtain ⟨d, hdn, hdc⟩ : ∃ d < ncpus, d ≠ cpuMin oneCpu.st ncpus 0 := by
      by_cases h0 : cpuMin oneCpu.st ncpus 0 = 0
      · exact ⟨1, by omega, by omega⟩
      · exact ⟨0, by omega, by omega⟩
    refine ⟨d, hdn, fun hbusy => (busy_iff h' d).mp hbusy ?_⟩
    exact (hd d hdc).trans (bag_nil _ _)

/-- **Ticks and work.** In every state of every run, the tick on a CPU panics for want of
processes exactly when that CPU's own queues are empty. So work on some CPU keeps the ticks on
all CPUs from the panic in all runs only if there is one CPU. -/
theorem ticks_safe_iff (hn : 1 ≤ ncpus) :
    (∀ node junk s, Runs (fun _ => True) ncpus ⟨schedInit node junk, []⟩ s →
      ∀ c < ncpus, (Work ncpus s.st → ¬ NoProcesses s.st c) ↔ (Work ncpus s.st → Busy s.st c)) ∧
    ((∀ node junk s, Runs (fun _ => True) ncpus ⟨schedInit node junk, []⟩ s →
      ∀ c < ncpus, Work ncpus s.st → ¬ NoProcesses s.st c) ↔ ncpus = 1) := by
  refine ⟨fun node junk s hr c hc => ?_, fun hall => ?_, fun h1 node junk s hr c hc hw => ?_⟩
  · obtain ⟨L, h⟩ := runs_inv (Inv.init node junk) hr
    rw [noProcesses_iff h, not_not]
  · by_contra hne
    obtain ⟨s, hr, hw, d, hd, hidle⟩ := one_process (show 2 ≤ ncpus by omega)
    obtain ⟨L, h⟩ := runs_inv (Inv.init _ _) hr
    exact hall _ _ s hr d hd hw ((noProcesses_iff h d).mpr hidle)
  · obtain ⟨L, h⟩ := runs_inv (Inv.init node junk) hr
    rw [noProcesses_iff h, not_not]
    obtain ⟨d, hd, hb⟩ := hw
    obtain rfl : d = c := by omega
    exact hb

theorem ticks_unsafe_two : ¬ ∀ node junk s, Runs (fun _ => True) 2 ⟨schedInit node junk, []⟩ s →
    ∀ c < 2, Work 2 s.st → ¬ NoProcesses s.st c := by
  rw [(ticks_safe_iff (show 1 ≤ 2 by decide)).2]
  decide

/-- Process 5 is scheduled on one of two CPUs; the tick on the other panics. -/
theorem tick_panics_with_work : ∃ s, Runs (fun _ => True) 2 oneCpu s ∧ Work 2 s.st ∧
    ∃ d < 2, NoProcesses s.st d := by
  obtain ⟨s, hr, hw, d, hd, hidle⟩ := one_process (Nat.le_refl 2)
  obtain ⟨L, h⟩ := runs_inv (Inv.init _ _) hr
  exact ⟨s, hr, hw, d, hd, (noProcesses_iff h d).mpr hidle⟩

end Silkware.SchedLoad
