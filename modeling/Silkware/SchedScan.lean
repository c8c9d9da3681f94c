import Mathlib.Tactic.Abel
import Silkware.LeastLoaded
import Silkware.SchedLoad

/-!
`schedule` on several CPUs at once.

It looks at the counts of the queues without their locks, one after the other, and takes the lock
only of the queue it has chosen. Until then the counts may change, and so may all queues.
-/

namespace Silkware.SchedScan

open Silkware.Kern Silkware.Links Silkware.Sched Silkware.SchedInv Silkware.SchedLoad
open Silkware.SchedRuns hiding Step Runs

/-- A call of `schedule` in its loop. -/
structure Scan where
  new : ℕ
  pid : ℕ
  priority : Prio
  cpu : ℕ
  nMin : ℕ
  cpuMin : ℕ

/-- One turn of the loop, at a CPU with the count `n`. -/
def Scan.look (x : Scan) (n : ℕ) : Scan where
  new := x.new
  pid := x.pid
  priority := x.priority
  cpu := x.cpu + 1
  nMin := if n < x.nMin then n else x.nMin
  cpuMin := if n < x.nMin then x.cpu else x.cpuMin

/-- What `schedule` does under the lock. -/
def place (s : State) (c new : ℕ) (priority : Prio) : State :=
  pushUnlocked (setCpu s c { s.cpu c with n := ((s.cpu c).n + 1) % 2 ^ 32 }) c new priority

structure Conf where
  sys : Sys
  scans : Multiset Scan

inductive Event
  | start (pid : ℕ) (priority : Prio)
  | look
  | place
  | call (ev : Ev)

/-- One step of a call of `schedule`, of which there are at most `m` at a time, or another call as a
whole. -/
inductive Step (m ncpus : ℕ) (c : Conf) : Event → Conf → Prop
  | start {junk new pid : ℕ} {priority : Prio} (hm : c.scans.card < m) (hpid : pid ≠ 0)
      (h0 : new ≠ 0) (hnew : new ∉ c.sys.held) :
      Step m ncpus c (.start pid priority)
        ⟨⟨{ c.sys.st with node := fun b => if b = new then ⟨0, pid⟩ else c.sys.st.node b },
          new :: c.sys.held⟩, ⟨new, pid, priority, 0, 2 ^ 32 - 1, junk⟩ ::ₘ c.scans⟩
  | look {x : Scan} {r : Multiset Scan} (h : c.scans = x ::ₘ r) (hc : x.cpu < ncpus) :
      Step m ncpus c .look ⟨c.sys, x.look (c.sys.st.cpu x.cpu).n ::ₘ r⟩
  | place {x : Scan} {r : Multiset Scan} (h : c.scans = x ::ₘ r) (hc : x.cpu = ncpus)
      (hm : x.cpuMin < ncpus) :
      Step m ncpus c .place ⟨⟨SchedScan.place c.sys.st x.cpuMin x.new x.priority, c.sys.held⟩, r⟩
  | call {ev : Ev} {s : Sys} (h : SchedRuns.Step ncpus c.sys ev s)
      (hev : ∀ new pid i, ev ≠ .schedule new pid i) : Step m ncpus c (.call ev) ⟨s, c.scans⟩

inductive Run (m ncpus : ℕ) (c₀ : Conf) : List Event → Conf → Prop
  | nil : Run m ncpus c₀ [] c₀
  | snoc {es : List Event} {c c' : Conf} {e : Event} (h : Run m ncpus c₀ es c)
      (hs : Step m ncpus c e c') : Run m ncpus c₀ (es ++ [e]) c'

/-- The processes `schedule` was called with. -/
def started (es : List Event) : List (ℕ × Prio) :=
  es.filterMap fun e => match e with
    | .start pid i => some (pid, i)
    | _ => none

/-- The processes `unschedule` was called with. -/
def unscheduled (es : List Event) : List ℕ :=
  es.filterMap fun e => match e with
    | .call (.unschedule _ pid _) => some pid
    | _ => none

variable {m ncpus : ℕ} {c₀ c c' : Conf} {es : List Event} {s s' : Sys} {L L' : Lists}

/-! ### Nodes that are on no list yet -/

lemma pushUnlocked_node {st : State} {d new x : ℕ} {i : Prio}
    (h : x ≠ (st.queue (st.cpu d).inactive).end_ i) :
    (pushUnlocked st d new i).node x = st.node x := by
  unfold pushUnlocked
  dsimp only
  split <;> split <;> simp [setNext, h]

lemma popLoop_node {st : State} (h : Rep st L) {d x : ℕ}
    (hne : (st.cpu d).active ≠ (st.cpu d).inactive) (hx : ∀ q i, x ∉ L q i) (h0 : x ≠ 0)
    (is : List Prio) : (popLoop st d is).1.node x = st.node x := by
  have hend : ∀ q i, x ≠ (st.queue q).end_ i := by
    rintro q i rfl
    exact hx q i ((h.list q i).end_mem h0)
  induction is with
  | nil => rfl
  | cons i is ih =>
    rw [popLoop]
    simp only
    split
    · rename_i hb
      have hxb : x ≠ (st.queue (st.cpu d).active).start i := by
        intro e
        have hl := h.list (st.cpu d).active i
        cases hL : L (st.cpu d).active i with
        | nil => exact hb (hl.start_eq_null.mpr hL)
        | cons b l =>
          refine hx (st.cpu d).active i ?_
          rw [e, hL]
          rw [hL] at hl
          rw [hl.chain.1]
          exact List.mem_cons_self
      rw [pushUnlocked_node]
      · split <;> simp [setNext, hxb]
      · split <;> simp [setNext, Ne.symm hne, hend]
    · exact ih

lemma procNext_node {known : ℕ → Bool} {d b x : ℕ} {swap : Bool} {st : State} (h : Inv s L)
    (hr : procNext known s.st d = .ok (st, b, swap)) (hx : ∀ q i, x ∉ L q i) (h0 : x ≠ 0) :
    st.node x = s.st.node x := by
  have hpop : (popUnlocked s.st d).1.node x = s.st.node x := popLoop_node h.rep (h.ne d) hx h0 _
  rw [procNext_eq] at hr
  split at hr
  · split at hr
    · cases hr
      exact hpop
    · cases hr
  · rename_i hz
    simp only at hr
    split at hr
    · cases hr
      have hst : (popUnlocked s.st d).1 = s.st := by
        have hp : Popped s.st L d _ (popUnlocked s.st d) := h.rep.popLoop (h.ne d) _
        generalize popUnlocked s.st d = r at hp hz
        cases hp with
        | none hn => rfl
        | node his hlow hl hrep hs =>
          refine absurd ?_ hz
          exact h.pid _ _ _ (by rw [hl]; exact List.mem_cons_self)
      rw [hst]
      refine popLoop_node (Rep.setCpu h.rep d _ : Rep (swapped s.st d) L) ?_ hx h0 _
      simpa [swapped, setCpu] using (h.ne d).symm
    · cases hr

lemma removeLoop_node {fuel q pid x : ℕ} {st : State} {is : List Prio} {r : State × ℕ}
    (h : Rep st L) (hr : removeLoop fuel st q pid is = .ok r) (hx : ∀ q i, x ∉ L q i) :
    r.1.node x = st.node x := by
  induction is with
  | nil => cases hr; rfl
  | cons i is ih =>
    rw [removeLoop] at hr
    cases hw : removeWalk st pid fuel 0 ((st.queue q).start i) with
    | error e => simp [hw, bind, Except.bind] at hr
    | ok o =>
      simp only [hw, bind, Except.bind] at hr
      cases o with
      | none => exact ih hr
      | some pn =>
        obtain ⟨p, n⟩ := pn
        obtain ⟨l1, l2, he, hp, -⟩ := removeWalk_spec (h.list q i).chain hw
        cases hr
        simp only
        have hxp : p ≠ 0 → x ≠ p := by
          rintro h0 rfl
          refine hx q i ?_
          rw [he]
          rcases List.eq_nil_or_concat' l1 with rfl | ⟨l, a, rfl⟩
          · exact absurd hp h0
          · rw [List.getLastD_concat] at hp
            simp [hp]
        split
        · rename_i h0
          split <;> simp [setNext, hxp h0]
        · split <;> rfl

lemma unschedule_node {fuel d pid b x : ℕ} {st : State} (h : Inv s L)
    (hr : Sched.unschedule fuel s.st d pid = .ok (st, b)) (hx : ∀ q i, x ∉ L q i) :
    st.node x = s.st.node x := by
  rw [Sched.unschedule] at hr
  set s₁ := setCpu s.st d { s.st.cpu d with n := ((s.st.cpu d).n + (2 ^ 32 - 1)) % 2 ^ 32 }
  have hrep : Rep s₁ L := Rep.setCpu h.rep d _
  cases hr1 : queueTryremove fuel s₁ (s₁.cpu d).active pid with
  | error e => simp [hr1, bind, Except.bind] at hr
  | ok r =>
    have h1 : r.1.node x = s₁.node x := removeLoop_node hrep hr1 hx
    simp only [hr1, bind, Except.bind, pure, Except.pure] at hr
    split at hr
    · cases hr
      exact h1
    · rename_i hz
      cases hrep.removeLoop hr1 with
      | node hb => exact absurd hb hz
      | none hn => exact removeLoop_node hrep hr hx

/-! ### No process is lost or duplicated -/

/-- The node of a call in its loop is on no list, and nobody else writes to it. -/
structure Own (s : Sys) (L : Lists) (x : Scan) : Prop where
  null : x.new ≠ 0
  pid_ne : x.pid ≠ 0
  held : x.new ∈ s.held
  node : s.st.node x.new = ⟨0, x.pid⟩
  off : ∀ q i, x.new ∉ L q i

/-- A node that is on no list stays off them in the calls other than `schedule`. -/
lemma off_of_lists {ev : Ev} {x : ℕ} (hs : LStep ncpus s L ev s' L')
    (hev : ∀ new pid i, ev ≠ .schedule new pid i) (hx : ∀ q i, x ∉ L q i) (q : ℕ) (i : Prio) :
    x ∉ L' q i := by
  intro hm
  cases hs with
  | schedule => exact hev _ _ _ rfl
  | next hlow hl hs =>
    obtain ⟨q, i, hm⟩ := mem_move hl hm
    exact hx q i hm
  | swap hnone hlow hl hc hd hp =>
    obtain ⟨q, i, hm⟩ := mem_move hl hm
    exact hx q i hm
  | absent hq hp => exact hx q i hm
  | @remove _ _ _ b r j l1 l2 hb hqc hl hpid hq hp =>
    rcases mem_put hm with hm | hm
    · refine hx r j ?_
      rw [hl]
      rcases List.mem_append.mp hm with hm | hm
      · exact List.mem_append_left _ hm
      · exact List.mem_append_right _ (List.mem_cons_of_mem _ hm)
    · exact hx q i hm
  | other hc hp => exact hx q i hm

/-- A call that returns meanwhile leaves the node alone. -/
lemma Own.call {ev : Ev} {x : Scan} (h : Own s L x) (hi : Inv s L) (hs : SchedRuns.Step ncpus s ev s')
    (hl : LStep ncpus s L ev s' L') (hev : ∀ new pid i, ev ≠ .schedule new pid i) : Own s' L' x := by
  have hoff := off_of_lists hl hev h.off
  cases hs with
  | schedule => exact absurd rfl (hev _ _ _)
  | next hc hr =>
    exact ⟨h.null, h.pid_ne, h.held, (procNext_node hi hr h.off h.null).trans h.node, hoff⟩
  | @unschedule fuel d pid b st hc hr =>
    have hb : x.new ≠ b := by
      intro e
      cases hl with
      | absent => exact h.null e
      | remove _ _ hl => exact h.off _ _ (by rw [hl, e]; simp)
    exact ⟨h.null, h.pid_ne, (List.mem_erase_of_ne hb).mpr h.held,
      (unschedule_node hi hr h.off).trans h.node, hoff⟩
  | other hn => exact ⟨h.null, h.pid_ne, h.held, (hn _ h.held).trans h.node, hoff⟩

/-- Under the lock the node goes to the end of its list. -/
lemma place_lists {x : Scan} (h : Inv s L) (hx : Own s L x) (hm : x.cpuMin < ncpus) :
    ∃ L', Inv ⟨place s.st x.cpuMin x.new x.priority, s.held⟩ L' ∧
      LStep ncpus s L (.schedule x.new x.pid x.priority)
        ⟨place s.st x.cpuMin x.new x.priority, s.held⟩ L' ∧
      ∀ y, y ≠ x.new → (∀ q i, y ∉ L q i) → ∀ q i, y ∉ L' q i := by
  set d := x.cpuMin
  set s₁ := setCpu s.st d { s.st.cpu d with n := ((s.st.cpu d).n + 1) % 2 ^ 32 } with hs₁
  have hq : SameQueues s.st s₁ := by
    intro e
    simp only [hs₁, Sched.setCpu]
    split
    · rename_i he
      rw [he]
      exact ⟨rfl, rfl⟩
    · exact ⟨rfl, rfl⟩
  have hsame := push_same s₁ d x.new x.priority
  have hq' : SameQueues s.st (pushUnlocked s₁ d x.new x.priority) := fun e => by
    rw [hsame.cpu]
    exact hq e
  have hnx : nx s₁ x.new = 0 := congrArg Node.next hx.node
  have hpush := (Rep.setCpu h.rep d _ : Rep s₁ L).push d x.priority hx.null hnx hx.off
  rw [(hq d).2] at hpush
  have hmem : ∀ y q i, y ∈ put L (s.st.cpu d).inactive x.priority
      (L (s.st.cpu d).inactive x.priority ++ [x.new]) q i → y = x.new ∨ ∃ r j, y ∈ L r j := by
    intro y q i hy
    rcases mem_put hy with hy | hy
    · rcases List.mem_append.mp hy with hy | hy
      · exact Or.inr ⟨_, _, hy⟩
      · exact Or.inl (List.mem_singleton.mp hy)
    · exact Or.inr ⟨_, _, hy⟩
  have hpid : ∀ y, ((pushUnlocked s₁ d x.new x.priority).node y).pid = (s.st.node y).pid := hsame.pid
  rw [show place s.st d x.new x.priority = pushUnlocked s₁ d x.new x.priority from rfl]
  refine ⟨_, ⟨hpush, fun q i y hy => ?_, fun q i y hy => ?_, fun e => ?_⟩,
    .schedule hm hx.off ((hpid _).trans (congrArg Node.pid hx.node)) hq' fun y _ => hpid y,
    fun y hne hy q i hyL => ?_⟩
  · rcases hmem y q i hy with rfl | ⟨r, j, hy⟩
    · exact hx.held
    · exact h.held r j y hy
  · rw [hpid]
    rcases hmem y q i hy with rfl | ⟨r, j, hy⟩
    · rw [hx.node]
      exact hx.pid_ne
    · exact h.pid r j y hy
  · rw [(hq' e).1, (hq' e).2]
    exact h.own e
  · rcases hmem y q i hyL with rfl | ⟨r, j, hyL⟩
    · exact hne rfl
    · exact hy r j hyL

/-- The processes on the queues of all CPUs. -/
def queued (ncpus : ℕ) (s : State) (L : Lists) : Multiset (ℕ × Prio) :=
  ∑ d ∈ Finset.range ncpus, bag s L d

/-- The processes of the calls in their loop. -/
def pending (c : Conf) : Multiset (ℕ × Prio) := c.scans.map fun x => (x.pid, x.priority)

lemma queued_cons {st st' : State} {d : ℕ} {p : ℕ × Prio} (hd : d < ncpus)
    (h : bag st' L' d = p ::ₘ bag st L d) (ho : ∀ e, e ≠ d → bag st' L' e = bag st L e) :
    queued ncpus st' L' = p ::ₘ queued ncpus st L := by
  have hm := Finset.mem_range.mpr hd
  rw [queued, queued, ← Finset.add_sum_erase _ _ hm, ← Finset.add_sum_erase _ _ hm, h,
    Multiset.cons_add]
  congr 2
  exact Finset.sum_congr rfl fun e he => ho e (Finset.ne_of_mem_erase he)

lemma queued_same {st st' : State} (h : ∀ e, bag st' L' e = bag st L e) :
    queued ncpus st' L' = queued ncpus st L :=
  Finset.sum_congr rfl fun e _ => h e

/-- The queues, the calls in their loop, and what `unschedule` has taken away. -/
structure Kept (ncpus : ℕ) (es : List Event) (c : Conf) (L : Lists) (gone : Multiset (ℕ × Prio)) :
    Prop where
  inv : Inv c.sys L
  own : ∀ x ∈ c.scans, Own c.sys L x
  apart : (c.scans.map Scan.new).Nodup
  gone_le : gone.map Prod.fst ≤ (unscheduled es : Multiset ℕ)
  all : (started es : Multiset (ℕ × Prio)) = queued ncpus c.sys.st L + pending c + gone

variable {gone : Multiset (ℕ × Prio)}

lemma started_snoc (es : List Event) (e : Event) : started (es ++ [e]) = started es ++ started [e] :=
  List.filterMap_append

lemma unscheduled_snoc (es : List Event) (e : Event) :
    unscheduled (es ++ [e]) = unscheduled es ++ unscheduled [e] :=
  List.filterMap_append

lemma Kept.start {junk new pid : ℕ} {i : Prio} (h : Kept ncpus es c L gone) (hpid : pid ≠ 0)
    (h0 : new ≠ 0) (hnew : new ∉ c.sys.held) : Kept ncpus (es ++ [.start pid i])
      ⟨⟨{ c.sys.st with node := fun b => if b = new then ⟨0, pid⟩ else c.sys.st.node b },
        new :: c.sys.held⟩, ⟨new, pid, i, 0, 2 ^ 32 - 1, junk⟩ ::ₘ c.scans⟩ L gone := by
  have hoff : ∀ q j, new ∉ L q j := fun q j hm => hnew (h.inv.held q j new hm)
  have hnode : ∀ b, b ≠ new → (if b = new then ⟨0, pid⟩ else c.sys.st.node b) = c.sys.st.node b :=
    fun b hb => if_neg hb
  have hL : ∀ q j, ∀ b ∈ L q j, b ≠ new := fun q j b hb e => hoff q j (e ▸ hb)
  have hheld : ∀ x ∈ c.scans, x.new ≠ new := fun x hx e => hnew (e ▸ (h.own x hx).held)
  refine ⟨⟨⟨fun q j => (h.inv.rep.list q j).congr fun b hb => ?_, h.inv.rep.one⟩, fun q j b hb =>
    List.mem_cons_of_mem _ (h.inv.held q j b hb), fun q j b hb => ?_, h.inv.own⟩, fun x hx => ?_, ?_,
    ?_, ?_⟩
  · exact congrArg Node.next (hnode b (hL q j b hb))
  · exact (congrArg Node.pid (hnode b (hL q j b hb))).trans_ne (h.inv.pid q j b hb)
  · rcases Multiset.mem_cons.mp hx with rfl | hx
    · exact ⟨h0, hpid, List.mem_cons_self, if_pos rfl, hoff⟩
    · have ho := h.own x hx
      exact ⟨ho.null, ho.pid_ne, List.mem_cons_of_mem _ ho.held, (hnode _ (hheld x hx)).trans ho.node,
        ho.off⟩
  · rw [Multiset.map_cons, Multiset.nodup_cons]
    refine ⟨fun hm => ?_, h.apart⟩
    obtain ⟨x, hx, he⟩ := Multiset.mem_map.mp hm
    exact hheld x hx he
  · rw [unscheduled_snoc]
    simpa [unscheduled] using h.gone_le
  · have hq : queued ncpus { c.sys.st with
        node := fun b => if b = new then ⟨0, pid⟩ else c.sys.st.node b } L =
        queued ncpus c.sys.st L :=
      queued_same fun e => bag_same rfl rfl (fun _ _ _ => rfl) fun q j b hb =>
        congrArg Node.pid (hnode b (hL q j b hb))
    rw [started_snoc, ← Multiset.coe_add, h.all, hq, pending, pending, Multiset.map_cons]
    simp only [started, List.filterMap_cons, List.filterMap_nil, Multiset.coe_singleton]
    rw [← Multiset.singleton_add]
    abel

lemma Kept.look {x : Scan} {r : Multiset Scan} (n : ℕ) (h : Kept ncpus es c L gone)
    (hc : c.scans = x ::ₘ r) : Kept ncpus (es ++ [.look]) ⟨c.sys, x.look n ::ₘ r⟩ L gone := by
  obtain ⟨hinv, hown, hapart, hgone, hall⟩ := h
  rw [hc] at hown hapart
  refine ⟨hinv, fun y hy => ?_, by simpa [Scan.look] using hapart, ?_, ?_⟩
  · rcases Multiset.mem_cons.mp hy with rfl | hy
    · have ho := hown x (Multiset.mem_cons_self x r)
      exact ⟨ho.null, ho.pid_ne, ho.held, ho.node, ho.off⟩
    · exact hown y (Multiset.mem_cons_of_mem hy)
  · rw [unscheduled_snoc]
    simpa [unscheduled] using hgone
  · rw [started_snoc]
    simpa [started, pending, hc, Scan.look] using hall

lemma Kept.place {x : Scan} {r : Multiset Scan} (h : Kept ncpus es c L gone)
    (hc : c.scans = x ::ₘ r) (hm : x.cpuMin < ncpus) : ∃ L', Kept ncpus (es ++ [.place])
      ⟨⟨SchedScan.place c.sys.st x.cpuMin x.new x.priority, c.sys.held⟩, r⟩ L' gone := by
  obtain ⟨hinv, hown, hapart, hgone, hall⟩ := h
  rw [hc] at hown hapart
  have hx := hown x (Multiset.mem_cons_self x r)
  rw [Multiset.map_cons, Multiset.nodup_cons] at hapart
  obtain ⟨L', hinv', hstep, hoff⟩ := place_lists hinv hx hm
  have hne : ∀ y ∈ r, y.new ≠ x.new := fun y hy e =>
    hapart.1 (Multiset.mem_map.mpr ⟨y, hy, e⟩)
  refine ⟨L', hinv', fun y hy => ?_, hapart.2, ?_, ?_⟩
  · have ho := hown y (Multiset.mem_cons_of_mem hy)
    refine ⟨ho.null, ho.pid_ne, ho.held, ?_, hoff _ (hne y hy) ho.off⟩
    refine (pushUnlocked_node ?_).trans ho.node
    rintro e
    exact ho.off _ _ (by
      rw [e]
      exact (hinv.rep.list _ _).end_mem (e ▸ ho.null))
  · rw [unscheduled_snoc]
    simpa [unscheduled] using hgone
  · obtain ⟨d, hd, -, hb, ho⟩ := schedule_bag hinv hstep
    have hstarted : started (es ++ [.place]) = started es := by
      rw [started_snoc]
      exact List.append_nil _
    rw [hstarted, hall, queued_cons hd hb ho, pending, pending, hc, Multiset.map_cons]
    simp only [Multiset.cons_add, Multiset.add_cons]

lemma Kept.call {ev : Ev} {s : Sys} (h : Kept ncpus es c L gone)
    (hs : SchedRuns.Step ncpus c.sys ev s) (hev : ∀ new pid i, ev ≠ .schedule new pid i) :
    ∃ L' gone', Kept ncpus (es ++ [.call ev]) ⟨s, c.scans⟩ L' gone' := by
  obtain ⟨L', hinv', hl⟩ := step_lists h.inv hs
  have hown : ∀ x ∈ c.scans, Own s L' x := fun x hx => (h.own x hx).call h.inv hs hl hev
  have hstarted : started (es ++ [.call ev]) = started es := by
    rw [started_snoc]
    exact List.append_nil _
  have hle : (unscheduled es : Multiset ℕ) ≤ unscheduled (es ++ [.call ev]) := by
    rw [unscheduled_snoc, ← Multiset.coe_add]
    exact Multiset.le_add_right _ _
  -- what the queues hold has changed only by what one call of `unschedule` has taken away
  have hkeep : (∀ e, bag s.st L' e = bag c.sys.st L e) →
      Kept ncpus (es ++ [.call ev]) ⟨s, c.scans⟩ L' gone := fun hb =>
    ⟨hinv', hown, h.apart, h.gone_le.trans hle, by
      rw [hstarted, queued_same hb]
      exact h.all⟩
  cases hev' : ev with
  | schedule new pid i => exact absurd hev' (hev new pid i)
  | next d b swap =>
    subst hev'
    exact ⟨L', gone, hkeep (next_bag h.inv hl)⟩
  | other =>
    subst hev'
    cases hl with
    | other hcpu hp =>
      refine ⟨L, gone, hkeep fun e => ?_⟩
      exact bag_same (by rw [hcpu]) (by rw [hcpu]) (fun _ _ _ => rfl) hp
  | unschedule d pid b =>
    subst hev'
    have hd : d < ncpus := by
      cases hs with
      | unschedule hc _ => exact hc
    obtain ⟨hb, ho⟩ := unschedule_bag h.inv hl
    rcases hb with hb | ⟨i, hb⟩
    · refine ⟨L', gone, hkeep fun e => ?_⟩
      rcases eq_or_ne e d with rfl | he
      · exact hb
      · exact ho e he
    · refine ⟨L', (pid, i) ::ₘ gone, hinv', hown, h.apart, ?_, ?_⟩
      · rw [unscheduled_snoc, ← Multiset.coe_add, Multiset.map_cons, ← Multiset.singleton_add,
          add_comm]
        exact add_le_add h.gone_le le_rfl
      · rw [hstarted, h.all, queued_cons hd hb fun e he => (ho e he).symm]
        simp only [Multiset.cons_add, Multiset.add_cons]
        rfl

lemma run_kept {node : ℕ → Node} {junk : ℕ → ℕ}
    (h : Run m ncpus ⟨⟨schedInit node junk, []⟩, 0⟩ es c) : ∃ L gone, Kept ncpus es c L gone := by
  induction h with
  | nil =>
    refine ⟨fun _ _ => [], 0, Inv.init node junk, by simp, by simp, by simp, ?_⟩
    simp [started, pending, queued, bag_nil]
  | snoc _ hs ih =>
    obtain ⟨L, gone, hk⟩ := ih
    cases hs with
    | start _ hpid h0 hnew => exact ⟨L, gone, hk.start hpid h0 hnew⟩
    | look hc _ => exact ⟨L, gone, hk.look _ hc⟩
    | place hc _ hm =>
      obtain ⟨L', hk'⟩ := hk.place hc hm
      exact ⟨L', gone, hk'⟩
    | call hs hev => exact hk.call hs hev

/-- What a call in its loop has seen of the counts. -/
def Scan.choice (x : Scan) : LeastLoaded.Choice ℕ := ⟨{d | d < x.cpu}, x.cpuMin, x.nMin⟩

lemma choice_start (new pid n junk : ℕ) (i : Prio) :
    (Scan.mk new pid i 0 n junk).choice = ⟨∅, junk, n⟩ := by
  rw [Scan.choice, LeastLoaded.Choice.mk.injEq]
  exact ⟨Set.eq_empty_of_forall_notMem fun d => Nat.not_lt_zero d, rfl, rfl⟩

lemma choice_look (x : Scan) (n : ℕ) : (x.look n).choice = x.choice.look x.cpu n := by
  have hset : {d | d < x.cpu + 1} = insert x.cpu {d | d < x.cpu} := by
    ext d
    exact Nat.lt_succ_iff_lt_or_eq.trans or_comm
  rw [Scan.choice, Scan.look, LeastLoaded.Choice.look]
  simp only [hset]
  rfl

def loads (c : Conf) : LeastLoaded.Conf ℕ := ⟨fun d => (c.sys.st.cpu d).n, c.scans.map Scan.choice⟩

/-- With `k` calls of `schedule` so far: one that has looked at a count has found one it takes, and
the counts have grown by no more than the calls that are through. -/
structure Small (ncpus : ℕ) (c₀ : Conf) (k : ℕ) (c : Conf) : Prop where
  found : ∀ x ∈ c.scans, 0 < x.cpu → x.nMin < 2 ^ 32 - 1
  count : ∀ d < ncpus, (c.sys.st.cpu d).n + c.scans.card ≤ (c₀.sys.st.cpu d).n + k

/-- The counts have room for `k` more. -/
def Room (ncpus : ℕ) (c₀ : Conf) (k : ℕ) : Prop :=
  ∀ d < ncpus, (c₀.sys.st.cpu d).n + k < 2 ^ 32 - 1

variable {k : ℕ} {x : Scan} {r : Multiset Scan}

lemma Small.look (h : Small ncpus c₀ k c) (hb : Room ncpus c₀ k) (hc : c.scans = x ::ₘ r)
    (hcpu : x.cpu < ncpus) : Small ncpus c₀ k ⟨c.sys, x.look (c.sys.st.cpu x.cpu).n ::ₘ r⟩ where
  found y hy hpos := by
    have hn := h.count x.cpu hcpu
    have hbn := hb x.cpu hcpu
    rcases Multiset.mem_cons.mp hy with rfl | hy
    · simp only [Scan.look]
      split_ifs <;> omega
    · exact h.found y (by rw [hc]; exact Multiset.mem_cons_of_mem hy) hpos
  count d hd := by
    have hn := h.count d hd
    rw [hc, Multiset.card_cons] at hn
    rw [Multiset.card_cons]
    exact hn

lemma place_n (st : State) (a new : ℕ) (i : Prio) (d : ℕ) : ((place st a new i).cpu d).n =
    if d = a then ((st.cpu a).n + 1) % 2 ^ 32 else (st.cpu d).n := by
  rw [place, (push_same _ a new i).cpu, setCpu_n]

/-- The count that grows does not wrap around. -/
lemma Small.place_n (h : Small ncpus c₀ k c) (hb : Room ncpus c₀ k) (hc : c.scans = x ::ₘ r)
    (hm : x.cpuMin < ncpus) (d : ℕ) : ((place c.sys.st x.cpuMin x.new x.priority).cpu d).n =
      if d = x.cpuMin then (c.sys.st.cpu x.cpuMin).n + 1 else (c.sys.st.cpu d).n := by
  have hn := h.count x.cpuMin hm
  have hbn := hb x.cpuMin hm
  rw [hc, Multiset.card_cons] at hn
  rw [SchedScan.place_n, Nat.mod_eq_of_lt (by omega)]

lemma Small.place (h : Small ncpus c₀ k c) (hb : Room ncpus c₀ k) (hc : c.scans = x ::ₘ r)
    (hm : x.cpuMin < ncpus) :
    Small ncpus c₀ k ⟨⟨place c.sys.st x.cpuMin x.new x.priority, c.sys.held⟩, r⟩ where
  found y hy := h.found y (by rw [hc]; exact Multiset.mem_cons_of_mem hy)
  count d hd := by
    have hn := h.count d hd
    rw [hc, Multiset.card_cons] at hn
    simp only [h.place_n hb hc hm]
    split_ifs with hdm
    · rw [← hdm]
      omega
    · omega

/-- Outside `unschedule` only the calls of `schedule` change the counts. -/
lemma call_n {ev : Ev} {s' : Sys} (h : SchedRuns.Step ncpus s ev s')
    (hev : ∀ new pid i, ev ≠ .schedule new pid i) (hno : ∀ d pid b, ev ≠ .unschedule d pid b) (d : ℕ) :
    (s'.st.cpu d).n = (s.st.cpu d).n := by
  cases h with
  | schedule => exact absurd rfl (hev _ _ _)
  | next _ hr => exact procNext_n hr d
  | unschedule => exact absurd rfl (hno _ _ _)
  | other => rfl

/-- A step is one of choosing the least load, or none. -/
abbrev Chooses (m ncpus : ℕ) : LeastLoaded.Conf ℕ → LeastLoaded.Conf ℕ → Prop :=
  Relation.ReflTransGen (LeastLoaded.Step {d | d < ncpus} m (2 ^ 32 - 1))

lemma look_loads (hc : c.scans = x ::ₘ r) :
    Chooses m ncpus (loads c) (loads ⟨c.sys, x.look (c.sys.st.cpu x.cpu).n ::ₘ r⟩) := by
  have hl : loads ⟨c.sys, x.look (c.sys.st.cpu x.cpu).n ::ₘ r⟩ = { loads c with
      choices := x.choice.look x.cpu ((loads c).load x.cpu) ::ₘ r.map Scan.choice } := by
    rw [loads, Multiset.map_cons, choice_look]
    rfl
  rw [hl]
  exact .single (.look x.cpu (by rw [loads, hc, Multiset.map_cons]))

lemma Small.place_loads (h : Small ncpus c₀ k c) (hb : Room ncpus c₀ k) (hc : c.scans = x ::ₘ r)
    (hcpu : x.cpu = ncpus) (hm : x.cpuMin < ncpus) : Chooses m ncpus (loads c)
      (loads ⟨⟨SchedScan.place c.sys.st x.cpuMin x.new x.priority, c.sys.held⟩, r⟩) := by
  have hl : loads ⟨⟨SchedScan.place c.sys.st x.cpuMin x.new x.priority, c.sys.held⟩, r⟩ =
      ⟨Function.update (loads c).load x.choice.place ((loads c).load x.choice.place + 1),
        r.map Scan.choice⟩ := by
    simp only [loads, LeastLoaded.Conf.mk.injEq, and_true]
    funext d
    rw [h.place_n hb hc hm, Function.update_apply]
    rfl
  rw [hl]
  refine .single (.place (by rw [loads, hc, Multiset.map_cons]) (fun d hd => ?_) ?_)
  · change d < x.cpu
    rw [hcpu]
    exact hd
  · exact h.found x (by rw [hc]; exact Multiset.mem_cons_self x r) (by omega)

lemma step_loads {e : Event} (h : Small ncpus c₀ k c)
    (hb : Room ncpus c₀ (k + (started [e]).length)) (hs : Step m ncpus c e c')
    (hno : unscheduled [e] = []) :
    Small ncpus c₀ (k + (started [e]).length) c' ∧ Chooses m ncpus (loads c) (loads c') := by
  cases hs with
  | @start junk new pid i hm hpid h0 hnew =>
    refine ⟨⟨fun x hx => ?_, fun d hd => ?_⟩, ?_⟩
    · rcases Multiset.mem_cons.mp hx with rfl | hx
      · exact fun h => absurd h (lt_irrefl 0)
      · exact h.found x hx
    · rw [Multiset.card_cons]
      exact Nat.add_le_add_right (h.count d hd) 1
    · have hl : loads ⟨⟨{ c.sys.st with node := fun b => if b = new then ⟨0, pid⟩ else c.sys.st.node b },
          new :: c.sys.held⟩, ⟨new, pid, i, 0, 2 ^ 32 - 1, junk⟩ ::ₘ c.scans⟩ =
          { loads c with choices := ⟨∅, junk, 2 ^ 32 - 1⟩ ::ₘ (loads c).choices } := by
        rw [loads, Multiset.map_cons, choice_start]
        rfl
      rw [hl]
      exact .single (.start (by rwa [loads, Multiset.card_map]))
  | look hc hcpu => exact ⟨h.look hb hc hcpu, look_loads hc⟩
  | place hc hcpu hm => exact ⟨h.place hb hc hm, h.place_loads hb hc hcpu hm⟩
  | @call ev s hs hev =>
    have hn := call_n hs hev fun d pid b he => by
      rw [he] at hno
      exact absurd hno (by simp [unscheduled])
    refine ⟨⟨h.found, fun d hd => ?_⟩, ?_⟩
    · simp only [hn]
      exact h.count d hd
    · have hl : loads ⟨s, c.scans⟩ = loads c := by
        simp only [loads, LeastLoaded.Conf.mk.injEq, and_true]
        funext d
        exact hn d
      rw [hl]

lemma run_loads (h : Run m ncpus c₀ es c) (h0 : c₀.scans = 0)
    (hb : Room ncpus c₀ (started es).length) (hno : unscheduled es = []) :
    Small ncpus c₀ (started es).length c ∧ Chooses m ncpus (loads c₀) (loads c) := by
  induction h with
  | nil => exact ⟨⟨by simp [h0], by simp [h0]⟩, .refl⟩
  | @snoc es c c' e hr hs ih =>
    rw [unscheduled_snoc, List.append_eq_nil_iff] at hno
    rw [started_snoc, List.length_append] at hb ⊢
    obtain ⟨hw, hl⟩ := ih (fun d hd => by have := hb d hd; omega) hno.1
    obtain ⟨hw', hl'⟩ := step_loads hw hb hs hno.2
    exact ⟨hw', hl.trans hl'⟩

def twoCpus : Conf := ⟨⟨schedInit (fun _ => ⟨0, 0⟩) fun _ => 0, []⟩, 0⟩

lemma Run.start {new pid : ℕ} (h : Run m ncpus c₀ es ⟨s, r⟩) (hm : r.card < m) (hpid : pid ≠ 0)
    (h0 : new ≠ 0) (hnew : new ∉ s.held) : Run m ncpus c₀ (es ++ [.start pid 0])
      ⟨⟨{ s.st with node := fun b => if b = new then ⟨0, pid⟩ else s.st.node b }, new :: s.held⟩,
        ⟨new, pid, 0, 0, 2 ^ 32 - 1, 0⟩ ::ₘ r⟩ :=
  h.snoc (.start hm hpid h0 hnew)

lemma Run.look (h : Run m ncpus c₀ es ⟨s, x ::ₘ r⟩) (hc : x.cpu < ncpus) :
    Run m ncpus c₀ (es ++ [.look]) ⟨s, x.look (s.st.cpu x.cpu).n ::ₘ r⟩ :=
  h.snoc (.look rfl hc)

lemma Run.place (h : Run m ncpus c₀ es ⟨s, x ::ₘ r⟩) (hc : x.cpu = ncpus) (hm : x.cpuMin < ncpus) :
    Run m ncpus c₀ (es ++ [.place])
      ⟨⟨SchedScan.place s.st x.cpuMin x.new x.priority, s.held⟩, r⟩ :=
  h.snoc (.place rfl hc hm)

/-- Two calls look at both counts before either takes a lock, and choose the same CPU. -/
lemma two_at_once : ∃ c es, Run 2 2 twoCpus es c ∧ started es = [(5, 0), (6, 0)] ∧
    unscheduled es = [] ∧ (c.sys.st.cpu 0).n = 2 ∧ (c.sys.st.cpu 1).n = 0 := by
  have h0 : Run 2 2 twoCpus [] ⟨twoCpus.sys, 0⟩ := .nil
  have h1 : Run 2 2 twoCpus _ ⟨⟨_, [8]⟩, _⟩ := h0.start (by decide) (show 5 ≠ 0 by decide)
    (by decide) (by decide)
  have h2 := (h1.look (by decide)).look (by decide)
  have h3 : Run 2 2 twoCpus _ ⟨⟨_, [9, 8]⟩, _⟩ := h2.start (by decide) (show 6 ≠ 0 by decide)
    (by decide) (by decide)
  have h4 := (h3.look (by decide)).look (by decide)
  have h5 := (h4.place rfl (by decide)).place rfl (by decide)
  exact ⟨_, _, h5, rfl, rfl, by decide, by decide⟩

end Silkware.SchedScan
