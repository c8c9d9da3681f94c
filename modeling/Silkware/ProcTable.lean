import Silkware.HashMapSound
import Silkware.SchedLoad

/-!
The table of processes and the run queues: `proc_new` and `schedule` enter a process in both,
`syscall_exit` takes it out of both, and `proc_next` looks up in the one what it takes off the
other.
-/

namespace Silkware.ProcTable

open Silkware.Kern Silkware.HashMap Silkware.HashMapSound Silkware.Outcome Silkware.Sched
open Silkware.SchedInv Silkware.SchedRuns Silkware.SchedLoad

/-! ### The model -/

/-- The size of `arch_state`, which is where `pid` stands in `struct proc`. -/
def pidOff : ℕ := 144

/-- The bytes of a `struct proc`. -/
def record (arch : Bytes) (pid : ℕ) (rest : Bytes) : Bytes := arch ++ leBytes pid ++ rest

/-- The field `pid` of a record. -/
def pidOf (v : Bytes) : ℕ := ofLeBytes ((v.drop pidOff).take 8)

/-- `arch_state` of a record is overwritten. -/
def saveArch (arch v : Bytes) : Bytes := arch ++ v.drop pidOff

/-- The same, in the table: the value in cell `i`. -/
def saveTo (m : Map) (i : ℕ) (v : Flex) (arch : Bytes) : Map :=
  setCell m i { m.cell i with v := some { v with item := saveArch arch v.item } }

/-- The run queues, `procmap`, `pid_cur`, and for each CPU the process that `proc_activate` made
its `proc_current`. -/
structure Sys where
  sched : SchedRuns.Sys
  procmap : Map
  pidCur : ℕ
  current : ℕ → Option ℕ

/-- After `sched_init` and `proc_init`. -/
def start (node : ℕ → Node) (junk : ℕ → ℕ) : Sys :=
  ⟨⟨schedInit node junk, []⟩, mapNew 1204, 0, fun _ => none⟩

/-- `map_get(procmap, &pid, sizeof(pid))` finds a record. -/
def known (m : Map) (pid : ℕ) : Bool :=
  match mapGet m (leBytes pid) with
  | .ok (some _) => true
  | _ => false

/-- `proc_new`, as far as it concerns the table: the new table and `pid`. -/
def procNew (s : Sys) (arch rest : Bytes) : Except Stop (Map × ℕ) := do
  let pid := (s.pidCur + 1) % 2 ^ 64
  let m ← mapInsert s.procmap (leBytes pid) (record arch pid rest)
  return (m, pid)

inductive Op
  | create
  | tick (c : ℕ)
  | exit (c : ℕ)
  | other

/-- One call that returns: `proc_new` and `schedule` of its result, a timer tick, `syscall_exit`
by the current process, or a change to a saved state or to memory of others. -/
inductive Step (ncpus : ℕ) (s : Sys) : Op → Sys → Prop
  | create {arch rest : Bytes} {m : Map} {pid junk new : ℕ} {priority : Prio} {st : State}
      (harch : arch.length = pidOff) (hn : procNew s arch rest = .ok (m, pid)) (h0 : new ≠ 0)
      (hnew : new ∉ s.sched.held)
      (h : Sched.schedule s.sched.st ncpus junk new pid priority = .ok st) :
      Step ncpus s .create ⟨⟨st, new :: s.sched.held⟩, m, pid, s.current⟩
  | tick {c b : ℕ} {swap : Bool} {st : State} (hc : c < ncpus)
      (h : procNext (known s.procmap) s.sched.st c = .ok (st, b, swap)) :
      Step ncpus s (.tick c) { s with
        sched.st := st, current := Function.update s.current c (some (st.node b).pid) }
  | exit {fuel c k b b' : ℕ} {v : Bytes} {swap : Bool} {m : Map} {st st' : State} (hc : c < ncpus)
      (hk : s.current c = some k) (hv : mapGet s.procmap (leBytes k) = .ok (some v))
      (hu : Sched.unschedule fuel s.sched.st c (pidOf v) = .ok (st, b))
      (hm : mapDel s.procmap (leBytes (pidOf v)) = .ok m)
      (hn : procNext (known m) st c = .ok (st', b', swap)) :
      Step ncpus s (.exit c) ⟨⟨st', s.sched.held.erase b⟩, m, s.pidCur,
        Function.update s.current c (some (st'.node b').pid)⟩
  | save {i : ℕ} {v : Flex} {arch : Bytes} (harch : arch.length = pidOff)
      (hv : (s.procmap.cell i).v = some v) :
      Step ncpus s .other { s with procmap := saveTo s.procmap i v arch }
  | other {node : ℕ → Node} (h : ∀ b ∈ s.sched.held, node b = s.sched.st.node b) :
      Step ncpus s .other { s with sched.st.node := node }

/-- `proc_new` is called only while the table has an empty cell and `pid_cur` does not wrap. -/
def Meets (s : Sys) : Op → Prop
  | .create => s.pidCur + 1 < 2 ^ 64 ∧ ∃ i < s.procmap.cap, (s.procmap.cell i).k = none
  | _ => True

/-- Runs whose steps all meet `G`. -/
def Runs (G : Sys → Op → Prop) (ncpus : ℕ) : Sys → Sys → Prop :=
  Relation.ReflTransGen fun s s' => ∃ op, G s op ∧ Step ncpus s op s'

/-- Every process on a queue is in the table, under its own number, and so the assertion of
`proc_activate` does not fail. -/
structure AllFound (s : Sys) : Prop where
  found : ∀ c pid, Queued s.sched.st c pid →
    ∃ v, mapGet s.procmap (leBytes pid) = .ok (some v) ∧ pidOf v = pid
  asserts : ∀ c, procNext (known s.procmap) s.sched.st c = procNext (fun _ => true) s.sched.st c

/-! ### Records -/

lemma pidOf_record {arch : Bytes} (h : arch.length = pidOff) {pid : ℕ} (hp : pid < 2 ^ 64)
    (rest : Bytes) : pidOf (record arch pid rest) = pid := by
  rw [pidOf, record, List.append_assoc, ← h, List.drop_left,
    List.take_append_of_le_length (leBytes_length pid).ge,
    List.take_of_length_le (leBytes_length pid).le, ofLeBytes_leBytes hp]

lemma pidOf_saveArch {arch : Bytes} (h : arch.length = pidOff) (v : Bytes) :
    pidOf (saveArch arch v) = pidOf v := by
  rw [pidOf, saveArch, ← h, List.drop_left, h, pidOf]

/-! ### Processes on the queues and in the table -/

/-- With `B c` the processes on CPU `c`: each is in `f` under its number, which was drawn up to
`n` and belongs to no other, and the current process of a CPU is one of its processes. -/
structure Table (B : ℕ → Multiset (ℕ × Prio)) (f : Bytes → Option Bytes) (n : ℕ)
    (cur : ℕ → Option ℕ) : Prop where
  found : ∀ c pid i, (pid, i) ∈ B c → ∃ v, f (leBytes pid) = some v ∧ pidOf v = pid
  le : ∀ c pid i, (pid, i) ∈ B c → pid ≤ n
  nodup : ∀ c, ((B c).map Prod.fst).Nodup
  apart : ∀ c d pid i j, (pid, i) ∈ B c → (pid, j) ∈ B d → c = d
  current : ∀ c pid, cur c = some pid → ∃ i, (pid, i) ∈ B c
  keys : ∀ k v, f k = some v → ∃ pid ≤ n, k = leBytes pid
  bound : n < 2 ^ 64

variable {B B' : ℕ → Multiset (ℕ × Prio)} {f : Bytes → Option Bytes} {n c pid : ℕ} {i : Prio}
  {cur : ℕ → Option ℕ} {v : Bytes}

/-- Numbers drawn before have other keys. -/
lemma key_ne (hn : n + 1 < 2 ^ 64) {p : ℕ} (hp : p ≤ n) : leBytes p ≠ leBytes (n + 1) := by
  intro e
  have := leBytes_inj (by omega) hn e
  omega

lemma Table.create (h : Table B f n cur) (hn : n + 1 < 2 ^ 64) (hv : pidOf v = n + 1)
    (hc : B' c = (n + 1, i) ::ₘ B c) (hd : ∀ d, d ≠ c → B' d = B d) :
    Table B' (fun k => if k = leBytes (n + 1) then some v else f k) (n + 1) cur := by
  have hold : ∀ d, B d ≤ B' d := by
    intro d
    by_cases hdc : d = c
    · rw [hdc, hc]; exact Multiset.le_cons_self _ _
    · rw [hd d hdc]
  have hmem : ∀ {d p j}, (p, j) ∈ B' d → (p, j) ∈ B d ∧ p ≤ n ∨ d = c ∧ p = n + 1 := by
    intro d p j hp
    by_cases hdc : d = c
    · rw [hdc, hc, Multiset.mem_cons, Prod.mk.injEq] at hp
      rcases hp with ⟨hp, -⟩ | hp
      · exact Or.inr ⟨hdc, hp⟩
      · exact Or.inl ⟨hdc ▸ hp, h.le c p j hp⟩
    · rw [hd d hdc] at hp
      exact Or.inl ⟨hp, h.le d p j hp⟩
  refine ⟨fun d p j hp => ?_, fun d p j hp => ?_, fun d => ?_, fun d e p j k hp hp' => ?_,
    fun d p hp => ?_, fun k w hk => ?_, hn⟩
  · rcases hmem hp with ⟨hp, hle⟩ | ⟨-, rfl⟩
    · rw [if_neg (key_ne hn hle)]
      exact h.found d p j hp
    · exact ⟨v, if_pos rfl, hv⟩
  · rcases hmem hp with ⟨-, hle⟩ | ⟨-, rfl⟩ <;> omega
  · by_cases hdc : d = c
    · rw [hdc, hc, Multiset.map_cons, Multiset.nodup_cons]
      refine ⟨fun hp => ?_, h.nodup c⟩
      obtain ⟨⟨p, j⟩, hp, hpe⟩ := Multiset.mem_map.mp hp
      have := h.le c p j hp
      simp only at hpe
      omega
    · rw [hd d hdc]; exact h.nodup d
  · rcases hmem hp with ⟨hp, hle⟩ | ⟨h1, h2⟩ <;> rcases hmem hp' with ⟨hp', hle'⟩ | ⟨h3, h4⟩
    · exact h.apart d e p j k hp hp'
    · omega
    · omega
    · rw [h1, h3]
  · obtain ⟨j, hj⟩ := h.current d p hp
    exact ⟨j, Multiset.mem_of_le (hold d) hj⟩
  · by_cases hkk : k = leBytes (n + 1)
    · exact ⟨n + 1, Nat.le_refl _, hkk⟩
    · simp only [if_neg hkk] at hk
      obtain ⟨p, hp, hk⟩ := h.keys k w hk
      exact ⟨p, by omega, hk⟩

/-- The current process of CPU `c` leaves the queues and the table. -/
lemma Table.exit (h : Table B f n cur) (hc : B c = (pid, i) ::ₘ B' c)
    (hd : ∀ d, d ≠ c → B' d = B d) :
    Table B' (fun k => if k = leBytes pid then none else f k) n (Function.update cur c none) := by
  have hpid : (pid, i) ∈ B c := by rw [hc]; exact Multiset.mem_cons_self _ _
  have hsub : ∀ d, B' d ≤ B d := by
    intro d
    by_cases hdc : d = c
    · rw [hdc, hc]; exact Multiset.le_cons_self _ _
    · rw [hd d hdc]
  have hmem : ∀ {d p j}, (p, j) ∈ B' d → (p, j) ∈ B d ∧ p ≠ pid := by
    intro d p j hp
    have hp' := Multiset.mem_of_le (hsub d) hp
    refine ⟨hp', ?_⟩
    rintro rfl
    obtain rfl := h.apart d c p j i hp' hpid
    have hnd := h.nodup d
    rw [hc, Multiset.map_cons, Multiset.nodup_cons] at hnd
    exact hnd.1 (Multiset.mem_map.mpr ⟨_, hp, rfl⟩)
  refine ⟨fun d p j hp => ?_, fun d p j hp => h.le d p j (hmem hp).1,
    fun d => Multiset.nodup_of_le (Multiset.map_le_map (hsub d)) (h.nodup d),
    fun d e p j k hp hp' => h.apart d e p j k (hmem hp).1 (hmem hp').1, fun d p hp => ?_,
    fun k w hk => ?_, h.bound⟩
  · obtain ⟨hp, hne⟩ := hmem hp
    rw [if_neg]
    · exact h.found d p j hp
    · intro e
      have hb := h.bound
      have h1 := h.le d p j hp
      have h2 := h.le c pid i hpid
      exact hne (leBytes_inj (by omega) (by omega) e)
  · rw [Function.update_apply] at hp
    split at hp
    · cases hp
    · rename_i hdc
      rw [hd d hdc]
      exact h.current d p hp
  · by_cases hkk : k = leBytes pid
    · simp [hkk] at hk
    · simp only [if_neg hkk] at hk
      exact h.keys k w hk

lemma Table.activate (h : Table B f n cur) (hm : (pid, i) ∈ B c) :
    Table B f n (Function.update cur c (some pid)) := by
  refine { h with current := fun d p hp => ?_ }
  rw [Function.update_apply] at hp
  split at hp
  · cases hp
    rename_i hdc
    exact ⟨i, hdc ▸ hm⟩
  · exact h.current d p hp

/-- Values may change, their field `pid` apart. -/
lemma Table.revalue (h : Table B f n cur) {f' : Bytes → Option Bytes}
    (hf : ∀ k, (f' k).map pidOf = (f k).map pidOf) : Table B f' n cur := by
  refine { h with
    found := fun d p j hp => ?_
    keys := fun k w hk => ?_ }
  · obtain ⟨w, hw, hp⟩ := h.found d p j hp
    have := hf (leBytes p)
    rw [hw, Option.map_some, Option.map_eq_some_iff] at this
    obtain ⟨w', hw', hp'⟩ := this
    exact ⟨w', hw', hp'.trans hp⟩
  · have := hf k
    rw [hk, Option.map_some, eq_comm, Option.map_eq_some_iff] at this
    obtain ⟨w', hw', -⟩ := this
    exact h.keys k w' hw'

/-! ### The invariant -/

structure Inv (s : Sys) (L : Lists) (f : Bytes → Option Bytes) : Prop where
  lists : SchedRuns.Inv s.sched L
  rep : HashMapRuns.Rep s.procmap f
  table : Table (bag s.sched.st L) f s.pidCur s.current
  -- the first number drawn is 1, whose key does not go to cell 0
  first : s.pidCur = 0 ∧ s.procmap = mapNew 1204 ∨ s.procmap.max ≠ 0

variable {ncpus : ℕ} {s s' : Sys} {L : Lists}

lemma Inv.start (node : ℕ → Node) (junk : ℕ → ℕ) :
    Inv (start node junk) (fun _ _ => []) fun _ => none := by
  refine ⟨SchedRuns.Inv.init node junk, HashMapRuns.Rep.new 1204, ?_, Or.inl ⟨rfl, rfl⟩⟩
  have hb : bag (schedInit node junk) (fun _ _ => []) = fun _ => 0 := funext (bag_nil _)
  simp only [ProcTable.start, hb]
  exact ⟨by simp, by simp, by simp, by simp, by simp, by simp, by decide⟩

lemma Inv.allFound (h : Inv s L f) : AllFound s := by
  have hget : ∀ c pid i, (pid, i) ∈ bag s.sched.st L c →
      ∃ v, mapGet s.procmap (leBytes pid) = .ok (some v) ∧ pidOf v = pid := by
    intro c pid i hm
    obtain ⟨v, hv, hp⟩ := h.table.found c pid i hm
    exact ⟨v, by rw [h.rep.get, hv], hp⟩
  refine ⟨fun c pid ⟨A, i, hA, hm⟩ => ?_, fun c => ?_⟩
  · rw [hA.eq h.lists.rep] at hm
    exact hget c pid i hm
  · rcases procNext_cases h.lists c with ⟨-, hp⟩ | ⟨pid, i, r, hm, hp⟩
    · rw [hp, hp]
    · obtain ⟨v, hv, -⟩ := hget c pid i hm
      rw [hp, hp, known, hv]

/-- A map that holds a key has used a cell other than cell 0. -/
lemma max_ne_zero {m : Map} (h : HashMapRuns.Rep m f) {k : Bytes} (hk : (f k).isSome) : m.max ≠ 0 := by
  intro h0
  obtain ⟨j, hj⟩ := h.complete k hk
  have := h.key_le hj
  obtain rfl : j = 0 := by omega
  rw [h.zero h0] at hj
  cases hj

/-- What `proc_next` runs is on a queue of its CPU. -/
lemma next_mem {t t' : SchedRuns.Sys} {L' : Lists} {b : ℕ} {swap : Bool}
    (hs : LStep ncpus t L (.next c b swap) t' L') :
    (t'.st.node b).pid = (t.st.node b).pid ∧ ∃ i, ((t.st.node b).pid, i) ∈ bag t.st L c := by
  cases hs with
  | @next _ _ _ i l hlow hl hs =>
    exact ⟨hs.pid b, i, mem_bag.mpr ⟨b, List.mem_append_left _ (by rw [hl]; simp), rfl⟩⟩
  | @swap _ _ _ i l hnone hlow hl hc hd hp =>
    exact ⟨hp b, i, mem_bag.mpr ⟨b, List.mem_append_right _ (by rw [hl]; simp), rfl⟩⟩

/-- `proc_next` on queues and a table that fit together. -/
lemma Inv.next {known : ℕ → Bool} {b : ℕ} {swap : Bool} {st : State} (h : Inv s L f)
    (hr : procNext known s.sched.st c = .ok (st, b, swap)) :
    ∃ L', Inv { s with
      sched.st := st, current := Function.update s.current c (some (st.node b).pid) } L' f := by
  obtain ⟨L', h', hs⟩ := next_lists 0 h.lists hr
  obtain ⟨hp, i, hm⟩ := next_mem hs
  have hb : bag st L' = bag s.sched.st L := funext fun d => next_bag h.lists hs d
  refine ⟨L', h', h.rep, ?_, h.first⟩
  simp only [hb]
  simp only at hp
  rw [hp]
  exact h.table.activate hm

/-- The next number goes into an empty cell. -/
lemma Inv.insert (h : Inv s L f) (hok : Meets s .create) (v : Bytes) :
    ∃ m, mapInsert s.procmap (leBytes (s.pidCur + 1)) v = .ok m ∧ m.cap = s.procmap.cap ∧
      HashMapRuns.Rep m fun k => if k = leBytes (s.pidCur + 1) then some v else f k := by
  obtain ⟨hlt, j, hj, hfree⟩ := hok
  have hno : ∀ j, HashMapRuns.keyAt s.procmap j ≠ some (leBytes (s.pidCur + 1)) := by
    intro j hj
    obtain ⟨x, hx, hxk⟩ := Option.map_eq_some_iff.mp hj
    obtain ⟨-, -, v, -, hv⟩ := h.rep.cells j x hx
    obtain ⟨p, hp, hk⟩ := h.table.keys _ _ hv
    exact key_ne hlt hp (hk.symm.trans hxk)
  refine h.rep.insert hno ⟨j, hj, by rw [HashMapRuns.keyAt, hfree]; rfl⟩ ?_
  rintro ⟨hm0, hh⟩
  rcases h.first with ⟨hp, hm⟩ | hmax
  · rw [hp, hm] at hh
    exact absurd hh (by decide)
  · exact hmax hm0

/-- `proc_new` and `schedule` of its result. -/
lemma Inv.create {arch rest : Bytes} {m : Map} {junk new : ℕ} {st : State} (h : Inv s L f)
    (hok : Meets s .create) (harch : arch.length = pidOff)
    (hn : procNew s arch rest = .ok (m, pid)) (h0 : new ≠ 0) (hnew : new ∉ s.sched.held)
    (hr : Sched.schedule s.sched.st ncpus junk new pid i = .ok st) :
    ∃ L' v, Inv ⟨⟨st, new :: s.sched.held⟩, m, pid, s.current⟩ L' fun k =>
      if k = leBytes (s.pidCur + 1) then some v else f k := by
  have hlt := hok.1
  have hmod : (s.pidCur + 1) % 2 ^ 64 = s.pidCur + 1 := Nat.mod_eq_of_lt hlt
  obtain ⟨m', hins, -, hrep⟩ := h.insert hok (record arch (s.pidCur + 1) rest)
  simp only [procNew, hmod, hins, bind, Except.bind, pure, Except.pure, Except.ok.injEq,
    Prod.mk.injEq] at hn
  obtain ⟨rfl, rfl⟩ := hn
  obtain ⟨L', h', hc, hd⟩ := schedule_bag_at h.lists (by omega) h0 hnew hr
  exact ⟨L', _, h', hrep, h.table.create hlt (pidOf_record harch hlt rest) hc hd,
    Or.inr (max_ne_zero hrep (by rw [if_pos rfl]; rfl))⟩

/-- Numbers on the queues are not 0. -/
lemma Inv.pid_ne_zero (h : Inv s L f) (hm : (pid, i) ∈ bag s.sched.st L c) : pid ≠ 0 := by
  obtain ⟨b, hb, rfl⟩ := mem_bag.mp hm
  rcases List.mem_append.mp hb with hb | hb
  · exact h.lists.pid _ i b hb
  · exact h.lists.pid _ i b hb

lemma Inv.exit {fuel k b b' : ℕ} {v : Bytes} {swap : Bool} {m : Map} {st st' : State}
    (h : Inv s L f) (hk : s.current c = some k) (hv : mapGet s.procmap (leBytes k) = .ok (some v))
    (hu : Sched.unschedule fuel s.sched.st c (pidOf v) = .ok (st, b))
    (hm : mapDel s.procmap (leBytes (pidOf v)) = .ok m)
    (hn : procNext (known m) st c = .ok (st', b', swap)) :
    ∃ L' f', Inv ⟨⟨st', s.sched.held.erase b⟩, m, s.pidCur,
      Function.update s.current c (some (st'.node b').pid)⟩ L' f' := by
  obtain ⟨i, hi⟩ := h.table.current c k hk
  obtain ⟨w, hw, hp⟩ := h.table.found c k i hi
  rw [h.rep.get, hw, Except.ok.injEq, Option.some.injEq] at hv
  subst hv
  rw [hp] at hu hm
  -- off the queues
  obtain ⟨L₁, h₁, hs⟩ := unschedule_lists 0 h.lists hu
  obtain ⟨⟨j, hc⟩, hd⟩ := remove_bag h.lists (unschedule_finds h.lists hi hu) hs
  -- out of the table
  obtain ⟨m', hdel, hmax, -, -, hrep⟩ := h.rep.del (leBytes k)
  rw [hdel, Except.ok.injEq] at hm
  subst hm
  have hI : Inv ⟨⟨st, s.sched.held.erase b⟩, m', s.pidCur, Function.update s.current c none⟩ L₁
      fun k' => if k' = leBytes k then none else f k' := by
    refine ⟨h₁, hrep, h.table.exit hc hd, Or.inr ?_⟩
    rcases h.first with ⟨h0, -⟩ | hne
    · have := h.table.le c k i hi
      have := h.pid_ne_zero hi
      omega
    · rwa [hmax]
  obtain ⟨L', h'⟩ := hI.next hn
  simp only [Function.update_idem] at h'
  exact ⟨L', _, h'⟩

/-- The field `arch_state` of a record changes. -/
lemma rep_saveTo {m : Map} (h : HashMapRuns.Rep m f) {j : ℕ} {x : Flex} (hx : (m.cell j).v = some x)
    (arch : Bytes) : HashMapRuns.Rep (saveTo m j x arch) fun k =>
      if HashMapRuns.keyAt m j = some k then some (saveArch arch x.item) else f k := by
  have hkey : ∀ l, HashMapRuns.keyAt (saveTo m j x arch) l = HashMapRuns.keyAt m l := by
    intro l
    rw [saveTo, HashMapRuns.keyAt_setCell]
    split
    · rename_i hl
      rw [hl]
      rfl
    · rfl
  refine ⟨h.max, fun l hl => (hkey l).trans (h.above l hl), fun h0 => (hkey 0).trans (h.zero h0),
    fun l y hy => ?_, fun l l' k hl hl' => ?_, fun k hk => ?_⟩
  · by_cases hl : l = j
    · subst hl
      simp only [saveTo, setCell, if_true] at hy ⊢
      obtain ⟨h1, h2, -⟩ := h.cells l y hy
      refine ⟨h1, h2, _, rfl, ?_⟩
      rw [if_pos (by rw [HashMapRuns.keyAt, hy]; rfl)]
    · simp only [saveTo, setCell, if_neg hl] at hy ⊢
      have hne : HashMapRuns.keyAt m j ≠ some y.item := by
        intro e
        exact hl (h.inj l j y.item (by rw [HashMapRuns.keyAt, hy]; rfl) e)
      rw [if_neg hne]
      exact h.cells l y hy
  · rw [hkey] at hl hl'
    exact h.inj l l' k hl hl'
  · by_cases hj : HashMapRuns.keyAt m j = some k
    · exact ⟨j, (hkey j).trans hj⟩
    · rw [if_neg hj] at hk
      obtain ⟨l, hl⟩ := h.complete k hk
      exact ⟨l, (hkey l).trans hl⟩

lemma Inv.save {j : ℕ} {x : Flex} {arch : Bytes} (h : Inv s L f) (harch : arch.length = pidOff)
    (hx : (s.procmap.cell j).v = some x) :
    ∃ f', Inv { s with procmap := saveTo s.procmap j x arch } L f' := by
  refine ⟨_, h.lists, rep_saveTo h.rep hx arch, h.table.revalue fun k => ?_, ?_⟩
  · by_cases hj : HashMapRuns.keyAt s.procmap j = some k
    · obtain ⟨y, hy, rfl⟩ := Option.map_eq_some_iff.mp hj
      obtain ⟨-, -, w, hw, hf⟩ := h.rep.cells j y hy
      rw [hx, Option.some.injEq] at hw
      subst hw
      rw [if_pos hj, hf, Option.map_some, Option.map_some, pidOf_saveArch harch]
    · rw [if_neg hj]
  · rcases h.first with ⟨-, hm⟩ | hne
    · rw [hm] at hx
      cases hx
    · exact Or.inr hne

lemma Inv.other {node : ℕ → Node} (h : Inv s L f)
    (hn : ∀ b ∈ s.sched.held, node b = s.sched.st.node b) :
    ∃ L', Inv { s with sched.st.node := node } L' f := by
  obtain ⟨L', h', hs⟩ := step_lists h.lists (SchedRuns.Step.other hn : SchedRuns.Step 0 s.sched _ _)
  cases hs with
  | other hcpu hp =>
    have hb : bag { s.sched.st with node := node } L = bag s.sched.st L :=
      funext fun d => bag_same rfl rfl (fun _ _ _ => rfl) hp
    refine ⟨L, h', h.rep, ?_, h.first⟩
    simp only [hb]
    exact h.table

lemma Inv.step {op : Op} (h : Inv s L f) (hok : Meets s op) (hs : Step ncpus s op s') :
    ∃ L' f', Inv s' L' f' := by
  cases hs with
  | create harch hn h0 hnew hr =>
    obtain ⟨L', v, h'⟩ := h.create hok harch hn h0 hnew hr
    exact ⟨L', _, h'⟩
  | tick hc hr =>
    obtain ⟨L', h'⟩ := h.next hr
    exact ⟨L', f, h'⟩
  | exit hc hk hv hu hm hn => exact h.exit hk hv hu hm hn
  | save harch hv =>
    obtain ⟨f', h'⟩ := h.save harch hv
    exact ⟨L, f', h'⟩
  | other hn =>
    obtain ⟨L', h'⟩ := h.other hn
    exact ⟨L', f, h'⟩

lemma Inv.runs (h : Inv s L f) (hr : Runs Meets ncpus s s') : ∃ L' f', Inv s' L' f' := by
  induction hr with
  | refl => exact ⟨L, f, h⟩
  | tail _ hst ih =>
    obtain ⟨op, hok, hst⟩ := hst
    obtain ⟨L', f', h'⟩ := ih
    exact h'.step hok hst

/-! ### A full table -/

/-- After `n` calls of `proc_new` on one CPU, no process has exited. -/
structure Crowded (n : ℕ) (s : Sys) (L : Lists) (f : Bytes → Option Bytes) : Prop where
  inv : Inv s L f
  pidCur : s.pidCur = n
  cap : s.procmap.cap = 1204
  held : ∀ b ∈ s.sched.held, b ≤ n
  load : (s.sched.st.cpu 0).n = n
  keys : ∀ k, (f k).isSome ↔ ∃ p, 0 < p ∧ p ≤ n ∧ k = leBytes p

lemma Crowded.start : Crowded 0 (start (fun _ => ⟨0, 0⟩) fun _ => 0) (fun _ _ => []) fun _ => none := by
  refine ⟨Inv.start _ _, rfl, rfl, by simp [ProcTable.start], rfl, fun k => ?_⟩
  simp only [Option.isSome_none, Bool.false_eq_true, false_iff, not_exists]
  omega

/-- The cells in use are as many as the processes. -/
lemma Crowded.room (h : Crowded n s L f) (hn : n < 1204) : ∃ j < s.procmap.cap, (s.procmap.cell j).k = none := by
  by_contra hno
  push Not at hno
  rw [h.cap] at hno
  have hkey : ∀ j ∈ Finset.range 1204, ∃ p ∈ Finset.Icc 1 n,
      HashMapRuns.keyAt s.procmap j = some (leBytes p) := by
    intro j hj
    obtain ⟨x, hx⟩ := Option.ne_none_iff_exists'.mp (hno j (Finset.mem_range.mp hj))
    obtain ⟨-, -, v, -, hf⟩ := h.inv.rep.cells j x hx
    obtain ⟨p, h0, hp, hk⟩ := (h.keys x.item).mp (by rw [hf]; rfl)
    exact ⟨p, Finset.mem_Icc.mpr ⟨h0, hp⟩, by rw [HashMapRuns.keyAt, hx, Option.map_some, hk]⟩
  choose! p hp hk using hkey
  have hcard := Finset.card_le_card_of_injOn p hp fun i hi j hj e => by
    refine h.inv.rep.inj i j (leBytes (p i)) (hk i hi) ?_
    rw [hk j hj, e]
  rw [Finset.card_range, Nat.card_Icc] at hcard
  omega

lemma Crowded.full (h : Crowded 1204 s L f) : ∀ j < s.procmap.cap, (s.procmap.cell j).k ≠ none := by
  have hcell : ∀ p ∈ Finset.Icc 1 1204, ∃ j ∈ Finset.range 1204,
      HashMapRuns.keyAt s.procmap j = some (leBytes p) := by
    intro p hp
    rw [Finset.mem_Icc] at hp
    obtain ⟨j, hj⟩ := h.inv.rep.complete _ ((h.keys (leBytes p)).mpr ⟨p, hp.1, hp.2, rfl⟩)
    have h1 := h.inv.rep.key_le hj
    have h2 := h.inv.rep.max
    rw [h.cap] at h2
    exact ⟨j, Finset.mem_range.mpr (by omega), hj⟩
  choose! c hc hk using hcell
  have hinj : Set.InjOn c (Finset.Icc 1 1204) := by
    intro p hp q hq e
    have := hk q hq
    rw [← e, hk p hp, Option.some.injEq] at this
    rw [Finset.mem_coe, Finset.mem_Icc] at hp hq
    exact leBytes_inj (by omega) (by omega) this
  intro j hj hnone
  rw [h.cap] at hj
  obtain ⟨p, hp, rfl⟩ := Finset.surjOn_of_injOn_of_card_le c hc hinj (by simp)
    (Finset.mem_coe.mpr (Finset.mem_range.mpr hj))
  have := hk p hp
  rw [HashMapRuns.keyAt, hnone] at this
  cases this

lemma Crowded.held_lt (h : Crowded n s L f) : n + 1 ∉ s.sched.held := by
  intro hm
  have := h.held _ hm
  omega

/-- One CPU has room for another process. -/
lemma Crowded.schedule (h : Crowded n s L f) (hn : n < 2 ^ 32 - 1) {pid : ℕ} (hpid : pid ≠ 0) :
    ∃ st, Sched.schedule s.sched.st 1 0 (n + 1) pid 0 = .ok st ∧ (st.cpu 0).n = n + 1 ∧
      Queued st 0 pid := by
  have hfree : ∃ c < 1, (s.sched.st.cpu c).n < 2 ^ 32 - 1 := ⟨0, by decide, by rw [h.load]; exact hn⟩
  obtain ⟨st, hst⟩ := schedule_total 0 (n + 1) pid 0 hfree
  obtain ⟨hlt, hcpu, -⟩ := schedule_n hst
  have hc : cpuMin s.sched.st 1 0 = 0 := by omega
  obtain ⟨L', h', hb, -⟩ := schedule_bag_at h.inv.lists hpid (by omega) h.held_lt hst
  rw [hc] at hb
  refine ⟨st, hst, ?_, L', 0, Rep.reads h'.rep, by rw [hb]; exact Multiset.mem_cons_self _ _⟩
  rw [hcpu 0, if_pos hc.symm, hc, h.load, Nat.mod_eq_of_lt (by omega)]

/-- The bytes of `arch_state` of a new process. -/
def zeros : Bytes := List.replicate pidOff 0

lemma Crowded.create (h : Crowded n s L f) (hn : n < 1204) :
    ∃ s' L' f', Step 1 s .create s' ∧ Crowded (n + 1) s' L' f' ∧ Queued s'.sched.st 0 (n + 1) := by
  have hok : Meets s .create := ⟨by rw [h.pidCur]; omega, h.room hn⟩
  have hmod : (s.pidCur + 1) % 2 ^ 64 = s.pidCur + 1 := Nat.mod_eq_of_lt hok.1
  obtain ⟨m, hins, hcap, -⟩ := h.inv.insert hok (record zeros (s.pidCur + 1) [])
  have hnew : procNew s zeros [] = .ok (m, s.pidCur + 1) := by
    simp only [procNew, hmod, hins, bind, Except.bind, pure, Except.pure]
  obtain ⟨st, hst, hload, hq⟩ := h.schedule (by omega) (Nat.succ_ne_zero s.pidCur)
  obtain ⟨L', v, h'⟩ := h.inv.create hok List.length_replicate hnew (by omega) h.held_lt hst
  refine ⟨_, L', _, Step.create List.length_replicate hnew (by omega) h.held_lt hst,
    ⟨h', ?_, ?_, ?_, hload, fun k => ?_⟩, by rwa [← h.pidCur]⟩
  · simp only [h.pidCur]
  · exact hcap.trans h.cap
  · intro b hb
    rcases List.mem_cons.mp hb with rfl | hb
    · exact Nat.le_refl _
    · have := h.held b hb
      omega
  · rw [h.pidCur]
    by_cases hk : k = leBytes (n + 1)
    · simp only [if_pos hk, Option.isSome_some, true_iff]
      exact ⟨n + 1, by omega, Nat.le_refl _, hk⟩
    · simp only [if_neg hk, h.keys k]
      constructor
      · rintro ⟨p, h0, hp, hkp⟩
        exact ⟨p, h0, by omega, hkp⟩
      · rintro ⟨p, h0, hp, hkp⟩
        rcases Nat.lt_or_ge n p with hlt | hge
        · obtain rfl : p = n + 1 := by omega
          exact absurd hkp hk
        · exact ⟨p, h0, hge, hkp⟩

lemma crowded (hn : n ≤ 1204) : ∃ s L f, Runs (fun _ _ => True) 1 (start (fun _ => ⟨0, 0⟩) fun _ => 0) s ∧
    Crowded n s L f := by
  induction n with
  | zero => exact ⟨_, _, _, .refl, Crowded.start⟩
  | succ n ih =>
    obtain ⟨s, L, f, hr, h⟩ := ih (by omega)
    obtain ⟨s', L', f', hs, h', -⟩ := h.create (by omega)
    exact ⟨s', L', f', hr.tail ⟨_, trivial, hs⟩, h'⟩

lemma rep_sound {m : Map} (h : HashMapRuns.Rep m f) (hcap : 2 ≤ m.cap) :
    Sound (fun k v => f k = some v) m := by
  refine ⟨hcap, h.max, fun j x hx h8 => ?_⟩
  obtain ⟨hn, -, v, hv, hf⟩ := h.cells j x hx
  exact ⟨hn.symm.trans h8, v, hv, hf⟩

/-- The process that makes the table grow is not in it. -/
lemma Crowded.grow (h : Crowded 1204 s L f) : ∃ s', Step 1 s .create s' ∧
    Queued s'.sched.st 0 1205 ∧ mapGet s'.procmap (leBytes 1205) = .ok none := by
  have hpid := h.pidCur
  obtain ⟨m, hins, hs⟩ := (rep_sound h.inv.rep (by rw [h.cap]; omega)).insert_full
    (v := record zeros 1205 []) (by rw [h.cap]; omega) h.full (leBytes_length 1205)
    (by rw [ofLeBytes_leBytes (by decide)]; decide)
  have hnew : procNew s zeros [] = .ok (m, 1205) := by
    have hmod : (1204 + 1) % 2 ^ 64 = 1205 := by decide
    simp only [procNew, hpid, hmod, hins, bind, Except.bind, pure, Except.pure]
  obtain ⟨st, hst, -, hq⟩ := h.schedule (by omega) (show 1205 ≠ 0 by omega)
  refine ⟨_, Step.create List.length_replicate hnew (by omega) h.held_lt hst, hq, ?_⟩
  rcases hs.get (leBytes_length 1205) with hnone | ⟨v, -, hv⟩
  · exact hnone
  · obtain ⟨p, -, hp, hk⟩ := (h.keys _).mp (Option.isSome_iff_exists.mpr ⟨v, hv⟩)
    have := leBytes_inj (by omega) (by omega) hk
    omega

/-- **Every queued process exists**, in every run in which `proc_new` is called only while the
table of 1204 cells has an empty one and the numbers do not run out. -/
theorem queued_found {node : ℕ → Node} {junk : ℕ → ℕ} (hr : Runs Meets ncpus (start node junk) s) :
    AllFound s := by
  obtain ⟨L, f, h⟩ := (Inv.start node junk).runs hr
  exact h.allFound

theorem queued_found_first : ∃ s, Runs Meets 1 (start (fun _ => ⟨0, 0⟩) fun _ => 0) s ∧
    Queued s.sched.st 0 1 ∧ AllFound s := by
  obtain ⟨s, L, f, hs, -, hq⟩ := Crowded.start.create (by decide)
  have hm : Meets (start (fun _ => ⟨0, 0⟩) fun _ => 0) .create := ⟨by decide, 0, by decide, rfl⟩
  have hr : Runs Meets 1 (start (fun _ => ⟨0, 0⟩) fun _ => 0) s := .single ⟨_, hm, hs⟩
  exact ⟨s, hr, hq, queued_found hr⟩

theorem process_1205_lost : ∃ s, Runs (fun _ _ => True) 1 (start (fun _ => ⟨0, 0⟩) fun _ => 0) s ∧
    Queued s.sched.st 0 1205 ∧ mapGet s.procmap (leBytes 1205) = .ok none ∧ ¬ AllFound s := by
  obtain ⟨s, L, f, hr, h⟩ := crowded (Nat.le_refl 1204)
  obtain ⟨s', hs, hq, hnone⟩ := h.grow
  refine ⟨s', hr.tail ⟨_, trivial, hs⟩, hq, hnone, fun ha => ?_⟩
  obtain ⟨v, hv, -⟩ := ha.found 0 1205 hq
  rw [hnone] at hv
  cases hv

end Silkware.ProcTable
