import Silkware.Kern

/-!
The run queues of `sched.c`.

Each CPU has two queues, and each queue one list for every priority. A list is threaded
through its nodes and kept by its first and its last node. New nodes go to the inactive queue;
`proc_next` takes nodes off the active one, and changes the two over when that is empty.

Pointers are natural numbers and `NULL` is 0. The two queue objects of a CPU are known by a
number, so that changing the queues over exchanges two pointers as the code does.
-/

namespace Silkware.Sched

open Silkware.Kern

/-- `NPRIOR` -/
abbrev nPrior : ℕ := 5

abbrev Prio := Fin nPrior

structure Node where
  next : ℕ
  pid : ℕ

structure Queue where
  start : Prio → ℕ
  end_ : Prio → ℕ

/-- `struct sched_cpu_queue` -/
structure CpuQueue where
  active : ℕ
  inactive : ℕ
  n : ℕ

structure State where
  node : ℕ → Node
  queue : ℕ → Queue
  cpu : ℕ → CpuQueue

/-! ### Stores -/

def setNext (s : State) (a v : ℕ) : State :=
  { s with node := fun b => if b = a then { s.node b with next := v } else s.node b }

def setStart (s : State) (q : ℕ) (i : Prio) (v : ℕ) : State :=
  { s with queue := fun r => if r = q then
      { s.queue r with start := fun j => if j = i then v else (s.queue r).start j } else s.queue r }

def setEnd (s : State) (q : ℕ) (i : Prio) (v : ℕ) : State :=
  { s with queue := fun r => if r = q then
      { s.queue r with end_ := fun j => if j = i then v else (s.queue r).end_ j } else s.queue r }

def setCpu (s : State) (c : ℕ) (x : CpuQueue) : State :=
  { s with cpu := fun d => if d = c then x else s.cpu d }

/-! ### The functions -/

/-- `sched_init`. The array is not cleared, so `n` is what was in memory. -/
def schedInit (node : ℕ → Node) (junk : ℕ → ℕ) : State :=
  { node, queue := fun _ => ⟨fun _ => 0, fun _ => 0⟩,
    cpu := fun c => ⟨2 * c, 2 * c + 1, junk c % 2 ^ 32⟩ }

def pushUnlocked (s : State) (c new : ℕ) (priority : Prio) : State :=
  let q := (s.cpu c).inactive
  let last := (s.queue q).end_ priority
  let s := if last ≠ 0 then setNext s last new else s
  let s := setEnd s q priority new
  if (s.queue q).start priority = 0 then setStart s q priority new else s

/-- The loop of `pop_unlocked` over the priorities: the state, the node and its `pid`. -/
def popLoop (s : State) (c : ℕ) : List Prio → State × ℕ × ℕ
  | [] => (s, 0, 0)
  | i :: is =>
    let q := (s.cpu c).active
    let node := (s.queue q).start i
    if node ≠ 0 then
      let s := if (s.queue q).end_ i = node then setEnd s q i 0 else s
      let s := setStart s q i (s.node node).next
      let s := setNext s node 0
      let s := pushUnlocked s c node i
      (s, node, (s.node node).pid)
    else popLoop s c is

def popUnlocked (s : State) (c : ℕ) : State × ℕ × ℕ := popLoop s c (List.finRange nPrior)

/-- The CPU with the smallest `n` below `UINT32_MAX`, or what `cpu_min` held before. -/
def cpuMin (s : State) (ncpus junk : ℕ) : ℕ :=
  ((List.range ncpus).foldl (fun r c => if (s.cpu c).n < r.1 then ((s.cpu c).n, c) else r)
    (2 ^ 32 - 1, junk)).2

/-- `schedule`, with the node `new` that `kalloc` returns and the value `junk` of the
uninitialised `cpu_min`. -/
def schedule (s : State) (ncpus junk new pid : ℕ) (priority : Prio) : Except Stop State :=
  let s := { s with node := fun b => if b = new then ⟨0, pid⟩ else s.node b }
  let c := cpuMin s ncpus junk
  if c < ncpus then
    let s := setCpu s c { s.cpu c with n := ((s.cpu c).n + 1) % 2 ^ 32 }
    return pushUnlocked s c new priority
  else throw .fault

/-- `proc_activate`; `known` says which processes are in `procmap`. -/
def procActivate (known : ℕ → Bool) (pid : ℕ) : Except Stop Unit :=
  if known pid then return () else throw .panic

/-- `proc_next` on CPU `c`: the state, the node it ran, and whether it changed the queues
over. -/
def procNext (known : ℕ → Bool) (s : State) (c : ℕ) : Except Stop (State × ℕ × Bool) := do
  let r := popUnlocked s c
  if r.2.2 ≠ 0 then
    procActivate known r.2.2
    return (r.1, r.2.1, false)
  let s := r.1
  let s := setCpu s c { s.cpu c with active := (s.cpu c).inactive, inactive := (s.cpu c).active }
  let r := popUnlocked s c
  if r.2.2 = 0 then throw .panic
  procActivate known r.2.2
  return (r.1, r.2.1, true)

/-- The inner loop of `queue_tryremove`: the node with the `pid` and its predecessor. -/
def removeWalk (s : State) (pid : ℕ) : ℕ → ℕ → ℕ → Except Stop (Option (ℕ × ℕ))
  | 0, _, _ => throw .hang
  | fuel + 1, prev, n =>
    if n = 0 then return none
    else if (s.node n).pid = pid then return some (prev, n)
    else removeWalk s pid fuel n (s.node n).next

/-- `queue_tryremove` from the priorities given: the state and the node removed, or 0. -/
def removeLoop (fuel : ℕ) (s : State) (q pid : ℕ) : List Prio → Except Stop (State × ℕ)
  | [] => return (s, 0)
  | i :: is => do
    match ← removeWalk s pid fuel 0 ((s.queue q).start i) with
    | some (prev, n) =>
      let s := if (s.queue q).end_ i = n then setEnd s q i prev else s
      let s := if prev ≠ 0 then setNext s prev (s.node n).next
        else setStart s q i (s.node n).next
      return (s, n)
    | none => removeLoop fuel s q pid is

def queueTryremove (fuel : ℕ) (s : State) (q pid : ℕ) : Except Stop (State × ℕ) :=
  removeLoop fuel s q pid (List.finRange nPrior)

/-- `unschedule` on CPU `c`: the state and the node removed, or 0. -/
def unschedule (fuel : ℕ) (s : State) (c pid : ℕ) : Except Stop (State × ℕ) := do
  let s := setCpu s c { s.cpu c with n := ((s.cpu c).n + (2 ^ 32 - 1)) % 2 ^ 32 }
  let r ← queueTryremove fuel s (s.cpu c).active pid
  if r.2 ≠ 0 then return r
  queueTryremove fuel r.1 (s.cpu c).inactive pid

end Silkware.Sched
