import Silkware.PageRuns
import Silkware.SpinLock

/-!
`page_alloc` and `page_free` under their lock, one load or store at a time.

Other processors read and write the blocks they have been given while a call walks the free lists.
The steps come to what `PageAlloc` says of a call as a whole, and they keep away from blocks in use.
-/

namespace Silkware.PageLock

open Silkware.Bits Silkware.ByteMem Silkware.Header Silkware.Kern Silkware.Links Silkware.Outcome
open Silkware.PageAlloc Silkware.PageAllocInv Silkware.PageRuns Silkware.Segments Silkware.SpinLock
open Silkware.Steps Silkware.Steps.Prog

abbrev Code := Prog State Stop

/-! ### Loads and stores -/

/-- `b->size` -/
def getSize (b : ℕ) : Code ℕ := .read fun s => size s.mem b

/-- `b->next` -/
def getNext (b : ℕ) : Code ℕ := .read fun s => next s.mem b

def putSize (b v : ℕ) : Code Unit := .update fun s => { s with mem := setSize s.mem b v }

def putNext (b v : ℕ) : Code Unit := .update fun s => { s with mem := setNext s.mem b v }

/-- `pools[i]` -/
def pool (s : State) (i : ℕ) : Pool := s.pools.getD i ⟨0, 0, 0⟩

/-- `pools[i].start` -/
def getStart (i : ℕ) : Code ℕ := .read fun s => (pool s i).start

/-- `pools[i].base` -/
def getBase (i : ℕ) : Code ℕ := .read fun s => (pool s i).base

/-- `pools[i].end` -/
def getEnd (i : ℕ) : Code ℕ := .read fun s => (pool s i).end_

def putStart (i v : ℕ) : Code Unit :=
  .update fun s => { s with pools := s.pools.modify i fun p => { p with start := v } }

/-- `n_pools` -/
def nPools : Code ℕ := .read fun s => s.pools.length

/-- `get_buddy` -/
def buddyOf (addr base : ℕ) : Code ℕ := do
  let n ← getSize addr
  return (base + ((addr - base) ^^^ n)) % 2 ^ 64

/-! ### `page_alloc` -/

/-- One round of `split`. -/
def halve (b base : ℕ) : Code Unit := do
  let n ← getSize b
  putSize b (n >>> 1)
  let bb ← buddyOf b base
  -- `*bb = *b`
  let n ← getSize b
  let x ← getNext b
  putSize bb n
  putNext bb x
  putNext b bb

def splitLoopC (b sz base : ℕ) : ℕ → Code Unit
  | 0 => .stop .hang
  | fuel + 1 => do
    let n ← getSize b
    if n = sz then return ()
    else
      halve b base
      splitLoopC b sz base fuel

def splitC (b sz base : ℕ) : Code Unit := do
  let n ← getSize b
  if sz ≤ n then splitLoopC b sz base 65 else .stop .panic

def findFitC (i sz : ℕ) : ℕ → ℕ → ℕ → Code (Option (ℕ × ℕ))
  | 0, _, _ => .stop .hang
  | fuel + 1, prev, b => do
    let e ← getEnd i
    if b < e then
      let n ← getSize b
      if sz ≤ n then return some (prev, b)
      else
        let x ← getNext b
        findFitC i sz fuel b x
    else return none

def unlinkC (i prev b : ℕ) : Code Unit := do
  let x ← getNext b
  if prev ≠ 0 then putNext prev x else putStart i x

/-- The pools from `i` on, of which there are `r`. -/
def allocLoopC (fuel sz : ℕ) : ℕ → ℕ → Code ℕ
  | 0, _ => .stop .panic
  | r + 1, i => do
    let b ← getStart i
    match ← findFitC i sz fuel 0 b with
    | some (prev, b) =>
      let base ← getBase i
      splitC b sz base
      unlinkC i prev b
      return b
    | none => allocLoopC fuel sz r (i + 1)

def pageAllocC (fuel sz : ℕ) : Code ℕ := do
  let n ← nPools
  allocLoopC fuel (blockSize sz) n 0

/-! ### `page_free` -/

def mergeC (i page prev b : ℕ) : Code Unit := do
  let h := if page < b then b else page
  let l := if page < b then page else b
  let n ← getSize l
  let m ← getSize h
  putSize l (n + m)
  let x ← getNext b
  putNext l x
  if prev ≠ 0 then putNext prev l else putStart i l

def freeWalkC (i page prev : ℕ) : ℕ → ℕ → Code Unit
  | 0, _ => .stop .hang
  | fuel + 1, b => do
    let base ← getBase i
    let bb ← buddyOf page base
    if b = bb then mergeC i page prev b
    else if page < b then
      if prev = 0 then
        let x ← getStart i
        putNext page x
        putStart i page
      else
        putNext prev page
        putNext page b
    else
      let e ← getEnd i
      if b = e then
        if prev = 0 then .stop .fault
        else
          putNext prev page
          let x ← getEnd i
          putNext page x
      else
        let x ← getNext b
        freeWalkC i page prev fuel x

def freeLoopC (fuel page : ℕ) : ℕ → ℕ → Code Unit
  | 0, _ => .stop .panic
  | r + 1, i => do
    let base ← getBase i
    let e ← getEnd i
    if page < base ∨ e < page then freeLoopC fuel page r (i + 1)
    else
      let b ← getStart i
      freeWalkC i page 0 fuel b

def pageFreeC (fuel page sz : ℕ) : Code Unit := do
  putSize page (blockSize sz)
  let n ← nPools
  freeLoopC fuel page n 0

/-! ### The steps come to the call -/

section Refine

variable {m : Mem} {ps : List Pool} {s : State}

@[simp] lemma run_getSize {α : Type} (b : ℕ) (k : ℕ → Code α) (s : State) :
    (getSize b >>= k).run s = (k (size s.mem b)).run s := rfl

@[simp] lemma run_getNext {α : Type} (b : ℕ) (k : ℕ → Code α) (s : State) :
    (getNext b >>= k).run s = (k (next s.mem b)).run s := rfl

@[simp] lemma run_putSize {α : Type} (b v : ℕ) (k : Unit → Code α) (s : State) :
    (putSize b v >>= k).run s = (k ()).run { s with mem := setSize s.mem b v } := rfl

@[simp] lemma run_putNext {α : Type} (b v : ℕ) (k : Unit → Code α) (s : State) :
    (putNext b v >>= k).run s = (k ()).run { s with mem := setNext s.mem b v } := rfl

@[simp] lemma run_getStart {α : Type} (i : ℕ) (k : ℕ → Code α) (s : State) :
    (getStart i >>= k).run s = (k (pool s i).start).run s := rfl

@[simp] lemma run_getBase {α : Type} (i : ℕ) (k : ℕ → Code α) (s : State) :
    (getBase i >>= k).run s = (k (pool s i).base).run s := rfl

@[simp] lemma run_getEnd {α : Type} (i : ℕ) (k : ℕ → Code α) (s : State) :
    (getEnd i >>= k).run s = (k (pool s i).end_).run s := rfl

@[simp] lemma run_nPools {α : Type} (k : ℕ → Code α) (s : State) :
    (nPools >>= k).run s = (k s.pools.length).run s := rfl

@[simp] lemma run_buddyOf {α : Type} (addr base : ℕ) (k : ℕ → Code α) (s : State) :
    (buddyOf addr base >>= k).run s = (k (getBuddy s.mem addr base)).run s := rfl

/-- The memory after one round of `split`. -/
def afterHalve (m : Mem) (b base : ℕ) : Mem :=
  let m := setSize m b (size m b >>> 1)
  let bb := getBuddy m b base
  setNext (setNext (setSize m bb (size m b)) bb (next m b)) b bb

lemma run_halve (b base : ℕ) (s : State) :
    (halve b base).run s = .ok ({ s with mem := afterHalve s.mem b base }, ()) := rfl

lemma run_splitLoop (b sz base fuel : ℕ) (s : State) :
    (splitLoopC b sz base fuel).run s =
      (splitLoop s.mem b sz base fuel).map fun m => ({ s with mem := m }, ()) := by
  induction fuel generalizing s with
  | zero => rfl
  | succ fuel ih =>
    rw [splitLoopC, splitLoop, run_getSize]
    split
    · rfl
    · rw [run_bind, run_halve]
      exact ih { s with mem := afterHalve s.mem b base }

lemma run_split (b sz base : ℕ) (s : State) :
    (splitC b sz base).run s =
      (split s.mem b sz base).map fun m => ({ s with mem := m }, ()) := by
  rw [splitC, split, run_getSize]
  split
  · exact run_splitLoop b sz base 65 s
  · rfl

lemma run_findFit (i sz fuel prev b : ℕ) (s : State) :
    (findFitC i sz fuel prev b).run s =
      (findFit s.mem sz (pool s i).end_ fuel prev b).map fun r => (s, r) := by
  induction fuel generalizing prev b with
  | zero => rfl
  | succ fuel ih =>
    rw [findFitC, findFit, run_getEnd]
    split
    · rw [run_getSize]
      split
      · rfl
      · rw [run_getNext]
        exact ih b (next s.mem b)
    · rfl

variable {A : List Pool} {p : Pool}

lemma pool_here (m : Mem) : pool ⟨m, A ++ p :: ps⟩ A.length = p := by
  simp [pool]

lemma modify_here (f : Pool → Pool) :
    (A ++ p :: ps).modify A.length f = A ++ f p :: ps := by
  induction A with
  | nil => rfl
  | cons q A ih => exact congrArg (q :: ·) ih

lemma run_putStart (v : ℕ) (m : Mem) :
    (putStart A.length v).run ⟨m, A ++ p :: ps⟩ =
      .ok (⟨m, A ++ { p with start := v } :: ps⟩, ()) := by
  simp only [putStart, run_update, modify_here]

lemma run_unlink (prev b : ℕ) (m : Mem) :
    (unlinkC A.length prev b).run ⟨m, A ++ p :: ps⟩ =
      .ok (⟨(unlink m p prev b).1, A ++ (unlink m p prev b).2 :: ps⟩, ()) := by
  rw [unlinkC, unlink, run_getNext]
  split
  · rfl
  · exact run_putStart _ m

lemma run_take (prev b sz : ℕ) (m : Mem) :
    (getBase A.length >>= fun base => splitC b sz base >>= fun _ =>
        unlinkC A.length prev b >>= fun _ => pure b).run ⟨m, A ++ p :: ps⟩ =
      (split m b sz p.base).map fun m =>
        (⟨(unlink m p prev b).1, A ++ (unlink m p prev b).2 :: ps⟩, b) := by
  rw [run_getBase, pool_here, run_bind, run_split]
  cases split m b sz p.base with
  | error e => rfl
  | ok m' =>
    change (unlinkC A.length prev b >>= fun _ => pure b).run ⟨m', A ++ p :: ps⟩ = _
    rw [run_bind, run_unlink]
    rfl

lemma run_allocLoop (fuel sz : ℕ) (m : Mem) (A ps : List Pool) :
    (allocLoopC fuel sz ps.length A.length).run ⟨m, A ++ ps⟩ =
      (allocLoop fuel m sz ps).map fun r => (⟨r.1, A ++ r.2.1⟩, r.2.2) := by
  induction ps generalizing A with
  | nil => rfl
  | cons p ps ih =>
    rw [List.length_cons, allocLoopC, allocLoop, run_getStart, pool_here, run_bind, run_findFit,
      pool_here]
    cases findFit m sz p.end_ fuel 0 p.start with
    | error e => rfl
    | ok r =>
      cases r with
      | some r =>
        obtain ⟨prev, b⟩ := r
        refine (run_take prev b sz m).trans ?_
        simp only [Except.map, bind, Except.bind]
        cases split m b sz p.base with
        | error e => rfl
        | ok m => rfl
      | none =>
        have h := ih (A ++ [p])
        rw [List.length_append, List.length_singleton, List.append_assoc, List.singleton_append] at h
        simp only [Except.map, bind, Except.bind]
        refine h.trans ?_
        cases allocLoop fuel m sz ps with
        | error e => rfl
        | ok r => simp [Except.map, pure, Except.pure]

/-- **The steps of `page_alloc`.** With nothing in between they come to the whole call. -/
lemma run_pageAlloc (fuel sz : ℕ) (s : State) : (pageAllocC fuel sz).run s = pageAlloc fuel s sz := by
  obtain ⟨m, ps⟩ := s
  rw [pageAllocC, run_nPools, pageAlloc]
  refine (run_allocLoop fuel (blockSize sz) m [] ps).trans ?_
  cases allocLoop fuel m (blockSize sz) ps with
  | error e => rfl
  | ok r => rfl

lemma run_merge (page prev b : ℕ) (m : Mem) :
    (mergeC A.length page prev b).run ⟨m, A ++ p :: ps⟩ =
      .ok (⟨(merge m p page prev b).1, A ++ (merge m p page prev b).2 :: ps⟩, ()) := by
  rw [mergeC, merge, run_getSize, run_getSize, run_putSize, run_getNext, run_putNext]
  split
  · rfl
  · exact run_putStart _ _

lemma run_freeWalk (page prev b fuel : ℕ) (m : Mem) :
    (freeWalkC A.length page prev fuel b).run ⟨m, A ++ p :: ps⟩ =
      (freeWalk m p page prev fuel b).map fun r => (⟨r.1, A ++ r.2 :: ps⟩, ()) := by
  induction fuel generalizing b with
  | zero => rfl
  | succ fuel ih =>
    rw [freeWalkC, freeWalk, run_getBase, run_buddyOf, pool_here]
    split
    · exact run_merge page prev b m
    · split
      · split
        · rw [run_getStart, run_putNext, pool_here]
          exact run_putStart page _
        · rfl
      · rw [run_getEnd, pool_here]
        split
        · split
          · rfl
          · rw [run_putNext, run_getEnd, pool_here]
            rfl
        · rw [run_getNext]
          exact ih (next m b)

lemma run_freeLoop (fuel page : ℕ) (m : Mem) (A ps : List Pool) :
    (freeLoopC fuel page ps.length A.length).run ⟨m, A ++ ps⟩ =
      (freeLoop fuel m page ps).map fun r => (⟨r.1, A ++ r.2⟩, ()) := by
  induction ps generalizing A with
  | nil => rfl
  | cons p ps ih =>
    rw [List.length_cons, freeLoopC, freeLoop, run_getBase, run_getEnd, pool_here]
    split
    · have h := ih (A ++ [p])
      rw [List.length_append, List.length_singleton, List.append_assoc, List.singleton_append] at h
      refine h.trans ?_
      cases freeLoop fuel m page ps with
      | error e => rfl
      | ok r => simp [Except.map, bind, Except.bind, pure, Except.pure]
    · rw [run_getStart, pool_here, run_freeWalk]
      cases freeWalk m p page 0 fuel p.start with
      | error e => rfl
      | ok r => rfl

/-- **The steps of `page_free`.** -/
lemma run_pageFree (fuel page sz : ℕ) (s : State) :
    (pageFreeC fuel page sz).run s = (pageFree fuel s page sz).map fun t => (t, ()) := by
  obtain ⟨m, ps⟩ := s
  rw [pageFreeC, run_putSize, run_nPools, pageFree]
  refine (run_freeLoop fuel page _ [] ps).trans ?_
  cases freeLoop fuel (setSize m page (blockSize sz)) page ps with
  | error e => rfl
  | ok r => rfl

end Refine

end Silkware.PageLock
