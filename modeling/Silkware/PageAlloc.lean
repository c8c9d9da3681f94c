import Silkware.Bits
import Silkware.Header
import Silkware.Kern

/-!
The buddy allocator of `page_alloc.c`.

A free block starts with a header of two words, its size and the next free block. The
free list of a pool ends at the pool's end address. `NULL` is `0`. The memory is the
kernel's virtual memory; a list walk takes a bound on the number of blocks it may visit
and reports `hang` when the bound is used up.
-/

namespace Silkware.PageAlloc

open Silkware.Bits Silkware.ByteMem Silkware.Header Silkware.Kern

/-- A pool. `start` is its first free block. -/
structure Pool where
  start : ℕ
  base : ℕ
  end_ : ℕ
  deriving DecidableEq

structure State where
  mem : Mem
  pools : List Pool

/-- The shift distances `1, 2, 4, 8, 16, 32` of the two rounding functions. -/
def shifts : List ℕ := (List.range 6).map (2 ^ ·)

def prevPow2 (x : ℕ) : ℕ :=
  if x = 0 then 0 else spread x shifts - spread x shifts >>> 1

def nextPow2 (x : ℕ) : ℕ :=
  if x = 0 then 0 else (spread (x - 1) shifts + 1) % 2 ^ 64

def getBuddy (m : Mem) (addr base : ℕ) : ℕ :=
  (base + ((addr - base) ^^^ size m addr)) % 2 ^ 64

/-! ### Allocation -/

/-- The loop of `split`, which ends only where the size meets `sz` exactly. The source has no bound
on it; 65 rounds take any power of two down to any other. -/
def splitLoop (m : Mem) (b sz base : ℕ) : ℕ → Except Stop Mem
  | 0 => throw .hang
  | fuel + 1 =>
    if size m b = sz then return m
    else
      let m := setSize m b (size m b >>> 1)
      let bb := getBuddy m b base
      let m := setNext (setSize m bb (size m b)) bb (next m b)
      splitLoop (setNext m b bb) b sz base fuel

def split (m : Mem) (b sz base : ℕ) : Except Stop Mem :=
  if sz ≤ size m b then splitLoop m b sz base 65 else throw .panic

/-- The first block from `b` on that is large enough, and its predecessor. -/
def findFit (m : Mem) (sz end_ : ℕ) : ℕ → ℕ → ℕ → Except Stop (Option (ℕ × ℕ))
  | 0, _, _ => throw .hang
  | fuel + 1, prev, b =>
    if b < end_ then
      if sz ≤ size m b then return some (prev, b)
      else findFit m sz end_ fuel b (next m b)
    else return none

/-- Take `b`, which follows `prev`, off the pool's list. -/
def unlink (m : Mem) (p : Pool) (prev b : ℕ) : Mem × Pool :=
  if prev ≠ 0 then (setNext m prev (next m b), p) else (m, { p with start := next m b })

/-- The loop of `page_alloc` over the pools. -/
def allocLoop (fuel : ℕ) (m : Mem) (sz : ℕ) : List Pool → Except Stop (Mem × List Pool × ℕ)
  | [] => throw .panic
  | p :: ps => do
    match ← findFit m sz p.end_ fuel 0 p.start with
    | some (prev, b) =>
      let m ← split m b sz p.base
      let (m, p) := unlink m p prev b
      return (m, p :: ps, b)
    | none =>
      let (m, ps, res) ← allocLoop fuel m sz ps
      return (m, p :: ps, res)

/-- The size `page_alloc` reserves for a request. -/
def blockSize (sz : ℕ) : ℕ := if nextPow2 sz < pageSize then pageSize else nextPow2 sz

def pageAlloc (fuel : ℕ) (s : State) (sz : ℕ) : Except Stop (State × ℕ) := do
  let (m, ps, res) ← allocLoop fuel s.mem (blockSize sz) s.pools
  return (⟨m, ps⟩, res)

/-! ### Release -/

/-- Join `page` with its buddy `b` on the list. -/
def merge (m : Mem) (p : Pool) (page prev b : ℕ) : Mem × Pool :=
  let h := if page < b then b else page
  let l := if page < b then page else b
  let m := setSize m l (size m l + size m h)
  let m := setNext m l (next m b)
  if prev ≠ 0 then (setNext m prev l, p) else (m, { p with start := l })

/-- The walk of `page_free` over one pool's list. The source declares `prev` and never
assigns it after setting it to `NULL`. -/
def freeWalk (m : Mem) (p : Pool) (page prev : ℕ) : ℕ → ℕ → Except Stop (Mem × Pool)
  | 0, _ => throw .hang
  | fuel + 1, b =>
    if b = getBuddy m page p.base then return merge m p page prev b
    else if page < b then
      if prev = 0 then return (setNext m page p.start, { p with start := page })
      else return (setNext (setNext m prev page) page b, p)
    else if b = p.end_ then
      -- `prev->next = page` through a null pointer
      if prev = 0 then throw .fault
      else return (setNext (setNext m prev page) page p.end_, p)
    else freeWalk m p page prev fuel (next m b)

/-- The loop of `page_free` over the pools. -/
def freeLoop (fuel : ℕ) (m : Mem) (page : ℕ) : List Pool → Except Stop (Mem × List Pool)
  | [] => throw .panic
  | p :: ps =>
    if page < p.base ∨ p.end_ < page then do
      let (m, ps) ← freeLoop fuel m page ps
      return (m, p :: ps)
    else do
      let (m, p) ← freeWalk m p page 0 fuel p.start
      return (m, p :: ps)

def pageFree (fuel : ℕ) (s : State) (page sz : ℕ) : Except Stop State := do
  let (m, ps) ← freeLoop fuel (setSize s.mem page (blockSize sz)) page s.pools
  return ⟨m, ps⟩

/-! ### Set-up -/

/-- An entry of the memory map; `len` is `0` where the memory is not usable. -/
structure MemmapEntry where
  base : ℕ
  len : ℕ

/-- The pools counted for an entry with `len` bytes left: the body runs at least once. -/
def countEntry : ℕ → ℕ → ℕ
  | 0, _ => 0
  | fuel + 1, len =>
    let len := len - prevPow2 len
    if pageSize ≤ len - prevPow2 len then 1 + countEntry fuel len else 1

def countPools (memmap : List MemmapEntry) : ℕ :=
  (memmap.map fun e => if e.len < pageSize then 0 else countEntry 65 e.len).sum

/-- State of the set-up: the memory, the next anonymous address and the pools so far. -/
structure Setup where
  mem : Mem
  endPos : ℕ
  pools : List Pool

/-- One pool of `szp2` bytes at `phys`. -/
def addPool (s : Setup) (phys szp2 : ℕ) : Setup :=
  let virt := (anonPos s.endPos phys szp2).1
  let end_ := (virt + szp2) % 2 ^ 64
  { mem := setNext (setSize s.mem virt szp2) virt end_
    endPos := (anonPos s.endPos phys szp2).2
    pools := s.pools ++ [⟨virt, virt, end_⟩] }

/-- The pools of an entry with `sz` bytes left at `phys`. -/
def fillEntry : ℕ → Setup → ℕ → ℕ → Setup
  | 0, s, _, _ => s
  | fuel + 1, s, phys, sz =>
    let szp2 := prevPow2 sz
    let s := addPool s phys szp2
    let sz := sz - szp2
    if pageSize ≤ sz - prevPow2 sz then fillEntry fuel s (phys + szp2) sz else s

def fillPools (s : Setup) (memmap : List MemmapEntry) : Setup :=
  memmap.foldl (fun s e => if e.len < pageSize then s else fillEntry 65 s e.base e.len) s

/-- `page_alloc_init`, from the value of `end_pos` it starts with. -/
def pageAllocInit (m : Mem) (endPos : ℕ) (memmap : List MemmapEntry) : Except Stop State :=
  if countPools memmap = 0 then throw .panic
  else
    let s := fillPools ⟨m, endPos, []⟩ memmap
    return ⟨s.mem, s.pools⟩

end Silkware.PageAlloc
