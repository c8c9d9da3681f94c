import Silkware.PageAlloc

/-!
The kernel heap of `kalloc.c`.

A block is a header of two words followed by its payload. The first word is the size of the
payload; the second is the next free block while the block is free, and a canary computed
from the block's address while it is in use. Each CPU has its own list of free blocks.
-/

namespace Silkware.Kalloc

open Silkware.ByteMem Silkware.Header Silkware.Kern Silkware.PageAlloc

/-- `HDRSIZE` -/
def hdrSize : ℕ := 16

/-- `ALLOC_ALIGN` -/
def allocAlign : ℕ := 16

/-- The memory and the first free block of each CPU. -/
structure State where
  mem : Mem
  start : ℕ → ℕ

/-- `srand_insecure`, xorshift*. -/
def srandInsecure (x : ℕ) : ℕ :=
  let x := x ^^^ (x >>> 12)
  let x := x ^^^ ((x <<< 25) % 2 ^ 64)
  let x := x ^^^ (x >>> 27)
  x * 0x2545F4914F6CDD1D % 2 ^ 64

def canary (x : ℕ) : ℕ := srandInsecure x

/-- `b->next` and `b->canary`, which share a word. -/
def link (m : Mem) (b : ℕ) : ℕ := next m b

/-- `b->data + n` -/
def dataAt (b n : ℕ) : ℕ := (b + hdrSize + n) % 2 ^ 64

def setStart (s : State) (cpu b : ℕ) : State :=
  { s with start := fun c => if c = cpu then b else s.start c }

/-! ### Insertion -/

/-- `while (new < cur)`, from the nodes `prev` and `cur` on. -/
def insertWalk (m : Mem) (new : ℕ) : ℕ → ℕ → ℕ → Except Stop (ℕ × ℕ)
  | 0, _, _ => throw .hang
  | fuel + 1, prev, cur =>
    if new < cur then insertWalk m new fuel cur (next m cur) else return (prev, cur)

/-- Link `new` between `prev` and `cur`, and merge it with `prev` where that ends at it. -/
def linkPrev (m : Mem) (prev new cur : ℕ) : Mem × ℕ :=
  let m := setNext m prev new
  let m := setNext m new cur
  if dataAt prev (size m prev) = new then
    let m := setNext m prev (next m new)
    (setSize m prev (size m prev + (size m new + hdrSize)), prev)
  else (m, new)

/-- Merge `new` with `cur` where it ends at it. -/
def mergeNext (m : Mem) (new cur : ℕ) : Mem :=
  if dataAt new (size m new) = cur then
    let m := setNext m new (next m cur)
    setSize m new (size m new + (size m cur + hdrSize))
  else m

def insertBlock (fuel : ℕ) (s : State) (cpu new : ℕ) : Except Stop State :=
  let prev := s.start cpu
  if prev = 0 then return setStart { s with mem := setNext s.mem new prev } cpu new
  else do
    let (prev, cur) ← insertWalk s.mem new fuel prev (next s.mem prev)
    if new = cur then throw .panic
    let r := linkPrev s.mem prev new cur
    return { s with mem := mergeNext r.1 r.2 cur }

/-! ### Allocation -/

/-- `(size + (ALLOC_ALIGN - 1)) & ~(ALLOC_ALIGN - 1)` -/
def alignUp (n : ℕ) : ℕ := (n + 15) % 2 ^ 64 - (n + 15) % 2 ^ 64 % 16

/-- The first free block that can be split, and its predecessor. -/
def findBlock (m : Mem) (sz : ℕ) : ℕ → ℕ → ℕ → Except Stop (Option (ℕ × ℕ))
  | 0, _, _ => throw .hang
  | fuel + 1, prev, cur =>
    if cur = 0 then return none
    else if (sz + hdrSize) % 2 ^ 64 ≤ size m cur then return some (prev, cur)
    else findBlock m sz fuel cur (next m cur)

/-- Cut `sz` bytes of payload off the free block `cur`; the rest stays on the list. -/
def splitBlock (s : State) (cpu sz prev cur : ℕ) : State :=
  let new := dataAt cur sz
  let m := setSize s.mem new (sub64 (size s.mem cur) (sz + hdrSize))
  let m := setNext m new (next m cur)
  let s := if prev ≠ 0 then { s with mem := setNext m prev new }
    else setStart { s with mem := m } cpu new
  { s with mem := setNext (setSize s.mem cur sz) cur (canary cur) }

/-- `kalloc(n)` on a CPU. `page` is `page_alloc`; besides the state and the pointer the result
says what was asked of it. -/
def kalloc (page : ℕ → Except Stop ℕ) (fuel : ℕ) (s : State) (cpu n : ℕ) :
    Except Stop (State × ℕ × Option ℕ) := do
  let sz := alignUp n
  match ← findBlock s.mem sz fuel 0 (s.start cpu) with
  | some (prev, cur) => return (splitBlock s cpu sz prev cur, dataAt cur 0, none)
  | none =>
    let req := (sz + hdrSize * 2) % 2 ^ 64
    let res ← page req
    let m := setNext (setSize s.mem res sz) res (canary res)
    let new := dataAt res sz
    let m := setSize m new (sub64 (nextPow2 req) (sz + hdrSize * 2))
    let s ← insertBlock fuel { s with mem := m } cpu new
    return (s, dataAt res 0, some req)

def kfree (fuel : ℕ) (s : State) (cpu addr : ℕ) : Except Stop State :=
  let b := sub64 addr hdrSize
  if link s.mem b ≠ canary b then throw .panic else insertBlock fuel s cpu b

def kzalloc (page : ℕ → Except Stop ℕ) (fuel : ℕ) (s : State) (cpu n : ℕ) :
    Except Stop (State × ℕ × Option ℕ) := do
  let (s, res, req) ← kalloc page fuel s cpu n
  return (if res ≠ 0 then { s with mem := fill s.mem res n 0 } else s, res, req)

end Silkware.Kalloc
