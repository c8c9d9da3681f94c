import Silkware.HashMap
import Silkware.Radix

/-!
The page tables of `arch/x86_64/paging.c`, and the `miniheap.c` they are first taken from.

Memory is the words of physical memory. The kernel reaches it through virtual addresses: its
image, except for the page `page_tmp`, at a fixed distance from where it was loaded; everything
else through `kpml4`, whose last slot every address space shares. There is no TLB here, so
`invlpg` has nothing to do, and rights are not checked.

`page_alloc` is not followed into its pools. It hands out the pages of a list, each with the
words that happen to be in it then, and larger blocks of another, whose words nothing here reads.
-/

namespace Silkware.Paging

open Silkware.Kern Silkware.Radix Silkware.HashMap

abbrev Mem := ℕ → ℕ

/-! ### Entries -/

/-- `ADDR_MASK`, all but the low twelve bits and the top one. -/
def addrMask : ℕ := 0x7FFFFFFFFFFFF000

/-- `X86_PAGE_PRESENT | X86_PAGE_USER | X86_PAGE_WRITABLE` -/
def topFlags : ℕ := 7

/-- `e & X86_PAGE_PRESENT` -/
def present (e : ℕ) : Bool := e &&& 1 ≠ 0

/-- `!!(flags & f) * x` -/
def flagBit (flags f x : ℕ) : ℕ := if flags &&& f ≠ 0 then x else 0

def pagePresent : ℕ := 1
def pageWritable : ℕ := 2
def pageUser : ℕ := 4
def pageNX : ℕ := 8
def pageNocache : ℕ := 16

/-- `x86_flags`, which is an `int`: the no-execute bit does not fit. -/
def x86Flags (flags : ℕ) : ℕ :=
  (flagBit flags pagePresent 1 ||| flagBit flags pageUser 4 ||| flagBit flags pageWritable 2 |||
    flagBit flags pageNX (2 ^ 63) ||| flagBit flags pageNocache 16) % 2 ^ 32

instance neZero_512 : NeZero 512 := ⟨by decide⟩

/-- The index of an address into a table, `l` levels above the page tables. -/
def index (l v : ℕ) : Fin 512 :=
  ⟨v >>> (12 + 9 * l) &&& 0x1FF, Nat.and_lt_two_pow _ (n := 9) (by decide)⟩

/-- An entry of the table in a frame. -/
def entry (m : Mem) (f : ℕ) (i : Fin 512) : ℕ := m (f * 0x1000 + 8 * i)

/-- The frame of the table a present entry leads to. -/
def next (e : ℕ) : Option ℕ := if present e then some ((e &&& addrMask) / 0x1000) else none

/-- The way of an address to its page table. -/
def path (v : ℕ) : List (Fin 512) := [index 3 v, index 2 v, index 1 v]

/-- The four-level walk: the page-table entry of an address, where the three levels above it
are present. -/
def leaf (m : Mem) (root v : ℕ) : Option ℕ := look (entry m) next root (path v) (index 0 v)

/-! ### The kernel image -/

/-- Where the image is linked and loaded. The mini-heap ends it. -/
structure Image where
  virtualBase : ℕ
  physicalBase : ℕ
  textStart : ℕ
  textEnd : ℕ
  rodataStart : ℕ
  rodataEnd : ℕ
  dataStart : ℕ
  kpml4 : ℕ
  pageTmp : ℕ
  linked : 0xFFFFFFFF80000000 ≤ virtualBase
  base_aligned : virtualBase % 0x1000 = 0 ∧ physicalBase % 0x1000 = 0
  aligned : kpml4 % 0x1000 = 0 ∧ pageTmp % 0x1000 = 0
  order : virtualBase ≤ textStart ∧ textStart ≤ textEnd ∧ textEnd ≤ rodataStart ∧
    rodataStart ≤ rodataEnd ∧ rodataEnd ≤ dataStart ∧ dataStart ≤ kpml4 ∧ kpml4 + 0x1000 ≤ pageTmp
  virtual_end : pageTmp + 0x1000 + 0x64000 + 0x1000 < 2 ^ 64
  physical_end : physicalBase + (pageTmp + 0x1000 + 0x64000 - virtualBase) ≤ 2 ^ 52

namespace Image

variable (K : Image)

def miniheapStart : ℕ := K.pageTmp + 0x1000

def miniheapEnd : ℕ := K.miniheapStart + 0x64000

/-- `kern_end`, which is also `data_end`. -/
def kernEnd : ℕ := K.miniheapEnd

/-- `VK2PHYSK` -/
def vk2physk (x : ℕ) : ℕ := (sub64 x K.virtualBase + K.physicalBase) % 2 ^ 64

/-- `PHYSK2VK` -/
def physk2vk (x : ℕ) : ℕ := (sub64 x K.physicalBase + K.virtualBase) % 2 ^ 64

/-- The frame of `kpml4`. -/
def root : ℕ := K.vk2physk K.kpml4 / 0x1000

/-- The addresses that are reached at the distance of the image. -/
def Fixed (v : ℕ) : Prop :=
  K.virtualBase ≤ v ∧ v < K.kernEnd ∧ ¬ (K.pageTmp ≤ v ∧ v < K.pageTmp + 0x1000)

instance (v : ℕ) : Decidable (K.Fixed v) := by unfold Fixed; infer_instance

end Image

/-! ### The state -/

/-- A page that `page_alloc` hands out. -/
structure Block where
  virt : ℕ
  words : ℕ → ℕ

/-- Address spaces go by the address of their record; `cur` is the one of `proc_current`, if
there is one. -/
structure St where
  mem : Mem
  brk : ℕ
  endPos : ℕ
  addr : ℕ → ℕ
  physmap : ℕ → Option Map
  cur : Option ℕ
  supply : List Block
  large : List ℕ

/-- `&kspace` -/
def kspace : ℕ := 0

variable (K : Image)

def translate (s : St) (v : ℕ) : Except Stop ℕ :=
  if K.Fixed v then return K.vk2physk v
  else match leaf s.mem K.root v with
    | some e => if present e then return (e &&& addrMask) + v % 0x1000 else throw .fault
    | none => throw .fault

def load (s : St) (v : ℕ) : Except Stop ℕ := do
  let a ← translate K s v
  return s.mem a

def setWord (s : St) (a x : ℕ) : St := { s with mem := fun b => if b = a then x else s.mem b }

def store (s : St) (v x : ℕ) : Except Stop St := do
  let a ← translate K s v
  return setWord s a x

def miniheapAlloc (size : ℕ) (s : St) : Except Stop (ℕ × St) :=
  let s' := { s with brk := (s.brk + roundUpPage size) % 2 ^ 64 }
  if K.miniheapEnd < s'.brk then throw .panic else return (s.brk, s')

def fillPage (m : Mem) (a : ℕ) (w : ℕ → ℕ) : Mem :=
  fun b => if a ≤ b ∧ b < a + 0x1000 then w ((b - a) / 8) else m b

/-- `page_alloc(PAGE_SIZE)` -/
def pageAlloc (s : St) : Except Stop (ℕ × St) :=
  match s.supply with
  | [] => throw .panic
  | b :: bs => do
    let a ← translate K s b.virt
    return (b.virt, { s with supply := bs, mem := fillPage s.mem a b.words })

/-- `page_alloc` of more than a page. -/
def pageAllocLarge (s : St) : Except Stop (ℕ × St) :=
  match s.large with
  | [] => throw .panic
  | v :: vs => return (v, { s with large := vs })

/-! ### Mapping pages

`premap_pages` and `map_pages` differ in where they take new tables from and in how they reach
a table by its physical address. -/

structure Walker where
  new : St → Except Stop (ℕ × St)
  get : ℕ → St → Except Stop ℕ

variable (w : Walker)

/-- `if (!(tab[i] & X86_PAGE_PRESENT)) tab[i] = new() | top_flags;`, and the entry there. -/
def tableEntry (tab : ℕ) (i : Fin 512) (s : St) : Except Stop (ℕ × St) := do
  let e ← load K s (tab + 8 * i)
  if present e then return (e, s)
  else
    let (f, s) ← w.new s
    let s ← store K s (tab + 8 * i) (f ||| topFlags)
    let e ← load K s (tab + 8 * i)
    return (e, s)

/-- One level down: the virtual address of the table that `tab[i]` leads to. -/
def descend (tab : ℕ) (i : Fin 512) (s : St) : Except Stop (ℕ × St) := do
  let (e, s) ← tableEntry K w tab i s
  let t ← w.get (e &&& addrMask) s
  return (t, s)

/-- The body of the loop. -/
def mapPage (pml4 flags dst src : ℕ) (s : St) : Except Stop St := do
  let (pdpt, s) ← descend K w pml4 (index 3 dst) s
  let (pd, s) ← descend K w pdpt (index 2 dst) s
  let (pt, s) ← descend K w pd (index 1 dst) s
  store K s (pt + 8 * index 0 dst) ((src &&& addrMask) ||| x86Flags flags)

def mapLoop (pml4 flags dstEnd srcEnd : ℕ) : ℕ → ℕ → ℕ → St → Except Stop St
  | 0, dst, src, s => if dst < dstEnd ∧ src < srcEnd then throw .hang else return s
  | fuel + 1, dst, src, s =>
    if dst < dstEnd ∧ src < srcEnd then do
      let s ← mapPage K w pml4 flags dst src s
      mapLoop pml4 flags dstEnd srcEnd fuel ((dst + pageSize) % 2 ^ 64) ((src + pageSize) % 2 ^ 64) s
    else return s

/-- The loop over the pages of a range; each turn comes one page nearer to its end. -/
def mapRange (pml4 dst src length flags : ℕ) (s : St) : Except Stop St :=
  let dstEnd := roundUpPage ((dst + length) % 2 ^ 64)
  let srcEnd := roundUpPage ((src + length) % 2 ^ 64)
  mapLoop K w pml4 flags dstEnd srcEnd ((dstEnd - dst) / pageSize + 1) dst src s

def premapWalker : Walker where
  new s := do
    let (v, s) ← miniheapAlloc K pageSize s
    return (K.vk2physk v, s)
  get e _ := return K.physk2vk e

def premapPages (dst src length flags : ℕ) (s : St) : Except Stop St :=
  mapRange K (premapWalker K) K.kpml4 dst src length flags s

def unmapPages (virt len : ℕ) (s : St) : Except Stop St := premapPages K virt 0 len 0 s

/-! ### The window at `page_tmp` -/

def mapPageTmp (phys : ℕ) (s : St) : Except Stop St :=
  premapPages K K.pageTmp phys pageSize (pagePresent ||| pageWritable) s

/-- `assert(tab[i] & X86_PAGE_PRESENT)`, and the window moved to the table it leads to. -/
def windowTo (tab : ℕ) (i : Fin 512) (s : St) : Except Stop St := do
  let e ← load K s (tab + 8 * i)
  if present e then mapPageTmp K (e &&& addrMask) s else throw .panic

/-- `cur_space ? cur_space->addr : kpml4` -/
def pml4Of (cur : Option ℕ) (s : St) : ℕ :=
  match cur with
  | some sp => s.addr sp
  | none => K.kpml4

def kvirt2phys (cur : Option ℕ) (virt : ℕ) (s : St) : Except Stop (ℕ × St) := do
  if virt = 0 then throw .panic
  let s ← windowTo K (pml4Of K cur s) (index 3 virt) s
  let s ← windowTo K K.pageTmp (index 2 virt) s
  let s ← windowTo K K.pageTmp (index 1 virt) s
  let e ← load K s (K.pageTmp + 8 * index 0 virt)
  return ((e &&& addrMask) ||| (virt &&& 0xFFF), s)

/-! ### Address spaces -/

variable (sp : ℕ)

def setPhysmap (s : St) (m : Map) : St :=
  { s with physmap := fun i => if i = sp then some m else s.physmap i }

def setAddr (s : St) (a : ℕ) : St := { s with addr := fun i => if i = sp then a else s.addr i }

def tabNew (s : St) : Except Stop (ℕ × St) := do
  let (virt, s) ← pageAlloc K s
  let (phys, s) ← kvirt2phys K s.cur virt s
  match s.physmap sp with
  | none => throw .fault
  | some m =>
    let m ← mapInsert m (leBytes phys) (leBytes virt)
    return (phys, setPhysmap sp s m)

def tabGet (phys : ℕ) (s : St) : Except Stop ℕ :=
  match s.physmap sp with
  | none => throw .fault
  | some m => do
    match ← mapGet m (leBytes phys) with
    | some b => return ofLeBytes (b.take 8)
    | none => if sp = kspace then return K.physk2vk phys else throw .panic

def spaceWalker : Walker := ⟨tabNew K sp, tabGet K sp⟩

def mapPages (dst src length flags : ℕ) (s : St) : Except Stop St :=
  mapRange K (spaceWalker K sp) (s.addr sp) dst src length flags s

/-! ### Anonymous mappings -/

def mapKernPages (s : St) : Except Stop St := do
  let s ← premapPages K K.textStart (K.vk2physk K.textStart) (K.textEnd - K.textStart) pagePresent s
  let s ← premapPages K K.rodataStart (K.vk2physk K.rodataStart) (K.rodataEnd - K.rodataStart)
    (pagePresent ||| pageNX) s
  let s ← premapPages K K.dataStart (K.vk2physk K.dataStart) (K.kernEnd - K.dataStart)
    (pagePresent ||| pageNX ||| pageWritable) s
  return { s with endPos := roundUpPage K.kernEnd }

def premapAnon (phys len flags : ℕ) (s : St) : Except Stop (ℕ × St) := do
  let (res, endPos) := anonPos s.endPos phys len
  let s ← premapPages K s.endPos (floorPage phys) len flags s
  return (res, { s with endPos := endPos })

def mapAnon (phys len flags : ℕ) (s : St) : Except Stop (ℕ × St) := do
  let (res, endPos) := anonPos s.endPos phys len
  let s ← mapPages K (s.cur.getD kspace) s.endPos (floorPage phys) len flags s
  return (res, { s with endPos := endPos })

/-! ### A new process -/

/-- `struct segment` -/
structure Segment where
  base : ℕ
  kvirt : ℕ
  len : ℕ

def procEntry : ℕ := 0x100000

def stackTop : ℕ := 0x100000000

/-- The address space that `kalloc` puts at `sp`: an empty map, and a top table that shares the
kernel's last slot. -/
def spaceInit (s : St) : Except Stop St := do
  let s := setPhysmap sp s (mapNew 0x10)
  let (addr, s) ← pageAlloc K s
  let s := setAddr sp s addr
  let e ← load K s (K.kpml4 + 8 * 511)
  store K s (addr + 8 * 511) e

/-- `proc_pages_init`: the segments, and the state after. -/
def procPagesInit (start len : ℕ) (s : St) : Except Stop (List Segment × St) := do
  let s ← spaceInit K sp s
  let code : Segment := ⟨procEntry, start, len⟩
  let s ← mapPages K sp code.base code.kvirt code.len (pagePresent ||| pageUser) s
  let (kvirt, s) ← pageAllocLarge s
  let stack : Segment := ⟨stackTop, kvirt, 64 * pageSize⟩
  let s ← mapPages K sp stack.base stack.kvirt stack.len
    (pagePresent ||| pageUser ||| pageNX ||| pageWritable) s
  return ([code, stack], s)

end Silkware.Paging
