import Mathlib.Algebra.Order.BigOperators.Group.List
import Silkware.KallocRuns
import Silkware.PageBack
import Silkware.PoolSetup

/-!
The kernel heap on top of the page allocator.

`kalloc` divides the pages `page_alloc` gives it. Both keep their headers in the memory they hand out
to others: the free pages, the heap's blocks and the pages of other callers must not meet.
-/

namespace Silkware.HeapPages

open Silkware.ByteMem Silkware.Header Silkware.Kern Silkware.Links Silkware.Outcome
open Silkware.Segments Silkware.PageAlloc Silkware.PageAllocInv
open Silkware.Kalloc hiding State kalloc kfree
open Silkware.KallocInv hiding Here
open Silkware.PageRuns (Live MapOk NoOverlap FreeOk)
open Silkware.KallocRuns (hdr bytes IsBlock Safe Held)

/-- Memory, the pools of the page allocator and the first free block of each CPU. -/
structure State where
  mem : Mem
  pools : List Pool
  start : ℕ → ℕ

def State.pages (s : State) : PageAlloc.State := ⟨s.mem, s.pools⟩

def State.heap (s : State) : Kalloc.State := ⟨s.mem, s.start⟩

/-- `kalloc`, with the `page_alloc` it calls. Besides the state and the pointer the result says what
was asked of that. -/
def kalloc (fuel : ℕ) (s : State) (cpu n : ℕ) : Except Stop (State × ℕ × Option ℕ) := do
  let sz := alignUp n
  match ← findBlock s.mem sz fuel 0 (s.start cpu) with
  | some (prev, cur) =>
    let h := splitBlock s.heap cpu sz prev cur
    return (⟨h.mem, s.pools, h.start⟩, dataAt cur 0, none)
  | none =>
    let req := (sz + hdrSize * 2) % 2 ^ 64
    let (pg, res) ← pageAlloc fuel s.pages req
    let m := setNext (setSize pg.mem res sz) res (canary res)
    let new := dataAt res sz
    let m := setSize m new (sub64 (nextPow2 req) (sz + hdrSize * 2))
    let h ← insertBlock fuel ⟨m, s.start⟩ cpu new
    return (⟨h.mem, pg.pools, h.start⟩, dataAt res 0, some req)

def kfree (fuel : ℕ) (s : State) (cpu addr : ℕ) : Except Stop State := do
  let h ← Kalloc.kfree fuel s.heap cpu addr
  return ⟨h.mem, s.pools, h.start⟩

/-- The pointers to blocks of the heap, the pages the heap has taken, and those of other callers. -/
structure Sys where
  st : State
  live : List ℕ
  taken : List Live
  pages : List Live

/-- The pages of the heap after a call that returned `ptr` and asked for `req`. -/
def takePage (taken : List Live) (ptr : ℕ) : Option ℕ → List Live
  | none => taken
  | some r => ⟨hdr ptr, r⟩ :: taken

inductive Op
  | kalloc (cpu n ptr : ℕ)
  | kfree (cpu ptr : ℕ)
  | alloc (sz : ℕ)
  | free (page sz : ℕ)
  | write (a : ℕ)

/-- A call, or a write to a block of the heap or to a page. -/
inductive Step (s : Sys) : Op → Sys → Prop
  | kalloc {fuel cpu n ptr : ℕ} {st : State} {req : Option ℕ} (hn : n < 2 ^ 62)
      (h : HeapPages.kalloc fuel s.st cpu n = .ok (st, ptr, req)) :
      Step s (.kalloc cpu n ptr) ⟨st, ptr :: s.live, takePage s.taken ptr req, s.pages⟩
  | kfree {fuel cpu ptr : ℕ} {st : State} (hl : ptr ∈ s.live)
      (h : HeapPages.kfree fuel s.st cpu ptr = .ok st) :
      Step s (.kfree cpu ptr) ⟨st, s.live.erase ptr, s.taken, s.pages⟩
  | alloc {fuel sz p : ℕ} {pg : PageAlloc.State} (h0 : 0 < sz) (h1 : sz ≤ 2 ^ 63)
      (h : pageAlloc fuel s.st.pages sz = .ok (pg, p)) :
      Step s (.alloc sz) ⟨⟨pg.mem, pg.pools, s.st.start⟩, s.live, s.taken, ⟨p, sz⟩ :: s.pages⟩
  | free {fuel page sz : ℕ} {pg : PageAlloc.State} (hl : ⟨page, sz⟩ ∈ s.pages)
      (h : pageFree fuel s.st.pages page sz = .ok pg) :
      Step s (.free page sz)
        ⟨⟨pg.mem, pg.pools, s.st.start⟩, s.live, s.taken, s.pages.erase ⟨page, sz⟩⟩
  | data {p a : ℕ} {v : UInt8} (hp : p ∈ s.live) (h1 : p ≤ a) (h2 : a < p + size s.st.mem (hdr p)) :
      Step s (.write a) { s with st.mem := fun x => if x = a then v else s.st.mem x }
  | page {x : Live} {a : ℕ} {v : UInt8} (hx : x ∈ s.pages) (h1 : x.addr ≤ a)
      (h2 : a < x.addr + blockSize x.req) :
      Step s (.write a) { s with st.mem := fun b => if b = a then v else s.st.mem b }

/-- The two allocators, each with what the other one and the callers hold. -/
def Sys.heapSys (s : Sys) : KallocRuns.Sys := ⟨s.st.heap, s.live, s.taken.map Live.seg⟩

def Sys.pageSys (s : Sys) : PageRuns.Sys := ⟨s.st.pages, s.taken ++ s.pages⟩

/-- The releases `page_free` can handle. -/
def CanFree (s : Sys) : Op → Prop
  | .free page sz => FreeOk s.pageSys (.free page sz)
  | _ => True

def Runs : Sys → Sys → Prop :=
  Relation.ReflTransGen fun s s' => ∃ op, CanFree s op ∧ Step s op s'

/-! ### Pages that stay as they are -/

section Frames

variable {s : PageRuns.Sys} {fr : List (List ℕ)} {m' : Mem}

/-- Memory that changes only in blocks in use. -/
lemma touch_inv (h : PageRuns.Inv s fr)
    (hm : ∀ a, (∀ x ∈ s.live, a < x.addr ∨ x.addr + blockSize x.req ≤ a) → m' a = s.st.mem a) :
    PageRuns.Inv ⟨{ s.st with mem := m' }, s.live⟩ fr := by
  have hd : ∀ y ∈ fr.flatten, SameHdr s.st.mem m' y := by
    intro y hy z hz1 hz2
    have hb := seg_pos h.pools _ (List.mem_map_of_mem hy)
    simp only [seg] at hb
    refine hm z fun x hx => ?_
    by_contra hin
    have := (h.alone hx (a := z) (by omega) (by omega)).1 y hy
    omega
  have hseg : fr.flatten.map (seg m') = fr.flatten.map (seg s.st.mem) :=
    List.map_congr_left fun y hy => by rw [seg, seg, (hd y hy).size]
  obtain ⟨hp, ho, hlv, hpk⟩ := h
  exact ⟨forall2_hdr hp hd, ho, hlv, by rw [hseg]; exact hpk⟩

/-- `page_alloc` writes to free blocks only. -/
lemma alloc_keeps {fuel sz p : ℕ} {st : PageAlloc.State} (h : PageRuns.Inv s fr)
    (h1 : sz ≤ 2 ^ 63) (hr : pageAlloc fuel s.st sz = .ok (st, p)) :
    (∃ fr', PageRuns.Inv ⟨st, ⟨p, sz⟩ :: s.live⟩ fr') ∧
      st.pools.map extent = s.st.pools.map extent ∧
      ∀ x ∈ s.live, ∀ a, x.addr ≤ a → a < x.addr + blockSize x.req → st.mem a = s.st.mem a := by
  obtain ⟨A, l1, l2, B, j, k, -, e, hi⟩ := PageRuns.alloc_inv h (by omega) hr
  refine ⟨⟨_, hi⟩, e.ext, fun x hx a ha1 ha2 => e.off a fun c hc => ?_⟩
  refine (h.alone hx ha1 ha2).1 c ?_
  rw [e.eq]
  simp only [List.flatten_append, List.flatten_cons, List.mem_append, List.mem_cons] at hc ⊢
  tauto

/-- `page_free` writes to free blocks and to the block it is given. -/
lemma free_keeps {fuel page sz : ℕ} {st : PageAlloc.State} (h : PageRuns.Inv s fr)
    (hl : ⟨page, sz⟩ ∈ s.live) (hok : FreeOk s (.free page sz))
    (hr : pageFree fuel s.st page sz = .ok st) :
    (∃ fr', PageRuns.Inv ⟨st, s.live.erase ⟨page, sz⟩⟩ fr') ∧
      st.pools.map extent = s.st.pools.map extent ∧
      ∀ x ∈ s.live, x ≠ ⟨page, sz⟩ →
        ∀ a, x.addr ≤ a → a < x.addr + blockSize x.req → st.mem a = s.st.mem a := by
  obtain ⟨fr', k, -, -, hext, hi⟩ := PageRuns.free_inv h hl hok hr
  refine ⟨⟨fr', hi⟩, hext, fun x hx hne a ha1 ha2 => ?_⟩
  have hblk : ∀ y ∈ s.live, 16 ≤ blockSize y.req := by
    obtain ⟨-, -, hlv, -⟩ := h
    intro y hy
    obtain ⟨e, -, hb⟩ := hlv y hy
    have := hb.facts
    omega
  obtain ⟨hfree, hlive⟩ := h.alone hx ha1 ha2
  refine PageBack.pageFree_writes h.pools (PageRuns.live_hdr h hl) hok.1 hr fun c hc => ?_
  rcases List.mem_cons.mp hc with rfl | hc
  · have h1 := hlive _ hl (Ne.symm hne)
    have h2 := hblk _ hl
    simp only at h1 h2
    omega
  · have h1 := hfree c hc
    have h2 := seg_pos h.pools _ (List.mem_map_of_mem hc)
    simp only [seg] at h2
    omega

end Frames

/-! ### The heap between its regions -/

section Regions

variable {s s' : Kalloc.State} {fr : ℕ → List ℕ} {own : List ℕ} {regs regs' : List Seg}

/-- A byte that lies in no region. -/
def Outside (regs : List Seg) (x : ℕ) : Prop := ∀ r ∈ regs, x < r.lo ∨ r.hi ≤ x

lemma Outside.block {m : Mem} {start : ℕ → ℕ} {b x : ℕ} (hx : Outside regs x)
    (h : Heap m start fr own regs) (hb : KallocInv.Here fr own b) :
    x < b ∨ b + 16 + size m b ≤ x := by
  by_contra hin
  obtain ⟨r, hr, h1, h2⟩ := h.cov b hb x (by simp only [blk]; omega)
    (by simp only [Seg.hi, blk]; omega)
  have := hx r hr
  omega

/-- `kalloc` writes to the regions of the heap only. -/
lemma gave_outside {cpu n ptr b : ℕ} {req : Option ℕ} {l' : List ℕ}
    (h : Heap s.mem s.start fr own regs) (hg : Gave s s' cpu n fr own regs' ptr req b l')
    (hsub : ∀ r ∈ regs, r ∈ regs') {x : ℕ} (hx : Outside regs' x) : s'.mem x = s.mem x := by
  have hx' : Outside regs x := fun r hr => hx r (hsub r hr)
  have hnew : ∀ c ∈ b :: l', x < c ∨ c + 16 ≤ x := by
    intro c hc
    have hh : KallocInv.Here (Function.update fr cpu l') (b :: own) c := by
      rcases List.mem_cons.mp hc with rfl | hc
      · exact Or.inl List.mem_cons_self
      · exact Or.inr ⟨cpu, by simpa using hc⟩
    have := hx.block hg.heap hh
    omega
  refine hg.out x fun c hc => ?_
  rcases List.mem_cons.mp hc with rfl | hc
  · exact hnew c List.mem_cons_self
  · rcases List.mem_append.mp hc with hc | hc
    · have := hx'.block h (Or.inr ⟨cpu, hc⟩)
      omega
    · exact hnew c (List.mem_cons_of_mem _ hc)

lemma put_outside {cpu b : ℕ} {l' : List ℕ} (h : Heap s.mem s.start fr (b :: own) regs)
    (hp : Put s s' cpu b fr own regs l') {x : ℕ} (hx : Outside regs x) : s'.mem x = s.mem x := by
  refine hp.out x fun c hc => ?_
  have hh : KallocInv.Here fr (b :: own) c := by
    rcases List.mem_cons.mp hc with rfl | hc
    · exact Or.inl List.mem_cons_self
    · exact Or.inr ⟨cpu, hc⟩
  have := hx.block h hh
  omega

/-- The search depends on the headers of the list only. -/
lemma findBlock_congr {m m' : Mem} {sz fuel prev cur : ℕ} {l : List ℕ} (h : Chain (next m) cur l 0)
    (hd : ∀ c ∈ l, SameHdr m m' c) : findBlock m' sz fuel prev cur = findBlock m sz fuel prev cur := by
  induction l generalizing fuel prev cur with
  | nil =>
    obtain rfl : cur = 0 := h
    cases fuel with
    | zero => rfl
    | succ fuel => rw [findBlock, findBlock, if_pos rfl, if_pos rfl]
  | cons c l ih =>
    obtain ⟨rfl, h2⟩ := h
    cases fuel with
    | zero => rfl
    | succ fuel =>
      have hc := hd cur List.mem_cons_self
      rw [findBlock, findBlock, hc.size, hc.next,
        ih h2 fun c hc => hd c (List.mem_cons_of_mem _ hc)]

end Regions

/-! ### `kalloc` in two steps -/

/-- A block of the list is cut; or `page_alloc` is called first, and then the page divided. -/
inductive Allocates (fuel : ℕ) (s : State) (cpu n : ℕ) (st : State) (ptr : ℕ) : Option ℕ → Prop
  | cut (hp : st.pools = s.pools)
      (h : ∀ page, Kalloc.kalloc page fuel s.heap cpu n = .ok (st.heap, ptr, none)) :
      Allocates fuel s cpu n st ptr none
  | page {pg : PageAlloc.State} {res r : ℕ} (hr : r = (alignUp n + hdrSize * 2) % 2 ^ 64)
      (hpg : pageAlloc fuel s.pages r = .ok (pg, res)) (hp : st.pools = pg.pools)
      (hptr : ptr = dataAt res 0)
      (h : findBlock pg.mem (alignUp n) fuel 0 (s.start cpu) =
          findBlock s.mem (alignUp n) fuel 0 (s.start cpu) →
        Kalloc.kalloc (fun _ => .ok res) fuel ⟨pg.mem, s.start⟩ cpu n = .ok (st.heap, ptr, some r)) :
      Allocates fuel s cpu n st ptr (some r)

lemma kalloc_allocates {fuel cpu n ptr : ℕ} {s st : State} {req : Option ℕ}
    (h : kalloc fuel s cpu n = .ok (st, ptr, req)) : Allocates fuel s cpu n st ptr req := by
  obtain ⟨r, hf, h⟩ := exists_of_bind h
  cases r with
  | some pc =>
    obtain ⟨prev, cur⟩ := pc
    simp only [pure, Except.pure, Except.ok.injEq, Prod.mk.injEq] at h
    obtain ⟨rfl, rfl, rfl⟩ := h
    refine .cut rfl fun page => ?_
    simp only [Kalloc.kalloc, State.heap, hf, bind, Except.bind, pure, Except.pure]
  | none =>
    obtain ⟨⟨pg, res⟩, hpg, h⟩ := exists_of_bind h
    obtain ⟨k, hi, h⟩ := exists_of_bind h
    simp only [pure, Except.pure, Except.ok.injEq, Prod.mk.injEq] at h
    obtain ⟨rfl, rfl, rfl⟩ := h
    refine .page rfl hpg rfl rfl fun hsame => ?_
    rw [hf] at hsame
    simp only [Kalloc.kalloc, hsame, bind, Except.bind, pure, Except.pure]
    rw [hi]
    rfl

/-! ### The invariant -/

/-- Each allocator keeps its own invariant while the other works. -/
structure Inv (s : Sys) : Prop where
  heap : KallocRuns.Inv s.heapSys
  pages : ∃ fr, PageRuns.Inv s.pageSys fr
  al : ∀ e ∈ s.st.pools.map extent, e.1 % 16 = 0

section Calls

variable {s : Sys}

/-- The block of a page by the page allocator's invariant. -/
lemma Inv.block (h : Inv s) {x : Live} (hx : x ∈ s.taken ++ s.pages) :
    x.addr % 16 = 0 ∧ 0 < x.addr ∧ 4096 ≤ blockSize x.req ∧ x.addr + blockSize x.req < 2 ^ 64 := by
  obtain ⟨fr, hp⟩ := h.pages
  have hpools := hp.pools
  obtain ⟨-, -, hlv, -⟩ := hp
  obtain ⟨e, he, hb⟩ := hlv x hx
  have hal := h.al e he
  have htop := PageRuns.end_lt hpools he
  have hfacts := hb.facts
  obtain ⟨p, hpp, rfl⟩ := List.mem_map.mp he
  obtain ⟨l, -, hpos, -⟩ := PageBack.forall2_mem hpools hpp
  obtain ⟨k, q, hk, -, hq, -⟩ := hb
  -- a block is a multiple of its size away from the start of its pool
  obtain ⟨c, hc⟩ : 16 ∣ q * 2 ^ k := Dvd.dvd.mul_left (Nat.pow_dvd_pow 2 (m := 4) (by omega)) q
  simp only [extent] at *
  omega

lemma Inv.apart (h : Inv s) : Packed ((s.taken ++ s.pages).map Live.seg) := by
  obtain ⟨fr, hp⟩ := h.pages
  exact (List.pairwise_append.mp hp.packed).2.1

/-- A byte of another caller's page lies in no page of the heap. -/
lemma Inv.outside (h : Inv s) {x : Live} (hx : x ∈ s.pages) {a : ℕ} (h1 : x.addr ≤ a)
    (h2 : a < x.addr + blockSize x.req) : Outside (s.taken.map Live.seg) a := by
  have hp := h.apart
  rw [List.map_append] at hp
  intro r hr
  have := (List.pairwise_append.mp hp).2.2 r hr _ (List.mem_map_of_mem hx)
  simp only [Apart, Live.seg, Seg.hi] at *
  omega

/-- Memory that changes in the pages of the heap only. -/
lemma Inv.pages_touch (h : Inv s) {m' : Mem}
    (hm : ∀ a, Outside (s.taken.map Live.seg) a → m' a = s.st.mem a) :
    ∃ fr, PageRuns.Inv ⟨⟨m', s.st.pools⟩, s.taken ++ s.pages⟩ fr := by
  obtain ⟨fr, hp⟩ := h.pages
  refine ⟨fr, touch_inv (s := s.pageSys) hp fun a ha => hm a fun r hr => ?_⟩
  obtain ⟨x, hx, rfl⟩ := List.mem_map.mp hr
  exact ha x (List.mem_append_left _ hx)

/-- Memory that stays as it is in the pages of the heap. -/
lemma Inv.heap_other (h : Inv s) {m' : Mem}
    (hm : ∀ x ∈ s.taken, ∀ a, x.addr ≤ a → a < x.addr + blockSize x.req → m' a = s.st.mem a) :
    KallocRuns.Inv ⟨⟨m', s.st.start⟩, s.live, s.taken.map Live.seg⟩ := by
  have hs : KallocRuns.Step s.heapSys .other { s.heapSys with st.mem := m' } := by
    refine .other fun r hr a h1 h2 => ?_
    obtain ⟨x, hx, rfl⟩ := List.mem_map.mp hr
    exact hm x hx a h1 h2
  exact KallocRuns.step_inv h.heap hs

end Calls

/-- One call of `kalloc` as the heap alone sees it. -/
structure Given (s s' : KallocRuns.Sys) (n ptr : ℕ) (g : Seg) (req : Option ℕ) : Prop where
  inv : KallocRuns.Inv s'
  ptr : ∀ r, req = some r → hdr ptr = g.lo
  out : ∀ x, Outside (addReg s.regs g req) x → s'.st.mem x = s.st.mem x

lemma kalloc_given {s : KallocRuns.Sys} {fuel cpu n ptr : ℕ} {st : Kalloc.State} {req : Option ℕ}
    {g : Seg} (h : KallocRuns.Inv s) (hn : n < 2 ^ 62) (hg : ∀ r, req = some r → Grant s.regs r g)
    (hk : Kalloc.kalloc (fun _ => .ok g.lo) fuel s.st cpu n = .ok (st, ptr, req)) :
    Given s ⟨st, ptr :: s.live, addReg s.regs g req⟩ n ptr g req := by
  have hinv := KallocRuns.step_inv h (.kalloc hn hg hk)
  obtain ⟨fr, own, hH⟩ := h.held
  obtain ⟨b, l', hgv, hb⟩ := hH.heap.kalloc (by omega) hg hk
  refine ⟨hinv, fun r hr => ?_, fun x hx => gave_outside hH.heap hgv (fun r hr => ?_) hx⟩
  · have := hgv.heap.bounds (Or.inl List.mem_cons_self)
    rw [hgv.ptr, KallocRuns.hdr_add (by omega), hb r hr]
  · cases req with
    | none => exact hr
    | some _ => exact List.mem_cons_of_mem _ hr

lemma kfree_out {s : KallocRuns.Sys} {fuel cpu ptr : ℕ} {st : Kalloc.State} (h : KallocRuns.Inv s)
    (hp : ptr ∈ s.live) (hk : Kalloc.kfree fuel s.st cpu ptr = .ok st) {x : ℕ}
    (hx : Outside s.regs x) : st.mem x = s.st.mem x := by
  obtain ⟨fr, own, hH⟩ := h.held
  obtain ⟨hh, -⟩ := KallocRuns.take_live hH.heap hH.live hp
  rw [(KallocRuns.mem_live hH.heap hH.live hp).1] at hk
  obtain ⟨l', hput⟩ := hh.kfree hk
  exact put_outside hh hput hx

section Steps

variable {s : Sys}

/-- The bytes of a block in use belong to a page of the heap. -/
lemma Inv.covered (h : Inv s) {p : ℕ} (hp : p ∈ s.live) {a : ℕ} (ha : a ∈ bytes s.st.mem (hdr p)) :
    ∃ x ∈ s.taken, x.addr ≤ a ∧ a < x.addr + blockSize x.req := by
  obtain ⟨fr, own, hH⟩ := h.heap.held
  have hb := (KallocRuns.mem_live hH.heap hH.live hp).2
  simp only [bytes, Set.mem_Ico, hdrSize] at ha
  obtain ⟨r, hr, h1, h2⟩ := hH.heap.cov _ (Or.inl hb) a ha.1
    (by simp only [Seg.hi, blk, Sys.heapSys, State.heap]; omega)
  obtain ⟨x, hx, rfl⟩ := List.mem_map.mp hr
  exact ⟨x, hx, h1, h2⟩

lemma pages_perm {s : PageRuns.Sys} {fr : List (List ℕ)} {L : List Live} (h : PageRuns.Inv s fr)
    (hp : s.live.Perm L) : PageRuns.Inv ⟨s.st, L⟩ fr := by
  obtain ⟨h1, h2, h3, h4⟩ := h
  exact ⟨h1, h2, fun x hx => h3 x (hp.mem_iff.mpr hx),
    h4.perm ((hp.map Live.seg).append_left _)⟩

/-- `page_alloc` for another caller, or for the heap before it divides the page. -/
lemma Inv.page (h : Inv s) {fuel sz p : ℕ} {pg : PageAlloc.State} (h1 : sz ≤ 2 ^ 63)
    (hr : pageAlloc fuel s.st.pages sz = .ok (pg, p)) :
    Inv ⟨⟨pg.mem, pg.pools, s.st.start⟩, s.live, s.taken, ⟨p, sz⟩ :: s.pages⟩ ∧
      ∀ x ∈ s.taken ++ s.pages, ∀ a, x.addr ≤ a → a < x.addr + blockSize x.req →
        pg.mem a = s.st.mem a := by
  obtain ⟨fr, hp⟩ := h.pages
  obtain ⟨⟨fr', hi⟩, hext, hkeep⟩ := alloc_keeps hp h1 hr
  refine ⟨⟨h.heap_other fun x hx => hkeep x (List.mem_append_left _ hx),
    ⟨fr', pages_perm hi List.perm_middle.symm⟩, ?_⟩, hkeep⟩
  rw [hext]
  exact h.al

lemma Inv.grant (h : Inv s) {x : Live} (hx : x ∈ s.pages) :
    Grant (s.taken.map Live.seg) x.req x.seg := by
  obtain ⟨h1, h2, -, h4⟩ := h.block (List.mem_append_right _ hx)
  refine ⟨h1, le_refl _, fun r hr => ?_, h2, h4⟩
  have hp := h.apart
  rw [List.map_append] at hp
  exact ((List.pairwise_append.mp hp).2.2 r hr _ (List.mem_map_of_mem hx)).symm

/-- A page that stays as it is where the heap's pages do leaves the search as it was. -/
lemma Inv.search (h : Inv s) {m' : Mem}
    (hm : ∀ x ∈ s.taken, ∀ a, x.addr ≤ a → a < x.addr + blockSize x.req → m' a = s.st.mem a)
    (sz fuel cpu : ℕ) :
    findBlock m' sz fuel 0 (s.st.start cpu) = findBlock s.st.mem sz fuel 0 (s.st.start cpu) := by
  obtain ⟨fr, own, hH⟩ := h.heap.held
  refine findBlock_congr (hH.heap.chain cpu) fun c hc a h1 h2 => ?_
  obtain ⟨r, hr, h3, h4⟩ := hH.heap.cov c (Or.inr ⟨cpu, hc⟩) a h1 (by simp only [Seg.hi, blk]; omega)
  obtain ⟨x, hx, rfl⟩ := List.mem_map.mp hr
  exact hm x hx a h3 h4

/-- What a step leaves as it was, besides the invariant. -/
structure Kept (s : Sys) (op : Op) (s' : Sys) : Prop where
  inv : Inv s'
  blocks : ∀ p ∈ s.live, (∀ cpu, op ≠ .kfree cpu p) → ∀ a ∈ bytes s.st.mem (hdr p),
    s'.st.mem a = s.st.mem a
  pages : ∀ x ∈ s.pages, op ≠ .free x.addr x.req → ∀ a, x.addr ≤ a → a < x.addr + blockSize x.req →
    s'.st.mem a = s.st.mem a

/-- A block of the heap's lists is cut. -/
lemma kept_cut (h : Inv s) {fuel cpu n ptr : ℕ} {st : State} (hn : n < 2 ^ 62)
    (hp : st.pools = s.st.pools)
    (hk : Kalloc.kalloc (fun _ => .ok 0) fuel s.st.heap cpu n = .ok (st.heap, ptr, none)) :
    Kept s (.kalloc cpu n ptr) ⟨st, ptr :: s.live, s.taken, s.pages⟩ := by
  have hg : ∀ r, (none : Option ℕ) = some r → Grant s.heapSys.regs r ⟨0, 0⟩ :=
    fun r hr => by cases hr
  have hstep : KallocRuns.Step s.heapSys (.kalloc cpu n ptr) _ := .kalloc hn hg hk
  have hgv := kalloc_given h.heap hn hg hk
  refine ⟨⟨hgv.inv, ?_, by simp only [hp]; exact h.al⟩, fun p hpl _ => ?_, fun x hx _ a h1 h2 => ?_⟩
  · obtain ⟨fr, hi⟩ := h.pages_touch hgv.out
    rw [← hp] at hi
    exact ⟨fr, hi⟩
  · exact h.heap.safe.keeps _ _ p hstep hpl (Or.inl ⟨n, ptr, cpu, Or.inl rfl⟩)
  · exact hgv.out a (h.outside hx h1 h2)

/-- A page that another caller could hold is divided instead, and so becomes the heap's. -/
lemma kept_divide {x : Live} {P : List Live} (h : Inv s) (hx : s.pages = x :: P)
    {fuel cpu n ptr : ℕ} {st : State} (hn : n < 2 ^ 62) (hp : st.pools = s.st.pools)
    (hk : Kalloc.kalloc (fun _ => .ok x.addr) fuel s.st.heap cpu n =
      .ok (st.heap, ptr, some x.req)) :
    Inv ⟨st, ptr :: s.live, ⟨hdr ptr, x.req⟩ :: s.taken, P⟩ ∧
      (∀ p ∈ s.live, ∀ a ∈ bytes s.st.mem (hdr p), st.mem a = s.st.mem a) ∧
      ∀ y ∈ P, ∀ a, y.addr ≤ a → a < y.addr + blockSize y.req → st.mem a = s.st.mem a := by
  have hmem : x ∈ s.pages := by simp [hx]
  have hg : ∀ r, some x.req = some r → Grant s.heapSys.regs r x.seg :=
    fun r hr => Option.some.inj hr ▸ h.grant hmem
  have hstep : KallocRuns.Step s.heapSys (.kalloc cpu n ptr) _ := .kalloc hn hg hk
  have hgv := kalloc_given h.heap hn hg hk
  have hptr : (⟨hdr ptr, x.req⟩ : Live) = x := by rw [hgv.ptr _ rfl]; rfl
  rw [hptr]
  refine ⟨⟨hgv.inv, ?_, by simp only [hp]; exact h.al⟩, fun p hpl => ?_, fun y hy a h1 h2 => ?_⟩
  · obtain ⟨fr, hi⟩ := h.pages
    have ht : PageRuns.Inv ⟨⟨st.mem, s.st.pools⟩, s.taken ++ s.pages⟩ fr := by
      refine touch_inv (s := s.pageSys) hi fun a ha => hgv.out a fun r hr => ?_
      rcases List.mem_cons.mp hr with rfl | hr
      · exact ha x (List.mem_append_right _ hmem)
      · obtain ⟨y, hy, rfl⟩ := List.mem_map.mp hr
        exact ha y (List.mem_append_left _ hy)
    have hperm : (s.taken ++ s.pages).Perm (x :: s.taken ++ P) := by
      rw [hx]
      exact List.perm_middle
    have hdone := pages_perm ht hperm
    rw [← hp] at hdone
    exact ⟨fr, hdone⟩
  · exact h.heap.safe.keeps _ _ p hstep hpl (Or.inl ⟨n, ptr, cpu, Or.inl rfl⟩)
  · have hyp : y ∈ s.pages := by simp [hx, hy]
    refine hgv.out a fun r hr => ?_
    rcases List.mem_cons.mp hr with rfl | hr
    · have hap := h.apart
      rw [hx, List.map_append, List.map_cons] at hap
      have hpr := (List.pairwise_append.mp hap).2.1
      have := Packed.apart hpr (List.mem_map_of_mem hy)
      simp only [Apart, Live.seg, Seg.hi] at this ⊢
      omega
    · exact h.outside hyp h1 h2 r hr

lemma kept_kalloc (h : Inv s) {fuel cpu n ptr : ℕ} {st : State} {req : Option ℕ} (hn : n < 2 ^ 62)
    (hk : kalloc fuel s.st cpu n = .ok (st, ptr, req)) :
    Kept s (.kalloc cpu n ptr) ⟨st, ptr :: s.live, takePage s.taken ptr req, s.pages⟩ := by
  cases kalloc_allocates hk with
  | cut hp hc => exact kept_cut h hn hp (hc _)
  | @page pg res r hr hpg hp hptr hd =>
    have hle := (alignUp_spec (n := n) (by omega)).2.2.2
    obtain ⟨hi, hkeep⟩ := h.page (by unfold hdrSize at hr; omega) hpg
    have hsearch := h.search (fun x hx => hkeep x (List.mem_append_left _ hx)) (alignUp n) fuel cpu
    obtain ⟨h1, h2, h3⟩ := kept_divide hi rfl hn hp (hd hsearch)
    have hblk : ∀ p ∈ s.live, ∀ a ∈ bytes s.st.mem (hdr p), pg.mem a = s.st.mem a := by
      intro p hpl a ha
      obtain ⟨x, hx, h4, h5⟩ := h.covered hpl ha
      exact hkeep x (List.mem_append_left _ hx) a h4 h5
    have hsize : ∀ p ∈ s.live, size pg.mem (hdr p) = size s.st.mem (hdr p) := fun p hpl =>
      rd_congr fun a h4 h5 => hblk p hpl a (by simp only [bytes, Set.mem_Ico, hdrSize]; omega)
    refine ⟨h1, fun p hpl _ a ha => ?_, fun x hx _ a h4 h5 => ?_⟩
    · rw [← hblk p hpl a ha]
      refine h2 p hpl a ?_
      simp only [bytes, hsize p hpl]
      exact ha
    · rw [← hkeep x (List.mem_append_right _ hx) a h4 h5]
      exact h3 x hx a h4 h5

lemma kept_kfree (h : Inv s) {fuel cpu ptr : ℕ} {st : State} (hl : ptr ∈ s.live)
    (hk : kfree fuel s.st cpu ptr = .ok st) :
    Kept s (.kfree cpu ptr) ⟨st, s.live.erase ptr, s.taken, s.pages⟩ := by
  obtain ⟨k, hk', hst⟩ := exists_of_bind hk
  cases hst
  have hstep : KallocRuns.Step s.heapSys (.kfree cpu ptr) _ := .kfree (s := s.heapSys) hl hk'
  have hout := fun x => kfree_out (x := x) h.heap hl hk'
  refine ⟨⟨KallocRuns.step_inv h.heap hstep, h.pages_touch hout, h.al⟩, fun p hpl hne => ?_,
    fun x hx _ a h1 h2 => hout a (h.outside hx h1 h2)⟩
  exact h.heap.safe.keeps _ _ p hstep hpl
    (Or.inr ⟨cpu, ptr, rfl, fun e => hne cpu (by rw [e])⟩)

lemma kept_alloc (h : Inv s) {fuel sz p : ℕ} {pg : PageAlloc.State} (h1 : sz ≤ 2 ^ 63)
    (hr : pageAlloc fuel s.st.pages sz = .ok (pg, p)) :
    Kept s (.alloc sz) ⟨⟨pg.mem, pg.pools, s.st.start⟩, s.live, s.taken, ⟨p, sz⟩ :: s.pages⟩ := by
  obtain ⟨hi, hkeep⟩ := h.page h1 hr
  refine ⟨hi, fun p hpl _ a ha => ?_, fun x hx _ => hkeep x (List.mem_append_right _ hx)⟩
  obtain ⟨x, hx, h2, h3⟩ := h.covered hpl ha
  exact hkeep x (List.mem_append_left _ hx) a h2 h3

/-- The page given back is no page of the heap. -/
lemma kept_free (h : Inv s) {fuel page sz : ℕ} {pg : PageAlloc.State} (hl : ⟨page, sz⟩ ∈ s.pages)
    (hok : FreeOk s.pageSys (.free page sz)) (hr : pageFree fuel s.st.pages page sz = .ok pg) :
    Kept s (.free page sz)
      ⟨⟨pg.mem, pg.pools, s.st.start⟩, s.live, s.taken, s.pages.erase ⟨page, sz⟩⟩ := by
  obtain ⟨fr, hp⟩ := h.pages
  have hmem : ⟨page, sz⟩ ∈ s.taken ++ s.pages := List.mem_append_right _ hl
  have hap := h.apart
  have hnot : ⟨page, sz⟩ ∉ s.taken := by
    intro ht
    rw [List.map_append] at hap
    have := (List.pairwise_append.mp hap).2.2 _ (List.mem_map_of_mem ht) _ (List.mem_map_of_mem hl)
    have := (h.block hmem).2.2.1
    simp only [Apart, Live.seg, Seg.hi] at *
    omega
  obtain ⟨⟨fr', hi⟩, hext, hkeep⟩ := free_keeps (s := s.pageSys) hp hmem hok hr
  have htaken : ∀ x ∈ s.taken, ∀ a, x.addr ≤ a → a < x.addr + blockSize x.req →
      pg.mem a = s.st.mem a := fun x hx =>
    hkeep x (List.mem_append_left _ hx) fun e => hnot (e ▸ hx)
  refine ⟨⟨h.heap_other htaken, ⟨fr', ?_⟩, by rw [hext]; exact h.al⟩, fun p hpl _ a ha => ?_,
    fun x hx hne => hkeep x (List.mem_append_right _ hx) fun e => hne (by rw [e])⟩
  · rw [Sys.pageSys, List.erase_append_right _ hnot] at hi
    exact hi
  · obtain ⟨x, hx, h2, h3⟩ := h.covered hpl ha
    exact htaken x hx a h2 h3

lemma inv_data (h : Inv s) {p a : ℕ} {v : UInt8} (hp : p ∈ s.live) (h1 : p ≤ a)
    (h2 : a < p + size s.st.mem (hdr p)) :
    Inv { s with st.mem := fun x => if x = a then v else s.st.mem x } := by
  have hmem : a ∈ bytes s.st.mem (hdr p) := by
    obtain ⟨fr, own, hH⟩ := h.heap.held
    have := (KallocRuns.mem_live hH.heap hH.live hp).1
    simp only [bytes, Set.mem_Ico, hdrSize]
    omega
  obtain ⟨x, hx, h3, h4⟩ := h.covered hp hmem
  refine ⟨KallocRuns.step_inv h.heap (.write (s := s.heapSys) hp h1 h2),
    h.pages_touch fun b hb => if_neg ?_, h.al⟩
  rintro rfl
  have := hb _ (List.mem_map_of_mem hx)
  simp only [Live.seg, Seg.hi] at this
  omega

lemma inv_page (h : Inv s) {x : Live} {a : ℕ} {v : UInt8} (hx : x ∈ s.pages) (h1 : x.addr ≤ a)
    (h2 : a < x.addr + blockSize x.req) :
    Inv { s with st.mem := fun b => if b = a then v else s.st.mem b } := by
  obtain ⟨fr, hp⟩ := h.pages
  have hmem : x ∈ s.taken ++ s.pages := List.mem_append_right _ hx
  refine ⟨h.heap_other fun y hy b h3 h4 => if_neg ?_,
    ⟨fr, (PageRuns.write_inv (s := s.pageSys) hp hmem h1 h2).1⟩, h.al⟩
  rintro rfl
  have := h.outside hx h1 h2 _ (List.mem_map_of_mem hy)
  simp only [Live.seg, Seg.hi] at this
  omega

lemma step_kept {s' : Sys} {op : Op} (h : Inv s) (hok : CanFree s op) (hs : Step s op s') :
    (∃ a, op = .write a) ∧ Inv s' ∨ Kept s op s' := by
  cases hs with
  | kalloc hn hk => exact Or.inr (kept_kalloc h hn hk)
  | kfree hl hk => exact Or.inr (kept_kfree h hl hk)
  | alloc h0 h1 hr => exact Or.inr (kept_alloc h h1 hr)
  | free hl hr => exact Or.inr (kept_free h hl hok hr)
  | data hp h1 h2 => exact Or.inl ⟨⟨_, rfl⟩, inv_data h hp h1 h2⟩
  | page hx h1 h2 => exact Or.inl ⟨⟨_, rfl⟩, inv_page h hx h1 h2⟩

lemma runs_inv {s' : Sys} (h : Inv s) (hr : Runs s s') : Inv s' := by
  induction hr with
  | refl => exact h
  | tail _ hs ih =>
    obtain ⟨op, hok, hs⟩ := hs
    rcases step_kept ih hok hs with ⟨-, hi⟩ | hk
    · exact hi
    · exact hk.inv

end Steps

/-! ### Set-up -/

section Setup

variable {phys sz endPos : ℕ} {memmap : List MemmapEntry} {m : Mem} {st : PageAlloc.State}

lemma chunks_al (fuel : ℕ) (h : phys % 16 = 0) (h1 : pageSize ≤ sz) (h2 : sz < 2 ^ 64) :
    ∀ g ∈ PoolSetup.chunks fuel phys sz, g.lo % 16 = 0 := by
  induction fuel generalizing phys sz with
  | zero => simp [PoolSetup.chunks]
  | succ fuel ih =>
    obtain ⟨k, hk, e, hle⟩ := PageRuns.prevPow2_facts h1 h2
    obtain ⟨c, hc⟩ : 16 ∣ 2 ^ k := Nat.pow_dvd_pow 2 (m := 4) (by omega)
    intro g hg
    rw [PoolSetup.chunks] at hg
    rcases List.mem_cons.mp hg with rfl | hg
    · exact h
    · split at hg
      · exact ih (by omega) (by omega) (by omega) g hg
      · cases hg

/-- A pool starts as far behind a page boundary as the memory behind it. -/
lemma foldl_al {gs : List Seg} {s : Setup} (hg : ∀ g ∈ gs, g.lo % 16 = 0)
    (he : s.endPos % 16 = 0) (hs : ∀ p ∈ s.pools, p.base % 16 = 0) :
    ∀ p ∈ (gs.foldl (fun s g => addPool s g.lo g.len) s).pools, p.base % 16 = 0 := by
  induction gs generalizing s with
  | nil => exact hs
  | cons g gs ih =>
    have h0 := hg g (by simp)
    refine ih (fun g hg' => hg g (by simp [hg'])) ?_ fun p hp => ?_
    · simp only [addPool, anonPos, roundUpPage, floorPage]
      omega
    · rcases List.mem_append.mp hp with hp | hp
      · exact hs p hp
      · obtain rfl := List.mem_singleton.mp hp
        simp only [anonPos, floorPage]
        omega

lemma init_al (hm : MapOk endPos memmap) (hal : ∀ e ∈ memmap, e.base % allocAlign = 0)
    (h0 : pageAllocInit m endPos memmap = .ok st) : ∀ e ∈ st.pools.map extent, e.1 % 16 = 0 := by
  have hpos := hm.al
  unfold pageSize at hpos
  unfold pageAllocInit at h0
  split at h0
  · cases h0
  · cases h0
    intro e he
    obtain ⟨p, hp, rfl⟩ := List.mem_map.mp he
    rw [PoolSetup.fillPools_eq] at hp
    refine foldl_al (fun g hg => ?_) (show endPos % 16 = 0 by omega) (by simp) p hp
    obtain ⟨f, hf, hg⟩ := List.mem_flatMap.mp hg
    split at hg
    · cases hg
    · have hlen : f.len ≤ (memmap.map (·.len)).sum :=
        List.le_sum_of_mem (List.mem_map_of_mem hf)
      have hfit := hm.fit
      exact chunks_al 65 (hal f hf) (by omega) (by unfold pageSize at hfit; omega) g hg

/-- Before the first call: the pools of `page_alloc_init`, and no lists. -/
def boot (st : PageAlloc.State) : Sys := ⟨⟨st.mem, st.pools, fun _ => 0⟩, [], [], []⟩

lemma boot_inv (hm : MapOk endPos memmap) (hal : ∀ e ∈ memmap, e.base % allocAlign = 0)
    (h0 : pageAllocInit m endPos memmap = .ok st) : Inv (boot st) :=
  ⟨KallocRuns.Inv.init st.mem, PageRuns.init_inv hm h0, init_al hm hal h0⟩

end Setup

/-! ### Whole runs -/

/-- The heap is safe, the pages of its and of other callers are; and no byte of a block of the heap
is one of another caller's page or of a free page. -/
structure Sound (s : Sys) : Prop where
  heap : Safe s.heapSys
  pages : NoOverlap s.pageSys
  other : ∀ b, IsBlock s.heapSys b → ∀ x ∈ s.pages,
    Disjoint (bytes s.st.mem b) (Set.Ico x.seg.lo x.seg.hi)
  free : ∀ b, IsBlock s.heapSys b → ∀ p ∈ s.st.pools, ∀ c, PageRuns.OnList s.st.mem p c →
    Disjoint (bytes s.st.mem b) (Set.Ico c (c + size s.st.mem c))

/-- A byte of a block of the heap is one of a page of the heap. -/
lemma Inv.in_page {s : Sys} (h : Inv s) {b a : ℕ} (hb : IsBlock s.heapSys b)
    (ha : a ∈ bytes s.st.mem b) : ∃ x ∈ s.taken, a ∈ Set.Ico x.seg.lo x.seg.hi := by
  obtain ⟨fr, own, hH⟩ := h.heap.held
  have hh := (KallocRuns.isBlock_iff hH.heap hH.live b).mp hb
  simp only [bytes, Set.mem_Ico, hdrSize] at ha
  obtain ⟨r, hr, h1, h2⟩ := hH.heap.cov b hh a ha.1
    (by simp only [Seg.hi, blk, Sys.heapSys, State.heap]; omega)
  obtain ⟨x, hx, rfl⟩ := List.mem_map.mp hr
  exact ⟨x, hx, h1, h2⟩

lemma Inv.sound {s : Sys} (h : Inv s) : Sound s := by
  obtain ⟨fr, hp⟩ := h.pages
  have hno := hp.noOverlap
  refine ⟨h.heap.safe, hno, fun b hb x hx => ?_, fun b hb p hpp c hc => ?_⟩
  · refine Set.disjoint_left.mpr fun a ha hax => ?_
    obtain ⟨y, hy, hay⟩ := h.in_page hb ha
    have := (List.pairwise_append.mp hno.1).2.2 y hy x hx
    exact Set.disjoint_left.mp this hay hax
  · refine Set.disjoint_left.mpr fun a ha hac => ?_
    obtain ⟨y, hy, hay⟩ := h.in_page hb ha
    exact Set.disjoint_left.mp (hno.2 y (List.mem_append_left _ hy) p hpp c hc) hay hac

/-- Two calls: the heap takes a page of the first pool for a block, another caller the page behind it. -/
lemma twoPools_heap : ∃ st s, pageAllocInit (fun _ => 0) 0xffffffff80200000
    [⟨0x100000, 0x7000⟩] = .ok st ∧ Runs (boot st) s ∧ s.live = [0xffffffff80200010] ∧
    s.taken = [⟨0xffffffff80200000, 64⟩] ∧ s.pages = [⟨0xffffffff80201000, 0x1000⟩] := by
  have hrun : (PageRuns.twoPools.bind fun st => (kalloc 9 (boot st).st 0 24).bind fun r =>
      (pageAlloc 9 r.1.pages 0x1000).map fun r' => (r.2, r'.2)) =
      .ok ((0xffffffff80200010, some 64), 0xffffffff80201000) := by
    decide +kernel
  obtain ⟨st, h0, hrun⟩ := exists_of_bind hrun
  obtain ⟨⟨s1, ptr, req⟩, h1, hrun⟩ := exists_of_bind hrun
  obtain ⟨⟨pg, p⟩, h2, hs⟩ := exists_of_map hrun
  simp only [Prod.mk.injEq] at hs
  obtain ⟨⟨rfl, rfl⟩, rfl⟩ := hs
  have hk : Step (boot st) (.kalloc 0 24 0xffffffff80200010) _ := .kalloc (by decide) h1
  have ha : Step ⟨s1, [0xffffffff80200010], takePage [] 0xffffffff80200010 (some 64), []⟩
    (.alloc 0x1000) _ := .alloc (by decide) (by decide) h2
  have hr : Runs (boot st) _ :=
    (Relation.ReflTransGen.single ⟨.kalloc 0 24 0xffffffff80200010, trivial, hk⟩).tail
      ⟨.alloc 0x1000, trivial, ha⟩
  have ht : takePage [] 0xffffffff80200010 (some 64) = [⟨0xffffffff80200000, 64⟩] := by decide
  exact ⟨st, _, h0, hr, rfl, ht, rfl⟩

end Silkware.HeapPages
