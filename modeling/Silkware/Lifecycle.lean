import Mathlib.Data.Multiset.AddSub
import Silkware.PageAlloc
import Silkware.ProcPages
import Silkware.ProcTable

/-!
What a process takes, and what its exit gives back.

What counts is which blocks are out, so `page_alloc` and `kalloc` are not followed into their
lists of free memory. `page_alloc` hands out the pages and blocks that `Paging.St` holds ready;
what is gone from there was handed out.
-/

namespace Silkware.Lifecycle

open Silkware.Kern Silkware.HashMap Silkware.Paging Silkware.Outcome Silkware.MapLoop
open Silkware.Sched Silkware.ProcTable Silkware.ProcPages Silkware.AnonRuns
open Silkware.PageAlloc (blockSize)

/-! ### The model -/

/-- The blocks of `page_alloc` that are out, with their sizes, and how many of `kalloc` are. -/
structure Live where
  pages : Multiset (ℕ × ℕ)
  heap : ℤ

/-- `page_free`, which must be given a block that is out. -/
def pageFree (page sz : ℕ) (l : Live) : Except Stop Live :=
  if (page, blockSize sz) ∈ l.pages then
    return { l with pages := l.pages.erase (page, blockSize sz) }
  else throw .fault

/-- So many calls of `kfree`. -/
def kfree (n : ℕ) (l : Live) : Live := { l with heap := l.heap - n }

/-- `Flex(struct segment)` -/
structure Segs where
  n : ℕ
  item : List Segment

/-- `FlexAlloc`, which clears the object and leaves `n` to be set. -/
def flexAlloc : Segs := ⟨0, []⟩

/-- `struct proc`, as far as it leads to memory. -/
structure Proc where
  pid : ℕ
  segs : Segs
  space : ℕ

structure Sys where
  st : St
  sched : State
  procmap : Map
  pidCur : ℕ
  live : Live

/-- What a run depends on beside the arguments of `proc_new`: where `kalloc` puts the record of
the space and the node, the blocks it takes of `page_alloc` itself, what was in `cpu_min`, the
bytes of the record, the CPUs whose timers tick meanwhile and the one that the process is
running on at its end. -/
structure Env where
  sp : ℕ
  node : ℕ
  pool : List (ℕ × ℕ)
  ncpus : ℕ
  junk : ℕ
  priority : Prio
  arch : Bytes
  rest : Bytes
  ticks : List ℕ
  cpu : ℕ
  fuel : ℕ

variable (K : Image) (e : Env)

/-- The pages for tables that were handed out between two states. -/
def tables (s s' : St) : List Block := s.supply.take (s.supply.length - s'.supply.length)

/-- All that was handed out. -/
def handedOut (s s' : St) : List (ℕ × ℕ) :=
  (tables s s').map (fun b => (b.virt, blockSize pageSize)) ++
    (s.large.take (s.large.length - s'.large.length)).map fun v => (v, blockSize (64 * pageSize))

/-- `proc_new`. There are the record of the space, its map and the array of segments, a key and a
value for each table but the top one, and those that `procmap` gets; a map that grows frees as
many objects as it makes. -/
def procNew (start len : ℕ) (x : Sys) : Except Stop (Proc × Sys) := do
  let pid := (x.pidCur + 1) % 2 ^ 64
  let (item, st) ← procPagesInit K e.sp start len x.st
  let procmap ← mapInsert x.procmap (leBytes pid) (record e.arch pid e.rest)
  let live := ⟨x.live.pages + e.pool + handedOut x.st st,
    x.live.heap + 3 + 2 * ((tables x.st st).length - 1 : ℕ) + 2⟩
  return (⟨pid, { flexAlloc with item }, e.sp⟩, { x with st, procmap, pidCur := pid, live })

def schedule (pid : ℕ) (x : Sys) : Except Stop Sys := do
  let sched ← Sched.schedule x.sched e.ncpus e.junk e.node pid e.priority
  return { x with sched, live := { x.live with heap := x.live.heap + 1 } }

def tick (x : Sys) (c : ℕ) : Except Stop Sys := do
  let r ← procNext (known x.procmap) x.sched c
  return { x with sched := r.1 }

/-- The calls of `kfree` that `map_free` makes. -/
def mapFreed (m : Map) : ℕ :=
  2 * ((List.range (m.max + 1)).filter fun i => (m.cell i).k.isSome).length + 1

/-- `for (i = 0; i < segs->n; ++i) page_free(segs->item[i].kvirt, segs->item[i].len)` -/
def freeSegs (segs : Segs) (l : Live) : Except Stop Live :=
  (segs.item.take segs.n).foldlM (fun l seg => pageFree seg.kvirt seg.len l) l

/-- `syscall_exit` by the process `p`. -/
def syscallExit (p : Proc) (x : Sys) : Except Stop Sys := do
  let (sched, node) ← unschedule e.fuel x.sched e.cpu p.pid
  let l := kfree (if node ≠ 0 then 1 else 0) x.live
  let l ← freeSegs p.segs l
  let l ← pageFree (x.st.addr p.space) pageSize l
  match x.st.physmap p.space with
  | none => throw .fault
  | some m =>
    let l := kfree 1 (kfree (mapFreed m) l)
    let (_, found) ← find x.procmap (leBytes p.pid)
    let procmap ← mapDel x.procmap (leBytes p.pid)
    let l := kfree (if found then 2 else 0) l
    return { x with sched, procmap, live := l, st := { x.st with cur := none } }

/-- A process from its first call to its last. -/
def lifecycle (start len : ℕ) (x : Sys) : Except Stop Sys := do
  let (p, x) ← procNew K e start len x
  let x ← schedule e p.pid x
  let x ← e.ticks.foldlM tick x
  syscallExit e p x

/-- All that was taken is given back. -/
def Restored (x x' : Sys) : Prop := x'.live = x.live

/-! ### Cells in use -/

/-- At most `n` cells of the map are in use. -/
def Few (m : Map) (n : ℕ) : Prop :=
  ∃ F : Finset ℕ, (∀ i, (m.cell i).k.isSome → i ∈ F) ∧ F.card ≤ n

variable {K : Image} {e : Env} {s s' : St} {m : Map} {n sp : ℕ}

lemma Few.new (n : ℕ) : Few (mapNew n) 0 := ⟨∅, fun i hi => by simp [mapNew] at hi, le_refl _⟩

lemma Few.set (h : Few m n) (i : ℕ) (c : Cell) : Few (setCell m i c) (n + 1) := by
  obtain ⟨F, hF, hn⟩ := h
  refine ⟨insert i F, fun j hj => ?_, (Finset.card_insert_le i F).trans (by omega)⟩
  by_cases hji : j = i
  · rw [hji]
    exact Finset.mem_insert_self i F
  · rw [setCell] at hj
    simp only [if_neg hji] at hj
    exact Finset.mem_insert_of_mem (hF j hj)

/-- Copying cells fills one for each that is in use. -/
lemma Few.copied {new : Map} (l : List ℕ) (h : Few new n) : Gives (l.foldlM (growCell m) new)
    fun new' => Few new' (n + (l.filter fun i => (m.cell i).k.isSome).length) := by
  induction l generalizing new n with
  | nil => exact Gives.pure (by simpa using h)
  | cons i l ih =>
    rw [List.foldlM_cons]
    by_cases hi : (m.cell i).k.isSome
    · rw [growCell, if_pos hi]
      refine Gives.bind (P := fun new' => Few new' (n + 1)) ?_ fun new' h' => ?_
      · exact Gives.then fun idx => Gives.pure (h.set idx _)
      · refine (ih h').mono fun new'' h'' => ?_
        rw [List.filter_cons_of_pos (by simpa using hi), List.length_cons]
        rwa [Nat.add_assoc, Nat.add_comm 1] at h''
    · rw [growCell, if_neg hi, pure_bind, List.filter_cons_of_neg (by simpa using hi)]
      exact ih h

lemma Few.length_filter (h : Few m n) {l : List ℕ} (hl : l.Nodup) :
    (l.filter fun i => (m.cell i).k.isSome).length ≤ n := by
  obtain ⟨F, hF, hn⟩ := h
  rw [← List.toFinset_card_of_nodup (hl.filter _)]
  refine (Finset.card_le_card fun i hi => ?_).trans hn
  rw [List.mem_toFinset, List.mem_filter] at hi
  exact hF i hi.2

lemma Few.mono {n' : ℕ} (h : Few m n) (hn : n ≤ n') : Few m n' := by
  obtain ⟨F, hF, hc⟩ := h
  exact ⟨F, hF, hc.trans hn⟩

lemma Few.put {i h : ℕ} {k v : Flex} (hm : Few m n) : Few (putCell m i h k v) (n + 1) :=
  hm.set i ⟨h, some k, some v⟩

lemma Few.insert {k v : Bytes} (h : Few m n) : Gives (mapInsert m k v) fun m' => Few m' (n + 1) := by
  unfold mapInsert
  refine Gives.then fun ⟨i, empty⟩ => ?_
  simp only
  split
  · exact Gives.pure h.put
  · have hgrow : Gives (mapGrow m (m.cap * 3 / 2)) fun m' => Few m' n := by
      unfold mapGrow
      split
      · exact Gives.pure h
      · refine (Few.copied _ (Few.new _)).mono fun m' h' => h'.mono ?_
        rw [Nat.zero_add]
        exact h.length_filter List.nodup_range
    refine hgrow.bind fun m' h' => Gives.then fun ⟨i, _⟩ => ?_
    simp only
    split
    · exact Gives.error
    · exact Gives.pure h'.put

/-! ### What `proc_pages_init` takes -/

/-- Nothing is taken. -/
structure Still (s s' : St) : Prop where
  supply : s'.supply = s.supply
  large : s'.large = s.large
  addr : s'.addr = s.addr
  physmap : s'.physmap = s.physmap

lemma Still.trans {s₁ s₂ s₃ : St} (h1 : Still s₁ s₂) (h2 : Still s₂ s₃) : Still s₁ s₃ :=
  ⟨h2.supply.trans h1.supply, h2.large.trans h1.large, h2.addr.trans h1.addr,
    h2.physmap.trans h1.physmap⟩

lemma premapPages_still (dst src length flags : ℕ) (s : St) :
    Gives (premapPages K dst src length flags s) (Still s) := by
  refine mapRange_rel (R := Still) (fun s => ⟨rfl, rfl, rfl, rfl⟩) Still.trans
    (fun s a x => ⟨rfl, rfl, rfl, rfl⟩) (fun s => ?_) _ _ _ _ _ s
  refine Gives.bind (P := fun r => Still s r.2) ?_ fun r h => Gives.pure h
  unfold miniheapAlloc
  simp only
  split
  · exact Gives.error
  · exact Gives.pure ⟨rfl, rfl, rfl, rfl⟩

lemma windowTo_still (tab : ℕ) (i : Fin 512) (s : St) : Gives (windowTo K tab i s) (Still s) := by
  refine Gives.then fun x => ?_
  split
  · exact premapPages_still _ _ _ _ s
  · exact Gives.error

lemma kvirt2phys_still (cur : Option ℕ) (v : ℕ) (s : St) :
    Gives (kvirt2phys K cur v s) fun r => Still s r.2 := by
  unfold kvirt2phys
  simp only
  split
  · exact Gives.error
  · refine (windowTo_still _ _ s).bind fun s₁ h1 => ?_
    refine (windowTo_still _ _ s₁).bind fun s₂ h2 => ?_
    refine (windowTo_still _ _ s₂).bind fun s₃ h3 => ?_
    exact Gives.then fun x => Gives.pure ((h1.trans h2).trans h3)

/-- Pages were taken for tables, and no more cells of the space's map than these. -/
structure Took (sp : ℕ) (tabs : List Block) (s s' : St) : Prop where
  supply : s.supply = tabs ++ s'.supply
  large : s'.large = s.large
  addr : s'.addr = s.addr
  map : ∀ m n, s.physmap sp = some m → Few m n →
    ∃ m', s'.physmap sp = some m' ∧ Few m' (n + tabs.length)

lemma Took.of_still (h : Still s s') : Took sp [] s s' :=
  ⟨h.supply.symm, h.large, h.addr, fun m n hm hf => ⟨m, by rw [h.physmap, hm], hf⟩⟩

lemma Took.trans {s₁ s₂ s₃ : St} {t₁ t₂ : List Block} (h1 : Took sp t₁ s₁ s₂) (h2 : Took sp t₂ s₂ s₃) :
    Took sp (t₁ ++ t₂) s₁ s₃ := by
  refine ⟨by rw [h1.supply, h2.supply, List.append_assoc], h2.large.trans h1.large,
    h2.addr.trans h1.addr, fun m n hm hf => ?_⟩
  obtain ⟨m₁, hm₁, hf₁⟩ := h1.map m n hm hf
  obtain ⟨m₂, hm₂, hf₂⟩ := h2.map m₁ _ hm₁ hf₁
  exact ⟨m₂, hm₂, by rwa [List.length_append, ← Nat.add_assoc]⟩

/-- `page_alloc(PAGE_SIZE)` takes the first page. -/
lemma pageAlloc_takes (s : St) : Gives (pageAlloc K s) fun r => ∃ b, r.1 = b.virt ∧
    s.supply = b :: r.2.supply ∧ r.2.large = s.large ∧ r.2.addr = s.addr ∧ r.2.physmap = s.physmap := by
  unfold pageAlloc
  cases hs : s.supply with
  | nil => exact Gives.error
  | cons b bs => exact Gives.then fun a => Gives.pure ⟨b, rfl, rfl, rfl, rfl, rfl⟩

lemma tabNew_takes (s : St) : Gives (tabNew K sp s) fun r => ∃ tabs, Took sp tabs s r.2 := by
  unfold tabNew
  refine (pageAlloc_takes s).bind fun ⟨virt, s₁⟩ ⟨b, _, hsup, hlarge, haddr, hmap⟩ => ?_
  refine (kvirt2phys_still _ _ s₁).bind fun ⟨phys, s₂⟩ h => ?_
  simp only at hsup hlarge haddr hmap h ⊢
  split
  · exact Gives.error
  · rename_i m hm
    have hm' : s.physmap sp = some m := by rw [← hmap, ← h.physmap, hm]
    intro r hr
    obtain ⟨m', hins, hr⟩ := exists_of_bind hr
    obtain rfl := Except.ok.inj hr
    refine ⟨[b], by rw [hsup, ← h.supply]; rfl, h.large.trans hlarge, h.addr.trans haddr,
      fun m₀ n hm₀ hf => ⟨m', by simp [setPhysmap], ?_⟩⟩
    rw [hm', Option.some.injEq] at hm₀
    subst hm₀
    exact hf.insert m' hins

lemma mapPages_takes (dst src length flags : ℕ) (s : St) :
    Gives (mapPages K sp dst src length flags s) fun s' => ∃ tabs, Took sp tabs s s' := by
  refine mapRange_rel (R := fun s s' => ∃ tabs, Took sp tabs s s') (fun s => ?_) ?_ (fun s a x => ?_)
    tabNew_takes _ _ _ _ _ s
  · exact ⟨[], Took.of_still ⟨rfl, rfl, rfl, rfl⟩⟩
  · rintro s₁ s₂ s₃ ⟨t₁, h1⟩ ⟨t₂, h2⟩
    exact ⟨t₁ ++ t₂, h1.trans h2⟩
  · exact ⟨[], Took.of_still ⟨rfl, rfl, rfl, rfl⟩⟩

/-- What a process is made of: the top table `b`, other tables, and the stack. -/
structure Made (sp : ℕ) (b : Block) (tabs : List Block) (kvirt : ℕ) (s s' : St) : Prop where
  supply : s.supply = b :: tabs ++ s'.supply
  large : s.large = kvirt :: s'.large
  addr : s'.addr sp = b.virt
  map : ∃ m, s'.physmap sp = some m ∧ Few m tabs.length

lemma spaceInit_takes (s : St) : Gives (spaceInit K sp s) fun s' => ∃ b,
    s.supply = b :: s'.supply ∧ s'.large = s.large ∧ s'.addr sp = b.virt ∧
    s'.physmap sp = some (mapNew 0x10) := by
  unfold spaceInit
  refine (pageAlloc_takes _).bind fun ⟨virt, s₁⟩ ⟨b, hb, hsup, hlarge, _, hmap⟩ => ?_
  simp only at hb hsup hlarge hmap
  refine Gives.then fun x => Gives.then fun a => Gives.pure ⟨b, hsup, hlarge, ?_, ?_⟩
  · simp [setWord, setAddr, hb]
  · simp [setWord, setAddr, hmap, setPhysmap]

lemma procPagesInit_takes (start len : ℕ) (s : St) : Gives (procPagesInit K sp start len s) fun r =>
    ∃ b tabs kvirt, Made sp b tabs kvirt s r.2 := by
  unfold procPagesInit
  refine (spaceInit_takes s).bind fun s₁ ⟨b, hsup, hlarge, haddr, hmap⟩ => ?_
  refine (mapPages_takes _ _ _ _ s₁).bind fun s₂ ⟨t₂, h₂⟩ => ?_
  unfold pageAllocLarge
  cases hl : s₂.large with
  | nil => exact Gives.error
  | cons kvirt vs =>
    rw [pure_bind]
    refine (mapPages_takes _ _ _ _ _).bind fun s₃ ⟨t₃, h₃⟩ => Gives.pure ⟨b, t₂ ++ t₃, kvirt, ?_, ?_, ?_, ?_⟩
    · have hs₃ : s₂.supply = t₃ ++ s₃.supply := h₃.supply
      rw [hsup, h₂.supply, hs₃, List.cons_append, List.append_assoc]
    · have hl₃ : s₃.large = vs := h₃.large
      rw [hl₃, ← hl, h₂.large, hlarge]
    · have ha₃ : s₃.addr = s₂.addr := h₃.addr
      rw [ha₃, h₂.addr, haddr]
    · obtain ⟨m₂, hm₂, hf₂⟩ := h₂.map _ 0 hmap (Few.new _)
      obtain ⟨m₃, hm₃, hf₃⟩ := h₃.map m₂ _ hm₂ hf₂
      exact ⟨m₃, hm₃, by rwa [List.length_append, ← Nat.zero_add t₂.length]⟩

/-! ### What is left at the end -/

lemma Made.tables {b : Block} {tabs : List Block} {kvirt : ℕ} (h : Made sp b tabs kvirt s s') :
    tables s s' = b :: tabs := by
  have hlen : (b :: tabs ++ s'.supply).length - s'.supply.length = (b :: tabs).length := by
    rw [List.length_append, Nat.add_sub_cancel]
  rw [Lifecycle.tables, h.supply, hlen, List.take_left]

lemma Made.handedOut {b : Block} {tabs : List Block} {kvirt : ℕ} (h : Made sp b tabs kvirt s s') :
    handedOut s s' = (b.virt, blockSize pageSize) ::
      (tabs.map (fun b => (b.virt, blockSize pageSize)) ++ [(kvirt, blockSize (64 * pageSize))]) := by
  have hlen : (kvirt :: s'.large).length - s'.large.length = 1 := by
    rw [List.length_cons, Nat.add_sub_cancel_left]
  rw [Lifecycle.handedOut, h.tables, h.large, hlen]
  rfl

variable {x x' : Sys}

lemma ticks_frame (cs : List ℕ) : Gives (cs.foldlM tick x) fun x' => x'.st = x.st ∧ x'.live = x.live := by
  induction cs generalizing x with
  | nil => exact Gives.pure ⟨rfl, rfl⟩
  | cons c cs ih =>
    rw [List.foldlM_cons]
    refine Gives.bind (P := fun x₁ => x₁.st = x.st ∧ x₁.live = x.live) ?_ fun x₁ h1 => ?_
    · exact Gives.then fun r => Gives.pure ⟨rfl, rfl⟩
    · exact ih.mono fun x₂ h2 => ⟨h2.1.trans h1.1, h2.2.trans h1.2⟩

lemma pageFree_gives (page sz : ℕ) (l : Live) : Gives (pageFree page sz l) fun l' =>
    l' = { l with pages := l.pages.erase (page, blockSize sz) } := by
  unfold pageFree
  split
  · exact Gives.pure rfl
  · exact Gives.error

/-- An array whose `n` was never set has no segments to free. -/
lemma syscallExit_gives {p : Proc} {m : Map} (hn : p.segs.n = 0) (hm : x.st.physmap p.space = some m) :
    Gives (syscallExit e p x) fun x' => ∃ k ≤ 4 + mapFreed m, x'.live =
      ⟨x.live.pages.erase (x.st.addr p.space, blockSize pageSize), x.live.heap - k⟩ := by
  unfold syscallExit
  refine Gives.then fun ⟨sched, node⟩ => ?_
  simp only [freeSegs, hn, List.take_zero, List.foldlM_nil, pure_bind, hm]
  refine (pageFree_gives _ _ _).bind ?_
  rintro l rfl
  refine Gives.then fun ⟨i, found⟩ => Gives.then fun procmap => Gives.pure ?_
  refine ⟨(if node ≠ 0 then 1 else 0) + mapFreed m + 1 + (if found = true then 2 else 0), ?_, ?_⟩
  · split <;> split <;> omega
  · simp only [kfree, Live.mk.injEq, true_and]
    omega

/-- What is out at the end that was not before: the tables but for the top one and the stack, the
blocks that `kalloc` took, and of `kalloc` the array of segments at least. -/
lemma lifecycle_leaves {start len : ℕ} : Gives (lifecycle K e start len x) fun x' =>
    (∃ b tabs kvirt, ∃ st : St, Made e.sp b tabs kvirt x.st st ∧
      x'.live.pages = x.live.pages + e.pool + ↑(tabs.map (fun b => (b.virt, blockSize pageSize)) ++
        [(kvirt, blockSize (64 * pageSize))])) ∧
    x.live.heap + 1 ≤ x'.live.heap := by
  unfold lifecycle procNew
  simp only [bind_assoc]
  refine (procPagesInit_takes start len x.st).bind ?_
  rintro ⟨item, st⟩ ⟨b, tabs, kvirt, hmade⟩
  simp only at hmade
  refine Gives.then fun procmap => ?_
  simp only [pure_bind, schedule, bind_assoc]
  refine Gives.then fun sched => ?_
  refine (ticks_frame e.ticks).bind fun x₃ ⟨hst, hlive⟩ => ?_
  simp only at hst hlive
  obtain ⟨m, hm, hfew⟩ := hmade.map
  refine (syscallExit_gives rfl (by rw [hst]; exact hm)).mono ?_
  rintro x' ⟨k, hk, hx'⟩
  have hfreed : mapFreed m ≤ 2 * tabs.length + 1 := by
    have := hfew.length_filter (List.nodup_range (n := m.max + 1))
    unfold mapFreed
    omega
  rw [hx', hlive, hst]
  simp only
  refine ⟨⟨b, tabs, kvirt, st, hmade, ?_⟩, ?_⟩
  · rw [hmade.handedOut, hmade.addr, ← Multiset.cons_coe, Multiset.add_cons, Multiset.erase_cons_head]
  · rw [hmade.tables, List.length_cons, Nat.add_sub_cancel]
    omega

/-- **No process gives back what it took**: there are more blocks out when it is gone than there
were before it, of both kinds. -/
theorem never_restored {start len : ℕ} (h : lifecycle K e start len x = .ok x') :
    ¬ Restored x x' ∧ x.live.pages < x'.live.pages ∧ x.live.heap < x'.live.heap := by
  obtain ⟨⟨b, tabs, kvirt, st, -, hpages⟩, hheap⟩ := lifecycle_leaves x' h
  refine ⟨fun hr => ?_, ?_, by omega⟩
  · rw [hr] at hheap
    omega
  · rw [hpages, Multiset.add_assoc]
    refine lt_of_le_of_ne (Multiset.le_add_right _ _) fun hr => ?_
    have hcard := congrArg Multiset.card hr
    simp only [Multiset.card_add, Multiset.coe_card, List.length_append, List.length_singleton] at hcard
    omega

/-- One CPU, whose timer ticks once before the process ends. -/
def oneCpu : Env where
  sp := 1
  node := 1
  pool := []
  ncpus := 1
  junk := 0
  priority := 0
  arch := zeros
  rest := []
  ticks := [0]
  cpu := 0
  fuel := 2

/-- A kernel that has made no process yet. -/
def idle (s : St) : Sys := ⟨s, schedInit (fun _ => ⟨0, 0⟩) fun _ => 0, mapNew 1204, 0, ⟨0, 0⟩⟩

/-- Five tables and the stack are left, and one object of `kalloc`. -/
lemma oneCpu_runs : (readySt.bind fun s =>
    (lifecycle borderImage oneCpu 0xFFFFFFFF80190000 0x1000 (idle s)).map fun x' =>
      (x'.live.pages.card, x'.live.heap)) = .ok (6, 1) := by
  decide +kernel

theorem never_restored_oneCpu : ∃ s x', readySt = .ok s ∧
    lifecycle borderImage oneCpu 0xFFFFFFFF80190000 0x1000 (idle s) = .ok x' ∧ ¬ Restored (idle s) x' := by
  obtain ⟨s, h, hrun⟩ := exists_of_bind oneCpu_runs
  obtain ⟨x', hl, -⟩ := exists_of_map hrun
  exact ⟨s, x', h, hl, (never_restored hl).1⟩

theorem pages_left : ∃ s x', readySt = .ok s ∧
    lifecycle borderImage oneCpu 0xFFFFFFFF80190000 0x1000 (idle s) = .ok x' ∧
    (idle s).live.pages = 0 ∧ x'.live.pages.card = 6 ∧ x'.live.heap = 1 ∧ ¬ Restored (idle s) x' := by
  obtain ⟨s, h, hrun⟩ := exists_of_bind oneCpu_runs
  obtain ⟨x', hl, hx'⟩ := exists_of_map hrun
  rw [Prod.mk.injEq] at hx'
  refine ⟨s, x', h, hl, rfl, hx'.1, hx'.2, fun hr => ?_⟩
  rw [hr] at hx'
  cases hx'.2

end Silkware.Lifecycle
