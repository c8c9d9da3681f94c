import Mathlib.Data.Set.Lattice
import Mathlib.Logic.Relation
import Mathlib.Order.CompletePartialOrder
import Mathlib.Order.Interval.Set.Basic
import Silkware.Outcome
import Silkware.PageAllocInv

/-!
Whole runs of the page allocator: allocations, releases of live blocks and writes of their
owners, from the pools that the set-up lays out.
-/

namespace Silkware.PageRuns

open Silkware.ByteMem Silkware.Header Silkware.Kern Silkware.Links Silkware.PageAlloc
open Silkware.PageAllocInv Silkware.Segments Silkware.Outcome

/-- A block in use: its address and the size it was asked for with. -/
structure Live where
  addr : ℕ
  req : ℕ
  deriving DecidableEq

/-- The bytes of a block in use. -/
def Live.seg (x : Live) : Seg := ⟨x.addr, blockSize x.req⟩

structure Sys where
  st : State
  live : List Live

inductive Op
  | alloc (sz : ℕ)
  | free (page sz : ℕ)
  | write (a : ℕ) (v : UInt8)

/-- One call, or one write of a client to a block it owns. -/
inductive Step (s : Sys) : Op → Sys → Prop
  | alloc {fuel sz : ℕ} {st : State} {p : ℕ} (h0 : 0 < sz) (h1 : sz ≤ 2 ^ 63)
      (h : pageAlloc fuel s.st sz = .ok (st, p)) : Step s (.alloc sz) ⟨st, ⟨p, sz⟩ :: s.live⟩
  | free {fuel page sz : ℕ} {st : State} (hl : ⟨page, sz⟩ ∈ s.live)
      (h : pageFree fuel s.st page sz = .ok st) :
      Step s (.free page sz) ⟨st, s.live.erase ⟨page, sz⟩⟩
  | write {x : Live} {a : ℕ} {v : UInt8} (hx : x ∈ s.live) (h1 : x.addr ≤ a)
      (h2 : a < x.addr + blockSize x.req) :
      Step s (.write a v) ⟨{ s.st with mem := fun b => if b = a then v else s.st.mem b }, s.live⟩

/-- Runs whose steps all meet `G`. -/
def Runs (G : Sys → Op → Prop) : Sys → Sys → Prop :=
  Relation.ReflTransGen fun s s' => ∃ op, G s op ∧ Step s op s'

/-- The blocks a walk over the pool's free list meets. -/
def OnList (m : Mem) (p : Pool) (b : ℕ) : Prop :=
  Visited (next m) (fun x => p.end_ ≤ x) p.start b

/-- No byte belongs to two blocks in use, or to one in use and one on a free list. -/
def NoOverlap (s : Sys) : Prop :=
  s.live.Pairwise (fun x y => Disjoint (Set.Ico x.seg.lo x.seg.hi) (Set.Ico y.seg.lo y.seg.hi)) ∧
  ∀ x ∈ s.live, ∀ p ∈ s.st.pools, ∀ b, OnList s.st.mem p b →
    Disjoint (Set.Ico x.seg.lo x.seg.hi) (Set.Ico b (b + size s.st.mem b))

/-- The releases `page_free` can handle: the block does not start where some pool ends, and
where the walk gets to the address of its buddy, a free block of its size starts there. -/
def FreeOk (s : Sys) : Op → Prop
  | .free page sz => (∀ p ∈ s.st.pools, page ≠ p.end_) ∧
      ∀ p ∈ s.st.pools, p.base ≤ page → page < p.end_ → BuddyOk s.st.mem p page (blockSize sz)
  | _ => True

/-! ### The invariant -/

inductive Inv (s : Sys) (fr : List (List ℕ)) : Prop where
  | mk
    (pools : List.Forall₂ (PoolOk s.st.mem) s.st.pools fr)
    (order : (s.st.pools.map extent).Pairwise fun p q => p.2 ≤ q.1)
    (live : ∀ x ∈ s.live, ∃ e ∈ s.st.pools.map extent, Block e.1 e.2 x.addr (blockSize x.req))
    (packed : Packed (fr.flatten.map (seg s.st.mem) ++ s.live.map Live.seg))

lemma Inv.pools {s : Sys} {fr : List (List ℕ)} (h : Inv s fr) :
    List.Forall₂ (PoolOk s.st.mem) s.st.pools fr :=
  match h with | ⟨x, _, _, _⟩ => x

lemma Inv.order {s : Sys} {fr : List (List ℕ)} (h : Inv s fr) :
    (s.st.pools.map extent).Pairwise fun p q => p.2 ≤ q.1 :=
  match h with | ⟨_, x, _, _⟩ => x

lemma Inv.packed {s : Sys} {fr : List (List ℕ)} (h : Inv s fr) :
    Packed (fr.flatten.map (seg s.st.mem) ++ s.live.map Live.seg) :=
  match h with | ⟨_, _, _, x⟩ => x

lemma Apart.disjoint {g h : Seg} (a : Apart g h) :
    Disjoint (Set.Ico g.lo g.hi) (Set.Ico h.lo h.hi) := by
  refine Set.disjoint_left.mpr fun x hx hy => ?_
  simp only [Set.mem_Ico, Apart] at *
  omega

lemma onList_iff {m : Mem} {p : Pool} {l : List ℕ} (h : PoolOk m p l) {b : ℕ} :
    OnList m p b ↔ b ∈ l := by
  obtain ⟨-, -, -, hch, hbl⟩ := h
  refine visited_iff hch (fun y hy => ?_) (le_refl _)
  have := (hbl y hy).facts
  omega

lemma onList_mem {m : Mem} {ps : List Pool} {fr : List (List ℕ)} {p : Pool} {b : ℕ}
    (h : List.Forall₂ (PoolOk m) ps fr) (hp : p ∈ ps) (hb : OnList m p b) : b ∈ fr.flatten := by
  induction h with
  | nil => cases hp
  | @cons q l ps fr hq h ih =>
    rw [List.flatten_cons]
    rcases List.mem_cons.mp hp with rfl | hp
    · exact List.mem_append_left _ ((onList_iff hq).mp hb)
    · exact List.mem_append_right _ (ih hp)

/-- The list of a pool holds all free blocks in the pool. -/
lemma pool_list {m : Mem} {ps : List Pool} {fr : List (List ℕ)} (h : List.Forall₂ (PoolOk m) ps fr)
    (ho : (ps.map extent).Pairwise fun p q => p.2 ≤ q.1) {p : Pool} (hp : p ∈ ps) :
    ∃ l, PoolOk m p l ∧ l.Sublist fr.flatten ∧
      ∀ b ∈ fr.flatten, p.base ≤ b → b < p.end_ → b ∈ l := by
  induction h with
  | nil => cases hp
  | @cons q l ps fr hq h ih =>
    obtain ⟨hno, ho⟩ := List.pairwise_cons.mp ho
    rw [List.flatten_cons]
    rcases List.mem_cons.mp hp with rfl | hp
    · refine ⟨l, hq, List.sublist_append_left _ _, fun b hb h1 h2 => ?_⟩
      rcases List.mem_append.mp hb with hb | hb
      · exact hb
      · obtain ⟨r, hr, hblk⟩ := exists_block h hb
        have := hno _ (List.mem_map_of_mem hr)
        have := hblk.facts
        simp only [extent] at *
        omega
    · obtain ⟨l', h1, h2, h3⟩ := ih ho hp
      refine ⟨l', h1, h2.trans (List.sublist_append_right _ _), fun b hb h4 h5 => ?_⟩
      rcases List.mem_append.mp hb with hb | hb
      · obtain ⟨-, -, -, -, hbl⟩ := hq
        have := (hbl b hb).facts
        have := hno _ (List.mem_map_of_mem hp)
        simp only [extent] at *
        omega
      · exact h3 b hb h4 h5

lemma Inv.noOverlap {s : Sys} {fr : List (List ℕ)} (h : Inv s fr) : NoOverlap s := by
  obtain ⟨hp, -, -, hpk⟩ := h
  obtain ⟨-, h2, h3⟩ := List.pairwise_append.mp hpk
  refine ⟨(List.pairwise_map.mp h2).imp fun a => Apart.disjoint a, fun x hx p hpp b hb => ?_⟩
  have hmem : b ∈ fr.flatten := onList_mem hp hpp hb
  exact (Apart.disjoint (h3 (seg s.st.mem b) (List.mem_map_of_mem hmem) _
    (List.mem_map_of_mem hx))).symm

/-- `page_alloc` cuts a free block in pieces and returns the first of them. -/
lemma alloc_inv {s : Sys} {fr : List (List ℕ)} {fuel sz p : ℕ} {st : State} (h : Inv s fr)
    (hlt : sz < 2 ^ 64) (hr : pageAlloc fuel s.st sz = .ok (st, p)) :
    ∃ A l1 l2 B j k, blockSize sz = 2 ^ j ∧
      AllocEff s.st.mem s.st.pools fr j st.mem st.pools p A l1 l2 B k ∧
      Inv ⟨st, ⟨p, sz⟩ :: s.live⟩ (A ++ (l1 ++ (pieces p j k ++ l2)) :: B) := by
  obtain ⟨hp, ho, hl, hpk⟩ := h
  obtain ⟨j, hj, -, hsz⟩ := blockSize_eq hlt
  rw [pageAlloc, hsz] at hr
  cases hal : allocLoop fuel s.st.mem (2 ^ j) s.st.pools with
  | error e => simp [hal, bind, Except.bind] at hr
  | ok r =>
    obtain ⟨m', ps', b⟩ := r
    simp only [hal, bind, Except.bind, pure, Except.pure, Except.ok.injEq, Prod.mk.injEq] at hr
    obtain ⟨rfl, rfl⟩ := hr
    obtain ⟨A, l1, l2, B, k, e⟩ := allocLoop_spec hj hp (List.pairwise_append.mp hpk).1 hal
    refine ⟨A, l1, l2, B, j, k, hsz, e, e.pools, by rw [e.ext]; exact ho, ?_, ?_⟩
    · intro x hx
      rcases List.mem_cons.mp hx with rfl | hx
      · obtain ⟨q, hq, hb⟩ := e.block
        exact ⟨extent q, List.mem_map_of_mem hq, by rw [hsz]; exact hb⟩
      · rw [e.ext]; exact hl x hx
    · rw [e.eq] at hpk
      have hAB : (A.flatten ++ B.flatten).map (seg m') = (A.flatten ++ B.flatten).map (seg s.st.mem) :=
        List.map_congr_left fun c hc => by
          rw [seg, seg, e.sizes c (by simp only [List.mem_append] at hc ⊢; tauto)]
      have hpk' : Packed ((l1 ++ b :: l2).map (seg s.st.mem) ++
          ((A.flatten ++ B.flatten).map (seg s.st.mem) ++ s.live.map Live.seg)) := by
        refine hpk.perm ?_
        rw [← List.append_assoc, ← List.map_append]
        exact ((flatten_middle A B _).map _).append_right _
      have hcut := cut_packed hpk' e.size_eq e.le
        (fun c hc => e.sizes c (by simp only [List.mem_append] at hc ⊢; tauto)) e.piece
      refine hcut.perm ?_
      rw [List.map_cons, Live.seg, hsz, ← hAB, ← List.append_assoc, ← List.map_append]
      refine List.Perm.trans (List.Perm.cons _ ?_) List.perm_middle.symm
      exact (((flatten_middle A B _).map _).append_right _).symm

lemma end_lt {m : Mem} {ps : List Pool} {fr : List (List ℕ)}
    (h : List.Forall₂ (PoolOk m) ps fr) {e : ℕ × ℕ} (he : e ∈ ps.map extent) : e.2 < 2 ^ 64 := by
  induction h with
  | nil => simp at he
  | @cons p l ps fr hp h ih =>
    rcases List.mem_cons.mp he with rfl | he
    · obtain ⟨-, htop, -, -, -⟩ := hp
      exact htop
    · exact ih he

/-- Pools in order share no address. -/
lemma extent_unique {L : List (ℕ × ℕ)} (h : L.Pairwise fun p q => p.2 ≤ q.1) {e f : ℕ × ℕ}
    (he : e ∈ L) (hf : f ∈ L) {x : ℕ} (h1 : e.1 ≤ x) (h2 : x < e.2) (h3 : f.1 ≤ x)
    (h4 : x < f.2) : e = f := by
  induction L with
  | nil => cases he
  | cons g L ih =>
    obtain ⟨hg, hL⟩ := List.pairwise_cons.mp h
    rcases List.mem_cons.mp he with he' | he'
    · rcases List.mem_cons.mp hf with hf' | hf'
      · rw [he', hf']
      · have := hg f hf'
        subst he'
        omega
    · rcases List.mem_cons.mp hf with hf' | hf'
      · have := hg e he'
        subst hf'
        omega
      · exact ih hL he' hf'

/-- A block in use in its place in the pool it is in. -/
lemma Inv.block {s : Sys} {fr : List (List ℕ)} (h : Inv s fr) {x : Live} (hx : x ∈ s.live) {p : Pool}
    (hp : p ∈ s.st.pools) (h1 : p.base ≤ x.addr) (h2 : x.addr < p.end_) :
    Block p.base p.end_ x.addr (blockSize x.req) := by
  obtain ⟨-, ho, hlv, -⟩ := h
  obtain ⟨e, he, hblk⟩ := hlv _ hx
  have := hblk.facts
  obtain rfl : e = extent p := extent_unique ho he (List.mem_map_of_mem hp) (x := x.addr) (by omega)
    (by omega) h1 h2
  exact hblk

/-- The header that `page_free` writes first belongs to a block in use. -/
lemma live_hdr {s : Sys} {fr : List (List ℕ)} (h : Inv s fr) {page sz : ℕ} (hl : ⟨page, sz⟩ ∈ s.live) :
    ∀ x ∈ fr.flatten, SameHdr s.st.mem (setSize s.st.mem page (blockSize sz)) x := by
  obtain ⟨hp, -, hlv, hpk⟩ := h
  obtain ⟨e, -, hblk⟩ := hlv _ hl
  have hsz := hblk.facts
  intro x hx z h1 h2
  have ha := (List.pairwise_append.mp hpk).2.2 _ (List.mem_map_of_mem hx) _ (List.mem_map_of_mem hl)
  have hlen := seg_pos hp _ (List.mem_map_of_mem hx)
  simp only [Apart, Seg.hi, seg, Live.seg] at ha hlen hsz
  exact setSize_out (by omega)

lemma free_release {s : Sys} {fr : List (List ℕ)} {fuel page sz : ℕ} {st : State} (h : Inv s fr)
    (hl : ⟨page, sz⟩ ∈ s.live) (hok : FreeOk s (.free page sz))
    (hr : pageFree fuel s.st page sz = .ok st) :
    ∃ k A p p' B FA l l' FB, blockSize sz = 2 ^ k ∧
      Release s.st.mem s.st.pools fr page k st.mem st.pools A p p' B FA l l' FB ∧
      Inv ⟨st, s.live.erase ⟨page, sz⟩⟩ (FA ++ l' :: FB) := by
  have hin := fun p hp h1 h2 => h.block hl (p := p) hp h1 h2
  have hd := live_hdr h hl
  obtain ⟨hp, ho, hlv, hpk⟩ := h
  obtain ⟨e, he, k, q, hk, hsz, hq, hend⟩ := hlv _ hl
  simp only at hsz hq hend hin
  obtain ⟨⟨m', ps'⟩, hfl, hr⟩ := exists_of_bind hr
  cases hr
  set m₀ := setSize s.st.mem page (blockSize sz) with hm₀
  have hperm : (s.live.map Live.seg).Perm
      (⟨page, blockSize sz⟩ :: (s.live.erase ⟨page, sz⟩).map Live.seg) :=
    (List.perm_cons_erase hl).map Live.seg
  have hpk1 : Packed (⟨page, blockSize sz⟩ :: (fr.flatten.map (seg s.st.mem) ++
      (s.live.erase ⟨page, sz⟩).map Live.seg)) :=
    hpk.perm ((hperm.append_left _).trans List.perm_middle)
  have h12 : 2 ^ 12 ≤ 2 ^ k := Nat.pow_le_pow_right (by omega) hk
  have hs₀ : size m₀ page = 2 ^ k := by
    have := end_lt hp he
    rw [hm₀, size_setSize (by omega), hsz]
  have hseg : fr.flatten.map (seg m₀) = fr.flatten.map (seg s.st.mem) :=
    List.map_congr_left fun x hx => by rw [seg, seg, (hd x hx).size]
  have hrest : ∀ x ∈ (s.live.erase ⟨page, sz⟩).map Live.seg, 0 < x.len := by
    intro x hx
    obtain ⟨y, hy, rfl⟩ := List.mem_map.mp hx
    obtain ⟨f, -, hf⟩ := hlv y (List.mem_of_mem_erase hy)
    have := hf.facts
    simp only [Live.seg]
    omega
  obtain ⟨A, p, p', B, FA, l, l', FB, hR, hpk'⟩ := freeLoop_spec
    ((s.live.erase ⟨page, sz⟩).map Live.seg) hk hs₀ hp hd hok.1
    (fun p hpp hp1 hp2 => by
      rw [← hsz]
      exact ⟨hin p hpp hp1 hp2, hok.2 p hpp hp1 hp2⟩)
    (by rw [hseg, seg, hs₀, ← hsz]; exact hpk1) hrest hfl
  refine ⟨k, A, p, p', B, FA, l, l', FB, hsz, hR, hR.after, by rw [hR.extents]; exact ho,
    fun x hx => ?_, hpk'⟩
  rw [hR.extents]
  exact hlv x (List.mem_of_mem_erase hx)

lemma free_inv {s : Sys} {fr : List (List ℕ)} {fuel page sz : ℕ} {st : State} (h : Inv s fr)
    (hl : ⟨page, sz⟩ ∈ s.live) (hok : FreeOk s (.free page sz))
    (hr : pageFree fuel s.st page sz = .ok st) :
    ∃ fr' k, blockSize sz = 2 ^ k ∧ FreeEff s.st.mem s.st.pools fr page k st.mem fr' ∧
      st.pools.map extent = s.st.pools.map extent ∧ Inv ⟨st, s.live.erase ⟨page, sz⟩⟩ fr' := by
  obtain ⟨k, A, p, p', B, FA, l, l', FB, hsz, hR, hI⟩ := free_release h hl hok hr
  exact ⟨_, k, hsz, hR.eff, hR.extents, hI⟩

/-- Bytes of a block in use belong to no free block and to no other block in use. -/
lemma Inv.alone {s : Sys} {fr : List (List ℕ)} {x : Live} {a : ℕ} (h : Inv s fr) (hx : x ∈ s.live)
    (h1 : x.addr ≤ a) (h2 : a < x.addr + blockSize x.req) :
    (∀ c ∈ fr.flatten, a < c ∨ c + size s.st.mem c ≤ a) ∧
      ∀ y ∈ s.live, y ≠ x → a < y.addr ∨ y.addr + blockSize y.req ≤ a := by
  obtain ⟨-, hlv, hcross⟩ := List.pairwise_append.mp h.packed
  refine ⟨fun c hc => ?_, fun y hy hne => ?_⟩
  · have ha := hcross _ (List.mem_map_of_mem hc) _ (List.mem_map_of_mem hx)
    simp only [Apart, Seg.hi, seg, Live.seg] at ha
    omega
  · have ha := Packed.of_ne hlv hy hx hne
    simp only [Apart, Seg.hi, Live.seg] at ha
    omega

/-- Writing to a block in use. -/
lemma Inv.payload {s : Sys} {fr : List (List ℕ)} {x : Live} (m' : Mem) (h : Inv s fr)
    (hx : x ∈ s.live) (hm : ∀ a, a < x.addr ∨ x.addr + blockSize x.req ≤ a → m' a = s.st.mem a) :
    Inv ⟨{ s.st with mem := m' }, s.live⟩ fr ∧ ∀ y ∈ fr.flatten, SameHdr s.st.mem m' y := by
  have hd : ∀ y ∈ fr.flatten, SameHdr s.st.mem m' y := by
    intro y hy z hz1 hz2
    have hb := seg_pos h.pools _ (List.mem_map_of_mem hy)
    simp only [seg] at hb
    refine hm z ?_
    by_contra hin
    have := (h.alone hx (a := z) (by omega) (by omega)).1 y hy
    omega
  have hseg : fr.flatten.map (seg m') = fr.flatten.map (seg s.st.mem) :=
    List.map_congr_left fun y hy => by rw [seg, seg, (hd y hy).size]
  obtain ⟨hp, ho, hlv, hpk⟩ := h
  exact ⟨⟨forall2_hdr hp hd, ho, hlv, by rw [hseg]; exact hpk⟩, hd⟩

lemma write_inv {s : Sys} {fr : List (List ℕ)} {x : Live} {a : ℕ} {v : UInt8} (h : Inv s fr)
    (hx : x ∈ s.live) (h1 : x.addr ≤ a) (h2 : a < x.addr + blockSize x.req) :
    Inv ⟨{ s.st with mem := fun b => if b = a then v else s.st.mem b }, s.live⟩ fr ∧
      ∀ y ∈ fr.flatten, size (fun b => if b = a then v else s.st.mem b) y = size s.st.mem y := by
  obtain ⟨hi, hd⟩ := h.payload (fun b => if b = a then v else s.st.mem b) hx
    fun b hb => if_neg (by omega)
  exact ⟨hi, fun y hy => (hd y hy).size⟩

lemma step_inv {s s' : Sys} {op : Op} {fr : List (List ℕ)} (h : Inv s fr) (hok : FreeOk s op)
    (hs : Step s op s') : ∃ fr', Inv s' fr' := by
  cases hs with
  | alloc h0 h1 hr =>
    obtain ⟨A, l1, l2, B, j, k, -, -, h'⟩ := alloc_inv h (by omega) hr
    exact ⟨_, h'⟩
  | free hl hr =>
    obtain ⟨fr', -, -, -, -, h'⟩ := free_inv h hl hok hr
    exact ⟨fr', h'⟩
  | write hx h1 h2 => exact ⟨fr, (write_inv h hx h1 h2).1⟩

lemma runs_inv {s s' : Sys} {fr : List (List ℕ)} (h : Inv s fr) (hr : Runs FreeOk s s') :
    ∃ fr', Inv s' fr' := by
  induction hr with
  | refl => exact ⟨fr, h⟩
  | tail _ hs ih =>
    obtain ⟨fr', h'⟩ := ih
    obtain ⟨op, hok, hs⟩ := hs
    exact step_inv h' hok hs

/-! ### Set-up -/

/-- The memory maps the set-up can handle: the usable entries fit above `end_pos`, and the
offset in its page at which an entry starts never decreases from one entry to the next. -/
structure MapOk (endPos : ℕ) (memmap : List MemmapEntry) : Prop where
  pos : 0 < endPos
  al : endPos % pageSize = 0
  fit : endPos + (memmap.map (·.len)).sum + pageSize ≤ 2 ^ 64
  offs : (memmap.filter fun e => pageSize ≤ e.len).Pairwise fun e f =>
    e.base % pageSize ≤ f.base % pageSize

/-- The pools laid out so far are whole free blocks, one after the other, and end at most
`o` bytes after `end_pos`. -/
structure SetupOk (s : Setup) (o : ℕ) : Prop where
  pos : 0 < s.endPos
  al : s.endPos % pageSize = 0
  order : (s.pools.map extent).Pairwise fun p q => p.2 ≤ q.1
  whole : ∀ p ∈ s.pools, p.start = p.base ∧ 0 < p.base ∧ p.end_ < 2 ^ 64 ∧
    p.end_ ≤ s.endPos + o ∧
    ∃ k, 12 ≤ k ∧ p.end_ = p.base + 2 ^ k ∧ size s.mem p.base = 2 ^ k ∧
      next s.mem p.base = p.end_

lemma addPool_ok {s : Setup} {o phys k : ℕ} (h : SetupOk s o) (ho : o ≤ phys % pageSize)
    (hk : 12 ≤ k) (hfit : s.endPos + 2 ^ k + pageSize ≤ 2 ^ 64) :
    SetupOk (addPool s phys (2 ^ k)) (phys % pageSize) ∧
      (addPool s phys (2 ^ k)).endPos = s.endPos + 2 ^ k := by
  obtain ⟨hpos, hal, hord, hwh⟩ := h
  have h12 : 2 ^ 12 ≤ 2 ^ k := Nat.pow_le_pow_right (by omega) hk
  have hmod : 2 ^ k % pageSize = 0 := by
    rw [show pageSize = 2 ^ 12 from rfl]
    exact Nat.mod_eq_zero_of_dvd (pow_dvd_pow 2 hk)
  have hlt : phys % pageSize < pageSize := Nat.mod_lt _ (by decide)
  have he := anonPos_eq phys hal hmod hfit
  have hps : pageSize = 4096 := rfl
  set o' := phys % pageSize with ho'
  set virt := s.endPos + o' with hv
  have hend : (virt + 2 ^ k) % 2 ^ 64 = virt + 2 ^ k := Nat.mod_eq_of_lt (by omega)
  have hadd : addPool s phys (2 ^ k) = ⟨setNext (setSize s.mem virt (2 ^ k)) virt (virt + 2 ^ k),
      s.endPos + 2 ^ k, s.pools ++ [⟨virt, virt, virt + 2 ^ k⟩]⟩ := by
    simp only [addPool, he, hend]
  rw [hadd]
  refine ⟨⟨by simp only; omega, ?_, ?_, ?_⟩, rfl⟩
  · simp only [Nat.add_mod, hal, hmod, Nat.zero_mod, Nat.add_zero]
  · simp only [List.map_append, List.map_cons, List.map_nil, List.pairwise_append]
    refine ⟨hord, List.pairwise_singleton _ _, fun p hp q hq => ?_⟩
    obtain ⟨r, hr, rfl⟩ := List.mem_map.mp hp
    obtain rfl := List.mem_singleton.mp hq
    have := hwh r hr
    simp only [extent]
    omega
  · intro p hp
    rcases List.mem_append.mp hp with hp | hp
    · obtain ⟨h1, h2, h3, h4, j, h5, h6, h7, h8⟩ := hwh p hp
      have h12' : 2 ^ 12 ≤ 2 ^ j := Nat.pow_le_pow_right (by omega) h5
      have hd : SameHdr s.mem (setNext (setSize s.mem virt (2 ^ k)) virt (virt + 2 ^ k)) p.base :=
        fun x hx1 hx2 => by rw [setNext_out (by omega), setSize_out (by omega)]
      exact ⟨h1, h2, h3, by simp only; omega, j, h5, h6, by rw [hd.size, h7], by rw [hd.next, h8]⟩
    · obtain rfl := List.mem_singleton.mp hp
      refine ⟨rfl, by simp only; omega, by simp only; omega, by simp only; omega, k, hk, rfl, ?_,
        next_setNext (by omega)⟩
      rw [size_setNext]
      exact size_setSize (by omega)

lemma prevPow2_facts {sz : ℕ} (h1 : pageSize ≤ sz) (h2 : sz < 2 ^ 64) :
    ∃ k, 12 ≤ k ∧ prevPow2 sz = 2 ^ k ∧ 2 ^ k ≤ sz := by
  have hps : pageSize = 4096 := rfl
  refine ⟨sz.log2, (Nat.le_log2 (by omega)).mpr (by omega), prevPow2_eq (by omega) h2,
    Nat.log2_self_le (by omega)⟩

lemma fillEntry_ok {s : Setup} {o phys sz : ℕ} (fuel : ℕ) (h : SetupOk s o)
    (ho : o ≤ phys % pageSize) (h1 : pageSize ≤ sz)
    (hfit : s.endPos + sz + pageSize ≤ 2 ^ 64) :
    ∃ o' ≤ phys % pageSize, SetupOk (fillEntry fuel s phys sz) o' ∧
      (fillEntry fuel s phys sz).endPos ≤ s.endPos + sz := by
  induction fuel generalizing s o phys sz with
  | zero => exact ⟨o, ho, h, by simp [fillEntry]⟩
  | succ fuel ih =>
    have hps : pageSize = 4096 := rfl
    obtain ⟨k, hk, he, hle⟩ := prevPow2_facts h1 (by omega)
    obtain ⟨h2, h3⟩ := addPool_ok h ho hk (by omega)
    have hmod : (phys + 2 ^ k) % pageSize = phys % pageSize := by
      have : 2 ^ k % pageSize = 0 := Nat.mod_eq_zero_of_dvd (pow_dvd_pow 2 hk)
      rw [Nat.add_mod, this, Nat.add_zero, Nat.mod_mod]
    rw [fillEntry]
    simp only [he]
    split
    · obtain ⟨o', h4, h5, h6⟩ := ih h2 (show phys % pageSize ≤ (phys + 2 ^ k) % pageSize by rw [hmod])
        (show pageSize ≤ sz - 2 ^ k by omega) (by omega)
      exact ⟨o', by rw [← hmod]; exact h4, h5, by omega⟩
    · exact ⟨phys % pageSize, le_refl _, h2, by omega⟩

lemma fillPools_ok {s : Setup} {o : ℕ} {memmap : List MemmapEntry} (h : SetupOk s o)
    (ho : ∀ e ∈ memmap, pageSize ≤ e.len → o ≤ e.base % pageSize)
    (hoffs : (memmap.filter fun e => pageSize ≤ e.len).Pairwise fun e f =>
      e.base % pageSize ≤ f.base % pageSize)
    (hfit : s.endPos + (memmap.map (·.len)).sum + pageSize ≤ 2 ^ 64) :
    ∃ o', SetupOk (fillPools s memmap) o' := by
  induction memmap generalizing s o with
  | nil => exact ⟨o, h⟩
  | cons e memmap ih =>
    rw [List.map_cons, List.sum_cons] at hfit
    rw [fillPools, List.foldl_cons, ← fillPools]
    by_cases he : pageSize ≤ e.len
    · rw [if_neg (by omega)]
      rw [List.filter_cons_of_pos (by simpa using he)] at hoffs
      obtain ⟨h1, h2⟩ := List.pairwise_cons.mp hoffs
      obtain ⟨o', h3, h4, h5⟩ := fillEntry_ok 65 h (ho e (by simp) he) he (by omega)
      refine ih h4 (fun f hf hlen => ?_) h2 (by omega)
      exact le_trans h3 (h1 f (List.mem_filter.mpr ⟨hf, by simpa using hlen⟩))
    · rw [if_pos (by omega)]
      rw [List.filter_cons_of_neg (by simpa using he)] at hoffs
      exact ih h (fun f hf => ho f (by simp [hf])) hoffs (by omega)

lemma flatten_bases (ps : List Pool) : (ps.map fun p => [p.base]).flatten = ps.map (·.base) := by
  rw [← List.flatMap_def, ← List.map_eq_flatMap]

lemma SetupOk.inv {s : Setup} {o : ℕ} (h : SetupOk s o) :
    Inv ⟨⟨s.mem, s.pools⟩, []⟩ (s.pools.map fun p => [p.base]) := by
  obtain ⟨-, -, hord, hwh⟩ := h
  refine ⟨?_, hord, by simp, ?_⟩
  · rw [List.forall₂_map_right_iff, List.forall₂_same]
    intro p hp
    obtain ⟨h1, h2, h3, -, k, h4, h5, h6, h7⟩ := hwh p hp
    refine ⟨h2, h3, ⟨k, h5⟩, ⟨h1, h7⟩, fun b hb => ?_⟩
    obtain rfl := List.mem_singleton.mp hb
    rw [h6]
    exact ⟨k, 0, h4, rfl, by omega, by omega⟩
  · rw [flatten_bases, List.map_nil, List.append_nil, List.map_map, Packed, List.pairwise_map]
    refine (List.pairwise_map.mp hord).imp_of_mem fun {p q} hp hq hpq => ?_
    obtain ⟨-, -, -, -, k, h4, h5, h6, h7⟩ := hwh p hp
    simp only [Apart, Seg.hi, seg, Function.comp, extent] at *
    omega

lemma init_setup {m : Mem} {endPos : ℕ} {memmap : List MemmapEntry} {st : State}
    (hm : MapOk endPos memmap) (h : pageAllocInit m endPos memmap = .ok st) :
    ∃ s o, SetupOk s o ∧ st = ⟨s.mem, s.pools⟩ := by
  unfold pageAllocInit at h
  split at h
  · cases h
  · cases h
    obtain ⟨o, ho⟩ := fillPools_ok (s := ⟨m, endPos, []⟩) (o := 0)
      ⟨hm.pos, hm.al, by simp, by simp⟩ (by simp) hm.offs hm.fit
    exact ⟨_, o, ho, rfl⟩

lemma init_inv {m : Mem} {endPos : ℕ} {memmap : List MemmapEntry} {st : State}
    (hm : MapOk endPos memmap) (h : pageAllocInit m endPos memmap = .ok st) :
    ∃ fr, Inv ⟨st, []⟩ fr := by
  obtain ⟨s, o, ho, rfl⟩ := init_setup hm h
  exact ⟨_, ho.inv⟩

/-- **Live blocks are disjoint.** In every run from the pools of `page_alloc_init` whose
releases all meet `FreeOk`, no live block shares a byte with another one or with a block on a
free list. -/
theorem live_disjoint {m : Mem} {endPos : ℕ} {memmap : List MemmapEntry} {st : State} {s : Sys}
    (hm : MapOk endPos memmap) (hi : pageAllocInit m endPos memmap = .ok st)
    (hr : Runs FreeOk ⟨st, []⟩ s) : NoOverlap s := by
  obtain ⟨fr, h⟩ := init_inv hm hi
  obtain ⟨fr', h'⟩ := runs_inv h hr
  exact h'.noOverlap

/-! ### Concrete runs -/

/-- Carry out one operation, if the client may make it. -/
def exec (fuel : ℕ) (s : Sys) : Op → Except Stop Sys
  | .alloc sz =>
    if 0 < sz ∧ sz ≤ 2 ^ 63 then do
      let (st, p) ← pageAlloc fuel s.st sz
      return ⟨st, ⟨p, sz⟩ :: s.live⟩
    else throw .fault
  | .free page sz =>
    if ⟨page, sz⟩ ∈ s.live then do
      let st ← pageFree fuel s.st page sz
      return ⟨st, s.live.erase ⟨page, sz⟩⟩
    else throw .fault
  | .write a v =>
    if ∃ x ∈ s.live, x.addr ≤ a ∧ a < x.addr + blockSize x.req then
      return ⟨{ s.st with mem := fun b => if b = a then v else s.st.mem b }, s.live⟩
    else throw .fault

lemma exec_step {fuel : ℕ} {s s' : Sys} {op : Op} (h : exec fuel s op = .ok s') :
    Step s op s' := by
  cases op with
  | alloc sz =>
    simp only [exec] at h
    split at h
    · rename_i hsz
      cases hp : pageAlloc fuel s.st sz with
      | error e => simp [hp, bind, Except.bind] at h
      | ok r =>
        simp only [hp, bind, Except.bind, pure, Except.pure, Except.ok.injEq] at h
        subst h
        exact .alloc hsz.1 hsz.2 hp
    · cases h
  | free page sz =>
    simp only [exec] at h
    split at h
    · rename_i hl
      cases hp : pageFree fuel s.st page sz with
      | error e => simp [hp, bind, Except.bind] at h
      | ok r =>
        simp only [hp, bind, Except.bind, pure, Except.pure, Except.ok.injEq] at h
        subst h
        exact .free hl hp
    · cases h
  | write a v =>
    simp only [exec] at h
    split at h
    · rename_i hx
      obtain ⟨x, hx, h1, h2⟩ := hx
      cases h
      exact .write hx h1 h2
    · cases h

/-- One usable entry of seven pages: a pool of four pages, and one of two right after it. -/
def twoPools : Except Stop State := pageAllocInit (fun _ => 0) 0xffffffff80200000 [⟨0x100000, 0x7000⟩]

lemma twoPools_map : MapOk 0xffffffff80200000 [⟨0x100000, 0x7000⟩] :=
  ⟨by decide, by decide, by decide, by decide⟩

/-- Take the whole first pool and a page of the second, and give the pool back: the walk
takes the end of the pool for the block's buddy, and the free block reaches over the page. -/
theorem whole_pool_overlap : ∃ st s, pageAllocInit (fun _ => 0) 0xffffffff80200000
    [⟨0x100000, 0x7000⟩] = .ok st ∧ Runs (fun _ _ => True) ⟨st, []⟩ s ∧ ¬ NoOverlap s := by
  have hrun : (twoPools.bind fun st => (exec 9 ⟨st, []⟩ (.alloc 0x4000)).bind fun s1 =>
      (exec 9 s1 (.alloc 0x1000)).bind fun s2 =>
      (exec 9 s2 (.free 0xffffffff80200000 0x4000)).map fun s3 =>
        (s3.live, s3.st.pools, size s3.st.mem 0xffffffff80200000)) =
      .ok ([⟨0xffffffff80204000, 0x1000⟩],
        [⟨0xffffffff80200000, 0xffffffff80200000, 0xffffffff80204000⟩,
         ⟨0xffffffff80205000, 0xffffffff80204000, 0xffffffff80206000⟩], 0x5000) := by
    decide +kernel
  obtain ⟨st, h0, hrun⟩ := exists_of_bind hrun
  obtain ⟨s1, h1, hrun⟩ := exists_of_bind hrun
  obtain ⟨s2, h2, hrun⟩ := exists_of_bind hrun
  obtain ⟨s3, h3, hs⟩ := exists_of_map hrun
  simp only [Prod.mk.injEq] at hs
  obtain ⟨hl, hp, hz⟩ := hs
  refine ⟨st, s3, h0, ?_, fun hno => ?_⟩
  · exact ((Relation.ReflTransGen.single ⟨_, trivial, exec_step h1⟩).tail
      ⟨_, trivial, exec_step h2⟩).tail ⟨_, trivial, exec_step h3⟩
  · have hd := hno.2 ⟨0xffffffff80204000, 0x1000⟩ (by simp [hl])
      ⟨0xffffffff80200000, 0xffffffff80200000, 0xffffffff80204000⟩ (by simp [hp])
      0xffffffff80200000 ⟨[], rfl, by simp, by simp⟩
    rw [hz] at hd
    have hin : 0xffffffff80204000 ∈ Set.Ico (Live.seg ⟨0xffffffff80204000, 0x1000⟩).lo
        (Live.seg ⟨0xffffffff80204000, 0x1000⟩).hi := by
      simp only [Live.seg, Seg.hi, Set.mem_Ico]
      decide
    exact Set.disjoint_left.mp hd hin (by simp)

/-- A page taken from the first pool. Its buddy is on the list, and the block can be released. -/
lemma twoPools_taken : ∃ st s, pageAllocInit (fun _ => 0) 0xffffffff80200000
    [⟨0x100000, 0x7000⟩] = .ok st ∧ Runs FreeOk ⟨st, []⟩ s ∧
    s.live = [⟨0xffffffff80200000, 0x1000⟩] ∧
    s.st.pools = [⟨0xffffffff80201000, 0xffffffff80200000, 0xffffffff80204000⟩,
      ⟨0xffffffff80204000, 0xffffffff80204000, 0xffffffff80206000⟩] ∧
    FreeOk s (.free 0xffffffff80200000 0x1000) ∧
    ∃ s', exec 9 s (.free 0xffffffff80200000 0x1000) = .ok s' ∧ s'.live = [] := by
  have hrun : (twoPools.bind fun st => (exec 9 ⟨st, []⟩ (.alloc 0x1000)).bind fun s1 =>
      (exec 9 s1 (.free 0xffffffff80200000 0x1000)).map fun s2 =>
        (s1.live, s1.st.pools, size s1.st.mem 0xffffffff80201000, s2.live)) =
      .ok ([⟨0xffffffff80200000, 0x1000⟩],
        [⟨0xffffffff80201000, 0xffffffff80200000, 0xffffffff80204000⟩,
         ⟨0xffffffff80204000, 0xffffffff80204000, 0xffffffff80206000⟩], 0x1000, []) := by
    decide
  obtain ⟨st, h0, hrun⟩ := exists_of_bind hrun
  obtain ⟨s1, h1, hrun⟩ := exists_of_bind hrun
  obtain ⟨s2, h2, hs⟩ := exists_of_map hrun
  simp only [Prod.mk.injEq] at hs
  obtain ⟨hl1, hp, hz, hl⟩ := hs
  have hbud : buddy 0xffffffff80200000 0xffffffff80200000 (blockSize 0x1000) =
      0xffffffff80201000 := by decide
  have hok : FreeOk s1 (.free 0xffffffff80200000 0x1000) := by
    refine ⟨by rw [hp]; simp, ?_⟩
    rw [hp]
    intro p hpp h1 h2
    simp only [List.mem_cons, List.not_mem_nil, or_false] at hpp
    rcases hpp with rfl | rfl
    · intro _
      simp only [hbud, hz]
      decide
    · simp at h1
  exact ⟨st, s1, h0, Relation.ReflTransGen.single ⟨.alloc 0x1000, trivial, exec_step h1⟩, hl1, hp, hok,
    s2, h2, hl⟩

/-- Splitting a page off the first pool and giving it back is a run that meets `FreeOk`. -/
theorem live_disjoint_twoPools : ∃ st s, pageAllocInit (fun _ => 0) 0xffffffff80200000
    [⟨0x100000, 0x7000⟩] = .ok st ∧ Runs FreeOk ⟨st, []⟩ s ∧ s.live = [] ∧ NoOverlap s := by
  obtain ⟨st, s, h0, hr, -, -, hok, s', hs', hl⟩ := twoPools_taken
  have hr' : Runs FreeOk ⟨st, []⟩ s' := hr.tail ⟨_, hok, exec_step hs'⟩
  exact ⟨st, s', h0, hr', hl, live_disjoint twoPools_map h0 hr'⟩

end Silkware.PageRuns
