import Silkware.KallocRuns
import Silkware.PageStep

/-!
How much an allocation gives.

`kalloc` rounds a request up to 16 bytes and adds two headers, `page_alloc` rounds up to a power of
two and then to a page, all in 64-bit arithmetic. From some size on a sum or the power of two wraps,
and a call returns less than it was asked for.
-/

namespace Silkware.AllocSizes

open Silkware.ByteMem Silkware.Header Silkware.Kern Silkware.Outcome Silkware.Segments
open Silkware.Kalloc Silkware.KallocInv

/-! ### `page_alloc` -/

section

open Silkware.PageAlloc Silkware.PageAllocInv Silkware.PageRuns Silkware.PageStep

/-- The free lists hold blocks in their places that do not overlap. -/
def PagesOk (s : PageAlloc.State) : Prop :=
  ∃ fr, List.Forall₂ (PoolOk s.mem) s.pools fr ∧ Packed (fr.flatten.map (seg s.mem))

/-- `page_alloc(n)` panics or returns a block of at least `n` bytes, which were all free. -/
def PageEnough (n : ℕ) : Prop :=
  ∀ s, PagesOk s → ∃ fuel₀, ∀ fuel ≥ fuel₀, OrStops .panic (pageAlloc fuel s n) fun r =>
    n ≤ size r.1.mem r.2 ∧ Set.Ico r.2 (r.2 + n) ⊆ freeBytes s

lemma blockSize_le {n : ℕ} (h : n ≤ 2 ^ 63) : n ≤ blockSize n := by
  rcases Nat.eq_zero_or_pos n with rfl | h0
  · exact Nat.zero_le _
  · obtain ⟨k, -, e, hle⟩ := nextPow2_eq h0 h
    rw [blockSize, e]
    split <;> omega

/-- What the power of two wraps to is below a page. -/
lemma blockSize_large {n : ℕ} (h0 : 2 ^ 63 < n) (h : n < 2 ^ 64) : blockSize n = 0x1000 := by
  rw [blockSize, nextPow2_large h0 h]
  rfl

lemma pageEnough_of_le {n : ℕ} (hn : n ≤ 2 ^ 63) : PageEnough n := by
  rintro s ⟨fr, hp, hpk⟩
  obtain ⟨fuel₀, hf⟩ := pageAlloc_total hp n (by omega)
  refine ⟨fuel₀, fun fuel hfuel => ?_⟩
  rcases (hf fuel hfuel).2 with ⟨⟨s', res⟩, hr⟩ | ⟨hr, -⟩
  · obtain ⟨A, l1, l2, B, j, k, hsz, hres, e⟩ := pageAlloc_eff hp hpk (by omega) hr
    have hle := blockSize_le hn
    refine Or.inr ⟨_, hr, by rw [hres, ← hsz]; exact hle, fun x hx => ?_⟩
    have hjk : 2 ^ j ≤ 2 ^ k := Nat.pow_le_pow_right (by omega) e.le
    refine (mem_freeBytes hp x).mpr ⟨res, e.mem_old.mpr (Or.inl rfl), hx.1, ?_⟩
    rw [e.size_eq]
    exact lt_of_lt_of_le hx.2 (by omega)
  · exact Or.inl hr

/-- A fresh pool gives a page to a request for more than half of the address space. -/
lemma not_pageEnough {n : ℕ} (h0 : 2 ^ 63 < n) (h : n < 2 ^ 64) : ¬ PageEnough n := by
  intro hn
  obtain ⟨s, -, ⟨fr, hs⟩, p, hp, b, hb, hle⟩ := twoPools_fresh
  obtain ⟨fuel₀, hf⟩ := pageAlloc_total hs.pools n h
  obtain ⟨fuel₁, hf₁⟩ := hn s ⟨fr, hs.pools, hs.packed⟩
  have hbs := blockSize_large h0 h
  have hcall := hf₁ (max fuel₀ fuel₁) (by omega)
  rcases (hf (max fuel₀ fuel₁) (by omega)).2 with ⟨⟨s', res⟩, hr⟩ | ⟨-, hsmall⟩
  · obtain ⟨A, l1, l2, B, j, k, hsz, hres, -⟩ := pageAlloc_eff hs.pools hs.packed h hr
    have := (hcall.of_ok hr).1
    simp only [hres, ← hsz, hbs] at this
    omega
  · have := hsmall b ((onList_flatten hs.pools b).mp ⟨p, hp, hb⟩)
    omega

end

/-! ### `kalloc` -/

section

open Silkware.KallocRuns

/-- `page` answers as `page_alloc` does: it panics, or gives a region of the size it reserves. -/
def Answers (regs : List Seg) (page : ℕ → Except Stop ℕ) : Prop :=
  ∀ r < 2 ^ 64, OrStops .panic (page r) fun lo => Grant regs r ⟨lo, PageAlloc.blockSize r⟩

/-- A `page_alloc` that has one region left, for requests of `req` bytes. -/
def oneRegion (req lo : ℕ) (r : ℕ) : Except Stop ℕ := if r = req then .ok lo else .error .panic

lemma oneRegion_answers {regs : List Seg} {req lo : ℕ}
    (h : Grant regs req ⟨lo, PageAlloc.blockSize req⟩) : Answers regs (oneRegion req lo) := by
  intro r _
  rw [oneRegion]
  by_cases he : r = req
  · rw [if_pos he, he]
    exact Or.inr ⟨lo, rfl, h⟩
  · rw [if_neg he]
    exact Or.inl rfl

/-- The regions of the heap after a call that asked for `req`. -/
def granted (page : ℕ → Except Stop ℕ) (regs : List Seg) : Option ℕ → List Seg
  | none => regs
  | some r =>
    match page r with
    | .ok lo => ⟨lo, PageAlloc.blockSize r⟩ :: regs
    | .error _ => regs

/-- `kalloc(n)` panics or returns a block of at least `n` bytes inside the memory of the heap. -/
def KallocEnough (n : ℕ) : Prop :=
  ∀ s, KallocRuns.Inv s → ∀ cpu page, Answers s.regs page → ∃ fuel₀, ∀ fuel ≥ fuel₀,
    OrStops .panic (kalloc page fuel s.st cpu n) fun r =>
      n ≤ size r.1.mem (hdr r.2.1) ∧ Covered (granted page s.regs r.2.2) ⟨r.2.1, n⟩

/-- `page_alloc` is asked once at most. -/
lemma kalloc_congr {page page' : ℕ → Except Stop ℕ} {n : ℕ}
    (h : page ((alignUp n + 32) % 2 ^ 64) = page' ((alignUp n + 32) % 2 ^ 64)) (fuel : ℕ)
    (s : Kalloc.State) (cpu : ℕ) : kalloc page fuel s cpu n = kalloc page' fuel s cpu n := by
  have e : hdrSize * 2 = 32 := rfl
  simp only [kalloc, e, h]

/-- A call of `kalloc`, whatever `page_alloc` answers. -/
lemma kalloc_call {s : Kalloc.State} {fr : ℕ → List ℕ} {own : List ℕ} {regs : List Seg}
    {page : ℕ → Except Stop ℕ} {fuel cpu n : ℕ} (h : Heap s.mem s.start fr own regs)
    (hn : n ≤ 2 ^ 63 - 32) (hp : Answers regs page) (hfuel : (fr cpu).length < fuel) :
    OrStops .panic (kalloc page fuel s cpu n) fun r =>
      ∃ b l', Gave s r.1 cpu n fr own (granted page regs r.2.2) r.2.1 r.2.2 b l' := by
  obtain ⟨-, -, -, hlt⟩ := alignUp_spec hn
  have hmod : (alignUp n + 32) % 2 ^ 64 = alignUp n + 32 := Nat.mod_eq_of_lt (by omega)
  obtain ⟨r, hf⟩ := findBlock_total (alignUp n) 0 (h.chain cpu) hfuel
  cases r with
  | some pc =>
    obtain ⟨prev, cur⟩ := pc
    -- nothing is asked, so any region will do
    have hk : ∀ page, kalloc page fuel s cpu n =
        .ok (splitBlock s cpu (alignUp n) prev cur, dataAt cur 0, none) := by
      intro page
      simp only [kalloc, hf, bind, Except.bind]
      rfl
    obtain ⟨b, l', hg, -⟩ := h.kalloc (g := ⟨0, 0⟩) hn (fun r hr => by cases hr) (hk _)
    exact Or.inr ⟨_, hk page, b, l', hg⟩
  | none =>
    rcases hp (alignUp n + 32) (by omega) with hpr | ⟨lo, hpr, hgr⟩
    · refine Or.inl ?_
      have e : hdrSize * 2 = 32 := rfl
      simp only [kalloc, hf, bind, Except.bind, e, hmod, hpr]
    · have e : kalloc page fuel s cpu n = kalloc (fun _ => .ok lo) fuel s cpu n :=
        kalloc_congr (by rw [hmod]; exact hpr) fuel s cpu
      obtain ⟨⟨st, ptr, req⟩, hr⟩ := h.kalloc_total hn hgr hfuel
      have hreq : req = some (alignUp n + 32) := by
        rw [kalloc_new hn hf] at hr
        obtain ⟨st', -, hr⟩ := exists_of_map hr
        exact (Prod.mk.inj (Prod.mk.inj hr).2).2.symm
      subst hreq
      obtain ⟨b, l', hg, -⟩ := h.kalloc hn (fun r hr => Option.some.inj hr ▸ hgr) hr
      refine Or.inr ⟨_, e.trans hr, b, l', ?_⟩
      rw [granted, hpr]
      exact hg

lemma kallocEnough_of_le {n : ℕ} (hn : n ≤ 2 ^ 63 - 32) : KallocEnough n := by
  rintro s ⟨fr, own, -, hh, -⟩ cpu page hp
  refine ⟨(fr cpu).length + 1, fun fuel hfuel => (kalloc_call hh hn hp hfuel).mono ?_⟩
  rintro ⟨st, ptr, req⟩ ⟨b, l', hg⟩
  have hb : Here (Function.update fr cpu l') (b :: own) b := Or.inl (by simp)
  have htop := hg.heap.bounds hb
  have hle := (alignUp_spec hn).2.1
  have hsz := hg.size
  have hptr := hg.ptr
  simp only at hsz hptr htop ⊢
  rw [hptr, hdr_add (by omega)]
  refine ⟨by omega, fun x h1 h2 => hg.heap.cov b hb x ?_ ?_⟩
  · simp only [blk] at h1 ⊢
    omega
  · simp only [Seg.hi, blk] at h2 ⊢
    omega

/-- From `2 ^ 63 - 31` on the request is for one page. -/
lemma request_large {n : ℕ} (h0 : 2 ^ 63 - 32 < n) (h : n < 2 ^ 64) :
    PageAlloc.blockSize ((alignUp n + 32) % 2 ^ 64) = 0x1000 := by
  have hcases : 2 ^ 63 < (alignUp n + 32) % 2 ^ 64 ∨ (alignUp n + 32) % 2 ^ 64 = 0 ∨
      (alignUp n + 32) % 2 ^ 64 = 16 ∨ (alignUp n + 32) % 2 ^ 64 = 32 := by
    unfold alignUp
    omega
  rcases hcases with hc | hc | hc | hc
  · exact blockSize_large hc (Nat.mod_lt _ (by omega))
  · rw [hc]; decide
  · rw [hc]; decide
  · rw [hc]; decide

/-- With an empty list `kalloc` takes a region and returns its first payload. -/
lemma kalloc_first {s : Kalloc.State} {lo n req : ℕ} (page : ℕ → Except Stop ℕ) (cpu : ℕ)
    (h0 : s.start cpu = 0) (hr : (alignUp n + 32) % 2 ^ 64 = req) (hp : page req = .ok lo)
    (fuel : ℕ) : ∃ st, kalloc page (fuel + 1) s cpu n = .ok (st, dataAt lo 0, some req) := by
  have hf : findBlock s.mem (alignUp n) (fuel + 1) 0 (s.start cpu) = .ok none := by
    rw [findBlock, if_pos h0]
    rfl
  obtain ⟨m, hm⟩ : ∃ m, setSize (setNext (setSize s.mem lo (alignUp n)) lo (canary lo))
    (dataAt lo (alignUp n)) (sub64 (PageAlloc.nextPow2 req) (alignUp n + 32)) = m := ⟨_, rfl⟩
  obtain ⟨st, hst⟩ : ∃ st, insertBlock (fuel + 1) ⟨m, s.start⟩ cpu (dataAt lo (alignUp n)) = .ok st := by
    rw [insertBlock]
    exact ⟨_, if_pos h0⟩
  have e : hdrSize * 2 = 32 := rfl
  refine ⟨st, ?_⟩
  simp only [kalloc, hf, bind, Except.bind, e, hr, hp, hm, hst]
  rfl

lemma not_kallocEnough {n : ℕ} (h0 : 2 ^ 63 - 32 < n) (h : n < 2 ^ 64) : ¬ KallocEnough n := by
  intro hn
  have hans : Answers [] fun _ => .ok 0x100000 := by
    intro r hr
    obtain ⟨k, -, hk, e⟩ := PageAllocInv.blockSize_eq hr
    have hle : 2 ^ k ≤ 2 ^ 63 := Nat.pow_le_pow_right (by omega) hk
    refine Or.inr ⟨_, rfl, by norm_num, le_refl _, nofun, by norm_num, ?_⟩
    simp only [Seg.hi, e]
    omega
  obtain ⟨fuel₀, hf⟩ := hn (init fun _ => 0) (Inv.init _) 0 _ hans
  obtain ⟨st, hst⟩ := kalloc_first (s := (init fun _ => 0).st) (n := n) (fun _ => .ok 0x100000) 0
    rfl rfl rfl fuel₀
  obtain ⟨-, hcov⟩ := (hf (fuel₀ + 1) (by omega)).of_ok hst
  -- the first byte behind the page
  have e : dataAt 0x100000 0 = 0x100010 := by decide
  simp only [e] at hcov
  obtain ⟨g, hg, h1, h2⟩ := hcov 0x101000 (by simp only; omega) (by simp only [Seg.hi]; omega)
  simp only [granted, init, List.mem_singleton, request_large h0 h] at hg
  rw [hg, Seg.hi] at h2
  simp only at h2
  omega

end

/-- **How much an allocation gives.** `page_alloc` gives what it is asked for exactly up to
`2 ^ 63` bytes, `kalloc` exactly up to `2 ^ 63 - 32`. -/
theorem alloc_enough {n : ℕ} (h : n < 2 ^ 64) :
    (PageEnough n ↔ n ≤ 2 ^ 63) ∧ (KallocEnough n ↔ n ≤ 2 ^ 63 - 32) := by
  refine ⟨⟨fun hn => ?_, pageEnough_of_le⟩, ⟨fun hn => ?_, kallocEnough_of_le⟩⟩
  · by_contra hlt
    exact not_pageEnough (by omega) h hn
  · by_contra hlt
    exact not_kallocEnough (by omega) h hn

theorem alloc_enough_page : PageEnough 0x1000 ∧ KallocEnough 0x1000 :=
  ⟨(alloc_enough (n := 0x1000) (by decide)).1.mpr (by decide),
    (alloc_enough (n := 0x1000) (by decide)).2.mpr (by decide)⟩

/-- A request for `2 ^ 63 + 1` bytes is given a page, and one for `2 ^ 64 - 1` bytes a heap block
of size zero. -/
theorem huge_requests : ∃ s s' res st, PageAlloc.pageAllocInit (fun _ => 0) 0xffffffff80200000
    [⟨0x100000, 0x7000⟩] = .ok s ∧ PageAlloc.pageAlloc 9 s (2 ^ 63 + 1) = .ok (s', res) ∧
    size s'.mem res = 0x1000 ∧ ¬ PageEnough (2 ^ 63 + 1) ∧
    kalloc (fun _ => .ok 0x100000) 9 (KallocRuns.init fun _ => 0).st 0 (2 ^ 64 - 1) =
      .ok (st, 0x100010, some 32) ∧
    size st.mem (KallocRuns.hdr 0x100010) = 0 ∧ ¬ KallocEnough (2 ^ 64 - 1) := by
  have hpage : (PageRuns.twoPools.bind fun s => (PageAlloc.pageAlloc 9 s (2 ^ 63 + 1)).map
      fun r => size r.1.mem r.2) = .ok 0x1000 := by
    decide
  have hheap : (kalloc (fun _ => .ok 0x100000) 9 (KallocRuns.init fun _ => 0).st 0 (2 ^ 64 - 1)).map
      (fun r => (r.2, size r.1.mem (KallocRuns.hdr 0x100010))) = .ok ((0x100010, some 32), 0) := by
    decide
  obtain ⟨s, h0, h⟩ := exists_of_bind hpage
  obtain ⟨⟨s', res⟩, h1, hz⟩ := exists_of_map h
  obtain ⟨⟨st, r⟩, h2, h⟩ := exists_of_map hheap
  obtain ⟨hr, hs⟩ := Prod.mk.inj h
  exact ⟨s, s', res, st, h0, h1, hz, not_pageEnough (by omega) (by omega), by rw [h2, ← hr], hs,
    not_kallocEnough (by omega) (by omega)⟩

end Silkware.AllocSizes
