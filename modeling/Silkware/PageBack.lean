import Silkware.PageStep

/-!
One call of `page_free`: where the bytes of the block go, and which headers the call touches.

A block belongs to the pool whose address range holds it, but the test for that lets the end
address of a pool through, which is where the next pool starts. The end of a pool is also the
address of the buddy of a block that is the whole pool.
-/

namespace Silkware.PageBack

open Silkware.Bits Silkware.ByteMem Silkware.Header Silkware.Kern Silkware.Links Silkware.Outcome
open Silkware.PageAlloc Silkware.PageAllocInv Silkware.PageRuns Silkware.PageStep Silkware.Segments

variable {m m' : Mem} {p p' : Pool} {ps : List Pool} {fr : List (List ℕ)} {l l' : List ℕ}
  {page fuel b k : ℕ}

/-! ### The walk returns -/

/-- Below the end of the pool the walk stops at the end at the latest, and before it would use its
null pointer. -/
lemma freeWalk_total (h : Chain (next m) b l p.end_) (hpage : page < p.end_)
    (hf : l.length < fuel) : ∃ r, freeWalk m p page 0 fuel b = .ok r := by
  induction l generalizing fuel b with
  | nil =>
    obtain rfl : b = p.end_ := h
    obtain ⟨fuel, rfl⟩ : ∃ n, fuel = n + 1 := ⟨fuel - 1, by simp at hf; omega⟩
    rw [freeWalk]
    by_cases hb : p.end_ = getBuddy m page p.base
    · rw [if_pos hb]
      exact ⟨_, rfl⟩
    · rw [if_neg hb, if_pos hpage, if_pos rfl]
      exact ⟨_, rfl⟩
  | cons c l ih =>
    obtain ⟨rfl, h2⟩ := h
    simp only [List.length_cons] at hf
    obtain ⟨fuel, rfl⟩ : ∃ n, fuel = n + 1 := ⟨fuel - 1, by omega⟩
    rw [freeWalk]
    by_cases hb : b = getBuddy m page p.base
    · rw [if_pos hb]
      exact ⟨_, rfl⟩
    · rw [if_neg hb]
      by_cases hlt : page < b
      · rw [if_pos hlt, if_pos rfl]
        exact ⟨_, rfl⟩
      · rw [if_neg hlt, if_neg (by omega)]
        exact ih h2 (by omega)

lemma freeLoop_total (h : List.Forall₂ (PoolOk m) ps fr) (hne : ∀ p ∈ ps, page ≠ p.end_)
    (hin : ∃ p ∈ ps, p.base ≤ page ∧ page < p.end_) (hf : ∀ l ∈ fr, l.length < fuel) :
    ∃ r, freeLoop fuel m page ps = .ok r := by
  induction h with
  | nil => simp at hin
  | @cons p l ps fr hpl h ih =>
    rw [freeLoop]
    split
    · rename_i hout
      obtain ⟨q, hq, h1, h2⟩ := hin
      have hqs : q ∈ ps := by
        rcases List.mem_cons.mp hq with rfl | hq
        · omega
        · exact hq
      obtain ⟨⟨m', ps'⟩, hr⟩ := ih (fun q hq => hne q (by simp [hq])) ⟨q, hqs, h1, h2⟩
        fun l' hl' => hf l' (by simp [hl'])
      simp only [hr, bind, Except.bind]
      exact ⟨_, rfl⟩
    · obtain ⟨-, -, -, hch, -⟩ := hpl
      have hlt : page < p.end_ := by
        have := hne p (by simp)
        omega
      obtain ⟨⟨m', p'⟩, hr⟩ := freeWalk_total hch hlt (hf l (by simp))
      simp only [hr, bind, Except.bind]
      exact ⟨_, rfl⟩

/-- A release writes in headers of the list of the pool, and in that of the block. -/
lemma freeWalk_writes (h : Chain (next m) b l p.end_) (hpage : page < p.end_)
    (hr : freeWalk m p page 0 fuel b = .ok (m', p')) {x : ℕ}
    (hx : ∀ c ∈ page :: l, x < c ∨ c + 16 ≤ x) : m' x = m x := by
  have hxp := hx page (by simp)
  induction l generalizing fuel b with
  | nil =>
    obtain rfl : b = p.end_ := h
    cases fuel with
    | zero => cases hr
    | succ fuel =>
      rw [freeWalk] at hr
      by_cases hb : p.end_ = getBuddy m page p.base
      · rw [if_pos hb] at hr
        simp only [merge, if_pos hpage, ne_eq, not_true_eq_false, if_false] at hr
        cases hr
        rw [setNext_out (by omega), setSize_out (by omega)]
      · rw [if_neg hb, if_pos hpage, if_pos rfl] at hr
        cases hr
        exact setNext_out (by omega)
  | cons c l ih =>
    obtain ⟨rfl, h2⟩ := h
    have hxb := hx b (by simp)
    cases fuel with
    | zero => cases hr
    | succ fuel =>
      rw [freeWalk] at hr
      by_cases hb : b = getBuddy m page p.base
      · rw [if_pos hb] at hr
        simp only [merge, ne_eq, not_true_eq_false, if_false] at hr
        cases hr
        split <;> rw [setNext_out (by omega), setSize_out (by omega)]
      · rw [if_neg hb] at hr
        by_cases hlt : page < b
        · rw [if_pos hlt, if_pos rfl] at hr
          cases hr
          exact setNext_out (by omega)
        · rw [if_neg hlt, if_neg (by omega)] at hr
          refine ih h2 hr fun c hc => hx c ?_
          simp only [List.mem_cons] at hc ⊢
          tauto

lemma pageFree_writes {s st : State} {sz : ℕ} (h : List.Forall₂ (PoolOk s.mem) s.pools fr)
    (hd : ∀ y ∈ fr.flatten, SameHdr s.mem (setSize s.mem page (blockSize sz)) y)
    (hne : ∀ p ∈ s.pools, page ≠ p.end_) (hr : pageFree fuel s page sz = .ok st) {x : ℕ}
    (hx : ∀ c ∈ page :: fr.flatten, x < c ∨ c + 16 ≤ x) : st.mem x = s.mem x := by
  obtain ⟨⟨m', ps'⟩, hloop, hr⟩ := exists_of_bind hr
  cases hr
  obtain ⟨A, p, p', B, hps, -, -, hle, hw⟩ := freeLoop_pools hloop
  have h' := forall2_hdr h hd
  rw [hps] at h'
  obtain ⟨FA, l, FB, rfl, -, hp, -⟩ := forall2_middle h'
  obtain ⟨-, -, -, hch, -⟩ := hp
  have hpe := hne p (by simp [hps])
  have hxp := hx page (by simp)
  refine (freeWalk_writes hch (by omega) hw fun c hc => hx c ?_).trans (setSize_out (by omega))
  rcases List.mem_cons.mp hc with rfl | hc
  · simp
  · simp [hc]

/-! ### The bytes of the pool -/

/-- The releases that lose no other block: where the walk meets the block's buddy, it is the first
block of the list. -/
def FirstOk (s : Sys) : Op → Prop
  | .free page sz => ∀ p ∈ s.st.pools, p.base ≤ page → page < p.end_ →
      Visited (next s.st.mem) (fun x => page < x ∧ x ≠ buddy p.base page (blockSize sz)) p.start
        (buddy p.base page (blockSize sz)) → p.start = buddy p.base page (blockSize sz)
  | _ => True

lemma mem_poolBytes (h : PoolOk m p l) (a : ℕ) :
    a ∈ poolBytes m p ↔ ∃ b ∈ l, b ≤ a ∧ a < b + size m b := by
  constructor
  · rintro ⟨b, hb, h1, h2⟩
    exact ⟨b, (onList_iff h).mp hb, h1, h2⟩
  · rintro ⟨b, hb, h1, h2⟩
    exact ⟨b, (onList_iff h).mpr hb, h1, h2⟩

/-- The buddy is the first block of the list if the walk that joins it meets it there. -/
lemma join_first {l1 l2 : List ℕ} {n : ℕ} (h : Chain (next m) p.start (l1 ++ buddy p.base page n :: l2) p.end_)
    (hnd : (l1 ++ buddy p.base page n :: l2).Nodup) (hle : ∀ x ∈ l1, x ≤ page)
    (hfirst : Visited (next m) (fun x => page < x ∧ x ≠ buddy p.base page n) p.start
      (buddy p.base page n) → p.start = buddy p.base page n) : l1 = [] := by
  obtain ⟨c, hc, rfl, -⟩ := chain_append.mp h
  have hstart := hfirst ⟨l1, hc, fun x hx => by have := hle x hx; omega, by simp⟩
  cases l1 with
  | nil => rfl
  | cons d l1 =>
    obtain ⟨hd, -⟩ := hc
    rw [← hd, hstart] at hnd
    exact absurd (List.nodup_cons.mp hnd).1 (by simp)

/-- The bytes of the block are added to those of its pool. -/
lemma freed_bytes {base : ℕ} (h : PoolOk m p l) (h' : PoolOk m' p' l') (hbase : base = p.base)
    (hpk : Packed (l.map (seg m))) (hq : ∃ q, page = base + q * 2 ^ k)
    (hf : Freed m m' p page k l l')
    (hfirst : Visited (next m) (fun x => page < x ∧ x ≠ buddy p.base page (2 ^ k)) p.start
      (buddy p.base page (2 ^ k)) → p.start = buddy p.base page (2 ^ k)) :
    poolBytes m' p' = poolBytes m p ∪ Set.Ico page (page + 2 ^ k) := by
  subst hbase
  ext a
  rw [Set.mem_union, mem_poolBytes h, mem_poolBytes h', Set.mem_Ico]
  obtain ⟨-, -, -, hch, hbl⟩ := h
  cases hf with
  | front hne hs hsz =>
    simp only [List.mem_cons]
    constructor
    · rintro ⟨b, rfl | hb, h1, h2⟩
      · exact Or.inr ⟨h1, by rwa [hs] at h2⟩
      · exact Or.inl ⟨b, hb, h1, by rwa [hsz b hb] at h2⟩
    · rintro (⟨b, hb, h1, h2⟩ | ⟨h1, h2⟩)
      · exact ⟨b, Or.inr hb, h1, by rwa [hsz b hb]⟩
      · exact ⟨page, Or.inl rfl, h1, by rwa [hs]⟩
  | @join l1 l2 lo hl hle hb hlo hs hsz =>
    subst hl
    have hnd := hpk.nodup fun x hx => by
      have := (hbl x hx).facts
      simp only [seg]
      omega
    obtain rfl := join_first hch hnd hle hfirst
    obtain ⟨q, hq⟩ := hq
    -- the two halves of the block that is made
    have hhalf : a ∈ Set.Ico lo (lo + 2 ^ (k + 1)) ↔ a ∈ Set.Ico page (page + 2 ^ k) ∨
        a ∈ Set.Ico (buddy p.base page (2 ^ k)) (buddy p.base page (2 ^ k) + 2 ^ k) := by
      have hpow : 2 ^ (k + 1) = 2 ^ k + 2 ^ k := by ring
      simp only [Set.mem_Ico]
      rcases buddy_cases hq with ⟨e, -⟩ | ⟨e, -⟩ <;> omega
    simp only [Set.mem_Ico] at hhalf
    simp only [List.mem_cons, List.nil_append]
    constructor
    · rintro ⟨b, rfl | hb', h1, h2⟩
      · rw [hs] at h2
        rcases hhalf.mp ⟨h1, h2⟩ with h3 | ⟨h3, h4⟩
        · exact Or.inr h3
        · exact Or.inl ⟨_, Or.inl rfl, h3, by rwa [hb]⟩
      · exact Or.inl ⟨b, Or.inr hb', h1, by rwa [hsz b hb'] at h2⟩
    · rintro (⟨b, rfl | hb', h1, h2⟩ | h1)
      · rw [hb] at h2
        obtain ⟨h3, h4⟩ := hhalf.mpr (Or.inr ⟨h1, h2⟩)
        exact ⟨lo, Or.inl rfl, h3, by rwa [hs]⟩
      · exact ⟨b, Or.inr hb', h1, by rwa [hsz b hb']⟩
      · obtain ⟨h3, h4⟩ := hhalf.mpr (Or.inl h1)
        exact ⟨lo, Or.inl rfl, h3, by rwa [hs]⟩

lemma forall2_mem {α β : Type*} {R : α → β → Prop} {A : List α} {L : List β}
    (h : List.Forall₂ R A L) {a : α} (ha : a ∈ A) : ∃ b ∈ L, R a b := by
  induction h with
  | nil => cases ha
  | cons h1 _ ih =>
    rcases List.mem_cons.mp ha with rfl | ha
    · exact ⟨_, by simp, h1⟩
    · obtain ⟨b, hb, h2⟩ := ih ha
      exact ⟨b, by simp [hb], h2⟩

/-- The list of a pool is the same when the headers on it are. -/
lemma onList_congr (h : PoolOk m p l) (hd : ∀ x ∈ l, SameHdr m m' x) (b : ℕ) :
    (OnList m' p b ↔ OnList m p b) ∧ (OnList m p b → SameHdr m m' b) := by
  rw [onList_iff h, onList_iff (h.frame hd)]
  exact ⟨Iff.rfl, hd b⟩

/-- A block in use lies in one of the pools. -/
lemma live_pool {s : Sys} (h : Inv s fr) {x : Live} (hx : x ∈ s.live) :
    ∃ p ∈ s.st.pools, p.base ≤ x.addr ∧ x.addr < p.end_ := by
  obtain ⟨-, -, hlv, -⟩ := h
  obtain ⟨e, he, hblk⟩ := hlv x hx
  obtain ⟨p, hp, rfl⟩ := List.mem_map.mp he
  have := hblk.facts
  simp only [extent] at this
  exact ⟨p, hp, by omega, by omega⟩

/-- **A block goes back to its pool.** In a state reached by releases that meet `FreeOk`, the
release of a block returns, adds the bytes of the block to the free bytes of the pool it is in, and
leaves every other pool and its list as they were. -/
theorem page_free_returns {m₀ : Mem} {endPos : ℕ} {memmap : List MemmapEntry} {st : State} {s : Sys}
    {page sz : ℕ} (hm : MapOk endPos memmap) (hi : pageAllocInit m₀ endPos memmap = .ok st)
    (hr : Runs FreeOk ⟨st, []⟩ s) (hl : ⟨page, sz⟩ ∈ s.live) (hok : FreeOk s (.free page sz))
    (hfirst : FirstOk s (.free page sz)) :
    ∃ fuel₀, ∀ fuel ≥ fuel₀, ∃ st' A p p' B, pageFree fuel s.st page sz = .ok st' ∧
      s.st.pools = A ++ p :: B ∧ st'.pools = A ++ p' :: B ∧
      p.base ≤ page ∧ page + blockSize sz ≤ p.end_ ∧
      poolBytes st'.mem p' = poolBytes s.st.mem p ∪ Set.Ico page (page + blockSize sz) ∧
      ∀ q ∈ A ++ B, ∀ b, (OnList st'.mem q b ↔ OnList s.st.mem q b) ∧
        (OnList s.st.mem q b → SameHdr s.st.mem st'.mem b) := by
  obtain ⟨fr₀, h₀⟩ := init_inv hm hi
  obtain ⟨fr, h⟩ := runs_inv h₀ hr
  have hin := live_pool h hl
  have hpools := h.pools
  refine ⟨fr.flatten.length + 1, fun fuel hfuel => ?_⟩
  have hlen : ∀ l ∈ fr, l.length < fuel := fun l hl => by
    have := (List.sublist_flatten_of_mem hl).length_le
    omega
  obtain ⟨⟨m', ps'⟩, hloop⟩ := freeLoop_total (forall2_hdr hpools (live_hdr h hl)) hok.1 hin hlen
  have hret : pageFree fuel s.st page sz = .ok ⟨m', ps'⟩ := by
    rw [pageFree, hloop]
    rfl
  obtain ⟨k, A, p, p', B, FA, l, l', FB, hsz, hR, -⟩ := free_release h hl hok hret
  have hpm : p ∈ s.st.pools := by simp [hR.pools]
  have hblk := h.block hl hpm hR.lo hR.hi
  obtain ⟨k', q, -, hk', hq, hend⟩ := hblk
  obtain rfl : k = k' := Nat.pow_right_injective (le_refl 2) (hsz.symm.trans hk')
  have hpk : Packed (l.map (seg s.st.mem)) := by
    have := (List.pairwise_append.mp h.packed).1
    rw [hR.lists] at this
    exact packed_list this
  refine ⟨⟨m', ps'⟩, A, p, p', B, hret, hR.pools, hR.pools', hR.lo, hend, ?_, fun r hr b => ?_⟩
  · rw [hsz]
    refine freed_bytes hR.here hR.here' rfl hpk ⟨q, hq⟩ hR.freed ?_
    have := hfirst p hpm hR.lo hR.hi
    rwa [hsz] at this
  · rcases List.mem_append.mp hr with hr | hr
    · obtain ⟨lr, hlr, hok⟩ := forall2_mem hR.left hr
      exact onList_congr hok (fun x hx => hR.hdrs x (by
        simp only [List.mem_append, List.mem_flatten]; exact Or.inl ⟨lr, hlr, hx⟩)) b
    · obtain ⟨lr, hlr, hok⟩ := forall2_mem hR.right hr
      exact onList_congr hok (fun x hx => hR.hdrs x (by
        simp only [List.mem_append, List.mem_flatten]; exact Or.inr ⟨lr, hlr, hx⟩)) b

/-- A page of the first pool, whose buddy is the first block of the list. -/
theorem page_free_returns_twoPools : ∃ st s, pageAllocInit (fun _ => 0) 0xffffffff80200000
    [⟨0x100000, 0x7000⟩] = .ok st ∧ Runs FreeOk ⟨st, []⟩ s ∧
    ⟨0xffffffff80200000, 0x1000⟩ ∈ s.live ∧ FreeOk s (.free 0xffffffff80200000 0x1000) ∧
    FirstOk s (.free 0xffffffff80200000 0x1000) ∧
    ∃ fuel₀, ∀ fuel ≥ fuel₀, ∃ st', pageFree fuel s.st 0xffffffff80200000 0x1000 = .ok st' := by
  obtain ⟨st, s, h0, hr, hl, hp, hok, -⟩ := twoPools_taken
  have hmem : ⟨0xffffffff80200000, 0x1000⟩ ∈ s.live := by simp [hl]
  have hbud : buddy 0xffffffff80200000 0xffffffff80200000 (blockSize 0x1000) =
      0xffffffff80201000 := by decide
  have hfirst : FirstOk s (.free 0xffffffff80200000 0x1000) := by
    intro p hpp h1 h2 _
    rw [hp] at hpp
    simp only [List.mem_cons, List.not_mem_nil, or_false] at hpp
    rcases hpp with rfl | rfl
    · exact hbud.symm
    · simp at h1
  obtain ⟨fuel₀, hf⟩ := page_free_returns twoPools_map h0 hr hmem hok hfirst
  refine ⟨st, s, h0, hr, hmem, hok, hfirst, fuel₀, fun fuel hfuel => ?_⟩
  obtain ⟨st', -, -, -, -, h, -⟩ := hf fuel hfuel
  exact ⟨st', h⟩

/-- Where a pool has no free block, the block at its end address is taken for one of its own, and
the walk ends with the null pointer. -/
lemma pageFree_fault {s : State} {sz : ℕ} (hp : s.pools = p :: ps) (hpage : page = p.end_)
    (hs : p.start = p.end_) (hb : p.base ≤ page)
    (hbud : page ≠ getBuddy (setSize s.mem page (blockSize sz)) page p.base) :
    pageFree (fuel + 1) s page sz = .error .fault := by
  subst hpage
  rw [pageFree, hp, freeLoop, if_neg (by omega), freeWalk, hs, if_neg hbud, if_neg (by omega), if_pos rfl, if_pos rfl]
  rfl

/-- Both pools are taken whole and the second is given back: `page_free` looks for it in the
first. -/
theorem boundary_fault : ∃ st s, pageAllocInit (fun _ => 0) 0xffffffff80200000
    [⟨0x100000, 0x7000⟩] = .ok st ∧ Runs (fun _ _ => True) ⟨st, []⟩ s ∧
    ⟨0xffffffff80204000, 0x2000⟩ ∈ s.live ∧
    ∀ fuel, pageFree (fuel + 1) s.st 0xffffffff80204000 0x2000 = .error .fault := by
  have hrun : (twoPools.bind fun st => (exec 9 ⟨st, []⟩ (.alloc 0x4000)).bind fun s1 =>
      (exec 9 s1 (.alloc 0x2000)).map fun s2 => (s2.live, s2.st.pools)) =
      .ok ([⟨0xffffffff80204000, 0x2000⟩, ⟨0xffffffff80200000, 0x4000⟩],
        [⟨0xffffffff80204000, 0xffffffff80200000, 0xffffffff80204000⟩,
         ⟨0xffffffff80206000, 0xffffffff80204000, 0xffffffff80206000⟩]) := by
    decide
  obtain ⟨st, h0, hrun⟩ := exists_of_bind hrun
  obtain ⟨s1, h1, hrun⟩ := exists_of_bind hrun
  obtain ⟨s2, h2, hs⟩ := exists_of_map hrun
  obtain ⟨hl, hp⟩ := Prod.mk.inj hs
  refine ⟨st, s2, h0, ?_, by simp [hl], fun fuel => ?_⟩
  · exact (Relation.ReflTransGen.single ⟨_, trivial, exec_step h1⟩).tail ⟨_, trivial, exec_step h2⟩
  · have hsz : blockSize 0x2000 = 0x2000 := by decide
    have hs : size (setSize s2.st.mem 0xffffffff80204000 (blockSize 0x2000)) 0xffffffff80204000 =
        0x2000 := by
      rw [hsz]
      exact size_setSize (by decide)
    have hbud : (0xffffffff80204000 : ℕ) ≠ getBuddy (setSize s2.st.mem 0xffffffff80204000
        (blockSize 0x2000)) 0xffffffff80204000 0xffffffff80200000 := by
      rw [getBuddy, hs]
      decide
    exact pageFree_fault hp rfl rfl (by decide) hbud

/-! ### The headers a release touches -/

/-- The blocks whose headers the walk reads or writes, in order. Each round reads the size of the
page for `get_buddy`. -/
def freeWalkLog (m : Mem) (p : Pool) (page : ℕ) : ℕ → ℕ → List ℕ
  | 0, _ => []
  | fuel + 1, b =>
    page ::
      -- the two halves are the page and `b`
      if b = getBuddy m page p.base then [b]
      else if page < b then []
      -- `prev->next`, through the null pointer
      else if b = p.end_ then [0]
      else b :: freeWalkLog m p page fuel (next m b)

def freeLoopLog (fuel : ℕ) (m : Mem) (page : ℕ) : List Pool → List ℕ
  | [] => []
  | p :: ps =>
    if page < p.base ∨ p.end_ < page then freeLoopLog fuel m page ps
    else freeWalkLog m p page fuel p.start

/-- The blocks whose headers `page_free` reads or writes. -/
def pageFreeLog (fuel : ℕ) (s : State) (page sz : ℕ) : List ℕ :=
  page :: freeLoopLog fuel (setSize s.mem page (blockSize sz)) page s.pools

/-- Addresses that are in no header of the log. -/
def Off (log : List ℕ) (x : ℕ) : Prop := ∀ a ∈ log, x < a ∨ a + 16 ≤ x

lemma freeWalkLog_writes (hr : freeWalk m p page 0 fuel b = .ok (m', p')) {x : ℕ}
    (hx : Off (freeWalkLog m p page fuel b) x) : m' x = m x := by
  induction fuel generalizing b with
  | zero => cases hr
  | succ fuel ih =>
    rw [freeWalk] at hr
    rw [freeWalkLog] at hx
    have hpage := hx page (by simp)
    by_cases hb : b = getBuddy m page p.base
    · rw [if_pos hb] at hr hx
      have hbx := hx b (by simp)
      simp only [merge, ne_eq, not_true_eq_false, if_false] at hr
      cases hr
      split <;> rw [setNext_out (by omega), setSize_out (by omega)]
    · rw [if_neg hb] at hr hx
      by_cases hlt : page < b
      · rw [if_pos hlt, if_pos rfl] at hr
        cases hr
        exact setNext_out (by omega)
      · rw [if_neg hlt] at hr hx
        by_cases he : b = p.end_
        · rw [if_pos he, if_pos rfl] at hr
          cases hr
        · rw [if_neg he] at hr hx
          exact ih hr fun a ha => hx a (by simp [ha])

lemma freeLoopLog_writes {ps' : List Pool} (hr : freeLoop fuel m page ps = .ok (m', ps')) {x : ℕ}
    (hx : Off (freeLoopLog fuel m page ps) x) : m' x = m x := by
  induction ps generalizing ps' with
  | nil => cases hr
  | cons p ps ih =>
    rw [freeLoop] at hr
    rw [freeLoopLog] at hx
    split at hr
    · rename_i hout
      rw [if_pos hout] at hx
      obtain ⟨⟨m1, ps1⟩, hrec, hr⟩ := exists_of_bind hr
      cases hr
      exact ih hrec hx
    · rename_i hin
      rw [if_neg hin] at hx
      obtain ⟨⟨m1, p1⟩, hw, hr⟩ := exists_of_bind hr
      cases hr
      exact freeWalkLog_writes hw hx

/-- The call writes only in headers of the log. -/
theorem pageFreeLog_writes {s st : State} {sz : ℕ} (hr : pageFree fuel s page sz = .ok st) {x : ℕ}
    (hx : Off (pageFreeLog fuel s page sz) x) : st.mem x = s.mem x := by
  obtain ⟨⟨m', ps'⟩, hloop, hr⟩ := exists_of_bind hr
  cases hr
  have hpage := hx page (by simp [pageFreeLog])
  refine (freeLoopLog_writes hloop fun a ha => hx a (by simp [pageFreeLog, ha])).trans ?_
  exact setSize_out (by omega)

lemma freeWalkLog_reads {m₂ : Mem} (hpage : SameHdr m m₂ page)
    (hd : ∀ a ∈ freeWalkLog m p page fuel b, SameHdr m m₂ a) :
    (freeWalk m₂ p page 0 fuel b).map Prod.snd = (freeWalk m p page 0 fuel b).map Prod.snd := by
  induction fuel generalizing b with
  | zero => rfl
  | succ fuel ih =>
    have hbud : getBuddy m₂ page p.base = getBuddy m page p.base := by
      rw [getBuddy, getBuddy, hpage.size]
    rw [freeWalkLog] at hd
    rw [freeWalk, freeWalk, hbud]
    by_cases hb : b = getBuddy m page p.base
    · rw [if_pos hb, if_pos hb]
      simp [merge, Except.map, pure, Except.pure]
    · rw [if_neg hb] at hd
      rw [if_neg hb, if_neg hb]
      by_cases hlt : page < b
      · rw [if_pos hlt, if_pos hlt]
        simp [Except.map, pure, Except.pure]
      · rw [if_neg hlt] at hd
        rw [if_neg hlt, if_neg hlt]
        by_cases he : b = p.end_
        · rw [if_pos he, if_pos he]
          simp
        · rw [if_neg he] at hd
          rw [if_neg he, if_neg he, (hd b (by simp)).next]
          exact ih fun a ha => hd a (by simp [ha])

lemma freeLoopLog_reads {m₂ : Mem} (hpage : SameHdr m m₂ page)
    (hd : ∀ a ∈ freeLoopLog fuel m page ps, SameHdr m m₂ a) :
    (freeLoop fuel m₂ page ps).map Prod.snd = (freeLoop fuel m page ps).map Prod.snd := by
  induction ps with
  | nil => rfl
  | cons p ps ih =>
    rw [freeLoopLog] at hd
    rw [freeLoop, freeLoop]
    split
    · rename_i hout
      rw [if_pos hout] at hd
      have := ih hd
      revert this
      cases freeLoop fuel m₂ page ps <;> cases freeLoop fuel m page ps <;>
        simp [Except.map, bind, Except.bind, pure, Except.pure]
    · rename_i hin
      rw [if_neg hin] at hd
      have := freeWalkLog_reads hpage hd
      revert this
      cases freeWalk m₂ p page 0 fuel p.start <;> cases freeWalk m p page 0 fuel p.start <;>
        simp [Except.map, bind, Except.bind, pure, Except.pure]

/-- The call reads only headers of the log: other memory makes no difference to what it does with
the pools, or to whether it returns. -/
theorem pageFreeLog_reads {s : State} {m₂ : Mem} {sz : ℕ}
    (hd : ∀ a ∈ pageFreeLog fuel s page sz, SameHdr s.mem m₂ a) :
    (pageFree fuel ⟨m₂, s.pools⟩ page sz).map State.pools =
      (pageFree fuel s page sz).map State.pools := by
  -- writing the size of the block leaves the headers equal
  have hset : ∀ a ∈ pageFreeLog fuel s page sz,
      SameHdr (setSize s.mem page (blockSize sz)) (setSize m₂ page (blockSize sz)) a := by
    intro a ha x h1 h2
    rw [setSize, setSize, wr, wr]
    split
    · rfl
    · exact hd a ha x h1 h2
  have hlog : ∀ a ∈ freeLoopLog fuel (setSize s.mem page (blockSize sz)) page s.pools,
      SameHdr (setSize s.mem page (blockSize sz)) (setSize m₂ page (blockSize sz)) a :=
    fun a ha => hset a (by simp [pageFreeLog, ha])
  have hloop := freeLoopLog_reads (hset page (by simp [pageFreeLog])) hlog
  rw [pageFree, pageFree]
  revert hloop
  cases freeLoop fuel (setSize m₂ page (blockSize sz)) page s.pools <;>
    cases freeLoop fuel (setSize s.mem page (blockSize sz)) page s.pools <;>
    simp [Except.map, bind, Except.bind, pure, Except.pure]

/-! ### Inside the pool -/

lemma mem_freeWalkLog (h : Chain (next m) b l p.end_) (hpage : page < p.end_) {a : ℕ}
    (ha : a ∈ freeWalkLog m p page fuel b) :
    a = page ∨ a ∈ l ∨ a = p.end_ ∧ getBuddy m page p.base = p.end_ := by
  induction l generalizing fuel b with
  | nil =>
    obtain rfl : b = p.end_ := h
    cases fuel with
    | zero => cases ha
    | succ fuel =>
      rw [freeWalkLog] at ha
      by_cases hb : p.end_ = getBuddy m page p.base
      · rw [if_pos hb] at ha
        simp only [List.mem_cons, List.not_mem_nil, or_false] at ha
        exact ha.imp_right fun ha => Or.inr ⟨ha, hb.symm⟩
      · rw [if_neg hb, if_pos hpage] at ha
        exact Or.inl (by simpa using ha)
  | cons c l ih =>
    obtain ⟨rfl, h2⟩ := h
    cases fuel with
    | zero => cases ha
    | succ fuel =>
      rw [freeWalkLog] at ha
      rcases List.mem_cons.mp ha with rfl | ha
      · exact Or.inl rfl
      by_cases hb : b = getBuddy m page p.base
      · rw [if_pos hb] at ha
        exact Or.inr (Or.inl (by simp_all))
      · rw [if_neg hb] at ha
        by_cases hlt : page < b
        · rw [if_pos hlt] at ha
          cases ha
        · rw [if_neg hlt, if_neg (by omega)] at ha
          rcases List.mem_cons.mp ha with rfl | ha
          · exact Or.inr (Or.inl (by simp))
          · rcases ih h2 ha with ha | ha | ha
            · exact Or.inl ha
            · exact Or.inr (Or.inl (by simp [ha]))
            · exact Or.inr (Or.inr ha)

/-- Only the block that is the whole pool has its buddy at the end of the pool. -/
lemma buddy_end {base end_ q K : ℕ} (hq : page = base + q * 2 ^ k) (hend : page + 2 ^ k ≤ end_)
    (hK : end_ = base + 2 ^ K) : buddy base page (2 ^ k) = end_ ↔ 2 ^ k = end_ - base := by
  have hpos := Nat.two_pow_pos k
  constructor
  · intro he
    rcases buddy_cases hq with ⟨e, r, hr⟩ | ⟨e, -⟩
    · have hsum : (2 * r + 1) * 2 ^ k = 2 ^ K := by
        have : r * 2 ^ (k + 1) = 2 * r * 2 ^ k := by ring
        rw [Nat.add_mul, Nat.one_mul]
        omega
      have hle : k ≤ K := by
        have : 2 ^ k ≤ 2 ^ K := by omega
        exact (Nat.pow_le_pow_iff_right (by omega)).mp this
      -- an odd factor of a power of two is one
      rcases Nat.lt_or_ge k K with hlt | hge
      · obtain ⟨d, rfl⟩ := Nat.exists_eq_add_of_lt hlt
        have : 2 * r + 1 = 2 * 2 ^ d := by
          refine Nat.eq_of_mul_eq_mul_right hpos (hsum.trans ?_)
          ring
        omega
      · obtain rfl : k = K := by omega
        omega
    · omega
  · intro he
    have hq0 : q * 2 ^ k = 0 := by omega
    have hpb : page = base := by omega
    rw [buddy, hpb, Nat.sub_self, Nat.zero_xor, he]
    omega

/-- The loop walks the list of the pool that the block is in. -/
lemma freeLoopLog_pool (ho : (ps.map extent).Pairwise fun p q => p.2 ≤ q.1)
    (hbe : ∀ q ∈ ps, q.base ≤ q.end_) (hp : p ∈ ps) (h1 : p.base ≤ page) (h2 : page < p.end_)
    (hne : ∀ q ∈ ps, page ≠ q.end_) :
    freeLoopLog fuel m page ps = freeWalkLog m p page fuel p.start := by
  induction ps with
  | nil => cases hp
  | cons q ps ih =>
    obtain ⟨hq, ho⟩ := List.pairwise_cons.mp ho
    rw [freeLoopLog]
    rcases List.mem_cons.mp hp with rfl | hp
    · rw [if_neg (by omega)]
    · have := hq _ (List.mem_map_of_mem hp)
      have := hne q (by simp)
      simp only [extent] at *
      rw [if_pos (by omega)]
      exact ih ho (fun r hr => hbe r (by simp [hr])) hp fun r hr => hne r (by simp [hr])

/-- **A release stays in its pool unless it is the whole pool.** In a state reached by releases that
meet `FreeOk`, and for a block in use that does not start where some pool ends, `page_free` touches
only headers inside the block's pool exactly if the block is not the whole pool. -/
theorem page_free_inside {m₀ : Mem} {endPos : ℕ} {memmap : List MemmapEntry} {st : State} {s : Sys}
    {page sz : ℕ} {p : Pool} (hm : MapOk endPos memmap)
    (hi : pageAllocInit m₀ endPos memmap = .ok st) (hr : Runs FreeOk ⟨st, []⟩ s)
    (hl : ⟨page, sz⟩ ∈ s.live) (hp : p ∈ s.st.pools) (h1 : p.base ≤ page) (h2 : page < p.end_)
    (hne : ∀ q ∈ s.st.pools, page ≠ q.end_) :
    ∃ fuel₀, ∀ fuel ≥ fuel₀,
      ((∀ a ∈ pageFreeLog fuel s.st page sz, p.base ≤ a ∧ a + 16 ≤ p.end_) ↔
        blockSize sz ≠ p.end_ - p.base) := by
  obtain ⟨fr₀, h₀⟩ := init_inv hm hi
  obtain ⟨fr, h⟩ := runs_inv h₀ hr
  have hblk := h.block hl hp h1 h2
  obtain ⟨k, q, hk, hsz, hq, hend⟩ := hblk
  simp only at hsz hq hend
  obtain ⟨l, hpl, hsub, hall⟩ := pool_list h.pools h.order hp
  have hdl : ∀ x ∈ l, SameHdr s.st.mem (setSize s.st.mem page (blockSize sz)) x := fun x hx =>
    live_hdr h hl x (hsub.subset hx)
  obtain ⟨hpos, htop, ⟨K, hK⟩, hch, hbl⟩ := hpl.frame hdl
  have h12 : 2 ^ 12 ≤ 2 ^ k := Nat.pow_le_pow_right (by omega) hk
  have hsize : size (setSize s.st.mem page (blockSize sz)) page = 2 ^ k := by
    rw [size_setSize (by omega), hsz]
  have hbe : ∀ r ∈ s.st.pools, r.base ≤ r.end_ := fun r hr => by
    obtain ⟨lr, -, -, -, ⟨j, hj⟩, -⟩ := forall2_mem h.pools hr
    rw [hj]
    exact Nat.le_add_right _ _
  have hbud : getBuddy (setSize s.st.mem page (blockSize sz)) page p.base =
      buddy p.base page (2 ^ k) := by
    rw [getBuddy, hsize]
    refine Nat.mod_eq_of_lt ?_
    rcases buddy_cases hq with ⟨e, -⟩ | ⟨e, -⟩ <;> unfold buddy at e <;> omega
  have hiff := buddy_end hq (by omega) hK
  refine ⟨1, fun fuel hfuel => ?_⟩
  have hlog : pageFreeLog fuel s.st page sz =
      page :: freeWalkLog (setSize s.st.mem page (blockSize sz)) p page fuel p.start := by
    rw [pageFreeLog, freeLoopLog_pool h.order hbe hp h1 h2 hne]
  rw [hlog]
  constructor
  · -- the whole pool is in use, so its list is empty and the walk starts at the end
    intro hin hwhole
    have hnil : l = [] := by
      refine List.eq_nil_iff_forall_not_mem.mpr fun x hx => ?_
      have ha := (List.pairwise_append.mp h.packed).2.2 _ (List.mem_map_of_mem (hsub.subset hx)) _
        (List.mem_map_of_mem hl)
      have hx' := (hbl x hx).facts
      rw [(hdl x hx).size] at hx'
      simp only [Apart, Seg.hi, seg, Live.seg] at ha
      omega
    subst hnil
    have hstart : p.start = p.end_ := hch
    obtain ⟨fuel, rfl⟩ : ∃ n, fuel = n + 1 := ⟨fuel - 1, by omega⟩
    have hmem : p.end_ ∈ freeWalkLog (setSize s.st.mem page (blockSize sz)) p page (fuel + 1) p.start := by
      rw [freeWalkLog, hstart, hbud, hiff.mpr (by omega), if_pos rfl]
      simp
    have := hin p.end_ (List.mem_cons_of_mem _ hmem)
    omega
  · intro hnot a ha
    have hpage : p.base ≤ page ∧ page + 16 ≤ p.end_ := ⟨h1, by omega⟩
    rcases List.mem_cons.mp ha with rfl | ha
    · exact hpage
    · rcases mem_freeWalkLog hch h2 ha with rfl | ha | ⟨-, he⟩
      · exact hpage
      · have := (hbl a ha).facts
        exact ⟨this.1, by omega⟩
      · rw [hbud, hiff] at he
        omega

/-- A page of the first pool. -/
theorem page_free_inside_twoPools : ∃ st s, pageAllocInit (fun _ => 0) 0xffffffff80200000
    [⟨0x100000, 0x7000⟩] = .ok st ∧ Runs FreeOk ⟨st, []⟩ s ∧
    ⟨0xffffffff80200000, 0x1000⟩ ∈ s.live ∧ ∃ fuel₀, ∀ fuel ≥ fuel₀,
      ∀ a ∈ pageFreeLog fuel s.st 0xffffffff80200000 0x1000,
        0xffffffff80200000 ≤ a ∧ a + 16 ≤ 0xffffffff80204000 := by
  obtain ⟨st, s, h0, hr, hl, hp, hok, -⟩ := twoPools_taken
  have hmem : ⟨0xffffffff80200000, 0x1000⟩ ∈ s.live := by simp [hl]
  have hpm : ⟨0xffffffff80201000, 0xffffffff80200000, 0xffffffff80204000⟩ ∈ s.st.pools := by
    rw [hp]
    simp
  obtain ⟨fuel₀, hf⟩ := page_free_inside twoPools_map h0 hr hmem hpm (by simp) (by simp) hok.1
  refine ⟨st, s, h0, hr, hmem, fuel₀, fun fuel hfuel => (hf fuel hfuel).mpr ?_⟩
  decide

/-- Both pools are taken whole, and the first is given back: the header at its end, which is that
of the second, is read as the header of the buddy. -/
theorem whole_pool_outside : ∃ st s, pageAllocInit (fun _ => 0) 0xffffffff80200000
    [⟨0x100000, 0x7000⟩] = .ok st ∧ Runs (fun _ _ => True) ⟨st, []⟩ s ∧
    ⟨0xffffffff80200000, 0x4000⟩ ∈ s.live ∧
    s.st.pools.map extent = [(0xffffffff80200000, 0xffffffff80204000),
      (0xffffffff80204000, 0xffffffff80206000)] ∧
    0xffffffff80204000 ∈ pageFreeLog 9 s.st 0xffffffff80200000 0x4000 := by
  have hrun : (twoPools.bind fun st => (exec 9 ⟨st, []⟩ (.alloc 0x4000)).bind fun s1 =>
      (exec 9 s1 (.alloc 0x2000)).map fun s2 =>
        (s2.live, s2.st.pools.map extent, pageFreeLog 9 s2.st 0xffffffff80200000 0x4000)) =
      .ok ([⟨0xffffffff80204000, 0x2000⟩, ⟨0xffffffff80200000, 0x4000⟩],
        [(0xffffffff80200000, 0xffffffff80204000), (0xffffffff80204000, 0xffffffff80206000)],
        [0xffffffff80200000, 0xffffffff80200000, 0xffffffff80204000]) := by
    decide +kernel
  obtain ⟨st, h0, hrun⟩ := exists_of_bind hrun
  obtain ⟨s1, h1, hrun⟩ := exists_of_bind hrun
  obtain ⟨s2, h2, hs⟩ := exists_of_map hrun
  simp only [Prod.mk.injEq] at hs
  obtain ⟨hl, hp, hlog⟩ := hs
  refine ⟨st, s2, h0, ?_, by simp [hl], hp, by simp [hlog]⟩
  exact (Relation.ReflTransGen.single ⟨_, trivial, exec_step h1⟩).tail ⟨_, trivial, exec_step h2⟩

end Silkware.PageBack
