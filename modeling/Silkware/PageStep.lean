import Mathlib.Order.SetNotation
import Silkware.PageRuns

/-!
One call of `page_alloc`: what it returns, what is free after it, and that it ends.

`page_alloc` itself keeps the free lists in address order. The call that finds nothing stops in
`panic`; `pageAllocAt` also tells in which state.
-/

namespace Silkware.PageStep

open Silkware.Bits Silkware.ByteMem Silkware.Header Silkware.Kern Silkware.Links Silkware.Outcome
open Silkware.PageAlloc Silkware.PageAllocInv Silkware.PageRuns Silkware.Segments

/-! ### The state a call stops in -/

/-- `allocLoop` with the memory and the pools at the point where it stops. A call that hangs has
no last state; the one given for it is where the search stood. -/
def allocLoopAt (fuel : ℕ) (m : Mem) (sz : ℕ) :
    List Pool → Except (Stop × Mem × List Pool) (Mem × List Pool × ℕ)
  | [] => .error (.panic, m, [])
  | p :: ps =>
    match findFit m sz p.end_ fuel 0 p.start with
    | .error e => .error (e, m, p :: ps)
    | .ok (some (prev, b)) =>
      match split m b sz p.base with
      | .error e => .error (e, m, p :: ps)
      | .ok m => .ok ((unlink m p prev b).1, (unlink m p prev b).2 :: ps, b)
    | .ok none =>
      match allocLoopAt fuel m sz ps with
      | .error (e, m, ps) => .error (e, m, p :: ps)
      | .ok (m, ps, res) => .ok (m, p :: ps, res)

/-- `page_alloc`, with the state at the point where it stops. -/
def pageAllocAt (fuel : ℕ) (s : State) (sz : ℕ) : Except (Stop × State) (State × ℕ) :=
  match allocLoopAt fuel s.mem (blockSize sz) s.pools with
  | .error (e, m, ps) => .error (e, ⟨m, ps⟩)
  | .ok (m, ps, res) => .ok (⟨m, ps⟩, res)

lemma allocLoopAt_fst (fuel : ℕ) (m : Mem) (sz : ℕ) (ps : List Pool) :
    (allocLoopAt fuel m sz ps).mapError Prod.fst = allocLoop fuel m sz ps := by
  induction ps with
  | nil => rfl
  | cons p ps ih =>
    rw [allocLoopAt, allocLoop]
    cases findFit m sz p.end_ fuel 0 p.start with
    | error e => rfl
    | ok r =>
      cases r with
      | some r =>
        simp only [bind, Except.bind]
        cases split m r.2 sz p.base with
        | error e => rfl
        | ok m => rfl
      | none =>
        simp only [bind, Except.bind, ← ih]
        cases allocLoopAt fuel m sz ps with
        | error e => rfl
        | ok r => rfl

/-- The two agree but for the state. -/
lemma pageAllocAt_fst (fuel : ℕ) (s : State) (sz : ℕ) :
    (pageAllocAt fuel s sz).mapError Prod.fst = pageAlloc fuel s sz := by
  rw [pageAllocAt, pageAlloc, ← allocLoopAt_fst]
  cases allocLoopAt fuel s.mem (blockSize sz) s.pools with
  | error e => rfl
  | ok r => rfl

/-- The search writes nothing. -/
lemma allocLoopAt_panic {fuel sz : ℕ} {m : Mem} {ps : List Pool} {fr : List (List ℕ)}
    (h : List.Forall₂ (PoolOk m) ps fr) (hf : ∀ l ∈ fr, l.length < fuel)
    (hsmall : ∀ x ∈ fr.flatten, size m x < sz) :
    allocLoopAt fuel m sz ps = .error (.panic, m, ps) := by
  induction h with
  | nil => rfl
  | @cons p l ps fr hpl h ih =>
    obtain ⟨-, -, -, hch, hbl⟩ := hpl
    have hlt : ∀ x ∈ l, x < p.end_ := fun x hx => by have := (hbl x hx).facts; omega
    have hnone : findFit m sz p.end_ fuel 0 p.start = .ok none := by
      rcases findFit_total sz 0 hch hlt (hf l (by simp)) with ⟨r, hr⟩ | ⟨hr, -⟩
      · obtain ⟨l1, c, l2, rfl, hle, -⟩ := (findFit_spec hch hlt hr).resolve_left (by simp)
        have := hsmall c (by simp)
        omega
      · exact hr
    have hrec := ih (fun l' hl' => hf l' (by simp [hl'])) fun x hx => hsmall x (by
      rw [List.flatten_cons]; exact List.mem_append_right _ hx)
    rw [allocLoopAt, hnone, hrec]

/-! ### Free bytes -/

/-- The bytes of the blocks on the free list of a pool. -/
def poolBytes (m : Mem) (p : Pool) : Set ℕ :=
  {a | ∃ b, OnList m p b ∧ a ∈ Set.Ico b (b + size m b)}

/-- The bytes of all blocks on free lists. -/
def freeBytes (s : State) : Set ℕ := {a | ∃ p ∈ s.pools, a ∈ poolBytes s.mem p}

lemma onList_flatten {m : Mem} {ps : List Pool} {fr : List (List ℕ)}
    (h : List.Forall₂ (PoolOk m) ps fr) (b : ℕ) : (∃ p ∈ ps, OnList m p b) ↔ b ∈ fr.flatten := by
  induction h with
  | nil => simp
  | @cons p l ps fr hp h ih =>
    rw [List.flatten_cons, List.mem_append, ← ih, ← onList_iff hp]
    simp

lemma mem_freeBytes {s : State} {fr : List (List ℕ)} (h : List.Forall₂ (PoolOk s.mem) s.pools fr)
    (a : ℕ) : a ∈ freeBytes s ↔ ∃ b ∈ fr.flatten, b ≤ a ∧ a < b + size s.mem b := by
  constructor
  · rintro ⟨p, hp, b, hb, h1, h2⟩
    exact ⟨b, (onList_flatten h b).mp ⟨p, hp, hb⟩, h1, h2⟩
  · rintro ⟨b, hb, h1, h2⟩
    obtain ⟨p, hp, hb⟩ := (onList_flatten h b).mpr hb
    exact ⟨p, hp, b, hb, h1, h2⟩

/-! ### Allocator states in address order -/

/-- The lists `fr` are the free lists of the pools: every pool has a power-of-two size of at least
a page, its list is ascending and ends at its end, and the free blocks are in their places and do
not overlap. -/
structure Sorted (s : State) (fr : List (List ℕ)) : Prop where
  pools : List.Forall₂ (PoolOk s.mem) s.pools fr
  big : ∀ p ∈ s.pools, ∃ k, 12 ≤ k ∧ p.end_ = p.base + 2 ^ k
  asc : ∀ l ∈ fr, l.Pairwise (· < ·)
  packed : Packed (fr.flatten.map (seg s.mem))

/-- A state as `page_alloc` expects it. -/
def Buddy (s : State) : Prop := ∃ fr, Sorted s fr

lemma pieces_asc (b j k : ℕ) : (pieces b j k).Pairwise (· < ·) := by
  refine List.pairwise_map.mpr ((List.pairwise_lt_range' 1).imp fun {i i'} hi => ?_)
  have := two_pow_succ_le hi
  have := Nat.two_pow_pos i
  omega

/-- The pieces of a block stand between what was before it on the list and what was after it. -/
lemma cut_asc {m : Mem} {l1 l2 : List ℕ} {b j k : ℕ} (h : (l1 ++ b :: l2).Pairwise (· < ·))
    (hp : Packed ((l1 ++ b :: l2).map (seg m))) (hs : size m b = 2 ^ k) :
    (l1 ++ (pieces b j k ++ l2)).Pairwise (· < ·) := by
  obtain ⟨h1, h2, h12⟩ := List.pairwise_append.mp h
  obtain ⟨hb2, h2⟩ := List.pairwise_cons.mp h2
  refine List.pairwise_append.mpr ⟨h1, List.pairwise_append.mpr ⟨pieces_asc b j k, h2, ?_⟩, ?_⟩
  · intro x hx y hy
    obtain ⟨i, -, hik, rfl⟩ := mem_pieces.mp hx
    have hpow := two_pow_succ_le hik
    have hpos := Nat.two_pow_pos i
    have hlt := hb2 y hy
    have ha := hp.of_ne (a := b) (b := y) (by simp) (by simp [hy]) (by omega)
    simp only [Apart, Seg.hi, seg, hs] at ha
    omega
  · intro x hx y hy
    rcases List.mem_append.mp hy with hy | hy
    · obtain ⟨i, -, -, rfl⟩ := mem_pieces.mp hy
      have hpos := Nat.two_pow_pos i
      have := h12 x hx b (by simp)
      omega
    · exact h12 x hx y (by simp [hy])

lemma packed_list {m : Mem} {A B : List (List ℕ)} {l : List ℕ}
    (h : Packed ((A ++ l :: B).flatten.map (seg m))) : Packed (l.map (seg m)) := by
  rw [List.flatten_append, List.flatten_cons, List.map_append, List.map_append] at h
  exact (List.pairwise_append.mp (List.pairwise_append.mp h).2.1).1

lemma big_of_extent {ps ps' : List Pool} (h : ∀ p ∈ ps, ∃ k, 12 ≤ k ∧ p.end_ = p.base + 2 ^ k)
    (he : ps'.map extent = ps.map extent) :
    ∀ p ∈ ps', ∃ k, 12 ≤ k ∧ p.end_ = p.base + 2 ^ k := by
  intro p hp
  have hmem : extent p ∈ ps.map extent := by rw [← he]; exact List.mem_map_of_mem hp
  obtain ⟨q, hq, e⟩ := List.mem_map.mp hmem
  obtain ⟨k, hk, hend⟩ := h q hq
  simp only [extent, Prod.mk.injEq] at e
  exact ⟨k, hk, by rw [← e.1, ← e.2]; exact hend⟩

lemma Sorted.alloc {s : State} {fr A B : List (List ℕ)} {l1 l2 : List ℕ} {m' : Mem}
    {ps' : List Pool} {b j k : ℕ} (h : Sorted s fr)
    (e : AllocEff s.mem s.pools fr j m' ps' b A l1 l2 B k) :
    Sorted ⟨m', ps'⟩ (A ++ (l1 ++ (pieces b j k ++ l2)) :: B) := by
  have hfr := e.eq
  have hpk := h.packed
  subst hfr
  refine ⟨e.pools, big_of_extent h.big e.ext, fun l hl => ?_, ?_⟩
  · rcases List.mem_append.mp hl with hl | hl
    · exact h.asc l (by simp [hl])
    · rcases List.mem_cons.mp hl with rfl | hl
      · exact cut_asc (h.asc _ (by simp)) (packed_list hpk) e.size_eq
      · exact h.asc l (by simp [hl])
  · have hAB : (A.flatten ++ B.flatten).map (seg m') = (A.flatten ++ B.flatten).map (seg s.mem) :=
      List.map_congr_left fun c hc => by
        rw [seg, seg, e.sizes c (by simp only [List.mem_append] at hc ⊢; tauto)]
    have hperm : Packed ((l1 ++ b :: l2).map (seg s.mem) ++
        (A.flatten ++ B.flatten).map (seg s.mem)) := by
      rw [← List.map_append]
      exact hpk.perm ((flatten_middle A B _).map _)
    have hcut := cut_packed hperm e.size_eq e.le
      (fun c hc => e.sizes c (by simp only [List.mem_append] at hc ⊢; tauto)) e.piece
    rw [← hAB, ← List.map_append] at hcut
    exact Packed.perm (List.pairwise_cons.mp hcut).2 ((flatten_middle A B _).map _).symm

/-- What is free afterwards is what was free, less the block that is returned. -/
lemma Sorted.alloc_bytes {s : State} {fr A B : List (List ℕ)} {l1 l2 : List ℕ} {m' : Mem}
    {ps' : List Pool} {b j k : ℕ} (h : Sorted s fr)
    (e : AllocEff s.mem s.pools fr j m' ps' b A l1 l2 B k) :
    freeBytes ⟨m', ps'⟩ = freeBytes s \ Set.Ico b (b + 2 ^ j) := by
  have hb : b ∈ fr.flatten := e.mem_old.mpr (Or.inl rfl)
  have hnd : b ∉ A.flatten ++ (l1 ++ l2) ++ B.flatten := by
    have hperm : fr.flatten.Perm (b :: (l1 ++ l2 ++ (A.flatten ++ B.flatten))) := by
      rw [e.eq]
      exact (flatten_middle A B _).trans (List.perm_middle.append_right _)
    have hnodup : fr.flatten.Nodup := h.packed.nodup fun x hx => by
      obtain ⟨p, -, hx⟩ := exists_block h.pools hx
      have := hx.facts
      simp only [seg]
      omega
    have := (List.nodup_cons.mp (hperm.nodup hnodup)).1
    simp only [List.mem_append] at this ⊢
    tauto
  have hle : 2 ^ j ≤ 2 ^ k := Nat.pow_le_pow_right (by omega) e.le
  ext a
  rw [Set.mem_sdiff, mem_freeBytes e.pools, mem_freeBytes h.pools, Set.mem_Ico]
  constructor
  · rintro ⟨x, hx, h1, h2⟩
    simp only at h2
    rcases (mem_cut A B l1 l2 b j k x).mp hx with hx | hx
    · -- a piece lies in the block that was cut, above what is returned
      obtain ⟨i, hji, hik, rfl⟩ := mem_pieces.mp hx
      have hpow := two_pow_succ_le hik
      have hmono : 2 ^ j ≤ 2 ^ i := Nat.pow_le_pow_right (by omega) hji
      rw [e.piece i hji hik] at h2
      exact ⟨⟨b, hb, by omega, by rw [e.size_eq]; omega⟩, by omega⟩
    · rw [e.sizes x hx] at h2
      refine ⟨⟨x, e.mem_old.mpr (Or.inr hx), h1, h2⟩, fun h3 => ?_⟩
      have ha := h.packed.of_ne hb (e.mem_old.mpr (Or.inr hx)) (by rintro rfl; exact hnd hx)
      simp only [Apart, Seg.hi, seg, e.size_eq] at ha
      omega
  · rintro ⟨⟨x, hx, h1, h2⟩, h3⟩
    rcases e.mem_old.mp hx with rfl | hx
    · rw [e.size_eq] at h2
      obtain ⟨i, hji, hik, h4, h5⟩ := pieces_cover (j := j) h1 h2 (by omega)
      refine ⟨x + 2 ^ i, (mem_cut A B l1 l2 x j k _).mpr (Or.inl (mem_pieces.mpr ⟨i, hji, hik, rfl⟩)),
        h4, ?_⟩
      rw [e.piece i hji hik]
      exact h5
    · exact ⟨x, (mem_cut A B l1 l2 b j k x).mpr (Or.inr hx), h1, by rw [e.sizes x hx]; exact h2⟩

/-! ### The block that is returned -/

lemma splitLoop_size {m m' : Mem} {b sz base fuel : ℕ}
    (h : splitLoop m b sz base fuel = .ok m') : size m' b = sz := by
  induction fuel generalizing m with
  | zero => cases h
  | succ fuel ih =>
    rw [splitLoop] at h
    split at h
    · rename_i hs
      cases h
      exact hs
    · exact ih h

lemma unlink_size {m : Mem} {p : Pool} {prev b : ℕ} (h : prev = 0 ∨ prev + 16 ≤ b ∨ b ≤ prev) :
    size (unlink m p prev b).1 b = size m b := by
  unfold unlink
  split
  · exact size_setNext_sep (by omega)
  · rfl

/-- The header of the block that is returned has its size. -/
lemma allocLoop_size {m m' : Mem} {ps ps' : List Pool} {fr : List (List ℕ)} {fuel sz b : ℕ}
    (h : List.Forall₂ (PoolOk m) ps fr) (hp : Packed (fr.flatten.map (seg m)))
    (hr : allocLoop fuel m sz ps = .ok (m', ps', b)) : size m' b = sz := by
  induction h generalizing ps' with
  | nil => cases hr
  | @cons p l ps fr hpl h ih =>
    rw [List.flatten_cons, List.map_append, Packed, List.pairwise_append] at hp
    obtain ⟨-, htop, -, hch, hbl⟩ := hpl
    have hlt : ∀ x ∈ l, x < p.end_ := fun x hx => by have := (hbl x hx).facts; omega
    obtain ⟨r, hf, hr⟩ := exists_of_bind hr
    rcases findFit_spec hch hlt hf with rfl | ⟨l1, c, l2, rfl, -, rfl⟩
    · obtain ⟨⟨m1, ps1, b1⟩, hrec, hr⟩ := exists_of_bind hr
      cases hr
      exact ih hp.2.1 hrec
    · obtain ⟨m1, hsp, hr⟩ := exists_of_bind hr
      have hs1 : size m1 c = sz := by
        unfold split at hsp
        split at hsp
        · exact splitLoop_size hsp
        · cases hsp
      obtain ⟨rfl, rfl⟩ : m' = (unlink m1 p (prevOf 0 l1) c).1 ∧ b = c := by
        cases hr
        exact ⟨rfl, rfl⟩
      rw [unlink_size, hs1]
      -- the header before it on the list is another one
      rcases List.eq_nil_or_concat' l1 with rfl | ⟨l0, y, rfl⟩
      · exact Or.inl rfl
      · right
        rw [show prevOf 0 (l0 ++ [y]) = y by simp [prevOf]]
        have hy := (hbl y (by simp)).facts
        have hc := (hbl b (by simp)).facts
        have hp1 : Packed ((l0 ++ [y] ++ b :: l2).map (seg m)) := hp.1
        have hnd := hp1.nodup fun x hx => by
          have := (hbl x hx).facts
          simp only [seg]
          omega
        have hne : y ≠ b := (List.nodup_append.mp hnd).2.2 y (by simp) b (by simp)
        have ha := hp1.of_ne (a := y) (b := b) (by simp) (by simp) hne
        simp only [Apart, Seg.hi, seg] at ha
        omega

lemma pageAlloc_eff {s s' : State} {fr : List (List ℕ)} {fuel sz res : ℕ}
    (h : List.Forall₂ (PoolOk s.mem) s.pools fr) (hp : Packed (fr.flatten.map (seg s.mem)))
    (hlt : sz < 2 ^ 64) (hr : pageAlloc fuel s sz = .ok (s', res)) :
    ∃ A l1 l2 B j k, blockSize sz = 2 ^ j ∧ size s'.mem res = 2 ^ j ∧
      AllocEff s.mem s.pools fr j s'.mem s'.pools res A l1 l2 B k := by
  obtain ⟨j, hj, -, hsz⟩ := blockSize_eq hlt
  rw [pageAlloc, hsz] at hr
  obtain ⟨⟨m', ps', b⟩, hal, hr⟩ := exists_of_bind hr
  cases hr
  obtain ⟨A, l1, l2, B, k, e⟩ := allocLoop_spec hj h hp hal
  exact ⟨A, l1, l2, B, j, k, hsz, allocLoop_size h hp hal, e⟩

/-- With enough fuel the call returns, or panics because every free block is too small. -/
lemma pageAlloc_total {s : State} {fr : List (List ℕ)}
    (h : List.Forall₂ (PoolOk s.mem) s.pools fr) (sz : ℕ) (hlt : sz < 2 ^ 64) :
    ∃ fuel₀, ∀ fuel ≥ fuel₀, (∀ l ∈ fr, l.length < fuel) ∧
      ((∃ r, pageAlloc fuel s sz = .ok r) ∨
        pageAlloc fuel s sz = .error .panic ∧ ∀ x ∈ fr.flatten, size s.mem x < blockSize sz) := by
  obtain ⟨j, hj, -, hsz⟩ := blockSize_eq hlt
  refine ⟨fr.flatten.length + 1, fun fuel hfuel => ?_⟩
  have hf : ∀ l ∈ fr, l.length < fuel := fun l hl => by
    have := (List.sublist_flatten_of_mem hl).length_le
    omega
  refine ⟨hf, ?_⟩
  rw [pageAlloc, hsz]
  rcases allocLoop_total hj h hf with ⟨r, hr⟩ | ⟨hr, hsmall⟩
  · rw [hr]
    exact Or.inl ⟨_, rfl⟩
  · rw [hr]
    exact Or.inr ⟨rfl, hsmall⟩

/-- **One allocation.** From a sorted state `page_alloc` takes exactly the block it returns out of
the free bytes and leaves a sorted state; where no free block is large enough it panics, and the
pools are as they were. -/
theorem page_alloc_correct {s : State} {sz : ℕ} (h : Buddy s) (h0 : 0 < sz) (h1 : sz ≤ 2 ^ 63) :
    ∃ fuel₀, ∀ fuel ≥ fuel₀,
      ((∃ p ∈ s.pools, ∃ b, OnList s.mem p b ∧ max pageSize (nextPow2 sz) ≤ size s.mem b) →
        ∃ s' res, pageAlloc fuel s sz = .ok (s', res) ∧ Buddy s' ∧
          s'.pools.map extent = s.pools.map extent ∧
          size s'.mem res = max pageSize (nextPow2 sz) ∧
          (∃ p ∈ s.pools, ∃ q, res = p.base + q * max pageSize (nextPow2 sz) ∧
            res + max pageSize (nextPow2 sz) ≤ p.end_) ∧
          freeBytes s' = freeBytes s \ Set.Ico res (res + max pageSize (nextPow2 sz))) ∧
      ((∀ p ∈ s.pools, ∀ b, OnList s.mem p b → size s.mem b < max pageSize (nextPow2 sz)) →
        pageAllocAt fuel s sz = .error (.panic, s)) := by
  obtain ⟨fr, h⟩ := h
  have hmax : max pageSize (nextPow2 sz) = blockSize sz := by
    rw [blockSize]
    split <;> omega
  obtain ⟨fuel₀, hf⟩ := pageAlloc_total h.pools sz (by omega)
  rw [hmax]
  refine ⟨fuel₀, fun fuel hfuel => ⟨?_, fun hsmall => ?_⟩⟩
  · rintro ⟨p, hp, b, hb, hle⟩
    rcases (hf fuel hfuel).2 with ⟨⟨s', res⟩, hr⟩ | ⟨-, hsmall⟩
    · obtain ⟨A, l1, l2, B, j, k, hsz, hres, e⟩ := pageAlloc_eff h.pools h.packed (by omega) hr
      obtain ⟨p', hp', k', q, -, hk', hq, hend⟩ := e.block
      have hmem : extent p' ∈ s.pools.map extent := by
        rw [← e.ext]
        exact List.mem_map_of_mem hp'
      obtain ⟨p₀, hp₀, hext⟩ := List.mem_map.mp hmem
      simp only [extent, Prod.mk.injEq] at hext
      refine ⟨s', res, hr, ⟨_, h.alloc e⟩, e.ext, hres.trans hsz.symm,
        ⟨p₀, hp₀, q, by rw [hsz, hk', hext.1]; exact hq, by rw [hsz, hext.2]; exact hend⟩, ?_⟩
      rw [hsz]
      exact h.alloc_bytes e
    · have := hsmall b ((onList_flatten h.pools b).mp ⟨p, hp, hb⟩)
      omega
  · have hfr : ∀ x ∈ fr.flatten, size s.mem x < blockSize sz := by
      intro x hx
      obtain ⟨p, hp, hx⟩ := (onList_flatten h.pools x).mpr hx
      exact hsmall p hp x hx
    rw [pageAllocAt, allocLoopAt_panic h.pools (hf fuel hfuel).1 hfr]

lemma setup_sorted {t : Setup} {o : ℕ} (h : SetupOk t o) :
    Sorted ⟨t.mem, t.pools⟩ (t.pools.map fun p => [p.base]) := by
  obtain ⟨hp, -, -, hpk⟩ := h.inv
  refine ⟨hp, fun p hp => ?_, fun l hl => ?_, by simpa using hpk⟩
  · obtain ⟨-, -, -, -, k, hk, he, -⟩ := h.whole p hp
    exact ⟨k, hk, he⟩
  · obtain ⟨p, -, rfl⟩ := List.mem_map.mp hl
    exact List.pairwise_singleton _ _

/-- The two pools after the set-up, each one free block. -/
lemma twoPools_fresh : ∃ s, pageAllocInit (fun _ => 0) 0xffffffff80200000 [⟨0x100000, 0x7000⟩] = .ok s ∧
    Buddy s ∧ ∃ p ∈ s.pools, ∃ b, OnList s.mem p b ∧ 0x1000 ≤ size s.mem b := by
  have hrun : twoPools.map (fun s => (s.pools, size s.mem 0xffffffff80200000)) =
      .ok ([⟨0xffffffff80200000, 0xffffffff80200000, 0xffffffff80204000⟩,
        ⟨0xffffffff80204000, 0xffffffff80204000, 0xffffffff80206000⟩], 0x4000) := by
    decide
  obtain ⟨s, h0, hs⟩ := exists_of_map hrun
  obtain ⟨hp, hz⟩ := Prod.mk.inj hs
  obtain ⟨t, o, ht, e⟩ := init_setup twoPools_map h0
  exact ⟨s, h0, ⟨_, e ▸ setup_sorted ht⟩,
    ⟨0xffffffff80200000, 0xffffffff80200000, 0xffffffff80204000⟩, by simp [hp],
    0xffffffff80200000, ⟨[], rfl, by simp, by simp⟩, by rw [hz]; decide⟩

/-- The pools of the set-up, a page taken from them. -/
theorem page_alloc_correct_twoPools : ∃ s, pageAllocInit (fun _ => 0) 0xffffffff80200000
    [⟨0x100000, 0x7000⟩] = .ok s ∧ Buddy s ∧ ∃ fuel₀, ∀ fuel ≥ fuel₀, ∃ s' res,
      pageAlloc fuel s 0x1000 = .ok (s', res) ∧ Buddy s' ∧
        freeBytes s' = freeBytes s \ Set.Ico res (res + 0x1000) := by
  obtain ⟨s, h0, hb, hfit⟩ := twoPools_fresh
  have hmax : max pageSize (nextPow2 0x1000) = 0x1000 := by decide
  obtain ⟨fuel₀, hf⟩ := page_alloc_correct hb (show 0 < 0x1000 by decide) (by decide)
  refine ⟨s, h0, hb, fuel₀, fun fuel hfuel => ?_⟩
  have hrun := hf fuel hfuel
  rw [hmax] at hrun
  obtain ⟨s', res, h1, h2, -, -, -, h3⟩ := hrun.1 hfit
  exact ⟨s', res, h1, h2, h3⟩

/-! ### Termination of `split` -/

/-- The sizes `split` runs through from three pages on. Below 16 bytes the header of the second half
overlaps that of the first, and the size grows again. -/
def Spins (n : ℕ) : Prop :=
  (∃ j, 2 ≤ j ∧ j ≤ 47 ∧ n = 3 * 2 ^ j) ∨ n = 6 * 2 ^ 48 + 6 ∨ n = 3 * 2 ^ 48 + 3 ∨
    n = 3 * 2 ^ 47 + 1

/-- The memory after one round of `split` on the first block of a pool. -/
def halved (m : Mem) (b h : ℕ) : Mem :=
  setNext (setNext (setSize (setSize m b h) ((b + h) % 2 ^ 64) h) ((b + h) % 2 ^ 64) (next m b)) b
    ((b + h) % 2 ^ 64)

lemma splitLoop_halved {m : Mem} {b sz fuel : ℕ} (hne : size m b ≠ sz) :
    splitLoop m b sz b (fuel + 1) = splitLoop (halved m b (size m b >>> 1)) b sz b fuel := by
  have hlt : size m b >>> 1 < 2 ^ 64 := by
    have := rd_lt m b
    rw [Nat.shiftRight_one]
    unfold size
    omega
  rw [splitLoop, if_neg hne]
  simp only [getBuddy, size_setSize hlt, next_setSize, Nat.sub_self, Nat.zero_xor]
  rfl

lemma halved_size {m : Mem} {b h : ℕ} (h8 : 8 ≤ h) (hh : h < 2 ^ 63) :
    size (halved m b h) b = h := by
  have hs : size (setSize m b h) b = h := size_setSize (by omega)
  rw [← hs]
  refine rd_congr fun x h1 h2 => ?_
  rw [halved, setNext_out (by omega), setNext_out (by omega), setSize_out (by omega)]
  rw [hs]

lemma halved_six {m : Mem} {b : ℕ} (hb : b + 16 < 2 ^ 64) :
    size (halved m b 6) b = 6 * 2 ^ 48 + 6 := by
  have e : (b + 6) % 2 ^ 64 = b + 6 := Nat.mod_eq_of_lt (by omega)
  have hs : size (halved m b 6) b = rd (wr (wr m b 6) (b + 6) 6) b := by
    refine rd_congr fun x h1 h2 => ?_
    rw [halved, e, setNext_out (by omega), setNext_out (by omega)]
    rfl
  rw [hs, rd]
  have hlo : ∀ i < 6, wr (wr m b 6) (b + 6) 6 (b + i) = byte 6 i := fun i hi => by
    rw [wr_out (by omega), wr_in (by omega) (by omega), Nat.add_sub_cancel_left]
  have h0 : wr (wr m b 6) (b + 6) 6 b = byte 6 0 := hlo 0 (by omega)
  have h6 : wr (wr m b 6) (b + 6) 6 (b + 6) = byte 6 0 := by
    rw [wr_in (by omega) (by omega), Nat.sub_self]
  have h7 : wr (wr m b 6) (b + 6) 6 (b + 7) = byte 6 1 := by
    rw [wr_in (by omega) (by omega), show b + 7 - (b + 6) = 1 by omega]
  rw [h0, hlo 1 (by omega), hlo 2 (by omega), hlo 3 (by omega), hlo 4 (by omega), hlo 5 (by omega),
    h6, h7]
  decide

lemma Spins.step {m : Mem} {b : ℕ} (hb : b + 16 < 2 ^ 64) (h : Spins (size m b)) :
    Spins (size (halved m b (size m b >>> 1)) b) := by
  rw [Nat.shiftRight_one]
  rcases h with ⟨j, h2, h47, e⟩ | e | e | e <;> rw [e]
  · obtain ⟨i, rfl⟩ : ∃ i, j = i + 1 := ⟨j - 1, by omega⟩
    have hhalf : 3 * 2 ^ (i + 1) / 2 = 3 * 2 ^ i := by rw [pow_succ]; omega
    have hhi : 2 ^ i ≤ 2 ^ 46 := Nat.pow_le_pow_right (by omega) (by omega)
    rw [hhalf]
    rcases Nat.lt_or_ge i 2 with hi | hi
    · obtain rfl : i = 1 := by omega
      exact Or.inr (Or.inl (halved_six hb))
    · have hlo : 2 ^ 2 ≤ 2 ^ i := Nat.pow_le_pow_right (by omega) hi
      rw [halved_size (by omega) (by omega)]
      exact Or.inl ⟨i, hi, by omega, rfl⟩
  · rw [halved_size (by omega) (by omega)]
    exact Or.inr (Or.inr (Or.inl (by omega)))
  · rw [halved_size (by omega) (by omega)]
    exact Or.inr (Or.inr (Or.inr (by omega)))
  · rw [halved_size (by omega) (by omega)]
    exact Or.inl ⟨46, by omega, by omega, by omega⟩

lemma two_pow_mod_three (j : ℕ) : 2 ^ j % 3 ≠ 0 := by
  induction j with
  | zero => decide
  | succ j ih => rw [pow_succ]; omega

/-- From such a size on the loop never meets a power of two. -/
lemma splitLoop_spins {m : Mem} {b j : ℕ} (fuel : ℕ) (hb : b + 16 < 2 ^ 64) (hj : j < 48)
    (h : Spins (size m b)) : splitLoop m b (2 ^ j) b fuel = .error .hang := by
  induction fuel generalizing m with
  | zero => rfl
  | succ fuel ih =>
    have hne : size m b ≠ 2 ^ j := by
      have hlt : 2 ^ j ≤ 2 ^ 47 := Nat.pow_le_pow_right (by omega) (by omega)
      rcases h with ⟨i, -, -, e⟩ | e | e | e
      · have := two_pow_mod_three j
        omega
      · omega
      · omega
      · omega
    rw [splitLoop_halved hne]
    exact ih (h.step hb)

lemma pageAlloc_spins {s : State} {p : Pool} {ps : List Pool} {sz fuel : ℕ}
    (hp : s.pools = p :: ps) (hlt : p.start < p.end_) (hle : blockSize sz ≤ size s.mem p.start)
    (h : ∀ fuel, splitLoop s.mem p.start (blockSize sz) p.base fuel = .error .hang) :
    pageAlloc fuel s sz = .error .hang := by
  rw [pageAlloc, hp]
  cases fuel with
  | zero => rfl
  | succ fuel =>
    rw [allocLoop, findFit, if_pos hlt, if_pos hle]
    simp only [pure, Except.pure, bind, Except.bind, split, if_pos hle, h]

/-- One pool of four pages. -/
def onePool : Except Stop State := pageAllocInit (fun _ => 0) 0xffffffff80200000 [⟨0x100000, 0x4000⟩]

end Silkware.PageStep
