import Silkware.Buddies
import Silkware.Outcome
import Silkware.PageRuns

/-!
Whether the pools are whole again once every block is given back.

`page_free` joins a block with its buddy once, and not the result with its own buddy. It finds
the buddy only on the part of the list before the first block above the released one, and what
stands before the buddy drops off the list.
-/

namespace Silkware.PageRestore

open Silkware.Bits Silkware.Buddies Silkware.ByteMem Silkware.Header Silkware.Kern Silkware.Links
open Silkware.Outcome Silkware.PageAlloc Silkware.PageAllocInv Silkware.PageRuns Silkware.Segments

/-! ### Runs -/

/-- One call. `page_alloc` takes requests for nothing and for more than `2 ^ 63` bytes too. -/
inductive Call (s : Sys) : Op → Sys → Prop
  | step {op : Op} {s' : Sys} (h : Step s op s') : Call s op s'
  | alloc {fuel sz : ℕ} {st : State} {p : ℕ} (hlt : sz < 2 ^ 64)
      (h : pageAlloc fuel s.st sz = .ok (st, p)) : Call s (.alloc sz) ⟨st, ⟨p, sz⟩ :: s.live⟩

/-- Runs whose calls all meet `G`. -/
def Calls (G : Sys → Op → Prop) : Sys → Sys → Prop :=
  Relation.ReflTransGen fun s s' => ∃ op, G s op ∧ Call s op s'

/-- A block of `n` bytes is at `b` on the pool's free list. -/
def FreeAt (m : Mem) (p : Pool) (b n : ℕ) : Prop := OnList m p b ∧ size m b = n

/-- The releases after which nothing is left to join: if the block's buddy is free, it is the
first block on the list, and the buddy of the two together is not free. -/
def JoinOk (s : Sys) : Op → Prop
  | .free page sz => ∀ p ∈ s.st.pools, p.base ≤ page → page < p.end_ →
      FreeAt s.st.mem p (buddy p.base page (blockSize sz)) (blockSize sz) →
      p.start = buddy p.base page (blockSize sz) ∧
        ¬ FreeAt s.st.mem p
          (buddy p.base (min page (buddy p.base page (blockSize sz))) (2 * blockSize sz))
          (2 * blockSize sz)
  | _ => True

/-- The free list of every pool is one block, the whole pool. -/
def Whole (st : State) : Prop := ∀ p ∈ st.pools,
  p.start = p.base ∧ size st.mem p.base = p.end_ - p.base ∧ next st.mem p.base = p.end_

/-! ### Blocks by order and number -/

/-- The blocks of `F` in the pool `e`. -/
def orders (m : Mem) (e : ℕ × ℕ) (F : List ℕ) : Set (ℕ × ℕ) :=
  {x | e.1 + x.2 * 2 ^ x.1 ∈ F ∧ size m (e.1 + x.2 * 2 ^ x.1) = 2 ^ x.1 ∧
    e.1 + x.2 * 2 ^ x.1 < e.2}

lemma buddy_eq (base q k : ℕ) : buddy base (base + q * 2 ^ k) (2 ^ k) = base + other q * 2 ^ k := by
  rw [buddy, Nat.add_sub_cancel_left, xor_two_pow, other]
  split <;> rfl

lemma pow_inj {i k : ℕ} (h : 2 ^ i = 2 ^ k) : i = k := Nat.pow_right_injective (le_refl 2) h

/-- Every pool address is in a free block or in one in use. -/
def Covered (E : List (ℕ × ℕ)) (segs : List Seg) : Prop :=
  ∀ e ∈ E, ∀ a, e.1 ≤ a → a < e.2 → ∃ g ∈ segs, g.lo ≤ a ∧ a < g.hi

structure Full (E : List (ℕ × ℕ)) (s : Sys) (fr : List (List ℕ)) : Prop where
  inv : Inv s fr
  ext : s.st.pools.map extent = E
  merged : ∀ e ∈ E, Merged (orders s.st.mem e fr.flatten)
  cover : Covered E (fr.flatten.map (seg s.st.mem) ++ s.live.map Live.seg)

variable {E : List (ℕ × ℕ)} {s s' : Sys} {fr : List (List ℕ)}

lemma Full.order (h : Full E s fr) : E.Pairwise fun p q => p.2 ≤ q.1 := by
  obtain ⟨-, ho, -, -⟩ := h.inv
  rwa [← h.ext]

/-- A free block lies in one pool, in its place. -/
lemma Full.block (h : Full E s fr) {b : ℕ} (hb : b ∈ fr.flatten) :
    ∃ e ∈ E, Block e.1 e.2 b (size s.st.mem b) := by
  obtain ⟨hp, -, -, -⟩ := h.inv
  obtain ⟨p, hpp, hblk⟩ := exists_block hp hb
  exact ⟨extent p, by rw [← h.ext]; exact List.mem_map_of_mem hpp, hblk⟩

/-- A free block with an address in the pool `e`. -/
lemma Full.block_in (h : Full E s fr) {e : ℕ × ℕ} (he : e ∈ E) {a b : ℕ} (hb : b ∈ fr.flatten)
    (h1 : b ≤ a) (h2 : a < b + size s.st.mem b) (h3 : e.1 ≤ a) (h4 : a < e.2) :
    ∃ k q, size s.st.mem b = 2 ^ k ∧ b = e.1 + q * 2 ^ k ∧ b + 2 ^ k ≤ e.2 := by
  obtain ⟨f, hf, hblk⟩ := h.block hb
  have := hblk.facts
  obtain rfl : f = e := extent_unique h.order hf he (x := a) (by omega) (by omega) h3 h4
  obtain ⟨k, q, -, hk, hq, hend⟩ := hblk
  exact ⟨k, q, hk, hq, by omega⟩

lemma Full.apart (h : Full E s fr) {b c a : ℕ} (hb : b ∈ fr.flatten) (hc : c ∈ fr.flatten)
    (h1 : b ≤ a) (h2 : a < b + size s.st.mem b) (h3 : c ≤ a) (h4 : a < c + size s.st.mem c) :
    b = c := by
  obtain ⟨-, -, -, hpk⟩ := h.inv
  by_contra hne
  have := Packed.of_ne (List.pairwise_append.mp hpk).1 hb hc hne
  simp only [Apart, Seg.hi, seg] at this
  omega

lemma Full.pos (h : Full E s fr) {b : ℕ} (hb : b ∈ fr.flatten) : 4096 ≤ size s.st.mem b := by
  obtain ⟨e, -, hblk⟩ := h.block hb
  exact hblk.facts.2.2

lemma Full.nodup (h : Full E s fr) : fr.flatten.Nodup := by
  obtain ⟨-, -, -, hpk⟩ := h.inv
  refine Packed.nodup (List.pairwise_append.mp hpk).1 fun b hb => ?_
  have := h.pos hb
  simp only [seg]
  omega

/-! ### `page_alloc` -/

lemma Full.alloc {fuel sz p : ℕ} {st : State} (h : Full E s fr) (hlt : sz < 2 ^ 64)
    (hr : pageAlloc fuel s.st sz = .ok (st, p)) : ∃ fr', Full E ⟨st, ⟨p, sz⟩ :: s.live⟩ fr' := by
  obtain ⟨A, l1, l2, B, j, k, hsz, e, hI⟩ := alloc_inv h.inv hlt hr
  have hF := fun x => e.mem_old (x := x)
  have hF' := mem_cut A B l1 l2 p j k
  have hpF : p ∈ fr.flatten := (hF p).mpr (Or.inl rfl)
  -- the block that was cut is on no list
  have hgone : p ∉ (A ++ (l1 ++ (pieces p j k ++ l2)) :: B).flatten := by
    rw [hF' p]
    rintro (hp | hp)
    · obtain ⟨i, -, -, hi⟩ := mem_pieces.mp hp
      have := Nat.two_pow_pos i
      omega
    · have hperm : fr.flatten.Perm (p :: (l1 ++ l2 ++ (A.flatten ++ B.flatten))) := by
        rw [e.eq]
        exact (flatten_middle A B _).trans (List.perm_middle.append_right _)
      refine (List.nodup_cons.mp (hperm.nodup h.nodup)).1 ?_
      simp only [List.mem_append] at hp ⊢
      tauto
  refine ⟨_, hI, e.ext.trans h.ext, fun f hf => (h.merged f hf).cut ?_, fun f hf a h1 h2 => ?_⟩
  · rintro ⟨i, r⟩ ⟨hx, hs, hlt⟩
    simp only at hx hs hlt ⊢
    rcases (hF' _).mp hx with hx | hx
    · -- a piece is an upper half, and the lower half of its block is where the block was
      right
      obtain ⟨i', hji, hik, hi⟩ := mem_pieces.mp hx
      have hi' := e.piece i' hji hik
      rw [← hi, hs] at hi'
      obtain rfl := pow_inj hi'
      have hpow := two_pow_succ_le hik
      obtain ⟨k', q, hk', hq, -⟩ := h.block_in hf hpF (a := p + 2 ^ i) (by omega)
        (by rw [e.size_eq]; have := Nat.two_pow_pos i; omega) (by omega) (by omega)
      obtain rfl := pow_inj (e.size_eq.symm.trans hk')
      have hmul : q * 2 ^ k = 2 * (q * 2 ^ (k - i - 1)) * 2 ^ i := by
        rw [show k = k - i - 1 + 1 + i by omega, pow_add, pow_succ]
        simp only [Nat.add_sub_cancel]
        ring
      refine ⟨q * 2 ^ (k - i - 1), ?_, fun hlow => hgone ?_⟩
      · have : r * 2 ^ i = (2 * (q * 2 ^ (k - i - 1)) + 1) * 2 ^ i := by
          rw [Nat.add_mul, Nat.one_mul, ← hmul]
          omega
        exact Nat.eq_of_mul_eq_mul_right (Nat.two_pow_pos i) this
      · have := hlow.1
        rwa [← hmul, ← hq] at this
    · left
      refine ⟨(hF _).mpr (Or.inr hx), ?_, hlt⟩
      simp only
      rw [← e.sizes _ hx, hs]
  · obtain ⟨g, hg, hg1, hg2⟩ := h.cover f hf a h1 h2
    rcases List.mem_append.mp hg with hg | hg
    · obtain ⟨x, hx, rfl⟩ := List.mem_map.mp hg
      simp only [seg, Seg.hi] at hg1 hg2
      rcases (hF x).mp hx with rfl | hx
      · rw [e.size_eq] at hg2
        rcases Nat.lt_or_ge a (x + 2 ^ j) with hj | hj
        · refine ⟨⟨x, blockSize sz⟩, by simp [Live.seg], hg1, ?_⟩
          simpa only [Seg.hi, hsz] using hj
        · obtain ⟨i, hji, hik, h3, h4⟩ := pieces_cover hg1 hg2 hj
          refine ⟨seg st.mem (x + 2 ^ i), List.mem_append_left _ (List.mem_map_of_mem ?_), h3, ?_⟩
          · exact (hF' _).mpr (Or.inl (mem_pieces.mpr ⟨i, hji, hik, rfl⟩))
          · simpa only [seg, Seg.hi, e.piece i hji hik] using h4
      · refine ⟨seg st.mem x, List.mem_append_left _ (List.mem_map_of_mem ((hF' _).mpr (Or.inr hx))),
          hg1, ?_⟩
        simpa only [seg, Seg.hi, e.sizes x hx] using hg2
    · exact ⟨g, by simp [hg], hg1, hg2⟩

/-! ### `page_free` -/

/-- A block that has no free buddy is added to the free blocks of its pool; others may go. -/
lemma merged_add {m m' : Mem} {F F' : List ℕ} {p : Pool} {b k q : ℕ} (ho : E.Pairwise fun p q => p.2 ≤ q.1)
    (hm : ∀ e ∈ E, Merged (orders m e F)) (hF : ∀ x ∈ F', x = b ∨ x ∈ F ∧ size m' x = size m x)
    (hp : extent p ∈ E) (hb : b = p.base + q * 2 ^ k) (hend : b < p.end_) (hs : size m' b = 2 ^ k)
    (hno : ¬ (buddy p.base b (2 ^ k) ∈ F ∧ size m (buddy p.base b (2 ^ k)) = 2 ^ k ∧
      buddy p.base b (2 ^ k) < p.end_)) : ∀ e ∈ E, Merged (orders m' e F') := by
  intro e he
  by_cases hpe : e = extent p
  · subst hpe
    refine (hm _ he).add (k := k) (q := q) ?_ ?_
    · rintro ⟨i, r⟩ ⟨hx, hsx, hlt⟩
      simp only [extent] at hx hsx hlt ⊢
      rcases hF _ hx with hx | ⟨hx, hsz⟩
      · left
        rw [hx, hs] at hsx
        obtain rfl := pow_inj hsx
        have : r * 2 ^ k = q * 2 ^ k := by omega
        rw [Nat.eq_of_mul_eq_mul_right (Nat.two_pow_pos k) this]
      · exact Or.inr ⟨hx, hsz.symm.trans hsx, hlt⟩
    · rintro ⟨h1, h2, h3⟩
      rw [hb, buddy_eq] at hno
      exact hno ⟨h1, h2, h3⟩
  · intro k r h1 h2
    have hold : ∀ x ∈ orders m' e F', x ∈ orders m e F := by
      rintro x ⟨hx, hsx, hlt⟩
      rcases hF _ hx with hx' | ⟨hx', hsz⟩
      · refine absurd (extent_unique ho he hp (x := b) (by omega) (by omega) ?_ hend) hpe
        simp only [extent]
        omega
      · exact ⟨hx', hsz.symm.trans hsx, hlt⟩
    exact hm e he k r (hold _ h1) (hold _ h2)

/-- A block `b` that has no free buddy takes the place of the released block, and of free blocks
inside it. -/
lemma Full.give {fr' : List (List ℕ)} {st : State} {p : Pool} {page sz b i q : ℕ} (h : Full E s fr)
    (hI : Inv ⟨st, s.live.erase ⟨page, sz⟩⟩ fr') (hext : st.pools.map extent = s.st.pools.map extent)
    (hp : extent p ∈ E) (hb : b = p.base + q * 2 ^ i) (hend : b < p.end_)
    (hs : size st.mem b = 2 ^ i) (hbF : b ∈ fr'.flatten)
    (hnew : ∀ x ∈ fr'.flatten, x = b ∨ x ∈ fr.flatten ∧ size st.mem x = size s.st.mem x)
    (hold : ∀ x ∈ fr.flatten, (x ∈ fr'.flatten ∧ size st.mem x = size s.st.mem x) ∨
      b ≤ x ∧ x + size s.st.mem x ≤ b + 2 ^ i)
    (hpage : b ≤ page ∧ page + blockSize sz ≤ b + 2 ^ i)
    (hno : ¬ (buddy p.base b (2 ^ i) ∈ fr.flatten ∧
      size s.st.mem (buddy p.base b (2 ^ i)) = 2 ^ i ∧ buddy p.base b (2 ^ i) < p.end_)) :
    Full E ⟨st, s.live.erase ⟨page, sz⟩⟩ fr' := by
  refine ⟨hI, hext.trans h.ext, merged_add h.order h.merged hnew hp hb hend hs hno,
    fun e he a ha1 ha2 => ?_⟩
  have hinb : b ≤ a → a < b + 2 ^ i → ∃ g ∈ fr'.flatten.map (seg st.mem) ++
      (s.live.erase ⟨page, sz⟩).map Live.seg, g.lo ≤ a ∧ a < g.hi := by
    intro h1 h2
    refine ⟨seg st.mem b, List.mem_append_left _ (List.mem_map_of_mem hbF), h1, ?_⟩
    simpa only [seg, Seg.hi, hs] using h2
  obtain ⟨g, hg, hg1, hg2⟩ := h.cover e he a ha1 ha2
  rcases List.mem_append.mp hg with hg | hg
  · obtain ⟨x, hx, rfl⟩ := List.mem_map.mp hg
    simp only [seg, Seg.hi] at hg1 hg2
    rcases hold x hx with ⟨hx', hsx⟩ | ⟨hx1, hx2⟩
    · refine ⟨seg st.mem x, List.mem_append_left _ (List.mem_map_of_mem hx'), hg1, ?_⟩
      simpa only [seg, Seg.hi, hsx] using hg2
    · exact hinb (by omega) (by omega)
  · obtain ⟨x, hx, rfl⟩ := List.mem_map.mp hg
    by_cases hxp : x = ⟨page, sz⟩
    · subst hxp
      simp only [Live.seg, Seg.hi] at hg1 hg2
      exact hinb (by omega) (by omega)
    · have hx' : x ∈ s.live.erase ⟨page, sz⟩ := (List.mem_erase_of_ne hxp).mpr hx
      exact ⟨x.seg, List.mem_append_right _ (List.mem_map_of_mem hx'), hg1, hg2⟩

/-- A block and its buddy are the halves of a block of the next size. -/
lemma join_place {base page q k lo : ℕ} (hq : page = base + q * 2 ^ k)
    (hlo : lo = min page (buddy base page (2 ^ k))) : (∃ r, lo = base + r * 2 ^ (k + 1)) ∧
      (page = lo ∧ buddy base page (2 ^ k) = lo + 2 ^ k ∨
        buddy base page (2 ^ k) = lo ∧ page = lo + 2 ^ k) := by
  rcases buddy_cases hq with ⟨he, hr⟩ | ⟨he, hr⟩
  · obtain rfl : lo = page := hlo.trans (min_eq_left (he ▸ Nat.le_add_right _ _))
    exact ⟨hr, Or.inl ⟨rfl, he⟩⟩
  · have hle : buddy base page (2 ^ k) ≤ page := by
      conv_rhs => rw [he]
      exact Nat.le_add_right _ _
    obtain rfl : lo = buddy base page (2 ^ k) := hlo.trans (min_eq_right hle)
    exact ⟨hr, Or.inr ⟨rfl, he⟩⟩

lemma Full.free {fuel page sz : ℕ} {st : State} (h : Full E s fr) (hl : ⟨page, sz⟩ ∈ s.live)
    (hok : FreeOk s (.free page sz)) (hj : JoinOk s (.free page sz))
    (hr : pageFree fuel s.st page sz = .ok st) :
    ∃ fr', Full E ⟨st, s.live.erase ⟨page, sz⟩⟩ fr' := by
  obtain ⟨fr', k, hsz, ⟨p, hp, h1, h2, A, l, l', B, hfr, hfr', hpl, hfreed, hsame⟩, hext, hI⟩ :=
    free_inv h.inv hl hok hr
  have hpE : extent p ∈ E := by rw [← h.ext]; exact List.mem_map_of_mem hp
  -- the block is in its place in the pool
  obtain ⟨k', q, -, hk', hq, hend⟩ := h.inv.block hl hp h1 h2
  simp only at hk' hq hend
  obtain rfl := pow_inj (hsz.symm.trans hk')
  -- what is free in the pool is on its list
  have hfree : ∀ b n, b ∈ fr.flatten → size s.st.mem b = n → p.base ≤ b → b < p.end_ →
      FreeAt s.st.mem p b n := by
    intro b n hb hn hb1 hb2
    obtain ⟨l₁, hl₁, -, hall⟩ := pool_list h.inv.pools (by rw [h.ext]; exact h.order) hp
    exact ⟨(onList_iff hl₁).mpr (hall b hb hb1 hb2), hn⟩
  have hj' := hj p hp h1 h2
  rw [hsz] at hj' hend
  have hmem : ∀ x, x ∈ fr.flatten ↔ x ∈ l ∨ x ∈ A.flatten ++ B.flatten := by
    intro x
    rw [hfr, (flatten_middle A B l).mem_iff, List.mem_append]
  have hmem' : ∀ x, x ∈ fr'.flatten ↔ x ∈ l' ∨ x ∈ A.flatten ++ B.flatten := by
    intro x
    rw [hfr', (flatten_middle A B l').mem_iff, List.mem_append]
  cases hfreed with
  | front hne hs hsl =>
    have hsize : ∀ x ∈ fr.flatten, size st.mem x = size s.st.mem x := by
      intro x hx
      rcases (hmem x).mp hx with hx | hx
      · exact hsl x hx
      · exact hsame x hx
    refine ⟨fr', h.give hI hext hpE hq h2 hs ((hmem' _).mpr (by simp)) (fun x hx => ?_)
      (fun x hx => Or.inl ⟨?_, hsize x hx⟩) ⟨le_refl _, by omega⟩ ?_⟩
    · rw [hmem', List.mem_cons, or_assoc, ← hmem] at hx
      exact hx.imp_right fun hx => ⟨hx, hsize x hx⟩
    · rw [hmem', List.mem_cons, or_assoc, ← hmem]
      exact Or.inr hx
    · rintro ⟨hb, hbs, hbe⟩
      exact hne (hj' (hfree _ _ hb hbs (Nat.le_add_right _ _) hbe)).1
  | @join l1 l2 lo hl' hle hb hlo hs hsl =>
    have hbl : buddy p.base page (2 ^ k) ∈ l := by rw [hl']; simp
    obtain ⟨hstart, hup⟩ := hj' ⟨(onList_iff hpl).mpr hbl, hb⟩
    -- the buddy is the first block on the list, so none is lost
    obtain rfl : l1 = [] := by
      have hnd : l.Nodup := by
        refine h.nodup.sublist ?_
        rw [hfr]
        exact List.sublist_flatten_of_mem (by simp)
      obtain ⟨-, -, -, hch, -⟩ := hpl
      rw [hstart, hl'] at hch
      exact hch.head (hl' ▸ hnd)
    have hpow : 2 ^ (k + 1) = 2 * 2 ^ k := pow_succ' 2 k
    have hbend : buddy p.base page (2 ^ k) + 2 ^ k ≤ p.end_ := by
      obtain ⟨-, -, -, -, hblk⟩ := hpl
      have := (hblk _ hbl).facts.2.1
      rwa [hb] at this
    obtain ⟨⟨r, hr⟩, hhalves⟩ := join_place hq hlo
    refine ⟨fr', h.give hI hext hpE hr (by omega) hs ((hmem' _).mpr (by simp)) (fun x hx => ?_)
      (fun x hx => ?_) ⟨by omega, by omega⟩ ?_⟩
    · rcases (hmem' x).mp hx with hx | hx
      · rcases List.mem_cons.mp hx with hx | hx
        · exact Or.inl hx
        · exact Or.inr ⟨(hmem x).mpr (Or.inl (by simp [hl', hx])), hsl x hx⟩
      · exact Or.inr ⟨(hmem x).mpr (Or.inr hx), hsame x hx⟩
    · rcases (hmem x).mp hx with hx | hx
      · rw [hl', List.nil_append] at hx
        rcases List.mem_cons.mp hx with rfl | hx
        · exact Or.inr ⟨by omega, by omega⟩
        · exact Or.inl ⟨(hmem' x).mpr (Or.inl (List.mem_cons_of_mem _ hx)), hsl x hx⟩
      · exact Or.inl ⟨(hmem' x).mpr (Or.inr hx), hsame x hx⟩
    · rintro ⟨hb', hbs, hbe⟩
      refine hup ?_
      rw [← hlo, ← hpow]
      exact hfree _ _ hb' hbs (Nat.le_add_right _ _) hbe

/-! ### Whole runs -/

/-- The headers of the free blocks are what counts. -/
lemma Full.frame {m' : Mem} (h : Full E s fr) (hI : Inv ⟨{ s.st with mem := m' }, s.live⟩ fr)
    (hsz : ∀ x ∈ fr.flatten, size m' x = size s.st.mem x) :
    Full E ⟨{ s.st with mem := m' }, s.live⟩ fr := by
  have hord : ∀ e, orders m' e fr.flatten = orders s.st.mem e fr.flatten := by
    intro e
    ext x
    refine and_congr_right fun hx => ?_
    rw [hsz _ hx]
  refine ⟨hI, h.ext, fun e he => ?_, ?_⟩
  · rw [hord e]
    exact h.merged e he
  · rw [show fr.flatten.map (seg m') = fr.flatten.map (seg s.st.mem) from
      List.map_congr_left fun x hx => by rw [seg, seg, hsz x hx]]
    exact h.cover

/-- The calls that leave nothing to join. -/
def CallOk (s : Sys) (op : Op) : Prop := FreeOk s op ∧ JoinOk s op

lemma Full.call {op : Op} (h : Full E s fr) (hok : CallOk s op) (hc : Call s op s') :
    ∃ fr', Full E s' fr' := by
  cases hc with
  | alloc hlt hr => exact h.alloc hlt hr
  | step hs =>
    cases hs with
    | alloc h0 h1 hr => exact h.alloc (by omega) hr
    | free hl hr => exact h.free hl hok.1 hok.2 hr
    | write hx h1 h2 =>
      obtain ⟨hI, hsz⟩ := write_inv h.inv hx h1 h2
      exact ⟨fr, h.frame hI hsz⟩

lemma Full.calls (h : Full E s fr) (hr : Calls CallOk s s') : ∃ fr', Full E s' fr' := by
  induction hr with
  | refl => exact ⟨fr, h⟩
  | tail _ hs ih =>
    obtain ⟨op, hok, hs⟩ := hs
    obtain ⟨fr', h'⟩ := ih
    exact h'.call hok hs

lemma div_pow_eq_iff {a k q : ℕ} : a / 2 ^ k = q ↔ q * 2 ^ k ≤ a ∧ a < q * 2 ^ k + 2 ^ k := by
  rw [Nat.div_eq_iff (Nat.two_pow_pos k)]
  have := Nat.two_pow_pos k
  omega

/-- With no block in use, a pool is one free block. -/
lemma Full.whole (h : Full E s fr) (hl : s.live = []) : Whole s.st := by
  intro p hp
  obtain ⟨hpools, -, -, -⟩ := h.inv
  obtain ⟨l, hpl, hsub, hall⟩ := pool_list hpools (by rw [h.ext]; exact h.order) hp
  obtain ⟨-, -, ⟨K, hK⟩, hch, hbl⟩ := hpl
  have hpE : extent p ∈ E := by rw [← h.ext]; exact List.mem_map_of_mem hp
  have hlt : ∀ k q, (k, q) ∈ orders s.st.mem (extent p) fr.flatten → (q + 1) * 2 ^ k ≤ 2 ^ K := by
    rintro k q ⟨hm, hs, hend⟩
    simp only [extent] at hm hs hend
    obtain ⟨k', q', hk', -, hle⟩ := h.block_in hpE hm (le_refl _) (by have := h.pos hm; omega)
      (Nat.le_add_right _ _) hend
    obtain rfl := pow_inj (hs.symm.trans hk')
    simp only [extent] at hle
    rw [Nat.add_mul, Nat.one_mul]
    omega
  have hfill : ∀ a < 2 ^ K, ∃ k q, (k, q) ∈ orders s.st.mem (extent p) fr.flatten ∧ a / 2 ^ k = q := by
    intro a ha
    obtain ⟨g, hg, hg1, hg2⟩ := h.cover _ hpE (p.base + a) (Nat.le_add_right _ _)
      (by simp only [extent]; omega)
    rw [hl, List.map_nil, List.append_nil] at hg
    obtain ⟨x, hx, rfl⟩ := List.mem_map.mp hg
    simp only [seg, Seg.hi] at hg1 hg2
    obtain ⟨k, q, hk, hq, hend⟩ := h.block_in hpE hx hg1 hg2 (Nat.le_add_right _ _)
      (by simp only [extent]; omega)
    have := Nat.two_pow_pos k
    simp only [extent] at hq hend
    refine ⟨k, q, ⟨?_, ?_, ?_⟩, div_pow_eq_iff.mpr ⟨by omega, by omega⟩⟩ <;>
      simp only [extent] <;> rw [← hq]
    · exact hx
    · exact hk
    · omega
  have hapart : ∀ k q i r a, (k, q) ∈ orders s.st.mem (extent p) fr.flatten →
      (i, r) ∈ orders s.st.mem (extent p) fr.flatten → a / 2 ^ k = q → a / 2 ^ i = r → k = i := by
    rintro k q i r a ⟨hm, hs, -⟩ ⟨hm', hs', -⟩ ha ha'
    simp only [extent] at hm hs hm' hs'
    rw [div_pow_eq_iff] at ha ha'
    have := h.apart (a := p.base + a) hm hm' (by omega) (by omega) (by omega) (by omega)
    rw [this, hs'] at hs
    exact (pow_inj hs).symm
  obtain ⟨⟨hmem, hsz, -⟩, honly⟩ := eq_whole hlt hfill hapart (h.merged _ hpE)
  simp only [extent, Nat.zero_mul, Nat.add_zero] at hmem hsz
  -- every block on the list is the whole pool
  have hbase : ∀ b ∈ l, b = p.base := by
    intro b hb
    obtain ⟨k, q, -, hk, hq, hend⟩ := hbl b hb
    have := Nat.two_pow_pos k
    obtain rfl := honly k q ⟨hq ▸ hsub.subset hb, hq ▸ hk, by simp only [extent]; omega⟩
    have : (q + 1) * 2 ^ k ≤ 1 * 2 ^ k := by rw [Nat.add_mul]; omega
    have := Nat.le_of_mul_le_mul_right this (Nat.two_pow_pos k)
    obtain rfl : q = 0 := by omega
    omega
  obtain rfl : l = [p.base] := by
    have hin : p.base ∈ l := hall _ hmem (le_refl _) (by have := Nat.two_pow_pos K; omega)
    have hnd := h.nodup.sublist hsub
    cases l with
    | nil => cases hin
    | cons b l =>
      obtain rfl := hbase b (by simp)
      cases l with
      | nil => rfl
      | cons c l =>
        obtain rfl := hbase c (by simp)
        simp at hnd
  exact ⟨hch.1, by rw [hsz]; omega, hch.2⟩

/-! ### From the set-up on -/

lemma whole_setup {u : Setup} {o : ℕ} (h : SetupOk u o) : Whole ⟨u.mem, u.pools⟩ := by
  intro p hp
  obtain ⟨h1, -, -, -, k, -, h3, h4, h5⟩ := h.whole p hp
  exact ⟨h1, by rw [h4, h3, Nat.add_sub_cancel_left], h5⟩

lemma Full.setup {u : Setup} {o : ℕ} (h : SetupOk u o) :
    Full (u.pools.map extent) ⟨⟨u.mem, u.pools⟩, []⟩ (u.pools.map fun p => [p.base]) := by
  refine ⟨h.inv, rfl, fun e he k r h1 h2 => ?_, fun e he a h1 h2 => ?_⟩
  · -- the pool has one block
    have hone : ∀ q, (k, q) ∈ orders u.mem e (u.pools.map fun p => [p.base]).flatten → q * 2 ^ k = 0 := by
      rintro q ⟨hm, -, hlt⟩
      rw [flatten_bases] at hm
      obtain ⟨p, hp, hpb⟩ := List.mem_map.mp hm
      obtain ⟨-, -, -, -, i, -, hi, -, -⟩ := h.whole p hp
      have := Nat.two_pow_pos i
      simp only at hpb hlt
      have hpe := extent_unique h.order (List.mem_map_of_mem hp) he (x := p.base)
        (by simp only [extent]; omega) (by simp only [extent]; omega) (by omega) (by omega)
      rw [← hpe] at hpb
      simp only [extent] at hpb
      omega
    have h1 := hone _ h1
    have h2 := hone _ h2
    rw [Nat.add_mul, h1] at h2
    have := Nat.two_pow_pos k
    omega
  · obtain ⟨p, hp, rfl⟩ := List.mem_map.mp he
    obtain ⟨-, -, -, -, k, -, hk, hs, -⟩ := h.whole p hp
    refine ⟨seg u.mem p.base, ?_, h1, ?_⟩
    · rw [flatten_bases]
      exact List.mem_append_left _ (List.mem_map_of_mem (List.mem_map_of_mem hp))
    · simp only [seg, Seg.hi, extent, hs] at h2 ⊢
      omega

/-- The search on a pool that is whole. -/
lemma findFit_whole {st : State} (h : Whole st) {p : Pool} (hp : p ∈ st.pools) (hlt : p.base < p.end_)
    (sz fuel : ℕ) : findFit st.mem sz p.end_ fuel 0 p.start =
      if fuel = 0 then .error .hang else if sz ≤ p.end_ - p.base then .ok (some (0, p.base))
      else if fuel = 1 then .error .hang else .ok none := by
  obtain ⟨h1, h2, h3⟩ := h p hp
  rw [h1]
  cases fuel with
  | zero => rfl
  | succ fuel =>
    rw [findFit, if_pos hlt, h2, h3, if_neg (Nat.succ_ne_zero fuel)]
    by_cases hs : sz ≤ p.end_ - p.base
    · rw [if_pos hs, if_pos hs]
      rfl
    · rw [if_neg hs, if_neg hs]
      cases fuel with
      | zero => rfl
      | succ fuel =>
        rw [findFit, if_neg (lt_irrefl _), if_neg (by omega)]
        rfl

/-- Pools of a power of two each. -/
def Sized (ps : List Pool) : Prop := ∀ p ∈ ps, p.end_ < 2 ^ 64 ∧ ∃ k, p.end_ = p.base + 2 ^ k

/-- What is found in whole pools does not depend on the rest of the memory. -/
lemma allocLoop_again {m m₁ m₂ : Mem} {ps ps₁ : List Pool} {fuel j b : ℕ} (hj : 12 ≤ j)
    (hsz : Sized ps) (hw : Whole ⟨m, ps⟩) (hw₂ : Whole ⟨m₂, ps⟩)
    (hr : allocLoop fuel m (2 ^ j) ps = .ok (m₁, ps₁, b)) :
    ∃ m₃ ps₃, allocLoop fuel m₂ (2 ^ j) ps = .ok (m₃, ps₃, b) := by
  induction ps generalizing ps₁ with
  | nil => cases hr
  | cons p ps ih =>
    obtain ⟨htop, k, hk⟩ := hsz p (by simp)
    have hlt : p.base < p.end_ := by have := Nat.two_pow_pos k; omega
    have hmem : p ∈ p :: ps := List.mem_cons_self
    rw [allocLoop, findFit_whole hw hmem hlt] at hr
    rw [allocLoop, findFit_whole hw₂ hmem hlt]
    by_cases h0 : fuel = 0
    · rw [if_pos h0] at hr
      cases hr
    rw [if_neg h0] at hr ⊢
    by_cases hs : 2 ^ j ≤ p.end_ - p.base
    · rw [if_pos hs] at hr ⊢
      have hsp : ∀ m', size m' p.base = p.end_ - p.base →
          ∃ m'', split m' p.base (2 ^ j) p.base = .ok m'' := by
        intro m' hm'
        rw [hk, Nat.add_sub_cancel_left] at hs hm'
        obtain ⟨m'', h, -⟩ := split_spec (q := 0) (k := k) hj
          ((Nat.pow_le_pow_iff_right (by omega)).mp hs) hm' (show p.base = p.base + 0 * 2 ^ k by omega)
          (by rw [← hk]; exact htop)
        exact ⟨m'', h⟩
      obtain ⟨m₄, h₄⟩ := hsp m (hw p hmem).2.1
      obtain ⟨m₅, h₅⟩ := hsp m₂ (hw₂ p hmem).2.1
      simp only [h₄, bind, Except.bind, pure, Except.pure, Except.ok.injEq, Prod.mk.injEq] at hr
      obtain ⟨-, -, rfl⟩ := hr
      exact ⟨_, _, by simp only [h₅, bind, Except.bind]; rfl⟩
    · rw [if_neg hs] at hr ⊢
      by_cases h1 : fuel = 1
      · rw [if_pos h1] at hr
        cases hr
      rw [if_neg h1] at hr ⊢
      simp only [bind, Except.bind] at hr ⊢
      cases hrec : allocLoop fuel m (2 ^ j) ps with
      | error e =>
        rw [hrec] at hr
        cases hr
      | ok r =>
        rw [hrec] at hr
        cases hr
        obtain ⟨m₃, ps₃, h₃⟩ := ih (fun q hq => hsz q (List.mem_cons_of_mem _ hq))
          (fun q hq => hw q (List.mem_cons_of_mem _ hq))
          (fun q hq => hw₂ q (List.mem_cons_of_mem _ hq)) hrec
        exact ⟨m₃, p :: ps₃, by rw [h₃]; rfl⟩

/-- Whole pools are determined by their extents. -/
lemma pools_of_whole {st : State} (h : Whole st) :
    st.pools = (st.pools.map extent).map fun e => ⟨e.1, e.1, e.2⟩ := by
  rw [List.map_map]
  refine (List.map_id _).symm.trans (List.map_congr_left fun p hp => ?_)
  obtain ⟨h1, -⟩ := h p hp
  cases p
  simp only at h1
  simp [extent, h1]

/-- **Everything given back, the pools are whole again**, in every run in which no `page_free`
leaves buddies unjoined or loses blocks, and a request that `page_alloc` could meet at the start
it can meet again. -/
theorem pools_restored {m : Mem} {endPos : ℕ} {memmap : List MemmapEntry} {st : State} {s : Sys}
    (hm : MapOk endPos memmap) (hi : pageAllocInit m endPos memmap = .ok st)
    (hr : Calls CallOk ⟨st, []⟩ s) (hl : s.live = []) :
    s.st.pools = st.pools ∧ Whole s.st ∧ ∀ fuel sz st₁ p, sz < 2 ^ 64 →
      pageAlloc fuel st sz = .ok (st₁, p) → ∃ st₂, pageAlloc fuel s.st sz = .ok (st₂, p) := by
  obtain ⟨u, o, hu, rfl⟩ := init_setup hm hi
  obtain ⟨fr, h⟩ := (Full.setup hu).calls hr
  have hw := h.whole hl
  have hpools : s.st.pools = u.pools := by
    rw [pools_of_whole hw, h.ext, ← pools_of_whole (whole_setup hu)]
  refine ⟨hpools, hw, fun fuel sz st₁ p hlt hal => ?_⟩
  obtain ⟨j, hj, -, hsz⟩ := blockSize_eq hlt
  rw [pageAlloc, hsz] at hal ⊢
  obtain ⟨⟨m₁, ps₁, b⟩, hrec, he⟩ := exists_of_bind hal
  cases he
  have hsized : Sized u.pools := by
    intro p hp
    obtain ⟨-, -, h3, -, k, -, h4, -⟩ := hu.whole p hp
    exact ⟨h3, k, h4⟩
  have hw' : Whole ⟨s.st.mem, u.pools⟩ := by rw [← hpools]; exact hw
  obtain ⟨m₃, ps₃, h₃⟩ := allocLoop_again hj hsized (whole_setup hu) hw' hrec
  rw [hpools, h₃]
  exact ⟨_, rfl⟩

/-- One usable entry of four pages: one pool. -/
def onePool : Except Stop State := pageAllocInit (fun _ => 0) 0xffffffff80200000 [⟨0x100000, 0x4000⟩]

/-- Half of the pool is taken and given back. -/
theorem pools_restored_half : ∃ st s, pageAllocInit (fun _ => 0) 0xffffffff80200000
    [⟨0x100000, 0x4000⟩] = .ok st ∧ Calls CallOk ⟨st, []⟩ s ∧ s.live = [] ∧ Whole s.st := by
  have hrun : (onePool.bind fun st => (exec 9 ⟨st, []⟩ (.alloc 0x2000)).bind fun s1 =>
      (exec 9 s1 (.free 0xffffffff80200000 0x2000)).map fun s2 =>
        (s1.st.pools, size s1.st.mem 0xffffffff80202000, s2.live)) =
      .ok ([⟨0xffffffff80202000, 0xffffffff80200000, 0xffffffff80204000⟩], 0x2000, []) := by
    decide
  obtain ⟨st, h0, hrun⟩ := exists_of_bind hrun
  obtain ⟨s1, h1, hrun⟩ := exists_of_bind hrun
  obtain ⟨s2, h2, hs⟩ := exists_of_map hrun
  simp only [Prod.mk.injEq] at hs
  obtain ⟨hp, hz, hl⟩ := hs
  have hbud : buddy 0xffffffff80200000 0xffffffff80200000 0x2000 = 0xffffffff80202000 := by
    decide
  have hsz : blockSize 0x2000 = 0x2000 := by decide
  have hup : buddy 0xffffffff80200000 (min 0xffffffff80200000 0xffffffff80202000) (2 * 0x2000) =
      0xffffffff80204000 := by decide
  have hok : CallOk s1 (.free 0xffffffff80200000 0x2000) := by
    refine ⟨⟨by rw [hp]; simp, fun p hpp h1 h2 _ => ?_⟩, fun p hpp h1 h2 _ => ?_⟩ <;>
      rw [hp] at hpp <;> obtain rfl := List.mem_singleton.mp hpp
    · simp only [hsz, hbud, hz]
      decide
    · simp only [hsz, hbud, hup, true_and]
      rintro ⟨⟨-, -, -, hend⟩, -⟩
      exact hend (le_refl _)
  have hr : Calls CallOk ⟨st, []⟩ s2 :=
    (Relation.ReflTransGen.single ⟨.alloc 0x2000, ⟨trivial, trivial⟩, .step (exec_step h1)⟩).tail
      ⟨_, hok, .step (exec_step h2)⟩
  exact ⟨st, s2, h0, hr, hl, (pools_restored ⟨by decide, by decide, by decide, by decide⟩ h0 hr hl).2.1⟩

/-- A page is taken and given back: the pool stays in two halves. -/
theorem halves_left : ∃ st s, pageAllocInit (fun _ => 0) 0xffffffff80200000
    [⟨0x100000, 0x4000⟩] = .ok st ∧ Calls (fun _ _ => True) ⟨st, []⟩ s ∧ s.live = [] ∧ ¬ Whole s.st ∧
    (∃ r, pageAlloc 9 st 0x4000 = .ok r) ∧ pageAlloc 9 s.st 0x4000 = .error .panic := by
  have hrun : (onePool.bind fun st => (exec 9 ⟨st, []⟩ (.alloc 0x1000)).bind fun s1 =>
      (exec 9 s1 (.free 0xffffffff80200000 0x1000)).map fun s2 =>
        (s2.live, s2.st.pools, size s2.st.mem 0xffffffff80200000, (pageAlloc 9 st 0x4000).isOk,
          (pageAlloc 9 s2.st 0x4000).map fun r => r.2)) =
      .ok ([], [⟨0xffffffff80200000, 0xffffffff80200000, 0xffffffff80204000⟩], 0x2000, true,
        .error .panic) := by
    decide +kernel
  obtain ⟨st, h0, hrun⟩ := exists_of_bind hrun
  obtain ⟨s1, h1, hrun⟩ := exists_of_bind hrun
  obtain ⟨s2, h2, hs⟩ := exists_of_map hrun
  simp only [Prod.mk.injEq] at hs
  obtain ⟨hl, hp, hz, hok, hstop⟩ := hs
  refine ⟨st, s2, h0, ?_, hl, fun hw => ?_, exists_of_isOk hok, ?_⟩
  · exact (Relation.ReflTransGen.single ⟨_, trivial, .step (exec_step h1)⟩).tail
      ⟨_, trivial, .step (exec_step h2)⟩
  · have := (hw ⟨0xffffffff80200000, 0xffffffff80200000, 0xffffffff80204000⟩ (by simp [hp])).2.1
    rw [hz] at this
    exact absurd this (by decide)
  · cases hp : pageAlloc 9 s2.st 0x4000 with
    | error e =>
      rw [hp] at hstop
      obtain rfl : e = .panic := Except.error.inj hstop
      rfl
    | ok r =>
      rw [hp] at hstop
      cases hstop

end Silkware.PageRestore
