import Silkware.Blocks
import Silkware.Kalloc
import Silkware.Links
import Silkware.Outcome
import Silkware.PageAllocInv
import Silkware.Segments

/-!
What the heap's operations do to the blocks and the free lists.

A free list is not sorted: the head stays in front, and after it a block is put before the
first block that lies below it. So `insert_block` can merge a block with the one before it
only when that is the head, and never with the one after it.
-/

namespace Silkware.KallocInv

open Silkware.ByteMem Silkware.Header Silkware.Kern Silkware.Links Silkware.Kalloc
open Silkware.Blocks Silkware.Segments Silkware.Outcome

/-- The bytes of a block with its header. -/
def blk (m : Mem) (b : ℕ) : Seg := ⟨b, 16 + size m b⟩

lemma dataAt_eq {b n : ℕ} (h : b + 16 + n < 2 ^ 64) : dataAt b n = b + 16 + n :=
  Nat.mod_eq_of_lt h

/-- The header of a block, from its payload. -/
lemma sub64_hdr {b : ℕ} (h : b + 16 < 2 ^ 64) : sub64 (b + 16) hdrSize = b := by
  rw [sub64_eq (by unfold hdrSize; omega) h]; rfl

/-! ### The walk of `insert_block` -/

/-- Where the walk puts `new` into a list: behind the head, past the blocks above it and in front
of the first one that is not. -/
structure Place (l1 l2 : List ℕ) (new : ℕ) : Prop where
  head : l1 = [] → l2 = []
  past : ∀ c ∈ l1.tail, new < c
  stop : ∀ c ∈ l2.head?, c ≤ new

lemma insertWalk_spec {m : Mem} {new fuel prev cur p cur' : ℕ} {l : List ℕ}
    (h : Chain (next m) cur l 0) (hr : insertWalk m new fuel prev cur = .ok (p, cur')) :
    ∃ l1 l2, prev :: l = l1 ++ p :: l2 ∧ Chain (next m) cur' l2 0 ∧ cur' ≤ new ∧
      ∀ c ∈ (l1 ++ [p]).tail, new < c := by
  induction l generalizing fuel prev cur with
  | nil =>
    obtain rfl : cur = 0 := h
    cases fuel with
    | zero => cases hr
    | succ fuel =>
      rw [insertWalk, if_neg (by omega)] at hr
      cases hr
      exact ⟨[], [], rfl, rfl, by omega, by simp⟩
  | cons c l ih =>
    obtain ⟨rfl, h2⟩ := h
    cases fuel with
    | zero => cases hr
    | succ fuel =>
      rw [insertWalk] at hr
      by_cases hlt : new < cur
      · rw [if_pos hlt] at hr
        obtain ⟨l1, l2, he, hc, hle, hpast⟩ := ih h2 hr
        refine ⟨prev :: l1, l2, by rw [he]; rfl, hc, hle, fun c hcm => ?_⟩
        -- the blocks behind `prev` are `cur` and those the rest of the walk has passed
        have hcm : c ∈ l1 ++ [p] := hcm
        cases l1 with
        | nil =>
          obtain ⟨rfl, -⟩ := List.cons_eq_cons.mp he
          rwa [List.mem_singleton.mp hcm]
        | cons d l1 =>
          obtain ⟨rfl, -⟩ := List.cons_eq_cons.mp he
          rcases List.mem_cons.mp hcm with rfl | hcm
          · exact hlt
          · exact hpast c hcm
      · rw [if_neg hlt] at hr
        cases hr
        exact ⟨[], _ :: l, rfl, ⟨rfl, h2⟩, by omega, by simp⟩

lemma insertWalk_total {m : Mem} (new prev : ℕ) {fuel cur : ℕ} {l : List ℕ}
    (h : Chain (next m) cur l 0) (hf : l.length < fuel) :
    ∃ r, insertWalk m new fuel prev cur = .ok r := by
  induction l generalizing fuel prev cur with
  | nil =>
    obtain rfl : cur = 0 := h
    cases fuel with
    | zero => cases hf
    | succ fuel => exact ⟨(prev, 0), by rw [insertWalk, if_neg (by omega)]; rfl⟩
  | cons c l ih =>
    obtain ⟨rfl, h2⟩ := h
    cases fuel with
    | zero => cases hf
    | succ fuel =>
      rw [insertWalk]
      split
      · exact ih _ h2 (by simpa using hf)
      · exact ⟨_, rfl⟩

/-! ### Linking a block in -/

/-- What is known of the blocks of one list and the block to insert. -/
structure Fresh (m : Mem) (l : List ℕ) (new : ℕ) : Prop where
  pos : ∀ b ∈ new :: l, 0 < b
  top : ∀ b ∈ new :: l, b + 16 + size m b < 2 ^ 64
  nodup : (new :: l).Nodup
  apart : ∀ b ∈ new :: l, ∀ c ∈ new :: l, b ≠ c → Apart (blk m b) (blk m c)

/-- The lists that inserting `new` into `l` can give, with the sizes of their blocks: `new` is linked
in at its place, or becomes a part of the block in front of that if it ends where `new` starts. -/
inductive Inserted (m m' : Mem) (l : List ℕ) (new : ℕ) : List ℕ → Prop
  | link {l1 l2 : List ℕ} (hl : l = l1 ++ l2) (hpl : Place l1 l2 new)
      (hend : ∀ p ∈ l1.getLast?, p + 16 + size m p ≠ new)
      (hs : ∀ b ∈ new :: l, size m' b = size m b) : Inserted m m' l new (l1 ++ new :: l2)
  | merge {p : ℕ} {l1 l2 : List ℕ} (hl : l = l1 ++ p :: l2) (hpl : Place (l1 ++ [p]) l2 new)
      (he : p + 16 + size m p = new) (hs : size m' p = size m p + (16 + size m new))
      (ho : ∀ b ∈ l, b ≠ p → size m' b = size m b) : Inserted m m' l new l

lemma Fresh.sep {m : Mem} {l : List ℕ} {new b c : ℕ} (h : Fresh m l new) (hb : b ∈ new :: l)
    (hc : c ∈ new :: l) (hne : b ≠ c) : b + 16 ≤ c ∨ c + 16 ≤ b := by
  have := h.apart b hb c hc hne
  simp only [Apart, Seg.hi, blk] at this
  omega

/-- What linking `new` in after `p` leaves in memory, before any merge. -/
structure Hooked (m m' : Mem) (l1 l2 : List ℕ) (p cur new : ℕ) : Prop where
  size : ∀ b ∈ new :: (l1 ++ p :: l2), Header.size m' b = Header.size m b
  new_next : next m' new = cur
  prev_next : next m' p = new
  next : ∀ b ∈ l1 ++ l2, Header.next m' b = Header.next m b
  out : ∀ x, (∀ b ∈ [new, p], x < b ∨ b + 16 ≤ x) → m' x = m x

lemma Fresh.others {m : Mem} {l1 l2 : List ℕ} {p new b : ℕ} (hf : Fresh m (l1 ++ p :: l2) new)
    (hb : b ∈ l1 ++ l2) : b ∈ new :: (l1 ++ p :: l2) ∧ b ≠ p ∧ b ≠ new := by
  obtain ⟨hn, hnd⟩ := List.nodup_cons.mp hf.nodup
  have hmem : b ∈ l1 ++ p :: l2 := List.perm_middle.mem_iff.mpr (List.mem_cons_of_mem _ hb)
  refine ⟨List.mem_cons_of_mem _ hmem, ?_, ?_⟩
  · rintro rfl
    exact (List.nodup_cons.mp (List.perm_middle.nodup_iff.mp hnd)).1 hb
  · rintro rfl
    exact hn hmem

lemma hooked {m : Mem} {l1 l2 : List ℕ} {p cur new : ℕ} (hf : Fresh m (l1 ++ p :: l2) new)
    (hcur : cur < 2 ^ 64) : Hooked m (setNext (setNext m p new) new cur) l1 l2 p cur new := by
  have hp : p ∈ new :: (l1 ++ p :: l2) := by simp
  have hn : new ∈ new :: (l1 ++ p :: l2) := by simp
  have hpn : p ≠ new := by
    rintro rfl
    exact (List.nodup_cons.mp hf.nodup).1 (by simp)
  have htn := hf.top new hn
  have hsep := hf.sep hp hn hpn
  refine ⟨fun b hb => ?_, next_setNext hcur, ?_, fun b hb => ?_, fun x hx => ?_⟩
  · have e1 : size (setNext m p new) b = size m b := by
      by_cases hbp : b = p
      · rw [hbp]; exact size_setNext
      · have := hf.sep hb hp hbp
        exact size_setNext_sep (by omega)
    rw [← e1]
    by_cases hbn : b = new
    · rw [hbn]; exact size_setNext
    · have := hf.sep hb hn hbn
      exact size_setNext_sep (by omega)
  · rw [next_setNext_sep (by omega)]
    exact next_setNext (by omega)
  · obtain ⟨hb, hbp, hbn⟩ := hf.others hb
    have h3 := hf.sep hb hp hbp
    have h4 := hf.sep hb hn hbn
    rw [next_setNext_sep (by omega), next_setNext_sep (by omega)]
  · have h3 := hx new (by simp)
    have h4 := hx p (by simp)
    rw [setNext_out (by omega), setNext_out (by omega)]

/-- `new` becomes a part of `p`, which ends where it starts. -/
lemma link_merge {m : Mem} {l1 l2 : List ℕ} {a p cur new : ℕ} (hf : Fresh m (l1 ++ p :: l2) new)
    (h1 : Chain (next m) a (l1 ++ [p]) cur) (h2 : Chain (next m) cur l2 0) (hle : cur ≤ new)
    (hpl : Place (l1 ++ [p]) l2 new) (he : p + 16 + size m p = new) :
    Chain (next (mergeNext (linkPrev m p new cur).1 (linkPrev m p new cur).2 cur)) a (l1 ++ p :: l2) 0 ∧
      Inserted m (mergeNext (linkPrev m p new cur).1 (linkPrev m p new cur).2 cur)
        (l1 ++ p :: l2) new (l1 ++ p :: l2) ∧
      ∀ x, (∀ b ∈ [new, p], x < b ∨ b + 16 ≤ x) →
        mergeNext (linkPrev m p new cur).1 (linkPrev m p new cur).2 cur x = m x := by
  have hp : p ∈ new :: (l1 ++ p :: l2) := by simp
  have hn : new ∈ new :: (l1 ++ p :: l2) := by simp
  have htp := hf.top p hp
  have htn := hf.top new hn
  have hk := hooked hf (show cur < 2 ^ 64 by omega)
  set m2 := setNext (setNext m p new) new cur
  set m3 := setNext m2 p cur with hm3
  have hs3 : size m3 p = size m p := by rw [hm3, size_setNext, hk.size p hp]
  have hs3n : size m3 new = size m new := by
    rw [hm3, size_setNext_sep (by omega), hk.size new hn]
  set m4 := setSize m3 p (size m p + (16 + size m new)) with hm4
  have hs4 : size m4 p = size m p + (16 + size m new) := size_setSize (by omega)
  have hadj : dataAt p (size m2 p) = new := by rw [hk.size p hp, dataAt_eq htp, he]
  have hl : linkPrev m p new cur = (m4, p) := by
    simp only [linkPrev, m2, m3, m4, if_pos hadj, hk.new_next, hs3, hs3n, hdrSize,
      Nat.add_comm (size m new) 16]
  have hmg : mergeNext m4 p cur = m4 := by
    rw [mergeNext, if_neg]
    rw [hs4, dataAt_eq (by omega)]
    omega
  rw [hl, hmg]
  have hnx4 : ∀ b ∈ l1 ++ l2, next m4 b = next m b := by
    intro b hb
    rw [← hk.next b hb]
    obtain ⟨hb, hbp, -⟩ := hf.others hb
    have h3 := hf.sep hb hp hbp
    rw [hm4, next_setSize_sep (by omega), hm3, next_setNext_sep (by omega)]
  have hnp : next m4 p = cur := by
    rw [hm4, next_setSize, hm3]; exact next_setNext (by omega)
  refine ⟨?_, .merge rfl hpl he hs4 fun b hb hbp => ?_, fun x hx => ?_⟩
  · rw [List.append_cons]
    exact chain_append.mpr ⟨cur, h1.relink (fun b hb => hnx4 b (by simp [hb])) hnp,
      h2.congr fun b hb => hnx4 b (by simp [hb])⟩
  · have hb' : b ∈ new :: (l1 ++ p :: l2) := List.mem_cons_of_mem _ hb
    have h3 := hf.sep hb' hp hbp
    rw [hm4, size_setSize_sep (by omega), hm3, size_setNext_sep (by omega), hk.size b hb']
  · have h4 := hx p (by simp)
    rw [hm4, setSize_out (by omega), hm3, setNext_out (by omega)]
    exact hk.out x hx

/-- Linking `new` between `p` and `cur`, where `cur` is not above `new`. -/
lemma link_spec {m : Mem} {l1 l2 : List ℕ} {a p cur new : ℕ}
    (hf : Fresh m (l1 ++ p :: l2) new) (h1 : Chain (next m) a (l1 ++ [p]) cur)
    (h2 : Chain (next m) cur l2 0) (hle : cur ≤ new) (hpast : ∀ c ∈ (l1 ++ [p]).tail, new < c) :
    ∃ l', Chain (next (mergeNext (linkPrev m p new cur).1 (linkPrev m p new cur).2 cur)) a l' 0 ∧
      Inserted m (mergeNext (linkPrev m p new cur).1 (linkPrev m p new cur).2 cur)
        (l1 ++ p :: l2) new l' ∧
      ∀ x, (∀ b ∈ [new, p], x < b ∨ b + 16 ≤ x) →
        mergeNext (linkPrev m p new cur).1 (linkPrev m p new cur).2 cur x = m x := by
  have hp : p ∈ new :: (l1 ++ p :: l2) := by simp
  have hn : new ∈ new :: (l1 ++ p :: l2) := by simp
  have htp := hf.top p hp
  have htn := hf.top new hn
  have hpl : Place (l1 ++ [p]) l2 new := by
    refine ⟨by simp, hpast, fun c hc => ?_⟩
    cases l2 with
    | nil => cases hc
    | cons d l2 =>
      obtain rfl : d = c := Option.some.inj hc
      exact h2.1 ▸ hle
  by_cases he : p + 16 + size m p = new
  · exact ⟨_, link_merge hf h1 h2 hle hpl he⟩
  · have hk := hooked hf (show cur < 2 ^ 64 by omega)
    set m2 := setNext (setNext m p new) new cur
    have hadj : dataAt p (size m2 p) ≠ new := by rwa [hk.size p hp, dataAt_eq htp]
    have hl : linkPrev m p new cur = (m2, new) := by
      simp only [linkPrev, m2, if_neg hadj]
    have hmg : mergeNext m2 new cur = m2 := by
      rw [mergeNext, if_neg]
      rw [hk.size new hn, dataAt_eq htn]
      omega
    rw [hl, hmg]
    refine ⟨(l1 ++ [p]) ++ new :: l2, ?_, .link (by simp) hpl (fun q hq => ?_) hk.size, hk.out⟩
    · refine chain_append.mpr ⟨new, h1.relink (fun b hb => hk.next b (by simp [hb])) hk.prev_next, rfl, ?_⟩
      rw [hk.new_next]
      exact h2.congr fun b hb => hk.next b (by simp [hb])
    · obtain rfl : p = q := by simpa using hq
      exact he

lemma insertBlock_found {s : State} {fuel cpu new prev cur : ℕ} (h0 : s.start cpu ≠ 0)
    (hw : insertWalk s.mem new fuel (s.start cpu) (next s.mem (s.start cpu)) = .ok (prev, cur))
    (hne : new ≠ cur) : insertBlock fuel s cpu new = .ok { s with
      mem := mergeNext (linkPrev s.mem prev new cur).1 (linkPrev s.mem prev new cur).2 cur } := by
  simp only [insertBlock, if_neg h0, hw, bind, Except.bind, if_neg hne, pure, Except.pure]

/-- The effect of `insert_block` on the list of the CPU, and on the memory. -/
lemma insertBlock_spec {s s' : State} {fuel cpu new : ℕ} {l : List ℕ}
    (h : Chain (next s.mem) (s.start cpu) l 0) (hf : Fresh s.mem l new)
    (hr : insertBlock fuel s cpu new = .ok s') :
    ∃ l', Chain (next s'.mem) (s'.start cpu) l' 0 ∧ Inserted s.mem s'.mem l new l' ∧
      (∀ c, c ≠ cpu → s'.start c = s.start c) ∧
      ∀ x, (∀ b ∈ new :: l, x < b ∨ b + 16 ≤ x) → s'.mem x = s.mem x := by
  rw [insertBlock] at hr
  cases l with
  | nil =>
    have h0 : s.start cpu = 0 := h
    simp only [h0, if_true] at hr
    cases hr
    refine ⟨[new], ?_, ?_, fun c hc => by simp [setStart, hc], fun x hx => ?_⟩
    · simp only [setStart, if_true, chain_cons, chain_nil, true_and]
      exact next_setNext (by omega)
    · refine @Inserted.link _ _ _ _ [] [] rfl ⟨fun _ => rfl, by simp, by simp⟩ (by simp) fun b hb => ?_
      rw [List.mem_singleton.mp hb]
      exact size_setNext
    · have := hx new (by simp)
      exact setNext_out (by omega)
  | cons a l =>
    obtain ⟨ha, h2⟩ := h
    have hpos := hf.pos a (by simp)
    simp only [ha, if_neg (show a ≠ 0 by omega)] at hr
    cases hw : insertWalk s.mem new fuel a (next s.mem a) with
    | error e => simp [hw, bind, Except.bind] at hr
    | ok r =>
      obtain ⟨p, cur⟩ := r
      obtain ⟨l1, l2, he, hc, hle, hpast⟩ := insertWalk_spec h2 hw
      simp only [hw, bind, Except.bind, pure, Except.pure] at hr
      split at hr
      · cases hr
      · obtain rfl := Except.ok.inj hr
        have hch : Chain (next s.mem) a (l1 ++ p :: l2) 0 := by rw [← he]; exact ⟨rfl, h2⟩
        rw [List.append_cons, chain_append] at hch
        obtain ⟨cur', h3, h4⟩ := hch
        have hcc : cur' = cur := by
          cases l2 with
          | nil => exact (chain_nil.mp h4).trans (chain_nil.mp hc).symm
          | cons d l2 => exact h4.1.trans hc.1.symm
        subst hcc
        rw [he] at hf ⊢
        obtain ⟨l', h5, h6, h7⟩ := link_spec hf h3 hc hle hpast
        simp only [ha]
        refine ⟨l', h5, h6, fun _ _ => trivial, fun x hx => h7 x fun b hb => ?_⟩
        exact hx b (by simp at hb ⊢; tauto)

lemma insertBlock_total {s : State} {fuel cpu new : ℕ} {l : List ℕ}
    (h : Chain (next s.mem) (s.start cpu) l 0) (hf : Fresh s.mem l new)
    (hfuel : l.length ≤ fuel) : ∃ s', insertBlock fuel s cpu new = .ok s' := by
  cases l with
  | nil =>
    rw [insertBlock]
    exact ⟨_, if_pos h⟩
  | cons a l =>
    obtain ⟨ha, h2⟩ := h
    have hpos := hf.pos a (by simp)
    obtain ⟨⟨p, cur⟩, hw⟩ := insertWalk_total new a h2
      (show l.length < fuel from hfuel)
    obtain ⟨l1, l2, he, hc, hle, -⟩ := insertWalk_spec h2 hw
    have hne : new ≠ cur := by
      rintro rfl
      cases l2 with
      | nil =>
        have h3 : new = 0 := hc
        have := hf.pos new (by simp)
        omega
      | cons d l2 =>
        obtain ⟨rfl, -⟩ := hc
        refine (List.nodup_cons.mp hf.nodup).1 ?_
        rw [he]
        simp
    exact ⟨_, insertBlock_found (by omega) (ha.symm ▸ hw) hne⟩

/-! ### The heap -/

/-- Every address of the segment lies in one of the regions. -/
def Covered (regs : List Seg) (g : Seg) : Prop :=
  ∀ x, g.lo ≤ x → x < g.hi → ∃ r ∈ regs, r.lo ≤ x ∧ x < r.hi

/-- The blocks there are: those handed out, and those on a list. -/
def Here (fr : ℕ → List ℕ) (own : List ℕ) (b : ℕ) : Prop := b ∈ own ∨ ∃ c, b ∈ fr c

/-- The heap's invariant: `fr c` is the free list of CPU `c`, `own` the blocks on no list,
and `regs` the memory the page allocator has given to the heap. -/
structure Heap (m : Mem) (start : ℕ → ℕ) (fr : ℕ → List ℕ) (own : List ℕ) (regs : List Seg) :
    Prop where
  chain : ∀ c, Chain (next m) (start c) (fr c) 0
  nodup : ∀ c, (fr c).Nodup
  one : ∀ b c c', b ∈ fr c → b ∈ fr c' → c = c'
  ownNodup : own.Nodup
  ownFree : ∀ b ∈ own, ∀ c, b ∉ fr c
  al : ∀ b, Here fr own b → b % 16 = 0 ∧ size m b % 16 = 0
  cov : ∀ b, Here fr own b → Covered regs (blk m b)
  apart : ∀ b b', Here fr own b → Here fr own b' → b ≠ b' → Apart (blk m b) (blk m b')
  regs : ∀ r ∈ regs, 0 < r.lo ∧ r.hi < 2 ^ 64

variable {m m' : Mem} {start start' : ℕ → ℕ} {fr : ℕ → List ℕ} {own : List ℕ} {regs : List Seg}

lemma Heap.bounds (h : Heap m start fr own regs) {b : ℕ} (hb : Here fr own b) :
    0 < b ∧ b + 16 + size m b < 2 ^ 64 := by
  obtain ⟨r, hr, h1, -⟩ := h.cov b hb b (le_refl _) (by simp only [Seg.hi, blk]; omega)
  obtain ⟨r', hr', -, h2⟩ := h.cov b hb (b + 15 + size m b) (by simp only [blk]; omega)
    (by simp only [Seg.hi, blk]; omega)
  have h3 := h.regs r hr
  have h4 := h.regs r' hr'
  omega

lemma Heap.sep (h : Heap m start fr own regs) {b b' : ℕ} (hb : Here fr own b)
    (hb' : Here fr own b') (hne : b ≠ b') : b + 16 ≤ b' ∨ b' + 16 ≤ b := by
  have := h.apart b b' hb hb' hne
  simp only [Apart, Seg.hi, blk] at this
  omega

lemma Heap.fresh {new : ℕ} (h : Heap m start fr (new :: own) regs) (cpu : ℕ) :
    Fresh m (fr cpu) new := by
  have hh : ∀ b ∈ new :: fr cpu, Here fr (new :: own) b := by
    intro b hb
    rcases List.mem_cons.mp hb with rfl | hb
    · exact Or.inl (by simp)
    · exact Or.inr ⟨cpu, hb⟩
  exact ⟨fun b hb => (h.bounds (hh b hb)).1, fun b hb => (h.bounds (hh b hb)).2,
    List.nodup_cons.mpr ⟨h.ownFree new (by simp) cpu, h.nodup cpu⟩,
    fun b hb c hc => h.apart b c (hh b hb) (hh c hc)⟩

/-- No block is in two places. -/
structure Dealt (fr : ℕ → List ℕ) (own : List ℕ) : Prop where
  nodup : ∀ c, (fr c).Nodup
  one : ∀ b c c', b ∈ fr c → b ∈ fr c' → c = c'
  ownNodup : own.Nodup
  ownFree : ∀ b ∈ own, ∀ c, b ∉ fr c

lemma Heap.dealt (h : Heap m start fr own regs) : Dealt fr own :=
  ⟨h.nodup, h.one, h.ownNodup, h.ownFree⟩

/-- The list of one CPU and the blocks on no list are replaced. -/
lemma Dealt.replace {cpu : ℕ} {l' own' : List ℕ} (d : Dealt fr own) (hnd : l'.Nodup)
    (hond : own'.Nodup) (hl : ∀ c, c ≠ cpu → ∀ b ∈ l', b ∉ fr c) (hol : ∀ b ∈ own', b ∉ l')
    (hoc : ∀ c, c ≠ cpu → ∀ b ∈ own', b ∉ fr c) : Dealt (Function.update fr cpu l') own' := by
  refine ⟨fun c => ?_, fun b c c' hb hb' => ?_, hond, fun b hb c hbc => ?_⟩
  · by_cases hc : c = cpu
    · rw [hc, Function.update_self]
      exact hnd
    · rw [Function.update_of_ne hc]
      exact d.nodup c
  · by_cases hc : c = cpu <;> by_cases hc' : c' = cpu
    · rw [hc, hc']
    · rw [hc, Function.update_self] at hb
      rw [Function.update_of_ne hc'] at hb'
      exact absurd hb' (hl c' hc' b hb)
    · rw [Function.update_of_ne hc] at hb
      rw [hc', Function.update_self] at hb'
      exact absurd hb (hl c hc b hb')
    · rw [Function.update_of_ne hc] at hb
      rw [Function.update_of_ne hc'] at hb'
      exact d.one b c c' hb hb'
  · by_cases hc : c = cpu
    · rw [hc, Function.update_self] at hbc
      exact hol b hb hbc
    · rw [Function.update_of_ne hc] at hbc
      exact hoc c hc b hb hbc

lemma here_update {cpu : ℕ} {l' : List ℕ} {b : ℕ} : Here (Function.update fr cpu l') own b ↔
    b ∈ own ∨ b ∈ l' ∨ ∃ c, c ≠ cpu ∧ b ∈ fr c := by
  refine or_congr_right ⟨fun ⟨c, hb⟩ => ?_, ?_⟩
  · by_cases hc : c = cpu
    · rw [hc, Function.update_self] at hb
      exact Or.inl hb
    · rw [Function.update_of_ne hc] at hb
      exact Or.inr ⟨c, hc, hb⟩
  · rintro (hb | ⟨c, hc, hb⟩)
    · exact ⟨cpu, by rwa [Function.update_self]⟩
    · exact ⟨c, by rwa [Function.update_of_ne hc]⟩

lemma here_iff (cpu : ℕ) {b : ℕ} : Here fr own b ↔ b ∈ own ∨ b ∈ fr cpu ∨ ∃ c, c ≠ cpu ∧ b ∈ fr c := by
  rw [← here_update, Function.update_eq_self]

/-- A block leaves its list and another takes its place. -/
lemma here_cut {cpu cur new b : ℕ} {l1 l2 : List ℕ} (hl : fr cpu = l1 ++ cur :: l2) :
    Here (Function.update fr cpu (l1 ++ new :: l2)) (cur :: own) b ↔ Here fr own b ∨ b = new := by
  rw [here_update, here_iff cpu, hl]
  simp only [List.mem_append, List.mem_cons]
  constructor
  · rintro ((rfl | hb) | (hb | rfl | hb) | hb)
    all_goals simp [*]
  · rintro ((hb | (hb | rfl | hb) | hb) | rfl)
    all_goals simp [*]

lemma Dealt.cut {cpu cur new : ℕ} {l1 l2 : List ℕ} (d : Dealt fr own) (hl : fr cpu = l1 ++ cur :: l2)
    (hnew : ¬ Here fr own new) :
    Dealt (Function.update fr cpu (l1 ++ new :: l2)) (cur :: own) := by
  have hcur : cur ∈ fr cpu := by rw [hl]; simp
  obtain ⟨hcnot, hnd⟩ := List.nodup_cons.mp (List.perm_middle.nodup_iff.mp (hl ▸ d.nodup cpu))
  have hmem : ∀ b ∈ l1 ++ new :: l2, b = new ∨ b ∈ l1 ++ l2 :=
    fun b hb => List.mem_cons.mp (List.perm_middle.mem_iff.mp hb)
  have hold : ∀ b ∈ l1 ++ l2, b ∈ fr cpu := fun b hb => by
    rw [hl]
    exact List.perm_middle.mem_iff.mpr (List.mem_cons_of_mem _ hb)
  refine d.replace ?_ ?_ (fun c hcc b hb hb' => ?_) (fun b hb hb' => ?_) fun c hcc b hb hb' => ?_
  · exact List.perm_middle.nodup_iff.mpr
      (List.nodup_cons.mpr ⟨fun hn => hnew (Or.inr ⟨cpu, hold new hn⟩), hnd⟩)
  · exact List.nodup_cons.mpr ⟨fun hn => d.ownFree cur hn cpu hcur, d.ownNodup⟩
  · rcases hmem b hb with rfl | hb
    · exact hnew (Or.inr ⟨c, hb'⟩)
    · exact hcc (d.one b c cpu hb' (hold b hb))
  · rcases List.mem_cons.mp hb with rfl | hb <;> rcases hmem b hb' with rfl | hb'
    · exact hnew (Or.inr ⟨cpu, hcur⟩)
    · exact hcnot hb'
    · exact hnew (Or.inl hb)
    · exact d.ownFree b hb cpu (hold b hb')
  · rcases List.mem_cons.mp hb with rfl | hb
    · exact hcc (d.one b c cpu hb' hcur)
    · exact d.ownFree b hb c hb'

lemma chain_update {cpu : ℕ} {l' : List ℕ} (h : ∀ c, Chain (next m) (start c) (fr c) 0)
    (hl : Chain (next m') (start' cpu) l' 0) (hst : ∀ c, c ≠ cpu → start' c = start c)
    (hn : ∀ c, c ≠ cpu → ∀ b ∈ fr c, next m' b = next m b) (c : ℕ) :
    Chain (next m') (start' c) (Function.update fr cpu l' c) 0 := by
  by_cases hc : c = cpu
  · rw [hc, Function.update_self]
    exact hl
  · rw [Function.update_of_ne hc, hst c hc]
    exact (h c).congr (hn c hc)

lemma Heap.laid (h : Heap m start fr own regs) :
    Laid 16 16 (size m) (fun x => ∃ r ∈ regs, r.lo ≤ x ∧ x < r.hi) (Here fr own) :=
  ⟨fun b hb => ⟨Nat.dvd_of_mod_eq_zero (h.al b hb).1, Nat.dvd_of_mod_eq_zero (h.al b hb).2⟩,
    h.cov, h.apart⟩

lemma Heap.ofLaid (hch : ∀ c, Chain (next m) (start c) (fr c) 0) (d : Dealt fr own)
    (hl : Laid 16 16 (size m) (fun x => ∃ r ∈ regs, r.lo ≤ x ∧ x < r.hi) (Here fr own))
    (hregs : ∀ r ∈ regs, 0 < r.lo ∧ r.hi < 2 ^ 64) : Heap m start fr own regs :=
  ⟨hch, d.nodup, d.one, d.ownNodup, d.ownFree,
    fun b hb => ⟨Nat.mod_eq_zero_of_dvd (hl.al b hb).1, Nat.mod_eq_zero_of_dvd (hl.al b hb).2⟩,
    hl.cov, hl.apart, hregs⟩

/-- Where only headers `hs` inside of other blocks are written, a block keeps all its bytes. -/
lemma Heap.untouched {hs : List ℕ} {b : ℕ} (h : Heap m start fr own regs) (hb : Here fr own b)
    (hout : ∀ x, (∀ c ∈ hs, x < c ∨ c + 16 ≤ x) → m' x = m x)
    (hhs : ∀ c ∈ hs, ∃ d, Here fr own d ∧ d ≠ b ∧ d ≤ c ∧ c ≤ d + size m d) :
    ∀ x, b ≤ x → x < b + 16 + size m b → m' x = m x := by
  intro x h1 h2
  refine hout x fun c hc => ?_
  obtain ⟨d, hd, hne, h3, h4⟩ := hhs c hc
  have := h.apart d b hd hb hne
  simp only [Apart, Seg.hi, blk] at this
  omega

lemma Inserted.mem_or {l l' : List ℕ} {new b : ℕ} (h : Inserted m m' l new l') (hb : b ∈ l') :
    b ∈ new :: l := by
  cases h with
  | link he hpl hend hs => rw [he]; simp at hb ⊢; tauto
  | merge => exact List.mem_cons_of_mem _ hb

lemma Inserted.nodup {l l' : List ℕ} {new : ℕ} (h : Inserted m m' l new l') (hnd : (new :: l).Nodup) :
    l'.Nodup := by
  cases h with
  | link he hpl hend hs => rw [he] at hnd; exact List.perm_middle.nodup_iff.mpr hnd
  | merge => exact (List.nodup_cons.mp hnd).2

/-- What putting the block `new` on the list of a CPU does: only headers on the list are written. -/
structure Put (s s' : State) (cpu new : ℕ) (fr : ℕ → List ℕ) (own : List ℕ) (regs : List Seg)
    (l' : List ℕ) : Prop where
  ins : Inserted s.mem s'.mem (fr cpu) new l'
  heap : Heap s'.mem s'.start (Function.update fr cpu l') own regs
  change : Change 16 16 (size s.mem) (size s'.mem) (Here fr (new :: own))
    (Here (Function.update fr cpu l') own)
  out : ∀ x, (∀ b ∈ new :: fr cpu, x < b ∨ b + 16 ≤ x) → s'.mem x = s.mem x
  keep : ∀ b, Here fr own b → b ∉ fr cpu → ∀ x, b ≤ x → x < b + 16 + size s.mem b →
    s'.mem x = s.mem x

lemma Heap.insert {s s' : State} {fuel cpu new : ℕ} (h : Heap s.mem s.start fr (new :: own) regs)
    (hr : insertBlock fuel s cpu new = .ok s') : ∃ l', Put s s' cpu new fr own regs l' := by
  obtain ⟨l', hch, hins, hst, hout⟩ := insertBlock_spec (h.chain cpu) (h.fresh cpu) hr
  have hnew : Here fr (new :: own) new := Or.inl (by simp)
  have hkeep : ∀ b, Here fr (new :: own) b → b ∉ new :: fr cpu → ∀ x, b ≤ x →
      x < b + 16 + size s.mem b → s'.mem x = s.mem x := by
    intro b hb hnb
    refine h.untouched hb hout fun c hc => ⟨c, ?_, ?_, le_refl _, Nat.le_add_right _ _⟩
    · rcases List.mem_cons.mp hc with rfl | hc
      · exact hnew
      · exact Or.inr ⟨cpu, hc⟩
    · rintro rfl
      exact hnb hc
  have hhdr : ∀ b, Here fr (new :: own) b → b ∉ new :: fr cpu → SameHdr s.mem s'.mem b :=
    fun b hb hnb x h1 h2 => hkeep b hb hnb x h1 (by omega)
  obtain ⟨hownNew, hownNd⟩ := List.nodup_cons.mp h.ownNodup
  have hown : ∀ b ∈ own, b ∉ new :: fr cpu := by
    intro b hb hb'
    rcases List.mem_cons.mp hb' with rfl | hb'
    · exact hownNew hb
    · exact h.ownFree b (List.mem_cons_of_mem _ hb) cpu hb'
  have hoth : ∀ c, c ≠ cpu → ∀ b ∈ new :: fr cpu, b ∉ fr c := by
    intro c hc b hb hb'
    rcases List.mem_cons.mp hb with rfl | hb
    · exact h.ownFree b (by simp) c hb'
    · exact hc (h.one b c cpu hb' hb)
  have hdealt : Dealt (Function.update fr cpu l') own :=
    h.dealt.replace (hins.nodup (h.fresh cpu).nodup) hownNd
      (fun c hc b hb => hoth c hc b (hins.mem_or hb)) (fun b hb hb' => hown b hb (hins.mem_or hb'))
      fun c _ b hb => h.ownFree b (List.mem_cons_of_mem _ hb) c
  have hchain := chain_update h.chain hch hst fun c hc b hb =>
    (hhdr b (Or.inr ⟨c, hb⟩) fun hb' => hoth c hc b hb' hb).next
  -- the blocks stay, or `new` goes into the block before it
  have hchange : Change 16 16 (size s.mem) (size s'.mem) (Here fr (new :: own))
      (Here (Function.update fr cpu l') own) := by
    cases hins with
    | @link l1 l2 he hpl hend hs =>
      refine .keep (fun b => ?_) fun b hb => ?_
      · rw [here_update, here_iff cpu, he]
        simp only [List.mem_append, List.mem_cons]
        tauto
      · by_cases hbc : b ∈ new :: fr cpu
        · exact hs b hbc
        · exact (hhdr b hb hbc).size
    | @merge p l1 l2 hl hpl he hs ho =>
      have hp : p ∈ fr cpu := by rw [hl]; simp
      have hP : ∀ b, Here (Function.update fr cpu (fr cpu)) own b ↔ Here fr (new :: own) b ∧ b ≠ new := by
        intro b
        rw [Function.update_eq_self]
        constructor
        · rintro (hb | ⟨c, hb⟩)
          · exact ⟨Or.inl (List.mem_cons_of_mem _ hb), by rintro rfl; exact hownNew hb⟩
          · exact ⟨Or.inr ⟨c, hb⟩, by rintro rfl; exact h.ownFree b (by simp) c hb⟩
        · rintro ⟨hb | hb, hne⟩
          · exact Or.inl ((List.mem_cons.mp hb).resolve_left hne)
          · exact Or.inr hb
      refine .merge p new (Or.inr ⟨cpu, hp⟩) hnew he hs hP fun b hb hbp => ?_
      obtain ⟨hb, hne⟩ := (hP b).mp hb
      by_cases hbc : b ∈ fr cpu
      · exact ho b hbc hbp
      · exact (hhdr b hb (by simp [hbc, hne])).size
  refine ⟨l', hins, .ofLaid hchain hdealt (h.laid.change (by decide) (by decide) hchange) h.regs,
    hchange, hout, fun b hb hbc => ?_⟩
  rcases hb with hb | ⟨c, hb⟩
  · exact hkeep b (Or.inl (List.mem_cons_of_mem _ hb)) (hown b hb)
  · refine hkeep b (Or.inr ⟨c, hb⟩) fun hb' => hoth c ?_ b hb' hb
    rintro rfl
    exact hbc hb

lemma Heap.perm {own' : List ℕ} (h : Heap m start fr own regs) (hp : own.Perm own') :
    Heap m start fr own' regs := by
  have hh : ∀ b, Here fr own' b → Here fr own b := by
    rintro b (hb | hb)
    · exact Or.inl (hp.mem_iff.mpr hb)
    · exact Or.inr hb
  exact ⟨h.chain, h.nodup, h.one, hp.nodup_iff.mp h.ownNodup,
    fun b hb => h.ownFree b (hp.mem_iff.mpr hb), fun b hb => h.al b (hh b hb),
    fun b hb => h.cov b (hh b hb), fun b b' hb hb' => h.apart b b' (hh b hb) (hh b' hb'), h.regs⟩

/-- Memory that changes only outside the headers of the blocks. -/
lemma Heap.congr (h : Heap m start fr own regs) (hs : ∀ b, Here fr own b → SameHdr m m' b) :
    Heap m' start fr own regs := by
  have hblk : ∀ b, Here fr own b → blk m' b = blk m b := fun b hb => by
    rw [blk, blk, (hs b hb).size]
  refine ⟨fun c => (h.chain c).congr fun b hb => (hs b (Or.inr ⟨c, hb⟩)).next, h.nodup, h.one,
    h.ownNodup, h.ownFree, fun b hb => ?_, fun b hb => ?_, fun b b' hb hb' hne => ?_, h.regs⟩
  · rw [(hs b hb).size]; exact h.al b hb
  · rw [hblk b hb]; exact h.cov b hb
  · rw [hblk b hb, hblk b' hb']; exact h.apart b b' hb hb' hne

/-- Writing to the payload of a block. -/
lemma Heap.payload (m' : Mem) {b : ℕ} (h : Heap m start fr own regs) (hb : Here fr own b)
    (hm : ∀ x, x < b + 16 ∨ b + 16 + size m b ≤ x → m' x = m x) :
    Heap m' start fr own regs ∧ (∀ c, Here fr own c → SameHdr m m' c) ∧
      ∀ c, Here fr own c → c ≠ b → ∀ x, c ≤ x → x < c + 16 + size m c → m' x = m x := by
  have hout : ∀ c, Here fr own c → c ≠ b → ∀ x, c ≤ x → x < c + 16 + size m c → m' x = m x := by
    intro c hc hne x h1 h2
    have := h.apart c b hc hb hne
    simp only [Apart, Seg.hi, blk] at this
    exact hm x (by omega)
  have hhdr : ∀ c, Here fr own c → SameHdr m m' c := by
    intro c hc x h1 h2
    by_cases hcb : c = b
    · exact hm x (by omega)
    · exact hout c hc hcb x h1 (by omega)
  exact ⟨h.congr hhdr, hhdr, hout⟩

/-! ### Splitting a block of the list -/

/-- The search ends at a block of the list that is large enough, or at the end of the list. -/
lemma findBlock_spec {sz fuel prev cur p c : ℕ} {l : List ℕ} (h : Chain (next m) cur l 0)
    (hr : findBlock m sz fuel prev cur = .ok (some (p, c))) :
    ∃ l1 l2, l = l1 ++ c :: l2 ∧ p = (prev :: l1).getLast (by simp) ∧
      (sz + hdrSize) % 2 ^ 64 ≤ size m c := by
  induction l generalizing fuel prev cur with
  | nil =>
    obtain rfl : cur = 0 := h
    cases fuel with
    | zero => cases hr
    | succ fuel => rw [findBlock, if_pos rfl] at hr; cases hr
  | cons d l ih =>
    obtain ⟨rfl, h2⟩ := h
    cases fuel with
    | zero => cases hr
    | succ fuel =>
      rw [findBlock] at hr
      split at hr
      · cases hr
      · split at hr
        · cases hr
          exact ⟨[], l, rfl, rfl, ‹_›⟩
        · obtain ⟨l1, l2, he, hp, hs⟩ := ih h2 hr
          exact ⟨cur :: l1, l2, by rw [he]; rfl, by rw [hp]; simp, hs⟩

lemma findBlock_none {sz fuel prev cur : ℕ} {l : List ℕ} (h : Chain (next m) cur l 0)
    (hr : findBlock m sz fuel prev cur = .ok none) (hpos : ∀ c ∈ l, 0 < c) :
    ∀ c ∈ l, size m c < (sz + hdrSize) % 2 ^ 64 := by
  induction l generalizing fuel prev cur with
  | nil => exact fun c hc => absurd hc List.not_mem_nil
  | cons d l ih =>
    obtain ⟨rfl, h2⟩ := h
    have h0 := hpos cur (by simp)
    cases fuel with
    | zero => cases hr
    | succ fuel =>
      rw [findBlock, if_neg (by omega)] at hr
      split at hr
      · cases hr
      · intro c hc
        rcases List.mem_cons.mp hc with rfl | hc
        · omega
        · exact ih h2 hr (fun c hc => hpos c (by simp [hc])) c hc

lemma findBlock_total {fuel cur : ℕ} (sz prev : ℕ) {l : List ℕ} (h : Chain (next m) cur l 0)
    (hf : l.length < fuel) : ∃ r, findBlock m sz fuel prev cur = .ok r := by
  induction l generalizing fuel prev cur with
  | nil =>
    obtain rfl : cur = 0 := h
    cases fuel with
    | zero => cases hf
    | succ fuel => exact ⟨none, by rw [findBlock, if_pos rfl]; rfl⟩
  | cons d l ih =>
    obtain ⟨rfl, h2⟩ := h
    cases fuel with
    | zero => cases hf
    | succ fuel =>
      rw [findBlock]
      split
      · exact ⟨_, rfl⟩
      · split
        · exact ⟨_, rfl⟩
        · exact ih _ h2 (by simpa using hf)

lemma canary_lt (b : ℕ) : canary b < 2 ^ 64 := Nat.mod_lt _ (by decide)

/-- What `splitBlock` leaves in memory; `new` is the block that stays on the list. -/
structure Cut (s s' : State) (cpu sz prev cur new : ℕ) : Prop where
  new_size : size s'.mem new = size s.mem cur - (sz + 16)
  new_next : next s'.mem new = next s.mem cur
  cur_size : size s'.mem cur = sz
  cur_next : next s'.mem cur = canary cur
  prev_size : prev ≠ 0 → size s'.mem prev = size s.mem prev
  prev_next : prev ≠ 0 → next s'.mem prev = new
  start : ∀ c, s'.start c = if c = cpu ∧ prev = 0 then new else s.start c
  out : ∀ x, (x < cur ∨ cur + 16 ≤ x) → (x < new ∨ new + 16 ≤ x) →
    (prev = 0 ∨ x < prev ∨ prev + 16 ≤ x) → s'.mem x = s.mem x

lemma splitBlock_cut {s : State} (cpu prev : ℕ) {sz cur : ℕ} (hsz : sz + 16 ≤ size s.mem cur)
    (htop : cur + 16 + size s.mem cur < 2 ^ 64)
    (hp : prev ≠ 0 → prev + 16 ≤ cur ∨ cur + 16 + size s.mem cur ≤ prev) :
    Cut s (splitBlock s cpu sz prev cur) cpu sz prev cur (cur + 16 + sz) := by
  set new := cur + 16 + sz with hnew
  have hd : dataAt cur sz = new := dataAt_eq (by omega)
  set m1 := setSize s.mem new (size s.mem cur - (sz + 16)) with hm1
  set m2 := setNext m1 new (next s.mem cur) with hm2
  have hsub : sub64 (size s.mem cur) (sz + hdrSize) = size s.mem cur - (sz + 16) :=
    sub64_eq hsz (by omega)
  have hnx1 : next m1 cur = next s.mem cur := next_setSize_sep (by omega)
  have hn2s : size m2 new = size s.mem cur - (sz + 16) := by
    rw [hm2, size_setNext]; exact size_setSize (by omega)
  have hn2n : next m2 new = next s.mem cur := next_setNext (next_lt _ _)
  have hout2 : ∀ x, (x < new ∨ new + 16 ≤ x) → m2 x = s.mem x := by
    intro x hx
    rw [hm2, setNext_out (by omega), hm1, setSize_out (by omega)]
  have hc := canary_lt cur
  by_cases h0 : prev = 0
  · have he : splitBlock s cpu sz prev cur = ⟨setNext (setSize m2 cur sz) cur (canary cur),
        fun c => if c = cpu then new else s.start c⟩ := by
      simp only [splitBlock, hd, hsub, ← hm1, hnx1, ← hm2, h0, ne_eq, not_true, if_false, setStart]
    rw [he]
    refine ⟨?_, ?_, ?_, next_setNext hc, (absurd h0 ·), (absurd h0 ·), ?_, ?_⟩
    · rw [size_setNext_sep (by omega), size_setSize_sep (by omega), hn2s]
    · rw [next_setNext_sep (by omega), next_setSize_sep (by omega), hn2n]
    · rw [size_setNext]; exact size_setSize (by omega)
    · intro c; simp [h0]
    · intro x h1 h2 _
      change setNext _ _ _ x = _
      rw [setNext_out (by omega), setSize_out (by omega), hout2 x h2]
  · have hp' := hp h0
    set m3 := setNext m2 prev new with hm3
    have he : splitBlock s cpu sz prev cur =
        ⟨setNext (setSize m3 cur sz) cur (canary cur), s.start⟩ := by
      simp only [splitBlock, hd, hsub, ← hm1, hnx1, ← hm2, ne_eq, h0, not_false_iff, if_true,
        ← hm3]
    rw [he]
    refine ⟨?_, ?_, ?_, next_setNext hc, fun _ => ?_, fun _ => ?_, ?_, ?_⟩
    · rw [size_setNext_sep (by omega), size_setSize_sep (by omega), hm3,
        size_setNext_sep (by omega), hn2s]
    · rw [next_setNext_sep (by omega), next_setSize_sep (by omega), hm3,
        next_setNext_sep (by omega), hn2n]
    · rw [size_setNext]; exact size_setSize (by omega)
    · rw [size_setNext_sep (by omega), size_setSize_sep (by omega), hm3, size_setNext]
      exact rd_congr fun x h1 h2 => hout2 x (by omega)
    · rw [next_setNext_sep (by omega), next_setSize_sep (by omega)]
      exact next_setNext (by omega)
    · intro c; simp [h0]
    · intro x h1 h2 h3
      change setNext _ _ _ x = _
      rw [setNext_out (by omega), setSize_out (by omega), hm3, setNext_out (by omega), hout2 x h2]

/-- The list after the cut has `new` in the place of `cur`. -/
lemma Cut.chain {s s' : State} {cpu sz prev cur new : ℕ} {l1 l2 : List ℕ}
    (hc : Cut s s' cpu sz prev cur new) (h : Chain (next s.mem) (s.start cpu) (l1 ++ cur :: l2) 0)
    (hnd : (l1 ++ cur :: l2).Nodup) (hprev : prev = (0 :: l1).getLast (by simp))
    (hpos : ∀ b ∈ l1 ++ cur :: l2, 0 < b)
    (hn : ∀ b ∈ l1 ++ cur :: l2, b ≠ cur → b ≠ prev → next s'.mem b = next s.mem b) :
    Chain (next s'.mem) (s'.start cpu) (l1 ++ new :: l2) 0 := by
  obtain ⟨hnd1, hnd2, hdisj⟩ := List.nodup_append.mp hnd
  obtain ⟨c', h1, hcc, h2⟩ := chain_append.mp h
  rw [hcc] at h1
  have h3 : Chain (next s'.mem) new (new :: l2) 0 := by
    refine ⟨rfl, ?_⟩
    rw [hc.new_next]
    refine h2.congr fun b hb => hn b (by simp [hb]) ?_ ?_
    · intro e
      exact (List.nodup_cons.mp hnd2).1 (e ▸ hb)
    · intro e
      have hp0 := hpos b (by simp [hb])
      have hm : b ∈ 0 :: l1 := by rw [e, hprev]; exact List.getLast_mem _
      rcases List.mem_cons.mp hm with h0 | hm
      · omega
      · exact hdisj b hm b (by simp [hb]) rfl
  refine chain_append.mpr ⟨new, ?_, h3⟩
  rcases List.eq_nil_or_concat' l1 with rfl | ⟨l0, p, rfl⟩
  · rw [hc.start cpu, if_pos ⟨rfl, by simpa using hprev⟩]
    rfl
  · have hpp : prev = p := by
      rw [hprev, List.getLast_cons (by simp)]
      simp
    have hp0 : prev ≠ 0 := by
      have := hpos p (by simp)
      omega
    rw [hc.start cpu, if_neg (by simp [hp0])]
    refine h1.relink (fun b hb => hn b (by simp [hb]) ?_ ?_) ?_
    · exact fun e => hdisj b (by simp [hb]) cur (by simp) e
    · exact fun e => (List.nodup_append.mp hnd1).2.2 b hb p (by simp) (e.trans hpp)
    · rw [← hpp]; exact hc.prev_next hp0

/-- Splitting a block of a list: the rest takes its place there, and the block is on no list. -/
lemma Heap.split {s : State} {cpu sz prev cur : ℕ} {l1 l2 : List ℕ}
    (h : Heap s.mem s.start fr own regs) (hl : fr cpu = l1 ++ cur :: l2)
    (hprev : prev = (0 :: l1).getLast (by simp)) (hsz : sz + 16 ≤ size s.mem cur)
    (hal : sz % 16 = 0) :
    Cut s (splitBlock s cpu sz prev cur) cpu sz prev cur (cur + 16 + sz) ∧
    Heap (splitBlock s cpu sz prev cur).mem (splitBlock s cpu sz prev cur).start
      (Function.update fr cpu (l1 ++ (cur + 16 + sz) :: l2)) (cur :: own) regs ∧
    Change 16 16 (size s.mem) (size (splitBlock s cpu sz prev cur).mem) (Here fr own)
      (Here (Function.update fr cpu (l1 ++ (cur + 16 + sz) :: l2)) (cur :: own)) ∧
    (∀ b, Here fr own b → b ≠ cur → size (splitBlock s cpu sz prev cur).mem b = size s.mem b) ∧
    ∀ x, (∀ b ∈ (cur + 16 + sz) :: fr cpu, x < b ∨ b + 16 ≤ x) →
      (splitBlock s cpu sz prev cur).mem x = s.mem x := by
  have hmem : ∀ b ∈ l1 ++ cur :: l2, Here fr own b := fun b hb => Or.inr ⟨cpu, by rwa [hl]⟩
  have hcur : Here fr own cur := hmem cur (by simp)
  have hb := h.bounds hcur
  have hnd : (l1 ++ cur :: l2).Nodup := hl ▸ h.nodup cpu
  have hp : prev ≠ 0 → prev ∈ l1 ∧ prev ≠ cur := by
    intro h0
    have hm : prev ∈ 0 :: l1 := by rw [hprev]; exact List.getLast_mem _
    have hm : prev ∈ l1 := (List.mem_cons.mp hm).resolve_left h0
    refine ⟨hm, ?_⟩
    rintro rfl
    exact (List.nodup_append.mp hnd).2.2 _ hm _ (by simp) rfl
  have hc := splitBlock_cut (s := s) cpu prev hsz hb.2 fun h0 => by
    have := h.apart prev cur (hmem _ (by simp [(hp h0).1])) hcur (hp h0).2
    simp only [Apart, Seg.hi, blk] at this
    omega
  have hfresh := h.laid.cut_fresh (by omega) hcur hsz
  set s' := splitBlock s cpu sz prev cur
  set new := cur + 16 + sz with hnew
  have hhdr : ∀ b, Here fr own b → b ≠ cur → b ≠ prev → SameHdr s.mem s'.mem b := by
    intro b hb hbc hbp x h1 h2
    have h3 := h.apart b cur hb hcur hbc
    simp only [Apart, Seg.hi, blk] at h3
    refine hc.out x (by omega) (by omega) ?_
    by_cases h0 : prev = 0
    · exact Or.inl h0
    · have := h.sep hb (hmem _ (by simp [(hp h0).1])) hbp
      omega
  have hsize : ∀ b, Here fr own b → b ≠ cur → size s'.mem b = size s.mem b := by
    intro b hb hbc
    by_cases hbp : b = prev
    · have := (h.bounds hb).1
      rw [hbp]
      exact hc.prev_size (by omega)
    · exact (hhdr b hb hbc hbp).size
  have hoth : ∀ c, c ≠ cpu → ∀ b ∈ fr c, b ∉ l1 ++ cur :: l2 := by
    intro c hc b hb hb'
    exact hc (h.one b c cpu hb (hl ▸ hb'))
  have hchain : ∀ c, Chain (next s'.mem) (s'.start c)
      (Function.update fr cpu (l1 ++ new :: l2) c) 0 := by
    refine chain_update h.chain ?_ (fun c hcc => ?_) fun c hcc b hb => ?_
    · have hch := h.chain cpu
      rw [hl] at hch
      refine hc.chain hch hnd hprev (fun b hb => (h.bounds (hmem b hb)).1) fun b hb hbc hbp => ?_
      exact (hhdr b (hmem b hb) hbc hbp).next
    · rw [hc.start c, if_neg (by simp [hcc])]
    · have hno := hoth c hcc b hb
      have h0 := (h.bounds (Or.inr ⟨c, hb⟩ : Here fr own b)).1
      refine (hhdr b (Or.inr ⟨c, hb⟩) (fun e => hno (by simp [e])) fun e => hno ?_).next
      rw [e]
      exact List.mem_append_left _ (hp (by omega)).1
  have hchange : Change 16 16 (size s.mem) (size s'.mem) (Here fr own)
      (Here (Function.update fr cpu (l1 ++ new :: l2)) (cur :: own)) :=
    .cut cur sz hcur (Nat.dvd_of_mod_eq_zero hal) hsz hc.cur_size hc.new_size
      (fun b => here_cut hl) hsize
  refine ⟨hc, .ofLaid hchain (h.dealt.cut hl hfresh) (h.laid.change (by decide) (by decide) hchange) h.regs, hchange,
    hsize, fun x hx => hc.out x (hx cur (by simp [hl])) (hx new (by simp)) ?_⟩
  by_cases h0 : prev = 0
  · exact Or.inl h0
  · exact Or.inr (hx prev (by simp [hl, (hp h0).1]))

/-! ### A new region -/

/-- A region apart from all those of the heap is apart from its blocks. -/
lemma Heap.outside {g : Seg} {b : ℕ} (h : Heap m start fr own regs) (hg : ∀ r ∈ regs, Apart g r)
    (hlen : 0 < g.len) (hb : Here fr own b) : Apart g (blk m b) := by
  have hcov : ∀ x, b ≤ x → x < b + (16 + size m b) → x < g.lo ∨ g.hi ≤ x := by
    intro x h1 h2
    obtain ⟨r, hr, h3, h4⟩ := h.cov b hb x h1 h2
    have := hg r hr
    simp only [Apart] at this
    omega
  simp only [Apart, Seg.hi, blk]
  by_contra hcon
  have h1 := hcov (max b g.lo) (by omega) (by omega)
  simp only [Seg.hi] at h1
  omega

/-- A region that does not touch the heap can be added to it as two blocks on no list. -/
lemma Heap.grow (m' : Mem) {g : Seg} {sz v : ℕ} (h : Heap m start fr own regs)
    (hg : ∀ r ∈ regs, Apart g r) (h0 : 0 < g.lo) (htop : g.hi < 2 ^ 64) (hlo : g.lo % 16 = 0)
    (hsz : sz % 16 = 0) (hv : v % 16 = 0) (hlen : 32 + sz + v ≤ g.len)
    (hout : ∀ x, x < g.lo ∨ g.hi ≤ x → m' x = m x) (hs : size m' g.lo = sz)
    (hn : size m' (g.lo + 16 + sz) = v) :
    Heap m' start fr ((g.lo + 16 + sz) :: g.lo :: own) (g :: regs) ∧
      ∀ b, Here fr own b → ∀ x, b ≤ x → x < b + 16 + size m b → m' x = m x := by
  set new := g.lo + 16 + sz with hnew
  have hkeep : ∀ b, Here fr own b → ∀ x, b ≤ x → x < b + 16 + size m b → m' x = m x := by
    intro b hb x h1 h2
    obtain ⟨r, hr, h3, h4⟩ := h.cov b hb x h1 (by simp only [Seg.hi, blk]; omega)
    have := hg r hr
    simp only [Apart] at this
    exact hout x (by omega)
  have hhdr : ∀ b, Here fr own b → SameHdr m m' b :=
    fun b hb x h1 h2 => hkeep b hb x h1 (by omega)
  have hH := h.congr hhdr
  have hoff : ∀ b, Here fr own b → Apart g (blk m' b) := fun b hb => hH.outside hg (by omega) hb
  have hghi : g.hi = g.lo + g.len := rfl
  have hnot : ∀ b, Here fr own b → b ≠ g.lo ∧ b ≠ new := by
    intro b hb
    have := hoff b hb
    simp only [Apart, Seg.hi, blk] at this
    omega
  have hhere : ∀ b, Here fr (new :: g.lo :: own) b → b = new ∨ b = g.lo ∨ Here fr own b := by
    rintro b (hb | hb)
    · simp only [List.mem_cons] at hb
      rcases hb with hb | hb | hb
      · exact Or.inl hb
      · exact Or.inr (Or.inl hb)
      · exact Or.inr (Or.inr (Or.inl hb))
    · exact Or.inr (Or.inr (Or.inr hb))
  have hi1 : Inside (blk m' new) g := by simp only [Inside, Seg.hi, blk, hn]; omega
  have hi2 : Inside (blk m' g.lo) g := by simp only [Inside, Seg.hi, blk, hs]; omega
  have hap : Apart (blk m' g.lo) (blk m' new) := by simp only [Apart, Seg.hi, blk, hs]; omega
  refine ⟨⟨hH.chain, h.nodup, h.one, ?_, fun b hb c hbc => ?_, fun b hb => ?_, fun b hb => ?_,
    fun b b' hb hb' hne => ?_, ?_⟩, hkeep⟩
  · refine List.nodup_cons.mpr ⟨fun hmem => ?_, List.nodup_cons.mpr ⟨fun hmem => ?_, h.ownNodup⟩⟩
    · rcases List.mem_cons.mp hmem with e | hmem
      · omega
      · exact (hnot new (Or.inl hmem)).2 rfl
    · exact (hnot g.lo (Or.inl hmem)).1 rfl
  · have hb' := hnot b (Or.inr ⟨c, hbc⟩)
    simp only [List.mem_cons, hb'.1, hb'.2, false_or] at hb
    exact h.ownFree b hb c hbc
  · rcases hhere b hb with rfl | rfl | hb
    · rw [hn]; omega
    · rw [hs]; omega
    · exact hH.al b hb
  · rcases hhere b hb with rfl | rfl | hb
    · exact fun x h1 h2 => ⟨g, by simp, hi1.1.trans h1, lt_of_lt_of_le h2 hi1.2⟩
    · exact fun x h1 h2 => ⟨g, by simp, hi2.1.trans h1, lt_of_lt_of_le h2 hi2.2⟩
    · intro x h1 h2
      obtain ⟨r, hr, h3⟩ := hH.cov b hb x h1 h2
      exact ⟨r, by simp [hr], h3⟩
  · rcases hhere b hb with rfl | rfl | hb1 <;> rcases hhere b' hb' with rfl | rfl | hb2
    · exact absurd rfl hne
    · exact hap.symm
    · exact (hoff b' hb2).mono hi1
    · exact hap
    · exact absurd rfl hne
    · exact (hoff b' hb2).mono hi2
    · exact ((hoff b hb1).mono hi1).symm
    · exact ((hoff b hb1).mono hi2).symm
    · exact hH.apart b b' hb1 hb2 hne
  · intro r hr
    rcases List.mem_cons.mp hr with rfl | hr
    · exact ⟨h0, htop⟩
    · exact h.regs r hr

/-! ### The calls -/

/-- What the heap relies on when `page_alloc(r)` returns the region `g`. -/
structure Grant (regs : List Seg) (r : ℕ) (g : Seg) : Prop where
  lo : g.lo % 16 = 0
  len : PageAlloc.blockSize r ≤ g.len
  apart : ∀ x ∈ regs, Apart g x
  pos : 0 < g.lo
  top : g.hi < 2 ^ 64

/-- The regions of the heap after a call that asked for `req`. -/
def addReg (regs : List Seg) (g : Seg) : Option ℕ → List Seg
  | none => regs
  | some _ => g :: regs

lemma alignUp_spec {n : ℕ} (h : n ≤ 2 ^ 63 - 32) : alignUp n % 16 = 0 ∧ n ≤ alignUp n ∧
    alignUp n < n + 16 ∧ alignUp n ≤ 2 ^ 63 - 32 := by
  unfold alignUp; omega

lemma nextPow2_dvd {x : ℕ} (h0 : 16 ≤ x) (h : x ≤ 2 ^ 63) :
    ∃ v, PageAlloc.nextPow2 x = v ∧ x ≤ v ∧ v % 16 = 0 ∧ v < 2 ^ 64 := by
  obtain ⟨k, hk, he, hle⟩ := PageAllocInv.nextPow2_eq (by omega) h
  refine ⟨2 ^ k, he, hle, Nat.mod_eq_zero_of_dvd ?_, Nat.pow_lt_pow_right (by omega) (by omega)⟩
  have h4 : 4 ≤ k := by
    by_contra hlt
    have : 2 ^ k ≤ 2 ^ 3 := Nat.pow_le_pow_right (by omega) (by omega)
    omega
  exact Nat.pow_dvd_pow 2 h4

/-- A region as `kalloc` divides it: a block of `sz` bytes with its canary, and the rest. -/
def carved (m : Mem) (lo sz : ℕ) : Mem :=
  setSize (setNext (setSize m lo sz) lo (canary lo)) (dataAt lo sz)
    (PageAlloc.nextPow2 (sz + 32) - (sz + 32))

lemma Grant.fit {regs : List Seg} {sz : ℕ} {g : Seg} (hg : Grant regs (sz + 32) g)
    (hlt : sz ≤ 2 ^ 63 - 32) : sz + 32 ≤ PageAlloc.nextPow2 (sz + 32) ∧
      PageAlloc.nextPow2 (sz + 32) ≤ g.len ∧ PageAlloc.nextPow2 (sz + 32) % 16 = 0 ∧
      PageAlloc.nextPow2 (sz + 32) < 2 ^ 64 := by
  obtain ⟨v, hv, hle, hv16, hvt⟩ := nextPow2_dvd (x := sz + 32) (by omega) (by omega)
  have hlen := hg.len
  unfold PageAlloc.blockSize at hlen
  rw [hv] at hlen ⊢
  refine ⟨hle, ?_, hv16, hvt⟩
  split at hlen <;> omega

/-- What the two headers of a divided region say. -/
structure Carved (m m' : Mem) (lo sz : ℕ) : Prop where
  size : Header.size m' lo = sz
  canary : link m' lo = Kalloc.canary lo
  rest : Header.size m' (lo + 16 + sz) = PageAlloc.nextPow2 (sz + 32) - (sz + 32)
  out : ∀ x, (x < lo ∨ lo + 16 ≤ x) → (x < lo + 16 + sz ∨ lo + 16 + sz + 16 ≤ x) → m' x = m x

lemma carved_spec (m : Mem) {lo sz : ℕ} (hlo : lo + 16 + sz < 2 ^ 64)
    (hv : PageAlloc.nextPow2 (sz + 32) < 2 ^ 64) : Carved m (carved m lo sz) lo sz := by
  have hd : dataAt lo sz = lo + 16 + sz := dataAt_eq hlo
  unfold carved
  rw [hd]
  refine ⟨?_, ?_, size_setSize (by omega), fun x h1 h2 => ?_⟩
  · rw [size_setSize_sep (by omega), size_setNext]
    exact size_setSize (by omega)
  · rw [link, next_setSize_sep (by omega)]
    exact next_setNext (canary_lt _)
  · rw [setSize_out (by omega), setNext_out (by omega), setSize_out (by omega)]

/-- Both parts are blocks of the heap on no list. -/
lemma Heap.carve {sz : ℕ} {g : Seg} (h : Heap m start fr own regs) (hg : Grant regs (sz + 32) g)
    (hsz : sz % 16 = 0) (hlt : sz ≤ 2 ^ 63 - 32) :
    Carved m (carved m g.lo sz) g.lo sz ∧
      Heap (carved m g.lo sz) start fr ((g.lo + 16 + sz) :: g.lo :: own) (g :: regs) ∧
      ∀ b, Here fr own b → ∀ x, b ≤ x → x < b + 16 + size m b → carved m g.lo sz x = m x := by
  obtain ⟨hle, hvlen, hv16, hvt⟩ := hg.fit hlt
  have htop := hg.top
  have hhi : g.hi = g.lo + g.len := rfl
  have hc : Carved m (carved m g.lo sz) g.lo sz := carved_spec m (by omega) hvt
  exact ⟨hc, h.grow (carved m g.lo sz) hg.apart hg.pos htop hg.lo hsz (by omega) (by omega)
    (fun x hx => hc.out x (by omega) (by omega)) hc.size hc.rest⟩

/-- Where `kalloc` takes a block of `sz` bytes from, and the list it leaves, by what it asked of
`page_alloc`: a block of the list is cut, or a region is divided and the rest goes on the list. -/
inductive Taken (m m' : Mem) (l : List ℕ) (b sz : ℕ) : List ℕ → Option ℕ → Prop
  | cut {l1 l2 : List ℕ} (he : l = l1 ++ b :: l2) (hsz : sz + 16 ≤ size m b)
      (hns : size m' (b + 16 + sz) = size m b - (sz + 16))
      (ho : ∀ c ∈ l1 ++ l2, size m' c = size m c) :
      Taken m m' l b sz (l1 ++ (b + 16 + sz) :: l2) none
  | page {l1 l2 : List ℕ} (he : l = l1 ++ l2) (hpl : Place l1 l2 (b + 16 + sz))
      (hno : ∀ c ∈ l, size m c < sz + 16)
      (hns : size m' (b + 16 + sz) = PageAlloc.nextPow2 (sz + 32) - (sz + 32))
      (ho : ∀ c ∈ l, size m' c = size m c) :
      Taken m m' l b sz (l1 ++ (b + 16 + sz) :: l2) (some (sz + 32))

/-- The bytes a region brings to the blocks of the heap. -/
def gain : Option ℕ → ℕ
  | none => 0
  | some r => PageAlloc.nextPow2 r

/-- What one allocation does: the header `b` of the block handed out, and the list left. -/
structure Gave (s s' : State) (cpu n : ℕ) (fr : ℕ → List ℕ) (own : List ℕ) (regs' : List Seg)
    (ptr : ℕ) (req : Option ℕ) (b : ℕ) (l' : List ℕ) : Prop where
  ptr : ptr = b + 16
  taken : Taken s.mem s'.mem (fr cpu) b (alignUp n) l' req
  heap : Heap s'.mem s'.start (Function.update fr cpu l') (b :: own) regs'
  size : Header.size s'.mem b = alignUp n
  canary : link s'.mem b = Kalloc.canary b
  tally : ∀ t, Tally 16 (Header.size s.mem) (Here fr own) t →
    Tally 16 (Header.size s'.mem) (Here (Function.update fr cpu l') (b :: own)) (gain req + t)
  out : ∀ x, (∀ c ∈ b :: (fr cpu ++ l'), x < c ∨ c + 16 ≤ x) → s'.mem x = s.mem x
  keep : ∀ c, Here fr own c → c ∉ fr cpu → ∀ x, c ≤ x → x < c + 16 + Header.size s.mem c →
    s'.mem x = s.mem x

/-- `kalloc` where a block on the list will do. -/
lemma Heap.kalloc_cut {s : State} {cpu n prev cur : ℕ} {l1 l2 : List ℕ}
    (h : Heap s.mem s.start fr own regs) (hn : n ≤ 2 ^ 63 - 32) (hl : fr cpu = l1 ++ cur :: l2)
    (hp : prev = (0 :: l1).getLast (by simp)) (hs : alignUp n + 16 ≤ size s.mem cur) :
    Gave s (splitBlock s cpu (alignUp n) prev cur) cpu n fr own regs (dataAt cur 0) none cur
      (l1 ++ (cur + 16 + alignUp n) :: l2) := by
  obtain ⟨hc, hh, hch, hsize, hout⟩ := h.split hl hp hs (alignUp_spec hn).1
  have hcur : Here fr own cur := Or.inr ⟨cpu, by rw [hl]; simp⟩
  have hb := h.bounds hcur
  refine ⟨dataAt_eq (by omega), ?_, hh, hc.cur_size, hc.cur_next, fun t ht => ?_, fun x hx => ?_,
    fun c hcH hcn => ?_⟩
  · refine .cut hl hs hc.new_size fun c hcm => ?_
    have hcm' : c ∈ l1 ++ cur :: l2 := by
      simp only [List.mem_append, List.mem_cons] at hcm ⊢
      tauto
    refine hsize c (Or.inr ⟨cpu, hl ▸ hcm'⟩) ?_
    rintro rfl
    have hnd := List.perm_middle.nodup_iff.mp (hl ▸ h.nodup cpu)
    exact (List.nodup_cons.mp hnd).1 hcm
  · rw [gain, Nat.zero_add]
    exact ht.change h.laid (by decide) hch
  · refine hout x fun c hc => hx c ?_
    rcases List.mem_cons.mp hc with rfl | hc
    · simp
    · simp [hc]
  · refine h.untouched hcH hout fun d hd => ?_
    rcases List.mem_cons.mp hd with rfl | hd
    · refine ⟨cur, hcur, ?_, by omega, by omega⟩
      rintro rfl
      exact hcn (by rw [hl]; simp)
    · refine ⟨d, Or.inr ⟨cpu, hd⟩, ?_, le_refl _, Nat.le_add_right _ _⟩
      rintro rfl
      exact hcn hd

/-- `kalloc` where no block on the list will do. -/
lemma kalloc_new {s : State} {fuel cpu n lo : ℕ} (hn : n ≤ 2 ^ 63 - 32)
    (hf : findBlock s.mem (alignUp n) fuel 0 (s.start cpu) = .ok none) :
    Kalloc.kalloc (fun _ => .ok lo) fuel s cpu n =
      (insertBlock fuel { s with mem := carved s.mem lo (alignUp n) } cpu (dataAt lo (alignUp n))).map
        fun st => (st, dataAt lo 0, some (alignUp n + 32)) := by
  obtain ⟨-, -, -, hlt⟩ := alignUp_spec hn
  have hr : (alignUp n + hdrSize * 2) % 2 ^ 64 = alignUp n + 32 :=
    Nat.mod_eq_of_lt (by unfold hdrSize; omega)
  obtain ⟨v, hv, hle, -, hvt⟩ := nextPow2_dvd (x := alignUp n + 32) (by omega) (by omega)
  have hsub : sub64 v (alignUp n + hdrSize * 2) = v - (alignUp n + 32) := sub64_eq hle hvt
  simp only [Kalloc.kalloc, hf, bind, Except.bind, hr, hv, hsub, carved]
  rfl

/-- The blocks of a new region bring its bytes with them. -/
lemma Heap.tally_grow {a b t : ℕ} (h : Heap m' start fr (a :: b :: own) regs)
    (hz : ∀ c, Here fr own c → size m' c = size m c) (ht : Tally 16 (size m) (Here fr own) t) :
    Tally 16 (size m') (Here fr (a :: b :: own)) (16 + size m' a + (16 + size m' b + t)) := by
  obtain ⟨ha, hnd⟩ := List.nodup_cons.mp h.ownNodup
  obtain ⟨hb, -⟩ := List.nodup_cons.mp hnd
  have hcons : ∀ {own : List ℕ} {d c : ℕ}, Here fr (d :: own) c ↔ Here fr own c ∨ c = d := by
    intro own d c
    simp only [Here, List.mem_cons]
    tauto
  have h1 : ¬ Here fr own b := by
    rintro (hm | ⟨c, hm⟩)
    · exact hb hm
    · exact h.ownFree b (by simp) c hm
  have h2 : ¬ Here fr (b :: own) a := by
    rintro (hm | ⟨c, hm⟩)
    · exact ha hm
    · exact h.ownFree a (by simp) c hm
  exact (ht.add h1 (fun c => hcons) hz).add h2 (fun c => hcons) fun c _ => rfl

/-- The rest of a region follows the block handed out, so no block of the list ends at it. -/
lemma Heap.kalloc_page {s s' : State} {fuel cpu n : ℕ} {g : Seg}
    (h : Heap s.mem s.start fr own regs) (hn : n ≤ 2 ^ 63 - 32) (hg : Grant regs (alignUp n + 32) g)
    (hno : ∀ c ∈ fr cpu, size s.mem c < alignUp n + 16)
    (hi : insertBlock fuel { s with mem := carved s.mem g.lo (alignUp n) } cpu
      (g.lo + 16 + alignUp n) = .ok s') :
    ∃ l', Gave s s' cpu n fr own (g :: regs) (dataAt g.lo 0) (some (alignUp n + 32)) g.lo l' := by
  obtain ⟨hal, -, -, hlt⟩ := alignUp_spec hn
  obtain ⟨hc, hH, hk⟩ := h.carve hg hal hlt
  have hfit := hg.fit hlt
  have htop := hg.top
  have hhi : g.hi = g.lo + g.len := rfl
  obtain ⟨l', hput⟩ := hH.insert hi
  set mc := carved s.mem g.lo (alignUp n)
  set rest := g.lo + 16 + alignUp n with hrest
  have hlo : Here fr (rest :: g.lo :: own) g.lo := Or.inl (by simp)
  have hlofr : ∀ c, g.lo ∉ fr c := hH.ownFree g.lo (by simp)
  have hsz : ∀ c, Here fr own c → size mc c = size s.mem c :=
    fun c hc => rd_congr fun y h1 h2 => hk c hc y h1 (by omega)
  have hlow : SameHdr mc s'.mem g.lo :=
    fun x h1 h2 => hput.keep g.lo (Or.inl (by simp)) (hlofr cpu) x h1 (by omega)
  have hends : ∀ p ∈ fr cpu, p + 16 + size mc p ≠ rest := by
    intro p hp e
    have hne : p ≠ g.lo := by
      rintro rfl
      exact hlofr cpu hp
    have hap := hH.apart p g.lo (Or.inr ⟨cpu, hp⟩) hlo hne
    simp only [Apart, Seg.hi, blk, hc.size] at hap
    omega
  have htaken : Taken s.mem s'.mem (fr cpu) g.lo (alignUp n) l' (some (alignUp n + 32)) ∧
      rest ∈ l' := by
    cases hput.ins with
    | @link l1 l2 he hpl hend hs =>
      refine ⟨.page he hpl hno ?_ fun c hcm => ?_, by simp⟩
      · exact (hs rest (by simp)).trans hc.rest
      · exact (hs c (by simp [hcm])).trans (hsz c (Or.inr ⟨cpu, hcm⟩))
    | @merge p l1 l2 hl hpl he hs ho => exact absurd he (hends p (by rw [hl]; simp))
  refine ⟨l', dataAt_eq (by omega), htaken.1, hput.heap, ?_, ?_, fun t ht => ?_, fun x hx => ?_,
    fun c hcH hcn x h1 h2 => ?_⟩
  · exact hlow.size.trans hc.size
  · exact hlow.next.trans hc.canary
  · have ht' := (hH.tally_grow hsz ht).change hH.laid (by decide) hput.change
    rw [hc.rest, hc.size] at ht'
    have e : 16 + (PageAlloc.nextPow2 (alignUp n + 32) - (alignUp n + 32)) + (16 + alignUp n + t) =
        gain (some (alignUp n + 32)) + t := by
      rw [gain]
      omega
    rwa [e] at ht'
  · have hx' : ∀ c ∈ rest :: fr cpu, x < c ∨ c + 16 ≤ x := by
      intro c hcm
      refine hx c ?_
      rcases List.mem_cons.mp hcm with rfl | hcm
      · simp [htaken.2]
      · simp [hcm]
    rw [hput.out x hx']
    exact hc.out x (hx g.lo (by simp)) (hx' rest (by simp))
  · rw [← hk c hcH x h1 h2]
    refine hput.keep c ?_ hcn x h1 (by rw [hsz c hcH]; exact h2)
    rcases hcH with hcm | hcm
    · exact Or.inl (List.mem_cons_of_mem _ hcm)
    · exact Or.inr hcm

lemma Heap.kalloc {s s' : State} {fuel cpu n ptr : ℕ} {req : Option ℕ} {g : Seg}
    (h : Heap s.mem s.start fr own regs) (hn : n ≤ 2 ^ 63 - 32)
    (hg : ∀ r, req = some r → Grant regs r g)
    (hk : Kalloc.kalloc (fun _ => .ok g.lo) fuel s cpu n = .ok (s', ptr, req)) :
    ∃ b l', Gave s s' cpu n fr own (addReg regs g req) ptr req b l' ∧
      ∀ r, req = some r → b = g.lo := by
  obtain ⟨-, -, -, hlt⟩ := alignUp_spec hn
  have hmod : (alignUp n + hdrSize) % 2 ^ 64 = alignUp n + 16 :=
    Nat.mod_eq_of_lt (by unfold hdrSize; omega)
  cases hf : findBlock s.mem (alignUp n) fuel 0 (s.start cpu) with
  | error e => simp [Kalloc.kalloc, hf, bind, Except.bind] at hk
  | ok r =>
    cases r with
    | some pc =>
      obtain ⟨prev, cur⟩ := pc
      simp only [Kalloc.kalloc, hf, bind, Except.bind, pure, Except.pure, Except.ok.injEq,
        Prod.mk.injEq] at hk
      obtain ⟨rfl, rfl, rfl⟩ := hk
      obtain ⟨l1, l2, hl, hp, hs⟩ := findBlock_spec (h.chain cpu) hf
      rw [hmod] at hs
      exact ⟨cur, _, h.kalloc_cut hn hl hp hs, fun r hr => by cases hr⟩
    | none =>
      rw [kalloc_new hn hf] at hk
      obtain ⟨st, hi, hst⟩ := exists_of_map hk
      simp only [Prod.mk.injEq] at hst
      obtain ⟨rfl, rfl, rfl⟩ := hst
      have hg := hg _ rfl
      have hfit := hg.fit hlt
      have htop := hg.top
      have hhi : g.hi = g.lo + g.len := rfl
      rw [dataAt_eq (by omega)] at hi
      have hno := findBlock_none (h.chain cpu) hf fun c hc => (h.bounds (Or.inr ⟨cpu, hc⟩)).1
      rw [hmod] at hno
      obtain ⟨l', hgv⟩ := h.kalloc_page hn hg hno hi
      exact ⟨g.lo, l', hgv, fun r _ => rfl⟩

/-- With a region to fall back on, `kalloc` returns. -/
lemma Heap.kalloc_total {s : State} {fuel cpu n : ℕ} {g : Seg} (h : Heap s.mem s.start fr own regs)
    (hn : n ≤ 2 ^ 63 - 32) (hg : Grant regs (alignUp n + 32) g) (hfuel : (fr cpu).length < fuel) :
    ∃ r, Kalloc.kalloc (fun _ => .ok g.lo) fuel s cpu n = .ok r := by
  obtain ⟨hal, -, -, hlt⟩ := alignUp_spec hn
  obtain ⟨r, hf⟩ := findBlock_total (alignUp n) 0 (h.chain cpu) hfuel
  cases r with
  | some pc =>
    obtain ⟨prev, cur⟩ := pc
    rw [Kalloc.kalloc]
    simp only [hf, bind, Except.bind]
    exact ⟨_, rfl⟩
  | none =>
    obtain ⟨-, hH, -⟩ := h.carve hg hal hlt
    have hfit := hg.fit hlt
    have htop := hg.top
    have hhi : g.hi = g.lo + g.len := rfl
    have hd : dataAt g.lo (alignUp n) = g.lo + 16 + alignUp n := dataAt_eq (by omega)
    obtain ⟨st, hst⟩ := insertBlock_total (s := { s with mem := carved s.mem g.lo (alignUp n) })
      (hH.chain cpu) (hH.fresh cpu) (Nat.le_of_lt hfuel)
    rw [kalloc_new hn hf, hd, hst]
    exact ⟨_, rfl⟩

/-- `kfree` of a block that carries its canary. -/
lemma Heap.kfree {s s' : State} {fuel cpu b : ℕ} (h : Heap s.mem s.start fr (b :: own) regs)
    (hf : Kalloc.kfree fuel s cpu (b + 16) = .ok s') : ∃ l', Put s s' cpu b fr own regs l' := by
  have hb := h.bounds (Or.inl (by simp) : Here fr (b :: own) b)
  rw [Kalloc.kfree, sub64_hdr (by omega)] at hf
  split at hf
  · cases hf
  · exact h.insert hf

lemma Heap.kfree_total {s : State} {cpu b : ℕ} (h : Heap s.mem s.start fr (b :: own) regs)
    (hc : link s.mem b = canary b) {fuel : ℕ} (hfuel : (fr cpu).length ≤ fuel) :
    ∃ s', Kalloc.kfree fuel s cpu (b + 16) = .ok s' := by
  have hb := h.bounds (Or.inl (by simp) : Here fr (b :: own) b)
  rw [Kalloc.kfree, sub64_hdr (by omega)]
  simp only [hc, ne_eq, not_true, if_false]
  exact insertBlock_total (h.chain cpu) (h.fresh cpu) hfuel

end Silkware.KallocInv
