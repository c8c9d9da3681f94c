import Silkware.Links
import Silkware.Outcome
import Silkware.PageAlloc
import Silkware.Segments

/-!
What the steps of the buddy allocator do to the free lists.

Blocks of a pool have a power-of-two size and stand at a multiple of that size from the
pool's base. The list need not be in address order: `page_free` puts a block it cannot
merge at the front.
-/

namespace Silkware.PageAllocInv

open Silkware.Bits Silkware.ByteMem Silkware.Header Silkware.Kern Silkware.Links
open Silkware.Outcome Silkware.PageAlloc Silkware.Segments

/-! ### Rounding to powers of two -/

lemma prevPow2_eq {x : ℕ} (h0 : x ≠ 0) (h : x < 2 ^ 64) : prevPow2 x = 2 ^ x.log2 := by
  have e : spread x shifts = 2 ^ (x.log2 + 1) - 1 := spread_eq h0 h
  have hp : 2 ^ (x.log2 + 1) = 2 ^ x.log2 + 2 ^ x.log2 := by ring
  have h1 : 1 ≤ 2 ^ x.log2 := Nat.one_le_two_pow
  rw [prevPow2, if_neg h0, e, Nat.shiftRight_one, hp]
  omega

lemma nextPow2_eq {x : ℕ} (h0 : 0 < x) (h : x ≤ 2 ^ 63) :
    ∃ k ≤ 63, nextPow2 x = 2 ^ k ∧ x ≤ 2 ^ k := by
  rcases Nat.lt_or_ge 1 x with h1 | h1
  · have e : spread (x - 1) shifts = 2 ^ ((x - 1).log2 + 1) - 1 :=
      spread_eq (by omega) (by omega)
    have hlog : (x - 1).log2 < 63 := (Nat.log2_lt (by omega)).mpr (by omega)
    have h2 : 1 ≤ 2 ^ ((x - 1).log2 + 1) := Nat.one_le_two_pow
    have h3 : 2 ^ ((x - 1).log2 + 1) ≤ 2 ^ 63 := Nat.pow_le_pow_right (by omega) (by omega)
    have h4 : x - 1 < 2 ^ ((x - 1).log2 + 1) := Nat.lt_log2_self
    refine ⟨(x - 1).log2 + 1, by omega, ?_, by omega⟩
    rw [nextPow2, if_neg (by omega), e, Nat.sub_add_cancel h2, Nat.mod_eq_of_lt (by omega)]
  · obtain rfl : x = 1 := by omega
    exact ⟨0, by omega, by decide, by simp⟩

lemma nextPow2_lt {x : ℕ} (h0 : 0 < x) (h : x ≤ 2 ^ 63) : nextPow2 x < 2 * x := by
  rcases Nat.lt_or_ge 1 x with h1 | h1
  · have e : spread (x - 1) shifts = 2 ^ ((x - 1).log2 + 1) - 1 := spread_eq (by omega) (by omega)
    have hp : 2 ^ ((x - 1).log2 + 1) = 2 ^ (x - 1).log2 + 2 ^ (x - 1).log2 := by ring
    have h2 : 2 ^ (x - 1).log2 ≤ x - 1 := Nat.log2_self_le (by omega)
    have h3 : 1 ≤ 2 ^ (x - 1).log2 := Nat.one_le_two_pow
    rw [nextPow2, if_neg (by omega), e]
    omega
  · obtain rfl : x = 1 := by omega
    decide

/-- Above `2 ^ 63` the power of two is out of range. -/
lemma nextPow2_large {x : ℕ} (h0 : 2 ^ 63 < x) (h : x < 2 ^ 64) : nextPow2 x = 0 := by
  have hlog : (x - 1).log2 = 63 := by
    have h1 : (x - 1).log2 < 64 := (Nat.log2_lt (by omega)).mpr (by omega)
    have h2 : 63 ≤ (x - 1).log2 := (Nat.le_log2 (by omega)).mpr (by omega)
    omega
  have e : spread (x - 1) shifts = 2 ^ ((x - 1).log2 + 1) - 1 := spread_eq (by omega) (by omega)
  rw [nextPow2, if_neg (by omega), e, hlog]
  norm_num

/-- Whatever is asked for, `page_alloc` reserves a power of two. -/
lemma blockSize_eq {x : ℕ} (h : x < 2 ^ 64) : ∃ k, 12 ≤ k ∧ k ≤ 63 ∧ blockSize x = 2 ^ k := by
  have hpage : nextPow2 x < pageSize → ∃ k, 12 ≤ k ∧ k ≤ 63 ∧ blockSize x = 2 ^ k := fun hlt =>
    ⟨12, by omega, by omega, by rw [blockSize, if_pos hlt]; rfl⟩
  by_cases hlt : nextPow2 x < pageSize
  · exact hpage hlt
  · rcases Nat.eq_zero_or_pos x with rfl | h0
    · exact hpage (by decide)
    · rcases Nat.lt_or_ge (2 ^ 63) x with h63 | h63
      · exact hpage (by rw [nextPow2_large h63 h]; decide)
      · obtain ⟨k, hk, e, -⟩ := nextPow2_eq h0 h63
        refine ⟨k, ?_, hk, by rw [blockSize, if_neg hlt, e]⟩
        by_contra hk12
        have : 2 ^ k ≤ 2 ^ 11 := Nat.pow_le_pow_right (by omega) (by omega)
        rw [e] at hlt
        exact hlt (lt_of_le_of_lt this (by decide))

/-! ### Pools -/

/-- The bytes of a free block. -/
def seg (m : Mem) (b : ℕ) : Seg := ⟨b, size m b⟩

/-- A block of size `n` in its place in the pool `[base, end_)`. -/
def Block (base end_ b n : ℕ) : Prop :=
  ∃ k q, 12 ≤ k ∧ n = 2 ^ k ∧ b = base + q * 2 ^ k ∧ b + n ≤ end_

inductive PoolOk (m : Mem) (p : Pool) (l : List ℕ) : Prop where
  | mk
    (pos : 0 < p.base)
    (top : p.end_ < 2 ^ 64)
    (pow : ∃ k, p.end_ = p.base + 2 ^ k)
    (chain : Chain (next m) p.start l p.end_)
    (blocks : ∀ b ∈ l, Block p.base p.end_ b (size m b))

lemma Block.facts {base end_ b n : ℕ} (h : Block base end_ b n) :
    base ≤ b ∧ b + n ≤ end_ ∧ 4096 ≤ n := by
  obtain ⟨k, q, hk, rfl, rfl, hn⟩ := h
  have : 2 ^ 12 ≤ 2 ^ k := Nat.pow_le_pow_right (by omega) hk
  exact ⟨by omega, hn, by omega⟩

lemma PoolOk.frame {m m' : Mem} {p : Pool} {l : List ℕ} (h : PoolOk m p l)
    (hs : ∀ b ∈ l, SameHdr m m' b) : PoolOk m' p l := by
  obtain ⟨h1, h2, h3, h4, h5⟩ := h
  refine ⟨h1, h2, h3, h4.congr fun b hb => (hs b hb).next, fun b hb => ?_⟩
  rw [(hs b hb).size]
  exact h5 b hb

/-! ### Splitting -/

/-- The upper halves a block of size `2 ^ k` at `b` leaves when it is cut down to `2 ^ j`. -/
def pieces (b j k : ℕ) : List ℕ := (List.range' j (k - j)).map (b + 2 ^ ·)

lemma pieces_self (b j : ℕ) : pieces b j j = [] := by simp [pieces]

lemma pieces_succ {b j k : ℕ} (h : j ≤ k) : pieces b j (k + 1) = pieces b j k ++ [b + 2 ^ k] := by
  unfold pieces
  rw [show k + 1 - j = (k - j) + 1 by omega, List.range'_concat, List.map_append]
  simp only [List.map_cons, List.map_nil]
  rw [show j + 1 * (k - j) = k by omega]

lemma mem_pieces {b j k x : ℕ} : x ∈ pieces b j k ↔ ∃ i, j ≤ i ∧ i < k ∧ x = b + 2 ^ i := by
  simp only [pieces, List.mem_map, List.mem_range'_1]
  constructor
  · rintro ⟨i, ⟨h1, h2⟩, rfl⟩; exact ⟨i, h1, by omega, rfl⟩
  · rintro ⟨i, h1, h2, rfl⟩; exact ⟨i, ⟨h1, by omega⟩, rfl⟩

/-- The bytes of a block are those of the part that is returned and of the pieces. -/
lemma pieces_cover {b j k a : ℕ} (h1 : b ≤ a) (h2 : a < b + 2 ^ k) (hj : b + 2 ^ j ≤ a) :
    ∃ i, j ≤ i ∧ i < k ∧ b + 2 ^ i ≤ a ∧ a < b + 2 ^ i + 2 ^ i := by
  have hne : a - b ≠ 0 := by
    have := Nat.two_pow_pos j
    omega
  have hle : 2 ^ (a - b).log2 ≤ a - b := Nat.log2_self_le hne
  have hlt : a - b < 2 ^ ((a - b).log2 + 1) := Nat.lt_log2_self
  rw [pow_succ] at hlt
  exact ⟨(a - b).log2, (Nat.le_log2 hne).mpr (by omega), (Nat.log2_lt hne).mpr (by omega),
    by omega, by omega⟩

/-- The pieces lie in the block, behind its first page. -/
lemma pieces_span {b j k c : ℕ} (hj : 12 ≤ j) (hc : c ∈ pieces b j k) :
    b + 2 ^ 12 ≤ c ∧ c + 2 ^ 12 ≤ b + 2 ^ k := by
  obtain ⟨i, h1, h2, rfl⟩ := mem_pieces.mp hc
  have h3 : 2 ^ 12 ≤ 2 ^ i := Nat.pow_le_pow_right (by omega) (by omega)
  have h4 : 2 ^ (i + 1) ≤ 2 ^ k := Nat.pow_le_pow_right (by omega) h2
  have h5 : 2 ^ (i + 1) = 2 ^ i + 2 ^ i := by ring
  omega

lemma getBuddy_half {m : Mem} {b base q k : ℕ} (hs : size m b = 2 ^ k)
    (hb : b = base + q * 2 ^ (k + 1)) (ht : b + 2 ^ (k + 1) < 2 ^ 64) :
    getBuddy m b base = b + 2 ^ k := by
  have e : q * 2 ^ (k + 1) = (2 * q) * 2 ^ k := by ring
  have hp : 2 ^ (k + 1) = 2 ^ k + 2 ^ k := by ring
  unfold getBuddy
  rw [hs, show b - base = (2 * q) * 2 ^ k by omega, xor_two_pow, if_pos (by omega), Nat.add_mul,
    Nat.one_mul, ← Nat.add_assoc, ← e, ← hb, Nat.mod_eq_of_lt (by omega)]

/-- The block at `b` is cut in halves of `h` bytes, the second linked in behind the first. -/
structure Halved (m m' : Mem) (b h : ℕ) : Prop where
  size : Header.size m' b = h
  next : Header.next m' b = b + h
  half_size : Header.size m' (b + h) = h
  half_next : Header.next m' (b + h) = Header.next m b
  out : ∀ x, (x < b ∨ b + 16 ≤ x) → (x < b + h ∨ b + h + 16 ≤ x) → m' x = m x

/-- One round of `split`. -/
lemma splitLoop_half {m : Mem} {b base q k sz : ℕ} (fuel : ℕ) (hk : 12 ≤ k)
    (hs : size m b = 2 ^ (k + 1)) (hne : 2 ^ (k + 1) ≠ sz) (hb : b = base + q * 2 ^ (k + 1))
    (ht : b + 2 ^ (k + 1) < 2 ^ 64) :
    ∃ m', Halved m m' b (2 ^ k) ∧
      splitLoop m b sz base (fuel + 1) = splitLoop m' b sz base fuel := by
  have hp : 2 ^ (k + 1) = 2 ^ k + 2 ^ k := by ring
  have hlo : 2 ^ 12 ≤ 2 ^ k := Nat.pow_le_pow_right (by omega) hk
  have hhalf : size m b >>> 1 = 2 ^ k := by
    rw [hs, Nat.shiftRight_one]; omega
  set bb := b + 2 ^ k with hbb
  set m1 := setSize m b (2 ^ k) with hm1
  have hs1 : size m1 b = 2 ^ k := size_setSize (by omega)
  have hn1 : next m1 b = next m b := next_setSize
  have hbuddy : getBuddy m1 b base = bb := getBuddy_half (q := q) hs1 hb (by omega)
  set m2 := setNext (setSize m1 bb (2 ^ k)) bb (next m b) with hm2
  have hs2 : size m2 bb = 2 ^ k := by
    rw [hm2, size_setNext]
    exact size_setSize (by omega)
  refine ⟨setNext m2 b bb, ⟨?_, next_setNext (by omega), ?_, ?_, fun x h1 h2 => ?_⟩, ?_⟩
  · rw [size_setNext, hm2, size_setNext_sep (by omega), size_setSize_sep (by omega), hs1]
  · rw [size_setNext_sep (by omega), hs2]
  · rw [next_setNext_sep (by omega), hm2]
    exact next_setNext (next_lt _ _)
  · rw [setNext_out (by omega), hm2, setNext_out (by omega), setSize_out (by omega), hm1,
      setSize_out (by omega)]
  · rw [splitLoop, if_neg (by rw [hs]; exact hne)]
    simp only [hhalf, ← hm1, hbuddy, hs1, hn1, ← hm2]

/-- Cutting a block of size `2 ^ k` down to `2 ^ j` writes only its header and those of the pieces,
and threads the pieces between the block and what followed it. -/
lemma splitLoop_spec {m : Mem} {b base q j k fuel : ℕ} (hj : 12 ≤ j) (hjk : j ≤ k)
    (hs : size m b = 2 ^ k) (hb : b = base + q * 2 ^ k) (ht : b + 2 ^ k < 2 ^ 64)
    (hf : k - j < fuel) :
    ∃ m', splitLoop m b (2 ^ j) base fuel = .ok m' ∧
      (∀ x, (∀ c ∈ b :: pieces b j k, x < c ∨ c + 16 ≤ x) → m' x = m x) ∧ size m' b = 2 ^ j ∧
      Chain (next m') (next m' b) (pieces b j k) (next m b) ∧
      ∀ i, j ≤ i → i < k → size m' (b + 2 ^ i) = 2 ^ i := by
  obtain ⟨d, rfl⟩ := Nat.exists_eq_add_of_le hjk
  induction d generalizing m q fuel with
  | zero =>
    cases fuel with
    | zero => omega
    | succ fuel =>
      refine ⟨m, by simp [splitLoop, hs]; rfl, fun _ _ => rfl, hs, ?_, fun i h1 h2 => by omega⟩
      rw [Nat.add_zero, pieces_self]
      rfl
  | succ d ih =>
    cases fuel with
    | zero => omega
    | succ fuel =>
      have hp : 2 ^ (j + (d + 1)) = 2 ^ (j + d) + 2 ^ (j + d) := by ring
      have hne : 2 ^ (j + d + 1) ≠ 2 ^ j := fun h => by
        have := Nat.pow_right_injective (le_refl 2) h
        omega
      obtain ⟨m1, hh, hrun⟩ := splitLoop_half (k := j + d) fuel (by omega) hs hne hb ht
      obtain ⟨m', he, hout, hsz, hch, hpc⟩ := ih (m := m1) (q := 2 * q) (by omega) hh.size
        (by rw [hb]; ring_nf) (by omega) (show j + d - j < fuel by omega)
      have hpcs : pieces b j (j + (d + 1)) = pieces b j (j + d) ++ [b + 2 ^ (j + d)] :=
        pieces_succ (Nat.le_add_right j d)
      -- the rounds that follow stay in the first half
      have hlo : 2 ^ 12 ≤ 2 ^ (j + d) := Nat.pow_le_pow_right (by omega) (by omega)
      have hdr : SameHdr m1 m' (b + 2 ^ (j + d)) := by
        refine fun x h1 h2 => hout x fun c hc => Or.inr ?_
        rcases List.mem_cons.mp hc with rfl | hc
        · omega
        · have := (pieces_span hj hc).2
          omega
      refine ⟨m', hrun.trans he, fun x hx => ?_, hsz, ?_, fun i h1 h2 => ?_⟩
      · have hrec : m' x = m1 x := hout x fun c hc => hx c (by
          rw [hpcs, ← List.cons_append]
          exact List.mem_append_left _ hc)
        rw [hrec]
        exact hh.out x (hx b (by simp)) (hx _ (by simp [hpcs]))
      · rw [hpcs, chain_snoc]
        exact ⟨hh.next ▸ hch, hdr.next.trans hh.half_next⟩
      · rcases Nat.lt_or_ge i (j + d) with hi | hi
        · exact hpc i h1 hi
        · obtain rfl : i = j + d := by omega
          exact hdr.size.trans hh.half_size

lemma split_spec {m : Mem} {b base q j k : ℕ} (hj : 12 ≤ j) (hjk : j ≤ k)
    (hs : size m b = 2 ^ k) (hb : b = base + q * 2 ^ k) (ht : b + 2 ^ k < 2 ^ 64) :
    ∃ m', split m b (2 ^ j) base = .ok m' ∧
      (∀ x, (∀ c ∈ b :: pieces b j k, x < c ∨ c + 16 ≤ x) → m' x = m x) ∧ size m' b = 2 ^ j ∧
      Chain (next m') (next m' b) (pieces b j k) (next m b) ∧
      ∀ i, j ≤ i → i < k → size m' (b + 2 ^ i) = 2 ^ i := by
  have hk : k < 64 := by
    by_contra h
    have : 2 ^ 64 ≤ 2 ^ k := Nat.pow_le_pow_right (by omega) (by omega)
    omega
  have hle : 2 ^ j ≤ size m b := by rw [hs]; exact Nat.pow_le_pow_right (by omega) hjk
  obtain ⟨m', h⟩ := splitLoop_spec hj hjk hs hb ht (show k - j < 65 by omega)
  exact ⟨m', by rw [split, if_pos hle]; exact h.1, h.2⟩

/-! ### The walk of `page_alloc` -/

/-- The node before the tail of a list, or `d`. -/
def prevOf (d : ℕ) (l : List ℕ) : ℕ := l.getLast?.getD d

lemma findFit_spec {m : Mem} {sz e fuel prev b : ℕ} {l : List ℕ} {r : Option (ℕ × ℕ)}
    (h : Chain (next m) b l e) (hl : ∀ x ∈ l, x < e)
    (hr : findFit m sz e fuel prev b = .ok r) :
    (r = none) ∨ ∃ l1 c l2, l = l1 ++ c :: l2 ∧ sz ≤ size m c ∧ r = some (prevOf prev l1, c) := by
  induction l generalizing fuel prev b with
  | nil =>
    obtain rfl : b = e := h
    cases fuel with
    | zero => cases hr
    | succ fuel => simp [findFit] at hr; cases hr; exact Or.inl rfl
  | cons c l ih =>
    obtain ⟨rfl, h2⟩ := h
    cases fuel with
    | zero => cases hr
    | succ fuel =>
      rw [findFit, if_pos (hl b (by simp))] at hr
      by_cases hsz : sz ≤ size m b
      · rw [if_pos hsz] at hr
        cases hr
        exact Or.inr ⟨[], b, l, rfl, hsz, rfl⟩
      · rw [if_neg hsz] at hr
        rcases ih h2 (fun x hx => hl x (by simp [hx])) hr with h3 | ⟨l1, c, l2, rfl, h3, rfl⟩
        · exact Or.inl h3
        · refine Or.inr ⟨b :: l1, c, l2, rfl, h3, ?_⟩
          cases l1 with
          | nil => rfl
          | cons d l1 =>
            obtain ⟨y, hy⟩ : ∃ y, (d :: l1).getLast? = some y := by
              simp [List.getLast?_eq_getLast_of_ne_nil]
            simp [prevOf, List.getLast?_cons_cons, hy]

/-- With fuel for the whole list, the walk ends at a block that is large enough, or shows that
there is none. -/
lemma findFit_total {m : Mem} {e fuel b : ℕ} {l : List ℕ} (sz prev : ℕ)
    (h : Chain (next m) b l e) (hl : ∀ x ∈ l, x < e) (hf : l.length < fuel) :
    (∃ r, findFit m sz e fuel prev b = .ok (some r)) ∨
      findFit m sz e fuel prev b = .ok none ∧ ∀ x ∈ l, size m x < sz := by
  induction l generalizing fuel prev b with
  | nil =>
    obtain rfl : b = e := h
    cases fuel with
    | zero => simp at hf
    | succ fuel =>
      refine Or.inr ⟨?_, by simp⟩
      rw [findFit, if_neg (lt_irrefl b)]
      rfl
  | cons c l ih =>
    obtain ⟨rfl, h2⟩ := h
    cases fuel with
    | zero => simp at hf
    | succ fuel =>
      rw [findFit, if_pos (hl b (by simp))]
      by_cases hsz : sz ≤ size m b
      · rw [if_pos hsz]
        exact Or.inl ⟨_, rfl⟩
      · rw [if_neg hsz]
        simp only [List.length_cons] at hf
        refine (ih b h2 (fun x hx => hl x (by simp [hx])) (by omega)).imp_right fun ⟨h3, h4⟩ => ?_
        refine ⟨h3, fun x hx => ?_⟩
        rcases List.mem_cons.mp hx with rfl | hx
        · omega
        · exact h4 x hx

/-! ### Taking a block out of a list -/

/-- Bytes outside the listed free blocks are the same. -/
def SameOff (m m' : Mem) (l : List ℕ) : Prop :=
  ∀ x, (∀ c ∈ l, x < c ∨ c + size m c ≤ x) → m' x = m x

lemma SameOff.hdr {m m' : Mem} {l : List ℕ} {b : ℕ} (h : SameOff m m' l) (hb : 16 ≤ size m b)
    (ha : ∀ c ∈ l, Apart (seg m b) (seg m c)) : SameHdr m m' b := by
  intro x h1 h2
  refine h x fun c hc => ?_
  have := ha c hc
  simp only [Apart, Seg.hi, seg] at this
  omega

lemma SameOff.mono {m m' : Mem} {l l' : List ℕ} (h : SameOff m m' l) (hl : ∀ c ∈ l, c ∈ l') :
    SameOff m m' l' :=
  fun x hx => h x fun c hc => hx c (hl c hc)

/-- The segments of the pieces of a block. -/
def pieceSegs (b j k : ℕ) : List Seg := (List.range' j (k - j)).map fun i => ⟨b + 2 ^ i, 2 ^ i⟩

lemma pieces_seg {m : Mem} {b j k : ℕ} (h : ∀ i, j ≤ i → i < k → size m (b + 2 ^ i) = 2 ^ i) :
    (pieces b j k).map (seg m) = pieceSegs b j k := by
  simp only [pieces, pieceSegs, List.map_map]
  refine List.map_congr_left fun i hi => ?_
  obtain ⟨h1, h2⟩ := List.mem_range'_1.mp hi
  simp [seg, h i h1 (by omega)]

lemma two_pow_succ_le {i k : ℕ} (h : i < k) : 2 ^ i + 2 ^ i ≤ 2 ^ k := by
  have h1 : 2 ^ (i + 1) ≤ 2 ^ k := Nat.pow_le_pow_right (by omega) h
  have h2 : 2 ^ (i + 1) = 2 ^ i + 2 ^ i := by ring
  omega

lemma pieceSegs_packed (b j k : ℕ) : Packed (⟨b, 2 ^ j⟩ :: pieceSegs b j k) := by
  refine List.pairwise_cons.mpr ⟨fun x hx => ?_, ?_⟩
  · obtain ⟨i, hi, rfl⟩ := List.mem_map.mp hx
    have h : 2 ^ j ≤ 2 ^ i := Nat.pow_le_pow_right (by omega) (List.mem_range'_1.mp hi).1
    simp only [Apart, Seg.hi]
    omega
  · refine List.pairwise_map.mpr ((List.pairwise_lt_range' 1).imp
      fun {a c} hac => ?_)
    have := two_pow_succ_le hac
    simp only [Apart, Seg.hi]
    omega

lemma pieceSegs_inside {b j k : ℕ} (h : j ≤ k) :
    ∀ x ∈ (⟨b, 2 ^ j⟩ :: pieceSegs b j k : List Seg), Inside x ⟨b, 2 ^ k⟩ := by
  intro x hx
  rcases List.mem_cons.mp hx with rfl | hx
  · have : 2 ^ j ≤ 2 ^ k := Nat.pow_le_pow_right (by omega) h
    simp only [Inside, Seg.hi]
    omega
  · obtain ⟨i, hi, rfl⟩ := List.mem_map.mp hx
    have h2 := (List.mem_range'_1.mp hi).2
    have h3 := two_pow_succ_le (show i < k by omega)
    have h4 : 0 < 2 ^ i := Nat.two_pow_pos i
    simp only [Inside, Seg.hi]
    omega

/-- Cutting a block leaves segments that do not overlap: the block itself, cut down, and
its pieces. -/
lemma cut_packed {m m' : Mem} {l1 l2 : List ℕ} {b j k : ℕ} {rest : List Seg}
    (h : Packed ((l1 ++ b :: l2).map (seg m) ++ rest)) (hs : size m b = 2 ^ k) (hjk : j ≤ k)
    (hsz : ∀ c ∈ l1 ++ l2, size m' c = size m c)
    (hpc : ∀ i, j ≤ i → i < k → size m' (b + 2 ^ i) = 2 ^ i) :
    Packed (⟨b, 2 ^ j⟩ :: ((l1 ++ (pieces b j k ++ l2)).map (seg m') ++ rest)) := by
  have hseg : ∀ l : List ℕ, (∀ c ∈ l, c ∈ l1 ++ l2) → l.map (seg m') = l.map (seg m) :=
    fun l hl => List.map_congr_left fun c hc => by rw [seg, seg, hsz c (hl c hc)]
  have h1 : Packed (⟨b, 2 ^ k⟩ :: ((l1 ++ l2).map (seg m) ++ rest)) := by
    refine h.perm ?_
    rw [← hs, List.map_append, List.map_cons, List.map_append]
    simp only [List.append_assoc, List.cons_append]
    exact List.perm_middle
  refine (h1.refine (pieceSegs_packed b j k) (pieceSegs_inside hjk)).perm ?_
  rw [List.map_append, List.map_append, List.map_append, pieces_seg hpc,
    hseg l1 (fun c hc => by simp [hc]), hseg l2 (fun c hc => by simp [hc])]
  simp only [List.append_assoc, List.cons_append]
  refine List.Perm.cons _ ?_
  rw [← List.append_assoc, ← List.append_assoc (l1.map _)]
  exact List.perm_append_comm.append_right _

/-- What is written when a block is cut lies in the block. -/
lemma hdrs_block {m m' : Mem} {b j k : ℕ} (hj : 12 ≤ j) (hjk : j ≤ k)
    (h : ∀ x, (∀ c ∈ b :: pieces b j k, x < c ∨ c + 16 ≤ x) → m' x = m x) :
    ∀ x, x < b ∨ b + 2 ^ k ≤ x → m' x = m x := by
  intro x hx
  have h12 : 2 ^ 12 ≤ 2 ^ k := Nat.pow_le_pow_right (by omega) (by omega)
  refine h x fun c hc => ?_
  rcases List.mem_cons.mp hc with rfl | hc
  · omega
  · have := pieces_span hj hc
    omega

/-- What is left of the list when its node `b` has been cut: the pieces come after it. -/
lemma cut_pool {m m1 : Mem} {p : Pool} {l1 l2 : List ℕ} {b j : ℕ} (hj : 12 ≤ j)
    (h : PoolOk m p (l1 ++ b :: l2)) (hp : Packed ((l1 ++ b :: l2).map (seg m)))
    (hle : 2 ^ j ≤ size m b) (hsp : split m b (2 ^ j) p.base = .ok m1) :
    ∃ k, size m b = 2 ^ k ∧ j ≤ k ∧ Chain (next m1) p.start l1 b ∧
      Chain (next m1) (next m1 b) (pieces b j k ++ l2) p.end_ ∧
      (∀ x ∈ l1 ++ (pieces b j k ++ l2), Block p.base p.end_ x (size m1 x)) ∧ Block p.base p.end_ b (2 ^ j) ∧
      (∀ c ∈ l1 ++ l2, size m1 c = size m c) ∧
      (∀ i, j ≤ i → i < k → size m1 (b + 2 ^ i) = 2 ^ i) ∧
      ∀ x, (∀ c ∈ b :: pieces b j k, x < c ∨ c + 16 ≤ x) → m1 x = m x := by
  obtain ⟨hpos, htop, hpow, hch, hbl⟩ := h
  obtain ⟨k, q, hk, hsz, hb, hend⟩ := hbl b (by simp)
  have hjk : j ≤ k := by
    rw [hsz] at hle
    exact (Nat.pow_le_pow_iff_right (by omega)).mp hle
  obtain ⟨m2, he, hhdrs, -, hchain, hpc⟩ := split_spec hj hjk hsz hb (by omega)
  obtain rfl : m2 = m1 := Except.ok.inj (he.symm.trans hsp)
  have hout := hdrs_block hj hjk hhdrs
  have hmem : ∀ c ∈ l1 ++ l2, c ∈ l1 ++ b :: l2 := by
    intro c hc
    rcases List.mem_append.mp hc with h | h <;> simp [h]
  have hp' : Packed (seg m b :: (l1 ++ l2).map (seg m)) := by
    refine hp.perm ?_
    rw [← List.map_cons]
    exact List.Perm.map _ List.perm_middle
  -- the other blocks of the list lie apart from the one that was cut
  have hdr : ∀ c ∈ l1 ++ l2, SameHdr m m2 c := by
    intro c hc x h1 h2
    have ha := hp'.apart (List.mem_map_of_mem hc)
    have hs := (hbl c (hmem c hc)).facts
    simp only [Apart, Seg.hi, seg, hsz] at ha
    exact hout x (by omega)
  obtain ⟨c, hc1, rfl, hc2⟩ := chain_append.mp hch
  refine ⟨k, hsz, hjk, hc1.congr fun x hx => (hdr x (by simp [hx])).next,
    chain_append.mpr ⟨_, hchain, hc2.congr fun x hx => (hdr x (by simp [hx])).next⟩,
    fun x hx => ?_, ?_, fun x hx => (hdr x hx).size, hpc, hhdrs⟩
  · rcases List.mem_append.mp hx with h | h
    · rw [(hdr x (by simp [h])).size]; exact hbl x (by simp [h])
    · rcases List.mem_append.mp h with h | h
      · obtain ⟨i, h1, h2, rfl⟩ := mem_pieces.mp h
        have h3 := two_pow_succ_le h2
        rw [hpc i h1 h2]
        refine ⟨i, q * 2 ^ (k - i) + 1, by omega, rfl, ?_, by omega⟩
        rw [Nat.add_mul, Nat.mul_assoc, ← Nat.pow_add, show k - i + i = k by omega, hb]
        ring
      · rw [(hdr x (by simp [h])).size]; exact hbl x (by simp [h])
  · have hle : 2 ^ j ≤ 2 ^ k := Nat.pow_le_pow_right (by omega) hjk
    refine ⟨j, q * 2 ^ (k - j), hj, rfl, ?_, by omega⟩
    rw [Nat.mul_assoc, ← Nat.pow_add, show k - j + j = k by omega]
    exact hb

/-- Taking the node after `l1` out of the list. -/
lemma unlink_pool {m : Mem} {p : Pool} {l1 r : List ℕ} {b : ℕ} (hpos : 0 < p.base)
    (htop : p.end_ < 2 ^ 64) (hpow : ∃ k, p.end_ = p.base + 2 ^ k)
    (h1 : Chain (next m) p.start l1 b) (h2 : Chain (next m) (next m b) r p.end_)
    (hbl : ∀ x ∈ l1 ++ r, Block p.base p.end_ x (size m x)) (hp : Packed ((l1 ++ r).map (seg m))) :
    ∃ m' p', unlink m p (prevOf 0 l1) b = (m', p') ∧
      p'.base = p.base ∧ p'.end_ = p.end_ ∧ PoolOk m' p' (l1 ++ r) ∧
      (∀ c ∈ l1 ++ r, size m' c = size m c) ∧
      ∀ x, (∀ c ∈ l1, x < c ∨ c + 16 ≤ x) → m' x = m x := by
  rcases List.eq_nil_or_concat' l1 with rfl | ⟨l0, y, rfl⟩
  · exact ⟨m, { p with start := next m b }, by simp [unlink, prevOf], rfl,
      rfl, ⟨hpos, htop, hpow, h2, hbl⟩, fun _ _ => rfl, fun _ _ => rfl⟩
  · have hy : y ∈ l0 ++ [y] ++ r := by simp
    have hyb := (hbl y hy).facts
    have hprev : prevOf 0 (l0 ++ [y]) = y := by simp [prevOf]
    have hnd : (l0 ++ [y] ++ r).Nodup := hp.nodup fun x hx => by
      have := (hbl x hx).facts
      simp only [seg]; omega
    -- only the second word of the header of `y` changes
    have hdr : ∀ c ∈ l0 ++ [y] ++ r, c ≠ y → SameHdr m (setNext m y (next m b)) c := by
      intro c hc hne x hx1 hx2
      have ha := hp.of_ne hc hy hne
      have hcb := (hbl c hc).facts
      simp only [Apart, Seg.hi, seg] at ha
      exact setNext_out (by omega)
    have hsize : ∀ c ∈ l0 ++ [y] ++ r, size (setNext m y (next m b)) c = size m c := by
      intro c hc
      by_cases hcy : c = y
      · subst hcy; exact size_setNext
      · exact (hdr c hc hcy).size
    have hl0 : ∀ c ∈ l0, c ≠ y := by
      rw [List.append_assoc, List.nodup_append] at hnd
      exact fun c hc => hnd.2.2 c hc y (by simp)
    have hr : ∀ c ∈ r, c ≠ y := by
      rw [List.nodup_append] at hnd
      exact fun c hc => (hnd.2.2 y (by simp) c hc).symm
    refine ⟨setNext m y (next m b), p, ?_, rfl, rfl, ⟨hpos, htop, hpow, ?_, ?_⟩, hsize, ?_⟩
    · rw [unlink, hprev, if_pos (by omega)]
    · refine chain_append.mpr ⟨next m b, h1.relink (fun c hc => (hdr c (by simp [hc])
        (hl0 c hc)).next) (next_setNext (next_lt _ _)), ?_⟩
      exact h2.congr fun c hc => (hdr c (by simp [hc]) (hr c hc)).next
    · intro x hx
      rw [hsize x hx]
      exact hbl x hx
    · intro x hx
      have := hx y (by simp)
      exact setNext_out (by omega)

/-! ### `page_alloc` -/

/-- The extent of a pool, which no step changes. -/
def extent (p : Pool) : ℕ × ℕ := (p.base, p.end_)

lemma exists_block {m : Mem} {ps : List Pool} {fr : List (List ℕ)}
    (h : List.Forall₂ (PoolOk m) ps fr) {x : ℕ} (hx : x ∈ fr.flatten) :
    ∃ p ∈ ps, Block p.base p.end_ x (size m x) := by
  induction h with
  | nil => simp at hx
  | @cons p l ps fr hpl h ih =>
    rcases List.mem_append.mp (List.flatten_cons ▸ hx) with h1 | h1
    · obtain ⟨-, -, -, -, hbl⟩ := hpl
      exact ⟨p, by simp, hbl x h1⟩
    · obtain ⟨q, hq, hb⟩ := ih h1
      exact ⟨q, by simp [hq], hb⟩

lemma forall2_hdr {m m' : Mem} {ps : List Pool} {fr : List (List ℕ)}
    (h : List.Forall₂ (PoolOk m) ps fr) (hs : ∀ x ∈ fr.flatten, SameHdr m m' x) :
    List.Forall₂ (PoolOk m') ps fr := by
  induction h with
  | nil => exact .nil
  | @cons p l ps fr hpl h ih =>
    refine .cons (hpl.frame fun c hc => hs c (by simp [hc])) (ih fun x hx => hs x ?_)
    rw [List.flatten_cons]
    exact List.mem_append_right _ hx

lemma forall2_frame {m m' : Mem} {ps : List Pool} {fr : List (List ℕ)} {l : List ℕ}
    (h : List.Forall₂ (PoolOk m) ps fr) (hs : SameOff m m' l)
    (ha : ∀ x ∈ fr.flatten, ∀ y ∈ l, Apart (seg m x) (seg m y)) :
    List.Forall₂ (PoolOk m') ps fr := by
  refine forall2_hdr h fun x hx => ?_
  obtain ⟨p, -, hb⟩ := exists_block h hx
  have := hb.facts
  exact hs.hdr (by omega) (ha x hx)

/-- What a successful `page_alloc` for `2 ^ j` bytes does: a block `b` of some pool's list
is cut, its pieces stay on the list in its place. -/
structure AllocEff (m : Mem) (ps : List Pool) (fr : List (List ℕ)) (j : ℕ) (m' : Mem)
    (ps' : List Pool) (b : ℕ) (A : List (List ℕ)) (l1 l2 : List ℕ) (B : List (List ℕ))
    (k : ℕ) : Prop where
  eq : fr = A ++ (l1 ++ b :: l2) :: B
  size_eq : size m b = 2 ^ k
  le : j ≤ k
  pools : List.Forall₂ (PoolOk m') ps' (A ++ (l1 ++ (pieces b j k ++ l2)) :: B)
  sizes : ∀ c ∈ A.flatten ++ (l1 ++ l2) ++ B.flatten, size m' c = size m c
  piece : ∀ i, j ≤ i → i < k → size m' (b + 2 ^ i) = 2 ^ i
  off : SameOff m m' (l1 ++ [b])
  hdrs : ∀ x, (∀ c ∈ l1 ++ b :: pieces b j k, x < c ∨ c + 16 ≤ x) → m' x = m x
  ext : ps'.map extent = ps.map extent
  block : ∃ p ∈ ps', Block p.base p.end_ b (2 ^ j)

lemma AllocEff.mem_old {m m' : Mem} {ps ps' : List Pool} {fr A B : List (List ℕ)}
    {l1 l2 : List ℕ} {b j k x : ℕ} (e : AllocEff m ps fr j m' ps' b A l1 l2 B k) :
    x ∈ fr.flatten ↔ x = b ∨ x ∈ A.flatten ++ (l1 ++ l2) ++ B.flatten := by
  rw [e.eq]
  simp only [List.flatten_append, List.flatten_cons, List.mem_append, List.mem_cons]
  tauto

lemma mem_cut (A B : List (List ℕ)) (l1 l2 : List ℕ) (b j k x : ℕ) :
    x ∈ (A ++ (l1 ++ (pieces b j k ++ l2)) :: B).flatten ↔
      x ∈ pieces b j k ∨ x ∈ A.flatten ++ (l1 ++ l2) ++ B.flatten := by
  simp only [List.flatten_append, List.flatten_cons, List.mem_append]
  tauto

/-- A block from a later pool. -/
lemma AllocEff.later {m m' : Mem} {p : Pool} {ps ps' : List Pool} {l l1 l2 : List ℕ}
    {fr A B : List (List ℕ)} {b j k : ℕ} (e : AllocEff m ps fr j m' ps' b A l1 l2 B k)
    (hpl : PoolOk m p l) (hcross : ∀ x ∈ l, ∀ y ∈ fr.flatten, Apart (seg m x) (seg m y)) :
    AllocEff m (p :: ps) (l :: fr) j m' (p :: ps') b (l :: A) l1 l2 B k := by
  have hsub : ∀ y ∈ l1 ++ [b], y ∈ fr.flatten := by
    intro y hy
    rw [e.eq]
    simp at hy ⊢
    tauto
  have hdr : ∀ c ∈ l, SameHdr m m' c := by
    intro c hc
    obtain ⟨-, -, -, -, hbl⟩ := hpl
    have := (hbl c hc).facts
    exact e.off.hdr (by omega) fun y hy => hcross c hc y (hsub y hy)
  refine ⟨by rw [e.eq]; rfl, e.size_eq, e.le, .cons (hpl.frame hdr) e.pools, ?_, e.piece, e.off,
    e.hdrs, by simp [e.ext], ?_⟩
  · intro c hc
    rw [List.flatten_cons, List.append_assoc, List.append_assoc] at hc
    rcases List.mem_append.mp hc with h1 | h1
    · exact (hdr c h1).size
    · exact e.sizes c (by rwa [List.append_assoc])
  · obtain ⟨p', hp', hb⟩ := e.block
    exact ⟨p', by simp [hp'], hb⟩

/-- A block of the first pool is split and taken off its list. -/
lemma alloc_here {m m₁ : Mem} {p : Pool} {ps : List Pool} {l1 l2 : List ℕ} {fr : List (List ℕ)}
    {c j : ℕ} (hj : 12 ≤ j) (hpl : PoolOk m p (l1 ++ c :: l2)) (h : List.Forall₂ (PoolOk m) ps fr)
    (hp1 : Packed ((l1 ++ c :: l2).map (seg m)))
    (hcross : ∀ x ∈ l1 ++ c :: l2, ∀ y ∈ fr.flatten, Apart (seg m x) (seg m y))
    (hle : 2 ^ j ≤ size m c) (hsp : split m c (2 ^ j) p.base = .ok m₁) :
    ∃ m₂ p₂ k, unlink m₁ p (prevOf 0 l1) c = (m₂, p₂) ∧
      AllocEff m (p :: ps) ((l1 ++ c :: l2) :: fr) j m₂ (p₂ :: ps) c [] l1 l2 fr k := by
  obtain ⟨k, hsz, hjk, hc1, hc2, hbl1, hb, hsizes, hpc, hhdrs⟩ := cut_pool hj hpl hp1 hle hsp
  obtain ⟨hpos, htop, hpow, -, hbl⟩ := hpl
  have hpk : Packed ((l1 ++ (pieces c j k ++ l2)).map (seg m₁)) := by
    have hp0 : Packed ((l1 ++ c :: l2).map (seg m) ++ []) := by simpa using hp1
    have := cut_packed hp0 hsz hjk hsizes hpc
    simpa using (List.pairwise_cons.mp this).2
  obtain ⟨m₂, p₂, he, hb2, he2, hpl2, hsz2, hhdrs2⟩ := unlink_pool hpos htop hpow hc1 hc2 hbl1 hpk
  have hall : ∀ x ∈ l1 ++ l2, size m₂ x = size m x := by
    intro x hx
    rw [hsz2 x (by simp at hx ⊢; tauto), hsizes x hx]
  have hoff : SameOff m m₂ (l1 ++ [c]) := by
    intro x hx
    have hxc := hx c (by simp)
    rw [hhdrs2 x fun y hy => ?_, hdrs_block hj hjk hhdrs x (by omega)]
    have := hx y (by simp [hy])
    have := (hbl y (by simp [hy])).facts
    omega
  have hwrites : ∀ x, (∀ y ∈ l1 ++ c :: pieces c j k, x < y ∨ y + 16 ≤ x) → m₂ x = m x := by
    intro x hx
    rw [hhdrs2 x fun y hy => hx y (by simp [hy]), hhdrs x fun y hy => hx y (by
      simp only [List.mem_append]
      exact Or.inr hy)]
  have hsub : ∀ y ∈ l1 ++ [c], y ∈ l1 ++ c :: l2 := by
    intro y hy
    simp at hy ⊢
    tauto
  -- the other pools keep their lists
  have hps : List.Forall₂ (PoolOk m₂) ps fr := forall2_frame h hoff fun x hx y hy =>
    (hcross y (hsub y hy) x hx).symm
  have hfr : ∀ x ∈ fr.flatten, size m₂ x = size m x := by
    intro x hx
    obtain ⟨q, -, hq⟩ := exists_block h hx
    have := hq.facts
    exact (hoff.hdr (by omega) fun y hy => (hcross y (hsub y hy) x hx).symm).size
  refine ⟨m₂, p₂, k, he, rfl, hsz, hjk, .cons hpl2 hps, ?_, ?_, hoff, hwrites, ?_, ?_⟩
  · intro x hx
    rcases List.mem_append.mp hx with h1 | h1
    · exact hall x (by simpa using h1)
    · exact hfr x h1
  · intro i h1 h2
    have hmem : c + 2 ^ i ∈ pieces c j k := mem_pieces.mpr ⟨i, h1, h2, rfl⟩
    rw [hsz2 _ (by simp [hmem]), hpc i h1 h2]
  · simp [extent, hb2, he2]
  · exact ⟨p₂, by simp, by rw [hb2, he2]; exact hb⟩

lemma allocLoop_spec {m m' : Mem} {ps ps' : List Pool} {fr : List (List ℕ)} {fuel j b : ℕ}
    (hj : 12 ≤ j) (h : List.Forall₂ (PoolOk m) ps fr) (hp : Packed (fr.flatten.map (seg m)))
    (hr : allocLoop fuel m (2 ^ j) ps = .ok (m', ps', b)) :
    ∃ A l1 l2 B k, AllocEff m ps fr j m' ps' b A l1 l2 B k := by
  induction h generalizing ps' with
  | nil => cases hr
  | @cons p l ps fr hpl h ih =>
    rw [List.flatten_cons, List.map_append, Packed, List.pairwise_append] at hp
    obtain ⟨hp1, hp2, hp3⟩ := hp
    have hcross : ∀ x ∈ l, ∀ y ∈ fr.flatten, Apart (seg m x) (seg m y) := fun x hx y hy =>
      hp3 _ (List.mem_map_of_mem hx) _ (List.mem_map_of_mem hy)
    obtain ⟨r, hf, hr⟩ := exists_of_bind hr
    have hpl' := hpl
    obtain ⟨-, -, -, hch, hbl⟩ := hpl'
    have hlt : ∀ x ∈ l, x < p.end_ := fun x hx => by have := (hbl x hx).facts; omega
    rcases findFit_spec hch hlt hf with rfl | ⟨l1, c, l2, rfl, hle, rfl⟩
    · -- nothing fits here: the block comes from a later pool
      obtain ⟨⟨m₁, ps₁, b₁⟩, hrec, hr⟩ := exists_of_bind hr
      cases hr
      obtain ⟨A, l1, l2, B, k, e⟩ := ih hp2 hrec
      exact ⟨_, _, _, _, _, e.later hpl hcross⟩
    · obtain ⟨m₁, hsp, hr⟩ := exists_of_bind hr
      obtain ⟨m₂, p₂, k, he, e⟩ := alloc_here hj hpl h hp1 hcross hle hsp
      rw [he] at hr
      cases hr
      exact ⟨_, _, _, _, _, e⟩

/-- With fuel for every list, `page_alloc` returns a block or finds that all are too small. -/
lemma allocLoop_total {m : Mem} {ps : List Pool} {fr : List (List ℕ)} {fuel j : ℕ} (hj : 12 ≤ j)
    (h : List.Forall₂ (PoolOk m) ps fr) (hf : ∀ l ∈ fr, l.length < fuel) :
    (∃ r, allocLoop fuel m (2 ^ j) ps = .ok r) ∨
      allocLoop fuel m (2 ^ j) ps = .error .panic ∧ ∀ x ∈ fr.flatten, size m x < 2 ^ j := by
  induction h with
  | nil => exact Or.inr ⟨rfl, by simp⟩
  | @cons p l ps fr hpl h ih =>
    obtain ⟨-, htop, -, hch, hbl⟩ := hpl
    have hlt : ∀ x ∈ l, x < p.end_ := fun x hx => by have := (hbl x hx).facts; omega
    rw [allocLoop]
    rcases findFit_total (2 ^ j) 0 hch hlt (hf l (by simp)) with
      ⟨⟨prev, b⟩, hr⟩ | ⟨hr, hsmall⟩
    · -- the block found is in its place, so it can be cut
      obtain ⟨l1, c, l2, rfl, hle, e⟩ := (findFit_spec hch hlt hr).resolve_left (by simp)
      obtain ⟨rfl, rfl⟩ : prev = prevOf 0 l1 ∧ b = c := by simpa using e
      obtain ⟨k, q, hk, hsz, hb, hend⟩ := hbl b (by simp)
      have hjk : j ≤ k := by
        rw [hsz] at hle
        exact (Nat.pow_le_pow_iff_right (by omega)).mp hle
      obtain ⟨m', hsp, -⟩ := split_spec hj hjk hsz hb (by omega)
      left
      rw [hr]
      simp only [hsp, bind, Except.bind]
      exact ⟨_, rfl⟩
    · rw [hr]
      rcases ih fun l' hl' => hf l' (by simp [hl']) with ⟨⟨m', ps', b⟩, hrec⟩ | ⟨hrec, hrest⟩
      · left
        simp only [hrec, bind, Except.bind]
        exact ⟨_, rfl⟩
      · refine Or.inr ⟨by simp only [hrec, bind, Except.bind], fun x hx => ?_⟩
        rcases List.mem_append.mp (List.flatten_cons ▸ hx) with hx | hx
        · exact hsmall x hx
        · exact hrest x hx

/-! ### `page_free` -/

/-- The address of the buddy of a block of `n` bytes. -/
def buddy (base page n : ℕ) : ℕ := base + ((page - base) ^^^ n)

/-- A block and its buddy are the two halves of one block of twice the size. -/
lemma buddy_cases {base page q k : ℕ} (h : page = base + q * 2 ^ k) :
    (buddy base page (2 ^ k) = page + 2 ^ k ∧ ∃ r, page = base + r * 2 ^ (k + 1)) ∨
      (page = buddy base page (2 ^ k) + 2 ^ k ∧
        ∃ r, buddy base page (2 ^ k) = base + r * 2 ^ (k + 1)) := by
  have e : page - base = q * 2 ^ k := by omega
  unfold buddy
  rw [e, xor_two_pow]
  split
  · rename_i hq
    left
    refine ⟨by rw [h]; ring, q / 2, ?_⟩
    rw [h, pow_succ, ← Nat.mul_assoc, Nat.mul_right_comm, Nat.div_mul_cancel (Nat.dvd_of_mod_eq_zero hq)]
  · rename_i hq
    obtain ⟨t, rfl⟩ : ∃ t, q = 2 * t + 1 := ⟨q / 2, by omega⟩
    right
    refine ⟨by rw [h]; simp only [Nat.add_sub_cancel]; ring, t, ?_⟩
    simp only [Nat.add_sub_cancel]
    ring

lemma freeWalk_spec {m m' : Mem} {p p' : Pool} {page fuel b : ℕ} {l : List ℕ}
    (h : Chain (next m) b l p.end_) (hpage : page < p.end_)
    (hr : freeWalk m p page 0 fuel b = .ok (m', p')) :
    (b ≠ getBuddy m page p.base ∧ m' = setNext m page p.start ∧ p' = { p with start := page }) ∨
      ∃ l1 c l2, l ++ [p.end_] = l1 ++ c :: l2 ∧ Chain (next m) b l1 c ∧
        c = getBuddy m page p.base ∧ (∀ x ∈ l1, x ≤ page) ∧ merge m p page 0 c = (m', p') := by
  induction l generalizing fuel b with
  | nil =>
    obtain rfl : b = p.end_ := h
    cases fuel with
    | zero => cases hr
    | succ fuel =>
      rw [freeWalk] at hr
      by_cases hb : p.end_ = getBuddy m page p.base
      · rw [if_pos hb] at hr
        exact Or.inr ⟨[], p.end_, [], rfl, rfl, hb, by simp, Except.ok.inj hr⟩
      · rw [if_neg hb, if_pos hpage, if_pos rfl] at hr
        cases hr
        exact Or.inl ⟨hb, rfl, rfl⟩
  | cons c l ih =>
    obtain ⟨rfl, h2⟩ := h
    cases fuel with
    | zero => cases hr
    | succ fuel =>
      rw [freeWalk] at hr
      by_cases hb : b = getBuddy m page p.base
      · rw [if_pos hb] at hr
        exact Or.inr ⟨[], b, l ++ [p.end_], rfl, rfl, hb, by simp, Except.ok.inj hr⟩
      · rw [if_neg hb] at hr
        by_cases hlt : page < b
        · rw [if_pos hlt, if_pos rfl] at hr
          cases hr
          exact Or.inl ⟨hb, rfl, rfl⟩
        · rw [if_neg hlt, if_neg (by omega)] at hr
          rcases ih h2 hr with ⟨-, h3⟩ | ⟨l1, c, l2, he, hc, h4, h5, h6⟩
          · exact Or.inl ⟨hb, h3⟩
          · refine Or.inr ⟨b :: l1, c, l2, by simp [he], ⟨rfl, hc⟩, h4, ?_, h6⟩
            intro x hx
            rcases List.mem_cons.mp hx with rfl | hx
            · omega
            · exact h5 x hx

/-- The state `page_free` can handle on this pool: where its walk gets to the address of the
block's buddy, there is a free block of the same size. -/
def BuddyOk (m : Mem) (p : Pool) (page n : ℕ) : Prop :=
  Visited (next m) (fun x => page < x ∧ x ≠ buddy p.base page n) p.start (buddy p.base page n) →
    buddy p.base page n < p.end_ ∧ size m (buddy p.base page n) = n

/-- The same on the list `l` of the pool's free blocks. -/
def BuddyIn (m : Mem) (p : Pool) (l : List ℕ) (page n : ℕ) : Prop :=
  ∀ l1 l2, l ++ [p.end_] = l1 ++ buddy p.base page n :: l2 → (∀ x ∈ l1, x ≤ page) →
    buddy p.base page n < p.end_ ∧ size m (buddy p.base page n) = n

lemma BuddyOk.buddyIn {m m' : Mem} {p : Pool} {l : List ℕ} {page n : ℕ}
    (h : BuddyOk m p page n) (hp : PoolOk m p l) (hs : ∀ x ∈ l, SameHdr m m' x) :
    BuddyIn m' p l page n := by
  intro l1 l2 he hle
  obtain ⟨-, -, -, hch, -⟩ := hp
  have hch' : Chain (next m) p.start (l1 ++ buddy p.base page n :: l2) (next m p.end_) := by
    rw [← he]
    exact chain_snoc.mpr ⟨hch, rfl⟩
  obtain ⟨c, hc, rfl, -⟩ := chain_append.mp hch'
  obtain ⟨h1, h2⟩ := h ⟨l1, hc, fun x hx => by have := hle x hx; omega, by simp⟩
  refine ⟨h1, ?_⟩
  have hmem : buddy p.base page n ∈ l ++ [p.end_] := by rw [he]; simp
  rcases List.mem_append.mp hmem with hl | hl
  · rw [(hs _ hl).size]; exact h2
  · simp at hl
    omega

/-- A free block and a released one that are neighbours become one block. -/
lemma join_pool {m : Mem} {p : Pool} {lo hi k c : ℕ} {l1 l2 : List ℕ}
    (h : PoolOk m p (l1 ++ c :: l2)) (hk : 12 ≤ k) (hlo : size m lo = 2 ^ k)
    (hhi : size m hi = 2 ^ k) (he : hi = lo + 2 ^ k) (hend : hi + 2 ^ k ≤ p.end_)
    (hr : ∃ r, lo = p.base + r * 2 ^ (k + 1))
    (hp : Packed (seg m lo :: seg m hi :: l2.map (seg m))) :
    PoolOk (setNext (setSize m lo (size m lo + size m hi)) lo (next m c))
      { p with start := lo } (lo :: l2) ∧
      SameOff m (setNext (setSize m lo (size m lo + size m hi)) lo (next m c)) [lo] ∧
      (lo :: l2).map (seg (setNext (setSize m lo (size m lo + size m hi)) lo (next m c))) =
        ⟨lo, 2 ^ k + 2 ^ k⟩ :: l2.map (seg m) := by
  obtain ⟨hpos, htop, hpow, hch, hbl⟩ := h
  have h12 : 2 ^ 12 ≤ 2 ^ k := Nat.pow_le_pow_right (by omega) hk
  set m1 := setSize m lo (size m lo + size m hi) with hm1
  set m' := setNext m1 lo (next m c) with hm'
  have hs : size m' lo = 2 ^ k + 2 ^ k := by
    rw [hm', size_setNext, hm1, size_setSize (by omega), hlo, hhi]
  have hoff : ∀ x, x < lo ∨ lo + 16 ≤ x → m' x = m x := fun x hx => by
    rw [hm', setNext_out (by omega), hm1, setSize_out (by omega)]
  have hdr : ∀ x ∈ l2, SameHdr m m' x := by
    intro x hx z h1 h2
    have ha := hp.apart (List.mem_cons_of_mem _ (List.mem_map_of_mem hx))
    have hb := (hbl x (by simp [hx])).facts
    simp only [Apart, Seg.hi, seg, hlo] at ha
    exact hoff z (by omega)
  obtain ⟨y, -, rfl, hc2⟩ := chain_append.mp hch
  refine ⟨⟨hpos, htop, hpow, ⟨rfl, ?_⟩, ?_⟩, ?_, ?_⟩
  · rw [hm', next_setNext (next_lt _ _), ← hm']
    exact hc2.congr fun x hx => (hdr x hx).next
  · intro x hx
    rcases List.mem_cons.mp hx with rfl | hx
    · obtain ⟨r, hr⟩ := hr
      rw [hs]
      exact ⟨k + 1, r, by omega, by ring, hr, by simp only; omega⟩
    · rw [(hdr x hx).size]
      exact hbl x (by simp [hx])
  · intro x hx
    have := hx lo (by simp)
    exact hoff x (by omega)
  · rw [List.map_cons, seg, hs]
    congr 1
    exact List.map_congr_left fun x hx => by rw [seg, seg, (hdr x hx).size]

/-- What `page_free` does to the free list of the block's pool: the block goes to the front, or
it is joined with its buddy, and what stood before the buddy is lost. -/
inductive Freed (m m' : Mem) (p : Pool) (page k : ℕ) (l : List ℕ) : List ℕ → Prop
  | front (hne : p.start ≠ buddy p.base page (2 ^ k)) (hs : size m' page = 2 ^ k)
      (hl : ∀ x ∈ l, size m' x = size m x) : Freed m m' p page k l (page :: l)
  | join {l1 l2 : List ℕ} {lo : ℕ} (hl : l = l1 ++ buddy p.base page (2 ^ k) :: l2)
      (hle : ∀ x ∈ l1, x ≤ page) (hb : size m (buddy p.base page (2 ^ k)) = 2 ^ k)
      (hlo : lo = min page (buddy p.base page (2 ^ k))) (hs : size m' lo = 2 ^ (k + 1))
      (hl2 : ∀ x ∈ l2, size m' x = size m x) : Freed m m' p page k l (lo :: l2)

lemma sizes_of_segs {m m' : Mem} {lo k : ℕ} {l : List ℕ}
    (h : (lo :: l).map (seg m') = ⟨lo, 2 ^ k + 2 ^ k⟩ :: l.map (seg m)) :
    size m' lo = 2 ^ (k + 1) ∧ ∀ x ∈ l, size m' x = size m x := by
  rw [List.map_cons, List.cons.injEq] at h
  refine ⟨?_, fun x hx => congrArg Seg.len (List.map_inj_left.mp h.2 x hx)⟩
  rw [show size m' lo = 2 ^ k + 2 ^ k from congrArg Seg.len h.1]
  ring

/-- A block goes to the front of a list. -/
lemma front_pool {m : Mem} {p : Pool} {l : List ℕ} {page k : ℕ} {rest : List Seg} (h : PoolOk m p l)
    (hs : size m page = 2 ^ k) (hb : Block p.base p.end_ page (2 ^ k))
    (hp : Packed (seg m page :: (l.map (seg m) ++ rest))) :
    (∀ x ∈ l, SameHdr m (setNext m page p.start) x) ∧
      PoolOk (setNext m page p.start) { p with start := page } (page :: l) ∧
      Packed ((page :: l).map (seg (setNext m page p.start)) ++ rest) := by
  obtain ⟨hpos, htop, hpow, hch, hbl⟩ := h
  have h16 : 16 ≤ 2 ^ k := by
    have := hb.facts
    omega
  have hstart : p.start < 2 ^ 64 := by
    cases l with
    | nil => rw [show p.start = p.end_ from hch]; exact htop
    | cons c l =>
      obtain ⟨hc, -⟩ := hch
      have := (hbl c (by simp)).facts
      omega
  have hdr : ∀ x ∈ l, SameHdr m (setNext m page p.start) x := by
    intro x hx z h1 h2
    have ha := hp.apart (List.mem_append_left rest (List.mem_map_of_mem hx))
    have hb := (hbl x hx).facts
    simp only [Apart, Seg.hi, seg, hs] at ha
    exact setNext_out (by omega)
  have e : (page :: l).map (seg (setNext m page p.start)) = (page :: l).map (seg m) := by
    refine List.map_congr_left fun x hx => ?_
    rcases List.mem_cons.mp hx with rfl | hx
    · rw [seg, seg, size_setNext]
    · rw [seg, seg, (hdr x hx).size]
  refine ⟨hdr, ⟨hpos, htop, hpow, ⟨rfl, ?_⟩, fun x hx => ?_⟩, by rw [e]; exact hp⟩
  · rw [next_setNext hstart]
    exact hch.congr fun x hx => (hdr x hx).next
  · rcases List.mem_cons.mp hx with rfl | hx
    · rw [size_setNext, hs]
      exact hb
    · rw [(hdr x hx).size]
      exact hbl x hx

/-- The effect of `page_free` on the pool of the block. -/
lemma free_pool {m m' : Mem} {p p' : Pool} {l : List ℕ} {page k fuel : ℕ} {rest : List Seg}
    (h : PoolOk m p l) (hk : 12 ≤ k) (hs : size m page = 2 ^ k)
    (hb : Block p.base p.end_ page (2 ^ k)) (hok : BuddyIn m p l page (2 ^ k))
    (hp : Packed (seg m page :: (l.map (seg m) ++ rest))) (hrest : ∀ x ∈ rest, 0 < x.len)
    (hr : freeWalk m p page 0 fuel p.start = .ok (m', p')) :
    ∃ l', PoolOk m' p' l' ∧ p'.base = p.base ∧ p'.end_ = p.end_ ∧ SameOff m m' (page :: l) ∧
      Packed (l'.map (seg m') ++ rest) ∧ Freed m m' p page k l l' := by
  have h0 := h
  have hb0 := hb
  obtain ⟨hpos, htop, hpow, hch, hbl⟩ := h
  obtain ⟨k', q, hk', hkk, hq, hend⟩ := hb
  obtain rfl : k' = k := (Nat.pow_right_injective (le_refl 2) hkk).symm
  have h12 : 2 ^ 12 ≤ 2 ^ k' := Nat.pow_le_pow_right (by omega) hk
  have hbu : getBuddy m page p.base = buddy p.base page (2 ^ k') := by
    rw [getBuddy, hs]
    refine Nat.mod_eq_of_lt ?_
    rcases buddy_cases hq with ⟨e, -⟩ | ⟨e, -⟩ <;> unfold buddy at e <;> omega
  rcases freeWalk_spec hch (by omega) hr with ⟨hnb, rfl, rfl⟩ | ⟨l1, c, l2, hl, hc, hcb, hle, hm⟩
  · -- no buddy on the way: the block goes to the front
    obtain ⟨hdr, hpool, hpk⟩ := front_pool h0 hs hb0 hp
    refine ⟨page :: l, hpool, rfl, rfl, fun x hx => ?_, hpk,
      .front (by rwa [← hbu]) (by rw [size_setNext, hs]) fun x hx => (hdr x hx).size⟩
    have := hx page (by simp)
    exact setNext_out (by omega)
  · -- the walk met the buddy: what stood before it is lost
    rw [hbu] at hcb
    have hbu := hcb
    obtain ⟨hlt, hsc⟩ := hok l1 l2 (hbu ▸ hl) hle
    rw [← hbu] at hlt hsc
    obtain ⟨l2', rfl⟩ : ∃ l2', l = l1 ++ c :: l2' := by
      rcases List.eq_nil_or_concat' l2 with rfl | ⟨l2', y, rfl⟩
      · have := (List.append_inj' hl rfl).2
        simp at this
        omega
      · rw [← List.cons_append, ← List.append_assoc] at hl
        exact ⟨l2', (List.append_inj' hl rfl).1⟩
    have hp2 : Packed (seg m page :: seg m c :: (l2'.map (seg m) ++ rest)) := by
      refine hp.sublist (List.Sublist.cons_cons _ ?_)
      rw [List.map_append, List.map_cons, List.append_assoc, List.cons_append]
      exact List.sublist_append_right _ _
    have hpos' : ∀ x ∈ l2'.map (seg m) ++ rest, 0 < x.len := by
      intro x hx
      rcases List.mem_append.mp hx with h1 | h1
      · obtain ⟨y, hy, rfl⟩ := List.mem_map.mp h1
        have := (hbl y (by simp [hy])).facts
        simp only [seg]; omega
      · exact hrest x h1
    have hsub : (l2'.map (seg m)).Sublist (l2'.map (seg m) ++ rest) :=
      List.sublist_append_left _ _
    rcases buddy_cases hq with ⟨e, he⟩ | ⟨e, he⟩
    · -- the buddy is the upper half
      rw [← hbu] at e
      have hcb := (hbl c (by simp)).facts
      obtain ⟨h1, h2, h3⟩ := join_pool h0 hk hs hsc e (by omega) he
        (hp2.sublist ((hsub.cons_cons _).cons_cons _))
      have hn : next (setSize m page (size m page + size m c)) c = next m c :=
        rd_wr_sep (by omega)
      simp only [merge, if_pos (show page < c by omega), hn, ne_eq, not_true_eq_false, if_false,
        Prod.mk.injEq] at hm
      obtain ⟨rfl, rfl⟩ := hm
      obtain ⟨hs', hl'⟩ := sizes_of_segs h3
      refine ⟨page :: l2', h1, rfl, rfl, h2.mono (by simp), ?_,
        .join (by rw [← hbu]) hle (by rw [← hbu, hsc]) (by rw [← hbu]; omega) hs' hl'⟩
      rw [h3, List.cons_append]
      have := hp2.join (by simp [seg, Seg.hi, hs, e]) hpos'
      simpa [seg, hs, hsc] using this
    · -- the buddy is the lower half
      rw [← hbu] at e he
      obtain ⟨h1, h2, h3⟩ := join_pool h0 hk hsc hs e (by omega) he
        ((hp2.perm (List.Perm.swap _ _ _)).sublist ((hsub.cons_cons _).cons_cons _))
      simp only [merge, if_neg (show ¬ page < c by omega), next_setSize, ne_eq,
        not_true_eq_false, if_false, Prod.mk.injEq] at hm
      obtain ⟨rfl, rfl⟩ := hm
      obtain ⟨hs', hl'⟩ := sizes_of_segs h3
      refine ⟨c :: l2', h1, rfl, rfl, h2.mono (by simp), ?_,
        .join (by rw [← hbu]) hle (by rw [← hbu, hsc]) (by rw [← hbu]; omega) hs' hl'⟩
      rw [h3, List.cons_append]
      have := (hp2.perm (List.Perm.swap _ _ _)).join (by simp [seg, Seg.hi, hsc, e]) hpos'
      simpa [seg, hs, hsc] using this

/-- What a successful `page_free` does to the free lists. -/
def FreeEff (m : Mem) (ps : List Pool) (fr : List (List ℕ)) (page k : ℕ) (m' : Mem)
    (fr' : List (List ℕ)) : Prop :=
  ∃ p ∈ ps, p.base ≤ page ∧ page < p.end_ ∧ ∃ A l l' B, fr = A ++ l :: B ∧ fr' = A ++ l' :: B ∧
    PoolOk m p l ∧ Freed m m' p page k l l' ∧ ∀ x ∈ A.flatten ++ B.flatten, size m' x = size m x

/-- What a successful `page_free` does to the pools: `p` becomes `p'` and its list `l` becomes `l'`;
the pools around it and their lists stay. -/
structure Release (m : Mem) (ps : List Pool) (fr : List (List ℕ)) (page k : ℕ) (m' : Mem)
    (ps' : List Pool) (A : List Pool) (p p' : Pool) (B : List Pool) (FA : List (List ℕ))
    (l l' : List ℕ) (FB : List (List ℕ)) : Prop where
  pools : ps = A ++ p :: B
  pools' : ps' = A ++ p' :: B
  lists : fr = FA ++ l :: FB
  left : List.Forall₂ (PoolOk m) A FA
  here : PoolOk m p l
  right : List.Forall₂ (PoolOk m) B FB
  here' : PoolOk m' p' l'
  ext : extent p' = extent p
  lo : p.base ≤ page
  hi : page < p.end_
  freed : Freed m m' p page k l l'
  hdrs : ∀ x ∈ FA.flatten ++ FB.flatten, SameHdr m m' x

variable {m m₀ m' : Mem} {ps ps' A B : List Pool} {fr FA FB : List (List ℕ)} {p p' : Pool}
  {l l' : List ℕ} {page k fuel : ℕ}

lemma Release.eff (h : Release m ps fr page k m' ps' A p p' B FA l l' FB) :
    FreeEff m ps fr page k m' (FA ++ l' :: FB) :=
  ⟨p, by simp [h.pools], h.lo, h.hi, FA, l, l', FB, h.lists, rfl, h.here, h.freed,
    fun x hx => (h.hdrs x hx).size⟩

lemma Release.extents (h : Release m ps fr page k m' ps' A p p' B FA l l' FB) :
    ps'.map extent = ps.map extent := by
  simp [h.pools, h.pools', h.ext]

lemma Release.after (h : Release m ps fr page k m' ps' A p p' B FA l l' FB) :
    List.Forall₂ (PoolOk m') ps' (FA ++ l' :: FB) := by
  rw [h.pools']
  exact List.rel_append (forall2_hdr h.left fun x hx => h.hdrs x (by simp [hx]))
    (.cons h.here' (forall2_hdr h.right fun x hx => h.hdrs x (by simp [hx])))

lemma forall2_middle {α β : Type*} {R : α → β → Prop} {A B : List α} {a : α} {L : List β}
    (h : List.Forall₂ R (A ++ a :: B) L) : ∃ LA b LB, L = LA ++ b :: LB ∧ List.Forall₂ R A LA ∧
      R a b ∧ List.Forall₂ R B LB := by
  induction A generalizing L with
  | nil =>
    cases h with
    | @cons _ b _ LB h1 h2 => exact ⟨[], b, LB, rfl, .nil, h1, h2⟩
  | cons c A ih =>
    cases h with
    | @cons _ d _ L h1 h2 =>
      obtain ⟨LA, b, LB, rfl, h3, h4, h5⟩ := ih h2
      exact ⟨d :: LA, b, LB, rfl, .cons h1 h3, h4, h5⟩

lemma flatten_middle {α : Type*} (A B : List (List α)) (l : List α) :
    (A ++ l :: B).flatten.Perm (l ++ (A.flatten ++ B.flatten)) := by
  rw [List.flatten_append, List.flatten_cons]
  exact List.perm_append_comm_assoc _ _ _

/-- The loop walks one pool: the first one that takes the address for its own. -/
lemma freeLoop_pools (hr : freeLoop fuel m page ps = .ok (m', ps')) :
    ∃ A p p' B, ps = A ++ p :: B ∧ ps' = A ++ p' :: B ∧ p.base ≤ page ∧ page ≤ p.end_ ∧
      freeWalk m p page 0 fuel p.start = .ok (m', p') := by
  induction ps generalizing ps' with
  | nil => cases hr
  | cons p ps ih =>
    rw [freeLoop] at hr
    split at hr
    · obtain ⟨⟨m1, ps1⟩, hrec, hr⟩ := exists_of_bind hr
      cases hr
      obtain ⟨A, q, q', B, rfl, rfl, h⟩ := ih hrec
      exact ⟨p :: A, q, q', B, rfl, rfl, h⟩
    · obtain ⟨⟨m1, p1⟩, hw, hr⟩ := exists_of_bind hr
      cases hr
      exact ⟨[], p, p1, ps, rfl, rfl, by omega, by omega, hw⟩

lemma Freed.congr (h : Freed m₀ m' p page k l l') (hd : ∀ x ∈ l, SameHdr m m₀ x) :
    Freed m m' p page k l l' := by
  cases h with
  | front hne hs hsz => exact .front hne hs fun x hx => (hsz x hx).trans (hd x hx).size
  | join he hle hb hlo hs hsz =>
    refine .join he hle ?_ hlo hs fun x hx => (hsz x hx).trans (hd x (by simp [he, hx])).size
    rw [← (hd _ (by simp [he])).size, hb]

lemma seg_pos (h : List.Forall₂ (PoolOk m) ps fr) : ∀ g ∈ fr.flatten.map (seg m), 16 ≤ g.len := by
  intro g hg
  obtain ⟨x, hx, rfl⟩ := List.mem_map.mp hg
  obtain ⟨q, -, hq⟩ := exists_block h hx
  have := hq.facts
  simp only [seg]
  omega

/-- `m₀` is the memory before the call, `m` has the size of the block in its header. -/
lemma freeLoop_spec (rest : List Seg) (hk : 12 ≤ k) (hs : size m page = 2 ^ k)
    (h : List.Forall₂ (PoolOk m₀) ps fr) (hd : ∀ x ∈ fr.flatten, SameHdr m₀ m x)
    (hne : ∀ p ∈ ps, page ≠ p.end_)
    (hb : ∀ p ∈ ps, p.base ≤ page → page < p.end_ →
      Block p.base p.end_ page (2 ^ k) ∧ BuddyOk m₀ p page (2 ^ k))
    (hp : Packed (seg m page :: (fr.flatten.map (seg m) ++ rest)))
    (hrest : ∀ x ∈ rest, 0 < x.len) (hr : freeLoop fuel m page ps = .ok (m', ps')) :
    ∃ A p p' B FA l l' FB, Release m₀ ps fr page k m' ps' A p p' B FA l l' FB ∧
      Packed ((FA ++ l' :: FB).flatten.map (seg m') ++ rest) := by
  obtain ⟨A, p, p', B, rfl, rfl, h1, h2, hw⟩ := freeLoop_pools hr
  obtain ⟨FA, l, FB, rfl, hA, hpl₀, hB⟩ := forall2_middle h
  have hlt : page < p.end_ := by
    have := hne p (by simp)
    omega
  obtain ⟨hblk, hok⟩ := hb p (by simp) h1 hlt
  have hAB := List.rel_append hA hB
  have hfl : (FA ++ FB).flatten = FA.flatten ++ FB.flatten := List.flatten_append
  have hmem : ∀ x, x ∈ FA.flatten ++ FB.flatten ∨ x ∈ l → x ∈ (FA ++ l :: FB).flatten := by
    intro x hx
    rw [(flatten_middle FA FB l).mem_iff, List.mem_append]
    exact hx.symm
  have hdl : ∀ x ∈ l, SameHdr m₀ m x := fun x hx => hd x (hmem x (Or.inr hx))
  have hdo : ∀ x ∈ (FA ++ FB).flatten, SameHdr m₀ m x := fun x hx =>
    hd x (hmem x (Or.inl (by rwa [← hfl])))
  have hAB' := forall2_hdr hAB hdo
  -- the blocks of the other pools are among those that the call must not touch
  have hp' : Packed (seg m page :: (l.map (seg m) ++ ((FA ++ FB).flatten.map (seg m) ++ rest))) := by
    refine hp.perm (List.Perm.cons _ ?_)
    rw [← List.append_assoc, ← List.map_append, hfl]
    exact ((flatten_middle FA FB l).map _).append_right _
  have hpos : ∀ x ∈ (FA ++ FB).flatten.map (seg m) ++ rest, 0 < x.len := by
    intro x hx
    rcases List.mem_append.mp hx with hx | hx
    · have := seg_pos hAB' x hx
      omega
    · exact hrest x hx
  obtain ⟨l', h3, h4, h5, h6, h7, h8⟩ := free_pool (hpl₀.frame hdl) hk hs hblk
    (hok.buddyIn hpl₀ hdl) hp' hpos hw
  have hdr : ∀ x ∈ (FA ++ FB).flatten, SameHdr m m' x := by
    intro x hx
    have hxs : seg m x ∈ (FA ++ FB).flatten.map (seg m) ++ rest :=
      List.mem_append_left _ (List.mem_map_of_mem hx)
    refine h6.hdr (seg_pos hAB' _ (List.mem_map_of_mem hx)) fun y hy => ?_
    rcases List.mem_cons.mp hy with rfl | hy
    · exact (hp'.apart (List.mem_append_right _ hxs)).symm
    · exact ((List.pairwise_append.mp (List.pairwise_cons.mp hp').2).2.2 _
        (List.mem_map_of_mem hy) _ hxs).symm
  have hdr₀ : ∀ x ∈ (FA ++ FB).flatten, SameHdr m₀ m' x := fun x hx z hz1 hz2 =>
    (hdr x hx z hz1 hz2).trans (hdo x hx z hz1 hz2)
  refine ⟨A, p, p', B, FA, l, l', FB, ⟨rfl, rfl, rfl, hA, hpl₀, hB, h3, by simp [extent, h4, h5], h1,
    hlt, h8.congr hdl, fun x hx => hdr₀ x (by rwa [hfl])⟩, ?_⟩
  have e : (FA ++ FB).flatten.map (seg m') = (FA ++ FB).flatten.map (seg m) :=
    List.map_congr_left fun x hx => by rw [seg, seg, (hdr x hx).size]
  rw [← e, ← List.append_assoc, ← List.map_append, hfl] at h7
  exact h7.perm (((flatten_middle FA FB l').map _).append_right _).symm

end Silkware.PageAllocInv
