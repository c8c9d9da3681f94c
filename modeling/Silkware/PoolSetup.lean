import Silkware.PageRuns

/-!
The pools that `memmap_init` and `page_alloc_init` make of the boot loader's memory map.

Each usable entry is cut from its start into powers of two, largest first. The exit test of the
loop looks at what would be left after one more piece, so the last piece of an entry is not taken
unless it is the only one.
-/

namespace Silkware.PoolSetup

open Silkware.ByteMem Silkware.Kern Silkware.Outcome Silkware.PageAlloc Silkware.PageAllocInv
open Silkware.PageRuns Silkware.Segments

/-! ### The memory map -/

/-- The types of `limine.h`. -/
inductive MemmapType
  | usable
  | reserved
  | acpiReclaimable
  | acpiNvs
  | badMemory
  | bootloaderReclaimable
  | kernelAndModules
  | framebuffer
  deriving DecidableEq

structure LimineMemmapEntry where
  base : ℕ
  length : ℕ
  type : MemmapType
  deriving DecidableEq

/-- What `memmap_init` makes of an entry. For memory that is not usable it sets the base only; the
length is what the fresh memory of the miniheap holds, which is zero. -/
def memmapEntry (e : LimineMemmapEntry) : MemmapEntry :=
  if e.type = .usable ∧ e.length ≠ 0 then ⟨e.base, e.length⟩ else ⟨0, 0⟩

/-- `memmap_init`, on the entries of the boot loader's response if there is one. -/
def memmapInit : Option (List LimineMemmapEntry) → Except Stop (List MemmapEntry)
  | none => throw .panic
  | some [] => throw .panic
  | some entries => return entries.map memmapEntry

/-- The physical range of an entry. -/
def LimineMemmapEntry.seg (e : LimineMemmapEntry) : Seg := ⟨e.base, e.length⟩

/-- Lengths are 64-bit words, ranges do not run over the end of the address space, and no two
overlap. -/
structure MemmapOk (es : List LimineMemmapEntry) : Prop where
  word : ∀ e ∈ es, e.length < 2 ^ 64
  top : ∀ e ∈ es, e.base + e.length ≤ 2 ^ 64
  apart : Packed (es.map LimineMemmapEntry.seg)

/-! ### The physical ranges of the pools -/

/-- The pieces the loop takes of an entry with `sz` bytes left at `phys`. -/
def chunks : ℕ → ℕ → ℕ → List Seg
  | 0, _, _ => []
  | fuel + 1, phys, sz =>
    ⟨phys, prevPow2 sz⟩ ::
      if pageSize ≤ sz - prevPow2 sz - prevPow2 (sz - prevPow2 sz) then
        chunks fuel (phys + prevPow2 sz) (sz - prevPow2 sz)
      else []

/-- The ranges passed to `premap_anon`, in order: pool by pool, the physical memory behind it. -/
def poolPhys (memmap : List MemmapEntry) : List Seg :=
  memmap.flatMap fun e => if e.len < pageSize then [] else chunks 65 e.base e.len

lemma poolPhys_cons (e : MemmapEntry) (memmap : List MemmapEntry) :
    poolPhys (e :: memmap) =
      (if e.len < pageSize then [] else chunks 65 e.base e.len) ++ poolPhys memmap :=
  List.flatMap_cons

lemma fillEntry_eq (fuel : ℕ) (s : Setup) (phys sz : ℕ) :
    fillEntry fuel s phys sz = (chunks fuel phys sz).foldl (fun s g => addPool s g.lo g.len) s := by
  induction fuel generalizing s phys sz with
  | zero => rfl
  | succ fuel ih =>
    rw [fillEntry, chunks, List.foldl_cons]
    split
    · exact ih _ _ _
    · rfl

/-- The set-up makes one pool of each range. -/
lemma fillPools_eq (s : Setup) (memmap : List MemmapEntry) :
    fillPools s memmap = (poolPhys memmap).foldl (fun s g => addPool s g.lo g.len) s := by
  induction memmap generalizing s with
  | nil => rfl
  | cons e memmap ih =>
    rw [fillPools, List.foldl_cons, ← fillPools, ih, poolPhys_cons, List.foldl_append]
    split
    · rfl
    · rw [fillEntry_eq]

lemma countEntry_eq (fuel phys len : ℕ) : countEntry fuel len = (chunks fuel phys len).length := by
  induction fuel generalizing phys len with
  | zero => rfl
  | succ fuel ih =>
    rw [countEntry, chunks, List.length_cons]
    split
    · rw [ih (phys + prevPow2 len), Nat.add_comm]
    · rfl

/-- The counting loop and the filling loop make the same number of rounds. -/
lemma countPools_eq (memmap : List MemmapEntry) : countPools memmap = (poolPhys memmap).length := by
  induction memmap with
  | nil => rfl
  | cons e memmap ih =>
    rw [countPools, List.map_cons, List.sum_cons, ← countPools, ih, poolPhys_cons, List.length_append]
    split
    · rfl
    · rw [countEntry_eq 65 e.base]

lemma foldl_addPool (gs : List Seg) (s : Setup) :
    ∃ ps, (gs.foldl (fun s g => addPool s g.lo g.len) s).pools = s.pools ++ ps ∧
      List.Forall₂ (fun p g => p.end_ = (p.base + g.len) % 2 ^ 64) ps gs := by
  induction gs generalizing s with
  | nil => exact ⟨[], by simp, .nil⟩
  | cons g gs ih =>
    obtain ⟨ps, h1, h2⟩ := ih (addPool s g.lo g.len)
    have hadd : (addPool s g.lo g.len).pools = s.pools ++ [⟨(anonPos s.endPos g.lo g.len).1,
        (anonPos s.endPos g.lo g.len).1, ((anonPos s.endPos g.lo g.len).1 + g.len) % 2 ^ 64⟩] := rfl
    rw [hadd, List.append_assoc] at h1
    exact ⟨_, h1, .cons rfl h2⟩

/-! ### The loop -/

lemma prevPow2_rest {sz : ℕ} (h0 : sz ≠ 0) (h : sz < 2 ^ 64) :
    prevPow2 sz = 2 ^ sz.log2 ∧ prevPow2 sz ≤ sz ∧ sz - prevPow2 sz < prevPow2 sz := by
  have e := prevPow2_eq h0 h
  have h1 : 2 ^ sz.log2 ≤ sz := Nat.log2_self_le h0
  have h2 : sz < 2 ^ (sz.log2 + 1) := Nat.lt_log2_self
  rw [pow_succ] at h2
  exact ⟨e, by omega, by omega⟩

/-- A length below `2 ^ n` takes at most `n` rounds, so the bound on the loop does not matter. -/
lemma chunks_fuel {n fuel fuel' phys sz : ℕ} (h : sz < 2 ^ n) (h64 : sz < 2 ^ 64) (h1 : n < fuel)
    (h2 : n < fuel') : chunks fuel phys sz = chunks fuel' phys sz := by
  have hps : pageSize = 4096 := rfl
  induction n generalizing fuel fuel' phys sz with
  | zero =>
    obtain rfl : sz = 0 := by simpa using h
    obtain ⟨f, rfl⟩ : ∃ f, fuel = f + 1 := ⟨fuel - 1, by omega⟩
    obtain ⟨f', rfl⟩ : ∃ f, fuel' = f + 1 := ⟨fuel' - 1, by omega⟩
    rw [chunks, chunks, if_neg (by omega), if_neg (by omega)]
  | succ n ih =>
    obtain ⟨f, rfl⟩ : ∃ f, fuel = f + 1 := ⟨fuel - 1, by omega⟩
    obtain ⟨f', rfl⟩ : ∃ f, fuel' = f + 1 := ⟨fuel' - 1, by omega⟩
    rw [chunks, chunks]
    split
    · rename_i hge
      obtain ⟨e, h3, h4⟩ := prevPow2_rest (show sz ≠ 0 by omega) h64
      have hlog : sz.log2 < n + 1 := (Nat.log2_lt (by omega)).mpr h
      have hpow : 2 ^ sz.log2 ≤ 2 ^ n := Nat.pow_le_pow_right (by omega) (by omega)
      rw [ih (show sz - prevPow2 sz < 2 ^ n by omega) (by omega) (show n < f by omega)
        (show n < f' by omega)]
    · rfl

/-- The pieces stand one after the other in what is left of the entry, and each is a power of two of
at least a page. -/
lemma chunks_spec {fuel phys sz : ℕ} (h1 : pageSize ≤ sz) (h2 : sz < 2 ^ 64) :
    (∀ g ∈ chunks fuel phys sz, (∃ k, 12 ≤ k ∧ g.len = 2 ^ k) ∧ Inside g ⟨phys, sz⟩) ∧
      Packed (chunks fuel phys sz) := by
  induction fuel generalizing phys sz with
  | zero => simp [chunks]
  | succ fuel ih =>
    obtain ⟨k, hk, e, hle⟩ := prevPow2_facts h1 h2
    have hhead : Inside ⟨phys, prevPow2 sz⟩ ⟨phys, sz⟩ := by
      simp only [Inside, Seg.hi]
      omega
    rw [chunks]
    split
    · obtain ⟨h3, h4⟩ := ih (show pageSize ≤ sz - prevPow2 sz by omega) (by omega)
      refine ⟨fun g hg => ?_, List.pairwise_cons.mpr ⟨fun g hg => ?_, h4⟩⟩
      · rcases List.mem_cons.mp hg with rfl | hg
        · exact ⟨⟨k, hk, e⟩, hhead⟩
        · obtain ⟨hg1, hg2⟩ := h3 g hg
          refine ⟨hg1, ?_⟩
          simp only [Inside, Seg.hi] at hg2 ⊢
          omega
      · have := (h3 g hg).2
        simp only [Inside, Apart, Seg.hi] at this ⊢
        omega
    · refine ⟨fun g hg => ?_, List.pairwise_singleton _ _⟩
      obtain rfl := List.mem_singleton.mp hg
      exact ⟨⟨k, hk, e⟩, hhead⟩

lemma memmapEntry_len {e : LimineMemmapEntry} (h : pageSize ≤ (memmapEntry e).len) :
    e.type = .usable ∧ memmapEntry e = ⟨e.base, e.length⟩ := by
  unfold memmapEntry at *
  split
  · rename_i hu
    exact ⟨hu.1, rfl⟩
  · rename_i hu
    rw [if_neg hu] at h
    exact absurd h (by decide)

/-- A range is a piece of a usable entry. -/
lemma mem_poolPhys {es : List LimineMemmapEntry} {g : Seg} :
    g ∈ poolPhys (es.map memmapEntry) ↔
      ∃ e ∈ es, e.type = .usable ∧ pageSize ≤ e.length ∧ g ∈ chunks 65 e.base e.length := by
  simp only [poolPhys, List.mem_flatMap, List.mem_map]
  constructor
  · rintro ⟨_, ⟨e, he, rfl⟩, hg⟩
    split at hg
    · cases hg
    · rename_i hlen
      obtain ⟨hu, heq⟩ := memmapEntry_len (e := e) (by omega)
      rw [heq] at hg hlen
      exact ⟨e, he, hu, by simpa using hlen, hg⟩
  · rintro ⟨e, he, hu, hlen, hg⟩
    have hps : pageSize = 4096 := rfl
    have heq : memmapEntry e = ⟨e.base, e.length⟩ := by
      rw [memmapEntry, if_pos ⟨hu, by omega⟩]
    refine ⟨_, ⟨e, he, rfl⟩, ?_⟩
    rw [heq, if_neg (by simpa using hlen)]
    exact hg

lemma poolPhys_packed {es : List LimineMemmapEntry} (h : MemmapOk es) :
    Packed (poolPhys (es.map memmapEntry)) := by
  obtain ⟨hw, ht, hp⟩ := h
  induction es with
  | nil => exact List.Pairwise.nil
  | cons e es ih =>
    obtain ⟨ha, hp⟩ := List.pairwise_cons.mp hp
    rw [List.map_cons, poolPhys_cons, Packed, List.pairwise_append]
    refine ⟨?_, ih (fun f hf => hw f (by simp [hf])) (fun f hf => ht f (by simp [hf])) hp, ?_⟩
    · split
      · exact List.Pairwise.nil
      · rename_i hlen
        obtain ⟨-, heq⟩ := memmapEntry_len (e := e) (by omega)
        rw [heq] at hlen ⊢
        exact (chunks_spec (by simpa using hlen) (hw e (by simp))).2
    · -- pieces of two entries lie in the one and in the other
      intro g hg g' hg'
      split at hg
      · cases hg
      · rename_i hlen
        obtain ⟨-, heq⟩ := memmapEntry_len (e := e) (by omega)
        rw [heq] at hlen hg
        obtain ⟨f, hf, -, hflen, hg'⟩ := mem_poolPhys.mp hg'
        have h1 := ((chunks_spec (by simpa using hlen) (hw e (by simp))).1 g hg).2
        have h2 := ((chunks_spec hflen (hw f (by simp [hf]))).1 g' hg').2
        have h3 := ha _ (List.mem_map_of_mem hf)
        exact ((h3.mono h1).symm.mono h2).symm

/-- Seven usable pages between two entries that are not. -/
def sevenPages : List LimineMemmapEntry :=
  [⟨0, 0x100000, .reserved⟩, ⟨0x100000, 0x7000, .usable⟩, ⟨0x107000, 0x1000, .kernelAndModules⟩]

lemma sevenPages_ok : MemmapOk sevenPages :=
  ⟨by decide, by decide, by decide⟩

/-- The bytes of an entry that get into pools. -/
def taken (fuel phys sz : ℕ) : ℕ := ((chunks fuel phys sz).map Seg.len).sum

/-- An entry of whole pages is taken whole if it is a power of two; otherwise a page or more at its
end is left. -/
lemma taken_spec (fuel phys : ℕ) {sz : ℕ} (h1 : pageSize ≤ sz) (h2 : sz < 2 ^ 64) (hal : sz % pageSize = 0)
    (hf : sz < 2 ^ fuel) :
    ((∃ k, sz = 2 ^ k) → taken (fuel + 1) phys sz = sz) ∧
      ((¬ ∃ k, sz = 2 ^ k) → taken (fuel + 1) phys sz + pageSize ≤ sz) := by
  have hps : pageSize = 4096 := rfl
  induction fuel generalizing phys sz with
  | zero => omega
  | succ fuel ih =>
    obtain ⟨e, h3, h4⟩ := prevPow2_rest (show sz ≠ 0 by omega) h2
    obtain ⟨k, hk, e', -⟩ := prevPow2_facts h1 h2
    have hmod : prevPow2 sz % pageSize = 0 := by
      rw [e']
      exact Nat.mod_eq_zero_of_dvd (pow_dvd_pow 2 hk)
    -- the length is a power of two if nothing is left after the first piece
    have hpow : (∃ k, sz = 2 ^ k) ↔ sz - prevPow2 sz = 0 := by
      constructor
      · rintro ⟨j, rfl⟩
        rw [e, Nat.log2_two_pow, Nat.sub_self]
      · intro h0
        exact ⟨k, by omega⟩
    have hal' : (sz - prevPow2 sz) % 4096 = 0 := by
      rw [hps] at hal hmod
      omega
    rw [hpow, taken, chunks]
    clear hpow
    split
    · rename_i hge
      have hlog : sz.log2 < fuel + 1 := (Nat.log2_lt (by omega)).mpr hf
      have hle : 2 ^ sz.log2 ≤ 2 ^ fuel := Nat.pow_le_pow_right (by omega) (by omega)
      obtain ⟨-, hrest⟩ := ih (phys + prevPow2 sz) (show pageSize ≤ sz - prevPow2 sz by omega)
        (by omega) hal' (by omega)
      have hnot : ¬ ∃ j, sz - prevPow2 sz = 2 ^ j := by
        rintro ⟨j, hj⟩
        rw [hj, prevPow2_eq (by have := Nat.two_pow_pos j; omega) (by omega), Nat.log2_two_pow] at hge
        omega
      have htail := hrest hnot
      simp only [List.map_cons, List.sum_cons]
      unfold taken at htail
      clear hnot
      exact ⟨fun h0 => by omega, fun _ => by omega⟩
    · simp only [List.map_cons, List.map_nil, List.sum_cons, List.sum_nil]
      exact ⟨fun h0 => by omega, fun h0 => by omega⟩

/-- The pieces stand right after each other, and lie in the bytes that are taken. -/
lemma chunks_hi {fuel phys sz : ℕ} : ∀ g ∈ chunks fuel phys sz, g.hi ≤ phys + taken fuel phys sz := by
  induction fuel generalizing phys sz with
  | zero => simp [chunks]
  | succ fuel ih =>
    intro g hg
    rw [taken]
    rw [chunks] at hg ⊢
    simp only [List.map_cons, List.sum_cons]
    split at hg
    · rename_i hge
      rw [if_pos hge, ← taken]
      rcases List.mem_cons.mp hg with rfl | hg
      · simp only [Seg.hi]
        omega
      · have := ih g hg
        omega
    · obtain rfl := List.mem_singleton.mp hg
      simp only [Seg.hi]
      omega

/-- A page below the end of what is taken is in one of the pieces. -/
lemma chunks_page {fuel phys sz i : ℕ} (h1 : pageSize ≤ sz) (h2 : sz < 2 ^ 64)
    (hi : i * pageSize < taken fuel phys sz) :
    ∃ g ∈ chunks fuel phys sz, Inside ⟨phys + i * pageSize, pageSize⟩ g := by
  have hps : pageSize = 4096 := rfl
  induction fuel generalizing phys sz i with
  | zero => simp [taken, chunks] at hi
  | succ fuel ih =>
    obtain ⟨k, hk, e, hle⟩ := prevPow2_facts h1 h2
    obtain ⟨t, ht⟩ : ∃ t, prevPow2 sz = t * pageSize := by
      rw [e]
      obtain ⟨t, ht⟩ := pow_dvd_pow 2 hk
      exact ⟨t, by rw [ht, Nat.mul_comm]; rfl⟩
    rcases Nat.lt_or_ge i t with hit | hit
    · -- in the first piece
      refine ⟨⟨phys, prevPow2 sz⟩, by simp [chunks], ?_⟩
      have : (i + 1) * pageSize ≤ t * pageSize := Nat.mul_le_mul_right _ hit
      rw [Nat.add_mul] at this
      simp only [Inside, Seg.hi]
      omega
    · obtain ⟨j, rfl⟩ := Nat.exists_eq_add_of_le hit
      rw [Nat.add_mul] at hi ⊢
      rw [taken] at hi
      rw [chunks] at hi ⊢
      simp only [List.map_cons, List.sum_cons] at hi
      split
      · rename_i hge
        rw [if_pos hge, ← taken] at hi
        have hj : j * pageSize < taken fuel (phys + prevPow2 sz) (sz - prevPow2 sz) := by omega
        obtain ⟨g, hg, hin⟩ := ih (show pageSize ≤ sz - prevPow2 sz by omega) (by omega) hj
        refine ⟨g, List.mem_cons_of_mem _ hg, ?_⟩
        rwa [← ht, ← Nat.add_assoc]
      · rename_i hge
        rw [if_neg hge] at hi
        simp only [List.map_nil, List.sum_nil] at hi
        omega

/-- The `i`-th page of an entry. -/
def LimineMemmapEntry.page (e : LimineMemmapEntry) (i : ℕ) : Seg := ⟨e.base + i * pageSize, pageSize⟩

end Silkware.PoolSetup
