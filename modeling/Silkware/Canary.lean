import Silkware.KallocRuns
import Silkware.MemOps
import Silkware.XorShift

/-!
The canaries of `kalloc.c`: `srand_insecure` of the address of a block.

No two addresses have the same canary and only `NULL` has the canary 0, so `kfree` takes no header for
that of another block, and no free block at the end of a list for one in use.
-/

namespace Silkware.Canary

open Silkware.ByteMem Silkware.Header Silkware.Kalloc Silkware.KallocRuns Silkware.Kern
open Silkware.MemOps Silkware.XorShift

lemma srandInsecure_eq : srandInsecure = xorShiftStar 64 12 25 27 0x2545F4914F6CDD1D := rfl

lemma srandInsecure_injOn : Set.InjOn srandInsecure (Set.Iio (2 ^ 64)) := by
  rw [srandInsecure_eq]
  exact xorShiftStar_injOn (by decide) (by decide) (by decide) (by decide)

lemma srandInsecure_zero : srandInsecure 0 = 0 := by
  rw [srandInsecure_eq]
  exact xorShiftStar_zero ..

lemma srandInsecure_eq_zero_iff {x : ℕ} (h : x < 2 ^ 64) : srandInsecure x = 0 ↔ x = 0 := by
  constructor
  · intro h0
    exact srandInsecure_injOn h (by decide) (h0.trans srandInsecure_zero.symm)
  · rintro rfl
    exact srandInsecure_zero

/-! ### The check of `kfree` -/

lemma hdr_dataAt {b : ℕ} (h : b < 2 ^ 64) : sub64 (dataAt b 0) hdrSize = b := by
  unfold sub64 dataAt hdrSize
  omega

/-- A header with another word than the canary of its address. -/
lemma kfree_panics {s : State} {b fuel cpu : ℕ} (h : b < 2 ^ 64) (hc : link s.mem b ≠ canary b) :
    kfree fuel s cpu (dataAt b 0) = .error .panic := by
  rw [kfree, hdr_dataAt h]
  exact if_pos hc

/-- The word of a header goes with a copy of it. -/
lemma link_memcpy (m : Mem) (b₁ b₂ : ℕ) : link (memcpy m b₂ b₁ hdrSize) b₂ = link m b₁ := by
  refine rd_move fun i hi => ?_
  rw [Nat.add_assoc, Nat.add_assoc]
  exact memcpy_in (by unfold hdrSize; omega)

/-- The header of a block in use, copied to another address. -/
lemma copied_panics {s : State} {b₁ b₂ : ℕ} (h₁ : b₁ < 2 ^ 64) (h₂ : b₂ < 2 ^ 64) (hne : b₁ ≠ b₂)
    (hc : link s.mem b₁ = canary b₁) (fuel cpu : ℕ) :
    kfree fuel { s with mem := memcpy s.mem b₂ b₁ hdrSize } cpu (dataAt b₂ 0) = .error .panic := by
  refine kfree_panics h₂ fun h => hne (srandInsecure_injOn h₁ h₂ ?_)
  rw [link_memcpy, hc] at h
  exact h

/-- The last block of a free list. -/
lemma last_panics {s : State} {b cpu : ℕ} (h : b < 2 ^ 64) (hl : OnList s cpu b)
    (hn : next s.mem b = 0) (fuel cpu' : ℕ) : kfree fuel s cpu' (dataAt b 0) = .error .panic := by
  obtain ⟨-, -, -, hb⟩ := hl
  refine kfree_panics h fun hc => hb ((srandInsecure_eq_zero_iff h).mp ?_)
  rw [link, hn] at hc
  exact hc.symm

/-- **Canaries identify their block.** `srand_insecure` maps no two words to one and only 0 to 0; so
the header of a block in use fails the check at every other address, and the last block of a free list
fails it too. -/
theorem canaries_identify :
    Set.InjOn srandInsecure (Set.Iio (2 ^ 64)) ∧ (∀ x < 2 ^ 64, srandInsecure x = 0 ↔ x = 0) ∧
      (∀ (s : State) (b₁ b₂ fuel cpu : ℕ), b₁ < 2 ^ 64 → b₂ < 2 ^ 64 → b₁ ≠ b₂ →
        link s.mem b₁ = canary b₁ →
        kfree fuel { s with mem := memcpy s.mem b₂ b₁ hdrSize } cpu (dataAt b₂ 0) = .error .panic) ∧
      ∀ (s : State) (b fuel cpu cpu' : ℕ), b < 2 ^ 64 → OnList s cpu b → next s.mem b = 0 →
        kfree fuel s cpu' (dataAt b 0) = .error .panic :=
  ⟨srandInsecure_injOn, fun _ h => srandInsecure_eq_zero_iff h,
    fun _ _ _ fuel cpu h₁ h₂ hne hc => copied_panics h₁ h₂ hne hc fuel cpu,
    fun _ _ fuel _ cpu' h hl hn => last_panics h hl hn fuel cpu'⟩

/-- A block in use at 0x1000, and a free one at 0x3000 on the list of CPU 0. -/
def oneFree : State := ⟨setNext (fun _ => 0) 0x1000 (canary 0x1000), fun _ => 0x3000⟩

theorem canaries_identify_oneFree :
    (∀ fuel cpu, kfree fuel { oneFree with mem := memcpy oneFree.mem 0x2000 0x1000 hdrSize } cpu
      (dataAt 0x2000 0) = .error .panic) ∧
    ∀ fuel cpu, kfree fuel oneFree cpu (dataAt 0x3000 0) = .error .panic := by
  obtain ⟨-, -, hcopy, hlast⟩ := canaries_identify
  have hnext : next oneFree.mem 0x3000 = 0 := rd_wr_sep (by decide)
  have hlink : link oneFree.mem 0x1000 = canary 0x1000 := next_setNext (KallocInv.canary_lt _)
  refine ⟨fun fuel cpu => ?_, fun fuel cpu => ?_⟩
  · exact hcopy oneFree 0x1000 0x2000 fuel cpu (by decide) (by decide) (by decide) hlink
  · exact hlast oneFree 0x3000 fuel 0 cpu (by decide) ⟨[], rfl, by simp, by decide⟩ hnext

/-- **In every run of the heap** the header of a block in use is good for that block only, and the
last block of a list cannot be freed again. -/
theorem runs_headers_identify {m : Mem} {s : Sys} (h : Runs (init m) s) :
    (∀ p ∈ s.live, ∀ b < 2 ^ 64, b ≠ hdr p → ∀ fuel cpu,
      kfree fuel { s.st with mem := memcpy s.st.mem b (hdr p) hdrSize } cpu (dataAt b 0) =
        .error .panic) ∧
    ∀ cpu b, OnList s.st cpu b → next s.st.mem b = 0 → ∀ fuel cpu',
      kfree fuel s.st cpu' (dataAt b 0) = .error .panic := by
  obtain ⟨fr, own, hh⟩ := (runs_inv (.init m) h).held
  constructor
  · intro p hp b hb hne
    obtain ⟨-, hown⟩ := mem_live hh.heap hh.live hp
    have hlt := (hh.heap.bounds (Or.inl hown)).2
    exact copied_panics (by omega) hb hne.symm (hh.canary _ hown)
  · intro cpu b hl hn
    have hlt := (hh.heap.bounds (Or.inr ⟨cpu, (onList_iff hh.heap).mp hl⟩)).2
    exact last_panics (by omega) hl hn

end Silkware.Canary
