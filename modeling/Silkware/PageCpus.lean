import Silkware.PageShared
import Silkware.PageStep

/-!
Any number of processors that allocate and release pages at once, from the pools that the set-up
lays out.
-/

namespace Silkware.PageCpus

open Silkware.ByteMem Silkware.Header Silkware.Kern Silkware.Outcome Silkware.PageAlloc
open Silkware.PageAllocInv Silkware.PageLock Silkware.PageRuns Silkware.PageShared
open Silkware.PageStep Silkware.Segments Silkware.SpinLock Silkware.Steps Silkware.Steps.Prog

variable {ι : Type}

abbrev Cpus (ι : Type) := Conf ι State Stop Call (Option ℕ) Live

/-- No block has been handed out. -/
def start (ι : Type) (st : State) : Cpus ι := ⟨st, false, fun _ => .idle, 0⟩

lemma start_quiet (st : State) : Quiet (start ι st) := ⟨rfl, fun _ => rfl⟩

lemma start_shared {m : Mem} {endPos : ℕ} {memmap : List MemmapEntry} {st : State}
    (hm : MapOk endPos memmap) (h0 : pageAllocInit m endPos memmap = .ok st) :
    Shared (start ι st).shared (start ι st).held := by
  obtain ⟨fr, h⟩ := init_inv hm h0
  exact ⟨[], fr, rfl, h⟩

variable [Fintype ι] [DecidableEq ι] {m : Mem} {endPos fuel : ℕ} {memmap : List MemmapEntry}
  {st : State} {c c' : Cpus ι} {es fs : List (Event ι State Call (Option ℕ))}

/-- Two processors call for a page each; one is inside while the other spins, and gets its page. -/
lemma two_callers : ∃ st c es,
    pageAllocInit (fun _ => 0) 0xffffffff80200000 [⟨0x100000, 0x7000⟩] = .ok st ∧
    Run (pageLock 9) CallOk (start (Fin 2) st) es c ∧
    rets es = [(.alloc 0x1000, some 0xffffffff80200000)] ∧
    c.held = {⟨0xffffffff80200000, 0x1000⟩} ∧ c.cpus 1 = .spinning (.alloc 0x1000) := by
  have hrun : (twoPools.bind fun st => (pageAlloc 9 st 0x1000).map Prod.snd) =
      .ok 0xffffffff80200000 := by
    decide
  obtain ⟨st, h0, hrun⟩ := exists_of_bind hrun
  obtain ⟨⟨t, p⟩, hp, e⟩ := exists_of_map hrun
  obtain rfl : p = 0xffffffff80200000 := e
  have hbody : ((pageLock 9).body (.alloc 0x1000)).run st = .ok (t, some 0xffffffff80200000) := by
    refine (run_map _ _ _).trans ?_
    rw [run_pageAlloc, hp]
    rfl
  obtain ⟨c₁, h1, l1, s1, a1, b1, k1⟩ : ∃ c₁, Run (pageLock 9) CallOk (start (Fin 2) st)
      [.call 0 (.alloc 0x1000), .call 1 (.alloc 0x1000)] c₁ ∧ c₁.lock = false ∧ c₁.shared = st ∧
      c₁.cpus 0 = .spinning (.alloc 0x1000) ∧ c₁.cpus 1 = .spinning (.alloc 0x1000) ∧ c₁.held = 0 :=
    ⟨_, .snoc (.snoc .nil (.call rfl (Multiset.zero_le _)) nofun) (.call rfl (Multiset.zero_le _)) nofun,
      rfl, rfl, rfl, rfl, rfl⟩
  obtain ⟨c₂, h2, l2, s2, a2, b2, k2⟩ : ∃ c₂, Run (pageLock 9) CallOk (start (Fin 2) st)
      [.call 0 (.alloc 0x1000), .call 1 (.alloc 0x1000), .acquire 0 (.alloc 0x1000)] c₂ ∧
      c₂.lock = true ∧ c₂.shared = st ∧
      c₂.cpus 0 = .inside (.alloc 0x1000) ((pageLock 9).body (.alloc 0x1000)) ∧
      c₂.cpus 1 = .spinning (.alloc 0x1000) ∧ c₂.held = 0 := by
    refine ⟨_, h1.snoc (.acquire a1 l1) fun i op e => ?_, rfl, s1, by simp, by simpa using b1, k1⟩
    cases e
    exact ⟨by decide, by decide⟩
  obtain ⟨fs, hfs, h3⟩ := (h2.snoc (.spin b2 l2) nofun).finish a2 (by rw [s2]; exact hbody)
  obtain ⟨c₄, h4, k4, b4⟩ : ∃ c₄, Run (pageLock 9) CallOk (start (Fin 2) st)
      (fs ++ [.release 0 (.alloc 0x1000) (some 0xffffffff80200000)]) c₄ ∧
      c₄.held = {⟨0xffffffff80200000, 0x1000⟩} ∧ c₄.cpus 1 = .spinning (.alloc 0x1000) := by
    refine ⟨_, h3.snoc (.release (by simp)) nofun, ?_, ?_⟩
    · simp [pageLock, k2]
    · simpa using b2
  refine ⟨st, c₄, _, h0, h4, ?_, k4, b4⟩
  rw [rets, List.filterMap_append]
  exact congrArg (· ++ [(Call.alloc 0x1000, some 0xffffffff80200000)]) hfs

/-- A step of a call leaves the bytes of blocks in use. -/
lemma ignores_keeps {α : Type} {H : Multiset Live} {upd : State → State} {k : State → Code α}
    {s : State} (h : Prog.Ignores (mine H) (.step upd k) s) {a : ℕ} (ha : Owned H a) :
    (upd s).mem a = s.mem a := by
  -- overwriting the byte with its own value is something the owner may do
  have hg : overlay (fun b => if b = a then some (s.mem a) else none) ∈ mine H := by
    refine ⟨_, fun b hb => ?_, rfl⟩
    obtain rfl : b = a := by
      by_contra hne
      exact hb (if_neg hne)
    exact ha
  have hs : overlay (fun b => if b = a then some (s.mem a) else none) s = s := by
    simp only [overlay]
    congr 1
    funext b
    by_cases hb : b = a
    · subst hb
      simp
    · simp [hb]
  have hu := (h.1 _ hg).1
  rw [hs] at hu
  rw [hu]
  simp [overlay]

lemma owned_mono {H K : Multiset Live} (h : H ≤ K) {a : ℕ} (ha : Owned H a) : Owned K a := by
  obtain ⟨x, hx, h1, h2⟩ := ha
  exact ⟨x, Multiset.mem_of_le h hx, h1, h2⟩

/-- Where every free block is too small the call does not return. -/
lemma alloc_small {s : State} {H : Multiset Live} {sz : ℕ} (h : Shared s H) (h1 : sz ≤ 2 ^ 63)
    (hsmall : ∀ p ∈ s.pools, ∀ b, OnList s.mem p b → size s.mem b < blockSize sz) :
    ∃ e, pageAlloc fuel s sz = .error e := by
  obtain ⟨live, fr, rfl, hi⟩ := h
  cases hr : pageAlloc fuel s sz with
  | error e => exact ⟨e, rfl⟩
  | ok r =>
    obtain ⟨A, l1, l2, B, j, k, hsz, e, -⟩ := alloc_inv hi (by omega) hr
    obtain ⟨p, hp, hb⟩ := (onList_flatten hi.pools r.2).mpr (e.mem_old.mpr (Or.inl rfl))
    have hlt := hsmall p hp r.2 hb
    rw [hsz] at hlt
    have := e.size_eq
    have hle : 2 ^ j ≤ 2 ^ k := Nat.pow_le_pow_right (by omega) e.le
    simp only at this hlt
    omega

/-- The pools of the set-up have no block of eight pages. -/
lemma twoPools_small {st : State} (h0 : twoPools = .ok st) :
    ∀ p ∈ st.pools, ∀ b, OnList st.mem p b → size st.mem b < blockSize 0x8000 := by
  intro p hp b hb
  have hps : twoPools.map (·.pools) = .ok [⟨0xffffffff80200000, 0xffffffff80200000, 0xffffffff80204000⟩,
      ⟨0xffffffff80204000, 0xffffffff80204000, 0xffffffff80206000⟩] := by
    decide
  rw [h0] at hps
  have hpools : st.pools = _ := Except.ok.inj hps
  have hsz : blockSize 0x8000 = 0x8000 := by decide
  obtain ⟨fr, hi⟩ := init_inv twoPools_map h0
  obtain ⟨q, hq, hblk⟩ := exists_block hi.pools (onList_mem hi.pools hp hb)
  have hf := hblk.facts
  simp only at hq hf
  rw [hpools] at hq
  simp only [List.mem_cons, List.not_mem_nil, or_false] at hq
  rw [hsz]
  rcases hq with rfl | rfl <;> simp only at hf <;> omega

end Silkware.PageCpus
