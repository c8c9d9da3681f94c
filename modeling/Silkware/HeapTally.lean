import Mathlib.Algebra.Order.BigOperators.Group.List
import Silkware.KallocRuns

/-!
Where the memory of the heap goes.

`kalloc` works out the size of the region it is given from its request, as the next power of two.
`page_alloc` gives a page at least, so a request below that leaves bytes that belong to no block.
-/

namespace Silkware.HeapTally

open Silkware.Header Silkware.Kalloc Silkware.KallocInv Silkware.KallocRuns Silkware.Blocks
open Silkware.ByteMem Silkware.Kern Silkware.Outcome Silkware.PageAlloc Silkware.PageAllocInv

/-- The size a call asks `kalloc` for. -/
def asked : Op → ℕ
  | .kalloc _ n _ | .kzalloc _ n _ => n
  | _ => 0

/-- A step of a run: the state before, and what the step asked of `page_alloc`. -/
structure Entry where
  before : Sys
  op : Op
  req : Option ℕ

/-- A run with its steps, the last one first. -/
inductive Ledger (m : Mem) : Sys → List Entry → Prop
  | init : Ledger m (init m) []
  | step {s s' : Sys} {lo : ℕ} {op : Op} {req : Option ℕ} {es : List Entry} (h : Ledger m s es)
      (hs : StepAt s lo op req s') (hn : asked op < 2 ^ 62) : Ledger m s' (⟨s, op, req⟩ :: es)

/-- The bytes `page_alloc` reserves. -/
def reserved : Option ℕ → ℕ
  | none => 0
  | some r => blockSize r

/-- The blocks, with their headers, have as many bytes as `page_alloc` has reserved. -/
def Accounted (s : Sys) (es : List Entry) : Prop :=
  Tally hdrSize (size s.st.mem) (IsBlock s) (es.map fun e => reserved e.req).sum

/-- A call finds a block on its list, or asks for more than half a page with both headers. -/
def Large (s : Sys) : Op → Prop
  | .kalloc cpu n _ | .kzalloc cpu n _ => Room s.st cpu n ∨ 2016 < n
  | _ => True

/-! ### The two formulas -/

lemma gain_le_reserved : ∀ req, gain req ≤ reserved req
  | none => le_refl _
  | some r => by
    rw [gain, reserved, blockSize]
    split <;> omega

/-- The two sizes agree exactly above half a page. -/
lemma blockSize_eq_iff {n : ℕ} (hn : n < 2 ^ 62) :
    nextPow2 (alignUp n + 32) = blockSize (alignUp n + 32) ↔ 2016 < n := by
  obtain ⟨hal, hle, hlt, hmax⟩ := alignUp_spec (n := n) (by omega)
  have hpage : pageSize = 4096 := rfl
  obtain ⟨k, -, he, hk⟩ := nextPow2_eq (x := alignUp n + 32) (by omega) (by omega)
  rw [blockSize]
  rcases Nat.lt_or_ge k 12 with hk12 | hk12
  · have h11 : 2 ^ k ≤ 2 ^ 11 := Nat.pow_le_pow_right (by omega) (by omega)
    rw [if_pos (by omega)]
    omega
  · have h12 : 2 ^ 12 ≤ 2 ^ k := Nat.pow_le_pow_right (by omega) hk12
    have hlt2 := nextPow2_lt (x := alignUp n + 32) (by omega) (by omega)
    rw [if_neg (by omega)]
    omega

/-- Sums of terms that are below each other are equal where all terms are. -/
lemma sum_eq_iff {α : Type*} {f g : α → ℕ} (hle : ∀ a, f a ≤ g a) (l : List α) :
    (l.map f).sum = (l.map g).sum ↔ ∀ a ∈ l, f a = g a := by
  induction l with
  | nil => simp
  | cons a l ih =>
    have h1 := hle a
    have h2 : (l.map f).sum ≤ (l.map g).sum := List.sum_le_sum fun b _ => hle b
    rw [List.forall_mem_cons, ← ih, List.map_cons, List.map_cons, List.sum_cons, List.sum_cons]
    omega

/-! ### Runs -/

section

variable {m : Mem} {s s' : Sys} {fr fr' : ℕ → List ℕ} {own own' : List ℕ}

/-- Every run has a ledger. -/
lemma runs_ledger (h : Runs (init m) s) : ∃ es, Ledger m s es := by
  induction h with
  | refl => exact ⟨[], .init⟩
  | tail _ hstep ih =>
    obtain ⟨es, ih⟩ := ih
    obtain ⟨op, hs⟩ := hstep
    obtain ⟨-, lo, req, hs'⟩ := hs.stepAt
    refine ⟨_, ih.step hs' ?_⟩
    cases hs with
    | kalloc hn => exact hn
    | kzalloc hn => exact hn
    | kfree => exact Nat.two_pow_pos 62
    | write => exact Nat.two_pow_pos 62
    | other => exact Nat.two_pow_pos 62

lemma fits_of_asked {op : Op} (h : asked op < 2 ^ 62) : Fits op := by
  rintro n ptr ⟨cpu, rfl | rfl⟩
  all_goals
    have : n < 2 ^ 62 := h
    omega

/-- The blocks gain what a new region brings, and lose nothing. -/
lemma moves_tally {lo t : ℕ} {op : Op} {req : Option ℕ} (h : Held s fr own)
    (hmv : Moves s s' lo fr own op req fr' own') (ht : Tally 16 (size s.st.mem) (Here fr own) t) :
    Tally 16 (size s'.st.mem) (Here fr' own') (gain req + t) := by
  cases hmv with
  | gave hop hg hlo hs hk =>
    exact (hg.tally t ht).congr (fun b => Iff.rfl) fun b hb => (hs b hb).size
  | @put cpu ptr l' hp hput =>
    obtain ⟨hh1, -⟩ := take_live h.heap h.live hp
    obtain ⟨-, hb⟩ := mem_live h.heap h.live hp
    have hperm := List.perm_cons_erase hb
    have ht1 : Tally 16 (size s.st.mem) (Here fr (hdr ptr :: own.erase (hdr ptr))) t :=
      ht.congr (fun b => or_congr_left hperm.mem_iff.symm) fun b _ => rfl
    rw [gain, Nat.zero_add]
    exact ht1.change hh1.laid (by decide) hput.change
  | same hop hs =>
    rw [gain, Nat.zero_add]
    exact ht.congr (fun b => Iff.rfl) fun b hb => (hs b hb).size

/-- What `kalloc` reckons with is what `page_alloc` reserves. -/
lemma moves_large {lo : ℕ} {op : Op} {req : Option ℕ} (h : Held s fr own) (hn : asked op < 2 ^ 62)
    (hmv : Moves s s' lo fr own op req fr' own') : gain req = reserved req ↔ Large s op := by
  cases hmv with
  | @gave op cpu n ptr b st req l' hop hg hlo hs hk =>
    obtain ⟨e, hl⟩ : asked op = n ∧ (Large s op ↔ Room s.st cpu n ∨ 2016 < n) := by
      rcases hop with rfl | rfl <;> exact ⟨rfl, Iff.rfl⟩
    rw [e] at hn
    rw [hl, room_iff h hg.taken]
    cases htk : hg.taken with
    | cut => exact iff_of_true rfl (Or.inl rfl)
    | page => exact (blockSize_eq_iff hn).trans (or_iff_right (by simp)).symm
  | put => exact iff_of_true rfl trivial
  | same hop => rcases hop with rfl | rfl <;> exact iff_of_true rfl trivial

/-- What the steps of a run have brought to the blocks. -/
lemma ledger_held {es : List Entry} (h : Ledger m s es) : ∃ fr own, Held s fr own ∧
    Tally 16 (size s.st.mem) (Here fr own) (es.map fun e => gain e.req).sum ∧
    ∀ e ∈ es, gain e.req = reserved e.req ↔ Large e.before e.op := by
  induction h with
  | init =>
    refine ⟨_, _, Held.init m, ⟨[], List.nodup_nil, fun b => ?_, rfl⟩, fun e he => absurd he List.not_mem_nil⟩
    exact iff_of_false List.not_mem_nil (not_here_nil b)
  | @step s s' lo op req es _ hs hn ih =>
    obtain ⟨fr, own, hh, ht, hes⟩ := ih
    obtain ⟨fr', own', hh', hmv⟩ := step_moves hh hs (fits_of_asked hn)
    refine ⟨fr', own', hh', moves_tally hh hmv ht, fun e he => ?_⟩
    rcases List.mem_cons.mp he with rfl | he
    · exact moves_large hh hn hmv
    · exact hes e he

lemma ledger_tally {es : List Entry} (h : Ledger m s es) :
    Tally hdrSize (size s.st.mem) (IsBlock s) (es.map fun e => gain e.req).sum := by
  obtain ⟨fr, own, hh, ht, -⟩ := ledger_held h
  exact ht.congr (isBlock_iff hh.heap hh.live) fun b _ => rfl

end

/-- **The heap accounts for the memory it takes exactly if every call in the run that finds no block on
its list asks for more than 2016 bytes.** -/
theorem heap_accounts {m : Mem} {s : Sys} {es : List Entry} (h : Ledger m s es) :
    Accounted s es ↔ ∀ e ∈ es, Large e.before e.op := by
  obtain ⟨-, -, -, -, hes⟩ := ledger_held h
  have ht := ledger_tally h
  have hsum : Accounted s es ↔
      (es.map fun e => gain e.req).sum = (es.map fun e => reserved e.req).sum :=
    ⟨fun hac => ht.unique hac, fun e => by rw [Accounted, ← e]; exact ht⟩
  rw [hsum, sum_eq_iff (f := fun e : Entry => gain e.req) (g := fun e => reserved e.req)
    fun e => gain_le_reserved e.req]
  exact forall₂_congr hes

/-- A first call, given the page at `0x100000`. -/
lemma ledger_first {n r : ℕ} (hn : n < 2 ^ 62) (hg : Grant [] r ⟨0x100000, 0x1000⟩)
    (hk : (Kalloc.kalloc (fun _ => .ok 0x100000) 9 (init fun _ => 0).st 0 n).map (fun x => x.2) =
      .ok (0x100010, some r)) : ∃ s, Runs (init fun _ => 0) s ∧
      Ledger (fun _ => 0) s [⟨init fun _ => 0, .kalloc 0 n 0x100010, some r⟩] := by
  obtain ⟨⟨st, ptr, req⟩, hk, hreq⟩ := exists_of_map hk
  obtain ⟨rfl, rfl⟩ := Prod.mk.inj hreq
  have hg' : ∀ x, some r = some x → Grant (init fun _ => 0).regs x ⟨0x100000, 0x1000⟩ :=
    fun x hx => Option.some.inj hx ▸ hg
  exact ⟨_, .single ⟨_, .kalloc (g := ⟨0x100000, 0x1000⟩) hn hg' hk⟩, Ledger.init.step (.kalloc hg' hk) hn⟩

/-- A region of one page is taken up whole. -/
theorem heap_accounts_page : ∃ s, Runs (init fun _ => 0) s ∧
    Accounted s [⟨init fun _ => 0, .kalloc 0 4032 0x100010, some 4064⟩] := by
  obtain ⟨s, hr, hl⟩ := ledger_first (n := 4032) (r := 4064) (by decide) (by decide)
    (by decide)
  refine ⟨s, hr, (heap_accounts hl).mpr fun e he => ?_⟩
  rw [List.mem_singleton.mp he]
  exact Or.inr (by decide)

/-- The region for 24 bytes has 4096 bytes, of which 64 belong to a block. -/
theorem small_call_loses : ∃ s es, Runs (init fun _ => 0) s ∧ Ledger (fun _ => 0) s es ∧
    es = [⟨init fun _ => 0, .kalloc 0 24 0x100010, some 64⟩] ∧
    Tally hdrSize (size s.st.mem) (IsBlock s) 64 ∧ reserved (some 64) = 4096 ∧ ¬ Accounted s es := by
  obtain ⟨s, hr, hl⟩ := ledger_first (n := 24) (r := 64) (by decide) (by decide)
    (by decide)
  have ht : Tally hdrSize (size s.st.mem) (IsBlock s) 64 := by
    have hg : gain (some 64) = 64 := by decide
    have ht := ledger_tally hl
    rwa [List.map_singleton, List.sum_singleton, hg] at ht
  have hb : reserved (some 64) = 4096 := by decide
  refine ⟨s, _, hr, hl, rfl, ht, hb, fun hac => ?_⟩
  have := ht.unique hac
  rw [List.map_singleton, List.sum_singleton, hb] at this
  omega

end Silkware.HeapTally
