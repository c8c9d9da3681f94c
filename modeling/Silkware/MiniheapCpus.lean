import Silkware.Premap
import Silkware.Segments
import Silkware.SpinLock

/-!
`miniheap_alloc` called by several processors at once, as they do when they start: `_mp_start` takes
the block of a processor's stack from the miniheap before anything else.
-/

namespace Silkware.MiniheapCpus

open Silkware.Kern Silkware.Paging Silkware.Premap Silkware.Segments Silkware.SpinLock
open Silkware.Steps Silkware.Steps.Prog

variable (K : Image)

/-- `miniheap_alloc`, one load or store of `brk` at a time. -/
def miniheapAllocC (size : ℕ) : Prog ℕ Stop ℕ := do
  let res ← read id
  -- `brk += round_up_page(size)`
  let b ← read id
  update fun _ => (b + roundUpPage size) % 2 ^ 64
  let b ← read id
  if K.miniheapEnd < b then .stop .panic else return res

/-- With nothing in between the steps come to the whole call. -/
lemma run_miniheapAlloc (size : ℕ) (s : St) : (miniheapAllocC K size).run s.brk =
    (miniheapAlloc K size s).map fun r => (r.2.brk, r.1) := by
  rw [miniheapAllocC, read_bind_run, read_bind_run, update_bind_run, read_bind_run, miniheapAlloc]
  simp only [id]
  split
  · rfl
  · rfl

/-- The block of a call that has returned. -/
def block (r : ℕ × ℕ) : Seg := ⟨r.2, roundUpPage r.1⟩

/-- Nothing is given back, and nobody else writes to `brk`. -/
def miniheapLock : Locked ℕ Stop ℕ ℕ Seg where
  body := miniheapAllocC K
  pre _ := 0
  post size a := {block (size, a)}
  mine _ := {id}

/-- The sizes at which `brk` does not wrap around. -/
def SizeOk (size brk : ℕ) : Prop := brk + size + 0xFFF < 2 ^ 64

/-- The calls return addresses one after the other, from `b` to `e`. -/
def Consecutive : ℕ → List (ℕ × ℕ) → ℕ → Prop
  | b, [], e => e = b
  | b, r :: l, e => r.2 = b ∧ Consecutive (block r).hi l e

variable {K} {ι : Type} {b e : ℕ} {l : List (ℕ × ℕ)}

lemma consecutive_snoc {r : ℕ × ℕ} (h : Consecutive b l e) (hr : r.2 = e) :
    Consecutive b (l ++ [r]) (block r).hi := by
  induction l generalizing b with
  | nil =>
    obtain rfl : e = b := h
    exact ⟨hr, rfl⟩
  | cons x l ih => exact ⟨h.1, ih h.2⟩

lemma Consecutive.init {r : List (ℕ × ℕ)} (h : Consecutive b (l ++ r) e) :
    ∃ d ≤ e, Consecutive b l d := by
  induction l generalizing b with
  | nil =>
    refine ⟨b, ?_, rfl⟩
    simp only [List.nil_append] at h
    induction r generalizing b with
    | nil => exact h.ge
    | cons x r ih =>
      obtain ⟨rfl, h2⟩ := h
      have := ih h2
      simp only [block, Seg.hi] at this
      omega
  | cons x l ih =>
    obtain ⟨d, hd, h'⟩ := ih h.2
    exact ⟨d, hd, h.1, h'⟩

lemma Consecutive.inside (h : Consecutive b l e) :
    b ≤ e ∧ ∀ r ∈ l, b ≤ (block r).lo ∧ (block r).hi ≤ e := by
  induction l generalizing b with
  | nil => exact ⟨h.ge, by simp⟩
  | cons x l ih =>
    obtain ⟨rfl, h2⟩ := h
    obtain ⟨h3, h4⟩ := ih h2
    have hlo : x.2 ≤ (block x).hi := Nat.le_add_right _ _
    refine ⟨hlo.trans h3, fun r hr => ?_⟩
    rcases List.mem_cons.mp hr with rfl | hr
    · exact ⟨le_refl _, h3⟩
    · exact ⟨hlo.trans (h4 r hr).1, (h4 r hr).2⟩

lemma Consecutive.packed (h : Consecutive b l e) : Packed (l.map block) := by
  induction l generalizing b with
  | nil => exact List.Pairwise.nil
  | cons x l ih =>
    obtain ⟨rfl, h2⟩ := h
    refine List.pairwise_cons.mpr ⟨fun g hg => ?_, ih h2⟩
    obtain ⟨r, hr, rfl⟩ := List.mem_map.mp hg
    exact Or.inl (h2.inside.2 r hr).1

lemma roundUpPage_le {size brk : ℕ} (h : SizeOk size brk) : brk + roundUpPage size < 2 ^ 64 := by
  unfold SizeOk at h
  unfold roundUpPage floorPage
  have : (size + 0xFFF) % 2 ^ 64 = size + 0xFFF := Nat.mod_eq_of_lt (by omega)
  omega

lemma run_ok {size brk t a : ℕ} (hok : SizeOk size brk)
    (hr : (miniheapAllocC K size).run brk = .ok (t, a)) :
    a = brk ∧ t = brk + roundUpPage size ∧ t ≤ K.miniheapEnd := by
  have hlt := roundUpPage_le hok
  rw [miniheapAllocC, read_bind_run, read_bind_run, update_bind_run, read_bind_run] at hr
  simp only [id, Nat.mod_eq_of_lt hlt] at hr
  split at hr
  · cases hr
  · rename_i hle
    rw [run_pure, Except.ok.injEq, Prod.mk.injEq] at hr
    exact ⟨hr.2.symm, hr.1.symm, hr.1 ▸ Nat.le_of_not_lt hle⟩

lemma ignores_id {σ ε α : Type} (p : Prog σ ε α) (s : σ) : p.Ignores {id} s := by
  induction p generalizing s with
  | ret a => trivial
  | stop e => trivial
  | step upd k ih =>
    refine ⟨fun g hg => ?_, ih s (upd s)⟩
    rw [Set.mem_singleton_iff] at hg
    subst hg
    exact ⟨rfl, rfl⟩

lemma miniheapLock_sound : Sound (miniheapLock K) SizeOk fun _ _ => True where
  comp _ f hf g hg := by
    obtain rfl : f = id := hf
    obtain rfl : g = id := hg
    rfl
  mono _ _ _ := subset_refl _
  write _ _ _ _ _ := trivial
  call _ _ _ _ _ _ _ _ := trivial
  blind s _ op _ _ := ignores_id _ s

/-- Whole calls, one after the other. -/
lemma serial_consecutive {as : List (Act ℕ ℕ ℕ)} {t : ℕ} {H : Multiset Seg}
    (h : Serial (miniheapLock K) SizeOk b 0 as t H) (hb : b ≤ K.miniheapEnd) :
    Consecutive b (calls as) t ∧ t ≤ K.miniheapEnd ∧ H = ((calls as).map block : List Seg) := by
  induction h with
  | nil => exact ⟨rfl, hb, rfl⟩
  | @call as s t M op a _ hok hr ih =>
    obtain ⟨h1, -, h3⟩ := ih
    obtain ⟨e1, e2, hle⟩ :=
      run_ok hok (show (miniheapAllocC K op).run s = .ok (t, a) from hr)
    have hc : calls (as ++ [Act.call op a]) = calls as ++ [(op, a)] := List.filterMap_append ..
    have hend : t = (block (op, a)).hi := by rw [e2, ← e1, block, Seg.hi]
    rw [hc, hend]
    refine ⟨consecutive_snoc h1 e1, hend ▸ hle, ?_⟩
    rw [List.map_append, ← Multiset.coe_add, ← h3, add_comm]
    simp [miniheapLock]
  | @write as s M g _ hg ih =>
    obtain rfl : g = id := hg
    have hc : calls (as ++ [Act.write (id : ℕ → ℕ)]) = calls as :=
      (List.filterMap_append ..).trans (List.append_nil _)
    rw [hc]
    exact ih

/-- The heap from `b` on, no call made yet. -/
def start (ι : Type) (b : ℕ) : Conf ι ℕ Stop ℕ ℕ Seg := ⟨b, false, fun _ => .idle, 0⟩

variable [Fintype ι] {c : Conf ι ℕ Stop ℕ ℕ Seg} {es : List (Event ι ℕ ℕ ℕ)}

lemma owed_held (c : Conf ι ℕ Stop ℕ ℕ Seg) : owed (miniheapLock K) c = c.held := by
  have h : ∀ i, wait (miniheapLock K) (c.cpus i) = 0 := by
    intro i
    cases c.cpus i <;> rfl
  simp [owed, h]

variable [DecidableEq ι]

/-- **Blocks of the miniheap.** Whatever the order in which the processors take their steps, the
blocks that calls have returned lie one after the other from where `brk` stood, in the order of the
returns, inside the heap; and they are what the processors hold. -/
theorem miniheap_consecutive (hb : b ≤ K.miniheapEnd)
    (h : Run (miniheapLock K) SizeOk (start ι b) es c) :
    (∃ e ≤ K.miniheapEnd, Consecutive b (rets es) e) ∧ Packed ((rets es).map block) ∧
      c.held = ((rets es).map block : List Seg) := by
  obtain ⟨as, t, H, out, h1, h2, h3, -⟩ :=
    run_serial miniheapLock_sound ⟨rfl, fun _ => rfl⟩ trivial h
  obtain ⟨k1, k2, k3⟩ := serial_consecutive h1 hb
  rw [h3] at k1 k3
  obtain ⟨d, hd, hc⟩ := k1.init
  refine ⟨⟨d, hd.trans k2, hc⟩, hc.packed, ?_⟩
  cases h2 with
  | free _ _ hH =>
    rw [k3, owed_held, List.append_nil] at hH
    exact hH.symm
  | doomed _ _ _ hH =>
    rw [k3, owed_held, List.append_nil] at hH
    exact (hH.trans (zero_add _)).symm
  | busy _ _ _ hH =>
    rw [k3, owed_held, List.map_append, ← Multiset.coe_add, add_comm] at hH
    exact (add_left_cancel hH).symm

/-! ### Stacks -/

lemma roundUpPage_page : roundUpPage 0x1000 = 0x1000 := by decide

lemma block_page {r : ℕ × ℕ} (h : r.1 = 0x1000) : block r = ⟨r.2, 0x1000⟩ := by
  rw [block, h, roundUpPage_page]

/-- Pages that are apart stay apart one page further down. -/
lemma apart_down {x y n : ℕ} (h : Apart ⟨x, n⟩ ⟨y, n⟩) (hx : n ≤ x) (hy : n ≤ y) :
    Apart ⟨x - n, n⟩ ⟨y - n, n⟩ := by
  simp only [Apart, Seg.hi] at *
  omega

/-- The page that the first pushes of a processor go to: `_mp_start` moves the address of the block,
not of its end, to `rsp`. -/
def stackPage (r : ℕ × ℕ) : Seg := ⟨r.2 - 0x1000, 0x1000⟩

lemma Consecutive.below (h : Consecutive b l e) (hl : ∀ r ∈ l, r.1 = 0x1000) :
    ∀ r ∈ l, r.2 = b ∨ ∃ x ∈ l, x.2 < r.2 ∧ stackPage r = block x := by
  induction l generalizing b with
  | nil => simp
  | cons x l ih =>
    obtain ⟨rfl, h2⟩ := h
    have hx : block x = ⟨x.2, 0x1000⟩ := block_page (hl x (by simp))
    intro r hr
    rcases List.mem_cons.mp hr with rfl | hr
    · exact Or.inl rfl
    · right
      have hx2 : (block x).hi = x.2 + 0x1000 := by simp only [hx, Seg.hi]
      rw [hx2] at h2
      rcases ih h2 (fun y hy => hl y (by simp [hy])) r hr with h3 | ⟨y, hy, h4⟩
      · have hs : stackPage r = block x := by
          rw [hx]
          exact congrArg (Seg.mk · 0x1000) (by omega)
        exact ⟨x, List.mem_cons_self, h3 ▸ Nat.lt_add_of_pos_right (by decide), hs⟩
      · exact ⟨y, by simp [hy], h4⟩

/-- **Stacks of the processors.** If every call is that of `_mp_start`, the stack of each processor
starts in a block that another one was given before, and only that of the first in what had been
taken from the heap already. No two of these pages overlap. -/
theorem stack_in_block_before (h0 : 0x1000 ≤ b) (hb : b ≤ K.miniheapEnd)
    (h : Run (miniheapLock K) SizeOk (start ι b) es c) (hs : ∀ r ∈ rets es, r.1 = 0x1000) :
    (∀ r ∈ rets es, r.2 = b ∨ ∃ x ∈ rets es, x.2 < r.2 ∧ stackPage r = block x) ∧
      Packed ((rets es).map stackPage) := by
  obtain ⟨⟨d, -, hc⟩, hp, -⟩ := miniheap_consecutive hb h
  refine ⟨hc.below hs, List.pairwise_map.mpr ((List.pairwise_map.mp hp).imp_of_mem ?_)⟩
  intro x y hx hy hxy
  have h1 := (hc.inside.2 x hx).1
  have h2 := (hc.inside.2 y hy).1
  rw [block_page (hs x hx)] at h1 hxy
  rw [block_page (hs y hy)] at h2 hxy
  exact apart_down hxy (h0.trans h1) (h0.trans h2)

/-! ### Two processors that start -/

lemma run_page (h : b + 0x1000 ≤ K.miniheapEnd) (h2 : b + 0x1000 < 2 ^ 64) :
    (miniheapAllocC K 0x1000).run b = .ok (b + 0x1000, b) := by
  rw [miniheapAllocC, read_bind_run, read_bind_run, update_bind_run, read_bind_run]
  simp only [id, roundUpPage_page, Nat.mod_eq_of_lt h2]
  rw [if_neg (by omega)]
  rfl

/-- Two processors that start one after the other. -/
lemma two_start (h1 : b + 0x2000 ≤ K.miniheapEnd) (h2 : b + 0x3000 < 2 ^ 64) :
    ∃ c es, Run (miniheapLock K) SizeOk (start (Fin 2) b) es c ∧
      rets es = [(0x1000, b), (0x1000, b + 0x1000)] := by
  have h0 : Run (miniheapLock K) SizeOk (start (Fin 2) b) [] (start (Fin 2) b) := .nil
  obtain ⟨fs, d, hrun, hrets, hl, hs, hc, -⟩ := h0.whole (i := 0) rfl rfl (Multiset.zero_le _)
    (show SizeOk 0x1000 b by unfold SizeOk; omega)
    (run_page (b := b) (by omega) (by omega))
  obtain ⟨gs, e, hrun', hrets', -⟩ := hrun.whole (i := 1) hl (by rw [hc]; rfl) (Multiset.zero_le _)
    (show SizeOk 0x1000 d.shared by unfold SizeOk; omega)
    (run_page (b := d.shared) (by omega) (by omega))
  refine ⟨e, gs, hrun', ?_⟩
  rw [hrets', hrets, hs]
  rfl

theorem miniheap_consecutive_two : ∃ c es,
    Run (miniheapLock onePageImage) SizeOk (start (Fin 2) onePageImage.miniheapStart) es c ∧
    (rets es).length = 2 ∧
    (∃ e ≤ onePageImage.miniheapEnd, Consecutive onePageImage.miniheapStart (rets es) e) ∧
      Packed ((rets es).map block) ∧ c.held = ((rets es).map block : List Seg) := by
  obtain ⟨c, es, h, hr⟩ : ∃ c es, Run (miniheapLock onePageImage) SizeOk
      (start (Fin 2) onePageImage.miniheapStart) es c ∧ _ := two_start (by decide) (by decide)
  exact ⟨c, es, h, by rw [hr]; rfl, miniheap_consecutive (by decide) h⟩

theorem stack_in_block_before_two : ∃ c : Conf (Fin 2) ℕ Stop ℕ ℕ Seg, ∃ es,
    Run (miniheapLock onePageImage) SizeOk (start (Fin 2) onePageImage.miniheapStart) es c ∧
    (rets es).length = 2 ∧
    (∀ r ∈ rets es, r.2 = onePageImage.miniheapStart ∨
      ∃ x ∈ rets es, x.2 < r.2 ∧ stackPage r = block x) ∧
      Packed ((rets es).map stackPage) := by
  obtain ⟨c, es, h, hr⟩ : ∃ c es, Run (miniheapLock onePageImage) SizeOk
      (start (Fin 2) onePageImage.miniheapStart) es c ∧ _ := two_start (by decide) (by decide)
  exact ⟨c, es, h, by rw [hr]; rfl, stack_in_block_before (by decide) (by decide) h
    (by simp [hr])⟩

end Silkware.MiniheapCpus
