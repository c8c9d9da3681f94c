import Mathlib.Data.List.Induction
import Mathlib.Data.Nat.Log
import Silkware.Realloc

/-!
The growable vectors of `vec.c`.

A vector is a block of the heap: the capacity and the number of bytes in use, then the items. The
first push takes a block for eight items; a push that finds the counters equal takes a larger one.
-/

namespace Silkware.Vec

open Silkware.ByteMem Silkware.Header Silkware.Kern Silkware.MemOps Silkware.Outcome
open Silkware.Kalloc Silkware.KallocInv Silkware.KallocRuns Silkware.Realloc Silkware.Segments

/-! ### The functions -/

/-- An integer as a `double`: 53 bits of it, rounded to nearest, to even where two are near. -/
def toDouble (x : ℕ) : ℕ :=
  let ulp := 2 ^ (x.log2 - 52)
  let q := x / ulp
  let r := x % ulp
  (if 2 * r > ulp ∨ (2 * r = ulp ∧ q % 2 = 1) then q + 1 else q) * ulp

/-- `sizeof(struct vec_g)` -/
def vecSize : ℕ := 16

/-- `sizeof(struct vec_g) + 1.5 * c`, in `double`s until it is passed on. -/
def growSize (c : ℕ) : ℕ := toDouble (vecSize + toDouble (3 * toDouble c / 2))

/-- `v->c` -/
def cOf (m : Mem) (v : ℕ) : ℕ := rd m v

/-- `v->n` -/
def nOf (m : Mem) (v : ℕ) : ℕ := rd m (v + 8)

/-- `&v->item[i]` -/
def itemAt (v i : ℕ) : ℕ := (v + vecSize + i) % 2 ^ 64

/-- What a push leaves: the heap, the vector, where in `item` the copy went, the bytes asked of
`kzalloc` or `krealloc`, and what these asked of `page_alloc`. -/
structure Pushed where
  st : Kalloc.State
  v : ℕ
  off : ℕ
  asked : Option ℕ
  req : Option ℕ

/-- `memcpy(&v->item[v->n], x, itemsz); v->n += itemsz;` -/
def append (m : Mem) (v x itemsz : ℕ) : Mem :=
  let m := memcpy m (itemAt v (nOf m v)) x itemsz
  wr m (v + 8) (nOf m v + itemsz)

/-- `vec_push_fn` for the vector `v` and the item at `x`, on a CPU. -/
def vecPushFn (page : ℕ → Except Stop ℕ) (fuel : ℕ) (s : Kalloc.State) (cpu v x itemsz : ℕ) :
    Except Stop Pushed := do
  if v = 0 then
    let n := (vecSize + 8 * itemsz) % 2 ^ 64
    let (s, v, req) ← kzalloc page fuel s cpu n
    if v = 0 then throw .fault
    let m := wr s.mem v (8 * itemsz)
    return ⟨{ s with mem := memcpy m (itemAt v 0) x itemsz }, v, 0, some n, req⟩
  else if cOf s.mem v = nOf s.mem v then
    let n := growSize (cOf s.mem v)
    if 2 ^ 64 ≤ n then throw .fault
    let (s, v, req) ← krealloc page fuel s cpu v n
    if v = 0 then throw .fault
    return ⟨{ s with mem := append s.mem v x itemsz }, v, nOf s.mem v, some n, req⟩
  else
    return ⟨{ s with mem := append s.mem v x itemsz }, v, nOf s.mem v, none, none⟩

/-- `vec_pop_fn` -/
def vecPopFn (s : Kalloc.State) (v itemsz : ℕ) : Except Stop Kalloc.State :=
  if v = 0 then throw .fault
  else return { s with mem := wr s.mem (v + 8) (sub64 (nOf s.mem v) itemsz) }

/-! ### Runs -/

/-- The place of a copy: where it began in `item`, and the bytes last asked for. -/
structure Copy where
  off : ℕ
  asked : ℕ

/-- The heap, the vector, the items pushed and not popped, the bytes last asked for, and the copies
made. -/
structure Sys where
  heap : KallocRuns.Sys
  v : ℕ
  items : List (List UInt8)
  asked : ℕ
  copies : List Copy

inductive Op
  | push (x : ℕ)
  | pop

/-- The bytes at `x`. -/
def itemOf (m : Mem) (x itemsz : ℕ) : List UInt8 := (List.range itemsz).map fun i => m (x + i)

/-- The pointers in use after a push. -/
def liveAfter (live : List ℕ) (v v' : ℕ) : Option ℕ → List ℕ
  | none => live
  | some _ => v' :: live.erase v

/-- One call that returns. -/
inductive Step (itemsz : ℕ) (s : Sys) : Op → Sys → Prop
  | push {x fuel cpu : ℕ} {g : Seg} {r : Pushed}
      (hg : ∀ q, r.req = some q → Grant s.heap.regs q g)
      (h : vecPushFn (fun _ => .ok g.lo) fuel s.heap.st cpu s.v x itemsz = .ok r) :
      Step itemsz s (.push x)
        { heap := ⟨r.st, liveAfter s.heap.live s.v r.v r.asked, addReg s.heap.regs g r.req⟩
          v := r.v
          items := s.items ++ [itemOf s.heap.st.mem x itemsz]
          asked := r.asked.getD s.asked
          copies := s.copies ++ [⟨r.off, r.asked.getD s.asked⟩] }
  | pop {st : Kalloc.State} (h : vecPopFn s.heap.st s.v itemsz = .ok st) :
      Step itemsz s .pop { s with heap.st := st, items := s.items.dropLast }

/-- A sequence of calls, the states before each of them with the latest first, and the state
reached. -/
inductive Runs (itemsz : ℕ) (s₀ : Sys) : List Op → List Sys → Sys → Prop
  | nil : Runs itemsz s₀ [] [] s₀
  | snoc {ops : List Op} {op : Op} {past : List Sys} {s s' : Sys} (h : Runs itemsz s₀ ops past s)
      (hs : Step itemsz s op s') : Runs itemsz s₀ (ops ++ [op]) (s :: past) s'

/-- Before the first push: a heap in order, and no vector. -/
def start (heap : KallocRuns.Sys) : Sys := ⟨heap, 0, [], 0, []⟩

/-! ### The heap under a vector -/

/-- The block at `p` is in use and has room for `z` bytes. -/
structure Block (heap : KallocRuns.Sys) (p z : ℕ) : Prop where
  inv : Inv heap
  live : p ∈ heap.live
  size : Header.size heap.st.mem (hdr p) = z

section

variable {heap : KallocRuns.Sys} {p z : ℕ}

lemma Block.bounds (h : Block heap p z) : p = hdr p + 16 ∧ p + z < 2 ^ 64 := by
  obtain ⟨fr, own, hh⟩ := h.inv.held
  obtain ⟨e, hb⟩ := mem_live hh.heap hh.live h.live
  have := hh.heap.bounds (Or.inl hb)
  have := h.size
  omega

/-- The owner writes to its block. -/
lemma Block.write (h : Block heap p z) {m : Mem}
    (hm : ∀ x, x < p ∨ p + z ≤ x → m x = heap.st.mem x) :
    Block { heap with st.mem := m } p z := by
  obtain ⟨fr, own, hh⟩ := h.inv.held
  obtain ⟨e, hb⟩ := mem_live hh.heap hh.live h.live
  have hs : ∀ c, Here fr own c → SameHdr heap.st.mem m c :=
    hh.payload h.live fun x hx => hm x (by rwa [h.size] at hx)
  exact ⟨(hh.congr hs).inv, h.live, (hs _ (Or.inl hb)).size.trans h.size⟩

lemma new_size {heap' : KallocRuns.Sys} {op : KallocRuns.Op} {n ptr : ℕ} (h : Inv heap)
    (hs : KallocRuns.Step heap op heap') (hop : Returns op n ptr) :
    Header.size heap'.st.mem (hdr ptr) = alignUp n := by
  obtain ⟨fr, own, hh⟩ := h.held
  obtain ⟨hf, lo, req, hs⟩ := hs.stepAt
  obtain ⟨fr', own', hH, hmv⟩ := step_moves hh hs hf
  obtain ⟨cpu, hop⟩ := hop
  cases hmv with
  | @gave _ cpu' n' ptr' b st req l' hop' hg hlo hs hk =>
    obtain ⟨rfl, rfl⟩ : n' = n ∧ ptr' = ptr := by
      rcases hop with hop | hop <;> rcases hop' with hop' | hop' <;> rw [hop] at hop' <;>
        cases hop' <;> exact ⟨rfl, rfl⟩
    have hb : Here (Function.update fr cpu' l') (b :: own) b := Or.inl (by simp)
    have htop := hH.heap.bounds hb
    rw [hg.ptr, hdr_add (by omega), (hs b hb).size, hg.size]
  | put => rcases hop with hop | hop <;> cases hop
  | same hop' =>
    rcases hop with hop | hop <;> rcases hop' with hop' | hop' <;> rw [hop] at hop' <;> cases hop'

/-- A new block, which leaves the others as they are. -/
lemma Block.new {heap' : KallocRuns.Sys} {op : KallocRuns.Op} {n ptr : ℕ} (h : Inv heap)
    (hs : KallocRuns.Step heap op heap') (hop : Returns op n ptr)
    (hl : heap'.live = ptr :: heap.live) :
    Block heap' ptr (alignUp n) ∧ ptr ∉ heap.live ∧
      ∀ p z, Block heap p z → Block heap' p z ∧ ∀ i < z, heap'.st.mem (p + i) = heap.st.mem (p + i) := by
  have hok := step_alloc h hs hop
  have hnd := hok.inv.safe.live.1
  rw [hl, List.map_cons] at hnd
  have hfresh : ptr ∉ heap.live := fun hp =>
    (List.nodup_cons.mp hnd).1 (List.mem_map_of_mem hp)
  refine ⟨⟨hok.inv, by simp [hl], new_size h hs hop⟩, hfresh, fun p z hb => ?_⟩
  obtain ⟨hp, -⟩ := hb.bounds
  have hkeep := hok.keep p hb.live
  simp only [bytes, Set.mem_Ico, hdrSize, hb.size] at hkeep
  refine ⟨⟨hok.inv, by simp [hl, hb.live], ?_⟩, fun i hi => hkeep _ (by omega)⟩
  rw [← hb.size]
  exact rd_congr fun x h1 h2 => hkeep x (by omega)

/-- `krealloc` of a block that is not larger than the new one. -/
lemma Block.krealloc {fuel cpu n q : ℕ} {g : Seg} {st : Kalloc.State} {req : Option ℕ}
    (h : Block heap p z) (hz : z ≤ alignUp n) (hn : n < 2 ^ 62)
    (hg : ∀ r, req = some r → Grant heap.regs r g)
    (hk : Realloc.krealloc (fun _ => .ok g.lo) fuel heap.st cpu p n = .ok (st, q, req)) :
    Block ⟨st, q :: heap.live.erase p, addReg heap.regs g req⟩ q (alignUp n) ∧
      ∀ i < z, st.mem (q + i) = heap.st.mem (p + i) := by
  obtain ⟨hp, htop⟩ := h.bounds
  obtain ⟨⟨s₁, q', req'⟩, hkal, hk⟩ := exists_of_bind hk
  simp only [if_pos (show p ≠ 0 by omega)] at hk
  obtain ⟨s₂, hfree, hk⟩ := exists_of_bind hk
  obtain ⟨rfl, rfl, rfl⟩ : s₂ = st ∧ q' = q ∧ req' = req := by
    have := Except.ok.inj hk
    simpa using this
  obtain ⟨hnew, hfresh, hold⟩ := Block.new h.inv (.kalloc hn hg hkal) ⟨cpu, Or.inl rfl⟩ rfl
  obtain ⟨hp1, hkeep⟩ := hold p z h
  have hqp : q' ≠ p := fun e => hfresh (e ▸ h.live)
  -- the copy goes to the payload of the new block
  have hcopy : Header.size s₁.mem (sub64 p hdrSize) = z := hp1.size
  rw [hcopy] at hfree
  have h2 : Block ⟨⟨memcpy s₁.mem q' p z, s₁.start⟩, q' :: heap.live, addReg heap.regs g req'⟩ q'
      (alignUp n) := hnew.write fun x hx => memcpy_out (by omega)
  -- the old block goes back on a list
  have h3 : KallocRuns.Step ⟨⟨memcpy s₁.mem q' p z, s₁.start⟩, q' :: heap.live,
      addReg heap.regs g req'⟩ (.kfree cpu p) _ := .kfree (List.mem_cons_of_mem _ h.live) hfree
  have hlive : (q' :: heap.live).erase p = q' :: heap.live.erase p :=
    List.erase_cons_tail (by simpa using hqp)
  have hinv := step_inv h2.inv h3
  have hq := step_free h2.inv h3 q' h2.live hqp.symm
  obtain ⟨hq', -⟩ := h2.bounds
  simp only [bytes, Set.mem_Ico, hdrSize, h2.size] at hq
  rw [hlive] at hinv
  refine ⟨⟨hinv, by simp, ?_⟩, fun i hi => ?_⟩
  · rw [← h2.size]
    exact rd_congr fun x h1 h2 => hq x (by omega)
  · rw [hq _ (by omega), memcpy_in hi, hkeep i hi]

end

/-! ### One call -/

/-- No object is larger: half of a 48-bit address space. -/
def maxObject : ℕ := 2 ^ 47

lemma toDouble_eq {x : ℕ} (h : x < 2 ^ 53) : toDouble x = x := by
  have hlog : x.log2 - 52 = 0 := by
    rcases Nat.eq_zero_or_pos x with rfl | h0
    · rfl
    · have := (Nat.log2_lt (by omega)).mpr h
      omega
  simp [toDouble, hlog, Nat.mod_one]

lemma growSize_eq {itemsz : ℕ} (h : itemsz ≤ maxObject) :
    growSize (8 * itemsz) = vecSize + 12 * itemsz := by
  unfold maxObject at h
  have h3 : 3 * (8 * itemsz) / 2 = 12 * itemsz := by omega
  rw [growSize, toDouble_eq (x := 8 * itemsz) (by omega), h3, toDouble_eq (x := 12 * itemsz)
    (by omega), toDouble_eq (by unfold vecSize; omega)]

lemma push_null {page : ℕ → Except Stop ℕ} {fuel cpu x itemsz : ℕ} {s : Kalloc.State} {r : Pushed}
    (h : vecPushFn page fuel s cpu 0 x itemsz = .ok r) :
    ∃ s₁ v req, kzalloc page fuel s cpu ((vecSize + 8 * itemsz) % 2 ^ 64) = .ok (s₁, v, req) ∧
      v ≠ 0 ∧ r = ⟨{ s₁ with mem := memcpy (wr s₁.mem v (8 * itemsz)) (itemAt v 0) x itemsz }, v, 0,
        some ((vecSize + 8 * itemsz) % 2 ^ 64), req⟩ := by
  obtain ⟨⟨s₁, v, req⟩, hk, h⟩ := exists_of_bind h
  by_cases hv : v = 0
  · simp only [hv, if_true] at h
    cases h
  · simp only [if_neg hv] at h
    exact ⟨s₁, v, req, hk, hv, (Except.ok.inj h).symm⟩

lemma push_full {page : ℕ → Except Stop ℕ} {fuel cpu v x itemsz : ℕ} {s : Kalloc.State} {r : Pushed}
    (h0 : v ≠ 0) (hc : cOf s.mem v = nOf s.mem v)
    (h : vecPushFn page fuel s cpu v x itemsz = .ok r) :
    ∃ s₁ v' req, krealloc page fuel s cpu v (growSize (cOf s.mem v)) = .ok (s₁, v', req) ∧
      r = ⟨{ s₁ with mem := append s₁.mem v' x itemsz }, v', nOf s₁.mem v',
        some (growSize (cOf s.mem v)), req⟩ := by
  simp only [vecPushFn, if_neg h0, if_pos hc] at h
  by_cases hn : 2 ^ 64 ≤ growSize (cOf s.mem v)
  · simp only [if_pos hn] at h
    cases h
  · simp only [if_neg hn] at h
    obtain ⟨⟨s₁, v', req⟩, hk, h⟩ := exists_of_bind h
    by_cases hv : v' = 0
    · simp only [hv, if_true] at h
      cases h
    · simp only [if_neg hv] at h
      exact ⟨s₁, v', req, hk, (Except.ok.inj h).symm⟩

lemma push_room {page : ℕ → Except Stop ℕ} {fuel cpu v x itemsz : ℕ} {s : Kalloc.State}
    (h0 : v ≠ 0) (hc : cOf s.mem v ≠ nOf s.mem v) :
    vecPushFn page fuel s cpu v x itemsz =
      .ok ⟨{ s with mem := append s.mem v x itemsz }, v, nOf s.mem v, none, none⟩ := by
  simp only [vecPushFn, if_neg h0, if_neg hc]
  rfl

section

variable {heap : KallocRuns.Sys} {v z : ℕ}

/-- The item is copied and counted; the capacity stays. -/
lemma Block.append {x itemsz : ℕ} (h : Block heap v z)
    (hfit : vecSize + nOf heap.st.mem v + itemsz ≤ z) :
    Block { heap with st.mem := append heap.st.mem v x itemsz } v z ∧
      cOf (append heap.st.mem v x itemsz) v = cOf heap.st.mem v ∧
      nOf (append heap.st.mem v x itemsz) v = nOf heap.st.mem v + itemsz := by
  obtain ⟨-, htop⟩ := h.bounds
  unfold vecSize at hfit
  have hat : itemAt v (nOf heap.st.mem v) = v + 16 + nOf heap.st.mem v :=
    Nat.mod_eq_of_lt (by unfold vecSize; omega)
  obtain ⟨n, hn⟩ : ∃ n, nOf heap.st.mem v = n := ⟨_, rfl⟩
  rw [hn] at hfit hat ⊢
  have hcopy : ∀ y, y < v + 16 ∨ v + z ≤ y →
      memcpy heap.st.mem (itemAt v n) x itemsz y = heap.st.mem y := by
    intro y hy
    rw [hat]
    exact memcpy_out (by omega)
  have hn1 : nOf (memcpy heap.st.mem (itemAt v n) x itemsz) v = n := by
    rw [← hn]
    exact rd_congr fun y h1 h2 => by rw [hn]; exact hcopy y (by omega)
  have hrd : Vec.append heap.st.mem v x itemsz =
      wr (memcpy heap.st.mem (itemAt v n) x itemsz) (v + 8) (n + itemsz) := by
    rw [Vec.append, hn, hn1]
  rw [hrd]
  refine ⟨h.write fun y hy => ?_, ?_, ?_⟩
  · rw [wr_out (by omega)]
    exact hcopy y (by omega)
  · refine rd_congr fun y h1 h2 => ?_
    rw [wr_out (by omega)]
    exact hcopy y (by omega)
  · exact rd_wr_same (by omega)

/-- The counter is changed; the capacity stays. -/
lemma Block.count (w : ℕ) (h : Block heap v z) (hz : vecSize ≤ z) :
    Block { heap with st.mem := wr heap.st.mem (v + 8) w } v z ∧
      cOf (wr heap.st.mem (v + 8) w) v = cOf heap.st.mem v := by
  unfold vecSize at hz
  exact ⟨h.write fun y hy => wr_out (by omega), rd_congr fun y h1 h2 => wr_out (by omega)⟩

end

/-! ### The counters along a run -/

/-- What a call adds to the number of items. -/
def Op.gain : Op → ℤ
  | .push _ => 1
  | .pop => -1

/-- The number of items left: the pushes less the pops. -/
def left (ops : List Op) : ℤ := (ops.map Op.gain).sum

lemma left_snoc (ops : List Op) (op : Op) : left (ops ++ [op]) = left ops + op.gain := by
  simp [left]

/-- A vector whose block and counters are those of the first item's block. The number of bytes in
use is one item behind. -/
structure Good (itemsz : ℕ) (ops : List Op) (s : Sys) : Prop where
  block : Block s.heap s.v (alignUp s.asked)
  c : cOf s.heap.st.mem s.v = 8 * itemsz
  n : (nOf s.heap.st.mem s.v : ℤ) = (left ops - 1) * itemsz % 2 ^ 64
  room : s.asked = vecSize + 12 * itemsz ∨ (s.asked = vecSize + 8 * itemsz ∧ left ops ≤ 9)

/-- The copy ends within the bytes last asked for. -/
def Inside (itemsz : ℕ) (c : Copy) : Prop := vecSize + c.off + itemsz ≤ c.asked

lemma alignUp_le {n : ℕ} (h : n < 2 ^ 62) : n ≤ alignUp n := (alignUp_spec (by omega)).2.1

lemma zero_not_live {heap : KallocRuns.Sys} (h : Inv heap) : 0 ∉ heap.live := by
  intro h0
  have := (Block.bounds ⟨h, h0, rfl⟩).1
  omega

/-- The first push takes a block for eight items, puts the item there, and does not count it. -/
lemma first_good {itemsz : ℕ} {heap : KallocRuns.Sys} {op : Op} {s : Sys} (hsz : itemsz ≤ maxObject)
    (hi : Inv heap) (hs : Step itemsz (start heap) op s) :
    Good itemsz [op] s ∧ ∃ x, op = .push x ∧ s.items = [itemOf heap.st.mem x itemsz] ∧
      s.copies = [⟨0, vecSize + 8 * itemsz⟩] := by
  unfold maxObject at hsz
  cases hs with
  | pop h => cases h
  | @push x fuel cpu g r hg h =>
    obtain ⟨s₁, v, req, hk, h0, rfl⟩ := push_null h
    have hmod : (vecSize + 8 * itemsz) % 2 ^ 64 = vecSize + 8 * itemsz :=
      Nat.mod_eq_of_lt (by unfold vecSize; omega)
    rw [hmod] at hk
    have hn : vecSize + 8 * itemsz < 2 ^ 62 := by unfold vecSize; omega
    have hle := alignUp_le hn
    obtain ⟨hb, -, -⟩ := Block.new hi (.kzalloc hn hg hk) ⟨cpu, Or.inr rfl⟩ rfl
    obtain ⟨s₂, -, hfill⟩ := kzalloc_ok hk
    obtain ⟨-, htop⟩ := hb.bounds
    obtain ⟨m, hm⟩ : ∃ m, memcpy (wr s₁.mem v (8 * itemsz)) (itemAt v 0) x itemsz = m := ⟨_, rfl⟩
    obtain ⟨z, hz⟩ : ∃ z, alignUp (vecSize + 8 * itemsz) = z := ⟨_, rfl⟩
    rw [hz] at hb htop hle
    unfold vecSize at hle
    have hat : itemAt v 0 = v + 16 := Nat.mod_eq_of_lt (by unfold vecSize; omega)
    have hout : ∀ y, y < v + 16 ∨ v + z ≤ y → m y = wr s₁.mem v (8 * itemsz) y := by
      intro y hy
      rw [← hm, hat]
      exact memcpy_out (by omega)
    have hzero : ∀ y, v + 8 ≤ y → y < v + 8 + 8 → m y = 0 := by
      intro y h1 h2
      rw [hout y (by omega), wr_out (by omega), hfill h0]
      exact if_pos (by unfold vecSize; omega)
    have hc : cOf m v = 8 * itemsz := by
      have h1 : rd m v = rd (wr s₁.mem v (8 * itemsz)) v :=
        rd_congr fun y h1 h2 => hout y (by omega)
      exact h1.trans (rd_wr_same (by omega))
    have hn : nOf m v = 0 := by
      have h1 : rd m (v + 8) = rd (fun _ => 0) (v + 8) := rd_congr hzero
      exact h1.trans (by simp [rd])
    have hlive : liveAfter heap.live 0 v (some (vecSize + 8 * itemsz)) = v :: heap.live := by
      rw [liveAfter, List.erase_of_not_mem (zero_not_live hi)]
    simp only [start, hmod, hm, hlive, Option.getD_some, List.nil_append]
    refine ⟨⟨?_, hc, ?_, Or.inr ⟨rfl, by simp [left, Op.gain]⟩⟩, x, rfl, rfl, trivial⟩
    · simp only [hz]
      exact hb.write fun y hy => by rw [hout y (by omega), wr_out (by omega)]
    · simp [hn, left, Op.gain]

/-- The number of bytes in use, while it is small. -/
lemma Good.n_eq {itemsz k : ℕ} {ops : List Op} {s : Sys} (h : Good itemsz ops s)
    (hsz : itemsz ≤ maxObject) (hl : left ops = k + 1) (hk : k ≤ 12) :
    nOf s.heap.st.mem s.v = k * itemsz := by
  unfold maxObject at hsz
  have hle : k * itemsz ≤ 12 * itemsz := Nat.mul_le_mul_right itemsz hk
  have hn := h.n
  rw [hl, show ((k : ℤ) + 1 - 1) * itemsz = ((k * itemsz : ℕ) : ℤ) by push_cast; ring] at hn
  omega

lemma Good.ne_null {itemsz : ℕ} {ops : List Op} {s : Sys} (h : Good itemsz ops s) : s.v ≠ 0 := by
  have := h.block.bounds.1
  omega

lemma Good.asked_le {itemsz : ℕ} {ops : List Op} {s : Sys} (h : Good itemsz ops s)
    (hsz : itemsz ≤ maxObject) : vecSize + 8 * itemsz ≤ s.asked ∧
      s.asked ≤ vecSize + 12 * itemsz ∧ s.asked ≤ alignUp s.asked := by
  unfold maxObject at hsz
  have hr : s.asked = vecSize + 12 * itemsz ∨ s.asked = vecSize + 8 * itemsz :=
    h.room.imp_right And.left
  have hlt : s.asked < 2 ^ 62 := by unfold vecSize at hr; omega
  exact ⟨by omega, by omega, alignUp_le hlt⟩

lemma good_pop {itemsz : ℕ} {ops : List Op} {s s' : Sys} (h : Good itemsz ops s)
    (hsz : itemsz ≤ maxObject) (hs : Step itemsz s .pop s') :
    Good itemsz (ops ++ [.pop]) s' ∧ s'.copies = s.copies := by
  obtain ⟨ha1, -, ha2⟩ := h.asked_le hsz
  unfold maxObject at hsz
  cases hs with
  | pop hp =>
    simp only [vecPopFn, if_neg h.ne_null] at hp
    obtain rfl := Except.ok.inj hp
    obtain ⟨hb, hc⟩ := h.block.count (sub64 (nOf s.heap.st.mem s.v) itemsz) (by omega)
    refine ⟨⟨hb, hc.trans h.c, ?_, ?_⟩, rfl⟩
    · have hn := h.n
      have hlt := rd_lt s.heap.st.mem (s.v + 8)
      have hw : nOf (wr s.heap.st.mem (s.v + 8) (sub64 (nOf s.heap.st.mem s.v) itemsz)) s.v =
          sub64 (nOf s.heap.st.mem s.v) itemsz := rd_wr_same (Nat.mod_lt _ (by norm_num))
      change ((nOf (wr s.heap.st.mem (s.v + 8) _) s.v : ℕ) : ℤ) = _
      rw [hw, left_snoc, Op.gain,
        show (left ops + -1 - 1) * (itemsz : ℤ) = (left ops - 1) * itemsz - itemsz by ring]
      unfold sub64
      omega
    · rw [left_snoc, Op.gain]
      exact h.room.imp_right fun hr => ⟨hr.1, by omega⟩

/-- A moved vector has its counters. -/
lemma counters_moved {m m' : Mem} {v q n : ℕ} (h : ∀ i < n, m' (q + i) = m (v + i))
    (hn : vecSize ≤ n) : cOf m' q = cOf m v ∧ nOf m' q = nOf m v := by
  unfold vecSize at hn
  refine ⟨rd_move fun i hi => h i (by omega), rd_move fun i hi => ?_⟩
  rw [Nat.add_assoc, Nat.add_assoc]
  exact h (8 + i) (by omega)

/-- The bytes in use after a push with `k + 1` items left. -/
lemma push_gain {itemsz k : ℕ} {ops : List Op} (x : ℕ) (hsz : itemsz ≤ maxObject)
    (hk : left ops = k + 1) (hk12 : k < 12) :
    (left (ops ++ [.push x]) - 1) * (itemsz : ℤ) % 2 ^ 64 = ((k * itemsz + itemsz : ℕ) : ℤ) := by
  have hle : k * itemsz ≤ 12 * itemsz := Nat.mul_le_mul_right itemsz hk12.le
  have e : (left (ops ++ [.push x]) - 1) * (itemsz : ℤ) = ((k * itemsz + itemsz : ℕ) : ℤ) := by
    rw [left_snoc, hk, Op.gain]
    push_cast
    ring
  unfold maxObject at hsz
  rw [e]
  omega

/-- While the counters differ there is room for an item. -/
lemma Good.fits {itemsz k : ℕ} {ops : List Op} {s : Sys} (h : Good itemsz ops s)
    (hsz : itemsz ≤ maxObject) (hk : left ops = k + 1) (hk12 : k < 12)
    (hne : cOf s.heap.st.mem s.v ≠ nOf s.heap.st.mem s.v) :
    vecSize + nOf s.heap.st.mem s.v + itemsz ≤ s.asked := by
  have hn := h.n_eq hsz hk hk12.le
  have hk8 : k ≠ 8 := by
    rintro rfl
    exact hne (h.c.trans hn.symm)
  rw [hn, Nat.add_assoc, ← Nat.succ_mul]
  rcases h.room with hr | ⟨hr, h9⟩
  · have : (k + 1) * itemsz ≤ 12 * itemsz := Nat.mul_le_mul_right itemsz hk12
    rw [hr]
    exact Nat.add_le_add_left this _
  · have : (k + 1) * itemsz ≤ 8 * itemsz := Nat.mul_le_mul_right itemsz (by omega)
    rw [hr]
    exact Nat.add_le_add_left this _

/-- A push with one to twelve items left. -/
lemma good_push {itemsz x : ℕ} {ops : List Op} {s s' : Sys} (h : Good itemsz ops s)
    (hsz : itemsz ≤ maxObject) (h1 : 1 ≤ left ops) (h2 : left ops ≤ 12)
    (hs : Step itemsz s (.push x) s') :
    Good itemsz (ops ++ [.push x]) s' ∧ ∃ c, s'.copies = s.copies ++ [c] ∧ Inside itemsz c := by
  obtain ⟨k, hk⟩ : ∃ k : ℕ, left ops = k + 1 := ⟨(left ops - 1).toNat, by omega⟩
  have hk12 : k < 12 := by omega
  have hn := h.n_eq hsz hk hk12.le
  obtain ⟨ha1, ha2, ha3⟩ := h.asked_le hsz
  have hgain := push_gain x hsz hk hk12
  cases hs with
  | @push _ fuel cpu g r hg hp =>
    by_cases hfull : cOf s.heap.st.mem s.v = nOf s.heap.st.mem s.v
    · -- the counters are equal, and a block for twelve items is taken
      obtain ⟨s₁, q, req, hk', rfl⟩ := push_full h.ne_null hfull hp
      rw [h.c, growSize_eq hsz] at hk' hg ⊢
      unfold maxObject at hsz
      have hlt : vecSize + 12 * itemsz < 2 ^ 62 := by unfold vecSize; omega
      have hmono : alignUp s.asked ≤ alignUp (vecSize + 12 * itemsz) := by
        unfold alignUp
        omega
      have hle := alignUp_le hlt
      obtain ⟨hb, hmove⟩ := h.block.krealloc hmono hlt hg hk'
      obtain ⟨hc1, hn1⟩ := counters_moved hmove (by omega)
      have hroom : vecSize + nOf s₁.mem q + itemsz ≤ vecSize + 12 * itemsz := by
        rw [hn1, hn, Nat.add_assoc, ← Nat.succ_mul]
        exact Nat.add_le_add_left (Nat.mul_le_mul_right itemsz hk12) _
      obtain ⟨hb', hc', hn'⟩ := hb.append (x := x) (hroom.trans hle)
      refine ⟨⟨hb', hc'.trans (hc1.trans h.c), ?_, Or.inl rfl⟩, _, rfl, hroom⟩
      rw [hgain, ← hn, ← hn1, ← hn']
    · rw [push_room h.ne_null hfull] at hp
      obtain rfl := Except.ok.inj hp
      have hroom := h.fits hsz hk hk12 hfull
      obtain ⟨hb, hc, hn'⟩ := h.block.append (x := x) (hroom.trans ha3)
      refine ⟨⟨hb, hc.trans h.c, ?_, ?_⟩, _, rfl, hroom⟩
      · rw [hgain, ← hn, ← hn']
      · -- with nine items left the counters are equal
        have hk8 : k ≠ 8 := by
          rintro rfl
          exact hfull (h.c.trans hn.symm)
        rw [left_snoc, Op.gain]
        exact h.room.imp_right fun hr => ⟨hr.1, by omega⟩

/-! ### Whole runs -/

/-- `P` holds of every call, given the calls before it. -/
def EachCall (P : List Op → Op → Prop) (ops : List Op) : Prop :=
  ∀ pre op post, ops = pre ++ op :: post → P pre op

lemma eachCall_snoc {P : List Op → Op → Prop} {ops : List Op} {op : Op} :
    EachCall P (ops ++ [op]) ↔ EachCall P ops ∧ P ops op := by
  constructor
  · intro h
    refine ⟨fun pre o post e => h pre o (post ++ [op]) (by simp [e]), h ops op [] rfl⟩
  · rintro ⟨h1, h2⟩ pre o post e
    rcases List.eq_nil_or_concat post with rfl | ⟨post', l, rfl⟩
    · obtain ⟨rfl, hop⟩ := List.append_inj' e rfl
      obtain ⟨rfl, -⟩ := List.cons.inj hop
      exact h2
    · rw [List.concat_eq_append, ← List.cons_append, ← List.append_assoc] at e
      exact h1 pre o post' (List.append_inj' e rfl).1

/-- Every push but the first is made with one to twelve items left. -/
def Moderate (ops : List Op) : Prop :=
  EachCall (fun pre op => ∀ x, op = .push x → pre ≠ [] → 1 ≤ left pre ∧ left pre ≤ 12) ops

/-- Every pop is made with an item left. -/
def PopsItems (ops : List Op) : Prop :=
  EachCall (fun pre op => op = .pop → 1 ≤ left pre) ops

section

variable {itemsz : ℕ} {s₀ s : Sys} {ops : List Op} {past : List Sys}

lemma Runs.eq_start (h : Runs itemsz s₀ ops past s) (h0 : ops = []) : s = s₀ := by
  cases h with
  | nil => rfl
  | snoc => simp at h0

/-- The state after the first call. -/
lemma Runs.first (h : Runs itemsz s₀ ops past s) (h0 : ops ≠ []) :
    ∃ op t, Step itemsz s₀ op t ∧ t ∈ s :: past := by
  induction h with
  | nil => exact absurd rfl h0
  | @snoc ops op past s s' h hs ih =>
    by_cases hne : ops = []
    · obtain rfl := h.eq_start hne
      exact ⟨op, s', hs, by simp⟩
    · obtain ⟨op', t, ht, hmem⟩ := ih hne
      exact ⟨op', t, ht, List.mem_cons_of_mem s' hmem⟩

end

/-- The counters and the copies of a run, by induction on the calls. -/
lemma run_good {itemsz : ℕ} {heap : KallocRuns.Sys} {ops : List Op} {past : List Sys} {s : Sys}
    (hsz : itemsz ≤ maxObject) (hi : Inv heap) (hr : Runs itemsz (start heap) ops past s)
    (hm : Moderate ops) : (ops ≠ [] → Good itemsz ops s) ∧ ∀ c ∈ s.copies, Inside itemsz c := by
  induction hr with
  | nil => exact ⟨fun h => absurd rfl h, fun c hc => absurd hc List.not_mem_nil⟩
  | @snoc ops op past s s' hr hs ih =>
    obtain ⟨hm, hop⟩ := eachCall_snoc.mp hm
    obtain ⟨hgood, hin⟩ := ih hm
    by_cases hne : ops = []
    · obtain rfl := hr.eq_start hne
      obtain ⟨hg, x, rfl, -, hc⟩ := first_good hsz hi hs
      subst hne
      refine ⟨fun _ => hg, fun c hcm => ?_⟩
      rw [hc, List.mem_singleton] at hcm
      subst hcm
      simp only [Inside]
      omega
    · cases op with
      | pop =>
        obtain ⟨hg, hc⟩ := good_pop (hgood hne) hsz hs
        exact ⟨fun _ => hg, hc ▸ hin⟩
      | push x =>
        obtain ⟨h1, h2⟩ := hop x rfl hne
        obtain ⟨hg, c, hc, hcin⟩ := good_push (hgood hne) hsz h1 h2 hs
        refine ⟨fun _ => hg, fun d hd => ?_⟩
        rw [hc, List.mem_append, List.mem_singleton] at hd
        rcases hd with hd | rfl
        · exact hin d hd
        · exact hcin

/-- **One item behind.** While every push but the first is made with one to twelve items left, the
bytes in use are those of all items but one. -/
theorem run_one_behind {itemsz : ℕ} {heap : KallocRuns.Sys} {ops : List Op} {past : List Sys}
    {s : Sys} (hsz : itemsz ≤ maxObject) (hi : Inv heap) (hr : Runs itemsz (start heap) ops past s)
    (hm : Moderate ops) (h1 : 1 ≤ left ops) (h2 : left ops ≤ 13) :
    (nOf s.heap.st.mem s.v : ℤ) = (left ops - 1) * itemsz := by
  have hne : ops ≠ [] := by
    rintro rfl
    exact absurd h1 (by decide)
  obtain ⟨k, hk⟩ : ∃ k : ℕ, left ops = k + 1 := ⟨(left ops - 1).toNat, by omega⟩
  rw [((run_good hsz hi hr hm).1 hne).n_eq hsz hk (by omega), hk]
  push_cast
  ring

/-! ### A vector as a list -/

/-- `item[0 .. n)`, and nothing for the `NULL` vector. -/
def contents (s : Sys) : List UInt8 :=
  if s.v = 0 then []
  else (List.range (nOf s.heap.st.mem s.v)).map fun i => s.heap.st.mem (itemAt s.v i)

/-- The vector holds the items pushed and not popped. -/
structure Refines (s : Sys) : Prop where
  bytes : contents s = s.items.flatten
  count : s.v ≠ 0 → nOf s.heap.st.mem s.v = s.items.flatten.length

/-- The first item is not counted. -/
lemma not_refines_first {itemsz : ℕ} {heap : KallocRuns.Sys} {op : Op} {s : Sys} (h1 : 1 ≤ itemsz)
    (hsz : itemsz ≤ maxObject) (hi : Inv heap) (hs : Step itemsz (start heap) op s) :
    ¬ Refines s := by
  obtain ⟨hg, x, rfl, hitems, -⟩ := first_good hsz hi hs
  intro h
  have hn : nOf s.heap.st.mem s.v = 0 * itemsz := hg.n_eq hsz rfl (by omega)
  have hcount := h.count hg.ne_null
  rw [hn, hitems] at hcount
  simp [itemOf] at hcount
  omega

/-- **A vector is the list of its items** in every state of a run just when nothing is pushed. -/
theorem run_refines_iff {itemsz : ℕ} {heap : KallocRuns.Sys} {ops : List Op} {past : List Sys}
    {s : Sys} (h1 : 1 ≤ itemsz) (hsz : itemsz ≤ maxObject) (hi : Inv heap)
    (hr : Runs itemsz (start heap) ops past s) :
    (∀ t ∈ s :: past, Refines t) ↔ ops = [] := by
  constructor
  · intro h
    by_contra hne
    obtain ⟨op, t, ht, hmem⟩ := hr.first hne
    exact not_refines_first h1 hsz hi ht (h t hmem)
  · rintro rfl
    obtain ⟨rfl, rfl⟩ : s = start heap ∧ past = [] := by
      generalize hops : ([] : List Op) = ops at hr
      cases hr with
      | nil => exact ⟨rfl, rfl⟩
      | snoc => simp at hops
    intro t ht
    obtain rfl := List.mem_singleton.mp ht
    exact ⟨rfl, fun h0 => absurd rfl h0⟩

/-! ### Where the copies go -/

lemma left_nonneg {ops : List Op} (h : PopsItems ops) : 0 ≤ left ops := by
  induction ops using List.reverseRecOn with
  | nil => exact le_rfl
  | append_singleton ops op ih =>
    obtain ⟨h, hop⟩ := eachCall_snoc.mp h
    have := ih h
    rw [left_snoc]
    cases op with
    | push x =>
      rw [Op.gain]
      omega
    | pop =>
      have := hop rfl
      rw [Op.gain]
      omega

lemma left_le {ops : List Op} (h : Moderate ops) : left ops ≤ 13 := by
  induction ops using List.reverseRecOn with
  | nil => decide
  | append_singleton ops op ih =>
    obtain ⟨h, hop⟩ := eachCall_snoc.mp h
    have := ih h
    rw [left_snoc]
    cases op with
    | pop =>
      rw [Op.gain]
      omega
    | push x =>
      rw [Op.gain]
      by_cases hne : ops = []
      · subst hne
        decide
      · have := (hop x rfl hne).2
        omega

lemma Step.copies_subset {itemsz : ℕ} {s s' : Sys} {op : Op} (h : Step itemsz s op s') :
    s.copies ⊆ s'.copies := by
  cases h with
  | push => exact List.subset_append_left _ _
  | pop => exact List.Subset.refl _

/-- A push with no item left, or with thirteen. -/
lemma push_outside {itemsz x : ℕ} {ops : List Op} {s s' : Sys} (h : Good itemsz ops s)
    (h1 : 1 ≤ itemsz) (hsz : itemsz ≤ maxObject) (hl : left ops = 0 ∨ left ops = 13)
    (hs : Step itemsz s (.push x) s') : ∃ c ∈ s'.copies, ¬ Inside itemsz c := by
  obtain ⟨-, ha, -⟩ := h.asked_le hsz
  have hn : nOf s.heap.st.mem s.v = 2 ^ 64 - itemsz ∨ nOf s.heap.st.mem s.v = 12 * itemsz := by
    rcases hl with hl | hl
    · have hn := h.n
      rw [hl] at hn
      unfold maxObject at hsz
      omega
    · exact Or.inr (h.n_eq hsz hl (by omega))
  unfold maxObject at hsz
  have hroom : cOf s.heap.st.mem s.v ≠ nOf s.heap.st.mem s.v := by
    rw [h.c]
    omega
  cases hs with
  | push hg hp =>
    rw [push_room h.ne_null hroom] at hp
    obtain rfl := Except.ok.inj hp
    refine ⟨_, List.mem_append_right _ (List.mem_singleton.mpr rfl), ?_⟩
    simp only [Inside, Option.getD_none]
    unfold vecSize at *
    omega

/-- **The copies of a run** end within the bytes last asked for if every push but the first is made
with one to twelve items left; and only then, where no pop is made without an item. -/
theorem run_inside_iff {itemsz : ℕ} {heap : KallocRuns.Sys} {ops : List Op} {past : List Sys}
    {s : Sys} (h1 : 1 ≤ itemsz) (hsz : itemsz ≤ maxObject) (hi : Inv heap)
    (hr : Runs itemsz (start heap) ops past s) :
    (Moderate ops → ∀ c ∈ s.copies, Inside itemsz c) ∧
      (PopsItems ops → (∀ c ∈ s.copies, Inside itemsz c) → Moderate ops) := by
  refine ⟨fun hm => (run_good hsz hi hr hm).2, fun hp hin => ?_⟩
  induction hr with
  | nil =>
    rintro pre op post e
    simp at e
  | @snoc ops op past s s' hr hs ih =>
    have hpre : PopsItems ops := (eachCall_snoc.mp hp).1
    have hm := ih hpre fun c hc => hin c (hs.copies_subset hc)
    refine eachCall_snoc.mpr ⟨hm, ?_⟩
    rintro x rfl hne
    by_contra hbad
    have h0 := left_nonneg hpre
    have h13 := left_le hm
    obtain ⟨c, hc, hout⟩ := push_outside ((run_good hsz hi hr hm).1 hne) h1 hsz (by omega) hs
    exact hout (hin c hc)

/-! ### Concrete runs -/

/-- The first push on a heap that has no region yet. -/
lemma exists_first (x : ℕ) (m : Mem) : ∃ s, Step 64 (start (KallocRuns.init m)) (.push x) s := by
  have hreq : (alignUp ((vecSize + 8 * 64) % 2 ^ 64) + 32) % 2 ^ 64 = 560 := by decide
  obtain ⟨st, hk⟩ := AllocSizes.kalloc_first (s := (KallocRuns.init m).st)
    (fun _ => .ok 0x100000) 0 rfl hreq (Eq.refl (Except.ok 0x100000)) 0
  have hz : kzalloc (fun _ => .ok 0x100000) 1 (KallocRuns.init m).st 0
      ((vecSize + 8 * 64) % 2 ^ 64) =
      .ok ({ st with mem := fill st.mem 0x100010 528 0 }, 0x100010, some 560) := by
    rw [kzalloc, hk]
    rfl
  have hp : ∃ r, vecPushFn (fun _ => .ok 0x100000) 1 (KallocRuns.init m).st 0 0 x 64 = .ok r ∧
      r.req = some 560 := by
    simp only [vecPushFn, if_true, hz]
    exact ⟨_, rfl, rfl⟩
  obtain ⟨r, hr, hreq⟩ := hp
  refine ⟨_, .push (g := ⟨0x100000, 0x1000⟩) (fun q hq => ?_) hr⟩
  obtain rfl := Option.some_inj.mp (hreq.symm.trans hq)
  exact ⟨by decide, by decide, nofun, by decide, by decide⟩

lemma exists_pop {itemsz : ℕ} {ops : List Op} {s : Sys} (h : Good itemsz ops s) :
    ∃ s', Step itemsz s .pop s' :=
  ⟨_, .pop (if_neg h.ne_null)⟩

lemma exists_push {itemsz : ℕ} {ops : List Op} {s : Sys} (h : Good itemsz ops s) (x : ℕ)
    (hn : cOf s.heap.st.mem s.v ≠ nOf s.heap.st.mem s.v) : ∃ s', Step itemsz s (.push x) s' :=
  ⟨_, @Step.push itemsz s x 0 0 ⟨0, 0⟩ _ (fun q hq => by cases hq) (push_room h.ne_null hn)⟩

/-- One item of 64 bytes. -/
theorem run_refines_iff_one : ∃ past s, Runs 64 (start (KallocRuns.init fun _ => 0)) [.push 0] past s ∧
    ((∀ t ∈ s :: past, Refines t) ↔ [Op.push 0] = []) := by
  obtain ⟨s, hs⟩ := exists_first 0 fun _ => 0
  have hr : Runs 64 _ ([] ++ [.push 0]) _ s := .snoc .nil hs
  exact ⟨_, s, hr, run_refines_iff (by decide) (by decide) (Inv.init _) hr⟩

/-- After one push the vector has no bytes. -/
theorem run_not_refines : ¬ ∀ itemsz heap ops past s, 1 ≤ itemsz → itemsz ≤ maxObject →
    KallocRuns.Inv heap →
    PopsItems ops → Runs itemsz (start heap) ops past s → Refines s := by
  intro h
  obtain ⟨s, hs⟩ := exists_first 0 fun _ => 0
  have hp : PopsItems ([] ++ [.push 0]) :=
    eachCall_snoc.mpr ⟨fun pre op post e => by simp at e, nofun⟩
  exact not_refines_first (by decide) (by decide) (Inv.init _) hs
    (h 64 _ _ _ s (by decide) (by decide) (Inv.init _) hp (.snoc .nil hs))

theorem run_inside_iff_one : ∃ past s, Runs 64 (start (KallocRuns.init fun _ => 0)) [.push 0] past s ∧
    (Moderate [.push 0] → ∀ c ∈ s.copies, Inside 64 c) ∧
      (PopsItems [.push 0] → (∀ c ∈ s.copies, Inside 64 c) → Moderate [.push 0]) := by
  obtain ⟨s, hs⟩ := exists_first 0 fun _ => 0
  have hr : Runs 64 _ ([] ++ [.push 0]) _ s := .snoc .nil hs
  exact ⟨_, s, hr, run_inside_iff (by decide) (by decide) (Inv.init _) hr⟩

/-- A push, a pop and a push: the last item goes 64 bytes below `item`. -/
theorem run_not_inside : ¬ ∀ itemsz heap ops past s, 1 ≤ itemsz → itemsz ≤ maxObject →
    KallocRuns.Inv heap →
    Runs itemsz (start heap) ops past s → ∀ c ∈ s.copies, Inside itemsz c := by
  intro h
  obtain ⟨s₁, h1⟩ := exists_first 0 fun _ => 0
  obtain ⟨hg1, -⟩ := first_good (by decide) (Inv.init _) h1
  obtain ⟨s₂, h2⟩ := exists_pop hg1
  obtain ⟨hg2, -⟩ := good_pop hg1 (by decide) h2
  have hn : (nOf s₂.heap.st.mem s₂.v : ℤ) = (0 - 1) * 64 % 2 ^ 64 := hg2.n
  obtain ⟨s₃, h3⟩ := exists_push hg2 0 (by rw [hg2.c]; omega)
  obtain ⟨c, hc, hout⟩ := push_outside hg2 (by decide) (by decide) (Or.inl rfl) h3
  exact hout (h 64 _ _ _ s₃ (by decide) (by decide) (Inv.init _)
    (.snoc (.snoc (.snoc .nil h1) h2) h3) c hc)

end Silkware.Vec
