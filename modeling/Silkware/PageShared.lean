import Silkware.PageLock

/-!
The page allocator shared by several processors.

The free lists thread through the free blocks only, so a call that walks them cannot tell what the
owners of blocks in use write meanwhile. Calls of several processors therefore come to the same as
calls one after the other, and what holds of those holds whatever the order of the steps.
-/

namespace Silkware.PageShared

open Silkware.Bits Silkware.ByteMem Silkware.Header Silkware.Kern Silkware.Links Silkware.Outcome
open Silkware.PageAlloc Silkware.PageAllocInv Silkware.PageLock Silkware.PageRuns Silkware.Segments
open Silkware.SpinLock Silkware.Steps Silkware.Steps.Prog

inductive Call
  | alloc (sz : ℕ)
  | free (page sz : ℕ)

/-- The byte belongs to one of the blocks. -/
def Owned (H : Multiset Live) (a : ℕ) : Prop :=
  ∃ x ∈ H, x.addr ≤ a ∧ a < x.addr + blockSize x.req

/-- The bytes at which `f` has a value are overwritten. -/
def overlay (f : ℕ → Option UInt8) (s : State) : State :=
  { s with mem := fun a => (f a).getD (s.mem a) }

/-- What the owners of blocks may do. -/
def mine (H : Multiset Live) : Set (State → State) :=
  {g | ∃ f, (∀ a, f a ≠ none → Owned H a) ∧ g = overlay f}

/-- `page_alloc` hands out a block, `page_free` takes it back. -/
def pageLock (fuel : ℕ) : Locked State Stop Call (Option ℕ) Live where
  body
    | .alloc sz => some <$> pageAllocC fuel sz
    | .free page sz => (fun _ => none) <$> pageFreeC fuel page sz
  pre
    | .alloc _ => 0
    | .free page sz => {⟨page, sz⟩}
  post
    | .alloc sz, some p => {⟨p, sz⟩}
    | _, _ => 0
  mine := mine

/-- The calls `page_alloc` and `page_free` can handle. -/
def CallOk : Call → State → Prop
  | .alloc sz, _ => 0 < sz ∧ sz ≤ 2 ^ 63
  | .free page sz, s => FreeOk ⟨s, []⟩ (.free page sz)

/-- The free lists and the blocks handed out. -/
def Shared (s : State) (H : Multiset Live) : Prop :=
  ∃ live fr, ((live : List Live) : Multiset Live) = H ∧ Inv ⟨s, live⟩ fr

/-! ### What the steps ignore -/

section Blind

variable {α : Type} {s : State} {H : Multiset Live} {b v i : ℕ} {k : ℕ → Code α}
  {k' : Unit → Code α}

/-- The header at `b` is in none of the blocks. -/
def Off (H : Multiset Live) (b : ℕ) : Prop := ∀ a, b ≤ a → a < b + 16 → ¬ Owned H a

lemma overlay_at {f : ℕ → Option UInt8} (hf : ∀ a, f a ≠ none → Owned H a) {a : ℕ}
    (ha : ¬ Owned H a) (s : State) : (overlay f s).mem a = s.mem a := by
  have : f a = none := by
    by_contra h
    exact ha (hf a h)
  simp [overlay, this]

lemma overlay_hdr {f : ℕ → Option UInt8} (hf : ∀ a, f a ≠ none → Owned H a) (hb : Off H b)
    (s : State) : SameHdr s.mem (overlay f s).mem b :=
  fun x h1 h2 => overlay_at hf (hb x h1 h2) s

/-- A write off the blocks and one into them may change places. -/
lemma overlay_wr {f : ℕ → Option UInt8} (hf : ∀ a, f a ≠ none → Owned H a) {c : ℕ}
    (hc : ∀ a, c ≤ a → a < c + 8 → ¬ Owned H a) (s : State) :
    ({ overlay f s with mem := wr (overlay f s).mem c v } : State) =
      overlay f { s with mem := wr s.mem c v } := by
  simp only [overlay, State.mk.injEq, and_true]
  funext a
  by_cases h : c ≤ a ∧ a < c + 8
  · have hn : f a = none := by
      by_contra hne
      exact hc a h.1 h.2 (hf a hne)
    rw [wr_in h.1 h.2, hn, Option.getD_none, wr_in h.1 h.2]
  · rw [wr_out (by omega), wr_out (by omega)]

lemma getSize_ign (hb : Off H b) (hk : (k (size s.mem b)).Ignores (mine H) s) :
    (getSize b >>= k).Ignores (mine H) s := by
  refine .read ?_ hk
  rintro g ⟨f, hf, rfl⟩
  exact (overlay_hdr hf hb s).size

lemma getNext_ign (hb : Off H b) (hk : (k (next s.mem b)).Ignores (mine H) s) :
    (getNext b >>= k).Ignores (mine H) s := by
  refine .read ?_ hk
  rintro g ⟨f, hf, rfl⟩
  exact (overlay_hdr hf hb s).next

lemma putSize_ign (hb : Off H b) (hk : (k' ()).Ignores (mine H) { s with mem := setSize s.mem b v }) :
    (putSize b v >>= k').Ignores (mine H) s := by
  refine .update ?_ hk
  rintro g ⟨f, hf, rfl⟩
  exact overlay_wr hf (fun a h1 h2 => hb a h1 (by omega)) s

lemma putNext_ign (hb : Off H b) (hk : (k' ()).Ignores (mine H) { s with mem := setNext s.mem b v }) :
    (putNext b v >>= k').Ignores (mine H) s := by
  refine .update ?_ hk
  rintro g ⟨f, hf, rfl⟩
  exact overlay_wr hf (fun a h1 h2 => hb a (by omega) (by omega)) s

lemma putNext_last (hb : Off H b) : (putNext b v).Ignores (mine H) s := by
  refine ⟨?_, trivial⟩
  rintro g ⟨f, hf, rfl⟩
  exact ⟨overlay_wr hf (fun a h1 h2 => hb a (by omega) (by omega)) s, rfl⟩

lemma getStart_ign (hk : (k (pool s i).start).Ignores (mine H) s) :
    (getStart i >>= k).Ignores (mine H) s := by
  refine .read ?_ hk
  rintro g ⟨f, hf, rfl⟩
  rfl

lemma getBase_ign (hk : (k (pool s i).base).Ignores (mine H) s) :
    (getBase i >>= k).Ignores (mine H) s := by
  refine .read ?_ hk
  rintro g ⟨f, hf, rfl⟩
  rfl

lemma getEnd_ign (hk : (k (pool s i).end_).Ignores (mine H) s) :
    (getEnd i >>= k).Ignores (mine H) s := by
  refine .read ?_ hk
  rintro g ⟨f, hf, rfl⟩
  rfl

lemma nPools_ign (hk : (k s.pools.length).Ignores (mine H) s) :
    (nPools >>= k).Ignores (mine H) s := by
  refine .read ?_ hk
  rintro g ⟨f, hf, rfl⟩
  rfl

lemma putStart_last : (putStart i v).Ignores (mine H) s := by
  refine ⟨?_, trivial⟩
  rintro g ⟨f, hf, rfl⟩
  exact ⟨rfl, rfl⟩

lemma buddyOf_ign {addr base : ℕ} (hb : Off H addr)
    (hk : (k (getBuddy s.mem addr base)).Ignores (mine H) s) :
    (buddyOf addr base >>= k).Ignores (mine H) s :=
  getSize_ign (k := fun n => k ((base + ((addr - base) ^^^ n)) % 2 ^ 64)) hb hk

lemma findFit_ign {sz prev fuel : ℕ} {l : List ℕ} (h : Chain (next s.mem) b l (pool s i).end_)
    (hlt : ∀ x ∈ l, x < (pool s i).end_) (hoff : ∀ x ∈ l, Off H x) :
    (findFitC i sz fuel prev b).Ignores (mine H) s := by
  induction fuel generalizing prev b l with
  | zero => trivial
  | succ fuel ih =>
    rw [findFitC]
    refine getEnd_ign ?_
    cases l with
    | nil =>
      obtain rfl : b = (pool s i).end_ := h
      rw [if_neg (lt_irrefl _)]
      trivial
    | cons c l =>
      obtain ⟨rfl, h2⟩ := h
      rw [if_pos (hlt b (by simp))]
      refine getSize_ign (hoff b (by simp)) ?_
      split
      · trivial
      · refine getNext_ign (hoff b (by simp)) ?_
        exact ih h2 (fun x hx => hlt x (by simp [hx])) fun x hx => hoff x (by simp [hx])

/-- The size after one round of `split`. -/
lemma afterHalve_size {m : Mem} {base q k : ℕ} (hk : 12 ≤ k) (hs : size m b = 2 ^ (k + 1))
    (hb : b = base + q * 2 ^ (k + 1)) (ht : b + 2 ^ (k + 1) < 2 ^ 64) :
    getBuddy (setSize m b (size m b >>> 1)) b base = b + 2 ^ k ∧
      size (afterHalve m b base) b = 2 ^ k := by
  have hp : 2 ^ (k + 1) = 2 ^ k + 2 ^ k := by ring
  have hlo : 2 ^ 12 ≤ 2 ^ k := Nat.pow_le_pow_right (by omega) hk
  have hhalf : size m b >>> 1 = 2 ^ k := by
    rw [hs, Nat.shiftRight_one]
    omega
  have hs1 : size (setSize m b (2 ^ k)) b = 2 ^ k := size_setSize (by omega)
  have hbuddy : getBuddy (setSize m b (2 ^ k)) b base = b + 2 ^ k :=
    getBuddy_half (q := q) hs1 hb (by omega)
  rw [afterHalve, hhalf]
  refine ⟨hbuddy, ?_⟩
  simp only [hbuddy]
  rw [size_setNext, size_setNext_sep (by omega), size_setSize_sep (by omega), hs1]

lemma splitLoop_ign {base q j k fuel : ℕ} (hj : 12 ≤ j) (hjk : j ≤ k) (hs : size s.mem b = 2 ^ k)
    (hb : b = base + q * 2 ^ k) (ht : b + 2 ^ k < 2 ^ 64)
    (hoff : ∀ c, b ≤ c → c + 16 ≤ b + 2 ^ k → Off H c) :
    (splitLoopC b (2 ^ j) base fuel).Ignores (mine H) s := by
  have h12 : 2 ^ 12 ≤ 2 ^ k := Nat.pow_le_pow_right (by omega) (by omega)
  have hob : Off H b := hoff b (le_refl b) (by omega)
  induction fuel generalizing k q s with
  | zero => trivial
  | succ fuel ih =>
    rw [splitLoopC]
    refine getSize_ign hob ?_
    split
    · trivial
    · rename_i hne
      obtain ⟨k, rfl⟩ : ∃ d, k = d + 1 := ⟨k - 1, by omega⟩
      have hjk' : j ≤ k := by
        by_contra h
        obtain rfl : j = k + 1 := by omega
        exact hne hs
      have hp : 2 ^ (k + 1) = 2 ^ k + 2 ^ k := by ring
      have hlo : 2 ^ 12 ≤ 2 ^ k := Nat.pow_le_pow_right (by omega) (by omega)
      obtain ⟨hbud, hsz⟩ := afterHalve_size (m := s.mem) (by omega) hs hb ht
      have hobb : Off H (b + 2 ^ k) := hoff _ (by omega) (by omega)
      refine Ignores.bind ?_ fun t u hr => ?_
      · refine getSize_ign hob (putSize_ign hob (buddyOf_ign hob (getSize_ign hob
          (getNext_ign hob ?_))))
        rw [hbud]
        exact putSize_ign hobb (putNext_ign hobb (putNext_last hob))
      · obtain ⟨rfl, -⟩ := Prod.mk.inj (Except.ok.inj ((run_halve b base s).symm.trans hr))
        exact ih (q := 2 * q) hjk' hsz (by rw [hb]; ring) (by omega)
          (fun c h1 h2 => hoff c h1 (by omega)) hlo

lemma split_ign {base q j k : ℕ} (hj : 12 ≤ j) (hjk : j ≤ k) (hs : size s.mem b = 2 ^ k)
    (hb : b = base + q * 2 ^ k) (ht : b + 2 ^ k < 2 ^ 64)
    (hoff : ∀ c, b ≤ c → c + 16 ≤ b + 2 ^ k → Off H c) :
    (splitC b (2 ^ j) base).Ignores (mine H) s := by
  have h12 : 2 ^ 12 ≤ 2 ^ k := Nat.pow_le_pow_right (by omega) (by omega)
  refine getSize_ign (hoff b (le_refl b) (by omega)) ?_
  split
  · exact splitLoop_ign hj hjk hs hb ht hoff
  · trivial

lemma unlink_ign {prev : ℕ} (hb : Off H b) (hp : prev ≠ 0 → Off H prev) :
    (unlinkC i prev b).Ignores (mine H) s := by
  refine getNext_ign hb ?_
  split
  · rename_i h
    exact putNext_last (hp h)
  · exact putStart_last

/-- The free blocks of the list, and every header that could be made in one, are off the blocks. -/
def Clear (H : Multiset Live) (m : Mem) (l : List ℕ) : Prop :=
  ∀ b ∈ l, ∀ c, b ≤ c → c + 16 ≤ b + size m b → Off H c

lemma Clear.hdr {m : Mem} {l : List ℕ} (h : Clear H m l) (hb : b ∈ l) (hs : 16 ≤ size m b) : Off H b :=
  h b hb b (le_refl b) (by omega)

lemma allocLoop_ign {fuel j : ℕ} {A ps : List Pool} {m : Mem} {fr : List (List ℕ)} (hj : 12 ≤ j)
    (h : List.Forall₂ (PoolOk m) ps fr) (hc : Clear H m fr.flatten) :
    (allocLoopC fuel (2 ^ j) ps.length A.length).Ignores (mine H) ⟨m, A ++ ps⟩ := by
  induction h generalizing A with
  | nil => trivial
  | @cons p l ps fr hpl h ih =>
    rw [List.flatten_cons] at hc
    have hcl : Clear H m l := fun b hb => hc b (List.mem_append_left _ hb)
    have hpool : pool ⟨m, A ++ p :: ps⟩ A.length = p := pool_here m
    obtain ⟨-, htop, -, hch, hbl⟩ := hpl
    have hlt : ∀ x ∈ l, x < p.end_ := fun x hx => by have := (hbl x hx).facts; omega
    have hhdr : ∀ x ∈ l, Off H x := fun x hx => hcl.hdr hx (by have := (hbl x hx).facts; omega)
    rw [List.length_cons, allocLoopC]
    refine getStart_ign ?_
    rw [hpool]
    refine Ignores.bind (findFit_ign (l := l) (by rw [hpool]; exact hch) (by rw [hpool]; exact hlt)
      hhdr) fun t r hr => ?_
    rw [run_findFit, hpool] at hr
    obtain ⟨r', hr', e⟩ := exists_of_map hr
    obtain ⟨rfl, rfl⟩ := Prod.mk.inj e
    rcases findFit_spec hch hlt hr' with rfl | ⟨l1, c, l2, rfl, hle, rfl⟩
    · have hi := ih (A := A ++ [p]) fun b hb => hc b (List.mem_append_right _ hb)
      rwa [List.length_append, List.length_singleton, List.append_assoc, List.singleton_append] at hi
    · obtain ⟨k, q, hk, hsz, hb, hend⟩ := hbl c (by simp)
      have hjk : j ≤ k := by
        rw [hsz] at hle
        exact (Nat.pow_le_pow_iff_right (by omega)).mp hle
      refine getBase_ign ?_
      rw [hpool]
      refine Ignores.bind (split_ign hj hjk hsz hb (by omega) ?_) fun t u hr => ?_
      · rw [← hsz]
        exact hcl c (by simp)
      · refine Ignores.bind (unlink_ign (hhdr c (by simp)) fun hne => ?_) fun _ _ _ => trivial
        rcases List.eq_nil_or_concat' l1 with rfl | ⟨l0, y, rfl⟩
        · exact absurd rfl hne
        · rw [show prevOf 0 (l0 ++ [y]) = y by simp [prevOf]]
          exact hhdr y (by simp)

lemma merge_ign {page : ℕ} (hp : Off H page) (hb : Off H b) :
    (mergeC i page 0 b).Ignores (mine H) s := by
  have hh : Off H (if page < b then b else page) := by
    split
    · exact hb
    · exact hp
  have hl : Off H (if page < b then page else b) := by
    split
    · exact hp
    · exact hb
  exact getSize_ign hl (getSize_ign hh (putSize_ign hl (getNext_ign hb (putNext_ign hl putStart_last))))

lemma freeWalk_ign {page fuel : ℕ} {A ps : List Pool} {p : Pool} {m : Mem} {l : List ℕ}
    (h : Chain (next m) b l p.end_) (hpage : page < p.end_) (hpo : Off H page)
    (hoff : ∀ x ∈ l, Off H x)
    (hbud : ∀ l1 l2, l ++ [p.end_] = l1 ++ getBuddy m page p.base :: l2 → (∀ x ∈ l1, x ≤ page) →
      getBuddy m page p.base ≠ p.end_) :
    (freeWalkC A.length page 0 fuel b).Ignores (mine H) ⟨m, A ++ p :: ps⟩ := by
  induction fuel generalizing b l with
  | zero => trivial
  | succ fuel ih =>
    rw [freeWalkC]
    refine getBase_ign (buddyOf_ign hpo ?_)
    rw [pool_here]
    cases l with
    | nil =>
      obtain rfl : b = p.end_ := h
      rw [if_neg fun e => hbud [] [] (by rw [← e]) (by simp) e.symm, if_pos hpage]
      exact getStart_ign (putNext_ign hpo putStart_last)
    | cons c l =>
      obtain ⟨rfl, h2⟩ := h
      have hob := hoff b (by simp)
      split
      · exact merge_ign hpo hob
      · split
        · exact getStart_ign (putNext_ign hpo putStart_last)
        · refine getEnd_ign ?_
          split
          · trivial
          · refine getNext_ign hob (ih h2 (fun x hx => hoff x (by simp [hx])) fun l1 l2 e hl => ?_)
            refine hbud (b :: l1) l2 (by simp [e]) fun x hx => ?_
            rcases List.mem_cons.mp hx with rfl | hx
            · omega
            · exact hl x hx

/-- `m₀` is the memory before the call, as in the proof that the call keeps the free lists. -/
lemma freeLoop_ign {page fuel n : ℕ} {A ps : List Pool} {m₀ m : Mem} {fr : List (List ℕ)}
    (hs : size m page = 2 ^ n) (h : List.Forall₂ (PoolOk m₀) ps fr)
    (hd : ∀ x ∈ fr.flatten, SameHdr m₀ m x) (hne : ∀ p ∈ ps, page ≠ p.end_)
    (hb : ∀ p ∈ ps, p.base ≤ page → page < p.end_ →
      Block p.base p.end_ page (2 ^ n) ∧ BuddyOk m₀ p page (2 ^ n))
    (hpo : Off H page) (hc : ∀ x ∈ fr.flatten, Off H x) :
    (freeLoopC fuel page ps.length A.length).Ignores (mine H) ⟨m, A ++ ps⟩ := by
  induction h generalizing A with
  | nil => trivial
  | @cons p l ps fr hpl h ih =>
    rw [List.flatten_cons] at hd hc
    have hdl : ∀ x ∈ l, SameHdr m₀ m x := fun x hx => hd x (List.mem_append_left _ hx)
    rw [List.length_cons, freeLoopC]
    refine getBase_ign (getEnd_ign ?_)
    rw [pool_here]
    split
    · have hi := ih (A := A ++ [p]) (fun x hx => hd x (List.mem_append_right _ hx))
        (fun q hq => hne q (by simp [hq])) (fun q hq => hb q (by simp [hq]))
        fun x hx => hc x (List.mem_append_right _ hx)
      rwa [List.length_append, List.length_singleton, List.append_assoc, List.singleton_append] at hi
    · rename_i hin
      have hlt : page < p.end_ := by
        have := hne p (by simp)
        omega
      obtain ⟨⟨k, q, hk, hsz, hq, hend⟩, hok⟩ := hb p (by simp) (by omega) hlt
      have hbud := hok.buddyIn hpl hdl
      obtain ⟨-, htop, -, hch, -⟩ := hpl.frame hdl
      have hbu : getBuddy m page p.base = buddy p.base page (2 ^ n) := by
        rw [getBuddy, hs]
        refine Nat.mod_eq_of_lt ?_
        have hkn := Nat.pow_right_injective (le_refl 2) hsz
        rcases buddy_cases (hkn ▸ hq) with ⟨e, -⟩ | ⟨e, -⟩ <;> unfold buddy at e <;> omega
      refine getStart_ign ?_
      rw [pool_here]
      refine freeWalk_ign hch hlt hpo (fun x hx => hc x (List.mem_append_left _ hx)) ?_
      rw [hbu]
      intro l1 l2 e hl
      have := (hbud l1 l2 e hl).1
      omega

end Blind

/-! ### The calls under the lock -/

/-- The blocks may be listed in any order. -/
lemma inv_reorder {s : State} {l l' : List Live} {fr : List (List ℕ)} (h : Inv ⟨s, l⟩ fr)
    (hp : l.Perm l') : Inv ⟨s, l'⟩ fr := by
  obtain ⟨h1, h2, h3, h4⟩ := h
  exact ⟨h1, h2, fun x hx => h3 x (hp.mem_iff.mpr hx), h4.perm ((hp.map Live.seg).append_left _)⟩

variable {s : State} {H : Multiset Live}

/-- Free blocks are off the blocks in use. -/
lemma clear_of_inv {live : List Live} {fr : List (List ℕ)} (h : Inv ⟨s, live⟩ fr)
    (hH : ∀ x ∈ H, x ∈ live) : Clear H s.mem fr.flatten := by
  rintro b hb c h1 h2 a h3 h4 ⟨x, hx, h5, h6⟩
  have := (h.alone (hH x hx) h5 h6).1 b hb
  simp only at this
  omega

lemma free_off {live : List Live} {fr : List (List ℕ)} {page sz : ℕ} (h : Inv ⟨s, live⟩ fr)
    (hl : ((live : List Live) : Multiset Live) = {⟨page, sz⟩} + H) : Off H page := by
  have hp : live.Perm (⟨page, sz⟩ :: H.toList) := by
    rw [← Multiset.coe_eq_coe, hl, ← Multiset.cons_coe, Multiset.coe_toList]
    rfl
  obtain ⟨h1, -, h3, h4⟩ := inv_reorder h hp
  obtain ⟨e, -, hblk⟩ := h3 ⟨page, sz⟩ (by simp)
  have hf := hblk.facts
  obtain ⟨-, hlive, -⟩ := List.pairwise_append.mp h4
  rintro a ha1 ha2 ⟨x, hx, h5, h6⟩
  have := (List.pairwise_cons.mp hlive).1 x.seg
    (List.mem_map_of_mem (Multiset.mem_toList.mpr hx))
  simp only [Apart, Seg.hi, Live.seg] at this hf
  omega

lemma mine_comp (H : Multiset Live) : ∀ f ∈ mine H, ∀ g ∈ mine H, f ∘ g ∈ mine H := by
  rintro _ ⟨f, hf, rfl⟩ _ ⟨g, hg, rfl⟩
  refine ⟨fun a => (f a).or (g a), fun a ha => ?_, ?_⟩
  · cases h : f a with
    | some v => exact hf a (by simp [h])
    | none => exact hg a (by simpa [h] using ha)
  · funext s
    simp only [Function.comp_apply, overlay, State.mk.injEq, and_true]
    funext a
    cases f a <;> rfl

lemma mine_mono (H K : Multiset Live) (h : H ≤ K) : mine H ⊆ mine K := by
  rintro _ ⟨f, hf, rfl⟩
  refine ⟨f, fun a ha => ?_, rfl⟩
  obtain ⟨x, hx, h1, h2⟩ := hf a ha
  exact ⟨x, Multiset.mem_of_le h hx, h1, h2⟩

lemma shared_write (s : State) (H : Multiset Live) : ∀ g ∈ mine H, Shared s H → Shared (g s) H := by
  rintro _ ⟨f, hf, rfl⟩ ⟨live, fr, rfl, hi⟩
  have hc : Clear (live : Multiset Live) s.mem fr.flatten := clear_of_inv hi fun x hx => hx
  have hd : ∀ y ∈ fr.flatten, SameHdr s.mem (overlay f s).mem y := fun y hy => by
    have := seg_pos hi.pools _ (List.mem_map_of_mem hy)
    exact overlay_hdr hf (hc.hdr hy this) s
  have hseg : fr.flatten.map (seg (overlay f s).mem) = fr.flatten.map (seg s.mem) :=
    List.map_congr_left fun y hy => by rw [seg, seg, (hd y hy).size]
  obtain ⟨h1, h2, h3, h4⟩ := hi
  exact ⟨live, fr, rfl, forall2_hdr h1 hd, h2, h3, by rw [hseg]; exact h4⟩

lemma shared_alloc {fuel sz p : ℕ} {t : State} (h : Shared s H) (h1 : sz ≤ 2 ^ 63)
    (hr : pageAlloc fuel s sz = .ok (t, p)) : Shared t ({⟨p, sz⟩} + H) := by
  obtain ⟨live, fr, rfl, hi⟩ := h
  obtain ⟨A, l1, l2, B, j, k, -, -, h'⟩ := alloc_inv hi (by omega) hr
  exact ⟨⟨p, sz⟩ :: live, _, rfl, h'⟩

lemma shared_free {fuel page sz : ℕ} {t : State} (h : Shared s ({⟨page, sz⟩} + H))
    (hok : FreeOk ⟨s, []⟩ (.free page sz)) (hr : pageFree fuel s page sz = .ok t) : Shared t H := by
  obtain ⟨live, fr, hl, hi⟩ := h
  have hp : live.Perm (⟨page, sz⟩ :: H.toList) := by
    rw [← Multiset.coe_eq_coe, hl, ← Multiset.cons_coe, Multiset.coe_toList]
    rfl
  obtain ⟨fr', k, -, -, -, h'⟩ := free_inv (inv_reorder hi hp) (by simp) hok hr
  rw [List.erase_cons_head] at h'
  exact ⟨H.toList, fr', Multiset.coe_toList H, h'⟩

lemma alloc_blind {fuel sz : ℕ} (h : Shared s H) (h1 : sz ≤ 2 ^ 63) :
    (pageAllocC fuel sz).Ignores (mine H) s := by
  obtain ⟨live, fr, rfl, hi⟩ := h
  obtain ⟨j, hj, -, hsz⟩ := blockSize_eq (show sz < 2 ^ 64 by omega)
  refine nPools_ign ?_
  rw [hsz]
  exact allocLoop_ign (A := []) hj hi.pools (clear_of_inv hi fun x hx => hx)

lemma free_blind {fuel page sz : ℕ} (h : Shared s ({⟨page, sz⟩} + H))
    (hok : FreeOk ⟨s, []⟩ (.free page sz)) : (pageFreeC fuel page sz).Ignores (mine H) s := by
  obtain ⟨live, fr, hl, hi⟩ := h
  have hmem : (⟨page, sz⟩ : Live) ∈ live := by
    rw [← Multiset.mem_coe, hl]
    simp
  have hpo := free_off hi hl
  have hc : Clear H s.mem fr.flatten := clear_of_inv hi fun x hx => by
    rw [← Multiset.mem_coe, hl]
    exact Multiset.mem_add.mpr (Or.inr hx)
  obtain ⟨e, he, n, q, hn, hsz, hq, hend⟩ := hi.3 _ hmem
  have hlt : blockSize sz < 2 ^ 64 := by
    have := end_lt hi.pools he
    simp only at hsz hend
    omega
  refine putSize_ign hpo (nPools_ign ?_)
  refine freeLoop_ign (A := []) (n := n) ?_ hi.pools (live_hdr hi hmem) hok.1 ?_ hpo ?_
  · rw [← hsz]
    exact size_setSize hlt
  · intro p hp h1 h2
    rw [← hsz]
    exact ⟨hi.block hmem hp h1 h2, hok.2 p hp h1 h2⟩
  · exact fun x hx => hc.hdr hx (seg_pos hi.pools _ (List.mem_map_of_mem hx))

/-- **The lock protects the lists.** -/
lemma pageLock_sound (fuel : ℕ) : Sound (pageLock fuel) CallOk Shared where
  comp := mine_comp
  mono := mine_mono
  write := shared_write
  call s H op t a h hok hr := by
    cases op with
    | alloc sz =>
      obtain ⟨r, hr', e⟩ := exists_of_map ((run_map _ _ _).symm.trans hr)
      obtain ⟨rfl, rfl⟩ := Prod.mk.inj e
      rw [run_pageAlloc] at hr'
      exact shared_alloc (by simpa [pageLock] using h) hok.2 hr'
    | free page sz =>
      obtain ⟨r, hr', e⟩ := exists_of_map ((run_map _ _ _).symm.trans hr)
      obtain ⟨rfl, rfl⟩ := Prod.mk.inj e
      rw [run_pageFree] at hr'
      obtain ⟨t, ht, e⟩ := exists_of_map hr'
      obtain rfl : r = (t, ()) := e.symm
      simpa [pageLock] using shared_free h hok ht
  blind s H op h hok := by
    cases op with
    | alloc sz => exact (alloc_blind (by simpa [pageLock] using h) hok.2).map _
    | free page sz => exact (free_blind h hok).map _

/-! ### Calls one after the other are runs of the allocator -/

/-- Some of the bytes of an overlay. -/
def part (f : ℕ → Option UInt8) (l : List ℕ) (a : ℕ) : Option UInt8 := if a ∈ l then f a else none

/-- An overlay is made of writes of single bytes. -/
lemma overlay_runs {f : ℕ → Option UInt8} {live : List Live}
    (hf : ∀ a, f a ≠ none → Owned (live : Multiset Live) a) (s : State) (l : List ℕ) :
    Runs FreeOk ⟨s, live⟩ ⟨overlay (part f l) s, live⟩ := by
  induction l with
  | nil => exact .refl
  | cons a l ih =>
    cases hv : f a with
    | none =>
      have e : part f (a :: l) = part f l := by
        funext b
        by_cases hb : b = a
        · simp [part, hb, hv]
        · simp [part, hb]
      rw [e]
      exact ih
    | some v =>
      obtain ⟨x, hx, h1, h2⟩ := hf a (by simp [hv])
      refine ih.tail ⟨.write a v, trivial, ?_⟩
      have e : overlay (part f (a :: l)) s = { overlay (part f l) s with
          mem := fun b => if b = a then v else (overlay (part f l) s).mem b } := by
        simp only [overlay, State.mk.injEq, and_true]
        funext b
        by_cases hb : b = a
        · simp [part, hb, hv]
        · simp [part, hb]
      rw [e]
      exact .write (s := ⟨overlay (part f l) s, live⟩) hx h1 h2

lemma write_runs {live : List Live} {g : State → State} (hg : g ∈ mine (live : Multiset Live))
    (s : State) : Runs FreeOk ⟨s, live⟩ ⟨g s, live⟩ := by
  obtain ⟨f, hf, rfl⟩ := hg
  have e : part f (live.flatMap fun x => List.range' x.addr (blockSize x.req)) = f := by
    funext a
    rw [part]
    split
    · rfl
    · rename_i h
      by_contra hne
      obtain ⟨x, hx, h1, h2⟩ := hf a (Ne.symm hne)
      exact h (List.mem_flatMap.mpr ⟨x, hx, List.mem_range'_1.mpr ⟨h1, h2⟩⟩)
  have h := overlay_runs hf s (live.flatMap fun x => List.range' x.addr (blockSize x.req))
  rwa [e] at h

/-- **Refinement.** Calls one after the other are a run of the allocator. -/
lemma serial_runs {fuel : ℕ} {s t : State} {K : Multiset Live} {as : List (Act State Call (Option ℕ))}
    (h : Serial (pageLock fuel) CallOk s 0 as t K) :
    ∃ live : List Live, (live : Multiset Live) = K ∧ Runs FreeOk ⟨s, []⟩ ⟨t, live⟩ := by
  induction h with
  | nil => exact ⟨[], rfl, .refl⟩
  | @call as t u K op a _ hok hr ih =>
    obtain ⟨live, hl, hruns⟩ := ih
    cases op with
    | alloc sz =>
      obtain ⟨r, hr', e⟩ := exists_of_map ((run_map _ _ _).symm.trans hr)
      obtain ⟨rfl, rfl⟩ := Prod.mk.inj e
      rw [run_pageAlloc] at hr'
      refine ⟨⟨r.2, sz⟩ :: live, ?_, hruns.tail ⟨.alloc sz, trivial, .alloc hok.1 hok.2 hr'⟩⟩
      rw [← Multiset.cons_coe, hl]
      simp [pageLock]
    | free page sz =>
      obtain ⟨r, hr', e⟩ := exists_of_map ((run_map _ _ _).symm.trans hr)
      obtain ⟨rfl, rfl⟩ := Prod.mk.inj e
      rw [run_pageFree] at hr'
      obtain ⟨t', ht, e⟩ := exists_of_map hr'
      obtain rfl : r = (t', ()) := e.symm
      have hmem : (⟨page, sz⟩ : Live) ∈ live := by
        rw [← Multiset.mem_coe, hl]
        simp [pageLock]
      refine ⟨live.erase ⟨page, sz⟩, ?_, hruns.tail ⟨.free page sz, hok, .free hmem ht⟩⟩
      rw [← Multiset.coe_erase, hl]
      simp [pageLock]
  | write _ hg ih =>
    obtain ⟨live, hl, hruns⟩ := ih
    subst hl
    exact ⟨live, rfl, hruns.trans (write_runs hg _)⟩

end Silkware.PageShared
