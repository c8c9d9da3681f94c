import Silkware.KallocRuns

/-!
The order of the free lists.

`insert_block` walks on while the next block lies above the new one, and so past the place that a
list in the order of addresses has for it. The lists stay in order, and without neighbours, as long
as blocks are put on an empty list or behind the only block of a list.
-/

namespace Silkware.HeapOrder

open Silkware.ByteMem Silkware.Header Silkware.Links Silkware.Kalloc Silkware.KallocInv
open Silkware.KallocRuns Silkware.Outcome Silkware.Segments

/-- Each free list has its lowest address first, and no block on it ends where another one starts. -/
def Tidy (s : Sys) : Prop :=
  ∀ cpu, ∃ l, Chain (next s.st.mem) (s.st.start cpu) l 0 ∧ 0 ∉ l ∧ l.Pairwise (· < ·) ∧
    ∀ a ∈ l, ∀ b ∈ l, dataAt a (size s.st.mem a) ≠ b

/-- The list of the CPU is empty, or has one block and `new` lies above it. -/
def Last (s : State) (cpu new : ℕ) : Prop := ∀ b, OnList s cpu b → b = s.start cpu ∧ b < new

/-- The block that a step puts on a list, if it does, goes to the end of a list of one block at most.
`lo` is where a region from `page_alloc` would start. -/
def Orderly (s : Sys) (lo : ℕ) : Op → Prop
  | .kalloc cpu n _ | .kzalloc cpu n _ =>
    Room s.st cpu n ∨ Last s.st cpu (lo + hdrSize + alignUp n)
  | .kfree cpu ptr => Last s.st cpu (hdr ptr)
  | .write | .other => True

def OrderlyRuns : Sys → Sys → Prop := Relation.ReflTransGen fun s s' =>
  ∃ lo op req, StepAt s lo op req s' ∧ Fits op ∧ Orderly s lo op

/-! ### Lists -/

/-- The list `l` of blocks with payloads `z` is in order and has no neighbours. -/
structure Neat (z : ℕ → ℕ) (l : List ℕ) : Prop where
  asc : l.Pairwise (· < ·)
  gap : ∀ a ∈ l, ∀ b ∈ l, a + 16 + z a ≠ b

/-- Where a new block belongs at the end of a list of one block at most. -/
def Alone (l : List ℕ) (new : ℕ) : Prop := l = [] ∨ ∃ a, l = [a] ∧ a < new

variable {z z' : ℕ → ℕ} {l l1 l2 : List ℕ} {new : ℕ}

lemma Neat.congr (h : Neat z l) (hz : ∀ b ∈ l, z' b = z b) : Neat z' l :=
  ⟨h.asc, fun a ha b hb => by rw [hz a ha]; exact h.gap a ha b hb⟩

lemma neat_single (z : ℕ → ℕ) (a : ℕ) : Neat z [a] := by
  refine ⟨List.pairwise_singleton _ _, fun b hb c hc => ?_⟩
  rw [List.mem_singleton.mp hb, List.mem_singleton.mp hc]
  omega

/-- At its place, a new block is in order only at the end of a list of one block at most. -/
lemma place_alone (h : Place l1 l2 new) (hs : (l1 ++ new :: l2).Pairwise (· < ·)) :
    Alone (l1 ++ l2) new := by
  obtain ⟨-, hs2, hs3⟩ := List.pairwise_append.mp hs
  have h2 : l2 = [] := by
    cases l2 with
    | nil => rfl
    | cons c l2 =>
      have hle := h.stop c rfl
      have hlt := (List.pairwise_cons.mp hs2).1 c (by simp)
      omega
  cases l1 with
  | nil => exact Or.inl h2
  | cons a l1 =>
    have hlt : a < new := hs3 a (by simp) new (by simp)
    cases l1 with
    | nil => exact Or.inr ⟨a, by rw [h2]; rfl, hlt⟩
    | cons c l1 =>
      have h3 := h.past c (by simp)
      have h4 := hs3 c (by simp) new (by simp)
      omega

lemma neat_link (h : Place l1 l2 new) (hend : ∀ p ∈ l1.getLast?, p + 16 + z p ≠ new) :
    Neat z (l1 ++ new :: l2) ↔ Alone (l1 ++ l2) new := by
  refine ⟨fun hn => place_alone h hn.asc, ?_⟩
  rintro (hl | ⟨a, hl, hlt⟩)
  · obtain ⟨rfl, rfl⟩ := List.append_eq_nil_iff.mp hl
    exact neat_single z new
  · obtain ⟨rfl, rfl⟩ : l1 = [a] ∧ l2 = [] := by
      rcases List.append_eq_singleton_iff.mp hl with ⟨h1, h2⟩ | h1
      · rw [h.head h1] at h2
        cases h2
      · exact h1
    have he := hend a rfl
    refine ⟨by simpa using hlt, fun b hb c hc => ?_⟩
    simp only [List.cons_append, List.nil_append, List.mem_cons, List.not_mem_nil, or_false] at hb hc
    rcases hb with rfl | rfl <;> rcases hc with rfl | rfl <;> omega

/-- In a list in order, only a single block can grow by the new one. -/
lemma neat_merge {m : Mem} {p : ℕ} (hn : Neat (size m) l) (hf : Fresh m l new)
    (hl : l = l1 ++ p :: l2) (hpl : Place (l1 ++ [p]) l2 new) (he : p + 16 + size m p = new) :
    l = [p] := by
  subst hl
  have h1 : l1 = [] := by
    cases l1 with
    | nil => rfl
    | cons d l1 =>
      have := hpl.past p (by simp)
      omega
  subst h1
  cases l2 with
  | nil => rfl
  | cons c l2 =>
    have hle := hpl.stop c rfl
    have hlt : p < c := (List.pairwise_cons.mp hn.asc).1 c (by simp)
    have hap := hf.apart p (by simp) c (by simp) (by omega)
    simp only [Apart, Seg.hi, blk] at hap
    have hne : new ≠ c := by
      rintro rfl
      exact (List.nodup_cons.mp hf.nodup).1 (by simp)
    omega

/-- The rest of a block takes its place in the list, and ends where it did. -/
lemma neat_cut {b sz : ℕ} (hn : Neat z (l1 ++ b :: l2))
    (hap : ∀ c ∈ l1 ++ l2, c + 16 + z c ≤ b ∨ b + 16 + z b ≤ c) (hsz : sz + 16 ≤ z b)
    (hns : z' (b + 16 + sz) = z b - (sz + 16)) (ho : ∀ c ∈ l1 ++ l2, z' c = z c)
    (hend : ∀ c ∈ l1 ++ l2, c + 16 + z c ≠ b + 16 + sz) : Neat z' (l1 ++ (b + 16 + sz) :: l2) := by
  have hsub : ∀ {c}, c ∈ l1 ++ l2 → c ∈ l1 ++ b :: l2 := fun hc => by
    rcases List.mem_append.mp hc with hc | hc <;> simp [hc]
  have hcases : ∀ {c}, c ∈ l1 ++ (b + 16 + sz) :: l2 → c = b + 16 + sz ∨ c ∈ l1 ++ l2 := fun hc => by
    simp only [List.mem_append, List.mem_cons] at hc ⊢
    tauto
  refine ⟨?_, fun a ha c hc => ?_⟩
  · obtain ⟨h1, h2, h3⟩ := List.pairwise_append.mp hn.asc
    obtain ⟨h4, h5⟩ := List.pairwise_cons.mp h2
    refine List.pairwise_append.mpr ⟨h1, List.pairwise_cons.mpr ⟨fun c hc => ?_, h5⟩, fun a ha c hc => ?_⟩
    · have h6 := h4 c hc
      have h7 := hap c (by simp [hc])
      omega
    · have h6 := h3 a ha b (by simp)
      rcases List.mem_cons.mp hc with rfl | hc
      · omega
      · exact h3 a ha c (by simp [hc])
  · rcases hcases ha with rfl | ha <;> rcases hcases hc with rfl | hc
    · omega
    · have h6 := hn.gap b (by simp) c (hsub hc)
      omega
    · rw [ho a ha]
      exact hend a ha
    · rw [ho a ha]
      exact hn.gap a (hsub ha) c (hsub hc)

/-! ### Steps -/

section

variable {s s' : Sys} {fr fr' : ℕ → List ℕ} {own own' : List ℕ} {cpu lo : ℕ} {op : Op}

lemma zero_not_mem (h : Held s fr own) (cpu : ℕ) : 0 ∉ fr cpu :=
  fun hm => Nat.lt_irrefl 0 (h.heap.bounds (Or.inr ⟨cpu, hm⟩)).1

lemma tidy_iff (h : Held s fr own) : Tidy s ↔ ∀ cpu, Neat (size s.st.mem) (fr cpu) := by
  have hd : ∀ cpu, ∀ a ∈ fr cpu, dataAt a (size s.st.mem a) = a + 16 + size s.st.mem a :=
    fun cpu a ha => dataAt_eq (h.heap.bounds (Or.inr ⟨cpu, ha⟩)).2
  constructor
  · intro ht cpu
    obtain ⟨l, hl, hl0, hasc, hgap⟩ := ht cpu
    obtain rfl := hl.unique (h.heap.chain cpu) hl0 (zero_not_mem h cpu)
    exact ⟨hasc, fun a ha b hb => by rw [← hd cpu a ha]; exact hgap a ha b hb⟩
  · exact fun hn cpu => ⟨fr cpu, h.heap.chain cpu, zero_not_mem h cpu, (hn cpu).asc,
      fun a ha b hb => by rw [hd cpu a ha]; exact (hn cpu).gap a ha b hb⟩

lemma last_iff {st : State} (hch : Chain (next st.mem) (st.start cpu) l 0) (h0 : 0 ∉ l)
    (hnd : l.Nodup) : Last st cpu new ↔ Alone l new := by
  have hon : ∀ b, OnList st cpu b ↔ b ∈ l :=
    fun b => visited_iff hch (fun x hx e => h0 (e ▸ hx)) rfl
  simp only [Last, hon]
  cases l with
  | nil => simp [Alone]
  | cons a l =>
    constructor
    · intro hlast
      refine Or.inr ⟨a, ?_, (hlast a (by simp)).2⟩
      cases l with
      | nil => rfl
      | cons c l =>
        obtain ⟨e, -⟩ := hlast c (by simp)
        rw [hch.1] at e
        exact absurd (by simp [e]) (List.nodup_cons.mp hnd).1
    · rintro (hn | ⟨c, hc, hlt⟩) b hb
      · cases hn
      · obtain ⟨rfl, rfl⟩ := List.cons_eq_cons.mp hc
        rw [List.mem_singleton.mp hb]
        exact ⟨hch.1.symm, hlt⟩

/-- Where one list changes, the others stay as they are. -/
lemma tidy_update {l' : List ℕ} (h : Held s fr own) (h' : Held s' (Function.update fr cpu l') own')
    (ht : Tidy s) (hz : ∀ c, c ≠ cpu → ∀ b ∈ fr c, size s'.st.mem b = size s.st.mem b) :
    Tidy s' ↔ Neat (size s'.st.mem) l' := by
  rw [tidy_iff h']
  constructor
  · intro hn
    have := hn cpu
    rwa [Function.update_self] at this
  · intro hn c
    by_cases hc : c = cpu
    · rw [hc, Function.update_self]
      exact hn
    · rw [Function.update_of_ne hc]
      exact ((tidy_iff h).mp ht c).congr (hz c hc)

lemma not_mem_other (h : Held s fr own) {c b : ℕ} (hc : c ≠ cpu) (hb : b ∈ fr c) : b ∉ fr cpu :=
  fun hb' => hc (h.heap.one b c cpu hb hb')

lemma put_tidy {ptr : ℕ} {l' : List ℕ} (h : Held s fr own)
    (h' : Held s' (Function.update fr cpu l') (own.erase (hdr ptr))) (ht : Tidy s) (hp : ptr ∈ s.live)
    (hput : Put s.st s'.st cpu (hdr ptr) fr (own.erase (hdr ptr)) s.regs l') :
    Tidy s' ↔ Last s.st cpu (hdr ptr) := by
  have hf := (take_live h.heap h.live hp).1.fresh cpu
  have hn := (tidy_iff h).mp ht cpu
  rw [last_iff (h.heap.chain cpu) (zero_not_mem h cpu) (h.heap.nodup cpu),
    tidy_update h h' ht fun c hc b hb =>
    rd_congr fun x h1 h2 => hput.keep b (Or.inr ⟨c, hb⟩) (not_mem_other h hc hb) x h1 (by omega)]
  cases hput.ins with
  | @link l1 l2 hl hpl hend hs =>
    rw [hl, ← neat_link hpl hend]
    have hz : ∀ b ∈ l1 ++ hdr ptr :: l2, size s'.st.mem b = size s.st.mem b := by
      intro b hb
      refine hs b ?_
      rw [hl]
      exact List.perm_middle.mem_iff.mp hb
    exact ⟨fun h1 => h1.congr fun b hb => (hz b hb).symm, fun h1 => h1.congr hz⟩
  | @merge p l1 l2 hl hpl he hs ho =>
    have hone := neat_merge hn hf hl hpl he
    rw [hone]
    exact iff_of_true (neat_single _ p) (Or.inr ⟨p, rfl, by omega⟩)

/-- The block handed out ends where the rest of its memory starts, so no other block does. -/
lemma gave_ends {st st' : State} {n ptr b c : ℕ} {req : Option ℕ} {l' : List ℕ} {regs : List Seg}
    (hg : Gave st st' cpu n fr own regs ptr req b l') (hc : c ∈ l')
    (hz : size st'.mem c = size st.mem c) : c + 16 + size st.mem c ≠ b + 16 + alignUp n := by
  have hmem : c ∈ Function.update fr cpu l' cpu := by rwa [Function.update_self]
  have hne : c ≠ b := by
    rintro rfl
    exact hg.heap.ownFree c (by simp) cpu hmem
  have hap := hg.heap.apart c b (Or.inr ⟨cpu, hmem⟩) (Or.inl (by simp)) hne
  simp only [Apart, Seg.hi, blk, hg.size, hz] at hap
  omega

lemma gave_tidy {st : State} {n ptr b : ℕ} {req : Option ℕ} {l' : List ℕ} (h : Held s fr own)
    (h' : Held s' (Function.update fr cpu l') (b :: own)) (ht : Tidy s)
    (hg : Gave s.st st cpu n fr own s'.regs ptr req b l') (hlo : ∀ r, req = some r → b = lo)
    (hs : ∀ c, Here (Function.update fr cpu l') (b :: own) c → SameHdr st.mem s'.st.mem c) :
    Tidy s' ↔ Room s.st cpu n ∨ Last s.st cpu (lo + hdrSize + alignUp n) := by
  have hn := (tidy_iff h).mp ht cpu
  have hsl : ∀ c ∈ l', size s'.st.mem c = size st.mem c :=
    fun c hc => (hs c (Or.inr ⟨cpu, by rwa [Function.update_self]⟩)).size
  have hother : ∀ c, c ≠ cpu → ∀ d ∈ fr c, size s'.st.mem d = size s.st.mem d := by
    intro c hc d hd
    rw [(hs d (Or.inr ⟨c, by rwa [Function.update_of_ne hc]⟩)).size]
    exact rd_congr fun x h1 h2 => hg.keep d (Or.inr ⟨c, hd⟩) (not_mem_other h hc hd) x h1 (by omega)
  rw [last_iff (h.heap.chain cpu) (zero_not_mem h cpu) (h.heap.nodup cpu),
    tidy_update h h' ht hother, room_iff h hg.taken]
  cases htk : hg.taken with
  | @cut l1 l2 he hsz hns ho =>
    have hb : b ∈ fr cpu := by rw [he]; simp
    have hold : ∀ c ∈ l1 ++ l2, c ∈ l1 ++ (b + 16 + alignUp n) :: l2 ∧ c ∈ fr cpu ∧ c ≠ b := by
      intro c hc
      have hnd := List.perm_middle.nodup_iff.mp (he ▸ h.heap.nodup cpu)
      refine ⟨?_, ?_, fun e => (List.nodup_cons.mp hnd).1 (e ▸ hc)⟩
      · rcases List.mem_append.mp hc with hc | hc <;> simp [hc]
      · rw [he]
        rcases List.mem_append.mp hc with hc | hc <;> simp [hc]
    refine iff_of_true ?_ (Or.inl rfl)
    refine Neat.congr (neat_cut (he ▸ hn) (fun c hc => ?_) hsz hns ho fun c hc => ?_) hsl
    · obtain ⟨-, hcm, hne⟩ := hold c hc
      have hap := h.heap.apart c b (Or.inr ⟨cpu, hcm⟩) (Or.inr ⟨cpu, hb⟩) hne
      simp only [Apart, Seg.hi, blk] at hap
      omega
    · exact gave_ends hg (hold c hc).1 (ho c hc)
  | @page l1 l2 he hpl hno hns ho =>
    obtain rfl := hlo _ rfl
    have hin : ∀ c ∈ l1, c ∈ l1 ++ (b + 16 + alignUp n) :: l2 ∧ c ∈ fr cpu := by
      intro c hc
      rw [he]
      simp [hc]
    have hz : ∀ c ∈ l1 ++ l2, size s'.st.mem c = size s.st.mem c := by
      intro c hc
      rw [hsl c (by rcases List.mem_append.mp hc with hc | hc <;> simp [hc])]
      exact ho c (he ▸ hc)
    have hend : ∀ p ∈ l1.getLast?, p + 16 + size s'.st.mem p ≠ b + 16 + alignUp n := by
      intro p hp
      have hp := List.mem_of_getLast? hp
      rw [hz p (by simp [hp])]
      exact gave_ends hg (hin p hp).1 (ho p (hin p hp).2)
    rw [neat_link hpl hend, ← he]
    exact (or_iff_right (by simp)).symm

lemma moves_tidy {req : Option ℕ} (h : Held s fr own) (h' : Held s' fr' own') (ht : Tidy s)
    (hmv : Moves s s' lo fr own op req fr' own') : Tidy s' ↔ Orderly s lo op := by
  cases hmv with
  | @gave op cpu n ptr b st req l' hop hg hlo hs hk =>
    rcases hop with rfl | rfl
    · exact gave_tidy h h' ht hg hlo hs
    · exact gave_tidy h h' ht hg hlo hs
  | put hp hput => exact put_tidy h h' ht hp hput
  | same hop hs =>
    have ht' : Tidy s' := (tidy_iff h').mpr fun cpu =>
      ((tidy_iff h).mp ht cpu).congr fun b hb => (hs b (Or.inr ⟨cpu, hb⟩)).size
    rcases hop with rfl | rfl <;> exact iff_of_true ht' trivial

end

/-! ### Runs -/

lemma orderlyRuns_held {m : Mem} {s : Sys} (h : OrderlyRuns (init m) s) :
    (∃ fr own, Held s fr own) ∧ Tidy s := by
  induction h with
  | refl =>
    exact ⟨⟨_, _, Held.init m⟩, fun cpu => ⟨[], rfl, by simp, by simp, by simp⟩⟩
  | tail _ hstep ih =>
    obtain ⟨⟨fr, own, h⟩, ht⟩ := ih
    obtain ⟨lo, op, req, hs, hf, ho⟩ := hstep
    obtain ⟨fr', own', h', hmv⟩ := step_moves h hs hf
    exact ⟨⟨fr', own', h'⟩, (moves_tidy h h' ht hmv).mpr ho⟩

/-- **The free lists stay in order in every run of orderly steps, and the first other step ends it.** -/
theorem free_lists_tidy {m : Mem} {s : Sys} (h : OrderlyRuns (init m) s) :
    Tidy s ∧ ∀ lo op req s', StepAt s lo op req s' → Fits op → (Tidy s' ↔ Orderly s lo op) := by
  obtain ⟨⟨fr, own, hh⟩, ht⟩ := orderlyRuns_held h
  refine ⟨ht, fun lo op req s' hs hf => ?_⟩
  obtain ⟨fr', own', h', hmv⟩ := step_moves hh hs hf
  exact moves_tidy hh h' ht hmv

lemma orderly_exec {s₀ s s' : Sys} {fuel lo : ℕ} {op : Op} (hr : OrderlyRuns s₀ s)
    (h : exec fuel lo s op = .ok s') (ho : Orderly s lo op) : OrderlyRuns s₀ s' := by
  obtain ⟨-, hf, req, hs⟩ := exec_stepAt h
  exact hr.tail ⟨lo, op, req, hs, hf, ho⟩

/-- Two blocks of one CPU go back on the list of another, the lower one first. -/
theorem free_lists_tidy_two_cpus : ∃ s, OrderlyRuns (init fun _ => 0) s ∧
    s.st.start 1 = 0x100000 ∧ next s.st.mem 0x100000 = 0x101000 ∧ Tidy s := by
  have hrun : ((exec 9 0x100000 (init fun _ => 0) (.kalloc 0 24 0x100010)).bind fun s1 =>
      (exec 9 0x101000 s1 (.kalloc 0 24 0x101010)).bind fun s2 =>
      (exec 9 0 s2 (.kfree 1 0x100010)).bind fun s3 =>
      (exec 9 0 s3 (.kfree 1 0x101010)).map fun s4 =>
        [s1.st.start 0, next s1.st.mem 0x100030, s2.st.start 1, s3.st.start 1,
          next s3.st.mem 0x100000, s4.st.start 1, next s4.st.mem 0x100000]) =
      .ok [0x100030, 0, 0, 0x100000, 0, 0x100000, 0x101000] := by
    decide
  obtain ⟨s1, h1, hrun⟩ := exists_of_bind hrun
  obtain ⟨s2, h2, hrun⟩ := exists_of_bind hrun
  obtain ⟨s3, h3, hrun⟩ := exists_of_bind hrun
  obtain ⟨s4, h4, hrun⟩ := exists_of_map hrun
  simp only [List.cons.injEq, and_true] at hrun
  obtain ⟨e1, e2, e3, e4, e5, e6, e7⟩ := hrun
  have hempty : ∀ {st : State} {cpu new : ℕ}, st.start cpu = 0 → Last st cpu new :=
    fun h => (last_iff (l := []) h (by simp) (by simp)).mpr (Or.inl rfl)
  have hone : ∀ {st : State} {cpu a new : ℕ}, st.start cpu = a → next st.mem a = 0 → 0 < a →
      a < new → Last st cpu new := fun h h' h0 hlt =>
    (last_iff (l := [_]) ⟨h, h'⟩ (by simp; omega) (by simp)).mpr (Or.inr ⟨_, rfl, hlt⟩)
  have r1 := orderly_exec .refl h1 (Or.inr (hempty rfl))
  have r2 := orderly_exec r1 h2 (Or.inr (hone e1 e2 (by decide) (by decide)))
  have r3 := orderly_exec r2 h3 (hempty e3)
  have r4 := orderly_exec r3 h4 (hone e4 e5 (by decide) (by decide))
  exact ⟨s4, r4, e6, e7, (free_lists_tidy r4).1⟩

/-- The first block of a region, freed on the CPU that has the rest of it on its list, goes behind
the rest, and is not merged with it. -/
theorem free_behind_rest : ∃ s, Runs (init fun _ => 0) s ∧ s.st.start 0 = 0x100030 ∧
    next s.st.mem 0x100030 = 0x100000 ∧ next s.st.mem 0x100000 = 0 ∧
    dataAt 0x100000 (size s.st.mem 0x100000) = 0x100030 ∧ ¬ Tidy s := by
  have hrun : ((exec 9 0x100000 (init fun _ => 0) (.kalloc 0 24 0x100010)).bind fun s1 =>
      (exec 9 0 s1 (.kfree 0 0x100010)).map fun s2 => [s2.st.start 0, next s2.st.mem 0x100030,
        next s2.st.mem 0x100000, dataAt 0x100000 (size s2.st.mem 0x100000)]) =
      .ok [0x100030, 0x100000, 0, 0x100030] := by
    decide
  obtain ⟨s1, h1, hrun⟩ := exists_of_bind hrun
  obtain ⟨s2, h2, hrun⟩ := exists_of_map hrun
  simp only [List.cons.injEq, and_true] at hrun
  obtain ⟨e1, e2, e3, e4⟩ := hrun
  refine ⟨s2, ?_, e1, e2, e3, e4, fun ht => ?_⟩
  · exact (Relation.ReflTransGen.single ⟨_, exec_step h1⟩).tail ⟨_, exec_step h2⟩
  · obtain ⟨l, hl, hl0, hasc, -⟩ := ht 0
    have hch : Chain (next s2.st.mem) (s2.st.start 0) [0x100030, 0x100000] 0 := ⟨e1, e2, e3⟩
    rw [hl.unique hch hl0 (by simp)] at hasc
    revert hasc
    decide

end Silkware.HeapOrder
