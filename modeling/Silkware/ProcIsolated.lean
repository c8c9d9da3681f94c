import Silkware.ProcPages

/-!
What a new process can reach.

`page_alloc` does not clear what it hands out, and nor do `proc_pages_init` and `tab_new`, so
whatever was in a page becomes entries of a table. Where the pages have no present entry, each
table of the space is named by the path to it, and the present entries at the end of the paths
are those that `map_pages` wrote.
-/

namespace Silkware.ProcIsolated

open Silkware.Kern Silkware.Radix Silkware.HashMap Silkware.HashMapSound Silkware.Paging
open Silkware.Outcome Silkware.PageTables Silkware.MapLoop Silkware.Premap Silkware.Window
open Silkware.TabNew Silkware.ProcSpace Silkware.ProcPages Silkware.AnonRuns

/-- The page of `v` is one of a segment. -/
def InSegs (segs : List Segment) (v : ℕ) : Prop :=
  ∃ seg ∈ segs, ∃ i < seg.len, vpage v = vpage (seg.base + i)

/-- Outside the slot shared with the kernel, only pages of the segments are present. -/
def Isolated (K : Image) (sp : ℕ) (segs : List Segment) (s : St) : Prop :=
  ∀ v e, index 3 v ≠ 511 → leaf s.mem (rootOf K sp s) v = some e → present e = true → InSegs segs v

/-- The page has no present entry. -/
def Blank (b : Block) : Prop := ∀ j : Fin 512, present (b.words j) = false

/-- The pages that are handed out for tables have no present entries, but for the one slot of the
top table that is overwritten. -/
def Clear (s : St) : Prop :=
  match s.supply with
  | [] => True
  | b :: bs => (∀ j : Fin 512, j ≠ 511 → present (b.words j) = false) ∧ ∀ c ∈ bs, Blank c

/-! ### The tables of the space -/

/-- The slot that is shared. -/
def Shared (p : List (Fin 512)) (i : Fin 512) : Prop := p = [] ∧ i = 511

/-- With `P` for the names of the tables and `S` for the pages that are mapped. -/
structure Space (K : Image) (lim sp R : ℕ) (s : St) (P : ℕ → Option (List (Fin 512)))
    (S : List (Fin 512) → Fin 512 → Prop) : Prop where
  inv : PInv K lim sp R s
  blank : ∀ b ∈ s.supply, Blank b
  named : Named (entry s.mem) next Shared 3 P
  root : P R = some []
  own : ∀ f p, P f = some p → KFree K s f ∧ ∀ b ∈ s.supply, physOf K s b ≠ f * 0x1000
  leaves : ∀ f p i, P f = some p → p.length = 3 → present (entry s.mem f i) = true → S p i
  shared : next (entry s.mem R 511) = table s.mem K.root [511]

variable {K : Image} {s s' : St} {f g lim sp t v R : ℕ} {i : Fin 512} {p q : List (Fin 512)}
  {P : ℕ → Option (List (Fin 512))} {S : List (Fin 512) → Fin 512 → Prop}

lemma Space.isolated (h : Space K lim sp R s P S) {e : ℕ} (hv : index 3 v ≠ 511)
    (hl : leaf s.mem R v = some e) (he : present e = true) : S (path v) (index 0 v) := by
  obtain ⟨f, hf, rfl⟩ := leaf_eq_some hl
  refine h.leaves f (path v) (index 0 v) (h.named.walk h.root (by simp [path]) ?_ hf) rfl he
  rintro p i hp ⟨rfl, rfl⟩
  rw [path, List.nil_append, List.cons_prefix_cons] at hp
  exact hv hp.1.symm

/-- A new table, named. -/
lemma Space.link {s₁ : St} (h : Space K lim sp R s P S) (hn : NewTab K lim sp R s s₁ g)
    (hs : Shown K lim sp R s t f) (hf : P f = some p) (hp : p.length < 3) (hi : ¬ Shared p i) :
    Space K lim sp R (setEntry s₁ f i (g * 0x1000 ||| topFlags))
      (Function.update P g (some (p ++ [i]))) S := by
  obtain ⟨b, hb, hphys, hwords⟩ := hn.taken
  have hg : P g = none := by
    by_contra hne
    obtain ⟨q, hq⟩ := Option.ne_none_iff_exists'.mp hne
    exact (h.own g q hq).2 b hb hphys
  have hne : ∀ h' q, P h' = some q → h' ≠ g := by
    rintro h' q hq rfl
    rw [hg] at hq
    cases hq
  have hempty : ∀ j, present (entry s₁.mem g j) = false := fun j => by
    rw [hwords]
    exact h.blank b hb j
  have hsame : ∀ h' q, P h' = some q → entry s₁.mem h' = entry s.mem h' :=
    fun h' q hq => hn.tables h' (hne h' q hq) (h.own h' q hq).1
  obtain ⟨t', hlive⟩ := hn.live
  have hs₁ := hn.quiet.shown h.inv hs
  have hq₂ : Quiet K lim s₁ (setEntry s₁ f i (g * 0x1000 ||| topFlags)) :=
    quiet_setEntry (hs₁.kfree hn.inv)
  have hq := hn.quiet.trans hq₂
  have hlive₂ := hq₂.live hn.inv.supply hlive
  have hgf : g ≠ f := (hne f p hf).symm
  refine ⟨hn.inv.set hs₁, fun c hc => h.blank c (hq.supply.subset hc), ?_, ?_, fun f' q hf' => ?_,
    fun f' q j hf' hl hpr => ?_, ?_⟩
  · rw [entry_setEntry]
    exact (h.named.congr hsame).link hf hg (next_link (Pool.frame_lt hlive.pool))
      fun j => next_eq_none.mpr (hempty j)
  · rw [Function.update_of_ne (hne R [] h.root), h.root]
  · rw [Function.update_apply] at hf'
    split at hf'
    · rename_i hfg
      rw [hfg]
      exact ⟨hlive₂.free, hlive₂.gone⟩
    · obtain ⟨h1, h2⟩ := h.own f' q hf'
      exact ⟨hq.kfree h1, hq.gone h.inv.supply h2⟩
  · rw [Function.update_apply] at hf'
    split at hf'
    · rename_i hfg
      rw [hfg, entry_setEntry, put_table hgf, hempty] at hpr
      cases hpr
    · have hff : f' ≠ f := by
        rintro rfl
        rw [hf, Option.some.injEq] at hf'
        subst hf'
        omega
      rw [entry_setEntry, put_table hff, hsame f' q hf'] at hpr
      exact h.leaves f' q j hf' hl hpr
  · have hat : ¬ (R = f ∧ (511 : Fin 512) = i) := by
      rintro ⟨rfl, rfl⟩
      rw [h.root, Option.some.injEq] at hf
      exact hi ⟨hf.symm, rfl⟩
    rw [entry_setEntry, put, if_neg hat, hsame R [] h.root, h.shared, hq.walk _ (by simp)]

lemma Space.tableEntry (h : Space K lim sp R s P S) (hs : Shown K lim sp R s t f) (hf : P f = some p)
    (hp : p.length < 3) (hi : ¬ Shared p i) :
    OrStops .panic (tableEntry K (spaceWalker K sp) t i s) fun r => ∃ P', Space K lim sp R r.2 P' S ∧
      Quiet K lim s r.2 ∧ ∃ g, next r.1 = some g ∧ P' g = some (p ++ [i]) := by
  refine (h.inv.tableEntry (i := i) hs).mono ?_
  rintro ⟨e, s'⟩ ⟨hinv, hq, hpr, he, -, hcase⟩
  simp only at hinv hq hpr he hcase
  obtain ⟨g, hg⟩ : ∃ g, next e = some g := ⟨_, by rw [next, if_pos hpr]⟩
  rcases hcase with rfl | ⟨-, s₁, g', hn, rfl⟩
  · exact ⟨P, h, hq, g, hg, h.named f p i g hf hp hi (by rw [he, hg])⟩
  · refine ⟨_, h.link hn hs hf hp hi, hq, g', ?_, Function.update_self ..⟩
    obtain ⟨t', hlive⟩ := hn.live
    rw [← he, entry_setEntry, put_same, next_link (Pool.frame_lt hlive.pool)]

lemma Space.descend (h : Space K lim sp R s P S) (hsp : sp ≠ kspace) (hs : Shown K lim sp R s t f)
    (hf : P f = some p) (hp : p.length < 3) (hi : ¬ Shared p i) :
    OrStops .panic (descend K (spaceWalker K sp) t i s) fun r => ∃ P', Space K lim sp R r.2 P' S ∧
      Quiet K lim s r.2 ∧ ∃ g, Live K lim R r.2 r.1 g ∧ P' g = some (p ++ [i]) := by
  refine (h.tableEntry hs hf hp hi).bind ?_
  rintro ⟨e, s₁⟩ ⟨P', h', hq, g, hg, hP⟩
  have hget := h'.inv.tabGet hsp (next_lt hg)
  simp only [(next_eq_some hg).2]
  exact hget.bind fun t' hl => OrStops.ok ⟨P', h', hq, g, hl, hP⟩

/-- Under the shared slot are tables of the kernel, which the map of the space does not know. -/
lemma Space.shared_lost (h : Space K lim sp R s P S) (hsp : sp ≠ kspace) :
    ∃ g, next (entry s.mem R 511) = some g ∧ tabGet K sp (g * 0x1000) s = .error .panic := by
  obtain ⟨f₀, ho⟩ := h.inv.kern.window
  obtain ⟨f₁, f₂, hway⟩ := exists_way ho.last
  have h3 : index 3 K.pageTmp = 511 := by
    have hl := K.linked
    have hor := K.order
    have hend := K.virtual_end
    rw [Fin.ext_iff, index_val]
    change K.pageTmp / 2 ^ (12 + 9 * 3) % 512 = 511
    omega
  have hone := hway.one
  rw [h3] at hone
  have hnext : next (entry s.mem R 511) = some f₁ := by rw [h.shared, hone]
  refine ⟨f₁, hnext, ?_⟩
  rcases h.inv.tabGet hsp (next_lt hnext) with hget | ⟨t, -, hl⟩
  · exact hget
  · exact absurd hone (hl.free [511] (by simp))

lemma Space.descend_shared (h : Space K lim sp R s P S) (hsp : sp ≠ kspace) :
    OrStops .panic (Paging.descend K (spaceWalker K sp) (s.addr sp) 511 s) fun _ => False := by
  obtain ⟨g, hg, hget⟩ := h.shared_lost hsp
  obtain ⟨hpr, hmask⟩ := next_eq_some hg
  refine Or.inl ?_
  simp only [Paging.descend, Paging.tableEntry, h.inv.top.at.load 511, hpr, bind, Except.bind, if_true, pure, Except.pure,
    spaceWalker, hmask, hget]

/-- The page of an address is mapped. -/
def MapsTo (S : List (Fin 512) → Fin 512 → Prop) (v : ℕ) (p : List (Fin 512)) (i : Fin 512) : Prop :=
  S p i ∨ p = path v ∧ i = index 0 v

lemma Space.put {x : ℕ} (h : Space K lim sp R s P S) (hl : Live K lim R s t f)
    (hf : P f = some (path v)) : Space K lim sp R (setEntry s f (index 0 v) x) P (MapsTo S v) := by
  have hs : Shown K lim sp R s t f := Or.inr hl
  have hq : Quiet K lim s (setEntry s f (index 0 v) x) := quiet_setEntry hl.free
  refine ⟨h.inv.set hs, h.blank, ?_, h.root, fun f' q hf' => ?_, fun f' q j hf' hlen hpr => ?_, ?_⟩
  · rw [entry_setEntry]
    exact h.named.put hf rfl
  · obtain ⟨h1, h2⟩ := h.own f' q hf'
    exact ⟨hq.kfree h1, hq.gone h.inv.supply h2⟩
  · rw [entry_setEntry, Radix.put] at hpr
    split at hpr
    · rename_i hat
      rw [hat.1, hf, Option.some.injEq] at hf'
      exact Or.inr ⟨hf'.symm, hat.2⟩
    · exact Or.inl (h.leaves f' q j hf' hlen hpr)
  · rw [entry_setEntry, put_table hl.ne.symm, h.shared, hq.walk _ (by simp)]

lemma Space.mapPage (h : Space K lim sp R s P S) (hsp : sp ≠ kspace) (dst src flags : ℕ) :
    OrStops .panic (mapPage K (spaceWalker K sp) (s.addr sp) flags dst src s) fun s' =>
      s'.addr = s.addr ∧ s'.large = s.large ∧ ∃ P', Space K lim sp R s' P' (MapsTo S dst) := by
  unfold Paging.mapPage
  by_cases h3 : index 3 dst = 511
  · rw [h3]
    exact (h.descend_shared hsp).bind fun _ hF => hF.elim
  · refine (h.descend hsp (Or.inl ⟨rfl, rfl⟩) h.root (by simp) fun hsh => h3 hsh.2).bind ?_
    rintro ⟨pdpt, s₁⟩ ⟨P₁, h₁, q₁, f₁, l₁, n₁⟩
    refine (h₁.descend hsp (Or.inr l₁) n₁ (by simp) fun hsh => by simp [Shared] at hsh).bind ?_
    rintro ⟨pd, s₂⟩ ⟨P₂, h₂, q₂, f₂, l₂, n₂⟩
    refine (h₂.descend hsp (Or.inr l₂) n₂ (by simp) fun hsh => by simp [Shared] at hsh).bind ?_
    rintro ⟨pt, s₃⟩ ⟨P₃, h₃, q₃, f₃, l₃, n₃⟩
    have hsh₃ : Shown K lim sp R s₃ pt f₃ := Or.inr l₃
    have hq := (q₁.trans q₂).trans q₃
    simp only [(hsh₃.at h₃.inv).store]
    exact OrStops.ok ⟨hq.addr, hq.large, P₃, h₃.put l₃ n₃⟩

/-- The pages of a range, beside those of `S`. -/
def MapsRange (S : List (Fin 512) → Fin 512 → Prop) (dst n : ℕ) (p : List (Fin 512)) (i : Fin 512) :
    Prop := S p i ∨ ∃ k < n, p = path (dst + k * 0x1000) ∧ i = index 0 (dst + k * 0x1000)

lemma Space.mono {S' : List (Fin 512) → Fin 512 → Prop} (h : Space K lim sp R s P S)
    (hS : ∀ p i, S p i → S' p i) : Space K lim sp R s P S' :=
  { h with leaves := fun f p i hf hp hpr => hS p i (h.leaves f p i hf hp hpr) }

lemma Space.mapPages (h : Space K lim sp R s P S) (hsp : sp ≠ kspace) (dst src length flags : ℕ) :
    OrStops .panic (mapPages K sp dst src length flags s) fun s' => s'.large = s.large ∧
      ∃ P', Space K lim sp R s' P' (MapsRange S dst (turns dst src length)) := by
  refine (mapRange_rule (fun n s' => s'.addr = s.addr ∧ s'.large = s.large ∧
    ∃ P', Space K lim sp R s' P' (MapsRange S dst n)) ?_
    ⟨rfl, rfl, P, h.mono fun _ _ hS => Or.inl hS⟩).mono fun s' h' => h'.2
  rintro n - s₁ ⟨ha, hl, P₁, h₁⟩
  have hp := h₁.mapPage hsp (dst + n * 0x1000) (src + n * 0x1000) flags
  rw [ha] at hp
  refine hp.mono ?_
  rintro s₂ ⟨ha', hl', P₂, h₂⟩
  refine ⟨ha', hl'.trans hl, P₂, h₂.mono ?_⟩
  rintro p i ((hS | ⟨k, hk, hpk⟩) | hpn)
  · exact Or.inl hS
  · exact Or.inr ⟨k, by omega, hpk⟩
  · exact Or.inr ⟨n, by omega, hpn⟩

/-! ### The whole of it -/

/-- At first the top table is the only one. -/
lemma Begun.space {b : Block} (h : Begun K lim sp R b s s')
    (hb : ∀ j : Fin 512, j ≠ 511 → present (b.words j) = false)
    (hblank : ∀ c ∈ s'.supply, Blank c) :
    Space K lim sp R s' (fun f => if f = R then some [] else none) fun _ _ => False := by
  have hroot : ∀ f (p : List (Fin 512)), (if f = R then some [] else none) = some p → f = R ∧ p = [] := by
    intro f p hf
    split at hf
    · rename_i hfR
      exact ⟨hfR, (Option.some.inj hf).symm⟩
    · cases hf
  refine ⟨h.inv, hblank, fun f p i g hf _ hi hg => ?_, if_pos rfl, fun f p hf => ?_,
    fun f p i hf hl _ => ?_, ?_⟩
  · obtain ⟨rfl, rfl⟩ := hroot f p hf
    have hne : i ≠ 511 := fun hi' => hi ⟨rfl, hi'⟩
    rw [h.words, if_neg hne, next_eq_none.mpr (hb i hne)] at hg
    cases hg
  · obtain ⟨rfl, -⟩ := hroot f p hf
    exact ⟨h.inv.topFree, h.inv.topGone⟩
  · obtain ⟨-, rfl⟩ := hroot f p hf
    simp at hl
  · rw [h.words, if_pos rfl]
    simp [table, walk]

lemma Space.takeLarge (h : Space K lim sp R s P S) (l : List ℕ) :
    Space K lim sp R { s with large := l } P S :=
  ⟨PInv.takeLarge h.inv l, h.blank, h.named, h.root, h.own, h.leaves, h.shared⟩

lemma lt_of_turn {dst src length k : ℕ} (hd : dst % 0x1000 = 0) (hk : k < turns dst src length) :
    k * 0x1000 < length := by
  unfold turns roundUpPage floorPage at hk
  omega

/-- The space when `proc_pages_init` returns: the pages of its two segments are mapped, and no
others. -/
lemma procPagesInit_space (start len : ℕ) (hk : KernOk K s) (hs : Supply K lim s) (hsp : sp ≠ kspace)
    (hc : Clear s) :
    OrStops .panic (procPagesInit K sp start len s) fun r => ∃ R P kvirt,
      r.1 = [⟨procEntry, start, len⟩, ⟨stackTop, kvirt, 64 * pageSize⟩] ∧
      Space K lim sp R r.2 P (MapsRange (MapsRange (fun _ _ => False) procEntry
        (turns procEntry start len)) stackTop (turns stackTop kvirt (64 * pageSize))) := by
  unfold procPagesInit
  refine (spaceInit_spec hk hs hsp).bind fun s₁ ⟨b, bs, R, hsup, hsup₁, hb⟩ => ?_
  rw [Clear, hsup] at hc
  have h₁ := Begun.space hb hc.1 (by rw [hsup₁]; exact hc.2)
  refine (h₁.mapPages hsp _ _ _ _).bind fun s₂ ⟨_, P₂, h₂⟩ => ?_
  unfold pageAllocLarge
  cases hlarge : s₂.large with
  | nil => exact OrStops.stop
  | cons kvirt vs =>
    rw [pure_bind]
    refine ((h₂.takeLarge vs).mapPages hsp _ _ _ _).bind fun s₃ ⟨_, P₃, h₃⟩ => OrStops.ok ?_
    exact ⟨R, P₃, kvirt, rfl, h₃⟩

/-- The two segments, and that nothing else is mapped. -/
lemma procPagesInit_isolated (start len : ℕ) (hk : KernOk K s) (hs : Supply K lim s)
    (hsp : sp ≠ kspace) (hc : Clear s) :
    OrStops .panic (procPagesInit K sp start len s) fun r =>
      (∃ kvirt, r.1 = [⟨procEntry, start, len⟩, ⟨stackTop, kvirt, 64 * pageSize⟩]) ∧
      Isolated K sp r.1 r.2 := by
  refine (procPagesInit_space start len hk hs hsp hc).mono ?_
  rintro ⟨segs, s'⟩ ⟨R, P, kvirt, rfl, h⟩
  refine ⟨⟨kvirt, rfl⟩, fun v e hv hl he => ?_⟩
  rw [rootOf_eq h.inv.top] at hl
  rcases h.isolated hv hl he with (hF | ⟨k, hk, hpk⟩) | ⟨k, hk, hpk⟩
  · exact hF.elim
  · have hal : procEntry % 0x1000 = 0 := by decide
    exact ⟨⟨procEntry, start, len⟩, by simp, k * 0x1000, lt_of_turn hal hk, same_page.mp hpk⟩
  · have hal : stackTop % 0x1000 = 0 := by decide
    exact ⟨⟨stackTop, kvirt, 64 * pageSize⟩, by simp, k * 0x1000, lt_of_turn hal hk, same_page.mp hpk⟩

/-- The state with the pages to be handed out cleared. -/
def cleared (s : St) : St :=
  { s with supply := s.supply.map fun b => { b with words := fun _ => 0 } }

lemma clear_cleared (s : St) : Clear (cleared s) := by
  unfold Clear cleared
  cases hs : s.supply with
  | nil => simp
  | cons b bs =>
    simp only [List.map_cons, List.mem_map, forall_exists_index, and_imp, forall_apply_eq_imp_iff₂, Blank]
    exact ⟨fun _ _ => by decide, fun _ _ _ => by decide⟩

lemma KernOk.cleared (h : KernOk K s) : KernOk K (cleared s) := h.of_mem rfl h.cur rfl

lemma Supply.cleared (h : Supply K lim s) : Supply K lim (cleared s) := by
  refine ⟨fun b hb => ?_, ?_⟩
  · obtain ⟨c, hc, rfl⟩ := List.mem_map.mp hb
    obtain ⟨f, hp, hf⟩ := h.pages c hc
    exact ⟨f, hp.of_leaf rfl, hf⟩
  · exact List.pairwise_map.mpr h.apart

/-- A process of one page, made of pages that were cleared. -/
lemma cleared_runs : (readySt.bind fun s =>
    (procPagesInit borderImage 1 0xFFFFFFFF80190000 0x1000 (cleared s)).map fun r => r.1.length) = .ok 2 := by
  decide +kernel

end Silkware.ProcIsolated
