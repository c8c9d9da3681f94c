import Silkware.MapLoop
import Mathlib.Data.Finset.Card
import Mathlib.Order.Interval.Finset.Nat

/-!
`premap_pages` on the kernel's tables.

The tables it makes come from the mini-heap, in the order of their addresses: below `brk` they
are linked into one tree, from `brk` on they are still zero and lead nowhere.
-/

namespace Silkware.Premap

open Silkware.Kern Silkware.Radix Silkware.Paging Silkware.Outcome Silkware.PageTables
open Silkware.MapLoop

variable {K : Image} {T : List (Fin 512) → ℕ → Prop} {s₀ s s' : St} {f g v : ℕ}

/-- A frame of the mini-heap that was not handed out. -/
def Unused (K : Image) (s : St) (f : ℕ) : Prop :=
  K.physicalBase + (s.brk - K.virtualBase) ≤ f * 0x1000 ∧
    f * 0x1000 < K.physicalBase + (K.miniheapEnd - K.virtualBase)

/-- A frame that no path leads to and whose entries lead nowhere. -/
def Spare (K : Image) (s : St) (f : ℕ) : Prop :=
  (∀ q, q.length ≤ 3 → table s.mem K.root q ≠ some f) ∧ ∀ j, present (entry s.mem f j) = false

/-- The kernel's tables while `premap_pages` works on them; `T q f` allows the frame `f` for
the table at the end of the path `q`. -/
structure KInv (K : Image) (T : List (Fin 512) → ℕ → Prop) (s₀ s : St) : Prop where
  tree : IsTree (entry s.mem) next K.root 3
  tabs : ∀ q f, q.length ≤ 3 → table s.mem K.root q = some f → T q f
  brk : K.miniheapStart ≤ s.brk ∧ s.brk ≤ K.miniheapEnd ∧ s.brk % 0x1000 = 0
  unused : ∀ f, Unused K s f → Spare K s f
  rest : s = { s₀ with mem := s.mem, brk := s.brk }

/-- Writing an entry of a table that is linked in leaves the unused frames spare, if no path
to them appears. -/
lemma KInv.set {q : List (Fin 512)} {i : Fin 512} {x : ℕ} (h : KInv K T s₀ s) (hq : q.length ≤ 3)
    (hf : table s.mem K.root q = some f)
    (htree : IsTree (entry (setEntry s f i x).mem) next K.root 3)
    (hw : ∀ q' f', q'.length ≤ 3 → table (setEntry s f i x).mem K.root q' = some f' →
      T q' f' ∧ ¬ Unused K s f') :
    KInv K T s₀ (setEntry s f i x) := by
  refine ⟨htree, fun q' f' h1 h2 => (hw q' f' h1 h2).1, h.brk, fun f' hu => ⟨fun q' h1 h2 => ?_,
    fun j => ?_⟩, ?_⟩
  · exact (hw q' f' h1 h2).2 hu
  · have hne : f' ≠ f := by
      rintro rfl
      exact (h.unused f' hu).1 q hq hf
    rw [entry_setEntry, put_table hne]
    exact (h.unused f' hu).2 j
  · have := h.rest
    unfold setEntry setWord
    rw [this]

/-- Only the memory and `brk` count. -/
lemma KInv.of_eq (h : KInv K T s₀ s) (hm : s'.mem = s.mem) (hb : s'.brk = s.brk) :
    KInv K T s' s' := by
  have hu : ∀ f, Unused K s' f → Unused K s f := fun f hf => by
    unfold Unused at hf ⊢
    rwa [hb] at hf
  refine ⟨by rw [hm]; exact h.tree, by rw [hm]; exact h.tabs, by rw [hb]; exact h.brk,
    fun f hf => ?_, rfl⟩
  unfold Spare
  rw [hm]
  exact h.unused f (hu f hf)

/-- A frame taken from the mini-heap. -/
def Fresh (K : Image) (s : St) (g : ℕ) : Prop := Mine K g ∧ ¬ Unused K s g ∧ Spare K s g

/-- The pages whose tables, as far as they are there, are the kernel image's. -/
def On (K : Image) (T : List (Fin 512) → ℕ → Prop) (v : ℕ) : Prop :=
  ∀ q f, q <+: path v → q ≠ [] → T q f → Mine K f

lemma premapWalker_law (hT : ∀ q f, Mine K f → T q f) :
    Law K (premapWalker K) K.root (KInv K T s₀) (fun _ t f => Mine K f ∧ t = K.physk2vk (f * 0x1000))
      (Fresh K) (On K T) (fun _ => False) where
  tree h := h.tree
  seen := by
    rintro s t f - ⟨hf, rfl⟩
    exact hf.at
  get := by
    intro s v p f h hon hp hne hf
    have hlen : p.length ≤ 3 := hp.length_le
    exact OrStops.ok ⟨hon p f hp hne (h.tabs p f hlen hf), rfl⟩
  new := by
    intro s h
    have hr : roundUpPage pageSize = 0x1000 := by decide
    obtain ⟨h1, h2, h3⟩ := h.brk
    have he := K.virtual_end
    have hp := K.physical_end
    have ho := K.order
    have hb := K.base_aligned
    have ha := K.aligned
    have hstart : K.miniheapStart = K.pageTmp + 0x1000 := rfl
    have hend : K.miniheapEnd = K.pageTmp + 0x1000 + 0x64000 := rfl
    have hk : K.kernEnd = K.miniheapEnd := rfl
    have hmod : (s.brk + roundUpPage pageSize) % 2 ^ 64 = s.brk + 0x1000 := by rw [hr]; omega
    simp only [premapWalker, miniheapAlloc, hmod]
    by_cases hpan : K.miniheapEnd < s.brk + 0x1000
    · rw [if_pos hpan]
      exact OrStops.stop
    · rw [if_neg hpan]
      have hv := vk2physk_eq (K := K) (v := s.brk) (by omega) (by omega)
      obtain ⟨g, hg⟩ : ∃ g, g * 0x1000 = K.vk2physk s.brk := ⟨K.vk2physk s.brk / 0x1000, by omega⟩
      have hu : Unused K s g := by unfold Unused; omega
      have hm : Mine K g := by unfold Mine; omega
      have hsp := h.unused g hu
      refine OrStops.ok ⟨g, hg.symm, ⟨h.tree, h.tabs, by simp only; omega, fun f hf => ?_, ?_⟩,
        ⟨hm, ?_, hsp⟩, fun _ _ ht => ht, fun _ _ _ _ => rfl, fun _ _ => rfl⟩
      · exact h.unused f ⟨by have := hf.1; simp only at this; omega, hf.2⟩
      · have := h.rest
        rw [this]
      · unfold Unused
        simp only
        omega
  fresh := by
    rintro s g h ⟨hm, -, hs⟩
    have hp := K.physical_end
    have hk : K.kernEnd = K.pageTmp + 0x1000 + 0x64000 := rfl
    obtain ⟨h1, h2, -⟩ := hm
    exact ⟨by omega, hs⟩
  link := by
    rintro s g p t f i h ⟨hm, hu, hs⟩ - hp hf hnone
    have hpe := K.physical_end
    have hk : K.kernEnd = K.pageTmp + 0x1000 + 0x64000 := rfl
    have hn := next_link (g := g) (by obtain ⟨h1, h2, -⟩ := hm; omega)
    have hempty : p.length + 1 < 3 → ∀ j, next (entry s.mem g j) = none :=
      fun _ j => next_eq_none.mpr (hs.2 j)
    refine ⟨h.set (q := p) (by omega) hf ?_ fun q f' hq hf' => ?_, fun _ _ ht => ht⟩
    · rw [entry_setEntry]
      exact h.tree.link hp hf hnone hn hs.1 hempty
    · rw [table, entry_setEntry, h.tree.walk_link hp hf hnone hn hs.1 hempty hq] at hf'
      split at hf'
      · rw [Option.some.injEq] at hf'
        subst hf'
        exact ⟨hT q g hm, hu⟩
      · exact ⟨h.tabs q f' hq hf', fun hu' => (h.unused f' hu').1 q hq hf'⟩
  put := by
    intro s t v f x h hon _ hf
    have hw : ∀ q, q.length ≤ 3 → table (setEntry s f (index 0 v) x).mem K.root q =
        table s.mem K.root q := fun q hq => by
      rw [table, entry_setEntry]
      exact h.tree.walk_put rfl hf hq
    refine h.set (q := path v) (by simp [path]) hf (h.tree.congr hw) fun q f' hq hf' => ?_
    rw [hw q hq] at hf'
    exact ⟨h.tabs q f' hq hf', fun hu => (h.unused f' hu).1 q hq hf'⟩

/-- `premap_pages` on pages whose tables are the kernel image's. -/
lemma premapPages_spec (dst src length flags : ℕ) (hT : ∀ q f, Mine K f → T q f)
    (h : KInv K T s₀ s) (hon : ∀ k < turns dst src length, On K T (dst + k * 0x1000)) :
    OrStops .panic (premapPages K dst src length flags s) fun s' => KInv K T s₀ s' ∧
      Maps K.root (fun _ => False) dst src flags (turns dst src length) s s' :=
  mapRange_spec (premapWalker_law hT) K.kpml4 dst src length flags h (fun _ _ => ⟨root_mine.1, root_mine.2.symm⟩) hon
    fun _ _ => id

/-! ### States built by `premap_pages` only -/

/-- The state in which the kernel starts: `.bss` is zero. -/
structure Boot (K : Image) (s : St) : Prop where
  brk : s.brk = K.miniheapStart
  kpml4 : ∀ i, entry s.mem K.root i = 0
  miniheap : ∀ f, Unused K s f → ∀ i, entry s.mem f i = 0

inductive Built (K : Image) (s₀ : St) : St → Prop
  | boot : Built K s₀ s₀
  | call {s s' : St} {dst src length flags : ℕ} (hs : Built K s₀ s)
      (h : premapPages K dst src length flags s = .ok s') : Built K s₀ s'

/-- All tables are the kernel image's. -/
abbrev Own (K : Image) : List (Fin 512) → ℕ → Prop := fun _ f => Mine K f

lemma Boot.inv (h : Boot K s) : KInv K (Own K) s s := by
  have hnil : ∀ q f, table s.mem K.root q = some f → q = [] ∧ f = K.root := by
    intro q f hq
    cases q with
    | nil => exact ⟨rfl, (Option.some.inj hq).symm⟩
    | cons i q =>
      have h0 : next (entry s.mem K.root i) = none := by
        rw [h.kpml4 i]
        rfl
      rw [table, walk, h0] at hq
      cases hq
  refine ⟨fun p q f _ _ hp hq => ?_, fun q f _ hq => ?_, ?_, fun f hu => ⟨fun q _ hq => ?_,
    fun j => ?_⟩, rfl⟩
  · rw [(hnil p f hp).1, (hnil q f hq).1]
  · rw [(hnil q f hq).2]
    exact root_mine.1
  · have ha := K.aligned
    have hs : K.miniheapStart = K.pageTmp + 0x1000 := rfl
    have he : K.miniheapEnd = K.pageTmp + 0x1000 + 0x64000 := rfl
    rw [h.brk]
    omega
  · have hr : K.root * 0x1000 = K.kpml4 - K.virtualBase + K.physicalBase := by
      have := root_mine (K := K)
      have h1 := physk2vk_eq this.1.1 this.1.2.1
      rw [this.2] at h1
      have h2 := this.1.1
      omega
    obtain ⟨h1, -⟩ := hu
    rw [(hnil q f hq).2, hr, h.brk] at h1
    have ho := K.order
    have hs : K.miniheapStart = K.pageTmp + 0x1000 := rfl
    omega
  · rw [h.miniheap f hu j]
    rfl

lemma on_own (v : ℕ) : On K (Own K) v := fun _ _ _ _ h => h

/-- **Every state that `premap_pages` builds** is a tree of tables of the kernel image. -/
theorem Built.inv (hb : Boot K s₀) (hs : Built K s₀ s) : KInv K (Own K) s₀ s := by
  induction hs with
  | boot => exact hb.inv
  | call _ h ih => exact ((premapPages_spec _ _ _ _ (fun _ _ h => h) ih fun _ _ => on_own _).of_ok h).1

/-! ### The page map -/

lemma isSome_of_maps {root dst src flags n k : ℕ} {hidden : ℕ → Prop}
    (h : Maps root hidden dst src flags n s s') (hk : k < n) :
    (leaf s'.mem root (dst + k * 0x1000)).isSome := by
  induction hd : n - k using Nat.strong_induction_on generalizing k with
  | _ d ih =>
    by_cases hlast : ∀ j, k < j → j < n → vpage (dst + j * 0x1000) ≠ vpage (dst + k * 0x1000)
    · rw [h.mapped k hk hlast]
      rfl
    · push Not at hlast
      obtain ⟨j, h1, h2, h3⟩ := hlast
      rw [← leaf_congr h3]
      exact ih (n - j) (by omega) h2 rfl

/-- The image is too small for tables over all addresses. -/
lemma KInv.not_everywhere (h : KInv K (Own K) s₀ s) : ¬ ∀ v, (leaf s.mem K.root v).isSome := by
  intro hall
  have htab : ∀ x, ∃ f, table s.mem K.root (path (x * 2 ^ 21)) = some f := by
    intro x
    have hx := hall (x * 2 ^ 21)
    rw [leaf, look, Option.isSome_map] at hx
    exact Option.isSome_iff_exists.mp hx
  choose F hF using htab
  have hmaps : Set.MapsTo F (Finset.range (2 ^ 27))
      (Finset.Icc (K.physicalBase / 0x1000) (K.physicalBase / 0x1000 + 2 ^ 19) : Finset ℕ) := by
    intro x _
    obtain ⟨h1, h2, -⟩ := h.tabs _ _ (by simp [path]) (hF x)
    have hv := K.virtual_end
    have hl := K.linked
    have hk : K.kernEnd = K.pageTmp + 0x1000 + 0x64000 := rfl
    rw [Finset.mem_coe, Finset.mem_Icc]
    omega
  have hcard : (Finset.Icc (K.physicalBase / 0x1000) (K.physicalBase / 0x1000 + 2 ^ 19)).card <
      (Finset.range (2 ^ 27)).card := by
    rw [Nat.card_Icc, Finset.card_range]
    omega
  obtain ⟨x, hx, y, hy, hne, heq⟩ := Finset.exists_ne_map_eq_of_card_lt_of_maps_to hcard hmaps
  rw [Finset.mem_range] at hx hy
  have hp := h.tree _ _ _ (by simp [path]) (by simp [path]) (hF x) (heq ▸ hF y)
  simp only [path, List.cons.injEq, and_true, Fin.ext_iff, index_val] at hp
  omega

/-- A call that returns maps fewer pages than there are. -/
lemma turns_lt {dst src length flags : ℕ} (h' : KInv K (Own K) s₀ s')
    (hm : Maps K.root (fun _ => False) dst src flags (turns dst src length) s s') :
    turns dst src length < 2 ^ 36 := by
  by_contra hn
  refine h'.not_everywhere fun v => ?_
  obtain ⟨k, hk, hv⟩ : ∃ k < 2 ^ 36, vpage v = vpage (dst + k * 0x1000) := by
    refine ⟨(vpage v + 2 ^ 36 - vpage dst) % 2 ^ 36, Nat.mod_lt _ (by omega), ?_⟩
    unfold vpage
    omega
  rw [leaf_congr hv]
  exact isSome_of_maps hm (by omega)

/-- The pages that cover a range. -/
def pages (dst length : ℕ) : ℕ := (floorPage (dst + length + 0xFFF) - floorPage dst) / 0x1000

/-- The turns that one end of a range allows. -/
lemma turns_end {a length : ℕ} (h : a + length + 0xFFF < 2 ^ 64) :
    (roundUpPage ((a + length) % 2 ^ 64) + 0xFFF - a) / 0x1000 = pages a length := by
  unfold pages roundUpPage floorPage
  omega

lemma pages_congr {dst src length : ℕ} (hmod : dst % 0x1000 = src % 0x1000) :
    pages src length = pages dst length := by
  unfold pages floorPage
  omega

lemma turns_eq {dst src length : ℕ} (hmod : dst % 0x1000 = src % 0x1000)
    (hd : dst + length + 0xFFF < 2 ^ 64) (hs : src + length + 0xFFF < 2 ^ 64) :
    turns dst src length = pages dst length := by
  rw [turns, turns_end hd, turns_end hs, pages_congr hmod, min_self]

/-- The smallest image: its code and data are one page each. -/
def onePageImage : Image where
  virtualBase := 0xFFFFFFFF80000000
  physicalBase := 0x200000
  textStart := 0xFFFFFFFF80000000
  textEnd := 0xFFFFFFFF80001000
  rodataStart := 0xFFFFFFFF80001000
  rodataEnd := 0xFFFFFFFF80002000
  dataStart := 0xFFFFFFFF80002000
  kpml4 := 0xFFFFFFFF80002000
  pageTmp := 0xFFFFFFFF80003000
  linked := by decide
  base_aligned := by decide
  aligned := by decide
  order := by decide
  virtual_end := by decide
  physical_end := by decide

def zeroSt : St where
  mem _ := 0
  brk := onePageImage.miniheapStart
  endPos := 0
  addr _ := onePageImage.kpml4
  physmap _ := none
  cur := none
  supply := []
  large := []

lemma zeroSt_boot : Boot onePageImage zeroSt := ⟨rfl, fun _ => rfl, fun _ _ _ => rfl⟩

end Silkware.Premap
