import Silkware.TabNew

/-!
Anonymous mappings of the kernel: runs of `premap_anon` and `map_anon`.

The tables of the kernel now come from two places, the mini-heap and the pools. A table of the
pools is noted in the map of `kspace` with a page that shows it, below `end_pos` and so out of
the reach of later mappings.
-/

namespace Silkware.Anon

open Silkware.Kern Silkware.Radix Silkware.HashMap Silkware.HashMapRuns Silkware.Paging
open Silkware.Outcome Silkware.PageTables Silkware.MapLoop Silkware.Premap Silkware.Window
open Silkware.TabNew

variable {K : Image} {s s' : St} {f f₀ g lim t u v : ℕ} {q : List (Fin 512)}

/-! ### The invariant -/

/-- The map of `kspace`. -/
def kmap (s : St) : Map := (s.physmap kspace).getD (mapNew 0)

/-- The key of a frame. -/
def key (f : ℕ) : Bytes := leBytes (f * 0x1000)

/-- The kernel reaches the table in frame `f`. -/
def Known (K : Image) (lim : ℕ) (s : St) (f : ℕ) : Prop :=
  Mine K f ∨ ∃ t, mapGet (kmap s) (key f) = .ok (some (leBytes t)) ∧ Pool K lim s t f

structure AInv (K : Image) (lim : ℕ) (s : St) : Prop where
  tree : IsTree (entry s.mem) next K.root 3
  brk : K.miniheapStart ≤ s.brk ∧ s.brk ≤ K.miniheapEnd ∧ s.brk % 0x1000 = 0
  unused : ∀ f, Unused K s f → Spare K s f
  window : ∃ f₀, Open K s f₀
  cur : s.cur = none ∨ s.cur = some kspace
  addr : s.addr kspace = K.kpml4
  map : s.physmap kspace = some (kmap s) ∧ ∃ fm, Rep (kmap s) fm
  mine : ∀ f, Mine K f → mapGet (kmap s) (key f) = .ok none
  tabs : ∀ q f, q.length ≤ 3 → table s.mem K.root q = some f → Known K lim s f

/-- What a change to the memory must leave alone. -/
structure Still (K : Image) (lim : ℕ) (s s' : St) : Prop where
  tree : IsTree (entry s'.mem) next K.root 3
  old : ∀ q f, q.length ≤ 3 → table s.mem K.root q = some f → table s'.mem K.root q = some f
  pool : ∀ v e, K.kernEnd ≤ v → v < lim → leaf s.mem K.root v = some e →
    leaf s'.mem K.root v = some e
  unused : ∀ f, Unused K s f → entry s'.mem f = entry s.mem f
  brk : s'.brk = s.brk
  cur : s'.cur = s.cur
  addr : s'.addr = s.addr
  physmap : s'.physmap = s.physmap

lemma Still.trans {s₁ s₂ s₃ : St} (h : Still K lim s₁ s₂) (h' : Still K lim s₂ s₃) :
    Still K lim s₁ s₃ := by
  have hu : ∀ f, Unused K s₁ f → Unused K s₂ f := fun f hf => by
    unfold Unused at hf ⊢
    rwa [h.brk]
  exact ⟨h'.tree, fun q f hq hf => h'.old q f hq (h.old q f hq hf),
    fun v e h1 h2 hl => h'.pool v e h1 h2 (h.pool v e h1 h2 hl),
    fun f hf => (h'.unused f (hu f hf)).trans (h.unused f hf), h'.brk.trans h.brk,
    h'.cur.trans h.cur, h'.addr.trans h.addr, h'.physmap.trans h.physmap⟩

lemma Still.kmap_eq (h : Still K lim s s') : kmap s' = kmap s := by
  unfold kmap
  rw [h.physmap]

lemma Still.poolOf (h : Still K lim s s') (hp : Pool K lim s t f) : Pool K lim s' t f := by
  obtain ⟨e, hl, hpe⟩ := hp.maps
  have hb := hp.below
  exact hp.of_leaf ((h.pool t e hp.above (by omega) hl).trans hl.symm)

lemma Still.known (h : Still K lim s s') (hk : Known K lim s f) : Known K lim s' f := by
  rcases hk with hk | ⟨t, ht, hp⟩
  · exact Or.inl hk
  · exact Or.inr ⟨t, h.kmap_eq ▸ ht, h.poolOf hp⟩

/-- A change keeps the invariant if the tables it links in are known. -/
lemma AInv.still (h : AInv K lim s) (hs : Still K lim s s')
    (hnew : ∀ q f, q.length ≤ 3 → table s'.mem K.root q = some f →
      table s.mem K.root q = some f ∨ Known K lim s' f ∧ ¬ Unused K s f) : AInv K lim s' := by
  have hu : ∀ f, Unused K s' f → Unused K s f := fun f hf => by
    unfold Unused at hf ⊢
    rwa [hs.brk] at hf
  refine ⟨hs.tree, by rw [hs.brk]; exact h.brk, fun f hf => ⟨fun q hq hq' => ?_, fun j => ?_⟩, ?_,
    by rw [hs.cur]; exact h.cur, by rw [hs.addr]; exact h.addr,
    by rw [hs.physmap, hs.kmap_eq]; exact h.map, by rw [hs.kmap_eq]; exact h.mine,
    fun q f hq hf => ?_⟩
  · rcases hnew q f hq hq' with h1 | h1
    · exact (h.unused f (hu f hf)).1 q hq h1
    · exact h1.2 (hu f hf)
  · rw [hs.unused f (hu f hf)]
    exact (h.unused f (hu f hf)).2 j
  · obtain ⟨f₀, ho⟩ := h.window
    refine ⟨f₀, hs.tree, fun q f hq hf => ?_, hs.old _ _ (by simp [path]) ho.last⟩
    have hsome : (table s.mem K.root q).isSome := by
      obtain ⟨r, hr⟩ := hq
      have hl := ho.last
      rw [← hr] at hl
      exact walk_prefix (Option.isSome_iff_exists.mpr ⟨_, hl⟩)
    obtain ⟨g, hg⟩ := Option.isSome_iff_exists.mp hsome
    have := hs.old q g hq.length_le hg
    rw [hf, Option.some.injEq] at this
    exact this ▸ ho.tabs q g hq hg
  · rcases hnew q f hq hf with h1 | h1
    · exact hs.known (h.tabs q f hq h1)
    · exact h1.1

lemma AInv.unused_mine (h : AInv K lim s) (hu : Unused K s f) : Mine K f := by
  have hb := h.brk
  have ho := K.order
  have hs : K.miniheapStart = K.pageTmp + 0x1000 := rfl
  have he : K.kernEnd = K.miniheapEnd := rfl
  unfold Unused at hu
  unfold Mine
  omega

/-! ### The changes -/

lemma AInv.still_handed {words : ℕ → ℕ} {bs : List Block} (h : AInv K lim s) (hm : ¬ Mine K f)
    (hf : ∀ q, q.length ≤ 3 → table s.mem K.root q ≠ some f) :
    Still K lim s (handed s f words bs) := by
  refine ⟨h.tree.congr fun q hq => walk_handed hf hq, fun q g hq hg => ?_, fun v e _ _ hl => ?_,
    fun g hg => ?_, rfl, rfl, rfl, rfl⟩
  · rw [walk_handed hf hq, hg]
  · rw [leaf_handed hf, hl]
  · rw [entry_handed, if_neg]
    rintro rfl
    exact hm (h.unused_mine hg)

lemma AInv.still_moved (h : AInv K lim s) (ho : Open K s f₀) (hlim : lim ≤ 2 ^ 64) (g : ℕ) :
    Still K lim s (moved K s f₀ g) := by
  refine ⟨(ho.moved g).tree, fun q f hq hf => ?_, fun v e h1 h2 hl => ?_, fun f hf => ?_, rfl, rfl,
    rfl, rfl⟩
  · rw [walk_moved ho hq, hf]
  · rw [leaf_moved ho (above_ne_window h1 (by omega)), hl]
  · rw [moved, entry_setEntry, put_table]
    rintro rfl
    exact (h.unused f hf).1 _ (by simp [path]) ho.last

/-- The pages that may be mapped next. -/
def Above (lim v : ℕ) : Prop := lim ≤ v ∧ v < 2 ^ 64

lemma AInv.still_put {x : ℕ} (h : AInv K lim s) (hlim : K.kernEnd ≤ lim ∧ lim % 0x1000 = 0)
    (hv : Above lim v) (hf : table s.mem K.root (path v) = some f) :
    Still K lim s (setEntry s f (index 0 v) x) ∧
      ∀ q, q.length ≤ 3 → table (setEntry s f (index 0 v) x).mem K.root q = table s.mem K.root q := by
  have hw : ∀ q, q.length ≤ 3 → table (setEntry s f (index 0 v) x).mem K.root q =
      table s.mem K.root q := fun q hq => by
    rw [table, entry_setEntry]
    exact h.tree.walk_put rfl hf hq
  refine ⟨⟨h.tree.congr hw, fun q g hq hg => by rw [hw q hq, hg], fun u e h1 h2 hl => ?_,
    fun g hg => ?_, rfl, rfl, rfl, rfl⟩, hw⟩
  · rw [leaf_put h.tree hf, if_neg, hl]
    intro he
    have hor := K.order
    have hk : K.kernEnd = K.pageTmp + 0x1000 + 0x64000 := rfl
    have hv' := hv
    unfold Above at hv'
    have := vpage_inj (K := K) (by omega) (by omega) (by omega) (by omega) he
    omega
  · rw [entry_setEntry, put_table]
    rintro rfl
    exact (h.unused g hg).1 _ (by simp [path]) hf

lemma AInv.still_link {p : List (Fin 512)} {i : Fin 512} (h : AInv K lim s) (hp : p.length < 3)
    (hf : table s.mem K.root p = some f) (hnone : next (entry s.mem f i) = none)
    (hg : g * 0x1000 < 2 ^ 63) (hs : Spare K s g) :
    Still K lim s (setEntry s f i (g * 0x1000 ||| topFlags)) ∧
      ∀ q h, q.length ≤ 3 → table (setEntry s f i (g * 0x1000 ||| topFlags)).mem K.root q = some h →
        table s.mem K.root q = some h ∨ h = g := by
  have hempty : p.length + 1 < 3 → ∀ j, next (entry s.mem g j) = none :=
    fun _ j => next_eq_none.mpr (hs.2 j)
  have hw : ∀ q, q.length ≤ 3 → table (setEntry s f i (g * 0x1000 ||| topFlags)).mem K.root q =
      if q = p ++ [i] then some g else table s.mem K.root q := fun q hq => by
    rw [table, entry_setEntry]
    exact h.tree.walk_link hp hf hnone (next_link hg) hs.1 hempty hq
  refine ⟨⟨?_, fun q h' hq hq' => ?_, fun v e _ _ hl => ?_, fun f' hf' => ?_, rfl, rfl, rfl, rfl⟩,
    fun q h' hq hq' => ?_⟩
  · rw [entry_setEntry]
    exact h.tree.link hp hf hnone (next_link hg) hs.1 hempty
  · rw [hw q hq, if_neg, hq']
    rintro rfl
    rw [table, walk_concat_of hf, hnone] at hq'
    cases hq'
  · have := leaf_link (u := v) h.tree hp hf hnone hg hs.1 hs.2
    rw [hl] at this
    exact this.some
  · rw [entry_setEntry, put_table]
    rintro rfl
    exact (h.unused f' hf').1 p (by omega) hf
  · rw [hw q hq] at hq'
    split at hq'
    · exact Or.inr (Option.some.inj hq').symm
    · exact Or.inl hq'

/-! ### Pages to come -/

/-- The entries go into the map one after the other without meeting one of its slips. -/
def FitsAll : Map → List (Bytes × Bytes) → Prop
  | _, [] => True
  | m, (k, v) :: l => Fits m (.set k v) ∧ ∀ m', mapInsert m k v = .ok m' → FitsAll m' l

/-- The blocks that `page_alloc` is about to hand out for tables: mapped pages of the pools that
are in no use, without a present entry in them. -/
structure Stock (K : Image) (lim : ℕ) (s : St) (bs : List Block) : Prop where
  ok : ∀ b ∈ bs, ∃ f, Pool K lim s b.virt f ∧ ¬ Mine K f ∧
    (∀ q, q.length ≤ 3 → table s.mem K.root q ≠ some f) ∧ mapGet (kmap s) (key f) = .ok none ∧
    ∀ j : Fin 512, present (b.words j) = false
  apart : bs.Pairwise fun b c => physOf K s b ≠ physOf K s c
  fits : FitsAll (kmap s) (bs.map fun b => (leBytes (physOf K s b), leBytes b.virt))

lemma Mine.frame_lt (h : Mine K f) : f * 0x1000 < 2 ^ 63 := by
  have hp := K.physical_end
  have hk : K.kernEnd = K.pageTmp + 0x1000 + 0x64000 := rfl
  obtain ⟨h1, h2, -⟩ := h
  omega

lemma Known.frame_lt (h : Known K lim s f) : f * 0x1000 < 2 ^ 63 := by
  rcases h with h | ⟨t, -, h⟩
  · exact Mine.frame_lt h
  · exact Pool.frame_lt h

lemma key_inj (hf : f * 0x1000 < 2 ^ 63) (hg : g * 0x1000 < 2 ^ 63) (h : key f = key g) : f = g :=
  leBytes_frame_inj hf hg h

lemma Stock.still {bs : List Block} (h : Stock K lim s bs) (hs : Still K lim s s')
    (hnew : ∀ q f, q.length ≤ 3 → table s'.mem K.root q = some f →
      table s.mem K.root q = some f ∨ ∀ b ∈ bs, physOf K s b ≠ f * 0x1000) : Stock K lim s' bs := by
  have hphys : ∀ b ∈ bs, physOf K s' b = physOf K s b := by
    intro b hb
    obtain ⟨f, hp, -⟩ := h.ok b hb
    rw [physOf_eq hp, physOf_eq (hs.poolOf hp)]
  refine ⟨fun b hb => ?_, ?_, ?_⟩
  · obtain ⟨f, hp, hm, hr, hk, hj⟩ := h.ok b hb
    refine ⟨f, hs.poolOf hp, hm, fun q hq hq' => ?_, by rw [hs.kmap_eq]; exact hk, hj⟩
    rcases hnew q f hq hq' with h1 | h1
    · exact hr q hq h1
    · exact h1 b hb (physOf_eq hp)
  · refine h.apart.imp_of_mem fun hb hc hbc => ?_
    rw [hphys _ hb, hphys _ hc]
    exact hbc
  · rw [hs.kmap_eq, List.map_congr_left (g := fun b => (leBytes (physOf K s b), leBytes b.virt))]
    · exact h.fits
    · intro b hb
      rw [hphys b hb]

/-! ### A new table noted -/

/-- The map of `kspace` with one more key. -/
lemma AInv.noted {m : Map} (h : AInv K lim s) (hg : ¬ Mine K g) (hglt : g * 0x1000 < 2 ^ 63)
    (hr : ∀ q, q.length ≤ 3 → table s.mem K.root q ≠ some g) (hrep : ∃ fm, Rep m fm)
    (hother : ∀ f, f * 0x1000 < 2 ^ 63 → f ≠ g → mapGet m (key f) = mapGet (kmap s) (key f)) :
    AInv K lim (setPhysmap kspace s m) := by
  have hk : kmap (setPhysmap kspace s m) = m := by simp [kmap, setPhysmap]
  refine ⟨h.tree, h.brk, h.unused, ?_, h.cur, h.addr, ?_, fun f hf => ?_, fun q f hq hf => ?_⟩
  · obtain ⟨f₀, ho⟩ := h.window
    exact ⟨f₀, ho.tree, ho.tabs, ho.last⟩
  · rw [hk]
    exact ⟨by simp [setPhysmap], hrep⟩
  · rw [hk, hother f (Mine.frame_lt hf) (by rintro rfl; exact hg hf)]
    exact h.mine f hf
  · have hkn := h.tabs q f hq hf
    have hne : f ≠ g := by
      rintro rfl
      exact hr q hq hf
    rcases hkn with hm | ⟨t, ht, hp⟩
    · exact Or.inl hm
    · refine Or.inr ⟨t, ?_, hp.of_leaf rfl⟩
      rw [hk, hother f (Pool.frame_lt hp) hne]
      exact ht

/-- Inserting the key of a frame that is not in the map. -/
lemma insert_key {m : Map} {fm : Bytes → Option Bytes} {val : Bytes} (h : Rep m fm)
    (hk : mapGet m (key g) = .ok none) (hfit : Fits m (.set (key g) val)) :
    ∃ m', mapInsert m (key g) val = .ok m' ∧ (∃ fm', Rep m' fm') ∧
      mapGet m' (key g) = .ok (some val) ∧
      (∀ k, k ≠ key g → mapGet m' k = mapGet m k) := by
  have hnone : fm (key g) = none := by
    rw [h.get, Except.ok.injEq] at hk
    exact hk
  have hno : ∀ j, keyAt m j ≠ some (key g) := by
    intro j hj
    obtain ⟨x, hx, hxe⟩ := Option.map_eq_some_iff.mp hj
    obtain ⟨-, -, v, -, hv⟩ := h.cells j x hx
    rw [hxe, hnone] at hv
    cases hv
  obtain ⟨⟨i, hi, hik⟩, hz⟩ := hfit
  have hroom : ∃ j < m.cap, keyAt m j = none := ⟨i, hi, hik.resolve_right (hno i)⟩
  obtain ⟨m', hins, -, hrep⟩ := h.insert (v := val) hno hroom hz
  refine ⟨m', hins, ⟨_, hrep⟩, ?_, fun k hne => ?_⟩
  · rw [hrep.get]
    simp
  · rw [hrep.get, h.get]
    simp [hne]

/-! ### `map_pages` on `kspace` -/

/-- A table of the kernel is seen in the image or through a page of the pools. -/
def Seen (K : Image) (lim : ℕ) (s : St) (t f : ℕ) : Prop :=
  Mine K f ∧ t = K.physk2vk (f * 0x1000) ∨ Pool K lim s t f

/-- A frame that was taken and noted, and is to be linked in. -/
structure Taken (K : Image) (lim : ℕ) (s : St) (g : ℕ) : Prop where
  lt : g * 0x1000 < 2 ^ 63
  spare : Spare K s g
  notMine : ¬ Mine K g
  known : Known K lim s g
  apart : ∀ b ∈ s.supply, physOf K s b ≠ g * 0x1000

lemma tabGet_known (h : AInv K lim s) (hk : Known K lim s f) :
    ∃ t, tabGet K kspace (f * 0x1000) s = .ok t ∧ Seen K lim s t f := by
  rcases hk with hm | ⟨t, ht, hp⟩
  · have hg := h.mine f hm
    rw [key] at hg
    refine ⟨_, ?_, Or.inl ⟨hm, rfl⟩⟩
    simp only [tabGet, h.map.1, hg, bind, Except.bind, if_true]
    rfl
  · rw [key] at ht
    refine ⟨t, ?_, Or.inr hp⟩
    have hlt : t < 2 ^ 64 := by
      have h1 := hp.below
      have h2 := hp.bound
      omega
    simp only [tabGet, h.map.1, ht, bind, Except.bind]
    rw [List.take_of_length_le (by rw [leBytes_length]), ofLeBytes_leBytes hlt]
    rfl

/-- A page is filled and then the window is moved: neither touches a table. -/
structure Paged (K : Image) (lim : ℕ) (s s₂ : St) (f : ℕ) (words : ℕ → ℕ) : Prop where
  still : Still K lim s s₂
  walk : ∀ q, q.length ≤ 3 → table s₂.mem K.root q = table s.mem K.root q
  leaves : ∀ v, vpage v ≠ vpage K.pageTmp → leaf s₂.mem K.root v = leaf s.mem K.root v
  page : ∀ j, entry s₂.mem f j = words j
  inner : ∀ q f', q.length < 3 → table s.mem K.root q = some f' → entry s₂.mem f' = entry s.mem f'

lemma AInv.paged {words : ℕ → ℕ} {bs : List Block} (h : AInv K lim s) (hlim : lim ≤ 2 ^ 64)
    (ho : Open K s f₀) (hm : ¬ Mine K f) (hr : ∀ q, q.length ≤ 3 → table s.mem K.root q ≠ some f)
    (g : ℕ) : Paged K lim s (moved K (handed s f words bs) f₀ g) f words := by
  have hh : Still K lim s (handed s f words bs) := h.still_handed hm hr
  have ho₁ := Open.handed words bs ho hr
  have hA₁ : AInv K lim (handed s f words bs) := h.still hh fun q f' hq hf' => by
    rw [walk_handed hr hq] at hf'
    exact Or.inl hf'
  have hff₀ : f ≠ f₀ := by
    rintro rfl
    exact hr _ (by simp [path]) ho.last
  refine ⟨hh.trans (hA₁.still_moved ho₁ hlim g), fun q hq => ?_, fun v hv => ?_, fun j => ?_,
    fun q f' hq hf' => ?_⟩
  · rw [walk_moved ho₁ hq, walk_handed hr hq]
  · rw [leaf_moved ho₁ hv, leaf_handed hr]
  · rw [moved, entry_setEntry, put_table hff₀, entry_handed, if_pos rfl]
  · have hne : f' ≠ f := by
      rintro rfl
      exact hr q (by omega) hf'
    rw [entry_moved ho₁ hq (by rw [walk_handed hr (by omega), hf']), entry_handed, if_neg hne]

/-- `tab_new` on `kspace`: the page is noted and nothing else of the invariant moves. -/
lemma tabNew_spec (hlim : lim ≤ 2 ^ 64) (h : AInv K lim s) (hst : Stock K lim s s.supply) :
    OrStops .panic (tabNew K kspace s) fun r => ∃ g, r.1 = g * 0x1000 ∧ AInv K lim r.2 ∧
      Stock K lim r.2 r.2.supply ∧ Taken K lim r.2 g ∧ (∀ t f, Pool K lim s t f → Pool K lim r.2 t f) ∧
      (∀ q f, q.length < 3 → table s.mem K.root q = some f → entry r.2.mem f = entry s.mem f) ∧
      ∀ v, vpage v ≠ vpage K.pageTmp → leaf r.2.mem K.root v = leaf s.mem K.root v := by
  cases hs : s.supply with
  | nil =>
    refine Or.inl ?_
    simp only [tabNew, pageAlloc, hs]
    rfl
  | cons b bs =>
    rw [hs] at hst
    obtain ⟨f, hp, hm, hr, hk, hw⟩ := hst.ok b (by simp)
    obtain ⟨f₀, ho⟩ := h.window
    have hlt := Pool.frame_lt hp
    have hA₁ : AInv K lim (handed s f b.words bs) :=
      h.still (h.still_handed hm hr) fun q f' hq hf' => by
        rw [walk_handed hr hq] at hf'
        exact Or.inl hf'
    obtain ⟨g, hnew⟩ := tabNew_eq ho hs hp hr (top_kspace hA₁.cur hA₁.addr b.virt).leads
    have hpg : Paged K lim s (moved K (handed s f b.words bs) f₀ g) f b.words := h.paged hlim ho hm hr g
    obtain ⟨s₂, hs₂⟩ : ∃ s₂, s₂ = moved K (handed s f b.words bs) f₀ g := ⟨_, rfl⟩
    have hsup : s₂.supply = bs := by rw [hs₂]; rfl
    rw [← hs₂] at hpg hnew
    have hA₂ := h.still hpg.still fun q f' hq hf' => Or.inl (hpg.walk q hq ▸ hf')
    have hS₂ := hst.still hpg.still fun q f' hq hf' => Or.inl (hpg.walk q hq ▸ hf')
    have hbs := List.pairwise_cons.mp hS₂.apart
    have hp₂ := hpg.still.poolOf hp
    rw [physOf_eq hp₂] at hbs
    -- the map takes the new key
    obtain ⟨fm, hrep⟩ := h.map.2
    have hfits := hst.fits
    rw [List.map_cons, FitsAll, physOf_eq hp] at hfits
    obtain ⟨m', hins, hrep', hget, hoth⟩ := insert_key hrep hk hfits.1
    have hkm : kmap s₂ = kmap s := hpg.still.kmap_eq
    have hkm' : kmap (setPhysmap kspace s₂ m') = m' := by simp [kmap, setPhysmap]
    have hr₂ : ∀ q, q.length ≤ 3 → table s₂.mem K.root q ≠ some f :=
      fun q hq hf' => hr q hq (hpg.walk q hq ▸ hf')
    have hoth' : ∀ f', f' * 0x1000 < 2 ^ 63 → f' ≠ f → mapGet m' (key f') = mapGet (kmap s₂) (key f') :=
      fun f' h1 h2 => by rw [hoth _ fun e => h2 (key_inj h1 hlt e), hkm]
    rw [key] at hins
    rw [hnew kspace (kmap s) h.map.1, hins]
    refine OrStops.ok ⟨f, rfl, hA₂.noted hm hlt hr₂ hrep' hoth', ⟨fun c hc => ?_, ?_, ?_⟩,
      ⟨hlt, ⟨hr₂, fun j => ?_⟩, hm, Or.inr ⟨b.virt, ?_, hp₂.of_leaf rfl⟩, fun c hc => ?_⟩,
      fun t f' hp' => (hpg.still.poolOf hp').of_leaf rfl, hpg.inner, hpg.leaves⟩
    · have hc' : c ∈ bs := hsup ▸ hc
      obtain ⟨f', hp', hm', hr', hk', hw'⟩ := hS₂.ok c (List.mem_cons_of_mem _ hc')
      have hne : f' ≠ f := by
        rintro rfl
        exact hbs.1 c hc' (physOf_eq hp').symm
      refine ⟨f', hp'.of_leaf rfl, hm', hr', ?_, hw'⟩
      rw [hkm', hoth' f' (Pool.frame_lt hp') hne]
      exact hk'
    · rw [show (setPhysmap kspace s₂ m').supply = bs from hsup]
      exact hbs.2
    · have h2 := hS₂.fits
      rw [List.map_cons, FitsAll, physOf_eq hp₂, hkm] at h2
      rw [hkm', show (setPhysmap kspace s₂ m').supply = bs from hsup]
      exact h2.2 m' hins
    · rw [show entry (setPhysmap kspace s₂ m').mem f j = entry s₂.mem f j from rfl, hpg.page]
      exact hw j
    · rw [hkm']
      exact hget
    · exact (hbs.1 c (hsup ▸ hc)).symm

lemma spaceWalker_law (hlim : K.kernEnd ≤ lim ∧ lim % 0x1000 = 0 ∧ lim ≤ 2 ^ 64) :
    Law K (spaceWalker K kspace) K.root (fun s => AInv K lim s ∧ Stock K lim s s.supply)
      (Seen K lim) (Taken K lim) (Above lim) (fun v => vpage v = vpage K.pageTmp) where
  tree h := h.1.tree
  seen := by
    rintro s t f - (⟨hm, rfl⟩ | hp)
    · exact hm.at
    · exact hp.at
  get := by
    intro s v p f h _ hp _ hf
    obtain ⟨t, ht, hs⟩ := tabGet_known h.1 (h.1.tabs p f hp.length_le hf)
    exact Or.inr ⟨t, ht, hs⟩
  new := by
    intro s h
    refine (tabNew_spec hlim.2.2 h.1 h.2).mono ?_
    rintro r ⟨g, h1, h2, h3, h4, h5, h6, h7⟩
    exact ⟨g, h1, ⟨h2, h3⟩, h4, fun t f ht => ht.imp id (h5 t f), h6, h7⟩
  fresh := by
    rintro s g - h
    exact ⟨h.lt, h.spare⟩
  link := by
    intro s g p t f i h hg _ hp hf hnone
    obtain ⟨hst, hw⟩ := h.1.still_link hp hf hnone hg.lt hg.spare
    refine ⟨⟨h.1.still hst fun q f' hq hf' => ?_, h.2.still hst fun q f' hq hf' => ?_⟩,
      fun t f' ht => ht.imp id hst.poolOf⟩
    · refine (hw q f' hq hf').imp id ?_
      rintro rfl
      exact ⟨hst.known hg.known, fun hu => hg.notMine (h.1.unused_mine hu)⟩
    · refine (hw q f' hq hf').imp id ?_
      rintro rfl
      exact hg.apart
  put := by
    intro s t v f x h hv _ hf
    obtain ⟨hst, hw⟩ := h.1.still_put (x := x) ⟨hlim.1, hlim.2.1⟩ hv hf
    exact ⟨h.1.still hst fun q f' hq hf' => Or.inl (hw q hq ▸ hf'),
      h.2.still hst fun q f' hq hf' => Or.inl (hw q hq ▸ hf')⟩

/-! ### `premap_pages` among tables of both kinds -/

lemma window_lt : K.virtualBase ≤ K.pageTmp ∧ K.pageTmp < K.kernEnd := by
  have ho := K.order
  have hk' : K.kernEnd = K.pageTmp + 0x1000 + 0x64000 := rfl
  omega

lemma AInv.mono (h : AInv K lim s) {lim' : ℕ} (hl : lim ≤ lim') (hl' : lim' ≤ 2 ^ 64) :
    AInv K lim' s := by
  refine ⟨h.tree, h.brk, h.unused, h.window, h.cur, h.addr, h.map, h.mine, fun q f hq hf => ?_⟩
  rcases h.tabs q f hq hf with hm | ⟨t, ht, hp⟩
  · exact Or.inl hm
  · exact Or.inr ⟨t, ht, hp.aligned, hp.above, hp.below.trans hl, hl', hp.maps⟩

/-- `end_pos` and the pages to come are not part of the tables. -/
lemma AInv.still_rest (h : AInv K lim s) (e : ℕ) (bs : List Block) :
    Still K lim s { s with endPos := e, supply := bs } :=
  ⟨h.tree, fun _ _ _ hf => hf, fun _ _ _ _ hl => hl, fun _ _ => rfl, rfl, rfl, rfl, rfl⟩

lemma AInv.rest (h : AInv K lim s) (e : ℕ) (bs : List Block) :
    AInv K lim { s with endPos := e, supply := bs } :=
  h.still (h.still_rest e bs) fun _ _ _ hf => Or.inl hf

/-- Tables of the image only, or as they were. -/
def OldOrMine (K : Image) (s : St) (q : List (Fin 512)) (f : ℕ) : Prop :=
  table s.mem K.root q = some f ∨ Mine K f

/-- `premap_pages` above `end_pos`, among tables of both kinds. -/
lemma AInv.premapped {n dst src flags : ℕ} (h : AInv K lim s) (hk : KInv K (OldOrMine K s) s s')
    (hm : Maps K.root (fun _ => False) dst src flags n s s')
    (hdst : ∀ k < n, ∀ v, K.virtualBase ≤ v → v < lim → vpage v ≠ vpage (dst + k * 0x1000))
    (hlim : K.kernEnd ≤ lim) : AInv K lim s' := by
  have hleaf : ∀ v e, K.virtualBase ≤ v → v < lim → leaf s.mem K.root v = some e →
      leaf s'.mem K.root v = some e := by
    intro v e h1 h2 hl
    have := hm.others v (fun k hk => hdst k hk v h1 h2) id
    rw [hl] at this
    exact this.some
  have hrest := hk.rest
  have hmap : kmap s' = kmap s := by rw [hrest]; rfl
  have hpm : s'.physmap = s.physmap := by rw [hrest]
  have hbase : K.virtualBase ≤ K.kernEnd := window_lt.1.trans window_lt.2.le
  obtain ⟨f₀, ho⟩ := h.window
  refine ⟨hk.tree, hk.brk, hk.unused, ?_, by rw [hrest]; exact h.cur, by rw [hrest]; exact h.addr,
    by rw [hpm, hmap]; exact h.map, by rw [hmap]; exact h.mine, fun q f hq hf => ?_⟩
  · have hl := hleaf _ _ window_lt.1 (window_lt.2.trans_le hlim) (leaf_of_table ho.last)
    obtain ⟨f₁, hf₁, -⟩ := leaf_eq_some hl
    refine ⟨f₁, hk.tree, fun q f hq hf => ?_, hf₁⟩
    rcases hk.tabs q f hq.length_le hf with h1 | h1
    · exact ho.tabs q f hq h1
    · exact h1
  · rcases hk.tabs q f hq hf with h1 | h1
    · rcases h.tabs q f hq h1 with h2 | ⟨t, ht, hp⟩
      · exact Or.inl h2
      · obtain ⟨e, hl, hpe⟩ := hp.maps
        have ha := hp.above
        have hb := hp.below
        refine Or.inr ⟨t, by rw [hmap]; exact ht, hp.of_leaf ?_⟩
        rw [hl]
        exact hleaf t e (by omega) (by omega) hl
    · exact Or.inl h1

lemma AInv.kinv (h : AInv K lim s) : KInv K (OldOrMine K s) s s :=
  ⟨h.tree, fun _ _ _ hf => Or.inl hf, h.brk, h.unused, rfl⟩

end Silkware.Anon
