import Silkware.TabNew
import Silkware.HashMapSound

/-!
The address space of a new process, while `map_pages` fills it.

Its tables are pages of the pools that are no tables of the kernel. Writing them leaves the
kernel's own map alone, so the pages through which they are seen stay where they are. Nothing is
assumed here about what was in the pages before.
-/

namespace Silkware.ProcSpace

open Silkware.Kern Silkware.Radix Silkware.HashMap Silkware.HashMapSound Silkware.Paging
open Silkware.Outcome Silkware.PageTables Silkware.MapLoop Silkware.Premap Silkware.Window
open Silkware.TabNew

variable {K : Image} {s s' : St} {f f₀ g lim sp t v x R : ℕ} {i j : Fin 512} {q : List (Fin 512)}

/-- The frame holds no table of the kernel. -/
def KFree (K : Image) (s : St) (f : ℕ) : Prop := ∀ q, q.length ≤ 3 → table s.mem K.root q ≠ some f

/-- The kernel runs in its own space, with the window mapped. -/
structure KernOk (K : Image) (s : St) : Prop where
  window : ∃ f₀, Open K s f₀
  cur : s.cur = none ∨ s.cur = some kspace
  addr : s.addr kspace = K.kpml4

lemma KernOk.topOf (h : KernOk K s) (v : ℕ) : Top K s s.cur v := top_kspace h.cur h.addr v

/-- A page of the space's tables: handed out, no table of the kernel and not the top one. -/
structure Live (K : Image) (lim R : ℕ) (s : St) (t f : ℕ) : Prop where
  pool : Pool K lim s t f
  ne : f ≠ R
  free : KFree K s f
  gone : ∀ b ∈ s.supply, physOf K s b ≠ f * 0x1000

/-- The pages to be handed out are mapped pages of the pools, each other's different, and in no
use. -/
structure Supply (K : Image) (lim : ℕ) (s : St) : Prop where
  pages : ∀ b ∈ s.supply, ∃ f, Pool K lim s b.virt f ∧ KFree K s f
  apart : s.supply.Pairwise fun b c => physOf K s b ≠ physOf K s c

structure PInv (K : Image) (lim sp R : ℕ) (s : St) : Prop where
  kern : KernOk K s
  supply : Supply K lim s
  top : Pool K lim s (s.addr sp) R
  topFree : KFree K s R
  topGone : ∀ b ∈ s.supply, physOf K s b ≠ R * 0x1000
  map : ∃ m, s.physmap sp = some m ∧ Sound (fun k v => ∃ t f, k = leBytes (f * 0x1000) ∧
    v = leBytes t ∧ Live K lim R s t f) m

/-! ### Changes outside memory -/

lemma KFree.of_mem (h : KFree K s f) (hm : s'.mem = s.mem) : KFree K s' f := by
  unfold KFree
  rw [hm]
  exact h

lemma KernOk.of_mem (h : KernOk K s) (hm : s'.mem = s.mem) (hc : s'.cur = none ∨ s'.cur = some kspace)
    (ha : s'.addr kspace = s.addr kspace) : KernOk K s' := by
  obtain ⟨f₀, ho⟩ := h.window
  exact ⟨⟨f₀, by rw [hm]; exact ho.tree, by rw [hm]; exact ho.tabs, by rw [hm]; exact ho.last⟩, hc,
    ha.trans h.addr⟩

lemma physOf_of_mem (hm : s'.mem = s.mem) (b : Block) : physOf K s' b = physOf K s b := by
  rw [physOf, physOf, hm]

lemma Supply.of_mem (h : Supply K lim s) (hm : s'.mem = s.mem) (hs : s'.supply = s.supply) :
    Supply K lim s' := by
  refine ⟨fun b hb => ?_, ?_⟩
  · obtain ⟨f, hp, hf⟩ := h.pages b (hs ▸ hb)
    exact ⟨f, hp.of_leaf (by rw [hm]), hf.of_mem hm⟩
  · rw [hs]
    exact h.apart.imp fun hbc => by rwa [physOf_of_mem hm, physOf_of_mem hm]

lemma Live.of_mem (h : Live K lim R s t f) (hm : s'.mem = s.mem) (hs : s'.supply = s.supply) :
    Live K lim R s' t f :=
  ⟨h.pool.of_leaf (by rw [hm]), h.ne, h.free.of_mem hm, fun b hb => by
    rw [physOf_of_mem hm]
    exact h.gone b (hs ▸ hb)⟩

lemma PInv.of_mem (h : PInv K lim sp R s) (hm : s'.mem = s.mem) (hc : s'.cur = none ∨ s'.cur = some kspace)
    (ha : s'.addr = s.addr) (hs : s'.supply = s.supply) (hp : s'.physmap = s.physmap) :
    PInv K lim sp R s' := by
  obtain ⟨m, hmap, hsound⟩ := h.map
  refine ⟨h.kern.of_mem hm hc (by rw [ha]), h.supply.of_mem hm hs, by rw [ha]; exact h.top.of_leaf (by rw [hm]),
    h.topFree.of_mem hm, fun b hb => ?_, m, by rw [hp, hmap], hsound.mono ?_⟩
  · rw [physOf_of_mem hm]
    exact h.topGone b (hs ▸ hb)
  · rintro k v ⟨t, f, hk, hv, hl⟩
    exact ⟨t, f, hk, hv, hl.of_mem hm hs⟩

/-! ### Changes the kernel's tables do not see -/

structure Quiet (K : Image) (lim : ℕ) (s s' : St) : Prop where
  walk : ∀ q, q.length ≤ 3 → table s'.mem K.root q = table s.mem K.root q
  pool : ∀ v, K.kernEnd ≤ v → v < lim → leaf s'.mem K.root v = leaf s.mem K.root v
  cur : s'.cur = s.cur
  addr : s'.addr = s.addr
  large : s'.large = s.large
  supply : s'.supply.Sublist s.supply

lemma Quiet.refl (s : St) : Quiet K lim s s :=
  ⟨fun _ _ => rfl, fun _ _ _ => rfl, rfl, rfl, rfl, List.Sublist.refl _⟩

lemma Quiet.trans {s₁ s₂ s₃ : St} (h1 : Quiet K lim s₁ s₂) (h2 : Quiet K lim s₂ s₃) :
    Quiet K lim s₁ s₃ :=
  ⟨fun q hq => (h2.walk q hq).trans (h1.walk q hq),
    fun v hv hv' => (h2.pool v hv hv').trans (h1.pool v hv hv'), h2.cur.trans h1.cur,
    h2.addr.trans h1.addr, h2.large.trans h1.large, h2.supply.trans h1.supply⟩

lemma Quiet.poolOf (h : Quiet K lim s s') (hp : Pool K lim s t f) : Pool K lim s' t f := by
  have hb := hp.below
  exact hp.of_leaf (h.pool t hp.above (by omega))

lemma Quiet.kfree (h : Quiet K lim s s') (hf : KFree K s f) : KFree K s' f :=
  fun q hq hq' => hf q hq (h.walk q hq ▸ hq')

lemma Quiet.phys {b : Block} (h : Quiet K lim s s') (hp : Pool K lim s b.virt f) :
    physOf K s' b = physOf K s b := by
  rw [physOf_eq hp, physOf_eq (h.poolOf hp)]

lemma Quiet.kern (h : Quiet K lim s s') (hk : KernOk K s) : KernOk K s' := by
  obtain ⟨f₀, ho⟩ := hk.window
  refine ⟨⟨f₀, ho.tree.congr h.walk, fun q f hq hf => ?_, ?_⟩, by rw [h.cur]; exact hk.cur,
    by rw [h.addr]; exact hk.addr⟩
  · rw [h.walk q hq.length_le] at hf
    exact ho.tabs q f hq hf
  · rw [h.walk _ (by simp [path])]
    exact ho.last

lemma Quiet.supplyOf (h : Quiet K lim s s') (hs : Supply K lim s) : Supply K lim s' := by
  refine ⟨fun b hb => ?_, ?_⟩
  · obtain ⟨f, hp, hf⟩ := hs.pages b (h.supply.subset hb)
    exact ⟨f, h.poolOf hp, h.kfree hf⟩
  · refine (hs.apart.sublist h.supply).imp_of_mem fun {b c} hb hc hbc => ?_
    obtain ⟨f, hp, -⟩ := hs.pages b (h.supply.subset hb)
    obtain ⟨f', hp', -⟩ := hs.pages c (h.supply.subset hc)
    rw [h.phys hp, h.phys hp']
    exact hbc

/-- What is in no use before is in no use after. -/
lemma Quiet.gone (h : Quiet K lim s s') (hs : Supply K lim s)
    (hg : ∀ b ∈ s.supply, physOf K s b ≠ f * 0x1000) : ∀ b ∈ s'.supply, physOf K s' b ≠ f * 0x1000 := by
  intro b hb
  obtain ⟨f', hp, -⟩ := hs.pages b (h.supply.subset hb)
  rw [h.phys hp]
  exact hg b (h.supply.subset hb)

lemma Quiet.live (h : Quiet K lim s s') (hs : Supply K lim s) (hl : Live K lim R s t f) :
    Live K lim R s' t f :=
  ⟨h.poolOf hl.pool, hl.ne, h.kfree hl.free, h.gone hs hl.gone⟩

lemma PInv.quiet (h : PInv K lim sp R s) (hq : Quiet K lim s s') (hm : s'.physmap = s.physmap) :
    PInv K lim sp R s' := by
  obtain ⟨m, hmap, hsound⟩ := h.map
  refine ⟨hq.kern h.kern, hq.supplyOf h.supply, by rw [hq.addr]; exact hq.poolOf h.top,
    hq.kfree h.topFree, hq.gone h.supply h.topGone, m, by rw [hm, hmap], hsound.mono ?_⟩
  rintro k v ⟨t, f, hk, hv, hl⟩
  exact ⟨t, f, hk, hv, hq.live h.supply hl⟩

lemma walk_setEntry (hf : KFree K s f) (hq : q.length ≤ 3) :
    table (setEntry s f i x).mem K.root q = table s.mem K.root q := by
  refine walk_congr (d := 3) (fun q g hq hg => ?_) hq
  rw [entry_setEntry, put_table]
  rintro rfl
  exact hf q (by omega) hg

lemma leaf_setEntry (hf : KFree K s f) (v : ℕ) :
    leaf (setEntry s f i x).mem K.root v = leaf s.mem K.root v := by
  have hp := walk_setEntry (i := i) (x := x) hf (q := path v) (by simp [path])
  rw [table, table] at hp
  rw [leaf, look, leaf, look, hp]
  cases hc : walk (entry s.mem) next K.root (path v) with
  | none => rfl
  | some g =>
    rw [Option.map_some, Option.map_some, entry_setEntry, put_table]
    rintro rfl
    exact hf (path v) (by simp [path]) hc

lemma quiet_setEntry (hf : KFree K s f) : Quiet K lim s (setEntry s f i x) :=
  ⟨fun _ hq => walk_setEntry hf hq, fun v _ _ => leaf_setEntry hf v, rfl, rfl, rfl, List.Sublist.refl _⟩

lemma quiet_handed {words : ℕ → ℕ} {b : Block} {bs : List Block} (hs : s.supply = b :: bs)
    (hf : KFree K s f) : Quiet K lim s (handed s f words bs) :=
  ⟨fun _ hq => walk_handed hf hq, fun v _ _ => leaf_handed hf v, rfl, rfl, rfl,
    by rw [hs]; exact List.sublist_cons_self b bs⟩

lemma quiet_moved (ho : Open K s f₀) (hlim : lim ≤ 2 ^ 64) (g : ℕ) :
    Quiet K lim s (moved K s f₀ g) := by
  refine ⟨fun q hq => walk_moved ho hq, fun v h1 h2 => leaf_moved ho ?_, rfl, rfl, rfl,
    List.Sublist.refl _⟩
  exact above_ne_window h1 (by omega)

/-! ### The walker of the space -/

/-- A table of the space, and a page that shows it. -/
def Shown (K : Image) (lim sp R : ℕ) (s : St) (t f : ℕ) : Prop :=
  t = s.addr sp ∧ f = R ∨ Live K lim R s t f

lemma Shown.at (h : PInv K lim sp R s) (hs : Shown K lim sp R s t f) : At K s t f := by
  rcases hs with ⟨rfl, rfl⟩ | hl
  · exact h.top.at
  · exact hl.pool.at

lemma Shown.kfree (h : PInv K lim sp R s) (hs : Shown K lim sp R s t f) : KFree K s f := by
  rcases hs with ⟨-, rfl⟩ | hl
  · exact h.topFree
  · exact hl.free

lemma Quiet.shown (h : PInv K lim sp R s) (hq : Quiet K lim s s') (hs : Shown K lim sp R s t f) :
    Shown K lim sp R s' t f := by
  rcases hs with ⟨rfl, rfl⟩ | hl
  · exact Or.inl ⟨by rw [hq.addr], rfl⟩
  · exact Or.inr (hq.live h.supply hl)

/-- `tab_get` returns a page that shows the table, or panics. -/
lemma PInv.tabGet (h : PInv K lim sp R s) (hsp : sp ≠ kspace) (hf : f * 0x1000 < 2 ^ 63) :
    OrStops .panic (tabGet K sp (f * 0x1000) s) fun t => Live K lim R s t f := by
  obtain ⟨m, hm, hsound⟩ := h.map
  simp only [Paging.tabGet, hm]
  rcases hsound.get (leBytes_length (f * 0x1000)) with hg | ⟨v, hg, t, f', hk, rfl, hl⟩
  · simp only [hg, bind, Except.bind, if_neg hsp]
    exact OrStops.stop
  · have ht : t < 2 ^ 64 := by
      have h1 := hl.pool.below
      have h2 := hl.pool.bound
      omega
    obtain rfl := leBytes_frame_inj hf (Pool.frame_lt hl.pool) hk
    simp only [hg, bind, Except.bind]
    rw [List.take_of_length_le (by rw [leBytes_length]), ofLeBytes_leBytes ht]
    exact OrStops.ok hl

/-- The state after a new table was taken and noted. -/
structure NewTab (K : Image) (lim sp R : ℕ) (s s' : St) (g : ℕ) : Prop where
  inv : PInv K lim sp R s'
  live : ∃ t, Live K lim R s' t g
  quiet : Quiet K lim s s'
  taken : ∃ b ∈ s.supply, physOf K s b = g * 0x1000 ∧ ∀ j : Fin 512, entry s'.mem g j = b.words j
  tables : ∀ h, h ≠ g → KFree K s h → entry s'.mem h = entry s.mem h
  moved : ∃ f₀ g' words bs, Open K s f₀ ∧ s'.mem = (moved K (handed s g words bs) f₀ g').mem

/-- The page that is handed out next, once it is gone from the supply. -/
lemma PInv.nextLive {b : Block} {bs : List Block} (h : PInv K lim sp R s) (hs : s.supply = b :: bs)
    (hp : Pool K lim s b.virt f) (hf : KFree K s f) (hq : Quiet K lim s s') (hs' : s'.supply = bs) :
    Live K lim R s' b.virt f := by
  have hphys := physOf_eq hp
  refine ⟨hq.poolOf hp, ?_, hq.kfree hf, fun c hc => ?_⟩
  · rintro rfl
    exact h.topGone b (by rw [hs]; simp) hphys
  · rw [hs'] at hc
    have hap := h.supply.apart
    rw [hs, List.pairwise_cons, hphys] at hap
    obtain ⟨f', hp', -⟩ := h.supply.pages c (by rw [hs]; exact List.mem_cons_of_mem _ hc)
    rw [hq.phys hp']
    exact (hap.1 c hc).symm

/-- Another map that knows only live tables. -/
lemma PInv.setMap {m : Map} (h : PInv K lim sp R s) (hm : Sound (fun k v => ∃ t f,
    k = leBytes (f * 0x1000) ∧ v = leBytes t ∧ Live K lim R s t f) m) :
    PInv K lim sp R (setPhysmap sp s m) := by
  have hq : Quiet K lim s (setPhysmap sp s m) :=
    ⟨fun _ _ => rfl, fun _ _ _ => rfl, rfl, rfl, rfl, List.Sublist.refl _⟩
  refine ⟨hq.kern h.kern, hq.supplyOf h.supply, hq.poolOf h.top, hq.kfree h.topFree,
    hq.gone h.supply h.topGone, m, by simp [setPhysmap], hm.mono ?_⟩
  rintro k v ⟨t, f, hk, hv, hl⟩
  exact ⟨t, f, hk, hv, hq.live h.supply hl⟩

/-- The page is handed out and noted, and the window has moved. -/
lemma PInv.newTab {b : Block} {bs : List Block} {m : Map} (h : PInv K lim sp R s)
    (hs : s.supply = b :: bs) (hp : Pool K lim s b.virt f) (hf : KFree K s f) (ho : Open K s f₀)
    (hs' : s' = moved K (handed s f b.words bs) f₀ g)
    (hm : Sound (fun k v => ∃ t f, k = leBytes (f * 0x1000) ∧ v = leBytes t ∧ Live K lim R s' t f) m) :
    NewTab K lim sp R s (setPhysmap sp s' m) f := by
  have hq : Quiet K lim s s' := by
    rw [hs']
    exact (quiet_handed hs hf).trans (quiet_moved (Open.handed b.words bs ho hf) hp.bound g)
  have hinv : PInv K lim sp R s' := h.quiet hq (by rw [hs']; rfl)
  have hlive : Live K lim R s' b.virt f := h.nextLive hs hp hf hq (by rw [hs']; rfl)
  have hset : PInv K lim sp R (setPhysmap sp s' m) := hinv.setMap hm
  have hne : f ≠ f₀ := by
    rintro rfl
    exact hf _ (by simp [path]) ho.last
  refine ⟨hset, ⟨b.virt, hlive.pool.of_leaf rfl, hlive.ne, hlive.free, hlive.gone⟩,
    ⟨hq.walk, hq.pool, hq.cur, hq.addr, hq.large, hq.supply⟩,
    ⟨b, by rw [hs]; simp, physOf_eq hp, fun j => ?_⟩, fun h' hne' hfree => ?_,
    ⟨f₀, g, b.words, bs, ho, by rw [hs']; rfl⟩⟩
  · rw [show entry (setPhysmap sp s' m).mem f j = entry s'.mem f j from rfl, hs', moved, entry_setEntry,
      put_table hne, entry_handed, if_pos rfl]
  · rw [show entry (setPhysmap sp s' m).mem h' = entry s'.mem h' from rfl, hs', moved, entry_setEntry,
      put_table, entry_handed, if_neg hne']
    rintro rfl
    exact hfree _ (by simp [path]) ho.last

/-- `tab_new`, whatever space the caller runs in as long as it has the kernel's pages. -/
lemma PInv.tabNewFrom (h : PInv K lim sp R s) (c : Option ℕ)
    (hlead : ∀ f b bs, s.supply = b :: bs → Pool K lim s b.virt f → KFree K s f →
      Leads K (handed s f b.words bs) c b.virt) :
    OrStops .panic (tabNew K sp { s with cur := c }) fun r => ∃ g, r.1 = g * 0x1000 ∧
      NewTab K lim sp R s { r.2 with cur := s.cur } g ∧ r.2.cur = c ∧
      ∃ b m m', s.supply.head? = some b ∧ physOf K s b = g * 0x1000 ∧ s.physmap sp = some m ∧
        mapInsert m (leBytes (g * 0x1000)) (leBytes b.virt) = .ok m' ∧ r.2.physmap sp = some m' := by
  by_cases hnil : s.supply = []
  · refine Or.inl ?_
    simp only [Paging.tabNew, pageAlloc, hnil]
    rfl
  · obtain ⟨b, bs, hs⟩ := List.exists_cons_of_ne_nil hnil
    obtain ⟨f, hp, hf⟩ := h.supply.pages b (by rw [hs]; simp)
    obtain ⟨f₀, ho⟩ := h.kern.window
    have hoc : Open K { s with cur := c } f₀ := ⟨ho.tree, ho.tabs, ho.last⟩
    obtain ⟨g, hnew⟩ := tabNew_eq hoc hs (hp.of_leaf rfl) hf (hlead f b bs hs hp hf)
    obtain ⟨s₂, hs₂⟩ : ∃ s₂, s₂ = moved K (handed s f b.words bs) f₀ g := ⟨_, rfl⟩
    have hs₂c : moved K (handed { s with cur := c } f b.words bs) f₀ g = { s₂ with cur := c } := by
      rw [hs₂]
      rfl
    have hq : Quiet K lim s s₂ := by
      rw [hs₂]
      exact (quiet_handed hs hf).trans (quiet_moved (Open.handed b.words bs ho hf) hp.bound g)
    obtain ⟨m, hm, hsound⟩ := (h.quiet hq (by rw [hs₂]; rfl)).map
    have hm' : s.physmap sp = some m := by
      rw [← hm, hs₂]
      rfl
    have hlt := Pool.frame_lt hp
    have h8 : ofLeBytes (leBytes (f * 0x1000)) ≠ 8 := by
      rw [ofLeBytes_leBytes (by omega)]
      omega
    have hlive : Live K lim R s₂ b.virt f := h.nextLive hs hp hf hq (by rw [hs₂]; rfl)
    have hins := hsound.insert (v := leBytes b.virt) (leBytes_length _) h8 ⟨b.virt, f, rfl, rfl, hlive⟩
    rw [hs₂c] at hnew
    rw [hnew sp m hm']
    rcases hins with hins | ⟨m', hins, hsound'⟩
    · rw [hins]
      exact OrStops.stop
    · rw [hins]
      have hcur : { setPhysmap sp { s₂ with cur := c } m' with cur := s.cur } = setPhysmap sp s₂ m' := by
        rw [hs₂]
        rfl
      refine OrStops.ok ⟨f, rfl, ?_, rfl, b, m, m', by rw [hs]; rfl, physOf_eq hp, hm', hins,
        by simp [setPhysmap]⟩
      rw [hcur]
      exact h.newTab hs hp hf ho hs₂ hsound'

lemma PInv.tabNew (h : PInv K lim sp R s) :
    OrStops .panic (tabNew K sp s) fun r => ∃ g, r.1 = g * 0x1000 ∧ NewTab K lim sp R s r.2 g := by
  refine (h.tabNewFrom s.cur fun f b bs hs _ hr => ?_).mono ?_
  · have hq : Quiet K lim s (handed s f b.words bs) := quiet_handed hs hr
    exact ((hq.kern h.kern).topOf b.virt).leads
  · rintro r ⟨g, hg, hn, hcur, -⟩
    have he : { r.2 with cur := s.cur } = r.2 := by rw [← hcur]
    exact ⟨g, hg, he ▸ hn⟩

/-! ### One page, whatever was in the tables -/

/-- Entries of the space's tables, but for one, are as before. -/
def OthersKept (K : Image) (s s' : St) (f : ℕ) (i : Fin 512) : Prop :=
  ∀ h j, KFree K s h → (∀ b ∈ s.supply, physOf K s b ≠ h * 0x1000) → ¬ (h = f ∧ j = i) →
    entry s'.mem h j = entry s.mem h j

lemma Shown.gone (h : PInv K lim sp R s) (hs : Shown K lim sp R s t f) :
    ∀ b ∈ s.supply, physOf K s b ≠ f * 0x1000 := by
  rcases hs with ⟨-, rfl⟩ | hl
  · exact h.topGone
  · exact hl.gone

/-- Writing an entry of the space's tables. -/
lemma PInv.set (h : PInv K lim sp R s) (hs : Shown K lim sp R s t f) :
    PInv K lim sp R (setEntry s f i x) :=
  h.quiet (quiet_setEntry (hs.kfree h)) rfl

lemma PInv.tableEntry (h : PInv K lim sp R s) (hs : Shown K lim sp R s t f) :
    OrStops .panic (tableEntry K (spaceWalker K sp) t i s) fun r => PInv K lim sp R r.2 ∧
      Quiet K lim s r.2 ∧ present r.1 = true ∧ entry r.2.mem f i = r.1 ∧ OthersKept K s r.2 f i ∧
      (r.2 = s ∨ present (entry s.mem f i) = false ∧ ∃ s₁ g, NewTab K lim sp R s s₁ g ∧
        r.2 = setEntry s₁ f i (g * 0x1000 ||| topFlags)) := by
  unfold Paging.tableEntry
  simp only [(hs.at h).load i, bind, Except.bind]
  by_cases hpr : present (entry s.mem f i) = true
  · rw [if_pos hpr]
    exact OrStops.ok ⟨h, .refl s, hpr, rfl, fun _ _ _ _ _ => rfl, Or.inl rfl⟩
  · rw [if_neg hpr]
    refine h.tabNew.bind ?_
    rintro ⟨a, s₁⟩ ⟨g, rfl, hn⟩
    have hs₁ := hn.quiet.shown h hs
    have hinv₂ := hn.inv.set (i := i) (x := g * 0x1000 ||| topFlags) hs₁
    have hq₂ : Quiet K lim s₁ (setEntry s₁ f i (g * 0x1000 ||| topFlags)) :=
      quiet_setEntry (hs₁.kfree hn.inv)
    have he : entry (setEntry s₁ f i (g * 0x1000 ||| topFlags)).mem f i = g * 0x1000 ||| topFlags := by
      rw [entry_setEntry, put_same]
    simp only [(hs₁.at hn.inv).store, ((hq₂.shown hn.inv hs₁).at hinv₂).load, he]
    refine OrStops.ok ⟨hinv₂, hn.quiet.trans hq₂, ?_, he, fun h' j hfree hgone hne => ?_,
      Or.inr ⟨by simpa using hpr, s₁, g, hn, rfl⟩⟩
    · rw [present_iff, topFlags, or_flags (by omega)]
      omega
    · have hh : h' ≠ g := by
        obtain ⟨b, hb, hphys, -⟩ := hn.taken
        rintro rfl
        exact hgone b hb hphys
      rw [entry_setEntry, put, if_neg hne, hn.tables h' hh hfree]

lemma PInv.descend (h : PInv K lim sp R s) (hsp : sp ≠ kspace) (hs : Shown K lim sp R s t f) :
    OrStops .panic (descend K (spaceWalker K sp) t i s) fun r => PInv K lim sp R r.2 ∧
      Quiet K lim s r.2 ∧ OthersKept K s r.2 f i ∧
      ∃ g, Live K lim R r.2 r.1 g ∧ next (entry r.2.mem f i) = some g := by
  refine h.tableEntry (i := i) hs |>.bind ?_
  rintro ⟨e, s₁⟩ ⟨hinv, hq, hpr, he, hk, -⟩
  obtain ⟨g, hg⟩ : ∃ g, next e = some g := ⟨_, by rw [next, if_pos hpr]⟩
  have hget := hinv.tabGet hsp (next_lt hg)
  simp only [(next_eq_some hg).2]
  refine hget.bind fun t' hl => OrStops.ok ⟨hinv, hq, hk, g, hl, by rw [he, hg]⟩

/-- A page whose indices into the lower tables are different is mapped even where old entries
make several of its tables one. -/
lemma PInv.mapPage (h : PInv K lim sp R s) (hsp : sp ≠ kspace) (dst src flags : ℕ) :
    OrStops .panic (mapPage K (spaceWalker K sp) (s.addr sp) flags dst src s) fun s' =>
      PInv K lim sp R s' ∧ Quiet K lim s s' ∧
      (index 2 dst ≠ index 1 dst → index 2 dst ≠ index 0 dst → index 1 dst ≠ index 0 dst →
        leaf s'.mem R dst = some (leafEntry src flags)) := by
  unfold Paging.mapPage
  refine (h.descend hsp (Or.inl ⟨rfl, rfl⟩)).bind ?_
  rintro ⟨pdpt, s₁⟩ ⟨h₁, q₁, -, f₁, l₁, n₁⟩
  refine (h₁.descend hsp (Or.inr l₁)).bind ?_
  rintro ⟨pd, s₂⟩ ⟨h₂, q₂, k₂, f₂, l₂, n₂⟩
  refine (h₂.descend hsp (Or.inr l₂)).bind ?_
  rintro ⟨pt, s₃⟩ ⟨h₃, q₃, k₃, f₃, l₃, n₃⟩
  have hsh₃ : Shown K lim sp R s₃ pt f₃ := Or.inr l₃
  simp only [(hsh₃.at h₃).store]
  refine OrStops.ok ⟨h₃.set hsh₃, ((q₁.trans q₂).trans q₃).trans (quiet_setEntry l₃.free),
    fun h21 h20 h10 => ?_⟩
  -- the entries on the way, in the state at the end
  have e₁ : entry (setEntry s₃ f₃ (index 0 dst) (leafEntry src flags)).mem R (index 3 dst) =
      entry s₁.mem R (index 3 dst) := by
    rw [entry_setEntry, put_table l₃.ne.symm, k₃ R _ h₂.topFree h₂.topGone (fun e => l₂.ne e.1.symm),
      k₂ R _ h₁.topFree h₁.topGone (fun e => l₁.ne e.1.symm)]
  have l₁' := q₂.live h₁.supply l₁
  have e₂ : entry (setEntry s₃ f₃ (index 0 dst) (leafEntry src flags)).mem f₁ (index 2 dst) =
      entry s₂.mem f₁ (index 2 dst) := by
    rw [entry_setEntry, put_index h20, k₃ f₁ _ l₁'.free l₁'.gone (fun e => h21 e.2)]
  have e₃ : entry (setEntry s₃ f₃ (index 0 dst) (leafEntry src flags)).mem f₂ (index 1 dst) =
      entry s₃.mem f₂ (index 1 dst) := by
    rw [entry_setEntry, put_index h10]
  have hwalk : table (setEntry s₃ f₃ (index 0 dst) (leafEntry src flags)).mem R (path dst) = some f₃ := by
    simp only [table, path, walk, e₁, n₁, Option.bind_some, e₂, n₂, e₃, n₃]
  have := leaf_of_table hwalk
  rwa [entry_setEntry, put_same] at this

/-! ### The space at first -/

/-- The state in which the top table is filled in. -/
structure Begun (K : Image) (lim sp R : ℕ) (b : Block) (s s' : St) : Prop where
  inv : PInv K lim sp R s'
  words : ∀ j, entry s'.mem R j = if j = 511 then entry s'.mem K.root 511 else b.words j
  kernel : ∀ v, leaf s'.mem K.root v = leaf s.mem K.root v
  addr : s'.addr sp = b.virt
  large : s'.large = s.large

/-- The state between `page_alloc` and the copy of the last slot. -/
lemma begun_inv {b : Block} {bs : List Block} (hk : KernOk K s) (hs : Supply K lim s) (hsp : sp ≠ kspace)
    (hsup : s.supply = b :: bs) (hp : Pool K lim s b.virt R) (hr : KFree K s R)
    (hs' : s' = setAddr sp (handed (setPhysmap sp s (mapNew 0x10)) R b.words bs) b.virt) :
    PInv K lim sp R s' := by
  obtain ⟨f₀, ho⟩ := hk.window
  have hq : Quiet K lim s (handed s R b.words bs) := quiet_handed hsup hr
  have hmem : s'.mem = (handed s R b.words bs).mem := by rw [hs']; rfl
  have hsup' : s'.supply = bs := by rw [hs']; rfl
  have hpool : ∀ t f, Pool K lim s t f → Pool K lim s' t f := fun t f hp =>
    (hq.poolOf hp).of_leaf (by rw [hmem])
  have hfree : ∀ f, KFree K s f → KFree K s' f := fun f hf q hq' h => by
    rw [hmem] at h
    exact hq.kfree hf q hq' h
  have hphys : ∀ c ∈ s.supply, physOf K s' c = physOf K s c := fun c hc => by
    obtain ⟨f, hp', -⟩ := hs.pages c hc
    rw [physOf_eq hp', physOf_eq (hpool _ _ hp')]
  have hap := hs.apart
  rw [hsup, List.pairwise_cons] at hap
  have hrest : ∀ c ∈ bs, c ∈ s.supply := fun c hc => by rw [hsup]; exact List.mem_cons_of_mem _ hc
  refine ⟨⟨⟨f₀, ?_⟩, by rw [hs']; exact hk.cur, ?_⟩, ⟨fun c hc => ?_, ?_⟩, ?_, hfree R hr,
    fun c hc => ?_, mapNew 0x10, by rw [hs']; simp [setAddr, handed, setPhysmap], Sound.new _ _⟩
  · have := Open.handed b.words bs ho hr
    exact ⟨by rw [hmem]; exact this.tree, by rw [hmem]; exact this.tabs, by rw [hmem]; exact this.last⟩
  · rw [hs']
    simp only [setAddr, if_neg hsp.symm]
    exact hk.addr
  · rw [hsup'] at hc
    obtain ⟨f, hp', hf'⟩ := hs.pages c (hrest c hc)
    exact ⟨f, hpool _ _ hp', hfree f hf'⟩
  · rw [hsup']
    refine hap.2.imp_of_mem fun {c c'} hc hc' h => ?_
    rwa [hphys c (hrest c hc), hphys c' (hrest c' hc')]
  · have ha : s'.addr sp = b.virt := by rw [hs']; simp [setAddr]
    rw [ha]
    exact hpool _ _ hp
  · rw [hsup'] at hc
    rw [hphys c (hrest c hc), ← physOf_eq hp]
    exact (hap.1 c hc).symm

lemma spaceInit_spec (hk : KernOk K s) (hs : Supply K lim s) (hsp : sp ≠ kspace) :
    OrStops .panic (spaceInit K sp s) fun s' => ∃ b bs R, s.supply = b :: bs ∧
      s'.supply = bs ∧ Begun K lim sp R b s s' := by
  unfold spaceInit
  cases hsup : s.supply with
  | nil =>
    refine Or.inl ?_
    simp only [pageAlloc, setPhysmap, hsup]
    rfl
  | cons b bs =>
    obtain ⟨R, hp, hr⟩ := hs.pages b (by rw [hsup]; simp)
    have hp₀ : Pool K lim (setPhysmap sp s (mapNew 0x10)) b.virt R := hp.of_leaf rfl
    have hal := pageAlloc_eq (s := setPhysmap sp s (mapNew 0x10)) hsup hp₀
    simp only [hal, bind, Except.bind]
    obtain ⟨s₂, hs₂⟩ : ∃ s₂, s₂ = setAddr sp (handed (setPhysmap sp s (mapNew 0x10)) R b.words bs)
      b.virt := ⟨_, rfl⟩
    rw [← hs₂]
    have hmem : s₂.mem = (handed s R b.words bs).mem := by rw [hs₂]; rfl
    have hinv₂ : PInv K lim sp R s₂ := begun_inv hk hs hsp hsup hp hr hs₂
    have haddr : s₂.addr sp = b.virt := by rw [hs₂]; simp [setAddr]
    have hsh : Shown K lim sp R s₂ b.virt R := Or.inl ⟨haddr.symm, rfl⟩
    have hload : load K s₂ (K.kpml4 + 8 * 511) = .ok (entry s₂.mem K.root 511) := at_kpml4.load 511
    have hstore : store K s₂ (b.virt + 8 * 511) (entry s₂.mem K.root 511) =
      .ok (setEntry s₂ R 511 (entry s₂.mem K.root 511)) := (hsh.at hinv₂).store 511 _
    have hroot : K.root ≠ R := fun h => hr [] (by simp) (by rw [← h]; rfl)
    simp only [hload, hstore]
    refine OrStops.ok ⟨b, bs, R, rfl, by rw [hs₂]; rfl, hinv₂.set hsh, fun j => ?_, fun v => ?_, haddr,
      by rw [hs₂]; rfl⟩
    · rw [entry_setEntry, put_table hroot]
      by_cases hj : j = 511
      · rw [hj, put_same, if_pos rfl]
      · rw [put_index hj, if_neg hj, hmem, entry_handed, if_pos rfl]
    · rw [leaf_setEntry hinv₂.topFree v, hmem, leaf_handed hr]

end Silkware.ProcSpace
