import Silkware.Anon

/-!
Runs of `premap_anon` and `map_anon`, and what the mappings they return lead to.

A call maps `len` bytes from the page of `phys` on, so it covers `phys + len` only if the offset
of `phys` in its page does not push the end over a page that `len` alone does not reach.
-/

namespace Silkware.AnonRuns

open Silkware.Kern Silkware.Radix Silkware.HashMap Silkware.HashMapRuns Silkware.Paging
open Silkware.Outcome Silkware.PageTables Silkware.MapLoop Silkware.Premap Silkware.Window
open Silkware.TabNew Silkware.Anon

variable {K : Image} {s s' : St} {f lim t v : ℕ}

inductive Call
  | premap (phys len flags : ℕ)
  | map (phys len flags : ℕ) (supply : List Block)

def Call.phys : Call → ℕ
  | .premap phys _ _ => phys
  | .map phys _ _ _ => phys

def Call.len : Call → ℕ
  | .premap _ len _ => len
  | .map _ len _ _ => len

/-- One call: the address it returns, and the state after. -/
def exec (K : Image) : Call → St → Except Stop (ℕ × St)
  | .premap phys len flags, s => premapAnon K phys len flags s
  | .map phys len flags bs, s => mapAnon K phys len flags { s with supply := bs }

def run (K : Image) : List Call → St → Except Stop (List ℕ × St)
  | [], s => return ([], s)
  | c :: cs, s => do
    let (r, s) ← exec K c s
    let (rs, s) ← run K cs s
    return (r :: rs, s)

/-- Where the walk of the kernel's tables takes an address. -/
def physAt (K : Image) (s : St) (v : ℕ) : Option ℕ :=
  (leaf s.mem K.root v).map fun e => (e &&& addrMask) ||| (v &&& 0xFFF)

/-- A range of physical memory, for which `end_pos` has room, and whose end in its last page is
not beyond the pages of `len`. -/
structure Plain (s : St) (phys len : ℕ) : Prop where
  pos : 1 ≤ len
  bits : phys + len ≤ 2 ^ 52
  room : s.endPos + len + 0xFFF < 2 ^ 64
  covers : phys % 0x1000 + len ≤ roundUpPage len

/-- The calls that meet no slip. `premap_anon` must not come through a table that `map_anon`
made, and the pages that `map_anon` takes for tables must be empty and go into the map. -/
def Meets (K : Image) (s : St) : Call → Prop
  | .premap phys len _ => Plain s phys len ∧ ∀ v, s.endPos ≤ v → v < s.endPos + len →
      ∀ q f, q <+: path v → q ≠ [] → table s.mem K.root q = some f → Mine K f
  | .map phys len _ bs => Plain s phys len ∧ Stock K s.endPos s bs

def AllMeet (K : Image) : St → List Call → Prop
  | _, [] => True
  | s, c :: cs => Meets K s c ∧ ∀ r s', exec K c s = .ok (r, s') → AllMeet K s' cs

/-- The state in which the kernel begins to make anonymous mappings: its tables are its own, and
the window is among the pages mapped. -/
structure Started (K : Image) (s : St) : Prop where
  inv : KInv K (Own K) s s
  window : (leaf s.mem K.root K.pageTmp).isSome
  endPos : s.endPos % 0x1000 = 0 ∧ K.kernEnd ≤ s.endPos ∧ s.endPos < 2 ^ 64
  cur : s.cur = none ∨ s.cur = some kspace
  addr : s.addr kspace = K.kpml4
  physmap : s.physmap kspace = some (mapNew 0x10)

/-! ### One call -/

structure RunInv (K : Image) (s : St) : Prop where
  anon : AInv K s.endPos s
  endPos : s.endPos % 0x1000 = 0 ∧ K.kernEnd ≤ s.endPos ∧ s.endPos < 2 ^ 64

/-- The range lies below `end_pos`, and the walk takes it to where it was mapped. -/
def Holds (K : Image) (s : St) (c : Call) (r : ℕ) : Prop :=
  K.kernEnd ≤ r ∧ r + c.len ≤ s.endPos ∧ ∀ i < c.len, physAt K s (r + i) = some (c.phys + i)

/-- Earlier mappings are left alone. -/
def Later (K : Image) (s s' : St) : Prop :=
  s.endPos ≤ s'.endPos ∧
    ∀ v e, K.kernEnd ≤ v → v < s.endPos → leaf s.mem K.root v = some e → leaf s'.mem K.root v = some e

lemma anonPos_of_plain {phys len : ℕ} (h : Plain s phys len) (he : s.endPos % 0x1000 = 0) :
    anonPos s.endPos phys len =
      (s.endPos + phys % 0x1000, s.endPos + (len + 0xFFF) / 0x1000 * 0x1000) := by
  have h1 := h.room
  have h2 := h.bits
  have h3 := h.covers
  have h4 := h.pos
  unfold roundUpPage floorPage at h3
  unfold anonPos roundUpPage floorPage
  refine Prod.ext ?_ ?_ <;> simp only <;> omega

lemma turns_of_plain {phys len : ℕ} (h : Plain s phys len) (he : s.endPos % 0x1000 = 0) :
    turns s.endPos (floorPage phys) len = (len + 0xFFF) / 0x1000 := by
  have h1 := h.room
  have h2 := h.bits
  unfold turns roundUpPage floorPage
  omega

/-- What the page map gives for the range that was asked for. -/
lemma holds_of_maps {phys len flags : ℕ} {hidden : ℕ → Prop} (h : Plain s phys len)
    (he : s.endPos % 0x1000 = 0 ∧ K.kernEnd ≤ s.endPos ∧ s.endPos < 2 ^ 64)
    (hm : Maps K.root hidden s.endPos (floorPage phys) flags ((len + 0xFFF) / 0x1000) s s') :
    ∀ i < len, physAt K s' (s.endPos + phys % 0x1000 + i) = some (phys + i) := by
  intro i hi
  have h1 := h.room
  have h2 := h.bits
  have h3 := h.covers
  have hl := K.linked
  have ho := K.order
  have hk : K.kernEnd = K.pageTmp + 0x1000 + 0x64000 := rfl
  unfold roundUpPage floorPage at h3
  obtain ⟨k, hk'⟩ : ∃ k, k = (phys % 0x1000 + i) / 0x1000 := ⟨_, rfl⟩
  have hkn : k < (len + 0xFFF) / 0x1000 := by omega
  have hpage : vpage (s.endPos + phys % 0x1000 + i) = vpage (s.endPos + k * 0x1000) := by
    unfold vpage
    omega
  have hmap := hm.mapped k hkn fun j h1 h2 => by
    unfold vpage
    omega
  rw [physAt, leaf_congr hpage, hmap, Option.map_some, leafEntry_frame, and_low]
  have hfr : floorPage ((floorPage phys + k * 0x1000) % 2 ^ 63) = (phys / 0x1000 + k) * 0x1000 := by
    unfold floorPage
    omega
  rw [hfr, or_flags (by omega)]
  exact congrArg _ (by omega)

/-- A page below `end_pos` is not among those mapped next. -/
lemma below_ne {k len : ℕ} (he : K.kernEnd ≤ s.endPos ∧ s.endPos % 0x1000 = 0)
    (hroom : s.endPos + len + 0xFFF < 2 ^ 64) (hk : k < (len + 0xFFF) / 0x1000)
    (hv : K.virtualBase ≤ v ∧ v < s.endPos) : vpage v ≠ vpage (s.endPos + k * 0x1000) := by
  intro h
  have ho := K.order
  have hk' : K.kernEnd = K.pageTmp + 0x1000 + 0x64000 := rfl
  have := vpage_inj (K := K) (by omega) (by omega) (by omega) (by omega) h
  omega

/-- After a call, in either case: the invariant with the new `end_pos`, and both properties. -/
lemma call_done {phys len flags e' : ℕ} {hidden : ℕ → Prop} {c : Call} (h : RunInv K s)
    (hp : Plain s phys len) (hc : c.phys = phys ∧ c.len = len) (hA : AInv K s.endPos s')
    (hm : Maps K.root hidden s.endPos (floorPage phys) flags ((len + 0xFFF) / 0x1000) s s')
    (hhid : ∀ v, K.kernEnd ≤ v → v < s.endPos → ¬ hidden v)
    (he' : e' = s.endPos + (len + 0xFFF) / 0x1000 * 0x1000) :
    RunInv K { s' with endPos := e' } ∧
      Holds K { s' with endPos := e' } c (s.endPos + phys % 0x1000) ∧
      Later K s { s' with endPos := e' } := by
  have he := h.endPos
  have h1 := hp.room
  have h2 := hp.bits
  have h3 := hp.covers
  unfold roundUpPage floorPage at h3
  refine ⟨⟨(hA.mono (show s.endPos ≤ e' by omega) (by omega)).rest e' s'.supply, by simp only; omega⟩,
    ⟨by omega, by rw [hc.2]; simp only; omega, ?_⟩, by simp only; omega, fun v e h4 h5 hl => ?_⟩
  · rw [hc.1, hc.2]
    have := holds_of_maps hp he hm
    exact this
  · have hbase : K.virtualBase ≤ K.kernEnd := window_lt.1.trans window_lt.2.le
    have := hm.others v (fun k hk => below_ne ⟨he.2.1, he.1⟩ h1 hk ⟨by omega, h5⟩) (hhid v h4 h5)
    rw [hl] at this
    exact this.some

/-- One call that meets no slip. -/
lemma exec_spec {c : Call} (h : RunInv K s) (hc : Meets K s c) :
    OrStops .panic (exec K c s) fun r => RunInv K r.2 ∧ Holds K r.2 c r.1 ∧ Later K s r.2 := by
  have he := h.endPos
  cases c with
  | premap phys len flags =>
    obtain ⟨hp, hon⟩ := hc
    have hroom := hp.room
    simp only [exec, premapAnon, anonPos_of_plain hp he.1]
    have hT := turns_of_plain hp he.1
    have hspec := premapPages_spec s.endPos (floorPage phys) len flags
      (fun _ _ hf => Or.inr hf) h.anon.kinv fun k hk q f hq hne hf => by
        rw [hT] at hk
        rcases hf with hf | hf
        · exact hon (s.endPos + k * 0x1000) (by omega) (by omega) q f hq hne hf
        · exact hf
    rw [hT] at hspec
    refine hspec.bind fun s₁ ⟨hk, hm⟩ => OrStops.ok ?_
    have hA := h.anon.premapped hk hm
      (fun k hk v h1 h2 => below_ne ⟨he.2.1, he.1⟩ hroom hk ⟨h1, h2⟩) he.2.1
    exact call_done h hp ⟨rfl, rfl⟩ hA hm (fun _ _ _ => id) rfl
  | map phys len flags bs =>
    obtain ⟨hp, hst⟩ := hc
    have hroom := hp.room
    have hT := turns_of_plain hp he.1
    have hcur : s.cur.getD kspace = kspace := by
      rcases h.anon.cur with hc | hc <;> rw [hc] <;> rfl
    have hA := h.anon.rest s.endPos bs
    have hS := hst.still (h.anon.still_rest s.endPos bs) fun _ _ _ hf => Or.inl hf
    simp only [exec, mapAnon, mapPages, anonPos_of_plain hp he.1, hcur, h.anon.addr]
    have hspec := mapRange_spec (spaceWalker_law (K := K) ⟨he.2.1, he.1, he.2.2.le⟩) K.kpml4 s.endPos
      (floorPage phys) len flags ⟨hA, hS⟩ (fun _ _ => Or.inl ⟨root_mine.1, root_mine.2.symm⟩)
      (fun k hk => by rw [hT] at hk; unfold Above; omega) fun k hk => by
        rw [hT] at hk
        exact (below_ne ⟨he.2.1, he.1⟩ hroom hk ⟨window_lt.1, window_lt.2.trans_le he.2.1⟩).symm
    rw [hT] at hspec
    refine hspec.bind fun s₁ ⟨⟨hA₁, _⟩, hm⟩ => OrStops.ok ?_
    have hm' : Maps K.root (fun v => vpage v = vpage K.pageTmp) s.endPos (floorPage phys) flags
        ((len + 0xFFF) / 0x1000) s s₁ := ⟨hm.mapped, hm.others⟩
    refine call_done h hp ⟨rfl, rfl⟩ hA₁ hm' (fun v h1 h2 he' => ?_) rfl
    have hw := window_lt (K := K)
    have hk' : K.kernEnd = K.pageTmp + 0x1000 + 0x64000 := rfl
    have := vpage_inj (K := K) (by omega) (by omega) (by omega) (by omega) he'
    omega

/-! ### Runs -/

lemma Later.trans {s₁ s₂ s₃ : St} (h1 : Later K s₁ s₂) (h2 : Later K s₂ s₃) : Later K s₁ s₃ :=
  ⟨h1.1.trans h2.1, fun v e hv hv' hl => h2.2 v e hv (hv'.trans_le h1.1) (h1.2 v e hv hv' hl)⟩

lemma Holds.later {c : Call} {r : ℕ} (h : Holds K s c r) (hl : Later K s s') : Holds K s' c r := by
  obtain ⟨h1, h2, h3⟩ := h
  refine ⟨h1, h2.trans hl.1, fun i hi => ?_⟩
  have hi' := h3 i hi
  rw [physAt, Option.map_eq_some_iff] at hi'
  obtain ⟨e, he, hphys⟩ := hi'
  rw [physAt, hl.2 (r + i) e (by omega) (by omega) he, Option.map_some, hphys]

lemma run_spec {cs : List Call} (h : RunInv K s) (hc : AllMeet K s cs) :
    OrStops .panic (run K cs s) fun r => List.Forall₂ (Holds K r.2) cs r.1 ∧ Later K s r.2 := by
  induction cs generalizing s with
  | nil => exact OrStops.ok ⟨.nil, le_refl _, fun _ _ _ _ hl => hl⟩
  | cons c cs ih =>
    rcases exec_spec h hc.1 with hst | ⟨⟨r, s₁⟩, hex, h1, h2, h3⟩
    · refine Or.inl ?_
      simp only [run, hst, bind, Except.bind]
    · have hrest := ih h1 (hc.2 r s₁ hex)
      simp only [run, hex, bind, Except.bind]
      refine hrest.bind fun ⟨rs, s₂⟩ ⟨h4, h5⟩ => OrStops.ok ⟨.cons (h2.later h5) h4, h3.trans h5⟩

lemma Started.run (h : Started K s) : RunInv K s := by
  obtain ⟨e, he⟩ := Option.isSome_iff_exists.mp h.window
  obtain ⟨f₀, hf₀, -⟩ := leaf_eq_some he
  have hk : kmap s = mapNew 0x10 := by rw [kmap, h.physmap, Option.getD_some]
  refine ⟨⟨h.inv.tree, h.inv.brk, h.inv.unused, ⟨f₀, h.inv.tree,
    fun q f hq hf => h.inv.tabs q f hq.length_le hf, hf₀⟩, h.cur, h.addr, ?_, fun f _ => ?_,
    fun q f hq hf => Or.inl (h.inv.tabs q f hq hf)⟩, h.endPos⟩
  · rw [hk]
    exact ⟨h.physmap, _, Rep.new 0x10⟩
  · rw [hk, (Rep.new 0x10).get]

/-- The data segment has the window among its pages. -/
lemma window_in_data : ∃ k < turns K.dataStart (K.vk2physk K.dataStart) (K.kernEnd - K.dataStart),
    vpage K.pageTmp = vpage (K.dataStart + k * 0x1000) := by
  have ho := K.order
  have hv := K.virtual_end
  have hp := K.physical_end
  have hb := K.base_aligned
  have hk : K.kernEnd = K.pageTmp + 0x1000 + 0x64000 := rfl
  have hphys := vk2physk_eq (K := K) (v := K.dataStart) (by omega) (by omega)
  refine ⟨K.pageTmp / 0x1000 - K.dataStart / 0x1000, ?_, ?_⟩
  · rw [turns_eq (by omega) (by omega) (by omega)]
    unfold pages floorPage
    omega
  · unfold vpage
    omega

/-- `map_kern_pages` leads to such a state, once `kspace` is set up. -/
lemma mapKernPages_started {s₀ : St} (hb : Boot K s₀) (hcur : s₀.cur = none ∨ s₀.cur = some kspace)
    (haddr : s₀.addr kspace = K.kpml4) (hmap : s₀.physmap kspace = some (mapNew 0x10))
    (h : mapKernPages K s₀ = .ok s) : Started K s := by
  have hspec : ∀ s₁, KInv K (Own K) s₀ s₁ → ∀ dst src length flags, OrStops .panic
      (premapPages K dst src length flags s₁) fun s' => KInv K (Own K) s₀ s' ∧
        Maps K.root (fun _ => False) dst src flags (turns dst src length) s₁ s' :=
    fun s₁ h₁ dst src length flags => premapPages_spec _ _ _ _ (fun _ _ h => h) h₁ fun _ _ => on_own _
  have hall : OrStops .panic (mapKernPages K s₀) fun s => Started K s := by
    refine (hspec s₀ hb.inv _ _ _ _).bind fun s₁ ⟨h₁, _⟩ => (hspec s₁ h₁ _ _ _ _).bind
      fun s₂ ⟨h₂, _⟩ => (hspec s₂ h₂ _ _ _ _).bind fun s₃ ⟨h₃, hm⟩ => OrStops.ok ?_
    have hr := h₃.rest
    obtain ⟨k, hk, hw⟩ := window_in_data (K := K)
    have hsome := isSome_of_maps hm hk
    refine ⟨h₃.of_eq rfl rfl, ?_, ?_, by rw [hr]; exact hcur, by rw [hr]; exact haddr,
      by rw [hr]; exact hmap⟩
    · rw [leaf_congr hw]
      exact hsome
    · have hv := K.virtual_end
      have ha := K.aligned
      have hk' : K.kernEnd = K.pageTmp + 0x1000 + 0x64000 := rfl
      simp only [roundUpPage, floorPage]
      omega
  exact hall.of_ok h

/-- So does mapping the pools from there. -/
lemma Started.premapAnon {phys len flags r : ℕ} (hs : Started K s) (hp : Plain s phys len)
    (h : premapAnon K phys len flags s = .ok (r, s')) : Started K s' := by
  have he := hs.endPos
  have hT := turns_of_plain hp he.1
  have hroom := hp.room
  have hall : OrStops .panic (Paging.premapAnon K phys len flags s) fun r => Started K r.2 := by
    simp only [Paging.premapAnon, anonPos_of_plain hp he.1]
    refine (premapPages_spec _ _ _ _ (fun _ _ h => h) hs.inv fun _ _ => on_own _).bind
      fun s₁ ⟨h₁, hm⟩ => OrStops.ok ?_
    have hr := h₁.rest
    rw [hT] at hm
    refine ⟨h₁.of_eq rfl rfl, ?_, by simp only; omega, by rw [hr]; exact hs.cur,
      by rw [hr]; exact hs.addr, by rw [hr]; exact hs.physmap⟩
    have hw := hm.others K.pageTmp (fun k hk => below_ne ⟨he.2.1, he.1⟩ hroom hk
      ⟨window_lt.1, window_lt.2.trans_le he.2.1⟩) id
    obtain ⟨e, hl⟩ := Option.isSome_iff_exists.mp hs.window
    rw [hl] at hw
    exact Option.isSome_iff_exists.mpr ⟨e, hw.some⟩
  exact hall.of_ok h

/-- **Anonymous mappings are faithful and do not collide**, in every run of calls that meet no
slip: however many calls follow, the walk takes the address that a call returned to the physical
address it was asked for, over the whole length. -/
theorem anon_faithful (h : Started K s) {cs : List Call} (hc : AllMeet K s cs)
    (hroom : run K cs s ≠ .error .panic) :
    ∃ rs s', run K cs s = .ok (rs, s') ∧
      List.Forall₂ (fun c r => ∀ i < c.len, physAt K s' (r + i) = some (c.phys + i)) cs rs := by
  obtain ⟨⟨rs, s'⟩, hr, h1, -⟩ := (run_spec h.run hc).returns hroom
  exact ⟨rs, s', hr, h1.imp fun _ _ hh => hh.2.2⟩

/-- An image that ends one page below the border of its page table. -/
def borderImage : Image where
  virtualBase := 0xFFFFFFFF80000000
  physicalBase := 0x200000
  textStart := 0xFFFFFFFF80000000
  textEnd := 0xFFFFFFFF80100000
  rodataStart := 0xFFFFFFFF80100000
  rodataEnd := 0xFFFFFFFF80180000
  dataStart := 0xFFFFFFFF80180000
  kpml4 := 0xFFFFFFFF80180000
  pageTmp := 0xFFFFFFFF8019A000
  linked := onePageImage.linked
  base_aligned := onePageImage.base_aligned
  aligned := by decide
  order := by decide
  virtual_end := by decide
  physical_end := by decide

def borderSt : St where
  mem _ := 0
  brk := borderImage.miniheapStart
  endPos := borderImage.kernEnd
  addr _ := borderImage.kpml4
  physmap _ := some (mapNew 0x10)
  cur := some kspace
  supply := []
  large := []

/-- With only the window mapped, the kernel may begin. -/
lemma border_started (h : premapPages borderImage borderImage.pageTmp 0x39A000 0x1000 3 borderSt =
    .ok s) : Started borderImage s := by
  have hb : Boot borderImage borderSt := ⟨rfl, fun _ => rfl, fun _ _ _ => rfl⟩
  have hi := (Built.call .boot h).inv hb
  have hr := hi.rest
  have hz : (premapPages borderImage borderImage.pageTmp 0x39A000 0x1000 3 borderSt).map (fun s =>
      (leaf s.mem borderImage.root borderImage.pageTmp).isSome) = .ok true := by
    decide
  rw [h, Except.map, Except.ok.injEq] at hz
  have he : s.endPos = borderSt.endPos := by rw [hr]
  exact ⟨hi.of_eq rfl rfl, hz, by rw [he]; decide, by rw [hr]; exact Or.inr rfl, by rw [hr]; rfl,
    by rw [hr]; rfl⟩

/-- Two bytes on both sides of a page border: the second page is not mapped. -/
theorem second_page_missing : ∃ s r s', Started borderImage s ∧
    premapAnon borderImage 0xFFF 2 3 s = .ok (r, s') ∧
    physAt borderImage s' (r + 1) ≠ some (0xFFF + 1) := by
  have hz : ((premapPages borderImage borderImage.pageTmp 0x39A000 0x1000 3 borderSt).bind fun s =>
      (premapAnon borderImage 0xFFF 2 3 s).map fun r => physAt borderImage r.2 (r.1 + 1)) =
        .ok none := by
    decide
  obtain ⟨s, hs, hz⟩ := exists_of_bind hz
  obtain ⟨r, hp, hphys⟩ := exists_of_map hz
  exact ⟨s, r.1, r.2, border_started hs, hp, by rw [hphys]; nofun⟩

/-- One page for the pools, then a mapping for which `map_anon` takes that page as a table. -/
def borderCalls : List Call :=
  [.premap 0x400000 0x1000 3, .map 0x500800 0x100 3 [⟨0xFFFFFFFF801FF000, fun _ => 0⟩]]

lemma border_meets (h : Started borderImage s) (he : s.endPos = borderImage.kernEnd)
    (hl : (premapAnon borderImage 0x400000 0x1000 3 s).map (fun r =>
      (r.2.endPos, leaf r.2.mem borderImage.root 0xFFFFFFFF801FF000)) =
        .ok (0xFFFFFFFF80200000, some 0x400003)) : AllMeet borderImage s borderCalls := by
  have hp : Plain s 0x400000 0x1000 := ⟨by decide, by decide, by rw [he]; decide, by decide⟩
  refine ⟨⟨hp, fun v _ _ q f hq _ hf => h.inv.tabs q f hq.length_le hf⟩, fun r s' hex => ?_⟩
  have hex' : premapAnon borderImage 0x400000 0x1000 3 s = .ok (r, s') := hex
  have h' := h.premapAnon hp hex'
  rw [hex', Except.map, Except.ok.injEq, Prod.mk.injEq] at hl
  obtain ⟨he', hl'⟩ := hl
  have hk : kmap s' = mapNew 0x10 := by rw [kmap, h'.physmap, Option.getD_some]
  have hm : ¬ Mine borderImage 0x400 := by unfold Mine; decide
  have hpool : Pool borderImage s'.endPos s' 0xFFFFFFFF801FF000 0x400 := by
    rw [he']
    exact ⟨by decide, by decide, by decide, by decide, 0x400003, hl', by decide, by decide⟩
  have hphys : physOf borderImage s' ⟨0xFFFFFFFF801FF000, fun _ => 0⟩ = 0x400000 := by
    rw [physOf, hl']
    decide
  refine ⟨⟨⟨by decide, by decide, by rw [he']; decide, by decide⟩, ⟨fun b hb => ?_, by simp, ?_⟩⟩,
    fun _ _ _ => trivial⟩
  · rw [List.mem_singleton] at hb
    subst hb
    refine ⟨0x400, hpool, hm, fun q hq hf => hm (h'.inv.tabs q _ hq hf), ?_,
      fun _ => present_false_iff.mpr rfl⟩
    rw [hk, (Rep.new 0x10).get]
  · rw [hk, List.map_singleton, hphys]
    refine ⟨⟨⟨0, by decide, Or.inl rfl⟩, ?_⟩, fun _ _ => trivial⟩
    decide

theorem anon_faithful_border : ∃ s rs s', Started borderImage s ∧
    run borderImage borderCalls s = .ok (rs, s') ∧
    List.Forall₂ (fun c r => ∀ i < c.len, physAt borderImage s' (r + i) = some (c.phys + i))
      borderCalls rs := by
  have hz : ((premapPages borderImage borderImage.pageTmp 0x39A000 0x1000 3 borderSt).bind fun s =>
      (premapAnon borderImage 0x400000 0x1000 3 s).map fun r =>
        (r.2.endPos, leaf r.2.mem borderImage.root 0xFFFFFFFF801FF000)) =
        .ok (0xFFFFFFFF80200000, some 0x400003) := by
    decide +kernel
  have hok : ((premapPages borderImage borderImage.pageTmp 0x39A000 0x1000 3 borderSt).bind fun s =>
      run borderImage borderCalls s).isOk = true := by
    decide
  obtain ⟨s, hs, hz⟩ := exists_of_bind hz
  rw [hs, Except.bind] at hok
  have hst := border_started hs
  have hr := ((Built.call .boot hs).inv ⟨rfl, fun _ => rfl, fun _ _ _ => rfl⟩).rest
  have he : s.endPos = borderImage.kernEnd := by rw [hr]; rfl
  obtain ⟨rs, s', h1, h2⟩ := anon_faithful hst (border_meets hst he hz) fun hpan => by
    rw [hpan] at hok
    cases hok
  exact ⟨s, rs, s', hst, h1, h2⟩

end Silkware.AnonRuns
