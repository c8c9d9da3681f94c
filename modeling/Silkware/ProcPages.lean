import Silkware.AnonRuns
import Silkware.ProcSpace

/-!
The address space of a new process, after `proc_pages_init`.

`map_pages` is given the kernel's virtual address of a segment where it wants a physical one, and
the pages that become tables are not cleared.
-/

namespace Silkware.ProcPages

open Silkware.Kern Silkware.Radix Silkware.HashMap Silkware.HashMapSound Silkware.Paging
open Silkware.Outcome Silkware.PageTables Silkware.MapLoop Silkware.Premap Silkware.Window
open Silkware.TabNew Silkware.ProcSpace Silkware.AnonRuns

variable {K : Image} {s s' : St} {f lim sp t v R : ℕ} {i : Fin 512} {q : List (Fin 512)}

/-- Where the walk from the top table in frame `R` takes an address. -/
def physIn (s : St) (R v : ℕ) : Option ℕ :=
  (leaf s.mem R v).map fun e => (e &&& addrMask) ||| (v &&& 0xFFF)

/-- The frame of the top table of a space. -/
def rootOf (K : Image) (sp : ℕ) (s : St) : ℕ :=
  match translate K s (s.addr sp) with
  | .ok a => a / 0x1000
  | .error _ => 0

lemma rootOf_eq (h : Pool K lim s (s.addr sp) R) : rootOf K sp s = R := by
  have := h.at 0
  simp only [Fin.val_zero, Nat.mul_zero, Nat.add_zero] at this
  rw [rootOf, this]
  simp

/-! ### A kernel that makes a process -/

/-- The block for the stack: pages of the pools, in physical memory. -/
structure Backed (K : Image) (lim : ℕ) (s : St) (kvirt : ℕ) : Prop where
  aligned : kvirt % 0x1000 = 0
  above : K.kernEnd ≤ kvirt
  below : kvirt + 64 * 0x1000 ≤ lim
  bound : kvirt + 64 * 0x1000 < 2 ^ 64
  maps : ∀ k < 64, ∃ e, leaf s.mem K.root (kvirt + k * 0x1000) = some e ∧ e &&& addrMask < 2 ^ 52

lemma kernOk_of_started (h : Started K s) : KernOk K s := by
  obtain ⟨e, he⟩ := Option.isSome_iff_exists.mp h.window
  obtain ⟨f₀, hf₀, -⟩ := leaf_eq_some he
  exact ⟨⟨f₀, h.inv.tree, fun q f hq hf => h.inv.tabs q f hq.length_le hf, hf₀⟩, h.cur, h.addr⟩

lemma kfree_of_started (h : Started K s) (hf : ¬ Mine K f) : KFree K s f :=
  fun q hq hq' => hf (h.inv.tabs q f hq hq')

/-- Where the pools of this kernel begin. -/
def poolBase : ℕ := 0xFFFFFFFF801FF000

/-- Pages for tables. In the first there is an entry left that leads to the page itself. -/
def tablePage (i : ℕ) : Block := ⟨poolBase + i * 0x1000, fun j => if i = 0 ∧ j = 1 then 0x400007 else 0⟩

/-- The kernel has its window and 72 pages of pools, eight for tables and the others for the
stack. -/
def readySt : Except Stop St :=
  (premapPages borderImage borderImage.pageTmp 0x39A000 0x1000 3 borderSt).bind fun s =>
    (premapAnon borderImage 0x400000 0x48000 3 s).map fun r =>
      { r.2 with supply := (List.range 8).map tablePage, large := [poolBase + 8 * 0x1000] }

lemma readySt_pages : readySt.map (fun s : St => (List.range 72).all fun i =>
    leaf s.mem borderImage.root (poolBase + i * 0x1000) = some (0x400003 + i * 0x1000)) = .ok true := by
  decide

/-- A process of one page, at the address of a function of the kernel. -/
lemma readySt_runs : (readySt.bind fun s => (procPagesInit borderImage 1 0xFFFFFFFF80190000 0x1000 s).map
    fun r => (r.1.map (fun seg => (seg.base, seg.kvirt, seg.len)), r.2.supply.length, r.2.large,
      [physIn r.2 (rootOf borderImage 1 r.2) stackTop,
        ((kvirt2phys borderImage r.2.cur (poolBase + 8 * 0x1000) r.2).map Prod.fst).toOption,
        leaf r.2.mem (rootOf borderImage 1 r.2) 0x8040201000])) =
    .ok ([(procEntry, 0xFFFFFFFF80190000, 0x1000), (stackTop, poolBase + 8 * 0x1000, 64 * pageSize)],
      2, [], [some 0x7FFFFFFF80207000, some 0x408000, some 0x400007]) := by
  decide +kernel

lemma readySt_started (h : readySt = .ok s) : ∃ s₀, Started borderImage s₀ ∧
    s = { s₀ with supply := (List.range 8).map tablePage, large := [poolBase + 8 * 0x1000] } := by
  unfold readySt at h
  obtain ⟨s₁, h₁, h⟩ := exists_of_bind h
  obtain ⟨⟨r, s₂⟩, h₂, h⟩ := exists_of_map h
  have hst := border_started h₁
  have he : s₁.endPos = borderImage.kernEnd := by
    rw [((Built.call .boot h₁).inv ⟨rfl, fun _ => rfl, fun _ _ _ => rfl⟩).rest]
    rfl
  have hp : Plain s₁ 0x400000 0x48000 := ⟨by decide, by decide, by rw [he]; decide, by decide⟩
  exact ⟨s₂, hst.premapAnon hp h₂, h.symm⟩

/-- The pages of the pools, and what `proc_pages_init` asks of them. -/
lemma readySt_ok (h : readySt = .ok s) : KernOk borderImage s ∧
    Supply borderImage (poolBase + 72 * 0x1000) s ∧
    ∀ kvirt ∈ s.large.head?, Backed borderImage (poolBase + 72 * 0x1000) s kvirt := by
  have hpages := readySt_pages
  rw [h, Except.map, Except.ok.injEq, List.all_eq_true] at hpages
  have hleaf : ∀ i < 72, leaf s.mem borderImage.root (poolBase + i * 0x1000) = some (0x400003 + i * 0x1000) :=
    fun i hi => by simpa using hpages i (List.mem_range.mpr hi)
  obtain ⟨s₀, hst, hs⟩ := readySt_started h
  have hmem : s.mem = s₀.mem := by rw [hs]
  have hpool : ∀ i < 8, Pool borderImage (poolBase + 72 * 0x1000) s (poolBase + i * 0x1000) (0x400 + i) := by
    intro i hi
    have hkern : borderImage.kernEnd = poolBase := by decide
    refine ⟨?_, by omega, by omega, by decide, _, hleaf i (by omega), ?_, ?_⟩
    · unfold poolBase
      omega
    · rw [present_iff]
      omega
    · rw [and_addrMask]
      unfold floorPage
      omega
  have hk := kernOk_of_started hst
  refine ⟨hk.of_mem hmem (by rw [hs]; exact hk.cur) (by rw [hs]), ⟨fun b hb => ?_, ?_⟩, fun kvirt hkv => ?_⟩
  · rw [hs, List.mem_map] at hb
    obtain ⟨i, hi, rfl⟩ := hb
    rw [List.mem_range] at hi
    refine ⟨0x400 + i, hpool i hi, fun q hq hq' => ?_⟩
    rw [hmem] at hq'
    refine kfree_of_started hst ?_ q hq hq'
    intro hmine
    have h1 := hmine.2.1
    have h2 : borderImage.physicalBase + (borderImage.kernEnd - borderImage.virtualBase) = 0x3FF000 := by
      decide
    omega
  · have hsup : s.supply = (List.range 8).map tablePage := by rw [hs]
    rw [hsup, List.pairwise_map]
    refine List.pairwise_lt_range.imp_of_mem fun {i j} hi hj hij => ?_
    rw [List.mem_range] at hi hj
    rw [physOf_eq (b := tablePage i) (hpool i hi), physOf_eq (b := tablePage j) (hpool j hj)]
    omega
  · obtain rfl : poolBase + 8 * 0x1000 = kvirt := by
      rw [hs] at hkv
      exact Option.some.inj hkv
    have hkern : borderImage.kernEnd = poolBase := by decide
    refine ⟨by decide, by omega, by omega, by decide, fun k hk => ⟨0x400003 + (8 + k) * 0x1000, ?_, ?_⟩⟩
    · rw [← hleaf (8 + k) (by omega), Nat.add_mul, Nat.add_assoc]
    · rw [and_addrMask]
      unfold floorPage
      omega

/-! ### What the segments are backed by -/

/-- A loop over pages keeps the space in order, and its last page is mapped. -/
lemma PInv.mapPages_last {dst src length flags : ℕ} (h : PInv K lim sp R s) (hsp : sp ≠ kspace) :
    OrStops .panic (mapPages K sp dst src length flags s) fun s' => PInv K lim sp R s' ∧
      Quiet K lim s s' ∧ ∀ k, k + 1 = turns dst src length →
        index 2 (dst + k * 0x1000) ≠ index 1 (dst + k * 0x1000) →
        index 2 (dst + k * 0x1000) ≠ index 0 (dst + k * 0x1000) →
        index 1 (dst + k * 0x1000) ≠ index 0 (dst + k * 0x1000) →
        leaf s'.mem R (dst + k * 0x1000) = some (leafEntry (src + k * 0x1000) flags) := by
  refine mapRange_rule (fun n s' => PInv K lim sp R s' ∧ Quiet K lim s s' ∧ ∀ k, k + 1 = n →
    index 2 (dst + k * 0x1000) ≠ index 1 (dst + k * 0x1000) →
    index 2 (dst + k * 0x1000) ≠ index 0 (dst + k * 0x1000) →
    index 1 (dst + k * 0x1000) ≠ index 0 (dst + k * 0x1000) →
    leaf s'.mem R (dst + k * 0x1000) = some (leafEntry (src + k * 0x1000) flags)) ?_
    ⟨h, .refl s, fun k hk => by omega⟩
  rintro n hn s₁ ⟨h₁, q₁, -⟩
  have hp := h₁.mapPage hsp (dst + n * 0x1000) (src + n * 0x1000) flags
  rw [q₁.addr] at hp
  refine hp.mono fun s₂ ⟨h₂, q₂, hl⟩ => ⟨h₂, q₁.trans q₂, fun k hk => ?_⟩
  obtain rfl : k = n := by omega
  exact hl

/-- The walk of the new space at each address of a segment yields what `kvirt2phys` gives for
the kernel's address of it. -/
def SegsBacked (K : Image) (sp : ℕ) (segs : List Segment) (s : St) : Prop :=
  ∀ seg ∈ segs, ∀ i < seg.len, ∃ a s', kvirt2phys K s.cur (seg.kvirt + i) s = .ok (a, s') ∧
    physIn s (rootOf K sp s) (seg.base + i) = some a

lemma Backed.quiet {kvirt : ℕ} (h : Backed K lim s kvirt) (hq : Quiet K lim s s') :
    Backed K lim s' kvirt := by
  have h1 := h.above
  have h2 := h.below
  refine ⟨h.aligned, h1, h2, h.bound, fun k hk => ?_⟩
  rw [hq.pool _ (by omega) (by omega)]
  exact h.maps k hk

lemma PInv.takeLarge (h : PInv K lim sp R s) (l : List ℕ) : PInv K lim sp R { s with large := l } :=
  h.of_mem rfl h.kern.cur rfl rfl rfl

/-- The whole of `proc_pages_init`, as far as it concerns the last page of the stack. -/
lemma procPagesInit_last {start len : ℕ} (hk : KernOk K s) (hs : Supply K lim s) (hsp : sp ≠ kspace)
    (hl : ∀ kvirt ∈ s.large.head?, Backed K lim s kvirt) :
    OrStops .panic (procPagesInit K sp start len s) fun r => ∃ R kvirt code,
      PInv K lim sp R r.2 ∧ Backed K lim r.2 kvirt ∧
      r.1 = [code, ⟨stackTop, kvirt, 64 * pageSize⟩] ∧
      leaf r.2.mem R (stackTop + 63 * 0x1000) = some (leafEntry (kvirt + 63 * 0x1000)
        (pagePresent ||| pageUser ||| pageNX ||| pageWritable)) := by
  unfold procPagesInit
  refine (spaceInit_spec hk hs hsp).bind fun s₁ ⟨b, bs, R, _, _, hb⟩ => ?_
  refine (PInv.mapPages_last hb.inv hsp).bind fun s₂ ⟨h₂, q₂, _⟩ => ?_
  unfold pageAllocLarge
  cases hlarge : s₂.large with
  | nil => exact OrStops.stop
  | cons kvirt vs =>
    have hbk : Backed K lim s₂ kvirt := by
      rw [q₂.large, hb.large] at hlarge
      have h := hl kvirt (by rw [hlarge]; rfl)
      refine Backed.quiet ⟨h.aligned, h.above, h.below, h.bound, fun k hk => ?_⟩ q₂
      rw [hb.kernel]
      exact h.maps k hk
    have hbk' : Backed K lim { s₂ with large := vs } kvirt :=
      ⟨hbk.aligned, hbk.above, hbk.below, hbk.bound, hbk.maps⟩
    rw [pure_bind]
    refine (PInv.mapPages_last (PInv.takeLarge h₂ vs) hsp).bind fun s₃ ⟨h₃, q₃, hlast⟩ => OrStops.ok ?_
    refine ⟨R, kvirt, _, h₃, hbk'.quiet q₃, rfl, ?_⟩
    have hturns : turns stackTop kvirt (64 * pageSize) = 64 := by
      have h1 := hbk.aligned
      have h2 := hbk.bound
      unfold turns roundUpPage floorPage stackTop pageSize
      omega
    have h21 : index 2 (stackTop + 63 * 0x1000) ≠ index 1 (stackTop + 63 * 0x1000) := by decide
    have h20 : index 2 (stackTop + 63 * 0x1000) ≠ index 0 (stackTop + 63 * 0x1000) := by decide
    have h10 : index 1 (stackTop + 63 * 0x1000) ≠ index 0 (stackTop + 63 * 0x1000) := by decide
    exact hlast 63 hturns.symm h21 h20 h10

/-- **The stack of a process is not the memory that was allocated for it**, whatever the process
is: the walk at its last page yields an address made from a virtual one. -/
theorem segments_not_backed (start len : ℕ) (hk : KernOk K s) (hs : Supply K lim s)
    (hsp : sp ≠ kspace) (hl : ∀ kvirt ∈ s.large.head?, Backed K lim s kvirt) :
    OrStops .panic (procPagesInit K sp start len s) fun r => ¬ SegsBacked K sp r.1 r.2 := by
  refine (procPagesInit_last hk hs hsp hl).mono ?_
  rintro ⟨segs, s'⟩ ⟨R, kvirt, code, hinv, hb, rfl, hleaf⟩ hback
  simp only at hinv hb hleaf
  have hal := hb.aligned
  have habove := hb.above
  have hbound := hb.bound
  have hlen : 63 * 0x1000 < 64 * pageSize := by decide
  obtain ⟨a, s'', hphys, hwalk⟩ := hback ⟨stackTop, kvirt, 64 * pageSize⟩ (by simp) (63 * 0x1000) hlen
  simp only at hphys hwalk
  have hkern : K.kernEnd = K.pageTmp + 0x1000 + 0x64000 := rfl
  have hor := K.order
  have hlink := K.linked
  -- what the kernel's tables say
  have ha : a < 2 ^ 52 := by
    obtain ⟨e, he, hlt⟩ := hb.maps 63 (by decide)
    obtain ⟨f₀, ho⟩ := hinv.kern.window
    have hne : vpage (kvirt + 63 * 0x1000) ≠ vpage K.pageTmp :=
      above_ne_window (by omega) (by omega)
    obtain ⟨g, hg⟩ := kvirt2phys_eq ho (hinv.kern.topOf _).leads (by omega) hne he
    rw [hg, Except.ok.injEq, Prod.mk.injEq] at hphys
    have hlow : (kvirt + 63 * 0x1000) % 0x1000 = 0 := by omega
    rw [← hphys.1, and_low, hlow, Nat.or_zero]
    exact hlt
  -- what the new tables say
  have ha' : 2 ^ 62 ≤ a := by
    rw [physIn, rootOf_eq hinv.top, hleaf, Option.map_some, Option.some.injEq, leafEntry_frame] at hwalk
    have := Nat.left_le_or (n := floorPage ((kvirt + 63 * 0x1000) % 2 ^ 63)) 
      (m := (stackTop + 63 * 0x1000) &&& 0xFFF)
    rw [hwalk] at this
    unfold floorPage at this
    omega
  omega

theorem segments_not_backed_ready : ∃ s, readySt = .ok s ∧
    OrStops .panic (procPagesInit borderImage 1 0xFFFFFFFF80190000 0x1000 s) fun r =>
      ¬ SegsBacked borderImage 1 r.1 r.2 := by
  obtain ⟨s, h, -⟩ := exists_of_map readySt_pages
  obtain ⟨hk, hs, hl⟩ := readySt_ok h
  exact ⟨s, h, segments_not_backed _ _ hk hs (by decide) hl⟩

/-- The first page of the stack is at `0x408000`. -/
theorem stack_misplaced : ∃ s segs s', readySt = .ok s ∧
    procPagesInit borderImage 1 0xFFFFFFFF80190000 0x1000 s = .ok (segs, s') ∧
    ¬ SegsBacked borderImage 1 segs s' := by
  obtain ⟨s, h, hrun⟩ := exists_of_bind readySt_runs
  obtain ⟨⟨segs, s'⟩, hp, hr⟩ := exists_of_map hrun
  simp only [Prod.mk.injEq, List.cons.injEq] at hr
  obtain ⟨hsegs, -, -, hphys, hkphys, -⟩ := hr
  refine ⟨s, segs, s', h, hp, fun hb => ?_⟩
  obtain ⟨seg, hseg, he⟩ : ∃ seg ∈ segs, (seg.base, seg.kvirt, seg.len) =
      (stackTop, poolBase + 8 * 0x1000, 64 * pageSize) := by
    rw [← List.mem_map (f := fun seg : Segment => (seg.base, seg.kvirt, seg.len)), hsegs]
    simp
  simp only [Prod.mk.injEq] at he
  obtain ⟨a, s'', h1, h2⟩ := hb seg hseg 0 (by rw [he.2.2]; decide)
  rw [he.2.1, Nat.add_zero] at h1
  rw [he.1, Nat.add_zero, hphys] at h2
  rw [h1] at hkphys
  cases h2
  cases hkphys

end Silkware.ProcPages
