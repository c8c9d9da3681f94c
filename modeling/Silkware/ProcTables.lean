import Silkware.Lifecycle
import Silkware.ProcIsolated
import Silkware.Trace

/-!
Whether `map_pages` finds the tables of a process again.

`tab_new` notes each table it makes in the map of the space, and `tab_get` looks a table up there
by its physical address. Two kinds of table are not found: those below the last slot of the top
table, which are the kernel's and in no map of a process, and those whose key meets one of the
slips of the map.
-/

namespace Silkware.ProcTables

open Silkware.Kern Silkware.Radix Silkware.HashMap Silkware.HashMapRuns Silkware.Paging
open Silkware.Outcome Silkware.Trace Silkware.PageTables Silkware.MapLoop Silkware.Premap
open Silkware.Window Silkware.TabNew Silkware.Anon Silkware.AnonRuns Silkware.ProcSpace
open Silkware.ProcPages Silkware.ProcIsolated

/-! ### What is asked for -/

/-- A call of `tab_new` or `tab_get`, and the state it is made in. -/
inductive Ask
  | new (s : St)
  | get (phys : ℕ) (s : St)

section

variable (K : Image) (w : Walker) (sp : ℕ)

/-- The calls that `tableEntry` makes, and so on for the functions that use it. -/
def tableEntryAsks (tab : ℕ) (i : Fin 512) (s : St) : List Ask :=
  after (load K s (tab + 8 * i)) fun e => if present e then [] else [.new s]

def descendAsks (tab : ℕ) (i : Fin 512) (s : St) : List Ask :=
  tableEntryAsks K tab i s ++ after (tableEntry K w tab i s) fun (e, s) => [.get (e &&& addrMask) s]

def mapPageAsks (pml4 dst : ℕ) (s : St) : List Ask :=
  descendAsks K w pml4 (index 3 dst) s ++ after (descend K w pml4 (index 3 dst) s) fun (pdpt, s) =>
    descendAsks K w pdpt (index 2 dst) s ++ after (descend K w pdpt (index 2 dst) s) fun (pd, s) =>
      descendAsks K w pd (index 1 dst) s

def mapLoopAsks (pml4 flags dstEnd srcEnd : ℕ) : ℕ → ℕ → ℕ → St → List Ask
  | 0, _, _, _ => []
  | fuel + 1, dst, src, s =>
    if dst < dstEnd ∧ src < srcEnd then
      mapPageAsks K w pml4 dst s ++ after (mapPage K w pml4 flags dst src s) fun s =>
        mapLoopAsks pml4 flags dstEnd srcEnd fuel ((dst + pageSize) % 2 ^ 64)
          ((src + pageSize) % 2 ^ 64) s
    else []

def mapRangeAsks (pml4 dst src length flags : ℕ) (s : St) : List Ask :=
  let dstEnd := roundUpPage ((dst + length) % 2 ^ 64)
  let srcEnd := roundUpPage ((src + length) % 2 ^ 64)
  mapLoopAsks K w pml4 flags dstEnd srcEnd ((dstEnd - dst) / pageSize + 1) dst src s

def mapPagesAsks (dst src length flags : ℕ) (s : St) : List Ask :=
  mapRangeAsks K (spaceWalker K sp) (s.addr sp) dst src length flags s

def procPagesInitAsks (start len : ℕ) (s : St) : List Ask :=
  after (spaceInit K sp s) fun s =>
    mapPagesAsks K sp procEntry start len (pagePresent ||| pageUser) s ++
      after (mapPages K sp procEntry start len (pagePresent ||| pageUser) s) fun s =>
        after (pageAllocLarge s) fun (kvirt, s) =>
          mapPagesAsks K sp stackTop kvirt (64 * pageSize)
            (pagePresent ||| pageUser ||| pageNX ||| pageWritable) s

/-- A call of `map_pages` on the space, and the space of the process that runs then. -/
structure Call where
  cur : Option ℕ
  dst : ℕ
  src : ℕ
  length : ℕ
  flags : ℕ

def Call.exec (c : Call) (s : St) : Except Stop St :=
  mapPages K sp c.dst c.src c.length c.flags { s with cur := c.cur }

def Call.asks (c : Call) (s : St) : List Ask :=
  mapPagesAsks K sp c.dst c.src c.length c.flags { s with cur := c.cur }

def callsAsks : List Call → St → List Ask
  | [], _ => []
  | c :: cs, s => c.asks K sp s ++ after (c.exec K sp s) (callsAsks cs)

def runCalls (calls : List Call) (s : St) : Except Stop St := calls.foldlM (fun s c => c.exec K sp s) s

/-- A process is made, and the calls follow. -/
def process (start len : ℕ) (calls : List Call) (s : St) : Except Stop St := do
  let (_, s) ← procPagesInit K sp start len s
  runCalls K sp calls s

def processAsks (start len : ℕ) (calls : List Call) (s : St) : List Ask :=
  procPagesInitAsks K sp start len s ++
    after (procPagesInit K sp start len s) fun (_, s) => callsAsks K sp calls s

end

/-! ### What is answered -/

/-- `tab_get` returns a page that shows the table. -/
def Found (K : Image) (sp phys : ℕ) (s : St) : Prop :=
  ∃ t, tabGet K sp phys s = .ok t ∧ At K s t (phys / 0x1000)

/-- The next page goes into the map of the space without meeting one of the map's slips. -/
def Room (K : Image) (sp : ℕ) (s : St) : Prop :=
  ∀ b ∈ s.supply.head?, ∀ m ∈ s.physmap sp, Fits m (.set (leBytes (physOf K s b)) (leBytes b.virt))

instance (m : Map) : (op : Op) → Decidable (Fits m op)
  | .set _ _ => instDecidableAnd
  | .del _ => instDecidableTrue
  | .get _ => instDecidableTrue

instance (K : Image) (sp : ℕ) (s : St) : Decidable (Room K sp s) := by unfold Room; infer_instance

def Allowed (K : Image) (sp : ℕ) : Ask → Prop
  | .new s => Room K sp s
  | .get _ _ => True

instance (K : Image) (sp : ℕ) : (k : Ask) → Decidable (Allowed K sp k)
  | .new s => inferInstanceAs (Decidable (Room K sp s))
  | .get _ _ => instDecidableTrue

def Answered (K : Image) (sp : ℕ) : Ask → Prop
  | .new _ => True
  | .get phys s => Found K sp phys s

/-- None of the pages is under the slot shared with the kernel. -/
def Lower (dst src length : ℕ) : Prop :=
  ∀ k < turns dst src length, index 3 (dst + k * 0x1000) ≠ 511

instance (dst src length : ℕ) : Decidable (Lower dst src length) := by unfold Lower; infer_instance

/-- The kernel runs in its own space or in that of the process, as it does for `map_anon`. -/
def Own (sp : ℕ) (cur : Option ℕ) : Prop := cur = none ∨ cur = some kspace ∨ cur = some sp

variable {K : Image} {s s' : St} {f g lim sp t R : ℕ} {i : Fin 512} {p : List (Fin 512)}
  {P : ℕ → Option (List (Fin 512))}

/-! ### The invariant -/

/-- The state with the kernel in its own space. -/
def home (s : St) : St := { s with cur := none }

/-- The space in a state, with `P` for the names of its tables: all of them but the top one are
in the map. -/
structure Good (K : Image) (lim sp R : ℕ) (s : St) (P : ℕ → Option (List (Fin 512))) : Prop where
  space : Space K lim sp R (home s) P fun _ _ => True
  cur : Own sp s.cur
  noted : ∃ m, s.physmap sp = some m ∧ (∃ fm, Rep m fm) ∧
    ∀ f p, P f = some p → p ≠ [] → ∃ v, mapGet m (key f) = .ok (some v)

lemma At.home (h : At K (home s) t f) : At K s t f := h

/-- The last slot of the process's top table leads where the kernel's does. -/
lemma Good.leads {b : Block} {bs : List Block} (h : Good K lim sp R s P) (hs : s.supply = b :: bs)
    (hp : Pool K lim (home s) b.virt f) (hf : KFree K (home s) f) :
    Leads K (handed (home s) f b.words bs) s.cur b.virt := by
  have hinv := h.space.inv
  have hq : Quiet K lim (home s) (handed (home s) f b.words bs) := quiet_handed hs hf
  rcases h.cur with hc | hc | hc
  · rw [hc]
    exact (top_none b.virt).leads
  · rw [hc]
    have ha : (handed (home s) f b.words bs).addr kspace = K.kpml4 := hinv.kern.addr
    exact (top_kspace (Or.inr rfl) ha b.virt).leads
  · rw [hc]
    have hne : f ≠ R := by
      rintro rfl
      exact hinv.topGone b (by rw [show (home s).supply = b :: bs from hs]; simp) (physOf_eq hp)
    have h3 : index 3 b.virt = 511 := by
      have h1 := hp.above
      have h2 := hp.below
      have h4 := hp.bound
      have hk : K.kernEnd = K.pageTmp + 0x1000 + 0x64000 := rfl
      have hor := K.order
      have hl := K.linked
      rw [Fin.ext_iff, index_val]
      change b.virt / 2 ^ (12 + 9 * 3) % 512 = 511
      omega
    refine ⟨R, (hq.poolOf hinv.top).at, ?_⟩
    rw [h3, entry_handed, if_neg hne.symm, h.space.shared, ← hq.walk [511] (by simp)]
    simp [table, walk]

/-- A noted table is found. -/
lemma Good.found (h : Good K lim sp R s P) (hsp : sp ≠ kspace) (hg : g * 0x1000 < 2 ^ 63)
    (hP : P g = some p) (hp : p ≠ []) :
    ∃ t, tabGet K sp (g * 0x1000) s = .ok t ∧ Live K lim R (home s) t g := by
  obtain ⟨m, hm, -, hnoted⟩ := h.noted
  obtain ⟨v, hv⟩ := hnoted g p hP hp
  rw [key] at hv
  refine (h.space.inv.tabGet hsp hg).returns ?_
  have hm' : (home s).physmap sp = some m := hm
  simp only [Paging.tabGet, hm', hv, bind, Except.bind]
  intro h'
  cases h'

/-- A page that is still to be handed out is not in the map. -/
lemma Good.fresh {b : Block} {m : Map} (h : Good K lim sp R s P) (hb : b ∈ s.supply)
    (hphys : physOf K s b = g * 0x1000) (hlt : g * 0x1000 < 2 ^ 63) (hm : s.physmap sp = some m) :
    mapGet m (key g) = .ok none := by
  obtain ⟨m', hm', hsound⟩ := h.space.inv.map
  obtain rfl : m = m' := Option.some.inj (hm.symm.trans hm')
  rcases hsound.get (leBytes_length (g * 0x1000)) with hg | ⟨v, -, t, f, hk, -, hl⟩
  · exact hg
  · obtain rfl := leBytes_frame_inj hlt (Pool.frame_lt hl.pool) hk
    exact absurd hphys (hl.gone b hb)

/-- `tab_new`, and the entry for the new table. -/
lemma Good.link (h : Good K lim sp R s P) (hs : Shown K lim sp R (home s) t f) (hf : P f = some p)
    (hp : p.length < 3) (hi : ¬ Shared p i) (hroom : Room K sp s) :
    OrStops .panic (tabNew K sp s) fun r => ∃ g, r.1 = g * 0x1000 ∧
      NewTab K lim sp R (home s) (home r.2) g ∧
      Good K lim sp R (setEntry r.2 f i (g * 0x1000 ||| topFlags))
        (Function.update P g (some (p ++ [i]))) := by
  have hnew := h.space.inv.tabNewFrom s.cur fun f b bs hs hp hf => h.leads hs hp hf
  refine hnew.mono ?_
  rintro ⟨a, s'⟩ ⟨g, rfl, hn, hcur, b, m, m', hb, hphys, hm, hins, hm'⟩
  have hc : s'.cur = s.cur := hcur
  refine ⟨g, rfl, hn, h.space.link hn hs hf hp hi, hc.symm ▸ h.cur, m', hm', ?_⟩
  obtain ⟨m₀, hm₀, ⟨fm, hrep⟩, hnoted⟩ := h.noted
  obtain rfl : m = m₀ := Option.some.inj (hm.symm.trans hm₀)
  obtain ⟨t', hlive⟩ := hn.live
  have hnone := h.fresh (List.mem_of_mem_head? hb) hphys (Pool.frame_lt hlive.pool) hm₀
  have hfit : Fits m (.set (key g) (leBytes b.virt)) := by
    have hroom := hroom b hb m hm₀
    rwa [show physOf K s b = g * 0x1000 from hphys] at hroom
  obtain ⟨m₂, hins₂, hrep₂, hget, hoth⟩ := insert_key hrep hnone hfit
  obtain rfl : m' = m₂ := Except.ok.inj (hins.symm.trans hins₂)
  refine ⟨hrep₂, fun f' q hf' hq => ?_⟩
  rw [Function.update_apply] at hf'
  split at hf'
  · rename_i hfg
    exact ⟨_, hfg ▸ hget⟩
  · obtain ⟨v, hv⟩ := hnoted f' q hf' hq
    refine ⟨v, ?_⟩
    rw [hoth, hv]
    intro hk
    rw [hk, hnone] at hv
    cases hv

/-! ### One page -/

/-- The entry is there, or a new table is made for it; either way the table it leads to is named. -/
lemma Good.tableEntry (h : Good K lim sp R s P) (hs : Shown K lim sp R (home s) t f) (hf : P f = some p)
    (hp : p.length < 3) (hi : ¬ Shared p i) :
    Serves (Allowed K sp) (Answered K sp) .panic (tableEntryAsks K t i s)
      (tableEntry K (spaceWalker K sp) t i s) fun r => r.2.addr = s.addr ∧ ∃ P' g,
        Good K lim sp R r.2 P' ∧ next r.1 = some g ∧ P' g = some (p ++ [i]) := by
  have hload : load K s (t + 8 * i) = .ok (entry s.mem f i) := (hs.at h.space.inv).load i
  refine Serves.bind_silent (P := fun e => e = entry s.mem f i) (Or.inr ⟨_, hload, rfl⟩) ?_
  rintro _ rfl
  by_cases hpr : present (entry s.mem f i) = true
  · obtain ⟨g, hg⟩ : ∃ g, next (entry s.mem f i) = some g := ⟨_, by rw [next, if_pos hpr]⟩
    rw [if_pos hpr, if_pos hpr]
    exact Serves.silent (OrStops.ok ⟨rfl, P, g, h, hg, h.space.named f p i g hf hp hi hg⟩)
  · rw [if_neg hpr, if_neg hpr]
    refine Serves.cons fun hroom => ⟨trivial, Serves.silent ?_⟩
    refine (h.link hs hf hp hi hroom).bind ?_
    rintro ⟨a, s₁⟩ ⟨g, rfl, hn, hgood⟩
    obtain ⟨t', hlive⟩ := hn.live
    have hs₁ : Shown K lim sp R (home s₁) t f := hn.quiet.shown h.space.inv hs
    have hq : Quiet K lim (home s₁) (home (setEntry s₁ f i (g * 0x1000 ||| topFlags))) :=
      quiet_setEntry (hs₁.kfree hn.inv)
    have hat : At K s₁ t f := At.home (hs₁.at hn.inv)
    have hat' : At K (setEntry s₁ f i (g * 0x1000 ||| topFlags)) t f :=
      At.home ((hq.shown hn.inv hs₁).at hgood.space.inv)
    have he : entry (setEntry s₁ f i (g * 0x1000 ||| topFlags)).mem f i = g * 0x1000 ||| topFlags := by
      rw [entry_setEntry, put_same]
    simp only [hat.store, hat'.load, he, bind, Except.bind]
    exact OrStops.ok ⟨hn.quiet.addr, _, g, hgood, next_link (Pool.frame_lt hlive.pool),
      Function.update_self ..⟩

/-- One level down. -/
lemma Good.descend (h : Good K lim sp R s P) (hsp : sp ≠ kspace) (hs : Shown K lim sp R (home s) t f)
    (hf : P f = some p) (hp : p.length < 3) (hi : ¬ Shared p i) :
    Serves (Allowed K sp) (Answered K sp) .panic (descendAsks K (spaceWalker K sp) t i s)
      (descend K (spaceWalker K sp) t i s) fun r => r.2.addr = s.addr ∧ ∃ P' g,
        Good K lim sp R r.2 P' ∧ Live K lim R (home r.2) r.1 g ∧ P' g = some (p ++ [i]) := by
  refine (h.tableEntry hs hf hp hi).bind ?_
  rintro ⟨e, s₁⟩ ⟨ha, P', g, hgood, hg, hP⟩
  obtain ⟨t', hget, hlive⟩ := hgood.found hsp (next_lt hg) hP (by simp)
  simp only [(next_eq_some hg).2]
  refine Serves.cons fun _ => ⟨⟨t', hget, ?_⟩, Serves.silent ?_⟩
  · rw [Nat.mul_div_cancel g (by decide)]
    exact At.home hlive.pool.at
  · have hget' : (spaceWalker K sp).get (g * 0x1000) s₁ = .ok t' := hget
    rw [hget']
    exact OrStops.ok ⟨ha, P', g, hgood, hlive, hP⟩

/-- Writing the entry of a page. -/
lemma Good.put {v x : ℕ} (h : Good K lim sp R s P) (hl : Live K lim R (home s) t f)
    (hf : P f = some (path v)) : Good K lim sp R (setEntry s f (index 0 v) x) P :=
  ⟨(h.space.put hl hf).mono fun _ _ _ => trivial, h.cur, h.noted⟩

/-- The body of the loop, at a page outside the shared slot. -/
lemma Good.mapPage {dst : ℕ} (h : Good K lim sp R s P) (hsp : sp ≠ kspace) (h3 : index 3 dst ≠ 511)
    (src flags : ℕ) :
    Serves (Allowed K sp) (Answered K sp) .panic (mapPageAsks K (spaceWalker K sp) (s.addr sp) dst s)
      (mapPage K (spaceWalker K sp) (s.addr sp) flags dst src s) fun s' => s'.addr = s.addr ∧
        ∃ P', Good K lim sp R s' P' := by
  refine (h.descend hsp (Or.inl ⟨rfl, rfl⟩) h.space.root (by simp) fun hsh => h3 hsh.2).bind ?_
  rintro ⟨pdpt, s₁⟩ ⟨a₁, P₁, f₁, h₁, l₁, n₁⟩
  refine (h₁.descend hsp (Or.inr l₁) n₁ (by simp) fun hsh => by simp [Shared] at hsh).bind ?_
  rintro ⟨pd, s₂⟩ ⟨a₂, P₂, f₂, h₂, l₂, n₂⟩
  refine (h₂.descend hsp (Or.inr l₂) n₂ (by simp) fun hsh => by simp [Shared] at hsh).finish ?_
  rintro ⟨pt, s₃⟩ ⟨a₃, P₃, f₃, h₃, l₃, n₃⟩
  have hstore : store K s₃ (pt + 8 * index 0 dst) ((src &&& addrMask) ||| x86Flags flags) = .ok
      (setEntry s₃ f₃ (index 0 dst) ((src &&& addrMask) ||| x86Flags flags)) :=
    (At.home l₃.pool.at).store _ _
  simp only [hstore]
  exact OrStops.ok ⟨(a₃.trans a₂).trans a₁, P₃, h₃.put l₃ n₃⟩

/-! ### Whole ranges -/

/-- What holds at first and is served and kept by each turn is served by the loop. -/
lemma mapLoop_serves {w : Walker} {C Q : Ask → Prop} {pml4 flags dstEnd srcEnd fuel dst src n : ℕ}
    (J : St → Prop) (hd : dstEnd + 0x1000 ≤ 2 ^ 64) (hs : srcEnd + 0x1000 ≤ 2 ^ 64)
    (hn : ∀ k, k < n ↔ dst + k * 0x1000 < dstEnd ∧ src + k * 0x1000 < srcEnd) (hfuel : n ≤ fuel)
    (hstep : ∀ k < n, ∀ s, J s → Serves C Q .panic (mapPageAsks K w pml4 (dst + k * 0x1000) s)
      (mapPage K w pml4 flags (dst + k * 0x1000) (src + k * 0x1000) s) J) (h0 : J s) :
    Serves C Q .panic (mapLoopAsks K w pml4 flags dstEnd srcEnd fuel dst src s)
      (mapLoop K w pml4 flags dstEnd srcEnd fuel dst src s) J := by
  have hfirst := hn 0
  simp only [Nat.zero_mul, Nat.add_zero] at hfirst
  induction fuel generalizing dst src n s with
  | zero =>
    rw [mapLoop, mapLoopAsks, if_neg fun hc => by have := hfirst.mpr hc; omega]
    exact Serves.silent (OrStops.pure h0)
  | succ fuel ih =>
    rw [mapLoop, mapLoopAsks]
    by_cases hc : dst < dstEnd ∧ src < srcEnd
    · have hpos := hfirst.mpr hc
      have h1 := hstep 0 hpos s h0
      simp only [Nat.zero_mul, Nat.add_zero] at h1
      rw [if_pos hc, if_pos hc]
      have e1 : (dst + pageSize) % 2 ^ 64 = dst + 0x1000 := by unfold pageSize; omega
      have e2 : (src + pageSize) % 2 ^ 64 = src + 0x1000 := by unfold pageSize; omega
      rw [e1, e2]
      have hn' : ∀ k, k < n - 1 ↔ dst + 0x1000 + k * 0x1000 < dstEnd ∧
          src + 0x1000 + k * 0x1000 < srcEnd := by
        intro k
        have := hn (k + 1)
        rw [show dst + 0x1000 + k * 0x1000 = dst + (k + 1) * 0x1000 by omega,
          show src + 0x1000 + k * 0x1000 = src + (k + 1) * 0x1000 by omega, ← this]
        omega
      refine h1.bind fun s₁ hs₁ => ih hn' (by omega) (fun k hk s hs => ?_) hs₁ (by simpa using hn' 0)
      have := hstep (k + 1) (by omega) s hs
      rwa [show dst + 0x1000 + k * 0x1000 = dst + (k + 1) * 0x1000 by omega,
        show src + 0x1000 + k * 0x1000 = src + (k + 1) * 0x1000 by omega]
    · rw [if_neg hc, if_neg hc]
      exact Serves.silent (OrStops.pure h0)

lemma mapRange_serves {w : Walker} {C Q : Ask → Prop} {pml4 dst src length flags : ℕ} (J : St → Prop)
    (hstep : ∀ k < turns dst src length, ∀ s, J s →
      Serves C Q .panic (mapPageAsks K w pml4 (dst + k * 0x1000) s)
        (mapPage K w pml4 flags (dst + k * 0x1000) (src + k * 0x1000) s) J) (h0 : J s) :
    Serves C Q .panic (mapRangeAsks K w pml4 dst src length flags s)
      (mapRange K w pml4 dst src length flags s) J := by
  refine mapLoop_serves J (roundUpPage_le _) (roundUpPage_le _) (fun k => ?_) ?_ hstep h0
  · unfold turns
    omega
  · unfold turns pageSize
    omega

lemma Good.mapPages {dst src length : ℕ} (h : Good K lim sp R s P) (hsp : sp ≠ kspace)
    (hlow : Lower dst src length) (flags : ℕ) :
    Serves (Allowed K sp) (Answered K sp) .panic (mapPagesAsks K sp dst src length flags s)
      (mapPages K sp dst src length flags s) fun s' => ∃ P', Good K lim sp R s' P' := by
  refine (mapRange_serves (fun s' => s'.addr = s.addr ∧ ∃ P', Good K lim sp R s' P') ?_
    ⟨rfl, P, h⟩).mono fun s' h' => h'.2
  rintro k hk s₁ ⟨ha, P₁, h₁⟩
  have hp := h₁.mapPage hsp (hlow k hk) (src + k * 0x1000) flags
  rw [ha] at hp
  exact hp

lemma Good.runCalls {calls : List Call} (h : Good K lim sp R s P) (hsp : sp ≠ kspace)
    (hcalls : ∀ c ∈ calls, Own sp c.cur ∧ Lower c.dst c.src c.length) :
    Serves (Allowed K sp) (Answered K sp) .panic (callsAsks K sp calls s) (runCalls K sp calls s)
      fun s' => ∃ P', Good K lim sp R s' P' := by
  induction calls generalizing s P with
  | nil => exact Serves.silent (OrStops.pure ⟨P, h⟩)
  | cons c cs ih =>
    obtain ⟨hcur, hlow⟩ := hcalls c List.mem_cons_self
    have h₁ : Good K lim sp R { s with cur := c.cur } P := ⟨h.space, hcur, h.noted⟩
    rw [callsAsks, ProcTables.runCalls, List.foldlM_cons]
    refine (h₁.mapPages hsp hlow c.flags).bind ?_
    rintro s₂ ⟨P₂, h₂⟩
    exact ih h₂ fun c' hc' => hcalls c' (List.mem_cons_of_mem c hc')

/-! ### A new process -/

lemma Space.home {S : List (Fin 512) → Fin 512 → Prop} (h : Space K lim sp R s P S) :
    Space K lim sp R (home s) P S :=
  ⟨h.inv.of_mem rfl (Or.inl rfl) rfl rfl rfl, h.blank, h.named, h.root, h.own, h.leaves, h.shared⟩

/-- The space at first has an empty map. -/
lemma spaceInit_good (hk : KernOk K s) (hs : Supply K lim s) (hsp : sp ≠ kspace) (hc : Clear s) :
    OrStops .panic (spaceInit K sp s) fun s' => ∃ R P, Good K lim sp R s' P := by
  rcases spaceInit_spec hk hs hsp with h | ⟨s₁, h₁, b, bs, R, hsup, hsup₁, hb⟩
  · exact Or.inl h
  · obtain ⟨b', -, -, -, hmap⟩ := Lifecycle.spaceInit_takes s s₁ h₁
    rw [Clear, hsup] at hc
    have hspace := Begun.space hb hc.1 (by rw [hsup₁]; exact hc.2)
    refine Or.inr ⟨s₁, h₁, R, _, (Space.home hspace).mono fun _ _ _ => trivial, ?_, _, hmap,
      ⟨_, Rep.new 0x10⟩, fun f p hf hp => ?_⟩
    · rcases hb.inv.kern.cur with h | h
      · exact Or.inl h
      · exact Or.inr (Or.inl h)
    · split at hf
      · exact absurd (Option.some.inj hf).symm hp
      · cases hf

lemma lower_stack (kvirt : ℕ) : Lower stackTop kvirt (64 * pageSize) := by
  intro k hk
  have hal : stackTop % 0x1000 = 0 := by decide
  have hlt := lt_of_turn hal hk
  unfold pageSize at hlt
  unfold stackTop
  rw [Ne, Fin.ext_iff, index_val]
  change (0x100000000 + k * 0x1000) / 2 ^ (12 + 9 * 3) % 512 ≠ 511
  omega

lemma procPagesInit_serves {start len : ℕ} (hk : KernOk K s) (hs : Supply K lim s) (hsp : sp ≠ kspace)
    (hc : Clear s) (hcode : Lower procEntry start len) :
    Serves (Allowed K sp) (Answered K sp) .panic (procPagesInitAsks K sp start len s)
      (procPagesInit K sp start len s) fun r => ∃ R P, Good K lim sp R r.2 P := by
  refine Serves.bind_silent (spaceInit_good hk hs hsp hc) ?_
  rintro s₁ ⟨R, P₁, h₁⟩
  refine (h₁.mapPages hsp hcode _).bind ?_
  rintro s₂ ⟨P₂, h₂⟩
  have hlarge : OrStops .panic (pageAllocLarge s₂) fun r => ∃ P, Good K lim sp R r.2 P := by
    unfold pageAllocLarge
    cases s₂.large with
    | nil => exact OrStops.stop
    | cons kvirt vs => exact OrStops.ok ⟨P₂, h₂.space.takeLarge vs, h₂.cur, h₂.noted⟩
  refine Serves.bind_silent hlarge ?_
  rintro ⟨kvirt, s₃⟩ ⟨P₃, h₃⟩
  refine (h₃.mapPages hsp (lower_stack kvirt) _).finish ?_
  rintro s₄ ⟨P₄, h₄⟩
  exact OrStops.ok ⟨R, P₄, h₄⟩

lemma process_serves {start len : ℕ} {calls : List Call} (hk : KernOk K s) (hs : Supply K lim s)
    (hsp : sp ≠ kspace) (hc : Clear s) (hcode : Lower procEntry start len)
    (hcalls : ∀ c ∈ calls, Own sp c.cur ∧ Lower c.dst c.src c.length) :
    Serves (Allowed K sp) (Answered K sp) .panic (processAsks K sp start len calls s)
      (process K sp start len calls s) fun s' => ∃ R P, Good K lim sp R s' P :=
  (procPagesInit_serves hk hs hsp hc hcode).bind fun _ ⟨R, _, h⟩ =>
    (h.runCalls hsp hcalls).mono fun _ hg => ⟨R, hg⟩

/-- **The tables of a process are found again**, in every run whose pages are all outside the slot
shared with the kernel and whose new tables go into the map of the space without meeting one of
its slips. -/
theorem tables_found (start len : ℕ) (calls : List Call) (hk : KernOk K s) (hs : Supply K lim s)
    (hsp : sp ≠ kspace) (hc : Clear s) (hcode : Lower procEntry start len)
    (hcalls : ∀ c ∈ calls, Own sp c.cur ∧ Lower c.dst c.src c.length)
    (hroom : ∀ s', Ask.new s' ∈ processAsks K sp start len calls s → Room K sp s') :
    ∀ phys s', Ask.get phys s' ∈ processAsks K sp start len calls s → Found K sp phys s' := by
  have hall : ∀ k ∈ processAsks K sp start len calls s, Allowed K sp k := by
    intro k hk
    cases k with
    | new s' => exact hroom s' hk
    | get phys s' => trivial
  intro phys s' hget
  exact (process_serves hk hs hsp hc hcode hcalls hall).1 _ hget

/-- A kernel whose block for the stack ends the address space, so that the loop over it ends at
once. -/
def atEnd (s : St) : St := { cleared s with large := [0xFFFFFFFFFFFC0000] }

lemma atEnd_ok (hk : KernOk K s) (hs : Supply K lim s) :
    KernOk K (atEnd s) ∧ Supply K lim (atEnd s) ∧ Clear (atEnd s) :=
  ⟨hk.of_mem rfl hk.cur rfl, (Supply.cleared hs).of_mem rfl rfl, clear_cleared s⟩

/-- A page of the process, mapped while it runs. -/
def onePage : Call := ⟨some 1, 0x200000, 0x500000, 0x1000, 3⟩

lemma atEnd_allowed : (readySt.map fun s => decide (∀ k ∈ processAsks borderImage 1 0xFFFFFFFF80190000
    0x1000 [onePage] (atEnd s), Allowed borderImage 1 k)) = .ok true := by
  decide

theorem tables_found_onePage : ∃ s, readySt = .ok s ∧
    ∀ phys s', Ask.get phys s' ∈ processAsks borderImage 1 0xFFFFFFFF80190000 0x1000 [onePage] (atEnd s) →
      Found borderImage 1 phys s' := by
  obtain ⟨s, h, hall⟩ := exists_of_map atEnd_allowed
  rw [decide_eq_true_iff] at hall
  obtain ⟨hk, hs, -⟩ := readySt_ok h
  obtain ⟨hk', hs', hc'⟩ := atEnd_ok hk hs
  have hcode : Lower procEntry 0xFFFFFFFF80190000 0x1000 := by decide
  have hpage : Lower 0x200000 0x500000 0x1000 := by decide
  refine ⟨s, h, tables_found _ _ _ hk' hs' (by decide) hc' hcode ?_ fun s' hs' => hall _ hs'⟩
  rintro c hc
  obtain rfl := List.mem_singleton.mp hc
  exact ⟨Or.inr (Or.inr rfl), hpage⟩

/-! ### The shared slot -/

/-- A page under the shared slot, on any space: the first table on its way is not found. -/
lemma shared_asks {dst src length : ℕ} {S : List (Fin 512) → Fin 512 → Prop}
    (h : Space K lim sp R (home s) P S) (hsp : sp ≠ kspace) (hturns : 0 < turns dst src length)
    (h3 : index 3 dst = 511) (flags : ℕ) : ∃ phys, Ask.get phys s ∈ mapPagesAsks K sp dst src length flags s ∧
      tabGet K sp phys s = .error .panic := by
  obtain ⟨g, hg, hget⟩ := h.shared_lost hsp
  obtain ⟨hpr, hmask⟩ := next_eq_some hg
  refine ⟨g * 0x1000, ?_, hget⟩
  have hload : load K s (s.addr sp + 8 * (511 : Fin 512)) = .ok (entry s.mem R 511) :=
    h.inv.top.at.load 511
  have hpr' : present (entry s.mem R 511) = true := hpr
  have hentry : tableEntry K (spaceWalker K sp) (s.addr sp) 511 s = .ok (entry s.mem R 511, s) := by
    simp only [tableEntry, hload, hpr', bind, Except.bind, if_true]
    rfl
  have hcond : dst < roundUpPage ((dst + length) % 2 ^ 64) ∧ src < roundUpPage ((src + length) % 2 ^ 64) := by
    unfold turns at hturns
    omega
  unfold mapPagesAsks mapRangeAsks
  rw [mapLoopAsks, if_pos hcond]
  refine List.mem_append_left _ (List.mem_append_left _ (List.mem_append_right _ ?_))
  rw [h3, hentry]
  have hm : entry s.mem R 511 &&& addrMask = g * 0x1000 := hmask
  simp only [after, hm, List.mem_singleton]

/-- **No process can map a page under the shared slot**, as `map_anon` does when it runs. -/
lemma shared_panics (start len : ℕ) (c : Call) (hk : KernOk K s) (hs : Supply K lim s) (hsp : sp ≠ kspace)
    (hc : Clear s) (hturns : 0 < turns c.dst c.src c.length) (h3 : index 3 c.dst = 511) :
    OrStops .panic (procPagesInit K sp start len s) fun r => ∃ phys s',
      Ask.get phys s' ∈ c.asks K sp r.2 ∧ tabGet K sp phys s' = .error .panic := by
  refine (procPagesInit_space start len hk hs hsp hc).mono ?_
  rintro ⟨segs, s'⟩ ⟨R, P, kvirt, -, h⟩
  have hhome : Space K lim sp R (home s') P _ := Space.home h
  obtain ⟨phys, hask, hget⟩ := shared_asks (s := { s' with cur := c.cur }) hhome hsp hturns h3 c.flags
  exact ⟨phys, _, hask, hget⟩

/-- `map_anon` at `end_pos`, while the new process runs. -/
def anonPage : Call := ⟨some 1, 0xFFFFFFFF80247000, 0x500000, 0x1000, 3⟩

theorem anon_page_panics : ∃ s phys s', readySt = .ok s ∧
    Ask.get phys s' ∈ processAsks borderImage 1 0xFFFFFFFF80190000 0x1000 [anonPage] (cleared s) ∧
    tabGet borderImage 1 phys s' = .error .panic := by
  obtain ⟨s, h, hrun⟩ := exists_of_bind cleared_runs
  obtain ⟨⟨segs, s₁⟩, hp, -⟩ := exists_of_map hrun
  obtain ⟨hk, hs, -⟩ := readySt_ok h
  obtain ⟨phys, s', hask, hget⟩ := (shared_panics 0xFFFFFFFF80190000 0x1000 anonPage (KernOk.cleared hk)
    (Supply.cleared hs) (by decide : 1 ≠ kspace) (clear_cleared s) (by decide) (by decide)).of_ok hp
  refine ⟨s, phys, s', h, List.mem_append_right _ ?_, hget⟩
  rw [hp]
  exact List.mem_append_left _ hask

end Silkware.ProcTables
