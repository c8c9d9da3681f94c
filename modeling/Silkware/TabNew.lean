import Silkware.Window
import Silkware.HashMapRuns

/-!
New tables for an address space: `tab_new` takes a page, looks up where it is in physical
memory, and notes it in the space's map.
-/

namespace Silkware.TabNew

open Silkware.Kern Silkware.Radix Silkware.HashMap Silkware.Paging Silkware.Outcome
open Silkware.PageTables Silkware.MapLoop Silkware.Premap Silkware.Window

variable {K : Image} {s s' : St} {f f₀ g lim t v root : ℕ} {q : List (Fin 512)}

/-! ### Words as keys -/

/-- Frames have different keys. -/
lemma leBytes_frame_inj (hf : f * 0x1000 < 2 ^ 63) (hg : g * 0x1000 < 2 ^ 63)
    (h : leBytes (f * 0x1000) = leBytes (g * 0x1000)) : f = g := by
  have hlt : (2 : ℕ) ^ 63 ≤ 2 ^ 64 := by decide
  have := leBytes_inj (hf.trans_le hlt) (hg.trans_le hlt) h
  exact Nat.eq_of_mul_eq_mul_right (by decide) this

/-! ### Pages of the pools -/

/-- A page that the kernel's tables map above the image and below `lim`. -/
structure Pool (K : Image) (lim : ℕ) (s : St) (t f : ℕ) : Prop where
  aligned : t % 0x1000 = 0
  above : K.kernEnd ≤ t
  below : t + 0x1000 ≤ lim
  bound : lim ≤ 2 ^ 64
  maps : ∃ e, leaf s.mem K.root t = some e ∧ present e = true ∧ e &&& addrMask = f * 0x1000

lemma Pool.at (h : Pool K lim s t f) : At K s t f := by
  obtain ⟨e, hl, hp, he⟩ := h.maps
  refine at_of_leaf h.aligned (fun v h1 _ hf => ?_) hl hp he
  have := h.above
  have := hf.2.1
  omega

lemma Pool.of_leaf (h : Pool K lim s t f) (hl : leaf s'.mem K.root t = leaf s.mem K.root t) :
    Pool K lim s' t f :=
  ⟨h.aligned, h.above, h.below, h.bound, by rw [hl]; exact h.maps⟩

/-- Addresses above the image are in its last 2 GiB, where pages have their own numbers. -/
lemma vpage_inj {u v : ℕ} (hu : K.virtualBase ≤ u) (hu' : u < 2 ^ 64) (hv : K.virtualBase ≤ v)
    (hv' : v < 2 ^ 64) (h : vpage u = vpage v) : u / 0x1000 = v / 0x1000 := by
  have := K.linked
  unfold vpage at h
  omega

/-- Above the image, no page is the window's. -/
lemma above_ne_window {v : ℕ} (h1 : K.kernEnd ≤ v) (h2 : v < 2 ^ 64) : vpage v ≠ vpage K.pageTmp := by
  intro he
  have ho := K.order
  have hk : K.kernEnd = K.pageTmp + 0x1000 + 0x64000 := rfl
  have := vpage_inj (K := K) (by omega) (by omega) (by omega) (by omega) he
  omega

lemma Pool.ne_window (h : Pool K lim s t f) : vpage t ≠ vpage K.pageTmp := by
  have hbelow := h.below
  have hbound := h.bound
  exact above_ne_window h.above (by omega)

/-- The physical address of a page to be handed out. -/
def physOf (K : Image) (s : St) (b : Block) : ℕ := (leaf s.mem K.root b.virt).getD 0 &&& addrMask

lemma physOf_eq {b : Block} (h : Pool K lim s b.virt f) : physOf K s b = f * 0x1000 := by
  obtain ⟨e, hl, -, he⟩ := h.maps
  rw [physOf, hl, Option.getD_some, he]

lemma Pool.frame_lt (h : Pool K lim s t f) : f * 0x1000 < 2 ^ 63 := by
  obtain ⟨e, -, -, he⟩ := h.maps
  rw [and_addrMask] at he
  unfold floorPage at he
  omega

/-! ### A page handed out -/

/-- The state after `page_alloc` handed out the page in frame `f`. -/
def handed (s : St) (f : ℕ) (words : ℕ → ℕ) (bs : List Block) : St :=
  { s with supply := bs, mem := fillPage s.mem (f * 0x1000) words }

lemma entry_handed (s : St) (f : ℕ) (words : ℕ → ℕ) (bs : List Block) (g : ℕ) :
    entry (handed s f words bs).mem g = 
      if g = f then fun i : Fin 512 => words i else entry s.mem g := by
  funext i
  have hi := i.isLt
  simp only [entry, handed, fillPage]
  by_cases h : g = f
  · rw [if_pos (by omega), if_pos h]
    congr 1
    omega
  · rw [if_neg (by omega), if_neg h]
    rfl

lemma pageAlloc_eq {b : Block} {bs : List Block} (hs : s.supply = b :: bs)
    (hp : Pool K lim s b.virt f) : pageAlloc K s = .ok (b.virt, handed s f b.words bs) := by
  have h0 := hp.at 0
  simp only [Fin.val_zero, Nat.mul_zero, Nat.add_zero] at h0
  simp only [pageAlloc, hs, h0, bind, Except.bind, pure, Except.pure, handed]

/-- A page that is no table of the kernel may be filled. -/
lemma walk_handed {words : ℕ → ℕ} {bs : List Block}
    (hf : ∀ q, q.length ≤ 3 → table s.mem root q ≠ some f) (hq : q.length ≤ 3) :
    table (handed s f words bs).mem root q = table s.mem root q := by
  refine walk_congr (d := 3) (fun q g hq hg => ?_) hq
  rw [entry_handed, if_neg]
  rintro rfl
  exact hf q (by omega) hg

lemma leaf_handed {words : ℕ → ℕ} {bs : List Block}
    (hf : ∀ q, q.length ≤ 3 → table s.mem root q ≠ some f) (v : ℕ) :
    leaf (handed s f words bs).mem root v = leaf s.mem root v := by
  have hw : table (handed s f words bs).mem root (path v) = table s.mem root (path v) :=
    walk_handed hf (by simp [path])
  rw [table, table] at hw
  rw [leaf, look, leaf, look, hw]
  cases hc : walk (entry s.mem) next root (path v) with
  | none => rfl
  | some g =>
    rw [Option.map_some, Option.map_some, entry_handed, if_neg]
    rintro rfl
    exact hf (path v) (by simp [path]) hc

lemma Open.handed (words : ℕ → ℕ) (bs : List Block) (h : Open K s f₀)
    (hf : ∀ q, q.length ≤ 3 → table s.mem K.root q ≠ some f) : Open K (handed s f words bs) f₀ := by
  refine ⟨h.tree.congr fun q hq => walk_handed hf hq, fun q g hq hg => ?_, ?_⟩
  · rw [walk_handed hf hq.length_le] at hg
    exact h.tabs q g hq hg
  · rw [walk_handed hf (by simp [path])]
    exact h.last

lemma and_low (v : ℕ) : v &&& 0xFFF = v % 0x1000 := by
  rw [show (0xFFF : ℕ) = 2 ^ 12 - 1 from rfl, Nat.and_two_pow_sub_one_eq_mod]

/-- `tab_new`, up to what the map makes of the new key. -/
lemma tabNew_eq {b : Block} {bs : List Block} (h : Open K s f₀) (hs : s.supply = b :: bs)
    (hp : Pool K lim s b.virt f) (hf : ∀ q, q.length ≤ 3 → table s.mem K.root q ≠ some f)
    (hlead : Leads K (handed s f b.words bs) s.cur b.virt) :
    ∃ g, ∀ sp m, s.physmap sp = some m → tabNew K sp s =
      (mapInsert m (leBytes (f * 0x1000)) (leBytes b.virt)).bind fun m' =>
        .ok (f * 0x1000, setPhysmap sp (moved K (handed s f b.words bs) f₀ g) m') := by
  obtain ⟨e, hl, -, he⟩ := hp.maps
  have hv : b.virt ≠ 0 := by
    have h1 := hp.above
    have hk : K.kernEnd = K.pageTmp + 0x1000 + 0x64000 := rfl
    omega
  have hl' : leaf (handed s f b.words bs).mem K.root b.virt = some e := by rw [leaf_handed hf, hl]
  obtain ⟨g, hg⟩ := kvirt2phys_eq (Open.handed _ _ h hf) hlead hv hp.ne_window hl'
  rw [he, and_low, hp.aligned, Nat.or_zero] at hg
  refine ⟨g, fun sp m hm => ?_⟩
  have hm' : (moved K (handed s f b.words bs) f₀ g).physmap sp = some m := hm
  simp only [tabNew, pageAlloc_eq hs hp, bind, Except.bind]
  rw [show (handed s f b.words bs).cur = s.cur from rfl, hg]
  simp only [hm']
  rfl

end Silkware.TabNew
