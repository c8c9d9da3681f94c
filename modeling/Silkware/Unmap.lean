import Silkware.Premap

/-!
What `unmap_pages` leaves mapped.

It maps the range again, with physical address zero and no flags. The loop then ends after as many
pages as the length alone fills, and where the range begins inside of a page it may touch one more.
-/

namespace Silkware.Unmap

open Silkware.Kern Silkware.Radix Silkware.Paging Silkware.Outcome Silkware.PageTables
open Silkware.MapLoop Silkware.Premap

variable {K : Image} {s₀ s s' : St} {virt len v : ℕ}

/-- Where the page of an address leads to, if it is present. -/
def mapping (K : Image) (s : St) (v : ℕ) : Option ℕ := (leaf s.mem K.root v).filter present

lemma mapping_congr {u : ℕ} (h : vpage u = vpage v) : mapping K s u = mapping K s v := by
  rw [mapping, mapping, leaf_congr h]

/-- No page that the range touches is present, and all others lead where they led. -/
structure Unmapped (K : Image) (virt len : ℕ) (s s' : St) : Prop where
  complete : ∀ i < len, mapping K s' (virt + i) = none
  exact : ∀ v, (∀ i < len, vpage v ≠ vpage (virt + i)) → mapping K s' v = mapping K s v

/-- The loop comes to the page of `virt + i`: the end of the range does not round up to the end
of the address space, and the page is among the first that the length fills. -/
def Reached (virt len i : ℕ) : Prop :=
  virt + len + 0xFFF < 2 ^ 64 ∧ (virt % 0x1000 + i) / 0x1000 < (len + 0xFFF) / 0x1000

instance (virt len i : ℕ) : Decidable (Reached virt len i) := by unfold Reached; infer_instance

lemma turns_unmap (hw : virt + len ≤ 2 ^ 64) :
    turns virt 0 len = if virt + len + 0xFFF < 2 ^ 64 then (len + 0xFFF) / 0x1000 else 0 := by
  unfold turns roundUpPage floorPage
  split <;> omega

/-- The page of an address of the range, counted from the first. -/
lemma vpage_offset (virt i : ℕ) :
    vpage (virt + i) = vpage (virt + (virt % 0x1000 + i) / 0x1000 * 0x1000) := by
  unfold vpage
  omega

/-- A page that was unmapped is not present. -/
lemma mapping_unmapped {k n : ℕ} (hm : Maps K.root (fun _ => False) virt 0 0 n s s') (hn : n ≤ 2 ^ 36)
    (hk : k < n) : mapping K s' (virt + k * 0x1000) = none := by
  have h := hm.mapped k hk fun j h1 h2 => by
    unfold vpage
    omega
  have hp : present (leafEntry (0 + k * 0x1000) 0) = false := by
    rw [(leafEntry_flags _ _).present]
    rfl
  rw [mapping, h, Option.filter, hp]
  rfl

/-- The pages of the range that the loop comes to are unmapped; all others are left alone. -/
lemma unmap_spec (hb : Boot K s₀) (hs : Built K s₀ s) (hw : virt + len ≤ 2 ^ 64)
    (hroom : unmapPages K virt len s ≠ .error .panic) :
    ∃ s', unmapPages K virt len s = .ok s' ∧
      (∀ i < len, Reached virt len i → mapping K s' (virt + i) = none) ∧
      (∀ i < len, ¬ Reached virt len i → mapping K s' (virt + i) = mapping K s (virt + i)) ∧
      ∀ v, (∀ i < len, vpage v ≠ vpage (virt + i)) → mapping K s' v = mapping K s v := by
  obtain ⟨s', hok, hinv, hm⟩ := (premapPages_spec virt 0 len 0 (fun _ _ h => h) (hs.inv hb)
    fun _ _ => on_own _).returns hroom
  have hn := turns_lt hinv hm
  obtain ⟨n, hn'⟩ : ∃ n, n = turns virt 0 len := ⟨_, rfl⟩
  rw [← hn'] at hm hn
  rw [turns_unmap hw] at hn'
  have hkept : ∀ v, (∀ k < n, vpage v ≠ vpage (virt + k * 0x1000)) → mapping K s' v = mapping K s v :=
    fun v hv => (hm.others v hv id).filter
  have hcome : ∀ i, Reached virt len i ↔ (virt % 0x1000 + i) / 0x1000 < n := by
    intro i
    unfold Reached
    rw [hn']
    split <;> omega
  refine ⟨s', hok, fun i _ hr => ?_, fun i hi hr => ?_, fun v hv => hkept v fun k hk => ?_⟩
  · rw [mapping_congr (vpage_offset virt i)]
    exact mapping_unmapped hm hn.le ((hcome i).mp hr)
  · rw [hcome] at hr
    refine hkept _ fun k hk => ?_
    split at hn'
    · unfold vpage
      omega
    · omega
  · refine hv (k * 0x1000) ?_
    split at hn'
    · omega
    · omega

/-- **`unmap_pages` is complete and exact** just where each page of the range that its loop does
not come to was not present before. -/
theorem unmap_complete_iff (hb : Boot K s₀) (hs : Built K s₀ s) (hw : virt + len ≤ 2 ^ 64)
    (hroom : unmapPages K virt len s ≠ .error .panic) :
    ∃ s', unmapPages K virt len s = .ok s' ∧
      (Unmapped K virt len s s' ↔ ∀ i < len, Reached virt len i ∨ mapping K s (virt + i) = none) := by
  obtain ⟨s', hok, hreach, hleft, hothers⟩ := unmap_spec hb hs hw hroom
  refine ⟨s', hok, fun h i hi => ?_, fun h => ⟨fun i hi => ?_, hothers⟩⟩
  · by_cases hr : Reached virt len i
    · exact Or.inl hr
    · exact Or.inr ((hleft i hi hr).symm.trans (h.complete i hi))
  · by_cases hr : Reached virt len i
    · exact hreach i hi hr
    · rw [hleft i hi hr]
      exact (h i hi).resolve_left hr

/-- Two pages. -/
def twoPages : Except Stop St := premapPages onePageImage 0x1FF000 0x5000 0x2000 3 zeroSt

/-- The range is the two pages, from the first byte to the last. -/
theorem unmap_complete_two : ∃ s s', twoPages = .ok s ∧
    unmapPages onePageImage 0x1FF000 0x2000 s = .ok s' ∧
    (Unmapped onePageImage 0x1FF000 0x2000 s s' ↔ ∀ i < 0x2000, Reached 0x1FF000 0x2000 i ∨
      mapping onePageImage s (0x1FF000 + i) = none) := by
  have hz : (twoPages.bind fun s => (unmapPages onePageImage 0x1FF000 0x2000 s)).isOk = true := by
    decide
  obtain ⟨s₂, hs₂⟩ := exists_of_isOk hz
  obtain ⟨s, hs, hu⟩ := exists_of_bind hs₂
  have hw : 0x1FF000 + 0x2000 ≤ 2 ^ 64 := by omega
  obtain ⟨s', hs', hiff⟩ := unmap_complete_iff zeroSt_boot (.call .boot hs) hw (by rw [hu]; nofun)
  exact ⟨s, s', hs, hs', hiff⟩

/-- The page at `0x200000`. -/
def secondPage : Except Stop St := premapPages onePageImage 0x200000 0x5000 0x1000 3 zeroSt

/-- The range is half of a page and half of the next, which was mapped, and stays. -/
theorem unmap_leaves_page : ∃ s s', Built onePageImage zeroSt s ∧
    unmapPages onePageImage 0x1FF800 0x1000 s = .ok s' ∧ ¬ Unmapped onePageImage 0x1FF800 0x1000 s s' := by
  have hz : (secondPage.map fun s => (mapping onePageImage s (0x1FF800 + 0x800)).isSome) = .ok true := by
    decide
  have hok : (secondPage.bind fun s => (unmapPages onePageImage 0x1FF800 0x1000 s)).isOk = true := by
    decide
  obtain ⟨s, hs, hz⟩ := exists_of_map hz
  obtain ⟨s₂, hu⟩ := exists_of_isOk hok
  rw [hs, Except.bind] at hu
  have hw : 0x1FF800 + 0x1000 ≤ 2 ^ 64 := by omega
  obtain ⟨s', hs', -, hleft, -⟩ := unmap_spec zeroSt_boot (.call .boot hs) hw (by rw [hu]; nofun)
  refine ⟨s, s', .call .boot hs, hs', fun h => ?_⟩
  have hstays := hleft 0x800 (by decide) (by decide)
  rw [h.complete 0x800 (by decide)] at hstays
  rw [← hstays] at hz
  cases hz

end Silkware.Unmap
