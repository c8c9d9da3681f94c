import Silkware.Premap

/-!
The rights in the page-table entries that `premap_pages` and `map_pages` write.

Both gather the rights in an `int`, which has no room for the no-execute bit. Here their loop is
run once more with a record of the page-table entries it stores.
-/

namespace Silkware.Protection

open Silkware.Kern Silkware.Paging Silkware.PageTables Silkware.Premap

variable (K : Image) (w : Walker)

/-- The body of the loop, and the entry it stores. -/
def mapPageLog (pml4 flags dst src : ℕ) (s : St) : Except Stop (ℕ × St) := do
  let (pdpt, s) ← descend K w pml4 (index 3 dst) s
  let (pd, s) ← descend K w pdpt (index 2 dst) s
  let (pt, s) ← descend K w pd (index 1 dst) s
  let e := (src &&& addrMask) ||| x86Flags flags
  let s ← store K s (pt + 8 * index 0 dst) e
  return (e, s)

/-- The loop, with the entries it stored until it ended, or stopped early. -/
def mapLoopLog (pml4 flags dstEnd srcEnd : ℕ) : ℕ → ℕ → ℕ → St → List ℕ × Except Stop St
  | 0, dst, src, s => ([], if dst < dstEnd ∧ src < srcEnd then throw .hang else return s)
  | fuel + 1, dst, src, s =>
    if dst < dstEnd ∧ src < srcEnd then
      match mapPageLog K w pml4 flags dst src s with
      | .error e => ([], .error e)
      | .ok (e, s) =>
        let (es, r) := mapLoopLog pml4 flags dstEnd srcEnd fuel ((dst + pageSize) % 2 ^ 64)
          ((src + pageSize) % 2 ^ 64) s
        (e :: es, r)
    else ([], return s)

def mapRangeLog (pml4 dst src length flags : ℕ) (s : St) : List ℕ × Except Stop St :=
  let dstEnd := roundUpPage ((dst + length) % 2 ^ 64)
  let srcEnd := roundUpPage ((src + length) % 2 ^ 64)
  mapLoopLog K w pml4 flags dstEnd srcEnd ((dstEnd - dst) / pageSize + 1) dst src s

variable {K w} {pml4 flags dst src length e : ℕ} {s : St}

/-! ### The record is of the loop -/

/-- The body stores the entry of the page, or stops as it does without the record. -/
lemma mapPageLog_eq : mapPageLog K w pml4 flags dst src s =
    (mapPage K w pml4 flags dst src s).map fun s' => (leafEntry src flags, s') := by
  unfold mapPageLog mapPage
  simp only [bind, Except.bind]
  cases descend K w pml4 (index 3 dst) s with
  | error e => rfl
  | ok r₁ =>
    obtain ⟨pdpt, s₁⟩ := r₁
    simp only
    cases descend K w pdpt (index 2 dst) s₁ with
    | error e => rfl
    | ok r₂ =>
      obtain ⟨pd, s₂⟩ := r₂
      simp only
      cases descend K w pd (index 1 dst) s₂ with
      | error e => rfl
      | ok r₃ =>
        obtain ⟨pt, s₃⟩ := r₃
        simp only
        rw [leafEntry]
        cases store K s₃ (pt + 8 * index 0 dst) ((src &&& addrMask) ||| x86Flags flags) with
        | error e => rfl
        | ok s₄ => rfl

lemma mapLoopLog_run {dstEnd srcEnd fuel : ℕ} : (mapLoopLog K w pml4 flags dstEnd srcEnd fuel dst src s).2 =
    mapLoop K w pml4 flags dstEnd srcEnd fuel dst src s := by
  induction fuel generalizing dst src s with
  | zero =>
    rw [mapLoopLog, mapLoop]
  | succ fuel ih =>
    rw [mapLoopLog, mapLoop]
    split
    · rw [mapPageLog_eq]
      cases mapPage K w pml4 flags dst src s with
      | error e => rfl
      | ok s' => exact ih
    · rfl

/-- The loop ends as it does without the record. -/
lemma mapRangeLog_run : (mapRangeLog K w pml4 dst src length flags s).2 =
    mapRange K w pml4 dst src length flags s := mapLoopLog_run

/-! ### The entries -/

lemma mem_mapLoopLog {dstEnd srcEnd fuel : ℕ}
    (he : e ∈ (mapLoopLog K w pml4 flags dstEnd srcEnd fuel dst src s).1) : ∃ a, e = leafEntry a flags := by
  induction fuel generalizing dst src s with
  | zero =>
    rw [mapLoopLog] at he
    cases he
  | succ fuel ih =>
    rw [mapLoopLog] at he
    split at he
    · rw [mapPageLog_eq] at he
      cases hp : mapPage K w pml4 flags dst src s with
      | error e' =>
        rw [hp] at he
        cases he
      | ok s' =>
        rw [hp] at he
        rcases List.mem_cons.mp he with rfl | he
        · exact ⟨src, rfl⟩
        · exact ih he
    · cases he

/-- The entry has each right just if it is asked for; `PAGE_NX` is bit 3 of the flags. -/
structure Protects (e flags : ℕ) : Prop extends HasFlags e flags where
  noExecute : e.testBit 63 = flags.testBit 3

lemma leafEntry_lt (src flags : ℕ) : leafEntry src flags < 2 ^ 63 := by
  have := x86Flags_lt flags
  rw [leafEntry_eq]
  unfold floorPage
  omega

lemma leafEntry_protects_iff : Protects (leafEntry src flags) flags ↔ flags.testBit 3 = false := by
  have h63 : (leafEntry src flags).testBit 63 = false := Nat.testBit_lt_two_pow (leafEntry_lt src flags)
  constructor
  · intro h
    rw [← h.noExecute, h63]
  · exact fun h => ⟨leafEntry_flags src flags, by rw [h63, h]⟩

variable (K) in
/-- The page-table entries that a call of `premap_pages` writes. -/
def premapEntries (dst src length flags : ℕ) (s : St) : List ℕ :=
  (mapRangeLog K (premapWalker K) K.kpml4 dst src length flags s).1

variable (K) in
/-- The page-table entries that a call of `map_pages` writes. -/
def mapEntries (sp dst src length flags : ℕ) (s : St) : List ℕ :=
  (mapRangeLog K (spaceWalker K sp) (s.addr sp) dst src length flags s).1

/-- **An entry has the protection that was asked for** just where that is not no-execute, whatever
is mapped to where, by either function. -/
theorem protection_iff {sp : ℕ}
    (h : e ∈ premapEntries K dst src length flags s ∨ e ∈ mapEntries K sp dst src length flags s) :
    Protects e flags ↔ flags.testBit 3 = false := by
  obtain ⟨a, rfl⟩ : ∃ a, e = leafEntry a flags := by
    rcases h with h | h
    · exact mem_mapLoopLog h
    · exact mem_mapLoopLog h
  exact leafEntry_protects_iff

/-- The entries of two pages of read-only data. -/
lemma premapEntries_rodata : premapEntries onePageImage 0x1FF000 0x5000 0x2000 (pagePresent ||| pageNX) zeroSt =
    [0x5001, 0x6001] := by
  decide

theorem protection_iff_rodata : Protects 0x6001 (pagePresent ||| pageNX) ↔
    (pagePresent ||| pageNX).testBit 3 = false := by
  have h : 0x6001 ∈ premapEntries onePageImage 0x1FF000 0x5000 0x2000 (pagePresent ||| pageNX) zeroSt ∨
      0x6001 ∈ mapEntries onePageImage 0 0x1FF000 0x5000 0x2000 (pagePresent ||| pageNX) zeroSt :=
    Or.inl (by rw [premapEntries_rodata]; decide)
  exact protection_iff h

/-- They may be executed. -/
theorem rodata_executable : ∃ e ∈ premapEntries onePageImage 0x1FF000 0x5000 0x2000
    (pagePresent ||| pageNX) zeroSt, ¬ Protects e (pagePresent ||| pageNX) := by
  refine ⟨0x5001, by rw [premapEntries_rodata]; decide, fun h => ?_⟩
  have := h.noExecute
  revert this
  decide

end Silkware.Protection
