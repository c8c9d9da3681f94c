import Mathlib.Data.List.Range
import Silkware.Madt
import Silkware.MemCmp

/-!
`acpi_find` of `acpi/acpi.c`: the table with a given signature.

The page tables are a parameter: `map_anon` and `unmap_pages` with the memory that the kernel sees
through them. The counter of the matches begins at -1, so it is one behind their number.
-/

namespace Silkware.AcpiFind

open Silkware.ByteMem Silkware.Kern Silkware.Madt Silkware.MemCmp

/-! ### The functions -/

/-- The page tables of the kernel, with `map_anon` and `unmap_pages`. -/
structure Mapper (σ : Type*) where
  mem : σ → Mem
  mapAnon (phys len flags : ℕ) : σ → ℕ × σ
  unmapPages (virt len : ℕ) : σ → σ

/-- `acpi64`, and the two addresses in `xsdp`. -/
structure Acpi where
  acpi64 : Bool
  xsdt : ℕ
  rsdt : ℕ

/-- The static variable `xsdt`, beside the page tables. -/
structure St (σ : Type*) where
  kern : σ
  xsdt : ℕ

/-- A table that was mapped, its length, and the page tables after. -/
structure Mapped (σ : Type*) where
  table : ℕ
  length : ℕ
  kern : σ

/-- A string literal. -/
def lit (cs : List Char) : ℕ → UInt8 := fun i => (cs.map fun c => UInt8.ofNat c.toNat).getD i 0

/-- `"DSDT"` -/
def dsdtSig : ℕ → UInt8 := lit ['D', 'S', 'D', 'T']

/-- `"FACP"` -/
def facpSig : ℕ → UInt8 := lit ['F', 'A', 'C', 'P']

/-- `"SDT"` -/
def sdtSig : ℕ → UInt8 := lit ['S', 'D', 'T']

/-- `sizeof(acpi_header_t)` -/
def headerSize : ℕ := 36

/-- `PAGE_PRESENT | PAGE_WRITABLE | PAGE_NX` -/
def tableFlags : ℕ := 1 ||| 2 ||| 8

/-- `((uint64_t *)xsdt->p)[i]` or `((uint32_t *)xsdt->p)[i]` -/
def entryAt (m : Mem) (acpi64 : Bool) (xsdt i : ℕ) : ℕ :=
  if acpi64 then rd m (xsdt + headerSize + 8 * i) else rd32 m (xsdt + headerSize + 4 * i)

/-- `entries` -/
def entriesOf (m : Mem) (acpi64 : Bool) (xsdt : ℕ) : ℕ :=
  sub64 (lengthOf m xsdt) headerSize / if acpi64 then 8 else 4

/-- `++count` -/
def succ64 (n : ℕ) : ℕ := (n + 1) % 2 ^ 64

/-- `facp->x_dsdt` or `facp->dsdt` -/
def dsdtOf (m : Mem) (acpi64 : Bool) (facp : ℕ) : ℕ :=
  if acpi64 then rd m (facp + 140) else rd32 m (facp + 40)

/-- The physical address of the root table. -/
def Acpi.root (A : Acpi) : ℕ := if A.acpi64 then A.xsdt else A.rsdt

section

variable {σ : Type*} (K : Mapper σ) (A : Acpi)

/-- Map the header of a table, read its length, unmap it, and map the whole. -/
def mapTable (phys : ℕ) (k : σ) : Mapped σ :=
  let (h, k) := K.mapAnon phys headerSize tableFlags k
  let length := lengthOf (K.mem k) h
  let (t, k) := K.mapAnon phys length tableFlags (K.unmapPages h headerSize k)
  ⟨t, length, k⟩

/-- The loop over the entries, of which `left` are still to come. -/
def entryLoop (sig : ℕ → UInt8) (index xsdt : ℕ) : (left i count : ℕ) → σ → ℕ × σ
  | 0, _, _, k => (0, k)
  | left + 1, i, count, k =>
    let m := mapTable K (entryAt (K.mem k) A.acpi64 xsdt i) k
    let count :=
      if memcmpBytes sig (bytesAt (K.mem m.kern) m.table) 4 = 0 then succ64 count else count
    if count = index then (m.table, m.kern)
    else entryLoop sig index xsdt left (i + 1) count
      (if m.table ≠ xsdt then K.unmapPages m.table m.length m.kern else m.kern)

/-- `if (xsdt == NULL)` -/
def openRoot (s : St σ) : Except Stop (St σ) :=
  if s.xsdt = 0 then
    let m := mapTable K A.root s.kern
    if memcmpBytes (bytesAt (K.mem m.kern) (m.table + 1)) sdtSig 3 = 0 then return ⟨m.kern, m.table⟩
    else throw .panic
  else return s

/-- `acpi_find` for a signature other than `"DSDT"`. -/
def findListed (sig : ℕ → UInt8) (index : ℕ) (s : St σ) : Except Stop (ℕ × St σ) := do
  let s ← openRoot K A s
  let r := entryLoop K A sig index s.xsdt (entriesOf (K.mem s.kern) A.acpi64 s.xsdt) 0 (2 ^ 64 - 1)
    s.kern
  return (r.1, ⟨r.2, s.xsdt⟩)

/-- `acpi_find`; its call of itself is for `"FACP"`. -/
def acpiFind (sig : ℕ → UInt8) (index : ℕ) (s : St σ) : Except Stop (ℕ × St σ) :=
  if memcmpBytes sig dsdtSig 4 = 0 then do
    let (facp, s) ← findListed K A facpSig 0 s
    if facp = 0 then throw .fault
    let m := mapTable K (dsdtOf (K.mem s.kern) A.acpi64 facp) s.kern
    return (m.table, ⟨m.kern, s.xsdt⟩)
  else findListed K A sig index s

end

/-! ### What the tables of the machine say -/

/-- The first four bytes of the table are the signature. -/
def Matches (P : Mem) (sig : ℕ → UInt8) (p : ℕ) : Prop := SameBelow sig (bytesAt P p) 4

instance (P : Mem) (sig : ℕ → UInt8) (p : ℕ) : Decidable (Matches P sig p) :=
  inferInstanceAs (Decidable (∀ i < 4, sig i = bytesAt P p i))

/-- The entries of the root table, in order. -/
def listed (P : Mem) (A : Acpi) : List ℕ :=
  (List.range (entriesOf P A.acpi64 A.root)).map (entryAt P A.acpi64 A.root)

/-- Those of them that have the signature. -/
def matching (P : Mem) (A : Acpi) (sig : ℕ → UInt8) : List ℕ :=
  (listed P A).filter fun p => Matches P sig p

/-- A root table with a header, and with the signature that `assert` asks for. -/
structure IsRoot (P : Mem) (A : Acpi) : Prop where
  header : headerSize ≤ lengthOf P A.root
  sig : SameBelow (bytesAt P (A.root + 1)) sdtSig 3

/-! ### The views of physical memory -/

section

variable {σ : Type*} {K : Mapper σ} {P : Mem} {View : σ → ℕ → ℕ → ℕ → Prop}

/-- The views of a state are still there. -/
def Kept (View : σ → ℕ → ℕ → ℕ → Prop) (k k' : σ) : Prop := ∀ v p n, View k v p n → View k' v p n

/-- No view begins at `t`. -/
def New (View : σ → ℕ → ℕ → ℕ → Prop) (k : σ) (t : ℕ) : Prop := ∀ v p n, View k v p n → t ≠ v

/-- `View k v p n`: at `v` the kernel sees the `n` bytes of physical memory from `p` on. `map_anon`
makes such a view, of a header at least, and both functions leave the other views alone. -/
structure Faithful (K : Mapper σ) (P : Mem) (View : σ → ℕ → ℕ → ℕ → Prop) : Prop where
  reads : ∀ {k v p n i}, View k v p n → i < n → K.mem k (v + i) = P (p + i)
  map_view : ∀ {k phys len flags t k'}, K.mapAnon phys len flags k = (t, k') → len < 2 ^ 32 →
    View k' t phys (max len headerSize)
  map_ne : ∀ {k phys len flags t k'}, K.mapAnon phys len flags k = (t, k') → t ≠ 0
  map_new : ∀ {k phys len flags t k'}, K.mapAnon phys len flags k = (t, k') → New View k t
  map_keeps : ∀ {k phys len flags t k'}, K.mapAnon phys len flags k = (t, k') → Kept View k k'
  unmap_keeps : ∀ {k u q m len v p n}, View k u q m → u ≠ v → View k v p n →
    View (K.unmapPages u len k) v p n

/-- A view of a whole table, or of its header. -/
def Shows (P : Mem) (View : σ → ℕ → ℕ → ℕ → Prop) (k : σ) (t p : ℕ) : Prop :=
  View k t p (max (lengthOf P p) headerSize)

/-- The value that is asked for: the table that was selected, if there is one. -/
def Selected (P : Mem) (View : σ → ℕ → ℕ → ℕ → Prop) (k : σ) (r : ℕ) (o : Option ℕ) : Prop :=
  o.elim (r = 0) fun p => r ≠ 0 ∧ Shows P View k r p

lemma Kept.refl (k : σ) : Kept View k k := fun _ _ _ h => h

lemma Kept.trans {k k' k'' : σ} (h : Kept View k k') (h' : Kept View k' k'') : Kept View k k'' :=
  fun v p n hv => h' v p n (h v p n hv)

lemma Selected.kept {k k' : σ} {r : ℕ} {o : Option ℕ} (h : Selected P View k r o)
    (hk : Kept View k k') : Selected P View k' r o := by
  cases o with
  | none => exact h
  | some p => exact ⟨h.1, hk _ _ _ h.2⟩

lemma rd32_move {m m' : Mem} {a b : ℕ} (h : ∀ i < 4, m' (a + i) = m (b + i)) :
    rd32 m' a = rd32 m b := by
  have h0 := h 0 (by omega)
  rw [Nat.add_zero, Nat.add_zero] at h0
  unfold rd32 rd
  rw [h0, h 1 (by omega), h 2 (by omega), h 3 (by omega)]
  omega

variable {k : σ} {t p : ℕ}

lemma Faithful.rd_eq {v n o : ℕ} (hK : Faithful K P View) (h : View k v p n) (ho : o + 8 ≤ n) :
    rd (K.mem k) (v + o) = rd P (p + o) := by
  refine rd_move fun i hi => ?_
  rw [Nat.add_assoc, Nat.add_assoc]
  exact hK.reads h (by omega)

lemma Faithful.rd32_eq {v n o : ℕ} (hK : Faithful K P View) (h : View k v p n) (ho : o + 4 ≤ n) :
    rd32 (K.mem k) (v + o) = rd32 P (p + o) := by
  refine rd32_move fun i hi => ?_
  rw [Nat.add_assoc, Nat.add_assoc]
  exact hK.reads h (by omega)

lemma Faithful.lengthOf_eq {v n : ℕ} (hK : Faithful K P View) (h : View k v p n)
    (hn : headerSize ≤ n) : lengthOf (K.mem k) v = lengthOf P p :=
  hK.rd32_eq h (by unfold headerSize at hn; omega)

lemma Faithful.bytes_eq {v n i : ℕ} (hK : Faithful K P View) (h : View k v p n) (hi : i < n) :
    bytesAt (K.mem k) v i = bytesAt P p i := hK.reads h hi

lemma Faithful.unmap_new {k₁ : σ} {n len : ℕ} (hK : Faithful K P View) (hk : Kept View k k₁)
    (hn : New View k t) (ht : View k₁ t p n) : Kept View k (K.unmapPages t len k₁) :=
  fun v q m hv => hK.unmap_keeps ht (hn v q m hv) (hk v q m hv)

/-- The table is mapped whole, at an address that is not that of a view. -/
lemma mapTable_spec (hK : Faithful K P View) (phys : ℕ) (k : σ) :
    ∃ t k', mapTable K phys k = ⟨t, lengthOf P phys, k'⟩ ∧ Shows P View k' t phys ∧ Kept View k k' ∧
      t ≠ 0 ∧ New View k t := by
  obtain ⟨h, k₁, e₁⟩ : ∃ h k₁, K.mapAnon phys headerSize tableFlags k = (h, k₁) := ⟨_, _, rfl⟩
  have hview := hK.map_view e₁ (by decide)
  have hlen := hK.lengthOf_eq hview (le_max_right _ _)
  have hkept : Kept View k (K.unmapPages h headerSize k₁) :=
    hK.unmap_new (hK.map_keeps e₁) (hK.map_new e₁) hview
  obtain ⟨t, k', e₂⟩ : ∃ t k', K.mapAnon phys (lengthOf P phys) tableFlags
    (K.unmapPages h headerSize k₁) = (t, k') := ⟨_, _, rfl⟩
  refine ⟨t, k', ?_, hK.map_view e₂ (Nat.mod_lt _ (by decide)), hkept.trans (hK.map_keeps e₂),
    hK.map_ne e₂, fun v p n hv => hK.map_new e₂ v p n (hkept v p n hv)⟩
  simp only [mapTable, e₁, hlen, e₂]

/-! ### The loop -/

lemma lengthOf_lt (P : Mem) (p : ℕ) : lengthOf P p < 2 ^ 32 := Nat.mod_lt _ (by decide)

lemma entriesOf_eq {w : Bool} (h : headerSize ≤ lengthOf P p) :
    entriesOf P w p = (lengthOf P p - headerSize) / if w then 8 else 4 := by
  have := lengthOf_lt P p
  rw [entriesOf, sub64_eq h (by omega)]

/-- An entry that the table has is inside its view. -/
lemma Faithful.entryAt_eq {xsdt root i : ℕ} {w : Bool} (hK : Faithful K P View)
    (h : Shows P View k xsdt root) (hlen : headerSize ≤ lengthOf P root)
    (hi : i < entriesOf P w root) : entryAt (K.mem k) w xsdt i = entryAt P w root i := by
  rw [entriesOf_eq hlen] at hi
  rw [entryAt, entryAt, Nat.add_assoc, Nat.add_assoc, Nat.add_assoc, Nat.add_assoc]
  by_cases hw : w
  · rw [if_pos hw] at hi
    rw [if_pos hw, if_pos hw]
    exact hK.rd_eq h (le_max_of_le_left (by omega))
  · rw [if_neg hw] at hi
    rw [if_neg hw, if_neg hw]
    exact hK.rd32_eq h (le_max_of_le_left (by omega))

lemma Faithful.memcmp_iff {sig : ℕ → UInt8} (hK : Faithful K P View) (h : Shows P View k t p) :
    memcmpBytes sig (bytesAt (K.mem k) t) 4 = 0 ↔ Matches P sig p := by
  rw [memcmpBytes_eq_zero_iff]
  refine forall₂_congr fun i hi => ?_
  rw [hK.bytes_eq h (lt_max_of_lt_right (by unfold headerSize; omega))]

/-- The counter after `c` matches. -/
def counter (c : ℕ) : ℕ := (c + (2 ^ 64 - 1)) % 2 ^ 64

lemma counter_zero : counter 0 = 2 ^ 64 - 1 := rfl

lemma counter_succ (c : ℕ) : succ64 (counter c) = counter (c + 1) := by
  unfold succ64 counter
  omega

lemma counter_ne {c index : ℕ} (hc : c ≤ index) (hindex : index < 2 ^ 64 - 1) :
    counter c ≠ index := by
  unfold counter
  omega

lemma counter_succ_eq_iff {c index : ℕ} (hc : c ≤ index) (hindex : index < 2 ^ 64 - 1) :
    counter (c + 1) = index ↔ c = index := by
  unfold counter
  omega

/-- One turn of the loop, which maps the table in the entry at `t`. -/
lemma entryLoop_succ {A : Acpi} {sig : ℕ → UInt8} {index xsdt left i count length : ℕ} {k₁ : σ}
    (hi : entryAt (K.mem k) A.acpi64 xsdt i = p) (h : mapTable K p k = ⟨t, length, k₁⟩) :
    entryLoop K A sig index xsdt (left + 1) i count k =
      if (if memcmpBytes sig (bytesAt (K.mem k₁) t) 4 = 0 then succ64 count else count) = index then
        (t, k₁)
      else entryLoop K A sig index xsdt left (i + 1)
        (if memcmpBytes sig (bytesAt (K.mem k₁) t) 4 = 0 then succ64 count else count)
        (if t ≠ xsdt then K.unmapPages t length k₁ else k₁) := by
  rw [entryLoop, hi, h]

/-- After `c` matches the loop selects, among the entries to come, the match that makes their number
`index + 1`. -/
lemma entryLoop_spec {A : Acpi} (sig : ℕ → UInt8) {index xsdt left i c : ℕ}
    (hK : Faithful K P View) (hindex : index < 2 ^ 64 - 1) (hlen : headerSize ≤ lengthOf P A.root)
    (hroot : Shows P View k xsdt A.root) (hin : i + left = entriesOf P A.acpi64 A.root)
    (hc : c ≤ index) :
    ∃ r k', entryLoop K A sig index xsdt left i (counter c) k = (r, k') ∧ Kept View k k' ∧
      Selected P View k' r ((((List.range' i left).map (entryAt P A.acpi64 A.root)).filter
        fun p => Matches P sig p)[index - c]?) := by
  induction left generalizing i c k with
  | zero => exact ⟨0, k, rfl, .refl k, rfl⟩
  | succ left ih =>
    have hentry := hK.entryAt_eq hroot hlen (show i < entriesOf P A.acpi64 A.root by omega)
    rw [List.range'_succ, List.map_cons]
    obtain ⟨p, hp⟩ : ∃ p, entryAt P A.acpi64 A.root i = p := ⟨_, rfl⟩
    rw [hp] at hentry ⊢
    obtain ⟨t, k₁, e, hshows, hkept, hne, hnew⟩ := mapTable_spec hK p k
    have hstep : Kept View k (if t ≠ xsdt then K.unmapPages t (lengthOf P p) k₁ else k₁) := by
      rw [if_pos (hnew _ _ _ hroot)]
      exact hK.unmap_new hkept hnew hshows
    simp only [entryLoop_succ hentry e, hK.memcmp_iff hshows, counter_succ]
    by_cases hm : Matches P sig p
    · rw [List.filter_cons, if_pos (decide_eq_true hm), if_pos hm]
      by_cases hci : c = index
      · -- this is the match that is asked for
        rw [if_pos ((counter_succ_eq_iff hc hindex).mpr hci), hci, Nat.sub_self]
        exact ⟨t, k₁, rfl, hkept, hne, hshows⟩
      · rw [if_neg fun h => hci ((counter_succ_eq_iff hc hindex).mp h)]
        obtain ⟨r, k', hr, hk', hsel⟩ := ih (i := i + 1) (c := c + 1) (hstep _ _ _ hroot) (by omega)
          (by omega)
        refine ⟨r, k', hr, hstep.trans hk', ?_⟩
        rwa [show index - c = index - (c + 1) + 1 by omega, List.getElem?_cons_succ]
    · rw [List.filter_cons, if_neg fun h => hm (of_decide_eq_true h), if_neg hm,
        if_neg (counter_ne hc hindex)]
      obtain ⟨r, k', hr, hk', hsel⟩ := ih (i := i + 1) (hstep _ _ _ hroot) (by omega) hc
      exact ⟨r, k', hr, hstep.trans hk', hsel⟩

/-! ### The calls -/

/-- The static variable is `NULL` or shows the root table. -/
def Cached (P : Mem) (View : σ → ℕ → ℕ → ℕ → Prop) (A : Acpi) (s : St σ) : Prop :=
  s.xsdt = 0 ∨ Shows P View s.kern s.xsdt A.root

variable {A : Acpi} {sig : ℕ → UInt8} {index : ℕ} {s : St σ}

lemma openRoot_spec (hK : Faithful K P View) (hroot : IsRoot P A) (hs : Cached P View A s) :
    ∃ s', openRoot K A s = .ok s' ∧ Shows P View s'.kern s'.xsdt A.root ∧
      Kept View s.kern s'.kern := by
  rw [openRoot]
  by_cases h0 : s.xsdt = 0
  · obtain ⟨t, k', e, hshows, hkept, -, -⟩ := mapTable_spec hK A.root s.kern
    have hsig : memcmpBytes (bytesAt (K.mem k') (t + 1)) sdtSig 3 = 0 := by
      refine memcmpBytes_eq_zero_iff.mpr fun i hi => ?_
      have := hK.bytes_eq (i := 1 + i) hshows (lt_max_of_lt_right (by unfold headerSize; omega))
      rw [← hroot.sig i hi, bytesAt, bytesAt, Nat.add_assoc, Nat.add_assoc]
      exact this
    rw [if_pos h0, e]
    exact ⟨⟨k', t⟩, if_pos hsig, hshows, hkept⟩
  · rw [if_neg h0]
    exact ⟨s, rfl, hs.resolve_left h0, .refl _⟩

lemma findListed_spec (sig : ℕ → UInt8) (hK : Faithful K P View) (hroot : IsRoot P A) (hs : Cached P View A s)
    (hindex : index < 2 ^ 64 - 1) :
    ∃ r s', findListed K A sig index s = .ok (r, s') ∧
      Selected P View s'.kern r (matching P A sig)[index]? ∧ Cached P View A s' ∧
      Kept View s.kern s'.kern := by
  obtain ⟨s₁, h₁, hshows, hkept⟩ := openRoot_spec hK hroot hs
  have hlen := hK.lengthOf_eq hshows (le_max_right _ _)
  have hn : entriesOf (K.mem s₁.kern) A.acpi64 s₁.xsdt = entriesOf P A.acpi64 A.root := by
    rw [entriesOf, hlen, entriesOf]
  obtain ⟨r, k', hr, hk', hsel⟩ := entryLoop_spec sig (i := 0) (c := 0) hK hindex
    hroot.header hshows (Nat.zero_add _) (Nat.zero_le _)
  refine ⟨r, ⟨k', s₁.xsdt⟩, ?_, ?_, Or.inr (hk' _ _ _ hshows), hkept.trans hk'⟩
  · have hloop : entryLoop K A sig index s₁.xsdt (entriesOf (K.mem s₁.kern) A.acpi64 s₁.xsdt) 0
        (2 ^ 64 - 1) s₁.kern = (r, k') := by
      rw [hn, ← counter_zero]
      exact hr
    simp only [findListed, h₁, hloop, bind, Except.bind]
    rfl
  · rw [matching, listed, List.range_eq_range']
    exact hsel

lemma Selected.eq_zero_iff {r index : ℕ} {l : List ℕ} (h : Selected P View k r l[index]?) :
    r = 0 ↔ l.length ≤ index := by
  rw [← List.getElem?_eq_none_iff]
  cases ho : l[index]? with
  | none => rw [ho] at h; exact iff_of_true h rfl
  | some p => rw [ho] at h; exact iff_of_false h.1 nofun

lemma Selected.shows {r : ℕ} {o : Option ℕ} (h : Selected P View k r o) : ∀ p, o = some p →
    Shows P View k r p := by
  rintro p rfl
  exact h.2

lemma acpiFind_eq (hsig : ¬ SameBelow sig dsdtSig 4) :
    acpiFind K A sig index s = findListed K A sig index s := by
  rw [acpiFind, if_neg]
  rwa [memcmpBytes_eq_zero_iff]

/-- **`acpi_find` selects the right table.** With a faithful `map_anon`, whether the root table was
open before or not, it returns a view of the table in the entry of the match number `index + 1`, and
`NULL` just when there are not so many matches. -/
theorem acpi_find_selects (A : Acpi) (sig : ℕ → UInt8) (index : ℕ) (s : St σ)
    (hK : Faithful K P View) (hroot : IsRoot P A) (hs : Cached P View A s)
    (hsig : ¬ SameBelow sig dsdtSig 4) (hindex : index < 2 ^ 64 - 1) :
    ∃ r s', acpiFind K A sig index s = .ok (r, s') ∧ Cached P View A s' ∧
      (r = 0 ↔ (matching P A sig).length ≤ index) ∧
      ∀ p, (matching P A sig)[index]? = some p → Shows P View s'.kern r p := by
  obtain ⟨r, s', h, hsel, hs', -⟩ := findListed_spec sig hK hroot hs hindex
  exact ⟨r, s', (acpiFind_eq hsig).trans h, hs', hsel.eq_zero_iff, hsel.shows⟩

end

/-! ### A mapper that never uses an address again -/

/-- Mappings in slots of 2^40 bytes, of which those from `next` on are free. -/
structure Slots where
  next : ℕ
  phys : ℕ → Option ℕ
  pos : 0 < next

def slotMapper (P : Mem) : Mapper Slots where
  mem k a := (k.phys (a / 2 ^ 40)).elim 0 fun p => P (p / 0x1000 * 0x1000 + a % 2 ^ 40)
  mapAnon p _ _ k :=
    (k.next * 2 ^ 40 + p % 0x1000,
      ⟨k.next + 1, Function.update k.phys k.next (some p), Nat.succ_pos _⟩)
  unmapPages v _ k := { k with phys := Function.update k.phys (v / 2 ^ 40) none }

structure SlotView (k : Slots) (v p n : ℕ) : Prop where
  slot : k.phys (v / 2 ^ 40) = some p
  offset : v % 2 ^ 40 = p % 0x1000
  old : v / 2 ^ 40 < k.next
  len : n ≤ 2 ^ 32

lemma slotMapper_faithful (P : Mem) : Faithful (slotMapper P) P SlotView where
  reads := by
    intro k v p n i h hi
    have h1 := h.offset
    have h2 := h.len
    have hslot : (v + i) / 2 ^ 40 = v / 2 ^ 40 := by omega
    simp only [slotMapper, hslot, h.slot, Option.elim_some]
    congr 1
    omega
  map_view := by
    rintro k phys len flags t k' ⟨⟩ hlen
    have hslot : (k.next * 2 ^ 40 + phys % 0x1000) / 2 ^ 40 = k.next := by omega
    refine ⟨?_, by omega, ?_, ?_⟩
    · rw [hslot]
      exact Function.update_self ..
    · rw [hslot]
      exact Nat.lt_succ_self _
    · exact max_le hlen.le (by decide)
  map_ne := by
    rintro k phys len flags t k' ⟨⟩
    have := k.pos
    omega
  map_new := by
    rintro k phys len flags t k' ⟨⟩ v p n h rfl
    have := h.old
    omega
  map_keeps := by
    rintro k phys len flags t k' ⟨⟩ v p n h
    have hold := h.old
    refine ⟨?_, h.offset, Nat.lt_succ_of_lt hold, h.len⟩
    exact (Function.update_of_ne hold.ne ..).trans h.slot
  unmap_keeps := by
    intro k u q m len v p n hu hne hv
    refine ⟨?_, hv.offset, hv.old, hv.len⟩
    refine (Function.update_of_ne (fun heq => hne ?_) ..).trans hv.slot
    have hslot := hv.slot
    rw [heq, hu.slot, Option.some.injEq] at hslot
    have h1 := hu.offset
    have h2 := hv.offset
    rw [hslot] at h1
    omega

/-- `"APIC"` -/
def apicSig : ℕ → UInt8 := lit ['A', 'P', 'I', 'C']

/-- An `XSDT` at 0x1000 whose two entries, 0x1100 and 0x1200, both lead to an `APIC`. -/
def twoApics : Mem := fun x =>
  if 0x1000 ≤ x ∧ x < 0x1004 then lit ['X', 'S', 'D', 'T'] (x - 0x1000)
  else if 0x1100 ≤ x ∧ x < 0x1104 then apicSig (x - 0x1100)
  else if 0x1200 ≤ x ∧ x < 0x1204 then apicSig (x - 0x1200)
  else if x = 0x1004 then 52 else if x = 0x1104 ∨ x = 0x1204 then 36
  else if x = 0x1025 then 0x11 else if x = 0x102D then 0x12 else 0

theorem acpi_find_selects_second : ∃ r s',
    acpiFind (slotMapper twoApics) ⟨true, 0x1000, 0⟩ apicSig 1 ⟨⟨1, fun _ => none, by decide⟩, 0⟩ =
      .ok (r, s') ∧ r ≠ 0 ∧ Shows twoApics SlotView s'.kern r 0x1200 := by
  have hm : matching twoApics ⟨true, 0x1000, 0⟩ apicSig = [0x1100, 0x1200] := by decide
  have hroot : IsRoot twoApics ⟨true, 0x1000, 0⟩ := ⟨by decide, by unfold SameBelow; decide⟩
  have hsig : ¬ SameBelow apicSig dsdtSig 4 := by
    unfold SameBelow
    decide
  obtain ⟨r, s', h, -, hnull, hshows⟩ := acpi_find_selects ⟨true, 0x1000, 0⟩ apicSig 1
    ⟨⟨1, fun _ => none, by decide⟩, 0⟩ (slotMapper_faithful twoApics) hroot (Or.inl rfl) hsig
    (by decide)
  rw [hm] at hnull hshows
  exact ⟨r, s', h, fun h0 => absurd (hnull.mp h0) (by decide), hshows _ rfl⟩

section

variable {σ : Type*} {K : Mapper σ} {P : Mem} {View : σ → ℕ → ℕ → ℕ → Prop} {A : Acpi}
  {sig : ℕ → UInt8} {index : ℕ} {s : St σ}

/-- The table that the first `FACP` names, if it is long enough to name one. -/
theorem acpi_find_dsdt {facp : ℕ} (hK : Faithful K P View) (hroot : IsRoot P A)
    (hs : Cached P View A s) (hsig : SameBelow sig dsdtSig 4)
    (hfacp : (matching P A facpSig)[0]? = some facp)
    (hlen : (if A.acpi64 then 148 else 44) ≤ lengthOf P facp) :
    ∃ r s', acpiFind K A sig index s = .ok (r, s') ∧ Cached P View A s' ∧ r ≠ 0 ∧
      Shows P View s'.kern r (dsdtOf P A.acpi64 facp) := by
  obtain ⟨f, s₁, h, hsel, hs₁, -⟩ := findListed_spec facpSig hK hroot hs
    (show 0 < 2 ^ 64 - 1 by decide)
  rw [hfacp] at hsel
  obtain ⟨hne, hshows⟩ := hsel
  have haddr : dsdtOf (K.mem s₁.kern) A.acpi64 f = dsdtOf P A.acpi64 facp := by
    rw [dsdtOf, dsdtOf]
    by_cases hw : A.acpi64
    · rw [if_pos hw] at hlen
      rw [if_pos hw, if_pos hw]
      exact hK.rd_eq hshows (le_max_of_le_left hlen)
    · rw [if_neg hw] at hlen
      rw [if_neg hw, if_neg hw]
      exact hK.rd32_eq hshows (le_max_of_le_left hlen)
  obtain ⟨t, k', e, htable, hkept, ht, -⟩ := mapTable_spec hK (dsdtOf P A.acpi64 facp) s₁.kern
  refine ⟨t, ⟨k', s₁.xsdt⟩, ?_, hs₁.imp id fun hv => hkept _ _ _ hv, ht, htable⟩
  simp only [acpiFind, if_pos (memcmpBytes_eq_zero_iff.mpr hsig), h, if_neg hne, haddr, e, bind,
    Except.bind, pure, Except.pure]

/-! ### Runs -/

/-- One call after the other, with the results. -/
def findAll (K : Mapper σ) (A : Acpi) :
    List ((ℕ → UInt8) × ℕ) → St σ → Except Stop (List ℕ × St σ)
  | [], s => return ([], s)
  | q :: qs, s => do
    let (r, s) ← acpiFind K A q.1 q.2 s
    let (rs, s) ← findAll K A qs s
    return (r :: rs, s)

lemma findAll_spec {qs : List ((ℕ → UInt8) × ℕ)} (hK : Faithful K P View) (hroot : IsRoot P A)
    (hs : Cached P View A s)
    (hqs : ∀ q ∈ qs, ¬ SameBelow q.1 dsdtSig 4 ∧ q.2 < 2 ^ 64 - 1) :
    ∃ rs s', findAll K A qs s = .ok (rs, s') ∧ Kept View s.kern s'.kern ∧
      List.Forall₂ (fun q r => Selected P View s'.kern r (matching P A q.1)[q.2]?) qs rs := by
  induction qs generalizing s with
  | nil => exact ⟨[], s, rfl, .refl _, .nil⟩
  | cons q qs ih =>
    obtain ⟨hsig, hindex⟩ := hqs q (List.mem_cons_self ..)
    obtain ⟨r, s₁, h₁, hsel, hs₁, hk₁⟩ := findListed_spec q.1 hK hroot hs hindex
    obtain ⟨rs, s', h', hk', hall⟩ := ih hs₁ fun p hp => hqs p (List.mem_cons_of_mem _ hp)
    refine ⟨r :: rs, s', ?_, hk₁.trans hk', .cons (hsel.kept hk') hall⟩
    simp only [findAll, acpiFind_eq hsig, h₁, h', bind, Except.bind, pure, Except.pure]

/-- **Tables stay in view.** In every run of calls from the state in which the root table is not
open, each result still shows its table at the end. -/
theorem find_all_selects (k₀ : σ) {qs : List ((ℕ → UInt8) × ℕ)} (hK : Faithful K P View)
    (hroot : IsRoot P A) (hqs : ∀ q ∈ qs, ¬ SameBelow q.1 dsdtSig 4 ∧ q.2 < 2 ^ 64 - 1) :
    ∃ rs s', findAll K A qs ⟨k₀, 0⟩ = .ok (rs, s') ∧
      List.Forall₂ (fun q r => Selected P View s'.kern r (matching P A q.1)[q.2]?) qs rs := by
  obtain ⟨rs, s', h, -, hall⟩ := findAll_spec hK hroot (Or.inl rfl : Cached P View A ⟨k₀, 0⟩) hqs
  exact ⟨rs, s', h, hall⟩

end

end Silkware.AcpiFind
