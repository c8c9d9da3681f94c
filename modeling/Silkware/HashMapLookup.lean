import Silkware.HashMapSound

/-!
Lookups and deletions in a map whose used cells are up to `max`.

A search begins at a cell that the hash gives, cut down to `max`, and goes round the cells up to
it. It comes by each of them once, so holes that deletions left make no difference to it.
-/

namespace Silkware.HashMapLookup

open Silkware.Kern Silkware.HashMap Silkware.HashMapRuns Silkware.HashMapSound

variable {m : Map} {k v : Bytes}

/-- The maps in which a search finds every key: the used cells are up to `max`, which is not zero,
no key is in two cells, and each cell has a value and the hash of its key. -/
structure Searchable (m : Map) : Prop where
  pos : 0 < m.max
  max : m.max < m.cap
  used : ∀ i, Used m i → i ≤ m.max
  cells : ∀ i x, (m.cell i).k = some x → x.n = x.item.length ∧ (m.cell i).h = HashMap.hash x.item ∧
    ((m.cell i).v).isSome
  inj : ∀ i j k, keyAt m i = some k → keyAt m j = some k → i = j

/-- Cell `i` holds the key `k` and the value `v`. -/
def Holds (m : Map) (i : ℕ) (k v : Bytes) : Prop :=
  keyAt m i = some k ∧ (m.cell i).v.map (·.item) = some v

lemma used_of_keyAt {i : ℕ} (h : keyAt m i = some k) : Used m i := by
  obtain ⟨x, hx, -⟩ := Option.map_eq_some_iff.mp h
  unfold Used
  rw [hx]
  rfl

lemma Searchable.holds (h : Searchable m) {i : ℕ} (hk : keyAt m i = some k) : ∃ v, Holds m i k v := by
  obtain ⟨x, hx, -⟩ := Option.map_eq_some_iff.mp hk
  obtain ⟨v, hv⟩ := Option.isSome_iff_exists.mp (h.cells i x hx).2.2
  exact ⟨v.item, hk, by rw [hv]; rfl⟩

/-- Such a map stands for the partial function that its cells give. -/
lemma Searchable.rep (h : Searchable m) : ∃ f, Rep m f ∧ ∀ k v, f k = some v ↔ ∃ i, Holds m i k v := by
  have hval : ∀ k, ∃ o : Option Bytes, ∀ v, o = some v ↔ ∃ i, Holds m i k v := by
    intro k
    by_cases hk : ∃ i, keyAt m i = some k
    · obtain ⟨i, hi⟩ := hk
      obtain ⟨v, hv⟩ := h.holds hi
      refine ⟨some v, fun v' => ⟨fun e => ⟨i, Option.some.inj e ▸ hv⟩, ?_⟩⟩
      rintro ⟨j, hj, hv'⟩
      obtain rfl := h.inj i j k hi hj
      exact hv.2.symm.trans hv'
    · exact ⟨none, fun v => ⟨nofun, fun ⟨i, hi, _⟩ => absurd ⟨i, hi⟩ hk⟩⟩
  choose f hf using hval
  refine ⟨f, ⟨h.max, fun i hi => ?_, fun h0 => ?_, fun i x hx => ?_, h.inj, fun k hk => ?_⟩, hf⟩
  · cases hk : keyAt m i with
    | none => rfl
    | some k =>
      have := h.used i (used_of_keyAt hk)
      omega
  · have := h.pos
    omega
  · obtain ⟨hn, hh, hv⟩ := h.cells i x hx
    obtain ⟨v, hv⟩ := Option.isSome_iff_exists.mp hv
    exact ⟨hn, hh, v, hv, (hf x.item v.item).mpr ⟨i, by rw [keyAt, hx]; rfl, by rw [hv]; rfl⟩⟩
  · obtain ⟨v, hv⟩ := Option.isSome_iff_exists.mp hk
    obtain ⟨i, hi, -⟩ := (hf k v).mp hv
    exact ⟨i, hi⟩

lemma Searchable.of_rep {f : Bytes → Option Bytes} (h : Rep m f) (hpos : 0 < m.max) : Searchable m := by
  refine ⟨hpos, h.max, fun i hu => ?_, fun i x hx => ?_, h.inj⟩
  · obtain ⟨x, hx⟩ := Option.isSome_iff_exists.mp hu
    exact h.key_le (k := x.item) (by rw [keyAt, hx]; rfl)
  · obtain ⟨hn, hh, v, hv, -⟩ := h.cells i x hx
    exact ⟨hn, hh, by rw [hv]; rfl⟩

/-- **A lookup finds the cell of its key, if there is one**, and a deletion takes one key out and
leaves what every other lookup finds. -/
theorem lookup_complete (h : Searchable m) :
    (∀ k v, mapGet m k = .ok (some v) ↔ ∃ i, Holds m i k v) ∧
    (∀ k, (∀ i, keyAt m i ≠ some k) → mapGet m k = .ok none) ∧
    ∀ k₁, ∃ m', mapDel m k₁ = .ok m' ∧ Searchable m' ∧ mapGet m' k₁ = .ok none ∧
      ∀ k₂, k₂ ≠ k₁ → mapGet m' k₂ = mapGet m k₂ := by
  obtain ⟨f, hr, hf⟩ := h.rep
  refine ⟨fun k v => ?_, fun k hk => ?_, fun k₁ => ?_⟩
  · rw [hr.get, Except.ok.injEq]
    exact hf k v
  · rw [hr.get, Except.ok.injEq, Option.eq_none_iff_forall_ne_some]
    intro v hv
    obtain ⟨i, hi, -⟩ := (hf k v).mp hv
    exact hk i hi
  · obtain ⟨m', hd, hmax, -, -, hr'⟩ := hr.del k₁
    refine ⟨m', hd, .of_rep hr' (hmax ▸ h.pos), ?_, fun k₂ hne => ?_⟩
    · rw [hr'.get, if_pos rfl]
    · rw [hr'.get, hr.get, if_neg hne]

/-- Two keys, with a hole between them. -/
def holed : Map :=
  ⟨5, 8, fun i => if i = 1 then ⟨HashMap.hash [1], some (flexOf [1]), some (flexOf [2])⟩
    else if i = 5 then ⟨HashMap.hash [7], some (flexOf [7]), some (flexOf [3])⟩ else ⟨0, none, none⟩⟩

lemma holed_searchable : Searchable holed := by
  have hkey : ∀ i x, (holed.cell i).k = some x → i = 1 ∧ x = flexOf [1] ∨ i = 5 ∧ x = flexOf [7] := by
    intro i x hx
    unfold holed at hx
    simp only at hx
    split at hx
    · rename_i hi
      exact Or.inl ⟨hi, (Option.some.inj hx).symm⟩
    · split at hx
      · rename_i hi
        exact Or.inr ⟨hi, (Option.some.inj hx).symm⟩
      · cases hx
  refine ⟨by decide, by decide, fun i hu => ?_, fun i x hx => ?_, fun i j k hi hj => ?_⟩
  · obtain ⟨x, hx⟩ := Option.isSome_iff_exists.mp hu
    rcases hkey i x hx with ⟨rfl, -⟩ | ⟨rfl, -⟩ <;> decide
  · rcases hkey i x hx with ⟨rfl, rfl⟩ | ⟨rfl, rfl⟩ <;> decide
  · obtain ⟨x, hx, rfl⟩ := Option.map_eq_some_iff.mp hi
    obtain ⟨y, hy, hxy⟩ := Option.map_eq_some_iff.mp hj
    rcases hkey i x hx with ⟨rfl, rfl⟩ | ⟨rfl, rfl⟩ <;> rcases hkey j y hy with ⟨rfl, rfl⟩ | ⟨rfl, rfl⟩
    · rfl
    · exact absurd hxy (by decide)
    · exact absurd hxy (by decide)
    · rfl

theorem lookup_complete_holed : (∀ k v, mapGet holed k = .ok (some v) ↔ ∃ i, Holds holed i k v) ∧
    (∀ k, (∀ i, keyAt holed i ≠ some k) → mapGet holed k = .ok none) ∧
    ∀ k₁, ∃ m', mapDel holed k₁ = .ok m' ∧ Searchable m' ∧ mapGet m' k₁ = .ok none ∧
      ∀ k₂, k₂ ≠ k₁ → mapGet m' k₂ = mapGet holed k₂ :=
  lookup_complete holed_searchable

end Silkware.HashMapLookup
