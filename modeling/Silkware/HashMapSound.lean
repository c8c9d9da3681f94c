import Silkware.HashMapRuns
import Silkware.Outcome
import Mathlib.Data.Finset.Card

/-!
What a lookup can return, whatever became of the map.

Insertion loses entries when the map grows, and garbles the key it inserts then. Still it always
returns, and a lookup of a word finds a value that was inserted for that word, or nothing.
-/

namespace Silkware.HashMapSound

open Silkware.Kern Silkware.Probe Silkware.HashMap Silkware.HashMapRuns
open Silkware.Outcome

variable {m n : Map} {P Q : Bytes → Bytes → Prop} {k v : Bytes}

/-- Every cell with a key of eight bytes holds a pair in `P`. -/
structure Sound (P : Bytes → Bytes → Prop) (m : Map) : Prop where
  cap : 2 ≤ m.cap
  max : m.max < m.cap
  cells : ∀ i x, (m.cell i).k = some x → x.n = 8 → x.item.length = 8 ∧
    ∃ v, (m.cell i).v = some v ∧ P x.item v.item

lemma Sound.new (P : Bytes → Bytes → Prop) (n : ℕ) : Sound P (mapNew n) := by
  refine ⟨?_, ?_, by simp [mapNew]⟩ <;> simp only [mapNew] <;> split <;> omega

lemma Sound.mono (h : Sound P m) (hpq : ∀ k v, P k v → Q k v) : Sound Q m := by
  refine ⟨h.cap, h.max, fun i x hx hn => ?_⟩
  obtain ⟨hl, v, hv, hp⟩ := h.cells i x hx hn
  exact ⟨hl, v, hv, hpq _ _ hp⟩

/-! ### Lookup -/

lemma Sound.sameKey (h : Sound P m) (hk : k.length = 8) (i : ℕ) :
    ∃ b, sameKey (m.cell i) (HashMap.hash k) k = .ok b ∧
      (b = true → ∃ v, (m.cell i).v = some v ∧ P k v.item) := by
  unfold HashMap.sameKey
  cases hc : (m.cell i).k with
  | none => exact ⟨false, rfl, nofun⟩
  | some x =>
    simp only
    split
    · rename_i hcond
      obtain ⟨hl, v, hv, hp⟩ := h.cells i x hc (by omega)
      rw [if_pos (by omega), List.take_of_length_le (by omega)]
      refine ⟨decide (x.item = k), rfl, fun hb => ⟨v, hv, ?_⟩⟩
      rw [decide_eq_true_iff] at hb
      rwa [hb] at hp
    · exact ⟨false, rfl, nofun⟩

/-- A lookup returns a value that belongs to the key, or nothing. -/
lemma Sound.get (h : Sound P m) (hk : k.length = 8) :
    mapGet m k = .ok none ∨ ∃ v, mapGet m k = .ok (some v) ∧ P k v := by
  choose b hb hv using h.sameKey hk
  have hfind : ∃ i c, find m k = .ok (i, c) ∧ (c = true → ∃ v, (m.cell i).v = some v ∧ P k v.item) := by
    unfold find
    by_cases h0 : m.max = 0
    · exact ⟨0, false, by simp [h0, pure, Except.pure], nofun⟩
    · simp only [if_neg h0]
      set idx := if m.max < HashMap.hash k % m.cap then m.max else HashMap.hash k % m.cap
      have hidx : idx < m.max + 1 := by
        simp only [idx]; split <;> omega
      obtain ⟨i, -, hp, -⟩ := probe_spec Stop.hang hidx fun i _ => hb i
      exact ⟨i, b i, hp, hv i⟩
  obtain ⟨i, c, hf, hc⟩ := hfind
  unfold mapGet
  simp only [hf, bind, Except.bind]
  cases c with
  | false => exact Or.inl rfl
  | true =>
    obtain ⟨v, hv, hp⟩ := hc rfl
    exact Or.inr ⟨v.item, by simp [hv, pure, Except.pure], hp⟩

/-! ### Growing -/

/-- Cell `i` is in use. -/
def Used (m : Map) (i : ℕ) : Prop := (m.cell i).k.isSome = true

instance (m : Map) (i : ℕ) : Decidable (Used m i) := by unfold Used; infer_instance

lemma not_used_iff {i : ℕ} : ¬ Used m i ↔ (m.cell i).k = none := by
  unfold Used
  rw [Bool.not_eq_true, Option.isSome_eq_false_iff, Option.isNone_iff_eq_none]

/-- The search in the new map comes by every cell below the old capacity. -/
lemma growProbe_ok {cap fuel idx t : ℕ} (hidx : idx < cap) (ht : t < fuel)
    (hfree : (n.cell ((idx + t) % cap)).k = none) : ∃ j, growProbe n cap fuel idx = .ok j := by
  induction fuel generalizing idx t with
  | zero => omega
  | succ fuel ih =>
    rw [growProbe]
    by_cases hk : (n.cell idx).k.isSome = true
    · rw [if_pos hk]
      obtain ⟨t, rfl⟩ : ∃ t', t = t' + 1 := by
        refine ⟨t - 1, ?_⟩
        by_contra ht0
        obtain rfl : t = 0 := by omega
        rw [Nat.add_zero, Nat.mod_eq_of_lt hidx] at hfree
        rw [hfree] at hk
        cases hk
      refine ih (t := t) (Nat.mod_lt _ (by omega)) (by omega) ?_
      rwa [Nat.mod_add_mod, Nat.add_right_comm, Nat.add_assoc]
    · rw [if_neg hk]
      exact ⟨idx, rfl⟩

/-- It ends at a free cell, where it began or below the old capacity. -/
lemma growProbe_free {cap fuel idx j : ℕ} (hcap : 0 < cap) (h : growProbe n cap fuel idx = .ok j) :
    ¬ Used n j ∧ (j = idx ∨ j < cap) := by
  induction fuel generalizing idx with
  | zero => cases h
  | succ fuel ih =>
    rw [growProbe] at h
    split at h
    · obtain ⟨h1, h2⟩ := ih h
      have := Nat.mod_lt (idx + 1) hcap
      exact ⟨h1, Or.inr (by omega)⟩
    · rename_i hk
      obtain rfl : idx = j := Except.ok.inj h
      exact ⟨hk, Or.inl rfl⟩

/-- The cells below `cap` that are in use. -/
def occupied (cap : ℕ) (n : Map) : Finset ℕ := (Finset.range cap).filter fun j => (n.cell j).k.isSome

/-- With cells to spare, one outside `t` is free. -/
lemma exists_free (t : Finset ℕ) {cap : ℕ} (h : (occupied cap n).card + t.card < cap) :
    ∃ j < cap, j ∉ t ∧ (n.cell j).k = none := by
  have hcard : (occupied cap n ∪ t).card < (Finset.range cap).card := by
    rw [Finset.card_range]
    exact (Finset.card_union_le _ _).trans_lt h
  obtain ⟨j, hj, hno⟩ := Finset.exists_mem_notMem_of_card_lt_card hcard
  rw [Finset.mem_union, not_or] at hno
  refine ⟨j, Finset.mem_range.mp hj, hno.2, ?_⟩
  by_contra hk
  exact hno.1 (Finset.mem_filter.mpr ⟨hj, Option.isSome_iff_ne_none.mpr hk⟩)

/-- With a free cell below the old capacity, the search ends. -/
lemma exists_growProbe {cap : ℕ} (idx : ℕ) (hroom : (occupied cap n).card < cap) :
    ∃ j, growProbe n cap (cap + 2) idx = .ok j := by
  obtain ⟨j, hj, -, hfree⟩ := exists_free ∅ (by simpa using hroom)
  rw [growProbe]
  by_cases hs : (n.cell idx).k.isSome = true
  · rw [if_pos hs]
    set p := (idx + 1) % cap
    have hp : p < cap := Nat.mod_lt _ (by omega)
    refine growProbe_ok (t := (j + cap - p) % cap) hp ?_ ?_
    · have := Nat.mod_lt (j + cap - p) (show 0 < cap by omega)
      omega
    · rwa [Nat.add_mod_mod, Nat.add_sub_cancel' (by omega), Nat.add_mod_right, Nat.mod_eq_of_lt hj]
  · rw [if_neg hs]
    exact ⟨_, rfl⟩

/-- The first `t` cells of `m` are in `n`, those in use at the places `f`, and nothing else is. -/
structure Placed (m n : Map) (f : ℕ → ℕ) (t : ℕ) : Prop where
  lt : ∀ i < t, Used m i → f i < n.cap
  cell : ∀ i < t, Used m i → n.cell (f i) = m.cell i
  inj : ∀ i < t, ∀ j < t, Used m i → Used m j → f i = f j → i = j
  onto : ∀ j, Used n j → ∃ i < t, Used m i ∧ f i = j

variable {f : ℕ → ℕ} {t : ℕ}

/-- So the new map has at most `t` cells in use. -/
lemma Placed.occupied_le (h : Placed m n f t) (cap : ℕ) : (occupied cap n).card ≤ t := by
  have hsub : occupied cap n ⊆ (Finset.range t).image f := by
    intro j hj
    obtain ⟨i, hi, -, hij⟩ := h.onto j (Finset.mem_filter.mp hj).2
    exact Finset.mem_image.mpr ⟨i, Finset.mem_range.mpr hi, hij⟩
  exact ((Finset.card_le_card hsub).trans Finset.card_image_le).trans_eq (Finset.card_range t)

lemma Placed.new (m : Map) (c : ℕ) (f : ℕ → ℕ) : Placed m (mapNew c) f 0 := by
  refine ⟨fun i hi => by omega, fun i hi => by omega, fun i hi => by omega, fun j hj => ?_⟩
  cases hj

/-- One cell more. -/
lemma Placed.step (h : Placed m n f t) (ht : t < m.cap) (hcap : m.cap ≤ n.cap) :
    ∃ n' f', growCell m n t = .ok n' ∧ n'.max = n.max ∧ n'.cap = n.cap ∧ Placed m n' f' (t + 1) := by
  unfold growCell
  by_cases hk : (m.cell t).k.isSome = true
  · have hroom := h.occupied_le m.cap
    have hspare : (occupied m.cap n).card < m.cap := by omega
    obtain ⟨idx, hidx⟩ := exists_growProbe ((m.cell t).h % n.cap) hspare
    obtain ⟨hfree, hlt⟩ := growProbe_free (by omega) hidx
    have hmod := Nat.mod_lt (m.cell t).h (show 0 < n.cap by omega)
    rw [if_pos hk, hidx]
    have hne : ∀ i < t, Used m i → f i ≠ idx := by
      rintro i hi hu rfl
      apply hfree
      unfold Used
      rw [h.cell i hi hu]
      exact hu
    have hold : ∀ i, i < t → Function.update f t idx i = f i :=
      fun i hi => Function.update_of_ne (by omega) _ _
    refine ⟨_, Function.update f t idx, rfl, rfl, rfl, fun i hi hu => ?_, fun i hi hu => ?_,
      fun i hi j hj hi' hj' he => ?_, fun j hj => ?_⟩
    · rcases Nat.lt_succ_iff_lt_or_eq.mp hi with hi | rfl
      · rw [hold i hi]
        exact h.lt i hi hu
      · rw [Function.update_self]
        change idx < n.cap
        omega
    · rcases Nat.lt_succ_iff_lt_or_eq.mp hi with hi | rfl
      · rw [hold i hi]
        simp only [setCell, if_neg (hne i hi hu)]
        exact h.cell i hi hu
      · rw [Function.update_self]
        simp only [setCell, if_true]
    · rcases Nat.lt_succ_iff_lt_or_eq.mp hi with hi | rfl <;>
        rcases Nat.lt_succ_iff_lt_or_eq.mp hj with hj | rfl
      · rw [hold i hi, hold j hj] at he
        exact h.inj i hi j hj hi' hj' he
      · rw [hold i hi, Function.update_self] at he
        exact absurd he (hne i hi hi')
      · rw [Function.update_self, hold j hj] at he
        exact absurd he.symm (hne j hj hj')
      · rfl
    · by_cases hji : j = idx
      · exact ⟨t, Nat.lt_succ_self t, hk, by rw [Function.update_self, hji]⟩
      · have hj' : Used n j := by
          unfold Used at hj ⊢
          simpa only [setCell, if_neg hji] using hj
        obtain ⟨i, hi, hu, hij⟩ := h.onto j hj'
        exact ⟨i, Nat.lt_succ_of_lt hi, hu, by rw [hold i hi, hij]⟩
  · rw [if_neg hk]
    have hlt : ∀ i, i < t + 1 → Used m i → i < t := by
      intro i hi hu
      rcases Nat.lt_succ_iff_lt_or_eq.mp hi with hi | rfl
      · exact hi
      · exact absurd hu hk
    refine ⟨n, f, rfl, rfl, rfl, fun i hi hu => h.lt i (hlt i hi hu) hu,
      fun i hi hu => h.cell i (hlt i hi hu) hu,
      fun i hi j hj hu hu' => h.inj i (hlt i hi hu) j (hlt j hj hu') hu hu', fun j hj => ?_⟩
    obtain ⟨i, hi, hu⟩ := h.onto j hj
    exact ⟨i, Nat.lt_succ_of_lt hi, hu⟩

/-- All cells up to `t` in turn. -/
lemma placed_all {c : ℕ} (hc : m.cap ≤ (mapNew c).cap) (ht : t ≤ m.cap) :
    ∃ n f, (List.range t).foldlM (growCell m) (mapNew c) = .ok n ∧ n.max = 0 ∧
      n.cap = (mapNew c).cap ∧ Placed m n f t := by
  induction t with
  | zero => exact ⟨_, id, rfl, rfl, rfl, Placed.new m c id⟩
  | succ t ih =>
    obtain ⟨n₁, f₁, h1, hmax, hcap, hp⟩ := ih (by omega)
    obtain ⟨n₂, f₂, h2, hmax', hcap', hp'⟩ := hp.step (by omega) (by omega)
    refine ⟨n₂, f₂, ?_, hmax'.trans hmax, hcap'.trans hcap, hp'⟩
    rw [List.range_succ, List.foldlM_append, h1]
    change (growCell m n₁ t >>= pure) = _
    rw [h2]
    rfl

lemma mapNew_cap (c : ℕ) : c ≤ (mapNew c).cap := by
  simp only [mapNew]
  split <;> omega

/-- **Growth ends**, and places every cell up to `max` in the new map. -/
lemma mapGrow_placed {c : ℕ} (hmax : m.max < m.cap) (hc : m.cap < c) :
    ∃ n f, mapGrow m c = .ok n ∧ n.max = 0 ∧ n.cap = (mapNew c).cap ∧ Placed m n f (m.max + 1) := by
  have := mapNew_cap c
  rw [mapGrow, if_neg (by omega)]
  exact placed_all (by omega) hmax

/-- What belongs in the old map belongs in the new one. -/
lemma Sound.placed (h : Sound P m) (hp : Placed m n f t) (hcap : 2 ≤ n.cap) (hmax : n.max < n.cap) :
    Sound P n := by
  refine ⟨hcap, hmax, fun j x hx h8 => ?_⟩
  obtain ⟨i, hi, hu, rfl⟩ := hp.onto j (by unfold Used; rw [hx]; rfl)
  rw [hp.cell i hi hu] at hx ⊢
  exact h.cells i x hx h8

/-- The larger map has at most as many cells in use as the old one has cells. -/
lemma Sound.growTo (h : Sound P m) {c : ℕ} (hc : m.cap < c) : ∃ n, mapGrow m c = .ok n ∧ Sound P n ∧
    n.cap = (mapNew c).cap ∧ ∀ cap, (occupied cap n).card ≤ m.cap := by
  have hmax := h.max
  have hcap' := h.cap
  have hle := mapNew_cap c
  obtain ⟨n, f, hn, hmax', hcap, hp⟩ := mapGrow_placed hmax hc
  refine ⟨n, hn, h.placed hp (by omega) (by omega), hcap, fun cap => ?_⟩
  have := hp.occupied_le cap
  omega

lemma Sound.grow (h : Sound P m) (c : ℕ) : ∃ n, mapGrow m c = .ok n ∧ Sound P n := by
  by_cases hc : m.cap < c
  · obtain ⟨n, hn, hs, -⟩ := h.growTo hc
    exact ⟨n, hn, hs⟩
  · exact ⟨m, by rw [mapGrow, if_pos (by omega)]; rfl, h⟩

/-! ### Insertion -/

/-- With two cells free, the search for an empty one does not end where it began. -/
lemma findEmpty_room (x : ℕ) (hroom : (occupied n.cap n).card + 1 < n.cap) :
    ∃ j < n.cap, findEmpty n x = .ok (j, true) ∧ j ≠ x % n.cap ∧ ¬ Used n j := by
  obtain ⟨l, hl, hne, hfree⟩ := exists_free {x % n.cap} (n := n) (by rwa [Finset.card_singleton])
  obtain ⟨j, hj, hp, hno, hsame⟩ := probe_spec Stop.hang
    (show x % n.cap < n.cap from Nat.mod_lt _ (by omega))
    fun i _ => (rfl : (Except.ok (n.cell i).k.isNone : Except Stop Bool) = _)
  have hnone : (n.cell l).k.isNone = true := by rw [hfree]; rfl
  have hempty : (n.cell j).k.isNone = true := by
    by_contra hb
    rw [hno (by simpa only [Bool.not_eq_true] using hb) l hl] at hnone
    cases hnone
  refine ⟨j, hj, ?_, fun he => ?_, not_used_iff.mpr (Option.isNone_iff_eq_none.mp hempty)⟩
  · rw [← hempty]
    exact hp
  · rw [hsame he l hl (by simpa using hne)] at hnone
    cases hnone

/-- In a full map it finds nothing. -/
lemma findEmpty_full (x : ℕ) (hcap : 0 < m.cap) (hfull : ∀ j < m.cap, Used m j) :
    ∃ j, findEmpty m x = .ok (j, false) := by
  obtain ⟨j, hj, hp, -, -⟩ := probe_spec Stop.hang
    (show x % m.cap < m.cap from Nat.mod_lt _ hcap)
    fun i _ => (rfl : (Except.ok (m.cell i).k.isNone : Except Stop Bool) = _)
  refine ⟨j, ?_⟩
  rw [show false = (m.cell j).k.isNone by simpa using (hfull j hj).symm]
  exact hp

/-- An insertion into a full map: it grows, and the entry goes to an empty cell of the new map. -/
lemma mapInsert_full (hmax : m.max < m.cap) (h2 : 2 ≤ m.cap) (hfull : ∀ j < m.cap, Used m j) (k v : Bytes) :
    ∃ n f j, mapGrow m (m.cap * 3 / 2) = .ok n ∧ n.cap = (mapNew (m.cap * 3 / 2)).cap ∧
      Placed m n f (m.max + 1) ∧ j < n.cap ∧ findEmpty n (HashMap.hash k) = .ok (j, true) ∧
      j ≠ HashMap.hash k % n.cap ∧ ¬ Used n j ∧
      mapInsert m k v = .ok (putCell n j (HashMap.hash k) (flexOver k) (flexOver v)) := by
  have hlt : m.cap < m.cap * 3 / 2 := by omega
  obtain ⟨i, hi⟩ := findEmpty_full (HashMap.hash k) (by omega) hfull
  obtain ⟨n, f, hn, -, hcap, hp⟩ := mapGrow_placed hmax hlt
  have hocc := hp.occupied_le n.cap
  have hle : m.cap * 3 / 2 ≤ n.cap ∧ 8 ≤ n.cap := by
    rw [hcap]
    simp only [mapNew]
    split <;> omega
  obtain ⟨j, hj, hf, hne, hfree⟩ := findEmpty_room (n := n) (HashMap.hash k) (by omega)
  refine ⟨n, f, j, hn, hcap, hp, hj, hf, hne, hfree, ?_⟩
  unfold mapInsert
  simp only [hi, hn, hf, bind, Except.bind, Bool.false_eq_true, if_false, if_neg hne]
  rfl

lemma findEmpty_ok (h : Sound P m) (x : ℕ) : ∃ i < m.cap, ∃ b, findEmpty m x = .ok (i, b) := by
  have hcap := h.cap
  obtain ⟨i, hi, hp, -, -⟩ := probe_spec Stop.hang
    (show x % m.cap < m.cap from Nat.mod_lt _ (by omega))
    fun i _ => (rfl : (Except.ok (m.cell i).k.isNone : Except Stop Bool) = _)
  exact ⟨i, hi, _, hp⟩

lemma Sound.put (h : Sound P m) {i : ℕ} (hi : i < m.cap) (x : ℕ) {fk fv : Flex}
    (hk : fk.n = 8 → fk.item.length = 8 ∧ P fk.item fv.item) : Sound P (putCell m i x fk fv) := by
  have hmax := h.max
  refine ⟨h.cap, ?_, fun l y hy h8 => ?_⟩
  · simp only [putCell]
    split
    · exact hi
    · exact hmax
  · simp only [putCell, setCell] at hy ⊢
    split at hy
    · rename_i hl
      rw [if_pos hl]
      cases hy
      exact ⟨(hk h8).1, fv, rfl, (hk h8).2⟩
    · rename_i hl
      rw [if_neg hl]
      exact h.cells l y hy h8

/-- The count of a key that was written over it. -/
lemma flexOver_n (hk : k.length = 8) : (flexOver k).n = ofLeBytes k := by
  simp only [flexOver]
  rw [List.take_append_of_le_length (by omega), List.take_of_length_le (by omega)]

/-- An insertion returns, or finds the new map full; either way the pairs are those there were
and the new one. The number eight is no key, as a garbled key would pass for one of eight
bytes. -/
lemma Sound.insert (h : Sound P m) (hk : k.length = 8) (h8 : ofLeBytes k ≠ 8) (hp : P k v) :
    OrStops .panic (mapInsert m k v) (Sound P) := by
  obtain ⟨i, hi, b, hf⟩ := findEmpty_ok h (HashMap.hash k)
  unfold mapInsert
  simp only [hf, bind, Except.bind]
  cases b with
  | true =>
    rw [if_pos rfl]
    exact OrStops.ok (h.put hi _ fun _ => ⟨hk, hp⟩)
  | false =>
    obtain ⟨n, hn, hns⟩ := h.grow (m.cap * 3 / 2)
    obtain ⟨j, hj, b, hf'⟩ := findEmpty_ok hns (HashMap.hash k)
    simp only [Bool.false_eq_true, if_false, hn, hf']
    split
    · exact OrStops.stop
    · refine OrStops.ok (hns.put hj _ fun hx => ?_)
      rw [flexOver_n hk] at hx
      exact absurd hx h8

/-- An insertion into a map with no empty cell returns, and what it inserts is lost. -/
lemma Sound.insert_full (h : Sound P m) (h4 : 4 ≤ m.cap) (hfull : ∀ j < m.cap, (m.cell j).k ≠ none)
    (hk : k.length = 8) (h8 : ofLeBytes k ≠ 8) : ∃ m', mapInsert m k v = .ok m' ∧ Sound P m' := by
  obtain ⟨n, f, j, hn, hcap, hp, hj, -, -, -, hins⟩ := mapInsert_full h.max h.cap
    (fun j hj => Option.isSome_iff_ne_none.mpr (hfull j hj)) k v
  obtain ⟨n', hn', hns, -⟩ := h.growTo (show m.cap < m.cap * 3 / 2 by omega)
  obtain rfl : n = n' := Except.ok.inj (hn.symm.trans hn')
  refine ⟨_, hins, hns.put hj _ fun hx => ?_⟩
  rw [flexOver_n hk] at hx
  exact absurd hx h8

end Silkware.HashMapSound
