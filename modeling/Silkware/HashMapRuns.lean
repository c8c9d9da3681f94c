import Silkware.HashMap
import Silkware.Outcome

/-!
Whole runs of the hash map against a finite partial function.

A map that never grows, and whose first key does not land in cell 0, refines the partial
function: every occupied cell is at most `max`, so a search sees all of them, and a key is in
at most one cell.
-/

namespace Silkware.HashMapRuns

open Silkware.Kern Silkware.Probe Silkware.HashMap Silkware.Outcome

inductive Op
  | set (k v : Bytes)
  | del (k : Bytes)
  | get (k : Bytes)

/-- One call on the map; `map_get` leaves it as it is. -/
def exec (m : Map) : Op → Except Stop Map
  | .set k v => mapSet m k v
  | .del k => mapDel m k
  | .get k => do
    let _ ← mapGet m k
    return m

/-- A sequence of calls. -/
def run (m : Map) (ops : List Op) : Except Stop Map := ops.foldlM exec m

/-- What one call does to the partial function. -/
def apply (f : Bytes → Option Bytes) : Op → Bytes → Option Bytes
  | .set k v, k' => if k' = k then some v else f k'
  | .del k, k' => if k' = k then none else f k'
  | .get _, k' => f k'

/-- The value of the latest `map_set` of a key with no `map_del` of it afterwards. -/
def latest (ops : List Op) : Bytes → Option Bytes := ops.foldl apply fun _ => none

/-- The key in a cell. -/
def keyAt (m : Map) (i : ℕ) : Option Bytes := (m.cell i).k.map (·.item)

/-- The calls of `map_set` that meet no slip of the code: the map does not have to grow, and
the first key ever set does not go to cell 0. -/
def Fits (m : Map) : Op → Prop
  | .set k _ => (∃ i < m.cap, keyAt m i = none ∨ keyAt m i = some k) ∧
      ¬ (m.max = 0 ∧ HashMap.hash k % m.cap = m.cap - 1)
  | _ => True

/-- Every call of the sequence meets `Fits` in the map it is made on. -/
def AllFit : Map → List Op → Prop
  | _, [] => True
  | m, op :: ops => Fits m op ∧ ∀ m', exec m op = .ok m' → AllFit m' ops

/-! ### The refinement -/

/-- The map stands for the partial function `f`. -/
structure Rep (m : Map) (f : Bytes → Option Bytes) : Prop where
  max : m.max < m.cap
  above : ∀ i, m.max < i → keyAt m i = none
  zero : m.max = 0 → keyAt m 0 = none
  cells : ∀ i x, (m.cell i).k = some x → x.n = x.item.length ∧ (m.cell i).h = HashMap.hash x.item ∧
    ∃ v, (m.cell i).v = some v ∧ f x.item = some v.item
  inj : ∀ i j k, keyAt m i = some k → keyAt m j = some k → i = j
  complete : ∀ k, (f k).isSome → ∃ i, keyAt m i = some k

variable {m : Map} {f : Bytes → Option Bytes} {k v : Bytes}

lemma Rep.new (n : ℕ) : Rep (mapNew n) fun _ => none := by
  refine ⟨?_, by simp [keyAt, mapNew], by simp [keyAt, mapNew], by simp [mapNew],
    by simp [keyAt, mapNew], by simp⟩
  simp only [mapNew]
  split <;> omega

lemma Rep.key_le (h : Rep m f) {i : ℕ} (hk : keyAt m i = some k) : i ≤ m.max := by
  by_contra hlt
  rw [h.above i (by omega)] at hk
  cases hk

lemma Rep.sameKey (h : Rep m f) (k : Bytes) (i : ℕ) :
    sameKey (m.cell i) (HashMap.hash k) k = .ok (decide (keyAt m i = some k)) := by
  unfold HashMap.sameKey keyAt
  cases hc : (m.cell i).k with
  | none => simp [pure, Except.pure]
  | some x =>
    obtain ⟨hn, hh, -⟩ := h.cells i x hc
    simp only [Option.map_some, Option.some.injEq]
    by_cases hk : x.item = k
    · rw [if_pos ⟨by rw [hh, hk], by rw [hn, hk]⟩, if_pos (Nat.le_of_eq (by rw [hk]))]
      simp [hk, pure, Except.pure]
    · split
      · rename_i hcond
        rw [if_pos (by omega), List.take_of_length_le (by omega)]
        simp [hk, pure, Except.pure]
      · simp [hk, pure, Except.pure]

/-- The search finds the cell of the key, or the key is in no cell. -/
lemma Rep.find (h : Rep m f) (k : Bytes) : ∃ i, find m k = .ok (i, decide (keyAt m i = some k)) ∧
    (keyAt m i ≠ some k → ∀ j, keyAt m j ≠ some k) := by
  unfold HashMap.find
  by_cases h0 : m.max = 0
  · have hz := h.zero h0
    refine ⟨0, by simp [h0, hz, pure, Except.pure], fun _ j hj => ?_⟩
    have := h.key_le hj
    obtain rfl : j = 0 := by omega
    rw [hz] at hj
    cases hj
  · simp only [if_neg h0]
    set idx := if m.max < HashMap.hash k % m.cap then m.max else HashMap.hash k % m.cap
    have hidx : idx < m.max + 1 := by
      simp only [idx]; split <;> omega
    obtain ⟨i, hi, hp, hno, -⟩ := probe_spec Stop.hang hidx fun i _ => h.sameKey k i
    refine ⟨i, hp, fun hne j hj => ?_⟩
    have := hno (by simpa using hne) j (by have := h.key_le hj; omega)
    simp [hj] at this

lemma Rep.get (h : Rep m f) (k : Bytes) : mapGet m k = .ok (f k) := by
  obtain ⟨i, hf, hno⟩ := h.find k
  unfold mapGet
  simp only [hf, bind, Except.bind]
  by_cases hk : keyAt m i = some k
  · simp only [hk, decide_true, if_true]
    obtain ⟨x, hx, rfl⟩ := Option.map_eq_some_iff.mp hk
    obtain ⟨-, -, v, hv, hfx⟩ := h.cells i x hx
    rw [hv, hfx]
    rfl
  · have hnone : f k = none := by
      cases hfk : f k with
      | none => rfl
      | some v =>
        obtain ⟨j, hj⟩ := h.complete k (by simp [hfk])
        exact absurd hj (hno hk j)
    simp only [decide_eq_true_eq, hk, if_false, hnone]
    rfl

lemma keyAt_setCell (m : Map) (i j : ℕ) (c : Cell) :
    keyAt (setCell m i c) j = if j = i then c.k.map (·.item) else keyAt m j := by
  simp only [keyAt, setCell]
  split <;> rfl

/-- `map_del` takes the key out and leaves the other cells. -/
lemma Rep.del (h : Rep m f) (k : Bytes) :
    ∃ m', mapDel m k = .ok m' ∧ m'.max = m.max ∧ m'.cap = m.cap ∧
      (∀ j, keyAt m' j = if keyAt m j = some k then none else keyAt m j) ∧
      Rep m' fun k' => if k' = k then none else f k' := by
  obtain ⟨i, hf, hno⟩ := h.find k
  unfold mapDel
  simp only [hf, bind, Except.bind]
  by_cases hk : keyAt m i = some k
  · simp only [hk, decide_true, if_true]
    set m' := setCell m i { m.cell i with k := none } with hm'
    have hkey : ∀ j, keyAt m' j = if keyAt m j = some k then none else keyAt m j := by
      intro j
      rw [hm', keyAt_setCell]
      by_cases hji : j = i
      · rw [if_pos hji, hji, hk]; simp
      · rw [if_neg hji, if_neg fun hj => hji (h.inj j i k hj hk)]
    have hsub : ∀ j k', keyAt m' j = some k' → keyAt m j = some k' ∧ k' ≠ k := by
      intro j k' hj
      rw [hkey j] at hj
      split at hj
      · cases hj
      · exact ⟨hj, by rintro rfl; contradiction⟩
    refine ⟨m', rfl, rfl, rfl, hkey, h.max, fun j hj => ?_, fun h0 => ?_, fun j x hx => ?_,
      fun j j' k' hj hj' => h.inj j j' k' (hsub j k' hj).1 (hsub j' k' hj').1, fun k' hk' => ?_⟩
    · rw [hkey j, h.above j hj]; simp
    · rw [hkey 0, h.zero h0]; simp
    · have hne : j ≠ i := by
        rintro rfl
        simp [hm', setCell] at hx
      have hx' : (m.cell j).k = some x := by simpa [hm', setCell, hne] using hx
      have hxk : x.item ≠ k := (hsub j x.item (by simp [keyAt, hx])).2
      simp only [hm', setCell, if_neg hne, if_neg hxk]
      exact h.cells j x hx'
    · by_cases hkk : k' = k
      · simp [hkk] at hk'
      · simp only [if_neg hkk] at hk'
        obtain ⟨j, hj⟩ := h.complete k' hk'
        exact ⟨j, by rw [hkey j, hj]; simp [hkk]⟩
  · have hne := hno hk
    simp only [decide_eq_true_eq, hk, if_false]
    refine ⟨m, rfl, rfl, rfl, fun j => by rw [if_neg (hne j)], h.max, h.above, h.zero,
      fun j x hx => ?_, h.inj, fun k' hk' => ?_⟩
    · have : x.item ≠ k := fun e => hne j (by simp [keyAt, hx, e])
      simp only [if_neg this]
      exact h.cells j x hx
    · by_cases hkk : k' = k
      · simp [hkk] at hk'
      · simp only [if_neg hkk] at hk'
        exact h.complete k' hk'

/-- `find_empty` finds an empty cell. Where `max` is 0 it is not the first one: the probe does not
start behind it. -/
lemma Rep.slot (h : Rep m f) (hroom : ∃ j < m.cap, keyAt m j = none)
    (hz : ¬ (m.max = 0 ∧ HashMap.hash k % m.cap = m.cap - 1)) :
    ∃ i < m.cap, findEmpty m (HashMap.hash k) = .ok (i, true) ∧ keyAt m i = none ∧
      (m.max = 0 → i ≠ 0) := by
  have hcap : 0 < m.cap := by have := h.max; omega
  have hisNone : ∀ j, ((m.cell j).k.isNone = true) = (keyAt m j = none) := by simp [keyAt]
  set idx := HashMap.hash k % m.cap with hidx
  have hlt : idx < m.cap := Nat.mod_lt _ hcap
  obtain ⟨i, hi, hp, hno, -⟩ := probe_spec Stop.hang hlt
    fun i _ => (rfl : (Except.ok (m.cell i).k.isNone : Except Stop Bool) = _)
  have hempty : (m.cell i).k.isNone = true := by
    by_contra hb
    obtain ⟨j, hj, hjn⟩ := hroom
    have := hno (by simpa only [Bool.not_eq_true] using hb) j hj
    rw [← hisNone, this] at hjn
    cases hjn
  refine ⟨i, hi, ?_, (hisNone i).mp hempty, fun h0 hi0 => ?_⟩
  · rw [← hempty]
    exact hp
  · have h1 : ¬ idx = m.cap - 1 := fun e => hz ⟨h0, e⟩
    have hs : (idx + 1) % m.cap = idx + 1 := Nat.mod_eq_of_lt (by omega)
    have hhit : (Except.ok (m.cell ((idx + 1) % m.cap)).k.isNone : Except Stop Bool) = .ok true := by
      rw [hs, Except.ok.injEq, hisNone]
      exact h.above _ (by omega)
    have hfirst := @probe_first Stop m.cap (fun i => .ok (m.cell i).k.isNone) Stop.hang idx
      (m.cap - 1) idx hhit
    rw [Nat.sub_add_cancel hcap, hp, Except.ok.injEq, Prod.mk.injEq] at hfirst
    omega

/-- An entry with a new key in an empty cell. -/
lemma Rep.fill {i : ℕ} (h : Rep m f) (hnew : ∀ j, keyAt m j ≠ some k) (hi : i < m.cap)
    (hempty : keyAt m i = none) (hi0 : m.max = 0 → i ≠ 0) :
    Rep (putCell m i (HashMap.hash k) (flexOf k) (flexOf v)) fun k' =>
      if k' = k then some v else f k' := by
  obtain ⟨m', hm'⟩ : ∃ m', putCell m i (HashMap.hash k) (flexOf k) (flexOf v) = m' := ⟨_, rfl⟩
  have hkey : ∀ j, keyAt m' j = if j = i then some k else keyAt m j := by
    intro j
    rw [← hm']
    exact keyAt_setCell m i j ⟨HashMap.hash k, some (flexOf k), some (flexOf v)⟩
  have hmax : m'.max = Max.max m.max i := by
    rw [← hm']
    simp only [putCell]
    split <;> omega
  have hcap' : m'.cap = m.cap := by rw [← hm']; rfl
  have hmm := h.max
  rw [hm']
  refine ⟨?_, fun j hj => ?_, fun h0 => ?_, fun j x hx => ?_, fun j j' k' hj hj' => ?_,
    fun k' hk' => ?_⟩
  · omega
  · rw [hkey j, if_neg (by omega)]
    exact h.above j (by omega)
  · have h1 : m.max = 0 := by omega
    have := hi0 h1
    omega
  · by_cases hji : j = i
    · have hc : m'.cell j = ⟨HashMap.hash k, some (flexOf k), some (flexOf v)⟩ := by
        simp [← hm', putCell, setCell, hji]
      rw [hc] at hx ⊢
      cases hx
      exact ⟨rfl, rfl, flexOf v, rfl, by simp [flexOf]⟩
    · have hc : m'.cell j = m.cell j := by simp [← hm', putCell, setCell, hji]
      rw [hc] at hx ⊢
      have : x.item ≠ k := fun e => hnew j (by simp [keyAt, hx, e])
      simp only [if_neg this]
      exact h.cells j x hx
  · rw [hkey j] at hj
    rw [hkey j'] at hj'
    by_cases h1 : j = i <;> by_cases h2 : j' = i
    · rw [h1, h2]
    · rw [if_pos h1] at hj
      rw [if_neg h2, ← hj] at hj'
      exact absurd hj' (hnew j')
    · rw [if_neg h1] at hj
      rw [if_pos h2] at hj'
      rw [← hj'] at hj
      exact absurd hj (hnew j)
    · rw [if_neg h1] at hj
      rw [if_neg h2] at hj'
      exact h.inj j j' k' hj hj'
  · by_cases hkk : k' = k
    · exact ⟨i, by rw [hkey i, if_pos rfl, hkk]⟩
    · simp only [if_neg hkk] at hk'
      obtain ⟨j, hj⟩ := h.complete k' hk'
      refine ⟨j, ?_⟩
      rw [hkey j, if_neg]
      · exact hj
      · rintro rfl
        rw [hempty] at hj
        cases hj

/-- `map_insert` of a key that is in no cell, where it need not grow the map. -/
lemma Rep.insert (h : Rep m f) (hnew : ∀ j, keyAt m j ≠ some k) (hroom : ∃ j < m.cap, keyAt m j = none)
    (hz : ¬ (m.max = 0 ∧ HashMap.hash k % m.cap = m.cap - 1)) :
    ∃ m', mapInsert m k v = .ok m' ∧ m'.cap = m.cap ∧
      Rep m' fun k' => if k' = k then some v else f k' := by
  obtain ⟨i, hi, he, hempty, hi0⟩ := h.slot hroom hz
  refine ⟨putCell m i (HashMap.hash k) (flexOf k) (flexOf v), ?_, rfl,
    h.fill hnew hi hempty hi0⟩
  simp only [mapInsert, he, bind, Except.bind, if_true]
  rfl

/-- A call that meets `Fits` returns, and does to the map what it does to the function. -/
lemma Rep.exec (h : Rep m f) {op : Op} (hf : Fits m op) :
    ∃ m', exec m op = .ok m' ∧ Rep m' (apply f op) := by
  cases op with
  | get k => exact ⟨m, by simp only [HashMapRuns.exec, h.get, bind, Except.bind]; rfl, h⟩
  | del k =>
    obtain ⟨m', hd, -, -, -, h'⟩ := h.del k
    exact ⟨m', hd, h'⟩
  | set k v =>
    obtain ⟨⟨i, hi, hik⟩, hz⟩ := hf
    obtain ⟨m1, hd, hmax, hcap, hkey, h1⟩ := h.del k
    have hno : ∀ j, keyAt m1 j ≠ some k := by
      intro j
      rw [hkey j]
      split
      · nofun
      · assumption
    have hroom : keyAt m1 i = none := by
      rw [hkey i]
      rcases hik with e | e <;> simp [e]
    obtain ⟨m2, hins, -, h2⟩ := h1.insert (v := v) hno ⟨i, by omega, hroom⟩ (by rwa [hmax, hcap])
    refine ⟨m2, by simp only [HashMapRuns.exec, mapSet, hd, bind, Except.bind, hins], ?_⟩
    have he : apply f (.set k v) = fun k' => if k' = k then some v else
        if k' = k then none else f k' := by
      funext k'
      by_cases hk : k' = k <;> simp [apply, hk]
    rwa [he]

lemma Rep.run (h : Rep m f) {ops : List Op} (hf : AllFit m ops) :
    ∃ m', run m ops = .ok m' ∧ Rep m' (ops.foldl apply f) := by
  induction ops generalizing m f with
  | nil => exact ⟨m, rfl, h⟩
  | cons op ops ih =>
    obtain ⟨h1, h2⟩ := hf
    obtain ⟨m1, he, hr⟩ := h.exec h1
    obtain ⟨m2, he2, hr2⟩ := ih hr (h2 m1 he)
    exact ⟨m2, by simp only [HashMapRuns.run, List.foldlM_cons, he, bind, Except.bind]; exact he2,
      hr2⟩

/-- **The map refines a finite partial function**, in every run in which it does not have to
grow and whose first key does not go to cell 0. -/
theorem map_refines (n : ℕ) (ops : List Op) (h : AllFit (mapNew n) ops) :
    ∃ m, run (mapNew n) ops = .ok m ∧ ∀ k, mapGet m k = .ok (latest ops k) := by
  obtain ⟨m, hr, hm⟩ := (Rep.new n).run h
  exact ⟨m, hr, hm.get⟩

/-- The hash of the key is 7 modulo 8, so it goes to cell 0, where no search looks. -/
theorem first_key_lost : ∃ m, run (mapNew 0) [.set [0x40] [1]] = .ok m ∧
    mapGet m [0x40] ≠ .ok (latest [.set [0x40] [1]] [0x40]) := by
  have hg : (run (mapNew 0) [.set [0x40] [1]]).bind (fun m => mapGet m [0x40]) = .ok none := by
    decide
  obtain ⟨m, hr, hg⟩ := exists_of_bind hg
  exact ⟨m, hr, by rw [hg]; decide⟩

theorem map_refines_two_sets : ∃ m, run (mapNew 0) [.set [1] [2], .set [1] [3, 4]] = .ok m ∧
    ∀ k, mapGet m k = .ok (latest [.set [1] [2], .set [1] [3, 4]] k) := by
  refine map_refines 0 _ ⟨⟨⟨0, by decide, Or.inl rfl⟩, by decide⟩, fun m hm => ?_⟩
  have hz : (HashMapRuns.exec (mapNew 0) (.set [1] [2])).map (fun m => (m.max, m.cap, keyAt m 0)) =
      .ok (5, 8, none) := by decide +kernel
  rw [hm, Except.map, Except.ok.injEq, Prod.mk.injEq, Prod.mk.injEq] at hz
  obtain ⟨h1, h2, h3⟩ := hz
  exact ⟨⟨⟨0, by omega, Or.inl h3⟩, by omega⟩, fun _ _ => trivial⟩

end Silkware.HashMapRuns
