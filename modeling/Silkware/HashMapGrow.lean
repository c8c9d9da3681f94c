import Silkware.HashMapSound

/-!
What growing does to a map.

`map_grow` moves every cell, but leaves the new `max` at zero, so that a lookup takes the new map
for an empty one. `map_insert` then stores its entry once more, and copies the bytes of the key
and of the value over their counts.
-/

namespace Silkware.HashMapGrow

open Silkware.Kern Silkware.Probe Silkware.HashMap Silkware.HashMapRuns Silkware.HashMapSound

variable {m n : Map} {k v b : Bytes} {c : Cell}

/-- The used cells are up to `max`, as `map_new` and the insertions that do not grow leave them. -/
structure Bounded (m : Map) : Prop where
  cap : 8 ≤ m.cap
  max : m.max < m.cap
  used : ∀ i, Used m i → i ≤ m.max

/-- Every cell is in use. -/
def Full (m : Map) : Prop := ∀ i < m.cap, Used m i

/-! ### Cells -/

/-- The cells in use are those of the old map. -/
lemma exists_equiv {f : ℕ → ℕ} (h : Bounded m) (hp : Placed m n f (m.max + 1)) :
    ∃ e : {i // Used m i} ≃ {j // Used n j}, ∀ i, n.cell (e i) = m.cell i := by
  have hlt : ∀ i : {i // Used m i}, i.1 < m.max + 1 := fun i => Nat.lt_succ_of_le (h.used i i.2)
  have hused : ∀ i : {i // Used m i}, Used n (f i) := fun i => by
    unfold Used
    rw [hp.cell i (hlt i) i.2]
    exact i.2
  refine ⟨Equiv.ofBijective (fun i => ⟨f i, hused i⟩) ⟨fun i j he => ?_, fun j => ?_⟩,
    fun i => hp.cell i (hlt i) i.2⟩
  · exact Subtype.ext (hp.inj i (hlt i) j (hlt j) i.2 j.2 (congrArg Subtype.val he))
  · obtain ⟨i, -, hu, hij⟩ := hp.onto j j.2
    exact ⟨⟨i, hu⟩, Subtype.ext hij⟩

/-- **Growing ends and loses no cell**, and the insertion that made a full map grow finds an empty
cell other than the one it began at. -/
theorem growth_keeps_cells (h : Bounded m) :
    (∀ n, m.cap < n → ∃ new, mapGrow m n = .ok new ∧ new.cap = n ∧ (∀ j, Used new j → j < n) ∧
      ∃ e : {i // Used m i} ≃ {j // Used new j}, ∀ i, new.cell (e i) = m.cell i) ∧
    (Full m → ∀ k v, ∃ new j, mapGrow m (m.cap * 3 / 2) = .ok new ∧
      findEmpty new (HashMap.hash k) = .ok (j, true) ∧ j ≠ HashMap.hash k % new.cap ∧
      mapInsert m k v = .ok (putCell new j (HashMap.hash k) (flexOver k) (flexOver v))) := by
  have h8 := h.cap
  refine ⟨fun n hn => ?_, fun hfull k v => ?_⟩
  · obtain ⟨new, f, hg, -, hcap, hp⟩ := mapGrow_placed h.max hn
    have hcap' : new.cap = n := by
      rw [hcap, mapNew, if_neg (by omega)]
    refine ⟨new, hg, hcap', fun j hj => ?_, exists_equiv h hp⟩
    obtain ⟨i, hi, hu, rfl⟩ := hp.onto j hj
    exact (hp.lt i hi hu).trans_eq hcap'
  · obtain ⟨new, f, j, hg, -, -, -, hf, hne, -, hins⟩ := mapInsert_full h.max (by omega) hfull k v
    exact ⟨new, j, hg, hf, hne, hins⟩

/-- A map of eight cells, each with a key of one byte. -/
def eightKeys : Map :=
  ⟨7, 8, fun i => if i < 8 then ⟨HashMap.hash [UInt8.ofNat i], some (flexOf [UInt8.ofNat i]), some (flexOf [1])⟩
    else ⟨0, none, none⟩⟩

lemma eightKeys_used {i : ℕ} : Used eightKeys i ↔ i < 8 := by
  unfold Used eightKeys
  simp only
  split <;> simp_all

lemma eightKeys_bounded : Bounded eightKeys :=
  ⟨by decide, by decide, fun _ hi => Nat.le_of_lt_succ (eightKeys_used.mp hi)⟩

lemma eightKeys_full : Full eightKeys := fun _ hi => eightKeys_used.mpr hi

theorem growth_keeps_eight : (∃ new, mapGrow eightKeys 12 = .ok new ∧ new.cap = 12 ∧
      (∀ j, Used new j → j < 12) ∧
      ∃ e : {i // Used eightKeys i} ≃ {j // Used new j}, ∀ i, new.cell (e i) = eightKeys.cell i) ∧
    ∃ new j, mapGrow eightKeys 12 = .ok new ∧
      findEmpty new (HashMap.hash [9]) = .ok (j, true) ∧ j ≠ HashMap.hash [9] % new.cap ∧
      mapInsert eightKeys [9] [1] = .ok (putCell new j (HashMap.hash [9]) (flexOver [9]) (flexOver [1])) :=
  ⟨(growth_keeps_cells eightKeys_bounded).1 12 (by decide),
    (growth_keeps_cells eightKeys_bounded).2 eightKeys_full [9] [1]⟩

/-! ### Lookups -/

/-- A lookup finds nothing where no cell up to `max` passes the test. -/
lemma mapGet_none_iff (h : 0 < m.max) (k : Bytes) :
    mapGet m k = .ok none ↔ ∀ i ≤ m.max, sameKey (m.cell i) (HashMap.hash k) k = .ok false := by
  set idx := if m.max < HashMap.hash k % m.cap then m.max else HashMap.hash k % m.cap with hidx
  have hlt : idx < m.max + 1 := by
    simp only [idx]; split <;> omega
  have hfind : find m k = probe .hang (m.max + 1) idx
      (fun i => sameKey (m.cell i) (HashMap.hash k) k) (m.max + 1) idx := by
    simp only [find, if_neg (show m.max ≠ 0 by omega), hidx]
  constructor
  · intro hget i hi
    cases hf : find m k with
    | error e =>
      rw [mapGet, hf] at hget
      cases hget
    | ok r =>
      obtain ⟨j, found⟩ := r
      rw [mapGet, hf] at hget
      simp only [bind, Except.bind] at hget
      cases found with
      | true =>
        simp only [if_true] at hget
        split at hget <;> cases hget
      | false =>
        rw [hfind] at hf
        exact probe_missed hlt hf i (by omega)
  · intro hno
    obtain ⟨i, -, hp, -, -⟩ := probe_spec (b := fun _ => false) Stop.hang hlt
      fun i hi => hno i (by omega)
    rw [mapGet, hfind, hp]
    rfl

/-- **Growing hides every entry**: a lookup in the new map gives what it gave in the old one just
where the key was in no cell. -/
theorem grow_get_iff {n : ℕ} (k : Bytes) (h0 : 0 < m.max) (hmax : m.max < m.cap) (hn : m.cap < n) :
    (mapGrow m n >>= fun new => mapGet new k) = mapGet m k ↔
      ∀ i ≤ m.max, sameKey (m.cell i) (HashMap.hash k) k = .ok false := by
  obtain ⟨new, f, hg, hz, -⟩ := mapGrow_placed hmax hn
  have hget : mapGet new k = .ok none := by
    rw [mapGet, find, hz]
    rfl
  rw [hg]
  change mapGet new k = mapGet m k ↔ _
  rw [hget, eq_comm, mapGet_none_iff h0]

theorem grow_get_eight : (mapGrow eightKeys 12 >>= fun new => mapGet new [9]) = mapGet eightKeys [9] ↔
    ∀ i ≤ eightKeys.max, sameKey (eightKeys.cell i) (HashMap.hash [9]) [9] = .ok false :=
  grow_get_iff [9] (by decide) (by decide) (by decide)

/-- The key of cell 3 is found before and not after. -/
theorem grow_loses_key : Bounded eightKeys ∧ 0 < eightKeys.max ∧ eightKeys.cap < 12 ∧
    mapGet eightKeys [3] = .ok (some [1]) ∧
    (mapGrow eightKeys 12 >>= fun new => mapGet new [3]) = .ok none :=
  ⟨eightKeys_bounded, by decide, by decide, by decide, by decide⟩

/-! ### What is stored -/

/-- The object has the count and the bytes of `b`. -/
def Flex.Is (x : Flex) (b : Bytes) : Prop := x.n = b.length ∧ x.item.take b.length = b

/-- The cell holds the entry, with the hash of its key. -/
structure Stored (c : Cell) (k v : Bytes) : Prop where
  hash : c.h = HashMap.hash k
  key : ∃ x, c.k = some x ∧ Flex.Is x k
  value : ∃ y, c.v = some y ∧ Flex.Is y v

lemma flexOf_is (b : Bytes) : Flex.Is (flexOf b) b := ⟨rfl, List.take_length⟩

/-- The sum of some bytes. -/
def total (b : Bytes) : ℕ := (b.map UInt8.toNat).sum

lemma total_append (a b : Bytes) : total (a ++ b) = total a + total b := by
  simp [total]

lemma total_take_drop (n : ℕ) (b : Bytes) : total b = total (b.take n) + total (b.drop n) := by
  rw [← total_append, List.take_append_drop]

lemma total_zeros (n : ℕ) : total (List.replicate n 0) = 0 := by
  simp [total]

lemma ofLeBytes_eq_zero (h : total b = 0) : ofLeBytes b = 0 := by
  induction b with
  | nil => rfl
  | cons c b ih =>
    simp only [total, List.map_cons, List.sum_cons] at h
    have hb : ofLeBytes b = 0 := ih (by unfold total; omega)
    change c.toNat + 256 * ofLeBytes b = 0
    omega

/-- Above the first byte, the count of a short object is zero. -/
lemma total_rest (hb : b ≠ []) :
    total ((leBytes b.length ++ List.replicate b.length 0).drop b.length) = 0 := by
  have hpos := List.length_pos_iff.mpr hb
  rw [List.drop_append, total_append, leBytes_length, List.drop_replicate, total_zeros, Nat.add_zero]
  by_cases h8 : 8 ≤ b.length
  · rw [List.drop_of_length_le (by rw [leBytes_length]; omega)]
    rfl
  · have hshort : ∀ n < 8, 0 < n → total ((leBytes n).drop n) = 0 := by decide
    exact hshort b.length (by omega) hpos

/-- Bytes copied over the count leave an object with other bytes, unless there are none. -/
lemma flexOver_is_iff : Flex.Is (flexOver b) b ↔ b = [] := by
  constructor
  · rintro ⟨hn, hitem⟩
    by_contra hb
    obtain ⟨rest, hrest⟩ : ∃ rest, rest = (leBytes b.length ++ List.replicate b.length 0).drop b.length :=
      ⟨_, rfl⟩
    have hzero : total rest = 0 := by rw [hrest]; exact total_rest hb
    simp only [flexOver, ← hrest] at hn hitem
    have hle := total_take_drop b.length ((b ++ rest).drop 8)
    rw [hitem] at hle
    have hsum := total_take_drop 8 (b ++ rest)
    rw [total_append] at hsum
    rw [ofLeBytes_eq_zero (by omega)] at hn
    exact hb (List.length_eq_zero_iff.mp hn.symm)
  · rintro rfl
    exact ⟨by decide, rfl⟩

/-- **An insertion that makes the map grow stores its entry** just where key and value are empty,
or the map held it before. -/
theorem insert_grown_stores (h : Bounded m) (hfull : Full m) (k v : Bytes) :
    ∃ m', mapInsert m k v = .ok m' ∧
      ((∃ j < m'.cap, Stored (m'.cell j) k v) ↔ (k = [] ∧ v = []) ∨ ∃ i ≤ m.max, Stored (m.cell i) k v) := by
  have h8 := h.cap
  obtain ⟨n, f, j, hg, hcap, hp, hj, -, -, hfree, hins⟩ := mapInsert_full h.max (by omega) hfull k v
  refine ⟨_, hins, ?_⟩
  have hnew : (putCell n j (HashMap.hash k) (flexOver k) (flexOver v)).cell j =
      ⟨HashMap.hash k, some (flexOver k), some (flexOver v)⟩ := if_pos rfl
  have hold : ∀ l, l ≠ j → (putCell n j (HashMap.hash k) (flexOver k) (flexOver v)).cell l = n.cell l :=
    fun l hl => if_neg hl
  have hcap' : (putCell n j (HashMap.hash k) (flexOver k) (flexOver v)).cap = n.cap := rfl
  constructor
  · rintro ⟨l, -, hs⟩
    by_cases hl : l = j
    · rw [hl, hnew] at hs
      obtain ⟨x, hx, hxk⟩ := hs.key
      obtain ⟨y, hy, hyv⟩ := hs.value
      cases hx
      cases hy
      exact Or.inl ⟨flexOver_is_iff.mp hxk, flexOver_is_iff.mp hyv⟩
    · rw [hold l hl] at hs
      obtain ⟨x, hx, -⟩ := hs.key
      obtain ⟨i, hi, hu, rfl⟩ := hp.onto l (by unfold Used; rw [hx]; rfl)
      rw [hp.cell i hi hu] at hs
      exact Or.inr ⟨i, Nat.le_of_lt_succ hi, hs⟩
  · rintro (⟨rfl, rfl⟩ | ⟨i, hi, hs⟩)
    · exact ⟨j, hj, by rw [hnew]; exact
        ⟨rfl, ⟨_, rfl, flexOver_is_iff.mpr rfl⟩, ⟨_, rfl, flexOver_is_iff.mpr rfl⟩⟩⟩
    · obtain ⟨x, hx, -⟩ := hs.key
      have hu : Used m i := by unfold Used; rw [hx]; rfl
      have hc := hp.cell i (Nat.lt_succ_of_le hi) hu
      have hne : f i ≠ j := by
        rintro rfl
        apply hfree
        unfold Used
        rw [hc]
        exact hu
      exact ⟨f i, hp.lt i (Nat.lt_succ_of_le hi) hu, by rw [hold _ hne, hc]; exact hs⟩

theorem insert_grown_eight : ∃ m', mapInsert eightKeys [9] [1] = .ok m' ∧
    ((∃ j < m'.cap, Stored (m'.cell j) [9] [1]) ↔
      (([9] : Bytes) = [] ∧ ([1] : Bytes) = []) ∨ ∃ i ≤ eightKeys.max, Stored (eightKeys.cell i) [9] [1]) :=
  insert_grown_stores eightKeys_bounded eightKeys_full [9] [1]

/-- An insertion that finds an empty cell stores its entry. -/
theorem insert_stores {i : ℕ} (h : findEmpty m (HashMap.hash k) = .ok (i, true)) (v : Bytes) :
    ∃ m', mapInsert m k v = .ok m' ∧ Stored (m'.cell i) k v := by
  refine ⟨putCell m i (HashMap.hash k) (flexOf k) (flexOf v), ?_, ?_⟩
  · simp only [mapInsert, h, bind, Except.bind, if_true]
    rfl
  · have hc : (putCell m i (HashMap.hash k) (flexOf k) (flexOf v)).cell i =
        ⟨HashMap.hash k, some (flexOf k), some (flexOf v)⟩ := if_pos rfl
    rw [hc]
    exact ⟨rfl, ⟨_, rfl, flexOf_is k⟩, ⟨_, rfl, flexOf_is v⟩⟩

/-- No cell of the new map has a key with the count and the byte of the key inserted. -/
theorem grown_entry_garbled : Bounded eightKeys ∧ Full eightKeys ∧
    ∃ m', mapInsert eightKeys [9] [1] = .ok m' ∧ ∀ j < m'.cap, ¬ Stored (m'.cell j) [9] [1] := by
  have hz : (mapInsert eightKeys [9] [1]).map (fun m => (m.cap, (List.range 12).all fun j =>
      ((m.cell j).k.map fun x => decide (x.n = 1 ∧ x.item.take 1 = [9])).getD false = false)) =
        .ok (12, true) := by
    decide
  obtain ⟨m', hm, hz⟩ := Outcome.exists_of_map hz
  rw [Prod.mk.injEq, List.all_eq_true] at hz
  refine ⟨eightKeys_bounded, eightKeys_full, m', hm, fun j hj hs => ?_⟩
  obtain ⟨x, hx, hn, hitem⟩ := hs.key
  have := hz.2 j (List.mem_range.mpr (by omega))
  simp only [hx, Option.map_some, Option.getD_some, decide_eq_true_eq, decide_eq_false_iff_not] at this
  exact this ⟨hn, hitem⟩

end Silkware.HashMapGrow
