import Mathlib.Tactic.Common

/-!
Cyclic search: the cells of a ring are looked at one after the other, beginning with the one
after the start and ending with the start itself.
-/

namespace Silkware.Probe

variable {ε : Type*} {hang : ε}

/-- `do i = (i + 1) % n; while (!hit(i) && i != idx)`: where the search stops, and whether
it found what it was looking for. -/
def probe (hang : ε) (n idx : ℕ) (hit : ℕ → Except ε Bool) : ℕ → ℕ → Except ε (ℕ × Bool)
  | 0, _ => throw hang
  | fuel + 1, i => do
    let i := (i + 1) % n
    if ← hit i then return (i, true)
    else if i = idx then return (i, false)
    else probe hang n idx hit fuel i

variable {n idx : ℕ} {hit : ℕ → Except ε Bool} {b : ℕ → Bool}

/-- The first cell looked at is the one after the start. -/
lemma probe_first (hang : ε) (idx fuel : ℕ) {i : ℕ} (h : hit ((i + 1) % n) = .ok true) :
    probe hang n idx hit (fuel + 1) i = .ok ((i + 1) % n, true) := by
  simp only [probe, h, bind, Except.bind, if_true, pure, Except.pure]

/-- The search is back at the start after `n` steps. -/
lemma steps_eq (hidx : idx < n) {t : ℕ} (h0 : 0 < t) (ht : t ≤ n) (h : (idx + t) % n = idx) :
    t = n := by
  by_contra hne
  rcases Nat.lt_or_ge (idx + t) n with hlt | hge
  · rw [Nat.mod_eq_of_lt hlt] at h; omega
  · rw [Nat.mod_eq_sub_mod hge, Nat.mod_eq_of_lt (by omega)] at h; omega

/-- After `j` cells without a hit, the search goes on to the first hit, or through the other
`n - j`. -/
lemma probe_from (hang : ε) (hidx : idx < n) (hh : ∀ i < n, hit i = .ok (b i)) {fuel j : ℕ}
    (hj : j + fuel = n) (hf : 0 < fuel) (hno : ∀ t, 0 < t → t ≤ j → b ((idx + t) % n) = false) :
    ∃ t, 0 < t ∧ t ≤ n ∧
      probe hang n idx hit fuel ((idx + j) % n) = .ok ((idx + t) % n, b ((idx + t) % n)) ∧
      (∀ u, 0 < u → u < t → b ((idx + u) % n) = false) ∧ (b ((idx + t) % n) = false → t = n) := by
  induction fuel generalizing j with
  | zero => omega
  | succ fuel ih =>
    have hs : ((idx + j) % n + 1) % n = (idx + (j + 1)) % n := by
      rw [Nat.mod_add_mod, Nat.add_assoc]
    have hlt : (idx + (j + 1)) % n < n := Nat.mod_lt _ (by omega)
    simp only [probe, hs, hh _ hlt, bind, Except.bind, pure, Except.pure]
    cases hb : b ((idx + (j + 1)) % n) with
    | true =>
      refine ⟨j + 1, by omega, by omega, by simp [hb], fun u h0 hu => hno u h0 (by omega), ?_⟩
      simp [hb]
    | false =>
      simp only [Bool.false_eq_true, if_false]
      by_cases hend : (idx + (j + 1)) % n = idx
      · rw [if_pos hend]
        exact ⟨j + 1, by omega, by omega, by rw [hb], fun u h0 hu => hno u h0 (by omega),
          fun _ => steps_eq hidx (by omega) (by omega) hend⟩
      · rw [if_neg hend]
        refine ih (by omega) ?_ fun t h0 ht => ?_
        · by_contra h0
          have hjn : j + 1 = n := by omega
          rw [hjn, Nat.add_mod_right, Nat.mod_eq_of_lt hidx] at hend
          exact hend rfl
        · rcases Nat.lt_or_ge j t with h | h
          · rw [show t = j + 1 by omega]; exact hb
          · exact hno t h0 h

/-- Every cell of the ring is some steps after the start. -/
lemma exists_steps (hidx : idx < n) {j : ℕ} (hj : j < n) :
    ∃ t, 0 < t ∧ t ≤ n ∧ (idx + t) % n = j ∧ (t = n → j = idx) := by
  rcases Nat.lt_or_ge idx j with h | h
  · refine ⟨j - idx, by omega, by omega, ?_, by omega⟩
    rw [Nat.add_sub_cancel' (by omega), Nat.mod_eq_of_lt hj]
  · refine ⟨n + j - idx, by omega, by omega, ?_, by omega⟩
    rw [Nat.add_sub_cancel' (by omega), Nat.add_mod_left, Nat.mod_eq_of_lt hj]

/-- A search over the whole ring stops at a hit, or there is none; it stops at the start only
if there is no hit elsewhere. -/
lemma probe_spec (hang : ε) (hidx : idx < n) (hh : ∀ i < n, hit i = .ok (b i)) :
    ∃ i < n, probe hang n idx hit n idx = .ok (i, b i) ∧ (b i = false → ∀ j < n, b j = false) ∧
      (i = idx → ∀ j < n, j ≠ idx → b j = false) := by
  obtain ⟨t, h0, htn, hp, hno, hlast⟩ := probe_from hang hidx hh (show 0 + n = n by omega) (by omega)
    (fun t h0 ht => by omega)
  rw [Nat.add_zero, Nat.mod_eq_of_lt hidx] at hp
  refine ⟨_, Nat.mod_lt _ (by omega), hp, fun hb j hj => ?_, fun hi j hj hne => ?_⟩
  · obtain ⟨u, hu, hun, rfl, -⟩ := exists_steps hidx hj
    have ht := hlast hb
    rcases Nat.lt_or_ge u t with h | h
    · exact hno u hu h
    · rwa [show u = t by omega]
  · obtain ⟨u, hu, hun, rfl, hu'⟩ := exists_steps hidx hj
    have ht : t = n := steps_eq hidx h0 htn hi
    refine hno u hu ?_
    by_contra h
    exact hne (hu' (by omega))

/-- A search that comes back to the start without a hit looked at every cell. -/
lemma probe_missed_from (hidx : idx < n) {fuel j i : ℕ} (hj : j + fuel = n)
    (hno : ∀ t, 0 < t → t ≤ j → hit ((idx + t) % n) = .ok false)
    (hp : probe hang n idx hit fuel ((idx + j) % n) = .ok (i, false)) :
    ∀ t, 0 < t → t ≤ n → hit ((idx + t) % n) = .ok false := by
  induction fuel generalizing j with
  | zero => cases hp
  | succ fuel ih =>
    have hs : ((idx + j) % n + 1) % n = (idx + (j + 1)) % n := by
      rw [Nat.mod_add_mod, Nat.add_assoc]
    simp only [probe, hs, bind, Except.bind, pure, Except.pure] at hp
    cases hb : hit ((idx + (j + 1)) % n) with
    | error e =>
      rw [hb] at hp
      cases hp
    | ok found =>
      rw [hb] at hp
      cases found with
      | true => cases hp
      | false =>
        have hno' : ∀ t, 0 < t → t ≤ j + 1 → hit ((idx + t) % n) = .ok false := by
          intro t h0 ht
          rcases Nat.lt_or_ge j t with h | h
          · rw [show t = j + 1 by omega]; exact hb
          · exact hno t h0 h
        simp only [Bool.false_eq_true, if_false] at hp
        by_cases hend : (idx + (j + 1)) % n = idx
        · obtain rfl : j + 1 = n := steps_eq hidx (by omega) (by omega) hend
          exact hno'
        · rw [if_neg hend] at hp
          exact ih (by omega) hno' hp

lemma probe_missed (hidx : idx < n) {i : ℕ} (hp : probe hang n idx hit n idx = .ok (i, false)) :
    ∀ j < n, hit j = .ok false := by
  intro j hj
  obtain ⟨t, h0, ht, rfl, -⟩ := exists_steps hidx hj
  have hp' : probe hang n idx hit n ((idx + 0) % n) = .ok (i, false) := by
    rwa [Nat.add_zero, Nat.mod_eq_of_lt hidx]
  exact probe_missed_from hidx (by omega) (fun t h0 ht => by omega) hp' t h0 ht

end Silkware.Probe
