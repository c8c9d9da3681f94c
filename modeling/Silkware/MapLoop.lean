import Silkware.PageTables

/-!
The loop that `premap_pages` and `map_pages` share.

What a walker has to keep is stated once, for any invariant; the loop then builds the page map
it was asked for, and every other page keeps its translation.
-/

namespace Silkware.MapLoop

open Silkware.Kern Silkware.Radix Silkware.Paging Silkware.Outcome Silkware.PageTables

/-- A walker that keeps `Inv`. `Tab s t f` says that the table in frame `f` is seen at `t`, and
stays so; `Fresh s g` that frame `g` was taken for a table and is not yet linked in; `on v` that
the page of `v` may be mapped; the entries of `hidden` pages may change on the way. -/
structure Law (K : Image) (w : Walker) (root : ℕ) (Inv : St → Prop) (Tab : St → ℕ → ℕ → Prop)
    (Fresh : St → ℕ → Prop) (on hidden : ℕ → Prop) : Prop where
  tree {s} : Inv s → IsTree (entry s.mem) next root 3
  seen {s t f} : Inv s → Tab s t f → At K s t f
  get {s v p f} : Inv s → on v → p <+: path v → p ≠ [] → table s.mem root p = some f →
    OrStops .panic (w.get (f * 0x1000) s) fun t => Tab s t f
  new {s} : Inv s → OrStops .panic (w.new s) fun r => ∃ g, r.1 = g * 0x1000 ∧ Inv r.2 ∧
    Fresh r.2 g ∧ (∀ t f, Tab s t f → Tab r.2 t f) ∧
    (∀ q f, q.length < 3 → table s.mem root q = some f → entry r.2.mem f = entry s.mem f) ∧
    ∀ v, ¬ hidden v → leaf r.2.mem root v = leaf s.mem root v
  fresh {s g} : Inv s → Fresh s g → g * 0x1000 < 2 ^ 63 ∧
    (∀ q, q.length ≤ 3 → table s.mem root q ≠ some g) ∧ ∀ j, present (entry s.mem g j) = false
  link {s g p t f i} : Inv s → Fresh s g → Tab s t f → p.length < 3 → table s.mem root p = some f →
    next (entry s.mem f i) = none → Inv (setEntry s f i (g * 0x1000 ||| topFlags)) ∧
    ∀ t h, Tab s t h → Tab (setEntry s f i (g * 0x1000 ||| topFlags)) t h
  put {s t v f x} : Inv s → on v → Tab s t f → table s.mem root (path v) = some f →
    Inv (setEntry s f (index 0 v) x)

variable {K : Image} {w : Walker} {root : ℕ} {Inv : St → Prop} {Tab : St → ℕ → ℕ → Prop}
  {Fresh : St → ℕ → Prop} {on hidden : ℕ → Prop} {s : St} {t f v : ℕ} {p : List (Fin 512)}
  {i : Fin 512}

/-- Pages that are not hidden keep their translation. -/
def Keeps (root : ℕ) (hidden : ℕ → Prop) (s s' : St) : Prop :=
  ∀ v, ¬ hidden v → Grows (leaf s.mem root v) (leaf s'.mem root v)

lemma Keeps.trans {s₁ s₂ s₃ : St} (h1 : Keeps root hidden s₁ s₂) (h2 : Keeps root hidden s₂ s₃) :
    Keeps root hidden s₁ s₃ := fun v hv => (h1 v hv).trans (h2 v hv)

variable (L : Law K w root Inv Tab Fresh on hidden)

include L in
/-- The entry on the way to a page, and the table it leads to. -/
lemma tableEntry_spec (hI : Inv s) (ht : Tab s t f) (hp : p.length < 3)
    (hf : table s.mem root p = some f) :
    OrStops .panic (tableEntry K w t i s) fun r => Inv r.2 ∧ Keeps root hidden s r.2 ∧
      ∃ g, next r.1 = some g ∧ table r.2.mem root (p ++ [i]) = some g := by
  have hload := (L.seen hI ht).load i
  unfold tableEntry
  simp only [hload, bind, Except.bind]
  by_cases hpr : present (entry s.mem f i) = true
  · rw [if_pos hpr]
    have hg : next (entry s.mem f i) = some ((entry s.mem f i &&& addrMask) / 0x1000) := by
      rw [next, if_pos hpr]
    refine OrStops.ok ⟨hI, fun v _ => Grows.refl _, _, hg, ?_⟩
    rw [← hg]
    exact walk_concat_of hf
  · rw [if_neg hpr]
    refine (L.new hI).bind ?_
    rintro ⟨a, s₁⟩ ⟨g, rfl, hI₁, hF, hT, hN, hL⟩
    have hw : ∀ q, q.length ≤ 3 → table s₁.mem root q = table s.mem root q :=
      fun q hq => walk_congr hN hq
    have hf₁ : table s₁.mem root p = some f := by rw [hw p (by omega), hf]
    have hnone : next (entry s₁.mem f i) = none := by
      rw [hN p f hp hf, next_eq_none, ← Bool.not_eq_true]
      exact hpr
    obtain ⟨hg, hnew, hempty⟩ := L.fresh hI₁ hF
    obtain ⟨hI₂, hT₂⟩ := L.link hI₁ hF (hT t f ht) hp hf₁ hnone
    set s₂ := setEntry s₁ f i (g * 0x1000 ||| topFlags) with hs₂
    have hst := (L.seen hI₁ (hT t f ht)).store i (g * 0x1000 ||| topFlags)
    have hld := (L.seen hI₂ (hT₂ t f (hT t f ht))).load i
    have he : entry s₂.mem f i = g * 0x1000 ||| topFlags := by
      rw [hs₂, entry_setEntry, put_same]
    have hn : next (g * 0x1000 ||| topFlags) = some g := next_link hg
    simp only [hst, ← hs₂, hld]
    refine OrStops.ok ⟨hI₂, fun v hv => ?_, g, by rw [he, hn], ?_⟩
    · rw [← hL v hv]
      exact leaf_link (L.tree hI₁) hp hf₁ hnone hg hnew hempty
    · rw [hs₂, table, entry_setEntry, (L.tree hI₁).walk_link hp hf₁ hnone hn hnew
        (fun _ j => next_eq_none.mpr (hempty j)) (by simp; omega), if_pos rfl]

include L in
lemma descend_spec (hI : Inv s) (ht : Tab s t f) (hp : p.length < 3)
    (hf : table s.mem root p = some f) (hv : on v) (hpv : p ++ [i] <+: path v) :
    OrStops .panic (descend K w t i s) fun r => Inv r.2 ∧ Keeps root hidden s r.2 ∧
      ∃ g, Tab r.2 r.1 g ∧ table r.2.mem root (p ++ [i]) = some g := by
  refine (tableEntry_spec L (i := i) hI ht hp hf).bind ?_
  rintro ⟨e, s₁⟩ ⟨hI₁, hk, g, hg, hw⟩
  simp only [(next_eq_some hg).2]
  refine (L.get hI₁ hv hpv (by simp) hw).bind fun t' ht' => ?_
  exact OrStops.ok ⟨hI₁, hk, g, ht', hw⟩

include L in
/-- One turn of the loop maps one page. -/
lemma mapPage_spec {pml4 flags dst src : ℕ} (hI : Inv s) (ht : Tab s pml4 root) (hon : on dst) :
    OrStops .panic (mapPage K w pml4 flags dst src s) fun s' => Inv s' ∧
      leaf s'.mem root dst = some (leafEntry src flags) ∧
      ∀ v, vpage v ≠ vpage dst → ¬ hidden v → Grows (leaf s.mem root v) (leaf s'.mem root v) := by
  have hpath : path dst = [index 3 dst, index 2 dst, index 1 dst] := rfl
  unfold mapPage
  refine (descend_spec L (p := []) hI ht (by simp) rfl hon (by simp [hpath])).bind ?_
  rintro ⟨pdpt, s₁⟩ ⟨hI₁, hk₁, f₁, ht₁, hw₁⟩
  refine (descend_spec L (i := index 2 dst) hI₁ ht₁ (by simp) hw₁ hon (by simp [hpath])).bind ?_
  rintro ⟨pd, s₂⟩ ⟨hI₂, hk₂, f₂, ht₂, hw₂⟩
  refine (descend_spec L (i := index 1 dst) hI₂ ht₂ (by simp) hw₂ hon (by simp [hpath])).bind ?_
  rintro ⟨pt, s₃⟩ ⟨hI₃, hk₃, f₃, ht₃, hw₃⟩
  have hw : table s₃.mem root (path dst) = some f₃ := by simpa [hpath] using hw₃
  simp only [(L.seen hI₃ ht₃).store]
  refine OrStops.ok ⟨L.put hI₃ hon ht₃ hw, ?_, fun v hne hv => ?_⟩
  · rw [leaf_put (L.tree hI₃) hw, if_pos rfl, leafEntry]
  · rw [leaf_put (L.tree hI₃) hw, if_neg hne]
    exact ((hk₁.trans hk₂).trans hk₃) v hv

/-! ### The whole range -/

/-- How often the body of the loop runs. -/
def turns (dst src length : ℕ) : ℕ :=
  min ((roundUpPage ((dst + length) % 2 ^ 64) + 0xFFF - dst) / 0x1000)
    ((roundUpPage ((src + length) % 2 ^ 64) + 0xFFF - src) / 0x1000)

lemma roundUpPage_le (x : ℕ) : roundUpPage x + 0x1000 ≤ 2 ^ 64 := by
  unfold roundUpPage floorPage
  omega

lemma mapLoop_rule {pml4 flags dstEnd srcEnd fuel dst src n : ℕ} (J : ℕ → St → Prop)
    (hd : dstEnd + 0x1000 ≤ 2 ^ 64) (hs : srcEnd + 0x1000 ≤ 2 ^ 64)
    (hn : ∀ k, k < n ↔ dst + k * 0x1000 < dstEnd ∧ src + k * 0x1000 < srcEnd) (hfuel : n ≤ fuel)
    (hstep : ∀ k < n, ∀ s, J k s → OrStops .panic
      (mapPage K w pml4 flags (dst + k * 0x1000) (src + k * 0x1000) s) (J (k + 1)))
    (h0 : J 0 s) : OrStops .panic (mapLoop K w pml4 flags dstEnd srcEnd fuel dst src s) (J n) := by
  induction fuel generalizing dst src n s J with
  | zero =>
    have hz : n = 0 := by omega
    subst hz
    have hc : ¬ (dst < dstEnd ∧ src < srcEnd) := fun h => by
      have := (hn 0).mpr (by simpa using h)
      omega
    rw [mapLoop, if_neg hc]
    exact OrStops.pure h0
  | succ fuel ih =>
    rw [mapLoop]
    by_cases hz : n = 0
    · subst hz
      have hc : ¬ (dst < dstEnd ∧ src < srcEnd) := fun h => by
        have := (hn 0).mpr (by simpa using h)
        omega
      rw [if_neg hc]
      exact OrStops.pure h0
    · have hc : dst < dstEnd ∧ src < srcEnd := by simpa using (hn 0).mp (by omega)
      rw [if_pos hc]
      have h1 := hstep 0 (by omega) s h0
      simp only [Nat.zero_mul, Nat.add_zero] at h1
      refine h1.bind fun s₁ hs₁ => ?_
      have e1 : (dst + pageSize) % 2 ^ 64 = dst + 0x1000 := by unfold pageSize; omega
      have e2 : (src + pageSize) % 2 ^ 64 = src + 0x1000 := by unfold pageSize; omega
      rw [e1, e2]
      obtain ⟨m, rfl⟩ : ∃ m, n = m + 1 := ⟨n - 1, by omega⟩
      refine ih (n := m) (fun k => J (k + 1)) (fun k => ?_) (by omega) (fun k hk s hs => ?_) hs₁
      · have := hn (k + 1)
        rw [show dst + 0x1000 + k * 0x1000 = dst + (k + 1) * 0x1000 by omega,
          show src + 0x1000 + k * 0x1000 = src + (k + 1) * 0x1000 by omega, ← this]
        omega
      · have := hstep (k + 1) (by omega) s hs
        rwa [show dst + 0x1000 + k * 0x1000 = dst + (k + 1) * 0x1000 by omega,
          show src + 0x1000 + k * 0x1000 = src + (k + 1) * 0x1000 by omega]

/-- What holds at first and is kept by each turn holds after the loop. -/
lemma mapRange_rule {pml4 dst src length flags : ℕ} (J : ℕ → St → Prop)
    (hstep : ∀ k < turns dst src length, ∀ s, J k s → OrStops .panic
      (mapPage K w pml4 flags (dst + k * 0x1000) (src + k * 0x1000) s) (J (k + 1)))
    (h0 : J 0 s) :
    OrStops .panic (mapRange K w pml4 dst src length flags s) (J (turns dst src length)) := by
  refine mapLoop_rule J (roundUpPage_le _) (roundUpPage_le _) (fun k => ?_) ?_ hstep h0
  · unfold turns
    omega
  · unfold turns pageSize
    omega

/-- The page map that a range asks for: the last turn for a page decides. -/
structure Maps (root : ℕ) (hidden : ℕ → Prop) (dst src flags n : ℕ) (s s' : St) : Prop where
  mapped : ∀ k < n, (∀ j, k < j → j < n → vpage (dst + j * 0x1000) ≠ vpage (dst + k * 0x1000)) →
    leaf s'.mem root (dst + k * 0x1000) = some (leafEntry (src + k * 0x1000) flags)
  others : ∀ v, (∀ k < n, vpage v ≠ vpage (dst + k * 0x1000)) → ¬ hidden v →
    Grows (leaf s.mem root v) (leaf s'.mem root v)

include L in
lemma mapRange_spec (pml4 dst src length flags : ℕ) (hI : Inv s) (ht : ∀ s, Inv s → Tab s pml4 root)
    (hon : ∀ k < turns dst src length, on (dst + k * 0x1000))
    (hhid : ∀ k < turns dst src length, ¬ hidden (dst + k * 0x1000)) :
    OrStops .panic (mapRange K w pml4 dst src length flags s) fun s' => Inv s' ∧
      Maps root hidden dst src flags (turns dst src length) s s' := by
  refine mapRange_rule (fun k s' => Inv s' ∧ Maps root hidden dst src flags k s s') ?_
    ⟨hI, fun k hk => absurd hk (by omega), fun v _ _ => Grows.refl _⟩
  rintro k hk s₁ ⟨hI₁, hm, ho⟩
  refine (mapPage_spec L hI₁ (ht s₁ hI₁) (hon k hk)).mono ?_
  rintro s₂ ⟨hI₂, hleaf, hkeep⟩
  refine ⟨hI₂, fun j hj hlast => ?_, fun v hv hh => ?_⟩
  · by_cases hjk : j = k
    · rw [hjk]; exact hleaf
    · have h1 := hm j (by omega) fun i h1 h2 => hlast i h1 (by omega)
      have h2 := hkeep (dst + j * 0x1000) (hlast k (by omega) (by omega)).symm (hhid j (by omega))
      rw [h1] at h2
      exact h2.some
  · exact (ho v (fun j hj => hv j (by omega)) hh).trans (hkeep v (hv k (by omega)) hh)

/-! ### What every store keeps -/

/-- Where a walker's `new` and every store keep to `R`, the loop does, whatever it is run on. -/
lemma mapRange_rel {R : St → St → Prop} (hrefl : ∀ s, R s s)
    (htrans : ∀ {s₁ s₂ s₃}, R s₁ s₂ → R s₂ s₃ → R s₁ s₃) (hset : ∀ s a x, R s (setWord s a x))
    (hnew : ∀ s, Gives (w.new s) fun r => R s r.2) (pml4 dst src length flags : ℕ) (s : St) :
    Gives (mapRange K w pml4 dst src length flags s) (R s) := by
  have hstore : ∀ s v x, Gives (store K s v x) (R s) := fun s v x =>
    Gives.then fun a => Gives.pure (hset s a x)
  have hentry : ∀ tab i s, Gives (tableEntry K w tab i s) fun r => R s r.2 := by
    intro tab i s
    refine Gives.then fun e => ?_
    split
    · exact Gives.pure (hrefl s)
    · refine (hnew s).bind fun r h1 => ?_
      refine (hstore _ _ _).bind fun s₂ h2 => ?_
      exact Gives.then fun e => Gives.pure (htrans h1 h2)
  have hdown : ∀ tab i s, Gives (descend K w tab i s) fun r => R s r.2 := fun tab i s =>
    (hentry tab i s).bind fun r h => Gives.then fun t => Gives.pure h
  have hpage : ∀ dst src s, Gives (mapPage K w pml4 flags dst src s) (R s) := by
    intro dst src s
    refine (hdown _ _ s).bind fun r₁ h1 => ?_
    refine (hdown _ _ _).bind fun r₂ h2 => ?_
    refine (hdown _ _ _).bind fun r₃ h3 => ?_
    exact (hstore _ _ _).mono fun s' h4 => htrans (htrans (htrans h1 h2) h3) h4
  have hloop : ∀ dstEnd srcEnd fuel dst src s,
      Gives (mapLoop K w pml4 flags dstEnd srcEnd fuel dst src s) (R s) := by
    intro dstEnd srcEnd fuel
    induction fuel with
    | zero =>
      intro dst src s
      rw [mapLoop]
      split
      · exact Gives.error
      · exact Gives.pure (hrefl s)
    | succ fuel ih =>
      intro dst src s
      rw [mapLoop]
      split
      · exact (hpage dst src s).bind fun s₁ h1 => (ih _ _ s₁).mono fun s₂ h2 => htrans h1 h2
      · exact Gives.pure (hrefl s)
  exact hloop _ _ _ _ _ _

end Silkware.MapLoop
