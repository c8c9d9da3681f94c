import Mathlib.Algebra.BigOperators.Group.List.Basic
import Mathlib.Tactic.Ring
import Silkware.Segments

/-!
A memory divided into blocks, each a header of `h` bytes and a payload.

`P` says which addresses are those of blocks and `z` how long the payloads are. Blocks are merged
with a neighbour or cut in two; both keep them apart and inside the memory they were in, and keep
the number of bytes in all of them together.
-/

namespace Silkware.Blocks

open Silkware.Segments

/-- The bytes of a block. -/
def span (h : ℕ) (z : ℕ → ℕ) (b : ℕ) : Seg := ⟨b, h + z b⟩

/-- What one operation does to the blocks: nothing, the block `new` becomes a part of the block `p`
that it follows, or the payload of `cur` is cut at `sz`, a multiple of `d`. -/
inductive Change (h d : ℕ) (z z' : ℕ → ℕ) (P P' : ℕ → Prop) : Prop
  | keep (hP : ∀ b, P' b ↔ P b) (hz : ∀ b, P b → z' b = z b)
  | merge (p new : ℕ) (hp : P p) (hn : P new) (he : p + h + z p = new)
      (hz : z' p = z p + (h + z new)) (hP : ∀ b, P' b ↔ P b ∧ b ≠ new)
      (ho : ∀ b, P' b → b ≠ p → z' b = z b)
  | cut (cur sz : ℕ) (hc : P cur) (hd : d ∣ sz) (hsz : sz + h ≤ z cur) (hcz : z' cur = sz)
      (hnz : z' (cur + h + sz) = z cur - (sz + h)) (hP : ∀ b, P' b ↔ P b ∨ b = cur + h + sz)
      (ho : ∀ b, P b → b ≠ cur → z' b = z b)

/-- The blocks are aligned, lie in `R` and do not overlap. -/
structure Laid (h d : ℕ) (z : ℕ → ℕ) (R P : ℕ → Prop) : Prop where
  al : ∀ b, P b → d ∣ b ∧ d ∣ z b
  cov : ∀ b, P b → ∀ x, b ≤ x → x < b + (h + z b) → R x
  apart : ∀ b b', P b → P b' → b ≠ b' → Apart (span h z b) (span h z b')

variable {h d : ℕ} {z z' : ℕ → ℕ} {R P P' : ℕ → Prop}

/-- Where a block is cut, no other block starts. -/
lemma Laid.cut_fresh (hl : Laid h d z R P) (h0 : 0 < h) {cur sz : ℕ} (hc : P cur)
    (hsz : sz + h ≤ z cur) : ¬ P (cur + h + sz) := by
  intro hn
  have := hl.apart cur (cur + h + sz) hc hn (by omega)
  simp only [Apart, Seg.hi, span] at this
  omega

lemma Laid.merge {p new : ℕ} (hl : Laid h d z R P) (h0 : 0 < h) (hdh : d ∣ h) (hp : P p)
    (hn : P new) (he : p + h + z p = new) (hz : z' p = z p + (h + z new))
    (hP : ∀ b, P' b → P b ∧ b ≠ new) (ho : ∀ b, P' b → b ≠ p → z' b = z b) : Laid h d z' R P' := by
  have hap : ∀ b, P' b → b ≠ p → Apart (span h z' b) (span h z' p) := by
    intro b hb hbp
    have h1 := hl.apart b p (hP b hb).1 hp hbp
    have h2 := hl.apart b new (hP b hb).1 hn (hP b hb).2
    simp only [Apart, Seg.hi, span, ho b hb hbp, hz] at *
    omega
  refine ⟨fun b hb => ?_, fun b hb x h1 h2 => ?_, fun b b' hb hb' hne => ?_⟩
  · by_cases hbp : b = p
    · rw [hbp, hz]
      exact ⟨(hl.al p hp).1, Nat.dvd_add (hl.al p hp).2 (Nat.dvd_add hdh (hl.al new hn).2)⟩
    · rw [ho b hb hbp]
      exact hl.al b (hP b hb).1
  · by_cases hbp : b = p
    · subst hbp
      rw [hz] at h2
      rcases Nat.lt_or_ge x new with hx | hx
      · exact hl.cov b hp x h1 (by omega)
      · exact hl.cov new hn x hx (by omega)
    · rw [ho b hb hbp] at h2
      exact hl.cov b (hP b hb).1 x h1 h2
  · by_cases hbp : b = p
    · rw [hbp]
      exact (hap b' hb' fun e => hne (hbp.trans e.symm)).symm
    · by_cases hbp' : b' = p
      · rw [hbp']
        exact hap b hb hbp
      · rw [span, span, ho b hb hbp, ho b' hb' hbp']
        exact hl.apart b b' (hP b hb).1 (hP b' hb').1 hne

lemma Laid.cut {cur sz : ℕ} (hl : Laid h d z R P) (hdh : d ∣ h) (hc : P cur) (hd : d ∣ sz)
    (hsz : sz + h ≤ z cur) (hcz : z' cur = sz) (hnz : z' (cur + h + sz) = z cur - (sz + h))
    (hP : ∀ b, P' b → P b ∨ b = cur + h + sz) (ho : ∀ b, P b → b ≠ cur → z' b = z b) :
    Laid h d z' R P' := by
  -- each block lies in the old block it is a part of
  have hin : ∀ b, P' b → (d ∣ b ∧ d ∣ z' b) ∧ ∃ b', P b' ∧ Inside (span h z' b) (span h z b') ∧
      (b' = cur ∧ (b = cur ∨ b = cur + h + sz) ∨ b' = b) := by
    intro b hb
    by_cases hbn : b = cur + h + sz
    · refine ⟨?_, cur, hc, ?_, Or.inl ⟨rfl, Or.inr hbn⟩⟩
      · rw [hbn, hnz]
        exact ⟨Nat.dvd_add (Nat.dvd_add (hl.al cur hc).1 hdh) hd,
          Nat.dvd_sub (hl.al cur hc).2 (Nat.dvd_add hd hdh)⟩
      · simp only [Inside, Seg.hi, span, hbn, hnz]
        omega
    · have hb' := (hP b hb).resolve_right hbn
      by_cases hbc : b = cur
      · refine ⟨?_, cur, hc, ?_, Or.inl ⟨rfl, Or.inl hbc⟩⟩
        · rw [hbc, hcz]
          exact ⟨(hl.al cur hc).1, hd⟩
        · simp only [Inside, Seg.hi, span, hbc, hcz]
          omega
      · refine ⟨?_, b, hb', ?_, Or.inr rfl⟩
        · rw [ho b hb' hbc]
          exact hl.al b hb'
        · simp only [Inside, Seg.hi, span, ho b hb' hbc]
          omega
  refine ⟨fun b hb => (hin b hb).1, fun b hb x h1 h2 => ?_, fun b b' hb hb' hne => ?_⟩
  · obtain ⟨-, b', hb', hi, -⟩ := hin b hb
    simp only [Inside, Seg.hi, span] at hi
    exact hl.cov b' hb' x (by omega) (by omega)
  · obtain ⟨-, c, h1, h2, h3⟩ := hin b hb
    obtain ⟨-, c', h1', h2', h3'⟩ := hin b' hb'
    by_cases hcc : c = c'
    · have hbs : (b = cur ∧ b' = cur + h + sz) ∨ (b = cur + h + sz ∧ b' = cur) := by omega
      simp only [Apart, Seg.hi, span]
      rcases hbs with ⟨e1, e2⟩ | ⟨e1, e2⟩ <;> rw [e1, e2, hcz, hnz] <;> omega
    · exact (((hl.apart c c' h1 h1' hcc).mono h2).symm.mono h2').symm

lemma Laid.congr (hl : Laid h d z R P) (hP : ∀ b, P' b → P b) (hz : ∀ b, P' b → z' b = z b) :
    Laid h d z' R P' := by
  refine ⟨fun b hb => ?_, fun b hb x h1 h2 => ?_, fun b b' hb hb' hne => ?_⟩
  · rw [hz b hb]
    exact hl.al b (hP b hb)
  · rw [hz b hb] at h2
    exact hl.cov b (hP b hb) x h1 h2
  · rw [span, span, hz b hb, hz b' hb']
    exact hl.apart b b' (hP b hb) (hP b' hb') hne

lemma Laid.change (hl : Laid h d z R P) (h0 : 0 < h) (hdh : d ∣ h)
    (hc : Change h d z z' P P') : Laid h d z' R P' := by
  cases hc with
  | keep hP hz => exact hl.congr (fun b hb => (hP b).mp hb) fun b hb => hz b ((hP b).mp hb)
  | merge p new hp hn he hz hP ho => exact hl.merge h0 hdh hp hn he hz (fun b hb => (hP b).mp hb) ho
  | cut cur sz hc hd hsz hcz hnz hP ho =>
    exact hl.cut hdh hc hd hsz hcz hnz (fun b hb => (hP b).mp hb) ho

/-! ### Counting bytes -/

/-- There are finitely many blocks, with `t` bytes in all. -/
def Tally (h : ℕ) (z : ℕ → ℕ) (P : ℕ → Prop) (t : ℕ) : Prop :=
  ∃ L : List ℕ, L.Nodup ∧ (∀ b, b ∈ L ↔ P b) ∧ (L.map fun b => h + z b).sum = t

lemma sum_congr {L : List ℕ} (hz : ∀ b ∈ L, z' b = z b) :
    (L.map fun b => h + z' b).sum = (L.map fun b => h + z b).sum := by
  rw [List.map_congr_left fun b hb => by rw [hz b hb]]

lemma Tally.congr {t : ℕ} (ht : Tally h z P t) (hP : ∀ b, P' b ↔ P b) (hz : ∀ b, P b → z' b = z b) :
    Tally h z' P' t := by
  obtain ⟨L, hnd, hL, hs⟩ := ht
  exact ⟨L, hnd, fun b => (hL b).trans (hP b).symm,
    (sum_congr fun b hb => hz b ((hL b).mp hb)).trans hs⟩

/-- The blocks have one number of bytes. -/
lemma Tally.unique {t t' : ℕ} (ht : Tally h z P t) (ht' : Tally h z P t') : t = t' := by
  obtain ⟨L, hnd, hL, rfl⟩ := ht
  obtain ⟨L', hnd', hL', rfl⟩ := ht'
  have hperm : L.Perm L' := (List.perm_ext_iff_of_nodup hnd hnd').mpr fun b => (hL b).trans (hL' b).symm
  exact (hperm.map _).sum_eq

/-- A block set apart from the others. -/
lemma Tally.split {t b : ℕ} (ht : Tally h z P t) (hb : P b) :
    ∃ L : List ℕ, (b :: L).Nodup ∧ (∀ c, c ∈ L ↔ P c ∧ c ≠ b) ∧
      h + z b + (L.map fun c => h + z c).sum = t := by
  obtain ⟨L, hnd, hL, hs⟩ := ht
  have hmem : b ∈ L := (hL b).mpr hb
  have hperm := List.perm_cons_erase hmem
  have hnd' := hperm.nodup_iff.mp hnd
  refine ⟨L.erase b, hnd', fun c => ?_, ?_⟩
  · rw [hnd.mem_erase_iff, hL c, and_comm]
  · rw [← hs, (hperm.map fun c => h + z c).sum_eq, List.map_cons, List.sum_cons]

/-- A new block. -/
lemma Tally.add {t b : ℕ} (ht : Tally h z P t) (hb : ¬ P b) (hP : ∀ c, P' c ↔ P c ∨ c = b)
    (hz : ∀ c, P c → z' c = z c) : Tally h z' P' (h + z' b + t) := by
  obtain ⟨L, hnd, hL, hs⟩ := ht
  refine ⟨b :: L, List.nodup_cons.mpr ⟨fun hm => hb ((hL b).mp hm), hnd⟩, fun c => ?_, ?_⟩
  · rw [List.mem_cons, hL c, hP c, or_comm]
  · rw [List.map_cons, List.sum_cons, sum_congr fun c hc => hz c ((hL c).mp hc), hs]

/-- Merging and cutting neither gain nor lose a byte. -/
lemma Tally.change {t : ℕ} (ht : Tally h z P t) (hl : Laid h d z R P) (h0 : 0 < h)
    (hc : Change h d z z' P P') : Tally h z' P' t := by
  cases hc with
  | keep hP hz => exact ht.congr hP hz
  | merge p new hp hn he hz hP ho =>
    obtain ⟨L, hnd, hL, hs⟩ := ht.split hn
    obtain ⟨-, hnd⟩ := List.nodup_cons.mp hnd
    have hpL : p ∈ L := (hL p).mpr ⟨hp, by omega⟩
    have hperm := List.perm_cons_erase hpL
    have hrest : ∀ c ∈ L.erase p, z' c = z c := fun c hc => by
      obtain ⟨hne, hc⟩ := hnd.mem_erase_iff.mp hc
      exact ho c ((hP c).mpr ((hL c).mp hc)) hne
    refine ⟨L, hnd, fun b => (hL b).trans (hP b).symm, ?_⟩
    rw [(hperm.map fun c => h + z c).sum_eq, List.map_cons, List.sum_cons] at hs
    rw [(hperm.map fun c => h + z' c).sum_eq, List.map_cons, List.sum_cons, sum_congr hrest, hz]
    omega
  | cut cur sz hc hd hsz hcz hnz hP ho =>
    have hfresh := hl.cut_fresh h0 hc hsz
    obtain ⟨L, hnd, hL, hs⟩ := ht.split hc
    have hrest : ∀ c ∈ L, z' c = z c := fun c hc => ho c ((hL c).mp hc).1 ((hL c).mp hc).2
    refine ⟨(cur + h + sz) :: cur :: L, List.nodup_cons.mpr ⟨fun hm => hfresh ?_, hnd⟩, fun b => ?_, ?_⟩
    · rcases List.mem_cons.mp hm with e | hm
      · omega
      · exact ((hL _).mp hm).1
    · rw [hP b, List.mem_cons, List.mem_cons, hL b]
      constructor
      · rintro (rfl | rfl | ⟨hb, -⟩)
        · exact Or.inr rfl
        · exact Or.inl hc
        · exact Or.inl hb
      · rintro (hb | rfl)
        · by_cases hbc : b = cur
          · exact Or.inr (Or.inl hbc)
          · exact Or.inr (Or.inr ⟨hb, hbc⟩)
        · exact Or.inl rfl
    · simp only [List.map_cons, List.sum_cons, sum_congr hrest, hcz, hnz]
      omega

end Silkware.Blocks
