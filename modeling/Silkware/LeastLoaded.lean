import Mathlib.Data.Multiset.Basic
import Mathlib.Data.Multiset.Count
import Mathlib.Data.Set.Insert
import Mathlib.Logic.Relation
import Mathlib.Tactic.Common

/-!
Putting things where the least load is, by loads that may have changed since.

A choice looks at the places one after the other, keeps the smallest load it has seen, and adds one
to the place where it saw it. Meanwhile others do the same. The loads drift apart, but no further
than by the number of choices that are under way at a time.
-/

namespace Silkware.LeastLoaded

/-- The places looked at, the smallest load seen there, and where; `least` starts at some value
above which no load is taken. -/
structure Choice (κ : Type) where
  seen : Set κ
  place : κ
  least : ℕ

structure Conf (κ : Type) where
  load : κ → ℕ
  choices : Multiset (Choice κ)

variable {κ : Type} [DecidableEq κ] {S : Set κ} {m top : ℕ} {c c' : Conf κ}

def Choice.look (x : Choice κ) (k : κ) (n : ℕ) : Choice κ where
  seen := insert k x.seen
  place := if n < x.least then k else x.place
  least := if n < x.least then n else x.least

/-- No more than `m` choices are under way, and a choice ends when it has seen all of `S`. -/
inductive Step (S : Set κ) (m top : ℕ) (c : Conf κ) : Conf κ → Prop
  | start {p : κ} (h : c.choices.card < m) :
      Step S m top c { c with choices := ⟨∅, p, top⟩ ::ₘ c.choices }
  | look {x : Choice κ} {r : Multiset (Choice κ)} (k : κ) (h : c.choices = x ::ₘ r) :
      Step S m top c { c with choices := x.look k (c.load k) ::ₘ r }
  | place {x : Choice κ} {r : Multiset (Choice κ)} (h : c.choices = x ::ₘ r) (hs : S ⊆ x.seen)
      (hl : x.least < top) :
      Step S m top c ⟨Function.update c.load x.place (c.load x.place + 1), r⟩

/-- A choice that may yet end at `a`, having seen at most `k` there. -/
def Late (top : ℕ) (a : κ) (k : ℕ) (x : Choice κ) : Prop := x.place = a ∧ x.least ≤ k ∧ x.least < top

instance late_decidable (top : ℕ) (a : κ) (k : ℕ) : DecidablePred (Late top a k) := fun x =>
  inferInstanceAs (Decidable (x.place = a ∧ x.least ≤ k ∧ x.least < top))

/-- A place that is ahead of another gets no more than the late choices bring it. -/
structure Even (S : Set κ) (m top : ℕ) (c : Conf κ) : Prop where
  few : c.choices.card ≤ m
  least : ∀ x ∈ c.choices, ∀ k ∈ x.seen, x.least ≤ c.load k
  ahead : ∀ a ∈ S, ∀ k, (∃ b ∈ S, c.load b ≤ k) → k < c.load a →
    c.load a + c.choices.countP (Late top a k) ≤ k + m

lemma Even.start {p : κ} (h : Even S m top c) (hm : c.choices.card < m) :
    Even S m top { c with choices := ⟨∅, p, top⟩ ::ₘ c.choices } where
  few := by
    rw [Multiset.card_cons]
    exact hm
  least x hx k hk := by
    rcases Multiset.mem_cons.mp hx with rfl | hx
    · exact absurd hk (Set.notMem_empty k)
    · exact h.least x hx k hk
  ahead a ha k hb hk := by
    rw [Multiset.countP_cons_of_neg _ fun hl => lt_irrefl top hl.2.2]
    exact h.ahead a ha k hb hk

/-- What is seen at a place that is ahead by then is not late. -/
lemma late_of_look {x : Choice κ} {j a : κ} {k : ℕ} (hk : k < c.load a)
    (h : Late top a k (x.look j (c.load j))) : Late top a k x := by
  obtain ⟨h1, h2, h3⟩ := h
  simp only [Choice.look] at h1 h2 h3
  split_ifs at h1 h2 h3 with hlt
  · subst h1
    omega
  · exact ⟨h1, h2, h3⟩

lemma Even.look {x : Choice κ} {r : Multiset (Choice κ)} (h : Even S m top c) (j : κ)
    (hc : c.choices = x ::ₘ r) : Even S m top { c with choices := x.look j (c.load j) ::ₘ r } := by
  obtain ⟨hfew, hleast, hahead⟩ := h
  rw [hc] at hfew hleast hahead
  refine ⟨by simpa using hfew, fun y hy k hk => ?_, fun a ha k hb hk => ?_⟩
  · rcases Multiset.mem_cons.mp hy with rfl | hy
    · simp only [Choice.look] at hk ⊢
      rcases hk with rfl | hk
      · split_ifs <;> omega
      · have := hleast x (Multiset.mem_cons_self x r) k hk
        split_ifs <;> omega
    · exact hleast y (Multiset.mem_cons_of_mem hy) k hk
  · have hle := hahead a ha k hb hk
    have hcount : (x.look j (c.load j) ::ₘ r).countP (Late top a k) ≤
        (x ::ₘ r).countP (Late top a k) := by
      rw [Multiset.countP_cons, Multiset.countP_cons]
      by_cases hl : Late top a k (x.look j (c.load j))
      · rw [if_pos hl, if_pos (late_of_look hk hl)]
      · rw [if_neg hl]
        omega
    exact (Nat.add_le_add_left hcount _).trans hle

/-- The choice that ends was late wherever its place was ahead before; where the place gets ahead
only now, one choice fewer than `m` is left. -/
lemma Even.place {x : Choice κ} {r : Multiset (Choice κ)} (h : Even S m top c)
    (hc : c.choices = x ::ₘ r) (hs : S ⊆ x.seen) (hl : x.least < top) :
    Even S m top ⟨Function.update c.load x.place (c.load x.place + 1), r⟩ := by
  obtain ⟨hfew, hleast, hahead⟩ := h
  rw [hc] at hfew hleast hahead
  have hgrow : ∀ k, c.load k ≤ Function.update c.load x.place (c.load x.place + 1) k := by
    intro k
    rcases eq_or_ne k x.place with rfl | hk
    · rw [Function.update_self]
      omega
    · rw [Function.update_of_ne hk]
  rw [Multiset.card_cons] at hfew
  refine ⟨by simp only; omega, fun y hy k hk => ?_, fun a ha k hb hk => ?_⟩
  · exact (hleast y (Multiset.mem_cons_of_mem hy) k hk).trans (hgrow k)
  · obtain ⟨b, hbS, hbk⟩ := hb
    have hbk := (hgrow b).trans hbk
    rcases eq_or_ne a x.place with rfl | hax
    · simp only [Function.update_self] at hk ⊢
      rcases Nat.lt_or_ge k (c.load x.place) with hlt | hge
      · have hle := hahead _ ha k ⟨b, hbS, hbk⟩ hlt
        have hlate : Late top x.place k x :=
          ⟨rfl, (hleast x (Multiset.mem_cons_self x r) b (hs hbS)).trans hbk, hl⟩
        rw [Multiset.countP_cons_of_pos _ hlate] at hle
        omega
      · have := Multiset.countP_le_card (Late top x.place k) r
        omega
    · simp only [Function.update_of_ne hax] at hk ⊢
      have hle := hahead a ha k ⟨b, hbS, hbk⟩ hk
      rw [Multiset.countP_cons] at hle
      omega

lemma Even.step (h : Even S m top c) (hs : Step S m top c c') : Even S m top c' := by
  cases hs with
  | start hm => exact h.start hm
  | look k hc => exact h.look k hc
  | place hc hs hl => exact h.place hc hs hl

/-- Where no choice is under way the loads need only be close to each other. -/
lemma even_of_close (h0 : c.choices = 0) (hb : ∀ a ∈ S, ∀ b ∈ S, c.load a ≤ c.load b + m) :
    Even S m top c := by
  refine ⟨by simp [h0], by simp [h0], fun a ha k hk _ => ?_⟩
  obtain ⟨b, hbS, hbk⟩ := hk
  have := hb a ha b hbS
  rw [h0, Multiset.countP_zero]
  omega

lemma Even.close (h : Even S m top c) {a b : κ} (ha : a ∈ S) (hb : b ∈ S) :
    c.load a ≤ c.load b + m := by
  rcases Nat.lt_or_ge (c.load b) (c.load a) with hlt | hge
  · have := h.ahead a ha _ ⟨b, hb, le_rfl⟩ hlt
    omega
  · omega

/-- **Loads stay close.** They differ by no more than the number of choices under way at a time. -/
lemma close_of_steps (h : Relation.ReflTransGen (Step S m top) c c') (h0 : c.choices = 0)
    (hb : ∀ a ∈ S, ∀ b ∈ S, c.load a ≤ c.load b + m) :
    ∀ a ∈ S, ∀ b ∈ S, c'.load a ≤ c'.load b + m := by
  have heven : Even S m top c' := by
    induction h with
    | refl => exact even_of_close h0 hb
    | tail _ hs ih => exact ih.step hs
  exact fun a ha b hb => heven.close ha hb

end Silkware.LeastLoaded
