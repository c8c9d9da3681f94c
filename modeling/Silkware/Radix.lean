import Mathlib.Data.List.Induction
import Mathlib.Tactic.Common

/-!
Radix trees in a store.

A store gives each table its entries, and `next` the table an entry leads to, if any. The
tables reached from a root by paths of at most `d` steps form a tree when no table is reached
by two of them; then an entry written through one path is not seen through another.
-/

namespace Silkware.Radix

variable {F I E : Type*} {node node' : F → I → E} {next : E → Option F} {root f g : F} {d : ℕ}
  {p q : List I} {i j : I} {e : E}

/-- The table at the end of a path. -/
def walk (node : F → I → E) (next : E → Option F) : F → List I → Option F
  | f, [] => some f
  | f, i :: p => (next (node f i)).bind fun g => walk node next g p

/-- The entry at the end of a path. -/
def look (node : F → I → E) (next : E → Option F) (root : F) (p : List I) (i : I) : Option E :=
  (walk node next root p).map (node · i)

def IsTree (node : F → I → E) (next : E → Option F) (root : F) (d : ℕ) : Prop :=
  ∀ p q f, p.length ≤ d → q.length ≤ d → walk node next root p = some f →
    walk node next root q = some f → p = q

@[simp] lemma walk_nil : walk node next f [] = some f := rfl

lemma walk_concat : walk node next root (p ++ [i]) =
    (walk node next root p).bind fun f => next (node f i) := by
  induction p generalizing root with
  | nil => simp [walk]
  | cons a p ih =>
    simp only [List.cons_append, walk, Option.bind_assoc]
    exact congrArg _ (funext fun g => ih)

lemma walk_concat_of (h : walk node next root p = some f) :
    walk node next root (p ++ [i]) = next (node f i) := by
  rw [walk_concat, h, Option.bind_some]

/-- A path that can be followed can be followed up to each of its tables. -/
lemma walk_prefix (h : (walk node next root (p ++ q)).isSome) :
    (walk node next root p).isSome := by
  induction q using List.reverseRecOn with
  | nil => simpa using h
  | append_singleton q i ih =>
    rw [← List.append_assoc, walk_concat] at h
    refine ih ?_
    cases hw : walk node next root (p ++ q) with
    | none => rw [hw] at h; cases h
    | some g => rfl

/-- Only the entries of the tables on the way count. -/
lemma walk_congr (h : ∀ q g, q.length < d → walk node next root q = some g → node' g = node g)
    (hq : q.length ≤ d) : walk node' next root q = walk node next root q := by
  induction q using List.reverseRecOn with
  | nil => rfl
  | append_singleton q i ih =>
    rw [List.length_append, List.length_singleton] at hq
    rw [walk_concat, walk_concat, ih (by omega)]
    cases hw : walk node next root q with
    | none => rfl
    | some g => rw [Option.bind_some, Option.bind_some, h q g (by omega) hw]

lemma IsTree.congr (h : IsTree node next root d)
    (hw : ∀ q, q.length ≤ d → walk node' next root q = walk node next root q) :
    IsTree node' next root d := by
  intro p q f hp hq h1 h2
  rw [hw p hp] at h1
  rw [hw q hq] at h2
  exact h p q f hp hq h1 h2

/-! ### Tables with names -/

/-- `P` names tables by paths: an entry of a named table that leads on, other than those in
`skip`, leads to the table with the longer name. -/
def Named (node : F → I → E) (next : E → Option F) (skip : List I → I → Prop) (d : ℕ)
    (P : F → Option (List I)) : Prop :=
  ∀ f p i g, P f = some p → p.length < d → ¬ skip p i → next (node f i) = some g →
    P g = some (p ++ [i])

variable {skip : List I → I → Prop} {P : F → Option (List I)}

/-- A table is named by the path to it. -/
lemma Named.walk (h : Named node next skip d P) (hroot : P root = some []) (hq : q.length ≤ d)
    (hskip : ∀ p i, p ++ [i] <+: q → ¬ skip p i) (hw : walk node next root q = some f) :
    P f = some q := by
  induction q using List.reverseRecOn generalizing f with
  | nil =>
    obtain rfl := Option.some.inj hw
    exact hroot
  | append_singleton q i ih =>
    rw [List.length_append, List.length_singleton] at hq
    rw [walk_concat, Option.bind_eq_some_iff] at hw
    obtain ⟨g, hg, hn⟩ := hw
    have hPg := ih (by omega) (fun p j hp => hskip p j (hp.trans (List.prefix_append _ _))) hg
    exact h g q i f hPg (by omega) (hskip q i (List.prefix_refl _)) hn

lemma Named.congr (h : Named node next skip d P) (hn : ∀ f p, P f = some p → node' f = node f) :
    Named node' next skip d P := by
  intro f p i g hf hp hi hg
  rw [hn f p hf] at hg
  exact h f p i g hf hp hi hg

/-! ### Writing an entry -/

variable [DecidableEq F] [DecidableEq I]

def put (node : F → I → E) (f : F) (i : I) (e : E) : F → I → E :=
  fun g j => if g = f ∧ j = i then e else node g j

lemma put_same : put node f i e f i = e := if_pos ⟨rfl, rfl⟩

lemma put_table (h : g ≠ f) : put node f i e g = node g :=
  funext fun _ => if_neg fun h' => h h'.1

lemma put_index (h : j ≠ i) : put node f i e g j = node g j := if_neg fun h' => h h'.2

/-- An entry of a table at full depth is on the way to no table. -/
lemma IsTree.walk_put (ht : IsTree node next root d) (hp : p.length = d)
    (hf : walk node next root p = some f) (hq : q.length ≤ d) :
    walk (put node f i e) next root q = walk node next root q := by
  refine walk_congr (d := d) (fun q' g hq' hg => put_table ?_) hq
  rintro rfl
  have := ht p q' g (by omega) (by omega) hf hg
  rw [this] at hp
  omega

lemma IsTree.look_put (ht : IsTree node next root d) (hp : p.length = d)
    (hf : walk node next root p = some f) (hq : q.length = d) :
    look (put node f i e) next root q j =
      if q = p ∧ j = i then some e else look node next root q j := by
  rw [look, look, ht.walk_put hp hf (by omega)]
  cases hw : walk node next root q with
  | none =>
    have : ¬ (q = p ∧ j = i) := by
      rintro ⟨rfl, -⟩
      rw [hf] at hw
      cases hw
    rw [if_neg this]
    rfl
  | some g =>
    rw [Option.map_some, Option.map_some]
    by_cases h : q = p ∧ j = i
    · obtain ⟨rfl, rfl⟩ := h
      rw [hf, Option.some.injEq] at hw
      rw [if_pos ⟨rfl, rfl⟩, hw, put_same]
    · rw [if_neg h]
      by_cases hgf : g = f
      · have hqp : q = p := ht q p f (by omega) (by omega) (hgf ▸ hw) hf
        rw [put_index fun hji => h ⟨hqp, hji⟩]
      · rw [put_table hgf]

/-- Linking a new table in adds the one path to it, if its entries lead nowhere. -/
lemma IsTree.walk_link (ht : IsTree node next root d) (hp : p.length < d)
    (hf : walk node next root p = some f) (hnone : next (node f i) = none) (he : next e = some g)
    (hnew : ∀ q, q.length ≤ d → walk node next root q ≠ some g)
    (hempty : p.length + 1 < d → ∀ j, next (node g j) = none) (hq : q.length ≤ d) :
    walk (put node f i e) next root q =
      if q = p ++ [i] then some g else walk node next root q := by
  have hgf : g ≠ f := fun h => hnew p (by omega) (h ▸ hf)
  induction q using List.reverseRecOn with
  | nil => rw [if_neg (by simp)]; rfl
  | append_singleton q j ih =>
    rw [List.length_append, List.length_singleton] at hq
    rw [walk_concat, walk_concat, ih (by omega)]
    by_cases hqp : q = p ++ [i]
    · have hlen : q.length = p.length + 1 := by simp [hqp]
      have hne : q ++ [j] ≠ p ++ [i] := fun h => by
        have := congrArg List.length h
        simp only [List.length_append, List.length_singleton] at this
        omega
      rw [if_pos hqp, if_neg hne, hqp, walk_concat_of hf, hnone, Option.bind_some, put_table hgf,
        hempty (by omega)]
      rfl
    · rw [if_neg hqp]
      cases hw : walk node next root q with
      | none =>
        have hne : q ++ [j] ≠ p ++ [i] := fun h => by
          rw [(List.append_inj' h rfl).1, hf] at hw
          cases hw
        rw [if_neg hne]
        rfl
      | some h =>
        rw [Option.bind_some, Option.bind_some]
        by_cases heq : q ++ [j] = p ++ [i]
        · obtain ⟨rfl, hji⟩ := List.append_inj' heq rfl
          rw [hf, Option.some.injEq] at hw
          rw [if_pos heq, ← hw, List.singleton_inj.mp hji, put_same, he]
        · rw [if_neg heq]
          by_cases hhf : h = f
          · have hq' : q = p := ht q p f (by omega) (by omega) (hhf ▸ hw) hf
            rw [put_index fun hji => heq (by rw [hq', hji])]
          · rw [put_table hhf]

/-- Linking a table without a name in gives it one. -/
lemma Named.link (h : Named node next skip d P) (hf : P f = some p) (hg : P g = none)
    (he : next e = some g) (hempty : ∀ j, next (node g j) = none) :
    Named (put node f i e) next skip d (Function.update P g (some (p ++ [i]))) := by
  have hgf : g ≠ f := by
    rintro rfl
    rw [hg] at hf
    cases hf
  intro f' p' i' g' hf' hp' hi' hn
  by_cases hfg : f' = g
  · rw [hfg, put_table hgf, hempty] at hn
    cases hn
  · rw [Function.update_of_ne hfg] at hf'
    by_cases hat : f' = f ∧ i' = i
    · obtain ⟨rfl, rfl⟩ := hat
      rw [put_same, he, Option.some.injEq] at hn
      rw [← hn, Function.update_self]
      rw [hf, Option.some.injEq] at hf'
      rw [hf']
    · rw [put, if_neg hat] at hn
      have hg' := h f' p' i' g' hf' hp' hi' hn
      rw [Function.update_of_ne, hg']
      rintro rfl
      rw [hg] at hg'
      cases hg'

/-- An entry of a table with a full name leads nowhere. -/
lemma Named.put (h : Named node next skip d P) (hf : P f = some p) (hp : p.length = d) :
    Named (put node f i e) next skip d P := by
  intro f' p' i' g' hf' hp' hi' hn
  rw [put_table] at hn
  · exact h f' p' i' g' hf' hp' hi' hn
  · rintro rfl
    rw [hf, Option.some.injEq] at hf'
    subst hf'
    omega

lemma IsTree.link (ht : IsTree node next root d) (hp : p.length < d)
    (hf : walk node next root p = some f) (hnone : next (node f i) = none) (he : next e = some g)
    (hnew : ∀ q, q.length ≤ d → walk node next root q ≠ some g)
    (hempty : p.length + 1 < d → ∀ j, next (node g j) = none) :
    IsTree (put node f i e) next root d := by
  intro q q' h hq hq' h1 h2
  rw [ht.walk_link hp hf hnone he hnew hempty hq] at h1
  rw [ht.walk_link hp hf hnone he hnew hempty hq'] at h2
  by_cases e1 : q = p ++ [i] <;> by_cases e2 : q' = p ++ [i]
  · rw [e1, e2]
  · rw [if_pos e1, Option.some.injEq] at h1
    rw [if_neg e2, ← h1] at h2
    exact absurd h2 (hnew q' hq')
  · rw [if_pos e2, Option.some.injEq] at h2
    rw [if_neg e1, ← h2] at h1
    exact absurd h1 (hnew q hq)
  · rw [if_neg e1] at h1
    rw [if_neg e2] at h2
    exact ht q q' h hq hq' h1 h2

/-- Entries after linking: those of the new table where the path to it is full, the old ones
elsewhere. -/
lemma IsTree.look_link (ht : IsTree node next root d) (hp : p.length < d)
    (hf : walk node next root p = some f) (hnone : next (node f i) = none) (he : next e = some g)
    (hnew : ∀ q, q.length ≤ d → walk node next root q ≠ some g)
    (hempty : p.length + 1 < d → ∀ j, next (node g j) = none) (hq : q.length = d) :
    look (put node f i e) next root q j =
      if q = p ++ [i] then some (node g j) else look node next root q j := by
  have hgf : g ≠ f := fun h => hnew p (by omega) (h ▸ hf)
  rw [look, look, ht.walk_link hp hf hnone he hnew hempty (by omega)]
  by_cases heq : q = p ++ [i]
  · rw [if_pos heq, if_pos heq, Option.map_some, put_table hgf]
  · rw [if_neg heq, if_neg heq]
    cases hw : walk node next root q with
    | none => rfl
    | some h =>
      have hhf : h ≠ f := by
        rintro rfl
        have := ht q p h (by omega) (by omega) hw hf
        rw [this] at hq
        omega
      rw [Option.map_some, Option.map_some, put_table hhf]

end Silkware.Radix
