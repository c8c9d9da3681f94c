import Mathlib.Data.Nat.Digits.Lemmas
import Mathlib.Tactic.Common

/-!
Numbers as text.

The digits of a number come last first, and zero has one digit. A numeral is read by skipping
spaces, taking a sign, and reading digits as long as there are any.
-/

namespace Silkware.Numerals

/-- The digits of a number, last first; zero has one. -/
def digits (b n : ℕ) : List ℕ := if n = 0 then [0] else Nat.digits b n

variable {b n d : ℕ}

lemma digits_ne_nil : digits b n ≠ [] := by
  unfold digits
  split_ifs with h
  · simp
  · exact Nat.digits_ne_nil_iff_ne_zero.mpr h

lemma digits_eq_cons (hb : 1 < b) (n : ℕ) :
    digits b n = n % b :: if n / b = 0 then [] else digits b (n / b) := by
  by_cases h : n = 0
  · simp [digits, h]
  · rw [digits, if_neg h, Nat.digits_of_two_le_of_pos hb (Nat.pos_of_ne_zero h)]
    split_ifs with h'
    · rw [h', Nat.digits_zero]
    · rw [digits, if_neg h']

lemma lt_of_mem_digits (hb : 1 < b) (h : d ∈ digits b n) : d < b := by
  unfold digits at h
  split_ifs at h
  · obtain rfl := List.mem_singleton.mp h
    omega
  · exact Nat.digits_lt_base hb h

lemma ofDigits_digits (b n : ℕ) : Nat.ofDigits b (digits b n) = n := by
  unfold digits
  split_ifs with h
  · simp [h]
  · exact Nat.ofDigits_digits b n

lemma length_digits_le {k : ℕ} (hb : 1 < b) (hk : 0 < k) (h : n < b ^ k) :
    (digits b n).length ≤ k := by
  unfold digits
  split_ifs
  · exact hk
  · exact (Nat.digits_length_le_iff hb n).mpr h

/-- The first digit of a number that is not zero is not zero. -/
lemma getLast?_digits (h : n ≠ 0) : (digits b n).getLast? ≠ some 0 := by
  intro h0
  rw [digits, if_neg h, List.getLast?_eq_getLast_of_ne_nil (Nat.digits_ne_nil_iff_ne_zero.mpr h)] at h0
  exact Nat.getLast_digit_ne_zero b h (Option.some.inj h0)

/-! ### Characters -/

/-- A digit; from ten on a letter, `a` is the code of the first. -/
def digitChar (a d : ℕ) : Char := Char.ofNat (if d < 10 then 48 + d else a + (d - 10))

/-- The value of a digit or a letter. -/
def digitVal (c : Char) : ℕ :=
  if c.toNat < 58 then c.toNat - 48 else if c.toNat < 97 then c.toNat - 55 else c.toNat - 87

/-- Upper-case or lower-case letters. -/
def Letter (a : ℕ) : Prop := a = 65 ∨ a = 97

variable {a : ℕ}

/-- The characters that are digits in a base. -/
def isDigit (b : ℕ) (c : Char) : Bool :=
  (c.isDigit || c.isUpper || c.isLower) && digitVal c < b

lemma digitVal_digitChar (ha : Letter a) (h : d < 16) : digitVal (digitChar a d) = d := by
  rcases ha with rfl | rfl <;> interval_cases d <;> rfl

lemma isDigit_digitChar (ha : Letter a) (hb : b ≤ 16) (h : d < b) : isDigit b (digitChar a d) = true := by
  have hc : (digitChar a d).isDigit || (digitChar a d).isUpper || (digitChar a d).isLower := by
    rcases ha with rfl | rfl <;> (have : d < 16 := by omega) <;> interval_cases d <;> rfl
  rw [isDigit, digitVal_digitChar ha (by omega), hc]
  simpa using h

/-! ### Reading -/

def sign : List Char → Bool × List Char
  | '-' :: s => (true, s)
  | '+' :: s => (false, s)
  | s => (false, s)

/-- A prefix that goes with base 16. -/
def dropBase (b : ℕ) : List Char → List Char
  | '0' :: c :: s => if b = 16 ∧ (c = 'x' ∨ c = 'X') then s else '0' :: c :: s
  | s => s

/-- Read a number. -/
def scan (b : ℕ) (s : List Char) : ℤ :=
  let r := sign (s.dropWhile (· = ' '))
  let ds := (dropBase b r.2).takeWhile (isDigit b)
  let m : ℤ := (Nat.ofDigits b (ds.reverse.map digitVal) : ℕ)
  if r.1 then -m else m

/-- The sign as it is written: none, plus or minus. -/
def signText : Option Bool → List Char
  | none => []
  | some false => ['+']
  | some true => ['-']

variable {ds : List ℕ} {s : List Char}

lemma dropWhile_spaces (k : ℕ) (s : List Char) :
    (List.replicate k ' ' ++ s).dropWhile (· = ' ') = s.dropWhile (· = ' ') := by
  induction k with
  | zero => rfl
  | succ k ih => rw [List.replicate_succ, List.cons_append, List.dropWhile_cons_of_pos (by decide), ih]

lemma takeWhile_digits (ha : Letter a) (hb : b ≤ 16) (h : ∀ d ∈ ds, d < b) (j : ℕ) :
    (ds.map (digitChar a) ++ List.replicate j ' ').takeWhile (isDigit b) = ds.map (digitChar a) := by
  induction ds with
  | nil =>
    cases j with
    | zero => rfl
    | succ j => rfl
  | cons d ds ih =>
    rw [List.map_cons, List.cons_append,
      List.takeWhile_cons_of_pos (isDigit_digitChar ha hb (h d (by simp))),
      ih fun e he => h e (by simp [he])]

lemma map_digitVal (ha : Letter a) (hb : b ≤ 16) (h : ∀ d ∈ ds, d < b) :
    (ds.map (digitChar a)).map digitVal = ds := by
  rw [List.map_map]
  refine (List.map_congr_left fun d hd => ?_).trans (List.map_id ds)
  exact digitVal_digitChar ha ((h d hd).trans_le hb)

/-- A digit is none of the characters that `scan` looks for. -/
lemma digitChar_ne (ha : Letter a) (h : d < 16) : digitChar a d ≠ ' ' ∧ digitChar a d ≠ '-' ∧
    digitChar a d ≠ '+' ∧ digitChar a d ≠ 'x' ∧ digitChar a d ≠ 'X' := by
  rcases ha with rfl | rfl <;> interval_cases d <;> decide

lemma dropBase_digits (ha : Letter a) (hb : b ≤ 16) (h : ∀ d ∈ ds, d < b) (j : ℕ) :
    dropBase b (ds.map (digitChar a) ++ List.replicate j ' ') =
      ds.map (digitChar a) ++ List.replicate j ' ' := by
  unfold dropBase
  split
  · rename_i c s he
    rw [if_neg]
    · exact he.symm
    · rintro ⟨-, hc⟩
      rcases ds with _ | ⟨d, _ | ⟨e, ds⟩⟩
      · cases j <;> simp [List.replicate_succ] at he
      · cases j with
        | zero => simp at he
        | succ j =>
          simp only [List.map_cons, List.map_nil, List.cons_append, List.nil_append,
            List.replicate_succ, List.cons.injEq] at he
          obtain ⟨-, rfl, -⟩ := he
          exact absurd hc (by decide)
      · have hne := digitChar_ne (d := e) ha ((h e (by simp)).trans_le hb)
        simp only [List.map_cons, List.cons_append, List.cons.injEq] at he
        obtain ⟨-, rfl, -⟩ := he
        exact hc.elim hne.2.2.2.1 hne.2.2.2.2
  · rfl

lemma sign_cons {c : Char} (h : c ≠ '-') (h' : c ≠ '+') : sign (c :: s) = (false, c :: s) := by
  unfold sign
  split
  · exact absurd (by simp_all) h
  · exact absurd (by simp_all) h'
  · rfl

lemma scan_spaces (b k : ℕ) (s : List Char) : scan b (List.replicate k ' ' ++ s) = scan b s := by
  rw [scan, dropWhile_spaces]
  rfl

lemma scan_minus (b : ℕ) (s : List Char) : scan b ('-' :: s) = -(Nat.ofDigits b
    (((dropBase b s).takeWhile (isDigit b)).reverse.map digitVal) : ℕ) := rfl

lemma scan_plus (b : ℕ) (s : List Char) : scan b ('+' :: s) = (Nat.ofDigits b
    (((dropBase b s).takeWhile (isDigit b)).reverse.map digitVal) : ℕ) := rfl

lemma scan_cons {c : Char} (b : ℕ) (s : List Char) (h : c ≠ ' ') (h1 : c ≠ '-') (h2 : c ≠ '+') :
    scan b (c :: s) = (Nat.ofDigits b
      (((dropBase b (c :: s)).takeWhile (isDigit b)).reverse.map digitVal) : ℕ) := by
  rw [scan, List.dropWhile_cons_of_neg (by simpa using h), sign_cons h1 h2]
  rfl

/-- **Reading back**: spaces, a sign, a prefix, the digits and more spaces. -/
lemma scan_text (ha : Letter a) (hb : b ≤ 16) (h : ∀ d ∈ ds, d < b) (k j : ℕ) (g : Option Bool)
    {pre : List Char} (hp : pre = [] ∨ b = 16 ∧ (pre = ['0', 'x'] ∨ pre = ['0', 'X'])) :
    scan b (List.replicate k ' ' ++ (signText g ++ (pre ++ (ds.reverse.map (digitChar a) ++
      List.replicate j ' ')))) =
    (if g = some true then -1 else 1) * (Nat.ofDigits b ds : ℕ) := by
  have hrev : ∀ d ∈ ds.reverse, d < b := fun d hd => h d (List.mem_reverse.mp hd)
  set t := ds.reverse.map (digitChar a) ++ List.replicate j ' ' with ht
  have htake : (t.takeWhile (isDigit b)).reverse.map digitVal = ds := by
    rw [ht, takeWhile_digits ha hb hrev, ← List.map_reverse, List.reverse_reverse, map_digitVal ha hb h]
  have hun : dropBase b (pre ++ t) = t := by
    rcases hp with rfl | ⟨rfl, rfl | rfl⟩
    · exact dropBase_digits ha hb hrev j
    · simp [dropBase]
    · simp [dropBase]
  rw [scan_spaces]
  rcases g with _ | _ | _
  · rw [signText, List.nil_append, if_neg (by decide), one_mul]
    rcases hp with rfl | ⟨rfl, rfl | rfl⟩
    · rcases hd : ds.reverse with _ | ⟨d, es⟩
      · rw [List.reverse_eq_nil_iff.mp hd, ht, hd]
        have h0 : scan b (List.replicate j ' ' ++ []) = 0 := by
          simp [scan, sign, dropBase]
        simpa using h0
      · have hne := digitChar_ne ha ((hrev d (by simp [hd])).trans_le hb)
        rw [List.nil_append] at hun ⊢
        rw [ht, hd] at hun htake ⊢
        rw [List.map_cons, List.cons_append] at hun htake ⊢
        rw [scan_cons _ _ hne.1 hne.2.1 hne.2.2.1, hun, htake]
    · rw [List.cons_append, scan_cons _ _ (by decide) (by decide) (by decide), ← List.cons_append, hun, htake]
    · rw [List.cons_append, scan_cons _ _ (by decide) (by decide) (by decide), ← List.cons_append, hun, htake]
  · rw [signText, List.singleton_append, scan_plus, hun, htake, if_neg (by decide), one_mul]
  · rw [signText, List.singleton_append, scan_minus, hun, htake, if_pos rfl, neg_one_mul]

end Silkware.Numerals
