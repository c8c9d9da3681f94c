import Mathlib.Data.List.Induction
import Mathlib.Data.Prod.Lex
import Mathlib.Tactic.NormNum
import Silkware.Kern

/-!
`init_fb` of `arch/x86_64/screen.c`: which framebuffer becomes the screen.

The loop keeps the widest framebuffer so far. One of the same width takes its place if its
height is larger than that width.
-/

namespace Silkware.ScreenChoice

open Silkware.Kern

/-- `struct limine_framebuffer`, the fields that are read. -/
structure Framebuffer where
  address : ℕ
  width : ℕ
  height : ℕ
  pitch : ℕ
  bpp : ℕ
  redMaskShift : ℕ
  greenMaskShift : ℕ
  blueMaskShift : ℕ
  deriving DecidableEq

/-- `struct framebuffer`, the type of `screen`. -/
structure Screen where
  vaddr : ℕ
  paddr : ℕ
  width : ℕ
  height : ℕ
  pitch : ℕ
  bpp : ℕ
  redMaskShift : ℕ
  greenMaskShift : ℕ
  blueMaskShift : ℕ
  deriving DecidableEq

/-- One round of the loop: `fb` after the framebuffer `f`. -/
def pick (fb : Option Framebuffer) (f : Framebuffer) : Option Framebuffer :=
  match fb with
  | none => some f
  | some b =>
    if f.width > b.width ∨ (f.width = b.width ∧ f.height > b.width) then some f else some b

/-- How often the loop runs: the count is cast to an `int`. -/
def rounds (count : ℕ) : ℕ := ((count : ℤ).bmod (2 ^ 32)).toNat

/-- The loop of `init_fb` over the framebuffers of the response. -/
def selectFb (fbs : List Framebuffer) : Option Framebuffer :=
  (fbs.take (rounds fbs.length)).foldl pick none

/-- `init_fb`. It reads through `fb` without asking whether the loop has set it. -/
def initFb (highAddr : ℕ) (response : Option (List Framebuffer)) : Except Stop Screen :=
  match response with
  | none => throw .panic
  | some fbs =>
    if fbs.length = 0 then throw .panic
    else match selectFb fbs with
      | none => throw .fault
      | some fb => return {
          vaddr := fb.address
          paddr := sub64 fb.address highAddr
          width := fb.width % 2 ^ 32
          height := fb.height % 2 ^ 32
          pitch := fb.pitch % 2 ^ 32
          bpp := fb.bpp
          redMaskShift := fb.redMaskShift
          greenMaskShift := fb.greenMaskShift
          blueMaskShift := fb.blueMaskShift }

/-! ### Which framebuffer the loop keeps -/

/-- Both keys of the choice. -/
def Framebuffer.key (f : Framebuffer) : ℕ ×ₗ ℕ := toLex (f.width, f.height)

/-- `fb` is one of `fbs`, and none of them is larger. -/
def Largest (fbs : List Framebuffer) (fb : Framebuffer) : Prop :=
  fb ∈ fbs ∧ ∀ g ∈ fbs, g.key ≤ fb.key

/-- Nothing before `fb` keeps it out. -/
def Enters (pre : List Framebuffer) (fb : Framebuffer) : Prop :=
  (∀ g ∈ pre, g.width ≤ fb.width) ∧ ((∀ g ∈ pre, g.width < fb.width) ∨ fb.width < fb.height)

/-- Nothing after `fb` takes its place. -/
def Stays (fb : Framebuffer) (post : List Framebuffer) : Prop :=
  ∀ g ∈ post, g.width ≤ fb.width ∧ (g.width = fb.width → g.height ≤ fb.width)

lemma key_le_iff {f g : Framebuffer} :
    f.key ≤ g.key ↔ f.width < g.width ∨ f.width = g.width ∧ f.height ≤ g.height :=
  Prod.Lex.toLex_le_toLex

lemma pick_some_eq_new {b f : Framebuffer} (h : b.width < f.width ∨
    b.width = f.width ∧ f.width < f.height) : pick (some b) f = some f := by
  rw [pick, if_pos]
  omega

lemma pick_some_eq_old {b f : Framebuffer} (h : f.width ≤ b.width)
    (h' : f.width = b.width → f.height ≤ b.width) : pick (some b) f = some b := by
  rw [pick, if_neg]
  omega

lemma foldl_pick_of_stays {fb : Framebuffer} {post : List Framebuffer} (h : Stays fb post) :
    post.foldl pick (some fb) = some fb := by
  induction post with
  | nil => rfl
  | cons f post ih =>
    have hf := h f List.mem_cons_self
    rw [List.foldl_cons, pick_some_eq_old hf.1 hf.2]
    exact ih fun g hg => h g (List.mem_cons_of_mem f hg)

lemma pick_ne_none (b : Option Framebuffer) (f : Framebuffer) : pick b f ≠ none := by
  cases b with
  | none => exact Option.some_ne_none f
  | some b =>
    rw [pick]
    split <;> exact Option.some_ne_none _

lemma eq_nil_of_foldl_pick {l : List Framebuffer} (h : l.foldl pick none = none) : l = [] := by
  cases l using List.reverseRecOn with
  | nil => rfl
  | append_singleton l f =>
    rw [List.foldl_append, List.foldl_cons, List.foldl_nil] at h
    exact absurd h (pick_ne_none _ f)

/-- Where the framebuffer kept stands. The induction follows the rounds of the loop. -/
lemma split_of_foldl_pick {l : List Framebuffer} {fb : Framebuffer}
    (h : l.foldl pick none = some fb) :
    ∃ pre post, l = pre ++ fb :: post ∧ Enters pre fb ∧ Stays fb post := by
  induction l using List.reverseRecOn generalizing fb with
  | nil => cases h
  | append_singleton l f ih =>
    rw [List.foldl_append, List.foldl_cons, List.foldl_nil] at h
    cases hc : l.foldl pick none with
    | none =>
      rw [hc, pick, Option.some_inj] at h
      rw [eq_nil_of_foldl_pick hc, h]
      exact ⟨[], [], rfl, ⟨fun _ => nofun, Or.inl fun _ => nofun⟩, fun _ => nofun⟩
    | some c =>
      obtain ⟨pre, post, rfl, hpre, hpost⟩ := ih hc
      rw [hc, pick] at h
      split at h
      next hnew =>
        -- `f` takes the place of `c`, the widest so far
        obtain rfl := Option.some_inj.mp h
        have hle : ∀ g ∈ pre ++ c :: post, g.width ≤ c.width := by
          intro g hg
          rcases List.mem_append.mp hg with hg | hg
          · exact hpre.1 g hg
          · rcases List.mem_cons.mp hg with rfl | hg
            · exact le_rfl
            · exact (hpost g hg).1
        refine ⟨pre ++ c :: post, [], rfl, ⟨fun g hg => ?_, ?_⟩, fun _ => nofun⟩
        · have := hle g hg
          omega
        · rcases hnew with hlt | ⟨heq, hh⟩
          · exact Or.inl fun g hg => lt_of_le_of_lt (hle g hg) hlt
          · exact Or.inr (by omega)
      next hold =>
        obtain rfl := Option.some_inj.mp h
        refine ⟨pre, post ++ [f], by simp, hpre, fun g hg => ?_⟩
        rcases List.mem_append.mp hg with hg | hg
        · exact hpost g hg
        · obtain rfl := List.mem_singleton.mp hg
          constructor <;> omega

lemma mem_of_foldl_pick {l : List Framebuffer} {fb : Framebuffer}
    (h : l.foldl pick none = some fb) : fb ∈ l := by
  obtain ⟨pre, post, rfl, -, -⟩ := split_of_foldl_pick h
  exact List.mem_append_right pre List.mem_cons_self

/-- What the loop keeps, told by what comes before it and after it. -/
lemma foldl_pick_iff {l : List Framebuffer} {fb : Framebuffer} :
    l.foldl pick none = some fb ↔
      ∃ pre post, l = pre ++ fb :: post ∧ Enters pre fb ∧ Stays fb post := by
  refine ⟨split_of_foldl_pick, ?_⟩
  rintro ⟨pre, post, rfl, hpre, hpost⟩
  rw [List.foldl_append, List.foldl_cons]
  have h : pick (pre.foldl pick none) fb = some fb := by
    cases hb : pre.foldl pick none with
    | none => rfl
    | some b =>
      have hmem := mem_of_foldl_pick hb
      have hle := hpre.1 b hmem
      refine pick_some_eq_new ?_
      rcases hpre.2 with h1 | h1
      · exact Or.inl (h1 b hmem)
      · omega
  rw [h, foldl_pick_of_stays hpost]

lemma selectFb_eq_none_iff {fbs : List Framebuffer} :
    selectFb fbs = none ↔ rounds fbs.length = 0 := by
  constructor
  · intro h
    rcases List.take_eq_nil_iff.mp (eq_nil_of_foldl_pick h) with h0 | rfl
    · exact h0
    · rfl
  · intro h
    rw [selectFb, h]
    rfl

/-- **`init_fb` returns** just when the count is positive as an `int`. -/
theorem initFb_returns_iff (highAddr : ℕ) (fbs : List Framebuffer) :
    (∃ screen, initFb highAddr (some fbs) = .ok screen) ↔ 0 < rounds fbs.length := by
  rw [Nat.pos_iff_ne_zero, ne_eq, ← selectFb_eq_none_iff]
  unfold initFb
  by_cases h0 : fbs.length = 0
  · obtain rfl := List.length_eq_zero_iff.mp h0
    exact ⟨fun ⟨_, h⟩ => (nomatch h), fun h => absurd rfl h⟩
  · simp only [if_neg h0]
    cases selectFb fbs with
    | none => exact ⟨fun ⟨_, h⟩ => (nomatch h), fun h => absurd rfl h⟩
    | some fb => exact ⟨fun _ => Option.some_ne_none fb, fun _ => ⟨_, rfl⟩⟩

/-- **The choice of `init_fb`** is a largest framebuffer just when one of the largest is the
first of its width or is taller than wide, and none of the same width after it is taller than
wide. Only as many framebuffers count as the loop has rounds. -/
theorem selectFb_largest_iff (fbs : List Framebuffer) :
    (∃ fb, selectFb fbs = some fb ∧ Largest fbs fb) ↔
      ∃ pre fb post, fbs.take (rounds fbs.length) = pre ++ fb :: post ∧ Largest fbs fb ∧
        ((∀ g ∈ pre, g.width ≠ fb.width) ∨ fb.width < fb.height) ∧
        ∀ g ∈ post, g.width = fb.width → g.height ≤ fb.width := by
  constructor
  · rintro ⟨fb, hsel, hmax⟩
    obtain ⟨pre, post, hsplit, hpre, hpost⟩ := split_of_foldl_pick hsel
    refine ⟨pre, fb, post, hsplit, hmax, ?_, fun g hg => (hpost g hg).2⟩
    exact hpre.2.imp_left fun h g hg => (h g hg).ne
  · rintro ⟨pre, fb, post, hsplit, hmax, hpre, hpost⟩
    have hle : ∀ g ∈ pre ++ fb :: post, g.width ≤ fb.width := by
      intro g hg
      have := key_le_iff.mp (hmax.2 g (List.mem_of_mem_take (hsplit ▸ hg)))
      omega
    refine ⟨fb, foldl_pick_iff.mpr ⟨pre, post, hsplit, ⟨?_, ?_⟩, ?_⟩, hmax⟩
    · exact fun g hg => hle g (List.mem_append_left _ hg)
    · refine hpre.imp_left fun h g hg => ?_
      exact lt_of_le_of_ne (hle g (List.mem_append_left _ hg)) (h g hg)
    · intro g hg
      exact ⟨hle g (List.mem_append_right _ (List.mem_cons_of_mem _ hg)), hpost g hg⟩

/-- A mode of the given size. -/
def mode (width height : ℕ) : Framebuffer := ⟨0xFD000000, width, height, 4 * width, 32, 16, 8, 0⟩

/-- Of 1024×600 and 1024×768 the first is kept: 768 is compared with the width. -/
theorem selectFb_not_largest :
    ¬ ∀ fbs : List Framebuffer, fbs ≠ [] → ∃ fb, selectFb fbs = some fb ∧ Largest fbs fb := by
  intro h
  obtain ⟨fb, hsel, -, hmax⟩ := h [mode 1024 600, mode 1024 768] (by simp)
  have hfb : fb = mode 1024 600 := Option.some_inj.mp (hsel.symm.trans (by decide))
  have hle := key_le_iff.mp (hmax (mode 1024 768) (by simp))
  rw [hfb] at hle
  exact absurd hle (by decide)

lemma rounds_eq {count : ℕ} (h : count < 2 ^ 31) : rounds count = count := by
  have h1 : (count : ℤ).bmod (2 ^ 32) = count :=
    Int.bmod_eq_of_le (by norm_num) (by norm_num; omega)
  exact congrArg Int.toNat h1

/-- **Framebuffers of different widths** are chosen from correctly. -/
theorem selectFb_largest_of_widths {fbs : List Framebuffer} (hne : fbs ≠ [])
    (hlen : fbs.length < 2 ^ 31) (hw : fbs.Pairwise fun f g => f.width ≠ g.width) :
    ∃ fb, selectFb fbs = some fb ∧ Largest fbs fb := by
  have hsel : selectFb fbs = fbs.foldl pick none := by
    rw [selectFb, rounds_eq hlen, List.take_length]
  cases hfb : fbs.foldl pick none with
  | none => exact absurd (eq_nil_of_foldl_pick hfb) hne
  | some fb =>
    obtain ⟨pre, post, rfl, hpre, hpost⟩ := split_of_foldl_pick hfb
    obtain ⟨-, hpw, hcross⟩ := List.pairwise_append.mp hw
    refine ⟨fb, hsel.trans hfb, mem_of_foldl_pick hfb, fun g hg => key_le_iff.mpr ?_⟩
    rcases List.mem_append.mp hg with hg | hg
    · exact Or.inl (lt_of_le_of_ne (hpre.1 g hg) (hcross g hg fb List.mem_cons_self))
    · rcases List.mem_cons.mp hg with rfl | hg
      · exact Or.inr ⟨rfl, le_rfl⟩
      · have hne' := (List.pairwise_cons.mp hpw).1 g hg
        exact Or.inl (lt_of_le_of_ne (hpost g hg).1 hne'.symm)

end Silkware.ScreenChoice
