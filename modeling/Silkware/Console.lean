import Silkware.MemOps
import Silkware.ScreenChoice

/-!
The console on the framebuffer: `putc` of `arch/x86_64/putc.c`, `putchar` and `putpixel` of
`screen.c`.

A character takes 10 pixels of a line and a line takes 17 rows, but a glyph is 16 pixels wide and 16
high. Where the last line ends, the picture is moved up by one line.
-/

namespace Silkware.Console

open Silkware.ByteMem Silkware.MemOps Silkware.ScreenChoice

/-! ### The functions -/

/-- Store a 32-bit word. -/
def wr32 (m : Mem) (a v : ℕ) : Mem := fun x =>
  if a ≤ x ∧ x < a + 4 then byte v (x - a) else m x

def putpixel (screen : Screen) (m : Mem) (x y color : ℕ) : Mem :=
  let b := color &&& 0xFF
  let g := color >>> 8 &&& 0xFF
  let r := color >>> 16 &&& 0xFF
  let fb := (screen.vaddr + x * (screen.bpp / 8) % 2 ^ 32 + y * screen.pitch % 2 ^ 32) % 2 ^ 64
  wr32 m fb (b <<< screen.blueMaskShift ||| g <<< screen.greenMaskShift |||
    r <<< screen.redMaskShift)

/-- What the console does: a pixel drawn, a `memmove`, a `memset` to zero, or a byte sent to the serial
port. -/
inductive Access
  | pixel (x y color : ℕ)
  | move (dst src n : ℕ)
  | clear (dst n : ℕ)
  | serial (c : UInt8)

def perform (screen : Screen) (m : Mem) : Access → Mem
  | .pixel x y color => putpixel screen m x y color
  | .move dst src n => memmove m dst src n
  | .clear dst n => memset m dst 0 n
  | .serial _ => m

/-- `putchar`, for the character with the number `c`. -/
def putchar (font : ℕ → UInt8) (x y c color : ℕ) : List Access :=
  let bit (row j : ℕ) : ℕ := (font (256 + 8 * c * 4 + row)).toNat >>> (7 - j) &&& 1
  (List.range 8).flatMap fun i => (List.range 8).flatMap fun j =>
    [.pixel ((x + j) % 2 ^ 32) ((y + i) % 2 ^ 32) (color * bit i j % 2 ^ 32),
      .pixel ((x + j) % 2 ^ 32) ((y + i + 8) % 2 ^ 32) (color * bit (i + 8) j % 2 ^ 32),
      .pixel ((x + j + 8) % 2 ^ 32) ((y + i) % 2 ^ 32) (color * bit (i + 16) j % 2 ^ 32),
      .pixel ((x + j + 8) % 2 ^ 32) ((y + i + 8) % 2 ^ 32) (color * bit (i + 24) j % 2 ^ 32)]

/-- The static variables of `putc`. -/
structure Cursor where
  x : ℕ
  y : ℕ
  color : ℕ

def start : Cursor := ⟨0, 10, 0xFFFFFF⟩

/-- `COLOR_GREEN` -/
def colorGreen : UInt8 := 0xFD

/-- `COLOR_RED` -/
def colorRed : UInt8 := 0xFE

/-- `COLOR_WHITE` -/
def colorWhite : UInt8 := 0xFF

/-- `'\\n'` -/
def newline : UInt8 := 10

/-- `c == '\n' || x > screen.width` -/
def Breaks (screen : Screen) (s : Cursor) (c : UInt8) : Prop := c = newline ∨ s.x > screen.width

/-- `y + 17 + 10 > screen.height` -/
def Scrolls (screen : Screen) (s : Cursor) : Prop := (s.y + 17 + 10) % 2 ^ 32 > screen.height

/-- `c > 32`, where a `char` has a sign. -/
def Drawn (c : UInt8) : Prop := c.toInt8 > 32

instance (screen : Screen) (s : Cursor) (c : UInt8) : Decidable (Breaks screen s c) :=
  inferInstanceAs (Decidable (_ ∨ _))

instance (screen : Screen) (s : Cursor) : Decidable (Scrolls screen s) :=
  inferInstanceAs (Decidable (_ > _))

instance (c : UInt8) : Decidable (Drawn c) := inferInstanceAs (Decidable (c.toInt8 > 32))

/-- The start of the next line. -/
def breakLine (screen : Screen) (s : Cursor) : Cursor × List Access :=
  if Scrolls screen s then
    ({ s with x := 0 },
      [.move screen.vaddr ((screen.vaddr + screen.pitch * 17 % 2 ^ 32) % 2 ^ 64)
        (screen.pitch * s.y % 2 ^ 32),
      .clear ((screen.vaddr + screen.pitch * s.y % 2 ^ 32) % 2 ^ 64)
        (screen.pitch * ((screen.height + (2 ^ 32 - s.y)) % 2 ^ 32) % 2 ^ 32)])
  else ({ s with x := 0, y := (s.y + 17) % 2 ^ 32 }, [])

def putc (screen : Screen) (font : ℕ → UInt8) (serialOk : Bool) (s : Cursor) (c : UInt8) :
    Cursor × List Access :=
  if c = colorRed then ({ s with color := 0xFF0000 }, [])
  else if c = colorWhite then ({ s with color := 0xFFFFFF }, [])
  else if c = colorGreen then ({ s with color := 0x00FF00 }, [])
  else
    let sent := if serialOk then [Access.serial c] else []
    if screen.vaddr = 0 then (s, sent)
    else
      let r := if Breaks screen s c then breakLine screen s else (s, [])
      let s := { r.1 with x := (r.1.x + 10) % 2 ^ 32 }
      -- a `char` above 32 is its own number
      (s, sent ++ r.2 ++ if Drawn c then putchar font s.x s.y c.toNat s.color else [])

/-- The characters of a text, one after the other. -/
def putcs (screen : Screen) (font : ℕ → UInt8) (serialOk : Bool) (s : Cursor) :
    List UInt8 → Cursor × List Access
  | [] => (s, [])
  | c :: text =>
    let r := putc screen font serialOk s c
    let t := putcs screen font serialOk r.1 text
    (t.1, r.2 ++ t.2)

/-! ### What is inside the framebuffer -/

/-- The framebuffers the console is for. -/
structure Geometry (screen : Screen) : Prop where
  width : 32 ≤ screen.width
  height : 44 ≤ screen.height
  bpp : screen.bpp = 32
  pitch : 4 * screen.width ≤ screen.pitch
  pitch_lt : screen.pitch < 2 ^ 32
  height_lt : screen.height < 2 ^ 32
  top : screen.vaddr + screen.pitch * screen.height < 2 ^ 64

/-- The pixels are on the screen, and the bytes read and written are bytes of the framebuffer. -/
def Safe (screen : Screen) : Access → Prop
  | .pixel x y _ => x < screen.width ∧ y < screen.height
  | .move dst src n => (screen.vaddr ≤ dst ∧ dst + n ≤ screen.vaddr + screen.pitch * screen.height) ∧
      screen.vaddr ≤ src ∧ src + n ≤ screen.vaddr + screen.pitch * screen.height
  | .clear dst n => screen.vaddr ≤ dst ∧ dst + n ≤ screen.vaddr + screen.pitch * screen.height
  | .serial _ => True

/-- `c` is one of the bytes that choose a colour. -/
def IsColor (c : UInt8) : Prop := c = colorRed ∨ c = colorWhite ∨ c = colorGreen

instance (c : UInt8) : Decidable (IsColor c) := inferInstanceAs (Decidable (_ ∨ _))

/-- The line on which `c` is drawn. -/
def lineOf (screen : Screen) (s : Cursor) (c : UInt8) : ℕ :=
  if Breaks screen s c ∧ ¬ Scrolls screen s then (s.y + 17) % 2 ^ 32 else s.y

/-- The glyph of `c` ends before the last column and the last row, and a picture that is moved up has
a whole line left below. -/
structure Fits (screen : Screen) (s : Cursor) (c : UInt8) : Prop where
  column : Drawn c → ¬ Breaks screen s c → s.x + 26 ≤ screen.width
  row : Drawn c → lineOf screen s c + 16 ≤ screen.height
  scroll : ¬ IsColor c → Breaks screen s c → Scrolls screen s → s.y + 17 ≤ screen.height

/-! ### One character -/

section

variable {screen : Screen} {font : ℕ → UInt8} {serialOk : Bool} {s : Cursor} {c : UInt8}

/-- The pixels of a glyph. -/
lemma mem_putchar {x y n color : ℕ} {e : Access} (h : e ∈ putchar font x y n color) :
    ∃ i < 16, ∃ j < 16, ∃ v, e = .pixel ((x + j) % 2 ^ 32) ((y + i) % 2 ^ 32) v := by
  simp only [putchar, List.mem_flatMap, List.mem_range, List.mem_cons, List.not_mem_nil,
    or_false] at h
  obtain ⟨i, hi, j, hj, rfl | rfl | rfl | rfl⟩ := h
  · exact ⟨i, by omega, j, by omega, _, rfl⟩
  · exact ⟨i + 8, by omega, j, by omega, _, rfl⟩
  · exact ⟨i, by omega, j + 8, by omega, _, rfl⟩
  · exact ⟨i + 8, by omega, j + 8, by omega, _, rfl⟩

/-- The last of them. -/
lemma corner_mem_putchar (font : ℕ → UInt8) (x y n color : ℕ) :
    ∃ v, Access.pixel ((x + 15) % 2 ^ 32) ((y + 15) % 2 ^ 32) v ∈ putchar font x y n color := by
  simp only [putchar, List.mem_flatMap, List.mem_range, List.mem_cons]
  exact ⟨_, 7, by omega, 7, by omega, Or.inr (Or.inr (Or.inr (Or.inl rfl)))⟩

lemma Geometry.width_lt (h : Geometry screen) : screen.width < 2 ^ 30 := by
  have h1 := h.pitch
  have h2 := h.pitch_lt
  omega

lemma Geometry.height_small (h : Geometry screen)
    (hs : screen.pitch * (screen.height + 17) < 2 ^ 32) : screen.height + 17 < 2 ^ 32 := by
  have h1 := h.pitch
  have h2 := h.width
  have : 1 * (screen.height + 17) ≤ screen.pitch * (screen.height + 17) :=
    Nat.mul_le_mul_right _ (by omega)
  omega

lemma putchar_safe (hg : Geometry screen) {x y n color : ℕ} (hx : x + 16 ≤ screen.width)
    (hy : y + 16 ≤ screen.height) : ∀ e ∈ putchar font x y n color, Safe screen e := by
  intro e he
  obtain ⟨i, hi, j, hj, v, rfl⟩ := mem_putchar he
  have hw := hg.width_lt
  have hh := hg.height_lt
  rw [Nat.mod_eq_of_lt (by omega), Nat.mod_eq_of_lt (by omega)]
  exact ⟨by omega, by omega⟩

/-- A picture that is moved up by a line it has left below. -/
lemma breakLine_safe (hg : Geometry screen)
    (h : Scrolls screen s → s.y + 17 ≤ screen.height) :
    ∀ e ∈ (breakLine screen s).2, Safe screen e := by
  by_cases hs : Scrolls screen s
  · have hy := h hs
    have htop := hg.top
    have hh := hg.height_lt
    have hp := hg.width_lt
    have hpitch := hg.pitch
    have hwidth := hg.width
    obtain ⟨k, hk⟩ : ∃ k, screen.height = s.y + 17 + k := ⟨screen.height - (s.y + 17), by omega⟩
    have hsub : (screen.height + (2 ^ 32 - s.y)) % 2 ^ 32 = 17 + k := by omega
    have hmul : screen.pitch * screen.height =
        screen.pitch * s.y + screen.pitch * 17 + screen.pitch * k := by
      rw [hk]
      ring
    have hmul' : screen.pitch * (17 + k) = screen.pitch * 17 + screen.pitch * k := by ring
    have h1 := Nat.mod_le (screen.pitch * 17) (2 ^ 32)
    have h2 := Nat.mod_le (screen.pitch * s.y) (2 ^ 32)
    have h3 := Nat.mod_le (screen.pitch * (17 + k)) (2 ^ 32)
    -- a product cut to 32 bits only gets smaller
    simp only [breakLine, if_pos hs, hsub]
    intro e he
    simp only [List.mem_cons, List.not_mem_nil, or_false] at he
    rcases he with rfl | rfl
    · rw [Nat.mod_eq_of_lt (a := screen.vaddr + screen.pitch * 17 % 2 ^ 32) (by omega)]
      exact ⟨⟨le_rfl, by omega⟩, by omega, by omega⟩
    · rw [Nat.mod_eq_of_lt (a := screen.vaddr + screen.pitch * s.y % 2 ^ 32) (by omega)]
      exact ⟨by omega, by omega⟩
  · intro e he
    simp [breakLine, if_neg hs] at he

lemma isColor_not_drawn (h : IsColor c) : ¬ Drawn c := by
  rcases h with rfl | rfl | rfl <;> decide

/-- The bytes that choose a colour do nothing else. -/
lemma putc_color (screen : Screen) (font : ℕ → UInt8) (serialOk : Bool) (s : Cursor)
    (h : IsColor c) : ∃ color, putc screen font serialOk s c = ({ s with color }, []) := by
  rcases h with rfl | rfl | rfl <;> exact ⟨_, rfl⟩

lemma putc_blank (h : ¬ IsColor c) (h0 : screen.vaddr = 0) :
    putc screen font serialOk s c = (s, if serialOk then [Access.serial c] else []) := by
  unfold IsColor at h
  push Not at h
  rw [putc, if_neg h.1, if_neg h.2.1, if_neg h.2.2]
  simp only [if_pos h0]

/-- The cursor when the line has been broken, if it is. -/
def lineStart (screen : Screen) (s : Cursor) (c : UInt8) : Cursor × List Access :=
  if Breaks screen s c then breakLine screen s else (s, [])

lemma putc_char (h : ¬ IsColor c) (h0 : screen.vaddr ≠ 0) :
    putc screen font serialOk s c =
      ({ (lineStart screen s c).1 with x := ((lineStart screen s c).1.x + 10) % 2 ^ 32 },
        (if serialOk then [Access.serial c] else []) ++ (lineStart screen s c).2 ++
          if Drawn c then putchar font (((lineStart screen s c).1.x + 10) % 2 ^ 32)
            (lineStart screen s c).1.y c.toNat (lineStart screen s c).1.color else []) := by
  unfold IsColor at h
  push Not at h
  rw [putc, if_neg h.1, if_neg h.2.1, if_neg h.2.2]
  simp only [if_neg h0]
  rfl

lemma lineStart_x : (lineStart screen s c).1.x = if Breaks screen s c then 0 else s.x := by
  unfold lineStart breakLine
  split
  · split <;> rfl
  · rfl

lemma lineStart_y : (lineStart screen s c).1.y = lineOf screen s c := by
  unfold lineStart breakLine lineOf
  by_cases hb : Breaks screen s c
  · by_cases hs : Scrolls screen s
    · simp [hb, hs]
    · simp [hb, hs]
  · simp [hb]

/-- What a character does where it fits. -/
lemma putc_safe (hg : Geometry screen) (hf : Fits screen s c) :
    ∀ e ∈ (putc screen font serialOk s c).2, Safe screen e := by
  intro e he
  by_cases hc : IsColor c
  · obtain ⟨color, h⟩ := putc_color screen font serialOk s hc
    rw [h] at he
    exact absurd he List.not_mem_nil
  by_cases h0 : screen.vaddr = 0
  · rw [putc_blank hc h0] at he
    split at he
    · rw [List.mem_singleton.mp he]
      trivial
    · exact absurd he List.not_mem_nil
  rw [putc_char hc h0] at he
  rcases List.mem_append.mp he with he | he
  · rcases List.mem_append.mp he with he | he
    · split at he
      · rw [List.mem_singleton.mp he]
        trivial
      · exact absurd he List.not_mem_nil
    · unfold lineStart at he
      split at he
      next hb => exact breakLine_safe hg (hf.scroll hc hb) e he
      next => exact absurd he List.not_mem_nil
  · split at he
    next hd =>
      refine putchar_safe hg ?_ ?_ e he
      · have hw := hg.width_lt
        have hw32 := hg.width
        rw [lineStart_x]
        split
        next => omega
        next hb =>
          have := hf.column hd hb
          omega
      · rw [lineStart_y]
        exact hf.row hd
    next => exact absurd he List.not_mem_nil

/-- The rows of the cursor. -/
def InRows (screen : Screen) (s : Cursor) : Prop := s.y + 10 ≤ screen.height

lemma lineOf_inRows (hg : screen.height + 17 < 2 ^ 32) (h : InRows screen s) :
    lineOf screen s c + 10 ≤ screen.height := by
  unfold InRows at h
  unfold lineOf
  split
  next hb =>
    have hs := hb.2
    unfold Scrolls at hs
    omega
  next => exact h

lemma putc_inRows (hg : screen.height + 17 < 2 ^ 32) (h : InRows screen s) :
    InRows screen (putc screen font serialOk s c).1 := by
  by_cases hc : IsColor c
  · obtain ⟨color, e⟩ := putc_color screen font serialOk s hc
    rw [e]
    exact h
  by_cases h0 : screen.vaddr = 0
  · rw [putc_blank hc h0]
    exact h
  · rw [putc_char hc h0]
    change (lineStart screen s c).1.y + 10 ≤ screen.height
    rw [lineStart_y]
    exact lineOf_inRows hg h

/-- The converse, for a framebuffer of less than 4 GiB. -/
lemma fits_of_safe (hg : Geometry screen) (hsmall : screen.pitch * (screen.height + 17) < 2 ^ 32)
    (h0 : screen.vaddr ≠ 0) (hr : InRows screen s)
    (h : ∀ e ∈ (putc screen font serialOk s c).2, Safe screen e) : Fits screen s c := by
  have hpitch := hg.pitch
  have hwidth := hg.width
  by_cases hc : IsColor c
  · have hd := isColor_not_drawn hc
    exact ⟨fun hd' => absurd hd' hd, fun hd' => absurd hd' hd, fun hc' => absurd hc hc'⟩
  rw [putc_char hc h0] at h
  have hheight := hg.height_small hsmall
  have hline := lineOf_inRows (c := c) hheight hr
  have hdrawn : Drawn c → (((lineStart screen s c).1.x + 10) % 2 ^ 32 + 15) % 2 ^ 32 < screen.width ∧
      (lineOf screen s c + 15) % 2 ^ 32 < screen.height := by
    intro hd
    rw [if_pos hd] at h
    obtain ⟨v, hv⟩ := corner_mem_putchar font (((lineStart screen s c).1.x + 10) % 2 ^ 32)
      (lineStart screen s c).1.y c.toNat (lineStart screen s c).1.color
    rw [← lineStart_y]
    exact h _ (List.mem_append_right _ hv)
  refine ⟨fun hd hb => ?_, fun hd => ?_, fun _ hb hs => ?_⟩
  · have hx := (hdrawn hd).1
    have hw := hg.width_lt
    rw [lineStart_x, if_neg hb] at hx
    unfold Breaks at hb
    omega
  · have hy := (hdrawn hd).2
    omega
  · have hmove := h (.move screen.vaddr ((screen.vaddr + screen.pitch * 17 % 2 ^ 32) % 2 ^ 64)
        (screen.pitch * s.y % 2 ^ 32)) (by simp [lineStart, hb, breakLine, hs])
    obtain ⟨-, -, hsrc⟩ := hmove
    unfold InRows at hr
    have htop := hg.top
    have hheight44 := hg.height
    have h17 : screen.pitch * 17 ≤ screen.pitch * screen.height :=
      Nat.mul_le_mul_left _ (by omega)
    have hy : screen.pitch * s.y ≤ screen.pitch * screen.height :=
      Nat.mul_le_mul_left _ (by omega)
    rw [Nat.mul_add] at hsmall
    rw [Nat.mod_eq_of_lt (a := screen.pitch * 17) (by omega),
      Nat.mod_eq_of_lt (a := screen.pitch * s.y) (by omega), Nat.mod_eq_of_lt (by omega)] at hsrc
    have hmul : screen.pitch * (s.y + 17) ≤ screen.pitch * screen.height := by
      rw [Nat.mul_add]
      omega
    exact Nat.le_of_mul_le_mul_left hmul (by omega)

end

/-! ### A text -/

/-- `P` holds of every character of a text and of the cursor before it. -/
def EachChar (screen : Screen) (font : ℕ → UInt8) (serialOk : Bool) (P : Cursor → UInt8 → Prop)
    (s : Cursor) : List UInt8 → Prop
  | [] => True
  | c :: text => P s c ∧
    EachChar screen font serialOk P (putc screen font serialOk s c).1 text

section

variable {screen : Screen} {font : ℕ → UInt8} {serialOk : Bool}

lemma putcs_safe (hg : Geometry screen) {s : Cursor} {text : List UInt8}
    (h : EachChar screen font serialOk (Fits screen) s text) :
    ∀ e ∈ (putcs screen font serialOk s text).2, Safe screen e := by
  induction text generalizing s with
  | nil => exact fun e he => absurd he List.not_mem_nil
  | cons c text ih =>
    intro e he
    rcases List.mem_append.mp he with he | he
    · exact putc_safe hg h.1 e he
    · exact ih h.2 e he

lemma each_fits_of_safe (font : ℕ → UInt8) (serialOk : Bool) (hg : Geometry screen)
    (hsmall : screen.pitch * (screen.height + 17) < 2 ^ 32) (h0 : screen.vaddr ≠ 0) {s : Cursor}
    (hr : InRows screen s) {text : List UInt8}
    (h : ∀ e ∈ (putcs screen font serialOk s text).2, Safe screen e) :
    EachChar screen font serialOk (Fits screen) s text := by
  induction text generalizing s with
  | nil => trivial
  | cons c text ih =>
    exact ⟨fits_of_safe hg hsmall h0 hr fun e he => h e (List.mem_append_left _ he),
      ih (putc_inRows (hg.height_small hsmall) hr) fun e he => h e (List.mem_append_right _ he)⟩

end

/-- **The console stays inside the framebuffer** while every character fits; and only then, where the
framebuffer has less than 4 GiB. -/
theorem console_safe_iff {screen : Screen} (hg : Geometry screen) (font : ℕ → UInt8)
    (serialOk : Bool) (text : List UInt8) :
    (EachChar screen font serialOk (Fits screen) start text →
      ∀ e ∈ (putcs screen font serialOk start text).2, Safe screen e) ∧
    (screen.pitch * (screen.height + 17) < 2 ^ 32 → screen.vaddr ≠ 0 →
      (∀ e ∈ (putcs screen font serialOk start text).2, Safe screen e) →
      EachChar screen font serialOk (Fits screen) start text) := by
  refine ⟨putcs_safe hg, fun hsmall h0 => each_fits_of_safe font serialOk hg hsmall h0 ?_⟩
  have := hg.height
  change 10 + 10 ≤ screen.height
  omega

/-- A screen of the given size. -/
def screenOf (width height : ℕ) : Screen :=
  { vaddr := 0xFFFF8000FD000000, paddr := 0xFD000000, width, height, pitch := 4 * width, bpp := 32,
    redMaskShift := 16, greenMaskShift := 8, blueMaskShift := 0 }

/-- A font whose glyphs are blank. -/
def blankFont : ℕ → UInt8 := fun _ => 0

theorem console_safe_iff_large :
    (EachChar (screenOf 1024 768) blankFont true (Fits (screenOf 1024 768)) start [72, 105] →
      ∀ e ∈ (putcs (screenOf 1024 768) blankFont true start [72, 105]).2,
        Safe (screenOf 1024 768) e) ∧
    ((screenOf 1024 768).pitch * ((screenOf 1024 768).height + 17) < 2 ^ 32 →
      (screenOf 1024 768).vaddr ≠ 0 →
      (∀ e ∈ (putcs (screenOf 1024 768) blankFont true start [72, 105]).2,
        Safe (screenOf 1024 768) e) →
      EachChar (screenOf 1024 768) blankFont true (Fits (screenOf 1024 768)) start [72, 105]) :=
  console_safe_iff ⟨by decide, by decide, rfl, by decide, by decide, by decide, by decide⟩ blankFont true
    [72, 105]

/-- On a screen 32 pixels wide the second letter of a line is drawn at column 20 and reaches to 35. -/
theorem console_not_safe : ¬ ∀ (screen : Screen) (font : ℕ → UInt8) (serialOk : Bool)
    (text : List UInt8), Geometry screen →
      ∀ e ∈ (putcs screen font serialOk start text).2, Safe screen e := by
  intro h
  have hg : Geometry (screenOf 32 44) :=
    ⟨by decide, by decide, rfl, by decide, by decide, by decide, by decide⟩
  have hfits := each_fits_of_safe blankFont false hg (by decide) (by decide)
    (s := start) (show 10 + 10 ≤ 44 by decide) (h (screenOf 32 44) _ _ [72, 105] hg)
  have hcol : 10 + 26 ≤ 32 := hfits.2.1.column (by decide) (by decide)
  omega

/-! ### The memory outside, and texts that fit -/

section

variable {screen : Screen}

/-- An access inside the framebuffer leaves all other memory alone. -/
lemma perform_out (hg : Geometry screen) {e : Access} (h : Safe screen e) (m : Mem) {a : ℕ}
    (ha : a < screen.vaddr ∨ screen.vaddr + screen.pitch * screen.height ≤ a) :
    perform screen m e a = m a := by
  cases e with
  | pixel x y color =>
    obtain ⟨hx, hy⟩ := h
    have hpitch := hg.pitch
    have htop := hg.top
    have hrow : screen.pitch * (y + 1) ≤ screen.pitch * screen.height := Nat.mul_le_mul_left _ hy
    rw [Nat.mul_add, Nat.mul_one] at hrow
    have h1 := Nat.mod_le (x * 4) (2 ^ 32)
    have h2 := Nat.mod_le (screen.pitch * y) (2 ^ 32)
    have hbpp : screen.bpp / 8 = 4 := by rw [hg.bpp]
    simp only [perform, putpixel, wr32, hbpp, Nat.mul_comm y]
    rw [Nat.mod_eq_of_lt (by omega), if_neg (by omega)]
  | move dst src n =>
    obtain ⟨⟨h1, h2⟩, -⟩ := h
    rw [perform, memmove_eq, if_neg (by omega)]
  | clear dst n =>
    obtain ⟨h1, h2⟩ := h
    rw [perform, memset_eq_fill, fill_out (by omega)]
  | serial c => rfl

/-- **The console writes to the framebuffer only**, while every character fits. -/
theorem console_frame (hg : Geometry screen) (font : ℕ → UInt8) (serialOk : Bool)
    {text : List UInt8} (h : EachChar screen font serialOk (Fits screen) start text) (m : Mem) {a : ℕ}
    (ha : a < screen.vaddr ∨ screen.vaddr + screen.pitch * screen.height ≤ a) :
    (putcs screen font serialOk start text).2.foldl (perform screen) m a = m a := by
  have hsafe := putcs_safe hg h
  generalize (putcs screen font serialOk start text).2 = es at hsafe
  induction es generalizing m with
  | nil => rfl
  | cons e es ih =>
    rw [List.foldl_cons, ih _ fun e' he => hsafe e' (List.mem_cons_of_mem e he)]
    exact perform_out hg (hsafe e List.mem_cons_self) m ha

/-! ### Texts with short lines -/

/-- The column after a character: a new line begins in column 1. -/
def columnAfter (col : ℕ) (c : UInt8) : ℕ :=
  if IsColor c then col else if c = newline then 1 else col + 1

/-- No line of the text comes so far that a glyph would not fit. -/
def ShortLines (screen : Screen) (col : ℕ) : List UInt8 → Prop
  | [] => True
  | c :: text => 10 * columnAfter col c + 16 ≤ screen.width ∧
    ShortLines screen (columnAfter col c) text

/-- A line is 17 rows high. -/
structure OnGrid (screen : Screen) (col : ℕ) (s : Cursor) : Prop where
  x : s.x = 10 * col
  left : s.x ≤ screen.width
  y : s.y % 17 = 10
  rows : InRows screen s

lemma OnGrid.lineOf {col : ℕ} {s : Cursor} (h : OnGrid screen col s)
    (hh : screen.height + 17 < 2 ^ 32) (c : UInt8) : lineOf screen s c % 17 = 10 := by
  have hy := h.y
  have hr := h.rows
  unfold InRows at hr
  unfold Console.lineOf
  split
  next =>
    have hlt : s.y + 17 < 2 ^ 32 := by omega
    rw [Nat.mod_eq_of_lt hlt]
    omega
  next => exact hy

/-- On a screen whose height leaves 7 rows below the last line every row is drawn and moved up
correctly. -/
lemma OnGrid.fits {col : ℕ} {s : Cursor} {c : UInt8} (h : OnGrid screen col s)
    (hh : screen.height + 17 < 2 ^ 32) (h7 : 7 ≤ (screen.height - 20) % 17)
    (hc : 10 * columnAfter col c + 16 ≤ screen.width) : Fits screen s c := by
  have hline := h.lineOf hh c
  have hin := lineOf_inRows (c := c) hh h.rows
  have hy := h.y
  have hr := h.rows
  unfold InRows at hr
  refine ⟨fun hd hb => ?_, fun _ => by omega, fun _ _ hs => by omega⟩
  have hcol : columnAfter col c = col + 1 := by
    rw [columnAfter, if_neg fun hc => isColor_not_drawn hc hd, if_neg]
    rintro rfl
    exact hb (Or.inl rfl)
  have hx := h.x
  omega

lemma OnGrid.next {col : ℕ} {s : Cursor} {c : UInt8} {font : ℕ → UInt8} {serialOk : Bool}
    (h : OnGrid screen col s) (hg : Geometry screen) (hh : screen.height + 17 < 2 ^ 32)
    (h0 : screen.vaddr ≠ 0) (hc : 10 * columnAfter col c + 16 ≤ screen.width) :
    OnGrid screen (columnAfter col c) (putc screen font serialOk s c).1 := by
  have hrows : InRows screen (putc screen font serialOk s c).1 := putc_inRows hh h.rows
  by_cases hcol : IsColor c
  · obtain ⟨color, e⟩ := putc_color screen font serialOk s hcol
    rw [columnAfter, if_pos hcol, e]
    exact ⟨h.x, h.left, h.y, h.rows⟩
  have hline := h.lineOf hh c
  have hw := hg.width_lt
  have hx := h.x
  have hleft := h.left
  rw [putc_char hcol h0] at hrows ⊢
  rw [columnAfter, if_neg hcol] at hc ⊢
  have hx' : ((lineStart screen s c).1.x + 10) % 2 ^ 32 =
      10 * if c = newline then 1 else col + 1 := by
    rw [lineStart_x]
    by_cases hn : c = newline
    · rw [if_pos (show Breaks screen s c from Or.inl hn), if_pos hn]
      rfl
    · have hb : ¬ Breaks screen s c := by
        rintro (hb | hb)
        · exact hn hb
        · omega
      rw [if_neg hb, if_neg hn]
      omega
  refine ⟨hx', ?_, ?_, hrows⟩
  · change ((lineStart screen s c).1.x + 10) % 2 ^ 32 ≤ screen.width
    omega
  · change (lineStart screen s c).1.y % 17 = 10
    rw [lineStart_y]
    exact hline

/-- **Short lines on a suitable screen** are drawn without leaving it, however many there are. -/
theorem short_lines_safe (hg : Geometry screen) (hh : screen.height + 17 < 2 ^ 32)
    (h0 : screen.vaddr ≠ 0) (h7 : 7 ≤ (screen.height - 20) % 17) (font : ℕ → UInt8)
    (serialOk : Bool) {text : List UInt8} (h : ShortLines screen 0 text) :
    ∀ e ∈ (putcs screen font serialOk start text).2, Safe screen e := by
  refine putcs_safe hg ?_
  have hstart : OnGrid screen 0 start :=
    ⟨rfl, Nat.zero_le _, rfl, by have := hg.height; change 10 + 10 ≤ screen.height; omega⟩
  revert h hstart
  generalize start = s, 0 = col
  intro h hs
  induction text generalizing s col with
  | nil => trivial
  | cons c text ih => exact ⟨hs.fits hh h7 h.1, ih _ _ h.2 (hs.next hg hh h0 h.1)⟩

end

end Silkware.Console
