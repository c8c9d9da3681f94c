import Mathlib.Order.Bounds.Basic
import Mathlib.Tactic.Linarith
import Mathlib.Tactic.Ring
import Silkware.Kern

/-!
The timer of `hpet.c`, and its callers in `laihost.c`.

The main counter goes up by one every `clk` femtoseconds. `timer_sleep_ms` converts milliseconds to
ticks with `clk`; `timer_count_ms` converts ticks to milliseconds without it.
-/

namespace Silkware.Hpet

open Silkware.Kern

/-- The statics `clk`, in femtoseconds, and `hpet_ready`. -/
structure State where
  clk : ℕ
  ready : Bool

/-- `hpet_init`, where `found` is the table's address and `cap` the capabilities register. -/
def hpetInit (found cap : ℕ) : Except Stop State :=
  if found = 0 then .error .panic else .ok ⟨cap / 2 ^ 32 % 2 ^ 32, true⟩

/-- `read_hpet`, where `mainCtr` is what the register holds at the read. -/
def readHpet (h : State) (mainCtr : ℕ) : Except Stop ℕ :=
  if h.ready then .ok mainCtr else .error .panic

/-- The loop of `timer_sleep_us`. Read number `i` of the counter gives `ctr i`; the result is the
value at which the loop ends. -/
def sleepLoop (h : State) (ctr : ℕ → ℕ) (stop : ℕ) : ℕ → ℕ → Except Stop ℕ
  | 0, _ => .error .hang
  | fuel + 1, i => do
    let cur ← readHpet h (ctr i)
    if cur < stop then sleepLoop h ctr stop fuel (i + 1) else return cur

def timerSleepUs (h : State) (ctr : ℕ → ℕ) (fuel us : ℕ) : Except Stop ℕ := do
  let cur ← readHpet h (ctr 0)
  if h.clk = 0 then throw .fault
  sleepLoop h ctr ((cur + us * 1000000000 % 2 ^ 64 / h.clk) % 2 ^ 64) fuel 1

def timerSleepMs (h : State) (ctr : ℕ → ℕ) (fuel ms : ℕ) : Except Stop ℕ :=
  timerSleepUs h ctr fuel (ms * 1000 % 2 ^ 64)

def timerCountMs (h : State) (mainCtr : ℕ) : Except Stop ℕ := do
  return (← readHpet h mainCtr) / 1000

def laihostSleep (h : State) (ctr : ℕ → ℕ) (fuel ms : ℕ) : Except Stop ℕ :=
  timerSleepMs h ctr fuel ms

def laihostTimer (h : State) (mainCtr : ℕ) : Except Stop ℕ := timerCountMs h mainCtr

/-- The reads see every value the 64-bit counter takes. -/
def Ticks (ctr : ℕ → ℕ) : Prop := ∀ i, ctr (i + 1) = ctr i ∨ ctr (i + 1) = (ctr i + 1) % 2 ^ 64

/-- While the counter goes from `c` to `v`, `timer_count_ms` grows by `ms`, up to one. -/
def CountGrows (h : State) (c v ms : ℕ) : Prop :=
  ∃ a b, timerCountMs h c = .ok a ∧ timerCountMs h v = .ok b ∧ a + ms ≤ b + 1 ∧ b ≤ a + ms + 1

/-! ### What the functions compute -/

lemma hpetInit_ready {found cap : ℕ} {h : State} (hi : hpetInit found cap = .ok h) :
    h.ready = true := by
  unfold hpetInit at hi
  split at hi
  · cases hi
  · cases hi
    rfl

variable {h : State} {ctr : ℕ → ℕ}

lemma readHpet_ready (hr : h.ready = true) (x : ℕ) : readHpet h x = .ok x := if_pos hr

lemma sleepLoop_succ (hr : h.ready = true) (ctr : ℕ → ℕ) (stop fuel i : ℕ) :
    sleepLoop h ctr stop (fuel + 1) i =
      if ctr i < stop then sleepLoop h ctr stop fuel (i + 1) else .ok (ctr i) := by
  rw [sleepLoop, readHpet_ready hr]
  rfl

lemma timerSleepUs_eq (hr : h.ready = true) (h0 : 0 < h.clk) (ctr : ℕ → ℕ) (fuel us : ℕ) :
    timerSleepUs h ctr fuel us =
      sleepLoop h ctr ((ctr 0 + us * 1000000000 % 2 ^ 64 / h.clk) % 2 ^ 64) fuel 1 := by
  have hne : h.clk ≠ 0 := by omega
  rw [timerSleepUs, readHpet_ready hr]
  simp [bind, Except.bind, hne]

/-- Where nothing wraps, the sleep ends `ms * 10 ^ 12 / clk` ticks after its first read. -/
lemma timerSleepMs_eq (hr : h.ready = true) (h0 : 0 < h.clk) {ms : ℕ} (h2 : ms * 10 ^ 12 < 2 ^ 64)
    (h3 : ctr 0 + ms * 10 ^ 12 / h.clk < 2 ^ 64) (fuel : ℕ) :
    timerSleepMs h ctr fuel ms = sleepLoop h ctr (ctr 0 + ms * 10 ^ 12 / h.clk) fuel 1 := by
  have hus : ms * 1000 % 2 ^ 64 * 1000000000 % 2 ^ 64 = ms * 10 ^ 12 := by omega
  rw [timerSleepMs, timerSleepUs_eq hr h0, hus, Nat.mod_eq_of_lt h3]

lemma timerSleepMs_ready {fuel ms v : ℕ} (hs : timerSleepMs h ctr fuel ms = .ok v) :
    h.ready = true := by
  by_contra hr
  rw [timerSleepMs, timerSleepUs, readHpet, if_neg hr] at hs
  cases hs

lemma timerCountMs_eq (hr : h.ready = true) (x : ℕ) : timerCountMs h x = .ok (x / 1000) := by
  rw [timerCountMs, readHpet_ready hr]
  rfl

lemma countGrows_iff (hr : h.ready = true) (c v ms : ℕ) :
    CountGrows h c v ms ↔ c / 1000 + ms ≤ v / 1000 + 1 ∧ v / 1000 ≤ c / 1000 + ms + 1 := by
  constructor
  · rintro ⟨a, b, ha, hb, h1, h2⟩
    rw [timerCountMs_eq hr] at ha hb
    cases ha
    cases hb
    exact ⟨h1, h2⟩
  · rintro ⟨h1, h2⟩
    exact ⟨_, _, timerCountMs_eq hr c, timerCountMs_eq hr v, h1, h2⟩

/-! ### The value at which the sleep ends -/

/-- Below the last value wanted, one more read is at most that value. -/
lemma Ticks.step (ht : Ticks ctr) {stop i : ℕ} (hs : stop < 2 ^ 64) (hi : ctr i < stop) :
    ctr (i + 1) ≤ stop := by
  rcases ht i with h1 | h1
  · omega
  · rw [h1, Nat.mod_eq_of_lt (by omega)]
    exact hi

/-- A loop that starts no later than `stop` ends at `stop`. -/
lemma sleepLoop_ok (hr : h.ready = true) (ht : Ticks ctr) {stop fuel i v : ℕ} (hstop : stop < 2 ^ 64)
    (hi : ctr i ≤ stop) (hs : sleepLoop h ctr stop fuel i = .ok v) : v = stop := by
  induction fuel generalizing i with
  | zero => cases hs
  | succ fuel ih =>
    rw [sleepLoop_succ hr] at hs
    by_cases hlt : ctr i < stop
    · rw [if_pos hlt] at hs
      exact ih (ht.step hstop hlt) hs
    · rw [if_neg hlt] at hs
      cases hs
      omega

lemma sleepLoop_ge (hr : h.ready = true) {stop fuel i v : ℕ}
    (hs : sleepLoop h ctr stop fuel i = .ok v) : stop ≤ v := by
  induction fuel generalizing i with
  | zero => cases hs
  | succ fuel ih =>
    rw [sleepLoop_succ hr] at hs
    by_cases hlt : ctr i < stop
    · rw [if_pos hlt] at hs
      exact ih hs
    · rw [if_neg hlt] at hs
      cases hs
      omega

/-- On a counter that reaches `stop` after `n` more reads, the loop ends. -/
lemma sleepLoop_ends (hr : h.ready = true) {stop i n : ℕ} (hn : stop ≤ ctr (i + n)) :
    ∃ v, sleepLoop h ctr stop (n + 1) i = .ok v := by
  induction n generalizing i with
  | zero =>
    rw [sleepLoop_succ hr, if_neg (by simpa using hn)]
    exact ⟨_, rfl⟩
  | succ n ih =>
    rw [sleepLoop_succ hr]
    by_cases hlt : ctr i < stop
    · rw [if_pos hlt]
      exact ih (by rwa [show i + 1 + n = i + (n + 1) by omega])
    · rw [if_neg hlt]
      exact ⟨_, rfl⟩

/-- A sleep of at least a tick ends exactly at its last tick. -/
lemma timerSleepMs_ok (h0 : 0 < h.clk) {fuel ms v : ℕ} (h2 : ms * 10 ^ 12 < 2 ^ 64)
    (h3 : ctr 0 + ms * 10 ^ 12 / h.clk < 2 ^ 64) (ht : Ticks ctr) (hpos : 0 < ms * 10 ^ 12 / h.clk)
    (hs : timerSleepMs h ctr fuel ms = .ok v) : v = ctr 0 + ms * 10 ^ 12 / h.clk := by
  have hr := timerSleepMs_ready hs
  rw [timerSleepMs_eq hr h0 h2 h3] at hs
  exact sleepLoop_ok hr ht h3 (ht.step h3 (by omega)) hs

/-- A sleep of no milliseconds ends at once, or after a tick. -/
lemma timerSleepMs_zero (h0 : 0 < h.clk) {fuel v : ℕ} (h3 : ctr 0 < 2 ^ 64) (ht : Ticks ctr)
    (hs : timerSleepMs h ctr fuel 0 = .ok v) : v = ctr 0 ∨ v = ctr 0 + 1 := by
  have hr := timerSleepMs_ready hs
  rw [timerSleepMs_eq hr h0 (by norm_num) (by simpa using h3)] at hs
  have hstop : ctr 0 + 0 * 10 ^ 12 / h.clk = ctr 0 := by simp
  rw [hstop] at hs
  rcases Nat.lt_or_ge (ctr 0) (ctr 1) with hlt | hle
  · -- the counter has moved on before the first test
    have h1 : ctr 1 = ctr 0 + 1 := by
      rcases ht 0 with h1 | h1
      · rw [Nat.zero_add] at h1
        omega
      · rw [Nat.zero_add] at h1
        omega
    cases fuel with
    | zero => cases hs
    | succ fuel =>
      rw [sleepLoop_succ hr, if_neg (by omega)] at hs
      cases hs
      exact Or.inr h1
  · exact Or.inl (sleepLoop_ok hr ht h3 hle hs)

/-- On a counter that gets there, the sleep returns. -/
theorem sleep_returns (h : State) (ctr : ℕ → ℕ) (ms n : ℕ) (hr : h.ready = true) (h0 : 0 < h.clk)
    (h2 : ms * 10 ^ 12 < 2 ^ 64) (h3 : ctr 0 + ms * 10 ^ 12 / h.clk < 2 ^ 64)
    (hn : ctr 0 + ms * 10 ^ 12 / h.clk ≤ ctr (1 + n)) :
    ∃ v, timerSleepMs h ctr (n + 1) ms = .ok v := by
  rw [timerSleepMs_eq hr h0 h2 h3]
  exact sleepLoop_ends hr hn

/-- The first value of the counter at which a sleep that began at `c` returns. -/
theorem sleep_first (hr : h.ready = true) (h0 : 0 < h.clk) {c ms : ℕ} (h2 : ms * 10 ^ 12 < 2 ^ 64)
    (h3 : c + ms * 10 ^ 12 / h.clk < 2 ^ 64) :
    IsLeast {v | ∃ ctr fuel, ctr 0 = c ∧ Ticks ctr ∧ timerSleepMs h ctr fuel ms = .ok v}
      (c + ms * 10 ^ 12 / h.clk) := by
  constructor
  · obtain ⟨stop, hstop⟩ : ∃ stop, c + ms * 10 ^ 12 / h.clk = stop := ⟨_, rfl⟩
    -- a counter that stands still once it is there
    obtain ⟨ctr, hctr⟩ : ∃ ctr : ℕ → ℕ, ∀ i, ctr i = min (c + i) stop := ⟨_, fun _ => rfl⟩
    have hle : c ≤ stop := hstop ▸ Nat.le_add_right _ _
    have hc : ctr 0 = c := (hctr 0).trans (min_eq_left hle)
    have ht : Ticks ctr := by
      intro i
      rw [hctr, hctr]
      omega
    have hend : ctr 0 + ms * 10 ^ 12 / h.clk ≤ ctr (1 + (stop - c)) := by
      rw [hc, hctr]
      omega
    rw [← hc] at h3
    obtain ⟨v, hv⟩ := sleep_returns h ctr ms (stop - c) hr h0 h2 h3 hend
    refine ⟨ctr, stop - c + 1, hc, ht, ?_⟩
    have hloop := hv
    rw [timerSleepMs_eq hr h0 h2 h3] at hloop
    have hfirst : ctr 1 ≤ ctr 0 + ms * 10 ^ 12 / h.clk := by
      rw [hc, hctr]
      omega
    rw [hv, sleepLoop_ok hr ht h3 hfirst hloop, hc]
  · rintro v ⟨ctr, fuel, rfl, -, hs⟩
    rw [timerSleepMs_eq hr h0 h2 h3] at hs
    exact sleepLoop_ge hr hs

/-- Up to a tick, a sleep lasts as long as it says. -/
theorem sleep_duration (h0 : 0 < h.clk) {fuel ms v : ℕ} (h2 : ms * 10 ^ 12 < 2 ^ 64)
    (h3 : ctr 0 + ms * 10 ^ 12 / h.clk < 2 ^ 64) (ht : Ticks ctr) (hpos : 0 < ms * 10 ^ 12 / h.clk)
    (hs : timerSleepMs h ctr fuel ms = .ok v) :
    v * h.clk ≤ ctr 0 * h.clk + ms * 10 ^ 12 ∧ ctr 0 * h.clk + ms * 10 ^ 12 < (v + 1) * h.clk := by
  rw [timerSleepMs_ok h0 h2 h3 ht hpos hs, Nat.add_assoc, Nat.add_mul, Nat.add_mul (ctr 0)]
  constructor
  · exact Nat.add_le_add_left (Nat.div_mul_le_self _ _) _
  · refine Nat.add_lt_add_left ?_ _
    rw [Nat.mul_comm _ h.clk]
    exact Nat.lt_mul_div_succ _ h0

/-! ### Counting with the period, and without it -/

/-- The milliseconds in `x` ticks of `clk` femtoseconds. -/
def elapsedMs (clk x : ℕ) : ℕ := x * clk / 10 ^ 12

/-- The milliseconds that pass in a sleep are those it is for, up to one. -/
theorem sleep_elapsed (h0 : 0 < h.clk) (h1 : h.clk ≤ 10 ^ 12) {fuel ms v : ℕ}
    (h2 : ms * 10 ^ 12 < 2 ^ 64) (h3 : ctr 0 + ms * 10 ^ 12 / h.clk < 2 ^ 64) (ht : Ticks ctr)
    (hs : timerSleepMs h ctr fuel ms = .ok v) :
    elapsedMs h.clk (ctr 0) + ms ≤ elapsedMs h.clk v + 1 ∧
      elapsedMs h.clk v ≤ elapsedMs h.clk (ctr 0) + ms + 1 := by
  unfold elapsedMs
  rcases Nat.eq_zero_or_pos ms with rfl | hms
  · rcases timerSleepMs_zero h0 (by simpa using h3) ht hs with rfl | rfl
    · omega
    · rw [Nat.add_mul, Nat.one_mul]
      omega
  · have hpos : 0 < ms * 10 ^ 12 / h.clk := Nat.div_pos (by nlinarith) h0
    obtain ⟨hle, hlt⟩ := sleep_duration h0 h2 h3 ht hpos hs
    rw [Nat.add_mul, Nat.one_mul] at hlt
    omega

/-- `timer_count_ms` counts milliseconds if a tick is a microsecond. -/
lemma timerCountMs_microsecond (hr : h.ready = true) (hclk : h.clk = 10 ^ 9) (x : ℕ) :
    timerCountMs h x = .ok (elapsedMs h.clk x) := by
  rw [timerCountMs_eq hr, hclk, elapsedMs]
  exact congrArg _ (by omega)

/-- With a tick of a microsecond, ten times the longest period an HPET may have, sleeping and counting
would agree. -/
theorem sleep_count_microsecond (hclk : h.clk = 10 ^ 9) {fuel ms v : ℕ} (h2 : ms * 10 ^ 12 < 2 ^ 64)
    (h3 : ctr 0 + ms * 10 ^ 12 / h.clk < 2 ^ 64) (ht : Ticks ctr)
    (hs : timerSleepMs h ctr fuel ms = .ok v) : CountGrows h (ctr 0) v ms := by
  have hr := timerSleepMs_ready hs
  obtain ⟨hle, hge⟩ := sleep_elapsed (by omega) (by omega) h2 h3 ht hs
  exact ⟨_, _, timerCountMs_microsecond hr hclk _, timerCountMs_microsecond hr hclk _, hle, hge⟩

/-- At the longest period and below, a millisecond is at least ten thousand ticks. -/
lemma ticks_per_ms (h0 : 0 < h.clk) (h1 : h.clk ≤ 10 ^ 8) (ms : ℕ) :
    ms * 10 ^ 4 ≤ ms * 10 ^ 12 / h.clk := by
  rw [Nat.le_div_iff_mul_le h0]
  calc
    ms * 10 ^ 4 * h.clk ≤ ms * 10 ^ 4 * 10 ^ 8 := Nat.mul_le_mul_left _ h1
    _ = ms * 10 ^ 12 := by ring

/-- Over a sleep, the count grows by ten times as much, or more. -/
lemma count_tenfold (h0 : 0 < h.clk) (h1 : h.clk ≤ 10 ^ 8) {fuel ms v : ℕ}
    (h2 : ms * 10 ^ 12 < 2 ^ 64) (h3 : ctr 0 + ms * 10 ^ 12 / h.clk < 2 ^ 64) (ht : Ticks ctr)
    (hms : ms ≠ 0) (hs : timerSleepMs h ctr fuel ms = .ok v) :
    ctr 0 / 1000 + 10 * ms ≤ v / 1000 := by
  have hticks := ticks_per_ms h0 h1 ms
  have hv := timerSleepMs_ok h0 h2 h3 ht (by omega) hs
  calc
    ctr 0 / 1000 + 10 * ms = (ctr 0 + 10 * ms * 1000) / 1000 :=
      (Nat.add_mul_div_right _ _ (by norm_num)).symm
    _ ≤ v / 1000 := Nat.div_le_div_right (by omega)

/-- ACPI code that times its own sleep of `ms` sees ten times as much pass. -/
theorem laihost_tenfold {found cap : ℕ} (hi : hpetInit found cap = .ok h) (h0 : 0 < h.clk)
    (h1 : h.clk ≤ 10 ^ 8) {fuel ms v : ℕ} (h2 : ms * 10 ^ 12 < 2 ^ 64)
    (h3 : ctr 0 + ms * 10 ^ 12 / h.clk < 2 ^ 64) (ht : Ticks ctr) (hms : ms ≠ 0)
    (hs : laihostSleep h ctr fuel ms = .ok v) :
    ∃ a b, laihostTimer h (ctr 0) = .ok a ∧ laihostTimer h v = .ok b ∧ a + 10 * ms ≤ b := by
  have hr := hpetInit_ready hi
  exact ⟨_, _, timerCountMs_eq hr _, timerCountMs_eq hr _, count_tenfold h0 h1 h2 h3 ht hms hs⟩

/-- **Sleeping against counting.** `timer_count_ms` takes a thousand ticks for a millisecond, whatever
the period: it agrees with a sleep only if the sleep is for no time at all. -/
theorem sleep_count (h : State) (ctr : ℕ → ℕ) (fuel ms v : ℕ) (h0 : 0 < h.clk) (h1 : h.clk ≤ 10 ^ 8)
    (h2 : ms * 10 ^ 12 < 2 ^ 64) (h3 : ctr 0 + ms * 10 ^ 12 / h.clk < 2 ^ 64) (ht : Ticks ctr)
    (hs : timerSleepMs h ctr fuel ms = .ok v) : CountGrows h (ctr 0) v ms ↔ ms = 0 := by
  rw [countGrows_iff (timerSleepMs_ready hs)]
  constructor
  · rintro ⟨-, hle⟩
    by_contra hms
    have hgrow := count_tenfold h0 h1 h2 h3 ht hms hs
    omega
  · rintro rfl
    rcases timerSleepMs_zero h0 (by simpa using h3) ht hs with rfl | rfl
    · omega
    · omega

lemma ticks_add (c : ℕ) : Ticks fun i => (c + i) % 2 ^ 64 := by
  intro i
  refine Or.inr ?_
  simp only
  omega

/-- A sleep of no milliseconds that begins at tick 5 ends at tick 6. -/
theorem sleep_count_none : CountGrows ⟨10 ^ 8, true⟩ 5 6 0 :=
  (sleep_count ⟨10 ^ 8, true⟩ (fun i => (5 + i) % 2 ^ 64) 1 0 6 (by norm_num) (by norm_num)
    (by norm_num) (by norm_num) (ticks_add 5) rfl).mpr rfl

/-- With a period of 100 nanoseconds, a sleep of a second from tick 0 ends at tick ten million, and
`timer_count_ms` has counted ten seconds. -/
theorem sleep_count_second :
    ∃ fuel, timerSleepMs ⟨10 ^ 8, true⟩ (fun i => i % 2 ^ 64) fuel 1000 = .ok (10 ^ 7) ∧
      timerCountMs ⟨10 ^ 8, true⟩ 0 = .ok 0 ∧ timerCountMs ⟨10 ^ 8, true⟩ (10 ^ 7) = .ok 10000 ∧
        ¬ CountGrows ⟨10 ^ 8, true⟩ 0 (10 ^ 7) 1000 := by
  have ht : Ticks fun i => i % 2 ^ 64 := by simpa using ticks_add 0
  obtain ⟨v, hv⟩ := sleep_returns ⟨10 ^ 8, true⟩ (fun i => i % 2 ^ 64) 1000 9999999 rfl
    (by norm_num) (by norm_num) (by norm_num) (by norm_num)
  have hend := timerSleepMs_ok (by norm_num) (by norm_num) (by norm_num) ht (by norm_num) hv
  norm_num at hend
  subst hend
  refine ⟨_, hv, rfl, rfl, ?_⟩
  rw [countGrows_iff rfl]
  norm_num

end Silkware.Hpet
