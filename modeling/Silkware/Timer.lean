import Mathlib.Tactic.NormNum
import Silkware.Sched

/-!
The length of a time slice: `sched_update_duration` of `arch/x86_64/sched.c` and the timer of
`apic.c`.

A sweep over the processes of a CPU is to take `SCHED_US_PER_SWEEP`, and each of them gets its
share. `ticks` is what the timer counts in a millisecond, as `apic_start` measured it.
-/

namespace Silkware.Timer

open Silkware.Sched

/-! ### The functions -/

def lapicRegSpurious : ℕ := 0xF0
def lapicRegLvtTmr : ℕ := 0x320
def lapicRegTmrInitial : ℕ := 0x380
def lapicRegTmrDiv : ℕ := 0x3E0

def apicTmrDivBy16 : ℕ := 0x3
def lapicTmrMasked : ℕ := 0x10000
def lapicTmrPeriodic : ℕ := 0x20000
def lapicSpuriousAll : ℕ := 0xFF
def lapicSpuriousEnable : ℕ := 0x100

/-- `INT_TIMER` -/
def intTimer : ℕ := 32

/-- `SCHED_US_PER_SWEEP` -/
def schedUsPerSweep : ℕ := 10000

/-- A store made by `lapic_write`. -/
structure LapicWrite where
  reg : ℕ
  value : ℕ
  deriving DecidableEq

/-- `apic_set_duration`: its stores. The product is formed in 32 bits. -/
def apicSetDuration (ticks us : ℕ) : List LapicWrite :=
  let ticksValue := ticks * us % 2 ^ 32 / 1000
  let ticksValue := if ticksValue = 0 then 1 else ticksValue
  [⟨lapicRegLvtTmr, intTimer ||| lapicTmrPeriodic⟩, ⟨lapicRegTmrDiv, apicTmrDivBy16⟩,
    ⟨lapicRegTmrInitial, ticksValue⟩]

/-- `apic_start`: its stores and the `ticks` it keeps; `spurious` and `cur` are what it reads
from the spurious vector register and from the current count. -/
def apicStart (spurious cur : ℕ) : List LapicWrite × ℕ :=
  let ticks := (0xFFFFFFFF - cur) / 10
  let ticks := if ticks = 0 then 1 else ticks
  ([⟨lapicRegSpurious, spurious ||| lapicSpuriousAll ||| lapicSpuriousEnable⟩,
    ⟨lapicRegTmrDiv, apicTmrDivBy16⟩, ⟨lapicRegTmrInitial, 0xFFFFFFFF⟩,
    ⟨lapicRegLvtTmr, lapicTmrMasked⟩] ++ apicSetDuration ticks (1000 * 10), ticks)

/-- A `uint32_t` stored in an `int`. -/
def toInt (x : ℕ) : ℤ := (x : ℤ).bmod (2 ^ 32)

/-- An `int` as an operand beside a `uint32_t`. -/
def toUint32 (z : ℤ) : ℕ := (z % 2 ^ 32).toNat

/-- The microseconds of `sched_update_duration`. -/
def sliceUs (s : State) (cpuid : ℕ) : ℕ :=
  let n := toInt (s.cpu cpuid).n
  let us := schedUsPerSweep / toUint32 (if n = 0 then 1 else n)
  if us = 0 then 1 else us

/-- `sched_update_duration`: its stores. -/
def schedUpdateDuration (ticks : ℕ) (s : State) (cpuid : ℕ) : List LapicWrite :=
  apicSetDuration ticks (sliceUs s cpuid)

/-- What the initial count register holds after the stores, if one of them is to it. -/
def initialCount (ws : List LapicWrite) : Option ℕ :=
  (ws.reverse.find? fun w => w.reg = lapicRegTmrInitial).map (·.value)

/-! ### The slice -/

/-- The share of one of `n` processes, in microseconds. -/
def exactUs (n : ℕ) : ℕ := max 1 (schedUsPerSweep / max n 1)

/-- What the timer counts in that share. -/
def exactCount (ticks n : ℕ) : ℕ := max 1 (ticks * exactUs n / 1000)

/-- `apic_start` can keep every value from 1 to a tenth of the counter's range, and no other. -/
theorem apicStart_ticks_iff (spurious t : ℕ) :
    (∃ cur < 2 ^ 32, (apicStart spurious cur).2 = t) ↔ 1 ≤ t ∧ t ≤ 0xFFFFFFFF / 10 := by
  simp only [apicStart]
  constructor
  · rintro ⟨cur, -, rfl⟩
    split <;> omega
  · rintro ⟨h1, h2⟩
    refine ⟨0xFFFFFFFF - t * 10, by omega, ?_⟩
    rw [if_neg (by omega)]
    omega

lemma initialCount_apicSetDuration (ticks us : ℕ) :
    initialCount (apicSetDuration ticks us) = some (max 1 (ticks * us % 2 ^ 32 / 1000)) := by
  have h : (if ticks * us % 2 ^ 32 / 1000 = 0 then 1 else ticks * us % 2 ^ 32 / 1000) =
      max 1 (ticks * us % 2 ^ 32 / 1000) := by
    split <;> omega
  exact congrArg some h

lemma toUint32_toInt {x : ℕ} (h : x < 2 ^ 32) : toUint32 (toInt x) = x := by
  have h1 : toInt x % ((2 ^ 32 : ℕ) : ℤ) = (x : ℤ) % ((2 ^ 32 : ℕ) : ℤ) := Int.bmod_emod ..
  rw [toUint32, show (2 : ℤ) ^ 32 = ((2 ^ 32 : ℕ) : ℤ) by norm_cast, h1]
  omega

lemma toInt_eq_zero {x : ℕ} (h : x < 2 ^ 32) : toInt x = 0 ↔ x = 0 := by
  constructor
  · intro h0
    rw [← toUint32_toInt h, h0]
    rfl
  · rintro rfl
    rfl

/-- The way through `int` does not change the number of processes. -/
lemma sliceUs_eq {s : State} {cpuid : ℕ} (h : (s.cpu cpuid).n < 2 ^ 32) :
    sliceUs s cpuid = exactUs (s.cpu cpuid).n := by
  have hn : toUint32 (if toInt (s.cpu cpuid).n = 0 then 1 else toInt (s.cpu cpuid).n) =
      max (s.cpu cpuid).n 1 := by
    by_cases h0 : (s.cpu cpuid).n = 0
    · rw [if_pos ((toInt_eq_zero h).mpr h0), h0]
      rfl
    · rw [if_neg (mt (toInt_eq_zero h).mp h0), toUint32_toInt h]
      omega
  simp only [sliceUs, hn, exactUs]
  generalize schedUsPerSweep / max (s.cpu cpuid).n 1 = us
  split <;> omega

lemma initialCount_schedUpdateDuration (ticks : ℕ) {s : State} {cpuid : ℕ}
    (h : (s.cpu cpuid).n < 2 ^ 32) :
    initialCount (schedUpdateDuration ticks s cpuid) =
      some (max 1 (ticks * exactUs (s.cpu cpuid).n % 2 ^ 32 / 1000)) := by
  rw [schedUpdateDuration, initialCount_apicSetDuration, sliceUs_eq h]

/-- **The count programmed** is the exact one just when the product of the calibration and the
slice fits in 32 bits. -/
theorem schedUpdateDuration_exact_iff (ticks cpuid : ℕ) (s : State)
    (hn : (s.cpu cpuid).n < 2 ^ 32) :
    initialCount (schedUpdateDuration ticks s cpuid) = some (exactCount ticks (s.cpu cpuid).n) ↔
      ticks * exactUs (s.cpu cpuid).n < 2 ^ 32 := by
  rw [initialCount_schedUpdateDuration ticks hn, Option.some_inj, exactCount]
  generalize ticks * exactUs (s.cpu cpuid).n = p
  constructor
  · intro h
    by_contra hp
    -- the part cut off is worth more than four million counts
    have h1 : p % 2 ^ 32 / 1000 + 4000000 ≤ p / 1000 := by omega
    omega
  · intro h
    rw [Nat.mod_eq_of_lt h]

/-- The run queues of a machine that has just started, with `n` processes counted. -/
def queuesWith (n : ℕ) : State := schedInit (fun _ => ⟨0, 0⟩) fun _ => n

theorem schedUpdateDuration_exact_iff_two :
    initialCount (schedUpdateDuration 62500 (queuesWith 2) 0) =
        some (exactCount 62500 ((queuesWith 2).cpu 0).n) ↔
      62500 * exactUs ((queuesWith 2).cpu 0).n < 2 ^ 32 :=
  schedUpdateDuration_exact_iff 62500 0 (queuesWith 2) (by decide)

/-- With one process and 500000 ticks in a millisecond the product is five billion, and the
slice programmed is 1.4 ms in place of 10 ms. -/
theorem schedUpdateDuration_wraps :
    ¬ ∀ ticks cpuid (s : State), 1 ≤ ticks → ticks ≤ 0xFFFFFFFF / 10 →
      (s.cpu cpuid).n < 2 ^ 32 →
      initialCount (schedUpdateDuration ticks s cpuid) =
        some (exactCount ticks (s.cpu cpuid).n) := by
  intro h
  exact absurd (h 500000 0 (queuesWith 1) (by decide) (by decide) (by decide)) (by decide)

/-- **A thousand processes** have slices so short that no timer is too fast for them. -/
theorem schedUpdateDuration_of_thousand {ticks cpuid : ℕ} {s : State}
    (ht : ticks ≤ 0xFFFFFFFF / 10) (h1 : 1000 ≤ (s.cpu cpuid).n) (h2 : (s.cpu cpuid).n < 2 ^ 32) :
    initialCount (schedUpdateDuration ticks s cpuid) =
      some (exactCount ticks (s.cpu cpuid).n) := by
  have hus : exactUs (s.cpu cpuid).n ≤ 10 :=
    max_le (by norm_num) (Nat.div_le_div_left (by omega) (by norm_num : 0 < 1000))
  have hp : ticks * exactUs (s.cpu cpuid).n < 2 ^ 32 := calc
    ticks * exactUs (s.cpu cpuid).n ≤ 0xFFFFFFFF / 10 * 10 := Nat.mul_le_mul ht hus
    _ < 2 ^ 32 := by norm_num
  rw [initialCount_schedUpdateDuration ticks h2, Nat.mod_eq_of_lt hp, exactCount]

end Silkware.Timer
