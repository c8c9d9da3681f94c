import Silkware.Bits
import Silkware.ByteStore

/-!
The ports of `ports.c` and the configuration space behind them, as `pci.c` reaches it.

The device keeps what is written. A four-byte access at `0xCF8` is to its address register; the bytes
at `0xCFC` to `0xCFF` are four bytes of configuration space, which the register selects; all other
ports keep a byte each.
-/

namespace Silkware.Pci

open Silkware.Bits Silkware.ByteStore

/-- A function of a device on a bus. -/
structure Fn where
  bus : ℕ
  slot : ℕ
  func : ℕ
  deriving DecidableEq, Repr

structure Device where
  port : ℕ → UInt8
  address : UInt32
  config : Fn → ℕ → UInt8

/-- The function that an address selects. -/
def fnOf (a : UInt32) : Fn :=
  ⟨a.toNat / 2 ^ 16 % 256, a.toNat / 2 ^ 11 % 32, a.toNat / 2 ^ 8 % 8⟩

/-- The byte of configuration space that an address shows at port `q`. -/
def regOf (a : UInt32) (q : ℕ) : ℕ := a.toNat % 256 / 4 * 4 + (q - 0xCFC)

/-- Port `q` is part of the window, and the address has its enable bit. -/
def Shown (a : UInt32) (q : ℕ) : Prop := 0xCFC ≤ q ∧ q ≤ 0xCFF ∧ 2 ^ 31 ≤ a.toNat

instance (a : UInt32) (q : ℕ) : Decidable (Shown a q) := by unfold Shown; infer_instance

/-- What port `q` shows. -/
def Device.get (d : Device) (q : ℕ) : UInt8 :=
  if Shown d.address q then d.config (fnOf d.address) (regOf d.address q) else d.port q

/-- What port `q` is given. -/
def Device.put (d : Device) (q : ℕ) (x : UInt8) : Device :=
  if Shown d.address q then
    { d with config := fun g o => if g = fnOf d.address ∧ o = regOf d.address q then x else d.config g o }
  else { d with port := fun r => if r = q then x else d.port r }

lemma put_address (d : Device) (q : ℕ) (x : UInt8) : (d.put q x).address = d.address := by
  unfold Device.put
  split
  · rfl
  · rfl

/-- A byte at a port changes configuration space only in the byte that the port shows. -/
lemma put_config {d : Device} {q o : ℕ} (x : UInt8) {g : Fn}
    (h : Shown d.address q → g = fnOf d.address → o ≠ regOf d.address q) :
    (d.put q x).config g o = d.config g o := by
  unfold Device.put
  split
  · case isTrue hs => exact if_neg fun ⟨hg, ho⟩ => h hs hg ho
  · rfl

lemma get_put (d : Device) (q : ℕ) (x : UInt8) : (d.put q x).get q = x := by
  rw [Device.get, put_address, Device.put]
  split
  · exact if_pos ⟨rfl, rfl⟩
  · exact if_pos rfl

lemma get_put_ne (d : Device) (x : UInt8) {q r : ℕ} (h : r ≠ q) : (d.put q x).get r = d.get r := by
  rw [Device.get, Device.get, put_address]
  split
  · case isTrue hr =>
    refine put_config x fun hq _ => ?_
    have := hr.1
    have := hq.1
    unfold regOf
    omega
  · unfold Device.put
    split
    · rfl
    · exact if_neg h

/-- The ports of a device, a byte each. -/
def ports : Store Device := ⟨Device.get, Device.put, get_put, get_put_ne⟩

/-- The access is to the address register. -/
def AtAddress (p n : ℕ) : Prop := p = 0xCF8 ∧ n = 4

instance (p n : ℕ) : Decidable (AtAddress p n) := by unfold AtAddress; infer_instance

/-- `in`, with an operand of `n` bytes. -/
def Device.input (d : Device) (p n : ℕ) : ℕ :=
  if AtAddress p n then d.address.toNat else ports.load d p n

/-- `out`, with an operand of `n` bytes. -/
def Device.output (d : Device) (p n v : ℕ) : Device :=
  if AtAddress p n then { d with address := UInt32.ofNat v } else ports.save d p n v

def portInb (d : Device) (port : UInt16) : UInt8 := UInt8.ofNat (d.input port.toNat 1)

def portOutb (d : Device) (port : UInt16) (x : UInt8) : Device := d.output port.toNat 1 x.toNat

def portInw (d : Device) (port : UInt16) : UInt16 := UInt16.ofNat (d.input port.toNat 2)

def portOutw (d : Device) (port : UInt16) (x : UInt16) : Device := d.output port.toNat 2 x.toNat

def portInd (d : Device) (port : UInt16) : UInt32 := UInt32.ofNat (d.input port.toNat 4)

def portOutd (d : Device) (port : UInt16) (x : UInt32) : Device := d.output port.toNat 4 x.toNat

def pciaddr (bus slot func offset : UInt8) : UInt32 :=
  bus.toUInt32 <<< 16 ||| slot.toUInt32 <<< 11 ||| func.toUInt32 <<< 8 |||
    (offset.toUInt32 &&& 0xFC) ||| 0x80000000

/-- `pci_read`, whose result is a byte at every size. -/
def pciRead (d : Device) (bus slot func offset size : UInt8) : UInt8 × Device :=
  let d := portOutd d 0xCF8 (pciaddr bus slot func offset)
  match size with
  | 1 => (portInb d (0xCFC + (offset &&& 3).toUInt16), d)
  | 2 => ((portInw d (0xCFC + (offset &&& 2).toUInt16)).toUInt8, d)
  | 4 => ((portInd d 0xCFC).toUInt8, d)
  | _ => (0, d)

def pciWrite (d : Device) (bus slot func offset : UInt8) (val : UInt32) (size : UInt8) : Device :=
  let d := portOutd d 0xCF8 (pciaddr bus slot func offset)
  match size with
  | 1 => portOutb d (0xCFC + (offset &&& 3).toUInt16) val.toUInt8
  | 2 => portOutw d (0xCFC + (offset &&& 2).toUInt16) val.toUInt16
  | 4 => portOutd d 0xCFC val
  | _ => d

/-! ### Ports -/

/-- A read after a write at the same port gives back as much as fits. -/
lemma input_output (d : Device) (p n v : ℕ) : (d.output p n v).input p n = v % 256 ^ n := by
  unfold Device.input Device.output
  by_cases h : AtAddress p n
  · rw [if_pos h, if_pos h, h.2]
    exact UInt32.toNat_ofNat'
  · rw [if_neg h, if_neg h]
    exact load_save d p n v

/-! ### The address, and the window -/

/-- The fields of an address do not overlap. -/
lemma pciaddr_toNat (bus offset : UInt8) {slot func : UInt8} (hs : slot < 32) (hf : func < 8) :
    (pciaddr bus slot func offset).toNat =
      2 ^ 31 + bus.toNat * 2 ^ 16 + slot.toNat * 2 ^ 11 + func.toNat * 2 ^ 8 +
        offset.toNat / 4 * 4 := by
  have hb := bus.toNat_lt
  have ho := offset.toNat_lt
  have hs' : slot.toNat < 32 := UInt8.lt_iff_toNat_lt.mp hs
  have hf' : func.toNat < 8 := UInt8.lt_iff_toNat_lt.mp hf
  have hand : offset.toNat &&& 0xFC = offset.toNat / 4 * 4 := by
    rw [show 0xFC = (2 ^ 6 - 1) * 2 ^ 2 by rfl, and_mul_two_pow, Nat.and_two_pow_sub_one_eq_mod,
      Nat.mod_eq_of_lt (by omega)]
    rfl
  have hbus : bus.toNat <<< 16 % 2 ^ 32 = bus.toNat * 2 ^ 16 := by
    rw [Nat.shiftLeft_eq, Nat.mod_eq_of_lt (by omega)]
  have hslot : slot.toNat <<< 11 % 2 ^ 32 = slot.toNat * 2 ^ 11 := by
    rw [Nat.shiftLeft_eq, Nat.mod_eq_of_lt (by omega)]
  have hfunc : func.toNat <<< 8 % 2 ^ 32 = func.toNat * 2 ^ 8 := by
    rw [Nat.shiftLeft_eq, Nat.mod_eq_of_lt (by omega)]
  calc
    (pciaddr bus slot func offset).toNat =
        bus.toNat * 2 ^ 16 ||| slot.toNat * 2 ^ 11 ||| func.toNat * 2 ^ 8 |||
          offset.toNat / 4 * 4 ||| 2 ^ 31 := by
      rw [← hbus, ← hslot, ← hfunc, ← hand]
      rfl
    _ = bus.toNat * 2 ^ 16 + slot.toNat * 2 ^ 11 + func.toNat * 2 ^ 8 + offset.toNat / 4 * 4 |||
          2 ^ 31 := by
      rw [or_eq_add (x := bus.toNat * 2 ^ 16) 16 (by omega) (by omega),
        or_eq_add (y := func.toNat * 2 ^ 8) 11 (by omega) (by omega),
        or_eq_add (y := offset.toNat / 4 * 4) 8 (by omega) (by omega)]
    _ = 2 ^ 31 + bus.toNat * 2 ^ 16 + slot.toNat * 2 ^ 11 + func.toNat * 2 ^ 8 +
          offset.toNat / 4 * 4 := by
      rw [Nat.or_comm, or_eq_add 31 (by omega) (by omega)]
      omega

/-- The function that the arguments name. -/
def fn (bus slot func : UInt8) : Fn := ⟨bus.toNat, slot.toNat, func.toNat⟩

section
variable {bus slot func offset : UInt8} (hs : slot < 32) (hf : func < 8)
include hs hf

lemma fnOf_pciaddr : fnOf (pciaddr bus slot func offset) = fn bus slot func := by
  have hb := bus.toNat_lt
  have ho := offset.toNat_lt
  have hs' : slot.toNat < 32 := UInt8.lt_iff_toNat_lt.mp hs
  have hf' : func.toNat < 8 := UInt8.lt_iff_toNat_lt.mp hf
  have h := pciaddr_toNat bus offset hs hf
  unfold fnOf fn
  congr 1
  · omega
  · omega
  · omega

/-- The window shows the bytes at the offset from the port on that matches its two low bits. -/
lemma regOf_pciaddr (i : ℕ) :
    regOf (pciaddr bus slot func offset) (0xCFC + offset.toNat % 4 + i) = offset.toNat + i := by
  have ho := offset.toNat_lt
  have h := pciaddr_toNat bus offset hs hf
  unfold regOf
  omega

lemma shown_pciaddr {i : ℕ} (hi : offset.toNat % 4 + i < 4) :
    Shown (pciaddr bus slot func offset) (0xCFC + offset.toNat % 4 + i) := by
  have h := pciaddr_toNat bus offset hs hf
  exact ⟨by omega, by omega, by omega⟩

end

/-! ### Configuration space as `pci_read` and `pci_write` see it -/

/-- The configuration space of a function, a byte at each offset. -/
def configOf (f : Fn) : Store (Fn → ℕ → UInt8) where
  get c := c f
  put c q x g o := if g = f ∧ o = q then x else c g o
  get_put _ _ _ := if_pos ⟨rfl, rfl⟩
  get_put_ne _ _ _ _ h := if_neg fun h' => h h'.2

/-- A save touches one function's bytes only, and of these the ones in its range. -/
lemma configOf_save_out {f g : Fn} {c : Fn → ℕ → UInt8} {p n v o : ℕ}
    (h : g = f → o < p ∨ p + n ≤ o) : (configOf f).save c p n v g o = c g o :=
  save_induction (P := fun t : Fn → ℕ → UInt8 => t g o = c g o)
    (fun t q x h1 h2 ht => by
      have hne : ¬ (g = f ∧ o = q) := by
        rintro ⟨hg, rfl⟩
        have := h hg
        omega
      exact (if_neg hne).trans ht) rfl

/-- The device with its address register set. -/
def select (d : Device) (bus slot func offset : UInt8) : Device :=
  { d with address := pciaddr bus slot func offset }

lemma portOutd_address (d : Device) (a : UInt32) : portOutd d 0xCF8 a = { d with address := a } := by
  have h : UInt32.ofNat a.toNat = a := UInt32.ofNat_toNat
  rw [portOutd, Device.output, if_pos ⟨rfl, rfl⟩, h]

/-- An aligned access of one, two or four bytes. -/
def Aligned (offset : UInt8) (n : ℕ) : Prop := (n = 1 ∨ n = 2 ∨ n = 4) ∧ offset.toNat % n = 0

lemma Aligned.le {offset : UInt8} {n : ℕ} (h : Aligned offset n) : offset.toNat % 4 + n ≤ 4 := by
  obtain ⟨rfl | rfl | rfl, h⟩ := h
  · omega
  · omega
  · omega

/-- An access has a first byte. -/
lemma Aligned.succ {offset : UInt8} {n : ℕ} (h : Aligned offset n) : ∃ m, n = m + 1 := by
  obtain ⟨rfl | rfl | rfl, -⟩ := h
  · exact ⟨0, rfl⟩
  · exact ⟨1, rfl⟩
  · exact ⟨3, rfl⟩

lemma toNat_and_three (x : UInt8) : (x &&& 3).toNat = x.toNat % 4 :=
  (UInt8.toNat_and x 3).trans (Nat.and_two_pow_sub_one_eq_mod _ 2)

lemma toNat_and_two {x : UInt8} (h : x.toNat % 2 = 0) : (x &&& 2).toNat = x.toNat % 4 := by
  have h1 : x.toNat &&& 2 = (x.toNat / 2 &&& 1) * 2 := and_mul_two_pow x.toNat 1 1
  rw [UInt8.toNat_and]
  rw [Nat.and_one_is_mod] at h1
  exact h1.trans (by omega)

/-- The port is the one of the window's four that the low bits of the offset name. -/
lemma port_toNat {offset x : UInt8} (hx : x.toNat = offset.toNat % 4) :
    (0xCFC + x.toUInt16).toNat = 0xCFC + offset.toNat % 4 := by
  have h : (0xCFC + x.toUInt16).toNat = (0xCFC + x.toNat) % 2 ^ 16 := rfl
  omega

/-- Off the address register, an access is to the bytes of its ports. -/
lemma input_load (d : Device) {p n : ℕ} (h : p ≠ 0xCF8 ∨ n ≠ 4) : d.input p n = ports.load d p n :=
  if_neg fun h' => h.elim (fun h => h h'.1) fun h => h h'.2

lemma output_save (d : Device) {p n : ℕ} (v : ℕ) (h : p ≠ 0xCF8 ∨ n ≠ 4) :
    d.output p n v = ports.save d p n v :=
  if_neg fun h' => h.elim (fun h => h h'.1) fun h => h h'.2

/-- `pci_read` returns the lowest byte of what it reads. -/
lemma pciRead_eq (d : Device) (bus slot func : UInt8) {offset : UInt8} {n : ℕ} (h : Aligned offset n) :
    pciRead d bus slot func offset (UInt8.ofNat n) =
      (UInt8.ofNat (ports.load (select d bus slot func offset) (0xCFC + offset.toNat % 4) n),
        select d bus slot func offset) := by
  obtain ⟨rfl | rfl | rfl, h⟩ := h
  · have hread : pciRead d bus slot func offset 1 =
        (portInb (select d bus slot func offset) (0xCFC + (offset &&& 3).toUInt16),
          select d bus slot func offset) := by
      rw [select, ← portOutd_address]
      rfl
    refine hread.trans (Prod.ext ?_ rfl)
    rw [portInb, port_toNat (toNat_and_three offset), input_load _ (by omega)]
  · have hread : pciRead d bus slot func offset 2 =
        ((portInw (select d bus slot func offset) (0xCFC + (offset &&& 2).toUInt16)).toUInt8,
          select d bus slot func offset) := by
      rw [select, ← portOutd_address]
      rfl
    refine hread.trans (Prod.ext ?_ rfl)
    rw [portInw, port_toNat (toNat_and_two h), input_load _ (by omega), UInt16.toUInt8_ofNat']
  · have hread : pciRead d bus slot func offset 4 =
        ((portInd (select d bus slot func offset) 0xCFC).toUInt8,
          select d bus slot func offset) := by
      rw [select, ← portOutd_address]
      rfl
    have hport : (0xCFC : UInt16).toNat = 0xCFC + offset.toNat % 4 := by
      rw [h]
      rfl
    refine hread.trans (Prod.ext ?_ rfl)
    rw [portInd, hport, input_load _ (by omega), UInt32.toUInt8_ofNat']

/-- `pci_write` writes all of its value that the access has room for. -/
lemma pciWrite_eq (d : Device) (bus slot func : UInt8) {offset : UInt8} (val : UInt32) {n : ℕ}
    (h : Aligned offset n) :
    pciWrite d bus slot func offset val (UInt8.ofNat n) =
      ports.save (select d bus slot func offset) (0xCFC + offset.toNat % 4) n val.toNat := by
  obtain ⟨rfl | rfl | rfl, h⟩ := h
  · have hwrite : pciWrite d bus slot func offset val 1 =
        portOutb (select d bus slot func offset) (0xCFC + (offset &&& 3).toUInt16) val.toUInt8 := by
      rw [select, ← portOutd_address]
      rfl
    rw [portOutb, port_toNat (toNat_and_three offset), output_save _ _ (by omega)] at hwrite
    exact hwrite.trans (save_mod _ _ 1 _)
  · have hwrite : pciWrite d bus slot func offset val 2 =
        portOutw (select d bus slot func offset) (0xCFC + (offset &&& 2).toUInt16) val.toUInt16 := by
      rw [select, ← portOutd_address]
      rfl
    rw [portOutw, port_toNat (toNat_and_two h), output_save _ _ (by omega)] at hwrite
    exact hwrite.trans (save_mod _ _ 2 _)
  · have hwrite : pciWrite d bus slot func offset val 4 =
        portOutd (select d bus slot func offset) 0xCFC val := by
      rw [select, ← portOutd_address]
      rfl
    have hport : (0xCFC : UInt16).toNat = 0xCFC + offset.toNat % 4 := by
      rw [h]
      rfl
    rw [portOutd, hport, output_save _ _ (by omega)] at hwrite
    exact hwrite

/-- **`pci_write` on configuration space.** It writes the bytes of its access, and no others. -/
theorem pciWrite_config (d : Device) {bus slot func offset : UInt8} (hs : slot < 32) (hf : func < 8)
    (val : UInt32) {n : ℕ} (h : Aligned offset n) :
    (pciWrite d bus slot func offset val (UInt8.ofNat n)).config =
      (configOf (fn bus slot func)).save d.config offset.toNat n val.toNat := by
  have hle := h.le
  rw [pciWrite_eq d bus slot func val h]
  refine save_map Device.config (I := fun t => t.address = pciaddr bus slot func offset)
    (fun t r x ht => (put_address t r x).trans ht) (fun t i x hi ht => ?_) rfl
  have hshown : Shown t.address (0xCFC + offset.toNat % 4 + i) :=
    ht ▸ shown_pciaddr hs hf (by omega)
  show (t.put _ x).config = _
  rw [Device.put, if_pos hshown, ht, fnOf_pciaddr hs hf, regOf_pciaddr hs hf]
  rfl

/-- **`pci_read` on configuration space.** Whatever the width of its access, it returns the first of
its bytes. -/
theorem pciRead_config (d : Device) {bus slot func offset : UInt8} (hs : slot < 32) (hf : func < 8)
    {n : ℕ} (h : Aligned offset n) :
    (pciRead d bus slot func offset (UInt8.ofNat n)).1 =
      d.config (fn bus slot func) offset.toNat := by
  have hle := h.le
  rw [pciRead_eq d bus slot func h]
  obtain ⟨m, rfl⟩ := h.succ
  have hshown : Shown (pciaddr bus slot func offset) (0xCFC + offset.toNat % 4 + 0) :=
    shown_pciaddr hs hf (by omega)
  calc
    UInt8.ofNat (ports.load (select d bus slot func offset) (0xCFC + offset.toNat % 4) (m + 1)) =
        (select d bus slot func offset).get (0xCFC + offset.toNat % 4 + 0) := ofNat_load _ _ _
    _ = d.config (fn bus slot func) offset.toNat := by
      rw [Device.get, select, if_pos hshown, fnOf_pciaddr hs hf, regOf_pciaddr hs hf, Nat.add_zero]

end Silkware.Pci
