import Silkware.Pci

/-!
The port and PCI functions that `laihost.c` gives the ACPI interpreter.

A value that is written and then read back comes back only as far as every function on the way carries
it: `pci_read` returns a byte at every size, and `laihost_outw` calls `port_outb`.
-/

namespace Silkware.HostIo

open Silkware.ByteStore Silkware.Pci

def laihostInb (d : Device) (port : UInt16) : UInt8 := portInb d port

def laihostInw (d : Device) (port : UInt16) : UInt16 := portInw d port

def laihostInd (d : Device) (port : UInt16) : UInt32 := portInd d port

def laihostOutb (d : Device) (port : UInt16) (x : UInt8) : Device := portOutb d port x

/-- `laihost_outw`, which hands its word to `port_outb`. -/
def laihostOutw (d : Device) (port : UInt16) (x : UInt16) : Device := portOutb d port x.toUInt8

def laihostOutd (d : Device) (port : UInt16) (x : UInt32) : Device := portOutd d port x

def laihostPciWriteb (d : Device) (_seg : UInt16) (bus slot func : UInt8) (offset : UInt16)
    (val : UInt8) : Device :=
  pciWrite d bus slot func offset.toUInt8 val.toUInt32 1

def laihostPciWritew (d : Device) (_seg : UInt16) (bus slot func : UInt8) (offset : UInt16)
    (val : UInt16) : Device :=
  pciWrite d bus slot func offset.toUInt8 val.toUInt32 2

def laihostPciWrited (d : Device) (_seg : UInt16) (bus slot func : UInt8) (offset : UInt16)
    (val : UInt32) : Device :=
  pciWrite d bus slot func offset.toUInt8 val 4

def laihostPciReadb (d : Device) (_seg : UInt16) (bus slot func : UInt8) (offset : UInt16) :
    UInt8 × Device :=
  pciRead d bus slot func offset.toUInt8 1

def laihostPciReadw (d : Device) (_seg : UInt16) (bus slot func : UInt8) (offset : UInt16) :
    UInt16 × Device :=
  let r := pciRead d bus slot func offset.toUInt8 2
  (r.1.toUInt16, r.2)

def laihostPciReadd (d : Device) (_seg : UInt16) (bus slot func : UInt8) (offset : UInt16) :
    UInt32 × Device :=
  let r := pciRead d bus slot func offset.toUInt8 4
  (r.1.toUInt32, r.2)

/-- From `d` on, writing `v` to `n` bytes of function `f` and reading them back leads to `r`: the value
is `v`, and no other byte of configuration space has changed. -/
def PciKept {α : Type} (d : Device) (f : Fn) (offset n : ℕ) (v : α) (r : α × Device) : Prop :=
  r.1 = v ∧ ∀ g o, (g = f → o < offset ∨ offset + n ≤ o) → r.2.config g o = d.config g o

/-! ### Configuration space -/

section
variable {d : Device} {bus slot func offset : UInt8} {val : UInt32} {n : ℕ} (hs : slot < 32)
  (hf : func < 8) (h : Aligned offset n)
include hs hf h

/-- What is read back is the lowest byte of what was written. -/
lemma pciRead_pciWrite :
    (pciRead (pciWrite d bus slot func offset val (UInt8.ofNat n)) bus slot func offset
      (UInt8.ofNat n)).1 = val.toUInt8 := by
  rw [pciRead_config _ hs hf h, pciWrite_config d hs hf val h]
  obtain ⟨m, rfl⟩ := h.succ
  have hfst := get_save_first (B := configOf (fn bus slot func)) d.config offset.toNat m val.toNat
  refine hfst.trans (UInt8.toNat_inj.mp ?_)
  rw [UInt8.toNat_ofNat', UInt32.toNat_toUInt8]

lemma pciRead_pciWrite_config {g : Fn} {o : ℕ}
    (ho : g = fn bus slot func → o < offset.toNat ∨ offset.toNat + n ≤ o) :
    (pciRead (pciWrite d bus slot func offset val (UInt8.ofNat n)) bus slot func offset
      (UInt8.ofNat n)).2.config g o = d.config g o := by
  rw [pciRead_eq _ bus slot func h]
  show (pciWrite d bus slot func offset val (UInt8.ofNat n)).config g o = _
  rw [pciWrite_config d hs hf val h]
  exact configOf_save_out ho

end

/-- What the two functions of `pci.c` keep of a value, those of `laihost.c` keep. -/
lemma pciKept_iff {α : Type} {d : Device} {bus slot func : UInt8} {offset : UInt16} {val : UInt32} {n : ℕ}
    (hs : slot < 32) (hf : func < 8) (ho : offset < 256) (hn : n = 1 ∨ n = 2 ∨ n = 4)
    (ha : offset.toNat % n = 0) (v : α) (widen : UInt8 → α) {r : UInt8 × Device}
    (hr : r = pciRead (pciWrite d bus slot func offset.toUInt8 val (UInt8.ofNat n)) bus slot func
      offset.toUInt8 (UInt8.ofNat n)) :
    PciKept d (fn bus slot func) offset.toNat n v (widen r.1, r.2) ↔ widen val.toUInt8 = v := by
  have hoff : offset.toUInt8.toNat = offset.toNat := by
    have hlt : offset.toNat < 256 := UInt16.lt_iff_toNat_lt.mp ho
    rw [UInt16.toNat_toUInt8, Nat.mod_eq_of_lt hlt]
  have h : Aligned offset.toUInt8 n := ⟨hn, by rw [hoff]; exact ha⟩
  subst hr
  rw [PciKept, pciRead_pciWrite hs hf h]
  refine and_iff_left fun g o hout => ?_
  rw [← hoff] at hout
  exact pciRead_pciWrite_config hs hf h hout

lemma toUInt16_toUInt8 (w : UInt16) : w.toUInt32.toUInt8.toUInt16 = w ↔ w < 256 := by
  rw [← UInt16.toNat_inj, UInt16.lt_iff_toNat_lt, UInt8.toNat_toUInt16, UInt32.toNat_toUInt8,
    UInt16.toNat_toUInt32]
  exact Nat.mod_eq_iff_lt (by decide)

lemma toUInt32_toUInt8 (x : UInt32) : x.toUInt8.toUInt32 = x ↔ x < 256 := by
  rw [← UInt32.toNat_inj, UInt32.lt_iff_toNat_lt, UInt8.toNat_toUInt32, UInt32.toNat_toUInt8]
  exact Nat.mod_eq_iff_lt (by decide)

/-! ### Ports -/

lemma laihostInb_outb (d : Device) (port : UInt16) (b : UInt8) :
    laihostInb (laihostOutb d port b) port = b := by
  have hfit : b.toNat % 256 ^ 1 = b.toNat := Nat.mod_eq_of_lt b.toNat_lt
  rw [laihostInb, laihostOutb, portInb, portOutb, input_output, hfit]
  exact UInt8.ofNat_toNat

lemma laihostInd_outd (d : Device) (port : UInt16) (x : UInt32) :
    laihostInd (laihostOutd d port x) port = x := by
  have hfit : x.toNat % 256 ^ 4 = x.toNat := Nat.mod_eq_of_lt x.toNat_lt
  rw [laihostInd, laihostOutd, portInd, portOutd, input_output, hfit]
  exact UInt32.ofNat_toNat

/-- The high byte of a word that is read back is what was at the next port. -/
lemma laihostInw_outw (d : Device) (port w : UInt16) :
    (laihostInw (laihostOutw d port w) port).toNat =
      w.toNat % 256 + 256 * (d.get (port.toNat + 1)).toNat := by
  have hout : laihostOutw d port w = ports.put d port.toNat (UInt8.ofNat w.toUInt8.toNat) :=
    output_save d _ (Or.inr (by decide))
  have hbyte : (UInt8.ofNat w.toUInt8.toNat).toNat = w.toNat % 256 := by
    rw [UInt8.ofNat_toNat, UInt16.toNat_toUInt8]
  have hload : ports.load d (port.toNat + 1) 1 = (d.get (port.toNat + 1)).toNat := rfl
  have hlt := (d.get (port.toNat + 1)).toNat_lt
  rw [laihostInw, portInw, hout, input_load _ (Or.inr (by decide)), load_put, hbyte, hload,
    UInt16.toNat_ofNat']
  omega

/-- **Widths of ports and of configuration space.** A value that is written to configuration space and
read back is itself if and only if it is less than 256, and changes no other byte there. A byte or a
double word that is written to a port and read back is itself; a word is if and only if the next port
has its high byte already. -/
theorem io_widths (d : Device) (seg : UInt16) (bus slot func : UInt8) (offset port : UInt16) (b : UInt8)
    (w : UInt16) (x : UInt32) (hs : slot < 32) (hf : func < 8) (ho : offset < 256) :
    PciKept d (fn bus slot func) offset.toNat 1 b
        (laihostPciReadb (laihostPciWriteb d seg bus slot func offset b) seg bus slot func offset) ∧
      (offset.toNat % 2 = 0 →
        (PciKept d (fn bus slot func) offset.toNat 2 w
          (laihostPciReadw (laihostPciWritew d seg bus slot func offset w) seg bus slot func offset) ↔
            w < 256)) ∧
        (offset.toNat % 4 = 0 →
          (PciKept d (fn bus slot func) offset.toNat 4 x
            (laihostPciReadd (laihostPciWrited d seg bus slot func offset x) seg bus slot func offset) ↔
              x < 256)) ∧
          laihostInb (laihostOutb d port b) port = b ∧
            (laihostInw (laihostOutw d port w) port = w ↔
              (d.get (port.toNat + 1)).toNat = w.toNat / 256) ∧
              laihostInd (laihostOutd d port x) port = x := by
  refine ⟨?_, fun ha => ?_, fun ha => ?_, laihostInb_outb d port b, ?_, laihostInd_outd d port x⟩
  · exact (pciKept_iff hs hf ho (Or.inl rfl) (Nat.mod_one _) b id rfl).mpr (UInt8.toUInt8_toUInt32 b)
  · rw [← toUInt16_toUInt8]
    exact pciKept_iff hs hf ho (Or.inr (Or.inl rfl)) ha w UInt8.toUInt16 rfl
  · rw [← toUInt32_toUInt8]
    exact pciKept_iff hs hf ho (Or.inr (Or.inr rfl)) ha x UInt8.toUInt32 rfl
  · rw [← UInt16.toNat_inj, laihostInw_outw]
    omega

/-- A device whose ports and configuration space are zero. -/
def blank : Device := ⟨fun _ => 0, 0, fun _ _ => 0⟩

/-- A value below 256 is kept at every width. -/
theorem io_widths_blank :
    PciKept blank (fn 0 1 0) 0x10 1 0x78
        (laihostPciReadb (laihostPciWriteb blank 0 0 1 0 0x10 0x78) 0 0 1 0 0x10) ∧
      PciKept blank (fn 0 1 0) 0x10 2 0x78
        (laihostPciReadw (laihostPciWritew blank 0 0 1 0 0x10 0x78) 0 0 1 0 0x10) ∧
        PciKept blank (fn 0 1 0) 0x10 4 0x78
          (laihostPciReadd (laihostPciWrited blank 0 0 1 0 0x10 0x78) 0 0 1 0 0x10) ∧
          laihostInw (laihostOutw blank 0x60 0x78) 0x60 = 0x78 := by
  obtain ⟨h1, h2, h4, -, hport, -⟩ := io_widths blank 0 0 1 0 0x10 0x60 0x78 0x78 0x78 (by decide)
    (by decide) (by decide)
  exact ⟨h1, (h2 rfl).mpr (by decide), (h4 rfl).mpr (by decide), hport.mpr rfl⟩

/-- A double word in configuration space comes back as its lowest byte, and so does a word that is
written to a port. -/
theorem io_widths_lost :
    (laihostPciReadd (laihostPciWrited blank 0 0 1 0 0x10 0x12345678) 0 0 1 0 0x10).1 = 0x78 ∧
      ¬ PciKept blank (fn 0 1 0) 0x10 4 0x12345678
        (laihostPciReadd (laihostPciWrited blank 0 0 1 0 0x10 0x12345678) 0 0 1 0 0x10) ∧
        laihostInw (laihostOutw blank 0x60 0x1234) 0x60 = 0x34 := by
  have hlost : (laihostPciReadd (laihostPciWrited blank 0 0 1 0 0x10 0x12345678) 0 0 1 0 0x10).1 =
      0x78 := rfl
  refine ⟨hlost, fun h => ?_, rfl⟩
  have hkept := h.1
  rw [hlost] at hkept
  exact absurd hkept (by decide)

end Silkware.HostIo
