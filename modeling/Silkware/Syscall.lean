import Silkware.Ctx

/-!
System calls: `syscall_entry` of `syscall_.asm`.

Before the comparison that chooses the handler, `rax` is loaded with the address of `cpu_data`, and
the number that the process left there is lost. The comparison is signed, so an address in the
upper half passes for a small number.
-/

namespace Silkware.Syscall

open Silkware.ByteMem Silkware.Kern Silkware.Ctx

/-- The instructions of `syscall_entry`, those of the interrupt path among them. -/
inductive SysInstr
  | ctx (i : Instr)
  /-- `push rsp` -/
  | pushRsp
  /-- `pop r` -/
  | pop (r : Reg)
  /-- `pop rsp` -/
  | popRsp
  /-- `mov rsp, r` -/
  | setRsp (r : Reg)
  /-- `mov d, v` -/
  | movImm (d : Reg) (v : ℕ)

def sysStep (gs : ℕ) (c : Cpu) : SysInstr → Cpu
  | .ctx i => step gs c i
  | .pushRsp => pushWord c c.rsp
  | .pop r => { setReg c r (rd c.mem c.rsp) with rsp := (c.rsp + 8) % 2 ^ 64 }
  | .popRsp => { c with rsp := rd c.mem c.rsp }
  | .setRsp r => { c with rsp := c.reg r }
  | .movImm d v => setReg c d v

def sysExec (gs : ℕ) (c : Cpu) (p : List SysInstr) : Cpu := p.foldl (sysStep gs) c

/-- The macro `popall`. -/
def popall : List SysInstr :=
  [.pop .r15, .pop .r14, .pop .r13, .pop .r12, .pop .r11, .pop .r10, .pop .r9, .pop .r8, .pop .rbp,
   .pop .rdi, .pop .rsi, .pop .rdx, .pop .rcx, .pop .rbx, .pop .rax]

/-- `syscall_entry` up to the comparison. -/
def enter : List SysInstr :=
  [.ctx (.loadGs .rax), .ctx (.load .r10 .rax kstack), .ctx (.storeRsp .rax kstack), .setRsp .r10,
   .pushRsp] ++ pushall.map .ctx

/-- `syscall_entry` after the call of the handler, up to `sysret`. -/
def leave : List SysInstr :=
  popall ++ [.popRsp, .ctx (.loadGs .rax), .ctx (.load .r10 .rax kstack),
    .ctx (.storeRsp .rax kstack), .setRsp .r10, .movImm .r11 0x202]

/-- `syscall`: `rip` goes to `rcx` and the flags to `r11`; the stack is still the process's. -/
def syscall (u : UserRegs) (m : Mem) : Cpu :=
  ⟨fun r => if r = .rcx then u.rip else if r = .r11 then u.flags else u.reg r, u.rsp, m⟩

/-- A word as `jle` reads it. -/
def signed (v : ℕ) : ℤ := if v < 2 ^ 63 then v else v - 2 ^ 64

/-- A call through the word at an address, or of `syscall_inval`, which panics. -/
inductive Call
  | table (a : ℕ)
  | inval
  deriving DecidableEq

/-- `cmp rax, 1`, `jle .cont`, and the call after either; `jmpTab` is the address of `jmp_tab`. -/
def dispatch (jmpTab : ℕ) (c : Cpu) : Call :=
  if signed (c.reg .rax) ≤ 1 then .table ((jmpTab + 8 * c.reg .rax) % 2 ^ 64) else .inval

/-- What `syscall_entry` calls. -/
def called (gs jmpTab : ℕ) (u : UserRegs) (m : Mem) : Call :=
  dispatch jmpTab (sysExec gs (syscall u m) enter)

/-- What the number asks for: one of the two entries of the table, or `syscall_inval`. -/
def asked (jmpTab n : ℕ) : Call := if n ≤ 1 then .table (jmpTab + 8 * n) else .inval

variable {gs jmpTab n cpu : ℕ} {u : UserRegs} {m : Mem}

/-! ### Dispatch -/

lemma signed_le_one {v : ℕ} (h : v < 2 ^ 64) : signed v ≤ 1 ↔ v ≤ 1 ∨ 2 ^ 63 ≤ v := by
  unfold signed
  split <;> omega

/-- The comparison is with the word at `gs`. -/
lemma enter_rax (gs : ℕ) (u : UserRegs) (m : Mem) :
    (sysExec gs (syscall u m) enter).reg .rax = rd m gs := rfl

/-- The address of `cpu_data`, taken for a number, leads to the call that `n` asks for; in the
table, eight times the address counts modulo `2 ^ 64`. -/
def LeadsTo (cpu n : ℕ) : Prop :=
  n ≤ 1 ∧ (cpu ≤ 1 ∨ 2 ^ 63 ≤ cpu) ∧ cpu % 2 ^ 61 = n ∨ 2 ≤ n ∧ 2 ≤ cpu ∧ cpu < 2 ^ 63

/-- **A system call is dispatched by its number** just where the address of `cpu_data` leads to the
same call. -/
theorem dispatch_iff (gs : ℕ) (u : UserRegs) (m : Mem) (hj : jmpTab + 16 ≤ 2 ^ 64) :
    called gs jmpTab u m = asked jmpTab (u.reg .rax) ↔ LeadsTo (rd m gs) (u.reg .rax) := by
  have hcpu := rd_lt m gs
  have hn := u.reg_lt .rax
  unfold called dispatch asked LeadsTo
  rw [enter_rax]
  generalize rd m gs = cpu at hcpu
  generalize u.reg .rax = n at hn
  have hsigned := signed_le_one hcpu
  by_cases hjle : signed cpu ≤ 1 <;> by_cases h1 : n ≤ 1
  · rw [if_pos hjle, if_pos h1, Call.table.injEq]
    have := hsigned.mp hjle
    omega
  · rw [if_pos hjle, if_neg h1]
    have := hsigned.mp hjle
    exact iff_of_false nofun (by omega)
  · rw [if_neg hjle, if_pos h1]
    have := mt hsigned.mpr hjle
    exact iff_of_false nofun (by omega)
  · rw [if_neg hjle, if_neg h1]
    have := mt hsigned.mpr hjle
    exact iff_of_true rfl (by omega)

/-- In the upper half, where the kernel is, the call goes beyond the table, whatever the number. -/
theorem dispatch_upper (u : UserRegs) (hcpu : 0xFFFF800000000000 ≤ rd m gs) :
    ∃ a, called gs jmpTab u m = .table a ∧ a ≠ jmpTab ∧ a ≠ jmpTab + 8 := by
  have hlt := rd_lt m gs
  unfold called dispatch
  rw [enter_rax]
  generalize rd m gs = cpu at hcpu hlt
  rw [if_pos ((signed_le_one hlt).mpr (Or.inr (by omega)))]
  exact ⟨_, rfl, by omega, by omega⟩

/-- Registers of a process that are all zero, and so a call of `syscall_test`. -/
def zeroRegs : UserRegs :=
  ⟨fun _ => 0, 0, 0, 0, fun _ => by decide, by decide, by decide, by decide⟩

theorem dispatch_iff_zero :
    called 0x1000 0x2000 zeroRegs (wr (fun _ => 0) 0x1000 0xFFFFFFFF80010000) =
      asked 0x2000 (zeroRegs.reg .rax) ↔
    LeadsTo (rd (wr (fun _ => 0) 0x1000 0xFFFFFFFF80010000) 0x1000) (zeroRegs.reg .rax) :=
  dispatch_iff _ _ _ (by decide)

/-- `syscall_test` is asked for, and the call goes through a word below the table. -/
theorem test_not_called :
    called 0x1000 0xFFFFFFFF80002000 zeroRegs (wr (fun _ => 0) 0x1000 0xFFFFFFFF80010000) =
      .table 0xFFFFFFFB80082000 ∧
    called 0x1000 0xFFFFFFFF80002000 zeroRegs (wr (fun _ => 0) 0x1000 0xFFFFFFFF80010000) ≠
      asked 0xFFFFFFFF80002000 (zeroRegs.reg .rax) := by
  have hrd : rd (wr (fun _ => 0) 0x1000 0xFFFFFFFF80010000) 0x1000 = 0xFFFFFFFF80010000 :=
    rd_wr_same (by decide)
  have hcall : called 0x1000 0xFFFFFFFF80002000 zeroRegs (wr (fun _ => 0) 0x1000 0xFFFFFFFF80010000) =
      .table 0xFFFFFFFB80082000 := by
    rw [called, dispatch, enter_rax, hrd]
    decide
  refine ⟨hcall, ?_⟩
  rw [hcall]
  decide

end Silkware.Syscall
