import Silkware.ByteMem
import Silkware.Kern

/-!
Context switches: the interrupt stub of `isr.asm`, `ctx_switch` of `ctx.c` and
`return_user_.asm`, over the few instructions that they use.

The kernel's memory is mapped at the same addresses in every address space, so it is one
memory here.
-/

namespace Silkware.Ctx

open Silkware.ByteMem Silkware.Kern

/-- The registers of `struct regs`. -/
inductive Reg
  | r15 | r14 | r13 | r12 | r11 | r10 | r9 | r8 | rbp | rdi | rsi | rdx | rcx | rbx | rax
  deriving DecidableEq

/-- `regs_t`: where a register is stored. -/
def Reg.off : Reg → ℕ
  | .r15 => 0 | .r14 => 8 | .r13 => 16 | .r12 => 24 | .r11 => 32 | .r10 => 40 | .r9 => 48
  | .r8 => 56 | .rbp => 64 | .rdi => 72 | .rsi => 80 | .rdx => 88 | .rcx => 96 | .rbx => 104
  | .rax => 112

/-- The fields of `struct regs`, in order. -/
def fields : List Reg :=
  [.r15, .r14, .r13, .r12, .r11, .r10, .r9, .r8, .rbp, .rdi, .rsi, .rdx, .rcx, .rbx, .rax]

/-- The registers of a process. -/
@[ext]
structure UserRegs where
  reg : Reg → ℕ
  rsp : ℕ
  rip : ℕ
  flags : ℕ
  reg_lt : ∀ r, reg r < 2 ^ 64
  rsp_lt : rsp < 2 ^ 64
  rip_lt : rip < 2 ^ 64
  flags_lt : flags < 2 ^ 64

/-- A CPU that runs in the kernel. -/
structure Cpu where
  reg : Reg → ℕ
  rsp : ℕ
  mem : Mem

/-! ### Offsets of `mp.inc` and `arch/proc.h` -/

/-- `proc_state_t.rsp` -/
def stateRsp : ℕ := 120

/-- `proc_state_t.rip` -/
def stateRip : ℕ := 128

/-- `proc_state_t.flags` -/
def stateFlags : ℕ := 136

/-- `cpu_data_t.kstack` -/
def kstack : ℕ := 0

/-- `cpu_data_t.proc_state`, which is `proc_current`. -/
def procCurrent : ℕ := 8

/-- `irq_frame.num` -/
def frameNum : ℕ := 120

/-- `irq_frame.ip` -/
def frameIp : ℕ := 136

/-- `irq_frame.flags` -/
def frameFlags : ℕ := 152

/-- `irq_frame.sp` -/
def frameSp : ℕ := 160

/-! ### Instructions -/

inductive Instr
  /-- `push r` -/
  | push (r : Reg)
  /-- `push v` -/
  | pushImm (v : ℕ)
  /-- `mov d, [b + off]` -/
  | load (d b : Reg) (off : ℕ)
  /-- `mov d, [gs:0]` -/
  | loadGs (d : Reg)
  /-- `mov [b + off], rsp` -/
  | storeRsp (b : Reg) (off : ℕ)
  /-- `mov d, rsp` -/
  | movRsp (d : Reg)
  /-- `mov ax, v` -/
  | movAx (v : ℕ)
  /-- `mov ds, ax`, `mov es, ax` and `cld`, which leave these registers and memory alone. -/
  | other

def setReg (c : Cpu) (d : Reg) (v : ℕ) : Cpu :=
  { c with reg := fun r => if r = d then v else c.reg r }

def pushWord (c : Cpu) (v : ℕ) : Cpu :=
  { c with rsp := sub64 c.rsp 8, mem := wr c.mem (sub64 c.rsp 8) v }

/-- One instruction; `gs` is the base of the segment. -/
def step (gs : ℕ) (c : Cpu) : Instr → Cpu
  | .push r => pushWord c (c.reg r)
  | .pushImm v => pushWord c v
  | .load d b off => setReg c d (rd c.mem ((c.reg b + off) % 2 ^ 64))
  | .loadGs d => setReg c d (rd c.mem gs)
  | .storeRsp b off => { c with mem := wr c.mem ((c.reg b + off) % 2 ^ 64) c.rsp }
  | .movRsp d => setReg c d c.rsp
  | .movAx v => setReg c .rax (c.reg .rax - c.reg .rax % 2 ^ 16 + v)
  | .other => c

def exec (gs : ℕ) (c : Cpu) (p : List Instr) : Cpu := p.foldl (step gs) c

/-- The macro `pushall`. -/
def pushall : List Instr :=
  [.push .rax, .push .rbx, .push .rcx, .push .rdx, .push .rsi, .push .rdi, .push .rbp, .push .r8,
   .push .r9, .push .r10, .push .r11, .push .r12, .push .r13, .push .r14, .push .r15]

/-- `isr32` up to the call of `isr_handle`. -/
def isr32 : List Instr := [.pushImm 0, .pushImm 32] ++ pushall ++ [.other, .movRsp .rdi]

/-- The macro `restore`. -/
def restore (r : Reg) : Instr := .load r .rax r.off

/-- `return_user_` after its call of `lapic_eoi`, up to `iretq`. -/
def returnUser : List Instr :=
  [.movAx 0x1B, .other, .other, .pushImm 0x1B, .loadGs .rax, .load .rax .rax procCurrent,
   .load .rbx .rax stateRsp, .push .rbx, .load .rbx .rax stateFlags, .push .rbx, .pushImm 0x23,
   .load .rbx .rax stateRip, .push .rbx, .loadGs .rax, .storeRsp .rax kstack] ++
  [restore .r15, restore .r14, restore .r13, restore .r12, restore .r11, restore .r10, restore .r9,
   restore .r8, restore .rbp, restore .rdi, restore .rsi, restore .rdx, restore .rcx, restore .rbx,
   restore .rax]

/-- What the processor pushes when an interrupt comes in user mode: `ss`, `rsp`, `rflags`,
`cs` and `rip`, on the stack whose top is `rsp0`. -/
def interrupt (rsp0 : ℕ) (u : UserRegs) (m : Mem) : Cpu :=
  pushWord (pushWord (pushWord (pushWord (pushWord ⟨u.reg, rsp0, m⟩ 0x1B) u.rsp) u.flags) 0x23) u.rip

/-- `iretq`: the registers, `rip`, `rflags` and `rsp` of the process. -/
def iretq (c : Cpu) : (Reg → ℕ) × ℕ × ℕ × ℕ :=
  (c.reg, rd c.mem c.rsp, rd c.mem (c.rsp + 16), rd c.mem (c.rsp + 24))

/-! ### `ctx_switch` -/

/-- `p->arch_state = irq2state(frame)` -/
def saveState (m : Mem) (frame p : ℕ) : Mem :=
  let m' := fields.foldl (fun m' r => wr m' (p + r.off) (rd m (frame + r.off))) m
  wr (wr (wr m' (p + stateRsp) (rd m (frame + frameSp))) (p + stateRip) (rd m (frame + frameIp)))
    (p + stateFlags) (rd m (frame + frameFlags))

/-- The first part of `ctx_switch`; `cpu` is the address of `cpu_data`. -/
def ctxSave (m : Mem) (cpu frame : ℕ) : Mem :=
  let p := rd m (cpu + procCurrent)
  if p ≠ 0 ∧ frame ≠ 0 then saveState m frame p else m

/-- `isr_handle`, up to where `ctx_switch` calls `proc_next`. -/
def isrHandle (schedReady : Bool) (m : Mem) (cpu frame : ℕ) : Mem :=
  if rd m (frame + frameNum) = 32 ∧ schedReady then ctxSave m cpu frame else m

end Silkware.Ctx
