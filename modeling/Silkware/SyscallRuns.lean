import Silkware.CtxRuns
import Silkware.Syscall
import Mathlib.Data.List.Basic

/-!
Two executions of `syscall_entry` from the same registers, in kernels at different addresses.

The registers are saved after `rax` and `r10` were loaded with addresses of the kernel, and after
they are restored both are loaded once more: `rax` with the address of `cpu_data`, `r10` with the
`rsp` of the process.
-/

namespace Silkware.SyscallRuns

open Silkware.ByteMem Silkware.Kern Silkware.Ctx Silkware.CtxRuns Silkware.Syscall

/-- Where a kernel has the pointer to `cpu_data`, `cpu_data` itself, and the top of its stack. -/
structure Place where
  gs : ℕ
  cpu : ℕ
  stack : ℕ

/-- The kernel before a system call: its words are in place, and the registers that are saved go
over none of them. -/
structure Ready (w : Place) (m : Mem) : Prop where
  gs : rd m w.gs = w.cpu
  kstack : rd m w.cpu = w.stack
  room : 128 ≤ w.stack
  gs_apart : w.gs + 8 ≤ w.stack - 128 ∨ w.stack ≤ w.gs
  cpu_apart : w.cpu + 8 ≤ w.stack - 128 ∨ w.stack ≤ w.cpu
  apart : w.gs + 8 ≤ w.cpu ∨ w.cpu + 8 ≤ w.gs

/-- The handler returned: it gave the stack back, and left alone what was on it and the two words. -/
structure Handled (w : Place) (c c' : Cpu) : Prop where
  rsp : c'.rsp = c.rsp
  stack : ∀ x, c.rsp ≤ x → x < w.stack → c'.mem x = c.mem x
  gs : rd c'.mem w.gs = rd c.mem w.gs
  kstack : rd c'.mem w.cpu = rd c.mem w.cpu

/-- The CPU when the handler is chosen. -/
def entered (w : Place) (u : UserRegs) (m : Mem) : Cpu := sysExec w.gs (syscall u m) enter

/-- A system call whose handler returns, up to `sysret`. -/
structure Returns (w : Place) (u : UserRegs) (m : Mem) (x : Cpu) : Prop where
  ready : Ready w m
  handler : signed ((entered w u m).reg .rax) ≤ 1
  run : ∃ c, Handled w (entered w u m) c ∧ x = sysExec w.gs c leave

/-- What the process sees after `sysret`: the general registers, `rsp` and `rip`. -/
def seen (x : Cpu) : (Reg → ℕ) × ℕ × ℕ := (x.reg, x.rsp, x.reg .rcx)

/-- All but `rax`, `rcx` and `r11` are as they were. -/
structure Kept (u : UserRegs) (x : Cpu) : Prop where
  reg : ∀ r, r ≠ .rax → r ≠ .rcx → r ≠ .r11 → (seen x).1 r = u.reg r
  rsp : (seen x).2.1 = u.rsp
  rip : (seen x).2.2 = u.rip

variable {w w' : Place} {u : UserRegs} {m m' : Mem} {c x x' : Cpu}

/-! ### The way in -/

/-- The registers that are saved. -/
def entryReg (w : Place) (u : UserRegs) (r : Reg) : ℕ :=
  if r = .r10 then w.stack else if r = .rax then w.cpu else (syscall u (fun _ => 0)).reg r

lemma entryReg_lt (hcpu : w.cpu < 2 ^ 64) (hst : w.stack < 2 ^ 64) (r : Reg) : entryReg w u r < 2 ^ 64 := by
  unfold entryReg syscall
  simp only
  have h1 := u.reg_lt r
  have h2 := u.rip_lt
  have h3 := u.flags_lt
  split
  · exact hst
  · split
    · exact hcpu
    · split
      · exact h2
      · split
        · exact h3
        · exact h1

/-- The words that are pushed. -/
def savedWords (c : Cpu) : List ℕ :=
  [c.rsp, c.reg .rax, c.reg .rbx, c.reg .rcx, c.reg .rdx, c.reg .rsi, c.reg .rdi, c.reg .rbp,
   c.reg .r8, c.reg .r9, c.reg .r10, c.reg .r11, c.reg .r12, c.reg .r13, c.reg .r14, c.reg .r15]

/-- The place of a register among them. -/
lemma savedWords_reg (c : Cpu) (r : Reg) :
    ∃ i, (savedWords c)[i]? = some (c.reg r) ∧ r.off + 8 * (i + 1) = 128 := by
  cases r
  · exact ⟨15, rfl, rfl⟩
  · exact ⟨14, rfl, rfl⟩
  · exact ⟨13, rfl, rfl⟩
  · exact ⟨12, rfl, rfl⟩
  · exact ⟨11, rfl, rfl⟩
  · exact ⟨10, rfl, rfl⟩
  · exact ⟨9, rfl, rfl⟩
  · exact ⟨8, rfl, rfl⟩
  · exact ⟨7, rfl, rfl⟩
  · exact ⟨6, rfl, rfl⟩
  · exact ⟨5, rfl, rfl⟩
  · exact ⟨4, rfl, rfl⟩
  · exact ⟨3, rfl, rfl⟩
  · exact ⟨2, rfl, rfl⟩
  · exact ⟨1, rfl, rfl⟩

/-- The first instructions switch the stacks. -/
def switchStack : List SysInstr :=
  [.ctx (.loadGs .rax), .ctx (.load .r10 .rax kstack), .ctx (.storeRsp .rax kstack), .setRsp .r10]

/-- The rest is pushes. -/
lemma enter_eq (gs : ℕ) (c : Cpu) :
    sysExec gs c enter = pushWords (sysExec gs c switchStack) (savedWords (sysExec gs c switchStack)) := rfl

lemma switchStack_eq (h : Ready w m) :
    sysExec w.gs (syscall u m) switchStack = ⟨entryReg w u, w.stack, wr m w.cpu u.rsp⟩ := by
  have hcpu : w.cpu < 2 ^ 64 := h.gs ▸ rd_lt m w.gs
  have ha : (w.cpu + kstack) % 2 ^ 64 = w.cpu := Nat.mod_eq_of_lt hcpu
  simp only [sysExec, switchStack, syscall, List.foldl_cons, List.foldl_nil, sysStep, step, setReg,
    h.gs, if_true, ha, h.kstack, reduceCtorEq, if_false]
  rfl

/-- What is in memory when the handler is called. -/
lemma entered_spec (h : Ready w m) : (entered w u m).rsp = w.stack - 128 ∧
    (∀ r, rd (entered w u m).mem (w.stack - 128 + r.off) = entryReg w u r) ∧
    rd (entered w u m).mem (w.stack - 8) = w.stack ∧ rd (entered w u m).mem w.cpu = u.rsp ∧
    rd (entered w u m).mem w.gs = w.cpu := by
  have hcpu : w.cpu < 2 ^ 64 := h.gs ▸ rd_lt m w.gs
  have hst : w.stack < 2 ^ 64 := h.kstack ▸ rd_lt m w.cpu
  have hroom := h.room
  have hg := h.gs_apart
  have hc := h.cpu_apart
  have hgc := h.apart
  obtain ⟨c, hc₀⟩ : ∃ c : Cpu, c = ⟨entryReg w u, w.stack, wr m w.cpu u.rsp⟩ := ⟨_, rfl⟩
  have hrsp : c.rsp = w.stack := by rw [hc₀]
  have hlen : (savedWords c).length = 16 := rfl
  obtain ⟨h1, -, h3, h4⟩ := pushWords_spec (c := c) (savedWords c) (by rw [hlen, hrsp]; omega)
    (by rw [hrsp]; exact hst)
  rw [entered, enter_eq, switchStack_eq h, ← hc₀]
  rw [hlen, hrsp] at h1 h3
  rw [hrsp] at h4
  have hword : ∀ i v a, (savedWords c)[i]? = some v → a + 8 * (i + 1) = w.stack → v < 2 ^ 64 →
      rd (pushWords c (savedWords c)).mem a = v := by
    intro i v a hv ha hlt
    obtain ⟨hi, hv'⟩ := List.getElem?_eq_some_iff.mp hv
    rw [show a = w.stack - 8 * (i + 1) by omega, h4 i hi, hv', Nat.mod_eq_of_lt hlt]
  have hout : ∀ a, a + 8 ≤ w.stack - 128 ∨ w.stack ≤ a →
      rd (pushWords c (savedWords c)).mem a = rd (wr m w.cpu u.rsp) a := by
    intro a ha
    rw [rd_congr (m := c.mem) fun x hx1 hx2 => h3 x (by omega), hc₀]
  refine ⟨h1, fun r => ?_, ?_, ?_, ?_⟩
  · obtain ⟨i, hv, ho⟩ := savedWords_reg c r
    have hreg : c.reg r = entryReg w u r := by rw [hc₀]
    rw [← hreg]
    exact hword i _ _ hv (by omega) (by rw [hreg]; exact entryReg_lt hcpu hst r)
  · refine hword 0 _ _ ?_ (by omega) hst
    rw [← hrsp]
    rfl
  · rw [hout _ hc, rd_wr_same u.rsp_lt]
  · rw [hout _ hg, rd_wr_sep (by omega), h.gs]

/-! ### The way out -/

/-- A row of `pop`s. -/
lemma exec_pops (gs : ℕ) {rs : List Reg} (hrs : rs.Nodup) (c : Cpu) (h : c.rsp + 8 * rs.length < 2 ^ 64) :
    sysExec gs c (rs.map .pop) = ⟨fun r => if r ∈ rs then rd c.mem (c.rsp + 8 * rs.idxOf r) else c.reg r,
      c.rsp + 8 * rs.length, c.mem⟩ := by
  induction rs generalizing c with
  | nil => simp [sysExec]
  | cons r rs ih =>
    rw [List.length_cons] at h ⊢
    obtain ⟨hr, hnd⟩ := List.nodup_cons.mp hrs
    obtain ⟨c₁, hc₁⟩ : ∃ c₁, c₁ = sysStep gs c (.pop r) := ⟨_, rfl⟩
    have hrsp : c₁.rsp = c.rsp + 8 := by
      rw [hc₁]
      exact Nat.mod_eq_of_lt (by omega)
    have hmem : c₁.mem = c.mem := by rw [hc₁]; rfl
    have hreg : ∀ r', c₁.reg r' = if r' = r then rd c.mem c.rsp else c.reg r' := fun r' => by
      rw [hc₁]
      rfl
    have he : sysExec gs c ((r :: rs).map .pop) = sysExec gs c₁ (rs.map .pop) := by
      rw [hc₁]
      rfl
    rw [he, ih hnd c₁ (by omega), hrsp, hmem]
    congr 1
    · funext r'
      rw [hreg]
      by_cases h1 : r' = r
      · simp [h1, hr]
      · by_cases h2 : r' ∈ rs
        · have h3 : r' ∈ r :: rs := List.mem_cons_of_mem _ h2
          rw [if_pos h2, if_pos h3, List.idxOf_cons_ne rs (Ne.symm h1)]
          congr 1
          omega
        · have h3 : r' ∉ r :: rs := fun hm => (List.mem_cons.mp hm).elim h1 h2
          rw [if_neg h2, if_neg h3, if_neg h1]
    · omega

lemma popall_eq : popall = fields.map .pop := rfl

lemma off_eq (r : Reg) : 8 * fields.idxOf r = r.off := by cases r <;> rfl

lemma mem_fields (r : Reg) : r ∈ fields := by cases r <;> decide

/-- The last instructions switch the stacks back. -/
def switchBack : List SysInstr :=
  [.popRsp, .ctx (.loadGs .rax), .ctx (.load .r10 .rax kstack), .ctx (.storeRsp .rax kstack),
   .setRsp .r10, .movImm .r11 0x202]

lemma switchBack_spec (gs : ℕ) (c : Cpu) :
    (sysExec gs c switchBack).rsp = rd c.mem ((rd c.mem gs + kstack) % 2 ^ 64) ∧
    ∀ r, (sysExec gs c switchBack).reg r = if r = .r11 then 0x202
      else if r = .r10 then rd c.mem ((rd c.mem gs + kstack) % 2 ^ 64)
      else if r = .rax then rd c.mem gs else c.reg r := ⟨rfl, fun _ => rfl⟩

lemma leave_eq (gs : ℕ) (c : Cpu) :
    sysExec gs c leave = sysExec gs (sysExec gs c popall) switchBack := by
  rw [sysExec, sysExec, sysExec, ← List.foldl_append]
  rfl

/-- What the process sees: `rax` is the address of `cpu_data`, `r10` its own `rsp`. -/
lemma Returns.spec (h : Returns w u m x) : x.rsp = u.rsp ∧ ∀ r, x.reg r =
    if r = .r11 then 0x202 else if r = .r10 then u.rsp else if r = .rax then w.cpu
    else if r = .rcx then u.rip else u.reg r := by
  have hroom := h.ready.room
  have hcpu : w.cpu < 2 ^ 64 := h.ready.gs ▸ rd_lt m w.gs
  have hst : w.stack < 2 ^ 64 := h.ready.kstack ▸ rd_lt m w.cpu
  obtain ⟨h1, h2, -, h4, h5⟩ := entered_spec (u := u) h.ready
  obtain ⟨c, hc, rfl⟩ := h.run
  have hrsp : c.rsp = w.stack - 128 := hc.rsp.trans h1
  have hlen : fields.length = 15 := rfl
  have hpops := exec_pops w.gs (show fields.Nodup by decide) c (by rw [hlen, hrsp]; omega)
  have hgs : rd c.mem w.gs = w.cpu := hc.gs.trans h5
  have haddr : (w.cpu + kstack) % 2 ^ 64 = w.cpu := Nat.mod_eq_of_lt hcpu
  have huser : rd c.mem w.cpu = u.rsp := hc.kstack.trans h4
  have hsaved : ∀ r, rd c.mem (c.rsp + 8 * fields.idxOf r) = entryReg w u r := by
    intro r
    have hoff := off_le r
    rw [← h2 r, off_eq, hrsp]
    exact rd_congr fun a ha hb => hc.stack a (by omega) (by omega)
  simp only [← popall_eq, if_pos (mem_fields _), hsaved] at hpops
  obtain ⟨hback, hregs⟩ := switchBack_spec w.gs (sysExec w.gs c popall)
  rw [← leave_eq] at hback hregs
  simp only [hpops, hgs, haddr, huser] at hback hregs
  refine ⟨hback, fun r => ?_⟩
  rw [hregs r]
  unfold entryReg syscall
  by_cases h11 : r = .r11
  · rw [if_pos h11, if_pos h11]
  · by_cases h10 : r = .r10
    · rw [if_neg h11, if_neg h11, if_pos h10, if_pos h10]
    · simp only [if_neg h11, if_neg h10]
      split <;> rfl

/-! ### Two executions -/

/-- **A system call hides the kernel's addresses and keeps the registers** just where the two
`cpu_data` are at the same address and `r10` was equal to `rsp`. -/
theorem syscall_hides_iff (h : Returns w u m x) (h' : Returns w' u m' x') :
    seen x = seen x' ∧ Kept u x ↔ w.cpu = w'.cpu ∧ u.reg .r10 = u.rsp := by
  obtain ⟨h1, h2⟩ := h.spec
  obtain ⟨h1', h2'⟩ := h'.spec
  constructor
  · rintro ⟨hseen, hkept⟩
    refine ⟨?_, ?_⟩
    · have := congrFun (congrArg Prod.fst hseen) .rax
      simpa only [seen, h2, h2', reduceCtorEq, if_false, if_true] using this
    · have := hkept.reg .r10 nofun nofun nofun
      simpa only [seen, h2, reduceCtorEq, if_false, if_true, eq_comm] using this
  · rintro ⟨hcpu, h10⟩
    refine ⟨?_, fun r hax hcx h11 => ?_, h1, ?_⟩
    · have hreg : x.reg = x'.reg := funext fun r => by rw [h2, h2', hcpu]
      rw [seen, seen, hreg, h1, h1']
    · simp only [seen, h2, if_neg hax, if_neg hcx, if_neg h11]
      split
      · rename_i hr
        rw [hr, h10]
      · rfl
    · simp only [seen, h2, reduceCtorEq, if_false, if_true]

/-! ### A kernel at two addresses -/

/-- `cpu_data` at two places, with a stack of its own. -/
def placeAt (cpu : ℕ) : Place := ⟨0xFFFFFFFF80004000, cpu, cpu + 0x8000⟩

/-- Its words in memory. -/
def memAt (cpu : ℕ) : Mem := wr (wr (fun _ => 0) 0xFFFFFFFF80004000 cpu) cpu (cpu + 0x8000)

lemma ready_at {cpu : ℕ} (h1 : 0xFFFFFFFF80010000 ≤ cpu) (h2 : cpu + 0x8000 < 2 ^ 64) :
    Ready (placeAt cpu) (memAt cpu) := by
  refine ⟨?_, rd_wr_same h2, ?_, ?_, ?_, ?_⟩
  · change rd (memAt cpu) 0xFFFFFFFF80004000 = cpu
    rw [memAt, rd_wr_sep (by omega), rd_wr_same (by omega)]
  all_goals
    simp only [placeAt]
    omega

/-- A handler that does nothing. -/
lemma returns_at (u : UserRegs) {cpu : ℕ} (h1 : 0xFFFFFFFF80010000 ≤ cpu) (h2 : cpu + 0x8000 < 2 ^ 64) :
    Returns (placeAt cpu) u (memAt cpu)
      (sysExec (placeAt cpu).gs (entered (placeAt cpu) u (memAt cpu)) leave) := by
  have hr := ready_at h1 h2
  refine ⟨hr, ?_, _, ⟨rfl, fun _ _ _ => rfl, rfl, rfl⟩, rfl⟩
  rw [entered, enter_rax, hr.gs]
  exact (signed_le_one (show cpu < 2 ^ 64 by omega)).mpr (Or.inr (by omega))

theorem syscall_hides_same : seen (sysExec (placeAt 0xFFFFFFFF80010000).gs
      (entered (placeAt 0xFFFFFFFF80010000) zeroRegs (memAt 0xFFFFFFFF80010000)) leave) =
    seen (sysExec (placeAt 0xFFFFFFFF80020000).gs
      (entered (placeAt 0xFFFFFFFF80020000) zeroRegs (memAt 0xFFFFFFFF80020000)) leave) ∧
    Kept zeroRegs (sysExec (placeAt 0xFFFFFFFF80010000).gs
      (entered (placeAt 0xFFFFFFFF80010000) zeroRegs (memAt 0xFFFFFFFF80010000)) leave) ↔
    (placeAt 0xFFFFFFFF80010000).cpu = (placeAt 0xFFFFFFFF80020000).cpu ∧
      zeroRegs.reg .r10 = zeroRegs.rsp :=
  syscall_hides_iff (returns_at zeroRegs (by decide) (by decide))
    (returns_at zeroRegs (by decide) (by decide))

/-- From the same registers the process sees two addresses of the kernel. -/
theorem cpu_data_leaks : ∃ x x', Returns (placeAt 0xFFFFFFFF80010000) zeroRegs (memAt 0xFFFFFFFF80010000) x ∧
    Returns (placeAt 0xFFFFFFFF80020000) zeroRegs (memAt 0xFFFFFFFF80020000) x' ∧
    (seen x).1 .rax = 0xFFFFFFFF80010000 ∧ (seen x').1 .rax = 0xFFFFFFFF80020000 := by
  have h : Returns (placeAt 0xFFFFFFFF80010000) zeroRegs (memAt 0xFFFFFFFF80010000) _ :=
    returns_at zeroRegs (by decide) (by decide)
  have h' : Returns (placeAt 0xFFFFFFFF80020000) zeroRegs (memAt 0xFFFFFFFF80020000) _ :=
    returns_at zeroRegs (by decide) (by decide)
  exact ⟨_, _, h, h', h.spec.2 .rax, h'.spec.2 .rax⟩

end Silkware.SyscallRuns
