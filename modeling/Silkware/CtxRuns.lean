import Silkware.Ctx

/-!
A process from the timer interrupt that preempts it to the `iretq` that resumes it.

`return_user_` takes `rsp`, `rip` and the flags from the state of the process, but then reloads
`rax` with the address of `cpu_data`, and takes the general registers from there.
-/

namespace Silkware.CtxRuns

open Silkware.ByteMem Silkware.Kern Silkware.Ctx

/-- Where a CPU finds things: the base of `gs`, its `cpu_data`, its kernel stack, and the
processes on its queues. -/
structure World where
  gs : ℕ
  cpu : ℕ
  lo : ℕ
  hi : ℕ
  procs : ℕ → Prop

/-- These do not overlap. `return_user_` reads 120 bytes from `cpu_data` on. -/
structure Layout (w : World) : Prop where
  stack : w.lo + 256 ≤ w.hi ∧ w.hi < 2 ^ 64
  cpu : w.cpu + 120 < 2 ^ 64 ∧ (w.cpu + 120 ≤ w.lo ∨ w.hi ≤ w.cpu)
  gs : (w.gs + 8 ≤ w.lo ∨ w.hi ≤ w.gs) ∧ (w.gs + 8 ≤ w.cpu ∨ w.cpu + 8 ≤ w.gs)
  proc : ∀ p, w.procs p → 0 < p ∧ p + 144 < 2 ^ 64 ∧ (p + 144 ≤ w.lo ∨ w.hi ≤ p) ∧
    (p + 144 ≤ w.cpu ∨ w.cpu + 16 ≤ p) ∧ (p + 144 ≤ w.gs ∨ w.gs + 8 ≤ p)
  apart : ∀ p q, w.procs p → w.procs q → p ≠ q → p + 144 ≤ q ∨ q + 144 ≤ p

/-! ### The interrupt -/

/-- Push words one after the other. -/
def pushWords (c : Cpu) (vs : List ℕ) : Cpu := vs.foldl pushWord c

lemma pushWords_cons (c : Cpu) (v : ℕ) (vs : List ℕ) :
    pushWords c (v :: vs) = pushWords (pushWord c v) vs := List.foldl_cons ..

lemma pushWord_spec {c : Cpu} (v : ℕ) (h : 8 ≤ c.rsp) (hlt : c.rsp < 2 ^ 64) :
    (pushWord c v).rsp = c.rsp - 8 ∧ (pushWord c v).reg = c.reg ∧
      (pushWord c v).mem = wr c.mem (c.rsp - 8) v := by
  unfold pushWord
  rw [sub64_eq h hlt]
  exact ⟨rfl, rfl, rfl⟩

lemma pushWords_spec {c : Cpu} (vs : List ℕ) (h : 8 * vs.length ≤ c.rsp) (hlt : c.rsp < 2 ^ 64) :
    (pushWords c vs).rsp = c.rsp - 8 * vs.length ∧ (pushWords c vs).reg = c.reg ∧
      (∀ x, x < c.rsp - 8 * vs.length ∨ c.rsp ≤ x → (pushWords c vs).mem x = c.mem x) ∧
      ∀ i (hi : i < vs.length), rd (pushWords c vs).mem (c.rsp - 8 * (i + 1)) = vs[i] % 2 ^ 64 := by
  induction vs generalizing c with
  | nil => exact ⟨rfl, rfl, fun _ _ => rfl, fun i hi => by cases hi⟩
  | cons v vs ih =>
    simp only [List.length_cons] at h ⊢
    rw [pushWords_cons]
    obtain ⟨hr, hreg, hm⟩ := pushWord_spec (c := c) v (by omega) hlt
    generalize pushWord c v = c' at hr hreg hm ⊢
    obtain ⟨h1, h2, h3, h4⟩ := ih (c := c') (by omega) (by omega)
    rw [hr] at h1 h3 h4
    refine ⟨h1.trans (by omega), h2.trans hreg, fun x hx => ?_, fun i hi => ?_⟩
    · rw [h3 x (by omega), hm, wr_out (by omega)]
    · cases i with
      | zero =>
        rw [rd_congr (m := c'.mem) (fun x hx1 hx2 => h3 x (by omega)), hm]
        exact rd_wr_mod _ _ _
      | succ i =>
        rw [show c.rsp - 8 * (i + 1 + 1) = c.rsp - 8 - 8 * (i + 1) by omega]
        exact h4 i (by omega)

/-- The words on the stack when `isr_handle` is called. -/
def frameWords (u : UserRegs) : List ℕ :=
  [0x1B, u.rsp, u.flags, 0x23, u.rip, 0, 32, u.reg .rax, u.reg .rbx, u.reg .rcx, u.reg .rdx,
   u.reg .rsi, u.reg .rdi, u.reg .rbp, u.reg .r8, u.reg .r9, u.reg .r10, u.reg .r11, u.reg .r12,
   u.reg .r13, u.reg .r14, u.reg .r15]

lemma exec_isr32 (gs hi : ℕ) (u : UserRegs) (m : Mem) :
    exec gs (interrupt hi u m) isr32 = setReg (pushWords ⟨u.reg, hi, m⟩ (frameWords u)) .rdi
      (pushWords ⟨u.reg, hi, m⟩ (frameWords u)).rsp := rfl

/-- The place of a register among the words. -/
lemma frameWords_reg (u : UserRegs) (r : Reg) :
    ∃ i, (frameWords u)[i]? = some (u.reg r) ∧ r.off + 8 * (i + 1) = 176 := by
  cases r
  · exact ⟨21, rfl, rfl⟩
  · exact ⟨20, rfl, rfl⟩
  · exact ⟨19, rfl, rfl⟩
  · exact ⟨18, rfl, rfl⟩
  · exact ⟨17, rfl, rfl⟩
  · exact ⟨16, rfl, rfl⟩
  · exact ⟨15, rfl, rfl⟩
  · exact ⟨14, rfl, rfl⟩
  · exact ⟨13, rfl, rfl⟩
  · exact ⟨12, rfl, rfl⟩
  · exact ⟨11, rfl, rfl⟩
  · exact ⟨10, rfl, rfl⟩
  · exact ⟨9, rfl, rfl⟩
  · exact ⟨8, rfl, rfl⟩
  · exact ⟨7, rfl, rfl⟩

/-- A frame at `f` that holds the registers of the process. -/
structure Frame (m : Mem) (f : ℕ) (u : UserRegs) : Prop where
  reg : ∀ r, rd m (f + r.off) = u.reg r
  num : rd m (f + frameNum) = 32
  ip : rd m (f + frameIp) = u.rip
  flags : rd m (f + frameFlags) = u.flags
  sp : rd m (f + frameSp) = u.rsp

/-- The stub builds an `irq_frame` of the process's registers, and passes it on. -/
lemma isr32_frame (gs : ℕ) {hi : ℕ} {u : UserRegs} {m : Mem} (h : 176 ≤ hi) (hlt : hi < 2 ^ 64) :
    (exec gs (interrupt hi u m) isr32).reg .rdi = hi - 176 ∧
      (∀ x, x < hi - 176 ∨ hi ≤ x → (exec gs (interrupt hi u m) isr32).mem x = m x) ∧
      Frame (exec gs (interrupt hi u m) isr32).mem (hi - 176) u := by
  rw [exec_isr32]
  obtain ⟨vs, hvs⟩ : ∃ vs, vs = frameWords u := ⟨_, rfl⟩
  have hlen : vs.length = 22 := by rw [hvs]; rfl
  obtain ⟨h1, -, h3, h4⟩ := pushWords_spec (c := ⟨u.reg, hi, m⟩) vs (by rw [hlen]; exact h) hlt
  rw [← hvs]
  generalize pushWords ⟨u.reg, hi, m⟩ vs = c at h1 h3 h4 ⊢
  simp only [hlen] at h1 h3
  have hw : ∀ i v, ∀ a, vs[i]? = some v → a + 8 * (i + 1) = hi → v < 2 ^ 64 → rd c.mem a = v := by
    intro i v a hv ha hlt
    obtain ⟨hi', hv'⟩ := List.getElem?_eq_some_iff.mp hv
    rw [show a = hi - 8 * (i + 1) by omega, h4 i hi', hv', Nat.mod_eq_of_lt hlt]
  refine ⟨by simpa [setReg] using h1, h3, fun r => ?_, ?_, ?_, ?_, ?_⟩
  · obtain ⟨i, hv, ho⟩ := frameWords_reg u r
    exact hw i _ _ (by rw [hvs]; exact hv) (by omega) (u.reg_lt r)
  · exact hw 6 _ _ (by rw [hvs]; rfl) (by unfold frameNum; omega) (by omega)
  · exact hw 4 _ _ (by rw [hvs]; rfl) (by unfold frameIp; omega) u.rip_lt
  · exact hw 2 _ _ (by rw [hvs]; rfl) (by unfold frameFlags; omega) u.flags_lt
  · exact hw 1 _ _ (by rw [hvs]; rfl) (by unfold frameSp; omega) u.rsp_lt

/-! ### Saving the state -/

/-- The state of the process at `p` holds the registers. -/
structure Saved (m : Mem) (p : ℕ) (u : UserRegs) : Prop where
  reg : ∀ r, rd m (p + r.off) = u.reg r
  rsp : rd m (p + stateRsp) = u.rsp
  rip : rd m (p + stateRip) = u.rip
  flags : rd m (p + stateFlags) = u.flags

lemma off_le (r : Reg) : r.off ≤ 112 := by cases r <;> decide

lemma Saved.congr {m m' : Mem} {p : ℕ} {u : UserRegs} (h : Saved m p u)
    (hm : ∀ x, p ≤ x → x < p + 144 → m' x = m x) : Saved m' p u := by
  have hrd : ∀ o, o ≤ 136 → rd m' (p + o) = rd m (p + o) :=
    fun o ho => rd_congr fun x h1 h2 => hm x (by omega) (by omega)
  refine ⟨fun r => ?_, ?_, ?_, ?_⟩
  · have := off_le r
    rw [hrd _ (by omega), h.reg r]
  · rw [hrd _ (by decide), h.rsp]
  · rw [hrd _ (by decide), h.rip]
  · rw [hrd _ (by decide), h.flags]

/-- The words of `struct arch_proc_state`. -/
def stateWords (m : Mem) (f : ℕ) : List ℕ :=
  fields.map (fun r => rd m (f + r.off)) ++ [rd m (f + frameSp), rd m (f + frameIp), rd m (f + frameFlags)]

lemma saveState_eq (m : Mem) (f p : ℕ) : saveState m f p = wrWords m p (stateWords m f) := by
  simp [saveState, stateWords, fields, wrWords, Reg.off, stateRsp, stateRip, stateFlags]

/-- The place of a register in the state. -/
lemma stateWords_reg (m : Mem) (f : ℕ) (r : Reg) :
    ∃ i, (stateWords m f)[i]? = some (rd m (f + r.off)) ∧ r.off = 8 * i := by
  cases r
  · exact ⟨0, rfl, rfl⟩
  · exact ⟨1, rfl, rfl⟩
  · exact ⟨2, rfl, rfl⟩
  · exact ⟨3, rfl, rfl⟩
  · exact ⟨4, rfl, rfl⟩
  · exact ⟨5, rfl, rfl⟩
  · exact ⟨6, rfl, rfl⟩
  · exact ⟨7, rfl, rfl⟩
  · exact ⟨8, rfl, rfl⟩
  · exact ⟨9, rfl, rfl⟩
  · exact ⟨10, rfl, rfl⟩
  · exact ⟨11, rfl, rfl⟩
  · exact ⟨12, rfl, rfl⟩
  · exact ⟨13, rfl, rfl⟩
  · exact ⟨14, rfl, rfl⟩

lemma saveState_saved {m : Mem} {f p : ℕ} {u : UserRegs} (h : Frame m f u) :
    Saved (saveState m f p) p u ∧ ∀ x, x < p ∨ p + 144 ≤ x → saveState m f p x = m x := by
  rw [saveState_eq]
  have hlen : (stateWords m f).length = 18 := rfl
  have hw : ∀ i v, (stateWords m f)[i]? = some v → v < 2 ^ 64 →
      rd (wrWords m p (stateWords m f)) (p + 8 * i) = v := by
    intro i v hv hlt
    obtain ⟨hi, hv'⟩ := List.getElem?_eq_some_iff.mp hv
    rw [rd_wrWords hi, hv', Nat.mod_eq_of_lt hlt]
  refine ⟨⟨fun r => ?_, ?_, ?_, ?_⟩, fun x hx => wrWords_out (by rw [hlen]; omega)⟩
  · obtain ⟨i, hv, ho⟩ := stateWords_reg m f r
    rw [ho, ← h.reg r]
    exact hw i _ hv (rd_lt _ _)
  · rw [← h.sp]; exact hw 15 _ rfl (rd_lt _ _)
  · rw [← h.ip]; exact hw 16 _ rfl (rd_lt _ _)
  · rw [← h.flags]; exact hw 17 _ rfl (rd_lt _ _)

/-! ### `return_user_` -/

/-- The registers after a row of `restore`, all from the same base. -/
lemma exec_restore (gs : ℕ) (rs : List Reg) (h : .rax ∉ rs) (c : Cpu) :
    exec gs c (rs.map restore) = ⟨fun r => if r ∈ rs then
      rd c.mem ((c.reg .rax + r.off) % 2 ^ 64) else c.reg r, c.rsp, c.mem⟩ := by
  induction rs generalizing c with
  | nil => simp [exec]
  | cons r rs ih =>
    have hr : Reg.rax ≠ r := fun e => h (by simp [e])
    have he : exec gs c ((r :: rs).map restore) =
        exec gs (setReg c r (rd c.mem ((c.reg .rax + r.off) % 2 ^ 64))) (rs.map restore) := by
      rw [List.map_cons, exec, List.foldl_cons, ← exec]
      rfl
    rw [he, ih fun hm => h (by simp [hm])]
    simp only [setReg, if_neg hr]
    congr 1
    funext r'
    by_cases h1 : r' ∈ rs
    · simp [h1]
    · by_cases h2 : r' = r <;> simp [h1, h2]

/-- `return_user_` up to the `restore`s. -/
def buildFrame : List Instr :=
  [.movAx 0x1B, .other, .other, .pushImm 0x1B, .loadGs .rax, .load .rax .rax procCurrent,
   .load .rbx .rax stateRsp, .push .rbx, .load .rbx .rax stateFlags, .push .rbx, .pushImm 0x23,
   .load .rbx .rax stateRip, .push .rbx, .loadGs .rax, .storeRsp .rax kstack]

lemma returnUser_eq (gs : ℕ) (c : Cpu) : exec gs c returnUser =
    step gs (exec gs (exec gs c buildFrame) ((fields.erase .rax).map restore)) (restore .rax) := by
  simp only [exec, ← List.foldl_append]
  rfl

section

variable {w : World} (hl : Layout w) {c : Cpu} {p : ℕ} {u : UserRegs} (hp : w.procs p)
  (hlo : w.lo + 40 ≤ c.rsp) (hhi : c.rsp ≤ w.hi) (hgs : rd c.mem w.gs = w.cpu)
  (hcur : rd c.mem (w.cpu + procCurrent) = p) (hs : Saved c.mem p u)
include hl hp hlo hhi hgs hcur hs

/-- The frame for `iretq` is read from the state of the process, and then `rax` is the address
of `cpu_data` again. -/
lemma buildFrame_spec : ∃ reg m, exec w.gs c buildFrame = ⟨reg, c.rsp - 40, m⟩ ∧
    reg .rax = w.cpu ∧ rd m (c.rsp - 40) = u.rip ∧ rd m (c.rsp - 24) = u.flags ∧
    rd m (c.rsp - 16) = u.rsp ∧ rd m w.cpu = c.rsp - 40 ∧
    ∀ x, x < w.lo ∨ w.hi ≤ x → x < w.cpu ∨ w.cpu + 8 ≤ x → m x = c.mem x := by
  obtain ⟨hst, hst'⟩ := hl.stack
  obtain ⟨hcpu, hcpu'⟩ := hl.cpu
  obtain ⟨hg1, hg2⟩ := hl.gs
  obtain ⟨hp0, hp1, hp2, hp3, -⟩ := hl.proc p hp
  obtain ⟨reg, S, m⟩ := c
  simp only at hlo hhi hgs hcur hs ⊢
  have e1 : sub64 S 8 = S - 8 := sub64_eq (by omega) (by omega)
  have e2 : sub64 (S - 8) 8 = S - 16 := by rw [sub64_eq (by omega) (by omega)]; omega
  have e3 : sub64 (S - 16) 8 = S - 24 := by rw [sub64_eq (by omega) (by omega)]; omega
  have e4 : sub64 (S - 24) 8 = S - 32 := by rw [sub64_eq (by omega) (by omega)]; omega
  have e5 : sub64 (S - 32) 8 = S - 40 := by rw [sub64_eq (by omega) (by omega)]; omega
  obtain ⟨m1, hm1⟩ : ∃ m1, m1 = wr m (S - 8) 0x1B := ⟨_, rfl⟩
  obtain ⟨m2, hm2⟩ : ∃ m2, m2 = wr m1 (S - 16) u.rsp := ⟨_, rfl⟩
  obtain ⟨m3, hm3⟩ : ∃ m3, m3 = wr m2 (S - 24) u.flags := ⟨_, rfl⟩
  obtain ⟨m4, hm4⟩ : ∃ m4, m4 = wr m3 (S - 32) 0x23 := ⟨_, rfl⟩
  obtain ⟨m5, hm5⟩ : ∃ m5, m5 = wr m4 (S - 40) u.rip := ⟨_, rfl⟩
  -- words outside the stack stay as they are
  have k1 : ∀ a, a + 8 ≤ w.lo ∨ w.hi ≤ a → rd m1 a = rd m a :=
    fun a ha => by rw [hm1, rd_wr_sep (by omega)]
  have k2 : ∀ a, a + 8 ≤ w.lo ∨ w.hi ≤ a → rd m2 a = rd m a :=
    fun a ha => by rw [hm2, rd_wr_sep (by omega), k1 a ha]
  have k4 : ∀ a, a + 8 ≤ w.lo ∨ w.hi ≤ a → rd m4 a = rd m a :=
    fun a ha => by rw [hm4, rd_wr_sep (by omega), hm3, rd_wr_sep (by omega), k2 a ha]
  have k5 : ∀ a, a + 8 ≤ w.lo ∨ w.hi ≤ a → rd m5 a = rd m a :=
    fun a ha => by rw [hm5, rd_wr_sep (by omega), k4 a ha]
  have g1 : rd m1 w.gs = w.cpu := by rw [k1 _ (by omega), hgs]
  have g5 : rd m5 w.gs = w.cpu := by rw [k5 _ (by omega), hgs]
  have a1 : (w.cpu + procCurrent) % 2 ^ 64 = w.cpu + procCurrent :=
    Nat.mod_eq_of_lt (by unfold procCurrent; omega)
  have a2 : (p + stateRsp) % 2 ^ 64 = p + stateRsp := Nat.mod_eq_of_lt (by unfold stateRsp; omega)
  have a3 : (p + stateFlags) % 2 ^ 64 = p + stateFlags :=
    Nat.mod_eq_of_lt (by unfold stateFlags; omega)
  have a4 : (p + stateRip) % 2 ^ 64 = p + stateRip := Nat.mod_eq_of_lt (by unfold stateRip; omega)
  have a5 : (w.cpu + kstack) % 2 ^ 64 = w.cpu := Nat.mod_eq_of_lt (by unfold kstack; omega)
  have c1 : rd m1 (w.cpu + procCurrent) = p := by
    rw [k1 _ (by unfold procCurrent; omega), hcur]
  have v1 : rd m1 (p + stateRsp) = u.rsp := by rw [k1 _ (by unfold stateRsp; omega), hs.rsp]
  have v2 : rd m2 (p + stateFlags) = u.flags := by rw [k2 _ (by unfold stateFlags; omega), hs.flags]
  have v4 : rd m4 (p + stateRip) = u.rip := by rw [k4 _ (by unfold stateRip; omega), hs.rip]
  have hc : ∃ reg', exec w.gs ⟨reg, S, m⟩ buildFrame = ⟨reg', S - 40, wr m5 w.cpu (S - 40)⟩ ∧
      reg' .rax = w.cpu := by
    simp only [exec, buildFrame, List.foldl_cons, List.foldl_nil, step, pushWord, setReg, e1, e2, e3,
      e4, e5, ← hm1, if_true, g1, a1, c1, a2, v1, ← hm2, a3, v2, ← hm3, ← hm4, a4, v4, ← hm5, g5, a5,
      reduceCtorEq, if_false]
    exact ⟨_, rfl, rfl⟩
  obtain ⟨reg', hc, hrax⟩ := hc
  refine ⟨reg', _, hc, hrax, ?_, ?_, ?_, rd_wr_same (by omega), fun x h1 h2 => ?_⟩
  · rw [rd_wr_sep (by omega), hm5, rd_wr_same u.rip_lt]
  · rw [rd_wr_sep (by omega), hm5, rd_wr_sep (by omega), hm4, rd_wr_sep (by omega), hm3,
      rd_wr_same u.flags_lt]
  · rw [rd_wr_sep (by omega), hm5, rd_wr_sep (by omega), hm4, rd_wr_sep (by omega), hm3,
      rd_wr_sep (by omega), hm2, rd_wr_same u.rsp_lt]
  · rw [wr_out (by omega), hm5, wr_out (by omega), hm4, wr_out (by omega), hm3, wr_out (by omega),
      hm2, wr_out (by omega), hm1, wr_out (by omega)]

/-- What the process gets: `rsp`, `rip` and the flags from its state, and the general registers
from `cpu_data`, whose first word is by then the kernel's stack pointer. -/
lemma returnUser_spec : (exec w.gs c returnUser).rsp = c.rsp - 40 ∧
    (∀ r, (exec w.gs c returnUser).reg r =
      if r = .r15 then c.rsp - 40 else rd c.mem (w.cpu + r.off)) ∧
    rd (exec w.gs c returnUser).mem (c.rsp - 40) = u.rip ∧
    rd (exec w.gs c returnUser).mem (c.rsp - 24) = u.flags ∧
    rd (exec w.gs c returnUser).mem (c.rsp - 16) = u.rsp ∧
    ∀ x, x < w.lo ∨ w.hi ≤ x → x < w.cpu ∨ w.cpu + 8 ≤ x →
      (exec w.gs c returnUser).mem x = c.mem x := by
  obtain ⟨hcpu, hcpu'⟩ := hl.cpu
  obtain ⟨reg, m, hc, hrax, h1, h2, h3, h4, h5⟩ := buildFrame_spec hl hp hlo hhi hgs hcur hs
  rw [returnUser_eq, hc, exec_restore _ _ (by decide)]
  have hword : ∀ r : Reg, rd m ((w.cpu + r.off) % 2 ^ 64) =
      if r = .r15 then c.rsp - 40 else rd c.mem (w.cpu + r.off) := by
    intro r
    have ho := off_le r
    rw [Nat.mod_eq_of_lt (by omega)]
    by_cases hr : r = .r15
    · rw [if_pos hr, hr]; exact h4
    · have ho' : 8 ≤ r.off := by cases r <;> first | exact absurd rfl hr | decide
      rw [if_neg hr]
      exact rd_congr fun x hx1 hx2 => h5 x (by omega) (by omega)
  refine ⟨rfl, fun r => ?_, h1, h2, h3, h5⟩
  have hax : Reg.rax ∉ fields.erase .rax := by decide
  simp only [step, restore, setReg, if_neg hax, hrax]
  by_cases hr : r = .rax
  · rw [if_pos hr, hr, hword]
  · rw [if_neg hr, if_pos (by revert hr; cases r <;> decide), hword]

end

/-! ### Runs -/

/-- A process runs in user mode. -/
structure St where
  user : UserRegs
  mem : Mem

/-- The rest of the kernel leaves the states of the processes and the word at `gs` alone. -/
def Keeps (w : World) (m m' : Mem) : Prop :=
  (∀ p, w.procs p → ∀ x, p ≤ x → x < p + 144 → m' x = m x) ∧ rd m' w.gs = rd m w.gs

/-- The memory when `ctx_switch` has saved the state of the process that the timer preempted. -/
def preempt (w : World) (s : St) : Mem :=
  let c := exec w.gs (interrupt w.hi s.user s.mem) isr32
  isrHandle true c.mem w.cpu (c.reg .rdi)

/-- From memory `m` the kernel chooses the process `p`, and `return_user_` resumes it; `c` is
the CPU after the call of `lapic_eoi`. -/
structure Resumes (w : World) (m : Mem) (p : ℕ) (c : Cpu) (s' : St) : Prop where
  keeps : Keeps w m c.mem
  proc : w.procs p
  current : rd c.mem (w.cpu + procCurrent) = p
  rip : rd c.mem (p + stateRip) ≠ 0
  lo : w.lo + 40 ≤ c.rsp
  hi : c.rsp ≤ w.hi
  user : (s'.user.reg, s'.user.rip, s'.user.flags, s'.user.rsp) = iretq (exec w.gs c returnUser)
  mem : s'.mem = (exec w.gs c returnUser).mem

inductive Label
  | run
  | timer (p : ℕ) (c : Cpu)
  | exit (p : ℕ) (c : Cpu)

/-- The process computes, the timer preempts it, or it exits and another one is resumed. -/
inductive Step (w : World) (s : St) : Label → St → Prop
  | run {u : UserRegs} {m : Mem} (h : Keeps w s.mem m)
      (hc : rd m (w.cpu + procCurrent) = rd s.mem (w.cpu + procCurrent)) : Step w s .run ⟨u, m⟩
  | timer {p : ℕ} {c : Cpu} {s' : St} (h : Resumes w (preempt w s) p c s') :
      Step w s (.timer p c) s'
  | exit {p : ℕ} {c : Cpu} {s' : St} (h : Resumes w s.mem p c s') : Step w s (.exit p c) s'

/-- The process `q` waits since the timer preempted it in `s₀`. -/
inductive Waits (w : World) (q : ℕ) (s₀ : St) : St → Prop
  | preempted {p : ℕ} {c : Cpu} {s : St} (hp : p ≠ q) (h : Step w s₀ (.timer p c) s) :
      Waits w q s₀ s
  | other {s s' : St} {l : Label} (hs : Waits w q s₀ s) (hl : ∀ c, l ≠ .timer q c ∧ l ≠ .exit q c)
      (h : Step w s l s') : Waits w q s₀ s'

/-- The registers that `return_user_` finds in `cpu_data`. -/
def FromCpuData (w : World) (c : Cpu) (u : UserRegs) : Prop :=
  ∀ r, u.reg r = if r = .r15 then c.rsp - 40 else rd c.mem (w.cpu + r.off)

/-- What holds whenever a process runs. -/
structure Ready (w : World) (s : St) : Prop where
  gs : rd s.mem w.gs = w.cpu
  proc : w.procs (rd s.mem (w.cpu + procCurrent))

section

variable {w : World} (hl : Layout w) {s s' : St}
include hl

/-- The timer saves the registers of the process that was running, and changes nothing else
but the stack. -/
lemma preempt_saved (h : Ready w s) :
    Saved (preempt w s) (rd s.mem (w.cpu + procCurrent)) s.user ∧
      ∀ x, x < w.lo ∨ w.hi ≤ x → x < rd s.mem (w.cpu + procCurrent) ∨
        rd s.mem (w.cpu + procCurrent) + 144 ≤ x → preempt w s x = s.mem x := by
  obtain ⟨hst, hst'⟩ := hl.stack
  obtain ⟨hcpu, hcpu'⟩ := hl.cpu
  obtain ⟨q, hq⟩ : ∃ q, q = rd s.mem (w.cpu + procCurrent) := ⟨_, rfl⟩
  have hproc := h.proc
  rw [← hq] at hproc ⊢
  have hp0 := (hl.proc q hproc).1
  obtain ⟨hrdi, hout, hframe⟩ := isr32_frame w.gs (u := s.user) (m := s.mem)
    (by omega) hst'
  have hpre : preempt w s = isrHandle true (exec w.gs (interrupt w.hi s.user s.mem) isr32).mem w.cpu
      (w.hi - 176) := by rw [preempt, ← hrdi]
  generalize (exec w.gs (interrupt w.hi s.user s.mem) isr32).mem = m at hout hframe hpre
  have hcur : rd m (w.cpu + procCurrent) = q := by
    rw [hq]
    exact rd_congr fun x h1 h2 => hout x (by unfold procCurrent at h1 h2; omega)
  have hsave : preempt w s = saveState m (w.hi - 176) q := by
    rw [hpre, isrHandle, if_pos ⟨hframe.num, rfl⟩, ctxSave]
    simp only [hcur]
    rw [if_pos ⟨by omega, by omega⟩]
  obtain ⟨h1, h2⟩ := saveState_saved (p := q) hframe
  rw [hsave]
  exact ⟨h1, fun x hx1 hx2 => by rw [h2 x hx2, hout x (by omega)]⟩

/-- The states of the other processes, and what the CPU finds itself by. -/
lemma preempt_keeps (h : Ready w s) :
    (∀ p, w.procs p → p ≠ rd s.mem (w.cpu + procCurrent) → ∀ x, p ≤ x → x < p + 144 →
        preempt w s x = s.mem x) ∧ rd (preempt w s) w.gs = w.cpu ∧
      ∀ o, o + 8 ≤ 120 → (w.cpu + 120 ≤ rd s.mem (w.cpu + procCurrent) ∨ o = procCurrent) →
        rd (preempt w s) (w.cpu + o) = rd s.mem (w.cpu + o) := by
  obtain ⟨hcpu, hcpu'⟩ := hl.cpu
  obtain ⟨hg1, hg2⟩ := hl.gs
  obtain ⟨-, hout⟩ := preempt_saved hl h
  obtain ⟨-, -, -, hp3, hp4⟩ := hl.proc _ h.proc
  refine ⟨fun p hp hne x hx1 hx2 => ?_, ?_, fun o ho hoq => ?_⟩
  · have hap := hl.apart p _ hp h.proc hne
    obtain ⟨-, -, hp2, -⟩ := hl.proc p hp
    exact hout x (by omega) (by omega)
  · rw [← h.gs]
    exact rd_congr fun x hx1 hx2 => hout x (by omega) (by omega)
  · have : procCurrent = 8 := rfl
    exact rd_congr fun x hx1 hx2 => hout x (by omega) (by omega)

/-- The process resumed has its `rsp`, `rip` and flags, and what `cpu_data` held. -/
lemma Resumes.spec {m : Mem} {p : ℕ} {c : Cpu} {u : UserRegs} (h : Resumes w m p c s')
    (hgs : rd m w.gs = w.cpu) (hs : Saved m p u) :
    s'.user.rsp = u.rsp ∧ s'.user.rip = u.rip ∧ s'.user.flags = u.flags ∧
      ∀ r, s'.user.reg r = if r = .r15 then c.rsp - 40 else rd c.mem (w.cpu + r.off) := by
  obtain ⟨hst, -⟩ := hl.stack
  have hlo := h.lo
  obtain ⟨h1, h2, h3, h4, h5, -⟩ := returnUser_spec hl h.proc h.lo h.hi (h.keeps.2.trans hgs)
    h.current (hs.congr (h.keeps.1 p h.proc))
  have hu := h.user
  simp only [iretq, h1, Prod.mk.injEq] at hu
  obtain ⟨hu1, hu2, hu3, hu4⟩ := hu
  refine ⟨?_, hu2.trans h3, ?_, fun r => by rw [hu1]; exact h2 r⟩
  · rw [hu4, show c.rsp - 40 + 24 = c.rsp - 16 by omega, h5]
  · rw [hu3, show c.rsp - 40 + 16 = c.rsp - 24 by omega, h4]

omit hl in
/-- The state of a process always holds some registers. -/
lemma exists_saved (m : Mem) (p : ℕ) : ∃ u, Saved m p u :=
  ⟨⟨fun r => rd m (p + r.off), rd m (p + stateRsp), rd m (p + stateRip), rd m (p + stateFlags),
    fun _ => rd_lt _ _, rd_lt _ _, rd_lt _ _, rd_lt _ _⟩, fun _ => rfl, rfl, rfl, rfl⟩

/-- After a switch the next process is the current one, and all saved states are kept. -/
lemma Resumes.ready {m : Mem} {p : ℕ} {c : Cpu} (h : Resumes w m p c s')
    (hgs : rd m w.gs = w.cpu) :
    Ready w s' ∧ rd s'.mem (w.cpu + procCurrent) = p ∧
      ∀ q, w.procs q → ∀ x, q ≤ x → x < q + 144 → s'.mem x = m x := by
  obtain ⟨hst, hst'⟩ := hl.stack
  obtain ⟨hcpu, hcpu'⟩ := hl.cpu
  obtain ⟨hg1, hg2⟩ := hl.gs
  have hgs' := h.keeps.2.trans hgs
  obtain ⟨u, hs⟩ := exists_saved m p
  obtain ⟨-, -, -, -, -, hout⟩ := returnUser_spec hl h.proc h.lo h.hi hgs' h.current
    (hs.congr (h.keeps.1 p h.proc))
  rw [← h.mem] at hout
  have hcur : rd s'.mem (w.cpu + procCurrent) = p := by
    rw [← h.current]
    exact rd_congr fun x h1 h2 => hout x (by unfold procCurrent at h1 h2; omega)
      (by unfold procCurrent at h1 h2; omega)
  refine ⟨⟨?_, by rw [hcur]; exact h.proc⟩, hcur, fun q hq x h1 h2 => ?_⟩
  · rw [← hgs']
    exact rd_congr fun x h1 h2 => hout x (by omega) (by omega)
  · obtain ⟨-, -, h3, h4, -⟩ := hl.proc q hq
    rw [hout x (by omega) (by omega)]
    exact h.keeps.1 q hq x h1 h2

/-- While `q` waits, its state holds the registers it was preempted with. -/
lemma Waits.saved {q : ℕ} {s₀ : St} (h₀ : Ready w s₀) (hq : w.procs q)
    (hcur : rd s₀.mem (w.cpu + procCurrent) = q) (h : Waits w q s₀ s) :
    Ready w s ∧ rd s.mem (w.cpu + procCurrent) ≠ q ∧ Saved s.mem q s₀.user := by
  induction h with
  | preempted hp h =>
    cases h with
    | timer h =>
      obtain ⟨h1, -⟩ := preempt_saved hl h₀
      obtain ⟨-, h3, -⟩ := preempt_keeps hl h₀
      obtain ⟨hr, hc, hk⟩ := h.ready hl h3
      rw [hcur] at h1
      exact ⟨hr, by rw [hc]; exact hp, h1.congr (hk q hq)⟩
  | @other s s' l _ hne h ih =>
    obtain ⟨hr, hc, hs⟩ := ih
    cases h with
    | run hk hc' =>
      refine ⟨⟨hk.2.trans hr.gs, ?_⟩, ?_, hs.congr (hk.1 q hq)⟩
      · rw [hc']; exact hr.proc
      · rw [hc']; exact hc
    | @timer p c _ h =>
      obtain ⟨h2, h3, -⟩ := preempt_keeps hl hr
      obtain ⟨hr', hc', hk⟩ := h.ready hl h3
      have hpq : p ≠ q := fun e => (hne c).1 (by rw [e])
      exact ⟨hr', by rw [hc']; exact hpq, (hs.congr (h2 q hq (Ne.symm hc))).congr (hk q hq)⟩
    | @exit p c _ h =>
      obtain ⟨hr', hc', hk⟩ := h.ready hl hr.gs
      have hpq : p ≠ q := fun e => (hne c).2 (by rw [e])
      exact ⟨hr', by rw [hc']; exact hpq, hs.congr (hk q hq)⟩

end

/-- **The round trip of a context switch.** A process that the timer preempts gets its `rsp`,
`rip` and flags back when it is next resumed, whatever ran meanwhile; it gets its other
registers back if and only if these are what `cpu_data` holds. -/
theorem resume_iff {w : World} (hl : Layout w) {s₀ s s' : St} {q : ℕ} {c : Cpu} (hr : Ready w s₀)
    (hq : rd s₀.mem (w.cpu + procCurrent) = q)
    (h : (s = s₀ ∧ Step w s (.timer q c) s') ∨
      (Waits w q s₀ s ∧ (Step w s (.timer q c) s' ∨ Step w s (.exit q c) s'))) :
    (s'.user.rsp = s₀.user.rsp ∧ s'.user.rip = s₀.user.rip ∧ s'.user.flags = s₀.user.flags) ∧
      (s'.user = s₀.user ↔ FromCpuData w c s₀.user) := by
  have hproc : w.procs q := by rw [← hq]; exact hr.proc
  have key : ∃ m, Resumes w m q c s' ∧ rd m w.gs = w.cpu ∧ Saved m q s₀.user := by
    rcases h with ⟨rfl, h⟩ | ⟨hw, h⟩
    · cases h with
      | timer h =>
        obtain ⟨h1, -⟩ := preempt_saved hl hr
        obtain ⟨-, h3, -⟩ := preempt_keeps hl hr
        exact ⟨_, h, h3, by rw [← hq]; exact h1⟩
    · obtain ⟨hr', hc, hs⟩ := hw.saved hl hr hproc hq
      rcases h with h | h
      · cases h with
        | timer h =>
          obtain ⟨h2, h3, -⟩ := preempt_keeps hl hr'
          exact ⟨_, h, h3, hs.congr (h2 q hproc (Ne.symm hc))⟩
      · cases h with
        | exit h => exact ⟨_, h, hr'.gs, hs⟩
  obtain ⟨m, h, hgs, hs⟩ := key
  obtain ⟨h1, h2, h3, h4⟩ := h.spec hl hgs hs
  refine ⟨⟨h1, h2, h3⟩, fun he r => ?_, fun hf => ?_⟩
  · rw [← he]; exact h4 r
  · exact UserRegs.ext (funext fun r => (h4 r).trans (hf r).symm) h1 h2 h3

/-! ### A process alone on its CPU -/

/-- One process, whose state is at `0x5000`. -/
def oneProc : World := ⟨0x1000, 0x2000, 0x3000, 0x4000, fun p => p = 0x5000⟩

lemma oneProc_layout : Layout oneProc := by
  refine ⟨by decide, by decide, by decide, ?_, ?_⟩
  · rintro p rfl
    decide
  · rintro p q rfl rfl hne
    exact absurd rfl hne

def oneMem : Mem := wr (wr (fun _ => 0) 0x1000 0x2000) 0x2008 0x5000

lemma oneMem_word {o : ℕ} (h : 16 ≤ o) (h' : o ≤ 112) : rd oneMem (0x2000 + o) = 0 := by
  rw [oneMem, rd_wr_sep (by omega), rd_wr_sep (by omega)]
  simp [rd]

lemma oneMem_current : rd oneMem (oneProc.cpu + procCurrent) = 0x5000 := rd_wr_same (by decide)

lemma oneProc_ready (u : UserRegs) : Ready oneProc ⟨u, oneMem⟩ :=
  ⟨(rd_wr_sep (by decide)).trans (rd_wr_same (by decide)), oneMem_current⟩

/-- The timer comes, and the process is the next one again. -/
lemma oneProc_timer (u : UserRegs) (hu : u.rip ≠ 0) : ∃ c s', c.rsp = 0x4000 ∧
    (∀ r : Reg, r ≠ .r15 → rd c.mem (0x2000 + r.off) = if r = .r14 then 0x5000 else 0) ∧
    Step oneProc ⟨u, oneMem⟩ (.timer 0x5000 c) s' ∧ s'.user.reg .r15 = 0x4000 - 40 := by
  have hr := oneProc_ready u
  obtain ⟨hsv, -⟩ := preempt_saved oneProc_layout hr
  obtain ⟨-, hgs, hk⟩ := preempt_keeps oneProc_layout hr
  rw [oneMem_current] at hsv hk
  obtain ⟨m, hm⟩ : ∃ m, m = preempt oneProc ⟨u, oneMem⟩ := ⟨_, rfl⟩
  rw [← hm] at hsv hgs hk
  have hcur : rd m (oneProc.cpu + procCurrent) = 0x5000 := by
    rw [hk _ (by decide) (Or.inr rfl), oneMem_current]
  have hlo : oneProc.lo + 40 ≤ 0x4000 := by decide
  have hhi : 0x4000 ≤ oneProc.hi := by decide
  obtain ⟨-, h2, -⟩ := returnUser_spec oneProc_layout (c := ⟨fun _ => 0, 0x4000, m⟩) (p := 0x5000)
    rfl hlo hhi hgs hcur hsv
  obtain ⟨c', hc'⟩ : ∃ c', c' = exec oneProc.gs ⟨fun _ => 0, 0x4000, m⟩ returnUser := ⟨_, rfl⟩
  rw [← hc'] at h2
  have hlt : ∀ r, c'.reg r < 2 ^ 64 := by
    intro r
    rw [h2 r]
    split
    · exact lt_of_le_of_lt (Nat.sub_le 0x4000 40) (by decide)
    · exact rd_lt _ _
  have hres : Resumes oneProc (preempt oneProc ⟨u, oneMem⟩) 0x5000 ⟨fun _ => 0, 0x4000, m⟩
      ⟨⟨c'.reg, rd c'.mem (c'.rsp + 24), rd c'.mem c'.rsp, rd c'.mem (c'.rsp + 16), hlt, rd_lt _ _,
        rd_lt _ _, rd_lt _ _⟩, c'.mem⟩ := by
    rw [← hm]
    refine ⟨⟨fun _ _ _ _ _ => rfl, rfl⟩, rfl, hcur, ?_, hlo, hhi, by rw [← hc']; rfl,
      by rw [← hc']⟩
    simp only [hsv.rip]
    exact hu
  refine ⟨_, _, rfl, fun r hr' => ?_, .timer hres, h2 .r15⟩
  have ho := off_le r
  simp only
  by_cases h14 : r = .r14
  · rw [h14]; exact hcur
  · have ho' : 16 ≤ r.off := by
      cases r <;> first | exact absurd rfl hr' | exact absurd rfl h14 | decide
    rw [if_neg h14, ← oneMem_word ho' ho]
    exact hk _ (by omega) (Or.inl (by decide))

/-- A process with zero in `r15` gets the kernel's stack pointer instead. -/
theorem resume_loses_r15 : ∃ u c s', Layout oneProc ∧ Ready oneProc ⟨u, oneMem⟩ ∧
    rd oneMem (oneProc.cpu + procCurrent) = 0x5000 ∧
    Step oneProc ⟨u, oneMem⟩ (.timer 0x5000 c) s' ∧ s'.user ≠ u := by
  obtain ⟨c, s', -, -, hstep, h15⟩ := oneProc_timer ⟨fun _ => 0, 0x100002000, 0x100000, 0x202,
    fun _ => by decide, by decide, by decide, by decide⟩ (by decide)
  refine ⟨_, c, s', oneProc_layout, oneProc_ready _, oneMem_current, hstep, fun he => ?_⟩
  rw [he] at h15
  cases h15

/-- A process whose registers happen to be what `cpu_data` holds. -/
theorem resume_iff_oneProc : ∃ u c s', Step oneProc ⟨u, oneMem⟩ (.timer 0x5000 c) s' ∧
    s'.user = u := by
  obtain ⟨u, hu⟩ : ∃ u : UserRegs, u = ⟨fun r => if r = .r15 then 0x4000 - 40 else
    if r = .r14 then 0x5000 else 0, 0x100002000, 0x100000, 0x202,
    fun r => by cases r <;> decide, by decide, by decide, by decide⟩ := ⟨_, rfl⟩
  obtain ⟨c, s', hc, hw, hstep, -⟩ := oneProc_timer u (by rw [hu]; decide)
  refine ⟨u, c, s', hstep, (resume_iff oneProc_layout (oneProc_ready u) oneMem_current
    (Or.inl ⟨rfl, hstep⟩)).2.mpr fun r => ?_⟩
  rw [hu, hc]
  by_cases hr : r = .r15
  · simp [hr]
  · simp only [if_neg hr]
    exact (hw r hr).symm

end Silkware.CtxRuns
