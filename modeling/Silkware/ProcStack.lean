import Silkware.ProcIsolated

/-!
The stack that a new process begins with.

`procp_init` sets the stack pointer to `STACK_TOP`, and `proc_pages_init` maps the stack from
`STACK_TOP` up, so the first push goes below everything that was mapped for it.
-/

namespace Silkware.ProcStack

open Silkware.Kern Silkware.Radix Silkware.Paging Silkware.Outcome Silkware.PageTables
open Silkware.AnonRuns Silkware.ProcSpace Silkware.ProcPages Silkware.ProcIsolated

/-- `struct arch_proc_state`, but for the registers, which are zero. -/
structure ArchState where
  rsp : ℕ
  rip : ℕ
  flags : ℕ

/-- `procp_init` -/
def procpInit : ArchState := ⟨stackTop, procEntry, 0x202⟩

/-- `proc_new`, up to where the process goes into `procmap`. -/
def procNew (K : Image) (sp start len : ℕ) (s : St) : Except Stop (ArchState × St) := do
  let arch := procpInit
  let (_, s) ← procPagesInit K sp start len s
  return (arch, s)

/-- The process can push at the address. -/
def Pushable (K : Image) (sp : ℕ) (s : St) (v : ℕ) : Prop :=
  ∃ e, leaf s.mem (rootOf K sp s) v = some e ∧ present e = true ∧ e.testBit 1 = true ∧
    e.testBit 2 = true

/-- The stack: the 64 pages that `rsp` grows down into. -/
def Usable (K : Image) (sp : ℕ) (arch : ArchState) (s : St) : Prop :=
  ∀ v, arch.rsp - 64 * pageSize ≤ v → v < arch.rsp → Pushable K sp s v

variable {K : Image} {s : St} {lim sp v : ℕ}

/-- Neither segment has a page below `STACK_TOP` that the code does not reach. -/
lemma not_inSegs {start len kvirt : ℕ} (hlen : procEntry + len ≤ stackTop - 64 * pageSize)
    (hv : stackTop - 64 * pageSize ≤ v) (hv' : v < stackTop) :
    ¬ InSegs [⟨procEntry, start, len⟩, ⟨stackTop, kvirt, 64 * pageSize⟩] v := by
  rintro ⟨seg, hseg, i, hi, hp⟩
  unfold stackTop pageSize at hv hlen
  unfold stackTop at hv'
  unfold vpage at hp
  simp only [List.mem_cons, List.not_mem_nil, or_false] at hseg
  rcases hseg with rfl | rfl
  · unfold procEntry at hlen hp
    simp only at hi hp
    omega
  · unfold stackTop at hp
    unfold pageSize at hi
    simp only at hi hp
    omega

/-- No page of the stack is there. -/
lemma procNew_below (start len : ℕ) (hk : KernOk K s) (hs : Supply K lim s) (hsp : sp ≠ kspace)
    (hc : Clear s) (hlen : procEntry + len ≤ stackTop - 64 * pageSize) :
    OrStops .panic (procNew K sp start len s) fun r => r.1 = procpInit ∧
      ∀ v, stackTop - 64 * pageSize ≤ v → v < stackTop → ¬ Pushable K sp r.2 v := by
  refine (procPagesInit_isolated start len hk hs hsp hc).bind ?_
  rintro ⟨segs, s'⟩ ⟨⟨kvirt, rfl⟩, hiso⟩
  refine OrStops.ok ⟨rfl, fun v hv hv' => ?_⟩
  rintro ⟨e, hl, he, -⟩
  have h3 : index 3 v ≠ 511 := by
    unfold stackTop at hv'
    rw [Ne, Fin.ext_iff, index_val]
    change v / 2 ^ (12 + 9 * 3) % 512 ≠ 511
    omega
  exact not_inSegs hlen hv hv' (hiso v e h3 hl he)

/-- **No process has a stack that it can push on**, whatever its code is, where no page that became
a table held a present entry: the first word to be pushed is not mapped. -/
theorem stack_unusable (start len : ℕ) (hk : KernOk K s) (hs : Supply K lim s) (hsp : sp ≠ kspace)
    (hc : Clear s) (hlen : procEntry + len ≤ stackTop - 64 * pageSize) :
    OrStops .panic (procNew K sp start len s) fun r =>
      ¬ Usable K sp r.1 r.2 ∧ ¬ Pushable K sp r.2 (r.1.rsp - 8) := by
  refine (procNew_below start len hk hs hsp hc hlen).mono ?_
  rintro ⟨arch, s'⟩ ⟨rfl, h⟩
  have hlow : stackTop - 64 * pageSize ≤ stackTop - 8 := by decide
  have hhigh : stackTop - 8 < stackTop := by decide
  exact ⟨fun hu => h _ hlow hhigh (hu _ hlow hhigh), h _ hlow hhigh⟩

theorem stack_unusable_cleared : ∃ s, readySt = .ok s ∧
    OrStops .panic (procNew borderImage 1 0xFFFFFFFF80190000 0x1000 (cleared s)) fun r =>
      ¬ Usable borderImage 1 r.1 r.2 ∧ ¬ Pushable borderImage 1 r.2 (r.1.rsp - 8) := by
  obtain ⟨s, h, -⟩ := exists_of_bind cleared_runs
  obtain ⟨hk, hs, -⟩ := readySt_ok h
  exact ⟨s, h, stack_unusable 0xFFFFFFFF80190000 0x1000 (KernOk.cleared hk) (Supply.cleared hs)
    (by decide) (clear_cleared s) (by decide)⟩

/-- The stack of a process of one page. -/
theorem stack_above_pointer : ∃ s arch s', readySt = .ok s ∧
    procNew borderImage 1 0xFFFFFFFF80190000 0x1000 (cleared s) = .ok (arch, s') ∧
    procEntry + 0x1000 ≤ stackTop - 64 * pageSize ∧ ¬ Usable borderImage 1 arch s' := by
  obtain ⟨s, h, hrun⟩ := exists_of_bind cleared_runs
  obtain ⟨⟨segs, s'⟩, hp, -⟩ := exists_of_map hrun
  obtain ⟨hk, hs, -⟩ := readySt_ok h
  have hnew : procNew borderImage 1 0xFFFFFFFF80190000 0x1000 (cleared s) = .ok (procpInit, s') := by
    rw [procNew, hp]
    rfl
  have hbelow := (procNew_below 0xFFFFFFFF80190000 0x1000 (KernOk.cleared hk) (Supply.cleared hs)
    (by decide : 1 ≠ kspace) (clear_cleared s) (by decide)).of_ok hnew
  have hlow : stackTop - 64 * pageSize ≤ stackTop - 8 := by decide
  have hhigh : stackTop - 8 < stackTop := by decide
  exact ⟨s, procpInit, s', h, hnew, by decide, fun hu => hbelow.2 _ hlow hhigh (hu _ hlow hhigh)⟩

end Silkware.ProcStack
