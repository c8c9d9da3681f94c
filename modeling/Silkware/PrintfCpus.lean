import Silkware.PrintfRuns
import Silkware.SpinLock

/-!
`printf` on several processors.

The messages are printed under one lock, a character at a time. The line break at the end of a panic
is not: it may come at any moment.
-/

namespace Silkware.PrintfCpus

open Silkware.Printf Silkware.PrintfRuns Silkware.SpinLock Silkware.Steps Silkware.Steps.Prog

/-- What `putc` is called with: a character of a message, or the line break of a panic. -/
inductive Out
  | printed (c : Char)
  | panicked
  deriving DecidableEq, Repr

def Out.char? : Out → Option Char
  | printed c => some c
  | panicked => none

/-- The characters of the messages. -/
def chars (l : List Out) : List Char := l.filterMap Out.char?

/-- `NPF_PUTC` for each character. -/
def puts : List Char → Prog (List Out) Unit Unit
  | [] => return ()
  | c :: s => do
    update (· ++ [.printed c])
    puts s

structure Call where
  f : List Char
  a : List Arg

/-- What is between `ACQUIRE` and `RELEASE`. -/
def printfC (op : Call) : Prog (List Out) Unit Unit :=
  match vpprintf op.a op.f with
  | none => .stop ()
  | some out => puts out

def printfLock : Locked (List Out) Unit Call Unit Empty where
  body := printfC
  pre _ := 0
  post _ _ := 0
  mine _ := {(· ++ [.panicked])}

/-- What a call prints. -/
def message (op : Call) : List Char := (vpprintf op.a op.f).getD []

variable {ι : Type}

abbrev Cpus (ι : Type) := Conf ι (List Out) Unit Call Unit Empty

/-- Nothing has been printed yet. -/
def start (ι : Type) : Cpus ι := ⟨[], false, fun _ => .idle, 0⟩

/-- Every call may take the lock. -/
abbrev Prints [DecidableEq ι] (es : List (Event ι (List Out) Call Unit)) (c : Cpus ι) : Prop :=
  Run printfLock (fun _ _ => True) (start ι) es c

/-- The messages of the calls that have returned, one after the other. -/
def messages (es : List (Event ι (List Out) Call Unit)) : List Char :=
  (rets es).flatMap fun r => message r.1

/-- The processor inside has printed `part` of its message and has the rest before it. -/
inductive Ahead (part : List Char) (op : Call) : Prog (List Out) Unit Unit → Prop
  | puts (out rem : List Char) (h : vpprintf op.a op.f = some out) (he : out = part ++ rem) :
      Ahead part op (puts rem)
  | stop (h : part = []) : Ahead part op (.stop ())

/-- Whole messages have been printed, and then a part of that of the processor inside. -/
structure Shown (es : List (Event ι (List Out) Call Unit)) (c : Cpus ι) (part : List Char) : Prop where
  text : chars c.shared = messages es ++ part
  clear : c.lock = false → part = []
  inside : ∀ i op p, c.cpus i = .inside op p → Ahead part op p
  defined : ∀ r ∈ rets es, (vpprintf r.1.a r.1.f).isSome

variable {es : List (Event ι (List Out) Call Unit)} {c c' : Cpus ι} {part : List Char}

lemma messages_snoc (es : List (Event ι (List Out) Call Unit)) (e : Event ι (List Out) Call Unit) :
    messages (es ++ [e]) = messages es ++ messages [e] := by
  rw [messages, rets, List.filterMap_append, List.flatMap_append]
  rfl

lemma rets_snoc {e : Event ι (List Out) Call Unit} (h : rets [e] = []) : rets (es ++ [e]) = rets es := by
  rw [rets, List.filterMap_append]
  exact (congrArg (rets es ++ ·) h).trans (List.append_nil _)

/-- Nobody returns, and the processors inside stay as they are. -/
lemma Shown.keep {e : Event ι (List Out) Call Unit} (h : Shown es c part) (he : rets [e] = [])
    (hs : chars c'.shared = chars c.shared) (hl : c'.lock = c.lock)
    (hi : ∀ i op p, c'.cpus i = .inside op p → c.cpus i = .inside op p) :
    Shown (es ++ [e]) c' part where
  text := by
    rw [messages, rets_snoc he, hs]
    exact h.text
  clear hc := h.clear (hl ▸ hc)
  inside i op p hp := h.inside i op p (hi i op p hp)
  defined r hr := h.defined r (rets_snoc he ▸ hr)

lemma ahead_printfC (op : Call) : Ahead [] op (printfC op) := by
  unfold printfC
  split
  · exact .stop rfl
  · exact .puts _ _ (by assumption) rfl

/-- A step prints the next character of the message. -/
lemma Ahead.step {op : Call} {upd : List Out → List Out} {k : List Out → Prog (List Out) Unit Unit}
    {s : List Out} (h : Ahead part op (.step upd k)) :
    ∃ x, chars (upd s) = chars s ++ [x] ∧ Ahead (part ++ [x]) op (k s) := by
  generalize hp : Prog.step upd k = p at h
  cases h with
  | stop h => cases hp
  | puts out rem h he =>
    cases rem with
    | nil => cases hp
    | cons x rem =>
      obtain ⟨rfl, rfl⟩ := Prog.step.inj hp
      refine ⟨x, List.filterMap_append, .puts out rem h ?_⟩
      rw [he, List.append_assoc, List.singleton_append]

/-- What has been printed is the whole message when the call returns. -/
lemma Ahead.ret {op : Call} {a : Unit} (h : Ahead part op (.ret a)) : vpprintf op.a op.f = some part := by
  generalize hp : Prog.ret a = p at h
  cases h with
  | stop h => cases hp
  | puts out rem h he =>
    cases rem with
    | nil => rw [h, he, List.append_nil]
    | cons x rem => cases hp

variable [DecidableEq ι]

lemma step_shown {e : Event ι (List Out) Call Unit} (hx : Excl c) (h : Shown es c part)
    (hs : Step printfLock c e c') : ∃ part', Shown (es ++ [e]) c' part' := by
  cases hs with
  | @call i op hi hp =>
    refine ⟨part, h.keep rfl rfl rfl fun j op' p hj => ?_⟩
    by_cases hji : j = i
    · subst hji
      simp at hj
    · simpa [hji] using hj
  | spin _ _ => exact ⟨part, h.keep rfl rfl rfl fun _ _ _ hj => hj⟩
  | @acquire i op hi hl =>
    obtain rfl := h.clear hl
    have hrets : rets (es ++ [.acquire i op]) = rets es := rets_snoc rfl
    refine ⟨[], ?_, fun _ => rfl, fun j op' p hj => ?_, fun r hr => h.defined r (hrets ▸ hr)⟩
    · rw [messages, hrets]
      exact h.text
    · by_cases hji : j = i
      · subst hji
        obtain ⟨rfl, rfl⟩ := by simpa using hj
        exact ahead_printfC _
      · exact h.inside j op' p (by simpa [hji] using hj)
  | @step i op upd k hi =>
    obtain ⟨hl, hn⟩ := hx.mover hi
    obtain ⟨x, hc, ha⟩ := (h.inside i op _ hi).step (s := c.shared)
    have hrets : rets (es ++ [.step i]) = rets es := rets_snoc rfl
    refine ⟨part ++ [x], ?_, fun hf => ?_, fun j op' p hj => ?_, fun r hr => h.defined r (hrets ▸ hr)⟩
    · rw [messages, hrets, hc, h.text, List.append_assoc]
      rfl
    · rw [hl] at hf
      cases hf
    · by_cases hji : j = i
      · subst hji
        obtain ⟨rfl, rfl⟩ := by simpa using hj
        exact ha
      · have hj' : c.cpus j = .inside op' p := by simpa [hji] using hj
        exact absurd (hn j (by rw [hj']; exact ⟨op', p⟩)) hji
  | @release i op a hi =>
    obtain ⟨-, hn⟩ := hx.mover hi
    have hm := (h.inside i op _ hi).ret
    refine ⟨[], ?_, fun _ => rfl, fun j op' p hj => ?_, fun r hr => ?_⟩
    · rw [messages_snoc, h.text, List.append_nil]
      simp [messages, rets, message, hm]
    · have hji : j ≠ i := by
        rintro rfl
        simp at hj
      have hj' : c.cpus j = .inside op' p := by simpa [hji] using hj
      exact absurd (hn j (by rw [hj']; exact ⟨op', p⟩)) hji
    · rw [rets, List.filterMap_append, List.mem_append] at hr
      rcases hr with hr | hr
      · exact h.defined r hr
      · obtain rfl := List.mem_singleton.mp hr
        simp [hm]
  | write hg =>
    obtain rfl := Set.mem_singleton_iff.mp hg
    exact ⟨part, h.keep rfl (by simp [chars, Out.char?]) rfl fun _ _ _ hj => hj⟩

lemma run_shown (h : Prints es c) : ∃ part, Shown es c part := by
  induction h with
  | nil => exact ⟨[], rfl, fun _ => rfl, fun _ _ _ hi => (by cases hi), by simp [rets]⟩
  | snoc hr hs _ ih =>
    obtain ⟨part, hp⟩ := ih
    exact step_shown (run_excl ⟨rfl, fun _ => rfl⟩ hr) hp hs

/-- **Messages are printed whole.** But for the line breaks of panics the terminal gets the messages
of the calls in the order in which they return, each without any other in between. What comes behind
them is the beginning of the message of the processor that holds the lock. -/
theorem messages_whole (h : Prints es c) : ∃ part, chars c.shared = messages es ++ part ∧
    (∀ r ∈ rets es, vpprintf r.1.a r.1.f = some (message r.1)) ∧ (c.lock = false → part = []) ∧
      (c.lock = true → ∃ i op p, c.cpus i = .inside op p ∧ part <+: message op) := by
  obtain ⟨part, hp⟩ := run_shown h
  refine ⟨part, hp.text, fun r hr => ?_, hp.clear, fun hl => ?_⟩
  · obtain ⟨out, ho⟩ := Option.isSome_iff_exists.mp (hp.defined r hr)
    rw [message, ho]
    rfl
  · cases run_excl ⟨rfl, fun _ => rfl⟩ h with
    | free hf => rw [hf] at hl; cases hl
    | busy i _ hi _ =>
      generalize hc : c.cpus i = x at hi
      obtain ⟨op, p⟩ := hi
      refine ⟨i, op, p, hc, ?_⟩
      cases hp.inside i op p hc with
      | stop h => exact h ▸ List.nil_prefix
      | puts out rem ho he => exact ⟨rem, by rw [message, ho, he]; rfl⟩

lemma run_puts (s : List Char) (l : List Out) :
    (puts s).run l = .ok (l ++ s.map .printed, ()) := by
  induction s generalizing l with
  | nil => simp [puts]
  | cons c s ih =>
    rw [puts, update_bind_run, ih]
    simp

/-- Two calls with a panic between them. -/
theorem messages_whole_two : ∃ c : Cpus (Fin 2), ∃ es, Prints es c ∧ (rets es).length = 2 ∧
    c.shared.contains .panicked ∧ ∃ part, chars c.shared = messages es ++ part ∧
      (∀ r ∈ rets es, vpprintf r.1.a r.1.f = some (message r.1)) ∧ (c.lock = false → part = []) ∧
      (c.lock = true → ∃ i op p, c.cpus i = .inside op p ∧ part <+: message op) := by
  have hb : ∀ (c : Char) l, c ≠ '%' →
      (printfLock.body ⟨[c], []⟩).run l = .ok (l ++ [.printed c], ()) := fun c l hc => by
    have hp : printfC ⟨[c], []⟩ = puts [c] := by
      rw [printfC, vpprintf_char hc, vpprintf]
      rfl
    exact (congrArg (Prog.run · l) hp).trans (run_puts [c] l)
  have h0 : Prints [] (start (Fin 2)) := .nil
  obtain ⟨fs, d, h1, hr1, hl1, hs1, hc1, -⟩ := h0.whole (i := 0) rfl rfl
    (Multiset.zero_le _) trivial (hb 'a' _ (by decide))
  have h2 := h1.snoc (.write (Set.mem_singleton _)) fun _ _ he => by cases he
  obtain ⟨gs, e, h3, hr3, -, hs3, -⟩ := h2.whole (i := 1) hl1 (by rw [hc1]; rfl)
    (Multiset.zero_le _) trivial (hb 'b' _ (by decide))
  refine ⟨e, gs, h3, ?_, ?_, messages_whole h3⟩
  · rw [hr3, rets, List.filterMap_append]
    change (rets fs ++ [] ++ _).length = 2
    rw [hr1]
    rfl
  · rw [hs3, hs1]
    simp [start]

end Silkware.PrintfCpus
