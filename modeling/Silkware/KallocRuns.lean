import Mathlib.Data.Set.Lattice
import Mathlib.Logic.Relation
import Mathlib.Order.CompletePartialOrder
import Mathlib.Order.Interval.Set.Basic
import Silkware.KallocInv

/-!
Whole runs of the kernel heap: allocations and releases on any CPU, writes of the clients to
the blocks they hold, and any change of memory that is not the heap's.
-/

namespace Silkware.KallocRuns

open Silkware.ByteMem Silkware.Header Silkware.Kern Silkware.Links Silkware.Kalloc
open Silkware.KallocInv Silkware.Outcome Silkware.Segments

/-- The heap, the pointers the clients hold, and the regions `page_alloc` gave to the heap. -/
structure Sys where
  st : State
  live : List ℕ
  regs : List Seg

/-- The header of the block whose payload is at `p`. -/
def hdr (p : ℕ) : ℕ := sub64 p hdrSize

/-- The bytes of a block, header and payload. -/
def bytes (m : Mem) (b : ℕ) : Set ℕ := Set.Ico b (b + hdrSize + size m b)

inductive Op
  | kalloc (cpu n ptr : ℕ)
  | kzalloc (cpu n ptr : ℕ)
  | kfree (cpu ptr : ℕ)
  | write
  | other

/-- One call that returns, one write of a client, or a change outside the heap. -/
inductive Step (s : Sys) : Op → Sys → Prop
  | kalloc {fuel cpu n ptr : ℕ} {g : Seg} {st : State} {req : Option ℕ} (hn : n < 2 ^ 62)
      (hg : ∀ r, req = some r → Grant s.regs r g)
      (h : Kalloc.kalloc (fun _ => .ok g.lo) fuel s.st cpu n = .ok (st, ptr, req)) :
      Step s (.kalloc cpu n ptr) ⟨st, ptr :: s.live, addReg s.regs g req⟩
  | kzalloc {fuel cpu n ptr : ℕ} {g : Seg} {st : State} {req : Option ℕ} (hn : n < 2 ^ 62)
      (hg : ∀ r, req = some r → Grant s.regs r g)
      (h : Kalloc.kzalloc (fun _ => .ok g.lo) fuel s.st cpu n = .ok (st, ptr, req)) :
      Step s (.kzalloc cpu n ptr) ⟨st, ptr :: s.live, addReg s.regs g req⟩
  | kfree {fuel cpu ptr : ℕ} {st : State} (hl : ptr ∈ s.live)
      (h : Kalloc.kfree fuel s.st cpu ptr = .ok st) :
      Step s (.kfree cpu ptr) ⟨st, s.live.erase ptr, s.regs⟩
  | write {p a : ℕ} {v : UInt8} (hp : p ∈ s.live) (h1 : p ≤ a)
      (h2 : a < p + size s.st.mem (hdr p)) :
      Step s .write { s with st.mem := fun x => if x = a then v else s.st.mem x }
  | other {m : Mem} (h : ∀ r ∈ s.regs, ∀ x, r.lo ≤ x → x < r.hi → m x = s.st.mem x) :
      Step s .other { s with st.mem := m }

def Runs : Sys → Sys → Prop := Relation.ReflTransGen fun s s' => ∃ op, Step s op s'

/-- After `kalloc_init`: no lists, no blocks, whatever memory holds. -/
def init (m : Mem) : Sys := ⟨⟨m, fun _ => 0⟩, [], []⟩

/-- The blocks on the free list of a CPU. -/
def OnList (s : State) (cpu b : ℕ) : Prop :=
  Visited (next s.mem) (fun x => x = 0) (s.start cpu) b

/-- A block on the list of the CPU is large enough to be cut for `n` bytes. -/
def Room (s : State) (cpu n : ℕ) : Prop :=
  ∃ b, OnList s cpu b ∧ alignUp n + hdrSize ≤ size s.mem b

def IsBlock (s : Sys) (b : ℕ) : Prop := (∃ p ∈ s.live, b = hdr p) ∨ ∃ cpu, OnList s.st cpu b

/-- The pointer a call gives to its caller, with the size it asked for. -/
def Returns (op : Op) (n ptr : ℕ) : Prop := ∃ cpu, op = .kalloc cpu n ptr ∨ op = .kzalloc cpu n ptr

/-- The calls that leave the block at `p` to its owner. -/
def CallKeeps (op : Op) (p : ℕ) : Prop :=
  (∃ n ptr, Returns op n ptr) ∨ ∃ cpu ptr, op = .kfree cpu ptr ∧ ptr ≠ p

/-- The requests for which the sum of both headers and the size has a power of two above it. -/
def Fits (op : Op) : Prop := ∀ n ptr, Returns op n ptr → n ≤ 2 ^ 63 - 32

/-- A step with what it asks of `page_alloc`, for requests of any size. Where `page_alloc` is asked it
answers with a region at `lo`. -/
inductive StepAt (s : Sys) (lo : ℕ) : Op → Option ℕ → Sys → Prop
  | kalloc {fuel cpu n ptr len : ℕ} {st : State} {req : Option ℕ}
      (hg : ∀ r, req = some r → Grant s.regs r ⟨lo, len⟩)
      (h : Kalloc.kalloc (fun _ => .ok lo) fuel s.st cpu n = .ok (st, ptr, req)) :
      StepAt s lo (.kalloc cpu n ptr) req ⟨st, ptr :: s.live, addReg s.regs ⟨lo, len⟩ req⟩
  | kzalloc {fuel cpu n ptr len : ℕ} {st : State} {req : Option ℕ}
      (hg : ∀ r, req = some r → Grant s.regs r ⟨lo, len⟩)
      (h : Kalloc.kzalloc (fun _ => .ok lo) fuel s.st cpu n = .ok (st, ptr, req)) :
      StepAt s lo (.kzalloc cpu n ptr) req ⟨st, ptr :: s.live, addReg s.regs ⟨lo, len⟩ req⟩
  | rest {op : Op} {s' : Sys} (h : Step s op s') (hop : ¬ ∃ n ptr, Returns op n ptr) :
      StepAt s lo op none s'

/-- What clients of the heap can rely on. -/
structure Safe (s : Sys) : Prop where
  disjoint : ∀ b b', IsBlock s b → IsBlock s b' → b ≠ b' →
    Disjoint (bytes s.st.mem b) (bytes s.st.mem b')
  finite : ∀ cpu, ∃ l, Chain (next s.st.mem) (s.st.start cpu) l 0 ∧ l.Nodup ∧
    ∀ b, b ∈ l ↔ OnList s.st cpu b
  one : ∀ b cpu cpu', OnList s.st cpu b → OnList s.st cpu' b → cpu = cpu'
  live : (s.live.map hdr).Nodup ∧ ∀ p ∈ s.live, ∀ cpu, ¬ OnList s.st cpu (hdr p)
  returned : ∀ op n ptr s', Step s op s' → Returns op n ptr →
    ptr % allocAlign = 0 ∧ n ≤ size s'.st.mem (hdr ptr)
  keeps : ∀ op s' p, Step s op s' → p ∈ s.live → CallKeeps op p →
    ∀ x ∈ bytes s.st.mem (hdr p), s'.st.mem x = s.st.mem x
  kfree : ∀ p ∈ s.live, ∀ cpu, ∃ fuel₀, ∀ fuel ≥ fuel₀, ∃ st, Kalloc.kfree fuel s.st cpu p = .ok st

/-! ### The invariant -/

/-- The heap's invariant, with the canary in the header of every block in use. -/
inductive Inv (s : Sys) : Prop where
  | mk (fr : ℕ → List ℕ) (own : List ℕ) (live : s.live = own.map (· + 16))
    (heap : Heap s.st.mem s.st.start fr own s.regs)
    (canary : ∀ b ∈ own, link s.st.mem b = canary b)

lemma hdr_add {b : ℕ} (h : b + 16 < 2 ^ 64) : hdr (b + 16) = b := sub64_hdr h

section

variable {s : Sys} {fr : ℕ → List ℕ} {own : List ℕ}

/-- The blocks a walk over a list meets. -/
lemma onList_iff (h : Heap s.st.mem s.st.start fr own s.regs) {cpu b : ℕ} :
    OnList s.st cpu b ↔ b ∈ fr cpu := by
  refine visited_iff (h.chain cpu) (fun x hx => ?_) rfl
  have := (h.bounds (Or.inr ⟨cpu, hx⟩)).1
  omega

lemma mem_live (h : Heap s.st.mem s.st.start fr own s.regs) (hl : s.live = own.map (· + 16))
    {p : ℕ} (hp : p ∈ s.live) : p = hdr p + 16 ∧ hdr p ∈ own := by
  rw [hl, List.mem_map] at hp
  obtain ⟨b, hb, rfl⟩ := hp
  have := h.bounds (Or.inl hb)
  rw [hdr_add (by omega)]
  exact ⟨rfl, hb⟩

lemma isBlock_iff (h : Heap s.st.mem s.st.start fr own s.regs) (hl : s.live = own.map (· + 16))
    (b : ℕ) : IsBlock s b ↔ Here fr own b := by
  refine or_congr ⟨fun ⟨p, hp, e⟩ => ?_, fun hb => ?_⟩ (exists_congr fun c => onList_iff h)
  · rw [e]
    exact (mem_live h hl hp).2
  · have := h.bounds (Or.inl hb)
    exact ⟨b + 16, by rw [hl]; exact List.mem_map_of_mem hb, (hdr_add (by omega)).symm⟩

/-- The block freed is set apart from the other blocks in use. -/
lemma take_live (h : Heap s.st.mem s.st.start fr own s.regs) (hl : s.live = own.map (· + 16))
    {p : ℕ} (hp : p ∈ s.live) :
    Heap s.st.mem s.st.start fr (hdr p :: own.erase (hdr p)) s.regs ∧
      s.live.erase p = (own.erase (hdr p)).map (· + 16) := by
  obtain ⟨e, hb⟩ := mem_live h hl hp
  refine ⟨h.perm (List.perm_cons_erase hb), ?_⟩
  rw [List.map_erase (fun a b hab => Nat.add_right_cancel hab), ← e, hl]

end

/-! ### What each step does -/

/-- The invariant, with the free lists `fr` and the blocks in use `own` named. -/
structure Held (s : Sys) (fr : ℕ → List ℕ) (own : List ℕ) : Prop where
  live : s.live = own.map (· + 16)
  heap : Heap s.st.mem s.st.start fr own s.regs
  canary : ∀ b ∈ own, link s.st.mem b = Kalloc.canary b

lemma Inv.held {s : Sys} : Inv s → ∃ fr own, Held s fr own :=
  fun ⟨fr, own, hl, hh, hc⟩ => ⟨fr, own, hl, hh, hc⟩

lemma Held.inv {s : Sys} {fr : ℕ → List ℕ} {own : List ℕ} (h : Held s fr own) : Inv s :=
  ⟨fr, own, h.live, h.heap, h.canary⟩

lemma not_here_nil (b : ℕ) : ¬ Here (fun _ => []) [] b := by
  rintro (hb | ⟨c, hb⟩) <;> cases hb

lemma Held.init (m : Mem) : Held (init m) (fun _ => []) [] := by
  refine ⟨rfl, ?_, fun b hb => absurd hb List.not_mem_nil⟩
  exact ⟨fun c => rfl, fun c => List.nodup_nil, fun b c c' hb => absurd hb List.not_mem_nil,
    List.nodup_nil, fun b hb => absurd hb List.not_mem_nil, fun b hb => absurd hb (not_here_nil b),
    fun b hb => absurd hb (not_here_nil b), fun b b' hb => absurd hb (not_here_nil b),
    fun r hr => absurd hr List.not_mem_nil⟩

lemma Inv.init (m : Mem) : Inv (init m) := (Held.init m).inv

/-- What one step does to the free lists and the blocks in use: a call hands out a block, a block
goes back on a list, or no header changes. -/
inductive Moves (s s' : Sys) (lo : ℕ) (fr : ℕ → List ℕ) (own : List ℕ) :
    Op → Option ℕ → (ℕ → List ℕ) → List ℕ → Prop
  | gave {op : Op} {cpu n ptr b : ℕ} {st : State} {req : Option ℕ} {l' : List ℕ}
      (hop : op = .kalloc cpu n ptr ∨ op = .kzalloc cpu n ptr)
      (hg : Gave s.st st cpu n fr own s'.regs ptr req b l') (hlo : ∀ r, req = some r → b = lo)
      (hs : ∀ c, Here (Function.update fr cpu l') (b :: own) c → SameHdr st.mem s'.st.mem c)
      (hk : ∀ c ∈ own, ∀ x, c ≤ x → x < c + 16 + size s.st.mem c → s'.st.mem x = s.st.mem x) :
      Moves s s' lo fr own op req (Function.update fr cpu l') (b :: own)
  | put {cpu ptr : ℕ} {l' : List ℕ} (hp : ptr ∈ s.live)
      (hput : Put s.st s'.st cpu (hdr ptr) fr (own.erase (hdr ptr)) s.regs l') :
      Moves s s' lo fr own (.kfree cpu ptr) none (Function.update fr cpu l') (own.erase (hdr ptr))
  | same {op : Op} (hop : op = .write ∨ op = .other)
      (hs : ∀ c, Here fr own c → SameHdr s.st.mem s'.st.mem c) : Moves s s' lo fr own op none fr own

section

variable {s s' : Sys} {fr : ℕ → List ℕ} {own : List ℕ}

/-- A block in use that keeps all its bytes keeps its canary. -/
lemma canary_keep {m m' : Mem} (hc : ∀ b ∈ own, link m b = canary b)
    (hk : ∀ b ∈ own, ∀ x, b ≤ x → x < b + 16 + size m b → m' x = m x) :
    ∀ b ∈ own, link m' b = canary b := by
  intro b hb
  rw [← hc b hb]
  exact rd_congr fun x h1 h2 => hk b hb x (by omega) (by omega)

lemma Held.congr {m' : Mem} (h : Held s fr own)
    (hs : ∀ c, Here fr own c → SameHdr s.st.mem m' c) : Held { s with st.mem := m' } fr own :=
  ⟨h.live, h.heap.congr hs, fun b hb => by
    rw [← h.canary b hb]; exact (hs b (Or.inl hb)).next⟩

/-- Writing to the payload of a block in use. -/
lemma Held.payload {p : ℕ} {m' : Mem} (h : Held s fr own) (hp : p ∈ s.live)
    (hm : ∀ x, x < p ∨ p + size s.st.mem (hdr p) ≤ x → m' x = s.st.mem x) :
    ∀ c, Here fr own c → SameHdr s.st.mem m' c := by
  obtain ⟨e, hb⟩ := mem_live h.heap h.live hp
  exact (h.heap.payload m' (Or.inl hb) fun x hx => hm x (by omega)).2.1

/-- A block handed out, whose payload the call may have written to. -/
lemma Held.gave {st : State} {cpu n ptr b : ℕ} {req : Option ℕ} {l' : List ℕ} {regs : List Seg}
    (m' : Mem) (h : Held s fr own) (hg : Gave s.st st cpu n fr own regs ptr req b l')
    (hm : ∀ x, x < ptr ∨ ptr + alignUp n ≤ x → m' x = st.mem x) :
    Held ⟨⟨m', st.start⟩, ptr :: s.live, regs⟩ (Function.update fr cpu l') (b :: own) ∧
      (∀ c, Here (Function.update fr cpu l') (b :: own) c → SameHdr st.mem m' c) ∧
      ∀ c ∈ own, ∀ x, c ≤ x → x < c + 16 + size s.st.mem c → m' x = s.st.mem x := by
  have hb : Here (Function.update fr cpu l') (b :: own) b := Or.inl (by simp)
  have hsz := hg.size
  have hptr := hg.ptr
  obtain ⟨hh, hs, hout⟩ := hg.heap.payload m' hb fun x hx => hm x (by omega)
  have hk : ∀ c ∈ own, ∀ x, c ≤ x → x < c + 16 + size s.st.mem c → m' x = s.st.mem x := by
    intro c hc x h1 h2
    have hst : ∀ y, c ≤ y → y < c + 16 + size s.st.mem c → st.mem y = s.st.mem y :=
      hg.keep c (Or.inl hc) (h.heap.ownFree c hc cpu)
    have hsize : size st.mem c = size s.st.mem c :=
      rd_congr fun y h1 h2 => hst y h1 (by omega)
    have hne : c ≠ b := by
      rintro rfl
      exact (List.nodup_cons.mp hg.heap.ownNodup).1 hc
    rw [← hst x h1 h2]
    exact hout c (Or.inl (List.mem_cons_of_mem _ hc)) hne x h1 (by rw [hsize]; exact h2)
  refine ⟨⟨by rw [hptr, h.live]; rfl, hh, fun c hc => ?_⟩, hs, hk⟩
  rcases List.mem_cons.mp hc with rfl | hc
  · exact (hs c hb).next.trans hg.canary
  · exact canary_keep h.canary hk c hc

/-- `page_alloc` is asked where the list has no room. -/
lemma room_iff {m' : Mem} {cpu n b : ℕ} {req : Option ℕ} {l' : List ℕ} (h : Held s fr own)
    (ht : Taken s.st.mem m' (fr cpu) b (alignUp n) l' req) : Room s.st cpu n ↔ req = none := by
  simp only [Room, onList_iff h.heap]
  cases ht with
  | cut he hsz => exact iff_of_true ⟨b, by rw [he]; simp, hsz⟩ rfl
  | page he hpl hno =>
    refine iff_of_false ?_ (by simp)
    rintro ⟨c, hc, hle⟩
    have := hno c hc
    unfold hdrSize at hle
    omega

lemma Step.stepAt {op : Op} (h : Step s op s') : Fits op ∧ ∃ lo req, StepAt s lo op req s' := by
  by_cases hop : ∃ n ptr, Returns op n ptr
  · obtain ⟨n, ptr, cpu, rfl | rfl⟩ := hop
    · cases h with | @kalloc fuel _ _ _ g st req hn hg hk =>
      refine ⟨?_, g.lo, req, .kalloc hg hk⟩
      rintro n' p' ⟨c, hr | hr⟩ <;> cases hr
      omega
    · cases h with | @kzalloc fuel _ _ _ g st req hn hg hk =>
      refine ⟨?_, g.lo, req, .kzalloc hg hk⟩
      rintro n' p' ⟨c, hr | hr⟩ <;> cases hr
      omega
  · exact ⟨fun n p hr => absurd ⟨n, p, hr⟩ hop, 0, none, .rest h hop⟩

lemma kzalloc_ok {page : ℕ → Except Stop ℕ} {fuel cpu n ptr : ℕ} {st st' : State} {req : Option ℕ}
    (h : Kalloc.kzalloc page fuel st cpu n = .ok (st', ptr, req)) :
    ∃ st₁, Kalloc.kalloc page fuel st cpu n = .ok (st₁, ptr, req) ∧
      (ptr ≠ 0 → st' = { st₁ with mem := fill st₁.mem ptr n 0 }) := by
  obtain ⟨⟨st₁, ptr₁, req₁⟩, hk, h⟩ := exists_of_bind h
  simp only [pure, Except.pure, Except.ok.injEq, Prod.mk.injEq] at h
  obtain ⟨rfl, rfl, rfl⟩ := h
  exact ⟨st₁, hk, fun h0 => if_pos h0⟩

/-- **What a step does to the heap.** -/
lemma step_moves {lo : ℕ} {op : Op} {req : Option ℕ} (h : Held s fr own)
    (hs : StepAt s lo op req s') (hf : Fits op) :
    ∃ fr' own', Held s' fr' own' ∧ Moves s s' lo fr own op req fr' own' := by
  cases hs with
  | @kalloc fuel cpu n ptr len st req hg hk =>
    obtain ⟨b, l', hgv, hlo⟩ := h.heap.kalloc (hf n ptr ⟨cpu, Or.inl rfl⟩) hg hk
    obtain ⟨hH, hs, hkeep⟩ := h.gave st.mem hgv fun x _ => rfl
    exact ⟨_, _, hH, .gave (Or.inl rfl) hgv hlo hs hkeep⟩
  | @kzalloc fuel cpu n ptr len st req hg hz =>
    have hn := hf n ptr ⟨cpu, Or.inr rfl⟩
    obtain ⟨st₁, hk, hst⟩ := kzalloc_ok hz
    obtain ⟨b, l', hgv, hlo⟩ := h.heap.kalloc hn hg hk
    have hp0 : ptr ≠ 0 := by rw [hgv.ptr]; omega
    have hle := (alignUp_spec hn).2.1
    -- the bytes set to zero are those of the payload
    obtain ⟨hH, hs, hkeep⟩ := h.gave (fill st₁.mem ptr n 0) hgv fun x hx => fill_out (by omega)
    rw [hst hp0]
    exact ⟨_, _, hH, .gave (Or.inr rfl) hgv hlo hs hkeep⟩
  | rest hstep hop =>
    cases hstep with
    | @kalloc _ cpu n ptr => exact absurd ⟨n, ptr, cpu, Or.inl rfl⟩ hop
    | @kzalloc _ cpu n ptr => exact absurd ⟨n, ptr, cpu, Or.inr rfl⟩ hop
    | @kfree fuel cpu ptr st hp hk =>
      obtain ⟨hh1, hl1⟩ := take_live h.heap h.live hp
      obtain ⟨e, hb⟩ := mem_live h.heap h.live hp
      rw [e] at hk
      obtain ⟨l', hput⟩ := hh1.kfree hk
      refine ⟨_, _, ⟨hl1, hput.heap, ?_⟩, .put hp hput⟩
      refine canary_keep (fun b hb' => h.canary b (List.mem_of_mem_erase hb')) fun b hb' => ?_
      exact hput.keep b (Or.inl hb') (hh1.ownFree b (by simp [hb']) cpu)
    | @write p a v hp h1 h2 =>
      have hs : ∀ c, Here fr own c →
          SameHdr s.st.mem (fun x => if x = a then v else s.st.mem x) c :=
        h.payload hp fun x hx => if_neg (by omega)
      exact ⟨fr, own, h.congr hs, .same (Or.inl rfl) hs⟩
    | @other m hm =>
      have hs : ∀ c, Here fr own c → SameHdr s.st.mem m c := by
        intro b hb x h1 h2
        obtain ⟨r, hr, h3, h4⟩ := h.heap.cov b hb x h1 (by simp only [Seg.hi, blk]; omega)
        exact hm r hr x h3 h4
      exact ⟨fr, own, h.congr hs, .same (Or.inr rfl) hs⟩

end

/-- What is known after a call that hands out a block. -/
structure AllocOk (s s' : Sys) (n ptr : ℕ) : Prop where
  inv : Inv s'
  al : ptr % allocAlign = 0
  size : n ≤ Header.size s'.st.mem (hdr ptr)
  keep : ∀ p ∈ s.live, ∀ x ∈ bytes s.st.mem (hdr p), s'.st.mem x = s.st.mem x

lemma step_alloc {s s' : Sys} {op : Op} {n ptr : ℕ} (h : Inv s) (hs : Step s op s')
    (hop : Returns op n ptr) : AllocOk s s' n ptr := by
  obtain ⟨fr, own, h⟩ := h.held
  obtain ⟨hf, lo, req, hs⟩ := hs.stepAt
  obtain ⟨fr', own', hH, hmv⟩ := step_moves h hs hf
  cases hmv with
  | @gave op' cpu n' ptr' b st req l' hop' hg hlo hs hk =>
    obtain ⟨rfl, rfl⟩ : n' = n ∧ ptr' = ptr := by
      obtain ⟨c, hop | hop⟩ := hop <;> rcases hop' with hop' | hop' <;> rw [hop] at hop' <;>
        cases hop' <;> exact ⟨rfl, rfl⟩
    have hb : Here (Function.update fr cpu l') (b :: own) b := Or.inl (by simp)
    have hbd := hH.heap.bounds hb
    have hal := (hH.heap.al b hb).1
    have hhdr : hdr ptr' = b := by rw [hg.ptr]; exact hdr_add (by omega)
    refine ⟨hH.inv, ?_, ?_, fun p hp x hx => ?_⟩
    · rw [hg.ptr, allocAlign]
      omega
    · rw [hhdr, (hs b hb).size, hg.size]
      exact (alignUp_spec (hf n' ptr' hop)).2.1
    · exact hk _ (mem_live h.heap h.live hp).2 x hx.1 hx.2
  | put => obtain ⟨c, hop | hop⟩ := hop <;> cases hop
  | same hop' => obtain ⟨c, hop | hop⟩ := hop <;> rcases hop' with hop' | hop' <;> rw [hop] at hop' <;> cases hop'

lemma step_free {s s' : Sys} {cpu ptr : ℕ} (h : Inv s) (hs : Step s (.kfree cpu ptr) s') :
    ∀ p ∈ s.live, ptr ≠ p → ∀ x ∈ bytes s.st.mem (hdr p), s'.st.mem x = s.st.mem x := by
  obtain ⟨fr, own, h⟩ := h.held
  obtain ⟨hf, lo, req, hs⟩ := hs.stepAt
  obtain ⟨fr', own', hH, hmv⟩ := step_moves h hs hf
  intro p hp' hne x hx
  cases hmv with
  | gave hop => rcases hop with hop | hop <;> cases hop
  | same hop => rcases hop with hop | hop <;> cases hop
  | put hp hput =>
    obtain ⟨e, hb⟩ := mem_live h.heap h.live hp
    obtain ⟨e', hb'⟩ := mem_live h.heap h.live hp'
    have hne' : hdr p ≠ hdr ptr := fun e'' => hne (by omega)
    exact hput.keep _ (Or.inl ((List.mem_erase_of_ne hne').mpr hb')) (h.heap.ownFree _ hb' cpu)
      x hx.1 hx.2

lemma step_inv {s s' : Sys} {op : Op} (h : Inv s) (hs : Step s op s') : Inv s' := by
  obtain ⟨fr, own, h⟩ := h.held
  obtain ⟨hf, lo, req, hs⟩ := hs.stepAt
  obtain ⟨fr', own', hH, -⟩ := step_moves h hs hf
  exact hH.inv

lemma runs_inv {s s' : Sys} (h : Inv s) (hr : Runs s s') : Inv s' := by
  induction hr with
  | refl => exact h
  | tail _ hst ih =>
    obtain ⟨op, hst⟩ := hst
    exact step_inv ih hst

lemma Inv.safe {s : Sys} (h : Inv s) : Safe s := by
  obtain ⟨fr, own, hl, hh, hc⟩ := id h
  have hmap : s.live.map hdr = own := by
    rw [hl, List.map_map]
    conv_rhs => rw [← List.map_id own]
    refine List.map_congr_left fun b hb => ?_
    have := hh.bounds (Or.inl hb)
    rw [Function.comp_apply, hdr_add (by omega), id]
  refine ⟨fun b b' hb hb' hne => ?_, fun cpu => ⟨fr cpu, hh.chain cpu, hh.nodup cpu, fun b => ?_⟩,
    fun b cpu cpu' hb hb' => ?_, ⟨?_, fun p hp cpu hb => ?_⟩, fun op n ptr s' hs hop => ?_,
    fun op s' p hs hp hop => ?_, fun p hp cpu => ?_⟩
  · have := hh.apart b b' ((isBlock_iff hh hl b).mp hb) ((isBlock_iff hh hl b').mp hb') hne
    simp only [Apart, Seg.hi, blk] at this
    refine Set.disjoint_left.mpr fun x hx hy => ?_
    simp only [bytes, Set.mem_Ico, hdrSize] at hx hy
    omega
  · exact (onList_iff hh).symm
  · exact hh.one b cpu cpu' ((onList_iff hh).mp hb) ((onList_iff hh).mp hb')
  · rw [hmap]; exact hh.ownNodup
  · exact hh.ownFree _ (mem_live hh hl hp).2 cpu ((onList_iff hh).mp hb)
  · have hok := step_alloc h hs hop
    exact ⟨hok.al, hok.size⟩
  · rcases hop with ⟨n, ptr, hop⟩ | ⟨cpu, ptr, rfl, hne⟩
    · exact (step_alloc h hs hop).keep p hp
    · exact step_free h hs p hp hne
  · obtain ⟨hh1, -⟩ := take_live hh hl hp
    obtain ⟨e, hb⟩ := mem_live hh hl hp
    refine ⟨(fr cpu).length, fun fuel hfuel => ?_⟩
    rw [e]
    exact hh1.kfree_total (hc _ hb) hfuel

/-- **`kalloc` returns in every run**, given a region it may take if its lists have no block. -/
theorem runs_kalloc_returns {m : Mem} {s : Sys} {n : ℕ} {g : Seg} (h : Runs (init m) s)
    (hn : n < 2 ^ 62) (hg : Grant s.regs (alignUp n + 32) g) (cpu : ℕ) :
    ∃ fuel₀, ∀ fuel ≥ fuel₀, ∃ r, Kalloc.kalloc (fun _ => .ok g.lo) fuel s.st cpu n = .ok r := by
  obtain ⟨fr, own, -, hh, -⟩ := runs_inv (Inv.init m) h
  exact ⟨(fr cpu).length + 1, fun fuel hfuel => hh.kalloc_total (by omega) hg hfuel⟩

/-! ### Concrete runs -/

instance (regs : List Seg) (r : ℕ) (g : Seg) : Decidable (Grant regs r g) :=
  decidable_of_iff (g.lo % 16 = 0 ∧ PageAlloc.blockSize r ≤ g.len ∧ (∀ x ∈ regs, Apart g x) ∧
      0 < g.lo ∧ g.hi < 2 ^ 64)
    ⟨fun ⟨h1, h2, h3, h4, h5⟩ => ⟨h1, h2, h3, h4, h5⟩, fun h => ⟨h.lo, h.len, h.apart, h.pos, h.top⟩⟩

/-- One call, where `page_alloc` would give a page at `lo`. Calls that a client must not make and
writes are refused. -/
def exec (fuel lo : ℕ) (s : Sys) : Op → Except Stop Sys
  | .kalloc cpu n ptr => do
    let (st, p, req) ← Kalloc.kalloc (fun _ => .ok lo) fuel s.st cpu n
    if n < 2 ^ 62 ∧ p = ptr ∧ ∀ r ∈ req, Grant s.regs r ⟨lo, pageSize⟩ then
      return ⟨st, ptr :: s.live, addReg s.regs ⟨lo, pageSize⟩ req⟩
    else throw .fault
  | .kfree cpu ptr => do
    let st ← Kalloc.kfree fuel s.st cpu ptr
    if ptr ∈ s.live then return ⟨st, s.live.erase ptr, s.regs⟩ else throw .fault
  | _ => throw .fault

lemma exec_stepAt {fuel lo : ℕ} {s s' : Sys} {op : Op} (h : exec fuel lo s op = .ok s') :
    Step s op s' ∧ Fits op ∧ ∃ req, StepAt s lo op req s' := by
  cases op with
  | kalloc cpu n ptr =>
    obtain ⟨⟨st, p, req⟩, hk, h⟩ := exists_of_bind h
    simp only at h
    by_cases hc : n < 2 ^ 62 ∧ p = ptr ∧ ∀ r ∈ req, Grant s.regs r ⟨lo, pageSize⟩
    · rw [if_pos hc] at h
      obtain ⟨hn, rfl, hg⟩ := hc
      cases h
      have hs : Step s (.kalloc cpu n p) _ := .kalloc (g := ⟨lo, pageSize⟩) hn hg hk
      exact ⟨hs, hs.stepAt.1, req, .kalloc hg hk⟩
    · rw [if_neg hc] at h
      cases h
  | kfree cpu ptr =>
    obtain ⟨st, hk, h⟩ := exists_of_bind h
    by_cases hc : ptr ∈ s.live
    · rw [if_pos hc] at h
      cases h
      have hs : Step s (.kfree cpu ptr) _ := .kfree hc hk
      refine ⟨hs, hs.stepAt.1, none, .rest hs ?_⟩
      rintro ⟨n, p, c, hr | hr⟩ <;> cases hr
    · rw [if_neg hc] at h
      cases h
  | kzalloc cpu n ptr => cases h
  | write => cases h
  | other => cases h

lemma exec_step {fuel lo : ℕ} {s s' : Sys} {op : Op} (h : exec fuel lo s op = .ok s') :
    Step s op s' := (exec_stepAt h).1

lemma first_kalloc (m : Mem) : ∃ st, Kalloc.kalloc (fun _ => .ok 0x100000) 1 (init m).st 0 24 =
    .ok (st, 0x100010, some 64) := ⟨_, rfl⟩

end Silkware.KallocRuns
