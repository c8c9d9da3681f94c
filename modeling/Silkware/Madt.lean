import Mathlib.Data.List.Induction
import Mathlib.Data.Nat.Bitwise
import Silkware.ByteMem
import Silkware.Kern
import Silkware.Orbits

/-!
The MADT: the record loop of `apic_init` in `arch/x86_64/apic.c`.

A record is a type byte, a length byte and data. Both bytes are signed in the source, and the length
is added to the cursor with its sign.
-/

namespace Silkware.Madt

open Silkware.ByteMem Silkware.Kern Silkware.Orbits

/-! ### The functions -/

/-- The 32-bit word at `a`. -/
def rd32 (m : Mem) (a : ℕ) : ℕ := rd m a % 2 ^ 32

/-- `madt->h.length` -/
def lengthOf (m : Mem) (madt : ℕ) : ℕ := rd32 m (madt + 4)

/-- `madt->lapic_addr` -/
def lapicAddr (m : Mem) (madt : ℕ) : ℕ := rd32 m (madt + 36)

/-- `madt->data` -/
def firstRecord (madt : ℕ) : ℕ := (madt + 44) % 2 ^ 64

/-- `(uintptr_t)madt + madt->h.length` -/
def tableEnd (m : Mem) (madt : ℕ) : ℕ := (madt + lengthOf m madt) % 2 ^ 64

/-- `p->data[i]` -/
def dataOf (m : Mem) (p i : ℕ) : UInt8 := m (p + 2 + i)

/-- `LAPIC_PHYS_ADDR` -/
def lapicPhysAddr : ℕ := 0

/-- `LAPIC_FLAGS` -/
def lapicFlags : ℕ := 2

/-- `MADT_LAPIC` -/
def madtLapic : UInt8 := 0

/-- `MADT_64BIT` -/
def madt64bit : UInt8 := 5

/-- An `int8_t` as an operand beside a `uintptr_t`. -/
def signExtend (b : UInt8) : ℕ := if b.toNat < 128 then b.toNat else b.toNat + (2 ^ 64 - 256)

/-- `(uintptr_t)p + p->len` -/
def nextRecord (m : Mem) (p : ℕ) : ℕ := (p + signExtend (m (p + 1))) % 2 ^ 64

/-- The records visited, and the two variables of the loop. -/
structure Walk where
  visited : List ℕ
  numcores : ℕ
  lapicBase : ℕ
  deriving DecidableEq

/-- `p->data[LAPIC_FLAGS] & 1 || p->data[LAPIC_FLAGS] & 2` -/
def Usable (m : Mem) (p : ℕ) : Prop :=
  dataOf m p lapicFlags &&& 1 ≠ 0 ∨ dataOf m p lapicFlags &&& 2 ≠ 0

instance (m : Mem) (p : ℕ) : Decidable (Usable m p) := inferInstanceAs (Decidable (_ ∨ _))

/-- The body of the loop. -/
def visit (m : Mem) (p : ℕ) (w : Walk) : Walk :=
  let w := { w with visited := w.visited ++ [p] }
  if m p = madtLapic then
    if Usable m p then { w with numcores := (w.numcores + 1) % 2 ^ 16 } else w
  else if m p = madt64bit then { w with lapicBase := rd m (p + 2 + lapicPhysAddr) }
  else w

/-- The loop over the records, from the cursor `p`. -/
def recordLoop (m : Mem) (madt : ℕ) : ℕ → ℕ → Walk → Except Stop Walk
  | 0, _, _ => throw .hang
  | fuel + 1, p, w =>
    if p < tableEnd m madt then recordLoop m madt fuel (nextRecord m p) (visit m p w) else return w

def walk (fuel : ℕ) (m : Mem) (madt : ℕ) : Except Stop Walk :=
  recordLoop m madt fuel (firstRecord madt) ⟨[], 0, lapicAddr m madt⟩

/-- `apic_init` up to the mapping of the local APIC, whose physical address it returns; `found` is the
table `acpi_find` returned. -/
def apicInit (fuel : ℕ) (m : Mem) (found ncpus : ℕ) : Except Stop ℕ := do
  if found = 0 then throw .panic
  let w ← walk fuel m found
  if w.numcores ≠ ncpus then throw .panic
  return w.lapicBase

/-! ### Where the loop ends -/

/-- The cursor after `i` records. -/
def cursor (m : Mem) (madt i : ℕ) : ℕ := (nextRecord m)^[i] (firstRecord madt)

/-- The cursor comes to be at its `i`th place: all those before it are inside the table. -/
def Reached (m : Mem) (madt i : ℕ) : Prop := ∀ k < i, cursor m madt k < tableEnd m madt

/-- The loop returns for some fuel, and its cursor is never below the first record. -/
structure Ends (m : Mem) (madt : ℕ) : Prop where
  returns : ∃ fuel w, walk fuel m madt = .ok w
  above : ∀ i, Reached m madt i → firstRecord madt ≤ cursor m madt i

section

variable {m : Mem} {madt : ℕ}

lemma recordLoop_returns_iff {p : ℕ} {w : Walk} :
    (∃ fuel w', recordLoop m madt fuel p w = .ok w') ↔
      Leaves (nextRecord m) (· < tableEnd m madt) p := by
  constructor
  · rintro ⟨fuel, w', h⟩
    induction fuel generalizing p w with
    | zero => cases h
    | succ fuel ih =>
      rw [recordLoop] at h
      by_cases hp : p < tableEnd m madt
      · rw [if_pos hp] at h
        obtain ⟨n, hn⟩ := ih h
        exact ⟨n + 1, hn⟩
      · exact ⟨0, hp⟩
  · rintro ⟨n, hn⟩
    induction n generalizing p w with
    | zero => exact ⟨1, w, if_neg hn⟩
    | succ n ih =>
      by_cases hp : p < tableEnd m madt
      · obtain ⟨fuel, w', h⟩ := ih (w := visit m p w) hn
        exact ⟨fuel + 1, w', (if_pos hp).trans h⟩
      · exact ⟨1, w, if_neg hp⟩

lemma cursor_succ (m : Mem) (madt i : ℕ) :
    cursor m madt (i + 1) = nextRecord m (cursor m madt i) := Function.iterate_succ_apply' ..

lemma returns_iff : (∃ fuel w, walk fuel m madt = .ok w) ↔
    ∀ i, Reached m madt (i + 1) → ∀ k ≤ i, nextRecord m (cursor m madt i) ≠ cursor m madt k := by
  have hfin : {p | p < tableEnd m madt}.Finite := Set.finite_lt_nat _
  have h : (∃ fuel w, walk fuel m madt = .ok w) ↔
      Leaves (nextRecord m) (· < tableEnd m madt) (firstRecord madt) := recordLoop_returns_iff
  rw [leaves_iff hfin] at h
  refine h.trans (forall_congr' fun i => imp_congr_right fun _ => ?_)
  rw [Function.iterate_succ_apply']
  rfl

/-- **The loop ends above the first record** just when every length byte it meets leads to a place
that is not below the first record and that it has not been at. -/
theorem walk_ends_iff (m : Mem) (madt : ℕ) :
    Ends m madt ↔ ∀ i, Reached m madt (i + 1) →
      firstRecord madt ≤ nextRecord m (cursor m madt i) ∧
        ∀ k ≤ i, nextRecord m (cursor m madt i) ≠ cursor m madt k := by
  constructor
  · rintro ⟨hret, habove⟩ i hi
    refine ⟨?_, returns_iff.mp hret i hi⟩
    rw [← cursor_succ]
    exact habove (i + 1) hi
  · intro h
    refine ⟨returns_iff.mpr fun i hi => (h i hi).2, fun i hi => ?_⟩
    cases i with
    | zero => exact le_rfl
    | succ i =>
      rw [cursor_succ]
      exact (h i hi).1

/-- A table of zeros after its length, which is 100. -/
def zeroTable : Mem := fun x => if x = 0x1004 then 100 else 0

/-- A length byte of zero: the cursor stays where it is. -/
theorem walk_not_ends : ¬ ∀ m madt, Ends m madt := by
  intro h
  refine returns_iff.mp (h zeroTable 0x1000).returns 0 (fun k hk => ?_) 0 le_rfl (by decide)
  obtain rfl : k = 0 := by omega
  decide

/-- **Length bytes from 1 to 127** bring the loop to its end. -/
theorem walk_ends_of_positive {m : Mem} {madt : ℕ} (htop : tableEnd m madt + 127 < 2 ^ 64)
    (h : ∀ p, firstRecord madt ≤ p → p < tableEnd m madt →
      1 ≤ (m (p + 1)).toNat ∧ (m (p + 1)).toNat < 128) : Ends m madt := by
  have hnext : ∀ p, firstRecord madt ≤ p → p < tableEnd m madt → p < nextRecord m p := by
    intro p h1 h2
    obtain ⟨h3, h4⟩ := h p h1 h2
    rw [nextRecord, signExtend, if_pos h4, Nat.mod_eq_of_lt (by omega)]
    omega
  -- the cursor only moves up
  have hup : ∀ i, Reached m madt i →
      firstRecord madt ≤ cursor m madt i ∧ ∀ k < i, cursor m madt k < cursor m madt i := by
    intro i
    induction i with
    | zero => exact fun _ => ⟨le_rfl, fun k hk => absurd hk (by omega)⟩
    | succ i ih =>
      intro hi
      obtain ⟨h1, h2⟩ := ih fun k hk => hi k (by omega)
      have hlt := hnext _ h1 (hi i (by omega))
      rw [cursor_succ]
      refine ⟨by omega, fun k hk => ?_⟩
      rcases Nat.lt_succ_iff_lt_or_eq.mp hk with hk | rfl
      · exact (h2 k hk).trans hlt
      · exact hlt
  refine ⟨returns_iff.mpr fun i hi k hk => ?_, fun i hi => (hup i hi).1⟩
  have := (hup (i + 1) hi).2 k (by omega)
  rw [cursor_succ] at this
  exact this.ne'

end

/-! ### Tables whose records fill them -/

/-- `p->len` as the specification has it, without a sign. -/
def recordLen (m : Mem) (p : ℕ) : ℕ := (m (p + 1)).toNat

/-- Records of at least two bytes that follow one another from `p` to `e`. -/
inductive Records (m : Mem) (e : ℕ) : ℕ → List ℕ → Prop
  | nil : Records m e e []
  | cons {p : ℕ} {rest : List ℕ} (h2 : 2 ≤ recordLen m p)
      (h : Records m e (p + recordLen m p) rest) : Records m e p (p :: rest)

/-- The flags of a record of type 0. -/
def flagsOf (m : Mem) (r : ℕ) : ℕ := rd32 m (r + 4)

/-- A processor that is enabled or can be. -/
def IsCore (m : Mem) (r : ℕ) : Prop :=
  m r = 0 ∧ ((flagsOf m r).testBit 0 = true ∨ (flagsOf m r).testBit 1 = true)

instance (m : Mem) (r : ℕ) : Decidable (IsCore m r) := inferInstanceAs (Decidable (_ ∧ _))

def coreCount (m : Mem) (recs : List ℕ) : ℕ := recs.countP fun r => IsCore m r

/-- The last record of type 5. -/
def lastOverride (m : Mem) (recs : List ℕ) : Option ℕ := (recs.filter fun r => m r = 5).getLast?

/-- The address in the last record of type 5, at an offset, or `lapic_addr`. -/
def physAt (m : Mem) (madt off : ℕ) (recs : List ℕ) : ℕ :=
  (lastOverride m recs).elim (lapicAddr m madt) fun r => rd m (r + off)

/-- The loop visits the records in order, counts the cores, and takes the address that the layout of
the record has at offset 4. -/
def Parsed (m : Mem) (madt : ℕ) (recs : List ℕ) : Prop :=
  ∃ fuel, walk fuel m madt = .ok ⟨recs, coreCount m recs, physAt m madt 4 recs⟩

section

variable {m : Mem} {madt e p : ℕ} {recs : List ℕ}

lemma Records.le (h : Records m e p recs) : p ≤ e := by
  induction h with
  | nil => exact le_rfl
  | cons h2 h ih => omega

lemma Records.head {q : ℕ} (h : Records m e p (q :: recs)) : q = p := by
  cases h
  rfl

lemma and_ne_zero_iff {b c : UInt8} {i : ℕ} (hc : c.toNat = 2 ^ i) :
    b &&& c ≠ 0 ↔ b.toNat.testBit i = true := by
  rw [ne_eq, ← UInt8.toNat_inj, UInt8.toNat_and, hc, Nat.and_two_pow]
  cases b.toNat.testBit i <;> simp

/-- The bits the code tests are the two lowest flags. -/
lemma usable_iff (r : ℕ) : Usable m r ↔
    (flagsOf m r).testBit 0 = true ∨ (flagsOf m r).testBit 1 = true := by
  have hlow : ∀ i < 2, (m (r + 4)).toNat.testBit i = (flagsOf m r).testBit i := by
    intro i hi
    have hmod : flagsOf m r % 4 = (m (r + 4)).toNat % 4 := by
      unfold flagsOf rd32 rd
      omega
    rw [Nat.testBit_eq_decide_div_mod_eq, Nat.testBit_eq_decide_div_mod_eq]
    rcases Nat.lt_succ_iff_lt_or_eq.mp hi with hi | rfl
    · obtain rfl : i = 0 := by omega
      exact decide_eq_decide.mpr (by omega)
    · exact decide_eq_decide.mpr (by omega)
  rw [Usable, dataOf, lapicFlags, and_ne_zero_iff (i := 0) rfl, and_ne_zero_iff (i := 1) rfl,
    hlow 0 (by omega), hlow 1 (by omega)]

lemma visit_eq (w : Walk) (r : ℕ) : visit m r w = ⟨w.visited ++ [r],
    if IsCore m r then (w.numcores + 1) % 2 ^ 16 else w.numcores,
    if m r = 5 then rd m (r + 2) else w.lapicBase⟩ := by
  unfold visit IsCore madtLapic madt64bit
  simp only [← usable_iff]
  by_cases h0 : m r = 0
  · have h5 : m r ≠ 5 := by
      rw [h0]
      decide
    by_cases hu : Usable m r
    · simp only [if_pos h0, if_pos hu, if_pos (And.intro h0 hu), if_neg h5]
    · simp only [if_pos h0, if_neg hu, if_neg (fun h : m r = 0 ∧ Usable m r => hu h.2), if_neg h5]
  · rw [if_neg h0, if_neg fun h : m r = 0 ∧ Usable m r => h0 h.1]
    split <;> rfl

lemma coreCount_snoc (recs : List ℕ) (r : ℕ) :
    coreCount m (recs ++ [r]) = coreCount m recs + if IsCore m r then 1 else 0 := by
  rw [coreCount, List.countP_append, List.countP_singleton]
  simp [coreCount]

lemma lastOverride_snoc (recs : List ℕ) (r : ℕ) :
    lastOverride m (recs ++ [r]) = if m r = 5 then some r else lastOverride m recs := by
  rw [lastOverride, List.filter_append]
  by_cases hr : m r = 5
  · simp [hr]
  · simp [hr, lastOverride]

/-- A counter that wraps at `k` counts modulo `k`. -/
lemma count_step (a c k : ℕ) (p : Prop) [Decidable p] :
    (if p then ((a + c) % k + 1) % k else (a + c) % k) = (a + (c + if p then 1 else 0)) % k := by
  split
  · rw [Nat.mod_add_mod, Nat.add_assoc]
  · rw [Nat.add_zero]

/-- What the body of the loop does over a list of records. -/
def visitAll (m : Mem) (recs : List ℕ) (w : Walk) : Walk := recs.foldl (fun w r => visit m r w) w

lemma visitAll_snoc (recs : List ℕ) (r : ℕ) (w : Walk) :
    visitAll m (recs ++ [r]) w = visit m r (visitAll m recs w) := by
  rw [visitAll, List.foldl_append]
  rfl

lemma visitAll_visited (recs : List ℕ) (w : Walk) :
    (visitAll m recs w).visited = w.visited ++ recs := by
  induction recs using List.reverseRecOn with
  | nil => exact (List.append_nil _).symm
  | append_singleton recs r ih => rw [visitAll_snoc, visit_eq, ih, List.append_assoc]

lemma visitAll_numcores (recs : List ℕ) {w : Walk} (hw : w.numcores < 2 ^ 16) :
    (visitAll m recs w).numcores = (w.numcores + coreCount m recs) % 2 ^ 16 := by
  induction recs using List.reverseRecOn with
  | nil => exact (Nat.mod_eq_of_lt hw).symm
  | append_singleton recs r ih =>
    rw [visitAll_snoc, coreCount_snoc, ← count_step, ← ih, visit_eq]

lemma visitAll_lapicBase (recs : List ℕ) (w : Walk) : (visitAll m recs w).lapicBase =
    (lastOverride m recs).elim w.lapicBase fun r => rd m (r + 2) := by
  induction recs using List.reverseRecOn with
  | nil => rw [show lastOverride m [] = none from rfl, Option.elim_none, visitAll, List.foldl_nil]
  | append_singleton recs r ih =>
    rw [visitAll_snoc, lastOverride_snoc, visit_eq]
    by_cases h5 : m r = 5
    · rw [if_pos h5, if_pos h5, Option.elim_some]
    · rw [if_neg h5, if_neg h5, ih]

lemma nextRecord_of_lt (h : recordLen m p < 128) (hp : p + recordLen m p < 2 ^ 64) :
    nextRecord m p = p + recordLen m p := by
  unfold recordLen at h hp
  rw [nextRecord, signExtend, if_pos h, Nat.mod_eq_of_lt hp]
  rfl

/-- A length of 128 or more sends the cursor back. -/
lemma nextRecord_of_ge (h : ¬ recordLen m p < 128) (h256 : 256 ≤ p) (hp : p < 2 ^ 64) :
    nextRecord m p + (256 - recordLen m p) = p ∧ recordLen m p < 256 := by
  have hlt := (m (p + 1)).toNat_lt
  unfold recordLen at h ⊢
  rw [nextRecord, signExtend, if_neg h]
  omega

/-- The loop over records whose lengths are below 128. -/
lemma recordLoop_short (h : Records m (tableEnd m madt) p recs)
    (hlen : ∀ r ∈ recs, recordLen m r < 128) (w : Walk) :
    recordLoop m madt (recs.length + 1) p w = .ok (visitAll m recs w) := by
  have htop : tableEnd m madt < 2 ^ 64 := Nat.mod_lt _ (by norm_num)
  induction h generalizing w with
  | nil => exact if_neg (lt_irrefl _)
  | @cons p rest h2 h ih =>
    have hle := h.le
    have hp : p < tableEnd m madt := by omega
    have hnext := nextRecord_of_lt (hlen p List.mem_cons_self) (by omega)
    have hstep := ih (fun r hr => hlen r (List.mem_cons_of_mem p hr)) (visit m p w)
    rw [List.length_cons, recordLoop, if_pos hp, hnext, hstep]
    rfl

/-- What has been visited stays visited, and a cursor inside the table is visited next. -/
lemma recordLoop_visits {fuel : ℕ} {w w' : Walk} (h : recordLoop m madt fuel p w = .ok w') :
    w.visited <+: w'.visited ∧ (p < tableEnd m madt → w.visited ++ [p] <+: w'.visited) := by
  induction fuel generalizing p w with
  | zero => cases h
  | succ fuel ih =>
    rw [recordLoop] at h
    by_cases hp : p < tableEnd m madt
    · rw [if_pos hp] at h
      have hpre := (ih h).1
      rw [visit_eq] at hpre
      exact ⟨(List.prefix_append ..).trans hpre, fun _ => hpre⟩
    · rw [if_neg hp] at h
      obtain rfl := Except.ok.inj h
      exact ⟨List.prefix_rfl, fun hp' => absurd hp' hp⟩

/-- The loop over records one of which has a length of 128 or more visits something else. -/
lemma recordLoop_long (h : Records m (tableEnd m madt) p recs) (h256 : 256 ≤ p)
    (hlen : ∃ r ∈ recs, ¬ recordLen m r < 128) {fuel : ℕ} {w w' : Walk}
    (hrun : recordLoop m madt fuel p w = .ok w') : w'.visited ≠ w.visited ++ recs := by
  have htop : tableEnd m madt < 2 ^ 64 := Nat.mod_lt _ (by norm_num)
  induction h generalizing fuel w with
  | nil =>
    obtain ⟨r, hr, -⟩ := hlen
    exact absurd hr List.not_mem_nil
  | @cons p rest h2 h ih =>
    have hle := h.le
    have hp : p < tableEnd m madt := by omega
    cases fuel with
    | zero => cases hrun
    | succ fuel =>
      rw [recordLoop, if_pos hp] at hrun
      by_cases hshort : recordLen m p < 128
      · rw [nextRecord_of_lt hshort (by omega)] at hrun
        have hrest : ∃ r ∈ rest, ¬ recordLen m r < 128 := by
          obtain ⟨r, hr, hlong⟩ := hlen
          rcases List.mem_cons.mp hr with rfl | hr
          · exact absurd hshort hlong
          · exact ⟨r, hr, hlong⟩
        have hne := ih (by omega) hrest hrun
        rw [visit_eq, List.append_assoc] at hne
        exact hne
      · -- the next place lies before `p`, and the next record after it
        obtain ⟨hback, hlt⟩ := nextRecord_of_ge hshort h256 (by omega)
        have hpre := (recordLoop_visits hrun).2 (by omega)
        rw [visit_eq] at hpre
        intro he
        rw [he, List.append_assoc, List.prefix_append_right_inj, List.singleton_append] at hpre
        obtain ⟨t, ht⟩ := hpre
        rw [List.cons_append, List.singleton_append] at ht
        have hrest : rest = nextRecord m p :: t := (List.cons.inj ht).2.symm
        have := (hrest ▸ h).head
        omega

/-- More fuel does not change what the loop returns. -/
lemma recordLoop_unique {fuel fuel' : ℕ} {w w₁ w₂ : Walk}
    (h1 : recordLoop m madt fuel p w = .ok w₁) (h2 : recordLoop m madt fuel' p w = .ok w₂) :
    w₁ = w₂ := by
  induction fuel generalizing fuel' p w with
  | zero => cases h1
  | succ fuel ih =>
    cases fuel' with
    | zero => cases h2
    | succ fuel' =>
      rw [recordLoop] at h1 h2
      by_cases hp : p < tableEnd m madt
      · rw [if_pos hp] at h1 h2
        exact ih h1 h2
      · rw [if_neg hp] at h1 h2
        exact Except.ok.inj (h1.symm.trans h2)

end

/-- The table lies in memory: not in the first page, and not over the end. -/
structure Placed (m : Mem) (madt : ℕ) (recs : List ℕ) : Prop where
  low : pageSize ≤ madt
  top : madt + lengthOf m madt < 2 ^ 64
  records : Records m (madt + lengthOf m madt) (madt + 44) recs

section

variable {m : Mem} {madt : ℕ} {recs : List ℕ}

lemma Placed.loop (h : Placed m madt recs) : firstRecord madt = madt + 44 ∧
    256 ≤ firstRecord madt ∧ Records m (tableEnd m madt) (firstRecord madt) recs := by
  have hlow := h.low
  have hle := h.records.le
  have htop := h.top
  have hfirst : firstRecord madt = madt + 44 := Nat.mod_eq_of_lt (by omega)
  have hend : tableEnd m madt = madt + lengthOf m madt := Nat.mod_eq_of_lt htop
  unfold pageSize at hlow
  rw [hfirst, hend]
  exact ⟨rfl, by omega, h.records⟩

/-- A walk over records whose lengths are below 128. -/
lemma walk_short (h : Placed m madt recs) (hlen : ∀ r ∈ recs, recordLen m r < 128) :
    walk (recs.length + 1) m madt =
      .ok ⟨recs, coreCount m recs % 2 ^ 16, physAt m madt 2 recs⟩ := by
  obtain ⟨-, -, hrec⟩ := h.loop
  rw [walk, recordLoop_short hrec hlen]
  refine congrArg Except.ok ?_
  obtain ⟨w, hw⟩ : ∃ w, visitAll m recs ⟨[], 0, lapicAddr m madt⟩ = w := ⟨_, rfl⟩
  have h1 := visitAll_visited (m := m) recs ⟨[], 0, lapicAddr m madt⟩
  have h2 := visitAll_numcores (m := m) recs (w := ⟨[], 0, lapicAddr m madt⟩)
    (show 0 < 2 ^ 16 by norm_num)
  have h3 := visitAll_lapicBase (m := m) recs ⟨[], 0, lapicAddr m madt⟩
  rw [hw] at h1 h2 h3 ⊢
  obtain ⟨v, n, b⟩ := w
  simp only [List.nil_append, Nat.zero_add] at h1 h2 h3
  rw [h1, h2, h3, physAt]

lemma apicInit_ok {fuel ncpus : ℕ} {w : Walk} (h0 : madt ≠ 0) (h : walk fuel m madt = .ok w)
    (hn : w.numcores = ncpus) : apicInit fuel m madt ncpus = .ok w.lapicBase := by
  rw [apicInit, if_neg h0, h]
  exact if_neg (not_not_intro hn)

lemma apicInit_panic {fuel ncpus : ℕ} {w : Walk} (h0 : madt ≠ 0) (h : walk fuel m madt = .ok w)
    (hn : w.numcores ≠ ncpus) : apicInit fuel m madt ncpus = .error .panic := by
  rw [apicInit, if_neg h0, h]
  exact if_pos hn

lemma physAt_congr (h : ∀ r, lastOverride m recs = some r → rd m (r + 2) = rd m (r + 4)) :
    physAt m madt 2 recs = physAt m madt 4 recs := by
  rw [physAt, physAt]
  cases hlast : lastOverride m recs with
  | none => rw [Option.elim_none, Option.elim_none]
  | some r => rw [Option.elim_some, Option.elim_some, h r hlast]

/-- **The MADT is parsed as its layout says** just when no record has a length of 128 or more, the
cores fit the counter, and the last record of type 5 has the same address at offset 2 as at offset 4. -/
theorem apic_init_parses_iff (h : Placed m madt recs) : Parsed m madt recs ↔
    (∀ r ∈ recs, recordLen m r < 128) ∧ coreCount m recs < 2 ^ 16 ∧
      ∀ r, lastOverride m recs = some r → rd m (r + 2) = rd m (r + 4) := by
  obtain ⟨hfirst, h256, hrec⟩ := h.loop
  constructor
  · rintro ⟨fuel, hrun⟩
    have hlen : ∀ r ∈ recs, recordLen m r < 128 := by
      intro r hr
      by_contra hlong
      exact recordLoop_long hrec h256 ⟨r, hr, hlong⟩ hrun rfl
    have he := recordLoop_unique (walk_short h hlen) hrun
    simp only [Walk.mk.injEq, true_and] at he
    refine ⟨hlen, ?_, fun r hr => ?_⟩
    · have := Nat.mod_lt (coreCount m recs) (show 0 < 2 ^ 16 by norm_num)
      omega
    · have hphys := he.2
      rwa [physAt, physAt, hr, Option.elim_some, Option.elim_some] at hphys
  · rintro ⟨hlen, hcores, haddr⟩
    refine ⟨recs.length + 1, ?_⟩
    rw [walk_short h hlen, Nat.mod_eq_of_lt hcores, physAt_congr haddr]

/-- **`apic_init` on short records** passes its assertion just when the processors it counts are those
the machine has, and maps the address it took from offset 2. -/
theorem apicInit_maps_iff (h : Placed m madt recs) (hlen : ∀ r ∈ recs, recordLen m r < 128)
    (ncpus phys : ℕ) : apicInit (recs.length + 1) m madt ncpus = .ok phys ↔
      coreCount m recs % 2 ^ 16 = ncpus ∧ physAt m madt 2 recs = phys := by
  have hlow := h.low
  unfold pageSize at hlow
  have h0 : madt ≠ 0 := by omega
  by_cases hn : coreCount m recs % 2 ^ 16 = ncpus
  · rw [apicInit_ok h0 (walk_short h hlen) hn]
    exact ⟨fun he => ⟨hn, Except.ok.inj he⟩, fun he => congrArg Except.ok he.2⟩
  · rw [apicInit_panic h0 (walk_short h hlen) hn]
    exact ⟨fun he => (nomatch he), fun he => absurd he.1 hn⟩

end

/-! ### Concrete tables -/

/-- A MADT at 1 MiB with the local APIC at 0xFEE00000 and the records given. -/
def tableWith (recs : List UInt8) : Mem := fun x =>
  ([0x41, 0x50, 0x49, 0x43, UInt8.ofNat (44 + recs.length), 0, 0, 0] ++ List.replicate 28 0 ++
    [0, 0, 0xE0, 0xFE, 1, 0, 0, 0] ++ recs).getD (x - 0x100000) 0

/-- A table with one record. -/
lemma placed_one {recs : List UInt8} (hlow : 44 + recs.length < 256)
    (hlen : lengthOf (tableWith recs) 0x100000 = 44 + recs.length)
    (h2 : 2 ≤ recordLen (tableWith recs) 0x10002C)
    (hrec : recordLen (tableWith recs) 0x10002C = recs.length) :
    Placed (tableWith recs) 0x100000 [0x10002C] := by
  refine ⟨by decide, by omega, ?_⟩
  have he : 0x100000 + lengthOf (tableWith recs) 0x100000 =
      0x10002C + recordLen (tableWith recs) 0x10002C := by omega
  rw [he]
  exact .cons h2 .nil

/-- One processor, enabled. -/
theorem apic_init_parses_iff_one : Parsed (tableWith [0, 8, 1, 0, 1, 0, 0, 0]) 0x100000 [0x10002C] ↔
    (∀ r ∈ [0x10002C], recordLen (tableWith [0, 8, 1, 0, 1, 0, 0, 0]) r < 128) ∧
      coreCount (tableWith [0, 8, 1, 0, 1, 0, 0, 0]) [0x10002C] < 2 ^ 16 ∧
      ∀ r, lastOverride (tableWith [0, 8, 1, 0, 1, 0, 0, 0]) [0x10002C] = some r →
        rd (tableWith [0, 8, 1, 0, 1, 0, 0, 0]) (r + 2) =
          rd (tableWith [0, 8, 1, 0, 1, 0, 0, 0]) (r + 4) :=
  apic_init_parses_iff (placed_one (by decide) (by decide) (by decide) (by decide))

/-- An override that names 0xFEE00000: the two reserved bytes before the address are taken for its
lowest ones. -/
theorem apic_init_misparses : ¬ ∀ m madt recs, Placed m madt recs → Parsed m madt recs := by
  intro h
  have hp : Placed (tableWith [5, 12, 0, 0, 0, 0, 0xE0, 0xFE, 0, 0, 0, 0]) 0x100000 [0x10002C] :=
    placed_one (by decide) (by decide) (by decide) (by decide)
  obtain ⟨fuel, hrun⟩ := h _ _ _ hp
  have he := recordLoop_unique (walk_short hp (by decide)) hrun
  exact absurd (congrArg Walk.lapicBase he) (by decide)

end Silkware.Madt
