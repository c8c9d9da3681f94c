import Silkware.Paging
import Silkware.Outcome
import Mathlib.Data.Nat.Bitwise

/-!
Words of the page tables: entries, indices, the fixed part of the image, and the four-level
walk as a radix tree of depth three with the page-table entries as its leaves.
-/

namespace Silkware.PageTables

open Silkware.Kern Silkware.Radix Silkware.Paging Silkware.Outcome

/-! ### Entries -/

lemma present_iff {e : ℕ} : present e = true ↔ e % 2 = 1 := by
  unfold present
  rw [Nat.and_one_is_mod]
  simp

lemma present_false_iff {e : ℕ} : present e = false ↔ e % 2 = 0 := by
  rw [← Bool.not_eq_true, present_iff]
  omega

lemma and_addrMask (e : ℕ) : e &&& addrMask = floorPage (e % 2 ^ 63) := by
  have h1 : e &&& addrMask = (e % 2 ^ 63) / 2 ^ 12 * 2 ^ 12 := by
    have hm : addrMask = (2 ^ 63 - 1) ^^^ (2 ^ 12 - 1) := by decide
    refine Nat.eq_of_testBit_eq fun i => ?_
    rw [Nat.testBit_and, hm, Nat.testBit_xor, Nat.testBit_two_pow_sub_one,
      Nat.testBit_two_pow_sub_one, ← Nat.shiftLeft_eq, Nat.testBit_shiftLeft,
      ← Nat.shiftRight_eq_div_pow, Nat.testBit_shiftRight, Nat.testBit_mod_two_pow]
    by_cases h : 12 ≤ i
    · have e1 : 12 + (i - 12) = i := by omega
      have e2 : ¬ i < 12 := by omega
      simp [h, e1, e2, Bool.and_comm]
    · have e1 : i < 12 := by omega
      have e2 : i < 63 := by omega
      simp [h, e1, e2]
  rw [h1, floorPage]
  omega

/-- Flags go into the low bits of a frame's address. -/
lemma or_flags {f x : ℕ} (hx : x < 0x1000) : f * 0x1000 ||| x = f * 0x1000 + x := by
  rw [← Nat.shiftLeft_eq f 12, Nat.shiftLeft_add_eq_or_of_lt hx]

lemma flagBit_eq (flags k x : ℕ) :
    flagBit flags (2 ^ k) x = if flags.testBit k then x else 0 := by
  unfold flagBit
  rw [Nat.and_two_pow]
  cases flags.testBit k <;> simp

/-- The flags of an entry as bits of the flags asked for; no-execute is not among them. -/
def flagsOf (p w u nx nc : Bool) : ℕ :=
  ((if p then 1 else 0) ||| (if u then 4 else 0) ||| (if w then 2 else 0) |||
    (if nx then 2 ^ 63 else 0) ||| (if nc then 16 else 0)) % 2 ^ 32

lemma x86Flags_eq (flags : ℕ) : x86Flags flags = flagsOf (flags.testBit 0) (flags.testBit 1)
    (flags.testBit 2) (flags.testBit 3) (flags.testBit 4) := by
  unfold x86Flags flagsOf pagePresent pageUser pageWritable pageNX pageNocache
  have h0 : flagBit flags 1 1 = _ := flagBit_eq flags 0 1
  have h1 : flagBit flags 2 2 = _ := flagBit_eq flags 1 2
  have h2 : flagBit flags 4 4 = _ := flagBit_eq flags 2 4
  have h3 : flagBit flags 8 (2 ^ 63) = _ := flagBit_eq flags 3 (2 ^ 63)
  have h4 : flagBit flags 16 16 = _ := flagBit_eq flags 4 16
  rw [h0, h1, h2, h3, h4]

lemma x86Flags_lt (flags : ℕ) : x86Flags flags < 0x1000 := by
  have h : ∀ p w u nx nc, flagsOf p w u nx nc < 0x1000 := by decide
  rw [x86Flags_eq]
  exact h _ _ _ _ _

/-- The entry of a page table, as the loops write it. -/
def leafEntry (src flags : ℕ) : ℕ := (src &&& addrMask) ||| x86Flags flags

lemma leafEntry_eq (src flags : ℕ) :
    leafEntry src flags = floorPage (src % 2 ^ 63) + x86Flags flags := by
  have h : floorPage (src % 2 ^ 63) = src % 2 ^ 63 / 0x1000 * 0x1000 := by unfold floorPage; omega
  rw [leafEntry, and_addrMask, h, or_flags (x86Flags_lt flags)]

lemma leafEntry_frame (src flags : ℕ) :
    leafEntry src flags &&& addrMask = floorPage (src % 2 ^ 63) := by
  have := x86Flags_lt flags
  rw [leafEntry_eq, and_addrMask]
  unfold floorPage
  omega

/-- The low bits of an entry, other than no-execute, are those asked for. -/
structure HasFlags (e flags : ℕ) : Prop where
  isPresent : e.testBit 0 = flags.testBit 0
  writable : e.testBit 1 = flags.testBit 1
  user : e.testBit 2 = flags.testBit 2
  nocache : e.testBit 4 = flags.testBit 4

lemma leafEntry_flags (src flags : ℕ) : HasFlags (leafEntry src flags) flags := by
  have hlow : ∀ k < 12, (leafEntry src flags).testBit k = (x86Flags flags).testBit k := by
    intro k hk
    have hm : ∀ k < 12, addrMask.testBit k = false := by decide
    rw [leafEntry, Nat.testBit_or, Nat.testBit_and, hm k hk, Bool.and_false, Bool.false_or]
  have h : ∀ p w u nx nc, (flagsOf p w u nx nc).testBit 0 = p ∧
      (flagsOf p w u nx nc).testBit 1 = w ∧ (flagsOf p w u nx nc).testBit 2 = u ∧
      (flagsOf p w u nx nc).testBit 4 = nc := by decide
  obtain ⟨h0, h1, h2, h4⟩ := h (flags.testBit 0) (flags.testBit 1) (flags.testBit 2)
    (flags.testBit 3) (flags.testBit 4)
  rw [← x86Flags_eq] at h0 h1 h2 h4
  exact ⟨by rw [hlow 0 (by omega), h0], by rw [hlow 1 (by omega), h1],
    by rw [hlow 2 (by omega), h2], by rw [hlow 4 (by omega), h4]⟩

lemma HasFlags.present {e flags : ℕ} (h : HasFlags e flags) : Paging.present e = flags.testBit 0 := by
  rw [← h.isPresent, Nat.testBit_zero, Bool.eq_iff_iff, present_iff, decide_eq_true_iff]

/-- An entry for a table. -/
lemma next_link {g : ℕ} (hg : g * 0x1000 < 2 ^ 63) : next (g * 0x1000 ||| topFlags) = some g := by
  unfold next topFlags
  rw [or_flags (by omega), if_pos (present_iff.mpr (by omega)), and_addrMask]
  unfold floorPage
  congr 1
  omega

lemma next_eq_some {e f : ℕ} (h : next e = some f) : present e = true ∧ e &&& addrMask = f * 0x1000 := by
  unfold next at h
  split at h
  · rename_i hp
    rw [Option.some.injEq] at h
    refine ⟨hp, ?_⟩
    rw [and_addrMask] at h ⊢
    unfold floorPage at h ⊢
    omega
  · cases h

lemma next_eq_none {e : ℕ} : next e = none ↔ present e = false := by
  unfold next
  cases present e <;> simp

/-! ### Addresses -/

/-- The number of a virtual page: the walk takes no notice of the bits above. -/
def vpage (v : ℕ) : ℕ := v / 0x1000 % 2 ^ 36

lemma index_val (l v : ℕ) : (index l v : ℕ) = v / 2 ^ (12 + 9 * l) % 512 := by
  unfold index
  simp only
  rw [Nat.shiftRight_eq_div_pow, show (0x1FF : ℕ) = 2 ^ 9 - 1 from rfl, Nat.and_two_pow_sub_one_eq_mod]

lemma same_page {u v : ℕ} : path u = path v ∧ index 0 u = index 0 v ↔ vpage u = vpage v := by
  unfold path vpage
  simp only [List.cons.injEq, and_true, Fin.ext_iff, index_val]
  omega

lemma vpage_add {v : ℕ} (hv : v % 0x1000 = 0) (i : Fin 512) : vpage (v + 8 * i) = vpage v := by
  have := i.isLt
  unfold vpage
  omega

lemma leaf_congr {m : Mem} {root u v : ℕ} (h : vpage u = vpage v) : leaf m root u = leaf m root v := by
  obtain ⟨h1, h2⟩ := same_page.mpr h
  rw [leaf, leaf, h1, h2]

/-! ### The image -/

variable {K : Image} {s : St} {f g t : ℕ}

/-- The frames of the image that are reached at its distance. -/
def Mine (K : Image) (f : ℕ) : Prop :=
  K.physicalBase ≤ f * 0x1000 ∧ f * 0x1000 < K.physicalBase + (K.kernEnd - K.virtualBase) ∧
    f * 0x1000 ≠ K.physicalBase + (K.pageTmp - K.virtualBase)

lemma vk2physk_eq {v : ℕ} (h1 : K.virtualBase ≤ v) (h2 : v < K.kernEnd) :
    K.vk2physk v = v - K.virtualBase + K.physicalBase := by
  have h3 := K.virtual_end
  have h4 := K.physical_end
  unfold Image.kernEnd Image.miniheapEnd Image.miniheapStart at h2
  rw [Image.vk2physk, sub64_eq h1 (by omega)]
  omega

lemma physk2vk_eq {a : ℕ} (h1 : K.physicalBase ≤ a)
    (h2 : a < K.physicalBase + (K.kernEnd - K.virtualBase)) :
    K.physk2vk a = a - K.physicalBase + K.virtualBase := by
  have h3 := K.virtual_end
  have h4 := K.physical_end
  have h5 := K.order
  unfold Image.kernEnd Image.miniheapEnd Image.miniheapStart at h2
  rw [Image.physk2vk, sub64_eq h1 (by omega)]
  omega

/-- The table in frame `f` is seen at the virtual address `t`. -/
def At (K : Image) (s : St) (t f : ℕ) : Prop :=
  ∀ i : Fin 512, translate K s (t + 8 * i) = .ok (f * 0x1000 + 8 * i)

lemma Mine.at (h : Mine K f) : At K s (K.physk2vk (f * 0x1000)) f := by
  intro i
  obtain ⟨h1, h2, h3⟩ := h
  have hi := i.isLt
  have hb := K.base_aligned
  have ha := K.aligned
  have ho := K.order
  have hv := physk2vk_eq h1 h2
  have hend : K.kernEnd % 0x1000 = 0 := by
    unfold Image.kernEnd Image.miniheapEnd Image.miniheapStart
    omega
  have hf : K.Fixed (K.physk2vk (f * 0x1000) + 8 * i) := by
    unfold Image.Fixed
    omega
  rw [Paging.translate, if_pos hf, vk2physk_eq hf.1 hf.2.1, hv]
  exact congrArg _ (by omega)

lemma root_mine : Mine K K.root ∧ K.physk2vk (K.root * 0x1000) = K.kpml4 := by
  have ho := K.order
  have hb := K.base_aligned
  have ha := K.aligned
  have hk : K.kernEnd = K.pageTmp + 0x1000 + 0x64000 := rfl
  have hv : K.vk2physk K.kpml4 = K.kpml4 - K.virtualBase + K.physicalBase :=
    vk2physk_eq (by omega) (by omega)
  have hr : K.root * 0x1000 = K.kpml4 - K.virtualBase + K.physicalBase := by
    unfold Image.root
    omega
  have h1 : Mine K K.root := by
    unfold Mine
    omega
  refine ⟨h1, ?_⟩
  rw [physk2vk_eq h1.1 h1.2.1, hr]
  omega

lemma at_kpml4 : At K s K.kpml4 K.root := by
  have h := (root_mine (K := K)).1.at (s := s)
  rwa [root_mine.2] at h

/-! ### Loads and stores -/

/-- Write an entry of the table in a frame. -/
def setEntry (s : St) (f : ℕ) (i : Fin 512) (x : ℕ) : St := setWord s (f * 0x1000 + 8 * i) x

lemma entry_setEntry (s : St) (f : ℕ) (i : Fin 512) (x : ℕ) :
    entry (setEntry s f i x).mem = put (entry s.mem) f i x := by
  funext g j
  have hi := i.isLt
  have hj := j.isLt
  simp only [entry, setEntry, setWord, put]
  refine if_congr ?_ rfl rfl
  rw [Fin.ext_iff]
  omega

lemma At.load (h : At K s t f) (i : Fin 512) :
    load K s (t + 8 * i) = .ok (entry s.mem f i) := by
  simp only [Paging.load, h i, bind, Except.bind, pure, Except.pure, entry]

lemma At.store (h : At K s t f) (i : Fin 512) (x : ℕ) :
    store K s (t + 8 * i) x = .ok (setEntry s f i x) := by
  simp only [Paging.store, h i, bind, Except.bind, pure, Except.pure, setEntry]

/-- A page outside the image that the kernel's tables map. -/
lemma at_of_leaf {e : ℕ} (ht : t % 0x1000 = 0) (hf : ∀ v, t ≤ v → v < t + 0x1000 → ¬ K.Fixed v)
    (hl : leaf s.mem K.root t = some e) (hp : present e = true) (he : e &&& addrMask = f * 0x1000) :
    At K s t f := by
  intro i
  have hi := i.isLt
  rw [Paging.translate, if_neg (hf _ (by omega) (by omega)), leaf_congr (vpage_add ht i), hl]
  simp only [hp, if_true, he]
  exact congrArg _ (by omega)

/-! ### The tree of tables -/

/-- The frame of the table at the end of a path. -/
abbrev table (m : Mem) (root : ℕ) (q : List (Fin 512)) : Option ℕ := walk (entry m) next root q

/-- The three tables on the way of an address. -/
structure Way (m : Mem) (root v f₁ f₂ f₃ : ℕ) : Prop where
  one : table m root [index 3 v] = some f₁
  two : table m root [index 3 v, index 2 v] = some f₂
  three : table m root (path v) = some f₃
  next₁ : next (entry m root (index 3 v)) = some f₁
  next₂ : next (entry m f₁ (index 2 v)) = some f₂
  next₃ : next (entry m f₂ (index 1 v)) = some f₃

lemma exists_way {m : Mem} {root v f₃ : ℕ} (h : table m root (path v) = some f₃) :
    ∃ f₁ f₂, Way m root v f₁ f₂ f₃ := by
  simp only [table, path, walk, Option.bind_eq_some_iff, Option.some.injEq] at h
  obtain ⟨f₁, h1, f₂, h2, f, h3, rfl⟩ := h
  refine ⟨f₁, f₂, ?_, ?_, ?_, h1, h2, h3⟩ <;> simp [table, path, walk, h1, h2, h3]

lemma leaf_eq_some {m : Mem} {root v e : ℕ} (h : leaf m root v = some e) :
    ∃ f, table m root (path v) = some f ∧ entry m f (index 0 v) = e := by
  rw [leaf, look, Option.map_eq_some_iff] at h
  exact h

lemma leaf_of_table {m : Mem} {root v f : ℕ} (h : table m root (path v) = some f) :
    leaf m root v = some (entry m f (index 0 v)) := by
  rw [table] at h
  rw [leaf, look, h, Option.map_some]

/-- What linking a table in does to the entry of a page: nothing, or a page that had no page
table has an entry that is not present. -/
def Grows (a b : Option ℕ) : Prop := b = a ∨ a = none ∧ ∃ e, b = some e ∧ present e = false

lemma Grows.refl (a : Option ℕ) : Grows a a := Or.inl rfl

lemma Grows.trans {a b c : Option ℕ} (h1 : Grows a b) (h2 : Grows b c) : Grows a c := by
  rcases h1 with rfl | ⟨rfl, e, rfl, he⟩
  · exact h2
  · rcases h2 with rfl | ⟨h, -⟩
    · exact Or.inr ⟨rfl, e, rfl, he⟩
    · cases h

lemma Grows.some {b : Option ℕ} {e : ℕ} (h : Grows (some e) b) : b = some e := by
  rcases h with h | ⟨h, -⟩
  · exact h
  · cases h

/-- Where the page leads to, if it is present. -/
lemma Grows.filter {a b : Option ℕ} (h : Grows a b) : b.filter present = a.filter present := by
  rcases h with rfl | ⟨rfl, e, rfl, he⟩
  · rfl
  · simp [Option.filter, he]

variable {root : ℕ} {p : List (Fin 512)} {i : Fin 512} {u v x : ℕ}

lemma leaf_put (ht : IsTree (entry s.mem) next root 3) (hf : table s.mem root (path v) = some f) :
    leaf (setEntry s f (index 0 v) x).mem root u =
      if vpage u = vpage v then some x else leaf s.mem root u := by
  rw [leaf, leaf, entry_setEntry, ht.look_put rfl hf rfl]
  exact if_congr same_page rfl rfl

lemma leaf_link (ht : IsTree (entry s.mem) next root 3) (hp : p.length < 3)
    (hf : table s.mem root p = some f) (hnone : next (entry s.mem f i) = none)
    (hg : g * 0x1000 < 2 ^ 63) (hnew : ∀ q, q.length ≤ 3 → table s.mem root q ≠ some g)
    (hempty : ∀ j, present (entry s.mem g j) = false) :
    Grows (leaf s.mem root u) (leaf (setEntry s f i (g * 0x1000 ||| topFlags)).mem root u) := by
  have hq : ∀ j, next (entry s.mem g j) = none := fun j => next_eq_none.mpr (hempty j)
  rw [leaf, leaf, entry_setEntry,
    ht.look_link hp hf hnone (next_link hg) hnew (fun _ => hq) rfl]
  by_cases h : path u = p ++ [i]
  · rw [if_pos h]
    refine Or.inr ⟨?_, _, rfl, hempty _⟩
    rw [look, h, walk_concat_of hf, hnone]
    rfl
  · rw [if_neg h]
    exact Grows.refl _

end Silkware.PageTables
