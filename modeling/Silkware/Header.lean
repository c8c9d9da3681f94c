import Silkware.ByteMem

/-!
The two-word header that both allocators put at the start of a block: the size of the block
and the next block of the free list.
-/

namespace Silkware.Header

open Silkware.ByteMem

/-- `b->size` -/
def size (m : Mem) (b : ℕ) : ℕ := rd m b

/-- `b->next` -/
def next (m : Mem) (b : ℕ) : ℕ := rd m (b + 8)

def setSize (m : Mem) (b v : ℕ) : Mem := wr m b v

def setNext (m : Mem) (b v : ℕ) : Mem := wr m (b + 8) v

lemma next_lt (m : Mem) (b : ℕ) : next m b < 2 ^ 64 := rd_lt m (b + 8)

lemma size_setSize {m : Mem} {b v : ℕ} (h : v < 2 ^ 64) : size (setSize m b v) b = v :=
  rd_wr_same h

lemma next_setNext {m : Mem} {b v : ℕ} (h : v < 2 ^ 64) : next (setNext m b v) b = v :=
  rd_wr_same h

lemma next_setSize {m : Mem} {b v : ℕ} : next (setSize m b v) b = next m b :=
  rd_wr_sep (by omega)

lemma size_setNext {m : Mem} {b v : ℕ} : size (setNext m b v) b = size m b :=
  rd_wr_sep (by omega)

lemma setSize_out {m : Mem} {b v x : ℕ} (h : x < b ∨ b + 8 ≤ x) : setSize m b v x = m x :=
  wr_out h

lemma setNext_out {m : Mem} {b v x : ℕ} (h : x < b + 8 ∨ b + 16 ≤ x) : setNext m b v x = m x :=
  wr_out (by omega)

/-- The two memories have the same header at `b`. -/
def SameHdr (m m' : Mem) (b : ℕ) : Prop := ∀ x, b ≤ x → x < b + 16 → m' x = m x

lemma SameHdr.size {m m' : Mem} {b : ℕ} (h : SameHdr m m' b) :
    Header.size m' b = Header.size m b :=
  rd_congr fun x h1 h2 => h x h1 (by omega)

lemma SameHdr.next {m m' : Mem} {b : ℕ} (h : SameHdr m m' b) :
    Header.next m' b = Header.next m b :=
  rd_congr fun x h1 h2 => h x (by omega) (by omega)

/-! ### Headers that do not overlap -/

lemma size_setNext_sep {m : Mem} {a b v : ℕ} (h : a + 16 ≤ b ∨ b + 8 ≤ a + 8) :
    size (setNext m a v) b = size m b :=
  rd_wr_sep (by omega)

lemma next_setNext_sep {m : Mem} {a b v : ℕ} (h : a + 16 ≤ b ∨ b + 16 ≤ a) :
    next (setNext m a v) b = next m b :=
  rd_wr_sep (by omega)

lemma size_setSize_sep {m : Mem} {a b v : ℕ} (h : a + 16 ≤ b ∨ b + 16 ≤ a) :
    size (setSize m a v) b = size m b :=
  rd_wr_sep (by omega)

lemma next_setSize_sep {m : Mem} {a b v : ℕ} (h : a + 16 ≤ b ∨ b + 16 ≤ a) :
    next (setSize m a v) b = next m b :=
  rd_wr_sep (by omega)

end Silkware.Header
