import Silkware.Kern
import Silkware.Probe

/-!
The hash map of `map.c`.

`max` is the highest cell that was ever used; lookups and deletions search the cells up to it,
and take a map whose `max` is zero for an empty one. `kalloc` is taken to succeed, and objects
it returns to be apart from each other, so that a key or a value is its own bytes.
-/

namespace Silkware.HashMap

open Silkware.Kern Silkware.Probe

abbrev Bytes := List UInt8

/-- A `Flex` object: its count, and the bytes allocated after it. -/
structure Flex where
  n : ℕ
  item : Bytes
  deriving DecidableEq

/-- `struct map_item`, with `none` for `NULL`. -/
structure Cell where
  h : ℕ
  k : Option Flex
  v : Option Flex

/-- `typedef struct { .. } map` -/
structure Map where
  max : ℕ
  cap : ℕ
  cell : ℕ → Cell

def setCell (m : Map) (i : ℕ) (c : Cell) : Map :=
  { m with cell := fun j => if j = i then c else m.cell j }

/-- A byte read as `int8_t` and converted to 64 bits. -/
def signExtend (c : UInt8) : ℕ := if c.toNat < 128 then c.toNat else c.toNat + (2 ^ 64 - 256)

def hash (k : Bytes) : ℕ :=
  k.foldl (fun h c => (h ^^^ signExtend c) * 0x100000001b3 % 2 ^ 64) 0xcbf29ce484222325

def mapNew (n : ℕ) : Map := ⟨0, if n < 8 then 8 else n, fun _ => ⟨0, none, none⟩⟩

/-- The test of a cell for the key `k` with hash `h`. `memcmp` faults where the count of the
stored key says more than was allocated. -/
def sameKey (c : Cell) (h : ℕ) (k : Bytes) : Except Stop Bool :=
  match c.k with
  | none => return false
  | some x =>
    if c.h = h ∧ x.n = k.length then
      if k.length ≤ x.item.length then return x.item.take k.length = k else throw .fault
    else return false

/-- The search that `map_get` and `map_del` share. -/
def find (m : Map) (k : Bytes) : Except Stop (ℕ × Bool) :=
  let h := hash k
  if m.max = 0 then return (0, false)
  else
    let idx := if m.max < h % m.cap then m.max else h % m.cap
    probe .hang (m.max + 1) idx (fun i => sameKey (m.cell i) h k) (m.max + 1) idx

/-- `map_get`: the bytes at the pointer it returns. -/
def mapGet (m : Map) (k : Bytes) : Except Stop (Option Bytes) := do
  let (i, found) ← find m k
  if found then
    match (m.cell i).v with
    | some v => return some v.item
    | none => throw .fault
  else return none

def mapDel (m : Map) (k : Bytes) : Except Stop Map := do
  let (i, found) ← find m k
  if found then return setCell m i { m.cell i with k := none } else return m

/-! ### Insertion -/

/-- `x->n = n; memcpy(x->item, b, n)` on a new object. -/
def flexOf (b : Bytes) : Flex := ⟨b.length, b⟩

/-- The little-endian bytes of a word. -/
def leBytes (n : ℕ) : Bytes := (List.range 8).map fun i => UInt8.ofNat (n / 2 ^ (8 * i))

def ofLeBytes (b : Bytes) : ℕ := b.foldr (fun c n => c.toNat + 256 * n) 0

lemma ofLeBytes_leBytes {a : ℕ} (h : a < 2 ^ 64) : ofLeBytes (leBytes a) = a := by
  have hr : List.range 8 = [0, 1, 2, 3, 4, 5, 6, 7] := rfl
  simp only [leBytes, ofLeBytes, hr, List.map_cons, List.map_nil, List.foldr_cons, List.foldr_nil,
    UInt8.toNat_ofNat']
  omega

lemma leBytes_inj {a b : ℕ} (ha : a < 2 ^ 64) (hb : b < 2 ^ 64) (h : leBytes a = leBytes b) :
    a = b := by
  rw [← ofLeBytes_leBytes ha, h, ofLeBytes_leBytes hb]

lemma leBytes_length (a : ℕ) : (leBytes a).length = 8 := by simp [leBytes]

/-- `x->n = n; memcpy(x, b, n)` on a new object: the bytes are written over the count. -/
def flexOver (b : Bytes) : Flex :=
  let obj := b ++ (leBytes b.length ++ List.replicate b.length 0).drop b.length
  ⟨ofLeBytes (obj.take 8), obj.drop 8⟩

/-- `while (new->cell[idx].k) idx = (idx + 1) % m->cap` -/
def growProbe (new : Map) (cap : ℕ) : ℕ → ℕ → Except Stop ℕ
  | 0, _ => throw .hang
  | fuel + 1, idx =>
    if (new.cell idx).k.isSome then growProbe new cap fuel ((idx + 1) % cap) else return idx

/-- Copy one cell into the new map. -/
def growCell (m new : Map) (i : ℕ) : Except Stop Map :=
  if (m.cell i).k.isSome then do
    let idx ← growProbe new m.cap (m.cap + 2) ((m.cell i).h % new.cap)
    return setCell new idx (m.cell i)
  else return new

def mapGrow (m : Map) (n : ℕ) : Except Stop Map :=
  if n ≤ m.cap then return m
  else (List.range (m.max + 1)).foldlM (growCell m) (mapNew n)

/-- The search for an empty cell. -/
def findEmpty (m : Map) (h : ℕ) : Except Stop (ℕ × Bool) :=
  probe .hang m.cap (h % m.cap) (fun i => return (m.cell i).k.isNone) m.cap (h % m.cap)

/-- Fill a cell and raise `max` to it. -/
def putCell (m : Map) (i h : ℕ) (k v : Flex) : Map :=
  { setCell m i ⟨h, some k, some v⟩ with max := if m.max < i then i else m.max }

/-- `map_insert`. The new capacity is `cap * 1.5`. -/
def mapInsert (m : Map) (k v : Bytes) : Except Stop Map := do
  let h := hash k
  let (i, empty) ← findEmpty m h
  if empty then return putCell m i h (flexOf k) (flexOf v)
  else
    let m ← mapGrow m (m.cap * 3 / 2)
    let (i, _) ← findEmpty m h
    if i = h % m.cap then throw .panic
    return putCell m i h (flexOver k) (flexOver v)

def mapSet (m : Map) (k v : Bytes) : Except Stop Map := do
  let m ← mapDel m k
  mapInsert m k v

end Silkware.HashMap
