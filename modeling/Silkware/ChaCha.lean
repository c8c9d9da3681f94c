import Mathlib.Logic.Function.Iterate
import Mathlib.Tactic.Common
import Mathlib.Tactic.Ring

/-!
The ChaCha20 block function, as RFC 8439 gives it.

Sixteen words of 32 bits: four constants, eight words of key, a block counter and three words of
nonce. Ten times four column rounds and four diagonal rounds, then the words that came in are
added.
-/

namespace Silkware.ChaCha

abbrev Word := BitVec 32

abbrev Block := Vector Word 16

/-- The index of a word in a block. -/
abbrev Idx := Fin 16

instance neZero_sixteen : NeZero 16 := ⟨by decide⟩

/-- The quarter round on four words. -/
def quarter (a b c d : Word) : Word × Word × Word × Word :=
  let a₁ := a + b
  let d₁ := (d ^^^ a₁).rotateLeft 16
  let c₁ := c + d₁
  let b₁ := (b ^^^ c₁).rotateLeft 12
  let a₂ := a₁ + b₁
  let d₂ := (d₁ ^^^ a₂).rotateLeft 8
  let c₂ := c₁ + d₂
  let b₂ := (b₁ ^^^ c₂).rotateLeft 7
  (a₂, b₂, c₂, d₂)

/-- The quarter round on the words of a block with the given indices. -/
def quarterRound (x : Block) (a b c d : Idx) : Block :=
  let r := quarter x[a] x[b] x[c] x[d]
  Vector.ofFn fun i : Idx => if i = a then r.1 else if i = b then r.2.1 else if i = c then r.2.2.1
    else if i = d then r.2.2.2 else x[i]

def columnRounds (x : Block) : Block :=
  quarterRound (quarterRound (quarterRound (quarterRound x 0 4 8 12) 1 5 9 13) 2 6 10 14) 3 7 11 15

def diagonalRounds (x : Block) : Block :=
  quarterRound (quarterRound (quarterRound (quarterRound x 0 5 10 15) 1 6 11 12) 2 7 8 13) 3 4 9 14

def innerBlock (x : Block) : Block := diagonalRounds (columnRounds x)

def block (x : Block) : Block := Vector.zipWith (· + ·) (innerBlock^[10] x) x

def constants : Vector Word 4 := #v[0x61707865, 0x3320646e, 0x79622d32, 0x6b206574]

/-- The state for a key, a counter and a nonce. -/
def initial (key : Vector Word 8) (counter : Word) (nonce : Vector Word 3) : Block :=
  constants ++ key ++ Vector.singleton counter ++ nonce

end Silkware.ChaCha
