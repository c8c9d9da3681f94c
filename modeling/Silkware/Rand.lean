import Mathlib.Data.List.Nodup
import Silkware.ChaCha

/-!
The kernel's random numbers, `rand.c`.
-/

namespace Silkware.Rand

open Silkware.ChaCha

def rotl (a b : Word) : Word := (a <<< b) ||| (a >>> (32 - b))

/-- One line of `qround`: `*a += *b; *d ^= *a; *d = rotl(*d, n);` -/
def qline (x : Block) (a b d : Fin 16) (n : Word) : Block :=
  let x := x.set a (x[a] + x[b])
  let x := x.set d (x[d] ^^^ x[a])
  x.set d (rotl x[d] n)

/-- `qround(&x[a], &x[b], &x[c], &x[d])` -/
def qround (x : Block) (a b c d : Fin 16) : Block :=
  let x := qline x a b d 16
  let x := qline x c d b 12
  let x := qline x a b d 8
  qline x c d b 7

/-- The body of the loop of `chacha20`. -/
def doubleRound (x : Block) : Block :=
  let x := qround x 0 4 8 12
  let x := qround x 1 5 9 13
  let x := qround x 2 6 10 14
  let x := qround x 3 7 11 15
  let x := qround x 0 5 10 15
  let x := qround x 1 6 11 12
  let x := qround x 2 7 8 13
  qround x 3 4 9 14

def chacha20 (inp : Block) : Block :=
  let x := doubleRound^[10] inp
  Vector.ofFn fun i => x[i] + inp[i]

/-- The two words of 32 bits that a word of 64 bits is stored as. -/
def lo (r : BitVec 64) : Word := r.setWidth 32

def hi (r : BitVec 64) : Word := (r >>> 32).setWidth 32

/-- `state`, as the program starts. -/
def state : Block := #v[0x61707865, 0x3320646e, 0x79622d32, 0x6b206574, 0, 0, 0, 0, 0, 0, 0, 0, 0,
  0, 0, 0]

/-- `((uint64_t *)state)[i] = r` -/
def setPair (s : Block) (i : Fin 4) (r : BitVec 64) : Block :=
  (s.set (2 * i) (lo r)).set (2 * i + 1) (hi r)

/-- `init_csprng`; `r n` is what the `n`-th of its calls of `rand64` returns. -/
def initCsprng (r : Fin 7 → BitVec 64) (s : Block) : Block :=
  let s := (List.finRange 4).foldl (fun s i => setPair s i (r (Fin.castAdd 3 i))) s
  (List.finRange 3).foldl (fun s (i : Fin 3) => s.set (i.val + 13) (lo (r (Fin.natAdd 4 i)))) s

/-- What `csprng` makes of the block it computed. -/
def outWord (out : Block) : BitVec 64 := (out[0].setWidth 64 <<< 32) ||| out[1].setWidth 64

def csprng (s : Block) : BitVec 64 × Block :=
  let out := chacha20 s
  let s := s.set 12 (s[12] + 1)
  (outWord out, s)

/-- The state that the `k`-th call works on, in a run of calls from `s`. -/
def stateAt (s : Block) (k : ℕ) : Block := (fun s => (csprng s).2)^[k] s

/-! ### The block function -/

lemma rotl_eq (w : Word) {n : ℕ} (h : 0 < n) (h32 : n < 32) :
    rotl w (BitVec.ofNat 32 n) = w.rotateLeft n := by
  have h1 : (BitVec.ofNat 32 n).toNat = n := by simp; omega
  have h2 : (32 - BitVec.ofNat 32 n).toNat = 32 - n := by simp; omega
  rw [rotl, BitVec.shiftLeft_eq', BitVec.ushiftRight_eq', h1, h2, BitVec.rotateLeft_def,
    Nat.mod_eq_of_lt h32]

lemma block_ext {x y : Block} (h : ∀ i : Fin 16, x[i] = y[i]) : x = y :=
  Vector.ext fun i hi => h ⟨i, hi⟩

lemma get_set (x : Block) (a i : Fin 16) (w : Word) :
    (x.set a w)[i] = if i = a then w else x[i] := by
  rw [Fin.getElem_fin, Vector.getElem_set]
  exact if_congr (Fin.val_inj.trans eq_comm) rfl rfl

/-- What a line of `qround` leaves in each word. -/
lemma qline_get (x : Block) {a b d : Fin 16} (n : Word) (i : Fin 16) (had : a ≠ d) :
    (qline x a b d n)[i] = if i = a then x[a] + x[b]
      else if i = d then rotl (x[d] ^^^ (x[a] + x[b])) n else x[i] := by
  unfold qline
  by_cases hd : i = d
  · subst hd
    simp only [get_set, if_true, if_neg had.symm]
  · simp only [get_set, if_neg hd]

lemma quarterRound_get (x : Block) (a b c d i : Fin 16) :
    (quarterRound x a b c d)[i] = if i = a then (quarter x[a] x[b] x[c] x[d]).1
      else if i = b then (quarter x[a] x[b] x[c] x[d]).2.1
      else if i = c then (quarter x[a] x[b] x[c] x[d]).2.2.1
      else if i = d then (quarter x[a] x[b] x[c] x[d]).2.2.2 else x[i] := by
  rw [quarterRound, Fin.getElem_fin, Vector.getElem_ofFn]

/-- On four different words, the assignments of `qround` make a quarter round. -/
lemma qround_eq (x : Block) {a b c d : Fin 16} (hab : a ≠ b) (hac : a ≠ c) (had : a ≠ d)
    (hbc : b ≠ c) (hbd : b ≠ d) (hcd : c ≠ d) : qround x a b c d = quarterRound x a b c d := by
  have r16 := fun w => rotl_eq w (show 0 < 16 by omega) (by omega)
  have r12 := fun w => rotl_eq w (show 0 < 12 by omega) (by omega)
  have r8 := fun w => rotl_eq w (show 0 < 8 by omega) (by omega)
  have r7 := fun w => rotl_eq w (show 0 < 7 by omega) (by omega)
  refine block_ext fun i => ?_
  rw [quarterRound_get]
  simp only [qround, qline_get _ _ _ had, qline_get _ _ _ hbc.symm, hab, hac, had, hbc, hbd, hcd,
    hab.symm, hac.symm, had.symm, hbc.symm, hbd.symm, hcd.symm, if_true, if_false]
  simp only [quarter, ← r16, ← r12, ← r8, ← r7]
  by_cases ha : i = a
  · subst ha
    simp only [hab, hac, had, if_true, if_false]
    rfl
  by_cases hb : i = b
  · subst hb
    simp only [hab.symm, hbc, if_true, if_false]
    rfl
  by_cases hc : i = c
  · subst hc
    simp only [hac.symm, hbc.symm, if_true, if_false]
    rfl
  by_cases hd : i = d
  · subst hd
    simp only [had.symm, hbd.symm, hcd.symm, if_true, if_false]
    rfl
  · simp only [ha, hb, hc, hd, if_false]

lemma doubleRound_eq (x : Block) : doubleRound x = innerBlock x := by
  unfold doubleRound innerBlock diagonalRounds columnRounds
  repeat rw [qround_eq _ (by decide) (by decide) (by decide) (by decide) (by decide) (by decide)]

/-- `chacha20` is the block function. -/
lemma chacha20_eq (x : Block) : chacha20 x = block x := by
  have h : doubleRound = innerBlock := funext doubleRound_eq
  refine block_ext fun i => ?_
  unfold chacha20 block
  rw [h, Fin.getElem_fin, Fin.getElem_fin, Vector.getElem_ofFn, Vector.getElem_zipWith]
  rfl

/-! ### The states of a run -/

/-- The words drawn for the key. -/
def key (r : Fin 7 → BitVec 64) : Vector Word 8 :=
  #v[lo (r 0), hi (r 0), lo (r 1), hi (r 1), lo (r 2), hi (r 2), lo (r 3), hi (r 3)]

/-- The words drawn for the nonce. -/
def nonce (r : Fin 7 → BitVec 64) : Vector Word 3 := #v[lo (r 4), lo (r 5), lo (r 6)]

/-- The key at the start, four zeros, a counter, the nonce. -/
def layout (key : Vector Word 8) (counter : Word) (nonce : Vector Word 3) : Block :=
  key ++ (#v[0, 0, 0, 0] : Vector Word 4) ++ #v[counter] ++ nonce

/-- `init_csprng` puts the key over the constants. -/
lemma initCsprng_eq (r : Fin 7 → BitVec 64) : initCsprng r state = layout (key r) 0 (nonce r) := rfl

lemma stateAt_succ (s : Block) (k : ℕ) : stateAt s (k + 1) = stateAt (csprng s).2 k := rfl

/-- The calls move only the counter. -/
lemma stateAt_eq (s : Block) (k : ℕ) : stateAt s k = s.set 12 (s[12] + BitVec.ofNat 32 k) := by
  induction k generalizing s with
  | zero => simp [stateAt]
  | succ k ih =>
    rw [stateAt_succ, ih]
    simp only [csprng, Vector.set_set, Vector.getElem_set_self]
    rw [BitVec.add_assoc, BitVec.ofNat_add, BitVec.add_comm 1]
    rfl

lemma stateAt_layout (r : Fin 7 → BitVec 64) (k : ℕ) :
    stateAt (initCsprng r state) k = layout (key r) (BitVec.ofNat 32 k) (nonce r) := by
  have h : (layout (key r) 0 (nonce r))[12] = 0 := rfl
  have h0 : (0 : Word) + BitVec.ofNat 32 k = BitVec.ofNat 32 k := BitVec.zero_add _
  rw [stateAt_eq, initCsprng_eq, h, h0]
  rfl

/-- The state of RFC 8439 is no state of a run. -/
lemma layout_ne_initial (r : Fin 7 → BitVec 64) (c : Word) :
    layout (key r) c (nonce r) ≠ initial (key r) c (nonce r) := by
  intro h
  -- word 0 would be a constant and word 8 would be zero, and both are a word of the key
  have h0 : lo (r 0) = 0x61707865 := congrArg (fun x : Block => x[0]) h
  have h4 : lo (r 2) = lo (r 0) := congrArg (fun x : Block => x[4]) h
  have h8 : 0 = lo (r 2) := congrArg (fun x : Block => x[8]) h
  rw [h4, h0] at h8
  exact absurd h8 (by decide)

lemma outWord_inj {x y : Block} : outWord x = outWord y ↔ x[0] = y[0] ∧ x[1] = y[1] := by
  constructor
  · intro h
    refine ⟨BitVec.eq_of_getLsbD_eq fun i hi => ?_, BitVec.eq_of_getLsbD_eq fun i hi => ?_⟩
    · have h1 : ¬ i + 32 < 32 := by omega
      simpa [outWord, hi, h1, show i < 64 by omega, show i + 32 < 64 by omega]
        using congrArg (fun w => w.getLsbD (i + 32)) h
    · simpa [outWord, hi, show i < 64 by omega] using congrArg (fun w => w.getLsbD i) h
  · rintro ⟨h0, h1⟩
    rw [outWord, outWord, h0, h1]

/-! ### Counter mode -/

/-- The state that the `k`-th call after `init_csprng` works on. -/
def drawn (r : Fin 7 → BitVec 64) (k : ℕ) : Block := stateAt (initCsprng r state) k

/-- The state of RFC 8439 for the key and the nonce drawn, with counter `k`. -/
def rfc (r : Fin 7 → BitVec 64) (k : ℕ) : Block := initial (key r) (BitVec.ofNat 32 k) (nonce r)

/-- **The block function never works on the state of RFC 8439.** For all results of `rand64`, the
`k`-th call after `init_csprng` works on the state with the key at the start, zeros for half of
the key, counter `k` and the nonce. Two different states are behind the value returned and the
value of the RFC: they agree only where the block function gives both the same two words. -/
theorem csprng_misses_rfc (r : Fin 7 → BitVec 64) (k : ℕ) :
    drawn r k = layout (key r) (BitVec.ofNat 32 k) (nonce r) ∧ drawn r k ≠ rfc r k ∧
      (csprng (drawn r k)).1 = outWord (block (drawn r k)) ∧
      ((csprng (drawn r k)).1 = outWord (block (rfc r k)) ↔
        (block (drawn r k))[0] = (block (rfc r k))[0] ∧
        (block (drawn r k))[1] = (block (rfc r k))[1]) := by
  have hs : drawn r k = layout (key r) (BitVec.ofNat 32 k) (nonce r) := stateAt_layout r k
  have hout : (csprng (drawn r k)).1 = outWord (block (drawn r k)) := by rw [csprng, chacha20_eq]
  refine ⟨hs, hs ▸ layout_ne_initial r _, hout, ?_⟩
  rw [hout]
  exact outWord_inj

/-- All results of `rand64` zero: the first call returns zero, and not the first words of the
key stream for the zero key and nonce. -/
theorem csprng_zero_seed : (csprng (drawn (fun _ => 0) 0)).1 = 0 ∧
    outWord (block (rfc (fun _ => 0) 0)) = 0xade0b876903df1a0 ∧
    (csprng (drawn (fun _ => 0) 0)).1 ≠ outWord (block (rfc (fun _ => 0) 0)) := by
  decide +kernel

/-! ### Reuse of a block -/

/-- What `chacha20` is evaluated on, in a run of `n` calls from `s`. -/
def inputs : ℕ → Block → List Block
  | 0, _ => []
  | n + 1, s => s :: inputs n (csprng s).2

lemma inputs_eq (n : ℕ) (s : Block) : inputs n s = (List.range n).map (stateAt s) := by
  induction n generalizing s with
  | zero => rfl
  | succ n ih =>
    rw [inputs, ih, List.range_succ_eq_map, List.map_cons, List.map_map]
    rfl

lemma stateAt_eq_iff (s : Block) {i j : ℕ} : stateAt s i = stateAt s j ↔ i % 2 ^ 32 = j % 2 ^ 32 := by
  constructor
  · intro h
    rw [stateAt_eq, stateAt_eq] at h
    have h12 := congrArg (fun x : Block => x[12]) h
    simp only [Vector.getElem_set_self, BitVec.add_right_inj] at h12
    simpa using congrArg BitVec.toNat h12
  · intro h
    have hc : BitVec.ofNat 32 i = BitVec.ofNat 32 j := by
      apply BitVec.eq_of_toNat_eq
      simpa using h
    rw [stateAt_eq, stateAt_eq, hc]

/-- **A block is used twice exactly when there are more than `2³²` calls.** -/
theorem blocks_distinct_iff (r : Fin 7 → BitVec 64) (s : Block) (n : ℕ) :
    (inputs n (initCsprng r s)).Nodup ↔ n ≤ 2 ^ 32 := by
  rw [inputs_eq, List.nodup_map_iff_inj_on List.nodup_range]
  simp only [List.mem_range, stateAt_eq_iff]
  constructor
  · intro h
    by_contra hn
    have := h 0 (by omega) (2 ^ 32) (by omega) (by omega)
    omega
  · intro hn i hi j hj hij
    rwa [Nat.mod_eq_of_lt (by omega), Nat.mod_eq_of_lt (by omega)] at hij

/-- The call after `2³²` calls works on the state of the first. -/
theorem block_reused : drawn (fun _ => 0) (2 ^ 32) = drawn (fun _ => 0) 0 ∧
    ¬ (inputs (2 ^ 32 + 1) (initCsprng (fun _ => 0) state)).Nodup := by
  have h : drawn (fun _ => 0) (2 ^ 32) = drawn (fun _ => 0) 0 := (stateAt_eq_iff _).2 (by simp)
  refine ⟨h, ?_⟩
  rw [inputs_eq, List.nodup_map_iff_inj_on List.nodup_range]
  intro hinj
  have := hinj 0 (by simp) (2 ^ 32) (by simp) h.symm
  omega

end Silkware.Rand
