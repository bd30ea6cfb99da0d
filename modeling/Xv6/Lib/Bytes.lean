/-
# Runs of bytes, and the little-endian words inside them

A disk block, a page of memory and a name buffer are all the same thing to the code: bytes
addressed from 0.  C reads a `uint` out of such a run by casting the pointer, so the model
needs the cast: `getWord m j` is `((uint*)m)[j]` and `setWord` the store through it, on a
little-endian machine.  `splice` is `memmove` into the middle of a run.

Nothing here names a block or a page; the lemmas are the read-over-write laws that every
later proof about an indirect block, a log header or a page table uses.
-/
import Mathlib.Data.UInt
import Mathlib.Data.List.Basic
import Mathlib.Tactic

namespace Xv6

/-- A run of bytes, addressed from 0.  Only a bounded part of it is ever looked at. -/
abbrev Bytes := Nat → UInt8

namespace Bytes

/-! ## 1. Words -/

/-- `((uint*)m)[j]` on a little-endian machine. -/
def getWord (m : Bytes) (j : Nat) : Nat :=
  (m (4 * j)).toNat + 256 * (m (4 * j + 1)).toNat + 65536 * (m (4 * j + 2)).toNat
    + 16777216 * (m (4 * j + 3)).toNat

/-- `((uint*)m)[j] = v`: the four bytes of `v`, low byte first. -/
def setWord (m : Bytes) (j v : Nat) : Bytes := fun k =>
  if k / 4 = j then UInt8.ofNat (v / 256 ^ (k % 4)) else m k

theorem setWord_apply_ne {m : Bytes} {j v k : Nat} (h : k / 4 ≠ j) : setWord m j v k = m k :=
  if_neg h

theorem getWord_congr {m m' : Bytes} {j : Nat} (h : ∀ k, k / 4 = j → m k = m' k) :
    getWord m j = getWord m' j := by
  simp only [getWord]
  rw [h (4 * j) (by omega), h (4 * j + 1) (by omega), h (4 * j + 2) (by omega),
    h (4 * j + 3) (by omega)]

theorem getWord_lt (m : Bytes) (j : Nat) : getWord m j < 2 ^ 32 := by
  have h0 := (m (4 * j)).toNat_lt
  have h1 := (m (4 * j + 1)).toNat_lt
  have h2 := (m (4 * j + 2)).toNat_lt
  have h3 := (m (4 * j + 3)).toNat_lt
  simp only [getWord]
  omega

/-- A stored word reads back, cut to 32 bits. -/
theorem getWord_setWord_self (m : Bytes) (j v : Nat) :
    getWord (setWord m j v) j = v % 2 ^ 32 := by
  have e0 : 4 * j / 4 = j := by omega
  have e1 : (4 * j + 1) / 4 = j := by omega
  have e2 : (4 * j + 2) / 4 = j := by omega
  have e3 : (4 * j + 3) / 4 = j := by omega
  have f0 : 4 * j % 4 = 0 := by omega
  have f1 : (4 * j + 1) % 4 = 1 := by omega
  have f2 : (4 * j + 2) % 4 = 2 := by omega
  have f3 : (4 * j + 3) % 4 = 3 := by omega
  simp only [getWord, setWord, e0, e1, e2, e3, f0, f1, f2, f3, if_true, UInt8.toNat_ofNat']
  norm_num
  omega

/-- The other words are left alone. -/
theorem getWord_setWord_ne {m : Bytes} {i j v : Nat} (h : i ≠ j) :
    getWord (setWord m j v) i = getWord m i :=
  getWord_congr fun k hk => setWord_apply_ne (by omega)

theorem getWord_zero (j : Nat) : getWord (fun _ => 0) j = 0 := by
  simp [getWord]

/-- The words `ws` stored from word `j` on: a struct of `uint`s assigned in place. -/
def setWords (m : Bytes) (j : Nat) : List Nat → Bytes
  | [] => m
  | w :: ws => setWords (setWord m j w) (j + 1) ws

theorem getWord_setWords_of_lt {i : Nat} : ∀ {ws : List Nat} {m : Bytes} {j : Nat}, i < j →
    getWord (setWords m j ws) i = getWord m i
  | [], _, _, _ => rfl
  | w :: ws, m, j, h => by
    rw [setWords, getWord_setWords_of_lt (by omega), getWord_setWord_ne (by omega)]

theorem getWord_setWords_of_ge {i : Nat} : ∀ {ws : List Nat} {m : Bytes} {j : Nat},
    j + ws.length ≤ i → getWord (setWords m j ws) i = getWord m i
  | [], _, _, _ => rfl
  | w :: ws, m, j, h => by
    rw [List.length_cons] at h
    rw [setWords, getWord_setWords_of_ge (by omega), getWord_setWord_ne (by omega)]

/-- Stored words read back, cut to 32 bits. -/
theorem getWord_setWords {k : Nat} : ∀ {ws : List Nat} {m : Bytes} {j : Nat}, k < ws.length →
    getWord (setWords m j ws) (j + k) = ws.getD k 0 % 2 ^ 32
  | w :: ws, m, j, h => by
    rw [setWords]
    cases k with
    | zero =>
      rw [getWord_setWords_of_lt (by omega), Nat.add_zero, getWord_setWord_self,
        List.getD_cons_zero]
    | succ k =>
      rw [List.length_cons] at h
      rw [show j + (k + 1) = j + 1 + k by omega, getWord_setWords (by omega),
        List.getD_cons_succ]

/-! ## 2. Bits -/

/-- `m[i/8] & (1 << (i%8))`. -/
def getBit (m : Bytes) (i : Nat) : Bool := (m (i / 8)).toNat.testBit (i % 8)

/-- `m[i/8] = m[i/8] | (1 << (i%8))`. -/
def setBit (m : Bytes) (i : Nat) : Bytes :=
  Function.update m (i / 8) (m (i / 8) ||| UInt8.ofNat (1 <<< (i % 8)))

theorem getBit_zero (i : Nat) : getBit (fun _ => 0) i = false := by
  simp [getBit]

/-- Setting a bit sets that bit. -/
theorem getBit_setBit (m : Bytes) (i k : Nat) :
    getBit (setBit m i) k = (decide (k = i) || getBit m k) := by
  have hmod : i % 8 < 8 := Nat.mod_lt _ (by decide)
  have hpow : (UInt8.ofNat (1 <<< (i % 8))).toNat = 2 ^ (i % 8) := by
    rw [UInt8.toNat_ofNat', Nat.one_shiftLeft]
    exact Nat.mod_eq_of_lt (Nat.pow_lt_pow_right (by decide) hmod)
  unfold getBit setBit
  by_cases hk : k / 8 = i / 8
  · rw [hk, Function.update_self, UInt8.toNat_or, Nat.testBit_or, hpow, Nat.testBit_two_pow,
      Bool.or_comm]
    congr 1
    exact decide_eq_decide.mpr (by omega)
  · rw [Function.update_of_ne hk, decide_eq_false (fun e => hk (by rw [e])), Bool.false_or]

/-- `m[i/8] = m[i/8] & ~(1 << (i%8))`. -/
def clearBit (m : Bytes) (i : Nat) : Bytes :=
  Function.update m (i / 8) (m (i / 8) &&& ~~~UInt8.ofNat (1 <<< (i % 8)))

/-- The mask has all bits but one. -/
theorem testBit_mask {j k : Nat} (hj : j < 8) (hk : k < 8) :
    (~~~UInt8.ofNat (1 <<< j)).toNat.testBit k = !decide (k = j) := by
  interval_cases j <;> interval_cases k <;> rfl

/-- Clearing a bit clears that bit. -/
theorem getBit_clearBit (m : Bytes) (i k : Nat) :
    getBit (clearBit m i) k = (!decide (k = i) && getBit m k) := by
  unfold getBit clearBit
  by_cases hk : k / 8 = i / 8
  · have hmask := testBit_mask (Nat.mod_lt i (by decide : 8 > 0)) (Nat.mod_lt k (by decide : 8 > 0))
    rw [hk, Function.update_self, UInt8.toNat_and, Nat.testBit_and, hmask, Bool.and_comm]
    congr 2
    exact decide_eq_decide.mpr (by omega)
  · rw [Function.update_of_ne hk, decide_eq_false (fun e => hk (by rw [e])), Bool.not_false,
      Bool.true_and]

/-! ## 3. Runs of bytes copied into the middle -/

/-- `memmove(m + off, src, n)`. -/
def splice (m : Bytes) (off : Nat) (src : List UInt8) : Bytes := fun k =>
  if off ≤ k ∧ k < off + src.length then src.getD (k - off) 0 else m k

/-- The `n` bytes of `m` from `off` on: what `memmove(dst, m + off, n)` puts in `dst`. -/
def slice (m : Bytes) (off n : Nat) : List UInt8 := (List.range n).map fun k => m (off + k)

@[simp] theorem slice_length (m : Bytes) (off n : Nat) : (slice m off n).length = n := by
  simp [slice]

theorem splice_apply_of_lt {m : Bytes} {off k : Nat} {src : List UInt8} (h : k < off) :
    splice m off src k = m k :=
  if_neg (by omega)

theorem splice_apply_of_ge {m : Bytes} {off k : Nat} {src : List UInt8}
    (h : off + src.length ≤ k) : splice m off src k = m k :=
  if_neg (by omega)

theorem splice_apply_mem {m : Bytes} {off k : Nat} {src : List UInt8} (h : k < src.length) :
    splice m off src (off + k) = src.getD k 0 := by
  have : off ≤ off + k ∧ off + k < off + src.length := by omega
  simp only [splice, if_pos this]
  congr 1
  omega

/-- A run written in two pieces. -/
theorem splice_take_drop (f : Bytes) (off m : Nat) (src : List UInt8) (hm : m ≤ src.length) :
    splice (splice f off (src.take m)) (off + m) (src.drop m) =
      splice f off src := by
  funext k
  simp only [splice, List.length_take, List.length_drop, Nat.min_eq_left hm]
  by_cases h₁ : off + m ≤ k ∧ k < off + m + (src.length - m)
  · rw [if_pos h₁, if_pos (by omega), List.getD_eq_getElem?_getD, List.getD_eq_getElem?_getD,
      List.getElem?_drop]
    congr 2
    omega
  · rw [if_neg h₁]
    by_cases h₂ : off ≤ k ∧ k < off + m
    · rw [if_pos h₂, if_pos (by omega), List.getD_eq_getElem?_getD, List.getD_eq_getElem?_getD,
        List.getElem?_take_of_lt (by omega)]
    · rw [if_neg h₂, if_neg (by omega)]

theorem splice_nil (f : Bytes) (off : Nat) : splice f off [] = f := by
  funext k
  exact if_neg (by simp)

end Bytes

end Xv6
