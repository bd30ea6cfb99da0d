/-
# Ring buffers with free-running counters

A queue of at most `N` items lives in an array of `N` cells.  Two counters say how many items
have been written and read so far; they count modulo `M` and are cut down to an index only when a
cell is accessed.  The buffer is empty when the counters are equal and full when they are `N`
apart.

This works across the wrap of the counters when `N` divides `M` and is smaller: an index then
depends on the true count alone, and `Rep r xs` says that the buffer holds the queue `xs`.

An item can also be taken back from the end that was written last, and put back at the end that
was read last.
-/
import Mathlib.Data.Nat.ModEq
import Mathlib.Logic.Function.Basic
import Mathlib.Tactic

namespace Xv6

/-- The cells and the two counters. -/
structure RingBuffer (β : Type) where
  data : Nat → β
  nread : Nat
  nwrite : Nat

namespace RingBuffer

variable {β : Type}

def IsEmpty (r : RingBuffer β) : Prop := r.nread = r.nwrite

def IsFull (N M : Nat) (r : RingBuffer β) : Prop := r.nwrite = (r.nread + N) % M

instance (r : RingBuffer β) : Decidable r.IsEmpty := inferInstanceAs (Decidable (_ = _))

instance (N M : Nat) (r : RingBuffer β) : Decidable (r.IsFull N M) :=
  inferInstanceAs (Decidable (_ = _))

/-- `data[nwrite++ % N] = b`. -/
def push (N M : Nat) (r : RingBuffer β) (b : β) : RingBuffer β :=
  { r with data := Function.update r.data (r.nwrite % N) b, nwrite := (r.nwrite + 1) % M }

/-- `data[nread % N]`. -/
def front (N : Nat) (r : RingBuffer β) : β := r.data (r.nread % N)

/-- `nread++`. -/
def pop (M : Nat) (r : RingBuffer β) : RingBuffer β := { r with nread := (r.nread + 1) % M }

/-- `data[(nwrite - 1) % N]`. -/
def last (N M : Nat) (r : RingBuffer β) : β := r.data ((r.nwrite + M - 1) % M % N)

/-- `nwrite--`. -/
def retract (M : Nat) (r : RingBuffer β) : RingBuffer β :=
  { r with nwrite := (r.nwrite + M - 1) % M }

@[simp] theorem retract_nread (M : Nat) (r : RingBuffer β) : (r.retract M).nread = r.nread := rfl

/-- `nread--`. -/
def unpop (M : Nat) (r : RingBuffer β) : RingBuffer β := { r with nread := (r.nread + M - 1) % M }

/-- How far a counter is ahead of `nread`. -/
def ahead (M : Nat) (r : RingBuffer β) (x : Nat) : Nat := (x + M - r.nread) % M

/-- The cells from `nread` up to a counter, oldest first. -/
def upTo (N M : Nat) (r : RingBuffer β) (x : Nat) : List β :=
  (List.range (r.ahead M x)).map fun i => r.data ((r.nread + i) % N)

/-- The buffer holds the queue `xs`. -/
structure Rep (N M : Nat) (r : RingBuffer β) (xs : List β) : Prop where
  length_le : xs.length ≤ N
  nread_lt : r.nread < M
  nwrite : r.nwrite = (r.nread + xs.length) % M
  data : ∀ i (h : i < xs.length), r.data ((r.nread + i) % N) = xs[i]

namespace Rep

variable {N M : Nat} {r : RingBuffer β} {xs : List β} {b : β}

theorem ahead_add (h : Rep N M r xs) {k : Nat} (hk : k < M) : r.ahead M ((r.nread + k) % M) = k := by
  have hr := h.nread_lt
  rw [ahead, Nat.add_mod_eq_ite, Nat.mod_eq_of_lt hr, Nat.mod_eq_of_lt hk]
  split
  · rw [show r.nread + k - M + M - r.nread = k by omega, Nat.mod_eq_of_lt hk]
  · rw [show r.nread + k + M - r.nread = k + M by omega, Nat.add_mod_right, Nat.mod_eq_of_lt hk]

/-- The counters are as far apart as the queue is long. -/
theorem ahead_nwrite (h : Rep N M r xs) (hlt : N < M) : r.ahead M r.nwrite = xs.length := by
  rw [h.nwrite]
  exact h.ahead_add (h.length_le.trans_lt hlt)

theorem isEmpty_iff (h : Rep N M r xs) (hlt : N < M) : r.IsEmpty ↔ xs = [] := by
  have hs := h.ahead_nwrite hlt
  constructor
  · intro he
    rw [IsEmpty] at he
    rw [ahead, ← he, show r.nread + M - r.nread = M by omega, Nat.mod_self] at hs
    exact List.eq_nil_of_length_eq_zero hs.symm
  · rintro rfl
    have := h.nwrite
    rwa [List.length_nil, Nat.add_zero, Nat.mod_eq_of_lt h.nread_lt, eq_comm] at this

theorem isFull_iff (h : Rep N M r xs) (hlt : N < M) : r.IsFull N M ↔ xs.length = N := by
  have hn := h.nwrite
  have hl := h.length_le
  constructor
  · intro hf
    rw [IsFull, hn] at hf
    have hmod : xs.length ≡ N [MOD M] := Nat.ModEq.add_left_cancel' r.nread hf
    rwa [Nat.ModEq, Nat.mod_eq_of_lt (by omega), Nat.mod_eq_of_lt hlt] at hmod
  · intro e
    rw [IsFull, hn, e]

/-- The cell that `push` writes holds no item of the queue. -/
theorem index_ne (hl : xs.length < N) {i : Nat} (hi : i < xs.length) :
    (r.nread + i) % N ≠ (r.nread + xs.length) % N := by
  intro e
  have hmod : i ≡ xs.length [MOD N] := Nat.ModEq.add_left_cancel' r.nread e
  rw [Nat.ModEq, Nat.mod_eq_of_lt (hi.trans hl), Nat.mod_eq_of_lt hl] at hmod
  omega

theorem push (h : Rep N M r xs) (hdvd : N ∣ M) (hl : xs.length < N) :
    Rep N M (r.push N M b) (xs ++ [b]) where
  length_le := by simpa using hl
  nread_lt := h.nread_lt
  nwrite := by
    simp only [RingBuffer.push, h.nwrite, List.length_append, List.length_singleton,
      Nat.mod_add_mod, Nat.add_assoc]
  data i hi := by
    have hw : r.nwrite % N = (r.nread + xs.length) % N := by
      rw [h.nwrite, Nat.mod_mod_of_dvd _ hdvd]
    simp only [RingBuffer.push, hw]
    rcases Nat.lt_or_ge i xs.length with hlt | hge
    · rw [Function.update_of_ne (index_ne hl hlt), h.data i hlt, List.getElem_append_left hlt]
    · obtain rfl : i = xs.length := by
        simp only [List.length_append, List.length_singleton] at hi
        omega
      simp

theorem front (h : Rep N M r (b :: xs)) : r.front N = b :=
  h.data 0 (by simp)

theorem pop (h : Rep N M r (b :: xs)) (hdvd : N ∣ M) : Rep N M (r.pop M) xs where
  length_le := (Nat.le_succ _).trans h.length_le
  nread_lt := Nat.mod_lt _ (Nat.zero_lt_of_lt h.nread_lt)
  nwrite := by
    simp only [RingBuffer.pop, h.nwrite, List.length_cons, Nat.mod_add_mod]
    congr 1
    omega
  data i hi := by
    have hidx : ((r.nread + 1) % M + i) % N = (r.nread + (i + 1)) % N := by
      rw [Nat.add_mod, Nat.mod_mod_of_dvd _ hdvd, ← Nat.add_mod]
      congr 1
      omega
    simp only [RingBuffer.pop, hidx]
    exact h.data (i + 1) (by simpa using hi)

/-- What was just read is put back. -/
theorem unpop_pop (h : Rep N M r xs) : (r.pop M).unpop M = r := by
  have hr := h.nread_lt
  simp only [RingBuffer.pop, RingBuffer.unpop]
  congr 1
  rcases Nat.lt_or_ge (r.nread + 1) M with hlt | hge
  · rw [Nat.mod_eq_of_lt hlt, show r.nread + 1 + M - 1 = r.nread + M by omega, Nat.add_mod_right,
      Nat.mod_eq_of_lt hr]
  · rw [show r.nread + 1 = M by omega, Nat.mod_self, Nat.zero_add, Nat.mod_eq_of_lt (by omega)]
    omega

/-- The counter before the last item. -/
theorem nwrite_pred (h : Rep N M r (xs ++ [b])) :
    (r.nwrite + M - 1) % M = (r.nread + xs.length) % M := by
  have hM : 0 < M := Nat.zero_lt_of_lt h.nread_lt
  have hn := h.nwrite
  rw [List.length_append, List.length_singleton, ← Nat.add_assoc] at hn
  rw [hn, show (r.nread + xs.length + 1) % M + M - 1 = (r.nread + xs.length + 1) % M + (M - 1) by omega,
    Nat.mod_add_mod, show r.nread + xs.length + 1 + (M - 1) = r.nread + xs.length + M by omega,
    Nat.add_mod_right]

theorem retract (h : Rep N M r (xs ++ [b])) : Rep N M (r.retract M) xs where
  length_le := by
    have := h.length_le
    rw [List.length_append] at this
    omega
  nread_lt := h.nread_lt
  nwrite := h.nwrite_pred
  data i hi := by
    have := h.data i (by rw [List.length_append]; omega)
    rwa [List.getElem_append_left hi] at this

theorem upTo_add (h : Rep N M r xs) (hlt : N < M) {k : Nat} (hk : k ≤ xs.length) :
    r.upTo N M ((r.nread + k) % M) = xs.take k := by
  have hkM : k < M := (hk.trans h.length_le).trans_lt hlt
  refine List.ext_getElem (by simp [upTo, h.ahead_add hkM, hk]) fun i hi hi' => ?_
  simp only [upTo, List.getElem_map, List.getElem_range, List.getElem_take]
  exact h.data i (by simp only [List.length_take] at hi'; omega)

theorem upTo_nwrite (h : Rep N M r xs) (hlt : N < M) : r.upTo N M r.nwrite = xs := by
  rw [h.nwrite, h.upTo_add hlt (Nat.le_refl _), List.take_length]

theorem empty (hM : 0 < M) (data : Nat → β) : Rep N M ⟨data, 0, 0⟩ [] :=
  ⟨Nat.zero_le _, hM, (Nat.zero_mod M).symm, fun i hi => absurd hi (Nat.not_lt_zero i)⟩

end Rep

end RingBuffer

end Xv6
