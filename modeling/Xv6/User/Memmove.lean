/-
# The two `memmove`s

The kernel copies backwards if the source begins before the destination and reaches into it
(`string.c`); the user library always copies forwards (`ulib.c`).

* `Kernel.memmove_moved`: the kernel's copy is right for all ranges.
* `Ulib.memmove_moved_iff`: the user's copy is right, except that a destination inside the source is
  filled with its first bytes over and over.
* `memmove_safe_iff`: both together.

Memory is a byte for each address, and pointers are added to and subtracted from on `uint`.
-/
import Xv6.Vm.Memory

namespace Xv6

open Function (update update_of_ne update_self)

open Vm

/-! ## 1. The code -/

abbrev Memory := Nat → UInt8

/-- `while(n-- > 0) *d++ = *s++;` -/
def copyUp (m : Memory) (d s : Nat) : Nat → Memory
  | 0 => m
  | n + 1 => copyUp (Function.update m d (m s)) (add32 d 1) (add32 s 1) n

/-- `while(n-- > 0) *--d = *--s;` -/
def copyDown (m : Memory) (d s : Nat) : Nat → Memory
  | 0 => m
  | n + 1 =>
    copyDown (Function.update m (sub32 d 1) (m (sub32 s 1))) (sub32 d 1) (sub32 s 1) n

/-- `memmove` of `string.c`. -/
def Kernel.memmove (m : Memory) (dst src n : Nat) : Memory :=
  if src < dst ∧ dst < add32 src n then copyDown m (add32 dst n) (add32 src n) n
  else copyUp m dst src n

/-- `memmove` of `ulib.c`, with an `int` for the size. -/
def Ulib.memmove (m : Memory) (vdst vsrc : Nat) (n : Int) : Memory := copyUp m vdst vsrc n.toNat

/-- What they are for: the `n` bytes at `src` are now at `dst`, and nothing else has changed. -/
structure Moved (m : Memory) (dst src n : Nat) (m' : Memory) : Prop where
  inside : ∀ i, i < n → m' (dst + i) = m (src + i)
  outside : ∀ a, a < dst ∨ dst + n ≤ a → m' a = m a

/-! ## 2. What the loops do -/

section

variable {m : Memory} {d s n a : Nat}

theorem copyUp_below (h : a < d) (hd : d + n ≤ 2 ^ 32) : copyUp m d s n a = m a := by
  induction n generalizing m d s with
  | zero => rfl
  | succ n ih =>
    rcases n.eq_zero_or_pos with rfl | hpos
    · exact update_of_ne h.ne ..
    · have hadd : add32 d 1 = d + 1 := Nat.mod_eq_of_lt (by omega)
      rw [copyUp, hadd, ih (by omega) (by omega), update_of_ne h.ne]

theorem copyUp_above (h : d + n ≤ a) (hd : d + n ≤ 2 ^ 32) : copyUp m d s n a = m a := by
  induction n generalizing m d s with
  | zero => rfl
  | succ n ih =>
    have hne : a ≠ d := by omega
    rcases n.eq_zero_or_pos with rfl | hpos
    · exact update_of_ne hne ..
    · have hadd : add32 d 1 = d + 1 := Nat.mod_eq_of_lt (by omega)
      rw [copyUp, hadd, ih (by omega) (by omega), update_of_ne hne]

/-- The first byte, which no later step overwrites. -/
theorem copyUp_first (hd : d + (n + 1) ≤ 2 ^ 32) : copyUp m d s (n + 1) d = m s := by
  rw [copyUp]
  rcases n.eq_zero_or_pos with rfl | hpos
  · exact update_self ..
  · have hadd : add32 d 1 = d + 1 := Nat.mod_eq_of_lt (by omega)
    rw [hadd, copyUp_below (Nat.lt_succ_self d) (by omega), update_self]

/-- Forwards to a lower address. -/
theorem copyUp_low (h : d ≤ s) (hd : d + n ≤ 2 ^ 32) (hs : s + n ≤ 2 ^ 32) {i : Nat} (hi : i < n) :
    copyUp m d s n (d + i) = m (s + i) := by
  induction n generalizing m d s i with
  | zero => exact absurd hi (Nat.not_lt_zero i)
  | succ n ih =>
    cases i with
    | zero => exact copyUp_first hd
    | succ i =>
      have hdadd : add32 d 1 = d + 1 := Nat.mod_eq_of_lt (by omega)
      have hsadd : add32 s 1 = s + 1 := Nat.mod_eq_of_lt (by omega)
      have hstep : copyUp (update m d (m s)) (d + 1) (s + 1) n (d + 1 + i) =
          update m d (m s) (s + 1 + i) :=
        ih (Nat.succ_le_succ h) (by omega) (by omega) (Nat.lt_of_succ_lt_succ hi)
      rw [update_of_ne (by omega), Nat.add_right_comm, Nat.add_right_comm s] at hstep
      rw [copyUp, hdadd, hsadd]
      exact hstep

/-- **Forwards to a higher address**: the first `d - s` bytes are repeated. -/
theorem copyUp_high (h : s < d) (hd : d + n ≤ 2 ^ 32) {i : Nat} (hi : i < n) :
    copyUp m d s n (d + i) = m (s + i % (d - s)) := by
  induction n generalizing m d s i with
  | zero => exact absurd hi (Nat.not_lt_zero i)
  | succ n ih =>
    cases i with
    | zero => exact copyUp_first hd
    | succ i =>
      have hdadd : add32 d 1 = d + 1 := Nat.mod_eq_of_lt (by omega)
      have hsadd : add32 s 1 = s + 1 := Nat.mod_eq_of_lt (by omega)
      have hstep : copyUp (update m d (m s)) (d + 1) (s + 1) n (d + 1 + i) =
          update m d (m s) (s + 1 + i % (d + 1 - (s + 1))) :=
        ih (Nat.succ_lt_succ h) (by omega) (Nat.lt_of_succ_lt_succ hi)
      rw [Nat.add_sub_add_right, Nat.add_right_comm, Nat.add_right_comm s] at hstep
      rw [copyUp, hdadd, hsadd]
      refine hstep.trans ?_
      -- the byte was there, or it is the copy of the first one
      have hlt : i % (d - s) < d - s := Nat.mod_lt _ (Nat.sub_pos_of_lt h)
      rw [← Nat.mod_add_mod]
      by_cases hlast : i % (d - s) + 1 = d - s
      · have haddr : s + i % (d - s) + 1 = d := by omega
        rw [hlast, Nat.mod_self, haddr, update_self, Nat.add_zero]
      · have hmod : (i % (d - s) + 1) % (d - s) = i % (d - s) + 1 := Nat.mod_eq_of_lt (by omega)
        rw [hmod, update_of_ne (by omega), Nat.add_assoc]

theorem copyUp_outside (h : a < d ∨ d + n ≤ a) (hd : d + n ≤ 2 ^ 32) : copyUp m d s n a = m a :=
  h.elim (copyUp_below · hd) (copyUp_above · hd)

/-- Backwards to a higher address, from the ends of the ranges. -/
theorem copyDown_eq (h : s < d) (hd : d + n ≤ 2 ^ 32) :
    copyDown m (add32 d n) (add32 s n) n =
      fun a => if d ≤ a ∧ a < d + n then m (s + (a - d)) else m a := by
  induction n generalizing m with
  | zero =>
    funext a
    exact (if_neg (by omega)).symm
  | succ n ih =>
    have hdsub : sub32 (add32 d (n + 1)) 1 = add32 d n := by
      simp only [sub32, add32]
      omega
    have hssub : sub32 (add32 s (n + 1)) 1 = add32 s n := by
      simp only [sub32, add32]
      omega
    have hdadd : add32 d n = d + n := Nat.mod_eq_of_lt (by omega)
    have hsadd : add32 s n = s + n := Nat.mod_eq_of_lt (by omega)
    rw [copyDown, hdsub, hssub, ih (by omega), hdadd, hsadd]
    funext a
    rcases Nat.lt_trichotomy a (d + n) with ha | rfl | ha
    · by_cases hda : d ≤ a
      · rw [if_pos ⟨hda, ha⟩, if_pos ⟨hda, by omega⟩, update_of_ne (by omega)]
      · rw [if_neg (by omega), if_neg (by omega), update_of_ne (by omega)]
    · rw [if_neg (by omega), if_pos (by omega), update_self, Nat.add_sub_cancel_left]
    · rw [if_neg (by omega), if_neg (by omega), update_of_ne (by omega)]

end

/-! ## 3. What they promise -/

section

variable {m : Memory} {dst src n : Nat}

/-- **The kernel's `memmove`** is right for all ranges. -/
theorem Kernel.memmove_moved (hd : dst + n ≤ 2 ^ 32) (hs : src + n ≤ 2 ^ 32) :
    Moved m dst src n (Kernel.memmove m dst src n) := by
  rw [Kernel.memmove]
  split
  next hover =>
    rw [copyDown_eq hover.1 hd]
    refine ⟨fun i hi => ?_, fun a ha => if_neg (by omega)⟩
    rw [if_pos ⟨Nat.le_add_right .., Nat.add_lt_add_left hi _⟩, Nat.add_sub_cancel_left]
  next hover =>
    refine ⟨fun i hi => ?_, fun a ha => copyUp_outside ha hd⟩
    rcases le_or_gt dst src with hle | hlt
    · exact copyUp_low hle hd hs hi
    · -- the source ends before the destination
      have hadd : add32 src n = src + n := Nat.mod_eq_of_lt (by omega)
      have hmod : i % (dst - src) = i := Nat.mod_eq_of_lt (by omega)
      rw [copyUp_high hlt hd hi, hmod]

/-- **The user's `memmove`** is right, unless the destination begins inside the source and the source
does not repeat itself there. -/
theorem Ulib.memmove_moved_iff (hd : dst + n ≤ 2 ^ 32) (hs : src + n ≤ 2 ^ 32) :
    Moved m dst src n (Ulib.memmove m dst src n) ↔
      (src < dst → dst < src + n → ∀ i, i < n → m (src + i % (dst - src)) = m (src + i)) := by
  rw [Ulib.memmove, Int.toNat_natCast]
  constructor
  · intro h hlt _ i hi
    exact (copyUp_high hlt hd hi).symm.trans (h.inside i hi)
  · intro h
    refine ⟨fun i hi => ?_, fun a ha => copyUp_outside ha hd⟩
    rcases le_or_gt dst src with hle | hlt
    · exact copyUp_low hle hd hs hi
    · rw [copyUp_high hlt hd hi]
      rcases lt_or_ge dst (src + n) with hin | hout
      · exact h hlt hin i hi
      · rw [Nat.mod_eq_of_lt (by omega)]

/-- **When both copies are right**, and so the same. -/
theorem memmove_safe_iff (hd : dst + n ≤ 2 ^ 32) (hs : src + n ≤ 2 ^ 32) :
    (Moved m dst src n (Kernel.memmove m dst src n) ∧ Moved m dst src n (Ulib.memmove m dst src n)) ↔
      (src < dst → dst < src + n → ∀ i, i < n → m (src + i % (dst - src)) = m (src + i)) := by
  rw [Ulib.memmove_moved_iff hd hs]
  exact and_iff_right (Kernel.memmove_moved hd hs)

end

/-- The byte at each address is the address. -/
def ramp : Memory := fun a => UInt8.ofNat a

/-- Three bytes are moved up by one. -/
theorem memmove_overlap : ¬ (Moved ramp 1 0 3 (Kernel.memmove ramp 1 0 3) ∧
    Moved ramp 1 0 3 (Ulib.memmove ramp 1 0 3)) := by
  rintro ⟨-, h⟩
  exact absurd (h.inside 1 (by decide)) (by decide)

theorem memmove_safe_iff_apart : Moved ramp 8 0 3 (Kernel.memmove ramp 8 0 3) ∧
    Moved ramp 8 0 3 (Ulib.memmove ramp 8 0 3) :=
  (memmove_safe_iff (by decide) (by decide)).mpr fun _ hin => absurd hin (by decide)

end Xv6
