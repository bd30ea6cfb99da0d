/-
# Ledgers: who owns which block

A pool of numbered blocks is handed out to owners.  An owner is a place that can hold a block
number, and `f k` is the number the place `k` holds, with 0 for none.  `Ledger f used` says
that the numbers in the places are exactly the blocks in use, each of them in one place: no
block is leaked, shared, or referenced while free.

The rules say how the ledger moves when one place is filled (`Ledger.add`) and when a set of
places is emptied (`Ledger.drop`).  They do not ask what a place is.
-/
import Mathlib.Logic.Function.Basic
import Mathlib.Tactic

namespace Xv6

open Function (update update_of_ne update_self)

variable {ι : Type}

/-- The places `f` hold exactly the blocks in use, each one once. -/
structure Ledger (f : ι → Nat) (used : Nat → Prop) : Prop where
  zero : ¬ used 0
  mem : ∀ k, f k ≠ 0 → used (f k)
  inj : ∀ k l, f k ≠ 0 → f k = f l → k = l
  cover : ∀ b, used b → ∃ k, f k = b

namespace Ledger

variable {f g : ι → Nat} {used used' : Nat → Prop}

theorem congr (h : Ledger f used) (hf : ∀ k, g k = f k) (hu : ∀ b, used' b ↔ used b) :
    Ledger g used' := by
  obtain rfl : g = f := funext hf
  obtain rfl : used' = used := funext fun b => propext (hu b)
  exact h

/-- A block in use is held by exactly one place, and it is not the null block. -/
theorem ne_zero (h : Ledger f used) {b : Nat} (hb : used b) : b ≠ 0 := fun e => h.zero (e ▸ hb)

/-- A block that is not in use is held nowhere. -/
theorem ne_of_not_used (h : Ledger f used) {b : Nat} (hb : ¬ used b) (h0 : b ≠ 0) (k : ι) :
    f k ≠ b := by
  intro e
  exact hb (e ▸ h.mem k (e ▸ h0))

/-- **Filling a place** with a fresh block. -/
theorem add [DecidableEq ι] (h : Ledger f used) {k : ι} {b : Nat} (hk : f k = 0) (hb : ¬ used b)
    (h0 : b ≠ 0) : Ledger (update f k b) (fun x => x = b ∨ used x) where
  zero := by
    rintro (e | e)
    · exact h0 e.symm
    · exact h.zero e
  mem l hl := by
    by_cases e : l = k
    · subst e
      exact Or.inl (by simp)
    · rw [update_of_ne e] at hl ⊢
      exact Or.inr (h.mem l hl)
  inj l m hl e := by
    by_cases el : l = k <;> by_cases em : m = k
    · rw [el, em]
    · subst el
      rw [update_self, update_of_ne em] at e
      exact absurd e.symm (h.ne_of_not_used hb h0 m)
    · subst em
      rw [update_self, update_of_ne el] at e
      exact absurd e (h.ne_of_not_used hb h0 l)
    · rw [update_of_ne el] at hl e
      rw [update_of_ne em] at e
      exact h.inj l m hl e
  cover x hx := by
    rcases hx with e | hx
    · exact ⟨k, by rw [update_self, e]⟩
    · obtain ⟨l, hl⟩ := h.cover x hx
      have hne : l ≠ k := fun e => h.ne_zero hx (by rw [← hl, e, hk])
      exact ⟨l, by rw [update_of_ne hne, hl]⟩

/-- **Emptying a set of places**: their blocks, and no others, go back to the pool. -/
theorem drop (h : Ledger f used) (K : ι → Prop) [DecidablePred K] :
    Ledger (fun k => if K k then 0 else f k) (fun b => used b ∧ ∀ k, K k → f k ≠ b) where
  zero hz := h.zero hz.1
  mem k hk := by
    by_cases e : K k
    · simp [e] at hk
    · simp only [if_neg e] at hk ⊢
      refine ⟨h.mem k hk, fun l hl he => ?_⟩
      exact e (h.inj l k (he ▸ hk) he ▸ hl)
  inj k l hk e := by
    by_cases ek : K k
    · simp [ek] at hk
    · simp only [if_neg ek] at hk e
      by_cases el : K l
      · rw [if_pos el] at e
        exact absurd e hk
      · rw [if_neg el] at e
        exact h.inj k l hk e
  cover b hb := by
    obtain ⟨k, hk⟩ := h.cover b hb.1
    have hnot : ¬ K k := fun hK => hb.2 k hK hk
    exact ⟨k, by rw [if_neg hnot, hk]⟩

end Ledger

end Xv6
