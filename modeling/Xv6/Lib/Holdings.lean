/-
# What a family of places holds

A place holds at most one thing.  `held S f` is the multiset of what the places of `S` hold, where
`f i` is what place `i` holds.  Whoever hands things out keeps the total the same: what the places
hold, together with what is left, is a multiset that no operation changes.  That nothing is held
twice is then one statement about the total (`Multiset.Nodup`), and it need not be proved again for
the places after each operation.
-/
import Mathlib.Algebra.Order.BigOperators.Group.Multiset
import Mathlib.Algebra.BigOperators.Group.Finset.Basic
import Mathlib.Tactic

namespace Xv6

variable {ι α : Type} {S T : Finset ι} {f g : ι → Option α} {i j : ι} {a : α}

/-- One thing, or nothing. -/
def bag : Option α → Multiset α
  | none => 0
  | some a => {a}

/-- What the places of `S` hold. -/
def held (S : Finset ι) (f : ι → Option α) : Multiset α := ∑ i ∈ S, bag (f i)

@[simp] theorem bag_none : bag (none : Option α) = 0 := rfl

@[simp] theorem bag_some (a : α) : bag (some a) = {a} := rfl

theorem mem_bag {o : Option α} : a ∈ bag o ↔ o = some a := by
  cases o with
  | none => simp
  | some b => simp [eq_comm]

theorem mem_held : a ∈ held S f ↔ ∃ i ∈ S, f i = some a := by
  rw [held, Multiset.mem_sum]
  exact exists_congr fun i => and_congr_right fun _ => mem_bag

theorem held_congr (h : ∀ i ∈ S, f i = g i) : held S f = held S g :=
  Finset.sum_congr rfl fun i hi => by rw [h i hi]

theorem held_eq_zero (h : ∀ i ∈ S, f i = none) : held S f = 0 :=
  Finset.sum_eq_zero fun i hi => by rw [h i hi, bag_none]

variable [DecidableEq ι]

/-- One place of `S`, and the others. -/
theorem held_erase (hi : i ∈ S) : held S f = bag (f i) + held (S.erase i) f :=
  (Finset.add_sum_erase S (fun i => bag (f i)) hi).symm

/-- Only place `i` has changed. -/
theorem held_change (hi : i ∈ S) (h : ∀ j ∈ S, j ≠ i → g j = f j) :
    held S g + bag (f i) = held S f + bag (g i) := by
  have hrest : held (S.erase i) g = held (S.erase i) f :=
    held_congr fun j hj => h j (Finset.mem_of_mem_erase hj) (Finset.ne_of_mem_erase hj)
  rw [held_erase hi, held_erase (f := f) hi, hrest]
  abel

/-- What is held once is held in one place. -/
theorem eq_of_nodup_held (h : (held S f).Nodup) (hi : i ∈ S) (hj : j ∈ S) (hfi : f i = some a)
    (hfj : f j = some a) : i = j := by
  by_contra hne
  rw [held_erase hi, hfi, bag_some, Multiset.nodup_add] at h
  have hmem : a ∈ held (S.erase i) f :=
    mem_held.mpr ⟨j, Finset.mem_erase.mpr ⟨fun e => hne e.symm, hj⟩, hfj⟩
  exact Multiset.disjoint_left.mp h.2.2 (Multiset.mem_singleton_self a) hmem

theorem card_bag_le (o : Option α) : (bag o).card ≤ 1 := by
  cases o with
  | none => exact Nat.zero_le 1
  | some a => exact (Multiset.card_singleton a).le

/-- There are no more things than places that hold one. -/
theorem card_held_le (h : ∀ i ∈ S, f i ≠ none → i ∈ T) : (held S f).card ≤ T.card := by
  have hsum : (held S f).card = ∑ i ∈ S, (bag (f i)).card := by
    rw [held]
    exact map_sum Multiset.cardHom (fun i => bag (f i)) S
  have hle : ∀ i ∈ S, (bag (f i)).card ≤ if i ∈ T then 1 else 0 := by
    intro i hi
    by_cases hT : i ∈ T
    · rw [if_pos hT]
      exact card_bag_le _
    · have hnone : f i = none := by
        by_contra hne
        exact hT (h i hi hne)
      rw [hnone]
      exact Nat.zero_le _
  rw [hsum]
  calc ∑ i ∈ S, (bag (f i)).card
      ≤ ∑ i ∈ S, if i ∈ T then 1 else 0 := Finset.sum_le_sum hle
    _ = (S.filter (· ∈ T)).card := by rw [Finset.card_filter]
    _ ≤ T.card := Finset.card_le_card fun i hi => (Finset.mem_filter.mp hi).2

end Xv6
