/-
# Extents of addresses

An extent is a first address and a length.  `cover B` are the addresses of a multiset of extents, as a
multiset: an address that lies in two of them counts twice.  So a cover without duplicates means that
the extents lie apart, and to cut an extent in two, or to join two neighbours, changes nothing.
-/
import Mathlib.Order.Interval.Finset.Nat
import Mathlib.Order.Interval.Multiset
import Mathlib.Tactic

namespace Xv6

/-- The addresses of the extents, one after another. -/
def cover (B : Multiset (Nat × Nat)) : Multiset Nat :=
  (B.map fun b => Multiset.Ico b.1 (b.1 + b.2)).sum

section

variable {B C : Multiset (Nat × Nat)} {a b m n x : Nat}

@[simp] theorem cover_zero : cover 0 = 0 := rfl

theorem cover_add : cover (B + C) = cover B + cover C := by
  rw [cover, Multiset.map_add, Multiset.sum_add]
  rfl

theorem cover_cons (b : Nat × Nat) : cover (b ::ₘ B) = Multiset.Ico b.1 (b.1 + b.2) + cover B := by
  rw [cover, Multiset.map_cons, Multiset.sum_cons]
  rfl

theorem mem_cover : x ∈ cover B ↔ ∃ b ∈ B, b.1 ≤ x ∧ x < b.1 + b.2 := by
  induction B using Multiset.induction_on with
  | empty => simp
  | cons c B ih =>
    simp only [cover_cons, Multiset.mem_add, ih, Multiset.mem_Ico, Multiset.mem_cons, or_and_right,
      exists_or, exists_eq_left]

/-- An extent is cut in two. -/
theorem cover_split (a m n : Nat) : cover ((a, m + n) ::ₘ B) = cover ((a, m) ::ₘ (a + m, n) ::ₘ B) := by
  have hjoin := Multiset.Ico_add_Ico_eq_Ico (Nat.le_add_right a m) (Nat.le_add_right (a + m) n)
  simp only [cover_cons]
  rw [← Nat.add_assoc a m n, ← hjoin, add_assoc]

theorem card_cover : (cover B).card = (B.map Prod.snd).sum := by
  induction B using Multiset.induction_on with
  | empty => rfl
  | cons b B ih =>
    have hlen : (Multiset.Ico b.1 (b.1 + b.2)).card = b.2 :=
      (Nat.card_Ico ..).trans (Nat.add_sub_cancel_left ..)
    rw [cover_cons, Multiset.card_add, ih, Multiset.map_cons, Multiset.sum_cons, hlen]

/-- Two extents of a cover without duplicates lie apart. -/
theorem apart_of_nodup_cover (h : (cover ((a, m) ::ₘ B)).Nodup) (hb : (b, n) ∈ B) (hm : 0 < m)
    (hn : 0 < n) : a + m ≤ b ∨ b + n ≤ a := by
  rw [cover_cons, Multiset.nodup_add] at h
  have hone : ∀ x, a ≤ x → x < a + m → ¬(b ≤ x ∧ x < b + n) := fun x hle hlt hx =>
    Multiset.disjoint_left.mp h.2.2 (Multiset.mem_Ico.mpr ⟨hle, hlt⟩) (mem_cover.mpr ⟨_, hb, hx⟩)
  by_contra hc
  -- the larger of the two first addresses lies in both
  rcases le_total a b with hle | hle
  · exact hone b hle (by omega) ⟨le_rfl, by omega⟩
  · exact hone a le_rfl (by omega) ⟨hle, by omega⟩

end

end Xv6
