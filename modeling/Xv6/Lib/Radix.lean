/-
# Two-level tables in a memory of pages

A memory is a run of bytes for each page number.  A directory is a page of words, and `next w` is
the page that the directory word `w` leads to, if it leads to one.  That page is a table of `N`
words, and word `v % N` of the table at `v / N` is leaf `v`; a leaf whose table is missing is 0.

The rules say how the leaves move when a word of a table is stored (`leaf_store`) and when an empty
table is added (`leaf_link`), and on which pages they depend (`leaf_congr`).
-/
import Xv6.Lib.Bytes

namespace Xv6.Radix

open Function (update update_of_ne update_self)

open Bytes

variable (N : Nat) (next : Nat → Option Nat)

/-- The table that entry `x` of the directory leads to. -/
def table (m : Nat → Bytes) (d x : Nat) : Option Nat := next (getWord (m d) x)

/-- Leaf `v`. -/
def leaf (m : Nat → Bytes) (d v : Nat) : Nat :=
  match table next m d (v / N) with
  | some t => getWord (m t) (v % N)
  | none => 0

variable {N next} {m m' : Nat → Bytes} {d t x v w : Nat}

theorem leaf_of_table (h : table next m d (v / N) = some t) :
    leaf N next m d v = getWord (m t) (v % N) := by
  rw [leaf, h]

theorem leaf_of_none (h : table next m d (v / N) = none) : leaf N next m d v = 0 := by
  rw [leaf, h]

theorem table_congr (h : m' d = m d) : table next m' d x = table next m d x := by
  rw [table, table, h]

/-- A leaf depends on the directory and on its table. -/
theorem leaf_congr (hd : m' d = m d) (ht : ∀ t, table next m d (v / N) = some t → m' t = m t) :
    leaf N next m' d v = leaf N next m d v := by
  cases h : table next m d (v / N) with
  | none => rw [leaf_of_none h, leaf_of_none ((table_congr hd).trans h)]
  | some t => rw [leaf_of_table h, leaf_of_table ((table_congr hd).trans h), ht t h]

/-- **A word of a table is stored.**  Nothing but its own leaf changes, if the table is not the
directory and is used once. -/
theorem leaf_store {u : Nat} (ht : table next m d (v / N) = some t) (hd : t ≠ d)
    (honce : table next m d (u / N) = some t → u / N = v / N) :
    leaf N next (update m t (setWord (m t) (v % N) w)) d u =
      if u = v then w % 2 ^ 32 else leaf N next m d u := by
  have hdir : update m t (setWord (m t) (v % N) w) d = m d :=
    update_of_ne hd.symm ..
  have htable : ∀ x, table next (update m t (setWord (m t) (v % N) w)) d x =
      table next m d x := fun x => table_congr hdir
  by_cases hu : u = v
  · subst hu
    rw [if_pos rfl, leaf_of_table ((htable _).trans ht), update_self,
      getWord_setWord_self]
  · rw [if_neg hu]
    by_cases hsame : table next m d (u / N) = some t
    · have hmod : u % N ≠ v % N := by
        intro hmod
        apply hu
        rw [← Nat.div_add_mod u N, ← Nat.div_add_mod v N, honce hsame, hmod]
      rw [leaf_of_table ((htable _).trans hsame), leaf_of_table hsame, update_self,
        getWord_setWord_ne hmod]
    · refine leaf_congr hdir fun t' ht' => update_of_ne ?_ ..
      rintro rfl
      exact hsame ht'

section

variable {g : Nat}

/-- **An empty table is added**: it is the table of its entry. -/
theorem table_link (y : Nat) (hw : next w = some g) (hlt : w < 2 ^ 32) :
    table next (update (update m g fun _ => 0) d (setWord (m d) x w)) d y =
      if y = x then some g else table next m d y := by
  rw [table, update_self]
  by_cases hy : y = x
  · rw [if_pos hy, hy, getWord_setWord_self, Nat.mod_eq_of_lt hlt, hw]
  · rw [if_neg hy, getWord_setWord_ne hy, table]

/-- An empty table adds no leaf. -/
theorem leaf_link (hnone : table next m d x = none) (hw : next w = some g) (hlt : w < 2 ^ 32)
    (hg : g ≠ d) (hnew : ∀ t, table next m d (v / N) = some t → t ≠ g ∧ t ≠ d) :
    leaf N next (update (update m g fun _ => 0) d (setWord (m d) x w)) d v =
      leaf N next m d v := by
  have htable := table_link (m := m) (d := d) (x := x) (v / N) hw hlt
  by_cases hx : v / N = x
  · rw [if_pos hx] at htable
    rw [leaf_of_table htable, update_of_ne hg, update_self, getWord_zero,
      leaf_of_none (hx ▸ hnone)]
  · rw [if_neg hx] at htable
    cases h : table next m d (v / N) with
    | none => rw [leaf_of_none (htable.trans h), leaf_of_none h]
    | some t =>
      obtain ⟨htg, htd⟩ := hnew t h
      rw [leaf_of_table (htable.trans h), leaf_of_table h, update_of_ne htd,
        update_of_ne htg]

end

end Xv6.Radix
