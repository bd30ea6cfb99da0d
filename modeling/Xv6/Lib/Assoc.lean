/-
# Lists that represent partial maps

A list of entries, each with a key and a value, represents the map that takes each key to its
value, when no two entries have the same key.  Entries come and go, in any order.
-/
import Mathlib.Data.List.Pairwise
import Mathlib.Logic.Function.Basic
import Mathlib.Tactic

namespace Xv6

open Function (update)

/-- The entries `l` have different keys, and represent `m`. -/
structure Assoc {α κ β : Type} (key : α → κ) (val : α → β) (l : List α) (m : κ → Option β) :
    Prop where
  distinct : l.Pairwise fun x y => key x ≠ key y
  get : ∀ n v, m n = some v ↔ ∃ x ∈ l, key x = n ∧ val x = v

namespace Assoc

variable {α κ β : Type} {key : α → κ} {val : α → β} {l l' : List α} {m : κ → Option β} {x : α}

theorem nil : Assoc key val [] fun _ => none := ⟨.nil, fun _ _ => by simp⟩

theorem perm (h : Assoc key val l m) (hp : l'.Perm l) : Assoc key val l' m :=
  ⟨(hp.pairwise_iff fun hne => hne.symm).mpr h.distinct, fun n v => by
    rw [h.get]
    exact exists_congr fun x => and_congr_left fun _ => hp.mem_iff.symm⟩

theorem eq_none (h : Assoc key val l m) {n : κ} : m n = none ↔ ∀ x ∈ l, key x ≠ n := by
  rw [Option.eq_none_iff_forall_ne_some]
  constructor
  · intro hn x hx he
    exact hn (val x) ((h.get n (val x)).mpr ⟨x, hx, he, rfl⟩)
  · intro hn v hv
    obtain ⟨x, hx, he, -⟩ := (h.get n v).mp hv
    exact hn x hx he

theorem of_mem (h : Assoc key val l m) (hx : x ∈ l) : m (key x) = some (val x) :=
  (h.get _ _).mpr ⟨x, hx, rfl, rfl⟩

variable [DecidableEq κ]

/-- An entry under a new key. -/
theorem cons (h : Assoc key val l m) (hx : m (key x) = none) :
    Assoc key val (x :: l) (update m (key x) (some (val x))) := by
  have hnew := h.eq_none.mp hx
  refine ⟨List.pairwise_cons.mpr ⟨fun y hy => (hnew y hy).symm, h.distinct⟩, fun n v => ?_⟩
  rcases eq_or_ne n (key x) with rfl | hn
  · rw [Function.update_self, Option.some.injEq]
    constructor
    · exact fun hv => ⟨x, List.mem_cons_self, rfl, hv⟩
    · rintro ⟨y, hy, he, hv⟩
      rcases List.mem_cons.mp hy with rfl | hy
      · exact hv
      · exact absurd he (hnew y hy)
  · rw [Function.update_of_ne hn, h.get]
    constructor
    · exact fun ⟨y, hy, hyn⟩ => ⟨y, List.mem_cons_of_mem x hy, hyn⟩
    · rintro ⟨y, hy, he, hv⟩
      rcases List.mem_cons.mp hy with rfl | hy
      · exact absurd he.symm hn
      · exact ⟨y, hy, he, hv⟩

/-- An entry is taken away. -/
theorem tail (h : Assoc key val (x :: l) m) : Assoc key val l (update m (key x) none) := by
  obtain ⟨hx, hd⟩ := List.pairwise_cons.mp h.distinct
  refine ⟨hd, fun n v => ?_⟩
  rcases eq_or_ne n (key x) with rfl | hn
  · rw [Function.update_self]
    refine ⟨nofun, ?_⟩
    rintro ⟨y, hy, he, -⟩
    exact absurd he.symm (hx y hy)
  · rw [Function.update_of_ne hn, h.get]
    constructor
    · rintro ⟨y, hy, he, hv⟩
      rcases List.mem_cons.mp hy with rfl | hy
      · exact absurd he.symm hn
      · exact ⟨y, hy, he, hv⟩
    · exact fun ⟨y, hy, hyn⟩ => ⟨y, List.mem_cons_of_mem x hy, hyn⟩

end Assoc

end Xv6
