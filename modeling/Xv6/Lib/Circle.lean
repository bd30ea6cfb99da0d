/-
# Circles of links

`next` gives for each node the one behind it.  `Leads next a l b` says that the links lead from `a`
through the nodes of `l` to `b`, and `Circle next l` that they lead through `l` and back to its first
node.  A circle has no beginning: it may be turned until the node in question is the first one
(`Circle.turn`), and every change of the links is then a change behind the first node.

`follow` goes along the links until a node passes a test.
-/
import Mathlib.Tactic

namespace Xv6

/-- The links lead from `a` through `l` to `b`. -/
def Leads {α : Type} (next : α → α) : α → List α → α → Prop
  | a, [], b => next a = b
  | a, x :: l, b => next a = x ∧ Leads next x l b

/-- The links lead through `l` and back. -/
def Circle {α : Type} (next : α → α) : List α → Prop
  | [] => True
  | a :: l => Leads next a l a

/-- Along the links to the first node that passes the test. -/
def follow {α : Type} (next : α → α) (test : α → Bool) : Nat → α → Option α
  | 0, _ => none
  | n + 1, a => if test a then some a else follow next test n (next a)

section

variable {α : Type} {next next' : α → α} {a b x : α} {k l : List α}

theorem Leads.append_iff : Leads next a (k ++ x :: l) b ↔ Leads next a k x ∧ Leads next x l b := by
  induction k generalizing a with
  | nil => exact Iff.rfl
  | cons y k ih =>
    rw [List.cons_append, Leads, Leads, ih, and_assoc]

/-- Only the links of the nodes that are left matter. -/
theorem Leads.congr (h : Leads next a l b) (heq : ∀ y ∈ a :: l, next' y = next y) :
    Leads next' a l b := by
  induction l generalizing a with
  | nil => exact (heq a List.mem_cons_self).trans h
  | cons x l ih =>
    exact ⟨(heq a List.mem_cons_self).trans h.1, ih h.2 fun y hy => heq y (List.mem_cons_of_mem a hy)⟩

/-- Another node takes the place of the first one. -/
theorem Leads.start {c : α} (h : Leads next a l b) (hc : next' c = next a)
    (heq : ∀ y ∈ l, next' y = next y) : Leads next' c l b := by
  cases l with
  | nil => exact hc.trans h
  | cons x l => exact ⟨hc.trans h.1, h.2.congr heq⟩

/-- Where the first link leads. -/
theorem Leads.next_eq (h : Leads next a l b) : next a = l.headD b := by
  cases l with
  | nil => exact h
  | cons x l => exact h.1

/-- A circle may be turned. -/
theorem Circle.turn (h : Circle next (k ++ l)) : Circle next (l ++ k) := by
  cases k with
  | nil =>
    rw [List.append_nil]
    exact h
  | cons c k =>
    cases l with
    | nil =>
      rw [List.append_nil] at h
      exact h
    | cons a l =>
      obtain ⟨hk, hl⟩ := Leads.append_iff.mp h
      exact Leads.append_iff.mpr ⟨hl, hk⟩

/-- The circle from one of its nodes on. -/
theorem Circle.leads (h : Circle next (k ++ a :: l)) : Leads next a (l ++ k) a := h.turn

/-- The first node that passes the test is found. -/
theorem Leads.follow {test : α → Bool} {n : Nat} (h : Leads next a l b)
    (hx : (a :: l).find? test = some x) (hn : l.length < n) : follow next test n a = some x := by
  induction l generalizing a n with
  | nil =>
    obtain ⟨n, rfl⟩ : ∃ m, n = m + 1 := ⟨n - 1, by omega⟩
    rw [List.find?_cons] at hx
    rw [Xv6.follow]
    split at hx
    next ha => rw [if_pos ha, ← hx]
    next => cases hx
  | cons y l ih =>
    obtain ⟨n, rfl⟩ : ∃ m, n = m + 1 := ⟨n - 1, by omega⟩
    rw [List.find?_cons] at hx
    rw [Xv6.follow]
    split at hx
    next ha => rw [if_pos ha, ← hx]
    next ha =>
      rw [ha, if_neg Bool.false_ne_true, h.1]
      rw [List.length_cons] at hn
      exact ih h.2 hx (by omega)

end

end Xv6
