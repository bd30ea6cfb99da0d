/-
# Doubly linked rings

Nodes in a circle around a sentinel, linked by `next` and `prev`.  A node is `some a`, and the
sentinel is `none`.  `Ring L l` says that the links go from the sentinel through the nodes of `l`,
in this order and each of them once, and back to the sentinel, and that `prev` undoes `next` all
along the way.

The operations are the usual ones: take a node out, put one behind the sentinel, and look for the
first node with a property, along `next` or along `prev`.
-/
import Mathlib.Data.List.Basic
import Mathlib.Logic.Function.Basic
import Mathlib.Tactic

namespace Xv6

open Function (update update_of_ne update_self)

/-- The links of all nodes. -/
structure Links (α : Type) where
  next : Option α → Option α
  prev : Option α → Option α

namespace Links

variable {α : Type}

/-! ## 1. Segments -/

/-- The links lead from `a` through `l` to `b`, and back. -/
def Seg (L : Links α) : Option α → List α → Option α → Prop
  | a, [], b => L.next a = b ∧ L.prev b = a
  | a, x :: l, b => L.next a = some x ∧ L.prev (some x) = a ∧ L.Seg (some x) l b

/-- The nodes of `l`, in a circle around the sentinel. -/
structure Ring (L : Links α) (l : List α) : Prop where
  seg : L.Seg none l none
  nodup : l.Nodup

variable {L L' : Links α}

theorem Seg.append_iff {b : Option α} {x : α} {l : List α} : ∀ {k : List α} {a : Option α},
    L.Seg a (k ++ x :: l) b ↔ L.Seg a k (some x) ∧ L.Seg (some x) l b
  | [], a => by simp only [List.nil_append, Seg, and_assoc]
  | y :: k, a => by
    simp only [List.cons_append, Seg, Seg.append_iff (k := k), and_assoc]

/-- A segment sees only the `next` of the nodes it leaves and the `prev` of those it enters. -/
theorem Seg.congr {b : Option α} : ∀ {l : List α} {a : Option α}, L.Seg a l b →
    L'.next a = L.next a → (∀ x ∈ l, L'.next (some x) = L.next (some x)) →
    (∀ x ∈ l, L'.prev (some x) = L.prev (some x)) → L'.prev b = L.prev b → L'.Seg a l b
  | [], _, h, hn, _, _, hp => ⟨hn.trans h.1, hp.trans h.2⟩
  | x :: _, _, h, hn, hns, hps, hp =>
    ⟨hn.trans h.1, (hps x List.mem_cons_self).trans h.2.1,
      h.2.2.congr (hns x List.mem_cons_self) (fun y hy => hns y (List.mem_cons_of_mem x hy))
        (fun y hy => hps y (List.mem_cons_of_mem x hy)) hp⟩

/-- The last node before the end of a segment. -/
def last (a : Option α) : List α → Option α
  | [] => a
  | x :: l => last (some x) l

theorem Seg.last_link {b : Option α} : ∀ {l : List α} {a : Option α}, L.Seg a l b →
    L.next (last a l) = b ∧ L.prev b = last a l
  | [], _, h => h
  | _ :: _, _, h => h.2.2.last_link

theorem last_mem : ∀ {l : List α} {x : α}, ∃ y ∈ x :: l, last (some x) l = some y
  | [], x => ⟨x, List.mem_cons_self, rfl⟩
  | z :: l, x => by
    obtain ⟨y, hy, e⟩ := last_mem (l := l) (x := z)
    exact ⟨y, List.mem_cons_of_mem x hy, e⟩

theorem last_ne {l : List α} {x : α} (hx : x ∉ l) : some x ≠ last none l := by
  cases l with
  | nil => nofun
  | cons z l =>
    obtain ⟨y, hy, e⟩ := last_mem (l := l) (x := z)
    simp only [last, e, ne_eq, Option.some.injEq]
    rintro rfl
    exact hx hy

/-- The end of a segment is moved from `b` to `c`. -/
theorem Seg.retarget {b c : Option α} : ∀ {l : List α} {a : Option α}, L.Seg a l b →
    (a.toList ++ l).Nodup → L'.next (last a l) = c → L'.prev c = last a l →
    (∀ x ∈ a :: l.map some, x ≠ last a l → L'.next x = L.next x) →
    (∀ x ∈ l, L'.prev (some x) = L.prev (some x)) → L'.Seg a l c
  | [], _, _, _, hn, hp, _, _ => ⟨hn, hp⟩
  | x :: l, a, h, hnd, hn, hp, hns, hps => by
    obtain ⟨y, hy, hlast⟩ := last_mem (l := l) (x := x)
    have ha : a ≠ last (some x) l := by
      rintro rfl
      rw [hlast] at hnd
      exact (List.nodup_cons.mp hnd).1 hy
    refine ⟨(hns a List.mem_cons_self ha).trans h.1, (hps x List.mem_cons_self).trans h.2.1, ?_⟩
    exact h.2.2.retarget (hnd.sublist (List.sublist_append_right ..)) hn hp
      (fun z hz => hns z (List.mem_cons_of_mem a hz)) fun z hz => hps z (List.mem_cons_of_mem x hz)

theorem Seg.reverse {b : Option α} : ∀ {l : List α} {a : Option α}, L.Seg a l b →
    (Links.mk L.prev L.next).Seg b l.reverse a
  | [], _, h => ⟨h.2, h.1⟩
  | x :: l, a, h => by
    rw [List.reverse_cons]
    exact Seg.append_iff.mpr ⟨h.2.2.reverse, h.2.1, h.1⟩

theorem Ring.reverse {l : List α} (h : L.Ring l) : (Links.mk L.prev L.next).Ring l.reverse :=
  ⟨h.seg.reverse, List.nodup_reverse.mpr h.nodup⟩

/-- An empty ring: the sentinel points to itself. -/
theorem ring_nil (hn : L.next none = none) (hp : L.prev none = none) : L.Ring [] :=
  ⟨⟨hn, hp⟩, List.nodup_nil⟩

/-! ## 2. Looking for a node -/

/-- Follow `next` from node `a` until a node passes the test or the sentinel is reached. -/
def scan (next : Option α → Option α) (test : α → Bool) : Nat → Option α → Option α
  | fuel + 1, some x => if test x then some x else scan next test fuel (next (some x))
  | _, _ => none

theorem Seg.scan {test : α → Bool} : ∀ {l : List α} {a : Option α} {fuel : Nat},
    L.Seg a l none → l.length < fuel → Links.scan L.next test fuel (L.next a) = l.find? test
  | [], _, fuel + 1, h, _ => by
    rw [h.1]
    rfl
  | x :: l, _, fuel + 1, h, hf => by
    rw [h.1, Links.scan, List.find?_cons]
    split
    · rename_i ht
      rw [ht]
    · rename_i ht
      rw [Bool.eq_false_iff.mpr ht]
      exact h.2.2.scan (by simpa using hf)

/-- Along `next` the nodes come in the order of the list. -/
theorem Ring.scan_next {l : List α} (h : L.Ring l) {test : α → Bool} {fuel : Nat}
    (hf : l.length < fuel) : scan L.next test fuel (L.next none) = l.find? test :=
  h.seg.scan hf

/-- Along `prev` they come in the reverse order. -/
theorem Ring.scan_prev {l : List α} (h : L.Ring l) {test : α → Bool} {fuel : Nat}
    (hf : l.length < fuel) : scan L.prev test fuel (L.prev none) = l.reverse.find? test :=
  h.reverse.scan_next (by simpa using hf)

/-! ## 3. Moving a node -/

variable [DecidableEq α]

/-- `b->next->prev = b->prev; b->prev->next = b->next`. -/
def unlink (L : Links α) (b : α) : Links α :=
  let prev := update L.prev (L.next (some b)) (L.prev (some b))
  ⟨update L.next (prev (some b)) (L.next (some b)), prev⟩

/-- `b->next = head.next; b->prev = &head; head.next->prev = b; head.next = b`. -/
def pushFront (L : Links α) (b : α) : Links α :=
  let next := update L.next (some b) (L.next none)
  let prev := update L.prev (some b) none
  let prev := update prev (next none) (some b)
  ⟨update next none (some b), prev⟩

/-- Taking a node out leaves the others in order. -/
theorem Ring.unlink {l₁ l₂ : List α} {b : α} (h : L.Ring (l₁ ++ b :: l₂)) :
    (L.unlink b).Ring (l₁ ++ l₂) := by
  obtain ⟨h₁, h₂⟩ := Seg.append_iff.mp h.seg
  obtain ⟨hnd₁, hnd₂, hdis⟩ := List.nodup_append.mp h.nodup
  have hprev : L.prev (some b) = last none l₁ := h₁.last_link.2
  have hp : ∀ x, x ≠ L.next (some b) → (L.unlink b).prev x = L.prev x := fun x hx =>
    update_of_ne hx ..
  have hself' : (L.unlink b).prev (L.next (some b)) = last none l₁ := by
    rw [← hprev]
    exact update_self ..
  -- the store to `b->next->prev` has not moved `b->prev`
  have hb : some b ≠ L.next (some b) := by
    cases l₂ with
    | nil => exact h₂.1 ▸ Option.some_ne_none b
    | cons y l₂ =>
      rw [h₂.1]
      rintro ⟨⟩
      exact (List.nodup_cons.mp hnd₂).1 List.mem_cons_self
  have hnext : (L.unlink b).next = update L.next (last none l₁) (L.next (some b)) := by
    rw [← hprev, ← hp _ hb]
    rfl
  have hself : (L.unlink b).next (last none l₁) = L.next (some b) := by
    rw [hnext, update_self]
  have hn : ∀ x, x ≠ last none l₁ → (L.unlink b).next x = L.next x := fun x hx => by
    rw [hnext, update_of_ne hx]
  -- the nodes before `b` now lead to the one behind it
  have hseg : (∀ x ∈ l₁, some x ≠ L.next (some b)) → (L.unlink b).Seg none l₁ (L.next (some b)) :=
    fun hx => h₁.retarget (by simpa using hnd₁) hself hself' (fun x _ => hn x)
      fun x hl => hp _ (hx x hl)
  refine ⟨?_, List.nodup_append.mpr ⟨hnd₁, (List.nodup_cons.mp hnd₂).2, fun x hx y hy =>
    hdis x hx y (List.mem_cons_of_mem b hy)⟩⟩
  cases l₂ with
  | nil =>
    have hb : L.next (some b) = none := h₂.1
    rw [List.append_nil]
    rw [hb] at hseg
    exact hseg fun x _ => nofun
  | cons y l₂ =>
    have hb : L.next (some b) = some y := h₂.1
    rw [hb] at hseg hp
    have hnd₃ := (List.nodup_cons.mp (List.nodup_cons.mp hnd₂).2)
    have hout : ∀ x ∈ y :: l₂, x ∉ l₁ := fun x hx hl =>
      hdis x hl x (List.mem_cons_of_mem b hx) rfl
    refine Seg.append_iff.mpr ⟨hseg fun x hx e => ?_, h₂.2.2.congr ?_ (fun x hx => ?_)
      (fun x hx => ?_) (hp none nofun)⟩
    · exact hout y List.mem_cons_self (Option.some.inj e ▸ hx)
    · exact hn _ (last_ne (hout y List.mem_cons_self))
    · exact hn _ (last_ne (hout x (List.mem_cons_of_mem y hx)))
    · refine hp _ fun e => hnd₃.1 ?_
      exact Option.some.inj e ▸ hx

/-- A node that is not in the ring is put at its front. -/
theorem Ring.pushFront {l : List α} {b : α} (h : L.Ring l) (hb : b ∉ l) :
    (L.pushFront b).Ring (b :: l) := by
  have hnext : update L.next (some b) (L.next none) none = L.next none :=
    update_of_ne (Option.some_ne_none b).symm ..
  have hn : ∀ x, x ≠ none → x ≠ some b → (L.pushFront b).next x = L.next x := fun x h₀ h₁ => by
    simp only [Links.pushFront, update_of_ne h₀, update_of_ne h₁]
  have hp : ∀ x, x ≠ L.next none → x ≠ some b → (L.pushFront b).prev x = L.prev x :=
    fun x h₀ h₁ => by
      simp only [Links.pushFront, hnext, update_of_ne h₀, update_of_ne h₁]
  have hbn : (L.pushFront b).next (some b) = L.next none := by
    simp only [Links.pushFront, update_of_ne (Option.some_ne_none b), update_self]
  have hpn : (L.pushFront b).prev (L.next none) = some b := by
    simp only [Links.pushFront, hnext, update_self]
  have hhead : (L.pushFront b).next none = some b := by
    simp only [Links.pushFront, update_self]
  refine ⟨⟨hhead, ?_, ?_⟩, List.nodup_cons.mpr ⟨hb, h.nodup⟩⟩
  · cases l with
    | nil =>
      have h₀ : L.next none = none := h.seg.1
      simp [Links.pushFront, h₀]
    | cons x l =>
      have h₀ : L.next none = some x := h.seg.1
      have hbx : b ≠ x := fun e => hb (e ▸ List.mem_cons_self)
      simp [Links.pushFront, h₀, hbx]
  · cases l with
    | nil =>
      have h₀ : L.next none = none := h.seg.1
      exact ⟨hbn.trans h₀, h₀ ▸ hpn⟩
    | cons x l =>
      have h₀ : L.next none = some x := h.seg.1
      have hx := List.nodup_cons.mp h.nodup
      have hne : ∀ y ∈ x :: l, some y ≠ some b := fun y hy e => hb (Option.some.inj e ▸ hy)
      refine ⟨hbn.trans h₀, h₀ ▸ hpn, h.seg.2.2.congr ?_ (fun y hy => ?_) (fun y hy => ?_) ?_⟩
      · exact hn _ nofun (hne x List.mem_cons_self)
      · exact hn _ nofun (hne y (List.mem_cons_of_mem x hy))
      · refine hp _ (fun e => hx.1 ?_) (hne y (List.mem_cons_of_mem x hy))
        exact Option.some.inj (e.trans h₀) ▸ hy
      · exact hp none (by rw [h₀]; nofun) nofun

end Links

end Xv6
