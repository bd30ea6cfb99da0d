/-
# Chains of links that end in null

The variable that points to the first node is `none`, the link inside node `a` is `some a`, and
`f` gives the contents of each.  `Chain f c l` says that the links starting in `c` lead through the
nodes of `l`, in this order, to a null pointer.
-/
import Mathlib.Data.Fintype.Card
import Mathlib.Tactic

namespace Xv6

open Function (update update_of_ne update_self)

/-- The links from `c` on lead through `l` to a null pointer. -/
def Chain {α : Type} (f : Option α → Option α) : Option α → List α → Prop
  | c, [] => f c = none
  | c, a :: l => f c = some a ∧ Chain f (some a) l

namespace Chain

variable {α : Type} {f g : Option α → Option α} {c : Option α} {l : List α} {a : α}

theorem congr : ∀ {l : List α} {c : Option α}, Chain f c l → g c = f c →
    (∀ x ∈ l, g (some x) = f (some x)) → Chain g c l
  | [], _, h, hc, _ => hc.trans h
  | x :: _, _, h, hc, hl =>
    ⟨hc.trans h.1, h.2.congr (hl x List.mem_cons_self) fun y hy => hl y (List.mem_cons_of_mem x hy)⟩

/-- Where the null pointer is: the loop `for(pp = c; *pp; pp = &(*pp)->next)`. -/
def last (f : Option α → Option α) : Nat → Option α → Option α
  | 0, c => c
  | fuel + 1, c =>
    match f c with
    | none => c
    | some a => last f fuel (some a)

theorem last_mem : ∀ (fuel : Nat) {l : List α} {c : Option α}, Chain f c l →
    last f fuel c ∈ c :: l.map some
  | 0, _, _, _ => List.mem_cons_self
  | _ + 1, [], c, h => by
    rw [last, show f c = none from h]
    exact List.mem_cons_self
  | fuel + 1, a :: _, c, h => by
    rw [last, show f c = some a from h.1]
    exact List.mem_cons_of_mem c (last_mem fuel h.2)

variable [DecidableEq α]

/-- A node that is in no chain goes to the end of this one. -/
theorem link_last : ∀ {fuel : Nat} {l : List α} {c : Option α}, Chain f c l → l.length ≤ fuel →
    (c :: (l ++ [a]).map some).Nodup → f (some a) = none →
    Chain (update f (last f fuel c) (some a)) c (l ++ [a])
  | fuel, [], c, h, _, hd, ha => by
    have hlast : last f fuel c = c := by
      cases fuel with
      | zero => rfl
      | succ fuel => rw [last, show f c = none from h]
    have hac : some a ≠ c := by
      rintro rfl
      exact (List.nodup_cons.mp hd).1 (by simp)
    rw [hlast]
    exact ⟨update_self .., by rw [Chain, update_of_ne hac, ha]⟩
  | fuel + 1, x :: l, c, h, hl, hd, ha => by
    obtain ⟨hc, hd⟩ := List.nodup_cons.mp hd
    rw [last, show f c = some x from h.1]
    refine ⟨?_, link_last h.2 (Nat.le_of_succ_le_succ hl) hd ha⟩
    have hne : c ≠ last f fuel (some x) := by
      rintro rfl
      have hmem := last_mem fuel h.2
      simp only [List.mem_cons, List.mem_map] at hmem
      refine hc ?_
      simp only [List.cons_append, List.map_cons, List.mem_cons, List.mem_map, List.mem_append]
      exact hmem.imp_right fun ⟨y, hy, e⟩ => ⟨y, .inl hy, e⟩
    rw [update_of_ne hne, h.1]

/-- `a->next = 0`, and then `a` goes to the end of the chain. -/
def append (f : Option α → Option α) (fuel : Nat) (a : α) : Option α → Option α :=
  let f := update f (some a) none
  update f (last f fuel none) (some a)

theorem append_spec {fuel : Nat} (h : Chain f none l) (hl : l.length ≤ fuel) (hd : l.Nodup)
    (ha : a ∉ l) : Chain (append f fuel a) none (l ++ [a]) := by
  have hu : Chain (update f (some a) none) none l := by
    refine h.congr (update_of_ne (Option.some_ne_none a).symm ..) fun x hx => ?_
    refine update_of_ne (fun e => ?_) ..
    exact ha (Option.some.inj e ▸ hx)
  refine hu.link_last hl ?_ (update_self ..)
  rw [List.nodup_cons]
  refine ⟨by simp, List.Nodup.map (Option.some_injective α) ?_⟩
  exact List.nodup_append.mpr ⟨hd, List.nodup_singleton a, fun x hx y hy => by
    rintro rfl
    exact ha (List.mem_singleton.mp hy ▸ hx)⟩

/-- The first node leaves the chain. -/
theorem tail (h : Chain f none (a :: l)) :
    Chain (update f none (f (some a))) none l := by
  cases l with
  | nil => exact (update_self ..).trans h.2
  | cons x l =>
    exact ⟨(update_self ..).trans h.2.1,
      h.2.2.congr (update_of_ne (Option.some_ne_none x) ..)
        fun y _ => update_of_ne (Option.some_ne_none y) ..⟩

end Chain

end Xv6
