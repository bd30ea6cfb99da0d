/-
# Where the processes are

`x` says where in its code each process is, and a step moves one process: `Function.update x p y`.
Three things about a whole system are read off `x`: sums over its processes, how many of them are
where `f` says (`tally S f x`), and who holds a lock (`HeldAt`), which is the process that is where
`f` says.  The rules say how each follows the one process that moves.
-/
import Mathlib.Algebra.BigOperators.Group.Finset.Basic
import Mathlib.Tactic

namespace Xv6

open Function (Injective update update_of_ne update_self)

variable {ι α : Type} {S : Finset ι} {x : ι → α} {p q : ι}

/-- What a move leaves alone at its own process, it leaves alone everywhere. -/
theorem update_at [DecidableEq ι] {β : Type} {f : α → β} {y : α} (h : f y = f (x p)) (q : ι) :
    f (update x p y q) = f (x q) := by
  rcases eq_or_ne q p with rfl | hq
  · rw [update_self, h]
  · rw [update_of_ne hq]

/-- A sum follows the one place that changes. -/
theorem sum_update [DecidableEq ι] (g : α → Nat) (x : ι → α) {a : ι} (ha : a ∈ S) (y : α) :
    ∑ b ∈ S, g (update x a y b) + g (x a) = ∑ b ∈ S, g (x b) + g y := by
  rw [← Finset.add_sum_erase _ _ ha, ← Finset.add_sum_erase _ (fun b => g (x b)) ha,
    update_self]
  have hrest : ∑ b ∈ S.erase a, g (update x a y b) = ∑ b ∈ S.erase a, g (x b) :=
    Finset.sum_congr rfl fun b hb => by rw [update_of_ne (Finset.ne_of_mem_erase hb)]
  omega

/-- How many members of `S` are at a place where `f` holds. -/
def tally (S : Finset ι) (f : α → Bool) (x : ι → α) : Nat := ∑ p ∈ S, (f (x p)).toNat

variable {f g : α → Bool}

/-- One process moves. -/
theorem tally_update [DecidableEq ι] (f : α → Bool) (x : ι → α) (hp : p ∈ S) (y : α) :
    tally S f (update x p y) + (f (x p)).toNat = tally S f x + (f y).toNat :=
  sum_update (fun z => (f z).toNat) x hp y

theorem tally_pos (hp : p ∈ S) (h : f (x p) = true) : 0 < tally S f x := by
  have := Finset.single_le_sum (f := fun p => (f (x p)).toNat) (fun _ _ => Nat.zero_le _) hp
  simp only [h, Bool.toNat_true] at this
  exact this

theorem exists_of_tally_pos (h : 0 < tally S f x) : ∃ p ∈ S, f (x p) = true := by
  obtain ⟨p, hp, hne⟩ := Finset.exists_ne_zero_of_sum_ne_zero (Nat.pos_iff_ne_zero.mp h)
  exact ⟨p, hp, by simpa using hne⟩

/-- A larger set of places counts no fewer. -/
theorem tally_mono (h : ∀ y, f y = true → g y = true) : tally S f x ≤ tally S g x := by
  refine Finset.sum_le_sum fun p _ => ?_
  cases hf : f (x p) with
  | false => exact Nat.zero_le _
  | true => rw [h _ hf]

/-- Two processes count twice. -/
theorem two_le_tally (hp : p ∈ S) (hq : q ∈ S) (hne : p ≠ q) (hfp : f (x p) = true)
    (hfq : f (x q) = true) : 2 ≤ tally S f x := by
  classical
  have hsub : ({p, q} : Finset ι) ⊆ S := by
    intro r hr
    rcases Finset.mem_insert.mp hr with rfl | hr
    · exact hp
    · exact Finset.mem_singleton.mp hr ▸ hq
  have := Finset.sum_le_sum_of_subset (f := fun p => (f (x p)).toNat) hsub
  rw [Finset.sum_pair hne, hfp, hfq] at this
  exact this

/-! ## Locks -/

/-- The holder of a lock is the process that is where `f` holds; `g` names the process as the lock
does. -/
def HeldAt {κ : Type} (l : Option κ) (g : ι → κ) (f : α → Bool) (x : ι → α) : Prop :=
  ∀ p, l = some (g p) ↔ f (x p) = true

namespace HeldAt

variable {κ : Type} {l l' : Option κ} {g : ι → κ} {y : α}

theorem unique (h : HeldAt l g f x) (hg : Injective g) (hp : f (x p) = true)
    (hq : f (x q) = true) : p = q :=
  hg (Option.some.inj (((h p).mpr hp).symm.trans ((h q).mpr hq)))

variable [DecidableEq ι]

/-- A process moves that neither takes the lock nor gives it up. -/
theorem keep (h : HeldAt l g f x) (hy : f y = f (x p)) : HeldAt l g f (update x p y) := by
  intro q
  rw [update_at hy]
  exact h q

/-- A process takes a lock that no process has. -/
theorem take (h : HeldAt l g f x) (hg : Injective g) (hl : ∀ q, l ≠ some (g q))
    (hy : f y = true) : HeldAt (some (g p)) g f (update x p y) := by
  intro q
  rcases eq_or_ne q p with rfl | hq
  · simp [hy]
  · rw [update_of_ne hq, ← h q]
    exact ⟨fun e => absurd (hg (Option.some.inj e)) hq.symm, fun e => absurd e (hl q)⟩

/-- The holder gives the lock up. -/
theorem drop (h : HeldAt l g f x) (hg : Injective g) (hp : f (x p) = true)
    (hy : f y = false) (hl : ∀ q, l' ≠ some (g q)) :
    HeldAt l' g f (update x p y) := by
  intro q
  rcases eq_or_ne q p with rfl | hq
  · simp [hy, hl]
  · rw [update_of_ne hq]
    exact ⟨fun e => absurd e (hl q), fun hfq => absurd (h.unique hg hfq hp) hq⟩

end HeldAt

end Xv6
