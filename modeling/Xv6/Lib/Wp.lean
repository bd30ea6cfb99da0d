/-
# Programs that may stop: weakest preconditions with two exits

Kernel code is embedded in `StateT σ (Except ε)`: it passes a state and may stop.  What `ε`
is depends on the layer.  For the file system and the memory code a stop is a `panic`; for
the log a stop is a loss of power, and `ε` is the disk that survives.

`wp m Q E s` says that `m`, started in `s`, either returns with `Q` or stops with `E`.  The
second exit is a postcondition in its own right: "this panic is unreachable" and "whenever
the power fails, the disk is recoverable" are both statements about `E`.

The rules are equations where the program text is (`wp_bind`, `wp_pure`, ..) and are tagged
for `simp`, so that a goal about a `do` block is unfolded along the block.  For a counting loop
the rule is `wp_forM_range`.
-/
import Mathlib.Tactic

namespace Xv6

variable {σ ε α β : Type}

/-- `m`, started in `s`, returns with `Q` or stops with `E`. -/
def wp (m : StateT σ (Except ε) α) (Q : α → σ → Prop) (E : ε → Prop) (s : σ) : Prop :=
  match m s with
  | .ok (a, s') => Q a s'
  | .error e => E e

/-! ## 1. The rules for the program text -/

theorem wp_of_ok {m : StateT σ (Except ε) α} {Q : α → σ → Prop} {E : ε → Prop} {s s' : σ}
    {a : α} (h : wp m Q E s) (hm : m s = .ok (a, s')) : Q a s' := by
  simpa only [wp, hm] using h

theorem wp_of_error {m : StateT σ (Except ε) α} {Q : α → σ → Prop} {E : ε → Prop} {s : σ}
    {e : ε} (h : wp m Q E s) (hm : m s = .error e) : E e := by
  simpa only [wp, hm] using h

theorem wp_ok {m : StateT σ (Except ε) α} {Q : α → σ → Prop} {E : ε → Prop} {s s' : σ}
    {a : α} (hm : m s = .ok (a, s')) (h : Q a s') : wp m Q E s := by
  simpa only [wp, hm] using h

/-- A program that cannot stop returns. -/
theorem wp_returns {m : StateT σ (Except ε) α} {Q : α → σ → Prop} {s : σ}
    (h : wp m Q (fun _ => False) s) : ∃ a s', m s = .ok (a, s') ∧ Q a s' := by
  cases hm : m s with
  | error e => exact (wp_of_error h hm).elim
  | ok x => exact ⟨x.1, x.2, rfl, wp_of_ok h hm⟩

/-- A program that cannot return stops. -/
theorem wp_error {m : StateT σ (Except ε) α} {s : σ} {e : ε}
    (h : wp m (fun _ _ => False) (fun x => x = e) s) : m s = .error e := by
  unfold wp at h
  split at h
  · exact h.elim
  next he => rw [he, h]

/-- Programs with the same preconditions do the same. -/
theorem wp_ext {m m' : StateT σ (Except ε) α} {s s' : σ}
    (h : ∀ Q E, wp m Q E s ↔ wp m' Q E s') : m s = m' s' := by
  have hself : wp m' (fun a t => m' s' = .ok (a, t)) (fun e => m' s' = .error e) s' := by
    unfold wp
    split <;> assumption
  have hm := (h _ _).mpr hself
  unfold wp at hm
  split at hm
  next he => rw [he, hm]
  next he => rw [he, hm]

@[simp] theorem wp_pure (a : α) (Q : α → σ → Prop) (E : ε → Prop) (s : σ) :
    wp (pure a : StateT σ (Except ε) α) Q E s ↔ Q a s := Iff.rfl

@[simp] theorem wp_bind (m : StateT σ (Except ε) α) (f : α → StateT σ (Except ε) β)
    (Q : β → σ → Prop) (E : ε → Prop) (s : σ) :
    wp (m >>= f) Q E s ↔ wp m (fun a s' => wp (f a) Q E s') E s := by
  have h : (m >>= f) s = (m s >>= fun p => f p.1 p.2) := rfl
  simp only [wp, h]
  cases m s with
  | ok p => rfl
  | error e => rfl

@[simp] theorem wp_map (m : StateT σ (Except ε) α) (f : α → β) (Q : β → σ → Prop)
    (E : ε → Prop) (s : σ) : wp (f <$> m) Q E s ↔ wp m (fun a s' => Q (f a) s') E s := by
  have h : (f <$> m) s = (m s >>= fun p => pure (f p.1, p.2)) := rfl
  simp only [wp, h]
  cases m s with
  | ok p => rfl
  | error e => rfl

@[simp] theorem wp_throw (e : ε) (Q : α → σ → Prop) (E : ε → Prop) (s : σ) :
    wp (throw e : StateT σ (Except ε) α) Q E s ↔ E e := Iff.rfl

@[simp] theorem wp_get (Q : σ → σ → Prop) (E : ε → Prop) (s : σ) :
    wp (get : StateT σ (Except ε) σ) Q E s ↔ Q s s := Iff.rfl

@[simp] theorem wp_set (t : σ) (Q : PUnit → σ → Prop) (E : ε → Prop) (s : σ) :
    wp (set t : StateT σ (Except ε) PUnit) Q E s ↔ Q ⟨⟩ t := Iff.rfl

@[simp] theorem wp_modify (f : σ → σ) (Q : PUnit → σ → Prop) (E : ε → Prop) (s : σ) :
    wp (modify f : StateT σ (Except ε) PUnit) Q E s ↔ Q ⟨⟩ (f s) := Iff.rfl

@[simp] theorem wp_ite {c : Prop} [Decidable c] (m n : StateT σ (Except ε) α)
    (Q : α → σ → Prop) (E : ε → Prop) (s : σ) :
    wp (if c then m else n) Q E s ↔ (c → wp m Q E s) ∧ (¬ c → wp n Q E s) := by
  by_cases h : c <;> simp [h]

/-! ## 2. Weakening, and calls by specification -/

theorem wp_mono {m : StateT σ (Except ε) α} {Q Q' : α → σ → Prop} {E E' : ε → Prop} {s : σ}
    (h : wp m Q E s) (hQ : ∀ a s', Q a s' → Q' a s') (hE : ∀ e, E e → E' e) :
    wp m Q' E' s := by
  unfold wp at h ⊢
  split at h
  · exact hQ _ _ h
  · exact hE _ h

/-- Weakening of the normal exit alone. -/
theorem wp_conseq {m : StateT σ (Except ε) α} {Q Q' : α → σ → Prop} {E : ε → Prop} {s : σ}
    (h : wp m Q E s) (hQ : ∀ a s', Q a s' → Q' a s') : wp m Q' E s :=
  wp_mono h hQ fun _ he => he

theorem wp_congr {m : StateT σ (Except ε) α} {Q Q' : α → σ → Prop} {E : ε → Prop} {s : σ}
    (hQ : ∀ a s', Q a s' ↔ Q' a s') : wp m Q E s ↔ wp m Q' E s :=
  ⟨fun h => wp_conseq h fun a s' => (hQ a s').mp, fun h => wp_conseq h fun a s' => (hQ a s').mpr⟩

/-- Postconditions that agree where the program returns. -/
theorem wp_congr_of {m : StateT σ (Except ε) α} {C Q Q' : α → σ → Prop} {E : ε → Prop} {s : σ}
    (h : wp m C (fun _ => True) s) (hQ : ∀ a s', C a s' → (Q a s' ↔ Q' a s')) :
    wp m Q E s ↔ wp m Q' E s := by
  unfold wp at h ⊢
  split at h
  next he => exact hQ _ _ h
  next => exact Iff.rfl

/-- Two specifications of one program. -/
theorem wp_and {m : StateT σ (Except ε) α} {Q Q' : α → σ → Prop} {E E' : ε → Prop} {s : σ}
    (h : wp m Q E s) (h' : wp m Q' E' s) :
    wp m (fun a s' => Q a s' ∧ Q' a s') (fun e => E e ∧ E' e) s := by
  unfold wp at h h' ⊢
  split at h
  next he =>
    rw [he] at h'
    exact ⟨h, h'⟩
  next he =>
    rw [he] at h'
    exact ⟨h, h'⟩

/-- A postcondition that always holds. -/
theorem wp_always {m : StateT σ (Except ε) α} {Q : α → σ → Prop} {s : σ} (hQ : ∀ a s', Q a s') :
    wp m Q (fun _ => True) s := by
  unfold wp
  split
  · exact hQ _ _
  · trivial

/-- At the normal exit it is also known that the program went there. -/
theorem wp_ran {m : StateT σ (Except ε) α} {Q : α → σ → Prop} {E : ε → Prop} {s : σ}
    (h : wp m (fun a s' => m s = .ok (a, s') → Q a s') E s) : wp m Q E s := by
  unfold wp at h ⊢
  split at h
  next he => exact h he
  next he => exact h

/-! ## 3. Loops -/

/-- **A counting loop.**  An invariant indexed by the number of passes made, kept by each
pass, holds at the end with all passes made. -/
theorem wp_forM_range' {f : Nat → StateT σ (Except ε) PUnit} {E : ε → Prop} (n : Nat)
    (I : Nat → σ → Prop)
    (hstep : ∀ i s, i < n → I i s → wp (f i) (fun _ s' => I (i + 1) s') E s) :
    ∀ (k : Nat), k ≤ n → ∀ s, I (n - k) s →
      wp (forM (List.range' (n - k) k) f) (fun _ s' => I n s') E s
  | 0, _, s, hs => by simpa using hs
  | k + 1, hk, s, hs => by
    have hnext : n - (k + 1) + 1 = n - k := by omega
    rw [List.range'_succ, List.forM_cons, wp_bind, hnext]
    refine wp_conseq (hstep _ s (by omega) hs) fun _ s' hs' => ?_
    rw [hnext] at hs'
    exact wp_forM_range' n I hstep k (by omega) s' hs'

theorem wp_forM_range {f : Nat → StateT σ (Except ε) PUnit} {E : ε → Prop} {n : Nat}
    (I : Nat → σ → Prop) {s : σ} (h0 : I 0 s)
    (hstep : ∀ i s, i < n → I i s → wp (f i) (fun _ s' => I (i + 1) s') E s) :
    wp (forM (List.range n) f) (fun _ s' => I n s') E s := by
  have h := wp_forM_range' n I hstep n (Nat.le_refl n) s (by simpa using h0)
  rwa [Nat.sub_self, ← List.range_eq_range'] at h

/-! ## 4. What a program keeps -/

/-- `m` leads from states with `I` to states with `I`, wherever it returns. -/
def Keeps (I : σ → Prop) (m : StateT σ (Except ε) α) : Prop :=
  ∀ s, I s → wp m (fun _ s' => I s') (fun _ => True) s

namespace Keeps

variable {I : σ → Prop}

theorem pure (a : α) : Keeps I (Pure.pure a : StateT σ (Except ε) α) := fun _ hs => hs

theorem throw (e : ε) : Keeps I (MonadExcept.throw e : StateT σ (Except ε) α) :=
  fun _ _ => trivial

theorem modify {f : σ → σ} (h : ∀ s, I s → I (f s)) :
    Keeps I (modify f : StateT σ (Except ε) PUnit) := h

theorem bind {m : StateT σ (Except ε) α} {f : α → StateT σ (Except ε) β} (hm : Keeps I m)
    (hf : ∀ a, Keeps I (f a)) : Keeps I (m >>= f) := fun s hs => by
  rw [wp_bind]
  exact wp_conseq (hm s hs) fun a s' hs' => hf a s' hs'

/-- Code that begins by reading the state. -/
theorem get_bind {f : σ → StateT σ (Except ε) α} (hf : ∀ s, I s → wp (f s) (fun _ s' => I s')
    (fun _ => True) s) : Keeps I (get >>= f) := hf

theorem ite {c : Prop} [Decidable c] {m n : StateT σ (Except ε) α} (hm : Keeps I m)
    (hn : Keeps I n) : Keeps I (if c then m else n) := by
  by_cases h : c
  · rwa [if_pos h]
  · rwa [if_neg h]

theorem forM {f : β → StateT σ (Except ε) PUnit} (hf : ∀ b, Keeps I (f b)) :
    ∀ {l : List β}, Keeps I (forM l f)
  | [] => Keeps.pure _
  | b :: l => by
    rw [List.forM_cons]
    exact (hf b).bind fun _ => Keeps.forM hf

end Keeps

end Xv6
