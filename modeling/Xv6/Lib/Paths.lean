/-
# Paths of a program among others

The third meaning of a `Prog`: one process runs it while others change the state between its
steps, within a relation `R`.  A path is a beginning of such a run, with what an observer has
written down on it (`Watch`): something at each wait for a lock, and something at each atom.

What has been written down is read by an automaton.  `Prog.Follows` is the weakest precondition
for "whatever the others do, the automaton accepts": one rule for each way to put programs
together, and `Path.accepted` for what it says about paths.
-/
import Xv6.Lib.Prog

namespace Xv6

/-- What an observer writes down of a program. -/
structure Watch (σ ε L V : Type) where
  acquire : L → List V
  atom : {β : Type} → StateT σ (Except ε) β → σ → List V

/-- The automaton `next` reads a word, if it accepts it. -/
def accept {B V : Type} (next : B → V → Option B) : B → List V → Option B
  | b, [] => some b
  | b, v :: t => (next b v).bind fun b' => accept next b' t

theorem accept_append {B V : Type} {next : B → V → Option B} (t t' : List V) :
    ∀ b, accept next b (t ++ t') = (accept next b t).bind fun b' => accept next b' t' := by
  induction t with
  | nil => exact fun b => rfl
  | cons v t ih =>
    intro b
    rw [List.cons_append, accept, accept]
    cases next b v with
    | none => rfl
    | some b' => exact ih b'

namespace Prog

variable {σ ε L P V B α β : Type} [Locking σ L P]

/-- **A path of process `p` through a program**: from a state, with what was written down, up to
somewhere on the way or, with a result and a state, to the end. -/
inductive Path (R : σ → σ → Prop) (w : Watch σ ε L V) (p : P) :
    Prog σ ε L α → σ → List V → Option (α × σ) → Prop
  | here (x : Prog σ ε L α) (s : σ) : Path R w p x s [] none
  | ret (a : α) (s : σ) : Path R w p (.ret a) s [] (some (a, s))
  | others {x : Prog σ ε L α} {s s' : σ} {t : List V} {o : Option (α × σ)} : R s s' →
    Path R w p x s' t o → Path R w p x s t o
  | wait (l : L) (k : Prog σ ε L α) (s : σ) : Path R w p (.acquire l k) s (w.acquire l) none
  | acquire {l : L} {k : Prog σ ε L α} {s : σ} {t : List V} {o : Option (α × σ)} :
    Locking.holder (P := P) s l = none → Path R w p k (Locking.grab s l p) t o →
    Path R w p (.acquire l k) s (w.acquire l ++ t) o
  | atom {β : Type} {m : StateT σ (Except ε) β} {k : β → Prog σ ε L α} {b : β} {s s' : σ}
    {t : List V} {o : Option (α × σ)} : m s = .ok (b, s') → Path R w p (k b) s' t o →
    Path R w p (.atom m k) s (w.atom m s ++ t) o
  | stop {β : Type} {m : StateT σ (Except ε) β} {k : β → Prog σ ε L α} {e : ε} {s : σ} :
    m s = .error e → Path R w p (.atom m k) s (w.atom m s) none

/-- **Whatever the others do, the automaton accepts**, from `b` on, and at the end `Q` holds. -/
def Follows (R : σ → σ → Prop) (w : Watch σ ε L V) (next : B → V → Option B) (p : P) :
    Prog σ ε L α → B → (α → B → σ → Prop) → σ → Prop
  | .ret a, b, Q, s => ∀ s', R s s' → Q a b s'
  | .acquire l k, b, Q, s => ∃ b', accept next b (w.acquire l) = some b' ∧
      ∀ s', R s s' → Locking.holder (P := P) s' l = none →
        Follows R w next p k b' Q (Locking.grab s' l p)
  | .atom m k, b, Q, s => ∀ s', R s s' → ∃ b', accept next b (w.atom m s') = some b' ∧
      ∀ a s'', m s' = .ok (a, s'') → Follows R w next p (k a) b' Q s''

/-- The others may always do nothing, and two of their steps are one. -/
structure Interference (R : σ → σ → Prop) : Prop where
  refl : ∀ s, R s s
  trans : ∀ s s' s'', R s s' → R s' s'' → R s s''

/-- The path of a process that runs alone, if it ends. -/
def watched (w : Watch σ ε L V) (p : P) : Prog σ ε L α → σ → Option (List V × α × σ)
  | .ret a, s => some ([], a, s)
  | .acquire l k, s =>
    match Locking.holder (P := P) s l with
    | some _ => none
    | none => (watched w p k (Locking.grab s l p)).map fun r => (w.acquire l ++ r.1, r.2)
  | .atom m k, s =>
    match m s with
    | .error _ => none
    | .ok (b, s') => (watched w p (k b) s').map fun r => (w.atom m s ++ r.1, r.2)

section

variable {R : σ → σ → Prop} {w : Watch σ ε L V} {next : B → V → Option B} {p : P} {b : B} {s : σ}

/-- A step of the others. -/
theorem Follows.others (hR : Interference R) {x : Prog σ ε L α} {Q : α → B → σ → Prop} {s' : σ}
    (h : Follows R w next p x b Q s) (hs : R s s') : Follows R w next p x b Q s' := by
  cases x with
  | ret a => exact fun s'' hs' => h s'' (hR.trans _ _ _ hs hs')
  | acquire l k =>
    obtain ⟨b', hb, h⟩ := h
    exact ⟨b', hb, fun s'' hs' => h s'' (hR.trans _ _ _ hs hs')⟩
  | atom m k => exact fun s'' hs' => h s'' (hR.trans _ _ _ hs hs')

theorem Follows.mono {x : Prog σ ε L α} {Q Q' : α → B → σ → Prop}
    (h : Follows R w next p x b Q s) (hQ : ∀ a b' s', Q a b' s' → Q' a b' s') :
    Follows R w next p x b Q' s := by
  induction x generalizing b s with
  | ret a => exact fun s' hs => hQ _ _ _ (h s' hs)
  | acquire l k ih =>
    obtain ⟨b', hb, h⟩ := h
    exact ⟨b', hb, fun s' hs hl => ih (h s' hs hl)⟩
  | atom m k ih =>
    intro s' hs
    obtain ⟨b', hb, h⟩ := h s' hs
    exact ⟨b', hb, fun a s'' hm => ih a (h a s'' hm)⟩

theorem Follows.bind (hR : Interference R) {x : Prog σ ε L β} {f : β → Prog σ ε L α}
    {Q : α → B → σ → Prop}
    (h : Follows R w next p x b (fun a b' s' => Follows R w next p (f a) b' Q s') s) :
    Follows R w next p (x.bind f) b Q s := by
  induction x generalizing b s with
  | ret a => exact h s (hR.refl s)
  | acquire l k ih =>
    obtain ⟨b', hb, h⟩ := h
    exact ⟨b', hb, fun s' hs hl => ih (h s' hs hl)⟩
  | atom m k ih =>
    intro s' hs
    obtain ⟨b', hb, h⟩ := h s' hs
    exact ⟨b', hb, fun a s'' hm => ih a (h a s'' hm)⟩

/-- An atom: what it writes down, and where it leads. -/
theorem Follows.lift {m : StateT σ (Except ε) α} {Q : α → B → σ → Prop}
    (h : ∀ s', R s s' → ∃ b', accept next b (w.atom m s') = some b' ∧
      wp m (fun a s'' => ∀ s₃, R s'' s₃ → Q a b' s₃) (fun _ => True) s') :
    Follows R w next p (Prog.lift m : Prog σ ε L α) b Q s := by
  intro s' hs
  obtain ⟨b', hb, h⟩ := h s' hs
  exact ⟨b', hb, fun a s'' hm =>
    wp_of_ok (Q := fun a s'' => ∀ s₃, R s'' s₃ → Q a b' s₃) h hm⟩

theorem Follows.ite {c : Prop} [Decidable c] {x y : Prog σ ε L α} {Q : α → B → σ → Prop}
    (hx : c → Follows R w next p x b Q s) (hy : ¬ c → Follows R w next p y b Q s) :
    Follows R w next p (if c then x else y) b Q s := by
  by_cases h : c
  · rw [if_pos h]; exact hx h
  · rw [if_neg h]; exact hy h

/-- **What the judgment is for.**  Every path is accepted, and where it ends `Q` holds. -/
theorem Path.accepted (hR : Interference R) {x : Prog σ ε L α} {Q : α → B → σ → Prop}
    {t : List V} {o : Option (α × σ)} (hpath : Path R w p x s t o)
    (h : Follows R w next p x b Q s) :
    ∃ b', accept next b t = some b' ∧ ∀ a s', o = some (a, s') → Q a b' s' := by
  induction hpath generalizing b with
  | here x s => exact ⟨b, rfl, fun _ _ e => nomatch e⟩
  | ret a s =>
    refine ⟨b, rfl, fun a' s' e => ?_⟩
    obtain ⟨rfl, rfl⟩ := Prod.mk.inj (Option.some.inj e)
    exact h _ (hR.refl _)
  | others hs _ ih => exact ih (h.others hR hs)
  | wait l k s =>
    obtain ⟨b', hb, -⟩ := h
    exact ⟨b', hb, fun _ _ e => nomatch e⟩
  | acquire hl _ ih =>
    obtain ⟨b', hb, h⟩ := h
    obtain ⟨b'', hb', hQ⟩ := ih (h _ (hR.refl _) hl)
    exact ⟨b'', by rw [accept_append, hb]; exact hb', hQ⟩
  | atom hm _ ih =>
    obtain ⟨b', hb, h⟩ := h _ (hR.refl _)
    obtain ⟨b'', hb', hQ⟩ := ih (h _ _ hm)
    exact ⟨b'', by rw [accept_append, hb]; exact hb', hQ⟩
  | stop hm =>
    obtain ⟨b', hb, -⟩ := h _ (hR.refl _)
    exact ⟨b', hb, fun _ _ e => nomatch e⟩

theorem path_watched {x : Prog σ ε L α} {r : List V × α × σ} (h : watched w p x s = some r) :
    Path R w p x s r.1 (some r.2) := by
  induction x generalizing s r with
  | ret a => exact Option.some.inj h ▸ .ret a s
  | acquire l k ih =>
    rw [watched] at h
    split at h
    · cases h
    next hl =>
      obtain ⟨r', hr', rfl⟩ := Option.map_eq_some_iff.mp h
      exact .acquire hl (ih hr')
  | atom m k ih =>
    rw [watched] at h
    split at h
    · cases h
    next hm =>
      obtain ⟨r', hr', rfl⟩ := Option.map_eq_some_iff.mp h
      exact .atom hm (ih _ hr')

end

end Prog

end Xv6
