/-
# Programs that wait for locks

`StateT σ (Except ε)` is good for code that nobody can interrupt.  A `Prog` is code that takes
locks on its way: a tree of atoms, which are such programs, and of `acquire`s, at which it
waits until the lock is free.  Locks are part of the state; giving one back does not wait and
is an atom like any other.

The same text has two meanings.  `Prog.seq` runs it ALONE: it returns, stops with an error of
one of its atoms, or is stuck at a lock that is held, which nobody will ever release.  The
interleaved meaning takes the atoms and acquires of many programs one at a time.
-/
import Xv6.Lib.Wp

namespace Xv6

/-- A program over the state `σ`, with errors `ε`, that waits for locks of type `L`. -/
inductive Prog (σ ε L α : Type) : Type 1
  | ret (a : α)
  | acquire (l : L) (k : Prog σ ε L α)
  | atom {β : Type} (m : StateT σ (Except ε) β) (k : β → Prog σ ε L α)

/-- Where the state keeps the holders of the locks. -/
class Locking (σ : Type) (L P : outParam Type) where
  /-- The process that holds a lock. -/
  holder : σ → L → Option P
  /-- The state after a process has taken a lock. -/
  grab : σ → L → P → σ

/-- Why a program that runs alone does not return. -/
inductive Stop (ε L : Type)
  | panic (e : ε)
  | stuck (l : L)
  deriving DecidableEq

namespace Prog

variable {σ ε L P α β : Type}

def bind (x : Prog σ ε L α) (f : α → Prog σ ε L β) : Prog σ ε L β :=
  match x with
  | .ret a => f a
  | .acquire l k => .acquire l (k.bind f)
  | .atom m k => .atom m fun b => (k b).bind f

instance : Monad (Prog σ ε L) where
  pure := .ret
  bind := bind

/-- One atom. -/
def lift (m : StateT σ (Except ε) α) : Prog σ ε L α := .atom m .ret

/-- Wait for a lock. -/
def lock (l : L) : Prog σ ε L Unit := .acquire l (.ret ())

@[simp] theorem pure_eq_ret (a : α) : (pure a : Prog σ ε L α) = .ret a := rfl

@[simp] theorem bind_eq_bind (x : Prog σ ε L α) (f : α → Prog σ ε L β) :
    (x >>= f) = x.bind f := rfl

theorem bind_assoc {γ : Type} (x : Prog σ ε L α) (f : α → Prog σ ε L β) (g : β → Prog σ ε L γ) :
    (x.bind f).bind g = x.bind fun a => (f a).bind g := by
  induction x with
  | ret a => rfl
  | acquire l k ih => exact congrArg (acquire l) ih
  | atom m k ih => exact congrArg (atom m) (funext ih)

/-- The error of an atom. -/
def liftStop (m : StateT σ (Except ε) α) : StateT σ (Except (Stop ε L)) α := fun s =>
  match m s with
  | .ok r => .ok r
  | .error e => .error (.panic e)

/-- The program run alone by process `p`. -/
def seq [Locking σ L P] (p : P) : Prog σ ε L α → StateT σ (Except (Stop ε L)) α
  | .ret a => pure a
  | .acquire l k => do
    let s ← get
    match Locking.holder s l with
    | none => set (Locking.grab s l p)
    | some _ => throw (.stuck l)
    k.seq p
  | .atom m k => do
    let b ← liftStop m
    (k b).seq p

/-! ## The rules for a program that runs alone -/

section

variable [Locking σ L P] {p : P} {Q : α → σ → Prop} {E : Stop ε L → Prop} {s : σ}

theorem wp_liftStop (m : StateT σ (Except ε) α) :
    wp (liftStop (L := L) m) Q E s ↔ wp m Q (fun e => E (.panic e)) s := by
  unfold wp liftStop
  cases m s <;> rfl

@[simp] theorem wp_seq_ret (a : α) : wp ((ret a : Prog σ ε L α).seq p) Q E s ↔ Q a s := Iff.rfl

/-- A free lock is taken; at one that is held the program is stuck. -/
theorem wp_seq_acquire (l : L) (k : Prog σ ε L α) :
    wp ((acquire l k).seq p) Q E s ↔
      match Locking.holder s l with
      | none => wp (k.seq p) Q E (Locking.grab s l p)
      | some _ => E (.stuck l) := by
  simp only [seq, wp_bind, wp_get]
  cases Locking.holder s l with
  | none => simp only [wp_bind, wp_set]
  | some q => simp only [wp_bind, wp_throw]

theorem wp_seq_lock_free {Q : Unit → σ → Prop} {l : L}
    (h : Locking.holder (P := P) s l = none) :
    wp ((lock l : Prog σ ε L Unit).seq p) Q E s ↔ Q () (Locking.grab s l p) := by
  rw [lock, wp_seq_acquire, h]
  rfl

theorem wp_seq_lock_held {Q : Unit → σ → Prop} {l : L} {q : P}
    (h : Locking.holder s l = some q) :
    wp ((lock l : Prog σ ε L Unit).seq p) Q E s ↔ E (.stuck l) := by
  rw [lock, wp_seq_acquire, h]

theorem wp_seq_atom (m : StateT σ (Except ε) β) (k : β → Prog σ ε L α) :
    wp ((atom m k).seq p) Q E s ↔
      wp m (fun b s' => wp ((k b).seq p) Q E s') (fun e => E (.panic e)) s := by
  simp only [seq, wp_bind, wp_liftStop]

@[simp] theorem wp_seq_lift (m : StateT σ (Except ε) α) :
    wp ((lift m : Prog σ ε L α).seq p) Q E s ↔ wp m Q (fun e => E (.panic e)) s :=
  wp_seq_atom m .ret

@[simp] theorem wp_seq_bind (x : Prog σ ε L β) (f : β → Prog σ ε L α) :
    wp ((x.bind f).seq p) Q E s ↔ wp (x.seq p) (fun b s' => wp ((f b).seq p) Q E s') E s := by
  induction x generalizing s with
  | ret a => rfl
  | acquire l k ih =>
    simp only [bind, wp_seq_acquire]
    split
    · exact ih
    · exact Iff.rfl
  | atom m k ih =>
    simp only [bind, wp_seq_atom]
    unfold wp
    split
    · exact ih _
    · exact Iff.rfl

/-- A program whose first part returns. -/
theorem seq_bind_ok {x : Prog σ ε L β} {f : β → Prog σ ε L α} {b : β} {s' : σ}
    (h : x.seq p s = .ok (b, s')) : (x.bind f).seq p s = (f b).seq p s' := by
  refine wp_ext fun Q E => ?_
  rw [wp_seq_bind]
  nth_rewrite 1 [wp]
  rw [h]

theorem seq_bind_error {x : Prog σ ε L β} {f : β → Prog σ ε L α} {e : Stop ε L}
    (h : x.seq p s = .error e) : (x.bind f).seq p s = .error e := by
  refine wp_error ((wp_seq_bind x f).mpr ?_)
  simp only [wp, h]

/-- The rule for `do`. -/
theorem wp_do {x : Prog σ ε L β} {f : β → Prog σ ε L α}
    (h : wp (x.seq p) (fun b s => wp ((f b).seq p) Q E s) E s) : wp ((x >>= f).seq p) Q E s :=
  (wp_seq_bind x f).mpr h

@[simp] theorem wp_seq_ite {c : Prop} [Decidable c] (x y : Prog σ ε L α) :
    wp ((if c then x else y).seq p) Q E s ↔
      (c → wp (x.seq p) Q E s) ∧ (¬ c → wp (y.seq p) Q E s) := by
  by_cases h : c <;> simp [h]

end

end Prog

end Xv6
