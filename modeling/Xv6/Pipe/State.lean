/-
# Pipes

`pipewrite`, `piperead` and `pipeclose` of any number of processes on one pipe.  Each turn of a
loop is a step of its own, taken with `p->lock` held, so a `kill` can come between any two of
them.  A process gives the lock up when it returns and when it sleeps; `sleep` releases the lock
and puts the process to sleep in one step, and takes the lock again when the process is awake.

Beside the pipe the state keeps what the calls have done so far: the buffers that were handed to
`pipewrite`, the bytes stored, each with the call it belongs to, and the bytes that `piperead`
has taken out.
-/
import Mathlib.Tactic
import Xv6.Lib.RingBuffer

namespace Xv6.Pipe

/-! ## 1. The machine -/

abbrev PIPESIZE : Nat := 512

/-- How far an `unsigned int` counts. -/
abbrev WORD : Nat := 2 ^ 32

/-- `&p->nread`, where readers sleep, and `&p->nwrite`, where writers do. -/
inductive Chan
  | nread
  | nwrite
  deriving DecidableEq, Repr

/-- What the last call has returned: `pipewrite`, or `piperead` of `n` bytes. -/
inductive Ret
  | write (r : Int)
  | read (n : Nat) (r : Int)
  deriving DecidableEq, Repr

/-- Where a process is. -/
inductive Pc
  /-- Not inside a call. -/
  | user (last : Option Ret)
  /-- At the head of the loop of `pipewrite`: call number `id`, with `i` bytes of `src` stored. -/
  | write (id : Nat) (src : List UInt8) (i : Nat)
  /-- At the head of the first loop of `piperead`. -/
  | read (n : Nat)
  /-- At the head of the second loop of `piperead`, with `i` bytes copied. -/
  | copy (n i : Nat)
  deriving DecidableEq, Repr

/-- `struct pipe`, the processes, and what the calls have done. -/
structure State (ι : Type) where
  ring : RingBuffer UInt8
  readopen : Bool
  writeopen : Bool
  /-- Who holds `p->lock`. -/
  holder : Option ι
  pc : ι → Pc
  asleep : ι → Option Chan
  killed : ι → Bool
  srcs : List (List UInt8)
  stored : List (Nat × UInt8)
  returned : List UInt8

/-- What happens next. -/
inductive Act (ι : Type)
  /-- `p` calls `pipewrite`. -/
  | write (p : ι) (src : List UInt8)
  /-- `p` calls `piperead`. -/
  | read (p : ι) (n : Nat)
  /-- `p` takes `p->lock`, at the start of a call or after a sleep. -/
  | acquire (p : ι)
  /-- `p` goes on with the lock held. -/
  | go (p : ι)
  /-- Somebody calls `pipeclose`. -/
  | close (writable : Bool)
  /-- Somebody kills `p`. -/
  | kill (p : ι)
  deriving DecidableEq, Repr

namespace State

variable {ι : Type} [DecidableEq ι]

def Empty (s : State ι) : Prop := s.ring.IsEmpty

def Full (s : State ι) : Prop := s.ring.IsFull PIPESIZE WORD

instance (s : State ι) : Decidable s.Empty := inferInstanceAs (Decidable s.ring.IsEmpty)

instance (s : State ι) : Decidable s.Full :=
  inferInstanceAs (Decidable (s.ring.IsFull PIPESIZE WORD))

def setPc (s : State ι) (p : ι) (pc : Pc) : State ι :=
  { s with pc := Function.update s.pc p pc }

/-- `wakeup(chan)`. -/
def wakeup (s : State ι) (chan : Chan) : State ι :=
  { s with asleep := fun q => if s.asleep q = some chan then none else s.asleep q }

/-- `sleep(chan, &p->lock)`. -/
def sleep (s : State ι) (p : ι) (chan : Chan) : State ι :=
  { s with asleep := Function.update s.asleep p (some chan), holder := none }

/-- `release(&p->lock); return`. -/
def leave (s : State ι) (p : ι) (r : Ret) : State ι :=
  { s.setPc p (.user (some r)) with holder := none }

/-- `p->data[p->nwrite++ % PIPESIZE] = addr[i]`. -/
def store (s : State ι) (id : Nat) (b : UInt8) : State ι :=
  { s with ring := s.ring.push PIPESIZE WORD b, stored := s.stored ++ [(id, b)] }

/-- `addr[i] = p->data[p->nread++ % PIPESIZE]`. -/
def fetch (s : State ι) : State ι :=
  { s with ring := s.ring.pop WORD, returned := s.returned ++ [s.ring.front PIPESIZE] }

/-- One turn of the loop of `pipewrite`. -/
def goWrite (s : State ι) (p : ι) (id : Nat) (src : List UInt8) (i : Nat) : State ι :=
  match src[i]? with
  | some b =>
    if s.Full then
      if s.readopen = false ∨ s.killed p then s.leave p (.write (-1))
      else (s.wakeup .nread).sleep p .nwrite
    else (s.store id b).setPc p (.write id src (i + 1))
  | none => (s.wakeup .nread).leave p (.write src.length)

/-- One turn of the first loop of `piperead`. -/
def goRead (s : State ι) (p : ι) (n : Nat) : State ι :=
  if s.Empty ∧ s.writeopen then
    if s.killed p then s.leave p (.read n (-1)) else s.sleep p .nread
  else s.setPc p (.copy n 0)

/-- One turn of the second loop of `piperead`. -/
def goCopy (s : State ι) (p : ι) (n i : Nat) : State ι :=
  if i < n ∧ ¬ s.Empty then s.fetch.setPc p (.copy n (i + 1))
  else (s.wakeup .nwrite).leave p (.read n i)

/-- `pipeclose(p, writable)`. -/
def close (s : State ι) (writable : Bool) : State ι :=
  if writable then { s with writeopen := false }.wakeup .nread
  else { s with readopen := false }.wakeup .nwrite

/-- The process is inside a call, and not asleep. -/
def Wants (s : State ι) (p : ι) : Prop :=
  s.asleep p = none ∧ ∀ last, s.pc p ≠ .user last

instance (s : State ι) (p : ι) : Decidable (s.Wants p) :=
  decidable_of_iff (s.asleep p = none ∧ (match s.pc p with | .user _ => false | _ => true) = true)
    (and_congr_right fun _ => by cases s.pc p <;> simp)

/-- One step. -/
def step (s : State ι) : Act ι → Option (State ι)
  | .write p src =>
    match s.pc p with
    | .user _ => some { s.setPc p (.write s.srcs.length src 0) with srcs := s.srcs ++ [src] }
    | _ => none
  | .read p n =>
    match s.pc p with
    | .user _ => some (s.setPc p (.read n))
    | _ => none
  | .acquire p => if s.holder = none ∧ s.Wants p then some { s with holder := some p } else none
  | .go p =>
    if s.holder = some p then
      match s.pc p with
      | .write id src i => some (s.goWrite p id src i)
      | .read n => some (s.goRead p n)
      | .copy n i => some (s.goCopy p n i)
      | .user _ => none
    else none
  | .close writable => if s.holder = none then some (s.close writable) else none
  | .kill p =>
    some { s with
      killed := Function.update s.killed p true
      asleep := Function.update s.asleep p none }

end State

/-- After `pipealloc`. -/
def start (ι : Type) (data : Nat → UInt8) : State ι where
  ring := ⟨data, 0, 0⟩
  readopen := true
  writeopen := true
  holder := none
  pc := fun _ => .user none
  asleep := fun _ => none
  killed := fun _ => false
  srcs := []
  stored := []
  returned := []

/-- The states that steps allowed by `C` lead to. -/
inductive Reach {ι : Type} [DecidableEq ι] (C : State ι → Act ι → Prop) : State ι → Prop
  | start (data : Nat → UInt8) : Reach C (start ι data)
  | step {s s' : State ι} {a : Act ι} : Reach C s → C s a → s.step a = some s' → Reach C s'

/-- Any step is allowed. -/
def Any {ι : Type} (_ : State ι) (_ : Act ι) : Prop := True

instance {ι : Type} (s : State ι) (a : Act ι) : Decidable (Any s a) := isTrue trivial

/-- The state after a list of steps, if each is possible and allowed in its turn. -/
def exec {ι : Type} [DecidableEq ι] (C : State ι → Act ι → Prop) [∀ s a, Decidable (C s a)]
    (s : State ι) : List (Act ι) → Option (State ι)
  | [] => some s
  | a :: as => if C s a then (s.step a).bind fun s => exec C s as else none

theorem reach_exec {ι : Type} [DecidableEq ι] {C : State ι → Act ι → Prop}
    [∀ s a, Decidable (C s a)] : ∀ {as : List (Act ι)} {s s' : State ι}, Reach C s →
      exec C s as = some s' → Reach C s'
  | [], _, _, h, he => Option.some.inj he ▸ h
  | a :: as, s, s', h, he => by
    simp only [exec, Option.ite_none_right_eq_some, Option.bind_eq_some_iff] at he
    obtain ⟨hC, s₁, hs, he⟩ := he
    exact reach_exec (h.step hC hs) he

end Xv6.Pipe
