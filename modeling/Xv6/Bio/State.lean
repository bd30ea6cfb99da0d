/-
# The buffer cache

`bread`, `bwrite`, `log_write` and `brelse` of any number of processes on the root device.
`bcache.lock` makes the search of `bget` and the second half of `brelse` atomic, so a run is an
interleaving of these critical sections, of the moments at which a buffer's sleep-lock is taken
and given up, and of the transfers of the driver.  Between two of its own steps a process is
where `Pc` says.

A process changes the data of a buffer it holds, calls `log_write` or `bwrite` on it, and only
then `brelse`.  `changed` marks the buffers that were changed and not yet written, so that the
model can ask for this; the kernel has no such bit.

The reference count is a natural number: it never exceeds the number of processes by more than
one, so `uint` does not wrap.
-/
import Xv6.Lib.LinkedRing
import Xv6.Param

namespace Xv6.Bio

open Function (update)

/-! ## 1. Buffers and processes -/

/-- An index into `bcache.buf`. -/
def Slot : Type := Fin NBUF
  deriving DecidableEq, Repr

/-- `struct buf`, without its lock and its links.  The two flags are `B_VALID` and `B_DIRTY`. -/
structure Buf (δ : Type) where
  valid : Bool
  dirty : Bool
  dev : Nat
  blockno : Nat
  refcnt : Nat
  data : δ

/-- Where a process is. -/
inductive Pc
  /-- Outside the cache, possibly with buffers locked. -/
  | idle
  /-- In `bget` for block `n`, at `acquiresleep(&b->lock)`. -/
  | wait (b : Slot) (n : Nat)
  /-- In `bread` of block `n`, with the buffer `bget` returned. -/
  | got (b : Slot) (n : Nat)
  /-- In `brelse`, past `releasesleep(&b->lock)`. -/
  | rel (b : Slot)
  deriving DecidableEq, Repr

/-- `bcache`, the disk and the processes. -/
structure State (P δ : Type) where
  buf : Slot → Buf δ
  links : Links Slot
  lock : Slot → Option P
  disk : Nat → δ
  pc : P → Pc
  changed : Slot → Bool

/-- What happens next. -/
inductive Act (P δ : Type)
  /-- `p` calls `bread(ROOTDEV, n)`, and searches the cache. -/
  | bget (p : P) (n : Nat)
  /-- `p` takes the lock of the buffer it has found. -/
  | acquiresleep (p : P)
  /-- `bread` of `p` returns. -/
  | bread (p : P)
  /-- `p` stores to `b->data`. -/
  | modify (p : P) (b : Slot) (d : δ)
  /-- `p` calls `log_write(b)`. -/
  | logWrite (p : P) (b : Slot)
  /-- `p` calls `bwrite(b)`. -/
  | bwrite (p : P) (b : Slot)
  /-- `p` calls `brelse(b)`, and gives the lock up. -/
  | releasesleep (p : P) (b : Slot)
  /-- `brelse` of `p` returns. -/
  | brelse (p : P)

/-! ## 2. The code -/

namespace State

variable {P δ : Type} [DecidableEq P]

def setBuf (s : State P δ) (b : Slot) (v : Buf δ) : State P δ :=
  { s with buf := update s.buf b v }

def setPc (s : State P δ) (p : P) (pc : Pc) : State P δ :=
  { s with pc := update s.pc p pc }

/-- `b->dev == dev && b->blockno == blockno`, with `dev` the root device. -/
def holds (s : State P δ) (n : Nat) (b : Slot) : Bool :=
  (s.buf b).dev == ROOTDEV && (s.buf b).blockno == n

/-- `b->refcnt == 0 && (b->flags & B_DIRTY) == 0`. -/
def unused (s : State P δ) (b : Slot) : Bool :=
  (s.buf b).refcnt == 0 && !(s.buf b).dirty

/-- `bget` up to `release(&bcache.lock)`: the buffer, and the cache with a reference to it.
Nothing is returned at `panic("bget: no buffers")`. -/
def bget (s : State P δ) (n : Nat) : Option (Slot × State P δ) :=
  match Links.scan s.links.next (s.holds n) (NBUF + 1) (s.links.next none) with
  | some b => some (b, s.setBuf b { s.buf b with refcnt := (s.buf b).refcnt + 1 })
  | none =>
    match Links.scan s.links.prev s.unused (NBUF + 1) (s.links.prev none) with
    | some b => some (b, s.setBuf b { s.buf b with
        dev := ROOTDEV, blockno := n, valid := false, dirty := false, refcnt := 1 })
    | none => none

/-- `iderw`: write a dirty buffer, read one that is not valid.  It panics if there is nothing to
do, and `idestart` does if the disk has no such block. -/
def iderw (s : State P δ) (b : Slot) : Option (State P δ) :=
  let v := s.buf b
  if v.valid ∧ ¬ v.dirty then none
  else if FSSIZE ≤ v.blockno then none
  else if v.dirty then
    some { s.setBuf b { v with valid := true, dirty := false } with
      disk := update s.disk v.blockno v.data }
  else some (s.setBuf b { v with valid := true, data := s.disk v.blockno })

/-- `bread` after `bget`. -/
def bread (s : State P δ) (b : Slot) : Option (State P δ) :=
  if (s.buf b).valid then some s else s.iderw b

/-- `b->flags |= B_DIRTY`, the effect of `log_write` on the buffer. -/
def setDirty (s : State P δ) (b : Slot) : State P δ :=
  s.setBuf b { s.buf b with dirty := true }

/-- `bwrite` after its check. -/
def bwrite (s : State P δ) (b : Slot) : Option (State P δ) :=
  (s.setDirty b).iderw b

/-- `brelse` from `acquire(&bcache.lock)` on. -/
def brelse (s : State P δ) (b : Slot) : State P δ :=
  let s := s.setBuf b { s.buf b with refcnt := (s.buf b).refcnt - 1 }
  if (s.buf b).refcnt = 0 then { s with links := (s.links.unlink b).pushFront b } else s

/-- `p` may use the buffer: it holds the lock and is not inside another call. -/
def Owns (s : State P δ) (p : P) (b : Slot) : Prop :=
  s.lock b = some p ∧ s.pc p = .idle

instance (s : State P δ) (p : P) (b : Slot) : Decidable (s.Owns p b) :=
  inferInstanceAs (Decidable (_ ∧ _))

/-- The buffer's data is what was last written. -/
def setWritten (s : State P δ) (b : Slot) : State P δ :=
  { s with changed := update s.changed b false }

/-- One step.  Nothing is returned where the kernel panics. -/
def step (s : State P δ) : Act P δ → Option (State P δ)
  | .bget p n =>
    match s.pc p with
    | .idle => (s.bget n).map fun r => r.2.setPc p (.wait r.1 n)
    | _ => none
  | .acquiresleep p =>
    match s.pc p with
    | .wait b n =>
      if s.lock b = none then some { s.setPc p (.got b n) with lock := update s.lock b (some p) }
      else none
    | _ => none
  | .bread p =>
    match s.pc p with
    | .got b _ => (s.bread b).map fun s => s.setPc p .idle
    | _ => none
  | .modify p b d =>
    if s.Owns p b then
      some { s.setBuf b { s.buf b with data := d } with changed := update s.changed b true }
    else none
  | .logWrite p b => if s.Owns p b then some ((s.setDirty b).setWritten b) else none
  | .bwrite p b => if s.Owns p b then (s.bwrite b).map fun s => s.setWritten b else none
  | .releasesleep p b =>
    if s.Owns p b ∧ s.changed b = false then
      some { s.setPc p (.rel b) with lock := update s.lock b none }
    else none
  | .brelse p =>
    match s.pc p with
    | .rel b => some ((s.brelse b).setPc p .idle)
    | _ => none

end State

/-- All of `bcache.buf`. -/
def bufs : List Slot := List.finRange NBUF

theorem mem_bufs (b : Slot) : b ∈ bufs := List.mem_finRange (n := NBUF) b

theorem nodup_bufs : bufs.Nodup := List.nodup_finRange NBUF

theorem length_bufs : bufs.length = NBUF := List.length_finRange

/-- The links of `binit`: every buffer in its turn is put in front. -/
def binit : Links Slot :=
  bufs.foldl Links.pushFront ⟨fun _ => none, fun _ => none⟩

/-- After `binit`: `bcache` is zeroed memory. -/
def start (P : Type) {δ : Type} (zero : δ) (disk : Nat → δ) : State P δ where
  buf := fun _ => ⟨false, false, 0, 0, 0, zero⟩
  links := binit
  lock := fun _ => none
  disk := disk
  pc := fun _ => .idle
  changed := fun _ => false

/-! ## 3. What the cache is for: a plain map of blocks -/

/-- What the callers see of the blocks. -/
inductive Event (δ : Type)
  /-- A `bread` of block `n` has returned a buffer with `d` in it. -/
  | read (n : Nat) (d : δ)
  /-- A `log_write` or a `bwrite` has written `d` to block `n`. -/
  | write (n : Nat) (d : δ)
  deriving DecidableEq, Repr

/-- The data most recently written to each block, oldest event first. -/
def latest {δ : Type} (m : Nat → δ) : List (Event δ) → Nat → δ
  | [] => m
  | .read _ _ :: t => latest m t
  | .write n d :: t => latest (update m n d) t

/-- Every read returns the data most recently written. -/
def ReadsLatest {δ : Type} (m : Nat → δ) (t : List (Event δ)) : Prop :=
  ∀ t₁ n d t₂, t = t₁ ++ .read n d :: t₂ → d = latest m t₁ n

theorem latest_append {δ : Type} : ∀ {m : Nat → δ} {t t' : List (Event δ)},
    latest m (t ++ t') = latest (latest m t) t'
  | _, [], _ => rfl
  | _, .read _ _ :: t, _ => latest_append (t := t)
  | _, .write _ _ :: t, _ => latest_append (t := t)

/-- The event of a step from `s` to `s'`. -/
def event {P δ : Type} (s s' : State P δ) : Act P δ → List (Event δ)
  | .bread p =>
    match s.pc p with
    | .got b n => [.read n (s'.buf b).data]
    | _ => []
  | .logWrite _ b | .bwrite _ b => [.write (s.buf b).blockno (s.buf b).data]
  | _ => []

/-- The runs from a disk, each with its events. -/
inductive Run {P δ : Type} [DecidableEq P] (disk : Nat → δ) : List (Event δ) → State P δ → Prop
  | start (zero : δ) : Run disk [] (start P zero disk)
  | step {t : List (Event δ)} {s s' : State P δ} {a : Act P δ} : Run disk t s →
      s.step a = some s' → Run disk (t ++ event s s' a) s'

end Xv6.Bio
