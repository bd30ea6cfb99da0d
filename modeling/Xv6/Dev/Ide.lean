/-
# The disk driver

`iderw` of `ide.c` puts its buffer into a queue and sleeps; the interrupt handler takes the first
buffer out, wakes its process and starts the next.  `iderw` of `memide.c` copies the block at once.
For the processes that call them there is no difference.

The critical sections of `idelock` are the steps of the machine, and the disk controller takes steps
of its own: it finishes the command it was given, without error, and interrupts once for it.  A
buffer that nobody passed to `iderw` can change at any time, through the buffer cache and whoever has
it locked.  A process that sleeps can be woken early, by `kill`.

The state keeps the order in which buffers came into the queue, were started, were transferred and
left the queue, and which calls there were and what they returned.
-/
import Xv6.Lib.Chain
import Xv6.Bio.State

namespace Xv6.Ide

open Function (forall_update_iff update update_apply update_of_ne update_self)

open Bio (Buf)

/-! ## 1. The memory disk -/

variable {P B δ : Type}

/-- `(b->flags & (B_VALID|B_DIRTY)) == B_VALID` -/
def Synced (v : Buf δ) : Prop := v.valid = true ∧ v.dirty = false

instance (v : Buf δ) : Decidable (Synced v) := inferInstanceAs (Decidable (_ ∧ _))

/-- The panics of the two drivers. -/
inductive Panic
  | notLocked
  | nothingToDo
  | notDisk1
  | outOfRange
  deriving DecidableEq, Repr

/-- What the calls of `iderw` look like from outside. -/
inductive Event (P B δ : Type)
  /-- `p` calls `iderw(b)`, when the buffer is `v`. -/
  | call (p : P) (b : B) (v : Buf δ)
  /-- The call returns: the buffer is `v`, and `d` was in its block on the disk right after the
  call took effect. -/
  | ret (p : P) (b : B) (v : Buf δ) (d : Option δ)

namespace Mem

/-- Where a process is. -/
inductive Pc (B δ : Type)
  | user
  /-- In `iderw(b)`, before it has done anything. -/
  | called (b : B)
  /-- In `iderw(b)`, which has left `d` in the block on the disk. -/
  | done (b : B) (d : δ)

/-- `memdisk`, the buffers and the processes. -/
structure State (P B δ : Type) where
  buf : B → Buf δ
  lock : B → Option P
  disk : Nat → δ
  pc : P → Pc B δ
  trace : List (Event P B δ)
  panic : Bool

/-- `iderw` of `memide.c`, after its first check: the buffer and the disk, if it does not panic. -/
def iderw (disk : Nat → δ) (v : Buf δ) : Except Panic (Buf δ × (Nat → δ)) :=
  if Synced v then .error .nothingToDo
  else if v.dev ≠ ROOTDEV then .error .notDisk1
  else if FSSIZE ≤ v.blockno then .error .outOfRange
  else if v.dirty then
    .ok ({ v with dirty := false, valid := true }, update disk v.blockno v.data)
  else .ok ({ v with data := disk v.blockno, valid := true }, disk)

/-- Nobody is inside `iderw` with this buffer. -/
def State.Free (s : State P B δ) (b : B) : Prop :=
  ∀ p, s.lock b = some p → s.pc p = .user

variable [DecidableEq P] [DecidableEq B]

/-- The steps, with `iderw` in one of them. -/
inductive Step : State P B δ → State P B δ → Prop
  | acquiresleep {s : State P B δ} (p : P) (b : B) : s.panic = false → s.lock b = none →
      Step s { s with lock := update s.lock b (some p) }
  | releasesleep {s : State P B δ} (p : P) (b : B) : s.panic = false → s.lock b = some p →
      s.pc p = .user → Step s { s with lock := update s.lock b none }
  | set {s : State P B δ} (b : B) (v : Buf δ) : s.panic = false → s.Free b →
      Step s { s with buf := update s.buf b v }
  | call {s : State P B δ} (p : P) (b : B) : s.panic = false → s.pc p = .user →
      s.lock b = some p → Step s { s with
        pc := update s.pc p (.called b), trace := s.trace ++ [.call p b (s.buf b)] }
  | iderw {s : State P B δ} {p : P} {b : B} {v : Buf δ} {disk : Nat → δ} : s.panic = false →
      s.pc p = .called b → iderw s.disk (s.buf b) = .ok (v, disk) →
      Step s { s with
        buf := update s.buf b v, disk := disk, pc := update s.pc p (.done b (disk v.blockno)) }
  | panic {s : State P B δ} {p : P} {b : B} {e : Panic} : s.panic = false → s.pc p = .called b →
      Mem.iderw s.disk (s.buf b) = .error e → Step s { s with panic := true }
  | unlocked {s : State P B δ} (p : P) (b : B) : s.panic = false → s.pc p = .user →
      s.lock b ≠ some p → Step s { s with panic := true }
  | ret {s : State P B δ} {p : P} {b : B} {d : δ} : s.panic = false → s.pc p = .done b d →
      Step s { s with pc := update s.pc p .user, trace := s.trace ++ [.ret p b (s.buf b) (some d)] }

/-- At boot: no buffer is locked, and nobody is inside the driver. -/
def start (buf : B → Buf δ) (disk : Nat → δ) : State P B δ where
  buf := buf
  lock := fun _ => none
  disk := disk
  pc := fun _ => .user
  trace := []
  panic := false

/-- The states that the steps lead to. -/
inductive Reach (buf : B → Buf δ) (disk : Nat → δ) : State P B δ → Prop
  | start : Reach buf disk (start buf disk)
  | step {s s' : State P B δ} : Reach buf disk s → Step s s' → Reach buf disk s'

end Mem

/-! ## 2. The driver -/

/-- What the controller can be told to do. -/
inductive Cmd (δ : Type)
  | read (n : Nat)
  | write (n : Nat) (d : δ)

/-- The controller. -/
inductive Ctl (B δ : Type)
  | ready
  /-- It works on a command, which was given for `b`. -/
  | busy (b : B) (c : Cmd δ)
  /-- It has finished a command and raised its interrupt; what it read waits in its data port. -/
  | finished (port : Option δ)

/-- Where a process is. -/
inductive Pc (B : Type)
  | user
  /-- In `iderw(b)`, at `acquire(&idelock)`. -/
  | enter (b : B)
  /-- In `iderw(b)`, in the loop that waits. -/
  | wait (b : B)
  deriving DecidableEq, Repr

/-- The driver, the disk, the buffers and the processes. -/
structure State (P B δ : Type) where
  /-- `idequeue` is the link of `none`, and `b->qnext` that of `some b`. -/
  link : Option B → Option B
  buf : B → Buf δ
  lock : B → Option P
  disk : Nat → δ
  ctl : Ctl B δ
  pc : P → Pc B
  /-- SLEEPING on the buffer of its call. -/
  asleep : P → Bool
  panic : Option Panic
  /-- The buffers that came into the queue. -/
  arrived : List B
  /-- The buffers that a command was given for. -/
  started : List B
  /-- The buffers whose block the controller has transferred. -/
  moved : List B
  /-- The buffers that `ideintr` has taken out of the queue. -/
  completed : List B
  /-- What was in a buffer's block on the disk right after its last transfer. -/
  block : B → Option δ
  trace : List (Event P B δ)

/-- What happens next. -/
inductive Act (P B δ : Type)
  /-- `p` takes the lock of `b`. -/
  | acquiresleep (p : P) (b : B)
  /-- `p` gives up the lock of `b`. -/
  | releasesleep (p : P) (b : B)
  /-- Something is stored in `b`, by whoever has it. -/
  | set (b : B) (v : Buf δ)
  /-- `p` calls `iderw(b)`, up to `acquire(&idelock)`. -/
  | iderw (p : P) (b : B)
  /-- `p` puts its buffer into the queue, and sleeps. -/
  | enqueue (p : P)
  /-- `p`, awake again, looks at its buffer. -/
  | go (p : P)
  /-- The controller finishes its command, and interrupts. -/
  | finish
  /-- The interrupt is handled. -/
  | ideintr
  /-- `p` is woken, by `kill`. -/
  | kill (p : P)

/-- The command for a buffer. -/
def cmd (v : Buf δ) : Cmd δ :=
  if v.dirty then .write v.blockno v.data else .read v.blockno

/-- What `ideintr` does to the buffer of the command that has finished. -/
def complete (port : Option δ) (v : Buf δ) : Buf δ :=
  { v with data := if v.dirty then v.data else port.getD v.data, valid := true, dirty := false }

namespace State

/-- `idestart`. -/
def idestart (s : State P B δ) (b : B) : State P B δ :=
  if FSSIZE ≤ (s.buf b).blockno then { s with panic := some .outOfRange }
  else { s with ctl := .busy b (cmd (s.buf b)), started := s.started ++ [b] }

/-- Somebody is inside `iderw` with this buffer. -/
def inUse [DecidableEq B] (s : State P B δ) (b : B) : Bool :=
  match s.lock b with
  | some p => s.pc p ≠ .user
  | none => false

variable [DecidableEq P] [DecidableEq B]

/-- The loop at the end of `iderw`: return, or sleep. -/
def await (s : State P B δ) (p : P) (b : B) : State P B δ :=
  if Synced (s.buf b) then
    { s with pc := update s.pc p .user, trace := s.trace ++ [.ret p b (s.buf b) (s.block b)] }
  else { s with asleep := update s.asleep p true }

/-- `iderw` up to `acquire(&idelock)`. -/
def iderw (s : State P B δ) (p : P) (b : B) : State P B δ :=
  if s.lock b ≠ some p then { s with panic := some .notLocked }
  else
    let s : State P B δ := { s with trace := s.trace ++ [.call p b (s.buf b)] }
    if Synced (s.buf b) then { s with panic := some .nothingToDo }
    else { s with pc := update s.pc p (.enter b) }

/-- `iderw` from `acquire(&idelock)` on. -/
def enqueue [Fintype B] (s : State P B δ) (p : P) (b : B) : State P B δ :=
  let s : State P B δ := { s with
    link := Chain.append s.link (Fintype.card B) b
    pc := update s.pc p (.wait b)
    arrived := s.arrived ++ [b] }
  let s := if s.link none = some b then s.idestart b else s
  if s.panic = none then s.await p b else s

/-- `ideintr`, when the controller has interrupted. -/
def ideintr (s : State P B δ) (port : Option δ) : State P B δ :=
  match s.link none with
  | none => { s with ctl := .ready }
  | some b =>
    let s : State P B δ := { s with
      link := update s.link none (s.link (some b))
      ctl := .ready
      buf := update s.buf b (complete port (s.buf b))
      asleep := fun p => s.asleep p && s.pc p ≠ .wait b
      completed := s.completed ++ [b] }
    match s.link none with
    | none => s
    | some b => s.idestart b

/-- The controller carries its command out. -/
def finish (s : State P B δ) (b : B) : Cmd δ → State P B δ
  | .read n => { s with
      ctl := .finished (some (s.disk n))
      moved := s.moved ++ [b]
      block := update s.block b (some (s.disk n)) }
  | .write n d => { s with
      disk := update s.disk n d
      ctl := .finished none
      moved := s.moved ++ [b]
      block := update s.block b (some d) }

/-- One step.  `iderw` is called for buffers of disk 1 only. -/
def step [Fintype B] (s : State P B δ) (a : Act P B δ) : Option (State P B δ) :=
  if s.panic ≠ none then none
  else match a with
  | .acquiresleep p b =>
    if s.lock b = none then some { s with lock := update s.lock b (some p) } else none
  | .releasesleep p b =>
    if s.lock b = some p ∧ s.pc p = .user then some { s with lock := update s.lock b none }
    else none
  | .set b v => if s.inUse b then none else some { s with buf := update s.buf b v }
  | .iderw p b =>
    if s.pc p = .user ∧ (s.buf b).dev = ROOTDEV then some (s.iderw p b) else none
  | .enqueue p =>
    match s.pc p with
    | .enter b => some (s.enqueue p b)
    | _ => none
  | .go p =>
    match s.pc p with
    | .wait b => if s.asleep p then none else some (s.await p b)
    | _ => none
  | .finish =>
    match s.ctl with
    | .busy b c => some (s.finish b c)
    | _ => none
  | .ideintr =>
    match s.ctl with
    | .finished port => some (s.ideintr port)
    | _ => none
  | .kill p => some { s with asleep := update s.asleep p false }

end State

/-- At boot: the queue is empty and the controller has nothing to do. -/
def start (buf : B → Buf δ) (disk : Nat → δ) : State P B δ where
  link := fun _ => none
  buf := buf
  lock := fun _ => none
  disk := disk
  ctl := .ready
  pc := fun _ => .user
  asleep := fun _ => false
  panic := none
  arrived := []
  started := []
  moved := []
  completed := []
  block := fun _ => none
  trace := []

/-- The states that the steps lead to. -/
inductive Reach [DecidableEq P] [DecidableEq B] [Fintype B] (buf : B → Buf δ) (disk : Nat → δ) :
    State P B δ → Prop
  | start : Reach buf disk (start buf disk)
  | step {s s' : State P B δ} {a : Act P B δ} : Reach buf disk s → s.step a = some s' →
      Reach buf disk s'

/-! ## 3. The invariant -/

/-- The buffer a process has passed to `iderw`. -/
def Pc.buf : Pc B → Option B
  | .user => none
  | .enter b => some b
  | .wait b => some b

/-- The controller works for the first buffer of the queue, if there is one. -/
inductive Active (s : State P B δ) : List B → Prop
  | idle : s.ctl = .ready → s.started = s.completed → s.moved = s.completed → Active s []
  | busy {b : B} {l : List B} : s.ctl = .busy b (cmd (s.buf b)) →
      (s.buf b).blockno < FSSIZE → s.started = s.completed ++ [b] → s.moved = s.completed →
      Active s (b :: l)
  | finished {b : B} {l : List B} {port : Option δ} : s.ctl = .finished port →
      s.block b = some (complete port (s.buf b)).data → s.started = s.completed ++ [b] →
      s.moved = s.completed ++ [b] → Active s (b :: l)

/-- What is known about a process, and the buffer it has passed to `iderw`, from where it is. -/
def Place (s : State P B δ) (l : List B) (p : P) : Pc B → Prop
  | .user => s.asleep p = false
  | .enter b => s.lock b = some p ∧ s.asleep p = false ∧ b ∉ l ∧ ¬ Synced (s.buf b) ∧
      (s.buf b).dev = ROOTDEV
  | .wait b => s.lock b = some p ∧
      (b ∈ l ∨ s.asleep p = false ∧ Synced (s.buf b) ∧ s.block b = some (s.buf b).data)

/-- The queue holds `l`. -/
structure Inv (s : State P B δ) (l : List B) : Prop where
  chain : Chain s.link none l
  nodup : l.Nodup
  arrived : s.arrived = s.completed ++ l
  active : Active s l
  queued : ∀ b ∈ l, (∃ p, s.pc p = .wait b) ∧ ¬ Synced (s.buf b) ∧ (s.buf b).dev = ROOTDEV
  place : ∀ p, Place s l p (s.pc p)
  returned : ∀ p b v d, Event.ret p b v d ∈ s.trace → Synced v ∧ d = some v.data
  running : s.panic = none

section

variable {s s' : State P B δ} {l l' : List B} {p : P} {b : B} {x : Pc B}

theorem Active.congr (h : Active s l) (hctl : s'.ctl = s.ctl) (hst : s'.started = s.started)
    (hmv : s'.moved = s.moved) (hcp : s'.completed = s.completed)
    (hbuf : ∀ b ∈ l, s'.buf b = s.buf b) (hblk : ∀ b ∈ l, s'.block b = s.block b) :
    Active s' l := by
  cases h with
  | idle h₁ h₂ h₃ => exact .idle (by rw [hctl, h₁]) (by rw [hst, hcp, h₂]) (by rw [hmv, hcp, h₃])
  | busy h₁ h₂ h₃ h₄ =>
    have hb := hbuf _ List.mem_cons_self
    exact .busy (by rw [hctl, h₁, hb]) (by rw [hb]; exact h₂) (by rw [hst, hcp, h₃])
      (by rw [hmv, hcp, h₄])
  | finished h₁ h₂ h₃ h₄ =>
    have hb := hbuf _ List.mem_cons_self
    exact .finished (by rw [hctl, h₁]) (by rw [hblk _ List.mem_cons_self, hb, h₂])
      (by rw [hst, hcp, h₃]) (by rw [hmv, hcp, h₄])

/-- The controller works for the first buffer, whatever comes behind it. -/
theorem Active.behind (h : Active s (b :: l)) : Active s (b :: l') := by
  cases h with
  | busy h₁ h₂ h₃ h₄ => exact .busy h₁ h₂ h₃ h₄
  | finished h₁ h₂ h₃ h₄ => exact .finished h₁ h₂ h₃ h₄

theorem Place.lock (h : Place s l p x) (hb : x.buf = some b) : s.lock b = some p := by
  cases x with
  | user => cases hb
  | enter c => exact Option.some.inj hb ▸ h.1
  | wait c => exact Option.some.inj hb ▸ h.1

/-- A step that leaves the buffer of the process alone. -/
theorem Place.frame (h : Place s l p x) (ha : s'.asleep p = s.asleep p)
    (hb : ∀ b, x.buf = some b → s'.lock b = s.lock b ∧ s'.buf b = s.buf b ∧
      s'.block b = s.block b ∧ (b ∈ l' ↔ b ∈ l)) : Place s' l' p x := by
  cases x with
  | user => exact ha.trans h
  | enter c =>
    obtain ⟨h₁, h₂, -, h₄⟩ := hb c rfl
    simp only [Place, h₁, h₂, h₄, ha]
    exact h
  | wait c =>
    obtain ⟨h₁, h₂, h₃, h₄⟩ := hb c rfl
    simp only [Place, h₁, h₂, h₃, h₄, ha]
    exact h

namespace Inv

/-- A buffer is passed to `iderw` by the process that has it locked. -/
theorem lock_of_buf (h : Inv s l) (hb : (s.pc p).buf = some b) : s.lock b = some p :=
  (h.place p).lock hb

theorem lock_of_wait (h : Inv s l) (hp : s.pc p = .wait b) : s.lock b = some p :=
  h.lock_of_buf (by rw [hp, Pc.buf])

theorem wait_unique (h : Inv s l) {q : P} (hp : s.pc p = .wait b) (hq : (s.pc q).buf = some b) :
    q = p :=
  Option.some.inj ((h.lock_of_buf hq).symm.trans (h.lock_of_wait hp))

/-- A buffer whose process is not inside `iderw` is in no call, and not in the queue. -/
theorem free (h : Inv s l) (hb : ∀ p, s.lock b = some p → s.pc p = .user) :
    (∀ p, (s.pc p).buf ≠ some b) ∧ b ∉ l := by
  have hcall : ∀ p, (s.pc p).buf ≠ some b := fun p hp => by
    rw [hb p (h.lock_of_buf hp)] at hp
    cases hp
  refine ⟨hcall, fun hl => ?_⟩
  obtain ⟨p, hp⟩ := (h.queued b hl).1
  exact hcall p (by rw [hp, Pc.buf])

theorem acquiresleep [DecidableEq B] (h : Inv s l) (hb : s.lock b = none) :
    Inv { s with lock := update s.lock b (some p) } l := by
  have hfree := h.free (b := b) fun q hq => by
    rw [hb] at hq
    cases hq
  refine { h with
    active := h.active.congr rfl rfl rfl rfl (fun _ _ => rfl) fun _ _ => rfl
    place := fun q => (h.place q).frame rfl fun c hc => ⟨?_, rfl, rfl, Iff.rfl⟩ }
  exact update_of_ne (fun e : c = b => hfree.1 q (e ▸ hc)) ..

theorem releasesleep [DecidableEq B] (h : Inv s l) (hb : s.lock b = some p)
    (hp : s.pc p = .user) : Inv { s with lock := update s.lock b none } l := by
  have hfree := h.free (b := b) fun q hq => by
    rw [hb] at hq
    exact Option.some.inj hq ▸ hp
  refine { h with
    active := h.active.congr rfl rfl rfl rfl (fun _ _ => rfl) fun _ _ => rfl
    place := fun q => (h.place q).frame rfl fun c hc => ⟨?_, rfl, rfl, Iff.rfl⟩ }
  exact update_of_ne (fun e : c = b => hfree.1 q (e ▸ hc)) ..

theorem set [DecidableEq B] (h : Inv s l) (v : Buf δ)
    (hb : ∀ p, s.lock b = some p → s.pc p = .user) :
    Inv { s with buf := update s.buf b v } l := by
  obtain ⟨hcall, hl⟩ := h.free hb
  have hbuf : ∀ c ∈ l, update s.buf b v c = s.buf c := fun c hc =>
    update_of_ne (fun e : c = b => hl (e ▸ hc)) ..
  refine { h with
    active := h.active.congr rfl rfl rfl rfl hbuf fun _ _ => rfl
    queued := fun c hc => ?_
    place := fun q => (h.place q).frame rfl fun c hc => ⟨rfl, ?_, rfl, Iff.rfl⟩ }
  · show _ ∧ ¬ Synced (update s.buf b v c) ∧ (update s.buf b v c).dev = ROOTDEV
    rw [hbuf c hc]
    exact h.queued c hc
  · exact update_of_ne (fun e : c = b => hcall q (e ▸ hc)) ..

variable [DecidableEq P]

/-- A process that is not in the waiting loop moves. -/
theorem queued_update (h : Inv s l) (hp : ∀ c, s.pc p ≠ .wait c) (b : B) (hb : b ∈ l) :
    (∃ q, update s.pc p x q = .wait b) ∧ ¬ Synced (s.buf b) ∧ (s.buf b).dev = ROOTDEV := by
  obtain ⟨⟨q, hq⟩, hrest⟩ := h.queued b hb
  refine ⟨⟨q, ?_⟩, hrest⟩
  rw [update_of_ne (fun e : q = p => hp b (e ▸ hq)), hq]

theorem iderw (h : Inv s l) (hp : s.pc p = .user) (hb : s.lock b = some p)
    (hs : ¬ Synced (s.buf b)) (hdev : (s.buf b).dev = ROOTDEV) :
    Inv { s with trace := s.trace ++ [.call p b (s.buf b)], pc := update s.pc p (.enter b) } l := by
  have hfree := h.free (b := b) fun q hq => by
    rw [hb] at hq
    exact Option.some.inj hq ▸ hp
  have hawake : s.asleep p = false := by
    have := h.place p
    rwa [hp] at this
  refine { h with
    active := h.active.congr rfl rfl rfl rfl (fun _ _ => rfl) fun _ _ => rfl
    queued := h.queued_update (fun c e => by rw [hp] at e; cases e)
    place := (forall_update_iff s.pc fun q y => Place _ l q y).mpr
      ⟨⟨hb, hawake, hfree.2, hs, hdev⟩, fun q _ => (h.place q).frame rfl
        fun c _ => ⟨rfl, rfl, rfl, Iff.rfl⟩⟩
    returned := fun q c v d hm => ?_ }
  rcases List.mem_append.mp hm with hm | hm
  · exact h.returned q c v d hm
  · cases List.mem_singleton.mp hm

theorem kill (h : Inv s l) : Inv { s with asleep := update s.asleep p false } l := by
  refine { h with
    active := h.active.congr rfl rfl rfl rfl (fun _ _ => rfl) fun _ _ => rfl
    place := fun q => ?_ }
  rcases eq_or_ne q p with rfl | hq
  · have hq := h.place q
    revert hq
    show Place s l q (s.pc q) → Place _ l q (s.pc q)
    cases s.pc q with
    | user => exact fun _ => update_self ..
    | enter b => exact fun hb => ⟨hb.1, update_self .., hb.2.2⟩
    | wait b =>
      exact fun hb => ⟨hb.1, hb.2.imp_right fun hb => ⟨update_self .., hb.2⟩⟩
  · exact (h.place q).frame (update_of_ne hq ..) fun c _ => ⟨rfl, rfl, rfl, Iff.rfl⟩

/-- The waiting loop, when the buffer is not ready: it is still in the queue. -/
theorem sleep (h : Inv s l) (hp : s.pc p = .wait b) (hb : ¬ Synced (s.buf b)) :
    Inv { s with asleep := update s.asleep p true } l := by
  have hl : b ∈ l := by
    have := h.place p
    rw [hp] at this
    exact this.2.resolve_right fun hr => hb hr.2.1
  refine { h with
    active := h.active.congr rfl rfl rfl rfl (fun _ _ => rfl) fun _ _ => rfl
    place := fun q => ?_ }
  rcases eq_or_ne q p with rfl | hq
  · show Place _ l q (s.pc q)
    rw [hp]
    exact ⟨h.lock_of_wait hp, .inl hl⟩
  · exact (h.place q).frame (update_of_ne hq ..) fun c _ => ⟨rfl, rfl, rfl, Iff.rfl⟩

/-- The waiting loop, when the buffer is ready. -/
theorem ret (h : Inv s l) (hp : s.pc p = .wait b) (hb : Synced (s.buf b)) :
    s.block b = some (s.buf b).data ∧ b ∉ l ∧ Inv { s with
      pc := update s.pc p .user, trace := s.trace ++ [.ret p b (s.buf b) (s.block b)] } l := by
  have hl : b ∉ l := fun hl => (h.queued b hl).2.1 hb
  have hplace := h.place p
  rw [hp] at hplace
  obtain ⟨hawake, -, hblock⟩ := hplace.2.resolve_left hl
  refine ⟨hblock, hl, { h with
    active := h.active.congr rfl rfl rfl rfl (fun _ _ => rfl) fun _ _ => rfl
    queued := fun c hc => ?_
    place := (forall_update_iff s.pc fun q y => Place _ l q y).mpr
      ⟨hawake, fun q _ => (h.place q).frame rfl fun c _ => ⟨rfl, rfl, rfl, Iff.rfl⟩⟩
    returned := fun q c v d hm => ?_ }⟩
  · obtain ⟨⟨q, hq⟩, hrest⟩ := h.queued c hc
    refine ⟨⟨q, (update_of_ne (fun e : q = p => hl ?_) ..).trans hq⟩, hrest⟩
    rw [e, hp] at hq
    injection hq with hbc
    exact hbc ▸ hc
  · rcases List.mem_append.mp hm with hm | hm
    · exact h.returned q c v d hm
    · cases List.mem_singleton.mp hm
      exact ⟨hb, hblock⟩

variable [DecidableEq B]

/-- A buffer comes into the queue; what the controller does about it is left open. -/
theorem push [Fintype B] (h : Inv s l) (hp : s.pc p = .enter b) (hs : s'.panic = none)
    (hlink : s'.link = Chain.append s.link (Fintype.card B) b) (hbuf : s'.buf = s.buf)
    (hlock : s'.lock = s.lock) (hpc : s'.pc = update s.pc p (.wait b))
    (hsl : s'.asleep = update s.asleep p true) (harr : s'.arrived = s.arrived ++ [b])
    (hcomp : s'.completed = s.completed) (hblk : s'.block = s.block) (htr : s'.trace = s.trace)
    (hact : Active s' (l ++ [b])) : Inv s' (l ++ [b]) := by
  have hplace := h.place p
  rw [hp] at hplace
  obtain ⟨hlb, hawake, hbl, hsync, hdev⟩ := hplace
  have hmem : ∀ c, c ≠ b → (c ∈ l ++ [b] ↔ c ∈ l) := fun c hc => by simp [hc]
  refine ⟨?_, ?_, ?_, hact, fun c hc => ?_, ?_, by rw [htr]; exact h.returned, hs⟩
  · rw [hlink]
    exact h.chain.append_spec h.nodup.length_le_card h.nodup hbl
  · exact List.nodup_append.mpr ⟨h.nodup, List.nodup_singleton b, fun x hx y hy e =>
      hbl (List.mem_singleton.mp hy ▸ e ▸ hx)⟩
  · rw [harr, hcomp, h.arrived, List.append_assoc]
  · rw [hbuf, hpc]
    rcases List.mem_append.mp hc with hc | hc
    · exact h.queued_update (fun d e => by rw [hp] at e; cases e) c hc
    · obtain rfl := List.mem_singleton.mp hc
      exact ⟨⟨p, update_self ..⟩, hsync, hdev⟩
  · rw [hpc]
    refine (forall_update_iff s.pc fun q y => Place s' (l ++ [b]) q y).mpr ⟨?_, ?_⟩
    · exact ⟨by rw [hlock, hlb], .inl (by simp)⟩
    · intro q hq
      refine (h.place q).frame (by rw [hsl, update_of_ne hq]) fun c hc => ?_
      refine ⟨by rw [hlock], by rw [hbuf], by rw [hblk], hmem c ?_⟩
      rintro rfl
      exact hq (Option.some.inj ((h.lock_of_buf hc).symm.trans hlb))

omit [DecidableEq P] in
/-- The controller has done its work for the first buffer. -/
theorem finish (h : Inv s (b :: l)) {port : Option δ} {disk : Nat → δ} {d : δ}
    (hctl : s.ctl = .busy b (cmd (s.buf b))) (hd : (complete port (s.buf b)).data = d) :
    Inv { s with
      disk := disk
      ctl := .finished port
      moved := s.moved ++ [b]
      block := update s.block b (some d) } (b :: l) := by
  obtain ⟨hst, hmv⟩ : s.started = s.completed ++ [b] ∧ s.moved = s.completed := by
    cases h.active with
    | busy _ _ h₃ h₄ => exact ⟨h₃, h₄⟩
    | finished h₁ _ _ _ =>
      rw [hctl] at h₁
      cases h₁
  refine { h with
    active := .finished rfl ?_ hst (by rw [hmv])
    place := fun q => ?_ }
  · show update s.block b (some d) b = _
    rw [update_self, hd]
  · have hq := h.place q
    revert hq
    show Place s _ q (s.pc q) → Place _ _ q (s.pc q)
    cases s.pc q with
    | user => exact id
    | enter c => exact id
    | wait c =>
      refine fun hc => ⟨hc.1, ?_⟩
      rcases eq_or_ne c b with rfl | hne
      · exact .inl List.mem_cons_self
      · refine hc.2.imp_right fun hr => ⟨hr.1, hr.2.1, ?_⟩
        exact (update_of_ne hne ..).trans hr.2.2

omit [DecidableEq P] in
/-- The first buffer leaves the queue; what the controller does next is left open. -/
theorem pop (h : Inv s (b :: l)) {port : Option δ} (hctl : s.ctl = .finished port)
    (hs : s'.panic = none) (hlink : s'.link = update s.link none (s.link (some b)))
    (hbuf : s'.buf = update s.buf b (complete port (s.buf b))) (hlock : s'.lock = s.lock)
    (hpc : s'.pc = s.pc) (hsl : s'.asleep = fun p => s.asleep p && s.pc p ≠ .wait b)
    (harr : s'.arrived = s.arrived) (hcomp : s'.completed = s.completed ++ [b])
    (hblk : s'.block = s.block) (htr : s'.trace = s.trace) (hact : Active s' l) : Inv s' l := by
  obtain ⟨hbl, hnd⟩ := List.nodup_cons.mp h.nodup
  have hblock : s.block b = some (complete port (s.buf b)).data := by
    cases h.active with
    | busy h₁ =>
      rw [hctl] at h₁
      cases h₁
    | finished h₁ h₂ =>
      rw [hctl] at h₁
      injection h₁ with h₁
      rw [h₁]
      exact h₂
  have hother : ∀ c, c ≠ b → s'.buf c = s.buf c := fun c hc => by
    rw [hbuf, update_of_ne hc]
  refine ⟨?_, hnd, ?_, hact, fun c hc => ?_, fun q => ?_, by rw [htr]; exact h.returned, hs⟩
  · rw [hlink]
    exact h.chain.tail
  · rw [harr, hcomp, h.arrived, List.append_assoc, List.singleton_append]
  · rw [hpc, hother c fun e => hbl (e ▸ hc)]
    exact h.queued c (List.mem_cons_of_mem b hc)
  · have hq := h.place q
    rw [hpc]
    by_cases hqb : s.pc q = .wait b
    · rw [hqb] at hq ⊢
      refine ⟨by rw [hlock, hq.1], .inr ⟨by simp [hsl, hqb], ?_, ?_⟩⟩
      · rw [hbuf, update_self]
        exact ⟨rfl, rfl⟩
      · rw [hblk, hbuf, update_self, hblock]
    · refine hq.frame (by simp [hsl, hqb]) fun c hc => ?_
      have hcb : c ≠ b := by
        rintro rfl
        obtain ⟨⟨r, hr⟩, -⟩ := h.queued c List.mem_cons_self
        exact hqb (h.wait_unique hr hc ▸ hr)
      exact ⟨by rw [hlock], hother c hcb, by rw [hblk], by simp [hcb]⟩

end Inv

end

/-! ## 4. What the memory disk would show -/

section

variable [DecidableEq B] {s s' : State P B δ} {l : List B} {p : P} {b : B}

namespace State

/-- A buffer, with what the controller has finished already done to it. -/
def memBuf (s : State P B δ) (b : B) : Buf δ :=
  match s.ctl with
  | .finished port => if s.link none = some b then complete port (s.buf b) else s.buf b
  | _ => s.buf b

/-- A call has taken effect when its buffer is ready. -/
def memPc (buf : B → Buf δ) : Pc B → Mem.Pc B δ
  | .user => .user
  | .enter b => .called b
  | .wait b => if Synced (buf b) then .done b (buf b).data else .called b

/-- The state of the memory disk that looks the same. -/
def mem (s : State P B δ) : Mem.State P B δ where
  buf := s.memBuf
  lock := s.lock
  disk := s.disk
  pc := fun p => memPc s.memBuf (s.pc p)
  trace := s.trace
  panic := s.panic.isSome

end State

open State

theorem memBuf_of_ne (h : s.link none ≠ some b) : s.memBuf b = s.buf b := by
  unfold memBuf
  split
  · exact if_neg h
  · rfl

theorem memBuf_of_unfinished (h : ∀ port, s.ctl ≠ .finished port) : s.memBuf = s.buf := by
  funext b
  unfold memBuf
  split
  · exact absurd ‹_› (h _)
  · rfl

omit [DecidableEq B] in
theorem Inv.link_none (h : Inv s l) : s.link none = l.head? := by
  cases l with
  | nil => exact h.chain
  | cons b l => exact h.chain.1

/-- Outside the queue a buffer looks as it is. -/
theorem Inv.memBuf_of_notMem (h : Inv s l) (hb : b ∉ l) : s.memBuf b = s.buf b := by
  refine memBuf_of_ne fun e => hb ?_
  rw [h.link_none] at e
  exact List.mem_of_mem_head? e

theorem mem_running (h : Inv s l) : s.mem.panic = false := by
  simp only [mem, h.running, Option.isSome_none]

theorem mem_user (h : s.pc p = .user) : s.mem.pc p = .user := by
  simp only [mem, h, memPc]

/-- Steps that the caller does not notice. -/
theorem mem_congr (hbuf : s'.memBuf = s.memBuf) (hpc : ∀ p, memPc s.memBuf (s'.pc p) =
    memPc s.memBuf (s.pc p)) (hlock : s'.lock = s.lock) (hdisk : s'.disk = s.disk)
    (htr : s'.trace = s.trace) (hpan : s'.panic = s.panic) : s'.mem = s.mem := by
  simp only [mem, hbuf, hlock, hdisk, htr, hpan, hpc]

/-- The transfer that the controller does is the one of the memory disk. -/
theorem mem_iderw (disk : Nat → δ) {v : Buf δ} (hv : ¬ Synced v) (hdev : v.dev = ROOTDEV)
    (hn : v.blockno < FSSIZE) :
    (v.dirty = true ∧ Mem.iderw disk v = .ok (complete none v, update disk v.blockno v.data)) ∨
    (v.dirty = false ∧ Mem.iderw disk v = .ok (complete (some (disk v.blockno)) v, disk)) := by
  have hn' : ¬ FSSIZE ≤ v.blockno := Nat.not_le.mpr hn
  cases hdirty : v.dirty with
  | true => exact .inl ⟨rfl, by simp [Mem.iderw, hv, hdev, hn', hdirty, complete]⟩
  | false => exact .inr ⟨rfl, by simp [Mem.iderw, hv, hdev, hn', hdirty, complete]⟩

variable [DecidableEq P]

/-- The memory disk serves the process that waits for the first buffer of the queue. -/
theorem Inv.mem_finish (h : Inv s (b :: l)) {port : Option δ} {disk : Nat → δ} {d : δ}
    (hctl : s.ctl = .busy b (cmd (s.buf b)))
    (hmem : Mem.iderw s.disk (s.buf b) = .ok (complete port (s.buf b), disk))
    (hd : disk (s.buf b).blockno = (complete port (s.buf b)).data) :
    Mem.Step s.mem { s with
      disk := disk
      ctl := .finished port
      moved := s.moved ++ [b]
      block := update s.block b (some d) }.mem := by
  have hbuf : s.memBuf = s.buf := memBuf_of_unfinished fun _ => by
    rw [hctl]
    nofun
  obtain ⟨⟨p, hp⟩, hsync, -⟩ := h.queued b List.mem_cons_self
  have hcalled : s.mem.pc p = .called b := by
    simp only [mem, hp, memPc, hbuf, if_neg hsync]
  have hhead : s.link none = some b := h.chain.1
  have hdone : Synced (complete port (s.buf b)) := ⟨rfl, rfl⟩
  have hmemBuf : ({ s with
      disk := disk
      ctl := .finished port
      moved := s.moved ++ [b]
      block := update s.block b (some d) } : State P B δ).memBuf =
      update s.buf b (complete port (s.buf b)) := by
    funext c
    simp only [memBuf, hhead, Option.some.injEq, update_apply, eq_comm (a := b)]
    split
    · rename_i e
      rw [e]
    · rfl
  have hstep := Mem.Step.iderw (s := s.mem) (p := p) (b := b) (mem_running h) hcalled
    (by rw [show s.mem.buf = s.buf from hbuf]; exact hmem)
  convert hstep using 1
  simp only [mem, hmemBuf, hbuf, Mem.State.mk.injEq, true_and, and_true]
  funext q
  rcases eq_or_ne q p with rfl | hq
  · rw [update_self, hp]
    simp only [memPc, update_self, if_pos hdone]
    exact congrArg _ hd.symm
  · rw [update_of_ne hq]
    cases hpc : s.pc q with
    | user => rfl
    | enter c => rfl
    | wait c =>
      have hcb : c ≠ b := by
        rintro rfl
        exact hq (h.wait_unique hp (by rw [hpc, Pc.buf]))
      simp only [memPc, update_of_ne hcb]

/-! ## 5. Every step -/

/-- The orders in which buffers come, are started, are transferred and go agree. -/
structure Books (s : State P B δ) : Prop where
  moved : s.completed <+: s.moved
  started : s.moved <+: s.started
  arrived : s.started <+: s.arrived
  one : s.started.length ≤ s.completed.length + 1
  returned : ∀ p b v d, Event.ret p b v d ∈ s.trace → Synced v ∧ d = some v.data

omit [DecidableEq B] [DecidableEq P] in
theorem Inv.books (h : Inv s l) : Books s := by
  have harr := h.arrived
  cases h.active with
  | idle _ h₂ h₃ =>
    refine ⟨by rw [h₃], by rw [h₂, h₃], ?_, by rw [h₂]; omega, h.returned⟩
    rw [harr, h₂]
    exact List.prefix_append _ _
  | @busy b l _ _ h₃ h₄ =>
    refine ⟨by rw [h₄], ?_, ?_, by rw [h₃, List.length_append]; rfl, h.returned⟩
    · rw [h₄, h₃]
      exact List.prefix_append _ _
    · rw [harr, h₃, List.append_cons s.completed b l]
      exact List.prefix_append _ _
  | @finished b l _ _ _ h₃ h₄ =>
    refine ⟨?_, by rw [h₃, h₄], ?_, by rw [h₃, List.length_append]; rfl, h.returned⟩
    · rw [h₄]
      exact List.prefix_append _ _
    · rw [harr, h₃, List.append_cons s.completed b l]
      exact List.prefix_append _ _

/-- The memory disk in state `t` shows what the driver does in state `s`. -/
structure Shows (s : State P B δ) (t : Mem.State P B δ) : Prop where
  trace : t.trace = s.trace
  disk : t.disk = s.disk
  lock : t.lock = s.lock
  panic : t.panic = s.panic.isSome

/-- What a step comes to: the driver goes on, or it has panicked, and so has the memory disk. -/
inductive Next (s s' : State P B δ) : Prop
  | on {l : List B} : Inv s' l → Relation.ReflTransGen Mem.Step s.mem s'.mem → Next s s'
  | panic {t : Mem.State P B δ} : s'.panic ≠ none → Books s' →
      Relation.ReflTransGen Mem.Step s.mem t → Shows s' t → Next s s'

theorem Next.same (h : Inv s' l) (hm : s'.mem = s.mem) : Next s s' := .on h (hm ▸ .refl)

theorem Next.one (h : Inv s' l) (hm : Mem.Step s.mem s'.mem) : Next s s' := .on h (.single hm)

omit [DecidableEq P] in
theorem mem_called (hp : s.pc p = .enter b ∨ s.pc p = .wait b) (hb : ¬ Synced (s.memBuf b)) :
    s.mem.pc p = .called b := by
  rcases hp with hp | hp <;> simp only [mem, hp, memPc, if_neg hb]

/-- A block that is not on the disk stops both drivers. -/
theorem Next.outOfRange (h : Inv s l) (hp : s.pc p = .enter b ∨ s.pc p = .wait b)
    (hmem : s.memBuf b = s.buf b) (hsync : ¬ Synced (s.buf b)) (hdev : (s.buf b).dev = ROOTDEV)
    (hn : FSSIZE ≤ (s.buf b).blockno) (hpan : s'.panic = some .outOfRange) (hbooks : Books s')
    (htr : s'.trace = s.trace) (hdisk : s'.disk = s.disk) (hlock : s'.lock = s.lock) :
    Next s s' := by
  have hcalled : s.mem.pc p = .called b := mem_called hp (by rwa [hmem])
  have herr : Mem.iderw s.mem.disk (s.mem.buf b) = .error .outOfRange := by
    rw [show s.mem.buf b = s.buf b from hmem]
    simp [Mem.iderw, hsync, hdev, hn]
  exact .panic (by rw [hpan]; nofun) hbooks (.single (.panic (mem_running h) hcalled herr))
    ⟨htr.symm, hdisk.symm, hlock.symm, by rw [hpan]; rfl⟩

namespace Inv

theorem next_set (h : Inv s l) (v : Buf δ) (hb : ∀ p, s.lock b = some p → s.pc p = .user) :
    Next s { s with buf := update s.buf b v } := by
  obtain ⟨hcall, hl⟩ := h.free hb
  have hbuf : ({ s with buf := update s.buf b v } : State P B δ).memBuf =
      update s.memBuf b v := by
    funext c
    rcases eq_or_ne c b with rfl | hc
    · rw [(h.set v hb).memBuf_of_notMem hl, update_self]
      exact update_self ..
    · rw [update_of_ne hc]
      simp only [memBuf, update_of_ne hc]
  refine .one (h.set v hb) ?_
  have hstep := Mem.Step.set (s := s.mem) b v (mem_running h) fun p hp => mem_user (hb p hp)
  convert hstep using 1
  simp only [mem, hbuf, Mem.State.mk.injEq, true_and, and_true]
  funext p
  cases hp : s.pc p with
  | user => rfl
  | enter c => rfl
  | wait c =>
    have hc : c ≠ b := by
      rintro rfl
      exact hcall p (by rw [hp, Pc.buf])
    simp only [memPc, update_of_ne hc]

theorem next_iderw (h : Inv s l) (hp : s.pc p = .user) (hdev : (s.buf b).dev = ROOTDEV) :
    Next s (s.iderw p b) := by
  unfold State.iderw
  split
  · rename_i hlock
    exact .panic nofun { h.books with } (.single (.unlocked p b (mem_running h) (mem_user hp) hlock))
      ⟨rfl, rfl, rfl, rfl⟩
  · rename_i hlock
    replace hlock : s.lock b = some p := not_not.mp hlock
    have hfree := h.free (b := b) fun q hq => by
      rw [hlock] at hq
      exact Option.some.inj hq ▸ hp
    have hbuf := h.memBuf_of_notMem hfree.2
    have hcall := Mem.Step.call (s := s.mem) p b (mem_running h) (mem_user hp) hlock
    have hevent : s.mem.buf b = s.buf b := hbuf
    rw [hevent] at hcall
    dsimp only
    split
    · rename_i hsync
      have hcalled : (update s.mem.pc p (.called b)) p = .called b := update_self ..
      have herr : Mem.iderw s.mem.disk (s.mem.buf b) = .error .nothingToDo := by
        rw [hevent]
        exact if_pos hsync
      refine .panic nofun { h.books with returned := ?_ }
        ((Relation.ReflTransGen.single hcall).tail (.panic (mem_running h) hcalled herr))
        ⟨rfl, rfl, rfl, rfl⟩
      intro q c v d hm
      rcases List.mem_append.mp hm with hm | hm
      · exact h.returned q c v d hm
      · cases List.mem_singleton.mp hm
    · rename_i hsync
      refine .one (h.iderw hp hlock hsync hdev) ?_
      convert hcall using 1
      simp only [mem, Mem.State.mk.injEq, true_and, and_true]
      refine ⟨rfl, ?_⟩
      funext q
      rcases eq_or_ne q p with rfl | hq
      · rw [update_self, update_self]
        rfl
      · rw [update_of_ne hq, update_of_ne hq]
        rfl

theorem next_await (h : Inv s l) (hp : s.pc p = .wait b) : Next s (s.await p b) := by
  unfold State.await
  split
  · rename_i hsync
    obtain ⟨hblock, hl, hinv⟩ := h.ret hp hsync
    have hbuf := h.memBuf_of_notMem hl
    have hdone : s.mem.pc p = .done b (s.buf b).data := by
      simp only [mem, hp, memPc, hbuf, if_pos hsync]
    have hret := Mem.Step.ret (mem_running h) hdone
    rw [show s.mem.buf b = s.buf b from hbuf, ← hblock] at hret
    refine .one hinv ?_
    convert hret using 1
    simp only [mem, Mem.State.mk.injEq, true_and, and_true]
    refine ⟨rfl, ?_⟩
    funext q
    rcases eq_or_ne q p with rfl | hq
    · rw [update_self, update_self]
      rfl
    · rw [update_of_ne hq, update_of_ne hq]
      rfl
  · rename_i hsync
    exact .same (h.sleep hp hsync) rfl

omit [DecidableEq P] in
/-- The first link of a queue that a buffer was put into. -/
theorem append_none [Fintype B] (h : Inv s l) (hb : b ∉ l) :
    Chain.append s.link (Fintype.card B) b none = (l ++ [b]).head? := by
  have := h.chain.append_spec h.nodup.length_le_card h.nodup hb
  cases l with
  | nil => exact this.1
  | cons c l => exact this.1

theorem next_enqueue [Fintype B] (h : Inv s l) (hp : s.pc p = .enter b) :
    Next s (s.enqueue p b) := by
  have hplace := h.place p
  rw [hp] at hplace
  obtain ⟨hlb, hawake, hbl, hsync, hdev⟩ := hplace
  have hhead := h.append_none hbl
  -- whatever the controller does, the caller of `iderw` notices nothing yet
  have hquiet : ∀ q, memPc s.memBuf (update s.pc p (.wait b) q) = memPc s.memBuf (s.pc q) := by
    intro q
    rcases eq_or_ne q p with rfl | hq
    · rw [update_self, hp]
      simp only [memPc, h.memBuf_of_notMem hbl, if_neg hsync]
    · rw [update_of_ne hq]
  unfold State.enqueue
  cases l with
  | nil =>
    obtain ⟨hctl, hst, hmv⟩ : s.ctl = .ready ∧ s.started = s.completed ∧ s.moved = s.completed := by
      cases h.active with
      | idle h₁ h₂ h₃ => exact ⟨h₁, h₂, h₃⟩
    have hbuf : s.memBuf = s.buf := memBuf_of_unfinished fun _ => by
      rw [hctl]
      nofun
    have hfirst : Chain.append s.link (Fintype.card B) b none = some b := hhead
    simp only [if_pos hfirst, State.idestart]
    split
    · rename_i hn
      rw [if_neg nofun]
      refine .outOfRange h (.inl hp) (congrFun hbuf b) hsync hdev hn rfl ?_ rfl rfl rfl
      exact { h.books with arrived := h.books.arrived.trans (List.prefix_append _ _) }
    · rename_i hn
      rw [if_pos h.running, State.await, if_neg hsync]
      refine .same (h.push hp h.running rfl rfl rfl rfl rfl rfl rfl rfl rfl
        (.busy rfl (Nat.not_le.mp hn) (by rw [hst]) hmv)) (mem_congr ?_ hquiet rfl rfl rfl rfl)
      rw [hbuf]
      exact memBuf_of_unfinished nofun
  | cons c l =>
    have hc : s.link none = some c := h.chain.1
    have hlater : ¬ Chain.append s.link (Fintype.card B) b none = some b := by
      rw [hhead]
      exact fun e => hbl (Option.some.inj e ▸ List.mem_cons_self)
    simp only [if_neg hlater]
    rw [if_pos h.running, State.await, if_neg hsync]
    refine .same (h.push hp h.running rfl rfl rfl rfl rfl rfl rfl rfl rfl
      (h.active.behind.congr rfl rfl rfl rfl (fun _ _ => rfl) fun _ _ => rfl))
      (mem_congr ?_ hquiet rfl rfl rfl rfl)
    funext x
    simp only [memBuf, hhead, hc, List.cons_append, List.head?_cons]

theorem next_finish {c : Cmd δ} (h : Inv s l) (hctl : s.ctl = .busy b c) :
    Next s (s.finish b c) := by
  cases h.active with
  | idle h₁ =>
    rw [hctl] at h₁
    cases h₁
  | finished h₁ =>
    rw [hctl] at h₁
    cases h₁
  | @busy b' l' h₁ hn hst hmv =>
    rw [hctl] at h₁
    injection h₁ with hb hc
    subst hb hc
    obtain ⟨-, hsync, hdev⟩ := h.queued b List.mem_cons_self
    rcases mem_iderw s.disk hsync hdev hn with ⟨hdirty, hmem⟩ | ⟨hdirty, hmem⟩
    · have hd : (complete none (s.buf b)).data = (s.buf b).data := by simp [complete, hdirty]
      rw [cmd, if_pos hdirty, State.finish]
      exact .one (h.finish hctl hd) (h.mem_finish hctl hmem (by rw [update_self, hd]))
    · have hd : (complete (some (s.disk (s.buf b).blockno)) (s.buf b)).data =
          s.disk (s.buf b).blockno := by simp [complete, hdirty]
      rw [cmd, if_neg (by simp [hdirty]), State.finish]
      exact .one (h.finish hctl hd) (h.mem_finish hctl hmem hd.symm)

theorem next_ideintr {port : Option δ} (h : Inv s l) (hctl : s.ctl = .finished port) :
    Next s (s.ideintr port) := by
  cases h.active with
  | idle h₁ =>
    rw [hctl] at h₁
    cases h₁
  | busy h₁ =>
    rw [hctl] at h₁
    cases h₁
  | @finished b l _ h₁ hblk hst hmv =>
    have hhead : s.link none = some b := h.chain.1
    have hbl : b ∉ l := (List.nodup_cons.mp h.nodup).1
    -- the buffer becomes what the memory disk has already made of it
    have hbuf : s.memBuf = update s.buf b (complete port (s.buf b)) := by
      funext c
      simp only [memBuf, hctl, hhead, Option.some.injEq, update_apply, eq_comm (a := b)]
      split
      · rename_i e
        rw [e]
      · rfl
    simp only [State.ideintr, hhead, update_self]
    cases l with
    | nil =>
      rw [show s.link (some b) = none from h.chain.2]
      refine .same (h.pop hctl h.running (by rw [show s.link (some b) = none from h.chain.2]) rfl
        rfl rfl rfl rfl rfl rfl rfl (.idle rfl hst hmv)) (mem_congr ?_ (fun _ => rfl) rfl rfl rfl rfl)
      rw [hbuf]
      exact memBuf_of_unfinished nofun
    | cons c l =>
      have hnext : s.link (some b) = some c := h.chain.2.1
      have hcb : c ≠ b := fun e => hbl (e ▸ List.mem_cons_self)
      obtain ⟨⟨q, hq⟩, hsync, hdev⟩ := h.queued c (by simp)
      simp only [hnext, State.idestart, update_of_ne hcb]
      split
      · rename_i hn
        have hmem : s.memBuf c = s.buf c := by rw [hbuf, update_of_ne hcb]
        refine .outOfRange h (.inr hq) hmem hsync hdev hn rfl ?_ rfl rfl rfl
        exact { h.books with
          moved := by rw [hmv]
          started := by rw [hst, hmv]
          one := by rw [hst]; exact Nat.le_succ _ }
      · rename_i hn
        refine .same (h.pop hctl h.running (by rw [hnext]) rfl rfl rfl rfl rfl rfl rfl rfl
          (.busy ?_ ?_ (by rw [hst]) hmv)) (mem_congr ?_ (fun _ => rfl) rfl rfl rfl rfl)
        · exact congrArg (fun v => Ctl.busy c (cmd v)) (update_of_ne hcb ..).symm
        · show (update s.buf b _ c).blockno < FSSIZE
          rw [update_of_ne hcb]
          exact Nat.not_le.mp hn
        · rw [hbuf]
          exact memBuf_of_unfinished nofun

/-- **What one step comes to.** -/
theorem next [Fintype B] (h : Inv s l) {a : Act P B δ} (hs : s.step a = some s') : Next s s' := by
  unfold State.step at hs
  rw [if_neg (by rw [h.running]; nofun)] at hs
  cases a with
  | acquiresleep p b =>
    simp only [Option.ite_none_right_eq_some, Option.some.injEq] at hs
    obtain ⟨hb, rfl⟩ := hs
    exact .one (h.acquiresleep hb) (.acquiresleep p b (mem_running h) hb)
  | releasesleep p b =>
    simp only [Option.ite_none_right_eq_some, Option.some.injEq] at hs
    obtain ⟨⟨hb, hp⟩, rfl⟩ := hs
    exact .one (h.releasesleep hb hp) (.releasesleep p b (mem_running h) hb (mem_user hp))
  | set b v =>
    simp only [Option.ite_none_left_eq_some, Option.some.injEq] at hs
    obtain ⟨hb, rfl⟩ := hs
    refine h.next_set v fun p hp => ?_
    simpa [State.inUse, hp] using hb
  | iderw p b =>
    simp only [Option.ite_none_right_eq_some, Option.some.injEq] at hs
    obtain ⟨⟨hp, hdev⟩, rfl⟩ := hs
    exact h.next_iderw hp hdev
  | enqueue p =>
    dsimp only at hs
    split at hs
    · obtain rfl := Option.some.inj hs
      exact h.next_enqueue ‹_›
    · cases hs
  | go p =>
    dsimp only at hs
    split at hs
    · simp only [Option.ite_none_left_eq_some, Option.some.injEq] at hs
      obtain ⟨-, rfl⟩ := hs
      exact h.next_await ‹_›
    · cases hs
  | finish =>
    dsimp only at hs
    split at hs
    · obtain rfl := Option.some.inj hs
      exact h.next_finish ‹_›
    · cases hs
  | ideintr =>
    dsimp only at hs
    split at hs
    · obtain rfl := Option.some.inj hs
      exact h.next_ideintr ‹_›
    · cases hs
  | kill p =>
    obtain rfl := Option.some.inj hs
    exact .same h.kill rfl

end Inv

/-! ## 6. The driver is a disk -/

omit [DecidableEq B] [DecidableEq P] in
theorem inv_start (buf : B → Buf δ) (disk : Nat → δ) : Inv (start buf disk : State P B δ) [] where
  chain := rfl
  nodup := List.nodup_nil
  arrived := rfl
  active := .idle rfl rfl rfl
  queued := nofun
  place := fun _ => rfl
  returned := nofun
  running := rfl

variable {buf : B → Buf δ} {disk : Nat → δ}

theorem Mem.Reach.steps {t t' : Mem.State P B δ} (h : Mem.Reach buf disk t)
    (hs : Relation.ReflTransGen Mem.Step t t') : Mem.Reach buf disk t' := by
  induction hs with
  | refl => exact h
  | tail _ hstep ih => exact ih.step hstep

variable [Fintype B]

/-- The driver is in order, or it has panicked. -/
theorem Reach.inv (h : Reach buf disk s) : (∃ l, Inv s l ∧ Mem.Reach buf disk s.mem) ∨
    s.panic ≠ none ∧ Books s ∧ ∃ t, Mem.Reach buf disk t ∧ Shows s t := by
  induction h with
  | start =>
    refine .inl ⟨[], inv_start buf disk, ?_⟩
    exact Mem.Reach.start
  | @step s s' a _ hs ih =>
    rcases ih with ⟨l, hi, hm⟩ | ⟨hpan, -, -⟩
    · rcases hi.next hs with ⟨hi', hsteps⟩ | ⟨hpan, hb, hsteps, ht⟩
      · exact .inl ⟨_, hi', hm.steps hsteps⟩
      · exact .inr ⟨hpan, hb, _, hm.steps hsteps, ht⟩
    · unfold State.step at hs
      rw [if_pos hpan] at hs
      cases hs

/-- **The driver does what the memory disk does.** -/
structure LikeMem (buf : B → Buf δ) (disk : Nat → δ) (s : State P B δ) : Prop where
  /-- Some run of the memory disk has the same calls, which return the same, and leaves the same on
  the disk; and it panics if the driver has. -/
  refines : ∃ t, Mem.Reach buf disk t ∧ t.trace = s.trace ∧ t.disk = s.disk ∧ t.lock = s.lock ∧
    t.panic = s.panic.isSome
  /-- The buffers are started in the order in which they came, each of them once, and none is
  transferred before it is started or leaves the queue before it is transferred. -/
  fifo : s.completed <+: s.moved ∧ s.moved <+: s.started ∧ s.started <+: s.arrived
  /-- One is started at a time. -/
  one : s.started.length ≤ s.completed.length + 1
  /-- A buffer that came is in the queue until it leaves it ready; its process does not sleep any
  longer than that; and the first of the queue moves on. -/
  notLost : s.panic = none → ∃ l, Chain s.link none l ∧ s.arrived = s.completed ++ l ∧
    (∀ p b, s.pc p = .wait b → b ∈ l ∨ s.asleep p = false ∧ Synced (s.buf b)) ∧
    (l ≠ [] → s.step .finish ≠ none ∨ s.step .ideintr ≠ none)
  /-- On return the buffer is valid and not dirty, and is what was in the block on the disk when
  the call took effect. -/
  returned : ∀ p b v d, Event.ret p b v d ∈ s.trace → Synced v ∧ d = some v.data

theorem iderw_like_mem (h : Reach buf disk s) : LikeMem buf disk s := by
  rcases h.inv with ⟨l, hi, hm⟩ | ⟨hpan, hb, t, hm, ht⟩
  · have hb := hi.books
    refine ⟨⟨s.mem, hm, rfl, rfl, rfl, rfl⟩, ⟨hb.moved, hb.started, hb.arrived⟩, hb.one,
      fun _ => ⟨l, hi.chain, hi.arrived, fun p b hp => ?_, fun hl => ?_⟩, hb.returned⟩
    · have hplace := hi.place p
      rw [hp] at hplace
      exact hplace.2.imp_right fun hr => ⟨hr.1, hr.2.1⟩
    · cases hi.active with
      | idle => exact absurd rfl hl
      | busy h₁ =>
        left
        simp [State.step, hi.running, h₁]
      | finished h₁ =>
        right
        simp [State.step, hi.running, h₁]
  · exact ⟨⟨t, hm, ht.trace, ht.disk, ht.lock, ht.panic⟩, ⟨hb.moved, hb.started, hb.arrived⟩,
      hb.one, fun hn => absurd hn hpan, hb.returned⟩

/-- The state after a list of steps, if each is possible. -/
def exec (s : State P B δ) : List (Act P B δ) → Option (State P B δ)
  | [] => some s
  | a :: as => (s.step a).bind fun s => exec s as

theorem reach_exec : ∀ {as : List (Act P B δ)} {s s' : State P B δ}, Reach buf disk s →
    exec s as = some s' → Reach buf disk s'
  | [], _, _, h, he => Option.some.inj he ▸ h
  | a :: as, s, s', h, he => by
    obtain ⟨s₁, hs, he⟩ := Option.bind_eq_some_iff.mp he
    exact reach_exec (h.step hs) he

end

/-- Buffer 0 is dirty and holds block 5; buffer 1 is to read the same block. -/
def twoBufs : Fin 2 → Buf Nat
  | 0 => ⟨true, true, ROOTDEV, 5, 1, 42⟩
  | 1 => ⟨false, false, ROOTDEV, 5, 1, 0⟩

/-- A write and a read of one block; the second process comes while the first command runs. -/
def writeRead : List (Act (Fin 2) (Fin 2) Nat) :=
  [.acquiresleep 0 0, .acquiresleep 1 1, .iderw 0 0, .iderw 1 1, .enqueue 0, .enqueue 1, .finish,
    .ideintr, .go 0, .finish, .kill 1, .go 1, .ideintr, .go 1]

theorem iderw_like_mem_writeRead :
    ∃ s, exec (start twoBufs fun _ => 0) writeRead = some s ∧ s.arrived = [0, 1] ∧
      (s.buf 1).data = 42 ∧ ∃ t : Mem.State (Fin 2) (Fin 2) Nat,
        Mem.Reach twoBufs (fun _ => 0) t ∧ t.trace = s.trace := by
  have hrun : (exec (start twoBufs fun _ => 0) writeRead).any
      (fun s => s.arrived = [0, 1] ∧ (s.buf 1).data = 42) = true := by decide +kernel
  obtain ⟨s, hs, hcheck⟩ := (Option.any_eq_true _ _).mp hrun
  obtain ⟨harr, hdata⟩ := of_decide_eq_true hcheck
  obtain ⟨t, ht, htr, -⟩ := (iderw_like_mem (reach_exec .start hs)).refines
  exact ⟨s, hs, harr, hdata, t, ht, htr⟩

end Xv6.Ide
