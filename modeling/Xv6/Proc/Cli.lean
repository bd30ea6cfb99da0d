/-
# Interrupts and spinlocks on one CPU

`spinlock.c` and the switch of `proc.c`.  `pushcli` turns interrupts off and counts; the first one
keeps the interrupt flag in `intena`, and the `popcli` that undoes it puts the flag back.  A spinlock
stands for one `pushcli`, and locks need not be released in the order in which they were taken.

`ncli` and `intena` belong to the CPU, while the sections that they count belong to kernel threads.
Where a thread gives the CPU away it holds `ptable.lock` and nothing else, so `ncli` is 1 on both
sides of the switch, and `sched` keeps `intena` in a local variable.  The scheduler's own `swtch` and
the start of a new process do not (`saved` is `none` for them).

Beside the CPU the state has an account for each thread: its calls of `pushcli` without a `popcli`,
its locks, and the interrupt flag before the push that raised its count from 0, as long as every
switch since then keeps it (`before`).

* `Inv.step`: what every call keeps.
* `interrupts_restored`: `ncli` is the count of the running thread, interrupts are off while it is not
  0, they are afterwards what they were before, and `popcli` does not panic.
-/
import Mathlib.Data.Finset.Card
import Xv6.Lib.Wp

namespace Xv6.Cli

open Function (update update_eq_self update_of_ne update_self)

/-! ## 1. The code -/

inductive Panic
  /-- "mycpu called with interrupts enabled" -/
  | mycpu
  /-- "popcli - interruptible" -/
  | interruptible
  /-- "popcli" -/
  | popcli
  /-- "acquire" -/
  | acquire
  /-- Not a panic: on one CPU the loop around `xchg` does not end if the lock is taken. -/
  | spins
  /-- "release" -/
  | release
  /-- "sched ptable.lock" -/
  | schedLock
  /-- "sched locks" -/
  | schedLocks
  /-- "sched interruptible" -/
  | schedInterruptible
  deriving DecidableEq, Repr

/-- The CPU, the locks, and what the threads keep on their stacks. -/
structure Cpu (Thread Lock : Type) where
  /-- `eflags & FL_IF`. -/
  flag : Bool
  ncli : Int
  intena : Bool
  locked : Lock → Bool
  /-- `lk->cpu` is this CPU. -/
  owned : Lock → Bool
  /-- The running thread. -/
  cur : Thread
  /-- The local variable `intena` of a thread that is in `sched`. -/
  saved : Thread → Option Bool

section

variable {Thread Lock : Type}

abbrev CliM (Thread Lock : Type) := StateT (Cpu Thread Lock) (Except Panic)

/-- `mycpu`, of which only the check matters here. -/
def mycpu : CliM Thread Lock Unit := do
  if (← get).flag then
    throw .mycpu

def pushcli : CliM Thread Lock Unit := do
  let eflags := (← get).flag
  modify fun c => { c with flag := false }
  mycpu
  if (← get).ncli = 0 then
    modify fun c => { c with intena := eflags }
  modify fun c => { c with ncli := c.ncli + 1 }

def popcli : CliM Thread Lock Unit := do
  if (← get).flag then
    throw .interruptible
  mycpu
  modify fun c => { c with ncli := c.ncli - 1 }
  if (← get).ncli < 0 then
    throw .popcli
  if (← get).ncli = 0 ∧ (← get).intena then
    modify fun c => { c with flag := true }

def holding (l : Lock) : CliM Thread Lock Bool := do
  pushcli
  let c ← get
  mycpu
  popcli
  return c.locked l && c.owned l

/-- `myproc`, whose answer is the running thread. -/
def myproc : CliM Thread Lock Thread := do
  pushcli
  mycpu
  let c ← get
  popcli
  return c.cur

variable [DecidableEq Lock] [DecidableEq Thread]

def acquire (l : Lock) : CliM Thread Lock Unit := do
  pushcli
  if ← holding l then
    throw .acquire
  if (← get).locked l then
    throw .spins
  modify fun c => { c with locked := Function.update c.locked l true }
  mycpu
  modify fun c => { c with owned := Function.update c.owned l true }

def release (l : Lock) : CliM Thread Lock Unit := do
  if !(← holding l) then
    throw .release
  modify fun c => { c with owned := Function.update c.owned l false }
  modify fun c => { c with locked := Function.update c.locked l false }
  popcli

/-- `swtch`, up to where the thread `t` goes on: a thread in `sched` sets `intena`. -/
def swtch (t : Thread) : CliM Thread Lock Unit :=
  modify fun c => { c with cur := t, intena := (c.saved t).getD c.intena }

/-- `sched`, without the check of `p->state`. -/
def sched (ptable : Lock) (t : Thread) : CliM Thread Lock Unit := do
  let p ← myproc
  if !(← holding ptable) then
    throw .schedLock
  mycpu
  if (← get).ncli ≠ 1 then
    throw .schedLocks
  if (← get).flag then
    throw .schedInterruptible
  modify fun c => { c with saved := Function.update c.saved p (some c.intena) }
  swtch t

/-- The switch in `scheduler`. -/
def schedulerSwtch (t : Thread) : CliM Thread Lock Unit := do
  modify fun c => { c with saved := Function.update c.saved c.cur none }
  swtch t

end

/-! ## 2. Runs -/

inductive Act (Thread Lock : Type)
  | pushcli
  | popcli
  | acquire (l : Lock)
  | release (l : Lock)
  | swtch (t : Thread)
  /-- Outside of all sections the flag can change: `sti`, an interrupt, the return from one. -/
  | setFlag (b : Bool)

structure State (Thread Lock : Type) where
  cpu : Cpu Thread Lock
  pushes : Thread → Nat
  holds : Thread → Finset Lock
  before : Thread → Option Bool

section

variable {Thread Lock : Type} [DecidableEq Lock] [DecidableEq Thread]

-- the threads for which `saves` is true give the CPU away by calling `sched`
variable (saves : Thread → Bool) (ptable : Lock)

def code (s : State Thread Lock) : Act Thread Lock → CliM Thread Lock Unit
  | .pushcli => pushcli
  | .popcli => popcli
  | .acquire l => acquire l
  | .release l => release l
  | .swtch t => if saves s.cpu.cur then sched ptable t else schedulerSwtch t
  | .setFlag b => modify fun c => { c with flag := b }

/-- Pops do not exceed pushes, a lock is released by its holder, and the scheduler switches with
`ptable.lock` and nothing else. -/
def Legal (s : State Thread Lock) : Act Thread Lock → Prop
  | .pushcli => True
  | .popcli => 0 < s.pushes s.cpu.cur
  | .acquire _ => True
  | .release l => l ∈ s.holds s.cpu.cur
  | .swtch t => t ≠ s.cpu.cur ∧
      (saves s.cpu.cur = false → s.holds s.cpu.cur = {ptable} ∧ s.pushes s.cpu.cur = 0)
  | .setFlag _ => s.cpu.ncli = 0

/-- The flag before a push that raises the count from 0. -/
def State.mark (s : State Thread Lock) : Thread → Option Bool :=
  if s.cpu.ncli = 0 then Function.update s.before s.cpu.cur (some s.cpu.flag) else s.before

/-- The accounts after a call that has left the CPU in the state `c`. -/
def State.account (s : State Thread Lock) (c : Cpu Thread Lock) : Act Thread Lock → State Thread Lock
  | .pushcli => { s with
      cpu := c, pushes := Function.update s.pushes s.cpu.cur (s.pushes s.cpu.cur + 1), before := s.mark }
  | .popcli => { s with
      cpu := c, pushes := Function.update s.pushes s.cpu.cur (s.pushes s.cpu.cur - 1) }
  | .acquire l => { s with
      cpu := c, holds := Function.update s.holds s.cpu.cur (insert l (s.holds s.cpu.cur)),
      before := s.mark }
  | .release l => { s with
      cpu := c, holds := Function.update s.holds s.cpu.cur ((s.holds s.cpu.cur).erase l) }
  | .swtch _ => { s with
      cpu := c, before := if saves s.cpu.cur then s.before
        else Function.update s.before s.cpu.cur none }
  | .setFlag _ => { s with cpu := c }

theorem State.account_cpu (s : State Thread Lock) (c : Cpu Thread Lock) (a : Act Thread Lock) :
    (s.account saves c a).cpu = c := by
  cases a <;> rfl

/-- One call. -/
def step (s : State Thread Lock) (a : Act Thread Lock) : Except Panic (State Thread Lock) :=
  (code saves ptable s a s.cpu).map fun x => s.account saves x.2 a

/-- The beginning: the running thread is in no section, no lock is taken, and the other threads wait
in a switch.  Those that wait in `sched` have kept the flag. -/
structure Start (s : State Thread Lock) : Prop where
  ncli : s.cpu.ncli = 0
  pushes : ∀ t, s.pushes t = 0
  holds : ∀ t, s.holds t = if t = s.cpu.cur then ∅ else {ptable}
  locked : ∀ l, s.cpu.locked l = false
  owned : ∀ l, s.cpu.owned l = false
  before : ∀ t, t ≠ s.cpu.cur → s.before t = s.cpu.saved t

inductive Reach (s₀ : State Thread Lock) : State Thread Lock → Prop
  | start : Reach s₀ s₀
  | step {s s' : State Thread Lock} (a : Act Thread Lock) (h : Reach s₀ s)
      (legal : Legal saves ptable s a) (run : step saves ptable s a = .ok s') : Reach s₀ s'

end

/-! ## 3. What the functions do -/

section

variable {Thread Lock : Type} {c : Cpu Thread Lock} {l : Lock} {E : Panic → Prop}

/-- A CPU outside of `popcli`'s panics: interrupts are off in a section. -/
structure Cpu.Quiet (c : Cpu Thread Lock) : Prop where
  nonneg : 0 ≤ c.ncli
  off : 0 < c.ncli → c.flag = false

/-- After `pushcli`. -/
def Cpu.pushed (c : Cpu Thread Lock) : Cpu Thread Lock :=
  { c with flag := false, ncli := c.ncli + 1, intena := if c.ncli = 0 then c.flag else c.intena }

/-- After `popcli`. -/
def Cpu.popped (c : Cpu Thread Lock) : Cpu Thread Lock :=
  { c with flag := decide (c.ncli = 1) && c.intena, ncli := c.ncli - 1 }

theorem wp_mycpu {Q : Unit → Cpu Thread Lock → Prop} (h : c.flag = false) :
    wp mycpu Q E c ↔ Q () c := by
  simp [mycpu, h]

theorem wp_pushcli {Q : Unit → Cpu Thread Lock → Prop} :
    wp pushcli Q E c ↔ Q () c.pushed := by
  by_cases h : c.ncli = 0 <;> simp [pushcli, mycpu, Cpu.pushed, h]

theorem wp_popcli {Q : Unit → Cpu Thread Lock → Prop} (hflag : c.flag = false) (hn : 0 < c.ncli) :
    wp popcli Q E c ↔ Q () c.popped := by
  have hge : 1 ≤ c.ncli := hn
  have hone : c.ncli - 1 = 0 ↔ c.ncli = 1 := by omega
  by_cases h : c.ncli = 1 <;> cases hi : c.intena <;>
    simp [popcli, mycpu, Cpu.popped, hflag, hge, hone, h, hi]

/-- A push and a pop leave a trace in `intena`, if the CPU is in no section. -/
def Cpu.peeked (c : Cpu Thread Lock) : Cpu Thread Lock :=
  { c with intena := if c.ncli = 0 then c.flag else c.intena }

theorem Cpu.Quiet.popped_pushed (h : c.Quiet) : c.pushed.popped = c.peeked := by
  have hnonneg := h.nonneg
  simp only [Cpu.pushed, Cpu.popped, Cpu.peeked, Int.add_sub_cancel]
  congr 1
  by_cases hz : c.ncli = 0
  · simp [hz]
  · have hflag := h.off (by omega)
    simp [hz, hflag]

theorem Cpu.Quiet.peeked (h : c.Quiet) : c.peeked.Quiet := ⟨h.nonneg, h.off⟩

theorem Cpu.peeked_of_pos (h : 0 < c.ncli) : c.peeked = c := by
  rw [Cpu.peeked, if_neg (by omega)]

theorem wp_holding {Q : Bool → Cpu Thread Lock → Prop} (h : c.Quiet) :
    wp (holding l) Q E c ↔ Q (c.locked l && c.owned l) c.peeked := by
  have hpos : 0 < c.pushed.ncli := by
    have hnonneg := h.nonneg
    exact Int.lt_add_one_of_le hnonneg
  have hflag : c.pushed.flag = false := rfl
  simp only [holding, wp_bind, wp_pushcli, wp_get, wp_mycpu hflag, wp_popcli hflag hpos, wp_pure,
    h.popped_pushed]
  rfl

theorem wp_myproc {Q : Thread → Cpu Thread Lock → Prop} (h : c.Quiet) :
    wp myproc Q E c ↔ Q c.cur c.peeked := by
  have hpos : 0 < c.pushed.ncli := by
    have hnonneg := h.nonneg
    exact Int.lt_add_one_of_le hnonneg
  have hflag : c.pushed.flag = false := rfl
  simp only [myproc, wp_bind, wp_pushcli, wp_get, wp_mycpu hflag, wp_popcli hflag hpos, wp_pure,
    h.popped_pushed]
  rfl

variable [DecidableEq Lock]

/-- The lock is taken, or given back. -/
def Cpu.setLock (c : Cpu Thread Lock) (l : Lock) (b : Bool) : Cpu Thread Lock :=
  { c with locked := Function.update c.locked l b, owned := Function.update c.owned l b }

theorem wp_acquire {Q : Unit → Cpu Thread Lock → Prop} (h : c.Quiet)
    (hown : c.owned l = c.locked l) : wp (acquire l) Q E c ↔
      (c.locked l = true → E .acquire) ∧ (c.locked l = false → Q () (c.pushed.setLock l true)) := by
  have hpos : 0 < c.pushed.ncli := by
    have hnonneg := h.nonneg
    exact Int.lt_add_one_of_le hnonneg
  have hquiet : c.pushed.Quiet := ⟨hpos.le, fun _ => rfl⟩
  have hlocked : c.pushed.locked l = c.locked l := rfl
  have howned : c.pushed.owned l = c.locked l := hown
  simp only [acquire, wp_bind, wp_pushcli, wp_holding hquiet, Cpu.peeked_of_pos hpos, hlocked, howned]
  cases hl : c.locked l with
  | true => simp
  | false =>
    have hfree : c.pushed.locked l = false := hl
    have hflag : c.pushed.flag = false := rfl
    simp [hfree, hflag, mycpu, Cpu.setLock]

theorem wp_release {Q : Unit → Cpu Thread Lock → Prop} (h : c.Quiet) (hpos : 0 < c.ncli)
    (hlocked : c.locked l = true) (howned : c.owned l = true) :
    wp (release l) Q E c ↔ Q () (c.setLock l false).popped := by
  have hflag := h.off hpos
  have hpop : wp popcli Q E (c.setLock l false) ↔ Q () (c.setLock l false).popped :=
    wp_popcli hflag hpos
  simp [release, wp_holding h, hlocked, howned, Cpu.peeked_of_pos hpos]
  exact hpop

omit [DecidableEq Lock] in
/-- A thread that goes through `sched` holds `ptable.lock`, and its count is 1. -/
theorem wp_sched [DecidableEq Thread] {Q : Unit → Cpu Thread Lock → Prop} {t : Thread} (h : c.Quiet)
    (hsection : c.locked l = true → 0 < c.ncli) (hlock : E .schedLock) (hlocks : E .schedLocks)
    (hQ : c.locked l = true → c.ncli = 1 → Q () { c with
      cur := t, saved := update c.saved c.cur (some c.intena),
      intena := (update c.saved c.cur (some c.intena) t).getD c.intena }) :
    wp (sched l t) Q E c := by
  simp only [sched, wp_bind, wp_myproc h, wp_holding h.peeked]
  by_cases hl : (c.locked l && c.owned l) = true
  · have hlocked : c.locked l = true := (Bool.and_eq_true_iff.mp hl).1
    have hpos := hsection hlocked
    have hflag := h.off hpos
    simp only [Cpu.peeked_of_pos hpos, hl, Bool.not_true, Bool.false_eq_true, if_false, wp_bind,
      wp_mycpu hflag, wp_get, wp_ite, wp_throw, hflag]
    exact ⟨fun _ => hlocks, fun hone => ⟨fun hc => absurd hc (by decide), fun _ =>
      hQ hlocked (not_not.mp hone)⟩⟩
  · have hnot : (c.peeked.locked l && c.peeked.owned l) = false := Bool.eq_false_iff.mpr hl
    simp only [hnot, Bool.not_false, wp_ite]
    exact ⟨fun _ => hlock, fun hc => absurd trivial hc⟩

end

/-! ## 4. The invariant -/

section

variable {Thread Lock : Type} {saves : Thread → Bool} {ptable : Lock} {full : Prop}

/-- The count of a thread: its pushes, and one for each lock. -/
def State.count (s : State Thread Lock) (t : Thread) : Nat := s.pushes t + (s.holds t).card

/-- `full` stands for: every switch keeps `intena`. -/
structure Inv (ptable : Lock) (full : Prop) (s : State Thread Lock) : Prop where
  count : s.cpu.ncli = s.count s.cpu.cur
  off : 0 < s.cpu.ncli → s.cpu.flag = false
  locked : ∀ l, s.cpu.locked l = true ↔ l ∈ s.holds s.cpu.cur
  owned : ∀ l, s.cpu.owned l = s.cpu.locked l
  /-- The other threads wait in a switch, with `ptable.lock` in their account. -/
  waiting : ∀ t, t ≠ s.cpu.cur → s.holds t = {ptable} ∧ s.pushes t = 0
  /-- The flag of the running thread is in `intena`, those of the others on their stacks. -/
  flag : 0 < s.cpu.ncli → ∀ b, s.before s.cpu.cur = some b → s.cpu.intena = b
  saved : ∀ t, t ≠ s.cpu.cur → ∀ b, s.before t = some b → s.cpu.saved t = some b
  known : full → (0 < s.cpu.ncli → (s.before s.cpu.cur).isSome) ∧
    ∀ t, t ≠ s.cpu.cur → (s.before t).isSome

/-- The panics of `popcli`, and the one in `mycpu`. -/
def OfPopcli : Panic → Prop
  | .popcli | .interruptible | .mycpu => True
  | _ => False

variable {s : State Thread Lock}

theorem Inv.quiet (h : Inv ptable full s) : s.cpu.Quiet :=
  ⟨by rw [h.count]; exact Int.natCast_nonneg _, h.off⟩

theorem Inv.section_of_mem {l : Lock} (h : Inv ptable full s) (hl : l ∈ s.holds s.cpu.cur) :
    0 < s.cpu.ncli := by
  rw [h.count, State.count]
  have hcard := Finset.card_pos.mpr ⟨l, hl⟩
  omega

variable [DecidableEq Thread]

theorem State.mark_of_ne {t : Thread} (h : t ≠ s.cpu.cur) : s.mark t = s.before t := by
  rw [State.mark]
  split
  · exact update_of_ne h ..
  · rfl

/-- A push: the first of a section keeps the flag. -/
theorem Inv.mark_cur (h : Inv ptable full s) {b : Bool} (hb : s.mark s.cpu.cur = some b) :
    s.cpu.pushed.intena = b := by
  rw [State.mark] at hb
  rw [Cpu.pushed]
  split at hb
  next hz =>
    rw [update_self, Option.some_inj] at hb
    rw [← hb]
    exact if_pos hz
  next hz =>
    have hpos : 0 < s.cpu.ncli := lt_of_le_of_ne h.quiet.nonneg (Ne.symm hz)
    rw [← h.flag hpos b hb]
    exact if_neg hz

theorem Inv.mark_known (h : Inv ptable full s) (hfull : full) : (s.mark s.cpu.cur).isSome := by
  rw [State.mark]
  split
  next => rw [update_self]; rfl
  next hz =>
    exact (h.known hfull).1 (lt_of_le_of_ne h.quiet.nonneg (Ne.symm hz))

/-- What a push and a pop have in common: the threads that wait are left alone. -/
structure Near (s s' : State Thread Lock) : Prop where
  cur : s'.cpu.cur = s.cpu.cur
  saved : s'.cpu.saved = s.cpu.saved
  pushes : ∀ t, t ≠ s.cpu.cur → s'.pushes t = s.pushes t
  holds : ∀ t, t ≠ s.cpu.cur → s'.holds t = s.holds t
  before : ∀ t, t ≠ s.cpu.cur → s'.before t = s.before t
  locked : ∀ l, s'.cpu.locked l = true ↔ l ∈ s'.holds s.cpu.cur
  owned : ∀ l, s'.cpu.owned l = s'.cpu.locked l

variable {s' : State Thread Lock}

omit [DecidableEq Thread] in
theorem Inv.near (h : Inv ptable full s) (hn : Near s s')
    (hcount : s'.cpu.ncli = s'.count s.cpu.cur) (hoff : 0 < s'.cpu.ncli → s'.cpu.flag = false)
    (hflag : 0 < s'.cpu.ncli → ∀ b, s'.before s.cpu.cur = some b → s'.cpu.intena = b)
    (hknown : full → 0 < s'.cpu.ncli → (s'.before s.cpu.cur).isSome) : Inv ptable full s' := by
  have hne : ∀ {t}, t ≠ s'.cpu.cur → t ≠ s.cpu.cur := fun ht => hn.cur ▸ ht
  constructor
  · rw [hn.cur, hcount]
  · exact hoff
  · rw [hn.cur]
    exact hn.locked
  · exact hn.owned
  · intro t ht
    rw [hn.pushes t (hne ht), hn.holds t (hne ht)]
    exact h.waiting t (hne ht)
  · rw [hn.cur]
    exact hflag
  · intro t ht b hb
    rw [hn.before t (hne ht)] at hb
    rw [hn.saved]
    exact h.saved t (hne ht) b hb
  · intro hfull
    rw [hn.cur]
    refine ⟨hknown hfull, fun t ht => ?_⟩
    rw [hn.before t ht]
    exact (h.known hfull).2 t ht

/-- The invariant after a push. -/
theorem Inv.push (h : Inv ptable full s) (hn : Near s s') (hncli : s'.cpu.ncli = s.cpu.ncli + 1)
    (hflag : s'.cpu.flag = false) (hintena : s'.cpu.intena = s.cpu.pushed.intena)
    (hbefore : s'.before = s.mark) (hcount : s'.count s.cpu.cur = s.count s.cpu.cur + 1) :
    Inv ptable full s' := by
  refine h.near hn ?_ (fun _ => hflag) (fun _ b hb => ?_) fun hfull _ => ?_
  · rw [hncli, hcount, h.count]
    rfl
  · rw [hbefore] at hb
    rw [hintena, h.mark_cur hb]
  · rw [hbefore]
    exact h.mark_known hfull

omit [DecidableEq Thread] in
/-- The invariant after a pop.  The last one of a section puts the flag back. -/
theorem Inv.pop (h : Inv ptable full s) (hn : Near s s') (hncli : s'.cpu.ncli = s.cpu.ncli - 1)
    (hflag : s'.cpu.flag = (decide (s.cpu.ncli = 1) && s.cpu.intena))
    (hintena : s'.cpu.intena = s.cpu.intena) (hbefore : s'.before = s.before)
    (hcount : s'.count s.cpu.cur + 1 = s.count s.cpu.cur) :
    Inv ptable full s' ∧
      (0 < s.cpu.ncli → s'.cpu.ncli = 0 → ∀ b, s.before s.cpu.cur = some b → s'.cpu.flag = b) := by
  refine ⟨h.near hn ?_ (fun hpos => ?_) (fun hpos b hb => ?_) fun hfull hpos => ?_,
    fun hpos hzero b hb => ?_⟩
  · rw [hncli, h.count, ← hcount]
    omega
  · have hnot : s.cpu.ncli ≠ 1 := by omega
    rw [hflag, decide_eq_false hnot, Bool.false_and]
  · rw [hbefore] at hb
    rw [hintena]
    exact h.flag (by omega) b hb
  · rw [hbefore]
    exact (h.known hfull).1 (by omega)
  · have hone : s.cpu.ncli = 1 := by omega
    rw [hflag, decide_eq_true hone, Bool.true_and]
    exact h.flag hpos b hb

/-- The invariant after a switch, where the thread has kept `x` on its stack. -/
theorem Inv.switch {t : Thread} {x y : Option Bool} (h : Inv ptable full s) (ht : t ≠ s.cpu.cur)
    (hholds : s.holds s.cpu.cur = {ptable}) (hpushes : s.pushes s.cpu.cur = 0)
    (hxy : ∀ b, y = some b → x = some b) (hknown : full → y.isSome) :
    Inv ptable full { s with
      cpu := { s.cpu with
        cur := t, saved := update s.cpu.saved s.cpu.cur x,
        intena := (update s.cpu.saved s.cpu.cur x t).getD s.cpu.intena }
      before := update s.before s.cpu.cur y } := by
  obtain ⟨hholds', hpushes'⟩ := h.waiting t ht
  constructor
  · calc s.cpu.ncli = s.count s.cpu.cur := h.count
      _ = s.count t := by rw [State.count, State.count, hholds, hpushes, hholds', hpushes']
  · exact h.off
  · intro l
    rw [h.locked, hholds, hholds']
  · exact h.owned
  · intro u hu
    by_cases huc : u = s.cpu.cur
    · rw [huc]
      exact ⟨hholds, hpushes⟩
    · exact h.waiting u huc
  · intro _ b hb
    simp only [update_of_ne ht] at hb ⊢
    rw [h.saved t ht b hb, Option.getD_some]
  · intro u hu b hb
    by_cases huc : u = s.cpu.cur
    · simp only [huc, update_self] at hb ⊢
      exact hxy b hb
    · simp only [update_of_ne huc] at hb ⊢
      exact h.saved u huc b hb
  · intro hfull
    have hall : ∀ u, (update s.before s.cpu.cur y u).isSome := by
      intro u
      by_cases huc : u = s.cpu.cur
      · rw [huc, update_self]
        exact hknown hfull
      · rw [update_of_ne huc]
        exact (h.known hfull).2 u huc
    exact ⟨fun _ => hall t, fun u _ => hall u⟩

variable [DecidableEq Lock]

omit [DecidableEq Thread] in
theorem Inv.locked_update {l : Lock} {b : Bool} {S : Finset Lock} (h : Inv ptable full s)
    (hS : ∀ k, k ∈ S ↔ if k = l then b = true else k ∈ s.holds s.cpu.cur) (k : Lock) :
    update s.cpu.locked l b k = true ↔ k ∈ S := by
  rw [hS]
  by_cases hk : k = l
  · rw [if_pos hk, hk, update_self]
  · rw [if_neg hk, update_of_ne hk, h.locked]

omit [DecidableEq Thread] in
theorem Inv.owned_update {l : Lock} {b : Bool} (h : Inv ptable full s) (k : Lock) :
    update s.cpu.owned l b k = update s.cpu.locked l b k := by
  rw [show s.cpu.owned = s.cpu.locked from funext h.owned]

/-- **The step**: every call keeps the invariant, and the flag is back at the end of a section. -/
theorem Inv.step (h : Inv ptable full s) (hsaves : full → ∀ t, saves t = true) {a : Act Thread Lock}
    (hlegal : Legal saves ptable s a) :
    wp (code saves ptable s a) (fun _ c => Inv ptable full (s.account saves c a) ∧
      (0 < s.cpu.ncli → c.ncli = 0 → ∀ b, s.before s.cpu.cur = some b → c.flag = b))
      (fun e => ¬ OfPopcli e) s.cpu := by
  have hother : ∀ {β : Type} (f : Thread → β) (x : β) (t : Thread), t ≠ s.cpu.cur →
      update f s.cpu.cur x t = f t := fun f x t ht => update_of_ne ht ..
  cases a with
  | pushcli =>
    rw [code, wp_pushcli]
    refine ⟨h.push ⟨rfl, rfl, hother _ _, fun _ _ => rfl, fun _ => State.mark_of_ne, h.locked,
      h.owned⟩ rfl rfl rfl rfl ?_, fun hpos hzero => ?_⟩
    · simp only [State.count, State.account, update_self]
      omega
    · have hnext : s.cpu.ncli + 1 = 0 := hzero
      omega
  | popcli =>
    have hpos : 0 < s.cpu.ncli := by
      have hpush : 0 < s.pushes s.cpu.cur := hlegal
      rw [h.count, State.count]
      omega
    rw [code, wp_popcli (h.off hpos) hpos]
    refine h.pop ⟨rfl, rfl, hother _ _, fun _ _ => rfl, fun _ _ => rfl, h.locked, h.owned⟩ rfl rfl
      rfl rfl ?_
    have hpush : 0 < s.pushes s.cpu.cur := hlegal
    simp only [State.count, State.account, update_self]
    omega
  | acquire l =>
    rw [code, wp_acquire h.quiet (h.owned l)]
    refine ⟨fun _ => id, fun hfree => ⟨?_, fun hpos hzero => ?_⟩⟩
    · have hnot : l ∉ s.holds s.cpu.cur := fun hl => by
        rw [(h.locked l).mpr hl] at hfree
        cases hfree
      refine h.push ⟨rfl, rfl, fun _ _ => rfl, hother _ _, fun _ => State.mark_of_ne,
        h.locked_update fun k => ?_, h.owned_update⟩ rfl rfl rfl rfl ?_
      · simp only [State.account, update_self, Finset.mem_insert]
        by_cases hk : k = l <;> simp [hk]
      · simp only [State.count, State.account, update_self,
          Finset.card_insert_of_notMem hnot]
        omega
    · have hnext : s.cpu.ncli + 1 = 0 := hzero
      omega
  | release l =>
    have hl : l ∈ s.holds s.cpu.cur := hlegal
    have hpos := h.section_of_mem hl
    have hlocked := (h.locked l).mpr hl
    rw [code, wp_release h.quiet hpos hlocked ((h.owned l).trans hlocked)]
    refine h.pop ⟨rfl, rfl, fun _ _ => rfl, hother _ _, fun _ _ => rfl,
      h.locked_update fun k => ?_, h.owned_update⟩ rfl rfl rfl rfl ?_
    · simp only [State.account, update_self, Finset.mem_erase]
      by_cases hk : k = l <;> simp [hk]
    · simp only [State.count, State.account, update_self]
      rw [Nat.add_assoc, Finset.card_erase_add_one hl]
  | swtch t =>
    obtain ⟨ht, honly⟩ := hlegal
    by_cases hs : saves s.cpu.cur = true
    · rw [code, if_pos hs]
      refine wp_sched h.quiet (fun hl => h.section_of_mem ((h.locked ptable).mp hl))
        id id fun hl hone => ⟨?_, fun _ hzero => ?_⟩
      · -- the count is 1, so `ptable.lock` is all that the thread has
        have hmem := (h.locked ptable).mp hl
        have hcount := h.count
        have hcard := Finset.card_pos.mpr ⟨ptable, hmem⟩
        rw [hone, State.count] at hcount
        have hholds : s.holds s.cpu.cur = {ptable} := by
          obtain ⟨k, hk⟩ := Finset.card_eq_one.mp (show (s.holds s.cpu.cur).card = 1 by omega)
          rw [hk, Finset.mem_singleton] at hmem
          rw [hk, hmem]
        have hnew := h.switch (x := some s.cpu.intena) (y := s.before s.cpu.cur) ht hholds (by omega)
          (fun b hb => by rw [h.flag (by omega) b hb]) fun hfull => (h.known hfull).1 (by omega)
        rw [update_eq_self] at hnew
        rw [State.account, if_pos hs]
        exact hnew
      · have hzero' : s.cpu.ncli = 0 := hzero
        omega
    · have hs' : saves s.cpu.cur = false := Bool.eq_false_iff.mpr hs
      obtain ⟨hholds, hpushes⟩ := honly hs'
      rw [code, if_neg hs]
      refine ⟨?_, fun hpos hzero => ?_⟩
      · rw [State.account, if_neg hs]
        exact h.switch (x := none) (y := none) ht hholds hpushes (fun b hb => hb)
          fun hfull => absurd (hsaves hfull _) hs
      · have hzero' : s.cpu.ncli = 0 := hzero
        omega
  | setFlag b =>
    have hzero : s.cpu.ncli = 0 := hlegal
    refine ⟨⟨h.count, fun hpos => ?_, h.locked, h.owned, h.waiting, h.flag, h.saved, h.known⟩,
      fun hpos => ?_⟩
    · have hpos' : 0 < s.cpu.ncli := hpos
      omega
    · omega

omit [DecidableEq Lock] in
theorem Start.inv {s₀ : State Thread Lock} (h : Start ptable s₀)
    (hfull : full → ∀ t, t ≠ s₀.cpu.cur → (s₀.cpu.saved t).isSome) : Inv ptable full s₀ := by
  have hcur : s₀.holds s₀.cpu.cur = ∅ := (h.holds _).trans (if_pos rfl)
  constructor
  · rw [h.ncli, State.count, h.pushes, hcur]
    rfl
  · intro hpos
    rw [h.ncli] at hpos
    exact absurd hpos (lt_irrefl _)
  · intro l
    rw [h.locked, hcur]
    exact ⟨fun hc => absurd hc Bool.false_ne_true, fun hc => absurd hc (Finset.notMem_empty l)⟩
  · exact fun l => (h.owned l).trans (h.locked l).symm
  · exact fun t ht => ⟨(h.holds t).trans (if_neg ht), h.pushes t⟩
  · intro hpos
    rw [h.ncli] at hpos
    exact absurd hpos (lt_irrefl _)
  · intro t ht b hb
    rw [← h.before t ht, hb]
  · intro hf
    refine ⟨fun hpos => ?_, fun t ht => ?_⟩
    · rw [h.ncli] at hpos
      exact absurd hpos (lt_irrefl _)
    · rw [h.before t ht]
      exact hfull hf t ht

/-- **The run.** -/
theorem Reach.inv {s₀ : State Thread Lock} (hreach : Reach saves ptable s₀ s)
    (h : Inv ptable full s₀) (hsaves : full → ∀ t, saves t = true) : Inv ptable full s := by
  induction hreach with
  | start => exact h
  | @step s s' a _ hlegal hrun ih =>
    rw [Cli.step] at hrun
    cases hcode : code saves ptable s a s.cpu with
    | error e => rw [hcode] at hrun; cases hrun
    | ok x =>
      rw [hcode] at hrun
      cases hrun
      exact (wp_of_ok (ih.step hsaves hlegal) hcode).1

end

/-- **Interrupts are restored by matched locking**, in every run.  `ncli` is the count of the running
thread, and interrupts are off unless it is 0.  No call panics in `popcli`, and one that brings the
count back to 0 leaves the flag as it was before the push that raised it.  This flag is known in every
section, if all switches keep `intena`. -/
theorem interrupts_restored {Thread Lock : Type} [DecidableEq Thread] [DecidableEq Lock]
    (saves : Thread → Bool) (ptable : Lock) (s₀ s : State Thread Lock) (h₀ : Start ptable s₀)
    (h : Reach saves ptable s₀ s) :
    s.cpu.ncli = (s.pushes s.cpu.cur + (s.holds s.cpu.cur).card : Nat) ∧
    (0 < s.cpu.ncli → s.cpu.flag = false) ∧
    (∀ a, Legal saves ptable s a →
      (∀ e, step saves ptable s a = .error e → ¬ OfPopcli e) ∧
      ∀ s', step saves ptable s a = .ok s' → 0 < s.cpu.ncli → s'.cpu.ncli = 0 →
        ∀ b, s.before s.cpu.cur = some b → s'.cpu.flag = b) ∧
    ((∀ t, saves t = true) → (∀ t, t ≠ s₀.cpu.cur → (s₀.cpu.saved t).isSome) →
      0 < s.cpu.ncli → (s.before s.cpu.cur).isSome) := by
  have hinv : Inv ptable False s := h.inv (h₀.inv False.elim) False.elim
  refine ⟨hinv.count, hinv.off, fun a hlegal => ?_, fun hsaves hsaved hpos => ?_⟩
  · have hstep := hinv.step False.elim hlegal
    rw [step]
    cases hcode : code saves ptable s a s.cpu with
    | error e =>
      refine ⟨fun e' he' => ?_, fun s' hs' => ?_⟩
      · cases he'
        have hstop := wp_of_error hstep hcode
        exact hstop
      · cases hs'
    | ok x =>
      refine ⟨fun e' he' => ?_, fun s' hs' hpos hzero b hb => ?_⟩
      · cases he'
      · cases hs'
        rw [State.account_cpu] at hzero ⊢
        exact (wp_of_ok hstep hcode).2 hpos hzero b hb
  · have hknown : Inv ptable True s := h.inv (h₀.inv fun _ => hsaved) fun _ => hsaves
    exact (hknown.known trivial).1 hpos

/-- Two threads and two locks, `true` being `ptable.lock`.  Thread `true` runs with interrupts on, and
thread `false` has come into `sched` with interrupts off. -/
def twoThreads : State Bool Bool where
  cpu := ⟨true, 0, false, fun _ => false, fun _ => false, true, fun _ => some false⟩
  pushes _ := 0
  holds t := if t then ∅ else {true}
  before _ := some false

theorem twoThreads_start : Start true twoThreads :=
  ⟨rfl, fun _ => rfl, by decide, fun _ => rfl, fun _ => rfl, fun _ _ => rfl⟩

/-- The first thread takes `ptable.lock` and switches to the second, which releases it, and has
interrupts off as before. -/
theorem interrupts_restored_twoThreads :
    ∃ s, Reach (fun _ => true) true twoThreads s ∧ s.cpu.ncli = 1 ∧ s.cpu.cur = false ∧
      ∀ s', step (fun _ => true) true s (.release true) = .ok s' → s'.cpu.flag = false := by
  obtain ⟨s₁, h₁⟩ : ∃ s₁, step (fun _ => true) true twoThreads (.acquire true) = .ok s₁ := ⟨_, rfl⟩
  obtain ⟨s₂, h₂⟩ : ∃ s₂, step (fun _ => true) true s₁ (.swtch false) = .ok s₂ := by
    cases h₁
    exact ⟨_, rfl⟩
  have hreach : Reach (fun _ => true) true twoThreads s₂ := by
    refine .step (.swtch false) (.step (.acquire true) .start trivial h₁) ?_ h₂
    cases h₁
    exact ⟨by decide, fun hc => absurd hc (by decide)⟩
  obtain ⟨hcount, -, hstep, -⟩ :=
    interrupts_restored (fun _ => true) true twoThreads s₂ twoThreads_start hreach
  cases h₁
  cases h₂
  refine ⟨_, hreach, rfl, rfl, fun s' hs' => ?_⟩
  refine (hstep (.release true) (Finset.mem_singleton_self true)).2 s' hs' (by decide) ?_ false rfl
  cases hs'
  rfl

/-- If thread `true` is the scheduler, which does not keep `intena`, interrupts are off after its
`release`, although they were on before its `acquire`. -/
example : (([.acquire true, .swtch false, .release true, .acquire true, .swtch true, .release true] :
    List (Act Bool Bool)).foldlM (step (fun t => !t) true) twoThreads).map (fun s => s.cpu.flag) =
      .ok false := rfl

end Xv6.Cli
