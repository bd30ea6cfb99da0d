/-
# The process table

`ptable.proc[NPROC]` and the critical sections of `ptable.lock`, as functions on the table.
A slot is an index into the array, and a pointer to a process is its slot.

Only the fields that these functions test or set are kept.  Memory, open files and the saved
registers of a process are not: they belong to the address space and the file table.
-/
import Mathlib.Data.List.FinRange
import Mathlib.Logic.Function.Basic
import Xv6.Param

namespace Xv6

/-- `enum procstate`. -/
inductive ProcState
  | unused
  | embryo
  | sleeping
  | runnable
  | running
  | zombie
  deriving DecidableEq, Repr

/-- An index into `ptable.proc`. -/
abbrev Slot := Fin NPROC

instance neZero_nproc : NeZero NPROC := ⟨by decide⟩

/-- What a process sleeps on: `wait` sleeps on the address of a process, everything else on
some other address. -/
inductive Chan
  | proc (i : Slot)
  | addr (a : Nat)
  deriving DecidableEq, Repr

/-- `struct proc`. -/
structure Proc where
  state : ProcState
  pid : Int
  parent : Option Slot
  chan : Option Chan
  killed : Bool
  priority : Int
  deriving DecidableEq, Repr

/-- `ptable`, with `nextpid` and `initproc`. -/
structure Ptable where
  proc : Slot → Proc
  nextpid : Int
  initproc : Slot

/-- The value that a 32-bit `int` holds after `x` is stored in it. -/
def int32 (x : Int) : Int := x.bmod (2 ^ 32)

namespace Ptable

/-! ## 1. The critical sections -/

def setProc (t : Ptable) (i : Slot) (p : Proc) : Ptable :=
  { t with proc := Function.update t.proc i p }

def setState (t : Ptable) (i : Slot) (st : ProcState) : Ptable :=
  t.setProc i { t.proc i with state := st }

/-- The scan `for(p = ptable.proc; p < &ptable.proc[NPROC]; p++)` for the first slot with a
property. -/
def find (t : Ptable) (test : Proc → Bool) : Option Slot :=
  (List.finRange NPROC).find? fun i => test (t.proc i)

/-- The critical section of `allocproc`. -/
def allocproc (t : Ptable) : Option (Slot × Ptable) :=
  match t.find fun p => p.state = .unused with
  | none => none
  | some i =>
    some (i, { t.setProc i { t.proc i with
        state := .embryo, pid := t.nextpid, priority := 10 } with
      nextpid := int32 (t.nextpid + 1) })

/-- `fork` or `allocproc` gives up for lack of memory: the slot is UNUSED again.  Nothing else
of it is reset. -/
def forkFail (t : Ptable) (np : Slot) : Ptable := t.setState np .unused

/-- `fork` sets the parent of the child, without the lock. -/
def link (t : Ptable) (cur np : Slot) : Ptable :=
  t.setProc np { t.proc np with parent := some cur }

/-- The end of `fork`: the child `np` of `cur` becomes RUNNABLE. -/
def forkDone (t : Ptable) (cur np : Slot) : Ptable :=
  t.setProc np { t.proc np with parent := some cur, state := .runnable }

/-- `wakeup1(chan)`. -/
def wakeup1 (t : Ptable) (chan : Option Chan) : Ptable :=
  { t with proc := fun i =>
      let p := t.proc i
      if p.state = .sleeping ∧ p.chan = chan then { p with state := .runnable } else p }

/-- `sleep(chan, lk)`, up to the call of `sched`. -/
def sleep (t : Ptable) (cur : Slot) (chan : Chan) : Ptable :=
  t.setProc cur { t.proc cur with chan := some chan, state := .sleeping }

/-- One pass of the loop of `exit` that gives abandoned children to `initproc`. -/
def reparent (cur : Slot) (t : Ptable) (i : Slot) : Ptable :=
  if (t.proc i).parent = some cur then
    let t := t.setProc i { t.proc i with parent := some t.initproc }
    if (t.proc i).state = .zombie then t.wakeup1 (some (.proc t.initproc)) else t
  else t

/-- The critical section of `exit`, up to the call of `sched`. -/
def exit (t : Ptable) (cur : Slot) : Ptable :=
  let t := t.wakeup1 ((t.proc cur).parent.map .proc)
  let t := (List.finRange NPROC).foldl (reparent cur) t
  t.setState cur .zombie

/-- How one scan of `wait` ends. -/
inductive WaitOut
  | reaped (pid : Int)
  | noKids
  | asleep
  deriving DecidableEq, Repr

/-- One scan of `wait`: a ZOMBIE child is freed, or there is nothing to wait for, or the
process goes to sleep on its own address. -/
def wait (t : Ptable) (cur : Slot) : WaitOut × Ptable :=
  match t.find fun p => p.parent = some cur ∧ p.state = .zombie with
  | some i =>
    (.reaped (t.proc i).pid,
      t.setProc i { t.proc i with pid := 0, parent := none, killed := false, state := .unused })
  | none =>
    let havekids := t.find fun p => p.parent = some cur
    if havekids = none ∨ (t.proc cur).killed then (.noKids, t)
    else (.asleep, t.sleep cur (.proc cur))

/-- `kill(pid)`. -/
def kill (t : Ptable) (pid : Int) : Int × Ptable :=
  match t.find fun p => p.pid = pid with
  | none => (-1, t)
  | some i =>
    let p := { t.proc i with killed := true }
    (0, t.setProc i (if p.state = .sleeping then { p with state := .runnable } else p))

/-- `setpriority(pid, priority)`. -/
def setpriority (t : Ptable) (pid priority : Int) : Int × Ptable :=
  match t.find fun p => p.pid = pid with
  | none => (-1, t)
  | some i => (0, t.setProc i { t.proc i with priority := priority })

/-- The inner loop of `scheduler`: no RUNNABLE process has a priority above that of `i`. -/
def isHighest (t : Ptable) (i : Slot) : Bool :=
  (List.finRange NPROC).all fun j =>
    !((t.proc j).state = .runnable && (t.proc j).priority > (t.proc i).priority)

/-- After `userinit`: `initproc` is slot 0. -/
def boot : Ptable where
  proc := fun i =>
    if i = 0 then ⟨.runnable, 1, none, none, false, 10⟩ else ⟨.unused, 0, none, none, false, 0⟩
  nextpid := 2
  initproc := 0

theorem boot_of_ne {i : Slot} (hi : i ≠ 0) :
    boot.proc i = ⟨.unused, 0, none, none, false, 0⟩ :=
  if_neg hi

/-! ## 2. What they do, slot by slot -/

@[simp] theorem setProc_self (t : Ptable) (i : Slot) (p : Proc) : (t.setProc i p).proc i = p :=
  Function.update_self ..

theorem setProc_of_ne (t : Ptable) {i j : Slot} (h : j ≠ i) (p : Proc) :
    (t.setProc i p).proc j = t.proc j :=
  Function.update_of_ne h ..

@[simp] theorem setProc_nextpid (t : Ptable) (i : Slot) (p : Proc) :
    (t.setProc i p).nextpid = t.nextpid := rfl

@[simp] theorem setProc_initproc (t : Ptable) (i : Slot) (p : Proc) :
    (t.setProc i p).initproc = t.initproc := rfl

theorem of_find_some {t : Ptable} {test : Proc → Bool} {i : Slot} (h : t.find test = some i) :
    test (t.proc i) = true :=
  List.find?_some (p := fun i => test (t.proc i)) h

theorem of_find_none {t : Ptable} {test : Proc → Bool} (h : t.find test = none) (i : Slot) :
    test (t.proc i) = false := by
  simpa using List.find?_eq_none.mp h i (List.mem_finRange i)

theorem allocproc_eq_some {t t' : Ptable} {j : Slot} (h : t.allocproc = some (j, t')) :
    (t.proc j).state = .unused ∧
      t' = { t.setProc j { t.proc j with
          state := .embryo, pid := t.nextpid, priority := 10 } with
        nextpid := int32 (t.nextpid + 1) } := by
  unfold allocproc at h
  cases hf : t.find fun p => p.state = .unused with
  | none => simp [hf] at h
  | some i =>
    simp only [hf, Option.some.injEq, Prod.mk.injEq] at h
    obtain ⟨rfl, rfl⟩ := h
    exact ⟨by simpa using of_find_some hf, rfl⟩

end Ptable

/-- `b` is what wakeups can make of state `a`. -/
def ProcState.Woken (a b : ProcState) : Prop := b = a ∨ a = .sleeping ∧ b = .runnable

theorem ProcState.Woken.trans {a b c : ProcState} (h : a.Woken b) (h' : b.Woken c) :
    a.Woken c := by
  rcases h with rfl | ⟨rfl, rfl⟩
  · exact h'
  · rcases h' with rfl | ⟨h, _⟩
    · exact Or.inr ⟨rfl, rfl⟩
    · cases h

theorem ProcState.Woken.eq_iff {a b c : ProcState} (h : a.Woken b) (hs : c ≠ .sleeping)
    (hr : c ≠ .runnable) : b = c ↔ a = c := by
  rcases h with rfl | ⟨rfl, rfl⟩
  · rfl
  · exact ⟨fun e => absurd e.symm hr, fun e => absurd e.symm hs⟩

theorem ProcState.Woken.sleeping {a b : ProcState} (h : a.Woken b) (hb : b = .sleeping) :
    a = .sleeping := by
  rcases h with rfl | ⟨rfl, rfl⟩
  · exact hb
  · rfl

namespace Ptable

section wakeup1

variable (t : Ptable) (chan : Option Chan) (i : Slot)

theorem wakeup1_woken : (t.proc i).state.Woken ((t.wakeup1 chan).proc i).state := by
  simp only [wakeup1]
  split
  · rename_i h
    exact Or.inr ⟨h.1, rfl⟩
  · exact Or.inl rfl

@[simp] theorem wakeup1_pid : ((t.wakeup1 chan).proc i).pid = (t.proc i).pid := by
  simp only [wakeup1]
  split <;> rfl

@[simp] theorem wakeup1_parent : ((t.wakeup1 chan).proc i).parent = (t.proc i).parent := by
  simp only [wakeup1]
  split <;> rfl

@[simp] theorem wakeup1_chan : ((t.wakeup1 chan).proc i).chan = (t.proc i).chan := by
  simp only [wakeup1]
  split <;> rfl

@[simp] theorem wakeup1_killed : ((t.wakeup1 chan).proc i).killed = (t.proc i).killed := by
  simp only [wakeup1]
  split <;> rfl

@[simp] theorem wakeup1_nextpid : (t.wakeup1 chan).nextpid = t.nextpid := rfl

@[simp] theorem wakeup1_initproc : (t.wakeup1 chan).initproc = t.initproc := rfl

/-- Nobody still sleeps on `chan`. -/
theorem wakeup1_awake (h : ((t.wakeup1 chan).proc i).state = .sleeping) :
    (t.proc i).chan ≠ chan := by
  intro hc
  simp only [wakeup1] at h
  split at h
  · cases h
  · rename_i hn
    exact hn ⟨h, hc⟩

end wakeup1

theorem kill_woken (t : Ptable) (pid : Int) (i : Slot) :
    (t.proc i).state.Woken ((t.kill pid).2.proc i).state := by
  unfold kill
  split
  · exact Or.inl rfl
  · rename_i j _
    rcases eq_or_ne i j with rfl | hij
    · simp only [setProc_self]
      split
      · rename_i hs
        exact Or.inr ⟨hs, rfl⟩
      · exact Or.inl rfl
    · simp only [setProc_of_ne t hij]
      exact Or.inl rfl

theorem setpriority_woken (t : Ptable) (pid priority : Int) (i : Slot) :
    (t.proc i).state.Woken ((t.setpriority pid priority).2.proc i).state := by
  unfold setpriority
  split
  · exact Or.inl rfl
  · rename_i j _
    left
    rcases eq_or_ne i j with rfl | hij
    · simp only [setProc_self]
    · simp only [setProc_of_ne t hij]

/-- What the loop of `exit` over the slots in `l` does: the children of `cur` there go to
`initproc`, and `initproc` is awake if one of them is a ZOMBIE. -/
structure Reparented (cur : Slot) (l : List Slot) (t t' : Ptable) : Prop where
  nextpid : t'.nextpid = t.nextpid
  initproc : t'.initproc = t.initproc
  woken : ∀ i, (t.proc i).state.Woken (t'.proc i).state
  pid : ∀ i, (t'.proc i).pid = (t.proc i).pid
  chan : ∀ i, (t'.proc i).chan = (t.proc i).chan
  killed : ∀ i, (t'.proc i).killed = (t.proc i).killed
  parent : ∀ i, (t'.proc i).parent =
    if i ∈ l ∧ (t.proc i).parent = some cur then some t.initproc else (t.proc i).parent
  awake : ∀ j ∈ l, (t.proc j).parent = some cur → (t.proc j).state = .zombie →
    ∀ i, (t'.proc i).state = .sleeping → (t.proc i).chan ≠ some (.proc t.initproc)

theorem reparent_reparented (cur : Slot) (t : Ptable) (i : Slot) :
    Reparented cur [i] t (reparent cur t i) := by
  unfold reparent
  split
  · rename_i hp
    let t₁ := t.setProc i { t.proc i with parent := some t.initproc }
    have hne : ∀ {k}, k ≠ i → t₁.proc k = t.proc k := fun h => setProc_of_ne t h _
    have hself : t₁.proc i = { t.proc i with parent := some t.initproc } := setProc_self ..
    have hstate : ∀ k, (t₁.proc k).state = (t.proc k).state := fun k => by
      rcases eq_or_ne k i with rfl | h
      · rw [hself]
      · rw [hne h]
    -- the same facts hold with and without the wakeup that follows
    have hfields : ∀ k, (t₁.proc k).pid = (t.proc k).pid ∧ (t₁.proc k).chan = (t.proc k).chan ∧
        (t₁.proc k).killed = (t.proc k).killed ∧ (t₁.proc k).parent =
          if k ∈ [i] ∧ (t.proc k).parent = some cur then some t.initproc
          else (t.proc k).parent := fun k => by
      rcases eq_or_ne k i with rfl | h
      · rw [hself]
        simp [hp]
      · rw [hne h]
        simp [h]
    dsimp only
    split
    · refine ⟨rfl, rfl, fun k => ?_, fun k => ?_, fun k => ?_, fun k => ?_, fun k => ?_,
        fun j _ _ _ k hk => ?_⟩
      · rw [← hstate k]
        exact wakeup1_woken ..
      · exact (wakeup1_pid ..).trans (hfields k).1
      · exact (wakeup1_chan ..).trans (hfields k).2.1
      · exact (wakeup1_killed ..).trans (hfields k).2.2.1
      · exact (wakeup1_parent ..).trans (hfields k).2.2.2
      · rw [← (hfields k).2.1]
        exact wakeup1_awake _ _ _ hk
    · rename_i hz
      refine ⟨rfl, rfl, fun k => Or.inl (hstate k), fun k => (hfields k).1,
        fun k => (hfields k).2.1, fun k => (hfields k).2.2.1, fun k => (hfields k).2.2.2,
        fun j hj _ hjz k hk => ?_⟩
      rw [List.mem_singleton.mp hj, ← hstate i] at hjz
      exact absurd hjz hz
  · rename_i hp
    refine ⟨rfl, rfl, fun _ => Or.inl rfl, fun _ => rfl, fun _ => rfl, fun _ => rfl,
      fun k => ?_, fun j hj hjp => ?_⟩
    · rw [if_neg]
      rintro ⟨hk, hkp⟩
      exact hp (List.mem_singleton.mp hk ▸ hkp)
    · exact absurd (List.mem_singleton.mp hj ▸ hjp) hp

theorem Reparented.append {cur : Slot} {l l' : List Slot} {t t' t'' : Ptable}
    (h : Reparented cur l t t') (h' : Reparented cur l' t' t'') :
    Reparented cur (l ++ l') t t'' where
  nextpid := h'.nextpid.trans h.nextpid
  initproc := h'.initproc.trans h.initproc
  woken i := (h.woken i).trans (h'.woken i)
  pid i := (h'.pid i).trans (h.pid i)
  chan i := (h'.chan i).trans (h.chan i)
  killed i := (h'.killed i).trans (h.killed i)
  parent i := by
    rw [h'.parent, h.parent, h.initproc]
    split_ifs <;> simp_all
  awake j hj hp hz i hi := by
    rcases List.mem_append.mp hj with hl | hl'
    · exact h.awake j hl hp hz i ((h'.woken i).sleeping hi)
    · rcases eq_or_ne ((t'.proc j).parent) (some cur) with hc | hc
      · rw [← h.chan, ← h.initproc]
        exact h'.awake j hl' hc (((h.woken j).eq_iff (by decide) (by decide)).mpr hz) i hi
      · -- it is no child any more, so it was met in `l`
        have hmem : j ∈ l := by
          by_contra hn
          rw [h.parent, if_neg fun e => hn e.1] at hc
          exact hc hp
        exact h.awake j hmem hp hz i ((h'.woken i).sleeping hi)

theorem foldl_reparented (cur : Slot) : ∀ (l : List Slot) (t : Ptable),
    Reparented cur l t (l.foldl (reparent cur) t)
  | [], t => ⟨rfl, rfl, fun _ => Or.inl rfl, fun _ => rfl, fun _ => rfl, fun _ => rfl,
      fun _ => by simp, fun j hj => absurd hj List.not_mem_nil⟩
  | i :: l, t => (reparent_reparented cur t i).append (foldl_reparented cur l _)

/-- **What `exit` does** to the table. -/
structure Exited (cur : Slot) (t t' : Ptable) : Prop where
  nextpid : t'.nextpid = t.nextpid
  initproc : t'.initproc = t.initproc
  zombie : (t'.proc cur).state = .zombie
  woken : ∀ i ≠ cur, (t.proc i).state.Woken (t'.proc i).state
  pid : ∀ i, (t'.proc i).pid = (t.proc i).pid
  chan : ∀ i, (t'.proc i).chan = (t.proc i).chan
  killed : ∀ i, (t'.proc i).killed = (t.proc i).killed
  parent : ∀ i, (t'.proc i).parent =
    if (t.proc i).parent = some cur then some t.initproc else (t.proc i).parent
  parent_awake : ∀ p, (t.proc cur).parent = some p →
    ∀ i, (t'.proc i).state = .sleeping → (t.proc i).chan ≠ some (.proc p)
  init_awake : ∀ j, (t.proc j).parent = some cur → (t.proc j).state = .zombie →
    ∀ i, (t'.proc i).state = .sleeping → (t.proc i).chan ≠ some (.proc t.initproc)

theorem Reparented.exited {cur : Slot} {t t₂ : Ptable} (h : Reparented cur (List.finRange NPROC)
      (t.wakeup1 ((t.proc cur).parent.map .proc)) t₂) :
    Exited cur t (t₂.setState cur .zombie) := by
  have hne : ∀ {i}, i ≠ cur → (t₂.setState cur .zombie).proc i = t₂.proc i :=
    fun hi => setProc_of_ne t₂ hi _
  have hself : (t₂.setState cur .zombie).proc cur = { t₂.proc cur with state := .zombie } :=
    setProc_self ..
  have hfields : ∀ i, ((t₂.setState cur .zombie).proc i).pid = (t₂.proc i).pid ∧
      ((t₂.setState cur .zombie).proc i).chan = (t₂.proc i).chan ∧
      ((t₂.setState cur .zombie).proc i).killed = (t₂.proc i).killed ∧
      ((t₂.setState cur .zombie).proc i).parent = (t₂.proc i).parent := fun i => by
    rcases eq_or_ne i cur with rfl | hi
    · rw [hself]
      exact ⟨rfl, rfl, rfl, rfl⟩
    · rw [hne hi]
      exact ⟨rfl, rfl, rfl, rfl⟩
  have hasleep : ∀ i, ((t₂.setState cur .zombie).proc i).state = .sleeping →
      (t₂.proc i).state = .sleeping := fun i hi => by
    rcases eq_or_ne i cur with rfl | hic
    · rw [hself] at hi
      cases hi
    · rwa [hne hic] at hi
  refine ⟨h.nextpid, h.initproc, by rw [hself], fun i hi => ?_, fun i => ?_, fun i => ?_,
    fun i => ?_, fun i => ?_, fun p hp i hi => ?_, fun j hj hz i hi => ?_⟩
  · rw [hne hi]
    exact (wakeup1_woken ..).trans (h.woken i)
  · rw [(hfields i).1, h.pid, wakeup1_pid]
  · rw [(hfields i).2.1, h.chan, wakeup1_chan]
  · rw [(hfields i).2.2.1, h.killed, wakeup1_killed]
  · rw [(hfields i).2.2.2, h.parent, wakeup1_parent, wakeup1_initproc]
    simp only [List.mem_finRange, true_and]
  · have := wakeup1_awake t _ i ((h.woken i).sleeping (hasleep i hi))
    rwa [hp] at this
  · have := h.awake j (List.mem_finRange j) ((wakeup1_parent ..).trans hj)
      (((wakeup1_woken ..).eq_iff (by decide) (by decide)).mpr hz) i (hasleep i hi)
    rwa [wakeup1_chan] at this

theorem exit_exited (t : Ptable) (cur : Slot) : Exited cur t (t.exit cur) :=
  (foldl_reparented cur _ _).exited

end Ptable

end Xv6
