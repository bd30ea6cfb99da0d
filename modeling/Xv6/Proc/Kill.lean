/-
# Whom `kill` and `setpriority` find

Both look for the pid in ALL slots, UNUSED ones included.  An UNUSED slot shows 0 when it was
never used or its process has been reaped, and the pid of the child when a `fork` failed for
lack of memory.  And `allocproc` does not clear `killed`.

So `kill(0)` returns 0 and marks a free slot, and the next process in that slot is killed before
it has run: `kill_zero`.  The calls do what they should in runs without such calls:
`kill_live_only`.

Here the calls are whole system calls, made one after the other by processes that are not
asleep.
-/
import Mathlib.Tactic
import Xv6.Proc.Table

namespace Xv6

/-! ## 1. Calls -/

/-- What memory a call of `fork` finds: for the kernel stack, and for the copy of the address
space. -/
structure ForkMem where
  stack : Bool
  pages : Bool
  deriving DecidableEq, Repr

namespace Ptable

/-- `fork`, called by process `cur`. -/
def fork (t : Ptable) (cur : Slot) (mem : ForkMem) : Int × Ptable :=
  match t.allocproc with
  | none => (-1, t)
  | some (np, t) =>
    if mem.stack = false then (-1, t.forkFail np)
    else if mem.pages = false then (-1, t.forkFail np)
    else ((t.proc np).pid, (t.link cur np).setState np .runnable)

/-- The process is not asleep. -/
def Ready (t : Ptable) (i : Slot) : Prop :=
  (t.proc i).state = .runnable ∨ (t.proc i).state = .running

instance (t : Ptable) (i : Slot) : Decidable (t.Ready i) := inferInstanceAs (Decidable (_ ∨ _))

/-- The system calls that concern the table. -/
inductive Call
  | fork (cur : Slot) (mem : ForkMem)
  | exit (cur : Slot)
  | wait (cur : Slot)
  | kill (pid : Int)
  | setpriority (pid priority : Int)
  deriving DecidableEq, Repr

/-- The table after a call, if the caller can make it. -/
def call (t : Ptable) : Call → Option Ptable
  | .fork cur mem => if t.Ready cur then some (t.fork cur mem).2 else none
  | .exit cur => if t.Ready cur ∧ cur ≠ t.initproc then some (t.exit cur) else none
  | .wait cur => if t.Ready cur then some (t.wait cur).2 else none
  | .kill pid => some (t.kill pid).2
  | .setpriority pid priority => some (t.setpriority pid priority).2

/-- The tables that calls lead to, each call allowed by `C`. -/
inductive Called (C : Ptable → Call → Prop) : Ptable → Prop
  | boot : Called C boot
  | call {t t' : Ptable} {a : Call} : Called C t → C t a → t.call a = some t' → Called C t'

/-- Some process has this pid. -/
def Live (t : Ptable) (pid : Int) : Prop :=
  ∃ i, (t.proc i).state ≠ .unused ∧ (t.proc i).pid = pid

/-- Some UNUSED slot shows this pid. -/
def Stale (t : Ptable) (pid : Int) : Prop :=
  ∃ i, (t.proc i).state = .unused ∧ (t.proc i).pid = pid

/-- The call does not name a pid that an UNUSED slot shows. -/
def NotStale (t : Ptable) : Call → Prop
  | .kill pid => ¬ t.Stale pid
  | .setpriority pid _ => ¬ t.Stale pid
  | _ => True

instance (t : Ptable) (pid : Int) : Decidable (t.Live pid) := inferInstanceAs (Decidable (∃ _, _))

instance (t : Ptable) (pid : Int) : Decidable (t.Stale pid) :=
  inferInstanceAs (Decidable (∃ _, _))

/-! ## 2. What the two calls do -/

/-- The scan for a pid. -/
theorem find_pid (t : Ptable) (pid : Int) :
    (t.find fun p => p.pid = pid) ≠ none ↔ t.Live pid ∨ t.Stale pid := by
  constructor
  · intro h
    obtain ⟨i, hi⟩ := Option.ne_none_iff_exists'.mp h
    have hpid : (t.proc i).pid = pid := by simpa using of_find_some hi
    rcases eq_or_ne (t.proc i).state .unused with hs | hs
    · exact Or.inr ⟨i, hs, hpid⟩
    · exact Or.inl ⟨i, hs, hpid⟩
  · rintro (⟨i, -, hi⟩ | ⟨i, -, hi⟩) h <;> simpa [hi] using of_find_none h i

/-- A call that looks for a pid and writes the first slot that shows it. -/
structure Finds (t : Ptable) (pid : Int) (r : Int × Ptable) : Prop where
  ret : r.1 = 0 ↔ t.Live pid ∨ t.Stale pid
  fail : r.1 = 0 ∨ r = (-1, t)
  frame : ∀ j, (t.proc j).pid ≠ pid → r.2.proc j = t.proc j

theorem finds_of_find {t : Ptable} {pid : Int} {f : Slot → Proc} {r : Int × Ptable}
    (h : r = match t.find fun p => p.pid = pid with
      | none => (-1, t)
      | some i => (0, t.setProc i (f i))) : t.Finds pid r := by
  have hiff := find_pid t pid
  cases hf : t.find fun p => p.pid = pid with
  | none =>
    rw [hf] at h hiff
    subst h
    exact ⟨by simpa using hiff, Or.inr rfl, fun j _ => rfl⟩
  | some i =>
    rw [hf] at h hiff
    subst h
    refine ⟨by simpa using hiff, Or.inl rfl, fun j hj => setProc_of_ne t (fun e => hj ?_) _⟩
    simpa [e] using of_find_some hf

theorem kill_finds (t : Ptable) (pid : Int) : t.Finds pid (t.kill pid) :=
  finds_of_find (f := fun i =>
    let p := { t.proc i with killed := true }
    if p.state = .sleeping then { p with state := .runnable } else p) rfl

theorem setpriority_finds (t : Ptable) (pid priority : Int) :
    t.Finds pid (t.setpriority pid priority) :=
  finds_of_find (f := fun i => { t.proc i with priority := priority }) rfl

/-- The call tells the truth exactly when the pid is not shown by UNUSED slots alone. -/
theorem Finds.ret_iff {t : Ptable} {pid : Int} {r : Int × Ptable} (h : t.Finds pid r) :
    (r.1 = 0 ↔ t.Live pid) ↔ (t.Stale pid → t.Live pid) := by
  rw [h.ret]
  tauto

/-! ## 3. Runs -/

/-- No UNUSED slot is marked as killed. -/
def Unmarked (t : Ptable) : Prop := ∀ i, (t.proc i).state = .unused → (t.proc i).killed = false

theorem unmarked_boot : boot.Unmarked := by
  intro i
  rcases eq_or_ne i 0 with rfl | hi
  · exact fun _ => rfl
  · rw [boot_of_ne hi]
    exact fun _ => rfl

theorem Unmarked.setProc {t : Ptable} (h : t.Unmarked) {j : Slot} {p : Proc}
    (hp : p.state = .unused → p.killed = false) : (t.setProc j p).Unmarked := by
  intro i
  rcases eq_or_ne i j with rfl | hij
  · simpa using hp
  · rw [setProc_of_ne t hij]
    exact h i

/-- The slot that `allocproc` takes is not marked, and stays so. -/
theorem Unmarked.allocproc {t t' : Ptable} {np : Slot} (h : t.Unmarked)
    (ha : t.allocproc = some (np, t')) : t'.Unmarked ∧ (t'.proc np).killed = false := by
  obtain ⟨hs, rfl⟩ := allocproc_eq_some ha
  exact ⟨h.setProc (fun e => nomatch e), by simpa using h np hs⟩

theorem Unmarked.fork {t : Ptable} (h : t.Unmarked) (cur : Slot) (mem : ForkMem) :
    (t.fork cur mem).2.Unmarked ∧ ∀ np t', t.allocproc = some (np, t') →
      ((t.fork cur mem).2.proc np).killed = false := by
  unfold Ptable.fork
  cases ha : t.allocproc with
  | none => exact ⟨h, fun _ _ e => nomatch e⟩
  | some r =>
    obtain ⟨np, t'⟩ := r
    obtain ⟨ht, hk⟩ := h.allocproc ha
    have hfail : (t'.forkFail np).Unmarked ∧ ((t'.forkFail np).proc np).killed = false :=
      ⟨ht.setProc fun _ => hk, by simpa [forkFail, setState] using hk⟩
    have hlink : (t'.link cur np).Unmarked := ht.setProc fun _ => hk
    have hdone : ((t'.link cur np).setState np .runnable).Unmarked ∧
        (((t'.link cur np).setState np .runnable).proc np).killed = false :=
      ⟨hlink.setProc nofun, by simpa [link, setState] using hk⟩
    dsimp only
    split_ifs
    · exact ⟨hfail.1, fun _ _ e => by cases e; exact hfail.2⟩
    · exact ⟨hfail.1, fun _ _ e => by cases e; exact hfail.2⟩
    · exact ⟨hdone.1, fun _ _ e => by cases e; exact hdone.2⟩

theorem Unmarked.exit {t : Ptable} (h : t.Unmarked) (cur : Slot) : (t.exit cur).Unmarked := by
  have hx := exit_exited t cur
  intro i hi
  rw [hx.killed]
  refine h i ?_
  rcases eq_or_ne i cur with rfl | hne
  · rw [hx.zombie] at hi
    cases hi
  · exact ((hx.woken i hne).eq_iff (by decide) (by decide)).mp hi

theorem Unmarked.wait {t : Ptable} (h : t.Unmarked) (cur : Slot) : (t.wait cur).2.Unmarked := by
  unfold Ptable.wait
  split
  · exact h.setProc fun _ => rfl
  · dsimp only
    split_ifs
    · exact h
    · exact h.setProc fun e => nomatch e

/-- `kill` marks a process, not a free slot, when no UNUSED slot shows the pid. -/
theorem Unmarked.kill {t : Ptable} (h : t.Unmarked) {pid : Int} (hp : ¬ t.Stale pid) :
    (t.kill pid).2.Unmarked := by
  unfold Ptable.kill
  split
  · exact h
  · rename_i i hf
    have hpid : (t.proc i).pid = pid := by simpa using of_find_some hf
    refine h.setProc fun e => ?_
    split at e
    · cases e
    · exact absurd ⟨i, e, hpid⟩ hp

theorem Unmarked.setpriority {t : Ptable} (h : t.Unmarked) (pid priority : Int) :
    (t.setpriority pid priority).2.Unmarked := by
  unfold Ptable.setpriority
  split
  · exact h
  · rename_i i _
    exact h.setProc (h i)

/-- One call that is not stale. -/
theorem Unmarked.call {t t' : Ptable} (h : t.Unmarked) {a : Call} (ha : t.NotStale a)
    (hc : t.call a = some t') : t'.Unmarked := by
  cases a with
  | fork cur mem =>
    simp only [Ptable.call, Option.ite_none_right_eq_some, Option.some.injEq] at hc
    exact hc.2 ▸ (h.fork cur mem).1
  | exit cur =>
    simp only [Ptable.call, Option.ite_none_right_eq_some, Option.some.injEq] at hc
    exact hc.2 ▸ h.exit cur
  | wait cur =>
    simp only [Ptable.call, Option.ite_none_right_eq_some, Option.some.injEq] at hc
    exact hc.2 ▸ h.wait cur
  | kill pid => exact Option.some.inj hc ▸ h.kill ha
  | setpriority pid priority => exact Option.some.inj hc ▸ h.setpriority pid priority

theorem Called.unmarked {t : Ptable} (h : Called NotStale t) : t.Unmarked := by
  induction h with
  | boot => exact unmarked_boot
  | call _ ha hc ih => exact ih.call ha hc

/-- **`kill` and `setpriority` act on live processes only, in runs without stale calls.**  In
every table that such a run reaches, a further call that is not stale returns 0 if and only if
a process has the pid, and leaves the slots with other pids alone.  The child of a `fork` starts
with `killed = 0`. -/
theorem kill_live_only {t : Ptable} (h : Called NotStale t) :
    (∀ pid, ¬ t.Stale pid → ((t.kill pid).1 = 0 ↔ t.Live pid) ∧
      ∀ j, (t.proc j).pid ≠ pid → (t.kill pid).2.proc j = t.proc j) ∧
    (∀ pid priority, ¬ t.Stale pid → ((t.setpriority pid priority).1 = 0 ↔ t.Live pid) ∧
      ∀ j, (t.proc j).pid ≠ pid → (t.setpriority pid priority).2.proc j = t.proc j) ∧
    ∀ cur mem np t', t.allocproc = some (np, t') →
      ((t.fork cur mem).2.proc np).killed = false := by
  refine ⟨fun pid hp => ?_, fun pid priority hp => ?_, fun cur mem => ?_⟩
  · exact ⟨(kill_finds t pid).ret_iff.mpr fun hs => absurd hs hp, (kill_finds t pid).frame⟩
  · exact ⟨(setpriority_finds t pid priority).ret_iff.mpr fun hs => absurd hs hp,
      (setpriority_finds t pid priority).frame⟩
  · exact (h.unmarked.fork cur mem).2

/-- `initproc` has forked a child, and kills it. -/
theorem kill_live_only_child :
    let t := (boot.fork 0 ⟨true, true⟩).2
    ¬ t.Stale 2 ∧ t.Live 2 ∧ (t.kill 2).1 = 0 := by
  have hstale : ¬ (boot.fork 0 ⟨true, true⟩).2.Stale 2 := by decide +kernel
  have hlive : (boot.fork 0 ⟨true, true⟩).2.Live 2 := by decide +kernel
  have h : Called NotStale (boot.fork 0 ⟨true, true⟩).2 :=
    Called.boot.call (a := .fork 0 ⟨true, true⟩) trivial rfl
  exact ⟨hstale, hlive, (((kill_live_only h).1 2 hstale).1).mpr hlive⟩

/-- **`kill(0)`.**  After the boot nobody has pid 0, yet `kill(0)` returns 0; the child of the
next `fork` is marked as killed.  The same happens with the pid of a child that a failed `fork`
gave up: `kill(2)` returns 0 when no process has pid 2. -/
theorem kill_zero :
    (Called (fun _ _ => True) boot ∧ ¬ boot.Live 0 ∧ (boot.kill 0).1 = 0) ∧
    (∃ t, boot.call (.kill 0) = some t ∧ Called (fun _ _ => True) t ∧
      t.allocproc.isSome ∧ ((t.fork 0 ⟨true, true⟩).2.proc 1).killed = true ∧
      ((t.fork 0 ⟨true, true⟩).2.proc 1).state = .runnable) ∧
    ∃ t, boot.call (.fork 0 ⟨true, false⟩) = some t ∧ Called (fun _ _ => True) t ∧
      ¬ t.Live 2 ∧ (t.kill 2).1 = 0 := by
  have h₀ : Called (fun _ _ => True) boot := .boot
  refine ⟨⟨h₀, by decide +kernel, by decide +kernel⟩,
    ⟨(boot.kill 0).2, rfl, h₀.call (a := .kill 0) trivial rfl, by decide +kernel,
      by decide +kernel, by decide +kernel⟩,
    ⟨(boot.fork 0 ⟨true, false⟩).2, rfl, h₀.call (a := .fork 0 ⟨true, false⟩) trivial rfl,
      by decide +kernel, by decide +kernel⟩⟩

end Ptable

end Xv6
