/-
# Sleep locks

`acquiresleep` and `releasesleep` of one sleep-lock, with `sleep`, `wakeup` and `kill` inside them,
by all the processes of the table.  A step goes from one acquire or release of `lk->lk` or
`ptable.lock` to the next; what a process does to the table in between is the code of the process
table.

`sched` leaves `ptable.lock` to the scheduler of the processor, which gives it to the process it
runs next, or releases it.  Everything else that the kernel does to the process table while
`ptable.lock` is free may happen at any time, as long as it puts nobody to sleep on this lock:
only `sleep` does that.
-/
import Xv6.Lib.Places
import Xv6.Proc.Table

namespace Xv6.Sleeplock

open Function (Injective injective_id update update_of_ne update_self)

/-! ## 1. The machine -/

/-- Where a process is. -/
inductive Pc
  /-- Outside; `holds` says whether it is between an `acquiresleep` and a `releasesleep`. -/
  | user (holds : Bool)
  /-- In `acquiresleep`, at `acquire(&lk->lk)`. -/
  | acquire
  /-- In `acquiresleep`, with `lk->lk`, at the head of the loop. -/
  | test
  /-- In `sleep`, at `acquire(&ptable.lock)`. -/
  | sleep
  /-- In `sleep`, with both locks, at `release(lk)`. -/
  | drop
  /-- In `sleep`, with `ptable.lock`, about to become SLEEPING. -/
  | sched
  /-- Switched out by `sched`. -/
  | asleep
  /-- Back from `sched`, with `ptable.lock`. -/
  | awake
  /-- At the end of `sleep`, at `acquire(lk)`. -/
  | again
  /-- At the end of `acquiresleep`, at `release(&lk->lk)`. -/
  | got
  /-- In `releasesleep`, at `acquire(&lk->lk)`. -/
  | release
  /-- In `releasesleep`, with `lk->lk`, before `lk->locked = 0`. -/
  | clear
  /-- In `wakeup`, at `acquire(&ptable.lock)`. -/
  | wakeup
  /-- In `wakeup`, with both locks, before `wakeup1`. -/
  | wake1
  /-- In `wakeup`, with both locks, at `release(&ptable.lock)`. -/
  | woke
  /-- At the end of `releasesleep`, at `release(&lk->lk)`. -/
  | leave
  /-- In `kill`, at `acquire(&ptable.lock)`. -/
  | kill (pid : Int) (holds : Bool)
  /-- In `kill`, with `ptable.lock`, before the loop. -/
  | mark (pid : Int) (holds : Bool)
  /-- In `kill`, at `release(&ptable.lock)`. -/
  | marked (holds : Bool)
  deriving DecidableEq, Repr

/-- Who holds `ptable.lock`: a process, or the scheduler of a processor. -/
inductive Owner
  | proc (p : Slot)
  | cpu
  deriving DecidableEq, Repr

/-- `struct sleeplock`, the process table, and the holders of the two spin-locks. -/
structure State where
  table : Ptable
  locked : Bool
  pid : Int
  /-- The holder of `lk->lk`. -/
  lk : Option Slot
  /-- The holder of `ptable.lock`. -/
  ptl : Option Owner
  pc : Slot → Pc

/-- What happens next. -/
inductive Act
  /-- `p` calls `acquiresleep`. -/
  | acquiresleep (p : Slot)
  /-- `p`, which has the lock, calls `releasesleep`. -/
  | releasesleep (p : Slot)
  /-- `p` calls `kill(pid)`. -/
  | kill (p : Slot) (pid : Int)
  /-- `p` goes on with its call. -/
  | go (p : Slot)
  /-- The scheduler takes `ptable.lock`. -/
  | look
  /-- The scheduler runs `p`, which is RUNNABLE. -/
  | dispatch (p : Slot)
  /-- The scheduler releases `ptable.lock`. -/
  | rest
  deriving DecidableEq, Repr

section

variable (c : Chan)

namespace State

def setPc (s : State) (p : Slot) (x : Pc) : State := { s with pc := update s.pc p x }

/-- `p` takes `lk->lk`, if it is free. -/
def takeLk (s : State) (p : Slot) (x : Pc) : Option State :=
  if s.lk = none then some { s.setPc p x with lk := some p } else none

/-- `p` takes `ptable.lock`, if it is free. -/
def takePtl (s : State) (p : Slot) (x : Pc) : Option State :=
  if s.ptl = none then some { s.setPc p x with ptl := some (.proc p) } else none

/-- `p` goes on with its call. -/
def go (s : State) (p : Slot) : Option State :=
  match s.pc p with
  | .user _ | .asleep => none
  | .acquire => s.takeLk p .test
  | .test =>
    if s.locked then some (s.setPc p .sleep)
    else some { s.setPc p .got with locked := true, pid := (s.table.proc p).pid }
  | .sleep => s.takePtl p .drop
  | .drop => some { s.setPc p .sched with lk := none }
  | .sched => some { s.setPc p .asleep with table := s.table.sleep p c, ptl := some .cpu }
  | .awake =>
    some { s.setPc p .again with
      table := s.table.setProc p { s.table.proc p with chan := none }
      ptl := none }
  | .again => s.takeLk p .test
  | .got => some { s.setPc p (.user true) with lk := none }
  | .release => s.takeLk p .clear
  | .clear => some { s.setPc p .wakeup with locked := false, pid := 0 }
  | .wakeup => s.takePtl p .wake1
  | .wake1 => some { s.setPc p .woke with table := s.table.wakeup1 (some c) }
  | .woke => some { s.setPc p .leave with ptl := none }
  | .leave => some { s.setPc p (.user false) with lk := none }
  | .kill pid holds => s.takePtl p (.mark pid holds)
  | .mark pid holds => some { s.setPc p (.marked holds) with table := (s.table.kill pid).2 }
  | .marked holds => some { s.setPc p (.user holds) with ptl := none }

/-- One step. -/
def step (s : State) : Act → Option State
  | .acquiresleep p => if s.pc p = .user false then some (s.setPc p .acquire) else none
  | .releasesleep p => if s.pc p = .user true then some (s.setPc p .release) else none
  | .kill p pid =>
    match s.pc p with
    | .user holds => some (s.setPc p (.kill pid holds))
    | _ => none
  | .go p => s.go c p
  | .look => if s.ptl = none then some { s with ptl := some .cpu } else none
  | .dispatch p =>
    if s.ptl = some .cpu ∧ (s.table.proc p).state = .runnable ∧ s.pc p = .asleep then
      some { s.setPc p .awake with table := s.table.setState p .running, ptl := some (.proc p) }
    else none
  | .rest => if s.ptl = some .cpu then some { s with ptl := none } else none

end State

/-- The process is SLEEPING on the lock. -/
def SleepsOn (t : Ptable) (p : Slot) : Prop :=
  (t.proc p).state = .sleeping ∧ (t.proc p).chan = some c

instance (t : Ptable) (p : Slot) : Decidable (SleepsOn c t p) := inferInstanceAs (Decidable (_ ∧ _))

/-- After `initsleeplock`: nobody has anything to do with the lock. -/
def start (t : Ptable) : State := ⟨t, false, 0, none, none, fun _ => .user false⟩

/-- The states that the steps lead to. -/
inductive Reach : State → Prop
  | start {t : Ptable} : (∀ p, ¬ SleepsOn c t p) → Reach (start t)
  | step {s s' : State} {a : Act} : Reach s → s.step c a = some s' → Reach s'
  /-- Other code changes the process table. -/
  | other {s : State} {t : Ptable} : Reach s → s.ptl = none →
      (∀ p, SleepsOn c t p → SleepsOn c s.table p) → Reach { s with table := t }

end

/-! ## 2. The invariant -/

namespace Pc

/-- The process holds `lk->lk`. -/
def hasLk : Pc → Bool
  | .test | .sleep | .drop | .got | .clear | .wakeup | .wake1 | .woke | .leave => true
  | _ => false

/-- The process holds `ptable.lock`. -/
def hasPtl : Pc → Bool
  | .drop | .sched | .awake | .wake1 | .woke | .mark _ _ | .marked _ => true
  | _ => false

/-- The process has the sleep-lock. -/
def owns : Pc → Bool
  | .user holds | .kill _ holds | .mark _ holds | .marked holds => holds
  | .got | .release | .clear => true
  | _ => false

/-- The process has given the sleep-lock up, and not yet woken the sleepers. -/
def wakes : Pc → Bool
  | .wakeup | .wake1 => true
  | _ => false

/-- The process has found the lock taken, and holds `lk->lk` since. -/
def decided : Pc → Bool
  | .sleep | .drop => true
  | _ => false

end Pc

section

variable {c : Chan} {s s' : State} {p : Slot}

structure Inv (c : Chan) (s : State) : Prop where
  lk : HeldAt s.lk id Pc.hasLk s.pc
  ptl : HeldAt s.ptl Owner.proc Pc.hasPtl s.pc
  single : ∀ p q, (s.pc p).owns = true → (s.pc q).owns = true → p = q
  locked : s.locked = true ↔ ∃ p, (s.pc p).owns = true
  asleep : ∀ p, SleepsOn c s.table p → s.pc p = .asleep
  decided : ∀ p, (s.pc p).decided = true → s.locked = true
  /-- Whoever sleeps on the lock, or is past the point of no return, is waiting for the owner, or
  for a process that is about to wake it. -/
  waits : ∀ p, s.pc p = .sched ∨ SleepsOn c s.table p → s.locked = true ∨ ∃ r, (s.pc r).wakes = true

theorem inv_start {t : Ptable} (h : ∀ p, ¬ SleepsOn c t p) : Inv c (start t) where
  lk _ := ⟨nofun, nofun⟩
  ptl _ := ⟨nofun, nofun⟩
  single _ _ hp := Bool.noConfusion hp
  locked := ⟨nofun, fun ⟨_, hp⟩ => Bool.noConfusion hp⟩
  asleep p hp := absurd hp (h p)
  decided _ hp := Bool.noConfusion hp
  waits p hp := hp.elim nofun fun hs => absurd hs (h p)

theorem Inv.other (h : Inv c s) {t : Ptable}
    (ht : ∀ p, SleepsOn c t p → SleepsOn c s.table p) : Inv c { s with table := t } :=
  ⟨h.lk, h.ptl, h.single, h.locked, fun p hp => h.asleep p (ht p hp), h.decided,
    fun p hp => h.waits p (hp.imp id (ht p))⟩

theorem proc_injective : Injective Owner.proc := fun _ _ h => Owner.proc.inj h

/-- Only a process that has been switched out is SLEEPING on the lock. -/
theorem Inv.not_sleeping (h : Inv c s) (hp : s.pc p ≠ .asleep) : ¬ SleepsOn c s.table p :=
  fun hs => hp (h.asleep p hs)

/-- A process moves without touching `lk->locked`, and puts nobody to sleep. -/
theorem Inv.move (h : Inv c s) {x : Pc} {t : Ptable} {pid : Int} {lk : Option Slot}
    {ptl : Option Owner} (hlk : HeldAt lk id Pc.hasLk (update s.pc p x))
    (hptl : HeldAt ptl Owner.proc Pc.hasPtl (update s.pc p x))
    (ht : ∀ q, SleepsOn c t q → SleepsOn c s.table q) (hp : ¬ SleepsOn c s.table p)
    (ho : x.owns = (s.pc p).owns) (hd : x.decided = true ∨ x = .sched → s.locked = true)
    (hw : (s.pc p).wakes = true → x.wakes = true) :
    Inv c ⟨t, s.locked, pid, lk, ptl, update s.pc p x⟩ := by
  have howns : ∀ q, (update s.pc p x q).owns = (s.pc q).owns := update_at ho
  have hwakes : ∀ r, (s.pc r).wakes = true → (update s.pc p x r).wakes = true := fun r hr => by
    rcases eq_or_ne r p with rfl | hq
    · rw [update_self]
      exact hw hr
    · rwa [update_of_ne hq]
  refine ⟨hlk, hptl, ?_, ?_, fun q hq => ?_, fun q hq => ?_, fun q hq => ?_⟩
  · simpa only [howns] using h.single
  · simpa only [howns] using h.locked
  · rcases eq_or_ne q p with rfl | hne
    · exact absurd (ht q hq) hp
    · exact (update_of_ne hne ..).trans (h.asleep q (ht q hq))
  · replace hq : (update s.pc p x q).decided = true := hq
    rcases eq_or_ne q p with rfl | hne
    · rw [update_self] at hq
      exact hd (.inl hq)
    · rw [update_of_ne hne] at hq
      exact h.decided q hq
  · have hold : x = .sched ∧ q = p ∨ s.pc q = .sched ∨ SleepsOn c s.table q := by
      rcases hq with hq | hq
      · replace hq : update s.pc p x q = .sched := hq
        rcases eq_or_ne q p with rfl | hne
        · exact .inl ⟨by rwa [update_self] at hq, rfl⟩
        · exact .inr (.inl (by rwa [update_of_ne hne] at hq))
      · exact .inr (.inr (ht q hq))
    rcases hold with ⟨hx, -⟩ | hold
    · exact .inl (hd (.inr hx))
    · exact (h.waits q hold).imp id fun ⟨r, hr⟩ => ⟨r, hwakes r hr⟩

/-- The lock is free, and a process takes it. -/
theorem Inv.got (h : Inv c s) (hp : s.pc p = .test) (hl : s.locked = false) (pid : Int) :
    Inv c ⟨s.table, true, pid, s.lk, s.ptl, update s.pc p .got⟩ := by
  have hnone : ∀ q, (s.pc q).owns = false := fun q => by
    by_contra hq
    rw [h.locked.mpr ⟨q, by simpa using hq⟩] at hl
    exact Bool.noConfusion hl
  have howns : ∀ q, (update s.pc p .got q).owns = true → q = p := fun q hq => by
    by_contra hne
    rw [update_of_ne hne, hnone] at hq
    exact Bool.noConfusion hq
  refine ⟨h.lk.keep (by rw [hp]; rfl), h.ptl.keep (by rw [hp]; rfl),
    fun q r hq hr => (howns q hq).trans (howns r hr).symm, ?_, fun q hq => ?_, fun _ _ => rfl,
    fun _ _ => .inl rfl⟩
  · exact ⟨fun _ => ⟨p, by simp [Pc.owns]⟩, fun _ => rfl⟩
  · have hne : q ≠ p := fun e => absurd (h.asleep q hq) (by rw [e, hp]; nofun)
    exact (update_of_ne hne ..).trans (h.asleep q hq)

/-- `lk->locked = 0`: the process that does it will wake the sleepers. -/
theorem Inv.clear (h : Inv c s) (hp : s.pc p = .clear) :
    Inv c ⟨s.table, false, 0, s.lk, s.ptl, update s.pc p .wakeup⟩ := by
  have hlk : (s.pc p).hasLk = true := by rw [hp]; rfl
  have hnone : ∀ q, (update s.pc p .wakeup q).owns = false := fun q => by
    rcases eq_or_ne q p with rfl | hne
    · rw [update_self]
      rfl
    · by_contra hq
      rw [update_of_ne hne] at hq
      exact hne (h.single q p (by simpa using hq) (by rw [hp]; rfl))
  refine ⟨h.lk.keep (by rw [hp]; rfl), h.ptl.keep (by rw [hp]; rfl), fun q r hq => ?_, ?_,
    fun q hq => ?_, fun q hq => ?_, fun _ _ => .inr ⟨p, by simp [Pc.wakes]⟩⟩
  · replace hq : (update s.pc p .wakeup q).owns = true := hq
    rw [hnone] at hq
    exact Bool.noConfusion hq
  · refine ⟨nofun, fun ⟨q, hq⟩ => ?_⟩
    replace hq : (update s.pc p .wakeup q).owns = true := hq
    rw [hnone] at hq
    exact Bool.noConfusion hq
  · have hne : q ≠ p := fun e => absurd (h.asleep q hq) (by rw [e, hp]; nofun)
    exact (update_of_ne hne ..).trans (h.asleep q hq)
  · -- whoever has decided to sleep holds `lk->lk`
    replace hq : (update s.pc p .wakeup q).decided = true := hq
    rcases eq_or_ne q p with rfl | hne
    · rw [update_self] at hq
      exact Bool.noConfusion hq
    · rw [update_of_ne hne] at hq
      have hqlk : (s.pc q).hasLk = true := by
        cases hpc : s.pc q <;> rw [hpc] at hq <;> first | rfl | exact Bool.noConfusion hq
      exact absurd (h.lk.unique injective_id hqlk hlk) hne

/-- The process becomes SLEEPING. -/
theorem Inv.sched (h : Inv c s) (hp : s.pc p = .sched) :
    Inv c ⟨s.table.sleep p c, s.locked, s.pid, s.lk, some .cpu, update s.pc p .asleep⟩ := by
  have hold : ∀ q, SleepsOn c (s.table.sleep p c) q → q = p ∨ q ≠ p ∧ SleepsOn c s.table q := by
    intro q hq
    refine (eq_or_ne q p).imp id fun hne => ⟨hne, ?_⟩
    simpa only [SleepsOn, Ptable.sleep, Ptable.setProc_of_ne _ hne] using hq
  have howns : ∀ q, (update s.pc p .asleep q).owns = (s.pc q).owns :=
    update_at (f := Pc.owns) (by rw [hp]; rfl)
  have hwakes : ∀ r, (update s.pc p .asleep r).wakes = (s.pc r).wakes :=
    update_at (f := Pc.wakes) (by rw [hp]; rfl)
  have hdecided : ∀ q, (update s.pc p .asleep q).decided = (s.pc q).decided :=
    update_at (f := Pc.decided) (by rw [hp]; rfl)
  have hwait := h.waits p (.inl hp)
  refine ⟨h.lk.keep (by rw [hp]; rfl), h.ptl.drop proc_injective (by rw [hp]; rfl) rfl nofun, ?_, ?_,
    fun q hq => ?_, fun q hq => h.decided q ((hdecided q).symm.trans hq), fun q hq => ?_⟩
  · simpa only [howns] using h.single
  · simpa only [howns] using h.locked
  · rcases hold q hq with rfl | ⟨hne, hq⟩
    · exact update_self ..
    · exact (update_of_ne hne ..).trans (h.asleep q hq)
  · have hw : s.locked = true ∨ ∃ r, (s.pc r).wakes = true := by
      rcases hq with hq | hq
      · replace hq : update s.pc p .asleep q = .sched := hq
        rcases eq_or_ne q p with rfl | hne
        · exact hwait
        · rw [update_of_ne hne] at hq
          exact h.waits q (.inl hq)
      · rcases hold q hq with rfl | ⟨-, hq⟩
        · exact hwait
        · exact h.waits q (.inr hq)
    simpa only [hwakes] using hw

/-- `wakeup1`: afterwards nobody is SLEEPING on the lock, or about to be. -/
theorem Inv.wake1 (h : Inv c s) (hp : s.pc p = .wake1) :
    Inv c ⟨s.table.wakeup1 (some c), s.locked, s.pid, s.lk, s.ptl, update s.pc p .woke⟩ := by
  have hnone : ∀ q, ¬ SleepsOn c (s.table.wakeup1 (some c)) q := fun q ⟨hs, hc⟩ =>
    Ptable.wakeup1_awake _ _ _ hs (by rwa [Ptable.wakeup1_chan] at hc)
  have hsched : ∀ q, update s.pc p .woke q ≠ .sched := fun q hq => by
    rcases eq_or_ne q p with rfl | hne
    · simp at hq
    · rw [update_of_ne hne] at hq
      exact hne (h.ptl.unique proc_injective (by rw [hq]; rfl) (by rw [hp]; rfl))
  have howns : ∀ q, (update s.pc p .woke q).owns = (s.pc q).owns :=
    update_at (f := Pc.owns) (by rw [hp]; rfl)
  have hdecided : ∀ q, (update s.pc p .woke q).decided = (s.pc q).decided :=
    update_at (f := Pc.decided) (by rw [hp]; rfl)
  refine ⟨h.lk.keep (by rw [hp]; rfl), h.ptl.keep (by rw [hp]; rfl), ?_, ?_,
    fun q hq => absurd hq (hnone q), fun q hq => h.decided q ((hdecided q).symm.trans hq),
    fun q hq => hq.elim (absurd · (hsched q)) (absurd · (hnone q))⟩
  · simpa only [howns] using h.single
  · simpa only [howns] using h.locked

/-! ## 3. Every step keeps it -/

theorem sleepsOn_kill {t : Ptable} {pid : Int} {q : Slot} (h : SleepsOn c (t.kill pid).2 q) :
    SleepsOn c t q := by
  refine ⟨(Ptable.kill_woken t pid q).sleeping h.1, ?_⟩
  have hc := h.2
  unfold Ptable.kill at hc
  split at hc
  · exact hc
  · rename_i i _
    rcases eq_or_ne q i with rfl | hne
    · simp only [Ptable.setProc_self] at hc
      split at hc <;> exact hc
    · rwa [Ptable.setProc_of_ne _ hne] at hc

/-- A table in which the process `p`, and nobody else, was changed, and does not sleep. -/
theorem sleepsOn_setProc {t : Ptable} {v : Proc} (hv : ¬ (v.state = .sleeping ∧ v.chan = some c))
    {q : Slot} (h : SleepsOn c (t.setProc p v) q) : SleepsOn c t q := by
  rcases eq_or_ne q p with rfl | hne
  · rw [SleepsOn, Ptable.setProc_self] at h
    exact absurd h hv
  · rwa [SleepsOn, Ptable.setProc_of_ne _ hne] at h

theorem Inv.go (h : Inv c s) (hs : s.go c p = some s') : Inv c s' := by
  have hinj := injective_id (α := Slot)
  have hlk : s.lk = none → ∀ q, s.lk ≠ some (id q) := fun hl q => by rw [hl]; nofun
  have hptl : s.ptl = none → ∀ q, s.ptl ≠ some (Owner.proc q) := fun hl q => by rw [hl]; nofun
  cases hp : s.pc p <;>
    simp only [State.go, State.takeLk, State.takePtl, hp, Option.ite_none_right_eq_some,
      Option.some.injEq, reduceCtorEq] at hs
  case acquire | again | release =>
    obtain ⟨hfree, rfl⟩ := hs
    exact h.move (h.lk.take hinj (hlk hfree) rfl) (h.ptl.keep (by rw [hp]; rfl)) (fun _ => id)
      (h.not_sleeping (by rw [hp]; nofun)) (by rw [hp]; rfl) (by simp [Pc.decided])
      (by rw [hp]; nofun)
  case sleep =>
    obtain ⟨hfree, rfl⟩ := hs
    exact h.move (h.lk.keep (by rw [hp]; rfl)) (h.ptl.take proc_injective (hptl hfree) rfl)
      (fun _ => id) (h.not_sleeping (by rw [hp]; nofun)) (by rw [hp]; rfl)
      (fun _ => h.decided p (by rw [hp]; rfl)) (by rw [hp]; nofun)
  case wakeup =>
    obtain ⟨hfree, rfl⟩ := hs
    exact h.move (h.lk.keep (by rw [hp]; rfl)) (h.ptl.take proc_injective (hptl hfree) rfl)
      (fun _ => id) (h.not_sleeping (by rw [hp]; nofun)) (by rw [hp]; rfl) (by simp [Pc.decided])
      fun _ => rfl
  case kill pid holds =>
    obtain ⟨hfree, rfl⟩ := hs
    exact h.move (h.lk.keep (by rw [hp]; rfl)) (h.ptl.take proc_injective (hptl hfree) rfl)
      (fun _ => id) (h.not_sleeping (by rw [hp]; nofun)) (by rw [hp]; rfl) (by simp [Pc.decided])
      (by rw [hp]; nofun)
  case test =>
    cases hl : s.locked with
    | true =>
      rw [hl, if_pos rfl, Option.some.injEq] at hs
      subst hs
      exact h.move (h.lk.keep (by rw [hp]; rfl)) (h.ptl.keep (by rw [hp]; rfl)) (fun _ => id)
        (h.not_sleeping (by rw [hp]; nofun)) (by rw [hp]; rfl) (fun _ => hl) (by rw [hp]; nofun)
    | false =>
      rw [hl, if_neg (by decide), Option.some.injEq] at hs
      subst hs
      exact h.got hp hl _
  case drop =>
    subst hs
    exact h.move (h.lk.drop hinj (by rw [hp]; rfl) rfl nofun) (h.ptl.keep (by rw [hp]; rfl))
      (fun _ => id) (h.not_sleeping (by rw [hp]; nofun)) (by rw [hp]; rfl)
      (fun _ => h.decided p (by rw [hp]; rfl)) (by rw [hp]; nofun)
  case sched =>
    subst hs
    exact h.sched hp
  case awake =>
    subst hs
    exact h.move (h.lk.keep (by rw [hp]; rfl)) (h.ptl.drop proc_injective (by rw [hp]; rfl) rfl nofun)
      (fun _ => sleepsOn_setProc (by simp)) (h.not_sleeping (by rw [hp]; nofun)) (by rw [hp]; rfl)
      (by simp [Pc.decided]) (by rw [hp]; nofun)
  case got | leave =>
    subst hs
    exact h.move (h.lk.drop hinj (by rw [hp]; rfl) rfl nofun) (h.ptl.keep (by rw [hp]; rfl))
      (fun _ => id) (h.not_sleeping (by rw [hp]; nofun)) (by rw [hp]; rfl) (by simp [Pc.decided])
      (by rw [hp]; nofun)
  case clear =>
    subst hs
    exact h.clear hp
  case wake1 =>
    subst hs
    exact h.wake1 hp
  case woke | marked holds =>
    subst hs
    exact h.move (h.lk.keep (by rw [hp]; rfl)) (h.ptl.drop proc_injective (by rw [hp]; rfl) rfl nofun)
      (fun _ => id) (h.not_sleeping (by rw [hp]; nofun)) (by rw [hp]; rfl) (by simp [Pc.decided])
      (by rw [hp]; nofun)
  case mark pid holds =>
    subst hs
    exact h.move (h.lk.keep (by rw [hp]; rfl)) (h.ptl.keep (by rw [hp]; rfl)) (fun _ => sleepsOn_kill)
      (h.not_sleeping (by rw [hp]; nofun)) (by rw [hp]; rfl) (by simp [Pc.decided])
      (by rw [hp]; nofun)

theorem Inv.step (h : Inv c s) {a : Act} (hs : s.step c a = some s') : Inv c s' := by
  cases a with
  | acquiresleep p | releasesleep p =>
    simp only [State.step, Option.ite_none_right_eq_some, Option.some.injEq] at hs
    obtain ⟨hp, rfl⟩ := hs
    exact h.move (h.lk.keep (by rw [hp]; rfl)) (h.ptl.keep (by rw [hp]; rfl)) (fun _ => id)
      (h.not_sleeping (by rw [hp]; nofun)) (by rw [hp]; rfl) (by simp [Pc.decided])
      (by rw [hp]; nofun)
  | kill p pid =>
    simp only [State.step] at hs
    split at hs
    · rename_i holds hp
      obtain rfl := Option.some.inj hs
      exact h.move (h.lk.keep (by rw [hp]; rfl)) (h.ptl.keep (by rw [hp]; rfl)) (fun _ => id)
        (h.not_sleeping (by rw [hp]; nofun)) (by rw [hp]; rfl) (by simp [Pc.decided])
        (by rw [hp]; nofun)
    · cases hs
  | go p => exact h.go hs
  | look =>
    simp only [State.step, Option.ite_none_right_eq_some, Option.some.injEq] at hs
    obtain ⟨hfree, rfl⟩ := hs
    have hptl := h.ptl
    rw [hfree] at hptl
    exact ⟨h.lk, fun p => ⟨nofun, fun hp => absurd ((hptl p).mpr hp) nofun⟩, h.single, h.locked,
      h.asleep, h.decided, h.waits⟩
  | dispatch p =>
    simp only [State.step, Option.ite_none_right_eq_some, Option.some.injEq] at hs
    obtain ⟨⟨hcpu, hrun, hp⟩, rfl⟩ := hs
    refine h.move (h.lk.keep (by rw [hp]; rfl)) (h.ptl.take proc_injective (by simp [hcpu]) rfl)
      (fun _ => sleepsOn_setProc (by simp)) (fun hsl => ?_) (by rw [hp]; rfl) (by simp [Pc.decided])
      (by rw [hp]; nofun)
    have := hsl.1
    rw [hrun] at this
    cases this
  | rest =>
    simp only [State.step, Option.ite_none_right_eq_some, Option.some.injEq] at hs
    obtain ⟨hcpu, rfl⟩ := hs
    have hptl := h.ptl
    rw [hcpu] at hptl
    exact ⟨h.lk, fun p => ⟨nofun, fun hp => absurd ((hptl p).mpr hp) (by simp)⟩, h.single, h.locked,
      h.asleep, h.decided, h.waits⟩

theorem Reach.inv (h : Reach c s) : Inv c s := by
  induction h with
  | start ht => exact inv_start ht
  | step _ hs ih => exact ih.step hs
  | other _ _ ht ih => exact ih.other ht

/-! ## 4. Exclusion, and nobody is stranded -/

theorem Pc.hasLk_of_wakes : ∀ {x : Pc}, x.wakes = true → x.hasLk = true := by
  intro x hx
  cases x <;> first | rfl | exact Bool.noConfusion hx

/-- **A sleep-lock excludes and strands nobody.**  At most one process is between its
`acquiresleep` and its `releasesleep`; whenever `lk->lk` and `ptable.lock` are free, a process
is SLEEPING on the lock only while the lock is taken; and when a `wakeup` has run, nobody is
SLEEPING on the lock, or has decided to and is not yet. -/
theorem sleeplock_safe (h : Reach c s) :
    (∀ p q, (s.pc p).owns = true → (s.pc q).owns = true → p = q) ∧
    (s.lk = none → s.ptl = none → ∀ p, SleepsOn c s.table p → s.locked = true) ∧
    ∀ r s', s.pc r = .wake1 → s.step c (.go r) = some s' →
      ∀ p, ¬ SleepsOn c s'.table p ∧ (s'.pc p).decided = false ∧ s'.pc p ≠ .sched := by
  have hi := h.inv
  refine ⟨hi.single, fun hlk _ p hp => ?_, fun r s' hr hs p => ?_⟩
  · refine (hi.waits p (.inr hp)).resolve_right fun ⟨r, hr⟩ => ?_
    -- the process that is about to wake the sleepers has `lk->lk`
    have := (hi.lk r).mpr (Pc.hasLk_of_wakes hr)
    rw [hlk] at this
    cases this
  · have hi' := hi.step hs
    simp only [State.step, State.go, hr, Option.some.injEq] at hs
    subst hs
    have hwoke : update s.pc r .woke r = .woke := Function.update_self ..
    refine ⟨fun ⟨hsl, hc⟩ => Ptable.wakeup1_awake _ _ _ hsl (by rwa [Ptable.wakeup1_chan] at hc), ?_,
      fun hp => ?_⟩
    · by_contra hp
      replace hp : (update s.pc r .woke p).decided = true := Bool.eq_true_of_not_eq_false hp
      have hplk : (update s.pc r .woke p).hasLk = true := by
        cases hpc : update s.pc r .woke p <;> rw [hpc] at hp <;>
          first | rfl | exact Bool.noConfusion hp
      obtain rfl := hi'.lk.unique Function.injective_id hplk (q := r)
        (by show (update s.pc r .woke r).hasLk = true; rw [hwoke]; rfl)
      rw [hwoke] at hp
      exact Bool.noConfusion hp
    · replace hp : update s.pc r .woke p = .sched := hp
      obtain rfl : p = r := hi'.ptl.unique proc_injective
        (by show (update s.pc r .woke p).hasPtl = true; rw [hp]; rfl)
        (by show (update s.pc r .woke r).hasPtl = true; rw [hwoke]; rfl)
      rw [hwoke] at hp
      cases hp

/-- The state after a list of steps, if each is possible. -/
def exec (c : Chan) (s : State) : List Act → Option State
  | [] => some s
  | a :: as => (s.step c a).bind fun s => exec c s as

theorem reach_exec : ∀ {as : List Act} {s s' : State}, Reach c s → exec c s as = some s' → Reach c s'
  | [], _, _, h, he => Option.some.inj he ▸ h
  | a :: as, s, s', h, he => by
    obtain ⟨s₁, hs, he⟩ := Option.bind_eq_some_iff.mp he
    exact reach_exec (h.step hs) he

/-- Process 0 takes the lock; process 1 finds it taken and goes to sleep. -/
def oneSleeps : List Act :=
  [.acquiresleep 0, .go 0, .go 0, .go 0, .acquiresleep 1, .go 1, .go 1, .go 1, .go 1, .go 1, .rest]

theorem sleeplock_safe_oneSleeps :
    ∃ s, exec (.addr 0) (start Ptable.boot) oneSleeps = some s ∧ s.lk = none ∧ s.ptl = none ∧
      SleepsOn (.addr 0) s.table 1 ∧ s.locked = true := by
  have hrun : (exec (.addr 0) (start Ptable.boot) oneSleeps).any
      (fun s => s.lk = none ∧ s.ptl = none ∧ SleepsOn (.addr 0) s.table 1) = true := by
    decide +kernel
  obtain ⟨s, hs, hcheck⟩ := (Option.any_eq_true _ _).mp hrun
  obtain ⟨hlk, hptl, hsl⟩ := of_decide_eq_true hcheck
  have hreach : Reach (.addr 0) s := reach_exec (.start (by decide)) hs
  exact ⟨s, hs, hlk, hptl, hsl, (sleeplock_safe hreach).2.1 hlk hptl 1 hsl⟩

end

end Xv6.Sleeplock
