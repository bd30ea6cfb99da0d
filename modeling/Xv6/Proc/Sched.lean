/-
# The priority scheduler on one CPU

`scheduler` walks over the table with `ptable.lock` held and switches to a RUNNABLE process
when no RUNNABLE process has a higher priority AT THAT MOMENT.  The process runs, changes the
table, and comes back to the scheduler, which goes on with the NEXT slot: the position of the
walk is a local variable that survives the switch.  Between two passes interrupts are on.

A run is a sequence of states.  A dispatch of `i` is a step from the walk at slot `i` to `i`
running.

**What round robin needs.**  Between two consecutive dispatches of `p` the walk comes past
every other slot (`exists_visit`).  A process `q` that waits there with the priority of `p` is
dispatched if and only if at one of these visits no RUNNABLE process is above it
(`dispatched_iff_visit`).  A process that is above both only while the walk is at `q` takes
the turn of `q` and of nobody else, and the turn is not made up for: `turn_lost`.

**What priority means.**  Every process is chosen at a moment when it is RUNNABLE and nobody
RUNNABLE is above it, whatever the processes do to the table while they run, and the first choice
of a pass is made from the table that the pass finds (`picks_highest`).
-/
import Mathlib.Tactic
import Xv6.Proc.Table

namespace Xv6.Sched

/-! ## 1. The machine -/

/-- What the CPU does. -/
inductive Cpu
  /-- Between two passes, with `ptable.lock` free and interrupts on. -/
  | idle
  /-- In the outer loop, about to look at slot `i`. -/
  | scan (i : Nat)
  /-- Running a process. -/
  | run (i : Slot)
  deriving DecidableEq

/-- The process table, the CPU, and the local variable `np` of each process that is inside
`fork` after a successful `allocproc`. -/
structure Machine extends Ptable where
  cpu : Cpu
  np : Slot → Option Slot

/-- What happens next: `wakeup` stands for one made by the running process or by an interrupt,
`pass` and `look` belong to `scheduler`, and the others are calls of the running process. -/
inductive Act
  | wakeup (chan : Chan)
  | pass
  | look
  | yield
  | sleep (chan : Chan)
  | exit
  | wait
  | alloc
  | forkFail
  | forkDone
  | kill (pid : Int)
  | setpriority (pid priority : Int)
  deriving DecidableEq

namespace Machine

def setTable (m : Machine) (t : Ptable) : Machine := { m with toPtable := t }

/-- The running process `i` has called `sched`: the walk goes on behind it. -/
def sched (m : Machine) (i : Slot) (t : Ptable) : Machine :=
  { m with toPtable := t, cpu := .scan (i + 1) }

/-- One pass of the outer loop.  On its way out of `sleep` the process clears its `chan`
before it releases the lock, so this belongs to the same step. -/
def look (m : Machine) (k : Nat) : Machine :=
  if h : k < NPROC then
    let i : Slot := ⟨k, h⟩
    if (m.proc i).state = .runnable ∧ m.isHighest i then
      { m with
        toPtable := m.toPtable.setProc i { m.proc i with state := .running, chan := none }
        cpu := .run i }
    else { m with cpu := .scan (k + 1) }
  else { m with cpu := .idle }

/-- A step of the running process `i`.  Inside `fork` it can only go on with `fork` or lose
the CPU to the clock. -/
def runStep (m : Machine) (i : Slot) : Act → Option Machine
  | .wakeup chan => some (m.setTable (m.wakeup1 (some chan)))
  | .yield => some (m.sched i (m.setState i .runnable))
  | .alloc =>
    if m.np i = none then
      match m.allocproc with
      | none => some m
      | some (j, t) => some { m with toPtable := t, np := Function.update m.np i (some j) }
    else none
  | .forkFail =>
    match m.np i with
    | none => none
    | some j =>
      some { m with
        toPtable := m.setState j .unused
        np := Function.update m.np i none }
  | .forkDone =>
    match m.np i with
    | none => none
    | some j =>
      some { m with
        toPtable := m.toPtable.forkDone i j
        np := Function.update m.np i none }
  | .sleep chan => if m.np i = none then some (m.sched i (m.toPtable.sleep i chan)) else none
  | .exit =>
    if m.np i = none ∧ i ≠ m.initproc then some (m.sched i (m.toPtable.exit i)) else none
  | .wait =>
    if m.np i = none then
      match m.toPtable.wait i with
      | (.asleep, t) => some (m.sched i t)
      | (_, t) => some (m.setTable t)
    else none
  | .kill pid => if m.np i = none then some (m.setTable (m.toPtable.kill pid).2) else none
  | .setpriority pid priority =>
    if m.np i = none then some (m.setTable (m.toPtable.setpriority pid priority).2) else none
  | .pass | .look => none

/-- One step of the machine. -/
def step (m : Machine) (a : Act) : Option Machine :=
  match m.cpu with
  | .idle =>
    match a with
    | .wakeup chan => some (m.setTable (m.wakeup1 (some chan)))
    | .pass => some { m with cpu := .scan 0 }
    | _ => none
  | .scan k => if a = .look then some (m.look k) else none
  | .run i => m.runStep i a

end Machine

/-- After `userinit`, before `scheduler` starts: `initproc` is slot 0. -/
def boot : Machine where
  proc := fun i =>
    if i = 0 then ⟨.runnable, 1, none, none, false, 10⟩ else ⟨.unused, 0, none, none, false, 0⟩
  nextpid := 2
  initproc := 0
  cpu := .idle
  np := fun _ => none

/-! ## 2. How the CPU moves -/

/-- The moves of the CPU. -/
inductive Move : Cpu → Cpu → Prop
  | idle : Move .idle .idle
  | pass : Move .idle (.scan 0)
  | skip (k : Nat) (h : k < NPROC) : Move (.scan k) (.scan (k + 1))
  | dispatch (i : Slot) : Move (.scan i) (.run i)
  | done (k : Nat) (h : NPROC ≤ k) : Move (.scan k) .idle
  | stay (i : Slot) : Move (.run i) (.run i)
  | sched (i : Slot) : Move (.run i) (.scan (i + 1))

theorem move_look (m : Machine) (k : Nat) : Move (.scan k) (m.look k).cpu := by
  unfold Machine.look
  split
  · rename_i h
    dsimp only
    split
    · exact .dispatch ⟨k, h⟩
    · exact .skip k h
  · rename_i h
    exact .done k (by omega)

theorem move_runStep {m m' : Machine} {i : Slot} {a : Act} (hcpu : m.cpu = .run i)
    (h : m.runStep i a = some m') : Move (.run i) m'.cpu := by
  have hstay : m'.cpu = m.cpu → Move (.run i) m'.cpu := fun e => by
    rw [e, hcpu]
    exact .stay i
  cases a with
  | wakeup chan => exact hstay (by rw [← Option.some.inj h]; rfl)
  | yield =>
    rw [← Option.some.inj h]
    exact .sched i
  | alloc =>
    simp only [Machine.runStep] at h
    split at h
    · split at h
      · exact hstay (by rw [← Option.some.inj h])
      · exact hstay (by rw [← Option.some.inj h])
    · simp at h
  | forkFail =>
    simp only [Machine.runStep] at h
    split at h
    · simp at h
    · exact hstay (by rw [← Option.some.inj h])
  | forkDone =>
    simp only [Machine.runStep] at h
    split at h
    · simp at h
    · exact hstay (by rw [← Option.some.inj h])
  | sleep chan =>
    simp only [Machine.runStep, Option.ite_none_right_eq_some, Option.some.injEq] at h
    rw [← h.2]
    exact .sched i
  | exit =>
    simp only [Machine.runStep, Option.ite_none_right_eq_some, Option.some.injEq] at h
    rw [← h.2]
    exact .sched i
  | wait =>
    simp only [Machine.runStep] at h
    split at h
    · split at h
      · rw [← Option.some.inj h]
        exact .sched i
      · exact hstay (by rw [← Option.some.inj h]; rfl)
    · simp at h
  | kill pid =>
    simp only [Machine.runStep, Option.ite_none_right_eq_some, Option.some.injEq] at h
    exact hstay (by rw [← h.2]; rfl)
  | setpriority pid priority =>
    simp only [Machine.runStep, Option.ite_none_right_eq_some, Option.some.injEq] at h
    exact hstay (by rw [← h.2]; rfl)
  | pass => simp [Machine.runStep] at h
  | look => simp [Machine.runStep] at h

/-- Every step is one of the moves. -/
theorem move_step {m m' : Machine} {a : Act} (h : m.step a = some m') : Move m.cpu m'.cpu := by
  unfold Machine.step at h
  split at h
  · rename_i hcpu
    split at h
    · rw [← Option.some.inj h, hcpu]
      simp only [Machine.setTable, hcpu]
      exact .idle
    · rw [← Option.some.inj h, hcpu]
      exact .pass
    · simp at h
  · rename_i k hcpu
    simp only [Option.ite_none_right_eq_some, Option.some.injEq] at h
    rw [← h.2, hcpu]
    exact move_look m k
  · rename_i i hcpu
    rw [hcpu]
    exact move_runStep hcpu h

/-! ## 3. Runs and dispatches -/

/-- `σ 0, .., σ n` is a run. -/
def IsRun (σ : Nat → Machine) (n : Nat) : Prop := ∀ k < n, ∃ a, (σ k).step a = some (σ (k + 1))

/-- The states of the run that a list of actions gives; it stops at one that is not
possible. -/
def trace (m : Machine) : List Act → Nat → Machine
  | a :: as, k + 1 =>
    match m.step a with
    | some m' => trace m' as k
    | none => m
  | _, _ => m

/-- Every action of the list is possible in its turn. -/
def possible (m : Machine) : List Act → Bool
  | [] => true
  | a :: as =>
    match m.step a with
    | some m' => possible m' as
    | none => false

theorem isRun_trace : ∀ {as : List Act} {m : Machine}, possible m as = true →
    IsRun (trace m as) as.length
  | [], m, _ => fun k hk => absurd hk (Nat.not_lt_zero k)
  | a :: as, m, h => by
    unfold possible at h
    split at h
    · rename_i m' hm
      have htail : ∀ k, trace m (a :: as) (k + 1) = trace m' as k := fun k => by
        simp only [trace, hm]
      intro k hk
      match k with
      | 0 =>
        refine ⟨a, ?_⟩
        rw [htail]
        cases as <;> exact hm
      | k + 1 =>
        rw [htail, htail]
        exact isRun_trace h k (by simpa using hk)
    · simp at h

/-- Step `k` switches to process `i`. -/
def Dispatches (σ : Nat → Machine) (k : Nat) (i : Slot) : Prop :=
  (σ k).cpu = .scan i ∧ (σ (k + 1)).cpu = .run i

instance (σ : Nat → Machine) (k : Nat) (i : Slot) : Decidable (Dispatches σ k i) :=
  inferInstanceAs (Decidable (_ ∧ _))

/-- No RUNNABLE process has a priority above that of `i`. -/
def TopPriority (m : Machine) (i : Slot) : Prop :=
  ∀ j, (m.proc j).state = .runnable → (m.proc j).priority ≤ (m.proc i).priority

/-- The two dispatches of `p` in steps `a` and `b` are consecutive. -/
structure Consecutive (σ : Nat → Machine) (p : Slot) (a b : Nat) : Prop where
  lt : a < b
  first : Dispatches σ a p
  second : Dispatches σ b p
  none_between : ∀ k, a < k → k < b → ¬ Dispatches σ k p

/-- `q` waits for its turn from the dispatch of `p` in step `a` on: until it is dispatched or
step `b` comes, it is RUNNABLE with the priority of `p`. -/
def Waits (σ : Nat → Machine) (p q : Slot) (a b : Nat) : Prop :=
  ∀ k, a < k → k ≤ b → (∀ j, a < j → j < k → ¬ Dispatches σ j q) →
    ((σ k).proc q).state = .runnable ∧ ((σ k).proc q).priority = ((σ k).proc p).priority

theorem isHighest_table {t : Ptable} {i : Slot} : t.isHighest i = true ↔
    ∀ j, (t.proc j).state = .runnable → (t.proc j).priority ≤ (t.proc i).priority := by
  simp only [Ptable.isHighest, List.all_eq_true, List.mem_finRange, true_implies,
    Bool.not_eq_true', Bool.and_eq_false_iff, decide_eq_false_iff_not, gt_iff_lt, not_lt]
  exact forall_congr' fun j => imp_iff_not_or.symm

theorem isHighest_iff {m : Machine} {i : Slot} :
    m.isHighest i = true ↔ TopPriority m i := isHighest_table

/-- What the walk does with the slot it is at. -/
theorem look_iff {m m' : Machine} {a : Act} {i : Slot} (hcpu : m.cpu = .scan i)
    (h : m.step a = some m') :
    m'.cpu = .run i ↔ (m.proc i).state = .runnable ∧ TopPriority m i := by
  unfold Machine.step at h
  rw [hcpu] at h
  simp only [Option.ite_none_right_eq_some, Option.some.injEq] at h
  rw [← h.2, ← isHighest_iff]
  unfold Machine.look
  rw [dif_pos i.isLt]
  dsimp only
  split
  · rename_i hc
    exact ⟨fun _ => hc, fun _ => rfl⟩
  · rename_i hc
    exact ⟨fun e => Cpu.noConfusion e, fun e => absurd e hc⟩

/-! ## 4. The walk comes past every slot -/

/-- Where the CPU can be after a dispatch of `p` and before the walk reaches `q`: behind `p`
and, in the order of the walk, before `q`. -/
def Before (p q : Slot) : Cpu → Prop
  | .idle => q < p
  | .scan k => (p < q ∧ p.val < k ∧ k < q.val) ∨ (q < p ∧ (p.val < k ∨ k < q.val))
  | .run i => (p < q ∧ p ≤ i ∧ i < q) ∨ (q < p ∧ (p ≤ i ∨ i < q))

/-- One move either keeps the CPU there, or comes to `q`. -/
theorem Before.move {p q : Slot} {c c' : Cpu} (hne : p ≠ q) (h : Before p q c)
    (hm : Move c c') : Before p q c' ∨ c' = .scan q := by
  have hpq : p.val ≠ q.val := fun e => hne (Fin.ext e)
  have hq : q.val < NPROC := q.isLt
  cases hm with
  | idle => exact Or.inl h
  | pass =>
    simp only [Before, Fin.lt_def, Cpu.scan.injEq] at h ⊢
    omega
  | skip k hk =>
    simp only [Before, Fin.lt_def, Cpu.scan.injEq] at h ⊢
    omega
  | dispatch i =>
    simp only [Before, Fin.lt_def, Fin.le_def, reduceCtorEq, or_false] at h ⊢
    omega
  | done k hk =>
    simp only [Before, Fin.lt_def, reduceCtorEq, or_false] at h ⊢
    omega
  | stay i => exact Or.inl h
  | sched i =>
    simp only [Before, Fin.lt_def, Fin.le_def, Cpu.scan.injEq] at h ⊢
    omega

/-- **The walk comes past every slot** between two consecutive dispatches of `p`. -/
theorem exists_visit {σ : Nat → Machine} {p q : Slot} {a b : Nat} (hrun : IsRun σ (b + 1))
    (hab : Consecutive σ p a b) (hne : p ≠ q) :
    ∃ k, a < k ∧ k < b ∧ (σ k).cpu = .scan q := by
  by_contra hno
  have hno' : ∀ k, a < k → k < b → (σ k).cpu ≠ .scan q := fun k h₁ h₂ e => hno ⟨k, h₁, h₂, e⟩
  have hbq : (σ b).cpu ≠ .scan q := by
    rw [hab.second.1]
    exact fun e => hne (Fin.ext (Cpu.scan.inj e))
  -- the CPU stays between `p` and `q` up to step `b`, where the walk is at `p` itself
  have hinv : ∀ d, a + 1 + d ≤ b → Before p q (σ (a + 1 + d)).cpu := by
    intro d
    induction d with
    | zero =>
      intro _
      have hq : p.val ≠ q.val := fun e => hne (Fin.ext e)
      rw [Nat.add_zero, hab.first.2]
      simp only [Before, Fin.lt_def, Fin.le_def]
      omega
    | succ d ih =>
      intro hd
      obtain ⟨act, hact⟩ := hrun (a + 1 + d) (by omega)
      rcases (ih (by omega)).move hne (move_step hact) with hb | hv
      · exact hb
      · by_cases e : a + 1 + d + 1 = b
        · exact absurd (e ▸ hv) hbq
        · exact absurd hv (hno' _ (by omega) (by omega))
  have hlt := hab.lt
  have hend := hinv (b - (a + 1)) (by omega)
  rw [show a + 1 + (b - (a + 1)) = b by omega, hab.second.1] at hend
  simp only [Before, Fin.lt_def] at hend
  omega

/-! ## 5. Round robin -/

/-- **When equals take turns.**  Between two consecutive dispatches of `p`, another process
`q` that waits with the same priority is dispatched if and only if at one of the visits of the
walk to its slot, of which there is at least one, no RUNNABLE process has a higher priority. -/
theorem dispatched_iff_visit {σ : Nat → Machine} {p q : Slot} {a b : Nat}
    (hrun : IsRun σ (b + 1)) (hab : Consecutive σ p a b) (hne : p ≠ q)
    (hw : Waits σ p q a b) :
    (∃ k, a < k ∧ k < b ∧ (σ k).cpu = .scan q) ∧
    ((∃ k, a < k ∧ k < b ∧ Dispatches σ k q) ↔
      ∃ k, a < k ∧ k < b ∧ (σ k).cpu = .scan q ∧ TopPriority (σ k) q) := by
  refine ⟨exists_visit hrun hab hne, ?_, ?_⟩
  · rintro ⟨k, hak, hkb, hd⟩
    obtain ⟨act, hact⟩ := hrun k (by omega)
    exact ⟨k, hak, hkb, hd.1, ((look_iff hd.1 hact).mp hd.2).2⟩
  · rintro ⟨k, hak, hkb, hcpu, htop⟩
    by_cases hex : ∃ j, a < j ∧ j < k ∧ Dispatches σ j q
    · obtain ⟨j, haj, hjk, hd⟩ := hex
      exact ⟨j, haj, by omega, hd⟩
    · -- not dispatched so far: it still waits, and this visit dispatches it
      have hr := hw k hak (by omega) fun j haj hjk hd => hex ⟨j, haj, hjk, hd⟩
      obtain ⟨act, hact⟩ := hrun k (by omega)
      exact ⟨k, hak, hkb, hcpu, (look_iff hcpu hact).mpr ⟨hr.1, htop⟩⟩

/-- `initproc` forks one child, and the two share the CPU for two laps. -/
def shared : List Act :=
  let lap := List.append [.yield, .look, .yield] ((List.replicate 63 .look).append [.pass, .look])
  [.pass, .look, .alloc, .forkDone].append (lap.append lap)

/-- With nobody above them the two take turns. -/
theorem turns_taken :
    let σ := trace boot shared
    Consecutive σ 0 71 139 ∧ Waits σ 0 1 71 139 ∧ ∃ k, 71 < k ∧ k < 139 ∧ Dispatches σ k 1 := by
  have hrun : IsRun (trace boot shared) 140 := isRun_trace (by decide +kernel)
  have hfar : ∀ k < 67, ¬ Dispatches (trace boot shared) (72 + k) 0 := by decide +kernel
  have hab : Consecutive (trace boot shared) 0 71 139 :=
    ⟨by decide, by decide +kernel, by decide +kernel, fun k h₁ h₂ => by
      have := hfar (k - 72) (by omega)
      rwa [show 72 + (k - 72) = k by omega] at this⟩
  have hw : Waits (trace boot shared) 0 1 71 139 := by
    intro k h₁ _ hnot
    -- process 1 is dispatched in step 73
    have hk : k ≤ 73 := by
      by_contra hk
      exact hnot 73 (by decide) (by omega) (by decide +kernel)
    have h : ∀ d < 2, ((trace boot shared (72 + d)).proc 1).state = .runnable ∧
      ((trace boot shared (72 + d)).proc 1).priority =
        ((trace boot shared (72 + d)).proc 0).priority := by decide +kernel
    have := h (k - 72) (by omega)
    rwa [show 72 + (k - 72) = k by omega] at this
  refine ⟨hab, hw, (dispatched_iff_visit hrun hab (by decide) hw).2.mpr ⟨73, by decide, by decide,
    by decide +kernel, isHighest_iff.mp (by decide +kernel)⟩⟩

/-! ## 6. A turn lost -/

/-- From the end of a dispatch of process 0 to the next one: whatever is asleep at address 0
is woken, process 0 yields, slot 1 is passed over, and slot 2 runs and goes to sleep. -/
def lap : List Act :=
  [.wakeup (.addr 0), .yield, .look, .look, .sleep (.addr 0)].append
    ((List.replicate 62 .look).append [.pass, .look])

/-- `initproc` forks two children, gives the second one priority 20, and makes two laps. -/
def overtaken : List Act :=
  [.pass, .look, .alloc, .forkDone, .alloc, .forkDone, .setpriority 3 20].append
    (lap.append lap)

/-- **A turn is lost.**  From the boot on, process 1 is RUNNABLE with the priority of process
0 all the time between two consecutive dispatches of process 0, and is not dispatched: process
2 is woken while 0 runs, is above 1 when the walk comes to slot 1, and is asleep again when
the walk comes back to slot 0. -/
theorem turn_lost :
    let σ := trace boot overtaken
    σ 0 = boot ∧ IsRun σ 145 ∧ Consecutive σ 0 75 144 ∧
      (∀ k, 75 < k → k ≤ 144 → ((σ k).proc 1).state = .runnable ∧
        ((σ k).proc 1).priority = ((σ k).proc 0).priority) ∧
      ∀ k, 75 < k → k < 144 → ¬ Dispatches σ k 1 := by
  have hrun : IsRun (trace boot overtaken) 145 := isRun_trace (by decide +kernel)
  have hfar : ∀ k < 68, ¬ Dispatches (trace boot overtaken) (76 + k) 0 ∧
      ¬ Dispatches (trace boot overtaken) (76 + k) 1 := by decide +kernel
  have hwait : ∀ k < 69, ((trace boot overtaken (76 + k)).proc 1).state = .runnable ∧
      ((trace boot overtaken (76 + k)).proc 1).priority =
        ((trace boot overtaken (76 + k)).proc 0).priority := by decide +kernel
  refine ⟨rfl, hrun, ⟨by decide, by decide +kernel, by decide +kernel, fun k h₁ h₂ => ?_⟩,
    fun k h₁ h₂ => ?_, fun k h₁ h₂ => ?_⟩
  · have := (hfar (k - 76) (by omega)).1
    rwa [show 76 + (k - 76) = k by omega] at this
  · have := hwait (k - 76) (by omega)
    rwa [show 76 + (k - 76) = k by omega] at this
  · have := (hfar (k - 76) (by omega)).2
    rwa [show 76 + (k - 76) = k by omega] at this

/-! ## 7. Whom a pass picks -/

/-- The scheduler switches to process `i`. -/
def dispatch (t : Ptable) (i : Slot) : Ptable :=
  t.setProc i { t.proc i with state := .running, chan := none }

/-- The outer loop over the slots that are left.  It returns whom it has switched to, each with
the table of that moment, and the table at the end; `back i t` is the table that the scheduler
finds when process `i`, dispatched with the table `t`, has come back. -/
def walk (back : Slot → Ptable → Ptable) : List Slot → Ptable → List (Slot × Ptable) × Ptable
  | [], t => ([], t)
  | i :: is, t =>
    if (t.proc i).state = .runnable ∧ t.isHighest i then
      let rest := walk back is (back i (dispatch t i))
      ((i, t) :: rest.1, rest.2)
    else walk back is t

/-- One pass of `scheduler`, as it went. -/
structure Pass where
  start : Ptable
  picks : List (Slot × Ptable)
  final : Ptable

/-- What happens to the table outside the scheduler: while the lock is free before a pass, and
while the processes run that the pass dispatches. -/
structure Others where
  between : Ptable → Ptable
  back : Slot → Ptable → Ptable

def pass (o : Others) (t : Ptable) : Pass :=
  let start := o.between t
  let went := walk o.back (List.finRange NPROC) start
  ⟨start, went.1, went.2⟩

/-- `scheduler`, for as many passes as there are interludes. -/
def scheduler : List Others → Ptable → List Pass
  | [], _ => []
  | o :: os, t => pass o t :: scheduler os (pass o t).final

/-- Process `i` is RUNNABLE, and no RUNNABLE process is above it. -/
def Highest (t : Ptable) (i : Slot) : Prop :=
  (t.proc i).state = .runnable ∧
    ∀ j, (t.proc j).state = .runnable → (t.proc j).priority ≤ (t.proc i).priority

/-- **A pass picks by priority.** -/
structure PicksHighest (p : Pass) : Prop where
  /-- Every process it switches to is RUNNABLE then, and nobody RUNNABLE is above it. -/
  highest : ∀ pick ∈ p.picks, Highest pick.2 pick.1
  /-- If there is a RUNNABLE process, then it picks one, first the first of the highest. -/
  first : (∃ j, (p.start.proc j).state = .runnable) →
    ∃ i rest, p.picks = (i, p.start) :: rest ∧ IsLeast {j | Highest p.start j} i
  /-- Without one it changes nothing. -/
  none : (∀ j, (p.start.proc j).state ≠ .runnable) → p.picks = [] ∧ p.final = p.start

section

variable {back : Slot → Ptable → Ptable} {t : Ptable} {i : Slot}

theorem picked_iff : (t.proc i).state = .runnable ∧ t.isHighest i ↔ Highest t i :=
  and_congr_right fun _ => isHighest_table

theorem walk_of_highest {is : List Slot} (h : Highest t i) :
    (walk back (i :: is) t).1 = (i, t) :: (walk back is (back i (dispatch t i))).1 := by
  rw [walk, if_pos (picked_iff.mpr h)]

theorem walk_of_not_highest {is : List Slot} (h : ¬ Highest t i) :
    walk back (i :: is) t = walk back is t := by
  rw [walk, if_neg (picked_iff.not.mpr h)]

theorem walk_highest : ∀ {is : List Slot} {t : Ptable}, ∀ pick ∈ (walk back is t).1,
    Highest pick.2 pick.1
  | [], _, _, hp => nomatch hp
  | i :: is, t, pick, hp => by
    by_cases h : Highest t i
    · rw [walk_of_highest h] at hp
      rcases List.mem_cons.mp hp with rfl | hp
      · exact h
      · exact walk_highest pick hp
    · rw [walk_of_not_highest h] at hp
      exact walk_highest pick hp

/-- Up to the first pick the table stays as it is. -/
theorem walk_skip {is : List Slot} : ∀ {pre : List Slot}, (∀ j ∈ pre, ¬ Highest t j) →
    walk back (pre ++ is) t = walk back is t
  | [], _ => rfl
  | j :: pre, h => by
    rw [List.cons_append, walk_of_not_highest (h j List.mem_cons_self)]
    exact walk_skip fun j hj => h j (List.mem_cons_of_mem _ hj)

/-- Among the RUNNABLE processes there is one of the highest priority. -/
theorem exists_highest (h : ∃ j, (t.proc j).state = .runnable) : ∃ i, Highest t i := by
  obtain ⟨i, hi, hmax⟩ := Set.exists_max_image {j | (t.proc j).state = .runnable}
    (fun j => (t.proc j).priority) (Set.toFinite _) h
  exact ⟨i, hi, fun j hj => hmax j hj⟩

/-- The slots are walked through in order. -/
theorem finRange_split (i : Slot) :
    ∃ pre post, List.finRange NPROC = pre ++ i :: post ∧ ∀ j ∈ pre, j < i := by
  obtain ⟨pre, post, h⟩ := List.append_of_mem (List.mem_finRange i)
  refine ⟨pre, post, h, fun j hj => ?_⟩
  have hsorted : (List.finRange NPROC).Pairwise (· < ·) := List.pairwise_lt_finRange NPROC
  rw [h] at hsorted
  exact (List.pairwise_append.mp hsorted).2.2 j hj i List.mem_cons_self

end

theorem pass_picksHighest (o : Others) (t : Ptable) : PicksHighest (pass o t) where
  highest := walk_highest
  first h := by
    obtain ⟨i, hhigh, hmin⟩ := Set.exists_min_image {j | Highest (o.between t) j} id
      (Set.toFinite _) (exists_highest h)
    have hi : IsLeast {j | Highest (o.between t) j} i := ⟨hhigh, fun j hj => hmin j hj⟩
    obtain ⟨pre, post, hsplit, hlt⟩ := finRange_split i
    have hpre : ∀ j ∈ pre, ¬ Highest (o.between t) j := fun j hj hhigh =>
      absurd (hi.2 hhigh) (not_le_of_gt (hlt j hj))
    refine ⟨i, (walk o.back post (o.back i (dispatch (o.between t) i))).1, ?_, hi⟩
    rw [show (pass o t).picks = (walk o.back (List.finRange NPROC) (o.between t)).1 from rfl,
      hsplit, walk_skip hpre, walk_of_highest hi.1]
    rfl
  none h := by
    have hskip : walk o.back (List.finRange NPROC ++ []) (o.between t) = ([], o.between t) :=
      walk_skip fun j _ hj => h j hj.1
    rw [List.append_nil] at hskip
    exact ⟨congrArg Prod.fst hskip, congrArg Prod.snd hskip⟩

/-- **The scheduler picks by priority** in every pass, whatever the processes that it dispatches
and the interrupts between two passes do to the table. -/
theorem picks_highest (os : List Others) (t : Ptable) : ∀ p ∈ scheduler os t, PicksHighest p := by
  induction os generalizing t with
  | nil => exact fun _ hp => nomatch hp
  | cons o os ih =>
    intro p hp
    rcases List.mem_cons.mp hp with rfl | hp
    · exact pass_picksHighest o t
    · exact ih _ p hp

/-- Every process yields at once. -/
def yielding : Others where
  between := id
  back i t := t.setState i .runnable

/-- `initproc` is picked in a pass over the table of `boot`. -/
theorem picks_highest_boot : PicksHighest (pass yielding boot.toPtable) ∧
    (pass yielding boot.toPtable).picks.map Prod.fst = [0] :=
  ⟨picks_highest [yielding] boot.toPtable _ List.mem_cons_self, by decide +kernel⟩

end Xv6.Sched
