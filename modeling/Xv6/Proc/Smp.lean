/-
# The process table on many CPUs

Any number of CPUs share `ptable`.  Each one runs `scheduler` or a process, and their steps
interleave freely.  A step is a whole critical section of `ptable.lock`, with two exceptions.
The scheduler keeps the lock from one slot to the next, and hands it to the process it switches
to: one that was asleep in `wait` goes on with its scan under the same lock.  And `fork` writes
to the new slot without the lock, even while another CPU holds it.

A CPU that runs process `i` was given it by its own scheduler at slot `i`, so that is where the
walk goes on when the process calls `sched`.

**What holds in every state**, and so whenever the lock is free: the pids, the CPUs and the
parents are in order (`ptable_invariant`), every `wait` is told of a child that it may reap, once,
and nobody oversleeps (`reaped_once`).
-/
import Mathlib.Tactic
import Xv6.Proc.Refine

namespace Xv6

open Function (update update_of_ne update_self)

namespace Smp

/-! ## 1. The machine -/

/-- What a CPU does. -/
inductive Cpu
  /-- In `scheduler` between two passes, without the lock. -/
  | idle
  /-- In `scheduler`, about to look at slot `k`, with the lock. -/
  | scan (k : Nat)
  /-- Back in `wait` after its sleep, with the lock. -/
  | resumed (i : Slot)
  /-- Running a process, without the lock. -/
  | run (i : Slot)
  deriving DecidableEq, Repr

/-- `c->proc`. -/
def Cpu.proc : Cpu → Option Slot
  | .idle => none
  | .scan _ => none
  | .resumed i => some i
  | .run i => some i

/-- The CPU holds `ptable.lock`. -/
def Cpu.holds : Cpu → Bool
  | .idle => false
  | .scan _ => true
  | .resumed _ => true
  | .run _ => false

/-- The process table, the CPUs, and how far each call of `fork` has come.  `born` counts the
processes created so far, and `hist` is what callers have been told. -/
structure Machine (n : Nat) extends Ptable where
  cpu : Fin n → Cpu
  forking : Slot → Forking Slot
  born : Nat
  hist : List Event

/-- What a CPU does next: `pass` and `look` belong to `scheduler`, `wakeup` is made by a
process or by an interrupt, and the others are steps of the running process. -/
inductive Act
  | wakeup (chan : Chan)
  | pass
  | look
  | yield
  | sleep (a : Nat)
  | exit
  | wait
  | alloc
  | forkFail
  | link
  | forkDone
  | kill (pid : Int)
  | setpriority (pid priority : Int)
  deriving DecidableEq, Repr

namespace Machine

variable {n : Nat}

/-- No CPU holds `ptable.lock`. -/
def LockFree (m : Machine n) : Prop := ∀ c, (m.cpu c).holds = false

instance (m : Machine n) : Decidable m.LockFree := inferInstanceAs (Decidable (∀ _, _))

def setTable (m : Machine n) (t : Ptable) : Machine n := { m with toPtable := t }

def setCpu (m : Machine n) (c : Fin n) (x : Cpu) : Machine n :=
  { m with cpu := Function.update m.cpu c x }

def setForking (m : Machine n) (i : Slot) (f : Forking Slot) : Machine n :=
  { m with forking := Function.update m.forking i f }

def tell (m : Machine n) (e : Event) : Machine n := { m with hist := e :: m.hist }

@[simp] theorem setTable_toPtable (m : Machine n) (t : Ptable) : (m.setTable t).toPtable = t :=
  rfl

@[simp] theorem setCpu_toPtable (m : Machine n) (c : Fin n) (x : Cpu) :
    (m.setCpu c x).toPtable = m.toPtable := rfl

@[simp] theorem tell_toPtable (m : Machine n) (e : Event) : (m.tell e).toPtable = m.toPtable :=
  rfl

/-- One pass of the outer loop of `scheduler`.  On its way out of `sleep` the process clears
its `chan`; one that slept in `wait` keeps the lock, the others release it. -/
def look (m : Machine n) (c : Fin n) (k : Nat) : Machine n :=
  if h : k < NPROC then
    let i : Slot := ⟨k, h⟩
    if (m.proc i).state = .runnable ∧ m.isHighest i then
      (m.setTable (m.setProc i { m.proc i with state := .running, chan := none })).setCpu c
        (if (m.proc i).chan = some (.proc i) then .resumed i else .run i)
    else m.setCpu c (.scan (k + 1))
  else m.setCpu c .idle

/-- One scan of `wait` by process `i` on CPU `c`. -/
def wait (m : Machine n) (c : Fin n) (i : Slot) : Machine n :=
  match m.toPtable.wait i with
  | (.reaped pid, t) =>
    ((m.setTable t).setCpu c (.run i)).tell (.waited (m.proc i).pid pid)
  | (.noKids, t) => (m.setTable t).setCpu c (.run i)
  | (.asleep, t) => (m.setTable t).setCpu c (.scan (i + 1))

/-- The critical sections of `ptable.lock` that process `i` enters on CPU `c`.  Inside `fork`
it only goes on with `fork`, or loses the CPU to the clock. -/
def critical (m : Machine n) (c : Fin n) (i : Slot) : Act → Option (Machine n)
  | .wakeup chan => some (m.setTable (m.wakeup1 (some chan)))
  | .yield => some ((m.setTable (m.setState i .runnable)).setCpu c (.scan (i + 1)))
  | .alloc =>
    if m.forking i = .no then
      match m.allocproc with
      | none => some m
      | some (j, t) =>
        some { ((m.setTable t).setForking i (.alloced j)).tell
          (.created (m.proc i).pid m.nextpid) with born := m.born + 1 }
    else none
  | .forkDone =>
    match m.forking i with
    | .linked j =>
      some (((m.setTable (m.setState j .runnable)).setForking i .no).tell
        (.forked (m.proc i).pid (m.proc j).pid))
    | _ => none
  | .sleep a =>
    if m.forking i = .no then
      some ((m.setTable (m.toPtable.sleep i (.addr a))).setCpu c (.scan (i + 1)))
    else none
  | .exit =>
    if m.forking i = .no ∧ i ≠ m.initproc then
      some (((m.setTable (m.toPtable.exit i)).setCpu c (.scan (i + 1))).tell
        (.exited (m.proc i).pid))
    else none
  | .wait => if m.forking i = .no then some (m.wait c i) else none
  | .kill pid => if m.forking i = .no then some (m.setTable (m.toPtable.kill pid).2) else none
  | .setpriority pid priority =>
    if m.forking i = .no then some (m.setTable (m.toPtable.setpriority pid priority).2) else none
  | .pass | .look | .forkFail | .link => none

/-- A step of the running process `i` on CPU `c`: two steps of `fork` need no lock. -/
def runStep (m : Machine n) (c : Fin n) (i : Slot) (a : Act) : Option (Machine n) :=
  match a, m.forking i with
  | .forkFail, .alloced j => some ((m.setTable (m.toPtable.forkFail j)).setForking i .no)
  | .link, .alloced j => some ((m.setTable (m.toPtable.link i j)).setForking i (.linked j))
  | _, _ => if m.LockFree then m.critical c i a else none

/-- One step of CPU `c`. -/
def step (m : Machine n) (c : Fin n) (a : Act) : Option (Machine n) :=
  match m.cpu c with
  | .idle =>
    if m.LockFree then
      match a with
      | .wakeup chan => some (m.setTable (m.wakeup1 (some chan)))
      | .pass => some (m.setCpu c (.scan 0))
      | _ => none
    else none
  | .scan k => if a = .look then some (m.look c k) else none
  | .resumed i => if a = .wait then some (m.wait c i) else none
  | .run i => m.runStep c i a

end Machine

/-- After `userinit`, with every CPU in `scheduler`. -/
def boot (n : Nat) : Machine n where
  toPtable := .boot
  cpu := fun _ => .idle
  forking := fun _ => .no
  born := 1
  hist := []

/-- The states that any interleaving of steps can reach. -/
inductive Reach {n : Nat} : Machine n → Prop
  | boot : Reach (boot n)
  | step {m m' : Machine n} {c : Fin n} {a : Act} : Reach m → m.step c a = some m' → Reach m'

/-! ## 2. RUNNING processes -/

section Cpus

variable {n : Nat} {t t' : Ptable} {cpu cpu' : Fin n → Cpu}

/-- The RUNNING processes are those that a CPU runs, and no two CPUs run the same one. -/
structure Cpus (t : Ptable) (cpu : Fin n → Cpu) : Prop where
  running : ∀ i, (t.proc i).state = .running ↔ ∃ c, (cpu c).proc = some i
  unique : ∀ c c' i, (cpu c).proc = some i → (cpu c').proc = some i → c = c'

theorem Cpus.congr (h : Cpus t cpu)
    (hr : ∀ i, (t'.proc i).state = .running ↔ (t.proc i).state = .running)
    (hc : ∀ c, (cpu' c).proc = (cpu c).proc) : Cpus t' cpu' where
  running i := by
    simp only [hr, hc]
    exact h.running i
  unique c c' i := by
    simp only [hc]
    exact h.unique c c' i

theorem update_proc {c : Fin n} {x : Cpu} (hx : x.proc = (cpu c).proc) (c' : Fin n) :
    (update cpu c x c').proc = (cpu c').proc := by
  rcases eq_or_ne c' c with rfl | hne
  · rw [update_self, hx]
  · rw [update_of_ne hne]

theorem Cpus.setProc (h : Cpus t cpu) {j : Slot} {p : Proc}
    (hp : p.state = .running ↔ (t.proc j).state = .running) : Cpus (t.setProc j p) cpu := by
  refine h.congr (fun i => ?_) fun _ => rfl
  rcases eq_or_ne i j with rfl | hij
  · rw [Ptable.setProc_self, hp]
  · rw [Ptable.setProc_of_ne t hij]

/-- CPU `c` leaves process `i`. -/
theorem Cpus.leave (h : Cpus t cpu) {c : Fin n} {i : Slot} {x : Cpu}
    (hc : (cpu c).proc = some i) (hx : x.proc = none)
    (hr : ∀ k, (t'.proc k).state = .running ↔ (t.proc k).state = .running ∧ k ≠ i) :
    Cpus t' (update cpu c x) where
  running k := by
    rw [hr, h.running]
    constructor
    · rintro ⟨⟨c', hc'⟩, hki⟩
      have hne : c' ≠ c := fun e => hki (Option.some.inj ((e ▸ hc').symm.trans hc))
      exact ⟨c', by rwa [update_of_ne hne]⟩
    · rintro ⟨c', hc'⟩
      rcases eq_or_ne c' c with rfl | hne
      · rw [update_self, hx] at hc'
        cases hc'
      · rw [update_of_ne hne] at hc'
        exact ⟨⟨c', hc'⟩, fun e => hne (h.unique c' c i (e ▸ hc') hc)⟩
  unique c₁ c₂ k h₁ h₂ := by
    rcases eq_or_ne c₁ c with rfl | hne₁
    · rw [update_self, hx] at h₁
      cases h₁
    · rcases eq_or_ne c₂ c with rfl | hne₂
      · rw [update_self, hx] at h₂
        cases h₂
      · rw [update_of_ne hne₁] at h₁
        rw [update_of_ne hne₂] at h₂
        exact h.unique c₁ c₂ k h₁ h₂

/-- CPU `c` takes process `i`. -/
theorem Cpus.enter (h : Cpus t cpu) {c : Fin n} {i : Slot} {x : Cpu}
    (hc : (cpu c).proc = none) (hx : x.proc = some i) (hi : (t.proc i).state ≠ .running)
    (hr : ∀ k, (t'.proc k).state = .running ↔ (t.proc k).state = .running ∨ k = i) :
    Cpus t' (update cpu c x) := by
  have hfree : ∀ c', (cpu c').proc ≠ some i := fun c' e => hi ((h.running i).mpr ⟨c', e⟩)
  have hnew : ∀ {c' k}, (update cpu c x c').proc = some k →
      c' = c ∧ k = i ∨ c' ≠ c ∧ (cpu c').proc = some k := fun {c' k} e => by
    rcases eq_or_ne c' c with rfl | hne
    · rw [update_self, hx] at e
      exact Or.inl ⟨rfl, (Option.some.inj e).symm⟩
    · rw [update_of_ne hne] at e
      exact Or.inr ⟨hne, e⟩
  refine ⟨fun k => ?_, fun c₁ c₂ k h₁ h₂ => ?_⟩
  · rw [hr, h.running]
    constructor
    · rintro (⟨c', hc'⟩ | rfl)
      · have hne : c' ≠ c := fun e => by
          rw [e, hc] at hc'
          cases hc'
        exact ⟨c', by rwa [update_of_ne hne]⟩
      · exact ⟨c, by rwa [update_self]⟩
    · rintro ⟨c', hc'⟩
      exact (hnew hc').symm.imp (fun e => ⟨c', e.2⟩) fun e => e.2
  · rcases hnew h₁ with ⟨rfl, rfl⟩ | ⟨_, h₁⟩
    · rcases hnew h₂ with ⟨e, _⟩ | ⟨_, h₂⟩
      · exact e.symm
      · exact absurd h₂ (hfree c₂)
    · rcases hnew h₂ with ⟨_, rfl⟩ | ⟨_, h₂⟩
      · exact absurd h₁ (hfree c₁)
      · exact h.unique c₁ c₂ k h₁ h₂

/-- A process gives up its CPU: its slot is written, and the CPU goes back to the walk. -/
theorem Cpus.sched (h : Cpus t cpu) {c : Fin n} {i : Slot} {p : Proc} {k : Nat}
    (hc : (cpu c).proc = some i) (hp : p.state ≠ .running) :
    Cpus (t.setProc i p) (update cpu c (.scan k)) := by
  refine h.leave hc rfl fun j => ?_
  rcases eq_or_ne j i with rfl | hji
  · simp [hp]
  · rw [Ptable.setProc_of_ne t hji]
    simp [hji]

end Cpus

/-! ## 3. The invariant -/

variable {n : Nat} {m m' : Machine n}

def Machine.family (m : Machine n) : Family Slot := m.toPtable.family m.forking m.hist

/-- The invariant of the machine, as long as the pids last. -/
structure Inv (m : Machine n) : Prop where
  family : m.family.Inv
  nextpid : m.nextpid = m.born + 1
  cpus : Cpus m.toPtable m.cpu
  awake : m.Awake

theorem Inv.running (h : Inv m) {c : Fin n} {i : Slot} (hc : (m.cpu c).proc = some i) :
    (m.proc i).state = .running :=
  (h.cpus.running i).mpr ⟨c, hc⟩

theorem Inv.alive (h : Inv m) {c : Fin n} {i : Slot} (hc : (m.cpu c).proc = some i) :
    (m.proc i).state.life = .alive := by
  rw [h.running hc]
  rfl

theorem inv_boot : Inv (boot n) := by
  have hother : ∀ i : Slot, i ≠ 0 → (boot n).proc i = ⟨.unused, 0, none, none, false, 0⟩ :=
    fun i => Ptable.boot_of_ne
  have hcases : ∀ i : Slot, ((boot n).proc i).parent = none ∧ ((boot n).proc i).chan = none ∧
      ((boot n).proc i).state ≠ .running := fun i => by
    rcases eq_or_ne i 0 with rfl | hi
    · exact ⟨rfl, rfl, nofun⟩
    · rw [hother i hi]
      exact ⟨rfl, rfl, by decide⟩
  refine ⟨Family.Alone.inv ?_, rfl, ⟨fun i => ?_, fun c c' i e => nomatch e⟩, fun i k hi => ?_⟩
  · exact ⟨rfl, rfl, fun i hi => ⟨congrArg (fun p => p.state.life) (hother i hi),
      congrArg Proc.pid (hother i hi)⟩, fun i => (hcases i).1, rfl, fun _ => rfl, rfl⟩
  · exact ⟨fun e => absurd e (hcases i).2.2, fun ⟨c, e⟩ => nomatch e⟩
  · have := hi.2
    rw [(hcases i).2.1] at this
    cases this

/-- A step that does not concern families. -/
theorem Inv.quiet (h : Inv m) (hf : m'.family = m.family) (hb : m'.born = m.born)
    (hc : Cpus m'.toPtable m'.cpu) (ha : m'.Awake) : Inv m' where
  family := hf ▸ h.family
  nextpid := by
    rw [hb]
    exact (congrArg Family.nextpid hf).trans h.nextpid
  cpus := hc
  awake := ha

/-- A step of the family. -/
theorem Inv.fam (h : Inv m) (hf : m.family.Step m'.family) (hn : m'.nextpid = m'.born + 1)
    (hc : Cpus m'.toPtable m'.cpu) (ha : m'.Awake) : Inv m' :=
  ⟨h.family.step hf, hn, hc, ha⟩

/-- A section that wakes some processes and leaves the family alone. -/
theorem Inv.woken (h : Inv m) {t : Ptable} (hf : t.family m.forking m.hist = m.family)
    (hw : ∀ i, (m.proc i).state.Woken (t.proc i).state) (ha : t.Awake) : Inv (m.setTable t) :=
  h.quiet hf rfl (h.cpus.congr (fun i => (hw i).eq_iff (by decide) (by decide)) fun _ => rfl) ha

theorem Inv.wakeup1 (h : Inv m) (chan : Option Chan) : Inv (m.setTable (m.wakeup1 chan)) :=
  h.woken (Ptable.family_wakeup1 _ chan) (Ptable.wakeup1_woken _ chan) (h.awake.wakeup1 chan)

/-- A CPU that keeps its process. -/
theorem Inv.setCpu (h : Inv m) {c : Fin n} {x : Cpu} (hx : x.proc = (m.cpu c).proc) :
    Inv (m.setCpu c x) :=
  h.quiet rfl rfl (h.cpus.congr (fun _ => Iff.rfl) (update_proc hx)) h.awake

theorem Inv.look (h : Inv m) {c : Fin n} {k : Nat} (hcpu : m.cpu c = .scan k) :
    Inv (m.look c k) := by
  have hc : (m.cpu c).proc = none := by rw [hcpu]; rfl
  unfold Machine.look
  split
  · dsimp only
    rename_i hk
    split
    · rename_i hr
      have hlife : (m.proc ⟨k, hk⟩).state.life = .alive := by rw [hr.1]; rfl
      refine h.quiet (Ptable.family_setProc_quiet hlife.symm rfl rfl) rfl
        (h.cpus.enter hc ?_ (by rw [hr.1]; decide) fun j => ?_)
        (h.awake.setProc (fun e => nomatch e) fun e => nomatch e)
      · split <;> rfl
      · rcases eq_or_ne j ⟨k, hk⟩ with rfl | hj
        · simp
        · simp [Ptable.setProc_of_ne _ hj, hj]
    · exact h.setCpu hc.symm
  · exact h.setCpu hc.symm

/-- One scan of `wait`, entered from user space or resumed after a sleep. -/
theorem Inv.wait (h : Inv m) {c : Fin n} {i : Slot} (hc : (m.cpu c).proc = some i) :
    Inv (m.wait c i) := by
  have hstay : (Cpu.run i).proc = (m.cpu c).proc := hc.symm
  unfold Machine.wait
  rcases Ptable.wait_cases m.toPtable i with ⟨k, hk, hz, e⟩ | e | ⟨hno, e⟩
  · rw [e]
    exact h.fam (Ptable.family_reap (h.alive hc) hk hz) h.nextpid
      ((h.cpus.setProc (by simp [hz])).congr (fun _ => Iff.rfl) (update_proc hstay))
      (h.awake.setProc (fun e => nomatch e) fun e => nomatch e)
  · rw [e]
    exact h.setCpu hstay
  · rw [e]
    exact h.quiet (Ptable.family_sleep (h.alive hc) _) rfl (h.cpus.sched hc nofun)
      (h.awake.sleep fun _ k hk => hno k hk.1 hk.2)

theorem int32_of_lt {x : Int} (h₀ : 0 ≤ x) (h : x < 2 ^ 31) : int32 x = x := by
  unfold int32
  rw [Int.bmod_def]
  omega

theorem Inv.alloc (h : Inv m) {c : Fin n} {i j : Slot} {t : Ptable}
    (hc : (m.cpu c).proc = some i) (hno : m.forking i = .no) (ht : m.allocproc = some (j, t))
    (hb : m.born + 1 < 2 ^ 31 - 1) :
    Inv { ((m.setTable t).setForking i (.alloced j)).tell
      (.created (m.proc i).pid m.nextpid) with born := m.born + 1 } := by
  have hn := h.nextpid
  have hint : int32 (m.nextpid + 1) = m.nextpid + 1 := int32_of_lt (by omega) (by omega)
  have hs : (m.toPtable.family m.forking m.hist).Step _ :=
    Ptable.family_allocproc (h.alive hc) hno ht hint
  obtain ⟨hj, rfl⟩ := Ptable.allocproc_eq_some ht
  refine h.fam hs ?_ ((h.cpus.setProc (p := _) (by simp [hj])).congr (fun _ => Iff.rfl)
    fun _ => rfl) (h.awake.setProc (p := _) (fun e => nomatch e) fun e => nomatch e)
  exact hint.trans (by rw [hn]; rfl)

/-- What a critical section of the running process keeps. -/
theorem Inv.critical (h : Inv m) {c : Fin n} {i : Slot} {a : Act} (hcpu : m.cpu c = .run i)
    (hs : m.critical c i a = some m') (hb : m'.born < 2 ^ 31 - 1) : Inv m' := by
  have hc : (m.cpu c).proc = some i := by rw [hcpu]; rfl
  have hi := h.running hc
  have halive := h.alive hc
  cases a with
  | wakeup chan =>
    obtain rfl := Option.some.inj hs
    exact h.wakeup1 _
  | yield =>
    obtain rfl := Option.some.inj hs
    exact h.quiet (Ptable.family_setProc_quiet halive.symm rfl rfl) rfl
      (h.cpus.sched hc nofun) (h.awake.setState nofun nofun)
  | alloc =>
    simp only [Machine.critical, Option.ite_none_right_eq_some] at hs
    obtain ⟨hno, hs⟩ := hs
    split at hs
    · exact Option.some.inj hs ▸ h
    · rename_i j t ht
      obtain rfl := Option.some.inj hs
      exact h.alloc hc hno ht hb
  | forkDone =>
    simp only [Machine.critical] at hs
    split at hs
    · rename_i j hj
      obtain rfl := Option.some.inj hs
      have hemb := ProcState.life_eq_embryo.mp (h.family.kin.linked_life hj).2
      exact h.fam (Ptable.family_forkDone hj) h.nextpid (h.cpus.setProc (by simp [hemb]))
        (h.awake.setState nofun nofun)
    · cases hs
  | sleep a =>
    simp only [Machine.critical, Option.ite_none_right_eq_some, Option.some.injEq] at hs
    obtain ⟨hno, rfl⟩ := hs
    exact h.quiet (Ptable.family_sleep halive _) rfl (h.cpus.sched hc nofun)
      (h.awake.sleep nofun)
  | exit =>
    simp only [Machine.critical, Option.ite_none_right_eq_some, Option.some.injEq] at hs
    obtain ⟨⟨hno, hne⟩, rfl⟩ := hs
    have hx := Ptable.exit_exited m.toPtable i
    refine h.fam (Ptable.family_exit halive hno hne) (hx.nextpid.trans h.nextpid)
      (h.cpus.leave hc rfl fun k => ?_) (h.awake.exit h.family.kin)
    rcases eq_or_ne k i with rfl | hki
    · simp [hx.zombie]
    · simpa [hki] using (hx.woken k hki).eq_iff (by decide) (by decide)
  | wait =>
    simp only [Machine.critical, Option.ite_none_right_eq_some, Option.some.injEq] at hs
    obtain ⟨hno, rfl⟩ := hs
    exact h.wait hc
  | kill pid =>
    simp only [Machine.critical, Option.ite_none_right_eq_some, Option.some.injEq] at hs
    obtain ⟨hno, rfl⟩ := hs
    exact h.woken (Ptable.family_kill _ pid) (Ptable.kill_woken _ pid) (h.awake.kill pid)
  | setpriority pid priority =>
    simp only [Machine.critical, Option.ite_none_right_eq_some, Option.some.injEq] at hs
    obtain ⟨hno, rfl⟩ := hs
    exact h.woken (Ptable.family_setpriority _ pid priority)
      (Ptable.setpriority_woken _ pid priority) (h.awake.setpriority pid priority)
  | pass => cases hs
  | look => cases hs
  | forkFail => cases hs
  | link => cases hs

/-- What a step of the running process keeps. -/
theorem Inv.runStep (h : Inv m) {c : Fin n} {i : Slot} {a : Act} (hcpu : m.cpu c = .run i)
    (hs : m.runStep c i a = some m') (hb : m'.born < 2 ^ 31 - 1) : Inv m' := by
  unfold Machine.runStep at hs
  split at hs
  · rename_i j hj
    obtain rfl := Option.some.inj hs
    have hemb := ProcState.life_eq_embryo.mp (h.family.kin.alloced_life hj).2
    exact h.fam (Ptable.family_forkFail hj) h.nextpid (h.cpus.setProc (by simp [hemb]))
      (h.awake.setState nofun nofun)
  · rename_i j hj
    obtain rfl := Option.some.inj hs
    have hemb := ProcState.life_eq_embryo.mp (h.family.kin.alloced_life hj).2
    exact h.fam (Ptable.family_link hj) h.nextpid (h.cpus.setProc (by simp))
      (h.awake.setProc (fun e => by simp [hemb] at e) fun e => by simp [hemb] at e)
  · simp only [Option.ite_none_right_eq_some] at hs
    exact h.critical hcpu hs.2 hb

/-- **One step** keeps the invariant, as long as the pids last. -/
theorem Inv.step (h : Inv m) {c : Fin n} {a : Act} (hs : m.step c a = some m')
    (hb : m'.born < 2 ^ 31 - 1) : Inv m' := by
  unfold Machine.step at hs
  split at hs
  · rename_i hcpu
    simp only [Option.ite_none_right_eq_some] at hs
    obtain ⟨-, hs⟩ := hs
    split at hs
    · obtain rfl := Option.some.inj hs
      exact h.wakeup1 _
    · obtain rfl := Option.some.inj hs
      exact h.setCpu (by rw [hcpu]; rfl)
    · cases hs
  · rename_i k hcpu
    simp only [Option.ite_none_right_eq_some, Option.some.injEq] at hs
    obtain ⟨-, rfl⟩ := hs
    exact h.look hcpu
  · rename_i i hcpu
    simp only [Option.ite_none_right_eq_some, Option.some.injEq] at hs
    obtain ⟨-, rfl⟩ := hs
    exact h.wait (by rw [hcpu]; rfl)
  · rename_i i hcpu
    exact h.runStep hcpu hs hb

/-! ## 4. Runs -/

theorem born_wait (m : Machine n) (c : Fin n) (i : Slot) : (m.wait c i).born = m.born := by
  unfold Machine.wait
  split <;> rfl

theorem born_look (m : Machine n) (c : Fin n) (k : Nat) : (m.look c k).born = m.born := by
  unfold Machine.look
  dsimp only
  split
  · split <;> rfl
  · rfl

theorem born_critical {c : Fin n} {i : Slot} {a : Act} (hs : m.critical c i a = some m') :
    m.born ≤ m'.born := by
  cases a with
  | alloc =>
    simp only [Machine.critical, Option.ite_none_right_eq_some] at hs
    obtain ⟨-, hs⟩ := hs
    split at hs
    · exact (Option.some.inj hs ▸ le_rfl)
    · obtain rfl := Option.some.inj hs
      exact Nat.le_succ _
  | wait =>
    simp only [Machine.critical, Option.ite_none_right_eq_some, Option.some.injEq] at hs
    exact hs.2 ▸ (born_wait m c i).ge
  | forkDone =>
    simp only [Machine.critical] at hs
    split at hs
    · exact (Option.some.inj hs ▸ le_rfl)
    · cases hs
  | wakeup | yield => exact (Option.some.inj hs ▸ le_rfl)
  | sleep | exit | kill | setpriority =>
    simp only [Machine.critical, Option.ite_none_right_eq_some, Option.some.injEq] at hs
    exact hs.2 ▸ le_rfl
  | pass | look | forkFail | link => cases hs

/-- No step forgets a process that was created. -/
theorem born_step {c : Fin n} {a : Act} (hs : m.step c a = some m') : m.born ≤ m'.born := by
  unfold Machine.step at hs
  split at hs
  · simp only [Option.ite_none_right_eq_some] at hs
    obtain ⟨-, hs⟩ := hs
    split at hs
    · exact (Option.some.inj hs ▸ le_rfl)
    · exact (Option.some.inj hs ▸ le_rfl)
    · cases hs
  · simp only [Option.ite_none_right_eq_some, Option.some.injEq] at hs
    exact hs.2 ▸ (born_look m c _).ge
  · simp only [Option.ite_none_right_eq_some, Option.some.injEq] at hs
    exact hs.2 ▸ (born_wait m c _).ge
  · unfold Machine.runStep at hs
    split at hs
    · exact (Option.some.inj hs ▸ le_rfl)
    · exact (Option.some.inj hs ▸ le_rfl)
    · simp only [Option.ite_none_right_eq_some] at hs
      exact born_critical hs.2

theorem Reach.inv (h : Reach m) (hb : m.born < 2 ^ 31 - 1) : Inv m := by
  induction h with
  | boot => exact inv_boot
  | step _ hs ih => exact (ih ((born_step hs).trans_lt hb)).step hs hb

/-- **The process table invariant.**  On any number of CPUs, after any interleaving of steps
with fewer than 2^31 - 1 processes created so far: slots in use have positive pids, all
different; a process is RUNNING exactly when it is the current process of exactly one CPU;
UNUSED slots have no parent; no parent is UNUSED or a ZOMBIE.  And the process in slot `j`,
whoever was there before it, is the parent only of processes that it created itself or, being
`initproc`, inherited from a creator that has exited. -/
theorem ptable_invariant (h : Reach m) (hb : m.born < 2 ^ 31 - 1) :
    (∀ i, (m.proc i).state ≠ .unused → 0 < (m.proc i).pid) ∧
    (∀ i j, (m.proc i).state ≠ .unused → (m.proc j).state ≠ .unused →
      (m.proc i).pid = (m.proc j).pid → i = j) ∧
    (∀ i, (m.proc i).state = .running ↔ ∃! c, (m.cpu c).proc = some i) ∧
    (∀ i, (m.proc i).state = .unused → (m.proc i).parent = none) ∧
    (∀ i j, (m.proc i).parent = some j →
      (m.proc j).state ≠ .unused ∧ (m.proc j).state ≠ .zombie) ∧
    ∀ i j, (m.proc i).parent = some j → ∃ q, .created q (m.proc i).pid ∈ m.hist ∧
      (q = (m.proc j).pid ∨ j = m.initproc ∧ .exited q ∈ m.hist) := by
  obtain ⟨⟨hpids, hkin, htold, -⟩, -, hcpus, -⟩ := h.inv hb
  have hpos : ∀ i, (m.proc i).state ≠ .unused → 0 < (m.proc i).pid := fun i hi =>
    hpids.pos i fun e => hi (ProcState.life_eq_unused.mp e)
  refine ⟨hpos, fun i j hi _ => hpids.inj i j (hpos i hi).ne', fun i => ?_,
    fun i hi => hkin.orphan i (ProcState.life_eq_unused.mpr hi), fun i j hij => ?_, htold.made⟩
  · rw [hcpus.running]
    exact ⟨fun ⟨c, hc⟩ => ⟨c, hc, fun c' hc' => hcpus.unique c' c i hc' hc⟩, fun h => h.exists⟩
  · have halive : (m.proc j).state.life = .alive := hkin.alive i j hij
    exact ⟨fun e => by simp [e] at halive, fun e => by simp [e, ProcState.life] at halive⟩

/-- The state after a list of steps, if each is possible in its turn. -/
def exec (m : Machine n) : List (Fin n × Act) → Option (Machine n)
  | [] => some m
  | (c, a) :: as => (m.step c a).bind fun m => exec m as

theorem reach_exec : ∀ {as : List (Fin n × Act)} {m m' : Machine n}, Reach m →
    exec m as = some m' → Reach m'
  | [], _, _, h, he => Option.some.inj he ▸ h
  | (c, a) :: as, m, m', h, he => by
    obtain ⟨m₁, hs, he⟩ := Option.bind_eq_some_iff.mp he
    exact reach_exec (h.step hs) he

instance neZero_two : NeZero 2 := ⟨by decide⟩

instance neZero_one : NeZero 1 := ⟨by decide⟩

/-- CPU 0 runs `initproc`, which forks; CPU 1 finds the child. -/
def twoCpus : List (Fin 2 × Act) :=
  [(0, .pass), (0, .look), (0, .alloc), (0, .link), (0, .forkDone),
    (1, .pass), (1, .look), (1, .look)]

/-- Parent and child run on two CPUs. -/
theorem ptable_invariant_twoCpus : ∃ m : Machine 2, exec (boot 2) twoCpus = some m ∧
    m.LockFree ∧ (m.proc 1).parent = some 0 ∧ ∃! c, (m.cpu c).proc = some 1 := by
  have hrun : (exec (boot 2) twoCpus).any (fun m => m.LockFree ∧ m.born < 2 ^ 31 - 1 ∧
      (m.proc 1).parent = some 0 ∧ (m.proc 1).state = .running) = true := by decide +kernel
  obtain ⟨m, hm, hcheck⟩ := (Option.any_eq_true _ _).mp hrun
  obtain ⟨hfree, hborn, hparent, hrun⟩ := of_decide_eq_true hcheck
  exact ⟨m, hm, hfree, hparent,
    ((ptable_invariant (reach_exec .boot hm) hborn).2.2.1 1).mp hrun⟩

/-! ## 5. Reaping -/

/-- **Every exited child is reaped once, and no parent oversleeps.**  When a `wait` returns `c`
to `p`, the child has called `exit` before, no `wait` has returned it before, and `p` is the
caller of the `fork` that returned `c`, or `initproc` after that caller has exited.  And nobody
is SLEEPING in `wait` with a ZOMBIE child. -/
theorem reaped_once (h : Reach m) (hb : m.born < 2 ^ 31 - 1) :
    (∀ p c l, .waited p c :: l <:+ m.hist →
      .exited c ∈ l ∧ (∀ p', .waited p' c ∉ l) ∧
        ∀ q, .forked q c ∈ m.hist → p = q ∨ p = (m.proc m.initproc).pid ∧ .exited q ∈ l) ∧
    ∀ i k, (m.proc i).state = .sleeping → (m.proc i).chan = some (.proc i) →
      (m.proc k).parent = some i → (m.proc k).state ≠ .zombie := by
  have hinv := h.inv hb
  refine ⟨fun p c l hl => ?_, fun i k hs hc hp hz => hinv.awake i k ⟨hs, hc⟩ ⟨hp, hz⟩⟩
  obtain ⟨hexited, hfirst, hcreator⟩ := hinv.family.reaped p c l hl
  exact ⟨hexited, hfirst, hcreator⟩

/-- `initproc` forks and waits; the child exits and wakes it. -/
def waited : List (Fin 1 × Act) :=
  [(0, .pass), (0, .look), (0, .alloc), (0, .link), (0, .forkDone), (0, .wait), (0, .look),
    (0, .exit)].append ((List.replicate 63 (0, .look)).append
      [(0, .pass), (0, .look), (0, .wait)])

/-- The `wait` that slept returns the child. -/
theorem reaped_once_waited : ∃ m : Machine 1, exec (boot 1) waited = some m ∧
    m.hist = [.waited 1 2, .exited 2, .forked 1 2, .created 1 2] ∧
    .exited 2 ∈ [Event.exited 2, .forked 1 2, .created 1 2] := by
  have hrun : (exec (boot 1) waited).any (fun m => m.born < 2 ^ 31 - 1 ∧
      m.hist = [.waited 1 2, .exited 2, .forked 1 2, .created 1 2]) = true := by decide +kernel
  obtain ⟨m, hm, hcheck⟩ := (Option.any_eq_true _ _).mp hrun
  obtain ⟨hborn, hhist⟩ := of_decide_eq_true hcheck
  have hl : Event.waited 1 2 :: [.exited 2, .forked 1 2, .created 1 2] <:+ m.hist :=
    hhist ▸ List.suffix_rfl
  exact ⟨m, hm, hhist, ((reaped_once (reach_exec .boot hm) hborn).1 1 2 _ hl).1⟩

end Smp

end Xv6
