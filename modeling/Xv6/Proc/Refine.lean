/-
# The process table keeps families

Each function on the table is a step of the family it records, or leaves the family alone:
waking, sleeping, running, killing and setting a priority do not concern families.

The second invariant of the table is that nobody oversleeps: a process asleep in `wait` has no
ZOMBIE child (`Ptable.Awake`).
-/
import Mathlib.Tactic
import Xv6.Proc.Table
import Xv6.Proc.Family

namespace Xv6

open Function (comp_update update update_eq_self update_of_ne update_self)

/-! ## 1. The family of a table -/

/-- What families see of a state. -/
def ProcState.life : ProcState → Life
  | .unused => .unused
  | .embryo => .embryo
  | .sleeping | .runnable | .running => .alive
  | .zombie => .zombie

@[simp] theorem ProcState.life_unused : ProcState.unused.life = .unused := rfl

@[simp] theorem ProcState.life_embryo : ProcState.embryo.life = .embryo := rfl

@[simp] theorem ProcState.life_runnable : ProcState.runnable.life = .alive := rfl

theorem ProcState.Woken.life {a b : ProcState} (h : a.Woken b) : b.life = a.life := by
  rcases h with rfl | ⟨rfl, rfl⟩ <;> rfl

@[simp] theorem ProcState.life_eq_unused {a : ProcState} : a.life = .unused ↔ a = .unused := by
  cases a <;> decide

@[simp] theorem ProcState.life_eq_zombie {a : ProcState} : a.life = .zombie ↔ a = .zombie := by
  cases a <;> decide

@[simp] theorem ProcState.life_eq_embryo {a : ProcState} : a.life = .embryo ↔ a = .embryo := by
  cases a <;> decide

namespace Ptable

/-- The family that a table records, beside the calls of `fork` under way and the history. -/
def family (t : Ptable) (forking : Slot → Forking Slot) (hist : List Event) : Family Slot where
  life i := (t.proc i).state.life
  pid i := (t.proc i).pid
  parent i := (t.proc i).parent
  nextpid := t.nextpid
  init := t.initproc
  forking := forking
  hist := hist

variable {t t' : Ptable} {forking : Slot → Forking Slot} {hist : List Event}

theorem family_congr (hlife : ∀ i, (t'.proc i).state.life = (t.proc i).state.life)
    (hpid : ∀ i, (t'.proc i).pid = (t.proc i).pid)
    (hparent : ∀ i, (t'.proc i).parent = (t.proc i).parent)
    (hnext : t'.nextpid = t.nextpid) (hinit : t'.initproc = t.initproc) :
    t'.family forking hist = t.family forking hist := by
  simp only [family, hlife, hpid, hparent, hnext, hinit]

section setProc

variable (t) (j : Slot) (p : Proc)

theorem setProc_life : (fun i => ((t.setProc j p).proc i).state.life) =
    update (fun i => (t.proc i).state.life) j p.state.life :=
  comp_update (fun p : Proc => p.state.life) t.proc j p

theorem setProc_pid : (fun i => ((t.setProc j p).proc i).pid) =
    update (fun i => (t.proc i).pid) j p.pid :=
  comp_update Proc.pid t.proc j p

theorem setProc_parent : (fun i => ((t.setProc j p).proc i).parent) =
    update (fun i => (t.proc i).parent) j p.parent :=
  comp_update Proc.parent t.proc j p

theorem family_setProc : (t.setProc j p).family forking hist = { t.family forking hist with
      life := update (t.family forking hist).life j p.state.life
      pid := update (t.family forking hist).pid j p.pid
      parent := update (t.family forking hist).parent j p.parent } := by
  simp only [family, setProc_life, setProc_pid, setProc_parent, setProc_nextpid,
    setProc_initproc]

end setProc

/-- A slot that keeps its stage of life, its pid and its parent. -/
theorem family_setProc_quiet {j : Slot} {p : Proc} (hlife : p.state.life = (t.proc j).state.life)
    (hpid : p.pid = (t.proc j).pid) (hparent : p.parent = (t.proc j).parent) :
    (t.setProc j p).family forking hist = t.family forking hist := by
  rw [family_setProc, hlife, hpid, hparent]
  simp only [family, update_eq_self]

/-! ## 2. What leaves the family alone -/

theorem family_wakeup1 (t : Ptable) (chan : Option Chan) :
    (t.wakeup1 chan).family forking hist = t.family forking hist :=
  family_congr (fun i => (wakeup1_woken t chan i).life) (wakeup1_pid t chan)
    (wakeup1_parent t chan) rfl rfl

theorem family_kill (t : Ptable) (pid : Int) :
    (t.kill pid).2.family forking hist = t.family forking hist := by
  unfold kill
  split
  · rfl
  · dsimp only
    split
    · rename_i hs
      exact family_setProc_quiet (by rw [hs]; rfl) rfl rfl
    · exact family_setProc_quiet rfl rfl rfl

theorem family_setpriority (t : Ptable) (pid priority : Int) :
    (t.setpriority pid priority).2.family forking hist = t.family forking hist := by
  unfold setpriority
  split
  · rfl
  · exact family_setProc_quiet rfl rfl rfl

theorem family_sleep {i : Slot} (hi : (t.proc i).state.life = .alive) (chan : Chan) :
    (t.sleep i chan).family forking hist = t.family forking hist :=
  family_setProc_quiet hi.symm rfl rfl

/-! ## 3. What steps it -/

theorem family_allocproc {i j : Slot} (hi : (t.proc i).state.life = .alive)
    (hno : forking i = .no) (h : t.allocproc = some (j, t'))
    (hnext : int32 (t.nextpid + 1) = t.nextpid + 1) :
    (t.family forking hist).Step (t'.family (update forking i (.alloced j))
      (.created (t.proc i).pid t.nextpid :: hist)) := by
  obtain ⟨hj, rfl⟩ := allocproc_eq_some h
  have hs := Family.Step.alloc (F := t.family forking hist) hi hno
    (ProcState.life_eq_unused.mpr hj)
  simpa only [family, setProc_life, setProc_pid, setProc_parent, update_eq_self, hnext,
    setProc_initproc, ProcState.life_embryo] using hs

theorem family_forkFail {i j : Slot} (hi : forking i = .alloced j) :
    (t.family forking hist).Step ((t.forkFail j).family (update forking i .no) hist) := by
  have hs := Family.Step.fail (F := t.family forking hist) hi
  simpa only [forkFail, setState, family, setProc_life, setProc_pid, setProc_parent,
    update_eq_self, setProc_initproc, setProc_nextpid, ProcState.life_unused] using hs

theorem family_link {i j : Slot} (hi : forking i = .alloced j) :
    (t.family forking hist).Step ((t.link i j).family (update forking i (.linked j)) hist) := by
  have hs := Family.Step.link (F := t.family forking hist) hi
  simpa only [link, family, setProc_life, setProc_pid, setProc_parent,
    update_eq_self, setProc_initproc, setProc_nextpid] using hs

theorem family_forkDone {i j : Slot} (hi : forking i = .linked j) :
    (t.family forking hist).Step ((t.setState j .runnable).family (update forking i .no)
      (.forked (t.proc i).pid (t.proc j).pid :: hist)) := by
  have hs := Family.Step.done (F := t.family forking hist) hi
  simpa only [setState, family, setProc_life, setProc_pid, setProc_parent,
    update_eq_self, setProc_initproc, setProc_nextpid, ProcState.life_runnable] using hs

theorem family_exit {i : Slot} (hi : (t.proc i).state.life = .alive) (hno : forking i = .no)
    (hne : i ≠ t.initproc) :
    (t.family forking hist).Step ((t.exit i).family forking (.exited (t.proc i).pid :: hist)) := by
  have h := exit_exited t i
  have hs := Family.Step.exit (F := t.family forking hist) hi hno hne
  have hlife : (fun k => ((t.exit i).proc k).state.life) =
      update (fun k => (t.proc k).state.life) i .zombie := by
    funext k
    rcases eq_or_ne k i with rfl | hk
    · rw [update_self, h.zombie]
      rfl
    · rw [update_of_ne hk]
      exact (h.woken k hk).life
  have hparent : (fun k => ((t.exit i).proc k).parent) = fun k =>
      if (t.family forking hist).parent k = some i then some t.initproc
      else (t.family forking hist).parent k := by
    funext k
    rw [h.parent]
    exact if_congr Iff.rfl rfl rfl
  simpa only [family, hlife, hparent, h.pid, h.nextpid, h.initproc] using hs

/-- How one scan of `wait` ends. -/
theorem wait_cases (t : Ptable) (i : Slot) :
    (∃ k, (t.proc k).parent = some i ∧ (t.proc k).state = .zombie ∧
      t.wait i = (.reaped (t.proc k).pid, t.setProc k { t.proc k with
        pid := 0, parent := none, killed := false, state := .unused })) ∨
    t.wait i = (.noKids, t) ∨
    (∀ k, (t.proc k).parent = some i → (t.proc k).state ≠ .zombie) ∧
      t.wait i = (.asleep, t.sleep i (.proc i)) := by
  cases hf : t.find fun p => p.parent = some i ∧ p.state = .zombie with
  | some k =>
    have hk := of_find_some hf
    simp only [decide_eq_true_eq] at hk
    exact Or.inl ⟨k, hk.1, hk.2, by simp only [wait, hf]⟩
  | none =>
    right
    simp only [wait, hf]
    split
    · exact Or.inl rfl
    · refine Or.inr ⟨fun k hk hz => ?_, rfl⟩
      have := of_find_none hf k
      simp [hk, hz] at this

theorem family_reap {i k : Slot} (hi : (t.proc i).state.life = .alive)
    (hk : (t.proc k).parent = some i) (hz : (t.proc k).state = .zombie) :
    (t.family forking hist).Step ((t.setProc k { t.proc k with
        pid := 0, parent := none, killed := false, state := .unused }).family forking
      (.waited (t.proc i).pid (t.proc k).pid :: hist)) := by
  have hs := Family.Step.reap (F := t.family forking hist) hi hk
    (ProcState.life_eq_zombie.mpr hz)
  simpa only [family, setProc_life, setProc_pid, setProc_parent, setProc_initproc,
    setProc_nextpid, ProcState.life_unused] using hs

/-! ## 4. Nobody oversleeps -/

/-- The process is asleep in `wait`. -/
def InWait (t : Ptable) (i : Slot) : Prop :=
  (t.proc i).state = .sleeping ∧ (t.proc i).chan = some (.proc i)

/-- Slot `k` holds a ZOMBIE child of `i`. -/
def ZombieChild (t : Ptable) (i k : Slot) : Prop :=
  (t.proc k).parent = some i ∧ (t.proc k).state = .zombie

/-- Nobody is asleep in `wait` with a ZOMBIE child. -/
def Awake (t : Ptable) : Prop := ∀ i k, t.InWait i → ¬ t.ZombieChild i k

theorem Awake.mono (h : t.Awake) (hw : ∀ i, t'.InWait i → t.InWait i)
    (hz : ∀ i k, t'.ZombieChild i k → t.ZombieChild i k) : t'.Awake :=
  fun i k hi hk => h i k (hw i hi) (hz i k hk)

/-- A slot that neither falls asleep in `wait` nor becomes a ZOMBIE child. -/
theorem Awake.setProc (h : t.Awake) {j : Slot} {p : Proc}
    (hw : p.state = .sleeping → p.chan = some (.proc j) → t.InWait j)
    (hz : p.state = .zombie → (t.proc j).state = .zombie ∧ (t.proc j).parent = p.parent) :
    (t.setProc j p).Awake := by
  refine h.mono (fun i hi => ?_) fun i k hk => ?_
  · rcases eq_or_ne i j with rfl | hij
    · simp only [InWait, setProc_self] at hi
      exact hw hi.1 hi.2
    · simpa only [InWait, setProc_of_ne t hij] using hi
  · rcases eq_or_ne k j with rfl | hkj
    · simp only [ZombieChild, setProc_self] at hk
      obtain ⟨hs, hp⟩ := hz hk.2
      exact ⟨hp.trans hk.1, hs⟩
    · simpa only [ZombieChild, setProc_of_ne t hkj] using hk

theorem Awake.setState (h : t.Awake) {j : Slot} {st : ProcState} (hs : st ≠ .sleeping)
    (hz : st ≠ .zombie) : (t.setState j st).Awake :=
  h.setProc (fun e => absurd e hs) fun e => absurd e hz

theorem Awake.wakeup1 (h : t.Awake) (chan : Option Chan) : (t.wakeup1 chan).Awake := by
  refine h.mono (fun i hi => ?_) fun i k hk => ?_
  · exact ⟨(wakeup1_woken t chan i).sleeping hi.1, (wakeup1_chan t chan i).symm.trans hi.2⟩
  · exact ⟨(wakeup1_parent t chan k).symm.trans hk.1,
      ((wakeup1_woken t chan k).eq_iff (by decide) (by decide)).mp hk.2⟩

theorem Awake.kill (h : t.Awake) (pid : Int) : (t.kill pid).2.Awake := by
  unfold Ptable.kill
  split
  · exact h
  · dsimp only
    split
    · exact h.setProc (fun e => nomatch e) fun e => nomatch e
    · exact h.setProc (fun hs hc => ⟨hs, hc⟩) fun hz => ⟨hz, rfl⟩

theorem Awake.setpriority (h : t.Awake) (pid priority : Int) :
    (t.setpriority pid priority).2.Awake := by
  unfold Ptable.setpriority
  split
  · exact h
  · exact h.setProc (fun hs hc => ⟨hs, hc⟩) fun hz => ⟨hz, rfl⟩

/-- **`exit` wakes who has to know**: the parent, and `initproc` when it inherits a ZOMBIE. -/
theorem Awake.exit (h : t.Awake) (hk : (t.family forking hist).Kin) {i : Slot} :
    (t.exit i).Awake := by
  intro p k hp hz
  have hx := exit_exited t i
  have hpar := hx.parent k
  rw [hz.1] at hpar
  have hchan : (t.proc p).chan = some (.proc p) := (hx.chan p).symm.trans hp.2
  have hpi : p ≠ i := fun e => by
    have := hp.1
    rw [e, hx.zombie] at this
    cases this
  rcases eq_or_ne k i with rfl | hki
  · -- the process that exits: its parent has been woken
    have hself : (t.proc k).parent ≠ some k := fun e => hk.ne k k e rfl
    rw [if_neg hself] at hpar
    exact hx.parent_awake p hpar.symm p hp.1 hchan
  · have hzk : (t.proc k).state = .zombie :=
      ((hx.woken k hki).eq_iff (by decide) (by decide)).mp hz.2
    split at hpar
    · -- a ZOMBIE child that `initproc` inherits
      rename_i hkp
      obtain rfl := Option.some.inj hpar
      exact hx.init_awake k hkp hzk _ hp.1 hchan
    · exact h p k ⟨(hx.woken p hpi).sleeping hp.1, hchan⟩ ⟨hpar.symm, hzk⟩

/-- A process that goes to sleep in `wait` has just seen that it has no ZOMBIE child. -/
theorem Awake.sleep (h : t.Awake) {i : Slot} {chan : Chan}
    (hi : chan = .proc i → ∀ k, ¬ t.ZombieChild i k) : (t.sleep i chan).Awake := by
  intro p k hp hz
  have hk : t.ZombieChild p k := by
    rcases eq_or_ne k i with rfl | hki
    · have := hz.2
      simp only [Ptable.sleep, setProc_self] at this
      cases this
    · simpa only [ZombieChild, Ptable.sleep, setProc_of_ne t hki] using hz
  rcases eq_or_ne p i with rfl | hpi
  · have := hp.2
    simp only [Ptable.sleep, setProc_self, Option.some.injEq] at this
    exact hi this k hk
  · refine h p k ?_ hk
    simpa only [InWait, Ptable.sleep, setProc_of_ne t hpi] using hp

end Ptable

end Xv6
