/-
# Wakeups of a pipe

A process sleeps on `&p->nread` because the pipe was empty, and on `&p->nwrite` because it was
full.  Whoever changes that holds `p->lock` and issues the wakeup before it gives the lock up:
`pipewrite` when it is done and when it sleeps itself, `piperead` when it is done, `pipeclose`
always.

The exception is the early exit of `pipewrite`: a writer that fills the pipe, and then finds that
it has been killed, returns -1 and wakes nobody.  A reader that was asleep stays asleep with 512
bytes to read: `lost_wakeup`.  In runs where no reader is asleep at that exit, no wakeup is lost:
`no_lost_wakeup`.
-/
import Mathlib.Tactic
import Xv6.Pipe.Fifo

namespace Xv6.Pipe

variable {ι : Type} {s s' : State ι}

/-! ## 1. The early exit -/

/-- The next turn of the loop of `pipewrite` returns -1. -/
def State.givesUp (s : State ι) (p : ι) : Bool :=
  match s.pc p with
  | .write _ src i => i < src.length && s.Full && (!s.readopen || s.killed p)
  | _ => false

/-- No reader is asleep when a writer gives up. -/
def NoSleeper (s : State ι) : Act ι → Prop
  | .go p => s.givesUp p = true → ∀ q, s.asleep q ≠ some .nread
  | _ => True

instance [Fintype ι] (s : State ι) : ∀ a, Decidable (NoSleeper s a)
  | .go p => inferInstanceAs (Decidable (s.givesUp p = true → ∀ q, s.asleep q ≠ some .nread))
  | .write _ _ | .read _ _ | .acquire _ | .close _ | .kill _ => isTrue trivial

/-! ## 2. Who may sleep -/

/-- The holder of the lock is in `pipewrite`. -/
def State.Storing (s : State ι) : Prop :=
  ∃ p id src i, s.holder = some p ∧ s.pc p = .write id src i

/-- The holder of the lock is copying in `piperead`. -/
def State.Fetching (s : State ι) : Prop := ∃ p n i, s.holder = some p ∧ s.pc p = .copy n i

/-- Readers sleep while the pipe is empty, or until the writer that holds the lock is done;
writers sleep while it is full, or until the reader that holds the lock is done. -/
structure Due (s : State ι) : Prop where
  reader : ∀ p, s.asleep p = some .nread → s.writeopen = true ∧ (s.Empty ∨ s.Storing)
  writer : ∀ p, s.asleep p = some .nwrite → s.readopen = true ∧ (s.Full ∨ s.Fetching)

theorem not_storing {p : ι} (hp : s.holder = some p) (hpc : ∀ id src i, s.pc p ≠ .write id src i) :
    ¬ s.Storing := by
  rintro ⟨q, id, src, i, hq, hw⟩
  obtain rfl := Option.some.inj (hq.symm.trans hp)
  exact hpc id src i hw

theorem not_fetching {p : ι} (hp : s.holder = some p) (hpc : ∀ n i, s.pc p ≠ .copy n i) :
    ¬ s.Fetching := by
  rintro ⟨q, n, i, hq, hc⟩
  obtain rfl := Option.some.inj (hq.symm.trans hp)
  exact hpc n i hc

theorem not_storing_of_free (hfree : s.holder = none) : ¬ s.Storing := by
  rintro ⟨q, id, src, i, hq, -⟩
  rw [hfree] at hq
  cases hq

theorem not_fetching_of_free (hfree : s.holder = none) : ¬ s.Fetching := by
  rintro ⟨q, n, i, hq, -⟩
  rw [hfree] at hq
  cases hq

/-- Who sleeps when the holder of the lock is not storing. -/
theorem Due.reader_empty (h : Due s) (hno : ¬ s.Storing) {p : ι} (hp : s.asleep p = some .nread) :
    s.writeopen = true ∧ s.Empty :=
  ⟨(h.reader p hp).1, (h.reader p hp).2.resolve_right hno⟩

/-- Who sleeps when the holder of the lock is not fetching. -/
theorem Due.writer_full (h : Due s) (hno : ¬ s.Fetching) {p : ι} (hp : s.asleep p = some .nwrite) :
    s.readopen = true ∧ s.Full :=
  ⟨(h.writer p hp).1, (h.writer p hp).2.resolve_right hno⟩

theorem due_start (data : Nat → UInt8) : Due (start ι data) := ⟨nofun, nofun⟩

/-- Nobody is left asleep on the channel of a wakeup, and nobody else is woken. -/
theorem wakeup_asleep {chan c : Chan} {p : ι} :
    (s.wakeup chan).asleep p = some c ↔ s.asleep p = some c ∧ c ≠ chan := by
  simp only [State.wakeup]
  split
  · rename_i h
    simp only [h, Option.some.injEq, reduceCtorEq, false_iff, not_and, not_not]
    exact fun e => e.symm
  · rename_i h
    exact ⟨fun e => ⟨e, fun ec => h (ec ▸ e)⟩, fun e => e.1⟩

/-! ## 3. Steps -/

theorem Due.close (h : Due s) (hfree : s.holder = none) (writable : Bool) :
    Due (s.close writable) := by
  unfold State.close
  split
  · refine ⟨fun q hq => absurd rfl (wakeup_asleep.mp hq).2, fun q hq => ?_⟩
    obtain ⟨ho, hf⟩ := h.writer_full (not_fetching_of_free hfree) (wakeup_asleep.mp hq).1
    exact ⟨ho, Or.inl hf⟩
  · refine ⟨fun q hq => ?_, fun q hq => absurd rfl (wakeup_asleep.mp hq).2⟩
    obtain ⟨ho, he⟩ := h.reader_empty (not_storing_of_free hfree) (wakeup_asleep.mp hq).1
    exact ⟨ho, Or.inl he⟩

variable [DecidableEq ι]

/-- A process that is not inside a call enters one: it does not hold the lock. -/
theorem Due.call (h : Due s) {p : ι} {last : Option Ret} (hpc : s.pc p = .user last) {pc : Pc}
    (hr : s'.ring = s.ring) (hro : s'.readopen = s.readopen) (hwo : s'.writeopen = s.writeopen)
    (hh : s'.holder = s.holder) (ha : s'.asleep = s.asleep)
    (hp : s'.pc = Function.update s.pc p pc) : Due s' := by
  have hkeep : ∀ {q x}, s.pc q = x → (∀ l, x ≠ .user l) → s'.pc q = x := fun {q x} hq hx => by
    rw [hp, Function.update_of_ne, hq]
    rintro rfl
    exact hx last (hq.symm.trans hpc)
  refine ⟨fun q hq => ?_, fun q hq => ?_⟩
  · obtain ⟨ho, hor⟩ := h.reader q (ha ▸ hq)
    refine ⟨hwo.trans ho, hor.imp (fun he => ?_) ?_⟩
    · simpa only [State.Empty, hr] using he
    · rintro ⟨r, id, src, i, hr, hw⟩
      exact ⟨r, id, src, i, hh.trans hr, hkeep hw nofun⟩
  · obtain ⟨ho, hor⟩ := h.writer q (ha ▸ hq)
    refine ⟨hro.trans ho, hor.imp (fun he => ?_) ?_⟩
    · simpa only [State.Full, hr] using he
    · rintro ⟨r, n, i, hr, hc⟩
      exact ⟨r, n, i, hh.trans hr, hkeep hc nofun⟩

theorem Due.goWrite (h : Due s) {p : ι} {id i : Nat} {src : List UInt8} (hp : s.holder = some p)
    (hpc : s.pc p = .write id src i)
    (hC : s.givesUp p = true → ∀ q, s.asleep q ≠ some .nread) : Due (s.goWrite p id src i) := by
  have hno : ¬ s.Fetching := not_fetching hp (by simp [hpc])
  unfold State.goWrite
  split
  · rename_i b hb
    have hlt := (List.getElem?_eq_some_iff.mp hb).1
    split_ifs with hfull hexit
    · -- the early exit
      have hgive : s.givesUp p = true := by
        simpa [State.givesUp, hpc, hlt, hfull] using hexit
      exact ⟨fun q hq => absurd hq (hC hgive q), fun q hq => ⟨(h.writer q hq).1, Or.inl hfull⟩⟩
    · simp only [not_or, Bool.not_eq_false] at hexit
      refine ⟨fun q hq => ?_, fun q hq => ⟨hexit.1, Or.inl hfull⟩⟩
      rcases eq_or_ne q p with rfl | hne
      · simp [State.sleep] at hq
      · simp only [State.sleep, Function.update_of_ne hne, wakeup_asleep] at hq
        exact absurd rfl hq.2
    · refine ⟨fun q hq => ⟨(h.reader q hq).1, Or.inr ⟨p, id, src, i + 1, hp, by simp [State.setPc]⟩⟩,
        fun q hq => absurd (h.writer_full hno hq).2 hfull⟩
  · refine ⟨fun q hq => ?_, fun q hq => ?_⟩
    · exact absurd rfl (wakeup_asleep.mp hq).2
    · obtain ⟨ho, hf⟩ := h.writer_full hno (wakeup_asleep.mp hq).1
      exact ⟨ho, Or.inl hf⟩

theorem Due.goRead (h : Due s) {p : ι} {n : Nat} (hp : s.holder = some p)
    (hpc : s.pc p = .read n) : Due (s.goRead p n) := by
  have hno : ¬ s.Storing := not_storing hp (by simp [hpc])
  have hno' : ¬ s.Fetching := not_fetching hp (by simp [hpc])
  have hr : ∀ q, s.asleep q = some .nread → s.writeopen = true ∧ s.Empty := fun q =>
    h.reader_empty hno
  have hw : ∀ q, s.asleep q = some .nwrite → s.readopen = true ∧ s.Full := fun q =>
    h.writer_full hno'
  unfold State.goRead
  split_ifs with hwait hkilled
  · exact ⟨fun q hq => (hr q hq).imp_right Or.inl, fun q hq => (hw q hq).imp_right Or.inl⟩
  · refine ⟨fun q _ => ⟨hwait.2, Or.inl hwait.1⟩, fun q hq => ?_⟩
    rcases eq_or_ne q p with rfl | hne
    · simp [State.sleep] at hq
    · simp only [State.sleep, Function.update_of_ne hne] at hq
      exact (hw q hq).imp_right Or.inl
  · exact ⟨fun q hq => (hr q hq).imp_right Or.inl, fun q hq => (hw q hq).imp_right Or.inl⟩

theorem Due.goCopy (h : Due s) {p : ι} {n i : Nat} (hp : s.holder = some p)
    (hpc : s.pc p = .copy n i) : Due (s.goCopy p n i) := by
  have hno : ¬ s.Storing := not_storing hp (by simp [hpc])
  unfold State.goCopy
  split_ifs with hmore
  · exact ⟨fun q hq => absurd (h.reader_empty hno hq).2 hmore.2, fun q hq =>
      ⟨(h.writer q hq).1, Or.inr ⟨p, n, i + 1, hp, by simp [State.setPc]⟩⟩⟩
  · refine ⟨fun q hq => ?_, fun q hq => absurd rfl (wakeup_asleep.mp hq).2⟩
    obtain ⟨ho, he⟩ := h.reader_empty hno (wakeup_asleep.mp hq).1
    exact ⟨ho, Or.inl he⟩

/-- **One step** that gives up on no sleeping reader. -/
theorem Due.step (h : Due s) {a : Act ι} (hC : NoSleeper s a) (hs : s.step a = some s') :
    Due s' := by
  cases a with
  | write p src =>
    simp only [State.step] at hs
    split at hs
    · rename_i last hpc
      obtain rfl := Option.some.inj hs
      exact h.call hpc rfl rfl rfl rfl rfl rfl
    · cases hs
  | read p n =>
    simp only [State.step] at hs
    split at hs
    · rename_i last hpc
      obtain rfl := Option.some.inj hs
      exact h.call hpc rfl rfl rfl rfl rfl rfl
    · cases hs
  | acquire p =>
    simp only [State.step, Option.ite_none_right_eq_some, Option.some.injEq] at hs
    obtain ⟨⟨hfree, -⟩, rfl⟩ := hs
    exact ⟨fun q hq => (h.reader_empty (not_storing_of_free hfree) hq).imp_right Or.inl,
      fun q hq => (h.writer_full (not_fetching_of_free hfree) hq).imp_right Or.inl⟩
  | go p =>
    simp only [State.step, Option.ite_none_right_eq_some] at hs
    obtain ⟨hp, hs⟩ := hs
    split at hs <;> rename_i hpc
    · exact Option.some.inj hs ▸ h.goWrite hp hpc hC
    · exact Option.some.inj hs ▸ h.goRead hp hpc
    · exact Option.some.inj hs ▸ h.goCopy hp hpc
    · cases hs
  | close writable =>
    simp only [State.step, Option.ite_none_right_eq_some, Option.some.injEq] at hs
    obtain ⟨hfree, rfl⟩ := hs
    exact h.close hfree writable
  | kill p =>
    obtain rfl := Option.some.inj hs
    have hsub : ∀ {q c}, Function.update s.asleep p none q = some c → s.asleep q = some c :=
      fun {q c} hq => by
        rcases eq_or_ne q p with rfl | hne
        · simp at hq
        · rwa [Function.update_of_ne hne] at hq
    exact ⟨fun q hq => h.reader q (hsub hq), fun q hq => h.writer q (hsub hq)⟩

theorem Reach.due (h : Reach NoSleeper s) : Due s := by
  induction h with
  | start data => exact due_start data
  | step _ hC hs ih => exact ih.step hC hs

/-! ## 4. Lost and found -/

/-- **No wakeup is lost** in runs where no reader is asleep when a writer gives up: whenever
`p->lock` is free, readers are asleep only while the pipe is empty with its write end open, and
writers only while it is full with its read end open. -/
theorem no_lost_wakeup (h : Reach NoSleeper s) (hfree : s.holder = none) :
    (∀ p, s.asleep p = some .nread → s.Empty ∧ s.writeopen = true) ∧
    ∀ p, s.asleep p = some .nwrite → s.Full ∧ s.readopen = true :=
  ⟨fun _ hp => (h.due.reader_empty (not_storing_of_free hfree) hp).symm,
    fun _ hp => (h.due.writer_full (not_fetching_of_free hfree) hp).symm⟩

/-- Process 0 sleeps in `piperead`; process 1 writes a byte and wakes it. -/
def oneByte : List (Act (Fin 2)) :=
  [.read 0 1, .acquire 0, .go 0, .write 1 [7], .acquire 1, .go 1, .go 1]

/-- The reader is awake when the byte is there. -/
theorem no_lost_wakeup_oneByte :
    ∃ s, exec NoSleeper (start (Fin 2) fun _ => 0) oneByte = some s ∧ s.holder = none ∧
      ¬ s.Empty ∧ ∀ p, s.asleep p ≠ some .nread := by
  have hrun : (exec NoSleeper (start (Fin 2) fun _ => 0) oneByte).any
      (fun s => s.holder = none ∧ ¬ s.Empty) = true := by decide +kernel
  obtain ⟨s, hs, hcheck⟩ := (Option.any_eq_true _ _).mp hrun
  obtain ⟨hfree, hne⟩ := of_decide_eq_true hcheck
  exact ⟨s, hs, hfree, hne, fun p hp =>
    hne ((no_lost_wakeup (reach_exec (.start _) hs) hfree).1 p hp).1⟩

/-- Process 0 sleeps in `piperead`; process 1 calls `pipewrite` with 513 bytes and is killed
before it takes the lock. -/
def killedWriter : List (Act (Fin 2)) :=
  [.read 0 1, .acquire 0, .go 0, .write 1 (List.replicate 513 7), .kill 1, .acquire 1].append
    (List.replicate 513 (.go 1))

/-- **A lost wakeup.**  The writer stores 512 bytes, finds the pipe full and itself killed, and
returns -1.  The lock is free, the pipe is full, and the reader is still asleep. -/
theorem lost_wakeup : ∃ s, Reach Any s ∧ s.holder = none ∧ s.asleep 0 = some .nread ∧
    ¬ s.Empty ∧ s.writeopen = true ∧ s.pc 1 = .user (some (.write (-1))) ∧
    exec Any (start (Fin 2) fun _ => 0) killedWriter = some s := by
  have hrun : (exec Any (start (Fin 2) fun _ => 0) killedWriter).any
      (fun s => s.holder = none ∧ s.asleep 0 = some .nread ∧ ¬ s.Empty ∧ s.writeopen = true ∧
        s.pc 1 = .user (some (.write (-1)))) = true := by decide +kernel
  obtain ⟨s, hs, hcheck⟩ := (Option.any_eq_true _ _).mp hrun
  obtain ⟨hfree, hasleep, hne, hopen, hpc⟩ := of_decide_eq_true hcheck
  exact ⟨s, reach_exec (.start _) hs, hfree, hasleep, hne, hopen, hpc, hs⟩

end Xv6.Pipe
