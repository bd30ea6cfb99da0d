/-
# Transactions of whole operations: `begin_op`, `log_write`, `end_op`

Any number of processes run file system operations at the same time.  `log.lock` makes each
test-and-update of the log's counters atomic, so a run is an interleaving of the critical
sections, and a state of the model is a state in which `log.lock` is free.  `commit` is
called WITHOUT the lock; its block writes and `log.lh.n = 0` are steps of their own, between
the critical section that sets `committing` and the one that clears it.

`step` is the code.  Beside the kernel's variables a state carries a history that no step
tests: each operation with the blocks it has logged (`Op`), the operations begun since the
last commit (`ops`), and what every finished commit wrote (`commits`).

The invariant (`Inv`) says what the three variables `outstanding`, `committing` and `lh` mean
in terms of that history.  `whole_operations` reads the guarantees off it.
-/
import Mathlib.Data.Finset.Card
import Mathlib.Data.List.GetD
import Mathlib.Logic.Function.Basic
import Mathlib.Logic.Relation
import Xv6.Param

namespace Xv6.Log

open Function (update update_of_ne update_self)

/-! ## 1. Processes, operations and the log -/

/-- Where a process of `commit` is: at the test of `lh.n`, in `write_log` with `tail` copies
made, at the commit point, in `install_trans`, at `lh.n = 0`, at the erasing `write_head`, or
back in `end_op` before its second critical section. -/
inductive Phase
  | test
  | copy (tail : Nat)
  | head
  | install (tail : Nat)
  | clear
  | erase
  | wake
  deriving DecidableEq

/-- Where a process is with respect to the log. -/
inductive Pc
  /-- Outside any operation. -/
  | out
  /-- In `begin_op`, woken up and about to test again. -/
  | ready
  /-- In `begin_op`, asleep on `&log`. -/
  | asleep
  /-- Between `begin_op` and `end_op`. -/
  | inOp
  /-- In `log_write(b)`, past its two tests and before `acquire(&log.lock)`. -/
  | logging (b : Nat)
  /-- In `end_op` with `do_commit = 1`. -/
  | commit (ph : Phase)
  deriving DecidableEq

/-- The process has begun an operation and not ended it. -/
def Pc.isActive : Pc → Bool
  | .inOp | .logging _ => true
  | _ => false

def Pc.isCommit : Pc → Bool
  | .commit _ => true
  | _ => false

/-- The panics of the three functions. -/
inductive Panic
  /-- `log.committing` -/
  | committing
  /-- `too big a transaction` -/
  | tooBig
  /-- `log_write outside of trans` -/
  | outsideOfTrans
  deriving DecidableEq

/-- One operation, for the history. -/
structure Op (P : Type) where
  id : Nat
  who : P
  blocks : List Nat
  ended : Bool

/-- One finished commit, for the history: the operations it covers and the blocks it wrote to
their home locations. -/
structure CommitRecord (P : Type) where
  ops : List (Op P)
  written : List Nat

/-- The log and the processes. -/
structure State (P : Type) where
  outstanding : Int
  committing : Bool
  /-- `lh.block[0 .. lh.n)` -/
  lh : List Nat
  pc : P → Pc
  panic : Option Panic
  /-- The blocks `install_trans` has written in the current commit. -/
  written : List Nat
  /-- The operations begun since the last commit. -/
  ops : List (Op P)
  commits : List (CommitRecord P)
  /-- How many operations ever began. -/
  nops : Nat

/-- Nobody has called into the log yet. -/
def init (P : Type) : State P where
  outstanding := 0
  committing := false
  lh := []
  pc := fun _ => .out
  panic := none
  written := []
  ops := []
  commits := []
  nops := 0

/-! ## 2. The code -/

section

variable {P : Type} [DecidableEq P]

def State.setPc (s : State P) (p : P) (c : Pc) : State P :=
  { s with pc := Function.update s.pc p c }

/-- `wakeup(&log)`. -/
def State.wakeup (s : State P) : State P :=
  { s with pc := fun p => if s.pc p = .asleep then .ready else s.pc p }

/-- `begin_op`, from `acquire` (or from the return of `sleep`) to `sleep` or `release`. -/
def beginOp (s : State P) (p : P) : State P :=
  if s.committing then s.setPc p .asleep
  else if (s.lh.length : Int) + (s.outstanding + 1) * MAXOPBLOCKS > LOGSIZE then
    s.setPc p .asleep
  else
    { s.setPc p .inOp with
      outstanding := s.outstanding + 1
      ops := s.ops ++ [⟨s.nops, p, [], false⟩]
      nops := s.nops + 1 }

/-- The two tests of `log_write`, made before it takes the lock. -/
def logTest (size : Int) (s : State P) (p : P) (b : Nat) : State P :=
  if (s.lh.length : Int) ≥ LOGSIZE ∨ (s.lh.length : Int) ≥ size - 1 then
    { s with panic := some .tooBig }
  else if s.outstanding < 1 then { s with panic := some .outsideOfTrans }
  else s.setPc p (.logging b)

/-- The loop of `log_write`: the block is found (log absorption) or appended. -/
def absorb (lh : List Nat) (b : Nat) : List Nat := if b ∈ lh then lh else lh ++ [b]

/-- History: the running operation of `p` has logged `b`. -/
def Op.log (p : P) (b : Nat) (o : Op P) : Op P :=
  if o.who = p ∧ o.ended = false then { o with blocks := b :: o.blocks } else o

/-- History: the running operation of `p` has ended. -/
def Op.finish (p : P) (o : Op P) : Op P :=
  if o.who = p ∧ o.ended = false then { o with ended := true } else o

/-- The critical section of `log_write`. -/
def logWrite (s : State P) (p : P) (b : Nat) : State P :=
  { s.setPc p .inOp with lh := absorb s.lh b, ops := s.ops.map (Op.log p b) }

/-- The first critical section of `end_op`. -/
def endOp (s : State P) (p : P) : State P :=
  let s₁ := { s with outstanding := s.outstanding - 1, ops := s.ops.map (Op.finish p) }
  if s.committing then { s₁ with panic := some .committing }
  else if s₁.outstanding = 0 then { s₁.setPc p (.commit .test) with committing := true }
  else (s₁.setPc p .out).wakeup

/-- One step of `commit`, which runs without the lock. -/
def commitStep (s : State P) (p : P) : Phase → State P
  | .test =>
    if s.lh.length > 0 then s.setPc p (.commit (.copy 0))
    else
      { s.setPc p (.commit .wake) with
        ops := [], commits := s.commits ++ [⟨s.ops, []⟩] }
  | .copy tail =>
    if tail < s.lh.length then s.setPc p (.commit (.copy (tail + 1)))
    else s.setPc p (.commit .head)
  | .head => s.setPc p (.commit (.install 0))
  | .install tail =>
    if tail < s.lh.length then
      { s.setPc p (.commit (.install (tail + 1))) with
        written := s.written ++ [s.lh.getD tail 0] }
    else s.setPc p (.commit .clear)
  | .clear =>
    { s.setPc p (.commit .erase) with
      lh := [], ops := [], commits := s.commits ++ [⟨s.ops, s.written⟩], written := [] }
  | .erase => s.setPc p (.commit .wake)
  -- the second critical section of `end_op`
  | .wake => ({ s.setPc p .out with committing := false }).wakeup

/-- What can happen next. -/
inductive Act (P : Type)
  | begin (p : P)
  | kill (p : P)
  | logTest (p : P) (b : Nat)
  | logWrite (p : P)
  | endOp (p : P)
  | commit (p : P)

/-- One atomic step.  `none` when the process is not at that point of the code; after a panic
nothing runs.  `kill` stands for any wakeup that is not sent by the log code. -/
def step (size : Int) (s : State P) (a : Act P) : Option (State P) :=
  if s.panic ≠ none then none
  else match a with
    | .begin p => if s.pc p = .out ∨ s.pc p = .ready then some (beginOp s p) else none
    | .kill p => if s.pc p = .asleep then some (s.setPc p .ready) else none
    | .logTest p b => if s.pc p = .inOp then some (logTest size s p b) else none
    | .logWrite p => match s.pc p with
      | .logging b => some (logWrite s p b)
      | _ => none
    | .endOp p => if s.pc p = .inOp then some (endOp s p) else none
    | .commit p => match s.pc p with
      | .commit ph => some (commitStep s p ph)
      | _ => none

/-- The states of a run of the log code on a log area of `size` blocks. -/
def Reachable (size : Int) (s : State P) : Prop :=
  Relation.ReflTransGen (fun s s' => ∃ a, step size s a = some s') (init P) s

/-! ## 3. The history functions -/

@[simp] theorem Op.log_who (p : P) (b : Nat) (o : Op P) : (Op.log p b o).who = o.who := by
  unfold Op.log; split <;> rfl

@[simp] theorem Op.log_ended (p : P) (b : Nat) (o : Op P) :
    (Op.log p b o).ended = o.ended := by
  unfold Op.log; split <;> rfl

@[simp] theorem Op.log_id (p : P) (b : Nat) (o : Op P) : (Op.log p b o).id = o.id := by
  unfold Op.log; split <;> rfl

theorem Op.mem_log_blocks {p : P} {b b' : Nat} {o : Op P} :
    b' ∈ (Op.log p b o).blocks ↔
      b' ∈ o.blocks ∨ (b' = b ∧ o.who = p ∧ o.ended = false) := by
  unfold Op.log
  split
  · rename_i h
    simp [h]
    tauto
  · rename_i h
    simp [h]

@[simp] theorem Op.finish_who (p : P) (o : Op P) : (Op.finish p o).who = o.who := by
  unfold Op.finish; split <;> rfl

@[simp] theorem Op.finish_blocks (p : P) (o : Op P) : (Op.finish p o).blocks = o.blocks := by
  unfold Op.finish; split <;> rfl

@[simp] theorem Op.finish_id (p : P) (o : Op P) : (Op.finish p o).id = o.id := by
  unfold Op.finish; split <;> rfl

theorem Op.finish_ended_eq_false {p : P} {o : Op P} :
    (Op.finish p o).ended = false ↔ o.ended = false ∧ o.who ≠ p := by
  unfold Op.finish
  split
  · rename_i h
    simp [h]
  · rename_i h
    constructor
    · exact fun he => ⟨he, fun hw => h ⟨hw, he⟩⟩
    · exact fun he => he.1

theorem mem_absorb {lh : List Nat} {b b' : Nat} : b' ∈ absorb lh b ↔ b' ∈ lh ∨ b' = b := by
  unfold absorb
  split
  · rename_i h
    exact ⟨Or.inl, fun h' => h'.elim id fun e => e ▸ h⟩
  · simp

end

/-! ## 4. The invariant -/

section

variable {P : Type}

/-- A commit record is exact: it wrote the blocks its operations logged, no others, and they
had all ended. -/
def CommitRecord.Exact (c : CommitRecord P) : Prop :=
  (∀ b, b ∈ c.written ↔ ∃ o ∈ c.ops, b ∈ o.blocks) ∧ ∀ o ∈ c.ops, o.ended = true

/-- How far the commit is, in each of its phases. -/
def PhaseOk (s : State P) : Phase → Prop
  | .test | .copy _ | .head => s.written = []
  | .install tail => tail ≤ s.lh.length ∧ s.written = s.lh.take tail
  | .clear => s.written = s.lh
  | .erase | .wake => s.lh = [] ∧ s.ops = [] ∧ s.written = []

/-- What the log's variables mean. -/
structure Inv (s : State P) : Prop where
  /-- `outstanding` counts the processes inside an operation. -/
  count : ∃ A : Finset P, (∀ p, p ∈ A ↔ (s.pc p).isActive = true) ∧ s.outstanding = A.card
  /-- Only one process commits, with `committing` set and nobody inside an operation. -/
  committer : ∀ p, (s.pc p).isCommit = true → s.committing = true
  unique : ∀ p q, (s.pc p).isCommit = true → (s.pc q).isCommit = true → p = q
  quiet : s.committing = true → s.outstanding = 0
  /-- The running operations are those of the processes inside one. -/
  running : ∀ p, (s.pc p).isActive = true → ∃ o ∈ s.ops, o.who = p ∧ o.ended = false
  active : ∀ o ∈ s.ops, o.ended = false → (s.pc o.who).isActive = true
  /-- `lh` is the union of what the operations since the last commit have logged. -/
  logged : ∀ b, b ∈ s.lh ↔ ∃ o ∈ s.ops, b ∈ o.blocks
  phase : ∀ p ph, s.pc p = .commit ph → PhaseOk s ph
  idle : s.committing = false → s.written = [] ∧ (s.outstanding = 0 → s.ops = [])
  asleep : ∀ p, s.pc p = .asleep → 0 < s.outstanding ∨ s.committing = true
  panic : s.panic ≠ some .committing
  exact : ∀ c ∈ s.commits, c.Exact
  /-- Every operation is in exactly one commit or not yet in any. -/
  serial : (s.commits.flatMap CommitRecord.ops ++ s.ops).map Op.id = List.range s.nops

theorem inv_init : Inv (init P) where
  count := ⟨∅, by simp [init, Pc.isActive], by simp [init]⟩
  committer := by simp [init, Pc.isCommit]
  unique := by simp [init, Pc.isCommit]
  quiet := by simp [init]
  running := by simp [init, Pc.isActive]
  active := by simp [init]
  logged := by simp [init]
  phase := by simp [init]
  idle := by simp [init]
  asleep := by simp [init]
  panic := by simp [init]
  exact := by simp [init]
  serial := by simp [init]

variable {s : State P}

theorem Inv.outstanding_nonneg (h : Inv s) : 0 ≤ s.outstanding := by
  obtain ⟨A, -, hA⟩ := h.count
  omega

/-- With `outstanding = 0` nobody is inside an operation. -/
theorem Inv.not_active (h : Inv s) (h0 : s.outstanding = 0) (p : P) :
    (s.pc p).isActive = false := by
  obtain ⟨A, hA, hc⟩ := h.count
  have : A = ∅ := Finset.card_eq_zero.mp (by omega)
  subst this
  exact Bool.eq_false_iff.mpr fun hp => absurd ((hA p).mpr hp) (Finset.notMem_empty p)

/-- ...and every operation since the last commit has ended. -/
theorem Inv.all_ended (h : Inv s) (h0 : s.outstanding = 0) : ∀ o ∈ s.ops, o.ended = true := by
  intro o ho
  by_contra hne
  have := h.active o ho (Bool.eq_false_iff.mpr hne)
  rw [h.not_active h0 o.who] at this
  exact Bool.noConfusion this

theorem Inv.lh_eq_nil (h : Inv s) (hc : s.committing = false) (h0 : s.outstanding = 0) :
    s.lh = [] := by
  have hops := (h.idle hc).2 h0
  refine List.eq_nil_iff_forall_not_mem.mpr fun b hb => ?_
  obtain ⟨o, ho, -⟩ := (h.logged b).mp hb
  simp [hops] at ho

/-! ### Wakeups move processes only inside `begin_op` -/

theorem wakeup_isActive (s : State P) (q : P) :
    (s.wakeup.pc q).isActive = (s.pc q).isActive := by
  simp only [State.wakeup]
  split
  · rename_i h
    simp [h, Pc.isActive]
  · rfl

theorem wakeup_isCommit (s : State P) (q : P) :
    (s.wakeup.pc q).isCommit = (s.pc q).isCommit := by
  simp only [State.wakeup]
  split
  · rename_i h
    simp [h, Pc.isCommit]
  · rfl

theorem wakeup_ne_asleep (s : State P) (q : P) : s.wakeup.pc q ≠ .asleep := by
  simp only [State.wakeup]
  split
  · simp
  · assumption

theorem Inv.wakeup (h : Inv s) : Inv s.wakeup := by
  obtain ⟨A, hA, hn⟩ := h.count
  refine ⟨⟨A, fun q => by rw [wakeup_isActive]; exact hA q, hn⟩,
    fun q hq => h.committer q (wakeup_isCommit s q ▸ hq),
    fun q r hq hr => h.unique q r (wakeup_isCommit s q ▸ hq) (wakeup_isCommit s r ▸ hr), h.quiet,
    fun q hq => h.running q (wakeup_isActive s q ▸ hq),
    fun o ho he => by rw [wakeup_isActive]; exact h.active o ho he, h.logged, ?_, h.idle,
    fun q hq => absurd hq (wakeup_ne_asleep s q), h.panic, h.exact, h.serial⟩
  intro q ph hq
  refine h.phase q ph ?_
  simp only [State.wakeup] at hq
  split at hq
  · simp at hq
  · exact hq

end

/-! ## 5. Every step keeps the invariant -/

section

variable {P : Type} [DecidableEq P] {s : State P}

/-- A process moves without entering or leaving an operation or the commit. -/
theorem Inv.move (h : Inv s) {p : P} {c : Pc} (ha : c.isActive = (s.pc p).isActive)
    (hc : c.isCommit = (s.pc p).isCommit) (hph : ∀ ph, c = .commit ph → PhaseOk s ph)
    (hsl : c = .asleep → 0 < s.outstanding ∨ s.committing = true) : Inv (s.setPc p c) := by
  have hact : ∀ q, ((s.setPc p c).pc q).isActive = (s.pc q).isActive := fun q => by
    by_cases hq : q = p
    · subst hq
      simp [State.setPc, ha]
    · simp [State.setPc, hq]
  have hcom : ∀ q, ((s.setPc p c).pc q).isCommit = (s.pc q).isCommit := fun q => by
    by_cases hq : q = p
    · subst hq
      simp [State.setPc, hc]
    · simp [State.setPc, hq]
  obtain ⟨A, hA, hn⟩ := h.count
  refine ⟨⟨A, fun q => by rw [hact]; exact hA q, hn⟩, fun q hq => h.committer q (hcom q ▸ hq),
    fun q r hq hr => h.unique q r (hcom q ▸ hq) (hcom r ▸ hr), h.quiet,
    fun q hq => h.running q (hact q ▸ hq), fun o ho he => by rw [hact]; exact h.active o ho he,
    h.logged, ?_, h.idle, ?_, h.panic, h.exact, h.serial⟩
  · intro q ph hq
    by_cases e : q = p
    · subst e
      exact hph ph (by simpa [State.setPc] using hq)
    · exact h.phase q ph (by simpa [State.setPc, e] using hq)
  · intro q hq
    by_cases e : q = p
    · subst e
      exact hsl (by simpa [State.setPc] using hq)
    · exact h.asleep q (by simpa [State.setPc, e] using hq)

theorem Inv.beginOp (h : Inv s) {p : P} (hp : s.pc p = .out ∨ s.pc p = .ready) :
    Inv (beginOp s p) := by
  have ha : (s.pc p).isActive = false := by rcases hp with e | e <;> simp [e, Pc.isActive]
  have hc : (s.pc p).isCommit = false := by rcases hp with e | e <;> simp [e, Pc.isCommit]
  unfold Log.beginOp
  split
  · rename_i hcom
    exact h.move ha.symm hc.symm (by simp) fun _ => Or.inr hcom
  · rename_i hcom
    have hcom' : s.committing = false := by simpa using hcom
    split
    · rename_i hfull
      refine h.move ha.symm hc.symm (by simp) fun _ => Or.inl ?_
      -- with nothing outstanding the log is empty, and one reservation fits
      by_contra hle
      have h0 : s.outstanding = 0 := by have := h.outstanding_nonneg; omega
      simp [h.lh_eq_nil hcom' h0, h0] at hfull
    · obtain ⟨A, hA, hn⟩ := h.count
      have hpA : p ∉ A := fun hm => by
        have := (hA p).mp hm
        rw [ha] at this
        exact Bool.noConfusion this
      refine ⟨⟨insert p A, fun q => ?_, ?_⟩, ?_, ?_, ?_, ?_, ?_, ?_, ?_, ?_, ?_, h.panic,
        h.exact, ?_⟩
      · by_cases hq : q = p
        · subst hq
          simp [State.setPc, Pc.isActive]
        · simp [State.setPc, hq, hA]
      · simp [Finset.card_insert_of_notMem hpA, hn]
      · intro q hq
        by_cases e : q = p
        · subst e
          simp [State.setPc, Pc.isCommit] at hq
        · exact h.committer q (by simpa [State.setPc, e] using hq)
      · intro q r hq hr
        by_cases e : q = p
        · subst e
          simp [State.setPc, Pc.isCommit] at hq
        · by_cases e' : r = p
          · subst e'
            simp [State.setPc, Pc.isCommit] at hr
          · exact h.unique q r (by simpa [State.setPc, e] using hq)
              (by simpa [State.setPc, e'] using hr)
      · intro hcon
        exact absurd hcon hcom
      · intro q hq
        by_cases e : q = p
        · subst e
          exact ⟨_, List.mem_append_right _ (List.mem_singleton.mpr rfl), rfl, rfl⟩
        · obtain ⟨o, ho, hw⟩ := h.running q (by simpa [State.setPc, e] using hq)
          exact ⟨o, List.mem_append_left _ ho, hw⟩
      · intro o ho he
        by_cases e : o.who = p
        · simp [State.setPc, e, Pc.isActive]
        · rcases List.mem_append.mp ho with ho | ho
          · simpa [State.setPc, e] using h.active o ho he
          · rw [List.mem_singleton.mp ho] at e
            exact absurd rfl e
      · intro b
        simp only [State.setPc, List.mem_append, List.mem_singleton, or_and_right, exists_or,
          exists_eq_left, List.not_mem_nil, or_false]
        exact h.logged b
      · intro q ph hq
        by_cases e : q = p
        · subst e
          simp [State.setPc] at hq
        · have hq' : s.pc q = .commit ph := by simpa [State.setPc, e] using hq
          exact absurd (h.committer q (by simp [hq', Pc.isCommit])) hcom
      · intro _
        refine ⟨(h.idle hcom').1, fun h0 => ?_⟩
        have := h.outstanding_nonneg
        simp only at h0
        omega
      · intro q hq
        exact Or.inl (by have := h.outstanding_nonneg; simp only; omega)
      · simp only [State.setPc, ← List.append_assoc, List.map_append, List.map_cons,
          List.map_nil, List.range_succ]
        rw [← h.serial, List.map_append]

theorem Inv.logTest (h : Inv s) {size : Int} {p : P} {b : Nat} (hp : s.pc p = .inOp) :
    Inv (logTest size s p b) := by
  unfold Log.logTest
  split
  · exact ⟨h.count, h.committer, h.unique, h.quiet, h.running, h.active, h.logged, h.phase,
      h.idle, h.asleep, by simp, h.exact, h.serial⟩
  · split
    · exact ⟨h.count, h.committer, h.unique, h.quiet, h.running, h.active, h.logged, h.phase,
        h.idle, h.asleep, by simp, h.exact, h.serial⟩
    · exact h.move (by simp [hp, Pc.isActive]) (by simp [hp, Pc.isCommit]) (by simp) (by simp)

/-- Logging a block adds it to `lh` and to the history of the running operation. -/
theorem Inv.logWrite (h : Inv s) {p : P} {b : Nat} (hp : s.pc p = .logging b) :
    Inv (logWrite s p b) := by
  have hpa : (s.pc p).isActive = true := by simp [hp, Pc.isActive]
  have hcom : s.committing = false := by
    refine Bool.eq_false_iff.mpr fun hc => ?_
    rw [h.not_active (h.quiet hc) p] at hpa
    exact Bool.noConfusion hpa
  have hm : Inv (s.setPc p .inOp) :=
    h.move (by simp [hp, Pc.isActive]) (by simp [hp, Pc.isCommit]) (by simp) (by simp)
  refine ⟨hm.count, hm.committer, hm.unique, hm.quiet, ?_, ?_, ?_, ?_, ?_, hm.asleep, hm.panic,
    hm.exact, ?_⟩
  · intro q hq
    obtain ⟨o, ho, hw, he⟩ := hm.running q hq
    exact ⟨Op.log p b o, List.mem_map_of_mem ho, by simpa using hw, by simpa using he⟩
  · intro o ho he
    obtain ⟨o', ho', rfl⟩ := List.mem_map.mp ho
    rw [Op.log_who]
    exact hm.active o' ho' (by simpa using he)
  · intro b'
    obtain ⟨o₀, ho₀, hw₀⟩ := h.running p hpa
    simp only [Log.logWrite, mem_absorb, List.mem_map, exists_exists_and_eq_and,
      Op.mem_log_blocks]
    rw [h.logged b']
    constructor
    · rintro (⟨o, ho, hb⟩ | rfl)
      · exact ⟨o, ho, Or.inl hb⟩
      · exact ⟨o₀, ho₀, Or.inr ⟨rfl, hw₀⟩⟩
    · rintro ⟨o, ho, hb | ⟨hb, -⟩⟩
      · exact Or.inl ⟨o, ho, hb⟩
      · exact Or.inr hb
  · intro q ph hq
    have hq' : ((s.setPc p .inOp).pc q).isCommit = true := by
      have : (s.setPc p .inOp).pc q = .commit ph := hq
      simp [this, Pc.isCommit]
    exact absurd (hm.committer q hq') (by simp [State.setPc, hcom])
  · intro _
    refine ⟨(h.idle hcom).1, fun h0 => ?_⟩
    simp only [Log.logWrite, List.map_eq_nil_iff]
    exact (h.idle hcom).2 h0
  · have := hm.serial
    simp only [Log.logWrite, List.map_append, List.map_map, State.setPc] at this ⊢
    rw [← this]
    congr 1
    exact List.map_congr_left fun o _ => Op.log_id p b o

/-- The state of the first critical section of `end_op` before it branches: the operation has
ended and `outstanding` counts one less. -/
theorem Inv.endOp_count (h : Inv s) {p : P} (hp : s.pc p = .inOp) (c : Pc)
    (hc : c.isActive = false) :
    ∃ A : Finset P, (∀ q, q ∈ A ↔ (update s.pc p c q).isActive = true) ∧
      s.outstanding - 1 = A.card := by
  obtain ⟨A, hA, hn⟩ := h.count
  have hpA : p ∈ A := (hA p).mpr (by simp [hp, Pc.isActive])
  refine ⟨A.erase p, fun q => ?_, ?_⟩
  · by_cases e : q = p
    · subst e
      simp [hc]
    · simp [e, hA]
  · have := Finset.card_erase_add_one hpA
    omega

theorem Inv.endOp (h : Inv s) {p : P} (hp : s.pc p = .inOp) : Inv (endOp s p) := by
  have hpa : (s.pc p).isActive = true := by simp [hp, Pc.isActive]
  have hcom : s.committing = false := by
    refine Bool.eq_false_iff.mpr fun hc => ?_
    rw [h.not_active (h.quiet hc) p] at hpa
    exact Bool.noConfusion hpa
  have hnc : ∀ q, (s.pc q).isCommit = false := fun q =>
    Bool.eq_false_iff.mpr fun hq => absurd (h.committer q hq) (by simp [hcom])
  have hrun : ∀ c : Pc, c.isActive = false → ∀ q,
      (update s.pc p c q).isActive = true →
      ∃ o ∈ s.ops.map (Op.finish p), o.who = q ∧ o.ended = false := by
    intro c hc q hq
    by_cases e : q = p
    · subst e
      simp [hc] at hq
    · obtain ⟨o, ho, hw, he⟩ := h.running q (by simpa [e] using hq)
      exact ⟨Op.finish p o, List.mem_map_of_mem ho, by simpa using hw,
        Op.finish_ended_eq_false.mpr ⟨he, hw ▸ e⟩⟩
  have hact : ∀ c : Pc, ∀ o ∈ s.ops.map (Op.finish p), o.ended = false →
      (update s.pc p c o.who).isActive = true := by
    intro c o ho he
    obtain ⟨o', ho', rfl⟩ := List.mem_map.mp ho
    obtain ⟨he', hne⟩ := Op.finish_ended_eq_false.mp he
    rw [Op.finish_who, update_of_ne hne]
    exact h.active o' ho' he'
  have hlog : ∀ b, b ∈ s.lh ↔ ∃ o ∈ s.ops.map (Op.finish p), b ∈ o.blocks := by
    intro b
    simp only [List.mem_map, exists_exists_and_eq_and, Op.finish_blocks]
    exact h.logged b
  have hser : (s.commits.flatMap CommitRecord.ops ++ s.ops.map (Op.finish p)).map Op.id
      = List.range s.nops := by
    rw [← h.serial, List.map_append, List.map_append, List.map_map]
    congr 1
    exact List.map_congr_left fun o _ => Op.finish_id p o
  have hnn := h.outstanding_nonneg
  unfold Log.endOp
  simp only [hcom, Bool.false_eq_true, if_false]
  split
  · -- the last operation: this process commits
    rename_i h0
    refine ⟨h.endOp_count hp _ rfl, fun _ _ => rfl, ?_, fun _ => h0, hrun _ rfl, hact _, hlog, ?_,
      ?_, fun _ _ => Or.inr rfl, h.panic, h.exact, hser⟩
    · have honly : ∀ q, (update s.pc p (.commit .test) q).isCommit = true → q = p := by
        intro q hq
        by_contra e
        rw [update_of_ne e, hnc q] at hq
        exact Bool.noConfusion hq
      exact fun q r hq hr => (honly q hq).trans (honly r hr).symm
    · intro q ph hq
      by_cases e : q = p
      · subst e
        obtain rfl : Phase.test = ph := by simpa [State.setPc] using hq
        exact (h.idle hcom).1
      · have hq' : s.pc q = .commit ph := by simpa [State.setPc, e] using hq
        exact absurd (hnc q) (by simp [hq', Pc.isCommit])
    · intro hf
      exact Bool.noConfusion hf
  · -- others are still inside: wake those that wait for log space
    rename_i h0
    refine Inv.wakeup ?_
    have hnc' : ∀ q, (update s.pc p .out q).isCommit = false := by
      intro q
      by_cases e : q = p
      · subst e
        simp [Pc.isCommit]
      · simp [e, hnc]
    refine ⟨h.endOp_count hp _ rfl, fun q hq => ?_, fun q r hq _ => ?_, fun hc => ?_, hrun _ rfl,
      hact _, hlog, fun q ph hq => ?_, fun _ => ⟨(h.idle hcom).1, fun he => absurd he h0⟩,
      fun q hq => Or.inl ?_, h.panic, h.exact, hser⟩
    · exact absurd (hnc' q) (by simpa [State.setPc] using hq)
    · exact absurd (hnc' q) (by simpa [State.setPc] using hq)
    · exact absurd hc (by simp [State.setPc])
    · have hq' : update s.pc p .out q = .commit ph := hq
      exact absurd (hnc' q) (by simp [hq', Pc.isCommit])
    · have hcount := h.count
      obtain ⟨A, hA, hn⟩ := hcount
      have hpos : 0 < A.card := Finset.card_pos.mpr ⟨p, (hA p).mpr hpa⟩
      simp only [State.setPc] at h0 ⊢
      omega

/-- The committing process moves on.  Nobody is inside an operation and nobody else commits,
so only the phase, the commit records and `lh` against the history have to be checked. -/
theorem Inv.commitMove (h : Inv s) {p : P} {ph ph' : Phase} (hp : s.pc p = .commit ph)
    {s' : State P} (hpc : s'.pc = update s.pc p (.commit ph'))
    (hout : s'.outstanding = s.outstanding) (hcom : s'.committing = s.committing)
    (hpan : s'.panic = s.panic) (hlog : ∀ b, b ∈ s'.lh ↔ ∃ o ∈ s'.ops, b ∈ o.blocks)
    (hend : ∀ o ∈ s'.ops, o.ended = true) (hph : PhaseOk s' ph')
    (hex : ∀ c ∈ s'.commits, c.Exact)
    (hser : (s'.commits.flatMap CommitRecord.ops ++ s'.ops).map Op.id = List.range s'.nops) :
    Inv s' := by
  have hpc₀ : (s.pc p).isCommit = true := by simp [hp, Pc.isCommit]
  have hc : s.committing = true := h.committer p hpc₀
  have h0 : s.outstanding = 0 := h.quiet hc
  have hina : ∀ q, (s'.pc q).isActive = false := fun q => by
    by_cases e : q = p
    · subst e
      simp [hpc, Pc.isActive]
    · simp [hpc, e, h.not_active h0]
  have honly : ∀ q, (s'.pc q).isCommit = true → q = p := by
    intro q hq
    by_contra e
    rw [hpc, update_of_ne e] at hq
    exact e (h.unique q p hq hpc₀)
  refine ⟨⟨∅, fun q => by simp [hina q], by simp [hout, h0]⟩, fun _ _ => hcom.trans hc,
    fun q r hq hr => (honly q hq).trans (honly r hr).symm, fun _ => hout.trans h0, ?_, ?_, hlog,
    ?_, ?_, fun _ _ => Or.inr (hcom.trans hc), hpan ▸ h.panic, hex, hser⟩
  · intro q hq
    exact absurd hq (by simp [hina q])
  · intro o ho he
    exact absurd (hend o ho) (by simp [he])
  · intro q ph'' hq
    have e := honly q (by simp [hq, Pc.isCommit])
    subst e
    rw [hpc, update_self, Pc.commit.injEq] at hq
    exact hq ▸ hph
  · intro hf
    exact absurd (hcom.trans hc) (by simp [hf])

theorem Inv.commitStep (h : Inv s) {p : P} {ph : Phase} (hp : s.pc p = .commit ph) :
    Inv (commitStep s p ph) := by
  have hpc : (s.pc p).isCommit = true := by simp [hp, Pc.isCommit]
  have h0 : s.outstanding = 0 := h.quiet (h.committer p hpc)
  have hend := h.all_ended h0
  have hphase := h.phase p ph hp
  -- a phase change that touches nothing else
  have hgo : ∀ ph', PhaseOk s ph' → Inv (s.setPc p (.commit ph')) := fun ph' hok =>
    h.commitMove hp rfl rfl rfl rfl h.logged hend (by cases ph' <;> exact hok) h.exact h.serial
  -- a commit record made of all operations since the last commit
  have hrec : ∀ w : List Nat, (∀ b, b ∈ w ↔ b ∈ s.lh) →
      ∀ c ∈ s.commits ++ [⟨s.ops, w⟩], c.Exact := by
    intro w hw c hc
    rcases List.mem_append.mp hc with hc | hc
    · exact h.exact c hc
    · rw [List.mem_singleton.mp hc]
      exact ⟨fun b => (hw b).trans (h.logged b), hend⟩
  have hser : ∀ w : List Nat,
      ((s.commits ++ [(⟨s.ops, w⟩ : CommitRecord P)]).flatMap CommitRecord.ops ++ []).map Op.id
        = List.range s.nops := by
    intro w
    rw [List.append_nil, List.flatMap_append, List.flatMap_singleton]
    exact h.serial
  cases ph with
  | test =>
    simp only [Log.commitStep]
    split
    · exact hgo _ hphase
    · rename_i hlen
      have hnil : s.lh = [] := List.length_eq_zero_iff.mp (by omega)
      exact h.commitMove hp rfl rfl rfl rfl (by simp [State.setPc, hnil]) (by simp)
        ⟨hnil, rfl, hphase⟩ (hrec [] (by simp [hnil])) (hser [])
  | copy tail =>
    simp only [Log.commitStep]
    split
    · exact hgo _ hphase
    · exact hgo _ hphase
  | head => exact hgo _ ⟨Nat.zero_le _, hphase⟩
  | install tail =>
    obtain ⟨hle, hw⟩ := hphase
    simp only [Log.commitStep]
    split
    · rename_i hlt
      refine h.commitMove hp rfl rfl rfl rfl h.logged hend ⟨hlt, ?_⟩ h.exact h.serial
      simp only [State.setPc]
      rw [hw, List.take_succ_eq_append_getElem hlt, List.getD_eq_getElem _ _ hlt]
    · rename_i hge
      refine hgo _ ?_
      rw [PhaseOk, hw, List.take_of_length_le (by omega)]
  | clear =>
    exact h.commitMove hp rfl rfl rfl rfl (by simp [Log.commitStep]) (by simp [Log.commitStep])
      ⟨rfl, rfl, rfl⟩ (hrec s.written (by simp [show s.written = s.lh from hphase]))
      (hser s.written)
  | erase => exact hgo _ hphase
  | wake =>
    obtain ⟨hlh, hops, hwr⟩ := hphase
    -- the commit is over; everybody asleep is woken in the same critical section
    have hw := h.wakeup
    have hwp : s.wakeup.pc p = .commit .wake := by simp [State.wakeup, hp]
    have hcm : Log.commitStep s p .wake =
        { s.wakeup.setPc p .out with committing := false } := by
      simp only [Log.commitStep, State.wakeup, State.setPc, State.mk.injEq, true_and, and_true]
      funext q
      by_cases e : q = p
      · subst e
        simp
      · simp [e]
    have hina : ∀ q, (update s.wakeup.pc p .out q).isActive = false := fun q => by
      by_cases e : q = p
      · subst e
        simp [Pc.isActive]
      · simp [e, hw.not_active h0]
    have hnc : ∀ q, (update s.wakeup.pc p .out q).isCommit = false := fun q => by
      by_cases e : q = p
      · subst e
        simp [Pc.isCommit]
      · rw [update_of_ne e]
        refine Bool.eq_false_iff.mpr fun hq => e (hw.unique q p hq ?_)
        simp [hwp, Pc.isCommit]
    rw [hcm]
    refine ⟨⟨∅, fun q => ?_, by simpa [State.setPc, State.wakeup] using h0⟩, fun q hq => ?_,
      fun q r hq _ => ?_, fun hc => Bool.noConfusion hc, fun q hq => ?_, ?_, hw.logged,
      fun q ph' hq => ?_, fun _ => ⟨hwr, fun _ => hops⟩, fun q hq => ?_, hw.panic, hw.exact,
      hw.serial⟩
    · simp [State.setPc, hina q]
    · exact absurd hq (by simp [State.setPc, hnc q])
    · exact absurd hq (by simp [State.setPc, hnc q])
    · exact absurd hq (by simp [State.setPc, hina q])
    · intro o ho
      exact absurd ho (by simp [State.setPc, State.wakeup, hops])
    · have hq' : update s.wakeup.pc p .out q = .commit ph' := hq
      exact absurd (hnc q) (by simp [hq', Pc.isCommit])
    · have hq' : update s.wakeup.pc p .out q = .asleep := hq
      by_cases e : q = p
      · subst e
        simp at hq'
      · rw [update_of_ne e] at hq'
        exact absurd hq' (wakeup_ne_asleep s q)

/-- **One step keeps the invariant.** -/
theorem Inv.step (h : Inv s) {size : Int} {a : Act P} {s' : State P}
    (hs : step size s a = some s') : Inv s' := by
  unfold Log.step at hs
  split at hs
  · simp at hs
  · cases a with
    | begin p =>
      simp only [Option.ite_none_right_eq_some, Option.some.injEq] at hs
      exact hs.2 ▸ h.beginOp hs.1
    | kill p =>
      simp only [Option.ite_none_right_eq_some, Option.some.injEq] at hs
      exact hs.2 ▸ h.move (by simp [hs.1, Pc.isActive]) (by simp [hs.1, Pc.isCommit]) (by simp)
        (by simp)
    | logTest p b =>
      simp only [Option.ite_none_right_eq_some, Option.some.injEq] at hs
      exact hs.2 ▸ h.logTest hs.1
    | logWrite p =>
      simp only at hs
      split at hs
      · rename_i b hb
        exact Option.some.inj hs ▸ h.logWrite hb
      · simp at hs
    | endOp p =>
      simp only [Option.ite_none_right_eq_some, Option.some.injEq] at hs
      exact hs.2 ▸ h.endOp hs.1
    | commit p =>
      simp only at hs
      split at hs
      · rename_i ph hph
        exact Option.some.inj hs ▸ h.commitStep hph
      · simp at hs

theorem Reachable.of_run {size : Int} {as : List (Act P)}
    (h : as.foldlM (Log.step size) (init P) = some s) : Reachable size s := by
  induction as using List.reverseRecOn generalizing s with
  | nil =>
    obtain rfl : init P = s := by simpa using h
    exact .refl
  | append_singleton as a ih =>
    rw [List.foldlM_append, Option.bind_eq_bind, Option.bind_eq_some_iff] at h
    obtain ⟨t, ht, hs⟩ := h
    exact (ih ht).tail ⟨a, by simpa using hs⟩

theorem Reachable.inv {size : Int} (hr : Reachable size s) : Inv s := by
  unfold Reachable at hr
  induction hr with
  | refl => exact inv_init
  | tail _ hs ih =>
    obtain ⟨a, ha⟩ := hs
    exact ih.step ha

/-! ## 6. The guarantees -/

/-- Only the critical section of `log_write` and `commit` change `lh`. -/
theorem step_lh {size : Int} {a : Act P} {s' : State P} (hs : step size s a = some s')
    (hne : s'.lh ≠ s.lh) :
    (∃ p ph, a = .commit p ∧ s.pc p = .commit ph) ∨ ∃ p b, s.pc p = .logging b := by
  unfold Log.step at hs
  split at hs
  · simp at hs
  · cases a with
    | begin p =>
      simp only [Option.ite_none_right_eq_some, Option.some.injEq] at hs
      refine absurd ?_ hne
      rw [← hs.2]
      unfold beginOp
      split
      · rfl
      · split <;> rfl
    | kill p =>
      simp only [Option.ite_none_right_eq_some, Option.some.injEq] at hs
      exact absurd (by rw [← hs.2]; rfl) hne
    | logTest p b =>
      simp only [Option.ite_none_right_eq_some, Option.some.injEq] at hs
      refine absurd ?_ hne
      rw [← hs.2]
      unfold logTest
      split
      · rfl
      · split <;> rfl
    | logWrite p =>
      simp only at hs
      split at hs
      · rename_i b hb
        exact Or.inr ⟨p, b, hb⟩
      · simp at hs
    | endOp p =>
      simp only [Option.ite_none_right_eq_some, Option.some.injEq] at hs
      refine absurd ?_ hne
      rw [← hs.2]
      unfold endOp
      dsimp only
      split
      · rfl
      · split <;> rfl
    | commit p =>
      simp only at hs
      split at hs
      · rename_i ph hph
        exact Or.inl ⟨p, ph, rfl, hph⟩
      · simp at hs

/-- **Whole operations per transaction.**  In every state of every run of any number of
processes:

* while `committing` is set, `outstanding` is 0, and a step that changes `lh` is a step of
  `commit`; the panic in `end_op` never fires;
* every finished commit wrote exactly the blocks logged by its operations, all of which had
  ended; and the operations of the commits, in order, followed by those begun since the last
  one, are all the operations that ever began, each of them once;
* `outstanding = 0` and `committing = 0` imply `lh.n = 0`, and somebody asleep in `begin_op`
  implies `outstanding > 0` or `committing = 1`. -/
theorem whole_operations {size : Int} (hr : Reachable size s) :
    ((s.committing = true → s.outstanding = 0 ∧ ∀ a s', step size s a = some s' →
        s'.lh ≠ s.lh → ∃ p ph, a = .commit p ∧ s.pc p = .commit ph) ∧
      s.panic ≠ some .committing) ∧
    ((∀ c ∈ s.commits, (∀ b, b ∈ c.written ↔ ∃ o ∈ c.ops, b ∈ o.blocks) ∧
        ∀ o ∈ c.ops, o.ended = true) ∧
      (s.commits.flatMap CommitRecord.ops ++ s.ops).map Op.id = List.range s.nops) ∧
    ((s.outstanding = 0 → s.committing = false → s.lh = []) ∧
      ∀ p, s.pc p = .asleep → 0 < s.outstanding ∨ s.committing = true) := by
  have h := hr.inv
  refine ⟨⟨fun hc => ⟨h.quiet hc, fun a s' hs hne => ?_⟩, h.panic⟩, ⟨h.exact, h.serial⟩,
    fun h0 hc => h.lh_eq_nil hc h0, h.asleep⟩
  rcases step_lh hs hne with hp | ⟨p, b, hp⟩
  · exact hp
  · exact absurd (h.not_active (h.quiet hc) p) (by simp [hp, Pc.isActive])

/-- Two overlapping operations and the commit of both, up to its last step: `false` logs block
7 and ends first, `true` ends last and commits, and `false` begins another operation. -/
def overlap : List (Act Bool) :=
  [.begin false, .begin true, .logTest false 7, .logWrite false, .endOp false, .endOp true,
    .begin false, .commit true, .commit true, .commit true, .commit true, .commit true,
    .commit true, .commit true]

/-- One commit covers both operations, and `false` is asleep until `true` wakes it. -/
theorem whole_operations_overlap :
    ∃ s, overlap.foldlM (step 30) (init Bool) = some s ∧ s.committing = true ∧
      s.commits.map CommitRecord.written = [[7]] ∧ s.pc false = .asleep ∧
      (s.commits.flatMap CommitRecord.ops ++ s.ops).map Op.id = List.range 2 ∧
      s.outstanding = 0 ∧ (0 < s.outstanding ∨ s.committing = true) := by
  refine ⟨_, rfl, rfl, rfl, rfl, ?_⟩
  obtain ⟨⟨ha, -⟩, ⟨-, hb⟩, -, hc⟩ :=
    whole_operations (@Reachable.of_run Bool _ _ 30 overlap rfl)
  exact ⟨hb, (ha rfl).1, hc false rfl⟩

end

end Xv6.Log
