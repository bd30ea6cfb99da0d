/-
# How much room the log has

Three bounds meet here.  `begin_op` lets an operation in when `lh.n` and `MAXOPBLOCKS` for each
operation outstanding, itself included, fit in `LOGSIZE`.  `log_write` panics when `lh.n` is
`log.size - 1` or more.  And `mkfs` makes the log area `LOGSIZE` blocks long, one of them for the
header.

So the area has room for one block less than `begin_op` gives away.  Three operations of
`MAXOPBLOCKS` blocks each make `log_write` panic; and since it tests before it takes the lock, two
of them can pass the test together and log a block that has no slot: `out_of_room`.  If every
operation stays below `MAXOPBLOCKS` blocks there is room for all of them, and the test is never
needed: `log_has_room`.
-/
import Mathlib.Algebra.Order.BigOperators.Group.List
import Mathlib.Data.Finset.Card
import Mathlib.Tactic
import Xv6.Log.Ops

namespace Xv6.Log

variable {P : Type}

/-! ## 1. Runs of bounded operations -/

/-- The distinct blocks that an operation has logged. -/
def Op.used (o : Op P) : Nat := o.blocks.toFinset.card

/-- No operation since the last commit has logged more than `k` distinct blocks. -/
def Bounded (k : Nat) (s : State P) : Prop := ∀ o ∈ s.ops, o.used ≤ k

instance (k : Nat) (s : State P) : Decidable (Bounded k s) :=
  inferInstanceAs (Decidable (∀ o ∈ s.ops, _))

/-- The operations that have begun and not ended. -/
def State.running (s : State P) : List (Op P) := s.ops.filter fun o => !o.ended

section

variable [DecidableEq P]

/-- The states of runs on a log area of `size` blocks in which every operation logs at most `k`
distinct blocks. -/
def BoundedRun (size : Int) (k : Nat) (s : State P) : Prop :=
  Relation.ReflTransGen (fun s s' => (∃ a, step size s a = some s') ∧ Bounded k s') (init P) s

/-- A list of steps, with the bound checked after each. -/
def boundedStep (size : Int) (k : Nat) (s : State P) (a : Act P) : Option (State P) :=
  (step size s a).filter fun s' => Bounded k s'

theorem BoundedRun.of_run {size : Int} {k : Nat} {s : State P} {as : List (Act P)}
    (h : as.foldlM (boundedStep size k) (init P) = some s) : BoundedRun size k s := by
  induction as using List.reverseRecOn generalizing s with
  | nil =>
    obtain rfl : init P = s := by simpa using h
    exact .refl
  | append_singleton as a ih =>
    rw [List.foldlM_append, Option.bind_eq_bind, Option.bind_eq_some_iff] at h
    obtain ⟨t, ht, hs⟩ := h
    have hs' : boundedStep size k t a = some s := by simpa using hs
    simp only [boundedStep, Option.filter_eq_some_iff, decide_eq_true_eq] at hs'
    exact (ih ht).tail ⟨⟨a, hs'.1⟩, hs'.2⟩

theorem BoundedRun.inv {size : Int} {k : Nat} {s : State P} (h : BoundedRun size k s) : Inv s := by
  unfold BoundedRun at h
  induction h with
  | refl => exact inv_init
  | tail _ hs ih =>
    obtain ⟨⟨a, ha⟩, -⟩ := hs
    exact ih.step ha

end

/-! ## 2. What is promised -/

/-- What an operation below `MAXOPBLOCKS` blocks may still log. -/
def Op.due (o : Op P) : Nat := MAXOPBLOCKS - 1 - o.used

/-- The blocks logged, and those that the running operations may still log, leave a slot free. -/
structure Room (s : State P) : Prop where
  nodup : (s.running.map Op.who).Nodup
  outstanding : s.outstanding = s.running.length
  room : s.lh.length + (s.running.map Op.due).sum ≤ LOGSIZE - 2
  panic : s.panic ≠ some .tooBig

theorem room_init : Room (init P) :=
  ⟨List.nodup_nil, rfl, by simp [init, State.running], nofun⟩

theorem due_sum_le (l : List (Op P)) : (l.map Op.due).sum ≤ l.length * (MAXOPBLOCKS - 1) := by
  have := List.sum_le_card_nsmul (l.map Op.due) (MAXOPBLOCKS - 1) (by
    simp only [List.mem_map, forall_exists_index, and_imp, forall_apply_eq_imp_iff₂]
    exact fun o _ => Nat.sub_le ..)
  simpa using this

/-- A step that leaves the operations, `lh` and `outstanding` alone. -/
theorem Room.congr {s s' : State P} (h : Room s) (hops : s'.ops = s.ops) (hlh : s'.lh = s.lh)
    (hout : s'.outstanding = s.outstanding) (hpanic : s'.panic = s.panic) : Room s' := by
  refine ⟨?_, ?_, ?_, hpanic ▸ h.panic⟩
  · simpa only [State.running, hops] using h.nodup
  · simpa only [State.running, hops, hout] using h.outstanding
  · simpa only [State.running, hops, hlh] using h.room

section

variable [DecidableEq P] {s : State P}

theorem Room.beginOp (h : Room s) (hi : Inv s) {p : P} (hp : s.pc p = .out ∨ s.pc p = .ready) :
    Room (beginOp s p) := by
  unfold Log.beginOp
  split_ifs with hc hfull
  · exact h.congr rfl rfl rfl rfl
  · exact h.congr rfl rfl rfl rfl
  · have hrun : ∀ o ∈ s.running, o.who ≠ p := fun o ho e => by
      simp only [State.running, List.mem_filter, Bool.not_eq_true'] at ho
      have := hi.active o ho.1 ho.2
      rcases hp with hp | hp <;> simp [e, hp, Pc.isActive] at this
    have hnew : State.running { s.setPc p .inOp with
        outstanding := s.outstanding + 1
        ops := s.ops ++ [⟨s.nops, p, [], false⟩]
        nops := s.nops + 1 } = s.running ++ [⟨s.nops, p, [], false⟩] := by
      simp [State.running]
    refine ⟨?_, ?_, ?_, h.panic⟩
    · rw [hnew]
      simp only [List.map_append, List.map_cons, List.map_nil, List.nodup_append,
        List.nodup_singleton, List.mem_map, List.mem_singleton, true_and]
      refine ⟨h.nodup, ?_⟩
      rintro a ⟨o, ho, rfl⟩ b rfl
      exact hrun o ho
    · rw [hnew]
      simp only [List.length_append, List.length_singleton, Nat.cast_add, h.outstanding]
      rfl
    · rw [hnew]
      have hsum := due_sum_le s.running
      have hout := h.outstanding
      simp only [List.map_append, List.sum_append, List.map_cons, List.map_nil, List.sum_cons,
        List.sum_nil, Op.due, Op.used, List.toFinset_nil, Finset.card_empty] at hsum ⊢
      rcases Nat.eq_zero_or_pos s.running.length with h0 | hpos
      · -- the first one in finds the log empty
        have hlh : s.lh = [] := hi.lh_eq_nil (by simpa using hc) (by omega)
        simp [hlh, State.setPc, List.length_eq_zero_iff.mp h0, LOGSIZE]
      · simp only [State.setPc, MAXOPBLOCKS, LOGSIZE] at *
        omega

/-- Logging a block takes a slot that was promised, or none. -/
theorem Room.logWrite (h : Room s) (hi : Inv s) {p : P} {b : Nat} (hp : s.pc p = .logging b)
    (hb : Bounded (MAXOPBLOCKS - 1) (Log.logWrite s p b)) : Room (Log.logWrite s p b) := by
  have hrun : State.running (Log.logWrite s p b) = s.running.map (Op.log p b) := by
    simp only [State.running, Log.logWrite, List.filter_map]
    congr 1
    refine List.filter_congr fun o _ => ?_
    simp
  have hsub : ∀ o : Op P, o.blocks.toFinset ⊆ (Op.log p b o).blocks.toFinset := fun o b' hb' => by
    simp only [List.mem_toFinset, Op.mem_log_blocks] at hb' ⊢
    exact Or.inl hb'
  have hle : ∀ o : Op P, (Op.log p b o).due ≤ o.due := fun o =>
    Nat.sub_le_sub_left (Finset.card_le_card (hsub o)) _
  refine ⟨?_, ?_, ?_, h.panic⟩
  · rw [hrun, List.map_map]
    simpa only [Function.comp_def, Op.log_who] using h.nodup
  · rw [hrun, List.length_map]
    exact h.outstanding
  · rw [hrun, List.map_map]
    have hroom := h.room
    simp only [Log.logWrite, absorb]
    split
    · have := List.sum_le_sum (l := s.running) (f := Op.due ∘ Op.log p b) (g := Op.due)
        fun o _ => hle o
      omega
    · -- a new block: it is new to the operation that logs it, too
      rename_i hnew
      obtain ⟨o, ho, hwho, hend⟩ := hi.running p (by rw [hp]; rfl)
      have hmem : o ∈ s.running := List.mem_filter.mpr ⟨ho, by simp [hend]⟩
      have hlt : (Op.log p b o).due < o.due := by
        have hnot : b ∉ o.blocks.toFinset := fun hb' =>
          hnew ((hi.logged b).mpr ⟨o, ho, List.mem_toFinset.mp hb'⟩)
        have hin : b ∈ (Op.log p b o).blocks.toFinset :=
          List.mem_toFinset.mpr (Op.mem_log_blocks.mpr (Or.inr ⟨rfl, hwho, hend⟩))
        have hcard : o.used < (Op.log p b o).used :=
          Finset.card_lt_card ⟨hsub o, fun hs => hnot (hs hin)⟩
        have hbound := hb (Op.log p b o) (List.mem_map_of_mem ho)
        simp only [Op.due]
        omega
      have := List.sum_lt_sum (l := s.running) (Op.due ∘ Op.log p b) Op.due (fun o _ => hle o)
        ⟨o, hmem, hlt⟩
      simp only [List.length_append, List.length_singleton]
      omega

/-- An operation that ends gives back what it has not used. -/
theorem Room.finish (h : Room s) (hi : Inv s) {p : P} (hp : s.pc p = .inOp) {s' : State P}
    (hops : s'.ops = s.ops.map (Op.finish p)) (hlh : s'.lh = s.lh)
    (hout : s'.outstanding = s.outstanding - 1) (hpanic : s'.panic ≠ some .tooBig) : Room s' := by
  have hrun : s'.running = s.running.filter fun o => o.who ≠ p := by
    simp only [State.running, hops, List.filter_map, List.filter_filter]
    rw [List.map_congr_left (g := id), List.map_id]
    · refine List.filter_congr fun o _ => ?_
      have := Op.finish_ended_eq_false (p := p) (o := o)
      cases he : (Op.finish p o).ended <;> cases ho : o.ended <;> simp_all
    · intro o ho
      simp only [List.mem_filter, Function.comp_apply, Bool.not_eq_true',
        Op.finish_ended_eq_false] at ho
      simp [Op.finish, ho.2.2]
  obtain ⟨o, ho, hwho, hend⟩ := hi.running p (by rw [hp]; rfl)
  have hmem : p ∈ s.running.map Op.who :=
    List.mem_map.mpr ⟨o, List.mem_filter.mpr ⟨ho, by simp [hend]⟩, hwho⟩
  have hmap : s'.running.map Op.who = (s.running.map Op.who).erase p := by
    rw [h.nodup.erase_eq_filter, hrun, List.filter_map]
    congr 1
    exact List.filter_congr fun o _ => by simp [bne, beq_eq_decide]
  refine ⟨hmap ▸ h.nodup.erase p, ?_, ?_, hpanic⟩
  · have hlen := congrArg List.length hmap
    rw [List.length_erase_of_mem hmem, List.length_map, List.length_map] at hlen
    have hpos : 0 < s.running.length := by
      simpa using List.length_pos_of_mem hmem
    rw [hout, h.outstanding, hlen]
    omega
  · have hsub : (s'.running.map Op.due).Sublist (s.running.map Op.due) :=
      (hrun ▸ List.filter_sublist).map _
    have := hsub.sum_le_sum fun _ _ => Nat.zero_le _
    have := h.room
    rw [hlh]
    omega

theorem Room.endOp (h : Room s) (hi : Inv s) {p : P} (hp : s.pc p = .inOp) :
    Room (Log.endOp s p) := by
  unfold Log.endOp
  dsimp only
  split_ifs
  · exact h.finish hi hp rfl rfl rfl nofun
  · exact h.finish hi hp rfl rfl rfl h.panic
  · exact h.finish hi hp rfl rfl rfl h.panic

/-- After a commit everything is free. -/
theorem Room.commitStep (h : Room s) (hi : Inv s) {p : P} {ph : Phase}
    (hp : s.pc p = .commit ph) : Room (Log.commitStep s p ph) := by
  have h0 : s.outstanding = 0 := hi.quiet (hi.committer p (by rw [hp]; rfl))
  have hempty : ∀ {s' : State P}, s'.ops = [] → s'.lh = [] → s'.outstanding = s.outstanding →
      s'.panic = s.panic → Room s' := fun hops hlh hout hpanic =>
    ⟨by simp [State.running, hops], by simp [State.running, hops, hout, h0],
      by simp [State.running, hops, hlh], hpanic ▸ h.panic⟩
  cases ph with
  | test =>
    simp only [Log.commitStep]
    split
    · exact h.congr rfl rfl rfl rfl
    · rename_i hn
      have hnil : s.lh = [] := List.length_eq_zero_iff.mp (by omega)
      exact hempty rfl hnil rfl rfl
  | copy tail =>
    simp only [Log.commitStep]
    split <;> exact h.congr rfl rfl rfl rfl
  | install tail =>
    simp only [Log.commitStep]
    split <;> exact h.congr rfl rfl rfl rfl
  | clear => exact hempty rfl rfl rfl rfl
  | head | erase | wake => exact h.congr rfl rfl rfl rfl

/-- The test of `log_write` passes. -/
theorem Room.logTest (h : Room s) {p : P} {b : Nat} : Room (Log.logTest LOGSIZE s p b) := by
  have hroom := h.room
  unfold Log.logTest
  split_ifs with hfull hout
  · simp only [LOGSIZE] at *
    omega
  · exact ⟨h.nodup, h.outstanding, h.room, nofun⟩
  · exact h.congr rfl rfl rfl rfl

/-- **One step** of operations below `MAXOPBLOCKS` blocks. -/
theorem Room.step (h : Room s) (hi : Inv s) {a : Act P} {s' : State P}
    (hs : step LOGSIZE s a = some s') (hb : Bounded (MAXOPBLOCKS - 1) s') : Room s' := by
  unfold Log.step at hs
  split at hs
  · cases hs
  · cases a with
    | begin p =>
      simp only [Option.ite_none_right_eq_some, Option.some.injEq] at hs
      exact hs.2 ▸ h.beginOp hi hs.1
    | kill p =>
      simp only [Option.ite_none_right_eq_some, Option.some.injEq] at hs
      exact hs.2 ▸ h.congr rfl rfl rfl rfl
    | logTest p b =>
      simp only [Option.ite_none_right_eq_some, Option.some.injEq] at hs
      exact hs.2 ▸ h.logTest
    | logWrite p =>
      simp only at hs
      split at hs
      · rename_i b hp
        obtain rfl := Option.some.inj hs
        exact h.logWrite hi hp hb
      · cases hs
    | endOp p =>
      simp only [Option.ite_none_right_eq_some, Option.some.injEq] at hs
      exact hs.2 ▸ h.endOp hi hs.1
    | commit p =>
      simp only at hs
      split at hs
      · rename_i ph hp
        exact Option.some.inj hs ▸ h.commitStep hi hp
      · cases hs

theorem BoundedRun.room (h : BoundedRun LOGSIZE (MAXOPBLOCKS - 1) s) : Room s := by
  unfold BoundedRun at h
  induction h with
  | refl => exact room_init
  | tail hr hs ih =>
    obtain ⟨⟨a, ha⟩, hb⟩ := hs
    exact ih.step (BoundedRun.inv hr) ha hb

/-! ## 3. Enough, and one too few -/

/-- **The log has room** for operations of fewer than `MAXOPBLOCKS` distinct blocks, on the log
area that `mkfs` makes: `log_write` never finds the transaction too big, and the header and every
block logged have a place inside the area. -/
theorem log_has_room (h : BoundedRun LOGSIZE (MAXOPBLOCKS - 1) s) :
    s.panic ≠ some .tooBig ∧ ∀ i < s.lh.length, 1 + i < LOGSIZE := by
  have hr := h.room
  refine ⟨hr.panic, fun i hi => ?_⟩
  have := hr.room
  simp only [LOGSIZE] at *
  omega

end

/-- Operation `p` logs the blocks `bs`. -/
def logAll {P : Type} (p : P) (bs : List Nat) : List (Act P) :=
  bs.flatMap fun b => [.logTest p b, .logWrite p]

/-- Three operations begin, and log nine blocks each. -/
def nineEach : List (Act (Fin 3)) :=
  [.begin 0, .begin 1, .begin 2].append
    ((logAll 0 (List.range' 100 9)).append
      ((logAll 1 (List.range' 200 9)).append (logAll 2 (List.range' 300 9))))

/-- Nine blocks each fit. -/
theorem log_has_room_nineEach : ∃ s : State (Fin 3),
    nineEach.foldlM (boundedStep LOGSIZE (MAXOPBLOCKS - 1)) (init (Fin 3)) = some s ∧
      s.lh.length = 27 ∧ s.panic ≠ some .tooBig := by
  have hrun : (nineEach.foldlM (boundedStep LOGSIZE (MAXOPBLOCKS - 1)) (init (Fin 3))).any
      (fun s => s.lh.length = 27) = true := by decide +kernel
  obtain ⟨s, hs, hlen⟩ := (Option.any_eq_true _ _).mp hrun
  exact ⟨s, hs, of_decide_eq_true hlen, (log_has_room (BoundedRun.of_run hs)).1⟩

/-- Operations 0 and 1 log ten blocks each, and operation 2 nine. -/
def twentyNine : List (Act (Fin 3)) :=
  [.begin 0, .begin 1, .begin 2].append
    ((logAll 0 (List.range' 100 10)).append
      ((logAll 1 (List.range' 200 10)).append (logAll 2 (List.range' 300 9))))

/-- As before with one block less of operation 1; then operations 1 and 2 both pass the test, and
both log a block. -/
def together : List (Act (Fin 3)) :=
  [.begin 0, .begin 1, .begin 2].append
    ((logAll 0 (List.range' 100 10)).append
      ((logAll 1 (List.range' 200 9)).append ((logAll 2 (List.range' 300 9)).append
        [.logTest 1 209, .logTest 2 309, .logWrite 1, .logWrite 2])))

/-- **Three full operations do not fit.**  The tenth block of the third one is the thirtieth of the
transaction, and `log_write` panics.  When two of them test at the same time the test does not
even stop them: thirty blocks are logged, and the last one has no slot in the area. -/
theorem out_of_room :
    (∃ s : State (Fin 3), BoundedRun LOGSIZE MAXOPBLOCKS s ∧ s.panic = some .tooBig ∧
      s.lh.length = 29) ∧
    ∃ s : State (Fin 3), BoundedRun LOGSIZE MAXOPBLOCKS s ∧ s.panic = none ∧
      s.lh.length = 30 ∧ ∃ i < s.lh.length, ¬ 1 + i < LOGSIZE := by
  have h₁ : ((twentyNine.append [.logTest 2 309]).foldlM (boundedStep LOGSIZE MAXOPBLOCKS)
      (init (Fin 3))).any (fun s => s.panic = some .tooBig ∧ s.lh.length = 29) = true := by
    decide +kernel
  have h₂ : (together.foldlM (boundedStep LOGSIZE MAXOPBLOCKS) (init (Fin 3))).any
      (fun s => s.panic = none ∧ s.lh.length = 30) = true := by decide +kernel
  obtain ⟨s₁, hs₁, hc₁⟩ := (Option.any_eq_true _ _).mp h₁
  obtain ⟨s₂, hs₂, hc₂⟩ := (Option.any_eq_true _ _).mp h₂
  obtain ⟨hp₂, hl₂⟩ := of_decide_eq_true hc₂
  exact ⟨⟨s₁, BoundedRun.of_run hs₁, of_decide_eq_true hc₁⟩,
    ⟨s₂, BoundedRun.of_run hs₂, hp₂, hl₂, 29, by omega, by decide⟩⟩

end Xv6.Log
