/-
# A pipe is a bounded FIFO

What `piperead` has taken out, followed by what the ring still holds, is what `pipewrite` has put
in: in the order of the stores, however the calls interleave and however often the 32-bit
counters have wrapped.  And the stores of one call are in the order of its buffer.

`piperead` finds the pipe empty with its write end closed, or finds something to read, before it
starts to copy, and keeps the lock from then on; so it returns 0 only in the first case.
-/
import Mathlib.Tactic
import Xv6.Pipe.State

namespace Xv6.Pipe

open Function (update update_of_ne update_self)

open RingBuffer (Rep)

variable {ι : Type} {s s' : State ι}

/-! ## 1. The bytes -/

/-- The bytes that call number `id` of `pipewrite` has stored. -/
def State.written (s : State ι) (id : Nat) : List UInt8 :=
  (s.stored.filter fun e => e.1 = id).map Prod.snd

/-- The ring holds what has been stored and not been read. -/
structure Queue (s : State ι) (unread : List UInt8) : Prop where
  stored : s.stored.map Prod.snd = s.returned ++ unread
  ring : Rep PIPESIZE WORD s.ring unread

/-- The calls of `pipewrite` under way, and the ones before them. -/
structure Writers (s : State ι) : Prop where
  old : ∀ e ∈ s.stored, e.1 < s.srcs.length
  part : ∀ id src, s.srcs[id]? = some src → s.written id <+: src
  cur : ∀ p id src i, s.pc p = .write id src i →
    s.srcs[id]? = some src ∧ s.written id = src.take i ∧ i ≤ src.length
  inj : ∀ p q id src src' i i', s.pc p = .write id src i → s.pc q = .write id src' i' → p = q

/-- A process that copies holds the lock; until it has copied a byte there is one to copy, or the
write end is closed. -/
def Copying (s : State ι) : Prop :=
  ∀ p n i, s.pc p = .copy n i → s.holder = some p ∧ (i = 0 → s.Empty → s.writeopen = false)

/-- The invariant of the bytes. -/
structure Fifo (s : State ι) : Prop where
  queue : ∃ unread, Queue s unread
  writers : Writers s
  copying : Copying s

theorem fifo_start (data : Nat → UInt8) : Fifo (start ι data) where
  queue := ⟨[], rfl, Rep.empty (by decide) data⟩
  writers := ⟨nofun, nofun, nofun, nofun⟩
  copying := nofun

/-! ## 2. What the parts of a step do -/

theorem Queue.congr {unread : List UInt8} (h : Queue s unread) (hring : s'.ring = s.ring)
    (hstored : s'.stored = s.stored) (hret : s'.returned = s.returned) : Queue s' unread :=
  ⟨by rw [hstored, hret, h.stored], hring ▸ h.ring⟩

theorem queue_congr (h : ∃ unread, Queue s unread) (hring : s'.ring = s.ring)
    (hstored : s'.stored = s.stored) (hret : s'.returned = s.returned) :
    ∃ unread, Queue s' unread :=
  h.imp fun _ hq => hq.congr hring hstored hret

theorem Queue.empty_iff {unread : List UInt8} (h : Queue s unread) : s.Empty ↔ unread = [] :=
  h.ring.isEmpty_iff (by decide)

theorem Queue.full_iff {unread : List UInt8} (h : Queue s unread) :
    s.Full ↔ unread.length = PIPESIZE :=
  h.ring.isFull_iff (by decide)

/-- Storing a byte puts it at the end of the queue. -/
theorem Queue.store {unread : List UInt8} (h : Queue s unread) (hfull : ¬ s.Full) (id : Nat)
    (b : UInt8) : Queue (s.store id b) (unread ++ [b]) where
  stored := by simp [State.store, h.stored]
  ring := h.ring.push (by decide) (lt_of_le_of_ne h.ring.length_le fun e => hfull (h.full_iff.mpr e))

/-- Fetching a byte takes the first one of the queue. -/
theorem Queue.fetch {unread : List UInt8} (h : Queue s unread) (hne : ¬ s.Empty) :
    Queue s.fetch unread.tail := by
  rcases unread with _ | ⟨b, unread⟩
  · exact absurd (h.empty_iff.mpr rfl) hne
  · exact ⟨by simp [State.fetch, h.stored, h.ring.front], h.ring.pop (by decide)⟩

/-- A step that stores nothing and starts no call of `pipewrite`. -/
theorem Writers.congr (h : Writers s) (hstored : s'.stored = s.stored) (hsrcs : s'.srcs = s.srcs)
    (hpc : ∀ q id src i, s'.pc q = .write id src i → s.pc q = .write id src i) : Writers s' where
  old := by
    rw [hstored, hsrcs]
    exact h.old
  part id src := by
    simp only [State.written, hstored, hsrcs]
    exact h.part id src
  cur p id src i hp := by
    simp only [State.written, hstored, hsrcs]
    exact h.cur p id src i (hpc p id src i hp)
  inj p q id src src' i i' hp hq := h.inj p q id src src' i i' (hpc _ _ _ _ hp) (hpc _ _ _ _ hq)

/-- Only the holder of the lock copies. -/
theorem Copying.eq_holder (h : Copying s) {p q : ι} {n i : Nat} (hp : s.holder = some p)
    (hq : s.pc q = .copy n i) : q = p :=
  Option.some.inj ((h q n i hq).1.symm.trans hp)

theorem Fifo.wakeup (h : Fifo s) (chan : Chan) : Fifo (s.wakeup chan) :=
  ⟨queue_congr h.queue rfl rfl rfl, h.writers.congr rfl rfl fun _ _ _ _ => id, h.copying⟩

variable [DecidableEq ι]

theorem Writers.setPc (h : Writers s) {p : ι} {pc : Pc} (hpc : ∀ id src i, pc ≠ .write id src i) :
    Writers (s.setPc p pc) := by
  refine h.congr rfl rfl fun q id src i hq => ?_
  rcases eq_or_ne q p with rfl | hne
  · simp only [State.setPc, update_self] at hq
    exact absurd hq (hpc id src i)
  · simpa only [State.setPc, update_of_ne hne] using hq

/-- A new call has stored nothing. -/
theorem Writers.call (h : Writers s) (p : ι) (src : List UInt8) :
    Writers { s.setPc p (.write s.srcs.length src 0) with srcs := s.srcs ++ [src] } := by
  have hnew : s.written s.srcs.length = [] := by
    simp only [State.written, List.map_eq_nil_iff, List.filter_eq_nil_iff, decide_eq_true_eq]
    exact fun e he => (h.old e he).ne
  have hget : ∀ {id src'}, s.srcs[id]? = some src' → (s.srcs ++ [src])[id]? = some src' :=
    fun {id src'} e => by
      rw [List.getElem?_append_left (List.getElem?_eq_some_iff.mp e).1, e]
  have hpc : ∀ {q id src' i}, update s.pc p (.write s.srcs.length src 0) q =
      .write id src' i → q = p ∧ id = s.srcs.length ∧ src' = src ∧ i = 0 ∨
        q ≠ p ∧ s.pc q = .write id src' i := fun {q id src' i} e => by
    rcases eq_or_ne q p with rfl | hne
    · rw [update_self, Pc.write.injEq] at e
      exact Or.inl ⟨rfl, e.1.symm, e.2.1.symm, e.2.2.symm⟩
    · rw [update_of_ne hne] at e
      exact Or.inr ⟨hne, e⟩
  have hlt : ∀ {q id src' i}, s.pc q = .write id src' i → id < s.srcs.length := fun e =>
    (List.getElem?_eq_some_iff.mp (h.cur _ _ _ _ e).1).1
  refine ⟨fun e he => ?_, fun id src' hid => ?_, fun q id src' i hq => ?_,
    fun q q' id src₁ src₂ i i' hq hq' => ?_⟩
  · have := h.old e he
    simp only [List.length_append, List.length_singleton]
    omega
  · rcases Nat.lt_or_ge id s.srcs.length with hl | hl
    · rw [List.getElem?_append_left hl] at hid
      exact h.part id src' hid
    · rw [List.getElem?_append_right hl] at hid
      obtain rfl : id = s.srcs.length := by
        have := (List.getElem?_eq_some_iff.mp hid).1
        simp only [List.length_singleton] at this
        omega
      have : s.written s.srcs.length <+: src' := hnew ▸ List.nil_prefix
      exact this
  · rcases hpc hq with ⟨-, rfl, rfl, rfl⟩ | ⟨-, hq⟩
    · exact ⟨by simp, hnew, Nat.zero_le _⟩
    · obtain ⟨hs, hw, hi⟩ := h.cur q id src' i hq
      exact ⟨hget hs, hw, hi⟩
  · rcases hpc hq with ⟨rfl, rfl, -, -⟩ | ⟨-, hq₁⟩ <;>
      rcases hpc hq' with ⟨rfl, e, -, -⟩ | ⟨-, hq₂⟩
    · rfl
    · exact absurd (hlt hq₂) (lt_irrefl _)
    · exact absurd (e ▸ hlt hq₁) (lt_irrefl _)
    · exact h.inj q q' id src₁ src₂ i i' hq₁ hq₂

/-- A call goes on with the next byte of its buffer. -/
theorem Writers.store (h : Writers s) {p : ι} {id i : Nat} {src : List UInt8} {b : UInt8}
    (hp : s.pc p = .write id src i) (hb : src[i]? = some b) :
    Writers ((s.store id b).setPc p (.write id src (i + 1))) := by
  obtain ⟨hsrc, hw, hi⟩ := h.cur p id src i hp
  obtain ⟨hlt, rfl⟩ := List.getElem?_eq_some_iff.mp hb
  have hself : (s.store id src[i]).written id = src.take (i + 1) := by
    simp only [State.written, State.store, List.filter_append, List.map_append] at hw ⊢
    rw [hw]
    simp
  have hother : ∀ id', id' ≠ id → (s.store id src[i]).written id' = s.written id' := fun id' hne => by
    simp [State.written, State.store, List.filter_append, hne.symm]
  have hpc : ∀ {q id' src' i'}, update s.pc p (.write id src (i + 1)) q =
      .write id' src' i' → q = p ∧ id' = id ∧ src' = src ∧ i' = i + 1 ∨
        id' ≠ id ∧ s.pc q = .write id' src' i' := fun {q id' src' i'} e => by
    rcases eq_or_ne q p with rfl | hne
    · rw [update_self, Pc.write.injEq] at e
      exact Or.inl ⟨rfl, e.1.symm, e.2.1.symm, e.2.2.symm⟩
    · rw [update_of_ne hne] at e
      exact Or.inr ⟨fun eid => hne (h.inj q p id src' src i' i (eid ▸ e) hp), e⟩
  refine ⟨fun e he => ?_, fun id' src' hid => ?_, fun q id' src' i' hq => ?_,
    fun q q' id' src₁ src₂ i₁ i₂ hq hq' => ?_⟩
  · rcases List.mem_append.mp he with he | he
    · exact h.old e he
    · rw [List.mem_singleton.mp he]
      exact (List.getElem?_eq_some_iff.mp hsrc).1
  · rcases eq_or_ne id' id with rfl | hne
    · obtain rfl := Option.some.inj (hid.symm.trans hsrc)
      have : (s.store id' src'[i]).written id' <+: src' := hself ▸ List.take_prefix ..
      exact this
    · have : (s.store id src[i]).written id' <+: src' := hother id' hne ▸ h.part id' src' hid
      exact this
  · rcases hpc hq with ⟨-, rfl, rfl, rfl⟩ | ⟨hne, hq⟩
    · exact ⟨hsrc, hself, hlt⟩
    · obtain ⟨hs, hw', hi'⟩ := h.cur q id' src' i' hq
      exact ⟨hs, (hother id' hne).trans hw', hi'⟩
  · rcases hpc hq with ⟨rfl, rfl, -, -⟩ | ⟨hne₁, hq₁⟩ <;>
      rcases hpc hq' with ⟨rfl, e, -, -⟩ | ⟨hne₂, hq₂⟩
    · rfl
    · exact absurd rfl hne₂
    · exact absurd e hne₁
    · exact h.inj q q' id' src₁ src₂ i₁ i₂ hq₁ hq₂

/-! ## 3. Steps -/

theorem Copying.setPc (h : Copying s) {p : ι} {pc : Pc} (hpc : ∀ n i, pc ≠ .copy n i) :
    Copying (s.setPc p pc) := by
  intro q n i hq
  rcases eq_or_ne q p with rfl | hne
  · simp only [State.setPc, update_self] at hq
    exact absurd hq (hpc n i)
  · simp only [State.setPc, update_of_ne hne] at hq
    exact h q n i hq

/-- The holder leaves its call: nobody copies any more. -/
theorem Fifo.leave (h : Fifo s) {p : ι} (hp : s.holder = some p) (r : Ret) :
    Fifo (s.leave p r) := by
  have hw : Writers (s.setPc p (.user (some r))) := h.writers.setPc nofun
  refine ⟨queue_congr h.queue rfl rfl rfl, hw.congr rfl rfl fun _ _ _ _ => id,
    fun q n i hq => ?_⟩
  rcases eq_or_ne q p with rfl | hne
  · simp [State.leave, State.setPc] at hq
  · simp only [State.leave, State.setPc, update_of_ne hne] at hq
    exact absurd (h.copying.eq_holder hp hq) hne

/-- A process that does not copy goes to sleep. -/
theorem Fifo.sleep (h : Fifo s) {p : ι} (hp : s.holder = some p) (hpc : ∀ n i, s.pc p ≠ .copy n i)
    (chan : Chan) : Fifo (s.sleep p chan) where
  queue := queue_congr h.queue rfl rfl rfl
  writers := h.writers.congr rfl rfl fun _ _ _ _ => id
  copying q n i hq := absurd hq (by
    rintro hq
    obtain rfl := h.copying.eq_holder hp hq
    exact hpc n i hq)

theorem Fifo.goWrite (h : Fifo s) {p : ι} {id i : Nat} {src : List UInt8}
    (hp : s.holder = some p) (hpc : s.pc p = .write id src i) :
    Fifo (s.goWrite p id src i) := by
  unfold State.goWrite
  split
  · rename_i b hb
    split_ifs with hfull hexit
    · exact h.leave hp _
    · exact (h.wakeup .nread).sleep hp (by simp [State.wakeup, hpc]) _
    · obtain ⟨unread, hq⟩ := h.queue
      exact ⟨⟨_, (hq.store hfull id b).congr rfl rfl rfl⟩, h.writers.store hpc hb, fun q n j hq => by
        rcases eq_or_ne q p with rfl | hne
        · simp [State.setPc] at hq
        · simp only [State.setPc, update_of_ne hne] at hq
          exact absurd (h.copying.eq_holder hp hq) hne⟩
  · exact (h.wakeup .nread).leave hp _

theorem Fifo.goRead (h : Fifo s) {p : ι} {n : Nat} (hp : s.holder = some p)
    (hpc : s.pc p = .read n) : Fifo (s.goRead p n) := by
  unfold State.goRead
  split_ifs with hwait hkilled
  · exact h.leave hp _
  · exact h.sleep hp (by simp [hpc]) _
  · refine ⟨queue_congr h.queue rfl rfl rfl, h.writers.setPc nofun, fun q m i hq => ?_⟩
    rcases eq_or_ne q p with rfl | hne
    · exact ⟨hp, fun _ he => Bool.eq_false_iff.mpr fun hw => hwait ⟨he, hw⟩⟩
    · simp only [State.setPc, update_of_ne hne] at hq
      exact absurd (h.copying.eq_holder hp hq) hne

theorem Fifo.goCopy (h : Fifo s) {p : ι} {n i : Nat} (hp : s.holder = some p) :
    Fifo (s.goCopy p n i) := by
  unfold State.goCopy
  split_ifs with hmore
  · obtain ⟨unread, hq⟩ := h.queue
    have hw : Writers s.fetch := h.writers.congr rfl rfl fun _ _ _ _ => id
    refine ⟨⟨_, (hq.fetch hmore.2).congr rfl rfl rfl⟩, hw.setPc nofun, fun q m j hq => ?_⟩
    rcases eq_or_ne q p with rfl | hne
    · simp only [State.setPc, update_self, Pc.copy.injEq] at hq
      exact ⟨hp, fun e => absurd (hq.2.trans e) (Nat.succ_ne_zero i)⟩
    · simp only [State.setPc, update_of_ne hne] at hq
      exact absurd (h.copying.eq_holder hp hq) hne
  · exact (h.wakeup .nwrite).leave hp _

/-- **One step** keeps the bytes in order. -/
theorem Fifo.step (h : Fifo s) {a : Act ι} (hs : s.step a = some s') : Fifo s' := by
  cases a with
  | write p src =>
    simp only [State.step] at hs
    split at hs
    · obtain rfl := Option.some.inj hs
      exact ⟨queue_congr h.queue rfl rfl rfl, h.writers.call p src, h.copying.setPc nofun⟩
    · cases hs
  | read p n =>
    simp only [State.step] at hs
    split at hs
    · obtain rfl := Option.some.inj hs
      exact ⟨queue_congr h.queue rfl rfl rfl, h.writers.setPc nofun, h.copying.setPc nofun⟩
    · cases hs
  | acquire p =>
    simp only [State.step, Option.ite_none_right_eq_some, Option.some.injEq] at hs
    obtain ⟨⟨hfree, -⟩, rfl⟩ := hs
    refine ⟨queue_congr h.queue rfl rfl rfl, h.writers.congr rfl rfl fun _ _ _ _ => id, fun q n i hq => ?_⟩
    have := (h.copying q n i hq).1
    rw [hfree] at this
    cases this
  | go p =>
    simp only [State.step, Option.ite_none_right_eq_some] at hs
    obtain ⟨hp, hs⟩ := hs
    split at hs <;> rename_i hpc
    · exact Option.some.inj hs ▸ h.goWrite hp hpc
    · exact Option.some.inj hs ▸ h.goRead hp hpc
    · exact Option.some.inj hs ▸ h.goCopy hp
    · cases hs
  | close writable =>
    simp only [State.step, Option.ite_none_right_eq_some, Option.some.injEq] at hs
    obtain ⟨hfree, rfl⟩ := hs
    have hnone : ∀ q n i, s.pc q ≠ .copy n i := fun q n i hq => by
      have := (h.copying q n i hq).1
      rw [hfree] at this
      cases this
    unfold State.close
    split
    · exact ⟨queue_congr h.queue rfl rfl rfl, h.writers.congr rfl rfl fun _ _ _ _ => id, fun q n i hq =>
        absurd hq (hnone q n i)⟩
    · exact ⟨queue_congr h.queue rfl rfl rfl, h.writers.congr rfl rfl fun _ _ _ _ => id, fun q n i hq =>
        absurd hq (hnone q n i)⟩
  | kill p =>
    obtain rfl := Option.some.inj hs
    exact ⟨queue_congr h.queue rfl rfl rfl, h.writers.congr rfl rfl fun _ _ _ _ => id, h.copying⟩

theorem Reach.fifo {C : State ι → Act ι → Prop} (h : Reach C s) : Fifo s := by
  induction h with
  | start data => exact fifo_start data
  | step _ _ hs ih => exact ih.step hs

/-! ## 4. The FIFO -/

/-- `piperead` returns 0 only at the end of the file. -/
theorem Fifo.read_zero (h : Fifo s) {p : ι} {n : Nat} (hn : 0 < n)
    (hs : s.step (.go p) = some s') (hret : s'.pc p = .user (some (.read n 0))) :
    s.Empty ∧ s.writeopen = false := by
  simp only [State.step, Option.ite_none_right_eq_some] at hs
  obtain ⟨hp, hs⟩ := hs
  split at hs <;> rename_i hpc
  · obtain rfl := Option.some.inj hs
    simp only [State.goWrite] at hret
    repeat' split at hret
    all_goals simp [State.leave, State.sleep, State.setPc, State.wakeup, hpc] at hret
  · obtain rfl := Option.some.inj hs
    simp only [State.goRead] at hret
    repeat' split at hret
    all_goals simp [State.leave, State.sleep, State.setPc, hpc] at hret
  · rename_i m i
    obtain rfl := Option.some.inj hs
    unfold State.goCopy at hret
    split at hret
    · simp [State.setPc] at hret
    · rename_i hstop
      -- nothing was copied, so the state is that in which the copying started
      simp only [State.leave, State.setPc, update_self, Pc.user.injEq,
        Option.some.injEq, Ret.read.injEq, Nat.cast_eq_zero] at hret
      obtain ⟨rfl, rfl⟩ := hret
      have he : s.Empty := by
        by_contra hne
        exact hstop ⟨hn, hne⟩
      exact ⟨he, (h.copying p m 0 hpc).2 rfl he⟩
  · cases hs

/-- **A pipe is a bounded FIFO**, for any number of processes and any interleaving.  The bytes
read so far, followed by at most `PIPESIZE` bytes that are unread, are the bytes stored so far.
The counters are as far apart, modulo 2^32, as there are unread bytes, and each of those is still
in its cell.  The bytes of one `pipewrite` are stored in the order of its buffer.  And a
`piperead` of more than 0 bytes returns 0 only when the pipe is empty and its write end closed. -/
theorem pipe_fifo (h : Reach Any s) :
    (∃ unread, s.stored.map Prod.snd = s.returned ++ unread ∧ unread.length ≤ PIPESIZE ∧
      (s.ring.nwrite + WORD - s.ring.nread) % WORD = unread.length ∧
      ∀ i (hi : i < unread.length), s.ring.data ((s.ring.nread + i) % PIPESIZE) = unread[i]) ∧
    (∀ id src, s.srcs[id]? = some src → s.written id <+: src) ∧
    ∀ p n s', 0 < n → s.step (.go p) = some s' → s'.pc p = .user (some (.read n 0)) →
      s.Empty ∧ s.writeopen = false := by
  have hf := h.fifo
  obtain ⟨unread, hq⟩ := hf.queue
  exact ⟨⟨unread, hq.stored, hq.ring.length_le, hq.ring.ahead_nwrite (by decide), hq.ring.data⟩,
    hf.writers.part, fun p n s' hn hs hret => hf.read_zero hn hs hret⟩

instance neZero_two : NeZero 2 := ⟨by decide⟩

/-- Process 0 writes three bytes, and process 1 reads two. -/
def someBytes : List (Act (Fin 2)) :=
  [.write 0 [1, 2, 3], .acquire 0, .go 0, .go 0, .go 0, .go 0,
    .read 1 2, .acquire 1, .go 1, .go 1, .go 1, .go 1]

/-- Two bytes have come through, and one is left. -/
theorem pipe_fifo_someBytes : ∃ s, exec Any (start (Fin 2) fun _ => 0) someBytes = some s ∧
    s.returned = [1, 2] ∧ ∃ unread, s.stored.map Prod.snd = s.returned ++ unread := by
  have hrun : (exec Any (start (Fin 2) fun _ => 0) someBytes).any
      (fun s => s.returned = [1, 2]) = true := by decide +kernel
  obtain ⟨s, hs, hcheck⟩ := (Option.any_eq_true _ _).mp hrun
  obtain ⟨⟨unread, hu, -⟩, -⟩ := pipe_fifo (reach_exec (.start _) hs)
  exact ⟨s, hs, of_decide_eq_true hcheck, unread, hu⟩

end Xv6.Pipe
