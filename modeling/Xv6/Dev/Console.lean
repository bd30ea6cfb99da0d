/-
# The console's line discipline

`consoleintr` edits a line in the ring `input.buf` and commits it; `consoleread` of any number of
processes takes committed characters out.  `r`, `w` and `e` are `uint`s that are never reset: the
characters from `r` up to `w` are committed, those from `w` up to `e` can still be erased.

Both functions run under `cons.lock`.  A character of the interrupt and a turn of the reader's loop
are steps of their own, so that a `kill` can come between any two of them.  `sleep` releases the
lock and puts the reader to sleep in one step; a reader that is awake takes the lock again.

Beside the ring the state keeps what has happened so far: the characters that were accepted and not
erased since, and those that were stored for readers, each with the number of the call it went to.
The echo on the screen and the process listing of ^P are left out.
-/
import Xv6.Lib.RingBuffer

namespace Xv6.Console

open Function (update update_of_ne update_self)

/-! ## 1. The machine -/

abbrev INPUT_BUF : Nat := 128

/-- How far a `uint` counts. -/
@[irreducible] def WORD : Nat := 2 ^ 32

/-- `C(x)`: the character that Control and a letter give. -/
def ctrl (x : Char) : UInt8 := x.toUInt8 - '@'.toUInt8

abbrev newline : UInt8 := '\n'.toUInt8

/-- End of file. -/
abbrev eof : UInt8 := ctrl 'D'

/-- Where a process is. -/
inductive Pc
  /-- Not inside `consoleread`; the number of its last call, and what it returned. -/
  | user (last : Option (Nat × Int))
  /-- In `consoleread`, call number `id`, with `n` of `target` characters still to read. -/
  | read (id n target : Nat)
  deriving DecidableEq, Repr

/-- Who holds `cons.lock`. -/
inductive Owner (ι : Type)
  | reader (p : ι)
  | intr
  deriving DecidableEq, Repr

/-- `input`, the readers, and what has happened. -/
structure State (ι : Type) where
  /-- `input.buf`, with `input.r` and `input.e` as its counters. -/
  ring : RingBuffer UInt8
  w : Nat
  holder : Option (Owner ι)
  pc : ι → Pc
  /-- SLEEPING on `&input.r`. -/
  asleep : ι → Bool
  killed : ι → Bool
  /-- How many calls of `consoleread` there were. -/
  calls : Nat
  /-- The characters that were accepted and not erased. -/
  typed : List UInt8
  /-- The characters that were stored for a call of `consoleread`. -/
  delivered : List (Nat × UInt8)

/-- What happens next. -/
inductive Act (ι : Type)
  /-- `p` calls `consoleread` with size `n`. -/
  | read (p : ι) (n : Int)
  /-- `p` takes `cons.lock`, at the start of a call or after a sleep. -/
  | acquire (p : ι)
  /-- `p` makes a turn of its loop. -/
  | go (p : ι)
  /-- `consoleintr` is called, and takes `cons.lock`. -/
  | intr
  /-- `getc` returns `c`. -/
  | char (c : UInt8)
  /-- `consoleintr` returns. -/
  | iret
  /-- Somebody kills `p`. -/
  | kill (p : ι)
  deriving DecidableEq, Repr

namespace State

variable {ι : Type}

/-- `input.r` -/
def r (s : State ι) : Nat := s.ring.nread

/-- `input.e` -/
def e (s : State ι) : Nat := s.ring.nwrite

/-- `input.e--`. -/
def erase (s : State ι) : State ι :=
  { s with ring := s.ring.retract WORD, typed := s.typed.dropLast }

/-- The loop of kill-line, with enough fuel for a full buffer. -/
def killLine : Nat → State ι → State ι
  | 0, s => s
  | fuel + 1, s =>
    if s.e ≠ s.w ∧ s.ring.last INPUT_BUF WORD ≠ newline then killLine fuel s.erase else s

/-- `input.buf[input.e++ % INPUT_BUF] = c`. -/
def accept (s : State ι) (c : UInt8) : State ι :=
  { s with ring := s.ring.push INPUT_BUF WORD c, typed := s.typed ++ [c] }

/-- `input.w = input.e; wakeup(&input.r)`. -/
def commit (s : State ι) : State ι := { s with w := s.e, asleep := fun _ => false }

/-- `input.r++`. -/
def pop (s : State ι) : State ι := { s with ring := s.ring.pop WORD }

/-- One turn of the loop of `consoleintr`. -/
def input (s : State ι) (c : UInt8) : State ι :=
  if c = ctrl 'P' then s
  else if c = ctrl 'U' then s.killLine (INPUT_BUF + 1)
  else if c = ctrl 'H' ∨ c = 0x7f then
    if s.e ≠ s.w then s.erase else s
  else if c ≠ 0 ∧ s.ring.ahead WORD s.e < INPUT_BUF then
    let c := if c = '\r'.toUInt8 then newline else c
    let s := s.accept c
    if c = newline ∨ c = eof ∨ s.e = (s.r + INPUT_BUF) % WORD then s.commit else s
  else s

variable [DecidableEq ι]

/-- `release(&cons.lock)` and return. -/
def leave (s : State ι) (p : ι) (id : Nat) (r : Int) : State ι :=
  { s with pc := update s.pc p (.user (some (id, r))), holder := none }

/-- One turn of the loop of `consoleread`. -/
def goRead (s : State ι) (p : ι) (id n target : Nat) : State ι :=
  if n = 0 then s.leave p id target
  else if s.r = s.w then
    if s.killed p then s.leave p id (-1)
    else { s with asleep := update s.asleep p true, holder := none }
  else
    let c := s.ring.front INPUT_BUF
    let s := s.pop
    if c = eof then
      let s := if n < target then { s with ring := s.ring.unpop WORD } else s
      s.leave p id (target - n)
    else
      let s := { s with delivered := s.delivered ++ [(id, c)] }
      if c = newline then s.leave p id (target - (n - 1))
      else { s with pc := update s.pc p (.read id (n - 1) target) }

/-- One step.  A size that is not positive reads nothing and returns 0. -/
def step (s : State ι) : Act ι → Option (State ι)
  | .read p n =>
    match s.pc p with
    | .user _ =>
      some { s with pc := update s.pc p (.read s.calls n.toNat n.toNat), calls := s.calls + 1 }
    | _ => none
  | .acquire p =>
    match s.pc p with
    | .read _ _ _ =>
      if s.holder = none ∧ s.asleep p = false then some { s with holder := some (.reader p) }
      else none
    | _ => none
  | .go p =>
    match s.pc p with
    | .read id n target =>
      if s.holder = some (.reader p) then some (s.goRead p id n target) else none
    | _ => none
  | .intr => if s.holder = none then some { s with holder := some .intr } else none
  | .char c => if s.holder = some .intr then some (s.input c) else none
  | .iret => if s.holder = some .intr then some { s with holder := none } else none
  | .kill p =>
    some { s with killed := update s.killed p true, asleep := update s.asleep p false }

/-- The characters in the ring. -/
def pending (s : State ι) : List UInt8 := s.ring.upTo INPUT_BUF WORD s.e

/-- The characters in the ring that cannot be erased any more. -/
def committed (s : State ι) : List UInt8 := s.ring.upTo INPUT_BUF WORD s.w

end State

/-- The characters stored for call number `id`. -/
def bytesOf (delivered : List (Nat × UInt8)) (id : Nat) : List UInt8 :=
  (delivered.filter fun x => x.1 = id).map Prod.snd

/-- At boot; the memory of `input` is zeroed. -/
def start (ι : Type) : State ι where
  ring := ⟨fun _ => 0, 0, 0⟩
  w := 0
  holder := none
  pc := fun _ => .user none
  asleep := fun _ => false
  killed := fun _ => false
  calls := 0
  typed := []
  delivered := []

/-- The states that the steps lead to. -/
inductive Reach {ι : Type} [DecidableEq ι] : State ι → Prop
  | start : Reach (start ι)
  | step {s s' : State ι} {a : Act ι} : Reach s → s.step a = some s' → Reach s'

/-! ## 2. The ring -/

section

variable {ι : Type} {s s' : State ι} {xs : List UInt8} {k : Nat}

/-- The ring holds `xs`, of which the first `k` are committed. -/
structure Queue (s : State ι) (xs : List UInt8) (k : Nat) : Prop where
  ring : s.ring.Rep INPUT_BUF WORD xs
  w : s.w = (s.r + k) % WORD
  k_le : k ≤ xs.length

theorem dvd_word : INPUT_BUF ∣ WORD := by unfold WORD; decide

theorem lt_word : INPUT_BUF < WORD := by unfold WORD; decide

@[simp] theorem erase_w (s : State ι) : s.erase.w = s.w := by unfold State.erase; rfl

@[simp] theorem erase_r (s : State ι) : s.erase.r = s.r := by
  unfold State.r State.erase
  exact s.ring.retract_nread WORD

namespace Queue

theorem k_lt (h : Queue s xs k) : k < WORD := (h.k_le.trans h.ring.length_le).trans_lt lt_word

theorem ahead_w (h : Queue s xs k) : s.ring.ahead WORD s.w = k := by
  rw [h.w]
  exact h.ring.ahead_add h.k_lt

theorem ahead_e (h : Queue s xs k) : s.ring.ahead WORD s.e = xs.length :=
  h.ring.ahead_nwrite lt_word

theorem pending (h : Queue s xs k) : s.pending = xs := h.ring.upTo_nwrite lt_word

theorem committed (h : Queue s xs k) : s.committed = xs.take k := by
  rw [State.committed, h.w]
  exact h.ring.upTo_add lt_word h.k_le

/-- There is nothing to read. -/
theorem r_eq_w (h : Queue s xs k) : s.r = s.w ↔ k = 0 := by
  constructor
  · intro e
    have := h.ahead_w
    rw [← e, RingBuffer.ahead, State.r, show s.ring.nread + WORD - s.ring.nread = WORD by omega,
      Nat.mod_self] at this
    exact this.symm
  · rintro rfl
    have hr : s.r < WORD := h.ring.nread_lt
    rw [h.w, Nat.add_zero, Nat.mod_eq_of_lt hr]

/-- There is nothing to erase. -/
theorem e_eq_w (h : Queue s xs k) : s.e = s.w ↔ k = xs.length := by
  constructor
  · intro e
    rw [← h.ahead_w, ← h.ahead_e, e]
  · rintro rfl
    rw [h.w]
    exact h.ring.nwrite

theorem congr (h : Queue s xs k) (hr : s'.ring = s.ring) (hw : s'.w = s.w) : Queue s' xs k :=
  ⟨hr ▸ h.ring, by rw [hw, h.w, State.r, State.r, hr], h.k_le⟩

theorem pop {c : UInt8} (h : Queue s (c :: xs) (k + 1)) : Queue s.pop xs k where
  ring := h.ring.pop dvd_word
  w := by
    show s.w = ((s.ring.nread + 1) % WORD + k) % WORD
    rw [h.w, State.r, Nat.mod_add_mod]
    congr 1
    omega
  k_le := by
    have := h.k_le
    rw [List.length_cons] at this
    omega

/-- A character put back is where it was. -/
theorem unpop_pop (h : Queue s xs k) : (s.ring.pop WORD).unpop WORD = s.ring := h.ring.unpop_pop

theorem accept {c : UInt8} (h : Queue s xs k) (hl : xs.length < INPUT_BUF) :
    Queue (s.accept c) (xs ++ [c]) k where
  ring := h.ring.push dvd_word hl
  w := h.w
  k_le := by
    have := h.k_le
    rw [List.length_append]
    omega

theorem commit (h : Queue s xs k) : Queue s.commit xs xs.length where
  ring := h.ring
  w := h.ring.nwrite
  k_le := Nat.le_refl _

theorem erase {ys : List UInt8} {b : UInt8} (h : Queue s (ys ++ [b]) k) (hk : k ≤ ys.length) :
    Queue s.erase ys k := by
  refine ⟨?_, ?_, hk⟩
  · unfold State.erase
    exact h.ring.retract
  · rw [erase_r, erase_w]
    exact h.w

end Queue

/-- What editing leaves alone: `input.r`, and everything outside the ring. -/
structure SameRest (s s' : State ι) : Prop where
  r : s'.r = s.r
  holder : s'.holder = s.holder
  pc : s'.pc = s.pc
  killed : s'.killed = s.killed
  calls : s'.calls = s.calls
  delivered : s'.delivered = s.delivered
  asleep : ∀ p, s'.asleep p = true → s.asleep p = true

theorem SameRest.refl (s : State ι) : SameRest s s := ⟨rfl, rfl, rfl, rfl, rfl, rfl, fun _ => id⟩

theorem SameRest.trans {s'' : State ι} (h : SameRest s s') (h' : SameRest s' s'') :
    SameRest s s'' :=
  ⟨h'.r.trans h.r, h'.holder.trans h.holder, h'.pc.trans h.pc, h'.killed.trans h.killed,
    h'.calls.trans h.calls, h'.delivered.trans h.delivered, fun p hp => h.asleep p (h'.asleep p hp)⟩

theorem erase_sameRest (s : State ι) : SameRest s s.erase := by
  refine ⟨erase_r s, ?_, ?_, ?_, ?_, ?_, fun p hp => ?_⟩ <;> unfold State.erase at * <;>
    first | rfl | exact hp

/-- `n` characters were erased from the line that is being edited. -/
structure Erased (s s' : State ι) (xs : List UInt8) (k n : Nat) : Prop where
  queue : Queue s' (xs.take (xs.length - n)) k
  le : k + n ≤ xs.length
  typed : ∀ old, s.typed = old ++ xs → s'.typed = old ++ xs.take (xs.length - n)
  w : s'.w = s.w
  rest : SameRest s s'

theorem Erased.refl (h : Queue s xs k) : Erased s s xs k 0 :=
  ⟨by simpa using h, by simpa using h.k_le, fun old ht => by simpa using ht, rfl, SameRest.refl s⟩

/-- One character more. -/
theorem Erased.erase {n : Nat} (h : Erased s s' xs k n) (hk : k + n < xs.length) :
    Erased s s'.erase xs k (n + 1) := by
  have hsplit : xs.take (xs.length - n) =
      xs.take (xs.length - (n + 1)) ++ [xs[xs.length - (n + 1)]] := by
    rw [show xs.length - n = xs.length - (n + 1) + 1 by omega, List.take_add_one,
      List.getElem?_eq_getElem (by omega), Option.toList_some]
  have hq := h.queue
  rw [hsplit] at hq
  refine ⟨hq.erase ?_, by omega, fun old ht => ?_, (erase_w s').trans h.w, ?_⟩
  · rw [List.length_take]
    omega
  · have : s'.erase.typed = s'.typed.dropLast := by unfold State.erase; rfl
    rw [this, h.typed old ht, hsplit, ← List.append_assoc, List.dropLast_concat]
  · exact h.rest.trans (erase_sameRest s')

/-- Kill-line erases characters of the line that is being edited, and stops at its start or at a
newline. -/
theorem killLine_spec : ∀ (fuel n : Nat) {s' : State ι}, Erased s s' xs k n →
    xs.length - k - n < fuel →
    ∃ m, n ≤ m ∧ Erased s (s'.killLine fuel) xs k m ∧
      ((s'.killLine fuel).e = (s'.killLine fuel).w ∨
        (s'.killLine fuel).ring.last INPUT_BUF WORD = newline)
  | 0, _, _, _, hf => absurd hf (Nat.not_lt_zero _)
  | fuel + 1, n, s', h, hf => by
    unfold State.killLine
    split
    · rename_i hc
      have hne : k ≠ (xs.take (xs.length - n)).length := fun e => hc.1 (h.queue.e_eq_w.mpr e)
      have hle := h.le
      rw [List.length_take] at hne
      have hlt : k + n < xs.length := by omega
      obtain ⟨m, hm, herased, hstop⟩ := killLine_spec fuel (n + 1) (h.erase hlt) (by omega)
      exact ⟨m, by omega, herased, hstop⟩
    · rename_i hc
      exact ⟨n, Nat.le_refl n, h, by tauto⟩

/-- **What a character does.**  It is ignored, it erases characters of the line that is being
edited, or it is accepted, and may commit the line. -/
theorem input_cases (h : Queue s xs k) (c : UInt8) :
    (∃ n, Erased s (s.input c) xs k n ∧ (n ≠ 0 → c = ctrl 'U' ∨ c = ctrl 'H' ∨ c = 0x7f)) ∨
    (∃ d, xs.length < INPUT_BUF ∧ c ≠ ctrl 'U' ∧ c ≠ ctrl 'H' ∧ c ≠ 0x7f ∧
      (s.input c = s.accept d ∨ s.input c = (s.accept d).commit)) := by
  have hsame : ∃ n, Erased s s xs k n ∧ (n ≠ 0 → c = ctrl 'U' ∨ c = ctrl 'H' ∨ c = 0x7f) :=
    ⟨0, Erased.refl h, fun h0 => absurd rfl h0⟩
  unfold State.input
  by_cases hP : c = ctrl 'P'
  · rw [if_pos hP]
    exact .inl hsame
  rw [if_neg hP]
  by_cases hU : c = ctrl 'U'
  · rw [if_pos hU]
    have hlen := h.ring.length_le
    obtain ⟨m, -, hm, -⟩ := killLine_spec (INPUT_BUF + 1) 0 (Erased.refl h) (by omega)
    exact .inl ⟨m, hm, fun _ => .inl hU⟩
  rw [if_neg hU]
  by_cases hH : c = ctrl 'H' ∨ c = 0x7f
  · rw [if_pos hH]
    split
    · rename_i hne
      have hk : k + 0 < xs.length := by
        have := h.k_le
        have : k ≠ xs.length := fun e => hne (h.e_eq_w.mpr e)
        omega
      exact .inl ⟨1, (Erased.refl h).erase hk, fun _ => .inr hH⟩
    · exact .inl hsame
  rw [if_neg hH]
  rw [not_or] at hH
  split
  · rename_i hc
    rw [h.ahead_e] at hc
    refine .inr ⟨if c = '\r'.toUInt8 then newline else c, hc.2, hU, hH.1, hH.2, ?_⟩
    dsimp only
    generalize (if c = '\r'.toUInt8 then newline else c) = d
    split
    · exact .inr rfl
    · exact .inl rfl
  · exact .inl hsame

variable [DecidableEq ι] {p : ι} {n target : Nat}

/-- **What a turn of the reader's loop does.** -/
theorem goRead_cases (id : Nat) (h : Queue s xs k) (hn : n ≤ target) :
    (n = 0 ∧ s.goRead p id n target = s.leave p id target) ∨
    (0 < n ∧ k = 0 ∧ s.killed p = true ∧ s.goRead p id n target = s.leave p id (-1)) ∨
    (0 < n ∧ k = 0 ∧ s.killed p = false ∧ s.goRead p id n target =
      { s with asleep := update s.asleep p true, holder := none }) ∨
    ∃ c ys j, 0 < n ∧ xs = c :: ys ∧ k = j + 1 ∧
      ((c = eof ∧ n < target ∧ s.goRead p id n target = s.leave p id (target - n)) ∨
       (c = eof ∧ n = target ∧ s.goRead p id n target = s.pop.leave p id 0) ∨
       (c ≠ eof ∧ c = newline ∧ s.goRead p id n target =
        { s.pop with delivered := s.delivered ++ [(id, c)] }.leave p id (target - (n - 1))) ∨
       (c ≠ eof ∧ c ≠ newline ∧ s.goRead p id n target =
        { s.pop with
          delivered := s.delivered ++ [(id, c)]
          pc := update s.pc p (.read id (n - 1) target) })) := by
  unfold State.goRead
  by_cases h0 : n = 0
  · rw [if_pos h0]
    exact .inl ⟨h0, rfl⟩
  rw [if_neg h0]
  have hpos := Nat.pos_of_ne_zero h0
  by_cases hrw : s.r = s.w
  · have hk := h.r_eq_w.mp hrw
    rw [if_pos hrw]
    cases hkill : s.killed p with
    | true => exact .inr (.inl ⟨hpos, hk, rfl, if_pos rfl⟩)
    | false => exact .inr (.inr (.inl ⟨hpos, hk, rfl, if_neg (by decide)⟩))
  rw [if_neg hrw]
  obtain ⟨j, rfl⟩ := Nat.exists_eq_succ_of_ne_zero fun h0 => hrw (h.r_eq_w.mpr h0)
  cases xs with
  | nil => exact absurd h.k_le (Nat.not_succ_le_zero j)
  | cons c ys =>
    refine .inr (.inr (.inr ⟨c, ys, j, hpos, rfl, rfl, ?_⟩))
    have hfront : s.ring.front INPUT_BUF = c := h.ring.front
    have hback : ({ s.pop with ring := s.pop.ring.unpop WORD } : State ι) = s := by
      show ({ s with ring := (s.ring.pop WORD).unpop WORD } : State ι) = s
      rw [h.unpop_pop]
    simp only [hfront]
    by_cases heof : c = eof
    · rw [if_pos heof]
      rcases Nat.lt_or_ge n target with hlt | hge
      · rw [if_pos hlt, hback]
        exact .inl ⟨heof, hlt, rfl⟩
      · obtain rfl : n = target := Nat.le_antisymm hn hge
        rw [if_neg (Nat.lt_irrefl n), sub_self]
        exact .inr (.inl ⟨heof, rfl, rfl⟩)
    · rw [if_neg heof]
      by_cases hnl : c = newline
      · rw [if_pos hnl]
        exact .inr (.inr (.inl ⟨heof, hnl, rfl⟩))
      · rw [if_neg hnl]
        exact .inr (.inr (.inr ⟨heof, hnl, rfl⟩))

end

/-! ## 3. The calls of `consoleread` -/

theorem bytesOf_snoc (d : List (Nat × UInt8)) (id : Nat) (c : UInt8) (i : Nat) :
    bytesOf (d ++ [(id, c)]) i = bytesOf d i ++ if id = i then [c] else [] := by
  simp only [bytesOf, List.filter_append, List.map_append]
  congr 1
  by_cases h : id = i <;> simp [h]

/-- The last call of a process, or the one it is in. -/
def Pc.id : Pc → Option Nat
  | .user last => last.map Prod.fst
  | .read id _ _ => some id

section

variable {ι : Type} {s s' : State ι} {p : ι} {id n target : Nat} {r : Int} {c : UInt8}

structure CallsOk (s : State ι) : Prop where
  id_lt : ∀ p id, (s.pc p).id = some id → id < s.calls
  id_inj : ∀ p q id, (s.pc p).id = some id → (s.pc q).id = some id → p = q
  fresh : ∀ id, s.calls ≤ id → bytesOf s.delivered id = []
  reading : ∀ p id n target, s.pc p = .read id n target →
    (bytesOf s.delivered id).length + n = target ∧ newline ∉ bytesOf s.delivered id
  returned : ∀ p id r, s.pc p = .user (some (id, r)) →
    s.killed p = true ∧ r = -1 ∨ r = (bytesOf s.delivered id).length
  lines : ∀ id l₁ l₂, bytesOf s.delivered id = l₁ ++ newline :: l₂ → l₂ = []
  noEof : ∀ x ∈ s.delivered, x.2 ≠ eof

theorem callsOk_start : CallsOk (start ι) where
  id_lt _ _ h := by cases h
  id_inj _ _ _ h := by cases h
  fresh _ _ := rfl
  reading _ _ _ _ h := by cases h
  returned _ _ _ h := by cases h
  lines _ _ _ h := absurd h (by simp [start, bytesOf])
  noEof _ h := by cases h

theorem CallsOk.congr (h : CallsOk s) (hpc : s'.pc = s.pc) (hcalls : s'.calls = s.calls)
    (hd : s'.delivered = s.delivered) (hk : ∀ p, s.killed p = true → s'.killed p = true) :
    CallsOk s' := by
  refine ⟨?_, ?_, ?_, ?_, fun p id r hp => ?_, ?_, ?_⟩
  · rw [hpc, hcalls]
    exact h.id_lt
  · rw [hpc]
    exact h.id_inj
  · rw [hcalls, hd]
    exact h.fresh
  · rw [hpc, hd]
    exact h.reading
  · rw [hd]
    exact (h.returned p id r (hpc ▸ hp)).imp_left (And.imp_left (hk p))
  · rw [hd]
    exact h.lines
  · rw [hd]
    exact h.noEof

variable [DecidableEq ι]

/-- The process stays in its call, or returns from it. -/
theorem CallsOk.setPc (h : CallsOk s) (hp : s.pc p = .read id n target) {x : Pc}
    (hx : x.id = some id) (hpc : s'.pc = update s.pc p x) (hcalls : s'.calls = s.calls)
    (hk : s'.killed = s.killed)
    (hd : ∀ i, i ≠ id → bytesOf s'.delivered i = bytesOf s.delivered i)
    (hread : ∀ m t, x = .read id m t →
      (bytesOf s'.delivered id).length + m = t ∧ newline ∉ bytesOf s'.delivered id)
    (hret : ∀ r, x = .user (some (id, r)) →
      s.killed p = true ∧ r = -1 ∨ r = (bytesOf s'.delivered id).length)
    (hlines : ∀ l₁ l₂, bytesOf s'.delivered id = l₁ ++ newline :: l₂ → l₂ = [])
    (heof : ∀ x ∈ s'.delivered, x.2 ≠ eof) : CallsOk s' := by
  have hpid : (s.pc p).id = some id := by rw [hp]; rfl
  have hid : ∀ q, (s'.pc q).id = (s.pc q).id := fun q => by
    rw [hpc]
    rcases eq_or_ne q p with rfl | hq
    · rw [update_self, hx, hpid]
    · rw [update_of_ne hq]
  -- the call of any other process is another one
  have hne : ∀ q i, q ≠ p → (s.pc q).id = some i → i ≠ id := fun q i hq hi e =>
    hq (h.id_inj q p id (e ▸ hi) hpid)
  refine ⟨fun q i hq => ?_, fun q q' i hq hq' => ?_, fun i hi => ?_, fun q i m t hq => ?_,
    fun q i r hq => ?_, fun i => ?_, heof⟩
  · rw [hcalls]
    exact h.id_lt q i (hid q ▸ hq)
  · exact h.id_inj q q' i (hid q ▸ hq) (hid q' ▸ hq')
  · rw [hcalls] at hi
    rw [hd i fun e => absurd (h.id_lt p id hpid) (by omega)]
    exact h.fresh i hi
  · rw [hpc] at hq
    rcases eq_or_ne q p with rfl | hqp
    · rw [update_self] at hq
      have : i = id := by rw [hq] at hx; exact Option.some.inj hx
      subst this
      exact hread m t hq
    · rw [update_of_ne hqp] at hq
      rw [hd i (hne q i hqp (by rw [hq]; rfl))]
      exact h.reading q i m t hq
  · rw [hpc] at hq
    rw [hk]
    rcases eq_or_ne q p with rfl | hqp
    · rw [update_self] at hq
      have : i = id := by rw [hq] at hx; exact Option.some.inj hx
      subst this
      exact hret r hq
    · rw [update_of_ne hqp] at hq
      rw [hd i (hne q i hqp (by rw [hq]; rfl))]
      exact h.returned q i r hq
  · rcases eq_or_ne i id with rfl | hi
    · exact hlines
    · rw [hd i hi]
      exact h.lines i

theorem CallsOk.leave (h : CallsOk s) (hp : s.pc p = .read id n target)
    (hr : s.killed p = true ∧ r = -1 ∨ r = (bytesOf s.delivered id).length) :
    CallsOk (s.leave p id r) :=
  h.setPc hp rfl rfl rfl rfl (fun _ _ => rfl) nofun
    (fun r' he => by cases he; exact hr) (h.lines id) h.noEof

/-- A character is stored for the call. -/
theorem CallsOk.deliver (h : CallsOk s) (hp : s.pc p = .read id n target) (hc : c ≠ eof) {x : Pc}
    (hpc : s'.pc = update s.pc p x) (hcalls : s'.calls = s.calls) (hk : s'.killed = s.killed)
    (hd : s'.delivered = s.delivered ++ [(id, c)])
    (hx : x = .read id (n - 1) target ∧ 0 < n ∧ c ≠ newline ∨
      x = .user (some (id, ((bytesOf s.delivered id).length + 1 : Int)))) : CallsOk s' := by
  obtain ⟨hlen, hnl⟩ := h.reading p id n target hp
  have hself : bytesOf s'.delivered id = bytesOf s.delivered id ++ [c] := by
    rw [hd, bytesOf_snoc, if_pos rfl]
  refine h.setPc hp ?_ hpc hcalls hk (fun i hi => ?_) (fun m t he => ?_) (fun r he => ?_)
    (fun l₁ l₂ hl => ?_) fun y hy => ?_
  · rcases hx with ⟨rfl, -, -⟩ | rfl <;> rfl
  · rw [hd, bytesOf_snoc, if_neg (Ne.symm hi), List.append_nil]
  · rcases hx with ⟨rfl, hpos, hne⟩ | rfl
    · cases he
      rw [hself, List.length_append, List.length_singleton]
      exact ⟨by omega, by simp [hnl, Ne.symm hne]⟩
    · cases he
  · rcases hx with ⟨rfl, -, -⟩ | rfl
    · cases he
    · cases he
      rw [hself, List.length_append, List.length_singleton]
      exact .inr (by push_cast; rfl)
  · -- a newline can only be the character that was just stored
    rw [hself] at hl
    rcases List.eq_nil_or_concat l₂ with rfl | ⟨l, d, rfl⟩
    · rfl
    · rw [List.concat_eq_append, ← List.cons_append, ← List.append_assoc] at hl
      have := List.append_inj_left' hl rfl
      exact absurd (this ▸ by simp) hnl
  · rw [hd, List.mem_append, List.mem_singleton] at hy
    rcases hy with hy | rfl
    · exact h.noEof y hy
    · exact hc

/-- A call begins. -/
theorem CallsOk.call (h : CallsOk s) (m : Nat) :
    CallsOk { s with pc := update s.pc p (.read s.calls m m), calls := s.calls + 1 } := by
  have hne : ∀ q, (update s.pc p (.read s.calls m m) q).id = some s.calls ∨
      q ≠ p ∧ update s.pc p (.read s.calls m m) q = s.pc q := fun q => by
    rcases eq_or_ne q p with rfl | hq
    · exact .inl (by rw [update_self]; rfl)
    · exact .inr ⟨hq, update_of_ne hq _ _⟩
  have hold : ∀ q, (s.pc q).id ≠ some s.calls := fun q hq => absurd (h.id_lt q _ hq) (Nat.lt_irrefl _)
  refine ⟨fun q i hq => ?_, fun q q' i hq hq' => ?_, fun i hi => h.fresh i (Nat.le_of_succ_le hi),
    fun q i m' t hq => ?_, fun q i r hq => ?_, h.lines, h.noEof⟩
  · show i < s.calls + 1
    replace hq : (update s.pc p (.read s.calls m m) q).id = some i := hq
    rcases hne q with hnew | ⟨-, hsame⟩
    · rw [hnew] at hq
      exact Option.some.inj hq ▸ Nat.lt_succ_self _
    · rw [hsame] at hq
      exact (h.id_lt q i hq).trans (Nat.lt_succ_self _)
  · replace hq : (update s.pc p (.read s.calls m m) q).id = some i := hq
    replace hq' : (update s.pc p (.read s.calls m m) q').id = some i := hq'
    by_cases hi : i = s.calls
    · -- only `p` is in the new call
      have honly : ∀ q, (update s.pc p (.read s.calls m m) q).id = some i → q = p := fun q hq => by
        by_contra hqp
        rw [update_of_ne hqp, hi] at hq
        exact hold q hq
      exact (honly q hq).trans (honly q' hq').symm
    · have hwas : ∀ q, (update s.pc p (.read s.calls m m) q).id = some i → (s.pc q).id = some i := by
        intro q hq
        rcases hne q with hnew | ⟨-, hsame⟩
        · exact absurd (Option.some.inj (hq.symm.trans hnew)) hi
        · rwa [hsame] at hq
      exact h.id_inj q q' i (hwas q hq) (hwas q' hq')
  · replace hq : update s.pc p (.read s.calls m m) q = .read i m' t := hq
    rcases eq_or_ne q p with rfl | hqp
    · rw [update_self] at hq
      cases hq
      rw [h.fresh _ (Nat.le_refl _)]
      simp
    · rw [update_of_ne hqp] at hq
      exact h.reading q i m' t hq
  · replace hq : update s.pc p (.read s.calls m m) q = .user (some (i, r)) := hq
    rcases eq_or_ne q p with rfl | hqp
    · rw [update_self] at hq
      cases hq
    · rw [update_of_ne hqp] at hq
      exact h.returned q i r hq

end

/-! ## 4. The invariant -/

section

variable {ι : Type} {s s' : State ι} {xs : List UInt8} {k : Nat} {p : ι}

structure Inv (s : State ι) (xs : List UInt8) (k : Nat) : Prop where
  queue : Queue s xs k
  /-- What was typed and is not in the ring was delivered, but for the ends of file. -/
  books : ∃ old, s.typed = old ++ xs ∧ old.filter (· ≠ eof) = s.delivered.map Prod.snd
  sleepers : ∀ p, s.asleep p = true → k = 0
  calls : CallsOk s

theorem inv_start : Inv (start ι) [] 0 where
  queue := ⟨RingBuffer.Rep.empty (Nat.zero_lt_of_lt lt_word) _, (Nat.zero_mod WORD).symm,
    Nat.le_refl 0⟩
  books := ⟨[], rfl, rfl⟩
  sleepers _ _ := rfl
  calls := callsOk_start

theorem Inv.input (h : Inv s xs k) (c : UInt8) : ∃ ys j, Inv (s.input c) ys j := by
  obtain ⟨old, ht, hold⟩ := h.books
  rcases input_cases h.queue c with ⟨n, he, -⟩ | ⟨d, hl, -, -, -, hin⟩
  · refine ⟨_, k, he.queue, ⟨old, he.typed old ht, ?_⟩, fun p hp => h.sleepers p (he.rest.asleep p hp),
      h.calls.congr he.rest.pc he.rest.calls he.rest.delivered fun p hp => ?_⟩
    · rw [he.rest.delivered]
      exact hold
    · rw [he.rest.killed]
      exact hp
  · have hq := h.queue.accept (c := d) hl
    have hbooks : (s.accept d).typed = old ++ (xs ++ [d]) := by
      show s.typed ++ [d] = _
      rw [ht, List.append_assoc]
    rcases hin with hin | hin <;> rw [hin]
    · exact ⟨_, k, hq, ⟨old, hbooks, hold⟩, h.sleepers, h.calls.congr rfl rfl rfl fun _ => id⟩
    · exact ⟨_, _, hq.commit, ⟨old, hbooks, hold⟩, nofun, h.calls.congr rfl rfl rfl fun _ => id⟩

variable [DecidableEq ι]

theorem Inv.goRead (h : Inv s xs k) {id n target : Nat} (hp : s.pc p = .read id n target) :
    ∃ ys j, Inv (s.goRead p id n target) ys j := by
  obtain ⟨old, ht, hold⟩ := h.books
  obtain ⟨hlen, -⟩ := h.calls.reading p id n target hp
  rcases goRead_cases id (p := p) h.queue (by omega : n ≤ target) with
    ⟨h0, hg⟩ | ⟨-, -, hk, hg⟩ | ⟨-, h0, -, hg⟩ | ⟨c, ys, j, hpos, rfl, rfl, hg⟩
  · rw [hg]
    exact ⟨xs, k, h.queue.congr rfl rfl, h.books, h.sleepers, h.calls.leave hp (.inr (by omega))⟩
  · rw [hg]
    exact ⟨xs, k, h.queue.congr rfl rfl, h.books, h.sleepers, h.calls.leave hp (.inl ⟨hk, rfl⟩)⟩
  · rw [hg]
    exact ⟨xs, k, h.queue.congr rfl rfl, h.books, fun _ _ => h0,
      h.calls.congr rfl rfl rfl fun _ hk => hk⟩
  · have hawake : ∀ q, s.asleep q = true → j = 0 := fun q hq =>
      absurd (h.sleepers q hq) (Nat.succ_ne_zero j)
    rcases hg with ⟨-, hlt, hg⟩ | ⟨heof, rfl, hg⟩ | ⟨hne, hnl, hg⟩ | ⟨hne, hnl, hg⟩ <;> rw [hg]
    · exact ⟨c :: ys, j + 1, h.queue.congr rfl rfl, h.books, h.sleepers,
        h.calls.leave hp (.inr (by omega))⟩
    · refine ⟨ys, j, h.queue.pop.congr rfl rfl, ⟨old ++ [c], ?_, ?_⟩, hawake, ?_⟩
      · show s.typed = _
        rw [ht, List.append_assoc]
        rfl
      · rw [List.filter_append, hold, heof]
        simp [State.leave, State.pop]
      · have : CallsOk s.pop := h.calls.congr rfl rfl rfl fun _ hk => hk
        exact this.leave hp (.inr (by show (0 : Int) = (bytesOf s.delivered id).length; omega))
    · refine ⟨ys, j, h.queue.pop.congr rfl rfl, ⟨old ++ [c], ?_, ?_⟩, hawake, ?_⟩
      · show s.typed = _
        rw [ht, List.append_assoc]
        rfl
      · rw [List.filter_append, hold]
        simp [State.leave, hne]
      · exact h.calls.deliver hp hne rfl rfl rfl rfl (.inr (by congr 3; omega))
    · refine ⟨ys, j, h.queue.pop.congr rfl rfl, ⟨old ++ [c], ?_, ?_⟩, hawake, ?_⟩
      · show s.typed = _
        rw [ht, List.append_assoc]
        rfl
      · rw [List.filter_append, hold]
        simp [hne]
      · exact h.calls.deliver hp hne rfl rfl rfl rfl (.inl ⟨rfl, hpos, hnl⟩)

theorem Inv.step (h : Inv s xs k) {a : Act ι} (hs : s.step a = some s') : ∃ ys j, Inv s' ys j := by
  cases a <;> simp only [State.step, Option.ite_none_right_eq_some, Option.some.injEq] at hs
  case read p n =>
    split at hs
    · obtain rfl := Option.some.inj hs
      exact ⟨xs, k, h.queue.congr rfl rfl, h.books, h.sleepers, h.calls.call _⟩
    · cases hs
  case acquire p =>
    split at hs
    · simp only [Option.ite_none_right_eq_some, Option.some.injEq] at hs
      obtain ⟨-, rfl⟩ := hs
      exact ⟨xs, k, h.queue.congr rfl rfl, h.books, h.sleepers, h.calls.congr rfl rfl rfl fun _ => id⟩
    · cases hs
  case go p =>
    split at hs
    · rename_i id n target hp
      simp only [Option.ite_none_right_eq_some, Option.some.injEq] at hs
      obtain ⟨-, rfl⟩ := hs
      exact h.goRead hp
    · cases hs
  case intr | iret =>
    obtain ⟨-, rfl⟩ := hs
    exact ⟨xs, k, h.queue.congr rfl rfl, h.books, h.sleepers, h.calls.congr rfl rfl rfl fun _ => id⟩
  case char c =>
    obtain ⟨-, rfl⟩ := hs
    exact h.input c
  case kill p =>
    subst hs
    refine ⟨xs, k, h.queue.congr rfl rfl, h.books, fun q hq => ?_, h.calls.congr rfl rfl rfl
      fun q hq => ?_⟩
    · replace hq : update s.asleep p false q = true := hq
      rcases eq_or_ne q p with rfl | hne
      · simp at hq
      · rw [update_of_ne hne] at hq
        exact h.sleepers q hq
    · show update s.killed p true q = true
      rcases eq_or_ne q p with rfl | hne
      · simp
      · rwa [update_of_ne hne]

theorem Reach.inv (h : Reach s) : ∃ xs k, Inv s xs k := by
  induction h with
  | start => exact ⟨[], 0, inv_start⟩
  | step _ hs ih =>
    obtain ⟨xs, k, hi⟩ := ih
    exact hi.step hs

/-! ## 5. The line discipline -/

/-- A character that erases. -/
def Erases (c : UInt8) : Prop := c = ctrl 'U' ∨ c = ctrl 'H' ∨ c = 0x7f

omit [DecidableEq ι] in
/-- What a character does to the ring: it never touches what is committed. -/
theorem Queue.input (h : Queue s xs k) (c : UInt8) :
    s.committed <+: (s.input c).committed ∧
    (Erases c → (s.input c).r = s.r ∧ (s.input c).w = s.w ∧
      (s.input c).committed = s.committed ∧ (s.input c).pending <+: s.pending) ∧
    (¬ Erases c → s.pending <+: (s.input c).pending) := by
  rcases input_cases h c with ⟨n, he, hn⟩ | ⟨d, hl, hU, hH, hDel, hin⟩
  · have hcom : (s.input c).committed = s.committed := by
      rw [he.queue.committed, h.committed, List.take_take, Nat.min_eq_left (by have := he.le; omega)]
    have hpend : (s.input c).pending = s.pending.take (xs.length - n) := by
      rw [he.queue.pending, h.pending]
    refine ⟨hcom ▸ List.prefix_rfl, fun _ => ⟨he.rest.r, he.w, hcom, ?_⟩, fun hc => ?_⟩
    · rw [hpend]
      exact List.take_prefix _ _
    · obtain rfl : n = 0 := by
        by_contra h0
        exact hc (hn h0)
      rw [hpend, h.pending, Nat.sub_zero, List.take_length]
  · have hq := h.accept (c := d) hl
    have hE : ¬ Erases c := fun hc => hc.elim hU fun hc => hc.elim hH hDel
    rcases hin with hin | hin <;> rw [hin]
    · refine ⟨?_, fun hc => absurd hc hE, fun _ => ?_⟩
      · rw [hq.committed, h.committed, List.take_append_of_le_length h.k_le]
      · rw [hq.pending, h.pending]
        exact List.prefix_append _ _
    · refine ⟨?_, fun hc => absurd hc hE, fun _ => ?_⟩
      · rw [hq.commit.committed, h.committed, List.take_length]
        exact (List.take_prefix _ _).trans (List.prefix_append _ _)
      · rw [hq.commit.pending, h.pending]
        exact List.prefix_append _ _

/-- **The line discipline**, in one state and for the steps from it. -/
structure Discipline (s : State ι) : Prop where
  /-- `r ≤ w ≤ e ≤ r + INPUT_BUF`, counted from `r` modulo 2^32. -/
  indices : s.ring.ahead WORD s.w ≤ s.ring.ahead WORD s.e ∧ s.ring.ahead WORD s.e ≤ INPUT_BUF
  /-- Kill-line and backspace remove characters behind `w` only. -/
  erased : ∀ c s', Erases c → s.step (.char c) = some s' →
    s'.r = s.r ∧ s'.w = s.w ∧ s'.committed = s.committed ∧ s'.pending <+: s.pending
  /-- No other character removes any. -/
  kept : ∀ c s', ¬ Erases c → s.step (.char c) = some s' →
    s.pending <+: s'.pending ∧ s.committed <+: s'.committed
  /-- What was accepted and not erased was delivered once and in order, or is in the ring. -/
  delivered : s.typed.filter (· ≠ eof) = s.delivered.map Prod.snd ++ s.pending.filter (· ≠ eof)
  /-- A read that was not killed returns how many characters were stored for it. -/
  returned : ∀ p id r, s.pc p = .user (some (id, r)) → s.killed p = false →
    r = (bytesOf s.delivered id).length
  /-- A read stops after a newline. -/
  newline : ∀ id l₁ l₂, bytesOf s.delivered id = l₁ ++ newline :: l₂ →
    l₂ = [] ∧ ∀ p n target, s.pc p ≠ .read id n target
  /-- A ^D is not delivered. -/
  eof : ∀ x ∈ s.delivered, x.2 ≠ eof
  /-- A read stops at a ^D, and leaves it in the ring if it has read something. -/
  stops : ∀ p id n target s', s.pc p = .read id n target → 0 < n →
    s.committed.head? = some Console.eof → s.step (.go p) = some s' →
    s'.pc p = .user (some (id, ((bytesOf s.delivered id).length : Int))) ∧
    (bytesOf s.delivered id ≠ [] → s'.pending = s.pending ∧ s'.committed = s.committed)
  /-- It stays there until a read returns 0. -/
  stays : ∀ a s', s.step a = some s' → s.committed.head? = some Console.eof →
    s'.committed.head? = some Console.eof ∨ ∃ p id, a = .go p ∧ s'.pc p = .user (some (id, 0))
  /-- Nobody sleeps while there is something to read. -/
  awake : ∀ p, s.asleep p = true → s.r = s.w

theorem head_of_isPrefix {α : Type} {l l' : List α} {a : α} (h : l <+: l') (hl : l.head? = some a) :
    l'.head? = some a := by
  obtain ⟨t, rfl⟩ := h
  cases l with
  | nil => cases hl
  | cons b l => exact hl

/-- A step of a reader, with what it needs. -/
theorem step_go (hs : s.step (.go p) = some s') :
    ∃ id n target, s.pc p = .read id n target ∧ s' = s.goRead p id n target := by
  simp only [State.step] at hs
  split at hs
  · rename_i id n target hp
    simp only [Option.ite_none_right_eq_some, Option.some.injEq] at hs
    exact ⟨id, n, target, hp, hs.2.symm⟩
  · cases hs

theorem step_char {c : UInt8} (hs : s.step (.char c) = some s') : s' = s.input c := by
  simp only [State.step, Option.ite_none_right_eq_some, Option.some.injEq] at hs
  exact hs.2.symm

/-- At a ^D a read returns. -/
theorem Inv.stops (h : Inv s xs k) {id n target : Nat} (hp : s.pc p = .read id n target) (hn : 0 < n)
    (hhead : s.committed.head? = some eof) :
    (s.goRead p id n target).pc p = .user (some (id, ((bytesOf s.delivered id).length : Int))) ∧
    (bytesOf s.delivered id ≠ [] →
      s.goRead p id n target = s.leave p id ((bytesOf s.delivered id).length)) := by
  obtain ⟨hlen, -⟩ := h.calls.reading p id n target hp
  rw [h.queue.committed] at hhead
  rcases goRead_cases id (p := p) h.queue (by omega : n ≤ target) with
    ⟨h0, -⟩ | ⟨-, h0, -, -⟩ | ⟨-, h0, -, -⟩ | ⟨c, ys, j, -, rfl, rfl, hg⟩
  · omega
  · rw [h0] at hhead
    cases hhead
  · rw [h0] at hhead
    cases hhead
  · obtain rfl : c = eof := Option.some.inj hhead
    have hcount : (target - n : Int) = (bytesOf s.delivered id).length := by omega
    rcases hg with ⟨-, -, hg⟩ | ⟨-, rfl, hg⟩ | ⟨hne, -, -⟩ | ⟨hne, -, -⟩
    · rw [hg, hcount]
      exact ⟨update_self .., fun _ => rfl⟩
    · have hnil : bytesOf s.delivered id = [] := List.eq_nil_of_length_eq_zero (by omega)
      rw [hg, hnil]
      exact ⟨update_self .., fun h0 => absurd rfl h0⟩
    · exact absurd rfl hne
    · exact absurd rfl hne

theorem Inv.stays (h : Inv s xs k) {a : Act ι} (hs : s.step a = some s')
    (hhead : s.committed.head? = some eof) :
    s'.committed.head? = some eof ∨ ∃ p id, a = .go p ∧ s'.pc p = .user (some (id, 0)) := by
  have hsame : ∀ {t : State ι}, t.ring = s.ring → t.w = s.w → t.committed.head? = some eof :=
    fun {t} hr hw => by
      rw [State.committed, hr, hw]
      exact hhead
  cases a with
  | char c =>
    rw [step_char hs]
    exact .inl (head_of_isPrefix (h.queue.input c).1 hhead)
  | go p =>
    obtain ⟨id, n, target, hp, rfl⟩ := step_go hs
    by_cases hn : n = 0
    · rw [State.goRead, if_pos hn]
      exact .inl (hsame rfl rfl)
    · obtain ⟨hpc, hleave⟩ := h.stops hp (Nat.pos_of_ne_zero hn) hhead
      by_cases hnil : bytesOf s.delivered id = []
      · rw [hnil] at hpc
        exact .inr ⟨p, id, rfl, hpc⟩
      · rw [hleave hnil]
        exact .inl (hsame rfl rfl)
  | read p n =>
    simp only [State.step] at hs
    split at hs
    · exact Option.some.inj hs ▸ .inl (hsame rfl rfl)
    · cases hs
  | acquire p =>
    simp only [State.step] at hs
    split at hs
    · simp only [Option.ite_none_right_eq_some, Option.some.injEq] at hs
      exact hs.2 ▸ .inl (hsame rfl rfl)
    · cases hs
  | intr | iret =>
    simp only [State.step, Option.ite_none_right_eq_some, Option.some.injEq] at hs
    exact hs.2 ▸ .inl (hsame rfl rfl)
  | kill p => exact Option.some.inj hs ▸ .inl (hsame rfl rfl)

/-- **The console keeps its line discipline**, in every interleaving of interrupts and reads. -/
theorem console_discipline (h : Reach s) : Discipline s := by
  obtain ⟨xs, k, hi⟩ := h.inv
  obtain ⟨old, htyped, hold⟩ := hi.books
  refine ⟨?_, fun c s' hc hs => ?_, fun c s' hc hs => ?_, ?_, fun p id r hp hk => ?_,
    fun id l₁ l₂ hl => ⟨hi.calls.lines id l₁ l₂ hl, fun p n target hp => ?_⟩, hi.calls.noEof,
    fun p id n target s' hp hn hhead hs => ?_, fun a s' hs => hi.stays hs,
    fun p hp => hi.queue.r_eq_w.mpr (hi.sleepers p hp)⟩
  · rw [hi.queue.ahead_w, hi.queue.ahead_e]
    exact ⟨hi.queue.k_le, hi.queue.ring.length_le⟩
  · rw [step_char hs]
    exact (hi.queue.input c).2.1 hc
  · rw [step_char hs]
    exact ⟨(hi.queue.input c).2.2 hc, (hi.queue.input c).1⟩
  · rw [htyped, List.filter_append, hold, hi.queue.pending]
  · refine (hi.calls.returned p id r hp).resolve_left fun hd => ?_
    rw [hk] at hd
    exact Bool.noConfusion hd.1
  · have := (hi.calls.reading p id n target hp).2
    rw [hl] at this
    exact this (by simp)
  · obtain ⟨id', n', target', hp', rfl⟩ := step_go hs
    rw [hp] at hp'
    cases hp'
    obtain ⟨hpc, hleave⟩ := hi.stops hp hn hhead
    refine ⟨hpc, fun hne => ?_⟩
    rw [hleave hne]
    exact ⟨rfl, rfl⟩

/-- The state after a list of steps, if each is possible. -/
def exec (s : State ι) : List (Act ι) → Option (State ι)
  | [] => some s
  | a :: as => (s.step a).bind fun s => exec s as

theorem reach_exec : ∀ {as : List (Act ι)} {s s' : State ι}, Reach s → exec s as = some s' → Reach s'
  | [], _, _, h, he => Option.some.inj he ▸ h
  | a :: as, s, s', h, he => by
    obtain ⟨s₁, hs, he⟩ := Option.bind_eq_some_iff.mp he
    exact reach_exec (h.step hs) he

end

/-- A reader sleeps; `a`, a backspace, `b` and a newline are typed; the reader gets the line. -/
def oneLine : List (Act (Fin 1)) :=
  [.read 0 10, .acquire 0, .go 0, .intr, .char 97, .char 8, .char 98, .char 13, .iret, .acquire 0,
    .go 0, .go 0]

theorem console_discipline_oneLine : ∃ s, exec (start (Fin 1)) oneLine = some s ∧
    s.pc 0 = .user (some (0, 2)) ∧ (2 : Int) = (bytesOf s.delivered 0).length ∧
    s.typed.filter (· ≠ eof) = s.delivered.map Prod.snd ++ s.pending.filter (· ≠ eof) := by
  have hrun : (exec (start (Fin 1)) oneLine).any
      (fun s => s.pc 0 = .user (some (0, 2)) ∧ s.killed 0 = false) = true := by decide +kernel
  obtain ⟨s, hs, hcheck⟩ := (Option.any_eq_true _ _).mp hrun
  obtain ⟨hpc, hk⟩ := of_decide_eq_true hcheck
  have hd := console_discipline (reach_exec .start hs)
  exact ⟨s, hs, hpc, hd.returned 0 0 2 hpc hk, hd.delivered⟩

end Xv6.Console
