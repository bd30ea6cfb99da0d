/-
# Process families

What the process table records of the lives of processes, without priorities, sleeping and
CPUs: which slots are in use, the pids, the parents, and how far each `fork` has come.  Beside
it runs a history of what `fork`, `exit` and `wait` have told their callers.

The table changes in six ways: `allocproc` takes a slot for a `fork`, the `fork` fails, sets
the parent, or completes, a process exits, and a parent reaps a ZOMBIE child.  The steps are
those of ANY interleaving, since none of them asks what the other processes are doing.

**What is kept.**  Pids of slots in use are positive and distinct (`Pids`).  A parent is alive
(`Kin`): the slot of a process is not freed while another slot points to it.  And the parent
field says who created the process, or, when that one has exited, `initproc` (`Told.made`).
-/
import Mathlib.Tactic

namespace Xv6

/-! ## 1. The table of a family -/

/-- The stages of life of a slot. -/
inductive Life
  | unused
  | embryo
  | alive
  | zombie
  deriving DecidableEq, Repr

/-- How far the call of `fork` of a process has come, with its local variable `np`. -/
inductive Forking (α : Type)
  | no
  /-- `allocproc` has returned `np`. -/
  | alloced (np : α)
  /-- `np->parent` is set. -/
  | linked (np : α)
  deriving DecidableEq, Repr

section

variable {α : Type}

def Forking.np : Forking α → Option α
  | .no => none
  | .alloced j => some j
  | .linked j => some j

@[simp, grind =] theorem Forking.np_no : (Forking.no : Forking α).np = none := rfl

@[simp, grind =] theorem Forking.np_alloced (j : α) : (Forking.alloced j).np = some j := rfl

@[simp, grind =] theorem Forking.np_linked (j : α) : (Forking.linked j).np = some j := rfl

end

/-- What a caller has been told, by pid. -/
inductive Event
  /-- A `fork` of `p` has taken a slot for `c`. -/
  | created (p c : Int)
  /-- A `fork` of `p` has returned `c`. -/
  | forked (p c : Int)
  /-- `p` has called `exit`. -/
  | exited (p : Int)
  /-- A `wait` of `p` has returned `c`. -/
  | waited (p c : Int)
  deriving DecidableEq, Repr

/-- The table as families see it.  The latest event comes first in `hist`. -/
structure Family (α : Type) where
  life : α → Life
  pid : α → Int
  parent : α → Option α
  nextpid : Int
  init : α
  forking : α → Forking α
  hist : List Event

namespace Family

open Function (update)

variable {α : Type}

/-! ## 2. Pids and parents -/

/-- A pid belongs to one slot, UNUSED slots that still show one included. -/
structure Pids (F : Family α) : Prop where
  nonneg : ∀ i, 0 ≤ F.pid i
  lt : ∀ i, F.pid i < F.nextpid
  pos : ∀ i, F.life i ≠ .unused → 0 < F.pid i
  inj : ∀ i j, F.pid i ≠ 0 → F.pid i = F.pid j → i = j

/-- Who is whose parent.  A process inside `fork` is alive and the only one to know its
child. -/
structure Kin (F : Family α) : Prop where
  orphan : ∀ i, F.life i = .unused → F.parent i = none
  alive : ∀ i j, F.parent i = some j → F.life j = .alive
  ne : ∀ i j, F.parent i = some j → i ≠ j
  root : F.parent F.init = none
  init : F.life F.init = .alive
  forking : ∀ i j, (F.forking i).np = some j → F.life i = .alive ∧ F.life j = .embryo
  forking_inj : ∀ i i' j, (F.forking i).np = some j → (F.forking i').np = some j → i = i'
  alloced : ∀ i j, F.forking i = .alloced j → F.parent j = none

theorem Kin.alloced_life {F : Family α} (h : Kin F) {i j : α} (hi : F.forking i = .alloced j) :
    F.life i = .alive ∧ F.life j = .embryo :=
  h.forking i j (by rw [hi]; rfl)

theorem Kin.linked_life {F : Family α} (h : Kin F) {i j : α} (hi : F.forking i = .linked j) :
    F.life i = .alive ∧ F.life j = .embryo :=
  h.forking i j (by rw [hi]; rfl)

/-! ## 3. What callers have been told -/

/-- The history agrees with the table. -/
structure Told (F : Family α) : Prop where
  made_lt : ∀ q c, .created q c ∈ F.hist → c < F.nextpid
  made_unique : ∀ q q' c, .created q c ∈ F.hist → .created q' c ∈ F.hist → q = q'
  forking : ∀ i j, (F.forking i).np = some j → .created (F.pid i) (F.pid j) ∈ F.hist
  forked : ∀ q c, .forked q c ∈ F.hist → .created q c ∈ F.hist
  /-- The parent of a process created it, or is `initproc` after the exit of the creator. -/
  made : ∀ i j, F.parent i = some j → ∃ q, .created q (F.pid i) ∈ F.hist ∧
    (q = F.pid j ∨ j = F.init ∧ .exited q ∈ F.hist)
  zombie : ∀ i, F.life i = .zombie → .exited (F.pid i) ∈ F.hist
  /-- A pid that `wait` has returned is not in the table any more, and does not come back. -/
  gone : ∀ p c, .waited p c ∈ F.hist → c ≠ 0 ∧ c < F.nextpid ∧ ∀ i, F.pid i ≠ c

/-- **What a `wait` that returns `c` to `p` may rely on**, with `l` the history before it: the
child has called `exit`, no `wait` has returned it before, and `p` is its creator, or
`initproc` after the exit of the creator. -/
structure Reaped (F : Family α) (p c : Int) (l : List Event) : Prop where
  exited : .exited c ∈ l
  first : ∀ p', .waited p' c ∉ l
  creator : ∀ q, .forked q c ∈ F.hist → p = q ∨ p = F.pid F.init ∧ .exited q ∈ l

/-- An event that creates nobody leaves the facts about creators alone. -/
theorem Told.of_event {F G : Family α} (h : Told F) (hn : G.nextpid = F.nextpid)
    (hc : ∀ q c, .created q c ∈ G.hist ↔ .created q c ∈ F.hist) :
    (∀ q c, .created q c ∈ G.hist → c < G.nextpid) ∧
      ∀ q q' c, .created q c ∈ G.hist → .created q' c ∈ G.hist → q = q' := by
  simp only [hc, hn]
  exact ⟨h.made_lt, h.made_unique⟩

theorem Reaped.mono {F G : Family α} {p c : Int} {l : List Event} (h : Reaped F p c l)
    (hpid : G.pid G.init = F.pid F.init)
    (hf : ∀ q, .forked q c ∈ G.hist → .forked q c ∈ F.hist) : Reaped G p c l :=
  ⟨h.exited, h.first, fun q hq => hpid ▸ h.creator q (hf q hq)⟩

/-- A ZOMBIE child can be reaped. -/
theorem Told.reaped {F : Family α} (h : Told F) {i k : α} (hk : F.parent k = some i)
    (hz : F.life k = .zombie) : Reaped F (F.pid i) (F.pid k) F.hist where
  exited := h.zombie k hz
  first p hp := (h.gone p _ hp).2.2 k rfl
  creator q hq := by
    obtain ⟨q', hq', hor⟩ := h.made k i hk
    obtain rfl := h.made_unique q q' _ (h.forked q _ hq) hq'
    rcases hor with rfl | ⟨rfl, hex⟩
    · exact Or.inl rfl
    · exact Or.inr ⟨rfl, hex⟩

/-- The invariant of families. -/
structure Inv (F : Family α) : Prop where
  pids : Pids F
  kin : Kin F
  told : Told F
  reaped : ∀ p c l, .waited p c :: l <:+ F.hist → Reaped F p c l

theorem Inv.reaped_mono {F G : Family α} (h : Inv F) (hpid : G.pid G.init = F.pid F.init)
    (hf : ∀ p q c, .waited p c ∈ F.hist → .forked q c ∈ G.hist → .forked q c ∈ F.hist) {p c : Int}
    {l : List Event} (hl : .waited p c :: l <:+ F.hist) : Reaped G p c l :=
  (h.reaped p c l hl).mono hpid fun q => hf p q c (hl.subset List.mem_cons_self)

/-- After the boot: `initproc` is alone. -/
structure Alone (F : Family α) : Prop where
  life : F.life F.init = .alive
  pid : F.pid F.init = 1
  other : ∀ i, i ≠ F.init → F.life i = .unused ∧ F.pid i = 0
  parent : ∀ i, F.parent i = none
  nextpid : F.nextpid = 2
  forking : ∀ i, F.forking i = .no
  hist : F.hist = []

theorem Alone.inv {F : Family α} (h : Alone F) : Inv F := by
  obtain ⟨hlife, hpid, hother, hparent, hnext, hno, hhist⟩ := h
  have hcases : ∀ i, F.pid i = 1 ∧ i = F.init ∨ F.pid i = 0 ∧ F.life i = .unused := fun i => by
    rcases eq_or_ne i F.init with rfl | hi
    · exact Or.inl ⟨hpid, rfl⟩
    · exact Or.inr ⟨(hother i hi).2, (hother i hi).1⟩
  have hmem : ∀ e, e ∉ F.hist := by simp [hhist]
  have hnp : ∀ i j, (F.forking i).np ≠ some j := by simp [hno]
  refine ⟨⟨by grind, by grind, by grind, by grind⟩, ?_, ?_, fun p c l hl => ?_⟩
  · exact {
      orphan := fun i _ => hparent i
      alive := by simp [hparent]
      ne := by simp [hparent]
      root := hparent _
      init := hlife
      forking := fun i j e => absurd e (hnp i j)
      forking_inj := fun i i' j e => absurd e (hnp i j)
      alloced := fun i j _ => hparent j }
  · exact {
      made_lt := fun q c e => absurd e (hmem _)
      made_unique := fun q q' c e => absurd e (hmem _)
      forking := fun i j e => absurd e (hnp i j)
      forked := fun q c e => absurd e (hmem _)
      made := by simp [hparent]
      zombie := by grind
      gone := fun p c e => absurd e (hmem _) }
  · exact absurd (hl.subset List.mem_cons_self) (hmem _)

/-! ## 4. The steps -/

variable [DecidableEq α]

/-- One step of the family: `i` is the process that takes it. -/
inductive Step (F : Family α) : Family α → Prop
  | alloc {i j : α} (hi : F.life i = .alive) (hno : F.forking i = .no)
      (hj : F.life j = .unused) :
      Step F { F with
        life := update F.life j .embryo
        pid := update F.pid j F.nextpid
        nextpid := F.nextpid + 1
        forking := update F.forking i (.alloced j)
        hist := .created (F.pid i) F.nextpid :: F.hist }
  | fail {i j : α} (hi : F.forking i = .alloced j) :
      Step F { F with
        life := update F.life j .unused
        forking := update F.forking i .no }
  | link {i j : α} (hi : F.forking i = .alloced j) :
      Step F { F with
        parent := update F.parent j (some i)
        forking := update F.forking i (.linked j) }
  | done {i j : α} (hi : F.forking i = .linked j) :
      Step F { F with
        life := update F.life j .alive
        forking := update F.forking i .no
        hist := .forked (F.pid i) (F.pid j) :: F.hist }
  | exit {i : α} (hi : F.life i = .alive) (hno : F.forking i = .no) (hne : i ≠ F.init) :
      Step F { F with
        life := update F.life i .zombie
        parent := fun k => if F.parent k = some i then some F.init else F.parent k
        hist := .exited (F.pid i) :: F.hist }
  | reap {i k : α} (hi : F.life i = .alive) (hk : F.parent k = some i)
      (hz : F.life k = .zombie) :
      Step F { F with
        life := update F.life k .unused
        pid := update F.pid k 0
        parent := update F.parent k none
        hist := .waited (F.pid i) (F.pid k) :: F.hist }

theorem Pids.step {F F' : Family α} (h : Pids F) (hk : Kin F) (hs : Step F F') : Pids F' := by
  have hnonneg := h.nonneg
  have hlt := h.lt
  have hpos := h.pos
  have hinj := h.inj
  cases hs with
  | @alloc i j hi hno hj =>
    have hpos : 0 < F.nextpid := (h.nonneg j).trans_lt (h.lt j)
    exact {
      nonneg := by grind
      lt := by grind
      pos := by grind
      inj := by grind }
  | fail hi => exact { h with pos := by grind }
  | link hi => exact { h with }
  | done hi =>
    have hj := hk.linked_life hi
    exact { h with pos := by grind }
  | exit hi hno hne => exact { h with pos := by grind }
  | reap hi hki hz =>
    exact {
      nonneg := by grind
      lt := by grind
      pos := by grind
      inj := by grind }

theorem Kin.step {F F' : Family α} (h : Kin F) (hs : Step F F') : Kin F' := by
  have horphan := h.orphan
  have hparent := h.alive
  have hforking := h.forking
  have hinj := h.forking_inj
  have halloced := h.alloced
  cases hs with
  | @alloc i j hi hno hj =>
    -- the slot taken was UNUSED, so nobody's parent and nobody's child
    have halive : ∀ k, F.life k = .alive → update F.life j .embryo k = .alive := by grind
    have hnew : ∀ i', (F.forking i').np ≠ some j := by grind
    exact {
      orphan := by grind
      alive := fun k p hk => halive p (h.alive k p hk)
      ne := h.ne
      root := h.root
      init := halive _ h.init
      forking := by grind
      forking_inj := by grind
      alloced := by grind }
  | @fail i j hi =>
    have hj := h.alloced_life hi
    have halive : ∀ k, F.life k = .alive → update F.life j .unused k = .alive := by grind
    exact {
      orphan := by grind
      alive := fun k p hk => halive p (h.alive k p hk)
      ne := h.ne
      root := h.root
      init := halive _ h.init
      forking := by grind
      forking_inj := by grind
      alloced := by grind }
  | @link i j hi =>
    have hj := h.alloced_life hi
    -- no other process is inside `fork` with this child
    have hother : ∀ i', i' ≠ i → (F.forking i').np ≠ some j := by grind
    exact {
      orphan := by grind
      alive := by grind
      ne := by grind [h.ne]
      root := by grind [h.root, h.init]
      init := h.init
      forking := by grind
      forking_inj := by grind
      alloced := by grind }
  | @done i j hi =>
    have hj := h.linked_life hi
    exact {
      orphan := by grind
      alive := by grind
      ne := h.ne
      root := h.root
      init := by grind [h.init]
      forking := by grind
      forking_inj := by grind
      alloced := by grind }
  | @exit i hi hno hne =>
    -- `i` is nobody's parent any more, and `initproc` does not exit
    have hinit : update F.life i .zombie F.init = .alive := by grind [h.init]
    exact {
      orphan := by grind
      alive := by grind
      ne := by grind [h.ne, h.root]
      root := by grind [h.root]
      init := hinit
      forking := by grind
      forking_inj := hinj
      alloced := by grind }
  | @reap i k hi hk hz =>
    -- a ZOMBIE is nobody's parent
    have halive : ∀ p, F.life p = .alive → update F.life k .unused p = .alive := by grind
    exact {
      orphan := by grind
      alive := by grind
      ne := by grind [h.ne]
      root := by grind [h.root]
      init := halive _ h.init
      forking := by grind
      forking_inj := hinj
      alloced := by grind }

theorem Told.step {F F' : Family α} (h : Told F) (hp : Pids F) (hk : Kin F) (hs : Step F F') :
    Told F' := by
  have hforking := h.forking
  have hmade := h.made
  have hgone := h.gone
  cases hs with
  | @alloc i j hi hno hj =>
    -- the new pid is above every pid that has been heard of
    have hlt := h.made_lt
    have hpid := hp.lt
    have hunique := h.made_unique
    have hold : ∀ k, F.life k ≠ .unused → update F.pid j F.nextpid k = F.pid k := by grind
    have hij := hold i (by grind)
    exact {
      made_lt := by grind
      made_unique := by grind
      forking := by grind [hk.forking]
      forked := fun q c hm => List.mem_cons_of_mem _ (h.forked q c (by simpa using hm))
      made := by grind [hk.alive, hk.orphan]
      zombie := by grind [h.zombie]
      gone := by grind }
  | @fail i j hi => exact { h with
      forking := by grind
      zombie := by grind [h.zombie] }
  | @link i j hi => exact { h with
      forking := by grind
      made := by grind }
  | @done i j hi =>
    obtain ⟨hlt, hunique⟩ := h.of_event (G := { F with
      hist := .forked (F.pid i) (F.pid j) :: F.hist }) rfl (by simp)
    exact {
      made_lt := hlt
      made_unique := hunique
      forking := by grind
      forked := by grind [h.forked]
      made := by grind
      zombie := by grind [h.zombie]
      gone := by grind }
  | @exit i hi hno hne =>
    obtain ⟨hlt, hunique⟩ := h.of_event (G := { F with
      hist := .exited (F.pid i) :: F.hist }) rfl (by simp)
    exact {
      made_lt := hlt
      made_unique := hunique
      forking := by grind
      forked := by grind [h.forked]
      made := by grind
      zombie := by grind [h.zombie]
      gone := by grind }
  | @reap i k hi hki hz =>
    obtain ⟨hlt, hunique⟩ := h.of_event (G := { F with
      hist := .waited (F.pid i) (F.pid k) :: F.hist }) rfl (by simp)
    have hpos := hp.pos
    have hinj := hp.inj
    exact {
      made_lt := hlt
      made_unique := hunique
      forking := by grind [hk.forking]
      forked := by grind [h.forked]
      made := by grind [hk.alive]
      zombie := by grind [h.zombie]
      gone := by grind [hp.lt] }

/-- **Families stay in order**: no step breaks the invariant. -/
theorem Inv.step {F F' : Family α} (h : Inv F) (hs : Step F F') : Inv F' := by
  refine ⟨h.pids.step h.kin hs, h.kin.step hs, h.told.step h.pids h.kin hs, ?_⟩
  have hinit := h.kin.init
  cases hs with
  | alloc hi hno hj =>
    intro p c l hl
    refine h.reaped_mono (by grind) (fun p q c _ hq => by simpa using hq) ?_
    simpa [List.suffix_cons_iff] using hl
  | fail hi => exact fun p c l hl => h.reaped_mono (by rfl) (fun _ _ _ _ hq => by exact hq) hl
  | link hi => exact fun p c l hl => h.reaped_mono (by rfl) (fun _ _ _ _ hq => by exact hq) hl
  | @done i j hi =>
    intro p c l hl
    refine h.reaped_mono (by rfl) (fun p q c hw hq => ?_) ?_
    · -- a pid that has been reaped is not the pid of the child
      have hne := (h.told.gone p c hw).2.2 j
      simpa [hne.symm] using hq
    · simpa [List.suffix_cons_iff] using hl
  | exit hi hno hne =>
    intro p c l hl
    refine h.reaped_mono (by rfl) (fun p q c _ hq => by simpa using hq) ?_
    simpa [List.suffix_cons_iff] using hl
  | @reap i k hi hki hz =>
    intro p c l hl
    have hpid : update F.pid k 0 F.init = F.pid F.init := by grind
    rcases List.suffix_cons_iff.mp hl with e | hl
    · cases e
      exact (h.told.reaped hki hz).mono hpid fun q hq => by simpa using hq
    · exact h.reaped_mono hpid (fun p q c _ hq => by simpa using hq) hl

end Family

end Xv6
