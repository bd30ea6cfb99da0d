/-
# The last reference

Any number of processes share the entry of one regular file in the inode cache.  A run is an
interleaving of the pieces of `iget`, `idup`, `ilock`, `iunlock` and `iput` that `ip->lock` and
`icache.lock` make atomic, each of them the code of the other modules, and of what the holder of
`ip->lock` does to the inode: it counts a link, uncounts one, or writes.

The kernel looks an inode up only by a directory entry, and an entry counts in `nlink`; so there
is an `iget` only while the inode on disk has links.

`iput` reads `ip->ref` in one critical section and decrements it in another.  Between the two the
reference is still counted, though its owner will not look at the count again.  If another
`iput` reads the count there, it takes that reference for one whose owner will free the inode.
In runs where no `iput` does that, the last reference frees an inode without links, and nothing
is freed before.
-/
import Xv6.Lib.Places
import Xv6.Fs.Image
import Xv6.Fs.Kept
import Xv6.Fs.Walk

namespace Xv6.Fs.Iput

open Function (injective_id update update_eq_self update_of_ne update_self)

/-! ## 1. The machine -/

/-- Where a process is, with respect to the inode. -/
inductive Pc
  /-- Not inside a call. -/
  | idle
  /-- In `ilock`, at `acquiresleep`. -/
  | ilock
  /-- In `ilock`, with the lock. -/
  | load
  /-- Between `ilock` and `iunlock`. -/
  | locked
  /-- In `iput`, at `acquiresleep`. -/
  | iput
  /-- In `iput`, with the lock, before it reads `ip->ref`. -/
  | test
  /-- In `iput`, about to free the inode. -/
  | free
  /-- In `iput`, at `releasesleep`. -/
  | release
  /-- In `iput`, before `ip->ref--`. -/
  | deref
  deriving DecidableEq, Repr

/-- The process has `ip->lock`. -/
def Pc.holds : Pc → Bool
  | .load | .locked | .test | .free | .release => true
  | _ => false

/-- The process is between its call of `ilock` and the end of its `iunlock`. -/
def Pc.uses : Pc → Bool
  | .ilock | .load | .locked => true
  | _ => false

/-- The process is inside `iput`. -/
def Pc.puts : Pc → Bool
  | .iput | .test | .free | .release | .deref => true
  | _ => false

/-- The process has read `ip->ref`, has nothing to free any more, and still counts in it. -/
def Pc.tested : Pc → Bool
  | .release | .deref => true
  | _ => false

structure State where
  fs : FileSys
  pc : Pid → Pc
  /-- How often the inode was freed. -/
  frees : Nat

/-- What happens next. -/
inductive Act
  /-- `p` calls `iget`. -/
  | iget (p : Pid)
  /-- `p` calls `idup`. -/
  | idup (p : Pid)
  /-- `p` calls `ilock`. -/
  | ilock (p : Pid)
  /-- `p` counts a link. -/
  | incLink (p : Pid)
  /-- `p` uncounts a link. -/
  | decLink (p : Pid)
  /-- `p` writes to the file. -/
  | writei (p : Pid) (src : List UInt8) (off : Nat)
  /-- `p` calls `iunlock`. -/
  | iunlock (p : Pid)
  /-- `p` calls `iput`. -/
  | iput (p : Pid)
  /-- `p` goes on with its call. -/
  | go (p : Pid)

/-- The check of `ilock`. -/
def ilockTest (ip : Nat) : FsM Unit := do
  let s ← get
  if s.ref ip < 1 then throw .ilock

/-- The body of `iunlock`. -/
def iunlockCode (p : Pid) (ip : Nat) : FsM Unit := do
  let s ← get
  if s.lock ip ≠ some p ∨ s.ref ip < 1 then throw .iunlock
  else releasesleep ip

/-- The pieces are those that the programs of the kernel are made of. -/
theorem ilock_eq (ip : Nat) : Fs.ilock ip = (do
    atomic (ilockTest ip); Prog.lock ⟨.ilock, ip⟩; atomic (ilockRead ip)) := rfl

theorem iunlock_eq (p : Pid) (ip : Nat) : Fs.iunlock p ip = atomic (iunlockCode p ip) := rfl

section

variable (n ip : Nat)

namespace State

/-- How many of the `n` processes are dropping a reference. -/
def putting (s : State) : Nat := tally (Finset.range n) Pc.puts s.pc

/-- How many processes use the inode. -/
def users (s : State) : Nat := tally (Finset.range n) Pc.uses s.pc

/-- There is a reference that nobody is dropping. -/
def Spare (s : State) : Prop := s.putting n < s.fs.ref ip

/-- A reference may be dropped.  The processes that use the inode share the references that
nobody is dropping (an open file is one reference for all its descriptors), so one of these is
left to them. -/
def MayPut (s : State) : Prop :=
  s.Spare n ip ∧ (0 < s.users n → s.putting n + 1 < s.fs.ref ip)

instance (s : State) : Decidable (s.Spare n ip) := inferInstanceAs (Decidable (_ < _))

instance (s : State) : Decidable (s.MayPut n ip) := inferInstanceAs (Decidable (_ ∧ _))

/-- `p` runs `m`, which says where it is afterwards. -/
def run (s : State) (p : Pid) (m : FsM Pc) : Option State :=
  match m s.fs with
  | .ok (x, fs) => some { s with fs := fs, pc := update s.pc p x }
  | .error _ => none

/-- `p` takes the lock, if it is free. -/
def take (s : State) (p : Pid) (x : Pc) : Option State :=
  if s.fs.lock ip = none then
    some { s with fs := s.fs.setLock ip (some p), pc := update s.pc p x }
  else none

/-- `p` goes on with its call. -/
def go (s : State) (p : Pid) : Option State :=
  match s.pc p with
  | .ilock => s.take ip p .load
  | .load => s.run p (do ilockRead ip; return .locked)
  | .iput => s.take ip p .test
  | .test => s.run p (do return if (← iputTest ip) = some 1 then .free else .release)
  | .free => (s.run p (do ifree ip; return .release)).map fun s => { s with frees := s.frees + 1 }
  | .release => s.run p (do releasesleep ip; return .deref)
  | .deref => s.run p (do iputRef ip; return .idle)
  | .idle | .locked => none

/-- One step.  Nothing is returned where the kernel panics. -/
def step (s : State) : Act → Option State
  | .iget p =>
    if p < n ∧ s.pc p = .idle ∧ (s.fs.dinode ip).nlink ≠ 0 then
      s.run p (do Fs.iget ip; return .idle)
    else none
  | .idup p =>
    if p < n ∧ s.pc p = .idle ∧ s.Spare n ip then s.run p (do Fs.idup ip; return .idle) else none
  | .ilock p =>
    if p < n ∧ s.pc p = .idle ∧ s.Spare n ip then
      s.run p (do ilockTest ip; return .ilock)
    else none
  | .incLink p => if s.pc p = .locked then s.run p (do Fs.incLink ip; return .locked) else none
  | .decLink p => if s.pc p = .locked then s.run p (do Fs.decLink ip; return .locked) else none
  | .writei p src off =>
    if s.pc p = .locked then s.run p (do let _ ← Fs.writei ip src off; return .locked) else none
  | .iunlock p => if s.pc p = .locked then s.run p (do iunlockCode p ip; return .idle) else none
  | .iput p =>
    if p < n ∧ s.pc p = .idle ∧ s.MayPut n ip then some { s with pc := update s.pc p .iput }
    else none
  | .go p => s.go ip p

end State

/-- What the kernel does to other inodes leaves the inode and its blocks alone. -/
structure SameFile (s t : FileSys) : Prop where
  sb : t.sb = s.sb
  ref : t.ref ip = s.ref ip
  valid : t.valid ip = s.valid ip
  lock : t.lock ip = s.lock ip
  inode : t.inode ip = s.inode ip
  dinode : t.dinode ip = s.dinode ip
  slot : ∀ m, slot t.data (t.cur ip) m = slot s.data (s.cur ip) m

/-- A regular file that nobody has a reference to. -/
structure Unused (s : FileSys) : Prop where
  good : Good s
  inum : ip < s.sb.ninodes
  type : (s.dinode ip).type = T_FILE
  nlink : (s.dinode ip).nlink ≠ 0
  ref : s.ref ip = 0
  lock : s.lock ip = none

/-- The states that steps allowed by `C` lead to. -/
inductive Reach (C : State → Act → Prop) : State → Prop
  | start {fs : FileSys} : Unused ip fs → Reach C ⟨fs, fun _ => .idle, 0⟩
  | step {s s' : State} {a : Act} : Reach C s → C s a → s.step n ip a = some s' → Reach C s'
  | other {s : State} {fs : FileSys} : Reach C s → Good fs → SameFile ip s.fs fs →
      Reach C { s with fs := fs }

/-- Any step is allowed. -/
def Any (_ : State) (_ : Act) : Prop := True

instance (s : State) (a : Act) : Decidable (Any s a) := isTrue trivial

/-- When an `iput` reads the count of an inode without links, no other `iput` is between its
`releasesleep` and its `ip->ref--`. -/
def Alone (s : State) : Act → Prop
  | .go p => s.pc p = .test → (s.fs.inode ip).nlink = 0 → ∀ q, q < n → s.pc q ≠ .deref
  | _ => True

instance (s : State) (a : Act) : Decidable (Alone n ip s a) := by
  unfold Alone
  split <;> infer_instance

/-- The state after a list of steps, if each is possible and allowed in its turn. -/
def exec (C : State → Act → Prop) [∀ s a, Decidable (C s a)] (s : State) :
    List Act → Option State
  | [] => some s
  | a :: as => if C s a then (s.step n ip a).bind fun s => exec C s as else none

end

/-! ## 2. The invariant -/

section

variable (n ip : Nat)

/-- How many processes count in `ip->ref` without looking at it again. -/
def State.spent (s : State) : Nat := tally (Finset.range n) Pc.tested s.pc

/-- The inode has not been freed.  If it has no links, it is cached, and some reference is left
whose owner will look at the count. -/
structure Live (s : State) : Prop where
  frees : s.frees = 0
  type : (s.fs.dinode ip).type = T_FILE
  cached : (s.fs.dinode ip).nlink = 0 → s.fs.valid ip = true
  left : (s.fs.dinode ip).nlink = 0 → s.spent n < s.fs.ref ip

/-- The inode has been freed, and all references are on their way out. -/
structure Freed (s : State) : Prop where
  frees : s.frees = 1
  cleared : (s.fs.dinode ip).Cleared
  nlink : (s.fs.dinode ip).nlink = 0
  valid : s.fs.valid ip = false
  ref : s.fs.ref ip ≤ s.putting n

structure Inv (s : State) : Prop where
  good : Good s.fs
  inum : ip < s.fs.sb.ninodes
  procs : ∀ p, s.pc p ≠ .idle → p < n
  holder : HeldAt (s.fs.lock ip) id Pc.holds s.pc
  /-- Every process in `iput` has its own reference to drop. -/
  puts : s.putting n ≤ s.fs.ref ip
  users : ∀ p, (s.pc p).uses = true → s.Spare n ip
  locked : ∀ p, s.pc p = .locked → s.fs.valid ip = true
  /-- The process that frees the inode has the only reference. -/
  last : ∀ p, s.pc p = .free →
    s.fs.valid ip = true ∧ (s.fs.inode ip).nlink = 0 ∧ s.fs.ref ip = 1
  fate : Live n ip s ∨ Freed n ip s

end

section

variable {n ip : Nat} {s s' : State} {p : Pid}

theorem Pc.not_uses_of_puts : ∀ {x : Pc}, x.puts = true → x.uses = false := by
  intro x
  cases x <;> decide

theorem Pc.puts_of_tested : ∀ {x : Pc}, x.tested = true → x.puts = true := by
  intro x
  cases x <;> decide

theorem inv_start {fs : FileSys} (h : Unused ip fs) : Inv n ip ⟨fs, fun _ => .idle, 0⟩ where
  good := h.good
  inum := h.inum
  procs p hp := absurd rfl hp
  holder p := by
    simp only [h.lock]
    exact ⟨nofun, nofun⟩
  puts := by simp [State.putting, tally, Pc.puts]
  users := nofun
  locked := nofun
  last := nofun
  fate := .inl ⟨rfl, h.type, fun h0 => absurd h0 h.nlink, fun h0 => absurd h0 h.nlink⟩

/-- A process that is freeing the inode has an `iput` under way. -/
theorem Inv.putting_pos (h : Inv n ip s) (hp : (s.pc p).puts = true) : 0 < s.putting n := by
  refine tally_pos (Finset.mem_range.mpr (h.procs p fun h0 => ?_)) hp
  rw [h0] at hp
  exact Bool.noConfusion hp

/-- While somebody uses the inode it has not been freed. -/
theorem Inv.live (h : Inv n ip s) (hs : s.Spare n ip) : Live n ip s :=
  h.fate.resolve_right fun hf => absurd hf.ref (Nat.not_le.mpr hs)

theorem Live.alloc (h : Live n ip s) (hi : Inv n ip s) : Alloc s.fs ip :=
  ⟨hi.inum, by rw [hi.good.coherent.cur, h.type]; decide⟩

/-- The process at `x` leaves its place in the code, and may take the lock or give it up. -/
theorem Inv.move (h : Inv n ip s) (hp : p < n) {x : Pc} {o : Option Pid}
    (hlock : HeldAt o id Pc.holds (update s.pc p x))
    (hput : x.puts = true → (s.pc p).puts = true ∨ s.MayPut n ip)
    (hkeep : (s.pc p).puts = true → x.puts = true)
    (huse : x.uses = true → (s.pc p).uses = true ∨ s.Spare n ip)
    (hx : x ≠ .locked)
    (hlast : x = .free → s.fs.valid ip = true ∧ (s.fs.inode ip).nlink = 0 ∧ s.fs.ref ip = 1)
    (htest : x.tested = true → (s.pc p).tested = true ∨
      (Live n ip s → (s.fs.dinode ip).nlink = 0 → s.spent n + 1 < s.fs.ref ip)) :
    Inv n ip ⟨s.fs.setLock ip o, update s.pc p x, s.frees⟩ := by
  have hmem := Finset.mem_range.mpr hp
  have hputs := tally_update Pc.puts s.pc hmem x
  have hspent := tally_update Pc.tested s.pc hmem x
  set pc := update s.pc p x with hpc
  have hself : pc p = x := update_self ..
  have hother : ∀ q, q ≠ p → pc q = s.pc q := fun q hq => update_of_ne hq _ _
  have hle : tally _ Pc.puts s.pc ≤ s.fs.ref ip := h.puts
  have hu : ∀ q, (s.pc q).uses = true → tally _ Pc.puts s.pc < s.fs.ref ip := h.users
  -- either nobody joins those who drop a reference, or there was one to drop
  have hnew : tally (Finset.range n) Pc.puts pc ≤ tally (Finset.range n) Pc.puts s.pc ∨
      tally (Finset.range n) Pc.puts pc = tally (Finset.range n) Pc.puts s.pc + 1 ∧
        s.MayPut n ip := by
    cases hxp : x.puts with
    | false =>
      rw [hxp, Bool.toNat_false] at hputs
      omega
    | true =>
      rw [hxp, Bool.toNat_true] at hputs
      rcases hput hxp with hold | hmay
      · rw [hold, Bool.toNat_true] at hputs
        omega
      · exact (Nat.lt_or_ge (tally (Finset.range n) Pc.puts s.pc) _).symm.imp id fun _ =>
          ⟨by omega, hmay⟩
  refine ⟨(h.good.setLock ip o).1, h.inum, fun q hq => ?_, ?_, ?_, fun q hq => ?_,
    fun q hq => ?_, fun q hq => ?_, ?_⟩
  · by_cases e : q = p
    · exact e ▸ hp
    · exact h.procs q (hother q e ▸ hq)
  · show HeldAt (update s.fs.lock ip o ip) id Pc.holds pc
    rw [update_self]
    exact hlock
  · show tally _ _ pc ≤ s.fs.ref ip
    rcases hnew with hn | ⟨hn, hmay⟩
    · omega
    · have := hmay.1
      simp only [State.Spare, State.putting] at this
      omega
  · show tally _ _ pc < s.fs.ref ip
    replace hq : (pc q).uses = true := hq
    by_cases e : q = p
    · rw [e, hself] at hq
      have hxp : x.puts = false := by
        by_contra hc
        rw [Pc.not_uses_of_puts (by simpa using hc)] at hq
        exact Bool.noConfusion hq
      have hspare : tally _ Pc.puts s.pc < _ := (huse hq).elim (hu p) id
      rw [hxp, Bool.toNat_false] at hputs
      omega
    · rw [hother q e] at hq
      have hspare := hu q hq
      rcases hnew with hn | ⟨hn, hmay⟩
      · omega
      · have hqn : q < n := h.procs q fun h0 => by rw [h0] at hq; exact Bool.noConfusion hq
        have := hmay.2 (tally_pos (Finset.mem_range.mpr hqn) hq)
        simp only [State.putting] at this
        omega
  · by_cases e : q = p
    · exact absurd (hself ▸ e ▸ hq) hx
    · exact h.locked q (hother q e ▸ hq)
  · by_cases e : q = p
    · exact hlast (hself ▸ e ▸ hq)
    · exact h.last q (hother q e ▸ hq)
  · refine h.fate.imp (fun hl => ⟨hl.frees, hl.type, hl.cached, fun h0 => ?_⟩) fun hf =>
      ⟨hf.frees, hf.cleared, hf.nlink, hf.valid, ?_⟩
    · show tally _ _ pc < s.fs.ref ip
      have hleft := hl.left h0
      simp only [State.spent] at hleft htest
      cases hxt : x.tested with
      | false => rw [hxt] at hspent; simp only [Bool.toNat_false] at hspent; omega
      | true =>
        rw [hxt] at hspent
        rcases htest hxt with hold | hroom
        · rw [hold] at hspent
          omega
        · have := hroom hl h0
          simp only [Bool.toNat_true] at hspent
          omega
    · show s.fs.ref ip ≤ tally _ _ pc
      have href := hf.ref
      simp only [State.putting] at href
      cases hpp : (s.pc p).puts with
      | false => rw [hpp] at hputs; simp only [Bool.toNat_false] at hputs; omega
      | true => rw [hpp, hkeep hpp] at hputs; omega

/-- A reference more changes nothing for those who have one. -/
theorem Inv.addRef (h : Inv n ip s) {fs : FileSys} (hg : Good fs) (hsb : fs.sb = s.fs.sb)
    (href : fs.ref ip = s.fs.ref ip + 1) (hlock : fs.lock ip = s.fs.lock ip)
    (hdinode : fs.dinode ip = s.fs.dinode ip)
    (hvalid : 0 < s.fs.ref ip → fs.valid ip = s.fs.valid ip) (hlive : Live n ip s)
    (hlast : ∀ p, s.pc p ≠ .free)
    (hcached : (s.fs.dinode ip).nlink = 0 → 0 < s.fs.ref ip) : Inv n ip { s with fs := fs } := by
  have hle : tally _ Pc.puts s.pc ≤ s.fs.ref ip := h.puts
  refine ⟨hg, hsb ▸ h.inum, h.procs, hlock ▸ h.holder, ?_, fun p hp => ?_, fun p hp => ?_,
    fun p hp => absurd hp (hlast p), .inl ⟨hlive.frees, ?_, fun h0 => ?_, fun h0 => ?_⟩⟩
  · show tally _ _ s.pc ≤ fs.ref ip
    omega
  · show tally _ _ s.pc < fs.ref ip
    omega
  · have hspare : tally _ Pc.puts s.pc < s.fs.ref ip := h.users p (by rw [hp]; rfl)
    show fs.valid ip = true
    rw [hvalid (by omega)]
    exact h.locked p hp
  · show (fs.dinode ip).type = T_FILE
    rw [hdinode]
    exact hlive.type
  · replace h0 : (fs.dinode ip).nlink = 0 := h0
    rw [hdinode] at h0
    show fs.valid ip = true
    rw [hvalid (hcached h0)]
    exact hlive.cached h0
  · replace h0 : (fs.dinode ip).nlink = 0 := h0
    rw [hdinode] at h0
    show tally _ _ s.pc < fs.ref ip
    have := hlive.left h0
    simp only [State.spent] at this
    omega

theorem Inv.iget (h : Inv n ip s) (hn : (s.fs.dinode ip).nlink ≠ 0) :
    Inv n ip { s with fs := s.fs.got ip } := by
  have hlive : Live n ip s := h.fate.resolve_right fun hf => hn hf.nlink
  refine h.addRef (h.good.got ip).1 rfl (by simp [FileSys.got]) rfl rfl (fun hr => ?_) hlive
    (fun p hp => ?_) fun h0 => absurd h0 hn
  · simp [FileSys.got, hr.ne']
  · obtain ⟨hv, h0, -⟩ := h.last p hp
    rw [(h.good.coherent ip hv).2.1] at h0
    exact hn h0

theorem Inv.idup (h : Inv n ip s) (hs : s.Spare n ip) :
    Inv n ip { s with fs := { s.fs with ref := update s.fs.ref ip (s.fs.ref ip + 1) } } := by
  have hs' : tally _ Pc.puts s.pc < s.fs.ref ip := hs
  refine h.addRef (h.good.setRef _).1 rfl (by simp) rfl rfl (fun _ => rfl) (h.live hs)
    (fun p hp => ?_) fun _ => by omega
  have hpos : 0 < tally _ Pc.puts s.pc := h.putting_pos (p := p) (by rw [hp]; rfl)
  have := (h.last p hp).2.2
  omega

/-- What the holder of the lock does to the file. -/
theorem Inv.work (h : Inv n ip s) (hp : s.pc p = .locked) {fs : FileSys} (hg : Good fs)
    (hf : Frame s.fs fs) (ht : (fs.view ip).type = (s.fs.view ip).type) :
    Inv n ip { s with fs := fs } := by
  have hv := h.locked p hp
  have hv' : fs.valid ip = true := by rw [hf.valid, hv]
  have huses : (s.pc p).uses = true := by rw [hp]; rfl
  have hspare : tally _ Pc.puts s.pc < s.fs.ref ip := h.users p huses
  have hlive := h.live hspare
  have htype : (fs.dinode ip).type = T_FILE := by
    rw [hg.view_eq hv', h.good.view_eq hv] at ht
    rw [← (hg.coherent ip hv').2.1]
    exact ht.trans ((h.good.coherent ip hv).2.1 ▸ hlive.type)
  refine ⟨hg, ?_, h.procs, hf.lock ▸ h.holder, ?_, fun q hq => ?_, fun _ _ => hv', fun q hq => ?_,
    .inl ⟨hlive.frees, htype, fun _ => hv', fun _ => ?_⟩⟩
  · show ip < fs.sb.ninodes
    rw [hf.sb]
    exact h.inum
  · show tally _ _ s.pc ≤ fs.ref ip
    rw [hf.ref]
    exact h.puts
  · show tally _ _ s.pc < fs.ref ip
    rw [hf.ref]
    exact h.users q hq
  · -- only one process has the lock
    obtain rfl : p = q := h.holder.unique injective_id (by rw [hp]; rfl) (by rw [hq]; rfl)
    rw [hp] at hq
    cases hq
  · show tally _ _ s.pc < fs.ref ip
    rw [hf.ref]
    exact Nat.lt_of_le_of_lt (tally_mono fun _ => Pc.puts_of_tested) hspare

theorem Inv.load (h : Inv n ip s) (hp : s.pc p = .load) :
    Inv n ip ⟨s.fs.loaded ip, update s.pc p .locked, s.frees⟩ := by
  have hpn : p < n := h.procs p (by rw [hp]; nofun)
  have hspare : tally _ Pc.puts s.pc < s.fs.ref ip := h.users p (by rw [hp]; rfl)
  have hlive := h.live hspare
  have hputs := tally_update Pc.puts s.pc (Finset.mem_range.mpr hpn) .locked
  have hspent := tally_update Pc.tested s.pc (Finset.mem_range.mpr hpn) .locked
  simp only [hp, Pc.puts, Pc.tested, Nat.add_right_cancel_iff] at hputs hspent
  have hother : ∀ q, q ≠ p → update s.pc p Pc.locked q = s.pc q := fun q hq =>
    update_of_ne hq _ _
  refine ⟨(h.good.loaded (hlive.alloc h)).1, ?_, fun q hq => ?_, ?_, ?_, fun q hq => ?_,
    fun _ _ => loaded_valid_self, fun q hq => ?_, .inl ⟨hlive.frees, ?_, fun _ =>
    loaded_valid_self, fun h0 => ?_⟩⟩
  · show ip < (s.fs.loaded ip).sb.ninodes
    rw [loaded_sb]
    exact h.inum
  · by_cases e : q = p
    · exact e ▸ hpn
    · exact h.procs q (hother q e ▸ hq)
  · show HeldAt ((s.fs.loaded ip).lock ip) id Pc.holds (update s.pc p .locked)
    rw [loaded_lock]
    exact h.holder.keep (by rw [hp]; rfl)
  · show tally _ _ (update s.pc p .locked) ≤ (s.fs.loaded ip).ref ip
    rw [loaded_ref]
    omega
  · show tally _ _ (update s.pc p .locked) < (s.fs.loaded ip).ref ip
    rw [loaded_ref]
    omega
  · by_cases e : q = p
    · subst e
      simp at hq
    · replace hq : update s.pc p Pc.locked q = .free := hq
      rw [hother q e] at hq
      exact absurd (h.holder.unique injective_id (by rw [hq]; rfl) (by rw [hp]; rfl)) e
  · show ((s.fs.loaded ip).dinode ip).type = T_FILE
    rw [loaded_dinode]
    exact hlive.type
  · replace h0 : ((s.fs.loaded ip).dinode ip).nlink = 0 := h0
    rw [loaded_dinode] at h0
    show tally _ _ (update s.pc p .locked) < (s.fs.loaded ip).ref ip
    rw [loaded_ref, hspent]
    exact hlive.left h0

/-- `iput` has read the count. -/
theorem Inv.test (h : Inv n ip s) (hp : s.pc p = .test) (hC : Alone n ip s (.go p)) {r : Option Nat}
    (hr : r = if s.fs.valid ip = true ∧ (s.fs.inode ip).nlink = 0 then some (s.fs.ref ip) else none) :
    Inv n ip { s with pc := update s.pc p (if r = some 1 then .free else .release) } := by
  have hpn : p < n := h.procs p (by rw [hp]; exact fun hc => by cases hc)
  have hpos : 0 < tally _ Pc.puts s.pc := h.putting_pos (p := p) (by rw [hp]; rfl)
  have hle : tally _ Pc.puts s.pc ≤ s.fs.ref ip := h.puts
  have hsame : s.fs.setLock ip (s.fs.lock ip) = s.fs := by simp [FileSys.setLock]
  by_cases h1 : r = some 1
  · rw [if_pos h1]
    have hlast : s.fs.valid ip = true ∧ (s.fs.inode ip).nlink = 0 ∧ s.fs.ref ip = 1 := by
      rw [h1] at hr
      split at hr
      · rename_i hc
        exact ⟨hc.1, hc.2, (Option.some.inj hr).symm⟩
      · cases hr
    have := h.move (x := .free) (o := s.fs.lock ip) hpn (h.holder.keep (by rw [hp]; rfl))
      (fun _ => .inl (by rw [hp]; rfl)) (fun _ => rfl) (fun hc => by cases hc) (fun hc => by cases hc) (fun _ => hlast) (fun hc => by cases hc)
    rwa [hsame] at this
  · rw [if_neg h1]
    have hroom : Live n ip s → (s.fs.dinode ip).nlink = 0 → s.spent n + 1 < s.fs.ref ip := by
      intro hl h0
      have hv := hl.cached h0
      have hn : (s.fs.inode ip).nlink = 0 := by rw [(h.good.coherent ip hv).2.1, h0]
      rw [if_pos ⟨hv, hn⟩] at hr
      have hne : s.fs.ref ip ≠ 1 := fun he => h1 (by rw [hr, he])
      -- nobody else is past its look at the count
      have hzero : s.spent n = 0 := by
        by_contra hc
        obtain ⟨q, hqn, hq⟩ := exists_of_tally_pos (Nat.pos_of_ne_zero hc)
        cases hpc : s.pc q with
        | deref => exact hC hp hn q (Finset.mem_range.mp hqn) hpc
        | release =>
          obtain rfl : p = q :=
            h.holder.unique injective_id (by rw [hp]; rfl) (by rw [hpc]; rfl)
          rw [hp] at hpc
          cases hpc
        | _ => rw [hpc] at hq; exact Bool.noConfusion hq
      omega
    have := h.move (x := .release) (o := s.fs.lock ip) hpn (h.holder.keep (by rw [hp]; rfl))
      (fun _ => .inl (by rw [hp]; rfl)) (fun _ => rfl) (fun hc => by cases hc) (fun hc => by cases hc) (fun hc => by cases hc) fun _ => .inr hroom
    rwa [hsame] at this

/-- `iput` has freed the inode. -/
theorem Inv.free (h : Inv n ip s) (hp : s.pc p = .free) {fs : FileSys} (hg : Good fs)
    (hv : fs.valid = update s.fs.valid ip false) (hsb : fs.sb = s.fs.sb) (href : fs.ref = s.fs.ref)
    (hlock : fs.lock = s.fs.lock) (hc : (fs.dinode ip).Cleared)
    (hn : (fs.dinode ip).nlink = (s.fs.inode ip).nlink) :
    Inv n ip ⟨fs, update s.pc p .release, s.frees + 1⟩ := by
  have hpn : p < n := h.procs p (by rw [hp]; nofun)
  have hmem := Finset.mem_range.mpr hpn
  have hpos : 0 < tally _ Pc.puts s.pc := h.putting_pos (p := p) (by rw [hp]; rfl)
  have hle : tally _ Pc.puts s.pc ≤ s.fs.ref ip := h.puts
  obtain ⟨hvalid, h0, h1⟩ := h.last p hp
  have hlive : Live n ip s := h.fate.resolve_right fun hf => by
    rw [hf.valid] at hvalid
    exact Bool.noConfusion hvalid
  have hputs := tally_update Pc.puts s.pc hmem .release
  simp only [hp, Pc.puts, Nat.add_right_cancel_iff] at hputs
  have hother : ∀ q, q ≠ p → update s.pc p Pc.release q = s.pc q := fun q hq =>
    update_of_ne hq _ _
  -- the others neither use the inode nor drop a reference
  have halone : ∀ q, q ≠ p → (s.pc q).uses = false ∧ (s.pc q).puts = false := by
    refine fun q hq => ⟨?_, ?_⟩ <;> by_contra hne
    · have : tally _ Pc.puts s.pc < s.fs.ref ip := h.users q (by simpa using hne)
      omega
    · have hqn : q < n := h.procs q fun h0 => hne (by rw [h0]; rfl)
      have := two_le_tally (f := Pc.puts) (x := s.pc) hmem (Finset.mem_range.mpr hqn) (Ne.symm hq)
        (by rw [hp]; rfl) (by simpa using hne)
      omega
  refine ⟨hg, ?_, fun q hq => ?_, ?_, ?_, fun q hq => ?_, fun q hq => ?_, fun q hq => ?_,
    .inr ⟨?_, hc, by rw [hn, h0], ?_, ?_⟩⟩
  · show ip < fs.sb.ninodes
    rw [hsb]
    exact h.inum
  · by_cases e : q = p
    · exact e ▸ hpn
    · exact h.procs q (hother q e ▸ hq)
  · show HeldAt (fs.lock ip) id Pc.holds (update s.pc p .release)
    rw [hlock]
    exact h.holder.keep (by rw [hp]; rfl)
  · show tally _ _ (update s.pc p .release) ≤ fs.ref ip
    rw [href]
    omega
  · replace hq : (update s.pc p Pc.release q).uses = true := hq
    by_cases e : q = p
    · subst e
      rw [update_self] at hq
      exact Bool.noConfusion hq
    · rw [hother q e, (halone q e).1] at hq
      exact Bool.noConfusion hq
  · replace hq : update s.pc p Pc.release q = .locked := hq
    by_cases e : q = p
    · subst e
      simp at hq
    · have := (halone q e).1
      rw [← hother q e, hq] at this
      exact Bool.noConfusion this
  · replace hq : update s.pc p Pc.release q = .free := hq
    by_cases e : q = p
    · subst e
      simp at hq
    · have := (halone q e).2
      rw [← hother q e, hq] at this
      exact Bool.noConfusion this
  · show s.frees + 1 = 1
    rw [hlive.frees]
  · show fs.valid ip = false
    rw [hv, update_self]
  · show fs.ref ip ≤ tally _ _ (update s.pc p .release)
    rw [href]
    omega

/-- `ip->ref--`. -/
theorem Inv.deref (h : Inv n ip s) (hp : s.pc p = .deref) :
    Inv n ip ⟨s.fs.dropped ip, update s.pc p .idle, s.frees⟩ := by
  have hpn : p < n := h.procs p (by rw [hp]; exact fun hc => by cases hc)
  have hmem := Finset.mem_range.mpr hpn
  have hpos : 0 < tally _ Pc.puts s.pc := h.putting_pos (p := p) (by rw [hp]; rfl)
  have hle : tally _ Pc.puts s.pc ≤ s.fs.ref ip := h.puts
  have hputs := tally_update Pc.puts s.pc hmem .idle
  have hspent := tally_update Pc.tested s.pc hmem .idle
  simp only [hp, Pc.puts, Pc.tested, Bool.toNat_true, Bool.toNat_false, Nat.add_zero] at hputs hspent
  have hother : ∀ q, q ≠ p → update s.pc p Pc.idle q = s.pc q := fun q hq =>
    update_of_ne hq _ _
  have href : (s.fs.dropped ip).ref ip = s.fs.ref ip - 1 := by simp [FileSys.dropped]
  -- where a process is now, it was before
  have hwas : ∀ {f : Pc → Bool}, f .idle = false → ∀ {q}, f (update s.pc p .idle q) = true →
      q ≠ p ∧ f (s.pc q) = true := by
    intro f hf q hq
    have hne : q ≠ p := by
      rintro rfl
      rw [update_self, hf] at hq
      exact Bool.noConfusion hq
    exact ⟨hne, hother q hne ▸ hq⟩
  refine ⟨(h.good.dropped ip).1, h.inum, fun q hq => ?_, h.holder.keep (by rw [hp]; rfl), ?_,
    fun q hq => ?_, fun q hq => ?_, fun q hq => ?_, h.fate.imp (fun hl => ⟨hl.frees, hl.type, hl.cached, fun h0 => ?_⟩)
    fun hf => ⟨hf.frees, hf.cleared, hf.nlink, hf.valid, ?_⟩⟩
  · by_cases e : q = p
    · exact e ▸ hpn
    · exact h.procs q (hother q e ▸ hq)
  · show tally _ _ (update s.pc p .idle) ≤ (s.fs.dropped ip).ref ip
    omega
  · have : tally _ Pc.puts s.pc < s.fs.ref ip := h.users q (hwas (f := Pc.uses) rfl hq).2
    show tally _ _ (update s.pc p .idle) < (s.fs.dropped ip).ref ip
    omega
  · have hq' := hwas (f := fun x => x = .locked) rfl (q := q) (by simpa using hq)
    exact h.locked q (by simpa using hq'.2)
  · -- two processes in `iput` have two references
    have hq' := hwas (f := fun x => x = .free) rfl (q := q) (by simpa using hq)
    have hfree : s.pc q = .free := by simpa using hq'.2
    have hqn : q < n := h.procs q (by rw [hfree]; exact fun hc => by cases hc)
    have := two_le_tally (f := Pc.puts) (x := s.pc) hmem (Finset.mem_range.mpr hqn) (Ne.symm hq'.1)
      (by rw [hp]; rfl) (by rw [hfree]; rfl)
    have := (h.last q hfree).2.2
    omega
  · have := hl.left h0
    simp only [State.spent] at this
    show tally _ _ (update s.pc p .idle) < (s.fs.dropped ip).ref ip
    omega
  · have := hf.ref
    simp only [State.putting] at this
    show (s.fs.dropped ip).ref ip ≤ tally _ _ (update s.pc p .idle)
    omega

theorem Inv.other (h : Inv n ip s) {fs : FileSys} (hg : Good fs) (hs : SameFile ip s.fs fs) :
    Inv n ip { s with fs := fs } := by
  have hspare : ∀ {m}, m < s.fs.ref ip → m < fs.ref ip := fun hm => hs.ref ▸ hm
  refine ⟨hg, ?_, h.procs, hs.lock ▸ h.holder, ?_, fun p hp => hspare (h.users p hp), fun p hp => ?_,
    fun p hp => ?_, h.fate.imp (fun hl => ⟨hl.frees, ?_, fun h0 => ?_, fun h0 => hspare ?_⟩) fun hf =>
    ⟨hf.frees, ?_, ?_, ?_, ?_⟩⟩
  · exact hs.sb ▸ h.inum
  · exact hs.ref ▸ h.puts
  · exact hs.valid ▸ h.locked p hp
  · show fs.valid ip = true ∧ (fs.inode ip).nlink = 0 ∧ fs.ref ip = 1
    rw [hs.valid, hs.inode, hs.ref]
    exact h.last p hp
  · exact hs.dinode ▸ hl.type
  · exact hs.valid ▸ hl.cached (hs.dinode ▸ h0)
  · exact hl.left (hs.dinode ▸ h0)
  · exact hs.dinode ▸ hf.cleared
  · exact hs.dinode ▸ hf.nlink
  · exact hs.valid ▸ hf.valid
  · exact hs.ref ▸ hf.ref

/-! ## 3. Every step keeps it -/

theorem run_spec {m : FsM Pc} {Q : Pc → FileSys → Prop} {E : Panic → Prop} (h : wp m Q E s.fs)
    (hr : s.run p m = some s') : ∃ x fs, Q x fs ∧ s' = ⟨fs, update s.pc p x, s.frees⟩ := by
  unfold State.run at hr
  split at hr
  · rename_i x fs hm
    exact ⟨x, fs, wp_of_ok h hm, (Option.some.inj hr).symm⟩
  · cases hr

/-- Code after which the process is where it was. -/
theorem run_same {m : FsM Pc} {Q : FileSys → Prop} {E : Panic → Prop}
    (h : wp m (fun x fs => x = s.pc p ∧ Q fs) E s.fs) (hr : s.run p m = some s') :
    ∃ fs, Q fs ∧ s' = { s with fs := fs } := by
  obtain ⟨x, fs, ⟨rfl, hQ⟩, rfl⟩ := run_spec h hr
  exact ⟨fs, hQ, by rw [update_eq_self]⟩

theorem Inv.go (h : Inv n ip s) (hC : Alone n ip s (.go p)) (hs : s.go ip p = some s') :
    Inv n ip s' := by
  have hlt : s.pc p ≠ .idle → p < n := h.procs p
  have htake : ∀ {x : Pc}, s.fs.lock ip = none → x.holds = true →
      HeldAt (some p) id Pc.holds (update s.pc p x) := fun hfree hx =>
    h.holder.take injective_id (by simp [hfree]) hx
  cases hp : s.pc p <;> simp only [State.go, State.take, hp, reduceCtorEq] at hs
  case ilock =>
    rw [Option.ite_none_right_eq_some, Option.some.injEq] at hs
    obtain ⟨hfree, rfl⟩ := hs
    exact h.move (hlt (by simp [hp])) (htake hfree rfl) (fun hc => by cases hc)
      (by simp [hp, Pc.puts]) (fun _ => .inl (by rw [hp]; rfl)) (fun hc => by cases hc) (fun hc => by cases hc) (fun hc => by cases hc)
  case iput =>
    rw [Option.ite_none_right_eq_some, Option.some.injEq] at hs
    obtain ⟨hfree, rfl⟩ := hs
    exact h.move (hlt (by simp [hp])) (htake hfree rfl)
      (fun _ => .inl (by rw [hp]; rfl)) (fun _ => rfl) (fun hc => by cases hc) (fun hc => by cases hc) (fun hc => by cases hc) (fun hc => by cases hc)
  case load =>
    have hlive := h.live (h.users p (by rw [hp]; rfl))
    have hw : wp (do ilockRead ip; return Pc.locked)
        (fun x fs => x = .locked ∧ fs = s.fs.loaded ip) (fun _ => True) s.fs := by
      rw [wp_bind]
      exact wp_ilockRead (hlive.alloc h) ⟨rfl, rfl⟩
    obtain ⟨x, fs, ⟨rfl, rfl⟩, rfl⟩ := run_spec hw hs
    exact h.load hp
  case test =>
    have hw : wp (do return if (← iputTest ip) = some 1 then Pc.free else Pc.release)
        (fun x fs => fs = s.fs ∧ ∃ r, x = (if r = some 1 then .free else .release) ∧
          r = if s.fs.valid ip = true ∧ (s.fs.inode ip).nlink = 0 then some (s.fs.ref ip) else none)
        (fun _ => True) s.fs := by
      simp only [iputTest, wp_bind, wp_get, wp_ite, wp_pure]
      exact ⟨fun hc => ⟨trivial, _, rfl, (if_pos hc).symm⟩, fun hc => ⟨trivial, _, rfl, (if_neg hc).symm⟩⟩
    obtain ⟨x, fs, ⟨rfl, r, rfl, hr⟩, rfl⟩ := run_spec hw hs
    exact h.test hp hC hr
  case free =>
    obtain ⟨t, ht, rfl⟩ := Option.map_eq_some_iff.mp hs
    have hw : wp (do ifree ip; return Pc.release) (fun x fs => x = .release ∧ Good fs ∧
        fs.valid = update s.fs.valid ip false ∧ fs.sb = s.fs.sb ∧ fs.ref = s.fs.ref ∧
        fs.lock = s.fs.lock ∧ (fs.dinode ip).Cleared ∧
        (fs.dinode ip).nlink = (s.fs.inode ip).nlink) (fun _ => True) s.fs := by
      rw [wp_bind]
      exact wp_ifree h.good (h.last p hp).1
        (fun t hg _ hv hsb hr hl _ _ _ hc hn => ⟨rfl, hg, hv, hsb, hr, hl, hc, hn⟩) fun _ _ => trivial
    obtain ⟨x, fs, ⟨rfl, hg, hv, hsb, href, hlock, hc, hn⟩, rfl⟩ := run_spec hw ht
    exact h.free hp hg hv hsb href hlock hc hn
  case release =>
    have hw : wp (do releasesleep ip; return Pc.deref)
        (fun x fs => x = .deref ∧ fs = s.fs.setLock ip none) (fun _ => True) s.fs := ⟨rfl, rfl⟩
    obtain ⟨x, fs, ⟨rfl, rfl⟩, rfl⟩ := run_spec hw hs
    exact h.move (hlt (by simp [hp])) (h.holder.drop injective_id (by rw [hp]; rfl) rfl fun _ hc => by cases hc)
      (fun _ => .inl (by rw [hp]; rfl)) (fun _ => rfl) (fun hc => by cases hc) (fun hc => by cases hc) (fun hc => by cases hc)
      fun _ => .inl (by rw [hp]; rfl)
  case deref =>
    have hw : wp (do iputRef ip; return Pc.idle)
        (fun x fs => x = .idle ∧ fs = s.fs.dropped ip) (fun _ => True) s.fs := ⟨rfl, rfl⟩
    obtain ⟨x, fs, ⟨rfl, rfl⟩, rfl⟩ := run_spec hw hs
    exact h.deref hp

/-- A link count is changed under the lock. -/
theorem Inv.setLinks (h : Inv n ip s) (hp : s.pc p = .locked) (f : Int → Int) {m : FsM Unit}
    (hm : m = do setInode ip fun d => { d with nlink := f d.nlink }; iupdate ip)
    (hs : s.run p (do m; return .locked) = some s') : Inv n ip s' := by
  have hv := h.locked p hp
  have hw : wp (do m; return Pc.locked) (fun x fs => x = s.pc p ∧ Good fs ∧ Frame s.fs fs ∧
      (fs.view ip).type = (s.fs.view ip).type) (fun _ => True) s.fs := by
    rw [wp_bind, hm]
    refine wp_setInode_iupdate (f := fun d => { d with nlink := f d.nlink }) h.good hv
      (fun _ => rfl) (fun _ => rfl) (fun _ => rfl) (fun t ht => ⟨hp.symm, ht.good, ht.frame, ?_⟩) fun _ _ => trivial
    rw [ht.view, update_self, h.good.view_eq hv]
    rfl
  obtain ⟨fs, ⟨hg, hf, ht⟩, rfl⟩ := run_same hw hs
  exact h.work hp hg hf ht

theorem Inv.step (h : Inv n ip s) {a : Act} (hC : Alone n ip s a) (hs : s.step n ip a = some s') :
    Inv n ip s' := by
  cases a <;> simp only [State.step, Option.ite_none_right_eq_some, Option.some.injEq] at hs
  case iget p =>
    obtain ⟨⟨-, hp, hn⟩, hs⟩ := hs
    have hw : wp (do Fs.iget ip; return Pc.idle) (fun x fs => x = s.pc p ∧ fs = s.fs.got ip)
        (fun _ => True) s.fs := by
      rw [wp_bind]
      exact wp_iget ⟨hp.symm, rfl⟩ fun _ _ => trivial
    obtain ⟨fs, rfl, rfl⟩ := run_same hw hs
    exact h.iget hn
  case idup p =>
    obtain ⟨⟨-, hp, hspare⟩, hs⟩ := hs
    have hw : wp (do Fs.idup ip; return Pc.idle) (fun x fs => x = s.pc p ∧
        fs = { s.fs with ref := update s.fs.ref ip (s.fs.ref ip + 1) })
        (fun _ => True) s.fs := ⟨hp.symm, rfl⟩
    obtain ⟨fs, rfl, rfl⟩ := run_same hw hs
    exact h.idup hspare
  case ilock p =>
    obtain ⟨⟨hpn, hp, hspare⟩, hs⟩ := hs
    have hw : wp (do ilockTest ip; return Pc.ilock) (fun x fs => x = .ilock ∧ fs = s.fs)
        (fun _ => True) s.fs := by
      simp only [ilockTest, wp_bind, wp_get, wp_ite, wp_throw, wp_pure, implies_true, and_self]
    obtain ⟨x, fs, ⟨rfl, rfl⟩, rfl⟩ := run_spec hw hs
    have := h.move (x := .ilock) (o := s.fs.lock ip) hpn (h.holder.keep (by rw [hp]; rfl)) (fun hc => by cases hc)
      (by simp [hp, Pc.puts]) (fun _ => .inr hspare) (fun hc => by cases hc) (fun hc => by cases hc) (fun hc => by cases hc)
    rwa [show s.fs.setLock ip (s.fs.lock ip) = s.fs by simp [FileSys.setLock]] at this
  case incLink p => exact h.setLinks hs.1 (fun k => short (k + 1)) rfl hs.2
  case decLink p => exact h.setLinks hs.1 (fun k => short (k - 1)) rfl hs.2
  case writei p src off =>
    obtain ⟨hp, hs⟩ := hs
    have hv := h.locked p hp
    have htype : (s.fs.inode ip).type ≠ T_DEV := by
      rw [(h.good.coherent ip hv).2.1, (h.live (h.users p (by rw [hp]; rfl))).type]
      decide
    have hw : wp (do let _ ← Fs.writei ip src off; return Pc.locked) (fun x fs => x = s.pc p ∧
        Good fs ∧ Frame s.fs fs ∧ (fs.view ip).type = (s.fs.view ip).type) (fun _ => True) s.fs := by
      rw [wp_bind]
      refine wp_writei h.good hv htype (fun _ => ?_) (fun _ _ t ht => ?_) fun _ _ => trivial
      · exact ⟨hp.symm, h.good, Frame.refl _, rfl⟩
      · refine ⟨hp.symm, ht.good, ht.frame, ?_⟩
        rw [ht.view, update_self]
        rfl
    obtain ⟨fs, ⟨hg, hf, ht⟩, rfl⟩ := run_same hw hs
    exact h.work hp hg hf ht
  case iunlock p =>
    obtain ⟨hp, hs⟩ := hs
    have hw : wp (do iunlockCode p ip; return Pc.idle)
        (fun x fs => x = .idle ∧ fs = s.fs.setLock ip none) (fun _ => True) s.fs := by
      simp only [iunlockCode, releasesleep, wp_bind, wp_get, wp_ite, wp_throw, wp_modify, wp_pure,
        implies_true, and_self]
    obtain ⟨x, fs, ⟨rfl, rfl⟩, rfl⟩ := run_spec hw hs
    exact h.move (h.procs p (by simp [hp])) (h.holder.drop injective_id (by rw [hp]; rfl) rfl fun _ hc => by cases hc) (fun hc => by cases hc)
      (by simp [hp, Pc.puts]) (fun hc => by cases hc) (fun hc => by cases hc) (fun hc => by cases hc) (fun hc => by cases hc)
  case iput p =>
    obtain ⟨⟨hpn, hp, hmay⟩, rfl⟩ := hs
    have := h.move (x := .iput) (o := s.fs.lock ip) hpn (h.holder.keep (by rw [hp]; rfl))
      (fun _ => .inr hmay) (fun _ => rfl) (fun hc => by cases hc) (fun hc => by cases hc) (fun hc => by cases hc) (fun hc => by cases hc)
    rwa [show s.fs.setLock ip (s.fs.lock ip) = s.fs by simp [FileSys.setLock]] at this
  case go p => exact h.go hC hs

theorem Reach.inv (h : Reach n ip (Alone n ip) s) : Inv n ip s := by
  induction h with
  | start hu => exact inv_start hu
  | step _ hC hs ih => exact ih.step hC hs
  | other _ hg hsame ih => exact ih.other hg hsame

end

/-! ## 4. Only `itrunc` frees blocks -/

section

variable {b : Nat}

/-- Block `b` is in use. -/
def Marked (b : Nat) (s : FileSys) : Prop := s.bitmap b = true

theorem aloof_marked : Aloof (Marked b) where
  dinode _ hs := hs
  mark {s} c hs := by
    show update s.bitmap c true b = true
    by_cases e : b = c
    · rw [e, update_self]
    · rwa [update_of_ne e]
  data _ hs := hs
  inode _ hs := hs
  cache _ _ _ hs := hs
  lock _ hs := hs
  lh _ hs := hs

end

section

variable {n ip b : Nat} {s s' : State} {p : Pid}

/-- A run of code that frees no block. -/
theorem run_marked {α : Type} {m : FsM α} {f : α → Pc} (hm : Keeps (Marked b) m)
    (hs : s.run p (do return f (← m)) = some s') (hb : s.fs.bitmap b = true) :
    s'.fs.bitmap b = true := by
  have hk : Keeps (Marked b) (do return f (← m)) := hm.bind fun a => Keeps.pure (f a)
  obtain ⟨x, fs, hfs, rfl⟩ := run_spec (hk s.fs hb) hs
  exact hfs

theorem go_marked (hs : s.go ip p = some s') (hp : s.pc p ≠ .free) (hb : s.fs.bitmap b = true) :
    s'.fs.bitmap b = true := by
  cases hpc : s.pc p <;> simp only [State.go, State.take, hpc, reduceCtorEq] at hs
  case free => exact absurd hpc hp
  case ilock | iput =>
    rw [Option.ite_none_right_eq_some, Option.some.injEq] at hs
    obtain ⟨-, rfl⟩ := hs
    exact hb
  case load =>
    exact run_marked (f := fun _ => .locked) (aloof_marked.ilockRead ip) hs hb
  case test =>
    exact run_marked (f := fun r => if r = some 1 then .free else .release) (Aloof.iputTest ip) hs hb
  case release => exact run_marked (f := fun _ => .deref) (aloof_marked.releasesleep ip) hs hb
  case deref => exact run_marked (f := fun _ => .idle) (aloof_marked.iputRef ip) hs hb

/-- A step that frees a block is the truncation in `iput`. -/
theorem step_marked {a : Act} (hs : s.step n ip a = some s') (hb : s.fs.bitmap b = true)
    (hb' : s'.fs.bitmap b = false) : ∃ p, a = .go p ∧ s.pc p = .free := by
  by_contra hne
  refine absurd hb' (Bool.eq_false_iff.not_left.mpr ?_)
  cases a <;> simp only [State.step, Option.ite_none_right_eq_some, Option.some.injEq] at hs
  case iget p => exact run_marked (f := fun _ => .idle) (aloof_marked.iget ip) hs.2 hb
  case idup p => exact run_marked (f := fun _ => .idle) (aloof_marked.idup ip) hs.2 hb
  case ilock p =>
    refine run_marked (f := fun _ => .ilock) (Keeps.get_bind fun t ht => ?_) hs.2 hb
    exact Keeps.ite (Keeps.throw _) (Keeps.pure _) t ht
  case incLink p | decLink p =>
    refine run_marked (f := fun _ => .locked) ?_ hs.2 hb
    exact (aloof_marked.setInode ip _).bind fun _ => aloof_marked.iupdate ip
  case writei p src off => exact run_marked (f := fun _ => .locked) (aloof_marked.writei ip src off) hs.2 hb
  case iunlock p =>
    refine run_marked (f := fun _ => .idle) (Keeps.get_bind fun t ht => ?_) hs.2 hb
    exact Keeps.ite (n := releasesleep ip) (Keeps.throw _) (fun _ ht => ht) t ht
  case iput p => exact hs.2 ▸ hb
  case go p => exact go_marked hs (fun hp => hne ⟨p, rfl, hp⟩) hb

/-! ## 5. The last reference frees the inode -/

/-- **The last reference frees an inode without links**, once, in runs where no `iput` reads the
count between the `releasesleep` and the `ip->ref--` of another; and no block is freed while
there is another reference. -/
theorem last_reference_frees (h : Reach n ip (Alone n ip) s) :
    (s.fs.ref ip = 0 → (s.fs.dinode ip).nlink = 0 → (s.fs.dinode ip).Cleared ∧ s.frees = 1) ∧
    s.frees ≤ 1 ∧
    ∀ a s' b, s.step n ip a = some s' → s.fs.bitmap b = true → s'.fs.bitmap b = false →
      s.fs.ref ip = 1 := by
  have hi := h.inv
  refine ⟨fun href h0 => ?_, ?_, fun a s' b hs hb hb' => ?_⟩
  · rcases hi.fate with hl | hf
    · have := hl.left h0
      omega
    · exact ⟨hf.cleared, hf.frees⟩
  · rcases hi.fate with hl | hf
    · rw [hl.frees]
      exact Nat.zero_le 1
    · rw [hf.frees]
  · obtain ⟨p, -, hp⟩ := step_marked hs hb hb'
    exact (hi.last p hp).2.2

theorem reach_exec {C : State → Act → Prop} [∀ s a, Decidable (C s a)] :
    ∀ {as : List Act} {s s' : State}, Reach n ip C s → exec n ip C s as = some s' → Reach n ip C s'
  | [], _, _, h, he => Option.some.inj he ▸ h
  | a :: as, s, s', h, he => by
    simp only [exec, Option.ite_none_right_eq_some, Option.bind_eq_some_iff] at he
    obtain ⟨hC, s₁, hs, he⟩ := he
    exact reach_exec (h.step hC hs) he

end

/-- The small disk with an empty file, inode 2, inside a transaction. -/
def oneFile : FileSys :=
  { imageFs with
    dinode := update imageFs.dinode 2 ⟨T_FILE, 0, 0, 1, 0, fun _ => 0⟩
    outstanding := 1 }

theorem oneFile_unused : Unused 2 oneFile where
  good := by
    have h := (image_good.newInode (n := 2) (by decide) rfl
      (d := ⟨T_FILE, 0, 0, 1, 0, fun _ => 0⟩) (by decide) rfl rfl []).1
    exact (h.outstanding 1 []).1
  inum := by decide
  type := rfl
  nlink := by decide
  ref := rfl
  lock := rfl

/-- Processes 0 and 1 look the file up; process 0 writes to it and unlinks it. -/
def unlinked : List Act :=
  [.iget 0, .iget 1, .ilock 0, .go 0, .go 0, .writei 0 [7] 0, .decLink 0, .iunlock 0]

/-- One `iput` after the other. -/
def inTurn : List Act := unlinked ++
  [.iput 0, .go 0, .go 0, .go 0, .go 0, .iput 1, .go 1, .go 1, .go 1, .go 1, .go 1]

/-- The second `iput` reads the count before the first has decremented it. -/
def together : List Act := unlinked ++
  [.iput 0, .go 0, .go 0, .go 0, .iput 1, .go 1, .go 1, .go 1, .go 0, .go 1]

/-- The second `iput` frees the inode, and its block. -/
theorem last_reference_frees_inTurn : ∃ s, exec 2 2 (Alone 2 2) ⟨oneFile, fun _ => .idle, 0⟩ inTurn =
    some s ∧ s.fs.ref 2 = 0 ∧ (s.fs.dinode 2).Cleared ∧ s.frees = 1 := by
  have hrun : (exec 2 2 (Alone 2 2) ⟨oneFile, fun _ => .idle, 0⟩ inTurn).any
      (fun s => s.fs.ref 2 = 0 ∧ (s.fs.dinode 2).nlink = 0) = true := by decide +kernel
  obtain ⟨s, hs, hcheck⟩ := (Option.any_eq_true _ _).mp hrun
  obtain ⟨href, h0⟩ := of_decide_eq_true hcheck
  exact ⟨s, hs, href, (last_reference_frees (reach_exec (.start oneFile_unused) hs)).1 href h0⟩

/-- **An inode that nobody frees.**  Both processes read the count 2, neither frees the inode, and
both drop their references.  The inode has no links and no references, and keeps its block. -/
theorem never_freed : ∃ s, Reach 2 2 Any s ∧
    exec 2 2 Any ⟨oneFile, fun _ => .idle, 0⟩ together = some s ∧
    s.fs.ref 2 = 0 ∧ s.fs.valid 2 = true ∧ (s.fs.inode 2).nlink = 0 ∧
    s.pc 0 = .idle ∧ s.pc 1 = .idle ∧ s.frees = 0 ∧
    (s.fs.dinode 2).type = T_FILE ∧ (s.fs.dinode 2).size = 1 ∧ s.fs.bitmap 36 = true := by
  have hrun : (exec 2 2 Any ⟨oneFile, fun _ => .idle, 0⟩ together).any
      (fun s => s.fs.ref 2 = 0 ∧ s.fs.valid 2 = true ∧ (s.fs.inode 2).nlink = 0 ∧
        s.pc 0 = .idle ∧ s.pc 1 = .idle ∧ s.frees = 0 ∧
        (s.fs.dinode 2).type = T_FILE ∧ (s.fs.dinode 2).size = 1 ∧ s.fs.bitmap 36 = true) = true := by
    decide +kernel
  obtain ⟨s, hs, hcheck⟩ := (Option.any_eq_true _ _).mp hrun
  exact ⟨s, reach_exec (.start oneFile_unused) hs, hs, of_decide_eq_true hcheck⟩

end Xv6.Fs.Iput
