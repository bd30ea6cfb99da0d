/-
# Disk changes happen inside the caller's own transaction

One process makes a system call while others change the file system between its steps.  Written
down are its calls of `begin_op`, `end_op`, `log_write` and `iput` (`logWatch`), and an automaton
with two states, outside and inside of a transaction, reads them (`Ev.next`).

Code that neither begins nor ends an operation may do anything inside of a transaction, in any
state; that is most of the code, and `Stays true` is for it.  Outside there are `ilock`, `iunlock`
and the code that only reads (`Stays false`).  What a state is like matters twice: `readi` runs
outside of a transaction in `fileread`, and would allocate the blocks of a hole; and `sys_open`
calls `fileclose` inside of one, for a file that it has just taken from the file table.
-/
import Xv6.Lib.Paths
import Xv6.Fs.Image
import Xv6.Fs.Kept
import Xv6.Fs.Sysfile

namespace Xv6.Fs

open Function (update update_of_ne update_self)

/-! ## 1. What is observed -/

/-- What a process does with the log. -/
inductive Ev
  | beginOp
  | endOp
  | logWrite
  | iput (ip : Nat)
  deriving DecidableEq, Repr

/-- The kernel with another number of operations under way. -/
def Kern.ops (k : Kern) (n : Nat) : Kern := { k with fs := { k.fs with outstanding := n } }

/-- What an atom does with the log, which is found by running it with other numbers of operations.
With none under way it stops at its first `log_write`, if it gets to one, and nothing else stops
like that.  With one under way, `begin_op` makes it two and `end_op` makes it none. -/
def logEvents {β : Type} (m : KM β) (k : Kern) : List Ev :=
  match m (k.ops 0) with
  | .error .tooBig => [.logWrite]
  | .error .outsideOfTrans => [.logWrite]
  | _ =>
    match m (k.ops 1) with
    | .error _ => []
    | .ok (_, k') =>
      if k'.fs.outstanding = 2 then [.beginOp] else if k'.fs.outstanding = 0 then [.endOp] else []

/-- The observer.  A call of `iput` is seen where it calls `acquiresleep`. -/
def logWatch : Watch Kern Panic Want Ev where
  acquire w := if w.site = .iput then [.iput w.ip] else []
  atom m k := logEvents m k

/-- Outside (`false`) and inside (`true`) of a transaction. -/
def Ev.next : Bool → Ev → Option Bool
  | false, .beginOp => some true
  | true, .endOp => some false
  | true, .logWrite => some true
  | true, .iput _ => some true
  | _, _ => none

/-- **No file has a hole**: every block index below `ceil(size/BSIZE)` is allocated. -/
def FileSys.NoHoles (s : FileSys) : Prop :=
  ∀ i, s.valid i = true ∨ i < s.sb.ninodes → ∀ bn, bn < nblk (s.cur i).size →
    blockOf s.data (s.cur i) bn ≠ 0

/-- **What others do** between two steps of process `p`.  They leave alone the inodes it has
locked, and make no holes.  The file table and the descriptors are read by a call but a few times,
and are taken to be as the call finds them. -/
structure Others (p : Pid) (k k' : Kern) : Prop where
  ftable : k'.ftable = k.ftable
  proc : k'.proc = k.proc
  noHoles : k.fs.NoHoles → k'.fs.NoHoles
  locked : ∀ i, k.fs.lock i = some p → k'.fs.lock i = some p ∧ k'.fs.valid i = k.fs.valid i ∧
    k'.fs.inode i = k.fs.inode i

theorem interference_others (p : Pid) : Prog.Interference (Others p) where
  refl k := ⟨rfl, rfl, fun h => h, fun i hi => ⟨hi, rfl, rfl⟩⟩
  trans k k' k'' h h' :=
    ⟨h'.ftable.trans h.ftable, h'.proc.trans h.proc, fun hn => h'.noHoles (h.noHoles hn),
      fun i hi => by
        obtain ⟨h₁, h₂, h₃⟩ := h.locked i hi
        obtain ⟨h₁', h₂', h₃'⟩ := h'.locked i h₁
        exact ⟨h₁', h₂'.trans h₂, h₃'.trans h₃⟩⟩

/-- The calls that may change the disk, or read it. -/
inductive DiskCall
  | path (call : PathCall)
  | sysRead (args : Option (Nat × Nat))
  | sysWrite (args : Option (Nat × List UInt8))
  | sysClose (fd : Nat)
  | sysFstat (args : Option Nat)
  | sysGetfsinfo (arg : Bool)
  | exit

/-- The code of a call by process `p`. -/
def DiskCall.prog (io : PipeIo) (p : Pid) : DiskCall → KProg Int
  | .path call => call.prog p
  | .sysRead args => do return (← Fs.sysRead io p args).1
  | .sysWrite args => Fs.sysWrite io p args
  | .sysClose fd => Fs.sysClose p fd
  | .sysFstat args => do return if (← Fs.sysFstat p args).isSome then 0 else -1
  | .sysGetfsinfo arg => do return if (← Fs.sysGetfsinfo arg).isSome then 0 else -1
  | .exit => Fs.exit p

/-! ## 2. Atoms -/

section

variable {α : Type} {b : Bool} {k : Kern}

theorem logEvents_beginOp : logEvents (onFs beginOp) k = [.beginOp] := rfl

theorem logEvents_endOp : logEvents (onFs endOp) k = [.endOp] := rfl

/-- A stop in `log_write`. -/
def IsLogStop (e : Panic) : Prop := e = .tooBig ∨ e = .outsideOfTrans

/-- Code that does not log. -/
theorem logEvents_nil {m : KM α}
    (h : ∀ n, wp m (fun _ k' => k'.fs.outstanding = n) (fun e => ¬ IsLogStop e) (k.ops n)) :
    logEvents m k = [] := by
  have h1 := h 1
  unfold logEvents
  split
  next he => exact (wp_of_error (E := fun e => ¬ IsLogStop e) (h 0) he (.inl rfl)).elim
  next he => exact (wp_of_error (E := fun e => ¬ IsLogStop e) (h 0) he (.inr rfl)).elim
  next =>
    split
    next => rfl
    next he =>
      have hone := wp_of_ok (Q := fun _ k' => k'.fs.outstanding = 1) h1 he
      rw [hone]
      rfl

/-- Code that neither begins nor ends an operation is good inside of a transaction. -/
theorem accept_inside {m : KM α} (h : Keeps (fun k => k.fs.outstanding = 1) m) :
    accept Ev.next true (logEvents m k) = some true := by
  have h1 := h (k.ops 1) rfl
  unfold logEvents
  split
  · rfl
  · rfl
  · split
    · rfl
    next he =>
      have hone := wp_of_ok (Q := fun _ k' => k'.fs.outstanding = 1) h1 he
      rw [hone]
      rfl

/-- The code of the file system neither begins nor ends an operation. -/
theorem aloof_outstanding (n : Nat) : Aloof fun s => s.outstanding = n where
  dinode _ hs := hs
  mark _ hs := hs
  data _ hs := hs
  inode _ hs := hs
  cache _ _ _ hs := hs
  lock _ hs := hs
  lh _ hs := hs

theorem free_outstanding (n : Nat) : Aloof.Free fun s => s.outstanding = n := fun _ _ hs => hs

end

/-! ## 3. The judgment -/

/-- From outside or inside of a transaction, and from the file table `T`, the program goes only
where the automaton does, and ends with `Q`. -/
def Runs {α : Type} (p : Pid) (x : KProg α) (b : Bool) (T : Ftable) (Q : α → Bool → Ftable → Prop) :
    Prop :=
  ∀ k : Kern, k.ftable = T →
    x.Follows (Others p) logWatch Ev.next p b (fun a b' k' => Q a b' k'.ftable) k

/-- The program begins and ends no operation, and leaves the file table alone. -/
def Stays {α : Type} (p : Pid) (b : Bool) (x : KProg α) : Prop :=
  ∀ T, Runs p x b T fun _ b' T' => b' = b ∧ T' = T

section

variable {α β : Type} {p : Pid} {b : Bool} {T : Ftable} {Q : α → Bool → Ftable → Prop}

namespace Runs

theorem ret {a : α} (h : Q a b T) : Runs p (.ret a) b T Q := by
  rintro k rfl k' hk
  show Q a b k'.ftable
  rw [hk.ftable]
  exact h

theorem bind {x : KProg β} {f : β → KProg α}
    (h : Runs p x b T fun a b' T' => Runs p (f a) b' T' Q) : Runs p (x.bind f) b T Q := by
  intro k hk
  exact .bind (interference_others p) ((h k hk).mono fun a b' k' hf => hf k' rfl)

theorem mono {Q' : α → Bool → Ftable → Prop} {x : KProg α} (h : Runs p x b T Q)
    (hQ : ∀ a b' T', Q a b' T' → Q' a b' T') : Runs p x b T Q' :=
  fun k hk => (h k hk).mono fun a b' k' => hQ a b' k'.ftable

theorem ite {c : Prop} [Decidable c] {x y : KProg α} (hx : c → Runs p x b T Q)
    (hy : ¬ c → Runs p y b T Q) : Runs p (if c then x else y) b T Q :=
  fun k hk => .ite (fun hc => hx hc k hk) fun hc => hy hc k hk

/-- An atom, which may change the file table. -/
theorem lift {m : KM α} {d : Bool}
    (hacc : ∀ k, accept Ev.next b (logEvents m k) = some d)
    (h : ∀ k : Kern, k.ftable = T → wp m (fun a k' => Q a d k'.ftable) (fun _ => True) k) :
    Runs p (Prog.lift m) b T Q := by
  rintro k rfl
  refine .lift fun k₁ hk₁ => ⟨d, hacc k₁, wp_conseq (h k₁ hk₁.ftable) fun a k₂ hQ k₃ hk₃ => ?_⟩
  show Q a d k₃.ftable
  rw [hk₃.ftable]
  exact hQ

/-- An atom that does not log. -/
theorem silent {m : KM α}
    (hm : ∀ k : Kern, wp m (fun _ k' => k'.fs.outstanding = k.fs.outstanding)
      (fun e => ¬ IsLogStop e) k)
    (h : ∀ k : Kern, k.ftable = T → wp m (fun a k' => Q a b k'.ftable) (fun _ => True) k) :
    Runs p (Prog.lift m) b T Q := by
  refine lift (d := b) (fun k => ?_) h
  rw [logEvents_nil fun n => hm (k.ops n)]
  rfl

/-- File system code leaves the file table alone. -/
theorem atomic {m : FsM α} {b' : Bool} (hacc : ∀ k, accept Ev.next b (logEvents (onFs m) k) = some b')
    (h : ∀ a, Q a b' T) : Runs p (Fs.atomic m) b T Q := by
  refine lift hacc ?_
  rintro k rfl
  rw [wp_onFs]
  unfold wp
  split
  · exact h _
  · trivial

theorem beginOp {Q : Unit → Bool → Ftable → Prop} (h : Q () true T) :
    Runs p (Fs.atomic Fs.beginOp) false T Q :=
  atomic (fun k => by rw [logEvents_beginOp]; rfl) fun _ => h

theorem endOp {Q : Unit → Bool → Ftable → Prop} (h : Q () false T) :
    Runs p (Fs.atomic Fs.endOp) true T Q :=
  atomic (fun k => by rw [logEvents_endOp]; rfl) fun _ => h

end Runs

namespace Stays

/-- How the judgment is used. -/
theorem runs {x : KProg α} (h : Stays p b x) (hQ : ∀ a, Q a b T) : Runs p x b T Q :=
  (h T).mono fun a _ _ hQ' => by
    obtain ⟨rfl, rfl⟩ := hQ'
    exact hQ a

theorem ret (a : α) : Stays p b (.ret a) := fun _ => Runs.ret ⟨rfl, rfl⟩

theorem bind {x : KProg β} {f : β → KProg α} (hx : Stays p b x) (hf : ∀ a, Stays p b (f a)) :
    Stays p b (x.bind f) := fun T => Runs.bind (hx.runs fun a => hf a T)

theorem ite {c : Prop} [Decidable c] {x y : KProg α} (hx : Stays p b x) (hy : Stays p b y) :
    Stays p b (if c then x else y) := fun T => Runs.ite (fun _ => hx T) fun _ => hy T

/-- File system code inside of a transaction. -/
theorem inside {m : FsM α} (h : Keeps (fun s => s.outstanding = 1) m) : Stays p true (atomic m) :=
  fun _ => Runs.atomic (fun _ => accept_inside fun _ hk => (wp_onFs ..).mpr (h _ hk)) fun _ =>
    ⟨rfl, rfl⟩

/-- An atom that does not log, and leaves the file table alone. -/
theorem lift {m : KM α}
    (h : ∀ k : Kern, wp m (fun _ k' => k'.fs.outstanding = k.fs.outstanding ∧ k'.ftable = k.ftable)
      (fun e => ¬ IsLogStop e) k) : Stays p b (Prog.lift m) := by
  refine fun T => Runs.silent (fun k => wp_conseq (h k) fun _ _ hk => hk.1) ?_
  rintro k rfl
  exact wp_mono (h k) (fun _ _ hk => ⟨rfl, hk.2⟩) fun _ _ => trivial

/-- File system code that does not log. -/
theorem atomic {m : FsM α} (h : ∀ s : FileSys, wp m (fun _ s' => s'.outstanding = s.outstanding)
    (fun e => ¬ IsLogStop e) s) : Stays p b (Fs.atomic m) :=
  lift fun k => (wp_onFs ..).mpr (wp_conseq (h k.fs) fun _ _ hs => ⟨hs, rfl⟩)

/-- The wait of `ilock`. -/
theorem lock_ilock (ip : Nat) : Stays p b (Prog.lock ⟨.ilock, ip⟩ : KProg Unit) := by
  rintro _ k rfl
  refine ⟨b, rfl, fun k₁ hk₁ _ k₂ hk₂ => ⟨rfl, ?_⟩⟩
  exact hk₂.ftable.trans hk₁.ftable

/-- The wait of `iput`. -/
theorem lock_iput (ip : Nat) : Stays p true (Prog.lock ⟨.iput, ip⟩ : KProg Unit) := by
  rintro _ k rfl
  refine ⟨true, rfl, fun k₁ hk₁ _ k₂ hk₂ => ⟨rfl, ?_⟩⟩
  exact hk₂.ftable.trans hk₁.ftable

end Stays

end

/-! ## 4. Code that begins and ends no operation -/

section

variable {p : Pid} {b : Bool}

theorem stays_ilock (ip : Nat) : Stays p b (ilock ip) := by
  refine Stays.bind (.atomic fun s => ?_) fun _ => (Stays.lock_ilock ip).bind fun _ =>
    .atomic fun s => ?_
  · simp only [wp_bind, wp_get, wp_ite, wp_throw, wp_pure]
    exact ⟨fun _ => by simp [IsLogStop], fun _ => trivial⟩
  · simp only [ilockRead, wp_bind, wp_get, wp_ite, wp_throw, wp_set, wp_pure]
    exact ⟨fun _ => ⟨fun _ => by simp [IsLogStop], fun _ => ⟨fun _ => by simp [IsLogStop],
      fun _ => trivial⟩⟩, fun _ => trivial⟩

theorem stays_iunlock (ip : Nat) : Stays p b (iunlock p ip) := by
  refine .atomic fun s => ?_
  simp only [releasesleep, wp_bind, wp_get, wp_ite, wp_throw, wp_modify]
  exact ⟨fun _ => by simp [IsLogStop], fun _ => rfl⟩

theorem stays_iput (ip : Nat) : Stays p true (iput ip) := by
  have h := aloof_outstanding 1
  refine (Stays.lock_iput ip).bind fun _ => (Stays.inside (Aloof.iputTest ip)).bind fun r => ?_
  have hend : Stays p true (do
      atomic (releasesleep ip)
      atomic (iputRef ip)) :=
    (Stays.inside (h.releasesleep ip)).bind fun _ => Stays.inside (h.iputRef ip)
  exact Stays.ite ((Stays.inside (h.ifree (free_outstanding 1) ip)).bind fun _ => hend) hend

theorem stays_iunlockput (ip : Nat) : Stays p true (iunlockput p ip) :=
  (stays_iunlock ip).bind fun _ => stays_iput ip

theorem stays_itype (ip : Nat) : Stays p b (atomic (itype ip)) := .atomic fun _ => rfl

theorem stays_dirlookup (dp : Nat) (name : List UInt8) : Stays p true (atomic (dirlookup dp name)) :=
  .inside ((aloof_outstanding 1).dirlookup dp name)

theorem stays_dirlink (dp : Nat) (name : List UInt8) (inum : Nat) :
    Stays p true (dirlink dp name inum) := by
  refine (stays_dirlookup dp name).bind fun r => ?_
  cases r with
  | some e => exact (stays_iput e.1).bind fun _ => .ret _
  | none =>
    exact (Stays.inside ((aloof_outstanding 1).dirlinkWrite dp name inum)).bind fun _ => .ret _

theorem stays_namexLoop (parent : Bool) : ∀ fuel ip path,
    Stays p true (namexLoop p parent fuel ip path)
  | 0, _, _ => .ret _
  | fuel + 1, ip, path => by
    unfold namexLoop
    cases skipelem path with
    | none => exact .ite ((stays_iput ip).bind fun _ => .ret _) (.ret _)
    | some e =>
      have hfail : Stays p true (do iunlockput p ip; return (none : Option (Nat × List UInt8))) :=
        (stays_iunlockput ip).bind fun _ => .ret _
      refine (stays_ilock ip).bind fun _ => (stays_itype ip).bind fun t => ?_
      refine .ite hfail (.ite ((stays_iunlock ip).bind fun _ => .ret _) ?_)
      refine (stays_dirlookup ip e.1).bind fun r => ?_
      cases r with
      | none => exact hfail
      | some q => exact (stays_iunlockput ip).bind fun _ => stays_namexLoop parent fuel q.1 e.2

theorem stays_getCwd : Stays p b (Prog.lift (getCwd p)) := .lift fun _ => ⟨rfl, rfl⟩

theorem stays_namexStart (path : List UInt8) : Stays p b (Prog.lift (namexStart p path)) := by
  refine .lift fun k => ?_
  simp only [namexStart, getCwd, iget, idup, wp_ite, wp_bind, wp_onFs, wp_get, wp_set, wp_throw,
    wp_modify, wp_pure]
  exact ⟨fun _ => ⟨fun _ => ⟨trivial, trivial⟩, fun _ => ⟨fun _ => by simp [IsLogStop], fun _ =>
    ⟨trivial, trivial⟩⟩⟩, fun _ => ⟨trivial, trivial⟩⟩

theorem stays_namex (path : List UInt8) (parent : Bool) : Stays p true (namex p path parent) :=
  (stays_namexStart path).bind fun ip => stays_namexLoop parent _ ip path

theorem stays_namei (path : List UInt8) : Stays p true (namei p path) :=
  (stays_namex path false).bind fun _ => .ret _

theorem stays_createParent (path : List UInt8) : Stays p true (createParent p path) := by
  refine (stays_namex path true).bind fun r => ?_
  cases r with
  | none => exact .ret _
  | some e => exact (stays_ilock e.1).bind fun _ => .ret _

theorem stays_dirlinkOr (err : Panic) (dp : Nat) (name : List UInt8) (inum : Nat) :
    Stays p true (dirlinkOr err dp name inum) :=
  (stays_dirlink dp name inum).bind fun _ => .ite (.inside (Keeps.throw err)) (.ret _)

theorem stays_createFill (dp : Nat) (name : List UInt8) (type major minor : Int) (ip : Nat) :
    Stays p true (createFill dp name type major minor ip) := by
  have h := aloof_outstanding 1
  have hlink := stays_dirlinkOr (p := p) .createDirlink dp name ip
  refine (stays_ilock ip).bind fun _ => (Stays.inside (h.createInit ip major minor)).bind fun _ => ?_
  refine .ite ?_ hlink
  refine (Stays.inside (h.incLink dp)).bind fun _ => (stays_dirlinkOr _ ip dot ip).bind fun _ => ?_
  exact (stays_dirlinkOr _ ip dotdot dp).bind fun _ => hlink

theorem stays_create (path : List UInt8) (type major minor : Int) :
    Stays p true (create p path type major minor) := by
  refine (stays_createParent path).bind fun r => ?_
  cases r with
  | none => exact .ret _
  | some e =>
    refine (stays_dirlookup e.1 e.2).bind fun r => ?_
    cases r with
    | none =>
      refine (Stays.inside ((aloof_outstanding 1).ialloc type)).bind fun ip => ?_
      refine (stays_createFill e.1 e.2 type major minor ip).bind fun _ => ?_
      exact (stays_iunlockput e.1).bind fun _ => .ret _
    | some q =>
      refine (stays_iunlockput e.1).bind fun _ => (stays_ilock q.1).bind fun _ => ?_
      refine (stays_itype q.1).bind fun t => .ite (.ret _) ?_
      exact (stays_iunlockput q.1).bind fun _ => .ret _

theorem stays_openInode (path : List UInt8) (omode : Nat) : Stays p true (openInode p path omode) := by
  refine .ite (stays_create path T_FILE 0 0) ((stays_namei path).bind fun r => ?_)
  cases r with
  | none => exact .ret _
  | some ip =>
    refine (stays_ilock ip).bind fun _ => (stays_itype ip).bind fun t => .ite ?_ (.ret _)
    exact (stays_iunlockput ip).bind fun _ => .ret _

theorem stays_chdirInode (path : List UInt8) : Stays p true (chdirInode p path) := by
  refine (stays_namei path).bind fun r => ?_
  cases r with
  | none => exact .ret _
  | some ip =>
    refine (stays_ilock ip).bind fun _ => (stays_itype ip).bind fun t => .ite ?_ ?_
    · exact (stays_iunlockput ip).bind fun _ => .ret _
    · exact (stays_iunlock ip).bind fun _ => .ret _

theorem stays_iputCwd : Stays p true (iputCwd p) := stays_getCwd.bind fun cwd => stays_iput cwd

theorem stays_getOfile (fd : Nat) : Stays p b (Prog.lift (getOfile p fd)) := .lift fun _ => ⟨rfl, rfl⟩

theorem stays_argfd (fd : Nat) : Stays p b (Prog.lift (argfd p fd)) := by
  unfold argfd
  split
  · exact stays_getOfile fd
  · exact .lift fun _ => ⟨rfl, rfl⟩

theorem stays_setOfile (fd : Nat) (o : Option Nat) : Stays p b (Prog.lift (setOfile p fd o)) :=
  .lift fun _ => ⟨rfl, rfl⟩

theorem stays_setCwd (i : Option Nat) : Stays p b (Prog.lift (setCwd p i)) := .lift fun _ => ⟨rfl, rfl⟩

theorem stays_fdalloc (f : Nat) : Stays p b (Prog.lift (fdalloc p f)) := by
  refine .lift fun k => ?_
  simp only [fdalloc, wp_bind, wp_get]
  split
  · exact ⟨rfl, rfl⟩
  · exact ⟨rfl, rfl⟩

theorem stays_getFile (f : Nat) : Stays p b (Prog.lift (getFile f)) := .lift fun _ => ⟨rfl, rfl⟩

end

/-! ## 5. The calls -/

/-- A free entry of the file table is of no type. -/
def Ftable.Ok (T : Ftable) : Prop := ∀ f, (T f).ref = 0 → (T f).type = .none

/-- Outside of a transaction, with the file table in order. -/
def Outside (b : Bool) (T : Ftable) : Prop := b = false ∧ T.Ok

section

variable {α : Type} {p : Pid} {b : Bool} {T : Ftable} {f : Nat}

/-- Another entry. -/
theorem Ftable.Ok.update (h : T.Ok) {file : OFile} (hf : file.ref = 0 → file.type = .none) :
    Ftable.Ok (update T f file) := by
  intro g hg
  rcases eq_or_ne g f with rfl | hne
  · rw [update_self] at hg ⊢
    exact hf hg
  · rw [update_of_ne hne] at hg ⊢
    exact h g hg

theorem runs_filecloseRef (h : T.Ok) : Runs p (Prog.lift (filecloseRef f)) b T
    fun r b' T' => b' = b ∧ T'.Ok ∧ ∀ ff, r = some ff → ff = T f := by
  refine Runs.silent (fun k => ?_) ?_
  · simp only [filecloseRef, wp_bind, wp_get, wp_ite, wp_throw, wp_set, wp_pure]
    exact ⟨fun _ => by simp [IsLogStop], fun _ => ⟨fun _ => rfl, fun _ => rfl⟩⟩
  · rintro k rfl
    simp only [filecloseRef, wp_bind, wp_get, wp_ite, wp_throw, wp_set, wp_pure]
    refine ⟨fun _ => trivial, fun _ => ⟨fun hmore => ⟨trivial, h.update fun h0 => ?_, fun _ hc => by cases hc⟩, fun _ =>
      ⟨trivial, h.update fun _ => rfl, fun ff e => (Option.some.inj e).symm⟩⟩⟩
    exact absurd h0 (by simp only [OFile.setRef]; omega)

/-- `fileclose` is a transaction of its own. -/
theorem runs_fileclose (h : T.Ok) : Runs p (fileclose f) false T fun _ => Outside := by
  refine Runs.bind ((runs_filecloseRef h).mono fun r b T' ⟨hb, hT', _⟩ => ?_)
  subst hb
  cases r with
  | none => exact .ret ⟨rfl, hT'⟩
  | some ff =>
    refine .ite (fun _ => ?_) fun _ => .ret ⟨rfl, hT'⟩
    exact .bind (.beginOp (.bind ((stays_iput _).runs fun _ => .endOp ⟨rfl, hT'⟩)))

/-- But not for a file that has no inode yet. -/
theorem runs_fileclose_none (h : T.Ok) (hf : (T f).type = .none) :
    Runs p (fileclose f) b T fun _ b' T' => b' = b ∧ T'.Ok := by
  refine Runs.bind ((runs_filecloseRef h).mono fun r b T' ⟨hb, hT', hff⟩ => ?_)
  subst hb
  cases r with
  | none => exact .ret ⟨rfl, hT'⟩
  | some ff =>
    rw [hff ff rfl]
    exact .ite (fun hc => absurd (hf.symm.trans hc) nofun) fun _ => .ret ⟨rfl, hT'⟩

theorem runs_sysClose (h : T.Ok) (fd : Nat) : Runs p (sysClose p fd) false T fun _ => Outside := by
  refine .bind ((stays_argfd fd).runs fun r => ?_)
  cases r with
  | none => exact .ret ⟨rfl, h⟩
  | some f =>
    refine .bind ((stays_setOfile fd none).runs fun _ => .bind ((runs_fileclose h).mono ?_))
    exact fun _ _ _ hout => .ret hout

theorem runs_closeAll : ∀ (fds : List Nat) {T : Ftable}, T.Ok →
    Runs p (closeAll p fds) false T fun _ => Outside
  | [], _, h => .ret ⟨rfl, h⟩
  | fd :: fds, _, h => by
    refine .bind ((stays_getOfile fd).runs fun r => ?_)
    cases r with
    | none => exact runs_closeAll fds h
    | some f =>
      refine .bind ((runs_fileclose h).mono fun _ b T' hout => ?_)
      obtain ⟨rfl, hT'⟩ := hout
      exact .bind ((stays_setOfile fd none).runs fun _ => runs_closeAll fds hT')

theorem runs_exit (h : T.Ok) : Runs p (exit p) false T fun _ => Outside := by
  have hrest : Runs p (do
      closeAll p (List.range NOFILE)
      atomic beginOp
      iputCwd p
      atomic endOp
      Prog.lift (setCwd p none)
      return (0 : Int)) false T fun _ => Outside := by
    refine .bind ((runs_closeAll _ h).mono fun _ b T' hout => ?_)
    obtain ⟨rfl, hT'⟩ := hout
    refine .bind (.beginOp (.bind (stays_iputCwd.runs fun _ => .bind (.endOp ?_))))
    exact .bind ((stays_setCwd none).runs fun _ => .ret ⟨rfl, hT'⟩)
  refine .ite (fun _ => .bind (Stays.runs (.atomic fun s => ?_) fun _ => hrest)) fun _ => hrest
  simp [IsLogStop]

/-- The end of a call that has nothing more to do. -/
theorem runs_endOp (h : T.Ok) (a : α) :
    Runs p (do atomic endOp; return a) true T fun _ => Outside :=
  .bind (.endOp (.ret ⟨rfl, h⟩))

theorem runs_sysLink (h : T.Ok) (args : Option (List UInt8 × List UInt8)) :
    Runs p (sysLink p args) false T fun _ => Outside := by
  have haloof := aloof_outstanding 1
  cases args with
  | none => exact .ret ⟨rfl, h⟩
  | some args =>
    have hbad : ∀ ip, Runs p (linkBad p ip) true T fun _ => Outside := fun ip => by
      refine .bind ((stays_ilock ip).runs fun _ => .bind ((Stays.inside (haloof.decLink ip)).runs
        fun _ => ?_))
      exact .bind ((stays_iunlockput ip).runs fun _ => runs_endOp h _)
    refine .bind (.bind (.bind (.beginOp (.bind ((stays_namei args.1).runs fun r => ?_)))))
    cases r with
    | none => exact .bind (.endOp (.ret (.ret (.ret ⟨rfl, h⟩))))
    | some ip =>
      refine .bind ((stays_ilock ip).runs fun _ => .bind ((stays_itype ip).runs fun t => ?_))
      refine .ite (fun _ => ?_) fun _ => .ret ?_
      · exact .bind ((stays_iunlockput ip).runs fun _ => .bind (.endOp (.ret (.ret (.ret ⟨rfl, h⟩)))))
      · refine .bind ((Stays.inside (haloof.incLink ip)).runs fun _ => ?_)
        refine .bind ((stays_iunlock ip).runs fun _ => .bind ((stays_namex args.2 true).runs
          fun r => ?_))
        cases r with
        | none => exact .ret (hbad ip)
        | some e =>
          refine .bind ((stays_ilock e.1).runs fun _ => .ret ?_)
          refine .bind ((stays_dirlink e.1 e.2 ip).runs fun r => .ite (fun _ => ?_) fun _ => ?_)
          · exact .bind ((stays_iunlockput e.1).runs fun _ => hbad ip)
          · refine .bind ((stays_iunlockput e.1).runs fun _ => ?_)
            exact .bind ((stays_iput ip).runs fun _ => runs_endOp h _)

theorem runs_sysUnlink (h : T.Ok) (path : Option (List UInt8)) :
    Runs p (sysUnlink p path) false T fun _ => Outside := by
  have haloof := aloof_outstanding 1
  cases path with
  | none => exact .ret ⟨rfl, h⟩
  | some path =>
    have hbad : ∀ dp, Runs p (unlinkBad p dp) true T fun _ => Outside := fun dp =>
      .bind ((stays_iunlockput dp).runs fun _ => runs_endOp h _)
    refine .bind (.bind (.beginOp (.bind ((stays_namex path true).runs fun r => ?_))))
    cases r with
    | none => exact .bind (.endOp (.ret (.ret ⟨rfl, h⟩)))
    | some e =>
      obtain ⟨dp, name⟩ := e
      refine .bind ((stays_ilock dp).runs fun _ => .ret ?_)
      refine .ite (fun _ => hbad dp) fun _ => .bind ((stays_dirlookup dp name).runs fun r => ?_)
      cases r with
      | none => exact hbad dp
      | some q =>
        obtain ⟨ip, off⟩ := q
        refine .bind ((stays_ilock ip).runs fun _ => .bind ((Stays.inside
          (haloof.unlinkRefused ip)).runs fun r => .ite (fun _ => ?_) fun _ => ?_))
        · exact .bind ((stays_iunlockput ip).runs fun _ => hbad dp)
        · refine .bind ((Stays.inside (haloof.unlinkEntry dp ip off)).runs fun _ => ?_)
          refine .bind ((stays_iunlockput dp).runs fun _ => .bind ((Stays.inside
            (haloof.decLink ip)).runs fun _ => ?_))
          exact .bind ((stays_iunlockput ip).runs fun _ => runs_endOp h _)

theorem runs_openFile (h : T.Ok) (ip omode : Nat) :
    Runs p (openFile p ip omode) true T fun _ => Outside := by
  have hfull : ∀ {T : Ftable}, T.Ok → Runs p (openFull p ip) true T fun _ => Outside := fun hT =>
    .bind ((stays_iunlockput ip).runs fun _ => runs_endOp hT _)
  refine .bind (Runs.silent (fun k => ?_) ?_)
  · simp only [filealloc, wp_bind, wp_get]
    split <;> exact rfl
  · rintro k rfl
    simp only [filealloc, wp_bind, wp_get]
    split
    next => exact hfull h
    next f hf =>
      have hfree : (k.ftable f).ref = 0 := by simpa using List.find?_some hf
      let file := (k.ftable f).setRef 1
      have hT : Ftable.Ok (update k.ftable f file) := h.update fun hc => by cases hc
      refine .bind ((stays_fdalloc f).runs fun r => ?_)
      cases r with
      | none =>
        -- the file is of no type, so that this is no second transaction
        have hnone : (update k.ftable f file f).type = .none := by
          rw [update_self]
          exact h f hfree
        refine .bind ((runs_fileclose_none hT hnone).mono fun _ b T' hout => ?_)
        obtain ⟨rfl, hT'⟩ := hout
        exact hfull hT'
      | some fd =>
        refine .bind ((stays_iunlock ip).runs fun _ => .bind (.endOp (.bind ?_)))
        refine Runs.silent (fun k => rfl) fun k' hk' => .ret ⟨rfl, ?_⟩
        show Ftable.Ok (update k'.ftable f ((k'.ftable f).opened ip omode))
        have hone : (k'.ftable f).ref = 1 := by
          rw [hk']
          exact congrArg OFile.ref (update_self f file k.ftable)
        rw [hk'] at hone ⊢
        exact hT.update fun hc => absurd (hone.symm.trans hc) (by decide)

theorem runs_sysOpen (h : T.Ok) (args : Option (List UInt8 × Nat)) :
    Runs p (sysOpen p args) false T fun _ => Outside := by
  cases args with
  | none => exact .ret ⟨rfl, h⟩
  | some args =>
    refine .bind (.beginOp (.bind ((stays_openInode args.1 args.2).runs fun r => ?_)))
    cases r with
    | none => exact runs_endOp h _
    | some ip => exact runs_openFile h ip args.2

theorem runs_sysCreate (h : T.Ok) (path : Option (List UInt8)) (type major minor : Int) :
    Runs p (sysCreate p path type major minor) false T fun _ => Outside := by
  refine .bind (.beginOp ?_)
  cases path with
  | none => exact runs_endOp h _
  | some path =>
    refine .bind ((stays_create path type major minor).runs fun r => ?_)
    cases r with
    | none => exact runs_endOp h _
    | some ip => exact .bind ((stays_iunlockput ip).runs fun _ => runs_endOp h _)

theorem runs_sysChdir (h : T.Ok) (path : Option (List UInt8)) :
    Runs p (sysChdir p path) false T fun _ => Outside := by
  refine .bind (.beginOp ?_)
  cases path with
  | none => exact runs_endOp h _
  | some path =>
    refine .bind ((stays_chdirInode path).runs fun r => ?_)
    cases r with
    | none => exact runs_endOp h _
    | some ip =>
      refine .bind (stays_iputCwd.runs fun _ => .bind (.endOp ?_))
      exact .bind ((stays_setCwd _).runs fun _ => .ret ⟨rfl, h⟩)

theorem runs_exec (h : T.Ok) (path : List UInt8) (mem : ExecMem) :
    Runs p (exec p path mem) false T fun _ => Outside := by
  refine .bind (.beginOp (.bind ((stays_namei path).runs fun r => ?_)))
  cases r with
  | none => exact runs_endOp h _
  | some ip =>
    refine .bind ((stays_ilock ip).runs fun _ => .bind ((Stays.inside
      ((aloof_outstanding 1).execLoad ip mem)).runs fun ok => ?_))
    exact .bind ((stays_iunlockput ip).runs fun _ => runs_endOp h _)

theorem runs_path (h : T.Ok) (call : PathCall) : Runs p (call.prog p) false T fun _ => Outside := by
  match call with
  | .sysLink args => exact runs_sysLink h args
  | .sysUnlink path => exact runs_sysUnlink h path
  | .sysOpen args => exact runs_sysOpen h args
  | .sysMkdir path => exact runs_sysCreate h path T_DIR 0 0
  | .sysMknod none => exact runs_sysCreate h none T_DEV 0 0
  | .sysMknod (some args) => exact runs_sysCreate h (some args.1) T_DEV _ _
  | .sysChdir path => exact runs_sysChdir h path
  | .exec path mem => exact runs_exec h path mem

/-! ## 6. Reading and writing -/

theorem wp_fileWritei_keeps (src : List UInt8) (k : Kern) : wp (fileWritei f src)
    (fun _ k' => k'.fs.outstanding = k.fs.outstanding ∧ (Ftable.Ok k.ftable → Ftable.Ok k'.ftable))
    (fun _ => True) k := by
  simp only [fileWritei, getFile, wp_bind, wp_get, wp_pure, wp_onFs]
  refine wp_conseq ((aloof_outstanding k.fs.outstanding).writei _ _ _ _ rfl) fun r s hs => ?_
  simp only [wp_ite, wp_bind, wp_modify, wp_pure]
  exact ⟨fun _ => ⟨hs, fun h => h.update (h f)⟩, fun _ => ⟨hs, fun h => h⟩⟩

theorem runs_filewriteLoop (ip : Nat) : ∀ (fuel : Nat) (src : List UInt8) {T : Ftable}, T.Ok →
    Runs p (filewriteLoop p f ip fuel src) false T fun _ => Outside
  | 0, _, _, h => .ret ⟨rfl, h⟩
  | fuel + 1, src, T, h => by
    unfold filewriteLoop
    refine .ite (fun _ => .ret ⟨rfl, h⟩) fun _ => ?_
    refine .bind (.bind (.beginOp (.bind ((stays_ilock ip).runs fun _ => .bind ?_))))
    refine Runs.lift (d := true) (fun k => accept_inside fun k hk => ?_) ?_
    · exact wp_conseq (wp_fileWritei_keeps _ k) fun _ _ hk' => hk'.1.trans hk
    · rintro k rfl
      refine wp_conseq (wp_fileWritei_keeps _ k) fun r k' hk' => ?_
      have hT' := hk'.2 h
      refine .bind ((stays_iunlock ip).runs fun _ => .bind (.endOp (.ret ?_)))
      refine .ite (fun _ => .ret ⟨rfl, hT'⟩) fun _ => .ite (fun _ => ?_) fun _ => ?_
      · exact .silent (fun _ => by simp [IsLogStop]) fun _ _ => trivial
      · exact runs_filewriteLoop ip fuel _ hT'

theorem runs_sysWrite (read : Nat → Option (List UInt8)) (write : List UInt8 → Int) (h : T.Ok)
    (args : Option (Nat × List UInt8)) :
    Runs p (sysWrite (.answers read write) p args) false T fun _ => Outside := by
  cases args with
  | none => exact .ret ⟨rfl, h⟩
  | some args =>
    refine .bind ((stays_argfd args.1).runs fun r => ?_)
    cases r with
    | none => exact .ret ⟨rfl, h⟩
    | some f =>
      refine .bind ((stays_getFile f).runs fun file => .ite (fun _ => .ret ⟨rfl, h⟩) fun _ => ?_)
      cases file.type with
      | none => exact .silent (fun _ => by simp [IsLogStop]) fun _ _ => trivial
      | pipe => exact .ret ⟨rfl, h⟩
      | inode =>
        refine .bind ((runs_filewriteLoop file.ip _ args.2 h).mono fun r b T' hout => ?_)
        exact .ite (fun _ => .ret hout) fun _ => .ret hout

theorem stays_filestat (f : Nat) : Stays p b (filestat p f) := by
  refine (stays_getFile f).bind fun file => .ite (.bind ?_ fun _ => .ret _) (.ret _)
  refine (stays_ilock _).bind fun _ => Stays.bind ?_ fun st => (stays_iunlock _).bind fun _ => .ret _
  exact .lift fun _ => ⟨rfl, rfl⟩

theorem stays_sysFstat (args : Option Nat) : Stays p b (sysFstat p args) := by
  cases args with
  | none => exact .ret _
  | some fd =>
    refine (stays_argfd fd).bind fun r => ?_
    cases r with
    | none => exact .ret _
    | some f => exact stays_filestat f

theorem stays_statInodes : ∀ is fsi, Stays p b (statInodes is fsi)
  | [], _ => .ret _
  | _ :: is, _ => Stays.bind (.atomic fun _ => rfl) fun _ => stays_statInodes is _

theorem stays_statBitmap : ∀ bs fsi, Stays p b (statBitmap bs fsi)
  | [], _ => .ret _
  | _ :: bs, _ => Stays.bind (.atomic fun _ => rfl) fun _ => stays_statBitmap bs _

theorem stays_sysGetfsinfo (arg : Bool) : Stays p b (sysGetfsinfo arg) := by
  refine .ite (.bind ?_ fun _ => .ret _) (.ret _)
  refine Stays.bind (.atomic fun _ => rfl) fun sb => (stays_statInodes _ _).bind fun _ => ?_
  exact stays_statBitmap _ _

end

/-! ### Reading without holes -/

section

variable {p : Pid} {ip f : Nat} {T : Ftable}

/-- Nobody makes holes, and the file table is `T`. -/
structure Intact (T : Ftable) (k : Kern) : Prop where
  noHoles : k.fs.NoHoles
  ftable : k.ftable = T

/-- Process `p` has inode `ip` locked and in the cache. -/
structure Loaded (T : Ftable) (p : Pid) (ip : Nat) (k : Kern) : Prop extends Intact T k where
  lock : k.fs.lock ip = some p
  valid : k.fs.valid ip = true

theorem Intact.others {k k' : Kern} (h : Intact T k) (hk : Others p k k') : Intact T k' :=
  ⟨hk.noHoles h.noHoles, hk.ftable.trans h.ftable⟩

theorem Loaded.others {k k' : Kern} (h : Loaded T p ip k) (hk : Others p k k') :
    Loaded T p ip k' :=
  ⟨h.toIntact.others hk, (hk.locked ip h.lock).1, (hk.locked ip h.lock).2.1.trans h.valid⟩

/-- An inode is read into the cache. -/
theorem FileSys.NoHoles.load {s : FileSys} (h : s.NoHoles) (hv : s.valid ip = false)
    (hi : ip < s.sb.ninodes) : FileSys.NoHoles { s with
      inode := update s.inode ip (s.dinode ip)
      valid := update s.valid ip true } := by
  have hcur : ∀ i, FileSys.cur { s with
      inode := update s.inode ip (s.dinode ip)
      valid := update s.valid ip true } i = s.cur i := fun i => by
    rcases eq_or_ne i ip with rfl | hne
    · simp [FileSys.cur, hv]
    · simp [FileSys.cur, update_of_ne hne]
  intro i hi' bn hbn
  rw [hcur i] at hbn ⊢
  refine h i ?_ bn hbn
  rcases eq_or_ne i ip with rfl | hne
  · exact .inr hi
  · simpa only [update_of_ne hne] using hi'

/-- `readi` of a file without holes changes nothing, and does not get to `log_write`. -/
theorem FileSys.NoHoles.wp_readi {s : FileSys} (h : s.NoHoles) (hv : s.valid ip = true) {off n : Nat}
    {Q : Option (List UInt8) → FileSys → Prop} {E : Panic → Prop} (hQ : ∀ r, Q r s) :
    wp (readi ip off n) Q E s := by
  by_cases ht : (s.inode ip).type = T_DEV
  · exact wp_readi_dev ht hQ
  · have hcur : s.cur ip = s.inode ip := by rw [FileSys.cur, if_pos hv]
    have hb := h ip (.inl hv)
    rw [hcur] at hb
    exact wp_readi_blocks hb ht ((Nat.min_le_left _ _).trans (nblk_mul_ge _)) (hQ _)

/-- An atom that does not log where it runs. -/
theorem follows_silent {α : Type} {m : KM α} {b : Bool} {k : Kern} {Q : α → Bool → Kern → Prop}
    (hm : ∀ k', Others p k k' → ∀ n,
      wp m (fun _ k'' => k''.fs.outstanding = n) (fun e => ¬ IsLogStop e) (k'.ops n))
    (h : ∀ k', Others p k k' →
      wp m (fun a k₂ => ∀ k₃, Others p k₂ k₃ → Q a b k₃) (fun _ => True) k') :
    (Prog.lift m : KProg α).Follows (Others p) logWatch Ev.next p b Q k := by
  refine .lift fun k' hk' => ⟨b, ?_, h k' hk'⟩
  show accept Ev.next b (logEvents m k') = some b
  rw [logEvents_nil (hm k' hk')]
  rfl

theorem follows_ilock {b : Bool} {k : Kern} {Q : Unit → Bool → Kern → Prop} (h : Intact T k)
    (hQ : ∀ k', Loaded T p ip k' → Q () b k') :
    (ilock ip).Follows (Others p) logWatch Ev.next p b Q k := by
  refine .bind (interference_others p) (follows_silent (fun k' hk' n => ?_) fun k₁ hk₁ => ?_)
  · simp only [wp_onFs, wp_bind, wp_get, wp_ite, wp_throw, wp_pure]
    exact ⟨fun _ => by simp [IsLogStop], fun _ => rfl⟩
  simp only [wp_onFs, wp_bind, wp_get, wp_ite, wp_throw, wp_pure]
  refine ⟨fun _ => trivial, fun _ k₂ hk₂ => ?_⟩
  have h₂ : Intact T k₂ := (h.others hk₁).others hk₂
  refine .bind (interference_others p) ⟨b, rfl, fun k₃ hk₃ _ k₄ hk₄ => ?_⟩
  have h₃ := h₂.others hk₃
  have hgrab : Intact T (Locking.grab k₃ (⟨.ilock, ip⟩ : Want) p) := ⟨h₃.noHoles, h₃.ftable⟩
  have h₄ : Intact T k₄ := hgrab.others hk₄
  have hl₄ : k₄.fs.lock ip = some p := (hk₄.locked ip (update_self ..)).1
  refine follows_silent (fun k' hk' n => ?_) fun k₅ hk₅ => ?_
  · simp only [ilockRead, wp_onFs, wp_bind, wp_get, wp_ite, wp_throw, wp_set, wp_pure]
    exact ⟨fun _ => ⟨fun _ => by simp [IsLogStop], fun _ => ⟨fun _ => by simp [IsLogStop],
      fun _ => rfl⟩⟩, fun _ => rfl⟩
  have h₅ := h₄.others hk₅
  have hl₅ := (hk₅.locked ip hl₄).1
  simp only [ilockRead, wp_onFs, wp_bind, wp_get, wp_ite, wp_throw, wp_set, wp_pure]
  refine ⟨fun hv => ⟨fun _ => trivial, fun hi => ⟨fun _ => trivial, fun _ k₆ hk₆ => ?_⟩⟩,
    fun hv k₆ hk₆ => ?_⟩
  · have hload : Loaded T p ip { k₅ with fs := { k₅.fs with
        inode := update k₅.fs.inode ip (k₅.fs.dinode ip)
        valid := update k₅.fs.valid ip true } } :=
      ⟨⟨h₅.noHoles.load hv (Nat.not_le.mp hi), h₅.ftable⟩, hl₅, update_self ..⟩
    exact hQ k₆ (hload.others hk₆)
  · exact hQ k₆ (Loaded.others ⟨h₅, hl₅, by simpa using hv⟩ hk₆)

/-- **`readi` outside of a transaction.** -/
theorem follows_fileReadi {k : Kern} (h : Loaded T p (T f).ip k) (hT : T.Ok) (n : Nat) :
    (Prog.lift (fileReadi f n)).Follows (Others p) logWatch Ev.next p false
      (fun _ b k' => Outside b k'.ftable) k := by
  have hread : ∀ k' : Kern, Loaded T p (T f).ip k' → ∀ {E : Panic → Prop}, wp (fileReadi f n)
      (fun _ k'' => k''.fs = k'.fs ∧ Ftable.Ok k''.ftable) E k' := fun k' hk' E => by
    simp only [fileReadi, getFile, wp_bind, wp_get, wp_pure, wp_onFs, hk'.ftable]
    refine hk'.noHoles.wp_readi hk'.valid fun r => ?_
    cases r with
    | none => exact ⟨rfl, hk'.ftable ▸ hT⟩
    | some bytes =>
      simp only [wp_ite, wp_bind, wp_modify, wp_pure]
      refine ⟨fun _ => ⟨rfl, ?_⟩, fun _ => ⟨trivial, hk'.ftable ▸ hT⟩⟩
      exact Ftable.Ok.update (hk'.ftable ▸ hT) (hk'.ftable ▸ hT f)
  refine follows_silent (fun k₁ hk₁ m => ?_) fun k₁ hk₁ => ?_
  · have h₁ := h.others hk₁
    have hops : Loaded T p (T f).ip (k₁.ops m) :=
      ⟨⟨h₁.noHoles, h₁.ftable⟩, h₁.lock, h₁.valid⟩
    exact wp_conseq (hread _ hops) fun _ k' hk' => by rw [hk'.1]; rfl
  · refine wp_conseq (hread k₁ (h.others hk₁)) fun _ k₂ hk₂ k₃ hk₃ => ⟨rfl, ?_⟩
    rw [hk₃.ftable]
    exact hk₂.2

theorem follows_sysRead (read : Nat → Option (List UInt8)) (write : List UInt8 → Int) {k : Kern}
    (h : Intact T k) (hT : T.Ok) (args : Option (Nat × Nat)) :
    (sysRead (.answers read write) p args).Follows (Others p) logWatch Ev.next p false
      (fun _ b k' => Outside b k'.ftable) k := by
  have hend : ∀ {α : Type} (a : α) {b : Bool} {k : Kern}, Outside b k.ftable →
      (Prog.ret a : KProg α).Follows (Others p) logWatch Ev.next p b
        (fun _ b k' => Outside b k'.ftable) k := fun a b k hout k' hk' => by
    show Outside b k'.ftable
    rw [hk'.ftable]
    exact hout
  have hdone : ∀ {k : Kern}, Intact T k → Outside false k.ftable := fun hk => ⟨rfl, hk.ftable ▸ hT⟩
  cases args with
  | none => exact hend _ (hdone h)
  | some args =>
    refine .bind (interference_others p) (follows_silent (fun k₁ _ n => ?_) fun k₁ hk₁ => ?_)
    · unfold argfd
      split <;> exact rfl
    have hargfd : wp (argfd p args.1) (fun _ k₂ => k₂ = k₁) (fun _ => True) k₁ := by
      unfold argfd
      split <;> exact rfl
    refine wp_conseq hargfd ?_
    rintro r _ rfl k₂ hk₂
    have h₂ := (h.others hk₁).others hk₂
    cases r with
    | none => exact hend _ (hdone h₂)
    | some f =>
      refine .bind (interference_others p) (.bind (interference_others p) (follows_silent
        (fun _ _ _ => rfl) fun k₃ hk₃ k₄ hk₄ => ?_))
      have h₃ := h₂.others hk₃
      have h₄ := h₃.others hk₄
      rw [h₃.ftable]
      refine .ite (fun _ => ?_) fun _ => ?_
      · exact (hend _ (hdone h₄)).mono fun _ _ _ hout => hend _ hout
      · cases (T f).type with
        | none => exact follows_silent (fun _ _ _ => by simp [IsLogStop]) fun _ _ => trivial
        | pipe => exact (hend _ (hdone h₄)).mono fun _ _ _ hout => hend _ hout
        | inode =>
          refine .bind (interference_others p) (follows_ilock h₄ fun k₅ h₅ => ?_)
          refine .bind (interference_others p) ((follows_fileReadi h₅ hT args.2).mono ?_)
          rintro r b k₆ ⟨rfl, hT₆⟩
          refine .bind (interference_others p) ((stays_iunlock _ _ k₆ rfl).mono ?_)
          rintro _ b k₇ ⟨rfl, h₇⟩
          have hout : Outside false k₇.ftable := ⟨rfl, h₇ ▸ hT₆⟩
          exact (hend _ hout).mono fun _ _ _ hout => hend _ hout

end

/-! ## 7. Every call -/

/-- **The transactions of a process are brackets, and hold what it does to the disk.** -/
structure Bracketed (t : List Ev) : Prop where
  /-- `begin_op` and `end_op` alternate: at no time has the process more than one operation under
  way, or ended one that it had not begun. -/
  alternate : ∀ pre, pre <+: t → pre.count .endOp ≤ pre.count .beginOp ∧
    pre.count .beginOp ≤ pre.count .endOp + 1
  /-- It calls `log_write` and `iput` only while it has one under way. -/
  inside : ∀ pre e, pre ++ [e] <+: t → e ≠ .beginOp → e ≠ .endOp →
    pre.count .beginOp = pre.count .endOp + 1

section

variable {t : List Ev} {b b' : Bool}

/-- The state of the automaton is the number of operations under way. -/
theorem accept_count (h : accept Ev.next b t = some b') :
    t.count .beginOp + b.toNat = t.count .endOp + b'.toNat := by
  induction t generalizing b with
  | nil => rw [Option.some.inj h]; rfl
  | cons e t ih =>
    obtain ⟨b₁, h₁, h₂⟩ := Option.bind_eq_some_iff.mp h
    have hrest := ih h₂
    have hone : (if e = .beginOp then 1 else 0) + b.toNat =
        (if e = .endOp then 1 else 0) + b₁.toNat := by
      cases b <;> cases e <;> cases h₁ <;> rfl
    simp only [List.count_cons, beq_iff_eq]
    omega

/-- A part at the beginning is accepted too. -/
theorem accept_part {pre : List Ev} (h : accept Ev.next b t = some b') (hpre : pre <+: t) :
    ∃ b₁, accept Ev.next b pre = some b₁ := by
  obtain ⟨rest, rfl⟩ := hpre
  rw [accept_append] at h
  obtain ⟨b₁, h₁, -⟩ := Option.bind_eq_some_iff.mp h
  exact ⟨b₁, h₁⟩

theorem bracketed (h : accept Ev.next false t = some b') : Bracketed t where
  alternate pre hpre := by
    obtain ⟨b₁, h₁⟩ := accept_part h hpre
    have hcount := accept_count h₁
    have hle := Bool.toNat_le b₁
    simp only [Bool.toNat_false, Nat.add_zero] at hcount
    omega
  inside pre e hpre hb he := by
    obtain ⟨b₂, h₂⟩ := accept_part h hpre
    rw [accept_append] at h₂
    obtain ⟨b₁, h₁, hnext⟩ := Option.bind_eq_some_iff.mp h₂
    have hopen : b₁ = true := by
      obtain ⟨b₃, hnext, -⟩ := Option.bind_eq_some_iff.mp hnext
      cases b₁ with
      | true => rfl
      | false => cases e <;> contradiction
    have hcount := accept_count h₁
    rw [hopen] at hcount
    exact hcount

end

theorem follows_call (read : Nat → Option (List UInt8)) (write : List UInt8 → Int) (p : Pid)
    (call : DiskCall) {k : Kern} (hn : k.fs.NoHoles) (hf : k.FtableOk) :
    (call.prog (.answers read write) p).Follows (Others p) logWatch Ev.next p false
      (fun _ b k' => Outside b k'.ftable) k := by
  have hret : ∀ (r : Int) {b : Bool} {T : Ftable}, Outside b T → Runs p (.ret r) b T fun _ => Outside :=
    fun _ _ _ hout => .ret hout
  have hT : Ftable.Ok k.ftable := hf
  match call with
  | .path call => exact runs_path hT call k rfl
  | .sysRead args =>
    refine .bind (interference_others p) ((follows_sysRead read write ⟨hn, rfl⟩ hT args).mono ?_)
    exact fun _ _ k' hout => hret _ hout k' rfl
  | .sysWrite args => exact runs_sysWrite read write hT args k rfl
  | .sysClose fd => exact runs_sysClose hT fd k rfl
  | .sysFstat args =>
    exact Runs.bind ((stays_sysFstat args).runs fun _ => hret _ ⟨rfl, hT⟩) k rfl
  | .sysGetfsinfo arg =>
    exact Runs.bind ((stays_sysGetfsinfo arg).runs fun _ => hret _ ⟨rfl, hT⟩) k rfl
  | .exit => exact runs_exit hT k rfl

/-- **Disk changes happen inside the caller's own transaction.**  On every path through a call, from
a state without holes and whatever others do to the file system, the process begins and ends its
operations in turn, logs blocks and drops inodes only inside of one, and has none under way when
the call is finished. -/
theorem disk_calls_bracketed (read : Nat → Option (List UInt8)) (write : List UInt8 → Int) (p : Pid)
    (call : DiskCall) {k : Kern} (hn : k.fs.NoHoles) (hf : k.FtableOk) {t : List Ev}
    {o : Option (Int × Kern)}
    (hpath : (call.prog (.answers read write) p).Path (Others p) logWatch p k t o) :
    Bracketed t ∧
      ∀ r k', o = some (r, k') → t.count .beginOp = t.count .endOp ∧ k'.FtableOk := by
  obtain ⟨b, hb, hend⟩ := hpath.accepted (interference_others p) (follows_call read write p call hn hf)
  refine ⟨bracketed hb, fun r k' ho => ?_⟩
  obtain ⟨rfl, hT⟩ := hend r k' ho
  exact ⟨accept_count hb, hT⟩

theorem image_noHoles : image.fs.NoHoles := by
  intro i _ bn hbn
  have hcur : image.fs.cur i = if i = ROOTINO then imageRoot else Dinode.zero := image_cur i
  by_cases hi : i = ROOTINO
  · rw [hcur, if_pos hi] at hbn ⊢
    obtain rfl : bn = 0 := by
      have hblk : nblk imageRoot.size = 1 := by decide
      omega
    decide
  · rw [hcur, if_neg hi] at hbn
    exact absurd hbn (Nat.not_lt_zero bn)

/-- Process 0 creates a file on the small disk. -/
theorem disk_calls_bracketed_create : ∃ t r k', Prog.Path (Others 0) logWatch 0
    (DiskCall.prog (.answers (fun _ => none) fun _ => -1) 0 (.path (.sysOpen (some ([102], O_CREATE)))))
      image t (some (r, k')) ∧ r = 0 ∧ .logWrite ∈ t ∧ .iput ROOTINO ∈ t ∧
      t.count .beginOp = 1 ∧ t.count .endOp = 1 ∧ Bracketed t := by
  have hrun : (Prog.watched logWatch 0 (DiskCall.prog (.answers (fun _ => none) fun _ => -1) 0
      (.path (.sysOpen (some ([102], O_CREATE))))) image).any (fun r => r.2.1 = 0 ∧ .logWrite ∈ r.1 ∧
        .iput ROOTINO ∈ r.1 ∧ r.1.count .beginOp = 1) = true := by decide +kernel
  obtain ⟨⟨t, r, k'⟩, hr, hcheck⟩ := (Option.any_eq_true _ _).mp hrun
  obtain ⟨h0, hlog, hput, hone⟩ := of_decide_eq_true hcheck
  have hpath := Prog.path_watched (R := Others 0) hr
  obtain ⟨hb, hend⟩ := disk_calls_bracketed _ _ 0 _ image_noHoles (fun _ _ => rfl) hpath
  exact ⟨t, r, k', hpath, h0, hlog, hput, hone, ((hend r k' rfl).1.symm.trans hone), hb⟩

end Xv6.Fs
