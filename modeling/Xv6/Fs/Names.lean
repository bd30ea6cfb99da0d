/-
# What the system calls do to names

The naming layer is an abstract machine.  Its state is the files and the reference counts; its
actions are the changes that a system call makes to them, each with the facts that the code has
checked at that point.  Creating a file is ONE action, although the code writes several inodes:
it holds their locks and drops no reference in between.

`sys_link` counts the new link before it looks for the directory of the new name, and
`sys_unlink` drops its reference to the directory after it has cleared the entry and before it
takes the link off the count.  Inodes may be freed in between.  So the state also says which
inode has a link that is counted and is not there (`Pend`).

A system call is a run of such actions.  A run is taken under a condition `G` on its actions:
invariants are proved for the runs whose actions meet some condition, and the specifications of
the system calls say what is known about the actions of a call.
-/
import Mathlib.Logic.Relation
import Xv6.Fs.Call

namespace Xv6.Fs

/-! ## 1. Changes of a file -/

/-- `f` with another link count. -/
def File.setNlink (f : File) (x : Int) : File := { f with nlink := x }

/-- `f->nlink++`. -/
def File.incr (f : File) : File := f.setNlink (short (f.nlink + 1))

/-- `f->nlink--`. -/
def File.decr (f : File) : File := f.setNlink (short (f.nlink - 1))

/-- A directory with a new entry. -/
def File.link (f : File) (name : List UInt8) (inum : Nat) : File :=
  f.write f.freeOff (Dirent.make name inum)

/-- A directory with the entry at `off` cleared. -/
def File.clear (f : File) (off : Nat) : File := f.write off (List.replicate DESIZE 0)

/-- What `isdirempty` says of a directory. -/
def File.isEmpty (f : File) : Bool := (f.entries.drop 2).all fun e => e.2.inum == 0

/-- A new file with one link. -/
def File.new (type major minor : Int) : File :=
  { File.free with type := type, major := major, minor := minor, nlink := 1 }

/-- A new directory in the directory `d`. -/
def File.newDir (n d : Nat) (major minor : Int) : File :=
  ((File.new T_DIR major minor).link dot n).link dotdot d

/-- `name` is neither `.` nor `..`. -/
def Plain (name : List UInt8) : Prop := namecmp name dot ≠ 0 ∧ namecmp name dotdot ≠ 0

instance (name : List UInt8) : Decidable (Plain name) := inferInstanceAs (Decidable (_ ∧ _))

/-! ## 2. The machine -/

/-- A link that is counted and is not there. -/
inductive Pend
  | none
  /-- `sys_link` is going to make a link to `i`. -/
  | link (i : Nat)
  /-- `sys_unlink` has cleared an entry for `i`. -/
  | unlink (i : Nat)
  deriving DecidableEq

/-- The inode with the link. -/
def Pend.inum : Pend → Option Nat
  | .none => Option.none
  | .link i | .unlink i => some i

@[simp] theorem Pend.inum_none : Pend.none.inum = Option.none := rfl

@[simp] theorem Pend.inum_link (i : Nat) : (Pend.link i).inum = some i := rfl

@[simp] theorem Pend.inum_unlink (i : Nat) : (Pend.unlink i).inum = some i := rfl

/-- The state of the naming layer. -/
structure Names where
  view : Nat → File
  ref : Nat → Nat
  pend : Pend

/-- The actions. -/
inductive Act
  /-- A reference is taken. -/
  | get (i : Nat)
  /-- A reference is dropped. -/
  | drop (i : Nat)
  /-- The last reference to an inode without links is dropped. -/
  | free (i : Nat)
  /-- `sys_link` counts a link that it is going to make. -/
  | count (i : Nat)
  /-- A link that is not there is taken off the count. -/
  | uncount (i : Nat)
  /-- `sys_link` makes the link. -/
  | entry (d : Nat) (name : List UInt8) (i : Nat)
  /-- A file or device is created. -/
  | mkfile (d : Nat) (name : List UInt8) (n : Nat)
  /-- A directory is created. -/
  | mkdir (d : Nat) (name : List UInt8) (n : Nat)
  /-- `sys_unlink` clears the entry of a file or device. -/
  | unlink (d : Nat) (name : List UInt8)
  /-- `sys_unlink` clears the entry of a directory. -/
  | rmdir (d : Nat) (name : List UInt8)

namespace Names

/-- Inode `i` is referenced, is the root, or has an entry in a directory. -/
def Named (n : Names) (i : Nat) : Prop :=
  0 < n.ref i ∨ i = ROOTINO ∨
    ∃ d name e, (n.view d).type = T_DIR ∧ (n.view d).lookup name = some e ∧ e.2.inum = i

/-- **The actions**, on a file system with `N` inodes. -/
inductive Step (N : Nat) : Names → Act → Names → Prop
  | get (n : Names) (i : Nat) :
    Step N n (.get i) { n with ref := Function.update n.ref i (n.ref i + 1) }
  | drop {n : Names} {i : Nat} (href : 0 < n.ref i) :
    Step N n (.drop i) { n with ref := Function.update n.ref i (n.ref i - 1) }
  | free {n : Names} {i : Nat} (href : n.ref i = 1) (hnlink : (n.view i).nlink = 0) :
    Step N n (.free i) { n with
      view := Function.update n.view i File.free
      ref := Function.update n.ref i 0 }
  | count {n : Names} {i : Nat} (hpend : n.pend = .none) (halloc : (n.view i).type ≠ 0)
      (htype : (n.view i).type ≠ T_DIR) :
    Step N n (.count i) { n with
      view := Function.update n.view i (n.view i).incr
      pend := .link i }
  | uncount {n : Names} {i : Nat} (hpend : n.pend.inum = some i) :
    Step N n (.uncount i) { n with
      view := Function.update n.view i (n.view i).decr
      pend := .none }
  | entry {n : Names} {d i : Nat} {name : List UInt8} (hpend : n.pend = .link i)
      (hdir : (n.view d).type = T_DIR) (hnone : (n.view d).lookup name = none) :
    Step N n (.entry d name i) { n with
      view := Function.update n.view d ((n.view d).link name i)
      pend := .none }
  | mkfile {n : Names} {d i : Nat} {name : List UInt8} {type major minor : Int}
      (hpend : n.pend = .none) (hdir : (n.view d).type = T_DIR)
      (hnone : (n.view d).lookup name = none) (hfree : (n.view i).type = 0) (hpos : i ≠ 0)
      (hlt : i < N) (htype : type ≠ 0 ∧ type ≠ T_DIR) :
    Step N n (.mkfile d name i) { n with
      view := Function.update (Function.update n.view i (File.new type major minor)) d
        ((n.view d).link name i)
      ref := Function.update n.ref i (n.ref i + 1) }
  | mkdir {n : Names} {d i : Nat} {name : List UInt8} {major minor : Int}
      (hpend : n.pend = .none) (hdir : (n.view d).type = T_DIR)
      (hnone : (n.view d).lookup name = none) (hfree : (n.view i).type = 0) (hpos : i ≠ 0)
      (hlt : i < N) :
    Step N n (.mkdir d name i) { n with
      view := Function.update (Function.update n.view i (File.newDir i d major minor)) d
        ((n.view d).incr.link name i)
      ref := Function.update n.ref i (n.ref i + 1) }
  | unlink {n : Names} {d : Nat} {name : List UInt8} {e : Nat × Dirent}
      (hpend : n.pend = .none) (hdir : (n.view d).type = T_DIR) (hname : Plain name)
      (hsome : (n.view d).lookup name = some e) (hne : e.2.inum ≠ d)
      (hnlink : 1 ≤ (n.view e.2.inum).nlink) (htype : (n.view e.2.inum).type ≠ T_DIR) :
    Step N n (.unlink d name) { n with
      view := Function.update n.view d ((n.view d).clear e.1)
      pend := .unlink e.2.inum }
  | rmdir {n : Names} {d : Nat} {name : List UInt8} {e : Nat × Dirent}
      (hpend : n.pend = .none) (hdir : (n.view d).type = T_DIR) (hname : Plain name)
      (hsome : (n.view d).lookup name = some e) (hne : e.2.inum ≠ d)
      (hnlink : 1 ≤ (n.view e.2.inum).nlink) (htype : (n.view e.2.inum).type = T_DIR)
      (hempty : (n.view e.2.inum).isEmpty = true) :
    Step N n (.rmdir d name) { n with
      view := Function.update n.view d ((n.view d).clear e.1).decr
      pend := .unlink e.2.inum }

/-- A run whose actions all meet `G`. -/
def Run (N : Nat) (G : Names → Act → Prop) : Names → Names → Prop :=
  Relation.ReflTransGen fun n n' => ∃ a, G n a ∧ Step N n a n'

/-- The condition does not restrict the actions that a call makes without a choice. -/
structure Lax (G : Names → Act → Prop) : Prop where
  get : ∀ n i, n.Named i → G n (.get i)
  drop : ∀ n i, G n (.drop i)
  free : ∀ n i, G n (.free i)
  uncount : ∀ n i, G n (.uncount i)

variable {N : Nat} {G : Names → Act → Prop} {n n₁ n₂ : Names} {a : Act}

theorem Run.tail (h : Run N G n n₁) (hG : G n₁ a) (hs : Step N n₁ a n₂) : Run N G n n₂ :=
  Relation.ReflTransGen.tail h ⟨a, hG, hs⟩

/-- **The invariant rule.**  What every permitted action keeps holds along every run. -/
theorem Run.invariant {I : Names → Prop} (h : Run N G n n₁) (h0 : I n)
    (hstep : ∀ n a n', I n → G n a → Step N n a n' → I n') : I n₁ := by
  induction h with
  | refl => exact h0
  | tail _ hlast ih =>
    obtain ⟨a, hG, hs⟩ := hlast
    exact hstep _ a _ ih hG hs

end Names

end Xv6.Fs
