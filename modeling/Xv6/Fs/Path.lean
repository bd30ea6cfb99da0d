/-
# Inode locks, directories and paths

The code that takes the sleep-lock of an inode: `ilock`, `iput`, and everything above them up
to `namex`.  It is embedded in `Prog`, so that an `acquiresleep` is visible where the source
has one.  Both `ilock` and `iput` call it on the same lock; a wait remembers which of the two
it is in (`Want`).

The atoms are the pieces of code between two such waits.  An assignment to an inode and the
`iupdate` that follows it are one atom, since the code holds the inode's lock there.

A path is the list of its bytes, without the final NUL.
-/
import Xv6.Lib.Prog
import Xv6.Fs.Dir

namespace Xv6.Fs

/-! ## 1. The state -/

/-- `f->type`. -/
inductive FdType
  | none
  | pipe
  | inode
  deriving DecidableEq, Repr

/-- `struct file`. -/
structure OFile where
  type : FdType
  ref : Nat
  readable : Bool
  writable : Bool
  ip : Nat
  off : Nat

/-- The part of `struct proc` that the file system code uses.  A process without a current
directory is not there, or has exited. -/
structure Files where
  cwd : Option Nat
  ofile : Nat → Option Nat

/-- The kernel, as the system calls on files see it. -/
structure Kern where
  fs : FileSys
  ftable : Nat → OFile
  proc : Pid → Files

/-- Which function calls `acquiresleep`. -/
inductive Site
  | ilock
  | iput
  deriving DecidableEq, Repr

/-- A wait for the sleep-lock of an inode. -/
structure Want where
  site : Site
  ip : Nat
  deriving DecidableEq, Repr

instance : Locking Kern Want Pid where
  holder k w := k.fs.lock w.ip
  grab k w p := { k with fs := k.fs.setLock w.ip (some p) }

/-- Code that may wait for inode locks. -/
abbrev KProg := Prog Kern Panic Want

/-- Code between two waits. -/
abbrev KM := StateT Kern (Except Panic)

/-- Code of the file system, run on the kernel. -/
def onFs {α : Type} (m : FsM α) : KM α := fun k =>
  match m k.fs with
  | .ok (a, s) => .ok (a, { k with fs := s })
  | .error e => .error e

theorem wp_onFs {α : Type} (m : FsM α) (Q : α → Kern → Prop) (E : Panic → Prop) (k : Kern) :
    wp (onFs m) Q E k ↔ wp m (fun a s => Q a { k with fs := s }) E k.fs := by
  unfold wp onFs
  cases m k.fs <;> rfl

/-- An atom of file system code. -/
def atomic {α : Type} (m : FsM α) : KProg α := Prog.lift (onFs m)

/-! ## 2. Locks of inodes -/

/-- `ilock`, once the lock is taken. -/
def ilockRead (ip : Nat) : FsM Unit := do
  let s ← get
  if s.valid ip = false then
    if s.sb.ninodes ≤ ip then throw .inodeRange
    else
      set { s with
        inode := Function.update s.inode ip (s.dinode ip)
        valid := Function.update s.valid ip true }
      if (s.dinode ip).type = 0 then throw .noType

/-- `ilock`. -/
def ilock (ip : Nat) : KProg Unit := do
  atomic do
    let s ← get
    if s.ref ip < 1 then throw .ilock
  Prog.lock ⟨.ilock, ip⟩
  atomic (ilockRead ip)

/-- `releasesleep(&ip->lock)`. -/
def releasesleep (ip : Nat) : FsM Unit := modify fun s => s.setLock ip none

/-- `iunlock`. -/
def iunlock (p : Pid) (ip : Nat) : KProg Unit := atomic do
  let s ← get
  if s.lock ip ≠ some p ∨ s.ref ip < 1 then throw .iunlock
  else releasesleep ip

/-- The test of `iput`: `ip->ref`, when the inode is cached and has no links. -/
def iputTest (ip : Nat) : FsM (Option Nat) := do
  let s ← get
  if s.valid ip = true ∧ (s.inode ip).nlink = 0 then return some (s.ref ip) else return none

/-- `iput`. -/
def iput (ip : Nat) : KProg Unit := do
  Prog.lock ⟨.iput, ip⟩
  let r ← atomic (iputTest ip)
  if r = some 1 then atomic (ifree ip)
  atomic (releasesleep ip)
  atomic (iputRef ip)

/-- `iunlockput`. -/
def iunlockput (p : Pid) (ip : Nat) : KProg Unit := do
  iunlock p ip
  iput ip

/-- `ip->type`, read under the lock. -/
def itype (ip : Nat) : FsM Int := return ((← get).inode ip).type

/-- `dirlink`. -/
def dirlink (dp : Nat) (name : List UInt8) (inum : Nat) : KProg Int := do
  match ← atomic (dirlookup dp name) with
  | some (ip, _) =>
    iput ip
    return -1
  | none =>
    atomic (dirlinkWrite dp name inum)
    return 0

/-! ## 3. Paths -/

/-- The character `/`. -/
abbrev slash : UInt8 := 47

/-- `skipelem`: the next element, cut to DIRSIZ bytes, and the rest of the path without leading
slashes. -/
def skipelem (path : List UInt8) : Option (List UInt8 × List UInt8) :=
  match path.dropWhile (· = slash) with
  | [] => none
  | c :: cs =>
    some (((c :: cs).takeWhile (· ≠ slash)).take DIRSIZ,
      ((c :: cs).dropWhile (· ≠ slash)).dropWhile (· = slash))

/-- Every element is taken off the path. -/
theorem skipelem_length {path name rest : List UInt8} (h : skipelem path = some (name, rest)) :
    rest.length < path.length := by
  unfold skipelem at h
  split at h
  · cases h
  next c cs hd =>
    have hlen : (c :: cs).length ≤ path.length := hd ▸ (List.dropWhile_sublist _).length_le
    have hc : c ≠ slash := by
      have := List.head_dropWhile_not (l := path) (· = slash) (by rw [hd]; simp)
      simpa [hd] using this
    obtain ⟨-, rfl⟩ := Prod.mk.inj (Option.some.inj h)
    have h₁ := (List.dropWhile_sublist (l := (c :: cs).dropWhile (· ≠ slash)) (· = slash)).length_le
    have h₂ := (List.dropWhile_sublist (l := cs) (· ≠ slash)).length_le
    rw [List.dropWhile_cons_of_pos (by simpa using hc)] at h₁ ⊢
    simp only [List.length_cons] at hlen
    omega

/-- The loop of `namex`, at the inode `ip`. -/
def namexLoop (p : Pid) (parent : Bool) :
    Nat → Nat → List UInt8 → KProg (Option (Nat × List UInt8))
  | 0, _, _ => return none
  | fuel + 1, ip, path =>
    match skipelem path with
    | none =>
      if parent then do
        iput ip
        return none
      else return some (ip, [])
    | some (name, path) => do
      ilock ip
      if (← atomic (itype ip)) ≠ T_DIR then
        iunlockput p ip
        return none
      else if parent ∧ path = [] then
        -- stop one level early
        iunlock p ip
        return some (ip, name)
      else
        match ← atomic (dirlookup ip name) with
        | none =>
          iunlockput p ip
          return none
        | some (next, _) =>
          iunlockput p ip
          namexLoop p parent fuel next path

/-- `myproc()->cwd`. -/
def getCwd (p : Pid) : KM Nat := return ((← get).proc p).cwd.getD 0

/-- The inode that `namex` starts from, referenced. -/
def namexStart (p : Pid) (path : List UInt8) : KM Nat := do
  if path.head? = some slash then
    onFs (iget ROOTINO)
    return ROOTINO
  else
    let cwd ← getCwd p
    onFs (idup cwd)
    return cwd

/-- `namex`: the inode and, for `nameiparent`, the last element.  Each pass takes an element off
the path, so its length is enough fuel. -/
def namex (p : Pid) (path : List UInt8) (parent : Bool) : KProg (Option (Nat × List UInt8)) := do
  let ip ← Prog.lift (namexStart p path)
  namexLoop p parent (path.length + 1) ip path

/-- `namei`. -/
def namei (p : Pid) (path : List UInt8) : KProg (Option Nat) := do
  let r ← namex p path false
  return r.map Prod.fst

/-- `nameiparent`. -/
def nameiparent (p : Pid) (path : List UInt8) : KProg (Option (Nat × List UInt8)) :=
  namex p path true

end Xv6.Fs
