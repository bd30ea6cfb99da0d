/-
# The system calls on names

`sysfile.c`, with the parts of `file.c`, `proc.c` and `exec.c` that take and drop references to
inodes.  An argument that could not be fetched from user space is `none`.

`sys_link`, `sys_unlink` and `create` are cut in two where they have locked the directory that
they are about to change (`linkParent`, `unlinkParent`, `createParent`): what a call does from
there on depends on that directory and on the last element of the path.
-/
import Xv6.Fs.Path

namespace Xv6.Fs

/-! ## 1. Link counts -/

/-- A value stored in a `short`. -/
def short (x : Int) : Int := Int.bmod x 65536

/-- `ip->nlink++; iupdate(ip)`. -/
def incLink (ip : Nat) : FsM Unit := do
  setInode ip fun d => { d with nlink := short (d.nlink + 1) }
  iupdate ip

/-- `ip->nlink--; iupdate(ip)`. -/
def decLink (ip : Nat) : FsM Unit := do
  setInode ip fun d => { d with nlink := short (d.nlink - 1) }
  iupdate ip

/-! ## 2. `sys_link` -/

/-- `sys_link` up to the point where it has the inode of `old` locked, and may count a link. -/
def linkOld (p : Pid) (old : List UInt8) : KProg (Option Nat) := do
  atomic beginOp
  match ← namei p old with
  | none =>
    atomic endOp
    return none
  | some ip =>
    ilock ip
    if (← atomic (itype ip)) = T_DIR then
      iunlockput p ip
      atomic endOp
      return none
    else return some ip

/-- Where `sys_link` stands before its call of `dirlink`. -/
inductive LinkAt
  /-- It has failed, and its transaction has ended. -/
  | fail
  /-- At `bad`, with a link to `ip` counted. -/
  | bad (ip : Nat)
  /-- With `dp` locked, and a link to `ip` counted. -/
  | dir (ip dp : Nat) (name : List UInt8)
  deriving DecidableEq, Repr

/-- `sys_link` up to its call of `dirlink`. -/
def linkParent (p : Pid) (old new : List UInt8) : KProg LinkAt := do
  match ← linkOld p old with
  | none => return .fail
  | some ip =>
    atomic (incLink ip)
    iunlock p ip
    match ← nameiparent p new with
    | none => return .bad ip
    | some (dp, name) =>
      ilock dp
      return .dir ip dp name

/-- `sys_link` from `bad` on. -/
def linkBad (p : Pid) (ip : Nat) : KProg Int := do
  ilock ip
  atomic (decLink ip)
  iunlockput p ip
  atomic endOp
  return -1

/-- `sys_link` from its call of `dirlink` on.  There is one device, so `dp->dev != ip->dev` is
never so. -/
def linkDir (p : Pid) (ip dp : Nat) (name : List UInt8) : KProg Int := do
  if (← dirlink dp name ip) < 0 then
    iunlockput p dp
    linkBad p ip
  else
    iunlockput p dp
    iput ip
    atomic endOp
    return 0

/-- `sys_link`. -/
def sysLink (p : Pid) (args : Option (List UInt8 × List UInt8)) : KProg Int :=
  match args with
  | none => return -1
  | some (old, new) => do
    match ← linkParent p old new with
    | .fail => return -1
    | .bad ip => linkBad p ip
    | .dir ip dp name => linkDir p ip dp name

/-! ## 3. `sys_unlink` -/

/-- `sys_unlink` up to the point where it has the directory locked. -/
def unlinkParent (p : Pid) (path : List UInt8) : KProg (Option (Nat × List UInt8)) := do
  atomic beginOp
  match ← nameiparent p path with
  | none =>
    atomic endOp
    return none
  | some (dp, name) =>
    ilock dp
    return some (dp, name)

/-- The checks on the inode to be unlinked: `true` when it is a directory that is not empty. -/
def unlinkRefused (ip : Nat) : FsM Bool := do
  let s ← get
  if (s.inode ip).nlink < 1 then throw .unlinkNlink
  else if (s.inode ip).type = T_DIR then return !(← isdirempty ip)
  else return false

/-- The entry is cleared, and a directory's `..` no longer counts for its parent. -/
def unlinkEntry (dp ip off : Nat) : FsM Unit := do
  let r ← writei dp (List.replicate DESIZE 0) off
  if r ≠ DESIZE then throw .unlinkWritei
  else if (← itype ip) = T_DIR then decLink dp

/-- `sys_unlink` from `bad` on. -/
def unlinkBad (p : Pid) (dp : Nat) : KProg Int := do
  iunlockput p dp
  atomic endOp
  return -1

/-- `sys_unlink`, once it has the directory locked. -/
def unlinkDir (p : Pid) (dp : Nat) (name : List UInt8) : KProg Int := do
  if namecmp name dot = 0 ∨ namecmp name dotdot = 0 then unlinkBad p dp
  else
    match ← atomic (dirlookup dp name) with
    | none => unlinkBad p dp
    | some (ip, off) =>
      ilock ip
      if ← atomic (unlinkRefused ip) then
        iunlockput p ip
        unlinkBad p dp
      else
        atomic (unlinkEntry dp ip off)
        iunlockput p dp
        atomic (decLink ip)
        iunlockput p ip
        atomic endOp
        return 0

/-- `sys_unlink`. -/
def sysUnlink (p : Pid) (path : Option (List UInt8)) : KProg Int :=
  match path with
  | none => return -1
  | some path => do
    match ← unlinkParent p path with
    | none => return -1
    | some (dp, name) => unlinkDir p dp name

/-! ## 4. `create` -/

/-- `create` up to the point where it has the directory locked. -/
def createParent (p : Pid) (path : List UInt8) : KProg (Option (Nat × List UInt8)) := do
  match ← nameiparent p path with
  | none => return none
  | some (dp, name) =>
    ilock dp
    return some (dp, name)

/-- The fields of a new inode. -/
def createInit (ip : Nat) (major minor : Int) : FsM Unit := do
  setInode ip fun d => { d with major := major, minor := minor, nlink := 1 }
  iupdate ip

/-- `dirlink`, which must not fail here. -/
def dirlinkOr (err : Panic) (dp : Nat) (name : List UInt8) (inum : Nat) : KProg Unit := do
  if (← dirlink dp name inum) < 0 then atomic (throw err)

/-- `create` fills in the new inode `ip`, and links it. -/
def createFill (dp : Nat) (name : List UInt8) (type major minor : Int) (ip : Nat) :
    KProg Unit := do
  ilock ip
  atomic (createInit ip major minor)
  if type = T_DIR then
    atomic (incLink dp)
    dirlinkOr .createDots ip dot ip
    dirlinkOr .createDots ip dotdot dp
  dirlinkOr .createDirlink dp name ip

/-- `create`: the inode, locked. -/
def create (p : Pid) (path : List UInt8) (type major minor : Int) : KProg (Option Nat) := do
  match ← createParent p path with
  | none => return none
  | some (dp, name) =>
    match ← atomic (dirlookup dp name) with
    | some (ip, _) =>
      iunlockput p dp
      ilock ip
      if type = T_FILE ∧ (← atomic (itype ip)) = T_FILE then return some ip
      else
        iunlockput p ip
        return none
    | none =>
      let ip ← atomic (ialloc type)
      createFill dp name type major minor ip
      iunlockput p dp
      return some ip

/-! ## 5. Open files -/

/-- `O_WRONLY`, `O_RDWR` and `O_CREATE`; `O_RDONLY` is 0. -/
abbrev O_WRONLY : Nat := 0x001

abbrev O_RDWR : Nat := 0x002

abbrev O_CREATE : Nat := 0x200

/-- The kernel with the file table entry `f` changed. -/
def Kern.setFile (k : Kern) (f : Nat) (file : OFile) : Kern :=
  { k with ftable := Function.update k.ftable f file }

/-- The kernel with the files of process `p` changed. -/
def Kern.setProc (k : Kern) (p : Pid) (files : Files) : Kern :=
  { k with proc := Function.update k.proc p files }

/-- `file` with another reference count. -/
def OFile.setRef (file : OFile) (n : Nat) : OFile := { file with ref := n }

/-- `f->ref = 0; f->type = FD_NONE`. -/
def OFile.closed (file : OFile) : OFile := { file with ref := 0, type := .none }

/-- The fields of an opened file. -/
def OFile.opened (file : OFile) (ip omode : Nat) : OFile :=
  { file with
    type := .inode
    ip := ip
    off := 0
    readable := omode &&& O_WRONLY = 0
    writable := ¬ (omode &&& O_WRONLY = 0) ∨ ¬ (omode &&& O_RDWR = 0) }

/-- `files.ofile[fd] = f`. -/
def Files.setFd (files : Files) (fd : Nat) (f : Option Nat) : Files :=
  { files with ofile := Function.update files.ofile fd f }

/-- `files.cwd = ip`. -/
def Files.setCwd (files : Files) (ip : Option Nat) : Files := { files with cwd := ip }

/-- `filealloc`. -/
def filealloc : KM (Option Nat) := do
  let k ← get
  match (List.range NFILE).find? fun f => (k.ftable f).ref = 0 with
  | none => return none
  | some f =>
    set (k.setFile f ((k.ftable f).setRef 1))
    return some f

/-- `myproc()->ofile[fd] = f`. -/
def setOfile (p : Pid) (fd : Nat) (f : Option Nat) : KM Unit := modify fun k =>
  k.setProc p ((k.proc p).setFd fd f)

/-- `fdalloc`. -/
def fdalloc (p : Pid) (f : Nat) : KM (Option Nat) := do
  let k ← get
  match (List.range NOFILE).find? fun fd => (k.proc p).ofile fd = none with
  | none => return none
  | some fd =>
    setOfile p fd (some f)
    return some fd

/-- `fileclose` under `ftable.lock`: the file, when this was its last reference. -/
def filecloseRef (f : Nat) : KM (Option OFile) := do
  let k ← get
  if (k.ftable f).ref < 1 then throw .fileclose
  else if 0 < (k.ftable f).ref - 1 then
    set (k.setFile f ((k.ftable f).setRef ((k.ftable f).ref - 1)))
    return none
  else
    set (k.setFile f (k.ftable f).closed)
    return some (k.ftable f)

/-- `fileclose`.  `pipeclose` has nothing to do with inodes. -/
def fileclose (f : Nat) : KProg Unit := do
  match ← Prog.lift (filecloseRef f) with
  | none => return ()
  | some ff =>
    if ff.type = .inode then
      atomic beginOp
      iput ff.ip
      atomic endOp

/-- `sys_open` sets the fields of the file. -/
def openInit (f ip omode : Nat) : KM Unit := modify fun k =>
  k.setFile f ((k.ftable f).opened ip omode)

/-- The inode that `sys_open` opens, locked. -/
def openInode (p : Pid) (path : List UInt8) (omode : Nat) : KProg (Option Nat) := do
  if omode &&& O_CREATE ≠ 0 then create p path T_FILE 0 0
  else
    match ← namei p path with
    | none => return none
    | some ip =>
      ilock ip
      if (← atomic (itype ip)) = T_DIR ∧ omode ≠ 0 then
        iunlockput p ip
        return none
      else return some ip

/-- `sys_open` with no file or descriptor left. -/
def openFull (p : Pid) (ip : Nat) : KProg Int := do
  iunlockput p ip
  atomic endOp
  return -1

/-- `sys_open`, once it has the inode. -/
def openFile (p : Pid) (ip omode : Nat) : KProg Int := do
  match ← Prog.lift filealloc with
  | none => openFull p ip
  | some f =>
    match ← Prog.lift (fdalloc p f) with
    | none =>
      fileclose f
      openFull p ip
    | some fd =>
      iunlock p ip
      atomic endOp
      Prog.lift (openInit f ip omode)
      return fd

/-- `sys_open`. -/
def sysOpen (p : Pid) (args : Option (List UInt8 × Nat)) : KProg Int :=
  match args with
  | none => return -1
  | some (path, omode) => do
    atomic beginOp
    match ← openInode p path omode with
    | none =>
      atomic endOp
      return -1
    | some ip => openFile p ip omode

/-- `sys_mkdir` and `sys_mknod`. -/
def sysCreate (p : Pid) (args : Option (List UInt8)) (type major minor : Int) : KProg Int := do
  atomic beginOp
  match args with
  | none =>
    atomic endOp
    return -1
  | some path =>
    match ← create p path type major minor with
    | none =>
      atomic endOp
      return -1
    | some ip =>
      iunlockput p ip
      atomic endOp
      return 0

/-- `sys_mkdir`. -/
def sysMkdir (p : Pid) (path : Option (List UInt8)) : KProg Int := sysCreate p path T_DIR 0 0

/-- `sys_mknod`.  The device numbers are `int`s passed as `short`s. -/
def sysMknod (p : Pid) (args : Option (List UInt8 × Int × Int)) : KProg Int :=
  match args with
  | none => sysCreate p none T_DEV 0 0
  | some (path, major, minor) => sysCreate p (some path) T_DEV (short major) (short minor)

/-- `curproc->cwd = ip`. -/
def setCwd (p : Pid) (ip : Option Nat) : KM Unit := modify fun k =>
  k.setProc p ((k.proc p).setCwd ip)

/-- `iput(curproc->cwd)`. -/
def iputCwd (p : Pid) : KProg Unit := do
  let cwd ← Prog.lift (getCwd p)
  iput cwd

/-- The new current directory, referenced. -/
def chdirInode (p : Pid) (path : List UInt8) : KProg (Option Nat) := do
  match ← namei p path with
  | none => return none
  | some ip =>
    ilock ip
    if (← atomic (itype ip)) ≠ T_DIR then
      iunlockput p ip
      return none
    else
      iunlock p ip
      return some ip

/-- `sys_chdir`. -/
def sysChdir (p : Pid) (path : Option (List UInt8)) : KProg Int := do
  atomic beginOp
  match path with
  | none =>
    atomic endOp
    return -1
  | some path =>
    match ← chdirInode p path with
    | none =>
      atomic endOp
      return -1
    | some ip =>
      iputCwd p
      atomic endOp
      Prog.lift (setCwd p (some ip))
      return 0

/-- `myproc()->ofile[fd]`. -/
def getOfile (p : Pid) (fd : Nat) : KM (Option Nat) := return ((← get).proc p).ofile fd

/-- `argfd`. -/
def argfd (p : Pid) (fd : Nat) : KM (Option Nat) :=
  if fd < NOFILE then getOfile p fd else return none

/-- `sys_close`. -/
def sysClose (p : Pid) (fd : Nat) : KProg Int := do
  match ← Prog.lift (argfd p fd) with
  | none => return -1
  | some f =>
    Prog.lift (setOfile p fd none)
    fileclose f
    return 0

/-! ## 6. Processes -/

/-- The process that may not exit. -/
abbrev initproc : Pid := 0

/-- The loop of `exit` over the open files. -/
def closeAll (p : Pid) : List Nat → KProg Unit
  | [] => return ()
  | fd :: fds => do
    match ← Prog.lift (getOfile p fd) with
    | none => closeAll p fds
    | some f =>
      fileclose f
      Prog.lift (setOfile p fd none)
      closeAll p fds

/-- `exit`, as far as files go. -/
def exit (p : Pid) : KProg Int := do
  if p = initproc then atomic (throw .initExiting)
  closeAll p (List.range NOFILE)
  atomic beginOp
  iputCwd p
  atomic endOp
  Prog.lift (setCwd p none)
  return 0

/-- `np->ofile[fd] = filedup(curproc->ofile[fd])`, where there is one. -/
def forkOfile (p np : Pid) (fd : Nat) : KM Unit := do
  let k ← get
  match (k.proc p).ofile fd with
  | none => return ()
  | some f =>
    if (k.ftable f).ref < 1 then throw .filedup
    else
      set (k.setFile f ((k.ftable f).setRef ((k.ftable f).ref + 1)))
      setOfile np fd (some f)

/-- `fork`, as far as files go. -/
def fork (p np : Pid) : KM Int := do
  forM (List.range NOFILE) (forkOfile p np)
  let cwd ← getCwd p
  onFs (idup cwd)
  setCwd np (some cwd)
  return 0

/-! ## 7. `exec` -/

/-- What the memory code of `exec` answers. -/
structure ExecMem where
  setupkvm : Bool
  allocuvm : Nat → Bool
  /-- The stack and the arguments. -/
  rest : Bool

/-- A little-endian field of a header. -/
def leField (bytes : List UInt8) (off len : Nat) : Nat :=
  ((List.range len).map fun i => (bytes.getD (off + i) 0).toNat * 256 ^ i).sum

/-- `readi` of exactly `n` bytes. -/
def readExactly (ip off n : Nat) : FsM (Option (List UInt8)) := do
  match ← readi ip off n with
  | none => return none
  | some bytes => return if bytes.length = n then some bytes else none

/-- The loop of `loaduvm`: a page at a time, with `fuel` pages to go. -/
def loaduvm (ip : Nat) : Nat → Nat → Nat → FsM Bool
  | 0, _, _ => return true
  | fuel + 1, off, sz => do
    if sz = 0 then return true
    else
      match ← readExactly ip (off % 2 ^ 32) (min sz 4096) with
      | none => return false
      | some _ => loaduvm ip fuel (off + 4096) (sz - 4096)

/-- One program header. -/
def execSegment (ip : Nat) (mem : ExecMem) (phoff i : Nat) : FsM Bool := do
  match ← readExactly ip ((phoff + 32 * i) % 2 ^ 32) 32 with
  | none => return false
  | some ph =>
    let filesz := leField ph 16 4
    let memsz := leField ph 20 4
    let vaddr := leField ph 8 4
    if leField ph 0 4 ≠ 1 then return true
    else if memsz < filesz then return false
    else if add32 vaddr memsz < vaddr then return false
    else if mem.allocuvm i = false then return false
    else if vaddr % 4096 ≠ 0 then return false
    else loaduvm ip (filesz / 4096 + 1) (leField ph 4 4) filesz

/-- The loop over the program headers: `n` of them to go, from `i` on. -/
def execSegments (ip : Nat) (mem : ExecMem) (phoff : Nat) : Nat → Nat → FsM Bool
  | 0, _ => return true
  | n + 1, i => do
    if ← execSegment ip mem phoff i then execSegments ip mem phoff n (i + 1)
    else return false

/-- `exec` while it holds the lock of the inode. -/
def execLoad (ip : Nat) (mem : ExecMem) : FsM Bool := do
  match ← readExactly ip 0 52 with
  | none => return false
  | some elf =>
    if leField elf 0 4 ≠ 0x464C457F then return false
    else if mem.setupkvm = false then return false
    else execSegments ip mem (leField elf 28 4) (leField elf 44 2) 0

/-- `exec`, as far as files go. -/
def exec (p : Pid) (path : List UInt8) (mem : ExecMem) : KProg Int := do
  atomic beginOp
  match ← namei p path with
  | none =>
    atomic endOp
    return -1
  | some ip =>
    ilock ip
    let ok ← atomic (execLoad ip mem)
    iunlockput p ip
    atomic endOp
    return if ok ∧ mem.rest then 0 else -1

/-! ## 8. Calls -/

/-- The system calls that take paths, with their arguments. -/
inductive PathCall
  | sysLink (args : Option (List UInt8 × List UInt8))
  | sysUnlink (path : Option (List UInt8))
  | sysOpen (args : Option (List UInt8 × Nat))
  | sysMkdir (path : Option (List UInt8))
  | sysMknod (args : Option (List UInt8 × Int × Int))
  | sysChdir (path : Option (List UInt8))
  | exec (path : List UInt8) (mem : ExecMem)

/-- The code of a call by process `p`. -/
def PathCall.prog (p : Pid) : PathCall → KProg Int
  | .sysLink args => Fs.sysLink p args
  | .sysUnlink path => Fs.sysUnlink p path
  | .sysOpen args => Fs.sysOpen p args
  | .sysMkdir path => Fs.sysMkdir p path
  | .sysMknod args => Fs.sysMknod p args
  | .sysChdir path => Fs.sysChdir p path
  | .exec path mem => Fs.exec p path mem

end Xv6.Fs
