/-
# The other calls of `sysfile.c`

`sys_dup`, `sys_read`, `sys_write`, `sys_fstat`, `sys_pipe` and `sys_getfsinfo`, with the parts of
`file.c`, `pipe.c` and `fs.c` below them.  As in `Fs.Call`, an argument that could not be fetched
is `none`.

Of a pipe there are only its two open files here; what goes through it is elsewhere, and what
`kalloc` answers to `pipealloc` is a parameter.
-/
import Xv6.Fs.Call
import Xv6.Fs.FileIo

namespace Xv6.Fs

/-! ## 1. Reading, writing and `fstat` -/

/-- The file table. -/
abbrev Ftable := Nat → OFile

/-- A pipe whose reads and writes answer anything, and have nothing to do with the disk. -/
def PipeIo.answers (read : Nat → Option (List UInt8)) (write : List UInt8 → Int) : PipeIo where
  read n := return read n
  write src := return write src

/-- `struct stat`. -/
structure Stat where
  type : Int
  dev : Nat
  ino : Nat
  nlink : Int
  size : Nat
  deriving DecidableEq, Repr

/-- `stati`. -/
def stati (ip : Nat) : FsM Stat := do
  let d := (← get).inode ip
  return { type := d.type, dev := ROOTDEV, ino := ip, nlink := d.nlink, size := d.size }

/-- `filestat`: the result, or `none` for -1. -/
def filestat (p : Pid) (f : Nat) : KProg (Option Stat) := do
  let file ← Prog.lift (getFile f)
  if file.type = .inode then
    let st ← underLock p file.ip (onFs (stati file.ip))
    return some st
  else return none

/-- `sys_read`, of up to `n` bytes. -/
def sysRead (io : PipeIo) (p : Pid) (args : Option (Nat × Nat)) : KProg Ret :=
  match args with
  | none => return (-1, [])
  | some (fd, n) => do
    match ← Prog.lift (argfd p fd) with
    | none => return (-1, [])
    | some f =>
      let r ← fileread io p f n
      return readRet r

/-- `sys_write`, of the bytes `src`. -/
def sysWrite (io : PipeIo) (p : Pid) (args : Option (Nat × List UInt8)) : KProg Int :=
  match args with
  | none => return -1
  | some (fd, src) => do
    match ← Prog.lift (argfd p fd) with
    | none => return -1
    | some f => filewrite io p f src

/-- `sys_fstat`. -/
def sysFstat (p : Pid) (args : Option Nat) : KProg (Option Stat) :=
  match args with
  | none => return none
  | some fd => do
    match ← Prog.lift (argfd p fd) with
    | none => return none
    | some f => filestat p f

/-! ## 2. `sys_dup` and `sys_pipe` -/

/-- `filedup`. -/
def filedup (f : Nat) : KM Unit := do
  let k ← get
  if (k.ftable f).ref < 1 then throw .filedup
  else set (k.setFile f ((k.ftable f).setRef ((k.ftable f).ref + 1)))

/-- `sys_dup`. -/
def sysDup (p : Pid) (fd : Nat) : KProg Int := do
  match ← Prog.lift (argfd p fd) with
  | none => return -1
  | some f =>
    match ← Prog.lift (fdalloc p f) with
    | none => return -1
    | some fd =>
      Prog.lift (filedup f)
      return fd

/-- One end of a pipe. -/
def OFile.pipeEnd (file : OFile) (readable : Bool) : OFile :=
  { file with type := .pipe, readable := readable, writable := !readable }

/-- The two files of a new pipe. -/
def pipeInit (f₀ f₁ : Nat) : KM Unit := modify fun k =>
  let k := k.setFile f₀ ((k.ftable f₀).pipeEnd true)
  k.setFile f₁ ((k.ftable f₁).pipeEnd false)

/-- `pipealloc`; `page` says whether `kalloc` has one. -/
def pipealloc (page : Bool) : KProg (Option (Nat × Nat)) := do
  match ← Prog.lift filealloc with
  | none => return none
  | some f₀ =>
    match ← Prog.lift filealloc with
    | none =>
      fileclose f₀
      return none
    | some f₁ =>
      if page then
        Prog.lift (pipeInit f₀ f₁)
        return some (f₀, f₁)
      else
        fileclose f₀
        fileclose f₁
        return none

/-- `sys_pipe` without two descriptors. -/
def pipeFull (rf wf : Nat) : KProg Int := do
  fileclose rf
  fileclose wf
  return -1

/-- `sys_pipe`; without arguments, the pointer was a bad one. -/
def sysPipe (p : Pid) (args : Option Bool) : KProg Int :=
  match args with
  | none => return -1
  | some page => do
    match ← pipealloc page with
    | none => return -1
    | some (rf, wf) =>
      match ← Prog.lift (fdalloc p rf) with
      | none => pipeFull rf wf
      | some fd₀ =>
        match ← Prog.lift (fdalloc p wf) with
        | none =>
          Prog.lift (setOfile p fd₀ none)
          pipeFull rf wf
        | some _ => return 0

/-! ## 3. `sys_getfsinfo` -/

/-- `struct fsinfo`. -/
structure FsInfo where
  num_files : Nat
  num_dirs : Nat
  allocated_inodes : Nat
  free_disk_blocks : Nat
  deriving DecidableEq, Repr

/-- One inode is counted. -/
def FsInfo.countInode (fsi : FsInfo) (d : Dinode) : FsInfo :=
  if d.type ≠ 0 then
    { fsi with
      allocated_inodes := fsi.allocated_inodes + 1
      num_files := if d.type = T_FILE then fsi.num_files + 1 else fsi.num_files
      num_dirs := if d.type = T_DIR then fsi.num_dirs + 1 else fsi.num_dirs }
  else fsi

/-- The loop of `get_fs_stats` over the inodes. -/
def statInodes : List Nat → FsInfo → KProg FsInfo
  | [], fsi => return fsi
  | i :: is, fsi => do
    let fsi ← atomic do return fsi.countInode ((← get).dinode i)
    statInodes is fsi

/-- The clear bits of the bitmap block of block `b`. -/
def clearBits (s : FileSys) (b : Nat) : Nat :=
  (List.range BPB).countP fun bi => b + bi < s.sb.size && !s.bitmap (b + bi)

/-- The loop of `get_fs_stats` over the bitmap blocks. -/
def statBitmap : List Nat → FsInfo → KProg FsInfo
  | [], fsi => return fsi
  | b :: bs, fsi => do
    let n ← atomic do return clearBits (← get) b
    statBitmap bs { fsi with free_disk_blocks := fsi.free_disk_blocks + n }

/-- The first blocks that the bitmap blocks are about. -/
def bitmapStarts (size : Nat) : List Nat := (List.range ((size + (BPB - 1)) / BPB)).map (BPB * ·)

/-- `get_fs_stats`. -/
def getFsStats : KProg FsInfo := do
  let sb ← atomic do return (← get).sb
  let fsi ← statInodes (List.range' 1 (sb.ninodes - 1)) ⟨0, 0, 0, 0⟩
  statBitmap (bitmapStarts sb.size) fsi

/-- `sys_getfsinfo`; `arg` says whether the pointer was good. -/
def sysGetfsinfo (arg : Bool) : KProg (Option FsInfo) :=
  if arg then do
    let fsi ← getFsStats
    return some fsi
  else return none

end Xv6.Fs
