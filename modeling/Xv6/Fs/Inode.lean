/-
# Inodes and their contents

`ialloc`, `iupdate`, `iget`, `idup`, `bmap`, `itrunc`, `readi` and `writei`.  The callers hold
the inode's sleep-lock where the source says so, hence none of these waits and each of them is
a program of `FsM`.

A pointer to an inode is its inode number.  The copying loops of `readi` and `writei` are
given the number of bytes as fuel: every pass copies at least one.
-/
import Xv6.Fs.State

namespace Xv6.Fs

/-! ## 1. The inode table and the inode cache -/

/-- `iget`: the entry of the inode, or a free entry. -/
def iget (inum : Nat) : FsM Unit := do
  let s ← get
  if 0 < s.ref inum then
    set { s with ref := Function.update s.ref inum (s.ref inum + 1) }
  else if NINODE ≤ s.used.length then throw .igetNoInodes
  else
    set { s with
      ref := Function.update s.ref inum 1
      valid := Function.update s.valid inum false
      used := inum :: s.used }

/-- `idup`. -/
def idup (ip : Nat) : FsM Unit :=
  modify fun s => { s with ref := Function.update s.ref ip (s.ref ip + 1) }

/-- The end of `iput`: `ip->ref--`. -/
def iputRef (ip : Nat) : FsM Unit := modify fun s =>
  { s with
    ref := Function.update s.ref ip (s.ref ip - 1)
    used := if s.ref ip - 1 = 0 then s.used.erase ip else s.used }

/-- `ialloc`: the first free inode gets the type, and a reference. -/
def ialloc (type : Int) : FsM Nat := do
  let s ← get
  match (List.range' 1 (s.sb.ninodes - 1)).find? fun inum => (s.dinode inum).type = 0 with
  | none => throw .noInodes
  | some inum =>
    set { s with dinode := Function.update s.dinode inum { Dinode.zero with type := type } }
    logWrite (s.sb.iblock inum)
    iget inum
    return inum

/-- `iupdate`. -/
def iupdate (ip : Nat) : FsM Unit := do
  let s ← get
  set { s with dinode := Function.update s.dinode ip (s.inode ip) }
  logWrite (s.sb.iblock ip)

/-- An assignment to fields of `*ip`. -/
def setInode (ip : Nat) (f : Dinode → Dinode) : FsM Unit :=
  modify fun s => { s with inode := Function.update s.inode ip (f (s.inode ip)) }

theorem wp_setInode {ip : Nat} {f : Dinode → Dinode} {Q : Unit → FileSys → Prop}
    {E : Panic → Prop} {s : FileSys} :
    wp (setInode ip f) Q E s ↔
      Q () { s with inode := Function.update s.inode ip (f (s.inode ip)) } := Iff.rfl

/-- `ip->addrs[i] = addr`. -/
def setAddr (ip i addr : Nat) : FsM Unit :=
  setInode ip fun d => { d with addrs := Function.update d.addrs i addr }

/-! ## 2. Blocks of an inode -/

/-- `bmap`. -/
def bmap (ip bn : Nat) : FsM Nat := do
  let s ← get
  if bn < NDIRECT then
    if (s.inode ip).addrs bn = 0 then
      let addr ← balloc
      setAddr ip bn addr
      return addr
    else return (s.inode ip).addrs bn
  else if bn - NDIRECT < NINDIRECT then
    if (s.inode ip).addrs NDIRECT = 0 then
      let addr ← balloc
      setAddr ip NDIRECT addr
    -- the indirect block is there
    let s ← get
    let ind := (s.inode ip).addrs NDIRECT
    if Bytes.getWord (s.data ind) (bn - NDIRECT) = 0 then
      let addr ← balloc
      modify fun s => { s with
        data := Function.update s.data ind
          (Bytes.setWord (s.data ind) (bn - NDIRECT) addr) }
      logWrite ind
      return addr
    else return Bytes.getWord (s.data ind) (bn - NDIRECT)
  else throw .bmapRange

/-- `itrunc`.  The indirect block is not changed while the blocks it lists are freed. -/
def itrunc (ip : Nat) : FsM Unit := do
  forM (List.range NDIRECT) fun i => do
    let s ← get
    if (s.inode ip).addrs i ≠ 0 then
      bfree ((s.inode ip).addrs i)
      setAddr ip i 0
  let s ← get
  let ind := (s.inode ip).addrs NDIRECT
  if ind ≠ 0 then
    let a := s.data ind
    forM (List.range NINDIRECT) fun j =>
      if Bytes.getWord a j ≠ 0 then bfree (Bytes.getWord a j) else pure ()
    bfree ind
    setAddr ip NDIRECT 0
  setInode ip fun d => { d with size := 0 }
  iupdate ip

/-! ## 3. Reading and writing -/

/-- The loop of `readi`. -/
def readLoop (ip : Nat) : Nat → Nat → Nat → FsM (List UInt8)
  | 0, _, _ => return []
  | fuel + 1, off, n =>
    if n = 0 then return []
    else do
      let b ← bmap ip (off / BSIZE)
      let s ← get
      let m := min n (BSIZE - off % BSIZE)
      let rest ← readLoop ip fuel (off + m) (n - m)
      return Bytes.slice (s.data b) (off % BSIZE) m ++ rest

/-- `readi(ip, dst, off, n)`: the bytes put in `dst`, or `none` for -1. -/
def readi (ip off n : Nat) : FsM (Option (List UInt8)) := do
  let s ← get
  let d := s.inode ip
  if d.type = T_DEV then
    if d.major < 0 ∨ NDEV ≤ d.major then return none
    else
      match (s.devsw d.major.toNat).read with
      | none => return none
      | some read => return read n
  else if d.size < off ∨ add32 off n < off then return none
  else
    let n := if d.size < off + n then d.size - off else n
    let bytes ← readLoop ip n off n
    return some bytes

/-- The loop of `writei`. -/
def writeLoop (ip : Nat) : Nat → Nat → List UInt8 → FsM Unit
  | 0, _, _ => return ()
  | fuel + 1, off, src =>
    if src.length = 0 then return ()
    else do
      let b ← bmap ip (off / BSIZE)
      let m := min src.length (BSIZE - off % BSIZE)
      modify fun s => { s with
        data := Function.update s.data b
          (Bytes.splice (s.data b) (off % BSIZE) (src.take m)) }
      logWrite b
      writeLoop ip fuel (off + m) (src.drop m)

/-- `writei(ip, src, off, n)` with the `n` bytes `src`. -/
def writei (ip : Nat) (src : List UInt8) (off : Nat) : FsM Int := do
  let s ← get
  let d := s.inode ip
  let n := src.length
  if d.type = T_DEV then
    if d.major < 0 ∨ NDEV ≤ d.major then return -1
    else
      match (s.devsw d.major.toNat).write with
      | none => return -1
      | some write => return write src
  else if d.size < off ∨ add32 off n < off then return -1
  else if MAXFILE * BSIZE < off + n then return -1
  else
    writeLoop ip n off src
    if 0 < n ∧ d.size < off + n then
      setInode ip fun d => { d with size := off + n }
      iupdate ip
    return n

end Xv6.Fs
