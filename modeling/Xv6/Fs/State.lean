/-
# The file system: state and disk blocks

The disk is seen through the buffer cache, which holds the newest contents of every block, and
by region: the inode blocks as a table of `struct dinode`, the bitmap as a map from block
numbers to bits, and the data blocks as bytes.  `IBLOCK` and `BBLOCK` still say which block an
access logs.

The inode cache is indexed by inode number, since there is one device and at most one entry in
use for an inode.  An entry is `inode i` (the copy of the on-disk fields), `ref i`, `valid i`
and the sleep-lock `lock i`, which names its holder; `used` lists the entries of
`icache.inode` with `ref > 0`, of which there are at most NINODE.

Code that runs without waiting is embedded in `FsM`: it passes the state and may panic.
-/
import Mathlib.Logic.Function.Basic
import Mathlib.Tactic
import Xv6.Lib.Bytes
import Xv6.Lib.Wp
import Xv6.Param

namespace Xv6.Fs

/-! ## 1. Records -/

/-- A process, by its slot in the process table. -/
abbrev Pid := Nat

/-- `a + b` on `uint`. -/
def add32 (a b : Nat) : Nat := (a + b) % 2 ^ 32

/-- `struct superblock`. -/
structure Superblock where
  size : Nat
  nblocks : Nat
  ninodes : Nat
  nlog : Nat
  logstart : Nat
  inodestart : Nat
  bmapstart : Nat

/-- The first data block: the data blocks are the last `nblocks` blocks of the disk. -/
def Superblock.datastart (sb : Superblock) : Nat := sb.size - sb.nblocks

/-- `IBLOCK(i, sb)`. -/
def Superblock.iblock (sb : Superblock) (i : Nat) : Nat := i / IPB + sb.inodestart

/-- `BBLOCK(b, sb)`. -/
def Superblock.bblock (sb : Superblock) (b : Nat) : Nat := b / BPB + sb.bmapstart

/-- `struct dinode`, and the part of `struct inode` that is a copy of it. -/
structure Dinode where
  type : Int
  major : Int
  minor : Int
  nlink : Int
  size : Nat
  /-- `addrs[0 .. NDIRECT]`; the last one is the indirect block. -/
  addrs : Nat → Nat

/-- `memset(dip, 0, sizeof(*dip))`. -/
def Dinode.zero : Dinode := ⟨0, 0, 0, 0, 0, fun _ => 0⟩

/-- An entry of `devsw`: what a read of `n` bytes and a write return, where there is one. -/
structure Dev where
  read : Option (Nat → Option (List UInt8))
  write : Option (List UInt8 → Int)

/-- The file system: the disk, the inode cache and the log. -/
structure FileSys where
  sb : Superblock
  dinode : Nat → Dinode
  bitmap : Nat → Bool
  data : Nat → Bytes
  inode : Nat → Dinode
  ref : Nat → Nat
  valid : Nat → Bool
  lock : Nat → Option Pid
  used : List Nat
  /-- `log.outstanding` -/
  outstanding : Nat
  /-- `log.lh.block[0 .. log.lh.n)` -/
  lh : List Nat
  devsw : Nat → Dev

/-- The panics of the file system. -/
inductive Panic
  /-- `balloc: out of blocks` -/
  | outOfBlocks
  /-- `freeing free block` -/
  | freeingFree
  /-- `ialloc: no inodes` -/
  | noInodes
  /-- `iget: no inodes` -/
  | igetNoInodes
  /-- `ilock` -/
  | ilock
  /-- `ilock: no type` -/
  | noType
  /-- `iunlock` -/
  | iunlock
  /-- `bmap: out of range` -/
  | bmapRange
  /-- `dirlookup not DIR` -/
  | notDir
  /-- `dirlookup read` -/
  | dirlookupRead
  /-- `dirlink read` -/
  | dirlinkRead
  /-- `dirlink` -/
  | dirlink
  /-- `isdirempty: readi` -/
  | isdirempty
  /-- `unlink: nlink < 1` -/
  | unlinkNlink
  /-- `unlink: writei` -/
  | unlinkWritei
  /-- `create dots` -/
  | createDots
  /-- `create: dirlink` -/
  | createDirlink
  /-- `too big a transaction` -/
  | tooBig
  /-- `log_write outside of trans` -/
  | outsideOfTrans
  /-- Not a panic of the kernel: an inode number behind the inode table.  The code would read
  some other block as an inode; the model stops. -/
  | inodeRange
  /-- `fileclose` -/
  | fileclose
  /-- `filedup` -/
  | filedup
  /-- `init exiting` -/
  | initExiting
  /-- `fileread` -/
  | fileread
  /-- `filewrite` -/
  | filewrite
  /-- `short filewrite` -/
  | shortFilewrite
  deriving DecidableEq, Repr

/-- A limit of the machine was reached: blocks, inodes, cache entries or log space. -/
def Panic.isLimit : Panic → Bool
  | .outOfBlocks | .noInodes | .igetNoInodes | .tooBig | .outsideOfTrans | .inodeRange => true
  | _ => false

/-- Code between two waits. -/
abbrev FsM := StateT FileSys (Except Panic)

/-- The stops that every operation may make. -/
def Limit (e : Panic) : Prop := e.isLimit = true

/-! ## 2. The log, as its callers see it -/

/-- `log_write(b)`, with log absorption. -/
def logWrite (b : Nat) : FsM Unit := do
  let s ← get
  if s.lh.length ≥ LOGSIZE ∨ s.lh.length ≥ s.sb.nlog - 1 then throw .tooBig
  else if s.outstanding < 1 then throw .outsideOfTrans
  else if b ∈ s.lh then return ()
  else set { s with lh := s.lh ++ [b] }

/-- `begin_op`, past its waiting loop. -/
def beginOp : FsM Unit := modify fun s => { s with outstanding := s.outstanding + 1 }

/-- `end_op`: the last operation commits, which empties `lh`. -/
def endOp : FsM Unit := modify fun s =>
  { s with
    outstanding := s.outstanding - 1
    lh := if s.outstanding - 1 = 0 then [] else s.lh }

/-! ## 3. Blocks -/

/-- `bzero`. -/
def bzero (b : Nat) : FsM Unit := do
  modify fun s => { s with data := Function.update s.data b fun _ => 0 }
  logWrite b

/-- `balloc`: the two loops walk over the blocks in order, up to the first clear bit. -/
def balloc : FsM Nat := do
  let s ← get
  match (List.range s.sb.size).find? fun b => !s.bitmap b with
  | none => throw .outOfBlocks
  | some b =>
    set { s with bitmap := Function.update s.bitmap b true }
    logWrite (s.sb.bblock b)
    bzero b
    return b

/-- `bfree`. -/
def bfree (b : Nat) : FsM Unit := do
  let s ← get
  if s.bitmap b = false then throw .freeingFree
  else
    set { s with bitmap := Function.update s.bitmap b false }
    logWrite (s.sb.bblock b)

/-! ## 4. Their specifications -/

theorem wp_logWrite {b : Nat} {Q : Unit → FileSys → Prop} {E : Panic → Prop} {s : FileSys}
    (hQ : ∀ lh, Q () { s with lh := lh }) (hE : ∀ e, Limit e → E e) :
    wp (logWrite b) Q E s := by
  simp only [logWrite, wp_bind, wp_get, wp_ite, wp_throw, wp_pure, wp_set]
  exact ⟨fun _ => hE _ rfl, fun _ => ⟨fun _ => hE _ rfl, fun _ => ⟨fun _ => hQ s.lh,
    fun _ => hQ _⟩⟩⟩

/-- `balloc` returns a block that was free; it is marked as used and zeroed. -/
theorem wp_balloc {Q : Nat → FileSys → Prop} {E : Panic → Prop} {s : FileSys}
    (hQ : ∀ b lh, b < s.sb.size → s.bitmap b = false →
      Q b { s with
        bitmap := Function.update s.bitmap b true
        data := Function.update s.data b fun _ => 0
        lh := lh })
    (hE : ∀ e, Limit e → E e) : wp balloc Q E s := by
  simp only [balloc, wp_bind, wp_get]
  cases hf : (List.range s.sb.size).find? fun b => !s.bitmap b with
  | none =>
    simp only [wp_throw]
    exact hE _ rfl
  | some b =>
    have hmem := List.mem_of_find?_eq_some hf
    have hbit := List.find?_some hf
    simp only [wp_bind, wp_set]
    refine wp_logWrite (fun lh => ?_) hE
    simp only [bzero, wp_bind, wp_modify]
    refine wp_logWrite (fun lh' => ?_) hE
    exact hQ b lh' (by simpa using hmem) (by simpa using hbit)

/-- `bfree` of a used block clears its bit. -/
theorem wp_bfree {b : Nat} {Q : Unit → FileSys → Prop} {E : Panic → Prop} {s : FileSys}
    (hb : s.bitmap b = true)
    (hQ : ∀ lh, Q () { s with bitmap := Function.update s.bitmap b false, lh := lh })
    (hE : ∀ e, Limit e → E e) : wp (bfree b) Q E s := by
  simp only [bfree, wp_bind, wp_get, wp_ite, wp_throw, wp_set, hb, Bool.true_eq_false,
    false_implies, not_false_eq_true, true_implies, true_and]
  exact wp_logWrite hQ hE

end Xv6.Fs
