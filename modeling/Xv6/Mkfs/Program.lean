/-
# `mkfs`: the program that makes the disk

`mkfs.c` is a program of the build host.  It writes the image sector by sector: zeroes, the
superblock, and then one inode after the other, each filled by `iappend`.  `freeinode` and
`freeblock` only count up; the bitmap is written once, at the end, from `freeblock`.

The image is a file, so a sector is there when it has been written.  `rsect` of a sector behind
the end is a short read and ends the program, which is how `mkfs` notices that the disk is full.

The byte order conversions `xshort` and `xint` are in the layout of the structs (`Format.lean`).
The calls of `open`, `lseek` and `write` are taken to succeed.
-/
import Xv6.Fs.Format

namespace Xv6.Mkfs

open Fs Bytes

/-! ## 1. The layout -/

abbrev NINODES : Nat := 200

def nbitmap : Nat := FSSIZE / (BSIZE * 8) + 1
def ninodeblocks : Nat := NINODES / IPB + 1
def nlog : Nat := LOGSIZE
/-- Number of meta blocks: boot, superblock, log, inodes, bitmap. -/
def nmeta : Nat := 2 + nlog + ninodeblocks + nbitmap
def nblocks : Nat := FSSIZE - nmeta

def sb : Superblock where
  size := FSSIZE
  nblocks := nblocks
  ninodes := NINODES
  nlog := nlog
  logstart := 2
  inodestart := 2 + nlog
  bmapstart := 2 + nlog + ninodeblocks

/-! ## 2. The image -/

/-- The image file and the two counters. -/
structure Img where
  /-- Sectors in the file. -/
  nsect : Nat
  sect : Nat → Bytes
  freeinode : Nat
  freeblock : Nat

/-- How the program ends before its end. -/
inductive Exit
  /-- `perror`, `exit(1)` -/
  | perror
  /-- A failed assertion. -/
  | assert
  deriving DecidableEq, Repr

abbrev MkfsM := StateT Img (Except Exit)

def zeroes : Bytes := fun _ => 0

/-- `wsect`: the file grows when it has to. -/
def wsect (sec : Nat) (buf : Bytes) : MkfsM Unit := modify fun m =>
  { m with nsect := max m.nsect (sec + 1), sect := Function.update m.sect sec buf }

def rsect (sec : Nat) : MkfsM Bytes := do
  let m ← get
  if sec < m.nsect then return m.sect sec else throw .perror

def winode (inum : Nat) (d : Dinode) : MkfsM Unit := do
  let buf ← rsect (sb.iblock inum)
  wsect (sb.iblock inum) (storeDinode buf (inum % IPB) d)

def rinode (inum : Nat) : MkfsM Dinode := do
  let buf ← rsect (sb.iblock inum)
  return loadDinode buf (inum % IPB)

/-- The dinode that `ialloc` writes. -/
def newDinode (type : Int) : Dinode := { Dinode.zero with type := type, nlink := 1 }

def ialloc (type : Int) : MkfsM Nat := do
  let m ← get
  set { m with freeinode := m.freeinode + 1 }
  winode m.freeinode (newDinode type)
  return m.freeinode

/-- The bitmap with the first `used` bits set. -/
def bitmapOf (used : Nat) : Bytes := (List.range used).foldl setBit zeroes

def balloc (used : Nat) : MkfsM Unit := do
  if used < BSIZE * 8 then wsect sb.bmapstart (bitmapOf used) else throw .assert

/-! ## 3. Appending to a file -/

/-- `freeblock++`. -/
def newBlock : MkfsM Nat := do
  let m ← get
  set { m with freeblock := m.freeblock + 1 }
  return m.freeblock

/-- The first half of a pass of `iappend`: `x`, the block of the file with index `fbn`, and the
dinode with its address. -/
def blockFor (din : Dinode) (fbn : Nat) : MkfsM (Nat × Dinode) := do
  if fbn < NDIRECT then
    if din.addrs fbn = 0 then
      let b ← newBlock
      return (b, { din with addrs := Function.update din.addrs fbn b })
    else return (din.addrs fbn, din)
  else
    let din ← if din.addrs NDIRECT = 0 then do
        let b ← newBlock
        pure { din with addrs := Function.update din.addrs NDIRECT b }
      else pure din
    let indirect ← rsect (din.addrs NDIRECT)
    if getWord indirect (fbn - NDIRECT) = 0 then
      let b ← newBlock
      wsect (din.addrs NDIRECT) (setWord indirect (fbn - NDIRECT) b)
      return (b, din)
    else return (getWord indirect (fbn - NDIRECT), din)

/-- The loop of `iappend`.  Every pass copies at least one byte. -/
def iappendLoop : Nat → Dinode → Nat → List UInt8 → MkfsM (Dinode × Nat)
  | 0, din, off, _ => return (din, off)
  | fuel + 1, din, off, p =>
    if p.length = 0 then return (din, off)
    else do
      let fbn := off / BSIZE
      if fbn < MAXFILE then
        let (x, din) ← blockFor din fbn
        let n1 := min p.length ((fbn + 1) * BSIZE - off)
        let buf ← rsect x
        wsect x (splice buf (off - fbn * BSIZE) (p.take n1))
        iappendLoop fuel din (off + n1) (p.drop n1)
      else throw .assert

def iappend (inum : Nat) (p : List UInt8) : MkfsM Unit := do
  let din ← rinode inum
  let (din, off) ← iappendLoop p.length din din.size p
  winode inum { din with size := off }

/-! ## 4. The program -/

/-- A file of the host: the argument that names it, and what the calls of `read` return before
the one that returns 0. -/
structure HostFile where
  arg : List UInt8
  chunks : List (List UInt8)
  chunk_pos : ∀ c ∈ chunks, 0 < c.length
  chunk_le : ∀ c ∈ chunks, c.length ≤ BSIZE

/-- The character `_`. -/
abbrev underscore : UInt8 := 95

/-- The name in the file system: the argument without a leading `_`. -/
def HostFile.name (f : HostFile) : List UInt8 :=
  if f.arg.head? = some underscore then f.arg.tail else f.arg

/-- The bytes of the file. -/
def HostFile.data (f : HostFile) : List UInt8 := f.chunks.flatten

/-- One argument. -/
def addFile (f : HostFile) : MkfsM Unit := do
  if slash ∈ f.arg then throw .assert
  else
    let inum ← ialloc T_FILE
    iappend ROOTINO (Dirent.make f.name inum)
    forM f.chunks (iappend inum)

/-- `fix size of root inode dir`. -/
def fixRoot (rootino : Nat) : MkfsM Unit := do
  let din ← rinode rootino
  winode rootino { din with size := (din.size / BSIZE + 1) * BSIZE }

/-- `for(i = 0; i < n; i++) wsect(i, zeroes)`. -/
@[irreducible] def clearSects (n : Nat) : MkfsM Unit :=
  forM (List.range n) fun i => wsect i zeroes

/-- `main`.  The names of the first two entries are shorter than the field, so `strcpy` into the
zeroed entry and `strncpy` make the same bytes. -/
def main (files : List HostFile) : MkfsM Unit := do
  clearSects FSSIZE
  wsect 1 (setWords zeroes 0 sb.words)
  let rootino ← ialloc T_DIR
  if rootino ≠ ROOTINO then throw .assert
  else
    iappend rootino (Dirent.make dot rootino)
    iappend rootino (Dirent.make dotdot rootino)
    forM files addFile
    fixRoot rootino
    let m ← get
    balloc m.freeblock

/-- The image file when `main` begins: it has been truncated. -/
def emptyImg : Img := ⟨0, fun _ => zeroes, 1, nmeta⟩

/-- The image that `mkfs` writes. -/
def mkfs (files : List HostFile) : Except Exit Img :=
  match main files emptyImg with
  | .ok (_, m) => .ok m
  | .error e => .error e

end Xv6.Mkfs
