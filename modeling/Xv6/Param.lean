/-
# Kernel parameters

The `#define`s of `param.h`, `fs.h`, `stat.h`, `mmu.h`, `memlayout.h` and `elf.h` that the model
uses.  They are reducible, so that arithmetic sees the numbers.
-/
import Mathlib.Tactic

namespace Xv6

/-! ## `param.h` -/

/-- Maximum number of processes. -/
abbrev NPROC : Nat := 64
/-- Open files per process. -/
abbrev NOFILE : Nat := 16
/-- Open files per system. -/
abbrev NFILE : Nat := 100
/-- Maximum number of active inodes. -/
abbrev NINODE : Nat := 50
/-- Maximum major device number. -/
abbrev NDEV : Nat := 10
/-- Maximum number of blocks any file system operation writes. -/
abbrev MAXOPBLOCKS : Nat := 10
/-- Maximum number of data blocks in the on-disk log: `MAXOPBLOCKS*3`. -/
abbrev LOGSIZE : Nat := 30
/-- Size of the disk block cache: `MAXOPBLOCKS*3`. -/
abbrev NBUF : Nat := 30
/-- Size of the file system in blocks. -/
abbrev FSSIZE : Nat := 1000
/-- Device number of the file system's disk. -/
abbrev ROOTDEV : Nat := 1
/-- Maximum number of arguments of `exec`. -/
abbrev MAXARG : Nat := 32

/-! ## `fs.h` -/

/-- Block size. -/
abbrev BSIZE : Nat := 512
/-- Root i-number. -/
abbrev ROOTINO : Nat := 1
/-- Direct blocks of an inode. -/
abbrev NDIRECT : Nat := 12
/-- Block numbers in an indirect block. -/
abbrev NINDIRECT : Nat := 128
/-- Blocks of a file: `NDIRECT + NINDIRECT`. -/
abbrev MAXFILE : Nat := 140
/-- Inodes per block. -/
abbrev IPB : Nat := 8
/-- Bitmap bits per block. -/
abbrev BPB : Nat := 4096
/-- Length of a name in a directory entry. -/
abbrev DIRSIZ : Nat := 14

/-! ## `stat.h` -/

abbrev T_DIR : Int := 1
abbrev T_FILE : Int := 2
abbrev T_DEV : Int := 3

/-! ## `mmu.h` -/

/-- Bytes mapped by a page. -/
abbrev PGSIZE : Nat := 4096
/-- Directory entries per page directory. -/
abbrev NPDENTRIES : Nat := 1024
/-- Entries per page table. -/
abbrev NPTENTRIES : Nat := 1024
/-- Present. -/
abbrev PTE_P : Nat := 1
/-- Writeable. -/
abbrev PTE_W : Nat := 2
/-- User. -/
abbrev PTE_U : Nat := 4

/-! ## `memlayout.h` -/

/-- Start of extended memory. -/
abbrev EXTMEM : Nat := 0x100000
/-- Top of physical memory. -/
abbrev PHYSTOP : Nat := 0xE000000
/-- Other devices are at high addresses. -/
abbrev DEVSPACE : Nat := 0xFE000000
/-- First kernel virtual address. -/
abbrev KERNBASE : Nat := 0x80000000
/-- Address where the kernel is linked: `KERNBASE+EXTMEM`. -/
abbrev KERNLINK : Nat := 0x80100000

/-! ## `elf.h` -/

/-- The first four bytes of an ELF file, as a word. -/
abbrev ELF_MAGIC : Nat := 0x464C457F
/-- The type of a segment that is to be loaded. -/
abbrev ELF_PROG_LOAD : Nat := 1

end Xv6
