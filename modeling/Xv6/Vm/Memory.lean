/-
# Physical memory and page tables

`kalloc.c` and `vm.c`.  Physical memory is a run of bytes for each page number, and a pointer to a
page is its number: `P2V` and `V2P` only move between two names of the same page.  A page directory
and its page tables are pages like any other, read and written as words.

`kalloc` takes a page from the free list, or fails.  Which of its calls fail although there is a
page is given from outside (`fails`), so that every place where memory can run out is covered; how
often it has failed is counted (`denied`).

Where the code panics, the model stops with a `Fault`.  There is one more way to stop: `uva2ka` does
not look whether `walkpgdir` has found a page table before it reads the entry (`nullPte`).
-/
import Mathlib.Logic.Function.Basic
import Xv6.Lib.Bytes
import Xv6.Lib.Wp
import Xv6.Param

namespace Xv6.Vm

open Bytes

/-! ## 1. Addresses and entries -/

/-- `a + b` on `uint`. -/
def add32 (a b : Nat) : Nat := (a + b) % 2 ^ 32

/-- `a - b` on `uint`. -/
def sub32 (a b : Nat) : Nat := (a + 2 ^ 32 - b) % 2 ^ 32

/-- `PGROUNDUP(sz)`. -/
def pgRoundUp (sz : Nat) : Nat := add32 sz (PGSIZE - 1) / PGSIZE * PGSIZE

/-- `PGROUNDDOWN(a)`. -/
def pgRoundDown (a : Nat) : Nat := a / PGSIZE * PGSIZE

/-- `PDX(va)`. -/
def pdx (va : Nat) : Nat := va / (NPTENTRIES * PGSIZE) % NPDENTRIES

/-- `PTX(va)`. -/
def ptx (va : Nat) : Nat := va / PGSIZE % NPTENTRIES

/-- `PGADDR(d, 0, 0)`. -/
def pgAddr (d : Nat) : Nat := d * (NPTENTRIES * PGSIZE) % 2 ^ 32

/-- `pte & flag`, as a condition. -/
def hasFlag (pte flag : Nat) : Bool := pte &&& flag != 0

/-- The page that `PTE_ADDR(pte)` is the address of. -/
def pteAddr (pte : Nat) : Nat := pte / PGSIZE

/-- `PTE_FLAGS(pte)`. -/
def pteFlags (pte : Nat) : Nat := pte % PGSIZE

/-- The number of pages of an address space. -/
def NPAGES : Nat := 2 ^ 20

/-! ## 2. The machine -/

/-- Where the linker has put the kernel: `data` is the page of the symbol `data`, and `kend` the
first page behind the symbol `end`. -/
structure Layout where
  data : Nat
  kend : Nat
  text : EXTMEM / PGSIZE < data
  data_le : data ≤ kend
  kend_le : kend ≤ PHYSTOP / PGSIZE

/-- The pages that are handed to the allocator. -/
def Layout.Pool (L : Layout) (g : Nat) : Prop := L.kend ≤ g ∧ g < PHYSTOP / PGSIZE

/-- Physical memory and `kmem`. -/
structure Phys where
  page : Nat → Bytes
  freelist : List Nat
  /-- The number of calls of `kalloc`, and of those that have returned 0. -/
  calls : Nat
  denied : Nat
  /-- The calls that return 0 whatever is on the list. -/
  fails : Nat → Bool

/-- How the memory code can stop: a panic, by its text, or a step without a meaning. -/
inductive Fault
  /-- `kfree`, also the one in `deallocuvm`. -/
  | kfree
  /-- `remap`. -/
  | remap
  /-- `PHYSTOP too high`. -/
  | physTop
  /-- `inituvm: more than a page`. -/
  | inituvm
  /-- `loaduvm: addr must be page aligned`. -/
  | loadAlign
  /-- `loaduvm: address should exist`. -/
  | loadAddr
  /-- `freevm: no pgdir`. -/
  | freevm
  /-- `clearpteu`. -/
  | clearpteu
  /-- `copyuvm: pte should exist`. -/
  | copyPte
  /-- `copyuvm: page not present`. -/
  | copyPage
  /-- `userinit: out of memory?`. -/
  | userinit
  /-- The entry that a null pointer points to is read. -/
  | nullPte
  /-- A page is written through a null pointer. -/
  | nullPage
  /-- A loop has gone through the whole address space and goes on. -/
  | endless
  deriving DecidableEq, Repr

abbrev VmM := StateT Phys (Except Fault)

def setPage (g : Nat) (b : Bytes) : VmM Unit :=
  modify fun s => { s with page := Function.update s.page g b }

/-- `memset(p, 0, PGSIZE)`. -/
def zeroPage (g : Nat) : VmM Unit := setPage g fun _ => 0

/-- `memmove(p + off, src, n)`. -/
def memmove (g off : Nat) (src : List UInt8) : VmM Unit := do
  let s ← get
  setPage g (splice (s.page g) off src)

/-- A pointer to an entry: the page, and which of its words. -/
abbrev Entry := Nat × Nat

/-- `*pte`. -/
def load (pte : Entry) : VmM Nat := do
  let s ← get
  return getWord (s.page pte.1) pte.2

/-- `*pte = w`. -/
def store (pte : Entry) (w : Nat) : VmM Unit := do
  let s ← get
  setPage pte.1 (setWord (s.page pte.1) pte.2 w)

/-! ## 3. `kalloc.c` -/

def kalloc : VmM (Option Nat) := do
  let s ← get
  match s.freelist with
  | g :: gs =>
    if s.fails s.calls then do
      set { s with calls := s.calls + 1, denied := s.denied + 1 }
      return none
    else do
      set { s with calls := s.calls + 1, freelist := gs }
      return some g
  | [] => do
    set { s with calls := s.calls + 1, denied := s.denied + 1 }
    return none

def kfree (L : Layout) (g : Nat) : VmM Unit := do
  if g < L.kend ∨ PHYSTOP / PGSIZE ≤ g then
    throw .kfree
  setPage g fun _ => 1
  modify fun s => { s with freelist := g :: s.freelist }

/-! ## 4. Page tables -/

def walkpgdir (pgdir va : Nat) (alloc : Bool) : VmM (Option Entry) := do
  let pde ← load (pgdir, pdx va)
  if hasFlag pde PTE_P then
    return some (pteAddr pde, ptx va)
  else if alloc then
    match ← kalloc with
    | none => return none
    | some pgtab => do
      zeroPage pgtab
      store (pgdir, pdx va) (pgtab * PGSIZE ||| PTE_P ||| PTE_W ||| PTE_U)
      return some (pgtab, ptx va)
  else return none

/-- The loop of `mappages`, at the page `a` of the range that ends with the page `last`. -/
def mappagesLoop (pgdir last perm : Nat) : Nat → Nat → Nat → VmM Int
  | 0, _, _ => throw .endless
  | fuel + 1, a, pa => do
    match ← walkpgdir pgdir a true with
    | none => return -1
    | some pte => do
      let old ← load pte
      if hasFlag old PTE_P then
        throw .remap
      store pte (pa ||| perm ||| PTE_P)
      if a = last then
        return 0
      else mappagesLoop pgdir last perm fuel (add32 a PGSIZE) (add32 pa PGSIZE)

def mappages (pgdir va size pa perm : Nat) : VmM Int :=
  mappagesLoop pgdir (pgRoundDown (sub32 (add32 va size) 1)) perm NPAGES (pgRoundDown va) pa

/-- The loop of `deallocuvm`. -/
def deallocuvmLoop (L : Layout) (pgdir oldsz : Nat) : Nat → Nat → VmM Unit
  | 0, _ => throw .endless
  | fuel + 1, a =>
    if a < oldsz then do
      match ← walkpgdir pgdir a false with
      | none => deallocuvmLoop L pgdir oldsz fuel (add32 (sub32 (pgAddr (pdx a + 1)) PGSIZE) PGSIZE)
      | some pte => do
        let w ← load pte
        if hasFlag w PTE_P then do
          if pteAddr w = 0 then
            throw .kfree
          kfree L (pteAddr w)
          store pte 0
        deallocuvmLoop L pgdir oldsz fuel (add32 a PGSIZE)
    else return ()

def deallocuvm (L : Layout) (pgdir oldsz newsz : Nat) : VmM Nat := do
  if oldsz ≤ newsz then
    return oldsz
  else do
    deallocuvmLoop L pgdir oldsz NPAGES (pgRoundUp newsz)
    return newsz

/-- The second loop of `freevm`, with the entry `i` and as many as `n` in all to go. -/
def freeTables (L : Layout) (pgdir : Nat) : Nat → Nat → VmM Unit
  | 0, _ => return ()
  | n + 1, i => do
    let pde ← load (pgdir, i)
    if hasFlag pde PTE_P then
      kfree L (pteAddr pde)
    freeTables L pgdir n (i + 1)

/-- `freevm`, of a directory that is there. -/
def freevm (L : Layout) (pgdir : Nat) : VmM Unit := do
  if pgdir = 0 then
    throw .freevm
  let _ ← deallocuvm L pgdir KERNBASE 0
  freeTables L pgdir NPDENTRIES 0
  kfree L pgdir

/-- The loop of `allocuvm`. -/
def allocuvmLoop (L : Layout) (pgdir oldsz newsz : Nat) : Nat → Nat → VmM Nat
  | 0, _ => throw .endless
  | fuel + 1, a =>
    if a < newsz then do
      match ← kalloc with
      | none => do
        let _ ← deallocuvm L pgdir newsz oldsz
        return 0
      | some mem => do
        zeroPage mem
        if (← mappages pgdir a PGSIZE (mem * PGSIZE) (PTE_W ||| PTE_U)) < 0 then do
          let _ ← deallocuvm L pgdir newsz oldsz
          kfree L mem
          return 0
        else allocuvmLoop L pgdir oldsz newsz fuel (add32 a PGSIZE)
    else return newsz

-- kept closed: its first test is against `KERNBASE`, which must not be counted down to 0
@[irreducible] def allocuvm (L : Layout) (pgdir oldsz newsz : Nat) : VmM Nat :=
  if KERNBASE ≤ newsz then return 0
  else if newsz < oldsz then return oldsz
  else allocuvmLoop L pgdir oldsz newsz NPAGES (pgRoundUp oldsz)

/-! ## 5. The kernel's part -/

/-- `struct kmap`. -/
structure Kmap where
  virt : Nat
  physStart : Nat
  physEnd : Nat
  perm : Nat

/-- The table `kmap`. -/
def kmap (L : Layout) : List Kmap :=
  [⟨KERNBASE, 0, EXTMEM, PTE_W⟩,
    ⟨KERNLINK, EXTMEM, L.data * PGSIZE, 0⟩,
    ⟨KERNBASE + L.data * PGSIZE, L.data * PGSIZE, PHYSTOP, PTE_W⟩,
    ⟨DEVSPACE, DEVSPACE, 0, PTE_W⟩]

/-- The loop of `setupkvm`. -/
def setupkvmLoop (L : Layout) (pgdir : Nat) : List Kmap → VmM (Option Nat)
  | [] => return some pgdir
  | k :: ks => do
    if (← mappages pgdir k.virt (sub32 k.physEnd k.physStart) k.physStart k.perm) < 0 then do
      freevm L pgdir
      return none
    else setupkvmLoop L pgdir ks

def setupkvm (L : Layout) : VmM (Option Nat) := do
  match ← kalloc with
  | none => return none
  | some pgdir => do
    zeroPage pgdir
    if DEVSPACE < KERNBASE + PHYSTOP then
      throw .physTop
    setupkvmLoop L pgdir (kmap L)

/-! ## 6. User memory -/

/-- `inituvm`, whose caller does not look what `mappages` has returned. -/
def inituvm (pgdir : Nat) (init : List UInt8) : VmM Unit := do
  if PGSIZE ≤ init.length then
    throw .inituvm
  match ← kalloc with
  | none => throw .nullPage
  | some mem => do
    zeroPage mem
    let _ ← mappages pgdir 0 PGSIZE (mem * PGSIZE) (PTE_W ||| PTE_U)
    memmove mem 0 init

def clearpteu (pgdir uva : Nat) : VmM Unit := do
  match ← walkpgdir pgdir uva false with
  | none => throw .clearpteu
  | some pte => do
    let w ← load pte
    store pte (w &&& (2 ^ 32 - 1 - PTE_U))

/-- The loop of `copyuvm`; `false` stands for `goto bad`. -/
def copyuvmLoop (L : Layout) (pgdir d sz : Nat) : Nat → Nat → VmM Bool
  | 0, _ => throw .endless
  | fuel + 1, i =>
    if i < sz then do
      match ← walkpgdir pgdir i false with
      | none => throw .copyPte
      | some pte => do
        let w ← load pte
        if hasFlag w PTE_P = false then
          throw .copyPage
        match ← kalloc with
        | none => return false
        | some mem => do
          let s ← get
          setPage mem (s.page (pteAddr w))
          if (← mappages d i PGSIZE (mem * PGSIZE) (pteFlags w)) < 0 then do
            kfree L mem
            return false
          else copyuvmLoop L pgdir d sz fuel (add32 i PGSIZE)
    else return true

def copyuvm (L : Layout) (pgdir sz : Nat) : VmM (Option Nat) := do
  match ← setupkvm L with
  | none => return none
  | some d => do
    if ← copyuvmLoop L pgdir d sz NPAGES 0 then
      return some d
    else do
      freevm L d
      return none

/-- The page that `uva2ka` returns a pointer to. -/
def uva2ka (pgdir uva : Nat) : VmM (Option Nat) := do
  match ← walkpgdir pgdir uva false with
  | none => throw .nullPte
  | some pte => do
    let w ← load pte
    if hasFlag w PTE_P = false then return none
    else if hasFlag w PTE_U = false then return none
    else return some (pteAddr w)

/-- The loop of `copyout`: `buf` is what is left to be copied. -/
def copyoutLoop (pgdir : Nat) : Nat → Nat → List UInt8 → VmM Int
  | 0, _, _ => throw .endless
  | fuel + 1, va, buf =>
    if 0 < buf.length then do
      let va0 := pgRoundDown va
      match ← uva2ka pgdir va0 with
      | none => return -1
      | some pa0 => do
        let n := min (PGSIZE - (va - va0)) buf.length
        memmove pa0 (va - va0) (buf.take n)
        copyoutLoop pgdir fuel (add32 va0 PGSIZE) (buf.drop n)
    else return 0

def copyout (pgdir va : Nat) (p : List UInt8) : VmM Int := copyoutLoop pgdir NPAGES va p

/-- `readi(ip, dst, off, n)` on a file with the bytes `file`: what is put into `dst`, and `none` for
the answer -1. -/
def readi (file : List UInt8) (off n : Nat) : Option (List UInt8) :=
  if file.length < off ∨ add32 off n < off then none else some ((file.drop off).take n)

/-- The loop of `loaduvm`. -/
def loaduvmLoop (pgdir addr : Nat) (file : List UInt8) (offset sz : Nat) : Nat → Nat → VmM Int
  | 0, _ => throw .endless
  | fuel + 1, i =>
    if i < sz then do
      match ← walkpgdir pgdir (add32 addr i) false with
      | none => throw .loadAddr
      | some pte => do
        let w ← load pte
        let n := min (sz - i) PGSIZE
        match readi file (add32 offset i) n with
        | none => return -1
        | some bytes => do
          memmove (pteAddr w) 0 bytes
          if bytes.length ≠ n then return -1
          else loaduvmLoop pgdir addr file offset sz fuel (add32 i PGSIZE)
    else return 0

def loaduvm (pgdir addr : Nat) (file : List UInt8) (offset sz : Nat) : VmM Int :=
  if addr % PGSIZE ≠ 0 then throw .loadAlign
  else loaduvmLoop pgdir addr file offset sz NPAGES 0

end Xv6.Vm
