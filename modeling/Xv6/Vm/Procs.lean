/-
# The memory of all processes

`proc.c`, `sysproc.c` and `pipe.c`, as far as pages go.  The kernel has the process table, and for
each slot the kernel stack and the program with its address space; it has the pipes, each in a page
of its own; and it has taken some pages before the first process was made, for its own page table
and for the stacks of the other processors.

Each call runs to its end.  The calls that give a page back do not look who else may have it: that
every page is in one place only is what has to be shown (`Xv6.Vm.Ownership`).

What a kernel stack and a pipe hold is left out.
-/
import Xv6.Proc.Table
import Xv6.Vm.ExecSpec

namespace Xv6.Vm

/-! ## 1. The kernel -/

/-- `struct pipe`: its page, and which ends are open. -/
structure PipePage where
  page : Nat
  readopen : Bool
  writeopen : Bool
  deriving DecidableEq, Repr

/-- The pipe without an end. -/
def PipePage.close (p : PipePage) (writable : Bool) : PipePage :=
  if writable then { p with writeopen := false } else { p with readopen := false }

structure Kern where
  table : Ptable
  kstack : Slot → Nat
  uproc : Slot → Uproc
  pipes : List PipePage
  /-- The pages that were taken before `userinit`. -/
  boot : List Nat
  phys : Phys

abbrev KernM := StateT Kern (Except Fault)

/-- A call that only changes physical memory. -/
def onPhys {α : Type} (m : VmM α) : KernM α := fun k =>
  match m k.phys with
  | .ok (a, s) => .ok (a, { k with phys := s })
  | .error e => .error e

namespace Kern

def setTable (t : Ptable) : KernM Unit := modify fun k => { k with table := t }

def setKstack (i : Slot) (g : Nat) : KernM Unit :=
  modify fun k => { k with kstack := Function.update k.kstack i g }

def setUproc (i : Slot) (p : Uproc) : KernM Unit :=
  modify fun k => { k with uproc := Function.update k.uproc i p }

/-! ## 2. `proc.c` -/

def allocproc : KernM (Option Slot) := do
  let k ← get
  match k.table.allocproc with
  | none => return none
  | some (i, t) => do
    setTable t
    match ← onPhys kalloc with
    | none => do
      setKstack i 0
      setTable (t.forkFail i)
      return none
    | some g => do
      setKstack i g
      return some i

/-- The place of `eax` in `struct trapframe`. -/
abbrev EAX : Nat := 7

/-- The segment registers and `eflags` of the first process, by their places in
`struct trapframe`. -/
def initRegs : Nat → Nat
  | 10 | 11 | 18 => 35
  | 15 => 27
  | 16 => 512
  | _ => 0

/-- `userinit`, with the program `init`. -/
def userinit (L : Layout) (init : List UInt8) : KernM Unit := do
  match ← allocproc with
  | none => throw .nullPage
  | some i => do
    modify fun k => { k with table := { k.table with initproc := i } }
    match ← onPhys (setupkvm L) with
    | none => throw .userinit
    | some pgdir => do
      onPhys (inituvm pgdir init)
      setUproc i ⟨pgdir, PGSIZE, [105, 110, 105, 116, 99, 111, 100, 101], ⟨0, PGSIZE, initRegs⟩⟩
      modify fun k => { k with table := k.table.setState i .runnable }

def fork (L : Layout) (cur : Slot) : KernM Int := do
  match ← allocproc with
  | none => return -1
  | some np => do
    let k ← get
    let p := k.uproc cur
    match ← onPhys (copyuvm L p.pgdir p.sz) with
    | none => do
      setUproc np { k.uproc np with pgdir := 0 }
      onPhys (kfree L (k.kstack np))
      setKstack np 0
      setTable (k.table.forkFail np)
      return -1
    | some d => do
      setUproc np ⟨d, p.sz, p.name, { p.tf with regs := Function.update p.tf.regs EAX 0 }⟩
      setTable (k.table.forkDone cur np)
      return (k.table.proc np).pid

def growproc (L : Layout) (cur : Slot) (n : Int) : KernM Int := do
  let k ← get
  let x ← onPhys (Vm.growproc L (k.uproc cur) n)
  setUproc cur x.2
  return x.1

def exec (L : Layout) (cur : Slot) (path : List UInt8) (file : Option (List UInt8))
    (args : List (List UInt8)) : KernM Int := do
  let k ← get
  let x ← onPhys (Vm.exec L (k.uproc cur) path file args)
  setUproc cur x.2
  return x.1

/-- `exit`, when the files are closed.  Where the last descriptor of a pipe's end goes with the
process, that end has been closed by `pipeclose`. -/
def exit (cur : Slot) : KernM Unit := do
  let k ← get
  setTable (k.table.exit cur)

/-- One scan of `wait`. -/
def wait (L : Layout) (cur : Slot) : KernM Int := do
  let k ← get
  match k.table.find fun p => p.parent = some cur ∧ p.state = .zombie with
  | some i => do
    onPhys (kfree L (k.kstack i))
    setKstack i 0
    onPhys (freevm L (k.uproc i).pgdir)
    setUproc i { k.uproc i with name := [] }
    setTable (k.table.wait cur).2
    return (k.table.proc i).pid
  | none => do
    setTable (k.table.wait cur).2
    return -1

/-! ## 3. `pipe.c` -/

/-- `pipealloc`; `files` says whether there are two files for it. -/
def pipealloc (files : Bool) : KernM Int :=
  if files then do
    match ← onPhys kalloc with
    | none => return -1
    | some g => do
      modify fun k => { k with pipes := ⟨g, true, true⟩ :: k.pipes }
      return 0
  else return -1

def pipeclose (L : Layout) (p : PipePage) (writable : Bool) : KernM Unit :=
  if (p.close writable).readopen = false ∧ (p.close writable).writeopen = false then do
    onPhys (kfree L p.page)
    modify fun k => { k with pipes := k.pipes.erase p }
  else modify fun k => { k with pipes := p.close writable :: k.pipes.erase p }

/-! ## 4. `sysproc.c` -/

def sysGetmemsize (k : Kern) (cur : Slot) : Nat := (k.uproc cur).sz

def sysGetvpages (k : Kern) (cur : Slot) : Nat := add32 (k.uproc cur).sz (PGSIZE - 1) / PGSIZE

end Kern

/-- The loop of `sys_getptentries`, at the address `a`. -/
def ptentriesLoop (pgdir sz : Nat) : Nat → Nat → Nat → VmM Nat
  | 0, _, _ => throw .endless
  | fuel + 1, a, count =>
    if a < sz then do
      let pde ← load (pgdir, pdx a)
      if hasFlag pde PTE_P = false then ptentriesLoop pgdir sz fuel (add32 a PGSIZE) count
      else do
        let w ← load (pteAddr pde, ptx a)
        ptentriesLoop pgdir sz fuel (add32 a PGSIZE)
          (if hasFlag w PTE_P = true then count + 1 else count)
    else return count

namespace Kern

def sysGetptentries (cur : Slot) : KernM Nat := do
  let k ← get
  onPhys (ptentriesLoop (k.uproc cur).pgdir (k.uproc cur).sz NPAGES 0 0)

end Kern

/-! ## 5. Runs -/

inductive Act
  | fork (cur : Slot)
  | growproc (cur : Slot) (n : Int)
  | exec (cur : Slot) (path : List UInt8) (file : Option (List UInt8)) (args : List (List UInt8))
  | exit (cur : Slot)
  | wait (cur : Slot)
  | pipealloc (files : Bool)
  | pipeclose (p : PipePage) (writable : Bool)

namespace Kern

/-- A process that can call the kernel. -/
def Alive (k : Kern) (i : Slot) : Prop :=
  (k.table.proc i).state = .sleeping ∨ (k.table.proc i).state = .runnable ∨
    (k.table.proc i).state = .running

/-- A living process calls; `initproc` does not exit (`init exiting`); an end of a pipe is closed
once. -/
def Allowed (k : Kern) : Act → Prop
  | .fork cur => k.Alive cur
  | .growproc cur n => k.Alive cur ∧ -2 ^ 31 ≤ n ∧ n < 2 ^ 31
  | .exec cur _ _ args => k.Alive cur ∧ ∀ arg ∈ args, arg.length < KERNBASE
  | .exit cur => k.Alive cur ∧ cur ≠ k.table.initproc
  | .wait cur => k.Alive cur
  | .pipealloc _ => True
  | .pipeclose p writable => p ∈ k.pipes ∧ (if writable then p.writeopen else p.readopen) = true

/-- The call, with what it returns. -/
def run (L : Layout) : Act → KernM Int
  | .fork cur => fork L cur
  | .growproc cur n => growproc L cur n
  | .exec cur path file args => exec L cur path file args
  | .exit cur => do
    exit cur
    return 0
  | .wait cur => wait L cur
  | .pipealloc files => pipealloc files
  | .pipeclose p writable => do
    pipeclose L p writable
    return 0

end Kern

/-- The pages that are handed to the allocator. -/
def Layout.pages (L : Layout) : Multiset Nat := List.range' L.kend (PHYSTOP / PGSIZE - L.kend)

/-- Before `userinit`: no process, no pipe, and what has not been taken is free. -/
structure Fresh (L : Layout) (k : Kern) : Prop where
  unused : ∀ i, (k.table.proc i).state = .unused
  pipes : k.pipes = []
  total : (k.boot : Multiset Nat) + k.phys.free = L.pages

/-- The states of runs whose calls meet `C`, which also sees what they return. -/
inductive Reach (L : Layout) (C : Act → Int → Prop) : Kern → Prop
  /-- `userinit` gets the memory that it asks for. -/
  | boot {k k' : Kern} {init : List UInt8} {u : Unit} : Fresh L k →
    Kern.userinit L init k = .ok (u, k') → k'.phys.denied = k.phys.denied → Reach L C k'
  | step {k k' : Kern} {a : Act} {r : Int} : Reach L C k → k.Allowed a →
    Kern.run L a k = .ok (r, k') → C a r → Reach L C k'

end Xv6.Vm
