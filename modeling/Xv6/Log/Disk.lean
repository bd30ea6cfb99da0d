/-
# The redo log on a disk that can lose power

`log.c` writes to the disk in four places: `write_log` copies the cached blocks into the log
area, `write_head` commits, `install_trans` copies the log to the home locations, and a
second `write_head` erases the transaction.  Each of them ends in `bwrite`, and a machine
can lose power before any `bwrite`.

The model runs that code in `StateT Machine (Except Disk)`.  A `Machine` carries the number
of block writes it will still make (`power`); when none is left, the next `bwrite` stops the
program, and what survives is the disk.  So "a crash after any prefix of the writes" is "for
every `power`", and the text of the code is not repeated for it.

A block write is atomic: `bwrite` either happens whole or not at all.  The buffer cache is
the map `cache`; `bread` fills it, and after a crash it is empty (`boot`).  `brelse` only
moves a buffer in the LRU list and has no effect at this level.
-/
import Xv6.Lib.Bytes
import Xv6.Lib.Wp
import Xv6.Param

namespace Xv6.Log

/-! ## 1. The machine -/

/-- The contents of every disk block. -/
abbrev Disk := Nat → Bytes

/-- The disk, the buffer cache, the in-memory log header, and the block writes left before
the power fails. -/
structure Machine where
  disk : Disk
  cache : Nat → Option Bytes
  /-- `log.lh`: the first `lh.n` entries of `lh.block`. -/
  lh : List Nat
  power : Nat

/-- Code that may lose power; the exit value is the disk as it is then. -/
abbrev LogM := StateT Machine (Except Disk)

/-- What `bread` shows for a block: the cached copy, or the disk's if none is cached. -/
def Machine.view (m : Machine) (b : Nat) : Bytes := (m.cache b).getD (m.disk b)

/-- `bread`: the block's contents, now cached. -/
def bread (b : Nat) : LogM Bytes := fun m =>
  .ok (m.view b, { m with cache := Function.update m.cache b (some (m.view b)) })

/-- `bwrite` of a buffer for block `b` holding `v`. -/
def bwrite (b : Nat) (v : Bytes) : LogM PUnit := fun m =>
  if m.power = 0 then .error m.disk
  else .ok (⟨⟩, { m with
    disk := Function.update m.disk b v
    cache := Function.update m.cache b (some v)
    power := m.power - 1 })

/-- A machine that has just booted: nothing cached, no transaction in memory. -/
def boot (d : Disk) (power : Nat) : Machine := ⟨d, fun _ => none, [], power⟩

/-! ## 2. The header block -/

/-- What a transaction in memory can be: `lh.block` has `LOGSIZE` entries, each an `int`. -/
structure Header where
  block : List Nat
  length_le : block.length ≤ LOGSIZE
  lt_two_pow : ∀ b ∈ block, b < 2 ^ 32

/-- The header block `write_head` makes out of the old one: `hb->n` is word 0 and
`hb->block[i]` is word `1 + i`; the rest of the block is kept. -/
def setHeader (buf : Bytes) (lh : List Nat) : Bytes :=
  (List.range lh.length).foldl (fun hb i => hb.setWord (1 + i) (lh.getD i 0))
    (buf.setWord 0 lh.length)

/-- The transaction a header block describes. -/
def getHeader (buf : Bytes) : List Nat :=
  (List.range (buf.getWord 0)).map fun i => buf.getWord (1 + i)

/-! ## 3. `log.c` -/

section

variable (start : Nat)

/-- Copy committed blocks from the log to their home location. -/
def installTrans : LogM PUnit := do
  let lh := (← get).lh
  forM (List.range lh.length) fun tail => do
    let lbuf ← bread (start + tail + 1)
    let _dbuf ← bread (lh.getD tail 0)
    bwrite (lh.getD tail 0) lbuf

/-- Read the log header from disk into the in-memory log header. -/
def readHead : LogM PUnit := do
  let buf ← bread start
  modify fun m => { m with lh := getHeader buf }

/-- Write the in-memory log header to disk.  This is the true point at which the current
transaction commits. -/
def writeHead : LogM PUnit := do
  let buf ← bread start
  let lh := (← get).lh
  bwrite start (setHeader buf lh)

/-- `log.lh.n = 0`. -/
def clearHead : LogM PUnit := modify fun m => { m with lh := [] }

def recoverFromLog : LogM PUnit := do
  readHead start
  installTrans start
  clearHead
  writeHead start

/-- Copy modified blocks from the cache to the log. -/
def writeLog : LogM PUnit := do
  let lh := (← get).lh
  forM (List.range lh.length) fun tail => do
    let _to ← bread (start + tail + 1)
    let src ← bread (lh.getD tail 0)
    bwrite (start + tail + 1) src

def commit : LogM PUnit := do
  let lh := (← get).lh
  if 0 < lh.length then do
    writeLog start
    writeHead start
    installTrans start
    clearHead
    writeHead start
  else pure ⟨⟩

/-! ## 4. Crashes -/

/-- Running `prog` on `m` leaves the disk `d` behind, because it was cut or because it
finished.  Every `power` of `m` gives one prefix of the writes. -/
def Leaves (prog : LogM PUnit) (m : Machine) (d : Disk) : Prop :=
  prog m = .error d ∨ ∃ m', prog m = .ok (⟨⟩, m') ∧ m'.disk = d

/-- Recovery from the disk `d`, itself cut any number of times and finally completing,
ends with the disk `d'`. -/
inductive Recovers : Disk → Disk → Prop
  | done {d : Disk} {power : Nat} {m : Machine}
      (h : recoverFromLog start (boot d power) = .ok (⟨⟩, m)) : Recovers d m.disk
  | again {d d₁ d' : Disk} {power : Nat}
      (h : recoverFromLog start (boot d power) = .error d₁) (next : Recovers d₁ d') :
      Recovers d d'

end

end Xv6.Log
