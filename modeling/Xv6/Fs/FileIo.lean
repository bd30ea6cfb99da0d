/-
# Files behave as byte arrays

`fileread` and `filewrite`, and `readi` and `writei` under an inode's lock, one call after
another.  Below is the code; above it the abstract model, in which an inode is an array of bytes
and an open file is a position in one (`Arrays`).  A call of the code does to the view what the
call does to the arrays, and touches one inode only.

`filewrite` cuts its data into pieces, each of them a transaction of its own, so that none
outgrows the log.  A direct `writei` is one transaction whatever its length: with more than
MAXWRITE bytes it can run into the limit of `log_write`.
-/
import Xv6.Fs.Blocks
import Xv6.Fs.Budget

namespace Xv6.Fs

open Function (update update_eq_self update_idem update_of_ne update_self)
open Prog (bind_eq_bind wp_seq_bind wp_seq_ite wp_seq_lift wp_seq_ret)

open Bytes

/-! ## 1. The code -/

/-- `piperead` and `pipewrite`. -/
structure PipeIo where
  read : Nat → KProg (Option (List UInt8))
  write : List UInt8 → KProg Int

/-- The most bytes `filewrite` gives to one `writei`. -/
abbrev MAXWRITE : Nat := (MAXOPBLOCKS - 1 - 1 - 2) / 2 * 512

/-- `f->off += r`. -/
def OFile.advance (file : OFile) (r : Nat) : OFile := { file with off := add32 file.off r }

/-- `*f`. -/
def getFile (f : Nat) : KM OFile := return (← get).ftable f

/-- `if((r = readi(f->ip, addr, f->off, n)) > 0) f->off += r`. -/
def fileReadi (f n : Nat) : KM (Option (List UInt8)) := do
  let file ← getFile f
  let r ← onFs (readi file.ip file.off n)
  match r with
  | some bytes =>
    if 0 < bytes.length then modify fun k => k.setFile f ((k.ftable f).advance bytes.length)
    return some bytes
  | none => return none

/-- `if((r = writei(f->ip, addr + i, f->off, n1)) > 0) f->off += r`. -/
def fileWritei (f : Nat) (src : List UInt8) : KM Int := do
  let file ← getFile f
  let r ← onFs (writei file.ip src file.off)
  if 0 < r then modify fun k => k.setFile f ((k.ftable f).advance r.toNat)
  return r

/-- `ilock(ip); ..; iunlock(ip)`. -/
def underLock {α : Type} (p : Pid) (ip : Nat) (m : KM α) : KProg α := do
  ilock ip
  let r ← Prog.lift m
  iunlock p ip
  return r

/-- `begin_op(); ilock(ip); ..; iunlock(ip); end_op()`. -/
def inTransaction {α : Type} (p : Pid) (ip : Nat) (m : KM α) : KProg α := do
  atomic beginOp
  ilock ip
  let r ← Prog.lift m
  iunlock p ip
  atomic endOp
  return r

/-- `fileread`: the bytes put in `addr`, or `none` for -1. -/
def fileread (io : PipeIo) (p : Pid) (f n : Nat) : KProg (Option (List UInt8)) := do
  let file ← Prog.lift (getFile f)
  if file.readable = false then return none
  else
    match file.type with
    | .pipe => io.read n
    | .inode => underLock p file.ip (fileReadi f n)
    | .none => Prog.lift (throw .fileread)

/-- The loop of `filewrite`, with `src` left to write: whether all of it was written.  Every pass
writes at least one byte, so the length is fuel enough. -/
def filewriteLoop (p : Pid) (f ip : Nat) : Nat → List UInt8 → KProg Bool
  | 0, _ => return true
  | fuel + 1, src =>
    if src.length = 0 then return true
    else do
      let r ← inTransaction p ip (fileWritei f (src.take MAXWRITE))
      if r < 0 then return false
      else if r ≠ (src.take MAXWRITE).length then Prog.lift (throw .shortFilewrite)
      else filewriteLoop p f ip fuel (src.drop MAXWRITE)

/-- `filewrite`. -/
def filewrite (io : PipeIo) (p : Pid) (f : Nat) (src : List UInt8) : KProg Int := do
  let file ← Prog.lift (getFile f)
  if file.writable = false then return -1
  else
    match file.type with
    | .pipe => io.write src
    | .inode =>
      if ← filewriteLoop p f file.ip src.length src then return src.length else return -1
    | .none => Prog.lift (throw .filewrite)

/-- The four calls. -/
inductive FileCall
  | writei (ip : Nat) (src : List UInt8) (off : Nat)
  | readi (ip off n : Nat)
  | filewrite (f : Nat) (src : List UInt8)
  | fileread (f n : Nat)

/-- What a call returns, and the bytes it has copied out. -/
abbrev Ret := Int × List UInt8

/-- The result of a read. -/
def readRet : Option (List UInt8) → Ret
  | none => (-1, [])
  | some bytes => (bytes.length, bytes)

/-- The code of a call.  `readi` and `writei` run under the inode's lock, and `writei` inside a
transaction. -/
def FileCall.prog (io : PipeIo) (p : Pid) : FileCall → KProg Ret
  | .writei ip src off => do return (← inTransaction p ip (onFs (Fs.writei ip src off)), [])
  | .readi ip off n => do return readRet (← underLock p ip (onFs (Fs.readi ip off n)))
  | .filewrite f src => do return (← Fs.filewrite io p f src, [])
  | .fileread f n => do return readRet (← Fs.fileread io p f n)

/-- Inode `ip` is a regular file to which somebody has a reference. -/
def Kern.IsFile (k : Kern) (ip : Nat) : Prop :=
  (k.fs.view ip).type = T_FILE ∧ 0 < k.fs.ref ip

/-- The arguments are of their types, and the file is a regular one. -/
def FileCall.Legal (k : Kern) : FileCall → Prop
  | .writei ip src off => k.IsFile ip ∧ off < 2 ^ 32 ∧ src.length < 2 ^ 32
  | .readi ip off n => k.IsFile ip ∧ off < 2 ^ 32 ∧ n < 2 ^ 32
  | .filewrite f src => (k.ftable f).type = .inode ∧ k.IsFile (k.ftable f).ip ∧
      (k.ftable f).off < 2 ^ 32 ∧ src.length < 2 ^ 31
  | .fileread f n => (k.ftable f).type = .inode ∧ k.IsFile (k.ftable f).ip ∧
      (k.ftable f).off < 2 ^ 32 ∧ n < 2 ^ 31

/-! ## 2. What it is for: byte arrays -/

/-- The files and the open files. -/
structure Arrays where
  file : Nat → File
  handle : Nat → OFile

/-- The arrays of a state. -/
def Kern.arrays (k : Kern) : Arrays := ⟨k.fs.view, k.ftable⟩

/-- `n` bytes at `off` begin inside the file or right behind it, and end before the largest size. -/
def File.Fits (f : File) (off n : Nat) : Prop :=
  off ≤ f.size ∧ off + n < 2 ^ 32 ∧ off + n ≤ MAXFILE * BSIZE

instance (f : File) (off n : Nat) : Decidable (f.Fits off n) :=
  inferInstanceAs (Decidable (_ ∧ _ ∧ _))

namespace Arrays

/-- Replace the bytes from `off` on, or refuse. -/
def writei (a : Arrays) (ip : Nat) (src : List UInt8) (off : Nat) : Int × Arrays :=
  if (a.file ip).Fits off src.length then
    (src.length, { a with file := Function.update a.file ip ((a.file ip).write off src) })
  else (-1, a)

/-- The bytes from `off` up to `off + n` or the end of the file, whichever comes first. -/
def readi (a : Arrays) (ip off n : Nat) : Option (List UInt8) :=
  if off ≤ (a.file ip).size ∧ off + n < 2 ^ 32 then
    some (slice (a.file ip).bytes off (min (off + n) (a.file ip).size - off))
  else none

/-- Move the position of an open file. -/
def advance (a : Arrays) (f n : Nat) : Arrays :=
  let h := a.handle f
  { a with handle := Function.update a.handle f { h with off := h.off + n } }

/-- Write all of `src` at the position of an open file. -/
def filewrite (a : Arrays) (f : Nat) (src : List UInt8) : Arrays :=
  (a.writei (a.handle f).ip src (a.handle f).off).2.advance f src.length

end Arrays

/-- All of the data is written, or, where it does not fit, at most a piece of it. -/
def Arrays.Wrote (a : Arrays) (f : Nat) (src : List UInt8) (done : Bool) (a' : Arrays) : Prop :=
  let h := a.handle f
  if (a.file h.ip).Fits h.off src.length then done = true ∧ a' = a.filewrite f src
  else (0 < src.length → done = false) ∧
    (a' = a ∨ ∃ m, m ≤ src.length ∧ (a.file h.ip).Fits h.off m ∧ a' = a.filewrite f (src.take m))

/-- A call takes the arrays `a` to `a'` and returns `r`. -/
def FileCall.Does (a : Arrays) (r : Ret) (a' : Arrays) : FileCall → Prop
  | .writei ip src off =>
    r = ((a.writei ip src off).1, []) ∧ a' = (a.writei ip src off).2
  | .readi ip off n => r = readRet (a.readi ip off n) ∧ a' = a
  | .filewrite f src =>
    if (a.handle f).writable = false then r = (-1, []) ∧ a' = a
    else ∃ done, a.Wrote f src done a' ∧ r = (if done then (src.length : Int) else -1, [])
  | .fileread f n =>
    if (a.handle f).readable = false then r = (-1, []) ∧ a' = a
    else
      let bytes := a.readi (a.handle f).ip (a.handle f).off n
      r = readRet bytes ∧ a' = a.advance f (bytes.getD []).length

/-- Where a call may stop: the disk is full, or a `writei` is too large for one transaction. -/
def FileCall.MayStop (c : FileCall) (x : Stop Panic Want) : Prop :=
  x = .panic .outOfBlocks ∨
    x = .panic .tooBig ∧ ∃ ip src off, c = .writei ip src off ∧ MAXWRITE < src.length

/-- Nothing runs: no inode is locked, no operation is under way, and the log is empty. -/
structure Quiet (k : Kern) : Prop extends Rest k where
  outstanding : k.fs.outstanding = 0
  lh : k.fs.lh = []
  nlog : LOGSIZE ≤ k.fs.sb.nlog

/-- The states that processes reach by calls, one after another. -/
inductive FileRun (io : PipeIo) (k : Kern) : Kern → Prop
  | start : FileRun io k k
  | step {k₁ k₂ : Kern} {p : Pid} {c : FileCall} {r : Ret} : FileRun io k k₁ → c.Legal k₁ →
    (c.prog io p).seq p k₁ = .ok (r, k₂) → FileRun io k k₂

/-! ## 3. Under the lock of an inode -/

section

variable {k : Kern} {p : Pid} {ip : Nat} {s : FileSys}

theorem Quiet.alloc (h : k.IsFile ip) : Alloc k.fs ip :=
  alloc_iff_view.mpr (by rw [h.1]; decide)

/-- `s` is the state `s₀` after `ilock(ip)` by `p`. -/
structure Held (s₀ : FileSys) (p : Pid) (ip : Nat) (s : FileSys) : Prop where
  good : Good s
  view : s.view = s₀.view
  valid : s.valid ip = true
  lock : s.lock = Function.update s₀.lock ip (some p)
  ref : s.ref = s₀.ref
  sb : s.sb = s₀.sb
  outstanding : s.outstanding = s₀.outstanding
  lh : s.lh = s₀.lh

/-- `ilock` of a file that nobody has locked. -/
theorem wp_ilock_free (hg : Good k.fs) (hl : k.fs.lock ip = none) (hr : 0 < k.fs.ref ip)
    (ha : Alloc k.fs ip) {Q : Unit → Kern → Prop} {E : Stop Panic Want → Prop}
    (hQ : ∀ s, Held k.fs p ip s → Q () { k with fs := s }) :
    wp ((ilock ip).seq p) Q E k := by
  obtain ⟨hg₁, hv₁⟩ := hg.setLock ip (some p)
  have ha₁ : Alloc (k.fs.setLock ip (some p)) ip := by
    rwa [alloc_iff_view, hv₁, ← alloc_iff_view]
  obtain ⟨hg₂, hv₂⟩ := hg₁.loaded ha₁
  exact wp_ilock_loaded hl hr ha (hQ _ ⟨hg₂, hv₂.trans hv₁, loaded_valid_self, loaded_lock,
    loaded_ref, loaded_sb, loaded_outstanding, loaded_lh⟩)

/-- `iunlock` after code that left the locks and the references alone. -/
theorem wp_iunlock_held {s₀ s : FileSys} (h : Held s₀ p ip s) (hl : s₀.lock ip = none)
    (hr : 0 < s₀.ref ip) {k : Kern} (hg : Good k.fs) (hf : Frame s k.fs)
    {Q : Unit → Kern → Prop} {E : Stop Panic Want → Prop}
    (hQ : ∀ t, Good t → t.view = k.fs.view → t.lock = s₀.lock → t.ref = s₀.ref → t.sb = s₀.sb →
      t.outstanding = s₀.outstanding → t.lh = k.fs.lh → Q () { k with fs := t }) :
    wp ((iunlock p ip).seq p) Q E k := by
  have hlock : k.fs.lock ip = some p := by rw [hf.lock, h.lock, update_self]
  have href : k.fs.ref = s₀.ref := by rw [hf.ref, h.ref]
  obtain ⟨hg', hv'⟩ := hg.setLock ip none
  refine wp_iunlock_release hlock (by rw [href]; exact hr) (hQ _ hg' hv' ?_ href
    (hf.sb.trans h.sb) (hf.outstanding.trans h.outstanding) rfl)
  show update k.fs.lock ip none = s₀.lock
  rw [hf.lock, h.lock, update_idem, ← hl, update_eq_self]

end

/-! ## 4. The arrays -/

section

variable {a : Arrays} {ip off f : Nat} {src : List UInt8}

theorem File.Fits.mono {g : File} {m n : Nat} (h : g.Fits off n) (hm : m ≤ n) : g.Fits off m :=
  ⟨h.1, by have := h.2.1; omega, by have := h.2.2; omega⟩

namespace Arrays

theorem writei_fits (h : (a.file ip).Fits off src.length) : a.writei ip src off =
    ((src.length : Int),
      { a with file := update a.file ip ((a.file ip).write off src) }) :=
  if_pos h

theorem writei_not_fits (h : ¬ (a.file ip).Fits off src.length) : a.writei ip src off = (-1, a) :=
  if_neg h

theorem advance_zero : a.advance f 0 = a := by
  simp only [advance, Nat.add_zero]
  exact congrArg (Arrays.mk a.file) (update_eq_self f a.handle)

theorem filewrite_fits (h : (a.file (a.handle f).ip).Fits (a.handle f).off src.length) :
    a.filewrite f src =
      { file := update a.file (a.handle f).ip
          ((a.file (a.handle f).ip).write (a.handle f).off src)
        handle := update a.handle f
          { a.handle f with off := (a.handle f).off + src.length } } := by
  rw [filewrite, writei_fits h]
  rfl

theorem filewrite_nil (h : (a.file (a.handle f).ip).Fits (a.handle f).off 0) :
    a.filewrite f [] = a := by
  have hw : (a.file (a.handle f).ip).write (a.handle f).off [] = a.file (a.handle f).ip := by
    simp only [File.write, Bytes.splice_nil, List.length_nil, Nat.add_zero, Nat.max_eq_left h.1]
  rw [filewrite_fits h, hw, update_eq_self]
  exact congrArg (Arrays.mk a.file) (update_eq_self f a.handle)

/-- Writing a first part and then the rest. -/
theorem filewrite_take_drop {m : Nat} (hm : m ≤ src.length)
    (h : (a.file (a.handle f).ip).Fits (a.handle f).off src.length) :
    (a.filewrite f (src.take m)).filewrite f (src.drop m) = a.filewrite f src := by
  have htake : (src.take m).length = m := List.length_take_of_le hm
  have hdrop : (src.drop m).length = src.length - m := List.length_drop
  have h₁ : (a.file (a.handle f).ip).Fits (a.handle f).off (src.take m).length :=
    h.mono (by omega)
  have hw : ((a.file (a.handle f).ip).write (a.handle f).off (src.take m)).write
      ((a.handle f).off + m) (src.drop m) = (a.file (a.handle f).ip).write (a.handle f).off src := by
    simp only [File.write, htake, hdrop, Bytes.splice_take_drop _ _ _ _ hm]
    congr 1
    omega
  rw [filewrite_fits h, filewrite_fits h₁, filewrite_fits]
  · simp only [update_self, update_idem, htake, hdrop, hw]
    congr 2
    congr 1
    omega
  · obtain ⟨h2, h3, h4⟩ := h
    simp only [update_self, htake, hdrop]
    refine ⟨?_, by omega, by omega⟩
    simp only [File.write, htake]
    omega

/-- After a first part has been written, the rest fits just when all of it did. -/
theorem fits_rest {m : Nat} (hm : m ≤ src.length)
    (h : (a.file (a.handle f).ip).Fits (a.handle f).off m) :
    (((a.filewrite f (src.take m)).file ((a.filewrite f (src.take m)).handle f).ip).Fits
      ((a.filewrite f (src.take m)).handle f).off (src.drop m).length ↔
    (a.file (a.handle f).ip).Fits (a.handle f).off src.length) := by
  have htake : (src.take m).length = m := List.length_take_of_le hm
  rw [filewrite_fits (by rwa [htake])]
  simp only [update_self, htake, List.length_drop, File.Fits, File.write]
  have := h.1
  omega

theorem wrote_of_fits (h : (a.file (a.handle f).ip).Fits (a.handle f).off src.length)
    {done : Bool} {a' : Arrays} :
    a.Wrote f src done a' ↔ done = true ∧ a' = a.filewrite f src := by
  simp only [Wrote, if_pos h]

theorem wrote_of_not_fits (h : ¬ (a.file (a.handle f).ip).Fits (a.handle f).off src.length)
    {done : Bool} {a' : Arrays} :
    a.Wrote f src done a' ↔ (0 < src.length → done = false) ∧
      (a' = a ∨ ∃ m, m ≤ src.length ∧ (a.file (a.handle f).ip).Fits (a.handle f).off m ∧
        a' = a.filewrite f (src.take m)) := by
  simp only [Wrote, if_neg h]

theorem wrote_nil : a.Wrote f [] true a := by
  by_cases h : (a.file (a.handle f).ip).Fits (a.handle f).off 0
  · exact (wrote_of_fits h).mpr ⟨rfl, (filewrite_nil h).symm⟩
  · exact (wrote_of_not_fits h).mpr ⟨fun h0 => absurd h0 (by decide), .inl rfl⟩

/-- A first part that fits, and what is then written of the rest. -/
theorem Wrote.rest {m : Nat} (hm : m ≤ src.length)
    (hfit : (a.file (a.handle f).ip).Fits (a.handle f).off m) {done : Bool} {a' : Arrays}
    (h : (a.filewrite f (src.take m)).Wrote f (src.drop m) done a') : a.Wrote f src done a' := by
  by_cases hall : (a.file (a.handle f).ip).Fits (a.handle f).off src.length
  · rw [wrote_of_fits ((fits_rest hm hfit).mpr hall), filewrite_take_drop hm hall] at h
    exact (wrote_of_fits hall).mpr h
  · rw [wrote_of_not_fits fun hc => hall ((fits_rest hm hfit).mp hc)] at h
    have hlt : m < src.length := by
      refine lt_of_le_of_ne hm ?_
      rintro rfl
      exact hall hfit
    refine (wrote_of_not_fits hall).mpr ⟨fun _ => h.1 (by rw [List.length_drop]; omega), ?_⟩
    rcases h.2 with rfl | ⟨n, hn, hfit', rfl⟩
    · exact .inr ⟨m, hm, hfit, rfl⟩
    · -- the two parts together are a first part of all
      rw [List.length_drop] at hn
      have hlen : (src.take (m + n)).length = m + n := List.length_take_of_le (by omega)
      have htake : (src.take (m + n)).take m = src.take m := by
        rw [List.take_take, Nat.min_eq_left (by omega)]
      have hdrop : (src.take (m + n)).drop m = (src.drop m).take n := by
        rw [List.drop_take, Nat.add_sub_cancel_left]
      have hrest := fits_rest (show m ≤ (src.take (m + n)).length by omega) hfit
      rw [htake, hdrop, hlen, List.length_take_of_le (by rw [List.length_drop]; omega)] at hrest
      have hfit₂ := hrest.mp hfit'
      refine .inr ⟨m + n, by omega, hfit₂, ?_⟩
      have hjoin := filewrite_take_drop (m := m) (by omega) (hlen.symm ▸ hfit₂)
      rwa [htake, hdrop] at hjoin

end Arrays

end

/-! ## 5. One call -/

section

variable {k : Kern} {p : Pid} {ip off f : Nat} {src : List UInt8} {s₀ s : FileSys}

theorem add32_lt {a b : Nat} (ha : a < 2 ^ 32) (hb : b < 2 ^ 32) :
    add32 a b < a ↔ ¬ a + b < 2 ^ 32 := by
  unfold add32
  omega

theorem Held.not_dev (h : Held s₀ p ip s) (hfile : (s₀.view ip).type = T_FILE) :
    (s.inode ip).type ≠ T_DEV := by
  have : (s.inode ip).type = T_FILE := by
    rw [← hfile, ← h.view, h.good.view_eq h.valid]
    rfl
  rw [this]
  decide

/-- What `writei` under the lock does to the files. -/
theorem Held.wp_writei_files (h : Held s₀ p ip s) (hfile : (s₀.view ip).type = T_FILE)
    (hoff : off < 2 ^ 32) (hn : src.length < 2 ^ 32) (handle : Nat → OFile) :
    wp (writei ip src off) (fun r s' => Good s' ∧ Frame s s' ∧
      r = ((Arrays.mk s₀.view handle).writei ip src off).1 ∧
      Arrays.mk s'.view handle = ((Arrays.mk s₀.view handle).writei ip src off).2) Limit s := by
  refine Fs.wp_writei h.good h.valid (h.not_dev hfile) (fun hbad => ?_) (fun hle hmax s' hu => ?_)
    fun _ he => he
  · have hno : ¬ (s₀.view ip).Fits off src.length := by
      rw [h.view, add32_lt hoff hn] at hbad
      rintro ⟨h₁, h₂, h₃⟩
      omega
    rw [Arrays.writei_not_fits hno, h.view]
    exact ⟨h.good, Frame.refl s, rfl, rfl⟩
  · rw [h.view] at hle
    have hfit : (s₀.view ip).Fits off src.length :=
      ⟨hle, by simp only [MAXFILE, BSIZE] at hmax; omega, hmax⟩
    rw [Arrays.writei_fits hfit, hu.view, h.view]
    exact ⟨hu.good, hu.frame, rfl, rfl⟩

/-- `writei` under the lock, in a transaction of its own. -/
theorem Held.wp_writei (h : Held s₀ p ip s) (hout : s₀.outstanding = 1) (hlh : s₀.lh = [])
    (hnlog : LOGSIZE ≤ s₀.sb.nlog) (hfile : (s₀.view ip).type = T_FILE) (hoff : off < 2 ^ 32)
    (hn : src.length < 2 ^ 32) (handle : Nat → OFile) :
    wp (writei ip src off) (fun r s' => Good s' ∧ Frame s s' ∧
        r = ((Arrays.mk s₀.view handle).writei ip src off).1 ∧
        Arrays.mk s'.view handle = ((Arrays.mk s₀.view handle).writei ip src off).2)
      (fun e => e = .outOfBlocks ∨ e = .tooBig ∧ MAXWRITE < src.length) s := by
  have htype := h.not_dev hfile
  -- where it stops
  have hpos : 0 < s.outstanding := by rw [h.outstanding, hout]; exact Nat.one_pos
  have hroom : 29 ≤ s.logRoom := by
    unfold FileSys.logRoom
    rw [h.sb]
    simp only [LOGSIZE] at hnlog ⊢
    omega
  have hmod := Nat.mod_lt off (show 0 < BSIZE by decide)
  have hstop : wp (writei ip src off) (fun _ _ => True)
      (fun e => e = .outOfBlocks ∨ e = .bmapRange ∨ e = .tooBig ∧ MAXWRITE < src.length) s := by
    by_cases hlen : src.length ≤ MAXWRITE
    · have hlen' : src.length ≤ 1536 := hlen
      -- at most four blocks
      have hc : off % BSIZE + src.length ≤ 4 * BSIZE := by
        simp only [BSIZE] at hmod ⊢
        omega
      refine wp_mono (logs_writei hc hpos htype) (fun _ _ _ => trivial) fun e he =>
        he.imp id (Or.imp id fun ⟨_, hfull⟩ => ?_)
      rw [h.lh, hlh, List.length_nil] at hfull
      omega
    · have hc : off % BSIZE + src.length ≤ (1 + src.length) * BSIZE := by
        simp only [BSIZE] at hmod ⊢
        omega
      exact wp_mono (logs_writei hc hpos htype) (fun _ _ _ => trivial) fun e he =>
        he.imp id (Or.imp id fun ⟨he, _⟩ => ⟨he, not_le.mp hlen⟩)
  refine wp_mono (wp_and (h.wp_writei_files hfile hoff hn handle) hstop) (fun _ _ hQ => hQ.1)
    fun e he => ?_
  rcases he.2 with he' | he' | he'
  · exact .inl he'
  · exact absurd he.1 (by rw [he']; exact Bool.false_ne_true)
  · exact .inr he'

/-- The state after `begin_op`. -/
theorem Quiet.begun (h : Quiet k) :
    Good { k.fs with outstanding := k.fs.outstanding + 1 } ∧
      ({ k.fs with outstanding := k.fs.outstanding + 1 } : FileSys).view = k.fs.view :=
  h.good.outstanding (k.fs.outstanding + 1) k.fs.lh

/-- The state after `end_op` of the only operation. -/
theorem Quiet.ended (h : Quiet k) (k' : Kern) {t : FileSys} (hg : Good t)
    (hl : t.lock = k.fs.lock) (hsb : t.sb = k.fs.sb) (ho : t.outstanding = k.fs.outstanding + 1) :
    Quiet { k' with fs := { t with
        outstanding := t.outstanding - 1
        lh := if t.outstanding - 1 = 0 then [] else t.lh } } ∧
      ({ t with
        outstanding := t.outstanding - 1
        lh := if t.outstanding - 1 = 0 then [] else t.lh } : FileSys).view = t.view := by
  have h1 : t.outstanding - 1 = 0 := by rw [ho, h.outstanding]
  obtain ⟨hg', hv⟩ := hg.outstanding (t.outstanding - 1)
    (if t.outstanding - 1 = 0 then [] else t.lh)
  refine ⟨⟨⟨hg', fun i => ?_⟩, h1, if_pos h1, ?_⟩, hv⟩
  · show t.lock i = none
    rw [hl]
    exact h.unlocked i
  · show LOGSIZE ≤ t.sb.nlog
    rw [hsb]
    exact h.nlog

/-- A transaction on one locked inode. -/
theorem Quiet.wp_transaction (h : Quiet k) (hfile : k.IsFile ip) {α : Type} {m : KM α}
    {P : α → Kern → Prop} {Q : α → Kern → Prop} {E : Stop Panic Want → Prop}
    (hm : ∀ s, Held { k.fs with outstanding := k.fs.outstanding + 1 } p ip s →
      wp m (fun r k' => Good k'.fs ∧ Frame s k'.fs ∧ P r k') (fun e => E (.panic e))
        { k with fs := s })
    (hQ : ∀ r k' k'', P r k' → Quiet k'' → k''.arrays = k'.arrays → k''.fs.ref = k.fs.ref →
      Q r k'') :
    wp ((inTransaction p ip m).seq p) Q E k := by
  obtain ⟨hg, hv⟩ := h.begun
  simp only [inTransaction, bind_eq_bind, wp_seq_bind, wp_atomic, beginOp, wp_modify,
    wp_seq_lift]
  have ha : Alloc { k.fs with outstanding := k.fs.outstanding + 1 } ip := Quiet.alloc hfile
  refine wp_ilock_free (k := { k with fs := { k.fs with outstanding := k.fs.outstanding + 1 } })
    hg (h.unlocked ip) hfile.2 ha fun s hs => ?_
  refine wp_conseq (hm s hs) fun r k' hpost => ?_
  obtain ⟨hg', hf, hP⟩ := hpost
  refine wp_iunlock_held hs (h.unlocked ip) hfile.2 hg' hf
    fun t hgt hvt hlt hrt hsb hot _ => ?_
  simp only [endOp, wp_modify, pure, wp_seq_ret]
  obtain ⟨hq, hvq⟩ := h.ended k' hgt hlt hsb hot
  exact hQ r k' _ hP hq (congrArg (Arrays.mk · k'.ftable) (hvq.trans hvt)) hrt

/-- Reading under the lock of an inode. -/
theorem Quiet.wp_underLock (h : Quiet k) (hfile : k.IsFile ip) {α : Type} {m : KM α}
    {P : α → Kern → Prop} {Q : α → Kern → Prop} {E : Stop Panic Want → Prop}
    (hm : ∀ s, Held k.fs p ip s → wp m (fun r k' => k'.fs = s ∧ P r k') (fun e => E (.panic e))
      { k with fs := s })
    (hQ : ∀ r k' k'', P r k' → Quiet k'' → k''.arrays = ⟨k.fs.view, k'.ftable⟩ →
      k''.fs.ref = k.fs.ref → Q r k'') :
    wp ((underLock p ip m).seq p) Q E k := by
  simp only [underLock, bind_eq_bind, wp_seq_bind, wp_seq_lift]
  refine wp_ilock_free h.good (h.unlocked ip) hfile.2 (Quiet.alloc hfile) fun s hs => ?_
  refine wp_conseq (hm s hs) fun r k' hpost => ?_
  obtain ⟨hk', hP⟩ := hpost
  refine wp_iunlock_held hs (h.unlocked ip) hfile.2 (hk' ▸ hs.good) (hk' ▸ Frame.refl s)
    fun t hgt hvt hlt hrt hsb hot hlh => ?_
  have hview : t.view = k.fs.view := by rw [hvt, hk', hs.view]
  have hlog : t.lh = [] := by rw [hlh, hk', hs.lh, h.lh]
  exact hQ r k' _ hP ⟨⟨hgt, fun i => (congrFun hlt i).trans (h.unlocked i)⟩,
    hot.trans h.outstanding, hlog, show LOGSIZE ≤ t.sb.nlog from hsb ▸ h.nlog⟩
    (congrArg (Arrays.mk · k'.ftable) hview) hrt

theorem Quiet.wp_writei (h : Quiet k) (io : PipeIo) (hfile : k.IsFile ip) (hoff : off < 2 ^ 32)
    (hn : src.length < 2 ^ 32) :
    wp (((FileCall.writei ip src off).prog io p).seq p) (fun r k' => Quiet k' ∧
        k'.fs.ref = k.fs.ref ∧ (FileCall.writei ip src off).Does k.arrays r k'.arrays)
      (FileCall.writei ip src off).MayStop k := by
  simp only [FileCall.prog, bind_eq_bind, wp_seq_bind]
  refine h.wp_transaction hfile (P := fun r k' => r = (k.arrays.writei ip src off).1 ∧
    k'.arrays = (k.arrays.writei ip src off).2) (fun s hs => ?_) fun r k' k'' hP hq ha hr => ?_
  · rw [wp_onFs]
    refine wp_mono (hs.wp_writei (congrArg (· + 1) h.outstanding) h.lh h.nlog ?_ hoff hn k.ftable)
      (fun r s' hs' => ?_) fun e he => ?_
    · rw [h.begun.2]
      exact hfile.1
    · rw [h.begun.2] at hs'
      exact hs'
    · exact he.imp (congrArg Stop.panic) fun hstop =>
        ⟨congrArg Stop.panic hstop.1, ip, src, off, rfl, hstop.2⟩
  · exact ⟨hq, hr, by rw [hP.1], by rw [ha, hP.2]⟩

/-- What `readi` returns is what the array holds. -/
theorem read_eq (v : Nat → File) (handle : Nat → OFile) {n : Nat} (hoff : off < 2 ^ 32)
    (hn : n < 2 ^ 32) : (v ip).read off n = (Arrays.mk v handle).readi ip off n := by
  have hadd := add32_lt hoff hn
  simp only [File.read, Arrays.readi]
  by_cases h : off ≤ (v ip).size ∧ off + n < 2 ^ 32
  · rw [if_neg (by omega), if_pos h]
    congr 2
    split <;> omega
  · rw [if_pos (by omega), if_neg h]

theorem Held.wp_readi (h : Held s₀ p ip s) (hfile : (s₀.view ip).type = T_FILE)
    (hoff : off < 2 ^ 32) {n : Nat} (hn : n < 2 ^ 32) (handle : Nat → OFile)
    {Q : Option (List UInt8) → FileSys → Prop} {E : Panic → Prop}
    (hQ : Q ((Arrays.mk s₀.view handle).readi ip off n) s) : wp (readi ip off n) Q E s := by
  refine Fs.wp_readi h.good h.valid (h.not_dev hfile) ?_
  rw [h.view, read_eq s₀.view handle hoff hn]
  exact hQ

theorem Quiet.wp_readi (h : Quiet k) (io : PipeIo) (hfile : k.IsFile ip) (hoff : off < 2 ^ 32)
    {n : Nat} (hn : n < 2 ^ 32) :
    wp (((FileCall.readi ip off n).prog io p).seq p) (fun r k' => Quiet k' ∧
        k'.fs.ref = k.fs.ref ∧ (FileCall.readi ip off n).Does k.arrays r k'.arrays)
      (FileCall.readi ip off n).MayStop k := by
  simp only [FileCall.prog, bind_eq_bind, wp_seq_bind]
  refine h.wp_underLock hfile (P := fun r k' => r = k.arrays.readi ip off n ∧
    k'.ftable = k.ftable) (fun s hs => ?_) fun r k' k'' hP hq ha hr => ?_
  · rw [wp_onFs]
    exact hs.wp_readi hfile.1 hoff hn k.ftable ⟨rfl, rfl, rfl⟩
  · refine ⟨hq, hr, by rw [hP.1], ?_⟩
    rw [ha, hP.2]
    rfl

theorem Arrays.readi_length {a : Arrays} {n : Nat} {bytes : List UInt8}
    (h : a.readi ip off n = some bytes) : off + bytes.length < 2 ^ 32 := by
  obtain ⟨hfit, hb⟩ := Option.ite_none_right_eq_some.mp h
  rw [← Option.some.inj hb, slice_length]
  omega

/-- `fileread` between `ilock` and `iunlock`. -/
theorem Held.wp_fileReadi (h : Held k.fs p (k.ftable f).ip s)
    (hfile : (k.fs.view (k.ftable f).ip).type = T_FILE) (hoff : (k.ftable f).off < 2 ^ 32) {n : Nat}
    (hn : n < 2 ^ 32) {E : Panic → Prop} :
    wp (fileReadi f n) (fun r k' => k'.fs = s ∧
        r = k.arrays.readi (k.ftable f).ip (k.ftable f).off n ∧
        k'.ftable = (k.arrays.advance f
          ((k.arrays.readi (k.ftable f).ip (k.ftable f).off n).getD []).length).handle) E
      { k with fs := s } := by
  simp only [fileReadi, getFile, wp_bind, wp_get, wp_pure, wp_onFs]
  refine h.wp_readi hfile hoff hn k.ftable ?_
  set bytes := k.arrays.readi (k.ftable f).ip (k.ftable f).off n with hbytes
  show wp (match bytes with | some b => _ | none => _) _ _ _
  cases hb : bytes with
  | none =>
    exact ⟨rfl, rfl, by rw [Option.getD_none, List.length_nil, Arrays.advance_zero]; rfl⟩
  | some b =>
    have hlen := Arrays.readi_length (hbytes.symm.trans hb)
    simp only [wp_ite, wp_bind, wp_modify, wp_pure, Option.getD_some]
    refine ⟨fun _ => ⟨rfl, trivial, ?_⟩, fun h0 => ⟨trivial, trivial, ?_⟩⟩
    · simp only [Kern.setFile, OFile.advance, add32, Nat.mod_eq_of_lt hlen]
      rfl
    · rw [Nat.eq_zero_of_not_pos h0, Arrays.advance_zero]
      rfl

theorem Quiet.wp_fileread (h : Quiet k) (io : PipeIo) {n : Nat}
    (htype : (k.ftable f).type = .inode) (hfile : k.IsFile (k.ftable f).ip)
    (hoff : (k.ftable f).off < 2 ^ 32) (hn : n < 2 ^ 31) :
    wp (((FileCall.fileread f n).prog io p).seq p) (fun r k' => Quiet k' ∧
        k'.fs.ref = k.fs.ref ∧ (FileCall.fileread f n).Does k.arrays r k'.arrays)
      (FileCall.fileread f n).MayStop k := by
  simp only [FileCall.prog, Fs.fileread, bind_eq_bind, wp_seq_bind, wp_seq_lift,
    getFile, wp_bind, wp_get, wp_pure]
  by_cases hread : (k.ftable f).readable = false
  · rw [if_pos hread]
    exact ⟨h, rfl, by simp only [FileCall.Does, Kern.arrays, hread, if_true, readRet, and_self]⟩
  rw [if_neg hread]
  simp only [htype]
  set bytes := k.arrays.readi (k.ftable f).ip (k.ftable f).off n with hbytes
  refine h.wp_underLock hfile (P := fun r k' => r = bytes ∧
    k'.ftable = (k.arrays.advance f (bytes.getD []).length).handle) (fun s hs => ?_)
    fun r k' k'' hP hq ha hr => ?_
  · exact hs.wp_fileReadi hfile.1 hoff (by omega)
  · refine ⟨hq, hr, ?_⟩
    simp only [FileCall.Does, show (k.arrays.handle f).readable ≠ false from hread]
    refine ⟨by rw [hP.1]; rfl, ?_⟩
    rw [ha, hP.2]
    rfl

/-- What a piece of a `filewrite` comes to. -/
def Arrays.WrotePiece (a : Arrays) (f : Nat) (src : List UInt8) (r : Int) (a' : Arrays) : Prop :=
  if (a.file (a.handle f).ip).Fits (a.handle f).off src.length then
    r = (src.length : Int) ∧ a' = a.filewrite f src
  else r = -1 ∧ a' = a

theorem Arrays.wrotePiece_fits {a a' : Arrays} {r : Int}
    (h : (a.file (a.handle f).ip).Fits (a.handle f).off src.length) :
    a.WrotePiece f src r a' ↔ r = (src.length : Int) ∧ a' = a.filewrite f src := by
  rw [Arrays.WrotePiece, if_pos h]

theorem Arrays.wrotePiece_not_fits {a a' : Arrays} {r : Int}
    (h : ¬ (a.file (a.handle f).ip).Fits (a.handle f).off src.length) :
    a.WrotePiece f src r a' ↔ r = -1 ∧ a' = a := by
  rw [Arrays.WrotePiece, if_neg h]

/-- `filewrite` between `ilock` and `iunlock`. -/
theorem wp_fileWritei {E : Panic → Prop}
    (hw : wp (writei (k.ftable f).ip src (k.ftable f).off) (fun r s' => Good s' ∧ Frame s s' ∧
      r = (k.arrays.writei (k.ftable f).ip src (k.ftable f).off).1 ∧
      Arrays.mk s'.view k.ftable = (k.arrays.writei (k.ftable f).ip src (k.ftable f).off).2) E s) :
    wp (fileWritei f src) (fun r k' => Good k'.fs ∧ Frame s k'.fs ∧
      k.arrays.WrotePiece f src r k'.arrays) E { k with fs := s } := by
  simp only [fileWritei, getFile, wp_bind, wp_get, wp_pure, wp_onFs]
  refine wp_conseq hw fun r s' hpost => ?_
  obtain ⟨hg, hf, hr, hv⟩ := hpost
  simp only [wp_ite, wp_bind, wp_modify, wp_pure]
  by_cases hfit : (k.fs.view (k.ftable f).ip).Fits (k.ftable f).off src.length
  · rw [Arrays.writei_fits hfit] at hr hv
    subst hr
    have hsum : (k.ftable f).off + src.length < 2 ^ 32 := hfit.2.1
    have hpiece : ∀ a, a = k.arrays.filewrite f src →
        k.arrays.WrotePiece f src (src.length : Int) a := fun a ha =>
      (Arrays.wrotePiece_fits (a := k.arrays) hfit).mpr ⟨rfl, ha⟩
    rw [Arrays.filewrite_fits (a := k.arrays) hfit] at hpiece
    have hview := congrArg Arrays.file hv
    refine ⟨fun _ => ⟨hg, hf, hpiece _ ?_⟩, fun h0 => ⟨hg, hf, hpiece _ ?_⟩⟩
    · simp only [Kern.arrays, Kern.setFile, OFile.advance, add32, Int.toNat_natCast,
        Nat.mod_eq_of_lt hsum]
      exact congrArg (Arrays.mk · _) hview
    · have h0 : src.length = 0 := by omega
      simp only [Kern.arrays, h0, Nat.add_zero]
      exact (congrArg (Arrays.mk · _) hview).trans
        (congrArg (Arrays.mk _) (update_eq_self f k.ftable).symm)
  · rw [Arrays.writei_not_fits hfit] at hr hv
    subst hr
    refine ⟨fun hc => absurd hc (show ¬ (0 : Int) < -1 by decide), fun _ => ⟨hg, hf, ?_⟩⟩
    exact (Arrays.wrotePiece_not_fits (a := k.arrays) hfit).mpr ⟨rfl, hv⟩

/-- One pass of the loop of `filewrite`. -/
theorem Quiet.wp_piece (h : Quiet k) (hfile : k.IsFile (k.ftable f).ip)
    (hoff : (k.ftable f).off < 2 ^ 32) (hlen : src.length ≤ MAXWRITE) :
    wp ((inTransaction p (k.ftable f).ip (fileWritei f src)).seq p) (fun r k' => Quiet k' ∧
        k'.fs.ref = k.fs.ref ∧ k.arrays.WrotePiece f src r k'.arrays)
      (fun x => x = .panic .outOfBlocks) k := by
  have hlen' : src.length ≤ 1536 := hlen
  refine h.wp_transaction hfile (P := fun r k' => k.arrays.WrotePiece f src r k'.arrays)
    (fun s hs => wp_fileWritei ?_) fun r k' k'' hP hq ha hr => ?_
  · have hw := hs.wp_writei (congrArg (· + 1) h.outstanding) h.lh h.nlog
      (by rw [h.begun.2]; exact hfile.1) hoff (show src.length < 2 ^ 32 by omega) k.ftable
    rw [h.begun.2] at hw
    refine wp_mono hw (fun _ _ hr => hr) fun e he => ?_
    rcases he with he | ⟨-, hlt⟩
    · rw [he]
    · omega
  · exact ⟨hq, hr, by rw [ha]; exact hP⟩

/-- The loop of `filewrite`: a piece is written, and the rest is written to what it leaves. -/
theorem wp_filewriteLoop (f : Nat) : ∀ (fuel : Nat) {src : List UInt8} {k : Kern}, Quiet k →
    k.IsFile (k.ftable f).ip → (k.ftable f).off < 2 ^ 32 → src.length ≤ fuel →
    wp ((filewriteLoop p f (k.ftable f).ip fuel src).seq p) (fun done k' => Quiet k' ∧
        k'.fs.ref = k.fs.ref ∧ k.arrays.Wrote f src done k'.arrays)
      (fun x => x = .panic .outOfBlocks) k := by
  intro fuel
  induction fuel with
  | zero =>
    intro src k h _ _ hlen
    obtain rfl : src = [] := List.length_eq_zero_iff.mp (by omega)
    exact ⟨h, rfl, Arrays.wrote_nil⟩
  | succ fuel ih =>
    intro src k h hfile hoff hlen
    unfold filewriteLoop
    by_cases h0 : src.length = 0
    · obtain rfl : src = [] := List.length_eq_zero_iff.mp h0
      rw [if_pos h0]
      exact ⟨h, rfl, Arrays.wrote_nil⟩
    rw [if_neg h0]
    simp only [bind_eq_bind, wp_seq_bind]
    obtain ⟨m, hm, hmax, hpos, ht, hd⟩ : ∃ m, m ≤ src.length ∧ m ≤ MAXWRITE ∧ 0 < m ∧
        src.take MAXWRITE = src.take m ∧ src.drop MAXWRITE = src.drop m :=
      ⟨min MAXWRITE src.length, Nat.min_le_right .., Nat.min_le_left ..,
        Nat.lt_min.mpr ⟨by decide, by omega⟩, List.take_eq_take_min, List.drop_eq_drop_min⟩
    have htake : (src.take m).length = m := List.length_take_of_le hm
    rw [ht, hd]
    refine wp_conseq (h.wp_piece hfile hoff (htake.trans_le hmax)) fun r k₁ hpost => ?_
    obtain ⟨h₁, href, hr⟩ := hpost
    unfold Arrays.WrotePiece at hr
    rw [htake] at hr ⊢
    by_cases hfit : (k.arrays.file (k.arrays.handle f).ip).Fits (k.arrays.handle f).off m
    · rw [if_pos hfit] at hr
      obtain ⟨rfl, ha⟩ := hr
      have ha' := ha
      rw [Arrays.filewrite_fits (a := k.arrays) (by rwa [htake])] at ha'
      have hft : k₁.ftable f = { k.ftable f with off := (k.ftable f).off + m } := by
        have := congrFun (congrArg Arrays.handle ha') f
        simpa only [Kern.arrays, update_self, htake] using this
      have hip : (k₁.ftable f).ip = (k.ftable f).ip := by rw [hft]
      have hfile₁ : k₁.IsFile (k₁.ftable f).ip := by
        have hv := congrFun (congrArg Arrays.file ha') (k.ftable f).ip
        have hv : k₁.fs.view (k.ftable f).ip = _ := hv
        refine ⟨?_, by rw [href, hip]; exact hfile.2⟩
        rw [hip, hv]
        simp only [Kern.arrays, update_self]
        exact hfile.1
      have hoff₁ : (k₁.ftable f).off < 2 ^ 32 := by
        rw [hft]
        exact hfit.2.1
      simp only [wp_seq_ite]
      refine ⟨fun hc => absurd hc (by omega), fun _ => ⟨fun hc => absurd rfl hc, fun _ => ?_⟩⟩
      rw [← hip]
      refine wp_conseq (ih h₁ hfile₁ hoff₁ (by rw [List.length_drop]; omega))
        fun done k₂ hrest => ?_
      obtain ⟨h₂, href₂, hw⟩ := hrest
      refine ⟨h₂, href₂.trans href, ?_⟩
      rw [ha] at hw
      exact Arrays.Wrote.rest hm hfit hw
    · rw [if_neg hfit] at hr
      obtain ⟨rfl, ha⟩ := hr
      simp only [wp_seq_ite]
      refine ⟨fun _ => ⟨h₁, href, ?_⟩, fun hc => absurd (show (-1 : Int) < 0 by decide) hc⟩
      exact (Arrays.wrote_of_not_fits fun hc => hfit (hc.mono hm)).mpr ⟨fun _ => rfl, .inl ha⟩

theorem Quiet.wp_filewrite (h : Quiet k) (io : PipeIo) (htype : (k.ftable f).type = .inode)
    (hfile : k.IsFile (k.ftable f).ip) (hoff : (k.ftable f).off < 2 ^ 32) :
    wp (((FileCall.filewrite f src).prog io p).seq p) (fun r k' => Quiet k' ∧
        k'.fs.ref = k.fs.ref ∧ (FileCall.filewrite f src).Does k.arrays r k'.arrays)
      (FileCall.filewrite f src).MayStop k := by
  simp only [FileCall.prog, Fs.filewrite, bind_eq_bind, wp_seq_bind, wp_seq_lift,
    getFile, wp_bind, wp_get, wp_pure]
  by_cases hwrite : (k.ftable f).writable = false
  · rw [if_pos hwrite]
    exact ⟨h, rfl, by simp only [FileCall.Does, Kern.arrays, hwrite, if_true, and_self]⟩
  rw [if_neg hwrite]
  simp only [htype, wp_seq_bind]
  refine wp_mono (wp_filewriteLoop f src.length h hfile hoff (Nat.le_refl _))
    (fun done k' hpost => ?_) fun _ he => .inl he
  obtain ⟨h', href, hw⟩ := hpost
  have hdoes : ∀ r, r = (if done then (src.length : Int) else -1, []) →
      (FileCall.filewrite f src).Does k.arrays r k'.arrays := fun r hr => by
    simp only [FileCall.Does, show (k.arrays.handle f).writable ≠ false from hwrite]
    exact ⟨done, hw, hr⟩
  cases done with
  | true => exact ⟨h', href, hdoes _ rfl⟩
  | false => exact ⟨h', href, hdoes _ rfl⟩

/-- **One call.** -/
theorem Quiet.wp_call (h : Quiet k) (io : PipeIo) {c : FileCall} (hc : c.Legal k) :
    wp ((c.prog io p).seq p) (fun r k' => Quiet k' ∧ k'.fs.ref = k.fs.ref ∧
      c.Does k.arrays r k'.arrays) c.MayStop k := by
  cases c with
  | writei ip src off => exact h.wp_writei io hc.1 hc.2.1 hc.2.2
  | readi ip off n => exact h.wp_readi io hc.1 hc.2.1 hc.2.2
  | filewrite f src => exact h.wp_filewrite io hc.1 hc.2.1 hc.2.2.1
  | fileread f n => exact h.wp_fileread io hc.1 hc.2.1 hc.2.2.1 hc.2.2.2

end

/-! ## 6. Every sequence of calls -/

/-- The inode whose bytes a call may change. -/
def FileCall.target (a : Arrays) : FileCall → Nat
  | .writei ip _ _ | .readi ip _ _ => ip
  | .filewrite f _ | .fileread f _ => (a.handle f).ip

theorem Arrays.writei_other {a : Arrays} {ip off i : Nat} {src : List UInt8} (hi : i ≠ ip) :
    (a.writei ip src off).2.file i = a.file i := by
  unfold Arrays.writei
  split
  · exact update_of_ne hi ..
  · rfl

/-- The arrays of all other inodes stay as they are. -/
theorem FileCall.Does.other {c : FileCall} {a a' : Arrays} {r : Ret} (h : c.Does a r a') {i : Nat}
    (hi : i ≠ c.target a) : a'.file i = a.file i := by
  cases c with
  | writei ip src off => rw [h.2]; exact Arrays.writei_other hi
  | readi ip off n => rw [h.2]
  | filewrite f src =>
    simp only [FileCall.Does] at h
    split at h
    · rw [h.2]
    · obtain ⟨done, hw, -⟩ := h
      simp only [Arrays.Wrote] at hw
      split at hw
      · rw [hw.2]
        exact Arrays.writei_other hi
      · rcases hw.2 with e | ⟨m, -, -, e⟩
        · rw [e]
        · rw [e]
          exact Arrays.writei_other hi
  | fileread f n =>
    simp only [FileCall.Does] at h
    split at h
    · rw [h.2]
    · rw [h.2]
      rfl

theorem FileRun.quiet {io : PipeIo} {k k' : Kern} (h : Quiet k) (hrun : FileRun io k k') :
    Quiet k' := by
  induction hrun with
  | start => exact h
  | step _ hlegal hseq ih => exact (wp_of_ok (ih.wp_call io hlegal) hseq).1

/-- **Files are byte arrays.**  After every sequence of calls the next call does to the files and
the open files what it does to byte arrays, and to no other inode than its own; or it stops,
because the disk is full, or because it is a `writei` that is too large for one transaction. -/
theorem files_are_byte_arrays {io : PipeIo} {k k' : Kern} (h : Quiet k) (hrun : FileRun io k k')
    (p : Pid) {c : FileCall} (hc : c.Legal k') :
    wp ((c.prog io p).seq p) (fun r k'' => c.Does k'.arrays r k''.arrays ∧
      ∀ i, i ≠ c.target k'.arrays → k''.fs.view i = k'.fs.view i) c.MayStop k' := by
  refine wp_conseq ((hrun.quiet h).wp_call io hc) fun r k'' ⟨_, _, hdoes⟩ => ⟨hdoes, fun i hi => ?_⟩
  exact hdoes.other hi

/-! ## 7. On the small disk -/

/-- There are no pipes. -/
def noPipes : PipeIo := ⟨fun _ => return none, fun _ => return -1⟩

/-- Inode 2 of the small disk is an empty file. -/
theorem exists_emptyFile : ∃ k, afterOp image (.ialloc T_FILE) = some k ∧ Quiet k ∧ k.IsFile 2 ∧
    (k.fs.view 2).size = 0 := by
  have hcheck : (afterOp image (.ialloc T_FILE)).any (fun k => decide (k.fs.outstanding = 0 ∧
      k.fs.lh = [] ∧ LOGSIZE ≤ k.fs.sb.nlog ∧ (k.fs.view 2).type = T_FILE ∧ 0 < k.fs.ref 2 ∧
      (k.fs.view 2).size = 0)) = true := by decide +kernel
  obtain ⟨k, hk, hok⟩ := (Option.any_eq_true _ _).mp hcheck
  obtain ⟨ho, hlh, hn, ht, hr, hs⟩ := of_decide_eq_true hok
  have hrest : Rest k := (blockRun_afterOp .start
    (show BlockCall.Legal image (.ialloc T_FILE) from show T_FILE ≠ 0 by decide) hk).rest
    ⟨image_good, fun _ => rfl⟩
  exact ⟨k, hk, ⟨hrest, ho, hlh, hn⟩, ⟨ht, hr⟩, hs⟩

/-- A byte is written to the empty file. -/
theorem files_are_byte_arrays_oneByte : ∃ k r k', Quiet k ∧ k.IsFile 2 ∧
    ((FileCall.writei 2 [120] 0).prog noPipes 0).seq 0 k = .ok (r, k') ∧ r.1 = 1 ∧
    k'.fs.view = Function.update k.fs.view 2 ((k.fs.view 2).write 0 [120]) := by
  obtain ⟨k, hk, hq, hf, hs⟩ := exists_emptyFile
  have hcheck : ((afterOp image (.ialloc T_FILE)).any fun k =>
      match ((FileCall.writei 2 [120] 0).prog noPipes 0).seq 0 k with
      | .ok _ => true
      | .error _ => false) = true := by decide +kernel
  have hlegal : (FileCall.writei 2 [120] 0).Legal k := ⟨hf, by decide, by decide⟩
  have hfit : (k.fs.view 2).Fits 0 [(120 : UInt8)].length :=
    ⟨Nat.zero_le _, by decide, by decide⟩
  have hwp := files_are_byte_arrays hq (.start : FileRun noPipes k k) 0 hlegal
  rw [hk, Option.any_some] at hcheck
  split at hcheck
  next x hx =>
    obtain ⟨⟨hr, ha⟩, -⟩ := wp_of_ok hwp (show _ = Except.ok (x.1, x.2) from hx)
    rw [Arrays.writei_fits hfit] at hr ha
    exact ⟨k, x.1, x.2, hq, hf, hx, by rw [hr]; rfl, congrArg Arrays.file ha⟩
  · cases hcheck

/-- **A write that fits, and does not return.**  27 blocks of the empty file and an indirect block
are as many as the disk has left; with the bitmap they are 29 blocks of one transaction, and
`log_write` panics at the next. -/
theorem writei_too_big : ∃ k, Quiet k ∧
    (FileCall.writei 2 (List.replicate (27 * BSIZE) 0) 0).Legal k ∧
    (k.fs.view 2).Fits 0 (27 * BSIZE) ∧
    ((FileCall.writei 2 (List.replicate (27 * BSIZE) 0) 0).prog noPipes 0).seq 0 k =
      .error (.panic .tooBig) := by
  obtain ⟨k, hk, hq, hf, hs⟩ := exists_emptyFile
  have hcheck : ((afterOp image (.ialloc T_FILE)).any fun k =>
      match ((FileCall.writei 2 (List.replicate (27 * BSIZE) 0) 0).prog noPipes 0).seq 0 k with
      | .error (.panic .tooBig) => true
      | _ => false) = true := by decide +kernel
  refine ⟨k, hq, ⟨hf, by decide, by rw [List.length_replicate]; decide⟩,
    ⟨Nat.zero_le _, by decide, by decide⟩, ?_⟩
  rw [hk, Option.any_some] at hcheck
  split at hcheck
  next hx => exact hx
  · cases hcheck

end Xv6.Fs
