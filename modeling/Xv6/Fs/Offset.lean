/-
# One offset, many processes

Processes that share a `struct file` share its offset.  `fileread` and `filewrite` use it and
advance it under the lock of the inode, so between two of these critical sections it is where the
last one has left it.  A run is an interleaving of the critical sections of any number of
processes, and of their `begin_op`s and `end_op`s, which change nothing that a file shows.

A step that panics is no step: the kernel has stopped.  Beside the kernel the state keeps the calls
that were made, the chunks of bytes that their critical sections have transferred, and what the
calls have returned.
-/
import Xv6.Fs.FileIo
import Xv6.Lib.Places

namespace Xv6.Fs.Offset

open Function (forall_update_iff update update_idem update_of_ne update_self)

open Bytes
/-! ## 1. The machine -/

/-- Where a process is. -/
inductive Pc
  | user
  /-- In `fileread` for `n` bytes, at `ilock`; it is call number `id`. -/
  | read (id n : Nat)
  /-- In `filewrite` of `n` bytes, at `begin_op`, with `rest` left to write. -/
  | begin (id n : Nat) (rest : List UInt8)
  /-- In `filewrite`, at `ilock`. -/
  | write (id n : Nat) (rest : List UInt8)
  /-- In `filewrite`, at `end_op`, when `writei` has returned `r`. -/
  | wrote (id n : Nat) (rest : List UInt8) (r : Int)
  deriving DecidableEq, Repr

/-- The bytes that a critical section has transferred. -/
structure Chunk where
  /-- The number of the call. -/
  call : Nat
  /-- The offset it has found. -/
  off : Nat
  bytes : List UInt8
  /-- It was written, not read. -/
  written : Bool
  deriving DecidableEq, Repr

/-- The kernel, the processes, and what has happened. -/
structure State where
  kern : Kern
  pc : Pid → Pc
  /-- The calls: the data of a `filewrite`, nothing for a `fileread`. -/
  calls : List (Option (List UInt8))
  chunks : List Chunk
  /-- The calls that have returned, and what. -/
  rets : List (Nat × Int)

/-- What happens next. -/
inductive Act
  /-- `p` calls `fileread(f, addr, n)`. -/
  | fileread (p : Pid) (n : Nat)
  /-- `p` calls `filewrite(f, addr, n)`, with these bytes at `addr`. -/
  | filewrite (p : Pid) (src : List UInt8)
  /-- `p` goes on. -/
  | go (p : Pid)
  deriving DecidableEq, Repr

namespace State

/-- A call returns. -/
def ret (s : State) (p : Pid) (id : Nat) (r : Int) : State :=
  { s with pc := update s.pc p .user, rets := s.rets ++ [(id, r)] }

/-- The critical section of `fileread`, and its return. -/
def goRead (s : State) (f : Nat) (p : Pid) (id n : Nat) : Option State :=
  let file := s.kern.ftable f
  match (underLock p file.ip (fileReadi f n)).seq p s.kern with
  | .ok (r, kern) =>
    let s := { s with
      kern := kern
      chunks := s.chunks ++ (r.map fun bytes => Chunk.mk id file.off bytes false).toList }
    some (s.ret p id (readRet r).1)
  | .error _ => none

/-- The critical section of `filewrite`. -/
def goWrite (s : State) (f : Nat) (p : Pid) (id n : Nat) (rest : List UInt8) : Option State :=
  let file := s.kern.ftable f
  match (underLock p file.ip (fileWritei f (rest.take MAXWRITE))).seq p s.kern with
  | .ok (r, kern) => some { s with
      kern := kern
      pc := update s.pc p (.wrote id n rest r)
      chunks := s.chunks ++ if 0 < r then
        [Chunk.mk id file.off ((rest.take MAXWRITE).take r.toNat) true] else [] }
  | .error _ => none

/-- The loop of `filewrite` after `end_op`. -/
def goLoop (s : State) (p : Pid) (id n : Nat) (rest : List UInt8) (r : Int) : Option State :=
  if r < 0 then some (s.ret p id (-1))
  else if r ≠ (rest.take MAXWRITE).length then none
  else if rest.drop MAXWRITE = [] then some (s.ret p id n)
  else some { s with pc := update s.pc p (.begin id n (rest.drop MAXWRITE)) }

/-- `begin_op` and `end_op`. -/
def log (s : State) (m : FsM Unit) : Option State :=
  match onFs m s.kern with
  | .ok (_, kern) => some { s with kern := kern }
  | .error _ => none

/-- One step of the processes that have file `f` open. -/
def step (s : State) (f : Nat) : Act → Option State
  | .fileread p n =>
    match s.pc p with
    | .user =>
      if n < 2 ^ 32 then
        let id := s.calls.length
        let s := { s with calls := s.calls ++ [none] }
        if (s.kern.ftable f).readable = false then some (s.ret p id (-1))
        else some { s with pc := update s.pc p (.read id n) }
      else none
    | _ => none
  | .filewrite p src =>
    match s.pc p with
    | .user =>
      if src.length < 2 ^ 31 then
        let id := s.calls.length
        let s := { s with calls := s.calls ++ [some src] }
        if (s.kern.ftable f).writable = false then some (s.ret p id (-1))
        else if src = [] then some (s.ret p id 0)
        else some { s with pc := update s.pc p (.begin id src.length src) }
      else none
    | _ => none
  | .go p =>
    match s.pc p with
    | .user => none
    | .read id n => s.goRead f p id n
    | .begin id n rest =>
      (s.log beginOp).map fun s => { s with pc := update s.pc p (.write id n rest) }
    | .write id n rest => s.goWrite f p id n rest
    | .wrote id n rest r => (s.log endOp).bind fun s => s.goLoop p id n rest r

end State

/-- Before the first call. -/
def start (k : Kern) : State := ⟨k, fun _ => .user, [], [], []⟩

/-- The states that the steps lead to. -/
inductive Reach (k : Kern) (f : Nat) : State → Prop
  | start : Reach k f (start k)
  | step {s s' : State} {a : Act} : Reach k f s → s.step f a = some s' → Reach k f s'

/-- The bytes that a call has transferred so far. -/
def bytesOf (chunks : List Chunk) (id : Nat) : List UInt8 :=
  (chunks.filter fun c => c.call = id).flatMap Chunk.bytes

/-! ## 2. A critical section -/

section

variable {k : Kern} {p : Pid} {ip f n : Nat} {src : List UInt8}

/-- A critical section that keeps to its inode, whatever the log is doing. -/
theorem wp_section (h : Rest k) (hfile : k.IsFile ip) {α : Type} {m : KM α}
    {P : α → Arrays → Prop}
    (hm : ∀ s, Held k.fs p ip s → wp m (fun r k' => Good k'.fs ∧ Frame s k'.fs ∧ P r k'.arrays)
      (fun _ => True) { k with fs := s }) :
    wp ((underLock p ip m).seq p) (fun r k' => Rest k' ∧ k'.fs.ref = k.fs.ref ∧ P r k'.arrays)
      (fun _ => True) k := by
  simp only [underLock, Prog.bind_eq_bind, Prog.wp_seq_bind, Prog.wp_seq_lift]
  refine wp_ilock_free h.good (h.unlocked ip) hfile.2 (Quiet.alloc hfile) fun s hs => ?_
  refine wp_conseq (hm s hs) fun r k' hpost => ?_
  obtain ⟨hg, hf, hP⟩ := hpost
  refine wp_iunlock_held hs (h.unlocked ip) hfile.2 hg hf fun t hgt hvt hlt hrt _ _ _ => ?_
  refine ⟨⟨hgt, fun i => (congrFun hlt i).trans (h.unlocked i)⟩, hrt, ?_⟩
  rw [show Kern.arrays { k' with fs := t } = k'.arrays from congrArg (Arrays.mk · k'.ftable) hvt]
  exact hP

theorem wp_read (h : Rest k) (hfile : k.IsFile (k.ftable f).ip) (hoff : (k.ftable f).off < 2 ^ 32)
    (hn : n < 2 ^ 32) :
    wp ((underLock p (k.ftable f).ip (fileReadi f n)).seq p) (fun r k' => Rest k' ∧
      k'.fs.ref = k.fs.ref ∧ r = k.arrays.readi (k.ftable f).ip (k.ftable f).off n ∧
      k'.arrays = k.arrays.advance f (r.getD []).length) (fun _ => True) k := by
  refine wp_section h hfile (P := fun r a =>
    r = k.arrays.readi (k.ftable f).ip (k.ftable f).off n ∧
    a = k.arrays.advance f (r.getD []).length) fun s hs => ?_
  refine wp_conseq (hs.wp_fileReadi hfile.1 hoff hn) fun r k' ⟨hk, hr, hft⟩ => ?_
  refine ⟨hk ▸ hs.good, hk ▸ Frame.refl s, hr, ?_⟩
  rw [Kern.arrays, hk, hs.view, hft, hr]
  rfl

theorem wp_write (h : Rest k) (hfile : k.IsFile (k.ftable f).ip)
    (hoff : (k.ftable f).off < 2 ^ 32) (hn : src.length < 2 ^ 32) :
    wp ((underLock p (k.ftable f).ip (fileWritei f src)).seq p) (fun r k' => Rest k' ∧
      k'.fs.ref = k.fs.ref ∧ k.arrays.WrotePiece f src r k'.arrays) (fun _ => True) k := by
  refine wp_section h hfile fun s hs => ?_
  refine wp_mono (wp_fileWritei (hs.wp_writei_files hfile.1 hoff hn k.ftable)) (fun _ _ hr => hr)
    fun _ _ => trivial

end

/-! ## 3. The file -/

/-- The chunks cover the bytes from `a` up to `b`, each from where the one before it ends. -/
def Ranges : Nat → List Chunk → Nat → Prop
  | a, [], b => a = b
  | a, c :: l, b => c.off = a ∧ Ranges (a + c.bytes.length) l b

namespace Ranges

theorem snoc {c : Chunk} : ∀ {l : List Chunk} {a b : Nat}, Ranges a l b → c.off = b →
    Ranges a (l ++ [c]) (b + c.bytes.length)
  | [], _, _, h, hc => ⟨hc.trans h.symm, congrArg (· + _) h⟩
  | _ :: _, _, _, h, hc => ⟨h.1, h.2.snoc hc⟩

theorem final : ∀ {l : List Chunk} {a b : Nat}, Ranges a l b →
    b = a + (l.map fun c => c.bytes.length).sum
  | [], _, _, h => h.symm
  | c :: l, a, b, h => by
    rw [List.map_cons, List.sum_cons, ← Nat.add_assoc]
    exact h.2.final

theorem consecutive : ∀ {l : List Chunk} {a b : Nat}, Ranges a l b → ∀ {i : Nat} {c : Chunk},
    l[i]? = some c → c.off = a + ((l.take i).map fun c => c.bytes.length).sum
  | [], _, _, _, i, c, hc => by simp at hc
  | d :: l, a, b, h, 0, c, hc => by
    obtain rfl : d = c := by simpa using hc
    exact h.1
  | d :: l, a, b, h, i + 1, c, hc => by
    rw [List.take_succ_cons, List.map_cons, List.sum_cons, ← Nat.add_assoc]
    exact h.2.consecutive (by simpa using hc)

theorem le : ∀ {l : List Chunk} {a b : Nat}, Ranges a l b → a ≤ b
  | [], _, _, h => Nat.le_of_eq h
  | _ :: _, _, _, h => (Nat.le_add_right _ _).trans h.2.le

theorem mem : ∀ {l : List Chunk} {a b : Nat}, Ranges a l b → ∀ c ∈ l,
    a ≤ c.off ∧ c.off + c.bytes.length ≤ b
  | d :: l, a, b, h, c, hc => by
    rcases List.mem_cons.mp hc with rfl | hc
    · exact ⟨Nat.le_of_eq h.1.symm, h.1 ▸ h.2.le⟩
    · exact ⟨(Nat.le_add_right _ _).trans (h.2.mem c hc).1, (h.2.mem c hc).2⟩

theorem disjoint : ∀ {l : List Chunk} {a b : Nat}, Ranges a l b →
    l.Pairwise fun c c' => c.off + c.bytes.length ≤ c'.off
  | [], _, _, _ => .nil
  | _ :: _, _, _, h => .cons (fun c' hc => h.1 ▸ (h.2.mem c' hc).1) h.2.disjoint

end Ranges

/-- A chunk is in the file. -/
def Chunk.In (c : Chunk) (g : File) : Prop :=
  c.off + c.bytes.length ≤ g.size ∧ slice g.bytes c.off c.bytes.length = c.bytes

/-- The offset has gone from `a` over the chunks, which are in the file. -/
structure Covered (f a : Nat) (k : Kern) (chunks : List Chunk) : Prop where
  rest : Rest k
  file : k.IsFile (k.ftable f).ip
  lt : (k.ftable f).off < 2 ^ 32
  ranges : Ranges a chunks (k.ftable f).off
  inFile : ∀ c ∈ chunks, c.In (k.fs.view (k.ftable f).ip)
  small : ∀ c ∈ chunks, c.written = true → c.bytes.length ≤ MAXWRITE

section

variable {f a id : Nat} {k k' : Kern} {chunks : List Chunk} {c : Chunk} {bytes src : List UInt8}

theorem Chunk.In.congr {g g' : File} (h : c.In g) (hsize : g.size ≤ g'.size)
    (hbytes : ∀ j < c.off + c.bytes.length, g'.bytes j = g.bytes j) : c.In g' :=
  ⟨h.1.trans hsize, (slice_congr fun j hj => hbytes _ (by omega)).trans h.2⟩

/-- The files and the open files have not changed. -/
theorem Covered.same (h : Covered f a k chunks) (hr : Rest k') (hrefs : k'.fs.ref = k.fs.ref)
    (ha : k'.arrays = k.arrays) : Covered f a k' chunks := by
  have hv : k'.fs.view = k.fs.view := congrArg Arrays.file ha
  have hf : k'.ftable = k.ftable := congrArg Arrays.handle ha
  refine ⟨hr, ?_, by rw [hf]; exact h.lt, by rw [hf]; exact h.ranges,
    by rw [hf, hv]; exact h.inFile, h.small⟩
  rw [Kern.IsFile, hv, hf, hrefs]
  exact h.file

/-- A chunk is read. -/
theorem Covered.read {n : Nat} (h : Covered f a k chunks) (hr : Rest k')
    (hrefs : k'.fs.ref = k.fs.ref)
    (hread : k.arrays.readi (k.ftable f).ip (k.ftable f).off n = some bytes)
    (ha : k'.arrays = k.arrays.advance f bytes.length) :
    Covered f a k' (chunks ++ [⟨id, (k.ftable f).off, bytes, false⟩]) := by
  have hv : k'.fs.view = k.fs.view := congrArg Arrays.file ha
  have hf : k'.ftable f = { k.ftable f with off := (k.ftable f).off + bytes.length } := by
    have := congrFun (congrArg Arrays.handle ha) f
    exact this.trans (update_self ..)
  obtain ⟨hfit, hb⟩ := Option.ite_none_right_eq_some.mp hread
  replace hb := Option.some.inj hb
  have hlen : bytes.length = min ((k.ftable f).off + n) (k.fs.view (k.ftable f).ip).size -
      (k.ftable f).off := by
    rw [← hb, slice_length]
    rfl
  have hle : (k.ftable f).off ≤ (k.fs.view (k.ftable f).ip).size := hfit.1
  refine ⟨hr, ?_, ?_, ?_, fun c hc => ?_, fun c hc hw => ?_⟩
  · rw [Kern.IsFile, hv, hf, hrefs]
    exact h.file
  · rw [hf]
    exact Arrays.readi_length hread
  · rw [hf]
    exact h.ranges.snoc rfl
  · rw [hv, hf]
    rcases List.mem_append.mp hc with hc | hc
    · exact h.inFile c hc
    · obtain rfl := List.mem_singleton.mp hc
      refine ⟨by dsimp only; omega, ?_⟩
      dsimp only
      rw [hlen]
      exact hb
  · rcases List.mem_append.mp hc with hc | hc
    · exact h.small c hc hw
    · obtain rfl := List.mem_singleton.mp hc
      cases hw

/-- A chunk is written. -/
theorem Covered.write (h : Covered f a k chunks) (hr : Rest k') (hrefs : k'.fs.ref = k.fs.ref)
    (hfit : (k.arrays.file (k.arrays.handle f).ip).Fits (k.arrays.handle f).off src.length)
    (hsmall : src.length ≤ MAXWRITE) (ha : k'.arrays = k.arrays.filewrite f src) :
    Covered f a k' (chunks ++ [⟨id, (k.ftable f).off, src, true⟩]) := by
  rw [Arrays.filewrite_fits hfit] at ha
  have hf : k'.ftable f = { k.ftable f with off := (k.ftable f).off + src.length } := by
    have := congrFun (congrArg Arrays.handle ha) f
    exact this.trans (update_self ..)
  have hv : k'.fs.view (k.ftable f).ip =
      (k.fs.view (k.ftable f).ip).write (k.ftable f).off src := by
    have := congrFun (congrArg Arrays.file ha) (k.ftable f).ip
    exact this.trans (update_self ..)
  refine ⟨hr, ?_, ?_, ?_, fun c hc => ?_, fun c hc hw => ?_⟩
  · rw [Kern.IsFile, hf, hv, hrefs]
    exact h.file
  · rw [hf]
    exact hfit.2.1
  · rw [hf]
    exact h.ranges.snoc rfl
  · rw [hf, hv]
    rcases List.mem_append.mp hc with hc | hc
    · refine (h.inFile c hc).congr (Nat.le_max_left ..) fun j hj => ?_
      exact splice_apply_of_lt (hj.trans_le (h.ranges.mem c hc).2)
    · obtain rfl := List.mem_singleton.mp hc
      refine ⟨Nat.le_max_right .., ?_⟩
      refine List.ext_getElem (slice_length ..) fun j hj _ => ?_
      have hj : j < src.length := by rwa [slice_length] at hj
      simp only [slice, File.write, List.getElem_map, List.getElem_range]
      rw [splice_apply_mem hj, List.getD_eq_getElem?_getD, List.getElem?_eq_getElem hj,
        Option.getD_some]
  · rcases List.mem_append.mp hc with hc | hc
    · exact h.small c hc hw
    · obtain rfl := List.mem_singleton.mp hc
      exact hsmall

end

/-! ## 4. The calls -/

theorem bytesOf_append {l cs : List Chunk} {id i : Nat} (h : ∀ c ∈ cs, c.call = i) :
    bytesOf (l ++ cs) id = bytesOf l id ++ if i = id then cs.flatMap Chunk.bytes else [] := by
  unfold bytesOf
  rw [List.filter_append, List.flatMap_append]
  congr 1
  split
  · rename_i e
    rw [List.filter_eq_self.mpr fun c hc => decide_eq_true ((h c hc).trans e)]
  · rename_i e
    rw [List.filter_eq_nil_iff.mpr fun c hc hd => e ((h c hc).symm.trans (of_decide_eq_true hd))]
    rfl

/-- The number of the call a process is in. -/
def Pc.call : Pc → Option Nat
  | .user => none
  | .read id _ | .begin id _ _ | .write id _ _ | .wrote id _ _ _ => some id

/-- A `filewrite` of `n` bytes has `rest` left to write. -/
def Left (calls : List (Option (List UInt8))) (chunks : List Chunk) (id n : Nat)
    (rest : List UInt8) : Prop :=
  ∃ src, calls[id]? = some (some src) ∧ n = src.length ∧ bytesOf chunks id ++ rest = src

/-- What is known about the call of a process. -/
def Place (calls : List (Option (List UInt8))) (chunks : List Chunk) : Pc → Prop
  | .user => True
  | .read id n => n < 2 ^ 32 ∧ calls[id]? = some none ∧ bytesOf chunks id = []
  | .begin id n rest | .write id n rest => rest ≠ [] ∧ Left calls chunks id n rest
  | .wrote id n rest r => (∃ src, calls[id]? = some (some src)) ∧
      (r < 0 ∨ Left calls chunks id n (rest.drop MAXWRITE))

/-- What is known about a call that has returned. -/
def Done (calls : List (Option (List UInt8))) (chunks : List Chunk) (x : Nat × Int) : Prop :=
  x.1 < calls.length ∧ (0 ≤ x.2 → x.2 = (bytesOf chunks x.1).length ∧
    ∀ src, calls[x.1]? = some (some src) → bytesOf chunks x.1 = src)

/-- The calls of all processes. -/
structure Books (s : State) : Prop where
  place : ∀ p, Place s.calls s.chunks (s.pc p)
  unique : ∀ p q id, (s.pc p).call = some id → (s.pc q).call = some id → p = q
  running : ∀ p id, (s.pc p).call = some id → ∀ r, (id, r) ∉ s.rets
  done : ∀ x ∈ s.rets, Done s.calls s.chunks x
  known : ∀ c ∈ s.chunks, c.call < s.calls.length

section

variable {s : State} {p : Pid} {id : Nat} {x : Pc} {cs : List Chunk}
  {calls calls' : List (Option (List UInt8))} {chunks chunks' : List Chunk}

theorem Place.congr (h : Place calls chunks x)
    (hcalls : ∀ (i : Nat) c, calls[i]? = some c → calls'[i]? = some c)
    (hbytes : ∀ i, x.call = some i → bytesOf chunks' i = bytesOf chunks i) :
    Place calls' chunks' x := by
  have hleft : ∀ {i n rest}, x.call = some i → Left calls chunks i n rest →
      Left calls' chunks' i n rest := fun hx ⟨src, h₁, h₂, h₃⟩ =>
    ⟨src, hcalls _ _ h₁, h₂, by rw [hbytes _ hx]; exact h₃⟩
  cases x with
  | user => trivial
  | read i n => exact ⟨h.1, hcalls _ _ h.2.1, (hbytes i rfl).trans h.2.2⟩
  | begin i n rest => exact ⟨h.1, hleft rfl h.2⟩
  | write i n rest => exact ⟨h.1, hleft rfl h.2⟩
  | wrote i n rest r =>
    exact ⟨h.1.imp fun _ => hcalls _ _, h.2.imp_right (hleft rfl)⟩

theorem Place.lt (h : Place calls chunks x) (hx : x.call = some id) : id < calls.length := by
  have hsome : ∀ {c}, calls[id]? = some c → id < calls.length := fun hc =>
    (List.getElem?_eq_some_iff.mp hc).1
  cases x with
  | user => cases hx
  | read i n => exact hsome (Option.some.inj hx ▸ h.2.1)
  | begin i n rest =>
    obtain ⟨-, src, hc, -⟩ := h
    exact hsome (Option.some.inj hx ▸ hc)
  | write i n rest =>
    obtain ⟨-, src, hc, -⟩ := h
    exact hsome (Option.some.inj hx ▸ hc)
  | wrote i n rest r =>
    obtain ⟨⟨src, hc⟩, -⟩ := h
    exact hsome (Option.some.inj hx ▸ hc)

theorem bytesOf_other {i : Nat} (hcs : ∀ c ∈ cs, c.call = id) (hi : i ≠ id) :
    bytesOf (chunks ++ cs) i = bytesOf chunks i := by
  rw [bytesOf_append hcs, if_neg hi.symm, List.append_nil]

theorem Done.failed (h : id < calls.length) : Done calls chunks (id, -1) :=
  ⟨h, fun h0 => absurd (show (0 : Int) ≤ -1 from h0) (by decide)⟩

theorem Done.congr {y : Nat × Int} (h : Done calls chunks y) (hlen : calls.length ≤ calls'.length)
    (hcalls : calls'[y.1]? = calls[y.1]?) (hbytes : bytesOf chunks' y.1 = bytesOf chunks y.1) :
    Done calls' chunks' y :=
  ⟨h.1.trans_le hlen, by rw [hcalls, hbytes]; exact h.2⟩

namespace Books

theorem known_append (h : Books s) (hp : (s.pc p).call = some id) (hcs : ∀ c ∈ cs, c.call = id) :
    ∀ c ∈ s.chunks ++ cs, c.call < s.calls.length := by
  intro c hc
  rcases List.mem_append.mp hc with hc | hc
  · exact h.known c hc
  · rw [hcs c hc]
    exact (h.place p).lt hp

/-- A process goes on with its call, which may transfer chunks. -/
theorem go (h : Books s) (hp : (s.pc p).call = some id) (hx : x.call = some id)
    (hcs : ∀ c ∈ cs, c.call = id) (hplace : Place s.calls (s.chunks ++ cs) x) (k : Kern) :
    Books { s with kern := k, pc := update s.pc p x, chunks := s.chunks ++ cs } := by
  have hcall : ∀ q, (update s.pc p x q).call = (s.pc q).call := update_at (hx.trans hp.symm)
  refine ⟨(forall_update_iff s.pc fun _ y => Place s.calls (s.chunks ++ cs) y).mpr
    ⟨hplace, fun q hq => (h.place q).congr (fun _ _ hc => hc) fun i hi => ?_⟩, ?_, ?_, ?_,
      h.known_append hp hcs⟩
  · refine bytesOf_other hcs fun e => hq (h.unique q p id ?_ hp)
    rw [hi, e]
  · intro q q' i hq hq'
    rw [hcall] at hq hq'
    exact h.unique q q' i hq hq'
  · intro q i hq
    rw [hcall] at hq
    exact h.running q i hq
  · intro y hy
    refine (h.done y hy).congr (Nat.le_refl _) rfl (bytesOf_other hcs fun e => ?_)
    exact h.running p id hp y.2 (e ▸ hy)

/-- A call returns. -/
theorem ret (h : Books s) (hp : (s.pc p).call = some id) (hcs : ∀ c ∈ cs, c.call = id)
    {r : Int} (hdone : Done s.calls (s.chunks ++ cs) (id, r)) (k : Kern) :
    Books (({ s with kern := k, chunks := s.chunks ++ cs } : State).ret p id r) := by
  have hne : ∀ q i, (update s.pc p .user q).call = some i → q ≠ p ∧ (s.pc q).call = some i := by
    intro q i hq
    rcases eq_or_ne q p with rfl | hqp
    · rw [update_self] at hq
      cases hq
    · rw [update_of_ne hqp] at hq
      exact ⟨hqp, hq⟩
  refine ⟨(forall_update_iff s.pc fun _ y => Place s.calls (s.chunks ++ cs) y).mpr
    ⟨trivial, fun q hq => (h.place q).congr (fun _ _ hc => hc) fun i hi => ?_⟩, ?_, ?_, ?_,
      h.known_append hp hcs⟩
  · refine bytesOf_other hcs fun e => hq (h.unique q p id ?_ hp)
    rw [hi, e]
  · intro q q' i hq hq'
    exact h.unique q q' i (hne q i hq).2 (hne q' i hq').2
  · intro q i hq r' hr
    obtain ⟨hqp, hqi⟩ := hne q i hq
    rcases List.mem_append.mp hr with hr | hr
    · exact h.running q i hqi r' hr
    · obtain ⟨e, -⟩ := Prod.mk.inj (List.mem_singleton.mp hr)
      exact hqp (h.unique q p id (e ▸ hqi) hp)
  · intro y hy
    rcases List.mem_append.mp hy with hy | hy
    · refine (h.done y hy).congr (Nat.le_refl _) rfl (bytesOf_other hcs fun e => ?_)
      exact h.running p id hp y.2 (e ▸ hy)
    · rw [List.mem_singleton.mp hy]
      exact hdone

/-- A process goes on, and nothing is transferred. -/
theorem move (h : Books s) (hp : (s.pc p).call = some id) (hx : x.call = some id)
    (hplace : Place s.calls s.chunks x) (k : Kern) :
    Books { s with kern := k, pc := update s.pc p x } := by
  have hnone : ∀ c ∈ ([] : List Chunk), c.call = id := fun _ hc => absurd hc List.not_mem_nil
  have := h.go hp hx hnone (by rwa [List.append_nil]) k
  rwa [List.append_nil] at this

/-- A call returns, and nothing more is transferred. -/
theorem leave (h : Books s) (hp : (s.pc p).call = some id) {r : Int}
    (hdone : Done s.calls s.chunks (id, r)) (k : Kern) :
    Books (({ s with kern := k } : State).ret p id r) := by
  have hnone : ∀ c ∈ ([] : List Chunk), c.call = id := fun _ hc => absurd hc List.not_mem_nil
  have := h.ret hp hnone (by rwa [List.append_nil]) k
  rwa [List.append_nil] at this

/-- A process makes a call. -/
theorem call (h : Books s) (hp : s.pc p = .user) (c : Option (List UInt8))
    (hx : x.call = some s.calls.length) (hplace : Place (s.calls ++ [c]) s.chunks x) :
    Books { s with pc := update s.pc p x, calls := s.calls ++ [c] } := by
  have hold : ∀ (i : Nat) d, s.calls[i]? = some d → (s.calls ++ [c])[i]? = some d := fun i d hd => by
    rw [List.getElem?_append_left (List.getElem?_eq_some_iff.mp hd).1, hd]
  have hcall : ∀ q i, (update s.pc p x q).call = some i →
      (q = p ∧ i = s.calls.length) ∨ q ≠ p ∧ (s.pc q).call = some i ∧ i < s.calls.length := by
    intro q i hq
    rcases eq_or_ne q p with rfl | hqp
    · rw [update_self, hx] at hq
      exact .inl ⟨rfl, (Option.some.inj hq).symm⟩
    · rw [update_of_ne hqp] at hq
      exact .inr ⟨hqp, hq, (h.place q).lt hq⟩
  refine ⟨(forall_update_iff s.pc fun _ y => Place (s.calls ++ [c]) s.chunks y).mpr
    ⟨hplace, fun q _ => (h.place q).congr hold fun _ _ => rfl⟩, ?_, ?_, ?_, fun d hd => ?_⟩
  · intro q q' i hq hq'
    rcases hcall q i hq with ⟨hqp, hi⟩ | ⟨-, hqi, hi⟩
    · rcases hcall q' i hq' with ⟨hqp', -⟩ | ⟨-, -, hi'⟩
      · rw [hqp, hqp']
      · omega
    · rcases hcall q' i hq' with ⟨-, hi'⟩ | ⟨-, hqi', -⟩
      · omega
      · exact h.unique q q' i hqi hqi'
  · intro q i hq r hr
    rcases hcall q i hq with ⟨-, hi⟩ | ⟨-, hqi, -⟩
    · have : i < s.calls.length := (h.done (i, r) hr).1
      omega
    · exact h.running q i hqi r hr
  · intro y hy
    have hlt := (h.done y hy).1
    refine (h.done y hy).congr (by rw [List.length_append]; omega) ?_ rfl
    exact List.getElem?_append_left hlt
  · have := h.known d hd
    rw [List.length_append]
    omega

end Books

/-- A call that returns at once. -/
theorem Books.refuse (h : Books s) (hp : s.pc p = .user) {c : Option (List UInt8)}
    (hx : x.call = some s.calls.length) (hplace : Place (s.calls ++ [c]) s.chunks x) {r : Int}
    (hdone : Done (s.calls ++ [c]) s.chunks (s.calls.length, r)) :
    Books (({ s with calls := s.calls ++ [c] } : State).ret p s.calls.length r) := by
  have hcall : (update s.pc p x p).call = some s.calls.length := by
    rw [update_self, hx]
  have := (h.call hp c hx hplace).leave hcall hdone s.kern
  simp only [State.ret, update_idem] at this
  exact this

end

/-! ## 5. Every run -/

structure Inv (f a : Nat) (s : State) : Prop where
  covered : Covered f a s.kern s.chunks
  books : Books s

section

variable {f a : Nat} {s s' : State} {p : Pid} {id n : Nat} {rest : List UInt8}

theorem inv_start {k : Kern} (hr : Rest k) (hfile : k.IsFile (k.ftable f).ip)
    (hlt : (k.ftable f).off < 2 ^ 32) : Inv f (k.ftable f).off (start k) where
  covered := ⟨hr, hfile, hlt, rfl, nofun, nofun⟩
  books := ⟨fun _ => trivial, nofun, nofun, nofun, nofun⟩

/-- What code run to its end has done. -/
theorem seq_ok {α : Type} {m : KProg α} {k k' : Kern} {r : α} {Q : α → Kern → Prop}
    {E : Stop Panic Want → Prop} (hwp : wp (m.seq p) Q E k) (hok : m.seq p k = .ok (r, k')) :
    Q r k' := wp_of_ok hwp hok

theorem Inv.goRead (h : Inv f a s) (hp : s.pc p = .read id n) (hs : s.goRead f p id n = some s') :
    Inv f a s' := by
  have hplace := h.books.place p
  rw [hp] at hplace
  obtain ⟨hn, hcall, hbytes⟩ := hplace
  have hlen : id < s.calls.length := (List.getElem?_eq_some_iff.mp hcall).1
  have hid : (s.pc p).call = some id := by rw [hp, Pc.call]
  unfold State.goRead at hs
  dsimp only at hs
  split at hs
  · next r kern hok =>
    obtain rfl := Option.some.inj hs
    obtain ⟨hr, hrefs, hread, ha⟩ :=
      seq_ok (wp_read h.covered.rest h.covered.file h.covered.lt hn) hok
    cases r with
    | none =>
      rw [Option.getD_none, List.length_nil, Arrays.advance_zero] at ha
      rw [Option.map_none, Option.toList_none, List.append_nil]
      exact ⟨h.covered.same hr hrefs ha, h.books.leave hid (.failed hlen) kern⟩
    | some bytes =>
      refine ⟨h.covered.read hr hrefs hread.symm ha, h.books.ret hid (fun c hc => ?_) ?_ kern⟩
      · rw [List.mem_singleton.mp hc]
      · refine ⟨hlen, fun _ => ⟨?_, fun src hsrc => ?_⟩⟩
        · rw [bytesOf_append (i := id) fun c hc => by rw [List.mem_singleton.mp hc], hbytes,
            if_pos rfl]
          simp [readRet]
        · rw [hcall] at hsrc
          cases hsrc
  · cases hs

theorem Inv.goWrite (h : Inv f a s) (hp : s.pc p = .write id n rest)
    (hs : s.goWrite f p id n rest = some s') : Inv f a s' := by
  have hplace := h.books.place p
  rw [hp] at hplace
  obtain ⟨hrest, src, hcall, hlen, hsrc⟩ := hplace
  have hid : (s.pc p).call = some id := by rw [hp, Pc.call]
  have hsmall : (rest.take MAXWRITE).length ≤ MAXWRITE := List.length_take_le ..
  have hpos : 0 < (rest.take MAXWRITE).length := by
    rw [List.length_take]
    exact Nat.lt_min.mpr ⟨by decide, List.length_pos_of_ne_nil hrest⟩
  unfold State.goWrite at hs
  dsimp only at hs
  split at hs
  · next r kern hok =>
    obtain rfl := Option.some.inj hs
    obtain ⟨hr, hrefs, hpiece⟩ := seq_ok (wp_write h.covered.rest h.covered.file h.covered.lt
      (hsmall.trans_lt (by decide))) hok
    by_cases hfit : (s.kern.arrays.file (s.kern.arrays.handle f).ip).Fits
      (s.kern.arrays.handle f).off (rest.take MAXWRITE).length
    · obtain ⟨rfl, ha⟩ := (Arrays.wrotePiece_fits hfit).mp hpiece
      rw [if_pos (by omega), Int.toNat_natCast, List.take_length]
      refine ⟨h.covered.write hr hrefs hfit hsmall ha,
        h.books.go hid rfl (fun c hc => ?_) (show Place _ _ (.wrote id n rest _) from
          ⟨⟨src, hcall⟩, .inr ⟨src, hcall, hlen, ?_⟩⟩) kern⟩
      · rw [List.mem_singleton.mp hc]
      · rw [bytesOf_append (i := id) fun c hc => by rw [List.mem_singleton.mp hc], if_pos rfl]
        rw [List.flatMap_singleton, List.append_assoc, List.take_append_drop, hsrc]
    · obtain ⟨rfl, ha⟩ := (Arrays.wrotePiece_not_fits hfit).mp hpiece
      rw [if_neg (by decide), List.append_nil]
      exact ⟨h.covered.same hr hrefs ha, h.books.move hid rfl
        (show Place _ _ (.wrote id n rest _) from ⟨⟨src, hcall⟩, .inl (by decide)⟩) kern⟩
  · cases hs

/-- `begin_op` and `end_op` do not show. -/
theorem Inv.log (h : Inv f a s) {g : FileSys → FileSys}
    (hg : ∀ t, ∃ n lh, g t = { t with outstanding := n, lh := lh })
    (hs : s.log (modify g) = some s') :
    Inv f a s' ∧ s'.pc = s.pc ∧ s'.calls = s.calls ∧ s'.chunks = s.chunks := by
  obtain ⟨m, lh, hgm⟩ := hg s.kern.fs
  obtain rfl : { s with kern := { s.kern with fs := g s.kern.fs } } = s' := Option.some.inj hs
  obtain ⟨hgood, hview⟩ := h.covered.rest.good.outstanding m lh
  refine ⟨⟨?_, { h.books with }⟩, rfl, rfl, rfl⟩
  rw [hgm]
  exact h.covered.same ⟨hgood, h.covered.rest.unlocked⟩ rfl
    (congrArg (Arrays.mk · s.kern.ftable) hview)

theorem Inv.goLoop (h : Inv f a s) {r : Int} (hp : s.pc p = .wrote id n rest r)
    (hs : s.goLoop p id n rest r = some s') : Inv f a s' := by
  have hplace := h.books.place p
  rw [hp] at hplace
  obtain ⟨⟨src₀, hcall₀⟩, hleft⟩ := hplace
  have hlen : id < s.calls.length := (List.getElem?_eq_some_iff.mp hcall₀).1
  have hid : (s.pc p).call = some id := by rw [hp, Pc.call]
  have hret : ∀ r, Done s.calls s.chunks (id, r) → Inv f a (s.ret p id r) := fun r hd =>
    ⟨h.covered, h.books.leave hid hd s.kern⟩
  unfold State.goLoop at hs
  split at hs
  · obtain rfl := Option.some.inj hs
    exact hret _ (.failed hlen)
  · rename_i hr
    obtain ⟨src, hcall, hn, hsrc⟩ := hleft.resolve_left hr
    split at hs
    · cases hs
    · split at hs
      · rename_i hnil
        obtain rfl := Option.some.inj hs
        rw [hnil, List.append_nil] at hsrc
        refine hret _ ⟨hlen, fun _ => ⟨by rw [hsrc, hn], fun src' hsrc' => ?_⟩⟩
        rw [hcall] at hsrc'
        cases hsrc'
        exact hsrc
      · rename_i hne
        obtain rfl := Option.some.inj hs
        exact ⟨h.covered, h.books.move hid rfl
          (show Place _ _ (.begin id n _) from ⟨hne, src, hcall, hn, hsrc⟩) s.kern⟩

/-- Nothing was transferred for a call that is not made yet. -/
theorem Books.bytesOf_new (h : Books s) : bytesOf s.chunks s.calls.length = [] := by
  unfold bytesOf
  rw [List.filter_eq_nil_iff.mpr fun c hc hd => ?_]
  · rfl
  · have := h.known c hc
    have := of_decide_eq_true hd
    omega

theorem Inv.fileread (h : Inv f a s) (hp : s.pc p = .user) (hn : n < 2 ^ 32) :
    Inv f a (({ s with calls := s.calls ++ [none] } : State).ret p s.calls.length (-1)) ∧
    Inv f a { s with
      pc := update s.pc p (.read s.calls.length n), calls := s.calls ++ [none] } := by
  have hplace : Place (s.calls ++ [none]) s.chunks (.read s.calls.length n) :=
    ⟨hn, by simp, h.books.bytesOf_new⟩
  exact ⟨⟨h.covered, h.books.refuse hp rfl hplace (.failed (by simp))⟩,
    ⟨h.covered, h.books.call hp none rfl hplace⟩⟩

theorem Inv.filewrite (h : Inv f a s) (hp : s.pc p = .user) (src : List UInt8) :
    Inv f a (({ s with calls := s.calls ++ [some src] } : State).ret p s.calls.length (-1)) ∧
    (src = [] → Inv f a
      (({ s with calls := s.calls ++ [some src] } : State).ret p s.calls.length 0)) ∧
    (src ≠ [] → Inv f a { s with
      pc := update s.pc p (.begin s.calls.length src.length src)
      calls := s.calls ++ [some src] }) := by
  have hcall : (s.calls ++ [some src])[s.calls.length]? = some (some src) := by simp
  have hlt : s.calls.length < (s.calls ++ [some src]).length := by simp
  have hfailed : Place (s.calls ++ [some src]) s.chunks (.wrote s.calls.length 0 [] (-1)) :=
    ⟨⟨src, hcall⟩, .inl (by decide)⟩
  refine ⟨⟨h.covered, h.books.refuse hp rfl hfailed (.failed hlt)⟩, fun hnil => ?_, fun hne => ?_⟩
  · refine ⟨h.covered, h.books.refuse hp rfl hfailed ⟨hlt, fun _ => ?_⟩⟩
    dsimp only
    rw [h.books.bytesOf_new]
    refine ⟨rfl, fun src' hsrc' => ?_⟩
    rw [hcall] at hsrc'
    cases hsrc'
    exact hnil.symm
  · refine ⟨h.covered, h.books.call hp (some src) rfl ⟨hne, src, hcall, rfl, ?_⟩⟩
    rw [h.books.bytesOf_new, List.nil_append]

theorem Inv.step {b : Act} (h : Inv f a s) (hs : s.step f b = some s') : Inv f a s' := by
  cases b with
  | fileread p n =>
    simp only [State.step] at hs
    split at hs
    · next hp =>
      split at hs
      · next hn =>
        split at hs
        · exact Option.some.inj hs ▸ (h.fileread hp hn).1
        · exact Option.some.inj hs ▸ (h.fileread hp hn).2
      · cases hs
    · cases hs
  | filewrite p src =>
    simp only [State.step] at hs
    split at hs
    · next hp =>
      split at hs
      · split at hs
        · exact Option.some.inj hs ▸ (h.filewrite hp src).1
        · split at hs
          · next hnil => exact Option.some.inj hs ▸ (h.filewrite hp src).2.1 hnil
          · next hne => exact Option.some.inj hs ▸ (h.filewrite hp src).2.2 hne
      · cases hs
    · cases hs
  | go p =>
    simp only [State.step] at hs
    split at hs
    · cases hs
    · next hp => exact h.goRead hp hs
    · next id n rest hp =>
      obtain ⟨t, ht, rfl⟩ := Option.map_eq_some_iff.mp hs
      obtain ⟨ht, hpc, -, -⟩ := h.log (fun _ => ⟨_, _, rfl⟩) ht
      have hplace := ht.books.place p
      rw [hpc, hp] at hplace
      exact ⟨ht.covered, ht.books.move (by rw [hpc, hp, Pc.call]) rfl
        (show Place _ _ (.write id n rest) from hplace) t.kern⟩
    · next hp => exact h.goWrite hp hs
    · next hp =>
      obtain ⟨t, ht, hs⟩ := Option.bind_eq_some_iff.mp hs
      obtain ⟨ht, hpc, -, -⟩ := h.log (fun _ => ⟨_, _, rfl⟩) ht
      exact ht.goLoop (by rw [hpc, hp]) hs

/-- **No update of a shared offset is lost**, in one state. -/
structure NoLostUpdate (f a : Nat) (s : State) : Prop where
  /-- Every chunk begins where the one before it ends, the first at the offset at the start. -/
  consecutive : ∀ i c, s.chunks[i]? = some c →
    c.off = a + ((s.chunks.take i).map fun c => c.bytes.length).sum
  disjoint : s.chunks.Pairwise fun c c' => c.off + c.bytes.length ≤ c'.off
  /-- The offset has moved by all the bytes transferred. -/
  offset : (s.kern.ftable f).off = a + (s.chunks.map fun c => c.bytes.length).sum
  /-- What was written is in the file, a chunk in one piece. -/
  written : ∀ c ∈ s.chunks, c.written = true → c.bytes.length ≤ MAXWRITE ∧
    c.In (s.kern.fs.view (s.kern.ftable f).ip)
  /-- A `filewrite` that has not failed has written all of its bytes, in order. -/
  complete : ∀ id r src, (id, r) ∈ s.rets → 0 ≤ r → s.calls[id]? = some (some src) →
    r = src.length ∧ bytesOf s.chunks id = src
  /-- A `fileread` that has not failed returns how many bytes it has read. -/
  read : ∀ id r, (id, r) ∈ s.rets → 0 ≤ r → r = (bytesOf s.chunks id).length

theorem Reach.inv {k : Kern} (h : Reach k f s) (hr : Rest k) (hfile : k.IsFile (k.ftable f).ip)
    (hlt : (k.ftable f).off < 2 ^ 32) : Inv f (k.ftable f).off s := by
  induction h with
  | start => exact inv_start hr hfile hlt
  | step _ hs ih => exact ih.step hs

/-- **The offset of a file that many processes share.** -/
theorem shared_offset {k : Kern} (hr : Rest k) (hfile : k.IsFile (k.ftable f).ip)
    (hlt : (k.ftable f).off < 2 ^ 32) (h : Reach k f s) :
    NoLostUpdate f (k.ftable f).off s := by
  obtain ⟨hc, hb⟩ := h.inv hr hfile hlt
  refine ⟨fun i c hi => hc.ranges.consecutive hi, hc.ranges.disjoint, hc.ranges.final,
    fun c hm hw => ⟨hc.small c hm hw, hc.inFile c hm⟩, fun id r src hret h0 hcall => ?_,
    fun id r hret h0 => ((hb.done _ hret).2 h0).1⟩
  obtain ⟨hlen, hsrc⟩ := (hb.done _ hret).2 h0
  have hsrc := hsrc src hcall
  exact ⟨by rw [← hsrc]; exact hlen, hsrc⟩

end

/-- The state after a list of steps, if each is possible. -/
def exec (f : Nat) (s : State) : List Act → Option State
  | [] => some s
  | b :: bs => (s.step f b).bind fun s => exec f s bs

theorem reach_exec {k : Kern} {f : Nat} : ∀ {bs : List Act} {s s' : State}, Reach k f s →
    exec f s bs = some s' → Reach k f s'
  | [], _, _, h, he => Option.some.inj he ▸ h
  | b :: bs, s, s', h, he => by
    obtain ⟨s₁, hs, he⟩ := Option.bind_eq_some_iff.mp he
    exact reach_exec (h.step hs) he

/-- Inode 2 is open for reading and writing, at its beginning. -/
def opened (k : Kern) : Kern := { k with ftable := fun _ => ⟨.inode, 2, true, true, 2, 0⟩ }

/-- Two processes write; the second one comes first. -/
def twoWriters : List Act :=
  [.filewrite 0 [97, 98], .filewrite 1 [99], .go 0, .go 1, .go 1, .go 0, .go 0, .go 1]

theorem shared_offset_twoWriters : ∃ k s, Reach (opened k) 0 s ∧
    s.chunks = [⟨1, 0, [99], true⟩, ⟨0, 1, [97, 98], true⟩] ∧ (s.kern.ftable 0).off = 3 ∧
    ∀ c ∈ s.chunks, c.In (s.kern.fs.view 2) := by
  obtain ⟨k, hk, hq, hf, -⟩ := exists_emptyFile
  have hrun : ((afterOp image (.ialloc T_FILE)).bind fun k =>
      exec 0 (start (opened k)) twoWriters).any (fun s =>
        s.chunks = [⟨1, 0, [99], true⟩, ⟨0, 1, [97, 98], true⟩] ∧ (s.kern.ftable 0).ip = 2) =
      true := by
    decide +kernel
  rw [hk, Option.bind_some] at hrun
  obtain ⟨s, hs, hcheck⟩ := (Option.any_eq_true _ _).mp hrun
  obtain ⟨hchunks, hip⟩ := of_decide_eq_true hcheck
  have hreach := reach_exec .start hs
  have h := shared_offset (k := opened k) ⟨hq.good, hq.unlocked⟩ hf (Nat.two_pow_pos 32) hreach
  refine ⟨k, s, hreach, hchunks, ?_, fun c hc => ?_⟩
  · rw [h.offset, hchunks]
    rfl
  · have hw : c.written = true := by
      rw [hchunks] at hc
      rcases List.mem_cons.mp hc with rfl | hc
      · rfl
      · rw [List.mem_singleton.mp hc]
    rw [← hip]
    exact (h.written c hc hw).2

end Xv6.Fs.Offset
