/-
# System calls, one after another

The kernel between two calls is at rest: no inode is locked, and every current directory and every
open file of the file table accounts for one reference to its inode (`Idle`).

Every call that returns leaves the kernel at rest, and has been a run of actions of the naming
layer (`Idle.wp_call`).  So an invariant of the naming layer holds after every sequence of calls,
if the actions that its condition restricts are permitted where a call takes them (`May`).

A call also changes every reference count by as much as the number of places that hold such a
reference (`Even`).
-/
import Xv6.Fs.Spec
import Xv6.Lib.Places
import Mathlib.Algebra.BigOperators.Group.Finset.Piecewise

namespace Xv6.Fs

open Function (update update_apply update_eq_self update_idem update_of_ne update_self)
open Prog (bind_eq_bind pure_eq_ret wp_seq_bind wp_seq_ite wp_seq_lift wp_seq_ret)

/-! ## 1. Who holds a reference -/

/-- The current directory is inode `i`. -/
def Files.holds (files : Files) (i : Nat) : Nat := if files.cwd = some i then 1 else 0

/-- The open file is inode `i`. -/
def OFile.holds (file : OFile) (i : Nat) : Nat := if file.type = .inode ∧ file.ip = i then 1 else 0

/-- The current directories and open files that are inode `i`. -/
def Kern.holders (k : Kern) (i : Nat) : Nat :=
  (∑ p ∈ Finset.range NPROC, (k.proc p).holds i) + ∑ f ∈ Finset.range NFILE, (k.ftable f).holds i

/-- The descriptors of a process that are file `f`. -/
def Files.slots (files : Files) (f : Nat) : Nat :=
  ∑ fd ∈ Finset.range NOFILE, if files.ofile fd = some f then 1 else 0

/-- The descriptors of all processes that are file `f`. -/
def Kern.slots (k : Kern) (f : Nat) : Nat := ∑ p ∈ Finset.range NPROC, (k.proc p).slots f

/-- **The bookkeeping is in order.** -/
structure Tidy (k : Kern) : Prop where
  ftable : k.FtableOk
  slot : ∀ p, (k.proc p).cwd ≠ none → p < NPROC
  ofile : ∀ p fd f, (k.proc p).ofile fd = some f → f < NFILE
  held : ∀ i, k.holders i ≤ k.fs.ref i

/-- **The kernel between two calls.** -/
structure Idle (k : Kern) : Prop extends Tidy k where
  good : Good k.fs
  unlocked : ∀ i, k.fs.lock i = none

section

variable {k : Kern} {p np : Pid} {i f fd : Nat}

theorem holders_setProc (hp : p < NPROC) (files : Files) :
    (k.setProc p files).holders i + (k.proc p).holds i = k.holders i + files.holds i := by
  have := sum_update (ι := Nat) (Files.holds · i) k.proc (Finset.mem_range.mpr hp) files
  simp only [Kern.holders, Kern.setProc]
  omega

theorem holders_setFile (hf : f < NFILE) (file : OFile) :
    (k.setFile f file).holders i + (k.ftable f).holds i = k.holders i + file.holds i := by
  have := sum_update (OFile.holds · i) k.ftable (Finset.mem_range.mpr hf) file
  simp only [Kern.holders, Kern.setFile]
  omega

theorem slots_setProc (hp : p < NPROC) (files : Files) :
    (k.setProc p files).slots f + (k.proc p).slots f = k.slots f + files.slots f :=
  sum_update (ι := Nat) (Files.slots · f) k.proc (Finset.mem_range.mpr hp) files

/-- One descriptor changes. -/
theorem slots_setFd (hp : p < NPROC) (hfd : fd < NOFILE) (o : Option Nat) :
    (k.setProc p ((k.proc p).setFd fd o)).slots f + (if (k.proc p).ofile fd = some f then 1 else 0) =
      k.slots f + if o = some f then 1 else 0 := by
  have hone : ((k.proc p).setFd fd o).slots f + (if (k.proc p).ofile fd = some f then 1 else 0) =
      (k.proc p).slots f + if o = some f then 1 else 0 :=
    sum_update (fun o : Option Nat => if o = some f then 1 else 0) (k.proc p).ofile
      (Finset.mem_range.mpr hfd) o
  have hall := slots_setProc (k := k) (f := f) hp ((k.proc p).setFd fd o)
  omega

theorem slots_setCwd (hp : p < NPROC) (o : Option Nat) :
    (k.setProc p ((k.proc p).setCwd o)).slots f = k.slots f := by
  have hall := slots_setProc (k := k) (f := f) hp ((k.proc p).setCwd o)
  have hfiles : ((k.proc p).setCwd o).slots f = (k.proc p).slots f := rfl
  omega

/-- A current directory is referenced. -/
theorem Tidy.cwd_held (h : Tidy k) (hi : (k.proc p).cwd = some i) : 1 ≤ k.holders i := by
  have hp := h.slot p (by rw [hi]; exact nofun)
  have := holders_setProc (k := k) (i := i) hp ⟨none, (k.proc p).ofile⟩
  simp only [Files.holds, hi, if_true, reduceCtorEq, if_false] at this
  omega

/-- The inode of an open file is referenced. -/
theorem Tidy.file_held (_ : Tidy k) (hf : f < NFILE) (ht : (k.ftable f).type = .inode) :
    1 ≤ k.holders (k.ftable f).ip := by
  have := holders_setFile (k := k) (i := (k.ftable f).ip) hf (k.ftable f).closed
  simp only [OFile.holds, ht, OFile.closed, true_and, if_true, reduceCtorEq, false_and,
    if_false] at this
  omega

/-! ## 2. Changes of the tables -/

/-- The references to inodes have changed as the places that hold them. -/
def Balance (k k' : Kern) : Prop := ∀ i, k'.fs.ref i + k.holders i = k.fs.ref i + k'.holders i

/-- **The counts have changed as what they count.** -/
structure Even (k k' : Kern) : Prop where
  inode : Balance k k'
  file : ∀ f, (k'.ftable f).ref + k.slots f = (k.ftable f).ref + k'.slots f

/-- Every descriptor is in range, and of a process that is there. -/
def Filed (k : Kern) : Prop :=
  ∀ p fd, (k.proc p).ofile fd ≠ none → fd < NOFILE ∧ (k.proc p).cwd ≠ none

/-- What a call does to the counts. -/
def Counts (k k' : Kern) : Prop := Filed k → Filed k' ∧ Even k k'

theorem Balance.refl (k : Kern) : Balance k k := fun _ => rfl

theorem Balance.trans {k₁ k₂ : Kern} (h : Balance k k₁) (h' : Balance k₁ k₂) : Balance k k₂ := by
  intro i
  have := h i
  have := h' i
  omega

theorem Even.refl (k : Kern) : Even k k := ⟨.refl k, fun _ => rfl⟩

theorem Even.trans {k₁ k₂ : Kern} (h : Even k k₁) (h' : Even k₁ k₂) : Even k k₂ where
  inode := h.inode.trans h'.inode
  file f := by
    have := h.file f
    have := h'.file f
    omega

/-- A call that changes neither the tables nor the references. -/
theorem Counts.withFs {s : FileSys} (href : ∀ i, s.ref i = k.fs.ref i) :
    Counts k { k with fs := s } :=
  fun hf => ⟨hf, fun i => congrArg (· + k.holders i) (href i), fun _ => rfl⟩

theorem balance_setProc (hp : p < NPROC) {files : Files} {s : FileSys}
    (h : ∀ i, s.ref i + (k.proc p).holds i = k.fs.ref i + files.holds i) :
    Balance k { k.setProc p files with fs := s } := by
  intro i
  have := holders_setProc (k := k) (i := i) hp files
  have := h i
  show s.ref i + k.holders i = k.fs.ref i + (k.setProc p files).holders i
  omega

theorem balance_setFile (hf : f < NFILE) {file : OFile} {s : FileSys}
    (h : ∀ i, s.ref i + (k.ftable f).holds i = k.fs.ref i + file.holds i) :
    Balance k { k.setFile f file with fs := s } := by
  intro i
  have := holders_setFile (k := k) (i := i) hf file
  have := h i
  show s.ref i + k.holders i = k.fs.ref i + (k.setFile f file).holders i
  omega

theorem Balance.held {k' : Kern} (h : Balance k k') (hk : Tidy k) (i : Nat) :
    k'.holders i ≤ k'.fs.ref i := by
  have := h i
  have := hk.held i
  omega

theorem Tidy.withFs (h : Tidy k) {s : FileSys} (href : ∀ i, k.fs.ref i ≤ s.ref i) :
    Tidy { k with fs := s } :=
  ⟨h.ftable, h.slot, h.ofile, fun i => (h.held i).trans (href i)⟩

/-- Another record of open files, together with what it does to the references. -/
theorem Tidy.setProc (h : Tidy k) (hp : p < NPROC) {files : Files} {s : FileSys}
    (hofile : ∀ fd f, files.ofile fd = some f → f < NFILE)
    (hb : Balance k { k.setProc p files with fs := s }) :
    Tidy { k.setProc p files with fs := s } where
  ftable := h.ftable
  slot q hq := by
    rcases eq_or_ne q p with rfl | hqp
    · exact hp
    · simp only [Kern.setProc, update_of_ne hqp] at hq
      exact h.slot q hq
  ofile q fd f hf := by
    rcases eq_or_ne q p with rfl | hqp
    · simp only [Kern.setProc, update_self] at hf
      exact hofile fd f hf
    · simp only [Kern.setProc, update_of_ne hqp] at hf
      exact h.ofile q fd f hf
  held := hb.held h

/-- Another entry of the file table, together with what it does to the references. -/
theorem Tidy.setFile (h : Tidy k) {file : OFile} {s : FileSys}
    (hfile : file.ref = 0 → file.type = .none)
    (hb : Balance k { k.setFile f file with fs := s }) :
    Tidy { k.setFile f file with fs := s } where
  ftable g hg := by
    rcases eq_or_ne g f with rfl | hgf
    · simp only [Kern.setFile, update_self] at hg ⊢
      exact hfile hg
    · simp only [Kern.setFile, update_of_ne hgf] at hg ⊢
      exact h.ftable g hg
  slot := h.slot
  ofile := h.ofile
  held := hb.held h

theorem balance_setFd (hp : p < NPROC) (o : Option Nat) :
    Balance k (k.setProc p ((k.proc p).setFd fd o)) :=
  balance_setProc (s := k.fs) hp fun _ => rfl

/-- Another descriptor. -/
theorem Tidy.setFd (h : Tidy k) (hp : p < NPROC) {o : Option Nat} (ho : ∀ f, o = some f → f < NFILE) :
    Tidy (k.setProc p ((k.proc p).setFd fd o)) := by
  refine h.setProc (s := k.fs) hp (fun d f hf => ?_) (balance_setFd hp o)
  rcases eq_or_ne d fd with rfl | hd
  · simp only [Files.setFd, update_self] at hf
    exact ho f hf
  · simp only [Files.setFd, update_of_ne hd] at hf
    exact h.ofile p d f hf

theorem Tidy.clearFd (h : Tidy k) (hp : p < NPROC) : Tidy (k.setProc p ((k.proc p).setFd fd none)) :=
  h.setFd hp fun _ hc => nomatch hc

theorem balance_setFileRef (hf : f < NFILE) (n : Nat) :
    Balance k (k.setFile f ((k.ftable f).setRef n)) :=
  balance_setFile (s := k.fs) hf fun _ => rfl

/-- Another reference count of an open file. -/
theorem Tidy.setFileRef (h : Tidy k) (hf : f < NFILE) {n : Nat} (hn : n ≠ 0) :
    Tidy (k.setFile f ((k.ftable f).setRef n)) :=
  h.setFile (s := k.fs) (fun hc => absurd hc hn) (balance_setFileRef hf n)

/-- Another descriptor of a process that is there. -/
theorem Filed.setFd (h : Filed k) {o : Option Nat} (hfd : o ≠ none → fd < NOFILE)
    (hcwd : o ≠ none → (k.proc p).cwd ≠ none) : Filed (k.setProc p ((k.proc p).setFd fd o)) := by
  intro q d hd
  rcases eq_or_ne q p with rfl | hq
  · simp only [Kern.setProc, update_self, Files.setFd] at hd ⊢
    rcases eq_or_ne d fd with rfl | hdfd
    · rw [update_self] at hd
      exact ⟨hfd hd, hcwd hd⟩
    · rw [update_of_ne hdfd] at hd
      exact h q d hd
  · simp only [Kern.setProc, update_of_ne hq] at hd ⊢
    exact h q d hd

end

/-! ## 3. Closing files -/

/-- The panics that a call may stop in, and that it may be stuck. -/
structure CallErrs (c : Ctx) (E : Stop Panic Want → Prop) : Prop extends Errs c E where
  fileclose : E (.panic .fileclose)
  filedup : E (.panic .filedup)
  initExiting : E (.panic .initExiting)
  stuck : ∀ w, E (.stuck w)

/-- The kernel is at rest, inside a call that has come here by permitted actions. -/
structure Calm (c : Ctx) (out : Nat) (k : Kern) : Prop extends Tidy k where
  at_rest : At c k.fs.ref out .none [] [] k.fs

section

variable {c : Ctx} {out : Nat} {k : Kern} {E : Stop Panic Want → Prop} {f fd : Nat}

/-- The references are the ones that are there now. -/
theorem At.settle {base : Nat → Nat} {T : List Nat} {s : FileSys}
    (h : At c base out .none [] T s) : At c s.ref out .none [] [] s :=
  { h with ref := fun i => by simp }

/-- File `f` has lost a reference, and what it held is given back. -/
structure Closed (f : Nat) (k k' : Kern) : Prop where
  proc : k'.proc = k.proc
  inode : Balance k k'
  file : ∀ g, (k'.ftable g).ref + (if g = f then 1 else 0) = (k.ftable g).ref

/-- A count goes down by one. -/
theorem closed_ref {file : OFile} (h : file.ref + 1 = (k.ftable f).ref) (g : Nat) :
    ((k.setFile f file).ftable g).ref + (if g = f then 1 else 0) = (k.ftable g).ref := by
  rcases eq_or_ne g f with rfl | hg
  · rw [if_pos rfl, ← h]
    exact congrArg (fun file : OFile => file.ref + 1) (update_self ..)
  · rw [if_neg hg]
    exact congrArg OFile.ref (update_of_ne hg ..)

theorem wp_fileclose (h : Calm c out k) (he : CallErrs c E) (hf : f < NFILE) {Q : Unit → Kern → Prop}
    (hQ : ∀ k', Calm c out k' → Closed f k k' → Q () k') : wp ((fileclose f).seq c.p) Q E k := by
  simp only [fileclose, bind_eq_bind, wp_seq_bind, wp_seq_lift]
  refine wp_filecloseRef (fun _ => he.fileclose) (fun hmore => ?_) fun hlast => ?_
  · refine hQ _ ⟨h.toTidy.setFileRef hf (by omega), h.at_rest⟩ ⟨rfl, balance_setFileRef hf _, ?_⟩
    exact closed_ref (by simp only [OFile.setRef]; omega)
  · have hclosed : ∀ i, (k.ftable f).closed.holds i = 0 := fun _ => rfl
    have hfile : ∀ g, ((k.setFile f (k.ftable f).closed).ftable g).ref +
        (if g = f then 1 else 0) = (k.ftable g).ref :=
      closed_ref (by simp only [OFile.closed]; omega)
    simp only [wp_seq_ite, wp_seq_bind]
    refine ⟨fun ht => ?_, fun ht => ?_⟩
    · -- the file's reference to the inode goes with it
      have hheld := (h.toTidy.file_held hf ht).trans (h.held _)
      refine At.wp_beginOp (k := k.setFile f _) h.at_rest fun s₁ h₁ _ => ?_
      refine At.wp_iput (k := { k.setFile f _ with fs := s₁ }) (h₁.rebase hheld) he.toErrs (by simp)
        (List.Perm.refl _) fun s₂ h₂ _ => ?_
      refine At.wp_endOp (k := { k.setFile f _ with fs := s₂ }) h₂ fun s₃ h₃ _ => ?_
      have hb : Balance k { k.setFile f (k.ftable f).closed with fs := s₃ } := by
        refine balance_setFile hf fun i => ?_
        have href := h₃.ref i
        rw [hclosed, OFile.holds]
        simp only [List.count_nil, update_apply] at href
        by_cases hi : i = (k.ftable f).ip
        · rw [if_pos hi, ← hi] at href
          rw [← hi] at hheld
          rw [if_pos ⟨ht, hi.symm⟩]
          omega
        · rw [if_neg hi] at href
          rw [if_neg fun hc => hi hc.2.symm]
          omega
      exact hQ _ ⟨h.toTidy.setFile (fun _ => rfl) hb, h₃.settle⟩ ⟨rfl, hb, hfile⟩
    · have hb : Balance k (k.setFile f (k.ftable f).closed) := by
        refine balance_setFile (s := k.fs) hf fun i => ?_
        rw [hclosed, OFile.holds, if_neg fun hc => ht hc.1]
      exact hQ _ ⟨h.toTidy.setFile (s := k.fs) (fun _ => rfl) hb, h.at_rest⟩ ⟨rfl, hb, hfile⟩

/-- A count goes up by one. -/
theorem opened_ref {file : OFile} (h : file.ref = (k.ftable f).ref + 1) (g : Nat) :
    ((k.setFile f file).ftable g).ref = (k.ftable g).ref + if g = f then 1 else 0 := by
  rcases eq_or_ne g f with rfl | hg
  · rw [if_pos rfl, ← h]
    exact congrArg OFile.ref (update_self ..)
  · rw [if_neg hg]
    exact congrArg OFile.ref (update_of_ne hg ..)

/-- A descriptor is set, and its file gets a reference, in either order. -/
theorem even_open {p : Pid} (hp : p < NPROC) (hfd : fd < NOFILE) (hnone : (k.proc p).ofile fd = none)
    {k' : Kern} (hproc : k'.proc = (k.setProc p ((k.proc p).setFd fd (some f))).proc)
    (hinode : Balance k k')
    (hfile : ∀ g, (k'.ftable g).ref = (k.ftable g).ref + if g = f then 1 else 0) : Even k k' where
  inode := hinode
  file g := by
    have hslots := slots_setFd (k := k) (f := g) hp hfd (some f)
    have hsame : k'.slots g = (k.setProc p ((k.proc p).setFd fd (some f))).slots g := by
      simp only [Kern.slots, hproc]
    have hone : (if some f = some g then 1 else 0) = if g = f then 1 else 0 :=
      if_congr (by rw [Option.some.injEq, eq_comm]) rfl rfl
    have hzero : (if (none : Option Nat) = some g then 1 else 0) = 0 := if_neg nofun
    have := hfile g
    rw [hnone, hone, hzero] at hslots
    omega

/-- A descriptor is cleared, and its file closed, in either order. -/
theorem even_close (hp : c.p < NPROC) (hfd : fd < NOFILE) (hf : (k.proc c.p).ofile fd = some f)
    {k' : Kern} (hproc : k'.proc = (k.setProc c.p ((k.proc c.p).setFd fd none)).proc)
    (hinode : Balance k k')
    (hfile : ∀ g, (k'.ftable g).ref + (if g = f then 1 else 0) = (k.ftable g).ref) : Even k k' where
  inode := hinode
  file g := by
    have hslots := slots_setFd (k := k) (f := g) hp hfd none
    have hsame : k'.slots g = (k.setProc c.p ((k.proc c.p).setFd fd none)).slots g := by
      simp only [Kern.slots, hproc]
    have hone : (if some f = some g then 1 else 0) = if g = f then 1 else 0 :=
      if_congr (by rw [Option.some.injEq, eq_comm]) rfl rfl
    have hzero : (if (none : Option Nat) = some g then 1 else 0) = 0 := if_neg nofun
    have := hfile g
    rw [hf, hone, hzero] at hslots
    omega

theorem wp_sysClose (h : Calm c out k) (he : CallErrs c E) (hp : c.p < NPROC)
    {Q : Int → Kern → Prop} (hQ : ∀ k' r, Calm c out k' → Counts k k' → Q r k') :
    wp ((sysClose c.p fd).seq c.p) Q E k := by
  have hsame : Counts k k := fun hf => ⟨hf, .refl k⟩
  simp only [sysClose, bind_eq_bind, wp_seq_bind, wp_seq_lift, argfd, wp_ite,
    getOfile, wp_bind, wp_get, wp_pure]
  refine ⟨fun hlt => ?_, fun _ => hQ k _ h hsame⟩
  cases hfd : (k.proc c.p).ofile fd with
  | none => exact hQ k _ h hsame
  | some f =>
    simp only [wp_seq_bind, wp_seq_lift, setOfile, wp_modify]
    refine wp_fileclose ⟨h.toTidy.clearFd hp, h.at_rest⟩ he (h.ofile _ _ _ hfd)
      fun k' hk' hc => ?_
    refine hQ k' _ hk' fun hfiled => ⟨?_, even_close hp hlt hfd hc.proc ?_ hc.file⟩
    · have hcleared : Filed (k.setProc c.p ((k.proc c.p).setFd fd none)) :=
        hfiled.setFd (fun hc => absurd rfl hc) fun hc => absurd rfl hc
      intro q d hd
      rw [hc.proc] at hd ⊢
      exact hcleared q d hd
    · exact (balance_setFd hp none).trans hc.inode

/-- The record of open files with some descriptors cleared. -/
def Files.cleared (files : Files) (fds : List Nat) : Files :=
  { files with ofile := fun fd => if fd ∈ fds then none else files.ofile fd }

/-- The loop of `exit`. -/
theorem wp_closeAll (he : CallErrs c E) (hp : c.p < NPROC) :
    ∀ (fds : List Nat) (k : Kern), (∀ fd ∈ fds, fd < NOFILE) → Calm c out k →
      ∀ {Q : Unit → Kern → Prop},
      (∀ k', Calm c out k' → k'.proc = update k.proc c.p ((k.proc c.p).cleared fds) →
        Even k k' → Q () k') →
      wp ((closeAll c.p fds).seq c.p) Q E k
  | [], k, _, h, Q, hQ => hQ k h (update_eq_self ..).symm (.refl k)
  | fd :: fds, k, hfds, h, Q, hQ => by
    have hlt := hfds fd (by simp)
    have hrest : ∀ d ∈ fds, d < NOFILE := fun d hd => hfds d (List.mem_cons_of_mem _ hd)
    simp only [closeAll, bind_eq_bind, wp_seq_bind, wp_seq_lift, getOfile, wp_bind,
      wp_get, wp_pure]
    cases hfd : (k.proc c.p).ofile fd with
    | none =>
      refine wp_closeAll he hp fds k hrest h fun k' hk' hproc heven => hQ k' hk' ?_ heven
      have hfiles : (k.proc c.p).cleared fds = (k.proc c.p).cleared (fd :: fds) := by
        unfold Files.cleared
        congr 1
        funext d
        by_cases e : d = fd
        · simp [e, hfd]
        · simp [e]
      rw [hproc, hfiles]
    | some f =>
      simp only [wp_seq_bind, wp_seq_lift]
      refine wp_fileclose h he (h.ofile _ _ _ hfd) fun k₁ h₁ hc => ?_
      rw [setOfile, wp_modify]
      have heven : Even k (k₁.setProc c.p ((k₁.proc c.p).setFd fd none)) :=
        even_close hp hlt hfd (by simp only [Kern.setProc, hc.proc])
          (hc.inode.trans (balance_setFd hp none)) hc.file
      refine wp_closeAll he hp fds _ hrest ⟨h₁.toTidy.clearFd hp, h₁.at_rest⟩
        fun k₂ h₂ hproc heven₂ => hQ k₂ h₂ ?_ (heven.trans heven₂)
      have hfiles : ((k.proc c.p).setFd fd none).cleared fds = (k.proc c.p).cleared (fd :: fds) := by
        unfold Files.cleared Files.setFd
        congr 1
        funext d
        by_cases e : d = fd
        · simp [e]
        · simp [e]
      simp only [hproc, Kern.setProc, update_self, update_idem, hc.proc, hfiles]

/-- `exit`. -/
theorem wp_exit (h : Calm c out k) (he : CallErrs c E) {i : Nat} (hcwd : (k.proc c.p).cwd = some i)
    {Q : Int → Kern → Prop} (hQ : ∀ k' r, Calm c out k' → Counts k k' → Q r k') :
    wp ((exit c.p).seq c.p) Q E k := by
  have hp : c.p < NPROC := h.slot _ (by rw [hcwd]; exact nofun)
  simp only [exit, bind_eq_bind, wp_seq_bind, wp_seq_ite]
  refine ⟨fun _ => ?_, fun _ => ?_⟩
  · rw [wp_atomic, wp_throw]
    exact he.initExiting
  · refine wp_closeAll he hp _ k (fun fd hfd => List.mem_range.mp hfd) h fun k₁ h₁ hproc heven => ?_
    have hk₁ : k₁.proc c.p = (k.proc c.p).cleared (List.range NOFILE) := by
      rw [hproc, update_self]
    have hcwd₁ : (k₁.proc c.p).cwd = some i := by rw [hk₁]; exact hcwd
    have hi : k₁.cwd c.p = i := by rw [Kern.cwd, hcwd₁]; rfl
    have hheld := (h₁.toTidy.cwd_held hcwd₁).trans (h₁.held i)
    refine At.wp_beginOp h₁.at_rest fun s₂ h₂ _ => ?_
    refine At.wp_iputCwd (k := { k₁ with fs := s₂ }) h₂ he.toErrs (by rw [← hi] at hheld; exact hheld)
      fun s₃ h₃ => ?_
    refine At.wp_endOp (k := { k₁ with fs := s₃ }) h₃ fun s₄ h₄ _ => ?_
    simp only [wp_seq_lift, setCwd, wp_modify, pure_eq_ret, wp_seq_ret]
    have hb : Balance k₁ { k₁.setProc c.p ((k₁.proc c.p).setCwd none) with fs := s₄ } := by
      refine balance_setProc hp fun j => ?_
      have href := h₄.ref j
      have hkcwd : ({ k₁ with fs := s₂ } : Kern).cwd c.p = i := hi
      have hgone : ((k₁.proc c.p).setCwd none).holds j = 0 := rfl
      rw [hkcwd] at href
      rw [hgone, Files.holds, hcwd₁]
      simp only [List.count_nil, update_apply, Option.some.injEq] at href ⊢
      by_cases hj : j = i
      · rw [if_pos hj, ← hj] at href
        rw [← hj] at hheld
        rw [if_pos hj.symm]
        omega
      · rw [if_neg hj] at href
        rw [if_neg (Ne.symm hj)]
        omega
    refine hQ _ _ ⟨h₁.toTidy.setProc hp (fun d f hf => h₁.ofile _ d f hf) hb, h₄.settle⟩
      fun hfiled => ⟨fun q d hd => ?_, heven.trans ⟨hb, fun f => ?_⟩⟩
    · rcases eq_or_ne q c.p with rfl | hq
      · -- no descriptor is left
        simp only [Kern.setProc, update_self, Files.setCwd, hk₁, Files.cleared] at hd
        by_cases hlt : d ∈ List.range NOFILE
        · rw [if_pos hlt] at hd
          exact absurd rfl hd
        · rw [if_neg hlt] at hd
          exact absurd (List.mem_range.mpr (hfiled _ d hd).1) hlt
      · simp only [Kern.setProc, update_of_ne hq, hproc] at hd ⊢
        exact hfiled q d hd
    · exact congrArg ((k₁.ftable f).ref + ·) (slots_setCwd hp none).symm

/-- What a pass of the loop of `fork` does to the tables. -/
structure Forked (np : Pid) (fd : Nat) (k k' : Kern) : Prop where
  cwd : ∀ q, (k'.proc q).cwd = (k.proc q).cwd
  other : ∀ q, q ≠ np → k'.proc q = k.proc q
  rest : ∀ d, d ≠ fd → (k'.proc np).ofile d = (k.proc np).ofile d
  even : fd < NOFILE → (k.proc np).ofile fd = none → Even k k'

theorem wp_forkOfile (h : Calm c out k) {p np : Pid} (hnp : np < NPROC) {Q : Unit → Kern → Prop}
    {Eₚ : Panic → Prop} (hE : Eₚ .filedup)
    (hQ : ∀ k', Calm c out k' → Forked np fd k k' → Q () k') :
    wp (forkOfile p np fd) Q Eₚ k := by
  simp only [forkOfile, wp_bind, wp_get]
  cases hfd : (k.proc p).ofile fd with
  | none => exact hQ k h ⟨fun _ => rfl, fun _ _ => rfl, fun _ _ => rfl, fun _ _ => .refl k⟩
  | some f =>
    simp only [wp_ite, wp_throw, wp_bind, wp_set, setOfile, wp_modify]
    refine ⟨fun _ => hE, fun _ => ?_⟩
    have hf := h.ofile _ _ _ hfd
    have h₁ := h.toTidy.setFileRef hf (Nat.succ_ne_zero (k.ftable f).ref)
    refine hQ _ ⟨h₁.setFd hnp fun g hg => Option.some.inj hg ▸ hf, h.at_rest⟩ ⟨fun q => ?_,
      fun q hq => update_of_ne hq .., fun d hd => ?_, fun hlt hnone => ?_⟩
    · rcases eq_or_ne q np with rfl | hq
      · simp only [Kern.setProc, Kern.setFile, update_self, Files.setFd]
      · simp only [Kern.setProc, Kern.setFile, update_of_ne hq]
    · simp only [Kern.setProc, Kern.setFile, update_self, Files.setFd,
        update_of_ne hd]
    · exact even_open hnp hlt hnone rfl ((balance_setFileRef hf _).trans (balance_setFd hnp _))
        (opened_ref rfl)

/-- `fork`. -/
theorem wp_fork (h : Calm c out k) {np : Pid} (hnp : np < NPROC) (hfree : (k.proc np).cwd = none)
    {i : Nat} (hcwd : (k.proc c.p).cwd = some i) {Q : Int → Kern → Prop} {Eₚ : Panic → Prop}
    (hE : Eₚ .filedup) (hQ : ∀ k' r, Calm c out k' → Counts k k' → Q r k') :
    wp (fork c.p np) Q Eₚ k := by
  simp only [fork, wp_bind]
  refine wp_conseq (wp_forM_range (I := fun n k' => Calm c out k' ∧
    (∀ q, (k'.proc q).cwd = (k.proc q).cwd) ∧ (∀ q, q ≠ np → k'.proc q = k.proc q) ∧
    (Filed k → (∀ d, n ≤ d → (k'.proc np).ofile d = none) ∧ Even k k'))
    ⟨h, fun _ => rfl, fun _ _ => rfl, fun hf => ⟨fun d _ => ?_, .refl k⟩⟩ fun fd k₁ hlt h₁ => ?_)
    fun _ k₁ hpost => ?_
  · by_contra hd
    exact (hf np d hd).2 hfree
  · refine wp_forkOfile h₁.1 hnp hE fun k₂ h₂ hk₂ => ⟨h₂, fun q => (hk₂.cwd q).trans (h₁.2.1 q),
      fun q hq => (hk₂.other q hq).trans (h₁.2.2.1 q hq), fun hf => ?_⟩
    obtain ⟨hnone, heven⟩ := h₁.2.2.2 hf
    refine ⟨fun d hd => (hk₂.rest d (by omega)).trans (hnone d (by omega)), ?_⟩
    exact heven.trans (hk₂.even hlt (hnone fd (Nat.le_refl fd)))
  · obtain ⟨h₁, hk₁, hother, hfiled₁⟩ := hpost
    have hcwd₁ := (hk₁ c.p).trans hcwd
    have hheld := (h₁.toTidy.cwd_held hcwd₁).trans (h₁.held i)
    have hget : (k₁.proc c.p).cwd.getD 0 = i := by rw [hcwd₁]; rfl
    simp only [getCwd, wp_bind, wp_get, wp_pure, wp_onFs, idup, wp_modify, setCwd, hget]
    have hdup := h₁.at_rest.dup (c.lax.get _ i (Or.inl hheld))
    have hb : Balance k₁ { k₁.setProc np ((k₁.proc np).setCwd (some i)) with
        fs := { k₁.fs with ref := update k₁.fs.ref i (k₁.fs.ref i + 1) } } := by
      refine balance_setProc hnp fun j => ?_
      have hold : (k₁.proc np).holds j = 0 := by
        rw [Files.holds, hk₁ np, hfree, if_neg (by simp)]
      rw [hold]
      show update k₁.fs.ref i (k₁.fs.ref i + 1) j + 0 =
        k₁.fs.ref j + if some i = some j then 1 else 0
      rcases eq_or_ne j i with rfl | hj
      · rw [if_pos rfl, update_self]
      · rw [if_neg fun hc => hj (Option.some.inj hc).symm, update_of_ne hj]
    refine hQ _ _ ⟨h₁.toTidy.setProc hnp (fun d f hf => h₁.ofile np d f hf) hb, ?_⟩
      fun hf => ⟨fun q d hd => ?_, (hfiled₁ hf).2.trans ⟨hb, fun f => ?_⟩⟩
    · refine { hdup with ref := fun j => ?_ }
      simp [Kern.setProc]
    · rcases eq_or_ne q np with rfl | hq
      · simp only [Kern.setProc, update_self, Files.setCwd] at hd ⊢
        refine ⟨?_, by simp⟩
        by_contra hge
        exact hd ((hfiled₁ hf).1 d (Nat.not_lt.mp hge))
      · simp only [Kern.setProc, update_of_ne hq, hother q hq] at hd ⊢
        exact hf q d hd
    · exact congrArg ((k₁.ftable f).ref + ·) (slots_setCwd hnp (some i)).symm

end

/-! ## 4. Every call -/

/-- The system calls. -/
inductive Call
  | path (call : PathCall)
  | close (fd : Nat)
  | exit
  /-- `fork`, with the slot that `allocproc` finds. -/
  | fork (np : Pid)

/-- The code of a call by process `p`. -/
def Call.prog (p : Pid) : Call → KProg Int
  | .path call => call.prog p
  | .close fd => sysClose p fd
  | .exit => Fs.exit p
  | .fork np => Prog.lift (Fs.fork p np)

/-- The slot for a new process is one of the table, and free. -/
def Call.Legal (k : Kern) : Call → Prop
  | .fork np => np < NPROC ∧ (k.proc np).cwd = none
  | _ => True

/-- **Where a call takes an action that the condition may forbid**: `create` and `sys_link` when
they make an entry, `sys_link` when it counts the link, `sys_unlink` when it clears the entry of a
directory. -/
def May (G : Names → Act → Prop) (p : Pid) (k : Kern) : Call → Prop
  | .path (.sysLink (some (old, new))) =>
    (∀ k' ip, (linkOld p old).seq p k = .ok (some ip, k') → G (k'.fs.names .none) (.count ip)) ∧
      ∀ k' ip dp name, (linkParent p old new).seq p k = .ok (.dir ip dp name, k') →
        (k'.fs.view dp).lookup name = none → G (k'.fs.names (.link ip)) (.entry dp name ip)
  | .path (.sysUnlink (some path)) =>
    ∀ k' dp name n, (unlinkParent p path).seq p k = .ok (some (dp, name), k') →
      n.view = k'.fs.view → G n (.rmdir dp name)
  | .path (.sysOpen (some (path, omode))) => omode &&& O_CREATE ≠ 0 →
    ∀ k' dp name i, (createParent p path).seq p k.begun = .ok (some (dp, name), k') →
      (k'.fs.view dp).lookup name = none → G (k'.fs.names .none) (.mkfile dp name i)
  | .path (.sysMknod (some (path, _))) =>
    ∀ k' dp name i, (createParent p path).seq p k.begun = .ok (some (dp, name), k') →
      (k'.fs.view dp).lookup name = none → G (k'.fs.names .none) (.mkfile dp name i)
  | .path (.sysMkdir (some path)) =>
    ∀ k' dp name i, (createParent p path).seq p k.begun = .ok (some (dp, name), k') →
      (k'.fs.view dp).lookup name = none → G (k'.fs.names .none) (.mkdir dp name i)
  | _ => True

/-- A call has left the kernel at rest, by a run of permitted actions. -/
structure Done (G : Names → Act → Prop) (k k' : Kern) : Prop where
  idle : Idle k'
  sb : k'.fs.sb = k.fs.sb
  run : Names.Run k.fs.sb.ninodes G (k.fs.names .none) (k'.fs.names .none)

section

variable {G : Names → Act → Prop} {hG : Names.Lax G} {k k' : Kern} {p : Pid}
  {E : Stop Panic Want → Prop} {out : Nat}

theorem Idle.calm (h : Idle k) (p : Pid) (hG : Names.Lax G) :
    Calm (k.ctx p G hG) k.fs.outstanding k :=
  ⟨h.toTidy, at_start h.good h.unlocked hG⟩

theorem Calm.done (h : Calm (k.ctx p G hG) out k') : Done G k k' :=
  ⟨⟨h.toTidy, h.at_rest.good, h.at_rest.unlocked⟩, h.at_rest.sb, h.at_rest.run⟩

/-- A call that gives back all the references it took. -/
theorem Idle.done (h : Idle k) {s : FileSys}
    (hs : At (k.ctx p G hG) k.fs.ref out .none [] [] s) : Done G k { k with fs := s } :=
  Calm.done ⟨h.toTidy.withFs fun i => by rw [hs.ref]; exact Nat.le_add_right _ _, hs.settle⟩

/-- **Every call by a process with a current directory leaves the kernel at rest**, if it
returns, and changes the counts as what they count. -/
theorem Idle.wp_call_counts (h : Idle k) {i : Nat} (hcwd : (k.proc p).cwd = some i)
    (he : CallErrs (k.ctx p G hG) E) (hunlink : ∀ n dp name, G n (.unlink dp name)) {call : Call}
    (hlegal : call.Legal k) (hmay : May G p k call) :
    wp ((call.prog p).seq p) (fun _ k' => Done G k k' ∧ Counts k k') E k := by
  have hC := h.calm p hG
  have hA := hC.at_rest
  have hp : p < NPROC := h.slot p (by rw [hcwd]; exact nofun)
  have hheld : 0 < k.fs.ref (k.cwd p) := by
    have := (h.toTidy.cwd_held hcwd).trans (h.held i)
    rwa [Kern.cwd, hcwd]
  have hok : CwdOk (k.ctx p G hG) k.fs.ref k := fun n hn => hG.get n _ (Or.inl (hheld.trans_le hn))
  have hnothing : Done G k k ∧ Counts k k := ⟨hC.done, fun hf => ⟨hf, .refl k⟩⟩
  have hback : ∀ {s : FileSys} {out : Nat}, At (k.ctx p G hG) k.fs.ref out .none [] [] s →
      Done G k { k with fs := s } ∧ Counts k { k with fs := s } :=
    fun hs => ⟨h.done hs, .withFs fun i => by rw [hs.ref]; rfl⟩
  match call, hmay with
  | .close fd, _ => exact wp_sysClose hC he hp fun k' r hk' hcounts => ⟨hk'.done, hcounts⟩
  | .exit, _ => exact wp_exit hC he hcwd fun k' r hk' hcounts => ⟨hk'.done, hcounts⟩
  | .fork np, _ =>
    rw [Call.prog, wp_seq_lift]
    exact wp_fork hC hlegal.1 hlegal.2 hcwd he.filedup fun k' r hk' hcounts => ⟨hk'.done, hcounts⟩
  | .path (.sysLink none), _ => exact hnothing
  | .path (.sysLink (some (old, new))), hmay =>
    exact hA.wp_sysLink he.toErrs hok hmay.1 hmay.2 (fun _ _ _ _ _ _ _ _ => he.stuck _)
      fun s r hs => hback hs
  | .path (.sysUnlink none), _ => exact hnothing
  | .path (.sysUnlink (some path)), hmay =>
    exact hA.wp_sysUnlink he.toErrs hok (fun k' dp name _ n hran hn _ => hmay k' dp name n hran hn)
      hunlink (fun _ _ _ _ _ _ _ _ => he.stuck _) fun s r hs => hback hs
  | .path (.sysMkdir path), hmay =>
    refine hA.wp_sysCreate he.toErrs hok (by decide) (fun path' hpath => ?_) fun s r hs => hback hs
    subst hpath
    exact ⟨fun k' dp name i hran _ => hmay k' dp name i hran, fun _ _ _ _ _ hc => absurd rfl hc⟩
  | .path (.sysMknod none), _ =>
    show wp ((sysCreate p none T_DEV 0 0).seq p) _ E k
    refine hA.wp_sysCreate he.toErrs hok (by decide) (fun path' hpath => ?_) fun s r hs => hback hs
    cases hpath
  | .path (.sysMknod (some (path, major, minor))), hmay =>
    show wp ((sysCreate p (some path) T_DEV (short major) (short minor)).seq p) _ E k
    refine hA.wp_sysCreate he.toErrs hok (by decide) (fun path' hpath => ?_) fun s r hs => hback hs
    obtain rfl := Option.some.inj hpath
    exact ⟨fun _ _ _ _ _ hc => absurd hc (by decide), fun k' dp name i hran _ =>
      hmay k' dp name i hran⟩
  | .path (.sysOpen none), _ => exact hnothing
  | .path (.sysOpen (some (path, omode))), hmay =>
    refine hA.wp_sysOpen he.toErrs hok h.ftable (fun hc => ?_) (fun s hs => hback hs)
      fun s ip f fd hs hf h0 hfd hnone => ?_
    · exact ⟨fun _ _ _ _ _ hc => absurd hc (by decide), fun k' dp name i hran _ =>
        hmay hc k' dp name i hran⟩
    · -- the open file keeps the reference
      have htidy : Tidy (k.setProc p ((k.proc p).setFd fd (some f))) :=
        h.toTidy.setFd hp fun g hg => Option.some.inj hg ▸ hf
      have hb : Balance (k.setProc p ((k.proc p).setFd fd (some f)))
          { (k.setProc p ((k.proc p).setFd fd (some f))).setFile f
            (((k.ftable f).setRef 1).opened ip omode) with fs := s } := by
        refine balance_setFile hf fun j => ?_
        have href : s.ref j = k.fs.ref j + List.count j [ip] := hs.ref j
        have hnew : (((k.ftable f).setRef 1).opened ip omode).holds j = List.count j [ip] := by
          simp [OFile.holds, OFile.opened, List.count_singleton]
        have hold : (k.ftable f).holds j = 0 := if_neg fun hc => by
          have := h.ftable f h0
          exact absurd (this.symm.trans hc.1) nofun
        show s.ref j + (k.ftable f).holds j = k.fs.ref j + _
        rw [hnew, hold, href, Nat.add_zero]
      refine ⟨Calm.done ⟨htidy.setFile (fun hc => nomatch hc) hb, hs.settle⟩, fun hfiled => ⟨?_, ?_⟩⟩
      · exact hfiled.setFd (fun _ => hfd) fun _ => by rw [hcwd]; exact nofun
      · refine even_open hp hfd hnone rfl ((balance_setFd hp _).trans hb) (opened_ref ?_)
        exact (congrArg (· + 1) h0).symm
  | .path (.sysChdir none), _ =>
    show wp ((sysChdir p none).seq p) _ E k
    simp only [sysChdir, bind_eq_bind, wp_seq_bind, wp_begun]
    exact hA.begun.wp_endOp fun s hs _ => hback hs
  | .path (.sysChdir (some path)), _ =>
    refine hA.wp_sysChdir he.toErrs hok hheld path (fun s hs => hback hs) fun s ip hs => ?_
    have hb : Balance k { k.setProc p ((k.proc p).setCwd (some ip)) with fs := s } := by
      refine balance_setProc hp fun j => ?_
      have href : s.ref j = update k.fs.ref (k.cwd p) (k.fs.ref (k.cwd p) - 1) j +
        List.count j [ip] := hs.ref j
      have hnew : ((k.proc p).setCwd (some ip)).holds j = List.count j [ip] := by
        simp [Files.holds, Files.setCwd, List.count_singleton]
      have hold : (k.proc p).holds j = if k.cwd p = j then 1 else 0 := by
        simp [Files.holds, Kern.cwd, hcwd]
      rw [hnew, hold, href]
      rcases eq_or_ne j (k.cwd p) with rfl | hne
      · rw [update_self, if_pos rfl]
        omega
      · rw [update_of_ne hne, if_neg hne.symm]
        omega
    refine ⟨Calm.done ⟨h.toTidy.setProc hp (fun d f hf => h.ofile p d f hf) hb, hs.settle⟩,
      fun hfiled => ⟨fun q d hd => ?_, hb, fun f => ?_⟩⟩
    · rcases eq_or_ne q p with rfl | hq
      · simp only [Kern.setProc, update_self, Files.setCwd] at hd ⊢
        exact ⟨(hfiled q d hd).1, by simp⟩
      · simp only [Kern.setProc, update_of_ne hq] at hd ⊢
        exact hfiled q d hd
    · exact congrArg ((k.ftable f).ref + ·) (slots_setCwd hp (some ip)).symm
  | .path (.exec path mem), _ => exact hA.wp_exec he.toErrs hok path mem fun s r hs => hback hs

theorem Idle.wp_call (h : Idle k) {i : Nat} (hcwd : (k.proc p).cwd = some i)
    (he : CallErrs (k.ctx p G hG) E) (hunlink : ∀ n dp name, G n (.unlink dp name)) {call : Call}
    (hlegal : call.Legal k) (hmay : May G p k call) :
    wp ((call.prog p).seq p) (fun _ k' => Done G k k') E k :=
  wp_conseq (h.wp_call_counts hcwd he hunlink hlegal hmay) fun _ _ hk' => hk'.1

end

/-! ## 5. Sequences of calls -/

/-- **The states that a sequence of completed calls reaches**, each by a process with a current
directory, and each under the condition `C`. -/
inductive Reach (C : Pid → Kern → Call → Prop) (k₀ : Kern) : Kern → Prop
  | start : Reach C k₀ k₀
  | call {k k' : Kern} {p : Pid} {call : Call} {r : Int} : Reach C k₀ k → (k.proc p).cwd ≠ none →
    call.Legal k → C p k call → (call.prog p).seq p k = .ok (r, k') → Reach C k₀ k'

/-- **The invariant rule for calls.**  What every permitted action keeps holds after every
sequence of calls. -/
theorem Reach.invariant {G : Names → Act → Prop} (hG : Names.Lax G)
    (hunlink : ∀ n dp name, G n (.unlink dp name)) {I : Names → Prop} {k₀ k : Kern}
    (h : Reach (May G) k₀ k) (h0 : Idle k₀) (hI : I (k₀.fs.names .none))
    (hstep : ∀ n a n', I n → G n a → Names.Step k₀.fs.sb.ninodes n a n' → I n') :
    Idle k ∧ k.fs.sb = k₀.fs.sb ∧ I (k.fs.names .none) := by
  induction h with
  | start => exact ⟨h0, rfl, hI⟩
  | @call k k' p call r _ hcwd hlegal hmay hran ih =>
    obtain ⟨hidle, hsb, hI⟩ := ih
    obtain ⟨i, hi⟩ := Option.ne_none_iff_exists'.mp hcwd
    have he : CallErrs (k.ctx p G hG) fun _ => True :=
      ⟨⟨fun _ _ => trivial, fun _ _ => trivial, fun _ _ _ _ _ => trivial⟩, trivial, trivial, trivial,
        fun _ => trivial⟩
    have hdone : Done G k k' :=
      wp_of_ok (Q := fun _ => Done G k) (hidle.wp_call hi he hunlink hlegal hmay) hran
    refine ⟨hdone.idle, hdone.sb.trans hsb, hdone.run.invariant hI ?_⟩
    rw [hsb]
    exact hstep

end Xv6.Fs
