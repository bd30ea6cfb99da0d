/-
# Reference counts are exact

`ref` of a `struct file` counts the descriptors that point to it, and `ref` of a cached inode the
open files and current directories that are that inode.  Both are exact between two calls
(`Exact`), whichever calls were made and however each of them ended.

Inside a call there are references that nothing counts: the call holds them itself, from the
`filealloc` that took them to the `fdalloc` or the `fileclose` that settles them (`Owed`).  The
calls on paths are in `Fs.Calls`; here are `dup`, `pipe`, `read` and `write`.
-/
import Xv6.Fs.Calls
import Xv6.Fs.Image
import Xv6.Fs.SelfLock
import Xv6.Fs.Sysfile

namespace Xv6.Fs

open Function (update update_of_ne update_self)
open Prog (bind_eq_bind wp_seq_bind wp_seq_ite wp_seq_lift)

/-! ## 1. The calls -/

/-- The system calls, with what others answer to them. -/
inductive RefCall
  /-- `link`, `unlink`, `open`, `mkdir`, `mknod`, `chdir`, `exec`, `close`, `exit` and `fork`. -/
  | call (c : Call)
  /-- `fork` without a free slot, or without memory for the child. -/
  | forkFails
  /-- `wait` frees what is no file. -/
  | wait (answer : Int)
  | dup (fd : Nat)
  | pipe (args : Option Bool)
  /-- `read`, with what `piperead` answers. -/
  | read (args : Option (Nat × Nat)) (answer : Option (List UInt8))
  /-- `write`, with what `pipewrite` answers. -/
  | write (args : Option (Nat × List UInt8)) (answer : Int)

/-- The code of a call by process `p`. -/
def RefCall.prog (p : Pid) : RefCall → KProg Int
  | .call c => c.prog p
  | .forkFails => return -1
  | .wait answer => return answer
  | .dup fd => sysDup p fd
  | .pipe args => sysPipe p args
  | .read args answer => do return (← sysRead (.answers (fun _ => answer) fun _ => -1) p args).1
  | .write args answer => sysWrite (.answers (fun _ => none) fun _ => answer) p args

def RefCall.Legal (k : Kern) : RefCall → Prop
  | .call c => c.Legal k
  | _ => True

/-- **Between two calls**: the counts are exact. -/
structure Exact (k : Kern) : Prop extends Idle k where
  filed : Filed k
  inode : ∀ i, k.fs.ref i = k.holders i
  file : ∀ f, f < NFILE → (k.ftable f).ref = k.slots f

/-- The states that completed calls reach, one after another, each by a process that is there. -/
inductive RefRun (k₀ : Kern) : Kern → Prop
  | start : RefRun k₀ k₀
  | step {k k' : Kern} {p : Pid} {call : RefCall} {r : Int} : RefRun k₀ k →
    (k.proc p).cwd ≠ none → call.Legal k → (call.prog p).seq p k = .ok (r, k') → RefRun k₀ k'

/-! ## 2. References in the hands of a call -/

/-- The counts have changed as what they count, but for the files `D`, to each of which the call
holds a reference. -/
structure Owed (D : List Nat) (k k' : Kern) : Prop where
  inode : Balance k k'
  file : ∀ f, (k'.ftable f).ref + k.slots f = (k.ftable f).ref + k'.slots f + D.count f

section

variable {c : Ctx} {out : Nat} {k k₁ k₂ : Kern} {D D' : List Nat} {p : Pid} {f fd : Nat}
  {E : Stop Panic Want → Prop}

theorem Owed.refl (k : Kern) : Owed [] k k := ⟨.refl k, fun _ => by rw [List.count_nil, Nat.add_zero]⟩

theorem Owed.even (h : Owed [] k k₁) : Even k k₁ :=
  ⟨h.inode, fun f => by rw [h.file f, List.count_nil, Nat.add_zero]⟩

/-- `filealloc`. -/
theorem Owed.alloc (h : Owed D k k₁) (hf : f < NFILE) (h0 : (k₁.ftable f).ref = 0) :
    Owed (f :: D) k (k₁.setFile f ((k₁.ftable f).setRef 1)) where
  inode := h.inode.trans (balance_setFileRef hf 1)
  file g := by
    have href : ((k₁.setFile f ((k₁.ftable f).setRef 1)).ftable g).ref =
        (k₁.ftable g).ref + if g = f then 1 else 0 := opened_ref (by rw [h0]; rfl) g
    have hg := h.file g
    have hslots : (k₁.setFile f ((k₁.ftable f).setRef 1)).slots g = k₁.slots g := rfl
    rw [hslots, href, List.count_cons, beq_eq_decide]
    simp only [eq_comm (a := f), decide_eq_true_eq]
    omega

/-- `fileclose`. -/
theorem Owed.close (h : Owed D k k₁) (hD : D.Perm (f :: D')) (hc : Closed f k₁ k₂) :
    Owed D' k k₂ where
  inode := h.inode.trans hc.inode
  file g := by
    have hg := h.file g
    have href := hc.file g
    have hslots : k₂.slots g = k₁.slots g := by simp only [Kern.slots, hc.proc]
    rw [hD.count_eq, List.count_cons, beq_eq_decide] at hg
    simp only [eq_comm (a := f), decide_eq_true_eq] at hg
    rw [hslots]
    omega

/-- A descriptor takes the reference over. -/
theorem Owed.setFd (h : Owed D k k₁) (hD : D.Perm (f :: D')) (hp : p < NPROC) (hfd : fd < NOFILE)
    (hnone : (k₁.proc p).ofile fd = none) :
    Owed D' k (k₁.setProc p ((k₁.proc p).setFd fd (some f))) where
  inode := h.inode.trans (balance_setFd hp _)
  file g := by
    have hg := h.file g
    have hslots := slots_setFd (k := k₁) (f := g) hp hfd (some f)
    have hzero : (if (none : Option Nat) = some g then 1 else 0) = 0 := if_neg nofun
    rw [hD.count_eq, List.count_cons, beq_eq_decide] at hg
    rw [hnone, hzero] at hslots
    simp only [Option.some.injEq, decide_eq_true_eq] at hg hslots
    show (k₁.ftable g).ref + _ = _
    omega

/-- A descriptor gives it back. -/
theorem Owed.clearFd (h : Owed D k k₁) (hp : p < NPROC) (hfd : fd < NOFILE)
    (hsome : (k₁.proc p).ofile fd = some f) :
    Owed (f :: D) k (k₁.setProc p ((k₁.proc p).setFd fd none)) where
  inode := h.inode.trans (balance_setFd hp _)
  file g := by
    have hg := h.file g
    have hslots := slots_setFd (k := k₁) (f := g) hp hfd none
    have hzero : (if (none : Option Nat) = some g then 1 else 0) = 0 := if_neg nofun
    rw [List.count_cons, beq_eq_decide]
    rw [hsome, hzero] at hslots
    simp only [Option.some.injEq, decide_eq_true_eq] at hslots ⊢
    show (k₁.ftable g).ref + _ = _
    omega

/-! ## 3. `sys_dup` and `sys_pipe` -/

/-- A call has left the kernel at rest, with the counts changed as what they count. -/
structure Settled (c : Ctx) (out : Nat) (k k' : Kern) : Prop where
  calm : Calm c out k'
  counts : Counts k k'

theorem Settled.refl (h : Calm c out k) : Settled c out k k := ⟨h, fun hf => ⟨hf, .refl k⟩⟩

theorem wp_sysDup (h : Calm c out k) (he : CallErrs c E) (hcwd : (k.proc c.p).cwd ≠ none) :
    wp ((sysDup c.p fd).seq c.p) (fun _ k' => Settled c out k k') E k := by
  have hp := h.slot _ hcwd
  simp only [sysDup, bind_eq_bind, wp_seq_bind, wp_seq_lift, argfd, wp_ite, getOfile,
    wp_bind, wp_get, wp_pure]
  refine ⟨fun _ => ?_, fun _ => .refl h⟩
  cases hfd : (k.proc c.p).ofile fd with
  | none => exact .refl h
  | some f =>
    have hf := h.ofile _ _ _ hfd
    simp only [wp_seq_bind, wp_seq_lift]
    refine wp_fdalloc (.refl h) fun fd' hlt hnone => ?_
    simp only [wp_seq_bind, wp_seq_lift, filedup, wp_bind, wp_get, wp_ite, wp_throw, wp_set]
    refine ⟨fun _ => he.filedup, fun _ => ⟨⟨?_, h.at_rest⟩, fun hfiled => ⟨?_, ?_⟩⟩⟩
    · exact (h.toTidy.setFd hp fun g hg => Option.some.inj hg ▸ hf).setFileRef hf (Nat.succ_ne_zero _)
    · exact hfiled.setFd (fun _ => hlt) fun _ => hcwd
    · exact even_open hp hlt hnone rfl ((balance_setFd hp _).trans (balance_setFileRef hf _))
        (opened_ref rfl)

/-- Inside `sys_pipe`, which holds references to the files `D`. -/
structure Piping (c : Ctx) (out : Nat) (D : List Nat) (k k' : Kern) : Prop where
  calm : Calm c out k'
  owed : Owed D k k'
  filed : Filed k → Filed k'
  cwd : (k'.proc c.p).cwd = (k.proc c.p).cwd

theorem Piping.settled (h : Piping c out [] k k₁) : Settled c out k k₁ :=
  ⟨h.calm, fun hf => ⟨h.filed hf, h.owed.even⟩⟩

theorem Piping.alloc (h : Piping c out D k k₁) (hf : f < NFILE) (h0 : (k₁.ftable f).ref = 0) :
    Piping c out (f :: D) k (k₁.setFile f ((k₁.ftable f).setRef 1)) where
  calm := ⟨h.calm.toTidy.setFileRef hf Nat.one_ne_zero, h.calm.at_rest⟩
  owed := h.owed.alloc hf h0
  filed := h.filed
  cwd := h.cwd

theorem Piping.wp_fileclose (h : Piping c out D k k₁) (hD : D.Perm (f :: D')) (hf : f < NFILE)
    (he : CallErrs c E) {Q : Unit → Kern → Prop} (hQ : ∀ k₂, Piping c out D' k k₂ → Q () k₂) :
    wp ((fileclose f).seq c.p) Q E k₁ := by
  refine Fs.wp_fileclose h.calm he hf fun k₂ h₂ hc => hQ k₂ ⟨h₂, h.owed.close hD hc, fun hfiled => ?_, ?_⟩
  · intro q d hd
    rw [hc.proc] at hd ⊢
    exact h.filed hfiled q d hd
  · rw [hc.proc, h.cwd]

/-- A descriptor takes a reference over. -/
theorem Piping.setFd (h : Piping c out D k k₁) (hcwd : (k.proc c.p).cwd ≠ none)
    (hD : D.Perm (f :: D')) (hf : f < NFILE) (hfd : fd < NOFILE)
    (hnone : (k₁.proc c.p).ofile fd = none) :
    Piping c out D' k (k₁.setProc c.p ((k₁.proc c.p).setFd fd (some f))) := by
  have hcwd₁ : (k₁.proc c.p).cwd ≠ none := by rw [h.cwd]; exact hcwd
  have hp := h.calm.slot _ hcwd₁
  exact {
    calm := ⟨h.calm.toTidy.setFd hp fun g hg => Option.some.inj hg ▸ hf, h.calm.at_rest⟩
    owed := h.owed.setFd hD hp hfd hnone
    filed := fun hfiled => (h.filed hfiled).setFd (fun _ => hfd) fun _ => hcwd₁
    cwd := by simp only [Kern.setProc, update_self, Files.setFd, h.cwd] }

/-- A descriptor gives its reference back. -/
theorem Piping.clearFd (h : Piping c out D k k₁) (hcwd : (k.proc c.p).cwd ≠ none) (hfd : fd < NOFILE)
    (hsome : (k₁.proc c.p).ofile fd = some f) :
    Piping c out (f :: D) k (k₁.setProc c.p ((k₁.proc c.p).setFd fd none)) := by
  have hp := h.calm.slot c.p (by rw [h.cwd]; exact hcwd)
  exact {
    calm := ⟨h.calm.toTidy.clearFd hp, h.calm.at_rest⟩
    owed := h.owed.clearFd hp hfd hsome
    filed := fun hfiled => (h.filed hfiled).setFd (fun hc => absurd rfl hc) fun hc => absurd rfl hc
    cwd := by simp only [Kern.setProc, update_self, Files.setFd, h.cwd] }

/-- The two files become a pipe. -/
theorem Piping.pipeInit {f₀ f₁ : Nat} (h : Piping c out D k k₁) (h₀ : f₀ < NFILE) (h₁ : f₁ < NFILE)
    (hne : f₁ ≠ f₀) (hr₀ : (k₁.ftable f₀).ref ≠ 0) (hr₁ : (k₁.ftable f₁).ref ≠ 0)
    (ht₀ : (k₁.ftable f₀).type ≠ .inode) (ht₁ : (k₁.ftable f₁).type ≠ .inode) :
    Piping c out D k ((k₁.setFile f₀ ((k₁.ftable f₀).pipeEnd true)).setFile f₁
      (((k₁.setFile f₀ ((k₁.ftable f₀).pipeEnd true)).ftable f₁).pipeEnd false)) := by
  have hself : (k₁.setFile f₀ ((k₁.ftable f₀).pipeEnd true)).ftable f₁ = k₁.ftable f₁ :=
    update_of_ne hne ..
  have hbal : ∀ {m : Kern} {f : Nat} {b : Bool}, f < NFILE → (m.ftable f).type ≠ .inode →
      Balance m (m.setFile f ((m.ftable f).pipeEnd b)) := fun {m f b} hf ht => by
    refine balance_setFile (s := m.fs) hf fun i => ?_
    have hold : (m.ftable f).holds i = 0 := if_neg fun hc => ht hc.1
    have hnew : ((m.ftable f).pipeEnd b).holds i = 0 := if_neg fun hc => FdType.noConfusion hc.1
    rw [hold, hnew]
  have hb₀ := hbal (b := true) h₀ ht₀
  have ht₀' : Tidy (k₁.setFile f₀ ((k₁.ftable f₀).pipeEnd true)) :=
    h.calm.toTidy.setFile (s := k₁.fs) (fun hc => absurd hc hr₀) hb₀
  have hb₁ := hbal (m := k₁.setFile f₀ ((k₁.ftable f₀).pipeEnd true)) (b := false) h₁
    (by rw [hself]; exact ht₁)
  have href : ∀ (k₁ : Kern) (f : Nat) (b : Bool) (g : Nat),
      ((k₁.setFile f ((k₁.ftable f).pipeEnd b)).ftable g).ref = (k₁.ftable g).ref :=
    fun k₁ f b => update_at (f := OFile.ref) (x := k₁.ftable) (y := (k₁.ftable f).pipeEnd b) rfl
  refine ⟨⟨ht₀'.setFile (s := k₁.fs) (fun hc => absurd hc ?_) hb₁, h.calm.at_rest⟩,
    ⟨(h.owed.inode.trans hb₀).trans hb₁, fun g => ?_⟩, h.filed, h.cwd⟩
  · rw [hself]
    exact hr₁
  · rw [href, href]
    exact h.owed.file g

theorem wp_pipealloc (h : Calm c out k) (he : CallErrs c E) {page : Bool}
    {Q : Option (Nat × Nat) → Kern → Prop} (hnone : ∀ k', Piping c out [] k k' → Q none k')
    (hsome : ∀ k' rf wf, rf < NFILE → wf < NFILE → Piping c out [wf, rf] k k' → Q (some (rf, wf)) k') :
    wp ((pipealloc page).seq c.p) Q E k := by
  have h₀ : Piping c out [] k k := ⟨h, .refl k, fun hf => hf, rfl⟩
  simp only [pipealloc, bind_eq_bind, wp_seq_bind, wp_seq_lift]
  refine wp_filealloc (hnone k h₀) fun f₀ hlt₀ h0 => ?_
  have h₁ := h₀.alloc hlt₀ h0
  simp only [wp_seq_bind, wp_seq_lift]
  refine wp_filealloc ?_ fun f₁ hlt₁ h1 => ?_
  · simp only [wp_seq_bind]
    exact h₁.wp_fileclose (.refl _) hlt₀ he hnone
  · have h₂ := h₁.alloc hlt₁ h1
    have hne : f₁ ≠ f₀ := by
      rintro rfl
      simp [Kern.setFile, OFile.setRef] at h1
    have hold : (k.setFile f₀ ((k.ftable f₀).setRef 1)).ftable f₁ = k.ftable f₁ :=
      update_of_ne hne ..
    simp only [wp_seq_ite, wp_seq_bind, wp_seq_lift]
    refine ⟨fun _ => ?_, fun _ => ?_⟩
    · rw [pipeInit, wp_modify]
      refine hsome _ f₀ f₁ hlt₀ hlt₁ (h₂.pipeInit hlt₀ hlt₁ hne ?_ ?_ ?_ ?_)
      · simp [Kern.setFile, update_of_ne hne.symm, OFile.setRef]
      · simp [Kern.setFile, OFile.setRef]
      · have htype := h.ftable f₀ h0
        simp [Kern.setFile, update_of_ne hne.symm, OFile.setRef, htype]
      · have htype := h.ftable f₁ (by rwa [hold] at h1)
        simp [Kern.setFile, update_of_ne hne, OFile.setRef, htype]
    · refine h₂.wp_fileclose (List.Perm.swap ..) hlt₀ he fun k₃ h₃ => ?_
      exact h₃.wp_fileclose (.refl _) hlt₁ he hnone

theorem wp_pipeFull (h : Piping c out D k k₁) (he : CallErrs c E) {rf wf : Nat}
    (hD : D.Perm [rf, wf]) (hr : rf < NFILE) (hw : wf < NFILE) :
    wp ((pipeFull rf wf).seq c.p) (fun _ k' => Settled c out k k') E k₁ := by
  simp only [pipeFull, bind_eq_bind, wp_seq_bind]
  refine h.wp_fileclose hD hr he fun k₂ h₂ => ?_
  exact h₂.wp_fileclose (.refl _) hw he fun k₃ h₃ => h₃.settled

theorem wp_sysPipe (h : Calm c out k) (he : CallErrs c E) (hcwd : (k.proc c.p).cwd ≠ none)
    (args : Option Bool) :
    wp ((sysPipe c.p args).seq c.p) (fun _ k' => Settled c out k k') E k := by
  cases args with
  | none => exact .refl h
  | some page =>
    simp only [sysPipe, bind_eq_bind, wp_seq_bind]
    refine wp_pipealloc h he (fun k' hk' => hk'.settled) fun k₁ rf wf hr hw h₁ => ?_
    simp only [wp_seq_bind, wp_seq_lift]
    refine wp_fdalloc (wp_pipeFull h₁ he (List.Perm.swap ..) hr hw) fun fd₀ hlt₀ hnone₀ => ?_
    have h₂ := h₁.setFd hcwd (List.Perm.swap ..) hr hlt₀ hnone₀
    simp only [wp_seq_bind, wp_seq_lift]
    refine wp_fdalloc ?_ fun fd₁ hlt₁ hnone₁ => (h₂.setFd hcwd (.refl _) hw hlt₁ hnone₁).settled
    -- the first descriptor is given back
    simp only [wp_seq_bind, wp_seq_lift, setOfile, wp_modify]
    refine wp_pipeFull (h₂.clearFd hcwd hlt₀ ?_) he (.refl _) hr hw
    simp only [Kern.setProc, update_self, Files.setFd]

end

/-! ## 4. `sys_read` and `sys_write` -/

/-- A call has moved positions in files, and changed files, but no references. -/
structure Moved (k k' : Kern) : Prop where
  good : Good k'.fs
  unlocked : ∀ i, k'.fs.lock i = none
  ref : ∀ i, k'.fs.ref i = k.fs.ref i
  proc : k'.proc = k.proc
  file : ∀ f, (k'.ftable f).type = (k.ftable f).type ∧ (k'.ftable f).ip = (k.ftable f).ip ∧
    (k'.ftable f).ref = (k.ftable f).ref

section

variable {k k' : Kern} {p : Pid} {f : Nat}

theorem Moved.refl (h : Idle k) : Moved k k :=
  ⟨h.good, h.unlocked, fun _ => rfl, rfl, fun _ => ⟨rfl, rfl, rfl⟩⟩

theorem Moved.trans {k'' : Kern} (h : Moved k k') (h' : Moved k' k'') : Moved k k'' where
  good := h'.good
  unlocked := h'.unlocked
  ref i := (h'.ref i).trans (h.ref i)
  proc := h'.proc.trans h.proc
  file f := ⟨(h'.file f).1.trans (h.file f).1, (h'.file f).2.1.trans (h.file f).2.1,
    (h'.file f).2.2.trans (h.file f).2.2⟩

theorem Moved.holders (h : Moved k k') (i : Nat) : k'.holders i = k.holders i := by
  have hfiles : ∀ f, (k'.ftable f).holds i = (k.ftable f).holds i := fun f => by
    rw [OFile.holds, OFile.holds, (h.file f).1, (h.file f).2.1]
  simp only [Kern.holders, h.proc, hfiles]

theorem Moved.idle (h : Moved k k') (hk : Idle k) : Idle k' where
  ftable f hf := by
    rw [(h.file f).2.2] at hf
    rw [(h.file f).1]
    exact hk.ftable f hf
  slot q hq := hk.slot q (by rwa [h.proc] at hq)
  ofile q fd g hg := hk.ofile q fd g (by rwa [h.proc] at hg)
  held i := by
    rw [h.holders i, h.ref i]
    exact hk.held i
  good := h.good
  unlocked := h.unlocked

theorem Moved.counts (h : Moved k k') : Counts k k' := by
  refine fun hf => ⟨fun q d hd => ?_, fun i => ?_, fun g => ?_⟩
  · rw [h.proc] at hd ⊢
    exact hf q d hd
  · rw [h.ref i, h.holders i]
  · have hslots : k'.slots g = k.slots g := by simp only [Kern.slots, h.proc]
    rw [(h.file g).2.2, hslots]

/-- The position of a file has moved. -/
theorem advance_file (T : Nat → OFile) (f r g : Nat) :
    (update T f ((T f).advance r) g).type = (T g).type ∧
      (update T f ((T f).advance r) g).ip = (T g).ip ∧
      (update T f ((T f).advance r) g).ref = (T g).ref := by
  rcases eq_or_ne g f with rfl | hg
  · rw [update_self]
    exact ⟨rfl, rfl, rfl⟩
  · rw [update_of_ne hg]
    exact ⟨rfl, rfl, rfl⟩

/-- The end of a read or a write. -/
theorem Sits.moved {c : Ctx} {out : Nat} {s : FileSys} {T : Ftable} (h : Sits c k.fs.ref out [] [] s)
    (hT : ∀ g, (T g).type = (k.ftable g).type ∧ (T g).ip = (k.ftable g).ip ∧
      (T g).ref = (k.ftable g).ref) : Moved k ⟨s, T, k.proc⟩ :=
  ⟨h.good, h.unlocked, fun i => by rw [h.ref]; rfl, rfl, hT⟩

theorem wp_read_moved (h : Idle k) (hf : f < NFILE) (ht : (k.ftable f).type = .inode) (n : Nat) :
    wp ((underLock p (k.ftable f).ip (fileReadi f n)).seq p) (fun _ k' => Moved k k')
      (fun _ => True) k := by
  have hA := (at_start h.good h.unlocked (p := p) lax_anyAct).toSits
  have hpos := (h.toTidy.file_held hf ht).trans (h.held _)
  have hsame : ∀ g, (k.ftable g).type = (k.ftable g).type ∧ (k.ftable g).ip = (k.ftable g).ip ∧
    (k.ftable g).ref = (k.ftable g).ref := fun g => ⟨rfl, rfl, rfl⟩
  simp only [underLock, bind_eq_bind, wp_seq_bind]
  refine hA.wp_ilock (by simp) hpos (fun s₁ h₁ _ _ _ _ => ?_) (fun _ => trivial) trivial
  simp only [wp_seq_lift, fileReadi, getFile, wp_bind, wp_get, wp_pure, wp_onFs]
  refine wp_readi_same h₁.good (h₁.valid _ (by simp)) fun r => ?_
  have hend : ∀ T : Ftable, (∀ g, (T g).type = (k.ftable g).type ∧ (T g).ip = (k.ftable g).ip ∧
      (T g).ref = (k.ftable g).ref) → wp ((iunlock p (k.ftable f).ip).seq p)
      (fun _ k' => Moved k k') (fun _ => True) ⟨s₁, T, k.proc⟩ := fun T hT =>
    Sits.wp_iunlock (k := ⟨s₁, T, k.proc⟩) h₁ (List.Perm.refl _) fun s₂ h₂ _ _ _ => h₂.moved hT
  cases r with
  | none => exact hend k.ftable hsame
  | some bytes =>
    simp only [wp_ite, wp_bind, wp_modify, wp_pure]
    exact ⟨fun _ => hend _ (advance_file k.ftable f _), fun _ => hend k.ftable hsame⟩

theorem wp_write_moved (h : Idle k) (hf : f < NFILE) (ht : (k.ftable f).type = .inode)
    (src : List UInt8) : wp ((inTransaction p (k.ftable f).ip (fileWritei f src)).seq p)
      (fun _ k' => Moved k k') (fun _ => True) k := by
  have hA := (at_start h.good h.unlocked (p := p) lax_anyAct).begun.toSits
  have hpos := (h.toTidy.file_held hf ht).trans (h.held _)
  simp only [inTransaction, bind_eq_bind, wp_seq_bind, wp_begun]
  refine hA.wp_ilock (by simp) hpos (fun s₁ h₁ _ _ _ _ => ?_) (fun _ => trivial) trivial
  simp only [wp_seq_lift, fileWritei, getFile, wp_bind, wp_get, wp_pure, wp_onFs]
  refine h₁.wp_writei_any (List.mem_singleton.mpr rfl) (fun r s₂ h₂ => ?_) fun _ _ => trivial
  have hend : ∀ T : Ftable, (∀ g, (T g).type = (k.ftable g).type ∧ (T g).ip = (k.ftable g).ip ∧
      (T g).ref = (k.ftable g).ref) → wp ((iunlock p (k.ftable f).ip).seq p)
      (fun _ k' => wp ((atomic endOp).seq p) (fun _ k'' => Moved k k'') (fun _ => True) k')
      (fun _ => True) ⟨s₂, T, k.proc⟩ := fun T hT =>
    Sits.wp_iunlock (k := ⟨s₂, T, k.proc⟩) h₂ (List.Perm.refl _) fun s₃ h₃ _ _ _ => by
      rw [wp_atomic, endOp, wp_modify]
      exact ⟨(h₃.good.outstanding _ _).1, h₃.unlocked, fun i => by rw [h₃.ref]; rfl, rfl, hT⟩
  simp only [wp_ite, wp_bind, wp_modify, wp_pure]
  exact ⟨fun _ => hend _ (advance_file k.ftable f _), fun _ => hend _ fun g => ⟨rfl, rfl, rfl⟩⟩

/-- The loop of `filewrite`. -/
theorem wp_filewriteLoop_moved (hf : f < NFILE) : ∀ (fuel : Nat) (src : List UInt8) (k : Kern),
    Idle k → (k.ftable f).type = .inode →
    wp ((filewriteLoop p f (k.ftable f).ip fuel src).seq p) (fun _ k' => Moved k k') (fun _ => True) k
  | 0, _, k, h, _ => Moved.refl h
  | fuel + 1, src, k, h, ht => by
    unfold filewriteLoop
    simp only [bind_eq_bind, wp_seq_ite, wp_seq_bind]
    refine ⟨fun _ => Moved.refl h, fun _ => ?_⟩
    refine wp_conseq (wp_write_moved h hf ht _) fun r k₁ h₁ => ?_
    simp only [wp_seq_lift, wp_throw]
    refine ⟨fun _ => h₁, fun _ => ⟨fun _ => trivial, fun _ => ?_⟩⟩
    have hrest := wp_filewriteLoop_moved hf fuel (src.drop MAXWRITE) k₁ (h₁.idle h)
      ((h₁.file f).1.trans ht)
    rw [(h₁.file f).2.1] at hrest
    exact wp_conseq hrest fun _ k₂ h₂ => h₁.trans h₂

/-- `argfd`. -/
theorem wp_argfd {Q : Option Nat → Kern → Prop} {E : Panic → Prop} {fd : Nat} (hnone : Q none k)
    (hsome : ∀ f, (k.proc p).ofile fd = some f → Q (some f) k) : wp (argfd p fd) Q E k := by
  simp only [argfd, getOfile, wp_ite, wp_bind, wp_get, wp_pure]
  refine ⟨fun _ => ?_, fun _ => hnone⟩
  cases hfd : (k.proc p).ofile fd with
  | none => exact hnone
  | some f => exact hsome f hfd

theorem wp_sysRead_moved (h : Idle k) (args : Option (Nat × Nat)) (answer : Option (List UInt8)) :
    wp ((sysRead (.answers (fun _ => answer) fun _ => -1) p args).seq p) (fun _ k' => Moved k k')
      (fun _ => True) k := by
  cases args with
  | none => exact Moved.refl h
  | some args =>
    simp only [sysRead, fileread, bind_eq_bind, wp_seq_bind, wp_seq_lift]
    refine wp_argfd (Moved.refl h) fun f hfd => ?_
    simp only [wp_seq_bind, wp_seq_lift, getFile, wp_bind, wp_get, wp_pure,
      wp_seq_ite]
    refine ⟨fun _ => Moved.refl h, fun _ => ?_⟩
    cases ht : (k.ftable f).type with
    | none => exact trivial
    | pipe => exact Moved.refl h
    | inode => exact wp_read_moved h (h.ofile _ _ _ hfd) ht args.2

theorem wp_sysWrite_moved (h : Idle k) (args : Option (Nat × List UInt8)) (answer : Int) :
    wp ((sysWrite (.answers (fun _ => none) fun _ => answer) p args).seq p) (fun _ k' => Moved k k')
      (fun _ => True) k := by
  cases args with
  | none => exact Moved.refl h
  | some args =>
    simp only [sysWrite, filewrite, bind_eq_bind, wp_seq_bind, wp_seq_lift]
    refine wp_argfd (Moved.refl h) fun f hfd => ?_
    simp only [wp_seq_bind, wp_seq_lift, getFile, wp_bind, wp_get, wp_pure,
      wp_seq_ite]
    refine ⟨fun _ => Moved.refl h, fun _ => ?_⟩
    cases ht : (k.ftable f).type with
    | none => exact trivial
    | pipe => exact Moved.refl h
    | inode =>
      simp only [wp_seq_bind, wp_seq_ite]
      refine wp_conseq (wp_filewriteLoop_moved (h.ofile _ _ _ hfd) _ args.2 k h ht) fun _ k₁ h₁ => ?_
      exact ⟨fun _ => h₁, fun _ => h₁⟩

/-! ## 5. Every call -/

theorem callErrs_any {c : Ctx} : CallErrs c fun _ => True :=
  ⟨⟨fun _ _ => trivial, fun _ _ => trivial, fun _ _ _ _ _ => trivial⟩, trivial, trivial, trivial,
    fun _ => trivial⟩

/-- One call. -/
theorem Idle.wp_refCall (h : Idle k) (hcwd : (k.proc p).cwd ≠ none) {call : RefCall}
    (hlegal : call.Legal k) :
    wp ((call.prog p).seq p) (fun _ k' => Idle k' ∧ Counts k k') (fun _ => True) k := by
  have hC := h.calm p lax_anyAct
  have hdone : ∀ {k'}, Settled (k.ctx p anyAct lax_anyAct) k.fs.outstanding k k' →
      Idle k' ∧ Counts k k' := fun hk' => ⟨(hk'.calm.done (G := anyAct)).idle, hk'.counts⟩
  have hmoved : ∀ {k'}, Moved k k' → Idle k' ∧ Counts k k' := fun hk' => ⟨hk'.idle h, hk'.counts⟩
  match call, hlegal with
  | .call c, hlegal =>
    obtain ⟨i, hi⟩ := Option.ne_none_iff_exists'.mp hcwd
    have hmay : May anyAct p k c := by
      cases c with
      | path c =>
        cases c with
        | sysLink args => cases args <;> simp [May, anyAct]
        | sysUnlink args => cases args <;> simp [May, anyAct]
        | sysOpen args => cases args <;> simp [May, anyAct]
        | sysMkdir args => cases args <;> simp [May, anyAct]
        | sysMknod args => cases args <;> simp [May, anyAct]
        | sysChdir _ | exec _ _ => trivial
      | close _ | exit | fork _ => trivial
    exact wp_conseq (h.wp_call_counts hi (callErrs_any (c := k.ctx p anyAct lax_anyAct))
      (fun _ _ _ => trivial) hlegal hmay) fun _ k' hk' => ⟨hk'.1.idle, hk'.2⟩
  | .forkFails, _ => exact hmoved (.refl h)
  | .wait _, _ => exact hmoved (.refl h)
  | .dup fd, _ => exact wp_conseq (wp_sysDup hC callErrs_any hcwd) fun _ _ => hdone
  | .pipe args, _ => exact wp_conseq (wp_sysPipe hC callErrs_any hcwd args) fun _ _ => hdone
  | .read args answer, _ =>
    simp only [RefCall.prog, bind_eq_bind, wp_seq_bind]
    exact wp_conseq (wp_sysRead_moved h args answer) fun _ _ => hmoved
  | .write args answer, _ => exact wp_conseq (wp_sysWrite_moved h args answer) fun _ _ => hmoved

theorem RefRun.exact (h : Exact k) (hrun : RefRun k k') : Exact k' := by
  induction hrun with
  | start => exact h
  | @step k₁ k₂ p call r _ hcwd hlegal hseq ih =>
    obtain ⟨hidle, hcounts⟩ := wp_of_ok (Q := fun _ k' => Idle k' ∧ Counts k₁ k')
      (ih.toIdle.wp_refCall hcwd hlegal) hseq
    obtain ⟨hfiled, heven⟩ := hcounts ih.filed
    refine ⟨hidle, hfiled, fun i => ?_, fun f hf => ?_⟩
    · have := heven.inode i
      have := ih.inode i
      omega
    · have := heven.file f
      have := ih.file f hf
      omega

/-- **Reference counts are exact.**  After any completed calls of any processes, the count of a
`struct file` is the number of descriptors that point to it, and that of an inode the number of
open files of type FD_INODE and of current directories that are this inode. -/
theorem refs_exact (h : Exact k) (hrun : RefRun k k') :
    (∀ f, f < NFILE → (k'.ftable f).ref =
      ∑ p ∈ Finset.range NPROC, ∑ fd ∈ Finset.range NOFILE,
        if (k'.proc p).ofile fd = some f then 1 else 0) ∧
    ∀ i, k'.fs.ref i =
      (∑ p ∈ Finset.range NPROC, if (k'.proc p).cwd = some i then 1 else 0) +
      ∑ f ∈ Finset.range NFILE,
        if (k'.ftable f).type = .inode ∧ (k'.ftable f).ip = i then 1 else 0 :=
  ⟨(hrun.exact h).file, (hrun.exact h).inode⟩

end

theorem image_holders (i : Nat) : image.holders i = image.fs.ref i := by
  rcases eq_or_ne i ROOTINO with rfl | hi
  · decide +kernel
  · have hcwd : ∀ p, (image.proc p).holds i = 0 := by
      intro p
      refine if_neg ?_
      rw [show (image.proc p).cwd = if p = 0 then some ROOTINO else none from rfl]
      split
      · exact fun h => hi (Option.some.inj h).symm
      · exact nofun
    have hfile : ∀ f, (image.ftable f).holds i = 0 := fun _ => rfl
    rw [Kern.holders, Finset.sum_eq_zero fun p _ => hcwd p, Finset.sum_eq_zero fun f _ => hfile f]
    exact (if_neg hi).symm

theorem image_slots (f : Nat) : image.slots f = 0 :=
  Finset.sum_eq_zero fun _ _ => Finset.sum_eq_zero fun _ _ => if_neg nofun

theorem image_exact : Exact image where
  ftable _ _ := rfl
  slot p hp := by
    by_contra hlt
    have hne : p ≠ 0 := by
      rintro rfl
      exact hlt (by decide)
    exact hp (if_neg hne)
  ofile _ _ _ h := nomatch h
  held i := (image_holders i).le
  good := image_good
  unlocked _ := rfl
  filed _ _ h := absurd rfl h
  inode i := (image_holders i).symm
  file f _ := (image_slots f).symm

instance (k : Kern) (c : RefCall) : Decidable (c.Legal k) :=
  match c with
  | .call (.fork np) => inferInstanceAs (Decidable (np < NPROC ∧ (k.proc np).cwd = none))
  | .call (.path _) | .call (.close _) | .call .exit | .forkFails | .wait _ | .dup _ | .pipe _
  | .read _ _ | .write _ _ => .isTrue trivial

/-- Calls, one after another, as long as each is permitted and returns. -/
def callsFrom (k : Kern) : List (Pid × RefCall) → Option Kern
  | [] => some k
  | (p, c) :: cs =>
    if (k.proc p).cwd ≠ none ∧ c.Legal k then
      match (c.prog p).seq p k with
      | .ok (_, k') => callsFrom k' cs
      | .error _ => none
    else none

theorem refRun_callsFrom {k₀ : Kern} : ∀ {cs : List (Pid × RefCall)} {k k' : Kern}, RefRun k₀ k →
    callsFrom k cs = some k' → RefRun k₀ k'
  | [], _, _, h, he => Option.some.inj he ▸ h
  | (p, c) :: cs, k, k', h, he => by
    rw [callsFrom] at he
    split at he
    next hok =>
      split at he
      next r k₁ hseq => exact refRun_callsFrom (h.step hok.1 hok.2 hseq) he
      next => cases he
    next => cases he

/-- Process 0 creates a file, duplicates its descriptor and makes a pipe; its child closes one
descriptor, and forks again. -/
def family : List (Pid × RefCall) :=
  [(0, .call (.path (.sysOpen (some ([102], O_CREATE))))), (0, .dup 0), (0, .pipe (some true)),
    (0, .call (.fork 1)), (1, .call (.close 0)), (1, .call (.fork 2)), (2, .call .exit)]

theorem refs_exact_family : ∃ k, RefRun image k ∧ (k.ftable 0).ref = 3 ∧ k.fs.ref ROOTINO = 2 ∧
    (∀ f, f < NFILE → (k.ftable f).ref = k.slots f) ∧ ∀ i, k.fs.ref i = k.holders i := by
  have hrun : (callsFrom image family).any
      (fun k => (k.ftable 0).ref = 3 ∧ k.fs.ref ROOTINO = 2) = true := by decide +kernel
  obtain ⟨k, hk, hcheck⟩ := (Option.any_eq_true _ _).mp hrun
  obtain ⟨h3, h2⟩ := of_decide_eq_true hcheck
  have hreach := refRun_callsFrom .start hk
  exact ⟨k, hreach, h3, h2, refs_exact image_exact hreach⟩

end Xv6.Fs
