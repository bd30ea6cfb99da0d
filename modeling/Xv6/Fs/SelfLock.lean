/-
# Which calls wait for themselves

`ilock` and `iput` both take the inode's lock.  A call that runs alone and reaches one of them
with the lock in its hands waits for ever, inside its transaction.  This module says exactly
which calls do:

* `sys_link` whose new name is already in the directory it has locked, and names that directory
  (`.` in every directory, `..` in the root): `dirlink` finds the entry and calls `iput` on it;
* `sys_unlink` whose name is an entry of the directory for the directory itself, other than `.`
  and `..`.

Every other call comes back, with no lock held and its transaction ended, or panics.
-/
import Xv6.Fs.Spec
import Xv6.Fs.Image

namespace Xv6.Fs

/-! ## 1. Calls from a state at rest -/

/-- The kernel between two calls, for process `p`: nobody holds an inode's lock, the process has
a current directory, and its files are in order. -/
structure Ready (p : Pid) (k : Kern) : Prop where
  good : Good k.fs
  unlocked : ∀ i, k.fs.lock i = none
  ftable : k.FtableOk
  cwd : 0 < k.fs.ref (k.cwd p)

/-- No condition on the actions. -/
def anyAct : Names → Act → Prop := fun _ _ => True

theorem lax_anyAct : Names.Lax anyAct := ⟨fun _ _ _ => trivial, fun _ _ => trivial,
  fun _ _ => trivial, fun _ _ => trivial⟩

/-! ## 2. The calls that are stuck -/

/-- **The call comes to a directory whose entry names the directory itself.** -/
def Blocked (p : Pid) (k : Kern) : PathCall → Prop
  | .sysLink (some (old, new)) => ∃ k' ip dp name e,
    (linkParent p old new).seq p k = .ok (.dir ip dp name, k') ∧
      (k'.fs.view dp).lookup name = some e ∧ e.2.inum = dp
  | .sysUnlink (some path) => ∃ k' dp name e,
    (unlinkParent p path).seq p k = .ok (some (dp, name), k') ∧ Plain name ∧
      (k'.fs.view dp).lookup name = some e ∧ e.2.inum = dp
  | _ => False

/-- The call returned, its transaction has ended, and the kernel is ready for the next call. -/
structure Ended (p : Pid) (k k' : Kern) : Prop where
  out : k'.fs.outstanding = k.fs.outstanding
  ready : Ready p k'

/-- What may happen to a call that is stuck only when `B`. -/
def StuckOnlyIf (B : Prop) : Stop Panic Want → Prop
  | .panic _ => True
  | .stuck _ => B

theorem errs_stuckOnlyIf {c : Ctx} {B : Prop} : Errs c (StuckOnlyIf B) :=
  ⟨fun _ _ => trivial, fun _ _ => trivial, fun _ _ _ _ _ => trivial⟩

section

variable {p : Pid} {k : Kern}

/-- A call that gives back all it took. -/
theorem At.ended {c : Ctx} (hk : Ready p k) {s' : FileSys}
    (h : At c k.fs.ref k.fs.outstanding .none [] [] s') : Ended p k { k with fs := s' } where
  out := h.out
  ready := {
    good := h.good
    unlocked := h.unlocked
    ftable := hk.ftable
    cwd := by
      show 0 < s'.ref (k.cwd p)
      rw [h.ref]
      have := hk.cwd
      omega }

theorem mayCreate_any {G : Names → Act → Prop} {hG : Names.Lax G} (hany : ∀ n a, G n a)
    {k₁ : Kern} {path : List UInt8} {type : Int} : MayCreate (k.ctx p G hG) k₁ path type :=
  ⟨fun _ _ _ _ _ _ _ => hany _ _, fun _ _ _ _ _ _ _ => hany _ _⟩

/-- Every call comes back or panics, unless it is blocked. -/
theorem Ready.wp_call (h : Ready p k) (call : PathCall) :
    wp ((call.prog p).seq p) (fun _ k' => Ended p k k') (StuckOnlyIf (Blocked p k call)) k := by
  have hA := at_start h.good h.unlocked (p := p) lax_anyAct
  have he : ∀ B, Errs (k.ctx p anyAct lax_anyAct) (StuckOnlyIf B) := fun _ => errs_stuckOnlyIf
  have hcwd : CwdOk (k.ctx p anyAct lax_anyAct) k.fs.ref k := fun _ _ => trivial
  -- a call that fails before it does anything
  have hnothing : ∀ B, wp ((pure (-1) : KProg Int).seq p) (fun _ k' => Ended p k k')
      (StuckOnlyIf B) k := fun _ => ⟨rfl, h⟩
  cases call with
  | sysLink args =>
    cases args with
    | none => exact hnothing _
    | some args =>
      exact hA.wp_sysLink (he _) hcwd (fun _ _ _ => trivial) (fun _ _ _ _ _ _ => trivial)
        (fun k' ip dp name e hran hlook hself =>
          show Blocked p k (.sysLink (some args)) from ⟨k', ip, dp, name, e, hran, hlook, hself⟩)
        fun s' r hs => hs.ended h
  | sysUnlink path =>
    cases path with
    | none => exact hnothing _
    | some path =>
      exact hA.wp_sysUnlink (he _) hcwd (fun _ _ _ _ _ _ _ _ => trivial) (fun _ _ _ => trivial)
        (fun k' dp name e hran hplain hlook hself =>
          show Blocked p k (.sysUnlink (some path)) from
            ⟨k', dp, name, e, hran, hplain, hlook, hself⟩)
        fun s' r hs => hs.ended h
  | sysOpen args =>
    cases args with
    | none => exact hnothing _
    | some args =>
      refine hA.wp_sysOpen (he _) hcwd h.ftable (fun _ => mayCreate_any fun _ _ => trivial)
        (fun s' hs => hs.ended h) fun s' ip f fd hs _ _ _ _ => ?_
      refine ⟨hs.out, hs.good, hs.unlocked, fun g hg => ?_, ?_⟩
      · -- the new file is in use
        rcases eq_or_ne g f with rfl | hne
        · simp only [Function.update_self] at hg
          cases hg
        · simp only [Function.update_of_ne hne] at hg ⊢
          exact h.ftable g hg
      · have hcwd' : (Function.update k.proc p ((k.proc p).setFd fd (some f)) p).cwd =
            (k.proc p).cwd := by
          rw [Function.update_self]
          rfl
        show 0 < s'.ref ((Function.update k.proc p ((k.proc p).setFd fd (some f)) p).cwd.getD 0)
        rw [hcwd', hs.ref]
        exact Nat.add_pos_left h.cwd _
  | sysMkdir path =>
    show wp ((sysCreate p path T_DIR 0 0).seq p) _ _ k
    exact hA.wp_sysCreate (he _) hcwd (by decide) (fun _ _ => mayCreate_any fun _ _ => trivial)
      fun s' r hs => hs.ended h
  | sysMknod args =>
    cases args with
    | none =>
      show wp ((sysCreate p none T_DEV 0 0).seq p) _ _ k
      exact hA.wp_sysCreate (he _) hcwd (by decide) (fun _ _ => mayCreate_any fun _ _ => trivial)
        fun s' r hs => hs.ended h
    | some args =>
      show wp ((sysCreate p (some args.1) T_DEV (short args.2.1) (short args.2.2)).seq p) _ _ k
      exact hA.wp_sysCreate (he _) hcwd (by decide) (fun _ _ => mayCreate_any fun _ _ => trivial)
        fun s' r hs => hs.ended h
  | sysChdir path =>
    cases path with
    | none =>
      show wp ((sysChdir p none).seq p) _ _ k
      simp only [sysChdir, Prog.bind_eq_bind, Prog.wp_seq_bind, wp_begun]
      exact hA.begun.wp_endOp fun s' hs _ => hs.ended h
    | some path =>
      refine hA.wp_sysChdir (he _) hcwd h.cwd path (fun s' hs => hs.ended h) fun s' ip hs => ?_
      refine ⟨hs.out, hs.good, hs.unlocked, h.ftable, ?_⟩
      have hnew : (({ k with fs := s' } : Kern).setProc p ((k.proc p).setCwd (some ip))).cwd p =
          ip := by
        simp [Kern.cwd, Kern.setProc, Files.setCwd]
      rw [hnew]
      exact hs.ref_pos (by simp)
  | exec path mem => exact hA.wp_exec (he _) hcwd path mem fun s' r hs => hs.ended h

/-- From the directory on, `sys_link` is stuck at its own `iput`. -/
theorem Ready.link_stuck (h : Ready p k) {old new name : List UInt8} {k' : Kern} {ip dp : Nat}
    {e : Nat × Dirent} (hran : (linkParent p old new).seq p k = .ok (.dir ip dp name, k'))
    (hlook : (k'.fs.view dp).lookup name = some e) (hself : e.2.inum = dp) :
    (sysLink p (some (old, new))).seq p k = .error (.stuck ⟨.iput, dp⟩) := by
  have hA := at_start h.good h.unlocked (p := p) lax_anyAct
  -- what `linkParent` leaves behind
  have hat : At (k.ctx p anyAct lax_anyAct) k.fs.ref (k.fs.outstanding + 1) (.link ip) [dp]
      [dp, ip] k'.fs ∧ (k'.fs.view dp).type = T_DIR := by
    have hwp := @At.wp_linkParent _ _ _ _ (StuckOnlyIf True) hA
      errs_stuckOnlyIf (fun _ _ => trivial) old new (fun _ _ _ => trivial)
      (Q := fun r k' => ∀ ip dp name, r = .dir ip dp name →
        At (k.ctx p anyAct lax_anyAct) k.fs.ref (k.fs.outstanding + 1) (.link ip) [dp] [dp, ip]
          k'.fs ∧ (k'.fs.view dp).type = T_DIR)
      (fun _ _ _ _ _ hc => by cases hc) (fun _ _ _ _ _ _ hc => by cases hc)
      (fun s' ip dp name hs hd _ _ _ he => by cases he; exact ⟨hs, hd⟩)
    exact wp_of_ok hwp hran ip dp name rfl
  obtain ⟨hs, hdir⟩ := hat
  have hwp : wp ((sysLink p (some (old, new))).seq p) (fun _ _ => False)
      (fun x => x = .stuck ⟨.iput, dp⟩) k := by
    simp only [sysLink, Prog.bind_eq_bind, Prog.wp_seq_bind]
    exact wp_ok hran (hs.toSits.linkDir_stuck hdir hlook hself)
  exact wp_error hwp

/-- From the directory on, `sys_unlink` is stuck at its `ilock`. -/
theorem Ready.unlink_stuck (h : Ready p k) {path name : List UInt8} {k' : Kern} {dp : Nat}
    {e : Nat × Dirent} (hran : (unlinkParent p path).seq p k = .ok (some (dp, name), k'))
    (hplain : Plain name) (hlook : (k'.fs.view dp).lookup name = some e) (hself : e.2.inum = dp) :
    (sysUnlink p (some path)).seq p k = .error (.stuck ⟨.ilock, dp⟩) := by
  have hA := at_start h.good h.unlocked (p := p) lax_anyAct
  have hat : At (k.ctx p anyAct lax_anyAct) k.fs.ref (k.fs.outstanding + 1) .none [dp] [dp] k'.fs ∧
      (k'.fs.view dp).type = T_DIR := by
    have hwp := hA.wp_unlinkParent (E := StuckOnlyIf True) errs_stuckOnlyIf (fun _ _ => trivial)
      path (Q := fun r k' => ∀ dp name, r = some (dp, name) →
        At (k.ctx p anyAct lax_anyAct) k.fs.ref (k.fs.outstanding + 1) .none [dp] [dp] k'.fs ∧
          (k'.fs.view dp).type = T_DIR)
      (fun _ _ _ _ hc => by cases hc)
      (fun s' dp name hs hd _ _ he => by cases he; exact ⟨hs, hd⟩)
    exact wp_of_ok hwp hran dp name rfl
  obtain ⟨hs, hdir⟩ := hat
  have hwp : wp ((sysUnlink p (some path)).seq p) (fun _ _ => False)
      (fun x => x = .stuck ⟨.ilock, dp⟩) k := by
    simp only [sysUnlink, Prog.bind_eq_bind, Prog.wp_seq_bind]
    exact wp_ok hran (hs.toSits.unlinkDir_stuck hdir hplain hlook hself)
  exact wp_error hwp

/-- **A call that runs alone waits for a lock that it holds exactly when it is blocked.**
Otherwise it returns with its transaction ended and no lock held, or panics. -/
theorem self_deadlock_iff (h : Ready p k) (call : PathCall) :
    ((∃ w, (call.prog p).seq p k = .error (.stuck w)) ↔ Blocked p k call) ∧
      (¬ Blocked p k call →
        (∃ r k', (call.prog p).seq p k = .ok (r, k') ∧ Ended p k k') ∨
          ∃ e, (call.prog p).seq p k = .error (.panic e)) := by
  have hwp := h.wp_call call
  refine ⟨⟨fun ⟨w, hw⟩ => ?_, fun hb => ?_⟩, fun hnb => ?_⟩
  · exact show StuckOnlyIf (Blocked p k call) (.stuck w) from wp_of_error hwp hw
  · -- only two calls can be blocked
    match call, hb with
    | .sysLink (some (old, new)), ⟨k', ip, dp, name, e, hran, hlook, hself⟩ =>
      exact ⟨_, h.link_stuck hran hlook hself⟩
    | .sysUnlink (some path), ⟨k', dp, name, e, hran, hplain, hlook, hself⟩ =>
      exact ⟨_, h.unlink_stuck hran hplain hlook hself⟩
  · cases hrun : (call.prog p).seq p k with
    | ok r =>
      have hend : Ended p k r.2 := wp_of_ok (Q := fun _ => Ended p k) hwp hrun
      exact Or.inl ⟨r.1, r.2, rfl, hend⟩
    | error x =>
      cases x with
      | panic e => exact Or.inr ⟨e, rfl⟩
      | stuck w =>
        have hb : StuckOnlyIf (Blocked p k call) (.stuck w) := wp_of_error hwp hrun
        exact absurd hb hnb

end

/-! ## 3. A link to `.` -/

/-- The image after boot is ready. -/
theorem image_ready : Ready 0 image where
  good := image_good
  unlocked _ := rfl
  ftable _ _ := rfl
  cwd := by decide

/-- The path `f`. -/
def pathF : List UInt8 := [102]

/-- The outcome of a call after another one. -/
def afterCall (k : Kern) (c₁ c₂ : PathCall) : Option (Stop Panic Want) :=
  match (c₁.prog 0).seq 0 k with
  | .error _ => none
  | .ok (_, k₁) =>
    match (c₂.prog 0).seq 0 k₁ with
    | .error x => some x
    | .ok _ => none

theorem Ready.afterCall (h : Ready 0 k) {c₁ c₂ : PathCall} {x : Stop Panic Want}
    (hx : afterCall k c₁ c₂ = some x) : ∃ k₁, Ready 0 k₁ ∧ (c₂.prog 0).seq 0 k₁ = .error x := by
  have hwp := h.wp_call c₁
  unfold Fs.afterCall at hx
  split at hx
  · cases hx
  next r k₁ h₁ =>
    split at hx
    next e h₂ =>
      have hend : Ended 0 k k₁ := wp_of_ok (Q := fun _ => Ended 0 k) hwp h₁
      exact ⟨k₁, hend.ready, by rw [h₂, Option.some.inj hx]⟩
    next => cases hx

/-- **`link("f", ".")` waits for itself**, where `f` is a file in the root directory. -/
theorem link_to_dot_stuck : ∃ k, Ready 0 k ∧
    ((PathCall.sysLink (some (pathF, dot))).prog 0).seq 0 k =
      .error (.stuck ⟨.iput, ROOTINO⟩) :=
  Ready.afterCall image_ready (show afterCall image (.sysOpen (some (pathF, O_CREATE)))
    (.sysLink (some (pathF, dot))) = some (.stuck ⟨.iput, ROOTINO⟩) by decide +kernel)

/-- `mkdir("f")` in the root directory comes back, or panics. -/
theorem mkdir_ends : Ready 0 image ∧ ¬ Blocked 0 image (.sysMkdir (some pathF)) ∧
    ((∃ r k', ((PathCall.sysMkdir (some pathF)).prog 0).seq 0 image = .ok (r, k') ∧
        Ended 0 image k') ∨
      ∃ e, ((PathCall.sysMkdir (some pathF)).prog 0).seq 0 image = .error (.panic e)) :=
  ⟨image_ready, id, (self_deadlock_iff image_ready (.sysMkdir (some pathF))).2 id⟩

end Xv6.Fs
