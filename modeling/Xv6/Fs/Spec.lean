/-
# What the system calls do

One lemma for each system call that changes names: it gives back what it took (locks,
references, its place in the log) and is a run of actions of the naming layer.

The lemmas say under which circumstances a call is stuck at a lock that it holds itself, and
where each action that the condition may forbid is taken: at the end of `linkOld`,
`linkParent`, `unlinkParent` and `createParent`.
-/
import Xv6.Fs.Entries
import Xv6.Fs.Walk

namespace Xv6.Fs

open Function (update update_apply update_comm update_eq_self update_idem update_of_ne update_self)
open Prog (bind_eq_bind pure_eq_ret wp_do wp_seq_bind wp_seq_ite wp_seq_lift wp_seq_ret)

section

variable {c : Ctx} {base : Nat → Nat} {out : Nat} {pend : Pend} {L L' T T' : List Nat}
  {s : FileSys} {k : Kern} {E : Stop Panic Want → Prop} {ip dp : Nat}

/-! ## 1. Transactions and link counts -/

theorem Sits.setOut (h : Sits c base out L T s) (n : Nat) (lh : List Nat) :
    Sits c base n L T { s with outstanding := n, lh := lh } where
  good := (h.good.outstanding n lh).1
  sb := h.sb
  lock := h.lock
  nodup := h.nodup
  valid := h.valid
  held := h.held
  ref := h.ref
  out := rfl

theorem At.setOut (h : At c base out pend L T s) (n : Nat) (lh : List Nat) :
    At c base n pend L T { s with outstanding := n, lh := lh } where
  toSits := h.toSits.setOut n lh
  run := h.view_run (h.good.outstanding n lh).2 rfl

theorem At.wp_beginOp (h : At c base out pend L T k.fs) {Q : Unit → Kern → Prop}
    (hQ : ∀ s', At c base (out + 1) pend L T s' → s'.view = k.fs.view →
      Q () { k with fs := s' }) : wp ((atomic beginOp).seq c.p) Q E k := by
  rw [wp_atomic, beginOp, wp_modify, h.out]
  exact hQ _ (h.setOut _ k.fs.lh) (h.good.outstanding _ _).2

theorem At.wp_endOp (h : At c base (out + 1) pend L T k.fs) {Q : Unit → Kern → Prop}
    (hQ : ∀ s', At c base out pend L T s' → s'.view = k.fs.view → Q () { k with fs := s' }) :
    wp ((atomic endOp).seq c.p) Q E k := by
  rw [wp_atomic, endOp, wp_modify, h.out, Nat.add_sub_cancel]
  exact hQ _ (h.setOut _ _) (h.good.outstanding _ _).2

/-- `ip->nlink++; iupdate(ip)`. -/
theorem Sits.wp_incLink (h : Sits c base out L T s) (hL : ip ∈ L) {Q : Unit → FileSys → Prop}
    {E : Panic → Prop} (hQ : ∀ s', Updated s s' ip (s.view ip).incr → Q () s')
    (hE : ∀ e, Limit e → E e) : wp (incLink ip) Q E s := by
  have hv := h.valid ip hL
  refine wp_setInode_iupdate (f := fun d => { d with nlink := short (d.nlink + 1) }) h.good hv
    (fun _ => rfl) (fun _ => rfl) (fun _ => rfl) (fun s' hu => hQ s' ?_) hE
  rw [h.good.view_eq hv]
  exact hu

/-- `ip->nlink--; iupdate(ip)`. -/
theorem Sits.wp_decLink (h : Sits c base out L T s) (hL : ip ∈ L) {Q : Unit → FileSys → Prop}
    {E : Panic → Prop} (hQ : ∀ s', Updated s s' ip (s.view ip).decr → Q () s')
    (hE : ∀ e, Limit e → E e) : wp (decLink ip) Q E s := by
  have hv := h.valid ip hL
  refine wp_setInode_iupdate (f := fun d => { d with nlink := short (d.nlink - 1) }) h.good hv
    (fun _ => rfl) (fun _ => rfl) (fun _ => rfl) (fun s' hu => hQ s' ?_) hE
  rw [h.good.view_eq hv]
  exact hu

/-- A change of one file that is an action. -/
theorem At.act (h : At c base out pend L T s) {s' : FileSys} {f : File} (hu : Updated s s' ip f)
    {pend' : Pend} {a : Act} (hG : c.G (s.names pend) a)
    (hstep : Names.Step c.sb.ninodes (s.names pend) a
      ⟨update s.view ip f, s.ref, pend'⟩) : At c base out pend' L T s' where
  toSits := h.toSits.updated hu
  run := by
    refine h.run.tail hG ?_
    unfold FileSys.names
    rwa [hu.view, hu.frame.ref]

/-- A link that is not there is taken off the count. -/
theorem At.wp_uncount (h : At c base out pend L T k.fs) (he : Errs c E)
    (hp : pend.inum = some ip) (hL : ip ∈ L) {Q : Unit → Kern → Prop}
    (hQ : ∀ s', At c base out .none L T s' → Q () { k with fs := s' }) :
    wp ((atomic (decLink ip)).seq c.p) Q E k := by
  rw [wp_atomic]
  refine h.toSits.wp_decLink hL (fun s' hu => hQ s' ?_) he.limit
  exact h.act hu (c.lax.uncount _ _) (Names.Step.uncount hp)

/-! ## 2. `sys_link` -/

/-- What a call assumes of the current directory. -/
def CwdOk (c : Ctx) (base : Nat → Nat) (k : Kern) : Prop :=
  ∀ n : Names, base (k.cwd c.p) ≤ n.ref (k.cwd c.p) → c.G n (.get (k.cwd c.p))

theorem At.wp_linkOld (h : At c base out .none [] T k.fs) (he : Errs c E) (hcwd : CwdOk c base k)
    (old : List UInt8) {Q : Option Nat → Kern → Prop}
    (hnone : ∀ s', At c base out .none [] T s' → Q none { k with fs := s' })
    (hsome : ∀ s' ip, At c base (out + 1) .none [ip] (ip :: T) s' → (s'.view ip).type ≠ 0 →
      (s'.view ip).type ≠ T_DIR → Q (some ip) { k with fs := s' }) :
    wp ((linkOld c.p old).seq c.p) Q E k := by
  refine wp_do (h.wp_beginOp fun s₁ h₁ _ => wp_do ?_)
  refine At.wp_namei (k := { k with fs := s₁ }) h₁ he old hcwd
    (fun s₂ h₂ => wp_do (At.wp_endOp h₂ fun s₃ h₃ _ => hnone s₃ h₃)) fun s₂ ip h₂ => wp_do ?_
  refine At.wp_ilock h₂ he (by simp) (h₂.ref_pos (by simp)) fun s₃ h₃ hview ht => wp_do ?_
  rw [wp_atomic, h₃.toSits.wp_itype (by simp), wp_seq_ite]
  refine ⟨fun _ => wp_do ?_, fun hnd => hsome s₃ ip h₃ (by rw [hview]; exact ht) hnd⟩
  exact At.wp_iunlockput h₃ he (.refl _) (.refl _) fun s₄ h₄ _ =>
    wp_do (At.wp_endOp h₄ fun s₅ h₅ _ => hnone s₅ h₅)

theorem At.wp_linkParent (h : At c base out .none [] [] k.fs) (he : Errs c E)
    (hcwd : CwdOk c base k) {old new : List UInt8}
    (hcount : ∀ k' ip, (linkOld c.p old).seq c.p k = .ok (some ip, k') →
      c.G (k'.fs.names .none) (.count ip)) {Q : LinkAt → Kern → Prop}
    (hfail : ∀ s', At c base out .none [] [] s' → Q .fail { k with fs := s' })
    (hbad : ∀ s' ip, At c base (out + 1) (.link ip) [] [ip] s' → Q (.bad ip) { k with fs := s' })
    (hdir : ∀ s' ip dp name, At c base (out + 1) (.link ip) [dp] [dp, ip] s' →
      (s'.view dp).type = T_DIR → Q (.dir ip dp name) { k with fs := s' }) :
    wp ((linkParent c.p old new).seq c.p) Q E k := by
  refine wp_do (wp_ran ?_)
  refine h.wp_linkOld he hcwd old (fun s₁ h₁ _ => hfail s₁ h₁) fun s₁ ip h₁ ht hnd hran => wp_do ?_
  rw [wp_atomic]
  refine h₁.toSits.wp_incLink (by simp) (fun s₂ hu => ?_) he.limit
  have h₂ : At c base (out + 1) (.link ip) [ip] [ip] s₂ :=
    h₁.act hu (hcount _ _ hran) (Names.Step.count rfl ht hnd)
  refine wp_do (At.wp_iunlock h₂ (.refl _) fun s₃ h₃ _ => wp_do ?_)
  refine At.wp_nameiparent (k := { k with fs := s₃ }) h₃ he new hcwd (fun s₄ h₄ => hbad s₄ ip h₄)
    fun s₄ dp name h₄ hd => wp_do ?_
  refine At.wp_ilock h₄ he (by simp) (h₄.ref_pos (by simp)) fun s₅ h₅ hview _ => ?_
  exact hdir s₅ ip dp name h₅ (by rw [hview]; exact hd)

theorem At.wp_linkBad (h : At c base (out + 1) (.link ip) [] [ip] k.fs) (he : Errs c E)
    {Q : Int → Kern → Prop}
    (hQ : ∀ s', At c base out .none [] [] s' → Q (-1) { k with fs := s' }) :
    wp ((linkBad c.p ip).seq c.p) Q E k := by
  refine wp_do (h.wp_ilock he (by simp) (h.ref_pos (by simp)) fun s₁ h₁ _ _ => wp_do ?_)
  refine At.wp_uncount h₁ he rfl (by simp) fun s₂ h₂ => wp_do ?_
  exact At.wp_iunlockput h₂ he (.refl _) (.refl _) fun s₃ h₃ _ =>
    wp_do (At.wp_endOp h₃ fun s₄ h₄ _ => hQ s₄ h₄)

/-- `sys_link` with the directory locked.  It is stuck when the new name is there and names the
directory itself. -/
theorem At.wp_linkDir (h : At c base (out + 1) (.link ip) [dp] [dp, ip] k.fs) (he : Errs c E)
    (hd : (k.fs.view dp).type = T_DIR) {name : List UInt8}
    (hentry : (k.fs.view dp).lookup name = none →
      c.G (k.fs.names (.link ip)) (.entry dp name ip))
    (hstuck : ∀ e, (k.fs.view dp).lookup name = some e → e.2.inum = dp →
      E (.stuck ⟨.iput, dp⟩)) {Q : Int → Kern → Prop}
    (hQ : ∀ s' r, At c base out .none [] [] s' → Q r { k with fs := s' }) :
    wp ((linkDir c.p ip dp name).seq c.p) Q E k := by
  refine wp_do (wp_do ?_)
  rw [wp_atomic]
  refine h.wp_dirlookup he (by simp) hd (fun e s₂ hlook h₂ hview => wp_do ?_) fun hlook => wp_do ?_
  · -- the name exists
    by_cases hself : e.2.inum = dp
    · refine Sits.wp_iput_held h₂.toSits (by simp [hself]) ?_
      rw [hself]
      exact hstuck e hlook hself
    · refine At.wp_iput h₂ he (by simpa using hself) (.refl _) fun s₃ h₃ _ => ?_
      refine (wp_seq_ite _ _).mpr ⟨fun _ => wp_do ?_, fun hc => absurd (by decide) hc⟩
      refine At.wp_iunlockput h₃ he (.refl _) (.refl _) fun s₄ h₄ _ => ?_
      exact At.wp_linkBad h₄ he fun s₅ h₅ => hQ s₅ _ h₅
  · -- the entry is made
    rw [wp_atomic]
    refine wp_dirlinkWrite h.good (h.valid dp (by simp)) hd (fun s₂ hu => ?_)
      (fun _ => he.corrupt _ rfl) (he.corrupt _ rfl) he.limit
    have h₂ : At c base (out + 1) .none [dp] [dp, ip] s₂ :=
      h.act hu (hentry hlook) (Names.Step.entry rfl hd hlook)
    refine (wp_seq_ite _ _).mpr ⟨fun hc => absurd hc (by decide), fun _ => wp_do ?_⟩
    refine At.wp_iunlockput h₂ he (.refl _) (.refl _) fun s₃ h₃ _ => wp_do ?_
    exact At.wp_iput h₃ he (by simp) (.refl _) fun s₄ h₄ _ =>
      wp_do (At.wp_endOp h₄ fun s₅ h₅ _ => hQ s₅ _ h₅)

/-- A lookup in a locked directory that finds the directory itself.  The directory is
referenced, so that `iget` finds its cache entry. -/
theorem Sits.wp_dirlookup_self (h : Sits c base out [dp] T s) (hd : (s.view dp).type = T_DIR)
    {name : List UInt8} {e : Nat × Dirent} (hlook : (s.view dp).lookup name = some e)
    (hself : e.2.inum = dp) {Q : Option (Nat × Nat) → FileSys → Prop} {Eₚ : Panic → Prop}
    (hQ : ∀ s', Sits c base out [dp] (dp :: T) s' → Q (some (dp, e.1)) s') :
    wp (dirlookup dp name) Q Eₚ s := by
  refine wp_dirlookup h.good (h.valid dp (by simp)) (fun e' _ he' => ?_) (fun _ hc => ?_)
    (fun hc => absurd hd hc) (fun hc => ?_) fun e' he' hc => ?_
  · obtain rfl : e' = e := Option.some.inj (he'.symm.trans hlook)
    rw [hself]
    exact hQ _ (h.got dp)
  · rw [hlook] at hc
    cases hc
  · rw [hlook] at hc
    cases hc
  · obtain rfl : e' = e := Option.some.inj (he'.symm.trans hlook)
    rw [hself] at hc
    exact absurd hc (h.held dp (by simp)).ne'

theorem Sits.linkDir_stuck (h : Sits c base out [dp] T k.fs) (hd : (k.fs.view dp).type = T_DIR)
    {name : List UInt8} {e : Nat × Dirent} (hlook : (k.fs.view dp).lookup name = some e)
    (hself : e.2.inum = dp) :
    wp ((linkDir c.p ip dp name).seq c.p) (fun _ _ => False)
      (fun x => x = .stuck ⟨.iput, dp⟩) k := by
  refine wp_do (wp_do (wp_atomic.mpr ?_))
  exact h.wp_dirlookup_self hd hlook hself fun s' hs => wp_do (Sits.wp_iput_held hs (by simp) rfl)

/-- **`sys_link`.** -/
theorem At.wp_sysLink (h : At c base out .none [] [] k.fs) (he : Errs c E) (hcwd : CwdOk c base k)
    {old new : List UInt8}
    (hcount : ∀ k' ip, (linkOld c.p old).seq c.p k = .ok (some ip, k') →
      c.G (k'.fs.names .none) (.count ip))
    (hentry : ∀ k' ip dp name,
      (linkParent c.p old new).seq c.p k = .ok (.dir ip dp name, k') →
      (k'.fs.view dp).lookup name = none → c.G (k'.fs.names (.link ip)) (.entry dp name ip))
    (hstuck : ∀ k' ip dp name e,
      (linkParent c.p old new).seq c.p k = .ok (.dir ip dp name, k') →
      (k'.fs.view dp).lookup name = some e → e.2.inum = dp → E (.stuck ⟨.iput, dp⟩))
    {Q : Int → Kern → Prop}
    (hQ : ∀ s' r, At c base out .none [] [] s' → Q r { k with fs := s' }) :
    wp ((sysLink c.p (some (old, new))).seq c.p) Q E k := by
  refine wp_do (wp_ran ?_)
  refine h.wp_linkParent he hcwd hcount (fun s₁ h₁ _ => hQ s₁ _ h₁)
    (fun s₁ ip h₁ _ => At.wp_linkBad h₁ he fun s₂ h₂ => hQ s₂ _ h₂)
    fun s₁ ip dp name h₁ hd hran => ?_
  exact At.wp_linkDir (k := { k with fs := s₁ }) h₁ he hd (hentry _ ip dp name hran)
    (hstuck _ ip dp name · hran) hQ

/-! ## 3. `sys_unlink` -/

theorem At.wp_unlinkParent (h : At c base out .none [] [] k.fs) (he : Errs c E)
    (hcwd : CwdOk c base k) (path : List UInt8) {Q : Option (Nat × List UInt8) → Kern → Prop}
    (hnone : ∀ s', At c base out .none [] [] s' → Q none { k with fs := s' })
    (hsome : ∀ s' dp name, At c base (out + 1) .none [dp] [dp] s' → (s'.view dp).type = T_DIR →
      Q (some (dp, name)) { k with fs := s' }) :
    wp ((unlinkParent c.p path).seq c.p) Q E k := by
  refine wp_do (h.wp_beginOp fun s₁ h₁ _ => wp_do ?_)
  refine At.wp_nameiparent (k := { k with fs := s₁ }) h₁ he path hcwd
    (fun s₂ h₂ => wp_do (At.wp_endOp h₂ fun s₃ h₃ _ => hnone s₃ h₃)) fun s₂ dp name h₂ hd => wp_do ?_
  refine At.wp_ilock h₂ he (by simp) (h₂.ref_pos (by simp)) fun s₃ h₃ hview _ => ?_
  exact hsome s₃ dp name h₃ (by rw [hview]; exact hd)

theorem At.wp_unlinkBad (h : At c base (out + 1) .none [dp] [dp] k.fs) (he : Errs c E)
    {Q : Int → Kern → Prop}
    (hQ : ∀ s', At c base out .none [] [] s' → Q (-1) { k with fs := s' }) :
    wp ((unlinkBad c.p dp).seq c.p) Q E k :=
  wp_do (h.wp_iunlockput he (.refl _) (.refl _) fun _ h₁ _ =>
    wp_do (At.wp_endOp h₁ fun s₂ h₂ _ => hQ s₂ h₂))

/-- The checks on the inode to be unlinked. -/
theorem At.wp_unlinkRefused (h : At c base out pend L T s) (he : Errs c E) (hL : ip ∈ L)
    {Q : Bool → FileSys → Prop}
    (hdir : 1 ≤ (s.view ip).nlink → (s.view ip).type = T_DIR → Q (!(s.view ip).isEmpty) s)
    (hfile : 1 ≤ (s.view ip).nlink → (s.view ip).type ≠ T_DIR → Q false s) :
    wp (unlinkRefused ip) Q (fun e => E (.panic e)) s := by
  have hv := h.valid ip hL
  have hview := h.good.view_eq hv
  have hnl : (s.view ip).nlink = (s.inode ip).nlink := by rw [hview]; rfl
  have ht : (s.view ip).type = (s.inode ip).type := by rw [hview]; rfl
  simp only [unlinkRefused, wp_bind, wp_get, wp_ite, wp_throw, wp_pure, ← hnl, ← ht]
  refine ⟨fun _ => he.corrupt _ rfl, fun hn => ⟨fun hd => ?_, fun hd => hfile (by omega) hd⟩⟩
  exact wp_isdirempty h.good hv hd (hdir (by omega) hd) fun _ => he.corrupt _ rfl

/-- The entry is cleared, and a directory's `..` taken off the count of its parent. -/
theorem At.wp_unlinkEntry (h : At c base out pend L T s) (he : Errs c E) (hdp : dp ∈ L)
    (hip : ip ∈ L) (hne : ip ≠ dp) (hdir : (s.view dp).type = T_DIR) {off : Nat}
    {Q : Unit → FileSys → Prop}
    (hfile : ∀ s', (s.view ip).type ≠ T_DIR → Updated s s' dp ((s.view dp).clear off) → Q () s')
    (hsub : ∀ s', (s.view ip).type = T_DIR → Updated s s' dp ((s.view dp).clear off).decr →
      Q () s') : wp (unlinkEntry dp ip off) Q (fun e => E (.panic e)) s := by
  have hv := h.valid dp hdp
  have hnotdev : (s.inode dp).type ≠ T_DEV := by
    have : (s.view dp).type = (s.inode dp).type := by rw [h.good.view_eq hv]; rfl
    rw [← this, hdir]
    decide
  simp only [unlinkEntry, wp_bind]
  refine wp_writei h.good hv hnotdev (fun _ => ?_) (fun _ _ s₁ hu => ?_) he.limit
  · rw [wp_ite]
    exact ⟨fun _ => he.corrupt _ rfl, fun hc => absurd (by decide) hc⟩
  · have h₁ := h.toSits.updated hu
    have hother : s₁.view ip = s.view ip := by rw [hu.view, update_of_ne hne]
    have hself : s₁.view dp = (s.view dp).clear off := by
      rw [hu.view, update_self]
      rfl
    rw [wp_ite]
    refine ⟨fun hc => absurd (by simp) hc, fun _ => ?_⟩
    rw [wp_bind, h₁.wp_itype hip, wp_ite, hother]
    refine ⟨fun hd => ?_, fun hd => hfile s₁ hd hu⟩
    refine h₁.wp_decLink hdp (fun s₂ hu₂ => hsub s₂ hd ?_) he.limit
    refine ⟨hu₂.good, hu.frame.trans hu₂.frame, ?_⟩
    rw [hu₂.view, hu.view, update_idem, update_self]
    rfl

/-- `sys_unlink` with the directory locked.  It is stuck when the entry, under a name other than
`.` and `..`, names the directory itself. -/
theorem At.wp_unlinkDir (h : At c base (out + 1) .none [dp] [dp] k.fs) (he : Errs c E)
    (hd : (k.fs.view dp).type = T_DIR) {name : List UInt8}
    (hrmdir : ∀ e n, n.view = k.fs.view → (n.view dp).lookup name = some e →
      c.G n (.rmdir dp name))
    (hunlink : ∀ n, c.G n (.unlink dp name))
    (hstuck : ∀ e, Plain name → (k.fs.view dp).lookup name = some e → e.2.inum = dp →
      E (.stuck ⟨.ilock, dp⟩)) {Q : Int → Kern → Prop}
    (hQ : ∀ s' r, At c base out .none [] [] s' → Q r { k with fs := s' }) :
    wp ((unlinkDir c.p dp name).seq c.p) Q E k := by
  rw [unlinkDir, wp_seq_ite]
  refine ⟨fun _ => h.wp_unlinkBad he fun s₂ h₂ => hQ s₂ _ h₂, fun hplain => ?_⟩
  have hplain : Plain name := not_or.mp hplain
  refine wp_do (wp_atomic.mpr ?_)
  refine h.wp_dirlookup he (by simp) hd (fun e s₂ hlook h₂ hview => wp_do ?_)
    fun _ => h.wp_unlinkBad he fun s₂ h₂ => hQ s₂ _ h₂
  by_cases hself : e.2.inum = dp
  · refine Sits.wp_ilock_held h₂.toSits (by simp [hself]) ?_
    rw [hself]
    exact hstuck e hplain hlook hself
  refine At.wp_ilock h₂ he (by simpa using hself) (h₂.ref_pos (by simp))
    fun s₃ h₃ hview₃ _ => wp_do (wp_atomic.mpr ?_)
  have hview₁ : s₃.view = k.fs.view := hview₃.trans hview
  have hd₃ : (s₃.view dp).type = T_DIR := by rw [hview₁]; exact hd
  have hlook₃ : (s₃.view dp).lookup name = some e := by rw [hview₁]; exact hlook
  -- what follows once the link has been taken off the directory
  have hrest : ∀ s', At c base (out + 1) (.unlink e.2.inum) [e.2.inum, dp] [e.2.inum, dp] s' →
      wp (Prog.seq c.p do
        iunlockput c.p dp
        atomic (decLink e.2.inum)
        iunlockput c.p e.2.inum
        atomic endOp
        return 0) Q E { k with fs := s' } := by
    intro s' hs
    refine wp_do (At.wp_iunlockput hs he (.swap ..) (.swap ..) fun s₅ h₅ _ => wp_do ?_)
    refine At.wp_uncount h₅ he rfl (by simp) fun s₆ h₆ => wp_do ?_
    exact At.wp_iunlockput h₆ he (.refl _) (.refl _) fun s₇ h₇ _ =>
      wp_do (At.wp_endOp h₇ fun s₈ h₈ _ => hQ s₈ _ h₈)
  refine h₃.wp_unlinkRefused he (by simp) (fun hnl ht => ?_) fun hnl ht => ?_
  · rw [wp_seq_ite]
    refine ⟨fun _ => wp_do ?_, fun hempty => wp_do (wp_atomic.mpr ?_)⟩
    · refine At.wp_iunlockput h₃ he (.refl _) (.refl _) fun s₄ h₄ _ => ?_
      exact At.wp_unlinkBad h₄ he fun s₅ h₅ => hQ s₅ _ h₅
    · refine h₃.wp_unlinkEntry he (by simp) (by simp) hself hd₃
        (fun s₄ hc => absurd ht hc) fun s₄ _ hu => hrest s₄ ?_
      refine h₃.act hu (hrmdir e _ hview₁ hlook₃)
        (Names.Step.rmdir rfl hd₃ hplain hlook₃ hself hnl ht ?_)
      simpa [FileSys.names] using hempty
  · rw [wp_seq_ite]
    refine ⟨fun hc => absurd hc (by decide), fun _ => wp_do (wp_atomic.mpr ?_)⟩
    refine h₃.wp_unlinkEntry he (by simp) (by simp) hself hd₃
      (fun s₄ _ hu => hrest s₄ ?_) fun s₄ hc => absurd hc ht
    exact h₃.act hu (hunlink _) (Names.Step.unlink rfl hd₃ hplain hlook₃ hself hnl ht)

theorem Sits.unlinkDir_stuck (h : Sits c base out [dp] T k.fs) (hd : (k.fs.view dp).type = T_DIR)
    {name : List UInt8} {e : Nat × Dirent} (hplain : Plain name)
    (hlook : (k.fs.view dp).lookup name = some e) (hself : e.2.inum = dp) :
    wp ((unlinkDir c.p dp name).seq c.p) (fun _ _ => False)
      (fun x => x = .stuck ⟨.ilock, dp⟩) k := by
  rw [unlinkDir, wp_seq_ite]
  refine ⟨fun hc => absurd hc (not_or.mpr hplain), fun _ => wp_do (wp_atomic.mpr ?_)⟩
  exact h.wp_dirlookup_self hd hlook hself fun s' hs => wp_do (Sits.wp_ilock_held hs (by simp) rfl)

/-- **`sys_unlink`.** -/
theorem At.wp_sysUnlink (h : At c base out .none [] [] k.fs) (he : Errs c E)
    (hcwd : CwdOk c base k) {path : List UInt8}
    (hrmdir : ∀ k' dp name e n, (unlinkParent c.p path).seq c.p k = .ok (some (dp, name), k') →
      n.view = k'.fs.view → (n.view dp).lookup name = some e → c.G n (.rmdir dp name))
    (hunlink : ∀ n dp name, c.G n (.unlink dp name))
    (hstuck : ∀ k' dp name e, (unlinkParent c.p path).seq c.p k = .ok (some (dp, name), k') →
      Plain name → (k'.fs.view dp).lookup name = some e → e.2.inum = dp →
      E (.stuck ⟨.ilock, dp⟩)) {Q : Int → Kern → Prop}
    (hQ : ∀ s' r, At c base out .none [] [] s' → Q r { k with fs := s' }) :
    wp ((sysUnlink c.p (some path)).seq c.p) Q E k := by
  refine wp_do (wp_ran ?_)
  refine h.wp_unlinkParent he hcwd path (fun s₁ h₁ _ => hQ s₁ _ h₁)
    fun s₁ dp name h₁ hd hran => ?_
  exact At.wp_unlinkDir (k := { k with fs := s₁ }) h₁ he hd
    (fun e n => hrmdir _ dp name e n hran) (fun n => hunlink n dp name)
    (fun e => hstuck _ dp name e hran) hQ

/-! ## 4. `create` -/

/-- `dirlink` of a name that is not there. -/
theorem Sits.wp_dirlinkOr (h : Sits c base out L T k.fs) (hL : dp ∈ L)
    (hdir : (k.fs.view dp).type = T_DIR) {name : List UInt8} {inum : Nat} {err : Panic}
    (hnone : (k.fs.view dp).lookup name = none) (he : Errs c E) {Q : Unit → Kern → Prop}
    (hQ : ∀ s', Updated k.fs s' dp ((k.fs.view dp).link name inum) → Q () { k with fs := s' }) :
    wp ((dirlinkOr err dp name inum).seq c.p) Q E k := by
  have hv := h.valid dp hL
  simp only [dirlinkOr, dirlink, bind_eq_bind, wp_seq_bind, wp_atomic]
  refine wp_dirlookup h.good hv (fun e _ hc => ?_) (fun _ _ => ?_) (fun hc => absurd hdir hc)
    (fun _ _ => he.corrupt _ rfl) fun e hc => ?_
  · rw [hnone] at hc
    cases hc
  · simp only [wp_seq_bind, wp_atomic]
    refine wp_dirlinkWrite h.good hv hdir (fun s' hu => ?_) (fun _ => he.corrupt _ rfl)
      (he.corrupt _ rfl) he.limit
    simp only [pure_eq_ret, wp_seq_ret, wp_seq_ite]
    exact ⟨fun hc => absurd hc (by decide), fun _ => hQ s' hu⟩
  · rw [hnone] at hc
    cases hc

theorem Sits.wp_createInit (h : Sits c base out L T s) (hL : ip ∈ L) {major minor : Int}
    {Q : Unit → FileSys → Prop} {E : Panic → Prop}
    (hQ : ∀ s', Updated s s' ip { s.view ip with major := major, minor := minor, nlink := 1 } →
      Q () s') (hE : ∀ e, Limit e → E e) : wp (createInit ip major minor) Q E s := by
  have hv := h.valid ip hL
  refine wp_setInode_iupdate (f := fun d => { d with major := major, minor := minor, nlink := 1 })
    h.good hv (fun _ => rfl) (fun _ => rfl) (fun _ => rfl) (fun s' hu => hQ s' ?_) hE
  rw [h.good.view_eq hv]
  exact hu

/-- The new inode and its directory, after `create` has filled them in. -/
theorem Sits.wp_createFill (h : Sits c base out [dp] T k.fs) (he : Errs c E) {n : Nat}
    {v : Nat → File} {name : List UInt8} {type major minor : Int} (hne : n ≠ dp)
    (hr : 0 < k.fs.ref n) (hview : k.fs.view = update v n { File.free with type := type })
    (ht : type ≠ 0) (hdir : (v dp).type = T_DIR) (hnone : (v dp).lookup name = none)
    {Q : Unit → Kern → Prop}
    (hsub : ∀ s', type = T_DIR → Sits c base out [n, dp] T s' → s'.ref = k.fs.ref →
      s'.view = update (update v n (File.newDir n dp major minor)) dp
        ((v dp).incr.link name n) → Q () { k with fs := s' })
    (hfile : ∀ s', type ≠ T_DIR → Sits c base out [n, dp] T s' → s'.ref = k.fs.ref →
      s'.view = update (update v n (File.new type major minor)) dp
        ((v dp).link name n) → Q () { k with fs := s' }) :
    wp ((createFill dp name type major minor n).seq c.p) Q E k := by
  have hself : k.fs.view n = { File.free with type := type } := by
    rw [hview, update_self]
  simp only [createFill, bind_eq_bind, wp_seq_bind]
  refine h.wp_ilock (by simpa using hne) hr (fun s₁ h₁ hv₁ hr₁ _ _ => ?_)
    (fun hc => absurd hc (by rw [hself]; exact ht)) (he.limit _ rfl)
  rw [wp_atomic]
  refine h₁.wp_createInit (by simp) (fun s₂ hu₂ => ?_) he.limit
  have h₂ := h₁.updated hu₂
  have hv₂ : s₂.view = update v n (File.new type major minor) := by
    rw [hu₂.view, hv₁, hself, hview, update_idem]
    rfl
  have hr₂ : s₂.ref = k.fs.ref := hu₂.frame.ref.trans hr₁
  have hn₂ : s₂.view n = File.new type major minor := by rw [hv₂, update_self]
  have hd₂ : s₂.view dp = v dp := by rw [hv₂, update_of_ne (Ne.symm hne)]
  rw [wp_seq_ite]
  refine ⟨fun htd => ?_, fun htd => ?_⟩
  · -- a directory: its two entries first
    simp only [wp_seq_bind, wp_atomic]
    refine h₂.wp_incLink (by simp) (fun s₃ hu₃ => ?_) he.limit
    have h₃ := h₂.updated hu₃
    have hn₃ : s₃.view n = File.new T_DIR major minor := by
      rw [hu₃.view, update_of_ne hne, hn₂, htd]
    have hd₃ : s₃.view dp = (v dp).incr := by rw [hu₃.view, update_self, hd₂]
    refine Sits.wp_dirlinkOr (k := { k with fs := s₃ }) h₃ (by simp) ?_ ?_ he fun s₄ hu₄ => ?_
    · rw [hn₃]
      rfl
    · rw [hn₃]
      exact new_lookup ..
    have h₄ := h₃.updated hu₄
    have hn₄ : s₄.view n = (File.new T_DIR major minor).link dot n := by
      rw [hu₄.view, update_self, hn₃]
    refine Sits.wp_dirlinkOr (k := { k with fs := s₄ }) h₄ (by simp) ?_ ?_ he fun s₅ hu₅ => ?_
    · rw [hn₄]
      rfl
    · rw [hn₄]
      exact new_dot_lookup ..
    have h₅ := h₄.updated hu₅
    have hd₅ : s₅.view dp = (v dp).incr := by
      rw [hu₅.view, update_of_ne (Ne.symm hne), hu₄.view, update_of_ne (Ne.symm hne), hd₃]
    refine Sits.wp_dirlinkOr (k := { k with fs := s₅ }) h₅ (by simp) ?_ ?_ he fun s₆ hu₆ => ?_
    · rw [hd₅]
      exact hdir
    · rw [hd₅]
      exact hnone
    refine hsub s₆ htd (h₅.updated hu₆) ?_ ?_
    · rw [hu₆.frame.ref, hu₅.frame.ref, hu₄.frame.ref, hu₃.frame.ref, hr₂]
    · rw [hu₆.view, hd₅, hu₅.view, hn₄, hu₄.view, update_idem, hu₃.view, hv₂,
        update_comm (Ne.symm hne), update_idem, update_idem]
      rfl
  · refine Sits.wp_dirlinkOr (k := { k with fs := s₂ }) h₂ (by simp) ?_ ?_ he fun s₃ hu₃ => ?_
    · rw [hd₂]
      exact hdir
    · rw [hd₂]
      exact hnone
    refine hfile s₃ htd (h₂.updated hu₃) (hu₃.frame.ref.trans hr₂) ?_
    rw [hu₃.view, hd₂, hv₂]

theorem At.wp_createParent (h : At c base out .none [] [] k.fs) (he : Errs c E)
    (hcwd : CwdOk c base k) (path : List UInt8) {Q : Option (Nat × List UInt8) → Kern → Prop}
    (hnone : ∀ s', At c base out .none [] [] s' → Q none { k with fs := s' })
    (hsome : ∀ s' dp name, At c base out .none [dp] [dp] s' → (s'.view dp).type = T_DIR →
      Q (some (dp, name)) { k with fs := s' }) :
    wp ((createParent c.p path).seq c.p) Q E k := by
  refine wp_do (h.wp_nameiparent he path hcwd hnone fun s₁ dp name h₁ hd => wp_do ?_)
  refine At.wp_ilock h₁ he (by simp) (h₁.ref_pos (by simp)) fun s₂ h₂ hview _ => ?_
  exact hsome s₂ dp name h₂ (by rw [hview]; exact hd)

/-- **`create`** returns an inode that the caller has a reference to, and holds. -/
theorem At.wp_create (h : At c base out .none [] [] k.fs) (he : Errs c E) (hcwd : CwdOk c base k)
    {path : List UInt8} {type major minor : Int} (ht : type ≠ 0)
    (hmkdir : ∀ k' dp name n, (createParent c.p path).seq c.p k = .ok (some (dp, name), k') →
      type = T_DIR → (k'.fs.view dp).lookup name = none →
      c.G (k'.fs.names .none) (.mkdir dp name n))
    (hmkfile : ∀ k' dp name n, (createParent c.p path).seq c.p k = .ok (some (dp, name), k') →
      type ≠ T_DIR → (k'.fs.view dp).lookup name = none →
      c.G (k'.fs.names .none) (.mkfile dp name n)) {Q : Option Nat → Kern → Prop}
    (hnone : ∀ s', At c base out .none [] [] s' → Q none { k with fs := s' })
    (hsome : ∀ s' ip, At c base out .none [ip] [ip] s' → Q (some ip) { k with fs := s' }) :
    wp ((create c.p path type major minor).seq c.p) Q E k := by
  refine wp_do (wp_ran ?_)
  refine h.wp_createParent he hcwd path (fun s₁ h₁ _ => hnone s₁ h₁)
    fun s₁ dp name h₁ hd hran => wp_do (wp_atomic.mpr ?_)
  refine h₁.wp_dirlookup he (by simp) hd (fun e s₂ hlook h₂ hview => wp_do ?_) fun hlook => wp_do ?_
  · -- the name exists
    refine At.wp_iunlockput h₂ he (.refl _) (.swap ..) fun s₃ h₃ _ => wp_do ?_
    refine At.wp_ilock h₃ he (by simp) (h₃.ref_pos (by simp)) fun s₄ h₄ _ _ => wp_do ?_
    rw [wp_atomic, h₄.toSits.wp_itype (by simp), wp_seq_ite]
    refine ⟨fun _ => hsome s₄ _ h₄, fun _ => wp_do ?_⟩
    exact At.wp_iunlockput h₄ he (.refl _) (.refl _) fun s₅ h₅ _ => hnone s₅ h₅
  · -- a new inode
    rw [wp_atomic]
    refine wp_ialloc h₁.good ht (fun n t hpos hlt hfree hg hf hview => ?_) he.limit
    have hne : n ≠ dp := by
      rintro rfl
      rw [hfree] at hd
      exact absurd hd (by decide)
    have h₂ := (h₁.toSits.frame hg hf).got n
    have hv₂ : (t.got n).view = update s₁.view n { File.free with type := type } :=
      (hg.got n).2.trans hview
    have hr₂ : (t.got n).ref = update s₁.ref n (s₁.ref n + 1) := by
      simp only [FileSys.got, hf.ref]
    have hlt : n < c.sb.ninodes := by rw [← h₁.sb]; exact hlt
    refine wp_do (Sits.wp_createFill (k := { k with fs := t.got n }) h₂ he hne (h₂.ref_pos (by simp))
      hv₂ ht hd hlook (fun s₃ htd h₃ hr₃ hv₃ => wp_do ?_) fun s₃ htd h₃ hr₃ hv₃ => wp_do ?_)
    · have hA : At c base out .none [n, dp] [n, dp] s₃ := by
        refine ⟨h₃, h₁.run.tail (hmkdir _ dp name n hran htd hlook) ?_⟩
        have hstep := @Names.Step.mkdir c.sb.ninodes (s₁.names .none) dp n name major minor rfl hd
          hlook hfree hpos hlt
        unfold FileSys.names at hstep ⊢
        rwa [hv₃, hr₃, hr₂]
      exact At.wp_iunlockput hA he (.swap ..) (.swap ..) fun s₄ h₄ _ => hsome s₄ n h₄
    · have hA : At c base out .none [n, dp] [n, dp] s₃ := by
        refine ⟨h₃, h₁.run.tail (hmkfile _ dp name n hran htd hlook) ?_⟩
        have hstep := @Names.Step.mkfile c.sb.ninodes (s₁.names .none) dp n name type major minor
          rfl hd hlook hfree hpos hlt ⟨ht, htd⟩
        unfold FileSys.names at hstep ⊢
        rwa [hv₃, hr₃, hr₂]
      exact At.wp_iunlockput hA he (.swap ..) (.swap ..) fun s₄ h₄ _ => hsome s₄ n h₄

/-! ## 5. Calls that create or only look -/

/-- What the condition must allow `create` to do. -/
structure MayCreate (c : Ctx) (k : Kern) (path : List UInt8) (type : Int) : Prop where
  mkdir : ∀ k' dp name n, (createParent c.p path).seq c.p k = .ok (some (dp, name), k') →
    type = T_DIR → (k'.fs.view dp).lookup name = none → c.G (k'.fs.names .none) (.mkdir dp name n)
  mkfile : ∀ k' dp name n, (createParent c.p path).seq c.p k = .ok (some (dp, name), k') →
    type ≠ T_DIR → (k'.fs.view dp).lookup name = none →
    c.G (k'.fs.names .none) (.mkfile dp name n)

/-- The kernel inside a transaction. -/
def Kern.begun (k : Kern) : Kern :=
  { k with fs := { k.fs with outstanding := k.fs.outstanding + 1 } }

theorem At.begun (h : At c base out pend L T k.fs) : At c base (out + 1) pend L T k.begun.fs := by
  have := h.setOut (out + 1) k.fs.lh
  rwa [← h.out] at this ⊢

theorem wp_begun {p : Pid} {Q : Unit → Kern → Prop} :
    wp ((atomic beginOp).seq p) Q E k ↔ Q () k.begun := by
  rw [wp_atomic]
  rfl

/-- **`sys_mkdir`, `sys_mknod`.** -/
theorem At.wp_sysCreate (h : At c base out .none [] [] k.fs) (he : Errs c E)
    (hcwd : CwdOk c base k) {path : Option (List UInt8)} {type major minor : Int} (ht : type ≠ 0)
    (hmay : ∀ path', path = some path' → MayCreate c k.begun path' type)
    {Q : Int → Kern → Prop}
    (hQ : ∀ s' r, At c base out .none [] [] s' → Q r { k with fs := s' }) :
    wp ((sysCreate c.p path type major minor).seq c.p) Q E k := by
  refine wp_do (wp_begun.mpr ?_)
  cases path with
  | none => exact wp_do (h.begun.wp_endOp fun s₂ h₂ _ => hQ s₂ _ h₂)
  | some path =>
    refine wp_do (h.begun.wp_create he hcwd ht (hmay path rfl).mkdir (hmay path rfl).mkfile
      (fun s₂ h₂ => wp_do (At.wp_endOp h₂ fun s₃ h₃ _ => hQ s₃ _ h₃)) fun s₂ ip h₂ => wp_do ?_)
    exact At.wp_iunlockput h₂ he (.refl _) (.refl _) fun s₃ h₃ _ =>
      wp_do (At.wp_endOp h₃ fun s₄ h₄ _ => hQ s₄ _ h₄)

/-- The inode that `sys_open` opens. -/
theorem At.wp_openInode (h : At c base out .none [] [] k.fs) (he : Errs c E)
    (hcwd : CwdOk c base k) {path : List UInt8} {omode : Nat}
    (hmay : omode &&& O_CREATE ≠ 0 → MayCreate c k path T_FILE)
    {Q : Option Nat → Kern → Prop}
    (hnone : ∀ s', At c base out .none [] [] s' → Q none { k with fs := s' })
    (hsome : ∀ s' ip, At c base out .none [ip] [ip] s' → Q (some ip) { k with fs := s' }) :
    wp ((openInode c.p path omode).seq c.p) Q E k := by
  rw [openInode, wp_seq_ite]
  refine ⟨fun hc => ?_, fun _ => ?_⟩
  · exact h.wp_create he hcwd (by decide) (hmay hc).mkdir (hmay hc).mkfile hnone hsome
  refine wp_do (h.wp_namei he path hcwd hnone fun s₁ ip h₁ => wp_do ?_)
  refine At.wp_ilock h₁ he (by simp) (h₁.ref_pos (by simp)) fun s₂ h₂ _ _ => wp_do ?_
  rw [wp_atomic, h₂.toSits.wp_itype (by simp), wp_seq_ite]
  refine ⟨fun _ => wp_do ?_, fun _ => hsome s₂ ip h₂⟩
  exact At.wp_iunlockput h₂ he (.refl _) (.refl _) fun s₃ h₃ _ => hnone s₃ h₃

theorem At.wp_openFull (h : At c base (out + 1) .none [ip] [ip] k.fs) (he : Errs c E)
    {Q : Int → Kern → Prop}
    (hQ : ∀ s', At c base out .none [] [] s' → Q (-1) { k with fs := s' }) :
    wp ((openFull c.p ip).seq c.p) Q E k :=
  wp_do (h.wp_iunlockput he (.refl _) (.refl _) fun _ h₁ _ =>
    wp_do (At.wp_endOp h₁ fun s₂ h₂ _ => hQ s₂ h₂))

/-- The entries of the file table that are not in use are `FD_NONE`. -/
def Kern.FtableOk (k : Kern) : Prop := ∀ f, (k.ftable f).ref = 0 → (k.ftable f).type = .none

section

variable {Eₚ : Panic → Prop} {f : Nat}

theorem wp_filealloc {Q : Option Nat → Kern → Prop} (hnone : Q none k)
    (hsome : ∀ f, f < NFILE → (k.ftable f).ref = 0 →
      Q (some f) (k.setFile f ((k.ftable f).setRef 1))) : wp filealloc Q Eₚ k := by
  simp only [filealloc, wp_bind, wp_get]
  cases hf : (List.range NFILE).find? fun f => (k.ftable f).ref = 0 with
  | none => exact hnone
  | some f =>
    have h0 := List.find?_some hf
    exact hsome f (List.mem_range.mp (List.mem_of_find?_eq_some hf)) (by simpa using h0)

theorem wp_fdalloc {p : Pid} {Q : Option Nat → Kern → Prop} (hnone : Q none k)
    (hsome : ∀ fd, fd < NOFILE → (k.proc p).ofile fd = none →
      Q (some fd) (k.setProc p ((k.proc p).setFd fd (some f)))) : wp (fdalloc p f) Q Eₚ k := by
  simp only [fdalloc, wp_bind, wp_get]
  cases hf : (List.range NOFILE).find? fun fd => (k.proc p).ofile fd = none with
  | none => exact hnone
  | some fd =>
    have h0 := List.find?_some hf
    exact hsome fd (List.mem_range.mp (List.mem_of_find?_eq_some hf)) (by simpa using h0)

theorem wp_filecloseRef {Q : Option OFile → Kern → Prop}
    (hbad : (k.ftable f).ref = 0 → Eₚ .fileclose)
    (hmore : 1 < (k.ftable f).ref →
      Q none (k.setFile f ((k.ftable f).setRef ((k.ftable f).ref - 1))))
    (hlast : (k.ftable f).ref = 1 → Q (some (k.ftable f)) (k.setFile f (k.ftable f).closed)) :
    wp (filecloseRef f) Q Eₚ k := by
  simp only [filecloseRef, wp_bind, wp_get, wp_ite, wp_throw, wp_set, wp_pure]
  exact ⟨fun h0 => hbad (by omega), fun h1 => ⟨fun h2 => hmore (by omega), fun h2 => hlast (by omega)⟩⟩

end

/-- `sys_open` from the inode on: a file in the file table keeps the reference, or everything is
given back. -/
theorem At.wp_openFile (h : At c base (out + 1) .none [ip] [ip] k.fs) (he : Errs c E)
    (hft : k.FtableOk) {omode : Nat} {Q : Int → Kern → Prop}
    (hfail : ∀ s', At c base out .none [] [] s' → Q (-1) { k with fs := s' })
    (hok : ∀ s' f fd, At c base out .none [] [ip] s' → f < NFILE → (k.ftable f).ref = 0 →
      fd < NOFILE → (k.proc c.p).ofile fd = none →
      Q fd { fs := s'
             ftable := update k.ftable f (((k.ftable f).setRef 1).opened ip omode)
             proc := update k.proc c.p ((k.proc c.p).setFd fd (some f)) }) :
    wp ((openFile c.p ip omode).seq c.p) Q E k := by
  refine wp_do ((wp_seq_lift _).mpr (wp_filealloc (h.wp_openFull he hfail) fun f hlt h0 => ?_))
  refine wp_do ((wp_seq_lift _).mpr (wp_fdalloc ?_ fun fd hfd hnone => wp_do ?_))
  · -- no descriptor: the file is closed again
    have hfile : ((k.ftable f).setRef 1).closed = k.ftable f := by
      have := hft f h0
      cases hk : k.ftable f
      simp_all [OFile.closed, OFile.setRef]
    have hback : (k.setFile f ((k.ftable f).setRef 1)).setFile f
        ((k.setFile f ((k.ftable f).setRef 1)).ftable f).closed = k := by
      simp only [Kern.setFile, update_self, update_idem, hfile, update_eq_self]
    have hself : (k.setFile f ((k.ftable f).setRef 1)).ftable f = (k.ftable f).setRef 1 := by
      simp [Kern.setFile]
    refine wp_do (wp_do ((wp_seq_lift _).mpr (wp_filecloseRef (fun hc => ?_) (fun hc => ?_) fun _ => ?_)))
    · rw [hself] at hc
      cases hc
    · rw [hself] at hc
      exact absurd hc (Nat.lt_irrefl 1)
    · rw [hback, hself]
      simp only [wp_seq_ite]
      refine ⟨fun hc => ?_, fun _ => h.wp_openFull he hfail⟩
      rw [show ((k.ftable f).setRef 1).type = (k.ftable f).type from rfl, hft f h0] at hc
      cases hc
  · refine At.wp_iunlock (k := Kern.setProc (k.setFile f _) c.p _) h (.refl _)
      fun s₁ h₁ _ => wp_do ?_
    refine At.wp_endOp (k := { Kern.setProc (k.setFile f _) c.p _ with fs := s₁ }) h₁
      fun s₂ h₂ _ => wp_do ((wp_seq_lift _).mpr ?_)
    simp only [openInit, wp_modify, pure_eq_ret, wp_seq_ret]
    have := hok s₂ f fd h₂ hlt h0 hfd hnone
    simpa only [Kern.setFile, Kern.setProc, update_self, update_idem] using this

/-- **`sys_open`.** -/
theorem At.wp_sysOpen (h : At c base out .none [] [] k.fs) (he : Errs c E) (hcwd : CwdOk c base k)
    (hft : k.FtableOk) {path : List UInt8} {omode : Nat}
    (hmay : omode &&& O_CREATE ≠ 0 → MayCreate c k.begun path T_FILE) {Q : Int → Kern → Prop}
    (hfail : ∀ s', At c base out .none [] [] s' → Q (-1) { k with fs := s' })
    (hok : ∀ s' ip f fd, At c base out .none [] [ip] s' → f < NFILE → (k.ftable f).ref = 0 →
      fd < NOFILE → (k.proc c.p).ofile fd = none →
      Q fd { fs := s'
             ftable := update k.ftable f (((k.ftable f).setRef 1).opened ip omode)
             proc := update k.proc c.p ((k.proc c.p).setFd fd (some f)) }) :
    wp ((sysOpen c.p (some (path, omode))).seq c.p) Q E k := by
  refine wp_do (wp_begun.mpr (wp_do ?_))
  refine h.begun.wp_openInode he hcwd hmay
    (fun s₁ h₁ => wp_do (At.wp_endOp h₁ fun s₂ h₂ _ => hfail s₂ h₂)) fun s₁ ip h₁ => ?_
  exact At.wp_openFile (k := { k with fs := s₁ }) h₁ he hft hfail fun s₂ f fd => hok s₂ ip f fd

/-- A reference that was there becomes one of the call's. -/
theorem At.rebase (h : At c base out pend L T s) {i : Nat} (hi : 0 < base i) :
    At c (update base i (base i - 1)) out pend L (i :: T) s :=
  { h with
    ref := fun j => by
      have := h.ref j
      rw [update_apply, List.count_cons]
      rcases eq_or_ne j i with rfl | hne
      · simp only [if_true, beq_self_eq_true]
        omega
      · rw [if_neg hne, if_neg (by simpa using Ne.symm hne)]
        omega }

theorem At.wp_chdirInode (h : At c base out .none [] [] k.fs) (he : Errs c E)
    (hcwd : CwdOk c base k) (path : List UInt8) {Q : Option Nat → Kern → Prop}
    (hnone : ∀ s', At c base out .none [] [] s' → Q none { k with fs := s' })
    (hsome : ∀ s' ip, At c base out .none [] [ip] s' → Q (some ip) { k with fs := s' }) :
    wp ((chdirInode c.p path).seq c.p) Q E k := by
  refine wp_do (h.wp_namei he path hcwd hnone fun s₁ ip h₁ => wp_do ?_)
  refine At.wp_ilock h₁ he (by simp) (h₁.ref_pos (by simp)) fun s₂ h₂ _ _ => wp_do ?_
  rw [wp_atomic, h₂.toSits.wp_itype (by simp), wp_seq_ite]
  refine ⟨fun _ => wp_do ?_, fun _ => wp_do ?_⟩
  · exact At.wp_iunlockput h₂ he (.refl _) (.refl _) fun s₃ h₃ _ => hnone s₃ h₃
  · exact At.wp_iunlock h₂ (.refl _) fun s₃ h₃ _ => hsome s₃ ip h₃

/-- `iput(curproc->cwd)`. -/
theorem At.wp_iputCwd (h : At c base out .none [] T k.fs) (he : Errs c E)
    (hpos : 0 < base (k.cwd c.p)) {Q : Unit → Kern → Prop}
    (hQ : ∀ s', At c (update base (k.cwd c.p) (base (k.cwd c.p) - 1)) out .none [] T s' →
      Q () { k with fs := s' }) : wp ((iputCwd c.p).seq c.p) Q E k := by
  simp only [iputCwd, bind_eq_bind, wp_seq_bind, wp_seq_lift, getCwd, wp_bind, wp_get, wp_pure]
  exact (h.rebase hpos).wp_iput he (by simp) (.refl _) fun s' hs _ => hQ s' hs

/-- **`sys_chdir`.** -/
theorem At.wp_sysChdir (h : At c base out .none [] [] k.fs) (he : Errs c E)
    (hcwd : CwdOk c base k) (hpos : 0 < base (k.cwd c.p)) (path : List UInt8)
    {Q : Int → Kern → Prop}
    (hfail : ∀ s', At c base out .none [] [] s' → Q (-1) { k with fs := s' })
    (hok : ∀ s' ip,
      At c (update base (k.cwd c.p) (base (k.cwd c.p) - 1)) out .none [] [ip] s' →
      Q 0 ({ k with fs := s' }.setProc c.p ((k.proc c.p).setCwd (some ip)))) :
    wp ((sysChdir c.p (some path)).seq c.p) Q E k := by
  refine wp_do (wp_begun.mpr (wp_do ?_))
  refine h.begun.wp_chdirInode he hcwd path
    (fun s₁ h₁ => wp_do (At.wp_endOp h₁ fun s₂ h₂ _ => hfail s₂ h₂)) fun s₁ ip h₁ => wp_do ?_
  refine At.wp_iputCwd (k := { k with fs := s₁ }) h₁ he hpos fun s₂ h₂ => wp_do ?_
  refine At.wp_endOp (k := { k with fs := s₂ }) h₂ fun s₃ h₃ _ => wp_do ((wp_seq_lift _).mpr ?_)
  exact hok s₃ ip h₃

/-! ## 6. `exec` -/

section

variable {Eₚ : Panic → Prop}

theorem wp_readExactly (h : Good s) (hv : s.valid ip = true) {off n : Nat}
    {Q : Option (List UInt8) → FileSys → Prop} (hQ : ∀ r, Q r s) :
    wp (readExactly ip off n) Q Eₚ s := by
  rw [readExactly, wp_bind]
  refine wp_readi_same h hv fun r => ?_
  cases r with
  | none => exact hQ none
  | some bytes => exact hQ _

theorem wp_loaduvm (h : Good s) (hv : s.valid ip = true) {Q : Bool → FileSys → Prop}
    (hQ : ∀ r, Q r s) : ∀ fuel off sz, wp (loaduvm ip fuel off sz) Q Eₚ s
  | 0, _, _ => hQ true
  | fuel + 1, off, sz => by
    rw [loaduvm, wp_ite]
    refine ⟨fun _ => hQ true, fun _ => ?_⟩
    rw [wp_bind]
    refine wp_readExactly h hv fun r => ?_
    cases r with
    | none => exact hQ false
    | some _ => exact wp_loaduvm h hv hQ fuel _ _

theorem wp_execSegment (h : Good s) (hv : s.valid ip = true) {mem : ExecMem} {phoff i : Nat}
    {Q : Bool → FileSys → Prop} (hQ : ∀ r, Q r s) :
    wp (execSegment ip mem phoff i) Q Eₚ s := by
  rw [execSegment, wp_bind]
  refine wp_readExactly h hv fun r => ?_
  cases r with
  | none => exact hQ false
  | some ph =>
    simp only [wp_ite, wp_pure]
    exact ⟨fun _ => hQ _, fun _ => ⟨fun _ => hQ _, fun _ => ⟨fun _ => hQ _, fun _ =>
      ⟨fun _ => hQ _, fun _ => ⟨fun _ => hQ _, fun _ => wp_loaduvm h hv hQ _ _ _⟩⟩⟩⟩⟩

theorem wp_execSegments (h : Good s) (hv : s.valid ip = true) {mem : ExecMem} {phoff : Nat}
    {Q : Bool → FileSys → Prop} (hQ : ∀ r, Q r s) :
    ∀ n i, wp (execSegments ip mem phoff n i) Q Eₚ s
  | 0, _ => hQ true
  | n + 1, i => by
    rw [execSegments, wp_bind]
    refine wp_execSegment h hv fun r => ?_
    cases r with
    | false => exact hQ false
    | true => exact wp_execSegments h hv hQ n _

/-- Loading a program only reads. -/
theorem wp_execLoad (h : Good s) (hv : s.valid ip = true) {mem : ExecMem}
    {Q : Bool → FileSys → Prop} (hQ : ∀ r, Q r s) : wp (execLoad ip mem) Q Eₚ s := by
  rw [execLoad, wp_bind]
  refine wp_readExactly h hv fun r => ?_
  cases r with
  | none => exact hQ false
  | some elf =>
    simp only [wp_ite, wp_pure]
    exact ⟨fun _ => hQ _, fun _ => ⟨fun _ => hQ _, fun _ => wp_execSegments h hv hQ _ _⟩⟩

end

/-- **`exec`.** -/
theorem At.wp_exec (h : At c base out .none [] [] k.fs) (he : Errs c E) (hcwd : CwdOk c base k)
    (path : List UInt8) (mem : ExecMem) {Q : Int → Kern → Prop}
    (hQ : ∀ s' r, At c base out .none [] [] s' → Q r { k with fs := s' }) :
    wp ((exec c.p path mem).seq c.p) Q E k := by
  refine wp_do (wp_begun.mpr (wp_do ?_))
  refine h.begun.wp_namei he path hcwd
    (fun s₁ h₁ => wp_do (At.wp_endOp h₁ fun s₂ h₂ _ => hQ s₂ _ h₂)) fun s₁ ip h₁ => wp_do ?_
  refine At.wp_ilock h₁ he (by simp) (h₁.ref_pos (by simp)) fun s₂ h₂ _ _ => wp_do (wp_atomic.mpr ?_)
  refine wp_execLoad h₂.good (h₂.valid ip (by simp)) fun ok => wp_do ?_
  exact At.wp_iunlockput h₂ he (.refl _) (.refl _) fun s₃ h₃ _ =>
    wp_do (At.wp_endOp h₃ fun s₄ h₄ _ => hQ s₄ _ h₄)

end

end Xv6.Fs
