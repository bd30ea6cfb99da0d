/-
# What a running call holds

A system call that runs alone is described by what it has in its hands: the locks it holds
(`L`), the references it has taken on top of those that were there (`T`, over `base`), and how
many operations are outstanding.  `Sits` says so of a state, and that the state is good.  `At`
adds that the naming layer has come here by a run of its actions.

Each function of the path code has one lemma: from `Sits` or `At` before it to `At` after it,
with what it did to the files.
-/
import Xv6.Fs.Names

namespace Xv6.Fs

open Function (update update_apply update_eq_self update_eq_self_iff update_idem update_of_ne)
open Prog (bind_eq_bind pure_eq_ret wp_seq_bind wp_seq_ite wp_seq_lift wp_seq_lock_free wp_seq_lock_held wp_seq_ret)

/-! ## 1. Locks, references, and the run so far -/

/-- What does not change during a call. -/
structure Ctx where
  /-- The process. -/
  p : Pid
  sb : Superblock
  /-- The condition on the actions. -/
  G : Names → Act → Prop
  lax : Names.Lax G
  /-- The naming layer at the start. -/
  start : Names

/-- What is on disk: the inodes, the bitmap and the blocks. -/
def FileSys.disk (s : FileSys) : (Nat → Dinode) × (Nat → Bool) × (Nat → Bytes) :=
  (s.dinode, s.bitmap, s.data)

/-- The call holds the locks `L` and has taken the references `T`. -/
structure Sits (c : Ctx) (base : Nat → Nat) (out : Nat) (L T : List Nat) (s : FileSys) : Prop where
  good : Good s
  sb : s.sb = c.sb
  lock : ∀ i, s.lock i = if i ∈ L then some c.p else none
  nodup : L.Nodup
  valid : ∀ i ∈ L, s.valid i = true
  held : ∀ i ∈ L, 0 < s.ref i
  ref : ∀ i, s.ref i = base i + T.count i
  out : s.outstanding = out

/-- The naming layer of a state. -/
def FileSys.names (s : FileSys) (pend : Pend) : Names := ⟨s.view, s.ref, pend⟩

/-- The call holds `L` and `T`, and has come here by a run of permitted actions. -/
structure At (c : Ctx) (base : Nat → Nat) (out : Nat) (pend : Pend) (L T : List Nat)
    (s : FileSys) : Prop extends Sits c base out L T s where
  run : Names.Run c.sb.ninodes c.G c.start (s.names pend)

/-- A panic that tells of a directory that is not well formed, or is full. -/
def Panic.isCorrupt : Panic → Bool
  | .dirlookupRead | .dirlinkRead | .dirlink | .isdirempty | .unlinkNlink | .unlinkWritei => true
  | _ => false

/-- The panics that a call may stop in.  The panic `ilock: no type` needs a referenced inode
that is free. -/
structure Errs (c : Ctx) (E : Stop Panic Want → Prop) : Prop where
  limit : ∀ e, Limit e → E (.panic e)
  corrupt : ∀ e, e.isCorrupt = true → E (.panic e)
  noType : ∀ n i, Names.Run c.sb.ninodes c.G c.start n → 0 < n.ref i → (n.view i).type = 0 →
    E (.panic .noType)

@[simp] theorem grab_eq (k : Kern) (w : Want) (p : Pid) :
    Locking.grab k w p = { k with fs := k.fs.setLock w.ip (some p) } := rfl

@[simp] theorem setLock_valid (s : FileSys) (i : Nat) (o : Option Pid) :
    (s.setLock i o).valid = s.valid := rfl

@[simp] theorem setLock_inode (s : FileSys) (i : Nat) (o : Option Pid) :
    (s.setLock i o).inode = s.inode := rfl

@[simp] theorem setLock_ref (s : FileSys) (i : Nat) (o : Option Pid) :
    (s.setLock i o).ref = s.ref := rfl

@[simp] theorem wp_atomic {α : Type} {m : FsM α} {p : Pid} {Q : α → Kern → Prop}
    {E : Stop Panic Want → Prop} {k : Kern} :
    wp ((atomic m).seq p) Q E k ↔
      wp m (fun a s => Q a { k with fs := s }) (fun e => E (.panic e)) k.fs := by
  rw [atomic, wp_seq_lift, wp_onFs]

/-- `ilock` loads an allocated inode. -/
theorem wp_ilockRead {s : FileSys} {ip : Nat} {Q : Unit → FileSys → Prop} {E : Panic → Prop}
    (ha : Alloc s ip) (hQ : Q () (s.loaded ip)) : wp (ilockRead ip) Q E s := by
  simp only [ilockRead, wp_bind, wp_get, wp_ite, wp_throw, wp_set, wp_pure]
  refine ⟨fun hv => ⟨fun hlt => absurd ha.1 (Nat.not_lt.mpr hlt), fun _ => ⟨fun h0 => ?_,
    fun _ => ?_⟩⟩, fun hv => ?_⟩
  · exact absurd h0 (cur_of_not_valid hv ▸ ha.2)
  · rwa [FileSys.loaded, if_neg (by simpa using hv)] at hQ
  · rwa [FileSys.loaded, if_pos (by simpa using hv)] at hQ

section

variable {p : Pid} {k : Kern} {ip : Nat} {Q : Unit → Kern → Prop} {E : Stop Panic Want → Prop}

/-- `ilock` of an allocated inode that nobody has locked. -/
theorem wp_ilock_loaded (hl : k.fs.lock ip = none) (hr : 0 < k.fs.ref ip) (ha : Alloc k.fs ip)
    (hQ : Q () { k with fs := (k.fs.setLock ip (some p)).loaded ip }) :
    wp ((ilock ip).seq p) Q E k := by
  have hfree : Locking.holder k (⟨.ilock, ip⟩ : Want) = none := hl
  simp only [ilock, bind_eq_bind, wp_seq_bind, wp_atomic, wp_bind, wp_get, wp_ite,
    wp_throw, wp_pure, wp_seq_lock_free hfree]
  exact ⟨fun hc => absurd hr (by omega), fun _ => wp_ilockRead ha hQ⟩

/-- `iunlock` by the holder. -/
theorem wp_iunlock_release (hl : k.fs.lock ip = some p) (hr : 0 < k.fs.ref ip)
    (hQ : Q () { k with fs := k.fs.setLock ip none }) : wp ((iunlock p ip).seq p) Q E k := by
  simp only [iunlock, wp_atomic, wp_bind, wp_get, wp_ite, wp_throw, releasesleep, wp_modify]
  exact ⟨fun hc => hc.elim (absurd hl) fun h0 => absurd hr (by omega), fun _ => hQ⟩

/-- `iput` of a reference that is not the last one, or of a file that has links. -/
theorem wp_iput_kept (hl : k.fs.lock ip = none)
    (hn : ¬ (k.fs.valid ip = true ∧ (k.fs.inode ip).nlink = 0 ∧ k.fs.ref ip = 1))
    (hQ : Q () { k with fs := k.fs.dropped ip }) : wp ((iput ip).seq p) Q E k := by
  have hfree : Locking.holder k (⟨.iput, ip⟩ : Want) = none := hl
  have hrel : (k.fs.setLock ip (some p)).setLock ip none = k.fs := by
    simp only [FileSys.setLock, update_idem, ← hl, update_eq_self]
  simp only [iput, bind_eq_bind, wp_seq_bind, wp_seq_lock_free hfree, wp_atomic,
    iputTest, wp_bind, wp_get, wp_ite, wp_pure, grab_eq, setLock_valid, setLock_inode]
  refine ⟨fun hc => ?_, fun _ => ?_⟩
  · rw [wp_seq_ite]
    refine ⟨fun h1 => absurd ⟨hc.1, hc.2, Option.some.inj h1⟩ hn, fun _ => ?_⟩
    simp only [wp_seq_bind, wp_atomic, releasesleep, iputRef, wp_modify, hrel]
    exact hQ
  · simp only [reduceCtorEq, if_false, wp_seq_bind, wp_atomic, releasesleep, iputRef,
      wp_modify, hrel]
    exact hQ

/-- `iput` of a file that has links. -/
theorem wp_iput_linked (hl : k.fs.lock ip = none)
    (hn : ¬ (k.fs.valid ip = true ∧ (k.fs.inode ip).nlink = 0))
    (hQ : Q () { k with fs := k.fs.dropped ip }) : wp ((iput ip).seq p) Q E k :=
  wp_iput_kept hl (fun hc => hn ⟨hc.1, hc.2.1⟩) hQ

end

section

variable {c : Ctx} {base : Nat → Nat} {out : Nat} {pend : Pend} {L L' T T' : List Nat}
  {s s' : FileSys} {k : Kern} {E : Stop Panic Want → Prop} {ip : Nat} {Q : Unit → Kern → Prop}

/-! ## 2. Taking and giving back -/

/-- A change of files. -/
theorem Sits.frame (h : Sits c base out L T s) (hg : Good s') (hf : Frame s s') :
    Sits c base out L T s' where
  good := hg
  sb := hf.sb.trans h.sb
  lock i := by rw [hf.lock, h.lock]
  nodup := h.nodup
  valid i hi := by rw [hf.valid, h.valid i hi]
  held i hi := by rw [hf.ref]; exact h.held i hi
  ref i := by rw [hf.ref, h.ref]
  out := by rw [hf.outstanding, h.out]

theorem Sits.updated (h : Sits c base out L T s) {f : File} (hu : Updated s s' ip f) :
    Sits c base out L T s' := h.frame hu.good hu.frame

/-- A reference is taken. -/
theorem Sits.got (h : Sits c base out L T s) (i : Nat) :
    Sits c base out L (i :: T) (s.got i) where
  good := (h.good.got i).1
  sb := h.sb
  lock := h.lock
  nodup := h.nodup
  valid j hj := by
    have hv := h.valid j hj
    have hr := h.held j hj
    show (if s.ref i = 0 then update s.valid i false else s.valid) j = true
    by_cases h0 : s.ref i = 0
    · have hne : j ≠ i := by
        rintro rfl
        omega
      rwa [if_pos h0, update_of_ne hne]
    · rwa [if_neg h0]
  held j hj := by
    have hr := h.held j hj
    simp only [FileSys.got, update_apply]
    split
    · omega
    · exact hr
  ref j := by
    have := h.ref j
    simp only [FileSys.got, update_apply, List.count_cons, beq_iff_eq]
    by_cases e : j = i
    · subst e
      simp only [if_true]
      omega
    · rw [if_neg e, if_neg (Ne.symm e)]
      omega
  out := h.out

/-- The order of the references does not matter. -/
theorem Sits.perm (h : Sits c base out L T s) (hT : T.Perm T') : Sits c base out L T' s :=
  { h with ref := fun i => by rw [h.ref, hT.count_eq] }

theorem Sits.ref_pos (h : Sits c base out L T s) (hi : ip ∈ T) : 0 < s.ref ip := by
  have := h.ref ip
  have := List.count_pos_iff.mpr hi
  omega

theorem Sits.unlocked (h : Sits c base out [] T s) (i : Nat) : s.lock i = none := by
  rw [h.lock, if_neg (by simp)]

/-- The state after `acquiresleep` of a free lock. -/
theorem Sits.grab (h : Sits c base out L T s) (hr : 0 < s.ref ip) (hL : ip ∉ L)
    (hv : s.valid ip = true) : Sits c base out (ip :: L) T (s.setLock ip (some c.p)) where
  good := (h.good.setLock ip _).1
  sb := h.sb
  lock i := by
    simp only [FileSys.setLock, update_apply, List.mem_cons, h.lock]
    by_cases e : i = ip
    · simp [e]
    · simp [e]
  nodup := List.nodup_cons.mpr ⟨hL, h.nodup⟩
  valid i hi := by
    rcases List.mem_cons.mp hi with rfl | hi
    · exact hv
    · exact h.valid i hi
  held i hi := by
    rcases List.mem_cons.mp hi with rfl | hi
    · exact hr
    · exact h.held i hi
  ref := h.ref
  out := h.out

/-- The state after `releasesleep`. -/
theorem Sits.release (h : Sits c base out L T s) (hL : L.Perm (ip :: L')) :
    Sits c base out L' T (s.setLock ip none) where
  good := (h.good.setLock ip _).1
  sb := h.sb
  lock i := by
    have hnd := (List.nodup_cons.mp (hL.nodup_iff.mp h.nodup)).1
    simp only [FileSys.setLock, update_apply, h.lock, hL.mem_iff, List.mem_cons]
    by_cases e : i = ip
    · subst e
      simp [hnd]
    · simp [e]
  nodup := (List.nodup_cons.mp (hL.nodup_iff.mp h.nodup)).2
  valid i hi := h.valid i (hL.mem_iff.mpr (List.mem_cons_of_mem _ hi))
  held i hi := h.held i (hL.mem_iff.mpr (List.mem_cons_of_mem _ hi))
  ref := h.ref
  out := h.out

/-- A reference to an inode that is not locked is given back. -/
theorem Sits.dropped (h : Sits c base out L T s) (hL : ip ∉ L) (hT : T.Perm (ip :: T')) :
    Sits c base out L T' (s.dropped ip) where
  good := (h.good.dropped ip).1
  sb := h.sb
  lock := h.lock
  nodup := h.nodup
  valid := h.valid
  held i hi := by
    have hne : i ≠ ip := by
      rintro rfl
      exact hL hi
    simp only [FileSys.dropped, update_of_ne hne]
    exact h.held i hi
  ref i := by
    have := (h.perm hT).ref i
    simp only [FileSys.dropped, update_apply]
    by_cases e : i = ip
    · subst e
      rw [List.count_cons_self] at this
      rw [if_pos rfl]
      omega
    · rw [List.count_cons_of_ne (Ne.symm e)] at this
      rwa [if_neg e]
  out := h.out

/-- `ilock` of an inode that the call does not hold. -/
theorem Sits.wp_ilock (h : Sits c base out L T k.fs) (hL : ip ∉ L) (hr : 0 < k.fs.ref ip)
    (hQ : ∀ s', Sits c base out (ip :: L) T s' → s'.view = k.fs.view → s'.ref = k.fs.ref →
      s'.disk = k.fs.disk → (k.fs.view ip).type ≠ 0 → Q () { k with fs := s' })
    (hnt : (k.fs.view ip).type = 0 → E (.panic .noType)) (hrange : E (.panic .inodeRange)) :
    wp ((ilock ip).seq c.p) Q E k := by
  have hfree : Locking.holder k (⟨.ilock, ip⟩ : Want) = none := by
    show k.fs.lock ip = none
    rw [h.lock, if_neg hL]
  simp only [ilock, bind_eq_bind, wp_seq_bind, wp_atomic, wp_bind, wp_get, wp_ite,
    wp_throw, wp_pure, wp_seq_lock_free hfree]
  refine ⟨fun hc => absurd hr (by omega), fun _ => ?_⟩
  show wp (ilockRead ip) _ _ (k.fs.setLock ip (some c.p))
  have hg := h.good.setLock ip (some c.p)
  set s₁ := k.fs.setLock ip (some c.p) with hs₁
  simp only [ilockRead, wp_bind, wp_get, wp_ite, wp_throw, wp_set, wp_pure]
  refine ⟨fun hv => ⟨fun _ => hrange, fun hlt => ?_⟩, fun hv => ?_⟩
  · have hcur : s₁.cur ip = s₁.dinode ip := cur_of_not_valid hv
    refine ⟨fun h0 => hnt ?_, fun h0 => ?_⟩
    · rw [← hg.2]
      by_contra hne
      exact (alloc_iff_view.mpr hne).2 (by rw [hcur, h0])
    · have ha : Alloc s₁ ip := ⟨by omega, by rw [hcur]; exact h0⟩
      have hl := hg.1.loaded ha
      have hload : s₁.loaded ip = { s₁ with
          inode := update s₁.inode ip (s₁.dinode ip)
          valid := update s₁.valid ip true } := by
        unfold FileSys.loaded
        rw [if_neg (by simpa using hv)]
      rw [← hload]
      refine hQ _ ?_ (hl.2.trans hg.2) (by simp [hs₁, FileSys.setLock]) (by rw [hload]; rfl) ?_
      · have hs : Sits c base out L T (k.fs.loaded ip) := by
          have hv' : k.fs.valid ip = false := hv
          have := h.good.loaded (i := ip) (by rwa [alloc_iff_view, ← hg.2, ← alloc_iff_view])
          exact {
            good := this.1
            sb := by simp [h.sb]
            lock := by simpa using h.lock
            nodup := h.nodup
            valid := fun i hi => by
              by_cases e : i = ip
              · rw [e, loaded_valid_self]
              · rw [loaded_valid_of_ne e, h.valid i hi]
            held := by simpa using h.held
            ref := by simpa using h.ref
            out := by simp [h.out] }
        have hcomm : s₁.loaded ip = (k.fs.loaded ip).setLock ip (some c.p) := by
          rw [hload]
          unfold FileSys.loaded
          rw [if_neg (show ¬ k.fs.valid ip = true by simpa [hs₁] using hv)]
          rfl
        rw [hcomm]
        exact hs.grab (by simpa using hr) hL loaded_valid_self
      · rw [← hg.2]
        exact alloc_iff_view.mp ha
  · have hv' : k.fs.valid ip = true := by simpa [hs₁] using hv
    exact hQ s₁ (h.grab hr hL hv') hg.2 rfl rfl (alloc_iff_view.mp (h.good.coherent.alloc hv'))

/-- `ilock` of an inode that the call holds. -/
theorem Sits.wp_ilock_held (h : Sits c base out L T k.fs) (hL : ip ∈ L)
    (hE : E (.stuck ⟨.ilock, ip⟩)) : wp ((ilock ip).seq c.p) Q E k := by
  have hheld : Locking.holder k (⟨.ilock, ip⟩ : Want) = some c.p := by
    show k.fs.lock ip = some c.p
    rw [h.lock, if_pos hL]
  have hr := h.held ip hL
  simp only [ilock, bind_eq_bind, wp_seq_bind, wp_atomic, wp_bind, wp_get, wp_ite,
    wp_throw, wp_pure, wp_seq_lock_held hheld]
  exact ⟨fun hc => absurd hr (by omega), fun _ => hE⟩

/-- `iunlock`. -/
theorem Sits.wp_iunlock (h : Sits c base out L T k.fs) (hL : L.Perm (ip :: L'))
    (hQ : ∀ s', Sits c base out L' T s' → s'.view = k.fs.view → s'.ref = k.fs.ref →
      s'.disk = k.fs.disk → Q () { k with fs := s' }) :
    wp ((iunlock c.p ip).seq c.p) Q E k := by
  have hmem : ip ∈ L := hL.mem_iff.mpr List.mem_cons_self
  have hr := h.held ip hmem
  have hl : k.fs.lock ip = some c.p := by rw [h.lock, if_pos hmem]
  simp only [iunlock, wp_atomic, wp_bind, wp_get, wp_ite, wp_throw, releasesleep, wp_modify]
  refine ⟨fun hc => ?_, fun _ => hQ _ (h.release hL) (h.good.setLock ip none).2 rfl rfl⟩
  rcases hc with hc | hc
  · exact absurd hl hc
  · omega

/-- `iput` of an inode that the call does not hold: its last reference frees an inode without
links, if it is cached. -/
theorem Sits.wp_iput (h : Sits c base out L T k.fs) (hL : ip ∉ L) (hT : T.Perm (ip :: T'))
    (hkeep : ∀ s', Sits c base out L T' s' → s'.view = k.fs.view →
      s'.ref = update k.fs.ref ip (k.fs.ref ip - 1) → s'.disk = k.fs.disk →
      Q () { k with fs := s' })
    (hfree : ∀ s', Sits c base out L T' s' →
      s'.view = update k.fs.view ip File.free →
      s'.ref = update k.fs.ref ip (k.fs.ref ip - 1) → k.fs.ref ip = 1 →
      (k.fs.view ip).nlink = 0 → (k.fs.view ip).type ≠ 0 → Q () { k with fs := s' })
    (hE : ∀ e, Limit e → E (.panic e)) : wp ((iput ip).seq c.p) Q E k := by
  have hholder : Locking.holder k (⟨.iput, ip⟩ : Want) = none := by
    show k.fs.lock ip = none
    rw [h.lock, if_neg hL]
  have hback : ∀ t : FileSys, Sits c base out L T t →
      (t.setLock ip (some c.p)).setLock ip none = t := fun t ht => by
    simp only [FileSys.setLock, update_idem]
    have : update t.lock ip none = t.lock := by
      rw [update_eq_self_iff, ht.lock, if_neg hL]
    rw [this]
  -- what follows when the inode is not freed
  have hstay : wp (Prog.seq c.p do atomic (releasesleep ip); atomic (iputRef ip)) Q E
      { k with fs := k.fs.setLock ip (some c.p) } := by
    simp only [bind_eq_bind, wp_seq_bind, wp_atomic, releasesleep, iputRef, wp_modify]
    rw [hback k.fs h]
    exact hkeep _ (h.dropped hL hT) (h.good.dropped ip).2 rfl rfl
  simp only [iput, bind_eq_bind, wp_seq_bind, wp_seq_lock_free hholder, wp_atomic,
    iputTest, wp_bind, wp_get, wp_ite, wp_pure, grab_eq, setLock_valid, setLock_inode, setLock_ref,
    wp_seq_ite, Option.some.injEq, reduceCtorEq, false_implies, not_false_eq_true,
    true_implies, true_and]
  refine ⟨fun hcond => ⟨fun href => ?_, fun _ => ?_⟩, fun _ => ?_⟩
  · -- the inode is freed
    have hnl : (k.fs.view ip).nlink = 0 := by
      rw [h.good.view_eq hcond.1]
      exact hcond.2
    have hg := h.good.setLock ip (some c.p)
    refine wp_ifree hg.1 hcond.1 (fun t hgt hview hvalid hsb href' hlock hused hout _ _ _ => ?_) hE
    have ht : Sits c base out L T (t.setLock ip none) := {
      good := (hgt.setLock ip none).1
      sb := hsb.trans h.sb
      lock := fun i => by
        have := congrFun hlock i
        simp only [FileSys.setLock, update_apply] at this ⊢
        by_cases e : i = ip
        · rw [if_pos e, e, if_neg hL]
        · rw [if_neg e, this, if_neg e, h.lock]
      nodup := h.nodup
      valid := fun i hi => by
        have hne : i ≠ ip := by
          rintro rfl
          exact hL hi
        show t.valid i = true
        rw [hvalid, update_of_ne hne]
        exact h.valid i hi
      held := fun i hi => by
        show 0 < t.ref i
        rw [href']
        exact h.held i hi
      ref := fun i => by
        show t.ref i = _
        rw [href']
        exact h.ref i
      out := hout.trans h.out }
    refine hfree ((t.setLock ip none).dropped ip) (ht.dropped hL hT) ?_ ?_ href hnl
      (alloc_iff_view.mp (h.good.coherent.alloc hcond.1))
    · rw [((hgt.setLock ip none).1.dropped ip).2, (hgt.setLock ip none).2, hview, hg.2]
    · simp only [FileSys.dropped, FileSys.setLock] at href' ⊢
      rw [href']
  · simpa only [bind_eq_bind, wp_seq_bind, wp_atomic] using hstay
  · simpa only [bind_eq_bind, wp_seq_bind, wp_atomic] using hstay

/-- `iput` of an inode that the call holds. -/
theorem Sits.wp_iput_held (h : Sits c base out L T k.fs) (hL : ip ∈ L)
    (hE : E (.stuck ⟨.iput, ip⟩)) : wp ((iput ip).seq c.p) Q E k := by
  have hheld : Locking.holder k (⟨.iput, ip⟩ : Want) = some c.p := by
    show k.fs.lock ip = some c.p
    rw [h.lock, if_pos hL]
  simpa only [iput, bind_eq_bind, wp_seq_bind, wp_seq_lock_held hheld] using hE

/-! ## 3. The same, with the run -/

theorem At.view_run (h : At c base out pend L T s) {s' : FileSys} (hview : s'.view = s.view)
    (href : s'.ref = s.ref) : Names.Run c.sb.ninodes c.G c.start (s'.names pend) := by
  have := h.run
  unfold FileSys.names at this ⊢
  rwa [hview, href]

theorem At.got (h : At c base out pend L T s) {i : Nat} (hG : c.G (s.names pend) (.get i)) :
    At c base out pend L (i :: T) (s.got i) where
  toSits := h.toSits.got i
  run := by
    have hstep := Names.Step.get (N := c.sb.ninodes) (s.names pend) i
    refine h.run.tail hG ?_
    unfold FileSys.names at hstep ⊢
    rwa [(h.good.got i).2]

theorem At.wp_ilock (h : At c base out pend L T k.fs) (he : Errs c E) (hL : ip ∉ L)
    (hr : 0 < k.fs.ref ip)
    (hQ : ∀ s', At c base out pend (ip :: L) T s' → s'.view = k.fs.view →
      (k.fs.view ip).type ≠ 0 → Q () { k with fs := s' }) : wp ((ilock ip).seq c.p) Q E k :=
  h.toSits.wp_ilock hL hr
    (fun s' hs hview href _ ht => hQ s' ⟨hs, h.view_run hview href⟩ hview ht)
    (fun h0 => he.noType _ ip h.run hr h0) (he.limit _ rfl)

theorem At.wp_iunlock (h : At c base out pend L T k.fs) (hL : L.Perm (ip :: L'))
    (hQ : ∀ s', At c base out pend L' T s' → s'.view = k.fs.view → Q () { k with fs := s' }) :
    wp ((iunlock c.p ip).seq c.p) Q E k :=
  h.toSits.wp_iunlock hL fun s' hs hview href _ => hQ s' ⟨hs, h.view_run hview href⟩ hview

/-- `iput` leaves the other files alone. -/
theorem At.wp_iput (h : At c base out pend L T k.fs) (he : Errs c E) (hL : ip ∉ L)
    (hT : T.Perm (ip :: T'))
    (hQ : ∀ s', At c base out pend L T' s' → (∀ j, j ≠ ip → s'.view j = k.fs.view j) →
      Q () { k with fs := s' }) : wp ((iput ip).seq c.p) Q E k := by
  have hpos : 0 < k.fs.ref ip := h.ref_pos (hT.mem_iff.mpr List.mem_cons_self)
  refine h.toSits.wp_iput hL hT (fun s' hs hview href _ => ?_)
    (fun s' hs hview href h1 hnl _ => ?_) he.limit
  · have hstep := Names.Step.drop (N := c.sb.ninodes) (n := k.fs.names pend) hpos
    refine hQ s' ⟨hs, h.run.tail (c.lax.drop _ ip) ?_⟩ fun j _ => by rw [hview]
    unfold FileSys.names at hstep ⊢
    rwa [hview, href]
  · have hstep := Names.Step.free (N := c.sb.ninodes) (n := k.fs.names pend) h1 hnl
    refine hQ s' ⟨hs, h.run.tail (c.lax.free _ ip) ?_⟩ fun j hj => by
      rw [hview, update_of_ne hj]
    unfold FileSys.names at hstep ⊢
    rw [hview, href, h1]
    exact hstep

theorem At.wp_iunlockput (h : At c base out pend L T k.fs) (he : Errs c E)
    (hL : L.Perm (ip :: L')) (hT : T.Perm (ip :: T'))
    (hQ : ∀ s', At c base out pend L' T' s' → (∀ j, j ≠ ip → s'.view j = k.fs.view j) →
      Q () { k with fs := s' }) : wp ((iunlockput c.p ip).seq c.p) Q E k := by
  have hnot : ip ∉ L' := (List.nodup_cons.mp (hL.nodup_iff.mp h.nodup)).1
  rw [iunlockput, bind_eq_bind, wp_seq_bind]
  refine h.wp_iunlock hL fun s' hs hview => ?_
  refine At.wp_iput hs he hnot hT fun s'' hs' hother => hQ s'' hs' fun j hj => ?_
  rw [hother j hj]
  exact congrFun hview j

/-- `ip->type`. -/
theorem Sits.wp_itype (h : Sits c base out L T s) (hL : ip ∈ L) {Q : Int → FileSys → Prop}
    {E : Panic → Prop} : wp (itype ip) Q E s ↔ Q (s.view ip).type s := by
  have : (s.view ip).type = (s.inode ip).type := by
    rw [h.good.view_eq (h.valid ip hL)]
    rfl
  rw [this]
  rfl

/-- `dirlookup` in a locked directory. -/
theorem At.wp_dirlookup (h : At c base out pend L T s) (he : Errs c E) {dp : Nat} (hL : dp ∈ L)
    (hdir : (s.view dp).type = T_DIR) {name : List UInt8}
    {Q : Option (Nat × Nat) → FileSys → Prop}
    (hfound : ∀ e s', (s.view dp).lookup name = some e →
      At c base out pend L (e.2.inum :: T) s' → s'.view = s.view → Q (some (e.2.inum, e.1)) s')
    (hnone : (s.view dp).lookup name = none → Q none s) :
    wp (dirlookup dp name) Q (fun e => E (.panic e)) s := by
  refine Fs.wp_dirlookup h.good (h.valid dp hL) (fun e _ hlook => ?_) (fun _ => hnone)
    (fun hc => absurd hdir hc) (fun _ _ => he.corrupt _ rfl) fun _ _ _ => he.limit _ rfl
  refine hfound e _ hlook (h.got (c.lax.get _ _ ?_)) (h.good.got _).2
  exact Or.inr (Or.inr ⟨dp, name, e, hdir, hlook, rfl⟩)

/-! ## 4. Paths -/

/-- The loop of `namex`: a reference to the inode that it started from becomes one to the inode
that it returns. -/
theorem At.wp_namexLoop (he : Errs c E) (parent : Bool) :
    ∀ (fuel ip : Nat) (path : List UInt8) (k : Kern), path.length < fuel →
      At c base out pend [] (ip :: T) k.fs →
      ∀ {Q : Option (Nat × List UInt8) → Kern → Prop},
      (∀ s', At c base out pend [] T s' → Q none { k with fs := s' }) →
      (∀ s' i name, At c base out pend [] (i :: T) s' →
        (parent = true → (s'.view i).type = T_DIR) → Q (some (i, name)) { k with fs := s' }) →
      wp ((namexLoop c.p parent fuel ip path).seq c.p) Q E k := by
  intro fuel
  induction fuel with
  | zero => exact fun _ _ _ hlt => absurd hlt (Nat.not_lt_zero _)
  | succ fuel ih =>
    intro ip path k hlt h Q hnone hsome
    simp only [namexLoop]
    cases hskip : skipelem path with
    | none =>
      -- the path ends here
      cases parent with
      | true =>
        simp only [if_true, bind_eq_bind, wp_seq_bind]
        exact h.wp_iput he (by simp) (List.Perm.refl _) fun s' hs _ => hnone s' hs
      | false => exact hsome k.fs ip [] h (by simp)
    | some elem =>
      obtain ⟨name, rest⟩ := elem
      have hrest := skipelem_length hskip
      simp only [bind_eq_bind, wp_seq_bind]
      refine h.wp_ilock he (by simp) (h.ref_pos (by simp)) fun s₁ h₁ _ _ => ?_
      rw [wp_atomic, h₁.toSits.wp_itype (by simp), wp_seq_ite]
      refine ⟨fun _ => ?_, fun hdir => ?_⟩
      · simp only [wp_seq_bind]
        exact At.wp_iunlockput h₁ he (List.Perm.refl _) (List.Perm.refl _)
          fun s' hs _ => hnone s' hs
      · have hdir : (s₁.view ip).type = T_DIR := not_not.mp hdir
        rw [wp_seq_ite]
        refine ⟨fun _ => ?_, fun _ => ?_⟩
        · -- one level early
          simp only [wp_seq_bind]
          refine At.wp_iunlock h₁ (List.Perm.refl _) fun s' hs hview => ?_
          exact hsome s' ip name hs fun _ => by rw [hview]; exact hdir
        · simp only [wp_seq_bind, wp_atomic]
          refine h₁.wp_dirlookup he (by simp) hdir (fun e s₂ _ h₂ _ => ?_) fun _ => ?_
          · -- on to the next element
            simp only [wp_seq_bind]
            exact At.wp_iunlockput h₂ he (List.Perm.refl _) (List.Perm.swap ..) fun s₃ h₃ _ =>
              ih e.2.inum rest _ (by omega) h₃ hnone hsome
          · simp only [wp_seq_bind]
            exact At.wp_iunlockput h₁ he (List.Perm.refl _) (List.Perm.refl _)
              fun s' hs _ => hnone s' hs

/-- The current directory of the process. -/
def Kern.cwd (k : Kern) (p : Pid) : Nat := (k.proc p).cwd.getD 0

/-- `idup`. -/
theorem Sits.dup (h : Sits c base out L T s) (i : Nat) :
    Sits c base out L (i :: T) { s with ref := update s.ref i (s.ref i + 1) } where
  good := (h.good.setRef _).1
  sb := h.sb
  lock := h.lock
  nodup := h.nodup
  valid := h.valid
  held := (h.got i).held
  ref := (h.got i).ref
  out := h.out

theorem At.dup (h : At c base out pend L T s) {i : Nat} (hG : c.G (s.names pend) (.get i)) :
    At c base out pend L (i :: T) { s with ref := update s.ref i (s.ref i + 1) } where
  toSits := h.toSits.dup i
  run := by
    refine h.run.tail hG ?_
    have hstep := Names.Step.get (N := c.sb.ninodes) (s.names pend) i
    unfold FileSys.names at hstep ⊢
    rwa [(h.good.setRef _).2]

/-- **`namex`** returns nothing, or an inode with a reference of the caller's. -/
theorem At.wp_namex (h : At c base out pend [] T k.fs) (he : Errs c E) (path : List UInt8)
    (parent : Bool)
    (hcwd : ∀ n : Names, base (k.cwd c.p) ≤ n.ref (k.cwd c.p) → c.G n (.get (k.cwd c.p)))
    {Q : Option (Nat × List UInt8) → Kern → Prop}
    (hnone : ∀ s', At c base out pend [] T s' → Q none { k with fs := s' })
    (hsome : ∀ s' i name, At c base out pend [] (i :: T) s' →
      (parent = true → (s'.view i).type = T_DIR) → Q (some (i, name)) { k with fs := s' }) :
    wp ((namex c.p path parent).seq c.p) Q E k := by
  simp only [namex, bind_eq_bind, wp_seq_bind, wp_seq_lift, namexStart, wp_ite,
    wp_bind, wp_onFs, wp_pure, getCwd, wp_get]
  refine ⟨fun _ => ?_, fun _ => ?_⟩
  · refine wp_iget ?_ fun _ _ => he.limit _ rfl
    exact wp_namexLoop he parent _ _ path _ (Nat.lt_succ_self _)
      (h.got (c.lax.get _ _ (Or.inr (Or.inl rfl)))) hnone hsome
  · simp only [idup, wp_modify]
    refine wp_namexLoop he parent _ _ path _ (Nat.lt_succ_self _) (h.dup (hcwd _ ?_)) hnone hsome
    exact (Nat.le_add_right _ _).trans_eq (h.ref _).symm

theorem At.wp_namei (h : At c base out pend [] T k.fs) (he : Errs c E) (path : List UInt8)
    (hcwd : ∀ n : Names, base (k.cwd c.p) ≤ n.ref (k.cwd c.p) → c.G n (.get (k.cwd c.p)))
    {Q : Option Nat → Kern → Prop}
    (hnone : ∀ s', At c base out pend [] T s' → Q none { k with fs := s' })
    (hsome : ∀ s' i, At c base out pend [] (i :: T) s' → Q (some i) { k with fs := s' }) :
    wp ((namei c.p path).seq c.p) Q E k := by
  simp only [namei, bind_eq_bind, wp_seq_bind, pure_eq_ret, wp_seq_ret]
  exact h.wp_namex he path false hcwd hnone fun s' i _ hs _ => hsome s' i hs

theorem At.wp_nameiparent (h : At c base out pend [] T k.fs) (he : Errs c E) (path : List UInt8)
    (hcwd : ∀ n : Names, base (k.cwd c.p) ≤ n.ref (k.cwd c.p) → c.G n (.get (k.cwd c.p)))
    {Q : Option (Nat × List UInt8) → Kern → Prop}
    (hnone : ∀ s', At c base out pend [] T s' → Q none { k with fs := s' })
    (hsome : ∀ s' i name, At c base out pend [] (i :: T) s' → (s'.view i).type = T_DIR →
      Q (some (i, name)) { k with fs := s' }) :
    wp ((nameiparent c.p path).seq c.p) Q E k :=
  h.wp_namex he path true hcwd hnone fun s' i name hs hdir => hsome s' i name hs (hdir rfl)

end

/-! ## 5. The start of a call -/

/-- A call that starts in `k`, under the condition `G`. -/
abbrev Kern.ctx (k : Kern) (p : Pid) (G : Names → Act → Prop) (hG : Names.Lax G) : Ctx where
  p := p
  sb := k.fs.sb
  G := G
  lax := hG
  start := k.fs.names .none

/-- At its start a call holds nothing. -/
theorem at_start {p : Pid} {k : Kern} (hg : Good k.fs) (hl : ∀ i, k.fs.lock i = none)
    {G : Names → Act → Prop} (hG : Names.Lax G) :
    At (k.ctx p G hG) k.fs.ref k.fs.outstanding .none [] [] k.fs where
  good := hg
  sb := rfl
  lock i := by simp [hl i]
  nodup := List.nodup_nil
  valid i hi := by cases hi
  held i hi := by cases hi
  ref i := by simp
  out := rfl
  run := Relation.ReflTransGen.refl

end Xv6.Fs
