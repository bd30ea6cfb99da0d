/-
# Every block has one owner

The block ownership invariant, as a statement about the disk: what the inode table, the bitmap
and the indirect blocks say at a moment when no operation is running.  It is kept by every
sequence of complete operations, so no two files ever share a block and `bfree` is never called
on a free block.

`balloc` takes the first clear bit of the bitmap.  So the bits of the blocks in front of the
data region have to be set, as `mkfs` leaves them: otherwise `balloc` hands out the boot block,
whose number means "no block" in an inode.
-/
import Xv6.Fs.SelfLock

namespace Xv6.Fs

open Bytes
open Prog (bind_eq_bind wp_seq_bind)

/-! ## 1. The invariant on disk -/

/-- Inode `i` is allocated on disk. -/
def FileSys.Allocated (s : FileSys) (i : Nat) : Prop :=
  i < s.sb.ninodes ∧ (s.dinode i).type ≠ 0

instance (s : FileSys) (i : Nat) : Decidable (s.Allocated i) := inferInstanceAs (Decidable (_ ∧ _))

/-- The number in slot `m` of inode `i`: `addrs[m]`, or an entry of the indirect block. -/
def FileSys.slotNum (s : FileSys) (i m : Nat) : Nat := slot s.data (s.dinode i) m

/-- Block `b` is in the data region. -/
def FileSys.InData (s : FileSys) (b : Nat) : Prop := s.sb.datastart ≤ b ∧ b < s.sb.size

/-- **The four parts of the block ownership invariant.** -/
structure Owned (s : FileSys) : Prop where
  /-- A block number in an inode is one of a data block in use. -/
  used : ∀ i m, s.Allocated i → s.slotNum i m ≠ 0 →
    s.InData (s.slotNum i m) ∧ s.bitmap (s.slotNum i m) = true
  /-- No block number occurs twice. -/
  once : ∀ i j m l, s.Allocated i → s.Allocated j → s.slotNum i m ≠ 0 →
    s.slotNum i m = s.slotNum j l → i = j ∧ m = l
  /-- A data block in use occurs. -/
  owner : ∀ b, s.InData b → s.bitmap b = true → ∃ i m, s.Allocated i ∧ s.slotNum i m = b
  /-- A file has the blocks that its size asks for, and an indirect block when it needs one. -/
  shape : ∀ i, s.Allocated i → (s.dinode i).type ≠ T_DEV →
    HasBlocks s.data (s.dinode i) (nblk (s.dinode i).size)

/-- The blocks in front of the data region are marked as used. -/
structure Reserved (s : FileSys) : Prop where
  pos : 0 < s.sb.datastart
  small : s.sb.size < 2 ^ 32
  marked : ∀ b, b < s.sb.datastart → s.bitmap b = true

theorem Good.owned {s : FileSys} (h : Good s) : Owned s ∧ Reserved s := by
  have hcur := h.coherent.cur
  have hal : ∀ i, Alloc s i ↔ s.Allocated i := fun i => by
    unfold Alloc FileSys.Allocated
    rw [hcur]
  have hplace : ∀ i m, s.Allocated i → s.place (i, m) = s.slotNum i m := fun i m hi => by
    rw [place_of_alloc ((hal i).mpr hi), hcur]
    rfl
  refine ⟨⟨fun i m hi h0 => ?_, fun i j m l hi hj h0 he => ?_, fun b hb hbit => ?_,
    fun i hi ht => ?_⟩, ⟨h.own.pos, h.own.small, h.own.reserved⟩⟩
  · rw [← hplace i m hi] at h0 ⊢
    obtain ⟨h1, h2, h3⟩ := h.own.ledger.mem (i, m) h0
    exact ⟨⟨h1, h2⟩, h3⟩
  · rw [← hplace i m hi] at h0 he
    rw [← hplace j l hj] at he
    simpa using h.own.ledger.inj (i, m) (j, l) h0 he
  · obtain ⟨⟨i, m⟩, hl⟩ := h.own.ledger.cover b ⟨hb.1, hb.2, hbit⟩
    have h0 : s.place (i, m) ≠ 0 := by
      rw [hl]
      exact (Nat.lt_of_lt_of_le h.own.pos hb.1).ne'
    have hi : Alloc s i := by
      by_contra hc
      exact h0 (place_of_not_alloc hc)
    exact ⟨i, m, (hal i).mp hi, by rw [← hplace i m ((hal i).mp hi), hl]⟩
  · have := h.own.shape i ((hal i).mpr hi)
    rw [hcur] at this
    exact this ht

/-- A disk that satisfies the invariant is a good state when nothing is cached. -/
theorem Owned.good {s : FileSys} (h : Owned s) (hr : Reserved s) (hv : ∀ i, s.valid i = false) :
    Good s := by
  have hcur : ∀ i, s.cur i = s.dinode i := fun i => cur_of_not_valid (hv i)
  have hal : ∀ i, Alloc s i ↔ s.Allocated i := fun i => by
    unfold Alloc FileSys.Allocated
    rw [hcur]
  have hplace : ∀ i m, s.Allocated i → s.place (i, m) = s.slotNum i m := fun i m hi => by
    rw [place_of_alloc ((hal i).mpr hi), hcur]
    rfl
  have hne : ∀ i m, s.place (i, m) ≠ 0 → s.Allocated i := fun i m h0 => by
    by_contra hc
    exact h0 (place_of_not_alloc fun hi => hc ((hal i).mp hi))
  refine ⟨⟨⟨hr.pos, hr.small, hr.marked, ⟨fun h0 => absurd h0.1 (by have := hr.pos; omega), ?_, ?_,
    ?_⟩⟩, ?_⟩, fun i hi => ?_⟩
  · rintro ⟨i, m⟩ h0
    have hi := hne i m h0
    rw [hplace i m hi] at h0 ⊢
    obtain ⟨hd, hb⟩ := h.used i m hi h0
    exact ⟨hd.1, hd.2, hb⟩
  · rintro ⟨i, m⟩ ⟨j, l⟩ h0 he
    have hi := hne i m h0
    have hj := hne j l (he ▸ h0)
    rw [hplace i m hi] at h0 he
    rw [hplace j l hj] at he
    obtain ⟨rfl, rfl⟩ := h.once i j m l hi hj h0 he
    rfl
  · rintro b ⟨h1, h2, h3⟩
    obtain ⟨i, m, hi, hl⟩ := h.owner b ⟨h1, h2⟩ h3
    exact ⟨(i, m), by rw [hplace i m hi, hl]⟩
  · intro i hi ht
    rw [hcur] at ht ⊢
    exact h.shape i ((hal i).mp hi) ht
  · rw [hv i] at hi
    cases hi

/-! ## 2. Operations, one after another -/

/-- The operations, with their arguments. -/
inductive BlockCall
  /-- A reference to an inode is taken. -/
  | iget (n : Nat)
  | iput (n : Nat)
  | readi (n off len : Nat)
  | writei (n : Nat) (src : List UInt8) (off : Nat)
  | dirlink (dp : Nat) (name : List UInt8) (inum : Nat)
  | ialloc (type : Int)
  | create (path : List UInt8) (type major minor : Int)
  | sysLink (args : Option (List UInt8 × List UInt8))
  | sysUnlink (path : Option (List UInt8))

/-- An operation on an inode, under its lock and inside a transaction. -/
def locked {α : Type} (p : Pid) (n : Nat) (m : KProg α) : KProg Unit := do
  atomic beginOp
  ilock n
  let _ ← m
  iunlock p n
  atomic endOp

/-- The code of an operation. -/
def BlockCall.prog (p : Pid) : BlockCall → KProg Unit
  | .iget n => atomic (Fs.iget n)
  | .iput n => do
    atomic beginOp
    Fs.iput n
    atomic endOp
  | .readi n off len => locked p n (atomic (Fs.readi n off len))
  | .writei n src off => locked p n (atomic (Fs.writei n src off))
  | .dirlink dp name inum => locked p dp (Fs.dirlink dp name inum)
  | .ialloc type => do
    atomic beginOp
    let _ ← atomic (Fs.ialloc type)
    atomic endOp
  | .create path type major minor => do
    atomic beginOp
    match ← Fs.create p path type major minor with
    | none => atomic endOp
    | some ip =>
      iunlock p ip
      atomic endOp
  | .sysLink args => do
    let _ ← Fs.sysLink p args
  | .sysUnlink path => do
    let _ ← Fs.sysUnlink p path

/-- What the caller of an operation owes: `iput` drops a reference that there is, and an inode is
allocated with a type. -/
def BlockCall.Legal (k : Kern) : BlockCall → Prop
  | .iput n => 0 < k.fs.ref n
  | .ialloc type | .create _ type _ _ => type ≠ 0
  | _ => True

/-- The states that processes reach by complete operations, one after another. -/
inductive BlockRun (k : Kern) : Kern → Prop
  | start : BlockRun k k
  | step {k₁ k₂ : Kern} {p : Pid} {call : BlockCall} {r : Unit} : BlockRun k k₁ → call.Legal k₁ →
    (call.prog p).seq p k₁ = .ok (r, k₂) → BlockRun k k₂

/-! ## 3. Each operation keeps the invariant -/

/-- Any stop but `freeing free block`. -/
def NotFreeingFree (x : Stop Panic Want) : Prop := x ≠ .panic .freeingFree

theorem errs_notFreeingFree {c : Ctx} : Errs c NotFreeingFree := by
  refine ⟨fun e he hc => ?_, fun e he hc => ?_, fun _ _ _ _ _ hc => by cases hc⟩
  · cases hc
    exact Bool.noConfusion (show false = true from he)
  · cases hc
    exact Bool.noConfusion (show false = true from he)

/-- A good state with no inode locked. -/
structure Rest (k : Kern) : Prop where
  good : Good k.fs
  unlocked : ∀ i, k.fs.lock i = none

section

variable {p : Pid} {k : Kern}

theorem Sits.rest {c : Ctx} {base : Nat → Nat} {out : Nat} {T : List Nat} {s : FileSys}
    (h : Sits c base out [] T s) : Rest { k with fs := s } := ⟨h.good, h.unlocked⟩

/-- The end of a transaction. -/
theorem Sits.wp_endOp {c : Ctx} {base : Nat → Nat} {out : Nat} {T : List Nat}
    {E : Stop Panic Want → Prop} (h : Sits c base out [] T k.fs) :
    wp ((atomic endOp).seq p) (fun _ k' => Rest k') E k := by
  rw [wp_atomic, endOp, wp_modify]
  exact ⟨(h.good.outstanding _ _).1, h.unlocked⟩

/-- An operation under a lock. -/
theorem Rest.wp_locked (h : Rest k) {α : Type} {n : Nat} {m : KProg α}
    (hm : ∀ s, At (k.ctx p anyAct lax_anyAct) k.fs.ref (k.fs.outstanding + 1) .none [n] [] s →
      wp (m.seq p) (fun _ k' => Sits (k.ctx p anyAct lax_anyAct) k.fs.ref (k.fs.outstanding + 1)
        [n] [] k'.fs) NotFreeingFree { k with fs := s }) :
    wp ((locked p n m).seq p) (fun _ k' => Rest k') NotFreeingFree k := by
  have hA := (at_start h.good h.unlocked (p := p) lax_anyAct).begun
  simp only [locked, bind_eq_bind, wp_seq_bind, wp_begun]
  rcases Nat.eq_zero_or_pos (k.fs.ref n) with h0 | hpos
  · -- `ilock` of an inode that is not referenced panics
    simp only [ilock, bind_eq_bind, wp_seq_bind, wp_atomic, wp_bind, wp_get, wp_ite,
      wp_throw]
    refine ⟨fun _ hc => ?_, fun hc => absurd (show k.fs.ref n < 1 by omega) hc⟩
    cases hc
  · refine hA.wp_ilock errs_notFreeingFree (by simp) hpos fun s₁ h₁ _ _ => ?_
    refine wp_conseq (hm s₁ h₁) fun _ k₂ h₂ => ?_
    exact Sits.wp_iunlock h₂ (List.Perm.refl _) fun s₃ h₃ _ _ _ =>
      Sits.wp_endOp (k := { k₂ with fs := s₃ }) h₃

/-- `writei`, on a file or a device. -/
theorem Sits.wp_writei_any {c : Ctx} {base : Nat → Nat} {out : Nat} {L T : List Nat}
    {s : FileSys} {E : Panic → Prop} (h : Sits c base out L T s) {n off : Nat} (hn : n ∈ L)
    {src : List UInt8} {Q : Int → FileSys → Prop}
    (hQ : ∀ r s', Sits c base out L T s' → Q r s') (hE : ∀ e, Limit e → E e) :
    wp (writei n src off) Q E s := by
  rcases eq_or_ne (s.inode n).type T_DEV with ht | ht
  · exact wp_writei_dev ht fun r => hQ r s h
  · exact wp_writei h.good (h.valid n hn) ht (fun _ => hQ _ s h)
      (fun _ _ s' hu => hQ _ s' (h.updated hu)) hE

/-- `dirlink` in a locked directory. -/
theorem At.wp_dirlink_any {c : Ctx} {base : Nat → Nat} {out : Nat} {dp inum : Nat}
    {name : List UInt8} (h : At c base out .none [dp] [] k.fs) :
    wp ((dirlink dp name inum).seq c.p) (fun _ k' => Sits c base out [dp] [] k'.fs)
      NotFreeingFree k := by
  have he : Errs c NotFreeingFree := errs_notFreeingFree
  have hv := h.valid dp (by simp)
  simp only [dirlink, bind_eq_bind, wp_seq_bind, wp_atomic]
  rcases eq_or_ne (k.fs.view dp).type T_DIR with hd | hd
  · refine h.wp_dirlookup he (by simp) hd (fun e s₁ _ h₁ _ => ?_) fun _ => ?_
    · simp only [wp_seq_bind]
      rcases eq_or_ne e.2.inum dp with hself | hself
      · exact Sits.wp_iput_held h₁.toSits (by simp [hself]) fun hc => by cases hc
      · exact At.wp_iput h₁ he (by simpa using hself) (List.Perm.refl _) fun s₂ h₂ _ => h₂.toSits
    · simp only [wp_seq_bind, wp_atomic]
      exact wp_dirlinkWrite h.good hv hd (fun s₁ hu => h.toSits.updated hu)
        (fun _ => he.corrupt _ rfl) (he.corrupt _ rfl) he.limit
  · refine Fs.wp_dirlookup h.good hv (fun e ht _ => absurd ht hd) (fun ht _ => absurd ht hd)
      (fun _ hc => by cases hc) (fun _ _ => he.corrupt _ rfl) fun _ _ _ => he.limit _ rfl

/-- **One operation.** -/
theorem Rest.wp_call (h : Rest k) {call : BlockCall} (hlegal : call.Legal k) :
    wp ((call.prog p).seq p) (fun _ k' => Rest k') NotFreeingFree k := by
  have hA := at_start h.good h.unlocked (p := p) lax_anyAct
  have he : Errs (k.ctx p anyAct lax_anyAct) NotFreeingFree := errs_notFreeingFree
  have hcwd : CwdOk (k.ctx p anyAct lax_anyAct) k.fs.ref k := fun _ _ => trivial
  cases call with
  | iget n =>
    rw [BlockCall.prog, wp_atomic]
    exact wp_iget (hA.toSits.got n).rest fun _ _ => he.limit _ rfl
  | iput n =>
    simp only [BlockCall.prog, bind_eq_bind, wp_seq_bind, wp_begun]
    refine (hA.begun.rebase (i := n) hlegal).wp_iput he (by simp) (List.Perm.refl _)
      fun s₁ h₁ _ => ?_
    exact Sits.wp_endOp (k := { k with fs := s₁ }) h₁.toSits
  | readi n off len =>
    refine h.wp_locked fun s hs => ?_
    rw [wp_atomic]
    exact wp_readi_same hs.good (hs.valid n (by simp)) fun _ => hs.toSits
  | writei n src off =>
    refine h.wp_locked fun s hs => ?_
    rw [wp_atomic]
    exact hs.toSits.wp_writei_any (by simp) (fun _ _ h' => h') he.limit
  | dirlink dp name inum =>
    exact h.wp_locked fun s hs => At.wp_dirlink_any (k := { k with fs := s }) hs
  | ialloc type =>
    simp only [BlockCall.prog, bind_eq_bind, wp_seq_bind, wp_begun]
    rw [wp_atomic]
    refine wp_ialloc hA.begun.good hlegal (fun n t _ _ _ hg hf _ => ?_) he.limit
    exact Sits.wp_endOp (k := { k with fs := t.got n })
      ((hA.begun.toSits.frame hg hf).got n)
  | create path type major minor =>
    simp only [BlockCall.prog, bind_eq_bind, wp_seq_bind, wp_begun]
    refine hA.begun.wp_create he hcwd hlegal (mayCreate_any fun _ _ => trivial).mkdir
      (mayCreate_any fun _ _ => trivial).mkfile (fun s₁ h₁ => ?_) fun s₁ ip h₁ => ?_
    · exact Sits.wp_endOp (k := { k with fs := s₁ }) h₁.toSits
    · simp only [wp_seq_bind]
      refine At.wp_iunlock (k := { k with fs := s₁ }) h₁ (List.Perm.refl _) fun s₂ h₂ _ => ?_
      exact Sits.wp_endOp (k := { k with fs := s₂ }) h₂.toSits
  | sysLink args =>
    simp only [BlockCall.prog, bind_eq_bind, wp_seq_bind]
    cases args with
    | none => exact h
    | some args =>
      exact hA.wp_sysLink he hcwd (fun _ _ _ => trivial) (fun _ _ _ _ _ _ => trivial)
        (fun _ _ _ _ _ _ _ _ hc => by cases hc) fun s' _ hs => hs.toSits.rest
  | sysUnlink path =>
    simp only [BlockCall.prog, bind_eq_bind, wp_seq_bind]
    cases path with
    | none => exact h
    | some path =>
      exact hA.wp_sysUnlink he hcwd (fun _ _ _ _ _ _ _ _ => trivial) (fun _ _ _ => trivial)
        (fun _ _ _ _ _ _ _ _ hc => by cases hc) fun s' _ hs => hs.toSits.rest

theorem BlockRun.rest {k' : Kern} (h : Rest k) (hrun : BlockRun k k') : Rest k' := by
  induction hrun with
  | start => exact h
  | step _ hlegal hseq ih => exact wp_of_ok (Q := fun _ k' => Rest k') (ih.wp_call hlegal) hseq

/-- **Block ownership.**  On a disk that satisfies the invariant, with the blocks in front of the
data region marked as used, every sequence of complete operations keeps it.  So no two files share
a block, and the next operation does not free a free block. -/
theorem blocks_owned {k' : Kern} (h : Owned k.fs) (hr : Reserved k.fs)
    (hv : ∀ i, k.fs.valid i = false) (hl : ∀ i, k.fs.lock i = none) (hrun : BlockRun k k') :
    Owned k'.fs ∧ Reserved k'.fs ∧
      (∀ i j m l, i ≠ j → k'.fs.Allocated i → k'.fs.Allocated j → k'.fs.slotNum i m ≠ 0 →
        k'.fs.slotNum i m ≠ k'.fs.slotNum j l) ∧
      ∀ p (call : BlockCall), call.Legal k' →
        (call.prog p).seq p k' ≠ .error (.panic .freeingFree) := by
  have hrest : Rest k' := hrun.rest ⟨h.good hr hv, hl⟩
  obtain ⟨hown, hres⟩ := hrest.good.owned
  refine ⟨hown, hres, fun i j m l hne hi hj h0 he => ?_, fun p call hlegal hc => ?_⟩
  · exact hne (hown.once i j m l hi hj h0 he).1
  · exact wp_of_error (E := NotFreeingFree) (hrest.wp_call hlegal) hc rfl

end

/-! ## 4. The small disk -/

/-- The states after one and after two operations of process 0. -/
def afterOp (k : Kern) (c : BlockCall) : Option Kern :=
  match (c.prog 0).seq 0 k with
  | .error _ => none
  | .ok (_, k₁) => some k₁

theorem blockRun_afterOp {k₀ k k₁ : Kern} {c : BlockCall} (hrun : BlockRun k₀ k)
    (hlegal : c.Legal k) (h : afterOp k c = some k₁) : BlockRun k₀ k₁ := by
  unfold afterOp at h
  split at h
  · cases h
  next r k₂ hseq =>
    rw [← Option.some.inj h]
    exact hrun.step hlegal hseq

/-- A file is created on the small disk. -/
theorem blocks_owned_create : ∃ k', BlockRun image k' ∧ (k'.fs.dinode 2).type = T_FILE ∧
    Owned k'.fs := by
  have hcheck : ((afterOp image (.create pathF T_FILE 0 0)).any fun k =>
      (k.fs.dinode 2).type = T_FILE) = true := by decide +kernel
  have hlegal : BlockCall.Legal image (.create pathF T_FILE 0 0) := show T_FILE ≠ 0 by decide
  obtain ⟨k₁, h₁, ht⟩ := (Option.any_eq_true _ _).mp hcheck
  have hrun := blockRun_afterOp .start hlegal h₁
  obtain ⟨hown, hres⟩ := image_good.owned
  exact ⟨k₁, hrun, of_decide_eq_true ht,
    (blocks_owned hown hres (fun _ => rfl) (fun _ => rfl) hrun).1⟩

/-- The small disk with the bitmap bits of the blocks in front of the data region clear. -/
def unmarked : Kern := { image with fs := { imageFs with bitmap := fun b => b = 35 } }

theorem unmarked_slotNum {i : Nat} (hi : unmarked.fs.Allocated i) (m : Nat) :
    unmarked.fs.slotNum i m = if m = 0 then 35 else 0 := by
  have hroot : i = ROOTINO := (image_alloc i).mp hi
  rw [← image_slot m, hroot]
  rfl

theorem unmarked_owned : Owned unmarked.fs := by
  obtain ⟨hown, -⟩ := image_good.owned
  refine ⟨fun i m hi h0 => ⟨(hown.used i m hi h0).1, ?_⟩, hown.once, fun b _ hb => ?_, hown.shape⟩
  · rw [unmarked_slotNum hi] at h0 ⊢
    split at h0
    · next h => rw [if_pos h]; decide
    · exact absurd rfl h0
  · have hroot : unmarked.fs.Allocated ROOTINO := (image_alloc ROOTINO).mpr rfl
    refine ⟨ROOTINO, 0, hroot, ?_⟩
    rw [unmarked_slotNum hroot, if_pos rfl]
    exact (of_decide_eq_true hb).symm

/-- **Without those bits** the first block that is handed out is the boot block: a file of one
byte has no block. -/
theorem boot_block_allocated : ∃ k k' : Kern, Owned k.fs ∧ (∀ i, k.fs.valid i = false) ∧
    (∀ i, k.fs.lock i = none) ∧ BlockRun k k' ∧ ¬ Owned k'.fs := by
  have hcheck : ((afterOp unmarked (.ialloc T_FILE)).bind fun k₁ =>
      afterOp k₁ (.writei 2 [120] 0)).any (fun k =>
        2 < k.fs.sb.ninodes ∧ (k.fs.dinode 2).type = T_FILE ∧ (k.fs.dinode 2).size = 1 ∧
          blockOf k.fs.data (k.fs.dinode 2) 0 = 0) = true := by decide +kernel
  obtain ⟨k₂, h, hfile⟩ := (Option.any_eq_true _ _).mp hcheck
  obtain ⟨k₁, h₁, h₂⟩ := Option.bind_eq_some_iff.mp h
  obtain ⟨hlt, ht, hsize, hblock⟩ := of_decide_eq_true hfile
  have hlegal : BlockCall.Legal unmarked (.ialloc T_FILE) := show T_FILE ≠ 0 by decide
  have hrun := blockRun_afterOp .start hlegal h₁
  refine ⟨unmarked, k₂, unmarked_owned, fun _ => rfl, fun _ => rfl,
    blockRun_afterOp hrun (show BlockCall.Legal k₁ (.writei 2 [120] 0) from trivial) h₂,
    fun hc => ?_⟩
  have hshape := hc.shape 2 ⟨hlt, by rw [ht]; decide⟩ (by rw [ht]; decide)
  rw [hsize] at hshape
  exact (hshape.block 0).mpr (by decide) hblock

end Xv6.Fs
