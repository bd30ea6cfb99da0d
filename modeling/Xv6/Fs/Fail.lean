/-
# Calls that return -1

The calls on paths change inodes and directories before their last check: `sys_link` counts a link
first, and takes it back; `sys_open` creates the file first, and does not.

* `Left`: since the call began, inodes without links and references have been freed, and if there is
  none of these the disk is as it was.  A walk over a path can free such an inode, when it drops the
  last reference to it.
* `Still`: `Left`, for a call that holds some locks and references.  Each piece of code up to a return
  of -1 keeps it, and `sys_link` comes back to it.
* `failed_call`: what a call that returns -1 has done to the disk.
-/
import Xv6.Fs.SelfLock

namespace Xv6.Fs

open Function (update update_eq_self update_idem update_of_ne update_self)
open Prog (bind_eq_bind pure_eq_ret wp_seq_bind wp_seq_ite wp_seq_lift wp_seq_ret)

/-! ## 1. The disk since the start of a call -/

/-- The inode table, the bitmap and the contents of the files are the same. -/
structure Unchanged (b s : FileSys) : Prop where
  dinode : s.dinode = b.dinode
  bitmap : s.bitmap = b.bitmap
  view : s.view = b.view

/-- Since `b`, inodes without links and references have been freed.  If none has, the disk is as it
was. -/
structure Left (base : Nat → Nat) (b s : FileSys) : Prop where
  freed : ∀ i, s.view i = b.view i ∨ s.view i = File.free ∧ (b.view i).nlink = 0 ∧ base i = 0
  disk : s.view = b.view → s.disk = b.disk

section

variable {base : Nat → Nat} {b s s' : FileSys} {ip : Nat}

theorem view_eq_free (h : (s.view ip).type = 0) : s.view ip = File.free := by
  apply view_of_not_alloc
  intro ha
  exact alloc_iff_view.mp ha h

theorem Left.refl (base : Nat → Nat) (s : FileSys) : Left base s s :=
  ⟨fun _ => .inl rfl, fun _ => rfl⟩

/-- What is in use has not been freed. -/
theorem Left.view_eq (h : Left base b s) (ht : (s.view ip).type ≠ 0) : s.view ip = b.view ip := by
  rcases h.freed ip with he | ⟨he, -, -⟩
  · exact he
  · rw [he] at ht
    exact absurd rfl ht

theorem Left.same (h : Left base b s) (hview : s'.view = s.view) (hdisk : s'.disk = s.disk) :
    Left base b s' := by
  constructor
  · intro i
    rw [hview]
    exact h.freed i
  · intro he
    rw [hdisk]
    exact h.disk (hview.symm.trans he)

/-- An inode without links loses its last reference. -/
theorem Left.free (h : Left base b s) (hview : s'.view = update s.view ip File.free)
    (ht : (s.view ip).type ≠ 0) (hlinks : (s.view ip).nlink = 0) (hbase : base ip = 0) :
    Left base b s' := by
  have hip := h.view_eq ht
  constructor
  · intro i
    rw [hview]
    by_cases hi : i = ip
    · rw [hi, update_self, ← hip]
      exact .inr ⟨rfl, hlinks, hbase⟩
    · rw [update_of_ne hi]
      exact h.freed i
  · intro he
    have hfree := congrFun he ip
    rw [hview, update_self, ← hip] at hfree
    rw [← hfree] at ht
    exact absurd rfl ht

theorem Left.trans {t : FileSys} (h : Left base b s) (h' : Left base s t) : Left base b t := by
  constructor
  · intro i
    rcases h'.freed i with he | ⟨he, hlinks, hbase⟩
    · rw [he]
      exact h.freed i
    · rcases h.freed i with hb | ⟨-, hb, -⟩
      · exact .inr ⟨he, hb ▸ hlinks, hbase⟩
      · exact .inr ⟨he, hb, hbase⟩
  · intro he
    -- what is free at the end and was free at the start has not been in use in between
    have hmid : s.view = b.view := by
      funext i
      rcases h.freed i with hb | ⟨hs, -, -⟩
      · exact hb
      · have hend : t.view i = File.free := by
          rcases h'.freed i with ht | ⟨ht, -, -⟩
          · exact ht.trans hs
          · exact ht
        rw [hs, ← hend, he]
    rw [h'.disk (he.trans hmid.symm), h.disk hmid]

/-- Where no inode without links is free of references, nothing has changed. -/
theorem Left.unchanged (h : Left base b s)
    (hlost : ∀ i, (b.view i).type ≠ 0 → (b.view i).nlink = 0 → 0 < base i) : Unchanged b s := by
  have hview : s.view = b.view := by
    funext i
    rcases h.freed i with he | ⟨he, hlinks, hbase⟩
    · exact he
    · have ht : (b.view i).type = 0 := by
        by_contra ht
        have hpos := hlost i ht hlinks
        omega
      rw [he, view_eq_free ht]
  have hdisk := h.disk hview
  exact ⟨congrArg (fun d => d.1) hdisk, congrArg (fun d => d.2.1) hdisk, hview⟩

end

/-! ## 2. Locks, references and paths -/

/-- What the program returns, when it is run alone, satisfies `Q`. -/
def Gives {α : Type} (c : Ctx) (x : KProg α) (Q : α → Kern → Prop) (k : Kern) : Prop :=
  wp (x.seq c.p) Q (fun _ => True) k

/-- The call holds the locks `L` and has taken the references `T`, and since `b` it has changed
nothing. -/
structure Still (c : Ctx) (base : Nat → Nat) (out : Nat) (L T : List Nat) (b s : FileSys) : Prop
    extends Sits c base out L T s where
  left : Left base b s

section

variable {α β : Type} {c : Ctx} {base : Nat → Nat} {out ip dp : Nat} {L L' T T' : List Nat}
  {b s : FileSys} {k : Kern}

namespace Gives

variable {x y : KProg α} {Q : α → Kern → Prop}

theorem bind {x : KProg β} {f : β → KProg α} (h : Gives c x (fun a k => Gives c (f a) Q k) k) :
    Gives c (x >>= f) Q k := (wp_seq_bind _ _).mpr h

theorem ite {p : Prop} [Decidable p] (hx : p → Gives c x Q k) (hy : ¬ p → Gives c y Q k) :
    Gives c (if p then x else y) Q k := (wp_seq_ite _ _).mpr ⟨hx, hy⟩

theorem atomic {m : FsM α} (h : wp m (fun a s' => Q a { k with fs := s' }) (fun _ => True) s) :
    Gives c (atomic m) Q { k with fs := s } := wp_atomic.mpr h

/-- Whatever comes first. -/
theorem after {x : KProg β} {f : β → KProg α} (h : ∀ a k, Gives c (f a) Q k) :
    Gives c (x >>= f) Q k := .bind (wp_always h)

end Gives

theorem errs_any : Errs c fun _ => True :=
  ⟨fun _ _ => trivial, fun _ _ => trivial, fun _ _ _ _ _ => trivial⟩

namespace Still

variable {Q : Unit → Kern → Prop}

theorem ilock (h : Still c base out L (ip :: T) b s)
    (hQ : ∀ s', Still c base out (ip :: L) (ip :: T) b s' → (s'.view ip).type ≠ 0 →
      Q () { k with fs := s' }) : Gives c (ilock ip) Q { k with fs := s } := by
  by_cases hL : ip ∈ L
  · exact Sits.wp_ilock_held (k := { k with fs := s }) h.toSits hL trivial
  · refine Sits.wp_ilock (k := { k with fs := s }) h.toSits hL (h.ref_pos List.mem_cons_self)
      (fun s' hs hview _ hdisk ht => ?_) (fun _ => trivial) trivial
    refine hQ s' ⟨hs, h.left.same hview hdisk⟩ ?_
    rw [hview]
    exact ht

theorem iunlock (h : Still c base out L T b s) (hL : L.Perm (ip :: L'))
    (hQ : ∀ s', Still c base out L' T b s' → Q () { k with fs := s' }) :
    Gives c (iunlock c.p ip) Q { k with fs := s } :=
  Sits.wp_iunlock (k := { k with fs := s }) h.toSits hL fun s' hs hview _ hdisk =>
    hQ s' ⟨hs, h.left.same hview hdisk⟩

theorem iput (h : Still c base out L T b s) (hT : T.Perm (ip :: T'))
    (hQ : ∀ s', Still c base out L T' b s' → Q () { k with fs := s' }) :
    Gives c (iput ip) Q { k with fs := s } := by
  by_cases hL : ip ∈ L
  · exact Sits.wp_iput_held (k := { k with fs := s }) h.toSits hL trivial
  · refine Sits.wp_iput (k := { k with fs := s }) h.toSits hL hT
      (fun s' hs hview _ hdisk => hQ s' ⟨hs, h.left.same hview hdisk⟩)
      (fun s' hs hview _ hone hlinks ht => hQ s' ⟨hs, h.left.free hview ht hlinks ?_⟩)
      fun _ _ => trivial
    -- the one reference is the call's
    have hcount : 0 < T.count ip := List.count_pos_iff.mpr (hT.mem_iff.mpr List.mem_cons_self)
    have hone : s.ref ip = 1 := hone
    have href := h.ref ip
    omega

theorem iunlockput (h : Still c base out L T b s) (hL : L.Perm (ip :: L'))
    (hT : T.Perm (ip :: T'))
    (hQ : ∀ s', Still c base out L' T' b s' → Q () { k with fs := s' }) :
    Gives c (iunlockput c.p ip) Q { k with fs := s } :=
  .bind (h.iunlock hL fun _ h₁ => h₁.iput hT hQ)

theorem got (h : Still c base out L T b s) (i : Nat) : Still c base out L (i :: T) b (s.got i) :=
  ⟨h.toSits.got i, h.left.same (h.good.got i).2 rfl⟩

theorem dirlookup (h : Still c base out L T b s) (hL : dp ∈ L) {name : List UInt8}
    {Q : Option (Nat × Nat) → Kern → Prop}
    (hfound : ∀ (e : Nat × Dirent) s', Still c base out L (e.2.inum :: T) b s' →
      Q (some (e.2.inum, e.1)) { k with fs := s' })
    (hnone : (s.view dp).type = T_DIR → (s.view dp).lookup name = none →
      Q none { k with fs := s }) : Gives c (atomic (dirlookup dp name)) Q { k with fs := s } :=
  .atomic (wp_dirlookup h.good (h.valid dp hL) (fun e _ _ => hfound e _ (h.got e.2.inum)) hnone
    (fun _ => trivial) (fun _ _ => trivial) fun _ _ _ => trivial)

theorem itype (h : Still c base out L T b s) (hL : ip ∈ L) {Q : Int → Kern → Prop}
    (hQ : Q (s.view ip).type { k with fs := s }) :
    Gives c (atomic (itype ip)) Q { k with fs := s } :=
  .atomic ((h.toSits.wp_itype hL).mpr hQ)

theorem setOut (h : Still c base out L T b s) (n : Nat) (lh : List Nat) :
    Still c base n L T b { s with outstanding := n, lh := lh } :=
  ⟨h.toSits.setOut n lh, h.left.same (h.good.outstanding n lh).2 rfl⟩

theorem beginOp (h : Still c base out L T b s)
    (hQ : ∀ s', Still c base (out + 1) L T b s' → Q () { k with fs := s' }) :
    Gives c (atomic beginOp) Q { k with fs := s } := by
  refine .atomic ?_
  rw [Fs.beginOp, wp_modify, h.out]
  exact hQ _ (h.setOut _ _)

theorem endOp (h : Still c base (out + 1) L T b s)
    (hQ : ∀ s', Still c base out L T b s' → Q () { k with fs := s' }) :
    Gives c (atomic endOp) Q { k with fs := s } := by
  refine .atomic ?_
  rw [Fs.endOp, wp_modify, h.out, Nat.add_sub_cancel]
  exact hQ _ (h.setOut _ _)

/-- The loop of `namex`. -/
theorem namexLoop (parent : Bool) {n : Nat} {path : List UInt8} (hn : path.length < n)
    (h : Still c base out [] (ip :: T) b s) {Q : Option (Nat × List UInt8) → Kern → Prop}
    (hnone : ∀ s', Still c base out [] T b s' → Q none { k with fs := s' })
    (hsome : ∀ s' i name, Still c base out [] (i :: T) b s' → Q (some (i, name)) { k with fs := s' }) :
    Gives c (namexLoop c.p parent n ip path) Q { k with fs := s } := by
  induction n generalizing ip path s with
  | zero => exact absurd hn (Nat.not_lt_zero _)
  | succ n ih =>
    rw [Fs.namexLoop]
    cases hskip : skipelem path with
    | none =>
      exact .ite (fun _ => .bind (h.iput (.refl _) hnone)) fun _ => hsome s ip [] h
    | some elem =>
      have hrest := skipelem_length hskip
      refine .bind (h.ilock fun s₁ h₁ _ => .bind (h₁.itype List.mem_cons_self ?_))
      refine .ite (fun _ => .bind (h₁.iunlockput (.refl _) (.refl _) hnone)) fun _ => .ite (fun _ => ?_)
        fun _ => .bind (h₁.dirlookup List.mem_cons_self (fun e s₂ h₂ => ?_) fun _ _ => ?_)
      · exact .bind (h₁.iunlock (.refl _) fun s₂ h₂ => hsome s₂ ip elem.1 h₂)
      · exact .bind (h₂.iunlockput (.refl _) (.swap ..) fun s₃ h₃ => ih (by omega) h₃)
      · exact .bind (h₁.iunlockput (.refl _) (.refl _) hnone)

theorem namex (h : Still c base out [] T b s) (path : List UInt8) (parent : Bool)
    {Q : Option (Nat × List UInt8) → Kern → Prop}
    (hnone : ∀ s', Still c base out [] T b s' → Q none { k with fs := s' })
    (hsome : ∀ s' i name, Still c base out [] (i :: T) b s' → Q (some (i, name)) { k with fs := s' }) :
    Gives c (namex c.p path parent) Q { k with fs := s } := by
  refine .bind ((wp_seq_lift _).mpr ?_)
  simp only [namexStart, wp_ite, wp_bind, wp_onFs, wp_pure, getCwd, wp_get]
  refine ⟨fun _ => ?_, fun _ => ?_⟩
  · exact wp_iget ((h.got ROOTINO).namexLoop parent (Nat.lt_succ_self _) hnone hsome)
      fun _ _ => trivial
  · simp only [idup, wp_modify]
    have hdup : ∀ i, Still c base out [] (i :: T) b
        { s with ref := update s.ref i (s.ref i + 1) } := fun i =>
      ⟨h.toSits.dup i, h.left.same (h.good.setRef _).2 rfl⟩
    exact (hdup _).namexLoop parent (Nat.lt_succ_self _) hnone hsome

theorem namei (h : Still c base out [] T b s) (path : List UInt8) {Q : Option Nat → Kern → Prop}
    (hnone : ∀ s', Still c base out [] T b s' → Q none { k with fs := s' })
    (hsome : ∀ s' i, Still c base out [] (i :: T) b s' → Q (some i) { k with fs := s' }) :
    Gives c (namei c.p path) Q { k with fs := s } :=
  .bind (h.namex path false hnone fun s' i _ hs => hsome s' i hs)

end Still

end

/-! ## 3. `sys_link` -/

section

variable {c : Ctx} {base : Nat → Nat} {out ip dp : Nat} {L T : List Nat} {b s s' t t' : FileSys}
  {k : Kern} {f : Dinode → Dinode}

/-- An inode is changed, and written. -/
theorem wp_update_disk : wp (do setInode ip f; iupdate ip)
    (fun _ s' => s'.disk = (update s.dinode ip (f (s.inode ip)), s.bitmap, s.data))
    (fun _ => True) s := by
  simp only [wp_bind, wp_setInode, iupdate, wp_get, wp_set]
  refine wp_logWrite (fun lh => ?_) fun _ _ => trivial
  simp only [FileSys.disk, update_self]

/-- The inode has been changed by `f`, to the file `g`, and written. -/
structure Changed (s : FileSys) (ip : Nat) (g : File) (f : Dinode → Dinode) (s' : FileSys) : Prop
    extends Updated s s' ip g where
  disk : s'.disk = (update s.dinode ip (f (s.inode ip)), s.bitmap, s.data)

theorem wp_changed {g : File} {Q : Unit → FileSys → Prop}
    (hview : wp (do setInode ip f; iupdate ip) (fun _ s' => Updated s s' ip g) (fun _ => True) s)
    (hQ : ∀ s', Changed s ip g f s' → Q () s') :
    wp (do setInode ip f; iupdate ip) Q (fun _ => True) s :=
  wp_mono (wp_and hview wp_update_disk) (fun _ s' hq => hQ s' ⟨hq.1, hq.2⟩) fun _ _ => trivial

/-- A link is counted. -/
abbrev Counted (s : FileSys) (ip : Nat) (s' : FileSys) : Prop :=
  Changed s ip (s.view ip).incr (fun d => { d with nlink := short (d.nlink + 1) }) s'

/-- A link is taken off. -/
abbrev Uncounted (s : FileSys) (ip : Nat) (s' : FileSys) : Prop :=
  Changed s ip (s.view ip).decr (fun d => { d with nlink := short (d.nlink - 1) }) s'

/-- A link that was counted is taken off again: `sys_link` is back where it was. -/
theorem Left.uncount (hs : Good s) (hv : s.valid ip = true)
    (hshort : short (s.view ip).nlink = (s.view ip).nlink) (hc : Counted s ip t)
    (h : Left base t t') (ht : Good t') (hvt : t'.valid ip = true) (hu : Uncounted t' ip s') :
    Left base s s' := by
  have htype : (t'.view ip).type ≠ 0 := alloc_iff_view.mp (ht.coherent.alloc hvt)
  have hback : ∀ n : Int, short n = n → short (short (n + 1) - 1) = n := fun n hn => by
    simp only [short] at hn ⊢
    rw [Int.bmod_sub_bmod, Int.add_sub_cancel, hn]
  have hip : t'.view ip = (s.view ip).incr := by
    rw [h.view_eq htype, hc.view, update_self]
  have hself : s'.view ip = s.view ip := by
    rw [hu.view, update_self, hip]
    simp only [File.decr, File.incr, File.setNlink, hback _ hshort]
  have hother : ∀ i, i ≠ ip → s'.view i = t'.view i ∧ t.view i = s.view i := fun i hi => by
    rw [hu.view, hc.view, update_of_ne hi, update_of_ne hi]
    exact ⟨rfl, rfl⟩
  constructor
  · intro i
    by_cases hi : i = ip
    · rw [hi]
      exact .inl hself
    · obtain ⟨hs', ht'⟩ := hother i hi
      rw [hs', ← ht']
      exact h.freed i
  · intro he
    have hsame : t'.view = t.view := by
      funext i
      by_cases hi : i = ip
      · rw [hi]
        exact h.view_eq htype
      · obtain ⟨hs', ht'⟩ := hother i hi
        rw [← hs', ht', he]
    -- the inode on disk goes through the same two changes
    have hmid := (h.disk hsame).trans hc.disk
    have hdinode : t'.dinode = update s.dinode ip
        { s.inode ip with nlink := short ((s.inode ip).nlink + 1) } := congrArg (fun d => d.1) hmid
    have hbitmap : t'.bitmap = s.bitmap := congrArg (fun d => d.2.1) hmid
    have hdata : t'.data = s.data := congrArg (fun d => d.2.2) hmid
    have hcopy : t'.inode ip = { s.inode ip with nlink := short ((s.inode ip).nlink + 1) } := by
      rw [(ht.coherent ip hvt).2.1, hdinode, update_self]
    have hnlink : (s.view ip).nlink = (s.inode ip).nlink := by
      rw [hs.view_eq hv]
      rfl
    rw [hnlink] at hshort
    rw [hu.disk, hcopy, hdinode, hbitmap, hdata, update_idem]
    simp only [hback _ hshort, FileSys.disk]
    rw [(hs.coherent ip hv).2.1, update_eq_self]

/-- `-1`, and since `b` nothing has changed. -/
def Failed (c : Ctx) (base : Nat → Nat) (b : FileSys) (r : Int) (k : Kern) : Prop :=
  r = -1 → (Good k.fs ∧ k.fs.sb = c.sb) ∧ Left base b k.fs

theorem failed_zero : Failed c base b 0 k := fun hc => absurd hc (by decide)

namespace Still

theorem failed (h : Still c base out L T b s) (r : Int) : Failed c base b r { k with fs := s } :=
  fun _ => ⟨⟨h.good, h.sb⟩, h.left⟩

/-- The operation ends, and the call returns -1. -/
theorem fail (h : Still c base (out + 1) L T b s) :
    Gives c (do atomic Fs.endOp; return (-1 : Int)) (Failed c base b) { k with fs := s } :=
  .bind (h.endOp fun _ h₁ => h₁.failed (-1))

theorem linkOld (h : Still c base out [] [] b s) (old : List UInt8) {Q : Option Nat → Kern → Prop}
    (hnone : ∀ s', Still c base out [] [] b s' → Q none { k with fs := s' })
    (hsome : ∀ s' ip, Still c base (out + 1) [ip] [ip] b s' → (s'.view ip).type ≠ 0 →
      Q (some ip) { k with fs := s' }) : Gives c (linkOld c.p old) Q { k with fs := s } := by
  refine .bind (h.beginOp fun s₀ h₀ => .bind (h₀.namei old (fun s₁ h₁ => ?_) fun s₁ ip h₁ => ?_))
  · exact .bind (h₁.endOp hnone)
  · refine .bind (h₁.ilock fun s₂ h₂ ht => .bind (h₂.itype List.mem_cons_self ?_))
    refine .ite (fun _ => ?_) fun _ => hsome s₂ ip h₂ ht
    exact .bind (h₂.iunlockput (.refl _) (.refl _) fun s₃ h₃ => .bind (h₃.endOp hnone))

/-- From `bad` on. -/
theorem linkBad (h₀ : Still c base (out + 1) [ip] [ip] b t) (ht : (t.view ip).type ≠ 0)
    (hshort : short (b.view ip).nlink = (b.view ip).nlink) (hc : Counted t ip t')
    (h : Still c base (out + 1) [] [ip] t' s) :
    Gives c (linkBad c.p ip) (Failed c base b) { k with fs := s } := by
  refine .bind (h.ilock fun s₁ h₁ _ => .bind (.atomic ?_))
  refine wp_changed (h₁.toSits.wp_decLink List.mem_cons_self (fun s' hu => hu) fun _ _ => trivial)
    fun s₂ hu => ?_
  rw [← h₀.left.view_eq ht] at hshort
  have hleft := Left.uncount h₀.good (h₀.valid ip List.mem_cons_self) hshort hc h₁.left h₁.good
    (h₁.valid ip List.mem_cons_self) hu
  have h₂ : Still c base (out + 1) [ip] [ip] b s₂ :=
    ⟨h₁.toSits.updated hu.toUpdated, h₀.left.trans hleft⟩
  exact .bind (h₂.iunlockput (.refl _) (.refl _) fun s₃ h₃ => h₃.fail)

/-- **`sys_link`.** -/
theorem sysLink (h : Still c base out [] [] b s)
    (hshort : ∀ i, short (b.view i).nlink = (b.view i).nlink)
    (args : Option (List UInt8 × List UInt8)) :
    Gives c (sysLink c.p args) (Failed c base b) { k with fs := s } := by
  cases args with
  | none => exact h.failed (-1)
  | some args =>
    refine .bind (.bind (h.linkOld args.1 (fun s₁ h₁ => h₁.failed (-1)) fun s₁ ip h₁ ht => ?_))
    refine .bind (.atomic ?_)
    refine wp_changed (h₁.toSits.wp_incLink List.mem_cons_self (fun s' hu => hu) fun _ _ => trivial)
      fun s₂ hc => ?_
    -- from here on the calls leave alone what `incLink` left behind
    have h₂ : Still c base (out + 1) [ip] [ip] s₂ s₂ :=
      ⟨h₁.toSits.updated hc.toUpdated, .refl base s₂⟩
    have hbad : ∀ s', Still c base (out + 1) [] [ip] s₂ s' →
        Gives c (Fs.linkBad c.p ip) (Failed c base b) { k with fs := s' } := fun s' hs =>
      h₁.linkBad ht (hshort ip) hc hs
    refine .bind (h₂.iunlock (.refl _) fun s₃ h₃ => .bind (h₃.namex args.2 true hbad
      fun s₄ dp name h₄ => .bind (h₄.ilock fun s₅ h₅ _ => .bind (.bind ?_))))
    refine h₅.dirlookup List.mem_cons_self (fun e s₆ h₆ => ?_) fun _ _ => ?_
    · refine .bind (h₆.iput (.refl _) fun s₇ h₇ => .ite (fun _ => ?_) fun hc => absurd (by decide) hc)
      exact .bind (h₇.iunlockput (.refl _) (.refl _) hbad)
    · refine .after fun _ _ => .ite (fun hc => absurd hc (by decide)) fun _ => ?_
      exact .after fun _ _ => .after fun _ _ => .after fun _ _ => failed_zero

/-! ## 4. `sys_unlink`, `sys_chdir` and `exec` -/

theorem unlinkBad (h : Still c base (out + 1) [dp] [dp] b s) :
    Gives c (unlinkBad c.p dp) (Failed c base b) { k with fs := s } :=
  .bind (h.iunlockput (.refl _) (.refl _) fun _ h₁ => h₁.fail)

/-- The checks of `sys_unlink` only read. -/
theorem unlinkRefused (h : Still c base out L T b s) (hL : ip ∈ L) {Q : Bool → Kern → Prop}
    (hQ : ∀ r, Q r { k with fs := s }) :
    Gives c (atomic (unlinkRefused ip)) Q { k with fs := s } := by
  refine .atomic ?_
  simp only [Fs.unlinkRefused, wp_bind, wp_get, wp_ite, wp_throw, wp_pure]
  refine ⟨fun _ => trivial, fun _ => ⟨fun ht => ?_, fun _ => hQ false⟩⟩
  have hview : (s.view ip).type = T_DIR := by
    rw [h.good.view_eq (h.valid ip hL)]
    exact ht
  exact wp_isdirempty h.good (h.valid ip hL) hview (hQ _) fun _ => trivial

/-- **`sys_unlink`.** -/
theorem sysUnlink (h : Still c base out [] [] b s) (path : Option (List UInt8)) :
    Gives c (sysUnlink c.p path) (Failed c base b) { k with fs := s } := by
  cases path with
  | none => exact h.failed (-1)
  | some path =>
    refine .bind (.bind (h.beginOp fun s₀ h₀ => .bind (h₀.namex path true (fun s₁ h₁ => h₁.fail)
      fun s₁ dp name h₁ => .bind (h₁.ilock fun s₂ h₂ _ => .ite (fun _ => h₂.unlinkBad) fun _ => ?_))))
    refine .bind (h₂.dirlookup List.mem_cons_self (fun e s₃ h₃ => ?_) fun _ _ => h₂.unlinkBad)
    refine .bind (h₃.ilock fun s₄ h₄ _ => .bind (h₄.unlinkRefused List.mem_cons_self fun r => ?_))
    refine .ite (fun _ => ?_) fun _ => ?_
    · exact .bind (h₄.iunlockput (.refl _) (.refl _) fun s₅ h₅ => h₅.unlinkBad)
    · exact .after fun _ _ => .after fun _ _ => .after fun _ _ => .after fun _ _ => .after fun _ _ =>
        failed_zero

/-- **`sys_chdir`.** -/
theorem sysChdir (h : Still c base out [] [] b s) (path : Option (List UInt8)) :
    Gives c (sysChdir c.p path) (Failed c base b) { k with fs := s } := by
  refine .bind (h.beginOp fun s₀ h₀ => ?_)
  cases path with
  | none => exact h₀.fail
  | some path =>
    refine .bind (.bind (h₀.namei path (fun s₁ h₁ => h₁.fail) fun s₁ ip h₁ => ?_))
    refine .bind (h₁.ilock fun s₂ h₂ _ => .bind (h₂.itype List.mem_cons_self ?_))
    refine .ite (fun _ => .bind (h₂.iunlockput (.refl _) (.refl _) fun s₃ h₃ => h₃.fail)) fun _ => ?_
    exact .after fun _ _ => .after fun _ _ => .after fun _ _ => .after fun _ _ => failed_zero

/-- **`exec`** only reads. -/
theorem exec (h : Still c base out [] [] b s) (path : List UInt8) (mem : ExecMem) :
    Gives c (exec c.p path mem) (Failed c base b) { k with fs := s } := by
  refine .bind (h.beginOp fun s₀ h₀ => .bind (h₀.namei path (fun s₁ h₁ => h₁.fail) fun s₁ ip h₁ => ?_))
  refine .bind (h₁.ilock fun s₂ h₂ _ => .bind (.atomic ?_))
  refine wp_execLoad h₂.good (h₂.valid ip List.mem_cons_self) fun ok => ?_
  exact .bind (h₂.iunlockput (.refl _) (.refl _) fun s₃ h₃ => .bind (h₃.endOp fun s₄ h₄ => h₄.failed _))

end Still

/-! ## 5. `create` and `sys_open` -/

/-- The inode `i` is a new one: it has a link, and was free, or had no link. -/
structure Made (b : FileSys) (i : Nat) (s : FileSys) : Prop where
  type : (s.view i).type ≠ 0
  nlink : (s.view i).nlink = 1
  before : (b.view i).type = 0 ∨ (b.view i).nlink = 0

theorem Made.congr (h : Made b ip s) (hview : s'.view ip = s.view ip) : Made b ip s' :=
  ⟨hview ▸ h.type, hview ▸ h.nlink, h.before⟩

/-- **`create`**: nothing has changed, or the inode is a new one. -/
theorem Still.create (h : Still c base out [] [] b s) {path : List UInt8} {type major minor : Int}
    (ht : type = T_FILE ∨ type = T_DIR ∨ type = T_DEV) {Q : Option Nat → Kern → Prop}
    (hnone : ∀ s', Still c base out [] [] b s' → Q none { k with fs := s' })
    (hsome : ∀ s' ip, Still c base out [ip] [ip] b s' → Q (some ip) { k with fs := s' })
    (hmade : ∀ s' ip, Sits c base out [ip] [ip] s' → (type = T_FILE → Made b ip s') →
      Q (some ip) { k with fs := s' }) :
    Gives c (create c.p path type major minor) Q { k with fs := s } := by
  have h0 : type ≠ 0 := by
    rcases ht with rfl | rfl | rfl <;> decide
  refine .bind (.bind (h.namex path true hnone fun s₁ dp name h₁ => .bind (h₁.ilock fun s₂ h₂ _ => ?_)))
  refine .bind (h₂.dirlookup List.mem_cons_self (fun e s₃ h₃ => ?_) fun hdir hlook => ?_)
  · -- the name exists
    refine .bind (h₃.iunlockput (.refl _) (.swap ..) fun s₄ h₄ => .bind (h₄.ilock fun s₅ h₅ _ => ?_))
    refine .bind (h₅.itype List.mem_cons_self (.ite (fun _ => hsome s₅ _ h₅) fun _ => ?_))
    exact .bind (h₅.iunlockput (.refl _) (.refl _) hnone)
  · -- a new inode
    refine .bind (.atomic (wp_ialloc h₂.good h0 (fun n t hpos hlt hfree hg hf hview => ?_)
      fun _ _ => trivial))
    have hne : n ≠ dp := by
      rintro rfl
      rw [hfree] at hdir
      exact absurd hdir (by decide)
    have hbefore : (b.view n).type = 0 ∨ (b.view n).nlink = 0 := by
      rcases h₂.left.freed n with he | ⟨-, hlinks, -⟩
      · exact .inl (he ▸ hfree)
      · exact .inr hlinks
    have h₃ := (h₂.toSits.frame hg hf).got n
    have hv₃ : (t.got n).view = update s₂.view n { File.free with type := type } :=
      (hg.got n).2.trans hview
    -- the directory is given back, and the new inode stays as it is
    have hend : ∀ s₄, Sits c base out [n, dp] [n, dp] s₄ → (type = T_FILE → Made b n s₄) →
        Gives c (do Fs.iunlockput c.p dp; return (some n)) Q { k with fs := s₄ } := fun s₄ h₄ hm => by
      refine .bind (.bind (Sits.wp_iunlock (k := { k with fs := s₄ }) h₄ (.swap ..)
        fun s₅ h₅ hv₅ _ _ => ?_))
      refine Sits.wp_iput (k := { k with fs := s₅ }) h₅ (by simpa using Ne.symm hne) (.swap ..)
        (fun s₆ h₆ hv₆ _ _ => hmade s₆ n h₆ fun htf => (hm htf).congr ?_)
        (fun s₆ h₆ hv₆ _ _ _ _ => hmade s₆ n h₆ fun htf => (hm htf).congr ?_) fun _ _ => trivial
      · rw [hv₆]
        exact congrFun hv₅ n
      · rw [hv₆, update_of_ne hne]
        exact congrFun hv₅ n
    refine .bind (Sits.wp_createFill (k := { k with fs := t.got n }) h₃ errs_any hne
      (h₃.ref_pos List.mem_cons_self) hv₃ h0 hdir hlook (fun s₄ htd h₄ _ _ => hend s₄ h₄ fun htf => ?_)
      fun s₄ _ h₄ _ hv₄ => hend s₄ h₄ fun _ => ?_)
    · rw [htf] at htd
      exact absurd htd (by decide)
    · have hnew : s₄.view n = File.new type major minor := by
        rw [hv₄, update_of_ne hne, update_self]
      exact ⟨by rw [hnew]; exact h0, by rw [hnew]; rfl, hbefore⟩

/-- **`sys_mkdir`, `sys_mknod`.** -/
theorem Still.sysCreate (h : Still c base out [] [] b s) (path : Option (List UInt8))
    (type major minor : Int) (ht : type = T_FILE ∨ type = T_DIR ∨ type = T_DEV) :
    Gives c (sysCreate c.p path type major minor) (Failed c base b) { k with fs := s } := by
  refine .bind (h.beginOp fun s₀ h₀ => ?_)
  cases path with
  | none => exact h₀.fail
  | some path =>
    exact .bind (h₀.create ht (fun s₁ h₁ => h₁.fail)
      (fun _ _ _ => .after fun _ _ => .after fun _ _ => failed_zero)
      fun _ _ _ _ => .after fun _ _ => .after fun _ _ => failed_zero)

/-- There is a free entry in the file table, and a free descriptor. -/
def Kern.Room (k : Kern) (p : Pid) : Prop :=
  (∃ f, f < NFILE ∧ (k.ftable f).ref = 0) ∧ ∃ fd, fd < NOFILE ∧ (k.proc p).ofile fd = none

/-- `-1` from `sys_open`: nothing has changed, or a new file is left behind. -/
def OpenFailed (c : Ctx) (base : Nat → Nat) (b : FileSys) (room : Prop) (omode : Nat) (r : Int)
    (k : Kern) : Prop :=
  r = -1 → (Good k.fs ∧ k.fs.sb = c.sb) ∧ (Left base b k.fs ∨
    (∃ i, Made b i k.fs) ∧ omode &&& O_CREATE ≠ 0 ∧ ¬ room)

/-- The inode that `sys_open` opens is one that was there, or a new one. -/
def Opening (c : Ctx) (base : Nat → Nat) (out : Nat) (b : FileSys) (omode ip : Nat) (s : FileSys) :
    Prop :=
  Still c base out [ip] [ip] b s ∨
    Sits c base out [ip] [ip] s ∧ Made b ip s ∧ omode &&& O_CREATE ≠ 0

section

variable {omode : Nat} {room : Prop}

theorem Still.openFail (h : Still c base (out + 1) L T b s) :
    Gives c (do atomic Fs.endOp; return (-1 : Int)) (OpenFailed c base b room omode)
      { k with fs := s } :=
  .bind (h.endOp fun _ h₁ _ => ⟨⟨h₁.good, h₁.sb⟩, .inl h₁.left⟩)

/-- A new file keeps its link when it is given back. -/
theorem Opening.openFull (h : Opening c base (out + 1) b omode ip s) (hroom : ¬ room) :
    Gives c (openFull c.p ip) (OpenFailed c base b room omode) { k with fs := s } := by
  rcases h with h | ⟨h, hm, hcreate⟩
  · exact .bind (h.iunlockput (.refl _) (.refl _) fun s₁ h₁ => h₁.openFail)
  have hend : ∀ s', Sits c base (out + 1) [] [] s' → Made b ip s' →
      Gives c (do atomic endOp; return (-1 : Int)) (OpenFailed c base b room omode)
        { k with fs := s' } := fun s' hs hm' => by
    refine .bind (.atomic ?_)
    rw [endOp, wp_modify]
    have hout := hs.good.outstanding (s'.outstanding - 1) (if s'.outstanding - 1 = 0 then [] else s'.lh)
    exact fun _ => ⟨⟨hout.1, hs.sb⟩, .inr ⟨⟨ip, hm'.congr (congrFun hout.2 ip)⟩, hcreate, hroom⟩⟩
  refine .bind (.bind (Sits.wp_iunlock (k := { k with fs := s }) h (.refl _) fun s₁ h₁ hv₁ _ _ => ?_))
  have hm₁ : Made b ip s₁ := hm.congr (congrFun hv₁ ip)
  refine Sits.wp_iput (k := { k with fs := s₁ }) h₁ List.not_mem_nil (.refl _)
    (fun s₂ h₂ hv₂ _ _ => hend s₂ h₂ (hm₁.congr (congrFun hv₂ ip)))
    (fun s₂ _ _ _ _ hc _ => ?_) fun _ _ => trivial
  exact absurd (hm₁.nlink.symm.trans hc) (by decide)

theorem Opening.openFile (h : Opening c base (out + 1) b omode ip k.fs) (hft : k.FtableOk) :
    Gives c (openFile c.p ip omode) (OpenFailed c base b (k.Room c.p) omode) k := by
  refine .bind ((wp_seq_lift _).mpr ?_)
  rw [filealloc, wp_bind, wp_get]
  cases hf : (List.range NFILE).find? fun f => (k.ftable f).ref = 0 with
  | none =>
    refine h.openFull (k := k) fun hroom => ?_
    obtain ⟨⟨f, hlt, h0⟩, -⟩ := hroom
    exact List.find?_eq_none.mp hf f (List.mem_range.mpr hlt) (decide_eq_true h0)
  | some f =>
    have h0 : (k.ftable f).ref = 0 := by simpa using List.find?_some hf
    simp only [wp_bind, wp_set, wp_pure]
    refine .bind ((wp_seq_lift _).mpr ?_)
    rw [fdalloc, wp_bind, wp_get]
    cases hfd : (List.range NOFILE).find? fun fd =>
        ((k.setFile f ((k.ftable f).setRef 1)).proc c.p).ofile fd = none with
    | none =>
      -- the file is of no type, so that `fileclose` only gives it back
      have hnone : ((k.ftable f).setRef 1).type = .none := hft f h0
      have hself : (k.setFile f ((k.ftable f).setRef 1)).ftable f = (k.ftable f).setRef 1 :=
        update_self ..
      have hroom : ¬ k.Room c.p := by
        rintro ⟨-, fd, hlt, hfree⟩
        exact List.find?_eq_none.mp hfd fd (List.mem_range.mpr hlt) (decide_eq_true hfree)
      refine .bind (.bind ((wp_seq_lift _).mpr (wp_filecloseRef (fun hc => ?_) (fun hc => ?_) fun _ => ?_)))
      · rw [hself] at hc
        cases hc
      · rw [hself] at hc
        exact absurd hc (Nat.lt_irrefl 1)
      · simp only [hself, hnone, reduceCtorEq, if_false]
        exact h.openFull (k := Kern.setFile _ f _) hroom
    | some fd =>
      simp only [setOfile, wp_bind, wp_modify, wp_pure]
      refine .after fun _ _ => .after fun _ _ => .after fun _ _ hc => ?_
      have hpos : (0 : Int) ≤ fd := Int.natCast_nonneg fd
      omega

/-- **`sys_open`.** -/
theorem Still.sysOpen (h : Still c base out [] [] b k.fs) (hft : k.FtableOk) (path : List UInt8) :
    Gives c (sysOpen c.p (some (path, omode))) (OpenFailed c base b (k.Room c.p) omode) k := by
  have hopen : ∀ s' ip, Opening c base (out + 1) b omode ip s' →
      Gives c (Fs.openFile c.p ip omode) (OpenFailed c base b (k.Room c.p) omode) { k with fs := s' } :=
    fun s' ip hs => Opening.openFile (k := { k with fs := s' }) hs hft
  refine .bind (h.beginOp (k := k) fun s₀ h₀ => .bind (.ite (fun hcreate => ?_) fun _ => ?_))
  · exact h₀.create (.inl rfl) (fun s₁ h₁ => h₁.openFail) (fun s₁ ip h₁ => hopen s₁ ip (.inl h₁))
      fun s₁ ip h₁ hm => hopen s₁ ip (.inr ⟨h₁, hm rfl, hcreate⟩)
  · refine .bind (h₀.namei path (fun s₁ h₁ => h₁.openFail) fun s₁ ip h₁ => .bind (h₁.ilock fun s₂ h₂ _ => ?_))
    refine .bind (h₂.itype List.mem_cons_self (.ite (fun _ => ?_) fun _ => hopen s₂ ip (.inl h₂)))
    exact .bind (h₂.iunlockput (.refl _) (.refl _) fun s₃ h₃ => h₃.openFail)

end

end

/-! ## 6. What a call that returns -1 has done -/

section

variable {p : Pid} {k k' : Kern} {call : PathCall}

/-- Whatever call it was, nothing has changed, or a file is left behind. -/
theorem failed_cases (hg : Good k.fs) (hl : ∀ i, k.fs.lock i = none) (hft : k.FtableOk)
    (hshort : ∀ i, short (k.fs.view i).nlink = (k.fs.view i).nlink)
    (hrun : (call.prog p).seq p k = .ok (-1, k')) :
    (Good k'.fs ∧ k'.fs.sb = k.fs.sb) ∧ (Left k.fs.ref k.fs k'.fs ∨
      (∃ i, Made k.fs i k'.fs) ∧ ∃ path omode, call = .sysOpen (some (path, omode)) ∧
        omode &&& O_CREATE ≠ 0 ∧ ¬ k.Room p) := by
  have hstart : Still (k.ctx p anyAct lax_anyAct) k.fs.ref k.fs.outstanding [] [] k.fs k.fs :=
    ⟨(at_start hg hl lax_anyAct).toSits, .refl ..⟩
  have hquiet : ∀ {X : Prop}, Gives (k.ctx p anyAct lax_anyAct) (call.prog p)
      (Failed (k.ctx p anyAct lax_anyAct) k.fs.ref k.fs) k →
      (Good k'.fs ∧ k'.fs.sb = k.fs.sb) ∧ (Left k.fs.ref k.fs k'.fs ∨ X) :=
    fun h => (wp_of_ok h hrun rfl).imp_right .inl
  cases call with
  | sysLink args => exact hquiet (hstart.sysLink hshort args)
  | sysUnlink path => exact hquiet (hstart.sysUnlink path)
  | sysMkdir path => exact hquiet (hstart.sysCreate path T_DIR 0 0 (.inr (.inl rfl)))
  | sysMknod args =>
    cases args with
    | none => exact hquiet (hstart.sysCreate none T_DEV 0 0 (.inr (.inr rfl)))
    | some args =>
      obtain ⟨path, major, minor⟩ := args
      exact hquiet (hstart.sysCreate (some path) T_DEV (short major) (short minor)
        (.inr (.inr rfl)))
  | sysChdir path => exact hquiet (hstart.sysChdir path)
  | exec path mem => exact hquiet (hstart.exec path mem)
  | sysOpen args =>
    cases args with
    | none => exact hquiet (hstart.failed (-1))
    | some args =>
      obtain ⟨path, omode⟩ := args
      obtain ⟨hend, hcase⟩ := wp_of_ok (hstart.sysOpen hft path) hrun rfl
      exact ⟨hend, hcase.imp_right fun hmade => ⟨hmade.1, path, omode, rfl, hmade.2⟩⟩

end

/-! ## 7. The small disk -/

/-- All descriptors of process 0 are ends of a pipe. -/
def allOpen : Kern where
  fs := imageFs
  ftable f := if f = 0 then ⟨.pipe, 16, true, false, 0, 0⟩ else ⟨.none, 0, false, false, 0, 0⟩
  proc p := ⟨if p = 0 then some ROOTINO else none, fun _ => if p = 0 then some 0 else none⟩

theorem allOpen_ftableOk : allOpen.FtableOk := by
  intro f hf
  by_cases h0 : f = 0
  · rw [h0] at hf
    cases hf
  · simp only [allOpen, if_neg h0]

theorem image_short (i : Nat) : short (imageFs.view i).nlink = (imageFs.view i).nlink := by
  by_cases hi : i = ROOTINO
  · rw [hi]
    decide
  · rw [view_of_not_alloc fun ha => hi ((image_alloc i).mp ha)]
    rfl

end Xv6.Fs
