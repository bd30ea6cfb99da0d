/-
# What all of the file system code keeps

Some properties of the state are kept by code for no other reason than that the code does not
touch what they are about: a block that is marked as used is cleared by `bfree` only, and the
operations under way are counted by `begin_op` and `end_op` only.  `Aloof I` lists the changes
that such a property allows.  Below, every piece of code of the file system keeps a property that
allows them; the code that frees blocks needs one change more (`Aloof.Free`).
-/
import Xv6.Fs.Call

namespace Xv6.Fs

/-- The property allows every change but that of the superblock and the devices, of the number of
operations, and that a block becomes free. -/
structure Aloof (I : FileSys → Prop) : Prop where
  dinode : ∀ {s} d, I s → I { s with dinode := d }
  mark : ∀ {s} b, I s → I { s with bitmap := Function.update s.bitmap b true }
  data : ∀ {s} d, I s → I { s with data := d }
  inode : ∀ {s} d, I s → I { s with inode := d }
  cache : ∀ {s} r v u, I s → I { s with ref := r, valid := v, used := u }
  lock : ∀ {s} l, I s → I { s with lock := l }
  lh : ∀ {s} l, I s → I { s with lh := l }

/-- A block may become free. -/
def Aloof.Free (I : FileSys → Prop) : Prop :=
  ∀ s b, I s → I { s with bitmap := Function.update s.bitmap b false }

namespace Aloof

variable {I : FileSys → Prop} (h : Aloof I)

include h

/-! ## 1. Blocks and inodes -/

theorem logWrite (n : Nat) : Keeps I (logWrite n) := fun s hs => by
  simp only [Fs.logWrite, wp_bind, wp_get, wp_ite, wp_throw, wp_pure, wp_set]
  exact ⟨fun _ => trivial, fun _ => ⟨fun _ => trivial, fun _ => ⟨fun _ => hs, fun _ => h.lh _ hs⟩⟩⟩

theorem balloc : Keeps I balloc := fun _ hs =>
  wp_balloc (fun b lh _ _ => h.lh lh (h.data _ (h.mark b hs))) fun _ _ => trivial

theorem bfree (hf : Free I) (b : Nat) : Keeps I (bfree b) := fun s hs => by
  simp only [Fs.bfree, wp_bind, wp_get, wp_ite, wp_throw, wp_set]
  exact ⟨fun _ => trivial, fun _ => h.logWrite _ _ (hf _ _ hs)⟩

theorem setInode (ip : Nat) (f : Dinode → Dinode) : Keeps I (setInode ip f) :=
  Keeps.modify fun _ hs => h.inode _ hs

theorem iupdate (ip : Nat) : Keeps I (iupdate ip) := fun s hs => by
  simp only [Fs.iupdate, wp_bind, wp_get, wp_set]
  exact h.logWrite _ _ (h.dinode _ hs)

theorem bmapEntry (ip bn : Nat) : Keeps I (do
    let s ← get
    let ind := (s.inode ip).addrs NDIRECT
    if Bytes.getWord (s.data ind) (bn - NDIRECT) = 0 then
      let addr ← Fs.balloc
      modify fun s => { s with
        data := Function.update s.data ind
          (Bytes.setWord (s.data ind) (bn - NDIRECT) addr) }
      Fs.logWrite ind
      return addr
    else return Bytes.getWord (s.data ind) (bn - NDIRECT)) := by
  refine Keeps.get_bind fun s hs => ?_
  refine Keeps.ite (h.balloc.bind fun a => ?_) (Keeps.pure _) s hs
  refine Keeps.bind (Keeps.modify fun _ hs => h.data _ hs) fun _ => ?_
  exact (h.logWrite _).bind fun _ => Keeps.pure a

theorem bmap (ip bn : Nat) : Keeps I (bmap ip bn) := by
  have hset : ∀ i a, Keeps I (setAddr ip i a) := fun i a => h.setInode ip _
  refine Keeps.get_bind fun s hs => ?_
  refine Keeps.ite (Keeps.ite ?_ (Keeps.pure _)) (Keeps.ite ?_ (Keeps.throw _)) s hs
  · exact h.balloc.bind fun a => (hset _ a).bind fun _ => Keeps.pure a
  · dsimp only
    refine Keeps.ite ?_ (h.bmapEntry ip bn)
    exact h.balloc.bind fun a => (hset _ a).bind fun _ => h.bmapEntry ip bn

theorem itrunc (hf : Free I) (ip : Nat) : Keeps I (itrunc ip) := by
  have hset : ∀ i a, Keeps I (setAddr ip i a) := fun i a => h.setInode ip _
  have hend : Keeps I (do
      Fs.setInode ip fun d => { d with size := 0 }
      Fs.iupdate ip) := (h.setInode ip _).bind fun _ => h.iupdate ip
  refine Keeps.bind (Keeps.forM fun i => Keeps.get_bind fun s hs => ?_) fun _ =>
    Keeps.get_bind fun s hs => ?_
  · exact Keeps.ite ((h.bfree hf _).bind fun _ => hset i 0) (Keeps.pure _) s hs
  · dsimp only
    refine Keeps.ite (Keeps.bind (Keeps.forM fun j => ?_) fun _ => ?_) hend s hs
    · exact Keeps.ite (h.bfree hf _) (Keeps.pure _)
    · exact (h.bfree hf _).bind fun _ => (hset _ 0).bind fun _ => hend

theorem readLoop (ip : Nat) : ∀ fuel off n, Keeps I (readLoop ip fuel off n)
  | 0, _, _ => Keeps.pure _
  | fuel + 1, off, n => by
    unfold Fs.readLoop
    refine Keeps.ite (Keeps.pure _) ((h.bmap ip _).bind fun b => Keeps.get_bind fun s hs => ?_)
    exact (readLoop ip fuel _ _).bind (fun _ => Keeps.pure _) s hs

theorem readi (ip off n : Nat) : Keeps I (readi ip off n) := by
  refine Keeps.get_bind fun s hs => ?_
  refine Keeps.ite (Keeps.ite (Keeps.pure _) ?_) (Keeps.ite (Keeps.pure _) ?_) s hs
  · split <;> exact Keeps.pure _
  · exact (h.readLoop ip _ _ _).bind fun _ => Keeps.pure _

theorem writeLoop (ip : Nat) : ∀ fuel off src, Keeps I (writeLoop ip fuel off src)
  | 0, _, _ => Keeps.pure _
  | fuel + 1, off, src => by
    unfold Fs.writeLoop
    refine Keeps.ite (Keeps.pure _) ((h.bmap ip _).bind fun c => ?_)
    refine Keeps.bind (Keeps.modify fun _ hs => h.data _ hs) fun _ => ?_
    exact (h.logWrite c).bind fun _ => writeLoop ip fuel _ _

theorem writei (ip : Nat) (src : List UInt8) (off : Nat) : Keeps I (writei ip src off) := by
  refine Keeps.get_bind fun s hs => ?_
  refine Keeps.ite (Keeps.ite (Keeps.pure _) ?_) (Keeps.ite (Keeps.pure _) (Keeps.ite (Keeps.pure _)
    ((h.writeLoop ip _ _ _).bind fun _ => ?_))) s hs
  · split <;> exact Keeps.pure _
  · dsimp only
    refine Keeps.ite ?_ (Keeps.pure _)
    exact (h.setInode ip _).bind fun _ => (h.iupdate ip).bind fun _ => Keeps.pure _

/-! ## 2. The inode cache -/

theorem iget (inum : Nat) : Keeps I (iget inum) := fun s hs => by
  simp only [Fs.iget, wp_bind, wp_get, wp_ite, wp_throw, wp_set]
  exact ⟨fun _ => h.cache _ s.valid s.used hs, fun _ => ⟨fun _ => trivial, fun _ =>
    h.cache _ _ _ hs⟩⟩

theorem idup (ip : Nat) : Keeps I (idup ip) :=
  Keeps.modify fun s hs => h.cache _ s.valid s.used hs

theorem iputRef (ip : Nat) : Keeps I (iputRef ip) :=
  Keeps.modify fun s hs => h.cache _ s.valid _ hs

theorem ialloc (type : Int) : Keeps I (ialloc type) := by
  refine Keeps.get_bind fun s hs => ?_
  dsimp only
  split
  · exact trivial
  · rw [wp_bind, wp_set]
    exact ((h.logWrite _).bind fun _ => (h.iget _).bind fun _ => Keeps.pure _) _ (h.dinode _ hs)

omit h in
theorem itype (ip : Nat) : Keeps I (itype ip) := fun _ hs => hs

theorem ilockRead (ip : Nat) : Keeps I (ilockRead ip) := fun s hs => by
  simp only [Fs.ilockRead, wp_bind, wp_get, wp_ite, wp_throw, wp_set, wp_pure]
  have hl := h.cache s.ref (Function.update s.valid ip true) s.used
    (h.inode (Function.update s.inode ip (s.dinode ip)) hs)
  exact ⟨fun _ => ⟨fun _ => trivial, fun _ => ⟨fun _ => trivial, fun _ => hl⟩⟩, fun _ => hs⟩

theorem releasesleep (ip : Nat) : Keeps I (releasesleep ip) := Keeps.modify fun _ hs => h.lock _ hs

omit h in
theorem iputTest (ip : Nat) : Keeps I (iputTest ip) := fun s hs => by
  simp only [Fs.iputTest, wp_bind, wp_get, wp_ite, wp_pure]
  exact ⟨fun _ => hs, fun _ => hs⟩

theorem ifree (hf : Free I) (ip : Nat) : Keeps I (ifree ip) := by
  refine (h.itrunc hf ip).bind fun _ => (h.setInode ip _).bind fun _ => (h.iupdate ip).bind fun _ => ?_
  exact Keeps.modify fun s hs => h.cache s.ref _ s.used hs

/-! ## 3. Directories -/

theorem dirScan (dp : Nat) (test : Dirent → Bool) (err : Panic) :
    ∀ fuel off, Keeps I (dirScan dp test err fuel off)
  | 0, _ => Keeps.pure _
  | fuel + 1, off => by
    unfold Fs.dirScan
    refine Keeps.get_bind fun s hs => Keeps.ite ((h.readi dp off DESIZE).bind fun r => ?_)
      (Keeps.pure _) s hs
    cases r with
    | none => exact Keeps.throw _
    | some bytes => exact Keeps.ite (Keeps.throw _) (Keeps.ite (Keeps.pure _)
        (dirScan dp test err fuel _))

theorem dirlookup (dp : Nat) (name : List UInt8) : Keeps I (dirlookup dp name) := by
  refine Keeps.get_bind fun s hs => Keeps.ite (Keeps.throw _) ?_ s hs
  refine (h.dirScan dp _ _ _ _).bind fun r => ?_
  obtain ⟨off, _ | de⟩ := r
  · exact Keeps.pure _
  · exact (h.iget _).bind fun _ => Keeps.pure _

theorem dirlinkWrite (dp : Nat) (name : List UInt8) (inum : Nat) :
    Keeps I (dirlinkWrite dp name inum) := by
  refine Keeps.get_bind fun s hs => (h.dirScan dp _ _ _ _).bind (fun r => ?_) s hs
  exact (h.writei dp _ _).bind fun _ => Keeps.ite (Keeps.throw _) (Keeps.pure _)

theorem isdirempty (dp : Nat) : Keeps I (isdirempty dp) :=
  Keeps.get_bind fun s hs => (h.dirScan dp _ _ _ _).bind (fun _ => Keeps.pure _) s hs

/-! ## 4. Pieces of the system calls -/

theorem incLink (ip : Nat) : Keeps I (incLink ip) := (h.setInode ip _).bind fun _ => h.iupdate ip

theorem decLink (ip : Nat) : Keeps I (decLink ip) := (h.setInode ip _).bind fun _ => h.iupdate ip

theorem createInit (ip : Nat) (major minor : Int) : Keeps I (createInit ip major minor) :=
  (h.setInode ip _).bind fun _ => h.iupdate ip

theorem unlinkRefused (ip : Nat) : Keeps I (unlinkRefused ip) := by
  refine Keeps.get_bind fun s hs => Keeps.ite (Keeps.throw _) (Keeps.ite ?_ (Keeps.pure _)) s hs
  exact (h.isdirempty ip).bind fun _ => Keeps.pure _

theorem unlinkEntry (dp ip off : Nat) : Keeps I (unlinkEntry dp ip off) := by
  refine (h.writei dp _ off).bind fun r => Keeps.ite (Keeps.throw _) ?_
  exact Keeps.bind (itype ip) fun _ => Keeps.ite (h.decLink dp) (Keeps.pure _)

theorem readExactly (ip off n : Nat) : Keeps I (readExactly ip off n) :=
  (h.readi ip off n).bind fun r => by cases r <;> exact Keeps.pure _

theorem loaduvm (ip : Nat) : ∀ fuel off sz, Keeps I (loaduvm ip fuel off sz)
  | 0, _, _ => Keeps.pure _
  | fuel + 1, off, sz => by
    unfold Fs.loaduvm
    refine Keeps.ite (Keeps.pure _) ((h.readExactly ip _ _).bind fun r => ?_)
    cases r with
    | none => exact Keeps.pure _
    | some bytes => exact loaduvm ip fuel _ _

theorem execSegment (ip : Nat) (mem : ExecMem) (phoff i : Nat) :
    Keeps I (execSegment ip mem phoff i) := by
  refine (h.readExactly ip _ _).bind fun r => ?_
  cases r with
  | none => exact Keeps.pure _
  | some ph =>
    refine Keeps.ite (Keeps.pure _) (Keeps.ite (Keeps.pure _) (Keeps.ite (Keeps.pure _)
      (Keeps.ite (Keeps.pure _) (Keeps.ite (Keeps.pure _) ?_))))
    exact h.loaduvm ip _ _ _

theorem execSegments (ip : Nat) (mem : ExecMem) (phoff : Nat) :
    ∀ n i, Keeps I (execSegments ip mem phoff n i)
  | 0, _ => Keeps.pure _
  | n + 1, i => by
    unfold Fs.execSegments
    exact (h.execSegment ip mem phoff i).bind fun _ =>
      Keeps.ite (execSegments ip mem phoff n (i + 1)) (Keeps.pure _)

theorem execLoad (ip : Nat) (mem : ExecMem) : Keeps I (execLoad ip mem) := by
  refine (h.readExactly ip _ _).bind fun r => ?_
  cases r with
  | none => exact Keeps.pure _
  | some elf => exact Keeps.ite (Keeps.pure _) (Keeps.ite (Keeps.pure _)
      (h.execSegments ip mem _ _ _))

end Aloof

end Xv6.Fs
