/-
# Holes in the image

`main` ends by rounding the size of the root directory up: to the next multiple of `BSIZE` after
it, also when it is one already.  So a root directory whose entries fill its last block gets a
size that covers one block more than it has.  There are 32 entries in a block and two of them are
not files: the hole is there when the number of files is 30, 62, 94 and so on.

When there is no hole the image satisfies the kernel's ownership invariant, and `readi` finds
every block.
-/
import Xv6.Fs.Blocks
import Xv6.Mkfs.Build

namespace Xv6.Mkfs

open Function (update update_of_ne update_self)

open Fs Bytes

/-! ## 1. The disk that the kernel reads -/

theorem getBit_bitmapOf (used k : Nat) : getBit (bitmapOf used) k = decide (k < used) := by
  unfold bitmapOf
  induction used with
  | zero => exact getBit_zero k
  | succ n ih =>
    rw [List.range_succ, List.foldl_append, List.foldl_cons, List.foldl_nil, getBit_setBit, ih,
      ← Bool.decide_or]
    exact decide_eq_decide.mpr (by omega)

/-- The size that `fix size of root inode dir` gives the root directory. -/
def roundUp (size : Nat) : Nat := (size / BSIZE + 1) * BSIZE

theorem nblk_roundUp (size : Nat) : nblk (roundUp size) = size / BSIZE + 1 := by
  simp only [nblk, roundUp, BSIZE]
  omega

theorem le_roundUp (size : Nat) : size ≤ roundUp size := by
  simp only [roundUp, BSIZE]
  omega

/-- Rounding up asks for no more blocks, unless the size is a multiple of `BSIZE`. -/
theorem nblk_roundUp_eq {size : Nat} : nblk (roundUp size) = nblk size ↔ size % BSIZE ≠ 0 := by
  rw [nblk_roundUp]
  simp only [nblk, BSIZE]
  omega

/-- After rounding up, an entry can be read behind the end of full blocks. -/
theorem roundUp_read {size : Nat} (h : size % BSIZE = 0) (hsmall : size < 2 ^ 31) :
    ¬ (roundUp size < size ∨ add32 size DESIZE < size) ∧ ¬ roundUp size < size + DESIZE := by
  simp only [roundUp, add32, BSIZE, DESIZE] at h ⊢
  omega

section

variable {m : Img} {c : Nat → List UInt8} (devsw : Nat → Dev)

/-- The root directory's inode in the finished image. -/
def Img.root (m : Img) : Dinode :=
  { m.fs.dinode ROOTINO with size := roundUp (m.fs.dinode ROOTINO).size }

theorem Built.root_inRange (h : Built m c) (hroot : ROOTINO < m.freeinode) : m.root.InRange := by
  refine (Img.fs_inRange (by decide)).resize ?_
  have hle := Nat.mul_le_mul_right BSIZE (h.hasBlocks ⟨by decide, hroot⟩).le_maxfile
  have hge := nblk_mul_ge (c ROOTINO).length
  rw [h.size ⟨by decide, hroot⟩]
  simp only [roundUp, MAXFILE, BSIZE] at *
  omega

theorem finish_sect {b : Nat} (hb : b ≠ sb.bmapstart) :
    m.finish.sect b = (m.put ROOTINO m.root).sect b := update_of_ne hb _ _

theorem finish_data {b : Nat} (hb : nmeta ≤ b) : m.finish.sect b = m.sect b := by
  have : 59 ≤ b := hb
  rw [finish_sect (show b ≠ 58 by omega)]
  exact Img.put_sect_data (by decide) hb

theorem Built.readsb (h : Built m c) : Fs.readsb m.finish.sect = sb := by
  refine readsb_of_words (m := zeroes) ?_ (by decide)
  rw [finish_sect (by decide), Img.put_sect_of_ne (by decide)]
  exact h.super

theorem Built.disk_sb (h : Built m c) : (FileSys.ofDisk m.finish.sect devsw).sb = sb := h.readsb

/-- The inodes that the kernel finds. -/
theorem Built.disk_dinode (h : Built m c) (hroot : ROOTINO < m.freeinode) {i : Nat}
    (hi : i < NINODES) : (FileSys.ofDisk m.finish.sect devsw).dinode i =
      update m.fs.dinode ROOTINO m.root i := by
  have hne : sb.iblock i ≠ sb.bmapstart := by
    have : i < 200 := hi
    show i / 8 + 32 ≠ 58
    omega
  rw [← Img.put_dinode (by decide) (h.root_inRange hroot)]
  simp only [FileSys.ofDisk, Img.fs, h.readsb, finish_sect hne, if_pos hi]

/-- The bitmap that the kernel finds. -/
theorem Built.disk_bitmap (h : Built m c) {b : Nat} (hb : b < FSSIZE) :
    (FileSys.ofDisk m.finish.sect devsw).bitmap b = decide (b < m.freeblock) := by
  have hb' : b < 1000 := hb
  have hblk : sb.bblock b = sb.bmapstart := by
    show b / 4096 + 58 = 58
    omega
  have hmod : b % BPB = b := Nat.mod_eq_of_lt (show b < 4096 by omega)
  have hmap : m.finish.sect sb.bmapstart = bitmapOf m.freeblock := by
    simp only [Img.finish, update_self]
  simp only [FileSys.ofDisk, h.readsb, hblk, hmod, hmap, getBit_bitmapOf]

/-- The inodes in use. -/
theorem Built.allocated_iff (h : Built m c) (hroot : ROOTINO < m.freeinode) {i : Nat} :
    (FileSys.ofDisk m.finish.sect devsw).Allocated i ↔ 0 < i ∧ i < m.freeinode := by
  unfold FileSys.Allocated
  rw [h.disk_sb]
  constructor
  · rintro ⟨hi, ht⟩
    rw [h.disk_dinode devsw hroot hi] at ht
    by_cases hr : i = ROOTINO
    · subst hr
      exact ⟨by decide, hroot⟩
    · rw [update_of_ne hr] at ht
      exact h.alloc_iff.mp ⟨hi, by rwa [h.good.coherent.cur]⟩
  · intro hi
    have hin : i < NINODES := hi.2.trans_le h.le
    refine ⟨hin, ?_⟩
    rw [h.disk_dinode devsw hroot hin]
    by_cases hr : i = ROOTINO
    · subst hr
      simp only [update_self, Img.root, h.type hi]
      exact ftype_ne_zero _
    · rw [update_of_ne hr, h.type hi]
      exact ftype_ne_zero i

/-- The blocks of a file are in the same place for the kernel. -/
theorem Built.disk_slot (h : Built m c) (hroot : ROOTINO < m.freeinode) {i : Nat}
    (hi : 0 < i ∧ i < m.freeinode) (k : Nat) :
    slot m.finish.sect ((FileSys.ofDisk m.finish.sect devsw).dinode i) k =
      slot m.sect (m.fs.dinode i) k := by
  have haddrs : ((FileSys.ofDisk m.finish.sect devsw).dinode i).addrs = (m.fs.dinode i).addrs := by
    rw [h.disk_dinode devsw hroot (hi.2.trans_le h.le)]
    by_cases hr : i = ROOTINO
    · subst hr
      rw [update_self]
      rfl
    · rw [update_of_ne hr]
  have hal := h.alloc_iff.mpr hi
  have hcur := h.good.coherent.cur i
  trans slot m.finish.sect (m.fs.dinode i) k
  · unfold slot
    rw [haddrs]
  · refine slot_congr k fun h0 => finish_data ?_
    have := h.good.own.toBase.slot_used (m := NDIRECT) hal (by
      rw [hcur, slot_le (Nat.le_refl _)]
      exact h0)
    rw [hcur, slot_le (Nat.le_refl _)] at this
    exact datastart_eq ▸ this.1

/-- The size of a file in the finished image. -/
theorem Built.disk_size (h : Built m c) (hroot : ROOTINO < m.freeinode) {i : Nat}
    (hi : 0 < i ∧ i < m.freeinode) : ((FileSys.ofDisk m.finish.sect devsw).dinode i).size =
      if i = ROOTINO then roundUp (c i).length else (c i).length := by
  rw [h.disk_dinode devsw hroot (hi.2.trans_le h.le)]
  by_cases hr : i = ROOTINO
  · subst hr
    simp only [update_self, if_true, Img.root, h.size hi]
  · rw [update_of_ne hr, if_neg hr, h.size hi]

theorem Built.disk_type (h : Built m c) (hroot : ROOTINO < m.freeinode) {i : Nat}
    (hi : 0 < i ∧ i < m.freeinode) :
    ((FileSys.ofDisk m.finish.sect devsw).dinode i).type = ftype i := by
  rw [h.disk_dinode devsw hroot (hi.2.trans_le h.le), ← h.type hi]
  by_cases hr : i = ROOTINO
  · subst hr
    simp only [update_self, Img.root]
  · rw [update_of_ne hr]

/-- The kernel finds the blocks that the contents need, and no others. -/
theorem Built.disk_blocks (h : Built m c) (hroot : ROOTINO < m.freeinode) {i : Nat}
    (hi : 0 < i ∧ i < m.freeinode) :
    HasBlocks m.finish.sect ((FileSys.ofDisk m.finish.sect devsw).dinode i)
      (nblk (c i).length) := by
  have hb := h.hasBlocks hi
  have hslot := h.disk_slot devsw hroot hi
  refine ⟨fun bn => ?_, ?_⟩
  · rw [← hb.block bn]
    exact not_congr (Eq.congr_left (hslot _))
  · have := hslot NDIRECT
    rw [slot_le (Nat.le_refl _), slot_le (Nat.le_refl _)] at this
    rw [this]
    exact hb.indirect

/-! ## 2. Images without holes -/

/-- **An image without holes.** -/
structure HoleFree (s : FileSys) : Prop where
  /-- A file has every block that its size asks for. -/
  full : ∀ i, s.Allocated i → ∀ bn, bn < nblk (s.dinode i).size →
    blockOf s.data (s.dinode i) bn ≠ 0
  /-- The block numbers are those of data blocks. -/
  range : ∀ i k, s.Allocated i → s.slotNum i k ≠ 0 → nmeta ≤ s.slotNum i k ∧ s.slotNum i k < FSSIZE
  /-- No block number occurs twice. -/
  once : ∀ i j k l, s.Allocated i → s.Allocated j → s.slotNum i k ≠ 0 →
    s.slotNum i k = s.slotNum j l → i = j ∧ k = l
  /-- The bitmap has the meta blocks and the blocks that occur. -/
  marked : ∀ b, b < FSSIZE → (s.bitmap b = true ↔
    b < nmeta ∨ ∃ i k, s.Allocated i ∧ s.slotNum i k = b)
  /-- `readi` returns, and leaves everything as it was. -/
  readi : ∀ i off n, s.Allocated i → ∃ r, readi i off n (s.loaded i) = .ok (r, s.loaded i)

theorem Built.disk_marked (h : Built m c) (hroot : ROOTINO < m.freeinode) {b : Nat}
    (hb : b < FSSIZE) : (FileSys.ofDisk m.finish.sect devsw).bitmap b = true ↔
      b < nmeta ∨ ∃ i k, (FileSys.ofDisk m.finish.sect devsw).Allocated i ∧
        (FileSys.ofDisk m.finish.sect devsw).slotNum i k = b := by
  rw [h.disk_bitmap devsw hb, decide_eq_true_iff]
  have hmeta : nmeta ≤ m.freeblock := by rw [h.blocks]; omega
  have hslot : ∀ i k, 0 < i ∧ i < m.freeinode →
      (FileSys.ofDisk m.finish.sect devsw).slotNum i k = m.fs.place (i, k) := by
    intro i k hi
    rw [place_of_alloc (h.alloc_iff.mpr hi), h.good.coherent.cur]
    exact h.disk_slot devsw hroot hi k
  constructor
  · intro hlt
    by_cases hm : b < nmeta
    · exact Or.inl hm
    · have hused : m.fs.UsedBlock b :=
        ⟨by show sb.datastart ≤ b; rw [datastart_eq]; omega, hb, decide_eq_true hlt⟩
      obtain ⟨⟨i, k⟩, hk⟩ := h.good.own.ledger.cover b hused
      have hi : Alloc m.fs i := by
        by_contra hno
        rw [place_of_not_alloc hno] at hk
        exact hm (hk ▸ by decide)
      have hi' := h.alloc_iff.mp hi
      exact Or.inr ⟨i, k, (h.allocated_iff devsw hroot).mpr hi', by rw [hslot i k hi', hk]⟩
  · rintro (hm | ⟨i, k, hi, hk⟩)
    · omega
    · rw [hslot i k ((h.allocated_iff devsw hroot).mp hi)] at hk
      by_cases h0 : b = 0
      · have : 0 < nmeta := by decide
        omega
      · have := h.good.own.ledger.mem (i, k) (by rw [hk]; exact h0)
        rw [hk] at this
        exact of_decide_eq_true this.2.2

/-- `readi` of a file that has its blocks. -/
theorem readi_same {s : FileSys} {i : Nat} (hv : s.valid i = false)
    (ht : (s.dinode i).type ≠ T_DEV)
    (hb : HasBlocks s.data (s.dinode i) (nblk (s.dinode i).size)) (off n : Nat) :
    ∃ r, readi i off n (s.loaded i) = .ok (r, s.loaded i) := by
  have hin : (s.loaded i).inode i = s.dinode i := loaded_inode hv
  have hwp : wp (readi i off n) (fun _ s' => s' = s.loaded i) (fun _ => False) (s.loaded i) := by
    have hb' : HasBlocks (s.loaded i).data ((s.loaded i).inode i) (nblk (s.dinode i).size) := by
      rw [hin, loaded_data]
      exact hb
    exact wp_readi_blocks (fun bn => (hb'.block bn).mpr) (by rwa [hin])
      ((Nat.min_le_left _ _).trans (by rw [hin]; exact nblk_mul_ge _)) rfl
  unfold wp at hwp
  split at hwp
  next r s' he => exact ⟨r, by rw [he, hwp]⟩
  next => exact hwp.elim

theorem Built.holeFree_iff (h : Built m c) (hroot : ROOTINO < m.freeinode) :
    HoleFree (FileSys.ofDisk m.finish.sect devsw) ↔ (c ROOTINO).length % BSIZE ≠ 0 := by
  have hal : ∀ {i}, (FileSys.ofDisk m.finish.sect devsw).Allocated i ↔ _ :=
    fun {_} => h.allocated_iff devsw hroot
  have hr : 0 < ROOTINO ∧ ROOTINO < m.freeinode := ⟨by decide, hroot⟩
  rw [← nblk_roundUp_eq]
  constructor
  · intro hf
    have hb := h.disk_blocks devsw hroot hr
    have hsize := h.disk_size devsw hroot hr
    rw [if_pos rfl] at hsize
    by_contra hne
    have hlt : nblk (c ROOTINO).length < nblk (roundUp (c ROOTINO).length) :=
      lt_of_le_of_ne (nblk_mono (le_roundUp _)) (Ne.symm hne)
    have := hf.full ROOTINO (hal.mpr hr) _ (by rw [hsize]; exact hlt)
    exact Nat.lt_irrefl _ ((hb.block _).mp this)
  · intro heq
    have hsize : ∀ i, 0 < i ∧ i < m.freeinode →
        nblk ((FileSys.ofDisk m.finish.sect devsw).dinode i).size = nblk (c i).length := by
      intro i hi
      rw [h.disk_size devsw hroot hi]
      split
      next hi => rw [hi, heq]
      next => rfl
    have hslot : ∀ i k, 0 < i ∧ i < m.freeinode →
        (FileSys.ofDisk m.finish.sect devsw).slotNum i k = slot m.fs.data (m.fs.cur i) k := by
      intro i k hi
      rw [h.good.coherent.cur]
      exact h.disk_slot devsw hroot hi k
    refine ⟨fun i hi bn hbn => ?_, fun i k hi h0 => ?_, fun i j k l hi hj h0 he => ?_,
      fun b hb => h.disk_marked devsw hroot hb, fun i off n hi => ?_⟩
    · rw [hsize i (hal.mp hi)] at hbn
      exact ((h.disk_blocks devsw hroot (hal.mp hi)).block bn).mpr hbn
    · rw [hslot i k (hal.mp hi)] at h0 ⊢
      have := h.good.own.toBase.slot_used (h.alloc_iff.mpr (hal.mp hi)) h0
      exact ⟨datastart_eq ▸ this.1, this.2.1⟩
    · rw [hslot i k (hal.mp hi)] at h0 he
      rw [hslot j l (hal.mp hj)] at he
      exact h.good.own.toBase.slot_inj (h.alloc_iff.mpr (hal.mp hi)) (h.alloc_iff.mpr (hal.mp hj))
        h0 he
    · refine readi_same rfl ?_ ?_ off n
      · rw [h.disk_type devsw hroot (hal.mp hi)]
        exact ftype_ne_dev i
      · rw [hsize i (hal.mp hi)]
        exact h.disk_blocks devsw hroot (hal.mp hi)

/-- `balloc` outside of a transaction. -/
theorem wp_balloc_outside {s : FileSys} {b : Nat} (hb : b < s.sb.size) (hbit : s.bitmap b = false)
    (hlog : s.sb.nlog = LOGSIZE) (hlh : s.lh = []) (hout : s.outstanding = 0) {E : Panic → Prop}
    {Q : Nat → FileSys → Prop} (hE : E .outsideOfTrans) : wp Fs.balloc Q E s := by
  obtain ⟨c, hc⟩ : ∃ c, (List.range s.sb.size).find? (fun b => !s.bitmap b) = some c := by
    rw [← Option.isSome_iff_exists, List.find?_isSome]
    exact ⟨b, List.mem_range.mpr hb, by rw [hbit]; rfl⟩
  have hspace : ¬ (s.lh.length ≥ LOGSIZE ∨ s.lh.length ≥ s.sb.nlog - 1) := by
    rw [hlh, hlog]
    decide
  simp only [Fs.balloc, wp_bind, wp_get, hc, wp_set, logWrite, if_neg hspace,
    if_pos (show s.outstanding < 1 by omega), wp_throw]
  exact hE

/-- **A read in the hole panics.**  `fileread` is not in a transaction, and `bmap` allocates the
missing block. -/
theorem Built.readi_hole (h : Built m c) (hroot : ROOTINO < m.freeinode)
    (hfull : (c ROOTINO).length % BSIZE = 0) (hsmall : (c ROOTINO).length < NDIRECT * BSIZE)
    (hroom : m.freeblock < FSSIZE) :
    readi ROOTINO (c ROOTINO).length DESIZE
      ((FileSys.ofDisk m.finish.sect devsw).loaded ROOTINO) = .error .outsideOfTrans := by
  have hr : 0 < ROOTINO ∧ ROOTINO < m.freeinode := ⟨by decide, hroot⟩
  set s := FileSys.ofDisk m.finish.sect devsw with hs
  have hin : (s.loaded ROOTINO).inode ROOTINO = s.dinode ROOTINO := loaded_inode rfl
  have htype : (s.dinode ROOTINO).type ≠ T_DEV := by
    rw [h.disk_type devsw hroot hr]
    exact ftype_ne_dev _
  have hsize := h.disk_size devsw hroot hr
  rw [← hs, if_pos rfl] at hsize
  have hbn : (c ROOTINO).length / BSIZE < NDIRECT := Nat.div_lt_of_lt_mul (by rwa [Nat.mul_comm])
  have haddr : (s.dinode ROOTINO).addrs ((c ROOTINO).length / BSIZE) = 0 := by
    by_contra hne
    have hlt := ((h.disk_blocks devsw hroot hr).block ((c ROOTINO).length / BSIZE)).mp
      (by rwa [blockOf_direct hbn])
    simp only [nblk, BSIZE] at hlt hfull
    omega
  have hbit : s.bitmap m.freeblock = false := by
    rw [h.disk_bitmap devsw hroom]
    exact decide_eq_false (Nat.lt_irrefl _)
  have hfree : m.freeblock < s.sb.size := by
    rw [h.disk_sb]
    exact hroom
  have hlog : s.sb.nlog = LOGSIZE := by
    rw [h.disk_sb]
    decide
  obtain ⟨hbad, hn⟩ := roundUp_read hfull (hsmall.trans_le (by decide))
  refine wp_error ?_
  simp only [readi, wp_bind, wp_get, hin, if_neg htype, hsize, if_neg hbad, if_neg hn]
  rw [show DESIZE = 15 + 1 from rfl, readLoop, if_neg (Nat.succ_ne_zero 15)]
  simp only [wp_bind, bmap, wp_get, hin, if_pos hbn, if_pos haddr]
  exact wp_balloc_outside (by rw [loaded_sb]; exact hfree) (by rw [loaded_bitmap]; exact hbit)
    (by rw [loaded_sb]; exact hlog) (by rw [loaded_lh]; rfl) (by rw [loaded_outstanding]; rfl) rfl

end

/-! ## 3. The number of files -/

/-- `n` empty files, named by the letters from `a` on. -/
def letters (n : Nat) : List HostFile :=
  (List.range n).map fun k => ⟨[UInt8.ofNat (97 + k)], [], nofun, nofun⟩

/-- **The image that `mkfs` makes has no hole exactly when the entries of the root directory do not
fill its last block.**  There are 32 entries in a block, and `.` and `..` are two of them. -/
theorem mkfs_holeFree_iff {files : List HostFile} {img : Img} (h : mkfs files = .ok img)
    (hn : files.length + 1 < NINODES) (devsw : Nat → Dev) :
    HoleFree (FileSys.ofDisk img.sect devsw) ↔ (files.length + 2) % 32 ≠ 0 := by
  obtain ⟨m, hm, hfi, rfl⟩ := built_of_mkfs h hn
  rw [hm.holeFree_iff devsw (by rw [hfi]; show 1 < _; omega), contents_root_length]
  simp only [DESIZE, BSIZE]
  omega

theorem mkfs_holeFree_iff_letter : ∃ img, mkfs (letters 1) = .ok img ∧
    HoleFree (FileSys.ofDisk img.sect fun _ => ⟨none, none⟩) := by
  have hfits : Fits (letters 1) := ⟨by decide, by decide, by decide⟩
  obtain ⟨img, h⟩ := mkfs_ok hfits.inodes (by decide) hfits.roomFor
  exact ⟨img, h, (mkfs_holeFree_iff h (by decide) _).mpr (by decide)⟩

/-- **Thirty files make a hole**: with `.` and `..` their entries fill a block, and the image says
that the root directory has two.  A read of the second one panics. -/
theorem mkfs_hole : ((letters 30).map HostFile.name).Nodup ∧ Fits (letters 30) ∧
    ∃ img, mkfs (letters 30) = .ok img ∧
      ¬ HoleFree (FileSys.ofDisk img.sect fun _ => ⟨none, none⟩) ∧
      readi ROOTINO BSIZE DESIZE
        ((FileSys.ofDisk img.sect fun _ => ⟨none, none⟩).loaded ROOTINO) =
          .error .outsideOfTrans := by
  have hfits : Fits (letters 30) := ⟨by decide, by decide, by decide⟩
  obtain ⟨img, h⟩ := mkfs_ok hfits.inodes (by decide) hfits.roomFor
  refine ⟨by decide, hfits, img, h, ?_⟩
  obtain ⟨m, hm, hfi, rfl⟩ := built_of_mkfs h hfits.inodes
  have hroot : ROOTINO < m.freeinode := by rw [hfi]; decide
  have hlen : (contents (letters 30) ROOTINO).length = BSIZE := contents_root_length _
  have hroom : m.freeblock < FSSIZE := by
    rw [hm.blocks, total_contents hfits.inodes]
    decide
  have hread := hm.readi_hole (fun _ => ⟨none, none⟩) hroot (by rw [hlen]; rfl)
    (by rw [hlen]; decide) hroom
  rw [hlen] at hread
  exact ⟨fun hf => (hm.holeFree_iff _ hroot).mp hf (by rw [hlen]; rfl), hread⟩

end Xv6.Mkfs
