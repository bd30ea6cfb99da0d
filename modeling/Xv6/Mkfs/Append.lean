/-
# What `iappend` does to the image

`mkfs` and the kernel have each their own code for the blocks of a file.  An image that is being
built is read here as a file system of the kernel (`Img.fs`), in which the blocks below
`freeblock` are the ones in use: then `iappend` is a `writei` at the end of the file, and the
lemmas about `bmap`'s stores (`stored_direct`, `stored_indirect`) and about the progress of a
write (`Writing`) say what its passes do.  While `iappend` runs, its `din` is the cached inode
(`Img.opened`).

`Built` is the state between two appends.
-/
import Xv6.Mkfs.Program

namespace Xv6.Mkfs

open Function (update update_eq_self update_idem update_of_ne update_self)

open Fs Bytes

/-! ## 1. An image as a file system -/

/-- The image as the kernel would see it, with a bitmap made from `freeblock`. -/
def Img.fs (m : Img) : FileSys where
  sb := sb
  dinode i := if i < NINODES then loadDinode (m.sect (sb.iblock i)) (i % IPB) else Dinode.zero
  bitmap b := b < m.freeblock
  data := m.sect
  inode _ := Dinode.zero
  ref _ := 0
  valid _ := false
  lock _ := none
  used := []
  outstanding := 0
  lh := []
  devsw _ := ⟨none, none⟩

/-- While `iappend(inum, ..)` runs with its copy `din` of the inode. -/
def Img.opened (m : Img) (inum : Nat) (din : Dinode) : FileSys :=
  { m.fs with
    inode := Function.update m.fs.inode inum din
    valid := Function.update m.fs.valid inum true }

/-- The image after `winode(inum, d)`. -/
def Img.put (m : Img) (inum : Nat) (d : Dinode) : Img :=
  { m with
    sect := Function.update m.sect (sb.iblock inum)
      (storeDinode (m.sect (sb.iblock inum)) (inum % IPB) d) }

theorem datastart_eq : sb.datastart = nmeta := rfl

theorem iblock_lt {inum : Nat} (h : inum < NINODES) : sb.iblock inum < nmeta := by
  have : inum < 200 := h
  show inum / 8 + 32 < 59
  omega

section

variable {m : Img} {inum : Nat} {d : Dinode}

theorem iblock_ge (inum : Nat) : 32 ≤ sb.iblock inum := by
  show 32 ≤ inum / 8 + 32
  omega

theorem Img.put_sect_of_ne {b : Nat} (h : b ≠ sb.iblock inum) : (m.put inum d).sect b = m.sect b :=
  update_of_ne h _ _

/-- The data blocks are left alone. -/
theorem Img.put_sect_data (h : inum < NINODES) {b : Nat} (hb : nmeta ≤ b) :
    (m.put inum d).sect b = m.sect b :=
  Img.put_sect_of_ne (by have := iblock_lt h; omega)

/-- An inode that is written changes, and no other. -/
theorem Img.put_dinode (h : inum < NINODES) (hd : d.InRange) :
    (m.put inum d).fs.dinode = update m.fs.dinode inum d := by
  funext i
  by_cases hi : i < NINODES
  · by_cases e : i = inum
    · subst e
      simp only [Img.fs, Img.put, if_pos hi, update_self]
      exact loadDinode_storeDinode _ _ hd
    · rw [update_of_ne e]
      simp only [Img.fs, Img.put, if_pos hi]
      by_cases hblk : sb.iblock i = sb.iblock inum
      · -- two inodes of one block
        have hq : i / IPB = inum / IPB := Nat.add_right_cancel hblk
        have hmod : i % IPB ≠ inum % IPB := fun hm =>
          e (by rw [← Nat.div_add_mod i IPB, ← Nat.div_add_mod inum IPB, hq, hm])
        rw [hblk, update_self, loadDinode_storeDinode_ne _ _ hmod]
      · rw [update_of_ne hblk]
  · have hne : i ≠ inum := fun e => hi (e ▸ h)
    rw [update_of_ne hne]
    simp only [Img.fs, if_neg hi]

theorem wp_winode {Q : Unit → Img → Prop} {E : Exit → Prop} (hs : m.nsect = FSSIZE)
    (hi : inum < NINODES) (hQ : Q () (m.put inum d)) : wp (winode inum d) Q E m := by
  have hlt : sb.iblock inum < FSSIZE := (iblock_lt hi).trans (by decide)
  simp only [winode, rsect, wsect, wp_bind, wp_get, if_pos (hs ▸ hlt), wp_pure, wp_modify]
  rw [Nat.max_eq_left (by omega)]
  exact hQ

theorem wp_rinode {Q : Dinode → Img → Prop} {E : Exit → Prop} (hs : m.nsect = FSSIZE)
    (hi : inum < NINODES) (hQ : Q (m.fs.dinode inum) m) : wp (rinode inum) Q E m := by
  have hlt : sb.iblock inum < FSSIZE := (iblock_lt hi).trans (by decide)
  simp only [rinode, rsect, wp_bind, wp_get, if_pos (hs ▸ hlt), wp_pure]
  simp only [Img.fs, if_pos hi] at hQ
  exact hQ

theorem Img.fs_inRange (h : inum < NINODES) : (m.fs.dinode inum).InRange := by
  simp only [Img.fs, if_pos h]
  exact loadDinode_inRange _ _

theorem Img.fs_coherent : Coherent m.fs := fun _ hv => Bool.noConfusion hv

/-- Opening an inode leaves the files alone. -/
theorem Good.opened (h : Good m.fs) (ha : Alloc m.fs inum) :
    Good (m.opened inum (m.fs.dinode inum)) ∧
      (m.opened inum (m.fs.dinode inum)).view = m.fs.view := by
  have hcoh : Coherent (m.opened inum (m.fs.dinode inum)) := by
    intro i hi
    by_cases e : i = inum
    · subst e
      simp only [Img.opened, update_self]
      exact ⟨ha.1, trivial, ha.2⟩
    · simp only [Img.opened, update_of_ne e] at hi
      exact Bool.noConfusion hi
  exact h.of_cur rfl rfl rfl (fun i => by rw [hcoh.cur, h.coherent.cur]; rfl) hcoh

end

/-! ## 2. One block -/

/-- The blocks that a file of `nb` blocks takes, with its indirect block. -/
def cost (nb : Nat) : Nat := nb + if NDIRECT < nb then 1 else 0

theorem cost_mono {a b : Nat} (h : a ≤ b) : cost a ≤ cost b := by
  unfold cost
  split <;> split <;> omega

theorem cost_lt (nb : Nat) : cost nb < cost (nb + 1) := by
  unfold cost
  split <;> split <;> omega

/-- `iappend(inum, ..)`, started in `m₀`, has reached `m` with `din`: the file has `nb` blocks and
its bytes are `f`. -/
structure Appending (m₀ m : Img) (inum : Nat) (din : Dinode) (nb : Nat) (f : Nat → UInt8) :
    Prop where
  writing : Writing (m₀.opened inum (m₀.fs.dinode inum)) (m.opened inum din) inum nb f
  nsect : m.nsect = FSSIZE
  freeinode : m.freeinode = m₀.freeinode
  inRange : din.InRange
  meta_le : nmeta ≤ m.freeblock
  room : m.freeblock ≤ FSSIZE
  taken : m.freeblock + cost (nblk (m₀.fs.dinode inum).size) = m₀.freeblock + cost nb
  zero : ∀ b, m.freeblock ≤ b → m.sect b = zeroes
  low : ∀ b, b < nmeta → m.sect b = m₀.sect b

section

variable {m₀ m : Img} {inum : Nat} {din : Dinode} {nb : Nat} {f : Nat → UInt8}

theorem bitmap_succ {b : Nat} (hb : m.freeblock = b) :
    update (fun x => decide (x < m.freeblock)) b true = fun x => decide (x < b + 1) := by
  funext x
  by_cases e : x = b
  · rw [e, update_self, decide_eq_true (Nat.lt_succ_self b)]
  · rw [update_of_ne e, hb]
    exact decide_eq_decide.mpr (by omega)

theorem data_zero {b : Nat} (hz : m.sect b = zeroes) :
    update m.sect b (fun _ => 0) = m.sect := by
  rw [show (fun _ => 0) = m.sect b from hz.symm, update_eq_self]

/-- A data block holds no inodes. -/
theorem dinode_write {b : Nat} {x : Bytes} (hb : nmeta ≤ b) :
    ({ m with sect := update m.sect b x } : Img).fs.dinode = m.fs.dinode := by
  funext i
  by_cases hi : i < NINODES
  · have hne : sb.iblock i ≠ b := by have := iblock_lt hi; omega
    simp only [Img.fs, update_of_ne hne]
  · simp only [Img.fs, if_neg hi]

/-- The next free block, when it is put into `din`. -/
theorem opened_direct {b k : Nat} (hb : m.freeblock = b) (hz : m.sect b = zeroes) :
    ({ m.opened inum din with
      bitmap := update (m.opened inum din).bitmap b true
      data := update (m.opened inum din).data b fun _ => 0
      inode := update (m.opened inum din).inode inum
        { (m.opened inum din).inode inum with
          addrs := update ((m.opened inum din).inode inum).addrs k b }
      lh := [] } : FileSys) =
    ({ m with freeblock := b + 1 } : Img).opened inum
      { din with addrs := update din.addrs k b } := by
  simp only [Img.opened, Img.fs, update_self, update_idem, bitmap_succ hb,
    data_zero hz]

/-- The same, for an entry of the indirect block. -/
theorem opened_indirect {b k ind : Nat} (hb : m.freeblock = b) (hz : m.sect b = zeroes)
    (hind : din.addrs NDIRECT = ind) (hmeta : nmeta ≤ ind) :
    ({ m.opened inum din with
      bitmap := update (m.opened inum din).bitmap b true
      data := update (update (m.opened inum din).data b fun _ => 0)
        (((m.opened inum din).inode inum).addrs NDIRECT)
        (setWord (update (m.opened inum din).data b (fun _ => 0)
          (((m.opened inum din).inode inum).addrs NDIRECT)) k b)
      lh := [] } : FileSys) =
    ({ m with
      sect := update m.sect ind (setWord (m.sect ind) k b)
      freeblock := b + 1 } : Img).opened inum din := by
  have hdinode := dinode_write (m := m) (x := setWord (m.sect ind) k b) hmeta
  simp only [Img.fs] at hdinode
  simp only [Img.opened, Img.fs, update_self, bitmap_succ hb, data_zero hz, hind, hdinode]

theorem opened_valid : (m.opened inum din).valid inum = true := update_self ..

theorem opened_inode : (m.opened inum din).inode inum = din := update_self ..

theorem opened_cur : (m.opened inum din).cur inum = din :=
  (cur_of_valid opened_valid).trans opened_inode

theorem opened_free : (m.opened inum din).bitmap m.freeblock = false :=
  decide_eq_false (Nat.lt_irrefl _)

theorem addrs_inRange (h : din.InRange) {k b : Nat} (hk : k ≤ NDIRECT) (hb : b < FSSIZE) :
    Dinode.InRange { din with addrs := update din.addrs k b } := by
  have hsmall : FSSIZE < 2 ^ 32 := by decide
  refine ⟨h.type, h.major, h.minor, h.nlink, h.size, fun i => ?_, fun i hi => ?_⟩
  · by_cases e : i = k
    · simp only [e, update_self]
      omega
    · simp only [update_of_ne e]
      exact h.addrs i
  · simp only [update_of_ne (show i ≠ k by omega)]
    exact h.addrs_zero i hi

/-- The next free block in a direct slot. -/
theorem stored_opened_direct (h : Base (m.opened inum din)) (ha : Alloc (m.opened inum din) inum)
    {k : Nat} (hk : k ≤ NDIRECT) (h0 : din.addrs k = 0) (hb : m.freeblock < FSSIZE)
    (hz : m.sect m.freeblock = zeroes) :
    Stored (m.opened inum din) (({ m with freeblock := m.freeblock + 1 } : Img).opened inum
      { din with addrs := update din.addrs k m.freeblock }) inum k m.freeblock := by
  have := stored_direct h opened_valid ha hk (by rw [opened_inode]; exact h0) opened_free hb []
  rwa [opened_direct rfl hz] at this

/-- The next free block in the indirect block. -/
theorem stored_opened_indirect (h : Base (m.opened inum din))
    (ha : Alloc (m.opened inum din) inum) {j : Nat} (hj : j < NINDIRECT)
    (hind : din.addrs NDIRECT ≠ 0) (h0 : getWord (m.sect (din.addrs NDIRECT)) j = 0)
    (hb : m.freeblock < FSSIZE) (hz : m.sect m.freeblock = zeroes) :
    Stored (m.opened inum din) (({ m with
        sect := update m.sect (din.addrs NDIRECT)
          (setWord (m.sect (din.addrs NDIRECT)) j m.freeblock)
        freeblock := m.freeblock + 1 } : Img).opened inum din)
      inum (NDIRECT + 1 + j) m.freeblock := by
  have hmeta : nmeta ≤ din.addrs NDIRECT := by
    have := h.slot_used (m := NDIRECT) ha (by rwa [opened_cur, slot_le (Nat.le_refl _)])
    rw [opened_cur, slot_le (Nat.le_refl _)] at this
    exact datastart_eq ▸ this.1
  have := stored_indirect h opened_valid ha hj (by rwa [opened_inode])
    (by rw [opened_inode]; exact h0) opened_free hb []
  rwa [opened_indirect rfl hz rfl hmeta] at this

/-- A direct block. -/
theorem grown_direct (h : Base (m.opened inum din)) (ha : Alloc (m.opened inum din) inum)
    (hd : nb < NDIRECT) (h0 : din.addrs nb = 0) (hb : m.freeblock < FSSIZE)
    (hz : m.sect m.freeblock = zeroes) :
    Grown (m.opened inum din) (({ m with freeblock := m.freeblock + 1 } : Img).opened inum
      { din with addrs := update din.addrs nb m.freeblock }) inum nb m.freeblock := by
  have hs : slotOf nb = nb := if_pos hd
  refine Stored.grown ?_ fun hle => by omega
  rw [hs]
  exact stored_opened_direct h ha (by omega) h0 hb hz

/-- A block in the indirect block. -/
theorem grown_indirect (h : Base (m.opened inum din)) (ha : Alloc (m.opened inum din) inum)
    (hd : NDIRECT ≤ nb) (hj : nb - NDIRECT < NINDIRECT) (hind : din.addrs NDIRECT ≠ 0)
    (h0 : getWord (m.sect (din.addrs NDIRECT)) (nb - NDIRECT) = 0) (hb : m.freeblock < FSSIZE)
    (hz : m.sect m.freeblock = zeroes) :
    Grown (m.opened inum din) (({ m with
        sect := update m.sect (din.addrs NDIRECT)
          (setWord (m.sect (din.addrs NDIRECT)) (nb - NDIRECT) m.freeblock)
        freeblock := m.freeblock + 1 } : Img).opened inum din) inum nb m.freeblock := by
  have hs : slotOf nb = NDIRECT + 1 + (nb - NDIRECT) := by
    unfold slotOf
    rw [if_neg (by omega)]
    omega
  refine Stored.grown ?_ fun _ => by rwa [opened_cur]
  rw [hs]
  exact stored_opened_indirect h ha hj hind h0 hb hz

/-- The indirect block, and the first block in it. -/
theorem grown_first (h : Base (m.opened inum din)) (ha : Alloc (m.opened inum din) inum)
    (hind : din.addrs NDIRECT = 0) (hb : m.freeblock + 1 < FSSIZE)
    (hz : ∀ b, m.freeblock ≤ b → m.sect b = zeroes) :
    Grown (m.opened inum din) (({ m with
        sect := update m.sect m.freeblock
          (setWord (m.sect m.freeblock) (NDIRECT - NDIRECT) (m.freeblock + 1))
        freeblock := m.freeblock + 1 + 1 } : Img).opened inum
      { din with addrs := update din.addrs NDIRECT m.freeblock })
      inum NDIRECT (m.freeblock + 1) := by
  have hst := stored_opened_direct h ha (Nat.le_refl _) hind (by omega) (hz _ (Nat.le_refl _))
  refine hst.grown_indirect ha ?_
  have hst' := stored_opened_indirect (j := NDIRECT - NDIRECT) hst.base
    ((hst.alloc_iff inum).mpr ha) (by decide)
    (by simp only [update_self]; exact hst.ne_zero)
    (by simp only [update_self, hz _ (Nat.le_refl _)]; exact getWord_zero _) hb
    (hz _ (Nat.le_succ _))
  simp only [update_self] at hst'
  exact hst'

/-- A block of the file is on the disk, behind the meta blocks. -/
theorem Appending.slot_mem (h : Appending m₀ m inum din nb f)
    (ha : Alloc (m₀.opened inum (m₀.fs.dinode inum)) inum) {k : Nat} (h0 : slot m.sect din k ≠ 0) :
    nmeta ≤ slot m.sect din k ∧ slot m.sect din k < m.freeblock ∧ slot m.sect din k < FSSIZE := by
  have := h.writing.base.slot_used (m := k) ((h.writing.alloc_iff inum).mpr ha)
    (by rw [opened_cur]; exact h0)
  rw [opened_cur] at this
  exact ⟨datastart_eq ▸ this.1, of_decide_eq_true this.2.2, this.2.1⟩

/-- Not enough room for `nb` blocks of the file. -/
def Full (m₀ : Img) (inum nb : Nat) : Prop :=
  FSSIZE + cost (nblk (m₀.fs.dinode inum).size) < m₀.freeblock + cost nb

theorem Full.mono {nb' : Nat} (h : Full m₀ inum nb) (hle : nb ≤ nb') : Full m₀ inum nb' :=
  Nat.lt_of_lt_of_le h (Nat.add_le_add_left (cost_mono hle) _)

theorem wp_newBlock {Q : Nat → Img → Prop} {E : Exit → Prop}
    (hQ : Q m.freeblock { m with freeblock := m.freeblock + 1 }) : wp newBlock Q E m := hQ

theorem wp_rsect {sec : Nat} {Q : Bytes → Img → Prop} {E : Exit → Prop} (h : sec < m.nsect)
    (hQ : Q (m.sect sec) m) : wp (rsect sec) Q E m := by
  simp only [rsect, wp_bind, wp_get, if_pos h, wp_pure]
  exact hQ

theorem wp_rsect_end {sec : Nat} {Q : Bytes → Img → Prop} {E : Exit → Prop} (h : m.nsect ≤ sec)
    (hE : E .perror) : wp (rsect sec) Q E m := by
  simp only [rsect, wp_bind, wp_get, if_neg (Nat.not_lt.mpr h), wp_throw]
  exact hE

theorem wp_wsect {sec : Nat} {buf : Bytes} {Q : Unit → Img → Prop} {E : Exit → Prop}
    (h : sec < m.nsect) (hQ : Q () { m with sect := update m.sect sec buf }) :
    wp (wsect sec buf) Q E m := by
  simp only [wsect, wp_modify]
  rw [Nat.max_eq_left (by omega)]
  exact hQ

/-- The file with another block, which was the next free one. -/
theorem Appending.grown (h : Appending m₀ m inum din nb f)
    (ha : Alloc (m₀.opened inum (m₀.fs.dinode inum)) inum) {m' : Img} {din' : Dinode} {b : Nat}
    (hg : Grown (m.opened inum din) (m'.opened inum din') inum nb b)
    (hs : m'.nsect = m.nsect) (hfi : m'.freeinode = m.freeinode) (hd : din'.InRange)
    (hfb : m'.freeblock + cost nb = m.freeblock + cost (nb + 1)) (hroom : m'.freeblock ≤ FSSIZE)
    (hsect : ∀ c, c < nmeta ∨ m'.freeblock ≤ c → m'.sect c = m.sect c) :
    Appending m₀ m' inum din' (nb + 1) f := by
  have hcost := cost_lt nb
  have hmeta := h.meta_le
  have htaken := h.taken
  refine ⟨h.writing.grow ha hg, hs.trans h.nsect, hfi.trans h.freeinode, hd, by omega, hroom,
    by omega, fun c hc => ?_, fun c hc => ?_⟩
  · rw [hsect c (Or.inr hc)]
    exact h.zero c (by omega)
  · rw [hsect c (Or.inl hc)]
    exact h.low c hc

/-- `blockFor` finds the block, or takes the next free ones.  The number of a block that is not
on the disk any more is found out by the `rsect` that follows. -/
theorem Appending.wp_blockFor (h : Appending m₀ m inum din nb f)
    (ha : Alloc (m₀.opened inum (m₀.fs.dinode inum)) inum) {fbn : Nat} (hle : fbn ≤ nb)
    (hmax : fbn < MAXFILE) {Q : Nat × Dinode → Img → Prop} {E : Exit → Prop}
    (hQ : ∀ m' din', Appending m₀ m' inum din' (max nb (fbn + 1)) f →
      Q (blockOf m'.sect din' fbn, din') m')
    (hfull : ∀ x din' m', Full m₀ inum (max nb (fbn + 1)) → m'.nsect ≤ x → Q (x, din') m')
    (hE : Full m₀ inum (max nb (fbn + 1)) → E .perror) : wp (blockFor din fbn) Q E m := by
  have hblocks : HasBlocks m.sect din nb := by
    have := h.writing.blocks
    rwa [opened_cur] at this
  have hal := (h.writing.alloc_iff inum).mpr ha
  have hbase := h.writing.base
  have hmaxf : MAXFILE = NDIRECT + NINDIRECT := rfl
  have hind_mem : din.addrs NDIRECT ≠ 0 →
      nmeta ≤ din.addrs NDIRECT ∧ din.addrs NDIRECT < m.freeblock ∧
        din.addrs NDIRECT < m.nsect := by
    intro h0
    have := h.slot_mem ha (k := NDIRECT) (by rwa [slot_le (Nat.le_refl _)])
    rwa [slot_le (Nat.le_refl _), ← h.nsect] at this
  unfold blockFor
  rcases Nat.lt_or_ge fbn nb with hlt | hge
  · -- the block is there
    rw [Nat.max_eq_left hlt] at hQ
    have h0 : blockOf m.sect din fbn ≠ 0 := (hblocks.block fbn).mpr hlt
    have hdone := hQ m din h
    by_cases hd : fbn < NDIRECT
    · rw [blockOf_direct hd] at h0 hdone
      rw [if_pos hd, if_neg h0, wp_pure]
      exact hdone
    · obtain ⟨hind, hj⟩ := indirect_of_blockOf (by omega) h0
      rw [blockOf_indirect (by omega) hj hind] at h0 hdone
      rw [if_neg hd, if_neg hind, pure_bind, wp_bind]
      refine wp_rsect (hind_mem hind).2.2 ?_
      rw [if_neg h0, wp_pure]
      exact hdone
  · -- it is the next one
    obtain rfl : fbn = nb := Nat.le_antisymm hle hge
    rw [Nat.max_eq_right (Nat.le_add_right fbn 1)] at hQ hfull hE
    have hnone : blockOf m.sect din fbn = 0 := by
      by_contra hne
      exact Nat.lt_irrefl fbn ((hblocks.block fbn).mp hne)
    have hdone : ∀ m' din' b, Grown (m.opened inum din) (m'.opened inum din') inum fbn b →
        m'.nsect = m.nsect → m'.freeinode = m.freeinode → din'.InRange →
        m'.freeblock + cost fbn = m.freeblock + cost (fbn + 1) → m'.freeblock ≤ FSSIZE →
        (∀ c, c < nmeta ∨ m'.freeblock ≤ c → m'.sect c = m.sect c) → Q (b, din') m' := by
      intro m' din' b hg hs hfi hd hfb hroom hsect
      have hblk := hg.block inum fbn hal
      rw [if_pos ⟨rfl, rfl⟩, opened_cur] at hblk
      rw [← hblk]
      exact hQ m' din' (h.grown ha hg hs hfi hd hfb hroom hsect)
    have hend : FSSIZE < m.freeblock + (cost (fbn + 1) - cost fbn) → Full m₀ inum (fbn + 1) := by
      have htaken := h.taken
      have hcost := cost_lt fbn
      unfold Full
      omega
    by_cases hd : fbn < NDIRECT
    · have hc : cost (fbn + 1) = cost fbn + 1 := by
        unfold cost
        rw [if_neg (by omega), if_neg (by omega)]
      rw [blockOf_direct hd] at hnone
      rw [if_pos hd, if_pos hnone, wp_bind]
      refine wp_newBlock ?_
      rw [wp_pure]
      by_cases hb : m.freeblock < FSSIZE
      · exact hdone _ _ _ (grown_direct hbase hal hd hnone hb (h.zero _ (Nat.le_refl _))) rfl rfl
          (addrs_inRange h.inRange (by omega) hb) (by simp only; omega) hb fun _ _ => rfl
      · exact hfull _ _ _ (hend (by omega)) (by rw [h.nsect]; omega)
    · have hj : fbn - NDIRECT < NINDIRECT := by omega
      rw [if_neg hd]
      by_cases hind : din.addrs NDIRECT = 0
      · -- there is no indirect block yet, so this is block `NDIRECT`
        obtain rfl : fbn = NDIRECT := by
          have : ¬ NDIRECT < fbn := fun hl => hblocks.indirect.mpr hl hind
          omega
        have hc : cost (NDIRECT + 1) = cost NDIRECT + 2 := by decide
        rw [if_pos hind]
        simp only [wp_bind]
        refine wp_newBlock ?_
        simp only [wp_pure, update_self]
        have hz := h.zero _ (Nat.le_refl _)
        by_cases hb : m.freeblock < FSSIZE
        · refine wp_rsect (by simp only [h.nsect]; exact hb) ?_
          have h0 : getWord (m.sect m.freeblock) (NDIRECT - NDIRECT) = 0 := by
            rw [hz]
            exact getWord_zero _
          simp only [if_pos h0, wp_bind]
          refine wp_newBlock (wp_wsect (by simp only [h.nsect]; exact hb) ?_)
          rw [wp_pure]
          by_cases hb' : m.freeblock + 1 < FSSIZE
          · exact hdone _ _ _ (grown_first hbase hal hind hb' h.zero) rfl rfl
              (addrs_inRange h.inRange (Nat.le_refl _) hb) (by simp only; omega) hb' fun c hcc =>
                update_of_ne (by have := h.meta_le; simp only at hcc; omega) _ _
          · exact hfull _ _ _ (hend (by omega)) (by simp only [h.nsect]; omega)
        · exact wp_rsect_end (by simp only [h.nsect]; omega) (hE (hend (by omega)))
      · have hc : cost (fbn + 1) = cost fbn + 1 := by
          have hl := hblocks.indirect.mp hind
          unfold cost
          rw [if_pos hl, if_pos (by omega)]
        have hmem := hind_mem hind
        rw [blockOf_indirect (by omega) hj hind] at hnone
        rw [if_neg hind, pure_bind, wp_bind]
        refine wp_rsect hmem.2.2 ?_
        rw [if_pos hnone, wp_bind]
        refine wp_newBlock ?_
        rw [wp_bind]
        refine wp_wsect hmem.2.2 ?_
        rw [wp_pure]
        by_cases hb : m.freeblock < FSSIZE
        · exact hdone _ _ _ (grown_indirect hbase hal (by omega) hj hind hnone hb
            (h.zero _ (Nat.le_refl _))) rfl rfl h.inRange (by simp only; omega) hb fun c hcc =>
              update_of_ne (by simp only at hcc; omega) _ _
        · exact hfull _ _ _ (hend (by omega)) (by simp only [h.nsect]; omega)

/-! ## 3. The loop -/

theorem opened_write {b : Nat} {x : Bytes} (hb : nmeta ≤ b) :
    ({ m.opened inum din with
      data := update (m.opened inum din).data b x
      lh := [] } : FileSys) =
    ({ m with sect := update m.sect b x } : Img).opened inum din := by
  have hdinode := dinode_write (m := m) (x := x) hb
  simp only [Img.fs] at hdinode
  simp only [Img.opened, Img.fs, hdinode]

/-- Bytes copied into a block of the file. -/
theorem Appending.splice (h : Appending m₀ m inum din nb f)
    (ha : Alloc (m₀.opened inum (m₀.fs.dinode inum)) inum) {off : Nat} {src : List UInt8}
    (hbn : off / BSIZE < nb) (hfit : off % BSIZE + src.length ≤ BSIZE) :
    Appending m₀ { m with
      sect := update m.sect (blockOf m.sect din (off / BSIZE))
        (Bytes.splice (m.sect (blockOf m.sect din (off / BSIZE))) (off % BSIZE) src) }
      inum din nb (Bytes.splice f off src) := by
  have hblocks := h.writing.blocks
  rw [opened_cur] at hblocks
  obtain ⟨hmeta, hfree, -⟩ : nmeta ≤ blockOf m.sect din (off / BSIZE) ∧
      blockOf m.sect din (off / BSIZE) < m.freeblock ∧ _ :=
    h.slot_mem ha (k := slotOf (off / BSIZE)) ((hblocks.block _).mpr hbn)
  have hw := h.writing.splice ha hbn hfit []
  rw [opened_cur] at hw
  refine ⟨?_, h.nsect, h.freeinode, h.inRange, h.meta_le, h.room, h.taken, fun c hc => ?_,
    fun c hc => ?_⟩
  · rw [← opened_write hmeta]
    exact hw
  · have hne : c ≠ blockOf m.sect din (off / BSIZE) := by simp only at hc; omega
    simp only [update_of_ne hne]
    exact h.zero c hc
  · have hne : c ≠ blockOf m.sect din (off / BSIZE) := by omega
    simp only [update_of_ne hne]
    exact h.low c hc

/-- **The loop of `iappend`.**  It ends with the bytes in the file, or because the file or the disk
is too small for them. -/
theorem wp_iappendLoop (ha : Alloc (m₀.opened inum (m₀.fs.dinode inum)) inum) {E : Exit → Prop} :
    ∀ (fuel off : Nat) (p : List UInt8) (m : Img) (din : Dinode) (nb : Nat) (f : Nat → UInt8),
      p.length ≤ fuel → off ≤ nb * BSIZE → Appending m₀ m inum din nb f →
      (MAXFILE * BSIZE < off + p.length → E .assert) →
      (Full m₀ inum (max nb (nblk (off + p.length))) → E .perror) →
      ∀ {Q : Dinode × Nat → Img → Prop},
      (∀ m' din', Appending m₀ m' inum din' (max nb (nblk (off + p.length)))
        (Bytes.splice f off p) → Q (din', off + p.length) m') →
      wp (iappendLoop fuel din off p) Q E m := by
  intro fuel
  induction fuel with
  | zero =>
    intro off p m din nb f hlen hoff h _ _ Q hQ
    obtain rfl : p = [] := List.length_eq_zero_iff.mp (by omega)
    have := hQ m din
    rw [Bytes.splice_nil, List.length_nil, Nat.add_zero, Nat.max_eq_left (nblk_le hoff)] at this
    exact this h
  | succ fuel ih =>
    intro off p m din nb f hlen hoff h hbig hfull Q hQ
    unfold iappendLoop
    by_cases h0 : p.length = 0
    · obtain rfl : p = [] := List.length_eq_zero_iff.mp h0
      have := hQ m din
      rw [Bytes.splice_nil, List.length_nil, Nat.add_zero, Nat.max_eq_left (nblk_le hoff)] at this
      rw [if_pos h0, wp_pure]
      exact this h
    · have hdo := Nat.div_add_mod off BSIZE
      have hmod := Nat.mod_lt off (show 0 < BSIZE by decide)
      have hle : off / BSIZE ≤ nb := by
        have := Nat.div_le_div_right (c := BSIZE) hoff
        rwa [Nat.mul_div_cancel _ (by decide)] at this
      have hnext : off / BSIZE + 1 ≤ nblk (off + p.length) := div_lt_nblk (by omega)
      rw [if_neg h0]
      dsimp only
      by_cases hmax : off / BSIZE < MAXFILE
      · rw [if_pos hmax, wp_bind]
        have hn1 : (off / BSIZE + 1) * BSIZE - off = BSIZE - off % BSIZE := by
          rw [Nat.add_mul, Nat.mul_comm]
          omega
        have hpos : off - off / BSIZE * BSIZE = off % BSIZE := by
          rw [Nat.mul_comm]
          omega
        rw [hn1, hpos]
        set n1 := min p.length (BSIZE - off % BSIZE) with hn1'
        have htake : (p.take n1).length = n1 := by
          rw [List.length_take]
          omega
        have hfull' : Full m₀ inum (max nb (off / BSIZE + 1)) → E .perror := fun hf =>
          hfull (hf.mono (by omega))
        refine h.wp_blockFor ha hle hmax (fun m' din' h' => ?_) (fun x din' m' hf hx => ?_) hfull'
        · have hlt : off / BSIZE < max nb (off / BSIZE + 1) := by omega
          have hblocks := h'.writing.blocks
          rw [opened_cur] at hblocks
          have hmem := h'.slot_mem ha ((hblocks.block _).mpr hlt)
          rw [wp_bind]
          refine wp_rsect (by rw [h'.nsect]; exact hmem.2.2) ?_
          rw [wp_bind]
          refine wp_wsect (by rw [h'.nsect]; exact hmem.2.2) ?_
          have hrest : off + n1 + (p.drop n1).length = off + p.length := by
            rw [List.length_drop]
            omega
          refine ih (off + n1) (p.drop n1) _ din' _ _ (by rw [List.length_drop]; omega) ?_
            (h'.splice ha hlt (by omega)) (by rwa [hrest]) ?_ fun m'' din'' h'' => ?_
          · have : (off / BSIZE + 1) * BSIZE ≤ max nb (off / BSIZE + 1) * BSIZE :=
              Nat.mul_le_mul_right _ (by omega)
            rw [Nat.add_mul, Nat.mul_comm (off / BSIZE)] at this
            omega
          · rw [hrest, Nat.max_assoc, Nat.max_eq_right hnext]
            exact hfull
          · rw [Bytes.splice_take_drop f off n1 p (by omega), hrest, Nat.max_assoc,
              Nat.max_eq_right hnext] at h''
            rw [hrest]
            exact hQ m'' din'' h''
        · rw [wp_bind]
          exact wp_rsect_end hx (hfull' hf)
      · rw [if_neg hmax, wp_throw]
        refine hbig ?_
        have : MAXFILE * BSIZE ≤ off / BSIZE * BSIZE := Nat.mul_le_mul_right _ (by omega)
        rw [Nat.mul_comm (off / BSIZE)] at this
        omega

end

end Xv6.Mkfs
