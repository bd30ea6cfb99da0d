/-
# Blocks of bytes

`State.lean` has the disk by region: a table of inodes, a map of bits, blocks of bytes.  The code has
blocks only, and finds an inode or a bit by the macros `IBLOCK` and `BBLOCK`.  Here the code that
allocates and frees, and `get_fs_stats`, is written down once more, for blocks.

* `Layout`: the inode blocks and the bitmap blocks lie in front of the data blocks, and apart.
* `Reads`: a file system by region is what the blocks say.
* `Agree.call`: the code for regions does what the code for blocks does, up to the limits of the log.

The log is left out, since `log_write` changes no block.
-/
import Xv6.Fs.Blocks
import Xv6.Fs.Format
import Xv6.Fs.Sysfile

namespace Xv6.Fs.Raw

open Function (comp_apply update update_apply update_of_ne update_self)

open Bytes

/-! ## 1. The code -/

/-- The blocks, as the buffer cache has them, and the inode cache. -/
structure State where
  sb : Superblock
  disk : Nat → Bytes
  inode : Nat → Dinode
  valid : Nat → Bool
  ref : Nat → Nat
  used : List Nat

/-- The inode `i`, in its block. -/
def State.dinode (r : State) (i : Nat) : Dinode := loadDinode (r.disk (r.sb.iblock i)) (i % IPB)

/-- The bit of block `b`. -/
def State.bitmap (r : State) (b : Nat) : Bool := getBit (r.disk (r.sb.bblock b)) (b % BPB)

def State.write (r : State) (b : Nat) (blk : Bytes) : State :=
  { r with disk := Function.update r.disk b blk }

abbrev M := StateT State (Except Panic)

/-- Changes to a buffer, and `log_write`. -/
def bwrite (b : Nat) (blk : Bytes) : M Unit := modify fun r => r.write b blk

/-- The order in which the two loops over the bitmap go over the bits: `b`, and `bi`. -/
def visits (size : Nat) : List (Nat × Nat) :=
  (bitmapStarts size).flatMap fun b => (List.range (min BPB (size - b))).map fun bi => (b, bi)

/-- `balloc`. -/
def balloc : M Nat := do
  let r ← get
  match (visits r.sb.size).find? fun v => !getBit (r.disk (r.sb.bblock v.1)) v.2 with
  | none => throw .outOfBlocks
  | some (b, bi) =>
    bwrite (r.sb.bblock b) (setBit (r.disk (r.sb.bblock b)) bi)
    -- bzero
    bwrite (b + bi) fun _ => 0
    return b + bi

/-- `bfree`. -/
def bfree (b : Nat) : M Unit := do
  let r ← get
  let bp := r.disk (r.sb.bblock b)
  if getBit bp (b % BPB) = false then throw .freeingFree
  else bwrite (r.sb.bblock b) (clearBit bp (b % BPB))

/-- `iget`. -/
def iget (inum : Nat) : M Unit := do
  let r ← get
  if 0 < r.ref inum then
    set { r with ref := Function.update r.ref inum (r.ref inum + 1) }
  else if NINODE ≤ r.used.length then throw .igetNoInodes
  else
    set { r with
      ref := Function.update r.ref inum 1
      valid := Function.update r.valid inum false
      used := inum :: r.used }

/-- The end of `iput`: `ip->ref--`. -/
def iputRef (ip : Nat) : M Unit := modify fun r =>
  { r with
    ref := Function.update r.ref ip (r.ref ip - 1)
    used := if r.ref ip - 1 = 0 then r.used.erase ip else r.used }

/-- `ialloc`. -/
def ialloc (type : Int) : M Nat := do
  let r ← get
  match (List.range' 1 (r.sb.ninodes - 1)).find? fun inum => (r.dinode inum).type = 0 with
  | none => throw .noInodes
  | some inum =>
    bwrite (r.sb.iblock inum) (storeDinode (r.disk (r.sb.iblock inum)) (inum % IPB)
      { Dinode.zero with type := type })
    iget inum
    return inum

/-- `iupdate`. -/
def iupdate (ip : Nat) : M Unit := do
  let r ← get
  bwrite (r.sb.iblock ip) (storeDinode (r.disk (r.sb.iblock ip)) (ip % IPB) (r.inode ip))

/-- An assignment to fields of `*ip`. -/
def setInode (ip : Nat) (f : Dinode → Dinode) : M Unit :=
  modify fun r => { r with inode := Function.update r.inode ip (f (r.inode ip)) }

/-- `ip->addrs[i] = 0`. -/
def clearAddr (ip i : Nat) : M Unit :=
  setInode ip fun d => { d with addrs := Function.update d.addrs i 0 }

/-- `itrunc`. -/
def itrunc (ip : Nat) : M Unit := do
  forM (List.range NDIRECT) fun i => do
    let r ← get
    if (r.inode ip).addrs i ≠ 0 then
      bfree ((r.inode ip).addrs i)
      clearAddr ip i
  let r ← get
  let ind := (r.inode ip).addrs NDIRECT
  if ind ≠ 0 then
    forM (List.range NINDIRECT) fun j => do
      let r ← get
      if getWord (r.disk ind) j ≠ 0 then bfree (getWord (r.disk ind) j)
    bfree ind
    clearAddr ip NDIRECT
  setInode ip fun d => { d with size := 0 }
  iupdate ip

/-- The part of `iput` that frees an inode. -/
def ifree (ip : Nat) : M Unit := do
  itrunc ip
  setInode ip fun d => { d with type := 0 }
  iupdate ip
  modify fun r => { r with valid := Function.update r.valid ip false }

/-- `iput`. -/
def iput (ip : Nat) : M Unit := do
  let r ← get
  if r.valid ip ∧ (r.inode ip).nlink = 0 ∧ r.ref ip = 1 then ifree ip
  iputRef ip

/-- One bit is counted. -/
def countBit (fsi : FsInfo) (bp : Bytes) (bi : Nat) : FsInfo :=
  if getBit bp bi = false then { fsi with free_disk_blocks := fsi.free_disk_blocks + 1 } else fsi

/-- `get_fs_stats`. -/
def getFsStats (r : State) : FsInfo :=
  let fsi := (List.range' 1 (r.sb.ninodes - 1)).foldl
    (fun fsi i => fsi.countInode (r.dinode i)) ⟨0, 0, 0, 0⟩
  (visits r.sb.size).foldl (fun fsi v => countBit fsi (r.disk (r.sb.bblock v.1)) v.2) fsi

/-! ## 2. The loops over the bitmap -/

/-- The bits of the first `n` bitmap blocks. -/
theorem visits_blocks (size n : Nat) :
    ((List.range n).flatMap fun k =>
      (List.range (min BPB (size - BPB * k))).map fun bi => (BPB * k, bi)) =
      (List.range (min size (BPB * n))).map fun b => (BPB * (b / BPB), b % BPB) := by
  induction n with
  | zero =>
    rw [Nat.mul_zero, Nat.min_zero]
    rfl
  | succ n ih =>
    have hnext : min size (BPB * (n + 1)) = min size (BPB * n) + min BPB (size - BPB * n) := by
      simp only [BPB]
      omega
    rw [List.range_succ, List.flatMap_append, ih, List.flatMap_singleton, hnext, List.range_add,
      List.map_append, List.map_map]
    refine congrArg _ (List.map_congr_left fun bi hbi => ?_)
    have hlt := List.mem_range.mp hbi
    have hbase : min size (BPB * n) = BPB * n := by
      simp only [BPB] at hlt ⊢
      omega
    rw [comp_apply, hbase]
    simp only [BPB, Prod.mk.injEq] at hlt ⊢
    omega

/-- All bits are visited, in order. -/
theorem visits_eq (size : Nat) :
    visits size = (List.range size).map fun b => (BPB * (b / BPB), b % BPB) := by
  have hall : min size (BPB * ((size + (BPB - 1)) / BPB)) = size := by
    simp only [BPB]
    omega
  rw [visits, bitmapStarts, List.flatMap_map, visits_blocks, hall]

theorem bblock_start (sb : Superblock) (b : Nat) : sb.bblock (BPB * (b / BPB)) = sb.bblock b := by
  rw [Superblock.bblock, Superblock.bblock, Nat.mul_div_cancel_left _ (by decide)]

/-- The first clear bit. -/
theorem find_visits (r : State) :
    ((visits r.sb.size).find? fun v => !getBit (r.disk (r.sb.bblock v.1)) v.2) =
      ((List.range r.sb.size).find? fun b => !r.bitmap b).map fun b => (BPB * (b / BPB), b % BPB) := by
  rw [visits_eq, List.find?_map]
  congr 1
  refine congrArg (List.find? · _) (funext fun b => ?_)
  simp only [comp_apply, bblock_start, State.bitmap]

/-- The state after `balloc` has returned `b`. -/
def State.balloced (r : State) (b : Nat) : State :=
  (r.write (r.sb.bblock b) (setBit (r.disk (r.sb.bblock b)) (b % BPB))).write b fun _ => 0

theorem balloc_eq (r : State) : balloc r =
    match (List.range r.sb.size).find? fun b => !r.bitmap b with
    | none => .error .outOfBlocks
    | some b => .ok (b, r.balloced b) := by
  have hsum : ∀ b, BPB * (b / BPB) + b % BPB = b := fun b => Nat.div_add_mod b BPB
  cases hfind : (List.range r.sb.size).find? fun b => !r.bitmap b with
  | none =>
    refine wp_error ?_
    simp only [balloc, wp_bind, wp_get, find_visits, hfind, Option.map_none, wp_throw]
  | some b =>
    have hrun : wp balloc (fun c r' => c = b ∧ r' = r.balloced b) (fun _ => False) r := by
      simp only [balloc, wp_bind, wp_get, find_visits, hfind, Option.map_some, bwrite, wp_modify,
        wp_pure, bblock_start, hsum, true_and]
      rfl
    obtain ⟨c, r', hc, rfl, rfl⟩ := wp_returns hrun
    exact hc

/-- The state after `bfree`. -/
def State.bfreed (r : State) (b : Nat) : State :=
  r.write (r.sb.bblock b) (clearBit (r.disk (r.sb.bblock b)) (b % BPB))

theorem bfree_eq (r : State) (b : Nat) : bfree b r =
    if r.bitmap b = false then .error .freeingFree else .ok ((), r.bfreed b) := by
  have hrun : bfree b r = (if r.bitmap b = false then throw .freeingFree
    else bwrite (r.sb.bblock b) (clearBit (r.disk (r.sb.bblock b)) (b % BPB)) : M Unit) r := rfl
  rw [hrun]
  split <;> rfl

/-- The state after an inode has been stored. -/
def State.stored (r : State) (i : Nat) (d : Dinode) : State :=
  r.write (r.sb.iblock i) (storeDinode (r.disk (r.sb.iblock i)) (i % IPB) d)

theorem iupdate_eq (r : State) (ip : Nat) : iupdate ip r = .ok ((), r.stored ip (r.inode ip)) := rfl

/-- The state after `iget`. -/
def State.got (r : State) (inum : Nat) : State :=
  { r with
    ref := Function.update r.ref inum (r.ref inum + 1)
    valid := if r.ref inum = 0 then Function.update r.valid inum false else r.valid
    used := if r.ref inum = 0 then inum :: r.used else r.used }

theorem iget_eq (r : State) (inum : Nat) : iget inum r =
    if r.ref inum = 0 ∧ NINODE ≤ r.used.length then .error .igetNoInodes
    else .ok ((), r.got inum) := by
  have hrun : iget inum r = (if 0 < r.ref inum then
      set { r with ref := update r.ref inum (r.ref inum + 1) }
    else if NINODE ≤ r.used.length then throw .igetNoInodes
    else set { r with
      ref := update r.ref inum 1
      valid := update r.valid inum false
      used := inum :: r.used } : M Unit) r := rfl
  rw [hrun]
  by_cases h0 : r.ref inum = 0
  · rw [if_neg (by omega)]
    by_cases hfull : NINODE ≤ r.used.length
    · rw [if_pos hfull, if_pos ⟨h0, hfull⟩]
      rfl
    · rw [if_neg hfull, if_neg fun h => hfull h.2, State.got, if_pos h0, if_pos h0, h0]
      rfl
  · rw [if_pos (by omega), if_neg fun h => h0 h.1, State.got, if_neg h0, if_neg h0]
    rfl

theorem ialloc_eq (r : State) (type : Int) : ialloc type r =
    match (List.range' 1 (r.sb.ninodes - 1)).find? fun inum => (r.dinode inum).type = 0 with
    | none => .error .noInodes
    | some inum =>
      (iget inum (r.stored inum { Dinode.zero with type := type })).map fun x => (inum, x.2) := by
  have hrun : ialloc type r = (match
      (List.range' 1 (r.sb.ninodes - 1)).find? fun inum => (r.dinode inum).type = 0 with
      | none => throw .noInodes
      | some inum => do
        bwrite (r.sb.iblock inum) (storeDinode (r.disk (r.sb.iblock inum)) (inum % IPB)
          { Dinode.zero with type := type })
        iget inum
        return inum : M Nat) r := rfl
  rw [hrun]
  cases (List.range' 1 (r.sb.ninodes - 1)).find? fun inum => (r.dinode inum).type = 0 with
  | none => rfl
  | some inum =>
    have higet : ∀ r' : State, (do iget inum; return inum : M Nat) r' =
        (iget inum r').map fun x => (inum, x.2) := fun r' => by
      have hbind : (do iget inum; return inum : M Nat) r' =
        (iget inum r').bind fun x => .ok (inum, x.2) := rfl
      rw [hbind]
      cases iget inum r' <;> rfl
    exact higet _

/-! ## 3. What a write changes -/

/-- The blocks of the inodes and of the bitmap are in front of the data blocks, and are different
blocks. -/
structure Layout (sb : Superblock) : Prop where
  nblocks : sb.nblocks ≤ sb.size
  inodes : ∀ i, i < sb.ninodes → sb.iblock i < sb.datastart
  bits : ∀ b, b < sb.size → sb.bblock b < sb.datastart
  apart : ∀ i b, i < sb.ninodes → b < sb.size → sb.iblock i ≠ sb.bblock b

/-- The blocks in front of the data blocks are marked as used. -/
def Marked (r : State) : Prop := ∀ b, b < r.sb.datastart → r.bitmap b = true

section

variable {r : State} {b c i : Nat} {blk : Bytes}

theorem bit_eq_iff : c = b ↔ r.sb.bblock c = r.sb.bblock b ∧ c % BPB = b % BPB := by
  simp only [Superblock.bblock, BPB]
  omega

theorem inode_eq_iff {j : Nat} : j = i ↔ r.sb.iblock j = r.sb.iblock i ∧ j % IPB = i % IPB := by
  simp only [Superblock.iblock, IPB]
  omega

theorem disk_write_of_ne (h : b ≠ c) : (r.write c blk).disk b = r.disk b :=
  update_of_ne h ..

/-- A bit of the bitmap is changed. -/
theorem bitmap_write {v : Bool} (hblk : ∀ bi, getBit blk bi =
    if bi = b % BPB then v else getBit (r.disk (r.sb.bblock b)) bi) :
    (r.write (r.sb.bblock b) blk).bitmap = update r.bitmap b v := by
  funext c
  rw [State.bitmap, State.write]
  by_cases hc : r.sb.bblock c = r.sb.bblock b
  · simp only [hc, update_self, hblk]
    by_cases hmod : c % BPB = b % BPB
    · obtain rfl := bit_eq_iff.mpr ⟨hc, hmod⟩
      rw [if_pos rfl, update_self]
    · have hne : c ≠ b := fun e => hmod (by rw [e])
      rw [if_neg hmod, update_of_ne hne, State.bitmap, hc]
  · have hne : c ≠ b := fun e => hc (by rw [e])
    simp only [update_of_ne hc, update_of_ne hne, State.bitmap]

/-- An inode is stored. -/
theorem dinode_stored {d : Dinode} (hd : d.InRange) :
    (r.stored i d).dinode = update r.dinode i d := by
  funext j
  rw [State.dinode, State.stored, State.write]
  by_cases hj : r.sb.iblock j = r.sb.iblock i
  · simp only [hj, update_self]
    by_cases hmod : j % IPB = i % IPB
    · obtain rfl := inode_eq_iff.mpr ⟨hj, hmod⟩
      rw [update_self, loadDinode_storeDinode _ _ hd]
    · have hne : j ≠ i := fun e => hmod (by rw [e])
      rw [update_of_ne hne, loadDinode_storeDinode_ne _ _ hmod, State.dinode, hj]
  · have hne : j ≠ i := fun e => hj (by rw [e])
    simp only [update_of_ne hj, update_of_ne hne, State.dinode]

/-- The other regions are left alone. -/
theorem bitmap_write_of_ne (h : ∀ b, b < r.sb.size → r.sb.bblock b ≠ c) (hb : b < r.sb.size) :
    (r.write c blk).bitmap b = r.bitmap b := by
  simp only [State.bitmap, State.write, update_of_ne (h b hb)]

theorem dinode_write_of_ne (h : ∀ i, i < r.sb.ninodes → r.sb.iblock i ≠ c) (hi : i < r.sb.ninodes) :
    (r.write c blk).dinode i = r.dinode i := by
  simp only [State.dinode, State.write, update_of_ne (h i hi)]

/-! ## 4. The calls -/

/-- What a call does to the bitmap and to the inodes. -/
structure Effect (r r' : State) (bitmap : Nat → Bool) (dinode : Nat → Dinode) : Prop where
  sb : r'.sb = r.sb
  bitmap : ∀ b, b < r.sb.size → r'.bitmap b = bitmap b
  dinode : ∀ i, i < r.sb.ninodes → r'.dinode i = dinode i

theorem Effect.marked {r' : State} {bitmap : Nat → Bool} {dinode : Nat → Dinode}
    (h : Effect r r' bitmap dinode) (hm : ∀ c, c < r.sb.datastart → bitmap c = true) : Marked r' := by
  intro c hc
  rw [h.sb] at hc
  rw [h.bitmap c (hc.trans_le (Nat.sub_le ..)), hm c hc]

theorem effect_balloc (hl : Layout r.sb) (hm : Marked r) (hb : b < r.sb.size)
    (hfree : r.bitmap b = false) :
    Effect r (r.balloced b) (update r.bitmap b true) r.dinode := by
  have hdata : r.sb.datastart ≤ b := by
    by_contra hc
    rw [hm b (not_le.mp hc)] at hfree
    cases hfree
  have hset : ∀ bi, getBit (setBit (r.disk (r.sb.bblock b)) (b % BPB)) bi =
      if bi = b % BPB then true else getBit (r.disk (r.sb.bblock b)) bi := fun bi => by
    rw [getBit_setBit]
    split
    next e => rw [decide_eq_true e, Bool.true_or]
    next e => rw [decide_eq_false e, Bool.false_or]
  refine ⟨rfl, fun c hc => ?_, fun i hi => ?_⟩
  · rw [← bitmap_write hset, State.balloced]
    refine bitmap_write_of_ne (fun c hc => ?_) hc
    have hlt := hl.bits c hc
    exact (hlt.trans_le hdata).ne
  · rw [State.balloced, dinode_write_of_ne, dinode_write_of_ne]
    · exact fun j hj => hl.apart j b hj hb
    · exact hi
    · exact fun j hj => ((hl.inodes j hj).trans_le hdata).ne
    · exact hi

theorem effect_bfree (hl : Layout r.sb) (hb : b < r.sb.size) :
    Effect r (r.bfreed b) (update r.bitmap b false) r.dinode := by
  have hclear : ∀ bi, getBit (clearBit (r.disk (r.sb.bblock b)) (b % BPB)) bi =
      if bi = b % BPB then false else getBit (r.disk (r.sb.bblock b)) bi := fun bi => by
    rw [getBit_clearBit]
    split
    next e => rw [decide_eq_true e, Bool.not_true, Bool.false_and]
    next e => rw [decide_eq_false e, Bool.not_false, Bool.true_and]
  refine ⟨rfl, fun c _ => by rw [State.bfreed, bitmap_write hclear], fun i hi => ?_⟩
  exact dinode_write_of_ne (fun j hj => hl.apart j b hj hb) hi

/-- An inode is stored in its block. -/
theorem effect_store {d : Dinode} (hl : Layout r.sb) (hi : i < r.sb.ninodes) (hd : d.InRange) :
    Effect r (r.stored i d) r.bitmap (update r.dinode i d) := by
  refine ⟨rfl, fun b hb => ?_, fun j _ => by rw [dinode_stored hd]⟩
  exact bitmap_write_of_ne (fun c hc => (hl.apart i c hi hc).symm) hb

end

theorem inRange_typed {type : Int} (h : short type = type) :
    Dinode.InRange { Dinode.zero with type := type } :=
  ⟨h, rfl, rfl, rfl, Nat.two_pow_pos 32, fun _ => Nat.two_pow_pos 32, fun _ _ => rfl⟩

/-! ## 5. Regions -/

/-- A file system by region is what the blocks say. -/
structure Reads (r : State) (s : FileSys) : Prop where
  sb : s.sb = r.sb
  dinode : ∀ i, i < r.sb.ninodes → s.dinode i = r.dinode i
  bitmap : ∀ b, b < r.sb.size → s.bitmap b = r.bitmap b
  data : ∀ b, r.sb.datastart ≤ b → b < r.sb.size → s.data b = r.disk b
  inode : s.inode = r.inode
  valid : s.valid = r.valid
  ref : s.ref = r.ref
  used : s.used = r.used

/-- And the blocks are in order, for the superblock `S`. -/
structure Agree (S : Superblock) (r : State) (s : FileSys) : Prop extends Reads r s where
  same : r.sb = S
  layout : Layout r.sb
  marked : Marked r

/-- A panic of `log_write`. -/
def OfLog (e : Panic) : Prop := e = .tooBig ∨ e = .outsideOfTrans

/-- The code for regions does what the code for blocks does, unless the log stops it. -/
def Sim {α : Type} (S : Superblock) (m : FsM α) (m' : M α) (r : State) (s : FileSys) : Prop :=
  wp m (fun a s' => ∃ r', m' r = .ok (a, r') ∧ Agree S r' s') (fun e => OfLog e ∨ m' r = .error e) s

theorem wp_logWrite_ofLog {b : Nat} {Q : Unit → FileSys → Prop} {P : Panic → Prop} {s : FileSys}
    (hQ : ∀ lh, Q () { s with lh := lh }) : wp (logWrite b) Q (fun e => OfLog e ∨ P e) s := by
  simp only [logWrite, wp_bind, wp_get, wp_ite, wp_throw, wp_pure, wp_set]
  exact ⟨fun _ => .inl (.inl rfl), fun _ => ⟨fun _ => .inl (.inr rfl), fun _ => ⟨fun _ => hQ s.lh,
    fun _ => hQ _⟩⟩⟩

section

variable {S : Superblock} {r : State} {s : FileSys} {b ip : Nat}

theorem Sim.pure {α : Type} (h : Agree S r s) (a : α) : Sim S (Pure.pure a) (Pure.pure a) r s :=
  ⟨r, rfl, h⟩

theorem Sim.bind {α β : Type} {m : FsM α} {m' : M α} {f : α → FsM β} {f' : α → M β}
    (h : Sim S m m' r s)
    (hf : ∀ a r' s', m' r = .ok (a, r') → Agree S r' s' → Sim S (f a) (f' a) r' s') :
    Sim S (m >>= f) (m' >>= f') r s := by
  have hbind : (m' >>= f') r = (m' r).bind fun x => f' x.1 x.2 := rfl
  rw [Sim, wp_bind, hbind]
  refine wp_mono h (fun a s' hrun => ?_) fun e he => he.imp_right fun herr => by rw [herr]; rfl
  obtain ⟨r', hok, hreads⟩ := hrun
  rw [hok]
  exact hf a r' s' hok hreads

/-- A block is marked in the bitmap. -/
theorem Agree.mark {v : Bool} {disk data : Nat → Bytes} (h : Agree S r s)
    (he : Effect r { r with disk := disk } (update r.bitmap b v) r.dinode)
    (hm : ∀ c, c < r.sb.datastart → update r.bitmap b v c = true)
    (hdata : ∀ c, r.sb.datastart ≤ c → c < r.sb.size → data c = disk c) (lh : List Nat) :
    Agree S { r with disk := disk }
      { s with bitmap := update s.bitmap b v, data := data, lh := lh } := by
  refine ⟨⟨h.sb, fun i hi => ?_, fun c hc => ?_, hdata, h.inode, h.valid, h.ref, h.used⟩, h.same,
    h.layout, he.marked hm⟩
  · rw [he.dinode i hi]
    exact h.dinode i hi
  · rw [he.bitmap c hc]
    simp only [update_apply, h.bitmap c hc]

theorem Agree.balloc (h : Agree S r s) : Sim S Fs.balloc Raw.balloc r s := by
  have hfind : ((List.range s.sb.size).find? fun b => !s.bitmap b) =
      (List.range r.sb.size).find? fun b => !r.bitmap b := by
    rw [h.sb]
    exact List.find?_congr fun b hb => by rw [h.bitmap b (List.mem_range.mp hb)]
  simp only [Sim, Fs.balloc, wp_bind, wp_get, hfind, balloc_eq]
  cases hb : (List.range r.sb.size).find? fun b => !r.bitmap b with
  | none => exact .inr rfl
  | some b =>
    have hlt : b < r.sb.size := List.mem_range.mp (List.mem_of_find?_eq_some hb)
    have hfree : r.bitmap b = false := by simpa using List.find?_some hb
    have he := effect_balloc h.layout h.marked hlt hfree
    simp only [wp_bind, wp_set]
    refine wp_logWrite_ofLog fun lh => ?_
    simp only [bzero, wp_bind, wp_modify]
    refine wp_logWrite_ofLog fun lh' => ?_
    refine ⟨_, rfl, h.mark he (fun c hc => ?_) (fun c hge hc => ?_) lh'⟩
    · rw [update_apply, h.marked c hc, ite_self]
    · have hne : c ≠ r.sb.bblock b := ((h.layout.bits b hlt).trans_le hge).ne'
      simp only [update_apply, h.data c hge hc, disk_write_of_ne hne]

theorem Agree.bfree (h : Agree S r s) (hge : r.sb.datastart ≤ b) (hb : b < r.sb.size) :
    Sim S (Fs.bfree b) (Raw.bfree b) r s := by
  have he := effect_bfree h.layout hb
  simp only [Sim, Fs.bfree, wp_bind, wp_get, wp_ite, wp_throw, wp_set, h.bitmap b hb, bfree_eq]
  refine ⟨fun h0 => .inr (if_pos h0), fun h1 => ?_⟩
  rw [if_neg h1]
  refine wp_logWrite_ofLog fun lh => ?_
  refine ⟨_, rfl, h.mark he (fun c hc => ?_) (fun c hge hc => ?_) lh⟩
  · rw [update_of_ne (hc.trans_le hge).ne, h.marked c hc]
  · have hne : c ≠ r.sb.bblock b := ((h.layout.bits b hb).trans_le hge).ne'
    exact (h.data c hge hc).trans (disk_write_of_ne hne).symm

/-- An inode is stored. -/
theorem Agree.stored {d : Dinode} (h : Agree S r s) (hip : ip < r.sb.ninodes) (hd : d.InRange)
    (lh : List Nat) :
    Agree S (r.stored ip d) { s with dinode := update s.dinode ip d, lh := lh } := by
  have he := effect_store h.layout hip hd
  refine ⟨⟨h.sb, fun i hi => ?_, fun c hc => ?_, fun c hge hc => ?_, h.inode, h.valid, h.ref, h.used⟩,
    h.same, h.layout, he.marked h.marked⟩
  · rw [he.dinode i hi]
    simp only [update_apply, h.dinode i hi]
  · rw [he.bitmap c hc]
    exact h.bitmap c hc
  · have hne : c ≠ r.sb.iblock ip := ((h.layout.inodes ip hip).trans_le hge).ne'
    exact (h.data c hge hc).trans (disk_write_of_ne hne).symm

theorem Agree.iupdate (h : Agree S r s) (hip : ip < r.sb.ninodes) (hd : (r.inode ip).InRange) :
    Sim S (Fs.iupdate ip) (Raw.iupdate ip) r s := by
  have hin : s.inode ip = r.inode ip := congrFun h.inode ip
  simp only [Sim, Fs.iupdate, wp_bind, wp_get, wp_set, hin, iupdate_eq]
  refine wp_logWrite_ofLog fun lh => ?_
  exact ⟨_, rfl, h.stored hip hd lh⟩

theorem Agree.got (h : Agree S r s) (i : Nat) : Agree S (r.got i) (s.got i) := by
  refine ⟨⟨h.sb, h.dinode, h.bitmap, h.data, h.inode, ?_, ?_, ?_⟩, h.same, h.layout, h.marked⟩
  · simp only [FileSys.got, State.got, h.ref, h.valid]
  · simp only [FileSys.got, State.got, h.ref]
  · simp only [FileSys.got, State.got, h.ref, h.used]

theorem Agree.ialloc {type : Int} (h : Agree S r s) (htype : short type = type) :
    Sim S (Fs.ialloc type) (Raw.ialloc type) r s := by
  have hfind : ((List.range' 1 (s.sb.ninodes - 1)).find? fun inum => (s.dinode inum).type = 0) =
      (List.range' 1 (r.sb.ninodes - 1)).find? fun inum => (r.dinode inum).type = 0 := by
    rw [h.sb]
    refine List.find?_congr fun i hi => ?_
    have hlt := List.mem_range'_1.mp hi
    rw [h.dinode i (by omega)]
  simp only [Sim, Fs.ialloc, wp_bind, wp_get, hfind, ialloc_eq]
  cases hinum : (List.range' 1 (r.sb.ninodes - 1)).find? fun inum => (r.dinode inum).type = 0 with
  | none => exact .inr rfl
  | some inum =>
    have hmem := List.mem_range'_1.mp (List.mem_of_find?_eq_some hinum)
    simp only [wp_bind, wp_set]
    refine wp_logWrite_ofLog fun lh => ?_
    have hst := h.stored (by omega : inum < r.sb.ninodes) (inRange_typed htype) lh
    rw [iget_eq, ← hst.ref, ← hst.used]
    by_cases hfull : s.ref inum = 0 ∧ NINODE ≤ s.used.length
    · rw [if_pos hfull]
      simp only [Fs.iget, wp_bind, wp_get, wp_ite, wp_set, wp_throw]
      exact ⟨fun hpos => absurd hfull.1 hpos.ne', fun _ => ⟨fun _ => .inr rfl,
        fun hroom => absurd hfull.2 hroom⟩⟩
    · rw [if_neg hfull]
      exact wp_iget ⟨_, rfl, hst.got inum⟩ fun h0 hused => absurd ⟨h0, hused⟩ hfull

/-! ## 6. Any calls -/

/-- A call of the allocators; `store` is an assignment to `*ip` with an `iupdate`. -/
inductive Call
  | balloc
  | bfree (b : Nat)
  | ialloc (type : Int)
  | store (ip : Nat) (d : Dinode)

/-- A block that is freed is a data block, and what is stored fits. -/
def Call.Legal (sb : Superblock) : Call → Prop
  | .balloc => True
  | .bfree b => sb.datastart ≤ b ∧ b < sb.size
  | .ialloc type => short type = type
  | .store ip d => ip < sb.ninodes ∧ d.InRange

def Call.onRegions : Call → FsM Nat
  | .balloc => Fs.balloc
  | .bfree b => do Fs.bfree b; return b
  | .ialloc type => Fs.ialloc type
  | .store ip d => do Fs.setInode ip fun _ => d; Fs.iupdate ip; return ip

def Call.onBlocks : Call → M Nat
  | .balloc => Raw.balloc
  | .bfree b => do Raw.bfree b; return b
  | .ialloc type => Raw.ialloc type
  | .store ip d => do setInode ip fun _ => d; Raw.iupdate ip; return ip

theorem Agree.call (h : Agree S r s) {c : Call} (hc : c.Legal S) :
    Sim S c.onRegions c.onBlocks r s := by
  rw [← h.same] at hc
  cases c with
  | balloc => exact h.balloc
  | bfree b => exact (h.bfree hc.1 hc.2).bind fun _ _ _ _ h' => .pure h' b
  | ialloc type => exact h.ialloc hc
  | store ip d =>
    have hset : Sim S (Fs.setInode ip fun _ => d) (setInode ip fun _ => d) r s :=
      ⟨_, rfl, { h with inode := congrArg (update · ip d) h.inode }⟩
    refine hset.bind fun _ r₁ s₁ hok h₁ => ?_
    cases hok
    exact (h₁.iupdate hc.1 (by simpa using hc.2)).bind fun _ _ _ _ h₂ => .pure h₂ ip

end

end Xv6.Fs.Raw
