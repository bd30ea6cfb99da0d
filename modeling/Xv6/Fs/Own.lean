/-
# Block ownership

The places that can hold a block number are the slots of the inodes: slot `m ≤ NDIRECT` of an
inode is `addrs[m]`, and slot `NDIRECT + 1 + j` is entry `j` of its indirect block.  The
ownership invariant is that the slots of the allocated inodes form a ledger for the used data
blocks, and that every file has exactly the blocks its size asks for.

An inode that is in the cache is read from there (`cur`): inside `writei` the cached copy is
ahead of the disk.

This module has the invariant and what `bmap` and `itrunc` do to it.
-/
import Xv6.Lib.Ledger
import Xv6.Fs.Inode

namespace Xv6.Fs

open Function (update update_idem update_of_ne update_self)

open Bytes

/-! ## 1. The slots of an inode -/

/-- Slot `m` of an inode: its block number, or 0. -/
def slot (data : Nat → Bytes) (d : Dinode) (m : Nat) : Nat :=
  if m ≤ NDIRECT then d.addrs m
  else if d.addrs NDIRECT = 0 then 0
  else if m ≤ NDIRECT + NINDIRECT then getWord (data (d.addrs NDIRECT)) (m - (NDIRECT + 1))
  else 0

/-- The slot that holds block `bn` of a file. -/
def slotOf (bn : Nat) : Nat := if bn < NDIRECT then bn else bn + 1

/-- The number of the block that holds block `bn` of a file, or 0. -/
def blockOf (data : Nat → Bytes) (d : Dinode) (bn : Nat) : Nat := slot data d (slotOf bn)

theorem slotOf_ne (bn : Nat) : slotOf bn ≠ NDIRECT := by
  unfold slotOf
  split <;> omega

theorem slotOf_inj {bn bn' : Nat} (h : slotOf bn = slotOf bn') : bn = bn' := by
  unfold slotOf at h
  split at h <;> split at h <;> omega

theorem slot_le {data : Nat → Bytes} {d : Dinode} {m : Nat} (h : m ≤ NDIRECT) :
    slot data d m = d.addrs m := if_pos h

/-- Slots depend on the data only through the indirect block. -/
theorem slot_congr {data data' : Nat → Bytes} {d : Dinode} (m : Nat)
    (h : d.addrs NDIRECT ≠ 0 → data' (d.addrs NDIRECT) = data (d.addrs NDIRECT)) :
    slot data' d m = slot data d m := by
  unfold slot
  by_cases h0 : d.addrs NDIRECT = 0
  · simp [h0]
  · rw [h h0]

theorem slot_of_no_indirect {data : Nat → Bytes} {d : Dinode} {m : Nat}
    (h : d.addrs NDIRECT = 0) (hm : NDIRECT < m) : slot data d m = 0 := by
  unfold slot
  rw [if_neg (by omega), if_pos h]

theorem slot_indirect {data : Nat → Bytes} {d : Dinode} {j : Nat}
    (h : d.addrs NDIRECT ≠ 0) (hj : j < NINDIRECT) :
    slot data d (NDIRECT + 1 + j) = getWord (data (d.addrs NDIRECT)) j := by
  unfold slot
  rw [if_neg (by omega), if_neg h, if_pos (by omega), Nat.add_sub_cancel_left]

theorem slot_big {data : Nat → Bytes} {d : Dinode} {m : Nat} (hm : NDIRECT + NINDIRECT < m) :
    slot data d m = 0 := by
  unfold slot
  rw [if_neg (by omega), if_neg (show ¬ m ≤ NDIRECT + NINDIRECT by omega), ite_self]

theorem blockOf_direct {data : Nat → Bytes} {d : Dinode} {bn : Nat} (h : bn < NDIRECT) :
    blockOf data d bn = d.addrs bn := by
  unfold blockOf slotOf
  rw [if_pos h, slot_le (by omega)]

theorem blockOf_indirect {data : Nat → Bytes} {d : Dinode} {bn : Nat} (h : NDIRECT ≤ bn)
    (hlt : bn - NDIRECT < NINDIRECT) (hind : d.addrs NDIRECT ≠ 0) :
    blockOf data d bn = getWord (data (d.addrs NDIRECT)) (bn - NDIRECT) := by
  unfold blockOf slotOf
  rw [if_neg (by omega), ← slot_indirect hind hlt]
  congr 1
  omega

/-- A block behind the direct ones needs the indirect block. -/
theorem indirect_of_blockOf {data : Nat → Bytes} {d : Dinode} {bn : Nat} (h : NDIRECT ≤ bn)
    (h0 : blockOf data d bn ≠ 0) : d.addrs NDIRECT ≠ 0 ∧ bn - NDIRECT < NINDIRECT := by
  unfold blockOf slotOf at h0
  rw [if_neg (by omega)] at h0
  refine ⟨fun hz => h0 (slot_of_no_indirect hz (by omega)), ?_⟩
  by_contra hge
  exact h0 (slot_big (by omega))

/-- Every slot is of one of three kinds. -/
theorem slot_cases (m : Nat) :
    m ≤ NDIRECT ∨ (∃ j, j < NINDIRECT ∧ m = NDIRECT + 1 + j) ∨ NDIRECT + NINDIRECT < m := by
  by_cases h : m ≤ NDIRECT
  · exact Or.inl h
  · by_cases h' : NDIRECT + NINDIRECT < m
    · exact Or.inr (Or.inr h')
    · exact Or.inr (Or.inl ⟨m - (NDIRECT + 1), by omega, by omega⟩)

/-- The inode has exactly its first `nb` blocks, and an indirect block when they need one. -/
structure HasBlocks (data : Nat → Bytes) (d : Dinode) (nb : Nat) : Prop where
  block : ∀ bn, blockOf data d bn ≠ 0 ↔ bn < nb
  indirect : d.addrs NDIRECT ≠ 0 ↔ NDIRECT < nb

/-- An inode without blocks has empty slots. -/
theorem HasBlocks.slot_zero {data : Nat → Bytes} {d : Dinode} (h : HasBlocks data d 0) (m : Nat) :
    slot data d m = 0 := by
  by_contra hne
  rcases slot_cases m with hm | ⟨j, hj, rfl⟩ | hm
  · by_cases e : m = NDIRECT
    · rw [e, slot_le (Nat.le_refl _)] at hne
      exact absurd (h.indirect.mp hne) (by omega)
    · have := (h.block m).mp (by
        unfold blockOf slotOf
        rw [if_pos (by omega)]
        exact hne)
      omega
  · have := (h.block (NDIRECT + j)).mp (by
      unfold blockOf slotOf
      rw [if_neg (by omega), show NDIRECT + j + 1 = NDIRECT + 1 + j by omega]
      exact hne)
    omega
  · exact hne (slot_big hm)

theorem HasBlocks.le_maxfile {data : Nat → Bytes} {d : Dinode} {nb : Nat}
    (h : HasBlocks data d nb) : nb ≤ MAXFILE := by
  by_contra hlt
  refine (h.block MAXFILE).mpr (by omega) ?_
  exact slot_big (by decide)

/-! ## 2. The invariant -/

/-- The inode as the kernel sees it: the cached copy when there is one. -/
def FileSys.cur (s : FileSys) (i : Nat) : Dinode := if s.valid i then s.inode i else s.dinode i

/-- Inode `i` is allocated. -/
def Alloc (s : FileSys) (i : Nat) : Prop := i < s.sb.ninodes ∧ (s.cur i).type ≠ 0

instance (s : FileSys) (i : Nat) : Decidable (Alloc s i) := inferInstanceAs (Decidable (_ ∧ _))

/-- The places of the ledger: slot `m` of inode `i`, for the allocated inodes. -/
def FileSys.place (s : FileSys) (k : Nat × Nat) : Nat :=
  if Alloc s k.1 then slot s.data (s.cur k.1) k.2 else 0

/-- Block `b` is a data block with its bit set. -/
def FileSys.UsedBlock (s : FileSys) (b : Nat) : Prop :=
  s.sb.datastart ≤ b ∧ b < s.sb.size ∧ s.bitmap b = true

/-- `⌈size / BSIZE⌉`. -/
def nblk (size : Nat) : Nat := (size + (BSIZE - 1)) / BSIZE

/-- The slots are a ledger for the used data blocks.  The blocks before the data region are
marked as used, and block 0 is one of them. -/
structure Base (s : FileSys) : Prop where
  pos : 0 < s.sb.datastart
  small : s.sb.size < 2 ^ 32
  reserved : ∀ b, b < s.sb.datastart → s.bitmap b = true
  ledger : Ledger s.place s.UsedBlock

/-- **Block ownership**, with the number of blocks of each file given by `nb`. -/
structure OwnN (s : FileSys) (nb : Nat → Nat) : Prop extends Base s where
  shape : ∀ i, Alloc s i → (s.cur i).type ≠ T_DEV → HasBlocks s.data (s.cur i) (nb i)

/-- **Block ownership.**  Every file has as many blocks as its size asks for. -/
def Own (s : FileSys) : Prop := OwnN s fun i => nblk (s.cur i).size

/-- The cached copies are the inodes on disk. -/
def Coherent (s : FileSys) : Prop :=
  ∀ i, s.valid i = true → i < s.sb.ninodes ∧ s.inode i = s.dinode i ∧ (s.inode i).type ≠ 0

/-- What the code that runs under the lock of an inode leaves alone. -/
structure Frame (s s' : FileSys) : Prop where
  sb : s'.sb = s.sb
  ref : s'.ref = s.ref
  valid : s'.valid = s.valid
  lock : s'.lock = s.lock
  used : s'.used = s.used
  outstanding : s'.outstanding = s.outstanding
  devsw : s'.devsw = s.devsw

theorem Frame.refl (s : FileSys) : Frame s s := ⟨rfl, rfl, rfl, rfl, rfl, rfl, rfl⟩

theorem Frame.trans {s t u : FileSys} (h : Frame s t) (h' : Frame t u) : Frame s u :=
  ⟨h'.sb.trans h.sb, h'.ref.trans h.ref, h'.valid.trans h.valid, h'.lock.trans h.lock,
    h'.used.trans h.used, h'.outstanding.trans h.outstanding, h'.devsw.trans h.devsw⟩

theorem cur_of_valid {s : FileSys} {i : Nat} (h : s.valid i = true) : s.cur i = s.inode i :=
  if_pos h

theorem cur_of_not_valid {s : FileSys} {i : Nat} (h : s.valid i = false) :
    s.cur i = s.dinode i := if_neg (by simp [h])

theorem place_of_alloc {s : FileSys} {i m : Nat} (h : Alloc s i) :
    s.place (i, m) = slot s.data (s.cur i) m := if_pos h

theorem place_of_not_alloc {s : FileSys} {i m : Nat} (h : ¬ Alloc s i) : s.place (i, m) = 0 :=
  if_neg h

/-! ## 3. Consequences -/

section

variable {s : FileSys}

/-- A free block is a data block. -/
theorem Base.datastart_le (h : Base s) {b : Nat} (hb : s.bitmap b = false) :
    s.sb.datastart ≤ b := by
  by_contra hlt
  rw [h.reserved b (by omega)] at hb
  exact Bool.noConfusion hb

theorem Base.ne_zero (h : Base s) {b : Nat} (hb : s.bitmap b = false) : b ≠ 0 := by
  have := h.datastart_le hb
  have := h.pos
  omega

theorem not_used {b : Nat} (hb : s.bitmap b = false) : ¬ s.UsedBlock b := fun hu => by
  have hbit := hu.2.2
  rw [hb] at hbit
  exact Bool.noConfusion hbit

/-- A slot of an allocated inode holds a data block, with its bit set. -/
theorem Base.slot_used (h : Base s) {i m : Nat} (ha : Alloc s i)
    (h0 : slot s.data (s.cur i) m ≠ 0) : s.UsedBlock (slot s.data (s.cur i) m) := by
  have := h.ledger.mem (i, m)
  rw [place_of_alloc ha] at this
  exact this h0

/-- No block is in two slots. -/
theorem Base.slot_inj (h : Base s) {i j m l : Nat} (ha : Alloc s i) (ha' : Alloc s j)
    (h0 : slot s.data (s.cur i) m ≠ 0)
    (e : slot s.data (s.cur i) m = slot s.data (s.cur j) l) : i = j ∧ m = l := by
  have hinj := h.ledger.inj (i, m) (j, l)
  rw [place_of_alloc ha, place_of_alloc ha'] at hinj
  simpa using hinj h0 e

/-- A block of a file is nobody's indirect block. -/
theorem Base.block_ne_indirect (h : Base s) {i j bn : Nat} (ha : Alloc s i) (hj : Alloc s j)
    (h0 : blockOf s.data (s.cur i) bn ≠ 0) :
    (s.cur j).addrs NDIRECT ≠ blockOf s.data (s.cur i) bn := by
  intro e
  refine slotOf_ne bn (h.slot_inj (l := NDIRECT) ha hj h0 ?_).2
  rw [slot_le (Nat.le_refl _)]
  exact e.symm

/-- A free block is in no slot. -/
theorem Base.slot_ne (h : Base s) {i m b : Nat} (ha : Alloc s i) (hb : s.bitmap b = false) :
    slot s.data (s.cur i) m ≠ b := by
  have := h.ledger.ne_of_not_used (not_used hb) (h.ne_zero hb) (i, m)
  rwa [place_of_alloc ha] at this

/-- **A fresh block goes into a place.** -/
theorem Base.alloc (h : Base s) {s' : FileSys} {b : Nat} {k : Nat × Nat} (hsize : b < s.sb.size)
    (hb : s.bitmap b = false) (hk : s.place k = 0) (hsb : s'.sb = s.sb)
    (hbit : s'.bitmap = update s.bitmap b true)
    (hplace : ∀ l, s'.place l = update s.place k b l) : Base s' where
  pos := hsb ▸ h.pos
  small := hsb ▸ h.small
  reserved c hc := by
    rw [hbit]
    by_cases e : c = b
    · rw [e, update_self]
    · rw [update_of_ne e]
      exact h.reserved c (hsb ▸ hc)
  ledger := by
    refine (h.ledger.add hk (not_used hb) (h.ne_zero hb)).congr hplace fun c => ?_
    simp only [FileSys.UsedBlock, hsb, hbit]
    by_cases e : c = b
    · subst e
      simp [h.datastart_le hb, hsize]
    · simp [e]

/-- Only the slots and the bits of the blocks on the disk count. -/
theorem Base.congr (h : Base s) {s' : FileSys} (hsb : s'.sb = s.sb)
    (hbit : ∀ b, b < s.sb.size → s'.bitmap b = s.bitmap b)
    (hplace : ∀ l, s'.place l = s.place l) : Base s' where
  pos := hsb ▸ h.pos
  small := hsb ▸ h.small
  reserved b hb := by
    rw [hsb] at hb
    rw [hbit b (hb.trans_le (Nat.sub_le ..))]
    exact h.reserved b hb
  ledger := h.ledger.congr hplace fun b => by
    simp only [FileSys.UsedBlock, hsb]
    exact and_congr_right fun _ => and_congr_right fun hb => by rw [hbit b hb]

end

/-! ## 4. A fresh block in a slot -/

/-- `s'` is `s` after a fresh block `b`, zeroed, was put in slot `m` of the cached inode `ip`.
No other slot and no block of a file has changed. -/
structure Stored (s s' : FileSys) (ip m b : Nat) : Prop where
  frame : Frame s s'
  dinode : s'.dinode = s.dinode
  other : ∀ j, j ≠ ip → s'.inode j = s.inode j
  self : ∃ addrs, s'.inode ip = { s.inode ip with addrs := addrs }
  base : Base s'
  slots : ∀ i m', Alloc s i → slot s'.data (s'.cur i) m' =
    if i = ip ∧ m' = m then b else slot s.data (s.cur i) m'
  data : ∀ i m', Alloc s i → m' ≠ NDIRECT → slot s.data (s.cur i) m' ≠ 0 →
    s'.data (slot s.data (s.cur i) m') = s.data (slot s.data (s.cur i) m')
  fresh : s'.data b = fun _ => 0
  ne_zero : b ≠ 0

section

variable {s s' : FileSys} {ip m b : Nat}

/-- The inodes keep their types and sizes. -/
theorem cur_eq_of_same (hv : s'.valid = s.valid) (hd : s'.dinode = s.dinode)
    (ho : ∀ j, j ≠ ip → s'.inode j = s.inode j)
    (hs : ∃ addrs, s'.inode ip = { s.inode ip with addrs := addrs }) (i : Nat) :
    ∃ addrs, s'.cur i = { s.cur i with addrs := addrs } := by
  unfold FileSys.cur
  rw [hv, hd]
  split
  · by_cases e : i = ip
    · subst e
      exact hs
    · exact ⟨(s.inode i).addrs, by rw [ho i e]⟩
  · exact ⟨(s.dinode i).addrs, rfl⟩

theorem Stored.cur (h : Stored s s' ip m b) (i : Nat) :
    ∃ addrs, s'.cur i = { s.cur i with addrs := addrs } :=
  cur_eq_of_same h.frame.valid h.dinode h.other h.self i

theorem alloc_iff_of_cur (hsb : s'.sb = s.sb)
    (hc : ∀ i, ∃ addrs, s'.cur i = { s.cur i with addrs := addrs }) (i : Nat) :
    Alloc s' i ↔ Alloc s i := by
  obtain ⟨addrs, e⟩ := hc i
  unfold Alloc
  rw [hsb, e]

theorem Stored.alloc_iff (h : Stored s s' ip m b) (i : Nat) : Alloc s' i ↔ Alloc s i :=
  alloc_iff_of_cur h.frame.sb h.cur i

/-- The places after a store. -/
theorem place_eq_update (hal : ∀ i, Alloc s' i ↔ Alloc s i) (ha : Alloc s ip)
    (hslot : ∀ i m', Alloc s i → slot s'.data (s'.cur i) m' =
      if i = ip ∧ m' = m then b else slot s.data (s.cur i) m') (l : Nat × Nat) :
    s'.place l = update s.place (ip, m) b l := by
  obtain ⟨i, m'⟩ := l
  by_cases hi : Alloc s i
  · rw [place_of_alloc ((hal i).mpr hi), hslot i m' hi]
    by_cases e : i = ip ∧ m' = m
    · obtain ⟨rfl, rfl⟩ := e
      simp
    · rw [if_neg e, update_of_ne (by simpa using e), place_of_alloc hi]
  · have hne : (i, m') ≠ (ip, m) := fun e => hi ((Prod.mk.inj e).1 ▸ ha)
    rw [place_of_not_alloc (fun hc => hi ((hal i).mp hc)), update_of_ne hne,
      place_of_not_alloc hi]

/-- A block of `addrs[]`. -/
theorem stored_direct (h : Base s) (hv : s.valid ip = true) (ha : Alloc s ip) (hm : m ≤ NDIRECT)
    (h0 : (s.inode ip).addrs m = 0) (hb : s.bitmap b = false) (hsize : b < s.sb.size)
    (lh : List Nat) :
    Stored s { s with
      bitmap := update s.bitmap b true
      data := update s.data b fun _ => 0
      inode := update s.inode ip
        { s.inode ip with addrs := update (s.inode ip).addrs m b }
      lh := lh } ip m b := by
  set s' : FileSys := { s with
    bitmap := update s.bitmap b true
    data := update s.data b fun _ => 0
    inode := update s.inode ip
      { s.inode ip with addrs := update (s.inode ip).addrs m b }
    lh := lh } with hs'
  have hother : ∀ j, j ≠ ip → s'.inode j = s.inode j := fun j hj => update_of_ne hj _ _
  have hself : s'.inode ip =
      { s.inode ip with addrs := update (s.inode ip).addrs m b } :=
    update_self ..
  have hcur : s'.cur ip =
      { s.cur ip with addrs := update (s.cur ip).addrs m b } := by
    rw [cur_of_valid (s := s') hv, cur_of_valid hv, hself]
  have hcur' : ∀ i, i ≠ ip → s'.cur i = s.cur i := fun i hi => by
    simp only [FileSys.cur, hother i hi]
    rfl
  have hal : ∀ i, Alloc s' i ↔ Alloc s i :=
    alloc_iff_of_cur rfl (cur_eq_of_same rfl rfl hother ⟨_, hself⟩)
  have hdata : ∀ c, c ≠ b → s'.data c = s.data c := fun c hc => update_of_ne hc _ _
  have hslot : ∀ i m', Alloc s i → slot s'.data (s'.cur i) m' =
      if i = ip ∧ m' = m then b else slot s.data (s.cur i) m' := by
    intro i m' hi
    -- nobody's indirect block is `b`
    have hind : (s.cur i).addrs NDIRECT ≠ b := by
      have := h.slot_ne (m := NDIRECT) hi hb
      rwa [slot_le (Nat.le_refl _)] at this
    by_cases e : i = ip
    · subst e
      rw [hcur]
      rcases slot_cases m' with hle | ⟨j, hj, rfl⟩ | hbig
      · rw [slot_le hle, slot_le hle]
        by_cases e : m' = m
        · simp [e]
        · simp [e]
      · rw [if_neg (by omega)]
        by_cases e : m = NDIRECT
        · subst e
          rw [slot_indirect (by simpa using h.ne_zero hb) hj,
            slot_of_no_indirect (by rw [cur_of_valid hv]; exact h0) (by omega)]
          simp only [update_self, hs']
          exact getWord_zero j
        · have hsame : update (s.cur i).addrs m b NDIRECT = (s.cur i).addrs NDIRECT :=
            update_of_ne (Ne.symm e) _ _
          unfold slot
          rw [if_neg (show ¬ NDIRECT + 1 + j ≤ NDIRECT by omega),
            if_neg (show ¬ NDIRECT + 1 + j ≤ NDIRECT by omega)]
          simp only [hsame, hdata _ hind]
      · rw [slot_big hbig, slot_big hbig, if_neg (by omega)]
    · rw [hcur' i e, if_neg (fun h => e h.1)]
      exact slot_congr m' fun _ => hdata _ hind
  have h0' : s.place (ip, m) = 0 := by
    rw [place_of_alloc ha, slot_le hm, cur_of_valid hv]
    exact h0
  exact ⟨⟨rfl, rfl, rfl, rfl, rfl, rfl, rfl⟩, rfl, hother, ⟨_, hself⟩,
    h.alloc hsize hb h0' rfl rfl (place_eq_update hal ha hslot), hslot,
    fun i m' hi _ _ => hdata _ (h.slot_ne hi hb), update_self .., h.ne_zero hb⟩

/-- An entry of the indirect block. -/
theorem stored_indirect (h : Base s) (hv : s.valid ip = true) (ha : Alloc s ip) {j : Nat}
    (hj : j < NINDIRECT) (hind : (s.inode ip).addrs NDIRECT ≠ 0)
    (h0 : getWord (s.data ((s.inode ip).addrs NDIRECT)) j = 0) (hb : s.bitmap b = false)
    (hsize : b < s.sb.size) (lh : List Nat) :
    Stored s { s with
      bitmap := update s.bitmap b true
      data := update (update s.data b fun _ => 0) ((s.inode ip).addrs NDIRECT)
        (setWord (update s.data b (fun _ => 0) ((s.inode ip).addrs NDIRECT)) j b)
      lh := lh } ip (NDIRECT + 1 + j) b := by
  set s' : FileSys := { s with
    bitmap := update s.bitmap b true
    data := update (update s.data b fun _ => 0) ((s.inode ip).addrs NDIRECT)
      (setWord (update s.data b (fun _ => 0) ((s.inode ip).addrs NDIRECT)) j b)
    lh := lh } with hs'
  have hcur : ∀ i, s'.cur i = s.cur i := fun i => rfl
  have hip : (s.cur ip).addrs NDIRECT = (s.inode ip).addrs NDIRECT := by rw [cur_of_valid hv]
  have hne : ∀ i m', Alloc s i → slot s.data (s.cur i) m' ≠ b := fun i m' hi => h.slot_ne hi hb
  have hindb : (s.inode ip).addrs NDIRECT ≠ b := by
    have := hne ip NDIRECT ha
    rwa [slot_le (Nat.le_refl _), hip] at this
  have hdata : ∀ c, c ≠ b → c ≠ (s.inode ip).addrs NDIRECT → s'.data c = s.data c := by
    intro c h₁ h₂
    simp only [hs', update_of_ne h₂, update_of_ne h₁]
  have hdataInd : s'.data ((s.inode ip).addrs NDIRECT) =
      setWord (s.data ((s.inode ip).addrs NDIRECT)) j b := by
    simp only [hs', update_self, update_of_ne hindb]
  have hslot : ∀ i m', Alloc s i → slot s'.data (s'.cur i) m' =
      if i = ip ∧ m' = NDIRECT + 1 + j then b else slot s.data (s.cur i) m' := by
    intro i m' hi
    rw [hcur]
    by_cases e : i = ip
    · subst e
      rcases slot_cases m' with hle | ⟨j', hj', rfl⟩ | hbig
      · rw [slot_le hle, slot_le hle, if_neg (by omega)]
      · rw [slot_indirect (by rwa [hip]) hj', slot_indirect (by rwa [hip]) hj', hip, hdataInd]
        by_cases e : j' = j
        · subst e
          rw [getWord_setWord_self, if_pos ⟨rfl, rfl⟩]
          exact Nat.mod_eq_of_lt (by have := h.small; omega)
        · rw [getWord_setWord_ne e, if_neg (by omega)]
      · rw [slot_big hbig, slot_big hbig, if_neg (by omega)]
    · rw [if_neg (fun h => e h.1)]
      refine slot_congr m' fun hnz => hdata _ ?_ ?_
      · have := hne i NDIRECT hi
        rwa [slot_le (Nat.le_refl _)] at this
      · intro heq
        refine e (h.slot_inj (m := NDIRECT) (l := NDIRECT) hi ha ?_ ?_).1
        · rwa [slot_le (Nat.le_refl _)]
        · rw [slot_le (Nat.le_refl _), slot_le (Nat.le_refl _), hip]
          exact heq
  have h0' : s.place (ip, NDIRECT + 1 + j) = 0 := by
    rw [place_of_alloc ha, slot_indirect (by rwa [hip]) hj, hip]
    exact h0
  refine ⟨⟨rfl, rfl, rfl, rfl, rfl, rfl, rfl⟩, rfl, fun _ _ => rfl, ⟨_, rfl⟩,
    h.alloc hsize hb h0' rfl rfl (place_eq_update (fun _ => Iff.rfl) ha hslot), hslot, ?_, ?_,
    h.ne_zero hb⟩
  · intro i m' hi hm' hnz
    refine hdata _ (hne i m' hi) fun heq => hm' ?_
    refine (h.slot_inj (l := NDIRECT) hi ha hnz ?_).2
    rw [slot_le (Nat.le_refl _), hip]
    exact heq
  · simp only [hs', update_of_ne (Ne.symm hindb), update_self]

end

/-! ## 5. `bmap` -/

/-- `s'` is `s` after the cached inode `ip` got the fresh, zeroed block `b` as its block `bn`,
with an indirect block where one was missing. -/
structure Grown (s s' : FileSys) (ip bn b : Nat) : Prop where
  frame : Frame s s'
  dinode : s'.dinode = s.dinode
  other : ∀ j, j ≠ ip → s'.inode j = s.inode j
  self : ∃ addrs, s'.inode ip = { s.inode ip with addrs := addrs }
  base : Base s'
  block : ∀ i bn', Alloc s i → blockOf s'.data (s'.cur i) bn' =
    if i = ip ∧ bn' = bn then b else blockOf s.data (s.cur i) bn'
  indirect : ∀ i, Alloc s i → ((s'.cur i).addrs NDIRECT ≠ 0 ↔
    (s.cur i).addrs NDIRECT ≠ 0 ∨ (i = ip ∧ NDIRECT ≤ bn))
  data : ∀ i bn', Alloc s i → blockOf s.data (s.cur i) bn' ≠ 0 →
    s'.data (blockOf s.data (s.cur i) bn') = s.data (blockOf s.data (s.cur i) bn')
  fresh : s'.data b = fun _ => 0
  ne_zero : b ≠ 0

section

variable {s s' : FileSys} {ip bn b : Nat}

/-- One store is enough below `NDIRECT`, and when there is an indirect block. -/
theorem Stored.grown (h : Stored s s' ip (slotOf bn) b)
    (hind : NDIRECT ≤ bn → (s.cur ip).addrs NDIRECT ≠ 0) : Grown s s' ip bn b := by
  refine ⟨h.frame, h.dinode, h.other, h.self, h.base, fun i bn' hi => ?_, fun i hi => ?_,
    fun i bn' hi hnz => h.data i _ hi (slotOf_ne bn') hnz, h.fresh, h.ne_zero⟩
  · have := h.slots i (slotOf bn') hi
    unfold blockOf
    rw [this]
    by_cases e : i = ip ∧ bn' = bn
    · rw [if_pos e, if_pos ⟨e.1, by rw [e.2]⟩]
    · rw [if_neg e, if_neg fun h => e ⟨h.1, slotOf_inj h.2⟩]
  · have := h.slots i NDIRECT hi
    rw [slot_le (Nat.le_refl _), slot_le (Nat.le_refl _),
      if_neg fun h => slotOf_ne bn h.2.symm] at this
    rw [this]
    constructor
    · exact Or.inl
    · rintro (hnz | ⟨rfl, hle⟩)
      · exact hnz
      · exact hind hle

/-- Block `NDIRECT` takes two stores: the indirect block, and its first entry. -/
theorem Stored.grown_indirect {t : FileSys} {c : Nat} (ha : Alloc s ip)
    (h : Stored s t ip NDIRECT c) (h' : Stored t s' ip (slotOf NDIRECT) b) :
    Grown s s' ip NDIRECT b := by
  have hal : ∀ i, Alloc s i → Alloc t i := fun i hi => (h.alloc_iff i).mpr hi
  have hslot : ∀ i bn', Alloc s i → slot t.data (t.cur i) (slotOf bn') =
      slot s.data (s.cur i) (slotOf bn') := by
    intro i bn' hi
    rw [h.slots i _ hi, if_neg fun e => slotOf_ne bn' e.2]
  have hc : (t.cur ip).addrs NDIRECT ≠ 0 := by
    have := h.slots ip NDIRECT ha
    rw [slot_le (Nat.le_refl _), if_pos ⟨rfl, rfl⟩] at this
    rw [this]
    exact h.ne_zero
  have hg := h'.grown fun _ => hc
  refine ⟨h.frame.trans hg.frame, hg.dinode.trans h.dinode,
    fun j hj => (hg.other j hj).trans (h.other j hj), ?_, hg.base, ?_, ?_, ?_, hg.fresh,
    hg.ne_zero⟩
  · obtain ⟨a₁, e₁⟩ := h.self
    obtain ⟨a₂, e₂⟩ := hg.self
    exact ⟨a₂, by rw [e₂, e₁]⟩
  · intro i bn' hi
    rw [hg.block i bn' (hal i hi)]
    unfold blockOf
    rw [hslot i bn' hi]
  · intro i hi
    rw [hg.indirect i (hal i hi)]
    have := h.slots i NDIRECT hi
    rw [slot_le (Nat.le_refl _), slot_le (Nat.le_refl _)] at this
    rw [this]
    by_cases e : i = ip
    · simp [e, h.ne_zero]
    · simp [e]
  · intro i bn' hi hnz
    have := hg.data i bn' (hal i hi)
    unfold blockOf at this hnz ⊢
    rw [hslot i bn' hi] at this
    rw [this hnz]
    exact h.data i _ hi (slotOf_ne bn') hnz

variable {Q : Nat → FileSys → Prop} {E : Panic → Prop}

/-- `bmap` finds a block that is there, and changes nothing. -/
theorem wp_bmap_of_ne (h0 : blockOf s.data (s.inode ip) bn ≠ 0)
    (hQ : Q (blockOf s.data (s.inode ip) bn) s) : wp (bmap ip bn) Q E s := by
  simp only [bmap, wp_bind, wp_get]
  by_cases hd : bn < NDIRECT
  · rw [blockOf_direct hd] at h0 hQ
    simp only [if_pos hd, if_neg h0, wp_pure]
    exact hQ
  · obtain ⟨hind, hlt⟩ := indirect_of_blockOf (by omega) h0
    rw [blockOf_indirect (by omega) hlt hind] at h0 hQ
    simp only [if_neg hd, if_pos hlt, if_neg hind, wp_pure, wp_get, wp_bind, if_neg h0]
    exact hQ

/-- `bmap` allocates the first block that is missing. -/
theorem wp_bmap_new {nb : Nat} (h : Base s) (hv : s.valid ip = true) (ha : Alloc s ip)
    (hb : HasBlocks s.data (s.cur ip) nb) (hnb : nb < MAXFILE)
    (hQ : ∀ b s', Grown s s' ip nb b → Q b s') (hE : ∀ e, Limit e → E e) :
    wp (bmap ip nb) Q E s := by
  have hcur := cur_of_valid hv
  have h0 : blockOf s.data (s.inode ip) nb = 0 := by
    rw [← hcur]
    by_contra hne
    exact Nat.lt_irrefl nb ((hb.block nb).mp hne)
  simp only [bmap, wp_bind, wp_get]
  by_cases hd : nb < NDIRECT
  · have hs : slotOf nb = nb := if_pos hd
    have hz : (s.inode ip).addrs nb = 0 := by
      unfold blockOf at h0
      rwa [hs, slot_le (by omega)] at h0
    simp only [if_pos hd, if_pos hz, wp_bind]
    refine wp_balloc (fun b lh hsize hbit => ?_) hE
    simp only [setAddr, setInode, wp_modify, wp_pure]
    refine hQ b _ (Stored.grown ?_ fun hle => by omega)
    rw [hs]
    exact stored_direct h hv ha (by omega) hz hbit hsize lh
  · have hmax : MAXFILE = NDIRECT + NINDIRECT := rfl
    have hlt : nb - NDIRECT < NINDIRECT := by omega
    have hs : slotOf nb = NDIRECT + 1 + (nb - NDIRECT) := by
      unfold slotOf
      rw [if_neg hd]
      omega
    simp only [if_neg hd, if_pos hlt]
    -- the entry is empty, in a state where the indirect block is there
    have hentry : ∀ t : FileSys, Base t → t.valid ip = true → Alloc t ip →
        (t.inode ip).addrs NDIRECT ≠ 0 →
        getWord (t.data ((t.inode ip).addrs NDIRECT)) (nb - NDIRECT) = 0 →
        (∀ b t', Stored t t' ip (slotOf nb) b → Q b t') →
        wp (do
          let s ← get
          let ind := (s.inode ip).addrs NDIRECT
          if getWord (s.data ind) (nb - NDIRECT) = 0 then
            let addr ← balloc
            modify fun s => { s with
              data := update s.data ind (setWord (s.data ind) (nb - NDIRECT) addr) }
            logWrite ind
            return addr
          else return getWord (s.data ind) (nb - NDIRECT)) Q E t := by
      intro t hbase hval hal hind hzero hQ'
      simp only [wp_bind, wp_get, if_pos hzero]
      refine wp_balloc (fun b lh hsize hbit => ?_) hE
      simp only [wp_modify]
      refine wp_logWrite (fun lh' => ?_) hE
      simp only [wp_pure]
      refine hQ' b _ ?_
      rw [hs]
      exact stored_indirect hbase hval hal hlt hind hzero hbit hsize lh'
    by_cases hind : (s.inode ip).addrs NDIRECT = 0
    · -- there is no indirect block yet, so this is block `NDIRECT`
      have hnb' : nb = NDIRECT := by
        have : ¬ NDIRECT < nb := fun hl => hb.indirect.mpr hl (by rw [hcur]; exact hind)
        omega
      subst hnb'
      simp only [if_pos hind, wp_bind]
      refine wp_balloc (fun c lh hsize hbit => ?_) hE
      simp only [setAddr, setInode, wp_modify]
      have hst := stored_direct h hv ha (Nat.le_refl _) hind hbit hsize lh
      refine (wp_bind _ _ _ _ _).mp (hentry _ hst.base hv ((hst.alloc_iff ip).mpr ha) ?_ ?_
        fun b t' ht' => hQ b t' (hst.grown_indirect ha ht'))
      · simp only [update_self]
        exact hst.ne_zero
      · simp only [update_self]
        exact getWord_zero _
    · simp only [if_neg hind]
      refine (wp_bind _ _ _ _ _).mp (hentry s h hv ha hind ?_
        fun b t' ht' => hQ b t' (ht'.grown fun _ => by rwa [hcur]))
      unfold blockOf at h0
      rwa [hs, slot_indirect hind hlt] at h0

end

/-! ## 6. `itrunc` -/

/-- `itrunc(ip)`, started in `s`, is in `t`: the blocks in the slots `K` of `ip` are free, and
`ip->addrs` is `addrs`. -/
structure Truncating (s t : FileSys) (ip : Nat) (K : Nat → Prop) (addrs : Nat → Nat) : Prop where
  frame : Frame s t
  dinode : t.dinode = s.dinode
  data : t.data = s.data
  inode : t.inode = Function.update s.inode ip { s.inode ip with addrs := addrs }
  bitmap : ∀ b, t.bitmap b = true ↔ s.bitmap b = true ∧
    ∀ m, K m → slot s.data (s.cur ip) m ≠ 0 → slot s.data (s.cur ip) m ≠ b

/-- `s'` is `s` after `itrunc(ip)`. -/
structure Truncated (s s' : FileSys) (ip : Nat) : Prop where
  frame : Frame s s'
  data : s'.data = s.data
  other : ∀ j, j ≠ ip → s'.inode j = s.inode j
  self : ∃ addrs, s'.inode ip = { s.inode ip with size := 0, addrs := addrs }
  dinode : s'.dinode = Function.update s.dinode ip (s'.inode ip)
  base : Base s'
  blocks : HasBlocks s'.data (s'.inode ip) 0

section

variable {s t : FileSys} {ip : Nat} {K : Nat → Prop} {addrs : Nat → Nat}

/-- Slots that hold no block count as freed. -/
theorem Truncating.mono (h : Truncating s t ip K addrs) {J : Nat → Prop} (hK : ∀ m, K m → J m)
    (hz : ∀ m, J m → ¬ K m → slot s.data (s.cur ip) m = 0) :
    Truncating s t ip J addrs := by
  refine ⟨h.frame, h.dinode, h.data, h.inode, fun b => ?_⟩
  rw [h.bitmap b]
  refine and_congr_right fun _ => ⟨fun hall m hm hnz => ?_, fun hall m hm => hall m (hK m hm)⟩
  by_cases hKm : K m
  · exact hall m hKm hnz
  · exact absurd (hz m hm hKm) hnz

/-- The block of a slot that was not freed before has its bit set, and freeing it frees the
slot. -/
theorem Truncating.bfree (h : Truncating s t ip K addrs) (hb : Base s) (ha : Alloc s ip) {m : Nat}
    (hm : ¬ K m) (hnz : slot s.data (s.cur ip) m ≠ 0) {Q : Unit → FileSys → Prop}
    {E : Panic → Prop}
    (hQ : ∀ t', Truncating s t' ip (fun m' => K m' ∨ m' = m) addrs → Q () t')
    (hE : ∀ e, Limit e → E e) : wp (bfree (slot s.data (s.cur ip) m)) Q E t := by
  have hbit : t.bitmap (slot s.data (s.cur ip) m) = true := by
    refine (h.bitmap _).mpr ⟨(hb.slot_used ha hnz).2.2, fun m' hm' hnz' e => ?_⟩
    exact hm ((hb.slot_inj ha ha hnz' e).2 ▸ hm')
  refine wp_bfree hbit (fun lh => hQ _ ?_) hE
  refine ⟨⟨h.frame.sb, h.frame.ref, h.frame.valid, h.frame.lock, h.frame.used,
    h.frame.outstanding, h.frame.devsw⟩, h.dinode, h.data, h.inode, fun b => ?_⟩
  by_cases e : b = slot s.data (s.cur ip) m
  · subst e
    simp only [update_self, Bool.false_eq_true, false_iff, not_and, not_forall]
    exact fun _ => ⟨m, Or.inr rfl, hnz, fun hne => hne rfl⟩
  · simp only [update_of_ne e, h.bitmap b]
    refine and_congr_right fun _ => ⟨fun hall m' hm' hnz' => ?_, fun hall m' hm' =>
      hall m' (Or.inl hm')⟩
    rcases hm' with hm' | rfl
    · exact hall m' hm' hnz'
    · exact Ne.symm e

/-- All slots are freed: what remains is `ip->size = 0` and `iupdate(ip)`. -/
theorem Truncating.finish (h : Truncating s t ip (fun _ => True) addrs) (hb : Base s)
    (hv : s.valid ip = true) (ha : Alloc s ip) (h0 : ∀ m, m ≤ NDIRECT → addrs m = 0)
    (lh : List Nat) :
    Truncated s { t with
      inode := update t.inode ip { t.inode ip with size := 0 }
      dinode := update t.dinode ip { t.inode ip with size := 0 }
      lh := lh } ip := by
  have hself : t.inode ip = { s.inode ip with addrs := addrs } := by
    rw [h.inode, update_self]
  set u : FileSys := { t with
    inode := update t.inode ip { t.inode ip with size := 0 }
    dinode := update t.dinode ip { t.inode ip with size := 0 }
    lh := lh } with hu
  have huself : u.inode ip = { s.inode ip with size := 0, addrs := addrs } := by
    simp only [hu, update_self, hself]
  have hother : ∀ j, j ≠ ip → u.inode j = s.inode j := fun j hj => by
    simp only [hu, update_of_ne hj, h.inode]
  have hvalid : u.valid = s.valid := h.frame.valid
  have hcur : ∀ j, j ≠ ip → u.cur j = s.cur j := fun j hj => by
    have hd : u.dinode j = s.dinode j := by
      simp only [hu, update_of_ne hj, h.dinode]
    unfold FileSys.cur
    rw [hvalid, hother j hj, hd]
  have hcurip : u.cur ip = u.inode ip := cur_of_valid (by rw [hvalid]; exact hv)
  have hslot : ∀ m, slot u.data (u.inode ip) m = 0 := by
    intro m
    rw [huself]
    by_cases hm : m ≤ NDIRECT
    · rw [slot_le hm]
      exact h0 m hm
    · exact slot_of_no_indirect (h0 NDIRECT (Nat.le_refl _)) (by omega)
  have hal : ∀ j, Alloc u j ↔ Alloc s j := by
    intro j
    by_cases hj : j = ip
    · subst hj
      unfold Alloc
      rw [hcurip, huself, cur_of_valid hv]
      exact Iff.of_eq (by rw [show u.sb = s.sb from h.frame.sb])
    · unfold Alloc
      rw [hcur j hj, show u.sb = s.sb from h.frame.sb]
  have hplace : ∀ l, u.place l = if l.1 = ip then 0 else s.place l := by
    rintro ⟨j, m⟩
    by_cases hj : j = ip
    · subst hj
      rw [if_pos rfl, place_of_alloc ((hal j).mpr ha), hcurip]
      exact hslot m
    · rw [if_neg hj]
      by_cases hjal : Alloc s j
      · rw [place_of_alloc ((hal j).mpr hjal), place_of_alloc hjal, hcur j hj,
          show u.data = s.data from h.data]
      · rw [place_of_not_alloc fun hc => hjal ((hal j).mp hc), place_of_not_alloc hjal]
  refine ⟨⟨h.frame.sb, h.frame.ref, h.frame.valid, h.frame.lock, h.frame.used,
    h.frame.outstanding, h.frame.devsw⟩, h.data, hother, ⟨addrs, huself⟩, ?_, ?_, ?_⟩
  · rw [show u.inode ip = { t.inode ip with size := 0 } from update_self .., ← h.dinode]
  · refine ⟨h.frame.sb ▸ hb.pos, h.frame.sb ▸ hb.small, fun b hlt => ?_, ?_⟩
    · -- the blocks before the data region are in no slot
      rw [show u.sb = s.sb from h.frame.sb] at hlt
      refine (h.bitmap b).mpr ⟨hb.reserved b hlt, fun m _ hnz e => ?_⟩
      have := (hb.slot_used ha hnz).1
      omega
    · refine (hb.ledger.drop fun l => l.1 = ip).congr hplace fun b => ?_
      have hbit := h.bitmap b
      simp only [FileSys.UsedBlock, show u.sb = s.sb from h.frame.sb,
        show u.bitmap = t.bitmap from rfl, hbit]
      constructor
      · rintro ⟨h₁, h₂, h₃, h₄⟩
        refine ⟨⟨h₁, h₂, h₃⟩, ?_⟩
        rintro ⟨j, m⟩ rfl e
        rw [place_of_alloc ha] at e
        refine h₄ m trivial ?_ e
        have := hb.pos
        omega
      · rintro ⟨⟨h₁, h₂, h₃⟩, h₄⟩
        refine ⟨h₁, h₂, h₃, fun m _ _ e => h₄ (ip, m) rfl ?_⟩
        rw [place_of_alloc ha]
        exact e
  · refine ⟨fun bn => ?_, ?_⟩
    · simp only [Nat.not_lt_zero, iff_false, not_not]
      exact hslot _
    · have := hslot NDIRECT
      rw [slot_le (Nat.le_refl _)] at this
      simp [this]

/-- **`itrunc`** frees all blocks of the inode; no bit is found clear on the way. -/
theorem wp_itrunc (hb : Base s) (hv : s.valid ip = true) (ha : Alloc s ip)
    {Q : Unit → FileSys → Prop} {E : Panic → Prop} (hQ : ∀ s', Truncated s s' ip → Q () s')
    (hE : ∀ e, Limit e → E e) : wp (itrunc ip) Q E s := by
  have hcur := cur_of_valid hv
  unfold itrunc
  rw [wp_bind]
  -- the direct blocks: the first `k` of them are freed and their entries cleared
  refine wp_conseq (wp_forM_range (E := E) (n := NDIRECT) (fun k t =>
    Truncating s t ip (fun m => m < k) fun m => if m < k then 0 else (s.inode ip).addrs m)
    ⟨Frame.refl s, rfl, rfl, by simp, by simp⟩ ?_) ?_
  · intro k t hk ht
    have hslot : slot s.data (s.cur ip) k = (s.inode ip).addrs k := by
      rw [slot_le (by omega), hcur]
    have hak : (t.inode ip).addrs k = (s.inode ip).addrs k := by
      rw [ht.inode, update_self]
      exact if_neg (Nat.lt_irrefl k)
    simp only [wp_bind, wp_get, hak]
    by_cases h0 : (s.inode ip).addrs k = 0
    · simp only [h0, ne_eq, not_true_eq_false, if_false, wp_pure]
      have haddrs : (fun m => if m < k then 0 else (s.inode ip).addrs m) =
          fun m => if m < k + 1 then 0 else (s.inode ip).addrs m := by
        funext m
        by_cases e : m = k
        · subst e
          simp [h0]
        · simp [show m < k + 1 ↔ m < k by omega]
      rw [← haddrs]
      refine ht.mono (fun m hm => by omega) fun m hm hnm => ?_
      obtain rfl : m = k := by omega
      rw [hslot, h0]
    · simp only [ne_eq, h0, not_false_eq_true, if_true, wp_bind]
      rw [← hslot]
      refine ht.bfree hb ha (Nat.lt_irrefl k) (by rwa [hslot]) (fun t' ht' => ?_) hE
      rw [setAddr, wp_setInode]
      have ht'' := ht'.mono (J := fun m => m < k + 1) (fun m hm => by omega)
        (fun m hm hnm => absurd hm (by omega))
      refine ⟨⟨ht''.frame.sb, ht''.frame.ref, ht''.frame.valid, ht''.frame.lock, ht''.frame.used,
        ht''.frame.outstanding, ht''.frame.devsw⟩, ht''.dinode, ht''.data, ?_, ht''.bitmap⟩
      simp only [ht''.inode, update_self, update_idem]
      congr 2
      funext m
      by_cases e : m = k
      · subst e
        simp
      · simp [e, show m < k + 1 ↔ m < k by omega]
  · intro _ t ht
    have hind : (t.inode ip).addrs NDIRECT = (s.inode ip).addrs NDIRECT := by
      rw [ht.inode, update_self]
      simp
    -- the two ways to the end: with all slots freed and `addrs` zero
    have hfin : ∀ t addrs, Truncating s t ip (fun _ => True) addrs →
        (∀ m, m ≤ NDIRECT → addrs m = 0) →
        wp (do setInode ip fun d => { d with size := 0 }
               iupdate ip) Q E t := by
      intro t addrs ht h0
      simp only [wp_setInode, iupdate, wp_bind, wp_get, wp_set, update_self]
      refine wp_logWrite (fun lh => hQ _ ?_) hE
      exact ht.finish hb hv ha h0 lh
    simp only [wp_bind, wp_get, hind]
    by_cases h0 : (s.inode ip).addrs NDIRECT = 0
    · simp only [h0, ne_eq, not_true_eq_false, if_false]
      refine (wp_bind _ _ _ _ _).mp (hfin t _ (ht.mono (fun _ _ => trivial) fun m _ hm => ?_)
        fun m hm => ?_)
      · by_cases e : m = NDIRECT
        · rw [e, slot_le (Nat.le_refl _), hcur, h0]
        · exact slot_of_no_indirect (by rw [hcur, h0]) (by omega)
      · by_cases e : m < NDIRECT
        · simp [e]
        · obtain rfl : m = NDIRECT := by omega
          simp [h0]
    · simp only [ne_eq, h0, not_false_eq_true, if_true, wp_bind]
      -- the blocks listed in the indirect block
      refine wp_conseq (wp_forM_range (E := E) (n := NINDIRECT) (fun j t =>
        Truncating s t ip (fun m => m < NDIRECT ∨ (NDIRECT < m ∧ m < NDIRECT + 1 + j)) fun m =>
          if m < NDIRECT then 0 else (s.inode ip).addrs m)
        (ht.mono (fun m hm => Or.inl hm) fun m hm hnm => absurd hm (by omega)) ?_) ?_
      · intro j u hj hu
        have hslot : slot s.data (s.cur ip) (NDIRECT + 1 + j) =
            getWord (t.data ((s.inode ip).addrs NDIRECT)) j := by
          rw [slot_indirect (by rwa [hcur]) hj, hcur, ht.data]
        rw [← hslot]
        by_cases hz : slot s.data (s.cur ip) (NDIRECT + 1 + j) = 0
        · rw [if_neg (not_not.mpr hz), wp_pure]
          refine hu.mono (fun m hm => by omega) fun m hm hnm => ?_
          obtain rfl : m = NDIRECT + 1 + j := by omega
          exact hz
        · rw [if_pos hz]
          refine hu.bfree hb ha (by omega) hz (fun t' ht' => ?_) hE
          exact ht'.mono (fun m hm => by omega) fun m hm hnm => absurd hm (by omega)
      · intro _ u hu
        have hslot : slot s.data (s.cur ip) NDIRECT = (s.inode ip).addrs NDIRECT := by
          rw [slot_le (Nat.le_refl _), hcur]
        rw [← hslot]
        refine hu.bfree hb ha (by omega) (by rwa [hslot]) (fun t' ht' => ?_) hE
        rw [setAddr, wp_setInode]
        refine (wp_bind _ _ _ _ _).mp (hfin _ (fun m => if m ≤ NDIRECT then 0 else
          (s.inode ip).addrs m) ?_ fun m hm => by simp [hm])
        have ht'' := ht'.mono (J := fun _ => True) (fun _ _ => trivial) fun m _ hm =>
          slot_big (by omega)
        refine ⟨⟨ht''.frame.sb, ht''.frame.ref, ht''.frame.valid, ht''.frame.lock,
          ht''.frame.used, ht''.frame.outstanding, ht''.frame.devsw⟩, ht''.dinode, ht''.data, ?_,
          ht''.bitmap⟩
        simp only [ht''.inode, update_self, update_idem]
        congr 2
        funext m
        by_cases e : m = NDIRECT
        · subst e
          simp
        · simp [e, show m ≤ NDIRECT ↔ m < NDIRECT by omega]

end

end Xv6.Fs
