/-
# What `getfsinfo` reports

`get_fs_stats` counts, on the blocks of the disk.  The numbers are compared with what the allocators can
still do: each `balloc` takes one block off the free ones, and when there is none it panics; and so for
`ialloc` and inodes.

* `getFsStats_eq`: the counts.
* `Effect.stats_set`, `Effect.stats_clear`, `Effect.stats_alloc`, `wp_iput`: what a call changes.
* `ballocs_spec`, `iallocs_spec`: how often the allocators succeed.
* `free_add_referenced`: in a state with the ownership invariant, the free blocks and the blocks of the
  files are the data blocks.

An inode that `ialloc` returns occupies an entry of the inode cache, so a program that keeps them all
stops earlier (`ialloc_cache_full`).
-/
import Xv6.Fs.Raw

namespace Xv6.Fs.Raw

open Function (comp_apply comp_def update update_apply update_of_ne update_self)

open Bytes

/-! ## 1. The counts -/

/-- The inodes whose type passes a test. -/
def State.inodes (r : State) (test : Int → Bool) : Finset Nat :=
  (Finset.Ico 1 r.sb.ninodes).filter fun i => test (r.dinode i).type

/-- The blocks whose bit is clear. -/
def State.clear (r : State) : Finset Nat := (Finset.range r.sb.size).filter fun b => r.bitmap b = false

def isFile (t : Int) : Bool := t = T_FILE

def isDir (t : Int) : Bool := t = T_DIR

def isUsed (t : Int) : Bool := t ≠ 0

theorem foldl_countInode (f : Nat → Dinode) (l : List Nat) (fsi : FsInfo) :
    l.foldl (fun fsi i => fsi.countInode (f i)) fsi = { fsi with
      num_files := fsi.num_files + l.countP fun i => isFile (f i).type
      num_dirs := fsi.num_dirs + l.countP fun i => isDir (f i).type
      allocated_inodes := fsi.allocated_inodes + l.countP fun i => isUsed (f i).type } := by
  induction l generalizing fsi with
  | nil => rfl
  | cons i l ih =>
    rw [List.foldl_cons, ih]
    simp only [FsInfo.countInode, List.countP_cons, isFile, isDir, isUsed, decide_eq_true_eq]
    -- a file or a directory is in use
    by_cases h0 : (f i).type = 0
    · simp [h0]
    · by_cases hfile : (f i).type = T_FILE <;> by_cases hdir : (f i).type = T_DIR <;>
        simp [h0, hfile, hdir, Nat.add_assoc, Nat.add_comm 1]

theorem foldl_count (p : Nat → Prop) [DecidablePred p] (l : List Nat) (fsi : FsInfo) :
    l.foldl (fun fsi b => if p b then { fsi with free_disk_blocks := fsi.free_disk_blocks + 1 } else fsi)
      fsi = { fsi with free_disk_blocks := fsi.free_disk_blocks + l.countP p } := by
  induction l generalizing fsi with
  | nil => rfl
  | cons b l ih =>
    rw [List.foldl_cons, ih]
    by_cases hb : p b
    · rw [if_pos hb, List.countP_cons_of_pos (by simpa using hb)]
      simp only [Nat.add_assoc, Nat.add_comm 1]
    · rw [if_neg hb, List.countP_cons_of_neg (by simpa using hb)]

theorem card_filter_Ico (m n : Nat) (p : Nat → Bool) :
    ((Finset.Ico m n).filter fun b => p b).card = (List.range' m (n - m)).countP p := by
  rw [Finset.card_def, Finset.filter_val, ← Multiset.countP_eq_card_filter]
  exact (Multiset.coe_countP ..).trans (by simp)

theorem getFsStats_countP (r : State) : getFsStats r =
    ⟨(List.range' 1 (r.sb.ninodes - 1)).countP fun i => isFile (r.dinode i).type,
      (List.range' 1 (r.sb.ninodes - 1)).countP fun i => isDir (r.dinode i).type,
      (List.range' 1 (r.sb.ninodes - 1)).countP fun i => isUsed (r.dinode i).type,
      (List.range r.sb.size).countP fun b => r.bitmap b = false⟩ := by
  have hbit : ∀ fsi b, countBit fsi (r.disk (r.sb.bblock (BPB * (b / BPB)))) (b % BPB) =
      if r.bitmap b = false then { fsi with free_disk_blocks := fsi.free_disk_blocks + 1 } else fsi :=
    fun fsi b => by rw [bblock_start, countBit, State.bitmap]
  rw [getFsStats, visits_eq, List.foldl_map]
  simp only [hbit, foldl_countInode, foldl_count, Nat.zero_add]

/-- **The numbers are exact.** -/
theorem getFsStats_eq (r : State) : getFsStats r =
    ⟨(r.inodes isFile).card, (r.inodes isDir).card, (r.inodes isUsed).card, r.clear.card⟩ := by
  have hclear : r.clear.card = (List.range r.sb.size).countP fun b => r.bitmap b = false := by
    rw [State.clear, ← Nat.count_eq_card_filter_range, Nat.count]
  simp only [getFsStats_countP, State.inodes, card_filter_Ico, hclear]

theorem free_disk_blocks_eq (r : State) : (getFsStats r).free_disk_blocks = r.clear.card := by
  rw [getFsStats_eq]

theorem allocated_inodes_eq (r : State) :
    (getFsStats r).allocated_inodes = (r.inodes isUsed).card := by
  rw [getFsStats_eq]

theorem statInodes_seq (p : Pid) (k : Kern) (is : List Nat) (fsi : FsInfo) :
    (statInodes is fsi).seq p k =
      .ok (is.foldl (fun fsi i => fsi.countInode (k.fs.dinode i)) fsi, k) := by
  induction is generalizing fsi with
  | nil => rfl
  | cons i is ih => exact ih _

theorem statBitmap_seq (p : Pid) (k : Kern) (bs : List Nat) (fsi : FsInfo) :
    (statBitmap bs fsi).seq p k = .ok ({ fsi with
      free_disk_blocks := fsi.free_disk_blocks + (bs.map (clearBits k.fs)).sum }, k) := by
  induction bs generalizing fsi with
  | nil => rfl
  | cons b bs ih =>
    rw [List.map_cons, List.sum_cons, ← Nat.add_assoc]
    exact ih _

theorem countP_range_lt (test : Nat → Bool) (m n : Nat) :
    ((List.range m).countP fun i => decide (i < n) && test i) = (List.range (min m n)).countP test := by
  induction m with
  | zero =>
    rw [Nat.zero_min]
    rfl
  | succ m ih =>
    rw [List.range_succ, List.countP_append, ih]
    by_cases hm : m < n
    · rw [min_eq_left (by omega), min_eq_left (by omega), List.range_succ, List.countP_append]
      simp [List.countP_singleton, hm]
    · rw [min_eq_right (by omega), min_eq_right (by omega)]
      simp [hm]

/-- The bits that are counted block by block. -/
theorem sum_clearBits (s : FileSys) :
    ((bitmapStarts s.sb.size).map (clearBits s)).sum =
      (List.range s.sb.size).countP fun b => !s.bitmap b := by
  have hblock : ∀ b, clearBits s b =
      ((List.range (min BPB (s.sb.size - b))).map fun bi => (b, bi)).countP
        fun v => !s.bitmap (v.1 + v.2) := fun b => by
    rw [List.countP_map, ← countP_range_lt, clearBits]
    refine List.countP_congr fun bi _ => ?_
    rw [comp_apply, Bool.and_eq_true, Bool.and_eq_true, decide_eq_true_eq, decide_eq_true_eq]
    exact and_congr_left fun _ => by omega
  have hvisits := visits_eq s.sb.size
  rw [visits] at hvisits
  rw [funext hblock, ← comp_def (List.countP _), ← List.countP_flatMap, hvisits, List.countP_map]
  simp only [comp_def, Nat.div_add_mod]

/-- The code for regions reports what the code for blocks does. -/
theorem Reads.getFsStats {r : State} {k : Kern} (h : Reads r k.fs) (p : Pid) :
    Fs.getFsStats.seq p k = .ok (Raw.getFsStats r, k) := by
  have hrun : Fs.getFsStats.seq p k =
    ((statInodes (List.range' 1 (k.fs.sb.ninodes - 1)) ⟨0, 0, 0, 0⟩).bind
      fun fsi => statBitmap (bitmapStarts k.fs.sb.size) fsi).seq p k := rfl
  have hinodes : ∀ test : Int → Bool,
      ((List.range' 1 (r.sb.ninodes - 1)).countP fun i => test (k.fs.dinode i).type) =
        (List.range' 1 (r.sb.ninodes - 1)).countP fun i => test (r.dinode i).type := fun test => by
    refine List.countP_congr fun i hi => ?_
    have hlt := List.mem_range'_1.mp hi
    rw [h.dinode i (by omega)]
  have hbits : ((List.range r.sb.size).countP fun b => !k.fs.bitmap b) =
      (List.range r.sb.size).countP fun b => r.bitmap b = false := by
    refine List.countP_congr fun b hb => ?_
    rw [h.bitmap b (List.mem_range.mp hb), Bool.not_eq_true', decide_eq_true_eq]
  rw [hrun, Prog.seq_bind_ok (statInodes_seq p k _ _), statBitmap_seq, sum_clearBits, h.sb, hbits,
    foldl_countInode, hinodes, hinodes, hinodes, getFsStats_countP]
  simp only [Nat.zero_add]

/-! ## 2. What the calls change -/

section

variable {r r' : State} {b i : Nat} {d : Dinode} {bitmap : Nat → Bool} {dinode : Nat → Dinode}

theorem Effect.clear (h : Effect r r' bitmap dinode) :
    r'.clear = (Finset.range r.sb.size).filter fun b => bitmap b = false := by
  rw [State.clear, h.sb]
  exact Finset.filter_congr fun b hb => by rw [h.bitmap b (Finset.mem_range.mp hb)]

theorem Effect.inodes (h : Effect r r' bitmap dinode) (test : Int → Bool) :
    r'.inodes test = (Finset.Ico 1 r.sb.ninodes).filter fun i => test (dinode i).type := by
  rw [State.inodes, h.sb]
  exact Finset.filter_congr fun i hi => by rw [h.dinode i (Finset.mem_Ico.mp hi).2]

/-- A bit is set. -/
theorem Effect.stats_set (h : Effect r r' (update r.bitmap b true) r.dinode)
    (hb : b ∈ r.clear) : getFsStats r =
      { getFsStats r' with free_disk_blocks := (getFsStats r').free_disk_blocks + 1 } := by
  have hclear : r'.clear = r.clear.erase b := by
    rw [h.clear]
    ext c
    simp only [State.clear, Finset.mem_filter, Finset.mem_erase, update_apply]
    by_cases hc : c = b
    · simp [hc]
    · simp [hc]
  rw [getFsStats_eq, getFsStats_eq, h.inodes, h.inodes, h.inodes, hclear,
    Finset.card_erase_add_one hb]
  rfl

/-- A bit is cleared. -/
theorem Effect.stats_clear (h : Effect r r' (update r.bitmap b false) r.dinode)
    (hb : b < r.sb.size) (hused : r.bitmap b = true) : getFsStats r' =
      { getFsStats r with free_disk_blocks := (getFsStats r).free_disk_blocks + 1 } := by
  have hnot : b ∉ r.clear := fun hmem => by
    rw [State.clear, Finset.mem_filter, hused] at hmem
    cases hmem.2
  have hclear : r'.clear = insert b r.clear := by
    rw [h.clear]
    ext c
    simp only [State.clear, Finset.mem_filter, Finset.mem_insert, Finset.mem_range,
      update_apply]
    by_cases hc : c = b
    · simp [hc, hb]
    · simp [hc]
  rw [getFsStats_eq, getFsStats_eq, h.inodes, h.inodes, h.inodes, hclear,
    Finset.card_insert_of_notMem hnot]
  rfl

/-- A free inode is stored with a type. -/
theorem Effect.stats_alloc (h : Effect r r' r.bitmap (update r.dinode i d)) (hi : 1 ≤ i)
    (hlt : i < r.sb.ninodes) (hfree : (r.dinode i).type = 0) (htype : d.type ≠ 0) :
    (getFsStats r').allocated_inodes = (getFsStats r).allocated_inodes + 1 := by
  have hnot : i ∉ r.inodes isUsed := fun hmem => by
    rw [State.inodes, Finset.mem_filter, hfree] at hmem
    exact absurd hmem.2 (by decide)
  have hinodes : r'.inodes isUsed = insert i (r.inodes isUsed) := by
    rw [h.inodes]
    ext j
    simp only [State.inodes, Finset.mem_filter, Finset.mem_insert, Finset.mem_Ico,
      update_apply]
    by_cases hj : j = i
    · simp [hj, hi, hlt, htype, isUsed]
    · simp [hj]
  rw [allocated_inodes_eq, allocated_inodes_eq, hinodes, Finset.card_insert_of_notMem hnot]

/-! ## 3. An inode is freed -/

/-- The block numbers of a file are those of data blocks. -/
def InData (r : State) (d : Dinode) : Prop :=
  ∀ m, slot r.disk d m ≠ 0 → r.sb.datastart ≤ slot r.disk d m ∧ slot r.disk d m < r.sb.size

/-- While the inode `ip` is freed: its block numbers disappear, and the other inodes and the data
blocks stay as they are. -/
structure Freeing (r : State) (ip : Nat) (r' : State) : Prop where
  sb : r'.sb = r.sb
  others : ∀ i, i < r.sb.ninodes → i ≠ ip → r'.dinode i = r.dinode i
  data : ∀ b, r.sb.datastart ≤ b → r'.disk b = r.disk b
  addrs : ∀ m, (r'.inode ip).addrs m = 0 ∨ (r'.inode ip).addrs m = (r.inode ip).addrs m
  range : (r'.inode ip).InRange

theorem InRange.clearAddr (h : d.InRange) {m : Nat} :
    Dinode.InRange { d with addrs := update d.addrs m 0 } := by
  refine ⟨h.type, h.major, h.minor, h.nlink, h.size, fun l => ?_, fun l hl => ?_⟩ <;>
    simp only [update_apply]
  · split
    · exact Nat.two_pow_pos 32
    · exact h.addrs l
  · split
    · rfl
    · exact h.addrs_zero l hl

variable {ip : Nat}

theorem Freeing.wp_bfree (h : Freeing r ip r') (hl : Layout r.sb) (hb : b < r.sb.size)
    {Q : Unit → State → Prop}
    (hQ : ∀ r'', Freeing r ip r'' → r''.inode = r'.inode → Q () r'') :
    wp (bfree b) Q (fun _ => True) r' := by
  have hl' : Layout r'.sb := h.sb ▸ hl
  have hb' : b < r'.sb.size := h.sb ▸ hb
  have he := effect_bfree hl' hb'
  have hfreed : Freeing r ip (r'.bfreed b) := by
    refine ⟨h.sb, fun i hi hne => ?_, fun c hc => ?_, h.addrs, h.range⟩
    · rw [he.dinode i (h.sb ▸ hi)]
      exact h.others i hi hne
    · have hlt := hl'.bits b hb'
      rw [← h.sb] at hc
      exact (disk_write_of_ne (hlt.trans_le hc).ne').trans (h.data c (h.sb ▸ hc))
  by_cases h0 : r'.bitmap b = false
  · simp only [wp, bfree_eq, if_pos h0]
  · simp only [wp, bfree_eq, if_neg h0]
    exact hQ _ hfreed rfl

/-- A change of the copy in memory. -/
theorem Freeing.setInode (h : Freeing r ip r') (f : Dinode → Dinode)
    (haddrs : ∀ m, (f (r'.inode ip)).addrs m = 0 ∨ (f (r'.inode ip)).addrs m = (r'.inode ip).addrs m)
    (hrange : (f (r'.inode ip)).InRange) :
    Freeing r ip { r' with inode := update r'.inode ip (f (r'.inode ip)) } := by
  refine ⟨h.sb, h.others, h.data, fun m => ?_, ?_⟩
  · simp only [update_self]
    rcases haddrs m with h0 | heq
    · exact .inl h0
    · rw [heq]
      exact h.addrs m
  · simp only [update_self]
    exact hrange

theorem Freeing.stored (h : Freeing r ip r') (hl : Layout r.sb) (hip : ip < r.sb.ninodes) :
    Freeing r ip (r'.stored ip (r'.inode ip)) ∧
      ((r'.stored ip (r'.inode ip)).dinode ip) = r'.inode ip := by
  have hl' : Layout r'.sb := h.sb ▸ hl
  have hip' : ip < r'.sb.ninodes := h.sb ▸ hip
  have he := effect_store hl' hip' h.range
  refine ⟨⟨h.sb, fun i hi hne => ?_, fun b hb => ?_, h.addrs, h.range⟩, ?_⟩
  · rw [he.dinode i (h.sb ▸ hi), update_of_ne hne]
    exact h.others i hi hne
  · have hlt := hl'.inodes ip hip'
    rw [← h.sb] at hb
    exact (disk_write_of_ne (hlt.trans_le hb).ne').trans (h.data b (h.sb ▸ hb))
  · rw [he.dinode ip hip', update_self]

/-- A number disappears from the copy. -/
theorem Freeing.wp_clearAddr (h : Freeing r ip r') (m : Nat) {Q : Unit → State → Prop}
    (hQ : ∀ r'', Freeing r ip r'' → Q () r'') : wp (clearAddr ip m) Q (fun _ => True) r' := by
  rw [Raw.clearAddr, Raw.setInode, wp_modify]
  refine hQ _ (h.setInode (fun d => { d with addrs := update d.addrs m 0 }) (fun l => ?_)
    (InRange.clearAddr h.range))
  by_cases hlm : l = m
  · rw [hlm]
    exact .inl (update_self ..)
  · exact .inr (update_of_ne hlm ..)

/-- The end of `itrunc`. -/
theorem Freeing.wp_end (h : Freeing r ip r') (hl : Layout r.sb) (hip : ip < r.sb.ninodes) :
    wp (do Raw.setInode ip fun d => { d with size := 0 }
           iupdate ip) (fun _ => Freeing r ip) (fun _ => True) r' := by
  rw [wp_bind, Raw.setInode, wp_modify]
  have hsize := h.setInode (fun d => { d with size := 0 }) (fun _ => .inr rfl)
    (h.range.resize (Nat.two_pow_pos 32))
  exact wp_ok (iupdate_eq _ ip) (hsize.stored hl hip).1

theorem wp_itrunc (hl : Layout r.sb) (hip : ip < r.sb.ninodes) (hd : (r.inode ip).InRange)
    (hblocks : InData r (r.inode ip)) :
    wp (itrunc ip) (fun _ => Freeing r ip) (fun _ => True) r := by
  have hstart : Freeing r ip r := ⟨rfl, fun _ _ _ => rfl, fun _ _ => rfl, fun _ => .inr rfl, hd⟩
  have hdirect : ∀ m, m ≤ NDIRECT → (r.inode ip).addrs m ≠ 0 →
      r.sb.datastart ≤ (r.inode ip).addrs m ∧ (r.inode ip).addrs m < r.sb.size := fun m hm h0 => by
    have hin := hblocks m
    rw [slot_le hm] at hin
    exact hin h0
  rw [itrunc, wp_bind]
  refine wp_conseq (wp_forM_range (fun _ => Freeing r ip) hstart fun i r' hi h => ?_)
    fun _ r₁ h₁ => ?_
  · simp only [wp_bind, wp_get, wp_ite, wp_pure]
    refine ⟨fun h0 => ?_, fun _ => h⟩
    have heq := (h.addrs i).resolve_left h0
    rw [heq] at h0 ⊢
    exact h.wp_bfree hl (hdirect i (by omega) h0).2 fun r'' h'' _ => h''.wp_clearAddr i fun _ => id
  · rw [wp_bind, wp_get]
    by_cases h0 : (r₁.inode ip).addrs NDIRECT = 0
    · rw [if_neg (not_not.mpr h0)]
      exact h₁.wp_end hl hip
    · rw [if_pos h0]
      have heq := (h₁.addrs NDIRECT).resolve_left h0
      rw [heq] at h0 ⊢
      obtain ⟨hge, hlt⟩ := hdirect NDIRECT le_rfl h0
      rw [wp_bind]
      refine wp_conseq (wp_forM_range (fun _ => Freeing r ip) h₁ fun j r' hj h => ?_)
        fun _ r₂ h₂ => ?_
      · simp only [wp_bind, wp_get, wp_ite, wp_pure]
        refine ⟨fun hw => ?_, fun _ => h⟩
        rw [h.data _ hge] at hw ⊢
        have hin := hblocks (NDIRECT + 1 + j)
        rw [slot_indirect h0 hj] at hin
        exact h.wp_bfree hl (hin hw).2 fun _ h'' _ => h''
      · rw [wp_bind]
        refine h₂.wp_bfree hl hlt fun r₃ h₃ _ => ?_
        rw [wp_bind]
        exact h₃.wp_clearAddr NDIRECT fun r₄ h₄ => h₄.wp_end hl hip

theorem Freeing.stats (h : Freeing r ip r') (h1 : 1 ≤ ip) (hip : ip < r.sb.ninodes)
    (halloc : (r.dinode ip).type ≠ 0) (hfree : (r'.dinode ip).type = 0) :
    (getFsStats r).allocated_inodes = (getFsStats r').allocated_inodes + 1 := by
  have hmem : ip ∈ r.inodes isUsed :=
    Finset.mem_filter.mpr ⟨Finset.mem_Ico.mpr ⟨h1, hip⟩, decide_eq_true halloc⟩
  have hinodes : r'.inodes isUsed = (r.inodes isUsed).erase ip := by
    ext j
    simp only [State.inodes, h.sb, Finset.mem_filter, Finset.mem_erase, Finset.mem_Ico]
    by_cases hj : j = ip
    · simp [hj, hfree, isUsed]
    · constructor
      · rintro ⟨hlt, ht⟩
        rw [h.others j hlt.2 hj] at ht
        exact ⟨hj, hlt, ht⟩
      · rintro ⟨-, hlt, ht⟩
        rw [h.others j hlt.2 hj]
        exact ⟨hlt, ht⟩
  rw [allocated_inodes_eq, allocated_inodes_eq, hinodes, Finset.card_erase_add_one hmem]

/-- **A freeing `iput`** takes one inode off the allocated ones. -/
theorem wp_iput (hl : Layout r.sb) (h1 : 1 ≤ ip) (hip : ip < r.sb.ninodes) (hd : (r.inode ip).InRange)
    (hblocks : InData r (r.inode ip)) (halloc : (r.dinode ip).type ≠ 0)
    (hlast : r.valid ip ∧ (r.inode ip).nlink = 0 ∧ r.ref ip = 1) :
    wp (iput ip) (fun _ r' => (getFsStats r).allocated_inodes = (getFsStats r').allocated_inodes + 1)
      (fun _ => True) r := by
  rw [iput, wp_bind, wp_get, if_pos hlast, wp_bind, ifree, wp_bind]
  refine wp_conseq (wp_itrunc hl hip hd hblocks) fun _ r₁ h₁ => ?_
  have hrange : Dinode.InRange { r₁.inode ip with type := 0 } := { h₁.range with type := rfl }
  have h₂ := h₁.setInode (fun d => { d with type := 0 }) (fun _ => .inr rfl) hrange
  obtain ⟨h₃, hself⟩ := h₂.stored hl hip
  rw [wp_bind, Raw.setInode, wp_modify, wp_bind]
  refine wp_ok (iupdate_eq _ ip) ?_
  rw [wp_modify, iputRef, wp_modify]
  refine h₃.stats h1 hip halloc ?_
  rw [hself]
  simp only [update_self]

end

/-! ## 4. How often the allocators succeed -/

/-- `balloc`, so many times in a row. -/
def ballocs : Nat → M Unit
  | 0 => return ()
  | n + 1 => do
    let _ ← balloc
    ballocs n

/-- `ialloc` for each of the types, and each time an `iput` of the inode. -/
def iallocs : List Int → M Unit
  | [] => return ()
  | type :: types => do
    let ip ← ialloc type
    iput ip
    iallocs types

section

variable {r r' : State} {b : Nat}

/-- `balloc` succeeds as long as there is a free block. -/
theorem balloc_cases (hl : Layout r.sb) (hm : Marked r) :
    ((getFsStats r).free_disk_blocks = 0 ∧ balloc r = .error .outOfBlocks) ∨
    ∃ b r', balloc r = .ok (b, r') ∧ r'.sb = r.sb ∧ Marked r' ∧ getFsStats r =
      { getFsStats r' with free_disk_blocks := (getFsStats r').free_disk_blocks + 1 } := by
  rw [balloc_eq]
  cases hfind : (List.range r.sb.size).find? fun b => !r.bitmap b with
  | none =>
    refine .inl ⟨?_, rfl⟩
    rw [free_disk_blocks_eq, Finset.card_eq_zero, State.clear, Finset.filter_eq_empty_iff]
    intro b hb h0
    have hset := List.find?_eq_none.mp hfind b (List.mem_range.mpr (Finset.mem_range.mp hb))
    rw [h0] at hset
    exact hset rfl
  | some b =>
    have hlt : b < r.sb.size := List.mem_range.mp (List.mem_of_find?_eq_some hfind)
    have hfree : r.bitmap b = false := by simpa using List.find?_some hfind
    have he := effect_balloc hl hm hlt hfree
    refine .inr ⟨b, _, rfl, rfl, he.marked fun c hc => ?_, he.stats_set ?_⟩
    · rw [update_apply, hm c hc, ite_self]
    · exact Finset.mem_filter.mpr ⟨Finset.mem_range.mpr hlt, hfree⟩

/-- **`balloc` succeeds exactly `free_disk_blocks` times,** and then panics. -/
theorem ballocs_spec (hl : Layout r.sb) (hm : Marked r) (n : Nat) :
    (n ≤ (getFsStats r).free_disk_blocks ∧ ∃ r', ballocs n r = .ok ((), r')) ∨
      ((getFsStats r).free_disk_blocks < n ∧ ballocs n r = .error .outOfBlocks) := by
  induction n generalizing r with
  | zero => exact .inl ⟨Nat.zero_le _, r, rfl⟩
  | succ n ih =>
    have hrun : ballocs (n + 1) r = (balloc r).bind fun x => ballocs n x.2 := rfl
    rw [hrun]
    rcases balloc_cases hl hm with ⟨h0, herr⟩ | ⟨b, r₁, hok, hsb, hm₁, hstats⟩
    · rw [herr, h0]
      exact .inr ⟨Nat.succ_pos n, rfl⟩
    · rw [hok, hstats]
      exact (ih (hsb ▸ hl) hm₁).imp (And.imp_left Nat.succ_le_succ) (And.imp_left Nat.succ_lt_succ)

/-- An `iput` that is not the last one of an inode without links. -/
theorem iput_eq {ip : Nat} (h : ¬(r.valid ip ∧ (r.inode ip).nlink = 0 ∧ r.ref ip = 1)) :
    iput ip r = iputRef ip r := by
  have hrun : iput ip r = (do
    if r.valid ip ∧ (r.inode ip).nlink = 0 ∧ r.ref ip = 1 then ifree ip
    iputRef ip : M Unit) r := rfl
  rw [hrun, if_neg h]

/-- An inode that has just been allocated has not been read, or has other references. -/
theorem iput_got {i : Nat} (r : State) : ∃ r', iput i (r.got i) = .ok ((), r') ∧ r'.sb = r.sb ∧
    r'.disk = r.disk ∧ r'.used = r.used := by
  by_cases h0 : r.ref i = 0
  · refine ⟨_, (iput_eq fun h => ?_).trans rfl, rfl, rfl, ?_⟩
    · have hvalid : (r.got i).valid i = false := by
        simp only [State.got, if_pos h0, update_self]
      rw [hvalid] at h
      cases h.1
    · simp [State.got, h0]
  · refine ⟨_, (iput_eq fun h => ?_).trans rfl, rfl, rfl, ?_⟩
    · have href := h.2.2
      simp only [State.got, update_self] at href
      omega
    · simp [State.got, h0]

theorem stats_congr (hsb : r'.sb = r.sb) (hdisk : r'.disk = r.disk) : getFsStats r' = getFsStats r := by
  simp only [getFsStats, State.dinode, hsb, hdisk]

theorem allocated_lt_iff : (getFsStats r).allocated_inodes < r.sb.ninodes - 1 ↔
    ∃ i, 1 ≤ i ∧ i < r.sb.ninodes ∧ (r.dinode i).type = 0 := by
  have hcard : (Finset.Ico 1 r.sb.ninodes).card = r.sb.ninodes - 1 := Nat.card_Ico ..
  have htest : ∀ i, ¬isUsed (r.dinode i).type = true ↔ (r.dinode i).type = 0 := fun i => by simp [isUsed]
  rw [allocated_inodes_eq, ← hcard, State.inodes]
  constructor
  · intro hlt
    by_contra hno
    refine hlt.ne (congrArg Finset.card (Finset.filter_true_of_mem fun i hi => ?_))
    by_contra h0
    exact hno ⟨i, (Finset.mem_Ico.mp hi).1, (Finset.mem_Ico.mp hi).2, (htest i).mp h0⟩
  · rintro ⟨i, h1, hi, h0⟩
    exact Finset.card_lt_card (Finset.filter_ssubset.mpr
      ⟨i, Finset.mem_Ico.mpr ⟨h1, hi⟩, (htest i).mpr h0⟩)

/-- `ialloc` finds an inode as long as there is a free one, and ends in `iget`. -/
theorem ialloc_cases {type : Int} (hl : Layout r.sb) (h0 : type ≠ 0) (htype : short type = type) :
    (r.sb.ninodes - 1 ≤ (getFsStats r).allocated_inodes ∧ ialloc type r = .error .noInodes) ∨
    ((getFsStats r).allocated_inodes < r.sb.ninodes - 1 ∧ ∃ i, ∃ r₁ : State, r₁.sb = r.sb ∧
      r₁.used = r.used ∧ (getFsStats r₁).allocated_inodes = (getFsStats r).allocated_inodes + 1 ∧
      ialloc type r = if r₁.ref i = 0 ∧ NINODE ≤ r₁.used.length then .error .igetNoInodes
        else .ok (i, r₁.got i)) := by
  rw [ialloc_eq]
  cases hfind : (List.range' 1 (r.sb.ninodes - 1)).find? fun inum => (r.dinode inum).type = 0 with
  | none =>
    refine .inl ⟨not_lt.mp fun hlt => ?_, rfl⟩
    obtain ⟨i, h1, hi, hfree⟩ := allocated_lt_iff.mp hlt
    have hmem : i ∈ List.range' 1 (r.sb.ninodes - 1) := List.mem_range'_1.mpr ⟨h1, by omega⟩
    exact List.find?_eq_none.mp hfind i hmem (decide_eq_true hfree)
  | some i =>
    have hmem := List.mem_range'_1.mp (List.mem_of_find?_eq_some hfind)
    have hlt : i < r.sb.ninodes := by omega
    have hfree : (r.dinode i).type = 0 := by simpa using List.find?_some hfind
    have he := effect_store hl hlt (inRange_typed htype)
    refine .inr ⟨allocated_lt_iff.mpr ⟨i, hmem.1, hlt, hfree⟩, i,
      r.stored i { Dinode.zero with type := type }, rfl, rfl, he.stats_alloc hmem.1 hlt hfree h0, ?_⟩
    simp only [iget_eq]
    split <;> rfl

/-- **`ialloc` succeeds exactly as often as there are inodes left,** if each inode is put back, and then
panics. -/
theorem iallocs_spec (hl : Layout r.sb) (hcache : r.used.length < NINODE) (types : List Int)
    (htypes : ∀ t ∈ types, t ≠ 0 ∧ short t = t) :
    (types.length ≤ r.sb.ninodes - 1 - (getFsStats r).allocated_inodes ∧
        ∃ r', iallocs types r = .ok ((), r')) ∨
      (r.sb.ninodes - 1 - (getFsStats r).allocated_inodes < types.length ∧
        iallocs types r = .error .noInodes) := by
  induction types generalizing r with
  | nil => exact .inl ⟨Nat.zero_le _, r, rfl⟩
  | cons type types ih =>
    obtain ⟨⟨h0, htype⟩, hrest⟩ := List.forall_mem_cons.mp htypes
    have hrun : iallocs (type :: types) r = (ialloc type r).bind fun x =>
      (iput x.1 x.2).bind fun y => iallocs types y.2 := rfl
    rw [hrun, List.length_cons]
    rcases ialloc_cases hl h0 htype with ⟨hge, herr⟩ | ⟨hlt, i, r₁, hsb, hused, hstats, hok⟩
    · rw [herr]
      exact .inr ⟨by omega, rfl⟩
    · obtain ⟨r₂, hput, hsb₂, hdisk₂, hused₂⟩ := iput_got (i := i) r₁
      rw [if_neg fun h => absurd h.2 (not_le.mpr (hused ▸ hcache))] at hok
      have hrest₂ := ih (r := r₂) (by rw [hsb₂, hsb]; exact hl) (by rw [hused₂, hused]; exact hcache)
        hrest
      rw [hok]
      simp only [Except.bind, hput]
      rw [stats_congr hsb₂ hdisk₂, hstats, hsb₂, hsb] at hrest₂
      exact hrest₂.imp (And.imp_left fun hle => by omega) (And.imp_left fun hgt => by omega)

end

/-! ## 5. Blocks of files -/

/-- The blocks that the allocated inodes refer to, indirect blocks among them. -/
def referenced (s : FileSys) : Set Nat := { b | b ≠ 0 ∧ ∃ i m, s.Allocated i ∧ s.slotNum i m = b }

/-- **The free blocks and the blocks of the files are the data blocks.** -/
theorem free_add_referenced {r : State} {s : FileSys} (hl : Layout r.sb) (hm : Marked r)
    (h : Reads r s) (hown : Owned s) :
    (getFsStats r).free_disk_blocks + (referenced s).ncard = r.sb.nblocks := by
  have hnblocks : r.sb.datastart = r.sb.size - r.sb.nblocks := rfl
  have hpos : ∀ b, s.InData b → b ≠ 0 := fun b hb => by
    have hlt := hl.bits b (h.sb ▸ hb.2)
    have hge := hb.1
    rw [h.sb] at hge
    omega
  -- the blocks of files are the data blocks whose bit is set
  have href : referenced s =
      ((Finset.Ico r.sb.datastart r.sb.size).filter fun b => ¬r.bitmap b = false : Finset Nat) := by
    ext b
    simp only [referenced, Set.mem_ofPred_eq, Finset.coe_filter, Finset.mem_Ico, Bool.not_eq_false]
    constructor
    · rintro ⟨h0, i, m, hi, rfl⟩
      obtain ⟨hin, hbit⟩ := hown.used i m hi h0
      rw [FileSys.InData, h.sb] at hin
      exact ⟨hin, (h.bitmap _ hin.2).symm.trans hbit⟩
    · rintro ⟨hin, hbit⟩
      have hdata : s.InData b := by rwa [FileSys.InData, h.sb]
      exact ⟨hpos b hdata, hown.owner b hdata ((h.bitmap b hin.2).trans hbit)⟩
  -- a clear bit is that of a data block
  have hclear : r.clear = (Finset.Ico r.sb.datastart r.sb.size).filter fun b => r.bitmap b = false := by
    ext b
    simp only [State.clear, Finset.mem_filter, Finset.mem_range, Finset.mem_Ico]
    constructor
    · rintro ⟨hlt, hbit⟩
      refine ⟨⟨not_lt.mp fun hb => ?_, hlt⟩, hbit⟩
      rw [hm b hb] at hbit
      cases hbit
    · rintro ⟨hin, hbit⟩
      exact ⟨hin.2, hbit⟩
  rw [href, Set.ncard_coe_finset, free_disk_blocks_eq, hclear, Finset.card_filter_add_card_filter_not,
    Nat.card_Ico, hnblocks]
  have hle := hl.nblocks
  omega

/-! ## 6. `getfsinfo` tells the truth -/

/-- **`get_fs_stats` reports the exact numbers,** and they are those of the allocations that can still
succeed. -/
theorem getfsinfo_exact {r : State} (hl : Layout r.sb) (hm : Marked r) :
    -- the counts
    getFsStats r =
      ⟨(r.inodes isFile).card, (r.inodes isDir).card, (r.inodes isUsed).card, r.clear.card⟩ ∧
    -- how often the allocators succeed
    (∀ n, (n ≤ (getFsStats r).free_disk_blocks ∧ ∃ r', ballocs n r = .ok ((), r')) ∨
      ((getFsStats r).free_disk_blocks < n ∧ ballocs n r = .error .outOfBlocks)) ∧
    (r.used.length < NINODE → ∀ types : List Int, (∀ t ∈ types, t ≠ 0 ∧ short t = t) →
      (types.length ≤ r.sb.ninodes - 1 - (getFsStats r).allocated_inodes ∧
        ∃ r', iallocs types r = .ok ((), r')) ∨
      (r.sb.ninodes - 1 - (getFsStats r).allocated_inodes < types.length ∧
        iallocs types r = .error .noInodes)) ∧
    -- what one call changes
    (∀ b r', balloc r = .ok (b, r') → getFsStats r =
      { getFsStats r' with free_disk_blocks := (getFsStats r').free_disk_blocks + 1 }) ∧
    (∀ b r', b < r.sb.size → bfree b r = .ok ((), r') → getFsStats r' =
      { getFsStats r with free_disk_blocks := (getFsStats r).free_disk_blocks + 1 }) ∧
    (∀ t i r', t ≠ 0 → short t = t → ialloc t r = .ok (i, r') →
      (getFsStats r').allocated_inodes = (getFsStats r).allocated_inodes + 1) ∧
    (∀ ip r', 1 ≤ ip → ip < r.sb.ninodes → (r.inode ip).InRange → InData r (r.inode ip) →
      (r.dinode ip).type ≠ 0 → r.valid ip ∧ (r.inode ip).nlink = 0 ∧ r.ref ip = 1 →
      iput ip r = .ok ((), r') →
      (getFsStats r).allocated_inodes = (getFsStats r').allocated_inodes + 1) ∧
    -- the blocks of files
    ∀ s, Reads r s → Owned s →
      (getFsStats r).free_disk_blocks + (referenced s).ncard = r.sb.nblocks := by
  refine ⟨getFsStats_eq r, ballocs_spec hl hm, iallocs_spec hl, fun b r' hok => ?_,
    fun b r' hb hok => ?_, fun t i r' h0 ht hok => ?_, fun ip r' h1 hip hd hblocks halloc hlast hok => ?_,
    fun s h hown => free_add_referenced hl hm h hown⟩
  · rcases balloc_cases hl hm with ⟨-, herr⟩ | ⟨c, r₁, hok₁, -, -, hstats⟩
    · rw [herr] at hok
      cases hok
    · rw [hok₁] at hok
      cases hok
      exact hstats
  · rw [bfree_eq] at hok
    split at hok
    next => cases hok
    next hused =>
      cases hok
      exact (effect_bfree hl hb).stats_clear hb (Bool.not_eq_false _ ▸ hused)
  · rcases ialloc_cases hl h0 ht with ⟨-, herr⟩ | ⟨-, j, r₁, -, -, hstats, hok₁⟩
    · rw [herr] at hok
      cases hok
    · rw [hok₁] at hok
      split at hok
      next => cases hok
      next =>
        cases hok
        exact hstats
  · have hput := wp_iput hl h1 hip hd hblocks halloc hlast
    rw [wp, hok] at hput
    exact hput

/-- A disk with 64 inodes and 64 blocks.  The inodes up to 55 are files, three blocks are free, and the
cache is full. -/
def crowded : State where
  sb := ⟨64, 53, 64, 0, 2, 2, 10⟩
  disk b k := if b < 9 then (if k % 64 = 0 then 2 else 0) else if b = 10 then
    (if k < 7 then 255 else 31) else 0
  inode _ := Dinode.zero
  valid _ := false
  ref i := if 1 ≤ i ∧ i ≤ 50 then 1 else 0
  used := List.range' 1 50

theorem crowded_layout : Layout crowded.sb := by
  refine ⟨by decide, fun i hi => ?_, fun b hb => ?_, fun i b hi hb => ?_⟩ <;>
    simp only [crowded, Superblock.iblock, Superblock.bblock, Superblock.datastart, IPB, BPB] at * <;>
    omega

theorem crowded_marked : Marked crowded := by
  have hbits : ∀ b, b < 11 → crowded.bitmap b = true := by decide +kernel
  exact hbits

theorem getfsinfo_exact_crowded : getFsStats crowded = ⟨55, 0, 55, 3⟩ ∧
    (∃ r', ballocs 3 crowded = .ok ((), r')) ∧ ballocs 4 crowded = .error .outOfBlocks := by
  obtain ⟨-, hballocs, -⟩ := getfsinfo_exact crowded_layout crowded_marked
  have hstats : getFsStats crowded = ⟨55, 0, 55, 3⟩ := by decide +kernel
  have h3 := hballocs 3
  have h4 := hballocs 4
  rw [hstats] at h3 h4
  exact ⟨hstats, (h3.resolve_right fun h => absurd h.1 (by decide)).2,
    (h4.resolve_left fun h => absurd h.1 (by decide)).2⟩

/-- **A full cache:** eight inodes are free, and `ialloc` panics. -/
theorem ialloc_cache_full : Layout crowded.sb ∧ Marked crowded ∧
    (getFsStats crowded).allocated_inodes + 8 = crowded.sb.ninodes - 1 ∧
    ialloc T_FILE crowded = .error .igetNoInodes := by
  refine ⟨crowded_layout, crowded_marked, by decide +kernel, ?_⟩
  have hfind : ((List.range' 1 (crowded.sb.ninodes - 1)).find? fun inum =>
      (crowded.dinode inum).type = 0) = some 56 := by decide +kernel
  rw [ialloc_eq, hfind]
  simp only [iget_eq]
  rfl

/-! ## 7. Blocks and regions agree -/

/-- **Any calls of the allocators** return the same numbers on regions and on blocks, and `get_fs_stats`
reports the same afterwards; or both end in the same panic, or the log ends the calls on regions. -/
theorem regions_simulate_blocks {S : Superblock} {r : State} {s : FileSys} (h : Agree S r s)
    (cs : List Call) (hcs : ∀ c ∈ cs, c.Legal S) :
    wp (cs.mapM Call.onRegions) (fun ns s' => ∃ r', cs.mapM Call.onBlocks r = .ok (ns, r') ∧
        Agree S r' s' ∧ ∀ (p : Pid) (k : Kern), k.fs = s' →
          Fs.getFsStats.seq p k = .ok (getFsStats r', k))
      (fun e => OfLog e ∨ cs.mapM Call.onBlocks r = .error e) s := by
  have hsim : Sim S (cs.mapM Call.onRegions) (cs.mapM Call.onBlocks) r s := by
    induction cs generalizing r s with
    | nil => exact .pure h []
    | cons c cs ih =>
      obtain ⟨hc, hrest⟩ := List.forall_mem_cons.mp hcs
      rw [List.mapM_cons, List.mapM_cons]
      refine (h.call hc).bind fun n r₁ s₁ _ h₁ => ?_
      exact (ih h₁ hrest).bind fun ns _ _ _ h₂ => .pure h₂ (n :: ns)
  refine wp_conseq hsim fun ns s' hrun => ?_
  obtain ⟨r', hok, h'⟩ := hrun
  exact ⟨r', hok, h', fun p k hk => Reads.getFsStats (hk ▸ h'.toReads) p⟩

/-- The crowded disk with a log, and its regions in an operation. -/
def logged : State := { crowded with sb := { crowded.sb with nlog := 30 } }

def loggedFs : FileSys :=
  ⟨logged.sb, logged.dinode, logged.bitmap, logged.disk, logged.inode, logged.ref, logged.valid,
    fun _ => none, logged.used, 1, [], fun _ => ⟨none, none⟩⟩

theorem regions_simulate_blocks_logged : ∃ r',
    [Call.balloc, .bfree 61].mapM Call.onBlocks logged = .ok ([61, 61], r') := by
  have hagree : Agree logged.sb logged loggedFs :=
    ⟨⟨rfl, fun _ _ => rfl, fun _ _ => rfl, fun _ _ _ => rfl, rfl, rfl, rfl, rfl⟩, rfl,
      { crowded_layout with }, crowded_marked⟩
  have hlegal : ∀ c ∈ [Call.balloc, .bfree 61], c.Legal logged.sb :=
    List.forall_mem_cons.mpr ⟨trivial, List.forall_mem_singleton.mpr ⟨by decide, by decide⟩⟩
  obtain ⟨s', hok⟩ : ∃ s', [Call.balloc, .bfree 61].mapM Call.onRegions loggedFs =
    .ok ([61, 61], s') := ⟨_, rfl⟩
  obtain ⟨r', hblocks, -⟩ := wp_of_ok (regions_simulate_blocks hagree _ hlegal) hok
  exact ⟨r', hblocks⟩

end Xv6.Fs.Raw
