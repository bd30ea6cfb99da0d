/-
# Files as byte arrays

What the callers of the inode layer see: an inode is a `File`, that is its type, numbers, link
count, size and bytes.  `view` reads the files off the state; it looks through the cache and
the block maps.  Under ownership and coherence (`Good`) the operations under an inode's lock
are updates of ONE file of the view, and everything else is left alone (`Updated`).

The later modules reason about the view and never about blocks.
-/
import Xv6.Fs.Own

namespace Xv6.Fs

open Function (update update_of_ne update_self)

open Bytes

/-! ## 1. The view -/

/-- A file, as `readi` and `writei` see it.  The bytes behind the end are 0. -/
structure File where
  type : Int
  major : Int
  minor : Int
  nlink : Int
  size : Nat
  bytes : Nat → UInt8

/-- An inode that is not allocated. -/
def File.free : File := ⟨0, 0, 0, 0, 0, fun _ => 0⟩

/-- Byte `k` of the blocks of an inode. -/
def byteAt (data : Nat → Bytes) (d : Dinode) (k : Nat) : UInt8 :=
  if blockOf data d (k / BSIZE) = 0 then 0
  else data (blockOf data d (k / BSIZE)) (k % BSIZE)

/-- The file of an inode. -/
def fileOf (data : Nat → Bytes) (d : Dinode) : File where
  type := d.type
  major := d.major
  minor := d.minor
  nlink := d.nlink
  size := d.size
  bytes k := if k < d.size then byteAt data d k else 0

/-- The files of the file system. -/
def FileSys.view (s : FileSys) (i : Nat) : File :=
  if Alloc s i then fileOf s.data (s.cur i) else File.free

/-- The state between two operations on the contents of inodes. -/
structure Good (s : FileSys) : Prop where
  own : Own s
  coherent : Coherent s

/-- `s'` is `s` with file `f` in the place of file `ip`. -/
structure Updated (s s' : FileSys) (ip : Nat) (f : File) : Prop where
  good : Good s'
  frame : Frame s s'
  view : s'.view = Function.update s.view ip f

/-- `writei` of `src` at `off`. -/
def File.write (f : File) (off : Nat) (src : List UInt8) : File :=
  { f with size := max f.size (off + src.length), bytes := splice f.bytes off src }

/-- What `readi` returns for a file that is not a device. -/
def File.read (f : File) (off n : Nat) : Option (List UInt8) :=
  if f.size < off ∨ add32 off n < off then none
  else some (slice f.bytes off (if f.size < off + n then f.size - off else n))

theorem view_of_alloc {s : FileSys} {i : Nat} (h : Alloc s i) :
    s.view i = fileOf s.data (s.cur i) := if_pos h

theorem view_of_not_alloc {s : FileSys} {i : Nat} (h : ¬ Alloc s i) : s.view i = File.free :=
  if_neg h

theorem alloc_iff_view {s : FileSys} {i : Nat} : Alloc s i ↔ (s.view i).type ≠ 0 := by
  constructor
  · intro h
    rw [view_of_alloc h]
    exact h.2
  · intro h
    by_contra hn
    rw [view_of_not_alloc hn] at h
    exact h rfl

/-- A cached inode is allocated. -/
theorem Coherent.alloc {s : FileSys} (h : Coherent s) {i : Nat} (hv : s.valid i = true) :
    Alloc s i := by
  obtain ⟨hlt, -, ht⟩ := h i hv
  exact ⟨hlt, by rwa [cur_of_valid hv]⟩

theorem Coherent.cur {s : FileSys} (h : Coherent s) (i : Nat) : s.cur i = s.dinode i := by
  cases hv : s.valid i with
  | true => rw [cur_of_valid hv, (h i hv).2.1]
  | false => exact cur_of_not_valid hv

/-- The fields of a cached inode are those of its file. -/
theorem Good.view_eq {s : FileSys} (h : Good s) {i : Nat} (hv : s.valid i = true) :
    s.view i = fileOf s.data (s.inode i) := by
  rw [view_of_alloc (h.coherent.alloc hv), cur_of_valid hv]

theorem Good.hasBlocks {s : FileSys} (h : Good s) {i : Nat} (hv : s.valid i = true)
    (ht : (s.inode i).type ≠ T_DEV) : HasBlocks s.data (s.inode i) (nblk (s.inode i).size) := by
  have := h.own.shape i (h.coherent.alloc hv)
  rw [cur_of_valid hv] at this
  exact this ht

theorem byteAt_congr {data data' : Nat → Bytes} {d d' : Dinode} {k : Nat}
    (hb : blockOf data' d' (k / BSIZE) = blockOf data d (k / BSIZE))
    (hd : blockOf data d (k / BSIZE) ≠ 0 →
      data' (blockOf data d (k / BSIZE)) = data (blockOf data d (k / BSIZE))) :
    byteAt data' d' k = byteAt data d k := by
  unfold byteAt
  rw [hb]
  by_cases hz : blockOf data d (k / BSIZE) = 0
  · rw [if_pos hz, if_pos hz]
  · rw [if_neg hz, if_neg hz, hd hz]

/-! ## 2. Numbers of blocks -/

theorem lt_nblk {size k : Nat} : k < nblk size ↔ k * BSIZE < size := by
  simp only [nblk, BSIZE]
  omega

theorem div_lt_nblk {size k : Nat} (h : k < size) : k / BSIZE < nblk size := by
  rw [lt_nblk]
  have := Nat.div_mul_le_self k BSIZE
  omega

theorem nblk_le {off nb : Nat} (h : off ≤ nb * BSIZE) : nblk off ≤ nb := by
  by_contra hlt
  have := lt_nblk.mp (not_le.mp hlt)
  omega

theorem nblk_mono {a b : Nat} (h : a ≤ b) : nblk a ≤ nblk b := by
  unfold nblk
  exact Nat.div_le_div_right (by omega)

theorem nblk_mul_ge (size : Nat) : size ≤ nblk size * BSIZE := by
  simp only [nblk, BSIZE]
  omega

/-- Bytes that follow each other inside a block. -/
theorem add_div_block {off k : Nat} (h : off % BSIZE + k < BSIZE) :
    (off + k) / BSIZE = off / BSIZE := by
  simp only [BSIZE] at h ⊢
  omega

theorem add_mod_block {off k : Nat} (h : off % BSIZE + k < BSIZE) :
    (off + k) % BSIZE = off % BSIZE + k := by
  simp only [BSIZE] at h ⊢
  omega

/-! ## 3. Reading -/

theorem slice_append (f : Bytes) (off m k : Nat) :
    slice f off m ++ slice f (off + m) k = slice f off (m + k) := by
  unfold slice
  rw [List.range_add, List.map_append, List.map_map]
  congr 1
  refine List.map_congr_left fun j _ => ?_
  simp [Nat.add_assoc]

theorem slice_congr {f g : Bytes} {off off' n : Nat} (h : ∀ k, k < n → f (off + k) = g (off' + k)) :
    slice f off n = slice g off' n :=
  List.map_congr_left fun k hk => h k (List.mem_range.mp hk)

section

variable {s : FileSys} {ip : Nat} {E : Panic → Prop}

theorem wp_readLoop {nb : Nat} (hb : ∀ bn, bn < nb → blockOf s.data (s.inode ip) bn ≠ 0) :
    ∀ (fuel off n : Nat), n ≤ fuel → off + n ≤ nb * BSIZE →
      ∀ {Q : List UInt8 → FileSys → Prop}, Q (slice (byteAt s.data (s.inode ip)) off n) s →
        wp (readLoop ip fuel off n) Q E s
  | 0, off, n, hn, _, Q, hQ => by
    obtain rfl : n = 0 := by omega
    exact hQ
  | fuel + 1, off, n, hn, hle, Q, hQ => by
    unfold readLoop
    by_cases h0 : n = 0
    · subst h0
      exact hQ
    · rw [if_neg h0, wp_bind]
      have hne : blockOf s.data (s.inode ip) (off / BSIZE) ≠ 0 :=
        hb _ (Nat.div_lt_of_lt_mul (by rw [Nat.mul_comm]; omega))
      refine wp_bmap_of_ne hne ?_
      simp only [wp_bind, wp_get, wp_pure]
      set m := min n (BSIZE - off % BSIZE) with hm
      have hmod := Nat.mod_lt off (show 0 < BSIZE by decide)
      refine wp_readLoop hb fuel (off + m) (n - m) (by omega) (by omega) ?_
      -- the first `m` bytes are in one block
      have hfirst : slice (s.data (blockOf s.data (s.inode ip) (off / BSIZE))) (off % BSIZE) m =
          slice (byteAt s.data (s.inode ip)) off m := by
        refine slice_congr fun k hk => ?_
        have hin : off % BSIZE + k < BSIZE := by omega
        simp only [byteAt, add_div_block hin, add_mod_block hin, if_neg hne]
      rw [hfirst, slice_append, show m + (n - m) = n by omega]
      exact hQ

/-- `readi` of bytes whose blocks are there. -/
theorem wp_readi_blocks {nb : Nat} (hb : ∀ bn, bn < nb → blockOf s.data (s.inode ip) bn ≠ 0)
    (ht : (s.inode ip).type ≠ T_DEV) {off n : Nat}
    (hle : min (s.inode ip).size (off + n) ≤ nb * BSIZE)
    {Q : Option (List UInt8) → FileSys → Prop}
    (hQ : Q ((fileOf s.data (s.inode ip)).read off n) s) : wp (readi ip off n) Q E s := by
  have hsize : (fileOf s.data (s.inode ip)).size = (s.inode ip).size := rfl
  have hbytes : (fileOf s.data (s.inode ip)).bytes =
      fun k => if k < (s.inode ip).size then byteAt s.data (s.inode ip) k else 0 := rfl
  simp only [readi, wp_bind, wp_get, if_neg ht]
  rw [File.read, hsize, hbytes] at hQ
  by_cases hbad : (s.inode ip).size < off ∨ add32 off n < off
  · rw [if_pos hbad] at hQ ⊢
    exact hQ
  · rw [if_neg hbad] at hQ ⊢
    rw [wp_bind]
    set n' := if (s.inode ip).size < off + n then (s.inode ip).size - off else n with hn'
    have hend : off + n' = min (s.inode ip).size (off + n) := by
      have : ¬ (s.inode ip).size < off := fun hlt => hbad (Or.inl hlt)
      rw [hn']
      split <;> omega
    refine wp_readLoop hb n' off n' (Nat.le_refl _) (hend ▸ hle) ?_
    rw [wp_pure]
    convert hQ using 2
    refine slice_congr fun k hk => ?_
    rw [if_pos (by omega)]

/-- **`readi`** of a cached file returns its bytes and changes nothing. -/
theorem wp_readi (h : Good s) (hv : s.valid ip = true) (ht : (s.inode ip).type ≠ T_DEV)
    {off n : Nat} {Q : Option (List UInt8) → FileSys → Prop}
    (hQ : Q ((s.view ip).read off n) s) : wp (readi ip off n) Q E s := by
  rw [h.view_eq hv] at hQ
  exact wp_readi_blocks (fun bn => ((h.hasBlocks hv ht).block bn).mpr) ht
    ((Nat.min_le_left _ _).trans (nblk_mul_ge _)) hQ

/-- A device is read elsewhere. -/
theorem wp_readi_dev (ht : (s.inode ip).type = T_DEV) {off n : Nat}
    {Q : Option (List UInt8) → FileSys → Prop} (hQ : ∀ r, Q r s) :
    wp (readi ip off n) Q E s := by
  simp only [readi, wp_bind, wp_get, if_pos ht]
  split
  · exact hQ none
  · split
    · exact hQ none
    · exact hQ _

/-- In any case the state is as it was. -/
theorem wp_readi_same (h : Good s) (hv : s.valid ip = true) {off n : Nat}
    {Q : Option (List UInt8) → FileSys → Prop} (hQ : ∀ r, Q r s) :
    wp (readi ip off n) Q E s := by
  by_cases ht : (s.inode ip).type = T_DEV
  · exact wp_readi_dev ht hQ
  · exact wp_readi h hv ht (hQ _)

end

/-! ## 4. Writing -/

section

variable {s t : FileSys} {ip bn : Nat} {x : Bytes}

/-- New contents of a block of a file: every slot holds what it held. -/
theorem Base.slot_write (h : Base t) (ha : Alloc t ip)
    (h0 : blockOf t.data (t.cur ip) bn ≠ 0) {i : Nat} (hi : Alloc t i) (m : Nat) :
    slot (update t.data (blockOf t.data (t.cur ip) bn) x) (t.cur i) m =
      slot t.data (t.cur i) m :=
  slot_congr m fun _ => update_of_ne (h.block_ne_indirect ha hi h0) _ _

theorem Base.write (h : Base t) (ha : Alloc t ip) (h0 : blockOf t.data (t.cur ip) bn ≠ 0)
    (lh : List Nat) :
    Base { t with data := update t.data (blockOf t.data (t.cur ip) bn) x, lh := lh } := by
  refine h.congr rfl (fun _ _ => rfl) fun l => ?_
  obtain ⟨i, m⟩ := l
  by_cases hi : Alloc t i
  · rw [place_of_alloc hi, ← h.slot_write (x := x) ha h0 hi m]
    exact place_of_alloc hi
  · rw [place_of_not_alloc hi]
    exact place_of_not_alloc hi

theorem Base.byteAt_write (h : Base t) (ha : Alloc t ip) (h0 : blockOf t.data (t.cur ip) bn ≠ 0)
    {i : Nat} (hi : Alloc t i) (k : Nat) :
    byteAt (update t.data (blockOf t.data (t.cur ip) bn) x) (t.cur i) k =
      if i = ip ∧ k / BSIZE = bn then x (k % BSIZE) else byteAt t.data (t.cur i) k := by
  have hblock : blockOf (update t.data (blockOf t.data (t.cur ip) bn) x) (t.cur i)
      (k / BSIZE) = blockOf t.data (t.cur i) (k / BSIZE) := h.slot_write ha h0 hi _
  unfold byteAt
  rw [hblock]
  by_cases e : i = ip ∧ k / BSIZE = bn
  · obtain ⟨rfl, rfl⟩ := e
    rw [if_neg h0, if_pos ⟨rfl, rfl⟩, update_self]
  · rw [if_neg e]
    by_cases hz : blockOf t.data (t.cur i) (k / BSIZE) = 0
    · rw [if_pos hz, if_pos hz]
    · rw [if_neg hz, if_neg hz, update_of_ne]
      intro heq
      have := h.slot_inj hi ha hz heq
      exact e ⟨this.1, slotOf_inj this.2⟩

theorem Base.hasBlocks_write (h : Base t) (ha : Alloc t ip)
    (h0 : blockOf t.data (t.cur ip) bn ≠ 0) {i nb : Nat} (hi : Alloc t i)
    (hb : HasBlocks t.data (t.cur i) nb) :
    HasBlocks (update t.data (blockOf t.data (t.cur ip) bn) x) (t.cur i) nb := by
  refine ⟨fun bn' => ?_, hb.indirect⟩
  rw [← hb.block bn']
  exact not_congr (Eq.congr_left (h.slot_write ha h0 hi _))

/-- `writei(ip, ..)`, started in `s`, is in `t`, with the bytes of `ip` now `f` and `nb` blocks
behind them.  The size has not been set yet. -/
structure Writing (s t : FileSys) (ip nb : Nat) (f : Nat → UInt8) : Prop where
  frame : Frame s t
  dinode : t.dinode = s.dinode
  other : ∀ j, j ≠ ip → t.inode j = s.inode j
  self : ∃ addrs, t.inode ip = { s.inode ip with addrs := addrs }
  base : Base t
  blocks : HasBlocks t.data (t.cur ip) nb
  bytes : ∀ k, byteAt t.data (t.cur ip) k = f k
  blocks_other : ∀ i, i ≠ ip → Alloc s i → (s.cur i).type ≠ T_DEV →
    HasBlocks t.data (t.cur i) (nblk (s.cur i).size)
  bytes_other : ∀ i, i ≠ ip → Alloc s i → ∀ k,
    byteAt t.data (t.cur i) k = byteAt s.data (s.cur i) k
  le : nblk (s.inode ip).size ≤ nb
  keep : nb = nblk (s.inode ip).size → t.inode = s.inode

theorem Writing.start (h : Good s) (hv : s.valid ip = true) (ht : (s.inode ip).type ≠ T_DEV) :
    Writing s s ip (nblk (s.inode ip).size) (byteAt s.data (s.inode ip)) := by
  have hcur := cur_of_valid hv
  exact ⟨Frame.refl s, rfl, fun _ _ => rfl, ⟨_, rfl⟩, h.own.toBase, hcur ▸ h.hasBlocks hv ht,
    fun k => by rw [hcur], fun i _ hi hti => h.own.shape i hi hti, fun _ _ _ _ => rfl,
    Nat.le_refl _, fun _ => rfl⟩

variable {nb : Nat} {f : Nat → UInt8}

theorem Writing.cur (h : Writing s t ip nb f) (i : Nat) :
    ∃ addrs, t.cur i = { s.cur i with addrs := addrs } :=
  cur_eq_of_same h.frame.valid h.dinode h.other h.self i

theorem Writing.alloc_iff (h : Writing s t ip nb f) (i : Nat) : Alloc t i ↔ Alloc s i :=
  alloc_iff_of_cur h.frame.sb h.cur i

/-- Another block for the file. -/
theorem Writing.grow (h : Writing s t ip nb f) (ha : Alloc s ip) {t' : FileSys} {b : Nat}
    (hg : Grown t t' ip nb b) : Writing s t' ip (nb + 1) f := by
  have hal := h.alloc_iff
  have haip := (hal ip).mpr ha
  refine ⟨h.frame.trans hg.frame, hg.dinode.trans h.dinode,
    fun j hj => (hg.other j hj).trans (h.other j hj), ?_, hg.base, ⟨fun bn => ?_, ?_⟩, fun k => ?_,
    fun i hi hia hti => ?_, fun i hi hia k => ?_, by have := h.le; omega,
    fun e => absurd e (by have := h.le; omega)⟩
  · obtain ⟨a₁, e₁⟩ := h.self
    obtain ⟨a₂, e₂⟩ := hg.self
    exact ⟨a₂, by rw [e₂, e₁]⟩
  · rw [hg.block ip bn haip]
    by_cases e : bn = nb
    · simp [e, hg.ne_zero]
    · simp only [e, and_false, if_false, h.blocks.block bn]
      omega
  · rw [hg.indirect ip haip, h.blocks.indirect]
    omega
  · -- the new block is zeroed, and there was none before
    rw [← h.bytes k]
    by_cases e : k / BSIZE = nb
    · have hz : blockOf t.data (t.cur ip) (k / BSIZE) = 0 := by
        by_contra hnz
        have := (h.blocks.block _).mp hnz
        omega
      have hb : blockOf t'.data (t'.cur ip) (k / BSIZE) = b := by
        rw [hg.block ip _ haip, if_pos ⟨rfl, e⟩]
      unfold byteAt
      rw [hb, if_neg hg.ne_zero, hg.fresh, if_pos hz]
    · refine byteAt_congr ?_ (hg.data ip _ haip)
      rw [hg.block ip _ haip, if_neg fun h => e h.2]
  · have hb := h.blocks_other i hi hia hti
    refine ⟨fun bn => ?_, ?_⟩
    · rw [hg.block i bn ((hal i).mpr hia), if_neg fun h => hi h.1]
      exact hb.block bn
    · rw [hg.indirect i ((hal i).mpr hia), ← hb.indirect]
      exact ⟨fun h => h.elim id fun h => absurd h.1 hi, Or.inl⟩
  · rw [← h.bytes_other i hi hia k]
    refine byteAt_congr ?_ (hg.data i _ ((hal i).mpr hia))
    rw [hg.block i _ ((hal i).mpr hia), if_neg fun h => hi h.1]

/-- Bytes copied into a block of the file. -/
theorem Writing.splice (h : Writing s t ip nb f) (ha : Alloc s ip) {off : Nat} {src : List UInt8}
    (hbn : off / BSIZE < nb) (hfit : off % BSIZE + src.length ≤ BSIZE) (lh : List Nat) :
    Writing s { t with
      data := update t.data (blockOf t.data (t.cur ip) (off / BSIZE))
        (Bytes.splice (t.data (blockOf t.data (t.cur ip) (off / BSIZE))) (off % BSIZE) src)
      lh := lh } ip nb (Bytes.splice f off src) := by
  have hal := h.alloc_iff
  have haip := (hal ip).mpr ha
  have h0 : blockOf t.data (t.cur ip) (off / BSIZE) ≠ 0 := (h.blocks.block _).mpr hbn
  refine ⟨⟨h.frame.sb, h.frame.ref, h.frame.valid, h.frame.lock, h.frame.used,
    h.frame.outstanding, h.frame.devsw⟩, h.dinode, h.other, h.self, h.base.write haip h0 lh,
    h.base.hasBlocks_write haip h0 haip h.blocks, fun k => ?_,
    fun i hi hia hti => h.base.hasBlocks_write haip h0 ((hal i).mpr hia)
      (h.blocks_other i hi hia hti), fun i hi hia k => ?_, h.le, h.keep⟩
  · refine (h.base.byteAt_write haip h0 haip k).trans ?_
    have hB : 0 < BSIZE := by decide
    have hdm := Nat.div_add_mod k BSIZE
    have hdo := Nat.div_add_mod off BSIZE
    have hkm := Nat.mod_lt k hB
    by_cases e : k / BSIZE = off / BSIZE
    · rw [if_pos ⟨rfl, e⟩]
      rw [e] at hdm
      unfold Bytes.splice
      by_cases hin : off ≤ k ∧ k < off + src.length
      · rw [if_pos hin, if_pos (by omega)]
        congr 1
        omega
      · rw [if_neg hin, if_neg (by omega), ← h.bytes k]
        unfold byteAt
        rw [e, if_neg h0]
    · rw [if_neg fun h => e h.2, h.bytes k]
      -- `k` is in another block, so it is not among the bytes written
      have hout : ¬ (off ≤ k ∧ k < off + src.length) := by
        rintro ⟨h₁, h₂⟩
        refine e (Nat.le_antisymm ?_ (Nat.div_le_div_right h₁))
        refine Nat.le_of_lt_succ (Nat.div_lt_of_lt_mul ?_)
        rw [Nat.mul_succ]
        omega
      unfold Bytes.splice
      rw [if_neg hout]
  · refine (h.base.byteAt_write haip h0 ((hal i).mpr hia) k).trans ?_
    rw [if_neg fun h => hi h.1]
    exact h.bytes_other i hi hia k

/-- The loop of `writei`: one block after the other, each of them there or the next one. -/
theorem wp_writeLoop (hv : s.valid ip = true) (ha : Alloc s ip) {E : Panic → Prop}
    (hE : ∀ e, Limit e → E e) :
    ∀ (fuel off : Nat) (src : List UInt8) (t : FileSys) (nb : Nat) (f : Nat → UInt8),
      src.length ≤ fuel → off ≤ nb * BSIZE → off + src.length ≤ MAXFILE * BSIZE →
      Writing s t ip nb f → ∀ {Q : Unit → FileSys → Prop},
      (∀ t', Writing s t' ip (max nb (nblk (off + src.length))) (Bytes.splice f off src) →
        Q () t') →
      wp (writeLoop ip fuel off src) Q E t := by
  intro fuel
  induction fuel with
  | zero =>
    intro off src t nb f hlen hoff _ hw Q hQ
    obtain rfl : src = [] := List.length_eq_zero_iff.mp (by omega)
    refine hQ t ?_
    rw [Bytes.splice_nil, List.length_nil, Nat.add_zero, Nat.max_eq_left (nblk_le hoff)]
    exact hw
  | succ fuel ih =>
    intro off src t nb f hlen hoff hmax hw Q hQ
    unfold writeLoop
    by_cases h0 : src.length = 0
    · obtain rfl : src = [] := List.length_eq_zero_iff.mp h0
      rw [if_pos h0, wp_pure]
      refine hQ t ?_
      rw [Bytes.splice_nil, List.length_nil, Nat.add_zero, Nat.max_eq_left (nblk_le hoff)]
      exact hw
    · rw [if_neg h0, wp_bind]
      set m := min src.length (BSIZE - off % BSIZE) with hm
      have hB : 0 < BSIZE := by decide
      have hmod := Nat.mod_lt off hB
      have hdo := Nat.div_add_mod off BSIZE
      have htake : (src.take m).length = m := by simp [hm]
      -- what is left to do once block `off / BSIZE` is there
      have hrest : ∀ t nb', Writing s t ip nb' f → off / BSIZE < nb' →
          nb' = max nb (off / BSIZE + 1) →
          wp (do
            modify fun s => { s with
              data := update s.data (blockOf t.data (t.cur ip) (off / BSIZE))
                (Bytes.splice (s.data (blockOf t.data (t.cur ip) (off / BSIZE))) (off % BSIZE)
                  (src.take m)) }
            logWrite (blockOf t.data (t.cur ip) (off / BSIZE))
            writeLoop ip fuel (off + m) (src.drop m)) Q E t := by
        intro t nb' hw' hlt hnb'
        simp only [wp_bind, wp_modify]
        refine wp_logWrite (fun lh => ?_) hE
        have hend : off + m ≤ nb' * BSIZE := by
          have : (off / BSIZE + 1) * BSIZE ≤ nb' * BSIZE := Nat.mul_le_mul_right _ hlt
          rw [Nat.add_mul, Nat.mul_comm (off / BSIZE)] at this
          omega
        refine ih (off + m) (src.drop m) _ nb' _ (by simp; omega) hend
          (by simp only [List.length_drop]; omega)
          (hw'.splice ha hlt (by rw [htake]; omega) lh) fun t' ht' => ?_
        rw [Bytes.splice_take_drop f off m src (by omega), List.length_drop,
          show off + m + (src.length - m) = off + src.length by omega] at ht'
        have hle : off / BSIZE + 1 ≤ nblk (off + src.length) := div_lt_nblk (by omega)
        rw [hnb', Nat.max_assoc, Nat.max_eq_right hle] at ht'
        exact hQ t' ht'
      have hle : off / BSIZE ≤ nb := by
        have := Nat.div_le_div_right (c := BSIZE) hoff
        rwa [Nat.mul_div_cancel _ hB] at this
      have haip := (hw.alloc_iff ip).mpr ha
      have hvt : t.valid ip = true := by rw [hw.frame.valid]; exact hv
      by_cases hlt : off / BSIZE < nb
      · -- the block is there
        have hne : blockOf t.data (t.inode ip) (off / BSIZE) ≠ 0 := by
          rw [← cur_of_valid hvt]
          exact (hw.blocks.block _).mpr hlt
        refine wp_bmap_of_ne hne ?_
        rw [← cur_of_valid hvt]
        exact hrest t nb hw hlt (by omega)
      · -- it is the next one
        have heq : off / BSIZE = nb := by omega
        rw [heq]
        refine wp_bmap_new hw.base hvt haip hw.blocks ?_ (fun b t' hg => ?_) hE
        · rw [← heq]
          exact Nat.div_lt_of_lt_mul (by rw [Nat.mul_comm]; omega)
        · have hb : blockOf t'.data (t'.cur ip) (off / BSIZE) = b := by
            rw [hg.block ip _ haip, if_pos ⟨rfl, heq⟩]
          have := hrest t' (nb + 1) (hw.grow ha hg) (by omega) (by omega)
          rw [hb] at this
          exact this

/-- The file of an inode whose blocks hold the new bytes and whose size covers them. -/
theorem fileOf_write {data data' : Nat → Bytes} {d d' : Dinode} {off : Nat} {src : List UInt8}
    (hd : ∃ addrs, d' = { d with size := max d.size (off + src.length), addrs := addrs })
    (hbytes : ∀ k, byteAt data' d' k = Bytes.splice (byteAt data d) off src k)
    (hoff : off ≤ d.size) : fileOf data' d' = (fileOf data d).write off src := by
  obtain ⟨addrs, hd⟩ := hd
  have hmask : ∀ k, (if k < d'.size then byteAt data' d' k else 0) =
      Bytes.splice (fun k => if k < d.size then byteAt data d k else 0) off src k := by
    intro k
    rw [hbytes k, show d'.size = max d.size (off + src.length) by rw [hd]]
    unfold Bytes.splice
    by_cases hin : off ≤ k ∧ k < off + src.length
    · rw [if_pos hin, if_pos hin, if_pos (by omega)]
    · rw [if_neg hin, if_neg hin]
      by_cases hk : k < d.size
      · rw [if_pos (by omega)]
        exact (if_pos hk).symm
      · rw [if_neg (by omega)]
        exact (if_neg hk).symm
  simp only [fileOf, File.write, hmask]
  rw [hd]

/-- Everybody else's file is as it was. -/
theorem Writing.view_other (h : Writing s t ip nb f) {i : Nat} (hi : i ≠ ip) :
    t.view i = s.view i := by
  by_cases ha : Alloc s i
  · have hd := h.bytes_other i hi ha
    obtain ⟨addrs, e⟩ := h.cur i
    rw [view_of_alloc ((h.alloc_iff i).mpr ha), view_of_alloc ha]
    simp only [fileOf, hd]
    rw [e]
  · rw [view_of_not_alloc fun hc => ha ((h.alloc_iff i).mp hc), view_of_not_alloc ha]

/-- The end of `writei` when the file has not grown: the cached inode is as it was. -/
theorem Writing.updated_same (h : Writing s t ip nb f) (hg : Good s) (hv : s.valid ip = true)
    (hnb : nb = nblk (s.inode ip).size) {off : Nat} {src : List UInt8}
    (hf : f = Bytes.splice (byteAt s.data (s.inode ip)) off src)
    (hle : off + src.length ≤ (s.inode ip).size) :
    Updated s t ip ((s.view ip).write off src) := by
  have hin := h.keep hnb
  have ha := hg.coherent.alloc hv
  have hvt : t.valid ip = true := by rw [h.frame.valid]; exact hv
  have hcur : ∀ i, t.cur i = s.cur i := fun i => by
    unfold FileSys.cur
    rw [h.frame.valid, hin, h.dinode]
  refine ⟨⟨⟨h.base, fun i hi hti => ?_⟩, fun i hi => ?_⟩, h.frame, ?_⟩
  · by_cases e : i = ip
    · subst e
      have hb := h.blocks
      rwa [hnb, ← cur_of_valid hv, ← hcur] at hb
    · have hb := h.blocks_other i e ((h.alloc_iff i).mp hi) (by rwa [← hcur])
      rwa [← hcur] at hb
  · rw [hin, h.dinode, h.frame.sb]
    exact hg.coherent i (by rwa [← h.frame.valid])
  · funext i
    by_cases e : i = ip
    · subst e
      rw [update_self, view_of_alloc ((h.alloc_iff i).mpr ha), hg.view_eq hv]
      refine fileOf_write ⟨(s.inode i).addrs, ?_⟩ (fun k => by rw [h.bytes, hf]) (by omega)
      rw [hcur, cur_of_valid hv, Nat.max_eq_left hle]
    · rw [update_of_ne e]
      exact h.view_other e

/-- The end of `writei` when the file has grown: `ip->size = off` and `iupdate(ip)`. -/
theorem Writing.updated_grown (h : Writing s t ip nb f) (hg : Good s) (hv : s.valid ip = true)
    {off : Nat} {src : List UInt8} (hnb : nb = nblk (off + src.length))
    (hf : f = Bytes.splice (byteAt s.data (s.inode ip)) off src)
    (hoff : off ≤ (s.inode ip).size) (hlt : (s.inode ip).size < off + src.length) (lh : List Nat) :
    Updated s { t with
      inode := update t.inode ip { t.inode ip with size := off + src.length }
      dinode := update t.dinode ip { t.inode ip with size := off + src.length }
      lh := lh } ip ((s.view ip).write off src) := by
  have ha := hg.coherent.alloc hv
  have hvt : t.valid ip = true := by rw [h.frame.valid]; exact hv
  obtain ⟨addrs, hself⟩ := h.self
  set u : FileSys := { t with
    inode := update t.inode ip { t.inode ip with size := off + src.length }
    dinode := update t.dinode ip { t.inode ip with size := off + src.length }
    lh := lh } with hu
  have huip : u.cur ip = { t.inode ip with size := off + src.length } := by
    rw [cur_of_valid (s := u) hvt]
    exact update_self ..
  have htip : t.cur ip = t.inode ip := cur_of_valid hvt
  have hcur : ∀ i, i ≠ ip → u.cur i = t.cur i := fun i hi => by
    simp only [FileSys.cur, hu, update_of_ne hi]
  have hal : ∀ i, Alloc u i ↔ Alloc t i := by
    intro i
    by_cases e : i = ip
    · subst e
      unfold Alloc
      rw [huip, htip]
    · unfold Alloc
      rw [hcur i e]
  -- the slots do not depend on the size
  have hslot : ∀ m, slot u.data (u.cur ip) m = slot t.data (t.cur ip) m := fun m => by
    rw [huip, htip]
    rfl
  have hplace : ∀ l, u.place l = t.place l := by
    rintro ⟨i, m⟩
    by_cases hi : Alloc t i
    · rw [place_of_alloc ((hal i).mpr hi), place_of_alloc hi]
      by_cases e : i = ip
      · subst e
        exact hslot m
      · rw [hcur i e]
    · rw [place_of_not_alloc fun hc => hi ((hal i).mp hc), place_of_not_alloc hi]
  refine ⟨⟨⟨h.base.congr rfl (fun _ _ => rfl) hplace, fun i hi hti => ?_⟩, fun i hi => ?_⟩,
    ⟨h.frame.sb, h.frame.ref, h.frame.valid, h.frame.lock, h.frame.used, h.frame.outstanding,
      h.frame.devsw⟩, ?_⟩
  · by_cases e : i = ip
    · subst e
      have hb := h.blocks
      rw [hnb] at hb
      rw [huip]
      exact ⟨fun bn => by rw [← hb.block bn, htip]; rfl, by rw [← hb.indirect, htip]⟩
    · have his := (h.alloc_iff i).mp ((hal i).mp hi)
      obtain ⟨a, ha'⟩ := h.cur i
      have hb := h.blocks_other i e his (by rw [hcur i e, ha'] at hti; exact hti)
      rw [hcur i e, ha'] at *
      exact hb
  · have hi' : s.valid i = true := by rw [← h.frame.valid]; exact hi
    by_cases e : i = ip
    · subst e
      obtain ⟨h₁, -, h₂⟩ := hg.coherent i hi'
      refine ⟨by rw [show u.sb = s.sb from h.frame.sb]; exact h₁, ?_, ?_⟩
      · simp only [hu, update_self]
      · simp only [hu, update_self, hself]
        exact h₂
    · have := hg.coherent i hi'
      simp only [hu, update_of_ne e, h.other i e, h.dinode, h.frame.sb]
      exact this
  · funext i
    by_cases e : i = ip
    · subst e
      have hbytes : ∀ k, byteAt u.data (u.cur i) k = f k := fun k => by
        rw [← h.bytes k]
        exact byteAt_congr (hslot _) fun _ => rfl
      rw [update_self, view_of_alloc ((hal i).mpr ((h.alloc_iff i).mpr ha)),
        hg.view_eq hv]
      refine fileOf_write ⟨addrs, ?_⟩ (fun k => by rw [hbytes, hf]) hoff
      rw [huip, hself, Nat.max_eq_right hlt.le]
    · rw [update_of_ne e, ← h.view_other e]
      by_cases hi : Alloc t i
      · rw [view_of_alloc ((hal i).mpr hi), view_of_alloc hi, hcur i e]
      · rw [view_of_not_alloc fun hc => hi ((hal i).mp hc), view_of_not_alloc hi]

/-- **`writei`** to a cached file: it fails and changes nothing, or the bytes are in the file. -/
theorem wp_writei (h : Good s) (hv : s.valid ip = true) (ht : (s.inode ip).type ≠ T_DEV)
    {off : Nat} {src : List UInt8} {Q : Int → FileSys → Prop} {E : Panic → Prop}
    (hbad : (s.view ip).size < off ∨ add32 off src.length < off ∨
      MAXFILE * BSIZE < off + src.length → Q (-1) s)
    (hok : off ≤ (s.view ip).size → off + src.length ≤ MAXFILE * BSIZE →
      ∀ s', Updated s s' ip ((s.view ip).write off src) → Q src.length s')
    (hE : ∀ e, Limit e → E e) : wp (writei ip src off) Q E s := by
  have hsize : (s.view ip).size = (s.inode ip).size := by rw [h.view_eq hv]; rfl
  rw [hsize] at hbad hok
  simp only [writei, wp_bind, wp_get, if_neg ht]
  by_cases h₁ : (s.inode ip).size < off ∨ add32 off src.length < off
  · rw [if_pos h₁, wp_pure]
    exact hbad (by tauto)
  · rw [if_neg h₁]
    by_cases h₂ : MAXFILE * BSIZE < off + src.length
    · rw [if_pos h₂, wp_pure]
      exact hbad (by tauto)
    · rw [if_neg h₂, wp_bind]
      have hoff : off ≤ (s.inode ip).size := not_lt.mp fun hlt => h₁ (Or.inl hlt)
      have hmax : off + src.length ≤ MAXFILE * BSIZE := not_lt.mp h₂
      refine wp_writeLoop hv (h.coherent.alloc hv) hE _ off src s _ _ (Nat.le_refl _)
        (hoff.trans (nblk_mul_ge _)) hmax (Writing.start h hv ht) fun t hw => ?_
      have hvt : t.valid ip = true := by rw [hw.frame.valid]; exact hv
      by_cases hgrow : 0 < src.length ∧ (s.inode ip).size < off + src.length
      · rw [if_pos hgrow]
        simp only [wp_bind, wp_setInode, iupdate, wp_get, wp_set, update_self, wp_pure]
        refine wp_logWrite (fun lh => hok hoff hmax _ ?_) hE
        exact hw.updated_grown h hv (Nat.max_eq_right (nblk_mono hgrow.2.le)) rfl hoff hgrow.2 lh
      · rw [if_neg hgrow]
        simp only [wp_pure]
        have hle : off + src.length ≤ (s.inode ip).size := by
          by_contra hlt
          exact hgrow ⟨by omega, by omega⟩
        exact hok hoff hmax t
          (hw.updated_same h hv (Nat.max_eq_left (nblk_mono hle)) rfl hle)

/-- A device is written elsewhere. -/
theorem wp_writei_dev (ht : (s.inode ip).type = T_DEV) {off : Nat} {src : List UInt8}
    {Q : Int → FileSys → Prop} {E : Panic → Prop} (hQ : ∀ r, Q r s) :
    wp (writei ip src off) Q E s := by
  simp only [writei, wp_bind, wp_get, if_pos ht]
  split
  · exact hQ _
  · split
    · exact hQ _
    · exact hQ _

end

end Xv6.Fs
