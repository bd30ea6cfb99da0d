/-
# The image between two appends, and at the end

`Built m c` says what the image holds when `main` is between two calls of `iappend`: inodes 1 to
`freeinode - 1` are files with one link and the contents `c`, every block below `freeblock` is a
meta block or belongs to one of them, and the rest of the disk is zero.  Each step of `main`
keeps it, with the contents changed as one would expect.

A step fails only when the disk or a file is too small for the contents (`RoomFor`), so `main`
returns on every list of files that fits.
-/
import Xv6.Lib.Places
import Xv6.Mkfs.Append

namespace Xv6.Mkfs

open Function (update update_eq_self update_idem update_of_ne update_self)

open Fs Bytes

/-! ## 1. Contents -/

/-- A file that `mkfs` has made, with one link. -/
def hostFile (type : Int) (bytes : List UInt8) : File :=
  ⟨type, 0, 0, 1, bytes.length, fun k => bytes.getD k 0⟩

/-- The root directory is the first inode. -/
def ftype (i : Nat) : Int := if i = ROOTINO then T_DIR else T_FILE

theorem ftype_ne_zero (i : Nat) : ftype i ≠ 0 := by
  unfold ftype
  split <;> decide

theorem ftype_ne_dev (i : Nat) : ftype i ≠ T_DEV := by
  unfold ftype
  split <;> decide

/-- The files of an image: inodes 1 to `n - 1`, with the contents `c`. -/
def filesOf (n : Nat) (c : Nat → List UInt8) (i : Nat) : File :=
  if 0 < i ∧ i < n then hostFile (ftype i) (c i) else File.free

theorem hostFile_append (type : Int) (bytes p : List UInt8) :
    (hostFile type bytes).write bytes.length p = hostFile type (bytes ++ p) := by
  have hbytes : splice (fun k => bytes.getD k 0) bytes.length p =
      fun k => (bytes ++ p).getD k 0 := by
    funext k
    simp only [splice]
    by_cases h : bytes.length ≤ k
    · rw [List.getD_eq_getElem?_getD (l := bytes ++ p), List.getElem?_append_right h,
        ← List.getD_eq_getElem?_getD]
      by_cases hk : k < bytes.length + p.length
      · rw [if_pos ⟨h, hk⟩]
      · rw [if_neg fun hc => hk hc.2, List.getD_eq_getElem?_getD, List.getD_eq_getElem?_getD,
          List.getElem?_eq_none h, List.getElem?_eq_none (by omega)]
    · rw [if_neg fun hc => h hc.1, List.getD_eq_getElem?_getD, List.getD_eq_getElem?_getD,
        List.getElem?_append_left (by omega)]
  simp only [File.write, hostFile, hbytes, List.length_append]
  rw [Nat.max_eq_right (by omega)]

/-- The blocks that a file of `len` bytes takes. -/
def blocksFor (len : Nat) : Nat := cost (nblk len)

theorem blocksFor_mono {a b : Nat} (h : a ≤ b) : blocksFor a ≤ blocksFor b :=
  cost_mono (nblk_mono h)

/-- The blocks that the contents take. -/
def total (c : Nat → List UInt8) : Nat := ∑ i ∈ Finset.range NINODES, blocksFor (c i).length

theorem blocksFor_zero : blocksFor 0 = 0 := by decide

theorem total_nil : total (fun _ => []) = 0 := Finset.sum_eq_zero fun _ _ => blocksFor_zero

theorem total_update {c : Nat → List UInt8} {i : Nat} (hi : i < NINODES) (v : List UInt8) :
    total (update c i v) + blocksFor (c i).length = total c + blocksFor v.length := by
  have h := sum_update (fun b => blocksFor b.length) c (Finset.mem_range.mpr hi) v
  unfold total
  exact h

/-- The contents fit the disk, and each of them a file. -/
structure RoomFor (c : Nat → List UInt8) : Prop where
  file : ∀ i, (c i).length ≤ MAXFILE * BSIZE
  disk : nmeta + total c ≤ FSSIZE

theorem RoomFor.mono {c c' : Nat → List UInt8} (h : RoomFor c')
    (hle : ∀ i, (c i).length ≤ (c' i).length) : RoomFor c where
  file i := (hle i).trans (h.file i)
  disk := (Nat.add_le_add_left
    (Finset.sum_le_sum fun i _ => blocksFor_mono (hle i)) nmeta).trans h.disk

/-! ## 2. The image between two appends -/

/-- **The image between two appends**, with the contents `c`. -/
structure Built (m : Img) (c : Nat → List UInt8) : Prop where
  nsect : m.nsect = FSSIZE
  super : m.sect 1 = setWords zeroes 0 sb.words
  good : Good m.fs
  view : m.fs.view = filesOf m.freeinode c
  pos : 0 < m.freeinode
  le : m.freeinode ≤ NINODES
  empty : ∀ i, m.freeinode ≤ i → c i = []
  blocks : m.freeblock = nmeta + total c
  room : m.freeblock ≤ FSSIZE
  zero : ∀ b, m.freeblock ≤ b → m.sect b = zeroes

section

variable {m : Img} {c : Nat → List UInt8} {i : Nat}

theorem Built.alloc_iff (h : Built m c) : Alloc m.fs i ↔ 0 < i ∧ i < m.freeinode := by
  rw [alloc_iff_view, h.view]
  unfold filesOf
  split
  next hi => exact ⟨fun _ => hi, fun _ => ftype_ne_zero i⟩
  next hi => exact ⟨fun hc => absurd rfl hc, fun hc => absurd hc hi⟩

theorem Built.fileOf (h : Built m c) (hi : 0 < i ∧ i < m.freeinode) :
    Fs.fileOf m.sect (m.fs.dinode i) = hostFile (ftype i) (c i) := by
  have hv := congrFun h.view i
  rw [view_of_alloc (h.alloc_iff.mpr hi), h.good.coherent.cur] at hv
  rw [show Fs.fileOf m.sect _ = _ from hv]
  exact if_pos hi

theorem Built.size (h : Built m c) (hi : 0 < i ∧ i < m.freeinode) :
    (m.fs.dinode i).size = (c i).length := congrArg File.size (h.fileOf hi)

theorem Built.type (h : Built m c) (hi : 0 < i ∧ i < m.freeinode) :
    (m.fs.dinode i).type = ftype i := congrArg File.type (h.fileOf hi)

theorem Built.nlink (h : Built m c) (hi : 0 < i ∧ i < m.freeinode) :
    (m.fs.dinode i).nlink = 1 := congrArg File.nlink (h.fileOf hi)

/-- The file has the blocks that its contents need. -/
theorem Built.hasBlocks (h : Built m c) (hi : 0 < i ∧ i < m.freeinode) :
    HasBlocks m.sect (m.fs.dinode i) (nblk (c i).length) := by
  have := h.good.own.shape i (h.alloc_iff.mpr hi)
  rw [h.good.coherent.cur, h.size hi] at this
  exact this (by rw [h.type hi]; exact ftype_ne_dev i)

theorem Built.byteAt (h : Built m c) (hi : 0 < i ∧ i < m.freeinode) {k : Nat}
    (hk : k < (c i).length) : Fs.byteAt m.sect (m.fs.dinode i) k = (c i).getD k 0 := by
  have := congrFun (congrArg File.bytes (h.fileOf hi)) k
  simp only [Fs.fileOf, hostFile] at this
  rwa [h.size hi, if_pos hk] at this

/-- `ialloc`: the next inode, with nothing in it. -/
theorem Built.wp_ialloc (h : Built m c) (hn : m.freeinode < NINODES) {type : Int}
    (ht : type = ftype m.freeinode) {Q : Nat → Img → Prop} {E : Exit → Prop}
    (hQ : ∀ m', Built m' c → m'.freeinode = m.freeinode + 1 → Q m.freeinode m') :
    wp (ialloc type) Q E m := by
  set n := m.freeinode with hndef
  simp only [ialloc, wp_bind, wp_get, wp_set]
  refine wp_winode h.nsect hn ?_
  rw [wp_pure]
  have hnot : ¬ Alloc m.fs n := fun ha => Nat.lt_irrefl _ (h.alloc_iff.mp ha).2
  have h0 : (m.fs.dinode n).type = 0 := by
    by_contra hne
    exact hnot ⟨hn, by rwa [h.good.coherent.cur]⟩
  have hd : (newDinode type).InRange := by
    refine ⟨?_, rfl, rfl, rfl, Nat.two_pow_pos 32, fun _ => Nat.two_pow_pos 32, fun _ _ => rfl⟩
    rw [newDinode, ht]
    unfold ftype
    split <;> rfl
  obtain ⟨hgood, hview⟩ := h.good.newInode hn h0 (d := newDinode type)
    (by rw [newDinode, ht]; exact ftype_ne_zero n) rfl rfl []
  set m' := ({ m with freeinode := m.freeinode + 1 } : Img).put n (newDinode type) with hm'
  have hmeta : nmeta ≤ m.freeblock := by rw [h.blocks]; omega
  have hcur : ∀ j, m'.fs.cur j = update m.fs.dinode n (newDinode type) j := fun j => by
    rw [Img.fs_coherent.cur, hm', Img.put_dinode hn hd]
    rfl
  obtain ⟨hgood', hview'⟩ : Good m'.fs ∧ m'.fs.view = _ := hgood.of_blocks rfl (fun _ _ => rfl)
    (fun b hb => Img.put_sect_data hn (datastart_eq ▸ hb))
    (fun j _ => by rw [hcur, hgood.coherent.cur]) Img.fs_coherent
  refine hQ m' ⟨h.nsect, ?_, hgood', ?_, Nat.succ_pos _, hn, fun j hj => ?_, h.blocks, h.room,
    fun b hb => ?_⟩ rfl
  · rw [hm', Img.put_sect_of_ne (by have := iblock_ge n; omega)]
    exact h.super
  · rw [hview', hview, h.view]
    funext j
    by_cases e : j = n
    · subst e
      have hpos : 0 < n ∧ n < m'.freeinode := ⟨h.pos, Nat.lt_succ_self _⟩
      rw [update_self, filesOf, if_pos hpos, h.empty n (Nat.le_refl _), ← ht]
      simp [Fs.fileOf, newDinode, Dinode.zero, hostFile]
    · rw [update_of_ne e]
      unfold filesOf
      refine if_congr ?_ rfl rfl
      show _ ↔ 0 < j ∧ j < n + 1
      omega
  · exact h.empty j (by have : n + 1 ≤ j := hj; omega)
  · rw [hm', Img.put_sect_data hn (hmeta.trans hb)]
    exact h.zero b hb

theorem Built.opened_alloc (h : Built m c) (hi : 0 < i ∧ i < m.freeinode) :
    Alloc (m.opened i (m.fs.dinode i)) i := by
  refine ⟨hi.2.trans_le h.le, ?_⟩
  rw [opened_cur, h.type hi]
  exact ftype_ne_zero i

/-- `iappend` begins. -/
theorem Built.appending (h : Built m c) (hi : 0 < i ∧ i < m.freeinode) :
    Appending m m i (m.fs.dinode i) (nblk (m.fs.dinode i).size)
      (Fs.byteAt m.sect (m.fs.dinode i)) := by
  obtain ⟨hgood, -⟩ := Good.opened h.good (h.alloc_iff.mpr hi)
  have hw := Writing.start hgood opened_valid (by
    rw [opened_inode, h.type hi]
    exact ftype_ne_dev i)
  rw [opened_inode] at hw
  exact ⟨hw, h.nsect, rfl, Img.fs_inRange (hi.2.trans_le h.le), by rw [h.blocks]; omega, h.room,
    rfl, h.zero, fun _ _ => rfl⟩

/-- `iappend` ends: the inode is written with its new size. -/
theorem Appending.built {m' : Img} {din : Dinode} {p : List UInt8} (h : Built m c)
    (hi : 0 < i ∧ i < m.freeinode) (hp : 0 < p.length)
    (happ : Appending m m' i din (nblk ((c i).length + p.length))
      (Bytes.splice (Fs.byteAt m.sect (m.fs.dinode i)) (c i).length p)) :
    Built (m'.put i { din with size := (c i).length + p.length })
      (update c i (c i ++ p)) := by
  have hin : i < NINODES := hi.2.trans_le h.le
  have hsize := h.size hi
  obtain ⟨hgood, hview⟩ := Good.opened h.good (h.alloc_iff.mpr hi)
  set d : Dinode := { din with size := (c i).length + p.length } with hd
  have hblocks := happ.writing.blocks
  rw [opened_cur] at hblocks
  have hrange : d.InRange := by
    have hle := Nat.mul_le_mul_right BSIZE hblocks.le_maxfile
    have hge := nblk_mul_ge ((c i).length + p.length)
    have hsmall : MAXFILE * BSIZE < 2 ^ 32 := by decide
    exact happ.inRange.resize ((hge.trans hle).trans_lt hsmall)
  have hup := happ.writing.updated_grown hgood opened_valid
    (show nblk ((c i).length + p.length) = nblk ((c i).length + p.length) from rfl)
    (by rw [opened_inode]; rfl) (by rw [opened_inode, hsize])
    (by rw [opened_inode, hsize]; omega) []
  simp only [opened_inode] at hup
  have hmeta := happ.meta_le
  have hdinode : m'.fs.dinode = m.fs.dinode := happ.writing.dinode
  have hcur : ∀ j, (m'.put i d).fs.cur j = update m.fs.dinode i d j := fun j => by
    rw [Img.fs_coherent.cur, Img.put_dinode hin hrange, hdinode]
  obtain ⟨hgood', hview'⟩ : Good (m'.put i d).fs ∧ (m'.put i d).fs.view = _ :=
    hup.good.of_blocks rfl (fun _ _ => rfl) (fun b hb => Img.put_sect_data hin (datastart_eq ▸ hb))
    (fun j _ => by rw [hcur, hup.good.coherent.cur, ← hdinode]; rfl) Img.fs_coherent
  have hfi : (m'.put i d).freeinode = m.freeinode := happ.freeinode
  refine ⟨happ.nsect, ?_, hgood', ?_, hfi ▸ h.pos, hfi ▸ h.le, fun j hj => ?_, ?_, happ.room,
    fun b hb => ?_⟩
  · rw [Img.put_sect_of_ne (by have := iblock_ge i; omega), happ.low 1 (by decide)]
    exact h.super
  · rw [hview', hup.view, hview, h.view, hfi]
    funext j
    by_cases e : j = i
    · subst e
      simp only [update_self, filesOf, if_pos hi, hostFile_append]
    · simp only [update_of_ne e, filesOf]
  · rw [hfi] at hj
    rw [update_of_ne (by omega)]
    exact h.empty j hj
  · have htotal := total_update (c := c) hin (c i ++ p)
    have htaken := happ.taken
    rw [hsize, h.blocks] at htaken
    rw [List.length_append] at htotal
    show m'.freeblock = _
    unfold blocksFor at htotal
    omega
  · rw [Img.put_sect_data hin (hmeta.trans hb)]
    exact happ.zero b hb

/-- **`iappend`** puts the bytes at the end of the file. -/
theorem Built.wp_iappend (h : Built m c) (hi : 0 < i ∧ i < m.freeinode) {p : List UInt8}
    (hp : 0 < p.length) {Q : Unit → Img → Prop} {E : Exit → Prop}
    (hQ : ∀ m', Built m' (update c i (c i ++ p)) → m'.freeinode = m.freeinode → Q () m')
    (hE : ∀ e, ¬ RoomFor (update c i (c i ++ p)) → E e) : wp (iappend i p) Q E m := by
  have hin : i < NINODES := hi.2.trans_le h.le
  have hsize := h.size hi
  have happ := h.appending hi
  have hnb : max (nblk (c i).length) (nblk ((c i).length + p.length)) =
      nblk ((c i).length + p.length) := Nat.max_eq_right (nblk_mono (by omega))
  rw [hsize] at happ
  unfold iappend
  rw [wp_bind]
  refine wp_rinode h.nsect hin ?_
  rw [wp_bind, hsize]
  refine wp_iappendLoop (h.opened_alloc hi) p.length (c i).length p m _ _ _ (Nat.le_refl _)
    (nblk_mul_ge _) happ (fun hbig => hE _ fun hroom => ?_) (fun hfull => hE _ fun hroom => ?_)
    fun m' din h' => ?_
  · have := hroom.file i
    rw [update_self, List.length_append] at this
    omega
  · have hdisk := hroom.disk
    have htotal := total_update (c := c) hin (c i ++ p)
    rw [hnb, Full, hsize, h.blocks] at hfull
    rw [List.length_append] at htotal
    unfold blocksFor at htotal
    omega
  · rw [hnb] at h'
    exact wp_winode h'.nsect hin (hQ _ (h'.built h hi hp) h'.freeinode)

end

/-! ## 3. The files of the command line -/

/-- The contents after one more file, with inode `n`: an entry in the root directory, and the
bytes. -/
def added (c : Nat → List UInt8) (n : Nat) (f : HostFile) : Nat → List UInt8 :=
  Function.update (Function.update c ROOTINO (c ROOTINO ++ Dirent.make f.name n)) n f.data

/-- The contents after all of them, from inode `n` on. -/
def placed : List HostFile → Nat → (Nat → List UInt8) → Nat → List UInt8
  | [], _, c => c
  | f :: fs, n, c => placed fs (n + 1) (added c n f)

/-- The root directory with its first two entries. -/
def rootOnly : Nat → List UInt8 :=
  Function.update (fun _ => []) ROOTINO (Dirent.make dot ROOTINO ++ Dirent.make dotdot ROOTINO)

/-- The contents of the image that `mkfs` makes. -/
def contents (files : List HostFile) : Nat → List UInt8 := placed files 2 rootOnly

/-- The entries of the root directory for the files, from inode `n` on. -/
def entries : List HostFile → Nat → List UInt8
  | [], _ => []
  | f :: fs, n => Dirent.make f.name n ++ entries fs (n + 1)

section

variable {c : Nat → List UInt8} {n : Nat} {f : HostFile}

theorem added_self : added c n f n = f.data := update_self ..

theorem added_root (hn : ROOTINO < n) :
    added c n f ROOTINO = c ROOTINO ++ Dirent.make f.name n := by
  unfold added
  rw [update_of_ne (by omega), update_self]

theorem added_other {i : Nat} (hi : i ≠ n) (hr : i ≠ ROOTINO) : added c n f i = c i := by
  unfold added
  rw [update_of_ne hi, update_of_ne hr]

theorem placed_other {i : Nat} (hr : i ≠ ROOTINO) : ∀ {files : List HostFile} {n : Nat}
    {c : Nat → List UInt8}, i < n ∨ n + files.length ≤ i → placed files n c i = c i
  | [], _, _, _ => rfl
  | f :: fs, n, c, hi => by
    rw [List.length_cons] at hi
    rw [placed, placed_other hr (by omega), added_other (by omega) hr]

theorem placed_root : ∀ {files : List HostFile} {n : Nat} {c : Nat → List UInt8}, ROOTINO < n →
    placed files n c ROOTINO = c ROOTINO ++ entries files n
  | [], _, _, _ => by simp [placed, entries]
  | f :: fs, n, c, hn => by
    rw [placed, placed_root (by omega), added_root hn, entries, List.append_assoc]

theorem placed_get {j : Nat} : ∀ (files : List HostFile) {n : Nat} {c : Nat → List UInt8}
    (hj : j < files.length), ROOTINO < n → placed files n c (n + j) = files[j].data
  | f :: fs, n, c, hj, hn => by
    rw [placed]
    cases j with
    | zero =>
      rw [placed_other (by omega) (by omega)]
      exact added_self
    | succ j =>
      have := placed_get fs (n := n + 1) (c := added c n f) (Nat.lt_of_succ_lt_succ hj) (by omega)
      rw [show n + (j + 1) = n + 1 + j by omega, this]
      rfl

/-- The contents only grow. -/
theorem added_le (hc : c n = []) (hn : ROOTINO < n) (i : Nat) :
    (c i).length ≤ (added c n f i).length := by
  by_cases h : i = n
  · rw [h, hc]
    exact Nat.zero_le _
  · by_cases hr : i = ROOTINO
    · rw [hr, added_root hn, List.length_append]
      omega
    · rw [added_other h hr]

theorem placed_le : ∀ {files : List HostFile} {n : Nat} {c : Nat → List UInt8}, ROOTINO < n →
    (∀ i, n ≤ i → c i = []) → ∀ i, (c i).length ≤ (placed files n c i).length
  | [], _, _, _, _, _ => Nat.le_refl _
  | f :: fs, n, c, hn, hc, i => by
    refine (added_le (f := f) (hc n (Nat.le_refl _)) hn i).trans (placed_le (by omega) ?_ i)
    intro j hj
    rw [added_other (by omega) (by omega)]
    exact hc j (by omega)

end

/-! ## 4. The steps of `main` -/

section

variable {m : Img} {c : Nat → List UInt8} {n : Nat} {E : Exit → Prop}

/-- The chunks of a file, one after the other. -/
theorem Built.wp_chunks (hn : 0 < n) : ∀ {chunks : List (List UInt8)} {d : List UInt8} {m : Img},
    (∀ p ∈ chunks, 0 < p.length) → Built m (update c n d) → n < m.freeinode →
    (∀ e, ¬ RoomFor (update c n (d ++ chunks.flatten)) → E e) →
    ∀ {Q : Unit → Img → Prop},
    (∀ m', Built m' (update c n (d ++ chunks.flatten)) → m'.freeinode = m.freeinode →
      Q () m') → wp (forM chunks (iappend n)) Q E m
  | [], d, m, _, h, _, _, Q, hQ => by
    rw [List.flatten_nil, List.append_nil] at hQ
    exact hQ m h rfl
  | p :: ps, d, m, hpos, h, hlt, hE, Q, hQ => by
    have hself : update c n d n = d := update_self ..
    rw [List.flatten_cons, ← List.append_assoc] at hQ hE
    rw [List.forM_cons, wp_bind]
    refine h.wp_iappend ⟨hn, hlt⟩ (hpos p List.mem_cons_self) (fun m' h' hfi => ?_) fun e hno => ?_
    · rw [hself, update_idem] at h'
      refine Built.wp_chunks hn (fun q hq => hpos q (List.mem_cons_of_mem p hq)) h' (hfi ▸ hlt) hE
        fun m'' h'' hfi' => hQ m'' h'' (hfi'.trans hfi)
    · rw [hself, update_idem] at hno
      refine hE e fun hroom => hno (hroom.mono fun i => ?_)
      by_cases hi : i = n
      · simp only [hi, update_self, List.length_append]
        omega
      · simp only [update_of_ne hi, Nat.le_refl]

theorem Built.wp_addFile {f : HostFile} (h : Built m c) (hroot : ROOTINO < m.freeinode)
    (hn : m.freeinode < NINODES) (hslash : slash ∈ f.arg → E .assert)
    (hE : ∀ e, ¬ RoomFor (added c m.freeinode f) → E e) {Q : Unit → Img → Prop}
    (hQ : ∀ m', Built m' (added c m.freeinode f) → m'.freeinode = m.freeinode + 1 → Q () m') :
    wp (addFile f) Q E m := by
  set n := m.freeinode with hndef
  have hcn : c n = [] := h.empty n (Nat.le_refl _)
  have hentry : added c n f =
      update (update c ROOTINO (c ROOTINO ++ Dirent.make f.name n)) n
        ([] ++ f.chunks.flatten) := rfl
  unfold addFile
  by_cases hs : slash ∈ f.arg
  · rw [if_pos hs, wp_throw]
    exact hslash hs
  · rw [if_neg hs, wp_bind]
    refine h.wp_ialloc hn (if_neg (by omega)).symm fun m₁ h₁ hfi₁ => ?_
    rw [← hndef] at hfi₁ ⊢
    rw [wp_bind]
    refine h₁.wp_iappend ⟨by decide, by omega⟩ (by rw [Dirent.make_length]; decide)
      (fun m₂ h₂ hfi₂ => ?_) fun e hno => hE e fun hroom => hno (hroom.mono fun i => ?_)
    · have hself : update c ROOTINO (c ROOTINO ++ Dirent.make f.name n) n = [] := by
        rw [update_of_ne (by omega), hcn]
      rw [← update_eq_self n (update c ROOTINO _), hself] at h₂
      refine Built.wp_chunks (by omega) f.chunk_pos h₂ (by omega) (hentry ▸ hE)
        fun m₃ h₃ hfi₃ => hQ m₃ (hentry ▸ h₃) (by omega)
    · by_cases hi : i = n
      · subst hi
        rw [update_of_ne (by omega), hcn]
        exact Nat.zero_le _
      · rw [hentry, update_of_ne hi]

theorem Built.wp_files : ∀ {files : List HostFile} {m : Img} {c : Nat → List UInt8}, Built m c →
    ROOTINO < m.freeinode → m.freeinode + files.length ≤ NINODES →
    (∀ f ∈ files, slash ∈ f.arg → E .assert) →
    (∀ e, ¬ RoomFor (placed files m.freeinode c) → E e) → ∀ {Q : Unit → Img → Prop},
    (∀ m', Built m' (placed files m.freeinode c) →
      m'.freeinode = m.freeinode + files.length → Q () m') → wp (forM files addFile) Q E m
  | [], m, c, h, _, _, _, _, Q, hQ => hQ m h rfl
  | f :: fs, m, c, h, hroot, hle, hslash, hE, Q, hQ => by
    rw [List.length_cons] at hle hQ
    rw [List.forM_cons, wp_bind]
    have hempty : ∀ i, m.freeinode + 1 ≤ i → added c m.freeinode f i = [] := fun i hi => by
      rw [added_other (by omega) (by omega)]
      exact h.empty i (by omega)
    refine h.wp_addFile hroot (by omega) (hslash f List.mem_cons_self) (fun e hno => hE e
      fun hroom => hno (hroom.mono (placed_le (by omega) hempty))) fun m' h' hfi => ?_
    refine Built.wp_files h' (by omega) (by omega)
      (fun g hg => hslash g (List.mem_cons_of_mem f hg)) (by rw [hfi]; exact hE)
      fun m'' h'' hfi'' => hQ m'' (by rw [hfi] at h''; exact h'') (by omega)

/-- The image with zeroes and the superblock. -/
def blankImg : Img where
  nsect := FSSIZE
  sect := Function.update (fun _ => zeroes) 1 (setWords zeroes 0 sb.words)
  freeinode := 1
  freeblock := nmeta

theorem blank_dinode (i : Nat) : blankImg.fs.dinode i = Dinode.zero := by
  have hne : sb.iblock i ≠ 1 := by have := iblock_ge i; omega
  simp only [Img.fs, blankImg, update_of_ne hne]
  split
  · exact loadDinode_zero _
  · rfl

theorem built_blank : Built blankImg fun _ => [] := by
  have hcur : ∀ i, blankImg.fs.cur i = Dinode.zero := fun i => by
    rw [Img.fs_coherent.cur, blank_dinode]
  have hal : ∀ i, ¬ Alloc blankImg.fs i := fun i ha => ha.2 (by rw [hcur]; rfl)
  have hused : ∀ b, ¬ blankImg.fs.UsedBlock b := by
    rintro b ⟨hlo, -, hbit⟩
    have hlt : b < nmeta := of_decide_eq_true hbit
    exact absurd (datastart_eq ▸ hlo) (Nat.not_le.mpr hlt)
  have hplace : ∀ l, blankImg.fs.place l = 0 := fun l => if_neg (hal l.1)
  have hsuper : blankImg.sect 1 = setWords zeroes 0 sb.words := by
    simp only [blankImg, update_self]
  refine ⟨rfl, hsuper, ⟨⟨⟨by decide, by decide, fun b hb => ?_,
    ⟨hused 0, fun l hl => absurd (hplace l) hl, fun l _ hl => absurd (hplace l) hl,
      fun b hb => absurd hb (hused b)⟩⟩, fun i hi => absurd hi (hal i)⟩, Img.fs_coherent⟩, ?_,
    by decide, by decide, fun _ _ => rfl, ?_, by decide, fun b hb => ?_⟩
  · exact decide_eq_true (show b < nmeta from datastart_eq ▸ hb)
  · funext i
    rw [view_of_not_alloc (hal i)]
    refine (if_neg ?_).symm
    show ¬ (0 < i ∧ i < 1)
    omega
  · rw [total_nil]
    rfl
  · have hne : b ≠ 1 := by
      have : 59 ≤ b := hb
      rintro rfl
      omega
    simp only [blankImg, update_of_ne hne]

/-- The last steps of `main`: the size of the root directory, and the bitmap. -/
def Img.finish (m : Img) : Img :=
  let d := m.fs.dinode ROOTINO
  let m' := m.put ROOTINO { d with size := (d.size / BSIZE + 1) * BSIZE }
  { m' with sect := Function.update m'.sect sb.bmapstart (bitmapOf m.freeblock) }

/-- The first loop of `main`. -/
theorem wp_clearSects {n : Nat} {Q : Unit → Img → Prop}
    (hQ : Q () ({ emptyImg with nsect := n } : Img)) : wp (clearSects n) Q E emptyImg := by
  unfold clearSects
  refine wp_conseq (wp_forM_range (fun k m => m = ({ emptyImg with nsect := k } : Img)) rfl ?_)
    fun _ m hm => hm ▸ hQ
  rintro i _ - rfl
  have hz : update (fun _ => zeroes) i zeroes = fun _ => zeroes :=
    update_eq_self (f := fun _ => zeroes) i
  simp only [wsect, wp_modify, emptyImg, hz]
  rw [Nat.max_eq_right (Nat.le_succ i)]

/-- **`main`** makes the image with the contents of the files, and stops early only when a name
has a slash in it or there is no room. -/
theorem wp_main {files : List HostFile} (hn : files.length + 1 < NINODES)
    (hslash : ∀ f ∈ files, slash ∈ f.arg → E .assert)
    (hE : ∀ e, ¬ RoomFor (contents files) → E e) {Q : Unit → Img → Prop}
    (hQ : ∀ m, Built m (contents files) → m.freeinode = 2 + files.length → Q () m.finish) :
    wp (main files) Q E emptyImg := by
  have hone : ROOTINO = 1 := rfl
  have hroom : RoomFor (contents files) → ∀ c : Nat → List UInt8,
      (∀ i, i ≠ ROOTINO → c i = []) → (c ROOTINO).length ≤ 2 * DESIZE → RoomFor c := by
    intro h c hc hr
    refine h.mono fun i => ?_
    by_cases hi : i = ROOTINO
    · subst hi
      rw [contents, placed_root (by decide), List.length_append, rootOnly, update_self,
        List.length_append, Dirent.make_length, Dirent.make_length]
      omega
    · rw [hc i hi]
      exact Nat.zero_le _
  unfold main
  rw [wp_bind]
  refine wp_clearSects ?_
  rw [wp_bind]
  refine wp_wsect (by simp only; decide) ?_
  rw [wp_bind]
  refine built_blank.wp_ialloc (by decide) rfl fun m₁ h₁ hfi₁ => ?_
  have hfi₁' : m₁.freeinode = 2 := hfi₁
  rw [show blankImg.freeinode = ROOTINO from rfl, if_neg fun h => h rfl, wp_bind]
  refine h₁.wp_iappend ⟨by decide, by rw [hfi₁']; decide⟩ (by rw [Dirent.make_length]; decide)
    (fun m₂ h₂ hfi₂ => ?_) fun e hno => hE e fun hr => hno (hroom hr _ (fun i hi => ?_) ?_)
  · rw [List.nil_append] at h₂
    rw [wp_bind]
    refine h₂.wp_iappend ⟨by decide, by rw [hfi₂, hfi₁']; decide⟩
      (by rw [Dirent.make_length]; decide) (fun m₃ h₃ hfi₃ => ?_)
      fun e hno => hE e fun hr => hno (hroom hr _ (fun i hi => ?_) ?_)
    · rw [update_self, update_idem] at h₃
      have hfi : m₃.freeinode = 2 := by omega
      have hcont : placed files m₃.freeinode rootOnly = contents files := by rw [hfi]; rfl
      rw [wp_bind]
      refine Built.wp_files (c := rootOnly) h₃ (by omega) (by omega) hslash (hcont ▸ hE)
        fun m₄ h₄ hfi₄ => ?_
      rw [hcont] at h₄
      have hroot : ROOTINO < NINODES := by decide
      rw [wp_bind]
      simp only [fixRoot, wp_bind]
      refine wp_rinode h₄.nsect hroot (wp_winode h₄.nsect hroot ?_)
      have hused : m₄.freeblock < BSIZE * 8 := h₄.room.trans_lt (by decide)
      simp only [wp_get, balloc, Img.put, if_pos hused]
      refine wp_wsect (by rw [h₄.nsect]; decide) ?_
      exact hQ m₄ h₄ (by omega)
    · rw [update_idem, update_of_ne hi]
    · rw [update_self, update_self, List.length_append, Dirent.make_length,
        Dirent.make_length]
      decide
  · rw [update_of_ne hi]
  · rw [update_self, List.nil_append, Dirent.make_length]
    decide

end

/-! ## 5. What `mkfs` makes -/

section

variable {files : List HostFile}

/-- An image that `mkfs` has made holds the contents of the files. -/
theorem built_of_mkfs {img : Img} (h : mkfs files = .ok img) (hn : files.length + 1 < NINODES) :
    ∃ m, Built m (contents files) ∧ m.freeinode = 2 + files.length ∧ img = m.finish := by
  have hwp : wp (main files) (fun _ img => ∃ m, Built m (contents files) ∧
      m.freeinode = 2 + files.length ∧ img = m.finish) (fun _ => True) emptyImg := by
    apply wp_main hn (fun _ _ _ => trivial) (fun _ _ => trivial)
    exact fun m hm hfi => ⟨m, hm, hfi, rfl⟩
  unfold mkfs at h
  unfold wp at hwp
  split at hwp
  next he =>
    rw [he] at h
    exact Except.ok.inj h ▸ hwp
  next he =>
    rw [he] at h
    cases h

/-- **`mkfs` makes an image** of every list of files that there is room for. -/
theorem mkfs_ok (hn : files.length + 1 < NINODES) (hslash : ∀ f ∈ files, slash ∉ f.arg)
    (hroom : RoomFor (contents files)) : ∃ img, mkfs files = .ok img := by
  have hwp : wp (main files) (fun _ _ => True) (fun _ => False) emptyImg := by
    apply wp_main hn hslash (fun _ hno => hno hroom)
    exact fun _ _ _ => trivial
  unfold mkfs
  unfold wp at hwp
  split at hwp
  next he => exact ⟨_, by rw [he]⟩
  next => exact hwp.elim

/-- **The files fit the disk**: there are inodes for them, each is at most as long as a file can
be, and there are blocks for all of them and for the root directory. -/
structure Fits (files : List HostFile) : Prop where
  inodes : files.length + 1 < NINODES
  file : ∀ f ∈ files, f.data.length ≤ MAXFILE * BSIZE
  disk : nmeta + blocksFor (DESIZE * (2 + files.length)) +
    (files.map fun f => blocksFor f.data.length).sum ≤ FSSIZE

theorem entries_length : ∀ {files : List HostFile} {n : Nat},
    (entries files n).length = DESIZE * files.length
  | [], _ => rfl
  | f :: fs, n => by
    rw [entries, List.length_append, Dirent.make_length, entries_length, List.length_cons,
      Nat.mul_succ, Nat.add_comm]

theorem rootOnly_root : rootOnly ROOTINO =
    Dirent.make dot ROOTINO ++ Dirent.make dotdot ROOTINO := update_self ..

theorem contents_root : contents files ROOTINO =
    Dirent.make dot ROOTINO ++ Dirent.make dotdot ROOTINO ++ entries files 2 := by
  rw [contents, placed_root (by decide), rootOnly_root]

theorem contents_root_length (files : List HostFile) :
    (contents files ROOTINO).length = DESIZE * (2 + files.length) := by
  rw [contents_root, List.length_append, List.length_append, Dirent.make_length,
    Dirent.make_length, entries_length, Nat.mul_add, Nat.mul_two]

theorem contents_file {j : Nat} (hj : j < files.length) :
    contents files (2 + j) = files[j].data := placed_get files hj (by decide)

/-- The blocks of the files and of the root directory. -/
theorem total_placed : ∀ (files : List HostFile) {n : Nat} {c : Nat → List UInt8}, ROOTINO < n →
    n + files.length ≤ NINODES → (∀ i, n ≤ i → c i = []) →
    total (placed files n c) + blocksFor (c ROOTINO).length =
      total c + blocksFor (placed files n c ROOTINO).length +
        (files.map fun f => blocksFor f.data.length).sum
  | [], n, c, _, _, _ => by simp [placed]
  | f :: fs, n, c, hn, hle, hc => by
    rw [List.length_cons] at hle
    have ih := total_placed fs (n := n + 1) (c := added c n f) (by omega) (by omega)
      fun i hi => by rw [added_other (by omega) (by omega)]; exact hc i (by omega)
    have h₁ := total_update (c := c) (i := ROOTINO) (by decide) (c ROOTINO ++ Dirent.make f.name n)
    have h₂ := total_update (c := update c ROOTINO (c ROOTINO ++ Dirent.make f.name n))
      (i := n) (by omega) f.data
    rw [update_of_ne (show n ≠ ROOTINO by omega), hc n (Nat.le_refl _),
      List.length_nil, blocksFor_zero] at h₂
    rw [added_root hn] at ih
    rw [placed, List.map_cons, List.sum_cons]
    unfold added at ih ⊢
    omega

theorem total_contents (hn : files.length + 1 < NINODES) : total (contents files) =
    blocksFor (DESIZE * (2 + files.length)) + (files.map fun f => blocksFor f.data.length).sum := by
  have htotal := total_placed files (n := 2) (c := rootOnly) (by decide) (by omega)
    fun i hi => update_of_ne (by have : ROOTINO = 1 := rfl; omega) _ _
  have hroot : total rootOnly = blocksFor (rootOnly ROOTINO).length := by
    have := total_update (c := fun _ => []) (i := ROOTINO) (by decide)
      (Dirent.make dot ROOTINO ++ Dirent.make dotdot ROOTINO)
    rw [total_nil, List.length_nil, blocksFor_zero] at this
    rw [rootOnly_root]
    unfold rootOnly
    omega
  have hlen := contents_root_length files
  unfold contents at hlen ⊢
  rw [hlen] at htotal
  omega

theorem Fits.roomFor (h : Fits files) : RoomFor (contents files) := by
  have hone : ROOTINO = 1 := rfl
  refine ⟨fun i => ?_, ?_⟩
  · by_cases hr : i = ROOTINO
    · rw [hr, contents_root_length]
      have := h.inodes
      simp only [NINODES, DESIZE, MAXFILE, BSIZE] at this ⊢
      omega
    · by_cases hi : i < 2 ∨ 2 + files.length ≤ i
      · rw [contents, placed_other hr hi, rootOnly, update_of_ne hr]
        exact Nat.zero_le _
      · obtain ⟨j, rfl⟩ : ∃ j, i = 2 + j := ⟨i - 2, by omega⟩
        rw [contents_file (by omega)]
        exact h.file _ (List.getElem_mem _)
  · rw [total_contents h.inodes, ← Nat.add_assoc]
    exact h.disk

end

end Xv6.Mkfs
