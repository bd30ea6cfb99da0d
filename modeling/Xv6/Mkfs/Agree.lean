/-
# The kernel finds the files

`mkfs` and the kernel were written separately: where inodes are, how blocks are mapped, what an
entry of a directory looks like.  Here the kernel is booted on an image that `mkfs` has made and
looks up a file by its name: it finds the inode, with the size of the host's file, and `readi`
returns the host's bytes.

The root directory may have a hole behind its entries (`HoleFree.lean`).  The search for a name
that is there never comes to it, so what follows does not use the ownership invariant but only
the blocks that the entries need.
-/
import Mathlib.Data.List.TakeWhile
import Xv6.Fs.Walk
import Xv6.Mkfs.HoleFree

namespace Xv6.Mkfs

open Function (update update_apply update_of_ne update_self)

open Fs Bytes

/-! ## 1. The kernel's side -/

/-- The kernel after boot: nothing is cached, and process 0 is in the root directory. -/
def boot (disk : Nat → Bytes) (devsw : Nat → Dev) : Kern where
  fs := (FileSys.ofDisk disk devsw).got ROOTINO
  ftable _ := ⟨.none, 0, false, false, 0, 0⟩
  proc p := ⟨if p = 0 then some ROOTINO else none, fun _ => none⟩

/-- What there is to see of a file. -/
structure Seen where
  type : Int
  size : Nat
  bytes : Option (List UInt8)

/-- `namei`, and under the lock of the inode that it finds `stati` and `readi`. -/
def look (p : Pid) (path : List UInt8) (off n : Nat) : KProg (Option Seen) := do
  match ← namei p path with
  | none => return none
  | some ip =>
    ilock ip
    let s ← atomic get
    let bytes ← atomic (readi ip off n)
    iunlock p ip
    return some ⟨(s.inode ip).type, (s.inode ip).size, bytes⟩

/-! ## 2. Names -/

/-- The names are C strings that can be told apart in a directory. -/
structure Names (files : List HostFile) : Prop where
  nonempty : ∀ f ∈ files, f.name ≠ []
  string : ∀ f ∈ files, 0 ∉ f.arg
  slash : ∀ f ∈ files, slash ∉ f.arg
  dots : ∀ f ∈ files, f.name ≠ dot ∧ f.name ≠ dotdot
  distinct : files.Pairwise fun f g => f.name.take DIRSIZ ≠ g.name.take DIRSIZ

theorem HostFile.mem_arg {f : HostFile} {x : UInt8} (h : x ∈ f.name) : x ∈ f.arg := by
  unfold HostFile.name at h
  split at h
  · exact List.mem_of_mem_tail h
  · exact h

/-- A path with one element. -/
theorem skipelem_single {path name : List UInt8} (h : path.dropWhile (· = slash) = name)
    (hne : name ≠ []) (hs : slash ∉ name) : skipelem path = some (name.take DIRSIZ, []) := by
  have hall : ∀ x ∈ name, decide (x ≠ slash) = true := fun x hx =>
    decide_eq_true fun e => hs (e ▸ hx)
  unfold skipelem
  rw [h]
  cases name with
  | nil => exact absurd rfl hne
  | cons c cs =>
    dsimp only
    rw [List.takeWhile_eq_self_iff.mpr hall, List.dropWhile_eq_nil_iff.mpr hall]
    rfl

/-- The string of a name without a NUL. -/
theorem cstring_eq_take {n : Nat} {t : List UInt8} (h : 0 ∉ t) : cstring n t = t.take n :=
  List.takeWhile_eq_self_iff.mpr fun _ hx =>
    decide_eq_true fun e => h (e ▸ List.mem_of_mem_take hx)

/-- `namecmp` of a name with the name in an entry. -/
theorem named_make {name nm : List UInt8} {inum : Nat} (hi : inum ≠ 0) (hlt : inum < 2 ^ 16)
    (h : 0 ∉ name) (h' : 0 ∉ nm) : Dirent.named name (Dirent.ofBytes (Dirent.make nm inum)) =
      decide (name.take DIRSIZ = nm.take DIRSIZ) := by
  rw [Dirent.ofBytes_make hlt, Dirent.named, Bool.eq_iff_iff, decide_eq_true_iff]
  simp only [namecmp, Bool.and_eq_true, decide_eq_true_iff, beq_iff_eq, strncmp_eq_zero,
    cstring_strncpy, cstring_eq_take h, cstring_eq_take h', ne_eq, hi, not_false_eq_true, true_and]

/-! ## 3. The root directory -/

/-- The entries of the root directory: names and inode numbers. -/
def rootEntries (files : List HostFile) : List (List UInt8 × Nat) :=
  (dot, ROOTINO) :: (dotdot, ROOTINO) :: (files.map HostFile.name).zipIdx 2

theorem entries_eq : ∀ (files : List HostFile) (n : Nat), entries files n =
    ((files.map HostFile.name).zipIdx n).flatMap fun e => Dirent.make e.1 e.2
  | [], _ => rfl
  | f :: fs, n => by
    rw [entries, entries_eq fs (n + 1), List.map_cons, List.zipIdx_cons, List.flatMap_cons]

theorem contents_root_eq (files : List HostFile) : contents files ROOTINO =
    (rootEntries files).flatMap fun e => Dirent.make e.1 e.2 := by
  rw [contents_root, entries_eq, rootEntries, List.flatMap_cons, List.flatMap_cons,
    List.append_assoc]

/-- A record of a list of records of one size. -/
theorem slice_flatMap {α : Type} {g : α → List UInt8} {d : Nat} (hg : ∀ a, (g a).length = d)
    {a : α} : ∀ {l : List α} {j : Nat}, l[j]? = some a →
    slice (fun k => (l.flatMap g).getD k 0) (d * j) d = g a
  | b :: l, 0, h => by
    obtain rfl : b = a := by simpa using h
    refine List.ext_getElem (by rw [slice_length]; exact (hg b).symm) fun k hk hk' => ?_
    simp [slice, List.getD_eq_getElem?_getD, List.getElem?_append_left hk',
      List.getElem?_eq_getElem hk']
  | b :: l, j + 1, h => by
    rw [← slice_flatMap hg (l := l) (j := j) (by simpa using h)]
    refine slice_congr fun k _ => ?_
    rw [List.flatMap_cons, List.getD_eq_getElem?_getD, List.getD_eq_getElem?_getD,
      List.getElem?_append_right (by rw [hg, Nat.mul_succ]; omega), hg]
    congr 2
    rw [Nat.mul_succ]
    omega

section

variable {m : Img} {c : Nat → List UInt8} (devsw : Nat → Dev)

/-- The bytes that the kernel reads are the contents. -/
theorem Built.disk_byteAt (h : Built m c) (hroot : ROOTINO < m.freeinode) {i : Nat}
    (hi : 0 < i ∧ i < m.freeinode) {k : Nat} (hk : k < (c i).length) :
    Fs.byteAt m.finish.sect ((FileSys.ofDisk m.finish.sect devsw).dinode i) k = (c i).getD k 0 := by
  rw [← h.byteAt hi hk]
  refine byteAt_congr (h.disk_slot devsw hroot hi _) fun h0 => finish_data ?_
  have hused := h.good.own.toBase.slot_used (m := slotOf (k / BSIZE)) (h.alloc_iff.mpr hi) (by
    rw [h.good.coherent.cur]
    exact h0)
  rw [h.good.coherent.cur] at hused
  exact datastart_eq ▸ hused.1

end

/-! ## 4. A lookup after boot -/

/-- The first entry for `name` in the directory `d` is one for the inode `inum`, in a block that is
there. -/
def Finds (data : Nat → Bytes) (d : Dinode) (name : List UInt8) (inum : Nat) : Prop :=
  ∃ nb j, HasBlocks data d nb ∧ DESIZE * (j + 1) ≤ min d.size (nb * BSIZE) ∧
    (∀ i, i < j → Dirent.named name ((fileOf data d).dirent (DESIZE * i)) = false) ∧
    Dirent.named name ((fileOf data d).dirent (DESIZE * j)) = true ∧
    ((fileOf data d).dirent (DESIZE * j)).inum = inum

section

variable {s : FileSys} {dp inum : Nat} {name : List UInt8} {E : Panic → Prop}

theorem wp_dirlookup_found (h : Finds s.data (s.inode dp) name inum)
    (ht : (s.inode dp).type = T_DIR) (hsmall : (s.inode dp).size < 2 ^ 32)
    (hroom : s.used.length < NINODE) {Q : Option (Nat × Nat) → FileSys → Prop}
    (hQ : ∀ off, Q (some (inum, off)) (s.got inum)) : wp (dirlookup dp name) Q E s := by
  obtain ⟨nb, j, hb, hj, hbefore, hat, rfl⟩ := h
  have hdev : (s.inode dp).type ≠ T_DEV := by
    rw [ht]
    decide
  simp only [dirlookup, wp_bind, wp_get, if_neg (not_not.mpr ht)]
  refine wp_dirScan_found hb hdev hsmall hj hbefore hat _ 0 (Nat.zero_le _) ?_ ?_
  · simp only [scanFuel, DESIZE] at hj ⊢
    omega
  · simp only [wp_bind]
    exact wp_iget (hQ _) fun _ hfull => absurd hroom (by omega)

/-- Nothing is cached, locked or referenced. -/
structure Fresh (s : FileSys) : Prop where
  valid : ∀ i, s.valid i = false
  ref : ∀ i, s.ref i = 0
  lock : ∀ i, s.lock i = none
  used : s.used = []

variable {p : Pid} {path : List UInt8} {k : Kern}

theorem wp_namexStart_root (hk : k.fs.ref ROOTINO ≠ 0) (hcwd : (k.proc p).cwd = some ROOTINO)
    {Q : Nat → Kern → Prop} (hQ : Q ROOTINO { k with fs := k.fs.got ROOTINO }) :
    wp (namexStart p path) Q E k := by
  unfold namexStart
  split
  · simp only [wp_bind, wp_onFs, wp_pure]
    exact wp_iget hQ fun h0 _ => absurd h0 hk
  · simp only [getCwd, wp_bind, wp_get, wp_pure, hcwd, Option.getD_some, wp_onFs, idup, wp_modify]
    rw [FileSys.got, if_neg hk, if_neg hk] at hQ
    exact hQ

/-- The state after a lookup that found `inum`: it is referenced once, and not read yet. -/
structure Looked (s s' : FileSys) (inum : Nat) : Prop where
  sb : s'.sb = s.sb
  dinode : s'.dinode = s.dinode
  data : s'.data = s.data
  valid : s'.valid inum = false
  ref : s'.ref inum = 1
  lock : s'.lock inum = none

/-- `namei` of a name in the root directory, after boot. -/
theorem wp_namei_boot {E : Stop Panic Want → Prop} (hs : Fresh s) (hk : k.fs = s.got ROOTINO)
    (hcwd : (k.proc p).cwd = some ROOTINO) (hn : ROOTINO < s.sb.ninodes)
    (ht : (s.dinode ROOTINO).type = T_DIR) (hl : (s.dinode ROOTINO).nlink ≠ 0)
    (hsmall : (s.dinode ROOTINO).size < 2 ^ 32)
    (hfind : Finds s.data (s.dinode ROOTINO) name inum) (hne : inum ≠ ROOTINO)
    (hpath : skipelem path = some (name, [])) {Q : Option Nat → Kern → Prop}
    (hQ : ∀ s', Looked s s' inum → Q (some inum) { k with fs := s' }) :
    wp ((namei p path).seq p) Q E k := by
  have hpos : path.length ≠ 0 := by
    have := skipelem_length hpath
    simp only [List.length_nil] at this
    omega
  obtain ⟨len, hlen⟩ := Nat.exists_eq_succ_of_ne_zero hpos
  have href : ∀ i, (s.got ROOTINO).ref i = if i = ROOTINO then 1 else 0 := by
    intro i
    simp only [FileSys.got, hs.ref, update_apply]
  have hvalid : ∀ i, (s.got ROOTINO).valid i = false := by
    intro i
    by_contra hv
    have := got_valid (i := ROOTINO) (by simpa using hv)
    rw [hs.valid] at this
    exact Bool.noConfusion this
  unfold namei namex
  simp only [Prog.bind_eq_bind, Prog.wp_seq_bind, Prog.wp_seq_lift]
  refine wp_namexStart_root (by rw [hk, href]; decide) hcwd ?_
  rw [hk, hlen]
  set s₂ := (s.got ROOTINO).got ROOTINO with hs₂
  have hval₂ : ∀ i, s₂.valid i = false := by
    intro i
    by_contra hv
    have := got_valid (i := ROOTINO) (by simpa using hv)
    rw [hvalid] at this
    exact Bool.noConfusion this
  have hal₂ : Alloc s₂ ROOTINO := by
    refine ⟨hn, ?_⟩
    rw [cur_of_not_valid (hval₂ _), show s₂.dinode = s.dinode from rfl, ht]
    decide
  have href₂ : ∀ i, s₂.ref i = if i = ROOTINO then 2 else 0 := by
    intro i
    simp only [hs₂, FileSys.got, update_apply, hs.ref]
    split <;> rfl
  unfold namexLoop
  simp only [hpath, Prog.bind_eq_bind, Prog.wp_seq_bind]
  refine wp_ilock_loaded (hs.lock _) (by simp only [href₂]; decide) hal₂ ?_
  set s₃ := (s₂.setLock ROOTINO (some p)).loaded ROOTINO with hs₃
  have hin₃ : s₃.inode ROOTINO = s.dinode ROOTINO := loaded_inode (hval₂ ROOTINO)
  simp only [wp_atomic, itype, wp_bind, wp_get, wp_pure, hin₃, ht, ne_eq, not_true_eq_false,
    if_false, Bool.false_eq_true, false_and, Prog.wp_seq_bind]
  have hused₃ : s₃.used = [ROOTINO] := by
    rw [hs₃, loaded_used]
    simp only [hs₂, FileSys.setLock, FileSys.got, hs.ref, hs.used, update_self, if_true,
      Nat.add_eq_zero_iff, Nat.one_ne_zero, and_false, if_false]
  have href₃ : s₃.ref = s₂.ref := loaded_ref
  have hlock₃ : s₃.lock = update s.lock ROOTINO (some p) := loaded_lock
  have hfind₃ : Finds s₃.data (s₃.inode ROOTINO) name inum := by
    rw [hin₃, hs₃, loaded_data]
    exact hfind
  refine wp_dirlookup_found hfind₃ (by rw [hin₃, ht]) (by rw [hin₃]; exact hsmall)
    (by rw [hused₃]; decide) fun off => ?_
  set s₄ := s₃.got inum with hs₄
  have href₄ : s₄.ref ROOTINO = 2 := by
    simp only [hs₄, FileSys.got, update_of_ne (Ne.symm hne), href₃, href₂, if_true]
  simp only [iunlockput, Prog.bind_eq_bind, Prog.wp_seq_bind]
  refine wp_iunlock_release ?_ (by simp only [href₄]; decide) ?_
  · simp only [hs₄, FileSys.got, hlock₃, update_self]
  · refine wp_iput_linked ?_ ?_ ?_
    · simp only [FileSys.setLock, update_self]
    · rintro ⟨-, h0⟩
      exact hl (hin₃ ▸ h0)
    · unfold namexLoop
      simp only [skipelem, List.dropWhile_nil, Bool.false_eq_true, if_false]
      refine hQ _ ⟨?_, ?_, ?_, ?_, ?_, ?_⟩
      · exact loaded_sb
      · exact loaded_dinode
      · exact loaded_data
      · simp only [FileSys.dropped, FileSys.setLock, hs₄, FileSys.got, href₃, href₂, if_neg hne,
          if_true, update_self]
      · simp only [FileSys.dropped, FileSys.setLock, hs₄, FileSys.got, href₃, href₂, if_neg hne,
          update_of_ne hne, update_self]
      · simp only [FileSys.dropped, FileSys.setLock, hs₄, FileSys.got, hlock₃,
          update_of_ne hne, hs.lock]

end

/-! ## 5. The image of the files -/

section

variable {files : List HostFile} {m : Img} (devsw : Nat → Dev)

theorem rootEntries_length : (rootEntries files).length = 2 + files.length := by
  simp only [rootEntries, List.length_cons, List.length_zipIdx, List.length_map]
  omega

theorem rootEntries_file {j : Nat} (hj : j < files.length) :
    (rootEntries files)[j + 2]? = some (files[j].name, 2 + j) := by
  simp [rootEntries, hj]

/-- The entries of the root directory, as the kernel reads them. -/
theorem Built.disk_dirent (h : Built m (contents files)) (hroot : ROOTINO < m.freeinode) {i : Nat}
    {e : List UInt8 × Nat} (he : (rootEntries files)[i]? = some e) :
    (Fs.fileOf m.finish.sect ((FileSys.ofDisk m.finish.sect devsw).dinode ROOTINO)).dirent
      (DESIZE * i) = Dirent.ofBytes (Dirent.make e.1 e.2) := by
  have hr : 0 < ROOTINO ∧ ROOTINO < m.freeinode := ⟨by decide, hroot⟩
  have hlen := contents_root_length files
  have hi : i < 2 + files.length := rootEntries_length ▸ (List.getElem?_eq_some_iff.mp he).1
  have hsize := h.disk_size devsw hroot hr
  rw [if_pos rfl] at hsize
  have hle := le_roundUp (contents files ROOTINO).length
  unfold File.dirent
  congr 1
  rw [← slice_flatMap (g := fun e : List UInt8 × Nat => Dirent.make e.1 e.2)
    (fun e => Dirent.make_length e.1 e.2) he, ← contents_root_eq]
  refine slice_congr fun k hk => ?_
  have hin : DESIZE * i + k < (contents files ROOTINO).length := by
    rw [hlen]
    simp only [DESIZE] at hk ⊢
    omega
  simp only [Fs.fileOf, hsize]
  rw [if_pos (by omega), h.disk_byteAt devsw hroot hr hin]

/-- A short prefix that is all there is. -/
theorem eq_of_take {t u : List UInt8} (h : t.take DIRSIZ = u) (hu : u.length < DIRSIZ) : t = u := by
  have hlen := congrArg List.length h
  rw [List.length_take] at hlen
  rw [← h, List.take_of_length_le (by omega)]

/-- **The lookup of a file finds its inode**: no entry before it has its name. -/
theorem Built.finds (h : Built m (contents files)) (hroot : ROOTINO < m.freeinode)
    (hinodes : files.length + 1 < NINODES) (hnames : Names files) {j : Nat}
    (hj : j < files.length) :
    Finds m.finish.sect ((FileSys.ofDisk m.finish.sect devsw).dinode ROOTINO)
      (files[j].name.take DIRSIZ) (2 + j) := by
  have hr : 0 < ROOTINO ∧ ROOTINO < m.freeinode := ⟨by decide, hroot⟩
  have hstr : ∀ {i} (hi : i < files.length), 0 ∉ files[i].name := fun hi h0 =>
    hnames.string _ (List.getElem_mem hi) (HostFile.mem_arg h0)
  have hstr' : 0 ∉ files[j].name.take DIRSIZ := fun h0 => hstr hj (List.mem_of_mem_take h0)
  have hlt : ∀ {i}, i < files.length → 2 + i < 2 ^ 16 := fun hi => by
    have : NINODES = 200 := rfl
    omega
  have hself := h.disk_dirent devsw hroot (rootEntries_file hj)
  have hnamed : ∀ {i : Nat} {e : List UInt8 × Nat}, (rootEntries files)[i]? = some e → e.2 ≠ 0 →
      e.2 < 2 ^ 16 → 0 ∉ e.1 → Dirent.named (files[j].name.take DIRSIZ)
        ((Fs.fileOf m.finish.sect ((FileSys.ofDisk m.finish.sect devsw).dinode ROOTINO)).dirent
          (DESIZE * i)) = decide (files[j].name.take DIRSIZ = e.1.take DIRSIZ) := by
    intro i e he h0 hlt hstr
    rw [h.disk_dirent devsw hroot he, named_make h0 hlt hstr' hstr, List.take_take, Nat.min_self]
  have hdots := hnames.dots _ (List.getElem_mem hj)
  refine ⟨_, j + 2, h.disk_blocks devsw hroot hr, ?_, fun i hi => ?_, ?_, ?_⟩
  · have hlen := contents_root_length files
    have hge := nblk_mul_ge (contents files ROOTINO).length
    have hle := le_roundUp (contents files ROOTINO).length
    rw [h.disk_size devsw hroot hr, if_pos rfl]
    refine le_min (le_trans ?_ hle) (le_trans ?_ hge) <;>
    · rw [hlen]
      exact Nat.mul_le_mul_left _ (by omega)
  · match i with
    | 0 =>
      rw [hnamed (e := (dot, ROOTINO)) rfl (by decide) (by decide) (by decide)]
      exact decide_eq_false fun he => hdots.1 (eq_of_take he (by decide))
    | 1 =>
      rw [hnamed (e := (dotdot, ROOTINO)) rfl (by decide) (by decide) (by decide)]
      exact decide_eq_false fun he => hdots.2 (eq_of_take he (by decide))
    | i + 2 =>
      have hi' : i < files.length := by omega
      rw [hnamed (rootEntries_file hi') (by simp) (hlt hi') (hstr hi')]
      exact decide_eq_false fun he =>
        List.pairwise_iff_getElem.mp hnames.distinct i j hi' hj (by omega) he.symm
  · rw [hnamed (rootEntries_file hj) (by simp) (hlt hj) (hstr hj)]
    exact decide_eq_true rfl
  · rw [hself, Dirent.ofBytes_make (hlt hj)]

/-- What `readi` returns for a file that holds `bytes`. -/
theorem read_bytes {f : File} {bytes : List UInt8} (hsize : f.size = bytes.length)
    (hbytes : ∀ k, k < bytes.length → f.bytes k = bytes.getD k 0) {off n : Nat}
    (h : off + n < 2 ^ 32) : f.read off n =
      if bytes.length < off then none else some ((bytes.drop off).take n) := by
  have hadd : ¬ add32 off n < off := by
    rw [add32, Nat.mod_eq_of_lt h]
    omega
  unfold File.read
  simp only [hsize, hadd, or_false]
  split
  · rfl
  · congr 1
    refine List.ext_getElem ?_ fun k hk hk' => ?_
    · rw [slice_length, List.length_take, List.length_drop]
      split <;> omega
    · rw [List.length_take, List.length_drop] at hk'
      have hin : off + k < bytes.length := by omega
      simp only [slice, List.getElem_map, List.getElem_range, List.getElem_take,
        List.getElem_drop, hbytes _ hin, List.getD_eq_getElem?_getD, List.getElem?_eq_getElem hin,
        Option.getD_some]

/-- The kernel's look at one of the files. -/
theorem Built.wp_look (h : Built m (contents files)) (hfi : m.freeinode = 2 + files.length)
    (hinodes : files.length + 1 < NINODES) (hnames : Names files) {j : Nat}
    (hj : j < files.length) {path : List UInt8} {off n : Nat}
    (hpath : skipelem path = some (files[j].name.take DIRSIZ, [])) (hoff : off + n < 2 ^ 32) :
    wp ((look 0 path off n).seq 0) (fun r _ => r = some ⟨T_FILE, files[j].data.length,
      if files[j].data.length < off then none else some ((files[j].data.drop off).take n)⟩)
      (fun _ => False) (boot m.finish.sect devsw) := by
  have hone : ROOTINO = 1 := rfl
  have hroot : ROOTINO < m.freeinode := by omega
  have hr : 0 < ROOTINO ∧ ROOTINO < m.freeinode := ⟨by decide, hroot⟩
  have hi : 0 < 2 + j ∧ 2 + j < m.freeinode := by omega
  have hne : 2 + j ≠ ROOTINO := by omega
  have hcont : contents files (2 + j) = files[j].data := contents_file hj
  have hrange := h.root_inRange hroot
  have htype := h.disk_type devsw hroot hi
  have hsize := h.disk_size devsw hroot hi
  have hblocks := h.disk_blocks devsw hroot hi
  have hbyte := fun k hk => h.disk_byteAt devsw hroot hi (k := k) hk
  rw [if_neg hne, hcont] at hsize
  rw [hcont] at hblocks hbyte
  rw [ftype, if_neg hne] at htype
  have hfind := h.finds devsw hroot hinodes hnames hj
  set s := FileSys.ofDisk m.finish.sect devsw with hs
  have hfresh : Fresh s := ⟨fun _ => rfl, fun _ => rfl, fun _ => rfl, rfl⟩
  unfold look
  simp only [Prog.bind_eq_bind, Prog.wp_seq_bind]
  refine wp_namei_boot hfresh rfl rfl ?_ ?_ ?_ ?_ hfind hne hpath fun s' hs' => ?_
  · rw [hs, h.disk_sb]
    decide
  · rw [h.disk_type devsw hroot hr]
    rfl
  · rw [h.disk_dinode devsw hroot (by decide), update_self]
    simp only [Img.root, h.nlink hr]
    decide
  · rw [h.disk_dinode devsw hroot (by decide), update_self]
    exact hrange.size
  · -- the inode is read from the disk, and then its bytes
    have hal : Alloc s' (2 + j) := by
      refine ⟨by rw [hs'.sb, hs, h.disk_sb]; exact hi.2.trans_le h.le, ?_⟩
      rw [cur_of_not_valid hs'.valid, hs'.dinode, htype]
      decide
    simp only [Prog.wp_seq_bind]
    refine wp_ilock_loaded hs'.lock (by rw [hs'.ref]; decide) hal ?_
    set s₁ := (s'.setLock (2 + j) (some 0)).loaded (2 + j) with hs₁
    have hin : s₁.inode (2 + j) = s.dinode (2 + j) :=
      (loaded_inode (s := s'.setLock (2 + j) (some 0)) hs'.valid).trans (congrFun hs'.dinode _)
    have hdata : s₁.data = m.finish.sect := loaded_data.trans hs'.data
    have hlock : s₁.lock (2 + j) = some 0 := by
      rw [hs₁, loaded_lock]
      exact update_self ..
    have href : s₁.ref (2 + j) = 1 := by
      rw [hs₁, loaded_ref]
      exact hs'.ref
    have hread : (Fs.fileOf m.finish.sect (s.dinode (2 + j))).read off n =
        if files[j].data.length < off then none
        else some ((files[j].data.drop off).take n) := by
      refine read_bytes hsize (fun k hk => ?_) hoff
      simp only [Fs.fileOf, hsize, if_pos hk]
      exact hbyte k hk
    simp only [wp_atomic, wp_get, hin, htype, hsize]
    refine wp_readi_blocks (by rw [hin, hdata]; exact fun bn => (hblocks.block bn).mpr)
      (by rw [hin, htype]; decide) ?_ ?_
    · rw [hin, hsize]
      exact (Nat.min_le_left _ _).trans (nblk_mul_ge _)
    · rw [hin, hdata, hread]
      refine wp_iunlock_release hlock (by rw [href]; decide) ?_
      rfl

end

/-- **`mkfs` and the kernel agree on the format of the disk.**  Files that fit the disk and have
names that can be told apart make an image; on this image the kernel finds each of them by its
name, whole or cut to `DIRSIZ` bytes, with the type, the size and the bytes of the host's file. -/
theorem mkfs_kernel_agree {files : List HostFile} (hfits : Fits files) (hnames : Names files)
    (devsw : Nat → Dev) : ∃ img, mkfs files = .ok img ∧
      ∀ f ∈ files, ∀ path : List UInt8,
        path.dropWhile (· = slash) = f.name ∨
          path.dropWhile (· = slash) = f.name.take DIRSIZ →
        ∀ off n, off + n < 2 ^ 32 →
          ∃ k, (look 0 path off n).seq 0 (boot img.sect devsw) =
            .ok (some ⟨T_FILE, f.data.length,
              if f.data.length < off then none else some ((f.data.drop off).take n)⟩, k) := by
  obtain ⟨img, himg⟩ := mkfs_ok hfits.inodes hnames.slash hfits.roomFor
  obtain ⟨m, hm, hfi, rfl⟩ := built_of_mkfs himg hfits.inodes
  refine ⟨_, himg, fun f hf path hpath off n hoff => ?_⟩
  obtain ⟨j, hj, rfl⟩ := List.getElem_of_mem hf
  have hslash : slash ∉ files[j].name := fun h => hnames.slash _ hf (HostFile.mem_arg h)
  have hne := hnames.nonempty _ hf
  have hskip : skipelem path = some (files[j].name.take DIRSIZ, []) := by
    rcases hpath with h | h
    · exact skipelem_single h hne hslash
    · have := skipelem_single h (fun h0 => hne (eq_of_take h0 (by decide)))
        fun hs => hslash (List.mem_of_mem_take hs)
      rwa [List.take_take, Nat.min_self] at this
  have hwp := hm.wp_look devsw hfi hfits.inodes hnames hj hskip hoff
  unfold wp at hwp
  split at hwp
  next he => exact ⟨_, by rw [he, hwp]⟩
  next => exact hwp.elim

/-- `_hi`, read in two pieces. -/
def hi : HostFile := ⟨[95, 104, 105], [[1, 2], [3]], by decide, by decide⟩

theorem mkfs_kernel_agree_hi : ∃ img k, mkfs [hi] = .ok img ∧
    (look 0 [slash, 104, 105] 1 5).seq 0 (boot img.sect fun _ => ⟨none, none⟩) =
      .ok (some ⟨T_FILE, 3, some [2, 3]⟩, k) := by
  have hfits : Fits [hi] := ⟨by decide, by decide, by decide⟩
  have hnames : Names [hi] := ⟨by decide, by decide, by decide, by decide, by decide⟩
  obtain ⟨img, himg, h⟩ := mkfs_kernel_agree hfits hnames fun _ => ⟨none, none⟩
  obtain ⟨k, hk⟩ := h hi (by simp) [slash, 104, 105] (by decide) 1 5 (by decide)
  exact ⟨img, k, himg, hk⟩

end Xv6.Mkfs
