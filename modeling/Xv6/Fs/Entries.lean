/-
# The entries of a directory

What writing one entry does to the list of entries.  The links of a directory are its entries
that are not empty; up to order, `link` adds one and `clear` takes one away.  Lookups and counts
are about the links.

The first two entries of a directory are `.` and `..`; the other links are its kids.  The code
keeps this form: a new entry goes behind the first two, and these are never cleared.
-/
import Xv6.Fs.Names

namespace Xv6.Fs

open Bytes

/-! ## 1. Writing one entry -/

section

variable {f : File} {k o : Nat} {src : List UInt8}

/-- The entry at the written place is the new one, the others are as they were. -/
theorem dirent_write (hsrc : src.length = DESIZE) (o : Nat) :
    (f.write (DESIZE * k) src).dirent (DESIZE * o) =
      if o = k then Dirent.ofBytes src else f.dirent (DESIZE * o) := by
  have hD : DESIZE = 16 := rfl
  unfold File.dirent File.write
  by_cases e : o = k
  · rw [if_pos e, e]
    congr 1
    refine List.ext_getElem (by simp [hsrc]) fun j h₁ h₂ => ?_
    have : splice f.bytes (DESIZE * k) src (DESIZE * k + j) = src.getD j 0 :=
      splice_apply_mem h₂
    simp only [slice, List.getElem_map, List.getElem_range, this]
    exact (List.getElem_eq_getD 0).symm
  · rw [if_neg e]
    congr 1
    unfold slice
    refine List.map_congr_left fun j hj => ?_
    have hj : j < DESIZE := List.mem_range.mp hj
    simp only [hD] at hj hsrc ⊢
    rcases Nat.lt_or_gt_of_ne e with hlt | hgt
    · exact splice_apply_of_lt (by omega)
    · exact splice_apply_of_ge (by omega)

/-- An entry that is written over. -/
theorem entries_write (hsrc : src.length = DESIZE) (hk : k < f.size / DESIZE) :
    ∃ l₁ l₂, f.entries = l₁ ++ (DESIZE * k, f.dirent (DESIZE * k)) :: l₂ ∧
      (f.write (DESIZE * k) src).entries = l₁ ++ (DESIZE * k, Dirent.ofBytes src) :: l₂ := by
  have hsize : (f.write (DESIZE * k) src).size / DESIZE = f.size / DESIZE := by
    simp only [File.write, hsrc, DESIZE] at hk ⊢
    omega
  obtain ⟨m, hm⟩ : ∃ m, f.size / DESIZE = k + 1 + m := ⟨f.size / DESIZE - (k + 1), by omega⟩
  refine ⟨(List.range k).map fun j => (DESIZE * j, f.dirent (DESIZE * j)),
    (List.range m).map fun j => (DESIZE * (k + 1 + j), f.dirent (DESIZE * (k + 1 + j))), ?_, ?_⟩
  · unfold File.entries
    rw [hm, List.range_add, List.map_append, List.range_succ]
    simp
  · unfold File.entries
    rw [hsize, hm, List.range_add, List.map_append, List.range_succ, List.map_append,
      List.append_assoc, List.map_map]
    congr 1
    · refine List.map_congr_left fun j hj => ?_
      have hj : j < k := List.mem_range.mp hj
      rw [dirent_write hsrc, if_neg (by omega)]
    · simp only [List.map_cons, List.map_nil, List.cons_append, List.nil_append,
        dirent_write hsrc, if_true]
      congr 1
      refine List.map_congr_left fun j _ => ?_
      rw [Function.comp, if_neg (by omega)]

/-- An entry that is written behind the others. -/
theorem entries_write_end (hsrc : src.length = DESIZE) (hsize : f.size = DESIZE * k) :
    (f.write (DESIZE * k) src).entries = f.entries ++ [(DESIZE * k, Dirent.ofBytes src)] := by
  have hk : f.size / DESIZE = k := by
    rw [hsize]
    exact Nat.mul_div_cancel_left k (by decide)
  have hsize' : (f.write (DESIZE * k) src).size / DESIZE = k + 1 := by
    simp only [File.write, hsrc, hsize, DESIZE]
    omega
  unfold File.entries
  rw [hsize', hk, List.range_succ, List.map_append]
  congr 1
  · refine List.map_congr_left fun j hj => ?_
    have hj : j < k := List.mem_range.mp hj
    rw [dirent_write hsrc, if_neg (by omega)]
  · simp [dirent_write hsrc]

theorem mem_entries {e : Nat × Dirent} :
    e ∈ f.entries ↔ ∃ k, k < f.size / DESIZE ∧ e = (DESIZE * k, f.dirent (DESIZE * k)) := by
  unfold File.entries
  simp only [List.mem_map, List.mem_range]
  exact ⟨fun ⟨k, hk, h⟩ => ⟨k, hk, h.symm⟩, fun ⟨k, hk, h⟩ => ⟨k, hk, h.symm⟩⟩

end

/-! ## 2. Links -/

/-- The entries that are not empty. -/
def File.links (f : File) : List (Nat × Dirent) := f.entries.filter fun e => e.2.inum != 0

/-- The directory has no partial entry. -/
def File.Whole (f : File) : Prop := f.size % DESIZE = 0

theorem mem_links {f : File} {e : Nat × Dirent} :
    e ∈ f.links ↔ e ∈ f.entries ∧ e.2.inum ≠ 0 := by
  simp [File.links]

section

variable {f : File} {name : List UInt8} {e : Nat × Dirent}

theorem named_iff {de : Dirent} :
    Dirent.named name de = true ↔ de.inum ≠ 0 ∧ namecmp name de.name = 0 := by
  simp [Dirent.named]

/-- A lookup finds a link with the name. -/
theorem lookup_some (h : f.lookup name = some e) :
    e ∈ f.links ∧ namecmp name e.2.name = 0 := by
  have hn : Dirent.named name e.2 = true :=
    List.find?_some (p := fun e : Nat × Dirent => Dirent.named name e.2) h
  rw [named_iff] at hn
  exact ⟨mem_links.mpr ⟨List.mem_of_find?_eq_some h, hn.1⟩, hn.2⟩

theorem lookup_none : f.lookup name = none ↔ ∀ e ∈ f.links, namecmp name e.2.name ≠ 0 := by
  unfold File.lookup
  rw [List.find?_eq_none]
  constructor
  · intro h e he hn
    exact h e (mem_links.mp he).1 (named_iff.mpr ⟨(mem_links.mp he).2, hn⟩)
  · intro h e he hn
    obtain ⟨h0, hn⟩ := named_iff.mp hn
    exact h e (mem_links.mpr ⟨he, h0⟩) hn

/-- Where a new entry goes. -/
theorem freeOff_cases (hw : f.Whole) :
    (∃ k, f.freeOff = DESIZE * k ∧ k < f.size / DESIZE ∧ (f.dirent (DESIZE * k)).inum = 0) ∨
      (∃ k, f.freeOff = DESIZE * k ∧ f.size = DESIZE * k) := by
  unfold File.freeOff
  split
  next e he =>
    obtain ⟨k, hk, rfl⟩ := mem_entries.mp (List.mem_of_find?_eq_some he)
    have := List.find?_some he
    exact Or.inl ⟨k, rfl, hk, by simpa using this⟩
  next =>
    refine Or.inr ⟨_, rfl, ?_⟩
    simp only [File.Whole, DESIZE] at hw ⊢
    omega

theorem ofBytes_zero : (Dirent.ofBytes (List.replicate DESIZE 0)).inum = 0 := by decide

/-- **A new entry is one more link.** -/
theorem links_link (hw : f.Whole) {inum : Nat} (h0 : inum ≠ 0) (hlt : inum < 2 ^ 16) :
    ∃ off, (f.link name inum).links.Perm ((off, ⟨inum, strncpy DIRSIZ name⟩) :: f.links) := by
  have hsrc := Dirent.make_length name inum
  have hof : Dirent.ofBytes (Dirent.make name inum) = ⟨inum, strncpy DIRSIZ name⟩ :=
    Dirent.ofBytes_make hlt
  have hnew : ((inum : Nat) != 0) = true := by simpa using h0
  unfold File.link File.links
  rcases freeOff_cases hw with ⟨k, hoff, hk, hz⟩ | ⟨k, hoff, hsize⟩
  · obtain ⟨l₁, l₂, h₁, h₂⟩ := entries_write (f := f) hsrc hk
    refine ⟨DESIZE * k, ?_⟩
    rw [hoff, h₂, h₁, hof]
    simp only [List.filter_append, List.filter_cons, hnew, if_true, hz, bne_self_eq_false]
    exact List.perm_middle
  · refine ⟨DESIZE * k, ?_⟩
    rw [hoff, entries_write_end hsrc hsize, hof]
    simp only [List.filter_append, List.filter_cons, hnew, if_true, List.filter_nil]
    exact List.perm_append_singleton _ _

theorem mem_links_link (hw : f.Whole) {inum : Nat} (he : e ∈ (f.link name inum).links) :
    e ∈ f.links ∨ e.2 = Dirent.ofBytes (Dirent.make name inum) := by
  have hsrc := Dirent.make_length name inum
  obtain ⟨hmem, h0⟩ := mem_links.mp he
  unfold File.link at hmem
  simp only [mem_links]
  rcases freeOff_cases hw with ⟨k, hoff, hk, hz⟩ | ⟨k, hoff, hsize⟩
  · obtain ⟨l₁, l₂, h₁, h₂⟩ := entries_write (f := f) hsrc hk
    rw [hoff, h₂] at hmem
    rw [h₁]
    simp only [List.mem_append, List.mem_cons] at hmem ⊢
    rcases hmem with hmem | rfl | hmem
    · exact Or.inl ⟨Or.inl hmem, h0⟩
    · exact Or.inr rfl
    · exact Or.inl ⟨Or.inr (Or.inr hmem), h0⟩
  · rw [hoff, entries_write_end hsrc hsize, List.mem_append, List.mem_singleton] at hmem
    rcases hmem with hmem | rfl
    · exact Or.inl ⟨hmem, h0⟩
    · exact Or.inr rfl

/-- **A cleared entry is one link less.** -/
theorem links_clear (he : e ∈ f.links) : f.links.Perm (e :: (f.clear e.1).links) := by
  obtain ⟨hmem, h0⟩ := mem_links.mp he
  obtain ⟨k, hk, rfl⟩ := mem_entries.mp hmem
  have hsrc : (List.replicate DESIZE (0 : UInt8)).length = DESIZE := List.length_replicate
  obtain ⟨l₁, l₂, h₁, h₂⟩ := entries_write (f := f) hsrc hk
  have hne : ((f.dirent (DESIZE * k)).inum != 0) = true := by simpa using h0
  unfold File.links File.clear
  simp only [h₂]
  rw [h₁]
  simp only [List.filter_append, List.filter_cons, hne, if_true, ofBytes_zero, bne_self_eq_false]
  exact List.perm_middle

/-! ## 3. New directories -/

theorem new_entries (type major minor : Int) : (File.new type major minor).entries = [] := by
  simp [File.entries, File.new, File.free]

theorem new_links (type major minor : Int) : (File.new type major minor).links = [] := by
  rw [File.links, new_entries, List.filter_nil]

theorem new_lookup (type major minor : Int) (name : List UInt8) :
    (File.new type major minor).lookup name = none := by
  rw [File.lookup, new_entries, List.find?_nil]

/-- `create` does not find `..` in a directory that has `.` only. -/
theorem new_dot_lookup (n : Nat) (major minor : Int) :
    ((File.new T_DIR major minor).link dot n).lookup dotdot = none := by
  rw [lookup_none]
  intro e he
  rcases mem_links_link (show (File.new T_DIR major minor).Whole from rfl) he with he | he
  · rw [new_links] at he
    cases he
  · rw [he]
    exact show namecmp dotdot (strncpy DIRSIZ dot) ≠ 0 by decide

end

/-! ## 4. The form of a directory -/

theorem namecmp_eq_zero {s t : List UInt8} :
    namecmp s t = 0 ↔ cstring DIRSIZ s = cstring DIRSIZ t := strncmp_eq_zero _ s t

theorem namecmp_comm {s t : List UInt8} : namecmp s t = 0 ↔ namecmp t s = 0 := by
  rw [namecmp_eq_zero, namecmp_eq_zero]
  exact eq_comm

theorem namecmp_trans {r s t : List UInt8} (h₁ : namecmp r s = 0) (h₂ : namecmp s t = 0) :
    namecmp r t = 0 := by
  rw [namecmp_eq_zero] at h₁ h₂ ⊢
  exact h₁.trans h₂

theorem namecmp_strncpy {s t : List UInt8} :
    namecmp (strncpy DIRSIZ s) t = 0 ↔ namecmp s t = 0 := by
  rw [namecmp_eq_zero, namecmp_eq_zero, cstring_strncpy]

/-- The links behind the first two entries. -/
def File.kids (f : File) : List (Nat × Dirent) :=
  (f.entries.drop 2).filter fun e => e.2.inum != 0

/-- The first two entries of the directory with inode number `d` are `.` and `..`. -/
structure Dots (f : File) (d : Nat) : Prop where
  whole : f.Whole
  size : DESIZE * 2 ≤ f.size
  dot : (f.dirent (DESIZE * 0)).inum = d ∧ namecmp dot (f.dirent (DESIZE * 0)).name = 0
  dotdot : (f.dirent (DESIZE * 1)).inum ≠ 0 ∧ namecmp dotdot (f.dirent (DESIZE * 1)).name = 0

/-- **The form of a directory**: `.`, `..`, and entries with other names. -/
structure Form (f : File) (d : Nat) : Prop extends Dots f d where
  plain : ∀ e ∈ f.kids, Plain e.2.name

/-- The inode that `..` names. -/
def File.parent (f : File) : Nat := (f.dirent (DESIZE * 1)).inum

/-- The inodes that the kids name. -/
def File.kidInums (f : File) : List Nat := f.kids.map fun e => e.2.inum

section

variable {f g : File} {d inum : Nat} {name : List UInt8} {e : Nat × Dirent}

theorem isEmpty_iff : f.isEmpty = true ↔ f.kidInums = [] := by
  unfold File.isEmpty File.kidInums File.kids
  rw [List.all_eq_true, List.map_eq_nil_iff, List.filter_eq_nil_iff]
  simp

theorem mem_kidInums : inum ∈ f.kidInums ↔ ∃ e ∈ f.kids, e.2.inum = inum := List.mem_map

/-- The links of a directory. -/
theorem Dots.links_eq (h : Dots f d) (hd : d ≠ 0) :
    f.links = (DESIZE * 0, f.dirent (DESIZE * 0)) :: (DESIZE * 1, f.dirent (DESIZE * 1)) ::
      f.kids := by
  obtain ⟨m, hm⟩ : ∃ m, f.size / DESIZE = 2 + m := by
    have := h.size
    refine ⟨f.size / DESIZE - 2, ?_⟩
    simp only [DESIZE] at this ⊢
    omega
  have hentries : f.entries = (DESIZE * 0, f.dirent (DESIZE * 0)) ::
      (DESIZE * 1, f.dirent (DESIZE * 1)) :: f.entries.drop 2 := by
    unfold File.entries
    rw [hm, List.range_add, List.map_append, List.range_succ, List.range_one]
    rfl
  have h0 : (f.dirent (DESIZE * 0)).inum ≠ 0 := by rw [h.dot.1]; exact hd
  have h1 := h.dotdot.1
  unfold File.links File.kids
  rw [hentries, List.filter_cons, List.filter_cons, if_pos (by simpa using h0),
    if_pos (by simpa using h1)]
  rfl

theorem Dots.mem_links (h : Dots f d) (hd : d ≠ 0) (he : e ∈ f.kids) : e ∈ f.links := by
  rw [h.links_eq hd]
  exact List.mem_cons_of_mem _ (List.mem_cons_of_mem _ he)

/-- A link under another name is a kid. -/
theorem Dots.mem_kids (h : Dots f d) (hd : d ≠ 0) (hplain : Plain name)
    (hlook : f.lookup name = some e) : e ∈ f.kids := by
  obtain ⟨hmem, hname⟩ := lookup_some hlook
  rw [h.links_eq hd] at hmem
  rcases List.mem_cons.mp hmem with rfl | hmem
  · exact absurd (namecmp_trans hname (namecmp_comm.mp h.dot.2)) hplain.1
  · rcases List.mem_cons.mp hmem with rfl | hmem
    · exact absurd (namecmp_trans hname (namecmp_comm.mp h.dotdot.2)) hplain.2
    · exact hmem

/-- A name that is not there is neither `.` nor `..`. -/
theorem Dots.plain_of_none (h : Dots f d) (hd : d ≠ 0) (hnone : f.lookup name = none) :
    Plain name := by
  rw [lookup_none, h.links_eq hd] at hnone
  refine ⟨fun hc => ?_, fun hc => ?_⟩
  · exact hnone _ List.mem_cons_self (namecmp_trans hc h.dot.2)
  · exact hnone _ (List.mem_cons_of_mem _ List.mem_cons_self) (namecmp_trans hc h.dotdot.2)

theorem Plain.strncpy (h : Plain name) : Plain (strncpy DIRSIZ name) :=
  ⟨fun hc => h.1 (namecmp_strncpy.mp hc), fun hc => h.2 (namecmp_strncpy.mp hc)⟩

/-! ## 5. Kids come and go -/

theorem dirent_write_ne {src : List UInt8} {k o : Nat} (hsrc : src.length = DESIZE) (h : o ≠ k) :
    (f.write (DESIZE * k) src).dirent (DESIZE * o) = f.dirent (DESIZE * o) := by
  rw [dirent_write hsrc, if_neg h]

theorem Dots.write {src : List UInt8} {k : Nat} (h : Dots f d) (hsrc : src.length = DESIZE)
    (hk : 2 ≤ k) : Dots (f.write (DESIZE * k) src) d where
  whole := by
    have hw := h.whole
    simp only [File.Whole, File.write, hsrc, DESIZE] at hw ⊢
    omega
  size := h.size.trans (Nat.le_max_left _ _)
  dot := by rw [dirent_write_ne hsrc (by omega)]; exact h.dot
  dotdot := by rw [dirent_write_ne hsrc (by omega)]; exact h.dotdot

/-- Dropping the first two entries from a permutation of links. -/
theorem Dots.kids_perm {x : Nat × Dirent} (h : Dots f d) (hg : Dots g d) (hd : d ≠ 0)
    (h0 : g.dirent (DESIZE * 0) = f.dirent (DESIZE * 0))
    (h1 : g.dirent (DESIZE * 1) = f.dirent (DESIZE * 1))
    (hp : g.links.Perm (x :: f.links)) : g.kids.Perm (x :: f.kids) := by
  rw [h.links_eq hd, hg.links_eq hd, h0, h1] at hp
  have hmid : (x :: (DESIZE * 0, f.dirent (DESIZE * 0)) :: (DESIZE * 1, f.dirent (DESIZE * 1)) ::
      f.kids).Perm ((DESIZE * 0, f.dirent (DESIZE * 0)) :: (DESIZE * 1, f.dirent (DESIZE * 1)) ::
      x :: f.kids) :=
    (List.Perm.swap ..).trans ((List.Perm.swap ..).cons _)
  exact ((hp.trans hmid).cons_inv).cons_inv

/-- A new entry goes behind the first two. -/
theorem Dots.freeOff (h : Dots f d) (hd : d ≠ 0) :
    ∃ k, f.freeOff = DESIZE * k ∧ 2 ≤ k := by
  rcases freeOff_cases h.whole with ⟨k, hoff, hk, hz⟩ | ⟨k, hoff, hsize⟩
  · refine ⟨k, hoff, ?_⟩
    rcases k with _ | _ | k
    · exact absurd (h.dot.1.symm.trans hz) hd
    · exact absurd hz h.dotdot.1
    · omega
  · refine ⟨k, hoff, ?_⟩
    have := h.size
    simp only [DESIZE] at this hsize
    omega

/-- **A new entry is one more kid.** -/
theorem Form.link (h : Form f d) (hd : d ≠ 0) (hnone : f.lookup name = none) (h0 : inum ≠ 0)
    (hlt : inum < 2 ^ 16) :
    Form (f.link name inum) d ∧ (f.link name inum).parent = f.parent ∧
      (f.link name inum).kidInums.Perm (inum :: f.kidInums) := by
  obtain ⟨k, hoff, hk⟩ := h.freeOff hd
  have hsrc := Dirent.make_length name inum
  have hlink : f.link name inum = f.write (DESIZE * k) (Dirent.make name inum) := by
    rw [File.link, hoff]
  obtain ⟨off, hp⟩ : ∃ off, (f.link name inum).links.Perm _ := links_link h.whole h0 hlt
  rw [hlink] at hp ⊢
  have hdots := h.toDots.write hsrc hk
  have hkids := h.toDots.kids_perm hdots hd (dirent_write_ne hsrc (by omega))
    (dirent_write_ne hsrc (by omega)) hp
  refine ⟨⟨hdots, fun e he => ?_⟩, ?_, hkids.map _⟩
  · rcases List.mem_cons.mp (hkids.mem_iff.mp he) with rfl | he
    · exact (h.plain_of_none hd hnone).strncpy
    · exact h.plain e he
  · rw [File.parent, dirent_write_ne hsrc (by omega), File.parent]

/-- **A cleared entry is one kid less.** -/
theorem Form.clear (h : Form f d) (hd : d ≠ 0) (he : e ∈ f.kids) :
    Form (f.clear e.1) d ∧ (f.clear e.1).parent = f.parent ∧
      f.kidInums.Perm (e.2.inum :: (f.clear e.1).kidInums) := by
  have hsrc : (List.replicate DESIZE (0 : UInt8)).length = DESIZE := List.length_replicate
  obtain ⟨k, hoff, hk⟩ : ∃ k, e.1 = DESIZE * k ∧ 2 ≤ k := by
    obtain ⟨j, hj, hje⟩ := List.mem_iff_getElem.mp (List.mem_filter.mp he).1
    rw [List.getElem_drop] at hje
    refine ⟨2 + j, ?_, by omega⟩
    rw [← hje]
    simp [File.entries]
  have hp := links_clear (h.toDots.mem_links hd he)
  unfold File.clear at hp ⊢
  rw [hoff] at hp ⊢
  have hdots := h.toDots.write hsrc hk
  have hkids := hdots.kids_perm h.toDots hd (dirent_write_ne hsrc (by omega)).symm
    (dirent_write_ne hsrc (by omega)).symm hp
  refine ⟨⟨hdots, fun x hx => ?_⟩, ?_, hkids.map _⟩
  · exact h.plain x (hkids.mem_iff.mpr (List.mem_cons_of_mem _ hx))
  · rw [File.parent, dirent_write_ne hsrc (by omega), File.parent]

/-- Changing a link count leaves the entries alone. -/
theorem Form.setNlink (h : Form f d) (x : Int) : Form (f.setNlink x) d :=
  ⟨⟨h.whole, h.size, h.dot, h.dotdot⟩, h.plain⟩

/-- **A new directory has no kids.** -/
theorem newDir_form {n : Nat} (major minor : Int) (hn : n ≠ 0) (hlt : n < 2 ^ 16) (hd : d ≠ 0)
    (hdlt : d < 2 ^ 16) :
    Form (File.newDir n d major minor) n ∧ (File.newDir n d major minor).parent = d ∧
      (File.newDir n d major minor).kidInums = [] := by
  have hsrc := Dirent.make_length
  have hoff₀ : (File.new T_DIR major minor).freeOff = DESIZE * 0 := by
    unfold File.freeOff
    rw [new_entries]
    simp [File.new, File.free, DESIZE]
  generalize hf₁ : (File.new T_DIR major minor).link dot n = f₁
  have hlink₁ : f₁ = (File.new T_DIR major minor).write (DESIZE * 0) (Dirent.make dot n) := by
    rw [← hf₁, File.link, hoff₀]
  have hent₁ : f₁.entries = [(DESIZE * 0, ⟨n, strncpy DIRSIZ dot⟩)] := by
    rw [hlink₁, entries_write_end (hsrc dot n) rfl, new_entries, Dirent.ofBytes_make hlt]
    rfl
  have hsize₁ : f₁.size = DESIZE * 1 := by rw [hlink₁]; rfl
  have hdot : f₁.dirent (DESIZE * 0) = ⟨n, strncpy DIRSIZ dot⟩ := by
    rw [hlink₁, dirent_write (hsrc dot n), if_pos rfl, Dirent.ofBytes_make hlt]
  have hoff₁ : f₁.freeOff = DESIZE * 1 := by
    unfold File.freeOff
    rw [hent₁, List.find?_cons_of_neg (by simpa using hn), hsize₁]
    rfl
  have hlink₂ : File.newDir n d major minor = f₁.write (DESIZE * 1) (Dirent.make dotdot d) := by
    rw [File.newDir, hf₁, File.link, hoff₁]
  have hent₂ : (File.newDir n d major minor).entries =
      [(DESIZE * 0, ⟨n, strncpy DIRSIZ dot⟩), (DESIZE * 1, ⟨d, strncpy DIRSIZ dotdot⟩)] := by
    rw [hlink₂, entries_write_end (hsrc dotdot d) hsize₁, hent₁, Dirent.ofBytes_make hdlt]
    rfl
  have hnames : namecmp dot (strncpy DIRSIZ dot) = 0 ∧
      namecmp dotdot (strncpy DIRSIZ dotdot) = 0 := by decide
  have hkids : (File.newDir n d major minor).kids = [] := by rw [File.kids, hent₂]; rfl
  have hdotdot : (File.newDir n d major minor).dirent (DESIZE * 1) =
      ⟨d, strncpy DIRSIZ dotdot⟩ := by
    rw [hlink₂, dirent_write (hsrc dotdot d), if_pos rfl, Dirent.ofBytes_make hdlt]
  have hsize₂ : (File.newDir n d major minor).size = DESIZE * 2 := by
    rw [hlink₂]
    simp only [File.write, hsize₁, hsrc]
    rfl
  refine ⟨⟨⟨?_, hsize₂.ge, ?_, ?_⟩, ?_⟩, ?_, ?_⟩
  · rw [File.Whole, hsize₂]
    rfl
  · rw [hlink₂, dirent_write_ne (hsrc dotdot d) (by decide), hdot]
    exact ⟨rfl, hnames.1⟩
  · rw [hdotdot]
    exact ⟨hd, hnames.2⟩
  · rw [hkids]
    exact fun e he => absurd he List.not_mem_nil
  · rw [File.parent, hdotdot]
  · rw [File.kidInums, hkids, List.map_nil]

end

end Xv6.Fs
