/-
# Link counts are exact

After every sequence of calls the link count of an inode on disk is the number of entries that
name it, other than `.`, in the directories that have links themselves.  The sequences are those
that make no entry in a directory without links, and do not overflow a link count.

The first condition is not met by itself: a directory that was removed can still be the current
directory of a process, and `create` and `sys_link` do not look at the link count of the directory
in which they make the entry.
-/
import Xv6.Fs.Blocks
import Xv6.Fs.Calls
import Xv6.Fs.Tree

namespace Xv6.Fs

/-! ## 1. Counting entries -/

/-- The number of entries that name `i`, other than `.`. -/
def File.naming (f : File) (i : Nat) : Nat :=
  (f.links.filter fun e => e.2.inum = i ∧ namecmp e.2.name dot ≠ 0).length

/-- A directory that has links. -/
def FileSys.LinkedDir (s : FileSys) (d : Nat) : Prop :=
  (s.view d).type = T_DIR ∧ 0 < (s.view d).nlink

instance (s : FileSys) (d : Nat) : Decidable (s.LinkedDir d) := inferInstanceAs (Decidable (_ ∧ _))

/-- The entries that name `i`, other than `.`, in directories that have links. -/
def FileSys.nameCount (s : FileSys) (i : Nat) : Nat :=
  ((List.range s.sb.ninodes).map fun d => if s.LinkedDir d then (s.view d).naming i else 0).sum

/-- **Link counts are exact.** -/
structure ExactLinks (s : FileSys) : Prop where
  count : ∀ i, s.Allocated i → (s.dinode i).nlink = s.nameCount i
  /-- An inode with a positive count has a name. -/
  named : ∀ i, s.Allocated i → 0 < (s.dinode i).nlink → ∃ d e, s.LinkedDir d ∧
    e ∈ (s.view d).links ∧ e.2.inum = i ∧ namecmp e.2.name dot ≠ 0
  /-- An inode without links has none. -/
  unnamed : ∀ i, s.Allocated i → (s.dinode i).nlink = 0 → ∀ d e, s.LinkedDir d →
    e ∈ (s.view d).links → e.2.inum = i → namecmp e.2.name dot = 0

/-- **A well-formed file system at rest.** -/
structure WellFormed (k : Kern) : Prop extends Idle k where
  tree : Tree k.fs.sb.ninodes k.fs.view .none

section

variable {f : File} {d i : Nat} {s : FileSys}

/-- The entries of a directory, `.` left out, are `..` and the kids. -/
theorem Form.naming_eq (h : Form f d) (hd : d ≠ 0) :
    f.naming i = (if f.parent = i then 1 else 0) + f.kidInums.count i := by
  have hdot : namecmp (f.dirent (DESIZE * 0)).name dot = 0 := namecmp_comm.mp h.dot.2
  have hdotdot : namecmp (f.dirent (DESIZE * 1)).name dot ≠ 0 := fun hc =>
    absurd (namecmp_trans h.dotdot.2 hc) (by decide)
  have hkids : (f.kids.filter fun e => decide (e.2.inum = i ∧ namecmp e.2.name dot ≠ 0)).length =
      f.kidInums.count i := by
    rw [← List.countP_eq_length_filter, File.kidInums, List.count_eq_countP, List.countP_map]
    refine List.countP_congr fun e he => ?_
    simp [(h.plain e he).1]
  unfold File.naming File.parent
  rw [h.links_eq hd, List.filter_cons, if_neg fun hc => (of_decide_eq_true hc).2 hdot,
    List.filter_cons]
  rcases eq_or_ne (f.dirent (DESIZE * 1)).inum i with hi | hi
  · rw [if_pos (decide_eq_true ⟨hi, hdotdot⟩), if_pos hi, List.length_cons, hkids, Nat.add_comm]
  · rw [if_neg fun hc => hi (of_decide_eq_true hc).1, if_neg hi, hkids, Nat.zero_add]

theorem mem_naming (h : 0 < f.naming i) :
    ∃ e ∈ f.links, e.2.inum = i ∧ namecmp e.2.name dot ≠ 0 := by
  obtain ⟨e, he⟩ := List.exists_mem_of_length_pos h
  obtain ⟨hmem, he⟩ := List.mem_filter.mp he
  exact ⟨e, hmem, by simpa using he⟩

theorem naming_eq_zero (h : f.naming i = 0) {e : Nat × Dirent} (he : e ∈ f.links)
    (hi : e.2.inum = i) : namecmp e.2.name dot = 0 := by
  by_contra hc
  have hmem : e ∈ f.links.filter fun e => e.2.inum = i ∧ namecmp e.2.name dot ≠ 0 :=
    List.mem_filter.mpr ⟨he, by simpa using ⟨hi, hc⟩⟩
  rw [List.length_eq_zero_iff.mp h] at hmem
  cases hmem

theorem nameCount_eq_sum (s : FileSys) (i : Nat) : s.nameCount i =
    ∑ d ∈ Finset.range s.sb.ninodes, if s.LinkedDir d then (s.view d).naming i else 0 := rfl

/-- The entries are the degree in the tree. -/
theorem Tree.nameCount_eq (h : Tree s.sb.ninodes s.view .none) (i : Nat) :
    s.nameCount i = (graph s.view .none).degree (Finset.range s.sb.ninodes) i := by
  rw [nameCount_eq_sum, Graph.degree]
  refine Finset.sum_congr rfl fun d _ => ?_
  by_cases hd : s.LinkedDir d
  · have hlive : (s.view d).Live .none d := ⟨hd.1, hd.2, fun hc => by cases hc⟩
    rw [if_pos hd, Graph.points_of_mem hlive, graph_up hlive, graph_kids hlive,
      ((h.file d).form hd.1).naming_eq (h.dir_pos hd.1).1, Multiset.coe_count]
  · rw [if_neg hd, Graph.points_of_notMem]
    exact fun hlive => hd ⟨hlive.1, hlive.2.1⟩

/-- The file is what the disk says. -/
theorem Good.view_allocated (h : Good s) (hi : s.Allocated i) :
    s.view i = fileOf s.data (s.dinode i) := by
  have hcur := h.coherent.cur i
  have halloc : Alloc s i := by rw [Alloc, hcur]; exact hi
  rw [FileSys.view, if_pos halloc, hcur]

/-- The tree has exact link counts. -/
theorem Tree.exact (h : Tree s.sb.ninodes s.view .none) (hg : Good s) : ExactLinks s := by
  have hcount : ∀ i, s.Allocated i → (s.dinode i).nlink = s.nameCount i := by
    intro i hi
    have hview : (s.view i).nlink = (s.dinode i).nlink := by rw [hg.view_allocated hi]; rfl
    rw [← hview, h.count i, h.nameCount_eq]
    simp
  have hle : ∀ d, s.LinkedDir d → ∀ i, (s.view d).naming i ≤ s.nameCount i := by
    intro d hd i
    rw [nameCount_eq_sum]
    have hmem := Finset.mem_range.mpr (h.dir_pos hd.1).2
    have := Finset.single_le_sum (f := fun d => if s.LinkedDir d then (s.view d).naming i else 0)
      (fun _ _ => Nat.zero_le _) hmem
    simpa only [if_pos hd] using this
  refine ⟨hcount, fun i hi hpos => ?_, fun i hi hzero d e hd he hei => ?_⟩
  · rw [hcount i hi, nameCount_eq_sum] at hpos
    obtain ⟨d, -, hd⟩ := Finset.exists_ne_zero_of_sum_ne_zero (by omega :
      ∑ d ∈ Finset.range s.sb.ninodes, (if s.LinkedDir d then (s.view d).naming i else 0) ≠ 0)
    rcases ite_ne_right_iff.mp hd with ⟨hlinked, hnaming⟩
    obtain ⟨e, he, hei⟩ := mem_naming (Nat.pos_of_ne_zero hnaming)
    exact ⟨d, e, hlinked, he, hei⟩
  · have := hcount i hi
    have := hle d hd i
    exact naming_eq_zero (by omega) he hei

end

/-- **Link counts are exact after every sequence of calls** that makes no entry in a directory
without links and does not overflow a link count. -/
theorem link_counts_exact {k₀ k : Kern} (h₀ : WellFormed k₀) (h : Reach (May Mild) k₀ k) :
    ExactLinks k.fs := by
  obtain ⟨hidle, hsb, htree⟩ := h.invariant (I := fun n => Tree k₀.fs.sb.ninodes n.view n.pend)
    lax_mild (fun _ _ _ => trivial) h₀.toIdle h₀.tree fun n a n' hn hG hs => hn.step hG hs
  rw [← hsb] at htree
  exact htree.exact hidle.good

/-! ## 2. The image is well formed -/

theorem image_view (i : Nat) :
    imageFs.view i = if i = ROOTINO then fileOf imageFs.data imageRoot else File.free := by
  unfold FileSys.view
  rcases eq_or_ne i ROOTINO with rfl | hi
  · rw [if_pos ((image_alloc _).mpr rfl), if_pos rfl, image_cur, if_pos rfl]
  · rw [if_neg fun hc => hi ((image_alloc i).mp hc), if_neg hi]

theorem imageRoot_form : Form (fileOf imageFs.data imageRoot) ROOTINO ∧
    (fileOf imageFs.data imageRoot).parent = ROOTINO ∧
    (fileOf imageFs.data imageRoot).kidInums = [] := by
  have hkids : (fileOf imageFs.data imageRoot).kids = [] := rfl
  refine ⟨⟨⟨rfl, by decide, by decide, by decide⟩, ?_⟩, by decide, ?_⟩
  · rw [hkids]
    exact fun e he => nomatch he
  · rw [File.kidInums, hkids, List.map_nil]

theorem image_live (d : Nat) : (imageFs.view d).Live .none d ↔ d = ROOTINO := by
  rw [image_view]
  constructor
  · intro h
    by_contra hd
    rw [if_neg hd] at h
    exact absurd h.1 (by decide)
  · rintro rfl
    exact ⟨rfl, by decide, nofun⟩

theorem image_degree (i : Nat) : (graph imageFs.view .none).degree (Finset.range 16) i =
    if i = ROOTINO then 1 else 0 := by
  have hroot := (image_live ROOTINO).mpr rfl
  rw [Graph.degree, Finset.sum_eq_single ROOTINO]
  · rw [Graph.points_of_mem hroot, graph_up hroot, graph_kids hroot, image_view, if_pos rfl,
      imageRoot_form.2.1, imageRoot_form.2.2]
    simp [eq_comm]
  · exact fun d _ hd => Graph.points_of_notMem fun hc => hd ((image_live d).mp hc)
  · exact fun hc => absurd (Finset.mem_range.mpr (by decide)) hc

theorem image_tree : Tree 16 imageFs.view .none where
  small := by decide
  file i := by
    rw [image_view]
    rcases eq_or_ne i ROOTINO with rfl | hi
    · rw [if_pos rfl]
      exact .of_live ⟨by decide, by decide⟩ ⟨rfl, by decide, nofun⟩ (by decide) imageRoot_form.1
    · rw [if_neg hi]
      exact ⟨fun hc => absurd rfl hc, fun _ => rfl, by decide, nofun, nofun,
        fun hc => absurd hc (by decide), fun hc => absurd hc (by decide)⟩
  rooted := by
    have hroot := (image_live ROOTINO).mpr rfl
    have hkids : (graph imageFs.view .none).kids ROOTINO = 0 := by
      rw [graph_kids hroot, image_view, if_pos rfl, imageRoot_form.2.2]
      rfl
    refine ⟨⟨hroot, ?_⟩, fun d hd c hc => ?_, fun c hc hne => ?_⟩
    · rw [graph_up hroot, image_view, if_pos rfl, imageRoot_form.2.1]
    · obtain rfl := (image_live d).mp hd
      rw [hkids] at hc
      exact absurd hc (Multiset.notMem_zero _)
    · exact absurd ((image_live c).mp hc) hne
  count i := by
    rw [image_degree, image_view]
    rcases eq_or_ne i ROOTINO with rfl | hi
    · rfl
    · rw [if_neg hi, if_neg hi]
      rfl

theorem image_wellFormed : WellFormed image where
  ftable _ _ := rfl
  slot p hp := by
    rcases eq_or_ne p 0 with rfl | hne
    · decide
    · exact absurd (if_neg hne) hp
  ofile p fd f hf := nomatch hf
  held i := by
    have hfiles : ∀ f, (image.ftable f).holds i = 0 := fun _ => rfl
    have hprocs : ∀ p, (image.proc p).holds i = if p = 0 then (if i = ROOTINO then 1 else 0) else 0 := by
      intro p
      rcases eq_or_ne p 0 with rfl | hp
      · simp [image, Files.holds, eq_comm]
      · simp [image, Files.holds, hp]
    show image.holders i ≤ if i = ROOTINO then 1 else 0
    rw [Kern.holders]
    simp only [hfiles, hprocs, Finset.sum_ite_eq', Finset.sum_const_zero, Nat.add_zero]
    split <;> simp
  good := image_good
  unlocked _ := rfl
  tree := image_tree

/-! ## 3. A file created in a removed directory -/

/-- Calls of process 0, one after another. -/
def runCalls (k : Kern) : List PathCall → Option Kern
  | [] => some k
  | call :: calls =>
    if (k.proc 0).cwd = none then none
    else
      match (call.prog 0).seq 0 k with
      | .error _ => none
      | .ok (_, k') => runCalls k' calls

theorem reach_runCalls {k₀ : Kern} : ∀ {calls : List PathCall} {k k' : Kern},
    Reach (fun _ _ _ => True) k₀ k → runCalls k calls = some k' →
      Reach (fun _ _ _ => True) k₀ k'
  | [], k, k', h, hran => Option.some.inj hran ▸ h
  | call :: calls, k, k', h, hran => by
    unfold runCalls at hran
    split at hran
    · cases hran
    next hcwd =>
      split at hran
      · cases hran
      next r k₁ h₁ =>
        exact reach_runCalls (@Reach.call _ _ _ _ _ (.path call) _ h hcwd trivial trivial h₁) hran

/-- What process 0 sees of the states that it reaches. -/
theorem exists_reach {α : Type} {calls : List PathCall} {test : Kern → α} {a : α}
    (h : (runCalls image calls).map test = some a) :
    ∃ k, Reach (fun _ _ _ => True) image k ∧ test k = a := by
  obtain ⟨k, hk, ha⟩ := Option.map_eq_some_iff.mp h
  exact ⟨k, reach_runCalls .start hk, ha⟩

/-- The paths `d` and `/d`. -/
def pathD : List UInt8 := [100]

def pathSlashD : List UInt8 := [47, 100]

/-- **A miscount**: `mkdir("d")`, `chdir("d")`, `unlink("/d")`, `open("f", O_CREATE)`.  The file,
inode 3, has one link, in a directory that has none. -/
theorem removed_dir_miscount : WellFormed image ∧
    ∃ k, Reach (fun _ _ _ => True) image k ∧ ¬ ExactLinks k.fs := by
  refine ⟨image_wellFormed, ?_⟩
  have hrun : (runCalls image [.sysMkdir (some pathD), .sysChdir (some pathD),
      .sysUnlink (some pathSlashD), .sysOpen (some (pathF, O_CREATE))]).map (fun k =>
        (decide (k.fs.Allocated 3), (k.fs.dinode 3).nlink, k.fs.nameCount 3)) =
      some (true, 1, 0) := by decide +kernel
  obtain ⟨k, hk, htest⟩ := exists_reach hrun
  simp only [Prod.mk.injEq, decide_eq_true_eq] at htest
  obtain ⟨halloc, hnlink, hcount⟩ := htest
  refine ⟨k, hk, fun hexact => ?_⟩
  have := hexact.count 3 halloc
  rw [hnlink, hcount] at this
  exact absurd this (by decide)

/-- `mkdir("d")` in the root directory meets the condition. -/
theorem mkdir_mild : May Mild 0 image (.path (.sysMkdir (some pathD))) := by
  intro k' dp name i hran _
  have hcheck : passes (fun o k' => o.any fun x =>
      decide ((k'.fs.view x.1).nlink ≠ 0 ∧ (k'.fs.view x.1).nlink ≠ 32767))
      ((createParent 0 pathD).seq 0 image.begun) = true := by decide +kernel
  rw [hran] at hcheck
  exact (decide_eq_true_iff (p := _ ∧ _)).mp hcheck

/-- After `mkdir("d")` the root directory has two links, and all link counts are exact. -/
theorem link_counts_exact_mkdir : ∃ k, Reach (May Mild) image k ∧ (k.fs.dinode ROOTINO).nlink = 2 ∧
    ExactLinks k.fs := by
  have hrun : (match ((PathCall.sysMkdir (some pathD)).prog 0).seq 0 image with
      | .ok (_, k) => decide ((k.fs.dinode ROOTINO).nlink = 2)
      | .error _ => false) = true := by decide +kernel
  split at hrun
  next r k hk =>
    have hreach : Reach (May Mild) image k :=
      @Reach.call _ _ _ _ _ (.path (.sysMkdir (some pathD))) _ .start (show _ ≠ none by decide)
        trivial mkdir_mild hk
    exact ⟨k, hreach, of_decide_eq_true hrun, link_counts_exact image_wellFormed hreach⟩
  · cases hrun

end Xv6.Fs
