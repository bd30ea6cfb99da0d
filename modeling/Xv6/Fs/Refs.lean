/-
# Every name is the name of an allocated inode

`namei` follows entries, and takes a reference to each inode it comes to before it locks it.  So
`ilock` panics when an entry names a free inode.

The kids of a directory are counted links, and `.` names the directory itself.  The `..` of a
directory is counted in its parent as long as the directory has links.  When the directory is
removed, its `..` stays there and is no longer counted: a process whose current directory it is
can still follow it.  So the parent must not be removed before the directory is gone, and
`sys_unlink` does not look.  The invariant here holds in the runs in which no directory is removed
while the `..` of another one names it (`NoOrphan`).
-/
import Xv6.Fs.Links

namespace Xv6.Fs

open Function (update update_of_ne update_self)

/-! ## 1. The condition, and the invariant -/

/-- **The condition**: as for the link counts, and a directory is only removed when it is not the
`..` of another one. -/
def NoOrphan (n : Names) (a : Act) : Prop :=
  Mild n a ∧
    match a with
    | .get i => n.Named i
    | .rmdir d name => ∀ e, Plain name → (n.view d).lookup name = some e →
      (n.view e.2.inum).type = T_DIR → (n.view e.2.inum).isEmpty = true →
      ∀ x x', x ≠ e.2.inum → (n.view x).type = T_DIR → (n.view x).lookup dotdot = some x' →
        x'.2.inum ≠ e.2.inum
    | _ => True

theorem lax_noOrphan : Names.Lax NoOrphan :=
  ⟨fun _ _ h => ⟨trivial, h⟩, fun _ _ => ⟨trivial, trivial⟩, fun _ _ => ⟨trivial, trivial⟩,
    fun _ _ => ⟨trivial, trivial⟩⟩

/-- **The invariant.** -/
structure Sound (N : Nat) (n : Names) : Prop where
  tree : Tree N n.view n.pend
  /-- The `..` of every directory is live. -/
  up : ∀ d, (n.view d).type = T_DIR → (n.view (n.view d).parent).Live n.pend (n.view d).parent
  /-- A referenced inode is allocated. -/
  held : ∀ i, 0 < n.ref i → (n.view i).type ≠ 0

section

variable {N : Nat} {n n' : Names} {a : Act} {d i : Nat} {f : File} {e : Nat × Dirent}

/-- The `..` of a directory. -/
theorem Form.lookup_dotdot (h : Form f d) (hd : d ≠ 0) :
    f.lookup dotdot = some (DESIZE * 1, f.dirent (DESIZE * 1)) := by
  cases hlook : f.lookup dotdot with
  | none =>
    rw [lookup_none, h.links_eq hd] at hlook
    exact absurd h.dotdot.2 (hlook _ (List.mem_cons_of_mem _ List.mem_cons_self))
  | some e =>
    obtain ⟨hmem, hname⟩ := lookup_some hlook
    rw [h.links_eq hd] at hmem
    rcases List.mem_cons.mp hmem with rfl | hmem
    · exact absurd (namecmp_trans hname (namecmp_comm.mp h.dot.2)) (by decide)
    · rcases List.mem_cons.mp hmem with rfl | hmem
      · rfl
      · exact absurd (namecmp_comm.mp hname) (h.plain e hmem).2

/-- **Every entry of a directory names an allocated inode.** -/
theorem Sound.link_alloc (h : Sound N n) (hd : (n.view d).type = T_DIR) (he : e ∈ (n.view d).links) :
    (n.view e.2.inum).type ≠ 0 := by
  have hform := (h.tree.file d).form hd
  rw [hform.links_eq (h.tree.dir_pos hd).1] at he
  rcases List.mem_cons.mp he with rfl | he
  · rw [hform.dot.1, hd]
    decide
  · rcases List.mem_cons.mp he with rfl | he
    · have hup : (n.view ((n.view d).dirent (DESIZE * 1)).inum).type = T_DIR := (h.up d hd).1
      rw [hup]
      decide
    · -- a kid of a live directory has a positive count
      have hmem := mem_kidInums.mpr ⟨e, he, rfl⟩
      have hlive := h.tree.live_of_kid hd hmem
      intro h0
      exact (Graph.of_degree_eq_zero (h.tree.fresh h0) hlive (h.tree.node_mem hlive)).2
        ((mem_graph_kids hlive).mpr hmem)

/-- A name is the name of an allocated inode. -/
theorem Sound.named_alloc (h : Sound N n) (hi : n.Named i) : (n.view i).type ≠ 0 := by
  rcases hi with hi | rfl | ⟨d, name, e, hd, hlook, rfl⟩
  · exact h.held i hi
  · rw [show (n.view ROOTINO).type = T_DIR from h.tree.rooted.root.1.1]
    decide
  · exact h.link_alloc hd (lookup_some hlook).1

/-! ## 2. The actions keep it -/

/-- Live directories stay live, unless they are removed. -/
theorem Tree.live_step (h : Tree N n.view n.pend) (hG : Mild n a) (hs : Names.Step N n a n')
    (hd : (n.view d).Live n.pend d) : (n'.view d).Live n'.pend d ∨
      ∃ dp name e, a = .rmdir dp name ∧ (n.view dp).lookup name = some e ∧ e.2.inum = d ∧
        Plain name ∧ (n.view d).isEmpty = true ∧ (n.view d).parent ≠ d := by
  obtain ⟨hdir, hpos, hpend⟩ := hd
  have hne : ∀ j, (n.view j).type ≠ T_DIR → d ≠ j := fun j hj hc => hj (hc ▸ hdir)
  cases hs with
  | get => exact Or.inl ⟨hdir, hpos, hpend⟩
  | drop => exact Or.inl ⟨hdir, hpos, hpend⟩
  | @free i _ hn =>
    have hdi : d ≠ i := by
      rintro rfl
      omega
    simp only [update_of_ne hdi]
    exact Or.inl ⟨hdir, hpos, hpend⟩
  | @count i _ _ hleaf =>
    simp only [update_of_ne (hne i hleaf)]
    exact Or.inl ⟨hdir, hpos, fun hc => hne i hleaf (Option.some.inj hc).symm⟩
  | @uncount i hp =>
    have hdi : d ≠ i := fun hc => hpend (hc ▸ hp)
    simp only [update_of_ne hdi]
    exact Or.inl ⟨hdir, hpos, nofun⟩
  | @entry dp i name hp =>
    rcases eq_or_ne d dp with rfl | hdd
    · simp only [update_self]
      exact Or.inl ⟨hdir, hpos, nofun⟩
    · simp only [update_of_ne hdd]
      exact Or.inl ⟨hdir, hpos, nofun⟩
  | @mkfile dp i name type major minor hp _ _ hfree =>
    have hdi := hne i (by rw [hfree]; decide)
    rcases eq_or_ne d dp with rfl | hdd
    · simp only [update_self]
      exact Or.inl ⟨hdir, hpos, hpend⟩
    · simp only [update_of_ne hdd, update_of_ne hdi]
      exact Or.inl ⟨hdir, hpos, hpend⟩
  | @mkdir dp i name major minor hp _ _ hfree =>
    have hdi := hne i (by rw [hfree]; decide)
    rcases eq_or_ne d dp with rfl | hdd
    · have hrange := (h.file d).range
      have hmax := hG.2
      have hincr : (n.view d).incr.nlink = (n.view d).nlink + 1 :=
        short_of_range (by omega) (by omega)
      simp only [update_self]
      exact Or.inl ⟨hdir, show 0 < (n.view d).incr.nlink by omega, hpend⟩
    · simp only [update_of_ne hdd, update_of_ne hdi]
      exact Or.inl ⟨hdir, hpos, hpend⟩
  | @unlink dp name e _ _ _ _ _ _ hleaf =>
    have hdc := hne e.2.inum hleaf
    have hpend' : (Pend.unlink e.2.inum).inum ≠ some d := fun hc => hdc (Option.some.inj hc).symm
    rcases eq_or_ne d dp with rfl | hdd
    · simp only [update_self]
      exact Or.inl ⟨hdir, hpos, hpend'⟩
    · simp only [update_of_ne hdd]
      exact Or.inl ⟨hdir, hpos, hpend'⟩
  | @rmdir dp name e hp hdp hname hsome hself _ hcdir hempty =>
    rw [hp] at h
    have hkid := ((h.file dp).form hdp).mem_kids (h.dir_pos hdp).1 hname hsome
    obtain ⟨-, hcup, -, htwo⟩ := h.empty_kid hdp (mem_kidInums.mpr ⟨e, hkid, rfl⟩) hcdir
      (isEmpty_iff.mp hempty)
    rcases eq_or_ne e.2.inum d with rfl | hdc
    · exact Or.inr ⟨dp, name, e, rfl, hsome, rfl, hname, hempty, by rw [hcup]; exact hself.symm⟩
    · have hpend' : (Pend.unlink e.2.inum).inum ≠ some d := fun hc => hdc (Option.some.inj hc)
      rcases eq_or_ne d dp with rfl | hdd
      · have hrange := (h.file d).range
        have hdecr : ((n.view d).clear e.1).decr.nlink = (n.view d).nlink - 1 :=
          short_of_range (show -1 ≤ (n.view d).nlink - 1 by omega)
            (show (n.view d).nlink - 1 ≤ 32767 by omega)
        simp only [update_self]
        exact Or.inl ⟨hdir, by omega, hpend'⟩
      · simp only [update_of_ne hdd]
        exact Or.inl ⟨hdir, hpos, hpend'⟩

/-- A directory was there with the same parent, or is new. -/
theorem Tree.dir_step (h : Tree N n.view n.pend) (hs : Names.Step N n a n')
    (hd : (n'.view d).type = T_DIR) :
    ((n.view d).type = T_DIR ∧ (n'.view d).parent = (n.view d).parent) ∨
      ∃ dp name, a = .mkdir dp name d ∧ (n.view dp).type = T_DIR ∧ n.pend = .none ∧
        (n'.view d).parent = dp := by
  -- another file in the place of `j`
  have hother : ∀ {v : Nat → File} {j : Nat} {g : File}, d ≠ j → (update v j g d).type = T_DIR →
      v d = n.view d → (n.view d).type = T_DIR ∧ (update v j g d).parent = (n.view d).parent := by
    intro v j g hdj hd hv
    rw [update_of_ne hdj, hv] at hd ⊢
    exact ⟨hd, rfl⟩
  have hself : ∀ {v : Nat → File} {g : File}, (n.view d).type = T_DIR → g.parent = (n.view d).parent →
      (n.view d).type = T_DIR ∧ (update v d g d).parent = (n.view d).parent := by
    intro v g hd hg
    rw [update_self]
    exact ⟨hd, hg⟩
  cases hs with
  | get => exact Or.inl ⟨hd, rfl⟩
  | drop => exact Or.inl ⟨hd, rfl⟩
  | @free i =>
    rcases eq_or_ne d i with rfl | hdi
    · simp only [update_self] at hd
      exact absurd hd (by decide)
    · exact Or.inl (hother hdi hd rfl)
  | @count i =>
    rcases eq_or_ne d i with rfl | hdi
    · simp only [update_self] at hd
      exact Or.inl (hself hd rfl)
    · exact Or.inl (hother hdi hd rfl)
  | @uncount i =>
    rcases eq_or_ne d i with rfl | hdi
    · simp only [update_self] at hd
      exact Or.inl (hself hd rfl)
    · exact Or.inl (hother hdi hd rfl)
  | @entry dp i name hp hdir hnone =>
    rcases eq_or_ne d dp with rfl | hdd
    · have hi := (h.file i).alloc ((h.file i).pend (by rw [hp]; rfl)).1
      obtain ⟨-, hup, -⟩ := ((h.file d).form hdir).link (h.dir_pos hdir).1 hnone hi.1
        (hi.2.trans_le h.small)
      exact Or.inl (hself hdir hup)
    · exact Or.inl (hother hdd hd rfl)
  | @mkfile dp i name type major minor _ hdir hnone hfree hi0 hi ht =>
    rcases eq_or_ne d dp with rfl | hdd
    · obtain ⟨-, hup, -⟩ := ((h.file d).form hdir).link (h.dir_pos hdir).1 hnone hi0
        (hi.trans_le h.small)
      exact Or.inl (hself hdir hup)
    · rcases eq_or_ne d i with rfl | hdi
      · simp only [update_of_ne hdd, update_self] at hd
        exact absurd hd ht.2
      · exact Or.inl (hother hdd hd (update_of_ne hdi _ _))
  | @mkdir dp i name major minor hp hdir hnone hfree hi0 hi =>
    have hdpos := h.dir_pos hdir
    rcases eq_or_ne d dp with rfl | hdd
    · obtain ⟨-, hup, -⟩ := (((h.file d).form hdir).setNlink (short ((n.view d).nlink + 1))).link
        hdpos.1 hnone hi0 (hi.trans_le h.small)
      exact Or.inl (hself hdir hup)
    · rcases eq_or_ne d i with rfl | hdi
      · obtain ⟨-, hup, -⟩ := newDir_form major minor hi0 (hi.trans_le h.small) hdpos.1
          (hdpos.2.trans_le h.small)
        simp only [update_of_ne hdd, update_self]
        exact Or.inr ⟨dp, name, rfl, hdir, hp, hup⟩
      · exact Or.inl (hother hdd hd (update_of_ne hdi _ _))
  | @unlink dp name e _ hdir hname hsome =>
    rcases eq_or_ne d dp with rfl | hdd
    · have hkid := ((h.file d).form hdir).mem_kids (h.dir_pos hdir).1 hname hsome
      obtain ⟨-, hup, -⟩ := ((h.file d).form hdir).clear (h.dir_pos hdir).1 hkid
      exact Or.inl (hself hdir hup)
    · exact Or.inl (hother hdd hd rfl)
  | @rmdir dp name e _ hdir hname hsome =>
    rcases eq_or_ne d dp with rfl | hdd
    · have hkid := ((h.file d).form hdir).mem_kids (h.dir_pos hdir).1 hname hsome
      obtain ⟨-, hup, -⟩ := ((h.file d).form hdir).clear (h.dir_pos hdir).1 hkid
      exact Or.inl (hself hdir hup)
    · exact Or.inl (hother hdd hd rfl)

/-- Allocated inodes stay allocated, unless they are freed. -/
theorem alloc_step (hs : Names.Step N n a n') (hi : (n.view i).type ≠ 0) :
    (n'.view i).type ≠ 0 ∨ n'.ref i = 0 := by
  -- a file with the same type in the place of another one
  have hsame : ∀ {v : Nat → File} {j : Nat} {g : File}, g.type = (n.view j).type →
      (v i).type ≠ 0 → (update v j g i).type ≠ 0 := by
    intro v j g hg hv
    rcases eq_or_ne i j with rfl | hij
    · rwa [update_self, hg]
    · rwa [update_of_ne hij]
  have hnew : ∀ {j : Nat} {g : File}, (n.view j).type = 0 → (update n.view j g i).type ≠ 0 := by
    intro j g hj
    rw [update_of_ne]
    · exact hi
    · rintro rfl
      exact hi hj
  cases hs with
  | get => exact Or.inl hi
  | drop => exact Or.inl hi
  | @free j =>
    rcases eq_or_ne i j with rfl | hij
    · exact Or.inr (update_self ..)
    · simp only [update_of_ne hij]
      exact Or.inl hi
  | count => exact Or.inl (hsame rfl hi)
  | uncount => exact Or.inl (hsame rfl hi)
  | entry => exact Or.inl (hsame rfl hi)
  | mkfile _ _ _ hfree => exact Or.inl (hsame rfl (hnew hfree))
  | mkdir _ _ _ hfree => exact Or.inl (hsame rfl (hnew hfree))
  | unlink => exact Or.inl (hsame rfl hi)
  | rmdir => exact Or.inl (hsame rfl hi)

/-- A reference was there, or is taken to an inode, or the inode is new. -/
theorem ref_step (hs : Names.Step N n a n') (hi : 0 < n'.ref i) :
    0 < n.ref i ∨ a = .get i ∨ (n'.view i).type ≠ 0 := by
  cases hs with
  | get j =>
    rcases eq_or_ne i j with rfl | hij
    · exact Or.inr (Or.inl rfl)
    · simp only [update_of_ne hij] at hi
      exact Or.inl hi
  | @drop j hj =>
    rcases eq_or_ne i j with rfl | hij
    · exact Or.inl hj
    · simp only [update_of_ne hij] at hi
      exact Or.inl hi
  | @free j hj =>
    rcases eq_or_ne i j with rfl | hij
    · exact Or.inl (by omega)
    · simp only [update_of_ne hij] at hi
      exact Or.inl hi
  | @mkfile dp j name type major minor _ hdir _ hfree _ _ ht =>
    rcases eq_or_ne i j with rfl | hij
    · have hne : i ≠ dp := by
        rintro rfl
        exact absurd (hdir.symm.trans hfree) (by decide)
      simp only [update_of_ne hne, update_self]
      exact Or.inr (Or.inr ht.1)
    · simp only [update_of_ne hij] at hi
      exact Or.inl hi
  | @mkdir dp j name major minor _ hdir _ hfree =>
    rcases eq_or_ne i j with rfl | hij
    · have hne : i ≠ dp := by
        rintro rfl
        exact absurd (hdir.symm.trans hfree) (by decide)
      simp only [update_of_ne hne, update_self]
      exact Or.inr (Or.inr (show T_DIR ≠ 0 by decide))
    · simp only [update_of_ne hij] at hi
      exact Or.inl hi
  | count => exact Or.inl hi
  | uncount => exact Or.inl hi
  | entry => exact Or.inl hi
  | unlink => exact Or.inl hi
  | rmdir => exact Or.inl hi

/-- **Every action that meets the condition keeps the invariant.** -/
theorem Sound.step (h : Sound N n) (hG : NoOrphan n a) (hs : Names.Step N n a n') : Sound N n' := by
  have htree := h.tree.step hG.1 hs
  refine ⟨htree, fun d hd => ?_, fun i hi => ?_⟩
  · rcases h.tree.dir_step hs hd with ⟨hold, hup⟩ | ⟨dp, name, rfl, hdir, hp, hup⟩
    · rw [hup]
      rcases h.tree.live_step hG.1 hs (h.up d hold) with hlive |
        ⟨dp, name, e, rfl, hlook, he, hplain, hempty, hne⟩
      · exact hlive
      · -- the parent is removed: the condition says that it is not the parent of another one
        exfalso
        have hform := (h.tree.file d).form hold
        refine hG.2 e hplain hlook (by rw [he]; exact (h.up d hold).1) (by rw [he]; exact hempty) d _
          ?_ hold (hform.lookup_dotdot (h.tree.dir_pos hold).1) he.symm
        intro hc
        rw [← he, ← hc] at hne
        exact hne (he.symm.trans hc.symm)
    · rw [hup]
      have hlive : (n.view dp).Live n.pend dp :=
        h.tree.live_of_ne_zero hdir hG.1.1 (by rw [hp]; exact nofun)
      rcases h.tree.live_step hG.1 hs hlive with hlive | ⟨_, _, _, hc, -⟩
      · exact hlive
      · cases hc
  · have halloc : 0 < n.ref i ∨ a = .get i → (n.view i).type ≠ 0 := by
      rintro (hr | rfl)
      · exact h.held i hr
      · exact h.named_alloc hG.2
    rcases ref_step hs hi with hr | rfl | hnew
    · rcases alloc_step hs (halloc (Or.inl hr)) with h0 | h0
      · exact h0
      · omega
    · rcases alloc_step hs (halloc (Or.inr rfl)) with h0 | h0
      · exact h0
      · omega
    · exact hnew

end

/-! ## 3. What the calls see -/

/-- **A well-formed file system at rest**, whose names all are names of allocated inodes. -/
structure WellNamed (k : Kern) : Prop extends WellFormed k where
  /-- The `..` of every directory is a directory that has links. -/
  dotdot : ∀ d, (k.fs.view d).type = T_DIR → k.fs.LinkedDir (k.fs.view d).parent
  /-- Every inode that is referenced is allocated. -/
  referenced : ∀ i, 0 < k.fs.ref i → k.fs.Allocated i

/-- **Names are names of allocated inodes.** -/
structure NamesOk (k : Kern) : Prop where
  /-- Every directory that is linked, open or a current directory is allocated. -/
  linked : ∀ d, k.fs.LinkedDir d → k.fs.Allocated d
  opened : ∀ f, f < NFILE → (k.ftable f).type = .inode → k.fs.Allocated (k.ftable f).ip
  cwd : ∀ p i, (k.proc p).cwd = some i → k.fs.Allocated i
  /-- Every entry of an allocated directory, `.` and `..` among them. -/
  entry : ∀ d e, k.fs.Allocated d → (k.fs.dinode d).type = T_DIR → e ∈ (k.fs.view d).links →
    k.fs.Allocated e.2.inum
  /-- Every inode that a lookup returns, inside a transaction. -/
  namei : ∀ p path i k', (k.proc p).cwd ≠ none → (namei p path).seq p k.begun = .ok (some i, k') →
    k'.fs.Allocated i
  nameiparent : ∀ p path i name k', (k.proc p).cwd ≠ none →
    (nameiparent p path).seq p k.begun = .ok (some (i, name), k') → k'.fs.Allocated i
  /-- No call that meets the condition panics in `ilock`. -/
  noPanic : ∀ p call, (k.proc p).cwd ≠ none → call.Legal k → May NoOrphan p k call →
    (call.prog p).seq p k ≠ .error (.panic .noType)

section

variable {k k₀ : Kern} {p : Pid} {s : FileSys} {i : Nat}

theorem Good.allocated_iff (h : Good s) : s.Allocated i ↔ (s.view i).type ≠ 0 := by
  rw [← alloc_iff_view, Alloc, h.coherent.cur]
  rfl

/-- The panic `ilock: no type` does not happen in a run that keeps the invariant. -/
theorem Sound.errs (h : Sound k.fs.sb.ninodes (k.fs.names .none)) :
    CallErrs (k.ctx p NoOrphan lax_noOrphan) fun x => x ≠ .panic .noType where
  limit e he hc := by
    obtain rfl : e = .noType := by simpa using hc
    exact absurd (show Panic.isLimit .noType = true from he) (by decide)
  corrupt e he hc := by
    obtain rfl : e = .noType := by simpa using hc
    exact absurd he (by decide)
  noType n i hrun href h0 := by
    have hn : Sound k.fs.sb.ninodes n := hrun.invariant h fun n a n' hn hG hs => hn.step hG hs
    exact absurd h0 (hn.held i href)
  fileclose := by simp
  filedup := by simp
  initExiting := by simp
  stuck w := by simp

/-- The state that a lookup leaves behind. -/
theorem At.held_alloc {base : Nat → Nat} {out : Nat} {L T : List Nat}
    (h : Sound k.fs.sb.ninodes (k.fs.names .none))
    (hs : At (k.ctx p NoOrphan lax_noOrphan) base out .none L (i :: T) s) : s.Allocated i := by
  have hn : Sound k.fs.sb.ninodes (s.names .none) :=
    hs.run.invariant h fun n a n' hn hG hs => hn.step hG hs
  exact hs.good.allocated_iff.mpr (hn.held i (hs.ref_pos List.mem_cons_self))

theorem Sound.namesOk (h : Sound k.fs.sb.ninodes (k.fs.names .none)) (hk : Idle k) : NamesOk k := by
  have hg := hk.good
  have hheld : ∀ i, 1 ≤ k.holders i → k.fs.Allocated i := fun i hi =>
    hg.allocated_iff.mpr (h.held i (hi.trans (hk.held i)))
  have hstart : ∀ p, At (k.ctx p NoOrphan lax_noOrphan) k.fs.ref (k.fs.outstanding + 1) .none [] []
      k.begun.fs := fun p => (hk.calm p lax_noOrphan).at_rest.begun
  have hok : ∀ p, (k.proc p).cwd ≠ none →
      CwdOk (k.ctx p NoOrphan lax_noOrphan) k.fs.ref k.begun := by
    intro p hcwd n hn
    obtain ⟨i, hi⟩ := Option.ne_none_iff_exists'.mp hcwd
    have hcwd : k.begun.cwd p = i := by
      show (k.proc p).cwd.getD 0 = i
      rw [hi]
      rfl
    have hpos := (hk.toTidy.cwd_held hi).trans (hk.held i)
    refine lax_noOrphan.get n _ (Or.inl ?_)
    rw [hcwd] at hn ⊢
    omega
  refine {
    linked := fun d hd => hg.allocated_iff.mpr (by rw [hd.1]; decide)
    opened := fun f hf ht => hheld _ (hk.toTidy.file_held hf ht)
    cwd := fun p i hi => hheld i (hk.toTidy.cwd_held hi)
    entry := fun d e hd ht he => ?_
    namei := fun p path i k' hcwd hran => ?_
    nameiparent := fun p path i name k' hcwd hran => ?_
    noPanic := fun p call hcwd hlegal hmay hran => ?_ }
  · have hdir : (k.fs.view d).type = T_DIR := by
      rw [hg.view_allocated hd]
      exact ht
    exact hg.allocated_iff.mpr (h.link_alloc hdir he)
  · have hwp := (hstart p).wp_namei (h.errs (p := p)).toErrs path (hok p hcwd)
      (Q := fun r k' => ∀ i, r = some i → k'.fs.Allocated i) (fun _ _ _ hc => nomatch hc)
      fun s j hs i hi => Option.some.inj hi ▸ hs.held_alloc h
    exact wp_of_ok hwp hran i rfl
  · have hwp := (hstart p).wp_nameiparent (h.errs (p := p)).toErrs path (hok p hcwd)
      (Q := fun r k' => ∀ i name, r = some (i, name) → k'.fs.Allocated i)
      (fun _ _ _ _ hc => nomatch hc)
      fun s j _ hs _ i _ hi => (Prod.mk.inj (Option.some.inj hi)).1 ▸ hs.held_alloc h
    exact wp_of_ok hwp hran i name rfl
  · obtain ⟨i, hi⟩ := Option.ne_none_iff_exists'.mp hcwd
    have hwp := hk.wp_call hi (h.errs (p := p)) (fun _ _ _ => ⟨trivial, trivial⟩) hlegal hmay
    exact wp_of_error (E := fun x => x ≠ .panic .noType) hwp hran rfl

/-- **Names are names of allocated inodes after every sequence of calls** in which no directory is
removed while the `..` of another one names it, no entry is made in a directory without links, and
no link count overflows. -/
theorem names_allocated (h₀ : WellNamed k₀) (h : Reach (May NoOrphan) k₀ k) : NamesOk k := by
  have hstart : Sound k₀.fs.sb.ninodes (k₀.fs.names .none) := by
    refine ⟨h₀.tree, fun d hd => ?_, fun i hi => h₀.good.allocated_iff.mp (h₀.referenced i hi)⟩
    obtain ⟨hdir, hpos⟩ := h₀.dotdot d hd
    exact ⟨hdir, hpos, nofun⟩
  obtain ⟨hidle, hsb, hsound⟩ := h.invariant lax_noOrphan (fun _ _ _ => ⟨trivial, trivial⟩)
    h₀.toIdle hstart fun n a n' hn hG hs => hn.step hG hs
  rw [← hsb] at hsound
  exact hsound.namesOk hidle

end

/-! ## 4. The parent of a removed directory -/

theorem image_wellNamed : WellNamed image where
  toWellFormed := image_wellFormed
  dotdot d hd := by
    have hd : (imageFs.view d).type = T_DIR := hd
    rw [image_view] at hd
    split at hd
    next hroot =>
      rw [hroot]
      show imageFs.LinkedDir (imageFs.view ROOTINO).parent
      rw [image_view, if_pos rfl, imageRoot_form.2.1, FileSys.LinkedDir, image_view]
      exact ⟨rfl, by decide⟩
    next => exact absurd hd (by decide)
  referenced i hi := by
    have hi : 0 < if i = ROOTINO then 1 else 0 := hi
    split at hi
    next hroot =>
      rw [hroot]
      decide
    next => exact absurd hi (Nat.lt_irrefl 0)

/-- The paths `a`, `a/b`, `../b` and `/a`. -/
def pathA : List UInt8 := [97]

def pathAB : List UInt8 := [97, 47, 98]

def pathUpB : List UInt8 := [46, 46, 47, 98]

def pathSlashA : List UInt8 := [47, 97]

/-- What a lookup of `..` finds: the inode and its type on disk. -/
def dotdotType (k : Kern) : Option Int :=
  match (namei 0 dotdot).seq 0 k.begun with
  | .ok (some i, k') => some (k'.fs.dinode i).type
  | _ => none

/-- How `chdir("..")` stops. -/
def chdirUpStop (k : Kern) : Option (Stop Panic Want) :=
  match ((PathCall.sysChdir (some dotdot)).prog 0).seq 0 k with
  | .error x => some x
  | .ok _ => none

/-- **A name of a free inode**: `mkdir("a")`, `mkdir("a/b")`, `chdir("a/b")`, `unlink("../b")`,
`unlink("/a")`.  Then `..` names the inode of `a`, which is free, and `chdir("..")` panics. -/
theorem removed_parent_panic : WellNamed image ∧ ∃ k, Reach (fun _ _ _ => True) image k ∧
    (∃ i k', (namei 0 dotdot).seq 0 k.begun = .ok (some i, k') ∧ (k'.fs.dinode i).type = 0) ∧
    ((PathCall.sysChdir (some dotdot)).prog 0).seq 0 k = .error (.panic .noType) := by
  refine ⟨image_wellNamed, ?_⟩
  have hrun : (runCalls image [.sysMkdir (some pathA), .sysMkdir (some pathAB),
      .sysChdir (some pathAB), .sysUnlink (some pathUpB), .sysUnlink (some pathSlashA)]).map
        (fun k => (dotdotType k, chdirUpStop k)) =
      some (some 0, some (.panic .noType)) := by decide +kernel
  obtain ⟨k, hk, htest⟩ := exists_reach hrun
  obtain ⟨htype, hstop⟩ := Prod.mk.inj htest
  refine ⟨k, hk, ?_, ?_⟩
  · unfold dotdotType at htype
    split at htype
    next i k' hran => exact ⟨i, k', hran, Option.some.inj htype⟩
    · cases htype
  · unfold chdirUpStop at hstop
    split at hstop
    next x hran => rw [hran, Option.some.inj hstop]
    · cases hstop

/-- After `mkdir("d")` all names are names of allocated inodes. -/
theorem names_allocated_mkdir : ∃ k, Reach (May NoOrphan) image k ∧
    (k.fs.dinode ROOTINO).nlink = 2 ∧ NamesOk k := by
  have hrun : passes (fun _ k => decide ((k.fs.dinode ROOTINO).nlink = 2))
      (((PathCall.sysMkdir (some pathD)).prog 0).seq 0 image) = true := by decide +kernel
  obtain ⟨r, k, hk, hlinks⟩ := passes_iff.mp hrun
  have hmay : May NoOrphan 0 image (.path (.sysMkdir (some pathD))) :=
    fun k' dp name i hran hnone => ⟨mkdir_mild k' dp name i hran hnone, trivial⟩
  have hreach : Reach (May NoOrphan) image k :=
    @Reach.call _ _ _ _ _ (.path (.sysMkdir (some pathD))) _ .start (show _ ≠ none by decide)
      trivial hmay hk
  exact ⟨k, hreach, of_decide_eq_true hlinks, names_allocated image_wellNamed hreach⟩

end Xv6.Fs
