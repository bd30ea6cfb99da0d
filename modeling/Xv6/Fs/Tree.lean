/-
# The tree of directories, and link counts

The parent of a directory is the inode that its `..` names.  A directory is LIVE when it has links
(and is not just losing its last one).  The invariant `Tree` says that the live directories are
the inner nodes of a tree: a live directory other than the root is a kid of its live parent,
exactly once, and a directory that is not live has no kids.

Link counts are exact in this tree: the count of an inode is its degree, plus one for a link that
is counted and is not there.

Every action keeps the invariant that does not make an entry in a directory without links and
does not overflow a link count (`Mild`).
-/
import Xv6.Fs.Entries
import Xv6.Lib.Rooted

namespace Xv6.Fs

open Function (forall_update_iff update update_of_ne update_self)

open Graph

/-! ## 1. The graph -/

/-- A directory, with number `i`, that has links and is not just losing its last one. -/
def File.Live (f : File) (p : Pend) (i : Nat) : Prop :=
  f.type = T_DIR ∧ 0 < f.nlink ∧ p.inum ≠ some i

instance (f : File) (p : Pend) (i : Nat) : Decidable (f.Live p i) :=
  inferInstanceAs (Decidable (_ ∧ _ ∧ _))

/-- The live directories with their parents and kids. -/
def graph (v : Nat → File) (p : Pend) : Graph Nat where
  node := {d | (v d).Live p d}
  up d := if (v d).Live p d then (v d).parent else ROOTINO
  kids d := if (v d).Live p d then ((v d).kidInums : Multiset Nat) else 0

/-- The directories. -/
def dirs (v : Nat → File) : Set Nat := {d | (v d).type = T_DIR}

/-- What the invariant says about a file with number `i` alone. -/
structure FileOk (N : Nat) (p : Pend) (i : Nat) (f : File) : Prop where
  alloc : f.type ≠ 0 → i ≠ 0 ∧ i < N
  free : f.type = 0 → f.nlink = 0
  range : f.nlink ≤ 32767
  pend : p.inum = some i → f.type ≠ 0 ∧ (f.type = T_DIR → f.nlink = 1)
  pendLink : p = .link i → f.type ≠ T_DIR
  form : f.type = T_DIR → Form f i
  dead : f.type = T_DIR → ¬ f.Live p i → f.kidInums = []

/-- **The invariant** of a file system with `N` inodes, files `v` and the pending link `p`. -/
structure Tree (N : Nat) (v : Nat → File) (p : Pend) : Prop where
  small : N ≤ 2 ^ 16
  file : ∀ i, FileOk N p i (v i)
  rooted : (graph v p).Rooted ROOTINO (dirs v)
  count : ∀ i, (v i).nlink =
    ((graph v p).degree (Finset.range N) i : Int) + if p.inum = some i then 1 else 0

section

variable {N : Nat} {v v' : Nat → File} {p p' : Pend} {d i j c : Nat}

theorem graph_up (h : (v d).Live p d) : (graph v p).up d = (v d).parent := if_pos h

theorem graph_kids (h : (v d).Live p d) : (graph v p).kids d = ((v d).kidInums : Multiset Nat) :=
  if_pos h

theorem mem_graph_kids (h : (v d).Live p d) : i ∈ (graph v p).kids d ↔ i ∈ (v d).kidInums := by
  rw [graph_kids h, Multiset.mem_coe]

/-- `e` has the same parent and the same kids. -/
def SameAt (v v' : Nat → File) (e : Nat) : Prop :=
  (v' e).parent = (v e).parent ∧ (v' e).kidInums = (v e).kidInums

theorem SameAt.of_eq {e : Nat} (h : v' e = v e) : SameAt v v' e := by rw [SameAt, h]; exact ⟨rfl, rfl⟩

/-- The graph is the same when the live directories are. -/
theorem graph_congr (hlive : ∀ e, (v' e).Live p' e ↔ (v e).Live p e)
    (hsame : ∀ e, (v e).Live p e → SameAt v v' e) : graph v' p' = graph v p := by
  refine Graph.ext (Set.ext hlive) (funext fun e => ?_) (funext fun e => ?_)
  · by_cases he : (v e).Live p e
    · rw [graph_up he, graph_up ((hlive e).mpr he), (hsame e he).1]
    · exact (if_neg (mt (hlive e).mp he)).trans (if_neg he).symm
  · by_cases he : (v e).Live p e
    · rw [graph_kids he, graph_kids ((hlive e).mpr he), (hsame e he).2]
    · exact (if_neg (mt (hlive e).mp he)).trans (if_neg he).symm

/-- One more kid that is not a directory. -/
theorem graph_addLeaf (hlive : ∀ e, (v' e).Live p' e ↔ (v e).Live p e) (hd : (v d).Live p d)
    (hup : (v' d).parent = (v d).parent) (hkids : (v' d).kidInums.Perm (i :: (v d).kidInums))
    (hsame : ∀ e, e ≠ d → (v e).Live p e → SameAt v v' e) :
    graph v' p' = (graph v p).addLeaf d i := by
  refine Graph.ext (Set.ext hlive) (funext fun e => ?_) (funext fun e => ?_)
  · by_cases he : (v e).Live p e
    · refine (graph_up ((hlive e).mpr he)).trans (Eq.trans ?_ (graph_up he).symm)
      rcases eq_or_ne e d with rfl | hed
      · exact hup
      · exact (hsame e hed he).1
    · exact (if_neg (mt (hlive e).mp he)).trans (if_neg he).symm
  · rcases eq_or_ne e d with rfl | hed
    · rw [addLeaf_kids_self, graph_kids hd, graph_kids ((hlive e).mpr hd)]
      exact Multiset.coe_eq_coe.mpr hkids
    · rw [addLeaf_kids_ne hed]
      by_cases he : (v e).Live p e
      · rw [graph_kids he, graph_kids ((hlive e).mpr he), (hsame e hed he).2]
      · exact (if_neg (mt (hlive e).mp he)).trans (if_neg he).symm

/-- One more kid that is a directory. -/
theorem graph_addNode (hlive : ∀ e, (v' e).Live p' e ↔ e = i ∨ (v e).Live p e) (hd : (v d).Live p d)
    (hi : i ≠ d) (hiup : (v' i).parent = d) (hikids : (v' i).kidInums = [])
    (hup : (v' d).parent = (v d).parent) (hkids : (v' d).kidInums.Perm (i :: (v d).kidInums))
    (hsame : ∀ e, e ≠ d → e ≠ i → (v e).Live p e → SameAt v v' e) :
    graph v' p' = (graph v p).addNode d i := by
  have hli : (v' i).Live p' i := (hlive i).mpr (Or.inl rfl)
  have hld : (v' d).Live p' d := (hlive d).mpr (Or.inr hd)
  have hdead : ∀ e, e ≠ i → ¬ (v e).Live p e → ¬ (v' e).Live p' e := by
    intro e hei he hc
    rcases (hlive e).mp hc with h | h
    · exact hei h
    · exact he h
  refine Graph.ext (Set.ext hlive) (funext fun e => ?_) (funext fun e => ?_)
  · rcases eq_or_ne e i with rfl | hei
    · rw [addNode_up_self, graph_up hli, hiup]
    · rw [addNode_up_ne hei]
      by_cases he : (v e).Live p e
      · rw [graph_up he, graph_up ((hlive e).mpr (Or.inr he))]
        rcases eq_or_ne e d with rfl | hed
        · exact hup
        · exact (hsame e hed hei he).1
      · exact (if_neg (hdead e hei he)).trans (if_neg he).symm
  · rcases eq_or_ne e i with rfl | hei
    · rw [addNode_kids_self hi, graph_kids hli, hikids]
      rfl
    · rw [addNode_kids_ne hei]
      rcases eq_or_ne e d with rfl | hed
      · rw [addLeaf_kids_self, graph_kids hd, graph_kids hld]
        exact Multiset.coe_eq_coe.mpr hkids
      · rw [addLeaf_kids_ne hed]
        by_cases he : (v e).Live p e
        · rw [graph_kids he, graph_kids ((hlive e).mpr (Or.inr he)), (hsame e hed hei he).2]
        · exact (if_neg (hdead e hei he)).trans (if_neg he).symm

/-! ## 2. Consequences of the invariant -/

theorem Tree.dir_pos (h : Tree N v p) (hd : (v d).type = T_DIR) : d ≠ 0 ∧ d < N :=
  (h.file d).alloc (by rw [hd]; decide)

theorem Tree.node_mem (h : Tree N v p) (hd : (v d).Live p d) : d ∈ Finset.range N :=
  Finset.mem_range.mpr (h.dir_pos hd.1).2

theorem Tree.node_sub (_ : Tree N v p) : (graph v p).node ⊆ dirs v := fun _ hd => hd.1

theorem Tree.nonneg (h : Tree N v p) (i : Nat) : 0 ≤ (v i).nlink := by
  rw [h.count i]
  split <;> omega

/-- An inode with a pending link has a positive count. -/
theorem Tree.pend_pos (h : Tree N v p) (hp : p.inum = some i) : 1 ≤ (v i).nlink := by
  rw [h.count i, if_pos hp]
  omega

/-- A directory with kids is live. -/
theorem Tree.live_of_kid (h : Tree N v p) (hd : (v d).type = T_DIR) (hi : i ∈ (v d).kidInums) :
    (v d).Live p d := by
  by_contra hc
  rw [(h.file d).dead hd hc] at hi
  cases hi

/-- A directory with a positive count is live when there is no pending link to it. -/
theorem Tree.live_of_ne_zero (h : Tree N v p) (hd : (v d).type = T_DIR) (hn : (v d).nlink ≠ 0)
    (hp : p.inum ≠ some d) : (v d).Live p d :=
  ⟨hd, lt_of_le_of_ne (h.nonneg d) hn.symm, hp⟩

/-- Nothing names a free inode. -/
theorem Tree.fresh (h : Tree N v p) (hi : (v i).type = 0) :
    (graph v p).degree (Finset.range N) i = 0 := by
  have := h.count i
  rw [(h.file i).free hi] at this
  split at this <;> omega

theorem short_of_range {x : Int} (h0 : -1 ≤ x) (h : x ≤ 32767) : short x = x := by
  unfold short
  rw [Int.bmod_eq_of_le] <;> omega

/-- A file that the pending link is not about. -/
theorem FileOk.repend {f : File} (h : FileOk N p i f) (hp' : p'.inum ≠ some i) :
    FileOk N p' i f where
  alloc := h.alloc
  free := h.free
  range := h.range
  pend hc := absurd hc hp'
  pendLink hc := absurd (by rw [hc]; rfl) hp'
  form := h.form
  dead hd hl := h.dead hd fun hlive => hl ⟨hlive.1, hlive.2.1, hp'⟩

/-- A file that is not a directory. -/
theorem FileOk.of_leaf {f : File} (hi : i ≠ 0 ∧ i < N) (h0 : f.type ≠ 0) (hd : f.type ≠ T_DIR)
    (hrange : f.nlink ≤ 32767) : FileOk N p i f where
  alloc _ := hi
  free hc := absurd hc h0
  range := hrange
  pend _ := ⟨h0, fun hc => absurd hc hd⟩
  pendLink _ := hd
  form hc := absurd hc hd
  dead hc := absurd hc hd

/-- A live directory. -/
theorem FileOk.of_live {f : File} (hi : i ≠ 0 ∧ i < N) (hl : f.Live p i) (hrange : f.nlink ≤ 32767)
    (hform : Form f i) : FileOk N p i f where
  alloc _ := hi
  free hc := absurd (hl.1.symm.trans hc) (by decide)
  range := hrange
  pend hc := absurd hc hl.2.2
  pendLink hc := absurd (by rw [hc]; rfl) hl.2.2
  form _ := hform
  dead _ hc := absurd hl hc

/-- Another pending link, about another inode. -/
def Pend.SameBut (p p' : Pend) (i : Nat) : Prop :=
  ∀ e, e ≠ i → (p'.inum = some e ↔ p.inum = some e)

theorem Pend.SameBut.refl (p : Pend) (i : Nat) : p.SameBut p i := fun _ _ => Iff.rfl

theorem Pend.SameBut.of_inum (hp : p.inum = Option.none ∨ p.inum = some i)
    (hp' : p'.inum = Option.none ∨ p'.inum = some i) : p.SameBut p' i := by
  intro e he
  have hne : ∀ q : Pend, q.inum = Option.none ∨ q.inum = some i → q.inum ≠ some e := by
    rintro q (hq | hq) hc
    · rw [hq] at hc
      cases hc
    · rw [hq] at hc
      exact he (Option.some.inj hc).symm
  exact ⟨fun hc => absurd hc (hne p' hp'), fun hc => absurd hc (hne p hp)⟩

theorem dirs_update {f : File} (h : f.type = (v i).type) : dirs (update v i f) = dirs v := by
  ext e
  rcases eq_or_ne e i with rfl | hei
  · simp only [dirs, Set.mem_ofPred_eq, update_self, h]
  · simp only [dirs, Set.mem_ofPred_eq, update_of_ne hei]

/-! ## 3. The actions that leave the graph alone -/

/-- **One file changes** that is not a live directory, before and after, and its count changes
with the pending link. -/
theorem Tree.of_update {f : File} (h : Tree N v p) (hp : p.SameBut p' i) (hi : ¬ (v i).Live p i)
    (hf : ¬ f.Live p' i) (hdir : f.type = T_DIR → (v i).type = T_DIR) (hok : FileOk N p' i f)
    (hrest : ∀ j, j ≠ i → FileOk N p' j (v j))
    (hcount : f.nlink + (if p.inum = some i then 1 else 0) =
      (v i).nlink + if p'.inum = some i then 1 else 0) :
    Tree N (update v i f) p' := by
  have hgraph : graph (update v i f) p' = graph v p := by
    refine graph_congr (fun e => ?_) fun e he => SameAt.of_eq (update_of_ne ?_ _ _)
    · rcases eq_or_ne e i with rfl | hei
      · rw [update_self]
        exact ⟨fun h => absurd h hf, fun h => absurd h hi⟩
      · rw [update_of_ne hei]
        exact and_congr_right fun _ => and_congr_right fun _ => not_congr (hp e hei)
    · rintro rfl
      exact hi he
  refine ⟨h.small, ?_, ?_, fun j => ?_⟩
  · exact (forall_update_iff v (FileOk N p')).mpr ⟨hok, hrest⟩
  · rw [hgraph]
    refine h.rooted.anti fun e he => ?_
    have he : (update v i f e).type = T_DIR := he
    rcases eq_or_ne e i with rfl | hei
    · rw [update_self] at he
      exact hdir he
    · rwa [update_of_ne hei] at he
  · rw [hgraph]
    have := h.count j
    rcases eq_or_ne j i with rfl | hji
    · rw [update_self]
      omega
    · rw [update_of_ne hji, this]
      simp only [hp j hji]

/-- An inode without links is freed. -/
theorem Tree.free (h : Tree N v p) (hn : (v i).nlink = 0) :
    Tree N (update v i File.free) p := by
  have hpi : p.inum ≠ some i := fun hc => by
    have := h.pend_pos hc
    omega
  have hdead : ∀ f : File, f.nlink = 0 → ¬ f.Live p i := fun f hf hc => by
    have := hc.2.1
    omega
  refine h.of_update (.refl p i) (hdead _ hn) (hdead _ rfl) (fun hc => absurd hc (by decide)) ?_
    (fun j _ => h.file j) ?_
  · exact ⟨fun hc => absurd rfl hc, fun _ => rfl, by decide, fun hc => absurd hc hpi,
      fun _ => by decide, fun hc => absurd hc (by decide), fun hc => absurd hc (by decide)⟩
  · rw [hn]
    rfl

/-- A link to a file is counted. -/
theorem Tree.counted (h : Tree N v .none) (h0 : (v i).type ≠ 0) (hd : (v i).type ≠ T_DIR)
    (hmax : (v i).nlink ≠ 32767) : Tree N (update v i (v i).incr) (.link i) := by
  have hrange := (h.file i).range
  have hnonneg := h.nonneg i
  have hincr : (v i).incr.nlink = (v i).nlink + 1 := short_of_range (by omega) (by omega)
  refine h.of_update (.of_inum (Or.inl rfl) (Or.inr rfl)) (fun hc => hd hc.1) (fun hc => hd hc.1)
    (fun hc => absurd hc hd) ?_ (fun j hj => (h.file j).repend ?_) ?_
  · exact FileOk.of_leaf ((h.file i).alloc h0) h0 hd (by omega)
  · exact fun hc => hj (Option.some.inj hc).symm
  · simp [hincr]

/-- A new file comes with one link, which is counted and not there yet. -/
theorem Tree.newFile {f : File} (h : Tree N v .none) (hfree : (v i).type = 0) (hi : i ≠ 0 ∧ i < N)
    (h0 : f.type ≠ 0) (hd : f.type ≠ T_DIR) (hn : f.nlink = 1) :
    Tree N (update v i f) (.link i) := by
  refine h.of_update (.of_inum (Or.inl rfl) (Or.inr rfl)) ?_ (fun hc => hd hc.1)
    (fun hc => absurd hc hd) ?_ (fun j hj => (h.file j).repend ?_) ?_
  · exact fun hc => absurd (hc.1.symm.trans hfree) (by decide)
  · exact FileOk.of_leaf hi h0 hd (by omega)
  · exact fun hc => hj (Option.some.inj hc).symm
  · simp [hn, (h.file i).free hfree]

/-- A link that is not there is taken off the count. -/
theorem Tree.uncounted (h : Tree N v p) (hp : p.inum = some i) :
    Tree N (update v i (v i).decr) .none := by
  have hpos := h.pend_pos hp
  have hrange := (h.file i).range
  have hdecr : (v i).decr.nlink = (v i).nlink - 1 := short_of_range (by omega) (by omega)
  obtain ⟨h0, hone⟩ := (h.file i).pend hp
  have hlive : ¬ (v i).decr.Live .none i := by
    -- a directory has lost its last link
    rintro ⟨hd, hc, -⟩
    have := hone hd
    omega
  have hdead : ¬ (v i).Live p i := fun hc => hc.2.2 hp
  refine h.of_update (.of_inum (Or.inr hp) (Or.inl rfl)) hdead hlive id ?_
    (fun j hj => (h.file j).repend nofun) ?_
  · exact ⟨fun _ => (h.file i).alloc h0, fun hc => absurd hc h0, by omega, nofun, nofun,
      fun hd => ((h.file i).form hd).setNlink _, fun hd _ => (h.file i).dead hd hdead⟩
  · rw [hdecr, if_pos hp, if_neg nofun]
    omega

/-! ## 4. The actions that make entries -/

variable {name : List UInt8}

/-- The link that was counted is made. -/
theorem Tree.entry (h : Tree N v (.link i)) (hd : (v d).type = T_DIR)
    (hnone : (v d).lookup name = none) (hn : (v d).nlink ≠ 0) :
    Tree N (update v d ((v d).link name i)) .none := by
  obtain ⟨hi0, -⟩ := (h.file i).pend rfl
  have hileaf : (v i).type ≠ T_DIR := (h.file i).pendLink rfl
  have hdi : d ≠ i := by rintro rfl; exact hileaf hd
  have hi := (h.file i).alloc hi0
  have hlive : (v d).Live (.link i) d :=
    h.live_of_ne_zero hd hn fun hc => hdi (Option.some.inj hc).symm
  obtain ⟨hform, hup, hkids⟩ := ((h.file d).form hd).link (h.dir_pos hd).1 hnone hi.1
    (hi.2.trans_le h.small)
  have hlives : ∀ e, (update v d ((v d).link name i) e).Live .none e ↔
      (v e).Live (.link i) e := by
    intro e
    rcases eq_or_ne e d with rfl | hed
    · rw [update_self]
      exact iff_of_true ⟨hlive.1, hlive.2.1, nofun⟩ hlive
    · rw [update_of_ne hed]
      refine and_congr_right fun he => and_congr_right fun _ => iff_of_true nofun fun hc => ?_
      exact hileaf (Option.some.inj hc ▸ he)
  have hgraph : graph (update v d ((v d).link name i)) .none =
      (graph v (.link i)).addLeaf d i := by
    refine graph_addLeaf hlives hlive ?_ ?_ fun e he _ => .of_eq (update_of_ne he _ _)
    · rw [update_self, hup]
    · rwa [update_self]
  have hdirs : dirs (update v d ((v d).link name i)) = dirs v := dirs_update rfl
  refine ⟨h.small, ?_, ?_, fun j => ?_⟩
  · refine (forall_update_iff v (FileOk N .none)).mpr ⟨?_, fun j _ => ?_⟩
    · exact .of_live (h.dir_pos hd) ⟨hlive.1, hlive.2.1, nofun⟩ (h.file d).range hform
    · exact (h.file j).repend nofun
  · rw [hgraph, hdirs, rooted_addLeaf h.node_sub hileaf]
    exact h.rooted
  · rw [hgraph, degree_addLeaf hlive (h.node_mem hlive)]
    have hnlink : (update v d ((v d).link name i) j).nlink = (v j).nlink := by
      rcases eq_or_ne j d with rfl | hjd
      · rw [update_self]
        rfl
      · rw [update_of_ne hjd]
    rw [hnlink, h.count j]
    simp [eq_comm]

/-- A file or device is created: its link is counted and made. -/
theorem Tree.mkfile {f : File} (h : Tree N v .none) (hd : (v d).type = T_DIR)
    (hnone : (v d).lookup name = none) (hn : (v d).nlink ≠ 0) (hfree : (v i).type = 0)
    (hi : i ≠ 0 ∧ i < N) (h0 : f.type ≠ 0) (hleaf : f.type ≠ T_DIR) (hone : f.nlink = 1) :
    Tree N (update (update v i f) d ((v d).link name i)) .none := by
  have hdi : d ≠ i := by
    rintro rfl
    exact absurd (hd.symm.trans hfree) (by decide)
  have hvd : update v i f d = v d := update_of_ne hdi _ _
  have hentry := (h.newFile hfree hi h0 hleaf hone).entry (hvd.symm ▸ hd) (hvd.symm ▸ hnone)
    (hvd.symm ▸ hn)
  rwa [hvd] at hentry

/-- A directory is created. -/
theorem Tree.mkdir {major minor : Int} (h : Tree N v .none) (hd : (v d).type = T_DIR)
    (hnone : (v d).lookup name = none) (hn : (v d).nlink ≠ 0) (hmax : (v d).nlink ≠ 32767)
    (hfree : (v i).type = 0) (hi : i ≠ 0 ∧ i < N) :
    Tree N (update (update v i (File.newDir i d major minor)) d
      ((v d).incr.link name i)) .none := by
  have hid : i ≠ d := by
    rintro rfl
    exact absurd (hd.symm.trans hfree) (by decide)
  have hlive : (v d).Live .none d := h.live_of_ne_zero hd hn nofun
  have hidead : ¬ (v i).Live .none i := fun hc => absurd (hc.1.symm.trans hfree) (by decide)
  have hrange := (h.file d).range
  have hpos := hlive.2.1
  have hincr : (v d).incr.nlink = (v d).nlink + 1 := short_of_range (by omega) (by omega)
  have hdpos := h.dir_pos hd
  have hilt := hi.2.trans_le h.small
  obtain ⟨hform, hup, hkids⟩ :=
    (((h.file d).form hd).setNlink (short ((v d).nlink + 1))).link hdpos.1 hnone hi.1 hilt
  obtain ⟨hiform, hiup, hikids⟩ :=
    newDir_form major minor hi.1 hilt hdpos.1 (hdpos.2.trans_le h.small)
  generalize hv : update (update v i (File.newDir i d major minor)) d
    ((v d).incr.link name i) = v'
  have hvd : v' d = (v d).incr.link name i := by rw [← hv, update_self]
  have hvi : v' i = File.newDir i d major minor := by
    rw [← hv, update_of_ne hid, update_self]
  have hve : ∀ e, e ≠ d → e ≠ i → v' e = v e := fun e hed hei => by
    rw [← hv, update_of_ne hed, update_of_ne hei]
  have hlived : (v' d).Live .none d := by
    rw [hvd]
    exact ⟨hd, show 0 < (v d).incr.nlink by omega, nofun⟩
  have hlivei : (v' i).Live .none i := by
    rw [hvi]
    exact ⟨rfl, Int.one_pos, nofun⟩
  have hlives : ∀ e, (v' e).Live .none e ↔ e = i ∨ (v e).Live .none e := by
    intro e
    rcases eq_or_ne e d with rfl | hed
    · exact iff_of_true hlived (Or.inr hlive)
    · rcases eq_or_ne e i with rfl | hei
      · exact iff_of_true hlivei (Or.inl rfl)
      · rw [hve e hed hei]
        exact (or_iff_right hei).symm
  have hgraph : graph v' .none = (graph v .none).addNode d i := by
    refine graph_addNode hlives hlive hid ?_ ?_ ?_ ?_ fun e hed hei _ => .of_eq (hve e hed hei)
    · rw [hvi, hiup]
    · rw [hvi, hikids]
    · rw [hvd]; exact hup
    · rw [hvd]; exact hkids
  refine ⟨h.small, fun j => ?_, ?_, fun j => ?_⟩
  · rcases eq_or_ne j d with rfl | hjd
    · refine .of_live hdpos hlived ?_ ?_
      · rw [hvd]
        exact show (v j).incr.nlink ≤ 32767 by omega
      · rw [hvd]; exact hform
    · rcases eq_or_ne j i with rfl | hji
      · refine .of_live hi hlivei ?_ ?_
        · rw [hvi]
          exact show (1 : Int) ≤ 32767 by decide
        · rw [hvi]; exact hiform
      · rw [hve j hjd hji]
        exact h.file j
  · rw [hgraph]
    refine (h.rooted.addNode hlive hidead fun e he => ?_).anti fun e he => ?_
    · exact (of_degree_eq_zero (h.fresh hfree) he (h.node_mem he)).2
    · rcases eq_or_ne e i with rfl | hei
      · exact Set.mem_insert _ _
      · refine Set.mem_insert_of_mem _ ?_
        rcases eq_or_ne e d with rfl | hed
        · exact hd
        · have he : (v' e).type = T_DIR := he
          rwa [hve e hed hei] at he
  · rw [hgraph, degree_addNode hlive hidead (h.node_mem hlive) (Finset.mem_range.mpr hi.2)]
    have hcount := h.count j
    rcases eq_or_ne j d with rfl | hjd
    · rw [hvd, if_neg hid.symm, if_pos rfl]
      refine hincr.trans ?_
      rw [hcount]
      simp
    · rcases eq_or_ne j i with rfl | hji
      · rw [hvi, if_pos rfl, if_neg hid, h.fresh hfree]
        rfl
      · rw [hve j hjd hji, if_neg hji, if_neg hjd, hcount]
        rfl

/-! ## 5. The actions that clear entries -/

variable {e : Nat × Dirent}

/-- The entry of a file is cleared. -/
theorem Tree.unlink (h : Tree N v .none) (hd : (v d).type = T_DIR) (hname : Plain name)
    (hsome : (v d).lookup name = some e) (hn : 1 ≤ (v e.2.inum).nlink)
    (hleaf : (v e.2.inum).type ≠ T_DIR) :
    Tree N (update v d ((v d).clear e.1)) (.unlink e.2.inum) := by
  have hdpos := h.dir_pos hd
  have hkid := ((h.file d).form hd).mem_kids hdpos.1 hname hsome
  have hlive : (v d).Live .none d := h.live_of_kid hd (mem_kidInums.mpr ⟨e, hkid, rfl⟩)
  obtain ⟨hform, hup, hkids⟩ := ((h.file d).form hd).clear hdpos.1 hkid
  generalize hc : e.2.inum = c at *
  have hdc : d ≠ c := by rintro rfl; exact hleaf hd
  have hc0 : (v c).type ≠ 0 := fun h0 => by
    have := (h.file c).free h0
    omega
  generalize hv : update v d ((v d).clear e.1) = v'
  have hvd : v' d = (v d).clear e.1 := by rw [← hv, update_self]
  have hve : ∀ x, x ≠ d → v' x = v x := fun x hx => by rw [← hv, update_of_ne hx]
  have hlived : (v' d).Live (.unlink c) d := by
    rw [hvd]
    exact ⟨hd, hlive.2.1, fun hc => hdc (Option.some.inj hc).symm⟩
  have hlives : ∀ x, (v x).Live .none x ↔ (v' x).Live (.unlink c) x := by
    intro x
    rcases eq_or_ne x d with rfl | hx
    · exact iff_of_true hlive hlived
    · rw [hve x hx]
      refine and_congr_right fun hxd => and_congr_right fun _ => iff_of_true nofun fun hc => ?_
      exact hleaf (Option.some.inj hc ▸ hxd)
  have hgraph : graph v .none = (graph v' (.unlink c)).addLeaf d c := by
    refine graph_addLeaf hlives hlived ?_ ?_ fun x hx _ => .of_eq (hve x hx).symm
    · rw [hvd, hup]
    · rwa [hvd]
  have hdirs : dirs v' = dirs v := by rw [← hv]; exact dirs_update rfl
  refine ⟨h.small, fun j => ?_, ?_, fun j => ?_⟩
  · rcases eq_or_ne j d with rfl | hjd
    · refine .of_live hdpos hlived ?_ ?_
      · rw [hvd]; exact (h.file j).range
      · rw [hvd]; exact hform
    · rw [hve j hjd]
      rcases eq_or_ne j c with rfl | hjc
      · exact .of_leaf ((h.file j).alloc hc0) hc0 hleaf (h.file j).range
      · exact (h.file j).repend fun hc => hjc (Option.some.inj hc).symm
  · have hsub : (graph v' (.unlink c)).node ⊆ dirs v := fun x hx => ((hlives x).mpr hx).1
    have hrooted := h.rooted
    rw [hgraph, rooted_addLeaf hsub hleaf] at hrooted
    rwa [hdirs]
  · have hcount := h.count j
    rw [hgraph, degree_addLeaf hlived (by rw [Finset.mem_range]; exact hdpos.2)] at hcount
    have hnlink : (v' j).nlink = (v j).nlink := by
      rcases eq_or_ne j d with rfl | hjd
      · rw [hvd]
        rfl
      · rw [hve j hjd]
    rw [hnlink, hcount]
    simp [eq_comm]

/-- An empty directory in the directory `d`: its only link is the one in `d`, and `d` has one more
link than the one that its `..` makes. -/
theorem Tree.empty_kid (h : Tree N v .none) (hd : (v d).type = T_DIR) (hc : c ∈ (v d).kidInums)
    (hdir : (v c).type = T_DIR) (hempty : (v c).kidInums = []) :
    (v c).Live .none c ∧ (v c).parent = d ∧ (v c).nlink = 1 ∧ 2 ≤ (v d).nlink := by
  have hlive := h.live_of_kid hd hc
  obtain ⟨hclive, hcup, hcr, -⟩ := h.rooted.kid d hlive c ((mem_graph_kids hlive).mpr hc) hdir
  have hckids : (graph v .none).kids c = 0 := by rw [graph_kids hclive, hempty]; rfl
  have htwo := h.rooted.two_le_degree (s := Finset.range N) (fun x hx => h.node_mem hx) hclive hcr
    hckids
  have hone := h.rooted.degree_eq_one (s := Finset.range N) hclive hdir hcr hckids
    (by rw [hcup]; exact h.node_mem hlive)
  rw [hcup] at htwo
  rw [graph_up hclive] at hcup
  have hdn := h.count d
  have hcn := h.count c
  rw [if_neg nofun] at hdn hcn
  exact ⟨hclive, hcup, by omega, by omega⟩

/-- The entry of an empty directory is cleared. -/
theorem Tree.rmdir (h : Tree N v .none) (hd : (v d).type = T_DIR) (hname : Plain name)
    (hsome : (v d).lookup name = some e) (hdir : (v e.2.inum).type = T_DIR)
    (hempty : (v e.2.inum).isEmpty = true) :
    Tree N (update v d ((v d).clear e.1).decr) (.unlink e.2.inum) := by
  have hdpos := h.dir_pos hd
  have hkid := ((h.file d).form hd).mem_kids hdpos.1 hname hsome
  have hmem : e.2.inum ∈ (v d).kidInums := mem_kidInums.mpr ⟨e, hkid, rfl⟩
  have hlive : (v d).Live .none d := h.live_of_kid hd hmem
  obtain ⟨hform, hup, hkids⟩ := ((h.file d).form hd).clear hdpos.1 hkid
  rw [isEmpty_iff] at hempty
  generalize hc : e.2.inum = c at *
  obtain ⟨hclive, hcup, hcn, hdn⟩ := h.empty_kid hd hmem hdir hempty
  have hdc : d ≠ c := by
    rintro rfl
    rw [hempty] at hmem
    cases hmem
  have hrange := (h.file d).range
  have hdecr : ((v d).clear e.1).decr.nlink = (v d).nlink - 1 :=
    short_of_range (show -1 ≤ (v d).nlink - 1 by omega) (show (v d).nlink - 1 ≤ 32767 by omega)
  generalize hv : update v d ((v d).clear e.1).decr = v'
  have hvd : v' d = ((v d).clear e.1).decr := by rw [← hv, update_self]
  have hve : ∀ x, x ≠ d → v' x = v x := fun x hx => by rw [← hv, update_of_ne hx]
  have hlived : (v' d).Live (.unlink c) d := by
    rw [hvd]
    exact ⟨hd, by omega, fun hc => hdc (Option.some.inj hc).symm⟩
  have hcdead : ¬ (v' c).Live (.unlink c) c := fun hc => hc.2.2 rfl
  have hlives : ∀ x, (v x).Live .none x ↔ x = c ∨ (v' x).Live (.unlink c) x := by
    intro x
    rcases eq_or_ne x d with rfl | hx
    · exact iff_of_true hlive (Or.inr hlived)
    · rcases eq_or_ne x c with rfl | hxc
      · exact iff_of_true hclive (Or.inl rfl)
      · rw [hve x hx, or_iff_right hxc]
        refine and_congr_right fun _ => and_congr_right fun _ => iff_of_true nofun fun hc => ?_
        exact hxc (Option.some.inj hc).symm
  have hgraph : graph v .none = (graph v' (.unlink c)).addNode d c := by
    refine graph_addNode hlives hlived hdc.symm hcup hempty ?_ ?_
      fun x hx _ _ => .of_eq (hve x hx).symm
    · rw [hvd]; exact hup.symm
    · rw [hvd]; exact hkids
  have hdirs : dirs v' = dirs v := by rw [← hv]; exact dirs_update rfl
  refine ⟨h.small, fun j => ?_, ?_, fun j => ?_⟩
  · rcases eq_or_ne j d with rfl | hjd
    · refine .of_live hdpos hlived ?_ ?_
      · rw [hvd]; omega
      · rw [hvd]; exact hform.setNlink _
    · rw [hve j hjd]
      rcases eq_or_ne j c with rfl | hjc
      · have hok := h.file j
        exact ⟨hok.alloc, hok.free, hok.range, fun _ => ⟨by rw [hdir]; decide, fun _ => by omega⟩,
          nofun, hok.form, fun _ _ => hempty⟩
      · exact (h.file j).repend fun hc => hjc (Option.some.inj hc).symm
  · have hrooted := h.rooted
    rw [hgraph] at hrooted
    rw [hdirs]
    exact hrooted.of_addNode hlived hcdead hdir
  · have hcount := h.count j
    rw [hgraph, degree_addNode hlived hcdead (by rw [Finset.mem_range]; exact hdpos.2)
      (by rw [Finset.mem_range]; exact (h.dir_pos hdir).2)] at hcount
    rcases eq_or_ne j d with rfl | hjd
    · rw [hvd, hdecr, hcount]
      simp [hdc, hdc.symm]
    · rw [hve j hjd, hcount]
      simp [hjd, eq_comm]

end

/-! ## 6. Every action -/

/-- **The condition**: no entry is made in a directory without links, and no link count is raised
above the largest `short`. -/
def Mild (n : Names) : Act → Prop
  | .count i => (n.view i).nlink ≠ 32767
  | .entry d _ _ => (n.view d).nlink ≠ 0
  | .mkfile d _ _ => (n.view d).nlink ≠ 0
  | .mkdir d _ _ => (n.view d).nlink ≠ 0 ∧ (n.view d).nlink ≠ 32767
  | _ => True

theorem lax_mild : Names.Lax Mild :=
  ⟨fun _ _ _ => trivial, fun _ _ => trivial, fun _ _ => trivial, fun _ _ => trivial⟩

/-- **Every action that meets the condition keeps the invariant.** -/
theorem Tree.step {N : Nat} {n n' : Names} {a : Act} (h : Tree N n.view n.pend) (hG : Mild n a)
    (hs : Names.Step N n a n') : Tree N n'.view n'.pend := by
  cases hs with
  | get => exact h
  | drop => exact h
  | free _ hn => exact h.free hn
  | count hp h0 hd =>
    rw [hp] at h
    exact h.counted h0 hd hG
  | uncount hp => exact h.uncounted hp
  | entry hp hd hnone =>
    rw [hp] at h
    exact h.entry hd hnone hG
  | mkfile hp hd hnone hfree hpos hlt ht =>
    rw [hp] at h ⊢
    exact h.mkfile hd hnone hG hfree ⟨hpos, hlt⟩ ht.1 ht.2 rfl
  | mkdir hp hd hnone hfree hpos hlt =>
    rw [hp] at h ⊢
    exact h.mkdir hd hnone hG.1 hG.2 hfree ⟨hpos, hlt⟩
  | unlink hp hd hname hsome _ hn ht =>
    rw [hp] at h
    exact h.unlink hd hname hsome hn ht
  | rmdir hp hd hname hsome _ _ ht hempty =>
    rw [hp] at h
    exact h.rmdir hd hname hsome ht hempty

end Xv6.Fs
