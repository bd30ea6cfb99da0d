/-
# Trees with leaves that may hang several times

Inner nodes, each with a parent and a bag of children.  A child is an inner node itself or a
leaf; a leaf may be a child of many nodes, and of one node several times, an inner node is the
child of its parent, once.  The root is its own parent.

The DEGREE of a point counts the nodes that have it as their parent and the times that it is a
child.  Hanging a leaf adds one to the degree of the leaf; hanging a new inner node adds one to
its own degree and one to its parent's.

Taking something away is stated as the inverse: the graph before is the graph after with the
point hung again.
-/
import Mathlib.Algebra.BigOperators.Group.Finset.Piecewise
import Mathlib.Algebra.Order.BigOperators.Group.Finset
import Mathlib.Data.Multiset.Count
import Mathlib.Tactic

namespace Xv6

open Function (update_of_ne update_self)

/-- Inner nodes, each with a parent and a bag of children. -/
@[ext] structure Graph (α : Type*) where
  node : Set α
  up : α → α
  kids : α → Multiset α

namespace Graph

variable {α : Type*} [DecidableEq α] {T : Graph α} {r d i j : α} {inner : Set α} {s : Finset α}

/-- **The graph is a tree** with root `r`; the points of `inner` are the ones that are not
leaves. -/
structure Rooted (T : Graph α) (r : α) (inner : Set α) : Prop where
  root : r ∈ T.node ∧ T.up r = r
  kid : ∀ d ∈ T.node, ∀ c ∈ T.kids d, c ∈ inner →
    c ∈ T.node ∧ T.up c = d ∧ c ≠ r ∧ (T.kids d).count c = 1
  parent : ∀ c ∈ T.node, c ≠ r → T.up c ∈ T.node ∧ c ∈ T.kids (T.up c)

/-- Fewer points that are not leaves. -/
theorem Rooted.anti {inner' : Set α} (h : T.Rooted r inner) (hsub : inner' ⊆ inner) :
    T.Rooted r inner' :=
  ⟨h.root, fun d hd c hc hin => h.kid d hd c hc (hsub hin), h.parent⟩

/-- What the node `d` adds to the degree of `i`. -/
noncomputable def points (T : Graph α) (d i : α) : Nat :=
  open scoped Classical in
  if d ∈ T.node then (if T.up d = i then 1 else 0) + (T.kids d).count i else 0

/-- The degree of `i`, counted over the nodes in `s`. -/
noncomputable def degree (T : Graph α) (s : Finset α) (i : α) : Nat := ∑ d ∈ s, T.points d i

theorem points_of_mem (h : d ∈ T.node) :
    T.points d i = (if T.up d = i then 1 else 0) + (T.kids d).count i := if_pos h

theorem points_of_notMem (h : d ∉ T.node) : T.points d i = 0 := if_neg h

/-! ## 1. Degrees in a tree -/

/-- Nothing points to a point of degree 0. -/
theorem of_degree_eq_zero (h : T.degree s i = 0) (hd : d ∈ T.node) (hs : d ∈ s) :
    T.up d ≠ i ∧ i ∉ T.kids d := by
  have hzero := Finset.sum_eq_zero_iff.mp h d hs
  rw [points_of_mem hd, Nat.add_eq_zero_iff, Multiset.count_eq_zero] at hzero
  exact ⟨fun hup => absurd hzero.1 (by simp [hup]), hzero.2⟩

/-- A node without children that is not the root has degree 1: its parent has it. -/
theorem Rooted.degree_eq_one (h : T.Rooted r inner) (hd : d ∈ T.node) (hi : d ∈ inner) (hr : d ≠ r)
    (hkids : T.kids d = 0) (hs : T.up d ∈ s) : T.degree s d = 1 := by
  obtain ⟨hup, hmem⟩ := h.parent d hd hr
  have hpoints : ∀ e ∈ s, T.points e d = if T.up d = e then 1 else 0 := by
    intro e _
    by_cases he : e ∈ T.node
    · have hne : T.up e ≠ d := by
        rintro rfl
        -- a node with parent `d` is a child of `d`, and the root is its own parent
        rcases eq_or_ne e r with rfl | her
        · exact hr h.root.2
        · exact absurd (h.parent e he her).2 (by simp [hkids])
      rw [points_of_mem he, if_neg hne, Nat.zero_add]
      rcases eq_or_ne (T.up d) e with rfl | hue
      · rw [if_pos rfl]
        exact (h.kid _ he d hmem hi).2.2.2
      · rw [if_neg hue, Multiset.count_eq_zero]
        exact fun hc => hue (h.kid e he d hc hi).2.1
    · rw [points_of_notMem he, if_neg]
      rintro rfl
      exact he hup
  rw [degree, Finset.sum_congr rfl hpoints, Finset.sum_ite_eq, if_pos hs]

/-- A node with a child without children has degree at least 2: the child's parent is the node,
and the node hangs somewhere itself. -/
theorem Rooted.two_le_degree (h : T.Rooted r inner) (hs : ∀ e ∈ T.node, e ∈ s) (hi : i ∈ T.node)
    (hr : i ≠ r) (hkids : T.kids i = 0) : 2 ≤ T.degree s (T.up i) := by
  obtain ⟨hup, -⟩ := h.parent i hi hr
  have hchild : 1 ≤ T.points i (T.up i) := by
    rw [points_of_mem hi, if_pos rfl]
    exact Nat.le_add_right _ _
  obtain ⟨e, he, hne, hself⟩ : ∃ e ∈ T.node, i ≠ e ∧ 1 ≤ T.points e (T.up i) := by
    rcases eq_or_ne (T.up i) r with hur | hur
    · refine ⟨r, h.root.1, hr, ?_⟩
      rw [hur, points_of_mem h.root.1, if_pos h.root.2]
      exact Nat.le_add_right _ _
    · obtain ⟨hupp, hmem⟩ := h.parent _ hup hur
      refine ⟨_, hupp, ?_, ?_⟩
      · intro he
        rw [← he, hkids] at hmem
        exact Multiset.notMem_zero _ hmem
      · rw [points_of_mem hupp]
        exact Nat.le_add_left_of_le (Multiset.one_le_count_iff_mem.mpr hmem)
  calc 2 ≤ T.points i (T.up i) + T.points e (T.up i) := by omega
    _ = ∑ x ∈ ({i, e} : Finset α), T.points x (T.up i) := by rw [Finset.sum_pair hne]
    _ ≤ T.degree s (T.up i) := by
      refine Finset.sum_le_sum_of_subset fun x hx => ?_
      rcases Finset.mem_insert.mp hx with rfl | hx
      · exact hs x hi
      · exact hs x (Finset.mem_singleton.mp hx ▸ he)

/-! ## 2. Hanging a leaf -/

/-- `i` is one more child of `d`. -/
def addLeaf (T : Graph α) (d i : α) : Graph α :=
  { T with kids := Function.update T.kids d (i ::ₘ T.kids d) }

@[simp] theorem addLeaf_kids_self : (T.addLeaf d i).kids d = i ::ₘ T.kids d :=
  update_self ..

theorem addLeaf_kids_ne {e : α} (h : e ≠ d) : (T.addLeaf d i).kids e = T.kids e :=
  update_of_ne h ..

theorem mem_addLeaf_kids {e c : α} (h : c ≠ i) :
    c ∈ (T.addLeaf d i).kids e ↔ c ∈ T.kids e := by
  rcases eq_or_ne e d with rfl | he
  · simp [h]
  · rw [addLeaf_kids_ne he]

theorem count_addLeaf_kids {e c : α} :
    ((T.addLeaf d i).kids e).count c = (T.kids e).count c + if e = d ∧ c = i then 1 else 0 := by
  rcases eq_or_ne e d with rfl | he
  · simp [Multiset.count_cons]
  · simp [addLeaf_kids_ne he, he]

/-- **Leaves come and go.** -/
theorem rooted_addLeaf (hsub : T.node ⊆ inner) (hi : i ∉ inner) :
    (T.addLeaf d i).Rooted r inner ↔ T.Rooted r inner := by
  have hne : ∀ c ∈ inner, c ≠ i := fun c hc h => hi (h ▸ hc)
  have hnode : ∀ c ∈ T.node, c ≠ i := fun c hc => hne c (hsub hc)
  have hcount : ∀ e, ∀ c ∈ inner, ((T.addLeaf d i).kids e).count c = (T.kids e).count c := by
    intro e c hc
    rw [count_addLeaf_kids, if_neg fun h => hne c hc h.2, Nat.add_zero]
  constructor
  · intro h
    refine ⟨h.root, fun e he c hc hin => ?_, fun c hc hr => ?_⟩
    · rw [← hcount e c hin]
      exact h.kid e he c ((mem_addLeaf_kids (hne c hin)).mpr hc) hin
    · obtain ⟨hup, hmem⟩ := h.parent c hc hr
      exact ⟨hup, (mem_addLeaf_kids (hnode c hc)).mp hmem⟩
  · intro h
    refine ⟨h.root, fun e he c hc hin => ?_, fun c hc hr => ?_⟩
    · rw [hcount e c hin]
      exact h.kid e he c ((mem_addLeaf_kids (hne c hin)).mp hc) hin
    · obtain ⟨hup, hmem⟩ := h.parent c hc hr
      exact ⟨hup, (mem_addLeaf_kids (hnode c hc)).mpr hmem⟩

theorem degree_addLeaf (hd : d ∈ T.node) (hs : d ∈ s) :
    (T.addLeaf d i).degree s j = T.degree s j + if j = i then 1 else 0 := by
  have hpoints : ∀ e ∈ s, (T.addLeaf d i).points e j =
      T.points e j + if d = e then (if j = i then 1 else 0) else 0 := by
    intro e _
    by_cases he : e ∈ T.node
    · rw [points_of_mem he, points_of_mem (T := T.addLeaf d i) he, count_addLeaf_kids, ← Nat.add_assoc]
      congr 1
      rw [ite_and]
      simp only [eq_comm]
    · rw [points_of_notMem he, points_of_notMem (T := T.addLeaf d i) he, if_neg]
      rintro rfl
      exact he hd
  rw [degree, Finset.sum_congr rfl hpoints, Finset.sum_add_distrib, Finset.sum_ite_eq, if_pos hs]
  rfl

/-! ## 3. Hanging an inner node -/

/-- `i` becomes a node without children, and a child of `d`. -/
def addNode (T : Graph α) (d i : α) : Graph α where
  node := insert i T.node
  up := Function.update T.up i d
  kids := Function.update (Function.update T.kids i 0) d (i ::ₘ T.kids d)

theorem addNode_up_self : (T.addNode d i).up i = d := update_self ..

theorem addNode_up_ne {e : α} (h : e ≠ i) : (T.addNode d i).up e = T.up e :=
  update_of_ne h ..

theorem addNode_kids_self (h : i ≠ d) : (T.addNode d i).kids i = 0 := by
  simp only [addNode, update_of_ne h, update_self]

/-- At the other points the children change as for a leaf. -/
theorem addNode_kids_ne {e : α} (h : e ≠ i) : (T.addNode d i).kids e = (T.addLeaf d i).kids e := by
  unfold addNode addLeaf
  rcases eq_or_ne e d with rfl | he
  · simp only [update_self]
  · simp only [update_of_ne he, update_of_ne h]

/-- **A new node keeps the tree.** -/
theorem Rooted.addNode (h : T.Rooted r inner) (hd : d ∈ T.node) (hi : i ∉ T.node)
    (hfresh : ∀ e ∈ T.node, i ∉ T.kids e) : (T.addNode d i).Rooted r (insert i inner) := by
  have hid : i ≠ d := fun he => hi (he ▸ hd)
  have hir : i ≠ r := fun he => hi (he ▸ h.root.1)
  refine ⟨⟨Set.mem_insert_of_mem _ h.root.1, ?_⟩, ?_, ?_⟩
  · rw [addNode_up_ne hir.symm, h.root.2]
  · intro e hmem c hc hin
    rcases Set.mem_insert_iff.mp hmem with rfl | he
    · rw [addNode_kids_self hid] at hc
      exact absurd hc (Multiset.notMem_zero _)
    · have hei : e ≠ i := fun hh => hi (hh ▸ he)
      rw [addNode_kids_ne hei] at hc ⊢
      rcases eq_or_ne c i with rfl | hci
      · -- the new node is a child of `d` only
        have hed : e = d := by
          by_contra hed
          rw [addLeaf_kids_ne hed] at hc
          exact hfresh e he hc
        refine ⟨Set.mem_insert _ _, ?_, hir, ?_⟩
        · rw [addNode_up_self, hed]
        · rw [count_addLeaf_kids, if_pos ⟨hed, rfl⟩, Multiset.count_eq_zero.mpr (hfresh e he)]
      · have hinner : c ∈ inner := Set.mem_of_mem_insert_of_ne hin hci
        obtain ⟨hcn, hup, hcr, hcount⟩ := h.kid e he c ((mem_addLeaf_kids hci).mp hc) hinner
        refine ⟨Set.mem_insert_of_mem _ hcn, ?_, hcr, ?_⟩
        · rw [addNode_up_ne hci, hup]
        · rw [count_addLeaf_kids, if_neg fun hh => hci hh.2, hcount]
  · intro c hc hcr
    rcases Set.mem_insert_iff.mp hc with rfl | hc
    · rw [addNode_up_self, addNode_kids_ne hid.symm, addLeaf_kids_self]
      exact ⟨Set.mem_insert_of_mem _ hd, Multiset.mem_cons_self ..⟩
    · have hci : c ≠ i := fun hh => hi (hh ▸ hc)
      obtain ⟨hup, hmem⟩ := h.parent c hc hcr
      have hui : T.up c ≠ i := fun hh => hi (hh ▸ hup)
      rw [addNode_up_ne hci, addNode_kids_ne hui]
      exact ⟨Set.mem_insert_of_mem _ hup, (mem_addLeaf_kids hci).mpr hmem⟩

/-- **So does taking away a node without children.** -/
theorem Rooted.of_addNode (h : (T.addNode d i).Rooted r inner) (hd : d ∈ T.node) (hi : i ∉ T.node)
    (hin : i ∈ inner) : T.Rooted r inner := by
  have hid : i ≠ d := fun he => hi (he ▸ hd)
  have hkid : i ∈ (T.addNode d i).kids d := by
    rw [addNode_kids_ne hid.symm, addLeaf_kids_self]
    exact Multiset.mem_cons_self ..
  obtain ⟨-, -, hir, hone⟩ := h.kid d (Set.mem_insert_of_mem _ hd) i hkid hin
  have hkids0 := addNode_kids_self (T := T) hid
  refine ⟨⟨Set.mem_of_mem_insert_of_ne h.root.1 hir.symm, ?_⟩, ?_, ?_⟩
  · rw [← addNode_up_ne (T := T) (d := d) hir.symm, h.root.2]
  · intro e he c hc hcin
    have hei : e ≠ i := fun hh => hi (hh ▸ he)
    have hmem : c ∈ (T.addNode d i).kids e := by
      rw [addNode_kids_ne hei, ← Multiset.one_le_count_iff_mem, count_addLeaf_kids]
      exact Nat.le_add_right_of_le (Multiset.one_le_count_iff_mem.mpr hc)
    obtain ⟨hcn, hup, hcr, hcount⟩ := h.kid e (Set.mem_insert_of_mem _ he) c hmem hcin
    rw [addNode_kids_ne hei, count_addLeaf_kids] at hcount
    have hci : c ≠ i := by
      rintro rfl
      rw [addNode_up_self] at hup
      rw [if_pos ⟨hup.symm, rfl⟩] at hcount
      have := Multiset.one_le_count_iff_mem.mpr hc
      omega
    rw [addNode_up_ne hci] at hup
    rw [if_neg fun hh => hci hh.2] at hcount
    exact ⟨Set.mem_of_mem_insert_of_ne hcn hci, hup, hcr, hcount⟩
  · intro c hc hcr
    have hci : c ≠ i := fun hh => hi (hh ▸ hc)
    obtain ⟨hup, hmem⟩ := h.parent c (Set.mem_insert_of_mem _ hc) hcr
    rw [addNode_up_ne hci] at hup hmem
    have hui : T.up c ≠ i := by
      intro hh
      rw [hh, hkids0] at hmem
      exact Multiset.notMem_zero _ hmem
    rw [addNode_kids_ne hui, mem_addLeaf_kids hci] at hmem
    exact ⟨Set.mem_of_mem_insert_of_ne hup hui, hmem⟩

theorem degree_addNode (hd : d ∈ T.node) (hi : i ∉ T.node) (hds : d ∈ s) (his : i ∈ s) :
    (T.addNode d i).degree s j =
      T.degree s j + (if j = i then 1 else 0) + if j = d then 1 else 0 := by
  have hid : i ≠ d := fun he => hi (he ▸ hd)
  have hpoints : ∀ e ∈ s, (T.addNode d i).points e j =
      (T.addLeaf d i).points e j + if i = e then (if j = d then 1 else 0) else 0 := by
    intro e _
    rcases eq_or_ne i e with rfl | hie
    · rw [points_of_notMem (T := T.addLeaf d i) hi,
        points_of_mem (T := T.addNode d i) (Set.mem_insert _ _), addNode_kids_self hid,
        addNode_up_self, if_pos rfl, Multiset.count_zero, Nat.add_comm]
      simp only [eq_comm]
    · rw [if_neg hie, Nat.add_zero]
      have hmem : e ∈ (T.addNode d i).node ↔ e ∈ (T.addLeaf d i).node :=
        Set.mem_insert_iff.trans (or_iff_right hie.symm)
      by_cases he : e ∈ T.node
      · rw [points_of_mem (hmem.mpr he), points_of_mem (T := T.addLeaf d i) he,
          addNode_kids_ne hie.symm, addNode_up_ne hie.symm]
        rfl
      · rw [points_of_notMem (mt hmem.mp he), points_of_notMem (T := T.addLeaf d i) he]
  rw [← degree_addLeaf hd hds, degree, Finset.sum_congr rfl hpoints, Finset.sum_add_distrib,
    Finset.sum_ite_eq, if_pos his]
  rfl

end Graph

end Xv6
