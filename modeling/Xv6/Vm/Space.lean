/-
# Address spaces

What a page directory means: which user pages are mapped, with which flags and contents, and which
entries the kernel's half has (`Space`).  The pages that the structure itself is made of are the
directory, its tables and the frames of its user pages (`owned`), as a multiset: a page that is used
twice would count twice.

Everything that the memory code does is a trade with the free list (`Trade`): what it holds, together
with what is free, is the same multiset before and after, and it writes to no other page.  So a
directory that shares no page with another one and with the free list (`Sound`) stays like that.

One lemma for each function says what it does to the space: `walkpgdir` may add an empty table, a
pass of `mappages` sets one entry.
-/
import Mathlib.Data.Nat.Bitwise
import Xv6.Lib.Holdings
import Xv6.Lib.Radix
import Xv6.Vm.Memory

namespace Xv6.Vm

open Function (update update_of_ne update_self)

open Bytes

/-! ## 1. Entries -/

/-- The pages below KERNBASE. -/
abbrev UPAGES : Nat := 524288

/-- All pages of an address space. -/
abbrev VPAGES : Nat := 1048576

section

variable {g f perm v : Nat}

theorem upage_lt (h : v < UPAGES) : v < VPAGES := lt_trans h (by decide)

theorem dir_lt (h : v < VPAGES) : v / NPTENTRIES < NPDENTRIES := Nat.div_lt_of_lt_mul h

theorem udir_lt (h : v < UPAGES) : v / NPTENTRIES < NPDENTRIES := dir_lt (upage_lt h)

theorem entry_addr (hf : f < PGSIZE) : pteAddr (g * PGSIZE ||| f) = g := by
  rw [pteAddr, show PGSIZE = 2 ^ 12 from rfl, Nat.or_div_two_pow,
    Nat.mul_div_cancel _ (by decide), Nat.div_eq_of_lt hf, Nat.or_zero]

theorem entry_flags (hf : f < PGSIZE) : pteFlags (g * PGSIZE ||| f) = f := by
  rw [pteFlags, show PGSIZE = 2 ^ 12 from rfl, Nat.or_mod_two_pow, Nat.mul_mod_left,
    Nat.zero_or, Nat.mod_eq_of_lt hf]

theorem entry_lt (hg : g < VPAGES) (hf : f < PGSIZE) : g * PGSIZE ||| f < 2 ^ 32 := by
  refine Nat.or_lt_two_pow ?_ (lt_trans hf (by decide))
  simp only [VPAGES, PGSIZE] at hg ⊢
  omega

theorem hasFlag_iff {w : Nat} (i : Nat) : hasFlag w (2 ^ i) = w.testBit i := by
  rw [hasFlag, Nat.and_two_pow]
  cases w.testBit i <;> simp

theorem hasFlag_present (w : Nat) : hasFlag w PTE_P = w.testBit 0 := hasFlag_iff 0

theorem hasFlag_user (w : Nat) : hasFlag w PTE_U = w.testBit 2 := hasFlag_iff 2

theorem hasFlag_zero (f : Nat) : hasFlag 0 f = false := by
  rw [hasFlag, Nat.zero_and]
  rfl

theorem present_or (w : Nat) : hasFlag (w ||| PTE_P) PTE_P = true := by
  rw [hasFlag_present, Nat.testBit_or]
  simp

theorem perm_lt (hp : perm < PGSIZE) : perm ||| PTE_P < PGSIZE :=
  Nat.or_lt_two_pow (n := 12) hp (by decide)

/-- The flags say whether a page is present. -/
theorem present_flags (w : Nat) : hasFlag (pteFlags w) PTE_P = hasFlag w PTE_P := by
  rw [hasFlag_present, hasFlag_present, pteFlags, show PGSIZE = 2 ^ 12 from rfl,
    Nat.testBit_mod_two_pow]
  simp

end

/-- The table that a directory entry leads to. -/
def nextTable (pde : Nat) : Option Nat := if hasFlag pde PTE_P then some (pteAddr pde) else none

/-- The table for the directory index `x`. -/
def table (m : Nat → Bytes) (d x : Nat) : Option Nat := Radix.table nextTable m d x

/-- The entry of the virtual page `v`. -/
def pte (m : Nat → Bytes) (d v : Nat) : Nat := Radix.leaf NPTENTRIES nextTable m d v

/-- The frame of the user page `v`. -/
def frame (m : Nat → Bytes) (d v : Nat) : Option Nat :=
  if v < UPAGES ∧ hasFlag (pte m d v) PTE_P = true then some (pteAddr (pte m d v)) else none

/-! ## 2. The pages of an address space -/

/-- Where an address space can hold a page. -/
inductive Loc
  | dir
  | tab (x : Nat)
  | frame (v : Nat)
  deriving DecidableEq

/-- The page that is there. -/
def holds (m : Nat → Bytes) (d : Nat) : Loc → Option Nat
  | .dir => some d
  | .tab x => table m d x
  | .frame v => frame m d v

/-- All places of an address space. -/
@[irreducible] def locs : Finset Loc :=
  insert .dir ((Finset.range NPDENTRIES).image .tab ∪ (Finset.range UPAGES).image .frame)

theorem dir_mem : Loc.dir ∈ locs := by
  unfold locs
  exact Finset.mem_insert_self ..

theorem tab_mem {x : Nat} : Loc.tab x ∈ locs ↔ x < NPDENTRIES := by
  unfold locs
  simp only [Finset.mem_insert, Finset.mem_union, Finset.mem_image, Finset.mem_range, reduceCtorEq,
    Loc.tab.injEq, and_false, exists_false, exists_eq_right, or_false, false_or]

theorem frame_mem {v : Nat} : Loc.frame v ∈ locs ↔ v < UPAGES := by
  unfold locs
  simp only [Finset.mem_insert, Finset.mem_union, Finset.mem_image, Finset.mem_range, reduceCtorEq,
    Loc.frame.injEq, and_false, exists_false, exists_eq_right, false_or]

/-- The pages that the address space `d` is made of. -/
def owned (m : Nat → Bytes) (d : Nat) : Multiset Nat := held locs (holds m d)

section

variable {m m' : Nat → Bytes} {d g t u v w x : Nat}

theorem mem_owned_dir : d ∈ owned m d := mem_held.mpr ⟨.dir, dir_mem, rfl⟩

theorem mem_owned_table (hx : x < NPDENTRIES) (h : table m d x = some t) : t ∈ owned m d :=
  mem_held.mpr ⟨.tab x, tab_mem.mpr hx, h⟩

theorem frame_lt (h : frame m d v = some g) : v < UPAGES := by
  unfold frame at h
  split at h
  next hv => exact hv.1
  next => cases h

/-- How the frame is found. -/
theorem frame_walk (h : frame m d v = some g) : ∃ t, table m d (v / NPTENTRIES) = some t ∧
    getWord (m t) (v % NPTENTRIES) = pte m d v ∧ hasFlag (pte m d v) PTE_P = true ∧
    pteAddr (pte m d v) = g := by
  unfold frame at h
  split at h
  next hv =>
    cases ht : table m d (v / NPTENTRIES) with
    | some t => exact ⟨t, rfl, (Radix.leaf_of_table ht).symm, hv.2, Option.some.inj h⟩
    | none =>
      have hzero : pte m d v = 0 := Radix.leaf_of_none ht
      rw [hzero, hasFlag_zero] at hv
      cases hv.2
  next => cases h

theorem frame_of_not_lt (h : ¬ v < UPAGES) : frame m d v = none := if_neg fun hc => h hc.1

theorem frame_loc (h : frame m d v = some g) : Loc.frame v ∈ locs := frame_mem.mpr (frame_lt h)

theorem mem_owned_frame (h : frame m d v = some g) : g ∈ owned m d :=
  mem_held.mpr ⟨.frame v, frame_loc h, h⟩

/-- No page is in two places. -/
theorem loc_unique (h : (owned m d).Nodup) {l l' : Loc} (hl : l ∈ locs) (hl' : l' ∈ locs)
    (hg : holds m d l = some g) (hg' : holds m d l' = some g) : l = l' :=
  eq_of_nodup_held h hl hl' hg hg'

theorem table_ne_dir (h : (owned m d).Nodup) (hx : x < NPDENTRIES) (ht : table m d x = some t) :
    t ≠ d := by
  rintro rfl
  have heq : Loc.tab x = .dir := loc_unique h (tab_mem.mpr hx) dir_mem ht rfl
  cases heq

theorem table_inj (h : (owned m d).Nodup) {y : Nat} (hx : x < NPDENTRIES) (hy : y < NPDENTRIES)
    (ht : table m d x = some t) (ht' : table m d y = some t) : x = y := by
  have heq : Loc.tab x = .tab y := loc_unique h (tab_mem.mpr hx) (tab_mem.mpr hy) ht ht'
  exact Loc.tab.inj heq

theorem frame_ne_dir (h : (owned m d).Nodup) (hg : frame m d v = some g) : g ≠ d := by
  rintro rfl
  have heq : Loc.frame v = .dir := loc_unique h (frame_loc hg) dir_mem hg rfl
  cases heq

theorem frame_ne_table (h : (owned m d).Nodup) (hx : x < NPDENTRIES) (hg : frame m d v = some g)
    (ht : table m d x = some t) : g ≠ t := by
  rintro rfl
  have heq : Loc.frame v = .tab x := loc_unique h (frame_loc hg) (tab_mem.mpr hx) hg ht
  cases heq

theorem frame_inj (h : (owned m d).Nodup) (hg : frame m d v = some g) (hg' : frame m d u = some g) :
    v = u := by
  have heq : Loc.frame v = .frame u := loc_unique h (frame_loc hg) (frame_loc hg') hg hg'
  exact Loc.frame.inj heq

theorem frame_of_pte (h : pte m' d v = pte m d v) : frame m' d v = frame m d v := by
  rw [frame, frame, h]

theorem owned_congr (ht : ∀ x, x < NPDENTRIES → table m' d x = table m d x)
    (hp : ∀ v, v < UPAGES → pte m' d v = pte m d v) : owned m' d = owned m d := by
  refine held_congr fun l hl => ?_
  cases l with
  | dir => rfl
  | tab x => exact ht x (tab_mem.mp hl)
  | frame v => exact frame_of_pte (hp v (frame_mem.mp hl))

/-- Directory and tables, and nothing else, say what is mapped where. -/
theorem tree_of_tables (hd : m' d = m d)
    (ht : ∀ x t, x < NPDENTRIES → table m d x = some t → m' t = m t) :
    (∀ x, table m' d x = table m d x) ∧ ∀ v, v < VPAGES → pte m' d v = pte m d v :=
  ⟨fun _ => Radix.table_congr hd, fun _ hv => Radix.leaf_congr hd fun t => ht _ t (dir_lt hv)⟩

theorem tree_congr (h : ∀ g ∈ owned m d, m' g = m g) :
    (∀ x, table m' d x = table m d x) ∧ ∀ v, v < VPAGES → pte m' d v = pte m d v :=
  tree_of_tables (h d mem_owned_dir) fun _ t hx ht => h t (mem_owned_table hx ht)

theorem frame_of_agree (h : ∀ g ∈ owned m d, m' g = m g) : frame m' d v = frame m d v := by
  by_cases hv : v < UPAGES
  · exact frame_of_pte ((tree_congr h).2 v (upage_lt hv))
  · rw [frame_of_not_lt hv, frame_of_not_lt hv]

end

/-! ## 3. What is mapped -/

/-- An address space: the flags and the contents of the user pages, the entries of the kernel's
pages, and for which directory entries of the kernel's half there is a table. -/
structure Space where
  user : Nat → Option (Nat × Bytes)
  kern : Nat → Nat
  ktab : Nat → Bool

namespace Space

/-- The user page `v` is set. -/
def setUser (S : Space) (v : Nat) (e : Option (Nat × Bytes)) : Space :=
  { S with user := Function.update S.user v e }

/-- There is a table for the directory entry `x`. -/
def addTable (S : Space) (x : Nat) : Space :=
  if 512 ≤ x then { S with ktab := Function.update S.ktab x true } else S

/-- The entry of the kernel's page `v` is set. -/
def setKern (S : Space) (v w : Nat) : Space := { S with kern := Function.update S.kern v w }

end Space

/-- The address space of a directory. -/
def space (m : Nat → Bytes) (d : Nat) : Space where
  user v := (frame m d v).map fun g => (pteFlags (pte m d v), m g)
  kern v := if UPAGES ≤ v ∧ v < VPAGES then pte m d v else 0
  ktab x := decide (512 ≤ x ∧ x < NPDENTRIES) && (table m d x).isSome

section

variable {m m' : Nat → Bytes} {d g t u v w x : Nat}

theorem user_eq_none : (space m d).user v = none ↔ frame m d v = none := Option.map_eq_none_iff

theorem exists_frame (h : ((space m d).user v).isSome = true) : ∃ g, frame m d v = some g := by
  cases hf : frame m d v with
  | some g => exact ⟨g, rfl⟩
  | none =>
    rw [user_eq_none.mpr hf] at h
    cases h

theorem user_of_frame (h : frame m d v = some g) :
    (space m d).user v = some (pteFlags (pte m d v), m g) := by
  simp only [space, h, Option.map_some]

/-- The kernel's half depends on directory and tables. -/
theorem kern_of_tree (ht : ∀ x, table m' d x = table m d x)
    (hp : ∀ v, v < VPAGES → pte m' d v = pte m d v) :
    (space m' d).kern = (space m d).kern ∧ (space m' d).ktab = (space m d).ktab := by
  constructor
  · funext v
    by_cases hv : UPAGES ≤ v ∧ v < VPAGES
    · simp only [space, if_pos hv]
      exact hp v hv.2
    · simp only [space, if_neg hv]
  · funext x
    simp only [space, ht x]

/-- What is mapped depends on the pages of the address space. -/
theorem space_congr (h : ∀ g ∈ owned m d, m' g = m g) : space m' d = space m d := by
  obtain ⟨ht, hp⟩ := tree_congr h
  have huser : (space m' d).user = (space m d).user := by
    funext v
    have hframe := frame_of_agree (v := v) h
    cases hf : frame m d v with
    | none => rw [user_eq_none.mpr hf, user_eq_none.mpr (hframe.trans hf)]
    | some g =>
      rw [user_of_frame hf, user_of_frame (hframe.trans hf), hp v (upage_lt (frame_lt hf)),
        h g (mem_owned_frame hf)]
  obtain ⟨hkern, hktab⟩ := kern_of_tree ht hp
  calc space m' d = ⟨(space m' d).user, (space m' d).kern, (space m' d).ktab⟩ := rfl
    _ = space m d := by rw [huser, hkern, hktab]

theorem owned_of_agree (h : ∀ g ∈ owned m d, m' g = m g) : owned m' d = owned m d := by
  obtain ⟨ht, hp⟩ := tree_congr h
  exact owned_congr (fun x _ => ht x) fun v hv => hp v (upage_lt hv)

/-! ### An entry is stored -/

/-- The memory after a word has been stored in the entry of page `v`, in its table `t`. -/
def stored (m : Nat → Bytes) (t v w : Nat) : Nat → Bytes :=
  Function.update m t (setWord (m t) (v % NPTENTRIES) w)

variable (hn : (owned m d).Nodup) (hv : v < VPAGES) (ht : table m d (v / NPTENTRIES) = some t)
  (hw : w < 2 ^ 32)

include hn hv ht

theorem stored_table (x : Nat) : table (stored m t v w) d x = table m d x :=
  Radix.table_congr (update_of_ne (table_ne_dir hn (dir_lt hv) ht).symm ..)

include hw

theorem stored_pte (hu : u < VPAGES) :
    pte (stored m t v w) d u = if u = v then w else pte m d u := by
  have h := Radix.leaf_store (N := NPTENTRIES) (w := w) (u := u) ht
    (table_ne_dir hn (dir_lt hv) ht) fun hsame => table_inj hn (dir_lt hu) (dir_lt hv) hsame ht
  rwa [Nat.mod_eq_of_lt hw] at h

/-- The other pages keep their frames. -/
theorem stored_frame (hu : u ≠ v) : frame (stored m t v w) d u = frame m d u := by
  by_cases hlt : u < UPAGES
  · refine frame_of_pte ?_
    rw [stored_pte hn hv ht hw (upage_lt hlt), if_neg hu]
  · rw [frame_of_not_lt hlt, frame_of_not_lt hlt]

theorem stored_frame_self (hlt : v < UPAGES) : frame (stored m t v w) d v =
    if hasFlag w PTE_P = true then some (pteAddr w) else none := by
  rw [frame, stored_pte hn hv ht hw hv, if_pos rfl]
  by_cases hp : hasFlag w PTE_P = true
  · rw [if_pos ⟨hlt, hp⟩, if_pos hp]
  · rw [if_neg fun hc => hp hc.2, if_neg hp]

/-- A user entry moves its frame in or out. -/
theorem owned_stored (hlt : v < UPAGES) : owned (stored m t v w) d + bag (frame m d v) =
    owned m d + bag (frame (stored m t v w) d v) := by
  have hchange := held_change (f := holds m d) (g := holds (stored m t v w) d)
    (frame_mem.mpr hlt) fun l hl hne => ?_
  · exact hchange
  cases l with
  | dir => rfl
  | tab x => exact stored_table hn hv ht x
  | frame u => exact stored_frame hn hv ht hw fun e => hne (e ▸ rfl)

/-- An entry of the kernel holds no page. -/
theorem owned_stored_kern (hge : UPAGES ≤ v) : owned (stored m t v w) d = owned m d := by
  refine owned_congr (fun x _ => stored_table hn hv ht x) fun u hu => ?_
  rw [stored_pte hn hv ht hw (upage_lt hu), if_neg (Nat.ne_of_lt (Nat.lt_of_lt_of_le hu hge))]

/-- The contents of the other pages stay. -/
theorem stored_user (hu : u ≠ v) : (space (stored m t v w) d).user u = (space m d).user u := by
  have hframe := stored_frame hn hv ht hw hu
  cases hf : frame m d u with
  | none => rw [user_eq_none.mpr hf, user_eq_none.mpr (hframe.trans hf)]
  | some g =>
    have hlt := frame_lt hf
    have hgt : g ≠ t := frame_ne_table hn (dir_lt hv) hf ht
    rw [user_of_frame hf, user_of_frame (hframe.trans hf), stored_pte hn hv ht hw (upage_lt hlt),
      if_neg hu]
    rw [stored, update_of_ne hgt]

omit hw in
theorem stored_ktab : (space (stored m t v w) d).ktab = (space m d).ktab := by
  funext x
  simp only [space, stored_table hn hv ht x]

/-- **The entry of a user page is stored.** -/
theorem space_stored_user (hlt : v < UPAGES) : space (stored m t v w) d =
    (space m d).setUser v ((space (stored m t v w) d).user v) := by
  have huser : (space (stored m t v w) d).user =
      update (space m d).user v ((space (stored m t v w) d).user v) := by
    funext u
    by_cases hu : u = v
    · rw [hu, update_self]
    · rw [update_of_ne hu, stored_user hn hv ht hw hu]
  have hkern : (space (stored m t v w) d).kern = (space m d).kern := by
    funext u
    by_cases hu : UPAGES ≤ u ∧ u < VPAGES
    · simp only [space, if_pos hu]
      rw [stored_pte hn hv ht hw hu.2, if_neg (by omega)]
    · simp only [space, if_neg hu]
  calc space (stored m t v w) d
      = ⟨(space (stored m t v w) d).user, (space (stored m t v w) d).kern,
          (space (stored m t v w) d).ktab⟩ := rfl
    _ = ⟨update (space m d).user v ((space (stored m t v w) d).user v),
          (space m d).kern, (space m d).ktab⟩ := by
        rw [hkern, stored_ktab hn hv ht, ← huser]
    _ = (space m d).setUser v ((space (stored m t v w) d).user v) := rfl

/-- **The entry of a page of the kernel is stored.** -/
theorem space_stored_kern (hge : UPAGES ≤ v) :
    space (stored m t v w) d = (space m d).setKern v w := by
  have huser : (space (stored m t v w) d).user = (space m d).user := by
    funext u
    by_cases hu : u = v
    · have hout : ¬ u < UPAGES := hu ▸ not_lt.mpr hge
      rw [user_eq_none.mpr (frame_of_not_lt hout), user_eq_none.mpr (frame_of_not_lt hout)]
    · exact stored_user hn hv ht hw hu
  have hkern : (space (stored m t v w) d).kern = update (space m d).kern v w := by
    funext u
    by_cases hu : u = v
    · subst hu
      rw [update_self]
      simp only [space, if_pos (show UPAGES ≤ u ∧ u < VPAGES from ⟨hge, hv⟩)]
      rw [stored_pte hn hv ht hw hv, if_pos rfl]
    · rw [update_of_ne hu]
      by_cases hr : UPAGES ≤ u ∧ u < VPAGES
      · simp only [space, if_pos hr]
        rw [stored_pte hn hv ht hw hr.2, if_neg hu]
      · simp only [space, if_neg hr]
  calc space (stored m t v w) d
      = ⟨(space (stored m t v w) d).user, (space (stored m t v w) d).kern,
          (space (stored m t v w) d).ktab⟩ := rfl
    _ = (space m d).setKern v w := by rw [huser, hkern, stored_ktab hn hv ht, Space.setKern]

end

/-! ### An empty table is added -/

/-- The memory after the free page `g` has become the table for the directory entry `x`. -/
def linked (m : Nat → Bytes) (d g x : Nat) : Nat → Bytes :=
  Function.update (Function.update m g fun _ => 0) d
    (setWord (m d) x (g * PGSIZE ||| PTE_P ||| PTE_W ||| PTE_U))

section

variable {m : Nat → Bytes} {d g u v x y : Nat}

theorem nextTable_new (g : Nat) :
    nextTable (g * PGSIZE ||| PTE_P ||| PTE_W ||| PTE_U) = some g := by
  rw [Nat.or_assoc, Nat.or_assoc, nextTable, entry_addr (by decide), if_pos]
  rw [← present_flags, entry_flags (by decide)]
  decide

variable (hg : g ∉ owned m d) (hx : x < NPDENTRIES) (hnone : table m d x = none) (hlt : g < VPAGES)

include hlt

theorem linked_table : table (linked m d g x) d y = if y = x then some g else table m d y := by
  refine Radix.table_link y (nextTable_new g) ?_
  rw [Nat.or_assoc, Nat.or_assoc]
  exact entry_lt hlt (by decide)

include hg hnone

theorem linked_pte (hn : (owned m d).Nodup) (hu : u < VPAGES) :
    pte (linked m d g x) d u = pte m d u := by
  refine Radix.leaf_link hnone (nextTable_new g) ?_ (fun e => hg (e ▸ mem_owned_dir)) ?_
  · rw [Nat.or_assoc, Nat.or_assoc]
    exact entry_lt hlt (by decide)
  · intro t ht
    refine ⟨?_, table_ne_dir hn (dir_lt hu) ht⟩
    rintro rfl
    exact hg (mem_owned_table (dir_lt hu) ht)

theorem linked_frame (hn : (owned m d).Nodup) : frame (linked m d g x) d u = frame m d u := by
  by_cases hu : u < UPAGES
  · exact frame_of_pte (linked_pte hg hnone hlt hn (upage_lt hu))
  · rw [frame_of_not_lt hu, frame_of_not_lt hu]

include hx

theorem owned_linked (hn : (owned m d).Nodup) : owned (linked m d g x) d = {g} + owned m d := by
  have hchange := held_change (f := holds m d) (g := holds (linked m d g x) d)
    (tab_mem.mpr hx) fun l hl hne => ?_
  · have hold : holds m d (.tab x) = none := hnone
    have hnew : holds (linked m d g x) d (.tab x) = some g :=
      (linked_table hlt).trans (if_pos rfl)
    rw [hold, hnew, bag_none, bag_some, add_zero, add_comm] at hchange
    exact hchange
  cases l with
  | dir => rfl
  | tab y => exact (linked_table hlt).trans (if_neg fun e : y = x => hne (by rw [e]))
  | frame u => exact linked_frame hg hnone hlt hn

/-- **An empty table is added.** -/
theorem space_linked (hn : (owned m d).Nodup) :
    space (linked m d g x) d = (space m d).addTable x := by
  have huser : (space (linked m d g x) d).user = (space m d).user := by
    funext u
    have hframe := linked_frame hg hnone hlt hn (u := u)
    cases hf : frame m d u with
    | none => rw [user_eq_none.mpr hf, user_eq_none.mpr (hframe.trans hf)]
    | some h =>
      have hne : h ≠ g := fun e => hg (e ▸ mem_owned_frame hf)
      rw [user_of_frame hf, user_of_frame (hframe.trans hf),
        linked_pte hg hnone hlt hn (upage_lt (frame_lt hf)), linked,
        update_of_ne (frame_ne_dir hn hf), update_of_ne hne]
  have hkern : (space (linked m d g x) d).kern = (space m d).kern := by
    funext u
    by_cases hr : UPAGES ≤ u ∧ u < VPAGES
    · simp only [space, if_pos hr]
      exact linked_pte hg hnone hlt hn hr.2
    · simp only [space, if_neg hr]
  have hktab : (space (linked m d g x) d).ktab = ((space m d).addTable x).ktab := by
    funext y
    rw [Space.addTable]
    split
    next h512 =>
      by_cases hy : y = x
      · subst hy
        simp only [space, update_self, linked_table hlt, if_true, Option.isSome_some,
          Bool.and_true, decide_eq_true_eq]
        exact ⟨h512, hx⟩
      · simp only [space, update_of_ne hy, linked_table hlt, if_neg hy]
    next h512 =>
      by_cases hy : y = x
      · subst hy
        simp only [space, h512, false_and, decide_false, Bool.false_and]
      · simp only [space, linked_table hlt, if_neg hy]
  have hsame : ((space m d).addTable x).user = (space m d).user ∧
      ((space m d).addTable x).kern = (space m d).kern := by
    rw [Space.addTable]
    split <;> exact ⟨rfl, rfl⟩
  calc space (linked m d g x) d
      = ⟨(space (linked m d g x) d).user, (space (linked m d g x) d).kern,
          (space (linked m d g x) d).ktab⟩ := rfl
    _ = (space m d).addTable x := by rw [huser, hkern, hktab, ← hsame.1, ← hsame.2]

end

/-! ### A frame is filled -/

section

variable {m : Nat → Bytes} {d g v : Nat} (hn : (owned m d).Nodup) (hf : frame m d v = some g)
  (b : Bytes)

include hn hf

theorem fill_tree : (∀ x, table (update m g b) d x = table m d x) ∧
    ∀ u, u < VPAGES → pte (update m g b) d u = pte m d u := by
  refine tree_of_tables (update_of_ne (frame_ne_dir hn hf).symm ..) fun x t hx ht => ?_
  exact update_of_ne (frame_ne_table hn hx hf ht).symm ..

theorem fill_frame (u : Nat) : frame (update m g b) d u = frame m d u := by
  by_cases hu : u < UPAGES
  · exact frame_of_pte ((fill_tree hn hf b).2 u (upage_lt hu))
  · rw [frame_of_not_lt hu, frame_of_not_lt hu]

theorem owned_fill : owned (update m g b) d = owned m d := by
  obtain ⟨ht, hp⟩ := fill_tree hn hf b
  exact owned_congr (fun x _ => ht x) fun u hu => hp u (upage_lt hu)

theorem space_fill : space (update m g b) d =
    (space m d).setUser v (some (pteFlags (pte m d v), b)) := by
  obtain ⟨ht, hp⟩ := fill_tree hn hf b
  have huser : (space (update m g b) d).user =
      update (space m d).user v (some (pteFlags (pte m d v), b)) := by
    funext u
    have hframe := fill_frame hn hf b u
    by_cases hu : u = v
    · subst hu
      rw [update_self, user_of_frame (hframe.trans hf), hp u (upage_lt (frame_lt hf)),
        update_self]
    · rw [update_of_ne hu]
      cases hfu : frame m d u with
      | none => rw [user_eq_none.mpr hfu, user_eq_none.mpr (hframe.trans hfu)]
      | some k =>
        have hkg : k ≠ g := fun e => hu (frame_inj hn (e ▸ hfu) hf)
        rw [user_of_frame hfu, user_of_frame (hframe.trans hfu), hp u (upage_lt (frame_lt hfu)),
          update_of_ne hkg]
  obtain ⟨hkern, hktab⟩ := kern_of_tree ht hp
  calc space (update m g b) d = ⟨(space (update m g b) d).user,
        (space (update m g b) d).kern, (space (update m g b) d).ktab⟩ := rfl
    _ = (space m d).setUser v (some (pteFlags (pte m d v), b)) := by
      rw [huser, hkern, hktab, Space.setUser]

end

/-! ### An empty directory -/

/-- Nothing is mapped. -/
def Space.empty : Space where
  user _ := none
  kern _ := 0
  ktab _ := false

section

variable {m : Nat → Bytes} {d : Nat} (h : m d = fun _ => 0)

include h

theorem empty_table (x : Nat) : table m d x = none := by
  rw [table, Radix.table, h, getWord_zero]
  decide

theorem empty_pte (v : Nat) : pte m d v = 0 := Radix.leaf_of_none (empty_table h _)

theorem empty_frame (v : Nat) : frame m d v = none := by
  rw [frame, empty_pte h]
  exact if_neg fun hc => absurd hc.2 (by decide)

theorem owned_empty : owned m d = {d} := by
  have hzero : held (locs.erase .dir) (holds m d) = 0 := by
    refine held_eq_zero fun l hl => ?_
    cases l with
    | dir => exact absurd rfl (Finset.ne_of_mem_erase hl)
    | frame v => exact empty_frame h v
    | tab x => exact empty_table h x
  rw [owned, held_erase dir_mem, hzero, add_zero]
  rfl

theorem space_empty : space m d = .empty := by
  have huser : (space m d).user = fun _ => none := by
    funext v
    exact user_eq_none.mpr (empty_frame h v)
  have hkern : (space m d).kern = fun _ => 0 := by
    funext v
    simp only [space, empty_pte h, ite_self]
  have hktab : (space m d).ktab = fun _ => false := by
    funext x
    simp only [space, empty_table h, Option.isSome_none, Bool.and_false]
  calc space m d = ⟨(space m d).user, (space m d).kern, (space m d).ktab⟩ := rfl
    _ = .empty := by rw [huser, hkern, hktab, Space.empty]

end

end Xv6.Vm
