/-
# `setupkvm` and `copyuvm`

`kernSpace L` is the address space that `setupkvm` builds: the ranges of the table `kmap`, mapped
one after the other, and no user page.  `copyuvm` adds the user pages of another address space, with
the same flags and contents.  Both of them take every page from the free list; when a page is
missing they put all of them back.

The copy can never run into the kernel's half: its frames are different pages of the allocator, and
there are fewer of these than user pages (`Sound.mapped_le`).
-/
import Xv6.Vm.Grow

namespace Xv6.Vm

open Bytes

/-! ## 1. `setupkvm` -/

namespace Kmap

/-- The first page of the range, the number of its pages, and its first frame. -/
def vpage (k : Kmap) : Nat := k.virt / PGSIZE

def pages (k : Kmap) : Nat := sub32 k.physEnd k.physStart / PGSIZE

def ppage (k : Kmap) : Nat := k.physStart / PGSIZE

/-- The range consists of pages of the kernel. -/
structure Ok (k : Kmap) : Prop where
  virt : k.virt = k.vpage * PGSIZE
  size : sub32 k.physEnd k.physStart = k.pages * PGSIZE
  phys : k.physStart = k.ppage * PGSIZE
  perm : k.perm < PGSIZE
  pos : 1 ≤ k.pages
  ge : UPAGES ≤ k.vpage
  le : k.vpage + k.pages ≤ VPAGES
  phys_le : k.ppage + k.pages ≤ VPAGES

/-- The first range ends before the second begins. -/
def Before (k l : Kmap) : Prop := k.vpage + k.pages ≤ l.vpage

theorem ok_of_pages {k : Kmap} {v n q : Nat} (hvirt : k.virt = v * PGSIZE)
    (hsize : sub32 k.physEnd k.physStart = n * PGSIZE) (hphys : k.physStart = q * PGSIZE)
    (hp : k.perm < PGSIZE) (hn : 1 ≤ n) (hv : UPAGES ≤ v) (hle : v + n ≤ VPAGES)
    (hq : q + n ≤ VPAGES) : k.Ok ∧ k.vpage = v ∧ k.pages = n := by
  have hvpage : k.vpage = v := by rw [vpage, hvirt, Nat.mul_div_cancel _ (by decide)]
  have hpages : k.pages = n := by rw [pages, hsize, Nat.mul_div_cancel _ (by decide)]
  have hppage : k.ppage = q := by rw [ppage, hphys, Nat.mul_div_cancel _ (by decide)]
  subst hvpage hpages hppage
  exact ⟨⟨hvirt, hsize, hphys, hp, hn, hv, hle, hq⟩, rfl, rfl⟩

end Kmap

/-- The range is mapped. -/
def Space.mapKmap (S : Space) (k : Kmap) : Space := S.mapKern k.vpage k.pages k.ppage k.perm

/-- **The kernel's address space.** -/
def kernSpace (L : Layout) : Space := (kmap L).foldl Space.mapKmap .empty

section

variable {L : Layout} {N d : Nat} {s : Phys} {E : Fault → Prop}

theorem sub32_page {a b : Nat} (h : a ≤ b) (hb : b < VPAGES) :
    sub32 (b * PGSIZE) (a * PGSIZE) = (b - a) * PGSIZE := by
  rw [sub32]
  simp only [PGSIZE, VPAGES] at *
  omega

/-- The table consists of ranges of pages, one behind the other, if the kernel ends below
`PHYSTOP`. -/
theorem kmap_ok (h : L.data < PHYSTOP / PGSIZE) :
    (∀ k ∈ kmap L, k.Ok) ∧ (kmap L).Pairwise Kmap.Before ∧
      (kmap L).map (fun k => (k.vpage, k.pages)) = [(UPAGES, 256), (UPAGES + 256, L.data - 256),
        (UPAGES + L.data, 57344 - L.data), (1040384, 8192)] := by
  have htext := L.text
  have hW : PTE_W < PGSIZE := by decide
  have h₂ := sub32_page htext.le (lt_trans h (by decide))
  have h₃ := sub32_page h.le (by decide)
  simp only [EXTMEM, PHYSTOP, PGSIZE] at h htext
  obtain ⟨ok₁, v₁, n₁⟩ := Kmap.ok_of_pages (k := ⟨KERNBASE, 0, EXTMEM, PTE_W⟩) (v := UPAGES)
    (n := 256) (q := 0) rfl rfl rfl hW (by decide) le_rfl (by decide) (by decide)
  obtain ⟨ok₂, v₂, n₂⟩ := Kmap.ok_of_pages (k := ⟨KERNLINK, EXTMEM, L.data * PGSIZE, 0⟩)
    (v := UPAGES + 256) (n := L.data - 256) (q := 256) rfl h₂ rfl (Nat.zero_lt_of_lt hW) (by omega)
    (by decide)
    (by simp only [UPAGES, VPAGES]; omega) (by simp only [VPAGES]; omega)
  obtain ⟨ok₃, v₃, n₃⟩ := Kmap.ok_of_pages
    (k := ⟨KERNBASE + L.data * PGSIZE, L.data * PGSIZE, PHYSTOP, PTE_W⟩)
    (v := UPAGES + L.data) (n := 57344 - L.data) (q := L.data) (by rw [Nat.add_mul]; rfl) h₃ rfl hW
    (by omega) (by omega) (by simp only [UPAGES, VPAGES]; omega) (by simp only [VPAGES]; omega)
  obtain ⟨ok₄, v₄, n₄⟩ := Kmap.ok_of_pages (k := ⟨DEVSPACE, DEVSPACE, 0, PTE_W⟩) (v := 1040384)
    (n := 8192) (q := 1040384) rfl rfl rfl hW (by decide) (by decide) (by decide) (by decide)
  refine ⟨?_, ?_, ?_⟩
  · intro k hk
    simp only [kmap, List.mem_cons, List.not_mem_nil, or_false] at hk
    rcases hk with rfl | rfl | rfl | rfl
    · exact ok₁
    · exact ok₂
    · exact ok₃
    · exact ok₄
  · simp only [kmap, List.pairwise_cons, List.mem_cons, List.not_mem_nil, or_false,
      forall_eq_or_imp, forall_eq, Kmap.Before, v₁, n₁, v₂, n₂, v₃, n₃, v₄, false_implies,
      implies_true, List.Pairwise.nil, and_true]
    simp only [UPAGES]
    omega
  · simp only [kmap, List.map_cons, List.map_nil, v₁, n₁, v₂, n₂, v₃, n₃, v₄, n₄]

/-- What `setupkvm` does. -/
inductive Setup (L : Layout) (N : Nat) (s : Phys) : Option Nat → Phys → Prop
  | ok {d : Nat} {s' : Phys} : Trade N 0 (owned s'.page d) s s' →
    space s'.page d = kernSpace L → Setup L N s (some d) s'
  | fail {s' : Phys} : Trade N 0 0 s s' → s.denied < s'.denied → Setup L N s none s'

theorem wp_setupkvmLoop (hN : 1025 ≤ N) : ∀ (ks : List Kmap) {s₁ : Phys}, (∀ k ∈ ks, k.Ok) →
    ks.Pairwise Kmap.Before → Sound L (owned s₁.page d) s₁ →
    Trade N 0 (owned s₁.page d) s s₁ → (space s₁.page d).Below 0 →
    (∀ k ∈ ks, ∀ u, k.vpage ≤ u → hasFlag ((space s₁.page d).kern u) PTE_P = false) →
    ks.foldl Space.mapKmap (space s₁.page d) = kernSpace L →
    wp (setupkvmLoop L d ks) (Setup L N s) E s₁ := by
  intro ks
  induction ks with
  | nil => exact fun _ _ _ htrade _ _ hall => .ok htrade hall
  | cons k ks ih =>
    intro s₁ hok hpair hs₁ htrade hbelow hclear hall
    have hk := hok k List.mem_cons_self
    rw [List.pairwise_cons] at hpair
    simp only [setupkvmLoop, wp_bind]
    rw [hk.virt, hk.size, hk.phys]
    refine wp_conseq (wp_mappages_kern (N := N) hk.perm hN hk.pos hk.ge hk.le hk.phys_le hs₁ hbelow
      fun u hu _ => hclear k List.mem_cons_self u hu) ?_
    rintro _ s₂ (⟨htrade₂, hspace₂⟩ | ⟨htrade₂, hden₂⟩)
    · rw [if_neg (lt_irrefl _)]
      refine ih (fun l hl => hok l (List.mem_cons_of_mem _ hl)) hpair.2 (hs₁.trade htrade₂)
        (htrade.trans htrade₂) ?_ (fun l hl u hu => ?_) ?_
      · rw [hspace₂]
        exact hbelow
      · have hafter : k.vpage + k.pages ≤ u := (hpair.1 l hl).trans hu
        have hpos := hk.pos
        rw [hspace₂, Space.mapKern]
        dsimp only
        rw [if_neg (by omega)]
        exact hclear k List.mem_cons_self u (by omega)
      · rw [hspace₂]
        exact hall
    · rw [if_pos (by decide)]
      simp only [wp_bind, wp_pure]
      refine wp_conseq (wp_freevm (N := N) (hs₁.trade htrade₂)) ?_
      rintro _ s₃ ⟨htrade₃, hden₃⟩
      refine .fail (htrade.trans (htrade₂.trans htrade₃)) ?_
      rw [hden₃]
      exact lt_of_le_of_lt htrade.denied hden₂

/-- **`setupkvm`.** -/
theorem wp_setupkvm (h : Sound L 0 s) (hN : 1025 ≤ N) : wp (setupkvm L) (Setup L N s) E s := by
  simp only [setupkvm, wp_bind]
  refine wp_conseq (wp_kalloc (N := N) (A := 0) (Nat.zero_le _)) ?_
  rintro _ s₁ (⟨htrade₁, hpage₁, hden₁⟩ | ⟨htrade₁, hpage₁, hfree⟩)
  · exact .fail htrade₁ hden₁
  rename_i d
  rw [add_zero] at htrade₁
  have hpool : L.Pool d := (h.trade htrade₁).pool_left (Multiset.mem_singleton_self d)
  have hdata : L.data < PHYSTOP / PGSIZE := lt_of_le_of_lt L.data_le (lt_of_le_of_lt hpool.1 hpool.2)
  simp only [wp_bind, wp_zeroPage, wp_ite, wp_throw]
  refine ⟨fun hc => absurd hc (by decide), fun _ => ?_⟩
  generalize hs₂ : ({ s₁ with page := Function.update s₁.page d fun _ => 0 } : Phys) = s₂
  have hzero : s₂.page d = fun _ => 0 := by
    rw [← hs₂]
    exact Function.update_self ..
  have hown : owned s₂.page d = {d} := owned_empty hzero
  have hspace : space s₂.page d = .empty := space_empty hzero
  have htrade₂ : Trade N 0 (owned s₂.page d) s s₂ := by
    rw [hown]
    refine htrade₁.trans (.write (fun x hx => ?_) (by rw [← hs₂]) (by rw [← hs₂]) (by rw [← hs₂]))
    rw [← hs₂]
    refine Function.update_of_ne ?_ ..
    rintro rfl
    exact hx (Multiset.mem_singleton_self _)
  refine wp_setupkvmLoop hN (kmap L) (kmap_ok hdata).1 (kmap_ok hdata).2.1 (h.trade htrade₂) htrade₂
    ?_ ?_ ?_
  · rw [hspace]
    exact fun _ _ => rfl
  · rw [hspace]
    exact fun _ _ _ _ => hasFlag_zero _
  · rw [hspace]
    rfl

theorem mapKmap_user (ks : List Kmap) (S : Space) :
    (ks.foldl Space.mapKmap S).user = S.user := by
  induction ks generalizing S with
  | nil => rfl
  | cons k ks ih => exact ih _

/-- The kernel's address space has no user page. -/
theorem kernSpace_user (L : Layout) : (kernSpace L).user = fun _ => none := mapKmap_user ..

end

/-! ## 2. `copyuvm` -/

/-- The user pages below page `K` are those of `T`. -/
def Space.copy (S T : Space) (K : Nat) : Space :=
  { S with user := fun v => if v < K then T.user v else S.user v }

section

variable {L : Layout} {N P d sz v K : Nat} {A : Multiset Nat} {s s₁ : Phys} {E : Fault → Prop}

/-- There are as many pages as the allocator has been given. -/
theorem Sound.mapped_le (h : Sound L (owned s.page d) s)
    (hmap : ∀ u, u < K → ((space s.page d).user u).isSome = true) : K ≤ PHYSTOP / PGSIZE := by
  have hframe : ∀ u, u < K → ∃ g, frame s.page d u = some g := fun u hu => exists_frame (hmap u hu)
  have hcard := Finset.card_le_card_of_injOn (s := Finset.range K)
    (t := Finset.range (PHYSTOP / PGSIZE)) (fun u => (frame s.page d u).getD 0) ?_ ?_
  · rwa [Finset.card_range, Finset.card_range] at hcard
  · intro u hu
    obtain ⟨g, hg⟩ := hframe u (Finset.mem_range.mp hu)
    simp only [hg, Option.getD_some, Finset.coe_range, Set.mem_Iio]
    exact (h.pool_left (mem_owned_frame hg)).2
  · intro u hu w hw heq
    obtain ⟨g, hg⟩ := hframe u (Finset.mem_range.mp hu)
    obtain ⟨k, hk⟩ := hframe w (Finset.mem_range.mp hw)
    simp only [hg, hk, Option.getD_some] at heq
    subst heq
    exact frame_inj h.nodup_left hg hk

theorem copy_zero (S T : Space) : S.copy T 0 = S := by
  simp only [Space.copy, Nat.not_lt_zero, if_false]

theorem copy_succ (S T : Space) (v : Nat) :
    (S.copy T v).setUser v (T.user v) = S.copy T (v + 1) := by
  rw [Space.setUser, Space.copy, Space.copy]
  congr 1
  funext u
  by_cases hu : u = v
  · rw [hu, Function.update_self, if_pos (Nat.lt_succ_self v)]
  · rw [Function.update_of_ne hu]
    dsimp only
    by_cases hlt : u < v
    · rw [if_pos hlt, if_pos (by omega)]
    · rw [if_neg hlt, if_neg (by omega)]

theorem pteFlags_lt (w : Nat) : pteFlags w < PGSIZE := Nat.mod_lt _ (by decide)

theorem flags_or_present {w : Nat} (h : hasFlag w PTE_P = true) :
    pteFlags w ||| PTE_P = pteFlags w := by
  have hbit : (pteFlags w).testBit 0 = true := by
    rw [← hasFlag_present, present_flags, h]
  refine Nat.eq_of_testBit_eq fun i => ?_
  rw [Nat.testBit_or]
  by_cases hi : i = 0
  · rw [hi, hbit, Bool.true_or]
  · rw [show PTE_P = 2 ^ 0 from rfl, Nat.testBit_two_pow_of_ne (Ne.symm hi), Bool.or_false]

/-- What the loop of `copyuvm` does to the new address space. -/
inductive Copy (L : Layout) (N P d sz : Nat) (s : Phys) : Bool → Phys → Prop
  | ok {s' : Phys} : npages sz ≤ PHYSTOP / PGSIZE →
    (∀ v, v < npages sz → ((space s.page P).user v).isSome = true) →
    Trade N 0 (owned s'.page d) s s' →
    space s'.page d = (kernSpace L).copy (space s.page P) (npages sz) → Copy L N P d sz s true s'
  | fail {s' : Phys} : Trade N 0 (owned s'.page d) s s' → s.denied < s'.denied →
    Copy L N P d sz s false s'

/-- A page that is not there has no table, or an entry that says so. -/
theorem missing_walk {m : Nat → Bytes} (hv : v < UPAGES)
    (h : ¬ ((space m P).user v).isSome = true) : table m P (v / NPTENTRIES) = none ∨
      ∃ t, table m P (v / NPTENTRIES) = some t ∧
        hasFlag (getWord (m t) (v % NPTENTRIES)) PTE_P = false := by
  cases htable : table m P (v / NPTENTRIES) with
  | none => exact .inl rfl
  | some t =>
    refine .inr ⟨t, rfl, ?_⟩
    have hw : pte m P v = getWord (m t) (v % NPTENTRIES) := Radix.leaf_of_table htable
    rw [← hw, ← Bool.not_eq_true]
    intro hpres
    rw [user_of_frame (if_pos ⟨hv, hpres⟩)] at h
    exact h rfl

theorem wp_copyuvmLoop (h : Sound L 0 s) (hP : ∀ g ∈ owned s.page P, g ∉ s.freelist)
    (hmap : ∀ v, v < npages sz → v < UPAGES →
      ((space s.page P).user v).isSome = true ∨ E .copyPte ∧ E .copyPage)
    (hN : 1026 + npages sz ≤ N) : ∀ {fuel v : Nat} {s₁ : Phys}, UPAGES - v < fuel →
    v ≤ npages sz → v ≤ UPAGES → (∀ u, u < v → ((space s.page P).user u).isSome = true) →
    Trade N 0 (owned s₁.page d) s s₁ → space s₁.page d = (kernSpace L).copy (space s.page P) v →
    wp (copyuvmLoop L P d sz fuel (v * PGSIZE)) (Copy L N P d sz s) E s₁ := by
  intro fuel
  induction fuel with
  | zero => exact fun hfuel => absurd hfuel (Nat.not_lt_zero _)
  | succ fuel ih =>
    intro v s₁ hfuel hv hvU hdone htrade₁ hspace₁
    have hs₁ := h.trade htrade₁
    have hagree : ∀ g ∈ owned s.page P, s₁.page g = s.page g := fun g hg =>
      htrade₁.outside g (by
        rw [zero_add]
        exact hP g hg)
    have hlow : v ≤ PHYSTOP / PGSIZE := by
      refine hs₁.mapped_le fun u hu => ?_
      rw [hspace₁, Space.copy]
      dsimp only
      rw [if_pos hu]
      exact hdone u hu
    have hvlt : v < UPAGES := lt_of_le_of_lt hlow (by decide)
    simp only [copyuvmLoop, wp_ite, wp_bind, wp_pure, page_lt]
    refine ⟨fun hmore => ?_, fun hlast => ?_⟩
    swap
    · obtain rfl : v = npages sz := by omega
      exact .ok hlow hdone htrade₁ hspace₁
    -- the page of the parent
    have hvV := upage_lt hvlt
    by_cases hsome : ((space s.page P).user v).isSome = true
    swap
    · obtain ⟨hpte, hpage⟩ := (hmap v hmore hvlt).resolve_left hsome
      rw [← space_congr hagree] at hsome
      rw [wp_walkpgdir_look hvV]
      rcases missing_walk hvlt hsome with hnone | ⟨t, htable, hw⟩
      · rw [hnone]
        exact hpte
      · rw [htable]
        simp only [Option.map_some, wp_bind, wp_load, wp_ite, wp_throw, hw, hpage, true_implies,
          true_and, not_true_eq_false, false_implies]
    obtain ⟨f, hf⟩ := exists_frame hsome
    obtain ⟨t, htable, hw, hpres, haddr⟩ := frame_walk hf
    have huser := user_of_frame hf
    generalize pte s.page P v = w at hw hpres haddr huser
    rw [← haddr] at hf huser
    have htable₁ : table s₁.page P (v / NPTENTRIES) = some t := by
      rw [(tree_congr hagree).1, htable]
    have hw₁ : getWord (s₁.page t) (v % NPTENTRIES) = w := by
      rw [hagree t (mem_owned_table (dir_lt hvV) htable), hw]
    rw [wp_walkpgdir_look hvV, htable₁]
    simp only [Option.map_some, wp_bind, wp_load, wp_ite, wp_throw, hw₁, hpres, Bool.true_eq_false,
      false_implies, true_and, not_false_eq_true, forall_const]
    have hbelow₁ : (space s₁.page d).Below v := by
      intro u hu
      rw [hspace₁, Space.copy]
      refine (if_neg (not_lt.mpr hu)).trans ?_
      rw [kernSpace_user]
    have hcard := card_owned_le hbelow₁
    refine wp_conseq (wp_kalloc (N := N) (A := owned s₁.page d) (by omega)) ?_
    rintro _ s₂ (⟨htrade₂, hpage₂, hden₂⟩ | ⟨htrade₂, hpage₂, -⟩)
    · -- there is no page
      refine .fail ?_ (lt_of_le_of_lt htrade₁.denied hden₂)
      rw [hpage₂]
      exact htrade₁.trans htrade₂
    rename_i g
    have hbytes : s₂.page (pteAddr w) = s.page (pteAddr w) := by
      rw [hpage₂, hagree _ (mem_owned_frame hf)]
    have hnew := wp_newPage (E := E) (b := s.page (pteAddr w)) hs₁ htrade₂ hpage₂
      (pteFlags_lt w) hvlt (hbelow₁ v le_rfl) (by omega)
    rw [wp_bind] at hnew
    simp only [wp_bind, wp_get, hbytes]
    refine wp_conseq hnew fun _ s₃ h₃ => wp_conseq h₃ ?_
    rintro _ s₄ (⟨htrade₄, hspace₄, -, -⟩ | ⟨htrade₄, -, -, hden₄⟩)
    · -- the page is copied
      have hadd : add32 (v * PGSIZE) PGSIZE = (v + 1) * PGSIZE := by
        refine add_page ?_
        simp only [UPAGES, VPAGES] at *
        omega
      rw [if_neg (lt_irrefl _), hadd]
      refine ih (by omega) (by omega) (by omega) (fun u hu => ?_) (htrade₁.trans htrade₄) ?_
      · rcases (Nat.lt_succ_iff.mp hu).lt_or_eq with hu | rfl
        · exact hdone u hu
        · exact hsome
      rw [hspace₄, hspace₁, flags_or_present hpres, ← huser, copy_succ]
    · -- there is no page for its table
      rw [if_pos (by decide)]
      simp only [wp_bind, wp_pure]
      have htrade₅ := htrade₁.trans htrade₄
      have hs₄ := h.trade htrade₅
      refine wp_conseq (wp_kfree (N := N) hs₄) ?_
      rintro _ s₅ ⟨htrade₆, hden₅, hpage₅⟩
      have hagree₅ : ∀ x ∈ owned s₄.page d, s₅.page x = s₄.page x := by
        rw [hpage₅]
        exact agree_inHand _ hs₄.nodup_left
      refine .fail ?_ ?_
      · rw [owned_of_agree hagree₅]
        exact htrade₅.trans htrade₆
      · rw [hden₅]
        exact lt_of_le_of_lt htrade₁.denied hden₄

/-- What `copyuvm` does. -/
inductive Copied (L : Layout) (N P sz : Nat) (s : Phys) : Option Nat → Phys → Prop
  | ok {d : Nat} {s' : Phys} : npages sz ≤ PHYSTOP / PGSIZE →
    (∀ v, v < npages sz → ((space s.page P).user v).isSome = true) →
    Trade N 0 (owned s'.page d) s s' →
    space s'.page d = (kernSpace L).copy (space s.page P) (npages sz) →
    Copied L N P sz s (some d) s'
  | fail {s' : Phys} : Trade N 0 0 s s' → s.denied < s'.denied → Copied L N P sz s none s'

theorem wp_copyuvm (h : Sound L 0 s) (hP : ∀ g ∈ owned s.page P, g ∉ s.freelist)
    (hmap : ∀ v, v < npages sz → v < UPAGES →
      ((space s.page P).user v).isSome = true ∨ E .copyPte ∧ E .copyPage)
    (hN : 1026 + npages sz ≤ N) : wp (copyuvm L P sz) (Copied L N P sz s) E s := by
  simp only [copyuvm, wp_bind]
  refine wp_conseq (wp_setupkvm (N := N) h (by omega)) ?_
  rintro _ s₁ (⟨htrade₁, hspace₁⟩ | ⟨htrade₁, hden₁⟩)
  swap
  · exact .fail htrade₁ hden₁
  rename_i d
  have hloop : wp (copyuvmLoop L P d sz NPAGES (0 * PGSIZE)) (Copy L N P d sz s) E s₁ := by
    refine wp_copyuvmLoop h hP hmap hN (by decide) (Nat.zero_le _) (Nat.zero_le _)
      (fun u hu => absurd hu (Nat.not_lt_zero u)) htrade₁ ?_
    rw [hspace₁, copy_zero]
  rw [Nat.zero_mul] at hloop
  simp only [wp_bind]
  refine wp_conseq hloop ?_
  rintro _ s₂ (⟨hle, hall, htrade₂, hspace₂⟩ | ⟨htrade₂, hden₂⟩)
  · exact .ok hle hall htrade₂ hspace₂
  · simp only [Bool.false_eq_true, if_false, wp_bind, wp_pure]
    refine wp_conseq (wp_freevm (N := N) (h.trade htrade₂)) ?_
    rintro _ s₃ ⟨htrade₃, hden₃⟩
    refine .fail (htrade₂.trans htrade₃) ?_
    rw [hden₃]
    exact hden₂

/-- The address space `d` is a copy of the first `sz` bytes of `P`. -/
structure IsCopy (L : Layout) (P sz d : Nat) (s s' : Phys) : Prop where
  le : npages sz ≤ UPAGES
  /-- Every page has the flags and the contents of the page of the parent, and there are no more. -/
  same : ∀ v, v < npages sz → (space s'.page d).user v = (space s.page P).user v
  above : (space s'.page d).Below (npages sz)
  kern : (space s'.page d).kern = (kernSpace L).kern
  /-- The directory, the tables and the frames are different pages, none of them of the parent. -/
  sound : Sound L (owned s'.page d) s'
  fresh : ∀ g ∈ owned s'.page d, g ∉ owned s.page P
  free : owned s'.page d + s'.free = s.free

/-- **`copyuvm` copies an address space or does nothing**, and it only fails if a page is missing.
The parent keeps its page tables and its memory. -/
theorem copyuvm_copies (h : Sound L 0 s) (hP : ∀ g ∈ owned s.page P, g ∉ s.freelist)
    (hmap : ∀ v, v < npages sz → v < UPAGES → ((space s.page P).user v).isSome = true) :
    ∃ r s', copyuvm L P sz s = .ok (r, s') ∧ owned s'.page P = owned s.page P ∧
      (∀ g ∈ owned s.page P, s'.page g = s.page g) ∧
      ((∃ d, r = some d ∧ IsCopy L P sz d s s') ∨
        (r = none ∧ s'.free = s.free ∧
          ((∃ c, s.fails c = true) ∨ s.freelist.length ≤ 1026 + npages sz))) := by
  have hwp : wp (copyuvm L P sz) (Copied L (1026 + npages sz) P sz s) (fun _ => False) s :=
    wp_copyuvm h hP (fun v hv hu => .inl (hmap v hv hu)) le_rfl
  cases hrun : copyuvm L P sz s with
  | error e => exact (wp_of_error hwp hrun).elim
  | ok x =>
    obtain ⟨r, s'⟩ := x
    have hagree : ∀ B, Trade (1026 + npages sz) 0 B s s' →
        ∀ g ∈ owned s.page P, s'.page g = s.page g := fun B htrade g hg =>
      htrade.outside g (by
        rw [zero_add]
        exact hP g hg)
    refine ⟨r, s', rfl, ?_⟩
    rcases wp_of_ok hwp hrun with ⟨hle, -, htrade, hspace⟩ | ⟨htrade, hden⟩
    · rename_i d
      have htotal := htrade.total
      rw [zero_add] at htotal
      refine ⟨owned_of_agree (hagree _ htrade), hagree _ htrade, .inl ⟨d, rfl, ?_⟩⟩
      refine ⟨hle.trans (by decide), fun v hv => ?_, fun v hv => ?_, ?_, ?_, fun g hg => ?_, htotal⟩
      · rw [hspace, Space.copy]
        exact if_pos hv
      · rw [hspace, Space.copy]
        refine (if_neg (not_lt.mpr hv)).trans ?_
        rw [kernSpace_user]
      · rw [hspace]
        rfl
      · exact h.trade htrade
      · intro hpar
        have hfree : g ∈ s.free := htotal ▸ Multiset.mem_add.mpr (.inl hg)
        exact hP g hpar hfree
    · have htotal := htrade.total
      rw [zero_add, zero_add] at htotal
      have hshort := htrade.short hden
      rw [Multiset.card_zero, Nat.zero_add] at hshort
      exact ⟨owned_of_agree (hagree _ htrade), hagree _ htrade, .inr ⟨rfl, htotal, hshort⟩⟩

end

/-- A free list of neighbouring pages. -/
theorem sound_range {L : Layout} {s : Phys} {a n : Nat} (hfree : s.freelist = List.range' a n)
    (hlo : L.kend ≤ a) (hhi : a + n ≤ PHYSTOP / PGSIZE) : Sound L 0 s := by
  constructor
  · rw [zero_add, Phys.free, hfree]
    exact List.nodup_range'
  · intro g hg
    rw [zero_add, Phys.free, hfree, Multiset.mem_coe, List.mem_range'_1] at hg
    exact ⟨hlo.trans hg.1, lt_of_lt_of_le hg.2 hhi⟩

/-- The process with one page, and 2000 free pages. -/
def roomy : Phys := { onePage with freelist := List.range' 1000 2000 }

theorem roomy_sound : Sound smallLayout 0 roomy := sound_range rfl (by decide) (by decide)

/-- The pages of the process are not among them. -/
theorem roomy_mapped : Mapped smallLayout oneProc roomy := by
  have hmapped := oneProc_mapped
  refine ⟨⟨?_, ?_⟩, hmapped.lt, hmapped.user⟩
  · have hlow : ∀ g ∈ owned onePage.page 300, g < 1000 := by
      rw [onePage_owned]
      decide
    refine Multiset.nodup_add.mpr ⟨hmapped.sound.nodup_left, List.nodup_range', ?_⟩
    refine Multiset.disjoint_left.mpr fun hg hfree => ?_
    have hge := (List.mem_range'_1.mp (Multiset.mem_coe.mp hfree)).1
    exact absurd (hlow _ hg) (not_lt.mpr hge)
  · intro g hg
    rcases Multiset.mem_add.mp hg with hg | hg
    · exact hmapped.sound.pool_left hg
    · exact roomy_sound.pool g (Multiset.mem_add.mpr (.inr hg))

theorem copyuvm_copies_onePage : ∃ d s', copyuvm smallLayout 300 PGSIZE roomy = .ok (some d, s') ∧
    IsCopy smallLayout 300 PGSIZE d roomy s' := by
  have hmap : ∀ v, v < npages PGSIZE → v < UPAGES →
      ((space roomy.page 300).user v).isSome = true := fun v hv _ => (oneProc_mapped.user v).mpr hv
  obtain ⟨r, s', hrun, -, -, ⟨d, rfl, hcopy⟩ | ⟨-, -, hshort⟩⟩ :=
    copyuvm_copies roomy_sound (fun g => roomy_mapped.sound.not_free) hmap
  · exact ⟨d, s', hrun, hcopy⟩
  · rcases hshort with ⟨c, hc⟩ | hlen
    · cases hc
    · rw [roomy, List.length_range'] at hlen
      exact absurd hlen (by decide)

end Xv6.Vm
