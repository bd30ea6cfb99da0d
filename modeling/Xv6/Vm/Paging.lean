/-
# The free list, and the functions that build address spaces

`Trade N A B s s'` is what every function of `vm.c` does: the code held the pages `A` before and
holds `B` afterwards, the rest is free, and no other page is written.  `Sound L A s` says that the
pages in hand and the free pages are pages of the allocator, each of them once; a trade keeps it.

A function can only fail if a call of `kalloc` has returned 0 (`denied` has grown), and that happens
only if the call was made to fail or all but the `N` pages in hand were in use (`Trade.short`).
-/
import Xv6.Vm.Space

namespace Xv6.Vm

open Function (update update_comm update_eq_self update_of_ne update_self)

open Bytes

/-! ## 1. Trades -/

/-- The free pages. -/
def Phys.free (s : Phys) : Multiset Nat := (s.freelist : Multiset Nat)

/-- The pages in hand and the free pages are pages of the allocator, each of them once. -/
structure Sound (L : Layout) (A : Multiset Nat) (s : Phys) : Prop where
  nodup : (A + s.free).Nodup
  pool : ∀ g ∈ A + s.free, L.Pool g

/-- **A trade with the free list**, of the pages `A` for the pages `B`. -/
structure Trade (N : Nat) (A B : Multiset Nat) (s s' : Phys) : Prop where
  total : B + s'.free = A + s.free
  outside : ∀ g, g ∉ A + s.free → s'.page g = s.page g
  fails : s'.fails = s.fails
  denied : s.denied ≤ s'.denied
  short : s.denied < s'.denied → (∃ c, s.fails c = true) ∨ A.card + s.freelist.length ≤ N

section

variable {L : Layout} {N N' : Nat} {A B C R : Multiset Nat} {s s' s'' : Phys} {g : Nat}
  {E : Fault → Prop}

namespace Trade

theorem refl (N : Nat) (A : Multiset Nat) (s : Phys) : Trade N A A s s where
  total := rfl
  outside _ _ := rfl
  fails := rfl
  denied := le_rfl
  short h := absurd h (lt_irrefl _)

/-- The number of pages does not change. -/
theorem card_total (h : Trade N A B s s') :
    B.card + s'.freelist.length = A.card + s.freelist.length := by
  have := congrArg Multiset.card h.total
  rwa [Multiset.card_add, Multiset.card_add, Phys.free, Phys.free, Multiset.coe_card,
    Multiset.coe_card] at this

theorem trans (h : Trade N A B s s') (h' : Trade N B C s' s'') : Trade N A C s s'' where
  total := h'.total.trans h.total
  outside g hg := by
    rw [h'.outside g (h.total ▸ hg), h.outside g hg]
  fails := h'.fails.trans h.fails
  denied := h.denied.trans h'.denied
  short hlt := by
    rcases Nat.lt_or_ge s.denied s'.denied with h₁ | h₁
    · exact h.short h₁
    · rcases h'.short (lt_of_le_of_lt h₁ hlt) with hf | hc
      · rw [h.fails] at hf
        exact .inl hf
      · rw [h.card_total] at hc
        exact .inr hc

/-- Pages in hand that are not used. -/
theorem frame (h : Trade N A B s s') (R : Multiset Nat) (hN : N + R.card ≤ N') :
    Trade N' (R + A) (R + B) s s' where
  total := by rw [add_assoc, add_assoc, h.total]
  outside g hg := h.outside g fun hmem => hg (by
    rw [add_assoc]
    exact Multiset.mem_add.mpr (.inr hmem))
  fails := h.fails
  denied := h.denied
  short hlt := by
    refine (h.short hlt).imp_right fun hc => ?_
    rw [Multiset.card_add]
    omega

theorem mono (h : Trade N A B s s') (hN : N ≤ N') : Trade N' A B s s' where
  total := h.total
  outside := h.outside
  fails := h.fails
  denied := h.denied
  short hlt := (h.short hlt).imp_right fun hc => hc.trans hN

/-- Pages in hand are written. -/
theorem write (hA : ∀ g, g ∉ A → s'.page g = s.page g) (hfree : s'.freelist = s.freelist)
    (hfails : s'.fails = s.fails) (hdenied : s'.denied = s.denied) : Trade N A A s s' where
  total := by rw [Phys.free, Phys.free, hfree]
  outside g hg := hA g fun hmem => hg (Multiset.mem_add.mpr (.inl hmem))
  fails := hfails
  denied := hdenied.ge
  short hlt := absurd hlt (hdenied ▸ lt_irrefl _)

end Trade

namespace Sound

theorem trade (h : Sound L A s) (ht : Trade N A B s s') : Sound L B s' :=
  ⟨ht.total ▸ h.nodup, fun g hg => h.pool g (ht.total ▸ hg)⟩

/-- Some of the pages in hand. -/
theorem of_add (h : Sound L (R + A) s) : Sound L A s where
  nodup := by
    have := h.nodup
    rw [add_assoc] at this
    exact (Multiset.nodup_add.mp this).2.1
  pool g hg := h.pool g (by
    rw [add_assoc]
    exact Multiset.mem_add.mpr (.inr hg))

theorem nodup_left (h : Sound L A s) : A.Nodup := (Multiset.nodup_add.mp h.nodup).1

theorem not_free (h : Sound L A s) (hg : g ∈ A) : g ∉ s.freelist := fun hf =>
  Multiset.disjoint_left.mp (Multiset.nodup_add.mp h.nodup).2.2 hg hf

theorem pool_left (h : Sound L A s) (hg : g ∈ A) : L.Pool g :=
  h.pool g (Multiset.mem_add.mpr (.inl hg))

/-- Other pages in hand stay as they are. -/
theorem outside (h : Sound L (R + A) s) (ht : Trade N A B s s') (hg : g ∈ R) :
    s'.page g = s.page g := by
  refine ht.outside g fun hmem => ?_
  have := h.nodup
  rw [add_assoc] at this
  exact Multiset.disjoint_left.mp (Multiset.nodup_add.mp this).2.2 hg hmem

end Sound

theorem Layout.Pool.lt (h : L.Pool g) : g < VPAGES := lt_trans h.2 (by decide)

theorem Layout.Pool.ne_zero (h : L.Pool g) : g ≠ 0 := by
  rintro rfl
  exact absurd (lt_of_lt_of_le (lt_of_lt_of_le L.text L.data_le) h.1) (Nat.not_lt_zero _)

/-! ## 2. `kalloc` and `kfree` -/

@[simp] theorem wp_setPage (b : Bytes) (Q : Unit → Phys → Prop) :
    wp (setPage g b) Q E s ↔ Q () { s with page := update s.page g b } := Iff.rfl

@[simp] theorem wp_zeroPage (Q : Unit → Phys → Prop) :
    wp (zeroPage g) Q E s ↔ Q () { s with page := update s.page g fun _ => 0 } := Iff.rfl

@[simp] theorem wp_memmove (off : Nat) (src : List UInt8) (Q : Unit → Phys → Prop) :
    wp (memmove g off src) Q E s ↔
      Q () { s with page := update s.page g (splice (s.page g) off src) } := Iff.rfl

@[simp] theorem wp_load (e : Entry) (Q : Nat → Phys → Prop) :
    wp (load e) Q E s ↔ Q (getWord (s.page e.1) e.2) s := Iff.rfl

@[simp] theorem wp_store (e : Entry) (w : Nat) (Q : Unit → Phys → Prop) :
    wp (store e w) Q E s ↔
      Q () { s with page := update s.page e.1 (setWord (s.page e.1) e.2 w) } := Iff.rfl

/-- What `kalloc` does, with the pages `A` in hand. -/
inductive Kalloc (N : Nat) (A : Multiset Nat) (s : Phys) : Option Nat → Phys → Prop
  | none {s' : Phys} : Trade N A A s s' → s'.page = s.page → s.denied < s'.denied →
    Kalloc N A s none s'
  | some {g : Nat} {s' : Phys} : Trade N A ({g} + A) s s' → s'.page = s.page → g ∈ s.freelist →
    Kalloc N A s (some g) s'

theorem wp_kalloc (hN : A.card ≤ N) : wp kalloc (Kalloc N A s) E s := by
  have hdenied : s.fails s.calls = true ∨ s.freelist = [] →
      Kalloc N A s none { s with calls := s.calls + 1, denied := s.denied + 1 } := by
    intro hwhy
    refine .none ⟨rfl, fun _ _ => rfl, rfl, Nat.le_succ _, fun _ => ?_⟩ rfl (Nat.lt_succ_self _)
    rcases hwhy with hf | hnil
    · exact .inl ⟨_, hf⟩
    · rw [hnil]
      exact .inr hN
  simp only [kalloc, wp_bind, wp_get]
  split
  next g gs hlist =>
    simp only [wp_ite, wp_bind, wp_set, wp_pure]
    refine ⟨fun hf => hdenied (.inl hf), fun _ => .some ⟨?_, fun _ _ => rfl, rfl, le_rfl, ?_⟩ rfl ?_⟩
    · rw [Phys.free, Phys.free, hlist, ← Multiset.cons_coe, ← Multiset.singleton_add]
      abel
    · exact fun h => absurd h (lt_irrefl _)
    · rw [hlist]
      exact List.mem_cons_self
  next hnil =>
    simp only [wp_bind, wp_set, wp_pure]
    exact hdenied (.inr hnil)

/-- `kfree` of a page in hand. -/
theorem wp_kfree (h : Sound L ({g} + A) s) :
    wp (kfree L g) (fun _ s' => Trade N ({g} + A) A s s' ∧ s'.denied = s.denied ∧
      s'.page = update s.page g fun _ => 1) E s := by
  have hpool : L.Pool g := h.pool_left (Multiset.mem_add.mpr (.inl (Multiset.mem_singleton_self g)))
  simp only [kfree, wp_bind, wp_ite, wp_throw, wp_setPage, wp_modify]
  refine ⟨fun hc => ?_, fun _ => ⟨⟨?_, fun x hx => ?_, rfl, le_rfl, ?_⟩, trivial, trivial⟩⟩
  · rcases hc with hc | hc
    · exact absurd hpool.1 (not_le_of_gt hc)
    · exact absurd hpool.2 (not_lt_of_ge hc)
  · rw [Phys.free, Phys.free, ← Multiset.cons_coe, ← Multiset.singleton_add]
    abel
  · have hne : x ≠ g := by
      rintro rfl
      exact hx (Multiset.mem_add.mpr (.inl (Multiset.mem_add.mpr (.inl
        (Multiset.mem_singleton_self x)))))
    simp only [update_of_ne hne]
  · exact fun h => absurd h (lt_irrefl _)

end

/-! ## 3. `walkpgdir` -/

section

variable {L : Layout} {N d v K : Nat} {s : Phys} {E : Fault → Prop}

theorem pdx_page (h : v < VPAGES) : pdx (v * PGSIZE) = v / NPTENTRIES := by
  simp only [pdx, PGSIZE, NPTENTRIES, NPDENTRIES, VPAGES] at h ⊢
  omega

theorem ptx_page : ptx (v * PGSIZE) = v % NPTENTRIES := by
  rw [ptx, Nat.mul_div_cancel _ (by decide)]

/-- No user page from page `K` on is mapped. -/
def Space.Below (S : Space) (K : Nat) : Prop := ∀ v, K ≤ v → S.user v = none

/-- The directory, its tables, and a frame for each user page. -/
theorem card_owned_le {m : Nat → Bytes} (h : (space m d).Below K) :
    (owned m d).card ≤ 1025 + K := by
  have hle := card_held_le (S := locs) (f := holds m d)
    (T := insert .dir ((Finset.range NPDENTRIES).image .tab ∪ (Finset.range K).image .frame))
    fun l hl hne => ?_
  · refine hle.trans ((Finset.card_insert_le ..).trans ?_)
    have h₁ := Finset.card_union_le ((Finset.range NPDENTRIES).image Loc.tab)
      ((Finset.range K).image Loc.frame)
    have h₂ := Finset.card_image_le (s := Finset.range NPDENTRIES) (f := Loc.tab)
    have h₃ := Finset.card_image_le (s := Finset.range K) (f := Loc.frame)
    rw [Finset.card_range] at h₂ h₃
    simp only [NPDENTRIES] at *
    omega
  cases l with
  | dir => exact Finset.mem_insert_self ..
  | tab x =>
    exact Finset.mem_insert_of_mem (Finset.mem_union_left _
      (Finset.mem_image_of_mem _ (Finset.mem_range.mpr (tab_mem.mp hl))))
  | frame v =>
    refine Finset.mem_insert_of_mem (Finset.mem_union_right _
      (Finset.mem_image_of_mem _ (Finset.mem_range.mpr ?_)))
    by_contra hK
    exact hne (user_eq_none.mp (h v (not_lt.mp hK)))

/-- A table that is there need not be added. -/
theorem addTable_of_table {m : Nat → Bytes} {x t : Nat} (hx : x < NPDENTRIES)
    (ht : table m d x = some t) : (space m d).addTable x = space m d := by
  rw [Space.addTable]
  split
  next h =>
    have hval : (space m d).ktab x = true := by
      simp only [space, ht, Option.isSome_some, Bool.and_true, decide_eq_true_eq]
      exact ⟨h, hx⟩
    rw [← hval, update_eq_self]
  next => rfl

/-- What `walkpgdir` does if it may add a table. -/
inductive Walk (N d v : Nat) (s : Phys) : Option Entry → Phys → Prop
  | none {s' : Phys} : Trade N (owned s.page d) (owned s.page d) s s' → s'.page = s.page →
    s.denied < s'.denied → Walk N d v s none s'
  | some {t : Nat} {s' : Phys} : Trade N (owned s.page d) (owned s'.page d) s s' →
    table s'.page d (v / NPTENTRIES) = some t →
    space s'.page d = (space s.page d).addTable (v / NPTENTRIES) →
    (∀ u, frame s'.page d u = frame s.page d u) → Walk N d v s (some (t, v % NPTENTRIES)) s'

theorem wp_walkpgdir_alloc (h : Sound L (owned s.page d) s) (hv : v < VPAGES)
    (hN : (owned s.page d).card ≤ N) :
    wp (walkpgdir d (v * PGSIZE) true) (Walk N d v s) E s := by
  have hx := dir_lt hv
  simp only [walkpgdir, wp_bind, wp_load, wp_ite, wp_pure, pdx_page hv, ptx_page]
  refine ⟨fun hp => ?_, fun hp => ⟨fun _ => ?_, fun hc => absurd trivial hc⟩⟩
  · have ht : table s.page d (v / NPTENTRIES) =
        some (pteAddr (getWord (s.page d) (v / NPTENTRIES))) := if_pos hp
    exact .some (.refl ..) ht (addTable_of_table hx ht).symm fun _ => rfl
  · have ht : table s.page d (v / NPTENTRIES) = none := if_neg hp
    refine wp_conseq (wp_kalloc hN) ?_
    rintro _ s₁ (⟨htrade, hpage, hden⟩ | ⟨htrade, hpage, hfree⟩)
    · exact .none htrade hpage hden
    · rename_i g
      -- the free page becomes a table
      have hs₁ := h.trade htrade
      have hg : g ∉ owned s.page d := fun hmem => h.not_free hmem hfree
      have hlt : g < VPAGES :=
        (hs₁.pool_left (Multiset.mem_add.mpr (.inl (Multiset.mem_singleton_self g)))).lt
      simp only [wp_bind, wp_zeroPage, wp_store, wp_pure, hpage]
      have hne : d ≠ g := fun e => hg (e ▸ mem_owned_dir)
      have hmem : update (update s.page g fun _ => 0) d
          (setWord (update s.page g (fun _ => 0) d) (v / NPTENTRIES)
            (g * PGSIZE ||| PTE_P ||| PTE_W ||| PTE_U)) =
          linked s.page d g (v / NPTENTRIES) := by
        rw [linked, update_of_ne hne]
      rw [hmem]
      refine .some ?_ ((linked_table hlt).trans (if_pos rfl)) (space_linked hg hx ht hlt h.nodup_left)
        fun _ => linked_frame hg ht hlt h.nodup_left
      refine htrade.trans ?_
      have hown := owned_linked hg hx ht hlt h.nodup_left
      rw [hown]
      refine .write (fun y hy => ?_) rfl rfl rfl
      have hyd : y ≠ d := fun e => hy (e ▸ Multiset.mem_add.mpr (.inr mem_owned_dir))
      have hyg : y ≠ g := fun e =>
        hy (e ▸ Multiset.mem_add.mpr (.inl (Multiset.mem_singleton_self _)))
      simp only [linked, update_of_ne hyd, update_of_ne hyg, hpage]

/-- `walkpgdir` that only looks. -/
theorem wp_walkpgdir_look (hv : v < VPAGES) {Q : Option Entry → Phys → Prop} :
    wp (walkpgdir d (v * PGSIZE) false) Q E s ↔
      Q ((table s.page d (v / NPTENTRIES)).map fun t => (t, v % NPTENTRIES)) s := by
  simp only [walkpgdir, wp_bind, wp_load, wp_ite, wp_pure, pdx_page hv, ptx_page, table,
    Radix.table, nextTable]
  by_cases hp : hasFlag (getWord (s.page d) (v / NPTENTRIES)) PTE_P = true
  · simp only [hp, if_true, Option.map_some, forall_const, not_true_eq_false, false_implies,
      and_true]
  · simp only [hp, Bool.false_eq_true, if_false, false_implies, true_and, not_false_eq_true,
      forall_const, Option.map_none]

end

/-! ## 4. `mappages` -/

/-- The kernel's pages `v`, .., `v + n - 1` are mapped to the frames from `q` on. -/
def Space.mapKern (S : Space) (v n q perm : Nat) : Space where
  user := S.user
  kern u := if v ≤ u ∧ u < v + n then (q + (u - v)) * PGSIZE ||| perm ||| PTE_P else S.kern u
  ktab x := S.ktab x || decide (v / NPTENTRIES ≤ x ∧ x ≤ (v + n - 1) / NPTENTRIES)

section

variable {L : Layout} {N d v n q perm : Nat} {s : Phys} {E : Fault → Prop}

theorem mapKern_one (S : Space) (hv : UPAGES ≤ v) :
    (S.addTable (v / NPTENTRIES)).setKern v (q * PGSIZE ||| perm ||| PTE_P) =
      S.mapKern v 1 q perm := by
  have hx : 512 ≤ v / NPTENTRIES := (Nat.le_div_iff_mul_le (by decide)).mpr hv
  rw [Space.addTable, if_pos hx, Space.setKern, Space.mapKern]
  congr 1
  · funext u
    by_cases hu : u = v
    · subst hu
      rw [update_self, if_pos ⟨le_rfl, Nat.lt_succ_self _⟩, Nat.sub_self, Nat.add_zero]
    · rw [update_of_ne hu, if_neg (by omega)]
  · funext x
    dsimp only
    by_cases hx : x = v / NPTENTRIES
    · subst hx
      rw [update_self, Nat.add_sub_cancel, decide_eq_true ⟨le_rfl, le_rfl⟩, Bool.or_true]
    · rw [update_of_ne hx, Nat.add_sub_cancel, decide_eq_false (by omega), Bool.or_false]

theorem mapKern_succ (S : Space) :
    (S.mapKern v 1 q perm).mapKern (v + 1) (n + 1) (q + 1) perm = S.mapKern v (n + 2) q perm := by
  simp only [Space.mapKern]
  congr 1
  · funext u
    rcases Nat.lt_trichotomy u v with hu | rfl | hu
    · rw [if_neg (by omega), if_neg (by omega), if_neg (by omega)]
    · rw [if_neg (by omega), if_pos (by omega), if_pos (by omega)]
    · by_cases hlt : u < v + (n + 2)
      · rw [if_pos (by omega), if_pos (by omega), show q + 1 + (u - (v + 1)) = q + (u - v) by omega]
      · rw [if_neg (by omega), if_neg (by omega), if_neg (by omega)]
  · funext x
    rw [Bool.or_assoc]
    congr 1
    rw [← Bool.decide_or, decide_eq_decide]
    simp only [NPTENTRIES]
    omega

theorem last_page (hn : 1 ≤ n) (hv : v + n ≤ VPAGES) :
    pgRoundDown (sub32 (add32 (v * PGSIZE) (n * PGSIZE)) 1) = (v + n - 1) * PGSIZE := by
  simp only [pgRoundDown, sub32, add32, PGSIZE, VPAGES] at *
  omega

theorem add_page (hv : v + 1 < VPAGES) : add32 (v * PGSIZE) PGSIZE = (v + 1) * PGSIZE := by
  simp only [add32, PGSIZE, VPAGES] at *
  omega

/-- What `mappages` does to pages of the kernel. -/
inductive MapKern (N d v n q perm : Nat) (s : Phys) : Int → Phys → Prop
  | ok {s' : Phys} : Trade N (owned s.page d) (owned s'.page d) s s' →
    space s'.page d = (space s.page d).mapKern v n q perm → MapKern N d v n q perm s 0 s'
  | fail {s' : Phys} : Trade N (owned s.page d) (owned s'.page d) s s' → s.denied < s'.denied →
    MapKern N d v n q perm s (-1) s'

theorem wp_mappagesLoop_kern (hp : perm < PGSIZE) (hN : 1025 ≤ N) : ∀ {fuel v q : Nat} (n : Nat)
    {s : Phys}, n < fuel → UPAGES ≤ v → v + n < VPAGES → q + n < VPAGES →
    Sound L (owned s.page d) s → (space s.page d).Below 0 →
    (∀ u, v ≤ u → u ≤ v + n → hasFlag ((space s.page d).kern u) PTE_P = false) →
    wp (mappagesLoop d ((v + n) * PGSIZE) perm fuel (v * PGSIZE) (q * PGSIZE))
      (MapKern N d v (n + 1) q perm s) E s := by
  intro fuel
  induction fuel with
  | zero => exact fun n s hlt => absurd hlt (Nat.not_lt_zero n)
  | succ fuel ih =>
    intro v q n s hfuel hv hvn hqn h hbelow hclear
    have hlt : v < VPAGES := by omega
    simp only [mappagesLoop, wp_bind]
    refine wp_conseq (wp_walkpgdir_alloc h hlt ((card_owned_le hbelow).trans hN)) ?_
    rintro _ s₁ (⟨htrade, hpage, hden⟩ | ⟨htrade, htable, hspace, -⟩)
    · refine .fail ?_ hden
      rwa [hpage]
    rename_i t
    -- the entry was clear, and is set
    have hs₁ := h.trade htrade
    have hsame : (space s₁.page d).user = (space s.page d).user ∧
        (space s₁.page d).kern = (space s.page d).kern := by
      rw [hspace, Space.addTable]
      split <;> exact ⟨rfl, rfl⟩
    have hold : hasFlag (getWord (s₁.page t) (v % NPTENTRIES)) PTE_P = false := by
      have hk := hclear v le_rfl (Nat.le_add_right ..)
      rw [← hsame.2] at hk
      simp only [space, if_pos (show UPAGES ≤ v ∧ v < VPAGES from ⟨hv, hlt⟩)] at hk
      rwa [pte, Radix.leaf_of_table htable] at hk
    have hw : q * PGSIZE ||| perm ||| PTE_P < 2 ^ 32 := by
      rw [Nat.or_assoc]
      exact entry_lt (by omega) (perm_lt hp)
    have hmem := space_stored_kern hs₁.nodup_left hlt htable hw hv
    have hown := owned_stored_kern hs₁.nodup_left hlt htable hw hv
    rw [hspace, mapKern_one _ hv] at hmem
    simp only [wp_bind, wp_load, wp_ite, wp_throw, wp_store, wp_pure, hold, Bool.false_eq_true,
      false_implies, true_and, not_false_eq_true, forall_const]
    rw [show update s₁.page t (setWord (s₁.page t) (v % NPTENTRIES)
      (q * PGSIZE ||| perm ||| PTE_P)) = stored s₁.page t v (q * PGSIZE ||| perm ||| PTE_P) from rfl]
    generalize hs₂ : ({ s₁ with page := stored s₁.page t v (q * PGSIZE ||| perm ||| PTE_P) } : Phys)
      = s₂
    have hp₂ : s₂.page = stored s₁.page t v (q * PGSIZE ||| perm ||| PTE_P) := by rw [← hs₂]
    rw [← hp₂] at hmem hown
    have ht₂ : Trade N (owned s₁.page d) (owned s₂.page d) s₁ s₂ := by
      rw [hown]
      refine .write (fun y hy => ?_) (by rw [← hs₂]) (by rw [← hs₂]) (by rw [← hs₂])
      rw [hp₂, stored, update_of_ne]
      rintro rfl
      exact hy (mem_owned_table (dir_lt hlt) htable)
    have htr := htrade.trans ht₂
    refine ⟨fun hlast => ?_, fun hmore => ?_⟩
    · obtain rfl : n = 0 := by
        simp only [PGSIZE] at hlast
        omega
      exact .ok htr hmem
    · obtain ⟨n, rfl⟩ : ∃ k, n = k + 1 := ⟨n - 1, by
        simp only [PGSIZE] at hmore
        omega⟩
      rw [add_page (by omega), add_page (by omega), show v + (n + 1) = v + 1 + n by omega]
      have hbelow₂ : (space s₂.page d).Below 0 := by
        rw [hmem]
        exact hbelow
      refine wp_conseq (ih n (by omega) (by omega) (by omega) (by omega) (hs₁.trade ht₂) hbelow₂ ?_) ?_
      · intro u hu hu'
        rw [hmem]
        simp only [Space.mapKern]
        rw [if_neg (by omega)]
        exact hclear u (by omega) (by omega)
      · rintro _ s₃ (⟨ht₃, hspace₃⟩ | ⟨ht₃, hden₃⟩)
        · refine .ok (htr.trans ht₃) ?_
          rw [hspace₃, hmem, mapKern_succ]
        · exact .fail (htr.trans ht₃) (lt_of_le_of_lt htr.denied hden₃)

/-- **`mappages` in the kernel's half**, on pages that are not mapped yet. -/
theorem wp_mappages_kern (hp : perm < PGSIZE) (hN : 1025 ≤ N) (hn : 1 ≤ n) (hv : UPAGES ≤ v)
    (hvn : v + n ≤ VPAGES) (hqn : q + n ≤ VPAGES) (h : Sound L (owned s.page d) s)
    (hbelow : (space s.page d).Below 0)
    (hclear : ∀ u, v ≤ u → u < v + n → hasFlag ((space s.page d).kern u) PTE_P = false) :
    wp (mappages d (v * PGSIZE) (n * PGSIZE) (q * PGSIZE) perm) (MapKern N d v n q perm s) E s := by
  obtain ⟨n, rfl⟩ : ∃ k, n = k + 1 := ⟨n - 1, by omega⟩
  rw [mappages, last_page hn hvn, pgRoundDown, Nat.mul_div_cancel _ (by decide),
    show v + (n + 1) - 1 = v + n by omega]
  refine wp_mappagesLoop_kern hp hN n ?_ hv (by omega) (by omega) h hbelow
    fun u hu hu' => hclear u hu (by omega)
  rw [show NPAGES = VPAGES by decide]
  simp only [UPAGES] at hv
  omega

/-- What `mappages` does with the page `g` in hand, for one page of a user. -/
inductive MapUser (N d v g perm : Nat) (s : Phys) : Int → Phys → Prop
  | ok {s' : Phys} : Trade N ({g} + owned s.page d) (owned s'.page d) s s' →
    space s'.page d = (space s.page d).setUser v (some (perm ||| PTE_P, s.page g)) →
    (∀ u, u ≠ v → frame s'.page d u = frame s.page d u) → frame s'.page d v = some g →
    MapUser N d v g perm s 0 s'
  | fail {s' : Phys} : Trade N ({g} + owned s.page d) ({g} + owned s.page d) s s' →
    s'.page = s.page → s.denied < s'.denied → MapUser N d v g perm s (-1) s'

/-- **`mappages` of one user page** that is not mapped yet. -/
theorem wp_mappages_user {g : Nat} (hp : perm < PGSIZE) (h : Sound L ({g} + owned s.page d) s)
    (hv : v < UPAGES) (hnone : (space s.page d).user v = none)
    (hN : (owned s.page d).card + 1 ≤ N) :
    wp (mappages d (v * PGSIZE) PGSIZE (g * PGSIZE) perm) (MapUser N d v g perm s) E s := by
  have hlt := upage_lt hv
  have hgpool : L.Pool g :=
    h.pool_left (Multiset.mem_add.mpr (.inl (Multiset.mem_singleton_self g)))
  have hlast := last_page (n := 1) le_rfl hlt
  rw [Nat.one_mul, Nat.add_sub_cancel] at hlast
  rw [mappages, hlast, pgRoundDown, Nat.mul_div_cancel _ (by decide),
    show NPAGES = VPAGES - 1 + 1 by decide, mappagesLoop]
  simp only [wp_bind]
  refine wp_conseq (wp_walkpgdir_alloc h.of_add hlt le_rfl) ?_
  rintro _ s₁ (⟨htrade, hpage, hden⟩ | ⟨htrade, htable, hspace, hframes⟩)
  · exact .fail (htrade.frame {g} (by rw [Multiset.card_singleton]; exact hN)) hpage hden
  rename_i t
  have htr : Trade N ({g} + owned s.page d) ({g} + owned s₁.page d) s s₁ :=
    htrade.frame {g} (by rw [Multiset.card_singleton]; exact hN)
  have hs₁ := h.trade htr
  have hn₁ := hs₁.of_add.nodup_left
  have huser : space s₁.page d = space s.page d := by
    rw [hspace, Space.addTable, if_neg]
    have := (Nat.div_lt_iff_lt_mul (k := NPTENTRIES) (x := v) (y := 512) (by decide)).mpr hv
    omega
  have hframe₁ : frame s₁.page d v = none := by
    rw [← user_eq_none, huser]
    exact hnone
  have hold : hasFlag (getWord (s₁.page t) (v % NPTENTRIES)) PTE_P = false := by
    rw [← Bool.not_eq_true]
    intro hset
    rw [frame, pte, Radix.leaf_of_table htable, if_pos ⟨hv, hset⟩] at hframe₁
    cases hframe₁
  have hw : g * PGSIZE ||| perm ||| PTE_P < 2 ^ 32 := by
    rw [Nat.or_assoc]
    exact entry_lt hgpool.lt (perm_lt hp)
  have haddr : pteAddr (g * PGSIZE ||| perm ||| PTE_P) = g := by
    rw [Nat.or_assoc, entry_addr (perm_lt hp)]
  have hflags : pteFlags (g * PGSIZE ||| perm ||| PTE_P) = perm ||| PTE_P := by
    rw [Nat.or_assoc, entry_flags (perm_lt hp)]
  have hframe := (stored_frame_self hn₁ hlt htable hw hv).trans (if_pos (present_or _))
  rw [haddr] at hframe
  have hgt : g ≠ t := fun e =>
    Multiset.disjoint_left.mp (Multiset.nodup_add.mp hs₁.nodup_left).2.2
      (Multiset.mem_singleton_self g) (e ▸ mem_owned_table (dir_lt hlt) htable)
  have hmem := space_stored_user hn₁ hlt htable hw hv
  have hown := owned_stored hn₁ hlt htable hw hv
  rw [user_of_frame hframe, stored_pte hn₁ hlt htable hw hlt, if_pos rfl, hflags, stored,
    update_of_ne hgt, huser,
    h.outside htrade (Multiset.mem_singleton_self g)] at hmem
  rw [hframe₁, hframe, bag_none, bag_some, add_zero, add_comm] at hown
  simp only [wp_bind, wp_load, wp_ite, wp_throw, wp_store, wp_pure, hold, Bool.false_eq_true,
    false_implies, true_and, not_false_eq_true, forall_const, not_true_eq_false, and_true]
  refine .ok (htr.trans ?_) hmem
    (fun u hu => (stored_frame hn₁ hlt htable hw hu).trans (hframes u)) hframe
  rw [stored] at hown
  refine ⟨?_, fun y hy => ?_, rfl, le_rfl, fun hc => absurd hc (lt_irrefl _)⟩
  · simp only [Phys.free]
    rw [hown]
  · refine update_of_ne ?_ ..
    rintro rfl
    exact hy (Multiset.mem_add.mpr (.inl (Multiset.mem_add.mpr (.inr
      (mem_owned_table (dir_lt hlt) htable)))))

end

/-! ## 5. `deallocuvm` and `freevm` -/

/-- The number of pages that `sz` bytes touch. -/
def npages (sz : Nat) : Nat := (sz + (PGSIZE - 1)) / PGSIZE

/-- The user pages `a`, .., `b - 1` are not mapped. -/
def Space.unmap (S : Space) (a b : Nat) : Space :=
  { S with user := fun v => if a ≤ v ∧ v < b then none else S.user v }

section

variable {L : Layout} {N d v a b sz : Nat} {s : Phys} {E : Fault → Prop}

theorem page_lt : v * PGSIZE < sz ↔ v < npages sz := by
  simp only [npages, PGSIZE]
  omega

theorem npages_zero : npages 0 = 0 := by
  norm_num [npages]

theorem npages_kernbase : npages KERNBASE = UPAGES := by
  norm_num [npages]

theorem npages_le (h : sz ≤ KERNBASE) : npages sz ≤ UPAGES := by
  simp only [npages, PGSIZE, KERNBASE, UPAGES] at *
  omega

theorem pgRoundUp_eq (h : sz ≤ KERNBASE) : pgRoundUp sz = npages sz * PGSIZE := by
  simp only [pgRoundUp, npages, add32, PGSIZE, KERNBASE] at *
  omega

theorem unmap_skip (S : Space) (hab : a ≤ v) (h : ∀ u, a ≤ u → u < v → S.user u = none) :
    S.unmap v b = S.unmap a b := by
  simp only [Space.unmap]
  congr 1
  funext u
  by_cases hu : v ≤ u ∧ u < b
  · rw [if_pos hu, if_pos (by omega)]
  · rw [if_neg hu]
    split
    next hr => exact h u hr.1 (by omega)
    next => rfl

theorem unmap_empty (S : Space) (h : b ≤ a) : S.unmap a b = S := by
  rw [Space.unmap]
  congr 1
  funext u
  exact if_neg (by omega)

theorem unmap_setUser (S : Space) (h : v < b) : (S.setUser v none).unmap (v + 1) b = S.unmap v b := by
  simp only [Space.unmap, Space.setUser]
  congr 1
  funext u
  rcases Nat.lt_trichotomy u v with hu | rfl | hu
  · rw [if_neg (by omega), if_neg (by omega), update_of_ne (by omega)]
  · rw [if_neg (by omega), if_pos (by omega), update_self]
  · rw [update_of_ne (by omega)]
    by_cases hb : u < b
    · rw [if_pos (by omega), if_pos (by omega)]
    · rw [if_neg (by omega), if_neg (by omega)]

/-- The address of the next page table. -/
theorem next_table (hv : v < UPAGES) :
    add32 (sub32 (pgAddr (pdx (v * PGSIZE) + 1)) PGSIZE) PGSIZE =
      (v / NPTENTRIES + 1) * NPTENTRIES * PGSIZE := by
  rw [pdx_page (upage_lt hv)]
  simp only [pgAddr, add32, sub32, PGSIZE, NPTENTRIES, UPAGES] at *
  omega

/-- User pages are unmapped, and their frames are free. -/
structure Unmapped (N d a b : Nat) (s s' : Phys) : Prop where
  trade : Trade N (owned s.page d) (owned s'.page d) s s'
  space : space s'.page d = (space s.page d).unmap a b
  frames : ∀ u, u < a ∨ b ≤ u → frame s'.page d u = frame s.page d u
  denied : s'.denied = s.denied

/-- One page: its frame is freed, and its entry cleared. -/
theorem wp_unmapPage {g t : Nat} (h : Sound L (owned s.page d) s) (hv : v < UPAGES)
    (ht : table s.page d (v / NPTENTRIES) = some t) (hg : frame s.page d v = some g) :
    wp (do kfree L g; store (t, v % NPTENTRIES) 0)
      (fun _ s' => Trade N (owned s.page d) (owned s'.page d) s s' ∧ s'.denied = s.denied ∧
        space s'.page d = (space s.page d).setUser v none ∧
        ∀ u, u ≠ v → frame s'.page d u = frame s.page d u) E s := by
  have hlt := upage_lt hv
  have hn := h.nodup_left
  have hw : (0 : Nat) < 2 ^ 32 := by decide
  -- the memory with the entry cleared, and the pages that are left
  have hframe : frame (stored s.page t v 0) d v = none :=
    (stored_frame_self hn hlt ht hw hv).trans (if_neg (by decide))
  have hmem := space_stored_user hn hlt ht hw hv
  rw [user_eq_none.mpr hframe] at hmem
  have hown := owned_stored hn hlt ht hw hv
  rw [hframe, hg, bag_some, bag_none, add_zero, add_comm] at hown
  have htab : table (stored s.page t v 0) d (v / NPTENTRIES) = some t :=
    (stored_table hn hlt ht _).trans ht
  have hframes : ∀ u, u ≠ v → frame (stored s.page t v 0) d u = frame s.page d u := fun u hu =>
    stored_frame hn hlt ht hw hu
  have hgt : g ≠ t := frame_ne_table hn (dir_lt hlt) hg ht
  generalize hm : stored s.page t v 0 = m at *
  rw [← hown] at h hn ⊢
  have hgm : g ∉ owned m d := fun hmem => Multiset.disjoint_left.mp (Multiset.nodup_add.mp hn).2.2
    (Multiset.mem_singleton_self g) hmem
  simp only [wp_bind, wp_store]
  refine wp_conseq (wp_kfree (N := N) h) ?_
  rintro _ s₁ ⟨htrade, hdenied, hpage⟩
  have hpage₂ : update s₁.page t (setWord (s₁.page t) (v % NPTENTRIES) 0) =
      update m g fun _ => 1 := by
    rw [hpage, ← hm, stored, update_of_ne hgt.symm, update_comm hgt.symm]
  rw [hpage₂]
  have hagree : ∀ x ∈ owned m d, update m g (fun _ => 1) x = m x := by
    intro x hx
    refine update_of_ne ?_ ..
    rintro rfl
    exact hgm hx
  rw [owned_of_agree hagree, space_congr hagree]
  refine ⟨htrade.trans (.write (fun x hx => ?_) rfl rfl rfl), hdenied, hmem, fun u hu =>
    (frame_of_agree hagree).trans (hframes u hu)⟩
  rw [← hpage₂]
  refine update_of_ne ?_ ..
  rintro rfl
  exact hx (mem_owned_table (dir_lt hlt) htab)

/-- A page without a table, or with an entry that is not present, is not mapped. -/
theorem frame_none_of_table {m : Nat → Bytes} (h : table m d (v / NPTENTRIES) = none) :
    frame m d v = none := by
  refine if_neg fun hc => ?_
  rw [pte, Radix.leaf_of_none h] at hc
  exact absurd hc.2 (by decide)

theorem wp_deallocuvmLoop {oldsz : Nat} (hold : oldsz ≤ KERNBASE) : ∀ {fuel v : Nat} {s : Phys},
    npages oldsz - v < fuel → Sound L (owned s.page d) s →
    wp (deallocuvmLoop L d oldsz fuel (v * PGSIZE))
      (fun _ s' => Unmapped N d v (npages oldsz) s s') E s := by
  have hlast := npages_le hold
  intro fuel
  induction fuel with
  | zero => exact fun hfuel => absurd hfuel (Nat.not_lt_zero _)
  | succ fuel ih =>
    intro v s hfuel h
    simp only [deallocuvmLoop, wp_ite, wp_bind, wp_pure, page_lt]
    refine ⟨fun hlt => ?_, fun hge =>
      ⟨.refl .., (unmap_empty _ (not_lt.mp hge)).symm, fun _ _ => rfl, rfl⟩⟩
    have hv : v < UPAGES := lt_of_lt_of_le hlt hlast
    rw [wp_walkpgdir_look (upage_lt hv)]
    cases ht : table s.page d (v / NPTENTRIES) with
    | none =>
      -- none of the pages of a table that is missing is mapped
      simp only [Option.map_none]
      have hnext : v < (v / NPTENTRIES + 1) * NPTENTRIES := by
        simp only [NPTENTRIES]
        omega
      rw [next_table hv]
      refine wp_conseq (ih (by omega) h) fun _ s' hs' =>
        ⟨hs'.trade, ?_, fun u hu => hs'.frames u (hu.imp_left fun hu => hu.trans hnext), hs'.denied⟩
      rw [hs'.space, unmap_skip _ hnext.le]
      intro u hvu hu
      refine user_eq_none.mpr (frame_none_of_table ?_)
      rw [← ht]
      congr 1
      simp only [NPTENTRIES] at *
      omega
    | some t =>
      have hpte : getWord (s.page t) (v % NPTENTRIES) = pte s.page d v :=
        (Radix.leaf_of_table ht).symm
      have hadd : add32 (v * PGSIZE) PGSIZE = (v + 1) * PGSIZE := by
        refine add_page ?_
        simp only [UPAGES, VPAGES] at *
        omega
      simp only [Option.map_some, wp_bind, wp_load, wp_ite, hpte, hadd]
      have hnextPage : ∀ {s₁ : Phys}, Trade N (owned s.page d) (owned s₁.page d) s s₁ →
          s₁.denied = s.denied → space s₁.page d = (space s.page d).setUser v none →
          (∀ u, u ≠ v → frame s₁.page d u = frame s.page d u) →
          wp (deallocuvmLoop L d oldsz fuel ((v + 1) * PGSIZE))
            (fun _ s' => Unmapped N d v (npages oldsz) s s') E s₁ := by
        intro s₁ htrade hden hspace hframes
        refine wp_conseq (ih (by omega) (h.trade htrade)) fun _ s' hs' =>
          ⟨htrade.trans hs'.trade, ?_, fun u hu => ?_, hs'.denied.trans hden⟩
        · rw [hs'.space, hspace, unmap_setUser _ hlt]
        · rw [hs'.frames u (by omega), hframes u (by omega)]
      refine ⟨fun hp => ?_, fun hp => ?_⟩
      · have hg : frame s.page d v = some (pteAddr (pte s.page d v)) := if_pos ⟨hv, hp⟩
        have hpool := h.pool_left (mem_owned_frame hg)
        refine ⟨fun hzero => absurd hzero hpool.ne_zero, fun _ => ?_⟩
        have hpage := wp_unmapPage (N := N) (E := E) h hv ht hg
        rw [wp_bind] at hpage
        refine wp_conseq hpage fun _ s₁ h₁ => ?_
        rw [wp_store] at h₁ ⊢
        exact hnextPage h₁.1 h₁.2.1 h₁.2.2.1 h₁.2.2.2
      · have hnone : frame s.page d v = none := if_neg fun hc => hp hc.2
        refine hnextPage (.refl ..) rfl ?_ fun _ _ => rfl
        rw [Space.setUser, ← user_eq_none.mpr hnone, update_eq_self]

/-- **`deallocuvm`** unmaps and frees the pages behind the new size. -/
theorem wp_deallocuvm {oldsz newsz : Nat} (hold : oldsz ≤ KERNBASE)
    (h : Sound L (owned s.page d) s) :
    wp (deallocuvm L d oldsz newsz) (fun r s' =>
      Unmapped N d (npages newsz) (npages oldsz) s s' ∧ r = min oldsz newsz) E s := by
  simp only [deallocuvm, wp_ite, wp_bind, wp_pure]
  refine ⟨fun hle => ⟨⟨.refl .., (unmap_empty _ ?_).symm, fun _ _ => rfl, rfl⟩,
    (Nat.min_eq_left hle).symm⟩,
    fun hgt => ?_⟩
  · simp only [npages, PGSIZE]
    omega
  · rw [pgRoundUp_eq (by omega)]
    refine wp_conseq (wp_deallocuvmLoop hold ?_ h) fun _ s' hs' =>
      ⟨hs', (Nat.min_eq_right (by omega)).symm⟩
    have := npages_le hold
    rw [show NPAGES = VPAGES by decide]
    simp only [UPAGES, VPAGES] at *
    omega

/-- The directory and its tables from entry `i` on. -/
def rest (m : Nat → Bytes) (d i : Nat) : Loc → Option Nat
  | .dir => some d
  | .tab x => if i ≤ x then table m d x else none
  | .frame _ => none

theorem held_rest_succ {m : Nat → Bytes} {i : Nat} (hi : i < NPDENTRIES) :
    held locs (rest m d i) = bag (table m d i) + held locs (rest m d (i + 1)) := by
  have hchange := held_change (f := rest m d (i + 1)) (g := rest m d i) (tab_mem.mpr hi)
    fun l _ hne => ?_
  · have h₁ : rest m d (i + 1) (.tab i) = none := if_neg (by omega)
    have h₂ : rest m d i (.tab i) = table m d i := if_pos le_rfl
    rwa [h₁, h₂, bag_none, add_zero, add_comm] at hchange
  cases l with
  | dir => rfl
  | frame v => rfl
  | tab x =>
    have hx : x ≠ i := fun e => hne (by rw [e])
    simp only [rest]
    by_cases hle : i ≤ x
    · rw [if_pos hle, if_pos (by omega)]
    · rw [if_neg hle, if_neg (by omega)]

theorem held_rest_last {m : Nat → Bytes} : held locs (rest m d NPDENTRIES) = {d} := by
  have hzero : held (locs.erase .dir) (rest m d NPDENTRIES) = 0 := by
    refine held_eq_zero fun l hl => ?_
    cases l with
    | dir => exact absurd rfl (Finset.ne_of_mem_erase hl)
    | frame v => rfl
    | tab x =>
      have hx := tab_mem.mp (Finset.mem_of_mem_erase hl)
      exact if_neg (by omega)
  rw [held_erase dir_mem, hzero, add_zero]
  rfl

/-- The second loop of `freevm`. -/
theorem wp_freeTables {m : Nat → Bytes} : ∀ {n i : Nat} {s : Phys}, i + n = NPDENTRIES →
    Sound L (held locs (rest m d i)) s → s.page d = m d →
    wp (freeTables L d n i)
      (fun _ s' => Trade N (held locs (rest m d i)) {d} s s' ∧ s'.denied = s.denied) E s := by
  intro n
  induction n with
  | zero =>
    intro i s hi h hdir
    simp only [freeTables, wp_pure]
    rw [show i = NPDENTRIES from hi, held_rest_last]
    exact ⟨.refl .., trivial⟩
  | succ n ih =>
    intro i s hi h hdir
    have hlt : i < NPDENTRIES := by omega
    have hnext : ∀ {s₁ : Phys}, s₁.page d = m d → s₁.denied = s.denied →
        Trade N (held locs (rest m d i)) (held locs (rest m d (i + 1))) s s₁ →
        wp (freeTables L d n (i + 1))
          (fun _ s' => Trade N (held locs (rest m d i)) {d} s s' ∧ s'.denied = s.denied) E s₁ := by
      intro s₁ hdir₁ hden₁ htrade₁
      refine wp_conseq (ih (by omega) (h.trade htrade₁) hdir₁) fun _ s' hs' => ?_
      exact ⟨htrade₁.trans hs'.1, hs'.2.trans hden₁⟩
    simp only [freeTables, wp_bind, wp_load, wp_ite, hdir]
    refine ⟨fun hp => ?_, fun hp => hnext hdir rfl ?_⟩
    · have ht : table m d i = some (pteAddr (getWord (m d) i)) := if_pos hp
      have hsucc := held_rest_succ (m := m) (d := d) hlt
      rw [ht, bag_some] at hsucc
      rw [hsucc] at h hnext ⊢
      refine wp_conseq (wp_kfree (N := N) h) ?_
      rintro _ s₁ ⟨htrade₁, hden₁, hpage₁⟩
      refine hnext ?_ hden₁ htrade₁
      rw [hpage₁, update_of_ne, hdir]
      -- the directory is still in hand
      intro e
      refine Multiset.disjoint_left.mp (Multiset.nodup_add.mp h.nodup_left).2.2
        (Multiset.mem_singleton_self _) ?_
      rw [← e]
      exact mem_held.mpr ⟨.dir, dir_mem, rfl⟩
    · have ht : table m d i = none := if_neg hp
      rw [held_rest_succ hlt, ht, bag_none, zero_add]
      exact .refl ..

/-- **`freevm`** gives all pages of an address space back. -/
theorem wp_freevm (h : Sound L (owned s.page d) s) :
    wp (freevm L d) (fun _ s' => Trade N (owned s.page d) 0 s s' ∧ s'.denied = s.denied) E s := by
  simp only [freevm, wp_bind, wp_ite, wp_throw]
  refine ⟨fun hzero => absurd hzero (h.pool_left mem_owned_dir).ne_zero, fun _ => ?_⟩
  have hdealloc : wp (deallocuvm L d KERNBASE 0) (fun _ s' => Unmapped N d 0 UPAGES s s') E s := by
    refine wp_conseq (wp_deallocuvm (N := N) (Nat.le_refl KERNBASE) h) fun _ s' hs' => ?_
    rw [npages_zero, npages_kernbase] at hs'
    exact hs'.1
  refine wp_conseq hdealloc fun _ s₁ h₁ => ?_
  have hs₁ := h.trade h₁.trade
  -- no user page is left
  have hall : owned s₁.page d = held locs (rest s₁.page d 0) := by
    refine held_congr fun l hl => ?_
    cases l with
    | dir => rfl
    | tab x => simp only [holds, rest, Nat.zero_le, if_true]
    | frame v =>
      refine user_eq_none.mp ?_
      rw [h₁.space, Space.unmap]
      exact if_pos ⟨Nat.zero_le v, frame_mem.mp hl⟩
  have htrade₁ := h₁.trade
  rw [hall] at hs₁ htrade₁
  refine wp_conseq (wp_freeTables (N := N) (Nat.zero_add _) hs₁ rfl) fun _ s₂ h₂ => ?_
  have hs₂ : Sound L ({d} + 0) s₂ := by
    rw [add_zero]
    exact hs₁.trade h₂.1
  refine wp_conseq (wp_kfree (N := N) hs₂) ?_
  rintro _ s₃ ⟨htrade₃, hden₃, -⟩
  rw [add_zero] at htrade₃
  exact ⟨htrade₁.trans (h₂.1.trans htrade₃), hden₃.trans (h₂.2.trans h₁.denied)⟩

end

end Xv6.Vm
