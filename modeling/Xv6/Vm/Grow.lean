/-
# Growing and shrinking a process

`allocuvm` maps new pages of zeroes behind the end of a process, and takes back what it has mapped if
there is no memory for all of them.  `growproc` uses it, and `deallocuvm`, to move the end of a
process by `n` bytes.

**All or nothing, almost.**  `growproc` is called with an `int`, computes with `uint`, and reads 0 as
failure.  A process that gives up all of its memory ends up with none of its pages, and with `sz` as
it was, and the call returns -1; one that gives up more than it has keeps everything, and the call
returns 0.  These are the only cases in which a call is not all or nothing
(`growproc_all_or_nothing_iff`).
-/
import Xv6.Vm.Paging

namespace Xv6.Vm

open Function (update update_of_ne update_self)

open Bytes

/-! ## 1. `allocuvm` -/

/-- The flags of a page that `allocuvm` has mapped. -/
abbrev PTE_PWU : Nat := 7

/-- The user pages `a`, .., `b - 1` are mapped, and are full of zeroes. -/
def Space.grow (S : Space) (a b : Nat) : Space :=
  { S with user := fun v => if a ≤ v ∧ v < b then some (PTE_PWU, fun _ => 0) else S.user v }

section

variable {L : Layout} {N d v a b g perm oldsz newsz : Nat} {s s₁ : Phys} {S : Space}
  {E : Fault → Prop}

theorem grow_empty (S : Space) (h : b ≤ a) : S.grow a b = S := by
  rw [Space.grow]
  congr 1
  funext u
  exact if_neg (by omega)

theorem grow_succ (S : Space) (h : a ≤ b) :
    (S.grow a b).setUser b (some (PTE_PWU, fun _ => 0)) = S.grow a (b + 1) := by
  simp only [Space.grow, Space.setUser]
  congr 1
  funext u
  rcases Nat.lt_trichotomy u b with hu | rfl | hu
  · rw [update_of_ne (by omega)]
    by_cases ha : a ≤ u
    · rw [if_pos (by omega), if_pos (by omega)]
    · rw [if_neg (by omega), if_neg (by omega)]
  · rw [update_self, if_pos (by omega)]
  · rw [update_of_ne (by omega), if_neg (by omega), if_neg (by omega)]

/-- What has been mapped is unmapped again. -/
theorem unmap_grow (h : S.Below a) (hv : v ≤ b) : (S.grow a v).unmap a b = S := by
  simp only [Space.grow, Space.unmap]
  have huser : (fun u => if a ≤ u ∧ u < b then none else
      if a ≤ u ∧ u < v then some (PTE_PWU, fun _ => 0) else S.user u) = S.user := by
    funext u
    by_cases hab : a ≤ u ∧ u < b
    · rw [if_pos hab, h u hab.1]
    · rw [if_neg hab, if_neg (by omega)]
  rw [huser]

theorem below_grow (h : S.Below a) (hv : a ≤ v) : (S.grow a v).Below v := by
  intro u hu
  rw [Space.grow]
  refine (if_neg (by omega)).trans (h u (by omega))

/-- What comes of a new page `g`, filled with `b` and mapped as page `v`. -/
inductive NewPage (N d v g perm : Nat) (b : Bytes) (s : Phys) : Int → Phys → Prop
  | ok {s' : Phys} : Trade N (owned s.page d) (owned s'.page d) s s' →
    space s'.page d = (space s.page d).setUser v (some (perm ||| PTE_P, b)) →
    (∀ u, u ≠ v → frame s'.page d u = frame s.page d u) → frame s'.page d v = some g →
    NewPage N d v g perm b s 0 s'
  | fail {s' : Phys} : Trade N (owned s.page d) ({g} + owned s'.page d) s s' →
    space s'.page d = space s.page d → (∀ u, frame s'.page d u = frame s.page d u) →
    s.denied < s'.denied → NewPage N d v g perm b s (-1) s'

/-- A page in hand can be written without touching the address space. -/
theorem agree_inHand {m : Nat → Bytes} (b : Bytes) (h : ({g} + owned m d).Nodup) :
    ∀ x ∈ owned m d, update m g b x = m x := by
  intro x hx
  refine update_of_ne ?_ ..
  rintro rfl
  exact Multiset.disjoint_left.mp (Multiset.nodup_add.mp h).2.2 (Multiset.mem_singleton_self _) hx

/-- A page that `kalloc` has returned is filled and mapped. -/
theorem wp_newPage {b : Bytes} (h : Sound L (owned s.page d) s)
    (htrade : Trade N (owned s.page d) ({g} + owned s.page d) s s₁) (hpage : s₁.page = s.page)
    (hp : perm < PGSIZE) (hv : v < UPAGES) (hnone : (space s.page d).user v = none)
    (hN : (owned s.page d).card + 1 ≤ N) :
    wp (do setPage g b; mappages d (v * PGSIZE) PGSIZE (g * PGSIZE) perm)
      (NewPage N d v g perm b s) E s₁ := by
  simp only [wp_bind, wp_setPage]
  generalize hs₂ : ({ s₁ with page := update s₁.page g b } : Phys) = s₂
  have hpage₂ : s₂.page = update s.page g b := by rw [← hs₂, ← hpage]
  have hagree : ∀ x ∈ owned s.page d, s₂.page x = s.page x := by
    rw [hpage₂]
    exact agree_inHand b (h.trade htrade).nodup_left
  have hown : owned s₂.page d = owned s.page d := owned_of_agree hagree
  have hspace : space s₂.page d = space s.page d := space_congr hagree
  have htrade₂ : Trade N (owned s.page d) ({g} + owned s₂.page d) s s₂ := by
    rw [hown]
    refine htrade.trans (.write (fun x hx => ?_) (by rw [← hs₂]) (by rw [← hs₂]) (by rw [← hs₂]))
    rw [hpage₂, hpage]
    refine update_of_ne ?_ ..
    rintro rfl
    exact hx (Multiset.mem_add.mpr (.inl (Multiset.mem_singleton_self _)))
  have hself : s₂.page g = b := by rw [hpage₂, update_self]
  refine wp_conseq (wp_mappages_user (N := N) hp (h.trade htrade₂) hv (by rw [hspace, hnone])
    (by rwa [hown])) ?_
  rintro _ s₃ (⟨htrade₃, hspace₃, hframes₃, hframe₃⟩ | ⟨htrade₃, hpage₃, hden₃⟩)
  · refine .ok (htrade₂.trans htrade₃) ?_
      (fun u hu => (hframes₃ u hu).trans (frame_of_agree hagree)) hframe₃
    rw [hspace₃, hspace, hself]
  · refine .fail ?_ ?_ (fun u => ?_) (lt_of_le_of_lt htrade₂.denied hden₃)
    · rw [hpage₃]
      exact htrade₂.trans htrade₃
    · rw [hpage₃, hspace]
    · rw [hpage₃]
      exact frame_of_agree hagree

/-- What `allocuvm` does to an address space that ends with `oldsz`. -/
inductive Alloc (N d oldsz newsz : Nat) (s : Phys) : Nat → Phys → Prop
  | big : KERNBASE ≤ newsz → Alloc N d oldsz newsz s 0 s
  | keep : newsz < oldsz → newsz < KERNBASE → Alloc N d oldsz newsz s oldsz s
  | ok {s' : Phys} : oldsz ≤ newsz → newsz < KERNBASE →
    Trade N (owned s.page d) (owned s'.page d) s s' →
    space s'.page d = (space s.page d).grow (npages oldsz) (npages newsz) →
    Alloc N d oldsz newsz s newsz s'
  | fail {s' : Phys} : oldsz ≤ newsz → newsz < KERNBASE →
    Trade N (owned s.page d) (owned s'.page d) s s' → space s'.page d = space s.page d →
    (∀ u, frame s'.page d u = frame s.page d u) → s.denied < s'.denied →
    Alloc N d oldsz newsz s 0 s'

/-- The loop of `allocuvm` has come to page `v`, with the pages `R` in hand. -/
structure Growing (N d a v : Nat) (R : Multiset Nat) (s s₁ : Phys) : Prop where
  trade : Trade N (owned s.page d) (R + owned s₁.page d) s s₁
  space : space s₁.page d = (space s.page d).grow a v
  frames : ∀ u, u < a → frame s₁.page d u = frame s.page d u

/-- The pages mapped so far are taken back. -/
theorem Growing.wp_undo {R : Multiset Nat} (h : Growing N d (npages oldsz) v R s s₁)
    (hs : Sound L (owned s.page d) s) (hbelow : (Vm.space s.page d).Below (npages oldsz))
    (hlt : newsz < KERNBASE) (hv : v ≤ npages newsz) (hR : R.card ≤ N) :
    wp (deallocuvm L d newsz oldsz) (fun _ s₂ =>
      Trade N (owned s.page d) (R + owned s₂.page d) s s₂ ∧ s₂.denied = s₁.denied ∧
      Vm.space s₂.page d = Vm.space s.page d ∧ ∀ u, frame s₂.page d u = frame s.page d u) E s₁ := by
  have hs₁ := hs.trade h.trade
  refine wp_conseq (wp_deallocuvm (N := 0) hlt.le hs₁.of_add) fun _ s₂ h₂ => ?_
  have hspace : Vm.space s₂.page d = Vm.space s.page d := by
    rw [h₂.1.space, h.space, unmap_grow hbelow hv]
  refine ⟨h.trade.trans (h₂.1.trade.frame R (by omega)), h₂.1.denied, hspace, fun u => ?_⟩
  by_cases hu : u < npages oldsz
  · rw [h₂.1.frames u (.inl hu), h.frames u hu]
  · have hnone := hbelow u (not_lt.mp hu)
    rw [user_eq_none.mp hnone, ← user_eq_none, hspace, hnone]

theorem wp_allocuvmLoop (h : Sound L (owned s.page d) s)
    (hbelow : (space s.page d).Below (npages oldsz)) (hle : oldsz ≤ newsz) (hlt : newsz < KERNBASE)
    (hN : 1026 + npages newsz ≤ N) : ∀ {fuel v : Nat} {s₁ : Phys}, npages newsz - v < fuel →
    npages oldsz ≤ v → v ≤ npages newsz → Growing N d (npages oldsz) v 0 s s₁ →
    wp (allocuvmLoop L d oldsz newsz fuel (v * PGSIZE)) (Alloc N d oldsz newsz s) E s₁ := by
  have hlast := npages_le hlt.le
  intro fuel
  induction fuel with
  | zero => exact fun hfuel => absurd hfuel (Nat.not_lt_zero _)
  | succ fuel ih =>
    intro v s₁ hfuel hold hv hg
    have htrade₁ := hg.trade
    rw [zero_add] at htrade₁
    simp only [allocuvmLoop, wp_ite, wp_bind, wp_pure, page_lt]
    refine ⟨fun hmore => ?_, fun hdone => ?_⟩
    swap
    · obtain rfl : v = npages newsz := by omega
      exact .ok hle hlt htrade₁ hg.space
    have hs₁ := h.trade htrade₁
    have hbelow₁ : (space s₁.page d).Below v := by
      rw [hg.space]
      exact below_grow hbelow hold
    have hcard := card_owned_le hbelow₁
    refine wp_conseq (wp_kalloc (N := N) (A := owned s₁.page d) (by omega)) ?_
    rintro _ s₂ (⟨htrade₂, hpage₂, hden₂⟩ | ⟨htrade₂, hpage₂, -⟩)
    · -- there is no page
      have hg₂ : Growing N d (npages oldsz) v 0 s s₂ := by
        refine ⟨?_, ?_, ?_⟩
        · rw [hpage₂, zero_add]
          exact htrade₁.trans htrade₂
        · rw [hpage₂, hg.space]
        · rw [hpage₂]
          exact hg.frames
      simp only [wp_bind, wp_pure]
      refine wp_conseq (hg₂.wp_undo h hbelow hlt hv (Nat.zero_le _)) ?_
      rintro _ s₃ ⟨htrade₃, hden₃, hspace₃, hframes₃⟩
      rw [zero_add] at htrade₃
      refine .fail hle hlt htrade₃ hspace₃ hframes₃ ?_
      rw [hden₃]
      exact lt_of_le_of_lt htrade₁.denied hden₂
    · rename_i g
      have hvu : v < UPAGES := lt_of_lt_of_le hmore hlast
      have hperm : PTE_W ||| PTE_U < PGSIZE := by decide
      have hnew := wp_newPage (E := E) (b := fun _ => 0) hs₁ htrade₂ hpage₂ hperm hvu
        (hbelow₁ v le_rfl) (by omega)
      rw [wp_bind] at hnew
      simp only [wp_bind]
      refine wp_conseq hnew fun _ s₃ h₃ => wp_conseq h₃ ?_
      rintro _ s₄ (⟨htrade₄, hspace₄, hframes₄, -⟩ | ⟨htrade₄, hspace₄, hframes₄, hden₄⟩)
      · -- the page is mapped
        have hadd : add32 (v * PGSIZE) PGSIZE = (v + 1) * PGSIZE := by
          refine add_page ?_
          simp only [UPAGES, VPAGES] at *
          omega
        simp only [lt_irrefl, if_false, hadd]
        refine ih (by omega) (by omega) (by omega) ⟨?_, ?_, fun u hu => ?_⟩
        · rw [zero_add]
          exact htrade₁.trans htrade₄
        · rw [hspace₄, hg.space]
          exact grow_succ _ hold
        · rw [hframes₄ u (by omega), hg.frames u hu]
      · -- there is no page for its table
        have hg₄ : Growing N d (npages oldsz) v {g} s s₄ := by
          refine ⟨htrade₁.trans htrade₄, ?_, fun u hu => ?_⟩
          · rw [hspace₄, hg.space]
          · rw [hframes₄, hg.frames u hu]
        simp only [Int.reduceNeg, Int.reduceLT, if_true, wp_bind, wp_pure]
        refine wp_conseq (hg₄.wp_undo h hbelow hlt hv (by rw [Multiset.card_singleton]; omega)) ?_
        rintro _ s₅ ⟨htrade₅, hden₅, hspace₅, hframes₅⟩
        have hs₅ := h.trade htrade₅
        refine wp_conseq (wp_kfree (N := N) hs₅) ?_
        rintro _ s₆ ⟨htrade₆, hden₆, hpage₆⟩
        have hagree : ∀ x ∈ owned s₅.page d, s₆.page x = s₅.page x := by
          rw [hpage₆]
          exact agree_inHand _ hs₅.nodup_left
        refine .fail hle hlt ?_ ?_ (fun u => ?_) ?_
        · rw [owned_of_agree hagree]
          exact htrade₅.trans htrade₆
        · rw [space_congr hagree, hspace₅]
        · rw [frame_of_agree hagree, hframes₅]
        · rw [hden₆, hden₅]
          exact lt_of_le_of_lt htrade₁.denied hden₄

/-- **`allocuvm`** of an address space that ends with `oldsz`. -/
theorem wp_allocuvm (h : Sound L (owned s.page d) s)
    (hbelow : (space s.page d).Below (npages oldsz)) (hN : 1026 + npages newsz ≤ N) :
    wp (allocuvm L d oldsz newsz) (Alloc N d oldsz newsz s) E s := by
  simp only [allocuvm, wp_ite, wp_pure, not_le, not_lt]
  refine ⟨fun hbig => .big hbig, fun hlt => ⟨fun hkeep => .keep hkeep hlt, fun hle => ?_⟩⟩
  rw [pgRoundUp_eq (by omega)]
  have hpages : npages oldsz ≤ npages newsz := Nat.div_le_div_right (by omega)
  have hlast := npages_le hlt.le
  refine wp_allocuvmLoop h hbelow hle hlt hN ?_ le_rfl hpages ⟨?_, ?_, fun _ _ => rfl⟩
  · rw [show NPAGES = VPAGES by decide]
    simp only [UPAGES, VPAGES] at *
    omega
  · rw [zero_add]
    exact .refl ..
  · rw [grow_empty _ le_rfl]

end

/-! ## 2. `growproc` -/

/-- `struct trapframe`: the program counter, the stack pointer, and the other registers. -/
structure Trapframe where
  eip : Nat
  esp : Nat
  regs : Nat → Nat

/-- What `struct proc` says about the program that runs. -/
structure Uproc where
  pgdir : Nat
  sz : Nat
  name : List UInt8
  tf : Trapframe

/-- `sz + n` on `uint`, for an `int`. -/
def addInt (sz : Nat) (n : Int) : Nat := ((sz + n) % 2 ^ 32).toNat

/-- `growproc(n)`, with what it returns and the process afterwards. -/
def growproc (L : Layout) (p : Uproc) (n : Int) : VmM (Int × Uproc) :=
  if 0 < n then do
    let sz ← allocuvm L p.pgdir p.sz (addInt p.sz n)
    if sz = 0 then return (-1, p) else return (0, { p with sz := sz })
  else if n < 0 then do
    let sz ← deallocuvm L p.pgdir p.sz (addInt p.sz n)
    if sz = 0 then return (-1, p) else return (0, { p with sz := sz })
  else return (0, p)

/-- The user pages of the process are those below its size, and they are its own. -/
structure Mapped (L : Layout) (p : Uproc) (s : Phys) : Prop where
  sound : Sound L (owned s.page p.pgdir) s
  lt : p.sz < KERNBASE
  user : ∀ v, ((space s.page p.pgdir).user v).isSome = true ↔ v < npages p.sz

/-- There are no user pages above the size of the process. -/
structure Within (L : Layout) (p : Uproc) (s : Phys) : Prop where
  sound : Sound L (owned s.page p.pgdir) s
  lt : p.sz < KERNBASE
  below : (space s.page p.pgdir).Below (npages p.sz)

/-- What a call of `growproc` should do: all, or nothing. -/
inductive AllOrNothing (p : Uproc) (n : Int) (s : Phys) : Except Fault ((Int × Uproc) × Phys) → Prop
  | all {p' : Uproc} {s' : Phys} : p'.pgdir = p.pgdir → (p'.sz : Int) = p.sz + n →
    (∀ v, ((space s'.page p.pgdir).user v).isSome = true ↔ v < npages p'.sz) →
    AllOrNothing p n s (.ok ((0, p'), s'))
  | nothing {p' : Uproc} {s' : Phys} : p'.pgdir = p.pgdir → p'.sz = p.sz →
    space s'.page p.pgdir = space s.page p.pgdir →
    (∀ v, frame s'.page p.pgdir v = frame s.page p.pgdir v) →
    AllOrNothing p n s (.ok ((-1, p'), s'))

section

variable {L : Layout} {p : Uproc} {n : Int} {s : Phys}

theorem Mapped.below (h : Mapped L p s) : (space s.page p.pgdir).Below (npages p.sz) := by
  intro v hv
  have := (h.user v).not.mpr (not_lt.mpr hv)
  rwa [Bool.not_eq_true, Option.isSome_eq_false_iff, Option.isNone_iff_eq_none] at this

theorem Mapped.within (h : Mapped L p s) : Within L p s := ⟨h.sound, h.lt, h.below⟩

/-- What the call does. -/
inductive Grown (N : Nat) (p : Uproc) (n : Int) (s : Phys) : Int × Uproc → Phys → Prop
  | grow {sz : Nat} {s' : Phys} : (sz : Int) = p.sz + n → 0 ≤ n → sz < KERNBASE →
    Trade N (owned s.page p.pgdir) (owned s'.page p.pgdir) s s' →
    space s'.page p.pgdir = (space s.page p.pgdir).grow (npages p.sz) (npages sz) →
    Grown N p n s (0, { p with sz := sz }) s'
  | shrink {sz : Nat} {s' : Phys} : (sz : Int) = p.sz + n → n < 0 → 0 < sz →
    Trade N (owned s.page p.pgdir) (owned s'.page p.pgdir) s s' →
    space s'.page p.pgdir = (space s.page p.pgdir).unmap (npages sz) (npages p.sz) →
    Grown N p n s (0, { p with sz := sz }) s'
  /-- It cannot grow, or there is nothing to give back. -/
  | nothing {s' : Phys} : (0 < n ∨ n < 0 ∧ p.sz = 0) →
    Trade N (owned s.page p.pgdir) (owned s'.page p.pgdir) s s' →
    space s'.page p.pgdir = space s.page p.pgdir →
    (∀ v, frame s'.page p.pgdir v = frame s.page p.pgdir v) → Grown N p n s (-1, p) s'
  /-- It has given back everything, and is told that it has failed. -/
  | lost {s' : Phys} : p.sz + n = 0 → n < 0 →
    Trade N (owned s.page p.pgdir) (owned s'.page p.pgdir) s s' →
    (∀ v, (space s'.page p.pgdir).user v = none) → Grown N p n s (-1, p) s'
  /-- It has asked to give back more than it has, and keeps everything. -/
  | kept {s' : Phys} : p.sz + n < 0 → 0 < p.sz →
    Trade N (owned s.page p.pgdir) (owned s'.page p.pgdir) s s' →
    space s'.page p.pgdir = space s.page p.pgdir →
    (∀ v, frame s'.page p.pgdir v = frame s.page p.pgdir v) → Grown N p n s (0, p) s'

theorem addInt_of_nonneg {z : Nat} (h : 0 ≤ z + n) (hlt : (z : Int) + n < 2 ^ 32) :
    (addInt z n : Int) = z + n := by
  rw [addInt, Int.emod_eq_of_lt h hlt, Int.toNat_of_nonneg h]

theorem addInt_of_neg {sz : Nat} (h : (sz : Int) + n < 0) (hmin : -2 ^ 31 ≤ n) :
    (addInt sz n : Int) = sz + n + 2 ^ 32 := by
  rw [addInt]
  omega

theorem npages_mono {a b : Nat} (h : a ≤ b) : npages a ≤ npages b :=
  Nat.div_le_div_right (Nat.add_le_add_right h _)

/-- The pages below `newsz` are left. -/
theorem isSome_unmap {S : Space} {sz newsz : Nat} (hle : newsz ≤ sz)
    (h : ∀ v, (S.user v).isSome = true ↔ v < npages sz) (v : Nat) :
    ((S.unmap (npages newsz) (npages sz)).user v).isSome = true ↔ v < npages newsz := by
  have hmono := npages_mono hle
  have hv := h v
  simp only [Space.unmap]
  split
  next hc => simp only [Option.isSome_none, Bool.false_eq_true, false_iff, not_lt, hc.1]
  next hc =>
    rw [hv]
    omega

/-- The pages up to `newsz` are there. -/
theorem isSome_grow {S : Space} {sz newsz : Nat} (hle : sz ≤ newsz)
    (h : ∀ v, (S.user v).isSome = true ↔ v < npages sz) (v : Nat) :
    ((S.grow (npages sz) (npages newsz)).user v).isSome = true ↔ v < npages newsz := by
  have hmono := npages_mono hle
  have hv := h v
  simp only [Space.grow]
  split
  next hc => simp only [Option.isSome_some, hc.2]
  next hc =>
    rw [hv]
    omega

/-- Everything is given back. -/
theorem unmap_all {S : Space} {K : Nat} (h : S.Below K) (v : Nat) : (S.unmap 0 K).user v = none := by
  simp only [Space.unmap]
  split
  next => rfl
  next hc => exact h v (by omega)

theorem wp_growproc {N : Nat} {E : Fault → Prop} (h : Within L p s) (hmin : -2 ^ 31 ≤ n)
    (hmax : n < 2 ^ 31) (hN : 1026 + npages (addInt p.sz n) ≤ N) :
    wp (growproc L p n) (Grown N p n s) E s := by
  have hsz : p.sz < 2 ^ 31 := h.lt
  simp only [growproc, wp_ite, wp_bind, wp_pure]
  refine ⟨fun hpos => ?_, fun hnpos => ⟨fun hneg => ?_, fun hzero => ?_⟩⟩
  · have hnew := addInt_of_nonneg (z := p.sz) (n := n) (by omega) (by omega)
    refine wp_conseq (wp_allocuvm h.sound h.below hN) ?_
    rintro _ s' (hbig | ⟨hlt, -⟩ | ⟨-, hlt, htrade, hspace⟩ | ⟨-, -, htrade, hspace, hframes, -⟩)
    · exact ⟨fun _ => .nothing (.inl hpos) (.refl ..) rfl fun _ => rfl, fun hne => absurd rfl hne⟩
    · omega
    · exact ⟨fun hzero => absurd hzero (by omega), fun _ => .grow hnew hpos.le hlt htrade hspace⟩
    · exact ⟨fun _ => .nothing (.inl hpos) htrade hspace hframes, fun hne => absurd rfl hne⟩
  · refine wp_conseq (wp_deallocuvm (N := N) h.lt.le h.sound) ?_
    rintro r s' ⟨hun, rfl⟩
    rcases lt_or_ge ((p.sz : Int) + n) 0 with hlow | hge
    · -- more than there is
      have hnew := addInt_of_neg hlow hmin
      have hle : p.sz ≤ addInt p.sz n := by omega
      have hmono := npages_mono hle
      have hspace : space s'.page p.pgdir = space s.page p.pgdir := by
        rw [hun.space, unmap_empty _ hmono]
      have hframes : ∀ v, frame s'.page p.pgdir v = frame s.page p.pgdir v := fun v =>
        hun.frames v (by omega)
      rw [Nat.min_eq_left hle]
      refine ⟨fun hzero => .nothing (.inr ⟨hneg, hzero⟩) hun.trade hspace hframes, fun hne => ?_⟩
      exact .kept hlow (by omega) hun.trade hspace hframes
    · have hnew := addInt_of_nonneg (z := p.sz) (n := n) hge (by omega)
      have hle : addInt p.sz n ≤ p.sz := by omega
      rw [Nat.min_eq_right hle]
      refine ⟨fun hzero => .lost (by omega) hneg hun.trade fun v => ?_, fun hne => ?_⟩
      · rw [hun.space, hzero, npages_zero]
        exact unmap_all h.below v
      · exact .shrink hnew hneg (Nat.pos_of_ne_zero hne) hun.trade hun.space
  · obtain rfl : n = 0 := by omega
    refine .grow (by omega) le_rfl h.lt (.refl ..) ?_
    rw [grow_empty _ le_rfl]

theorem Grown.allOrNothing {N : Nat} {x : Int × Uproc} {s' : Phys} (h : Grown N p n s x s')
    (hmap : Mapped L p s) (hn : p.sz = 0 ∨ 0 < p.sz + n) : AllOrNothing p n s (.ok (x, s')) := by
  rcases h with ⟨hsz, hpos, -, -, hspace⟩ | ⟨hsz, hneg, -, -, hspace⟩ | ⟨-, -, hspace, hframes⟩ |
    ⟨hzero, hneg, -, -⟩ | ⟨hlow, hpos, -, -, -⟩
  · refine .all rfl hsz ?_
    rw [hspace]
    exact isSome_grow (by omega) hmap.user
  · refine .all rfl hsz ?_
    rw [hspace]
    exact isSome_unmap (by omega) hmap.user
  · exact .nothing rfl rfl hspace hframes
  · omega
  · omega

theorem Grown.not_allOrNothing {N : Nat} {x : Int × Uproc} {s' : Phys} (h : Grown N p n s x s')
    (hmap : Mapped L p s) (hpos : 0 < p.sz) (hn : p.sz + n ≤ 0) :
    ¬ AllOrNothing p n s (.ok (x, s')) := by
  intro hall
  rcases h with ⟨-, hge, -, -, -⟩ | ⟨hsz, -, hkeep, -, -⟩ | ⟨hwhy, -, -, -⟩ | ⟨-, -, -, hnone⟩ |
    ⟨hlow, -, -, -, -⟩
  · omega
  · omega
  · omega
  · -- the first page is gone
    cases hall with
    | nothing _ _ hspace _ =>
      have hfirst := (hmap.user 0).mpr (by
        simp only [npages, PGSIZE]
        omega)
      rw [← hspace, hnone 0] at hfirst
      cases hfirst
  · cases hall with
    | all _ hsz _ => omega

/-- The call returns. -/
theorem exists_grown (h : Mapped L p s) (hmin : -2 ^ 31 ≤ n) (hmax : n < 2 ^ 31) :
    ∃ N x s', growproc L p n s = .ok (x, s') ∧ Grown N p n s x s' := by
  obtain ⟨x, s', hrun, hgrown⟩ := wp_returns (wp_growproc h.within hmin hmax le_rfl)
  exact ⟨_, x, s', hrun, hgrown⟩

/-- **When `growproc` is all or nothing**: if the process has no memory, or keeps some. -/
theorem growproc_all_or_nothing_iff (h : Mapped L p s) (hmin : -2 ^ 31 ≤ n) (hmax : n < 2 ^ 31) :
    AllOrNothing p n s (growproc L p n s) ↔ p.sz = 0 ∨ 0 < p.sz + n := by
  obtain ⟨N, x, s', hrun, hgrown⟩ := exists_grown h hmin hmax
  rw [hrun]
  constructor
  · intro hall
    by_contra hn
    exact hgrown.not_allOrNothing h (by omega) (by omega) hall
  · exact hgrown.allOrNothing h

end

/-! ## 3. A process with one page -/

/-- A kernel of 40 pages. -/
def smallLayout : Layout where
  data := 280
  kend := 296
  text := by decide
  data_le := by decide
  kend_le := by decide

/-- Page 300 is a directory with one table, page 301. -/
def oneTable : Nat → Bytes := linked (fun _ _ => 0) 300 301 0

/-- Page 302 is the only frame. -/
def onePage : Phys where
  page := stored oneTable 301 0 (302 * PGSIZE ||| PTE_PWU)
  freelist := []
  calls := 0
  denied := 0
  fails _ := false

def oneProc : Uproc := ⟨300, PGSIZE, [], ⟨0, PGSIZE, fun _ => 0⟩⟩

theorem oneTable_owned : owned oneTable 300 = {301, 300} ∧
    space oneTable 300 = .empty ∧ table oneTable 300 0 = some 301 := by
  have howned : owned (fun _ _ => 0) 300 = {300} := owned_empty rfl
  have hspace : space (fun _ _ => 0) 300 = .empty := space_empty rfl
  have hnone : table (fun _ _ => 0) 300 0 = none := empty_table rfl 0
  have hnodup : (owned (fun _ _ => 0) 300).Nodup := by
    rw [howned]
    exact Multiset.nodup_singleton _
  have hnew : 301 ∉ owned (fun _ _ => 0) 300 := by
    rw [howned]
    decide
  have hlt : (301 : Nat) < NPAGES := by decide
  refine ⟨?_, ?_, ?_⟩
  · rw [oneTable, owned_linked hnew (by decide) hnone hlt hnodup, howned]
    rfl
  · rw [oneTable, space_linked hnew (by decide) hnone hlt hnodup, hspace]
    exact if_neg (Nat.not_le.mpr (Nat.zero_lt_of_lt (Nat.lt_add_one 511)))
  · rw [oneTable, linked_table hlt, if_pos rfl]

/-- The only page is mapped. -/
theorem onePage_frame : frame onePage.page 300 0 = some 302 ∧
    ∀ v, v ≠ 0 → (space onePage.page 300).user v = none := by
  obtain ⟨howned, hspace, htable⟩ := oneTable_owned
  have hnodup : (owned oneTable 300).Nodup := by
    rw [howned]
    decide
  have hw : 302 * PGSIZE ||| PTE_PWU < 2 ^ 32 := by decide
  have hv : 0 < VPAGES := by decide
  constructor
  · rw [onePage, stored_frame_self hnodup hv htable hw (by decide), if_pos (by decide)]
    rfl
  · intro v hzero
    rw [onePage, stored_user hnodup hv htable hw hzero, hspace]
    rfl

theorem onePage_owned : owned onePage.page 300 = {302, 301, 300} := by
  obtain ⟨howned, hspace, htable⟩ := oneTable_owned
  have hnodup : (owned oneTable 300).Nodup := by
    rw [howned]
    decide
  have hold : frame oneTable 300 0 = none := by
    rw [← user_eq_none, hspace]
    rfl
  have hw : 302 * PGSIZE ||| PTE_PWU < 2 ^ 32 := by decide
  have hnew := owned_stored (v := 0) hnodup (by decide) htable hw (by decide)
  rw [hold, howned, bag_none, add_zero] at hnew
  calc owned onePage.page 300 = {301, 300} + bag (frame onePage.page 300 0) := hnew
    _ = {302, 301, 300} := by rw [onePage_frame.1]; decide

theorem oneProc_mapped : Mapped smallLayout oneProc onePage := by
  refine ⟨⟨?_, ?_⟩, by decide, fun v => ?_⟩
  · rw [oneProc, onePage_owned]
    decide
  · rw [oneProc, onePage_owned]
    intro g hg
    have hmem : g = 302 ∨ g = 301 ∨ g = 300 := by
      simpa [Phys.free, onePage] using hg
    rcases hmem with rfl | rfl | rfl
    all_goals exact ⟨by decide, by decide⟩
  · have hpages : npages oneProc.sz = 1 := by decide
    rw [hpages, Nat.lt_one_iff]
    by_cases hzero : v = 0
    · rw [hzero, oneProc, user_of_frame onePage_frame.1]
      exact iff_of_true rfl rfl
    · rw [oneProc, onePage_frame.2 v hzero]
      exact iff_of_false Bool.false_ne_true hzero

/-- Giving back everything fails, and leaves nothing. -/
theorem growproc_loses_everything : Mapped smallLayout oneProc onePage ∧
    ¬ AllOrNothing oneProc (-4096) onePage (growproc smallLayout oneProc (-4096) onePage) := by
  refine ⟨oneProc_mapped, ?_⟩
  obtain ⟨N, x, s', hrun, hgrown⟩ := exists_grown (n := -4096) oneProc_mapped (by decide) (by decide)
  rw [hrun]
  exact hgrown.not_allOrNothing oneProc_mapped (by decide) (by decide)

theorem growproc_all_or_nothing_iff_onePage : Mapped smallLayout oneProc onePage ∧
    AllOrNothing oneProc (-4095) onePage (growproc smallLayout oneProc (-4095) onePage) :=
  ⟨oneProc_mapped,
    (growproc_all_or_nothing_iff oneProc_mapped (by decide) (by decide)).mpr (.inr (by decide))⟩

end Xv6.Vm
