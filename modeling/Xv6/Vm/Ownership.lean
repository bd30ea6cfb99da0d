/-
# Every page is in one place

**Ownership** (`pages_in_one_place`).  In every state of every run, whichever calls of `kalloc` have
failed, the pages of the allocator are, each of them once: on the free list, taken before the first
process, the kernel stack of a process, in its address space as directory, table or frame of one page,
or a pipe.

**Shape** (`address_space_exact`).  As long as no call of `growproc` loses pages, the user pages of a
process are those below its size.  So the three calls that tell about memory agree, a fork gives the
child the same answers, and the code never meets a page where there should be none, or none where
there should be one.

Both are kept by one change at a time: a call trades pages of one slot, or of one pipe, with the free
list (`Trade`), and what is not in its hands stays as it is.
-/
import Xv6.Vm.Procs

namespace Xv6.Vm

open Function (update update_eq_self update_of_ne update_self)

open Bytes

/-! ## 1. Who has a page -/

namespace Kern

/-- The pages of a slot: a process has its kernel stack and its address space. -/
def slotPages (k : Kern) (i : Slot) : Multiset Nat :=
  if (k.table.proc i).state = .unused then 0
  else {k.kstack i} + owned k.phys.page (k.uproc i).pgdir

def pipePages (k : Kern) : Multiset Nat := (k.pipes.map PipePage.page : List Nat)

/-- All pages that are not free. -/
def places (k : Kern) : Multiset Nat := k.boot + ∑ i, k.slotPages i + k.pipePages

/-- Those that slot `i` does not have. -/
def others (k : Kern) (i : Slot) : Multiset Nat :=
  k.boot + ∑ j ∈ Finset.univ.erase i, k.slotPages j + k.pipePages

/-- Slot `i` is as before, up to wakeups. -/
structure SameSlot (k k' : Kern) (i : Slot) : Prop where
  unused : (k'.table.proc i).state = .unused ↔ (k.table.proc i).state = .unused
  kstack : k'.kstack i = k.kstack i
  uproc : k'.uproc i = k.uproc i

end Kern

/-- **The invariant**: each page is in one place, and the address space of a process of size `sz` is
as `P sz` says. -/
structure Inv (L : Layout) (P : Nat → Space → Prop) (k : Kern) : Prop where
  total : k.places + k.phys.free = L.pages
  shape : ∀ i, (k.table.proc i).state ≠ .unused →
    P (k.uproc i).sz (space k.phys.page (k.uproc i).pgdir)

section

variable {L : Layout} {P : Nat → Space → Prop} {k k' : Kern} {i j : Slot} {N : Nat}
  {A B : Multiset Nat}

theorem mem_pages {g : Nat} : g ∈ L.pages ↔ L.Pool g := by
  have hle := L.kend_le
  rw [Layout.pages, Multiset.mem_coe, List.mem_range'_1, Layout.Pool]
  omega

theorem sound_of_total {s : Phys} (h : A + s.free = L.pages) : Sound L A s where
  nodup := by
    rw [h]
    exact List.nodup_range'
  pool g hg := mem_pages.mp (h ▸ hg)

theorem Inv.sound (h : Inv L P k) : Sound L k.places k.phys := sound_of_total h.total

namespace Kern

theorem slotPages_of_unused (h : (k.table.proc i).state = .unused) : k.slotPages i = 0 := if_pos h

theorem slotPages_of_used (h : (k.table.proc i).state ≠ .unused) :
    k.slotPages i = {k.kstack i} + owned k.phys.page (k.uproc i).pgdir := if_neg h

theorem places_eq (k : Kern) (i : Slot) : k.places = k.others i + k.slotPages i := by
  rw [places, others, ← Finset.add_sum_erase _ _ (Finset.mem_univ i)]
  abel

theorem slotPages_le_others (hj : j ≠ i) : k.slotPages j ≤ k.others i := by
  rw [others]
  refine le_add_right (le_add_left ?_)
  exact Finset.single_le_sum (f := k.slotPages) (fun _ _ => zero_le)
    (Finset.mem_erase.mpr ⟨hj, Finset.mem_univ j⟩)

/-- A slot whose pages are not touched. -/
theorem SameSlot.pages (h : SameSlot k k' i)
    (hagree : ∀ g ∈ k.slotPages i, k'.phys.page g = k.phys.page g) :
    k'.slotPages i = k.slotPages i ∧ ((k.table.proc i).state ≠ .unused →
      space k'.phys.page (k'.uproc i).pgdir = space k.phys.page (k.uproc i).pgdir) := by
  by_cases hu : (k.table.proc i).state = .unused
  · exact ⟨by rw [slotPages_of_unused hu, slotPages_of_unused (h.unused.mpr hu)],
      fun hne => absurd hu hne⟩
  · rw [slotPages_of_used hu] at hagree
    have hspace : ∀ g ∈ owned k.phys.page (k.uproc i).pgdir, k'.phys.page g = k.phys.page g :=
      fun g hg => hagree g (Multiset.mem_add.mpr (.inr hg))
    rw [slotPages_of_used hu, slotPages_of_used (h.unused.not.mpr hu), h.kstack, h.uproc]
    exact ⟨by rw [owned_of_agree hspace], fun _ => space_congr hspace⟩

end Kern

/-- **One slot trades with the free list.** -/
theorem Inv.change (h : Inv L P k) (i : Slot) (hboot : k'.boot = k.boot)
    (hpipes : k'.pipes = k.pipes) (hsame : ∀ j, j ≠ i → Kern.SameSlot k k' j)
    (ht : Trade N (k.slotPages i) (k'.slotPages i) k.phys k'.phys)
    (hshape : (k'.table.proc i).state ≠ .unused →
      P (k'.uproc i).sz (space k'.phys.page (k'.uproc i).pgdir)) : Inv L P k' := by
  have hs := h.sound
  rw [k.places_eq i] at hs
  have hpages : ∀ j, j ≠ i → ∀ g ∈ k.slotPages j, k'.phys.page g = k.phys.page g := fun j hj g hg =>
    hs.outside ht (Multiset.mem_of_le (Kern.slotPages_le_others hj) hg)
  have hothers : k'.others i = k.others i := by
    rw [Kern.others, Kern.others, Kern.pipePages, Kern.pipePages, hboot, hpipes]
    congr 2
    refine Finset.sum_congr rfl fun j hj => ?_
    have hj := Finset.ne_of_mem_erase hj
    exact ((hsame j hj).pages (hpages j hj)).1
  constructor
  · rw [k'.places_eq i, hothers, add_assoc, ht.total, ← add_assoc, ← k.places_eq i, h.total]
  · intro j hu
    by_cases hj : j = i
    · subst hj
      exact hshape hu
    · have hsj := hsame j hj
      have hu := hsj.unused.not.mp hu
      rw [(hsj.pages (hpages j hj)).2 hu, hsj.uproc]
      exact h.shape j hu

/-- **The pipes trade with the free list.** -/
theorem Inv.changePipes (h : Inv L P k) {A B R : Multiset Nat} (hboot : k'.boot = k.boot)
    (hsame : ∀ j, Kern.SameSlot k k' j) (hold : k.pipePages = R + A) (hnew : k'.pipePages = R + B)
    (ht : Trade N A B k.phys k'.phys) : Inv L P k' := by
  have hs := h.sound
  have hplaces : k.places = k.boot + ∑ i, k.slotPages i + R + A := by
    rw [Kern.places, hold]
    abel
  rw [hplaces] at hs
  have hpages : ∀ j, ∀ g ∈ k.slotPages j, k'.phys.page g = k.phys.page g := by
    intro j g hg
    refine hs.outside ht (Multiset.mem_of_le (le_add_right (le_add_left ?_)) hg)
    exact Finset.single_le_sum (f := k.slotPages) (fun _ _ => zero_le) (Finset.mem_univ j)
  constructor
  · have hslots : ∑ i, k'.slotPages i = ∑ i, k.slotPages i :=
      Finset.sum_congr rfl fun j _ => ((hsame j).pages (hpages j)).1
    rw [Kern.places, hboot, hslots, hnew, ← add_assoc, add_assoc _ B, ht.total, ← add_assoc,
      ← hplaces, h.total]
  · intro j hu
    have hu := (hsame j).unused.not.mp hu
    rw [((hsame j).pages (hpages j)).2 hu, (hsame j).uproc]
    exact h.shape j hu

/-- Only states have changed, and none to or from UNUSED. -/
theorem Inv.states (h : Inv L P k) (hboot : k'.boot = k.boot) (hpipes : k'.pipes = k.pipes)
    (hphys : k'.phys = k.phys) (hsame : ∀ j, Kern.SameSlot k k' j) : Inv L P k' := by
  refine h.changePipes (N := 0) (A := 0) (B := 0) (R := k.pipePages) hboot hsame
    (add_zero _).symm ?_ ?_
  · rw [Kern.pipePages, hpipes, add_zero]
    rfl
  · rw [hphys]
    exact .refl ..

end

/-! ## 2. What the calls keep -/

/-- No page above the size. -/
def Bounded (sz : Nat) (S : Space) : Prop := sz < KERNBASE ∧ S.Below (npages sz)

/-- Exactly the pages below the size. -/
def Exact (sz : Nat) (S : Space) : Prop :=
  sz < KERNBASE ∧ ∀ v, (S.user v).isSome = true ↔ v < npages sz

theorem Exact.bounded {sz : Nat} {S : Space} (h : Exact sz S) : Bounded sz S := by
  refine ⟨h.1, fun v hv => ?_⟩
  have := (h.2 v).not.mpr (not_lt.mpr hv)
  rwa [Bool.not_eq_true, Option.isSome_eq_false_iff, Option.isNone_iff_eq_none] at this

/-- The shapes that an invariant can ask for: growing and shrinking keep them. -/
structure Shape (P : Nat → Space → Prop) : Prop where
  of_exact : ∀ {sz S}, Exact sz S → P sz S
  bounded : ∀ {sz S}, P sz S → Bounded sz S
  grow : ∀ {sz sz' S}, P sz S → sz ≤ sz' → sz' < KERNBASE →
    P sz' (S.grow (npages sz) (npages sz'))
  unmap : ∀ {sz sz' S}, P sz S → sz' ≤ sz → P sz' (S.unmap (npages sz') (npages sz))

theorem shape_exact : Shape Exact where
  of_exact := id
  bounded := Exact.bounded
  grow h hle hlt := ⟨hlt, isSome_grow hle h.2⟩
  unmap h hle := ⟨lt_of_le_of_lt hle h.1, isSome_unmap hle h.2⟩

theorem shape_bounded : Shape Bounded where
  of_exact := Exact.bounded
  bounded := id
  grow h hle hlt := ⟨hlt, below_grow h.2 (npages_mono hle)⟩
  unmap {sz sz' S} h hle := by
    refine ⟨lt_of_le_of_lt hle h.1, fun v hv => ?_⟩
    simp only [Space.unmap]
    split
    next => rfl
    next hc => exact h.2 v (by omega)

section

variable {L : Layout} {P : Nat → Space → Prop} {k k' : Kern} {i j cur : Slot} {N : Nat}
  {E : Fault → Prop} {α : Type}

@[simp] theorem wp_onPhys (m : VmM α) (Q : α → Kern → Prop) :
    wp (onPhys m) Q E k ↔ wp m (fun a s => Q a { k with phys := s }) E k.phys := by
  simp only [wp, onPhys]
  cases m k.phys <;> rfl

@[simp] theorem wp_setTable (t : Ptable) (Q : Unit → Kern → Prop) :
    wp (Kern.setTable t) Q E k ↔ Q () { k with table := t } := Iff.rfl

@[simp] theorem wp_setKstack (g : Nat) (Q : Unit → Kern → Prop) :
    wp (Kern.setKstack i g) Q E k ↔ Q () { k with kstack := update k.kstack i g } := Iff.rfl

@[simp] theorem wp_setUproc (p : Uproc) (Q : Unit → Kern → Prop) :
    wp (Kern.setUproc i p) Q E k ↔ Q () { k with uproc := update k.uproc i p } := Iff.rfl

theorem Kern.Alive.used (h : k.Alive i) : (k.table.proc i).state ≠ .unused := by
  rcases h with h | h | h <;> rw [h] <;> decide

/-- The address space of a process is its own. -/
theorem Inv.sound_space (h : Inv L P k) (hu : (k.table.proc i).state ≠ .unused) :
    Sound L (owned k.phys.page (k.uproc i).pgdir) k.phys := by
  have hs := h.sound
  rw [k.places_eq i, Kern.slotPages_of_used hu, ← add_assoc] at hs
  exact hs.of_add

theorem Inv.within (h : Inv L P k) (hP : Shape P) (hu : (k.table.proc i).state ≠ .unused) :
    Within L (k.uproc i) k.phys :=
  ⟨h.sound_space hu, (hP.bounded (h.shape i hu)).1, (hP.bounded (h.shape i hu)).2⟩

/-- The program of one process changes, with its address space. -/
theorem Inv.setUproc (h : Inv L P k) (hu : (k.table.proc i).state ≠ .unused) {p : Uproc} {s : Phys}
    (ht : Trade N (owned k.phys.page (k.uproc i).pgdir) (owned s.page p.pgdir) k.phys s)
    (hshape : P p.sz (space s.page p.pgdir)) :
    Inv L P { k with phys := s, uproc := update k.uproc i p } := by
  have hself : update k.uproc i p i = p := update_self ..
  have hpages : Kern.slotPages { k with phys := s, uproc := update k.uproc i p } i =
      {k.kstack i} + owned s.page p.pgdir := by
    rw [Kern.slotPages]
    dsimp only
    rw [if_neg hu, hself]
  refine h.change i (N := N + 1) rfl rfl (fun j hj => ⟨Iff.rfl, rfl, update_of_ne hj ..⟩)
    ?_ fun _ => ?_
  · rw [Kern.slotPages_of_used hu, hpages]
    exact ht.frame _ (by rw [Multiset.card_singleton])
  · dsimp only
    rw [hself]
    exact hshape

theorem wp_growproc_inv (h : Inv L P k) (hP : Shape P) (hu : (k.table.proc cur).state ≠ .unused)
    {n : Int} (hmin : -2 ^ 31 ≤ n) (hmax : n < 2 ^ 31) :
    wp (Kern.growproc L cur n)
      (fun r k' => (r = 0 ∨ 0 < n ∨ ∀ sz S, Bounded sz S → P sz S) → Inv L P k') E k := by
  have hwithin := h.within hP hu
  have hshape := h.shape cur hu
  simp only [Kern.growproc, wp_bind, wp_get, wp_onPhys, wp_setUproc, wp_pure]
  refine wp_conseq (wp_growproc hwithin hmin hmax le_rfl) ?_
  rintro _ s (⟨hsz, hn, hlt, ht, hspace⟩ | ⟨hsz, hn, -, ht, hspace⟩ | ⟨-, ht, hspace, -⟩ |
    ⟨hzero, hn, ht, hnone⟩ | ⟨-, -, ht, hspace, -⟩) hr
  · refine h.setUproc hu ht ?_
    dsimp only
    rw [hspace]
    exact hP.grow hshape (by omega) hlt
  · refine h.setUproc hu ht ?_
    dsimp only
    rw [hspace]
    exact hP.unmap hshape (by omega)
  · refine h.setUproc hu ht ?_
    rw [hspace]
    exact hshape
  · -- all pages are gone, and the size stays
    have hall := (hr.resolve_left (by decide : (-1 : Int) ≠ 0)).resolve_left (by omega)
    exact h.setUproc hu ht (hall _ _ ⟨hwithin.lt, fun v _ => hnone v⟩)
  · refine h.setUproc hu ht ?_
    rw [hspace]
    exact hshape

theorem wp_exec_inv (h : Inv L P k) (hP : Shape P) (hu : (k.table.proc cur).state ≠ .unused)
    {path : List UInt8} {file : Option (List UInt8)} {args : List (List UInt8)}
    (hargs : ∀ arg ∈ args, arg.length < KERNBASE) (hE : E .nullPte) :
    wp (Kern.exec L cur path file args) (fun _ k' => Inv L P k') E k := by
  have hsound := h.sound_space hu
  simp only [Kern.exec, wp_bind, wp_get, wp_onPhys, wp_setUproc, wp_pure]
  cases file with
  | none =>
    rw [exec]
    exact h.setUproc hu (.refl 0 ..) (h.shape cur hu)
  | some file =>
    refine wp_mono (wp_exec hsound (enough_all file) hargs) ?_ ?_
    · rintro _ s (⟨-, -, hruns, ht⟩ | ⟨-, hsame, ht⟩)
      · exact h.setUproc hu ht (hP.of_exact ⟨hruns.lt, hruns.pages⟩)
      · have hown := owned_of_agree hsame
        refine h.setUproc hu (by rw [hown]; exact ht) ?_
        dsimp only
        rw [space_congr hsame]
        exact h.shape cur hu
    · rintro e ⟨rfl, -⟩
      exact hE

/-- What `allocproc` does: the slot `i` was UNUSED, and has a kernel stack or is UNUSED again. -/
inductive NewProc (k : Kern) : Option Slot → Kern → Prop
  | full : k.table.allocproc = none → NewProc k none k
  | fail {i : Slot} {t : Ptable} {s : Phys} : k.table.allocproc = some (i, t) →
    Trade 0 0 0 k.phys s → k.phys.denied < s.denied →
    NewProc k none
      { k with table := t.forkFail i, kstack := Function.update k.kstack i 0, phys := s }
  | ok {i : Slot} {t : Ptable} {g : Nat} {s : Phys} : k.table.allocproc = some (i, t) →
    Trade 0 0 {g} k.phys s → s.page = k.phys.page →
    NewProc k (some i) { k with table := t, kstack := Function.update k.kstack i g, phys := s }

theorem wp_allocproc : wp Kern.allocproc (NewProc k) E k := by
  simp only [Kern.allocproc, wp_bind, wp_get]
  cases halloc : k.table.allocproc with
  | none => exact .full halloc
  | some x =>
    obtain ⟨i, t⟩ := x
    simp only [wp_bind, wp_setTable, wp_onPhys]
    refine wp_conseq (wp_kalloc (N := 0) (A := 0) (Multiset.card_zero ▸ le_rfl)) ?_
    rintro _ s (⟨ht, hpage, hden⟩ | ⟨ht, hpage, -⟩)
    · simp only [wp_bind, wp_setKstack, wp_setTable, wp_pure]
      exact .fail halloc ht hden
    · simp only [wp_bind, wp_setKstack, wp_pure]
      rw [add_zero] at ht
      exact .ok halloc ht hpage

/-- A slot that was UNUSED is filled: everything it has comes from the free list. -/
theorem Inv.fill (h : Inv L P k) (hu : (k.table.proc i).state = .unused) (hboot : k'.boot = k.boot)
    (hpipes : k'.pipes = k.pipes) (hsame : ∀ j, j ≠ i → Kern.SameSlot k k' j)
    (ht : Trade N 0 (k'.slotPages i) k.phys k'.phys)
    (hshape : (k'.table.proc i).state ≠ .unused →
      P (k'.uproc i).sz (space k'.phys.page (k'.uproc i).pgdir)) : Inv L P k' := by
  rw [← Kern.slotPages_of_unused hu] at ht
  exact h.change i hboot hpipes hsame ht hshape

/-- What `fork` does. -/
inductive Forked (k : Kern) (cur : Slot) : Int → Kern → Prop
  | fail {k' : Kern} : Forked k cur (-1) k'
  | ok {k' : Kern} {np : Slot} : (k.table.proc np).state = .unused →
    (k'.table.proc np).state = .runnable → (k'.table.proc np).parent = some cur →
    k'.table.proc cur = k.table.proc cur → k'.uproc cur = k.uproc cur →
    (k'.uproc np).sz = (k.uproc cur).sz → Forked k cur (k'.table.proc np).pid k'

/-- `allocproc` only changes the slot that it returns. -/
theorem allocproc_proc {t t' : Ptable} (h : t.allocproc = some (i, t')) (hj : j ≠ i) :
    t'.proc j = t.proc j := by
  rw [(Ptable.allocproc_eq_some h).2]
  exact Ptable.setProc_of_ne t hj _

theorem Kern.SameSlot.of_proc (hproc : k'.table.proc i = k.table.proc i)
    (hk : k'.kstack i = k.kstack i) (hp : k'.uproc i = k.uproc i) : Kern.SameSlot k k' i :=
  ⟨by rw [hproc], hk, hp⟩

/-- The new slot is UNUSED again. -/
theorem Inv.giveUp (h : Inv L P k) {t : Ptable} (halloc : k.table.allocproc = some (i, t))
    (htable : k'.table = t.forkFail i) (hboot : k'.boot = k.boot) (hpipes : k'.pipes = k.pipes)
    (hk : ∀ j, j ≠ i → k'.kstack j = k.kstack j) (hp : ∀ j, j ≠ i → k'.uproc j = k.uproc j)
    (ht : Trade N 0 0 k.phys k'.phys) : Inv L P k' := by
  have hself : (k'.table.proc i).state = .unused := by
    rw [htable, Ptable.forkFail, Ptable.setState, Ptable.setProc_self]
  refine h.fill (N := N) (Ptable.allocproc_eq_some halloc).1 hboot hpipes (fun j hj => ?_)
    (by rwa [Kern.slotPages_of_unused hself]) fun hne => absurd hself hne
  refine .of_proc ?_ (hk j hj) (hp j hj)
  rw [htable, ← allocproc_proc halloc hj]
  exact Ptable.setProc_of_ne t hj _

theorem exact_copy {S : Space} {sz : Nat} (hlt : sz < KERNBASE)
    (h : ∀ v, v < npages sz → (S.user v).isSome = true) :
    Exact sz ((kernSpace L).copy S (npages sz)) := by
  refine ⟨hlt, fun v => ?_⟩
  rw [Space.copy]
  dsimp only
  by_cases hv : v < npages sz
  · rw [if_pos hv]
    exact iff_of_true (h v hv) hv
  · rw [if_neg hv, kernSpace_user]
    exact iff_of_false Bool.false_ne_true hv

/-- The new slot `i` holds the process `p`. -/
theorem Inv.occupy (h : Inv L P k) {g : Nat} {p : Uproc} (hnew : (k.table.proc i).state = .unused)
    (hused : (k'.table.proc i).state ≠ .unused)
    (hproc : ∀ j, j ≠ i → k'.table.proc j = k.table.proc j) (hboot : k'.boot = k.boot)
    (hpipes : k'.pipes = k.pipes) (hk : k'.kstack = update k.kstack i g)
    (hp : k'.uproc = update k.uproc i p)
    (ht : Trade N 0 ({g} + owned k'.phys.page p.pgdir) k.phys k'.phys)
    (hshape : P p.sz (space k'.phys.page p.pgdir)) : Inv L P k' := by
  have hpi : k'.uproc i = p := by rw [hp, update_self]
  refine h.fill (N := N) hnew hboot hpipes (fun j hj => .of_proc (hproc j hj) ?_ ?_) ?_ fun _ => ?_
  · rw [hk, update_of_ne hj]
  · rw [hp, update_of_ne hj]
  · rwa [Kern.slotPages_of_used hused, hpi, hk, update_self]
  · rwa [hpi]

/-- The new slot holds a child of `cur`. -/
theorem Inv.child (h : Inv L P k) {t : Ptable} {g : Nat} {p : Uproc} (hne : cur ≠ i)
    (halloc : k.table.allocproc = some (i, t)) (htable : k'.table = t.forkDone cur i)
    (hboot : k'.boot = k.boot) (hpipes : k'.pipes = k.pipes)
    (hk : k'.kstack = update k.kstack i g) (hp : k'.uproc = update k.uproc i p)
    (hsz : p.sz = (k.uproc cur).sz)
    (ht : Trade N 0 ({g} + owned k'.phys.page p.pgdir) k.phys k'.phys)
    (hshape : P p.sz (space k'.phys.page p.pgdir)) :
    Inv L P k' ∧ Forked k cur (t.proc i).pid k' := by
  have hself : k'.table.proc i = { t.proc i with parent := some cur, state := .runnable } := by
    rw [htable, Ptable.forkDone, Ptable.setProc_self]
  have hused : (k'.table.proc i).state ≠ .unused := by
    rw [hself]
    exact (by decide : ProcState.runnable ≠ .unused)
  have hnew := (Ptable.allocproc_eq_some halloc).1
  have hproc : ∀ j, j ≠ i → k'.table.proc j = k.table.proc j := fun j hj => by
    rw [htable, ← allocproc_proc halloc hj]
    exact Ptable.setProc_of_ne t hj _
  have hpid : (t.proc i).pid = (k'.table.proc i).pid := by rw [hself]
  refine ⟨h.occupy hnew hused hproc hboot hpipes hk hp ht hshape, ?_⟩
  rw [hpid]
  refine .ok hnew ?_ ?_ (hproc cur hne) ?_ ?_
  · rw [hself]
  · rw [hself]
  · rw [hp, update_of_ne hne]
  · rw [hp, update_self, hsz]

theorem wp_fork_inv (h : Inv L P k) (hP : Shape P) (hu : (k.table.proc cur).state ≠ .unused)
    (hE : ∀ v, v < npages (k.uproc cur).sz → v < UPAGES →
      ((space k.phys.page (k.uproc cur).pgdir).user v).isSome = true ∨ E .copyPte ∧ E .copyPage) :
    wp (Kern.fork L cur) (fun r k' => Inv L P k' ∧ Forked k cur r k') E k := by
  simp only [Kern.fork, wp_bind]
  refine wp_conseq wp_allocproc ?_
  rintro _ k₁ (_ | ⟨halloc, ht₁, -⟩ | ⟨halloc, ht₁, hpage₁⟩)
  · exact ⟨h, .fail⟩
  · exact ⟨h.giveUp halloc rfl rfl rfl (fun j hj => update_of_ne hj ..) (fun _ _ => rfl) ht₁,
      .fail⟩
  -- the slot has a kernel stack
  rename_i np t g s₁
  have hnp := (Ptable.allocproc_eq_some halloc).1
  have hne : cur ≠ np := by
    rintro rfl
    exact hu hnp
  have hs₁ : Sound L ({g} + 0) s₁ := by
    rw [add_zero]
    exact h.sound.none.trade ht₁
  have hfree : ∀ x ∈ owned s₁.page (k.uproc cur).pgdir, x ∉ s₁.freelist := by
    rw [hpage₁]
    intro x hx hx'
    refine (h.sound_space hu).not_free hx ?_
    have hmem : x ∈ {g} + s₁.free := Multiset.mem_add.mpr (.inr hx')
    rw [ht₁.total, zero_add] at hmem
    exact hmem
  rw [← hpage₁] at hE
  simp only [wp_bind, wp_get, wp_onPhys]
  refine wp_conseq (wp_copyuvm hs₁.of_add hfree hE le_rfl) ?_
  have hstack : update k.kstack np g np = g := update_self ..
  rw [← add_zero ({g} : Multiset Nat)] at ht₁
  rintro _ s₂ (⟨-, hall, ht₂, hspace₂⟩ | ⟨ht₂, -⟩)
  · rename_i d
    simp only [wp_bind, wp_setUproc, wp_setTable, wp_pure]
    have ht := (ht₁.mono (Nat.zero_le _)).trans (ht₂.frame {g} le_rfl)
    refine h.child hne halloc rfl rfl rfl rfl rfl rfl ht ?_
    dsimp only
    rw [hspace₂]
    exact hP.of_exact (exact_copy (h.within hP hu).lt hall)
  · simp only [wp_bind, wp_setUproc, wp_setTable, wp_setKstack, wp_onPhys, wp_pure, hstack]
    have ht₂ := ht₂.frame {g} le_rfl
    refine wp_conseq (wp_kfree (N := 0) (hs₁.trade ht₂)) ?_
    rintro _ s₃ ⟨ht₃, -, -⟩
    refine ⟨h.giveUp halloc rfl rfl rfl (fun j hj => ?_) (fun j hj => update_of_ne hj ..)
      (((ht₁.mono (Nat.zero_le _)).trans ht₂).trans (ht₃.mono (Nat.zero_le _))), .fail⟩
    dsimp only
    rw [update_of_ne hj, update_of_ne hj]

theorem wp_exit_inv (h : Inv L P k) (hu : (k.table.proc cur).state ≠ .unused) :
    wp (Kern.exit cur) (fun _ k' => Inv L P k') E k := by
  have hexit := Ptable.exit_exited k.table cur
  refine h.states rfl rfl rfl fun j => ⟨?_, rfl, rfl⟩
  by_cases hj : j = cur
  · refine iff_of_false ?_ (hj ▸ hu)
    rw [hj, hexit.zombie]
    decide
  · exact (hexit.woken j hj).eq_iff (by decide) (by decide)

/-- A slot is emptied: all its pages are free. -/
theorem Inv.empty (h : Inv L P k) (hu : (k'.table.proc i).state = .unused) (hboot : k'.boot = k.boot)
    (hpipes : k'.pipes = k.pipes) (hsame : ∀ j, j ≠ i → Kern.SameSlot k k' j)
    (ht : Trade N (k.slotPages i) 0 k.phys k'.phys) : Inv L P k' := by
  rw [← Kern.slotPages_of_unused hu] at ht
  exact h.change i hboot hpipes hsame ht fun hne => absurd hu hne

theorem wp_wait_inv (h : Inv L P k) (hu : (k.table.proc cur).state ≠ .unused) :
    wp (Kern.wait L cur) (fun _ k' => Inv L P k') E k := by
  simp only [Kern.wait, wp_bind, wp_get]
  cases hfind : k.table.find fun p => p.parent = some cur ∧ p.state = .zombie with
  | none =>
    refine h.states rfl rfl rfl fun j => ⟨?_, rfl, rfl⟩
    dsimp only
    rw [Ptable.wait, hfind]
    dsimp only
    split_ifs
    · exact Iff.rfl
    · by_cases hj : j = cur
      · subst hj
        refine iff_of_false ?_ hu
        rw [Ptable.sleep, Ptable.setProc_self]
        exact (by decide : ProcState.sleeping ≠ .unused)
      · rw [Ptable.sleep, Ptable.setProc_of_ne _ hj]
  | some i =>
    have hzombie : (k.table.proc i).state = .zombie :=
      (of_decide_eq_true (Ptable.of_find_some hfind)).2
    have hused : (k.table.proc i).state ≠ .unused := by
      rw [hzombie]
      decide
    have hs := h.sound
    rw [k.places_eq i, Kern.slotPages_of_used hused] at hs
    simp only [wp_bind, wp_onPhys, wp_setKstack, wp_setUproc, wp_setTable, wp_pure]
    refine wp_conseq (wp_kfree (N := 1) hs.of_add) ?_
    rintro _ s₁ ⟨ht₁, -, hpage₁⟩
    have hagree : ∀ x ∈ owned k.phys.page (k.uproc i).pgdir, s₁.page x = k.phys.page x := by
      rw [hpage₁]
      exact agree_inHand _ hs.of_add.nodup_left
    have hown := owned_of_agree hagree
    have hs₁ := hs.of_add.trade ht₁
    rw [← hown] at hs₁
    refine wp_conseq (wp_freevm (N := 1) hs₁) ?_
    rintro _ s₂ ⟨ht₂, -⟩
    rw [hown] at ht₂
    have htable : (k.table.wait cur).2 = k.table.setProc i { k.table.proc i with
        pid := 0, parent := none, killed := false, state := .unused } := by
      rw [Ptable.wait, hfind]
    refine h.empty (i := i) (N := 1) ?_ rfl rfl (fun j hj => .of_proc ?_ ?_ ?_) ?_
    · dsimp only
      rw [htable, Ptable.setProc_self]
    · dsimp only
      rw [htable, Ptable.setProc_of_ne _ hj]
    · exact update_of_ne hj ..
    · exact update_of_ne hj ..
    · rw [Kern.slotPages_of_used hused]
      exact ht₁.trans ht₂

theorem wp_pipealloc_inv (h : Inv L P k) {files : Bool} :
    wp (Kern.pipealloc files) (fun _ k' => Inv L P k') E k := by
  simp only [Kern.pipealloc, wp_ite, wp_bind, wp_onPhys, wp_pure]
  refine ⟨fun _ => ?_, fun _ => h⟩
  refine wp_conseq (wp_kalloc (N := 0) (A := 0) (Multiset.card_zero ▸ le_rfl)) ?_
  rintro _ s (⟨ht, -, -⟩ | ⟨ht, -, -⟩)
  · exact h.changePipes rfl (fun _ => ⟨Iff.rfl, rfl, rfl⟩) (add_zero _).symm (add_zero _).symm ht
  · rename_i g
    rw [add_zero] at ht
    simp only [wp_bind, wp_modify, wp_pure]
    refine h.changePipes rfl (fun _ => ⟨Iff.rfl, rfl, rfl⟩) (add_zero _).symm ?_ ht
    rw [Kern.pipePages, List.map_cons, ← Multiset.cons_coe, ← Multiset.singleton_add, add_comm]
    rfl

/-- One pipe, and the others. -/
theorem pipePages_erase {p : PipePage} (hp : p ∈ k.pipes) :
    k.pipePages = ((k.pipes.erase p).map PipePage.page : List Nat) + {p.page} := by
  have hperm := (List.perm_cons_erase hp).map PipePage.page
  rw [Kern.pipePages, Multiset.coe_eq_coe.mpr hperm, List.map_cons, ← Multiset.cons_coe,
    ← Multiset.singleton_add, add_comm]

theorem wp_pipeclose_inv (h : Inv L P k) {p : PipePage} (hp : p ∈ k.pipes) {writable : Bool} :
    wp (Kern.pipeclose L p writable) (fun _ k' => Inv L P k') E k := by
  have hold := pipePages_erase hp
  simp only [Kern.pipeclose, wp_ite, wp_bind, wp_onPhys, wp_modify]
  refine ⟨fun _ => ?_, fun _ => ?_⟩
  · have hs := h.sound
    rw [Kern.places, hold, ← add_assoc] at hs
    have hs := hs.of_add
    rw [← add_zero ({p.page} : Multiset Nat)] at hs
    refine wp_conseq (wp_kfree (N := 1) hs) ?_
    rintro _ s ⟨ht, -, -⟩
    rw [add_zero] at ht
    exact h.changePipes rfl (fun _ => ⟨Iff.rfl, rfl, rfl⟩) hold (add_zero _).symm ht
  · have hclose : (p.close writable).page = p.page := by
      cases writable <;> rfl
    refine h.changePipes (N := 0) rfl (fun _ => ⟨Iff.rfl, rfl, rfl⟩) hold ?_ (.refl ..)
    rw [Kern.pipePages, List.map_cons, hclose, ← Multiset.cons_coe, ← Multiset.singleton_add,
      add_comm]

/-- `inituvm` in a new address space maps its first page, unless `kalloc` fails. -/
theorem wp_inituvm {d : Nat} {s : Phys} {init : List UInt8} (h : Sound L (owned s.page d) s)
    (hspace : space s.page d = kernSpace L)
    (hE : ∀ e, PGSIZE ≤ init.length ∨ (∃ c, s.fails c = true) ∨
      (owned s.page d).card + s.freelist.length ≤ 1026 → E e) :
    wp (inituvm d init) (fun _ s' => s.denied ≤ s'.denied ∧
      (s.denied < s'.denied → (∃ c, s.fails c = true) ∨
        (owned s.page d).card + s.freelist.length ≤ 1026) ∧
      (s'.denied ≤ s.denied → Trade 1026 (owned s.page d) (owned s'.page d) s s' ∧
        Exact PGSIZE (space s'.page d))) E s := by
  have hnone : ∀ v, (space s.page d).user v = none := fun v => by rw [hspace, kernSpace_user]
  have hcard : (owned s.page d).card ≤ 1025 + 0 := card_owned_le fun v _ => hnone v
  simp only [inituvm, wp_bind, wp_ite, wp_throw]
  refine ⟨fun hlen => hE _ (.inl hlen), fun hlen => ?_⟩
  refine wp_conseq (wp_kalloc (N := 1026) (A := owned s.page d) (by omega)) ?_
  rintro _ s₁ (⟨ht₁, -, hden₁⟩ | ⟨ht₁, hpage₁, -⟩)
  · exact hE _ (.inr (ht₁.short hden₁))
  rename_i g
  have hmap : wp (do
      setPage g fun _ => 0
      mappages d (0 * PGSIZE) PGSIZE (g * PGSIZE) (PTE_W ||| PTE_U))
      (NewPage 1026 d 0 g (PTE_W ||| PTE_U) (fun _ => 0) s) E s₁ :=
    wp_newPage h ht₁ hpage₁ (by decide) (by decide) (hnone 0) (by omega)
  rw [wp_bind, Nat.zero_mul] at hmap
  simp only [wp_bind, zeroPage]
  refine wp_conseq hmap fun _ s₂ h₂ => wp_conseq h₂ ?_
  rintro _ s₃ (⟨ht₃, hspace₃, -, hframe₃⟩ | ⟨ht₃, -, -, hden₃⟩)
  swap
  · exact ⟨hden₃.le, fun _ => ht₃.short hden₃, fun hle => absurd hle (not_le.mpr hden₃)⟩
  have hfill : Fills 1026 d (0 * PGSIZE + 0) init s₃ _ :=
    Fills.of_frame (h.trade ht₃) hframe₃ (by omega)
  rw [wp_memmove]
  refine ⟨ht₃.denied, ht₃.short, fun _ => ⟨ht₃.trans hfill.trade, by decide, fun v => ?_⟩⟩
  rw [← flags_isSome, hfill.wrote.flags, flags_isSome, hspace₃, Space.setUser,
    (by decide : npages PGSIZE = 1), Nat.lt_one_iff]
  dsimp only
  by_cases hv : v = 0
  · rw [hv, update_self]
    exact iff_of_true rfl rfl
  · rw [update_of_ne hv, hnone]
    exact iff_of_false Bool.false_ne_true hv

/-- There is not enough memory for the first process. -/
def Kern.Short (k : Kern) (init : List UInt8) : Prop :=
  PGSIZE ≤ init.length ∨ (∃ c, k.phys.fails c = true) ∨ k.phys.freelist.length ≤ 1027

/-- Before the first process. -/
theorem Fresh.inv (h : Fresh L k) : Inv L P k where
  total := by
    have hslots : ∑ i, k.slotPages i = 0 :=
      Finset.sum_eq_zero fun i _ => Kern.slotPages_of_unused (h.unused i)
    rw [Kern.places, hslots, Kern.pipePages, h.pipes, List.map_nil, Multiset.coe_nil, add_zero,
      add_zero, h.total]
  shape i hi := absurd (h.unused i) hi

/-- There is a slot for the first process. -/
theorem Fresh.allocproc (h : Fresh L k) : ∃ i t, k.table.allocproc = some (i, t) := by
  cases hfind : k.table.find fun p => p.state = .unused with
  | none =>
    have := Ptable.of_find_none hfind 0
    rw [h.unused 0] at this
    cases this
  | some i =>
    rw [Ptable.allocproc, hfind]
    exact ⟨_, _, rfl⟩

theorem wp_userinit {init : List UInt8} (h : Fresh L k) (hP : Shape P)
    (hE : k.Short init → ∀ e, E e) :
    wp (Kern.userinit L init) (fun _ k' => k.phys.denied ≤ k'.phys.denied ∧
      (k.phys.denied < k'.phys.denied → k.Short init) ∧
      (k'.phys.denied ≤ k.phys.denied → Inv L P k')) E k := by
  have hinv : Inv L P k := h.inv
  simp only [Kern.userinit, wp_bind]
  refine wp_conseq wp_allocproc ?_
  rintro _ k₁ (hnone | ⟨halloc, ht₁, hden₁⟩ | ⟨halloc, ht₁, -⟩)
  · obtain ⟨i, t, hsome⟩ := h.allocproc
    rw [hsome] at hnone
    cases hnone
  · refine hE (.inr ?_) _
    rcases ht₁.short_zero hden₁ with hfail | hlen
    · exact .inl hfail
    · exact .inr (by omega)
  rename_i i t g s₁
  have hs₁ : Sound L ({g} + 0) s₁ := by
    rw [add_zero]
    exact hinv.sound.none.trade ht₁
  rw [← add_zero ({g} : Multiset Nat)] at ht₁
  simp only [wp_bind, wp_modify, wp_onPhys]
  refine wp_conseq (wp_setupkvm (N := 1025) hs₁.of_add le_rfl) ?_
  rintro _ s₂ (⟨ht₂, hspace₂⟩ | ⟨ht₂, hden₂⟩)
  swap
  · refine hE (.inr ?_) _
    have ht := (ht₁.mono (Nat.zero_le _)).trans (ht₂.frame {g} le_rfl)
    rcases ht.short_zero (lt_of_le_of_lt ht₁.denied hden₂) with hfail | hlen
    · exact .inl hfail
    · rw [Multiset.card_singleton] at hlen
      exact .inr (by omega)
  rename_i d
  -- what is left is all but the kernel stack and the directory with its tables
  have hshort : (∃ c, s₂.fails c = true) ∨ (owned s₂.page d).card + s₂.freelist.length ≤ 1026 →
      (∃ c, k.phys.fails c = true) ∨ k.phys.freelist.length ≤ 1027 := by
    have h₁ := ht₁.card_total
    have h₂ := ht₂.card_total
    rw [add_zero, Multiset.card_singleton] at h₁
    rw [Multiset.card_zero] at h₁ h₂
    rw [ht₂.fails, ht₁.fails]
    exact Or.imp_right fun hlen => by omega
  simp only [wp_bind, wp_onPhys]
  refine wp_conseq (wp_inituvm (hs₁.of_add.trade ht₂) hspace₂ fun e hwhy =>
    hE (hwhy.imp_right hshort) e) ?_
  rintro _ s₃ ⟨hden₃, hshort₃, hok₃⟩
  have ht := (ht₁.mono (Nat.zero_le _)).trans (ht₂.frame {g} le_rfl)
  simp only [wp_setUproc]
  refine ⟨ht.denied.trans hden₃, fun hden => .inr ?_, fun hle => ?_⟩
  · rcases hden₃.lt_or_eq with hlt | heq
    · exact hshort (hshort₃ hlt)
    · rcases ht.short_zero (heq ▸ hden) with hfail | hlen
      · exact .inl hfail
      · rw [Multiset.card_singleton] at hlen
        exact .inr (by omega)
  · obtain ⟨ht₃, hexact⟩ := hok₃ (hle.trans ht.denied)
    have hall := (ht.mono (Nat.add_le_add_right (by decide : 1025 ≤ 1026) _)).trans
      (ht₃.frame {g} le_rfl)
    refine hinv.occupy (Ptable.allocproc_eq_some halloc).1 ?_ (fun j hj => ?_) rfl rfl rfl rfl hall
      (hP.of_exact hexact)
    · dsimp only
      rw [Ptable.setState, Ptable.setProc_self]
      exact (by decide : ProcState.runnable ≠ .unused)
    · dsimp only
      rw [Ptable.setState, Ptable.setProc_of_ne _ hj]
      exact (allocproc_proc halloc hj : t.proc j = k.table.proc j)

end

/-! ## 3. Runs -/

/-- A call of `growproc` returns 0, or could not grow. -/
def Kept : Act → Int → Prop
  | .growproc _ n, r => r = 0 ∨ 0 < n
  | _, _ => True

section

variable {L : Layout} {P : Nat → Space → Prop} {C : Act → Int → Prop} {k k' : Kern} {a : Act}
  {i cur : Slot} {E : Fault → Prop}

/-- **What a call keeps.** -/
theorem wp_run (h : Inv L P k) (hP : Shape P) (ha : k.Allowed a) (hnull : E .nullPte)
    (hE : (∀ e, E e) ∨ ∀ sz S, P sz S → Exact sz S) :
    wp (Kern.run L a)
      (fun r k' => (Kept a r ∨ ∀ sz S, Bounded sz S → P sz S) → Inv L P k') E k := by
  cases a with
  | fork cur =>
    refine wp_conseq (wp_fork_inv h hP ha.used fun v hv _ => ?_) fun _ _ hk _ => hk.1
    rcases hE with hall | hexact
    · exact .inr ⟨hall _, hall _⟩
    · exact .inl (((hexact _ _ (h.shape cur ha.used)).2 v).mpr hv)
  | growproc cur n =>
    obtain ⟨halive, hmin, hmax⟩ := ha
    refine wp_conseq (wp_growproc_inv h hP halive.used hmin hmax) fun r k' hk hr => hk ?_
    rcases hr with (hr | hr) | hr
    · exact .inl hr
    · exact .inr (.inl hr)
    · exact .inr (.inr hr)
  | exec cur path file args =>
    exact wp_conseq (wp_exec_inv h hP ha.1.used ha.2 hnull) fun _ _ hk _ => hk
  | exit cur =>
    simp only [Kern.run, wp_bind, wp_pure]
    exact wp_conseq (wp_exit_inv h ha.1.used) fun _ _ hk _ => hk
  | wait cur => exact wp_conseq (wp_wait_inv h ha.used) fun _ _ hk _ => hk
  | pipealloc files => exact wp_conseq (wp_pipealloc_inv h) fun _ _ hk _ => hk
  | pipeclose p writable =>
    simp only [Kern.run, wp_bind, wp_pure]
    exact wp_conseq (wp_pipeclose_inv h ha.1) fun _ _ hk _ => hk

/-- **What every run keeps.** -/
theorem Reach.inv (hP : Shape P)
    (hC : ∀ a r, C a r → Kept a r ∨ ∀ sz S, Bounded sz S → P sz S) (h : Reach L C k) :
    Inv L P k := by
  induction h with
  | boot hfresh hrun hden =>
    exact (wp_of_ok (wp_userinit (E := fun _ => True) hfresh hP fun _ _ => trivial) hrun).2.2 hden.le
  | step _ ha hrun hc ih =>
    have hstep := wp_run (E := fun _ => True) ih hP ha trivial (.inl fun _ => trivial)
    exact wp_of_ok hstep hrun (hC _ _ hc)

/-- The first process is made, if there is enough memory. -/
theorem Fresh.exists_reach {init : List UInt8} (h : Fresh L k) (hlong : ¬ k.Short init) :
    ∃ k', Reach L C k' := by
  have hinit : wp (Kern.userinit L init) _ (fun _ => False) k :=
    wp_userinit h shape_exact fun hs _ => hlong hs
  obtain ⟨u, k', hrun, hle, hshort, -⟩ := wp_returns hinit
  exact ⟨k', .boot h hrun (le_antisymm (not_lt.mp fun hlt => hlong (hshort hlt)) hle)⟩

/-- Nothing has been taken yet. -/
def freshKern : Kern where
  table := ⟨fun _ => ⟨.unused, 0, none, none, false, 0⟩, 1, 0⟩
  kstack _ := 0
  uproc _ := ⟨0, 0, [], ⟨0, 0, fun _ => 0⟩⟩
  pipes := []
  boot := []
  phys := ⟨fun _ _ => 0, List.range' 296 57048, 0, 0, fun _ => false⟩

theorem freshKern_fresh : Fresh smallLayout freshKern where
  unused _ := rfl
  pipes := rfl
  total := by
    rw [freshKern, Multiset.coe_nil, zero_add]
    rfl

theorem freshKern_long : ¬ freshKern.Short [] := by
  rintro (hlen | ⟨c, hc⟩ | hfree)
  · exact absurd hlen (by decide)
  · cases hc
  · rw [freshKern, List.length_range'] at hfree
    exact absurd hfree (by decide)

/-- **Every page is in one place**, in every run: the pages of the allocator are those of the free
list, of the processes, of the pipes and those taken before, each of them once. -/
theorem pages_in_one_place (h : Reach L (fun _ _ => True) k) :
    (k.places + k.phys.free).Nodup ∧ ∀ g, g ∈ k.places + k.phys.free ↔ L.Pool g := by
  have hinv : Inv L Bounded k := h.inv shape_bounded fun _ _ _ => .inr fun _ _ => id
  rw [hinv.total]
  exact ⟨List.nodup_range', fun g => mem_pages⟩

theorem pages_in_one_place_smallLayout : ∃ k, Reach smallLayout (fun _ _ => True) k ∧
    (k.places + k.phys.free).Nodup ∧ ∀ g, g ∈ k.places + k.phys.free ↔ smallLayout.Pool g := by
  obtain ⟨k, hk⟩ := freshKern_fresh.exists_reach freshKern_long
  exact ⟨k, hk, pages_in_one_place hk⟩

/-- The loop of `sys_getptentries` counts pages that are all there. -/
theorem wp_ptentriesLoop {d sz : Nat} {s : Phys} (hlt : sz < KERNBASE)
    (h : ∀ v, v < npages sz → ((space s.page d).user v).isSome = true) :
    ∀ {fuel v count : Nat}, npages sz - v < fuel → v ≤ npages sz →
      wp (ptentriesLoop d sz fuel (v * PGSIZE) count)
        (fun r s' => r = count + (npages sz - v) ∧ s' = s) E s := by
  intro fuel
  induction fuel with
  | zero => exact fun hfuel => absurd hfuel (Nat.not_lt_zero _)
  | succ fuel ih =>
    intro v count hfuel hv
    simp only [ptentriesLoop, wp_ite, wp_bind, wp_load, wp_pure, page_lt]
    refine ⟨fun hmore => ?_, fun hlast => ⟨by omega, trivial⟩⟩
    have hvU : v < UPAGES := lt_of_lt_of_le hmore (npages_le hlt.le)
    have hvV := upage_lt hvU
    obtain ⟨g, hf⟩ := exists_frame (h v hmore)
    obtain ⟨t, htable, hw, hpres, -⟩ := frame_walk hf
    have hpde : hasFlag (getWord (s.page d) (v / NPTENTRIES)) PTE_P = true ∧
        pteAddr (getWord (s.page d) (v / NPTENTRIES)) = t := by
      rw [table, Radix.table, nextTable] at htable
      split at htable
      next hflag => exact ⟨hflag, Option.some.inj htable⟩
      next => cases htable
    have hnext : add32 (v * PGSIZE) PGSIZE = (v + 1) * PGSIZE := add_page (by
      simp only [UPAGES, VPAGES] at *
      omega)
    rw [pdx_page hvV, ptx_page, hpde.1, hpde.2, hw, hpres, hnext]
    refine ⟨fun hc => absurd hc (by decide), fun _ => ?_⟩
    rw [if_pos rfl]
    refine wp_conseq (ih (by omega) hmore) fun r s' hr => ⟨?_, hr.2⟩
    rw [hr.1]
    omega

/-- What the three calls that tell about memory answer. -/
theorem Exact.answers (hexact : Exact (k.uproc i).sz (space k.phys.page (k.uproc i).pgdir)) :
    Kern.sysGetvpages k i = npages (k.uproc i).sz ∧
      Kern.sysGetptentries i k = .ok (npages (k.uproc i).sz, k) := by
  constructor
  · have hlt := hexact.1
    simp only [Kern.sysGetvpages, add32, npages, PGSIZE, KERNBASE] at *
    omega
  · have hle := npages_le hexact.1.le
    have hloop : wp (ptentriesLoop (k.uproc i).pgdir (k.uproc i).sz NPAGES (0 * PGSIZE) 0) _
        (fun _ => False) k.phys :=
      wp_ptentriesLoop hexact.1 (fun v => (hexact.2 v).mpr) (lt_of_le_of_lt hle (by decide))
        (Nat.zero_le _)
    rw [Nat.zero_mul] at hloop
    have hwp : wp (Kern.sysGetptentries i) (fun r k' => r = npages (k.uproc i).sz ∧ k' = k)
        (fun _ => False) k := by
      simp only [Kern.sysGetptentries, wp_bind, wp_get, wp_onPhys]
      refine wp_conseq hloop ?_
      rintro r s ⟨hr, rfl⟩
      exact ⟨hr.trans (Nat.zero_add _), rfl⟩
    obtain ⟨r, k', hrun, rfl, rfl⟩ := wp_returns hwp
    exact hrun

/-- **The shape of address spaces**, in every run in which no call of `growproc` loses pages. -/
theorem address_space_exact (h : Reach L Kept k) :
    (∀ i, (k.table.proc i).state ≠ .unused → (k.uproc i).sz < KERNBASE ∧
      (∀ v, ((space k.phys.page (k.uproc i).pgdir).user v).isSome = true ↔
        v * PGSIZE < (k.uproc i).sz) ∧
      Kern.sysGetptentries i k = .ok (Kern.sysGetvpages k i, k) ∧
      Kern.sysGetvpages k i = (Kern.sysGetmemsize k i + (PGSIZE - 1)) / PGSIZE) ∧
    (∀ cur r k', k.Alive cur → Kern.run L (.fork cur) k = .ok (r, k') →
      r = -1 ∨ ∃ np, (k.table.proc np).state = .unused ∧ (k'.table.proc np).state = .runnable ∧
        (k'.table.proc np).parent = some cur ∧ (k'.table.proc np).pid = r ∧
        Kern.sysGetmemsize k' np = Kern.sysGetmemsize k' cur ∧
        Kern.sysGetvpages k' np = Kern.sysGetvpages k' cur ∧
        ∃ n, Kern.sysGetptentries np k' = .ok (n, k') ∧
          Kern.sysGetptentries cur k' = .ok (n, k')) ∧
    ∀ a e, k.Allowed a → Kern.run L a k = .error e → e = .nullPte := by
  have hinv : Inv L Exact k := h.inv shape_exact fun _ _ => .inl
  refine ⟨fun i hu => ?_, fun cur r k' ha hrun => ?_, fun a e ha hrun => ?_⟩
  · obtain ⟨hlt, huser⟩ := hinv.shape i hu
    obtain ⟨hv, hp⟩ := (hinv.shape i hu).answers
    refine ⟨hlt, fun v => ?_, by rw [hp, hv], by rw [hv]; rfl⟩
    rw [huser, page_lt]
  · -- the child is as large as its parent
    have hfork := wp_fork_inv (E := fun _ => False) hinv shape_exact ha.used fun v hv _ =>
      .inl (((hinv.shape cur ha.used).2 v).mpr hv)
    obtain ⟨hinv', hforked⟩ := wp_of_ok hfork hrun
    cases hforked with
    | fail => exact .inl rfl
    | ok hnew hstate hparent hproc hcur hsz =>
      rename_i np
      have hused : (k'.table.proc np).state ≠ .unused := by
        rw [hstate]
        decide
      obtain ⟨hv, hp⟩ := (hinv'.shape np hused).answers
      obtain ⟨hvcur, hpcur⟩ := (hinv'.shape cur (hproc ▸ ha.used)).answers
      rw [hsz] at hv hp
      rw [hcur] at hvcur hpcur
      refine .inr ⟨np, hnew, hstate, hparent, rfl, ?_, hv.trans hvcur.symm, _, hp, hpcur⟩
      rw [Kern.sysGetmemsize, Kern.sysGetmemsize, hsz, hcur]
  · have hstep := wp_run (E := fun e => e = .nullPte) hinv shape_exact ha rfl (.inr fun _ _ => id)
    have herr := wp_of_error hstep hrun
    exact herr

theorem address_space_exact_smallLayout : ∃ k, Reach smallLayout Kept k ∧
    ∀ i, (k.table.proc i).state ≠ .unused →
      Kern.sysGetptentries i k = .ok (Kern.sysGetvpages k i, k) := by
  obtain ⟨k, hk⟩ := freshKern_fresh.exists_reach freshKern_long
  exact ⟨k, hk, fun i hu => ((address_space_exact hk).1 i hu).2.2.1⟩

/-! ## 4. Programs -/

/-- Bytes are stored in the page `g`. -/
def Kern.store (k : Kern) (g off : Nat) (bs : List UInt8) : Kern :=
  { k with phys.page := Function.update k.phys.page g (splice (k.phys.page g) off bs) }

/-- The program of slot `i` has the page. -/
def Kern.CanStore (k : Kern) (i : Slot) (g off : Nat) (bs : List UInt8) : Prop :=
  (k.table.proc i).state ≠ .unused ∧ off + bs.length ≤ PGSIZE ∧
    ∃ v, frame k.phys.page (k.uproc i).pgdir v = some g

/-- The kernel acts and programs store, in any order. -/
inductive Mixed (L : Layout) : Kern → Prop
  | start {k : Kern} : Reach L (fun _ _ => True) k → Mixed L k
  | act {k k' : Kern} {a : Act} {r : Int} : Mixed L k → k.Allowed a →
    Kern.run L a k = .ok (r, k') → Mixed L k'
  | store {k : Kern} {i : Slot} {g off : Nat} {bs : List UInt8} : Mixed L k →
    k.CanStore i g off bs → Mixed L (k.store g off bs)

theorem Mixed.inv (h : Mixed L k) : Inv L Bounded k := by
  induction h with
  | start h => exact h.inv shape_bounded fun _ _ _ => .inr fun _ _ => id
  | act _ ha hrun ih =>
    have hstep := wp_run (E := fun _ => True) ih shape_bounded ha trivial (.inl fun _ => trivial)
    exact wp_of_ok hstep hrun (.inr fun _ _ => id)
  | @store k i _ _ _ _ hs ih =>
    obtain ⟨hu, hle, v, hf⟩ := hs
    have hfill := Fills.of_frame (N := 0) (ih.sound_space hu) hf hle
    have hnew := ih.setUproc hu (p := k.uproc i) hfill.trade ⟨(ih.shape i hu).1, fun w hw => ?_⟩
    · rwa [update_eq_self] at hnew
    · have := congrFun hfill.wrote.flags w
      simpa [Space.flags, (ih.shape i hu).2 w hw] using this

end

end Xv6.Vm
