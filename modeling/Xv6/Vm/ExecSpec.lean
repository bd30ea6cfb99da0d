/-
# What `exec` promises

**Atomic and safe** (`exec_atomic`).  Whatever bytes a file has and whichever calls of `kalloc` fail,
`exec` with arguments that fit ends without a panic.  If it fails, the process and its memory are as
before; if it succeeds, the new address space is the program of the file with its stack.

**The arguments arrive** (`exec_hands_over`).  With enough memory, a program that can be loaded is
started, and finds its arguments where the convention says.

**A string can fall through** (`exec_null_pte_iff`).  The stack pointer is lowered without a check.  A
string that is longer than the new program moves it below 0, which is an address at the end of the
kernel's half; between the memory and the devices there is no page table, and `uva2ka` reads the
entry that a null pointer points to.
-/
import Xv6.Vm.Exec

namespace Xv6.Vm

open Bytes

/-! ## 1. The image -/

/-- With `N` pages the program in the file can be loaded. -/
structure Enough (file : List UInt8) (N : Nat) : Prop where
  base : 1028 ≤ N
  segments : ∀ bytes, readExactly file 0 52 = some bytes → ∀ ph,
    some ph ∈ phdrs file (Elfhdr.ofBytes bytes).phnum (Elfhdr.ofBytes bytes).phoff →
    ph.type = ELF_PROG_LOAD → ph.vaddr + ph.memsz < KERNBASE →
    1028 + npages (ph.vaddr + ph.memsz) ≤ N

/-- What `exec` does before it looks at the arguments. -/
inductive Imaged (L : Layout) (N : Nat) (file : List UInt8) (s : Phys) :
    Option (Elfhdr × Nat × Nat) → Phys → Prop
  | ok {elf : Elfhdr} {I : Image} {d : Nat} {s' : Phys} : imageOf file = some (elf, I) →
    Ready L N d (npages I.sz) I.byte s s' →
    Imaged L N file s (some (elf, d, (npages I.sz + 2) * PGSIZE)) s'
  | bad {s' : Phys} : (∀ elf I, imageOf file = some (elf, I) →
      (npages I.sz + 2) * PGSIZE < KERNBASE → s.denied < s'.denied) →
    Trade N 0 0 s s' → Imaged L N file s none s'

section

variable {L : Layout} {N d : Nat} {file : List UInt8} {s s₁ : Phys} {E : Fault → Prop}

/-- `setupkvm` makes an address space for the empty image. -/
theorem loaded_empty (htrade : Trade N 0 (owned s₁.page d) s s₁)
    (hspace : space s₁.page d = kernSpace L) : Loaded L N d .empty s s₁ where
  trade := htrade
  lt := by decide
  flags v := by
    rw [hspace, Space.flags, kernSpace_user, Image.empty, npages_zero, if_neg (Nat.not_lt_zero v)]
    rfl
  byte := by
    funext a
    rw [hspace, Space.byte, kernSpace_user]
    rfl
  kern := by rw [hspace]
  ktab := by rw [hspace]

theorem wp_execImage (hs : Sound L 0 s) (hN : Enough file N) :
    wp (execImage L file) (Imaged L N file s) E s := by
  rw [execImage]
  cases hread : readExactly file 0 52 with
  | none =>
    have hnone : imageOf file = none := by rw [imageOf, hread]
    refine .bad (fun elf I hI => ?_) (.refl ..)
    rw [hnone] at hI
    cases hI
  | some bytes =>
    have hsegs := hN.segments bytes hread
    have hI : imageOf file = if (Elfhdr.ofBytes bytes).magic ≠ ELF_MAGIC then none else
        (Image.load file (phdrs file (Elfhdr.ofBytes bytes).phnum (Elfhdr.ofBytes bytes).phoff)
          .empty).map fun I => (Elfhdr.ofBytes bytes, I) := by rw [imageOf, hread]
    dsimp only
    generalize Elfhdr.ofBytes bytes = elf at hsegs hI ⊢
    simp only [wp_ite, wp_bind, wp_pure]
    refine ⟨fun hmagic => .bad (fun elf I h => ?_) (.refl ..), fun hmagic => ?_⟩
    · rw [hI, if_pos hmagic] at h
      cases h
    rw [if_neg hmagic] at hI
    refine wp_conseq (wp_setupkvm (N := N) hs (by have := hN.base; omega)) ?_
    rintro _ s₁ (⟨htrade₁, hspace₁⟩ | ⟨htrade₁, hden₁⟩)
    swap
    · exact .bad (fun _ _ _ _ => hden₁) htrade₁
    rename_i d
    have h₁ := loaded_empty htrade₁ hspace₁
    have hbase : 1028 + npages Image.empty.sz ≤ N := hN.base
    simp only [execLoad, wp_bind]
    refine wp_conseq (wp_execSegments hs h₁ hbase hsegs) ?_
    -- an address space that is not finished is freed
    have hfree : ∀ s₂ : Phys, Trade N 0 (owned s₂.page d) s s₂ →
        (∀ elf I, imageOf file = some (elf, I) → (npages I.sz + 2) * PGSIZE < KERNBASE →
          s.denied < s₂.denied) →
        wp (freevm L d) (fun _ => Imaged L N file s none) E s₂ := by
      intro s₂ htrade₂ hwhy
      refine wp_conseq (wp_freevm (N := N) (hs.trade htrade₂)) ?_
      rintro _ s₃ ⟨htrade₃, hden₃⟩
      refine .bad (fun elf I h hlt => ?_) (htrade₂.trans htrade₃)
      rw [hden₃]
      exact hwhy elf I h hlt
    rintro _ s₂ (⟨hnext, h₂, hroom⟩ | ⟨hwhy, htrade₂⟩)
    · rename_i I
      rw [hnext, Option.map_some] at hI
      dsimp only
      refine wp_conseq (wp_execStack hs h₂ hroom) ?_
      rintro _ s₃ (h₃ | ⟨hwhy, htrade₃⟩)
      · exact .ok hI h₃
      · simp only [wp_bind, wp_pure]
        refine hfree s₃ htrade₃ fun elf' I' h hlt => ?_
        rw [hI] at h
        cases h
        exact hwhy.resolve_left (not_le.mpr hlt)
    · simp only [wp_bind, wp_pure]
      refine hfree s₂ htrade₂ fun elf' I' h _ => ?_
      rcases hwhy with hnone | hden
      · rw [hI, hnone] at h
        cases h
      · exact hden

end

/-! ## 2. The whole call -/

/-- An address space with the bytes `b` that ends with the page `K`, which is kept from the user, and
the stack page. -/
structure Runs (L : Layout) (K : Nat) (b : Bytes) (S : Space) : Prop where
  lt : (K + 2) * PGSIZE < KERNBASE
  flags : ∀ v, S.flags v = if v = K then some PTE_PW else if v < K + 2 then some PTE_PWU else none
  byte : S.byte = b
  kern : S.kern = (kernSpace L).kern

/-- What `exec` does. -/
inductive Execed (L : Layout) (N : Nat) (p : Uproc) (path file : List UInt8)
    (args : List (List UInt8)) (s : Phys) : Int × Uproc → Phys → Prop
  | ok {elf : Elfhdr} {I : Image} {d M : Nat} {s' : Phys} : imageOf file = some (elf, I) →
    ArgsFit (npages I.sz) args →
    Runs L (npages I.sz) (stackBytes (npages I.sz) I.byte args) (space s'.page d) →
    Trade M (owned s.page p.pgdir) (owned s'.page d) s s' →
    Execed L N p path file args s (0, ⟨d, (npages I.sz + 2) * PGSIZE, lastName path,
      { p.tf with eip := elf.entry, esp := startSp (npages I.sz) args }⟩) s'
  | bad {M : Nat} {s' : Phys} : (∀ elf I, imageOf file = some (elf, I) →
      (npages I.sz + 2) * PGSIZE < KERNBASE → ArgsFit (npages I.sz) args →
      (∃ c, s.fails c = true) ∨ s.freelist.length ≤ N) →
    (∀ g ∈ owned s.page p.pgdir, s'.page g = s.page g) →
    Trade M (owned s.page p.pgdir) (owned s.page p.pgdir) s s' →
    Execed L N p path file args s (-1, p) s'

section

variable {L : Layout} {N d K : Nat} {A B : Multiset Nat} {b : Bytes} {p : Uproc}
  {path file : List UInt8} {args : List (List UInt8)} {s s₁ : Phys}

theorem Ready.runs (h : Ready L N d K b s s₁) : Runs L K b (space s₁.page d) :=
  ⟨h.lt, h.flags, h.byte, h.kern⟩

theorem Sound.none (h : Sound L A s) : Sound L 0 s := by
  rw [← add_zero A] at h
  exact h.of_add

/-- Other pages in hand. -/
theorem Trade.beside (ht : Trade N 0 B s s₁) (h : Sound L A s) :
    (∀ g ∈ A, s₁.page g = s.page g) ∧ Trade (N + A.card) A (A + B) s s₁ := by
  have hA := ht.frame A le_rfl
  rw [add_zero] at hA
  rw [← add_zero A] at h
  exact ⟨fun g hg => h.outside ht hg, hA⟩

/-- A denied call of `kalloc` in a trade for nothing. -/
theorem Trade.short_zero (ht : Trade N 0 B s s₁) (hden : s.denied < s₁.denied) :
    (∃ c, s.fails c = true) ∨ s.freelist.length ≤ N := by
  have hshort := ht.short hden
  rwa [Multiset.card_zero, Nat.zero_add] at hshort

theorem wp_exec (h : Sound L (owned s.page p.pgdir) s) (hN : Enough file N)
    (hargs : ∀ arg ∈ args, arg.length < KERNBASE) :
    wp (exec L p path (some file) args) (Execed L N p path file args s) (fun e => e = .nullPte ∧
      ∃ elf I va, imageOf file = some (elf, I) ∧ (npages I.sz + 2) * PGSIZE < KERNBASE ∧
        spill (npages I.sz + 1) ((npages I.sz + 2) * PGSIZE) args = some va ∧ InHole va) s := by
  have hs := h.none
  simp only [exec, wp_bind]
  refine wp_conseq (wp_execImage hs hN) ?_
  rintro _ s₁ (⟨hI, h₁⟩ | ⟨hwhy, htrade₁⟩)
  swap
  · obtain ⟨hsame, htrade⟩ := htrade₁.beside h
    rw [add_zero] at htrade
    exact .bad (fun elf I hI hlt _ => htrade₁.short_zero (hwhy elf I hI hlt)) hsame htrade
  rename_i elf I d
  simp only [wp_bind]
  refine wp_mono (wp_execPush hs h₁ hargs) ?_ ?_
  swap
  · rintro _ ⟨rfl, va, hspill, hhole⟩
    exact ⟨rfl, elf, I, va, hI, h₁.lt, hspill, hhole⟩
  rintro _ s₂ (⟨hfit, h₂⟩ | ⟨hfit, -, htrade₂⟩)
  · -- the old address space is given back
    obtain ⟨hsame, htrade⟩ := h₂.trade.beside h
    have hold := owned_of_agree hsame
    have hs₂ := h.trade htrade
    rw [add_comm, ← hold] at hs₂
    simp only [wp_bind, wp_pure]
    refine wp_conseq (wp_freevm (N := 0) hs₂.of_add) ?_
    rintro _ s₃ ⟨htrade₃, -⟩
    have hagree : ∀ g ∈ owned s₂.page d, s₃.page g = s₂.page g := fun g hg => hs₂.outside htrade₃ hg
    have hfree : Trade (N + (owned s.page p.pgdir).card + (owned s₂.page d).card)
        (owned s.page p.pgdir + owned s₂.page d) (owned s₂.page d) s₂ s₃ := by
      have hboth := htrade₃.frame (owned s₂.page d) (Nat.le_add_left _ (N +
        (owned s.page p.pgdir).card))
      rwa [hold, Nat.zero_add, add_zero, add_comm (owned s₂.page d)] at hboth
    have hall := (htrade.mono (Nat.le_add_right ..)).trans hfree
    rw [← owned_of_agree hagree] at hall
    refine .ok hI hfit ?_ hall
    rw [space_congr hagree]
    exact h₂.runs
  · simp only [wp_bind, wp_pure]
    refine wp_conseq (wp_freevm (N := N) (hs.trade htrade₂)) ?_
    rintro _ s₃ ⟨htrade₃, -⟩
    obtain ⟨hsame, htrade⟩ := (htrade₂.trans htrade₃).beside h
    rw [add_zero] at htrade
    refine .bad (fun elf' I' hI' _ hfit' => ?_) hsame htrade
    rw [hI] at hI'
    cases hI'
    exact absurd hfit' hfit

end

/-! ## 3. Where the arguments are -/

/-- The bytes that a string takes on the stack. -/
def argSize (arg : List UInt8) : Nat := (arg.length + 4) / 4 * 4

def argsSize (args : List (List UInt8)) : Nat := (args.map argSize).sum

/-- The strings, the array of pointers and the frame fit into a page. -/
def Fits (args : List (List UInt8)) : Prop := argsSize args + (args.length + 4) * 4 ≤ PGSIZE

instance (args : List (List UInt8)) : Decidable (Fits args) := inferInstanceAs (Decidable (_ ≤ _))

section

variable {sp K x : Nat} {b : Bytes} {arg : List UInt8} {args : List (List UInt8)}

theorem argsSize_cons (arg : List UInt8) (args : List (List UInt8)) :
    argsSize (arg :: args) = argSize arg + argsSize args := by
  rw [argsSize, List.map_cons, List.sum_cons, argsSize]

theorem length_lt_argSize (arg : List UInt8) : arg.length < argSize arg := by
  rw [argSize]
  omega

theorem pushArg_eq (h : argSize arg ≤ sp) (h4 : sp % 4 = 0) (hlt : sp < 2 ^ 32) :
    pushArg sp arg = sp - argSize arg := by
  simp only [pushArg, sub32, argSize] at *
  omega

theorem argSize_le (h : argsSize args ≤ sp) (harg : arg ∈ args) : argSize arg ≤ sp :=
  (List.single_le_sum (fun _ _ => Nat.zero_le _) _ (List.mem_map_of_mem harg)).trans h

/-- The stack has room for the strings. -/
structure Room (sp : Nat) (args : List (List UInt8)) : Prop where
  le : argsSize args ≤ sp
  align : sp % 4 = 0
  lt : sp < 2 ^ 32

theorem Room.push (h : Room sp (arg :: args)) :
    pushArg sp arg = sp - argSize arg ∧ Room (sp - argSize arg) args := by
  obtain ⟨hle, halign, hlt⟩ := h
  rw [argsSize_cons] at hle
  refine ⟨pushArg_eq (by omega) halign hlt, by omega, ?_, by omega⟩
  rw [argSize] at *
  omega

theorem Room.foldl (h : Room sp args) : args.foldl pushArg sp = sp - argsSize args := by
  induction args generalizing sp with
  | nil => rfl
  | cons arg args ih =>
    obtain ⟨hpush, hroom⟩ := h.push
    rw [List.foldl_cons, hpush, ih hroom, argsSize_cons, Nat.sub_sub]

/-- The strings are between the stack pointer that is left and the one before. -/
theorem Room.pushBytes_of_ge (h : Room sp args) (hx : sp ≤ x) : pushBytes b sp args x = b x := by
  induction args generalizing sp b with
  | nil => rfl
  | cons arg args ih =>
    obtain ⟨hpush, hroom⟩ := h.push
    have hlen := length_lt_argSize arg
    have hle := h.le
    rw [argsSize_cons] at hle
    rw [pushBytes, hpush, ih hroom (by omega)]
    refine splice_apply_of_ge ?_
    rw [List.length_append, List.length_singleton]
    omega

theorem Room.pushBytes_of_lt (h : Room sp args) (hx : x < sp - argsSize args) :
    pushBytes b sp args x = b x := by
  induction args generalizing sp b with
  | nil => rfl
  | cons arg args ih =>
    obtain ⟨hpush, hroom⟩ := h.push
    rw [argsSize_cons] at hx
    rw [pushBytes, hpush, ih hroom (by omega)]
    exact splice_apply_of_lt (by omega)

/-- Where a string is. -/
theorem Room.ptr (h : Room sp args) {i : Nat} (hi : i < args.length) :
    sp - argsSize args ≤ (argPtrs sp args).getD i 0 ∧
    (argPtrs sp args).getD i 0 + ((args.getD i []).length + 1) ≤ sp := by
  induction args generalizing sp i with
  | nil => exact absurd hi (Nat.not_lt_zero i)
  | cons arg args ih =>
    obtain ⟨hpush, hroom⟩ := h.push
    have hlen := length_lt_argSize arg
    have hle := h.le
    rw [argsSize_cons] at hle ⊢
    rw [argPtrs, hpush]
    cases i with
    | zero =>
      rw [List.getD_cons_zero, List.getD_cons_zero]
      omega
    | succ i =>
      rw [List.getD_cons_succ, List.getD_cons_succ]
      have := ih hroom (Nat.lt_of_succ_lt_succ hi)
      omega

/-- Later strings are below earlier ones. -/
theorem Room.ptr_below (h : Room sp args) {i j : Nat} (hij : i < j) (hj : j < args.length) :
    (argPtrs sp args).getD j 0 + ((args.getD j []).length + 1) ≤ (argPtrs sp args).getD i 0 := by
  induction args generalizing sp i j with
  | nil => exact absurd hj (Nat.not_lt_zero j)
  | cons arg args ih =>
    obtain ⟨hpush, hroom⟩ := h.push
    obtain ⟨j, rfl⟩ : ∃ k, j = k + 1 := ⟨j - 1, by omega⟩
    have hj' : j < args.length := Nat.lt_of_succ_lt_succ hj
    rw [argPtrs, hpush, List.getD_cons_succ, List.getD_cons_succ]
    cases i with
    | zero =>
      rw [List.getD_cons_zero]
      exact (hroom.ptr hj').2
    | succ i =>
      rw [List.getD_cons_succ]
      exact ih hroom (Nat.lt_of_succ_lt_succ hij) hj'

/-- The bytes of a string. -/
theorem Room.string (h : Room sp args) {i k : Nat} (hi : i < args.length)
    (hk : k ≤ (args.getD i []).length) :
    pushBytes b sp args ((argPtrs sp args).getD i 0 + k) = (args.getD i [] ++ [0]).getD k 0 := by
  induction args generalizing sp b i with
  | nil => exact absurd hi (Nat.not_lt_zero i)
  | cons arg args ih =>
    obtain ⟨hpush, hroom⟩ := h.push
    rw [argPtrs, pushBytes, hpush]
    cases i with
    | zero =>
      rw [List.getD_cons_zero] at hk ⊢
      rw [List.getD_cons_zero, hroom.pushBytes_of_ge (Nat.le_add_right ..)]
      refine splice_apply_mem ?_
      rw [List.length_append, List.length_singleton]
      omega
    | succ i =>
      rw [List.getD_cons_succ] at hk ⊢
      rw [List.getD_cons_succ]
      exact ih hroom (Nat.lt_of_succ_lt_succ hi) hk

end

/-- The word at the address `a`. -/
def loadWord (b : Bytes) (a : Nat) : Nat := getWord (fun k => b (a + k)) 0

theorem wordBytes_getD {ws : List Nat} {i r : Nat} (hi : i < ws.length) (hr : r < 4) :
    (ws.flatMap wordBytes).getD (4 * i + r) 0 = (wordBytes (ws.getD i 0)).getD r 0 := by
  induction ws generalizing i with
  | nil => exact absurd hi (Nat.not_lt_zero i)
  | cons w ws ih =>
    have hlen : (wordBytes w).length = 4 := rfl
    rw [List.flatMap_cons]
    cases i with
    | zero =>
      rw [List.getD_cons_zero, Nat.mul_zero, Nat.zero_add, List.getD_append _ _ _ _ (by omega)]
    | succ i =>
      rw [List.getD_cons_succ, List.getD_append_right _ _ _ _ (by omega), hlen,
        show 4 * (i + 1) + r - 4 = 4 * i + r by omega, ih (Nat.lt_of_succ_lt_succ hi)]

/-- Words that have been written are read back. -/
theorem loadWord_splice {ws : List Nat} {i : Nat} (hi : i < ws.length) (b : Bytes) (a : Nat) :
    loadWord (splice b a (ws.flatMap wordBytes)) (a + 4 * i) = ws.getD i 0 % 2 ^ 32 := by
  have hbyte : ∀ r, r < 4 → splice b a (ws.flatMap wordBytes) (a + 4 * i + r) =
      (wordBytes (ws.getD i 0)).getD r 0 := by
    intro r hr
    rw [Nat.add_assoc, splice_apply_mem, wordBytes_getD hi hr]
    rw [wordBytes_length]
    omega
  rw [loadWord, getWord, Nat.mul_zero, Nat.zero_add, Nat.zero_add, Nat.zero_add,
    hbyte 0 (by decide), hbyte 1 (by decide), hbyte 2 (by decide), hbyte 3 (by decide)]
  generalize ws.getD i 0 = w
  simp only [wordBytes, List.getD_cons_zero, List.getD_cons_succ, UInt8.toNat_ofNat']
  omega

section

variable {sp K : Nat} {b : Bytes} {args : List (List UInt8)}

theorem Room.spill_none (h : Room sp args) (hge : (K + 1) * PGSIZE + argsSize args ≤ sp)
    (hle : sp ≤ (K + 2) * PGSIZE) : spill (K + 1) sp args = none := by
  induction args generalizing sp with
  | nil => rfl
  | cons arg args ih =>
    obtain ⟨hpush, hroom⟩ := h.push
    have hlen := length_lt_argSize arg
    rw [argsSize_cons] at hge
    have hpage : (sp - argSize arg) / PGSIZE = K + 1 := by
      simp only [PGSIZE] at *
      omega
    rw [spill, hpush, if_pos hpage]
    exact ih hroom (by omega) (by omega)

theorem Fits.room (h : Fits args) (hlt : (K + 2) * PGSIZE < KERNBASE) :
    Room ((K + 2) * PGSIZE) args := by
  rw [Fits] at h
  refine ⟨?_, ?_, lt_trans hlt (by decide)⟩
  · simp only [PGSIZE] at *
    omega
  · simp only [PGSIZE]
    omega

theorem Fits.argSp_eq (h : Fits args) (hlt : (K + 2) * PGSIZE < KERNBASE) :
    argSp K args = (K + 2) * PGSIZE - argsSize args := (h.room hlt).foldl

theorem Fits.frame_le (h : Fits args) (hlt : (K + 2) * PGSIZE < KERNBASE) :
    (K + 1) * PGSIZE + (args.length + 4) * 4 ≤ argSp K args := by
  rw [h.argSp_eq hlt]
  rw [Fits] at h
  simp only [PGSIZE] at *
  omega

theorem Fits.spill_none (h : Fits args) (hlt : (K + 2) * PGSIZE < KERNBASE) :
    spill (K + 1) ((K + 2) * PGSIZE) args = none := by
  refine (h.room hlt).spill_none ?_ le_rfl
  rw [Fits] at h
  simp only [PGSIZE] at *
  omega

theorem Fits.length_lt (h : Fits args) {arg : List UInt8} (harg : arg ∈ args) :
    arg.length < KERNBASE := by
  have hsize : argSize arg ≤ PGSIZE := argSize_le ((Nat.le_add_right ..).trans h) harg
  exact lt_of_lt_of_le (length_lt_argSize arg) (hsize.trans (by decide))

theorem Fits.argsFit (h : Fits args) (hlt : (K + 2) * PGSIZE < KERNBASE)
    (hcount : args.length ≤ MAXARG) : ArgsFit K args :=
  ⟨hcount, h.spill_none hlt, h.frame_le hlt⟩

end

/-- The arguments stand on the stack page of an address space that ends with `sz`: at `esp` a frame
with a fake return address, `argc` and `argv`, behind it the array of pointers, and above it the
strings. -/
structure Handed (S : Space) (sz esp : Nat) (args : List (List UInt8)) (ptrs : List Nat) : Prop where
  count : ptrs.length = args.length
  ret : loadWord S.byte esp = 0xffffffff
  argc : loadWord S.byte (esp + 4) = args.length
  argv : loadWord S.byte (esp + 8) = esp + 12
  ptr : ∀ i, i < args.length → loadWord S.byte (esp + 12 + 4 * i) = ptrs.getD i 0
  last : loadWord S.byte (esp + 12 + 4 * args.length) = 0
  string : ∀ i, i < args.length → ∀ k, k ≤ (args.getD i []).length →
    S.byte (ptrs.getD i 0 + k) = (args.getD i [] ++ [0]).getD k 0
  /-- Everything is on the last page, and nothing overlaps. -/
  page : S.flags (sz / PGSIZE - 1) = some PTE_PWU
  frame : sz - PGSIZE ≤ esp
  above : ∀ i, i < args.length → esp + (args.length + 4) * 4 ≤ ptrs.getD i 0 ∧
    ptrs.getD i 0 + ((args.getD i []).length + 1) ≤ sz
  apart : ∀ i j, i < j → j < args.length →
    ptrs.getD j 0 + ((args.getD j []).length + 1) ≤ ptrs.getD i 0

section

variable {L : Layout} {K : Nat} {b : Bytes} {args : List (List UInt8)} {S : Space}

theorem ustack_getD (sp : Nat) (ptrs : List Nat) {i : Nat} (hi : i < ptrs.length) :
    (ustack sp ptrs).getD (3 + i) 0 = ptrs.getD i 0 := by
  have hlen : ([0xffffffff, ptrs.length, sub32 sp ((ptrs.length + 1) * 4)] : List Nat).length = 3 :=
    rfl
  rw [ustack, List.append_assoc, List.getD_append_right _ _ _ _ (by omega), hlen,
    Nat.add_sub_cancel_left, List.getD_append _ _ _ _ hi]

theorem ustack_last (sp : Nat) (ptrs : List Nat) :
    (ustack sp ptrs).getD (3 + ptrs.length) 0 = 0 := by
  have hlen : ([0xffffffff, ptrs.length, sub32 sp ((ptrs.length + 1) * 4)] ++ ptrs).length =
      3 + ptrs.length := List.length_append
  rw [ustack, List.getD_append_right _ _ _ _ (by omega), hlen, Nat.sub_self, List.getD_cons_zero]

/-- **The arguments are handed over.** -/
theorem Runs.handed (h : Runs L K (stackBytes K b args) S) (hfit : Fits args) :
    Handed S ((K + 2) * PGSIZE) (startSp K args) args (argPtrs ((K + 2) * PGSIZE) args) := by
  have hroom := hfit.room h.lt
  have hsp := hfit.argSp_eq h.lt
  have hframe := hfit.frame_le h.lt
  have hlen := argPtrs_length args ((K + 2) * PGSIZE)
  have hlt := hroom.lt
  have hle := hroom.le
  have hesp : startSp K args + (args.length + 4) * 4 = argSp K args := by
    rw [startSp]
    omega
  have hwords : (ustack (argSp K args) (argPtrs ((K + 2) * PGSIZE) args)).length =
      args.length + 4 := by
    simp only [ustack, List.length_append, List.length_cons, List.length_nil, hlen]
    omega
  have hword : ∀ i w a, i < args.length + 4 → a = startSp K args + 4 * i →
      (ustack (argSp K args) (argPtrs ((K + 2) * PGSIZE) args)).getD i 0 = w → w < 2 ^ 32 →
      loadWord S.byte a = w := by
    rintro i w a hi rfl hw hwlt
    rw [h.byte, stackBytes, loadWord_splice (by omega), hw, Nat.mod_eq_of_lt hwlt]
  have hptr : ∀ i, i < args.length →
      startSp K args + (args.length + 4) * 4 ≤ (argPtrs ((K + 2) * PGSIZE) args).getD i 0 ∧
      (argPtrs ((K + 2) * PGSIZE) args).getD i 0 + ((args.getD i []).length + 1) ≤
        (K + 2) * PGSIZE := by
    intro i hi
    rw [hesp, hsp]
    exact hroom.ptr hi
  constructor
  case count => exact hlen
  case ret => exact hword 0 _ _ (by omega) (Nat.add_zero _).symm rfl (by decide)
  case argc =>
    refine hword 1 _ _ (by omega) rfl ?_ (by omega)
    rw [← hlen]
    rfl
  case argv =>
    refine hword 2 _ _ (by omega) rfl ?_ (by omega)
    simp only [ustack, List.cons_append, List.getD_cons_succ, List.getD_cons_zero, hlen, sub32]
    omega
  case ptr =>
    intro i hi
    have hend := (hptr i hi).2
    exact hword (3 + i) _ _ (by omega) (by omega) (ustack_getD _ _ (by omega)) (by omega)
  case last =>
    have hlast := ustack_last (argSp K args) (argPtrs ((K + 2) * PGSIZE) args)
    rw [hlen] at hlast
    exact hword (3 + args.length) _ _ (by omega) (by omega) hlast (by decide)
  case string =>
    intro i hi k hk
    have habove := (hptr i hi).1
    rw [h.byte, stackBytes, splice_apply_of_ge]
    · exact hroom.string hi hk
    · rw [wordBytes_length, hwords]
      omega
  case page =>
    rw [h.flags, Nat.mul_div_cancel _ (by decide), if_neg (by omega), if_pos (by omega)]
  case frame =>
    have hnext : (K + 2) * PGSIZE = (K + 1) * PGSIZE + PGSIZE := Nat.succ_mul ..
    omega
  case above => exact hptr
  case apart => exact fun i j hij hj => hroom.ptr_below hij hj

end

/-! ## 4. `exec` is atomic and safe -/

/-- The header of a program. -/
def header (file : List UInt8) : Option Elfhdr := (readExactly file 0 52).map Elfhdr.ofBytes

/-- The program headers that are loaded. -/
def loads (os : List (Option Proghdr)) : List Proghdr :=
  (os.filterMap id).filter fun ph => ph.type = ELF_PROG_LOAD

/-- The bytes of the file are put where the segment belongs. -/
def putSegment (file : List UInt8) (b : Bytes) (ph : Proghdr) : Bytes :=
  splice b ph.vaddr ((file.drop ph.off).take ph.filesz)

/-- **The memory that the segments describe**: zeroes, with one segment put over the other. -/
def programBytes (file : List UInt8) (elf : Elfhdr) : Bytes :=
  (loads (phdrs file elf.phnum elf.phoff)).foldl (putSegment file) fun _ => 0

section

variable {file : List UInt8} {I I' : Image} {ph : Proghdr} {elf : Elfhdr}

theorem segmentBytes_some {off sz : Nat} {bs : List UInt8} (h : segmentBytes file off sz = some bs) :
    bs = (file.drop off).take sz ∧ (0 < sz → off + sz ≤ file.length) := by
  rw [segmentBytes] at h
  split at h
  next hzero =>
    cases h
    rw [hzero, List.take_zero]
    exact ⟨rfl, fun hc => absurd hc (lt_irrefl 0)⟩
  next hpos =>
    rw [readExactly, Option.filter_eq_some_iff] at h
    obtain ⟨hread, hlen⟩ := h
    rw [readi] at hread
    split at hread
    next => cases hread
    next =>
      cases hread
      rw [decide_eq_true_eq, List.length_take, List.length_drop] at hlen
      exact ⟨rfl, fun _ => by omega⟩

/-- What a segment that is loaded looks like. -/
theorem Image.add_load (hload : ph.type = ELF_PROG_LOAD) (h : I.add file ph = some I') :
    I'.byte = putSegment file I.byte ph ∧ (0 < ph.filesz → ph.off + ph.filesz ≤ file.length) ∧
      ph.vaddr + ph.filesz ≤ I'.sz := by
  rw [Image.add, if_neg fun hc => hc hload] at h
  split at h
  next hok =>
    obtain ⟨bs, hbs, rfl⟩ := Option.map_eq_some_iff.mp h
    obtain ⟨rfl, hin⟩ := segmentBytes_some hbs
    refine ⟨rfl, hin, ?_⟩
    exact (Nat.add_le_add_left hok.1 _).trans (Nat.le_max_right ..)
  next => cases h

theorem Image.load_byte {os : List (Option Proghdr)} (h : Image.load file os I = some I') :
    I'.byte = (loads os).foldl (putSegment file) I.byte ∧ ∀ ph ∈ loads os,
      (0 < ph.filesz → ph.off + ph.filesz ≤ file.length) ∧ ph.vaddr + ph.filesz ≤ I'.sz := by
  induction os generalizing I with
  | nil =>
    cases h
    exact ⟨rfl, fun _ hmem => absurd hmem List.not_mem_nil⟩
  | cons o os ih =>
    rw [Image.load] at h
    obtain ⟨I₁, hstep, hload⟩ := Option.bind_eq_some_iff.mp h
    obtain ⟨ph, rfl, hadd⟩ := Option.bind_eq_some_iff.mp hstep
    obtain ⟨hbyte, hall⟩ := ih hload
    by_cases htype : ph.type = ELF_PROG_LOAD
    · have hloads : loads (some ph :: os) = ph :: loads os :=
        List.filter_cons_of_pos (by simpa using htype)
      obtain ⟨hput, hin, hend⟩ := Image.add_load htype hadd
      rw [hloads, List.foldl_cons, ← hput]
      refine ⟨hbyte, fun ph' hmem => ?_⟩
      rcases List.mem_cons.mp hmem with rfl | hmem
      · exact ⟨hin, hend.trans (Image.le_load hload).1⟩
      · exact hall ph' hmem
    · have hloads : loads (some ph :: os) = loads os :=
        List.filter_cons_of_neg (by simpa using htype)
      have hsame : I₁ = I := by
        have hskip : I.add file ph = some I := if_pos htype
        rw [hskip] at hadd
        exact (Option.some.inj hadd).symm
      rw [hloads]
      subst hsame
      exact ⟨hbyte, hall⟩

theorem imageOf_some (h : imageOf file = some (elf, I)) : header file = some elf ∧
    Image.load file (phdrs file elf.phnum elf.phoff) .empty = some I := by
  rw [imageOf] at h
  cases hread : readExactly file 0 52 with
  | none =>
    rw [hread] at h
    cases h
  | some bytes =>
    rw [hread] at h
    dsimp only at h
    split at h
    next => cases h
    next =>
      obtain ⟨J, hJ, heq⟩ := Option.map_eq_some_iff.mp h
      obtain ⟨rfl, rfl⟩ := Prod.mk.inj heq
      refine ⟨?_, hJ⟩
      rw [header, hread, Option.map_some]

end

/-- A program has been started: the user's pages are those below `sz`, and hold the segments of the
file up to the page that is kept from the user. -/
structure Started (file : List UInt8) (elf : Elfhdr) (p : Uproc) (S : Space) : Prop where
  lt : p.sz < KERNBASE
  two : 2 * PGSIZE ≤ p.sz
  pages : ∀ v, (S.user v).isSome = true ↔ v < npages p.sz
  guard : ∃ f, S.flags (p.sz / PGSIZE - 2) = some f ∧ hasFlag f PTE_U = false
  inside : ∀ ph ∈ loads (phdrs file elf.phnum elf.phoff),
    (0 < ph.filesz → ph.off + ph.filesz ≤ file.length) ∧
      ph.vaddr + ph.filesz ≤ p.sz - 2 * PGSIZE
  bytes : ∀ a, a < p.sz - 2 * PGSIZE → S.byte a = programBytes file elf a

section

variable {L : Layout} {N : Nat} {p : Uproc} {path : List UInt8} {file : Option (List UInt8)}
  {f : List UInt8} {args : List (List UInt8)} {s : Phys}

theorem enough_all (file : List UInt8) : Enough file (1028 + UPAGES) where
  base := Nat.le_add_right ..
  segments _ _ _ _ _ hlt := Nat.add_le_add_left (npages_le hlt.le) _

/-- The user's pages are those below the end. -/
theorem Runs.pages {K : Nat} {b : Bytes} {S : Space} (h : Runs L K b S) (v : Nat) :
    (S.user v).isSome = true ↔ v < npages ((K + 2) * PGSIZE) := by
  rw [← flags_isSome, h.flags, npages_mul]
  split_ifs with hv hv'
  · exact iff_of_true rfl (by omega)
  · exact iff_of_true rfl hv'
  · exact iff_of_false Bool.false_ne_true hv'

/-- The program is there. -/
theorem Runs.started {elf : Elfhdr} {I : Image} {S : Space} {name : List UInt8} {t : Trapframe}
    {d : Nat} (hI : imageOf f = some (elf, I))
    (h : Runs L (npages I.sz) (stackBytes (npages I.sz) I.byte args) S) (hfit : Fits args) :
    Started f elf ⟨d, (npages I.sz + 2) * PGSIZE, name, t⟩ S := by
  obtain ⟨-, hload⟩ := imageOf_some hI
  obtain ⟨hbyte, hall⟩ := Image.load_byte hload
  have hroom := hfit.room h.lt
  have hframe := hfit.frame_le h.lt
  have hsp := hfit.argSp_eq h.lt
  have htop : (npages I.sz + 2) * PGSIZE - 2 * PGSIZE = npages I.sz * PGSIZE := by
    rw [Nat.add_mul, Nat.add_sub_cancel]
  have hend : I.sz ≤ npages I.sz * PGSIZE := by
    simp only [npages, PGSIZE]
    omega
  have hless : npages I.sz * PGSIZE ≤ (npages I.sz + 1) * PGSIZE :=
    Nat.mul_le_mul_right _ (Nat.le_succ _)
  constructor
  case lt => exact h.lt
  case two => exact Nat.mul_le_mul_right _ (Nat.le_add_left ..)
  case pages => exact h.pages
  case guard =>
    refine ⟨PTE_PW, ?_, by decide⟩
    dsimp only
    rw [Nat.mul_div_cancel _ (by decide), Nat.add_sub_cancel, h.flags, if_pos rfl]
  case inside =>
    intro ph hmem
    obtain ⟨hin, hle⟩ := hall ph hmem
    dsimp only
    rw [htop]
    exact ⟨hin, hle.trans hend⟩
  case bytes =>
    intro a ha
    dsimp only at ha
    rw [htop] at ha
    rw [h.byte, stackBytes, splice_apply_of_lt (by rw [startSp]; omega),
      hroom.pushBytes_of_lt (by omega), hbyte]
    rfl

/-- **`exec` is atomic and safe**, for any file and whichever calls of `kalloc` fail. -/
theorem exec_atomic (h : Sound L (owned s.page p.pgdir) s) (hfit : Fits args) :
    ∃ r p' s', exec L p path file args s = .ok ((r, p'), s') ∧
      ((r = -1 ∧ p' = p ∧ (∀ g ∈ owned s.page p.pgdir, s'.page g = s.page g) ∧ s'.free = s.free) ∨
        (r = 0 ∧ owned s'.page p'.pgdir + s'.free = owned s.page p.pgdir + s.free ∧
          ∃ f elf, file = some f ∧ header f = some elf ∧
            Started f elf p' (space s'.page p'.pgdir))) := by
  cases file with
  | none => exact ⟨-1, p, s, rfl, .inl ⟨rfl, rfl, fun _ _ => rfl, rfl⟩⟩
  | some f =>
    have hwp : wp (exec L p path (some f) args) _ _ s :=
      wp_exec h (enough_all f) fun arg => hfit.length_lt
    cases hrun : exec L p path (some f) args s with
    | error e =>
      obtain ⟨-, elf, I, va, -, hlt, hspill, -⟩ := wp_of_error hwp hrun
      rw [hfit.spill_none hlt] at hspill
      cases hspill
    | ok x =>
      obtain ⟨⟨r, p'⟩, s'⟩ := x
      refine ⟨r, p', s', rfl, ?_⟩
      cases wp_of_ok hwp hrun with
      | ok hI _ hruns htrade =>
        exact .inr ⟨rfl, htrade.total, f, _, rfl, (imageOf_some hI).1, hruns.started hI hfit⟩
      | bad _ hsame htrade =>
        exact .inl ⟨rfl, rfl, hsame, add_left_cancel htrade.total⟩

end

/-- A program without segments: only a header. -/
def tinyProgram : List UInt8 := [0x7f, 0x45, 0x4c, 0x46] ++ List.replicate 48 0

theorem exec_atomic_tinyProgram :
    ∃ r p' s', exec smallLayout oneProc [] (some tinyProgram) [[104, 105]] roomy =
        .ok ((r, p'), s') ∧
      ((r = -1 ∧ p' = oneProc ∧
          (∀ g ∈ owned roomy.page oneProc.pgdir, s'.page g = roomy.page g) ∧
          s'.free = roomy.free) ∨
        (r = 0 ∧ owned s'.page p'.pgdir + s'.free = owned roomy.page oneProc.pgdir + roomy.free ∧
          ∃ f elf, some tinyProgram = some f ∧ header f = some elf ∧
            Started f elf p' (space s'.page p'.pgdir))) :=
  exec_atomic roomy_mapped.sound (by decide)

/-! ## 5. The arguments arrive -/

section

variable {L : Layout} {p : Uproc} {path file : List UInt8} {elf : Elfhdr} {I : Image}
  {args : List (List UInt8)} {s : Phys}

/-- A program can be loaded with the pages that it has. -/
theorem enough_image (h : imageOf file = some (elf, I)) : Enough file (1028 + npages I.sz) where
  base := Nat.le_add_right ..
  segments bytes hread ph hmem hload _ := by
    obtain ⟨hheader, hall⟩ := imageOf_some h
    rw [header, hread, Option.map_some, Option.some.injEq] at hheader
    rw [hheader] at hmem
    exact Nat.add_le_add_left (npages_mono ((Image.le_load hall).2 ph hmem hload)) _

/-- **The arguments are handed over**, if there is enough memory. -/
theorem exec_hands_over (h : Sound L (owned s.page p.pgdir) s) (hI : imageOf file = some (elf, I))
    (hlt : (npages I.sz + 2) * PGSIZE < KERNBASE) (hcount : args.length < MAXARG)
    (hfit : Fits args) (hmem : ∀ c, s.fails c = false)
    (hfree : 1028 + npages I.sz < s.freelist.length) :
    ∃ p' s' ptrs, exec L p path (some file) args s = .ok ((0, p'), s') ∧
      Handed (space s'.page p'.pgdir) p'.sz p'.tf.esp args ptrs := by
  have hwp : wp (exec L p path (some file) args) _ _ s :=
    wp_exec h (enough_image hI) fun arg => hfit.length_lt
  cases hrun : exec L p path (some file) args s with
  | error e =>
    obtain ⟨-, elf', I', va, -, hlt', hspill, -⟩ := wp_of_error hwp hrun
    rw [hfit.spill_none hlt'] at hspill
    cases hspill
  | ok x =>
    obtain ⟨⟨r, p'⟩, s'⟩ := x
    cases wp_of_ok hwp hrun with
    | ok hI' _ hruns _ =>
      rw [hI] at hI'
      obtain ⟨rfl, rfl⟩ := Prod.mk.inj (Option.some.inj hI')
      exact ⟨_, s', _, rfl, hruns.handed hfit⟩
    | bad hwhy _ _ =>
      rcases hwhy elf I hI hlt (hfit.argsFit hlt hcount.le) with ⟨c, hc⟩ | hshort
      · rw [hmem c] at hc
        cases hc
      · exact absurd hfree (not_lt.mpr hshort)

end

theorem tinyProgram_image : imageOf tinyProgram = some (⟨ELF_MAGIC, 0, 0, 0⟩, .empty) := rfl

theorem exec_hands_over_tinyProgram :
    ∃ p' s' ptrs, exec smallLayout oneProc [] (some tinyProgram) [[104, 105], [120]] roomy =
        .ok ((0, p'), s') ∧
      Handed (space s'.page p'.pgdir) p'.sz p'.tf.esp [[104, 105], [120]] ptrs :=
  exec_hands_over roomy_mapped.sound tinyProgram_image (by decide) (by decide) (by decide)
    (fun _ => rfl) (by rw [roomy, List.length_range']; decide)


/-! ## 6. Strings that fall through -/

section

variable {L : Layout} {p : Uproc} {path file : List UInt8} {args : List (List UInt8)} {s : Phys}

/-- A string that goes to the hole stops `exec`. -/
theorem exec_in_hole {N d K va : Nat} {b : Bytes} {elf : Elfhdr} {s₁ : Phys} (hs : Sound L 0 s)
    (hrun : execImage L file s = .ok (some (elf, d, (K + 2) * PGSIZE), s₁))
    (h₁ : Ready L N d K b s s₁) (hargs : ∀ arg ∈ args, arg.length < KERNBASE)
    (hcount : args.length < MAXARG) (hspill : spill (K + 1) ((K + 2) * PGSIZE) args = some va)
    (hhole : InHole va) : exec L p path (some file) args s = .error .nullPte := by
  refine wp_error ?_
  simp only [exec, wp_bind]
  refine wp_ok hrun ?_
  simp only [wp_bind]
  refine wp_mono (wp_execPush hs h₁ hargs) ?_ fun e he => he.1
  rintro _ s₂ (⟨hfit, -⟩ | ⟨-, hwhy, -⟩)
  · rw [hfit.strings] at hspill
    cases hspill
  · exact (hwhy hcount.le va hspill hhole).elim

/-- **When `exec` reads through a null pointer**: the first string that does not go to the stack page
goes to an address between the memory and the devices. -/
theorem exec_null_pte_iff (h : Sound L (owned s.page p.pgdir) s)
    (hargs : ∀ arg ∈ args, arg.length < KERNBASE) (hcount : args.length < MAXARG) :
    exec L p path (some file) args s ≠ .error .nullPte ↔
      ∀ elf d sz s₁ va, execImage L file s = .ok (some (elf, d, sz), s₁) →
        spill (sz / PGSIZE - 1) sz args = some va → ¬ InHole va := by
  have hs := h.none
  have himage : wp (execImage L file) _ (fun _ => False) s := wp_execImage hs (enough_all file)
  have hpages : ∀ K, (K + 2) * PGSIZE / PGSIZE - 1 = K + 1 := fun K => by
    rw [Nat.mul_div_cancel _ (by decide : 0 < PGSIZE)]
    rfl
  constructor
  · intro hne elf d sz s₁ va hrun hspill hhole
    cases wp_of_ok himage hrun with
    | ok _ h₁ =>
      rw [hpages] at hspill
      exact hne (exec_in_hole hs hrun h₁ hargs hcount hspill hhole)
  · intro hno hnull
    have hwp : wp (exec L p path (some file) args) _ _ s := wp_exec h (enough_all file) hargs
    obtain ⟨-, elf, I, va, hI, -, hspill, hhole⟩ := wp_of_error hwp hnull
    cases hrun : execImage L file s with
    | error e => exact wp_of_error himage hrun
    | ok x =>
      obtain ⟨_ | ⟨elf', d, sz⟩, s₁⟩ := x
      · have hok : wp (exec L p path (some file) args) (fun _ _ => True) (fun _ => False) s := by
          simp only [exec, wp_bind]
          exact wp_ok hrun trivial
        exact wp_of_error hok hnull
      · refine hno elf' d sz s₁ va hrun ?_ hhole
        cases wp_of_ok himage hrun with
        | ok hI' _ =>
          rw [hI] at hI'
          obtain ⟨-, rfl⟩ := Prod.mk.inj (Option.some.inj hI')
          rwa [hpages]

/-- An address space with `K` empty pages. -/
theorem exists_blank {K : Nat} (h : Sound L 0 s) (hmem : ∀ c, s.fails c = false)
    (hfree : 1026 + K < s.freelist.length) (hlt : K * PGSIZE < KERNBASE) :
    ∃ d s', Sound L (owned s'.page d) s' ∧
      (∀ v, (space s'.page d).user v = if v < K then some (PTE_PWU, fun _ => 0) else none) ∧
      s'.fails = s.fails ∧
      (owned s'.page d).card + s'.freelist.length = s.freelist.length := by
  have hpages : npages (K * PGSIZE) = K := npages_mul K
  obtain ⟨_, s₁, -, ⟨ht₁, hspace₁⟩ | ⟨ht₁, hden⟩⟩ := wp_returns (wp_setupkvm h le_rfl)
  swap
  · rcases ht₁.short_zero hden with ⟨c, hc⟩ | hshort
    · rw [hmem c] at hc
      cases hc
    · omega
  rename_i d
  have htotal := ht₁.card_total
  rw [Multiset.card_zero, Nat.zero_add] at htotal
  have hbelow : (space s₁.page d).Below (npages 0) := fun v _ => by
    rw [hspace₁, kernSpace_user]
  have hgrow : wp (allocuvm L d 0 (K * PGSIZE)) _ (fun _ => False) s₁ :=
    wp_allocuvm (h.trade ht₁) hbelow le_rfl
  obtain ⟨r, s₂, -, halloc⟩ := wp_returns hgrow
  cases halloc with
  | big hbig => exact absurd hlt (not_lt.mpr hbig)
  | keep hkeep _ => exact absurd hkeep (Nat.not_lt_zero _)
  | fail _ _ ht₂ _ _ hden =>
    rcases ht₂.short hden with ⟨c, hc⟩ | hshort
    · rw [ht₁.fails, hmem c] at hc
      cases hc
    · rw [hpages] at hshort
      omega
  | ok _ _ ht₂ hspace₂ =>
    refine ⟨d, s₂, (h.trade ht₁).trade ht₂, fun v => ?_, ht₂.fails.trans ht₁.fails,
      ht₂.card_total.trans htotal⟩
    rw [hspace₂, hspace₁, npages_zero, hpages, Space.grow, kernSpace_user]
    by_cases hv : v < K
    · rw [if_pos hv]
      exact if_pos ⟨Nat.zero_le v, hv⟩
    · rw [if_neg hv]
      exact if_neg fun hc => hv hc.2

/-- A process that has a given string in its memory. -/
theorem exists_string {K : Nat} (str : List UInt8) (h : Sound L 0 s)
    (hmem : ∀ c, s.fails c = false) (hfree : 1026 + K < s.freelist.length)
    (hlt : K * PGSIZE < KERNBASE) (hlen : str.length < K * PGSIZE) :
    ∃ p s', Mapped L p s' ∧ p.sz = K * PGSIZE ∧
      (∀ k, k ≤ str.length → (space s'.page p.pgdir).byte k = (str ++ [0]).getD k 0) ∧
      s'.fails = s.fails ∧ s.freelist.length ≤ 1025 + K + s'.freelist.length := by
  have hpages : npages (K * PGSIZE) = K := npages_mul K
  have hK : K < VPAGES := by
    simp only [PGSIZE, KERNBASE, VPAGES] at *
    omega
  have hfits : ¬ K * PGSIZE < 0 + str.length := by
    rw [Nat.zero_add]
    exact hlen.not_gt
  obtain ⟨d, s₁, hs₁, huser, hfails, htotal⟩ := exists_blank h hmem hfree hlt
  have hacc : ∀ v, 0 / PGSIZE ≤ v → v < K → (space s₁.page d).Accepts v := fun v _ hv =>
    ⟨PTE_PWU, by rw [Space.flags, huser, if_pos hv]; rfl, by decide⟩
  have hcopy : wp (copyout d 0 str) (CopyOut 0 d K 0 str s₁) (fun _ => False) s₁ :=
    wp_copyout hK (Nat.zero_le _) hs₁ hacc fun hover => absurd hover hfits
  obtain ⟨_, s₂, -, ⟨-, hfill⟩ | ⟨hover, -⟩⟩ := wp_returns hcopy
  swap
  · exact absurd hover hfits
  have hisSome : ∀ v, ((space s₂.page d).user v).isSome = true ↔ v < K := fun v => by
    rw [← flags_isSome, hfill.wrote.flags, flags_isSome, huser]
    by_cases hv : v < K
    · rw [if_pos hv]
      exact iff_of_true rfl hv
    · rw [if_neg hv]
      exact iff_of_false Bool.false_ne_true hv
  have hmapped : Mapped L ⟨d, K * PGSIZE, [], ⟨0, 0, fun _ => 0⟩⟩ s₂ :=
    ⟨hs₁.trade hfill.trade, hlt, fun v => (hisSome v).trans (by rw [hpages])⟩
  refine ⟨_, s₂, hmapped, rfl, fun k hk => ?_, hfill.trade.fails.trans hfails, ?_⟩
  · rw [hfill.wrote.byte]
    rcases hk.lt_or_eq with hk | rfl
    · have hbyte : splice (space s₁.page d).byte 0 str (0 + k) = str.getD k 0 :=
        splice_apply_mem hk
      rw [Nat.zero_add] at hbyte
      rw [hbyte, List.getD_append _ _ _ _ hk]
    · have hpage : str.length / PGSIZE < K := Nat.div_lt_of_lt_mul (by rwa [Nat.mul_comm])
      rw [splice_apply_of_ge (Nat.zero_add _).le, List.getD_append_right _ _ _ _ le_rfl,
        Nat.sub_self, Space.byte, huser, if_pos hpage]
      rfl
  · have hcard : (owned s₂.page d).card ≤ 1025 + npages (K * PGSIZE) :=
      card_owned_le hmapped.below
    have hsame := hfill.trade.card_total
    rw [hpages] at hcard
    omega

/-- Nothing but free memory. -/
def blankMemory : Phys where
  page _ _ := 0
  freelist := List.range' 300 50000
  calls := 0
  denied := 0
  fails _ := false

/-- A program of two pages is called with a string of 40000000 bytes. -/
theorem exec_reads_null_pte : ∃ p s, Mapped smallLayout p s ∧
    (∀ k, k < 40000000 → (space s.page p.pgdir).byte k = 97) ∧
    (space s.page p.pgdir).byte 40000000 = 0 ∧ 40000000 < p.sz ∧
    exec smallLayout p [] (some tinyProgram) [List.replicate 40000000 97] s = .error .nullPte := by
  -- a numeral would be evaluated
  obtain ⟨n, hn⟩ : ∃ n, n = 40000000 := ⟨_, rfl⟩
  have hlen : (List.replicate n (97 : UInt8)).length = n := List.length_replicate
  have hblank : Sound smallLayout 0 blankMemory := sound_range rfl (by decide) (by decide)
  have hlong : blankMemory.freelist.length = 50000 := List.length_range'
  obtain ⟨p, s, hmapped, hsz, hstr, hfails, hfree⟩ :=
    exists_string (K := 10000) (List.replicate n 97) hblank (fun _ => rfl)
      (by rw [hlong]; decide) (by decide) (by rw [hlen, hn]; decide)
  rw [hlong] at hfree
  rw [hlen] at hstr
  have hs := hmapped.sound.none
  rw [← hn]
  refine ⟨p, s, hmapped, fun k hk => ?_, ?_, ?_, ?_⟩
  · rw [hstr k hk.le, List.getD_append _ _ _ _ (by rwa [hlen]), List.getD_replicate _ hk]
  · rw [hstr n le_rfl, List.getD_append_right _ _ _ _ (by rw [hlen]), hlen, Nat.sub_self]
    rfl
  · rw [hsz, hn]
    decide
  · have himage := wp_execImage (E := fun _ => False) hs (enough_image tinyProgram_image)
    obtain ⟨_, s₁, hrun, ⟨hI, h₁⟩ | ⟨hwhy, ht⟩⟩ := wp_returns himage
    swap
    · rcases ht.short_zero (hwhy _ _ tinyProgram_image (by decide)) with ⟨c, hc⟩ | hshort
      · rw [hfails] at hc
        cases hc
      · rw [Image.empty, npages_zero] at hshort
        omega
    obtain ⟨-, rfl⟩ := Prod.mk.inj (Option.some.inj (tinyProgram_image.symm.trans hI))
    have hpush : pushArg ((npages Image.empty.sz + 2) * PGSIZE) (List.replicate n 97) =
        4254975484 := by
      rw [pushArg, hlen, hn]
      rfl
    have hspill : spill (npages Image.empty.sz + 1) ((npages Image.empty.sz + 2) * PGSIZE)
        [List.replicate n 97] = some 4254975484 := by
      rw [spill, hpush, if_neg (by decide)]
    refine exec_in_hole hs hrun h₁ (fun arg harg => ?_) ?_ hspill (by decide)
    · rw [List.mem_singleton.mp harg, hlen, hn]
      decide
    · rw [List.length_singleton]
      decide

/-- A short argument of the program is on the stack page. -/
theorem tinyProgram_spill {elf : Elfhdr} {d sz va : Nat} {s₁ : Phys} (hs : Sound L 0 s)
    (hrun : execImage L tinyProgram s = .ok (some (elf, d, sz), s₁)) :
    spill (sz / PGSIZE - 1) sz [[104, 105]] ≠ some va := by
  have himage := wp_execImage (E := fun _ => False) hs (enough_image tinyProgram_image)
  cases wp_of_ok himage hrun with
  | ok hI _ =>
    obtain ⟨-, rfl⟩ := Prod.mk.inj (Option.some.inj (tinyProgram_image.symm.trans hI))
    have hnone : spill ((npages Image.empty.sz + 2) * PGSIZE / PGSIZE - 1)
        ((npages Image.empty.sz + 2) * PGSIZE) [[104, 105]] = none := by decide
    rw [hnone]
    exact Option.some_ne_none _ ∘ Eq.symm

theorem exec_null_pte_iff_tinyProgram :
    exec smallLayout oneProc [] (some tinyProgram) [[104, 105]] roomy ≠ .error .nullPte := by
  have hargs : ∀ arg ∈ [[(104 : UInt8), 105]], arg.length < KERNBASE := by
    simp only [List.mem_singleton, forall_eq]
    decide
  refine (exec_null_pte_iff roomy_mapped.sound hargs (by decide)).mpr ?_
  intro elf d sz s₁ va hrun hspill
  exact absurd hspill (tinyProgram_spill roomy_sound hrun)

end

end Xv6.Vm
