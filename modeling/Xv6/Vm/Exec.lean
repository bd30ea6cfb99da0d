/-
# `exec`

The file is given by its bytes.  `imageOf file` says what a program is for the loader: the size and
the bytes that its segments make up, later segments on top of earlier ones.  `exec` builds an address
space with these bytes, a page that is kept from the user above them, and the stack page with the
arguments; or it fails, and then nothing has changed.
-/
import Xv6.Vm.Contents

namespace Xv6.Vm

open Bytes

/-! ## 1. The code -/

/-- `struct elfhdr`, as far as it is looked at. -/
structure Elfhdr where
  magic : Nat
  entry : Nat
  phoff : Nat
  phnum : Nat

def Elfhdr.ofBytes (bytes : List UInt8) : Elfhdr :=
  let b : Bytes := fun k => bytes.getD k 0
  ⟨getWord b 0, getWord b 6, getWord b 7, getWord b 11 % 2 ^ 16⟩

/-- `struct proghdr`, as far as it is looked at. -/
structure Proghdr where
  type : Nat
  off : Nat
  vaddr : Nat
  filesz : Nat
  memsz : Nat

def Proghdr.ofBytes (bytes : List UInt8) : Proghdr :=
  let b : Bytes := fun k => bytes.getD k 0
  ⟨getWord b 0, getWord b 1, getWord b 2, getWord b 4, getWord b 5⟩

/-- One program header, with the size so far; `none` stands for `goto bad`. -/
def execSegment (L : Layout) (pgdir : Nat) (file : List UInt8) (off sz : Nat) : VmM (Option Nat) :=
  match readExactly file off 32 with
  | none => return none
  | some bytes =>
    let ph := Proghdr.ofBytes bytes
    if ph.type ≠ ELF_PROG_LOAD then return some sz
    else if ph.memsz < ph.filesz then return none
    else if add32 ph.vaddr ph.memsz < ph.vaddr then return none
    else do
      let sz ← allocuvm L pgdir sz (add32 ph.vaddr ph.memsz)
      if sz = 0 then return none
      else if ph.vaddr % PGSIZE ≠ 0 then return none
      else if (← loaduvm pgdir ph.vaddr file ph.off ph.filesz) < 0 then return none
      else return some sz

/-- The loop over the program headers, with `n` of them to go. -/
def execSegments (L : Layout) (pgdir : Nat) (file : List UInt8) : Nat → Nat → Nat → VmM (Option Nat)
  | 0, _, sz => return some sz
  | n + 1, off, sz => do
    match ← execSegment L pgdir file off sz with
    | none => return none
    | some sz => execSegments L pgdir file n (add32 off 32) sz

/-- The page that is kept from the user, and the stack. -/
def execStack (L : Layout) (pgdir sz : Nat) : VmM (Option Nat) := do
  let sz ← allocuvm L pgdir (pgRoundUp sz) (add32 (pgRoundUp sz) (2 * PGSIZE))
  if sz = 0 then return none
  else do
    clearpteu pgdir (sub32 sz (2 * PGSIZE))
    return some sz

/-- `(sp - (strlen(arg) + 1)) & ~3`. -/
def pushArg (sp : Nat) (arg : List UInt8) : Nat := sub32 sp (arg.length + 1) / 4 * 4

/-- The loop over the arguments: the stack pointer, and what is in `ustack` from its third word on. -/
def execArgs (pgdir : Nat) : List (List UInt8) → Nat → List Nat → VmM (Option (Nat × List Nat))
  | [], sp, ptrs => return some (sp, ptrs)
  | arg :: args, sp, ptrs =>
    if MAXARG ≤ ptrs.length then return none
    else do
      if (← copyout pgdir (pushArg sp arg) (arg ++ [0])) < 0 then return none
      else execArgs pgdir args (pushArg sp arg) (ptrs ++ [pushArg sp arg])

/-- The bytes of a word. -/
def wordBytes (w : Nat) : List UInt8 :=
  [UInt8.ofNat w, UInt8.ofNat (w / 256), UInt8.ofNat (w / 65536), UInt8.ofNat (w / 16777216)]

/-- `ustack`, when the strings are there. -/
def ustack (sp : Nat) (ptrs : List Nat) : List Nat :=
  [0xffffffff, ptrs.length, sub32 sp ((ptrs.length + 1) * 4)] ++ ptrs ++ [0]

def execFrame (pgdir sp : Nat) (ptrs : List Nat) : VmM (Option Nat) := do
  let sp' := sub32 sp ((3 + ptrs.length + 1) * 4)
  if (← copyout pgdir sp' ((ustack sp ptrs).flatMap wordBytes)) < 0 then return none
  else return some sp'

/-- The program headers and the stack. -/
def execLoad (L : Layout) (pgdir : Nat) (file : List UInt8) (elf : Elfhdr) : VmM (Option Nat) := do
  match ← execSegments L pgdir file elf.phnum elf.phoff 0 with
  | none => return none
  | some sz => execStack L pgdir sz

/-- `exec` before it looks at the arguments: the header, the new directory and the size.  What has
been allocated is freed if something is wrong. -/
def execImage (L : Layout) (file : List UInt8) : VmM (Option (Elfhdr × Nat × Nat)) :=
  match readExactly file 0 52 with
  | none => return none
  | some bytes =>
    let elf := Elfhdr.ofBytes bytes
    if elf.magic ≠ ELF_MAGIC then return none
    else do
      match ← setupkvm L with
      | none => return none
      | some pgdir =>
        match ← execLoad L pgdir file elf with
        | none => do
          freevm L pgdir
          return none
        | some sz => return some (elf, pgdir, sz)

/-- The arguments: the stack pointer that the program starts with. -/
def execPush (pgdir sz : Nat) (args : List (List UInt8)) : VmM (Option Nat) := do
  match ← execArgs pgdir args sz [] with
  | none => return none
  | some (sp, ptrs) => execFrame pgdir sp ptrs

/-- `p->name`: what follows the last slash, cut to 15 bytes. -/
def lastName (path : List UInt8) : List UInt8 :=
  ((path.reverse.takeWhile fun c => c ≠ 47).reverse).take 15

/-- `exec`, with what it returns and the process afterwards.  `file` is what `namei` finds. -/
def exec (L : Layout) (p : Uproc) (path : List UInt8) (file : Option (List UInt8))
    (args : List (List UInt8)) : VmM (Int × Uproc) :=
  match file with
  | none => return (-1, p)
  | some file => do
    match ← execImage L file with
    | none => return (-1, p)
    | some (elf, pgdir, sz) =>
      match ← execPush pgdir sz args with
      | none => do
        freevm L pgdir
        return (-1, p)
      | some sp => do
        freevm L p.pgdir
        return (0, ⟨pgdir, sz, lastName path, { p.tf with eip := elf.entry, esp := sp }⟩)

/-! ## 2. The image of a program -/

/-- The size of a program, and its bytes. -/
structure Image where
  sz : Nat
  byte : Bytes

def Image.empty : Image := ⟨0, fun _ => 0⟩

/-- A segment is put on top. -/
def Image.add (file : List UInt8) (I : Image) (ph : Proghdr) : Option Image :=
  if ph.type ≠ ELF_PROG_LOAD then some I
  else if ph.filesz ≤ ph.memsz ∧ ph.vaddr + ph.memsz < KERNBASE ∧
      0 < max I.sz (ph.vaddr + ph.memsz) ∧ ph.vaddr % PGSIZE = 0 then
    (segmentBytes file ph.off ph.filesz).map fun bs =>
      ⟨max I.sz (ph.vaddr + ph.memsz), splice I.byte ph.vaddr bs⟩
  else none

/-- The program header at `off`, if it can be read. -/
def phdr (file : List UInt8) (off : Nat) : Option Proghdr :=
  (readExactly file off 32).map Proghdr.ofBytes

/-- The program headers, with `n` of them to go. -/
def phdrs (file : List UInt8) : Nat → Nat → List (Option Proghdr)
  | 0, _ => []
  | n + 1, off => phdr file off :: phdrs file n (add32 off 32)

def Image.load (file : List UInt8) : List (Option Proghdr) → Image → Option Image
  | [], I => some I
  | o :: os, I => (o.bind (I.add file)).bind (load file os)

/-- **The program in a file.** -/
def imageOf (file : List UInt8) : Option (Elfhdr × Image) :=
  match readExactly file 0 52 with
  | none => none
  | some bytes =>
    if (Elfhdr.ofBytes bytes).magic ≠ ELF_MAGIC then none
    else (Image.load file (phdrs file (Elfhdr.ofBytes bytes).phnum (Elfhdr.ofBytes bytes).phoff)
      .empty).map fun I => (Elfhdr.ofBytes bytes, I)

section

variable {file : List UInt8} {I I' : Image} {ph : Proghdr} {off n : Nat}

/-- All fields are words. -/
theorem phdr_lt (h : phdr file off = some ph) :
    ph.off < 2 ^ 32 ∧ ph.vaddr < 2 ^ 32 ∧ ph.memsz < 2 ^ 32 := by
  obtain ⟨bytes, -, rfl⟩ := Option.map_eq_some_iff.mp h
  simp only [Proghdr.ofBytes]
  exact ⟨getWord_lt .., getWord_lt .., getWord_lt ..⟩

/-- A program header that is loaded ends inside the image. -/
theorem Image.le_add (h : I.add file ph = some I') : I.sz ≤ I'.sz ∧
    (ph.type = ELF_PROG_LOAD → ph.vaddr + ph.memsz ≤ I'.sz) := by
  rw [Image.add] at h
  split at h
  next hskip =>
    cases h
    exact ⟨le_rfl, fun hload => absurd hload hskip⟩
  next hload =>
    split at h
    next =>
      obtain ⟨bs, -, rfl⟩ := Option.map_eq_some_iff.mp h
      exact ⟨Nat.le_max_left .., fun _ => Nat.le_max_right ..⟩
    next => cases h

theorem Image.le_load : ∀ {os : List (Option Proghdr)} {I I' : Image},
    Image.load file os I = some I' → I.sz ≤ I'.sz ∧
      ∀ ph, some ph ∈ os → ph.type = ELF_PROG_LOAD → ph.vaddr + ph.memsz ≤ I'.sz
  | [], I, I', h => by
    cases h
    exact ⟨le_rfl, fun _ hmem => absurd hmem List.not_mem_nil⟩
  | o :: os, I, I', h => by
    rw [Image.load] at h
    obtain ⟨I₁, hadd, hload⟩ := Option.bind_eq_some_iff.mp h
    obtain ⟨ph, rfl, hadd⟩ := Option.bind_eq_some_iff.mp hadd
    obtain ⟨hle, hend⟩ := Image.le_add hadd
    obtain ⟨hle', hall⟩ := Image.le_load hload
    refine ⟨hle.trans hle', fun ph' hmem htype => ?_⟩
    rcases List.mem_cons.mp hmem with heq | hmem
    · cases heq
      exact (hend htype).trans hle'
    · exact hall ph' hmem htype

end

/-! ## 3. Loading -/

/-- The address space `d`, which has been made from free pages, holds the image. -/
structure Loaded (L : Layout) (N d : Nat) (I : Image) (s s' : Phys) : Prop where
  trade : Trade N 0 (owned s'.page d) s s'
  lt : I.sz < KERNBASE
  flags : ∀ v, (space s'.page d).flags v = if v < npages I.sz then some PTE_PWU else none
  byte : (space s'.page d).byte = I.byte
  kern : (space s'.page d).kern = (kernSpace L).kern
  ktab : (space s'.page d).ktab = (kernSpace L).ktab

section

variable {L : Layout} {N d off : Nat} {file : List UInt8} {I : Image} {ph : Proghdr}
  {s s₁ : Phys} {E : Fault → Prop}

theorem flags_grow (S : Space) (a b v : Nat) :
    (S.grow a b).flags v = if a ≤ v ∧ v < b then some PTE_PWU else S.flags v := by
  rw [Space.flags, Space.grow]
  dsimp only
  split
  · rfl
  · rfl

/-- New pages are full of zeroes. -/
theorem byte_grow {S : Space} {a : Nat} (h : S.Below a) (b : Nat) : (S.grow a b).byte = S.byte := by
  funext x
  rw [Space.byte, Space.byte, Space.grow]
  dsimp only
  by_cases hx : a ≤ x / PGSIZE ∧ x / PGSIZE < b
  · rw [if_pos hx, h _ hx.1]
  · rw [if_neg hx]

theorem Loaded.below (h : Loaded L N d I s s₁) : (space s₁.page d).Below (npages I.sz) := by
  intro v hv
  have hflags := h.flags v
  rwa [if_neg (not_lt.mpr hv), Space.flags, Option.map_eq_none_iff] at hflags

/-- The image has grown by pages of zeroes. -/
theorem Loaded.grow {s₂ : Phys} {newsz : Nat} (h : Loaded L N d I s s₁) (hle : I.sz ≤ newsz)
    (hlt : newsz < KERNBASE)
    (htrade : Trade N (owned s₁.page d) (owned s₂.page d) s₁ s₂)
    (hspace : space s₂.page d = (space s₁.page d).grow (npages I.sz) (npages newsz)) :
    Loaded L N d ⟨newsz, I.byte⟩ s s₂ where
  trade := h.trade.trans htrade
  lt := hlt
  flags v := by
    have hmono := npages_mono hle
    rw [hspace, flags_grow, h.flags]
    dsimp only
    by_cases hv : v < npages I.sz
    · rw [if_neg (by omega), if_pos hv, if_pos (by omega)]
    · by_cases hv' : v < npages newsz
      · rw [if_pos (by omega), if_pos hv']
      · rw [if_neg (by omega), if_neg hv, if_neg hv']
  byte := by rw [hspace, byte_grow h.below, h.byte]
  kern := by
    rw [hspace]
    exact h.kern
  ktab := by
    rw [hspace]
    exact h.ktab

/-- Bytes of the image have been written. -/
theorem Loaded.fill {s₂ : Phys} {va : Nat} {bs : List UInt8} (h : Loaded L N d I s s₁)
    (hfill : Fills N d va bs s₁ s₂) : Loaded L N d ⟨I.sz, splice I.byte va bs⟩ s s₂ where
  trade := h.trade.trans hfill.trade
  lt := h.lt
  flags v := by rw [hfill.wrote.flags, h.flags]
  byte := by rw [hfill.wrote.byte, h.byte]
  kern := hfill.wrote.kern.trans h.kern
  ktab := hfill.wrote.ktab.trans h.ktab

/-- What one program header does. -/
inductive Segment (L : Layout) (N d : Nat) (next : Option Image) (s : Phys) :
    Option Nat → Phys → Prop
  | ok {I : Image} {s' : Phys} : next = some I → Loaded L N d I s s' → 1028 + npages I.sz ≤ N →
    Segment L N d next s (some I.sz) s'
  | bad {s' : Phys} : next = none ∨ s.denied < s'.denied → Trade N 0 (owned s'.page d) s s' →
    Segment L N d next s none s'

/-- Why a segment is not loaded. -/
theorem Image.add_eq_none (hload : ph.type = ELF_PROG_LOAD)
    (h : ¬ (ph.filesz ≤ ph.memsz ∧ ph.vaddr + ph.memsz < KERNBASE ∧
      0 < max I.sz (ph.vaddr + ph.memsz) ∧ ph.vaddr % PGSIZE = 0)) : I.add file ph = none := by
  rw [Image.add, if_neg fun hc => hc hload, if_neg h]

/-- There is room for the segment, and its bytes are loaded. -/
theorem Loaded.wp_loaduvm (hs : Sound L 0 s) (hload : ph.type = ELF_PROG_LOAD)
    (hfile : ph.filesz ≤ ph.memsz) (hlt : ph.vaddr + ph.memsz < KERNBASE) (hoff : ph.off < 2 ^ 32)
    (halign : ph.vaddr % PGSIZE = 0) (hpos : 0 < max I.sz (ph.vaddr + ph.memsz))
    (hN : 1028 + npages (max I.sz (ph.vaddr + ph.memsz)) ≤ N)
    (h : Loaded L N d ⟨max I.sz (ph.vaddr + ph.memsz), I.byte⟩ s s₁) :
    wp (loaduvm d ph.vaddr file ph.off ph.filesz) (fun r s' =>
      (r < 0 → Segment L N d (I.add file ph) s none s') ∧
      (¬ r < 0 → Segment L N d (I.add file ph) s (some (max I.sz (ph.vaddr + ph.memsz))) s'))
      E s₁ := by
  have hnext : I.add file ph = (segmentBytes file ph.off ph.filesz).map fun bs =>
      ⟨max I.sz (ph.vaddr + ph.memsz), splice I.byte ph.vaddr bs⟩ := by
    rw [Image.add, if_neg fun hc => hc hload, if_pos ⟨hfile, hlt, hpos, halign⟩]
  refine wp_conseq (Vm.wp_loaduvm (N := N) halign (by omega) hoff (hs.trade h.trade) ?_) ?_
  · intro v hv
    have hin : v < npages (max I.sz (ph.vaddr + ph.memsz)) := by
      rw [← page_lt]
      exact lt_of_lt_of_le hv ((Nat.add_le_add_left hfile _).trans (Nat.le_max_right ..))
    rw [h.flags v, if_pos hin]
    rfl
  · rintro _ s₂ (⟨hbytes, hfill⟩ | ⟨hbytes, hfill⟩)
    · rw [hnext, hbytes]
      exact ⟨fun hc => absurd hc (lt_irrefl _), fun _ => .ok rfl (h.fill hfill) hN⟩
    · rw [hnext, hbytes]
      exact ⟨fun _ => .bad (.inl rfl) (h.trade.trans hfill.trade), fun hc => absurd (by decide) hc⟩

theorem wp_execSegment (hs : Sound L 0 s) (h : Loaded L N d I s s₁) (hI : 1028 + npages I.sz ≤ N)
    (hN : ∀ ph, phdr file off = some ph → ph.type = ELF_PROG_LOAD →
      ph.vaddr + ph.memsz < KERNBASE → 1028 + npages (ph.vaddr + ph.memsz) ≤ N) :
    wp (execSegment L d file off I.sz) (Segment L N d ((phdr file off).bind (I.add file)) s) E s₁ := by
  rw [execSegment]
  cases hread : readExactly file off 32 with
  | none => exact .bad (.inl (by rw [phdr, hread]; rfl)) h.trade
  | some bytes =>
    have hph : phdr file off = some (Proghdr.ofBytes bytes) := by rw [phdr, hread]; rfl
    obtain ⟨hoff, hvaddr, hmemsz⟩ := phdr_lt hph
    have hN := hN _ hph
    rw [hph, Option.bind_some]
    dsimp only
    generalize Proghdr.ofBytes bytes = ph at hN hoff hvaddr hmemsz ⊢
    simp only [wp_ite, wp_bind, wp_pure]
    refine ⟨fun hskip => .ok (if_pos hskip) h hI, fun hload => ?_⟩
    rw [not_not] at hload
    have hadd : ¬ (ph.filesz ≤ ph.memsz ∧ ph.vaddr + ph.memsz < KERNBASE ∧
        0 < max I.sz (ph.vaddr + ph.memsz) ∧ ph.vaddr % PGSIZE = 0) → I.add file ph = none :=
      Image.add_eq_none hload
    refine ⟨fun hbig => .bad (.inl (hadd (by omega))) h.trade, fun hfile => ?_⟩
    refine ⟨fun hwrap => ?_, fun hnowrap => ?_⟩
    · refine .bad (.inl (hadd fun hc => ?_)) h.trade
      have hlt : ph.vaddr + ph.memsz < 2 ^ 32 := lt_trans hc.2.1 (by decide)
      rw [add32, Nat.mod_eq_of_lt hlt] at hwrap
      omega
    have hend : add32 ph.vaddr ph.memsz = ph.vaddr + ph.memsz := by
      rw [add32] at hnowrap ⊢
      omega
    rw [hend]
    by_cases hbig : KERNBASE ≤ ph.vaddr + ph.memsz
    · rw [allocuvm, if_pos hbig, wp_pure]
      exact ⟨fun _ => .bad (.inl (hadd (by omega))) h.trade, fun hne => absurd rfl hne⟩
    have hlt := not_le.mp hbig
    have hroom := hN hload hlt
    have hs₁ := hs.trade h.trade
    refine wp_conseq (wp_allocuvm (N := N) hs₁ h.below (by omega)) ?_
    rintro _ s₂ (hbig' | ⟨hless, -⟩ | ⟨hle, -, htrade₂, hspace₂⟩ | ⟨-, -, htrade₂, -, -, hden₂⟩)
    · exact absurd hbig' hbig
    · -- the segment lies inside the image
      have hmax : max I.sz (ph.vaddr + ph.memsz) = I.sz := Nat.max_eq_left hless.le
      refine ⟨fun hzero => absurd hzero (by omega), fun _ => ?_⟩
      refine ⟨fun hmis => .bad (.inl (hadd fun hc => hmis hc.2.2.2)) h.trade, fun halign => ?_⟩
      rw [not_not] at halign
      have hroomy : Loaded L N d ⟨max I.sz (ph.vaddr + ph.memsz), I.byte⟩ s s₁ := by
        rw [hmax]
        exact h
      have hwp : wp (loaduvm d ph.vaddr file ph.off ph.filesz) _ E s₁ :=
        hroomy.wp_loaduvm hs hload (not_lt.mp hfile) hlt hoff halign (by omega) (hmax.symm ▸ hI)
      rwa [hmax] at hwp
    · have hmax : max I.sz (ph.vaddr + ph.memsz) = ph.vaddr + ph.memsz := Nat.max_eq_right hle
      have h₂ := h.grow hle hlt htrade₂ hspace₂
      refine ⟨fun hzero => .bad (.inl (hadd (by omega))) h₂.trade, fun hpos => ?_⟩
      refine ⟨fun hmis => .bad (.inl (hadd fun hc => hmis hc.2.2.2)) h₂.trade, fun halign => ?_⟩
      rw [not_not] at halign
      have hroomy : Loaded L N d ⟨max I.sz (ph.vaddr + ph.memsz), I.byte⟩ s s₂ := by
        rw [hmax]
        exact h₂
      have hwp : wp (loaduvm d ph.vaddr file ph.off ph.filesz) _ E s₂ :=
        hroomy.wp_loaduvm hs hload (not_lt.mp hfile) hlt hoff halign (by omega) (hmax.symm ▸ hroom)
      rwa [hmax] at hwp
    · refine ⟨fun _ => .bad (.inr ?_) (h.trade.trans htrade₂), fun hne => absurd rfl hne⟩
      exact lt_of_le_of_lt h.trade.denied hden₂

/-- All program headers. -/
theorem wp_execSegments (hs : Sound L 0 s) : ∀ {n off : Nat} {I : Image} {s₁ : Phys},
    Loaded L N d I s s₁ → 1028 + npages I.sz ≤ N → (∀ ph, some ph ∈ phdrs file n off → ph.type = ELF_PROG_LOAD →
      ph.vaddr + ph.memsz < KERNBASE → 1028 + npages (ph.vaddr + ph.memsz) ≤ N) →
    wp (execSegments L d file n off I.sz)
      (Segment L N d (Image.load file (phdrs file n off) I) s) E s₁ := by
  intro n
  induction n with
  | zero => exact fun h hI _ => .ok rfl h hI
  | succ n ih =>
    intro off I s₁ h hI hN
    rw [execSegments, phdrs, Image.load, wp_bind]
    refine wp_conseq (wp_execSegment hs h hI fun ph hph => hN ph (by
      rw [phdrs, hph]
      exact List.mem_cons_self)) ?_
    rintro _ s₂ (⟨hnext, h₂, hI₂⟩ | ⟨hwhy, htrade⟩)
    · rw [hnext, Option.bind_some]
      exact ih h₂ hI₂ fun ph hmem => hN ph (List.mem_cons_of_mem _ hmem)
    · refine .bad ?_ htrade
      rcases hwhy with hnone | hden
      · rw [hnone]
        exact .inl rfl
      · exact .inr hden

end

/-! ## 4. The stack -/

/-- The flags of the page that is kept from the user. -/
abbrev PTE_PW : Nat := 3

/-- The address space `d` has the bytes `b`, and ends with the page `K` that is kept from the user
and the stack page. -/
structure Ready (L : Layout) (N d K : Nat) (b : Bytes) (s s' : Phys) : Prop where
  trade : Trade N 0 (owned s'.page d) s s'
  lt : (K + 2) * PGSIZE < KERNBASE
  flags : ∀ v, (space s'.page d).flags v =
    if v = K then some PTE_PW else if v < K + 2 then some PTE_PWU else none
  byte : (space s'.page d).byte = b
  kern : (space s'.page d).kern = (kernSpace L).kern
  ktab : (space s'.page d).ktab = (kernSpace L).ktab

section

variable {L : Layout} {N d K : Nat} {I : Image} {b : Bytes} {s s₁ s₂ : Phys} {E : Fault → Prop}

theorem npages_mul (n : Nat) : npages (n * PGSIZE) = n := by
  simp only [npages, PGSIZE]
  omega

/-- A page is mapped in another way, with the same contents. -/
theorem byte_setUser {S : Space} {v f f' : Nat} (h : S.user v = some (f, b)) :
    (S.setUser v (some (f', b))).byte = S.byte := by
  funext a
  rw [Space.byte, Space.byte, Space.setUser]
  dsimp only
  by_cases ha : a / PGSIZE = v
  · rw [ha, Function.update_self, h]
  · rw [Function.update_of_ne ha]

theorem Ready.fill {va : Nat} {bs : List UInt8} (h : Ready L N d K b s s₁)
    (hfill : Fills N d va bs s₁ s₂) : Ready L N d K (splice b va bs) s s₂ where
  trade := h.trade.trans hfill.trade
  lt := h.lt
  flags v := by rw [hfill.wrote.flags, h.flags]
  byte := by rw [hfill.wrote.byte, h.byte]
  kern := hfill.wrote.kern.trans h.kern
  ktab := hfill.wrote.ktab.trans h.ktab

/-- What the code for the stack pages does. -/
inductive Stack (L : Layout) (N d : Nat) (I : Image) (s : Phys) : Option Nat → Phys → Prop
  | ok {s' : Phys} : Ready L N d (npages I.sz) I.byte s s' →
    Stack L N d I s (some ((npages I.sz + 2) * PGSIZE)) s'
  | bad {s' : Phys} : KERNBASE ≤ (npages I.sz + 2) * PGSIZE ∨ s.denied < s'.denied →
    Trade N 0 (owned s'.page d) s s' → Stack L N d I s none s'

theorem wp_execStack (hs : Sound L 0 s) (h : Loaded L N d I s s₁)
    (hroom : 1028 + npages I.sz ≤ N) :
    wp (execStack L d I.sz) (Stack L N d I s) E s₁ := by
  have hup : pgRoundUp I.sz = npages I.sz * PGSIZE := pgRoundUp_eq h.lt.le
  have hlast : npages I.sz ≤ UPAGES := npages_le h.lt.le
  have htop : add32 (npages I.sz * PGSIZE) (2 * PGSIZE) = (npages I.sz + 2) * PGSIZE := by
    simp only [add32, PGSIZE, UPAGES] at *
    omega
  have hsub : sub32 ((npages I.sz + 2) * PGSIZE) (2 * PGSIZE) = npages I.sz * PGSIZE := by
    simp only [sub32, PGSIZE, UPAGES] at *
    omega
  have hbelow := h.below
  have hold : I.sz ≤ (npages I.sz + 2) * PGSIZE := by
    simp only [npages, PGSIZE]
    omega
  rw [execStack, hup, htop]
  generalize hK : npages I.sz = K at *
  have hnew : npages ((K + 2) * PGSIZE) = K + 2 := npages_mul _
  have hs₁ := hs.trade h.trade
  simp only [wp_bind]
  rw [← npages_mul K] at hbelow
  refine wp_conseq (wp_allocuvm (N := N) hs₁ hbelow (by omega)) ?_
  rintro _ s₂ (hbig | ⟨hless, -⟩ | ⟨hle, hlt, htrade₂, hspace₂⟩ | ⟨-, -, htrade₂, -, -, hden₂⟩)
  · rw [if_pos rfl]
    exact .bad (.inl (hK.symm ▸ hbig)) h.trade
  · exact absurd (Nat.mul_lt_mul_right (by decide) |>.mp hless) (by omega)
  · -- both pages are there, and the lower one is taken from the user
    have h₂ := h.grow hold hlt htrade₂ (by rw [hspace₂, npages_mul, hK])
    have hs₂ := hs.trade h₂.trade
    have hflag : (space s₂.page d).flags K = some PTE_PWU := by
      rw [h₂.flags]
      dsimp only
      rw [hnew, if_pos (by omega)]
    obtain ⟨g, hf, hbits⟩ := flags_eq_some hflag
    rw [if_neg (Nat.mul_ne_zero (by omega) (by decide)), hsub]
    simp only [wp_bind, wp_pure]
    refine wp_conseq (wp_clearpteu (N := N) hs₂ hf) ?_
    rintro _ s₃ ⟨htrade₃, -, hspace₃⟩
    rw [hbits] at hspace₃
    have huser := user_of_frame hf
    rw [hbits] at huser
    rw [← hK]
    refine .ok ⟨h₂.trade.trans htrade₃, hK.symm ▸ hlt, fun v => ?_, ?_, ?_, ?_⟩
    · rw [hspace₃, flags_setUser, hK]
      by_cases hv : v = K
      · rw [hv, Function.update_self, if_pos rfl]
        rfl
      · rw [Function.update_of_ne hv, if_neg hv, h₂.flags]
        dsimp only
        rw [hnew]
    · rw [hspace₃, byte_setUser huser, h₂.byte]
    · rw [hspace₃]
      exact h₂.kern
    · rw [hspace₃]
      exact h₂.ktab
  · rw [if_pos rfl]
    refine .bad (.inr ?_) (h.trade.trans htrade₂)
    exact lt_of_le_of_lt h.trade.denied hden₂

end

/-! ## 5. The arguments -/

/-- The strings on the stack, and where they are. -/
def pushBytes (b : Bytes) : Nat → List (List UInt8) → Bytes
  | _, [] => b
  | sp, arg :: args => pushBytes (splice b (pushArg sp arg) (arg ++ [0])) (pushArg sp arg) args

def argPtrs : Nat → List (List UInt8) → List Nat
  | _, [] => []
  | sp, arg :: args => pushArg sp arg :: argPtrs (pushArg sp arg) args

/-- Where the first string is to go that does not go to the page `t`. -/
def spill (t : Nat) : Nat → List (List UInt8) → Option Nat
  | _, [] => none
  | sp, arg :: args =>
    if pushArg sp arg / PGSIZE = t then spill t (pushArg sp arg) args else some (pushArg sp arg)

/-- The addresses between the memory that the kernel maps and the devices. -/
def InHole (va : Nat) : Prop := KERNBASE + PHYSTOP ≤ va ∧ va < DEVSPACE

instance (va : Nat) : Decidable (InHole va) := inferInstanceAs (Decidable (_ ∧ _))

section

variable {L : Layout} {N d K sp : Nat} {b : Bytes} {arg : List UInt8} {args : List (List UInt8)}
  {s s₁ s₂ : Phys} {E : Fault → Prop}

/-- Nothing of the kernel is open to the user. -/
theorem kern_not_user (ks : List Kmap) (hks : ∀ k ∈ ks, hasFlag k.perm PTE_U = false)
    {S : Space} (hS : ∀ u, hasFlag (S.kern u) PTE_U = false) (u : Nat) :
    hasFlag ((ks.foldl Space.mapKmap S).kern u) PTE_U = false := by
  induction ks generalizing S with
  | nil => exact hS u
  | cons k ks ih =>
    refine ih (fun l hl => hks l (List.mem_cons_of_mem _ hl)) fun w => ?_
    rw [Space.mapKmap, Space.mapKern]
    dsimp only
    split
    · have hk := hks k List.mem_cons_self
      rw [hasFlag_user] at hk ⊢
      rw [Nat.testBit_or, Nat.testBit_or, hk]
      have haddr : ((k.ppage + (w - k.vpage)) * PGSIZE).testBit 2 = false := by
        rw [show PGSIZE = 2 ^ 12 from rfl, Nat.testBit_mul_two_pow, decide_eq_false (by decide),
          Bool.false_and]
      rw [haddr]
      decide
    · exact hS w

theorem kernSpace_not_user (u : Nat) : hasFlag ((kernSpace L).kern u) PTE_U = false := by
  refine kern_not_user _ (fun k hk => ?_) (fun _ => hasFlag_zero _) u
  simp only [kmap, List.mem_cons, List.not_mem_nil, or_false] at hk
  rcases hk with rfl | rfl | rfl | rfl
  · decide
  · exact hasFlag_zero _
  · exact (by decide : hasFlag PTE_W PTE_U = false)
  · decide

theorem mapKmap_ktab (ks : List Kmap) (S : Space) (x : Nat) :
    (ks.foldl Space.mapKmap S).ktab x = true ↔ S.ktab x = true ∨
      ∃ e ∈ ks.map fun k => (k.vpage, k.pages),
        e.1 / NPTENTRIES ≤ x ∧ x ≤ (e.1 + e.2 - 1) / NPTENTRIES := by
  induction ks generalizing S with
  | nil => simp only [List.foldl_nil, List.map_nil, List.not_mem_nil, false_and, exists_false, or_false]
  | cons k ks ih =>
    rw [List.foldl_cons, ih, List.map_cons, List.exists_mem_cons_iff, ← or_assoc]
    simp only [Space.mapKmap, Space.mapKern, Bool.or_eq_true, decide_eq_true_eq]

/-- There are tables for the memory and for the devices. -/
theorem kernSpace_ktab (h : L.data < PHYSTOP / PGSIZE) (x : Nat) :
    (kernSpace L).ktab x = true ↔ (512 ≤ x ∧ x < 568) ∨ (1016 ≤ x ∧ x < 1024) := by
  have htext := L.text
  rw [kernSpace, mapKmap_ktab, (kmap_ok h).2.2]
  simp only [List.mem_cons, List.not_mem_nil, or_false, exists_eq_or_imp, exists_eq_left,
    Space.empty, Bool.false_eq_true, false_or, UPAGES, NPTENTRIES]
  simp only [EXTMEM, PHYSTOP, PGSIZE] at h htext
  omega

/-- A string goes to the stack page; or to a page below it, and then it reaches the page that is kept
from the user; or to the kernel's half. -/
theorem pushArg_cases (hlt : (K + 2) * PGSIZE < KERNBASE) (hge : (K + 1) * PGSIZE ≤ sp)
    (hle : sp ≤ (K + 2) * PGSIZE) (harg : arg.length < KERNBASE) :
    (pushArg sp arg / PGSIZE = K + 1 ∧ (K + 1) * PGSIZE ≤ pushArg sp arg ∧
      pushArg sp arg + (arg.length + 1) ≤ sp) ∨
    (pushArg sp arg / PGSIZE ≤ K ∧ K * PGSIZE < pushArg sp arg + (arg.length + 1)) ∨
    (KERNBASE ≤ pushArg sp arg ∧ pushArg sp arg < 2 ^ 32) := by
  simp only [pushArg, sub32, PGSIZE, KERNBASE] at *
  omega

theorem Sound.data_lt {A : Multiset Nat} {g : Nat} (h : Sound L A s) (hg : g ∈ A) :
    L.data < PHYSTOP / PGSIZE := by
  have hpool := h.pool_left hg
  exact lt_of_le_of_lt L.data_le (lt_of_le_of_lt hpool.1 hpool.2)

/-- What a `copyout` to the new stack does. -/
structure Pushed (L : Layout) (N d K : Nat) (b : Bytes) (va : Nat) (buf : List UInt8) (s : Phys)
    (r : Int) (s' : Phys) : Prop where
  ok : va / PGSIZE = K + 1 → r = 0 ∧ Ready L N d K (splice b va buf) s s'
  bad : va / PGSIZE ≠ K + 1 → r = -1 ∧ ¬ InHole va ∧ Trade N 0 (owned s'.page d) s s'

/-- To the stack page. -/
theorem Ready.wp_copyout_stack {va : Nat} {buf : List UInt8} (hs : Sound L 0 s)
    (h : Ready L N d K b s s₁) (hva : va / PGSIZE = K + 1)
    (hend : va + buf.length ≤ (K + 2) * PGSIZE) :
    wp (copyout d va buf) (Pushed L N d K b va buf s) E s₁ := by
  have hs₁ := hs.trade h.trade
  have hlast := h.lt
  have hK : K + 2 < VPAGES := by
    simp only [PGSIZE, KERNBASE, VPAGES] at *
    omega
  have hwp : wp (copyout d va buf) (CopyOut N d (K + 2) va buf s₁) E s₁ := by
    refine wp_copyout hK (by omega) hs₁ (fun v hv hvK => ?_) fun hover => absurd hend (by omega)
    obtain rfl : v = K + 1 := by omega
    refine ⟨PTE_PWU, ?_, by decide⟩
    rw [h.flags, if_neg (by omega), if_pos (by omega)]
  refine wp_conseq hwp ?_
  rintro _ s₂ (⟨-, hfill⟩ | ⟨hover, -⟩)
  · exact ⟨fun _ => ⟨rfl, h.fill hfill⟩, fun hne => absurd hva hne⟩
  · exact absurd hend (not_le.mpr hover)

/-- To a page below it. -/
theorem Ready.wp_copyout_below {va : Nat} {buf : List UInt8} (hs : Sound L 0 s)
    (h : Ready L N d K b s s₁) (hva : va / PGSIZE ≤ K) (hpos : buf ≠ [])
    (hover : K * PGSIZE < va + buf.length) :
    wp (copyout d va buf) (Pushed L N d K b va buf s) E s₁ := by
  have hs₁ := hs.trade h.trade
  have hlast := h.lt
  have hK : K < VPAGES := by
    simp only [PGSIZE, KERNBASE, VPAGES] at *
    omega
  have hwp : wp (copyout d va buf) (CopyOut N d K va buf s₁) E s₁ := by
    refine wp_copyout hK hva hs₁ (fun v hv hvK => ?_) fun _ => .inl ⟨PTE_PW, ?_, by decide⟩
    · refine ⟨PTE_PWU, ?_, by decide⟩
      rw [h.flags, if_neg (by omega), if_pos (by omega)]
    · rw [h.flags, if_pos rfl]
  have hlow : ¬ InHole va := by
    rintro ⟨hge, -⟩
    simp only [PGSIZE, KERNBASE, PHYSTOP] at *
    omega
  refine wp_conseq hwp ?_
  rintro _ s₂ (⟨hin, -⟩ | ⟨-, hfill⟩)
  · rcases hin with hnil | hin
    · exact absurd hnil hpos
    · exact absurd hover (not_lt.mpr hin)
  · exact ⟨fun hstack => absurd hstack (by omega),
      fun _ => ⟨rfl, hlow, h.trade.trans hfill.trade⟩⟩

/-- To the kernel's half. -/
theorem Ready.wp_copyout_kern {va : Nat} {buf : List UInt8} (hs : Sound L 0 s)
    (h : Ready L N d K b s s₁) (hge : KERNBASE ≤ va) (hva : va < 2 ^ 32) (hpos : buf ≠ []) :
    wp (copyout d va buf) (Pushed L N d K b va buf s) (fun e => e = .nullPte ∧ InHole va) s₁ := by
  have hs₁ := hs.trade h.trade
  have hdata : L.data < PHYSTOP / PGSIZE := hs₁.data_lt mem_owned_dir
  have hlen : 0 < buf.length := List.length_pos_iff.mpr hpos
  have hlast := h.lt
  have hne : va / PGSIZE ≠ K + 1 := by
    simp only [PGSIZE, KERNBASE] at *
    omega
  have hv : UPAGES ≤ va / PGSIZE ∧ va / PGSIZE < VPAGES := by
    simp only [PGSIZE, KERNBASE, UPAGES, VPAGES] at *
    omega
  have hktab := kernSpace_ktab hdata (va / PGSIZE / NPTENTRIES)
  rw [← h.ktab] at hktab
  cases htab : (space s₁.page d).ktab (va / PGSIZE / NPTENTRIES) with
  | true =>
    rw [htab] at hktab
    have hout : ¬ InHole va := by
      have := hktab.mp rfl
      rintro ⟨h₁, h₂⟩
      simp only [PGSIZE, NPTENTRIES, KERNBASE, PHYSTOP, DEVSPACE] at *
      omega
    have hwp : wp (copyout d va buf) (CopyOut N d (va / PGSIZE) va buf s₁)
        (fun e => e = .nullPte ∧ InHole va) s₁ := by
      refine wp_copyout hv.2 le_rfl hs₁ (fun v hv hvK => absurd hv (not_le.mpr hvK)) fun _ => .inr ?_
      refine ⟨hv.1, hv.2, htab, ?_⟩
      rw [h.kern]
      exact kernSpace_not_user _
    refine wp_conseq hwp ?_
    rintro _ s₂ (⟨hin, -⟩ | ⟨-, hfill⟩)
    · have hdown := Nat.div_mul_le_self va PGSIZE
      rcases hin with hnil | hin
      · exact absurd hnil hpos
      · omega
    · exact ⟨fun hstack => absurd hstack hne, fun _ => ⟨rfl, hout, h.trade.trans hfill.trade⟩⟩
  | false =>
    rw [htab] at hktab
    rw [wp_copyout_missing hlen ⟨hv.1, hv.2, htab⟩]
    refine ⟨rfl, ?_⟩
    have := hktab.not.mp Bool.false_ne_true
    rw [InHole]
    simp only [PGSIZE, NPTENTRIES, KERNBASE, PHYSTOP, DEVSPACE] at *
    omega

/-- One string. -/
theorem Ready.wp_pushArg (hs : Sound L 0 s) (h : Ready L N d K b s s₁) (hge : (K + 1) * PGSIZE ≤ sp)
    (hle : sp ≤ (K + 2) * PGSIZE) (harg : arg.length < KERNBASE) :
    wp (copyout d (pushArg sp arg) (arg ++ [0])) (Pushed L N d K b (pushArg sp arg) (arg ++ [0]) s)
      (fun e => e = .nullPte ∧ pushArg sp arg / PGSIZE ≠ K + 1 ∧ InHole (pushArg sp arg)) s₁ := by
  have hlen : (arg ++ [0]).length = arg.length + 1 := List.length_append
  have hpos : arg ++ [0] ≠ [] := List.append_ne_nil_of_right_ne_nil _ (List.cons_ne_nil _ _)
  rcases pushArg_cases h.lt hge hle harg with ⟨hpage, -, hend⟩ | ⟨hpage, hover⟩ | ⟨hkern, hlt⟩
  · exact h.wp_copyout_stack hs hpage (by omega)
  · exact h.wp_copyout_below hs hpage hpos (by omega)
  · refine wp_mono (h.wp_copyout_kern hs hkern hlt hpos) (fun _ _ hr => hr) ?_
    rintro _ ⟨rfl, hhole⟩
    refine ⟨rfl, fun hpage => ?_, hhole⟩
    have hlast := h.lt
    simp only [PGSIZE, KERNBASE] at *
    omega

/-- What the loop over the arguments does. -/
inductive Args (L : Layout) (N d K : Nat) (b : Bytes) (args : List (List UInt8)) (sp : Nat)
    (ptrs : List Nat) (s : Phys) : Option (Nat × List Nat) → Phys → Prop
  | ok {s' : Phys} : spill (K + 1) sp args = none → ptrs.length + args.length ≤ MAXARG →
    Ready L N d K (pushBytes b sp args) s s' →
    Args L N d K b args sp ptrs s (some (args.foldl pushArg sp, ptrs ++ argPtrs sp args)) s'
  | bad {s' : Phys} : (MAXARG < ptrs.length + args.length ∨
      ∃ va, spill (K + 1) sp args = some va ∧ ¬ InHole va) → Trade N 0 (owned s'.page d) s s' →
    Args L N d K b args sp ptrs s none s'

theorem wp_execArgs (hs : Sound L 0 s) : ∀ {args : List (List UInt8)} {sp : Nat} {ptrs : List Nat}
    {b : Bytes} {s₁ : Phys}, Ready L N d K b s s₁ → (K + 1) * PGSIZE ≤ sp → sp ≤ (K + 2) * PGSIZE →
    (∀ arg ∈ args, arg.length < KERNBASE) → ptrs.length ≤ MAXARG →
    wp (execArgs d args sp ptrs) (Args L N d K b args sp ptrs s)
      (fun e => e = .nullPte ∧ ∃ va, spill (K + 1) sp args = some va ∧ InHole va) s₁ := by
  intro args
  induction args with
  | nil =>
    intro sp ptrs b s₁ h _ _ _ hmax
    have hdone : Args L N d K b [] sp ptrs s (some (sp, ptrs ++ [])) s₁ := .ok rfl hmax h
    rwa [List.append_nil] at hdone
  | cons arg args ih =>
    intro sp ptrs b s₁ h hge hle hargs hmax
    have harg := hargs arg List.mem_cons_self
    have hcount : ptrs.length + (arg :: args).length = ptrs.length + 1 + args.length := by
      rw [List.length_cons]
      omega
    simp only [execArgs, wp_ite, wp_bind, wp_pure]
    refine ⟨fun hmany => .bad (.inl (by omega)) h.trade, fun hroom => ?_⟩
    refine wp_mono (h.wp_pushArg hs hge hle harg) ?_ ?_
    · intro r s₂ hr
      by_cases hpage : pushArg sp arg / PGSIZE = K + 1
      · -- the string is on the stack
        obtain ⟨rfl, h₂⟩ := hr.ok hpage
        refine ⟨fun hneg => absurd hneg (lt_irrefl _), fun _ => ?_⟩
        have hdown := Nat.div_add_mod' (pushArg sp arg) PGSIZE
        have hmod : pushArg sp arg % PGSIZE < PGSIZE := Nat.mod_lt _ (by decide)
        rw [hpage] at hdown
        have hlast : (K + 2) * PGSIZE = (K + 1) * PGSIZE + PGSIZE := Nat.succ_mul ..
        have hspill : spill (K + 1) sp (arg :: args) = spill (K + 1) (pushArg sp arg) args :=
          if_pos hpage
        have hptrs : (ptrs ++ [pushArg sp arg]).length = ptrs.length + 1 := List.length_append
        refine wp_mono (ih h₂ (by omega) (by omega) (fun a ha => hargs a (List.mem_cons_of_mem _ ha))
          (by omega)) ?_ ?_
        · rintro _ s₃ (⟨hnone, hcnt, h₃⟩ | ⟨hwhy, htrade⟩)
          · have hdone : Args L N d K b (arg :: args) sp ptrs s (some (args.foldl pushArg
                (pushArg sp arg), ptrs ++ pushArg sp arg :: argPtrs (pushArg sp arg) args)) s₃ :=
              .ok (hspill.trans hnone) (by omega) h₃
            rwa [List.append_assoc, List.singleton_append]
          · refine .bad ?_ htrade
            rw [hspill]
            exact hwhy.imp_left fun hmany => by omega
        · rintro _ ⟨rfl, hva⟩
          rw [hspill]
          exact ⟨rfl, hva⟩
      · obtain ⟨rfl, hout, htrade⟩ := hr.bad hpage
        refine ⟨fun _ => .bad (.inr ⟨pushArg sp arg, if_neg hpage, hout⟩) htrade,
          fun hc => absurd (by decide) hc⟩
    · rintro _ ⟨rfl, hpage, hhole⟩
      exact ⟨rfl, pushArg sp arg, if_neg hpage, hhole⟩

theorem wordBytes_length (ws : List Nat) : (ws.flatMap wordBytes).length = 4 * ws.length := by
  induction ws with
  | nil => rfl
  | cons w ws ih =>
    rw [List.flatMap_cons, List.length_append, ih, List.length_cons]
    simp only [wordBytes, List.length_cons, List.length_nil]
    omega

theorem frame_page {n : Nat} (hfit : (K + 1) * PGSIZE + n ≤ sp) (hle : sp ≤ (K + 2) * PGSIZE)
    (hn : 0 < n) : (sp - n) / PGSIZE = K + 1 ∧ sp - n + n ≤ (K + 2) * PGSIZE := by
  simp only [PGSIZE] at *
  omega

theorem frame_below {n : Nat} (hge : (K + 1) * PGSIZE ≤ sp) (hn : n < PGSIZE)
    (hfit : sp < (K + 1) * PGSIZE + n) :
    (sp - n) / PGSIZE ≤ K ∧ K * PGSIZE < sp - n + n := by
  simp only [PGSIZE] at *
  omega

/-- What the last `copyout` does. -/
inductive Frame (L : Layout) (N d K : Nat) (b : Bytes) (sp : Nat) (ptrs : List Nat) (s : Phys) :
    Option Nat → Phys → Prop
  | ok {s' : Phys} : (K + 1) * PGSIZE + (ptrs.length + 4) * 4 ≤ sp →
    Ready L N d K (splice b (sp - (ptrs.length + 4) * 4) ((ustack sp ptrs).flatMap wordBytes)) s s' →
    Frame L N d K b sp ptrs s (some (sp - (ptrs.length + 4) * 4)) s'
  | bad {s' : Phys} : sp < (K + 1) * PGSIZE + (ptrs.length + 4) * 4 →
    Trade N 0 (owned s'.page d) s s' → Frame L N d K b sp ptrs s none s'

theorem wp_execFrame {ptrs : List Nat} (hs : Sound L 0 s) (h : Ready L N d K b s s₁)
    (hge : (K + 1) * PGSIZE ≤ sp) (hle : sp ≤ (K + 2) * PGSIZE) (hmax : ptrs.length ≤ MAXARG) :
    wp (execFrame d sp ptrs) (Frame L N d K b sp ptrs s) E s₁ := by
  have hlast := h.lt
  have hsp : sub32 sp ((3 + ptrs.length + 1) * 4) = sp - (ptrs.length + 4) * 4 := by
    simp only [sub32, PGSIZE, KERNBASE, MAXARG] at *
    omega
  have hlen : ((ustack sp ptrs).flatMap wordBytes).length = (ptrs.length + 4) * 4 := by
    rw [wordBytes_length, ustack]
    simp only [List.length_append, List.length_cons, List.length_nil]
    omega
  have hpos : (ustack sp ptrs).flatMap wordBytes ≠ [] := by
    rw [← List.length_pos_iff, hlen]
    omega
  have hsmall : (ptrs.length + 4) * 4 < PGSIZE := by
    simp only [PGSIZE, MAXARG] at *
    omega
  have hn : 0 < (ptrs.length + 4) * 4 := by omega
  simp only [execFrame, hsp, wp_bind, wp_ite, wp_pure]
  by_cases hfit : (K + 1) * PGSIZE + (ptrs.length + 4) * 4 ≤ sp
  · obtain ⟨hpage, hend⟩ := frame_page hfit hle hn
    refine wp_conseq (h.wp_copyout_stack hs hpage (by rwa [hlen])) fun r s₂ hr => ?_
    obtain ⟨rfl, h₂⟩ := hr.ok hpage
    exact ⟨fun hneg => absurd hneg (lt_irrefl _), fun _ => .ok hfit h₂⟩
  · rw [not_le] at hfit
    obtain ⟨hpage, hover⟩ := frame_below hge hsmall hfit
    refine wp_conseq (h.wp_copyout_below hs hpage hpos (by rwa [hlen])) fun r s₂ hr => ?_
    obtain ⟨rfl, -, htrade⟩ := hr.bad (Nat.ne_of_lt (Nat.lt_succ_of_le hpage))
    exact ⟨fun _ => .bad hfit htrade, fun hc => absurd (by decide) hc⟩

theorem argPtrs_length : ∀ (args : List (List UInt8)) (sp : Nat),
    (argPtrs sp args).length = args.length
  | [], _ => rfl
  | arg :: args, sp => by rw [argPtrs, List.length_cons, argPtrs_length, List.length_cons]

/-- Strings that are not spilled are on the stack page. -/
theorem spill_none (h : spill (K + 1) sp args = none) (hge : (K + 1) * PGSIZE ≤ sp)
    (hle : sp ≤ (K + 2) * PGSIZE) :
    (K + 1) * PGSIZE ≤ args.foldl pushArg sp ∧ args.foldl pushArg sp ≤ (K + 2) * PGSIZE := by
  induction args generalizing sp with
  | nil => exact ⟨hge, hle⟩
  | cons arg args ih =>
    rw [spill] at h
    split at h
    next hpage =>
      have hdown := Nat.div_add_mod' (pushArg sp arg) PGSIZE
      have hmod : pushArg sp arg % PGSIZE < PGSIZE := Nat.mod_lt _ (by decide)
      have hlast : (K + 2) * PGSIZE = (K + 1) * PGSIZE + PGSIZE := Nat.succ_mul ..
      rw [hpage] at hdown
      exact ih h (by omega) (by omega)
    next => cases h

end

/-- The stack pointer below the strings, for a stack page behind the page `K`. -/
def argSp (K : Nat) (args : List (List UInt8)) : Nat := args.foldl pushArg ((K + 2) * PGSIZE)

/-- The stack pointer that the program starts with. -/
def startSp (K : Nat) (args : List (List UInt8)) : Nat := argSp K args - (args.length + 4) * 4

/-- The strings and the frame are written over the bytes `b`. -/
def stackBytes (K : Nat) (b : Bytes) (args : List (List UInt8)) : Bytes :=
  splice (pushBytes b ((K + 2) * PGSIZE) args) (startSp K args)
    ((ustack (argSp K args) (argPtrs ((K + 2) * PGSIZE) args)).flatMap wordBytes)

/-- The strings and the frame are on the stack page. -/
structure ArgsFit (K : Nat) (args : List (List UInt8)) : Prop where
  count : args.length ≤ MAXARG
  strings : spill (K + 1) ((K + 2) * PGSIZE) args = none
  frame : (K + 1) * PGSIZE + (args.length + 4) * 4 ≤ argSp K args

section

variable {L : Layout} {N d K : Nat} {b : Bytes} {args : List (List UInt8)} {s s₁ s₂ : Phys}
  {E : Fault → Prop}

/-- What the code for the arguments does. -/
inductive Push (L : Layout) (N d K : Nat) (b : Bytes) (args : List (List UInt8)) (s : Phys) :
    Option Nat → Phys → Prop
  | ok {s' : Phys} : ArgsFit K args → Ready L N d K (stackBytes K b args) s s' →
    Push L N d K b args s (some (startSp K args)) s'
  | bad {s' : Phys} : ¬ ArgsFit K args → (args.length ≤ MAXARG →
      ∀ va, spill (K + 1) ((K + 2) * PGSIZE) args = some va → ¬ InHole va) →
    Trade N 0 (owned s'.page d) s s' → Push L N d K b args s none s'

theorem wp_execPush (hs : Sound L 0 s) (h : Ready L N d K b s s₁)
    (hargs : ∀ arg ∈ args, arg.length < KERNBASE) :
    wp (execPush d ((K + 2) * PGSIZE) args) (Push L N d K b args s)
      (fun e => e = .nullPte ∧ ∃ va, spill (K + 1) ((K + 2) * PGSIZE) args = some va ∧ InHole va)
      s₁ := by
  have hle : (K + 1) * PGSIZE ≤ (K + 2) * PGSIZE := Nat.mul_le_mul_right _ (Nat.le_succ _)
  rw [execPush, wp_bind]
  refine wp_conseq (wp_execArgs hs h hle le_rfl hargs (Nat.zero_le _)) ?_
  rintro _ s₂ (⟨hnone, hcount, h₂⟩ | ⟨hwhy, htrade⟩)
  · obtain ⟨hge, hle'⟩ := spill_none hnone hle le_rfl
    have hlen := argPtrs_length args ((K + 2) * PGSIZE)
    rw [List.length_nil, Nat.zero_add] at hcount
    rw [List.nil_append]
    refine wp_conseq (wp_execFrame hs h₂ hge hle' (hlen.trans_le hcount)) ?_
    rintro _ s₃ (⟨hfit, h₃⟩ | ⟨hover, htrade⟩)
    · rw [hlen] at hfit h₃ ⊢
      exact .ok ⟨hcount, hnone, hfit⟩ h₃
    · rw [hlen] at hover
      refine .bad (fun hc => absurd hc.frame (not_le.mpr hover)) (fun _ va hva => ?_) htrade
      rw [hnone] at hva
      cases hva
  · rw [List.length_nil, Nat.zero_add] at hwhy
    refine .bad (fun hc => ?_) (fun hcount va hva => ?_) htrade
    · rcases hwhy with hmany | ⟨va, hva, -⟩
      · exact absurd hc.count (not_le.mpr hmany)
      · rw [hc.strings] at hva
        cases hva
    · rcases hwhy with hmany | ⟨va', hva', hout⟩
      · exact absurd hcount (not_le.mpr hmany)
      · rw [hva] at hva'
        cases hva'
        exact hout

end

end Xv6.Vm
