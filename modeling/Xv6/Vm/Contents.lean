/-
# The bytes of an address space

`S.byte a` is the byte that a user finds at the address `a`, and `S.flags v` says how the page `v` is
mapped.  The functions that fill an address space (`loaduvm`, `copyout`) change bytes and leave the
flags alone: `Fills N d va bs s s'` says that the bytes `bs` now stand at `va`.  Pages are gone here;
a run of bytes that crosses a page boundary is one `splice`.
-/
import Xv6.Vm.Fork

namespace Xv6.Vm

open Function (update update_eq_self update_of_ne update_self)

open Bytes

/-! ## 1. Flags and bytes -/

namespace Space

/-- The flags of the user page `v`. -/
def flags (S : Space) (v : Nat) : Option Nat := (S.user v).map Prod.fst

/-- The byte at the address `a`, and 0 where no page is. -/
def byte (S : Space) : Bytes := fun a =>
  match S.user (a / PGSIZE) with
  | some x => x.2 (a % PGSIZE)
  | none => 0

/-- The bytes `bs` have been written at `va`. -/
structure Wrote (va : Nat) (bs : List UInt8) (S T : Space) : Prop where
  flags : T.flags = S.flags
  byte : T.byte = splice S.byte va bs
  kern : T.kern = S.kern
  ktab : T.ktab = S.ktab

end Space

section

variable {S T U : Space} {va v off f : Nat} {b : Bytes} {bs cs : List UInt8}

theorem flags_isSome : (S.flags v).isSome = (S.user v).isSome := Option.isSome_map

theorem flags_setUser (e : Option (Nat × Bytes)) :
    (S.setUser v e).flags = update S.flags v (e.map Prod.fst) := by
  funext u
  by_cases hu : u = v
  · subst hu
    simp only [Space.flags, Space.setUser, update_self]
  · simp only [Space.flags, Space.setUser, update_of_ne hu]

namespace Space.Wrote

theorem refl (S : Space) (va : Nat) : Wrote va [] S S := ⟨rfl, (splice_nil ..).symm, rfl, rfl⟩

/-- One piece after the other. -/
theorem append (h : Wrote va bs S T) (h' : Wrote (va + bs.length) cs T U) :
    Wrote va (bs ++ cs) S U where
  flags := h'.flags.trans h.flags
  byte := by
    have htwo := splice_take_drop S.byte va bs.length (bs ++ cs) (by
      rw [List.length_append]
      exact Nat.le_add_right ..)
    rw [List.take_left, List.drop_left] at htwo
    rw [h'.byte, h.byte, htwo]
  kern := h'.kern.trans h.kern
  ktab := h'.ktab.trans h.ktab

/-- Bytes are written inside a page. -/
theorem of_page (h : S.user v = some (f, b)) (hle : off + bs.length ≤ PGSIZE) :
    Wrote (v * PGSIZE + off) bs S (S.setUser v (some (f, splice b off bs))) where
  flags := by
    have hold : S.flags v = some f := by rw [Space.flags, h, Option.map_some]
    rw [flags_setUser, Option.map_some, ← hold, update_eq_self]
  byte := by
    funext a
    have hdiv := Nat.div_add_mod a PGSIZE
    have hmod : a % PGSIZE < PGSIZE := Nat.mod_lt _ (by decide)
    by_cases ha : a / PGSIZE = v
    · -- the page that is written
      have hin : a = v * PGSIZE + a % PGSIZE := by rw [Nat.mul_comm, ← ha, hdiv]
      have hS : S.byte a = b (a % PGSIZE) := by simp only [Space.byte, ha, h]
      have hT : (S.setUser v (some (f, splice b off bs))).byte a =
          splice b off bs (a % PGSIZE) := by
        simp only [Space.byte, Space.setUser, ha, update_self]
      rw [hT, splice, splice, hS]
      by_cases hr : off ≤ a % PGSIZE ∧ a % PGSIZE < off + bs.length
      · rw [if_pos hr, if_pos (by omega)]
        congr 1
        omega
      · rw [if_neg hr, if_neg (by omega)]
    · have hT : (S.setUser v (some (f, splice b off bs))).byte a = S.byte a := by
        simp only [Space.byte, Space.setUser, update_of_ne ha]
      have hout : ¬ (v * PGSIZE + off ≤ a ∧ a < v * PGSIZE + off + bs.length) := by
        simp only [PGSIZE] at *
        omega
      rw [hT, splice, if_neg hout]
  kern := rfl
  ktab := rfl

end Space.Wrote

end

/-! ## 2. Filling an address space -/

/-- The bytes `bs` have been written at `va` in the address space `d`. -/
structure Fills (N d va : Nat) (bs : List UInt8) (s s' : Phys) : Prop where
  trade : Trade N (owned s.page d) (owned s'.page d) s s'
  wrote : Space.Wrote va bs (space s.page d) (space s'.page d)
  denied : s'.denied = s.denied

section

variable {L : Layout} {N d va v off g : Nat} {bs cs : List UInt8} {s s₁ s₂ : Phys}
  {E : Fault → Prop}

namespace Fills

theorem refl (N d va : Nat) (s : Phys) : Fills N d va [] s s :=
  ⟨.refl .., .refl .., rfl⟩

/-- Nothing is written, wherever that is. -/
theorem nil (h : Fills N d va [] s s₁) (off : Nat) : Fills N d off [] s s₁ := by
  refine ⟨h.trade, ⟨h.wrote.flags, ?_, h.wrote.kern, h.wrote.ktab⟩, h.denied⟩
  rw [h.wrote.byte, splice_nil, splice_nil]

theorem append (h : Fills N d va bs s s₁) (h' : Fills N d (va + bs.length) cs s₁ s₂) :
    Fills N d va (bs ++ cs) s s₂ :=
  ⟨h.trade.trans h'.trade, h.wrote.append h'.wrote, h'.denied.trans h.denied⟩

/-- `memmove` to the frame of a page. -/
theorem of_frame (h : Sound L (owned s.page d) s) (hf : frame s.page d v = some g)
    (hle : off + bs.length ≤ PGSIZE) : Fills N d (v * PGSIZE + off) bs s
      { s with page := update s.page g (splice (s.page g) off bs) } := by
  have hn := h.nodup_left
  refine ⟨?_, ?_, rfl⟩
  · rw [owned_fill hn hf]
    refine .write (fun y hy => ?_) rfl rfl rfl
    refine update_of_ne ?_ ..
    rintro rfl
    exact hy (mem_owned_frame hf)
  · rw [space_fill hn hf]
    exact .of_page (user_of_frame hf) hle

end Fills

/-! ## 3. `loaduvm` -/

/-- `readi` of exactly `n` bytes. -/
def readExactly (file : List UInt8) (off n : Nat) : Option (List UInt8) :=
  (readi file off n).filter fun bytes => bytes.length = n

/-- The bytes of a segment; of an empty one nothing is read. -/
def segmentBytes (file : List UInt8) (off sz : Nat) : Option (List UInt8) :=
  if sz = 0 then some [] else readExactly file off sz

theorem readi_eq {file : List UInt8} {o n : Nat} (ho : o < 2 ^ 32) (hn : n < 2 ^ 32)
    (hpos : 0 < n) : readi file o n =
      if o ≤ file.length ∧ o + n < 2 ^ 32 then some ((file.drop o).take n) else none := by
  have hwrap : add32 o n < o ↔ 2 ^ 32 ≤ o + n := by
    rw [add32]
    omega
  by_cases hc : file.length < o ∨ add32 o n < o
  · rw [readi, if_pos hc, if_neg (by omega)]
  · rw [readi, if_neg hc, if_pos (by omega)]

/-- A segment can be read if it lies inside the file. -/
theorem segmentBytes_eq {file : List UInt8} {off sz : Nat} (ho : off < 2 ^ 32) (hn : sz < 2 ^ 32) :
    segmentBytes file off sz =
      if 0 < sz → off + sz ≤ file.length ∧ off + sz < 2 ^ 32 then some ((file.drop off).take sz)
      else none := by
  rcases Nat.eq_zero_or_pos sz with rfl | hpos
  · rw [segmentBytes, if_pos rfl, if_pos fun hc => absurd hc (lt_irrefl 0), List.take_zero]
  · rw [segmentBytes, if_neg hpos.ne', readExactly, readi_eq ho hn hpos]
    by_cases hin : off + sz ≤ file.length ∧ off + sz < 2 ^ 32
    · have hlen : ((file.drop off).take sz).length = sz := by
        rw [List.length_take, List.length_drop]
        omega
      rw [if_pos (by omega), if_pos fun _ => hin, Option.filter_some, hlen, decide_eq_true rfl,
        if_pos rfl]
    · rw [if_neg (c := 0 < sz → _) fun hc => hin (hc hpos)]
      by_cases hc : off ≤ file.length ∧ off + sz < 2 ^ 32
      · have hlen : ((file.drop off).take sz).length ≠ sz := by
          rw [List.length_take, List.length_drop]
          omega
        rw [if_pos hc, Option.filter_some, decide_eq_false hlen, if_neg Bool.false_ne_true]
      · rw [if_neg hc, Option.filter_none]

/-- What the loop of `loaduvm` does from the byte `i` of the segment on. -/
inductive Load (N d addr : Nat) (file : List UInt8) (offset sz i : Nat) (s : Phys) :
    Int → Phys → Prop
  | ok {s' : Phys} : (i < sz → offset + sz ≤ file.length ∧ offset + sz < 2 ^ 32) →
    Fills N d (addr + i) ((file.drop (offset + i)).take (sz - i)) s s' →
    Load N d addr file offset sz i s 0 s'
  | bad {bs : List UInt8} {s' : Phys} : i < sz →
    ¬ (offset + sz ≤ file.length ∧ offset + sz < 2 ^ 32) → Fills N d (addr + i) bs s s' →
    Load N d addr file offset sz i s (-1) s'

theorem wp_loaduvmLoop {file : List UInt8} {A addr offset sz : Nat} (hA : addr = A * PGSIZE)
    (hend : addr + sz ≤ KERNBASE) :
    ∀ {fuel k i : Nat} {s : Phys}, npages sz - k < fuel → i = k * PGSIZE →
    (i < sz → offset + i < 2 ^ 32) → Sound L (owned s.page d) s →
    (∀ v, A ≤ v → v * PGSIZE < addr + sz → ((space s.page d).flags v).isSome = true) →
    wp (loaduvmLoop d addr file offset sz fuel i) (Load N d addr file offset sz i s) E s := by
  intro fuel
  induction fuel with
  | zero => exact fun hfuel => absurd hfuel (Nat.not_lt_zero _)
  | succ fuel ih =>
    intro k i s hfuel hi hoff h hmap
    simp only [loaduvmLoop, wp_ite, wp_bind, wp_pure]
    refine ⟨fun hmore => ?_, fun hdone => ?_⟩
    swap
    · refine .ok (fun hlt => absurd hlt hdone) ?_
      rw [Nat.sub_eq_zero_of_le (not_lt.mp hdone), List.take_zero]
      exact .refl ..
    -- the page that is loaded
    have hoff := hoff hmore
    have hpage : (A + k) * PGSIZE = addr + i := by rw [Nat.add_mul, hi, hA]
    have hlt : A + k < VPAGES := by
      simp only [PGSIZE, KERNBASE, VPAGES] at *
      omega
    have haddr : add32 addr i = (A + k) * PGSIZE := by
      rw [hpage]
      refine Nat.mod_eq_of_lt (lt_of_lt_of_le (Nat.add_lt_add_left hmore _) (hend.trans ?_))
      decide
    have hoffset : add32 offset i = offset + i := Nat.mod_eq_of_lt hoff
    have hsome := hmap (A + k) (Nat.le_add_right ..) (by
      rw [hpage]
      exact Nat.add_lt_add_left hmore _)
    rw [flags_isSome] at hsome
    obtain ⟨g, hf⟩ := exists_frame hsome
    obtain ⟨t, htable, hw, -, hg⟩ := frame_walk hf
    rw [haddr, wp_walkpgdir_look hlt, htable, hoffset]
    simp only [Option.map_some, wp_bind, wp_load, hw, hg]
    obtain ⟨n, hn⟩ : ∃ n, n = min (sz - i) PGSIZE := ⟨_, rfl⟩
    rw [← hn]
    have hnP : n ≤ PGSIZE := hn ▸ Nat.min_le_right ..
    have hnsz : n ≤ sz - i := hn ▸ Nat.min_le_left ..
    have hpos : 0 < n := hn ▸ Nat.lt_min.mpr ⟨Nat.sub_pos_of_lt hmore, by decide⟩
    rw [readi_eq hoff (lt_of_le_of_lt hnP (by decide)) hpos]
    by_cases hc : offset + i ≤ file.length ∧ offset + i + n < 2 ^ 32
    swap
    · rw [if_neg hc]
      exact .bad hmore (by omega) (.refl ..)
    rw [if_pos hc]
    have hlen : ((file.drop (offset + i)).take n).length = min n (file.length - (offset + i)) := by
      rw [List.length_take, List.length_drop]
    have hfill : Fills N d ((A + k) * PGSIZE + 0) ((file.drop (offset + i)).take n) s _ :=
      Fills.of_frame h hf (by omega)
    rw [Nat.add_zero, hpage] at hfill
    simp only [wp_bind, wp_memmove, wp_ite, wp_pure]
    refine ⟨fun hshort => .bad hmore (by omega) hfill, fun hfull => ?_⟩
    rw [not_not] at hfull
    generalize ({ s with page := update s.page g (splice (s.page g) 0
      ((file.drop (offset + i)).take n)) } : Phys) = s₁ at hfill ⊢
    have hin : offset + i + n ≤ file.length := by omega
    -- the pages that are left
    have hnext : add32 i PGSIZE = i + PGSIZE := by
      refine Nat.mod_eq_of_lt (lt_of_lt_of_le (Nat.add_lt_add_right hmore _) ?_)
      simp only [PGSIZE, KERNBASE] at *
      omega
    have hrest := ih (k := k + 1) (i := i + PGSIZE) (s := s₁) ?_ ?_ ?_ (h.trade hfill.trade) ?_
    rotate_left
    · have hk : k < npages sz := by rwa [← page_lt, ← hi]
      omega
    · rw [Nat.succ_mul, hi]
    · intro hlt
      have hfullPage : n = PGSIZE := by omega
      rw [← hfullPage, ← Nat.add_assoc]
      exact hc.2
    · intro v hv hv'
      rw [hfill.wrote.flags]
      exact hmap v hv hv'
    rw [hnext]
    refine wp_conseq hrest ?_
    rintro _ s₂ (⟨hcond, hfill₂⟩ | ⟨hlt, hbad, hfill₂⟩)
    · refine .ok (fun _ => by omega) ?_
      have hsplit : (file.drop (offset + i)).take (sz - i) = (file.drop (offset + i)).take n ++
          (file.drop (offset + (i + PGSIZE))).take (sz - (i + PGSIZE)) := by
        rw [show sz - i = n + (sz - (i + PGSIZE)) by omega, List.take_add, List.drop_drop]
        by_cases hlt : i + PGSIZE < sz
        · rw [show offset + i + n = offset + (i + PGSIZE) by omega]
        · rw [Nat.sub_eq_zero_of_le (not_lt.mp hlt), List.take_zero, List.take_zero]
      rw [hsplit]
      refine hfill.append ?_
      rw [hfull]
      by_cases hlt : i + PGSIZE < sz
      · rwa [show addr + i + n = addr + (i + PGSIZE) by omega]
      · rw [Nat.sub_eq_zero_of_le (not_lt.mp hlt), List.take_zero] at hfill₂ ⊢
        exact hfill₂.nil _
    · rw [show addr + (i + PGSIZE) = addr + i + n by omega, ← hfull] at hfill₂
      exact .bad hmore hbad (hfill.append hfill₂)

/-- What `loaduvm` does. -/
inductive Loads (N d addr : Nat) (file : List UInt8) (offset sz : Nat) (s : Phys) :
    Int → Phys → Prop
  | ok {bs : List UInt8} {s' : Phys} : segmentBytes file offset sz = some bs →
    Fills N d addr bs s s' → Loads N d addr file offset sz s 0 s'
  | bad {bs : List UInt8} {s' : Phys} : segmentBytes file offset sz = none →
    Fills N d addr bs s s' → Loads N d addr file offset sz s (-1) s'

/-- **`loaduvm`** into pages that are mapped. -/
theorem wp_loaduvm {file : List UInt8} {addr offset sz : Nat} (halign : addr % PGSIZE = 0)
    (hend : addr + sz ≤ KERNBASE) (hoff : offset < 2 ^ 32) (h : Sound L (owned s.page d) s)
    (hmap : ∀ v, v * PGSIZE < addr + sz → ((space s.page d).flags v).isSome = true) :
    wp (loaduvm d addr file offset sz) (Loads N d addr file offset sz s) E s := by
  have hA : addr = addr / PGSIZE * PGSIZE := by
    rw [Nat.mul_comm]
    exact (Nat.mul_div_cancel_left' (Nat.dvd_of_mod_eq_zero halign)).symm
  have hsz : sz < 2 ^ 32 := lt_of_le_of_lt ((Nat.le_add_left sz addr).trans hend) (by decide)
  have hpages : npages sz ≤ UPAGES := npages_le ((Nat.le_add_left sz addr).trans hend)
  rw [loaduvm, if_neg fun hc => hc halign]
  refine wp_conseq (wp_loaduvmLoop (N := N) (k := 0) (i := 0) hA hend ?_ (Nat.zero_mul _).symm
    (fun _ => hoff) h fun v _ hv => hmap v hv) ?_
  · rw [Nat.sub_zero]
    exact lt_of_le_of_lt hpages (by decide)
  · rintro _ s' (⟨hin, hfill⟩ | ⟨hpos, hout, hfill⟩)
    · rw [Nat.add_zero, Nat.add_zero, Nat.sub_zero] at hfill
      refine .ok ?_ hfill
      rw [segmentBytes_eq hoff hsz, if_pos hin]
    · rw [Nat.add_zero] at hfill
      refine .bad ?_ hfill
      rw [segmentBytes_eq hoff hsz, if_neg fun hc => hout (hc hpos)]

/-! ## 4. `clearpteu` -/

theorem pteFlags_and (w x : Nat) : pteFlags (w &&& x) = pteFlags w &&& pteFlags x := by
  simp only [pteFlags, show PGSIZE = 2 ^ 12 from rfl]
  exact Nat.and_mod_two_pow

theorem pteAddr_and (w x : Nat) : pteAddr (w &&& x) = pteAddr w &&& pteAddr x := by
  simp only [pteAddr, show PGSIZE = 2 ^ 12 from rfl]
  exact Nat.and_div_two_pow

/-- **`clearpteu`** takes a page that is mapped from the user. -/
theorem wp_clearpteu (h : Sound L (owned s.page d) s) (hf : frame s.page d v = some g) :
    wp (clearpteu d (v * PGSIZE)) (fun _ s' =>
      Trade N (owned s.page d) (owned s'.page d) s s' ∧ s'.denied = s.denied ∧
      space s'.page d = (space s.page d).setUser v
        (some (pteFlags (pte s.page d v) &&& (PGSIZE - 1 - PTE_U), s.page g))) E s := by
  have hn := h.nodup_left
  have hu := frame_lt hf
  have hv := upage_lt hu
  obtain ⟨t, htable, hw, hpres, hg⟩ := frame_walk hf
  have hlt : pte s.page d v < 2 ^ 32 := by
    rw [← hw]
    exact getWord_lt ..
  simp only [clearpteu, wp_bind, wp_walkpgdir_look hv, htable, Option.map_some, wp_load, hw, wp_store]
  generalize pte s.page d v = w at hlt hpres hg
  have hw' : w &&& (2 ^ 32 - 1 - PTE_U) < 2 ^ 32 := lt_of_le_of_lt Nat.and_le_left hlt
  have haddr : pteAddr (w &&& (2 ^ 32 - 1 - PTE_U)) = g := by
    rw [pteAddr_and, ← hg, show pteAddr (2 ^ 32 - 1 - PTE_U) = 2 ^ 20 - 1 by decide,
      Nat.and_two_pow_sub_one_eq_mod]
    refine Nat.mod_eq_of_lt ?_
    simp only [pteAddr, PGSIZE]
    omega
  have hpres' : hasFlag (w &&& (2 ^ 32 - 1 - PTE_U)) PTE_P = true := by
    rw [hasFlag_present, Nat.testBit_and, ← hasFlag_present, hpres]
    decide
  have hflags : pteFlags (w &&& (2 ^ 32 - 1 - PTE_U)) = pteFlags w &&& (PGSIZE - 1 - PTE_U) :=
    pteFlags_and ..
  generalize w &&& (2 ^ 32 - 1 - PTE_U) = w' at hw' haddr hpres' hflags
  have hframe := stored_frame_self hn hv htable hw' hu
  rw [if_pos hpres', haddr] at hframe
  have hown : owned (stored s.page t v w') d = owned s.page d := by
    have := owned_stored hn hv htable hw' hu
    rw [hframe, hf] at this
    exact add_right_cancel this
  have hgt : g ≠ t := frame_ne_table hn (dir_lt hv) hf htable
  have hspace := space_stored_user hn hv htable hw' hu
  rw [user_of_frame hframe, stored_pte hn hv htable hw' hv, if_pos rfl, hflags, stored,
    update_of_ne hgt] at hspace
  refine ⟨?_, trivial, hspace⟩
  rw [stored] at hown
  rw [hown]
  refine .write (fun y hy => ?_) rfl rfl rfl
  refine update_of_ne ?_ ..
  rintro rfl
  exact hy (mem_owned_table (dir_lt hv) htable)

end

/-! ## 5. `copyout` -/

namespace Space

/-- A user page that `copyout` writes. -/
def Accepts (S : Space) (v : Nat) : Prop := ∃ f, S.flags v = some f ∧ hasFlag f PTE_U = true

/-- A page that it does not write: one that is kept from the user, or one of the kernel. -/
def Refuses (S : Space) (v : Nat) : Prop :=
  (∃ f, S.flags v = some f ∧ hasFlag f PTE_U = false) ∨
    (UPAGES ≤ v ∧ v < VPAGES ∧ S.ktab (v / NPTENTRIES) = true ∧ hasFlag (S.kern v) PTE_U = false)

/-- A page of the kernel's half for which there is no table. -/
def Missing (S : Space) (v : Nat) : Prop :=
  UPAGES ≤ v ∧ v < VPAGES ∧ S.ktab (v / NPTENTRIES) = false

end Space

section

variable {L : Layout} {N K d va v g : Nat} {bs cs buf : List UInt8} {s s₁ s₂ : Phys}
  {E : Fault → Prop} {S T : Space}

theorem Space.Wrote.accepts (h : Space.Wrote va bs S T) : T.Accepts v ↔ S.Accepts v := by
  rw [Space.Accepts, Space.Accepts, h.flags]

theorem Space.Wrote.refuses (h : Space.Wrote va bs S T) : T.Refuses v ↔ S.Refuses v := by
  rw [Space.Refuses, Space.Refuses, h.flags, h.kern, h.ktab]

/-- The flags of an entry say whether the user may look. -/
theorem user_flags (w : Nat) : hasFlag (pteFlags w) PTE_U = hasFlag w PTE_U := by
  rw [hasFlag_user, hasFlag_user, pteFlags, show PGSIZE = 2 ^ 12 from rfl,
    Nat.testBit_mod_two_pow]
  simp

theorem wp_uva2ka (hv : v < VPAGES) {Q : Option Nat → Phys → Prop} {t : Nat}
    (ht : table s.page d (v / NPTENTRIES) = some t) :
    wp (uva2ka d (v * PGSIZE)) Q E s ↔
      Q (if hasFlag (pte s.page d v) PTE_P = true ∧ hasFlag (pte s.page d v) PTE_U = true then
        some (pteAddr (pte s.page d v)) else none) s := by
  have hw : getWord (s.page t) (v % NPTENTRIES) = pte s.page d v := (Radix.leaf_of_table ht).symm
  simp only [uva2ka, wp_bind, wp_walkpgdir_look hv, ht, Option.map_some, wp_load, hw, wp_ite,
    wp_pure]
  cases hasFlag (pte s.page d v) PTE_P <;> cases hasFlag (pte s.page d v) PTE_U <;> simp

theorem flags_eq_some {f : Nat} (h : (space s.page d).flags v = some f) :
    ∃ g, frame s.page d v = some g ∧ pteFlags (pte s.page d v) = f := by
  have hsome : ((space s.page d).flags v).isSome = true := by rw [h]; rfl
  rw [flags_isSome] at hsome
  obtain ⟨g, hf⟩ := exists_frame hsome
  refine ⟨g, hf, ?_⟩
  rw [Space.flags, user_of_frame hf] at h
  exact Option.some.inj h

theorem wp_uva2ka_accepts (h : (space s.page d).Accepts v) :
    ∃ g, frame s.page d v = some g ∧ ∀ {Q : Option Nat → Phys → Prop},
      wp (uva2ka d (v * PGSIZE)) Q E s ↔ Q (some g) s := by
  obtain ⟨f, hf, hU⟩ := h
  obtain ⟨g, hg, rfl⟩ := flags_eq_some hf
  obtain ⟨t, htable, -, hpres, haddr⟩ := frame_walk hg
  rw [user_flags] at hU
  refine ⟨g, hg, fun {Q} => ?_⟩
  rw [wp_uva2ka (upage_lt (frame_lt hg)) htable, if_pos ⟨hpres, hU⟩, haddr]

theorem wp_uva2ka_refuses (h : (space s.page d).Refuses v) {Q : Option Nat → Phys → Prop} :
    wp (uva2ka d (v * PGSIZE)) Q E s ↔ Q none s := by
  rcases h with ⟨f, hf, hU⟩ | ⟨hge, hlt, hktab, hU⟩
  · obtain ⟨g, hg, rfl⟩ := flags_eq_some hf
    obtain ⟨t, htable, -, -, -⟩ := frame_walk hg
    rw [user_flags] at hU
    rw [wp_uva2ka (upage_lt (frame_lt hg)) htable, hU, if_neg fun hc => Bool.false_ne_true hc.2]
  · have hsome : (table s.page d (v / NPTENTRIES)).isSome = true := by
      simp only [space, Bool.and_eq_true] at hktab
      exact hktab.2
    obtain ⟨t, htable⟩ := Option.isSome_iff_exists.mp hsome
    have hU' : hasFlag (pte s.page d v) PTE_U = false := by
      simp only [space, if_pos (show UPAGES ≤ v ∧ v < VPAGES from ⟨hge, hlt⟩)] at hU
      exact hU
    rw [wp_uva2ka hlt htable, hU', if_neg fun hc => Bool.false_ne_true hc.2]

theorem wp_uva2ka_missing (h : (space s.page d).Missing v) {Q : Option Nat → Phys → Prop} :
    wp (uva2ka d (v * PGSIZE)) Q E s ↔ E .nullPte := by
  obtain ⟨hge, hlt, hktab⟩ := h
  have hx : 512 ≤ v / NPTENTRIES := (Nat.le_div_iff_mul_le (by decide)).mpr hge
  have htable : table s.page d (v / NPTENTRIES) = none := by
    simp only [space, decide_eq_true (show 512 ≤ v / NPTENTRIES ∧ v / NPTENTRIES < NPDENTRIES from
      ⟨hx, dir_lt hlt⟩), Bool.true_and] at hktab
    rwa [Option.isSome_eq_false_iff, Option.isNone_iff_eq_none] at hktab
  simp only [uva2ka, wp_bind, wp_walkpgdir_look hlt, htable, Option.map_none, wp_throw]

/-- What `copyout` does if the pages before page `K` are written, and `K` is not. -/
inductive CopyOut (N d K va : Nat) (buf : List UInt8) (s : Phys) : Int → Phys → Prop
  | ok {s' : Phys} : buf = [] ∨ va + buf.length ≤ K * PGSIZE → Fills N d va buf s s' →
    CopyOut N d K va buf s 0 s'
  | bad {bs : List UInt8} {s' : Phys} : K * PGSIZE < va + buf.length → Fills N d va bs s s' →
    CopyOut N d K va buf s (-1) s'

theorem wp_copyoutLoop (hK : K < VPAGES) : ∀ {fuel va : Nat} {buf : List UInt8} {s : Phys},
    K - va / PGSIZE < fuel → va / PGSIZE ≤ K → Sound L (owned s.page d) s →
    (∀ v, va / PGSIZE ≤ v → v < K → (space s.page d).Accepts v) →
    (K * PGSIZE < va + buf.length → (space s.page d).Refuses K) →
    wp (copyoutLoop d fuel va buf) (CopyOut N d K va buf s) E s := by
  intro fuel
  induction fuel with
  | zero => exact fun hfuel => absurd hfuel (Nat.not_lt_zero _)
  | succ fuel ih =>
    intro va buf s hfuel hva h hacc href
    simp only [copyoutLoop, wp_ite, wp_bind, wp_pure]
    refine ⟨fun hmore => ?_, fun hdone => ?_⟩
    swap
    · obtain rfl : buf = [] := List.length_eq_zero_iff.mp (by omega)
      exact .ok (.inl rfl) (.refl ..)
    have hdown : pgRoundDown va = va / PGSIZE * PGSIZE := rfl
    have hoff : va - va / PGSIZE * PGSIZE = va % PGSIZE := by
      simp only [PGSIZE]
      omega
    have hmod : va % PGSIZE < PGSIZE := Nat.mod_lt _ (by decide)
    have hdiv : va / PGSIZE * PGSIZE + va % PGSIZE = va := Nat.div_add_mod' ..
    rw [hdown, hoff]
    obtain ⟨u, hu⟩ : ∃ u, u = va / PGSIZE := ⟨_, rfl⟩
    obtain ⟨r, hr⟩ : ∃ r, r = va % PGSIZE := ⟨_, rfl⟩
    rw [← hu] at hfuel hva hacc hdiv ⊢
    rw [← hr] at hmod hdiv ⊢
    rcases Nat.eq_or_lt_of_le hva with rfl | hlt
    · -- the page that is not written
      have hover : u * PGSIZE < va + buf.length := by omega
      rw [wp_uva2ka_refuses (href hover)]
      exact .bad hover (.refl ..)
    obtain ⟨g, hf, hwp⟩ := wp_uva2ka_accepts (E := E) (hacc u le_rfl hlt)
    rw [hwp]
    obtain ⟨n, hn⟩ : ∃ n, n = min (PGSIZE - r) buf.length := ⟨_, rfl⟩
    simp only [wp_bind, wp_memmove, ← hn]
    have hlen : (buf.take n).length = n := by
      rw [List.length_take]
      omega
    have hfill : Fills N d (u * PGSIZE + r) (buf.take n) s _ := Fills.of_frame h hf (by omega)
    rw [hdiv] at hfill
    generalize ({ s with page := update s.page g (splice (s.page g) r (buf.take n)) } :
      Phys) = s₁ at hfill ⊢
    have hnext : add32 (u * PGSIZE) PGSIZE = (u + 1) * PGSIZE := add_page (by omega)
    have hsucc : (u + 1) * PGSIZE = u * PGSIZE + PGSIZE := Nat.succ_mul ..
    have hle : (u + 1) * PGSIZE ≤ K * PGSIZE := Nat.mul_le_mul_right _ hlt
    have hpage : (u + 1) * PGSIZE / PGSIZE = u + 1 := Nat.mul_div_cancel _ (by decide)
    have hdrop : (buf.drop n).length = buf.length - n := List.length_drop ..
    have hrest : wp (copyoutLoop d fuel ((u + 1) * PGSIZE) (buf.drop n))
        (CopyOut N d K ((u + 1) * PGSIZE) (buf.drop n) s₁) E s₁ := by
      refine ih ?_ ?_ (h.trade hfill.trade) ?_ ?_
      · rw [hpage]
        omega
      · rw [hpage]
        exact hlt
      · rw [hpage]
        exact fun v hv hvK => hfill.wrote.accepts.mpr (hacc v (by omega) hvK)
      · intro hover
        exact hfill.wrote.refuses.mpr (href (by omega))
    rw [hnext]
    refine wp_conseq hrest ?_
    rintro _ s₂ (⟨hwhere, hfill₂⟩ | ⟨hover, hfill₂⟩)
    · refine .ok (.inr ?_) ?_
      · rcases hwhere with hnil | hend
        · rw [List.drop_eq_nil_iff] at hnil
          omega
        · omega
      · rw [← List.take_append_drop n buf]
        refine hfill.append ?_
        rw [hlen]
        by_cases hall : buf.length ≤ n
        · rw [List.drop_eq_nil_iff.mpr hall] at hfill₂ ⊢
          exact hfill₂.nil _
        · rwa [show va + n = (u + 1) * PGSIZE by omega]
    · have hva' : (u + 1) * PGSIZE = va + n := by omega
      rw [hva', ← hlen] at hfill₂
      exact .bad (by omega) (hfill.append hfill₂)

/-- **`copyout`**, where the pages before page `K` are written and `K` is not. -/
theorem wp_copyout (hK : K < VPAGES) (hva : va / PGSIZE ≤ K) (h : Sound L (owned s.page d) s)
    (hacc : ∀ v, va / PGSIZE ≤ v → v < K → (space s.page d).Accepts v)
    (href : K * PGSIZE < va + buf.length → (space s.page d).Refuses K) :
    wp (copyout d va buf) (CopyOut N d K va buf s) E s := by
  refine wp_copyoutLoop hK ?_ hva h hacc href
  rw [show NPAGES = VPAGES by decide]
  exact lt_of_le_of_lt (Nat.sub_le ..) hK

/-- `copyout` to a page without a table reads an entry through a null pointer. -/
theorem wp_copyout_missing (hpos : 0 < buf.length) (h : (space s.page d).Missing (va / PGSIZE))
    {Q : Int → Phys → Prop} : wp (copyout d va buf) Q E s ↔ E .nullPte := by
  have hdown : pgRoundDown va = va / PGSIZE * PGSIZE := rfl
  rw [copyout, show NPAGES = VPAGES - 1 + 1 by decide, copyoutLoop, if_pos hpos, hdown, wp_bind,
    wp_uva2ka_missing h]

end

end Xv6.Vm
