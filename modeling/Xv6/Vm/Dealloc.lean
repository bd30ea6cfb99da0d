/-
# `deallocuvm` page by page

The loop of `deallocuvm` leaves out the pages of a missing page table: it sets `a` to the last page
of the table's range, by arithmetic on the fields of the address, and the increment of the loop does
the rest.

* `deallocuvm_eq`: it does the same as a loop that visits every page, in every state of the memory,
  whatever the directory looks like, and so it ends.
* `wp_deallocPages`: what such a loop does, if no page has two uses and the frames are pages that
  `kfree` takes (`Cleared`).
* `deallocuvm_exact`: both together.
-/
import Xv6.Vm.Grow

namespace Xv6.Vm

open Bytes

/-! ## 1. The loop that visits every page -/

/-- What `deallocuvm` does for the page `v`. -/
def deallocPage (L : Layout) (pgdir v : Nat) : VmM Unit := do
  match ← walkpgdir pgdir (v * PGSIZE) false with
  | none => return ()
  | some pte => do
    let w ← load pte
    if hasFlag w PTE_P then do
      if pteAddr w = 0 then
        throw .kfree
      kfree L (pteAddr w)
      store pte 0

/-- The pages `v`, .., `v + n - 1`, one after another. -/
def deallocPages (L : Layout) (pgdir : Nat) : Nat → Nat → VmM Unit
  | 0, _ => return ()
  | n + 1, v => do
    deallocPage L pgdir v
    deallocPages L pgdir n (v + 1)

section

variable {L : Layout} {d n v w : Nat} {s : Phys} {E : Fault → Prop} {Q : Unit → Phys → Prop}

/-- A page without a table is left alone. -/
theorem wp_deallocPage_none (hv : v < VPAGES) (h : table s.page d (v / NPTENTRIES) = none) :
    wp (deallocPage L d v) Q E s ↔ Q () s := by
  simp only [deallocPage, wp_bind, wp_walkpgdir_look hv, h, Option.map_none, wp_pure]

/-- All pages of a missing table. -/
theorem wp_deallocPages_skip (hn : v + n ≤ VPAGES) (hvw : v ≤ w)
    (h : ∀ u, v ≤ u → u < w → table s.page d (u / NPTENTRIES) = none) :
    wp (deallocPages L d n v) Q E s ↔ wp (deallocPages L d (v + n - w) w) Q E s := by
  induction n generalizing v with
  | zero => rw [show v + 0 - w = 0 by omega, deallocPages, deallocPages]
  | succ n ih =>
    rcases hvw.eq_or_lt with rfl | hlt
    · rw [Nat.add_sub_cancel_left]
    · rw [deallocPages, wp_bind, wp_deallocPage_none (by omega) (h v le_rfl hlt),
        ih (by omega) hlt fun u hu => h u (by omega)]
      congr! 2
      omega

/-- **The two loops agree**, at every page. -/
theorem wp_deallocuvmLoop_iff {oldsz : Nat} (hold : oldsz ≤ KERNBASE) {fuel : Nat}
    (hfuel : npages oldsz - v < fuel) : wp (deallocuvmLoop L d oldsz fuel (v * PGSIZE)) Q E s ↔
      wp (deallocPages L d (npages oldsz - v) v) Q E s := by
  have hlast := npages_le hold
  induction fuel generalizing v s with
  | zero => exact absurd hfuel (Nat.not_lt_zero _)
  | succ fuel ih =>
    rw [deallocuvmLoop]
    by_cases hlt : v < npages oldsz
    · have hv : v < UPAGES := lt_of_lt_of_le hlt hlast
      have hadd : add32 (v * PGSIZE) PGSIZE = (v + 1) * PGSIZE := by
        refine add_page ?_
        simp only [UPAGES, VPAGES] at *
        omega
      rw [if_pos (page_lt.mpr hlt), wp_bind, wp_walkpgdir_look (upage_lt hv)]
      cases ht : table s.page d (v / NPTENTRIES) with
      | none =>
        have hnext : v < (v / NPTENTRIES + 1) * NPTENTRIES := by
          simp only [NPTENTRIES]
          omega
        have hmissing : ∀ u, v ≤ u → u < (v / NPTENTRIES + 1) * NPTENTRIES →
            table s.page d (u / NPTENTRIES) = none := by
          intro u hvu hu
          have hsame : u / NPTENTRIES = v / NPTENTRIES := by
            simp only [NPTENTRIES] at hu ⊢
            omega
          rw [hsame, ht]
        have hend : v + (npages oldsz - v) ≤ VPAGES := by
          simp only [UPAGES, VPAGES] at hlast ⊢
          omega
        have hless : npages oldsz - (v / NPTENTRIES + 1) * NPTENTRIES < fuel := by omega
        simp only [Option.map_none, next_table hv]
        rw [wp_deallocPages_skip hend hnext.le hmissing, Nat.add_sub_cancel' hlt.le]
        exact ih hless
      | some t =>
        obtain ⟨n, hn⟩ : ∃ n, npages oldsz - v = n + 1 := ⟨npages oldsz - v - 1, by omega⟩
        have hrest : npages oldsz - (v + 1) = n := by omega
        rw [hn, deallocPages, deallocPage]
        simp only [Option.map_some, wp_bind, wp_walkpgdir_look (upage_lt hv), ht, wp_load, wp_ite,
          wp_throw, hadd, wp_pure, ih (show npages oldsz - (v + 1) < fuel by omega), hrest]
    · rw [if_neg (fun h => hlt (page_lt.mp h)), show npages oldsz - v = 0 by omega, deallocPages]

/-- It stops only in `kfree`. -/
theorem wp_deallocPages_stops (hend : v + n ≤ VPAGES) :
    wp (deallocPages L d n v) (fun _ _ => True) (· = .kfree) s := by
  induction n generalizing v s with
  | zero => trivial
  | succ n ih =>
    simp only [deallocPages, deallocPage, wp_bind, wp_walkpgdir_look (show v < VPAGES by omega)]
    cases table s.page d (v / NPTENTRIES) with
    | none => exact ih (by omega)
    | some t =>
      simp only [Option.map_some, wp_bind, wp_load, wp_ite, wp_throw, wp_pure, kfree, wp_setPage,
        wp_modify, wp_store]
      exact ⟨fun _ => ⟨fun _ => trivial, fun _ => ⟨fun _ => trivial, fun _ => ih (by omega)⟩⟩,
        fun _ => ih (by omega)⟩

/-! ## 2. What it does -/

/-- The frames of the pages `a`, .., `b - 1`. -/
def frames (m : Nat → Bytes) (d a b : Nat) : List Nat := (List.range' a (b - a)).filterMap (frame m d)

/-- The pages `a`, .., `b - 1` are gone: their frames have been given to `kfree`, the later ones
last, and their entries are 0.  No other entry has changed, and no other page of the memory. -/
structure Cleared (d a b : Nat) (s s' : Phys) : Prop where
  freelist : s'.freelist = (frames s.page d a b).reverse ++ s.freelist
  table : ∀ x, table s'.page d x = table s.page d x
  pte : ∀ u < VPAGES, pte s'.page d u =
    if a ≤ u ∧ u < b ∧ (frame s.page d u).isSome then 0 else pte s.page d u
  page : ∀ g ∉ frames s.page d a b, (∀ x < NPDENTRIES, Vm.table s.page d x ≠ some g) →
    s'.page g = s.page g
  calls : s'.calls = s.calls
  denied : s'.denied = s.denied
  fails : s'.fails = s.fails

section

variable {a b c g t : Nat} {s₁ s' : Phys} {m m' : Nat → Bytes}

theorem mem_frames : g ∈ frames m d a b ↔ ∃ u, a ≤ u ∧ u < b ∧ frame m d u = some g := by
  simp only [frames, List.mem_filterMap, List.mem_range'_1]
  constructor
  · rintro ⟨u, hu, hg⟩
    exact ⟨u, hu.1, by omega, hg⟩
  · rintro ⟨u, hau, hub, hg⟩
    exact ⟨u, ⟨hau, by omega⟩, hg⟩

theorem frames_append (hab : a ≤ b) (hbc : b ≤ c) :
    frames m d a c = frames m d a b ++ frames m d b c := by
  have hsum : c - a = (b - a) + (c - b) := by omega
  rw [frames, hsum, ← List.range'_append_1, List.filterMap_append, Nat.add_sub_cancel' hab]
  rfl

theorem frames_congr (h : ∀ u, a ≤ u → u < b → frame m' d u = frame m d u) :
    frames m' d a b = frames m d a b := by
  refine List.filterMap_congr fun u hu => ?_
  rw [List.mem_range'_1] at hu
  exact h u hu.1 (by omega)

/-- A page outside the range keeps its frame. -/
theorem Cleared.frame (h : Cleared d a b s s') (hu : v < a ∨ b ≤ v) :
    Vm.frame s'.page d v = Vm.frame s.page d v := by
  by_cases hv : v < UPAGES
  · refine frame_of_pte ?_
    rw [h.pte v (upage_lt hv), if_neg (by omega)]
  · rw [frame_of_not_lt hv, frame_of_not_lt hv]

theorem Cleared.trans (h : Cleared d a b s s₁) (h' : Cleared d b c s₁ s') (hab : a ≤ b)
    (hbc : b ≤ c) : Cleared d a c s s' := by
  have hframes : frames s₁.page d b c = frames s.page d b c :=
    frames_congr fun u hu _ => h.frame (.inr hu)
  have happend := frames_append (m := s.page) (d := d) hab hbc
  constructor
  · rw [h'.freelist, h.freelist, hframes, happend, List.reverse_append, List.append_assoc]
  · exact fun x => (h'.table x).trans (h.table x)
  · intro u hu
    rw [h'.pte u hu, h.pte u hu]
    by_cases hb : b ≤ u
    · rw [h.frame (.inr hb)]
      have hnot : ¬ u < b := not_lt.mpr hb
      have ha : a ≤ u := hab.trans hb
      simp only [hnot, hb, ha, true_and, false_and, and_false, if_false]
    · have hlt : u < b := not_le.mp hb
      have hc : u < c := lt_of_lt_of_le hlt hbc
      simp only [hb, hlt, hc, true_and, false_and, if_false]
  · intro g hg htable
    rw [happend, List.mem_append, not_or] at hg
    rw [h'.page g (hframes ▸ hg.2) fun x hx => by rw [h.table]; exact htable x hx,
      h.page g hg.1 htable]
  · exact h'.calls.trans h.calls
  · exact h'.denied.trans h.denied
  · exact h'.fails.trans h.fails

theorem frames_one : frames m d v (v + 1) = (frame m d v).toList := by
  rw [frames, Nat.add_sub_cancel_left]
  cases hf : frame m d v with
  | none => simp [hf]
  | some g => simp [hf]

/-- A page that is not there. -/
theorem Cleared.none (h : Vm.frame s.page d v = .none) : Cleared d v (v + 1) s s := by
  constructor
  · rw [frames_one, h]
    rfl
  · exact fun _ => rfl
  · intro u _
    rw [if_neg]
    rintro ⟨hle, hlt, hsome⟩
    rw [show u = v by omega, h] at hsome
    cases hsome
  all_goals first | exact fun _ _ _ => rfl | rfl

/-- A page that is there: its frame is overwritten and its entry cleared. -/
theorem Cleared.one (hn : (owned s.page d).Nodup) (hv : v < UPAGES)
    (ht : Vm.table s.page d (v / NPTENTRIES) = some t) (hg : Vm.frame s.page d v = some g)
    (hpage : s'.page = Function.update (stored s.page t v 0) g fun _ => 1)
    (hfree : s'.freelist = g :: s.freelist) (hcalls : s'.calls = s.calls)
    (hdenied : s'.denied = s.denied) (hfails : s'.fails = s.fails) :
    Cleared d v (v + 1) s s' ∧ (owned s'.page d).Nodup := by
  have hlt := upage_lt hv
  have hw : (0 : Nat) < 2 ^ 32 := by decide
  -- the memory with the entry cleared does not use the frame
  have hframe : Vm.frame (stored s.page t v 0) d v = .none :=
    (stored_frame_self hn hlt ht hw hv).trans (if_neg (by decide))
  have hown := owned_stored hn hlt ht hw hv
  rw [hframe, hg, bag_some, bag_none, add_zero] at hown
  rw [← hown, Multiset.nodup_add] at hn
  have hagree : ∀ x ∈ owned (stored s.page t v 0) d, s'.page x = stored s.page t v 0 x := by
    intro x hx
    rw [hpage]
    refine Function.update_of_ne ?_ ..
    rintro rfl
    exact Multiset.disjoint_left.mp hn.2.2 hx (Multiset.mem_singleton_self x)
  rw [← Multiset.nodup_add, hown] at hn
  obtain ⟨htree, hpte⟩ := tree_congr hagree
  refine ⟨⟨?_, fun x => ?_, fun u hu => ?_, fun x hx htab => ?_, hcalls, hdenied, hfails⟩, ?_⟩
  · rw [hfree, frames_one, hg]
    rfl
  · rw [htree, stored_table hn hlt ht]
  · rw [hpte u hu, stored_pte hn hlt ht hw hu]
    by_cases huv : u = v
    · rw [if_pos huv, if_pos]
      rw [huv, hg]
      exact ⟨le_rfl, Nat.lt_succ_self v, rfl⟩
    · rw [if_neg huv, if_neg]
      omega
  · rw [frames_one, hg] at hx
    have hxg : x ≠ g := fun e => hx (by rw [e]; exact List.mem_singleton_self g)
    have hxt : x ≠ t := fun e => htab _ (dir_lt hlt) (by rw [ht, e])
    rw [hpage, Function.update_of_ne hxg, stored, Function.update_of_ne hxt]
  · rw [owned_of_agree hagree]
    rw [← hown] at hn
    exact (Multiset.nodup_add.mp hn).1

/-- The step: one page. -/
theorem wp_deallocPage (hn : (owned s.page d).Nodup) (hv : v < UPAGES)
    (hpool : ∀ g, Vm.frame s.page d v = some g → L.Pool g) :
    wp (deallocPage L d v) (fun _ s' => Cleared d v (v + 1) s s' ∧ (owned s'.page d).Nodup) E s := by
  cases ht : Vm.table s.page d (v / NPTENTRIES) with
  | none =>
    rw [wp_deallocPage_none (upage_lt hv) ht]
    exact ⟨.none (frame_none_of_table ht), hn⟩
  | some t =>
    have hpte : getWord (s.page t) (v % NPTENTRIES) = Vm.pte s.page d v :=
      (Radix.leaf_of_table ht).symm
    simp only [deallocPage, wp_bind, wp_walkpgdir_look (upage_lt hv), ht, Option.map_some, wp_load,
      wp_ite, wp_throw, wp_pure, hpte]
    refine ⟨fun hp => ?_, fun hp => ⟨.none (if_neg fun hc => hp hc.2), hn⟩⟩
    have hg : Vm.frame s.page d v = some (pteAddr (Vm.pte s.page d v)) := if_pos ⟨hv, hp⟩
    generalize pteAddr (Vm.pte s.page d v) = g at hg
    have hin := hpool g hg
    have hgt : g ≠ t := frame_ne_table hn (udir_lt hv) hg ht
    refine ⟨fun hzero => absurd hzero hin.ne_zero, fun _ => ?_⟩
    simp only [kfree, wp_bind, wp_ite, wp_throw, wp_setPage, wp_modify, wp_store]
    refine ⟨fun hc => ?_, fun _ => Cleared.one hn hv ht hg ?_ rfl rfl rfl rfl⟩
    · rcases hc with hc | hc
      · exact absurd hin.1 (not_le_of_gt hc)
      · exact absurd hin.2 (not_lt_of_ge hc)
    · rw [stored, Function.update_of_ne hgt.symm, Function.update_comm hgt.symm]

/-- **All pages of a range**, by induction over the pages. -/
theorem wp_deallocPages (hn : (owned s.page d).Nodup) (hend : v + n ≤ UPAGES)
    (hpool : ∀ g ∈ frames s.page d v (v + n), L.Pool g) :
    wp (deallocPages L d n v) (fun _ s' => Cleared d v (v + n) s s') E s := by
  induction n generalizing v s with
  | zero =>
    have hnil : frames s.page d v (v + 0) = [] := by
      rw [frames, Nat.add_zero, Nat.sub_self]
      rfl
    refine ⟨by rw [hnil]; rfl, fun _ => rfl, fun u _ => (if_neg ?_).symm, fun _ _ _ => rfl, rfl, rfl,
      rfl⟩
    omega
  | succ n ih =>
    rw [deallocPages, wp_bind]
    refine wp_conseq (wp_deallocPage hn (by omega) fun g hg =>
      hpool g (mem_frames.mpr ⟨v, le_rfl, by omega, hg⟩)) fun _ s₁ ⟨h₁, hn₁⟩ => ?_
    rw [show v + (n + 1) = v + 1 + n by omega] at hpool hend ⊢
    refine wp_conseq (ih hn₁ hend fun g hg => hpool g ?_) fun _ s' h' =>
      h₁.trans h' (Nat.le_succ v) (Nat.le_add_right _ n)
    rw [frames_append (Nat.le_succ v) (Nat.le_add_right _ n), List.mem_append,
      ← frames_congr fun u hu _ => h₁.frame (.inr hu)]
    exact .inr hg

end

end

/-! ## 3. `deallocuvm` -/

/-- `deallocuvm` with the loop that visits every page. -/
def deallocuvmSlow (L : Layout) (pgdir oldsz newsz : Nat) : VmM Nat := do
  if oldsz ≤ newsz then
    return oldsz
  else do
    deallocPages L pgdir (npages oldsz - npages newsz) (npages newsz)
    return newsz

section

variable {L : Layout} {d oldsz newsz : Nat} {s : Phys}

theorem deallocuvm_eq (hold : oldsz ≤ KERNBASE) :
    deallocuvm L d oldsz newsz s = deallocuvmSlow L d oldsz newsz s := by
  refine wp_ext fun Q E => ?_
  simp only [deallocuvm, deallocuvmSlow, wp_ite, wp_bind, wp_pure]
  refine and_congr_right fun _ => forall_congr' fun hgt => ?_
  rw [pgRoundUp_eq (by omega)]
  refine wp_deallocuvmLoop_iff hold ?_
  have hlast := npages_le hold
  rw [show NPAGES = VPAGES by decide]
  simp only [UPAGES, VPAGES] at *
  omega

end

/-- **`deallocuvm` is exact.**  It does what a loop that visits every page does, whatever the memory
looks like, and it ends.  If no page has two uses in the address space, and the frames of the range
are pages for `kfree`, it returns with these pages cleared. -/
theorem deallocuvm_exact (L : Layout) (d oldsz newsz : Nat) (s : Phys) (hlt : newsz < oldsz)
    (hold : oldsz ≤ KERNBASE) :
    deallocuvm L d oldsz newsz s = deallocuvmSlow L d oldsz newsz s ∧
    deallocuvm L d oldsz newsz s ≠ .error .endless ∧
    ((owned s.page d).Nodup → (∀ g ∈ frames s.page d (npages newsz) (npages oldsz), L.Pool g) →
      ∃ s', deallocuvm L d oldsz newsz s = .ok (newsz, s') ∧
        Cleared d (npages newsz) (npages oldsz) s s') := by
  have hlast := npages_le hold
  have hsum : npages newsz + (npages oldsz - npages newsz) = npages oldsz :=
    Nat.add_sub_cancel' (npages_mono hlt.le)
  have hslow : deallocuvmSlow L d oldsz newsz = do
      deallocPages L d (npages oldsz - npages newsz) (npages newsz)
      return newsz := if_neg (not_le.mpr hlt)
  rw [deallocuvm_eq hold, hslow]
  refine ⟨rfl, fun hrun => ?_, fun hn hpool => ?_⟩
  · have hstops := wp_deallocPages_stops (L := L) (d := d) (s := s)
      (n := npages oldsz - npages newsz) (v := npages newsz) (by rw [hsum]; exact hlast.trans (by decide))
    have hwp : wp (do
        deallocPages L d (npages oldsz - npages newsz) (npages newsz)
        return newsz) (fun _ _ => True) (· = .kfree) s := by
      rw [wp_bind]
      exact hstops
    cases wp_of_error hwp hrun
  · rw [← hsum] at hpool
    have hclear := wp_deallocPages (E := fun _ => False) hn (hsum.le.trans hlast) hpool
    obtain ⟨r, s', hrun, rfl, hs'⟩ := wp_returns (m := do
        deallocPages L d (npages oldsz - npages newsz) (npages newsz)
        return newsz) (Q := fun r s' => r = newsz ∧ Cleared d (npages newsz) (npages oldsz) s s') (by
      rw [wp_bind]
      refine wp_conseq hclear fun _ s' h => ⟨rfl, ?_⟩
      rwa [hsum] at h)
    exact ⟨s', hrun, hs'⟩

/-- The entry of page 0 holds the address of a page that belongs to the kernel. -/
def kernelFrame : Phys := { onePage with page := stored oneTable 301 0 (1 * PGSIZE ||| PTE_PWU) }

theorem kernelFrame_entries : table kernelFrame.page 300 0 = some 301 ∧
    ∀ u, u < VPAGES → pte kernelFrame.page 300 u = if u = 0 then 1 * PGSIZE ||| PTE_PWU else
      pte oneTable 300 u := by
  obtain ⟨howned, -, htable⟩ := oneTable_owned
  have hnodup : (owned oneTable 300).Nodup := by
    rw [howned]
    decide
  have hv : 0 < VPAGES := by decide
  exact ⟨(stored_table hnodup hv htable 0).trans htable, fun u hu =>
    stored_pte hnodup hv htable (by decide) hu⟩

/-- A frame that belongs to the kernel stops `kfree`. -/
theorem deallocuvm_refused {L : Layout} {d t : Nat} {s : Phys} (ht : table s.page d 0 = some t)
    (hp : hasFlag (getWord (s.page t) 0) PTE_P = true) (hlt : pteAddr (getWord (s.page t) 0) < L.kend) :
    deallocuvm L d PGSIZE 0 s = .error .kfree := by
  rw [deallocuvm_eq (by decide)]
  refine wp_error ?_
  have hv : 0 < VPAGES := by decide
  have hdir : table s.page d (0 / NPTENTRIES) = some t := by rw [Nat.zero_div, ht]
  have hone : npages PGSIZE = 1 := by decide
  simp only [deallocuvmSlow, hone, npages_zero, Nat.sub_zero, deallocPages, deallocPage, wp_bind,
    wp_ite, wp_pure, wp_walkpgdir_look hv, hdir, Option.map_some, Nat.zero_mod, wp_load, wp_throw,
    kfree, hp]
  refine ⟨fun hle => absurd hle (by decide), fun _ => ⟨fun _ => ⟨fun _ => trivial, fun _ =>
    ⟨fun _ => trivial, fun hc => absurd (Or.inl hlt) hc⟩⟩, fun hc => hc trivial⟩⟩

/-- Its address is not 0, but `kfree` does not take it. -/
theorem deallocuvm_kernelFrame : (∀ v g, frame kernelFrame.page 300 v = some g → g ≠ 0) ∧
    deallocuvm smallLayout 300 PGSIZE 0 kernelFrame = .error .kfree := by
  obtain ⟨-, hspace, -⟩ := oneTable_owned
  obtain ⟨htable, hpte⟩ := kernelFrame_entries
  constructor
  · intro v g hg
    have hv := frame_lt hg
    obtain ⟨-, -, -, hp, haddr⟩ := frame_walk hg
    rw [hpte v (upage_lt hv)] at hp haddr
    split at hp
    next hzero =>
      rw [if_pos hzero] at haddr
      rw [← haddr]
      decide
    next =>
      have hnone : frame oneTable 300 v = none := by
        rw [← user_eq_none, hspace]
        rfl
      rw [frame, if_pos ⟨hv, hp⟩] at hnone
      cases hnone
  · have hword : getWord (kernelFrame.page 301) 0 = 1 * PGSIZE ||| PTE_PWU :=
      (Radix.leaf_of_table (N := NPTENTRIES) (v := 0) htable).symm.trans (hpte 0 (by decide))
    refine deallocuvm_refused htable ?_ ?_
    · rw [hword]
      decide
    · rw [hword]
      decide

theorem deallocuvm_exact_onePage : ∃ s', deallocuvm smallLayout 300 PGSIZE 0 onePage = .ok (0, s') ∧
    s'.freelist = [302] := by
  have hframes : frames onePage.page 300 (npages 0) (npages PGSIZE) = [302] := by
    rw [npages_zero, show npages PGSIZE = 0 + 1 by decide, frames_one, onePage_frame.1]
    rfl
  obtain ⟨s', hrun, hs'⟩ := (deallocuvm_exact smallLayout 300 PGSIZE 0 onePage (by decide)
    (by decide)).2.2 (by rw [onePage_owned]; decide) (by
      rw [hframes]
      exact List.forall_mem_singleton.mpr ⟨by decide, by decide⟩)
  refine ⟨s', hrun, ?_⟩
  rw [hs'.freelist, hframes]
  rfl

end Xv6.Vm
