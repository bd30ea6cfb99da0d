/-
# The inode cache and the view

What happens to the view when an inode is referenced, loaded, changed, allocated or freed.
References, locks and loading leave the files alone: the cached copy of an inode is the inode
on disk.  `ialloc` makes a free file one of a type and nothing else, and the end of the last
`iput` of a file without links makes it free.
-/
import Xv6.Fs.Content

namespace Xv6.Fs

open Function (update update_of_ne update_self)

/-! ## 1. States with the same inodes -/

section

variable {s s' : FileSys}

/-- Ownership and the files depend on the current inodes and on the data blocks, and on the bits
of the blocks that there are. -/
theorem Good.of_blocks (h : Good s) (hsb : s'.sb = s.sb)
    (hbit : ∀ b, b < s.sb.size → s'.bitmap b = s.bitmap b)
    (hdata : ∀ b, s.sb.datastart ≤ b → s'.data b = s.data b)
    (hcur : ∀ i, i < s.sb.ninodes → s'.cur i = s.cur i) (hcoh : Coherent s') :
    Good s' ∧ s'.view = s.view := by
  have hal : ∀ i, Alloc s' i ↔ Alloc s i := fun i => by
    unfold Alloc
    rw [hsb]
    exact and_congr_right fun hi => by rw [hcur i hi]
  have hslot : ∀ i m, Alloc s i → slot s'.data (s.cur i) m = slot s.data (s.cur i) m := by
    intro i m hi
    refine slot_congr m fun h0 => hdata _ ?_
    have hind : slot s.data (s.cur i) NDIRECT = _ := slot_le (Nat.le_refl _)
    rw [← hind] at h0 ⊢
    exact (h.own.toBase.slot_used hi h0).1
  have hplace : ∀ l, s'.place l = s.place l := by
    rintro ⟨i, m⟩
    by_cases hi : Alloc s i
    · rw [place_of_alloc ((hal i).mpr hi), place_of_alloc hi, hcur i hi.1, hslot i m hi]
    · rw [place_of_not_alloc fun hc => hi ((hal i).mp hc), place_of_not_alloc hi]
  refine ⟨⟨⟨h.own.toBase.congr hsb hbit hplace, fun i hi ht => ?_⟩, hcoh⟩, ?_⟩
  · simp only [hcur i ((hal i).mp hi).1] at ht ⊢
    have hb := h.own.shape i ((hal i).mp hi) ht
    refine ⟨fun bn => ?_, hb.indirect⟩
    rw [← hb.block bn]
    exact not_congr (Eq.congr_left (hslot i _ ((hal i).mp hi)))
  · funext i
    by_cases hi : Alloc s i
    · have hbyte : byteAt s'.data (s.cur i) = byteAt s.data (s.cur i) := funext fun k =>
        byteAt_congr (hslot i _ hi) fun h0 => hdata _ (h.own.toBase.slot_used hi h0).1
      rw [view_of_alloc ((hal i).mpr hi), view_of_alloc hi, hcur i hi.1]
      simp only [fileOf, hbyte]
    · rw [view_of_not_alloc fun hc => hi ((hal i).mp hc), view_of_not_alloc hi]

/-- When the disk and the current inodes are the same, so are ownership and the files. -/
theorem Good.of_cur (h : Good s) (hsb : s'.sb = s.sb) (hbit : s'.bitmap = s.bitmap)
    (hdata : s'.data = s.data) (hcur : ∀ i, s'.cur i = s.cur i) (hcoh : Coherent s') :
    Good s' ∧ s'.view = s.view :=
  h.of_blocks hsb (fun _ _ => by rw [hbit]) (fun _ _ => by rw [hdata]) (fun i _ => hcur i) hcoh

end

/-! ## 2. References -/

/-- The state after `iget(inum)`. -/
def FileSys.got (s : FileSys) (inum : Nat) : FileSys :=
  { s with
    ref := Function.update s.ref inum (s.ref inum + 1)
    valid := if s.ref inum = 0 then Function.update s.valid inum false else s.valid
    used := if s.ref inum = 0 then inum :: s.used else s.used }

/-- The state after `ip->ref--`. -/
def FileSys.dropped (s : FileSys) (ip : Nat) : FileSys :=
  { s with
    ref := Function.update s.ref ip (s.ref ip - 1)
    used := if s.ref ip - 1 = 0 then s.used.erase ip else s.used }

/-- The state with the lock of `ip` set. -/
def FileSys.setLock (s : FileSys) (ip : Nat) (p : Option Pid) : FileSys :=
  { s with lock := Function.update s.lock ip p }

/-- The state after `ilock` has read the inode. -/
def FileSys.loaded (s : FileSys) (ip : Nat) : FileSys :=
  if s.valid ip then s
  else { s with
    inode := Function.update s.inode ip (s.dinode ip)
    valid := Function.update s.valid ip true }

section

variable {s : FileSys} {i : Nat}

theorem wp_iget {Q : Unit → FileSys → Prop} {E : Panic → Prop} (hQ : Q () (s.got i))
    (hE : s.ref i = 0 → NINODE ≤ s.used.length → E .igetNoInodes) : wp (iget i) Q E s := by
  simp only [iget, wp_bind, wp_get, wp_ite, wp_set, wp_throw]
  unfold FileSys.got at hQ
  refine ⟨fun hpos => ?_, fun h0 => ⟨hE (by omega), fun _ => ?_⟩⟩
  · rwa [if_neg (by omega), if_neg (by omega)] at hQ
  · rw [if_pos (by omega), if_pos (by omega), show s.ref i + 1 = 1 by omega] at hQ
    exact hQ

theorem got_valid {j : Nat} (h : (s.got i).valid j = true) : s.valid j = true := by
  unfold FileSys.got at h
  by_cases h0 : s.ref i = 0
  · simp only [if_pos h0] at h
    by_cases e : j = i
    · subst e
      simp at h
    · rwa [update_of_ne e] at h
  · simpa only [if_neg h0] using h

/-- Taking a reference leaves the files alone. -/
theorem Good.got (h : Good s) (i : Nat) : Good (s.got i) ∧ (s.got i).view = s.view := by
  have hcoh : Coherent (s.got i) := fun j hj => h.coherent j (got_valid hj)
  exact h.of_cur rfl rfl rfl (fun j => by rw [hcoh.cur, h.coherent.cur]; rfl) hcoh

theorem Good.setRef (h : Good s) (ref : Nat → Nat) :
    Good { s with ref := ref } ∧ ({ s with ref := ref } : FileSys).view = s.view :=
  h.of_cur rfl rfl rfl (fun _ => rfl) h.coherent

theorem Good.dropped (h : Good s) (i : Nat) :
    Good (s.dropped i) ∧ (s.dropped i).view = s.view :=
  h.of_cur rfl rfl rfl (fun _ => rfl) h.coherent

theorem Good.setLock (h : Good s) (i : Nat) (p : Option Pid) :
    Good (s.setLock i p) ∧ (s.setLock i p).view = s.view :=
  h.of_cur rfl rfl rfl (fun _ => rfl) h.coherent

theorem Good.outstanding (h : Good s) (n : Nat) (lh : List Nat) :
    Good { s with outstanding := n, lh := lh } ∧
      ({ s with outstanding := n, lh := lh } : FileSys).view = s.view :=
  h.of_cur rfl rfl rfl (fun _ => rfl) h.coherent

/-- Reading an allocated inode into the cache leaves the files alone. -/
theorem Good.loaded (h : Good s) (ha : Alloc s i) :
    Good (s.loaded i) ∧ (s.loaded i).view = s.view := by
  unfold FileSys.loaded
  cases hv : s.valid i with
  | true =>
    rw [if_pos rfl]
    exact ⟨h, rfl⟩
  | false =>
    rw [if_neg (by simp)]
    have hcoh : Coherent { s with
        inode := update s.inode i (s.dinode i)
        valid := update s.valid i true } := by
      intro j hj
      by_cases e : j = i
      · subst e
        refine ⟨ha.1, by simp, ?_⟩
        have := ha.2
        rw [h.coherent.cur] at this
        simpa using this
      · simp only [update_of_ne e] at hj ⊢
        exact h.coherent j hj
    exact h.of_cur rfl rfl rfl (fun j => by rw [hcoh.cur, h.coherent.cur]) hcoh

theorem loaded_valid_self : (s.loaded i).valid i = true := by
  unfold FileSys.loaded
  split
  · assumption
  · simp

theorem loaded_valid_of_ne {j : Nat} (h : j ≠ i) : (s.loaded i).valid j = s.valid j := by
  unfold FileSys.loaded
  split
  · rfl
  · exact update_of_ne h _ _

theorem loaded_inode (h : s.valid i = false) : (s.loaded i).inode i = s.dinode i := by
  unfold FileSys.loaded
  rw [if_neg (by simp [h])]
  exact update_self ..

@[simp] theorem loaded_data : (s.loaded i).data = s.data := by
  unfold FileSys.loaded; split <;> rfl

@[simp] theorem loaded_dinode : (s.loaded i).dinode = s.dinode := by
  unfold FileSys.loaded; split <;> rfl

@[simp] theorem loaded_bitmap : (s.loaded i).bitmap = s.bitmap := by
  unfold FileSys.loaded; split <;> rfl

@[simp] theorem loaded_lh : (s.loaded i).lh = s.lh := by unfold FileSys.loaded; split <;> rfl

@[simp] theorem loaded_ref : (s.loaded i).ref = s.ref := by unfold FileSys.loaded; split <;> rfl

@[simp] theorem loaded_lock : (s.loaded i).lock = s.lock := by unfold FileSys.loaded; split <;> rfl

@[simp] theorem loaded_used : (s.loaded i).used = s.used := by unfold FileSys.loaded; split <;> rfl

@[simp] theorem loaded_sb : (s.loaded i).sb = s.sb := by unfold FileSys.loaded; split <;> rfl

@[simp] theorem loaded_outstanding : (s.loaded i).outstanding = s.outstanding := by
  unfold FileSys.loaded; split <;> rfl

end

/-! ## 3. Changes of one inode -/

section

variable {s : FileSys} {ip : Nat}

/-- An inode that is changed in the cache and on disk, and keeps its blocks. -/
theorem Good.setBoth (h : Good s) (hv : s.valid ip = true) {d : Dinode}
    (hsize : d.size = (s.inode ip).size) (haddrs : d.addrs = (s.inode ip).addrs)
    (htype : d.type = (s.inode ip).type) (lh : List Nat) :
    Updated s { s with
      inode := update s.inode ip d
      dinode := update s.dinode ip d
      lh := lh } ip (fileOf s.data d) := by
  set u : FileSys := { s with
    inode := update s.inode ip d
    dinode := update s.dinode ip d
    lh := lh } with hu
  have hip : u.cur ip = d := by
    rw [cur_of_valid (s := u) hv]
    exact update_self ..
  have hsip := cur_of_valid hv
  have hcur : ∀ i, i ≠ ip → u.cur i = s.cur i := fun i hi => by
    simp only [FileSys.cur, hu, update_of_ne hi]
  have hal : ∀ i, Alloc u i ↔ Alloc s i := by
    intro i
    unfold Alloc
    by_cases e : i = ip
    · rw [e, hip, hsip, htype]
    · rw [hcur i e]
  have hslot : ∀ m, slot u.data (u.cur ip) m = slot s.data (s.cur ip) m := fun m => by
    unfold slot
    rw [hip, hsip, haddrs]
  have hplace : ∀ l, u.place l = s.place l := by
    rintro ⟨i, m⟩
    by_cases hi : Alloc s i
    · rw [place_of_alloc ((hal i).mpr hi), place_of_alloc hi]
      by_cases e : i = ip
      · rw [e]
        exact hslot m
      · rw [hcur i e]
    · rw [place_of_not_alloc fun hc => hi ((hal i).mp hc), place_of_not_alloc hi]
  refine ⟨⟨⟨h.own.toBase.congr rfl (fun _ _ => rfl) hplace, fun i hi ht => ?_⟩, fun i hi => ?_⟩,
    ⟨rfl, rfl, rfl, rfl, rfl, rfl, rfl⟩, ?_⟩
  · have hb := h.own.shape i ((hal i).mp hi)
    by_cases e : i = ip
    · subst e
      simp only [hip, hsip] at ht hb ⊢
      rw [htype] at ht
      refine ⟨fun bn => ?_, by rw [haddrs, hsize]; exact (hb ht).indirect⟩
      rw [hsize, ← (hb ht).block bn]
      have := hslot (slotOf bn)
      rw [hip, hsip] at this
      exact not_congr (Eq.congr_left this)
    · simp only [hcur i e] at ht ⊢
      exact hb ht
  · have := h.coherent i hi
    by_cases e : i = ip
    · subst e
      exact ⟨this.1, by simp [hu], by simp only [hu, update_self, htype]; exact this.2.2⟩
    · simpa only [hu, update_of_ne e] using this
  · funext i
    by_cases e : i = ip
    · subst e
      rw [update_self, view_of_alloc ((hal i).mpr (h.coherent.alloc hv)), hip]
    · rw [update_of_ne e]
      by_cases hi : Alloc s i
      · rw [view_of_alloc ((hal i).mpr hi), view_of_alloc hi, hcur i e]
      · rw [view_of_not_alloc fun hc => hi ((hal i).mp hc), view_of_not_alloc hi]

/-- Assignments to `*ip` other than to its type, size and blocks, and `iupdate(ip)`. -/
theorem wp_setInode_iupdate (h : Good s) (hv : s.valid ip = true) {f : Dinode → Dinode}
    (hsize : ∀ d, (f d).size = d.size) (haddrs : ∀ d, (f d).addrs = d.addrs)
    (htype : ∀ d, (f d).type = d.type) {Q : Unit → FileSys → Prop} {E : Panic → Prop}
    (hQ : ∀ s', Updated s s' ip (fileOf s.data (f (s.inode ip))) → Q () s')
    (hE : ∀ e, Limit e → E e) : wp (do setInode ip f; iupdate ip) Q E s := by
  simp only [wp_bind, wp_setInode, iupdate, wp_get, wp_set, update_self]
  exact wp_logWrite (fun lh => hQ _ (h.setBoth hv (hsize _) (haddrs _) (htype _) lh)) hE

/-- A free inode that becomes one of a type, without blocks. -/
theorem Good.newInode (h : Good s) {n : Nat} (hn : n < s.sb.ninodes) (h0 : (s.dinode n).type = 0)
    {d : Dinode} (ht : d.type ≠ 0) (hsize : d.size = 0) (haddrs : d.addrs = fun _ => 0)
    (lh : List Nat) :
    Good { s with dinode := update s.dinode n d, lh := lh } ∧
      ({ s with dinode := update s.dinode n d, lh := lh } : FileSys).view =
        update s.view n (fileOf s.data d) := by
  have hv : s.valid n = false := by
    by_contra hc
    obtain ⟨-, e, hne⟩ := h.coherent n (by simpa using hc)
    exact hne (by rw [e, h0])
  have hna : ¬ Alloc s n := fun ha => ha.2 (by rw [cur_of_not_valid hv, h0])
  set u : FileSys := { s with dinode := update s.dinode n d, lh := lh } with hu
  have hn' : u.cur n = d := by
    rw [cur_of_not_valid (s := u) hv]
    exact update_self ..
  have hcur : ∀ i, i ≠ n → u.cur i = s.cur i := fun i hi => by
    simp only [FileSys.cur, hu, update_of_ne hi]
  have hal : ∀ i, i ≠ n → (Alloc u i ↔ Alloc s i) := fun i hi => by
    unfold Alloc
    rw [hcur i hi]
  have haln : Alloc u n := ⟨hn, by rw [hn']; exact ht⟩
  have hslot : ∀ m, slot u.data (u.cur n) m = 0 := fun m => by
    rw [hn']
    simp [slot, haddrs]
  have hplace : ∀ l, u.place l = s.place l := by
    rintro ⟨i, m⟩
    by_cases e : i = n
    · subst e
      rw [place_of_alloc haln, place_of_not_alloc hna]
      exact hslot m
    · by_cases hi : Alloc s i
      · rw [place_of_alloc ((hal i e).mpr hi), place_of_alloc hi, hcur i e]
      · rw [place_of_not_alloc fun hc => hi ((hal i e).mp hc), place_of_not_alloc hi]
  refine ⟨⟨⟨h.own.toBase.congr rfl (fun _ _ => rfl) hplace, fun i hi hti => ?_⟩, fun i hi => ?_⟩, ?_⟩
  · by_cases e : i = n
    · subst e
      have hz : nblk (u.cur i).size = 0 := by
        rw [hn', hsize]
        decide
      simp only [hz]
      refine ⟨fun bn => ?_, ?_⟩
      · simp [blockOf, hslot]
      · rw [hn', haddrs]
        simp
    · simp only [hcur i e] at hti ⊢
      exact h.own.shape i ((hal i e).mp hi) hti
  · have hne : i ≠ n := by
      rintro rfl
      rw [show u.valid i = s.valid i from rfl, hv] at hi
      exact Bool.noConfusion hi
    have := h.coherent i hi
    simpa only [hu, update_of_ne hne] using this
  · funext i
    by_cases e : i = n
    · subst e
      rw [update_self, view_of_alloc haln, hn']
    · rw [update_of_ne e]
      by_cases hi : Alloc s i
      · rw [view_of_alloc ((hal i e).mpr hi), view_of_alloc hi, hcur i e]
      · rw [view_of_not_alloc fun hc => hi ((hal i e).mp hc), view_of_not_alloc hi]

/-- The state after `ialloc` has chosen inode `n`, before its `iget`. -/
def FileSys.allocated (s : FileSys) (n : Nat) (type : Int) (lh : List Nat) : FileSys :=
  { s with dinode := Function.update s.dinode n { Dinode.zero with type := type }, lh := lh }

theorem Good.allocated (h : Good s) {n : Nat} {type : Int} (hn : n < s.sb.ninodes)
    (h0 : (s.dinode n).type = 0) (ht : type ≠ 0) (lh : List Nat) :
    Good (s.allocated n type lh) ∧
      (s.allocated n type lh).view =
        update s.view n { File.free with type := type } := by
  have hfile : fileOf s.data { Dinode.zero with type := type } =
      { File.free with type := type } := by
    simp [fileOf, Dinode.zero, File.free]
  rw [← hfile]
  exact h.newInode hn h0 ht rfl rfl lh

/-- `ialloc` gives a free inode the type, and takes a reference to it. -/
theorem wp_ialloc (h : Good s) {type : Int} (ht : type ≠ 0) {Q : Nat → FileSys → Prop}
    {E : Panic → Prop}
    (hQ : ∀ n t, n ≠ 0 → n < s.sb.ninodes → (s.view n).type = 0 → Good t → Frame s t →
      t.view = update s.view n { File.free with type := type } → Q n (t.got n))
    (hE : ∀ e, Limit e → E e) : wp (ialloc type) Q E s := by
  simp only [ialloc, wp_bind, wp_get]
  cases hf : (List.range' 1 (s.sb.ninodes - 1)).find? fun i => (s.dinode i).type = 0 with
  | none =>
    simp only [wp_throw]
    exact hE _ rfl
  | some n =>
    have hmem := List.mem_of_find?_eq_some hf
    have h0 : (s.dinode n).type = 0 := by simpa using List.find?_some hf
    have hn : n ≠ 0 ∧ n < s.sb.ninodes := by
      rw [List.mem_range'_1] at hmem
      omega
    have hview : (s.view n).type = 0 := by
      by_contra hne
      exact (alloc_iff_view.mpr hne).2 (by rw [h.coherent.cur, h0])
    simp only [wp_bind, wp_set]
    refine wp_logWrite (fun lh => ?_) hE
    obtain ⟨hg, hv⟩ := h.allocated hn.2 h0 ht lh
    refine wp_iget ?_ fun _ _ => hE _ rfl
    rw [wp_pure]
    exact hQ n _ hn.1 hn.2 hview hg ⟨rfl, rfl, rfl, rfl, rfl, rfl, rfl⟩ hv

/-- The part of `iput` that frees an inode without links and other references. -/
def ifree (ip : Nat) : FsM Unit := do
  itrunc ip
  setInode ip fun d => { d with type := 0 }
  iupdate ip
  modify fun s => { s with valid := Function.update s.valid ip false }

/-- An inode on disk that is free and has no blocks. -/
def Dinode.Cleared (d : Dinode) : Prop :=
  d.type = 0 ∧ d.size = 0 ∧ ∀ m, m ≤ NDIRECT → d.addrs m = 0

/-- The inode is free afterwards, and no longer cached. -/
theorem wp_ifree (h : Good s) (hv : s.valid ip = true) {Q : Unit → FileSys → Prop}
    {E : Panic → Prop}
    (hQ : ∀ t, Good t → t.view = update s.view ip File.free →
      t.valid = update s.valid ip false → t.sb = s.sb → t.ref = s.ref →
      t.lock = s.lock → t.used = s.used → t.outstanding = s.outstanding → t.devsw = s.devsw →
      (t.dinode ip).Cleared → (t.dinode ip).nlink = (s.inode ip).nlink → Q () t)
    (hE : ∀ e, Limit e → E e) : wp (ifree ip) Q E s := by
  have ha := h.coherent.alloc hv
  unfold ifree
  rw [wp_bind]
  refine wp_itrunc h.own.toBase hv ha (fun t ht => ?_) hE
  simp only [wp_bind, wp_setInode, iupdate, wp_get, wp_set, update_self, wp_modify]
  refine wp_logWrite (fun lh => ?_) hE
  obtain ⟨addrs, hself⟩ := ht.self
  set u : FileSys := { t with
    inode := update t.inode ip { t.inode ip with type := 0 }
    dinode := update t.dinode ip { t.inode ip with type := 0 }
    valid := update t.valid ip false
    lh := lh } with hu
  have hvt : t.valid ip = true := by rw [ht.frame.valid]; exact hv
  have huv : u.valid ip = false := update_self ..
  have hip : u.cur ip = { t.inode ip with type := 0 } := by
    rw [cur_of_not_valid huv]
    exact update_self ..
  have hcur : ∀ i, i ≠ ip → u.cur i = t.cur i := fun i hi => by
    simp only [FileSys.cur, hu, update_of_ne hi]
  have hts : ∀ i, i ≠ ip → t.cur i = s.cur i := fun i hi => by
    simp only [FileSys.cur, ht.frame.valid, ht.other i hi, ht.dinode, update_of_ne hi]
  have hna : ¬ Alloc u ip := fun hc => hc.2 (by rw [hip])
  have hat : Alloc t ip := by
    refine ⟨by rw [ht.frame.sb]; exact ha.1, ?_⟩
    rw [cur_of_valid hvt, hself]
    have := ha.2
    rwa [cur_of_valid hv] at this
  have hal : ∀ i, i ≠ ip → (Alloc u i ↔ Alloc s i) := fun i hi => by
    unfold Alloc
    rw [hcur i hi, hts i hi, show u.sb = s.sb from ht.frame.sb]
  have hal' : ∀ i, i ≠ ip → (Alloc u i ↔ Alloc t i) := fun i hi => by
    unfold Alloc
    rw [hcur i hi]
  have hplace : ∀ l, u.place l = t.place l := by
    rintro ⟨i, m⟩
    by_cases e : i = ip
    · subst e
      rw [place_of_not_alloc hna, place_of_alloc hat, cur_of_valid hvt]
      exact (ht.blocks.slot_zero m).symm
    · by_cases hi : Alloc t i
      · rw [place_of_alloc ((hal' i e).mpr hi), place_of_alloc hi, hcur i e]
      · rw [place_of_not_alloc fun hc => hi ((hal' i e).mp hc), place_of_not_alloc hi]
  have hdisk : u.dinode ip = { t.inode ip with type := 0 } := update_self ..
  refine hQ u ⟨⟨ht.base.congr rfl (fun _ _ => rfl) hplace, fun i hi hti => ?_⟩, fun i hi => ?_⟩ ?_ ?_
    ht.frame.sb ht.frame.ref ht.frame.lock ht.frame.used ht.frame.outstanding ht.frame.devsw
    ⟨by rw [hdisk], by rw [hdisk, hself], fun m hm => ?_⟩ (by rw [hdisk, hself])
  · have hne : i ≠ ip := fun e => hna (e ▸ hi)
    simp only [hcur i hne, hts i hne, show u.data = s.data from ht.data] at hti ⊢
    exact h.own.shape i ((hal i hne).mp hi) hti
  · have hne : i ≠ ip := by
      rintro rfl
      rw [huv] at hi
      exact Bool.noConfusion hi
    have hi' : s.valid i = true := by
      simpa only [hu, update_of_ne hne, ht.frame.valid] using hi
    have := h.coherent i hi'
    simp only [hu, update_of_ne hne, ht.other i hne, ht.dinode, ht.frame.sb]
    exact this
  · funext i
    by_cases e : i = ip
    · subst e
      rw [update_self, view_of_not_alloc hna]
    · rw [update_of_ne e]
      by_cases hi : Alloc s i
      · rw [view_of_alloc ((hal i e).mpr hi), view_of_alloc hi, hcur i e, hts i e,
          show u.data = s.data from ht.data]
      · rw [view_of_not_alloc fun hc => hi ((hal i e).mp hc), view_of_not_alloc hi]
  · simp only [hu, ht.frame.valid]
  · have hzero := ht.blocks.slot_zero m
    rw [slot_le hm] at hzero
    rw [hdisk]
    exact hzero

end

end Xv6.Fs
