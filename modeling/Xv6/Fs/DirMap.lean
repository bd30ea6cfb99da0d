/-
# A directory is a finite map

`dirlink` adds a name to a directory, and `sys_unlink` takes one away by clearing its entry.  Names
are compared up to DIRSIZ characters or a NUL, entries are used again in any order, and a directory
grows like a file.  Through all this a directory is a partial map from names to inode numbers.

The calls are made one after another, each in a transaction of its own and under the lock of the
directory.  A call stops when the disk, the inode cache or the directory is full.

`dirlink` of a name that is there gives back the inode it has found, with `iput`, which takes the
inode's lock.  When that inode is the directory itself, whose lock the caller has, it waits forever.
-/
import Xv6.Lib.Assoc
import Xv6.Fs.Entries
import Xv6.Fs.FileIo

namespace Xv6.Fs.DirMap

open Function (update update_eq_self update_idem update_of_ne update_self)
open Prog (bind_eq_bind wp_seq_bind wp_seq_ret)

open Bytes
/-! ## 1. The calls -/

/-- `sys_unlink` writes an empty entry. -/
def clearEntry (dp off : Nat) : FsM Unit := do
  let r ← writei dp (List.replicate DESIZE 0) off
  if r ≠ DESIZE then throw .unlinkWritei

/-- `dirlink` in a directory, as its callers do it. -/
def link (p : Pid) (dp : Nat) (name : List UInt8) (inum : Nat) : KProg Int := do
  atomic beginOp
  ilock dp
  let r ← dirlink dp name inum
  iunlock p dp
  atomic endOp
  return r

/-- The inode that was found is given back. -/
def giveBack : Option Nat → KProg Unit
  | some ip => iput ip
  | none => return ()

/-- Code under the lock of a directory that may return a referenced inode, which is given back once
the directory is unlocked. -/
def withEntry (p : Pid) (dp : Nat) (m : FsM (Option Nat)) : KProg (Option Nat) := do
  atomic beginOp
  ilock dp
  let r ← atomic m
  iunlock p dp
  giveBack r
  atomic endOp
  return r

/-- What `sys_unlink` does to the directory: the entry is found and cleared. -/
def eraseEntry (dp : Nat) (name : List UInt8) : FsM (Option Nat) := do
  match ← dirlookup dp name with
  | none => return none
  | some (ip, off) =>
    clearEntry dp off
    return some ip

def erase (p : Pid) (dp : Nat) (name : List UInt8) : KProg Int := do
  match ← withEntry p dp (eraseEntry dp name) with
  | none => return -1
  | some _ => return 0

/-- `dirlookup` in a directory: the inode number that it finds. -/
def lookup (p : Pid) (dp : Nat) (name : List UInt8) : KProg (Option Nat) :=
  withEntry p dp do
    let r ← dirlookup dp name
    return r.map Prod.fst

/-- What a name is compared by. -/
abbrev key (name : List UInt8) : List UInt8 := cstring DIRSIZ name

/-- The arguments that the callers of `dirlink` pass. -/
structure Legal (name : List UInt8) (inum : Nat) : Prop where
  nonempty : name ≠ []
  noSlash : slash ∉ name
  inum_ne : inum ≠ 0
  inum_lt : inum < 2 ^ 16

/-- Inode `dp` is a directory that somebody has a reference to. -/
def IsDir (k : Kern) (dp : Nat) : Prop := (k.fs.view dp).type = T_DIR ∧ 0 < k.fs.ref dp

/-- The runs from `k₀`, in which `dirlink` is never called with a name whose entry is the directory
itself; and the map of the numbers that were linked last, and not erased since. -/
inductive Run (dp : Nat) (k₀ : Kern) : Kern → (List UInt8 → Option Nat) → Prop
  | start : Run dp k₀ k₀ fun _ => none
  | link {k k' : Kern} {m : List UInt8 → Option Nat} {p : Pid} {name : List UInt8} {inum : Nat}
      {r : Int} : Run dp k₀ k m → Legal name inum → m (key name) ≠ some dp →
      (link p dp name inum).seq p k = .ok (r, k') →
      Run dp k₀ k' (if r = 0 then update m (key name) (some inum) else m)
  | erase {k k' : Kern} {m : List UInt8 → Option Nat} {p : Pid} {name : List UInt8} {r : Int} :
      Run dp k₀ k m → (erase p dp name).seq p k = .ok (r, k') →
      Run dp k₀ k' (if r = 0 then update m (key name) none else m)
  | lookup {k k' : Kern} {m : List UInt8 → Option Nat} {p : Pid} {name : List UInt8}
      {r : Option Nat} : Run dp k₀ k m → (lookup p dp name).seq p k = .ok (r, k') → Run dp k₀ k' m

/-! ## 2. The entries -/

/-- The directory is the map `m`. -/
structure IsMap (f : File) (m : List UInt8 → Option Nat) : Prop where
  whole : f.Whole
  assoc : Assoc (fun e : Nat × Dirent => key e.2.name) (fun e => e.2.inum) f.links m

section

variable {f : File} {m : List UInt8 → Option Nat} {name : List UInt8} {e : Nat × Dirent}

namespace IsMap

theorem of_lookup_none (h : IsMap f m) (hl : f.lookup name = none) : m (key name) = none :=
  h.assoc.eq_none.mpr fun e he hk => lookup_none.mp hl e he (namecmp_eq_zero.mpr hk.symm)

theorem of_lookup_some (h : IsMap f m) (hl : f.lookup name = some e) :
    m (key name) = some e.2.inum := by
  obtain ⟨he, hn⟩ := lookup_some hl
  rw [show key name = key e.2.name from namecmp_eq_zero.mp hn]
  exact h.assoc.of_mem he

theorem lookup_eq (h : IsMap f m) (name : List UInt8) :
    (f.lookup name).map (fun e => e.2.inum) = m (key name) := by
  cases hl : f.lookup name with
  | none => exact (h.of_lookup_none hl).symm
  | some e => exact (h.of_lookup_some hl).symm

theorem link (h : IsMap f m) {inum : Nat} (hl : f.lookup name = none) (h0 : inum ≠ 0)
    (hlt : inum < 2 ^ 16) : IsMap (f.link name inum) (update m (key name) (some inum)) := by
  have hsrc := Dirent.make_length name inum
  refine ⟨?_, ?_⟩
  · have hw := h.whole
    unfold File.link
    rcases freeOff_cases h.whole with ⟨k, hoff, -⟩ | ⟨k, hoff, -⟩ <;>
    · rw [hoff]
      simp only [File.Whole, File.write, hsrc, DESIZE] at hw ⊢
      omega
  · obtain ⟨off, hp⟩ : ∃ off, (f.link name inum).links.Perm _ := links_link h.whole h0 hlt
    have hkey : key (strncpy DIRSIZ name) = key name := cstring_strncpy DIRSIZ name
    have hnew := h.assoc.cons (x := (off, ⟨inum, strncpy DIRSIZ name⟩))
      (by rw [hkey]; exact h.of_lookup_none hl)
    simp only [hkey] at hnew
    exact hnew.perm hp

theorem clear (h : IsMap f m) (hl : f.lookup name = some e) :
    IsMap (f.clear e.1) (update m (key name) none) := by
  obtain ⟨he, hn⟩ := lookup_some hl
  have hsrc : (List.replicate DESIZE (0 : UInt8)).length = DESIZE := List.length_replicate
  refine ⟨?_, ?_⟩
  · have hw := h.whole
    obtain ⟨k, -, rfl⟩ := mem_entries.mp (mem_links.mp he).1
    simp only [File.Whole, File.clear, File.write, hsrc, DESIZE] at hw ⊢
    omega
  · rw [show key name = key e.2.name from namecmp_eq_zero.mp hn]
    exact (h.assoc.perm (links_clear he).symm).tail

end IsMap

end

/-! ## 3. The directory under its lock -/

section

variable {k : Kern} {p : Pid} {dp j off : Nat} {name src : List UInt8} {s₀ s : FileSys}

/-- A reference was taken and given back. -/
theorem held_got_dropped (h : Held s₀ p dp s) (hr : 0 < s₀.ref dp) (j : Nat) :
    Held s₀ p dp ((s.got j).dropped j) := by
  obtain ⟨hg, hv⟩ := h.good.got j
  obtain ⟨hg', hv'⟩ := hg.dropped j
  refine ⟨hg', (hv'.trans hv).trans h.view, ?_, h.lock, ?_, h.sb, h.outstanding, h.lh⟩
  · show (if s.ref j = 0 then update s.valid j false else s.valid) dp = true
    split
    · rename_i h0
      have hne : dp ≠ j := by
        rintro rfl
        rw [h.ref] at h0
        omega
      rw [update_of_ne hne, h.valid]
    · exact h.valid
  · show update (update s.ref j (s.ref j + 1)) j (update s.ref j (s.ref j + 1) j - 1) = s₀.ref
    rw [update_self, update_idem, Nat.add_sub_cancel, update_eq_self,
      h.ref]

/-- A reference that was just taken is not the last one to an inode that is loaded. -/
theorem not_last (s : FileSys) (j : Nat) :
    ¬ ((s.got j).valid j = true ∧ (s.got j).ref j = 1) := by
  rintro ⟨hv, hr⟩
  simp only [FileSys.got, update_self] at hr
  rw [FileSys.got, if_pos (by omega)] at hv
  simp at hv

/-- The state inside a transaction of its own. -/
abbrev begun (k : Kern) : FileSys := { k.fs with outstanding := k.fs.outstanding + 1 }

/-- **Code in a transaction and under the lock of a directory.** -/
theorem wp_bracket (h : Quiet k) (hd : IsDir k dp) {α : Type} {m : KProg α}
    {P : α → (Nat → File) → Prop} {E : Stop Panic Want → Prop}
    (hm : ∀ s, Held (begun k) p dp s → wp (m.seq p) (fun r k' =>
      (∃ t, Held (begun k) p dp t ∧ Frame t k'.fs) ∧ Good k'.fs ∧ P r k'.fs.view) E
      { k with fs := s }) :
    wp ((do
        atomic beginOp
        ilock dp
        let r ← m
        iunlock p dp
        atomic endOp
        return r : KProg α).seq p)
      (fun r k' => Quiet k' ∧ k'.fs.ref = k.fs.ref ∧ P r k'.fs.view) E k := by
  obtain ⟨hg, hv⟩ := h.begun
  have ha : Alloc (begun k) dp := by
    rw [alloc_iff_view, hv, hd.1]
    decide
  simp only [bind_eq_bind, wp_seq_bind, wp_atomic, beginOp, wp_modify]
  refine wp_ilock_free (k := { k with fs := begun k }) hg (h.unlocked dp) hd.2 ha fun s hs => ?_
  refine wp_conseq (hm s hs) fun r k' hpost => ?_
  obtain ⟨⟨t, ht, hf⟩, hg', hP⟩ := hpost
  refine wp_iunlock_held ht (h.unlocked dp) hd.2 hg' hf fun u hgu hvu hlu hru hsb hou _ => ?_
  simp only [endOp, wp_modify, pure, wp_seq_ret]
  obtain ⟨hq, hvq⟩ := h.ended k' hgu hlu hsb hou
  exact ⟨hq, hru, by rw [hvq, hvu]; exact hP⟩

/-- **Code that takes a reference to what it has found.** -/
theorem wp_withEntry (h : Quiet k) (hd : IsDir k dp) {m : FsM (Option Nat)}
    {P : Option Nat → (Nat → File) → Prop} {E : Panic → Prop}
    (hm : ∀ s, Held (begun k) p dp s → wp m (fun r s' => Good s' ∧ P r s'.view ∧
      match r with
      | none => Frame s s'
      | some j => Frame (s.got j) s') E s) :
    wp ((withEntry p dp m).seq p) (fun r k' => Quiet k' ∧ k'.fs.ref = k.fs.ref ∧ P r k'.fs.view)
      (fun x => ∃ e, x = .panic e ∧ E e) k := by
  obtain ⟨hg, hv⟩ := h.begun
  have ha : Alloc (begun k) dp := by
    rw [alloc_iff_view, hv, hd.1]
    decide
  simp only [withEntry, bind_eq_bind, wp_seq_bind, wp_atomic, beginOp, wp_modify]
  refine wp_ilock_free (k := { k with fs := begun k }) hg (h.unlocked dp) hd.2 ha fun s hs => ?_
  refine wp_mono (hm s hs) (fun r s' hpost => ?_) fun e he => ⟨e, rfl, he⟩
  obtain ⟨hg', hP, hf⟩ := hpost
  cases r with
  | none =>
    refine wp_iunlock_held (k := { k with fs := s' }) hs (h.unlocked dp) hd.2 hg' hf
      fun u hgu hvu hlu hru hsb hou _ => ?_
    simp only [giveBack, endOp, wp_modify, pure, wp_seq_ret]
    obtain ⟨hq, hvq⟩ := h.ended k hgu hlu hsb hou
    exact ⟨hq, hru, by rw [hvq, hvu]; exact hP⟩
  | some j =>
    have hlock : s'.lock = update k.fs.lock dp (some p) := hf.lock.trans hs.lock
    have href : s'.ref = update k.fs.ref j (k.fs.ref j + 1) := by
      rw [hf.ref, FileSys.got, hs.ref]
    refine wp_iunlock_release (k := { k with fs := s' }) (by rw [hlock, update_self]) ?_ ?_
    · rw [href]
      rcases eq_or_ne dp j with rfl | hne
      · rw [update_self]
        omega
      · rw [update_of_ne hne]
        exact hd.2
    obtain ⟨hgu, hvu⟩ := hg'.setLock dp none
    have hunlock : (s'.setLock dp none).lock = k.fs.lock := by
      show update s'.lock dp none = k.fs.lock
      rw [hlock, update_idem, ← h.unlocked dp, update_eq_self]
    refine wp_iput_kept (k := { k with fs := s'.setLock dp none }) ?_ ?_ ?_
    · rw [hunlock]
      exact h.unlocked j
    · rintro ⟨hvalid, -, hone⟩
      refine not_last s j ⟨?_, ?_⟩
      · rw [← hf.valid]
        exact hvalid
      · rw [← hf.ref]
        exact hone
    · simp only [endOp, wp_modify, pure, wp_seq_ret]
      obtain ⟨hgd, hvd⟩ := hgu.dropped j
      obtain ⟨hq, hvq⟩ := h.ended k hgd hunlock (hf.sb.trans hs.sb)
        (hf.outstanding.trans hs.outstanding)
      refine ⟨hq, ?_, by rw [hvq, hvd, hvu]; exact hP⟩
      show update s'.ref j (s'.ref j - 1) = k.fs.ref
      rw [href, update_self, update_idem, Nat.add_sub_cancel,
        update_eq_self]

/-! ## 4. The code under the lock -/

/-- A good state inside a transaction that has not logged anything, with the directory loaded. -/
structure Ready (dp : Nat) (s : FileSys) : Prop where
  good : Good s
  valid : s.valid dp = true
  isDir : (s.view dp).type = T_DIR
  whole : (s.view dp).Whole
  outstanding : 0 < s.outstanding
  lh : s.lh = []
  nlog : LOGSIZE ≤ s.sb.nlog

theorem ready_of_held (h : Quiet k) (hd : IsDir k dp) (hw : (k.fs.view dp).Whole)
    (hs : Held (begun k) p dp s) : Ready dp s := by
  have hv : s.view = k.fs.view := hs.view.trans h.begun.2
  exact ⟨hs.good, hs.valid, by rw [hv]; exact hd.1, by rw [hv]; exact hw,
    by rw [hs.outstanding]; exact Nat.succ_pos _, hs.lh.trans h.lh, by rw [hs.sb]; exact h.nlog⟩

theorem Ready.got (h : Ready dp s) (hr : 0 < s.ref dp) (j : Nat) : Ready dp (s.got j) := by
  obtain ⟨hg, hv⟩ := h.good.got j
  refine ⟨hg, ?_, by rw [hv]; exact h.isDir, by rw [hv]; exact h.whole, h.outstanding, h.lh, h.nlog⟩
  show (if s.ref j = 0 then update s.valid j false else s.valid) dp = true
  split
  · rename_i h0
    have hne : dp ≠ j := by
      rintro rfl
      omega
    rw [update_of_ne hne, h.valid]
  · exact h.valid

theorem Ready.not_dev (h : Ready dp s) : (s.inode dp).type ≠ T_DEV := by
  have htype : (s.view dp).type = (s.inode dp).type := by rw [h.good.view_eq h.valid]; rfl
  rw [← htype, h.isDir]
  decide

theorem Ready.size_le (h : Ready dp s) : (s.view dp).size ≤ MAXFILE * BSIZE := by
  have hsize : (s.view dp).size = (s.inode dp).size := by rw [h.good.view_eq h.valid]; rfl
  rw [hsize]
  exact (nblk_mul_ge _).trans
    (Nat.mul_le_mul_right BSIZE (h.good.hasBlocks h.valid h.not_dev).le_maxfile)

/-- An entry takes few blocks of the log. -/
theorem Ready.wp_writei_stop (h : Ready dp s) (hoff : off % DESIZE = 0)
    (hlen : src.length = DESIZE) : wp (writei dp src off) (fun _ _ => True)
      (fun e => e = .outOfBlocks ∨ e = .bmapRange) s := by
  have hc : off % BSIZE + src.length ≤ 1 * BSIZE := by
    rw [hlen]
    simp only [DESIZE, BSIZE] at hoff ⊢
    omega
  refine wp_mono (logs_writei hc h.outstanding h.not_dev) (fun _ _ _ => trivial) fun e he =>
    he.imp id fun he => he.resolve_right fun ⟨_, hfull⟩ => ?_
  have hnlog := h.nlog
  rw [h.lh, FileSys.logRoom] at hfull
  simp only [LOGSIZE, List.length_nil] at hfull hnlog
  omega

theorem Ready.wp_dirlookup (h : Ready dp s) {Q : Option (Nat × Nat) → FileSys → Prop}
    {E : Panic → Prop}
    (hfound : ∀ e, (s.view dp).lookup name = some e → Q (some (e.2.inum, e.1)) (s.got e.2.inum))
    (hnone : (s.view dp).lookup name = none → Q none s) (hfull : E .igetNoInodes) :
    wp (dirlookup dp name) Q E s :=
  Fs.wp_dirlookup h.good h.valid (fun e _ => hfound e) (fun _ => hnone)
    (fun hn => absurd h.isDir hn) (fun _ hw => absurd h.whole hw) fun _ _ _ => hfull

/-- An entry that is there is cleared. -/
theorem Ready.wp_clearEntry (h : Ready dp s) {e : Nat × Dirent} (he : e ∈ (s.view dp).links)
    {Q : Unit → FileSys → Prop} (hQ : ∀ s', Updated s s' dp ((s.view dp).clear e.1) → Q () s') :
    wp (clearEntry dp e.1) Q (fun e => e = .outOfBlocks) s := by
  obtain ⟨i, hi, rfl⟩ := mem_entries.mp (mem_links.mp he).1
  have hsrc : (List.replicate DESIZE (0 : UInt8)).length = DESIZE := List.length_replicate
  have hend : DESIZE * i + DESIZE ≤ (s.view dp).size := by
    simp only [DESIZE] at hi ⊢
    omega
  have hmax := h.size_le
  have hwrite : wp (writei dp (List.replicate DESIZE 0) (DESIZE * i))
      (fun r s' => r = DESIZE ∧ Updated s s' dp ((s.view dp).clear (DESIZE * i))) Limit s := by
    refine wp_writei h.good h.valid h.not_dev (fun hbad => ?_) (fun _ _ s' hu => ⟨?_, hu⟩)
      fun _ he => he
    · rw [hsrc] at hbad
      unfold add32 at hbad
      simp only [DESIZE, MAXFILE, BSIZE] at *
      omega
    · rw [hsrc]
  unfold clearEntry
  rw [wp_bind]
  refine wp_mono (wp_and hwrite (h.wp_writei_stop (by simp [DESIZE]) hsrc))
    (fun r s' ⟨⟨hr, hu⟩, _⟩ => ?_) fun e he => ?_
  · rw [if_neg (not_not.mpr hr), wp_pure]
    exact hQ s' hu
  · exact he.2.resolve_right fun e' => absurd he.1 (by rw [e']; exact Bool.false_ne_true)

/-- An entry is written. -/
theorem Ready.wp_dirlinkWrite (h : Ready dp s) {inum : Nat} {Q : Unit → FileSys → Prop}
    (hQ : ∀ s', Updated s s' dp ((s.view dp).link name inum) → Q () s') :
    wp (dirlinkWrite dp name inum) Q (fun e => e = .outOfBlocks ∨ e = .dirlink) s := by
  have hsrc := Dirent.make_length name inum
  have hwrite : ∀ off, off % DESIZE = 0 → wp (do
      let r ← writei dp (Dirent.make name inum) off
      if r ≠ DESIZE then throw Panic.dirlink) (fun _ _ => True)
      (fun e => e = .outOfBlocks ∨ e = .bmapRange ∨ e = .dirlink) s := by
    intro off hoff
    rw [wp_bind]
    refine wp_mono (h.wp_writei_stop hoff hsrc) (fun r s' _ => ?_) fun e he => he.imp id .inl
    rw [wp_ite]
    exact ⟨fun _ => .inr (.inr rfl), fun _ => trivial⟩
  have hstop : wp (dirlinkWrite dp name inum) (fun _ _ => True)
      (fun e => e = .outOfBlocks ∨ e = .bmapRange ∨ e = .dirlink) s := by
    simp only [dirlinkWrite, wp_bind, wp_get]
    refine wp_dirScan_zero h.good h.valid h.not_dev (fun _ hw => absurd h.whole hw)
      (fun e he => (wp_bind _ _ _ _ _).mp (hwrite e.1 ?_))
      fun he => (wp_bind _ _ _ _ _).mp (hwrite _ (Nat.mul_mod_right ..))
    obtain ⟨i, -, rfl⟩ := mem_entries.mp (List.mem_of_find?_eq_some he)
    exact Nat.mul_mod_right ..
  refine wp_mono (wp_and (Fs.wp_dirlinkWrite h.good h.valid h.isDir (E := fun e => Limit e ∨
    e = .dirlink) hQ (fun hw => absurd h.whole hw) (.inr rfl) fun _ he => .inl he) hstop)
    (fun _ _ hq => hq.1) fun e he => ?_
  rcases he.2 with h₁ | h₁ | h₁
  · exact .inl h₁
  · exact he.1.imp (fun hl => absurd hl (by rw [h₁]; exact Bool.false_ne_true)) id
  · exact .inr h₁

/-! ## 5. The calls -/

variable {m : List UInt8 → Option Nat} {inum : Nat}

/-- Where `dirlink` may stop: the disk, the inode cache or the directory is full. -/
def Full (x : Stop Panic Want) : Prop :=
  x = .panic .outOfBlocks ∨ x = .panic .igetNoInodes ∨ x = .panic .dirlink

theorem wp_link (h : Quiet k) (hd : IsDir k dp) (hm : IsMap (k.fs.view dp) m)
    (hself : m (key name) ≠ some dp) :
    wp ((link p dp name inum).seq p) (fun r k' => Quiet k' ∧ k'.fs.ref = k.fs.ref ∧
      (r = -1 ∧ m (key name) ≠ none ∧ k'.fs.view = k.fs.view ∨
        r = 0 ∧ (k.fs.view dp).lookup name = none ∧
          k'.fs.view = update k.fs.view dp ((k.fs.view dp).link name inum))) Full k := by
  refine wp_bracket h hd (P := fun r v => r = -1 ∧ m (key name) ≠ none ∧ v = k.fs.view ∨
    r = 0 ∧ (k.fs.view dp).lookup name = none ∧
      v = update k.fs.view dp ((k.fs.view dp).link name inum)) fun s hs => ?_
  have hv : s.view = k.fs.view := hs.view.trans h.begun.2
  have hr := ready_of_held h hd hm.whole hs
  simp only [dirlink, bind_eq_bind, wp_seq_bind, wp_atomic]
  refine hr.wp_dirlookup (fun e he => ?_) (fun hnone => ?_) (.inr (.inl rfl))
  · rw [hv] at he
    have hfound := hm.of_lookup_some he
    have hne : e.2.inum ≠ dp := fun e' => hself (by rw [hfound, e'])
    simp only [wp_seq_bind]
    refine wp_iput_kept (k := { k with fs := s.got e.2.inum }) ?_ (fun hc => ?_) ?_
    · show s.lock e.2.inum = none
      rw [hs.lock, update_of_ne hne]
      exact h.unlocked _
    · exact not_last s _ ⟨hc.1, hc.2.2⟩
    · have ht := held_got_dropped hs hd.2 e.2.inum
      have hthere : m (key name) ≠ none := by
        rw [hfound]
        exact Option.some_ne_none _
      refine ⟨⟨_, ht, Frame.refl _⟩, ht.good, .inl ⟨rfl, hthere, ?_⟩⟩
      exact ht.view.trans h.begun.2
  · simp only [wp_seq_bind, wp_atomic]
    refine wp_mono (hr.wp_dirlinkWrite fun s' hu => ?_) (fun _ _ hq => hq) fun e he => ?_
    · rw [hv] at hnone
      refine ⟨⟨s, hs, hu.frame⟩, hu.good, .inr ⟨rfl, hnone, ?_⟩⟩
      rw [hu.view, hv]
    · exact he.imp (congrArg _) fun he => .inr (congrArg _ he)

theorem wp_lookup (h : Quiet k) (hd : IsDir k dp) (hm : IsMap (k.fs.view dp) m) :
    wp ((lookup p dp name).seq p) (fun r k' => Quiet k' ∧ k'.fs.ref = k.fs.ref ∧
      r = m (key name) ∧ k'.fs.view = k.fs.view)
      (fun x => ∃ e, x = .panic e ∧ e = .igetNoInodes) k := by
  refine wp_withEntry h hd (P := fun r v => r = m (key name) ∧ v = k.fs.view) fun s hs => ?_
  have hv : s.view = k.fs.view := hs.view.trans h.begun.2
  have hr := ready_of_held h hd hm.whole hs
  rw [wp_bind]
  refine hr.wp_dirlookup (fun e he => ?_) (fun hnone => ?_) rfl
  · rw [hv] at he
    obtain ⟨hg, hvg⟩ := hs.good.got e.2.inum
    exact ⟨hg, ⟨(hm.of_lookup_some he).symm, hvg.trans hv⟩, Frame.refl _⟩
  · rw [hv] at hnone
    exact ⟨hs.good, ⟨(hm.of_lookup_none hnone).symm, hv⟩, Frame.refl _⟩

theorem wp_erase (h : Quiet k) (hd : IsDir k dp) (hm : IsMap (k.fs.view dp) m) :
    wp ((erase p dp name).seq p) (fun r k' => Quiet k' ∧ k'.fs.ref = k.fs.ref ∧
      (r = -1 ∧ m (key name) = none ∧ k'.fs.view = k.fs.view ∨
        r = 0 ∧ ∃ e, (k.fs.view dp).lookup name = some e ∧
          k'.fs.view = update k.fs.view dp ((k.fs.view dp).clear e.1)))
      (fun x => ∃ e, x = .panic e ∧ (e = .outOfBlocks ∨ e = .igetNoInodes)) k := by
  simp only [erase, bind_eq_bind, wp_seq_bind]
  refine wp_conseq (wp_withEntry h hd (P := fun r v =>
    r = none ∧ m (key name) = none ∧ v = k.fs.view ∨
      r.isSome ∧ ∃ e, (k.fs.view dp).lookup name = some e ∧
        v = update k.fs.view dp ((k.fs.view dp).clear e.1)) fun s hs => ?_)
    fun r k' hpost => ?_
  · have hv : s.view = k.fs.view := hs.view.trans h.begun.2
    have hr := ready_of_held h hd hm.whole hs
    simp only [eraseEntry, wp_bind]
    refine hr.wp_dirlookup (fun e he => ?_) (fun hnone => ?_) (.inr rfl)
    · have hr' := hr.got (by rw [hs.ref]; exact hd.2) e.2.inum
      obtain ⟨-, hvg⟩ := hs.good.got e.2.inum
      have hmem : e ∈ ((s.got e.2.inum).view dp).links := by
        rw [hvg]
        exact (lookup_some he).1
      simp only [wp_bind]
      refine wp_mono (hr'.wp_clearEntry hmem fun s' hu => ?_) (fun _ _ hq => hq) fun _ => .inl
      rw [hv] at he hvg
      exact ⟨hu.good, .inr ⟨rfl, e, he, by rw [hu.view, hvg]⟩, hu.frame⟩
    · rw [hv] at hnone
      exact ⟨hs.good, .inl ⟨rfl, hm.of_lookup_none hnone, hv⟩, Frame.refl _⟩
  · obtain ⟨hq, href, hP⟩ := hpost
    rcases hP with ⟨rfl, hP⟩ | ⟨hsome, hP⟩
    · exact ⟨hq, href, .inl ⟨rfl, hP⟩⟩
    · obtain ⟨ip, rfl⟩ := Option.isSome_iff_exists.mp hsome
      exact ⟨hq, href, .inr ⟨rfl, hP⟩⟩

/-! ## 6. Every run -/

theorem isMap_empty {f : File} (h : f.size = 0) : IsMap f fun _ => none := by
  refine ⟨by rw [File.Whole, h, Nat.zero_mod], ?_⟩
  have hl : f.links = [] := by rw [File.links, File.entries, h]; rfl
  rw [hl]
  exact .nil

/-- The directory is the map of what has happened. -/
theorem Run.isMap {k₀ : Kern} (hq : Quiet k₀) (hd : IsDir k₀ dp)
    (hempty : (k₀.fs.view dp).size = 0) (hrun : Run dp k₀ k m) :
    Quiet k ∧ IsDir k dp ∧ IsMap (k.fs.view dp) m := by
  -- a directory in which entries are written is still one
  have hdir : ∀ {k k' : Kern} {f : File}, IsDir k dp → f.type = T_DIR → k'.fs.ref = k.fs.ref →
      k'.fs.view = update k.fs.view dp f → IsDir k' dp ∧ k'.fs.view dp = f :=
    fun hd hf href hv => by
      have hf' := (congrFun hv dp).trans (update_self ..)
      exact ⟨⟨by rw [hf', hf], by rw [href]; exact hd.2⟩, hf'⟩
  have hsame : ∀ {k k' : Kern}, IsDir k dp → k'.fs.ref = k.fs.ref → k'.fs.view = k.fs.view →
      IsDir k' dp := fun hd href hv => ⟨by rw [hv]; exact hd.1, by rw [href]; exact hd.2⟩
  induction hrun with
  | start => exact ⟨hq, hd, isMap_empty hempty⟩
  | @link k k' m p name inum r _ hl hself hseq ih =>
    obtain ⟨hq, hd, hm⟩ := ih
    obtain ⟨hq', href, ⟨rfl, -, hv⟩ | ⟨rfl, hnone, hv⟩⟩ := wp_of_ok (wp_link hq hd hm hself) hseq
    · rw [if_neg (by decide)]
      exact ⟨hq', hsame hd href hv, by rw [hv]; exact hm⟩
    · rw [if_pos rfl]
      obtain ⟨hd', hf⟩ := hdir hd (show ((k.fs.view dp).link name inum).type = T_DIR from hd.1) href hv
      exact ⟨hq', hd', by rw [hf]; exact hm.link hnone hl.inum_ne hl.inum_lt⟩
  | @erase k k' m p name r _ hseq ih =>
    obtain ⟨hq, hd, hm⟩ := ih
    obtain ⟨hq', href, ⟨rfl, -, hv⟩ | ⟨rfl, e, he, hv⟩⟩ := wp_of_ok (wp_erase hq hd hm) hseq
    · rw [if_neg (by decide)]
      exact ⟨hq', hsame hd href hv, by rw [hv]; exact hm⟩
    · rw [if_pos rfl]
      obtain ⟨hd', hf⟩ := hdir hd (show ((k.fs.view dp).clear e.1).type = T_DIR from hd.1) href hv
      exact ⟨hq', hd', by rw [hf]; exact hm.clear he⟩
  | lookup _ hseq ih =>
    obtain ⟨hq, hd, hm⟩ := ih
    obtain ⟨hq', href, -, hv⟩ := wp_of_ok (wp_lookup hq hd hm) hseq
    exact ⟨hq', hsame hd href hv, by rw [hv]; exact hm⟩

/-- What `dirlookup` would find in a directory. -/
def Finds (f : File) (m : List UInt8 → Option Nat) : Prop :=
  ∀ name, (f.lookup name).map (fun e => e.2.inum) = m (key name)

/-- **A directory that is the finite map `m`**, in one state and for the calls from it. -/
structure FiniteMap (dp : Nat) (k : Kern) (m : List UInt8 → Option Nat) : Prop where
  whole : (k.fs.view dp).size % DESIZE = 0
  /-- No two live entries compare equal. -/
  distinct : (k.fs.view dp).links.Pairwise fun e e' => namecmp e.2.name e'.2.name ≠ 0
  /-- `dirlookup` finds the number linked under the name, or nothing. -/
  finds : ∀ p name, wp ((lookup p dp name).seq p)
    (fun r k' => r = m (key name) ∧ k'.fs.view = k.fs.view) Full k
  /-- `dirlink` fails exactly when the name is there, and then changes nothing; otherwise it
  links this name and leaves the others alone. -/
  links : ∀ p name inum, Legal name inum → m (key name) ≠ some dp →
    wp ((link p dp name inum).seq p) (fun r k' => (r = -1 ↔ m (key name) ≠ none) ∧
      (r = -1 → k'.fs.view = k.fs.view) ∧
      (r ≠ -1 → r = 0 ∧ Finds (k'.fs.view dp) (update m (key name) (some inum)))) Full k
  /-- Erasing a name leaves the others alone. -/
  erases : ∀ p name, wp ((erase p dp name).seq p) (fun r k' => (r = 0 ↔ m (key name) ≠ none) ∧
      Finds (k'.fs.view dp) (update m (key name) none)) Full k

/-- **A directory is a finite map**, after every run in which `dirlink` is not called with a name
whose entry is the directory itself. -/
theorem directory_is_map {k₀ : Kern} (hq : Quiet k₀) (hd : IsDir k₀ dp)
    (hempty : (k₀.fs.view dp).size = 0) (hrun : Run dp k₀ k m) : FiniteMap dp k m := by
  obtain ⟨hq, hd, hm⟩ := hrun.isMap hq hd hempty
  refine ⟨hm.whole, ?_, fun p name => ?_, fun p name inum hl hself => ?_, fun p name => ?_⟩
  · exact hm.assoc.distinct.imp fun hne hc => hne (namecmp_eq_zero.mp hc)
  · refine wp_mono (wp_lookup hq hd hm) (fun r k' hr => hr.2.2) ?_
    rintro _ ⟨e, rfl, rfl⟩
    exact .inr (.inl rfl)
  · refine wp_conseq (wp_link hq hd hm hself) ?_
    rintro r k' ⟨-, -, ⟨rfl, hsome, hv⟩ | ⟨rfl, hnone, hv⟩⟩
    · exact ⟨⟨fun _ => hsome, fun _ => rfl⟩, fun _ => hv, fun h => absurd rfl h⟩
    · refine ⟨⟨nofun, fun h => absurd (hm.of_lookup_none hnone) h⟩, nofun, fun _ => ⟨rfl, ?_⟩⟩
      rw [hv, Function.update_self]
      exact (hm.link hnone hl.inum_ne hl.inum_lt).lookup_eq
  · refine wp_mono (wp_erase hq hd hm) ?_ ?_
    · rintro r k' ⟨-, -, ⟨rfl, hnone, hv⟩ | ⟨rfl, e, he, hv⟩⟩
      · refine ⟨⟨nofun, fun h => absurd hnone h⟩, ?_⟩
        rw [hv, ← hnone, Function.update_eq_self]
        exact hm.lookup_eq
      · refine ⟨⟨fun _ => by rw [hm.of_lookup_some he]; nofun, fun _ => rfl⟩, ?_⟩
        rw [hv, Function.update_self]
        exact (hm.clear he).lookup_eq
    · rintro _ ⟨e, rfl, rfl | rfl⟩
      · exact .inl rfl
      · exact .inr (.inl rfl)

end

/-! ## 7. On the small disk -/

/-- Inode 2 of the small disk is an empty directory. -/
theorem exists_emptyDir : ∃ k, afterOp image (.ialloc T_DIR) = some k ∧ Quiet k ∧ IsDir k 2 ∧
    (k.fs.view 2).size = 0 := by
  have hcheck : (afterOp image (.ialloc T_DIR)).any (fun k => decide (k.fs.outstanding = 0 ∧
      k.fs.lh = [] ∧ LOGSIZE ≤ k.fs.sb.nlog ∧ (k.fs.view 2).type = T_DIR ∧ 0 < k.fs.ref 2 ∧
      (k.fs.view 2).size = 0)) = true := by decide +kernel
  obtain ⟨k, hk, hok⟩ := (Option.any_eq_true _ _).mp hcheck
  obtain ⟨ho, hlh, hn, ht, hr, hs⟩ := of_decide_eq_true hok
  have hrest : Rest k := (blockRun_afterOp .start
    (show BlockCall.Legal image (.ialloc T_DIR) from show T_DIR ≠ 0 by decide) hk).rest
    ⟨image_good, fun _ => rfl⟩
  exact ⟨k, hk, ⟨hrest, ho, hlh, hn⟩, ⟨ht, hr⟩, hs⟩

/-- What `dirlink` of process 0 in the directory leads to. -/
def linked (k : Kern) (name : List UInt8) (inum : Nat) : Except (Stop Panic Want) (Int × Kern) :=
  (link 0 2 name inum).seq 0 k

/-- `.` is linked, as `mkdir` does it. -/
theorem exists_dot : ∃ k₀ k m, linked k₀ dot 2 = .ok (0, k) ∧ Quiet k₀ ∧ IsDir k₀ 2 ∧
    (k₀.fs.view 2).size = 0 ∧ Run 2 k₀ k m ∧ m (key dot) = some 2 ∧
    linked k dot 2 = .error (.stuck ⟨.iput, 2⟩) := by
  obtain ⟨k₀, hk₀, hq, hd, hs⟩ := exists_emptyDir
  have hcheck : ((afterOp image (.ialloc T_DIR)).any fun k₀ =>
      passes (fun r k => r == 0 && stopsAt (.stuck ⟨.iput, 2⟩) (linked k dot 2)) (linked k₀ dot 2)) =
        true := by decide +kernel
  rw [hk₀, Option.any_some] at hcheck
  obtain ⟨r, k, hlink, hcheck⟩ := passes_iff.mp hcheck
  obtain ⟨hr, hstuck⟩ := Bool.and_eq_true_iff.mp hcheck
  obtain rfl := eq_of_beq hr
  have hlegal : Legal dot 2 := ⟨by decide, by decide, by decide, by decide⟩
  have hrun := Run.link (p := 0) (.start : Run 2 k₀ k₀ fun _ => none) hlegal (fun hc => by cases hc) hlink
  refine ⟨k₀, k, _, hlink, hq, hd, hs, hrun, ?_, stopsAt_iff.mp hstuck⟩
  rw [if_pos rfl, update_self]

/-- **A call of `dirlink` that does not return.**  The name is there, and is the directory. -/
theorem dirlink_self_stuck : ∃ k₀ k m, Quiet k₀ ∧ IsDir k₀ 2 ∧ (k₀.fs.view 2).size = 0 ∧
    Run 2 k₀ k m ∧ m (key dot) ≠ none ∧ Legal dot 2 ∧
    (link 0 2 dot 2).seq 0 k = .error (.stuck ⟨.iput, 2⟩) := by
  obtain ⟨k₀, k, m, -, hq, hd, hs, hrun, hm, hstuck⟩ := exists_dot
  exact ⟨k₀, k, m, hq, hd, hs, hrun, by rw [hm]; nofun,
    ⟨by decide, by decide, by decide, by decide⟩, hstuck⟩

/-- In the directory with `.`, the name is found. -/
theorem directory_is_map_dot : ∃ k₀ k m, Quiet k₀ ∧ IsDir k₀ 2 ∧ (k₀.fs.view 2).size = 0 ∧
    Run 2 k₀ k m ∧ m (key dot) = some 2 ∧ FiniteMap 2 k m := by
  obtain ⟨k₀, k, m, -, hq, hd, hs, hrun, hm, -⟩ := exists_dot
  exact ⟨k₀, k, m, hq, hd, hs, hrun, hm, directory_is_map hq hd hs hrun⟩

end Xv6.Fs.DirMap
