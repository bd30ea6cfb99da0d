/-
# How much of the log an operation takes

`Logs b m` says that the code `m` adds at most `b` blocks to the transaction, and that it stops
only when the disk is full, when it asks for a block behind the largest file, or when the log
has no room for `b` more blocks.  The judgment follows the program text, one rule for each way
to put programs together, and says nothing about what the code is for: it stands beside the
specifications of the other modules, and `wp_and` joins the two.

The count is of calls of `log_write`.  Absorption only makes it smaller.
-/
import Xv6.Fs.Inode

namespace Xv6.Fs

/-- How many blocks a transaction may have. -/
def FileSys.logRoom (s : FileSys) : Nat := min LOGSIZE (s.sb.nlog - 1)

/-- Where code that logs up to `b` blocks may stop. -/
def LogStop (s : FileSys) (b : Nat) (e : Panic) : Prop :=
  e = .outOfBlocks ∨ e = .bmapRange ∨ e = .tooBig ∧ s.logRoom < s.lh.length + b

/-- The transaction has grown by at most `b` blocks. -/
structure Logged (b : Nat) (s s' : FileSys) : Prop where
  outstanding : s'.outstanding = s.outstanding
  sb : s'.sb = s.sb
  lh : s'.lh.length ≤ s.lh.length + b

/-- Inside a transaction, `m` logs at most `b` blocks. -/
def Logs {α : Type} (b : Nat) (m : FsM α) : Prop :=
  ∀ s, 0 < s.outstanding → wp m (fun _ s' => Logged b s s') (LogStop s b) s

/-! ## 1. Rules -/

section

variable {α β : Type} {b c : Nat} {s s' t : FileSys}

theorem Logged.refl (s : FileSys) (b : Nat) : Logged b s s := ⟨rfl, rfl, by omega⟩

theorem Logged.trans (h : Logged b s s') (h' : Logged c s' t) : Logged (b + c) s t :=
  ⟨h'.outstanding.trans h.outstanding, h'.sb.trans h.sb, by have := h.lh; have := h'.lh; omega⟩

/-- A stop in the second part of a program. -/
theorem LogStop.after {e : Panic} (h : Logged b s s') (he : LogStop s' c e) :
    LogStop s (b + c) e := by
  refine he.imp id (Or.imp id fun ⟨htoo, hroom⟩ => ⟨htoo, ?_⟩)
  have hr : s'.logRoom = s.logRoom := by
    unfold FileSys.logRoom
    rw [h.sb]
  have := h.lh
  omega

namespace Logs

theorem pure (a : α) : Logs b (Pure.pure a : FsM α) := fun s _ => Logged.refl s b

theorem bind {m : FsM α} {f : α → FsM β} (hm : Logs b m) (hf : ∀ a, Logs c (f a)) :
    Logs (b + c) (m >>= f) := by
  intro s hs
  rw [wp_bind]
  refine wp_mono (hm s hs) (fun a s' hl => ?_) fun e he => ?_
  · refine wp_mono (hf a s' (hl.outstanding ▸ hs)) (fun _ t ht => hl.trans ht) fun e he => ?_
    exact he.after hl
  · exact he.imp id (Or.imp id fun ⟨htoo, hroom⟩ => ⟨htoo, by omega⟩)

theorem mono {m : FsM α} (hm : Logs b m) (h : b ≤ c) : Logs c m := fun s hs =>
  wp_mono (hm s hs) (fun _ _ hl => ⟨hl.outstanding, hl.sb, by have := hl.lh; omega⟩)
    fun _ he => he.imp id (Or.imp id fun ⟨htoo, hroom⟩ => ⟨htoo, by omega⟩)

/-- Code that begins by reading the state. -/
theorem get_bind {f : FileSys → FsM α} (hf : ∀ s, Logs b (f s)) :
    Logs b (MonadState.get >>= f) := fun s hs => hf s s hs

theorem ite {p : Prop} [Decidable p] {m n : FsM α} (hm : p → Logs b m) (hn : ¬ p → Logs b n) :
    Logs b (if p then m else n) := by
  by_cases h : p
  · rw [if_pos h]; exact hm h
  · rw [if_neg h]; exact hn h

/-- Code that does not touch the log. -/
theorem modify {f : FileSys → FileSys} (hout : ∀ s, (f s).outstanding = s.outstanding)
    (hsb : ∀ s, (f s).sb = s.sb) (hlh : ∀ s, (f s).lh = s.lh) : Logs b (modify f : FsM Unit) :=
  fun s _ => ⟨hout s, hsb s, by rw [hlh]; omega⟩

/-- Code that runs after a change of other parts of the state. -/
theorem frame {m : FsM α} (hm : Logs b m) (hs : 0 < s.outstanding)
    (ht : Logged 0 s t) : wp m (fun _ s' => Logged b s s') (LogStop s b) t := by
  refine wp_mono (hm t (ht.outstanding ▸ hs)) (fun _ s' h => ?_) fun e he => ?_
  · rw [← Nat.zero_add b]
    exact ht.trans h
  · rw [← Nat.zero_add b]
    exact he.after ht

end Logs

end

/-! ## 2. The code of the inode layer -/

theorem logs_logWrite (n : Nat) : Logs 1 (logWrite n) := by
  intro s hs
  simp only [logWrite, wp_bind, wp_get, wp_ite, wp_throw, wp_pure, wp_set]
  refine ⟨fun hfull => .inr (.inr ⟨rfl, ?_⟩), fun _ => ⟨fun hout => absurd hs (by omega), fun _ =>
    ⟨fun _ => Logged.refl s 1, fun _ => ⟨rfl, rfl, by simp⟩⟩⟩⟩
  unfold FileSys.logRoom
  omega

theorem logs_bzero (n : Nat) : Logs 1 (bzero n) := by
  refine Logs.bind (b := 0) (c := 1) (Logs.modify ?_ ?_ ?_) fun _ => logs_logWrite n <;>
    exact fun _ => rfl

theorem logs_balloc : Logs 2 balloc := by
  intro s hs
  simp only [balloc, wp_bind, wp_get]
  split
  · exact .inl rfl
  · next n _ =>
    have h : Logs 2 (do logWrite (s.sb.bblock n); bzero n; return n) :=
      Logs.bind (b := 1) (c := 1) (logs_logWrite _) fun _ =>
        Logs.bind (b := 1) (c := 0) (logs_bzero n) fun _ => Logs.pure n
    rw [wp_bind, wp_set]
    exact h.frame hs ⟨rfl, rfl, Nat.le_refl _⟩

theorem logs_setInode (ip : Nat) (f : Dinode → Dinode) : Logs 0 (setInode ip f) :=
  Logs.modify (fun _ => rfl) (fun _ => rfl) fun _ => rfl

theorem logs_iupdate (ip : Nat) : Logs 1 (iupdate ip) := by
  intro s hs
  simp only [iupdate, wp_bind, wp_get, wp_set]
  exact (logs_logWrite _).frame hs ⟨rfl, rfl, Nat.le_refl _⟩

/-- The second half of `bmap`: the indirect block is there. -/
theorem logs_bmapEntry (ip bn : Nat) : Logs 3 (do
    let s ← get
    let ind := (s.inode ip).addrs NDIRECT
    if Bytes.getWord (s.data ind) (bn - NDIRECT) = 0 then
      let addr ← balloc
      modify fun s => { s with
        data := Function.update s.data ind
          (Bytes.setWord (s.data ind) (bn - NDIRECT) addr) }
      logWrite ind
      return addr
    else return Bytes.getWord (s.data ind) (bn - NDIRECT)) := by
  refine Logs.get_bind fun s => Logs.ite (fun _ => ?_) fun _ => Logs.pure _
  refine Logs.bind (b := 2) (c := 1) logs_balloc fun a => ?_
  refine Logs.bind (b := 0) (c := 1) (Logs.modify ?_ ?_ ?_) fun _ =>
    Logs.bind (b := 1) (c := 0) (logs_logWrite _) fun _ => Logs.pure a
  all_goals exact fun _ => rfl

/-- At most an indirect block, a block, and the entry for it. -/
theorem logs_bmap (ip bn : Nat) : Logs 5 (bmap ip bn) := by
  unfold bmap
  refine Logs.get_bind fun s => Logs.ite (fun _ => Logs.ite (fun _ => ?_) fun _ => Logs.pure _)
    fun _ => Logs.ite (fun _ => ?_) fun _ s _ => .inr (.inl rfl)
  · exact Logs.bind (b := 2) (c := 3) logs_balloc fun a =>
      Logs.bind (b := 0) (c := 3) (logs_setInode ip _) fun _ => Logs.pure a
  · dsimp only
    refine Logs.ite (fun _ => ?_) fun _ => (logs_bmapEntry ip bn).mono (by decide)
    exact Logs.bind (b := 2) (c := 3) logs_balloc fun a =>
      Logs.bind (b := 0) (c := 3) (logs_setInode ip _) fun _ => logs_bmapEntry ip bn

/-- The loop of `writei` over `c` blocks. -/
theorem logs_writeLoop (ip : Nat) : ∀ (fuel off : Nat) (src : List UInt8) (c : Nat),
    (0 < src.length → off % BSIZE + src.length ≤ c * BSIZE) → Logs (6 * c) (writeLoop ip fuel off src)
  | 0, _, _, _, _ => Logs.pure _
  | fuel + 1, off, src, c, hc => by
    unfold writeLoop
    refine Logs.ite (fun _ => Logs.pure _) fun hlen => ?_
    have hmod := Nat.mod_lt off (show 0 < BSIZE by decide)
    obtain ⟨c, rfl⟩ : ∃ c', c = c' + 1 := by
      refine Nat.exists_eq_add_one.mpr (Nat.pos_of_ne_zero ?_)
      rintro rfl
      have := hc (by omega)
      omega
    have hrest : 0 < (src.drop (min src.length (BSIZE - off % BSIZE))).length →
        (off + min src.length (BSIZE - off % BSIZE)) % BSIZE +
          (src.drop (min src.length (BSIZE - off % BSIZE))).length ≤ c * BSIZE := by
      rw [List.length_drop]
      have := hc (by omega)
      simp only [BSIZE] at *
      omega
    rw [show 6 * (c + 1) = 5 + (0 + (1 + 6 * c)) by omega]
    refine (logs_bmap ip _).bind fun b => Logs.bind (Logs.modify ?_ ?_ ?_) fun _ =>
      (logs_logWrite b).bind fun _ => logs_writeLoop ip fuel _ _ c hrest
    all_goals exact fun _ => rfl

/-- `writei` to `c` blocks of a file. -/
theorem logs_writei {ip off c : Nat} {src : List UInt8}
    (hc : off % BSIZE + src.length ≤ c * BSIZE) {s : FileSys} (hs : 0 < s.outstanding)
    (ht : (s.inode ip).type ≠ T_DEV) :
    wp (writei ip src off) (fun _ s' => Logged (6 * c + 1) s s') (LogStop s (6 * c + 1)) s := by
  simp only [writei, wp_bind, wp_get, if_neg ht]
  have hbody : Logs (6 * c + 1) (do
      writeLoop ip src.length off src
      if 0 < src.length ∧ (s.inode ip).size < off + src.length then
        setInode ip fun d => { d with size := off + src.length }
        iupdate ip
      return (src.length : Int)) := by
    refine (logs_writeLoop ip _ _ _ c fun _ => hc).bind fun _ => ?_
    dsimp only
    refine Logs.ite (fun _ => ?_) fun _ => Logs.pure _
    exact Logs.bind (b := 0) (c := 1) (logs_setInode ip _) fun _ =>
      Logs.bind (b := 1) (c := 0) (logs_iupdate ip) fun _ => Logs.pure _
  split
  · exact Logged.refl s _
  · split
    · exact Logged.refl s _
    · exact hbody s hs

end Xv6.Fs
