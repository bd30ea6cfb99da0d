/-
# Crash atomicity of the redo log

A commit passes through three kinds of disk.

* `Before`: the header still says `n = 0`, and no home block has been touched.  Only the log
  area differs from the disk the commit started on.
* `Committed`: the header describes the transaction and every log copy is in place.  The home
  blocks are in any mixture of old and new.
* `After`: the header says `n = 0` again and the home blocks are all new.

The header write moves from the first to the second and the erasing header write from the
second to the third, and each is ONE block write: that is the whole idea of the log.  So the
specification of each piece of `log.c` names the kinds of disk a power failure can leave
(its second postcondition), recovery is shown to map every kind to `Before` or `After` and to
leave only such kinds when it is itself cut, and `commit_crash_atomic` follows by induction on
the number of interrupted recoveries.
-/
import Mathlib.Data.List.GetD
import Xv6.Log.Disk

namespace Xv6.Log

open Function (update update_of_ne update_self)

/-! ## 1. Reading and writing blocks -/

/-- `bread` returns the view and changes neither the disk nor the view. -/
theorem wp_bread {b : Nat} {Q : Bytes → Machine → Prop} {E : Disk → Prop} {m : Machine}
    (h : ∀ m', m'.disk = m.disk → m'.view = m.view → m'.lh = m.lh → Q (m.view b) m') :
    wp (bread b) Q E m := by
  refine h _ rfl ?_ rfl
  funext x
  by_cases hx : x = b
  · subst hx
    simp [Machine.view]
  · simp [Machine.view, hx]

/-- `bwrite` is cut before the write, or changes the disk and the view at that block. -/
theorem wp_bwrite {b : Nat} {v : Bytes} {Q : PUnit → Machine → Prop} {E : Disk → Prop}
    {m : Machine} (hE : E m.disk)
    (h : ∀ m', m'.disk = update m.disk b v → m'.view = update m.view b v →
      m'.lh = m.lh → Q ⟨⟩ m') :
    wp (bwrite b v) Q E m := by
  unfold wp bwrite
  split
  · rename_i heq
    split at heq
    · simp at heq
    · simp only [Except.ok.injEq, Prod.mk.injEq] at heq
      obtain ⟨-, rfl⟩ := heq
      refine h _ rfl ?_ rfl
      funext x
      by_cases hx : x = b
      · subst hx
        simp [Machine.view]
      · simp [Machine.view, hx]
  · rename_i heq
    split at heq
    · simp only [Except.error.injEq] at heq
      exact heq ▸ hE
    · simp at heq

/-! ## 2. The header block reads back -/

theorem foldl_setWord_zero (lh : List Nat) (hb : Bytes) : ∀ n : Nat,
    ((List.range n).foldl (fun hb i => hb.setWord (1 + i) (lh.getD i 0)) hb).getWord 0
      = hb.getWord 0
  | 0 => by simp
  | n + 1 => by
    rw [List.range_succ, List.foldl_append, List.foldl_cons, List.foldl_nil,
      Bytes.getWord_setWord_ne (by omega)]
    exact foldl_setWord_zero lh hb n

theorem foldl_setWord_succ (lh : List Nat) (hb : Bytes) : ∀ (n i : Nat), i < n →
    ((List.range n).foldl (fun hb i => hb.setWord (1 + i) (lh.getD i 0)) hb).getWord (1 + i)
      = lh.getD i 0 % 2 ^ 32
  | 0, _, h => by omega
  | n + 1, i, h => by
    rw [List.range_succ, List.foldl_append, List.foldl_cons, List.foldl_nil]
    rcases Nat.lt_or_ge i n with hi | hi
    · rw [Bytes.getWord_setWord_ne (by omega)]
      exact foldl_setWord_succ lh hb n i hi
    · have : i = n := by omega
      subst this
      exact Bytes.getWord_setWord_self _ _ _

theorem setHeader_getWord_zero (buf : Bytes) (tx : Header) :
    (setHeader buf tx.block).getWord 0 = tx.block.length := by
  have hlen : tx.block.length ≤ 30 := tx.length_le
  rw [setHeader, foldl_setWord_zero, Bytes.getWord_setWord_self]
  exact Nat.mod_eq_of_lt (by omega)

/-- **What `write_head` writes, `read_head` reads.** -/
theorem getHeader_setHeader (buf : Bytes) (tx : Header) :
    getHeader (setHeader buf tx.block) = tx.block := by
  rw [getHeader, setHeader_getWord_zero]
  refine List.ext_getElem (by simp) fun i h₁ h₂ => ?_
  have hlt : tx.block[i] < 2 ^ 32 := tx.lt_two_pow _ (List.getElem_mem h₂)
  rw [List.getElem_map, List.getElem_range, setHeader, foldl_setWord_succ _ _ _ _ h₂,
    List.getD_eq_getElem _ _ h₂]
  exact Nat.mod_eq_of_lt hlt

theorem setHeader_nil (buf : Bytes) : (setHeader buf []).getWord 0 = 0 := by
  simp [setHeader, Bytes.getWord_setWord_self]

theorem getHeader_of_zero {buf : Bytes} (h : buf.getWord 0 = 0) : getHeader buf = [] := by
  simp [getHeader, h]

/-! ## 3. The three kinds of disk -/

section

variable (start size : Nat) (tx : Header) (old new : Disk)

/-- Blocks `start .. start + size - 1`: the header and the log copies. -/
def InLog (b : Nat) : Prop := start ≤ b ∧ b < start + size

/-- No home block touched yet. -/
structure Before (d : Disk) : Prop where
  head : (d start).getWord 0 = 0
  home : ∀ b, ¬ InLog start size b → d b = old b

/-- The transaction is in the log; home blocks are old or new. -/
structure Committed (d : Disk) : Prop where
  head : getHeader (d start) = tx.block
  copy : ∀ i, i < tx.block.length → d (start + i + 1) = new (tx.block.getD i 0)
  home : ∀ b, ¬ InLog start size b → b ∉ tx.block → d b = old b
  mixed : ∀ b ∈ tx.block, d b = old b ∨ d b = new b

/-- All home blocks of the transaction are new, and the log is empty. -/
structure After (d : Disk) : Prop where
  head : (d start).getWord 0 = 0
  home : ∀ b, ¬ InLog start size b → b ∉ tx.block → d b = old b
  done : ∀ b ∈ tx.block, d b = new b

/-- The transaction's blocks lie outside the log area, which has room for their copies. -/
structure Fits : Prop where
  room : tx.block.length + 1 ≤ size
  out : ∀ b ∈ tx.block, ¬ InLog start size b

end

section

variable {start size : Nat} {tx : Header} {old new : Disk}

theorem getD_mem {i : Nat} (h : i < tx.block.length) : tx.block.getD i 0 ∈ tx.block := by
  rw [List.getD_eq_getElem _ _ h]
  exact List.getElem_mem h

/-- A log copy's block is inside the log area and is not the header. -/
theorem Fits.inLog (hf : Fits start size tx) {i : Nat} (h : i < tx.block.length) :
    InLog start size (start + i + 1) :=
  ⟨by omega, by have := hf.room; omega⟩

theorem Fits.start_inLog (hf : Fits start size tx) : InLog start size start :=
  ⟨Nat.le_refl _, by have := hf.room; omega⟩

/-- `install_trans` can be stopped after some home blocks have been written: a home block
write keeps the disk `Committed`. -/
theorem Committed.install (hf : Fits start size tx) {d : Disk}
    (h : Committed start size tx old new d) {i : Nat} (hi : i < tx.block.length) :
    Committed start size tx old new
      (update d (tx.block.getD i 0) (d (start + i + 1))) := by
  have hmem := getD_mem hi
  have hout := hf.out _ hmem
  have hne : ∀ b, InLog start size b → b ≠ tx.block.getD i 0 := fun b hb e => hout (e ▸ hb)
  refine ⟨?_, ?_, ?_, ?_⟩
  · rw [update_of_ne (hne _ hf.start_inLog)]
    exact h.head
  · intro j hj
    rw [update_of_ne (hne _ (hf.inLog hj))]
    exact h.copy j hj
  · intro b hb hbt
    have hne' : b ≠ tx.block.getD i 0 := fun e => hbt (e ▸ hmem)
    rw [update_of_ne hne']
    exact h.home b hb hbt
  · intro b hb
    by_cases e : b = tx.block.getD i 0
    · rw [e, update_self, h.copy i hi]
      exact Or.inr rfl
    · rw [update_of_ne e]
      exact h.mixed b hb

/-! ## 4. The pieces of `log.c` -/

/-- Outside the transaction the cache agrees with the disk; the transaction's blocks are
cached with their new contents. -/
def Coherent (tx : Header) (new : Disk) (m : Machine) : Prop :=
  ∀ b, m.view b = if b ∈ tx.block then new b else m.disk b

theorem Coherent.update {m m' : Machine} {b : Nat} {v : Bytes} (h : Coherent tx new m)
    (hd : m'.disk = update m.disk b v) (hv : m'.view = update m.view b v)
    (hb : b ∈ tx.block → v = new b) : Coherent tx new m' := by
  intro x
  rw [hd, hv]
  by_cases hx : x = b
  · subst hx
    by_cases hm : x ∈ tx.block
    · simp [hm, hb hm]
    · simp [hm]
  · simp [hx, h x]

/-- The state of a commit with `j` log copies written. -/
structure Logging (start size : Nat) (tx : Header) (old new : Disk) (j : Nat) (m : Machine) :
    Prop where
  lh : m.lh = tx.block
  before : Before start size old m.disk
  copy : ∀ i, i < j → m.disk (start + i + 1) = new (tx.block.getD i 0)
  coh : Coherent tx new m

/-- `write_log` fills the log area and is harmless when cut. -/
theorem wp_writeLog (hf : Fits start size tx) {m : Machine}
    (h : Logging start size tx old new 0 m) :
    wp (writeLog start) (fun _ m' => Logging start size tx old new tx.block.length m')
      (Before start size old) m := by
  simp only [writeLog, wp_bind, wp_get]
  rw [h.lh]
  refine wp_forM_range (Logging start size tx old new) h fun i s hi hs => ?_
  have hmem := getD_mem hi
  simp only [wp_bind]
  refine wp_bread fun m₁ hd₁ hv₁ hl₁ => wp_bread fun m₂ hd₂ hv₂ hl₂ => ?_
  refine wp_bwrite (by rw [hd₂, hd₁]; exact hs.before) fun m₃ hd₃ hv₃ hl₃ => ?_
  rw [hd₂, hd₁] at hd₃
  rw [hv₂, hv₁] at hv₃
  have hval : m₁.view (tx.block.getD i 0) = new (tx.block.getD i 0) := by
    rw [hv₁, hs.coh, if_pos hmem]
  rw [hval] at hd₃
  rw [← hv₁, hval, hv₁] at hv₃
  have hin := hf.inLog hi
  refine ⟨by rw [hl₃, hl₂, hl₁, hs.lh], ⟨?_, ?_⟩, ?_, ?_⟩
  · rw [hd₃, update_of_ne (by omega)]
    exact hs.before.head
  · intro b hb
    have hne : b ≠ start + i + 1 := fun e => hb (e ▸ hin)
    rw [hd₃, update_of_ne hne]
    exact hs.before.home b hb
  · intro j hj
    rcases Nat.lt_or_ge j i with hji | hji
    · rw [hd₃, update_of_ne (by omega)]
      exact hs.copy j hji
    · have : j = i := by omega
      subst this
      rw [hd₃, update_self]
  · exact hs.coh.update hd₃ hv₃ fun hb => absurd hin (hf.out _ hb)

/-- `write_head` with the transaction in memory is the commit point. -/
theorem wp_writeHead_commit (hf : Fits start size tx) {m : Machine}
    (h : Logging start size tx old new tx.block.length m) :
    wp (writeHead start)
      (fun _ m' => m'.lh = tx.block ∧ Coherent tx new m' ∧
        Committed start size tx old new m'.disk)
      (Before start size old) m := by
  simp only [writeHead, wp_bind]
  refine wp_bread fun m₁ hd₁ hv₁ hl₁ => ?_
  simp only [wp_get]
  refine wp_bwrite (by rw [hd₁]; exact h.before) fun m₂ hd₂ hv₂ hl₂ => ?_
  rw [hd₁, hl₁, h.lh] at hd₂
  rw [hv₁, hl₁, h.lh] at hv₂
  refine ⟨by rw [hl₂, hl₁, h.lh], ?_, ⟨?_, ?_, ?_, ?_⟩⟩
  · exact h.coh.update hd₂ hv₂ fun hb => absurd hf.start_inLog (hf.out _ hb)
  · rw [hd₂, update_self, getHeader_setHeader]
  · intro i hi
    rw [hd₂, update_of_ne (by omega)]
    exact h.copy i hi
  · intro b hb _
    have hne : b ≠ start := fun e => hb (e ▸ hf.start_inLog)
    rw [hd₂, update_of_ne hne]
    exact h.before.home b hb
  · intro b hb
    have hne : b ≠ start := fun e => hf.out b hb (e ▸ hf.start_inLog)
    rw [hd₂, update_of_ne hne]
    exact Or.inl (h.before.home b (hf.out b hb))

/-- `install_trans` on a committed log writes every home block; cut anywhere, the log is
still committed.  Only the view of the log area matters, so the lemma serves `commit`, whose
cache holds the transaction, and recovery, whose cache is empty. -/
theorem wp_installTrans (hf : Fits start size tx) {m : Machine} (hl : m.lh = tx.block)
    (hc : Committed start size tx old new m.disk)
    (hv : ∀ b, InLog start size b → m.view b = m.disk b) :
    wp (installTrans start)
      (fun _ m' => Committed start size tx old new m'.disk ∧
        (∀ b ∈ tx.block, m'.disk b = new b) ∧ ∀ b, InLog start size b → m'.view b = m'.disk b)
      (Committed start size tx old new) m := by
  simp only [installTrans, wp_bind, wp_get]
  rw [hl]
  -- the invariant: a committed disk whose first `j` listed blocks are home
  let I : Nat → Machine → Prop := fun j s => Committed start size tx old new s.disk ∧
    (∀ i, i < j → s.disk (tx.block.getD i 0) = new (tx.block.getD i 0)) ∧
    ∀ b, InLog start size b → s.view b = s.disk b
  have hI0 : I 0 m := ⟨hc, fun i hi => absurd hi (Nat.not_lt_zero i), hv⟩
  have key := wp_forM_range (E := Committed start size tx old new) (n := tx.block.length)
    (f := fun tail => do
      let lbuf ← bread (start + tail + 1)
      let _dbuf ← bread (tx.block.getD tail 0)
      bwrite (tx.block.getD tail 0) lbuf) I hI0 ?_
  · refine wp_conseq key fun _ m' hm' => ⟨hm'.1, fun b hb => ?_, hm'.2.2⟩
    obtain ⟨i, hi, rfl⟩ := List.getElem_of_mem hb
    have := hm'.2.1 i hi
    rwa [List.getD_eq_getElem _ _ hi] at this
  · rintro i s hi ⟨hs, hdone, hsv⟩
    simp only [wp_bind]
    refine wp_bread fun m₁ hd₁ hv₁ hl₁ => wp_bread fun m₂ hd₂ hv₂ hl₂ => ?_
    refine wp_bwrite (by rw [hd₂, hd₁]; exact hs) fun m₃ hd₃ hv₃ hl₃ => ?_
    rw [hd₂, hd₁, hsv _ (hf.inLog hi)] at hd₃
    rw [hv₂, hv₁, hsv _ (hf.inLog hi)] at hv₃
    refine ⟨hd₃ ▸ hs.install hf hi, ?_, ?_⟩
    · intro j hj
      rw [hd₃]
      by_cases e : tx.block.getD j 0 = tx.block.getD i 0
      · rw [e, update_self, hs.copy i hi]
      · rw [update_of_ne e]
        exact hdone j (by
          rcases Nat.lt_or_ge j i with h | h
          · exact h
          · exact absurd (congrArg (tx.block.getD · 0) (by omega : j = i)) e)
    · intro b hb
      have hne : b ≠ tx.block.getD i 0 := fun e => hf.out _ (getD_mem hi) (e ▸ hb)
      rw [hd₃, hv₃, update_of_ne hne, update_of_ne hne]
      exact hsv b hb

/-- `write_head` with an empty header erases the transaction. -/
theorem wp_writeHead_clear {E : Disk → Prop} {m : Machine} (hl : m.lh = []) (hE : E m.disk) :
    wp (writeHead start)
      (fun _ m' => (m'.disk start).getWord 0 = 0 ∧ ∀ b, b ≠ start → m'.disk b = m.disk b) E m := by
  simp only [writeHead, wp_bind]
  refine wp_bread fun m₁ hd₁ hv₁ hl₁ => ?_
  simp only [wp_get]
  refine wp_bwrite (by rw [hd₁]; exact hE) fun m₂ hd₂ _ _ => ⟨?_, ?_⟩
  · rw [hd₂, hl₁, hl, update_self, setHeader_nil]
  · intro b hb
    rw [hd₂, update_of_ne hb, hd₁]

/-- Erasing a fully installed transaction gives an `After` disk. -/
theorem After.of_installed (hf : Fits start size tx) {d d' : Disk}
    (h : Committed start size tx old new d) (hdone : ∀ b ∈ tx.block, d b = new b)
    (hz : (d' start).getWord 0 = 0) (hd : ∀ b, b ≠ start → d' b = d b) :
    After start size tx old new d' := by
  have hs := hf.start_inLog
  refine ⟨hz, ?_, ?_⟩
  · intro b hb hbt
    rw [hd b (fun e => hb (e ▸ hs))]
    exact h.home b hb hbt
  · intro b hb
    rw [hd b (fun e => hf.out b hb (e ▸ hs))]
    exact hdone b hb

/-! ## 5. A commit and a recovery, each cut anywhere -/

/-- What a commit can leave on the disk. -/
def Recoverable (start size : Nat) (tx : Header) (old new : Disk) (d : Disk) : Prop :=
  Before start size old d ∨ Committed start size tx old new d ∨ After start size tx old new d

theorem wp_commit (hf : Fits start size tx) (hpos : 0 < tx.block.length) {m : Machine}
    (h : Logging start size tx old new 0 m) :
    wp (commit start) (fun _ m' => After start size tx old new m'.disk)
      (Recoverable start size tx old new) m := by
  simp only [commit, wp_bind, wp_get, wp_ite]
  refine ⟨fun _ => ?_, fun hn => absurd (h.lh ▸ hpos) hn⟩
  refine wp_mono (wp_writeLog hf h) (fun _ m₁ h₁ => ?_) fun _ hd => Or.inl hd
  refine wp_mono (wp_writeHead_commit hf h₁) (fun _ m₂ h₂ => ?_) fun _ hd => Or.inl hd
  have hview : ∀ b, InLog start size b → m₂.view b = m₂.disk b := fun b hb => by
    rw [h₂.2.1 b, if_neg (fun hbt => hf.out b hbt hb)]
  refine wp_mono (wp_installTrans hf h₂.1 h₂.2.2 hview) (fun _ m₃ h₃ => ?_)
    fun _ hd => Or.inr (Or.inl hd)
  simp only [clearHead, wp_modify]
  refine wp_mono (wp_writeHead_clear (E := Committed start size tx old new) rfl h₃.1)
    (fun _ m₄ h₄ => ?_) fun _ hd => Or.inr (Or.inl hd)
  exact After.of_installed hf h₃.1 h₃.2.1 h₄.1 h₄.2

theorem boot_view (d : Disk) (power : Nat) : (boot d power).view = d := rfl

/-- Recovery of an empty log: nothing is installed, and the header is written back. -/
theorem wp_recoverFromLog_empty {d : Disk} {power : Nat} (h : (d start).getWord 0 = 0) :
    wp (recoverFromLog start)
      (fun _ m' => (m'.disk start).getWord 0 = 0 ∧ ∀ b, b ≠ start → m'.disk b = d b)
      (fun d' => d' = d) (boot d power) := by
  simp only [recoverFromLog, readHead, wp_bind]
  refine wp_bread fun m₁ hd₁ hv₁ hl₁ => ?_
  simp only [wp_modify, installTrans, wp_bind, wp_get, boot_view, getHeader_of_zero h,
    List.length_nil, List.range_zero, List.forM_nil, wp_pure, clearHead]
  exact wp_conseq (wp_writeHead_clear rfl hd₁) fun _ m' hm' =>
    ⟨hm'.1, fun b hb => (hm'.2 b hb).trans (congrFun hd₁ b)⟩

/-- Recovery of a committed log finishes the transaction. -/
theorem wp_recoverFromLog_committed (hf : Fits start size tx) {d : Disk} {power : Nat}
    (h : Committed start size tx old new d) :
    wp (recoverFromLog start) (fun _ m' => After start size tx old new m'.disk)
      (Committed start size tx old new) (boot d power) := by
  simp only [recoverFromLog, readHead, wp_bind]
  refine wp_bread fun m₁ hd₁ hv₁ hl₁ => ?_
  simp only [wp_modify, boot_view, h.head]
  refine wp_conseq (wp_installTrans (m := { m₁ with lh := tx.block }) hf rfl (hd₁ ▸ h) ?_)
    fun _ m₂ h₂ => ?_
  · exact fun b _ => congrFun (hv₁.trans hd₁.symm) b
  · simp only [clearHead, wp_modify]
    refine wp_conseq (wp_writeHead_clear rfl h₂.1) fun _ m₃ h₃ => ?_
    exact After.of_installed hf h₂.1 h₂.2.1 h₃.1 h₃.2

theorem Before.of_eq_off_start (hf : Fits start size tx) {d d' : Disk}
    (h : Before start size old d) (hz : (d' start).getWord 0 = 0)
    (hd : ∀ b, b ≠ start → d' b = d b) : Before start size old d' :=
  ⟨hz, fun b hb => (hd b fun e => hb (e ▸ hf.start_inLog)).trans (h.home b hb)⟩

theorem After.of_eq_off_start (hf : Fits start size tx) {d d' : Disk}
    (h : After start size tx old new d) (hz : (d' start).getWord 0 = 0)
    (hd : ∀ b, b ≠ start → d' b = d b) : After start size tx old new d' :=
  ⟨hz, fun b hb hbt => (hd b fun e => hb (e ▸ hf.start_inLog)).trans (h.home b hb hbt),
    fun b hb => (hd b fun e => hf.out b hb (e ▸ hf.start_inLog)).trans (h.done b hb)⟩

/-- **Recovery, cut any number of times, ends all-old or all-new.** -/
theorem Recovers.outcome (hf : Fits start size tx) {d d' : Disk} (hr : Recovers start d d') :
    Recoverable start size tx old new d →
      Before start size old d' ∨ After start size tx old new d' := by
  induction hr with
  | done h =>
    rintro (hd | hd | hd)
    · have := wp_of_ok (wp_recoverFromLog_empty hd.head) h
      exact Or.inl (hd.of_eq_off_start hf this.1 this.2)
    · have := wp_of_ok (wp_recoverFromLog_committed hf hd) h
      exact Or.inr this
    · have := wp_of_ok (wp_recoverFromLog_empty hd.head) h
      exact Or.inr (hd.of_eq_off_start hf this.1 this.2)
  | again h _ ih =>
    rintro (hd | hd | hd)
    · exact ih (Or.inl (wp_of_error (wp_recoverFromLog_empty hd.head) h ▸ hd))
    · exact ih (Or.inr (Or.inl (wp_of_error (wp_recoverFromLog_committed hf hd) h)))
    · exact ih (Or.inr (Or.inr (wp_of_error (wp_recoverFromLog_empty hd.head) h ▸ hd)))

/-! ## 6. Recovery that is not cut completes -/

/-- `bread` uses no power. -/
theorem wp_bread_power {b : Nat} {Q : Bytes → Machine → Prop} {E : Disk → Prop} {m : Machine}
    (h : ∀ m', m'.lh = m.lh → m'.power = m.power → Q (m.view b) m') : wp (bread b) Q E m :=
  h _ rfl rfl

/-- With power left, `bwrite` goes through and uses one unit of it. -/
theorem wp_bwrite_power {b : Nat} {v : Bytes} {Q : PUnit → Machine → Prop} {E : Disk → Prop}
    {m : Machine} (hp : m.power ≠ 0)
    (h : ∀ m', m'.lh = m.lh → m'.power = m.power - 1 → Q ⟨⟩ m') : wp (bwrite b v) Q E m := by
  simp only [wp, bwrite, if_neg hp]
  exact h _ rfl rfl

theorem wp_installTrans_power {n k : Nat} {E : Disk → Prop} {m : Machine}
    (hn : m.lh.length = n) (hp : n + k ≤ m.power) :
    wp (installTrans start) (fun _ m' => k ≤ m'.power) E m := by
  simp only [installTrans, wp_bind, wp_get]
  rw [hn]
  refine wp_conseq (wp_forM_range (fun i s => n - i + k ≤ s.power) (by simpa using hp) ?_)
    fun _ m' hm' => by omega
  intro i s hi hs
  simp only [wp_bind]
  refine wp_bread_power fun m₁ _ h₁ => wp_bread_power fun m₂ _ h₂ => ?_
  exact wp_bwrite_power (by omega) fun m₃ _ h₃ => by omega

/-- **A recovery with power for the transaction and the header completes.** -/
theorem recoverFromLog_completes (start : Nat) (d : Disk) {power : Nat}
    (hp : (getHeader (d start)).length + 1 ≤ power) :
    ∃ m, recoverFromLog start (boot d power) = .ok (⟨⟩, m) := by
  have hw : wp (recoverFromLog start) (fun _ _ => True) (fun _ => False) (boot d power) := by
    simp only [recoverFromLog, readHead, wp_bind]
    refine wp_bread_power fun m₁ _ h₁ => ?_
    simp only [wp_modify, boot_view]
    refine wp_conseq (wp_installTrans_power (k := 1) rfl (hp.trans h₁.ge)) fun _ m₂ h₂ => ?_
    simp only [clearHead, wp_modify, writeHead, wp_bind]
    refine wp_bread_power fun m₃ _ h₃ => ?_
    simp only [wp_get]
    exact wp_bwrite_power (by rw [h₃]; exact Nat.pos_iff_ne_zero.mp h₂) fun _ _ _ => trivial
  cases h : recoverFromLog start (boot d power) with
  | ok p => exact ⟨p.2, rfl⟩
  | error e => exact (wp_of_error hw h).elim

/-! ## 7. The theorem -/

/-- **Crash atomicity.**  The on-disk header holds `n = 0`, the in-memory transaction `tx`
lists at least one block, all outside the log area and few enough for it, and their new
contents `new` are in the buffer cache, which otherwise agrees with the disk.  Cut `commit`
after any prefix of its writes (any `m.power`), cut the recovery after any prefix of its own
writes any number of times, and let it complete at last: the transaction's blocks are all
old or all new, no other block outside the log area has changed, and the header holds
`n = 0`. -/
theorem commit_crash_atomic {m : Machine} (hlh : m.lh = tx.block)
    (hpos : 1 ≤ tx.block.length) (hroom : tx.block.length ≤ size - 1)
    (hout : ∀ b ∈ tx.block, ¬ InLog start size b)
    (hhead : (m.disk start).getWord 0 = 0)
    (hnew : ∀ b ∈ tx.block, m.cache b = some (new b))
    (hclean : ∀ b, b ∉ tx.block → m.cache b = none ∨ m.cache b = some (m.disk b))
    {d₁ d₂ : Disk} (hcut : Leaves (commit start) m d₁) (hrec : Recovers start d₁ d₂) :
    ((∀ b ∈ tx.block, d₂ b = m.disk b) ∨ ∀ b ∈ tx.block, d₂ b = new b) ∧
      (∀ b, ¬ InLog start size b → b ∉ tx.block → d₂ b = m.disk b) ∧
      (d₂ start).getWord 0 = 0 := by
  have hf : Fits start size tx := ⟨by omega, hout⟩
  have hcoh : Coherent tx new m := by
    intro b
    by_cases hb : b ∈ tx.block
    · simp [Machine.view, hnew b hb, hb]
    · rcases hclean b hb with h | h <;> simp [Machine.view, h, hb]
  have hlog : Logging start size tx m.disk new 0 m :=
    ⟨hlh, ⟨hhead, fun _ _ => rfl⟩, fun i hi => absurd hi (Nat.not_lt_zero i), hcoh⟩
  have hd₁ : Recoverable start size tx m.disk new d₁ := by
    have hw := wp_commit hf hpos hlog
    rcases hcut with h | ⟨m', h, rfl⟩
    · exact wp_of_error hw h
    · have := wp_of_ok hw h
      exact Or.inr (Or.inr this)
  rcases hrec.outcome hf hd₁ with h | h
  · exact ⟨Or.inl fun b hb => h.home b (hout b hb), fun b hb _ => h.home b hb, h.head⟩
  · exact ⟨Or.inr h.done, h.home, h.head⟩

end

/-- A machine about to commit block 10, whose new contents are all ones, with power for the
log copy and the header write but not for the home block. -/
def cutMachine : Machine where
  disk := fun _ _ => 0
  cache := fun b => if b = 10 then some fun _ => 1 else none
  lh := [10]
  power := 2

/-- The cut leaves block 10 old on the disk with the transaction in the log (blocks 2 to 4);
one complete recovery makes it new. -/
theorem commit_crash_atomic_cut : ∃ d₁ d₂ : Disk,
    Leaves (commit 2) cutMachine d₁ ∧ Recovers 2 d₁ d₂ ∧
    ((∀ b ∈ [10], d₂ b = cutMachine.disk b) ∨ ∀ b ∈ [10], d₂ b = fun _ => 1) ∧
      (∀ b, ¬ InLog 2 3 b → b ∉ [10] → d₂ b = cutMachine.disk b) ∧
      (d₂ 2).getWord 0 = 0 := by
  obtain ⟨d₁, h₁⟩ : ∃ d₁, commit 2 cutMachine = .error d₁ := ⟨_, rfl⟩
  obtain ⟨m₂, h₂⟩ := recoverFromLog_completes 2 d₁ (Nat.le_refl _)
  refine ⟨d₁, m₂.disk, Or.inl h₁, Recovers.done h₂, ?_⟩
  refine @commit_crash_atomic 2 3 ⟨[10], by decide, by decide⟩ (fun _ _ => 1) cutMachine rfl
    (by decide) (by decide) ?_ ?_ ?_ ?_ _ _ (Or.inl h₁) (Recovers.done h₂)
  · intro b hb hin
    obtain rfl := List.mem_singleton.mp hb
    exact absurd hin.2 (by decide)
  · exact Bytes.getWord_zero 0
  · intro b hb
    obtain rfl := List.mem_singleton.mp hb
    rfl
  · intro b hb
    have hne : b ≠ 10 := fun e => hb (e ▸ List.mem_singleton.mpr rfl)
    exact Or.inl (if_neg hne)

end Xv6.Log
