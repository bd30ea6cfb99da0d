/-
# The buffer cache is coherent

Three invariants, each about its own part of the state.  `Linked`: the links go once through all
the buffers.  `Refs`: a buffer's reference count is the number of processes that hold its lock,
wait for it, or are about to give the reference back.  `Coherent`: the buffers, the flags and the
disk together stand for a plain map of blocks.

`Coherent` rests on `Refs` at one place only: a buffer that `bget` recycles has no references, so
nobody has it locked or waits for it.
-/
import Mathlib.Data.Fintype.Basic
import Xv6.Lib.Places
import Xv6.Bio.State

namespace Xv6.Bio

open Function (update update_idem update_of_ne update_self)

variable {P δ : Type} {s s' : State P δ} {m : Nat → δ}

/-! ## 1. The list -/

/-- The list contains each buffer exactly once. -/
def State.Linked (s : State P δ) : Prop :=
  ∃ l, s.links.Ring l ∧ l.Perm bufs

theorem foldl_pushFront : ∀ {bs l : List Slot} {L : Links Slot}, L.Ring l → (bs ++ l).Nodup →
    (bs.foldl Links.pushFront L).Ring (bs.reverse ++ l)
  | [], _, _, h, _ => h
  | b :: bs, l, L, h, hnd => by
    rw [List.cons_append, List.nodup_cons, List.mem_append, not_or] at hnd
    have hmid : (bs ++ b :: l).Nodup := by
      refine List.nodup_middle.mpr (List.nodup_cons.mpr ⟨?_, hnd.2⟩)
      simpa using hnd.1
    simpa using foldl_pushFront (h.pushFront hnd.1.2) hmid

theorem linked_start {zero : δ} {disk : Nat → δ} : (start P zero disk).Linked := by
  refine ⟨bufs.reverse, ?_, List.reverse_perm bufs⟩
  have h : (Links.mk (α := Slot) (fun _ => none) fun _ => none).Ring [] := Links.ring_nil rfl rfl
  have hr : (bufs.foldl Links.pushFront _).Ring (bufs.reverse ++ []) :=
    foldl_pushFront h (by simpa using nodup_bufs)
  rwa [List.append_nil] at hr

namespace State.Linked

theorem length_lt {l : List Slot} (h : l.Perm bufs) : l.length < NBUF + 1 := by
  rw [h.length_eq, length_bufs]
  exact Nat.lt_succ_self NBUF

/-- The first loop of `bget` finds a buffer of the block if there is one. -/
theorem scan_holds (h : s.Linked) {n : Nat} {r : Option Slot}
    (hr : Links.scan s.links.next (s.holds n) (NBUF + 1) (s.links.next none) = r) :
    (∀ b, r = some b → s.holds n b) ∧ (r = none → ∀ b, s.holds n b = false) := by
  obtain ⟨l, hl, hp⟩ := h
  rw [hl.scan_next (length_lt hp)] at hr
  refine ⟨fun b hb => List.find?_some (hr.trans hb), fun hn b => ?_⟩
  have := List.find?_eq_none.mp (hr.trans hn) b (hp.mem_iff.mpr (mem_bufs b))
  simpa using this

/-- The second loop finds an unused one. -/
theorem scan_unused (h : s.Linked) {b : Slot}
    (hr : Links.scan s.links.prev s.unused (NBUF + 1) (s.links.prev none) = some b) :
    s.unused b := by
  obtain ⟨l, hl, hp⟩ := h
  rw [hl.scan_prev (length_lt hp)] at hr
  exact List.find?_some hr

/-- `brelse` moves a buffer to the front. -/
theorem move (h : s.Linked) (b : Slot) : ∃ l, ((s.links.unlink b).pushFront b).Ring l ∧
    l.Perm bufs := by
  obtain ⟨l, hl, hp⟩ := h
  obtain ⟨l₁, l₂, rfl⟩ := List.append_of_mem (hp.mem_iff.mpr (mem_bufs b))
  have hb : b ∉ l₁ ++ l₂ := (List.nodup_cons.mp (List.nodup_middle.mp hl.nodup)).1
  exact ⟨_, hl.unlink.pushFront hb, List.perm_middle.symm.trans hp⟩

end State.Linked

/-! ## 2. What a step can do

One lemma for each critical section that searches or talks to the disk. -/

/-- `bget` finds the block, or recycles a buffer that nobody uses. -/
theorem bget_cases (h : s.Linked) {n : Nat} {b : Slot} (hb : s.bget n = some (b, s')) :
    (s.holds n b ∧ s' = s.setBuf b { s.buf b with refcnt := (s.buf b).refcnt + 1 }) ∨
    ((∀ c, s.holds n c = false) ∧ s.unused b ∧ s' = s.setBuf b { s.buf b with
        dev := ROOTDEV, blockno := n, valid := false, dirty := false, refcnt := 1 }) := by
  simp only [State.bget] at hb
  split at hb
  · rename_i c hc
    cases hb
    exact .inl ⟨(h.scan_holds hc).1 _ rfl, rfl⟩
  · rename_i hc
    split at hb
    · rename_i c hu
      cases hb
      exact .inr ⟨(h.scan_holds hc).2 rfl, h.scan_unused hu, rfl⟩
    · cases hb

/-- `bread` returns the buffer as it is, or reads a clean one from the disk. -/
theorem bread_cases {b : Slot} (hd : (s.buf b).dirty = true → (s.buf b).valid = true)
    (hb : s.bread b = some s') :
    ((s.buf b).valid = true ∧ s' = s) ∨
    ((s.buf b).valid = false ∧ s' = s.setBuf b { s.buf b with
        valid := true, data := s.disk (s.buf b).blockno }) := by
  simp only [State.bread, State.iderw] at hb
  cases hv : (s.buf b).valid with
  | true =>
    rw [hv, if_pos rfl] at hb
    exact .inl ⟨rfl, (Option.some.inj hb).symm⟩
  | false =>
    have hd : (s.buf b).dirty = false := by
      by_contra hne
      simp [hd (by simpa using hne)] at hv
    simp only [hv, hd, Bool.false_eq_true, false_and, if_false, Option.ite_none_left_eq_some,
      Option.some.injEq] at hb
    exact .inr ⟨rfl, by simp only [← hb.2, hd]⟩

/-- `bwrite` always writes to the disk. -/
theorem bwrite_cases {b : Slot} (hb : s.bwrite b = some s') :
    s' = { s.setBuf b { s.buf b with valid := true, dirty := false } with
      disk := update s.disk (s.buf b).blockno (s.buf b).data } := by
  simp only [State.bwrite, State.iderw, State.setDirty, State.setBuf, update_self,
    update_idem, not_true_eq_false, and_false, if_false, if_true,
    Option.ite_none_left_eq_some, Option.some.injEq] at hb
  exact hb.2.symm

/-- `brelse` drops a reference, and may move the buffer to the front. -/
theorem brelse_cases (s : State P δ) (b : Slot) : ∃ L,
    (L = s.links ∨ L = (s.links.unlink b).pushFront b) ∧
    s.brelse b =
      { s.setBuf b { s.buf b with refcnt := (s.buf b).refcnt - 1 } with links := L } := by
  by_cases h : (s.buf b).refcnt - 1 = 0
  · refine ⟨_, .inr rfl, ?_⟩
    simp [State.brelse, State.setBuf, h]
  · refine ⟨_, .inl rfl, ?_⟩
    simp [State.brelse, State.setBuf, h]

/-! ## 3. Reference counts -/

/-- The buffer a process has a reference to without holding its lock. -/
def Pc.uses : Pc → Option Slot
  | .wait b _ | .rel b => some b
  | .idle | .got _ _ => none

section

variable [Fintype P]

def users (pc : P → Pc) (b : Slot) : Nat :=
  (Finset.univ.filter fun p => (pc p).uses = some b).card

/-- Every reference is held by a process. -/
def State.Refs (s : State P δ) : Prop :=
  ∀ b, (s.buf b).refcnt = (s.lock b).elim 0 (fun _ => 1) + users s.pc b

theorem users_pos {pc : P → Pc} {p : P} {b : Slot} (h : (pc p).uses = some b) : 0 < users pc b :=
  Finset.card_pos.mpr ⟨p, Finset.mem_filter.mpr ⟨Finset.mem_univ p, h⟩⟩

namespace State.Refs

/-- Nobody has anything to do with a buffer without references. -/
theorem free (h : s.Refs) {b : Slot} (hb : (s.buf b).refcnt = 0) :
    s.lock b = none ∧ ∀ p, (s.pc p).uses ≠ some b := by
  have hr := h b
  rw [hb] at hr
  refine ⟨?_, fun p hp => ?_⟩
  · cases hl : s.lock b with
    | none => rfl
    | some p => simp only [hl, Option.elim_some] at hr; omega
  · have := users_pos hp
    omega

theorem start {zero : δ} {disk : Nat → δ} : (start P zero disk).Refs := by
  intro b
  simp [users, Bio.start, Pc.uses]

/-- Neither the counts nor the locks nor the processes change. -/
theorem congr (h : s.Refs) (hb : ∀ b, (s'.buf b).refcnt = (s.buf b).refcnt)
    (hl : s'.lock = s.lock) (hpc : s'.pc = s.pc) : s'.Refs := by
  intro b
  rw [hb, hl, hpc, h b]

variable [DecidableEq P]

/-- One process moves. -/
theorem users_update (pc : P → Pc) (p : P) (x : Pc) (b : Slot) :
    users (update pc p x) b + (if (pc p).uses = some b then 1 else 0) =
      users pc b + if x.uses = some b then 1 else 0 := by
  simp only [users, Finset.card_filter]
  exact sum_update (fun x : Pc => if x.uses = some b then 1 else 0) pc (Finset.mem_univ p) x

/-- The count of a buffer follows the one process that moves. -/
theorem move (h : s.Refs) {p : P} {x : Pc} (hpc : s'.pc = update s.pc p x)
    (hb : ∀ b, (s'.buf b).refcnt + (if (s.pc p).uses = some b then 1 else 0) +
        (s.lock b).elim 0 (fun _ => 1) =
      (s.buf b).refcnt + (if x.uses = some b then 1 else 0) +
        (s'.lock b).elim 0 (fun _ => 1)) : s'.Refs := by
  intro b
  have h₁ := users_update s.pc p x b
  have h₂ := h b
  have h₃ := hb b
  rw [hpc]
  omega

end State.Refs

end

/-! ## 4. The blocks

A step touches one buffer and one process; for everything else `grind` finds the old fact. -/

/-- The block a process in `bread` is after, and the buffer it has been given for it. -/
def Pc.seeks : Pc → Option (Slot × Nat)
  | .wait b n | .got b n => some (b, n)
  | .idle | .rel _ => none

/-- The buffer a process in `bread` has locked. -/
def Pc.gets : Pc → Option Slot
  | .got b _ => some b
  | .idle | .wait _ _ | .rel _ => none

/-- The buffers and the disk stand for the map `m`. -/
structure State.Coherent (s : State P δ) (m : Nat → δ) : Prop where
  /-- No block has two buffers. -/
  single : ∀ b c, (s.buf b).dev = ROOTDEV → (s.buf c).dev = ROOTDEV →
    (s.buf b).blockno = (s.buf c).blockno → b = c
  seeks : ∀ p b n, (s.pc p).seeks = some (b, n) →
    (s.buf b).dev = ROOTDEV ∧ (s.buf b).blockno = n
  gets : ∀ p b, (s.pc p).gets = some b → s.lock b = some p ∧ s.changed b = false
  /-- Only `bread` itself has an invalid buffer locked. -/
  locked : ∀ p b, s.lock b = some p →
    (s.buf b).dev = ROOTDEV ∧ ((s.buf b).valid = true ∨ (s.pc p).gets = some b)
  changed : ∀ b, s.changed b = true → (s.buf b).valid = true ∧ s.lock b ≠ none
  dirty : ∀ b, (s.buf b).dirty = true → (s.buf b).valid = true ∧ (s.buf b).dev = ROOTDEV
  cached : ∀ b, (s.buf b).dev = ROOTDEV → (s.buf b).valid = true → s.changed b = false →
    (s.buf b).data = m (s.buf b).blockno
  /-- A block whose data has not reached the disk is pinned in the cache. -/
  disk : ∀ n, s.disk n = m n ∨
    ∃ b, (s.buf b).dev = ROOTDEV ∧ (s.buf b).blockno = n ∧ (s.buf b).dirty = true

namespace State.Coherent

theorem start {zero : δ} {disk : Nat → δ} : (start P zero disk).Coherent disk where
  single := by simp [Bio.start]
  seeks := by simp [Bio.start, Pc.seeks]
  gets := by simp [Bio.start, Pc.gets]
  locked := by simp [Bio.start]
  changed := by simp [Bio.start]
  dirty := by simp [Bio.start]
  cached := by simp [Bio.start]
  disk := by simp [Bio.start]

/-- The disk has the data of a block whose only buffer is not valid. -/
theorem disk_eq (h : s.Coherent m) {b : Slot} (hdev : (s.buf b).dev = ROOTDEV)
    (hv : (s.buf b).valid = false) : s.disk (s.buf b).blockno = m (s.buf b).blockno := by
  rcases h.disk (s.buf b).blockno with e | ⟨c, hc, hn, hd⟩
  · exact e
  · obtain rfl := h.single c b hc hdev hn
    rw [(h.dirty c hd).1] at hv
    cases hv

/-- The process that holds a buffer between two calls sees valid data of the root device. -/
theorem owned (h : s.Coherent m) {p : P} {b : Slot} (hb : s.Owns p b) :
    (s.buf b).dev = ROOTDEV ∧ (s.buf b).valid = true := by
  refine ⟨(h.locked p b hb.1).1, (h.locked p b hb.1).2.resolve_right ?_⟩
  rw [hb.2]
  nofun

theorem modify (h : s.Coherent m) {p : P} {b : Slot} (hb : s.Owns p b) (d : δ) :
    State.Coherent { s.setBuf b { s.buf b with data := d } with
      changed := update s.changed b true } m := by
  obtain ⟨h1, h2, h3, h4, h5, h6, h7, h8⟩ := h
  obtain ⟨hl, hp⟩ := hb
  refine ⟨?_, ?_, ?_, ?_, ?_, ?_, ?_, fun k => (h8 k).imp id fun ⟨c, hc⟩ => ⟨c, ?_⟩⟩ <;>
    simp only [State.setBuf] <;> grind [Pc.gets]

/-- `log_write` writes to the map and pins the block. -/
theorem logWrite (h : s.Coherent m) {p : P} {b : Slot} (hb : s.Owns p b) :
    ((s.setDirty b).setWritten b).Coherent (update m (s.buf b).blockno (s.buf b).data) := by
  obtain ⟨hdev, hv⟩ := h.owned hb
  obtain ⟨h1, h2, h3, h4, h5, h6, h7, h8⟩ := h
  refine ⟨?_, ?_, ?_, ?_, ?_, ?_, ?_, fun k => ?_⟩
  rotate_right
  · by_cases hk : k = (s.buf b).blockno
    · exact .inr ⟨b, by simp [State.setDirty, State.setWritten, State.setBuf, hdev, hk]⟩
    · rw [update_of_ne hk]
      refine (h8 k).imp id fun ⟨c, hc⟩ => ⟨c, ?_⟩
      simp only [State.setDirty, State.setWritten, State.setBuf]
      grind
  all_goals simp only [State.setDirty, State.setWritten, State.setBuf]; grind

/-- `bwrite` writes to the map and to the disk. -/
theorem bwrite (h : s.Coherent m) {p : P} {b : Slot} (hb : s.Owns p b) :
    (State.setWritten { s.setBuf b { s.buf b with valid := true, dirty := false } with
        disk := update s.disk (s.buf b).blockno (s.buf b).data } b).Coherent
      (update m (s.buf b).blockno (s.buf b).data) := by
  obtain ⟨hdev, hv⟩ := h.owned hb
  obtain ⟨h1, h2, h3, h4, h5, h6, h7, h8⟩ := h
  refine ⟨?_, ?_, ?_, ?_, ?_, ?_, ?_, fun k => ?_⟩
  rotate_right
  · by_cases hk : k = (s.buf b).blockno
    · subst hk
      exact .inl (by simp [State.setWritten])
    · simp only [State.setWritten, State.setBuf, update_of_ne hk]
      refine (h8 k).imp id fun ⟨c, hc⟩ => ⟨c, ?_⟩
      grind
  all_goals simp only [State.setWritten, State.setBuf]; grind

variable [DecidableEq P]

/-- `bget` finds the block. -/
theorem hit (h : s.Coherent m) {p : P} {b : Slot} {n r : Nat} (hp : s.pc p = .idle)
    (hb : s.holds n b) :
    ((s.setBuf b { s.buf b with refcnt := r }).setPc p (.wait b n)).Coherent m := by
  obtain ⟨h1, h2, h3, h4, h5, h6, h7, h8⟩ := h
  simp only [State.holds, Bool.and_eq_true, beq_iff_eq] at hb
  refine ⟨?_, ?_, ?_, ?_, ?_, ?_, ?_, fun k => (h8 k).imp id fun ⟨c, hc⟩ => ⟨c, ?_⟩⟩ <;>
    simp only [State.setBuf, State.setPc] <;> grind [Pc.seeks, Pc.gets]

/-- `bget` recycles a buffer that nobody has locked or waits for. -/
theorem recycle (h : s.Coherent m) {p : P} {b : Slot} {n : Nat} (hp : s.pc p = .idle)
    (hn : ∀ c, s.holds n c = false) (hd : (s.buf b).dirty = false) (hl : s.lock b = none)
    (hu : ∀ q, (s.pc q).uses ≠ some b) :
    ((s.setBuf b { s.buf b with
        dev := ROOTDEV, blockno := n, valid := false, dirty := false, refcnt := 1 }).setPc p
      (.wait b n)).Coherent m := by
  obtain ⟨h1, h2, h3, h4, h5, h6, h7, h8⟩ := h
  simp only [State.holds, Bool.and_eq_false_iff, beq_eq_false_iff_ne] at hn
  have hs : ∀ q k, (s.pc q).seeks ≠ some (b, k) := by
    intro q k
    have := hu q
    have := h3 q b
    cases hq : s.pc q <;> grind [Pc.seeks, Pc.uses, Pc.gets]
  refine ⟨?_, ?_, ?_, ?_, ?_, ?_, ?_, fun k => (h8 k).imp id fun ⟨c, hc⟩ => ⟨c, ?_⟩⟩ <;>
    simp only [State.setBuf, State.setPc] <;> grind [Pc.seeks, Pc.gets]

theorem acquiresleep (h : s.Coherent m) {p : P} {b : Slot} {n : Nat} (hp : s.pc p = .wait b n)
    (hl : s.lock b = none) :
    State.Coherent { s.setPc p (.got b n) with lock := update s.lock b (some p) } m := by
  obtain ⟨h1, h2, h3, h4, h5, h6, h7, h8⟩ := h
  have hb := h2 p b n (by rw [hp]; rfl)
  refine ⟨?_, ?_, ?_, ?_, ?_, ?_, ?_, fun k => (h8 k).imp id fun ⟨c, hc⟩ => ⟨c, ?_⟩⟩ <;>
    simp only [State.setPc] <;> grind [Pc.seeks, Pc.gets]

/-- `bread` finds the data in the buffer. -/
theorem breadValid (h : s.Coherent m) {p : P} {b : Slot} {n : Nat} (hp : s.pc p = .got b n)
    (hv : (s.buf b).valid = true) : (s.setPc p .idle).Coherent m := by
  obtain ⟨h1, h2, h3, h4, h5, h6, h7, h8⟩ := h
  refine ⟨?_, ?_, ?_, ?_, ?_, ?_, ?_, h8⟩ <;> simp only [State.setPc] <;> grind [Pc.seeks, Pc.gets]

/-- `bread` reads the block. -/
theorem breadDisk (h : s.Coherent m) {p : P} {b : Slot} {n : Nat} (hp : s.pc p = .got b n)
    (hv : (s.buf b).valid = false) :
    ((s.setBuf b { s.buf b with
        valid := true, data := s.disk (s.buf b).blockno }).setPc p .idle).Coherent m := by
  have hdev := (h.seeks p b n (by rw [hp]; rfl)).1
  have hdisk := h.disk_eq hdev hv
  obtain ⟨h1, h2, h3, h4, h5, h6, h7, h8⟩ := h
  refine ⟨?_, ?_, ?_, ?_, ?_, ?_, ?_, fun k => (h8 k).imp id fun ⟨c, hc⟩ => ⟨c, ?_⟩⟩ <;>
    simp only [State.setBuf, State.setPc] <;> grind [Pc.seeks, Pc.gets]

theorem releasesleep (h : s.Coherent m) {p : P} {b : Slot} (hb : s.Owns p b)
    (hc : s.changed b = false) :
    State.Coherent { s.setPc p (.rel b) with lock := update s.lock b none } m := by
  obtain ⟨hdev, hv⟩ := h.owned hb
  obtain ⟨h1, h2, h3, h4, h5, h6, h7, h8⟩ := h
  obtain ⟨hl, hp⟩ := hb
  refine ⟨?_, ?_, ?_, ?_, ?_, ?_, ?_, h8⟩ <;> simp only [State.setPc] <;>
    grind [Pc.seeks, Pc.gets]

theorem brelse (h : s.Coherent m) {p : P} {b c : Slot} {r : Nat} {L : Links Slot}
    (hp : s.pc p = .rel c) :
    State.Coherent { (s.setBuf b { s.buf b with refcnt := r }).setPc p .idle with links := L }
      m := by
  obtain ⟨h1, h2, h3, h4, h5, h6, h7, h8⟩ := h
  refine ⟨?_, ?_, ?_, ?_, ?_, ?_, ?_, fun k => (h8 k).imp id fun ⟨c, hc⟩ => ⟨c, ?_⟩⟩ <;>
    simp only [State.setBuf, State.setPc] <;> grind [Pc.seeks, Pc.gets]

end State.Coherent

/-! ## 5. Runs -/

/-- `b` was given to another block, or its data was thrown away. -/
def Recycled (s s' : State P δ) (b : Slot) : Prop :=
  (s'.buf b).dev ≠ (s.buf b).dev ∨ (s'.buf b).blockno ≠ (s.buf b).blockno ∨
    (s.buf b).valid = true ∧ (s'.buf b).valid = false

/-- A step that changes the data, the count or the flags of a valid buffer does not recycle. -/
theorem not_recycled_setBuf {b c : Slot} {v : Buf δ} (hs : s'.buf = update s.buf b v)
    (hd : v.dev = (s.buf b).dev) (hn : v.blockno = (s.buf b).blockno)
    (hv : (s.buf b).valid = true → v.valid = true) : ¬ Recycled s s' c := by
  unfold Recycled
  rw [hs]
  by_cases hc : c = b
  · subst hc
    simp only [update_self, hd, hn]
    grind
  · simp [update_of_ne hc]

section

variable [Fintype P]

structure Inv (s : State P δ) (m : Nat → δ) : Prop where
  linked : s.Linked
  refs : s.Refs
  coherent : s.Coherent m

theorem Inv.start {zero : δ} {disk : Nat → δ} : Inv (start P zero disk) disk :=
  ⟨linked_start, State.Refs.start, State.Coherent.start⟩

theorem readsLatest_nil : ReadsLatest m [] := by
  intro t₁ n d t₂ ht
  simp at ht

theorem readsLatest_write {n : Nat} {d : δ} : ReadsLatest m [.write n d] := by
  intro t₁ k e t₂ ht
  cases t₁ <;> simp at ht

theorem readsLatest_read {n : Nat} {d : δ} (h : d = m n) : ReadsLatest m [.read n d] := by
  intro t₁ k e t₂ ht
  cases t₁ with
  | nil =>
    obtain ⟨⟨rfl, rfl⟩, -⟩ := by simpa using ht
    exact h
  | cons x t₁ => simp at ht

theorem ReadsLatest.append {t t' : List (Event δ)} (h : ReadsLatest m t)
    (h' : ReadsLatest (latest m t) t') : ReadsLatest m (t ++ t') := by
  intro t₁ n d t₂ ht
  rcases List.append_eq_append_iff.mp ht with ⟨u, rfl, hu⟩ | ⟨u, rfl, hu⟩
  · rw [latest_append]
    exact h' u n d t₂ hu
  · cases u with
    | nil =>
      rw [List.append_nil] at h'
      exact h' [] n d t₂ hu.symm
    | cons x u =>
      obtain ⟨rfl, -⟩ := List.cons_eq_cons.mp hu
      exact h t₁ n d u rfl

variable [DecidableEq P]

namespace Inv

variable {a : Act P δ}

theorem bget (h : Inv s m) {p : P} {n : Nat} {b : Slot} (hp : s.pc p = .idle)
    (hb : s.bget n = some (b, s')) : Inv (s'.setPc p (.wait b n)) m := by
  rcases bget_cases h.linked hb with ⟨hn, rfl⟩ | ⟨hn, hu, rfl⟩
  · refine ⟨h.linked, h.refs.move rfl fun c => ?_, h.coherent.hit hp hn⟩
    by_cases hc : c = b <;>
      simp [State.setPc, State.setBuf, hp, Pc.uses, hc, eq_comm (a := b)]
  · obtain ⟨hr, hd⟩ : (s.buf b).refcnt = 0 ∧ (s.buf b).dirty = false := by
      simpa [State.unused] using hu
    obtain ⟨hl, hus⟩ := h.refs.free hr
    refine ⟨h.linked, h.refs.move rfl fun c => ?_, h.coherent.recycle hp hn hd hl hus⟩
    by_cases hc : c = b <;>
      simp [State.setPc, State.setBuf, hp, Pc.uses, hc, hr, eq_comm (a := b)]

theorem acquiresleep (h : Inv s m) {p : P} {b : Slot} {n : Nat} (hp : s.pc p = .wait b n)
    (hl : s.lock b = none) :
    Inv { s.setPc p (.got b n) with lock := update s.lock b (some p) } m := by
  refine ⟨h.linked, h.refs.move rfl fun c => ?_, h.coherent.acquiresleep hp hl⟩
  by_cases hc : c = b <;> simp [State.setPc, hp, Pc.uses, hc, hl, eq_comm (a := b)]

/-- What `bread` returns is what the map says. -/
theorem bread (h : Inv s m) {p : P} {b : Slot} {n : Nat} (hp : s.pc p = .got b n)
    (hb : s.bread b = some s') : Inv (s'.setPc p .idle) m ∧ (s'.buf b).data = m n := by
  obtain ⟨hdev, hn⟩ := h.coherent.seeks p b n (by rw [hp]; rfl)
  have hg := h.coherent.gets p b (by rw [hp]; rfl)
  rcases bread_cases (fun hd => (h.coherent.dirty b hd).1) hb with ⟨hv, rfl⟩ | ⟨hv, rfl⟩
  · refine ⟨⟨h.linked, h.refs.move rfl fun c => ?_, h.coherent.breadValid hp hv⟩, ?_⟩
    · simp [State.setPc, hp, Pc.uses]
    · rw [h.coherent.cached b hdev hv hg.2, hn]
  · refine ⟨⟨h.linked, h.refs.move rfl fun c => ?_, h.coherent.breadDisk hp hv⟩, ?_⟩
    · by_cases hc : c = b <;> simp [State.setPc, State.setBuf, hp, Pc.uses, hc]
    · simp only [State.setBuf, update_self]
      rw [h.coherent.disk_eq hdev hv, hn]

theorem releasesleep (h : Inv s m) {p : P} {b : Slot} (hb : s.Owns p b)
    (hc : s.changed b = false) :
    Inv { s.setPc p (.rel b) with lock := update s.lock b none } m := by
  refine ⟨h.linked, h.refs.move rfl fun c => ?_, h.coherent.releasesleep hb hc⟩
  by_cases hc : c = b <;> simp [State.setPc, hb.1, hb.2, Pc.uses, hc, eq_comm (a := b)]

theorem brelse (h : Inv s m) {p : P} {b : Slot} (hp : s.pc p = .rel b) :
    Inv ((s.brelse b).setPc p .idle) m := by
  have hpos : 0 < (s.buf b).refcnt := by
    have := h.refs b
    have : 0 < users s.pc b := users_pos (p := p) (by rw [hp]; rfl)
    omega
  have hrefs : ∀ c, ((update s.buf b { s.buf b with refcnt := (s.buf b).refcnt - 1 }) c).refcnt +
      (if (s.pc p).uses = some c then 1 else 0) = (s.buf c).refcnt := by
    intro c
    by_cases hc : c = b
    · subst hc
      simp only [update_self, hp, Pc.uses, if_true]
      omega
    · simp [update_of_ne hc, hp, Pc.uses, Ne.symm hc]
  obtain ⟨L, hL, hbr⟩ := brelse_cases s b
  rw [hbr]
  refine ⟨?_, h.refs.move rfl fun c => ?_, h.coherent.brelse hp⟩
  · rcases hL with rfl | rfl
    · exact h.linked
    · exact h.linked.move b
  · have hidle : (if Pc.idle.uses = some c then 1 else 0) = 0 := if_neg nofun
    rw [hidle, Nat.add_zero]
    exact congrArg (· + _) (hrefs c)

/-- **A step of the cache is a step of the plain map.** -/
theorem step (h : Inv s m) (hs : s.step a = some s') :
    Inv s' (latest m (event s s' a)) ∧ ReadsLatest m (event s s' a) := by
  cases a with
  | bget p n =>
    simp only [State.step] at hs
    split at hs
    · rename_i hp
      obtain ⟨⟨b, s₁⟩, hb, rfl⟩ := Option.map_eq_some_iff.mp hs
      exact ⟨h.bget hp hb, readsLatest_nil⟩
    · cases hs
  | acquiresleep p =>
    simp only [State.step] at hs
    split at hs
    · rename_i b n hp
      obtain ⟨hl, hs⟩ := Option.ite_none_right_eq_some.mp hs
      cases hs
      exact ⟨h.acquiresleep hp hl, readsLatest_nil⟩
    · cases hs
  | bread p =>
    simp only [State.step] at hs
    split at hs
    · rename_i b n hp
      obtain ⟨s₁, hb, rfl⟩ := Option.map_eq_some_iff.mp hs
      obtain ⟨hinv, hd⟩ := h.bread hp hb
      simp only [event, hp, latest]
      exact ⟨hinv, readsLatest_read hd⟩
    · cases hs
  | modify p b d =>
    obtain ⟨hb, hs⟩ := Option.ite_none_right_eq_some.mp hs
    cases hs
    refine ⟨⟨h.linked, h.refs.congr (fun c => ?_) rfl rfl, h.coherent.modify hb d⟩,
      readsLatest_nil⟩
    by_cases hc : c = b <;> simp [State.setBuf, hc]
  | logWrite p b =>
    obtain ⟨hb, hs⟩ := Option.ite_none_right_eq_some.mp hs
    cases hs
    refine ⟨⟨h.linked, h.refs.congr (fun c => ?_) rfl rfl, h.coherent.logWrite hb⟩,
      readsLatest_write⟩
    by_cases hc : c = b <;> simp [State.setWritten, State.setDirty, State.setBuf, hc]
  | bwrite p b =>
    obtain ⟨hb, hs⟩ := Option.ite_none_right_eq_some.mp hs
    obtain ⟨s₁, hw, rfl⟩ := Option.map_eq_some_iff.mp hs
    cases bwrite_cases hw
    refine ⟨⟨h.linked, h.refs.congr (fun c => ?_) rfl rfl, h.coherent.bwrite hb⟩,
      readsLatest_write⟩
    by_cases hc : c = b <;> simp [State.setWritten, State.setBuf, hc]
  | releasesleep p b =>
    obtain ⟨⟨hb, hc⟩, hs⟩ := Option.ite_none_right_eq_some.mp hs
    cases hs
    exact ⟨h.releasesleep hb hc, readsLatest_nil⟩
  | brelse p =>
    simp only [State.step] at hs
    split at hs
    · rename_i b hp
      cases hs
      exact ⟨h.brelse hp, readsLatest_nil⟩
    · cases hs

end Inv

/-- **A run of the cache is a run of the plain map.** -/
theorem Run.inv {disk : Nat → δ} {t : List (Event δ)} (h : Run disk t s) :
    Inv s (latest disk t) ∧ ReadsLatest disk t := by
  induction h with
  | start zero => exact ⟨Inv.start, readsLatest_nil⟩
  | step _ hs ih =>
    obtain ⟨hinv, hreads⟩ := ih.1.step hs
    rw [latest_append]
    exact ⟨hinv, ih.2.append hreads⟩

/-! ## 6. What the callers can rely on -/

/-- Only `bget` recycles, and only an unused buffer. -/
theorem Inv.recycled (h : Inv s m) {a : Act P δ} (hs : s.step a = some s') {b : Slot}
    (hb : Recycled s s' b) : s.unused b := by
  cases a with
  | bget p n =>
    simp only [State.step] at hs
    split at hs
    · obtain ⟨⟨c, s₁⟩, hg, rfl⟩ := Option.map_eq_some_iff.mp hs
      rcases bget_cases h.linked hg with ⟨-, rfl⟩ | ⟨-, hu, rfl⟩
      · exact absurd hb (not_recycled_setBuf rfl rfl rfl id)
      · by_cases hc : b = c
        · exact hc ▸ hu
        · simp [Recycled, State.setPc, State.setBuf, update_of_ne hc] at hb
    · cases hs
  | acquiresleep p =>
    simp only [State.step] at hs
    split at hs
    · obtain ⟨-, hs⟩ := Option.ite_none_right_eq_some.mp hs
      cases hs
      simp [Recycled, State.setPc] at hb
    · cases hs
  | bread p =>
    simp only [State.step] at hs
    split at hs
    · obtain ⟨s₁, hr, rfl⟩ := Option.map_eq_some_iff.mp hs
      rcases bread_cases (fun hd => (h.coherent.dirty _ hd).1) hr with ⟨-, rfl⟩ | ⟨-, rfl⟩
      · simp [Recycled, State.setPc] at hb
      · exact absurd hb (not_recycled_setBuf rfl rfl rfl fun _ => rfl)
    · cases hs
  | modify p c d =>
    obtain ⟨-, hs⟩ := Option.ite_none_right_eq_some.mp hs
    cases hs
    exact absurd hb (not_recycled_setBuf rfl rfl rfl id)
  | logWrite p c =>
    obtain ⟨-, hs⟩ := Option.ite_none_right_eq_some.mp hs
    cases hs
    exact absurd hb (not_recycled_setBuf rfl rfl rfl id)
  | bwrite p c =>
    obtain ⟨-, hs⟩ := Option.ite_none_right_eq_some.mp hs
    obtain ⟨s₁, hw, rfl⟩ := Option.map_eq_some_iff.mp hs
    cases bwrite_cases hw
    exact absurd hb (not_recycled_setBuf rfl rfl rfl fun _ => rfl)
  | releasesleep p c =>
    obtain ⟨-, hs⟩ := Option.ite_none_right_eq_some.mp hs
    cases hs
    simp [Recycled, State.setPc] at hb
  | brelse p =>
    simp only [State.step] at hs
    split at hs
    · rename_i c _
      obtain ⟨L, -, hbr⟩ := brelse_cases s c
      cases hs
      rw [hbr] at hb
      exact absurd hb (not_recycled_setBuf rfl rfl rfl id)
    · cases hs

/-- A `bread` that has its buffer returns: the driver is asked for something, and the disk has the
block. -/
theorem Inv.bread_isSome (h : Inv s m) {p : P} {b : Slot} {n : Nat} (hp : s.pc p = .got b n)
    (hn : n < FSSIZE) : (s.step (.bread p)).isSome := by
  obtain ⟨-, hb⟩ := h.coherent.seeks p b n (by rw [hp]; rfl)
  have hdisk : ¬ FSSIZE ≤ (s.buf b).blockno := by omega
  cases hv : (s.buf b).valid with
  | true => simp [State.step, hp, State.bread, hv]
  | false =>
    cases hd : (s.buf b).dirty <;>
      simp [State.step, hp, State.bread, State.iderw, hv, hd, hdisk]

/-- **The buffer cache is coherent**: in every state of every run no block has two buffers, the
list has every buffer once, the next step recycles no buffer that is dirty or referenced, every
`bread` so far has returned the data most recently written, and the ones under way will return. -/
theorem buffer_cache_coherent {disk : Nat → δ} {t : List (Event δ)} (h : Run disk t s) :
    (∀ n b c, s.holds n b → s.holds n c → b = c) ∧ s.Linked ∧
    (∀ a s', s.step a = some s' → ∀ b, Recycled s s' b →
      (s.buf b).refcnt = 0 ∧ (s.buf b).dirty = false) ∧
    ReadsLatest disk t ∧
    ∀ p b n, s.pc p = .got b n → n < FSSIZE → (s.step (.bread p)).isSome := by
  obtain ⟨hinv, hreads⟩ := h.inv
  refine ⟨fun n b c hb hc => ?_, hinv.linked, fun a s' hs b hb => ?_, hreads,
    fun p b n hp hn => hinv.bread_isSome hp hn⟩
  · simp only [State.holds, Bool.and_eq_true, beq_iff_eq] at hb hc
    exact hinv.coherent.single b c hb.1 hc.1 (hb.2.trans hc.2.symm)
  · simpa [State.unused] using hinv.recycled hs hb

end

/-! ## 7. A run -/

/-- The run of a list of steps, if each is possible in its turn. -/
def exec [DecidableEq P] (r : List (Event δ) × State P δ) :
    List (Act P δ) → Option (List (Event δ) × State P δ)
  | [] => some r
  | a :: as => (r.2.step a).bind fun s' => exec (r.1 ++ event r.2 s' a, s') as

theorem run_exec [DecidableEq P] {disk : Nat → δ} : ∀ {as : List (Act P δ)}
    {r r' : List (Event δ) × State P δ}, Run disk r.1 r.2 → exec r as = some r' →
      Run disk r'.1 r'.2
  | [], _, _, h, he => Option.some.inj he ▸ h
  | a :: as, r, r', h, he => by
    obtain ⟨s', hs, he⟩ := Option.bind_eq_some_iff.mp he
    exact run_exec (h.step hs) he

/-- The buffer that comes last in the list of `binit`. -/
def firstBuf : Slot := (0 : Fin NBUF)

/-- One process changes block 7 and logs it; another reads it before it is on the disk. -/
theorem buffer_cache_coherent_logged : ∃ (t : List (Event Nat)) (s : State (Fin 2) Nat),
    Run (fun _ => 0) t s ∧ t = [.read 7 0, .write 7 5, .read 7 5] ∧ s.disk 7 = 0 ∧
      ReadsLatest (fun _ => 0) t := by
  have hrun : (exec ([], start (Fin 2) 0 fun _ => 0)
      [.bget 0 7, .acquiresleep 0, .bread 0, .modify 0 firstBuf 5, .bget 1 7, .logWrite 0 firstBuf,
        .releasesleep 0 firstBuf, .acquiresleep 1, .brelse 0, .bread 1]).any (fun r =>
      decide (r.1 = [.read 7 0, .write 7 5, .read 7 5] ∧ r.2.disk 7 = 0)) = true := by
    decide +kernel
  obtain ⟨r, hr, hcheck⟩ := (Option.any_eq_true _ _).mp hrun
  obtain ⟨ht, hd⟩ := of_decide_eq_true hcheck
  have h := run_exec (.start 0) hr
  exact ⟨r.1, r.2, h, ht, hd, (buffer_cache_coherent h).2.2.2.1⟩

end Xv6.Bio
