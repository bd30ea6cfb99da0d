/-
# Well-formed heaps

A program calls `malloc` and `free` in any order, frees what it has got and not freed yet, writes into
its blocks, and may call `sbrk` itself to grow.  Beside the heap the state has the blocks that the
program holds.

* `Inv`: the free blocks and the live blocks cover exactly what `morecore` has got, and each byte once.
* `malloc_spec` and `free_spec`: the calls end, and keep the invariant.
* `heap_wellformed`: what this means for the circle of free blocks and for the live blocks, in every
  state that can be reached.
* `malloc_honours_iff`: for large requests `nunits` or the argument of `sbrk` overflows.  The answer is
  then wrong, unless it is 0.
-/
import Xv6.User.Heap

namespace Xv6.Umalloc

open Function (comp_def update update_of_ne update_self)

/-! ## 1. Runs -/

/-- The heap, the live blocks (the address of the header, and the size that was asked for), and what
the program has got by calling `sbrk` itself. -/
structure State where
  heap : Heap
  live : List (Nat × Nat)
  own : List (Nat × Nat)

/-- What a loop returns, if it may take enough turns. -/
def Returns {α : Type} (f : Nat → Option α) (x : α) : Prop := ∃ m, ∀ n, m ≤ n → f n = some x

theorem Returns.unique {α : Type} {f : Nat → Option α} {x y : α} (hx : Returns f x)
    (hy : Returns f y) : x = y := by
  obtain ⟨m, hm⟩ := hx
  obtain ⟨m', hm'⟩ := hy
  exact Option.some.inj ((hm (max m m') (le_max_left ..)).symm.trans (hm' _ (le_max_right ..)))

inductive Act
  | malloc (nbytes : Nat)
  | free (bp : Nat)
  /-- The program grows on its own. -/
  | sbrk (n : Nat)
  /-- It writes to the two words at an address. -/
  | write (a v w : Nat)

/-- The number of units of a request, without overflow. -/
def exactUnits (nbytes : Nat) : Nat := (nbytes + 7) / 8 + 1

/-- Only live blocks are freed, requests are small enough, and the program writes inside its blocks. -/
def Legal (s : State) : Act → Prop
  | .malloc nbytes => 8 * exactUnits nbytes < 2 ^ 31
  | .free bp => ∃ nbytes, (bp, nbytes) ∈ s.live
  | .sbrk n => 0 < n
  | .write a _ _ => ∃ b ∈ s.live, b.1 < a ∧ a < b.1 + 8 * s.heap.size b.1

inductive Step (base : Nat) (s : State) : Act → State → Prop
  /-- There is no memory. -/
  | none {nbytes : Nat} {h : Heap} (run : Returns (fun n => malloc base n s.heap nbytes) (0, h)) :
      Step base s (.malloc nbytes) { s with heap := h }
  | malloc {nbytes bp : Nat} {h : Heap}
      (run : Returns (fun n => malloc base n s.heap nbytes) (bp + 8, h)) :
      Step base s (.malloc nbytes) ⟨h, (bp, nbytes) :: s.live, s.own⟩
  | free {bp nbytes : Nat} {h : Heap} (mem : (bp, nbytes) ∈ s.live)
      (run : Returns (fun n => free n s.heap (adv bp 1)) h) :
      Step base s (.free bp) ⟨h, s.live.erase (bp, nbytes), s.own⟩
  | sbrk {n : Nat} : Step base s (.sbrk n) { s with
      heap := (sbrk s.heap n).2
      own := ((sbrk s.heap n).1.map fun p => (p, n)).toList ++ s.own }
  | write {a v w : Nat} : Step base s (.write a v w) { s with
      heap := { s.heap with
        ptr := Function.update s.heap.ptr a v, size := Function.update s.heap.size a w } }

/-- The beginning: `freep` is 0, and the static header lies below the end of the process. -/
structure Start (base : Nat) (s : State) : Prop where
  freep : s.heap.freep = 0
  got : s.heap.got = []
  live : s.live = []
  own : s.own = []
  low : 8 ≤ base
  brk : base + 8 ≤ s.heap.brk
  lt : s.heap.brk < KERNBASE

inductive Reach (base : Nat) : State → Prop
  | start {s : State} (h : Start base s) : Reach base s
  | step {s s' : State} {a : Act} (h : Reach base s) (legal : Legal s a) (run : Step base s a s') :
      Reach base s'

/-! ## 2. The invariant -/

/-- Two blocks lie apart. -/
def Apart (h : Heap) (a b : Nat) : Prop := a + 8 * h.size a ≤ b ∨ b + 8 * h.size b ≤ a

instance {h : Heap} : Std.Symm fun b c : Nat × Nat => Apart h b.1 c.1 := ⟨fun _ _ => Or.symm⟩

structure Inv (base : Nat) (s : State) (nodes : List Nat) : Prop where
  ring : FreeRing base s.heap nodes
  /-- Free and live blocks cover what `morecore` has got. -/
  cover : cover (extents s.heap nodes + extents s.heap (s.live.map Prod.fst)) = cover s.heap.got
  nodup : (Xv6.cover s.heap.got).Nodup
  range : ∀ x ∈ Xv6.cover s.heap.got, base + 8 ≤ x ∧ x < s.heap.brk
  own : ∀ x ∈ Xv6.cover s.own, base + 8 ≤ x ∧ x < s.heap.brk
  live : ∀ b ∈ s.live, 0 < s.heap.size b.1 ∧ b.2 + 8 ≤ 8 * s.heap.size b.1
  low : 8 ≤ base
  brk : base + 8 ≤ s.heap.brk
  lt : s.heap.brk < KERNBASE

section

variable {base bp a x : Nat} {s : State} {nodes : List Nat} {h' : Heap}

theorem mem_extents {h : Heap} {l : List Nat} {e : Nat × Nat} :
    e ∈ extents h l ↔ ∃ a ∈ l, (a, 8 * h.size a) = e := by
  rw [extents, Multiset.mem_coe, List.mem_map]

theorem extents_perm {h : Heap} {l l' : List Nat} (hp : l.Perm l') : extents h l = extents h l' :=
  Multiset.coe_eq_coe.mpr (hp.map _)

theorem cover_block {h : Heap} {l : List Nat} (ha : a ∈ l) (hle : a ≤ x)
    (hlt : x < a + 8 * h.size a) : x ∈ cover (extents h l) :=
  mem_cover.mpr ⟨(a, 8 * h.size a), mem_extents.mpr ⟨a, ha, rfl⟩, hle, hlt⟩

namespace Inv

theorem disjoint (h : Inv base s nodes) :
    Disjoint (Xv6.cover (extents s.heap nodes))
      (Xv6.cover (extents s.heap (s.live.map Prod.fst))) := by
  have hnodup := h.nodup
  rw [← h.cover, cover_add, Multiset.nodup_add] at hnodup
  exact hnodup.2.2

/-- The bytes of live blocks have been got, and are not free. -/
theorem live_byte (h : Inv base s nodes) {b : Nat × Nat} (hb : b ∈ s.live) (hle : b.1 ≤ x)
    (hlt : x < b.1 + 8 * s.heap.size b.1) :
    x ∉ Xv6.cover (extents s.heap nodes) ∧ x ∈ Xv6.cover s.heap.got := by
  have hmem := cover_block (List.mem_map_of_mem (f := Prod.fst) hb) hle hlt
  refine ⟨Multiset.disjoint_right.mp h.disjoint hmem, ?_⟩
  rw [← h.cover, cover_add]
  exact Multiset.mem_add.mpr (.inr hmem)

theorem node_byte (h : Inv base s nodes) (ha : a ∈ nodes) (hle : a ≤ x)
    (hlt : x < a + 8 * s.heap.size a) : x ∈ Xv6.cover s.heap.got := by
  rw [← h.cover, cover_add]
  exact Multiset.mem_add.mpr (.inl (cover_block ha hle hlt))

theorem live_not_mem (h : Inv base s nodes) {b : Nat × Nat} (hb : b ∈ s.live) : b.1 ∉ nodes := by
  intro hmem
  have hpos := (h.live b hb).1
  exact (h.live_byte hb le_rfl (by omega)).1 (cover_block hmem le_rfl (by omega))

/-- Blocks end before the end of the process. -/
theorem node_le_brk (h : Inv base s nodes) (ha : a ∈ nodes) :
    a + 8 * s.heap.size a ≤ s.heap.brk := by
  rcases Nat.eq_zero_or_pos (s.heap.size a) with hz | hpos
  · have hbase : a = base := by
      by_contra hne
      exact (h.ring.pos a ha hne).ne' hz
    have hbrk := h.brk
    omega
  · have hlast := h.range (a + 8 * s.heap.size a - 1) (h.node_byte ha (by omega) (by omega))
    omega

theorem live_le_brk (h : Inv base s nodes) {b : Nat × Nat} (hb : b ∈ s.live) :
    base + 8 ≤ b.1 ∧ b.1 + 8 * s.heap.size b.1 ≤ s.heap.brk := by
  have hpos := (h.live b hb).1
  have hfirst := h.range b.1 (h.live_byte hb le_rfl (by omega)).2
  have hlast := h.range (b.1 + 8 * s.heap.size b.1 - 1) (h.live_byte hb (by omega) (by omega)).2
  omega

theorem live_apart (h : Inv base s nodes) :
    s.live.Pairwise fun b c => Apart s.heap b.1 c.1 := by
  have hnodup := h.nodup
  rw [← h.cover, cover_add, Multiset.nodup_add] at hnodup
  have hlive := hnodup.2.1
  have hpos := fun b hb => (h.live b hb).1
  clear hnodup h
  generalize s.live = live at hlive hpos
  induction live with
  | nil => exact .nil
  | cons b live ih =>
    rw [List.map_cons, extents_cons] at hlive
    refine .cons (fun c hc => ?_) (ih ?_ fun c hc => hpos c (List.mem_cons_of_mem b hc))
    · have hmem : (c.1, 8 * s.heap.size c.1) ∈ extents s.heap (live.map Prod.fst) :=
        mem_extents.mpr ⟨c.1, List.mem_map_of_mem hc, rfl⟩
      have hposb := hpos b List.mem_cons_self
      have hposc := hpos c (List.mem_cons_of_mem b hc)
      exact apart_of_nodup_cover hlive hmem (by omega) (by omega)
    · rw [cover_cons, Multiset.nodup_add] at hlive
      exact hlive.2.1

/-- A free block becomes live. -/
theorem take {nunits y nbytes : Nat} {nodes' : List Nat} (h : Inv base s nodes) (hn : 0 < nunits)
    (hreq : nbytes + 8 ≤ 8 * nunits) (ht : Taken base nunits s.heap nodes y h' nodes') :
    Inv base ⟨h', (y, nbytes) :: s.live, s.own⟩ nodes' := by
  have hy : y ∈ Xv6.cover (extents s.heap nodes) := by
    rw [← ht.cover, cover_cons]
    exact Multiset.mem_add.mpr (.inl (Multiset.mem_Ico.mpr ⟨le_rfl, by omega⟩))
  have hkeep : ∀ b ∈ s.live, h'.size b.1 = s.heap.size b.1 := fun b hb => by
    have hpos := (h.live b hb).1
    refine ht.size b.1 (fun e => ?_) (h.live_not_mem hb)
    exact (h.live_byte hb le_rfl (by omega)).1 (e ▸ hy)
  have hlive : extents h' (s.live.map Prod.fst) = extents s.heap (s.live.map Prod.fst) :=
    extents_congr fun a ha => by
      obtain ⟨b, hb, rfl⟩ := List.mem_map.mp ha
      exact hkeep b hb
  have hgot := ht.same.got
  have hbrk := ht.same.brk
  refine ⟨ht.ring, ?_, ?_, ?_, ?_, fun b hb => ?_, h.low, ?_, ?_⟩
  · rw [List.map_cons, extents_cons, hlive, ht.self, hgot, ← h.cover, cover_add, cover_add,
      ← ht.cover, cover_cons, cover_cons]
    abel
  · rw [hgot]
    exact h.nodup
  · rw [hgot, hbrk]
    exact h.range
  · rw [hbrk]
    exact h.own
  · rcases List.mem_cons.mp hb with rfl | hb
    · rw [ht.self]
      exact ⟨hn, hreq⟩
    · rw [hkeep b hb]
      exact h.live b hb
  · rw [hbrk]
    exact h.brk
  · rw [hbrk]
    exact h.lt

/-- A live block becomes free. -/
theorem release {nbytes : Nat} {nodes' : List Nat} (h : Inv base s nodes) (hb : (bp, nbytes) ∈ s.live)
    (hf : Freed base bp s.heap nodes h' nodes') :
    Inv base ⟨h', s.live.erase (bp, nbytes), s.own⟩ nodes' := by
  have hperm := List.perm_cons_erase hb
  have hsplit : extents s.heap (s.live.map Prod.fst) =
      (bp, 8 * s.heap.size bp) ::ₘ extents s.heap ((s.live.erase (bp, nbytes)).map Prod.fst) := by
    rw [extents_perm (hperm.map Prod.fst), List.map_cons, extents_cons]
  have hpos : 0 < s.heap.size bp := (h.live _ hb).1
  -- no other live block begins there
  have hne : ∀ b ∈ s.live.erase (bp, nbytes), b.1 ≠ bp := fun b hbe e => by
    have hnodup := h.nodup
    rw [← h.cover, cover_add, hsplit, Multiset.nodup_add] at hnodup
    have hposb := (h.live b (List.mem_of_mem_erase hbe)).1
    have hmem : (b.1, 8 * s.heap.size b.1) ∈
        extents s.heap ((s.live.erase (bp, nbytes)).map Prod.fst) :=
      mem_extents.mpr ⟨b.1, List.mem_map_of_mem hbe, rfl⟩
    have hapart := apart_of_nodup_cover hnodup.2.1 hmem (by omega) (by omega)
    omega
  have hkeep : ∀ b ∈ s.live.erase (bp, nbytes), h'.size b.1 = s.heap.size b.1 := fun b hbe =>
    hf.size b.1 (hne b hbe) (h.live_not_mem (List.mem_of_mem_erase hbe))
  have hlive : extents h' ((s.live.erase (bp, nbytes)).map Prod.fst) =
      extents s.heap ((s.live.erase (bp, nbytes)).map Prod.fst) :=
    extents_congr fun a ha => by
      obtain ⟨b, hbe, rfl⟩ := List.mem_map.mp ha
      exact hkeep b hbe
  have hgot := hf.same.got
  have hbrk := hf.same.brk
  refine ⟨hf.ring, ?_, ?_, ?_, ?_, fun b hbe => ?_, h.low, ?_, ?_⟩
  · rw [hgot, ← h.cover, cover_add, cover_add, hf.cover, hlive, hsplit, cover_cons, cover_cons]
    abel
  · rw [hgot]
    exact h.nodup
  · rw [hgot, hbrk]
    exact h.range
  · rw [hbrk]
    exact h.own
  · rw [hkeep b hbe]
    exact h.live b (List.mem_of_mem_erase hbe)
  · rw [hbrk]
    exact h.brk
  · rw [hbrk]
    exact h.lt

theorem free_apart (h : Inv base s nodes) {b : Nat × Nat} (hb : b ∈ s.live) (ha : a ∈ nodes) :
    Apart s.heap a b.1 := by
  have hpos := (h.live b hb).1
  by_contra hc
  obtain ⟨hc₁, hc₂⟩ := not_or.mp hc
  -- a byte that lies in both
  rcases le_or_gt a b.1 with hle | hgt
  · exact (h.live_byte hb le_rfl (by omega)).1 (cover_block ha hle (by omega))
  · have hlow := (h.live_le_brk hb).1
    have hposa := h.ring.pos a ha (by omega)
    exact (h.live_byte hb hgt.le (by omega)).1 (cover_block ha le_rfl (by omega))

/-- A live block can be freed. -/
theorem free_spec {nbytes : Nat} (h : Inv base s nodes) (hb : (bp, nbytes) ∈ s.live) :
    ∃ h' nodes', (∀ n, nodes.length ≤ n → free n s.heap (adv bp 1) = some h') ∧
      Inv base ⟨h', s.live.erase (bp, nbytes), s.own⟩ nodes' ∧
      ∃ a ∈ nodes', s.heap.size bp ≤ h'.size a := by
  have hpos : 0 < s.heap.size bp := (h.live _ hb).1
  obtain ⟨hlow, hhigh⟩ := h.live_le_brk hb
  have hlt := h.lt
  simp only [KERNBASE] at hlow hhigh hlt
  have hbase : base < bp := by omega
  obtain ⟨h', nodes', hrun, hf⟩ := Umalloc.free_spec h.ring hbase hpos (by omega)
    fun a ha => h.free_apart hb ha
  exact ⟨h', nodes', hrun, h.release hb hf, hf.large⟩

/-- Headers of other places do not matter, and the process may grow. -/
theorem frame {own : List (Nat × Nat)} (h : Inv base s nodes)
    (hptr : ∀ a ∈ nodes, h'.ptr a = s.heap.ptr a) (hsize : ∀ a ∈ nodes, h'.size a = s.heap.size a)
    (hlive : ∀ b ∈ s.live, h'.size b.1 = s.heap.size b.1) (hfreep : h'.freep = s.heap.freep)
    (hgot : h'.got = s.heap.got) (hbrk : s.heap.brk ≤ h'.brk) (hlt : h'.brk < KERNBASE)
    (hown : ∀ x ∈ Xv6.cover own, base + 8 ≤ x ∧ x < h'.brk) :
    Inv base ⟨h', s.live, own⟩ nodes := by
  refine ⟨h.ring.congr hptr hsize hfreep, ?_, ?_, fun x hx => ?_, hown, fun b hb => ?_, h.low,
    h.brk.trans hbrk, hlt⟩
  · rw [hgot, ← h.cover, extents_congr hsize]
    refine congrArg (fun e => Xv6.cover (extents s.heap nodes + e)) (extents_congr fun a ha => ?_)
    obtain ⟨b, hb, rfl⟩ := List.mem_map.mp ha
    exact hlive b hb
  · rw [hgot]
    exact h.nodup
  · rw [hgot] at hx
    exact ⟨(h.range x hx).1, (h.range x hx).2.trans_le hbrk⟩
  · rw [hlive b hb]
    exact h.live b hb

/-- Memory that `sbrk` returns is at first like a block that the program holds. -/
theorem fresh {nu : Nat} (h : Inv base s nodes) (hnu : 0 < nu)
    (hptr : h'.ptr = s.heap.ptr) (hsize : h'.size = update s.heap.size s.heap.brk nu)
    (hfreep : h'.freep = s.heap.freep) (hgot : h'.got = (s.heap.brk, 8 * nu) :: s.heap.got)
    (hbrk : h'.brk = s.heap.brk + 8 * nu) (hlt : h'.brk < KERNBASE) :
    Inv base ⟨h', (s.heap.brk, 8 * nu - 8) :: s.live, s.own⟩ nodes := by
  have hself : h'.size s.heap.brk = nu := by rw [hsize, update_self]
  have hother : ∀ a, a < s.heap.brk → h'.size a = s.heap.size a := fun a ha => by
    rw [hsize, update_of_ne ha.ne]
  have hnodes : ∀ a ∈ nodes, h'.size a = s.heap.size a := fun a ha => hother a (by
    by_cases hbase : a = base
    · have hb := h.brk
      omega
    · have hpos := h.ring.pos a ha hbase
      have hle := h.node_le_brk ha
      omega)
  have hlive : ∀ b ∈ s.live, h'.size b.1 = s.heap.size b.1 := fun b hb => hother b.1 (by
    have hpos := (h.live b hb).1
    have hle := (h.live_le_brk hb).2
    omega)
  have hext : extents h' (s.live.map Prod.fst) = extents s.heap (s.live.map Prod.fst) :=
    extents_congr fun a ha => by
      obtain ⟨b, hb, rfl⟩ := List.mem_map.mp ha
      exact hlive b hb
  have hgotcover : Xv6.cover (h'.got : Multiset (Nat × Nat)) =
      Multiset.Ico s.heap.brk (s.heap.brk + 8 * nu) + Xv6.cover s.heap.got := by
    rw [hgot, ← Multiset.cons_coe, cover_cons]
  have hb := h.brk
  refine ⟨h.ring.congr (fun a _ => congrFun hptr a) hnodes hfreep, ?_, ?_, fun x hx => ?_,
    fun x hx => ?_, fun b hb => ?_, h.low, ?_, hlt⟩
  · rw [List.map_cons, extents_cons, hself, hext, extents_congr hnodes, hgotcover, ← h.cover,
      cover_add, cover_cons, cover_add]
    abel
  · rw [hgotcover, Multiset.nodup_add]
    refine ⟨Multiset.nodup_Ico, h.nodup, Multiset.disjoint_left.mpr fun hx hin => ?_⟩
    have hrange := (h.range _ hin).2
    exact absurd (Multiset.mem_Ico.mp hx).1 (not_le.mpr hrange)
  · rw [hgotcover] at hx
    rcases Multiset.mem_add.mp hx with hx | hx
    · have hin := Multiset.mem_Ico.mp hx
      simp only [hbrk]
      omega
    · have hrange := h.range x hx
      simp only [hbrk]
      omega
  · have hrange := h.own x hx
    simp only [hbrk]
    omega
  · rcases List.mem_cons.mp hb with rfl | hb
    · rw [hself]
      omega
    · rw [hlive b hb]
      exact h.live b hb
  · simp only [hbrk]
    omega

end Inv

/-! ## 3. malloc -/

theorem Inv.le_freep (h : Inv base s nodes) : 8 ≤ s.heap.freep :=
  h.low.trans (h.ring.base_le h.ring.rover)

/-- `morecore` fails, or there is then a block that is large enough. -/
theorem morecore_spec {nunits : Nat} (h : Inv base s nodes) (hsmall : 8 * nunits < 2 ^ 31) :
    (∃ h', (∀ n, morecore n s.heap nunits = some (none, h')) ∧ Inv base { s with heap := h' } nodes) ∨
    ∃ h' nodes', (∀ n, nodes.length ≤ n → morecore n s.heap nunits = some (some h'.freep, h')) ∧
      Inv base { s with heap := h' } nodes' ∧ ∃ a ∈ nodes', nunits ≤ h'.size a := by
  obtain ⟨nu, hnu⟩ : ∃ nu, nu = if nunits < 4096 then 4096 else nunits := ⟨_, rfl⟩
  have hle : 4096 ≤ nu ∧ nunits ≤ nu ∧ 8 * nu < 2 ^ 31 := by
    split at hnu <;> omega
  have hbytes : toInt (nu * 8 % 2 ^ 32) = ((8 * nu : Nat) : Int) := by
    rw [Nat.mod_eq_of_lt (by omega), toInt, if_pos (by omega), Nat.mul_comm]
  have hpos : (0 : Int) < ((8 * nu : Nat) : Int) := by omega
  by_cases hden : s.heap.denied s.heap.calls = true ∨ KERNBASE ≤ s.heap.brk + 8 * nu
  · refine .inl ⟨{ s.heap with calls := s.heap.calls + 1 }, fun n => ?_, ?_⟩
    · simp only [morecore, ← hnu, hbytes, sbrk, if_pos hpos, Int.toNat_natCast, if_pos hden]
    · exact h.frame (fun _ _ => rfl) (fun _ _ => rfl) (fun _ _ => rfl) rfl rfl le_rfl h.lt h.own
  · obtain ⟨-, hlim⟩ := not_or.mp hden
    obtain ⟨h₁, hh₁⟩ : ∃ h₁ : Heap, h₁ = Heap.setSize { s.heap with
        brk := s.heap.brk + 8 * nu
        calls := s.heap.calls + 1
        got := (s.heap.brk, 8 * nu) :: s.heap.got } s.heap.brk nu := ⟨_, rfl⟩
    have hrun : ∀ n, morecore n s.heap nunits =
        (free n h₁ (adv s.heap.brk 1)).map fun h => (some h.freep, h) := fun n => by
      simp only [morecore, ← hnu, hbytes, sbrk, if_pos hpos, Int.toNat_natCast, if_neg hden, hh₁]
    have hfresh : Inv base ⟨h₁, (s.heap.brk, 8 * nu - 8) :: s.live, s.own⟩ nodes := by
      rw [hh₁]
      exact h.fresh (by omega) rfl rfl rfl rfl rfl (not_le.mp hlim)
    obtain ⟨h', nodes', hfree, hinv, a, ha, hlarge⟩ := hfresh.free_spec List.mem_cons_self
    rw [List.erase_cons_head] at hinv
    have hself : h₁.size s.heap.brk = nu := by
      rw [hh₁]
      exact update_self ..
    refine .inr ⟨h', nodes', fun n hn => ?_, hinv, a, ha, ?_⟩
    · rw [hrun, hfree n hn]
      rfl
    · rw [hself] at hlarge
      omega

/-- The circle from `freep` on. -/
theorem FreeRing.leads_rover {h : Heap} (hr : FreeRing base h nodes) :
    ∃ l, Leads h.ptr h.freep l h.freep ∧ h.freep ∉ l ∧ (h.freep :: l).Perm nodes := by
  obtain ⟨k, l, hkl⟩ := List.append_of_mem hr.rover
  have hperm : (h.freep :: (l ++ k)).Perm nodes := by
    rw [hkl]
    exact @List.perm_append_comm _ (h.freep :: l) k
  have hcircle := hr.circle
  rw [hkl] at hcircle
  exact ⟨l ++ k, hcircle.leads, (List.nodup_cons.mp (hperm.nodup_iff.mpr hr.nodup)).1, hperm⟩

/-- A large enough block is found, or `morecore` is called and the search goes on. -/
theorem mallocLoop_round {nunits nbytes : Nat} (h : Inv base s nodes) (hn : 0 < nunits)
    (hreq : nbytes + 8 ≤ 8 * nunits) :
    (∃ y h' nodes', (∀ n, nodes.length ≤ n →
        mallocLoop nunits n s.heap s.heap.freep (s.heap.ptr s.heap.freep) = some (y + 8, h')) ∧
      Inv base ⟨h', (y, nbytes) :: s.live, s.own⟩ nodes') ∨
    ((∀ a ∈ nodes, s.heap.size a < nunits) ∧ ∀ n,
      mallocLoop nunits (n + nodes.length) s.heap s.heap.freep (s.heap.ptr s.heap.freep) =
        (morecore n s.heap nunits).bind fun x =>
          match x.1 with
          | none => some (0, x.2)
          | some p => mallocLoop nunits n x.2 p (x.2.ptr p)) := by
  obtain ⟨l, hleads, hnot, hperm⟩ := h.ring.leads_rover
  have hlen := hperm.length_eq
  rw [List.length_cons] at hlen
  rcases mallocLoop_search nunits hleads hnot with ⟨p, hp, hsize, hrun⟩ | ⟨hsmall, hrun⟩
  · obtain ⟨y, nodes', hy, ht⟩ := take_spec h.ring (hperm.mem_iff.mp hp) hn hsize
    refine .inl ⟨y, _, nodes', fun n hle => ?_, h.take hn hreq ht⟩
    rw [hrun n (by omega), ← hy]
  · refine .inr ⟨fun a ha => ?_, fun n => ?_⟩
    · exact hsmall a (List.perm_append_singleton .. |>.mem_iff.mpr (hperm.mem_iff.mpr ha))
    · rw [← hlen, ← Nat.add_assoc]
      exact hrun n

theorem mallocLoop_spec {nunits nbytes : Nat} (h : Inv base s nodes) (hn : 0 < nunits)
    (hreq : nbytes + 8 ≤ 8 * nunits) (hsmall : 8 * nunits < 2 ^ 31) :
    ∃ r h' nodes',
      Returns (fun n => mallocLoop nunits n s.heap s.heap.freep (s.heap.ptr s.heap.freep)) (r, h') ∧
      (r = 0 ∧ Inv base { s with heap := h' } nodes' ∨
        ∃ y, r = y + 8 ∧ Inv base ⟨h', (y, nbytes) :: s.live, s.own⟩ nodes') := by
  rcases mallocLoop_round h hn hreq with ⟨y, h', nodes', hrun, hinv⟩ | ⟨-, hrun⟩
  · exact ⟨y + 8, h', nodes', ⟨_, hrun⟩, .inr ⟨y, rfl, hinv⟩⟩
  rcases morecore_spec h hsmall with ⟨h', hmore, hinv⟩ | ⟨h₁, nodes₁, hmore, hinv₁, a, ha, hlarge⟩
  · refine ⟨0, h', nodes, ⟨nodes.length, fun n hle => ?_⟩, .inl ⟨rfl, hinv⟩⟩
    obtain ⟨m, rfl⟩ := Nat.exists_eq_add_of_le' hle
    simp only [hrun, hmore, Option.bind_some]
  · -- now the search succeeds
    rcases mallocLoop_round hinv₁ hn hreq with ⟨y, h', nodes', hrun₁, hinv⟩ | ⟨hless, -⟩
    · refine ⟨y + 8, h', nodes', ⟨nodes.length + nodes₁.length + nodes.length, fun n hle => ?_⟩,
        .inr ⟨y, rfl, hinv⟩⟩
      obtain ⟨m, rfl⟩ : ∃ m, n = m + nodes.length := ⟨n - nodes.length, by omega⟩
      simp only [hrun, hmore m (by omega), Option.bind_some]
      exact hrun₁ m (by omega)
    · exact absurd (hless a ha) (not_lt.mpr hlarge)

/-- `malloc` has not been called yet. -/
structure Unused (base : Nat) (s : State) : Prop where
  freep : s.heap.freep = 0
  got : s.heap.got = []
  live : s.live = []
  own : ∀ x ∈ cover s.own, base + 8 ≤ x ∧ x < s.heap.brk
  low : 8 ≤ base
  brk : base + 8 ≤ s.heap.brk
  lt : s.heap.brk < KERNBASE

def Sound (base : Nat) (s : State) : Prop := Unused base s ∨ ∃ nodes, Inv base s nodes

/-- The beginning of `malloc`. -/
def ready (base : Nat) (h : Heap) : Heap :=
  if h.freep = 0 then { (h.setPtr base base).setSize base 0 with freep := base } else h

theorem Sound.ready (h : Sound base s) :
    ∃ nodes, Inv base { s with heap := ready base s.heap } nodes := by
  rcases h with h | ⟨nodes, h⟩
  · have hlow := h.brk
    have hlt := h.lt
    simp only [KERNBASE] at hlt
    refine ⟨[base], ?_⟩
    rw [Umalloc.ready, if_pos h.freep]
    have hzero : update s.heap.size base 0 base = 0 := update_self ..
    refine ⟨⟨rfl, update_self .., List.mem_singleton_self base, hzero, fun a ha hne => ?_,
      List.pairwise_singleton .., fun a ha => ?_⟩, ?_, ?_, ?_, h.own, ?_, h.low, h.brk, h.lt⟩
    · exact absurd (List.mem_singleton.mp ha) hne
    · rw [List.mem_singleton.mp ha]
      simp only [Heap.setSize, Heap.setPtr, hzero]
      omega
    · simp [cover, extents, Heap.setSize, Heap.setPtr, h.got, h.live]
    · simp [Heap.setSize, Heap.setPtr, h.got]
    · simp [Heap.setSize, Heap.setPtr, h.got]
    · simp [h.live]
  · have hne : s.heap.freep ≠ 0 := by
      have hle := h.le_freep
      omega
    refine ⟨nodes, ?_⟩
    rw [Umalloc.ready, if_neg hne]
    exact h

/-- **malloc ends**, and keeps the invariant. -/
theorem malloc_spec {nbytes : Nat} (h : Sound base s) (hsmall : 8 * exactUnits nbytes < 2 ^ 31) :
    ∃ r h' nodes, Returns (fun n => malloc base n s.heap nbytes) (r, h') ∧
      (r = 0 ∧ Inv base { s with heap := h' } nodes ∨
        ∃ y, r = y + 8 ∧ Inv base ⟨h', (y, nbytes) :: s.live, s.own⟩ nodes) := by
  have hunits : units nbytes = exactUnits nbytes := by
    rw [exactUnits] at hsmall
    rw [units, exactUnits, Nat.mod_eq_of_lt (by omega)]
  obtain ⟨nodes, hinv⟩ := h.ready
  rw [exactUnits] at hunits hsmall
  exact mallocLoop_spec hinv (by omega) (by omega) (by omega)

/-! ## 4. All runs -/

theorem sbrk_pos {h : Heap} {n : Nat} (hn : 0 < n) :
    sbrk h n = (none, { h with calls := h.calls + 1 }) ∨
    h.brk + n < KERNBASE ∧
      sbrk h n = (some h.brk, { h with brk := h.brk + n, calls := h.calls + 1 }) := by
  rw [sbrk, if_pos (Int.natCast_pos.mpr hn), Int.toNat_natCast]
  split
  next => exact .inl rfl
  next hc => exact .inr ⟨not_le.mp (not_or.mp hc).2, rfl⟩

/-- What `sbrk` returns begins at the old end. -/
theorem own_grow {own : List (Nat × Nat)} {brk n : Nat} (hbrk : base + 8 ≤ brk)
    (h : ∀ x ∈ cover own, base + 8 ≤ x ∧ x < brk) :
    ∀ x ∈ cover ((brk, n) :: own : List (Nat × Nat)), base + 8 ≤ x ∧ x < brk + n := by
  intro x hx
  rw [← Multiset.cons_coe, cover_cons] at hx
  rcases Multiset.mem_add.mp hx with hx | hx
  · have hin := Multiset.mem_Ico.mp hx
    omega
  · have hin := h x hx
    omega

/-- The program grows. -/
theorem Sound.sbrk {n : Nat} (h : Sound base s) (hn : 0 < n) :
    Sound base { s with
      heap := (sbrk s.heap n).2
      own := ((sbrk s.heap n).1.map fun p => (p, n)).toList ++ s.own } := by
  rcases sbrk_pos hn with hno | ⟨hlt, hyes⟩
  · rw [hno]
    rcases h with h | ⟨nodes, h⟩
    · exact .inl ⟨h.freep, h.got, h.live, h.own, h.low, h.brk, h.lt⟩
    · exact .inr ⟨nodes, h.frame (fun _ _ => rfl) (fun _ _ => rfl) (fun _ _ => rfl) rfl rfl le_rfl
        h.lt h.own⟩
  · rw [hyes]
    rcases h with h | ⟨nodes, h⟩
    · exact .inl ⟨h.freep, h.got, h.live, own_grow h.brk h.own, h.low,
        h.brk.trans (Nat.le_add_right ..), hlt⟩
    · exact .inr ⟨nodes, h.frame (fun _ _ => rfl) (fun _ _ => rfl) (fun _ _ => rfl) rfl rfl
        (Nat.le_add_right ..) hlt (own_grow h.brk h.own)⟩

/-- The program writes inside a block, where no header is. -/
theorem Sound.write {b : Nat × Nat} {v w : Nat} (h : Sound base s) (hb : b ∈ s.live) (hlt : b.1 < a)
    (hend : a < b.1 + 8 * s.heap.size b.1) :
    Sound base { s with heap := { s.heap with
      ptr := update s.heap.ptr a v, size := update s.heap.size a w } } := by
  rcases h with h | ⟨nodes, h⟩
  · rw [h.live] at hb
    cases hb
  have hnode : ∀ c ∈ nodes, c ≠ a := by
    rintro c hc rfl
    have hne : c ≠ base := by
      have hle := (h.live_le_brk hb).1
      omega
    have hpos := h.ring.pos c hc hne
    exact (h.live_byte hb hlt.le hend).1 (cover_block hc le_rfl (by omega))
  have hlive : ∀ c ∈ s.live, c.1 ≠ a := by
    rintro c hc rfl
    have hpos := (h.live c hc).1
    have hne : b ≠ c := fun e => by
      rw [e] at hlt
      exact lt_irrefl _ hlt
    rcases h.live_apart.forall hb hc hne with hapart | hapart <;> omega
  exact .inr ⟨nodes, h.frame (fun c hc => update_of_ne (hnode c hc) ..)
    (fun c hc => update_of_ne (hnode c hc) ..)
    (fun c hc => update_of_ne (hlive c hc) ..) rfl rfl le_rfl h.lt h.own⟩

theorem Step.sound {s' : State} {act : Act} (h : Sound base s) (hlegal : Legal s act)
    (hstep : Step base s act s') : Sound base s' := by
  cases hstep with
  | none hrun =>
    obtain ⟨r, h', nodes, hrun', hcase⟩ := malloc_spec h hlegal
    obtain ⟨rfl, rfl⟩ := Prod.mk.inj (hrun.unique hrun')
    rcases hcase with ⟨-, hinv⟩ | ⟨y, hy, -⟩
    · exact .inr ⟨nodes, hinv⟩
    · omega
  | malloc hrun =>
    obtain ⟨r, h', nodes, hrun', hcase⟩ := malloc_spec h hlegal
    obtain ⟨rfl, rfl⟩ := Prod.mk.inj (hrun.unique hrun')
    rcases hcase with ⟨hr, -⟩ | ⟨y, hy, hinv⟩
    · omega
    · obtain rfl := Nat.add_right_cancel hy
      exact .inr ⟨nodes, hinv⟩
  | free hmem hrun =>
    rcases h with h | ⟨nodes, h⟩
    · rw [h.live] at hmem
      cases hmem
    · obtain ⟨h', nodes', hrun', hinv, -⟩ := h.free_spec hmem
      obtain rfl := hrun.unique ⟨_, hrun'⟩
      exact .inr ⟨nodes', hinv⟩
  | sbrk => exact h.sbrk hlegal
  | write =>
    obtain ⟨b, hb, hlt, hend⟩ := hlegal
    exact h.write hb hlt hend

theorem Reach.sound (h : Reach base s) : Sound base s := by
  induction h with
  | start h =>
    refine .inl ⟨h.freep, h.got, h.live, ?_, h.low, h.brk, h.lt⟩
    rw [h.own]
    exact fun x hx => absurd hx (Multiset.notMem_zero x)
  | step _ hlegal hstep ih => exact hstep.sound ih hlegal

/-- Every call ends. -/
theorem Sound.step {act : Act} (h : Sound base s) (hlegal : Legal s act) :
    ∃ s', Step base s act s' := by
  cases act with
  | malloc nbytes =>
    obtain ⟨r, h', nodes, hrun, ⟨rfl, -⟩ | ⟨y, rfl, -⟩⟩ := malloc_spec h hlegal
    · exact ⟨_, .none hrun⟩
    · exact ⟨_, .malloc hrun⟩
  | free bp =>
    obtain ⟨nbytes, hmem⟩ := hlegal
    rcases h with h | ⟨nodes, h⟩
    · rw [h.live] at hmem
      cases hmem
    · obtain ⟨h', nodes', hrun, -⟩ := h.free_spec hmem
      exact ⟨_, .free hmem ⟨_, hrun⟩⟩
  | sbrk n => exact ⟨_, .sbrk⟩
  | write a v w => exact ⟨_, .write⟩

/-- Only the last block of the circle is followed by one that does not lie behind it. -/
theorem FreeRing.wrap {h : Heap} (hr : FreeRing base h nodes) : ∃! a, a ∈ nodes ∧ h.ptr a ≤ a := by
  have hlast : ∀ a ∈ nodes, h.ptr a ≤ a ↔ ∃ k, nodes = k ++ [a] := fun a ha => by
    obtain ⟨k, r, rfl⟩ := List.append_of_mem ha
    have hbase := hr.base_le ha
    cases r with
    | nil => exact iff_of_true (hr.next ▸ hbase) ⟨k, rfl⟩
    | cons b r =>
      have hlt : a < b := (List.pairwise_cons.mp (List.pairwise_append.mp hr.sorted).2.1).1 b
        List.mem_cons_self
      refine iff_of_false (fun hle => ?_) fun ⟨k', hk⟩ => ?_
      · rw [hr.next] at hle
        exact absurd hle (not_le.mpr hlt)
      · have hnodup := hr.nodup
        rw [List.nodup_append, List.nodup_cons] at hnodup
        have hin : a ∈ b :: r := by
          have hl := congrArg List.getLast? hk
          rw [List.getLast?_append_cons, List.getLast?_cons_cons, List.getLast?_concat] at hl
          exact List.mem_of_getLast? hl
        exact hnodup.2.1.1 hin
  have hne : nodes ≠ [] := List.ne_nil_of_mem hr.base_mem
  refine ⟨nodes.getLast hne, ⟨List.getLast_mem hne, ?_⟩, fun a ⟨ha, hle⟩ => ?_⟩
  · exact (hlast _ (List.getLast_mem hne)).mpr ⟨_, (List.dropLast_append_getLast hne).symm⟩
  · obtain ⟨k, hk⟩ := (hlast a ha).mp hle
    simp only [hk, List.getLast_append_singleton]

/-- What is true of the heap: `nodes` are the free blocks in the order of their addresses. -/
structure WellFormed (s : State) (nodes : List Nat) : Prop where
  circle : Circle s.heap.ptr nodes
  freep : s.heap.freep ∈ nodes
  sorted : nodes.Pairwise (· < ·)
  wrap : ∃! a, a ∈ nodes ∧ s.heap.ptr a ≤ a
  /-- They do not overlap, and none ends where another begins. -/
  free : nodes.Pairwise fun a b => a + 8 * s.heap.size a < b
  live : s.live.Pairwise fun b c => Apart s.heap b.1 c.1
  mixed : ∀ b ∈ s.live, ∀ a ∈ nodes, Apart s.heap a b.1
  /-- Behind the header there is room for the request. -/
  room : ∀ b ∈ s.live, b.2 + 8 ≤ 8 * s.heap.size b.1
  total : (nodes.map fun a => 8 * s.heap.size a).sum +
    (s.live.map fun b => 8 * s.heap.size b.1).sum = (s.heap.got.map Prod.snd).sum

theorem Inv.wellFormed (h : Inv base s nodes) : WellFormed s nodes := by
  refine ⟨h.ring.circle, h.ring.rover, h.ring.sorted, h.ring.wrap, h.ring.gaps, h.live_apart,
    fun b hb a ha => h.free_apart hb ha, fun b hb => (h.live b hb).2, ?_⟩
  have hcard := congrArg Multiset.card h.cover
  rw [card_cover, card_cover, Multiset.map_add, Multiset.sum_add] at hcard
  simpa [extents, comp_def] using hcard

/-- **The heap stays well formed**, and every call ends.  Before the first `malloc` there is no list of
free blocks. -/
theorem heap_wellformed (h : Reach base s) :
    (s.heap.freep = 0 ∧ s.live = [] ∧ s.heap.got = [] ∨ ∃ nodes, WellFormed s nodes) ∧
    ∀ act, Legal s act → ∃ s', Step base s act s' := by
  refine ⟨?_, fun act hlegal => h.sound.step hlegal⟩
  rcases h.sound with hu | ⟨nodes, hinv⟩
  · exact .inl ⟨hu.freep, hu.live, hu.got⟩
  · exact .inr ⟨nodes, hinv.wellFormed⟩

/-! ## 5. Large requests -/

/-- The bytes behind the pointer have been got from `sbrk`, and no live block has them. -/
def Honoured (s : State) (nbytes r : Nat) (h' : Heap) : Prop :=
  ∀ x, r ≤ x → x < r + nbytes →
    (x ∈ cover h'.got ∨ x ∈ cover s.own) ∧
    ∀ b ∈ s.live, ¬(b.1 ≤ x ∧ x < b.1 + 8 * h'.size b.1)

theorem honoured_of_inv {y nbytes : Nat}
    (h : Inv base ⟨h', (y, nbytes) :: s.live, s.own⟩ nodes) : Honoured s nbytes (y + 8) h' := by
  intro x hle hlt
  have hroom := (h.live _ List.mem_cons_self).2
  simp only at hroom
  refine ⟨.inl ?_, fun b hb hin => ?_⟩
  · have hbyte := h.live_byte (x := x) List.mem_cons_self
    simp only at hbyte
    exact (hbyte (by omega) (by omega)).2
  · rcases (List.pairwise_cons.mp h.live_apart).1 b hb with hapart | hapart <;>
      simp only at hapart <;> omega

theorem joinUp_keeps {h : Heap} {p : Nat} :
    (joinUp h bp p).got = h.got ∧ (joinUp h bp p).brk = h.brk := by
  rw [joinUp]
  split <;> exact ⟨rfl, rfl⟩

theorem joinDown_keeps {h : Heap} {p : Nat} :
    (joinDown h bp p).got = h.got ∧ (joinDown h bp p).brk = h.brk := by
  rw [joinDown]
  split <;> exact ⟨rfl, rfl⟩

theorem free_keeps {n ap : Nat} {h : Heap} (hrun : free n h ap = some h') :
    h'.got = h.got ∧ h'.brk = h.brk := by
  obtain ⟨bp, hbp⟩ : ∃ bp, (ap + 2 ^ 32 - 8) % 2 ^ 32 = bp := exists_eq'
  rw [free_eq hbp] at hrun
  obtain ⟨p, -, rfl⟩ := Option.map_eq_some_iff.mp hrun
  exact ⟨joinDown_keeps.1.trans joinUp_keeps.1, joinDown_keeps.2.trans joinUp_keeps.2⟩

/-- What `morecore` has got lies in the address space of the user.  The end of the process matters as
long as it moves up. -/
def Within (base : Nat) (bytes : Int) (h : Heap) : Prop :=
  (∀ x ∈ cover h.got, base + 8 ≤ x ∧ x < KERNBASE) ∧ (0 < bytes → base + 8 ≤ h.brk)

/-- The argument of `sbrk`. -/
def bytesOf (nunits : Nat) : Int := toInt ((if nunits < 4096 then 4096 else nunits) * 8 % 2 ^ 32)

/-- What `sbrk` does to the end of the process. -/
theorem sbrk_some {h : Heap} {n : Int} {p : Nat} (hrun : sbrk h n = (some p, h')) :
    h'.got = h.got ∧ (0 < n → p = h.brk ∧ h'.brk = p + n.toNat ∧ h'.brk < KERNBASE) := by
  rw [sbrk] at hrun
  split at hrun
  next hpos =>
    split at hrun
    next => cases (Prod.mk.inj hrun).1
    next hc =>
      obtain ⟨hp, rfl⟩ := Prod.mk.inj hrun
      obtain rfl := Option.some.inj hp
      exact ⟨rfl, fun _ => ⟨rfl, rfl, not_le.mp (not_or.mp hc).2⟩⟩
  next hneg =>
    refine ⟨?_, fun hpos => absurd hpos hneg⟩
    split at hrun
    next =>
      dsimp only at hrun
      split at hrun
      next => cases (Prod.mk.inj hrun).1
      next =>
        obtain ⟨-, rfl⟩ := Prod.mk.inj hrun
        rfl
    next =>
      obtain ⟨-, rfl⟩ := Prod.mk.inj hrun
      rfl

theorem sbrk_none {h : Heap} {n : Int} (hrun : sbrk h n = (none, h')) :
    h'.got = h.got ∧ h'.brk = h.brk := by
  rw [sbrk] at hrun
  split at hrun
  next =>
    split at hrun
    next =>
      obtain ⟨-, rfl⟩ := Prod.mk.inj hrun
      exact ⟨rfl, rfl⟩
    next => cases (Prod.mk.inj hrun).1
  next =>
    split at hrun
    next =>
      dsimp only at hrun
      split at hrun
      next =>
        obtain ⟨-, rfl⟩ := Prod.mk.inj hrun
        exact ⟨rfl, rfl⟩
      next => cases (Prod.mk.inj hrun).1
    next => cases (Prod.mk.inj hrun).1

theorem morecore_within {nunits n : Nat} {h : Heap} {o : Option Nat}
    (hw : Within base (bytesOf nunits) h) (hrun : morecore n h nunits = some (o, h')) :
    Within base (bytesOf nunits) h' := by
  rw [morecore] at hrun
  dsimp only at hrun
  rw [← bytesOf] at hrun
  generalize bytesOf nunits = bytes at hw hrun
  split at hrun
  next h₁ hsb =>
    obtain ⟨-, rfl⟩ := Prod.mk.inj (Option.some.inj hrun)
    obtain ⟨hgot, hbrk⟩ := sbrk_none hsb
    rw [Within, hgot, hbrk]
    exact hw
  next p h₁ hsb =>
    obtain ⟨hgot, hpos⟩ := sbrk_some hsb
    obtain ⟨h₂, hfree, heq⟩ := Option.map_eq_some_iff.mp hrun
    obtain ⟨-, rfl⟩ := Prod.mk.inj heq
    obtain ⟨hgot₂, hbrk₂⟩ := free_keeps hfree
    by_cases hb : 0 < bytes
    · obtain ⟨rfl, hbrk, hlt⟩ := hpos hb
      rw [if_pos hb] at hgot₂ hbrk₂
      simp only [Heap.setSize] at hgot₂ hbrk₂
      have hlow := hw.2 hb
      rw [Within, hgot₂, hbrk₂, hgot, ← Multiset.cons_coe, cover_cons]
      refine ⟨fun x hx => ?_, fun _ => by omega⟩
      rcases Multiset.mem_add.mp hx with hx | hx
      · have hin := Multiset.mem_Ico.mp hx
        omega
      · exact hw.1 x hx
    · rw [if_neg hb] at hgot₂
      rw [Within, hgot₂]
      exact ⟨hgot ▸ hw.1, fun hb' => absurd hb' hb⟩

theorem mallocLoop_within {nunits n prevp p r : Nat} {h : Heap}
    (hw : Within base (bytesOf nunits) h) (hrun : mallocLoop nunits n h prevp p = some (r, h')) :
    ∀ x ∈ cover h'.got, base + 8 ≤ x ∧ x < KERNBASE := by
  induction n generalizing h prevp p with
  | zero => cases hrun
  | succ n ih =>
    rw [mallocLoop] at hrun
    split at hrun
    next =>
      have htake : (take h nunits prevp p).2 = h' := congrArg Prod.snd (Option.some.inj hrun)
      have hgot : h'.got = h.got := by
        rw [← htake, take]
        split <;> rfl
      rw [hgot]
      exact hw.1
    next =>
      split at hrun
      next =>
        cases hmore : morecore n h nunits with
        | none =>
          rw [hmore] at hrun
          cases hrun
        | some res =>
          obtain ⟨o, h₁⟩ := res
          have hw₁ := morecore_within hw hmore
          rw [hmore] at hrun
          cases o with
          | none =>
            obtain ⟨-, rfl⟩ := Prod.mk.inj (Option.some.inj hrun)
            exact hw₁.1
          | some q => exact ih hw₁ hrun
      next => exact ih hw hrun

/-- A large request is more than what lies below the kernel. -/
theorem not_honoured {nbytes r : Nat} (h : Sound base s) (hbig : 2 ^ 31 ≤ 8 * exactUnits nbytes)
    (hrun : Returns (fun n => malloc base n s.heap nbytes) (r, h')) : ¬Honoured s nbytes r h' := by
  intro hon
  obtain ⟨nodes, hinv⟩ := h.ready
  obtain ⟨m, hm⟩ := hrun
  have hlow := hinv.low
  have hlt := hinv.lt
  have hloop : mallocLoop (units nbytes) m (ready base s.heap) (ready base s.heap).freep
      ((ready base s.heap).ptr (ready base s.heap).freep) = some (r, h') := hm m le_rfl
  have hw : Within base (bytesOf (units nbytes)) (ready base s.heap) :=
    ⟨fun x hx => ⟨(hinv.range x hx).1, (hinv.range x hx).2.trans hlt⟩, fun _ => hinv.brk⟩
  have hwithin := mallocLoop_within hw hloop
  have hbyte : ∀ x, r ≤ x → x < r + nbytes → base + 8 ≤ x ∧ x < KERNBASE := fun x hle hx => by
    rcases (hon x hle hx).1 with hin | hin
    · exact hwithin x hin
    · exact ⟨(hinv.own x hin).1, (hinv.own x hin).2.trans hlt⟩
  rw [exactUnits] at hbig
  have hfirst := hbyte r le_rfl (by omega)
  have hend := hbyte (r + nbytes - 1) (by omega) (by omega)
  simp only [KERNBASE] at hfirst hend
  omega

end

/-- The beginning: the header lies in the third page, and the process ends behind it. -/
def first : State where
  heap := ⟨fun _ => 0, fun _ => 0, 0, 12288, 0, fun _ => false, []⟩
  live := []
  own := []

theorem start_first : Start 8192 first := ⟨rfl, rfl, rfl, rfl, by decide, by decide, by decide⟩

theorem heap_wellformed_afterMalloc : ∃ s, Step 8192 first (.malloc 10) s ∧
    (s.heap.freep = 0 ∧ s.live = [] ∧ s.heap.got = [] ∨ ∃ nodes, WellFormed s nodes) ∧
    ∀ act, Legal s act → ∃ s', Step 8192 s act s' := by
  have hlegal : Legal first (.malloc 10) := by
    simp only [Legal, exactUnits]
    omega
  have hstart := Reach.start start_first
  obtain ⟨s, hs⟩ := hstart.sound.step hlegal
  exact ⟨s, hs, heap_wellformed (.step hstart hlegal hs)⟩

end Xv6.Umalloc
