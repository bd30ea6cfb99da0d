/-
# The user heap

`malloc` and `free` of `umalloc.c`.  Memory comes from `sbrk` in large pieces.  The free blocks are in
a circle of links in the order of their addresses, which begins with the static header `base`, and a
call starts wherever the last one has left `freep`.

A block begins with a header: a link and the size, in units of eight bytes.  The links and sizes are
given by the address of the header; pointers and sizes are `uint`s.  `sbrk` takes an `int`, and with a
negative one the process shrinks.

This module has the code and what it does to the circle (`FreeRing`): the loop of `free` ends at the block
in front of the new one (`freeLoop_eq`), and the loop of `malloc` at a block that is large enough, or
where it has started (`mallocLoop_search`).
-/
import Xv6.Lib.Circle
import Xv6.Lib.Extents
import Xv6.Param

namespace Xv6.Umalloc

open Function (update update_of_ne update_self)

/-! ## 1. The code -/

/-- The headers, the variables of `umalloc.c`, and what the kernel does for `sbrk`. -/
structure Heap where
  /-- `p->s.ptr` and `p->s.size`, for the header at an address. -/
  ptr : Nat → Nat
  size : Nat → Nat
  freep : Nat
  /-- The size of the process. -/
  brk : Nat
  /-- How often `sbrk` has been asked for memory, and when there is none. -/
  calls : Nat
  denied : Nat → Bool
  /-- What `morecore` has got: addresses, and numbers of bytes. -/
  got : List (Nat × Nat)

namespace Heap

def setPtr (h : Heap) (p q : Nat) : Heap := { h with ptr := Function.update h.ptr p q }

def setSize (h : Heap) (p n : Nat) : Heap := { h with size := Function.update h.size p n }

end Heap

/-- `p + n`, for a pointer to headers. -/
def adv (p n : Nat) : Nat := (p + 8 * n) % 2 ^ 32

/-- The two tests of the loop of `free`: the block at `bp` goes behind the one at `p`. -/
def freeStops (h : Heap) (bp p : Nat) : Bool :=
  (p < bp && bp < h.ptr p) || (h.ptr p ≤ p && (p < bp || bp < h.ptr p))

/-- `free`, with a loop of at most `n` turns. -/
def free (n : Nat) (h : Heap) (ap : Nat) : Option Heap := do
  let bp := (ap + 2 ^ 32 - 8) % 2 ^ 32
  let p ← follow h.ptr (freeStops h bp) n h.freep
  let h :=
    if adv bp (h.size bp) = h.ptr p then
      let h := h.setSize bp ((h.size bp + h.size (h.ptr p)) % 2 ^ 32)
      h.setPtr bp (h.ptr (h.ptr p))
    else h.setPtr bp (h.ptr p)
  let h :=
    if adv p (h.size p) = bp then
      let h := h.setSize p ((h.size p + h.size bp) % 2 ^ 32)
      h.setPtr p (h.ptr bp)
    else h.setPtr p bp
  return { h with freep := p }

/-- An `int` from the bits of a `uint`. -/
def toInt (x : Nat) : Int := if x < 2 ^ 31 then x else (x : Int) - 2 ^ 32

/-- `sys_sbrk` and `growproc`: the old end of the process, or -1. -/
def sbrk (h : Heap) (n : Int) : Option Nat × Heap :=
  if 0 < n then
    -- allocuvm
    if h.denied h.calls ∨ KERNBASE ≤ h.brk + n.toNat then (none, { h with calls := h.calls + 1 })
    else (some h.brk, { h with brk := h.brk + n.toNat, calls := h.calls + 1 })
  else if n < 0 then
    -- deallocuvm, which returns the smaller one
    let sz := min h.brk ((h.brk + n) % 2 ^ 32).toNat
    if sz = 0 then (none, h) else (some h.brk, { h with brk := sz })
  else (some h.brk, h)

/-- `morecore`, which returns `freep`, or 0 if there is no memory. -/
def morecore (n : Nat) (h : Heap) (nu : Nat) : Option (Option Nat × Heap) :=
  let nu := if nu < 4096 then 4096 else nu
  let bytes := toInt (nu * 8 % 2 ^ 32)
  match sbrk h bytes with
  | (none, h) => some (none, h)
  | (some p, h) =>
    let h := if 0 < bytes then { h with got := (p, bytes.toNat) :: h.got } else h
    let h := h.setSize p nu
    (free n h (adv p 1)).map fun h => (some h.freep, h)

/-- The block `p` is large enough, and `prevp` is in front of it. -/
def take (h : Heap) (nunits prevp p : Nat) : Nat × Heap :=
  if h.size p = nunits then
    let h := h.setPtr prevp (h.ptr p)
    (adv p 1, { h with freep := prevp })
  else
    let h := h.setSize p (h.size p - nunits)
    let p := adv p (h.size p)
    let h := h.setSize p nunits
    (adv p 1, { h with freep := prevp })

/-- The loop of `malloc`. -/
def mallocLoop (nunits : Nat) : Nat → Heap → Nat → Nat → Option (Nat × Heap)
  | 0, _, _, _ => none
  | n + 1, h, prevp, p =>
    if nunits ≤ h.size p then some (take h nunits prevp p)
    else if p = h.freep then
      match morecore n h nunits with
      | none => none
      | some (none, h) => some (0, h)
      | some (some p, h) => mallocLoop nunits n h p (h.ptr p)
    else mallocLoop nunits n h p (h.ptr p)

def units (nbytes : Nat) : Nat := (nbytes + 7) % 2 ^ 32 / 8 + 1

/-- `malloc`, with loops of at most `n` turns. -/
def malloc (base n : Nat) (h : Heap) (nbytes : Nat) : Option (Nat × Heap) :=
  let h := if h.freep = 0 then { (h.setPtr base base).setSize base 0 with freep := base } else h
  mallocLoop (units nbytes) n h h.freep (h.ptr h.freep)

/-! ## 2. The circle of free blocks -/

/-- The free blocks, the static header first: in a circle, in order, and none next to another. -/
structure FreeRing (base : Nat) (h : Heap) (nodes : List Nat) : Prop where
  first : nodes.head? = some base
  circle : Circle h.ptr nodes
  rover : h.freep ∈ nodes
  empty : h.size base = 0
  pos : ∀ a ∈ nodes, a ≠ base → 0 < h.size a
  gaps : nodes.Pairwise fun a b => a + 8 * h.size a < b
  /-- They end inside the address space. -/
  bound : ∀ a ∈ nodes, a + 8 * h.size a < 2 ^ 32

/-- The extents of blocks. -/
def extents (h : Heap) (l : List Nat) : Multiset (Nat × Nat) := l.map fun a => (a, 8 * h.size a)

section

variable {base bp p x : Nat} {h h' : Heap} {nodes k l r : List Nat}

theorem FreeRing.sorted (hr : FreeRing base h nodes) : nodes.Pairwise (· < ·) :=
  hr.gaps.imp fun hlt => lt_of_le_of_lt (Nat.le_add_right _ _) hlt

theorem FreeRing.congr {h' : Heap} (hr : FreeRing base h nodes)
    (hptr : ∀ a ∈ nodes, h'.ptr a = h.ptr a) (hsize : ∀ a ∈ nodes, h'.size a = h.size a)
    (hfreep : h'.freep = h.freep) : FreeRing base h' nodes := by
  have hbase : base ∈ nodes := List.mem_of_head? hr.first
  refine ⟨hr.first, ?_, hfreep ▸ hr.rover, (hsize base hbase).trans hr.empty, fun a ha hne => ?_, ?_,
    fun a ha => ?_⟩
  · cases nodes with
    | nil => exact trivial
    | cons a l => exact Leads.congr hr.circle hptr
  · rw [hsize a ha]
    exact hr.pos a ha hne
  · exact hr.gaps.imp_of_mem fun ha _ hlt => by rwa [hsize _ ha]
  · rw [hsize a ha]
    exact hr.bound a ha

theorem FreeRing.nodup (hr : FreeRing base h nodes) : nodes.Nodup := hr.sorted.imp fun hlt => hlt.ne

theorem FreeRing.base_mem (hr : FreeRing base h nodes) : base ∈ nodes := List.mem_of_head? hr.first

/-- The link of a node: to the next one, or from the last one to the first. -/
theorem FreeRing.next (hr : FreeRing base h (k ++ p :: r)) : h.ptr p = r.headD base := by
  have hnext := hr.circle.leads.next_eq
  rw [hnext]
  cases r with
  | cons q r => rfl
  | nil =>
    have hfirst := hr.first
    cases k with
    | nil => exact Option.some.inj hfirst
    | cons c k => exact Option.some.inj hfirst

theorem FreeRing.base_le (hr : FreeRing base h nodes) (hx : x ∈ nodes) : base ≤ x := by
  cases nodes with
  | nil => exact absurd hx List.not_mem_nil
  | cons c l =>
    obtain rfl : c = base := Option.some.inj hr.first
    rcases List.mem_cons.mp hx with rfl | hx
    · exact le_rfl
    · exact ((List.pairwise_cons.mp hr.sorted).1 x hx).le

/-- The loop of `free` stops at the node in front of `bp`, and there only. -/
theorem FreeRing.stops_iff (hr : FreeRing base h (k ++ p :: r)) (hbp : base < bp) :
    freeStops h bp p = true ↔ p < bp ∧ ∀ y ∈ r, bp < y := by
  have hnext := hr.next
  have hsort := hr.sorted
  have hle := hr.base_le (x := p) (List.mem_append_right _ List.mem_cons_self)
  rw [List.pairwise_append, List.pairwise_cons] at hsort
  obtain ⟨-, ⟨hafter, hrest⟩, -⟩ := hsort
  simp only [freeStops, hnext, Bool.or_eq_true, Bool.and_eq_true, decide_eq_true_eq]
  cases r with
  | nil =>
    rw [List.headD_nil]
    constructor
    · rintro (⟨hlt, -⟩ | ⟨-, hlt | hlt⟩)
      · exact ⟨hlt, List.forall_mem_nil _⟩
      · exact ⟨hlt, List.forall_mem_nil _⟩
      · omega
    · exact fun ⟨hlt, _⟩ => .inr ⟨hle, .inl hlt⟩
  | cons q r =>
    have hpq := hafter q List.mem_cons_self
    rw [List.headD_cons]
    constructor
    · rintro (⟨hlt, hltq⟩ | ⟨hqp, -⟩)
      · refine ⟨hlt, List.forall_mem_cons.mpr ⟨hltq, fun y hy => ?_⟩⟩
        exact hltq.trans ((List.pairwise_cons.mp hrest).1 y hy)
      · omega
    · exact fun ⟨hlt, hall⟩ => .inl ⟨hlt, hall q List.mem_cons_self⟩

/-- There is a node in front of every block. -/
theorem exists_before (hsort : nodes.Pairwise (· < ·)) (hfirst : nodes.head? = some base)
    (hbp : base < bp) (hnot : bp ∉ nodes) :
    ∃ k p r, nodes = k ++ p :: r ∧ p < bp ∧ ∀ y ∈ r, bp < y := by
  induction nodes generalizing base with
  | nil => cases hfirst
  | cons c l ih =>
    obtain rfl : c = base := Option.some.inj hfirst
    obtain ⟨hne, hnotl⟩ := not_or.mp (List.mem_cons.not.mp hnot)
    cases l with
    | nil => exact ⟨[], c, [], rfl, hbp, List.forall_mem_nil _⟩
    | cons d l =>
      obtain ⟨hc, hl⟩ := List.pairwise_cons.mp hsort
      rcases lt_or_ge d bp with hd | hd
      · obtain ⟨k, p, r, heq, hp, hr⟩ := ih hl rfl hd hnotl
        exact ⟨c :: k, p, r, by rw [heq]; rfl, hp, hr⟩
      · have hdb : bp < d := lt_of_le_of_ne hd fun e => hnotl (e ▸ List.mem_cons_self)
        refine ⟨[], c, d :: l, rfl, hbp, List.forall_mem_cons.mpr ⟨hdb, fun y hy => ?_⟩⟩
        exact hdb.trans ((List.pairwise_cons.mp hl).1 y hy)

/-- **The loop of `free`** finds this node, wherever it starts. -/
theorem freeLoop_eq (hr : FreeRing base h nodes) (hbp : base < bp) (hnot : bp ∉ nodes) :
    ∃ k p r, nodes = k ++ p :: r ∧ p < bp ∧ (∀ y ∈ r, bp < y) ∧
      ∀ n, nodes.length ≤ n → follow h.ptr (freeStops h bp) n h.freep = some p := by
  -- the node in front of the block passes the test, so some node does
  obtain ⟨k, p, r, heq, hp, hafter⟩ := exists_before hr.sorted hr.first hbp hnot
  have hstop : freeStops h bp p = true := by
    rw [heq] at hr
    exact (hr.stops_iff hbp).mpr ⟨hp, hafter⟩
  -- the circle, turned to where the loop starts
  obtain ⟨k₀, r₀, hturn⟩ := List.append_of_mem hr.rover
  have hleads : Leads h.ptr h.freep (r₀ ++ k₀) h.freep := by
    have hcircle := hr.circle
    rw [hturn] at hcircle
    exact hcircle.leads
  have hmem : ∀ {y}, y ∈ h.freep :: (r₀ ++ k₀) ↔ y ∈ nodes := by
    intro y
    rw [hturn]
    simp only [List.mem_cons, List.mem_append]
    tauto
  obtain ⟨x, hx⟩ : ∃ x, (h.freep :: (r₀ ++ k₀)).find? (freeStops h bp) = some x := by
    rw [← Option.isSome_iff_exists, List.find?_isSome]
    refine ⟨p, hmem.mpr ?_, hstop⟩
    rw [heq]
    exact List.mem_append_right _ List.mem_cons_self
  obtain ⟨k₁, r₁, heq₁⟩ := List.append_of_mem (hmem.mp (List.mem_of_find?_eq_some hx))
  have hlen : (r₀ ++ k₀).length < nodes.length := by
    rw [hturn]
    simp only [List.length_append, List.length_cons]
    omega
  have hstop₁ := List.find?_some hx
  rw [heq₁] at hr
  obtain ⟨hp₁, hafter₁⟩ := (hr.stops_iff hbp).mp hstop₁
  exact ⟨k₁, x, r₁, heq₁, hp₁, hafter₁, fun n hn => hleads.follow hx (by omega)⟩

end

/-! ## 3. `free` -/

theorem adv_of_lt {p n : Nat} (h : p + 8 * n < 2 ^ 32) : adv p n = p + 8 * n := Nat.mod_eq_of_lt h

section

variable {base bp p n : Nat} {h h₁ h' : Heap} {nodes k l r r₁ : List Nat}

/-- The rest of the heap is left alone. -/
structure SameRest (h h' : Heap) : Prop where
  brk : h'.brk = h.brk
  calls : h'.calls = h.calls
  denied : h'.denied = h.denied
  got : h'.got = h.got

theorem SameRest.trans (h₁ : SameRest h h') {h'' : Heap} (h₂ : SameRest h' h'') : SameRest h h'' :=
  ⟨h₂.brk.trans h₁.brk, h₂.calls.trans h₁.calls, h₂.denied.trans h₁.denied, h₂.got.trans h₁.got⟩

theorem extents_cons (a : Nat) :
    extents h (a :: l) = (a, 8 * h.size a) ::ₘ extents h l := rfl

theorem extents_append : extents h (k ++ l) = extents h k + extents h l := by
  rw [extents, List.map_append, ← Multiset.coe_add]
  rfl

theorem extents_congr (heq : ∀ a ∈ l, h'.size a = h.size a) : extents h' l = extents h l := by
  rw [extents, extents, List.map_congr_left fun a ha => by rw [heq a ha]]

/-- The first half of `free`: the block takes over the one behind it, if they are neighbours. -/
def joinUp (h : Heap) (bp p : Nat) : Heap :=
  if adv bp (h.size bp) = h.ptr p then
    let h := h.setSize bp ((h.size bp + h.size (h.ptr p)) % 2 ^ 32)
    h.setPtr bp (h.ptr (h.ptr p))
  else h.setPtr bp (h.ptr p)

/-- The second half: it is taken over by the one in front, if they are neighbours. -/
def joinDown (h : Heap) (bp p : Nat) : Heap :=
  if adv p (h.size p) = bp then
    let h := h.setSize p ((h.size p + h.size bp) % 2 ^ 32)
    h.setPtr p (h.ptr bp)
  else h.setPtr p bp

theorem free_eq {ap : Nat} (hblock : (ap + 2 ^ 32 - 8) % 2 ^ 32 = bp) :
    free n h ap = (follow h.ptr (freeStops h bp) n h.freep).map fun p =>
      { joinDown (joinUp h bp p) bp p with freep := p } := by
  simp only [free, hblock, Option.bind_eq_bind, Option.pure_def]
  cases follow h.ptr (freeStops h bp) n h.freep with
  | none => rfl
  | some p =>
    rw [Option.bind_some, Option.map_some]
    rfl

/-- The block whose payload `free` gets. -/
theorem block_adv (hbp : bp + 8 < 2 ^ 32) : (adv bp 1 + 2 ^ 32 - 8) % 2 ^ 32 = bp := by
  rw [adv_of_lt (by omega)]
  omega

/-- After the first half: the block at `bp`, and the ones behind it. -/
structure JoinedUp (bp : Nat) (h : Heap) (r : List Nat) (h₁ : Heap) (r₁ : List Nat) : Prop where
  ptr : ∀ a, a ≠ bp → h₁.ptr a = h.ptr a
  size : ∀ a, a ≠ bp → h₁.size a = h.size a
  same : SameRest h h₁
  grows : h.size bp ≤ h₁.size bp
  sub : r₁.Sublist r
  after : ∀ y ∈ r₁, bp + 8 * h₁.size bp < y
  bound : bp + 8 * h₁.size bp < 2 ^ 32
  cover : cover ((bp, 8 * h₁.size bp) ::ₘ extents h r₁) = cover ((bp, 8 * h.size bp) ::ₘ extents h r)

theorem joinUp_spec (hr : FreeRing base h (k ++ p :: r)) (hbp : base < bp)
    (hend : bp + 8 * h.size bp < 2 ^ 32) (hnot : bp ∉ k ++ p :: r)
    (hafter : ∀ y ∈ r, bp + 8 * h.size bp ≤ y) :
    ∃ r₁, JoinedUp bp h r (joinUp h bp p) r₁ ∧ Leads (joinUp h bp p).ptr bp (r₁ ++ k) p := by
  have hleads := hr.circle.leads
  have hnext := hr.next
  have hne : ∀ {y}, y ∈ k ++ p :: r → y ≠ bp := fun hy e => hnot (e ▸ hy)
  rw [joinUp, adv_of_lt hend]
  split
  next hadj =>
    -- the link of the last node leads down to the first one, so there is a node behind
    cases r with
    | nil =>
      rw [hnext, List.headD_nil] at hadj
      omega
    | cons q r =>
      rw [hnext, List.headD_cons] at hadj ⊢
      have hqmem : q ∈ k ++ p :: q :: r :=
        List.mem_append_right _ (List.mem_cons_of_mem _ List.mem_cons_self)
      have hq := hr.bound q hqmem
      have hgap := hr.gaps
      rw [List.pairwise_append, List.pairwise_cons, List.pairwise_cons] at hgap
      have hsum : (h.size bp + h.size q) % 2 ^ 32 = h.size bp + h.size q := by
        refine Nat.mod_eq_of_lt ?_
        omega
      have hsize : update h.size bp (h.size bp + h.size q) bp = h.size bp + h.size q :=
        update_self ..
      rw [hsum]
      refine ⟨r, ⟨fun a ha => update_of_ne ha .., fun a ha => update_of_ne ha ..,
        ⟨rfl, rfl, rfl, rfl⟩, ?_, List.sublist_cons_self q r, fun y hy => ?_, ?_, ?_⟩, ?_⟩
      · exact (Nat.le_add_right _ _).trans_eq hsize.symm
      · have hqy := hgap.2.1.2.1 y hy
        simp only [Heap.setPtr, Heap.setSize, hsize]
        omega
      · simp only [Heap.setPtr, Heap.setSize, hsize]
        omega
      · simp only [Heap.setPtr, Heap.setSize, hsize]
        rw [extents_cons, ← hadj, Nat.mul_add, cover_split]
      · have hfirst : update h.ptr bp (h.ptr (h.ptr p)) bp = h.ptr q := by
          rw [update_self, hnext]
          rfl
        refine hleads.2.start hfirst fun y hy => ?_
        refine update_of_ne (hne ?_) ..
        rcases List.mem_append.mp hy with hy | hy
        · exact List.mem_append_right _ (List.mem_cons_of_mem _ (List.mem_cons_of_mem _ hy))
        · exact List.mem_append_left _ hy
  next hadj =>
    refine ⟨r, ⟨fun a ha => update_of_ne ha .., fun a _ => rfl, ⟨rfl, rfl, rfl, rfl⟩, le_rfl,
      List.Sublist.refl r, fun y hy => ?_, hend, rfl⟩, ?_⟩
    · -- the block that begins where this one ends would be the next one
      refine lt_of_le_of_ne (hafter y hy) fun e => hadj ?_
      have hsort := hr.sorted
      rw [List.pairwise_append, List.pairwise_cons] at hsort
      cases r with
      | nil => exact absurd hy List.not_mem_nil
      | cons q r =>
        have hy' : bp + 8 * h.size bp = y := e
        rw [hnext, List.headD_cons, hy']
        rcases List.mem_cons.mp hy with rfl | hyr
        · rfl
        · have hq := hafter q List.mem_cons_self
          have hqy := (List.pairwise_cons.mp hsort.2.1.2).1 y hyr
          omega
    · have hfirst : update h.ptr bp (h.ptr p) bp = h.ptr p := update_self ..
      refine hleads.start hfirst fun y hy => ?_
      refine update_of_ne (hne ?_) ..
      rcases List.mem_append.mp hy with hy | hy
      · exact List.mem_append_right _ (List.mem_cons_of_mem _ hy)
      · exact List.mem_append_left _ hy

/-- What `free` leaves. -/
structure Freed (base bp : Nat) (h : Heap) (nodes : List Nat) (h' : Heap) (nodes' : List Nat) :
    Prop where
  ring : FreeRing base h' nodes'
  cover : cover (extents h' nodes') = cover ((bp, 8 * h.size bp) ::ₘ extents h nodes)
  size : ∀ a, a ≠ bp → a ∉ nodes → h'.size a = h.size a
  same : SameRest h h'
  large : ∃ a ∈ nodes', h.size bp ≤ h'.size a

/-- The order in front of `bp`, where `p` may end at `bp`. -/
theorem FreeRing.before (hr : FreeRing base h (k ++ p :: r)) :
    k.Pairwise (fun a b => a + 8 * h.size a < b) ∧ (∀ a ∈ k, a + 8 * h.size a < p) := by
  have hgap := hr.gaps
  rw [List.pairwise_append] at hgap
  exact ⟨hgap.1, fun a ha => hgap.2.2 a ha p List.mem_cons_self⟩

/-- A new circle, with other nodes behind `p`. -/
theorem FreeRing.rebuild (hr : FreeRing base h (k ++ p :: r)) (hk : ∀ a ∈ k, h'.size a = h.size a)
    (hleads : Leads h'.ptr p (l ++ k) p) (hrover : h'.freep = p)
    (hp : p = base → h'.size p = 0) (hp' : p ≠ base → 0 < h'.size p)
    (hpl : ∀ y ∈ l, p + 8 * h'.size p < y) (hl : l.Pairwise fun a b => a + 8 * h'.size a < b)
    (hpos : ∀ y ∈ l, 0 < h'.size y) (hbound : ∀ y ∈ p :: l, y + 8 * h'.size y < 2 ^ 32) :
    FreeRing base h' (k ++ p :: l) := by
  obtain ⟨hkk, hkp⟩ := hr.before
  constructor
  · have hfirst := hr.first
    cases k with
    | nil => exact hfirst
    | cons c k => exact hfirst
  · have hcircle : Circle h'.ptr ((p :: l) ++ k) := hleads
    exact hcircle.turn
  · rw [hrover]
    exact List.mem_append_right _ List.mem_cons_self
  · have hfirst := hr.first
    cases k with
    | nil =>
      have hpb : p = base := Option.some.inj hfirst
      rw [← hpb]
      exact hp hpb
    | cons c k =>
      have hcb : c = base := Option.some.inj hfirst
      rw [← hcb, hk c List.mem_cons_self, hcb]
      exact hr.empty
  · intro a ha hne
    rcases List.mem_append.mp ha with ha | ha
    · rw [hk a ha]
      exact hr.pos a (List.mem_append_left _ ha) hne
    · rcases List.mem_cons.mp ha with rfl | ha
      · exact hp' hne
      · exact hpos a ha
  · refine List.pairwise_append.mpr ⟨?_, List.pairwise_cons.mpr ⟨hpl, hl⟩, fun a ha b hb => ?_⟩
    · refine hkk.imp_of_mem fun ha _ hlt => ?_
      rwa [hk _ ha]
    · have hlt := hkp a ha
      rw [hk a ha]
      rcases List.mem_cons.mp hb with rfl | hb
      · exact hlt
      · have hpb := hpl b hb
        omega
  · intro a ha
    rcases List.mem_append.mp ha with ha | ha
    · rw [hk a ha]
      exact hr.bound a (List.mem_append_left _ ha)
    · exact hbound a ha

section

variable (hr : FreeRing base h (k ++ p :: r)) (hj : JoinedUp bp h r h₁ r₁)
  (hnot : bp ∉ k ++ p :: r)

include hr hj hnot

/-- Between the two halves: where the nodes are, and what they cover. -/
theorem joinedUp_around :
    (∀ y ∈ r₁, y ≠ p ∧ 0 < h.size y ∧ y + 8 * h.size y < 2 ^ 32 ∧ h₁.size y = h.size y) ∧
    (∀ y ∈ k, y ≠ p ∧ h₁.size y = h.size y) ∧ h₁.size p = h.size p ∧
    (r₁.Pairwise fun a b => a + 8 * h.size a < b) ∧
    cover (extents h k) + (Multiset.Ico p (p + 8 * h.size p) +
      cover ((bp, 8 * h₁.size bp) ::ₘ extents h r₁)) =
        cover ((bp, 8 * h.size bp) ::ₘ extents h (k ++ p :: r)) := by
  have hsort := hr.sorted
  have hgap := hr.gaps
  rw [List.pairwise_append, List.pairwise_cons] at hsort hgap
  have hpmem : p ∈ k ++ p :: r := List.mem_append_right _ List.mem_cons_self
  have hne : ∀ {y}, y ∈ k ++ p :: r → y ≠ bp := fun hy e => hnot (e ▸ hy)
  refine ⟨fun y hy => ?_, fun y hy => ?_, hj.size p (hne hpmem), hgap.2.1.2.sublist hj.sub, ?_⟩
  · have hyr := hj.sub.subset hy
    have hmem : y ∈ k ++ p :: r := List.mem_append_right _ (List.mem_cons_of_mem _ hyr)
    have hlt := hsort.2.1.1 y hyr
    have hge := hr.base_le hpmem
    exact ⟨hlt.ne', hr.pos y hmem (by omega), hr.bound y hmem, hj.size y (hne hmem)⟩
  · exact ⟨(hsort.2.2 y hy p List.mem_cons_self).ne, hj.size y (hne (List.mem_append_left _ hy))⟩
  · rw [hj.cover, extents_append, extents_cons, cover_cons, cover_cons, cover_add, cover_cons]
    abel

variable (hleads : Leads h₁.ptr bp (r₁ ++ k) p) (hfreep : h'.freep = p) (hsame : SameRest h₁ h')

include hleads hfreep hsame

/-- The block in front ends at `bp`, and takes the new one over. -/
theorem freed_below (hbp : base < bp) (hadj : p + 8 * h.size p = bp)
    (hsize : ∀ a, a ≠ p → h'.size a = h₁.size a) (hself : h'.size p = h.size p + h₁.size bp)
    (hptr : ∀ a, a ≠ p → h'.ptr a = h₁.ptr a) (hptrp : h'.ptr p = h₁.ptr bp) :
    Freed base bp h (k ++ p :: r) h' (k ++ p :: r₁) := by
  obtain ⟨hr₁, hk, -, hgap₁, hcover⟩ := joinedUp_around hr hj hnot
  have hgrows := hj.grows
  have hbound := hj.bound
  have hpb : p ≠ base := by
    rintro rfl
    rw [hr.empty] at hadj
    omega
  have hkeep : ∀ a ∈ k, h'.size a = h.size a := fun a ha => by
    rw [hsize a (hk a ha).1, (hk a ha).2]
  have hkeep₁ : ∀ a ∈ r₁, h'.size a = h.size a := fun a ha => by
    rw [hsize a (hr₁ a ha).1, (hr₁ a ha).2.2.2]
  refine ⟨?_, ?_, fun a ha hna => ?_, hj.same.trans hsame, p,
    List.mem_append_right _ List.mem_cons_self, by omega⟩
  · refine hr.rebuild hkeep (hleads.start hptrp fun y hy => hptr y ?_) hfreep
      (fun e => absurd e hpb) (fun _ => ?_) (fun y hy => ?_) ?_ (fun y hy => ?_) fun y hy => ?_
    · exact (List.mem_append.mp hy).elim (fun hy => (hr₁ y hy).1) fun hy => (hk y hy).1
    · have hpos := hr.pos p (List.mem_append_right _ List.mem_cons_self) hpb
      omega
    · have hlt := hj.after y hy
      rw [hself]
      omega
    · refine hgap₁.imp_of_mem fun ha _ hlt => ?_
      rwa [hkeep₁ _ ha]
    · rw [hkeep₁ y hy]
      exact (hr₁ y hy).2.1
    · rcases List.mem_cons.mp hy with rfl | hy
      · rw [hself]
        omega
      · rw [hkeep₁ y hy]
        exact (hr₁ y hy).2.2.1
  · rw [← hcover, extents_append, extents_cons, extents_congr hkeep, extents_congr hkeep₁, cover_add,
      hself, Nat.mul_add, cover_split, cover_cons, hadj]
  · have hap : a ≠ p := fun e => hna (e ▸ List.mem_append_right _ List.mem_cons_self)
    rw [hsize a hap, hj.size a ha]

/-- The block in front ends before `bp`, and the new one goes into the circle. -/
theorem freed_apart (hpos : 0 < h.size bp) (hlt : p + 8 * h.size p < bp)
    (hsize : ∀ a, h'.size a = h₁.size a) (hptr : ∀ a, a ≠ p → h'.ptr a = h₁.ptr a)
    (hptrp : h'.ptr p = bp) : Freed base bp h (k ++ p :: r) h' (k ++ p :: bp :: r₁) := by
  obtain ⟨hr₁, hk, hsizep, hgap₁, hcover⟩ := joinedUp_around hr hj hnot
  have hpmem : p ∈ k ++ p :: r := List.mem_append_right _ List.mem_cons_self
  have hgrows := hj.grows
  have hbound := hj.bound
  have hkeep : ∀ a ∈ k, h'.size a = h.size a := fun a ha => by rw [hsize a, (hk a ha).2]
  have hkeep₁ : ∀ a ∈ r₁, h'.size a = h.size a := fun a ha => by rw [hsize a, (hr₁ a ha).2.2.2]
  have hkeepp : h'.size p = h.size p := by rw [hsize p, hsizep]
  refine ⟨?_, ?_, fun a ha hna => ?_, hj.same.trans hsame, bp,
    List.mem_append_right _ (List.mem_cons_of_mem _ List.mem_cons_self), by rw [hsize]; exact hgrows⟩
  · refine hr.rebuild hkeep ⟨hptrp, hleads.congr fun y hy => hptr y ?_⟩ hfreep (fun e => ?_)
      (fun e => ?_) (fun y hy => ?_) ?_ (fun y hy => ?_) fun y hy => ?_
    · rcases List.mem_cons.mp hy with rfl | hy
      · exact fun e => hnot (e ▸ hpmem)
      · exact (List.mem_append.mp hy).elim (fun hy => (hr₁ y hy).1) fun hy => (hk y hy).1
    · rw [hkeepp, e]
      exact hr.empty
    · rw [hkeepp]
      exact hr.pos p hpmem e
    · rw [hkeepp]
      rcases List.mem_cons.mp hy with rfl | hy
      · exact hlt
      · have hafter := hj.after y hy
        omega
    · refine List.pairwise_cons.mpr ⟨fun y hy => ?_, hgap₁.imp_of_mem fun ha _ hab => ?_⟩
      · rw [hsize]
        exact hj.after y hy
      · rwa [hkeep₁ _ ha]
    · rcases List.mem_cons.mp hy with rfl | hy
      · rw [hsize]
        omega
      · rw [hkeep₁ y hy]
        exact (hr₁ y hy).2.1
    · rcases List.mem_cons.mp hy with rfl | hy
      · rw [hkeepp]
        exact hr.bound y hpmem
      · rcases List.mem_cons.mp hy with rfl | hy
        · rw [hsize]
          exact hbound
        · rw [hkeep₁ y hy]
          exact (hr₁ y hy).2.2.1
  · rw [← hcover, extents_append, extents_cons, extents_cons, extents_congr hkeep,
      extents_congr hkeep₁, cover_add, hkeepp, hsize, cover_cons]
  · rw [hsize, hj.size a ha]

end

/-- **`free`**: the block goes back into the circle, and its neighbours with it. -/
theorem free_spec (hr : FreeRing base h nodes) (hbp : base < bp) (hpos : 0 < h.size bp)
    (hend : bp + 8 * h.size bp < 2 ^ 32)
    (hapart : ∀ a ∈ nodes, a + 8 * h.size a ≤ bp ∨ bp + 8 * h.size bp ≤ a) :
    ∃ h' nodes', (∀ n, nodes.length ≤ n → free n h (adv bp 1) = some h') ∧
      Freed base bp h nodes h' nodes' := by
  have hnot : bp ∉ nodes := fun hmem => by
    have hcase := hapart bp hmem
    omega
  obtain ⟨k, p, r, rfl, hp, hafter, hfind⟩ := freeLoop_eq hr hbp hnot
  have hle : p + 8 * h.size p ≤ bp := by
    have hcase := hapart p (List.mem_append_right _ List.mem_cons_self)
    omega
  obtain ⟨r₁, hj, hleads⟩ := joinUp_spec hr hbp hend hnot fun y hy => by
    have hcase := hapart y (List.mem_append_right _ (List.mem_cons_of_mem _ hy))
    have hlt := hafter y hy
    omega
  obtain ⟨-, -, hsizep, -⟩ := joinedUp_around hr hj hnot
  have hadv : adv p ((joinUp h bp p).size p) = p + 8 * h.size p := by
    rw [hsizep, adv_of_lt (by omega)]
  have hrun : ∀ n, (k ++ p :: r).length ≤ n → free n h (adv bp 1) =
      some { joinDown (joinUp h bp p) bp p with freep := p } := fun n hn => by
    rw [free_eq (block_adv (by omega)), hfind n hn, Option.map_some]
  rw [joinDown, hadv] at hrun
  rcases hle.eq_or_lt with hadj | hlt
  · have hsum : ((joinUp h bp p).size p + (joinUp h bp p).size bp) % 2 ^ 32 =
        h.size p + (joinUp h bp p).size bp := by
      have hbound := hj.bound
      rw [hsizep, Nat.mod_eq_of_lt (by omega)]
    rw [if_pos hadj, hsum] at hrun
    exact ⟨_, _, hrun, freed_below hr hj hnot hleads rfl ⟨rfl, rfl, rfl, rfl⟩ hbp hadj
      (fun a ha => update_of_ne ha ..) (update_self ..)
      (fun a ha => update_of_ne ha ..) (update_self ..)⟩
  · rw [if_neg hlt.ne] at hrun
    exact ⟨_, _, hrun, freed_apart hr hj hnot hleads rfl ⟨rfl, rfl, rfl, rfl⟩ hpos hlt
      (fun _ => rfl) (fun a ha => update_of_ne ha ..) (update_self ..)⟩

end

/-! ## 4. The loop of `malloc` -/

section

variable {base nunits prevp x y n : Nat} {h h' : Heap} {nodes nodes' k l r : List Nat}

/-- What `malloc` leaves, if it has found a block. -/
structure Taken (base nunits : Nat) (h : Heap) (nodes : List Nat) (y : Nat) (h' : Heap)
    (nodes' : List Nat) : Prop where
  ring : FreeRing base h' nodes'
  cover : cover ((y, 8 * nunits) ::ₘ extents h' nodes') = cover (extents h nodes)
  self : h'.size y = nunits
  size : ∀ a, a ≠ y → a ∉ nodes → h'.size a = h.size a
  same : SameRest h h'

/-- A block of the right size leaves the circle. -/
theorem taken_whole (hr : FreeRing base h (k ++ prevp :: x :: r)) (hfit : h.size x = nunits)
    (hfreep : h'.freep = prevp) (hsize : ∀ a, h'.size a = h.size a) (hsame : SameRest h h')
    (hptr : ∀ a, a ≠ prevp → h'.ptr a = h.ptr a) (hprev : h'.ptr prevp = h.ptr x) :
    Taken base nunits h (k ++ prevp :: x :: r) x h' (k ++ prevp :: r) := by
  have hleads := hr.circle.leads
  have hgap := hr.gaps
  have hsort := hr.sorted
  rw [List.pairwise_append, List.pairwise_cons, List.pairwise_cons] at hgap hsort
  have hmem : ∀ {a}, a ∈ r → a ∈ k ++ prevp :: x :: r := fun ha =>
    List.mem_append_right _ (List.mem_cons_of_mem _ (List.mem_cons_of_mem _ ha))
  have hpmem : prevp ∈ k ++ prevp :: x :: r := List.mem_append_right _ List.mem_cons_self
  have hlt : ∀ a ∈ r, prevp < a := fun a ha => hsort.2.1.1 a (List.mem_cons_of_mem _ ha)
  refine ⟨?_, ?_, (hsize x).trans hfit, fun a _ _ => hsize a, hsame⟩
  · refine hr.rebuild (fun a _ => hsize a) (hleads.2.start hprev fun a ha => hptr a ?_) hfreep
      (fun e => ?_) (fun e => ?_) (fun a ha => ?_) ?_ (fun a ha => ?_) fun a ha => ?_
    · rcases List.mem_append.mp ha with ha | ha
      · exact (hlt a ha).ne'
      · exact (hsort.2.2 a ha prevp List.mem_cons_self).ne
    · rw [hsize, e]
      exact hr.empty
    · rw [hsize]
      exact hr.pos prevp hpmem e
    · rw [hsize]
      exact hgap.2.1.1 a (List.mem_cons_of_mem _ ha)
    · simp only [hsize]
      exact hgap.2.1.2.2
    · rw [hsize]
      refine hr.pos a (hmem ha) fun e => ?_
      have hge := hr.base_le hpmem
      have hpa := hlt a ha
      omega
    · rw [hsize]
      rcases List.mem_cons.mp ha with rfl | ha
      · exact hr.bound a hpmem
      · exact hr.bound a (hmem ha)
  · rw [extents_congr fun a _ => hsize a, extents_append, extents_append, extents_cons, extents_cons,
      extents_cons, ← hfit, cover_cons, cover_add, cover_add, cover_cons, cover_cons, cover_cons]
    abel

/-- A larger block is cut, and its end is taken. -/
theorem taken_part (hr : FreeRing base h (k ++ prevp :: x :: r)) (hn : 0 < nunits)
    (hfit : nunits < h.size x) (hy : y = x + 8 * (h.size x - nunits)) (hfreep : h'.freep = prevp)
    (hx : h'.size x = h.size x - nunits) (hself : h'.size y = nunits)
    (hsize : ∀ a, a ≠ x → a ≠ y → h'.size a = h.size a) (hsame : SameRest h h')
    (hptr : ∀ a, h'.ptr a = h.ptr a) :
    Taken base nunits h (k ++ prevp :: x :: r) y h' (k ++ prevp :: x :: r) := by
  have hgap := hr.gaps
  have hsort := hr.sorted
  rw [List.pairwise_append, List.pairwise_cons, List.pairwise_cons] at hgap hsort
  have hxmem : x ∈ k ++ prevp :: x :: r :=
    List.mem_append_right _ (List.mem_cons_of_mem _ List.mem_cons_self)
  have hpmem : prevp ∈ k ++ prevp :: x :: r := List.mem_append_right _ List.mem_cons_self
  have hxbound := hr.bound x hxmem
  have hpx : prevp < x := hsort.2.1.1 x List.mem_cons_self
  -- the other nodes lie outside of the block
  have hk : ∀ a ∈ k, h'.size a = h.size a := fun a ha => by
    have hax := hsort.2.2 a ha x (List.mem_cons_of_mem _ List.mem_cons_self)
    exact hsize a (by omega) (by omega)
  have hp : h'.size prevp = h.size prevp := hsize prevp (by omega) (by omega)
  have hr' : ∀ a ∈ r, h'.size a = h.size a := fun a ha => by
    have hxa := hgap.2.1.2.1 a ha
    exact hsize a (by omega) (by omega)
  refine ⟨?_, ?_, hself, fun a hay ha => hsize a (fun e => ha (e ▸ hxmem)) hay, hsame⟩
  · refine hr.rebuild hk (hr.circle.leads.congr fun a _ => hptr a) hfreep (fun e => ?_) (fun e => ?_)
      (fun a ha => ?_) ?_ (fun a ha => ?_) fun a ha => ?_
    · rw [hp, e]
      exact hr.empty
    · rw [hp]
      exact hr.pos prevp hpmem e
    · rw [hp]
      exact hgap.2.1.1 a ha
    · refine List.pairwise_cons.mpr ⟨fun a ha => ?_, hgap.2.1.2.2.imp_of_mem fun ha _ hlt => ?_⟩
      · have hxa := hgap.2.1.2.1 a ha
        rw [hx]
        omega
      · rwa [hr' _ ha]
    · rcases List.mem_cons.mp ha with rfl | ha
      · rw [hx]
        omega
      · rw [hr' a ha]
        refine hr.pos a (List.mem_append_right _ (List.mem_cons_of_mem _ (List.mem_cons_of_mem _ ha)))
          fun e => ?_
        have hge := hr.base_le hpmem
        have hpa := hsort.2.1.1 a (List.mem_cons_of_mem _ ha)
        omega
    · rcases List.mem_cons.mp ha with rfl | ha
      · rw [hp]
        exact hr.bound a hpmem
      · rcases List.mem_cons.mp ha with rfl | ha
        · rw [hx]
          omega
        · rw [hr' a ha]
          exact hr.bound a (List.mem_append_right _
            (List.mem_cons_of_mem _ (List.mem_cons_of_mem _ ha)))
  · have hcut : 8 * h.size x = 8 * (h.size x - nunits) + 8 * nunits := by omega
    have hsplit := cover_split (B := extents h r) x (8 * (h.size x - nunits)) (8 * nunits)
    rw [← hcut, ← hy, cover_cons, cover_cons, cover_cons] at hsplit
    rw [extents_append, extents_append, extents_cons, extents_cons, extents_cons, extents_cons,
      extents_congr hk, extents_congr hr', hp, hx, cover_cons, cover_add, cover_add, cover_cons,
      cover_cons, cover_cons, cover_cons, hsplit]
    abel

/-- **A block that is large enough is taken.** -/
theorem take_spec (hr : FreeRing base h nodes) (hp : prevp ∈ nodes) (hn : 0 < nunits)
    (hfit : nunits ≤ h.size (h.ptr prevp)) :
    ∃ y nodes', (take h nunits prevp (h.ptr prevp)).1 = y + 8 ∧
      Taken base nunits h nodes y (take h nunits prevp (h.ptr prevp)).2 nodes' := by
  obtain ⟨k, r, rfl⟩ := List.append_of_mem hp
  have hnext := hr.next
  cases r with
  | nil =>
    -- the last node leads to the static header, which has no room
    rw [hnext, List.headD_nil, hr.empty] at hfit
    omega
  | cons x r =>
    rw [List.headD_cons] at hnext
    rw [hnext] at hfit ⊢
    have hbound := hr.bound x (List.mem_append_right _ (List.mem_cons_of_mem _ List.mem_cons_self))
    rw [take]
    split
    next hsize =>
      exact ⟨x, _, adv_of_lt (by omega), taken_whole hr hsize rfl (fun _ => rfl) ⟨rfl, rfl, rfl, rfl⟩
        (fun a ha => update_of_ne ha ..) (update_self ..)⟩
    next hsize =>
      have hself : (h.setSize x (h.size x - nunits)).size x = h.size x - nunits :=
        update_self ..
      have hy : adv x ((h.setSize x (h.size x - nunits)).size x) = x + 8 * (h.size x - nunits) := by
        rw [hself, adv_of_lt (by omega)]
      have hne : x ≠ x + 8 * (h.size x - nunits) := by omega
      simp only [hy]
      refine ⟨x + 8 * (h.size x - nunits), _, adv_of_lt (by omega),
        taken_part hr hn (by omega) rfl rfl ?_ (update_self ..) (fun a hax hay => ?_)
          ⟨rfl, rfl, rfl, rfl⟩ fun _ => rfl⟩
      · exact (update_of_ne hne ..).trans hself
      · exact (update_of_ne hay ..).trans (update_of_ne hax ..)

/-- **The loop of `malloc`**, from `prevp` to `freep`: it takes a block behind one of the nodes, or asks
for more memory where it has come round. -/
theorem mallocLoop_search (nunits : Nat) (hl : Leads h.ptr prevp l h.freep) (hnot : h.freep ∉ l) :
    (∃ p ∈ prevp :: l, nunits ≤ h.size (h.ptr p) ∧ ∀ n, l.length < n →
      mallocLoop nunits n h prevp (h.ptr prevp) = some (take h nunits p (h.ptr p))) ∨
    ((∀ a ∈ l ++ [h.freep], h.size a < nunits) ∧ ∀ n,
      mallocLoop nunits (n + l.length + 1) h prevp (h.ptr prevp) =
        (morecore n h nunits).bind fun x =>
          match x.1 with
          | none => some (0, x.2)
          | some p => mallocLoop nunits n x.2 p (x.2.ptr p)) := by
  induction l generalizing prevp with
  | nil =>
    have hnext : h.ptr prevp = h.freep := hl
    by_cases hfit : nunits ≤ h.size (h.ptr prevp)
    · refine .inl ⟨prevp, List.mem_cons_self, hfit, fun n hn => ?_⟩
      obtain ⟨n, rfl⟩ : ∃ m, n = m + 1 := ⟨n - 1, by omega⟩
      rw [mallocLoop, if_pos hfit]
    · refine .inr ⟨?_, fun n => ?_⟩
      · rw [List.nil_append, List.forall_mem_singleton, ← hnext]
        exact not_le.mp hfit
      · rw [List.length_nil, Nat.add_zero, mallocLoop, if_neg hfit, if_pos hnext]
        rcases morecore n h nunits with _ | ⟨_ | p, h'⟩ <;> rfl
  | cons x l ih =>
    obtain ⟨hnext, hleads⟩ := hl
    obtain ⟨hx, hnotl⟩ := not_or.mp (List.mem_cons.not.mp hnot)
    by_cases hfit : nunits ≤ h.size (h.ptr prevp)
    · refine .inl ⟨prevp, List.mem_cons_self, hfit, fun n hn => ?_⟩
      obtain ⟨n, rfl⟩ : ∃ m, n = m + 1 := ⟨n - 1, by omega⟩
      rw [mallocLoop, if_pos hfit]
    · have hgo : ∀ n, mallocLoop nunits (n + 1) h prevp (h.ptr prevp) =
          mallocLoop nunits n h x (h.ptr x) := fun n => by
        rw [mallocLoop, if_neg hfit, hnext, if_neg (Ne.symm hx)]
      rcases ih hleads hnotl with ⟨p, hp, hfit', hrun⟩ | ⟨hsmall, hrun⟩
      · refine .inl ⟨p, List.mem_cons_of_mem _ hp, hfit', fun n hn => ?_⟩
        rw [List.length_cons] at hn
        obtain ⟨n, rfl⟩ : ∃ m, n = m + 1 := ⟨n - 1, by omega⟩
        rw [hgo, hrun n (by omega)]
      · refine .inr ⟨?_, fun n => ?_⟩
        · rw [List.cons_append, List.forall_mem_cons]
          rw [hnext] at hfit
          exact ⟨not_le.mp hfit, hsmall⟩
        · rw [List.length_cons, ← Nat.add_assoc, hgo, hrun n]

end

end Xv6.Umalloc
