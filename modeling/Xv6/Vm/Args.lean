/-
# The arguments of a system call

`syscall.c`: a system call finds its arguments on the user stack and reads user memory through the
pointers among them.  What keeps the kernel inside the process are a few comparisons of `uint`s, and
the sums in them are taken modulo 2^32.

`args_exact` says what the comparisons admit, with exact sums.  One sum is not exact: the place of
an argument, `esp + 4 + 4*n`, is taken modulo 2^32, so a stack pointer near the top of the address
space finds its arguments at the bottom of it (`argptr_esp_wraps`).
-/
import Xv6.Lib.Bytes
import Xv6.Vm.Memory

namespace Xv6.Vm

/-! ## 1. The code -/

/-- What the functions see of the calling process. -/
structure Caller where
  sz : Nat
  /-- `tf->esp`. -/
  esp : Nat
  /-- The user memory, by address. -/
  mem : Bytes

/-- `*(int*)addr`, as a `uint`. -/
def intAt (m : Bytes) (addr : Nat) : Nat :=
  (m addr).toNat + 256 * (m (addr + 1)).toNat + 65536 * (m (addr + 2)).toNat
    + 16777216 * (m (addr + 3)).toNat

def fetchint (curproc : Caller) (addr : Nat) : Option Nat :=
  if curproc.sz ≤ addr ∨ curproc.sz < add32 addr 4 then none else some (intAt curproc.mem addr)

/-- The loop of `fetchstr`, with so many bytes to go before `ep`. -/
def fetchstrLoop (m : Bytes) (s : Nat) : Nat → Option Nat
  | 0 => none
  | n + 1 => if m s = 0 then some s else fetchstrLoop m (s + 1) n

/-- The string and its length. -/
def fetchstr (curproc : Caller) (addr : Nat) : Option (Nat × Nat) :=
  if curproc.sz ≤ addr then none
  else (fetchstrLoop curproc.mem addr (curproc.sz - addr)).map fun s => (addr, s - addr)

def argint (curproc : Caller) (n : Nat) : Option Nat :=
  fetchint curproc (add32 (add32 curproc.esp 4) (4 * n))

def argptr (curproc : Caller) (n : Nat) (size : Int) : Option Nat := do
  let i ← argint curproc n
  if size < 0 ∨ curproc.sz ≤ i ∨ curproc.sz < add32 i size.toNat then none else some i

def argstr (curproc : Caller) (n : Nat) : Option (Nat × Nat) := do
  let addr ← argint curproc n
  fetchstr curproc addr

/-! ## 2. What the checks admit -/

section

variable {curproc : Caller} {addr n : Nat}

theorem add32_of_lt {a b : Nat} (h : a + b < 2 ^ 32) : add32 a b = a + b := Nat.mod_eq_of_lt h

theorem fetchint_eq_some (hsz : curproc.sz < KERNBASE) (v : Nat) :
    fetchint curproc addr = some v ↔ addr + 4 ≤ curproc.sz ∧ v = intAt curproc.mem addr := by
  simp only [KERNBASE] at hsz
  by_cases hlt : addr < curproc.sz
  · have hsum : add32 addr 4 = addr + 4 := add32_of_lt (by omega)
    rw [fetchint, hsum, Option.ite_none_left_eq_some, not_or, not_le, not_lt, Option.some_inj]
    exact ⟨fun h => ⟨h.1.2, h.2.symm⟩, fun h => ⟨⟨hlt, h.1⟩, h.2.symm⟩⟩
  · rw [fetchint, if_pos (.inl (not_lt.mp hlt))]
    exact ⟨fun h => absurd h (Option.some_ne_none v).symm, fun h => absurd h.1 (by omega)⟩

theorem fetchstrLoop_eq_some (m : Bytes) (e : Nat) : fetchstrLoop m addr n = some e ↔
    addr ≤ e ∧ e < addr + n ∧ m e = 0 ∧ ∀ a, addr ≤ a → a < e → m a ≠ 0 := by
  induction n generalizing addr with
  | zero => exact ⟨fun h => absurd h (Option.some_ne_none e).symm, fun h => absurd h (by omega)⟩
  | succ n ih =>
    rw [fetchstrLoop]
    split
    next h0 =>
      rw [Option.some_inj]
      refine ⟨?_, fun ⟨hle, _, _, hnz⟩ => hle.eq_of_not_lt fun hlt => hnz addr le_rfl hlt h0⟩
      rintro rfl
      exact ⟨le_rfl, by omega, h0, fun a ha hlt => absurd ha (not_le.mpr hlt)⟩
    next h0 =>
      rw [ih]
      constructor
      · rintro ⟨hle, hlt, he, hnz⟩
        refine ⟨by omega, by omega, he, fun a ha hae => ?_⟩
        rcases ha.eq_or_lt with rfl | ha
        · exact h0
        · exact hnz a ha hae
      · rintro ⟨hle, hlt, he, hnz⟩
        have hne : addr ≠ e := fun h => h0 (h ▸ he)
        exact ⟨by omega, by omega, he, fun a ha hae => hnz a (by omega) hae⟩

theorem fetchstr_eq_some (s len : Nat) : fetchstr curproc addr = some (s, len) ↔
    s = addr ∧ addr + len < curproc.sz ∧ curproc.mem (addr + len) = 0 ∧
      ∀ k < len, curproc.mem (addr + k) ≠ 0 := by
  rw [fetchstr]
  split
  next hge => exact ⟨fun h => absurd h (Option.some_ne_none _).symm, fun h => absurd h.2.1 (by omega)⟩
  next hlt =>
    simp only [Option.map_eq_some_iff, fetchstrLoop_eq_some, Prod.mk.injEq]
    constructor
    · rintro ⟨e, ⟨hle, hlt, h0, hnz⟩, rfl, rfl⟩
      rw [Nat.add_sub_cancel' hle]
      exact ⟨rfl, by omega, h0, fun k hk => hnz _ (by omega) (by omega)⟩
    · rintro ⟨rfl, hlen, h0, hnz⟩
      refine ⟨s + len, ⟨by omega, by omega, h0, fun a ha hlt => ?_⟩, rfl, by omega⟩
      have h := hnz (a - s) (by omega)
      rwa [Nat.add_sub_cancel' ha] at h

theorem argptr_eq_some (hsz : curproc.sz < KERNBASE) {size : Int} (hsize : size < 2 ^ 31) (i : Nat) :
    argptr curproc n size = some i ↔
      (curproc.esp + 4 + 4 * n) % 2 ^ 32 + 4 ≤ curproc.sz ∧
      i = intAt curproc.mem ((curproc.esp + 4 + 4 * n) % 2 ^ 32) ∧
      0 ≤ size ∧ i < curproc.sz ∧ i + size ≤ curproc.sz := by
  have hplace : add32 (add32 curproc.esp 4) (4 * n) = (curproc.esp + 4 + 4 * n) % 2 ^ 32 :=
    Nat.mod_add_mod ..
  simp only [argptr, argint, hplace, Option.bind_eq_bind, Option.bind_eq_some_iff,
    fetchint_eq_some hsz, Option.ite_none_left_eq_some, Option.some_inj, not_or, not_lt, not_le]
  simp only [KERNBASE] at hsz
  constructor
  · rintro ⟨_, ⟨hword, rfl⟩, ⟨hpos, hlt, hle⟩, rfl⟩
    rw [add32_of_lt (by omega)] at hle
    exact ⟨hword, rfl, hpos, hlt, by omega⟩
  · rintro ⟨hword, rfl, hpos, hlt, hle⟩
    refine ⟨_, ⟨hword, rfl⟩, ⟨hpos, hlt, ?_⟩, rfl⟩
    rw [add32_of_lt (by omega)]
    omega

theorem intAt_congr {m m' : Bytes} (h : ∀ a, a < addr + 4 → m a = m' a) :
    intAt m addr = intAt m' addr := by
  simp only [intAt]
  rw [h addr (by omega), h (addr + 1) (by omega), h (addr + 2) (by omega), h (addr + 3) (by omega)]

end

/-! ## 3. Nothing outside the process -/

/-- Another memory, the same inside the process. -/
structure SameInside (p p' : Caller) : Prop where
  sz : p'.sz = p.sz
  esp : p'.esp = p.esp
  mem : ∀ a < p.sz, p'.mem a = p.mem a

section

variable {p p' : Caller} {addr n : Nat}

theorem SameInside.fetchint (h : SameInside p p') (hsz : p.sz < KERNBASE) :
    fetchint p' addr = fetchint p addr := by
  have hsz' : p'.sz < KERNBASE := h.sz ▸ hsz
  ext v
  rw [fetchint_eq_some hsz, fetchint_eq_some hsz', h.sz]
  refine and_congr_right fun hle => ?_
  rw [intAt_congr fun a ha => h.mem a (by omega)]

theorem SameInside.fetchstr (h : SameInside p p') : fetchstr p' addr = fetchstr p addr := by
  ext ⟨s, len⟩
  rw [fetchstr_eq_some, fetchstr_eq_some, h.sz]
  refine and_congr_right fun _ => and_congr_right fun hlt => ?_
  rw [h.mem _ hlt]
  exact and_congr_right fun _ => forall₂_congr fun k hk => by rw [h.mem _ (by omega)]

theorem SameInside.argint (h : SameInside p p') (hsz : p.sz < KERNBASE) :
    argint p' n = argint p n := by
  rw [Vm.argint, Vm.argint, h.esp, h.fetchint hsz]

theorem SameInside.argptr (h : SameInside p p') (hsz : p.sz < KERNBASE) (size : Int) :
    argptr p' n size = argptr p n size := by
  rw [Vm.argptr, Vm.argptr, h.argint hsz, h.sz]

theorem SameInside.argstr (h : SameInside p p') (hsz : p.sz < KERNBASE) :
    argstr p' n = argstr p n := by
  rw [Vm.argstr, Vm.argstr, h.argint hsz]
  exact congrArg _ (funext fun _ => h.fetchstr)

end

/-- **The checks are exact**: they admit what lies inside the process, with exact sums, and nothing
outside of it is read.  The place of an argument is taken modulo 2^32. -/
theorem args_exact (p : Caller) (hsz : p.sz < KERNBASE) :
    (∀ addr v, fetchint p addr = some v ↔ addr + 4 ≤ p.sz ∧ v = intAt p.mem addr) ∧
    (∀ n (size : Int), size < 2 ^ 31 → ∀ i, argptr p n size = some i ↔
      (p.esp + 4 + 4 * n) % 2 ^ 32 + 4 ≤ p.sz ∧ i = intAt p.mem ((p.esp + 4 + 4 * n) % 2 ^ 32) ∧
      0 ≤ size ∧ i < p.sz ∧ i + size ≤ p.sz) ∧
    (∀ addr s len, fetchstr p addr = some (s, len) ↔
      s = addr ∧ addr + len < p.sz ∧ p.mem (addr + len) = 0 ∧ ∀ k < len, p.mem (addr + k) ≠ 0) ∧
    (∀ p', SameInside p p' → (∀ addr, fetchint p' addr = fetchint p addr) ∧
      (∀ addr, fetchstr p' addr = fetchstr p addr) ∧ (∀ n, argint p' n = argint p n) ∧
      (∀ n size, argptr p' n size = argptr p n size) ∧ ∀ n, argstr p' n = argstr p n) :=
  ⟨fun _ => fetchint_eq_some hsz, fun _ _ hsize => argptr_eq_some hsz hsize,
    fun _ => fetchstr_eq_some, fun _ h => ⟨fun _ => h.fetchint hsz, fun _ => h.fetchstr,
      fun _ => h.argint hsz, fun _ => h.argptr hsz, fun _ => h.argstr hsz⟩⟩

/-- One page of zeros, and a stack pointer at the top of the address space. -/
def topCaller : Caller := ⟨4096, 2 ^ 32 - 4, fun _ => 0⟩

/-- The first argument lies outside the process if its place is an exact sum, but the code finds it at
address 0. -/
theorem argptr_esp_wraps :
    ¬ topCaller.esp + 4 + 4 * 0 + 4 ≤ topCaller.sz ∧ argptr topCaller 0 16 = some 0 := by
  decide

theorem args_exact_topCaller : argptr topCaller 0 4096 = some 0 ∧ argptr topCaller 0 4097 ≠ some 0 := by
  have h := (args_exact topCaller (by decide)).2.1 0
  exact ⟨(h 4096 (by decide) 0).mpr (by decide), fun heq => absurd ((h 4097 (by decide) 0).mp heq)
    (by decide)⟩

end Xv6.Vm
