/-
# The MP configuration table

`mp.c`: the boot code looks for the processors in a table of entries of several lengths.  The table
is given by its bytes, from the header on; where `mpsearch` finds it is left out.

The loop of `mpinit` has no increment of its own: each `case` moves `p` over its entry and continues.
The `default` case does neither.  Its `break` leaves the `switch` and not the loop, so on an entry of
an unknown type the loop stays where it is, and the panic behind the loop is never reached
(`mpinit_ends_iff`).
-/
import Xv6.Lib.Bytes

namespace Xv6.Mp

/-! ## 1. The code -/

/-- Maximum number of processors. -/
abbrev NCPU : Nat := 8

/-- `sizeof(struct mpconf)`: the first entry stands behind the header. -/
abbrev HEADER : Nat := 44

inductive Panic
  /-- "Expect to run on an SMP" -/
  | expectSmp
  /-- "Didn't find a suitable machine" -/
  | notSuitable
  deriving DecidableEq, Repr

/-- What the scan leaves behind. -/
structure Machine where
  /-- `cpus[i].apicid` for `i < ncpu`. -/
  apicids : List UInt8
  ioapicid : UInt8
  lapic : Nat
  ismp : Bool
  deriving DecidableEq, Repr

def sum (addr : Bytes) : Nat → UInt8
  | 0 => 0
  | len + 1 => sum addr len + addr len

/-- `conf->length`. -/
def confLength (conf : Bytes) : Nat := (conf 4).toNat + 256 * (conf 5).toNat

/-- The tests of `mpconfig`: the signature `PCMP`, the version and the checksum. -/
def mpconfig (conf : Bytes) : Bool :=
  (conf 0 = 80 && conf 1 = 67 && conf 2 = 77 && conf 3 = 80) &&
    (conf 6 = 1 || conf 6 = 4) && sum conf (confLength conf) = 0

/-- The types of the entries. -/
inductive Kind
  | proc | bus | ioapic | iointr | lintr
  deriving DecidableEq, Repr

def kind (type : UInt8) : Option Kind :=
  if type = 0 then some .proc
  else if type = 1 then some .bus
  else if type = 2 then some .ioapic
  else if type = 3 then some .iointr
  else if type = 4 then some .lintr
  else none

/-- By how much a `case` moves `p`. -/
def Kind.size : Kind → Nat
  | .proc => 20
  | .bus | .ioapic | .iointr | .lintr => 8

/-- What a `case` records of the entry at `p`. -/
def Kind.record (conf : Bytes) (p : Nat) (s : Machine) : Kind → Machine
  | .proc => if s.apicids.length < NCPU then { s with apicids := s.apicids ++ [conf (p + 1)] } else s
  | .ioapic => { s with ioapicid := conf (p + 1) }
  | .bus | .iointr | .lintr => s

/-- The body of the loop. -/
def turn (conf : Bytes) (p : Nat) (s : Machine) : Nat × Machine :=
  match kind (conf p) with
  | some k => (p + k.size, k.record conf p s)
  -- the default case leaves p alone
  | none => (p, { s with ismp := false })

/-- The loop of `mpinit`, for at most so many turns. -/
def mpLoop (conf : Bytes) (e : Nat) : Nat → Nat → Machine → Option Machine
  | 0, p, s => if p < e then none else some s
  | n + 1, p, s =>
    if p < e then mpLoop conf e n (turn conf p s).1 (turn conf p s).2 else some s

/-- `mpinit`, with a loop of at most `n` turns: what it has recorded, and the panic it ends with.
`none` if the loop is not over. -/
def mpinit (n : Nat) (conf : Bytes) : Option (Machine × Option Panic) :=
  let start : Machine := ⟨[], 0, conf.getWord 9, true⟩
  if mpconfig conf then
    (mpLoop conf (confLength conf) n HEADER start).map fun s =>
      (s, if s.ismp then none else some .notSuitable)
  else some ({ start with lapic := 0 }, some .expectSmp)

/-! ## 2. The entries of a table -/

/-- The entries at `ps` stand one behind the other, from `p` to `q`, and there the table ends at `e`
or has an entry of an unknown type. -/
inductive Entries (conf : Bytes) (e : Nat) : Nat → List Nat → Nat → Prop
  | finish {p : Nat} (h : e ≤ p) : Entries conf e p [] p
  | unknown {p : Nat} (hp : p < e) (h : kind (conf p) = none) : Entries conf e p [] p
  | entry {p q : Nat} {ps : List Nat} {k : Kind} (hp : p < e) (h : kind (conf p) = some k)
      (rest : Entries conf e (p + k.size) ps q) : Entries conf e p (p :: ps) q

/-- The apicids of the processors among the entries. -/
def apicids (conf : Bytes) (ps : List Nat) : List UInt8 :=
  (ps.filter fun p => kind (conf p) = some .proc).map fun p => conf (p + 1)

section

variable {conf : Bytes} {e p q n : Nat} {ps : List Nat} {s : Machine}

theorem Kind.size_pos (k : Kind) : 0 < k.size := by
  cases k <;> decide

theorem exists_entries (conf : Bytes) (e p : Nat) : ∃ ps q, Entries conf e p ps q := by
  induction hn : e - p using Nat.strong_induction_on generalizing p with
  | _ n ih =>
    by_cases hp : p < e
    · cases hk : kind (conf p) with
      | none => exact ⟨[], p, .unknown hp hk⟩
      | some k =>
        have hpos := k.size_pos
        obtain ⟨ps, q, h⟩ := ih (e - (p + k.size)) (by omega) (p + k.size) rfl
        exact ⟨p :: ps, q, .entry hp hk h⟩
    · exact ⟨[], p, .finish (not_lt.mp hp)⟩

theorem Entries.unique {ps' : List Nat} {q' : Nat} (h : Entries conf e p ps q)
    (h' : Entries conf e p ps' q') : ps = ps' ∧ q = q' := by
  induction h generalizing ps' q' with
  | finish he =>
    cases h' with
    | finish => exact ⟨rfl, rfl⟩
    | unknown hp | entry hp => exact absurd he (not_le.mpr hp)
  | unknown hp hk =>
    cases h' with
    | finish he => exact absurd he (not_le.mpr hp)
    | unknown => exact ⟨rfl, rfl⟩
    | entry _ hk' => rw [hk] at hk'; cases hk'
  | entry hp hk _ ih =>
    cases h' with
    | finish he => exact absurd he (not_le.mpr hp)
    | unknown _ hk' => rw [hk] at hk'; cases hk'
    | entry _ hk' rest' =>
      rw [hk] at hk'
      cases hk'
      obtain ⟨rfl, rfl⟩ := ih rest'
      exact ⟨rfl, rfl⟩

/-! ## 3. The loop over the entries -/

/-- The step: one entry of a known type. -/
theorem mpLoop_entry {k : Kind} (hp : p < e) (hk : kind (conf p) = some k) :
    mpLoop conf e (n + 1) p s = mpLoop conf e n (p + k.size) (k.record conf p s) := by
  rw [mpLoop, if_pos hp, turn, hk]

/-- On an entry of an unknown type the loop does not move. -/
theorem mpLoop_unknown (hp : p < e) (hk : kind (conf p) = none) : mpLoop conf e n p s = none := by
  induction n generalizing s with
  | zero => exact if_pos hp
  | succ n ih =>
    rw [mpLoop, if_pos hp, turn, hk]
    exact ih

/-- **A loop that comes to an unknown type never ends.** -/
theorem mpLoop_eq_none (h : Entries conf e p ps q) (hq : q < e) : mpLoop conf e n p s = none := by
  induction h generalizing n s with
  | finish he => exact absurd he (not_le.mpr hq)
  | unknown hp hk => exact mpLoop_unknown hp hk
  | entry hp hk _ ih =>
    cases n with
    | zero => exact if_pos hp
    | succ n =>
      rw [mpLoop_entry hp hk]
      exact ih hq

/-- What an entry adds to the processors. -/
theorem Kind.record_apicids {k : Kind} (hk : kind (conf p) = some k) (hlen : s.apicids.length ≤ NCPU) :
    (k.record conf p s).apicids = (s.apicids ++ apicids conf [p]).take NCPU ∧
      (k.record conf p s).ismp = s.ismp := by
  by_cases hproc : k = .proc
  · have hone : apicids conf [p] = [conf (p + 1)] := by simp [apicids, hk, hproc]
    rw [hone, hproc, Kind.record]
    split
    next hlt => exact ⟨(List.take_of_length_le (by simpa using hlt)).symm, rfl⟩
    next hge => rw [List.take_append_of_le_length (by omega), List.take_of_length_le hlen]; trivial
  · have hone : apicids conf [p] = [] := by simp [apicids, hk, hproc]
    rw [hone, List.append_nil, List.take_of_length_le hlen]
    cases k <;> first | exact absurd rfl hproc | exact ⟨rfl, rfl⟩

theorem take_append_cut {α : Type*} (l l' : List α) :
    (l.take n ++ l').take n = (l ++ l').take n := by
  rw [List.take_append, List.take_append, List.take_take, min_self, List.length_take]
  congr 2
  omega

theorem apicids_cons : apicids conf (p :: ps) = apicids conf [p] ++ apicids conf ps := by
  rw [apicids, apicids, apicids, ← List.map_append, ← List.filter_append, List.singleton_append]

/-- **A loop over known types ends** after as many turns as there are entries, with the first `NCPU`
processors. -/
theorem mpLoop_eq_some (h : Entries conf e p ps q) (hq : e ≤ q) (hlen : s.apicids.length ≤ NCPU) :
    ∃ s', mpLoop conf e ps.length p s = some s' ∧
      s'.apicids = (s.apicids ++ apicids conf ps).take NCPU ∧ s'.ismp = s.ismp := by
  induction h generalizing s with
  | finish he =>
    refine ⟨s, if_neg (not_lt.mpr he), ?_, rfl⟩
    rw [apicids, List.filter_nil, List.map_nil, List.append_nil, List.take_of_length_le hlen]
  | unknown hp _ => exact absurd hq (not_le.mpr hp)
  | @entry p q ps k hp hk _ ih =>
    obtain ⟨hids, hsmp⟩ := k.record_apicids hk hlen
    obtain ⟨s', hrun, hids', hsmp'⟩ := ih (s := k.record conf p s) hq (by
      rw [hids]
      exact List.length_take_le _ _)
    refine ⟨s', ?_, ?_, hsmp'.trans hsmp⟩
    · rw [List.length_cons, mpLoop_entry hp hk, hrun]
    · rw [hids', hids, take_append_cut, List.append_assoc, ← apicids_cons]

end

/-- **The scan ends exactly on tables of known types**, for every table that `mpconfig` accepts. -/
theorem mpinit_ends_iff (conf : Bytes) (hconf : mpconfig conf = true) :
    ∃ ps q, Entries conf (confLength conf) HEADER ps q ∧
      ((∃ n s panic, mpinit n conf = some (s, panic) ∧ s.apicids = (apicids conf ps).take NCPU ∧
          panic = if q < confLength conf then some .notSuitable else none) ↔
        confLength conf ≤ q) := by
  obtain ⟨ps, q, h⟩ := exists_entries conf (confLength conf) HEADER
  refine ⟨ps, q, h, fun ⟨n, s, panic, hrun, _⟩ => ?_, fun hq => ?_⟩
  · by_contra hq
    rw [mpinit, if_pos hconf, mpLoop_eq_none h (not_le.mp hq)] at hrun
    cases hrun
  · obtain ⟨s, hrun, hids, hsmp⟩ := mpLoop_eq_some (s := ⟨[], 0, conf.getWord 9, true⟩) h hq
      (Nat.zero_le _)
    refine ⟨ps.length, s, none, ?_, hids, (if_neg (not_lt.mpr hq)).symm⟩
    rw [mpinit, if_pos hconf, hrun, Option.map_some, hsmp]
    rfl

/-- A table of the given entries, with the checksum that makes it valid. -/
def table (entries : List UInt8) : Bytes :=
  let fields (checksum : UInt8) : Bytes := fun i =>
    if i < HEADER then
      [80, 67, 77, 80, .ofNat (HEADER + entries.length), 0, 1, checksum].getD i 0
    else entries.getD (i - HEADER) 0
  fields (-sum (fields 0) (HEADER + entries.length))

/-- One entry of type 5, and the loop does not end. -/
theorem mpinit_unknown_type :
    mpconfig (table [5]) = true ∧ ∀ n, mpinit n (table [5]) = none := by
  have hconf : mpconfig (table [5]) = true := by decide +kernel
  refine ⟨hconf, fun n => ?_⟩
  rw [mpinit, if_pos hconf, mpLoop_unknown (by decide +kernel) (by decide +kernel)]
  rfl

/-- A table with two processors and a bus. -/
def twoCpus : Bytes :=
  table ([0, 7] ++ List.replicate 18 0 ++ [0, 3] ++ List.replicate 18 0 ++ 1 :: List.replicate 7 0)

theorem mpinit_ends_iff_twoCpus :
    ∃ n s, mpinit n twoCpus = some (s, none) ∧ s.apicids = [7, 3] := by
  have hentries : Entries twoCpus (confLength twoCpus) HEADER [44, 64, 84] 92 :=
    .entry (k := .proc) (by decide +kernel) (by decide +kernel)
      (.entry (k := .proc) (by decide +kernel) (by decide +kernel)
        (.entry (k := .bus) (by decide +kernel) (by decide +kernel) (.finish (by decide +kernel))))
  obtain ⟨ps, q, h, hiff⟩ := mpinit_ends_iff twoCpus (by decide +kernel)
  obtain ⟨rfl, rfl⟩ := h.unique hentries
  obtain ⟨n, s, panic, hrun, hids, hpanic⟩ := hiff.mpr (by decide +kernel)
  exact ⟨n, s, by rw [hrun, hpanic]; rfl, by rw [hids]; decide +kernel⟩

end Xv6.Mp
