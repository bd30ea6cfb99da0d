/-
# Directories

A directory is a file of `struct dirent`s: a 16-bit inode number and a name of `DIRSIZ` bytes,
which is a string that ends at its first NUL or fills the field.  `dirlookup`, the search of
`dirlink` for an empty entry and `isdirempty` are one loop with three tests.

Strings are lists of bytes without a NUL.  Reading past the end of one gives the NUL that ends
it in memory.
-/
import Xv6.Fs.Cache

namespace Xv6.Fs

open Bytes

/-! ## 1. Strings and names -/

/-- `strncmp(p, q, n)`. -/
def strncmp : Nat → List UInt8 → List UInt8 → Int
  | 0, _, _ => 0
  | n + 1, p, q =>
    if p.headD 0 ≠ 0 ∧ p.headD 0 = q.headD 0 then strncmp n p.tail q.tail
    else (p.headD 0).toNat - (q.headD 0).toNat

/-- `namecmp`. -/
def namecmp (s t : List UInt8) : Int := strncmp DIRSIZ s t

/-- `strncpy(s, t, n)`: the `n` bytes of `s`. -/
def strncpy : Nat → List UInt8 → List UInt8
  | 0, _ => []
  | n + 1, t =>
    if t.headD 0 = 0 then List.replicate (n + 1) 0 else t.headD 0 :: strncpy n t.tail

/-- The string in a name field: up to the first NUL. -/
def cstring (n : Nat) (t : List UInt8) : List UInt8 := (t.take n).takeWhile (· ≠ 0)

theorem cstring_succ (n : Nat) (t : List UInt8) :
    cstring (n + 1) t = if t.headD 0 = 0 then [] else t.headD 0 :: cstring n t.tail := by
  cases t with
  | nil => simp [cstring]
  | cons a t =>
    by_cases h : a = 0
    · simp [cstring, h]
    · simp [cstring, h]

/-- Two names are the same when their strings are. -/
theorem strncmp_eq_zero : ∀ (n : Nat) (p q : List UInt8),
    strncmp n p q = 0 ↔ cstring n p = cstring n q
  | 0, p, q => by simp [strncmp, cstring]
  | n + 1, p, q => by
    rw [cstring_succ, cstring_succ, strncmp]
    by_cases h : p.headD 0 ≠ 0 ∧ p.headD 0 = q.headD 0
    · rw [if_pos h, if_neg h.1, if_neg (h.2 ▸ h.1), strncmp_eq_zero n, h.2]
      simp
    · rw [if_neg h]
      have hsub : ((p.headD 0).toNat : Int) - (q.headD 0).toNat = 0 ↔ p.headD 0 = q.headD 0 := by
        rw [Int.sub_eq_zero, Int.natCast_inj, UInt8.toNat_inj]
      rw [hsub]
      clear hsub
      generalize p.headD 0 = a at *
      generalize q.headD 0 = b at *
      -- the first characters differ, or both strings end here
      by_cases ha : a = 0
      · by_cases hb : b = 0
        · simp [ha, hb]
        · simp [ha, hb, Ne.symm hb]
      · have hne : a ≠ b := fun e => h ⟨ha, e⟩
        by_cases hb : b = 0
        · simp [hb, ha]
        · simp [ha, hb, hne]

@[simp] theorem strncpy_length : ∀ (n : Nat) (t : List UInt8), (strncpy n t).length = n
  | 0, _ => rfl
  | n + 1, t => by
    unfold strncpy
    split
    · simp
    · simp [strncpy_length n]

/-- A copied name is the same name. -/
theorem cstring_strncpy : ∀ (n : Nat) (t : List UInt8), cstring n (strncpy n t) = cstring n t
  | 0, _ => by simp [cstring]
  | n + 1, t => by
    rw [cstring_succ, cstring_succ]
    unfold strncpy
    by_cases h : t.headD 0 = 0
    · simp only [h, if_true, List.replicate_succ, List.headD_cons]
    · simp only [h, if_false, List.headD_cons, List.tail_cons, cstring_strncpy n]

/-- `"."` and `".."`. -/
def dot : List UInt8 := [46]

def dotdot : List UInt8 := [46, 46]

/-! ## 2. Directory entries -/

/-- `struct dirent`. -/
structure Dirent where
  inum : Nat
  name : List UInt8
  deriving DecidableEq, Repr

/-- `sizeof(struct dirent)`. -/
abbrev DESIZE : Nat := 16

/-- The bytes of the entry that `dirlink` writes. -/
def Dirent.make (name : List UInt8) (inum : Nat) : List UInt8 :=
  UInt8.ofNat inum :: UInt8.ofNat (inum / 256) :: strncpy DIRSIZ name

/-- An entry from its bytes. -/
def Dirent.ofBytes (bytes : List UInt8) : Dirent where
  inum := (bytes.getD 0 0).toNat + 256 * (bytes.getD 1 0).toNat
  name := bytes.drop 2

theorem Dirent.make_length (name : List UInt8) (inum : Nat) :
    (Dirent.make name inum).length = DESIZE := by
  simp [Dirent.make]

theorem Dirent.ofBytes_make {name : List UInt8} {inum : Nat} (h : inum < 2 ^ 16) :
    Dirent.ofBytes (Dirent.make name inum) = ⟨inum, strncpy DIRSIZ name⟩ := by
  simp only [Dirent.ofBytes, Dirent.make, List.getD_cons_zero, List.getD_cons_succ,
    List.drop_succ_cons, List.drop_zero, Dirent.mk.injEq, and_true, UInt8.toNat_ofNat']
  omega

/-- The loop over the entries of `dp` from `off` on, up to one that passes the test: the
offset at the end, and the entry. -/
def dirScan (dp : Nat) (test : Dirent → Bool) (err : Panic) :
    Nat → Nat → FsM (Nat × Option Dirent)
  | 0, off => return (off, none)
  | fuel + 1, off => do
    let s ← get
    if off < (s.inode dp).size then
      match ← readi dp off DESIZE with
      | none => throw err
      | some bytes =>
        if bytes.length ≠ DESIZE then throw err
        else if test (Dirent.ofBytes bytes) then return (off, some (Dirent.ofBytes bytes))
        else dirScan dp test err fuel (off + DESIZE)
    else return (off, none)

/-- A number of passes that is enough for a directory of the given size. -/
def scanFuel (size : Nat) : Nat := size / DESIZE + 2

/-- The test of `dirlookup`. -/
def Dirent.named (name : List UInt8) (de : Dirent) : Bool :=
  de.inum ≠ 0 && namecmp name de.name == 0

/-- `dirlookup(dp, name, poff)`: the inode number, referenced, and the offset. -/
def dirlookup (dp : Nat) (name : List UInt8) : FsM (Option (Nat × Nat)) := do
  let s ← get
  if (s.inode dp).type ≠ T_DIR then throw .notDir
  else
    match ← dirScan dp (Dirent.named name) .dirlookupRead (scanFuel (s.inode dp).size) 0 with
    | (off, some de) => do
      iget de.inum
      return some (de.inum, off)
    | (_, none) => return none

/-- The rest of `dirlink`, once the name is known to be absent. -/
def dirlinkWrite (dp : Nat) (name : List UInt8) (inum : Nat) : FsM Unit := do
  let s ← get
  let (off, _) ← dirScan dp (fun de => de.inum == 0) .dirlinkRead (scanFuel (s.inode dp).size) 0
  let r ← writei dp (Dirent.make name inum) off
  if r ≠ DESIZE then throw .dirlink

/-- `isdirempty`. -/
def isdirempty (dp : Nat) : FsM Bool := do
  let s ← get
  let (_, de) ← dirScan dp (fun de => de.inum != 0) .isdirempty (scanFuel (s.inode dp).size)
    (2 * DESIZE)
  return de.isNone

/-! ## 3. The entries of a file -/

/-- The entry at an offset. -/
def File.dirent (f : File) (off : Nat) : Dirent := Dirent.ofBytes (slice f.bytes off DESIZE)

/-- The entries of a directory, with their offsets. -/
def File.entries (f : File) : List (Nat × Dirent) :=
  (List.range (f.size / DESIZE)).map fun k => (DESIZE * k, f.dirent (DESIZE * k))

/-- What `dirlookup` finds. -/
def File.lookup (f : File) (name : List UInt8) : Option (Nat × Dirent) :=
  f.entries.find? fun e => Dirent.named name e.2

/-- Where `dirlink` puts a new entry. -/
def File.freeOff (f : File) : Nat :=
  match f.entries.find? fun e => e.2.inum == 0 with
  | some e => e.1
  | none => DESIZE * ((f.size + (DESIZE - 1)) / DESIZE)

section

variable {s : FileSys} {dp : Nat} {test : Dirent → Bool} {err : Panic} {E : Panic → Prop}

/-- A whole entry is read. -/
theorem read_dirent {f : File} {off : Nat} (h : off + DESIZE ≤ f.size) (hs : f.size < 2 ^ 32) :
    f.read off DESIZE = some (slice f.bytes off DESIZE) := by
  have hadd : ¬ (f.size < off ∨ add32 off DESIZE < off) := by
    unfold add32
    rw [Nat.mod_eq_of_lt (by omega)]
    omega
  unfold File.read
  rw [if_neg hadd, if_neg (by omega)]

/-- A partial entry at the end is read short. -/
theorem read_short {f : File} {off : Nat} (h : off < f.size) (hs : f.size < off + DESIZE) :
    ∀ bytes, f.read off DESIZE = some bytes → bytes.length ≠ DESIZE := by
  intro bytes hb
  unfold File.read at hb
  rw [if_pos hs] at hb
  split at hb
  · simp at hb
  · rw [← Option.some.inj hb, slice_length]
    omega

/-- The loop up to the first entry that passes the test.  Only the blocks up to that entry have to
be there. -/
theorem wp_dirScan_found {nb j : Nat} (hb : HasBlocks s.data (s.inode dp) nb)
    (ht : (s.inode dp).type ≠ T_DEV) (hsmall : (s.inode dp).size < 2 ^ 32)
    (hj : DESIZE * (j + 1) ≤ min (s.inode dp).size (nb * BSIZE))
    (hbefore : ∀ i, i < j → test ((fileOf s.data (s.inode dp)).dirent (DESIZE * i)) = false)
    (hat : test ((fileOf s.data (s.inode dp)).dirent (DESIZE * j)) = true) :
    ∀ (fuel k : Nat), k ≤ j → j < k + fuel → ∀ {Q : Nat × Option Dirent → FileSys → Prop},
    Q (DESIZE * j, some ((fileOf s.data (s.inode dp)).dirent (DESIZE * j))) s →
    wp (dirScan dp test err fuel (DESIZE * k)) Q E s
  | 0, k, hk, hlt, _, _ => absurd hlt (by omega)
  | fuel + 1, k, hk, hlt, Q, hQ => by
    have hD : DESIZE = 16 := rfl
    have hend : DESIZE * k + DESIZE ≤ min (s.inode dp).size (nb * BSIZE) := by
      rw [hD] at hj ⊢
      omega
    unfold dirScan
    simp only [wp_bind, wp_get]
    rw [if_pos (by omega), wp_bind]
    refine wp_readi_blocks (fun bn => (hb.block bn).mpr) ht (by omega) ?_
    rw [read_dirent (f := fileOf s.data (s.inode dp)) (show _ ≤ (s.inode dp).size by omega) hsmall]
    dsimp only
    rw [if_neg (by simp)]
    change wp (if test ((fileOf s.data (s.inode dp)).dirent (DESIZE * k)) = true then _ else _) Q E s
    by_cases e : k = j
    · subst e
      rw [if_pos hat, wp_pure]
      exact hQ
    · rw [hbefore k (by omega), if_neg (by simp), ← Nat.mul_succ]
      exact wp_dirScan_found hb ht hsmall hj hbefore hat fuel (k + 1) (by omega) (by omega) hQ

/-- The loop finds the first entry that passes the test, or comes to the end, where it stops if
the last entry is not whole. -/
theorem wp_dirScan (h : Good s) (hv : s.valid dp = true) (ht : (s.inode dp).type ≠ T_DEV) :
    ∀ (fuel k : Nat), (s.view dp).size < DESIZE * (k + fuel) →
    (((s.view dp).entries.drop k).find? (fun e => test e.2) = none →
      (s.view dp).size % DESIZE ≠ 0 → E err) →
    ∀ {Q : Nat × Option Dirent → FileSys → Prop},
    (∀ e, ((s.view dp).entries.drop k).find? (fun e => test e.2) = some e →
      Q (e.1, some e.2) s) →
    (((s.view dp).entries.drop k).find? (fun e => test e.2) = none →
      ∀ off, off = max (DESIZE * k) (DESIZE * (((s.view dp).size + (DESIZE - 1)) / DESIZE)) →
      Q (off, none) s) →
    wp (dirScan dp test err fuel (DESIZE * k)) Q E s := by
  have hD : DESIZE = 16 := rfl
  have hsize : (s.view dp).size = (s.inode dp).size := by rw [h.view_eq hv]; rfl
  have hsmall : (s.view dp).size < 2 ^ 32 := by
    have hle := (h.hasBlocks hv ht).le_maxfile
    have hge := nblk_mul_ge (s.inode dp).size
    have := Nat.mul_le_mul_right BSIZE hle
    rw [hsize]
    exact lt_of_le_of_lt (hge.trans this) (by decide)
  intro fuel
  induction fuel with
  | zero =>
    intro k hlt _ Q hfound hnone
    have hk : (s.view dp).size ≤ DESIZE * k := hlt.le
    refine hnone ?_ _ ?_
    · rw [List.drop_eq_nil_of_le]
      · rfl
      · simp only [File.entries, List.length_map, List.length_range, hD] at hk ⊢
        omega
    · simp only [hD] at hk ⊢
      omega
  | succ fuel ih =>
    intro k hlt herr Q hfound hnone
    unfold dirScan
    simp only [wp_bind, wp_get, ← hsize]
    by_cases hin : DESIZE * k < (s.view dp).size
    · rw [if_pos hin, wp_bind]
      refine wp_readi h hv ht ?_
      by_cases hfull : DESIZE * k + DESIZE ≤ (s.view dp).size
      · -- a whole entry, the head of the rest of the list
        rw [read_dirent hfull hsmall]
        have hk : k < (s.view dp).size / DESIZE := by
          simp only [hD] at hfull ⊢
          omega
        have hdrop : (s.view dp).entries.drop k =
            (DESIZE * k, (s.view dp).dirent (DESIZE * k)) :: (s.view dp).entries.drop (k + 1) := by
          rw [List.drop_eq_getElem_cons (by simpa [File.entries] using hk)]
          simp [File.entries]
        rw [hdrop] at hfound hnone herr
        simp only [slice_length, ne_eq, not_true_eq_false, if_false]
        by_cases htest : test ((s.view dp).dirent (DESIZE * k)) = true
        · simp only [File.dirent] at htest
          rw [if_pos htest, wp_pure]
          refine hfound (DESIZE * k, (s.view dp).dirent (DESIZE * k)) ?_
          rw [List.find?_cons_of_pos]
          exact htest
        · simp only [File.dirent] at htest
          rw [if_neg htest, ← Nat.mul_succ]
          have hcons := List.find?_cons_of_neg (p := fun e : Nat × Dirent => test e.2)
            (a := (DESIZE * k, (s.view dp).dirent (DESIZE * k)))
            (l := (s.view dp).entries.drop (k + 1)) htest
          refine ih (k + 1) (by rwa [show k + 1 + fuel = k + (fuel + 1) by omega])
            (fun he => herr (hcons.trans he)) ?_ ?_
          · intro e he
            exact hfound e (hcons.trans he)
          · intro he off hoff
            refine hnone (hcons.trans he) off ?_
            rw [hoff]
            simp only [hD] at hfull ⊢
            omega
      · -- a partial entry
        have hshort := read_short hin (by omega)
        have hE : E err := by
          refine herr ?_ ?_
          · rw [List.drop_eq_nil_of_le]
            · rfl
            · simp only [File.entries, List.length_map, List.length_range, hD] at hin hfull ⊢
              omega
          · simp only [hD] at hin hfull ⊢
            omega
        cases hr : (s.view dp).read (DESIZE * k) DESIZE with
        | none => exact hE
        | some bytes =>
          simp only [ne_eq, hshort bytes hr, not_false_eq_true, if_true]
          exact hE
    · rw [if_neg hin, wp_pure]
      refine hnone ?_ _ ?_
      · rw [List.drop_eq_nil_of_le]
        · rfl
        · simp only [File.entries, List.length_map, List.length_range, hD] at hin ⊢
          omega
      · simp only [hD] at hin ⊢
        omega

theorem scanFuel_enough (size k : Nat) : size < DESIZE * (k + scanFuel size) := by
  simp only [scanFuel, DESIZE]
  omega

/-- The loop from the first entry on. -/
theorem wp_dirScan_zero (h : Good s) (hv : s.valid dp = true) (ht : (s.inode dp).type ≠ T_DEV)
    (hE : (s.view dp).entries.find? (fun e => test e.2) = none →
      (s.view dp).size % DESIZE ≠ 0 → E err) {Q : Nat × Option Dirent → FileSys → Prop}
    (hfound : ∀ e, (s.view dp).entries.find? (fun e => test e.2) = some e → Q (e.1, some e.2) s)
    (hnone : (s.view dp).entries.find? (fun e => test e.2) = none →
      Q (DESIZE * (((s.view dp).size + (DESIZE - 1)) / DESIZE), none) s) :
    wp (dirScan dp test err (scanFuel (s.inode dp).size) 0) Q E s := by
  have hsize : (s.view dp).size = (s.inode dp).size := by rw [h.view_eq hv]; rfl
  refine wp_dirScan h hv ht _ 0 ?_ hE ?_ ?_
  · rw [hsize]
    exact scanFuel_enough _ 0
  · exact hfound
  · intro he off hoff
    rw [Nat.mul_zero, Nat.zero_max] at hoff
    exact hoff ▸ hnone he

/-- **`dirlookup`** finds what `File.lookup` says, and takes a reference to it. -/
theorem wp_dirlookup (h : Good s) (hv : s.valid dp = true) {name : List UInt8}
    {Q : Option (Nat × Nat) → FileSys → Prop}
    (hfound : ∀ e, (s.view dp).type = T_DIR → (s.view dp).lookup name = some e →
      Q (some (e.2.inum, e.1)) (s.got e.2.inum))
    (hnone : (s.view dp).type = T_DIR → (s.view dp).lookup name = none → Q none s)
    (hnd : (s.view dp).type ≠ T_DIR → E .notDir)
    (hread : (s.view dp).lookup name = none → (s.view dp).size % DESIZE ≠ 0 → E .dirlookupRead)
    (hfull : ∀ e, (s.view dp).lookup name = some e → s.ref e.2.inum = 0 → E .igetNoInodes) :
    wp (dirlookup dp name) Q E s := by
  have htype : (s.view dp).type = (s.inode dp).type := by rw [h.view_eq hv]; rfl
  rw [htype] at hfound hnone hnd
  simp only [dirlookup, wp_bind, wp_get]
  by_cases ht : (s.inode dp).type = T_DIR
  · rw [if_neg (not_not.mpr ht), wp_bind]
    have hnotdev : (s.inode dp).type ≠ T_DEV := by rw [ht]; decide
    refine wp_dirScan_zero h hv hnotdev hread (fun e he => ?_) fun he => hnone ht he
    simp only [wp_bind]
    exact wp_iget (hfound e ht he) fun h0 _ => hfull e he h0
  · rw [if_pos ht, wp_throw]
    exact hnd ht

/-- `isdirempty` looks at the entries behind the first two. -/
theorem wp_isdirempty (h : Good s) (hv : s.valid dp = true) (ht : (s.view dp).type = T_DIR)
    {Q : Bool → FileSys → Prop}
    (hQ : Q (((s.view dp).entries.drop 2).all fun e => e.2.inum == 0) s)
    (hread : (s.view dp).size % DESIZE ≠ 0 → E .isdirempty) : wp (isdirempty dp) Q E s := by
  have htype : (s.view dp).type = (s.inode dp).type := by rw [h.view_eq hv]; rfl
  have hnotdev : (s.inode dp).type ≠ T_DEV := by rw [← htype, ht]; decide
  have hsize : (s.view dp).size = (s.inode dp).size := by rw [h.view_eq hv]; rfl
  simp only [isdirempty, wp_bind, wp_get]
  rw [show 2 * DESIZE = DESIZE * 2 from rfl]
  refine wp_dirScan h hv hnotdev _ 2 ?_ (fun _ => hread) ?_ ?_
  · rw [hsize]
    exact scanFuel_enough _ 2
  · intro e he
    simp only [wp_pure, Option.isNone_some]
    have : (((s.view dp).entries.drop 2).all fun e => e.2.inum == 0) = false := by
      have hmem := List.mem_of_find?_eq_some he
      have htest := List.find?_some he
      refine List.all_eq_false.mpr ⟨e, hmem, by simpa using htest⟩
    rwa [this] at hQ
  · intro he off _
    simp only [wp_pure, Option.isNone_none]
    have : (((s.view dp).entries.drop 2).all fun e => e.2.inum == 0) = true := by
      refine List.all_eq_true.mpr fun e hmem => ?_
      have := List.find?_eq_none.mp he e hmem
      simpa using this
    rwa [this] at hQ

/-- The rest of `dirlink` writes the entry at the first empty one, or at the end. -/
theorem wp_dirlinkWrite (h : Good s) (hv : s.valid dp = true) (ht : (s.view dp).type = T_DIR)
    {name : List UInt8} {inum : Nat} {Q : Unit → FileSys → Prop}
    (hQ : ∀ s', Updated s s' dp
      ((s.view dp).write (s.view dp).freeOff (Dirent.make name inum)) → Q () s')
    (hread : (s.view dp).size % DESIZE ≠ 0 → E .dirlinkRead) (hlink : E .dirlink)
    (hE : ∀ e, Limit e → E e) : wp (dirlinkWrite dp name inum) Q E s := by
  have htype : (s.view dp).type = (s.inode dp).type := by rw [h.view_eq hv]; rfl
  have hnotdev : (s.inode dp).type ≠ T_DEV := by rw [← htype, ht]; decide
  have hwrite : ∀ off, off = (s.view dp).freeOff →
      wp (do
        let r ← writei dp (Dirent.make name inum) off
        if r ≠ DESIZE then throw Panic.dirlink) Q E s := by
    intro off hoff
    rw [wp_bind]
    refine wp_writei h hv hnotdev (fun _ => ?_) (fun _ _ s' hu => ?_) hE
    · simp only [show ((-1 : Int) ≠ DESIZE) ↔ True by decide, if_true, wp_throw]
      exact hlink
    · rw [Dirent.make_length]
      simp only [ne_eq, not_true_eq_false, if_false, wp_pure]
      exact hQ s' (hoff ▸ hu)
  simp only [dirlinkWrite, wp_bind, wp_get]
  refine wp_dirScan_zero h hv hnotdev (fun _ => hread) (fun e he => ?_) fun he => ?_
  · refine (wp_bind _ _ _ _ _).mp (hwrite e.1 ?_)
    unfold File.freeOff
    rw [he]
  · refine (wp_bind _ _ _ _ _).mp (hwrite _ ?_)
    unfold File.freeOff
    rw [he]

end

end Xv6.Fs
