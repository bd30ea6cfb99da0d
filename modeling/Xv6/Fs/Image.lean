/-
# A small disk

A file system as `mkfs` makes it, with a root directory and nothing else: 64 blocks, 16 inodes,
the log in blocks 2 to 31, the inodes in 32 and 33, the bitmap in 34, and the data from block 35
on, which is the block of the root directory.
-/
import Xv6.Fs.Call
import Xv6.Fs.Content

namespace Xv6.Fs

open Bytes

def imageSb : Superblock where
  size := 64
  nblocks := 29
  ninodes := 16
  nlog := 30
  logstart := 2
  inodestart := 32
  bmapstart := 34

/-- The root directory's inode. -/
def imageRoot : Dinode where
  type := T_DIR
  major := 0
  minor := 0
  nlink := 1
  size := 32
  addrs m := if m = 0 then 35 else 0

/-- The disk, with the root directory referenced once. -/
def imageFs : FileSys where
  sb := imageSb
  dinode i := if i = ROOTINO then imageRoot else Dinode.zero
  bitmap b := b ≤ 35
  data b := if b = 35 then fun j => (Dirent.make dot ROOTINO ++ Dirent.make dotdot ROOTINO).getD j 0
    else fun _ => 0
  inode _ := Dinode.zero
  ref i := if i = ROOTINO then 1 else 0
  valid _ := false
  lock _ := none
  used := [ROOTINO]
  outstanding := 0
  lh := []
  devsw _ := ⟨none, none⟩

/-- The kernel after boot: process 0 is in the root directory. -/
def image : Kern where
  fs := imageFs
  ftable _ := ⟨.none, 0, false, false, 0, 0⟩
  proc p := ⟨if p = 0 then some ROOTINO else none, fun _ => none⟩

/-! ## It is in order -/

theorem image_cur (i : Nat) : imageFs.cur i = if i = ROOTINO then imageRoot else Dinode.zero := rfl

theorem image_alloc (i : Nat) : Alloc imageFs i ↔ i = ROOTINO := by
  unfold Alloc
  rw [image_cur]
  constructor
  · rintro ⟨-, ht⟩
    by_contra hne
    rw [if_neg hne] at ht
    exact ht rfl
  · rintro rfl
    exact ⟨by decide, by decide⟩

/-- The root directory has one block. -/
theorem image_slot (m : Nat) : slot imageFs.data imageRoot m = if m = 0 then 35 else 0 := by
  unfold slot
  rw [if_pos (show imageRoot.addrs NDIRECT = 0 from rfl)]
  split
  · rfl
  · rw [if_neg (by omega)]

theorem image_place (l : Nat × Nat) :
    imageFs.place l = if l = (ROOTINO, 0) then 35 else 0 := by
  obtain ⟨i, m⟩ := l
  by_cases hi : i = ROOTINO
  · subst hi
    rw [place_of_alloc ((image_alloc _).mpr rfl), image_cur, if_pos rfl, image_slot]
    simp
  · rw [place_of_not_alloc fun hc => hi ((image_alloc i).mp hc)]
    simp [hi]

theorem image_good : Good imageFs where
  own := {
    pos := by decide
    small := by decide
    reserved := fun b hb => by
      have hb : b < 35 := hb
      exact decide_eq_true (by omega)
    ledger := {
      zero := fun h => absurd h.1 (by decide)
      mem := fun l hl => by
        rw [image_place] at hl ⊢
        split at hl
        · next h =>
          rw [if_pos h]
          exact ⟨by decide, by decide, by decide⟩
        · exact absurd rfl hl
      inj := fun l l' hl he => by
        rw [image_place] at hl he
        rw [image_place] at he
        split at hl
        · next h =>
          rw [if_pos h] at he
          split at he
          · next h' => rw [h, h']
          · cases he
        · exact absurd rfl hl
      cover := fun b hb => by
        obtain ⟨h1, -, h3⟩ := hb
        have h1 : 35 ≤ b := h1
        have h3 : b ≤ 35 := of_decide_eq_true h3
        refine ⟨(ROOTINO, 0), ?_⟩
        rw [image_place, if_pos rfl]
        omega }
    shape := fun i hi _ => by
      rw [(image_alloc i).mp hi, image_cur, if_pos rfl]
      refine ⟨fun bn => ?_, by decide⟩
      have hblk : nblk imageRoot.size = 1 := by decide
      rw [hblk, blockOf, image_slot]
      rcases Nat.eq_zero_or_pos bn with rfl | hpos
      · exact ⟨fun _ => Nat.zero_lt_one, fun _ => by decide⟩
      · have hne : slotOf bn ≠ 0 := by
          unfold slotOf
          split <;> omega
        rw [if_neg hne]
        exact ⟨fun hc => absurd rfl hc, fun hc => absurd hc (by omega)⟩ }
  coherent := fun i hi => by cases hi

/-- A run ends, and its end passes a test. -/
def passes {α : Type} (test : α → Kern → Bool) : Except (Stop Panic Want) (α × Kern) → Bool
  | .ok (a, k) => test a k
  | .error _ => false

/-- A run stops so. -/
def stopsAt {α : Type} (x : Stop Panic Want) : Except (Stop Panic Want) (α × Kern) → Bool
  | .ok _ => false
  | .error y => y = x

theorem passes_iff {α : Type} {test : α → Kern → Bool} {r : Except (Stop Panic Want) (α × Kern)} :
    passes test r = true ↔ ∃ a k, r = .ok (a, k) ∧ test a k = true := by
  constructor
  · intro h
    cases r with
    | ok x => exact ⟨x.1, x.2, rfl, h⟩
    | error e => cases h
  · rintro ⟨a, k, rfl, h⟩
    exact h

theorem stopsAt_iff {α : Type} {x : Stop Panic Want} {r : Except (Stop Panic Want) (α × Kern)} :
    stopsAt x r = true ↔ r = .error x := by
  constructor
  · intro h
    cases r with
    | ok y => cases h
    | error y => exact congrArg _ (of_decide_eq_true h)
  · rintro rfl
    exact decide_eq_true rfl

end Xv6.Fs
