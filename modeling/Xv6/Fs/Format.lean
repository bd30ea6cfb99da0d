/-
# The format of the disk

`State.lean` has the disk by region: a table of inodes, a map of bits, blocks of bytes.  On the
disk there are only blocks.  This module has the structs of `fs.h` as the bytes that they are,
and reads the regions off a disk the way the kernel finds them: the superblock in block 1,
inode `i` in block `IBLOCK(i, sb)`, the bit of block `b` in block `BBLOCK(b, sb)`.

A `struct dinode` is sixteen words.  A struct that is stored and read back is the same when its
fields are in the range of their C types, and the other structs in the block are left alone.
-/
import Xv6.Fs.Call

namespace Xv6.Fs

open Bytes

/-! ## 1. `struct superblock` -/

def Superblock.words (sb : Superblock) : List Nat :=
  [sb.size, sb.nblocks, sb.ninodes, sb.nlog, sb.logstart, sb.inodestart, sb.bmapstart]

/-- `readsb`. -/
def readsb (disk : Nat → Bytes) : Superblock where
  size := getWord (disk 1) 0
  nblocks := getWord (disk 1) 1
  ninodes := getWord (disk 1) 2
  nlog := getWord (disk 1) 3
  logstart := getWord (disk 1) 4
  inodestart := getWord (disk 1) 5
  bmapstart := getWord (disk 1) 6

theorem readsb_of_words {disk : Nat → Bytes} {sb : Superblock} {m : Bytes}
    (h : disk 1 = setWords m 0 sb.words) (hw : ∀ w ∈ sb.words, w < 2 ^ 32) : readsb disk = sb := by
  have hword : ∀ k, k < sb.words.length → getWord (disk 1) k = sb.words.getD k 0 := by
    intro k hk
    have : getWord (setWords m 0 sb.words) (0 + k) = _ := getWord_setWords hk
    rw [Nat.zero_add] at this
    rw [h, this, List.getD_eq_getElem?_getD, List.getElem?_eq_getElem hk]
    exact Nat.mod_eq_of_lt (hw _ (List.getElem_mem hk))
  have hlen : sb.words.length = 7 := rfl
  rw [hlen] at hword
  unfold readsb
  rw [hword 0 (by decide), hword 1 (by decide), hword 2 (by decide), hword 3 (by decide),
    hword 4 (by decide), hword 5 (by decide), hword 6 (by decide)]
  rfl

/-! ## 2. `struct dinode` -/

/-- The two bytes of a `short`. -/
def ushort (x : Int) : Nat := (x % 65536).toNat

/-- The sixteen words of a `struct dinode`. -/
def Dinode.words (d : Dinode) : List Nat :=
  [ushort d.type + 65536 * ushort d.major, ushort d.minor + 65536 * ushort d.nlink, d.size] ++
    (List.range (NDIRECT + 1)).map d.addrs

/-- `((struct dinode*)blk)[j]`. -/
def loadDinode (blk : Bytes) (j : Nat) : Dinode where
  type := short (getWord blk (16 * j) % 65536 : Nat)
  major := short (getWord blk (16 * j) / 65536 : Nat)
  minor := short (getWord blk (16 * j + 1) % 65536 : Nat)
  nlink := short (getWord blk (16 * j + 1) / 65536 : Nat)
  size := getWord blk (16 * j + 2)
  addrs m := if m ≤ NDIRECT then getWord blk (16 * j + (3 + m)) else 0

/-- `((struct dinode*)blk)[j] = d`. -/
def storeDinode (blk : Bytes) (j : Nat) (d : Dinode) : Bytes := setWords blk (16 * j) d.words

/-- The fields are in the range of their types. -/
structure Dinode.InRange (d : Dinode) : Prop where
  type : short d.type = d.type
  major : short d.major = d.major
  minor : short d.minor = d.minor
  nlink : short d.nlink = d.nlink
  size : d.size < 2 ^ 32
  addrs : ∀ m, d.addrs m < 2 ^ 32
  addrs_zero : ∀ m, NDIRECT < m → d.addrs m = 0

theorem Dinode.InRange.resize {d : Dinode} (h : d.InRange) {n : Nat} (hn : n < 2 ^ 32) :
    Dinode.InRange { d with size := n } :=
  ⟨h.type, h.major, h.minor, h.nlink, hn, h.addrs, h.addrs_zero⟩

theorem ushort_lt (x : Int) : ushort x < 65536 := by
  unfold ushort
  omega

theorem short_ushort (x : Int) : short (ushort x : Nat) = short x := by
  unfold short ushort
  rw [Int.toNat_of_nonneg (by omega)]
  exact Int.emod_bmod x 65536

theorem short_short (x : Int) : short (short x) = short x := Int.bmod_bmod

theorem Dinode.words_length (d : Dinode) : d.words.length = 16 := by
  simp [Dinode.words]

theorem Dinode.words_addrs (d : Dinode) {m : Nat} (hm : m ≤ NDIRECT) :
    d.words.getD (3 + m) 0 = d.addrs m := by
  rw [Nat.add_comm, List.getD_eq_getElem?_getD]
  simp only [Dinode.words, List.cons_append, List.nil_append, List.getElem?_cons_succ,
    List.getElem?_map]
  rw [List.getElem?_range (by omega)]
  rfl

/-- What is loaded is in range. -/
theorem loadDinode_inRange (blk : Bytes) (j : Nat) : (loadDinode blk j).InRange := by
  unfold loadDinode
  refine ⟨by simp only [short_short], by simp only [short_short], by simp only [short_short],
    by simp only [short_short], getWord_lt .., fun m => ?_, fun m hm => if_neg (by omega)⟩
  dsimp only
  split
  · exact getWord_lt ..
  · exact Nat.two_pow_pos 32

/-- **A stored inode is read back.** -/
theorem loadDinode_storeDinode (blk : Bytes) (j : Nat) {d : Dinode} (h : d.InRange) :
    loadDinode (storeDinode blk j d) j = d := by
  have hword : ∀ k, k < 16 → getWord (storeDinode blk j d) (16 * j + k) =
      d.words.getD k 0 % 2 ^ 32 := fun k hk => getWord_setWords (by rwa [d.words_length])
  have h0 : getWord (storeDinode blk j d) (16 * j) =
      ushort d.type + 65536 * ushort d.major := by
    have := ushort_lt d.type
    have := ushort_lt d.major
    refine (hword 0 (by decide)).trans (Nat.mod_eq_of_lt (show _ + _ < _ by omega))
  have h1 : getWord (storeDinode blk j d) (16 * j + 1) =
      ushort d.minor + 65536 * ushort d.nlink := by
    have := ushort_lt d.minor
    have := ushort_lt d.nlink
    refine (hword 1 (by decide)).trans (Nat.mod_eq_of_lt (show _ + _ < _ by omega))
  have h2 : getWord (storeDinode blk j d) (16 * j + 2) = d.size :=
    (hword 2 (by decide)).trans (Nat.mod_eq_of_lt h.size)
  have hlow : ∀ a b, a < 65536 → (a + 65536 * b) % 65536 = a := by omega
  have hhigh : ∀ a b, a < 65536 → (a + 65536 * b) / 65536 = b := by omega
  have haddrs : (loadDinode (storeDinode blk j d) j).addrs = d.addrs := by
    funext m
    unfold loadDinode
    dsimp only
    split
    next hm =>
      have hm' : m ≤ 12 := hm
      rw [hword (3 + m) (by omega), d.words_addrs hm]
      exact Nat.mod_eq_of_lt (h.addrs m)
    next hm => exact (h.addrs_zero m (by omega)).symm
  obtain ⟨type, major, minor, nlink, size, addrs⟩ := d
  rw [show loadDinode (storeDinode blk j _) j = Dinode.mk _ _ _ _ _ _ from rfl, Dinode.mk.injEq]
  rw [h0, h1, h2, hlow _ _ (ushort_lt _), hlow _ _ (ushort_lt _), hhigh _ _ (ushort_lt _),
    hhigh _ _ (ushort_lt _), short_ushort, short_ushort, short_ushort, short_ushort]
  exact ⟨h.type, h.major, h.minor, h.nlink, rfl, haddrs⟩

/-- The other inodes of the block are as they were. -/
theorem loadDinode_storeDinode_ne (blk : Bytes) {i j : Nat} (d : Dinode) (h : i ≠ j) :
    loadDinode (storeDinode blk j d) i = loadDinode blk i := by
  have hword : ∀ k, k < 16 → getWord (storeDinode blk j d) (16 * i + k) =
      getWord blk (16 * i + k) := by
    intro k hk
    rcases Nat.lt_or_ge i j with hlt | hge
    · exact getWord_setWords_of_lt (by omega)
    · exact getWord_setWords_of_ge (by rw [d.words_length]; omega)
  have haddrs : (loadDinode (storeDinode blk j d) i).addrs = (loadDinode blk i).addrs := by
    funext m
    unfold loadDinode
    dsimp only
    split
    next hm =>
      have hm' : m ≤ 12 := hm
      exact hword (3 + m) (by omega)
    next => rfl
  have h0 := hword 0 (by decide)
  rw [Nat.add_zero] at h0
  rw [show loadDinode (storeDinode blk j d) i = Dinode.mk _ _ _ _ _ _ from rfl,
    show loadDinode blk i = Dinode.mk _ _ _ _ _ _ from rfl, Dinode.mk.injEq]
  rw [h0, hword 1 (by decide), hword 2 (by decide)]
  exact ⟨rfl, rfl, rfl, rfl, rfl, haddrs⟩

/-- An inode of zeroed bytes. -/
theorem loadDinode_zero (j : Nat) : loadDinode (fun _ => 0) j = Dinode.zero := by
  unfold loadDinode Dinode.zero
  simp only [getWord_zero, ite_self]
  rfl

/-! ## 3. The disk -/

/-- The file system on a disk, with nothing cached. -/
def FileSys.ofDisk (disk : Nat → Bytes) (devsw : Nat → Dev) : FileSys where
  sb := readsb disk
  dinode i := loadDinode (disk ((readsb disk).iblock i)) (i % IPB)
  bitmap b := getBit (disk ((readsb disk).bblock b)) (b % BPB)
  data := disk
  inode _ := Dinode.zero
  ref _ := 0
  valid _ := false
  lock _ := none
  used := []
  outstanding := 0
  lh := []
  devsw := devsw

end Xv6.Fs
