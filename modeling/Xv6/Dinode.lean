import Xv6.Param
import Mathlib.Logic.Function.Basic

/-!
# Inodes on disk

`struct dinode` lies eight to a block: four 16-bit fields, the size and the block addresses, as
bytes. `Dinode.read` and `Dinode.write` are what a `struct dinode *` into a buffer reads and
writes, and the two laws at the end are all that later modules use of the byte layout.
-/

namespace Xv6

/-- root i-number -/
abbrev ROOTINO : ℕ := 1
/-- direct block addresses of an inode -/
abbrev NDIRECT : ℕ := 12
/-- `BSIZE / sizeof(uint)`: addresses in an indirect block -/
abbrev NINDIRECT : ℕ := 128
/-- `NDIRECT + NINDIRECT`: largest file, in blocks -/
abbrev MAXFILE : ℕ := 140

/-- Directory -/
abbrev T_DIR : UInt16 := 1
/-- File -/
abbrev T_FILE : UInt16 := 2
/-- Device -/
abbrev T_DEV : UInt16 := 3

/-- `struct dinode`, and the same fields of `struct inode`. The `short`s are 16-bit words; the
addresses past `addrs[NDIRECT]` are not there and count as zero. -/
structure Dinode where
  /-- File type -/
  type : UInt16
  /-- Major device number (T_DEV only) -/
  major : UInt16
  /-- Minor device number (T_DEV only) -/
  minor : UInt16
  /-- Number of links to inode in file system -/
  nlink : UInt16
  /-- Size of file (bytes) -/
  size : ℕ
  /-- Data block addresses -/
  addrs : ℕ → ℕ

namespace Dinode

theorem ext {d e : Dinode} (ht : d.type = e.type) (hj : d.major = e.major)
    (hi : d.minor = e.minor) (hn : d.nlink = e.nlink) (hs : d.size = e.size)
    (ha : ∀ k, d.addrs k = e.addrs k) : d = e := by
  have ha : d.addrs = e.addrs := funext ha
  cases d
  cases e
  simp_all

/-- The fields hold what their types can hold. -/
structure Fits (d : Dinode) : Prop where
  size : d.size < 2 ^ 32
  addrs : ∀ k, d.addrs k < 2 ^ 32
  none : ∀ k, NDIRECT < k → d.addrs k = 0

/-- Byte `j` of the structure. -/
def byte (d : Dinode) (j : ℕ) : UInt8 :=
  if j < 2 then Bytes.byteOf d.type.toNat j
  else if j < 4 then Bytes.byteOf d.major.toNat (j - 2)
  else if j < 6 then Bytes.byteOf d.minor.toNat (j - 4)
  else if j < 8 then Bytes.byteOf d.nlink.toNat (j - 6)
  else if j < 12 then Bytes.byteOf d.size (j - 8)
  else Bytes.byteOf (d.addrs ((j - 12) / 4)) ((j - 12) % 4)

/-- The `k`-th inode of an inode block. -/
def read (b : Block) (k : ℕ) : Dinode where
  type := UInt16.ofNat (b.u16 (64 * k))
  major := UInt16.ofNat (b.u16 (64 * k + 2))
  minor := UInt16.ofNat (b.u16 (64 * k + 4))
  nlink := UInt16.ofNat (b.u16 (64 * k + 6))
  size := b.u32 (64 * k + 8)
  addrs := fun j => if j ≤ NDIRECT then b.u32 (64 * k + 12 + 4 * j) else 0

/-- Overwrite the `k`-th inode of an inode block. -/
def write (b : Block) (k : ℕ) (d : Dinode) : Block := fun i =>
  if 64 * k ≤ i.val ∧ i.val < 64 * k + 64 then d.byte (i - 64 * k) else b i

theorem read_fits (b : Block) (k : ℕ) : (read b k).Fits where
  size := b.u32_lt _
  addrs j := by
    simp only [read]
    split
    · exact b.u32_lt _
    · decide
  none j hj := if_neg (Nat.not_le.mpr hj)

variable {d : Dinode} {b : Block}

theorem get_write_mem {k j : ℕ} (hk : k < 8) (hj : j < 64) :
    (write b k d).get (64 * k + j) = d.byte j := by
  have hlt : 64 * k + j < 512 := by omega
  rw [Bytes.get, dif_pos hlt, write, if_pos (by simp; omega)]
  simp

theorem get_write_out {k i : ℕ} (hi : i < 64 * k ∨ 64 * k + 64 ≤ i) :
    (write b k d).get i = b.get i := by
  by_cases h : i < BSIZE
  · rw [Bytes.get, Bytes.get, dif_pos h, dif_pos h, write, if_neg (by simp; omega)]
  · rw [Bytes.get, Bytes.get, dif_neg h, dif_neg h]

/-- A 16-bit field of the structure is read back. -/
theorem u16_write {k o : ℕ} {v : UInt16} (hk : k < 8) (ho : o + 2 ≤ 64)
    (hv : ∀ t < 2, d.byte (o + t) = Bytes.byteOf v.toNat t) :
    UInt16.ofNat ((write b k d).u16 (64 * k + o)) = v := by
  have h : (write b k d).u16 (64 * k + o) = v.toNat := by
    refine Bytes.u16_of_bytes v.toNat_lt fun t ht => ?_
    rw [Nat.add_assoc, get_write_mem hk (by omega), hv t ht]
  rw [h, UInt16.ofNat_toNat]

theorem u32_write {k o v : ℕ} (hk : k < 8) (ho : o + 4 ≤ 64)
    (hlt : v < 2 ^ 32) (hv : ∀ t < 4, d.byte (o + t) = Bytes.byteOf v t) :
    (write b k d).u32 (64 * k + o) = v := by
  refine Bytes.u32_of_bytes hlt fun t ht => ?_
  rw [Nat.add_assoc, get_write_mem hk (by omega), hv t ht]

/-- **Read after write**, the same inode. -/
theorem read_write_self {k : ℕ} (hk : k < 8) (hd : d.Fits) : read (write b k d) k = d := by
  refine ext ?_ ?_ ?_ ?_ ?_ fun j => ?_
  · refine u16_write (o := 0) hk (by omega) fun t ht => ?_
    rw [byte, if_pos (by omega), Nat.zero_add]
  · refine u16_write (o := 2) hk (by omega) fun t ht => ?_
    rw [byte, if_neg (by omega), if_pos (by omega), Nat.add_sub_cancel_left]
  · refine u16_write (o := 4) hk (by omega) fun t ht => ?_
    rw [byte, if_neg (by omega), if_neg (by omega), if_pos (by omega), Nat.add_sub_cancel_left]
  · refine u16_write (o := 6) hk (by omega) fun t ht => ?_
    rw [byte, if_neg (by omega), if_neg (by omega), if_neg (by omega), if_pos (by omega),
      Nat.add_sub_cancel_left]
  · refine u32_write (o := 8) hk (by omega) hd.size fun t ht => ?_
    rw [byte, if_neg (by omega), if_neg (by omega), if_neg (by omega), if_neg (by omega),
      if_pos (by omega), Nat.add_sub_cancel_left]
  · by_cases hj : j ≤ 12
    · simp only [read]
      rw [if_pos hj, Nat.add_assoc]
      refine u32_write hk (by omega) (hd.addrs j) fun t ht => ?_
      rw [byte, if_neg (by omega), if_neg (by omega), if_neg (by omega), if_neg (by omega),
        if_neg (by omega)]
      have e1 : (12 + 4 * j + t - 12) / 4 = j := by omega
      have e2 : (12 + 4 * j + t - 12) % 4 = t := by omega
      rw [e1, e2]
    · simp only [read]
      rw [if_neg hj, hd.none j (Nat.lt_of_not_le hj)]

/-- **Read after write**, another inode of the block. -/
theorem read_write_ne {k k' : ℕ} (h : k' ≠ k) : read (write b k d) k' = read b k' := by
  have hget : ∀ o < 64, (write b k d).get (64 * k' + o) = b.get (64 * k' + o) := fun o ho =>
    get_write_out (by omega)
  have h16 : ∀ o, o + 2 ≤ 64 → (write b k d).u16 (64 * k' + o) = b.u16 (64 * k' + o) :=
    fun o ho => Bytes.u16_congr fun t ht => by rw [Nat.add_assoc]; exact hget _ (by omega)
  have h32 : ∀ o, o + 4 ≤ 64 → (write b k d).u32 (64 * k' + o) = b.u32 (64 * k' + o) :=
    fun o ho => Bytes.u32_congr fun t ht => by rw [Nat.add_assoc]; exact hget _ (by omega)
  refine ext ?_ ?_ ?_ ?_ ?_ fun j => ?_
  · exact congrArg UInt16.ofNat (h16 0 (by omega))
  · exact congrArg UInt16.ofNat (h16 2 (by omega))
  · exact congrArg UInt16.ofNat (h16 4 (by omega))
  · exact congrArg UInt16.ofNat (h16 6 (by omega))
  · exact h32 8 (by omega)
  simp only [read]
  split
  · rename_i hj
    have hj : j ≤ 12 := hj
    rw [Nat.add_assoc]
    exact h32 _ (by omega)
  · rfl

end Dinode

end Xv6
