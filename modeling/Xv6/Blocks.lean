import Xv6.Inode
import Mathlib.Data.Finset.Card
import Mathlib.Data.Finset.Range
import Mathlib.Data.Finset.Filter
import Mathlib.Algebra.BigOperators.Group.Finset.Basic
import Mathlib.Algebra.BigOperators.Group.Finset.Sigma
import Mathlib.Algebra.Order.BigOperators.Group.Finset
import Mathlib.Order.Interval.Finset.Nat

/-!
# Who owns which block

The bitmap, the inode table and the indirect blocks describe one thing three times: which block
belongs to which place of which file. `Own` says that they agree, through an explicit owner map
`own`: a *slot* `(i, x)` is file block `x` of inode `i`, or (for `x = MAXFILE`) its indirect
block; `ptr` is the address stored in a slot, `need` tells which slots are to be filled.

* `Own.add` fills a slot with a block that was free, `Own.drop` empties all slots of an inode:
  these are the only two ways in which ownership ever changes.
* Everything is stated about the disk and an inode table, not about the running system, since
  while a file grows its inode in memory is ahead of the one on disk.
-/

namespace Xv6

open Function

/-! ## The layout -/

/-- First data block. -/
def dataStart (sb : Superblock) : ℕ := sb.bmapstart + sb.size / BPB + 1

/-- The regions of the disk follow each other, on a disk that the driver can reach. -/
structure Layout (sb : Superblock) : Prop where
  inodes : sb.inodestart + (sb.ninodes - 1) / 8 < sb.bmapstart
  data : dataStart sb ≤ sb.size
  disk : sb.size ≤ FSSIZE

/-- The layout that `mkfs` writes. -/
theorem layout_mkfs : Layout Mkfs.sb := ⟨by decide, by decide, by decide⟩

/-- The bit of block `b` in the bitmap. -/
def bitOf (sb : Superblock) (disk : Disk) (b : ℕ) : Bool := (disk (BBLOCK sb b)).bit (b % BPB)

/-- The block is not a bitmap block. -/
def Plain (sb : Superblock) (c : ℕ) : Prop := c < sb.bmapstart ∨ dataStart sb ≤ c

theorem bmapstart_lt (sb : Superblock) : sb.bmapstart < dataStart sb := by
  rw [dataStart, Nat.add_assoc]
  exact Nat.lt_add_of_pos_right (Nat.succ_pos _)

variable {i : ℕ}

theorem IBLOCK_lt {sb : Superblock} (L : Layout sb) (hi : i < sb.ninodes) :
    IBLOCK sb i < sb.bmapstart := by
  have h1 := L.inodes
  have h2 : i / 8 ≤ (sb.ninodes - 1) / 8 := Nat.div_le_div_right (by omega)
  show i / 8 + sb.inodestart < sb.bmapstart
  omega

theorem BBLOCK_lt {sb : Superblock} {b : ℕ} (hb : b < sb.size) :
    sb.bmapstart ≤ BBLOCK sb b ∧ BBLOCK sb b < dataStart sb := by
  have h : b / 4096 ≤ sb.size / 4096 := Nat.div_le_div_right hb.le
  constructor
  · show sb.bmapstart ≤ b / 4096 + sb.bmapstart
    omega
  · show b / 4096 + sb.bmapstart < sb.bmapstart + sb.size / 4096 + 1
    omega

theorem Plain.ne_BBLOCK {sb : Superblock} {c b : ℕ} (hc : Plain sb c) (hb : b < sb.size) :
    c ≠ BBLOCK sb b := by
  obtain ⟨h1, h2⟩ := BBLOCK_lt hb
  rcases hc with hc | hc
  · omega
  · omega

theorem plain_IBLOCK {sb : Superblock} (L : Layout sb) (hi : i < sb.ninodes) :
    Plain sb (IBLOCK sb i) := .inl (IBLOCK_lt L hi)

/-! ## Setting one bit -/

/-- The disk with the bit of block `b` set to `v`. -/
def mark (sb : Superblock) (disk : Disk) (b : ℕ) (v : Bool) : Disk :=
  update disk (BBLOCK sb b) ((disk (BBLOCK sb b)).setBit (b % BPB) v)

theorem mark_plain {sb : Superblock} {disk : Disk} {b c : ℕ} {v : Bool} (hc : Plain sb c)
    (hb : b < sb.size) : mark sb disk b v c = disk c :=
  update_of_ne (hc.ne_BBLOCK hb) _ _

theorem bitOf_mark {sb : Superblock} {disk : Disk} {b b' : ℕ} {v : Bool} :
    bitOf sb (mark sb disk b v) b' = if b' = b then v else bitOf sb disk b' := by
  by_cases hblk : BBLOCK sb b' = BBLOCK sb b
  · have hsame : b' / 4096 = b / 4096 := by
      have : b' / 4096 + sb.bmapstart = b / 4096 + sb.bmapstart := hblk
      omega
    rw [bitOf, mark, hblk, update_self]
    split
    · rename_i hb
      subst hb
      exact Bytes.bit_setBit_self (show b' % 4096 < 8 * 512 by omega)
    · rename_i hb
      have hne : b % 4096 ≠ b' % 4096 := by omega
      rw [Bytes.bit_setBit_ne hne, bitOf, hblk]
  · rw [bitOf, mark, update_of_ne hblk, if_neg (by rintro rfl; exact hblk rfl), bitOf]

/-- The free blocks. -/
def freeSet (sb : Superblock) (disk : Disk) : Finset ℕ :=
  (Finset.range sb.size).filter fun b => bitOf sb disk b = false

/-- The number of free blocks. -/
def nfree (sb : Superblock) (disk : Disk) : ℕ := (freeSet sb disk).card

theorem mem_freeSet {sb : Superblock} {disk : Disk} {b : ℕ} :
    b ∈ freeSet sb disk ↔ b < sb.size ∧ bitOf sb disk b = false := by
  simp [freeSet]

/-- The disk after `balloc` has taken block `b`: marked, and zeroed. -/
def allocDisk (sb : Superblock) (disk : Disk) (b : ℕ) : Disk :=
  update (mark sb disk b true) b Bytes.zero

section AllocDisk

variable {sb : Superblock} {disk : Disk} {b : ℕ}

theorem allocDisk_self : allocDisk sb disk b b = Bytes.zero := update_self _ _ _

theorem allocDisk_plain {c : ℕ} (hc : Plain sb c) (hb : b < sb.size) (hne : c ≠ b) :
    allocDisk sb disk b c = disk c := by
  rw [allocDisk, update_of_ne hne, mark_plain hc hb]

theorem bitOf_allocDisk (hb : dataStart sb ≤ b) {b' : ℕ} (hb' : b' < sb.size) :
    bitOf sb (allocDisk sb disk b) b' = if b' = b then true else bitOf sb disk b' := by
  have hne : BBLOCK sb b' ≠ b := by
    have := (BBLOCK_lt hb').2
    omega
  rw [← bitOf_mark, bitOf, allocDisk, update_of_ne hne, bitOf]

end AllocDisk

/-! ## Slots -/

/-- Inode `i` as the disk has it. -/
def dinode (sb : Superblock) (disk : Disk) (i : ℕ) : Dinode :=
  Dinode.read (disk (IBLOCK sb i)) (i % IPB)

/-- The address in slot `x` of an inode: `x < NDIRECT` is a direct block, `x < MAXFILE` one of the
indirect block's entries, `MAXFILE` the indirect block itself. -/
def ptr (disk : Disk) (d : Dinode) (x : ℕ) : ℕ :=
  if x < NDIRECT then d.addrs x
  else if x < MAXFILE then
    if d.addrs NDIRECT = 0 then 0 else (disk (d.addrs NDIRECT)).u32 (4 * (x - NDIRECT))
  else d.addrs NDIRECT

variable {d : Dinode} {x : ℕ}

theorem ptr_direct {disk : Disk} (hx : x < 12) : ptr disk d x = d.addrs x :=
  if_pos hx

theorem ptr_indirect {disk : Disk} (h1 : 12 ≤ x) (h2 : x < 140) : ptr disk d x =
      if d.addrs 12 = 0 then 0 else (disk (d.addrs 12)).u32 (4 * (x - 12)) := by
  rw [ptr, if_neg (Nat.not_lt.mpr h1), if_pos h2]

theorem ptr_block {disk : Disk} (hx : 140 ≤ x) : ptr disk d x = d.addrs 12 := by
  have h1 : ¬ x < 12 := by omega
  have h2 : ¬ x < 140 := by omega
  rw [ptr, if_neg h1, if_neg h2]

/-- Slots are read from the inode and its indirect block, and from nothing else. -/
theorem ptr_congr {disk disk' : Disk}
    (h : d.addrs 12 ≠ 0 → disk' (d.addrs 12) = disk (d.addrs 12)) :
    ptr disk' d x = ptr disk d x := by
  simp only [ptr]
  by_cases h0 : d.addrs 12 = 0
  · simp [h0]
  · simp [h0, h h0]

/-- The slots of a file of `m` blocks. -/
def Filled (m x : ℕ) : Prop := x < m ∨ (x = MAXFILE ∧ NDIRECT < m)

theorem filled_iff {m x : ℕ} : Filled m x ↔ x < m ∨ (x = 140 ∧ 12 < m) := Iff.rfl

instance (m x : ℕ) : Decidable (Filled m x) := inferInstanceAs (Decidable (_ ∨ _))

/-- The slots to be filled when inode `i` has `m i` blocks of data. -/
def slots (sb : Superblock) (m : ℕ → ℕ) (i x : ℕ) : Prop := i < sb.ninodes ∧ Filled (m i) x

/-- The number of blocks that `m` blocks of data take, with the indirect block. -/
def blocks (m : ℕ) : ℕ := if NDIRECT < m then m + 1 else m

theorem blocks_lt {m m' : ℕ} (h : m < m') : blocks m < blocks m' := by
  have e : ∀ n, blocks n = if 12 < n then n + 1 else n := fun _ => rfl
  rw [e, e]
  split
  · rw [if_pos (by omega)]
    omega
  · split
    · omega
    · exact h

theorem blocks_mono {m m' : ℕ} (h : m ≤ m') : blocks m ≤ blocks m' := by
  rcases Nat.eq_or_lt_of_le h with rfl | hlt
  · exact le_rfl
  · exact (blocks_lt hlt).le

/-- The number of blocks that all files take. -/
def used (sb : Superblock) (m : ℕ → ℕ) : ℕ := ∑ i ∈ Finset.range sb.ninodes, blocks (m i)

/-- The inode table, the bitmap and the owner map agree: exactly the slots in `need` are filled,
each with a block of its own, and exactly these blocks and those before the data are marked. -/
structure Own (sb : Superblock) (disk : Disk) (T : ℕ → Dinode) (need : ℕ → ℕ → Prop)
    (own : ℕ → Option (ℕ × ℕ)) : Prop where
  need_lt : ∀ i x, need i x → i < sb.ninodes ∧ (T i).type ≠ 0 ∧ x ≤ 140
  ptr_own : ∀ i x, need i x → own (ptr disk (T i) x) = some (i, x)
  ptr_zero : ∀ i x, i < sb.ninodes → (T i).type ≠ 0 → x ≤ 140 → ¬ need i x →
    ptr disk (T i) x = 0
  own_need : ∀ b i x, own b = some (i, x) →
    need i x ∧ ptr disk (T i) x = b ∧ dataStart sb ≤ b ∧ b < sb.size
  bits : ∀ b, b < sb.size → (bitOf sb disk b = true ↔ b < dataStart sb ∨ own b ≠ none)

namespace Own

variable {sb : Superblock} {disk : Disk} {T : ℕ → Dinode} {need : ℕ → ℕ → Prop}
  {own : ℕ → Option (ℕ × ℕ)}

section

variable (h : Own sb disk T need own)

include h

theorem congr {need' : ℕ → ℕ → Prop}
    (he : ∀ i x, need' i x ↔ need i x) : Own sb disk T need' own := by
  have : need' = need := funext fun i => funext fun x => propext (he i x)
  rwa [this]

/-- A filled slot holds the number of a data block. -/
theorem ptr_range {i x : ℕ} (hn : need i x) :
    dataStart sb ≤ ptr disk (T i) x ∧ ptr disk (T i) x < sb.size :=
  (h.own_need _ i x (h.ptr_own i x hn)).2.2

theorem ptr_ne_zero {i x : ℕ} (hn : need i x) : ptr disk (T i) x ≠ 0 := by
  have h1 := (h.ptr_range hn).1
  have h2 : 0 < dataStart sb := Nat.succ_pos _
  omega

theorem ptr_ne_zero_iff {i x : ℕ} (hi : i < sb.ninodes)
    (ht : (T i).type ≠ 0) (hx : x ≤ 140) : ptr disk (T i) x ≠ 0 ↔ need i x := by
  refine ⟨fun hp => ?_, h.ptr_ne_zero⟩
  by_contra hn
  exact hp (h.ptr_zero i x hi ht hx hn)

/-- Two filled slots never hold the same block. -/
theorem ptr_inj {i x i' x' : ℕ} (hn : need i x) (hn' : need i' x')
    (he : ptr disk (T i) x = ptr disk (T i') x') : i = i' ∧ x = x' := by
  have := (h.ptr_own i x hn).symm.trans (he ▸ h.ptr_own i' x' hn')
  simpa using this

/-- A block with a clear bit is a data block that nobody owns. -/
theorem free {b : ℕ} (hb : b < sb.size)
    (hbit : bitOf sb disk b = false) : dataStart sb ≤ b ∧ own b = none := by
  have hiff := h.bits b hb
  simp only [hbit, Bool.false_eq_true, false_iff, not_or, not_not] at hiff
  exact ⟨Nat.not_lt.mp hiff.1, hiff.2⟩

/-- A block that is owned is not free. -/
theorem ptr_ne_of_free {b i x : ℕ} (hfree : own b = none)
    (hn : need i x) : ptr disk (T i) x ≠ b := by
  rintro rfl
  rw [h.ptr_own i x hn] at hfree
  cases hfree

/-- Filled slots and free blocks make up the data region. -/
theorem card {N : Finset ((_ : ℕ) × ℕ)} (hN : ∀ p, p ∈ N ↔ need p.1 p.2) :
    N.card + nfree sb disk = sb.size - dataStart sb := by
  have hinj : Set.InjOn (fun p : (_ : ℕ) × ℕ => ptr disk (T p.1) p.2) N := by
    rintro ⟨i, x⟩ hp ⟨i', x'⟩ hp' he
    obtain ⟨rfl, rfl⟩ := h.ptr_inj ((hN _).mp hp) ((hN _).mp hp') he
    rfl
  have hdisj : Disjoint (N.image fun p => ptr disk (T p.1) p.2) (freeSet sb disk) := by
    rw [Finset.disjoint_left]
    intro b hb hfree
    obtain ⟨p, hp, rfl⟩ := Finset.mem_image.mp hb
    obtain ⟨hlt, hbit⟩ := mem_freeSet.mp hfree
    exact h.ptr_ne_of_free (h.free hlt hbit).2 ((hN p).mp hp) rfl
  have hunion : (N.image fun p => ptr disk (T p.1) p.2) ∪ freeSet sb disk =
      Finset.Ico (dataStart sb) sb.size := by
    ext b
    simp only [Finset.mem_union, Finset.mem_image, mem_freeSet, Finset.mem_Ico]
    constructor
    · rintro (⟨p, hp, rfl⟩ | ⟨hlt, hbit⟩)
      · exact h.ptr_range ((hN p).mp hp)
      · exact ⟨(h.free hlt hbit).1, hlt⟩
    · rintro ⟨hge, hlt⟩
      rcases ho : own b with _ | ⟨i, x⟩
      · right
        refine ⟨hlt, ?_⟩
        rw [← Bool.not_eq_true, h.bits b hlt, ho]
        simp only [ne_eq, not_true_eq_false, or_false]
        omega
      · left
        obtain ⟨hn, hp, -⟩ := h.own_need b i x ho
        exact ⟨⟨i, x⟩, (hN _).mpr hn, hp⟩
  rw [nfree, ← Finset.card_image_of_injOn hinj, ← Finset.card_union_of_disjoint hdisj, hunion,
    Nat.card_Ico]

end

variable {T' : ℕ → Dinode}

/-- **Filling a slot.** Block `b` was free; on the new disk it is marked, slot `(i, x)` holds its
number, and nothing else has changed. -/
theorem add (h : Own sb disk T need own) {disk' : Disk} {i x b : ℕ}
    (hi : i < sb.ninodes) (hx : x ≤ 140) (ht : ∀ j, (T' j).type = (T j).type)
    (hti : (T i).type ≠ 0) (hn : ¬ need i x) (hb : b < sb.size) (hfree : bitOf sb disk b = false)
    (hbits : ∀ b', b' < sb.size →
      bitOf sb disk' b' = if b' = b then true else bitOf sb disk b') (hptr : ptr disk' (T' i) x = b)
    (hother : ∀ j y, j < sb.ninodes → y ≤ 140 → (j ≠ i ∨ y ≠ x) → (T j).type ≠ 0 →
      ptr disk' (T' j) y = ptr disk (T j) y) :
    Own sb disk' T' (fun j y => need j y ∨ (j = i ∧ y = x)) (update own b (some (i, x)))
    := by
  obtain ⟨hdata, hown⟩ := h.free hb hfree
  have hsame : ∀ j y, need j y → ptr disk' (T' j) y = ptr disk (T j) y := by
    intro j y hjy
    obtain ⟨hj, hjt, hy⟩ := h.need_lt j y hjy
    refine hother j y hj hy ?_ hjt
    by_contra hc
    push Not at hc
    obtain ⟨rfl, rfl⟩ := hc
    exact hn hjy
  refine ⟨?_, ?_, ?_, ?_, ?_⟩
  · rintro j y (hjy | ⟨rfl, rfl⟩)
    · obtain ⟨hj, hjt, hy⟩ := h.need_lt j y hjy
      exact ⟨hj, by rwa [ht], hy⟩
    · exact ⟨hi, by rwa [ht], hx⟩
  · rintro j y (hjy | ⟨rfl, rfl⟩)
    · rw [hsame j y hjy, update_of_ne (h.ptr_ne_of_free hown hjy)]
      exact h.ptr_own j y hjy
    · rw [hptr, update_self]
  · intro j y hj hjt hy hjy
    push Not at hjy
    rw [ht] at hjt
    have hne : j ≠ i ∨ y ≠ x := by
      by_contra hc
      push Not at hc
      exact hjy.2 hc.1 hc.2
    rw [hother j y hj hy hne hjt]
    exact h.ptr_zero j y hj hjt hy hjy.1
  · intro b' j y hb'
    by_cases hbb : b' = b
    · subst hbb
      rw [update_self] at hb'
      obtain ⟨rfl, rfl⟩ : i = j ∧ x = y := by simpa using hb'
      exact ⟨.inr ⟨rfl, rfl⟩, hptr, hdata, hb⟩
    · rw [update_of_ne hbb] at hb'
      obtain ⟨hjy, hp, hrange⟩ := h.own_need b' j y hb'
      exact ⟨.inl hjy, (hsame j y hjy).trans hp, hrange⟩
  · intro b' hb'
    rw [hbits b' hb']
    by_cases hbb : b' = b
    · simp [hbb]
    · rw [if_neg hbb, update_of_ne hbb]
      exact h.bits b' hb'

/-- **Emptying an inode.** The bits of all blocks of inode `i` have been cleared, the inode holds
no address any more (or is not in use), and nothing else has changed. -/
theorem drop (h : Own sb disk T need own) {disk' : Disk} (hbits : ∀ b, b < sb.size →
      (bitOf sb disk' b = true ↔ bitOf sb disk b = true ∧ ∀ x, own b ≠ some (i, x)))
    (hempty : ∀ x, (T' i).type ≠ 0 → ptr disk' (T' i) x = 0)
    (hother : ∀ j, j ≠ i → (T' j).type = (T j).type ∧
      ∀ y, j < sb.ninodes → (T j).type ≠ 0 → ptr disk' (T' j) y = ptr disk (T j) y) :
    Own sb disk' T' (fun j y => need j y ∧ j ≠ i)
      (fun b => (own b).filter fun o => decide (o.1 ≠ i)) := by
  refine ⟨?_, ?_, ?_, ?_, ?_⟩
  · rintro j y ⟨hjy, hne⟩
    obtain ⟨hj, hjt, hy⟩ := h.need_lt j y hjy
    exact ⟨hj, by rwa [(hother j hne).1], hy⟩
  · rintro j y ⟨hjy, hne⟩
    obtain ⟨hj, hjt, -⟩ := h.need_lt j y hjy
    simp only [(hother j hne).2 y hj hjt, h.ptr_own j y hjy]
    simp [hne]
  · intro j y hj hjt hy hjy
    by_cases hne : j = i
    · subst hne
      exact hempty y hjt
    · rw [(hother j hne).1] at hjt
      rw [(hother j hne).2 y hj hjt]
      exact h.ptr_zero j y hj hjt hy fun hc => hjy ⟨hc, hne⟩
  · intro b j y hb
    simp only [Option.filter_eq_some_iff, decide_eq_true_eq] at hb
    obtain ⟨hb, hne⟩ := hb
    obtain ⟨hjy, hp, hrange⟩ := h.own_need b j y hb
    obtain ⟨hj, hjt, -⟩ := h.need_lt j y hjy
    exact ⟨⟨hjy, hne⟩, ((hother j hne).2 y hj hjt).trans hp, hrange⟩
  · intro b hb
    rw [hbits b hb, h.bits b hb]
    rcases ho : own b with _ | ⟨j, y⟩
    · simp
    have hr := (h.own_need b j y ho).2.2.1
    by_cases hne : j = i
    · subst hne
      simp
      omega
    · simp [hne]

end Own

/-! ## Counting -/

theorem card_filled {m : ℕ} (hm : m ≤ 140) :
    ((Finset.range 141).filter fun x => Filled m x).card = blocks m := by
  by_cases h : 12 < m
  · have hset : ((Finset.range 141).filter fun x => Filled m x) = insert 140 (Finset.range m) := by
      ext x
      rw [Finset.mem_filter, filled_iff, Finset.mem_insert, Finset.mem_range, Finset.mem_range]
      omega
    rw [hset, Finset.card_insert_of_notMem (by simp; omega), Finset.card_range]
    exact (if_pos h).symm
  have hset : ((Finset.range 141).filter fun x => Filled m x) = Finset.range m := by
    ext x
    rw [Finset.mem_filter, filled_iff, Finset.mem_range, Finset.mem_range]
    omega
  rw [hset, Finset.card_range]
  exact (if_neg h).symm

/-- The filled slots of all files. -/
def slotSet (sb : Superblock) (m : ℕ → ℕ) : Finset ((_ : ℕ) × ℕ) :=
  (Finset.range sb.ninodes).sigma fun i => (Finset.range 141).filter fun x => Filled (m i) x

variable {m : ℕ → ℕ}

theorem mem_slotSet {sb : Superblock} (hm : ∀ i < sb.ninodes, m i ≤ 140)
    (p : (_ : ℕ) × ℕ) : p ∈ slotSet sb m ↔ slots sb m p.1 p.2 := by
  simp only [slotSet, slots, Finset.mem_sigma, Finset.mem_range, Finset.mem_filter]
  constructor
  · rintro ⟨hi, -, hf⟩
    exact ⟨hi, hf⟩
  · rintro ⟨hi, hf⟩
    refine ⟨hi, ?_, hf⟩
    have := hm _ hi
    rw [filled_iff] at hf
    omega

theorem card_slotSet {sb : Superblock} (hm : ∀ i < sb.ninodes, m i ≤ 140) :
    (slotSet sb m).card = used sb m := by
  rw [slotSet, Finset.card_sigma, used]
  exact Finset.sum_congr rfl fun i hi => card_filled (hm i (Finset.mem_range.mp hi))

/-- What the files take and what is free make up the data region. -/
theorem Own.used_add_nfree {sb : Superblock} {disk : Disk} {T : ℕ → Dinode}
    {own : ℕ → Option (ℕ × ℕ)} (h : Own sb disk T (slots sb m) own)
    (hm : ∀ i < sb.ninodes, m i ≤ 140) : used sb m + nfree sb disk = sb.size - dataStart sb := by
  rw [← card_slotSet hm]
  exact h.card (mem_slotSet hm)

theorem used_update {sb : Superblock} {i k : ℕ} (hi : i < sb.ninodes) :
    used sb (update m i k) + blocks (m i) = used sb m + blocks k := by
  have hi' : i ∈ Finset.range sb.ninodes := Finset.mem_range.mpr hi
  rw [used, used, ← Finset.add_sum_erase _ _ hi', ← Finset.add_sum_erase _ _ hi', update_self]
  have hrest : ∑ j ∈ (Finset.range sb.ninodes).erase i, blocks (update m i k j) =
      ∑ j ∈ (Finset.range sb.ninodes).erase i, blocks (m j) :=
    Finset.sum_congr rfl fun j hj => by
      rw [update_of_ne (Finset.ne_of_mem_erase hj)]
  rw [hrest]
  omega

end Xv6
