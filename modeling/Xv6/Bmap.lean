import Xv6.Blocks

/-!
# Allocating blocks: `balloc`, `bfree` and `bmap`

What the block allocator does to the disk, and what `bmap` does to a file that it may have to
extend. While a file is being extended, its inode in memory is ahead of the one on disk; `Mid` is
the invariant of that time, with the number of blocks the file has so far.

* `bmap_hit`: a block the file has is found, and nothing changes.
* `bmap_miss`: the block after the last one is allocated, with the indirect block if it is the
  first that needs it; what was in use before stays as it was (`Extends`).
-/

namespace Xv6

open Function List

/-! ## Three ways to fill a slot -/

/-- What is in use stays as it is: the inode blocks, the owners, and the contents of all blocks
that hold data. -/
structure Extends (sb : Superblock) (disk : Disk) (own : ℕ → Option (ℕ × ℕ)) (disk' : Disk)
    (own' : ℕ → Option (ℕ × ℕ)) : Prop where
  owner : ∀ b o, own b = some o → own' b = some o
  inodes : ∀ c < sb.bmapstart, disk' c = disk c
  data : ∀ b i x, own b = some (i, x) → x < 140 → disk' b = disk b

namespace Extends

variable {sb : Superblock} {disk disk' disk'' : Disk} {own own' own'' : ℕ → Option (ℕ × ℕ)}

theorem refl : Extends sb disk own disk own :=
  ⟨fun _ _ h => h, fun _ _ => rfl, fun _ _ _ _ _ => rfl⟩

theorem trans (h : Extends sb disk own disk' own') (h' : Extends sb disk' own' disk'' own'') :
    Extends sb disk own disk'' own'' where
  owner b o hb := h'.owner b o (h.owner b o hb)
  inodes c hc := (h'.inodes c hc).trans (h.inodes c hc)
  data b i x hb hx := (h'.data b i x (h.owner b _ hb) hx).trans (h.data b i x hb hx)

end Extends

variable {x : ℕ} {o : ℕ × ℕ}

namespace Own

variable {sb : Superblock} {disk : Disk} {T : ℕ → Dinode} {need : ℕ → ℕ → Prop}
  {own : ℕ → Option (ℕ × ℕ)}

section

variable (h : Own sb disk T need own)

include h

/-- A block of the data region that is not the one allocated stays as it is. -/
theorem allocDisk_owned {b c i x : ℕ} (hb : b < sb.size)
    (hfree : bitOf sb disk b = false) (hc : own c = some (i, x)) :
    allocDisk sb disk b c = disk c := by
  obtain ⟨-, -, hdata, -⟩ := h.own_need c i x hc
  refine allocDisk_plain (.inr hdata) hb ?_
  rintro rfl
  rw [(h.free hb hfree).2] at hc
  cases hc

/-- Allocating a block changes no slot of the table. -/
theorem ptr_allocDisk {b j y : ℕ} (hb : b < sb.size)
    (hfree : bitOf sb disk b = false) (hj : j < sb.ninodes) (hjt : (T j).type ≠ 0) :
    ptr (allocDisk sb disk b) (T j) y = ptr disk (T j) y := by
  refine ptr_congr fun hne => ?_
  rw [← @ptr_block _ 140 disk le_rfl] at hne ⊢
  exact h.allocDisk_owned hb hfree (h.ptr_own j 140 ((h.ptr_ne_zero_iff hj hjt le_rfl).mp hne))

/-- An allocation keeps what is in use. -/
theorem extends_allocDisk {b : ℕ} (hb : b < sb.size) (hfree : bitOf sb disk b = false) :
    Extends sb disk own (allocDisk sb disk b) (update own b (some o)) where
  owner c o' hc := by
    rw [update_of_ne ?_, hc]
    rintro rfl
    rw [(h.free hb hfree).2] at hc
    cases hc
  inodes c hc := by
    have hd := (h.free hb hfree).1
    have hs := bmapstart_lt sb
    exact allocDisk_plain (.inl hc) hb (by omega)
  data c i x hc _ := h.allocDisk_owned hb hfree hc

/-- So does filling an entry of an indirect block. -/
theorem extends_entry {b ind i : ℕ} {d : Block}
    (hb : b < sb.size) (hfree : bitOf sb disk b = false) (hind : own ind = some (i, 140)) :
    Extends sb disk own (update (allocDisk sb disk b) ind d) (update own b (some o)) := by
  have hx := h.extends_allocDisk (o := o) hb hfree
  have hdata := (h.own_need ind i 140 hind).2.2.1
  have hs := bmapstart_lt sb
  refine ⟨hx.owner, fun c hc => ?_, fun c j x hc hlt => ?_⟩
  · rw [update_of_ne (by omega), hx.inodes c hc]
  rw [update_of_ne, hx.data c j x hc hlt]
  rintro rfl
  rw [hind] at hc
  cases hc
  omega

end

section Fill

variable {i b : ℕ} {d : Dinode}

section

variable (h : Own sb disk (update T i d) need own)

include h

/-- A direct slot is filled. -/
theorem add_direct
    (hi : i < sb.ninodes) (hd : d.type ≠ 0) (hx : x < 12) (hn : ¬ need i x) (hb : b < sb.size)
    (hfree : bitOf sb disk b = false) :
    Own sb (allocDisk sb disk b) (update T i { d with addrs := update d.addrs x b })
      (fun j y => need j y ∨ (j = i ∧ y = x)) (update own b (some (i, x))) := by
  have hdata := (h.free hb hfree).1
  have hTi : (update T i d) i = d := update_self ..
  refine h.add hi (by omega) ?_ (by rwa [hTi]) hn hb hfree
    (fun b' hb' => bitOf_allocDisk hdata hb') ?_ ?_
  · intro j
    rcases eq_or_ne j i with rfl | hj
    · simp
    · simp [hj]
  · rw [update_self, ptr_direct hx]
    exact update_self ..
  · intro j y hj hy hne hjt
    rw [← h.ptr_allocDisk hb hfree hj hjt]
    rcases eq_or_ne j i with rfl | hji
    · rw [update_self, update_self]
      have hyx : y ≠ x := hne.resolve_left fun hc => hc rfl
      have h12 : update d.addrs x b 12 = d.addrs 12 :=
        update_of_ne (by omega) _ _
      rw [ptr, ptr]
      simp only [h12, update_of_ne hyx]
    · rw [update_of_ne hji, update_of_ne hji]

/-- The indirect block is allocated; its entries are zero. -/
theorem add_block (hi : i < sb.ninodes) (hd : d.type ≠ 0) (hn : ¬ need i 140) (hb : b < sb.size)
    (hfree : bitOf sb disk b = false) :
    Own sb (allocDisk sb disk b) (update T i { d with addrs := update d.addrs 12 b })
      (fun j y => need j y ∨ (j = i ∧ y = 140)) (update own b (some (i, 140))) := by
  have hdata := (h.free hb hfree).1
  have hTi : (update T i d) i = d := update_self ..
  refine h.add hi le_rfl ?_ (by rwa [hTi]) hn hb hfree
    (fun b' hb' => bitOf_allocDisk hdata hb') ?_ ?_
  · intro j
    rcases eq_or_ne j i with rfl | hj
    · simp
    · simp [hj]
  · rw [update_self, ptr_block le_rfl]
    show update d.addrs 12 b 12 = b
    exact update_self ..
  · intro j y hj hy hne hjt
    rcases eq_or_ne j i with rfl | hji
    · rw [update_self, update_self]
      have hy' : y < 140 := by
        have := hne.resolve_left fun hc => hc rfl
        omega
      have h0 : d.addrs 12 = 0 := by
        have := h.ptr_zero j 140 hj hjt le_rfl hn
        rwa [hTi, ptr_block le_rfl] at this
      by_cases hy12 : y < 12
      · rw [ptr_direct hy12, ptr_direct hy12]
        have hne12 : y ≠ 12 := by omega
        simp only [update_of_ne hne12]
      · -- all entries of the fresh indirect block are zero
        rw [ptr_indirect (by omega) hy', ptr_indirect (by omega) hy', if_pos h0]
        simp only [update_self]
        rw [allocDisk_self, Bytes.u32_zero, ite_self]
    · rw [← h.ptr_allocDisk hb hfree hj hjt, update_of_ne hji, update_of_ne hji]

/-- An entry of the indirect block is filled. -/
theorem add_entry (L : Layout sb)
    (hi : i < sb.ninodes) (hd : d.type ≠ 0) (h1 : 12 ≤ x) (h2 : x < 140) (hn : ¬ need i x)
    (hblk : need i 140) (hb : b < sb.size) (hfree : bitOf sb disk b = false) :
    Own sb (update (allocDisk sb disk b) (d.addrs 12) ((disk (d.addrs 12)).setU32 (4 * (x - 12)) b))
      (update T i d) (fun j y => need j y ∨ (j = i ∧ y = x)) (update own b (some (i, x))) := by
  have hdata := (h.free hb hfree).1
  have hTi : (update T i d) i = d := update_self ..
  have hind : ptr disk (update T i d i) 140 = d.addrs 12 := by
    rw [hTi, ptr_block le_rfl]
  have hown := h.ptr_own i 140 hblk
  have hrange := h.ptr_range hblk
  have hne0 := h.ptr_ne_zero hblk
  rw [hind] at hown hrange hne0
  have h32 : b < 2 ^ 32 := by
    have : sb.size ≤ 1000 := L.disk
    omega
  refine h.add hi (by omega) (fun _ => rfl) (by rwa [hTi]) hn hb hfree ?_ ?_ ?_
  · intro b' hb'
    rw [← bitOf_allocDisk hdata hb', bitOf, bitOf, update_of_ne]
    have := (BBLOCK_lt hb').2
    omega
  · rw [hTi, ptr_indirect h1 h2, if_neg hne0, update_self]
    exact Bytes.u32_setU32_self (show 4 * (x - 12) + 4 ≤ 512 by omega) h32
  intro j y hj hy hne hjt
  rcases eq_or_ne j i with rfl | hji
  · have hyx : y ≠ x := hne.resolve_left fun hc => hc rfl
    rw [hTi]
    by_cases hy12 : y < 12
    · rw [ptr_direct hy12, ptr_direct hy12]
    by_cases hy140 : y < 140
    · rw [ptr_indirect (by omega) hy140, ptr_indirect (by omega) hy140, if_neg hne0,
        if_neg hne0, update_self]
      exact Bytes.u32_setU32_ne (by omega)
    · rw [ptr_block (by omega), ptr_block (by omega)]
  rw [← h.ptr_allocDisk hb hfree hj hjt]
  refine ptr_congr fun hj0 => update_of_ne ?_ _ _
  -- the indirect blocks of two inodes differ
  intro he
  rw [← hind, ← @ptr_block _ 140 disk le_rfl] at he
  rw [← @ptr_block _ 140 disk le_rfl] at hj0
  exact hji (h.ptr_inj ((h.ptr_ne_zero_iff hj hjt le_rfl).mp hj0) hblk he).1

end

end Fill

end Own

namespace Fs

open Exec

variable {sb : Superblock} {s : FsState}

/-! ## Blocks -/

variable {E : Stop → Prop}

theorem wp_bread {b : ℕ} (hb : b < 1000) {Q : Block → FsState → Prop} :
    Wp (bread b) s Q E ↔ Q (s.disk b) s := by
  have h : bread b s = .ok (s.disk b, s) := if_pos hb
  rw [Wp, h]

variable {Q : Unit → FsState → Prop}

@[simp] theorem wp_logWrite {b : ℕ} {d : Block} : Wp (logWrite b d) s Q E ↔
      Q () { s with disk := update s.disk b d, logged := s.logged ++ [b] } := Iff.rfl

@[simp] theorem wp_inode {i : ℕ} {Q : Inode → FsState → Prop} :
    Wp (inode i) s Q E ↔ Q (s.icache i) s := Iff.rfl

/-- The state after `balloc` has taken block `b`. -/
def allocated (sb : Superblock) (s : FsState) (b : ℕ) : FsState :=
  { s with disk := allocDisk sb s.disk b, logged := s.logged ++ [BBLOCK sb b, b] }

theorem BBLOCK_fssize (L : Layout sb) {b : ℕ} (hb : b < sb.size) : BBLOCK sb b < 1000 := by
  have h1 := (BBLOCK_lt hb).2
  have h2 := L.data
  have h3 : sb.size ≤ 1000 := L.disk
  omega

variable {bp : Block}

theorem clearBit_some {b : ℕ} : ∀ {n bi r : ℕ}, clearBit sb bp b n bi = some r →
    r < bi + n ∧ b + r < sb.size ∧ bp.bit r = false ∧ ∀ r', bi ≤ r' → r' < r →
      bp.bit r' = true := by
  intro n
  induction n with
  | zero => rintro bi r ⟨⟩
  | succ n ih =>
    intro bi r h
    rw [clearBit] at h
    split at h
    · rename_i hlt
      split at h
      · rename_i hbit
        obtain ⟨h1, h2, h3, hset⟩ := ih h
        refine ⟨by omega, h2, h3, fun r' hle hlt' => ?_⟩
        rcases Nat.eq_or_lt_of_le hle with rfl | hgt
        · exact hbit
        · exact hset r' hgt hlt'
      · rename_i hbit
        cases h
        exact ⟨by omega, hlt, by simpa using hbit, fun r' h1 h2 => by omega⟩
    · cases h

theorem clearBit_none {b : ℕ} : ∀ {n bi : ℕ}, clearBit sb bp b n bi = none →
    ∀ r, bi ≤ r → r < bi + n → b + r < sb.size → bp.bit r = true := by
  intro n
  induction n with
  | zero =>
    intro bi _ r h1 h2
    omega
  | succ n ih =>
    intro bi h r h1 h2 hsize
    rw [clearBit, if_pos (by omega)] at h
    split at h
    · rename_i hbit
      rcases Nat.eq_or_lt_of_le h1 with rfl | hlt
      · exact hbit
      · exact ih h r hlt (by omega) hsize
    · cases h

/-- The loop takes the first block whose bit is clear. If there is none it panics, and so does the
driver if the block is not on the disk. -/
theorem ballocFrom_spec (hmap : ∀ b < sb.size, BBLOCK sb b < 1000) : ∀ (fuel k : ℕ),
    sb.size < 4096 * k + 4096 * fuel →
    (∀ b' < 4096 * k, b' < sb.size → bitOf sb s.disk b' = true) →
    Wp (ballocFrom sb fuel k) s
      (fun b s' => b < sb.size ∧ bitOf sb s.disk b = false ∧ s' = allocated sb s b ∧
        ∀ b' < b, bitOf sb s.disk b' = true)
      (fun e => e = .panic "balloc: out of blocks" ∧ (∀ b' < sb.size, bitOf sb s.disk b' = true) ∨
        e = .panic "incorrect blockno" ∧ ∃ b < sb.size, 1000 ≤ b ∧ bitOf sb s.disk b = false ∧
          ∀ b' < b, bitOf sb s.disk b' = true) := by
  intro fuel
  induction fuel with
  | zero =>
    intro k hk hset
    exact .inl ⟨rfl, fun b' hb' => hset b' (by omega) hb'⟩
  | succ fuel ih =>
    intro k hk hset
    rw [ballocFrom]
    split
    · rename_i hlt
      refine wp_bind.mpr ((wp_bread (hmap _ hlt)).mpr ?_)
      -- blocks `4096 * k` to `4096 * k + 4095` have their bits in this bitmap block
      have hblk : ∀ bi < 4096, BBLOCK sb (4096 * k + bi) = BBLOCK sb (4096 * k) := by
        intro bi hbi
        show (4096 * k + bi) / 4096 + sb.bmapstart = 4096 * k / 4096 + sb.bmapstart
        omega
      have hmod : ∀ bi < 4096, (4096 * k + bi) % BPB = bi := fun bi hbi =>
        show (4096 * k + bi) % 4096 = bi by omega
      have hbit : ∀ bi < 4096, bitOf sb s.disk (4096 * k + bi) =
          (s.disk (BBLOCK sb (4096 * k))).bit bi := fun bi hbi => by
        rw [bitOf, hblk bi hbi, hmod bi hbi]
      -- the bits below `r` are set if those of this block are
      have hbelow : ∀ r ≤ 4096, (∀ bi < r, 4096 * k + bi < sb.size →
          (s.disk (BBLOCK sb (4096 * k))).bit bi = true) →
          ∀ b' < 4096 * k + r, b' < sb.size → bitOf sb s.disk b' = true := by
        intro r hr hbits b' hb' hsize
        rcases Nat.lt_or_ge b' (4096 * k) with hold | hnew
        · exact hset b' hold hsize
        · obtain ⟨bi, rfl⟩ := Nat.exists_eq_add_of_le hnew
          rw [hbit bi (by omega)]
          exact hbits bi (by omega) hsize
      split
      · rename_i bi hfind
        obtain ⟨hbi, hsize, hclear, hfirst⟩ := clearBit_some hfind
        have hbi : bi < 4096 := by omega
        have hsize : 4096 * k + bi < sb.size := hsize
        have hlow : ∀ b' < 4096 * k + bi, bitOf sb s.disk b' = true := fun b' hb' =>
          hbelow bi hbi.le (fun r hr _ => hfirst r (Nat.zero_le r) hr) b' hb' (by omega)
        refine wp_bind.mpr (wp_logWrite.mpr (wp_bind.mpr (wp_bind.mpr ?_)))
        rcases Nat.lt_or_ge (4096 * k + bi) 1000 with hon | hoff
        · refine (wp_bread hon).mpr (wp_logWrite.mpr ?_)
          refine ⟨hsize, (hbit bi hbi).trans hclear, ?_, hlow⟩
          simp only [allocated, allocDisk, mark, hblk bi hbi, hmod bi hbi, append_assoc]
          rfl
        · exact .of_error (if_neg hoff.not_gt) (.inr ⟨rfl, _, hsize, hoff,
            (hbit bi hbi).trans hclear, hlow⟩)
      · rename_i hfind
        refine ih (k + 1) (by omega) fun b' hb' => hbelow 4096 le_rfl (fun r hr hsize => ?_) b' ?_
        · exact clearBit_none hfind r (Nat.zero_le r) (by simpa using hr) hsize
        · omega
    · rename_i hge
      have hge : ¬ 4096 * k < sb.size := hge
      rw [wp_stop]
      exact .inl ⟨rfl, fun b' hb' => hset b' (by omega) hb'⟩

/-- `balloc` takes a block whose bit was clear, or there is none. -/
theorem balloc_spec (L : Layout sb) : Wp (balloc sb) s
      (fun b s' => b < sb.size ∧ bitOf sb s.disk b = false ∧ s' = allocated sb s b)
      (fun e => e = .panic "balloc: out of blocks" ∧ nfree sb s.disk = 0) := by
  have h := ballocFrom_spec (s := s) (fun _ => BBLOCK_fssize L) (sb.size / 4096 + 1) 0 (by omega)
    fun b' hb' => by omega
  refine h.mono (fun _ _ hq => ⟨hq.1, hq.2.1, hq.2.2.1⟩) fun e he => ?_
  have hdisk : sb.size ≤ 1000 := L.disk
  have he := he.resolve_right fun ⟨_, b, hb, hoff, _⟩ => by omega
  refine ⟨he.1, ?_⟩
  rw [nfree, Finset.card_eq_zero, Finset.eq_empty_iff_forall_notMem]
  intro b hb
  obtain ⟨hlt, hclear⟩ := mem_freeSet.mp hb
  rw [he.2 b hlt] at hclear
  cases hclear

/-! ## `bmap` -/

/-- The inode cache with other addresses in the copy of inode `i`. -/
def withAddrs (c : ℕ → Inode) (i : ℕ) (a : ℕ → ℕ) : ℕ → Inode :=
  update c i { c i with d := { (c i).d with addrs := a } }

theorem withAddrs_self (c : ℕ → Inode) (i : ℕ) (a : ℕ → ℕ) :
    withAddrs c i a i = { c i with d := { (c i).d with addrs := a } } := update_self ..

theorem withAddrs_withAddrs (c : ℕ → Inode) (i : ℕ) (a a' : ℕ → ℕ) :
    withAddrs (withAddrs c i a) i a' = withAddrs c i a' := by
  rw [withAddrs, withAddrs_self, withAddrs, update_idem]
  rfl

/-- The invariant while the copy of inode `i` in memory is ahead of the disk: with that copy in
place of the one in the inode table `T`, ownership is as it should be when inode `i` has `k`
blocks and every other inode `j` has `m j`. -/
def Mid (sb : Superblock) (T : ℕ → Dinode) (m : ℕ → ℕ) (i k : ℕ) (s : FsState)
    (own : ℕ → Option (ℕ × ℕ)) : Prop :=
  Own sb s.disk (update T i (s.icache i).d) (slots sb (update m i k)) own

section Bmap

variable {T : ℕ → Dinode} {m : ℕ → ℕ} {i k : ℕ} {own : ℕ → Option (ℕ × ℕ)}

theorem slots_update_self (hi : i < sb.ninodes) : slots sb (update m i k) i x ↔ Filled k x := by
  rw [slots, update_self]
  exact and_iff_right hi

theorem slots_update_ne {j x : ℕ} (hj : j ≠ i) : slots sb (update m i k) j x ↔ slots sb m j x := by
  rw [slots, slots, update_of_ne hj]

namespace Mid

section

variable (h : Mid sb T m i k s own)

include h

theorem ptr_own (hi : i < sb.ninodes) (hx : Filled k x) :
    own (ptr s.disk (s.icache i).d x) = some (i, x) := by
  have := Own.ptr_own h i x ((slots_update_self hi).mpr hx)
  rwa [update_self] at this

theorem ptr_ne_zero (hi : i < sb.ninodes) (hx : Filled k x) : ptr s.disk (s.icache i).d x ≠ 0 := by
  have := Own.ptr_ne_zero h ((slots_update_self hi).mpr hx)
  rwa [update_self] at this

theorem ptr_zero (hi : i < sb.ninodes) (ht : (s.icache i).d.type ≠ 0) (hx : x ≤ 140)
    (hn : ¬ Filled k x) : ptr s.disk (s.icache i).d x = 0 := by
  have := Own.ptr_zero h i x hi (by rwa [update_self]) hx (mt (slots_update_self hi).mp hn)
  rwa [update_self] at this

theorem owned_range {b : ℕ} (hb : own b = some o) :
    dataStart sb ≤ b ∧ b < sb.size := (Own.own_need h b o.1 o.2 hb).2.2

end

end Mid

theorem bmapDirect_hit (h : (s.icache i).d.addrs x ≠ 0) :
    bmapDirect sb i x s = .ok ((s.icache i).d.addrs x, s) := by
  rw [bmapDirect, bind_inode, if_neg h]
  rfl

variable {ind j : ℕ}

theorem bmapEntry_hit (hind : ind < 1000) (h : (s.disk ind).u32 (4 * j) ≠ 0) :
    bmapEntry sb ind j s = .ok ((s.disk ind).u32 (4 * j), s) := by
  have h1 : bread ind s = .ok (s.disk ind, s) := if_pos hind
  rw [bmapEntry, bind_ok h1, if_neg h]
  rfl

variable {bn : ℕ}

theorem bmap_direct (h : bn < 12) : bmap sb i bn = bmapDirect sb i bn := if_pos h

theorem bmap_indirect (h1 : 12 ≤ bn) (h2 : bn < 140) :
    bmap sb i bn = (bmapDirect sb i 12 >>= fun addr => bmapEntry sb addr (bn - 12)) := by
  rw [bmap, if_neg (Nat.not_lt.mpr h1)]
  exact if_pos (show bn - 12 < 128 by omega)

/-- The data blocks a file has are found where they are. -/
theorem bmap_hit (L : Layout sb) (h : Mid sb T m i k s own) (hi : i < sb.ninodes)
    (hbn : bn < k) (hk : k ≤ 140) : bmap sb i bn s = .ok (ptr s.disk (s.icache i).d bn, s) := by
  have hne := h.ptr_ne_zero hi (.inl hbn)
  have hsize : sb.size ≤ 1000 := L.disk
  by_cases h12 : bn < 12
  · rw [ptr_direct h12] at hne ⊢
    rw [bmap_direct h12, bmapDirect_hit hne]
  have hfull : Filled k 140 := filled_iff.mpr (.inr ⟨rfl, by omega⟩)
  have hblk := h.ptr_ne_zero hi hfull
  have hown := h.ptr_own hi hfull
  rw [ptr_block le_rfl] at hblk hown
  have hrange := h.owned_range hown
  rw [ptr_indirect (by omega) (by omega), if_neg hblk] at hne ⊢
  rw [bmap_indirect (by omega) (by omega), bind_ok (bmapDirect_hit hblk),
    bmapEntry_hit (by omega) hne]

theorem bmapDirect_miss (L : Layout sb) (h : (s.icache i).d.addrs x = 0) : Wp (bmapDirect sb i x) s
      (fun b s' => b < sb.size ∧ bitOf sb s.disk b = false ∧
        s' = { s with
          disk := allocDisk sb s.disk b
          icache := withAddrs s.icache i (update (s.icache i).d.addrs x b)
          logged := s.logged ++ [BBLOCK sb b, b] })
      (fun e => e = .panic "balloc: out of blocks" ∧ nfree sb s.disk = 0) := by
  refine wp_bind.mpr (wp_inode.mpr ?_)
  rw [if_pos h]
  refine (balloc_spec L).bind (fun _ he => he) ?_
  rintro b s' ⟨hb, hfree, rfl⟩
  exact ⟨hb, hfree, rfl⟩

theorem bmapEntry_miss (L : Layout sb) (hind : ind < 1000) (h : (s.disk ind).u32 (4 * j) = 0) :
    Wp (bmapEntry sb ind j) s (fun b s' => b < sb.size ∧ bitOf sb s.disk b = false ∧
        s' = { s with
          disk := update (allocDisk sb s.disk b) ind ((s.disk ind).setU32 (4 * j) b)
          logged := s.logged ++ [BBLOCK sb b, b] ++ [ind] })
      (fun e => e = .panic "balloc: out of blocks" ∧ nfree sb s.disk = 0) := by
  refine wp_bind.mpr ((wp_bread hind).mpr ?_)
  rw [if_pos h]
  refine (balloc_spec L).bind (fun _ he => he) ?_
  rintro b s' ⟨hb, hfree, rfl⟩
  exact ⟨hb, hfree, rfl⟩

/-- The block after the last one has been allocated, at `addr`. -/
structure Grown (sb : Superblock) (T : ℕ → Dinode) (m : ℕ → ℕ) (i k : ℕ) (s : FsState)
    (own : ℕ → Option (ℕ × ℕ)) (addr : ℕ) (s' : FsState) : Prop where
  mid : ∃ own', Mid sb T m i (k + 1) s' own' ∧ Extends sb s.disk own s'.disk own'
  found : addr = ptr s'.disk (s'.icache i).d k
  zeroed : s'.disk addr = Bytes.zero
  cache : ∃ a, s'.icache = withAddrs s.icache i a
  fits : (s.icache i).d.Fits → (s'.icache i).d.Fits
  nused : s'.nused = s.nused
  logged : ∃ l, s'.logged = s.logged ++ l ∧ ∀ c, c ∈ l ↔
    c = sb.bmapstart ∨ c = addr ∨ (12 ≤ k ∧ c = ptr s'.disk (s'.icache i).d 140)

theorem fits_update (L : Layout sb) {d : Dinode} (hd : d.Fits) {x b : ℕ} (hx : x ≤ 12)
    (hb : b < sb.size) : Dinode.Fits { d with addrs := update d.addrs x b } where
  size := hd.size
  addrs y := by
    have hsize : sb.size ≤ 1000 := L.disk
    show update d.addrs x b y < 2 ^ 32
    rcases eq_or_ne y x with rfl | hne
    · rw [update_self]
      omega
    · rw [update_of_ne hne]
      exact hd.addrs y
  none y hy := by
    have hy : 12 < y := hy
    have hne : y ≠ x := by omega
    show update d.addrs x b y = 0
    rw [update_of_ne hne]
    exact hd.none y hy

theorem BBLOCK_eq (L : Layout sb) {b : ℕ} (hb : b < sb.size) : BBLOCK sb b = sb.bmapstart := by
  have hsize : sb.size ≤ 1000 := L.disk
  have h0 : b / 4096 = 0 := by omega
  show b / 4096 + sb.bmapstart = sb.bmapstart
  rw [h0, Nat.zero_add]

theorem slots_succ (hi : i < sb.ninodes) (hk : k ≠ 12) (j y : ℕ) :
    slots sb (update m i (k + 1)) j y ↔
      slots sb (update m i k) j y ∨ (j = i ∧ y = k) := by
  rcases eq_or_ne j i with rfl | hj
  · rw [slots_update_self hi, slots_update_self hi, filled_iff, filled_iff]
    omega
  · rw [slots_update_ne hj, slots_update_ne hj]
    simp [hj]

theorem slots_twelve (hi : i < sb.ninodes) (j y : ℕ) : slots sb (update m i 13) j y ↔
      (slots sb (update m i 12) j y ∨ (j = i ∧ y = 140)) ∨ (j = i ∧ y = 12) := by
  rcases eq_or_ne j i with rfl | hj
  · rw [slots_update_self hi, slots_update_self hi, filled_iff, filled_iff]
    omega
  · rw [slots_update_ne hj, slots_update_ne hj]
    simp [hj]

theorem update_le (hm : ∀ j < sb.ninodes, m j ≤ 140) (hk : k ≤ 140) :
    ∀ j < sb.ninodes, update m i k j ≤ 140 := by
  intro j hj
  rcases eq_or_ne j i with rfl | hne
  · rwa [update_self]
  · rw [update_of_ne hne]
    exact hm j hj

/-- If there is no free block, the files would take more than there is with one more block. -/
theorem Mid.full (h : Mid sb T m i k s own) (hi : i < sb.ninodes) (hk : k ≤ 140)
    (hm : ∀ j < sb.ninodes, m j ≤ 140) (h0 : nfree sb s.disk = 0) :
    sb.size - dataStart sb < used sb (update m i (k + 1)) := by
  have hcount := Own.used_add_nfree h (update_le hm hk)
  have h1 := used_update (m := m) (k := k) hi
  have h2 := used_update (m := m) (k := k + 1) hi
  have h3 : blocks k < blocks (k + 1) := blocks_lt (by omega)
  omega

/-- `bmap` extends a file by a direct block. -/
theorem bmap_miss_direct (L : Layout sb) (h : Mid sb T m i k s own) (hi : i < sb.ninodes)
    (ht : (s.icache i).d.type ≠ 0) (hk : k < 12) (hm : ∀ j < sb.ninodes, m j ≤ 140) :
    Wp (bmapDirect sb i k) s (Grown sb T m i k s own) (fun e => e = .panic "balloc: out of blocks" ∧
        sb.size - dataStart sb < used sb (update m i (k + 1))) := by
  have hn : ¬ Filled k k := by
    rw [filled_iff]
    omega
  have h0 := h.ptr_zero hi ht (by omega) hn
  rw [ptr_direct hk] at h0
  refine (bmapDirect_miss L h0).mono ?_ fun e he => ⟨he.1, h.full hi (by omega) hm he.2⟩
  rintro b s' ⟨hb, hfree, rfl⟩
  have hown := Own.add_direct h hi ht hk (mt (slots_update_self hi).mp hn) hb hfree
  have hcache := withAddrs_self s.icache i (update (s.icache i).d.addrs k b)
  refine ⟨⟨update own b (some (i, k)), ?_, Own.extends_allocDisk h hb hfree⟩, ?_,
    allocDisk_self, ⟨_, rfl⟩, ?_, rfl, ⟨_, rfl, ?_⟩⟩
  · simp only [Mid, hcache]
    exact hown.congr (slots_succ hi (by omega))
  · simp only [hcache, ptr_direct hk, update_self]
  · intro hf
    simp only [hcache]
    exact fits_update L hf (by omega) hb
  · intro c
    simp only [mem_cons, not_mem_nil, or_false, BBLOCK_eq L hb]
    omega

/-- The indirect block is there: an entry of it is filled. -/
theorem bmapEntry_grow (L : Layout sb) {need : ℕ → ℕ → Prop}
    (h : Own sb s.disk (update T i (s.icache i).d) need own) (hi : i < sb.ninodes)
    (ht : (s.icache i).d.type ≠ 0) (h1 : 12 ≤ k) (h2 : k < 140) (hblk : need i 140)
    (hn : ¬ need i k) :
    Wp (bmapEntry sb ((s.icache i).d.addrs 12) (k - 12)) s
      (fun b s' => ∃ own', Own sb s'.disk (update T i (s.icache i).d)
          (fun j y => need j y ∨ (j = i ∧ y = k)) own' ∧ Extends sb s.disk own s'.disk own' ∧
        own' b = some (i, k) ∧ s'.disk b = Bytes.zero ∧ s'.icache = s.icache ∧
        s'.nused = s.nused ∧
        s'.logged = s.logged ++ [sb.bmapstart, b, (s.icache i).d.addrs 12])
      (fun e => e = .panic "balloc: out of blocks" ∧ nfree sb s.disk = 0) := by
  have hind := h.ptr_own i 140 hblk
  have hrange := h.ptr_range hblk
  have hne := h.ptr_ne_zero hblk
  rw [update_self, ptr_block le_rfl] at hind hrange hne
  have hsize : sb.size ≤ 1000 := L.disk
  have h0 := h.ptr_zero i k hi (by rwa [update_self]) (by omega) hn
  rw [update_self, ptr_indirect h1 h2, if_neg hne] at h0
  refine (bmapEntry_miss L (by omega) h0).mono ?_ fun e he => he
  rintro b s' ⟨hb, hfree, rfl⟩
  have hbi : b ≠ (s.icache i).d.addrs 12 := by
    rintro rfl
    rw [(h.free hb hfree).2] at hind
    cases hind
  refine ⟨_, h.add_entry L hi ht h1 h2 hn hblk hb hfree, h.extends_entry hb hfree hind,
    update_self .., ?_, rfl, rfl, ?_⟩
  · exact (update_of_ne hbi ..).trans allocDisk_self
  simp only [BBLOCK_eq L hb, append_assoc]
  rfl

/-- **`bmap` extends a file** by the block after its last one, or there are not enough blocks. -/
theorem bmap_miss (L : Layout sb) (h : Mid sb T m i k s own) (hi : i < sb.ninodes)
    (ht : (s.icache i).d.type ≠ 0) (hk : k < 140) (hm : ∀ j < sb.ninodes, m j ≤ 140) :
    Wp (bmap sb i k) s (Grown sb T m i k s own) (fun e => e = .panic "balloc: out of blocks" ∧
        sb.size - dataStart sb < used sb (update m i (k + 1))) := by
  by_cases h12 : k < 12
  · rw [bmap_direct h12]
    exact bmap_miss_direct L h hi ht h12 hm
  have hn : ¬ Filled k k := by
    rw [filled_iff]
    omega
  rw [bmap_indirect (by omega) hk]
  rcases Nat.eq_or_lt_of_not_lt h12 with rfl | hgt
  · -- first the indirect block, then its first entry
    have hn' : ¬ Filled 12 140 := by
      rw [filled_iff]
      omega
    have h0 := h.ptr_zero hi ht le_rfl hn'
    rw [ptr_block le_rfl] at h0
    refine (bmapDirect_miss L h0).bind (fun e he => ⟨he.1, h.full hi (by omega) hm he.2⟩) ?_
    rintro b1 s1 ⟨hb1, hfree1, rfl⟩
    have hc := withAddrs_self s.icache i (update (s.icache i).d.addrs 12 b1)
    have hown := Own.add_block h hi ht (mt (slots_update_self hi).mp hn') hb1 hfree1
    have hx1 : Extends sb s.disk own _ (update own b1 (some (i, 140))) :=
      Own.extends_allocDisk h hb1 hfree1
    have hfull : nfree sb (allocDisk sb s.disk b1) = 0 →
        sb.size - dataStart sb < used sb (update m i 13) := by
      intro hzero
      have hle := update_le (i := i) hm (k := 12) (by omega)
      have hcard := hown.card (N := insert ⟨i, 140⟩ (slotSet sb (update m i 12))) fun p => by
          rw [Finset.mem_insert, mem_slotSet hle, or_comm, Sigma.ext_iff]
          simp
      have hnew : (⟨i, 140⟩ : (_ : ℕ) × ℕ) ∉ slotSet sb (update m i 12) := by
        rw [mem_slotSet hle]
        exact mt (slots_update_self hi).mp hn'
      rw [Finset.card_insert_of_notMem hnew, card_slotSet hle] at hcard
      have e1 := used_update (m := m) (k := 12) hi
      have e2 := used_update (m := m) (k := 13) hi
      have e3 : blocks 12 = 12 := rfl
      have e4 : blocks 13 = 14 := rfl
      omega
    have hown1 : Own sb (allocDisk sb s.disk b1) (update T i
        (withAddrs s.icache i (update (s.icache i).d.addrs 12 b1) i).d)
        (fun j y => slots sb (update m i 12) j y ∨ (j = i ∧ y = 140))
        (update own b1 (some (i, 140))) := by
      simpa only [hc] using hown
    have hentry := bmapEntry_grow (k := 12) (T := T) (s := { s with
          disk := allocDisk sb s.disk b1
          icache := withAddrs s.icache i (update (s.icache i).d.addrs 12 b1)
          logged := s.logged ++ [BBLOCK sb b1, b1] }) L hown1 hi
      (by simpa only [hc] using ht) le_rfl (by omega) (.inr ⟨rfl, rfl⟩) (by
        rintro (hc | hc)
        · exact hn ((slots_update_self hi).mp hc)
        · omega)
    simp only [hc, update_self] at hentry
    refine hentry.mono ?_ fun e he => ⟨he.1, hfull he.2⟩
    rintro b s' ⟨own', hown', hx', hb, hz, hc', hu, hl⟩
    have hmid : Mid sb T m i 13 s' own' := by
      rw [Mid, hc', hc]
      exact hown'.congr (slots_twelve hi)
    refine ⟨⟨own', hmid, hx1.trans hx'⟩, ?_, hz, ⟨_, hc'⟩, ?_, hu,
      ⟨_, hl.trans (append_assoc ..), ?_⟩⟩
    · have := (Own.own_need hown' b i 12 hb).2.1
      rw [hc', hc, ← this, update_self]
    · intro hf
      rw [hc', hc]
      exact fits_update L hf le_rfl hb1
    · intro c
      rw [hc', hc, ptr_block le_rfl]
      simp only [mem_append, mem_cons, not_mem_nil, or_false, BBLOCK_eq L hb1, update_self]
      omega
  · -- the indirect block is there already
    have hfull : Filled k 140 := filled_iff.mpr (.inr ⟨rfl, hgt⟩)
    have hblk := h.ptr_ne_zero hi hfull
    rw [ptr_block le_rfl] at hblk
    refine wp_bind.mpr (Wp.of_ok (bmapDirect_hit hblk) ?_)
    refine (bmapEntry_grow L h hi ht (by omega) hk ((slots_update_self hi).mpr hfull)
      (mt (slots_update_self hi).mp hn)).mono ?_ fun e he => ⟨he.1, h.full hi (by omega) hm he.2⟩
    rintro b s' ⟨own', hown, hx, hb, hz, hc, hu, hl⟩
    have hself : withAddrs s.icache i (s.icache i).d.addrs = s.icache := update_eq_self ..
    have hmid : Mid sb T m i (k + 1) s' own' := by
      rw [Mid, hc]
      exact hown.congr (slots_succ hi (by omega))
    refine ⟨⟨own', hmid, hx⟩, ?_, hz, ⟨_, hc.trans hself.symm⟩, ?_, hu, ⟨_, hl, ?_⟩⟩
    · have := (Own.own_need hown b i k hb).2.1
      rw [hc, ← this, update_self]
    · rw [hc]
      exact id
    · intro c
      rw [hc, ptr_block le_rfl]
      simp only [mem_cons, not_mem_nil, or_false]
      omega

/-- A block up to the one after the last is found or allocated. -/
structure Mapped (sb : Superblock) (T : ℕ → Dinode) (m : ℕ → ℕ) (i k bn : ℕ) (s : FsState)
    (own : ℕ → Option (ℕ × ℕ)) (addr : ℕ) (s' : FsState) : Prop where
  mid : ∃ own', Mid sb T m i (max k (bn + 1)) s' own' ∧ Extends sb s.disk own s'.disk own'
  found : addr = ptr s'.disk (s'.icache i).d bn
  zeroed : bn = k → s'.disk addr = Bytes.zero
  cache : ∃ a, s'.icache = withAddrs s.icache i a
  kept : bn < k → s'.icache = s.icache
  fits : (s.icache i).d.Fits → (s'.icache i).d.Fits
  nused : s'.nused = s.nused
  logged : ∃ l, s'.logged = s.logged ++ l ∧ ∀ c, c ∈ l ↔ bn = k ∧
    (c = sb.bmapstart ∨ c = addr ∨ (12 ≤ k ∧ c = ptr s'.disk (s'.icache i).d 140))

/-- **`bmap`**, for all callers: no block is skipped. -/
theorem bmap_spec (L : Layout sb) (h : Mid sb T m i k s own) (hi : i < sb.ninodes)
    (ht : (s.icache i).d.type ≠ 0) (hbn : bn ≤ k) (hk : bn < 140) (hk' : k ≤ 140)
    (hm : ∀ j < sb.ninodes, m j ≤ 140) :
    Wp (bmap sb i bn) s (Mapped sb T m i k bn s own) (fun e => e = .panic "balloc: out of blocks" ∧
        sb.size - dataStart sb < used sb (update m i (max k (bn + 1)))) := by
  rcases Nat.eq_or_lt_of_le hbn with rfl | hlt
  · have hmax : max bn (bn + 1) = bn + 1 := by omega
    rw [hmax]
    refine (bmap_miss L h hi ht hk hm).mono (fun addr s' hg => ?_) fun e he => he
    obtain ⟨l, hl, hmem⟩ := hg.logged
    refine ⟨by rw [hmax]; exact hg.mid, hg.found, fun _ => hg.zeroed, hg.cache,
      fun hc => absurd hc (Nat.lt_irrefl _), hg.fits, hg.nused, l, hl,
      fun c => by simp [hmem c]⟩
  refine Wp.of_ok (bmap_hit L h hi hlt hk') ⟨⟨own, ?_, .refl⟩, rfl,
    fun he => absurd he hlt.ne, ⟨(s.icache i).d.addrs, ?_⟩, fun _ => rfl, id, rfl, [],
      (append_nil _).symm, fun c => ?_⟩
  · rwa [Nat.max_eq_left hlt]
  · exact (update_eq_self ..).symm
  · simp [hlt.ne]

end Bmap

end Fs

end Xv6
