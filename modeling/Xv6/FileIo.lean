import Xv6.Bmap

/-!
# Reading and writing files: the loops of `readi` and `writei`

A file is a sequence of bytes that lies in blocks. `readLoop_spec` and `writeLoop_spec` say what
the two loops do to the bytes of the file, and that they touch nothing else:

* the loop of `readi` returns the bytes asked for and changes nothing, since within a file `bmap`
  finds every block;
* the loop of `writei` puts the bytes where they belong and extends the file on the way. The
  invariant of this loop is `Mid`; the bytes of other files do not change.
-/

namespace Xv6

open Function List

/-- Byte `p` of the file with inode `d`. -/
def fileByte (disk : Disk) (d : Dinode) (p : ℕ) : UInt8 :=
  (disk (ptr disk d (p / 512))).get (p % 512)

/-- The number of blocks of a file that has `k` blocks and is written up to byte `e`. -/
def grow (k e : ℕ) : ℕ := max k ((e + 511) / 512)

namespace Own

variable {sb : Superblock} {disk disk' : Disk} {T T' : ℕ → Dinode} {need need' : ℕ → ℕ → Prop}
  {own own' : ℕ → Option (ℕ × ℕ)}

section

variable (h : Own sb disk T need own)

include h

/-- Ownership is a matter of the slots and the bitmap. -/
theorem of_same
    (hptr : ∀ j y, j < sb.ninodes → (T j).type ≠ 0 → ptr disk' (T j) y = ptr disk (T j) y)
    (hbits : ∀ b, b < sb.size → bitOf sb disk' b = bitOf sb disk b) : Own sb disk' T need own := by
  refine ⟨h.need_lt, fun i x hn => ?_, fun i x hi ht hx hn => ?_, fun b i x hb => ?_,
    fun b hb => ?_⟩
  · obtain ⟨hi, ht, -⟩ := h.need_lt i x hn
    rw [hptr i x hi ht, h.ptr_own i x hn]
  · rw [hptr i x hi ht, h.ptr_zero i x hi ht hx hn]
  · obtain ⟨hn, hp, hr⟩ := h.own_need b i x hb
    obtain ⟨hi, ht, -⟩ := h.need_lt i x hn
    exact ⟨hn, (hptr i x hi ht).trans hp, hr⟩
  · rw [hbits b hb, h.bits b hb]

/-- Slots are kept if the indirect blocks are. -/
theorem ptr_kept {j y : ℕ}
    (hkeep : ∀ b, own b = some (j, 140) → disk' b = disk b) (hj : j < sb.ninodes)
    (hjt : (T j).type ≠ 0) : ptr disk' (T j) y = ptr disk (T j) y := by
  refine ptr_congr fun hne => ?_
  rw [← @ptr_block _ 140 disk le_rfl] at hne ⊢
  exact hkeep _ (h.ptr_own j 140 ((h.ptr_ne_zero_iff hj hjt le_rfl).mp hne))

/-- Changing blocks before the bitmap does not concern ownership. -/
theorem frame (hd : ∀ c, sb.bmapstart ≤ c → disk' c = disk c) : Own sb disk' T need own := by
  have hs := bmapstart_lt sb
  refine h.of_same (fun j y hj hjt => h.ptr_kept (fun b hb => hd b ?_) hj hjt) fun b hb => ?_
  · have := (h.own_need b j 140 hb).2.2.1
    omega
  · rw [bitOf, bitOf, hd _ (BBLOCK_lt hb).1]

/-- Changing a data block of a file does not concern ownership. -/
theorem write {b i x : ℕ} (hb : own b = some (i, x)) (hx : x < 140)
    (v : Block) : Own sb (update disk b v) T need own := by
  refine h.of_same (fun j y hj hjt => h.ptr_kept (fun c hc => update_of_ne ?_ _ _) hj hjt)
    fun c hc => ?_
  · rintro rfl
    rw [hb] at hc
    cases hc
    omega
  · have hdata := (h.own_need b i x hb).2.2.1
    have hne : BBLOCK sb c ≠ b := by
      have := (BBLOCK_lt hc).2
      omega
    rw [bitOf, bitOf, update_of_ne hne]

/-- A slot that keeps its owner keeps its address. -/
theorem ptr_eq (h' : Own sb disk' T' need' own')
    (hle : ∀ b o, own b = some o → own' b = some o) {i x : ℕ} (hn : need i x) :
    ptr disk' (T' i) x = ptr disk (T i) x :=
  (h'.own_need _ i x (hle _ _ (h.ptr_own i x hn))).2.1

end

end Own

namespace Fs

open Exec

variable {sb : Superblock} {s s' : FsState} {T : ℕ → Dinode} {m : ℕ → ℕ} {i k : ℕ}
  {own own' : ℕ → Option (ℕ × ℕ)}

/-! ## `iupdate` -/

/-- The disk with inode `i` overwritten. -/
def storeInode (sb : Superblock) (disk : Disk) (i : ℕ) (d : Dinode) : Disk :=
  update disk (IBLOCK sb i) (Dinode.write (disk (IBLOCK sb i)) (i % IPB) d)

variable {d : Dinode}

/-- The other inodes of the block are not changed. -/
theorem dinode_storeInode_ne {disk : Disk} {j : ℕ} (hne : j ≠ i) :
    dinode sb (storeInode sb disk i d) j = dinode sb disk j := by
  by_cases hblk : IBLOCK sb j = IBLOCK sb i
  · have hdiv : j / 8 = i / 8 := by
      have : j / 8 + sb.inodestart = i / 8 + sb.inodestart := hblk
      omega
    have hmod : j % 8 ≠ i % 8 := by omega
    rw [dinode, storeInode, hblk, update_self, Dinode.read_write_ne hmod, dinode, hblk]
  · rw [dinode, storeInode, update_of_ne hblk, dinode]

theorem dinode_storeInode {disk : Disk} (hd : d.Fits) :
    dinode sb (storeInode sb disk i d) = update (dinode sb disk) i d := by
  funext j
  rcases eq_or_ne j i with rfl | hne
  · rw [update_self, dinode, storeInode, update_self]
    exact Dinode.read_write_self (show j % 8 < 8 by omega) hd
  · rw [update_of_ne hne, dinode_storeInode_ne hne]

section

variable (L : Layout sb) (hi : i < sb.ninodes)

include L hi

theorem storeInode_ge {disk : Disk} {c : ℕ}
    (hc : sb.bmapstart ≤ c) : storeInode sb disk i d c = disk c := by
  have := IBLOCK_lt L hi
  exact update_of_ne (by omega) _ _

theorem IBLOCK_fssize : IBLOCK sb i < 1000 := by
  have h1 := IBLOCK_lt L hi
  have h2 := bmapstart_lt sb
  have h3 := L.data
  have h4 : sb.size ≤ 1000 := L.disk
  omega

theorem iupdate_ok : iupdate sb i s = .ok ((), { s with
      disk := storeInode sb s.disk i (s.icache i).d
      logged := s.logged ++ [IBLOCK sb i] }) := by
  have h2 : bread (IBLOCK sb i) s = .ok (s.disk (IBLOCK sb i), s) :=
    if_pos (IBLOCK_fssize L hi)
  rw [iupdate, bind_inode, bind_ok h2]
  rfl

end

/-! ## `readi` -/

theorem slice_block {b : Block} {o len : ℕ} {f : ℕ → UInt8}
    (h : ∀ t < len, b.get (o + t) = f t) : b.slice o len = (List.range len).map f := by
  rw [Bytes.slice]
  exact map_congr_left fun t ht => h t (mem_range.mp ht)

/-- **The loop of `readi`** within a file returns its bytes and leaves the state alone. -/
theorem readLoop_spec (L : Layout sb) (h : Mid sb T m i k s own) (hi : i < sb.ninodes)
    (hk : k ≤ 140) : ∀ (fuel off n : ℕ), n ≤ fuel → off + n ≤ 512 * k →
    readLoop sb i fuel off n s =
      .ok ((List.range n).map fun t => fileByte s.disk (s.icache i).d (off + t), s) := by
  intro fuel
  induction fuel with
  | zero =>
    intro off n hn _
    obtain rfl : n = 0 := by omega
    rfl
  | succ fuel ih =>
    intro off n hn hoff
    by_cases h0 : n = 0
    · subst h0
      rfl
    have hbn : off / 512 < k := by omega
    have hmap := bmap_hit L h hi hbn hk
    have hlt := (h.owned_range (h.ptr_own hi (.inl hbn))).2
    have hsize : sb.size ≤ 1000 := L.disk
    have hread : bread (ptr s.disk (s.icache i).d (off / 512)) s = .ok (_, s) :=
      if_pos (show _ < 1000 by omega)
    have hmin : min n (512 - off % 512) ≤ n := Nat.min_le_left ..
    have hrest := ih (off + min n (512 - off % 512)) (n - min n (512 - off % 512)) (by omega)
      (by omega)
    rw [readLoop, if_neg h0, bind_ok hmap, bind_ok hread, bind_ok hrest]
    show Except.ok (_ ++ _, s) = _
    have hslice : (s.disk (ptr s.disk (s.icache i).d (off / 512))).slice (off % 512)
        (min n (512 - off % 512)) = (List.range (min n (512 - off % 512))).map
          fun t => fileByte s.disk (s.icache i).d (off + t) := by
      refine slice_block fun t ht => ?_
      have e1 : (off + t) / 512 = off / 512 := by omega
      have e2 : (off + t) % 512 = off % 512 + t := by omega
      rw [fileByte, e1, e2]
    have hsplit : List.range n = List.range (min n (512 - off % 512) +
        (n - min n (512 - off % 512))) := by
      congr 1
      omega
    rw [hslice, hsplit, range_add, map_append, map_map]
    simp only [comp_def, Nat.add_assoc]

/-! ## `writei` -/

/-- A file block that is kept has the address it had. -/
theorem Mid.ptr_eq {k' : ℕ} (h : Mid sb T m i k s own) (h' : Mid sb T m i k' s' own')
    (hle : ∀ b o, own b = some o → own' b = some o) (hi : i < sb.ninodes) {x : ℕ}
    (hx : Filled k x) : ptr s'.disk (s'.icache i).d x = ptr s.disk (s.icache i).d x := by
  have := Own.ptr_eq h h' hle ((slots_update_self hi).mpr hx)
  rwa [update_self, update_self] at this

/-- The bytes of the file that is extended are kept. -/
theorem fileByte_extends {k' : ℕ} (h : Mid sb T m i k s own) (h' : Mid sb T m i k' s' own')
    (hext : Extends sb s.disk own s'.disk own') (hi : i < sb.ninodes) (hk : k ≤ 140) {p : ℕ}
    (hp : p < 512 * k) : fileByte s'.disk (s'.icache i).d p = fileByte s.disk (s.icache i).d p := by
  have hx : p / 512 < k := by omega
  rw [fileByte, h.ptr_eq h' hext.owner hi (.inl hx),
    hext.data _ i (p / 512) (h.ptr_own hi (.inl hx)) (by omega), fileByte]

/-- The bytes of a file of which block `bn` is overwritten. -/
theorem fileByte_update (h : Mid sb T m i k s own) (hi : i < sb.ninodes) (hk : k ≤ 140)
    {bn p : ℕ} (hbn : bn < k) (hp : p < 512 * k) (v : Block) :
    fileByte (update s.disk (ptr s.disk (s.icache i).d bn) v) (s.icache i).d p =
      if p / 512 = bn then v.get (p % 512) else fileByte s.disk (s.icache i).d p := by
  have hx : p / 512 < k := by omega
  have hown := h.ptr_own hi (.inl hbn)
  have hmid : Mid sb T m i k
      { s with disk := update s.disk (ptr s.disk (s.icache i).d bn) v } own :=
    Own.write h hown (by omega) v
  have hptr := h.ptr_eq hmid (fun _ _ ho => ho) hi (.inl hx)
  simp only at hptr
  rw [fileByte, hptr]
  split
  · rename_i heq
    rw [heq, update_self]
  rename_i hne
  rw [update_of_ne, fileByte]
  intro he
  have := h.ptr_own hi (.inl hx)
  rw [he, hown] at this
  cases this
  exact hne rfl

/-- What the loop of `writei` does: `src` is in the file from `off` on, and everything else in use
is as before. -/
structure Wrote (sb : Superblock) (T : ℕ → Dinode) (m : ℕ → ℕ) (i k : ℕ) (s : FsState)
    (own : ℕ → Option (ℕ × ℕ)) (off : ℕ) (src : List UInt8) (s' : FsState) : Prop where
  mid : ∃ own', Mid sb T m i (grow k (off + src.length)) s' own' ∧
    ∀ b o, own b = some o → own' b = some o
  inodes : ∀ c < sb.bmapstart, s'.disk c = s.disk c
  others : ∀ b j x, own b = some (j, x) → j ≠ i → x < 140 → s'.disk b = s.disk b
  new : ∀ t (ht : t < src.length), fileByte s'.disk (s'.icache i).d (off + t) = src[t]
  old : ∀ p < 512 * k, p < off ∨ off + src.length ≤ p →
    fileByte s'.disk (s'.icache i).d p = fileByte s.disk (s.icache i).d p
  fresh : ∀ p, 512 * k ≤ p → off + src.length ≤ p → p < 512 * grow k (off + src.length) →
    fileByte s'.disk (s'.icache i).d p = 0
  cache : ∃ a, s'.icache = withAddrs s.icache i a
  kept : off + src.length ≤ 512 * k → s'.icache = s.icache
  fits : (s.icache i).d.Fits → (s'.icache i).d.Fits
  nused : s'.nused = s.nused
  logged : ∃ l, s'.logged = s.logged ++ l ∧ ∀ c, c ∈ l ↔
    (0 < src.length ∧ ∃ bn, off / 512 ≤ bn ∧ 512 * bn < off + src.length ∧
      c = ptr s'.disk (s'.icache i).d bn) ∨
    (k < grow k (off + src.length) ∧ (c = sb.bmapstart ∨
      (12 < grow k (off + src.length) ∧ c = ptr s'.disk (s'.icache i).d 140)))

theorem used_mono (hi : i < sb.ninodes) {k k' : ℕ} (hk : k ≤ k') :
    used sb (update m i k) ≤ used sb (update m i k') := by
  have h1 := used_update (m := m) (k := k) hi
  have h2 := used_update (m := m) (k := k') hi
  have h3 := blocks_mono hk
  omega

theorem grow_of_le {e : ℕ} (h : e ≤ 512 * k) : grow k e = k := by
  rw [grow]
  omega

theorem Wrote.nil (h : Mid sb T m i k s own) {off : ℕ} (hoff : off ≤ 512 * k) :
    Wrote sb T m i k s own off [] s := by
  have hg : grow k (off + 0) = k := grow_of_le (by omega)
  refine ⟨⟨own, by rwa [length_nil, hg], fun _ _ ho => ho⟩, fun _ _ => rfl,
    fun _ _ _ _ _ _ => rfl, fun t ht => absurd ht (Nat.not_lt_zero t), fun _ _ _ => rfl,
    fun p hp _ hlt => ?_, ⟨(s.icache i).d.addrs, (update_eq_self ..).symm⟩, fun _ => rfl, id, rfl,
    [], (append_nil _).symm, fun c => ?_⟩
  · rw [length_nil, hg] at hlt
    omega
  · rw [length_nil, hg]
    simp

/-- One turn of the loop, from `s` to `s1`, and the rest of it. -/
theorem Wrote.cons {s0 s1 s2 : FsState} {off n addr : ℕ} {src : List UInt8}
    {own1 : ℕ → Option (ℕ × ℕ)} (hi : i < sb.ninodes) (h : Mid sb T m i k s own) (hk : k ≤ 140)
    (hk' : max k (off / 512 + 1) ≤ 140) (hoff : off ≤ 512 * k)
    (hn : n = min src.length (512 - off % 512)) (hsrc : src ≠ [])
    (h0 : Mapped sb T m i k (off / 512) s own addr s0)
    (hmid : Mid sb T m i (max k (off / 512 + 1)) s0 own1)
    (hext : Extends sb s.disk own s0.disk own1)
    (hdisk : s1.disk = update s0.disk addr ((s0.disk addr).splice (off % 512) (src.take n)))
    (hcache : s1.icache = s0.icache) (hused : s1.nused = s0.nused)
    (hlog : s1.logged = s0.logged ++ [addr])
    (h2 : Wrote sb T m i (max k (off / 512 + 1)) s1 own1 (off + n) (src.drop n) s2) :
    Wrote sb T m i k s own off src s2 := by
  have hlen : 0 < src.length := length_pos_iff.mpr hsrc
  have hdrop : off + n + (src.drop n).length = off + src.length := by
    rw [length_drop]
    omega
  have hgrow : grow (max k (off / 512 + 1)) (off + src.length) = grow k (off + src.length) := by
    simp only [grow]
    omega
  have hbn : off / 512 < max k (off / 512 + 1) := by omega
  have haddr : own1 addr = some (i, off / 512) := by
    rw [h0.found]
    exact hmid.ptr_own hi (.inl hbn)
  have hrange := hmid.owned_range haddr
  obtain ⟨own2, hmid2, hle2⟩ := h2.mid
  rw [hdrop, hgrow] at hmid2
  have hs := bmapstart_lt sb
  -- what this turn does to the bytes of the file
  have hbyte : ∀ p < 512 * max k (off / 512 + 1),
      fileByte s1.disk (s1.icache i).d p = if p / 512 = off / 512 then
        ((s0.disk addr).splice (off % 512) (src.take n)).get (p % 512)
        else fileByte s0.disk (s0.icache i).d p := by
    intro p hp
    rw [hdisk, hcache, h0.found]
    exact fileByte_update hmid hi hk' hbn hp _
  refine ⟨⟨own2, hmid2, fun b o hb => hle2 b o (hext.owner b o hb)⟩, ?_, ?_, ?_, ?_, ?_, ?_,
    ?_, ?_, ?_, ?_⟩
  · intro c hc
    rw [h2.inodes c hc, hdisk, update_of_ne (by omega), hext.inodes c hc]
  · intro b j x hb hj hx
    rw [h2.others b j x (hext.owner b _ hb) hj hx, hdisk, update_of_ne, hext.data b j x hb hx]
    rintro rfl
    rw [hext.owner _ _ hb] at haddr
    cases haddr
    exact hj rfl
  · intro t ht
    by_cases htn : t < n
    · have hmod : (off + t) % 512 = off % 512 + t := by omega
      have htake : t < (src.take n).length := by
        rw [length_take]
        omega
      rw [h2.old (off + t) (by omega) (.inl (by omega)), hbyte _ (by omega),
        if_pos (by omega), hmod, Bytes.get_splice_of_mem htake (show off % 512 + t < 512 by omega)]
      exact getElem_take ..
    have hnew := h2.new (t - n) (by rw [length_drop]; omega)
    have heq : off + n + (t - n) = off + t := by omega
    rw [heq] at hnew
    rw [hnew, getElem_drop]
    congr 1
    omega
  · intro p hp hout
    rw [h2.old p (by omega) (by omega), hbyte p (by omega)]
    have hkeep := fileByte_extends h hmid hext hi hk hp
    split
    · rename_i heq
      rw [← hkeep, fileByte, heq, ← h0.found]
      rcases hout with hlt | hge
      · exact Bytes.get_splice_of_lt (by omega)
      · refine Bytes.get_splice_of_ge ?_
        rw [length_take]
        omega
    · exact hkeep
  · intro p hp hge hlt
    rcases Nat.lt_or_ge p (512 * max k (off / 512 + 1)) with hin | hout
    · -- the block of this turn is new
      rw [h2.old p hin (.inr (by omega)), hbyte p hin, if_pos (by omega),
        Bytes.get_splice_of_ge, h0.zeroed (by omega), Bytes.get_zero]
      rw [length_take]
      omega
    · exact h2.fresh p hout (by omega) (by rwa [hdrop, hgrow])
  · obtain ⟨a1, ha1⟩ := h0.cache
    obtain ⟨a2, ha2⟩ := h2.cache
    refine ⟨a2, ?_⟩
    rw [ha2, hcache, ha1, withAddrs_withAddrs]
  · intro hle
    rw [h2.kept (by omega), hcache, h0.kept (by omega)]
  · exact fun hf => h2.fits (by rw [hcache]; exact h0.fits hf)
  · exact h2.nused.trans (hused.trans h0.nused)
  · obtain ⟨l0, hl0, hmem0⟩ := h0.logged
    obtain ⟨l2, hl2, hmem2⟩ := h2.logged
    refine ⟨l0 ++ [addr] ++ l2, by simp only [hl2, hlog, hl0, append_assoc], ?_⟩
    -- the addresses found in this turn are those at the end
    have hmid1 : Mid sb T m i (max k (off / 512 + 1)) s1 own1 := by
      rw [Mid, hdisk, hcache]
      exact Own.write hmid haddr (by omega) _
    have haddr2 : addr = ptr s2.disk (s2.icache i).d (off / 512) := by
      rw [h0.found, ← hmid.ptr_eq hmid2 hle2 hi (.inl hbn)]
    have hind2 : 12 ≤ k → off / 512 = k →
        ptr s0.disk (s0.icache i).d 140 = ptr s2.disk (s2.icache i).d 140 := by
      intro h12 hbk
      exact (hmid.ptr_eq hmid2 hle2 hi (filled_iff.mpr (.inr ⟨rfl, by omega⟩))).symm
    have hge : max k (off / 512 + 1) ≤ grow k (off + src.length) := by
      rw [← hgrow]
      exact Nat.le_max_left ..
    intro c
    rw [mem_append, mem_append, mem_singleton, hmem0, hmem2, hdrop, hgrow, length_drop]
    constructor
    · rintro ((⟨hbk, rfl | rfl | ⟨h12, rfl⟩⟩ | rfl) | ⟨-, bn, h1, h2, rfl⟩ | ⟨hlt, hc⟩)
      · exact .inr ⟨by omega, .inl rfl⟩
      · exact .inl ⟨hlen, _, le_rfl, by omega, haddr2⟩
      · exact .inr ⟨by omega, .inr ⟨by omega, hind2 h12 hbk⟩⟩
      · exact .inl ⟨hlen, _, le_rfl, by omega, haddr2⟩
      · exact .inl ⟨hlen, bn, by omega, h2, rfl⟩
      · exact .inr ⟨by omega, hc⟩
    · rintro (⟨-, bn, h1, h2, rfl⟩ | ⟨hlt, hc⟩)
      · rcases Nat.eq_or_lt_of_le h1 with rfl | h1
        · exact .inl (.inr haddr2.symm)
        · exact .inr (.inl ⟨by omega, bn, by omega, h2, rfl⟩)
      · by_cases hmore : max k (off / 512 + 1) < grow k (off + src.length)
        · exact .inr (.inr ⟨hmore, hc⟩)
        -- the only block that is added is the one of this turn
        have hbk : off / 512 = k := by omega
        rcases hc with rfl | ⟨h12, rfl⟩
        · exact .inl (.inl ⟨hbk, .inl rfl⟩)
        · have h12' : 12 ≤ k := by omega
          exact .inl (.inl ⟨hbk, .inr (.inr ⟨h12', (hind2 h12' hbk).symm⟩)⟩)

/-- **The loop of `writei`** puts `src` into the file, or there are not enough blocks. -/
theorem writeLoop_spec (L : Layout sb) (hi : i < sb.ninodes) (hm : ∀ j < sb.ninodes, m j ≤ 140) :
    ∀ (fuel k off : ℕ) (src : List UInt8) (s : FsState) (own : ℕ → Option (ℕ × ℕ)),
    Mid sb T m i k s own → (s.icache i).d.type ≠ 0 → src.length ≤ fuel → off ≤ 512 * k →
    off + src.length ≤ 512 * 140 → k ≤ 140 →
    Wp (writeLoop sb i fuel off src) s (fun _ s' => Wrote sb T m i k s own off src s')
      (fun e => e = .panic "balloc: out of blocks" ∧ sb.size - dataStart sb <
        used sb (update m i (grow k (off + src.length)))) := by
  intro fuel
  induction fuel with
  | zero =>
    intro k off src s own h ht hfuel hoff hend hk
    obtain rfl : src = [] := length_eq_zero_iff.mp (by omega)
    exact Wrote.nil h hoff
  | succ fuel ih =>
    intro k off src s own h ht hfuel hoff hend hk
    by_cases h0 : src.length = 0
    · obtain rfl : src = [] := length_eq_zero_iff.mp h0
      exact Wrote.nil h hoff
    have hne : src ≠ [] := fun hc => h0 (by rw [hc, length_nil])
    have hbn : off / 512 < 140 := by omega
    have hk' : max k (off / 512 + 1) ≤ 140 := by omega
    obtain ⟨n, hn⟩ : ∃ n, n = min src.length (512 - off % 512) := ⟨_, rfl⟩
    have hgrow : grow (max k (off / 512 + 1)) (off + src.length) = grow k (off + src.length) := by
      simp only [grow]
      omega
    rw [writeLoop, if_neg h0]
    refine (bmap_spec L h hi ht (by omega) hbn hk hm).bind (fun e he => ⟨he.1, ?_⟩) ?_
    · -- the block of this turn is one of those that the whole loop needs
      refine lt_of_lt_of_le he.2 (used_mono hi ?_)
      rw [← hgrow]
      exact Nat.le_max_left ..
    intro addr s0 h₀
    obtain ⟨own1, hmid, hext⟩ := h₀.mid
    have haddr : own1 addr = some (i, off / 512) := by
      rw [h₀.found]
      exact hmid.ptr_own hi (.inl (by omega))
    have hrange := hmid.owned_range haddr
    have hsize : sb.size ≤ 1000 := L.disk
    refine wp_bind.mpr ((wp_bread (by omega)).mpr (wp_bind.mpr (wp_logWrite.mpr ?_)))
    rw [show min src.length (BSIZE - off % BSIZE) = n from hn.symm]
    have hdrop : off + n + (src.drop n).length = off + src.length := by
      rw [length_drop]
      omega
    have hmid1 : Mid sb T m i (max k (off / 512 + 1)) { s0 with
        disk := update s0.disk addr ((s0.disk addr).splice (off % 512) (src.take n))
        logged := s0.logged ++ [addr] } own1 := Own.write hmid haddr hbn _
    obtain ⟨a, ha⟩ := h₀.cache
    have ht0 : (s0.icache i).d.type ≠ 0 := by
      rwa [ha, withAddrs_self]
    refine (ih _ (off + n) (src.drop n) _ own1 hmid1 ht0 (by omega) (by omega) (by omega)
      hk').mono (fun _ s2 h2 => ?_) fun e he => ⟨he.1, ?_⟩
    · refine Wrote.cons hi h hk hk' hoff hn hne h₀ hmid hext ?_ ?_ ?_ ?_ h2 <;> rfl
    · rw [← hgrow, ← hdrop]
      exact he.2

end Fs

end Xv6
