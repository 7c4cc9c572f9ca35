import Xv6.Simulation

/-!
# Reading and writing files, against the store

The last two calls of the inode layer, `readi` and `writei`, and with them the result for all of
them: `exec_sim_store` says that `fs.c` does what the store does, call by call, and so program by
program. Block ownership is part of the relation between the two and therefore holds after each
program that has ended.
-/

namespace Xv6

open Function List

variable {sb : Superblock} {s : FsState} {a : Store} {i : ℕ}

/-! ## `readi` -/

section

variable (h : Rel sb s a) (hi : i < sb.ninodes) (ht : (dinode sb s.disk i).type ≠ 0)

include h hi ht

theorem Rel.data_eq : (a.node i).data = (List.range (dinode sb s.disk i).size).map
      (fileByte s.disk (dinode sb s.disk i)) := by
  rw [h.node i hi, nodeOf_used ht]

theorem Rel.size_eq : (a.node i).data.length = (dinode sb s.disk i).size := by
  rw [h.node i hi, nodeOf_length ht]

theorem Rel.major_eq : (a.node i).major = (dinode sb s.disk i).major := by
  rw [h.node i hi, nodeOf_used ht]

theorem Rel.sizes_eq :
    sizes sb s.disk i = ((dinode sb s.disk i).size + 511) / 512 ∧ sizes sb s.disk i ≤ 140 := by
  have hle := h.inv.size i hi ht
  rw [sizes, nblocks_nodeOf ht]
  omega

end

theorem drop_take_range {size off n : ℕ} (f : ℕ → UInt8) (hoff : off ≤ size) :
    (((List.range size).map f).drop off).take n =
      (List.range (if off + n > size then size - off else n)).map fun t => f (off + t) := by
  apply ext_getElem
  · simp only [length_take, length_drop, length_map, length_range]
    split <;> omega
  · intro t h1 h2
    simp only [getElem_take, getElem_drop, getElem_map, getElem_range]

theorem readi_sim (L : Layout sb) (i off n : ℕ) :
    Sim sb (Fs.readi sb i off n) (Store.readi sb i off n) := by
  intro s a h
  rw [Store.readi]
  by_cases hl : a.Locked sb i
  swap
  · rw [if_neg hl]
    exact .wild rfl
  obtain ⟨hi, href, hb, hv, hd, ht⟩ := h.locked hl
  obtain ⟨own, hown⟩ := h.inv.own
  rw [if_pos hl, h.type_eq hi, h.size_eq hi ht, h.major_eq hi ht, Fs.readi, Fs.bind_inode, hd]
  by_cases hdev : (dinode sb s.disk i).type = T_DEV
  · rw [if_pos hdev, if_pos hdev]
    by_cases hm : (dinode sb s.disk i).major = 1
    · rw [if_pos hm, if_pos (by rw [Fs.hasDriver, hm]; rfl)]
      exact .stop _
    · rw [if_neg hm, if_neg (by rw [Fs.hasDriver, beq_iff_eq]; exact hm)]
      exact .ok h
  rw [if_neg hdev, if_neg hdev]
  by_cases hbad : off > (dinode sb s.disk i).size ∨ off + n ≥ 2 ^ 32
  · rw [if_pos hbad, if_pos hbad]
    exact .ok h
  rw [if_neg hbad, if_neg hbad, h.data_eq hi ht, drop_take_range _ (by omega)]
  obtain ⟨hk, hk'⟩ := h.sizes_eq hi ht
  have hread := Fs.readLoop_spec L (Inv.mid (t := s) rfl hd hown) hi hk'
    (if off + n > (dinode sb s.disk i).size then (dinode sb s.disk i).size - off else n) off
    (if off + n > (dinode sb s.disk i).size then (dinode sb s.disk i).size - off else n) le_rfl
    (by split <;> omega)
  rw [hd] at hread
  rw [Exec.bind_ok hread]
  exact .ok h

/-! ## `writei` -/

theorem used_congr {m m' : ℕ → ℕ} (h : ∀ j < sb.ninodes, m j = m' j) : used sb m = used sb m' :=
  Finset.sum_congr rfl fun j hj => by rw [h j (Finset.mem_range.mp hj)]

variable {src : List UInt8}

/-- The bytes of an overwritten file. -/
theorem overwrite_eq {size off : ℕ} {f g : ℕ → UInt8} (hoff : off ≤ size)
    (hnew : ∀ t (ht : t < src.length), g (off + t) = src[t])
    (hold : ∀ p < size, p < off ∨ off + src.length ≤ p → g p = f p) :
    Store.overwrite ((List.range size).map f) off src =
      (List.range (max size (off + src.length))).map g := by
  apply ext_getElem
  · rw [Store.length_overwrite (by simpa using hoff)]
    simp
  · intro p h1 h2
    simp only [length_map, length_range] at h2
    rw [getElem_map, getElem_range]
    simp only [Store.overwrite, getElem_append, length_append, length_take,
      length_map, length_range, getElem_take, getElem_drop, getElem_map,
      getElem_range]
    simp only [Nat.min_eq_left hoff]
    split
    · split
      · rename_i hlt
        exact (hold p (by omega) (.inl hlt)).symm
      · have := hnew (p - off) (by omega)
        rw [← this]
        congr 1
        omega
    · rw [hold p (by omega) (.inr (by omega))]
      congr 1
      omega

/-- The sizes of the files, with inode `i` written up to byte `e`. -/
theorem Rel.usedWith_eq (h : Rel sb s a) {x : Node} {k : ℕ} (hx : x.nblocks = k) :
    a.usedWith sb i x = used sb (update (sizes sb s.disk) i k) := by
  refine used_congr fun j hj => ?_
  rcases eq_or_ne j i with rfl | hne
  · rw [update_self, update_self, hx]
  · rw [update_of_ne hne, update_of_ne hne, h.node j hj, sizes]

theorem Inv.sizes_le (h : Inv sb s) {j : ℕ} (hj : j < sb.ninodes) : sizes sb s.disk j ≤ 140 := by
  rw [sizes]
  by_cases ht : (dinode sb s.disk j).type = 0
  · rw [nodeOf_free ht]
    decide
  · have := h.size j hj ht
    rw [nblocks_nodeOf ht]
    omega

variable {logged : List ℕ}

/-- What `writei` leaves behind when it has ended: the file is overwritten, nothing else is. -/
theorem Rel.wrote (h : Rel sb s a) (hl : a.Locked sb i)
    {own : ℕ → Option (ℕ × ℕ)} {off : ℕ} {s' : FsState} {d : Dinode} {disk' : Disk} {cost : Cost}
    (hown : Own sb s.disk (dinode sb s.disk) (slots sb (sizes sb s.disk)) own)
    (hoff : off ≤ (dinode sb s.disk i).size) (hend : off + src.length ≤ 512 * 140)
    (hw : Fs.Wrote sb (dinode sb s.disk) (sizes sb s.disk) i (sizes sb s.disk i) s own off src s')
    (hd : d = { (s'.icache i).d with size := max (dinode sb s.disk i).size (off + src.length) })
    (hT : ∀ j < sb.ninodes, dinode sb disk' j = update (dinode sb s.disk) i d j)
    (hframe : ∀ c, sb.bmapstart ≤ c → disk' c = s'.disk c) (hcost : Within sb logged cost) :
    Rel sb ⟨disk', update s.icache i { s.icache i with d := d }, s.nused, logged⟩
      { a with
        node := update a.node i { a.node i with data := Store.overwrite (a.node i).data off src }
        cost := cost } := by
  obtain ⟨hi, href, hb, hv, hcd, ht⟩ := h.locked hl
  obtain ⟨own', hmid, hle⟩ := hw.mid
  obtain ⟨addrs, hcache⟩ := hw.cache
  obtain ⟨hk, hk'⟩ := h.sizes_eq hi ht
  have hsize := h.inv.size i hi ht
  have hs := bmapstart_lt sb
  have hmem : (s'.icache i).d = { dinode sb s.disk i with addrs := addrs } := by
    rw [hcache, Fs.withAddrs_self, hcd]
  have hdt : d.type = (dinode sb s.disk i).type := by rw [hd, hmem]
  have hda : d.addrs = (s'.icache i).d.addrs := by rw [hd]
  have hds : d.size = max (dinode sb s.disk i).size (off + src.length) := by rw [hd]
  have hgrow : grow (sizes sb s.disk i) (off + src.length) = (d.size + 511) / 512 := by
    rw [grow, hk, hds]
    omega
  have hTi : dinode sb disk' i = d := by rw [hT i hi, update_self]
  rw [hgrow] at hmid
  -- ownership, on the new disk
  have hown' : Own sb disk' (dinode sb disk')
      (slots sb (update (sizes sb s.disk) i ((d.size + 511) / 512))) own' := by
    refine (Own.frame hmid hframe).of_table fun j hj => ?_
    rw [hT j hj]
    rcases eq_or_ne j i with rfl | hne
    · rw [update_self, update_self, hda, hdt, hmem]
      exact ⟨rfl, rfl⟩
    · rw [update_of_ne hne, update_of_ne hne]
      exact ⟨rfl, rfl⟩
  -- the bytes of the file, on the new disk
  have hbyte : ∀ p < d.size, fileByte disk' d p = fileByte s'.disk (s'.icache i).d p := by
    intro p hp
    have := fileByte_frame (p := p) hmid hframe hi (by rw [update_self]; omega)
    rw [update_self] at this
    rw [fileByte_addrs hda, this]
  have hx : nodeOf sb disk' i =
      { a.node i with data := Store.overwrite (a.node i).data off src } := by
    rw [nodeOf_used (by rw [hTi, hdt]; exact ht), hTi, h.data_eq hi ht,
      overwrite_eq (g := fileByte disk' d) hoff, ← hds, h.node i hi, nodeOf_used ht]
    · rw [hd, hmem]
    · intro t ht'
      rw [hbyte _ (by omega), hw.new t ht']
    · intro p hp hout
      rw [hbyte _ (by omega), hw.old p (by omega) hout, hcd]
  have hothers : ∀ j < sb.ninodes, j ≠ i → nodeOf sb disk' j = nodeOf sb s.disk j := by
    intro j hj hne
    have hTj : dinode sb disk' j = dinode sb s.disk j := by
      rw [hT j hj, update_of_ne hne]
    refine nodeOf_congr hj hown (h.inv.size j hj) hTj (fun x hx => ?_) fun b x hb' hlt => ?_
    · rw [← hown.ptr_eq hown' hle hx, hTj]
    · have := (hown.own_need b j x hb').2.2.1
      rw [hframe b (by omega), hw.others b j x hb' hne hlt]
  have hblocks : ({ a.node i with data := Store.overwrite (a.node i).data off src } :
      Node).nblocks = (d.size + 511) / 512 := by
    rw [Node.nblocks, Store.length_overwrite (by rwa [h.size_eq hi ht]), h.size_eq hi ht, hds]
  have hc := h.change hi (x := { a.node i with data := Store.overwrite (a.node i).data off src })
    (d := d) (e := { s.icache i with d := d }) (b := a.busy i) (n := s.nused) (r := a.ref i)
    hT (o := own') (by rwa [hblocks]) hx hothers (fun _ => by omega) (h.ref i hi)
    (fun _ _ => ⟨rfl, by rwa [hdt]⟩) (fun _ _ => hv) (fun _ hc => by rw [hv] at hc; cases hc)
    (h.busy i hi) rfl hcost
  simp only [update_eq_self] at hc
  exact hc

/-- A write logs the blocks it spans, the bitmap, and perhaps the indirect block. -/
theorem Within.write {logged l : List ℕ} {c : Cost} {f : ℕ → ℕ} {p off n k k' : ℕ}
    (h : Within sb logged c)
    (hl : ∀ b, b ∈ l ↔ (0 < n ∧ ∃ bn, off / 512 ≤ bn ∧ 512 * bn < off + n ∧ b = f bn) ∨
      (k < k' ∧ (b = sb.bmapstart ∨ (12 < k' ∧ b = p)))) :
    Within sb (logged ++ l) { c with blocks := c.blocks + ((off + n + 511) / 512 - off / 512) +
      if k < k' ∧ 12 < k' then 1 else 0 } := by
  obtain ⟨X, hX, hmem⟩ := h
  refine ⟨X ∪ (Finset.Ico (off / 512) ((off + n + 511) / 512)).image f ∪
    (if k < k' ∧ 12 < k' then {p} else ∅), ?_, fun b hb => ?_⟩
  · refine (Finset.card_union_le ..).trans (Nat.add_le_add ?_ ?_)
    · refine (Finset.card_union_le ..).trans (Nat.add_le_add hX ?_)
      refine Finset.card_image_le.trans ?_
      rw [Nat.card_Ico]
    · split
      · exact (Finset.card_singleton p).le
      · exact Nat.zero_le _
  · rcases mem_append.mp hb with hb | hb
    · rcases hmem b hb with h1 | h2 | h3
      · exact .inl h1
      · exact .inr (.inl h2)
      · exact .inr (.inr (Finset.mem_union_left _ (Finset.mem_union_left _ h3)))
    rcases (hl b).mp hb with ⟨-, bn, h1, h2, rfl⟩ | ⟨hk, rfl | ⟨h12, rfl⟩⟩
    · refine .inr (.inr (Finset.mem_union_left _ (Finset.mem_union_right _ ?_)))
      exact Finset.mem_image_of_mem f (Finset.mem_Ico.mpr ⟨h1, by omega⟩)
    · exact .inl rfl
    · refine .inr (.inr (Finset.mem_union_right _ ?_))
      rw [if_pos ⟨hk, h12⟩]
      exact Finset.mem_singleton_self _

/-- More may have been logged than was. -/
theorem Within.mono {c c' : Cost} (h : Within sb logged c)
    (hi : c.inodes ⊆ c'.inodes) (hb : c.blocks ≤ c'.blocks) : Within sb logged c' := by
  obtain ⟨X, hX, hmem⟩ := h
  refine ⟨X, hX.trans hb, fun b hb => ?_⟩
  rcases hmem b hb with h1 | ⟨q, hq, h2⟩ | h3
  · exact .inl h1
  · exact .inr (.inl ⟨q, hi hq, h2⟩)
  · exact .inr (.inr h3)

/-- The lines of `writei` that store the new size. -/
theorem writei_tail (L : Layout sb) (hi : i < sb.ninodes) (e n : ℕ) :
    (do
      let ip ← Fs.inode i
      Fs.setDinode i { ip.d with size := e }
      Fs.iupdate sb i
      return some n : FS (Option ℕ)) s =
    .ok (some n, ⟨Fs.storeInode sb s.disk i { (s.icache i).d with size := e },
      update s.icache i { s.icache i with d := { (s.icache i).d with size := e } },
      s.nused, s.logged ++ [IBLOCK sb i]⟩) := by
  have h2 : ∀ d, Fs.setDinode i d s = .ok ((), { s with
      icache := update s.icache i { s.icache i with d := d } }) := fun _ => rfl
  rw [Fs.bind_inode, Exec.bind_ok (h2 _), Exec.bind_ok (Fs.iupdate_ok L hi)]
  refine congrArg (fun S => Except.ok (some n, S)) ?_
  simp only [update_self]

theorem writei_sim (L : Layout sb) (i off : ℕ) (src : List UInt8) :
    Sim sb (Fs.writei sb i off src) (Store.writei sb i off src) := by
  intro s a h
  rw [Store.writei]
  by_cases hl : a.Locked sb i
  swap
  · rw [if_neg hl]
    exact .wild rfl
  obtain ⟨hi, href, hb, hv, hd, ht⟩ := h.locked hl
  obtain ⟨own, hown⟩ := h.inv.own
  rw [if_pos hl, h.type_eq hi, h.size_eq hi ht, h.major_eq hi ht, Fs.writei, Fs.bind_inode, hd]
  by_cases hdev : (dinode sb s.disk i).type = T_DEV
  · rw [if_pos hdev, if_pos hdev]
    by_cases hm : (dinode sb s.disk i).major = 1
    · rw [if_pos hm, if_pos (by rw [Fs.hasDriver, hm]; rfl)]
      exact .ok h
    · rw [if_neg hm, if_neg (by rw [Fs.hasDriver, beq_iff_eq]; exact hm)]
      exact .ok h
  rw [if_neg hdev, if_neg hdev]
  by_cases hbad : off > (dinode sb s.disk i).size ∨ off + src.length ≥ 2 ^ 32
  · rw [if_pos hbad, if_pos hbad]
    exact .ok h
  rw [if_neg hbad, if_neg hbad]
  by_cases hmax : off + src.length > MAXFILE * BSIZE
  · rw [if_pos hmax, if_pos hmax]
    exact .ok h
  rw [if_neg hmax, if_neg hmax]
  have hend : off + src.length ≤ 512 * 140 := by
    have : ¬ off + src.length > 140 * 512 := hmax
    omega
  have hoff : off ≤ (dinode sb s.disk i).size := by omega
  obtain ⟨hk, hk'⟩ := h.sizes_eq hi ht
  have hblocks : ({ a.node i with data := Store.overwrite (a.node i).data off src } :
      Node).nblocks = grow (sizes sb s.disk i) (off + src.length) := by
    rw [Node.nblocks, Store.length_overwrite (by rwa [h.size_eq hi ht]), h.size_eq hi ht, grow, hk]
    omega
  have hloop := Fs.writeLoop_spec L hi (fun j hj => h.inv.sizes_le hj) src.length
    (sizes sb s.disk i) off src s own (Inv.mid rfl hd hown) (by rwa [hd]) le_rfl (by omega) hend hk'
  rcases hw : Fs.writeLoop sb i src.length off src s with e | ⟨u, s'⟩
  · obtain ⟨rfl, hfull⟩ := hloop.error hw
    rw [Exec.bind_error hw, if_pos (by rw [h.usedWith_eq hblocks]; exact hfull)]
    exact .stop _
  have hW := hloop.ok hw
  obtain ⟨own', hmid, -⟩ := hW.mid
  obtain ⟨addrs, hcache⟩ := hW.cache
  have hfit : ¬ Store.capacity sb < a.usedWith sb i
      { a.node i with data := Store.overwrite (a.node i).data off src } := by
    have hcount : used sb (update (sizes sb s.disk) i
        (grow (sizes sb s.disk i) (off + src.length))) + nfree sb s'.disk =
        sb.size - dataStart sb := Own.used_add_nfree hmid
      (Fs.update_le (fun j hj => h.inv.sizes_le hj) (by rw [grow]; omega))
    rw [h.usedWith_eq hblocks, Store.capacity]
    omega
  rw [if_neg hfit, Exec.bind_ok hw]
  have hinodes : ∀ j < sb.ninodes, dinode sb s'.disk j = dinode sb s.disk j := fun j hj => by
    rw [dinode, hW.inodes _ (IBLOCK_lt L hj), dinode]
  obtain ⟨l, hlog, hmem⟩ := hW.logged
  have hcost := h.cost.write hmem
  rw [← hlog] at hcost
  obtain ⟨d, hd'⟩ : ∃ d : Dinode, d = { (s'.icache i).d with
    size := max (dinode sb s.disk i).size (off + src.length) } := ⟨_, rfl⟩
  have hupd : update s'.icache i { s'.icache i with d := d } =
      update s.icache i { s.icache i with d := d } := by
    rw [hcache, Fs.withAddrs_self, Fs.withAddrs, update_idem]
  by_cases hgrow : src.length > 0 ∧ off + src.length > (dinode sb s.disk i).size
  · -- the file grows, and its inode is written
    have hne : src ≠ [] := by
      rintro rfl
      exact absurd hgrow.1 (Nat.lt_irrefl 0)
    have hfits : d.Fits := by
      have hf := hW.fits (by rw [hd]; exact Dinode.read_fits _ _)
      rw [hd']
      exact ⟨by show max _ _ < 2 ^ 32; omega, hf.addrs, hf.none⟩
    have hdd : ({ (s'.icache i).d with size := off + src.length } : Dinode) = d := by
      rw [hd', Nat.max_eq_right (by omega)]
    have hT : ∀ j < sb.ninodes, dinode sb (Fs.storeInode sb s'.disk i d) j =
        update (dinode sb s.disk) i d j := by
      intro j hj
      rw [Fs.dinode_storeInode hfits]
      rcases eq_or_ne j i with rfl | hne
      · rw [update_self, update_self]
      · rw [update_of_ne hne, update_of_ne hne, hinodes j hj]
    have hwithin : Within sb (s'.logged ++ [IBLOCK sb i])
        (Store.writeCost a.cost i (dinode sb s.disk i).size off src.length) := by
      rw [Store.writeCost, if_pos hgrow.2]
      refine (hcost.inode i).mono (Finset.Subset.refl _) (Nat.add_le_add_left ?_ _)
      split
      · rename_i hind
        rw [if_pos]
        have := hind.2
        rw [grow, hk] at this
        omega
      · exact Nat.zero_le _
    rw [if_pos hgrow, writei_tail L hi, hdd, hupd, hW.nused, if_neg hne]
    exact .ok (h.wrote hl hown hoff hend hW hd' hT (fun c hc => Fs.storeInode_ge L hi hc) hwithin)
  · -- the write stays within the file
    have hin : off + src.length ≤ (dinode sb s.disk i).size := by
      by_contra hc
      exact hgrow ⟨by omega, by omega⟩
    have hkept := hW.kept (by omega)
    have hdd : d = (s.icache i).d := by
      rw [hd', hkept, Nat.max_eq_left hin, hd]
    have hT : ∀ j < sb.ninodes, dinode sb s'.disk j = update (dinode sb s.disk) i d j := by
      intro j hj
      rw [hdd, hd, update_eq_self, hinodes j hj]
    have hwithin : Within sb s'.logged (if src = [] then a.cost
        else Store.writeCost a.cost i (dinode sb s.disk i).size off src.length) := by
      have hg : grow (sizes sb s.disk i) (off + src.length) = sizes sb s.disk i :=
        Fs.grow_of_le (by omega)
      split
      · rename_i hnil
        have hl0 : l = [] := eq_nil_iff_forall_not_mem.mpr fun b hb => by
          have := (hmem b).mp hb
          rw [hg, hnil] at this
          simp at this
        rw [hlog, hl0, append_nil]
        exact h.cost
      · rw [Store.writeCost, if_neg (by omega)]
        refine hcost.mono (Finset.Subset.refl _) ?_
        rw [hg, if_neg (by omega)]
        exact Nat.le_refl _
    have hrel := h.wrote hl hown hoff hend hW hd' hT (fun c _ => rfl) hwithin
    rw [hdd, update_eq_self, ← hkept, ← hW.nused] at hrel
    rw [if_neg hgrow]
    exact .ok hrel

/-! ## All calls -/

theorem beginOp_sim : Sim sb (Fs.exec sb .beginOp) (Store.exec sb .beginOp) := by
  intro s a h
  refine .ok ⟨⟨h.inv.own, h.inv.size, h.inv.cached, h.inv.locked, h.inv.linked, h.inv.nused⟩,
    h.node, h.ref, h.busy, ∅, le_rfl, fun b hb => ?_⟩
  exact absurd hb not_mem_nil

/-- **The inode layer does what the store says**, call by call. -/
theorem exec_sim_store (L : Layout sb) (c : Cmd) : Sim sb (Fs.exec sb c) (Store.exec sb c) := by
  cases c with
  | beginOp => exact beginOp_sim
  | iget i => exact iget_sim i
  | idup i => exact idup_sim i
  | ilock i => exact ilock_sim L i
  | iunlock i => exact iunlock_sim i
  | iput i => exact iput_sim L i
  | icreate type major minor => exact icreate_sim L type major minor
  | stati i => exact stati_sim i
  | setNlink i v => exact setNlink_sim L i v
  | readi i off n => exact readi_sim L i off n
  | writei i off src => exact writei_sim L i off src
  | panic msg => exact fun s a h => .stop _

/-- **So does every program** over these calls. -/
theorem prog_sim (L : Layout sb) {α : Type} (p : Prog Cmd Resp α) :
    Sim sb (p.exec (Fs.exec sb)) (p.exec (Store.exec sb)) :=
  fun s a h => Prog.exec_sim (exec_sim_store L) p s a h

end Xv6
