import Xv6.Refine

/-!
# The calls of the inode layer, one by one

`Fs.exec` gives the commands their meaning in `fs.c`; here each of them that changes the disk is
compared with the store. At the end stands `exec_sim_store`, the simulation of all commands, and
its two consequences for whole programs: what a program does on the store it does on the disk, and
block ownership holds whenever a program has ended.
-/

namespace Xv6

open Function List Exec

namespace Fs

open Exec

/-- `ip->type`, `ip->nlink`, `ip->size` -/
def stati (inum : ℕ) : FS Attr := do
  let ip ← inode inum
  return ⟨ip.d.type, ip.d.nlink, ip.d.size⟩

/-- `ip->nlink = v; iupdate(ip)` -/
def setNlink (sb : Superblock) (inum : ℕ) (v : UInt16) : FS Unit := do
  let ip ← inode inum
  setDinode inum { ip.d with nlink := v }
  iupdate sb inum

/-- The lines of `create` that make the new inode. -/
def icreate (sb : Superblock) (type major minor : UInt16) : FS ℕ := do
  let inum ← ialloc sb type
  ilock sb inum
  let ip ← inode inum
  setDinode inum { ip.d with major, minor, nlink := 1 }
  iupdate sb inum
  return inum

/-- The calls of the layers above, as `fs.c` computes them. -/
def exec (sb : Superblock) : (c : Cmd) → FS (Resp c)
  | .beginOp => modify fun s => { s with logged := [] }
  | .iget i => iget i
  | .idup i => idup i
  | .ilock i => ilock sb i
  | .iunlock i => iunlock i
  | .iput i => iput sb i
  | .icreate type major minor => icreate sb type major minor
  | .stati i => stati i
  | .setNlink i v => setNlink sb i v
  | .readi i off n => readi sb i off n
  | .writei i off src => writei sb i off src
  | .panic msg => stop (.panic msg)

end Fs

variable {sb : Superblock} {s : FsState} {a : Store} {i : ℕ}

/-! ## Attributes -/

theorem stati_sim (i : ℕ) : Sim sb (Fs.stati i) (Store.stati sb i) := by
  intro s a h
  rw [Store.stati]
  by_cases hl : a.Locked sb i
  · obtain ⟨hi, -, -, -, hd, ht⟩ := h.locked hl
    rw [if_pos hl, h.node i hi, nodeOf_length ht, nodeOf_type, nodeOf_nlink ht, ← hd]
    exact .ok h
  · rw [if_neg hl]
    exact .wild rfl

variable {own : ℕ → Option (ℕ × ℕ)}

/-- A change before the bitmap does not concern the contents of files. -/
theorem fileByte_frame {disk disk' : Disk} {T : ℕ → Dinode} {m : ℕ → ℕ}
    (h : Own sb disk T (slots sb m) own) (hd : ∀ c, sb.bmapstart ≤ c → disk' c = disk c)
    (hi : i < sb.ninodes) {p : ℕ}
    (hp : p / 512 < m i) : fileByte disk' (T i) p = fileByte disk (T i) p := by
  have hslot : slots sb m i (p / 512) := ⟨hi, filled_iff.mpr (.inl hp)⟩
  have hs := bmapstart_lt sb
  have hptr := (h.frame hd).ptr_eq h (fun _ _ ho => ho) hslot
  have hrange := h.ptr_range hslot
  rw [fileByte, ← hptr, hd _ (by omega), fileByte]

/-- A file is not changed by a change before the bitmap that leaves its inode alone. -/
theorem nodeOf_frame {disk disk' : Disk}
    (h : Own sb disk (dinode sb disk) (slots sb (sizes sb disk)) own)
    (hd : ∀ c, sb.bmapstart ≤ c → disk' c = disk c) (hi : i < sb.ninodes)
    (hsame : dinode sb disk' i = dinode sb disk i) : nodeOf sb disk' i = nodeOf sb disk i := by
  by_cases ht : (dinode sb disk i).type = 0
  · rw [nodeOf_free ht, nodeOf_free (by rwa [hsame])]
  rw [nodeOf_used ht, nodeOf_used (by rwa [hsame]), hsame]
  congr 1
  refine map_congr_left fun p hp => fileByte_frame h hd hi ?_
  have := mem_range.mp hp
  rw [sizes, nblocks_nodeOf ht]
  omega

variable {disk : Disk}

theorem fileByte_addrs {d d' : Dinode} (h : d'.addrs = d.addrs) (p : ℕ) :
    fileByte disk d' p = fileByte disk d p := by
  rw [fileByte, Own.ptr_congr_addrs h, fileByte]

variable {d : Dinode}

/-- Storing other attributes of an inode changes these attributes of its file, and nothing else. -/
theorem nodeOf_store (L : Layout sb)
    (h : Own sb disk (dinode sb disk) (slots sb (sizes sb disk)) own) (hi : i < sb.ninodes)
    (hd : d.Fits) (ht : (dinode sb disk i).type ≠ 0) (ht' : d.type ≠ 0)
    (hsize : d.size = (dinode sb disk i).size) (haddrs : d.addrs = (dinode sb disk i).addrs) :
    nodeOf sb (Fs.storeInode sb disk i d) i = { d with data := (nodeOf sb disk i).data } := by
  have hTi : dinode sb (Fs.storeInode sb disk i d) i = d := by
    rw [Fs.dinode_storeInode hd, update_self]
  rw [nodeOf_used (by rwa [hTi]), nodeOf_used ht, hTi, hsize]
  congr 1
  refine map_congr_left fun p hp => ?_
  have hp := mem_range.mp hp
  rw [fileByte_addrs haddrs]
  refine fileByte_frame h (fun c hc => Fs.storeInode_ge L hi hc) hi ?_
  rw [sizes, nblocks_nodeOf ht]
  omega

theorem Within.bitmap {logged l : List ℕ} {c : Cost} (h : Within sb logged c)
    (hl : ∀ b ∈ l, b = sb.bmapstart) : Within sb (logged ++ l) c := by
  obtain ⟨X, hX, hmem⟩ := h
  refine ⟨X, hX, fun b hb => ?_⟩
  rcases mem_append.mp hb with hb | hb
  · exact hmem b hb
  · exact .inl (hl b hb)

theorem Within.inode {logged : List ℕ} {c : Cost} (h : Within sb logged c) (i : ℕ) :
    Within sb (logged ++ [IBLOCK sb i]) (c.inode i) := by
  obtain ⟨X, hX, hmem⟩ := h
  refine ⟨X, hX, fun b hb => ?_⟩
  rcases mem_append.mp hb with hb | hb
  · rcases hmem b hb with h1 | ⟨q, hq, h2⟩ | h3
    · exact .inl h1
    · exact .inr (.inl ⟨q, Finset.mem_insert_of_mem hq, h2⟩)
    · exact .inr (.inr h3)
  · rw [mem_singleton] at hb
    exact .inr (.inl ⟨i / 8, Finset.mem_insert_self .., hb⟩)

theorem setNlink_sim (L : Layout sb) (i : ℕ) (v : UInt16) :
    Sim sb (Fs.setNlink sb i v) (Store.setNlink sb i v) := by
  intro s a h
  rw [Store.setNlink]
  by_cases hl : a.Locked sb i
  swap
  · rw [if_neg hl]
    exact .wild rfl
  obtain ⟨hi, href, hb, hv, hd, ht⟩ := h.locked hl
  obtain ⟨own, hown⟩ := h.inv.own
  obtain ⟨d, hd'⟩ : ∃ d : Dinode, d = { dinode sb s.disk i with nlink := v } := ⟨_, rfl⟩
  have hfits : d.Fits := by
    have hf := Dinode.read_fits (s.disk (IBLOCK sb i)) (i % IPB)
    rw [hd']
    exact ⟨hf.size, hf.addrs, hf.none⟩
  have hstep : Fs.setNlink sb i v s = .ok ((), ⟨Fs.storeInode sb s.disk i d,
      update s.icache i { s.icache i with d := d }, s.nused,
      s.logged ++ [IBLOCK sb i]⟩) := by
    rw [Fs.setNlink, Fs.bind_inode, hd, ← hd']
    refine (Fs.iupdate_ok L hi).trans ?_
    simp only [update_self]
  have hframe : ∀ c, sb.bmapstart ≤ c → Fs.storeInode sb s.disk i d c = s.disk c :=
    fun c hc => Fs.storeInode_ge L hi hc
  have hT : dinode sb (Fs.storeInode sb s.disk i d) = update (dinode sb s.disk) i d :=
    Fs.dinode_storeInode hfits
  have hTi : dinode sb (Fs.storeInode sb s.disk i d) i = d := by rw [hT, update_self]
  have hx : nodeOf sb (Fs.storeInode sb s.disk i d) i = { nodeOf sb s.disk i with nlink := v } := by
    rw [nodeOf_store L hown hi hfits ht (by rwa [hd']) (by rw [hd']) (by rw [hd']), hd',
      nodeOf_used ht]
  rw [if_pos hl, hstep]
  have hc := h.change hi (x := { a.node i with nlink := v }) (d := d)
    (e := { s.icache i with d := d }) (b := a.busy i) (n := s.nused) (r := a.ref i)
    (fun j _ => by rw [hT]) (o := own) ?_ (by rw [hx, h.node i hi]) ?_ ?_ (h.ref i hi)
    (fun _ _ => ⟨rfl, ?_⟩) (fun _ _ => hv) (fun _ hc => by rw [hv] at hc; cases hc)
    (h.busy i hi) rfl (h.cost.inode i)
  · simp only [update_eq_self] at hc
    exact .ok hc
  · have hblocks : ({ a.node i with nlink := v } : Node).nblocks = sizes sb s.disk i := by
      rw [sizes, ← h.node i hi]
      rfl
    rw [hblocks, update_eq_self]
    refine (hown.frame hframe).of_table fun j _ => ?_
    rw [hT]
    rcases eq_or_ne j i with rfl | hne
    · rw [update_self, hd']
      exact ⟨rfl, rfl⟩
    · rw [update_of_ne hne]
      exact ⟨rfl, rfl⟩
  · intro j hj hne
    exact nodeOf_frame hown hframe hj (by rw [hT, update_of_ne hne])
  · intro _
    rw [hd']
    exact h.inv.size i hi ht
  · rwa [hd']

/-! ## Giving up an inode -/

/-- Between two calls the copy in memory is not ahead of the disk. -/
theorem Inv.mid {t : FsState} (hdisk : t.disk = s.disk) (hd : (t.icache i).d = dinode sb s.disk i)
    (h : Own sb s.disk (dinode sb s.disk) (slots sb (sizes sb s.disk)) own) :
    Fs.Mid sb (dinode sb s.disk) (sizes sb s.disk) i (sizes sb s.disk i) t own := by
  rw [Fs.Mid, hd, update_eq_self, update_eq_self, hdisk]
  exact h

/-- The blocks that `itrunc` frees are those that the inode owns. -/
theorem mem_allBlocks_iff {m : ℕ → ℕ}
    (h : Own sb disk (dinode sb disk) (slots sb m) own) (hi : i < sb.ninodes)
    (ht : (dinode sb disk i).type ≠ 0) {b : ℕ} :
    b ∈ Fs.allBlocks disk (dinode sb disk i) ↔ ∃ x, own b = some (i, x) := by
  rw [Fs.mem_allBlocks]
  constructor
  · rintro ⟨x, hx, rfl, hne⟩
    exact ⟨x, h.ptr_own i x ((h.ptr_ne_zero_iff hi ht hx).mp hne)⟩
  · rintro ⟨x, hb⟩
    obtain ⟨hn, hp, -⟩ := h.own_need b i x hb
    refine ⟨x, (h.need_lt i x hn).2.2, hp, ?_⟩
    rw [← hp]
    exact h.ptr_ne_zero hn

/-- The inode that the last `iput` leaves on disk. -/
def freedInode (d : Dinode) : Dinode := { Fs.truncated d with type := 0 }

/-- The disk after the last `iput` of inode `i`. -/
def freedDisk (sb : Superblock) (disk : Disk) (i : ℕ) : Disk :=
  Fs.storeInode sb (Fs.storeInode sb (clearAll sb disk (Fs.allBlocks disk (dinode sb disk i))) i
      (Fs.truncated (dinode sb disk i))) i (freedInode (dinode sb disk i))

/-- The lines of `iput` after `itrunc`. -/
theorem iput_tail (L : Layout sb) (hi : i < sb.ninodes) :
    (do
      let ip ← Fs.inode i
      Fs.setDinode i { ip.d with type := 0 }
      Fs.iupdate sb i
      let ip ← Fs.inode i
      Fs.setInode i { ip with busy := false, valid := false }
      Fs.dropRef i : FS Unit) s =
    .ok ((), ⟨Fs.storeInode sb s.disk i { (s.icache i).d with type := 0 },
      update s.icache i ⟨(s.icache i).ref - 1, false, false, { (s.icache i).d with type := 0 }⟩,
      if (s.icache i).ref = 1 then s.nused - 1 else s.nused, s.logged ++ [IBLOCK sb i]⟩) := by
  have h2 : ∀ d, Fs.setDinode i d s = .ok ((), { s with
      icache := update s.icache i { s.icache i with d := d } }) := fun _ => rfl
  rw [Fs.bind_inode, bind_ok (h2 _), bind_ok (Fs.iupdate_ok L hi)]
  refine congrArg (fun S => Except.ok ((), S)) ?_
  simp only [update_self, update_idem]

/-- The last `iput` of an inode without links, as `fs.c` computes it. -/
theorem iput_free (L : Layout sb)
    (h : Own sb s.disk (dinode sb s.disk) (slots sb (sizes sb s.disk)) own) (hi : i < sb.ninodes)
    (href : (s.icache i).ref = 1) (hb : (s.icache i).busy = false)
    (hv : (s.icache i).valid = true) (hd : (s.icache i).d = dinode sb s.disk i)
    (ht : (dinode sb s.disk i).type ≠ 0) (hn : (dinode sb s.disk i).nlink = 0) :
    Fs.iput sb i s = .ok ((), ⟨freedDisk sb s.disk i,
      update s.icache i ⟨0, false, false, freedInode (dinode sb s.disk i)⟩, s.nused - 1,
      s.logged ++ (Fs.allBlocks s.disk (dinode sb s.disk i)).map (BBLOCK sb) ++ [IBLOCK sb i] ++
        [IBLOCK sb i]⟩) := by
  have hmid : Fs.Mid sb (dinode sb s.disk) (sizes sb s.disk) i (sizes sb s.disk i)
      { s with icache := update s.icache i { s.icache i with busy := true } } own :=
    Inv.mid rfl (by simpa using hd) h
  have htrunc := Fs.itrunc_ok L hmid hi (by simpa [hd] using ht) (by
    simp only [update_self, hd]
    exact Dinode.read_fits _ _)
  have hset : ∀ e, Fs.setInode i e s =
      .ok ((), { s with icache := update s.icache i e }) := fun _ => rfl
  rw [Fs.iput, Fs.bind_inode, if_pos ⟨href, hv, by rw [hd]; exact hn⟩, if_neg (by simp [hb]),
    bind_ok (hset _), bind_ok htrunc]
  simp only [update_self, update_idem, hd]
  rw [iput_tail L hi]
  simp only [update_self, update_idem, href]
  rfl

theorem dinode_clearAll (L : Layout sb) {bs : List ℕ} (hbs : ∀ b ∈ bs, b < sb.size)
    {j : ℕ} (hj : j < sb.ninodes) : dinode sb (clearAll sb disk bs) j = dinode sb disk j := by
  rw [dinode, clearAll_plain (plain_IBLOCK L hj) hbs, dinode]

theorem fits_truncated : (Fs.truncated d).Fits :=
  ⟨Nat.two_pow_pos 32, fun _ => Nat.two_pow_pos 32, fun _ _ => rfl⟩

theorem fits_freedInode : (freedInode d).Fits :=
  ⟨Nat.two_pow_pos 32, fun _ => Nat.two_pow_pos 32, fun _ _ => rfl⟩

/-- When `itrunc` has freed the blocks of inode `i` and the inode holds no addresses any more,
ownership is what it was without that inode, and the other files are what they were. -/
theorem clearAll_spec {disk disk' : Disk}
    (h : Own sb disk (dinode sb disk) (slots sb (sizes sb disk)) own) (hi : i < sb.ninodes)
    (ht : (dinode sb disk i).type ≠ 0)
    (hsize : ∀ j < sb.ninodes, (dinode sb disk j).type ≠ 0 → (dinode sb disk j).size ≤ 512 * 140)
    (hframe : ∀ c, sb.bmapstart ≤ c →
      disk' c = clearAll sb disk (Fs.allBlocks disk (dinode sb disk i)) c)
    (hT : ∀ j < sb.ninodes, dinode sb disk' j = update (dinode sb disk) i d j)
    (hd : d.addrs = fun _ => 0) :
    (∃ own', Own sb disk' (dinode sb disk') (slots sb (update (sizes sb disk) i 0)) own') ∧
    ∀ j < sb.ninodes, j ≠ i → nodeOf sb disk' j = nodeOf sb disk j := by
  obtain ⟨D, hD⟩ : ∃ D, D = clearAll sb disk (Fs.allBlocks disk (dinode sb disk i)) := ⟨_, rfl⟩
  rw [← hD] at hframe
  have hlt : ∀ b ∈ Fs.allBlocks disk (dinode sb disk i), b < sb.size := by
    intro b hb
    obtain ⟨x, hx⟩ := (mem_allBlocks_iff h hi ht).mp hb
    exact (h.own_need b i x hx).2.2.2
  have hkeep : ∀ b j x, own b = some (j, x) → D b = disk b := fun b j x hb => by
    rw [hD, clearAll_plain (.inr (h.own_need b j x hb).2.2.1) hlt]
  have hs := bmapstart_lt sb
  have hdrop := @Own.drop i sb disk _ _ own (update (dinode sb disk) i d) h D ?_ ?_ ?_
  · refine ⟨⟨_, ((hdrop.frame hframe).of_table fun j hj => ?_).congr fun j y => ?_⟩, ?_⟩
    · rw [hT j hj]
      exact ⟨rfl, rfl⟩
    · rcases eq_or_ne j i with rfl | hne
      · rw [Fs.slots_update_self hi, filled_iff]
        simp
      · rw [Fs.slots_update_ne hne]
        simp [hne]
    intro j hj hne
    have hkeep' : ∀ b x, own b = some (j, x) → disk' b = disk b := fun b x hb => by
      rw [hframe b (by have := (h.own_need b j x hb).2.2.1; omega), hkeep b j x hb]
    refine nodeOf_congr hj h (hsize j hj) (by rw [hT j hj, update_of_ne hne])
      (fun x hx => ?_) fun b x hb _ => hkeep' b x hb
    exact h.ptr_kept (fun b hb => hkeep' b 140 hb) hj (h.need_lt j x hx).2.1
  · intro b hb
    rw [hD, bitOf_clearAll]
    split
    · rename_i hmem
      obtain ⟨x, hx⟩ := (mem_allBlocks_iff h hi ht).mp hmem
      simp only [Bool.false_eq_true, false_iff, not_and, not_forall, not_not]
      exact fun _ => ⟨x, hx⟩
    · rename_i hmem
      refine (and_iff_left fun x hx => hmem ((mem_allBlocks_iff h hi ht).mpr ⟨x, hx⟩)).symm
  · intro x _
    rw [update_self, ptr, hd]
    simp
  · intro j hne
    rw [update_of_ne hne]
    exact ⟨rfl, fun y hj hjt => h.ptr_kept (fun b hb => hkeep b j 140 hb) hj hjt⟩

/-- The last `iput` empties the inode and leaves the others alone. -/
theorem freedDisk_spec (L : Layout sb)
    (h : Own sb disk (dinode sb disk) (slots sb (sizes sb disk)) own) (hi : i < sb.ninodes)
    (ht : (dinode sb disk i).type ≠ 0)
    (hsize : ∀ j < sb.ninodes, (dinode sb disk j).type ≠ 0 → (dinode sb disk j).size ≤ 512 * 140) :
    (∀ j < sb.ninodes, dinode sb (freedDisk sb disk i) j =
      update (dinode sb disk) i (freedInode (dinode sb disk i)) j) ∧
    (∃ own', Own sb (freedDisk sb disk i) (dinode sb (freedDisk sb disk i))
      (slots sb (update (sizes sb disk) i 0)) own') ∧
    ∀ j < sb.ninodes, j ≠ i → nodeOf sb (freedDisk sb disk i) j = nodeOf sb disk j := by
  have hlt : ∀ b ∈ Fs.allBlocks disk (dinode sb disk i), b < sb.size := by
    intro b hb
    obtain ⟨x, hx⟩ := (mem_allBlocks_iff h hi ht).mp hb
    exact (h.own_need b i x hx).2.2.2
  have hT : ∀ j < sb.ninodes, dinode sb (freedDisk sb disk i) j =
      update (dinode sb disk) i (freedInode (dinode sb disk i)) j := by
    intro j hj
    rw [freedDisk, Fs.dinode_storeInode fits_freedInode, Fs.dinode_storeInode fits_truncated,
      update_idem]
    rcases eq_or_ne j i with rfl | hne
    · rw [update_self, update_self]
    · rw [update_of_ne hne, update_of_ne hne, dinode_clearAll L hlt hj]
  refine ⟨hT, clearAll_spec h hi ht hsize (fun c hc => ?_) hT rfl⟩
  rw [freedDisk, Fs.storeInode_ge L hi hc, Fs.storeInode_ge L hi hc]

/-- `itrunc` of an inode that is locked empties the file. -/
theorem itrunc_rel (L : Layout sb) (h : Rel sb s a) (hl : a.Locked sb i) :
    ∃ s', Fs.itrunc sb i s = .ok ((), s') ∧ Rel sb s' { a with
      node := update a.node i { a.node i with data := [] }
      cost := a.cost.inode i } := by
  obtain ⟨hi, href, hb, hv, hd, ht⟩ := h.locked hl
  obtain ⟨own, hown⟩ := h.inv.own
  have hlt : ∀ b ∈ Fs.allBlocks s.disk (dinode sb s.disk i), b < sb.size := by
    intro b hb
    obtain ⟨x, hx⟩ := (mem_allBlocks_iff hown hi ht).mp hb
    exact (hown.own_need b i x hx).2.2.2
  have htrunc := Fs.itrunc_ok L (Inv.mid rfl hd hown) hi (by rwa [hd])
    (by rw [hd]; exact Dinode.read_fits _ _)
  rw [hd] at htrunc
  obtain ⟨disk', hdisk'⟩ : ∃ disk', disk' = Fs.storeInode sb
    (clearAll sb s.disk (Fs.allBlocks s.disk (dinode sb s.disk i))) i
      (Fs.truncated (dinode sb s.disk i)) := ⟨_, rfl⟩
  rw [← hdisk'] at htrunc
  have hT : ∀ j < sb.ninodes, dinode sb disk' j =
      update (dinode sb s.disk) i (Fs.truncated (dinode sb s.disk i)) j := by
    intro j hj
    rw [hdisk', Fs.dinode_storeInode fits_truncated]
    rcases eq_or_ne j i with rfl | hne
    · rw [update_self, update_self]
    · rw [update_of_ne hne, update_of_ne hne, dinode_clearAll L hlt hj]
  obtain ⟨⟨own', hown'⟩, hothers⟩ := clearAll_spec hown hi ht h.inv.size
    (fun c hc => by rw [hdisk', Fs.storeInode_ge L hi hc]) hT rfl
  have hnode : nodeOf sb disk' i = { a.node i with data := [] } := by
    have hTi := hT i hi
    rw [update_self] at hTi
    rw [nodeOf_used (by rw [hTi]; exact ht), hTi, h.node i hi, nodeOf_used ht]
    rfl
  have hmark : ∀ b ∈ (Fs.allBlocks s.disk (dinode sb s.disk i)).map (BBLOCK sb),
      b = sb.bmapstart := by
    intro b hb
    obtain ⟨c, hc, rfl⟩ := mem_map.mp hb
    exact Fs.BBLOCK_eq L (hlt c hc)
  have hblocks : ({ a.node i with data := [] } : Node).nblocks = 0 := by simp [Node.nblocks]
  refine ⟨_, htrunc, ?_⟩
  have hc := h.change hi (x := { a.node i with data := [] }) (b := a.busy i) (n := s.nused)
    (r := a.ref i) (e := { s.icache i with d := Fs.truncated (dinode sb s.disk i) }) hT
    (by rwa [hblocks]) hnode hothers
    (fun _ => Nat.zero_le _) (h.ref i hi) (fun _ _ => ⟨rfl, ht⟩) (fun _ _ => hv)
    (fun _ hc => by rw [hv] at hc; cases hc) (h.busy i hi) (by simp [href])
    ((h.cost.bitmap hmark).inode i)
  rwa [update_eq_self, update_eq_self] at hc

theorem iput_sim (L : Layout sb) (i : ℕ) : Sim sb (Fs.iput sb i) (Store.iput sb i) := by
  intro s a h
  rw [Store.iput]
  by_cases hg : i < sb.ninodes ∧ 0 < a.ref i ∧ (a.busy i = true → 1 < a.ref i)
  swap
  · rw [if_neg hg]
    exact .wild rfl
  obtain ⟨hi, href, hb⟩ := hg
  rw [if_pos ⟨hi, href, hb⟩, h.ref i hi]
  rw [h.ref i hi] at href hb
  obtain ⟨own, hown⟩ := h.inv.own
  by_cases hfree : (s.icache i).ref = 1 ∧ a.Removed i
  · -- the last reference to a file without links
    obtain ⟨h1, hrem⟩ := hfree
    have hb' : a.busy i = false := by
      by_contra hc
      exact absurd (hb (by simpa using hc)) (by omega)
    have hbusy : (s.icache i).busy = false := by
      by_contra hc
      rw [(h.busy i hi).mpr ⟨href, by simpa using hc⟩] at hb'
      cases hb'
    obtain ⟨ht, hn⟩ := (h.removed_iff hi).mp hrem
    have hv : (s.icache i).valid = true := by
      by_contra hc
      exact h.inv.linked i hi href (by simpa using hc) ht hn
    have hd := (h.inv.cached i hi href hv).1
    obtain ⟨hT, ⟨own', hown'⟩, hothers⟩ := freedDisk_spec L hown hi ht h.inv.size
    have hzero : nodeOf sb (freedDisk sb s.disk i) i = .free :=
      nodeOf_free (by rw [hT i hi, update_self]; rfl)
    have hcost : Within sb (s.logged ++ (Fs.allBlocks s.disk (dinode sb s.disk i)).map
        (BBLOCK sb) ++ [IBLOCK sb i] ++ [IBLOCK sb i]) (a.cost.inode i) := by
      have hmark : ∀ b ∈ (Fs.allBlocks s.disk (dinode sb s.disk i)).map (BBLOCK sb),
          b = sb.bmapstart := by
        intro b hb
        obtain ⟨c, hc, rfl⟩ := mem_map.mp hb
        obtain ⟨x, hx⟩ := (mem_allBlocks_iff hown hi ht).mp hc
        exact Fs.BBLOCK_eq L (hown.own_need c i x hx).2.2.2
      have := ((h.cost.bitmap hmark).inode i).inode i
      rwa [Cost.inode, Cost.inode, Finset.insert_idem] at this
    rw [if_pos ⟨h1, hrem⟩, iput_free L hown hi h1 hbusy hv hd ht hn]
    have hc := h.change hi (x := .free) (b := a.busy i) (n := s.nused - 1) (r := 0)
      (e := ⟨0, false, false, freedInode (dinode sb s.disk i)⟩) hT hown' hzero hothers
      (fun hc => absurd rfl hc) rfl (fun hc => absurd hc (Nat.lt_irrefl 0))
      (fun hc => absurd hc (Nat.lt_irrefl 0)) (fun hc => absurd hc (Nat.lt_irrefl 0))
      (by simp [hb']) ?_ hcost
    · rw [update_eq_self] at hc
      exact .ok hc
    · have hpos : 0 < s.nused := by
        rw [h.inv.nused, Finset.card_pos]
        exact ⟨i, Finset.mem_filter.mpr ⟨Finset.mem_range.mpr hi, href⟩⟩
      simp only [href, if_true, Nat.lt_irrefl, if_false]
      omega
  · -- some other reference stays, or a link
    rw [if_neg hfree]
    have hcond : ¬ ((s.icache i).ref = 1 ∧ (s.icache i).valid = true ∧
      (s.icache i).d.nlink = 0) := by
      rintro ⟨h1, hv, hn⟩
      obtain ⟨hd, ht⟩ := h.inv.cached i hi href hv
      rw [hd] at hn
      exact hfree ⟨h1, (h.removed_iff hi).mpr ⟨ht, hn⟩⟩
    rw [Fs.iput, Fs.bind_inode, if_neg hcond]
    refine .ok ?_
    have hs := h.setEntry hi (e := { s.icache i with ref := (s.icache i).ref - 1 })
      (b := a.busy i) (n := if (s.icache i).ref = 1 then s.nused - 1 else s.nused) rfl
      (fun _ => h.inv.cached i hi href) (fun _ => h.inv.locked i hi href)
      (fun _ => h.inv.linked i hi href) ?_ ?_
    · rwa [update_eq_self] at hs
    · have hiff := h.busy i hi
      show a.busy i = true ↔ 0 < (s.icache i).ref - 1 ∧ (s.icache i).busy = true
      refine ⟨fun hc => ?_, fun hc => hiff.mpr ⟨href, hc.2⟩⟩
      have := hb hc
      exact ⟨by omega, (hiff.mp hc).2⟩
    · have hpos : 0 < s.nused := by
        rw [h.inv.nused, Finset.card_pos]
        exact ⟨i, Finset.mem_filter.mpr ⟨Finset.mem_range.mpr hi, href⟩⟩
      by_cases h1 : (s.icache i).ref = 1
      · simp only [h1, if_true, Nat.zero_lt_one, Nat.sub_self, Nat.lt_irrefl, if_false]
        omega
      · have h2 : 0 < (s.icache i).ref - 1 := by omega
        simp only [h1, if_false, href, h2]

/-! ## Making an inode -/

/-- An inode as `ialloc` writes it. -/
def blankInode (type : UInt16) : Dinode :=
  { type, major := 0, minor := 0, nlink := 0, size := 0, addrs := fun _ => 0 }

/-- The state in which `ialloc` calls `iget`. -/
def blanked (sb : Superblock) (s : FsState) (i : ℕ) (type : UInt16) : FsState :=
  { s with
    disk := Fs.storeInode sb s.disk i (blankInode type)
    logged := s.logged ++ [IBLOCK sb i] }

/-- `ialloc` takes the first free inode. -/
theorem iallocFrom_eq (L : Layout sb) (type : UInt16) {node : ℕ → Node}
    (hnode : ∀ j < sb.ninodes, (node j).type = (dinode sb s.disk j).type) :
    ∀ n i, (∀ j, i ≤ j → j < i + n → j < sb.ninodes) → Fs.iallocFrom sb type n i s =
      match Store.firstFree node n i with
      | none => .error (.panic "ialloc: no inodes")
      | some j => (Fs.iget j >>= fun _ => pure j : FS ℕ) (blanked sb s j type) := by
  intro n
  induction n with
  | zero =>
    intro i _
    rfl
  | succ n ih =>
    intro i hle
    have hi : i < sb.ninodes := hle i le_rfl (by omega)
    have hread : Fs.bread (IBLOCK sb i) s = .ok (s.disk (IBLOCK sb i), s) :=
      if_pos (Fs.IBLOCK_fssize L hi)
    rw [Fs.iallocFrom, bind_ok hread, Store.firstFree, hnode i hi]
    by_cases ht : (dinode sb s.disk i).type = 0
    · rw [if_pos ht]
      have ht' : (Dinode.read (s.disk (IBLOCK sb i)) (i % IPB)).type = 0 := ht
      rw [if_pos ht']
      rfl
    · rw [if_neg ht]
      have ht' : ¬ (Dinode.read (s.disk (IBLOCK sb i)) (i % IPB)).type = 0 := ht
      rw [if_neg ht', ih (i + 1) fun j h1 h2 => hle j (by omega) (by omega)]

/-- The inode that `create` has made. -/
def newInode (type major minor : UInt16) : Dinode :=
  { blankInode type with major, minor, nlink := 1 }

variable {type : UInt16}

theorem fits_blankInode : (blankInode type).Fits :=
  ⟨Nat.two_pow_pos 32, fun _ => Nat.two_pow_pos 32, fun _ _ => rfl⟩

theorem fits_newInode {type major minor : UInt16} : (newInode type major minor).Fits :=
  ⟨Nat.two_pow_pos 32, fun _ => Nat.two_pow_pos 32, fun _ _ => rfl⟩

/-- The disk with the inode that `create` has made. -/
def createdDisk (sb : Superblock) (disk : Disk) (i : ℕ) (type major minor : UInt16) : Disk :=
  Fs.storeInode sb (Fs.storeInode sb disk i (blankInode type)) i (newInode type major minor)

/-- The lines of `create` after `ialloc`. -/
theorem icreate_tail (L : Layout sb) (hi : i < sb.ninodes) (htype : type ≠ 0)
    (major minor : UInt16) {e : Inode} {n : ℕ} (href : 0 < e.ref) (hb : e.busy = false)
    (hv : e.valid = false) :
    (do
      Fs.ilock sb i
      let ip ← Fs.inode i
      Fs.setDinode i { ip.d with major, minor, nlink := 1 }
      Fs.iupdate sb i
      return i : FS ℕ) { blanked sb s i type with
        icache := update s.icache i e, nused := n } =
    .ok (i, ⟨createdDisk sb s.disk i type major minor,
      update s.icache i ⟨e.ref, true, true, newInode type major minor⟩, n,
      s.logged ++ [IBLOCK sb i] ++ [IBLOCK sb i]⟩) := by
  have hT : dinode sb (Fs.storeInode sb s.disk i (blankInode type)) i = blankInode type := by
    rw [Fs.dinode_storeInode fits_blankInode, update_self]
  have hlock := ilock_unread (s := { blanked sb s i type with
    icache := update s.icache i e, nused := n }) L hi (by simpa using href)
    (by simp [hb]) (by simp [hv])
  simp only [blanked, hT, update_self, update_idem] at hlock
  rw [if_neg (show ¬ (blankInode type).type = 0 from htype)] at hlock
  rw [blanked, bind_ok hlock]
  refine (bind_ok (Fs.iupdate_ok L hi)).trans ?_
  simp only [update_self, update_idem]
  rfl

/-- The new inode is there, and the others are as before. -/
theorem createdDisk_spec (L : Layout sb)
    (h : Own sb disk (dinode sb disk) (slots sb (sizes sb disk)) own) (hi : i < sb.ninodes)
    (ht : (dinode sb disk i).type = 0) (htype : type ≠ 0) (major minor : UInt16) :
    dinode sb (createdDisk sb disk i type major minor) =
      update (dinode sb disk) i (newInode type major minor) ∧
    Own sb (createdDisk sb disk i type major minor)
      (dinode sb (createdDisk sb disk i type major minor)) (slots sb (sizes sb disk)) own ∧
    nodeOf sb (createdDisk sb disk i type major minor) i = ⟨type, major, minor, 1, []⟩ ∧
    ∀ j < sb.ninodes, j ≠ i →
      nodeOf sb (createdDisk sb disk i type major minor) j = nodeOf sb disk j := by
  have hframe : ∀ c, sb.bmapstart ≤ c → createdDisk sb disk i type major minor c = disk c :=
    fun c hc => by rw [createdDisk, Fs.storeInode_ge L hi hc, Fs.storeInode_ge L hi hc]
  have hT : dinode sb (createdDisk sb disk i type major minor) =
      update (dinode sb disk) i (newInode type major minor) := by
    rw [createdDisk, Fs.dinode_storeInode fits_newInode, Fs.dinode_storeInode fits_blankInode,
      update_idem]
  refine ⟨hT, ?_, ?_, fun j hj hne => ?_⟩
  · rw [hT]
    refine (h.frame hframe).fresh (fun x hx => ?_) rfl
    exact (h.need_lt i x hx).2.1 ht
  · have hTi : dinode sb (createdDisk sb disk i type major minor) i =
      newInode type major minor := by
      rw [hT, update_self]
    rw [nodeOf_used (by rw [hTi]; exact htype), hTi]
    rfl
  · exact nodeOf_frame h hframe hj (by rw [hT, update_of_ne hne])

theorem icreate_sim (L : Layout sb) (type major minor : UInt16) :
    Sim sb (Fs.icreate sb type major minor) (Store.icreate sb type major minor) := by
  intro s a h
  rw [Store.icreate]
  by_cases htype : type = 0
  · rw [if_pos htype]
    exact .wild rfl
  have halloc := @iallocFrom_eq sb s L type a.node (fun j hj => h.type_eq hj)
    (sb.ninodes - 1) 1 fun j h1 h2 => by omega
  rw [if_neg htype]
  rcases hfree : Store.firstFree a.node (sb.ninodes - 1) 1 with _ | i <;> rw [hfree] at halloc
  · have hstop : Fs.ialloc sb type s = .error (.panic "ialloc: no inodes") := halloc
    rw [Fs.icreate, bind_error hstop]
    exact .stop _
  obtain ⟨h1, h2, ht⟩ := Store.firstFree_some hfree
  have hi : i < sb.ninodes := by omega
  rw [h.type_eq hi] at ht
  obtain ⟨own, hown⟩ := h.inv.own
  obtain ⟨hT, hown', hx, hothers⟩ := createdDisk_spec L hown hi ht htype major minor
  -- what is left to do is the same whether the inode was held before or not
  have hrest : ∀ (e : Inode) (n : ℕ), e.ref = (s.icache i).ref + 1 →
      n + (if 0 < (s.icache i).ref then 1 else 0) = s.nused + 1 →
      Rel sb ⟨createdDisk sb s.disk i type major minor,
        update s.icache i ⟨e.ref, true, true, newInode type major minor⟩, n,
        s.logged ++ [IBLOCK sb i] ++ [IBLOCK sb i]⟩
        ⟨update a.node i ⟨type, major, minor, 1, []⟩,
          update a.ref i (a.ref i + 1), update a.busy i true, a.cost.inode i⟩ := by
    intro e n he hn
    have hcost := (h.cost.inode i).inode i
    rw [Cost.inode, Cost.inode, Finset.insert_idem] at hcost
    refine h.change hi (fun j _ => by rw [hT]) (o := own) ?_ hx hothers
      (fun _ => Nat.zero_le _) (by rw [he, h.ref i hi]) (fun _ _ => ⟨rfl, htype⟩) (fun _ _ => rfl)
      nofun (by simp [he]) (by simp only [he, Nat.succ_pos, if_true]; exact hn)
      hcost
    have hzero : (⟨type, major, minor, 1, []⟩ : Node).nblocks = sizes sb s.disk i := by
      rw [sizes, nodeOf_free ht]
      rfl
    rwa [hzero, update_eq_self]
  have hip : Fs.inode i (blanked sb s i type) = .ok (s.icache i, blanked sb s i type) := rfl
  by_cases href : 0 < (s.icache i).ref
  · -- a free inode that is held has not been read
    have hv : (s.icache i).valid = false := by
      by_contra hc
      exact (h.inv.cached i hi href (by simpa using hc)).2 ht
    have hb : (s.icache i).busy = false := by
      by_contra hc
      have := h.inv.locked i hi href (by simpa using hc)
      rw [hv] at this
      cases this
    have hget : Fs.iget i (blanked sb s i type) = .ok ((), { blanked sb s i type with
        icache := update s.icache i { s.icache i with ref := (s.icache i).ref + 1 }
        nused := s.nused }) := by
      rw [Fs.iget, bind_ok hip, if_pos href]
      rfl
    have hok : Fs.ialloc sb type s = .ok (i, _) := halloc.trans (bind_ok hget)
    have htail := icreate_tail (s := s) (n := s.nused)
      (e := { s.icache i with ref := (s.icache i).ref + 1 }) L hi htype major minor
      (Nat.succ_pos _) hb hv
    have hall : Fs.icreate sb type major minor s = .ok (i, _) := (bind_ok hok).trans htail
    simp only [h.ref i hi, href, true_or, if_true]
    rw [hall]
    have hc := hrest { s.icache i with ref := (s.icache i).ref + 1 } s.nused rfl (by simp [href])
    rw [h.ref i hi] at hc
    exact .ok hc
  · have h0 : (s.icache i).ref = 0 := by omega
    have hused : (Exec.gets fun s => s.nused : FS ℕ) (blanked sb s i type) =
        .ok (s.nused, blanked sb s i type) := rfl
    simp only [h.ref i hi, h0, Nat.lt_irrefl, false_or, h.nused_eq]
    by_cases hroom : s.nused < NINODE
    · have hget : Fs.iget i (blanked sb s i type) = .ok ((), { blanked sb s i type with
          icache := update s.icache i { s.icache i with ref := 1, busy := false, valid := false }
          nused := s.nused + 1 }) := by
        rw [Fs.iget, bind_ok hip, if_neg href, bind_ok hused, if_pos hroom]
        rfl
      have hok : Fs.ialloc sb type s = .ok (i, _) := halloc.trans (bind_ok hget)
      have htail := icreate_tail (s := s) (n := s.nused + 1)
        (e := { s.icache i with ref := 1, busy := false, valid := false }) L hi htype major minor
        Nat.zero_lt_one rfl rfl
      have hall : Fs.icreate sb type major minor s = .ok (i, _) := (bind_ok hok).trans htail
      rw [if_pos hroom, hall]
      have hc := hrest { s.icache i with ref := 1, busy := false, valid := false } (s.nused + 1)
        (by rw [h0]) (by simp [h0])
      rw [h.ref i hi, h0] at hc
      exact .ok hc
    · have hget : Fs.iget i (blanked sb s i type) = .error (.panic "iget: no inodes") := by
        rw [Fs.iget, bind_ok hip, if_neg href, bind_ok hused, if_neg hroom]
        rfl
      have hstop : Fs.ialloc sb type s = .error (.panic "iget: no inodes") :=
        halloc.trans (bind_error hget)
      rw [if_neg hroom, Fs.icreate, bind_error hstop]
      exact .stop _

end Xv6
