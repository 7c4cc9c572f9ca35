import Xv6.MkfsImage

/-!
# The finished image

`Image files m` says what is on the image that `mkfs` leaves: the files, each in blocks of its own,
and the bitmap. The last thing that `mkfs` does to the files is to "fix the size of the root
directory": it rounds the size up to whole blocks, always by at least one byte. So the size of the
root directory is not the size of what it holds, and when the entries fill its blocks, the last
block that the new size counts does not exist.

* `mkfs_consistent`: **the image is consistent** when there are not more files than inodes, the
  names are distinct, and the entries do not fill the last block of the root directory.
* `mkfs_inconsistent`: without the last two conditions it need not be.
-/

namespace Xv6

open List

namespace Mkfs

open Exec

/-! ## Entries -/

/-- Entry `k` of a list of entries that are stored one after the other. -/
theorem take_drop_bytes : ∀ {l : List Dirent}, (∀ de ∈ l, de.name.length = 14) →
    ∀ {k : ℕ} (hk : k < l.length) (z : List UInt8),
    (((l.flatMap Dirent.bytes) ++ z).drop (16 * k)).take 16 = l[k].bytes := by
  intro l
  induction l with
  | nil => exact fun _ k hk => absurd hk (Nat.not_lt_zero k)
  | cons de l ih =>
    intro h k hk z
    have hde : de.bytes.length = 16 := by
      have : de.bytes.length = de.name.length + 2 := rfl
      rw [this, h de mem_cons_self]
    rw [flatMap_cons, append_assoc]
    cases k with
    | zero => exact take_left' hde
    | succ k =>
      have hdrop : 16 * (k + 1) = de.bytes.length + 16 * k := by omega
      rw [hdrop, drop_length_add_append, getElem_cons_succ]
      exact ih (fun x hx => h x (mem_cons_of_mem _ hx)) _ z

/-- The name of a file is a C string. -/
theorem HostFile.name_str (f : HostFile) : 0 ∉ f.name := by
  rw [HostFile.name]
  split
  · exact fun hc => f.arg_str (mem_of_mem_tail hc)
  · exact f.arg_str

variable {k : ℕ}

theorem getElem_entries {files : List HostFile} (hk : k < files.length) :
    (entries files)[k + 2]? = some ⟨k + 2, strncpy (files[k]).name DIRSIZ⟩ := by
  rw [entries, getElem?_cons_succ, getElem?_cons_succ, getElem?_map,
    getElem?_zipIdx, getElem?_eq_getElem hk]
  simp only [Option.map_some, Nat.add_comm]

theorem inum_entries {files : List HostFile} {de : Dirent} (h : de ∈ entries files) :
    0 < de.inum ∧ de.inum < files.length + 2 := by
  rw [entries, mem_cons, mem_cons, mem_map] at h
  rcases h with rfl | rfl | ⟨⟨f, i⟩, hp, rfl⟩
  · exact ⟨Nat.one_pos, show 1 < _ by omega⟩
  · exact ⟨Nat.one_pos, show 1 < _ by omega⟩
  · obtain ⟨h1, h2, -⟩ := mem_zipIdx hp
    exact ⟨show 0 < i by omega, show i < _ by omega⟩

theorem names_entries (files : List HostFile) : (entries files).map Dirent.name =
    (dot :: dotdot :: files.map HostFile.name).map fun p => strncpy p DIRSIZ := by
  rw [entries, map_cons, map_cons, map_cons, map_cons, map_map, map_map]
  congr 2
  have : files.map ((fun p => strncpy p DIRSIZ) ∘ HostFile.name) =
      ((files.zipIdx 2).map Prod.fst).map ((fun p => strncpy p DIRSIZ) ∘ HostFile.name) := by
    rw [zipIdx_map_fst]
  rw [this, map_map]
  rfl

/-- The names that entries can be found by, of the files and of the root directory itself. -/
def names (files : List HostFile) : List (List UInt8) :=
  (dot :: dotdot :: files.map HostFile.name).map fun p => p.take DIRSIZ

/-- The names differ in their first `DIRSIZ` bytes iff the names in the entries differ. -/
theorem nodup_entries {files : List HostFile} :
    ((entries files).map Dirent.name).Nodup ↔ (names files).Nodup := by
  rw [names_entries]
  have hstr : ∀ p ∈ dot :: dotdot :: files.map HostFile.name, (0 : UInt8) ∉ p := by
    intro p hp
    rw [mem_cons, mem_cons, mem_map] at hp
    rcases hp with rfl | rfl | ⟨f, -, rfl⟩
    · decide
    · decide
    · exact f.name_str
  rw [names, List.Nodup, pairwise_map, pairwise_map]
  constructor
  · exact fun h => h.imp fun hne hc => hne (by rw [← strncpy_take, hc, strncpy_take])
  · exact fun h => h.imp_of_mem fun hp hq hne hc => hne
      (take_eq_of_strncpy _ (hstr _ hp) (hstr _ hq) hc)

/-! ## The image -/

/-- What is on the image, for these files. -/
structure Image (files : List HostFile) (m : State) : Prop where
  own : ∃ own, Own sb m.img (dinode sb m.img) (slots sb fun i => (filesOf files i).nblocks) own
  bitmap : m.img 58 = bitmap m.freeblock
  freeblock : m.freeblock ≤ 1000
  type : ∀ i < 200, (dinode sb m.img i).type = (filesOf files i).type
  nlink : ∀ i < 200, (filesOf files i).type ≠ 0 → (dinode sb m.img i).nlink = 1
  size : ∀ i < 200, i ≠ 1 → (filesOf files i).type ≠ 0 →
    (dinode sb m.img i).size = (filesOf files i).data.length
  root : (dinode sb m.img 1).size = (16 * (files.length + 2) / 512 + 1) * 512
  length : ∀ i < 200, (filesOf files i).data.length ≤ 512 * 140
  byte : ∀ i < 200, (filesOf files i).type ≠ 0 → ∀ p (hp : p < (filesOf files i).data.length),
    fileByte m.img (dinode sb m.img i) p = (filesOf files i).data[p]
  clean : ∀ i < 200, (filesOf files i).type ≠ 0 → ∀ p, (filesOf files i).data.length ≤ p →
    p < 512 * (filesOf files i).nblocks → fileByte m.img (dinode sb m.img i) p = 0
  rest : ∀ i, 200 ≤ i → i < 208 → (dinode sb m.img i).type = 0

theorem nlink_filesOf {files : List HostFile} {i : ℕ} (h : (filesOf files i).type ≠ 0) :
    (filesOf files i).nlink = 1 := by
  rw [filesOf] at h ⊢
  split
  · rfl
  rename_i h1
  rw [if_neg h1] at h
  split
  · rename_i h0
    rw [if_pos h0] at h
    exact absurd rfl h
  rename_i h0
  rw [if_neg h0] at h
  rcases hf : files[i - 2]? with _ | f
  · rw [hf] at h
    exact absurd rfl h
  · rfl

/-- Fixing the size of the root directory changes nothing else. -/
theorem image_of_built {files : List HostFile} {m1 m : State} (h : Built m1 (filesOf files))
    (hfb : m.freeblock = m1.freeblock)
    (himg : m.img = Fs.storeInode sb (view m1) 1 (fixed (dinode sb (view m1) 1))) :
    Image files m := by
  obtain ⟨own, hown⟩ := h.own
  have hroot : (filesOf files 1).type ≠ 0 := by
    rw [filesOf, if_pos rfl]
    exact Nat.noConfusion ∘ congrArg UInt16.toNat
  have hsz := h.size 1 (by decide) (by rw [h.type_eq (by decide)]; exact hroot)
  have hfit : (fixed (dinode sb (view m1) 1)).Fits := by
    have hf := Dinode.read_fits (view m1 (IBLOCK sb 1)) (1 % IPB)
    refine ⟨?_, hf.addrs, hf.none⟩
    show ((dinode sb (view m1) 1).size / 512 + 1) * 512 < 2 ^ 32
    omega
  have hT : dinode sb m.img = Function.update (dinode sb (view m1)) 1
      (fixed (dinode sb (view m1) 1)) := by
    rw [himg, Fs.dinode_storeInode hfit]
  have hge : ∀ c, sb.bmapstart ≤ c → m.img c = view m1 c := fun c hc => by
    rw [himg]
    exact Fs.storeInode_ge layout_mkfs (by decide) hc
  -- types, links and addresses are those of before
  have hsame : ∀ i, (dinode sb m.img i).type = (dinode sb (view m1) i).type ∧
      (dinode sb m.img i).addrs = (dinode sb (view m1) i).addrs ∧
      (dinode sb m.img i).nlink = (dinode sb (view m1) i).nlink := by
    intro i
    rw [hT]
    rcases eq_or_ne i 1 with rfl | hne
    · rw [Function.update_self]
      exact ⟨rfl, rfl, rfl⟩
    · rw [Function.update_of_ne hne]
      exact ⟨rfl, rfl, rfl⟩
  have hbyte : ∀ i < 200, ∀ p, p < 512 * (filesOf files i).nblocks →
      fileByte m.img (dinode sb m.img i) p = fileByte (view m1) (dinode sb (view m1) i) p := by
    intro i hi p hp
    rw [fileByte_addrs (hsame i).2.1]
    refine fileByte_frame hown hge hi ?_
    rw [h.sizes_eq hi]
    omega
  have hlen : ∀ i < 200, (filesOf files i).data.length ≤ 512 * 140 := by
    intro i hi
    by_cases ht : (dinode sb (view m1) i).type = 0
    · rw [h.node i hi, nodeOf_free ht]
      exact Nat.zero_le _
    · rw [h.node i hi, nodeOf_length ht]
      exact h.size i hi ht
  have htype : ∀ i < 200, (filesOf files i).type ≠ 0 → (dinode sb (view m1) i).type ≠ 0 :=
    fun i hi ht => by rwa [h.type_eq hi]
  refine ⟨⟨own, ?_⟩, ?_, ?_, fun i hi => ?_, fun i hi ht => ?_, fun i hi h1 ht => ?_, ?_, hlen,
    fun i hi ht p hp => ?_, fun i hi ht p hp hlt => ?_, fun i h₁ h2 => ?_⟩
  · refine ((hown.frame hge).of_table fun j _ => ⟨(hsame j).1, (hsame j).2.1⟩).congr fun j x => ?_
    exact and_congr_right fun hj => by rw [h.sizes_eq hj]
  · rw [hge 58 le_rfl, view_bitmap, hfb]
  · rw [hfb]
    exact h.hi
  · rw [(hsame i).1, h.type_eq hi]
  · rw [(hsame i).2.2, ← nodeOf_nlink (htype i hi ht), ← h.node i hi, nlink_filesOf ht]
  · rw [hT, Function.update_of_ne h1, h.length_eq hi ht]
  · rw [hT, Function.update_self]
    show ((dinode sb (view m1) 1).size / 512 + 1) * 512 = _
    rw [h.length_eq (by decide) hroot, length_root]
  · have hnb : p < 512 * (filesOf files i).nblocks := by
      rw [Node.nblocks]
      omega
    rw [hbyte i hi p hnb]
    have hdata : (filesOf files i).data = (List.range (dinode sb (view m1) i).size).map
        (fileByte (view m1) (dinode sb (view m1) i)) := by
      rw [h.node i hi, nodeOf_used (htype i hi ht)]
    simp only [hdata, getElem_map, getElem_range]
  · rw [hbyte i hi p hlt]
    exact h.clean i hi (htype i hi ht) p (by rwa [h.length_eq hi ht]) (by rwa [h.sizes_eq hi])
  · rw [(hsame i).1]
    exact h.rest i h₁ h2

theorem mkfs_eq (files : List HostFile) : mkfs files = (makeRoot files blank).map Prod.snd := by
  delta mkfs
  rw [main_eq]

/-- What `mkfs` leaves. -/
theorem image_of_mkfs {files : List HostFile} {m : State} (hn : files.length ≤ 198)
    (h : mkfs files = .ok m) : Image files m := by
  have hspec := makeRoot_spec files hn
  rw [mkfs_eq] at h
  rcases hr : makeRoot files blank with e | ⟨u, m'⟩
  · rw [hr] at h
    cases h
  · rw [hr] at h
    cases h
    obtain ⟨m1, h1, hfb, himg⟩ := hspec.ok hr
    exact image_of_built h1 hfb himg

/-- `mkfs` succeeds if the files fit. -/
theorem mkfs_ok {files : List HostFile} (hn : files.length ≤ 198) (hfit : Fits (filesOf files))
    (hslash : ∀ f ∈ files, Code.slash ∉ f.arg) : ∃ m, mkfs files = .ok m := by
  have hspec := makeRoot_spec files hn
  rw [mkfs_eq]
  rcases hr : makeRoot files blank with e | ⟨u, m'⟩
  · rcases hspec.error hr with hc | ⟨f, hf, hc⟩
    · exact absurd hfit hc
    · exact absurd hc (hslash f hf)
  · exact ⟨m', rfl⟩

/-! ## The root directory -/

namespace Image

variable {files : List HostFile} {m : State}

section

variable (h : Image files m)

include h

theorem type_root : (dinode sb m.img 1).type = T_DIR := by
  rw [h.type 1 (by decide), filesOf, if_pos rfl]

/-- The root directory on the image: its entries, and the bytes that its size was fixed by. -/
theorem data_root : (nodeOf sb m.img ROOTINO).data = (entries files).flatMap Dirent.bytes ++
      (List.range ((dinode sb m.img 1).size - 16 * (files.length + 2))).map fun t =>
        fileByte m.img (dinode sb m.img 1) (16 * (files.length + 2) + t) := by
  have ht : (dinode sb m.img 1).type ≠ 0 := by
    rw [h.type_root]
    decide
  have hlen := length_root files
  have hsz : (dinode sb m.img 1).size = 16 * (files.length + 2) +
      ((dinode sb m.img 1).size - 16 * (files.length + 2)) := by
    rw [h.root]
    omega
  rw [nodeOf_used ht]
  show (List.range (dinode sb m.img 1).size).map _ = _
  rw [hsz, range_add, map_append, map_map]
  congr 1
  · show _ = (filesOf files 1).data
    refine ext_getElem (by simp [hlen]) fun p h1 h2 => ?_
    rw [getElem_map, getElem_range]
    exact h.byte 1 (by decide) (by rwa [← h.type 1 (by decide)]) p h2
  · rw [← hsz]
    rfl

/-- The entries are found where they were written. -/
theorem entry_root (hn : files.length ≤ 198) (hk : k < (entries files).length) :
    (nodeOf sb m.img ROOTINO).entry k = (entries files)[k] := by
  have hmem := getElem_mem hk
  have hlt : ((entries files)[k]).inum < 65536 := by
    have := (inum_entries hmem).2
    omega
  rw [Node.entry, h.data_root, take_drop_bytes (fun de hde => length_entry hde) hk]
  exact Node.read_bytes hlt

/-- What follows the entries is free, if it lies in a block that exists. -/
theorem entry_past (hfull : (files.length + 2) % 32 ≠ 0)
    (hk : files.length + 2 ≤ k) : ((nodeOf sb m.img ROOTINO).entry k).inum = 0 := by
  have hlen := length_root files
  have hzero : ∀ t, (nodeOf sb m.img ROOTINO).data.getD (16 * (files.length + 2) + t) 0 = 0 := by
    intro t
    have hl : ((entries files).flatMap Dirent.bytes).length = 16 * (files.length + 2) := hlen
    rw [h.data_root, getD_eq_getElem?_getD, getElem?_append_right (by omega), hl,
      Nat.add_sub_cancel_left, getElem?_map]
    by_cases ht : t < (dinode sb m.img 1).size - 16 * (files.length + 2)
    · rw [getElem?_range ht]
      refine h.clean 1 (by decide) ?_ _ (by omega) ?_
      · rw [← h.type 1 (by decide), h.type_root]
        decide
      · rw [Node.nblocks, hlen]
        rw [h.root] at ht
        omega
    · rw [getElem?_eq_none (by simp; omega)]
      rfl
  have hget : ∀ j < 16, (((nodeOf sb m.img ROOTINO).data.drop (16 * k)).take 16).getD j 0 = 0 := by
    intro j hj
    rw [getD_eq_getElem?_getD, getElem?_take_of_lt hj, getElem?_drop, ← getD_eq_getElem?_getD]
    have := hzero (16 * k + j - 16 * (files.length + 2))
    rwa [Nat.add_sub_of_le (by omega)] at this
  show (_ : UInt8).toNat + 256 * (_ : UInt8).toNat = 0
  rw [hget 0 (by decide), hget 1 (by decide)]
  rfl

end

end Image

/-! ## Consistency -/

/-- A consistent image. The inode blocks hold `IPB * ninodeblocks` inodes, of which the kernel uses
the first `NINODES`. -/
structure Consistent (m : State) : Prop where
  inodes : ∀ i < IPB * ninodeblocks, (dinode sb m.img i).type ≠ 0 → i < NINODES
  /-- every block of a file has an address -/
  mapped : ∀ i < IPB * ninodeblocks, (dinode sb m.img i).type ≠ 0 →
    ∀ bn, bn * BSIZE < (dinode sb m.img i).size →
      bn < MAXFILE ∧ ptr m.img (dinode sb m.img i) bn ≠ 0
  /-- all addresses are those of data blocks -/
  range : ∀ i < IPB * ninodeblocks, (dinode sb m.img i).type ≠ 0 → ∀ x ≤ MAXFILE,
    ptr m.img (dinode sb m.img i) x ≠ 0 →
      nmeta ≤ ptr m.img (dinode sb m.img i) x ∧ ptr m.img (dinode sb m.img i) x < FSSIZE
  /-- no block has two addresses -/
  distinct : ∀ i < IPB * ninodeblocks, (dinode sb m.img i).type ≠ 0 →
    ∀ j < IPB * ninodeblocks, (dinode sb m.img j).type ≠ 0 → ∀ x ≤ MAXFILE, ∀ y ≤ MAXFILE,
    ptr m.img (dinode sb m.img i) x ≠ 0 →
      ptr m.img (dinode sb m.img i) x = ptr m.img (dinode sb m.img j) y → i = j ∧ x = y
  /-- the bitmap marks the blocks below `freeblock` -/
  bits : ∀ b < BPB, (m.img sb.bmapstart).bit b = decide (b < m.freeblock)
  freeblock : m.freeblock ≤ FSSIZE
  /-- no name is twice in the root directory -/
  names : ∀ j < (nodeOf sb m.img ROOTINO).nslots, ∀ k < (nodeOf sb m.img ROOTINO).nslots,
    ((nodeOf sb m.img ROOTINO).entry j).inum ≠ 0 → ((nodeOf sb m.img ROOTINO).entry k).inum ≠ 0 →
      ((nodeOf sb m.img ROOTINO).entry j).name = ((nodeOf sb m.img ROOTINO).entry k).name → j = k

namespace Image

variable {files : List HostFile} {m : State}

theorem lt_of_used (h : Image files m) {i : ℕ} (hi : i < 208) (ht : (dinode sb m.img i).type ≠ 0) :
    i < 200 := by
  by_contra hc
  exact ht (h.rest i (Nat.not_lt.mp hc) hi)

/-- The blocks that the size of a file counts exist. -/
theorem nblocks_size (h : Image files m) (hfull : (files.length + 2) % 32 ≠ 0) {i bn : ℕ}
    (hi : i < 200) (ht : (dinode sb m.img i).type ≠ 0)
    (hbn : bn * 512 < (dinode sb m.img i).size) : bn < (filesOf files i).nblocks := by
  rcases eq_or_ne i 1 with rfl | h1
  · rw [Node.nblocks, length_root]
    rw [h.root] at hbn
    omega
  · rw [h.type i hi] at ht
    rw [h.size i hi h1 ht] at hbn
    rw [Node.nblocks]
    omega

theorem names_inj (h : Image files m) (hn : files.length ≤ 198)
    (hfull : (files.length + 2) % 32 ≠ 0) (hnames : (names files).Nodup) {j k : ℕ}
    (hj : ((nodeOf sb m.img ROOTINO).entry j).inum ≠ 0)
    (hk : ((nodeOf sb m.img ROOTINO).entry k).inum ≠ 0)
    (he : ((nodeOf sb m.img ROOTINO).entry j).name = ((nodeOf sb m.img ROOTINO).entry k).name) :
    j = k := by
  have hlen := length_entries files
  have hlt : ∀ {t}, ((nodeOf sb m.img ROOTINO).entry t).inum ≠ 0 → t < (entries files).length := by
    intro t ht
    by_contra hc
    exact ht (h.entry_past hfull (by omega))
  rw [h.entry_root hn (hlt hj), h.entry_root hn (hlt hk)] at he
  have hj' : j < ((entries files).map Dirent.name).length := by
    rw [length_map]
    exact hlt hj
  have hk' : k < ((entries files).map Dirent.name).length := by
    rw [length_map]
    exact hlt hk
  have hmap : ((entries files).map Dirent.name)[j] = ((entries files).map Dirent.name)[k] := by
    rw [getElem_map, getElem_map]
    exact he
  exact (nodup_entries.mpr hnames).getElem_inj_iff.mp hmap

theorem nslots_root (h : Image files m) :
    (nodeOf sb m.img ROOTINO).nslots = (16 * (files.length + 2) / 512 + 1) * 32 := by
  rw [Node.nslots, nodeOf_length (by rw [h.type_root]; decide), h.root]
  omega

/-- Otherwise the directory is said to have a block that it has not. -/
theorem not_full (h : Image files m) (hn : files.length ≤ 198) (hc : Consistent m) :
    (files.length + 2) % 32 ≠ 0 := by
  intro hfull
  obtain ⟨own, hown⟩ := h.own
  have ht : (dinode sb m.img 1).type ≠ 0 := by
    rw [h.type_root]
    decide
  refine (hc.mapped 1 (by decide) ht ((files.length + 2) / 32) ?_).2 ?_
  · show _ * 512 < _
    rw [h.root]
    omega
  · refine hown.ptr_zero 1 _ (by decide) ht (show _ ≤ 140 by omega) ?_
    rintro ⟨-, hx⟩
    have hx : Filled (filesOf files 1).nblocks ((files.length + 2) / 32) := hx
    rw [filled_iff, Node.nblocks, length_root] at hx
    omega

theorem names_nodup (h : Image files m) (hn : files.length ≤ 198) (hc : Consistent m) :
    (names files).Nodup := by
  rw [← nodup_entries, nodup_iff_injective_getElem]
  rintro ⟨j, hj⟩ ⟨k, hk⟩ he
  rw [length_map] at hj hk
  have hlen := length_entries files
  have hslots := h.nslots_root
  have hne : ∀ t (ht : t < (entries files).length), ((entries files)[t]).inum ≠ 0 := fun t ht =>
    (inum_entries (getElem_mem ht)).1.ne'
  refine Fin.ext (hc.names j (by omega) k (by omega) ?_ ?_ ?_)
  · rw [h.entry_root hn hj]
    exact hne j hj
  · rw [h.entry_root hn hk]
    exact hne k hk
  · simpa [h.entry_root hn hj, h.entry_root hn hk] using he

end Image

/-- **`mkfs` builds a consistent image** of files for which there are enough inodes iff the names
are distinct and the root directory does not end with its last block: two entries of one name are
both kept, and a full last block is counted twice. -/
theorem mkfs_consistent {files : List HostFile} {m : State} (h : mkfs files = .ok m)
    (hn : files.length + 2 ≤ NINODES) :
    Consistent m ↔ (files.length + 2) % 32 ≠ 0 ∧ (names files).Nodup := by
  have hn : files.length ≤ 198 := by
    have : files.length + 2 ≤ 200 := hn
    omega
  have him := image_of_mkfs hn h
  refine ⟨fun hc => ⟨him.not_full hn hc, him.names_nodup hn hc⟩, ?_⟩
  rintro ⟨hfull, hnames⟩
  obtain ⟨own, hown⟩ := him.own
  have hneed : ∀ {i x : ℕ}, i < 208 → (dinode sb m.img i).type ≠ 0 → x ≤ 140 →
      ptr m.img (dinode sb m.img i) x ≠ 0 →
      slots sb (fun i => (filesOf files i).nblocks) i x := fun hi ht hx hp =>
    (hown.ptr_ne_zero_iff (him.lt_of_used hi ht) ht hx).mp hp
  refine ⟨fun i hi ht => him.lt_of_used hi ht, fun i hi ht bn hbn => ?_,
    fun i hi ht x hx hp => hown.ptr_range (hneed hi ht hx hp), ?_, fun b hb => ?_, him.freeblock,
    fun j _ k _ hj hk he => him.names_inj hn hfull hnames hj hk he⟩
  · have hi := him.lt_of_used hi ht
    have hlt := him.nblocks_size hfull hi ht hbn
    have hle := him.length i hi
    refine ⟨?_, hown.ptr_ne_zero ⟨hi, filled_iff.mpr (.inl hlt)⟩⟩
    rw [Node.nblocks] at hlt
    show bn < 140
    omega
  · intro i hi ht j hj htj x hx y hy hp he
    exact hown.ptr_inj (hneed hi ht hx hp) (hneed hj htj hy (he ▸ hp)) he
  · rw [bmapstart_eq, him.bitmap]
    exact bit_bitmap (le_trans him.freeblock (by decide)) hb

/-- An empty file. -/
def emptyFile (k : Fin 30) : HostFile where
  arg := [UInt8.ofNat (k.val + 97)]
  data := []
  arg_str := by
    revert k
    decide

/-- Two files of the same name. -/
def twice : List HostFile := [emptyFile 0, emptyFile 0]

/-- Thirty files with names of one letter: with `.` and `..` their entries fill a block. -/
def thirty : List HostFile := (List.finRange 30).map emptyFile

theorem fits_twice : Fits (filesOf twice) := ⟨by decide +kernel, by decide +kernel⟩

theorem fits_thirty : Fits (filesOf thirty) := ⟨by decide +kernel, by decide +kernel⟩

/-- **Without the conditions the image need not be consistent**: `mkfs` does not look for a name
that it has used, and with thirty files the root directory is said to have a block that it has
not. -/
theorem mkfs_inconsistent :
    (∃ files m, mkfs files = .ok m ∧ files.length + 2 ≤ NINODES ∧ (files.length + 2) % 32 ≠ 0 ∧
      ¬ Consistent m) ∧
    ∃ files m, mkfs files = .ok m ∧ files.length + 2 ≤ NINODES ∧ (names files).Nodup ∧
      ¬ Consistent m := by
  constructor
  · obtain ⟨m, hm⟩ := mkfs_ok (by decide) fits_twice (by decide)
    refine ⟨twice, m, hm, by decide, by decide, fun hc => ?_⟩
    have him := image_of_mkfs (by decide) hm
    have h2 := him.entry_root (by decide) (k := 2) (by decide)
    have h3 := him.entry_root (by decide) (k := 3) (by decide)
    have hsize : (nodeOf sb m.img ROOTINO).nslots = 32 := by
      rw [Node.nslots, nodeOf_length (by rw [him.type_root]; decide), him.root]
      rfl
    have := hc.names 2 (by rw [hsize]; decide) 3 (by rw [hsize]; decide) (by rw [h2]; decide)
      (by rw [h3]; decide) (by rw [h2, h3]; rfl)
    omega
  · obtain ⟨m, hm⟩ := mkfs_ok (by decide) fits_thirty (by decide)
    refine ⟨thirty, m, hm, by decide, by decide, fun hc => ?_⟩
    have him := image_of_mkfs (by decide) hm
    obtain ⟨own, hown⟩ := him.own
    have ht : (dinode sb m.img 1).type ≠ 0 := by
      rw [him.type_root]
      decide
    -- the directory has one block, and its size says two
    have hblock : (filesOf thirty 1).nblocks = 1 := by decide +kernel
    refine (hc.mapped 1 (by decide) ht 1 (by rw [him.root]; decide)).2 ?_
    refine hown.ptr_zero 1 1 (by decide) ht (by decide) ?_
    rintro ⟨-, hx⟩
    have hx : Filled (filesOf thirty 1).nblocks 1 := hx
    rw [hblock, filled_iff] at hx
    omega

/-- A file that `mkfs` is called with: `_cat`. -/
def cat : HostFile := ⟨[95, 99, 97, 116], [1, 2, 3], by decide⟩

theorem fits_cat : Fits (filesOf [cat]) := ⟨by decide +kernel, by decide +kernel⟩

/-- The conditions can be met. -/
theorem mkfs_consistent_cat : ∃ m, mkfs [cat] = .ok m ∧ Consistent m := by
  obtain ⟨m, hm⟩ := mkfs_ok (by decide) fits_cat (by decide)
  exact ⟨m, hm, (mkfs_consistent hm (by decide)).mpr (by decide)⟩

end Mkfs

end Xv6
