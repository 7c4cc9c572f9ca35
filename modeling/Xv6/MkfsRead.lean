import Xv6.MkfsFinal
import Mathlib.Data.List.TakeWhile

/-!
# What `mkfs` writes, the kernel reads back

The kernel on the image of `mkfs`: `namei` finds every file by its name in the root directory, and
`readi` returns its bytes. The kernel may hold inodes, as long as it has locked none and there is
room in the inode cache (`Idle`).

The size of the root directory may count a block that does not exist, so the invariant of the inode
layer is not at hand here. It is not needed: `dirlookup` stops at the entry, which lies before.
-/

namespace Xv6

open Function List

namespace Mkfs

open Exec

/-- A cache entry that nobody has locked, with what the disk has. -/
def Unlocked (disk : Disk) (i : ℕ) (e : Inode) : Prop :=
  0 < e.ref → e.busy = false ∧ (e.valid = true → e.d = dinode sb disk i)

/-- A cache entry that is locked, with what the disk has. -/
structure Held (disk : Disk) (i : ℕ) (e : Inode) : Prop where
  ref : 0 < e.ref
  busy : e.busy = true
  valid : e.valid = true
  copy : e.d = dinode sb disk i

/-- The kernel runs on this disk, has no inode locked, and has room for `n` more. -/
structure Idle (disk : Disk) (n : ℕ) (s : FsState) : Prop where
  disk_eq : s.disk = disk
  unlocked : ∀ i < 200, Unlocked disk i (s.icache i)
  room : s.nused + n ≤ NINODE

section Kernel

variable {disk : Disk} {s : FsState} {i : ℕ}

/-- Taking a reference leaves an inode unlocked. -/
theorem iget_ok (hu : Unlocked disk i (s.icache i)) (hroom : s.nused < NINODE) :
    ∃ s', Fs.iget i s = .ok ((), s') ∧ s'.disk = s.disk ∧ s'.nused ≤ s.nused + 1 ∧
      0 < (s'.icache i).ref ∧ Unlocked disk i (s'.icache i) ∧
      ∀ j, j ≠ i → s'.icache j = s.icache j := by
  have hused : (gets fun s => s.nused : FS ℕ) s = .ok (s.nused, s) := rfl
  by_cases href : 0 < (s.icache i).ref
  · refine ⟨{ s with
        icache := update s.icache i { s.icache i with ref := (s.icache i).ref + 1 } }, ?_,
      rfl, Nat.le_succ _, ?_, ?_, fun j hj => update_of_ne hj ..⟩
    · rw [Fs.iget, Fs.bind_inode, if_pos href]
      rfl
    · simp only [update_self]
      exact Nat.succ_pos _
    · simp only [update_self]
      exact fun _ => hu href
  refine ⟨{ s with
      icache := update s.icache i { s.icache i with ref := 1, busy := false, valid := false }
      nused := s.nused + 1 }, ?_, rfl, le_rfl, ?_, ?_, fun j hj => update_of_ne hj ..⟩
  · rw [Fs.iget, Fs.bind_inode, if_neg href, bind_ok hused, if_pos hroom]
    rfl
  · simp only [update_self]
    exact Nat.one_pos
  · simp only [update_self]
    exact fun _ => ⟨rfl, fun hv => by cases hv⟩

/-- An unlocked inode that is in use can be locked. -/
theorem ilock_ok (hd : s.disk = disk) (hi : i < 200) (hu : Unlocked disk i (s.icache i))
    (href : 0 < (s.icache i).ref) (ht : (dinode sb disk i).type ≠ 0) :
    ∃ s', Fs.ilock sb i s = .ok ((), s') ∧ s'.disk = s.disk ∧ s'.nused = s.nused ∧
      Held disk i (s'.icache i) ∧ ∀ j, j ≠ i → s'.icache j = s.icache j := by
  obtain ⟨hb, hcopy⟩ := hu href
  have hb' : ¬ (s.icache i).busy = true := by
    rw [hb]
    exact Bool.false_ne_true
  by_cases hv : (s.icache i).valid = true
  · refine ⟨{ s with icache := update s.icache i { s.icache i with busy := true } }, ?_,
      rfl, rfl, ?_, fun j hj => update_of_ne hj ..⟩
    · rw [Fs.ilock, Fs.bind_inode, if_neg (by omega), if_neg hb', if_pos hv]
      rfl
    · simp only [update_self]
      exact ⟨href, rfl, hv, hcopy hv⟩
  · refine ⟨_, (ilock_unread layout_mkfs hi href hb' hv).trans (if_neg (by rwa [hd])), rfl, rfl,
      ?_, fun j hj => update_of_ne hj ..⟩
    simp only [update_self]
    exact ⟨href, rfl, rfl, by rw [hd]⟩

/-- A locked inode that has a link can be unlocked and put, and nothing else happens. -/
theorem iunlockput_ok (hi : Held disk i (s.icache i)) (hl : (dinode sb disk i).nlink ≠ 0) :
    ∃ s', Prog.exec (Fs.exec sb) (Code.iunlockput i) s = .ok ((), s') ∧ s'.disk = s.disk ∧
      ∀ j, j ≠ i → s'.icache j = s.icache j := by
  have hip : ∀ t : FsState, Fs.inode i t = .ok (t.icache i, t) := fun _ => rfl
  obtain ⟨s1, hs1⟩ : ∃ s1 : FsState, s1 = { s with
    icache := update s.icache i { s.icache i with busy := false } } := ⟨_, rfl⟩
  have hcopy : (s1.icache i).d = dinode sb disk i := by
    rw [hs1]
    simp only [update_self]
    exact hi.copy
  have hunlock : Fs.iunlock i s = .ok ((), s1) := by
    have hpos := hi.ref
    rw [Fs.iunlock, bind_ok (hip s), if_neg (by rw [hi.busy]; simp; omega), hs1]
    rfl
  have hput : Fs.iput sb i s1 = Fs.dropRef i s1 := by
    rw [Fs.iput, bind_ok (hip s1), if_neg]
    rintro ⟨-, -, h0⟩
    rw [hcopy] at h0
    exact hl h0
  have hex : Prog.exec (Fs.exec sb) (Code.iunlock i) s = .ok ((), s1) := by
    rw [Code.iunlock, Prog.exec_call]
    exact hunlock
  have hex' : Prog.exec (Fs.exec sb) (Code.iput i) s1 = Fs.dropRef i s1 := by
    rw [Code.iput, Prog.exec_call]
    exact hput
  refine ⟨_, (Prog.exec_bind_ok hex).trans hex', ?_, fun j hj => ?_⟩
  · rw [hs1]
  · refine (update_of_ne hj ..).trans ?_
    rw [hs1]
    exact update_of_ne hj ..

end Kernel

/-! ## Reading -/

variable {k : ℕ}

namespace Image

variable {files : List HostFile} {m : State} {s : FsState} {i : ℕ}

theorem mid {own : ℕ → Option (ℕ × ℕ)} (hd : s.disk = m.img) (hl : Held m.img i (s.icache i))
    (hown : Own sb m.img (dinode sb m.img) (slots sb fun i => (filesOf files i).nblocks) own) :
    Fs.Mid sb (dinode sb m.img) (fun i => (filesOf files i).nblocks) i
      (filesOf files i).nblocks s own := by
  rw [Fs.Mid, hl.copy, hd, update_eq_self, update_eq_self]
  exact hown

/-- **`readi`**, of `c` bytes that the file holds. -/
theorem readi_ok (h : Image files m) (hd : s.disk = m.img) (hi : i < 200)
    (hl : Held m.img i (s.icache i)) (ht : (filesOf files i).type ≠ 0)
    (hdev : (filesOf files i).type ≠ T_DEV) {off n c : ℕ}
    (hoff : off ≤ (dinode sb m.img i).size) (hov : off + n < 2 ^ 32)
    (hc : c = if off + n > (dinode sb m.img i).size then (dinode sb m.img i).size - off else n)
    (hend : off + c ≤ (filesOf files i).data.length) :
    Fs.readi sb i off n s = .ok (some (((filesOf files i).data.drop off).take c), s) := by
  obtain ⟨own, hown⟩ := h.own
  have hle := h.length i hi
  have hk : (filesOf files i).nblocks = ((filesOf files i).data.length + 511) / 512 := rfl
  have hloop : Fs.readLoop sb i c off c s = .ok (((filesOf files i).data.drop off).take c, s) := by
    rw [Fs.readLoop_spec layout_mkfs (mid hd hl hown) hi (by omega) c off c le_rfl (by omega)]
    refine congrArg (fun b => Except.ok (b, s)) ?_
    rw [hl.copy, hd]
    refine ext_getElem (by simp; omega) fun t h1 h2 => ?_
    rw [getElem_map, getElem_range, getElem_take, getElem_drop]
    exact h.byte i hi ht _ _
  rw [Fs.readi, Fs.bind_inode, hl.copy, if_neg (by rwa [h.type i hi]), if_neg (by omega)]
  rw [← hc, bind_ok hloop]
  rfl

/-- An entry of the root directory is read. -/
theorem readDirent_ok (h : Image files m) (hn : files.length ≤ 198) (hd : s.disk = m.img)
    (hl : Held m.img 1 (s.icache 1)) (hk : k < (entries files).length) (msg : String) :
    Prog.exec (Fs.exec sb) (Code.readDirent 1 (16 * k) msg) s = .ok ((entries files)[k], s) := by
  have hlen := length_entries files
  have hroot : (filesOf files 1).data = (entries files).flatMap Dirent.bytes := rfl
  have hlr := length_root files
  have hty : (filesOf files 1).type = T_DIR := rfl
  have hinum := (inum_entries (getElem_mem hk)).2
  have hbytes := take_drop_bytes (fun de hde => length_entry hde) hk []
  rw [append_nil] at hbytes
  have hsz : 16 * k + 16 ≤ (dinode sb m.img 1).size := by
    rw [h.root]
    omega
  have hread := h.readi_ok hd (by decide) hl (by rw [hty]; decide) (by rw [hty]; decide)
    (show 16 * k ≤ _ by omega) (show 16 * k + 16 < 2 ^ 32 by omega)
    (c := 16) (by rw [if_neg (by omega)]) (by omega)
  rw [hroot, hbytes] at hread
  have hex : Prog.exec (Fs.exec sb) (Code.readi 1 (16 * k) 16) s =
      .ok (some ((entries files)[k]).bytes, s) := by
    rw [Code.readi, Prog.exec_call]
    exact hread
  have h16 : ((entries files)[k]).bytes.length = 16 := by
    have : ((entries files)[k]).bytes.length = ((entries files)[k]).name.length + 2 := rfl
    rw [this, length_entry (getElem_mem hk)]
  rw [Code.readDirent, Prog.exec_bind_ok hex]
  simp only [h16, if_true]
  have hback : Dirent.read ((entries files)[k]).bytes = (entries files)[k] :=
    Node.read_bytes (show ((entries files)[k]).inum < 65536 by omega)
  rw [hback]
  rfl

/-- **The loop of `dirlookup`** comes to the first entry with the name. -/
theorem dirlookupFrom_ok (h : Image files m) (hn : files.length ≤ 198) (hd : s.disk = m.img)
    (hl : Held m.img 1 (s.icache 1)) (name : List UInt8) {s' : FsState}
    (hk : k < (entries files).length) (hname : namecmp name ((entries files)[k]).name = 0)
    (hother : ∀ j (hj : j < (entries files).length), j < k →
      namecmp name ((entries files)[j]).name ≠ 0)
    (hget : Fs.iget ((entries files)[k]).inum s = .ok ((), s')) :
    ∀ fuel j, j ≤ k → k < j + fuel →
    Prog.exec (Fs.exec sb) (Code.dirlookupFrom 1 (dinode sb m.img 1).size name fuel (16 * j)) s =
      .ok (some (((entries files)[k]).inum, 16 * k), s') := by
  have hlen := length_entries files
  intro fuel
  induction fuel with
  | zero =>
    intro j h1 h2
    omega
  | succ fuel ih =>
    intro j h1 h2
    have hj : j < (entries files).length := by omega
    have hin : 16 * j < (dinode sb m.img 1).size := by
      rw [h.root]
      omega
    have hpos := (inum_entries (getElem_mem hj)).1
    rw [Code.dirlookupFrom, if_pos hin, Prog.exec_bind_ok (h.readDirent_ok hn hd hl hj _),
      if_neg (by omega)]
    rcases Nat.eq_or_lt_of_le h1 with rfl | hlt
    · have hex : Prog.exec (Fs.exec sb) (Code.iget ((entries files)[j]).inum) s = .ok ((), s') := by
        rw [Code.iget, Prog.exec_call]
        exact hget
      rw [if_pos hname, Prog.exec_bind_ok hex]
      rfl
    · have := ih (j + 1) hlt (by omega)
      rw [if_neg (hother j hj hlt)]
      exact this

end Image

/-! ## Finding a file -/

/-- The path of a file in the root directory has one element. -/
theorem skipelem_slash {name : List UInt8} (h : Code.slash ∉ name) (hne : name ≠ []) :
    Code.skipelem (Code.slash :: name) = some (name.take DIRSIZ, []) := by
  have hdrop : name.dropWhile (· = Code.slash) = name := by
    cases name with
    | nil => rfl
    | cons a t =>
      have : a ≠ Code.slash := (ne_of_not_mem_cons h).symm
      simp [this]
  have hall : ∀ x ∈ name, decide (x ≠ Code.slash) = true := fun x hx =>
    decide_eq_true fun hc => h (hc ▸ hx)
  have htake : name.takeWhile (· ≠ Code.slash) = name := takeWhile_eq_self_iff.mpr hall
  have hrest : name.dropWhile (· ≠ Code.slash) = [] := dropWhile_eq_nil_iff.mpr hall
  simp only [Code.skipelem, dropWhile_cons, decide_true, if_true, hdrop, htake, hrest,
    if_neg hne, dropWhile_nil]

namespace Image

variable {files : List HostFile} {m : State} {s : FsState}

/-- **`namei` finds a file** of the root directory, and takes a reference to it. -/
theorem namei_ok (h : Image files m) (hn : files.length ≤ 198) (hnames : (names files).Nodup)
    (hk : k < files.length) (hne : (files[k]).name ≠ []) (hslash : Code.slash ∉ (files[k]).name)
    (hs : Idle m.img 2 s) (cwd : ℕ) :
    ∃ s', Prog.exec (Fs.exec sb) (Code.namei cwd (Code.slash :: (files[k]).name)) s =
        .ok (some (k + 2), s') ∧ s'.disk = m.img ∧ 0 < (s'.icache (k + 2)).ref ∧
      Unlocked m.img (k + 2) (s'.icache (k + 2)) := by
  have hlen := length_entries files
  have hke : k + 2 < (entries files).length := by omega
  have hentry : (entries files)[k + 2] = ⟨k + 2, strncpy (files[k]).name DIRSIZ⟩ := by
    have := getElem_entries hk
    rw [getElem?_eq_getElem hke] at this
    exact Option.some.inj this
  have hroom : s.nused + 2 ≤ 50 := hs.room
  have htr := h.type_root
  -- the root directory is taken and locked
  obtain ⟨s1, hg1, hd1, hu1, hr1, hun1, hf1⟩ := iget_ok (hs.unlocked 1 (by decide))
    (show s.nused < 50 by omega)
  have hg1 : Prog.exec (Fs.exec sb) (Code.iget ROOTINO) s = .ok ((), s1) := by
    rw [Code.iget, Prog.exec_call]
    exact hg1
  have hdisk1 : s1.disk = m.img := hd1.trans hs.disk_eq
  obtain ⟨s2, hl2, hd2, hu2, hheld, hf2⟩ := ilock_ok hdisk1 (by decide) hun1 hr1
    (by rw [htr]; decide)
  have hdisk2 : s2.disk = m.img := hd2.trans hdisk1
  have hl2 : Prog.exec (Fs.exec sb) (Code.ilock ROOTINO) s1 = .ok ((), s2) := by
    rw [Code.ilock, Prog.exec_call]
    exact hl2
  have hst : Prog.exec (Fs.exec sb) (Code.stati ROOTINO) s2 =
      .ok (⟨T_DIR, (dinode sb m.img 1).nlink, (dinode sb m.img 1).size⟩, s2) := by
    rw [Code.stati, Prog.exec_call]
    show Except.ok (Attr.mk (s2.icache 1).d.type (s2.icache 1).d.nlink (s2.icache 1).d.size, s2) = _
    rw [hheld.copy, htr]
  -- the entry is found
  have hfar : k + 2 ≠ 1 := by omega
  have hsame : s2.icache (k + 2) = s.icache (k + 2) := (hf2 _ hfar).trans (hf1 _ hfar)
  have hunk : Unlocked m.img (k + 2) (s2.icache (k + 2)) := by
    rw [hsame]
    exact hs.unlocked _ (by omega)
  obtain ⟨s3, hg3, hd3, -, hr3, hun3, hf3⟩ := iget_ok hunk (show s2.nused < 50 by omega)
  have hcmp : ∀ (p : List UInt8), namecmp ((files[k]).name.take DIRSIZ) (strncpy p DIRSIZ) = 0 ↔
      strncpy (files[k]).name DIRSIZ = strncpy p DIRSIZ := fun p => by
    rw [namecmp, strncmp_strncpy, strncpy_take]
  have hlook : Prog.exec (Fs.exec sb) (Code.dirlookup ROOTINO ((files[k]).name.take DIRSIZ)) s2 =
      .ok (some (k + 2, 16 * (k + 2)), s3) := by
    have hnd := nodup_entries.mpr hnames
    have hpad : ∀ de ∈ entries files, ∃ p, de.name = strncpy p DIRSIZ := by
      intro de hde
      have := mem_map_of_mem (f := Dirent.name) hde
      rw [names_entries, mem_map] at this
      obtain ⟨p, -, hp⟩ := this
      exact ⟨p, hp.symm⟩
    rw [Code.dirlookup, Prog.exec_bind_ok hst, if_neg (fun hc => hc rfl)]
    have hfrom := h.dirlookupFrom_ok hn hdisk2 hheld ((files[k]).name.take DIRSIZ) hke
      (by rw [hentry]; exact (hcmp _).mpr rfl) ?_ (by rw [hentry]; exact hg3)
      ((dinode sb m.img 1).size / 16 + 1) 0 (Nat.zero_le _) (by rw [h.root]; omega)
    · rw [hentry] at hfrom
      exact hfrom
    · intro j hj hlt hc
      obtain ⟨p, hp⟩ := hpad _ (getElem_mem hj)
      rw [hp, hcmp, ← hp] at hc
      have hj' : j < ((entries files).map Dirent.name).length := by rwa [length_map]
      have hk' : k + 2 < ((entries files).map Dirent.name).length := by rwa [length_map]
      have heq : ((entries files).map Dirent.name)[j] =
          ((entries files).map Dirent.name)[k + 2] := by
        rw [getElem_map, getElem_map, hentry]
        exact hc.symm
      have := hnd.getElem_inj_iff.mp heq
      omega
  -- the root directory is given back
  have hheld3 : Held m.img 1 (s3.icache 1) := by
    rw [hf3 1 (by omega)]
    exact hheld
  have hroot : (filesOf files 1).type ≠ 0 := by
    rw [← h.type 1 (by decide), htr]
    decide
  obtain ⟨s4, hp4, hd4, hf4⟩ := iunlockput_ok hheld3 (by
    rw [h.nlink 1 (by decide) hroot]
    decide)
  have hp4 : Prog.exec (Fs.exec sb) (Code.iunlockput ROOTINO) s3 = .ok ((), s4) := hp4
  have hwalk : Prog.exec (Fs.exec sb) (Code.namexFrom false ((files[k]).name.length + 1 + 1) ROOTINO
      (Code.slash :: (files[k]).name)) s1 = .ok (some (k + 2, []), s4) := by
    rw [Code.namexFrom, skipelem_slash hslash hne]
    simp only
    rw [Prog.exec_bind_ok hl2, Prog.exec_bind_ok hst, if_neg (fun hc => hc rfl),
      if_neg (fun hc => Bool.false_ne_true hc.1), Prog.exec_bind_ok hlook]
    simp only
    rw [Prog.exec_bind_ok hp4]
    rfl
  have hnamex : Prog.exec (Fs.exec sb) (Code.namex cwd (Code.slash :: (files[k]).name) false) s =
      .ok (some (k + 2, []), s4) := by
    have hhead : (Code.slash :: (files[k]).name).head? = some Code.slash := rfl
    rw [Code.namex, if_pos hhead, Prog.exec_bind_ok hg1]
    exact hwalk
  refine ⟨s4, ?_, ?_, ?_, ?_⟩
  · rw [Code.namei, Prog.exec_bind_ok hnamex]
    rfl
  · rw [hd4, hd3, hdisk2]
  · rw [hf4 _ hfar]
    exact hr3
  · rw [hf4 _ hfar]
    exact hun3

theorem filesOf_file (hk : k < files.length) :
    filesOf files (k + 2) = ⟨T_FILE, 0, 0, 1, (files[k]).data⟩ := by
  rw [filesOf, if_neg (by omega), if_neg (by omega), Nat.add_sub_cancel, getElem?_eq_getElem hk]
  rfl

/-- **`readi` of a file**, once it is locked. -/
theorem read_file (h : Image files m) (hn : files.length ≤ 198) (hk : k < files.length)
    (hd : s.disk = m.img) (href : 0 < (s.icache (k + 2)).ref)
    (hu : Unlocked m.img (k + 2) (s.icache (k + 2))) {off n : ℕ}
    (hoff : off ≤ (files[k]).data.length) (hov : off + n < 2 ^ 32) :
    ∃ s', Prog.exec (Fs.exec sb) (do
        Code.ilock (k + 2)
        Code.readi (k + 2) off n) s = .ok (some (((files[k]).data.drop off).take n), s') := by
  have hfile := filesOf_file hk
  have hty : (filesOf files (k + 2)).type = T_FILE := by rw [hfile]
  have hsz : (dinode sb m.img (k + 2)).size = (files[k]).data.length := by
    rw [h.size _ (by omega) (by omega) (by rw [hty]; decide), hfile]
  obtain ⟨s1, hl, hd1, -, hheld, -⟩ := ilock_ok hd (by omega) hu href
    (by rw [h.type _ (by omega), hty]; decide)
  have hl : Prog.exec (Fs.exec sb) (Code.ilock (k + 2)) s = .ok ((), s1) := by
    rw [Code.ilock, Prog.exec_call]
    exact hl
  have hread := h.readi_ok (hd1.trans hd) (by omega) hheld (by rw [hty]; decide)
    (by rw [hty]; decide) (by rwa [hsz]) hov rfl (by
      rw [hsz, hfile]
      show off + _ ≤ (files[k]).data.length
      split <;> omega)
  refine ⟨s1, ?_⟩
  rw [Prog.exec_bind_ok hl, Code.readi, Prog.exec_call]
  refine hread.trans ?_
  rw [hfile, hsz]
  refine congrArg (fun b => Except.ok (some b, s1)) ?_
  show ((files[k]).data.drop off).take _ = _
  split
  · rw [take_of_length_le (by simp), take_of_length_le (by simp; omega)]
  · rfl

end Image

/-- **What `mkfs` writes the kernel reads back.** `mkfs` stores files that fit on the disk; on its
image `namei` finds each of them by its name, and `readi` returns its bytes. -/
theorem namei_reads {files : List HostFile} (hn : files.length + 2 ≤ NINODES)
    (hsize : ∀ f ∈ files, f.data.length ≤ MAXFILE * BSIZE)
    (hfit : nmeta + used sb (fun i => (filesOf files i).nblocks) ≤ FSSIZE)
    (hslash : ∀ f ∈ files, Code.slash ∉ f.arg) (hne : ∀ f ∈ files, f.name.take DIRSIZ ≠ [])
    (hnames : (names files).Nodup) :
    ∃ m, mkfs files = .ok m ∧ ∀ f ∈ files, ∀ s cwd, Idle m.img 2 s →
      ∃ i s', Prog.exec (Fs.exec sb) (Code.namei cwd (Code.slash :: f.name)) s = .ok (some i, s') ∧
        (dinode sb m.img i).type = T_FILE ∧ (dinode sb m.img i).size = f.data.length ∧
        ∀ off n, off ≤ f.data.length → off + n < 2 ^ 32 →
          ∃ s'', Prog.exec (Fs.exec sb) (do
              Code.ilock i
              Code.readi i off n) s' = .ok (some ((f.data.drop off).take n), s'') := by
  have hn : files.length ≤ 198 := by
    have : files.length + 2 ≤ 200 := hn
    omega
  have hlengths : ∀ i < 200, (filesOf files i).data.length ≤ 512 * 140 := by
    intro i _
    rcases eq_or_ne i 1 with rfl | h1
    · rw [length_root]
      omega
    rw [filesOf, if_neg h1]
    split
    · exact Nat.zero_le _
    · rcases hf : files[i - 2]? with _ | f
      · exact Nat.zero_le _
      · exact hsize f (mem_of_getElem? hf)
  have hfits : Fits (filesOf files) := by
    refine ⟨hlengths, ?_⟩
    have : 59 + used sb (fun i => (filesOf files i).nblocks) ≤ 1000 := hfit
    omega
  obtain ⟨m, hm⟩ := mkfs_ok hn hfits hslash
  have him := image_of_mkfs hn hm
  refine ⟨m, hm, fun f hf s cwd hs => ?_⟩
  obtain ⟨k, hk, rfl⟩ := mem_iff_getElem.mp hf
  have hname : (files[k]).name ≠ [] := by
    intro hc
    exact hne _ hf (by rw [hc]; rfl)
  have hns : Code.slash ∉ (files[k]).name := by
    rw [HostFile.name]
    split
    · exact fun hc => hslash _ hf (mem_of_mem_tail hc)
    · exact hslash _ hf
  have hfile := Image.filesOf_file hk
  have hty : (filesOf files (k + 2)).type = T_FILE := by rw [hfile]
  obtain ⟨s', hex, hd, href, hu⟩ := him.namei_ok hn hnames hk hname hns hs cwd
  refine ⟨k + 2, s', hex, ?_, ?_, fun off n hoff hov => him.read_file hn hk hd href hu hoff hov⟩
  · rw [him.type _ (by omega), hty]
  · rw [him.size _ (by omega) (by omega) (by rw [hty]; decide), hfile]

/-- The kernel after it has started, on this disk. -/
def booted (disk : Disk) : FsState where
  disk := disk
  icache _ := ⟨0, false, false, ⟨0, 0, 0, 0, 0, fun _ => 0⟩⟩
  nused := 0
  logged := []

theorem idle_booted (disk : Disk) : Idle disk 2 (booted disk) :=
  ⟨rfl, fun _ _ hc => absurd hc (Nat.lt_irrefl 0), show 0 + 2 ≤ 50 by decide⟩

/-- `/cat` is found, and its bytes from the second on are read. -/
theorem namei_reads_cat : ∃ m, mkfs [cat] = .ok m ∧
    ∃ i s', Prog.exec (Fs.exec sb) (Code.namei 1 (Code.slash :: cat.name)) (booted m.img) =
        .ok (some i, s') ∧ (dinode sb m.img i).type = T_FILE ∧
      ∃ s'', Prog.exec (Fs.exec sb) (do
          Code.ilock i
          Code.readi i 1 5) s' = .ok (some [2, 3], s'') := by
  have hlen : [cat].length + 2 ≤ NINODES := by decide
  obtain ⟨m, hm, h⟩ := namei_reads hlen (by decide) (by decide +kernel) (by decide) (by decide)
    (by decide)
  obtain ⟨i, s', hex, ht, -, hread⟩ := h cat mem_cons_self _ 1 (idle_booted m.img)
  exact ⟨m, hm, i, s', hex, ht, hread 1 5 (by decide) (by decide)⟩

end Mkfs

end Xv6
