import Mathlib.Data.List.TakeWhile
import Xv6.FileBytes
import Xv6.Edit

/-!
# A directory is a finite map

`dirlink`, `dirlookup` and the removal of an entry, in any sequence on one directory, as `fs.c`
computes them on the disk. The entries may name any inode number, whether there is such an inode or
not: a lookup only takes a reference to it.

* Names count up to `DIRSIZ` bytes, or up to the terminating zero. `Node.Distinct` says that no two
  entries in use have the same name, and every operation keeps it.
* `Fs.Framed` is the frame rule for `writei`: it looks at the cache entry of its own inode only, and
  not at its reference count. So the reference that the removal holds meanwhile does not matter.
* `dir_is_map`: **the directory is the map** that the successful operations make.
-/

namespace Xv6

open Function List Exec

/-! ## Entries -/

variable {j : ℕ}

namespace Node

/-- The name of entry `k`, padded. -/
def nameOf (x : Node) (k : ℕ) : List UInt8 := strncpy (x.entry k).name DIRSIZ

/-- Entry `k` is in use. -/
def Live (x : Node) (k : ℕ) : Prop := k < x.nslots ∧ (x.entry k).inum ≠ 0

/-- No two entries in use have the same name. -/
def Distinct (x : Node) : Prop := ∀ j k, x.Live j → x.Live k → x.nameOf j = x.nameOf k → j = k

/-- The inode that a name stands for. -/
def inumOf (x : Node) (name : List UInt8) : Option ℕ := (x.lookup name).map Prod.fst

section

variable {x : Node} {name : List UInt8} {inum k : ℕ}

theorem hasName_live (hk : k < x.nslots) :
    x.hasName name k = true ↔ x.Live k ∧ x.nameOf k = strncpy name DIRSIZ := by
  rw [hasName_iff, namecmp, strncmp_eq_zero, Live, nameOf]
  exact ⟨fun h => ⟨⟨hk, h.1⟩, h.2.symm⟩, fun h => ⟨h.1.2, h.2.symm⟩⟩

theorem inumOf_eq_none :
    x.inumOf name = none ↔ ∀ k, x.Live k → x.nameOf k ≠ strncpy name DIRSIZ := by
  rw [inumOf, Option.map_eq_none_iff, lookup_eq_none]
  constructor
  · intro h k hk heq
    have := h k hk.1
    rw [(hasName_live hk.1).mpr ⟨hk, heq⟩] at this
    cases this
  · intro h k hk
    by_contra hne
    obtain ⟨hlive, heq⟩ := (hasName_live hk).mp (Bool.eq_true_of_not_eq_false hne)
    exact h k hlive heq

theorem inumOf_eq_some (hd : x.Distinct) : x.inumOf name = some inum ↔
      ∃ k, x.Live k ∧ x.nameOf k = strncpy name DIRSIZ ∧ (x.entry k).inum = inum := by
  rw [inumOf, Option.map_eq_some_iff]
  constructor
  · rintro ⟨⟨i, off⟩, h, rfl⟩
    obtain ⟨k, hk, -, hi, hne, -, hcmp⟩ := lookup_eq_some h
    rw [namecmp, strncmp_eq_zero] at hcmp
    exact ⟨k, ⟨hk, hi ▸ hne⟩, hcmp.symm, hi⟩
  · rintro ⟨k, hlive, hname, rfl⟩
    refine ⟨((x.entry k).inum, 16 * k), ?_, rfl⟩
    have hslot : x.slotOf name = some k := by
      refine slotOf_eq_some.mpr ⟨hlive.1, (hasName_live hlive.1).mpr ⟨hlive, hname⟩, fun j hj => ?_⟩
      by_contra hne
      obtain ⟨hlive', hname'⟩ :=
        (hasName_live (hj.trans hlive.1)).mp (Bool.eq_true_of_not_eq_false hne)
      exact hj.ne (hd j k hlive' hlive (hname'.trans hname.symm))
    rw [lookup, hslot]
    rfl

/-- The entries before the first free place are in use. -/
theorem live_of_lt_freeSlot (hj : j < x.freeSlot) : x.Live j := by
  refine ⟨hj.trans_le x.freeSlot_le, fun h0 => ?_⟩
  have hex : ∃ k, (x.entry k).inum = 0 := ⟨j, h0⟩
  have hle : Nat.find hex ≤ j := Nat.find_min' hex h0
  have hfirst : x.freeSlot = Nat.find hex :=
    freeSlot_eq (hle.trans (hj.le.trans x.freeSlot_le)) (fun _ => Nat.find_spec hex)
      fun k hk => Nat.find_min hex hk
  omega

theorem not_live_freeSlot : ¬x.Live x.freeSlot := fun h => h.2 (entry_freeSlot h.1)

/-- The entries in use after `dirlink`. -/
theorem live_addEntry (h1 : 0 < inum) (h2 : inum < 65536) :
    (x.addEntry name inum).Live j ↔ j = x.freeSlot ∨ x.Live j := by
  have hle := x.freeSlot_le
  rw [Live, nslots_addEntry]
  rcases eq_or_ne j x.freeSlot with rfl | hne
  · rw [entry_addEntry_self h2]
    exact iff_of_true ⟨lt_max_of_lt_right (Nat.lt_succ_self _), h1.ne'⟩ (.inl rfl)
  · rw [entry_addEntry_ne hne, Live, or_iff_right hne]
    refine and_congr_left fun _ => ?_
    omega

theorem nameOf_addEntry_self (h2 : inum < 65536) :
    (x.addEntry name inum).nameOf x.freeSlot = strncpy name DIRSIZ := by
  rw [nameOf, entry_addEntry_self h2, strncpy_strncpy]

theorem nameOf_addEntry_ne (hj : j ≠ x.freeSlot) :
    (x.addEntry name inum).nameOf j = x.nameOf j := by
  rw [nameOf, entry_addEntry_ne hj, nameOf]

/-- A new name keeps the names distinct. -/
theorem Distinct.addEntry (hd : x.Distinct) (hnew : x.inumOf name = none) (h1 : 0 < inum)
    (h2 : inum < 65536) : (x.addEntry name inum).Distinct := by
  have hother : ∀ j, x.Live j → j ≠ x.freeSlot := by
    rintro j hj rfl
    exact not_live_freeSlot hj
  have hnew' := inumOf_eq_none.mp hnew
  intro j k hj hk heq
  rcases (live_addEntry h1 h2).mp hj with rfl | hj <;>
    rcases (live_addEntry h1 h2).mp hk with rfl | hk
  · rfl
  · rw [nameOf_addEntry_self h2, nameOf_addEntry_ne (hother k hk)] at heq
    exact absurd heq.symm (hnew' k hk)
  · rw [nameOf_addEntry_self h2, nameOf_addEntry_ne (hother j hj)] at heq
    exact absurd heq (hnew' j hj)
  · rw [nameOf_addEntry_ne (hother j hj), nameOf_addEntry_ne (hother k hk)] at heq
    exact hd j k hj hk heq

/-- What names stand for after `dirlink`. -/
theorem inumOf_addEntry (hd : x.Distinct) (hnew : x.inumOf name = none) (h1 : 0 < inum)
    (h2 : inum < 65536) (other : List UInt8) :
    (x.addEntry name inum).inumOf other =
      if strncpy other DIRSIZ = strncpy name DIRSIZ then some inum else x.inumOf other := by
  have hd' := hd.addEntry hnew h1 h2
  split
  · rename_i heq
    refine (inumOf_eq_some hd').mpr ⟨x.freeSlot, (live_addEntry h1 h2).mpr (.inl rfl), ?_, ?_⟩
    · rw [nameOf_addEntry_self h2, heq]
    · rw [entry_addEntry_self h2]
  rename_i hne
  refine Option.ext fun i => ?_
  rw [inumOf_eq_some hd', inumOf_eq_some hd]
  constructor
  · rintro ⟨k, hk, hname, hi⟩
    rcases (live_addEntry h1 h2).mp hk with rfl | hk
    · rw [nameOf_addEntry_self h2] at hname
      exact absurd hname.symm hne
    have hk' : k ≠ x.freeSlot := by
      rintro rfl
      exact not_live_freeSlot hk
    rw [nameOf_addEntry_ne hk'] at hname
    rw [entry_addEntry_ne hk'] at hi
    exact ⟨k, hk, hname, hi⟩
  · rintro ⟨k, hk, hname, hi⟩
    have hk' : k ≠ x.freeSlot := by
      rintro rfl
      exact not_live_freeSlot hk
    refine ⟨k, (live_addEntry h1 h2).mpr (.inr hk), ?_, ?_⟩
    · rwa [nameOf_addEntry_ne hk']
    · rwa [entry_addEntry_ne hk']

/-- The entries in use after a removal. -/
theorem live_clear (hk : k < x.nslots) : (x.clear k).Live j ↔ j ≠ k ∧ x.Live j := by
  rw [Live, nslots_clear hk]
  rcases eq_or_ne j k with rfl | hne
  · exact iff_of_false (fun h => h.2 (entry_clear_self hk)) fun h => h.1 rfl
  · rw [entry_clear_ne hk hne, Live]
    exact (and_iff_right hne).symm

theorem nameOf_clear (hk : k < x.nslots) (hj : j ≠ k) : (x.clear k).nameOf j = x.nameOf j := by
  rw [nameOf, entry_clear_ne hk hj, nameOf]

theorem Distinct.clear (hd : x.Distinct) (hk : k < x.nslots) : (x.clear k).Distinct := by
  intro i j hi hj heq
  obtain ⟨hik, hi⟩ := (live_clear hk).mp hi
  obtain ⟨hjk, hj⟩ := (live_clear hk).mp hj
  rw [nameOf_clear hk hik, nameOf_clear hk hjk] at heq
  exact hd i j hi hj heq

/-- What names stand for after a removal. -/
theorem inumOf_clear (hd : x.Distinct) (hslot : x.slotOf name = some k) (other : List UInt8) :
    (x.clear k).inumOf other =
      if strncpy other DIRSIZ = strncpy name DIRSIZ then none else x.inumOf other := by
  obtain ⟨hk, hhas, -⟩ := slotOf_eq_some.mp hslot
  obtain ⟨hlive, hname⟩ := (hasName_live hk).mp hhas
  split
  · rename_i heq
    refine inumOf_eq_none.mpr fun j hj hn => ?_
    obtain ⟨hjk, hj⟩ := (live_clear hk).mp hj
    rw [nameOf_clear hk hjk] at hn
    exact hjk (hd j k hj hlive (hn.trans (heq.trans hname.symm)))
  rename_i hne
  refine Option.ext fun i => ?_
  rw [inumOf_eq_some (hd.clear hk), inumOf_eq_some hd]
  constructor
  · rintro ⟨j, hj, hn, hi⟩
    obtain ⟨hjk, hj⟩ := (live_clear hk).mp hj
    rw [nameOf_clear hk hjk] at hn
    rw [entry_clear_ne hk hjk] at hi
    exact ⟨j, hj, hn, hi⟩
  · rintro ⟨j, hj, hn, hi⟩
    have hjk : j ≠ k := by
      rintro rfl
      exact hne (hn.symm.trans hname)
    refine ⟨j, (live_clear hk).mpr ⟨hjk, hj⟩, ?_, ?_⟩
    · rwa [nameOf_clear hk hjk]
    · rwa [entry_clear_ne hk hjk]

end

end Node

/-! ## The frame of `writei` -/

namespace Fs

open Exec

variable {sb : Superblock} {i : ℕ} {α β : Type}

/-- The state with other cache entries for all inodes but `i`, and another reference count for
`i`. -/
def frame (i : ℕ) (c : ℕ → Inode) (n r : ℕ) (s : FsState) : FsState :=
  { s with
    icache := fun j => if j = i then { s.icache i with ref := r } else c j
    nused := n }

variable {c : ℕ → Inode}

theorem frame_self {n r : ℕ} {s : FsState} :
    (frame i c n r s).icache i = { s.icache i with ref := r } := if_pos rfl

theorem frame_ne {n r : ℕ} {s : FsState} (hj : j ≠ i) :
    (frame i c n r s).icache j = c j := if_neg hj

/-- The computation looks at the cache entry of inode `i` only, and not at its reference count. -/
def Framed (i : ℕ) (m : FS α) : Prop :=
  ∀ s c n r, m (frame i c n r s) = (m s).map (Prod.map id (frame i c n r))

namespace Framed

theorem pure (a : α) : Framed i (pure a : FS α) := fun _ _ _ _ => rfl

theorem stop (e : Stop) : Framed i (stop e : FS α) := fun _ _ _ _ => rfl

theorem bind {m : FS α} {f : α → FS β} (hm : Framed i m) (hf : ∀ a, Framed i (f a)) :
    Framed i (m >>= f) := by
  intro s c n r
  rcases h : m s with e | ⟨a, s'⟩
  · have h' : m (frame i c n r s) = .error e := by
      rw [hm, h]
      rfl
    rw [bind_error h, bind_error h']
    rfl
  · have h' : m (frame i c n r s) = .ok (a, frame i c n r s') := by
      rw [hm, h]
      rfl
    rw [bind_ok h, bind_ok h', hf]

/-- Looking at the entry of the inode itself, not at its count. -/
theorem inode {f : Inode → FS β} (hf : ∀ e, Framed i (f e))
    (hr : ∀ e r, f { e with ref := r } = f e) : Framed i (Fs.inode i >>= f) := by
  intro s c n r
  rw [bind_inode, bind_inode, frame_self, hr, hf]

theorem bread (b : ℕ) : Framed i (Fs.bread b) := by
  intro s c n r
  rw [Fs.bread, Fs.bread]
  split <;> rfl

theorem logWrite (b : ℕ) (d : Block) : Framed i (Fs.logWrite b d) := fun _ _ _ _ => rfl

theorem setDinode (d : Dinode) : Framed i (Fs.setDinode i d) := by
  intro s c n r
  show Except.ok ((), _) = Except.ok ((), _)
  congr 2
  rw [frame, frame]
  simp only [FsState.mk.injEq, true_and, and_true, update_self, if_true]
  funext j
  rcases eq_or_ne j i with rfl | hne
  · simp
  · simp [hne]

theorem bzero (b : ℕ) : Framed i (Fs.bzero b) := (bread b).bind fun _ => logWrite b _

theorem ballocFrom : ∀ fuel k, Framed i (Fs.ballocFrom sb fuel k) := by
  intro fuel
  induction fuel with
  | zero => exact fun k => stop _
  | succ fuel ih =>
    intro k
    rw [Fs.ballocFrom]
    split
    · refine (bread _).bind fun bp => ?_
      split
      · exact (logWrite _ _).bind fun _ => (bzero _).bind fun _ => pure _
      · exact ih _
    · exact stop _

theorem balloc : Framed i (Fs.balloc sb) := ballocFrom _ _

theorem bmapDirect (k : ℕ) : Framed i (Fs.bmapDirect sb i k) := by
  refine inode (fun e => ?_) fun _ _ => rfl
  split
  · exact balloc.bind fun addr => (setDinode _).bind fun _ => pure _
  · exact pure _

theorem bmapEntry (ind j : ℕ) : Framed i (Fs.bmapEntry sb ind j) := by
  refine (bread _).bind fun bp => ?_
  split
  · exact balloc.bind fun addr => (logWrite _ _).bind fun _ => pure _
  · exact pure _

theorem bmap (bn : ℕ) : Framed i (Fs.bmap sb i bn) := by
  rw [Fs.bmap]
  split
  · exact bmapDirect _
  · split
    · exact (bmapDirect _).bind fun addr => bmapEntry _ _
    · exact stop _

theorem writeLoop : ∀ fuel off src, Framed i (Fs.writeLoop sb i fuel off src) := by
  intro fuel
  induction fuel with
  | zero => exact fun _ _ => pure _
  | succ fuel ih =>
    intro off src
    rw [Fs.writeLoop]
    split
    · exact pure _
    · exact (bmap _).bind fun addr => (bread _).bind fun bp => (logWrite _ _).bind fun _ => ih _ _

theorem iupdate : Framed i (Fs.iupdate sb i) :=
  inode (fun _ => (bread _).bind fun _ => logWrite _ _) fun _ _ => rfl

/-- **The frame rule for `writei`.** -/
theorem writei (off : ℕ) (src : List UInt8) : Framed i (Fs.writei sb i off src) := by
  refine inode (fun e => ?_) fun _ _ => rfl
  split
  · split <;> exact pure _
  show Framed i (if off > e.d.size ∨ off + src.length ≥ 2 ^ 32 then _ else _)
  split
  · exact pure _
  split
  · exact pure _
  refine (writeLoop _ _ _).bind fun _ => ?_
  split
  · exact inode (fun _ => (setDinode _).bind fun _ => iupdate.bind fun _ => pure _) fun _ _ => rfl
  · exact pure _

end Framed

end Fs

/-! ## References that are given back -/

/-- The states differ at most in cache entries that nobody holds. -/
structure Touched (s s' : FsState) : Prop where
  disk : s'.disk = s.disk
  nused : s'.nused = s.nused
  ref : ∀ j, (s'.icache j).ref = (s.icache j).ref
  held : ∀ j, 0 < (s.icache j).ref → s'.icache j = s.icache j

section Touched

variable {sb : Superblock} {s s' : FsState} {i : ℕ}

theorem Touched.inv (h : Touched s s') (hinv : Inv sb s) : Inv sb s' := by
  constructor
  case own =>
    rw [h.disk]
    exact hinv.own
  case size =>
    rw [h.disk]
    exact hinv.size
  case cached =>
    intro j hj href
    rw [h.ref] at href
    rw [h.held j href, h.disk]
    exact hinv.cached j hj href
  case locked =>
    intro j hj href
    rw [h.ref] at href
    rw [h.held j href]
    exact hinv.locked j hj href
  case linked =>
    intro j hj href
    rw [h.ref] at href
    rw [h.held j href, h.disk]
    exact hinv.linked j hj href
  case nused =>
    rw [h.nused, hinv.nused]
    simp only [h.ref]

theorem Touched.locked (h : Touched s s') (hl : FileLocked sb s i) : FileLocked sb s' i := by
  refine ⟨hl.lt, ?_, ?_, ?_⟩
  · rw [h.ref]
    exact hl.ref
  · rw [h.held i hl.ref]
    exact hl.busy
  · rw [h.disk]
    exact hl.type

/-- Giving back a reference that is not the last, or the last to an inode that was not read. -/
theorem iput_drop (h : ¬((s.icache j).ref = 1 ∧ (s.icache j).valid = true)) :
    Fs.iput sb j s = .ok ((), { s with
      icache := update s.icache j { s.icache j with ref := (s.icache j).ref - 1 }
      nused := if (s.icache j).ref = 1 then s.nused - 1 else s.nused }) := by
  rw [Fs.iput, Fs.bind_inode, if_neg fun hc => h ⟨hc.1, hc.2.1⟩]
  rfl

/-- Taking a reference changes the count, and of an inode that nobody held the whole entry. -/
theorem iget_cases (hget : Fs.iget j s = .ok ((), s')) :
    ∃ e n, s' = { s with icache := update s.icache j e, nused := n } ∧
      e.ref = (s.icache j).ref + 1 ∧ ¬(e.ref = 1 ∧ e.valid = true) ∧
      (0 < (s.icache j).ref → e = { s.icache j with ref := (s.icache j).ref + 1 }) ∧
      (if e.ref = 1 then n - 1 else n) = s.nused := by
  rw [Fs.iget, Fs.bind_inode] at hget
  split at hget
  · rename_i hpos
    cases hget
    refine ⟨{ s.icache j with ref := (s.icache j).ref + 1 }, s.nused, rfl, rfl, ?_,
      fun _ => rfl, ?_⟩
    · rintro ⟨h1, -⟩
      exact hpos.ne' (Nat.succ.inj h1)
    · exact if_neg fun h1 => hpos.ne' (Nat.succ.inj h1)
  rename_i hpos
  obtain ⟨n, s1, hn, hget⟩ := ok_of_bind hget
  cases hn
  split at hget
  · cases hget
    have h0 : (s.icache j).ref = 0 := Nat.eq_zero_of_not_pos hpos
    refine ⟨{ s.icache j with ref := 1, busy := false, valid := false }, s.nused + 1, rfl, ?_, ?_,
      fun h => absurd h hpos, ?_⟩
    · rw [h0]
    · rintro ⟨-, hv⟩
      cases hv
    · exact if_pos rfl
  · cases hget

/-- There is a reference to be had to an inode in the cache, or if there is a free entry. -/
theorem iget_returns (h : 0 < (s.icache j).ref ∨ s.nused < NINODE) :
    ∃ s', Fs.iget j s = .ok ((), s') := by
  rw [Fs.iget, Fs.bind_inode]
  by_cases hpos : 0 < (s.icache j).ref
  · rw [if_pos hpos]
    exact ⟨_, rfl⟩
  · have hn : (Exec.gets (fun t : FsState => t.nused) : FS ℕ) s = .ok (s.nused, s) := rfl
    rw [if_neg hpos, bind_ok hn, if_pos (h.resolve_left hpos)]
    exact ⟨_, rfl⟩

variable (sb) in
/-- A reference to inode `j` is taken, inode `i` is worked on, and the reference is given back: what
remains is the work. -/
theorem iget_frame (hi : 0 < (s.icache i).ref) (hget : Fs.iget j s = .ok ((), s')) :
    ∃ c n r, s' = Fs.frame i c n r s ∧
      ∀ t : FsState, (∀ k, k ≠ i → t.icache k = s.icache k) → t.nused = s.nused →
        (t.icache i).ref = (s.icache i).ref →
        ∃ t', Fs.iput sb j (Fs.frame i c n r t) = .ok ((), t') ∧ Touched t t' := by
  obtain ⟨e, n, rfl, href, hlast, hhit, hn⟩ := iget_cases hget
  refine ⟨update s.icache j e, n, (update s.icache j e i).ref, ?_, ?_⟩
  · rw [Fs.frame]
    congr 1
    funext k
    rcases eq_or_ne k i with rfl | hk
    · rcases eq_or_ne k j with rfl | hne
      · rw [if_pos rfl, update_self, hhit hi]
      · rw [if_pos rfl, update_of_ne hne]
    · rw [if_neg hk]
  intro t hothers hused hcount
  have hcounts : (t.icache j).ref = (s.icache j).ref := by
    rcases eq_or_ne j i with rfl | hne
    · exact hcount
    · rw [hothers j hne]
  generalize hu : Fs.frame i (update s.icache j e) n (update s.icache j e i).ref t = u
  have hk : ∀ k, k ≠ j → u.icache k = t.icache k := by
    intro k hkj
    rw [← hu]
    rcases eq_or_ne k i with rfl | hki
    · rw [Fs.frame_self, update_of_ne hkj, ← hcount]
    · rw [Fs.frame_ne hki, update_of_ne hkj, hothers k hki]
  have hj : (u.icache j).ref = e.ref ∧ ¬(e.ref = 1 ∧ (u.icache j).valid = true) ∧
      (0 < (s.icache j).ref → u.icache j = { t.icache j with ref := e.ref }) := by
    rw [← hu]
    rcases eq_or_ne j i with rfl | hji
    · rw [Fs.frame_self, update_self]
      exact ⟨rfl, fun h => hi.ne' (by omega), fun _ => rfl⟩
    · rw [Fs.frame_ne hji, update_self, hothers j hji]
      exact ⟨rfl, hlast, fun hpos => href ▸ hhit hpos⟩
  obtain ⟨hj, hnot, hback⟩ := hj
  rw [← hj] at hnot
  refine ⟨_, iput_drop hnot, ?_, ?_, fun k => ?_, fun k hpos => ?_⟩
  · rw [← hu]
    rfl
  · rw [hused, ← hn, hj, ← hu]
    rfl
  · show (update u.icache j _ k).ref = _
    rcases eq_or_ne k j with rfl | hkj
    · rw [update_self, hcounts]
      show (u.icache k).ref - 1 = _
      rw [hj, href, Nat.add_sub_cancel]
    · rw [update_of_ne hkj, hk k hkj]
  show update u.icache j _ k = _
  rcases eq_or_ne k j with rfl | hkj
  · rw [update_self, hback (hcounts ▸ hpos), href, ← hcounts]
    rfl
  · rw [update_of_ne hkj, hk k hkj]

end Touched

/-! ## The code on a directory -/

variable {src : List UInt8}

/-- A write that returns a number has written. -/
theorem written_of_writei {sb : Superblock} {s s' : FsState} {i off m : ℕ}
    (L : Layout sb) (h : Inv sb s) (hl : FileLocked sb s i)
    (hw : Fs.writei sb i off src s = .ok (some m, s')) : Written sb i off src s s' := by
  by_cases hbad : off ≤ (contents sb s i).length ∧ off + src.length ≤ MAXFILE * BSIZE
  swap
  · rw [writei_fails h hl hbad] at hw
    cases hw
  by_cases hroom : Room sb s i (off + src.length)
  · obtain ⟨s1, hs1, hwritten⟩ := writei_ok L h hl hbad.1 hbad.2 hroom
    rw [hs1] at hw
    cases hw
    exact hwritten
  · rw [writei_full L h hl hbad.1 hbad.2 hroom] at hw
    cases hw

/-- The directory is locked, and its entries are whole. -/
structure DirLocked (sb : Superblock) (s : FsState) (dp : ℕ) : Prop where
  inv : Inv sb s
  file : FileLocked sb s dp
  dir : (dinode sb s.disk dp).type = T_DIR
  whole : 16 ∣ (contents sb s dp).length

/-- Take the reference that `dirlookup` returns. -/
def Fs.taken : Option (ℕ × ℕ) → FS (Option (ℕ × ℕ))
  | none => pure none
  | some (i, off) => do
    Fs.iget i
    return some (i, off)

theorem taken_ok {found res : Option (ℕ × ℕ)} {s s' : FsState}
    (h : Fs.taken found s = .ok (res, s')) : res = found := by
  cases found with
  | none =>
    cases h
    rfl
  | some p =>
    obtain ⟨⟨⟩, s1, -, h⟩ := ok_of_bind h
    cases h
    rfl

namespace Code

/-- The part of `sys_unlink` that removes an entry, with the directory locked. The inode it names
is given back; its link count is not looked at. -/
def removeEntry (dp : ℕ) (name : List UInt8) : Code ℤ := do
  -- Cannot unlink "." or "..".
  if namecmp name dot = 0 ∨ namecmp name dotdot = 0 then return -1
  else
    match ← dirlookup dp name with
    | none => return -1
    | some (i, off) =>
      let w ← writei dp off (List.replicate 16 0)
      if w = some 16 then
        iput i
        return 0
      else panic "unlink: writei"

end Code

variable {r : ℤ}

section Directory

variable {sb : Superblock} {s s' : FsState} {dp : ℕ} {name : List UInt8}

/-- The file as a node. -/
def dirOf (sb : Superblock) (s : FsState) (dp : ℕ) : Node := nodeOf sb s.disk dp

theorem readDirent_eq (L : Layout sb) (h : DirLocked sb s dp) {k : ℕ}
    (hk : k < (dirOf sb s dp).nslots) (msg : String) :
    Prog.exec (Fs.exec sb) (Code.readDirent dp (16 * k) msg) s =
      .ok ((dirOf sb s dp).entry k, s) := by
  have hlen : 16 * k + 16 ≤ (contents sb s dp).length := by
    have : k < (contents sb s dp).length / 16 := hk
    omega
  have hsize : (contents sb s dp).length ≤ 512 * 140 := by
    rw [h.file.length]
    exact h.inv.size dp h.file.lt h.file.used
  have hread : Prog.exec (Fs.exec sb) (Code.readi dp (16 * k) 16) s =
      .ok (some (((contents sb s dp).drop (16 * k)).take 16), s) := by
    rw [Code.readi, Prog.exec_call]
    refine (readi_eq L h.inv h.file _ _).trans ?_
    rw [if_pos ⟨by omega, by omega⟩]
  rw [Code.readDirent, Prog.exec_bind_ok hread]
  have hlen' : (((contents sb s dp).drop (16 * k)).take 16).length = 16 := by
    rw [length_take, length_drop]
    omega
  simp only [hlen', if_true]
  rfl

theorem dirlookupFrom_eq (L : Layout sb) (h : DirLocked sb s dp) : ∀ (fuel k : ℕ),
    (dirOf sb s dp).nslots < fuel + k → (∀ j < k, (dirOf sb s dp).hasName name j = false) →
    Prog.exec (Fs.exec sb) (Code.dirlookupFrom dp (contents sb s dp).length name fuel (16 * k)) s =
      Fs.taken ((dirOf sb s dp).lookup name) s := by
  intro fuel
  have hnone : ∀ k, (dirOf sb s dp).nslots ≤ k →
      (∀ j < k, (dirOf sb s dp).hasName name j = false) →
      Except.ok (none, s) = Fs.taken ((dirOf sb s dp).lookup name) s := by
    intro k hle hj
    rw [Node.lookup_eq_none.mpr fun j hlt => hj j (hlt.trans_le hle)]
    rfl
  induction fuel with
  | zero => exact fun k hfuel hj => hnone k (by omega) hj
  | succ fuel ih =>
    intro k hfuel hj
    rw [Code.dirlookupFrom]
    by_cases hlt : k < (dirOf sb s dp).nslots
    swap
    · have hoff : ¬16 * k < (contents sb s dp).length := by
        have := h.whole
        have : ¬k < (contents sb s dp).length / 16 := hlt
        omega
      rw [if_neg hoff]
      exact hnone k (not_lt.mp hlt) hj
    have hoff : 16 * k < (contents sb s dp).length := by
      have : k < (contents sb s dp).length / 16 := hlt
      omega
    rw [if_pos hoff, Prog.exec_bind_ok (readDirent_eq L h hlt _)]
    -- an entry that does not match: go on
    have hnext : (dirOf sb s dp).hasName name k = false → Prog.exec (Fs.exec sb)
        (Code.dirlookupFrom dp (contents sb s dp).length name fuel (16 * k + 16)) s =
          Fs.taken ((dirOf sb s dp).lookup name) s := by
      intro hno
      refine ih (k + 1) (by omega) fun j hjk => ?_
      rcases Nat.lt_succ_iff_lt_or_eq.mp hjk with hlt' | rfl
      · exact hj j hlt'
      · exact hno
    by_cases h0 : ((dirOf sb s dp).entry k).inum = 0
    · rw [if_pos h0]
      exact hnext (decide_eq_false fun hc => hc.1 h0)
    rw [if_neg h0]
    by_cases hcmp : namecmp name ((dirOf sb s dp).entry k).name = 0
    · have hslot : (dirOf sb s dp).slotOf name = some k :=
        Node.slotOf_eq_some.mpr ⟨hlt, Node.hasName_iff.mpr ⟨h0, hcmp⟩, hj⟩
      rw [if_pos hcmp, Node.lookup, hslot, Prog.exec_bind]
      refine congrFun (congrArg₂ _ (funext fun t => ?_) rfl) s
      exact Prog.exec_call ..
    · rw [if_neg hcmp]
      exact hnext (decide_eq_false fun hc => hcmp hc.2)

theorem stati_eq (h : DirLocked sb s dp) : ∃ nlink, Prog.exec (Fs.exec sb) (Code.stati dp) s =
      .ok (⟨T_DIR, nlink, (contents sb s dp).length⟩, s) := by
  refine ⟨(s.icache dp).d.nlink, ?_⟩
  rw [Code.stati, Prog.exec_call, ← h.file.size_eq h.inv, ← h.dir, ← h.file.cached h.inv]
  rfl

section

variable (L : Layout sb) (h : DirLocked sb s dp)

include L h

/-- **`dirlookup`** takes a reference to what the first entry with the name says. -/
theorem dirlookup_eq (name : List UInt8) : Prog.exec (Fs.exec sb) (Code.dirlookup dp name) s =
      Fs.taken ((dirOf sb s dp).lookup name) s := by
  obtain ⟨nlink, hst⟩ := stati_eq h
  rw [Code.dirlookup, Prog.exec_bind_ok hst]
  rw [if_neg (fun hc : T_DIR ≠ T_DIR => hc rfl)]
  refine dirlookupFrom_eq (k := 0) L h _ ?_ fun j hj => absurd hj (Nat.not_lt_zero j)
  rw [Node.nslots]
  exact Nat.lt_succ_self _

theorem emptyFrom_eq : ∀ (fuel k : ℕ),
    (dirOf sb s dp).nslots < fuel + k → k ≤ (dirOf sb s dp).nslots →
    (∀ j < k, ((dirOf sb s dp).entry j).inum ≠ 0) →
    Prog.exec (Fs.exec sb) (Code.emptyFrom dp (contents sb s dp).length fuel (16 * k)) s =
      .ok (16 * (dirOf sb s dp).freeSlot, s) := by
  intro fuel
  induction fuel with
  | zero =>
    intro k hfuel hle
    omega
  | succ fuel ih =>
    intro k hfuel hle hj
    rw [Code.emptyFrom]
    by_cases hlt : k < (dirOf sb s dp).nslots
    swap
    · have hoff : ¬16 * k < (contents sb s dp).length := by
        have := h.whole
        have : ¬k < (contents sb s dp).length / 16 := hlt
        omega
      rw [if_neg hoff, Node.freeSlot_eq hle (fun hc => absurd hc hlt) hj]
      rfl
    have hoff : 16 * k < (contents sb s dp).length := by
      have : k < (contents sb s dp).length / 16 := hlt
      omega
    rw [if_pos hoff, Prog.exec_bind_ok (readDirent_eq L h hlt _)]
    by_cases h0 : ((dirOf sb s dp).entry k).inum = 0
    · rw [if_pos h0, Node.freeSlot_eq hle (fun _ => h0) hj]
      rfl
    rw [if_neg h0]
    refine ih (k + 1) (by omega) hlt fun j hjk => ?_
    rcases Nat.lt_succ_iff_lt_or_eq.mp hjk with hlt' | rfl
    · exact hj j hlt'
    · exact h0

/-- A name that is there: the reference is given back. -/
theorem dirlink_present {i off : ℕ}
    (hp : (dirOf sb s dp).lookup name = some (i, off)) {s1 : FsState}
    (hget : Fs.iget i s = .ok ((), s1)) (inum : ℕ) :
    ∃ s', Prog.exec (Fs.exec sb) (Code.dirlink dp name inum) s = .ok (-1, s') ∧ Touched s s' := by
  obtain ⟨c, n, r, rfl, hput⟩ := iget_frame sb h.file.ref hget
  obtain ⟨s', hs', htouched⟩ := hput s (fun _ _ => rfl) rfl rfl
  refine ⟨s', ?_, htouched⟩
  have hlook : Prog.exec (Fs.exec sb) (Code.dirlookup dp name) s =
      .ok (some (i, off), Fs.frame dp c n r s) := by
    rw [dirlookup_eq L h, hp, Fs.taken, bind_ok hget]
    rfl
  have hcall : Prog.exec (Fs.exec sb) (Code.iput i) (Fs.frame dp c n r s) = .ok ((), s') := by
    rw [Code.iput, Prog.exec_call]
    exact hs'
  rw [Code.dirlink, Prog.exec_bind_ok hlook]
  exact Prog.exec_bind_ok hcall

end

/-- The bytes of a new entry. -/
abbrev newEntry (name : List UInt8) (inum : ℕ) : List UInt8 :=
  Dirent.bytes ⟨inum, strncpy name DIRSIZ⟩

/-- A new name: an entry is written. -/
theorem dirlink_absent (L : Layout sb) (h : DirLocked sb s dp)
    (hp : (dirOf sb s dp).lookup name = none) (inum : ℕ) :
    Prog.exec (Fs.exec sb) (Code.dirlink dp name inum) s =
      (Fs.writei sb dp (16 * (dirOf sb s dp).freeSlot) (newEntry name inum) >>= fun w =>
        if w = some 16 then pure 0 else Exec.stop (.panic "dirlink")) s := by
  have hlook : Prog.exec (Fs.exec sb) (Code.dirlookup dp name) s = .ok (none, s) := by
    rw [dirlookup_eq L h, hp]
    rfl
  obtain ⟨nlink, hst⟩ := stati_eq h
  have hempty : Prog.exec (Fs.exec sb) (Code.emptyFrom dp (contents sb s dp).length
      ((contents sb s dp).length / 16 + 1) 0) s = .ok (16 * (dirOf sb s dp).freeSlot, s) :=
    emptyFrom_eq (k := 0) L h _ (Nat.lt_succ_self _) (Nat.zero_le _) fun j hj =>
      absurd hj (Nat.not_lt_zero j)
  rw [Code.dirlink, Prog.exec_bind_ok hlook]
  refine (Prog.exec_bind_ok hst).trans ?_
  refine (Prog.exec_bind_ok hempty).trans ?_
  rw [Prog.exec_bind]
  refine congrFun (congrArg₂ _ (funext fun t => Prog.exec_call ..) (funext fun w => ?_)) s
  split <;> rfl

/-- **`dirlink`** answers -1 if the name is there, and otherwise writes the entry. -/
theorem dirlink_cases (L : Layout sb) (h : DirLocked sb s dp) {inum : ℕ}
    (hrun : Prog.exec (Fs.exec sb) (Code.dirlink dp name inum) s = .ok (r, s')) :
    (r = -1 ∧ (dirOf sb s dp).inumOf name ≠ none ∧ Touched s s') ∨
      (r = 0 ∧ (dirOf sb s dp).inumOf name = none ∧
        Written sb dp (16 * (dirOf sb s dp).freeSlot) (newEntry name inum) s s') := by
  rcases hp : (dirOf sb s dp).lookup name with _ | ⟨i, off⟩
  · right
    rw [dirlink_absent L h hp] at hrun
    obtain ⟨w, s1, hw, hrun⟩ := ok_of_bind hrun
    split at hrun
    swap
    · cases hrun
    cases hrun
    rename_i hw16
    subst hw16
    refine ⟨rfl, by rw [Node.inumOf, hp]; rfl, ?_⟩
    exact written_of_writei L h.inv h.file hw
  · left
    rcases hget : Fs.iget i s with e | ⟨⟨⟩, s1⟩
    · rw [Code.dirlink, Prog.exec_bind] at hrun
      obtain ⟨a, s1, ha, -⟩ := ok_of_bind hrun
      rw [dirlookup_eq L h, hp, Fs.taken, bind_error hget] at ha
      cases ha
    · obtain ⟨s2, hs2, htouched⟩ := dirlink_present L h hp hget inum
      rw [hs2] at hrun
      cases hrun
      exact ⟨rfl, by rw [Node.inumOf, hp]; exact Option.some_ne_none _, htouched⟩

/-- `writei` leaves the cache entries of other inodes alone. -/
theorem writei_others {i off : ℕ} {w : Option ℕ} (hw : Fs.writei sb i off src s = .ok (w, s')) :
    (∀ k, k ≠ i → s'.icache k = s.icache k) ∧ s'.nused = s.nused ∧
      (s'.icache i).ref = (s.icache i).ref := by
  have hs : Fs.frame i s.icache s.nused (s.icache i).ref s = s := by
    rw [Fs.frame]
    congr 1
    funext k
    by_cases hk : k = i
    · rw [if_pos hk, hk]
    · rw [if_neg hk]
  have hframed : Fs.Framed i (Fs.writei sb i off src) := Fs.Framed.writei off src
  have hs' := hframed s s.icache s.nused (s.icache i).ref
  rw [hs, hw] at hs'
  have heq : s' = Fs.frame i s.icache s.nused (s.icache i).ref s' :=
    congrArg Prod.snd (Except.ok.inj hs')
  rw [heq]
  refine ⟨fun k hk => Fs.frame_ne hk, rfl, ?_⟩
  rw [Fs.frame_self]

/-- **The removal of an entry** clears the first one with the name. -/
theorem removeEntry_cases (L : Layout sb) (h : DirLocked sb s dp)
    (hrun : Prog.exec (Fs.exec sb) (Code.removeEntry dp name) s = .ok (r, s')) :
    (r = -1 ∧ s' = s) ∨
      (r = 0 ∧ ∃ k s1, (dirOf sb s dp).slotOf name = some k ∧
        Written sb dp (16 * k) (List.replicate 16 0) s s1 ∧ Touched s1 s') := by
  rw [Code.removeEntry] at hrun
  split at hrun
  · cases hrun
    exact .inl ⟨rfl, rfl⟩
  rw [Prog.exec_bind] at hrun
  obtain ⟨found, s1, hlook, hrun⟩ := ok_of_bind hrun
  rw [dirlookup_eq L h] at hlook
  rcases hp : (dirOf sb s dp).lookup name with _ | ⟨i, off⟩ <;> rw [hp] at hlook
  · cases hlook
    cases hrun
    exact .inl ⟨rfl, rfl⟩
  right
  obtain ⟨k, -, hslot, -, -, rfl, -⟩ := Node.lookup_eq_some hp
  obtain ⟨⟨⟩, s2, hget, hlook⟩ := ok_of_bind hlook
  cases hlook
  obtain ⟨c, n, q, rfl, hput⟩ := iget_frame sb h.file.ref hget
  -- the write, with and without the reference
  rw [Prog.exec_bind] at hrun
  obtain ⟨w, s2, hw, hrun⟩ := ok_of_bind hrun
  by_cases h16 : w = some 16
  swap
  · rw [if_neg h16] at hrun
    cases hrun
  rw [h16, if_pos rfl] at hrun
  rw [Code.writei, Prog.exec_call, h16] at hw
  change Fs.writei sb dp (16 * k) (List.replicate 16 0) (Fs.frame dp c n q s) = _ at hw
  rw [Fs.Framed.writei] at hw
  rcases hw' : Fs.writei sb dp (16 * k) (List.replicate 16 0) s with e | ⟨w', t⟩
  · rw [hw'] at hw
    cases hw
  rw [hw'] at hw
  cases hw
  obtain ⟨hothers, hused, hcount⟩ := writei_others hw'
  obtain ⟨t', ht', htouched⟩ := hput t hothers hused hcount
  have hcall : Prog.exec (Fs.exec sb) (Code.iput i) (Fs.frame dp c n q t) = .ok ((), t') := by
    rw [Code.iput, Prog.exec_call]
    exact ht'
  have hend := (Prog.exec_bind_ok (f := fun _ => (pure 0 : Code ℤ)) hcall).symm.trans hrun
  cases hend
  exact ⟨rfl, k, t, hslot, written_of_writei L h.inv h.file hw', htouched⟩

theorem DirLocked.touched (h : DirLocked sb s dp) (ht : Touched s s') : DirLocked sb s' dp := by
  refine ⟨ht.inv h.inv, ht.locked h.file, ?_, ?_⟩
  · rw [ht.disk]
    exact h.dir
  · rw [contents, ht.disk]
    exact h.whole

theorem DirLocked.written (h : DirLocked sb s dp) {k : ℕ}
    (hk : 16 * k ≤ (contents sb s dp).length) (hsrc : src.length = 16)
    (hw : Written sb dp (16 * k) src s s') : DirLocked sb s' dp := by
  refine ⟨hw.inv, hw.locked h.file, ?_, ?_⟩
  · rw [← nodeOf_type, hw.node]
    exact (nodeOf_type ..).trans h.dir
  have hlen : (contents sb s' dp).length = max (contents sb s dp).length (16 * k + src.length) := by
    rw [contents, hw.node]
    exact Store.length_overwrite hk
  have := h.whole
  rw [hlen, hsrc]
  omega

theorem Written.nused_eq {i off : ℕ} (hw : Written sb i off src s s')
    (h : Inv sb s) : s'.nused = s.nused := by
  rw [hw.inv.nused, h.nused]
  refine congrArg Finset.card (Finset.filter_congr fun j hj => ?_)
  rw [(hw.held j (Finset.mem_range.mp hj)).1]

end Directory

/-! ## The map -/

/-- A name as far as it counts: up to a zero, and `DIRSIZ` bytes of it. -/
def cut (name : List UInt8) : List UInt8 := (name.takeWhile (· ≠ 0)).take DIRSIZ

/-- Padded names are equal if the names are, as far as they count. -/
theorem strncpy_eq_iff : ∀ (n : ℕ) (p q : List UInt8), strncpy p n = strncpy q n ↔
    (p.takeWhile (· ≠ 0)).take n = (q.takeWhile (· ≠ 0)).take n := by
  intro n
  induction n with
  | zero =>
    intro p q
    exact iff_of_true rfl rfl
  | succ n ih =>
    -- a string is empty or starts with a byte that is not zero
    have hstr : ∀ p : List UInt8,
        (p.takeWhile (· ≠ 0) = [] ∧ strncpy p (n + 1) = 0 :: List.replicate n 0) ∨
          ∃ a p', a ≠ 0 ∧ p.takeWhile (· ≠ 0) = a :: p'.takeWhile (· ≠ 0) ∧
            strncpy p (n + 1) = a :: strncpy p' n := by
      intro p
      cases p with
      | nil => exact .inl ⟨rfl, rfl⟩
      | cons a p =>
        by_cases ha : a = 0
        · subst ha
          exact .inl ⟨rfl, rfl⟩
        · refine .inr ⟨a, p, ha, by simp [ha], ?_⟩
          simp [strncpy, ha]
    intro p q
    rcases hstr p with ⟨hp, hp'⟩ | ⟨a, p', ha, hp, hp'⟩ <;>
      rcases hstr q with ⟨hq, hq'⟩ | ⟨b, q', hb, hq, hq'⟩ <;> rw [hp, hq, hp', hq']
    · exact iff_of_true rfl rfl
    · refine iff_of_false (fun h => ?_) fun h => ?_
      · exact hb (List.cons.inj h).1.symm
      · cases h
    · refine iff_of_false (fun h => ?_) fun h => ?_
      · exact ha (List.cons.inj h).1
      · cases h
    · rw [take_succ_cons, take_succ_cons, List.cons.injEq, List.cons.injEq, ih]

theorem cut_eq_iff {p q : List UInt8} :
    cut p = cut q ↔ strncpy p DIRSIZ = strncpy q DIRSIZ := (strncpy_eq_iff ..).symm

theorem cut_cut (p : List UInt8) : cut (cut p) = cut p := by
  have hall : ∀ a ∈ cut p, decide (a ≠ 0) = true := by
    intro a ha
    rw [cut] at ha
    have hne := mem_takeWhile_imp (mem_of_mem_take ha)
    exact hne
  rw [cut, takeWhile_eq_self_iff.mpr hall, cut, take_take, min_self]

/-- An operation on the directory. -/
inductive DirOp : Type where
  | link (name : List UInt8) (inum : ℕ)
  | unlink (name : List UInt8)
  deriving DecidableEq, Repr

namespace DirOp

/-- What it runs. -/
def code (dp : ℕ) : DirOp → Code ℤ
  | link name inum => Code.dirlink dp name inum
  | unlink name => Code.removeEntry dp name

def name : DirOp → List UInt8
  | link name _ => name
  | unlink name => name

/-- What the name stands for once it succeeds. -/
def binds : DirOp → Option ℕ
  | link _ inum => some inum
  | unlink _ => none

/-- Inode numbers are not 0, which marks a free entry, and have 16 bits. -/
def Ok : DirOp → Prop
  | link _ inum => 1 ≤ inum ∧ inum < 65536
  | unlink _ => True

end DirOp

/-- What a name stands for after the operations, the latest first: what the last one that
succeeded on it says, or what it stood for before. -/
def binding (m : List UInt8 → Option ℕ) : List (DirOp × ℤ) → List UInt8 → Option ℕ
  | [], key => m key
  | (op, r) :: older, key =>
    if r = 0 ∧ cut op.name = key then op.binds else binding m older key

/-- The file system, with the operations done on the directory and their results. -/
structure DirSys where
  fs : FsState
  done : List (DirOp × ℤ)

namespace DirSys

variable {sb : Superblock} {dp : ℕ} {x0 : Node} {s s' : DirSys} {op : DirOp}

/-- The next operation. -/
def step (sb : Superblock) (dp : ℕ) (s : DirSys) (op : DirOp) : Except Stop DirSys :=
  match Prog.exec (Fs.exec sb) (op.code dp) s.fs with
  | .ok (r, fs) => .ok ⟨fs, (op, r) :: s.done⟩
  | .error e => .error e

/-- The directory. -/
def dir (sb : Superblock) (dp : ℕ) (s : DirSys) : Node := dirOf sb s.fs dp

/-- The directory, which was `x0` before, is the map that the operations make. -/
structure IsMap (sb : Superblock) (dp : ℕ) (x0 : Node) (s : DirSys) : Prop where
  locked : DirLocked sb s.fs dp
  distinct : (s.dir sb dp).Distinct
  inumOf_eq : ∀ name, (s.dir sb dp).inumOf name = binding x0.inumOf s.done (cut name)

theorem step_of_ok {fs : FsState} (h : Prog.exec (Fs.exec sb) (op.code dp) s.fs = .ok (r, fs)) :
    s.step sb dp op = .ok ⟨fs, (op, r) :: s.done⟩ := by
  rw [step, h]

theorem step_ok (h : s.step sb dp op = .ok s') : ∃ r,
    Prog.exec (Fs.exec sb) (op.code dp) s.fs = .ok (r, s'.fs) ∧ s'.done = (op, r) :: s.done := by
  rw [step] at h
  split at h
  · rename_i r fs heq
    cases h
    exact ⟨r, heq, rfl⟩
  · cases h

/-- **Every operation keeps the map.** -/
theorem IsMap.step (L : Layout sb) (h : s.IsMap sb dp x0) (hop : op.Ok)
    (hs : s.step sb dp op = .ok s') : s'.IsMap sb dp x0 := by
  obtain ⟨r, hrun, hdone⟩ := step_ok hs
  -- an operation that does not succeed changes nothing
  have hfail : r ≠ 0 → Touched s.fs s'.fs → s'.IsMap sb dp x0 := by
    intro hr ht
    have hdir : s'.dir sb dp = s.dir sb dp := by rw [dir, dir, dirOf, ht.disk, dirOf]
    refine ⟨h.locked.touched ht, hdir ▸ h.distinct, fun name => ?_⟩
    rw [hdir, hdone, binding, if_neg fun hc => hr hc.1]
    exact h.inumOf_eq name
  cases op with
  | link name inum =>
    obtain ⟨h1, h2⟩ := hop
    rcases dirlink_cases L h.locked hrun with ⟨rfl, -, ht⟩ | ⟨rfl, hnew, hw⟩
    · exact hfail (by decide) ht
    have hdir : s'.dir sb dp = (s.dir sb dp).addEntry name inum := hw.node
    refine ⟨h.locked.written Node.freeSlot_offset length_bytes hw, ?_, fun other => ?_⟩
    · rw [hdir]
      exact h.distinct.addEntry hnew h1 h2
    · rw [hdir, Node.inumOf_addEntry h.distinct hnew h1 h2, hdone, binding, h.inumOf_eq]
      refine if_congr ?_ rfl rfl
      rw [← cut_eq_iff, eq_comm]
      exact (and_iff_right rfl).symm
  | unlink name =>
    rcases removeEntry_cases L h.locked hrun with ⟨rfl, hsame⟩ | ⟨rfl, k, s1, hslot, hw, ht⟩
    · exact hfail (by decide) (hsame ▸ ⟨rfl, rfl, fun _ => rfl, fun _ _ => rfl⟩)
    have hk := (Node.slotOf_eq_some.mp hslot).1
    have hdir : s'.dir sb dp = (s.dir sb dp).clear k := by
      rw [dir, dirOf, ht.disk]
      exact hw.node
    have hlocked := h.locked.written (Node.nslots_offset hk) length_replicate hw
    refine ⟨hlocked.touched ht, ?_, fun other => ?_⟩
    · rw [hdir]
      exact h.distinct.clear hk
    · rw [hdir, Node.inumOf_clear h.distinct hslot, hdone, binding, h.inumOf_eq]
      refine if_congr ?_ rfl rfl
      rw [← cut_eq_iff, eq_comm]
      exact (and_iff_right rfl).symm

theorem IsMap.init (h : DirLocked sb s.fs dp) (hd : (s.dir sb dp).Distinct) (hnil : s.done = []) :
    s.IsMap sb dp (s.dir sb dp) := by
  refine ⟨h, hd, fun name => ?_⟩
  rw [hnil, binding]
  refine Option.ext fun i => ?_
  rw [Node.inumOf_eq_some hd, Node.inumOf_eq_some hd, cut_eq_iff.mp (cut_cut name)]

theorem IsMap.run (L : Layout sb) (h : s.IsMap sb dp x0) {tr : List DirOp}
    (hops : ∀ op ∈ tr, op.Ok) (hrun : Xv6.run (DirSys.step sb dp) s tr = .ok s') :
    s'.IsMap sb dp x0 := by
  induction tr generalizing s with
  | nil =>
    cases hrun
    exact h
  | cons op tr ih =>
    obtain ⟨s1, hs1, hrun⟩ := run_cons_inv hrun
    exact ih (h.step L (hops op mem_cons_self) hs1)
      (fun op hop => hops op (mem_cons_of_mem _ hop)) hrun

/-- **A directory is a finite map.** After any sequence of `dirlink` and removals on a directory
without duplicate names, there are none; the next `dirlink` answers -1 if the name is bound, and
otherwise writes the entry in the first free place and nothing else; and `dirlookup` finds what the
last operation that succeeded on the name says, where names count up to `DIRSIZ` bytes. -/
theorem dir_is_map (L : Layout sb) {s0 : DirSys} (h0 : DirLocked sb s0.fs dp)
    (hd : (s0.dir sb dp).Distinct) (hnil : s0.done = []) {tr : List DirOp}
    (hops : ∀ op ∈ tr, op.Ok) (hrun : Xv6.run (DirSys.step sb dp) s0 tr = .ok s) :
    (∀ j k, (s.dir sb dp).Live j → (s.dir sb dp).Live k →
      cut ((s.dir sb dp).entry j).name = cut ((s.dir sb dp).entry k).name → j = k) ∧
    (∀ name inum, 1 ≤ inum → inum < 65536 →
      (∀ r fs, Prog.exec (Fs.exec sb) (Code.dirlink dp name inum) s.fs = .ok (r, fs) →
        (r = -1 ↔ binding (s0.dir sb dp).inumOf s.done (cut name) ≠ none) ∧
        (r = -1 → dirOf sb fs dp = s.dir sb dp) ∧
        (r ≠ -1 → r = 0 ∧
          (∀ j < (s.dir sb dp).freeSlot, (s.dir sb dp).Live j) ∧
          ¬(s.dir sb dp).Live (s.dir sb dp).freeSlot ∧
          (dirOf sb fs dp).nslots = max (s.dir sb dp).nslots ((s.dir sb dp).freeSlot + 1) ∧
          (dirOf sb fs dp).entry (s.dir sb dp).freeSlot = ⟨inum, strncpy name DIRSIZ⟩ ∧
          ∀ j, j ≠ (s.dir sb dp).freeSlot → (dirOf sb fs dp).entry j = (s.dir sb dp).entry j)) ∧
      -- it returns, if there is room
      (binding (s0.dir sb dp).inumOf s.done (cut name) = none →
        16 * (s.dir sb dp).freeSlot + 16 ≤ MAXFILE * BSIZE →
        Room sb s.fs dp (16 * (s.dir sb dp).freeSlot + 16) →
        ∃ fs, Prog.exec (Fs.exec sb) (Code.dirlink dp name inum) s.fs = .ok (0, fs)) ∧
      ∀ i, binding (s0.dir sb dp).inumOf s.done (cut name) = some i →
        0 < (s.fs.icache i).ref ∨ s.fs.nused < NINODE →
        ∃ fs, Prog.exec (Fs.exec sb) (Code.dirlink dp name inum) s.fs = .ok (-1, fs)) ∧
    ∀ name found fs, Prog.exec (Fs.exec sb) (Code.dirlookup dp name) s.fs = .ok (found, fs) →
      ∀ inum, (∃ off, found = some (inum, off)) ↔
        binding (s0.dir sb dp).inumOf s.done (cut name) = some inum := by
  have h := (IsMap.init h0 hd hnil).run L hops hrun
  refine ⟨?_, fun name inum h1 h2 => ⟨?_, ?_, ?_⟩, ?_⟩
  · intro j k hj hk heq
    exact h.distinct j k hj hk (cut_eq_iff.mp heq)
  · intro r fs hlink
    rw [← h.inumOf_eq]
    rcases dirlink_cases L h.locked hlink with ⟨rfl, hold, ht⟩ | ⟨rfl, hnew, hw⟩
    · refine ⟨iff_of_true rfl hold, fun _ => ?_, fun hr => absurd rfl hr⟩
      rw [dir, dirOf, dirOf, ht.disk]
    refine ⟨iff_of_false (by decide) (not_not_intro hnew), fun hr => absurd hr (by decide), ?_⟩
    have hdir : dirOf sb fs dp = (s.dir sb dp).addEntry name inum := hw.node
    rw [hdir]
    exact fun _ => ⟨rfl, fun _ hj => Node.live_of_lt_freeSlot hj, Node.not_live_freeSlot,
      Node.nslots_addEntry, Node.entry_addEntry_self h2, fun _ hj => Node.entry_addEntry_ne hj⟩
  · intro hnew hfits hroom
    rw [← h.inumOf_eq, Node.inumOf, Option.map_eq_none_iff] at hnew
    have hlen : (newEntry name inum).length = 16 := length_bytes
    have hoff : 16 * (s.dir sb dp).freeSlot + (newEntry name inum).length =
        16 * (s.dir sb dp).freeSlot + 16 := congrArg _ hlen
    rw [← hoff] at hfits hroom
    obtain ⟨fs, hw, -⟩ := writei_ok L h.locked.inv h.locked.file Node.freeSlot_offset hfits hroom
    refine ⟨fs, ?_⟩
    refine (dirlink_absent L h.locked hnew inum).trans ((bind_ok hw).trans ?_)
    rw [if_pos (congrArg some hlen)]
    rfl
  · intro i hold hcache
    rw [← h.inumOf_eq, Node.inumOf, Option.map_eq_some_iff] at hold
    obtain ⟨⟨i, off⟩, hlook, rfl⟩ := hold
    obtain ⟨fs, hget⟩ := iget_returns hcache
    obtain ⟨fs', hlink, -⟩ := dirlink_present L h.locked hlook hget inum
    exact ⟨fs', hlink⟩
  · intro name found fs hlook inum
    rw [dirlookup_eq L h.locked] at hlook
    rw [← h.inumOf_eq, Node.inumOf, Option.map_eq_some_iff, taken_ok hlook]
    constructor
    · rintro ⟨off, hoff⟩
      exact ⟨(inum, off), hoff, rfl⟩
    · rintro ⟨⟨i, off⟩, hoff, rfl⟩
      exact ⟨off, hoff⟩

/-- Two names of 15 bytes that differ in the last, in an empty directory: the second is taken. -/
theorem dir_is_map_fifteen : ∃ s0 s : DirSys, DirLocked Mkfs.sb s0.fs 1 ∧
    (s0.dir Mkfs.sb 1).Distinct ∧ s0.done = [] ∧
    Xv6.run (DirSys.step Mkfs.sb 1) s0 [.link (List.replicate 14 120 ++ [97]) 5] = .ok s ∧
    ∃ fs, Prog.exec (Fs.exec Mkfs.sb) (Code.dirlink 1 (List.replicate 14 120 ++ [98]) 6) s.fs =
      .ok (-1, fs) := by
  have hempty : dirOf Mkfs.sb (emptyState Mkfs.sb T_DIR [1] fun _ => true) 1 =
      ⟨T_DIR, 0, 0, 1, []⟩ := nodeOf_emptyFiles layout_mkfs (by decide)
  have hroom := room_emptyState (t := T_DIR) layout_mkfs (by decide) (l := [1]) (by decide)
    (fun _ => true) (i := 1) (e := 16) (by decide) (by decide)
  have hlocked : DirLocked Mkfs.sb (emptyState Mkfs.sb T_DIR [1] fun _ => true) 1 := by
    refine ⟨inv_emptyState layout_mkfs (by decide) (by decide) (by decide) _,
      locked_emptyState layout_mkfs (.inr rfl) _ (by decide) (by decide) rfl, ?_, ?_⟩
    · rw [← nodeOf_type]
      exact congrArg Node.type hempty
    · exact (congrArg (fun x : Node => x.data.length) hempty).symm ▸ dvd_zero 16
  have hused : (emptyState Mkfs.sb T_DIR [1] fun _ => true).nused = 1 := rfl
  generalize emptyState Mkfs.sb T_DIR [1] (fun _ => true) = fs0 at *
  have hdistinct : ((⟨fs0, []⟩ : DirSys).dir Mkfs.sb 1).Distinct := by
    intro j k hj
    have hlt : j < (dirOf Mkfs.sb fs0 1).nslots := hj.1
    rw [hempty] at hlt
    exact absurd hlt (Nat.not_lt_zero j)
  have hfree : ((⟨fs0, []⟩ : DirSys).dir Mkfs.sb 1).freeSlot = 0 := by
    rw [dir, hempty]
    rfl
  have hnone : binding ((⟨fs0, []⟩ : DirSys).dir Mkfs.sb 1).inumOf []
      (cut (List.replicate 14 120 ++ [97])) = none := by
    rw [binding, dir, hempty]
    rfl
  -- the first name is new
  have hstart : Xv6.run (DirSys.step Mkfs.sb 1) ⟨fs0, []⟩ [] = .ok ⟨fs0, []⟩ := rfl
  have hfirst := (dir_is_map layout_mkfs hlocked hdistinct rfl (by simp) hstart).2.1
    (List.replicate 14 120 ++ [97]) 5 (by decide) (by decide)
  obtain ⟨fs, hlink⟩ := hfirst.2.1 hnone (hfree ▸ by decide) (hfree ▸ hroom)
  have hrun : Xv6.run (DirSys.step Mkfs.sb 1) ⟨fs0, []⟩ [.link (List.replicate 14 120 ++ [97]) 5] =
        .ok ⟨fs, [(.link (List.replicate 14 120 ++ [97]) 5, 0)]⟩ :=
    run_cons_ok (step_of_ok hlink)
  refine ⟨⟨fs0, []⟩, _, hlocked, hdistinct, rfl, hrun, ?_⟩
  have hnused : fs.nused < NINODE := by
    rcases dirlink_cases layout_mkfs hlocked hlink with ⟨h, -⟩ | ⟨-, -, hw⟩
    · exact absurd h (by decide)
    · rw [hw.nused_eq hlocked.inv, hused]
      decide
  have hsecond := (dir_is_map layout_mkfs hlocked hdistinct rfl (by simp [DirOp.Ok]) hrun).2.1
    (List.replicate 14 120 ++ [98]) 6 (by decide) (by decide)
  exact hsecond.2.2 5 (if_pos ⟨rfl, by decide⟩) (.inr hnused)

end DirSys

end Xv6
