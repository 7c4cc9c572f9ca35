import Xv6.SimContents
import Xv6.Held
import Xv6.LogGroup

/-!
# A file is an array of bytes: `readi` and `writei`

What `readi` and `writei` do to the bytes of the files on disk, in every state of the inode layer in
which the block ownership is in order (`Inv`) and the inode is locked. The simulation of the store
gives the contents; what is said here is about the disk.

* A write that does not fit into a file, or starts past its end, changes nothing.
* A write for which the bitmap has no blocks left does not return: `balloc` panics.
* The inode layer only records what it passes to `log_write`. `Fs.onLog` puts it on top of the log,
  which has a limited number of slots: a transaction that needs more panics as well.
-/

namespace Xv6

open Function List

/-! ## On top of the log -/

namespace Fs

/-- The header of an empty log. -/
def emptyHeader : LogHeader := ⟨0, fun _ => 0⟩

/-- Whether one of the calls `log_write(b)` for the given blocks finds the log full. -/
def tooBig (sb : Superblock) : LogHeader → List ℕ → Bool
  | _, [] => false
  | lh, b :: bs =>
    decide (lh.n ≥ LOGSIZE ∨ lh.n ≥ sb.nlog - 1) || tooBig sb (lh.insert b) bs

/-- Run code of the inode layer on top of the log: `log_write` panics if the log is full. -/
def onLog (sb : Superblock) {α : Type} (m : FS α) : FS α := fun s =>
  match m s with
  | .ok (x, s') =>
    if tooBig sb emptyHeader s'.logged then .error (.panic "too big a transaction")
    else .ok (x, s')
  | .error e => .error e

/-- The calls of the layers above, on top of the log. -/
def execLog (sb : Superblock) (c : Cmd) : FS (Resp c) := onLog sb (exec sb c)

/-- The number of slots below which `log_write` does not look any further. -/
def logSlots (sb : Superblock) : ℕ := min LOGSIZE (sb.nlog - 1)

section

variable {sb : Superblock} {α : Type} {m : FS α} {s s' : FsState} {x : α}

/-- No call finds the log full if there are more slots than blocks. -/
theorem tooBig_eq_false {lh : LogHeader} {l bs : List ℕ} (h : Entries lh l)
    (hcard : (l ++ bs).toFinset.card < logSlots sb) : tooBig sb lh bs = false := by
  induction bs generalizing lh l with
  | nil => rfl
  | cons b bs ih =>
    have hle : l.toFinset.card ≤ (l ++ b :: bs).toFinset.card := by
      rw [toFinset_append]
      exact Finset.card_le_card Finset.subset_union_left
    have hn : lh.n < min LOGSIZE (sb.nlog - 1) := h.n_eq.trans_lt (hle.trans_lt hcard)
    have hfull : ¬(lh.n ≥ LOGSIZE ∨ lh.n ≥ sb.nlog - 1) := by
      rw [not_or, not_le, not_le]
      exact lt_min_iff.mp hn
    rw [tooBig, decide_eq_false hfull, Bool.false_or]
    refine ih (h.insert b) ?_
    rwa [append_assoc]

theorem onLog_ok (h : m s = .ok (x, s')) (hcard : s'.logged.toFinset.card < logSlots sb) :
    onLog sb m s = .ok (x, s') := by
  have hfits : tooBig sb emptyHeader s'.logged = false := tooBig_eq_false (.nil rfl) hcard
  rw [onLog, h]
  exact if_neg (by rw [hfits]; exact Bool.false_ne_true)

/-- Code that logs nothing. -/
theorem onLog_same (h : m s = .ok (x, s)) (hfits : tooBig sb emptyHeader s.logged = false) :
    onLog sb m s = .ok (x, s) := by
  rw [onLog, h]
  exact if_neg (by rw [hfits]; exact Bool.false_ne_true)

theorem onLog_error {e : Stop} (h : m s = .error e) : onLog sb m s = .error e := by
  rw [onLog, h]

end

end Fs

/-- The cost bounds the number of blocks logged. -/
theorem Within.card_le {sb : Superblock} {logged : List ℕ} {c : Cost} (h : Within sb logged c) :
    logged.toFinset.card ≤ c.bound := by
  obtain ⟨X, hX, hmem⟩ := h
  have hsub : logged.toFinset ⊆ insert sb.bmapstart (c.inodes.image (· + sb.inodestart) ∪ X) := by
    intro b hb
    rw [Finset.mem_insert, Finset.mem_union, Finset.mem_image]
    rcases hmem b (mem_toFinset.mp hb) with h | ⟨q, hq, h⟩ | h
    · exact .inl h
    · exact .inr (.inl ⟨q, hq, h.symm⟩)
    · exact .inr (.inr h)
  calc logged.toFinset.card ≤ _ := Finset.card_le_card hsub
    _ ≤ (c.inodes.image (· + sb.inodestart) ∪ X).card + 1 := Finset.card_insert_le _ _
    _ ≤ (c.inodes.image (· + sb.inodestart)).card + X.card + 1 :=
      Nat.add_le_add_right (Finset.card_union_le _ _) 1
    _ ≤ c.inodes.card + c.blocks + 1 :=
      Nat.add_le_add_right (Nat.add_le_add Finset.card_image_le hX) 1
    _ = c.bound := by
      rw [Cost.bound]
      omega

/-- What a write adds to the cost. -/
theorem bound_writtenCost (c : Cost) (x : Node) (i off : ℕ) (src : List UInt8) :
    (writtenCost c x i off src).bound ≤
      c.bound + ((off + src.length + 511) / 512 - off / 512) + 2 := by
  have hins : (insert (i / 8) c.inodes).card ≤ c.inodes.card + 1 := Finset.card_insert_le _ _
  rw [writtenCost]
  split
  · omega
  rw [Store.writeCost]
  split
  · show 1 + (insert (i / 8) c.inodes).card + (c.blocks + _ + if _ then 1 else 0) ≤
      1 + c.inodes.card + c.blocks + _ + 2
    split <;> omega
  · show 1 + c.inodes.card + (c.blocks + _) ≤ 1 + c.inodes.card + c.blocks + _ + 2
    omega

/-- The bytes of the file that inode `i` on disk describes. -/
def contents (sb : Superblock) (s : FsState) (i : ℕ) : List UInt8 := (nodeOf sb s.disk i).data

/-- Inode `i` is locked, and is that of a regular file or a directory. -/
structure FileLocked (sb : Superblock) (s : FsState) (i : ℕ) : Prop where
  lt : i < sb.ninodes
  ref : 0 < (s.icache i).ref
  busy : (s.icache i).busy = true
  type : (dinode sb s.disk i).type = T_FILE ∨ (dinode sb s.disk i).type = T_DIR

/-- As many blocks are free as file `i` needs to reach up to byte `e`. -/
def Room (sb : Superblock) (s : FsState) (i e : ℕ) : Prop :=
  blocks (grow (sizes sb s.disk i) e) ≤ blocks (sizes sb s.disk i) + nfree sb s.disk

/-- The store that a state represents. -/
def storeOf (sb : Superblock) (s : FsState) : Store where
  node := nodeOf sb s.disk
  ref i := (s.icache i).ref
  busy i := decide (0 < (s.icache i).ref) && (s.icache i).busy
  cost := ⟨∅, s.logged.toFinset.card⟩

/-- What a write of `src` at `off` to file `i` does. -/
structure Written (sb : Superblock) (i off : ℕ) (src : List UInt8) (s s' : FsState) : Prop where
  inv : Inv sb s'
  node : nodeOf sb s'.disk i = (nodeOf sb s.disk i).write off src
  others : ∀ j < sb.ninodes, j ≠ i → nodeOf sb s'.disk j = nodeOf sb s.disk j
  held : ∀ j < sb.ninodes, (s'.icache j).ref = (s.icache j).ref ∧
    (0 < (s.icache j).ref → (s'.icache j).busy = (s.icache j).busy)
  logged : s'.logged.toFinset.card ≤
    s.logged.toFinset.card + ((off + src.length + 511) / 512 - off / 512) + 3

/-! ## Writes to the store -/

namespace Store

variable {sb : Superblock} {a : Store} {i off : ℕ} {src : List UInt8}

/-- The store after a write of `src` at `off` to file `i`. -/
def wrote (a : Store) (i off : ℕ) (src : List UInt8) : Store :=
  { a with
    node := update a.node i ((a.node i).write off src)
    cost := writtenCost a.cost (a.node i) i off src }

/-- A write that the file can take. -/
theorem writei_file (hl : a.Locked sb i) (hdev : (a.node i).type ≠ T_DEV)
    (hoff : off ≤ (a.node i).data.length) (hmax : off + src.length ≤ MAXFILE * BSIZE) :
    Store.writei sb i off src a =
      if capacity sb < a.usedWith sb i ((a.node i).write off src) then
        .error (.panic "balloc: out of blocks")
      else .ok (some src.length, a.wrote i off src) := by
  have hlt : off + src.length < 2 ^ 32 := hmax.trans_lt (by decide)
  have hin : ¬(off > (a.node i).data.length ∨ off + src.length ≥ 2 ^ 32) := by omega
  rw [Store.writei, if_pos hl, if_neg hdev, if_neg hin, if_neg (not_lt.mpr hmax)]
  rfl

/-- A write that the file cannot take. -/
theorem writei_bad (hl : a.Locked sb i) (hdev : (a.node i).type ≠ T_DEV)
    (hbad : ¬(off ≤ (a.node i).data.length ∧ off + src.length ≤ MAXFILE * BSIZE)) :
    Store.writei sb i off src a = .ok (none, a) := by
  rw [Store.writei, if_pos hl, if_neg hdev]
  by_cases hoff : off > (a.node i).data.length ∨ off + src.length ≥ 2 ^ 32
  · rw [if_pos hoff]
  · have hmax : off + src.length > MAXFILE * BSIZE := by
      by_contra hle
      exact hbad ⟨by omega, not_lt.mp hle⟩
    rw [if_neg hoff, if_pos hmax]

end Store

/-! ## Files on disk -/

section Bytes

variable {sb : Superblock} {s s' : FsState} {i off : ℕ} {src : List UInt8}

theorem rel_storeOf (h : Inv sb s) : Rel sb s (storeOf sb s) where
  inv := h
  node _ _ := rfl
  ref _ _ := rfl
  busy i _ := by
    show (decide (0 < (s.icache i).ref) && (s.icache i).busy) = true ↔ _
    rw [Bool.and_eq_true, decide_eq_true_iff]
  cost := ⟨s.logged.toFinset, le_rfl, fun _ hb => .inr (.inr (mem_toFinset.mpr hb))⟩

namespace FileLocked

section

variable (h : FileLocked sb s i)

include h

theorem used : (dinode sb s.disk i).type ≠ 0 := by
  rcases h.type with ht | ht <;> rw [ht] <;> decide

theorem not_dev : (dinode sb s.disk i).type ≠ T_DEV := by
  rcases h.type with ht | ht <;> rw [ht] <;> decide

theorem node_not_dev : ((storeOf sb s).node i).type ≠ T_DEV := by
  show (nodeOf sb s.disk i).type ≠ T_DEV
  rw [nodeOf_type]
  exact h.not_dev

theorem locked : (storeOf sb s).Locked sb i := by
  refine ⟨h.lt, ?_⟩
  show (decide (0 < (s.icache i).ref) && (s.icache i).busy) = true
  rw [h.busy, Bool.and_true, decide_eq_true h.ref]

/-- What the cache holds is what the disk holds. -/
theorem cached (hinv : Inv sb s) : (s.icache i).d = dinode sb s.disk i :=
  (hinv.cached i h.lt h.ref (hinv.locked i h.lt h.ref h.busy)).1

theorem length : (contents sb s i).length = (dinode sb s.disk i).size := nodeOf_length h.used

theorem size_eq (hinv : Inv sb s) : (s.icache i).d.size = (contents sb s i).length := by
  rw [h.cached hinv, h.length]

end

end FileLocked

/-- **`readi`** returns bytes of the file. -/
theorem readi_eq (L : Layout sb) (h : Inv sb s) (hl : FileLocked sb s i) (o m : ℕ) :
    Fs.readi sb i o m s = .ok (if o ≤ (contents sb s i).length ∧ o + m < 2 ^ 32 then
      some (((contents sb s i).drop o).take m) else none, s) := by
  have hrel := rel_storeOf h
  obtain ⟨own, hown⟩ := h.own
  have hd := hl.cached h
  rw [Fs.readi, Fs.bind_inode, hd, if_neg hl.not_dev, hl.length]
  by_cases hok : o ≤ (dinode sb s.disk i).size ∧ o + m < 2 ^ 32
  · have hdata : contents sb s i = _ := hrel.data_eq hl.lt hl.used
    rw [if_pos hok, if_neg (by omega), hdata, drop_take_range _ hok.1]
    obtain ⟨hk, hk'⟩ := hrel.sizes_eq hl.lt hl.used
    have hread := Fs.readLoop_spec L (Inv.mid (t := s) rfl hd hown) hl.lt hk'
      (if o + m > (dinode sb s.disk i).size then (dinode sb s.disk i).size - o else m) o
      (if o + m > (dinode sb s.disk i).size then (dinode sb s.disk i).size - o else m) le_rfl
      (by split <;> omega)
    rw [hd] at hread
    rw [Exec.bind_ok hread]
    rfl
  · rw [if_neg hok, if_pos (by omega)]
    rfl

/-- A write that the file cannot take. -/
theorem writei_fails (h : Inv sb s) (hl : FileLocked sb s i)
    (hbad : ¬(off ≤ (contents sb s i).length ∧ off + src.length ≤ MAXFILE * BSIZE)) :
    Fs.writei sb i off src s = .ok (none, s) := by
  rw [Fs.writei, Fs.bind_inode, hl.cached h, if_neg hl.not_dev]
  rw [hl.length] at hbad
  by_cases hoff : off > (dinode sb s.disk i).size ∨ off + src.length ≥ 2 ^ 32
  · rw [if_pos hoff]
    rfl
  have hmax : off + src.length > MAXFILE * BSIZE := by
    by_contra hle
    exact hbad ⟨by omega, not_lt.mp hle⟩
  rw [if_neg hoff, if_pos hmax]
  rfl

/-- The number of blocks of the file after a write. -/
theorem nblocks_write (h : Inv sb s) (hi : i < sb.ninodes) (ht : (dinode sb s.disk i).type ≠ 0)
    (hoff : off ≤ (contents sb s i).length) :
    ((nodeOf sb s.disk i).write off src).nblocks = grow (sizes sb s.disk i) (off + src.length) := by
  obtain ⟨hk, -⟩ := (rel_storeOf h).sizes_eq hi ht
  have hsize : (contents sb s i).length = (dinode sb s.disk i).size := nodeOf_length ht
  have hlen : ((nodeOf sb s.disk i).write off src).data.length =
      max (contents sb s i).length (off + src.length) := Store.length_overwrite hoff
  rw [Node.nblocks, hlen, hsize, grow, hk]
  omega

/-- The store has room for a write iff the bitmap has. -/
theorem room_iff (h : Inv sb s) (hi : i < sb.ninodes) (ht : (dinode sb s.disk i).type ≠ 0)
    (hoff : off ≤ (contents sb s i).length) :
    Room sb s i (off + src.length) ↔
      (storeOf sb s).usedWith sb i (((storeOf sb s).node i).write off src) ≤ Store.capacity sb := by
  have hrel := rel_storeOf h
  obtain ⟨own, hown⟩ := h.own
  have hblocks : (((storeOf sb s).node i).write off src).nblocks = _ := nblocks_write h hi ht hoff
  have hfree := hown.used_add_nfree fun j hj => h.sizes_le hj
  have hupd := used_update (m := sizes sb s.disk) (k := grow (sizes sb s.disk i) (off + src.length))
    hi
  rw [Room, Store.capacity, hrel.usedWith_eq hblocks]
  omega

theorem Room.mono {e e' : ℕ} (h : Room sb s i e) (hle : e' ≤ e) : Room sb s i e' := by
  have hgrow : grow (sizes sb s.disk i) e' ≤ grow (sizes sb s.disk i) e := by
    rw [grow, grow]
    omega
  exact (blocks_mono hgrow).trans h

/-- **`writei`** of bytes that the file can take and the disk has room for. -/
theorem writei_ok (L : Layout sb) (h : Inv sb s) (hl : FileLocked sb s i)
    (hoff : off ≤ (contents sb s i).length) (hmax : off + src.length ≤ MAXFILE * BSIZE)
    (hroom : Room sb s i (off + src.length)) :
    ∃ s', Fs.writei sb i off src s = .ok (some src.length, s') ∧ Written sb i off src s s' := by
  have hsim := writei_sim L i off src s _ (rel_storeOf h)
  rw [Store.writei_file hl.locked hl.node_not_dev hoff hmax,
    if_neg (not_lt.mpr ((room_iff h hl.lt hl.used hoff).mp hroom))] at hsim
  generalize hs : Fs.writei sb i off src s = r at hsim
  cases hsim with
  | @ok _ s' _ hrel =>
    refine ⟨s', rfl, hrel.inv, ?_, fun j hj hne => ?_, fun j hj => ?_, ?_⟩
    · exact (hrel.node i hl.lt).symm.trans (update_self i _ _)
    · exact (hrel.node j hj).symm.trans (update_of_ne hne _ _)
    · have href := hrel.ref j hj
      have hbusy := hrel.busy j hj
      refine ⟨href.symm, fun hpos => ?_⟩
      have hb : ((storeOf sb s).wrote i off src).busy j = (s.icache j).busy := by
        show (decide (0 < (s.icache j).ref) && _) = _
        rw [decide_eq_true hpos, Bool.true_and]
      have hpos' : 0 < (s'.icache j).ref := href ▸ hpos
      rw [hb, and_iff_right hpos'] at hbusy
      exact (Bool.eq_iff_iff.mpr hbusy).symm
    · have hcost := hrel.cost.card_le.trans
        (bound_writtenCost (storeOf sb s).cost ((storeOf sb s).node i) i off src)
      have hbound : (storeOf sb s).cost.bound = 1 + 0 + s.logged.toFinset.card := rfl
      omega

/-- **`writei` panics** if the blocks for it are not there. -/
theorem writei_full (L : Layout sb) (h : Inv sb s) (hl : FileLocked sb s i)
    (hoff : off ≤ (contents sb s i).length) (hmax : off + src.length ≤ MAXFILE * BSIZE)
    (hroom : ¬Room sb s i (off + src.length)) :
    Fs.writei sb i off src s = .error (.panic "balloc: out of blocks") := by
  have hsim := writei_sim L i off src s _ (rel_storeOf h)
  rw [Store.writei_file hl.locked hl.node_not_dev hoff hmax,
    if_pos (by rwa [← not_le, ← room_iff h hl.lt hl.used hoff])] at hsim
  generalize Fs.writei sb i off src s = r at hsim
  cases hsim with
  | stop => rfl
  | wild h => cases h

namespace Written

section

variable (h : Written sb i off src s s')

include h

/-- The inode stays locked. -/
theorem locked {j : ℕ} (hl : FileLocked sb s j) : FileLocked sb s' j := by
  obtain ⟨href, hbusy⟩ := h.held j hl.lt
  refine ⟨hl.lt, href ▸ hl.ref, (hbusy hl.ref).trans hl.busy, ?_⟩
  have htype : (nodeOf sb s'.disk j).type = (nodeOf sb s.disk j).type := by
    rcases eq_or_ne j i with rfl | hne
    · rw [h.node]
      rfl
    · rw [h.others j hl.lt hne]
  rw [nodeOf_type, nodeOf_type] at htype
  rw [htype]
  exact hl.type

theorem contents_eq :
    contents sb s' i = (contents sb s i).take off ++ src ++ (contents sb s i).drop
      (off + src.length) :=
  congrArg Node.data h.node

/-- The blocks that the file has got were free before. -/
theorem nfree_eq (hinv : Inv sb s) (hl : FileLocked sb s i)
    (hoff : off ≤ (contents sb s i).length) :
    nfree sb s'.disk + blocks (grow (sizes sb s.disk i) (off + src.length)) =
      nfree sb s.disk + blocks (sizes sb s.disk i) := by
  obtain ⟨own, hown⟩ := hinv.own
  obtain ⟨own', hown'⟩ := h.inv.own
  have hfree := hown.used_add_nfree fun j hj => hinv.sizes_le hj
  have hfree' := hown'.used_add_nfree fun j hj => h.inv.sizes_le hj
  have hsizes : used sb (sizes sb s'.disk) = used sb (update (sizes sb s.disk) i
      (grow (sizes sb s.disk i) (off + src.length))) := by
    refine used_congr fun j hj => ?_
    rcases eq_or_ne j i with rfl | hne
    · rw [update_self, sizes, h.node, nblocks_write hinv hl.lt hl.used hoff]
    · rw [update_of_ne hne, sizes, h.others j hj hne, sizes]
  have hupd := used_update (m := sizes sb s.disk) (k := grow (sizes sb s.disk i) (off + src.length))
    hl.lt
  omega

end

end Written

/-- **A file is an array of bytes.** A write to a regular file or a directory that starts within the
file, stays below the largest size and for which there are blocks on the disk has these effects: its
bytes are in the file, the bytes around them and all other files are as before, and a read returns
the bytes of the file. It returns the number of its bytes iff no `log_write` of it finds the log
full, and panics otherwise. All other writes and reads return -1 and change nothing. The blocks of
the files are as the bitmap says, and the inode is locked. -/
theorem writei_readi_bytes (L : Layout sb) (h : Inv sb s) (hl : FileLocked sb s i)
    (hlog : Fs.tooBig sb Fs.emptyHeader s.logged = false) (off : ℕ) (src : List UInt8) :
    (off ≤ (s.icache i).d.size → off + src.length ≤ MAXFILE * BSIZE →
      Room sb s i (off + src.length) →
      ∃ s', Fs.onLog sb (Fs.writei sb i off src) s =
          (if Fs.tooBig sb Fs.emptyHeader s'.logged then .error (.panic "too big a transaction")
            else .ok (some src.length, s')) ∧
        s'.logged.toFinset.card ≤
          s.logged.toFinset.card + ((off + src.length + 511) / 512 - off / 512) + 3 ∧
        Inv sb s' ∧ FileLocked sb s' i ∧
        (s'.icache i).d.size = max (s.icache i).d.size (off + src.length) ∧
        contents sb s' i =
          (contents sb s i).take off ++ src ++ (contents sb s i).drop (off + src.length) ∧
        (∀ j < sb.ninodes, j ≠ i → contents sb s' j = contents sb s j) ∧
        ∀ o m, o ≤ (s'.icache i).d.size → o + m < 2 ^ 32 →
          ∃ dst, Fs.readi sb i o m s' = .ok (some dst, s') ∧
            dst.length = min m ((s'.icache i).d.size - o) ∧
            dst = ((contents sb s' i).drop o).take m) ∧
      (¬(off ≤ (s.icache i).d.size ∧ off + src.length ≤ MAXFILE * BSIZE) →
        Fs.onLog sb (Fs.writei sb i off src) s = .ok (none, s)) ∧
      ∀ o m, ¬(o ≤ (s.icache i).d.size ∧ o + m < 2 ^ 32) →
        Fs.readi sb i o m s = .ok (none, s) := by
  have hsize := hl.size_eq h
  refine ⟨fun hoff hmax hroom => ?_, fun hbad => ?_, fun o m hbad => ?_⟩
  · rw [hsize] at hoff
    obtain ⟨s', hw, hW⟩ := writei_ok L h hl hoff hmax hroom
    have hl' := hW.locked hl
    have hsize' := hl'.size_eq hW.inv
    refine ⟨s', by rw [Fs.onLog, hw], hW.logged, hW.inv, hl', ?_, hW.contents_eq,
      fun j hj hne => congrArg Node.data (hW.others j hj hne), fun o m ho hm => ?_⟩
    · rw [hsize, hsize', contents, hW.node]
      exact Store.length_overwrite hoff
    · refine ⟨_, ?_, ?_, rfl⟩
      · rw [readi_eq L hW.inv hl', if_pos ⟨hsize' ▸ ho, hm⟩]
      · rw [length_take, length_drop, hsize']
  · rw [hsize] at hbad
    exact Fs.onLog_same (writei_fails h hl hbad) hlog
  · rw [hsize] at hbad
    rw [readi_eq L h hl, if_neg hbad]

end Bytes

/-! ## Empty files, and a full disk -/

section Example

variable {sb : Superblock} {t : UInt16}

/-- A bitmap block with the first `n` bits set. -/
def bitsBelow (n : ℕ) : Block := (List.range n).foldl (fun b k => b.setBit k true) .zero

theorem bit_bitsBelow {n k : ℕ} (hn : n ≤ 8 * BSIZE) : (bitsBelow n).bit k = decide (k < n) := by
  induction n with
  | zero => simp [bitsBelow, Bytes.bit, Bytes.zero, Bytes.get]
  | succ n ih =>
    have hstep : bitsBelow (n + 1) = (bitsBelow n).setBit n true := by
      rw [bitsBelow, range_succ, foldl_append]
      rfl
    rw [hstep]
    rcases eq_or_ne n k with rfl | hne
    · rw [Bytes.bit_setBit_self (by omega), decide_eq_true (Nat.lt_succ_self n)]
    · rw [Bytes.bit_setBit_ne hne, ih (by omega), decide_eq_decide]
      omega

/-- A disk on which no inode is in use. -/
def blank (sb : Superblock) : Disk := fun c =>
  if c = sb.bmapstart then bitsBelow (dataStart sb) else .zero

/-- An inode without contents. -/
def emptyInode (t : UInt16) : Dinode := ⟨t, 0, 0, if t = 0 then 0 else 1, 0, fun _ => 0⟩

theorem emptyInode_fits : (emptyInode t).Fits :=
  ⟨Nat.two_pow_pos 32, fun _ => Nat.two_pow_pos 32, fun _ _ => rfl⟩

/-- A disk on which the given inodes are empty files of type `t`. -/
def emptyFiles (sb : Superblock) (t : UInt16) : List ℕ → Disk
  | [] => blank sb
  | i :: l => Fs.storeInode sb (emptyFiles sb t l) i (emptyInode t)

theorem dinode_blank (L : Layout sb) {i : ℕ} (hi : i < sb.ninodes) :
    dinode sb (blank sb) i = emptyInode 0 := by
  have hzero : blank sb (IBLOCK sb i) = .zero := if_neg (IBLOCK_lt L hi).ne
  rw [dinode, hzero]
  refine Dinode.ext ?_ ?_ ?_ ?_ ?_ fun k => ?_ <;>
    simp [Dinode.read, emptyInode, Bytes.u16, Bytes.u32, Bytes.get, Bytes.zero]

theorem dinode_emptyFiles (L : Layout sb) (l : List ℕ) {i : ℕ} (hi : i < sb.ninodes) :
    dinode sb (emptyFiles sb t l) i = emptyInode (if i ∈ l then t else 0) := by
  induction l with
  | nil => exact dinode_blank L hi
  | cons j l ih =>
    rw [emptyFiles, Fs.dinode_storeInode emptyInode_fits]
    rcases eq_or_ne i j with rfl | hne
    · rw [update_self, if_pos mem_cons_self]
    · rw [update_of_ne hne, ih]
      simp [hne]

variable {l : List ℕ}

theorem emptyFiles_ge (L : Layout sb) (his : ∀ i ∈ l, i < sb.ninodes) {c : ℕ}
    (hc : sb.bmapstart ≤ c) : emptyFiles sb t l c = blank sb c := by
  induction l with
  | nil => rfl
  | cons j l ih =>
    rw [emptyFiles, Fs.storeInode_ge L (his j mem_cons_self) hc]
    exact ih fun i hi => his i (mem_cons_of_mem j hi)

/-- The given inodes are empty files of type `t`, with one reference to each, and locked where
`busy` says so. -/
def emptyState (sb : Superblock) (t : UInt16) (l : List ℕ) (busy : ℕ → Bool) : FsState where
  disk := emptyFiles sb t l
  icache i := if i ∈ l then ⟨1, busy i, true, emptyInode t⟩ else ⟨0, false, false, emptyInode 0⟩
  nused := l.toFinset.card
  logged := []

section

variable (L : Layout sb)

include L

theorem nodeOf_emptyFiles {i : ℕ} (hi : i < sb.ninodes) : nodeOf sb (emptyFiles sb t l) i =
      if i ∈ l ∧ t ≠ 0 then ⟨t, 0, 0, 1, []⟩ else .free := by
  rw [nodeOf, dinode_emptyFiles L l hi]
  by_cases hmem : i ∈ l
  · by_cases ht : t = 0
    · simp [hmem, ht, emptyInode]
    · simp [hmem, ht, emptyInode]
  · simp [hmem, emptyInode]

theorem sizes_emptyFiles {i : ℕ} (hi : i < sb.ninodes) : sizes sb (emptyFiles sb t l) i = 0 := by
  rw [sizes, nodeOf_emptyFiles L hi]
  split <;> simp [Node.nblocks, Node.free]

/-- Empty files own nothing. -/
theorem own_emptyFiles (hsize : sb.size ≤ BPB) (his : ∀ i ∈ l, i < sb.ninodes) :
    Own sb (emptyFiles sb t l) (dinode sb (emptyFiles sb t l))
      (slots sb (sizes sb (emptyFiles sb t l))) fun _ => none := by
  have hno : ∀ i x, ¬slots sb (sizes sb (emptyFiles sb t l)) i x := by
    rintro i x ⟨hi, hx⟩
    rw [sizes_emptyFiles L hi, filled_iff] at hx
    omega
  refine ⟨fun i x h => absurd h (hno i x), fun i x h => absurd h (hno i x),
    fun i x hi _ _ _ => ?_, nofun, fun b hb => ?_⟩
  · rw [dinode_emptyFiles L l hi]
    simp [ptr, emptyInode]
  · have hlt : b < 4096 := hb.trans_le hsize
    have hB : BBLOCK sb b = sb.bmapstart := by
      show b / 4096 + sb.bmapstart = sb.bmapstart
      omega
    have hmod : b % BPB = b := Nat.mod_eq_of_lt hlt
    have hdata : dataStart sb ≤ 8 * BSIZE := L.data.trans hsize
    rw [bitOf, hB, emptyFiles_ge L his le_rfl, blank, if_pos rfl, bit_bitsBelow hdata, hmod]
    simp

theorem inv_emptyState (hsize : sb.size ≤ BPB) (ht : t ≠ 0)
    (his : ∀ i ∈ l, i < sb.ninodes) (busy : ℕ → Bool) : Inv sb (emptyState sb t l busy) := by
  have hheld : ∀ i, 0 < ((emptyState sb t l busy).icache i).ref → i ∈ l := by
    intro i h
    by_contra hi
    simp [emptyState, hi] at h
  constructor
  case own => exact ⟨_, own_emptyFiles L hsize his⟩
  case size =>
    intro i hi _
    show (dinode sb (emptyFiles sb t l) i).size ≤ _
    rw [dinode_emptyFiles L l hi]
    exact Nat.zero_le _
  case cached =>
    intro i hi href _
    have hmem := hheld i href
    show ((emptyState sb t l busy).icache i).d = dinode sb (emptyFiles sb t l) i ∧
      (dinode sb (emptyFiles sb t l) i).type ≠ 0
    rw [dinode_emptyFiles L l hi]
    simp [emptyState, hmem, emptyInode, ht]
  case locked =>
    intro i hi href _
    simp [emptyState, hheld i href]
  case linked =>
    intro i hi href hv
    simp [emptyState, hheld i href] at hv
  case nused =>
    show l.toFinset.card = _
    congr 1
    ext i
    simp only [mem_toFinset, Finset.mem_filter, Finset.mem_range]
    exact ⟨fun hi => ⟨his i hi, by simp [emptyState, hi]⟩, fun h => hheld i h.2⟩

/-- All data blocks are free. -/
theorem nfree_emptyState (hsize : sb.size ≤ BPB) (his : ∀ i ∈ l, i < sb.ninodes) :
    nfree sb (emptyFiles sb t l) = sb.size - dataStart sb := by
  have hfree := (own_emptyFiles (t := t) L hsize his).used_add_nfree fun i hi => by
    rw [sizes_emptyFiles L hi]
    exact Nat.zero_le _
  have hused : used sb (sizes sb (emptyFiles sb t l)) = 0 := by
    rw [used]
    refine Finset.sum_eq_zero fun i hi => ?_
    rw [sizes_emptyFiles L (Finset.mem_range.mp hi)]
    rfl
  omega

theorem contents_emptyState (busy : ℕ → Bool) {i : ℕ}
    (hi : i < sb.ninodes) : contents sb (emptyState sb t l busy) i = [] := by
  show (nodeOf sb (emptyFiles sb t l) i).data = []
  rw [nodeOf_emptyFiles L hi]
  split <;> rfl

theorem locked_emptyState (ht : t = T_FILE ∨ t = T_DIR)
    (busy : ℕ → Bool) {i : ℕ} (hi : i < sb.ninodes) (hmem : i ∈ l) (hbusy : busy i = true) :
    FileLocked sb (emptyState sb t l busy) i := by
  refine ⟨hi, by simp [emptyState, hmem], by simp [emptyState, hmem, hbusy], ?_⟩
  show (dinode sb (emptyFiles sb t l) i).type = T_FILE ∨
    (dinode sb (emptyFiles sb t l) i).type = T_DIR
  rwa [dinode_emptyFiles L l hi, if_pos hmem]

theorem room_emptyState (hsize : sb.size ≤ BPB)
    (his : ∀ i ∈ l, i < sb.ninodes) (busy : ℕ → Bool) {i e : ℕ} (hi : i < sb.ninodes)
    (he : blocks (grow 0 e) ≤ sb.size - dataStart sb) : Room sb (emptyState sb t l busy) i e := by
  have hfree := nfree_emptyState (t := t) L hsize his
  have hnone := sizes_emptyFiles (t := t) (l := l) L hi
  show blocks (grow (sizes sb (emptyFiles sb t l) i) e) ≤
    blocks (sizes sb (emptyFiles sb t l) i) + nfree sb (emptyFiles sb t l)
  rw [hnone, hfree]
  exact he.trans (Nat.le_add_left _ _)

/-- Files that are locked and empty can be filled as long as there are blocks. -/
theorem exists_filled : ∀ (l : List (ℕ × ℕ)) (s : FsState), Inv sb s →
    (l.map Prod.fst).Nodup →
    (∀ p ∈ l, FileLocked sb s p.1 ∧ contents sb s p.1 = [] ∧ p.2 ≤ 140) →
    (l.map fun p => blocks p.2).sum ≤ nfree sb s.disk →
    ∃ s', Inv sb s' ∧ nfree sb s'.disk + (l.map fun p => blocks p.2).sum = nfree sb s.disk ∧
      ∀ j < sb.ninodes, j ∉ l.map Prod.fst → nodeOf sb s'.disk j = nodeOf sb s.disk j ∧
        (s'.icache j).ref = (s.icache j).ref ∧
        (0 < (s.icache j).ref → (s'.icache j).busy = (s.icache j).busy) := by
  intro l
  induction l with
  | nil =>
    intro s h _ _ _
    exact ⟨s, h, rfl, fun j _ _ => ⟨rfl, rfl, fun _ => rfl⟩⟩
  | cons p l ih =>
    intro s h hnodup hall hsum
    obtain ⟨hl, hempty, hle⟩ := hall p mem_cons_self
    rw [map_cons, nodup_cons] at hnodup
    rw [map_cons, sum_cons] at hsum
    have hnone : sizes sb s.disk p.1 = 0 := by
      rw [sizes, Node.nblocks, show (nodeOf sb s.disk p.1).data = [] from hempty]
      rfl
    have hgrow : grow (sizes sb s.disk p.1) (0 + (List.replicate (512 * p.2) (0 : UInt8)).length) =
        p.2 := by
      rw [hnone, grow, length_replicate]
      omega
    have hroom : Room sb s p.1 (0 + (List.replicate (512 * p.2) (0 : UInt8)).length) := by
      rw [Room, hgrow]
      omega
    obtain ⟨s1, -, hW⟩ := writei_ok L h hl (Nat.zero_le _)
      (by rw [length_replicate]; show _ ≤ 140 * 512; omega) hroom
    have hfree := hW.nfree_eq h hl (Nat.zero_le _)
    rw [hgrow, hnone, show blocks 0 = 0 from rfl] at hfree
    have hne : ∀ q ∈ l, q.1 ≠ p.1 := fun q hq heq =>
      hnodup.1 (heq ▸ mem_map_of_mem hq)
    obtain ⟨s', hinv, hfree', hrest⟩ := ih s1 hW.inv hnodup.2 (fun q hq => by
      obtain ⟨hl', hempty', hle'⟩ := hall q (mem_cons_of_mem p hq)
      refine ⟨hW.locked hl', ?_, hle'⟩
      rw [contents, hW.others q.1 hl'.lt (hne q hq)]
      exact hempty') (by omega)
    refine ⟨s', hinv, by rw [map_cons, sum_cons]; omega, fun j hj hmem => ?_⟩
    rw [map_cons, mem_cons, not_or] at hmem
    obtain ⟨hn, href, hbusy⟩ := hrest j hj hmem.2
    obtain ⟨href1, hbusy1⟩ := hW.held j hj
    refine ⟨hn.trans (hW.others j hj hmem.1), href.trans href1, fun hpos => ?_⟩
    exact (hbusy (href1 ▸ hpos)).trans (hbusy1 hpos)

end

/-- **A full disk**, in the layout that `mkfs` writes: seven files take all of the 941 data blocks,
and inode 8 is an empty file that is open, and locked or not. -/
theorem exists_full (b : Bool) : ∃ s, Inv Mkfs.sb s ∧ nfree Mkfs.sb s.disk = 0 ∧
    nodeOf Mkfs.sb s.disk 8 = ⟨T_FILE, 0, 0, 1, []⟩ ∧ (s.icache 8).ref = 1 ∧
    (s.icache 8).busy = b := by
  obtain ⟨l, hdef⟩ : ∃ l, l = [1, 2, 3, 4, 5, 6, 7, 8] := ⟨_, rfl⟩
  obtain ⟨busy, hbusy⟩ : ∃ busy : ℕ → Bool, busy = fun i => if i = 8 then b else true := ⟨_, rfl⟩
  have his : ∀ i ∈ l, i < Mkfs.sb.ninodes := by
    rw [hdef]
    decide
  have hsize : Mkfs.sb.size ≤ BPB := by decide
  have hfree : nfree Mkfs.sb (emptyFiles Mkfs.sb T_FILE l) = 941 :=
    nfree_emptyState layout_mkfs hsize his
  have hlocked : ∀ i, 1 ≤ i → i < 8 → FileLocked Mkfs.sb (emptyState Mkfs.sb T_FILE l busy) i ∧
      contents Mkfs.sb (emptyState Mkfs.sb T_FILE l busy) i = [] := by
    intro i h1 h8
    have hmem : i ∈ l := by
      rw [hdef]
      simp only [mem_cons, not_mem_nil, or_false]
      omega
    refine ⟨locked_emptyState layout_mkfs (.inl rfl) busy (his i hmem) hmem ?_,
      contents_emptyState layout_mkfs busy (his i hmem)⟩
    rw [hbusy]
    exact if_neg h8.ne
  obtain ⟨s, hinv, hnfree, hrest⟩ := exists_filled layout_mkfs
    [(1, 140), (2, 140), (3, 140), (4, 140), (5, 140), (6, 140), (7, 94)]
    (emptyState Mkfs.sb T_FILE l busy)
    (inv_emptyState layout_mkfs hsize (by decide) his busy) (by decide) (by
      intro p hp
      have hrange : 1 ≤ p.1 ∧ p.1 < 8 ∧ p.2 ≤ 140 := by
        revert p
        decide
      exact ⟨(hlocked p.1 hrange.1 hrange.2.1).1, (hlocked p.1 hrange.1 hrange.2.1).2,
        hrange.2.2⟩) (by
      show 941 ≤ nfree Mkfs.sb (emptyFiles Mkfs.sb T_FILE l)
      exact hfree.ge)
  obtain ⟨hnode, href, hb⟩ := hrest 8 (by decide) (by decide)
  have hmem : 8 ∈ l := by
    rw [hdef]
    decide
  have hcache : (emptyState Mkfs.sb T_FILE l busy).icache 8 = ⟨1, b, true, emptyInode T_FILE⟩ := by
    simp [emptyState, hmem, hbusy]
  rw [hcache] at href hb
  refine ⟨s, hinv, ?_, hnode.trans ?_, href, hb Nat.zero_lt_one⟩
  · have hsum : nfree Mkfs.sb s.disk + 941 = nfree Mkfs.sb (emptyFiles Mkfs.sb T_FILE l) := hnfree
    omega
  · show nodeOf Mkfs.sb (emptyFiles Mkfs.sb T_FILE l) 8 = _
    rw [nodeOf_emptyFiles layout_mkfs (by decide), if_pos ⟨hmem, by decide⟩]

/-- **A write to a full disk does not return**: one byte, to an empty file. -/
theorem writei_panics_full : ∃ s, Inv Mkfs.sb s ∧ FileLocked Mkfs.sb s 8 ∧
    0 ≤ (s.icache 8).d.size ∧ 0 + [(65 : UInt8)].length ≤ MAXFILE * BSIZE ∧
    Fs.onLog Mkfs.sb (Fs.writei Mkfs.sb 8 0 [65]) s = .error (.panic "balloc: out of blocks") := by
  obtain ⟨s, hinv, hfree, hnode, href, hbusy⟩ := exists_full true
  have hl : FileLocked Mkfs.sb s 8 := by
    refine ⟨by decide, by rw [href]; decide, hbusy, .inl ?_⟩
    rw [← nodeOf_type, hnode]
  refine ⟨s, hinv, hl, Nat.zero_le _, by decide,
    Fs.onLog_error (writei_full layout_mkfs hinv hl (Nat.zero_le _) (by decide) ?_)⟩
  rw [Room, sizes, hnode, hfree]
  decide

/-- Two writes to an empty file, in the layout that `mkfs` writes. -/
theorem writei_readi_abc : ∃ s s', Inv Mkfs.sb s ∧ FileLocked Mkfs.sb s 2 ∧ Room Mkfs.sb s 2 3 ∧
    Fs.onLog Mkfs.sb (Fs.writei Mkfs.sb 2 0 [97, 98, 99]) s = .ok (some 3, s') ∧
    contents Mkfs.sb s' 2 = [97, 98, 99] ∧
    Fs.onLog Mkfs.sb (Fs.writei Mkfs.sb 2 1 [97, 98, 99]) s = .ok (none, s) := by
  have hinv := inv_emptyState (t := T_FILE) layout_mkfs (by decide) (by decide) (l := [2])
    (by decide) fun _ => true
  have hl := locked_emptyState (t := T_FILE) layout_mkfs (.inl rfl) (l := [2])
    (fun _ => true) (i := 2) (by decide) (by decide) rfl
  have hempty := contents_emptyState (t := T_FILE) layout_mkfs (l := [2]) (fun _ => true) (i := 2)
    (by decide)
  have hzero := hl.size_eq hinv
  rw [hempty] at hzero
  have hroom := room_emptyState (t := T_FILE) layout_mkfs (by decide) (l := [2]) (by decide)
    (fun _ => true) (i := 2) (e := 3) (by decide) (by decide)
  obtain ⟨s', hw, hslots, -, -, -, hbytes, -, -⟩ :=
    (writei_readi_bytes layout_mkfs hinv hl rfl 0 [97, 98, 99]).1 (Nat.zero_le _) (by decide) hroom
  have hfits : Fs.tooBig Mkfs.sb Fs.emptyHeader s'.logged = false :=
    Fs.tooBig_eq_false (.nil rfl) (hslots.trans_lt (show 4 < Fs.logSlots Mkfs.sb by decide))
  rw [hfits, if_neg Bool.false_ne_true] at hw
  have hbad := (writei_readi_bytes layout_mkfs hinv hl rfl 1 [97, 98, 99]).2.1
  rw [hzero] at hbad
  refine ⟨_, s', hinv, hl, hroom, hw, ?_, hbad fun h => absurd h.1 (by decide)⟩
  rw [hbytes, hempty]
  rfl

end Example

end Xv6
