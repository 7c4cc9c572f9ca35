import Xv6.DirSpec

/-!
# What a system call does to the files

Whatever a system call does on its way, the files change in one of a few ways (`Edit`): an entry
is added for an old or a new inode, an entry is cleared, or a file gets other contents. After that,
the files without links that nobody holds are gone (`sweep`).

* `Edit.Ok` is what the code has checked when it makes the edit.
* `Node.entry` of a directory after an edit is all that the proofs above this module use of the
  bytes of a directory.
-/

namespace Xv6

open Function List

/-! ## Writing entries -/

namespace Store

theorem getElem?_overwrite {data src : List UInt8} {off m : ℕ} (h : off ≤ data.length)
    (hm : m < off ∨ off + src.length ≤ m) : (overwrite data off src)[m]? = data[m]? := by
  have hl : (data.take off).length = off := by
    rw [length_take]
    omega
  rw [overwrite, append_assoc]
  rcases hm with hm | hm
  · rw [getElem?_append_left (by omega), getElem?_take_of_lt hm]
  · rw [getElem?_append_right (by omega), hl, getElem?_append_right (by omega), getElem?_drop]
    congr 1
    omega

theorem drop_overwrite {data src : List UInt8} {off : ℕ} (h : off ≤ data.length) :
    ((overwrite data off src).drop off).take src.length = src := by
  have hl : (data.take off).length = off := by
    rw [length_take]
    omega
  rw [overwrite, append_assoc, drop_left' hl, take_left' rfl]

end Store

namespace Node

variable {x : Node} {name src : List UInt8} {j k inum : ℕ}

section

variable (hk : 16 * k ≤ x.data.length) (hs : src.length = 16)

include hk hs

theorem nslots_write : (x.write (16 * k) src).nslots = max x.nslots (k + 1) := by
  rw [nslots, nslots, write, Store.length_overwrite hk, hs]
  omega

theorem entry_write_self : (x.write (16 * k) src).entry k = Dirent.read src := by
  have h : ((Store.overwrite x.data (16 * k) src).drop (16 * k)).take src.length = src :=
    Store.drop_overwrite hk
  rw [hs] at h
  rw [entry, write, h]

theorem entry_write_ne (hj : j ≠ k) : (x.write (16 * k) src).entry j = x.entry j := by
  rw [entry, entry, write]
  congr 1
  refine ext_getElem? fun n => ?_
  rcases Nat.lt_or_ge n 16 with hn | hn
  · rw [getElem?_take_of_lt hn, getElem?_take_of_lt hn, getElem?_drop,
      getElem?_drop, Store.getElem?_overwrite hk (by omega)]
  · rw [getElem?_take_eq_none hn, getElem?_take_eq_none hn]

end

theorem freeSlot_le : x.freeSlot ≤ x.nslots := by
  rw [freeSlot]
  rcases h : (List.range x.nslots).find? (fun k => (x.entry k).inum = 0) with _ | k
  · exact le_rfl
  · exact Nat.le_of_lt (mem_range.mp (mem_of_find?_eq_some h))

theorem freeSlot_offset : 16 * x.freeSlot ≤ x.data.length := by
  have h := x.freeSlot_le
  rw [nslots] at h
  omega

/-- The place of a new entry was free. -/
theorem entry_freeSlot (h : x.freeSlot < x.nslots) : (x.entry x.freeSlot).inum = 0 := by
  rw [freeSlot] at h ⊢
  rcases hf : (List.range x.nslots).find? (fun k => (x.entry k).inum = 0) with _ | k
  · rw [hf] at h
    exact absurd h (Nat.lt_irrefl _)
  · rw [hf] at h
    simpa using find?_some hf

theorem read_bytes (h : inum < 65536) : Dirent.read (Dirent.bytes ⟨inum, name⟩) = ⟨inum, name⟩ := by
  simp only [Dirent.read, Dirent.bytes, getD_cons_zero, getD_cons_succ,
    drop_succ_cons, drop_zero, UInt8.toNat_ofNat', Dirent.mk.injEq, and_true]
  omega

theorem nslots_addEntry : (x.addEntry name inum).nslots = max x.nslots (x.freeSlot + 1) :=
  nslots_write freeSlot_offset length_bytes

theorem entry_addEntry_self (h : inum < 65536) :
    (x.addEntry name inum).entry x.freeSlot = ⟨inum, strncpy name DIRSIZ⟩ := by
  rw [addEntry, entry_write_self freeSlot_offset length_bytes, read_bytes h]

theorem entry_addEntry_ne (hj : j ≠ x.freeSlot) : (x.addEntry name inum).entry j = x.entry j :=
  entry_write_ne freeSlot_offset length_bytes hj

/-- Clear entry `k`. -/
def clear (x : Node) (k : ℕ) : Node := x.write (16 * k) (List.replicate 16 0)

section

variable (hk : k < x.nslots)

include hk

theorem nslots_offset : 16 * k ≤ x.data.length := by
  rw [nslots] at hk
  omega

theorem nslots_clear : (x.clear k).nslots = x.nslots := by
  rw [clear, nslots_write (nslots_offset hk) length_replicate]
  omega

theorem entry_clear_self : ((x.clear k).entry k).inum = 0 := by
  rw [clear, entry_write_self (nslots_offset hk) length_replicate]
  rfl

theorem entry_clear_ne (hj : j ≠ k) : (x.clear k).entry j = x.entry j :=
  entry_write_ne (nslots_offset hk) length_replicate hj

end

end Node

/-! ## Edits -/

/-- What `create` makes: an empty file, or a directory with its dots. -/
def newNode (d i : ℕ) (type major minor : UInt16) : Node :=
  if type = T_DIR then ((⟨type, major, minor, 1, []⟩ : Node).addEntry dot i).addEntry dotdot d
  else ⟨type, major, minor, 1, []⟩

/-- A change of the files. -/
inductive Edit : Type where
  | none
  /-- a new entry for `i` in the directory `d` -/
  | link (d : ℕ) (name : List UInt8) (i : ℕ)
  /-- a new file `i`, with an entry in the directory `d` -/
  | create (d : ℕ) (name : List UInt8) (i : ℕ) (type major minor : UInt16)
  /-- entry `k` of the directory `d` is cleared -/
  | unlink (d k : ℕ)
  /-- other contents -/
  | write (i : ℕ) (data : List UInt8)

namespace Edit

/-- The inode that entry `k` of `d` names. -/
abbrev target (N : ℕ → Node) (d k : ℕ) : ℕ := ((N d).entry k).inum

/-- The files after the edit. -/
def apply (N : ℕ → Node) : Edit → ℕ → Node
  | .none => N
  | .link d name i =>
    update (update N i ((N i).withNlink ((N i).nlink + 1))) d ((N d).addEntry name i)
  | .create d name i type major minor =>
    -- a directory has a link from the ".." of each directory in it
    update (update N i (newNode d i type major minor)) d
      (((N d).withNlink (if type = T_DIR then (N d).nlink + 1 else (N d).nlink)).addEntry name i)
  | .unlink d k =>
    update (update N d (((N d).clear k).withNlink
      (if (N (target N d k)).type = T_DIR then (N d).nlink - 1 else (N d).nlink)))
      (target N d k) ((N (target N d k)).withNlink ((N (target N d k)).nlink - 1))
  | .write i data => update N i { N i with data := data }

/-- An entry can be added to the directory `d` under this name. -/
structure CanAdd (sb : Superblock) (N : ℕ → Node) (d : ℕ) (name : List UInt8) : Prop where
  lt : d < sb.ninodes
  dir : (N d).type = T_DIR
  fresh : (N d).lookup name = Option.none

/-- Entry `k` of the directory `d` can be cleared. -/
structure CanClear (sb : Superblock) (N : ℕ → Node) (d k : ℕ) : Prop where
  lt : d < sb.ninodes
  dir : (N d).type = T_DIR
  slot : k < (N d).nslots
  bound : target N d k < sb.ninodes
  live : target N d k ≠ 0
  other : target N d k ≠ d
  used : (N (target N d k)).type ≠ 0
  linked : 0 < (N (target N d k)).nlink.toNat ∧ (N (target N d k)).nlink.toNat < 32768
  /-- the first entry with some name that is not one of the dots -/
  named : ∃ name, (N d).slotOf name = some k ∧ namecmp name dot ≠ 0 ∧ namecmp name dotdot ≠ 0
  /-- a directory has no entries other than the dots -/
  empty : (N (target N d k)).type = T_DIR →
    ∀ l, 2 ≤ l → l < (N (target N d k)).nslots → ((N (target N d k)).entry l).inum = 0

/-- What the code has checked before it makes the edit. -/
def Ok (sb : Superblock) (N : ℕ → Node) : Edit → Prop
  | .none => True
  | .link d name i => CanAdd sb N d name ∧ i < sb.ninodes ∧ (N i).type ≠ 0 ∧ (N i).type ≠ T_DIR
  | .create d name i type _ _ =>
    CanAdd sb N d name ∧ 0 < i ∧ i < sb.ninodes ∧ (N i).type = 0 ∧ type ≠ 0
  | .unlink d k => CanClear sb N d k
  | .write i _ => i < sb.ninodes ∧ (N i).type ≠ 0 ∧ (N i).type ≠ T_DIR

end Edit

/-! ## Entries stay in bounds -/

/-- The entries of a directory name inodes of the disk. -/
def Node.Bounded (sb : Superblock) (x : Node) : Prop :=
  x.type = T_DIR → ∀ k < x.nslots, (x.entry k).inum < sb.ninodes

section Edits

variable {sb : Superblock} {N : ℕ → Node} {e : Edit} {i : ℕ}

theorem Node.Bounded.addEntry {x : Node} (h : x.Bounded sb) (hsmall : sb.ninodes ≤ 65536)
    (hi : i < sb.ninodes) (name : List UInt8) : (x.addEntry name i).Bounded sb := by
  intro ht k hk
  by_cases hkf : k = x.freeSlot
  · rw [hkf, Node.entry_addEntry_self (by omega)]
    exact hi
  · rw [Node.nslots_addEntry] at hk
    have := x.freeSlot_le
    rw [Node.entry_addEntry_ne hkf]
    exact h ht k (by omega)

theorem Node.Bounded.clear {x : Node} (h : x.Bounded sb) (h0 : 0 < sb.ninodes) {k : ℕ}
    (hk : k < x.nslots) : (x.clear k).Bounded sb := by
  intro ht j hj
  by_cases hjk : j = k
  · rw [hjk, Node.entry_clear_self hk]
    exact h0
  · rw [Node.nslots_clear hk] at hj
    rw [Node.entry_clear_ne hk hjk]
    exact h ht j hj

theorem bounded_newNode (hsmall : sb.ninodes ≤ 65536) {d : ℕ} (hd : d < sb.ninodes)
    (hi : i < sb.ninodes) (type major minor : UInt16) :
    (newNode d i type major minor).Bounded sb := by
  have hnil : (⟨type, major, minor, 1, []⟩ : Node).Bounded sb := by
    intro _ k hk
    have h0 : (⟨type, major, minor, 1, []⟩ : Node).nslots = 0 := Nat.zero_div 16
    rw [h0] at hk
    exact absurd hk (Nat.not_lt_zero k)
  rw [newNode]
  split
  · exact (hnil.addEntry hsmall hi dot).addEntry hsmall hd dotdot
  · exact hnil

namespace Edit

/-- What holds of all files holds after an edit, if it holds of the files that change. -/
theorem forall_update (P : ℕ → Node → Prop) {N : ℕ → Node} {x : Node} (h : ∀ j, P j (N j))
    (hx : P i x) : ∀ j, P j (update N i x j) := by
  intro j
  by_cases hj : j = i
  · subst hj
    rwa [update_self]
  · rw [update_of_ne hj]
    exact h j

/-- What an edit makes of a file that changes. -/
theorem forall_apply (P : ℕ → Node → Prop) (h : ∀ j, P j (N j))
    (hlink : ∀ d name i, e = .link d name i →
      P i ((N i).withNlink ((N i).nlink + 1)) ∧ P d ((N d).addEntry name i))
    (hcreate : ∀ d name i type major minor, e = .create d name i type major minor →
      P i (newNode d i type major minor) ∧ ∀ v, P d (((N d).withNlink v).addEntry name i))
    (hunlink : ∀ d k, e = .unlink d k → ∀ v, P d (((N d).clear k).withNlink v) ∧
      P (target N d k) ((N (target N d k)).withNlink v))
    (hwrite : ∀ i data, e = .write i data → P i { N i with data := data }) :
    ∀ j, P j (e.apply N j) := by
  cases e with
  | none => exact h
  | link d name i =>
    obtain ⟨h1, h2⟩ := hlink d name i rfl
    exact forall_update P (forall_update P h h1) h2
  | create d name i type major minor =>
    obtain ⟨h1, h2⟩ := hcreate d name i type major minor rfl
    exact forall_update P (forall_update P h h1) (h2 _)
  | unlink d k =>
    exact forall_update P (forall_update P h (hunlink d k rfl _).1) (hunlink d k rfl _).2
  | write i data => exact forall_update P h (hwrite i data rfl)

theorem bounded (hok : Ok sb N e) (hsmall : sb.ninodes ≤ 65536) (h : ∀ j, (N j).Bounded sb) :
    ∀ j, (e.apply N j).Bounded sb := by
  refine forall_apply (fun _ x => x.Bounded sb) h ?_ ?_ ?_ ?_
  · rintro d name i rfl
    exact ⟨h i, (h d).addEntry hsmall hok.2.1 name⟩
  · rintro d name i type major minor rfl
    obtain ⟨hd, -, hi, -⟩ := hok
    exact ⟨bounded_newNode hsmall hd.lt hi type major minor,
      fun v => Node.Bounded.addEntry (x := (N d).withNlink v) (h d) hsmall hi name⟩
  · rintro d k rfl v
    have h0 := hok.lt
    exact ⟨(h d).clear (by omega) hok.slot, h _⟩
  · rintro i data rfl ht
    exact absurd ht hok.2.2

/-- Edits make inodes of the disk only. -/
theorem out (hok : Ok sb N e) (h : ∀ j, (N j).type ≠ 0 → j < sb.ninodes) :
    ∀ j, (e.apply N j).type ≠ 0 → j < sb.ninodes := by
  refine forall_apply (fun j x => x.type ≠ 0 → j < sb.ninodes) h ?_ ?_ ?_ ?_
  · rintro d name i rfl
    exact ⟨fun _ => hok.2.1, fun _ => hok.1.lt⟩
  · rintro d name i type major minor rfl
    exact ⟨fun _ => hok.2.2.1, fun _ _ => hok.1.lt⟩
  · rintro d k rfl v
    exact ⟨fun _ => hok.lt, fun _ => hok.bound⟩
  · rintro i data rfl _
    exact hok.1

end Edit

end Edits

/-! ## Files that nobody holds -/

/-- The files without the ones that have no links and no references; `ρ` counts the references. -/
def sweep (ρ : ℕ → ℕ) (N : ℕ → Node) (j : ℕ) : Node :=
  if ρ j = 0 ∧ (N j).Removed then .free else N j

section Sweep

variable {ρ ρ' : ℕ → ℕ} {N : ℕ → Node} {i j : ℕ}

theorem sweep_of_kept (h : (N j).Removed → 0 < ρ j) : sweep ρ N j = N j :=
  if_neg fun hc => absurd (h hc.2) (by omega)

theorem sweep_eq_self (h : ∀ j, (N j).Removed → 0 < ρ j) : sweep ρ N = N :=
  funext fun j => sweep_of_kept (h j)

/-- The last `iput` is a sweep if all other files stay. -/
theorem release_eq_sweep (h : ∀ j, j ≠ i → (N j).Removed → 0 < ρ j) :
    release ρ N i = sweep ρ N := by
  funext j
  by_cases hj : j = i
  · subst hj
    rw [release, sweep]
    split
    · rw [update_self]
    · rfl
  · rw [sweep_of_kept (h j hj), release]
    split
    · rw [update_of_ne hj]
    · rfl

theorem not_removed_free : ¬Node.free.Removed := fun h => h.1 rfl

/-- What is left is held. -/
theorem removed_sweep (h : (sweep ρ N j).Removed) : 0 < ρ j ∧ (N j).Removed := by
  rw [sweep] at h
  split at h
  · exact absurd h not_removed_free
  · rename_i hc
    exact ⟨Nat.pos_of_ne_zero fun h0 => hc ⟨h0, h⟩, h⟩

/-- Sweeping again, with fewer references. -/
theorem sweep_sweep (h : ∀ j, ρ' j ≤ ρ j) : sweep ρ' (sweep ρ N) = sweep ρ' N := by
  funext j
  by_cases hj : ρ j = 0 ∧ (N j).Removed
  · have h0 : ρ' j = 0 := by
      have := h j
      omega
    have hfree : sweep ρ N j = .free := if_pos hj
    rw [sweep, hfree, if_neg fun hc => not_removed_free hc.2, sweep, if_pos ⟨h0, hj.2⟩]
  · have hsame : sweep ρ N j = N j := if_neg hj
    rw [sweep, hsame]
    rfl

end Sweep

end Xv6
