import Xv6.Blocks

/-!
# What the inode layer is for: an abstract store of files

The layers above `fs.c`'s inodes do not care about blocks. For them there are numbered files with
attributes, a link count and contents (`Node`), with a reference count and a lock each (`Store`).
The commands `Cmd` are what these layers call, and `Store.exec` says what each of them means: this
is the specification of the inode layer, not a translation of it.

* A command that is called against its contract (an inode that is not locked, a number that is out
  of range) has no meaning here: it stops with `Stop.misuse`. That no system call gets there is
  proved later, about the store.
* Blocks show in two places only: a write stops when the files would not fit on the disk any more,
  and `Cost` bounds what a transaction has logged so far.
-/

namespace Xv6

open Function

/-- A file: attributes and contents. A free inode has type 0. -/
structure Node where
  type : UInt16
  major : UInt16
  minor : UInt16
  nlink : UInt16
  data : List UInt8
  deriving DecidableEq, Repr

namespace Node

/-- No file. -/
def free : Node := ⟨0, 0, 0, 0, []⟩

/-- The number of data blocks of the file. -/
def nblocks (x : Node) : ℕ := (x.data.length + 511) / 512

end Node

/-- What callers look at in an inode they have locked. -/
structure Attr where
  type : UInt16
  nlink : UInt16
  size : ℕ
  deriving DecidableEq, Repr

/-- The calls of the layers above. -/
inductive Cmd : Type where
  /-- `begin_op()` -/
  | beginOp
  /-- `iget(dev, i)` -/
  | iget (i : ℕ)
  /-- `idup(ip)` -/
  | idup (i : ℕ)
  /-- `ilock(ip)` -/
  | ilock (i : ℕ)
  /-- `iunlock(ip)` -/
  | iunlock (i : ℕ)
  /-- `iput(ip)` -/
  | iput (i : ℕ)
  /-- `ip = ialloc(dev, type); ilock(ip);` set `major`, `minor` and `nlink = 1`; `iupdate(ip)` -/
  | icreate (type major minor : UInt16)
  /-- look at `ip->type`, `ip->nlink`, `ip->size` -/
  | stati (i : ℕ)
  /-- `ip->nlink = v; iupdate(ip)` -/
  | setNlink (i : ℕ) (v : UInt16)
  /-- `readi(ip, dst, off, n)` -/
  | readi (i off n : ℕ)
  /-- `writei(ip, src, off, n)` -/
  | writei (i off : ℕ) (src : List UInt8)
  /-- `panic(msg)` -/
  | panic (msg : String)

/-- What a call returns. -/
abbrev Resp : Cmd → Type
  | .icreate _ _ _ => ℕ
  | .stati _ => Attr
  | .readi _ _ _ => Option (List UInt8)
  | .writei _ _ _ => Option ℕ
  | .panic _ => Empty
  | _ => Unit

/-- What the running transaction may have logged: the bitmap block, some blocks of the inode table
(by index), and so many other blocks. -/
structure Cost where
  inodes : Finset ℕ
  blocks : ℕ

namespace Cost

/-- A bound for the number of distinct blocks logged. -/
def bound (c : Cost) : ℕ := 1 + c.inodes.card + c.blocks

/-- The block of inode `i` is logged as well. -/
def inode (c : Cost) (i : ℕ) : Cost := { c with inodes := insert (i / 8) c.inodes }

end Cost

/-- The files of a disk, with reference counts and locks. -/
structure Store where
  node : ℕ → Node
  ref : ℕ → ℕ
  busy : ℕ → Bool
  cost : Cost

namespace Store

variable (sb : Superblock)

/-- The number of cache entries in use. -/
def nused (a : Store) : ℕ := ((Finset.range sb.ninodes).filter fun i => 0 < a.ref i).card

/-- The number of data blocks that there are. -/
def capacity : ℕ := sb.size - dataStart sb

/-- The number of blocks that are in use if inode `i` holds `x`. -/
def usedWith (a : Store) (i : ℕ) (x : Node) : ℕ :=
  used sb fun j => (update a.node i x j).nblocks

/-- Inode `i` can be looked at and changed. -/
def Locked (a : Store) (i : ℕ) : Prop := i < sb.ninodes ∧ a.busy i = true

instance (a : Store) (i : ℕ) : Decidable (a.Locked sb i) := inferInstanceAs (Decidable (_ ∧ _))

/-- In use, but without links: only a reference keeps it. -/
def Removed (a : Store) (i : ℕ) : Prop := (a.node i).type ≠ 0 ∧ (a.node i).nlink = 0

instance (a : Store) (i : ℕ) : Decidable (a.Removed i) := inferInstanceAs (Decidable (_ ∧ _))

/-- Take a reference. -/
def iget (i : ℕ) : Exec Stop Store Unit := fun a =>
  if sb.ninodes ≤ i then .error .misuse
  else if 0 < a.ref i then .ok ((), { a with ref := update a.ref i (a.ref i + 1) })
  else if a.Removed i then .error .misuse
  else if a.nused sb < NINODE then .ok ((), { a with ref := update a.ref i 1 })
  else .error (.panic "iget: no inodes")

/-- Take another reference. -/
def idup (i : ℕ) : Exec Stop Store Unit := fun a =>
  if i < sb.ninodes ∧ 0 < a.ref i then
    .ok ((), { a with ref := update a.ref i (a.ref i + 1) })
  else .error .misuse

/-- Lock an inode to which there is a reference. -/
def ilock (i : ℕ) : Exec Stop Store Unit := fun a =>
  if sb.ninodes ≤ i then .error .misuse
  else if a.ref i = 0 then .error (.panic "ilock")
  else if a.busy i then .error .blocked
  else if (a.node i).type = 0 then .error (.panic "ilock: no type")
  else .ok ((), { a with busy := update a.busy i true })

def iunlock (i : ℕ) : Exec Stop Store Unit := fun a =>
  if a.Locked sb i then .ok ((), { a with busy := update a.busy i false })
  else .error .misuse

/-- Give up a reference, which is not the last one if the inode is locked; with the last one a file
without links goes away. -/
def iput (i : ℕ) : Exec Stop Store Unit := fun a =>
  if i < sb.ninodes ∧ 0 < a.ref i ∧ (a.busy i = true → 1 < a.ref i) then
    if a.ref i = 1 ∧ a.Removed i then
      .ok ((), { a with
        node := update a.node i .free
        ref := update a.ref i 0
        cost := a.cost.inode i })
    else .ok ((), { a with ref := update a.ref i (a.ref i - 1) })
  else .error .misuse

/-- The first free inode among `n` from `i` on. -/
def firstFree (node : ℕ → Node) : ℕ → ℕ → Option ℕ
  | 0, _ => none
  | n + 1, i => if (node i).type = 0 then some i else firstFree node n (i + 1)

theorem firstFree_some {node : ℕ → Node} : ∀ {n i j : ℕ}, firstFree node n i = some j →
    i ≤ j ∧ j < i + n ∧ (node j).type = 0 := by
  intro n
  induction n with
  | zero => rintro i j ⟨⟩
  | succ n ih =>
    intro i j h
    rw [firstFree] at h
    split at h
    · rename_i ht
      cases h
      exact ⟨le_rfl, by omega, ht⟩
    · obtain ⟨h1, h2, h3⟩ := ih h
      exact ⟨by omega, by omega, h3⟩

/-- Make an empty file with one link, locked, with a reference to it. -/
def icreate (type major minor : UInt16) : Exec Stop Store ℕ := fun a =>
  if type = 0 then .error .misuse
  else match firstFree a.node (sb.ninodes - 1) 1 with
    | none => .error (.panic "ialloc: no inodes")
    | some i =>
      if 0 < a.ref i ∨ a.nused sb < NINODE then
        .ok (i, {
          node := update a.node i ⟨type, major, minor, 1, []⟩
          ref := update a.ref i (a.ref i + 1)
          busy := update a.busy i true
          cost := a.cost.inode i })
      else .error (.panic "iget: no inodes")

def stati (i : ℕ) : Exec Stop Store Attr := fun a =>
  if a.Locked sb i then
    .ok (⟨(a.node i).type, (a.node i).nlink, (a.node i).data.length⟩, a)
  else .error .misuse

def setNlink (i : ℕ) (v : UInt16) : Exec Stop Store Unit := fun a =>
  if a.Locked sb i then
    .ok ((), { a with
      node := update a.node i { a.node i with nlink := v }
      cost := a.cost.inode i })
  else .error .misuse

/-- Read from a file: the bytes, or `none` for -1. -/
def readi (i off n : ℕ) : Exec Stop Store (Option (List UInt8)) := fun a =>
  if a.Locked sb i then
    if (a.node i).type = T_DEV then
      if (a.node i).major = 1 then .error .blocked else .ok (none, a)
    else if off > (a.node i).data.length ∨ off + n ≥ 2 ^ 32 then .ok (none, a)
    else .ok (some (((a.node i).data.drop off).take n), a)
  else .error .misuse

/-- Overwrite and extend. -/
def overwrite (data : List UInt8) (off : ℕ) (src : List UInt8) : List UInt8 :=
  data.take off ++ src ++ data.drop (off + src.length)

theorem length_overwrite {data src : List UInt8} {off : ℕ} (h : off ≤ data.length) :
    (overwrite data off src).length = max data.length (off + src.length) := by
  simp only [overwrite, List.length_append, List.length_take, List.length_drop]
  omega

/-- What a write of `n > 0` bytes at `off` to inode `i` logs: the blocks it writes, if the file
grows also the block of its inode, and an indirect block if it grows beyond the direct blocks. -/
def writeCost (c : Cost) (i size off n : ℕ) : Cost :=
  let c := { c with blocks := c.blocks + ((off + n + 511) / 512 - off / 512) }
  if size < off + n then
    { c.inode i with blocks := c.blocks + if 512 * 12 < off + n then 1 else 0 }
  else c

/-- Write to a file: the number of bytes written, or `none` for -1. -/
def writei (i off : ℕ) (src : List UInt8) : Exec Stop Store (Option ℕ) := fun a =>
  if a.Locked sb i then
    if (a.node i).type = T_DEV then
      if (a.node i).major = 1 then .ok (some src.length, a) else .ok (none, a)
    else if off > (a.node i).data.length ∨ off + src.length ≥ 2 ^ 32 then .ok (none, a)
    else if off + src.length > MAXFILE * BSIZE then .ok (none, a)
    else
      let x := { a.node i with data := overwrite (a.node i).data off src }
      if capacity sb < a.usedWith sb i x then .error (.panic "balloc: out of blocks")
      else .ok (some src.length, { a with
        node := update a.node i x
        cost := if src = [] then a.cost
          else writeCost a.cost i (a.node i).data.length off src.length })
  else .error .misuse

/-- The meaning of the calls. -/
def exec : (c : Cmd) → Exec Stop Store (Resp c)
  | .beginOp => Exec.modify fun a => { a with cost := ⟨∅, 0⟩ }
  | .iget i => iget sb i
  | .idup i => idup sb i
  | .ilock i => ilock sb i
  | .iunlock i => iunlock sb i
  | .iput i => iput sb i
  | .icreate type major minor => icreate sb type major minor
  | .stati i => stati sb i
  | .setNlink i v => setNlink sb i v
  | .readi i off n => readi sb i off n
  | .writei i off src => writei sb i off src
  | .panic msg => Exec.stop (.panic msg)

end Store

end Xv6
