import Xv6.Dinode
import Xv6.Prog

/-!
# Blocks and inodes: the lower half of `fs.c`

The block allocator, the inode cache, and reading and writing the contents of an inode, as
`fs.c` computes them. The state is the disk as `bread` shows it (what the log and the buffer cache
below make of the raw disk is the subject of `Xv6.Log`), the inode cache, and the list of blocks
that the running transaction has passed to `log_write`.

* There is one device, so an inode is named by its number, and the cache is a map from numbers to
  entries: of the `NINODE` entries at most one is in use (`ref > 0`) for a number, and what is in
  an entry with `ref = 0` is never looked at. `nused` counts the entries in use.
* Each function is one uninterrupted computation: these are the contents of a single system call
  that runs alone. A process that would wait for itself is stopped with `Stop.blocked`.
* Block numbers, sizes and offsets are natural numbers; where a C expression can wrap around, the
  test is written out. The 16-bit fields of an inode are 16-bit words.
-/

namespace Xv6

open Function

/-- Block containing inode i -/
def IBLOCK (sb : Superblock) (i : ℕ) : ℕ := i / IPB + sb.inodestart

/-- Block of free map containing bit for block b -/
def BBLOCK (sb : Superblock) (b : ℕ) : ℕ := b / BPB + sb.bmapstart

/-- in-memory copy of an inode -/
structure Inode where
  /-- Reference count -/
  ref : ℕ
  /-- `I_BUSY` -/
  busy : Bool
  /-- `I_VALID` -/
  valid : Bool
  /-- copy of disk inode -/
  d : Dinode

/-- What the file system code works on. -/
structure FsState where
  disk : Disk
  icache : ℕ → Inode
  /-- the number of cache entries with `ref > 0` -/
  nused : ℕ
  /-- the blocks passed to `log_write` since `begin_op`, in order -/
  logged : List ℕ

/-- File system code. -/
abbrev FS (α : Type) : Type := Exec Stop FsState α

namespace Fs

open Exec

/-! ## Blocks -/

/-- Read a block. The disk driver refuses blocks past the end of the disk. -/
def bread (b : ℕ) : FS Block := fun s =>
  if b < FSSIZE then .ok (s.disk b, s) else .error (.panic "incorrect blockno")

/-- The caller has changed the contents of block `b` to `d` and logs it. -/
def logWrite (b : ℕ) (d : Block) : FS Unit :=
  modify fun s => { s with disk := update s.disk b d, logged := s.logged ++ [b] }

/-- Zero a block. -/
def bzero (bno : ℕ) : FS Unit := do
  let _ ← bread bno
  logWrite bno Bytes.zero

/-- The inner loop of `balloc`: the first clear bit of a bitmap block among the `n` bits from bit
`bi` on, where `b` is the block that bit 0 stands for. -/
def clearBit (sb : Superblock) (bp : Block) (b : ℕ) : ℕ → ℕ → Option ℕ
  | 0, _ => none
  | n + 1, bi =>
    if b + bi < sb.size then if bp.bit bi then clearBit sb bp b n (bi + 1) else some bi
    else none

/-- The outer loop of `balloc` over the bitmap blocks, from bitmap block `k` on, whose first bit
stands for block `b = k * BPB`. -/
def ballocFrom (sb : Superblock) : ℕ → ℕ → FS ℕ
  | 0, _ => stop (.panic "balloc: out of blocks")
  | fuel + 1, k =>
    let b := BPB * k
    if b < sb.size then do
      let bp ← bread (BBLOCK sb b)
      -- Is block free?
      match clearBit sb bp b BPB 0 with
      | some bi =>
        -- Mark block in use.
        logWrite (BBLOCK sb b) (bp.setBit bi true)
        bzero (b + bi)
        return b + bi
      | none => ballocFrom sb fuel (k + 1)
    else stop (.panic "balloc: out of blocks")

/-- Allocate a zeroed disk block. -/
def balloc (sb : Superblock) : FS ℕ := ballocFrom sb (sb.size / BPB + 1) 0

/-- Free a disk block. `sb` is what `readsb` reads first (`Fs.readsb`). -/
def bfree (sb : Superblock) (b : ℕ) : FS Unit := do
  let bp ← bread (BBLOCK sb b)
  if bp.bit (b % BPB) then logWrite (BBLOCK sb b) (bp.setBit (b % BPB) false)
  else stop (.panic "freeing free block")

/-! ## The inode cache -/

def inode (i : ℕ) : FS Inode := gets fun s => s.icache i

theorem bind_inode {α : Type} {i : ℕ} {f : Inode → FS α} {s : FsState} :
    (inode i >>= f) s = f (s.icache i) s := rfl

def setInode (i : ℕ) (x : Inode) : FS Unit :=
  modify fun s => { s with icache := update s.icache i x }

/-- Change the in-memory copy of the disk inode. -/
def setDinode (i : ℕ) (d : Dinode) : FS Unit :=
  modify fun s => { s with icache := update s.icache i { s.icache i with d := d } }

/-- Find the inode with number inum on device dev and return the in-memory copy. Does not lock
the inode and does not read it from disk. -/
def iget (inum : ℕ) : FS Unit := do
  let ip ← inode inum
  if 0 < ip.ref then
    setInode inum { ip with ref := ip.ref + 1 }
  else
    let nused ← gets fun s => s.nused
    if nused < NINODE then
      modify fun s => { s with
        icache := update s.icache inum { ip with ref := 1, busy := false, valid := false }
        nused := s.nused + 1 }
    else stop (.panic "iget: no inodes")

/-- Increment reference count for ip. -/
def idup (inum : ℕ) : FS Unit := do
  let ip ← inode inum
  setInode inum { ip with ref := ip.ref + 1 }

/-- The loop of `ialloc`, from `inum` on. -/
def iallocFrom (sb : Superblock) (type : UInt16) : ℕ → ℕ → FS ℕ
  | 0, _ => stop (.panic "ialloc: no inodes")
  | fuel + 1, inum => do
    let bp ← bread (IBLOCK sb inum)
    -- a free inode
    if (Dinode.read bp (inum % IPB)).type = 0 then
      -- mark it allocated on the disk
      logWrite (IBLOCK sb inum) (Dinode.write bp (inum % IPB)
        { type, major := 0, minor := 0, nlink := 0, size := 0, addrs := fun _ => 0 })
      iget inum
      return inum
    else iallocFrom sb type fuel (inum + 1)

/-- Allocate a new inode with the given type on device dev. A free inode has a type of zero. -/
def ialloc (sb : Superblock) (type : UInt16) : FS ℕ := iallocFrom sb type (sb.ninodes - 1) 1

/-- Copy a modified in-memory inode to disk. -/
def iupdate (sb : Superblock) (inum : ℕ) : FS Unit := do
  let ip ← inode inum
  let bp ← bread (IBLOCK sb inum)
  logWrite (IBLOCK sb inum) (Dinode.write bp (inum % IPB) ip.d)

/-- Lock the given inode. Reads the inode from disk if necessary. -/
def ilock (sb : Superblock) (inum : ℕ) : FS Unit := do
  let ip ← inode inum
  if ip.ref < 1 then stop (.panic "ilock")
  else if ip.busy then stop .blocked
  else
    setInode inum { ip with busy := true }
    if ip.valid then pure ()
    else
      let bp ← bread (IBLOCK sb inum)
      let d := Dinode.read bp (inum % IPB)
      setInode inum { ip with busy := true, valid := true, d := d }
      if d.type = 0 then stop (.panic "ilock: no type") else pure ()

/-- Unlock the given inode. -/
def iunlock (inum : ℕ) : FS Unit := do
  let ip ← inode inum
  if !ip.busy ∨ ip.ref < 1 then stop (.panic "iunlock")
  else setInode inum { ip with busy := false }

/-! ## Inode content -/

/-- The address in slot `k` of `ip->addrs`, after allocating a block for it if there is none. -/
def bmapDirect (sb : Superblock) (inum k : ℕ) : FS ℕ := do
  let ip ← inode inum
  if ip.d.addrs k = 0 then
    let addr ← balloc sb
    setDinode inum { ip.d with addrs := update ip.d.addrs k addr }
    return addr
  else return ip.d.addrs k

/-- The address in entry `j` of the indirect block `ind`, after allocating a block for it if there
is none. -/
def bmapEntry (sb : Superblock) (ind j : ℕ) : FS ℕ := do
  let bp ← bread ind
  if bp.u32 (4 * j) = 0 then
    let addr ← balloc sb
    logWrite ind (bp.setU32 (4 * j) addr)
    return addr
  else return bp.u32 (4 * j)

/-- Return the disk block address of the nth block in inode ip. If there is no such block, bmap
allocates one. -/
def bmap (sb : Superblock) (inum bn : ℕ) : FS ℕ :=
  if bn < NDIRECT then bmapDirect sb inum bn
  else if bn - NDIRECT < NINDIRECT then do
    -- Load indirect block, allocating if necessary.
    let addr ← bmapDirect sb inum NDIRECT
    bmapEntry sb addr (bn - NDIRECT)
  else stop (.panic "bmap: out of range")

/-- The first loop of `itrunc`: free the direct blocks with the given indices. -/
def truncDirect (sb : Superblock) (inum : ℕ) : List ℕ → FS Unit
  | [] => pure ()
  | k :: ks => do
    let ip ← inode inum
    if ip.d.addrs k = 0 then truncDirect sb inum ks
    else
      bfree sb (ip.d.addrs k)
      setDinode inum { ip.d with addrs := update ip.d.addrs k 0 }
      truncDirect sb inum ks

/-- The second loop of `itrunc`: free the blocks with the given indices in the indirect block. -/
def truncIndirect (sb : Superblock) (bp : Block) : List ℕ → FS Unit
  | [] => pure ()
  | j :: js => do
    if bp.u32 (4 * j) = 0 then truncIndirect sb bp js
    else
      bfree sb (bp.u32 (4 * j))
      truncIndirect sb bp js

/-- The part of `itrunc` that frees the indirect block and the blocks in it. -/
def truncBlock (sb : Superblock) (inum : ℕ) : FS Unit := do
  let ip ← inode inum
  if ip.d.addrs NDIRECT = 0 then pure ()
  else
    let bp ← bread (ip.d.addrs NDIRECT)
    truncIndirect sb bp (List.range NINDIRECT)
    bfree sb (ip.d.addrs NDIRECT)
    setDinode inum { ip.d with addrs := update ip.d.addrs NDIRECT 0 }

/-- Truncate inode (discard contents). Only called when the inode has no links to it (no
directory entries referring to it) and has no in-memory reference to it (is not an open file or
current directory). -/
def itrunc (sb : Superblock) (inum : ℕ) : FS Unit := do
  truncDirect sb inum (List.range NDIRECT)
  truncBlock sb inum
  let ip ← inode inum
  setDinode inum { ip.d with size := 0 }
  iupdate sb inum

/-- `ip->ref--` -/
def dropRef (inum : ℕ) : FS Unit :=
  modify fun s => { s with
    icache := update s.icache inum { s.icache inum with ref := (s.icache inum).ref - 1 }
    nused := if (s.icache inum).ref = 1 then s.nused - 1 else s.nused }

/-- Drop a reference to an in-memory inode. If that was the last reference, the inode cache entry
can be recycled. If that was the last reference and the inode has no links to it, free the inode
(and its content) on disk. -/
def iput (sb : Superblock) (inum : ℕ) : FS Unit := do
  let ip ← inode inum
  if ip.ref = 1 ∧ ip.valid ∧ ip.d.nlink = 0 then
    -- inode has no links and no other references: truncate and free.
    if ip.busy then stop (.panic "iput busy")
    else
      setInode inum { ip with busy := true }
      itrunc sb inum
      let ip ← inode inum
      setDinode inum { ip.d with type := 0 }
      iupdate sb inum
      let ip ← inode inum
      setInode inum { ip with busy := false, valid := false }
      dropRef inum
  else dropRef inum

/-- The only device with a driver is the console. -/
def hasDriver (d : Dinode) : Bool := d.major == 1

/-- The loop of `readi`: `n` bytes from `off` on. -/
def readLoop (sb : Superblock) (inum : ℕ) : ℕ → ℕ → ℕ → FS (List UInt8)
  | 0, _, _ => pure []
  | fuel + 1, off, n =>
    if n = 0 then pure []
    else do
      let addr ← bmap sb inum (off / BSIZE)
      let bp ← bread addr
      let m := min n (BSIZE - off % BSIZE)
      let rest ← readLoop sb inum fuel (off + m) (n - m)
      return bp.slice (off % BSIZE) m ++ rest

/-- Read data from inode: the bytes read, or `none` for -1. What a console read returns comes from
outside. -/
def readi (sb : Superblock) (inum off n : ℕ) : FS (Option (List UInt8)) := do
  let ip ← inode inum
  if ip.d.type = T_DEV then
    if hasDriver ip.d then stop .blocked else return none
  else if off > ip.d.size ∨ off + n ≥ 2 ^ 32 then return none
  else
    let n := if off + n > ip.d.size then ip.d.size - off else n
    let bytes ← readLoop sb inum n off n
    return some bytes

/-- The loop of `writei`: write `src` from `off` on. -/
def writeLoop (sb : Superblock) (inum : ℕ) : ℕ → ℕ → List UInt8 → FS Unit
  | 0, _, _ => pure ()
  | fuel + 1, off, src =>
    if src.length = 0 then pure ()
    else do
      let addr ← bmap sb inum (off / BSIZE)
      let bp ← bread addr
      let m := min src.length (BSIZE - off % BSIZE)
      logWrite addr (bp.splice (off % BSIZE) (src.take m))
      writeLoop sb inum fuel (off + m) (src.drop m)

/-- Write data to inode: the number of bytes written, or `none` for -1. -/
def writei (sb : Superblock) (inum off : ℕ) (src : List UInt8) : FS (Option ℕ) := do
  let ip ← inode inum
  let n := src.length
  if ip.d.type = T_DEV then
    if hasDriver ip.d then return some n else return none
  else if off > ip.d.size ∨ off + n ≥ 2 ^ 32 then return none
  else if off + n > MAXFILE * BSIZE then return none
  else
    writeLoop sb inum n off src
    if n > 0 ∧ off + n > ip.d.size then
      let ip ← inode inum
      setDinode inum { ip.d with size := off + n }
      iupdate sb inum
      return some n
    else return some n

end Fs

end Xv6
