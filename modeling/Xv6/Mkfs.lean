import Xv6.Dir

/-!
# Making a file system: `mkfs.c`

`mkfs` runs on the host and writes the image that the kernel starts with: an empty file system, a
root directory, and a file for each of its arguments. It has its own code for inodes and blocks,
`ialloc` and `iappend`, and fills the bitmap at the end.

* The image is a host file. Its sectors are read and written whole, and reading past its end fails.
* `xshort` and `xint` turn numbers into the byte order of the disk, which is what `Dinode` and
  `Dirent` read and write; they do not show here.
* The arguments are the names and contents of files that can be opened and read; `read` gets `BSIZE`
  bytes of a file at a time, fewer at its end.
-/

namespace Xv6

namespace Mkfs

/-- Why `mkfs` does not end with `exit(0)`. -/
inductive Fail : Type where
  /-- `exit(1)` -/
  | exit
  /-- a failed `assert` -/
  | abort
  deriving DecidableEq, Repr

/-- What `mkfs` works on. -/
structure State where
  /-- the sectors of `fs.img` -/
  img : Disk
  /-- the length of `fs.img`, in sectors -/
  len : ℕ
  freeinode : ℕ
  freeblock : ℕ

/-- Code of `mkfs`. -/
abbrev Mk (α : Type) : Type := Exec Fail State α

open Exec

/-! ## Sectors and inodes -/

def rsect (sec : ℕ) : Mk Block := fun m =>
  if sec < m.len then .ok (m.img sec, m) else .error .exit

def wsect (sec : ℕ) (buf : Block) : Mk Unit :=
  modify fun m => { m with img := Function.update m.img sec buf, len := max m.len (sec + 1) }

def winode (inum : ℕ) (din : Dinode) : Mk Unit := do
  let buf ← rsect (IBLOCK sb inum)
  wsect (IBLOCK sb inum) (Dinode.write buf (inum % IPB) din)

def rinode (inum : ℕ) : Mk Dinode := do
  let buf ← rsect (IBLOCK sb inum)
  return Dinode.read buf (inum % IPB)

/-- `freeinode++` -/
def nextInode : Mk ℕ := fun m => .ok (m.freeinode, { m with freeinode := m.freeinode + 1 })

/-- `freeblock++` -/
def nextBlock : Mk ℕ := fun m => .ok (m.freeblock, { m with freeblock := m.freeblock + 1 })

/-- A new inode of the given type, with one link. -/
def ialloc (type : UInt16) : Mk ℕ := do
  let inum ← nextInode
  winode inum { type, major := 0, minor := 0, nlink := 1, size := 0, addrs := fun _ => 0 }
  return inum

/-- The bitmap block in which the first `used` bits are set. -/
def bitmap (used : ℕ) : Block := (List.range used).foldl (fun b i => b.setBit i true) Bytes.zero

def balloc (used : ℕ) : Mk Unit :=
  if used < BSIZE * 8 then wsect sb.bmapstart (bitmap used) else stop .abort

/-! ## Appending to a file -/

/-- `if(xint(din.addrs[k]) == 0) din.addrs[k] = xint(freeblock++)` -/
def fillAddr (din : Dinode) (k : ℕ) : Mk Dinode :=
  if din.addrs k = 0 then do
    let b ← nextBlock
    return { din with addrs := Function.update din.addrs k b }
  else return din

/-- The entry of the indirect block, in `iappend`. -/
def fillEntry (din : Dinode) (ind j : ℕ) : Mk (Dinode × ℕ) := do
  let indirect ← rsect ind
  if indirect.u32 (4 * j) = 0 then do
    let b ← nextBlock
    wsect ind (indirect.setU32 (4 * j) b)
    return (din, b)
  else return (din, indirect.u32 (4 * j))

/-- The block with number `fbn` of the file, as `iappend` finds or allocates it. -/
def blockOf (din : Dinode) (fbn : ℕ) : Mk (Dinode × ℕ) :=
  if fbn < NDIRECT then do
    let din ← fillAddr din fbn
    return (din, din.addrs fbn)
  else do
    let din ← fillAddr din NDIRECT
    fillEntry din (din.addrs NDIRECT) (fbn - NDIRECT)

/-- The loop of `iappend`. -/
def appendLoop : ℕ → Dinode → ℕ → List UInt8 → Mk (Dinode × ℕ)
  | 0, din, off, _ => return (din, off)
  | fuel + 1, din, off, p =>
    if p.length = 0 then return (din, off)
    else if off / BSIZE < MAXFILE then do
      let (din, x) ← blockOf din (off / BSIZE)
      let n := min p.length (BSIZE - off % BSIZE)
      let buf ← rsect x
      wsect x (buf.splice (off % BSIZE) (p.take n))
      appendLoop fuel din (off + n) (p.drop n)
    else stop .abort

/-- Append the bytes `p` to the file `inum`. -/
def iappend (inum : ℕ) (p : List UInt8) : Mk Unit := do
  let din ← rinode inum
  let (din, off) ← appendLoop p.length din din.size p
  winode inum { din with size := off }

/-! ## The program -/

/-- `for(i = 0; i < FSSIZE; i++) wsect(i, zeroes)`, for the sectors from `i` on -/
def clearSects : ℕ → ℕ → Mk Unit
  | 0, _ => return ()
  | n + 1, i => do
    wsect i Bytes.zero
    clearSects n (i + 1)

/-- The bytes of `struct superblock`. -/
def sbBytes (s : Superblock) : List UInt8 :=
  [s.size, s.nblocks, s.ninodes, s.nlog, s.logstart, s.inodestart, s.bmapstart].flatMap Bytes.le32

/-- A new entry of the directory `dir`. -/
def appendEntry (dir inum : ℕ) (name : List UInt8) : Mk Unit :=
  iappend dir (Dirent.bytes ⟨inum, strncpy name DIRSIZ⟩)

/-- `while((cc = read(fd, buf, sizeof(buf))) > 0) iappend(inum, buf, cc)` -/
def copyFile (inum : ℕ) : ℕ → List UInt8 → Mk Unit
  | 0, _ => return ()
  | fuel + 1, src =>
    if src = [] then return ()
    else do
      iappend inum (src.take BSIZE)
      copyFile inum fuel (src.drop BSIZE)

/-- A file of the host: the argument that names it, a C string, and its contents. -/
structure HostFile where
  arg : List UInt8
  data : List UInt8
  arg_str : 0 ∉ arg

/-- The name in the file system: skip leading _ in name. -/
def HostFile.name (f : HostFile) : List UInt8 :=
  if f.arg.head? = some 95 then f.arg.tail else f.arg

/-- The loop over the arguments. -/
def addFiles (rootino : ℕ) : List HostFile → Mk Unit
  | [] => return ()
  | f :: fs =>
    if Code.slash ∈ f.arg then stop .abort
    else do
      let inum ← ialloc T_FILE
      appendEntry rootino inum f.name
      copyFile inum f.data.length f.data
      addFiles rootino fs

/-- Fix size of root inode dir. -/
def fixRoot (rootino : ℕ) : Mk Unit := do
  let din ← rinode rootino
  winode rootino { din with size := (din.size / BSIZE + 1) * BSIZE }

/-- `main`, after the super block has been written. -/
def makeRoot (files : List HostFile) : Mk Unit := do
  let rootino ← ialloc T_DIR
  if rootino ≠ ROOTINO then stop .abort
  else do
    appendEntry rootino rootino dot
    appendEntry rootino rootino dotdot
    addFiles rootino files
    fixRoot rootino
    let used ← gets fun m => m.freeblock
    balloc used

/-- `main`, from the empty image on. -/
def main (files : List HostFile) : Mk Unit := do
  clearSects FSSIZE 0
  wsect 1 (Bytes.zero.splice 0 (sbBytes sb))
  makeRoot files

/-- The new file `fs.img`, and the counters. -/
def start : State where
  img := fun _ => Bytes.zero
  len := 0
  freeinode := 1
  freeblock := nmeta

/-- **`mkfs fs.img files...`**: the image, if it exits with 0. -/
def mkfs (files : List HostFile) : Except Fail State := (main files start).map Prod.snd

end Mkfs

end Xv6
