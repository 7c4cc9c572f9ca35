import Xv6.Bytes

/-!
# Parameters and disk layout

The constants of `param.h` and `fs.h` that the development uses, and the disk layout `mkfs.c`
writes into the super block:

    [ boot block | super block | log | inode blocks | free bit map | data blocks ]

Block numbers are natural numbers below `FSSIZE`; a block is `BSIZE` bytes. `Stop` lists the ways
in which the modelled code can fail to go on.
-/

namespace Xv6

/-- Why a machine stops. -/
inductive Stop : Type where
  /-- the party is not at a point where it can take this step (or it sleeps) -/
  | blocked
  /-- `panic(msg)` -/
  | panic (msg : String)
  /-- an access outside an array -/
  | outOfBounds
  /-- an access through a null pointer -/
  | nullDeref
  /-- a division by zero -/
  | divideError
  /-- a switch to a context that does not exist, or that another CPU is running on -/
  | badContext
  /-- a call that the contract of the function excludes; only the abstract file system, where such
  a call has no meaning, stops for this reason -/
  | misuse
  deriving DecidableEq, Repr

/-- maximum number of processes -/
abbrev NPROC : ℕ := 64
/-- open files per process -/
abbrev NOFILE : ℕ := 16
/-- open files per system -/
abbrev NFILE : ℕ := 100
/-- maximum number of active i-nodes -/
abbrev NINODE : ℕ := 50
/-- max # of blocks any FS op writes -/
abbrev MAXOPBLOCKS : ℕ := 10
/-- max data blocks in on-disk log -/
abbrev LOGSIZE : ℕ := MAXOPBLOCKS * 3
/-- size of file system in blocks -/
abbrev FSSIZE : ℕ := 1000
/-- block size -/
abbrev BSIZE : ℕ := 512

theorem logsize_eq : LOGSIZE = 30 := rfl

/-- One disk block. -/
abbrev Block : Type := Bytes BSIZE

/-- The contents of the disk, block by block. -/
abbrev Disk : Type := ℕ → Block

/-! ## The layout `mkfs` writes -/

/-- `NINODES` of `mkfs.c`. -/
abbrev NINODES : ℕ := 200
/-- Inodes per block: `BSIZE / sizeof(struct dinode)`, with 64-byte inodes. -/
abbrev IPB : ℕ := 8
/-- `BSIZE*8`: bitmap bits per block -/
abbrev BPB : ℕ := 4096

/-- `struct superblock`. -/
structure Superblock where
  /-- Size of file system image (blocks) -/
  size : ℕ
  /-- Number of data blocks -/
  nblocks : ℕ
  /-- Number of inodes. -/
  ninodes : ℕ
  /-- Number of log blocks -/
  nlog : ℕ
  /-- Block number of first log block -/
  logstart : ℕ
  /-- Block number of first inode block -/
  inodestart : ℕ
  /-- Block number of first free map block -/
  bmapstart : ℕ
  deriving DecidableEq, Repr

namespace Mkfs

/-- `int nbitmap = FSSIZE/(BSIZE*8) + 1` -/
def nbitmap : ℕ := FSSIZE / (BSIZE * 8) + 1
/-- `int ninodeblocks = NINODES / IPB + 1` -/
def ninodeblocks : ℕ := NINODES / IPB + 1
/-- `int nlog = LOGSIZE` -/
def nlog : ℕ := LOGSIZE
/-- `nmeta = 2 + nlog + ninodeblocks + nbitmap` -/
def nmeta : ℕ := 2 + nlog + ninodeblocks + nbitmap

/-- The super block `mkfs` writes. -/
def sb : Superblock where
  size := FSSIZE
  nblocks := FSSIZE - nmeta
  ninodes := NINODES
  nlog := nlog
  logstart := 2
  inodestart := 2 + nlog
  bmapstart := 2 + nlog + ninodeblocks

end Mkfs

/-! ## The log region -/

/-- Where the log lies on disk: `log.start` and `log.size` as `initlog` reads them from the
super block. The region is not empty and lies on the disk. -/
structure LogRegion where
  /-- `log.start = sb.logstart`, the header block -/
  start : ℕ
  /-- `log.size = sb.nlog`, header included -/
  size : ℕ
  pos : 0 < size
  fits : start + size ≤ FSSIZE

/-- `b` is one of the log's blocks. -/
def LogRegion.Has (r : LogRegion) (b : ℕ) : Prop := r.start ≤ b ∧ b < r.start + r.size

instance (r : LogRegion) (b : ℕ) : Decidable (r.Has b) := inferInstanceAs (Decidable (_ ∧ _))

/-- The log region of a file system made by `mkfs`. -/
def LogRegion.mkfs : LogRegion where
  start := Mkfs.sb.logstart
  size := Mkfs.sb.nlog
  pos := by decide
  fits := by decide

end Xv6
