import Xv6.Store

/-!
# Directories and paths: the upper half of `fs.c`

`dirlookup`, `dirlink`, `skipelem` and `namex` as `fs.c` computes them, on top of the calls of the
inode layer. They are written once, as programs over these calls, and run on the disk or on the
abstract store.

* A directory is a file of 16-byte entries: an inode number and a name of at most `DIRSIZ`
  characters, padded with zeros. An entry with inode number 0 is free.
* Strings are lists of bytes without the terminating zero.
-/

namespace Xv6

/-- Code above the inode layer. -/
abbrev Code (α : Type) : Type := Prog Cmd Resp α

/-! ## Strings -/

/-- Directory is a file containing a sequence of dirent structures: the length of a name. -/
abbrev DIRSIZ : ℕ := 14

/-- `strncmp(p, q, n)`, with a zero after the end of a list. -/
def strncmp : List UInt8 → List UInt8 → ℕ → ℤ
  | _, _, 0 => 0
  | p, q, n + 1 =>
    if p.headD 0 ≠ 0 ∧ p.headD 0 = q.headD 0 then strncmp p.tail q.tail n
    else (p.headD 0).toNat - (q.headD 0).toNat

/-- What `strncpy(s, t, n)` leaves in the `n` bytes at `s`. -/
def strncpy : List UInt8 → ℕ → List UInt8
  | _, 0 => []
  | t, n + 1 => t.headD 0 :: if t.headD 0 ≠ 0 then strncpy t.tail n else List.replicate n 0

def namecmp (s t : List UInt8) : ℤ := strncmp s t DIRSIZ

/-- `"."` -/
def dot : List UInt8 := [46]

/-- `".."` -/
def dotdot : List UInt8 := [46, 46]

/-! ## Entries -/

/-- `struct dirent` -/
structure Dirent where
  inum : ℕ
  name : List UInt8
  deriving DecidableEq, Repr

namespace Dirent

/-- The structure in the 16 bytes read. -/
def read (b : List UInt8) : Dirent where
  inum := (b.getD 0 0).toNat + 256 * (b.getD 1 0).toNat
  name := b.drop 2

/-- The bytes of the structure. -/
def bytes (de : Dirent) : List UInt8 :=
  UInt8.ofNat de.inum :: UInt8.ofNat (de.inum / 256) :: de.name

end Dirent

namespace Code

/-! ## Calls -/

def beginOp : Code Unit := Prog.call Cmd.beginOp
def iget (i : ℕ) : Code Unit := Prog.call (Cmd.iget i)
def idup (i : ℕ) : Code Unit := Prog.call (Cmd.idup i)
def ilock (i : ℕ) : Code Unit := Prog.call (Cmd.ilock i)
def iunlock (i : ℕ) : Code Unit := Prog.call (Cmd.iunlock i)
def iput (i : ℕ) : Code Unit := Prog.call (Cmd.iput i)
def icreate (type major minor : UInt16) : Code ℕ := Prog.call (Cmd.icreate type major minor)
def stati (i : ℕ) : Code Attr := Prog.call (Cmd.stati i)
def setNlink (i : ℕ) (v : UInt16) : Code Unit := Prog.call (Cmd.setNlink i v)
def readi (i off n : ℕ) : Code (Option (List UInt8)) := Prog.call (Cmd.readi i off n)
def writei (i off : ℕ) (src : List UInt8) : Code (Option ℕ) := Prog.call (Cmd.writei i off src)
def panic {α : Type} (msg : String) : Code α := .cmd (.panic msg) fun r => r.elim

/-- Common idiom: unlock, then put. -/
def iunlockput (i : ℕ) : Code Unit := do
  iunlock i
  iput i

/-! ## Directories -/

/-- `readi(dp, (char*)&de, off, sizeof(de)) != sizeof(de)` is a panic, with message `msg`. -/
def readDirent (dp off : ℕ) (msg : String) : Code Dirent := do
  match ← readi dp off 16 with
  | some b => if b.length = 16 then return Dirent.read b else panic msg
  | none => panic msg

/-- The loop of `dirlookup`, from offset `off` on. -/
def dirlookupFrom (dp size : ℕ) (name : List UInt8) : ℕ → ℕ → Code (Option (ℕ × ℕ))
  | 0, _ => return none
  | fuel + 1, off =>
    if off < size then do
      let de ← readDirent dp off "dirlink read"
      if de.inum = 0 then dirlookupFrom dp size name fuel (off + 16)
      else if namecmp name de.name = 0 then
        -- entry matches path element
        iget de.inum
        return some (de.inum, off)
      else dirlookupFrom dp size name fuel (off + 16)
    else return none

/-- Look for a directory entry in a directory. If found, return its inode, with the byte offset
of the entry. -/
def dirlookup (dp : ℕ) (name : List UInt8) : Code (Option (ℕ × ℕ)) := do
  let st ← stati dp
  if st.type ≠ T_DIR then panic "dirlookup not DIR"
  else dirlookupFrom dp st.size name (st.size / 16 + 1) 0

/-- The loop of `dirlink` that looks for an empty dirent. -/
def emptyFrom (dp size : ℕ) : ℕ → ℕ → Code ℕ
  | 0, off => return off
  | fuel + 1, off =>
    if off < size then do
      let de ← readDirent dp off "dirlink read"
      if de.inum = 0 then return off
      else emptyFrom dp size fuel (off + 16)
    else return off

/-- Write a new directory entry (name, inum) into the directory dp. Returns 0 or -1. -/
def dirlink (dp : ℕ) (name : List UInt8) (inum : ℕ) : Code ℤ := do
  -- Check that name is not present.
  match ← dirlookup dp name with
  | some (i, _) =>
    iput i
    return -1
  | none =>
    -- Look for an empty dirent.
    let st ← stati dp
    let off ← emptyFrom dp st.size (st.size / 16 + 1) 0
    let w ← writei dp off (Dirent.bytes ⟨inum, strncpy name DIRSIZ⟩)
    if w = some 16 then return 0
    else panic "dirlink"

/-! ## Paths -/

/-- `'/'` -/
def slash : UInt8 := 47

/-- Copy the next path element from path into name. Return the name, of which only the first
`DIRSIZ` bytes count, and the path after it without leading slashes; nothing if there is no name
to remove. -/
def skipelem (path : List UInt8) : Option (List UInt8 × List UInt8) :=
  let path := path.dropWhile (· = slash)
  if path = [] then none
  else some ((path.takeWhile (· ≠ slash)).take DIRSIZ,
    (path.dropWhile (· ≠ slash)).dropWhile (· = slash))

/-- The loop of `namex`, at inode `ip`. -/
def namexFrom (nameiparent : Bool) : ℕ → ℕ → List UInt8 → Code (Option (ℕ × List UInt8))
  | 0, _, _ => return none
  | fuel + 1, ip, path =>
    match skipelem path with
    | none =>
      if nameiparent then do
        iput ip
        return none
      else return some (ip, [])
    | some (name, path) => do
      ilock ip
      let st ← stati ip
      if st.type ≠ T_DIR then
        iunlockput ip
        return none
      else if nameiparent ∧ path = [] then
        -- Stop one level early.
        iunlock ip
        return some (ip, name)
      else
        match ← dirlookup ip name with
        | none =>
          iunlockput ip
          return none
        | some (next, _) =>
          iunlockput ip
          namexFrom nameiparent fuel next path

/-- Look up and return the inode for a path name. If `nameiparent`, return the inode for the
parent and the final path element. -/
def namex (cwd : ℕ) (path : List UInt8) (nameiparent : Bool) :
    Code (Option (ℕ × List UInt8)) := do
  if path.head? = some slash then
    iget ROOTINO
    namexFrom nameiparent (path.length + 1) ROOTINO path
  else
    idup cwd
    namexFrom nameiparent (path.length + 1) cwd path

def namei (cwd : ℕ) (path : List UInt8) : Code (Option ℕ) := do
  match ← namex cwd path false with
  | some (ip, _) => return some ip
  | none => return none

def nameiparent (cwd : ℕ) (path : List UInt8) : Code (Option (ℕ × List UInt8)) :=
  namex cwd path true

end Code

end Xv6
