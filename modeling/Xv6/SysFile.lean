import Xv6.Dir

/-!
# File system calls: `sysfile.c` and `file.c`

The system calls on files, as programs over the calls of the inode layer. What a call needs of the
process and of the table of open files is handed to it.

* `begin_op` starts the count of logged blocks; nothing else happens at either end of a
  transaction on this level (see `Xv6.Log`).
-/

namespace Xv6

namespace Code

/-! ## Links -/

/-- the label `bad` of `sys_link` -/
def linkBad (ip : ℕ) : Code ℤ := do
  ilock ip
  let st ← stati ip
  setNlink ip (st.nlink - 1)
  iunlockput ip
  return -1

/-- `sys_link` between its `begin_op` and its `end_op`: create the path new as a link to the same
inode as old. -/
def sysLink (cwd : ℕ) (old new : List UInt8) : Code ℤ := do
  beginOp
  match ← namei cwd old with
  | none => return -1
  | some ip =>
    ilock ip
    let st ← stati ip
    if st.type = T_DIR then
      iunlockput ip
      return -1
    else
      setNlink ip (st.nlink + 1)
      iunlock ip
      match ← nameiparent cwd new with
      | none => linkBad ip
      | some (dp, name) =>
        ilock dp
        if (← dirlink dp name ip) < 0 then
          iunlockput dp
          linkBad ip
        else
          iunlockput dp
          iput ip
          return 0

/-- The loop of `isdirempty`, from offset `off` on. -/
def isdiremptyFrom (dp size : ℕ) : ℕ → ℕ → Code Bool
  | 0, _ => return true
  | fuel + 1, off =>
    if off < size then do
      let de ← readDirent dp off "isdirempty: readi"
      if de.inum ≠ 0 then return false
      else isdiremptyFrom dp size fuel (off + 16)
    else return true

/-- Is the directory dp empty except for "." and ".." ? -/
def isdirempty (dp : ℕ) : Code Bool := do
  let st ← stati dp
  isdiremptyFrom dp st.size (st.size / 16 + 1) 32

/-- A link count is a `short`; its sign bit. -/
def negative (v : UInt16) : Bool := 32768 ≤ v.toNat

/-- `if(ip->type == T_DIR){ dp->nlink--; iupdate(dp); }` -/
def unlinkParent (dp : ℕ) (type : UInt16) : Code Unit :=
  if type = T_DIR then do
    let st ← stati dp
    setNlink dp (st.nlink - 1)
  else return ()

/-- the label `bad` of `sys_unlink` -/
def unlinkBad (dp : ℕ) : Code ℤ := do
  iunlockput dp
  return -1

/-- `!(ip->type == T_DIR && !isdirempty(ip))` -/
def removable (ip : ℕ) (type : UInt16) : Code Bool :=
  if type = T_DIR then isdirempty ip else return true

/-- `sys_unlink` after its checks: clear the entry and drop the link. -/
def unlinkClear (dp ip off : ℕ) (st : Attr) : Code ℤ := do
  let w ← writei dp off (List.replicate 16 0)
  if w ≠ some 16 then panic "unlink: writei"
  else
    unlinkParent dp st.type
    iunlockput dp
    setNlink ip (st.nlink - 1)
    iunlockput ip
    return 0

/-- `sys_unlink` once the entry has been found, at offset `off` of the directory `dp`. -/
def unlinkEntry (dp ip off : ℕ) : Code ℤ := do
  ilock ip
  let st ← stati ip
  if st.nlink = 0 ∨ negative st.nlink then panic "unlink: nlink < 1"
  else if ← removable ip st.type then unlinkClear dp ip off st
  else
    iunlockput ip
    unlinkBad dp

def sysUnlink (cwd : ℕ) (path : List UInt8) : Code ℤ := do
  beginOp
  match ← nameiparent cwd path with
  | none => return -1
  | some (dp, name) =>
    ilock dp
    -- Cannot unlink "." or "..".
    if namecmp name dot = 0 ∨ namecmp name dotdot = 0 then unlinkBad dp
    else
      match ← dirlookup dp name with
      | none => unlinkBad dp
      | some (ip, off) => unlinkEntry dp ip off

/-! ## Making files -/

/-- The lines of `create` that make the dots of a new directory. -/
def createDots (ip dp : ℕ) (type : UInt16) : Code Unit :=
  if type = T_DIR then do
    let st ← stati dp
    -- for ".."
    setNlink dp (st.nlink + 1)
    -- No ip->nlink++ for ".": avoid cyclic ref count.
    if (← dirlink ip dot ip) < 0 then panic "create dots"
    else if (← dirlink ip dotdot dp) < 0 then panic "create dots"
    else return ()
  else return ()

/-- `create` when there is an entry with this name already. -/
def createFound (dp ip : ℕ) (type : UInt16) : Code (Option ℕ) := do
  iunlockput dp
  ilock ip
  let st ← stati ip
  if type = T_FILE ∧ st.type = T_FILE then return some ip
  else
    iunlockput ip
    return none

/-- `create` when there is none. -/
def createNew (dp : ℕ) (name : List UInt8) (type major minor : UInt16) : Code (Option ℕ) := do
  let ip ← icreate type major minor
  createDots ip dp type
  if (← dirlink dp name ip) < 0 then panic "create: dirlink"
  else
    iunlockput dp
    return some ip

/-- Returns the inode, locked, or nothing. -/
def create (cwd : ℕ) (path : List UInt8) (type major minor : UInt16) : Code (Option ℕ) := do
  match ← nameiparent cwd path with
  | none => return none
  | some (dp, name) =>
    ilock dp
    match ← dirlookup dp name with
    | some (ip, _) => createFound dp ip type
    | none => createNew dp name type major minor

/-! ## Writing -/

/-- `int max = ((LOGSIZE-1-1-2) / 2) * 512;` -/
def maxWrite : ℕ := (LOGSIZE - 1 - 1 - 2) / 2 * 512

/-- One turn of the loop of `filewrite`. -/
def writeChunk (ip off : ℕ) (src : List UInt8) : Code (Option ℕ) := do
  beginOp
  ilock ip
  let r ← writei ip off src
  iunlock ip
  return r

end Code

/-! ## Open files -/

/-- `struct file` -/
structure File where
  ref : ℕ
  readable : Bool
  writable : Bool
  ip : ℕ
  off : ℕ
  deriving Repr

namespace Tables

/-- The first slot below `n` for which `f` holds. -/
def firstSlot (n : ℕ) (f : ℕ → Bool) : Option ℕ := (List.range n).find? f

theorem firstSlot_some {n i : ℕ} {g : ℕ → Bool} (h : firstSlot n g = some i) : i < n ∧ g i = true :=
  ⟨List.mem_range.mp (List.mem_of_find?_eq_some h), List.find?_some h⟩

end Tables

end Xv6
