import Xv6.Log

/-!
# The buffer cache: `bio.c` under the log

`bio.c` with its `NBUF` buffers and their list in order of use, the driver of `memide.c` below it
and the log of `log.c` above it. Any number of processes read blocks, change them, log them and
release them, and the last `end_op` of a group runs `commit`, which goes through the same cache.

* A buffer is what `struct buf` has: the flags `B_BUSY`, `B_VALID` and `B_DIRTY`, the device, the
  block number and the data.
* `bread` is one event: between `bget` and the end of `iderw` the buffer is `B_BUSY`, so that no
  other process can tell the difference. A process that would sleep in `bget` is not able to take
  the event (`Stop.blocked`).
* `commit` is one event for each `bread`, each `bwrite` and each `brelse` it makes.
* `log_write` is two events, as in `LogSys`.

Three ghost fields say what the flags do not: which process holds a busy buffer, whether it has
changed the data since its last `log_write` or `bwrite`, and (`stored`) the **plain block map**
that the cache is to look like. `stored` changes where a process stores data in a block, and where
`commit` stores data in the blocks of the log; installing a logged block is not a store.
-/

namespace Xv6

open Function

/-- size of disk block cache -/
abbrev NBUF : ℕ := MAXOPBLOCKS * 3

/-- `b->dev = -1`, as `binit` leaves a buffer that was never used. -/
def NODEV : UInt32 := 0xFFFFFFFF

/-- `struct buf`: the flags `B_BUSY`, `B_VALID`, `B_DIRTY`, and what the buffer is for. -/
structure DiskBuf where
  busy : Bool
  valid : Bool
  dirty : Bool
  dev : UInt32
  blockno : ℕ
  data : Block

/-- `bcache` and the disk under it. -/
structure Bcache where
  /-- `bcache.buf[0..NBUF)` -/
  buf : ℕ → DiskBuf
  /-- the list from `head.next`, most recently used, to `head.prev` -/
  lru : List ℕ
  disk : Disk
  /-- the process that holds the buffer -/
  owner : ℕ → Option ℕ
  /-- the holder has changed the data and neither logged nor written it since -/
  changed : ℕ → Bool
  /-- what was last stored in each block -/
  stored : ℕ → Block

namespace Bcache

/-! ## `bio.c` and `memide.c` -/

/-- After `binit`, over the disk `d`. -/
def init (d : Disk) : Bcache where
  buf := fun _ => ⟨false, false, false, NODEV, 0, fun _ => 0⟩
  lru := (List.range NBUF).reverse
  disk := d
  owner := fun _ => none
  changed := fun _ => false
  stored := d

def setBuf (c : Bcache) (i : ℕ) (b : DiskBuf) : Bcache :=
  { c with buf := update c.buf i b }

/-- `iderw`: write the block if `B_DIRTY`, else read it. -/
def iderw (c : Bcache) (i : ℕ) : Except Stop Bcache :=
  let b := c.buf i
  if b.busy = false then .error (.panic "iderw: buf not busy")
  else if b.valid = true ∧ b.dirty = false then .error (.panic "iderw: nothing to do")
  else if b.dev ≠ 1 then .error (.panic "iderw: request not for disk 1")
  else if FSSIZE ≤ b.blockno then .error (.panic "iderw: block out of range")
  else if b.dirty then
    .ok { c.setBuf i { b with dirty := false, valid := true } with
      disk := update c.disk b.blockno b.data }
  else .ok (c.setBuf i { b with data := c.disk b.blockno, valid := true })

/-- The buffer that `bget`'s first loop finds for the block. -/
def lookup (c : Bcache) (dev : UInt32) (b : ℕ) : Option ℕ :=
  c.lru.find? fun i => (c.buf i).dev = dev ∧ (c.buf i).blockno = b

/-- The buffer that `bget`'s second loop recycles: the least recently used one that is neither
busy nor dirty. -/
def victim (c : Bcache) : Option ℕ :=
  c.lru.reverse.find? fun i => (c.buf i).busy = false ∧ (c.buf i).dirty = false

/-- `bget` of process `p`. -/
def bget (c : Bcache) (p : ℕ) (dev : UInt32) (b : ℕ) : Except Stop (Bcache × ℕ) :=
  match c.lookup dev b with
  | some i =>
    if (c.buf i).busy then .error .blocked
    else .ok ({ c.setBuf i { c.buf i with busy := true } with
      owner := update c.owner i (some p) }, i)
  | none =>
    match c.victim with
    | some i =>
      .ok ({ c.setBuf i ⟨true, false, false, dev, b, (c.buf i).data⟩ with
        owner := update c.owner i (some p) }, i)
    | none => .error (.panic "bget: no buffers")

/-- `bread` of process `p`: a locked buffer with the contents of the block. -/
def bread (c : Bcache) (p : ℕ) (dev : UInt32) (b : ℕ) : Except Stop (Bcache × ℕ) :=
  match c.bget p dev b with
  | .ok (c, i) =>
    if (c.buf i).valid then .ok (c, i)
    else
      match c.iderw i with
      | .ok c => .ok (c, i)
      | .error e => .error e
  | .error e => .error e

/-- `bwrite`: write the buffer to disk. -/
def bwrite (c : Bcache) (i : ℕ) : Except Stop Bcache :=
  if (c.buf i).busy = false then .error (.panic "bwrite")
  else iderw { c.setBuf i { c.buf i with dirty := true } with
    changed := update c.changed i false } i

/-- `brelse`: release the buffer and move it to the head of the list. -/
def brelse (c : Bcache) (i : ℕ) : Except Stop Bcache :=
  if (c.buf i).busy = false then .error (.panic "brelse")
  else .ok { c.setBuf i { c.buf i with busy := false } with
    lru := i :: c.lru.erase i
    owner := update c.owner i none }

/-! ## What the holder of a buffer does to it -/

/-- Overwrite the data. -/
def setData (c : Bcache) (i : ℕ) (d : Block) : Bcache :=
  c.setBuf i { c.buf i with data := d }

/-- Store `d` in the block the buffer is for. -/
def store (c : Bcache) (i : ℕ) (d : Block) : Bcache :=
  { c.setData i d with
    stored := update c.stored (c.buf i).blockno d
    changed := update c.changed i true }

/-- `b->flags |= B_DIRTY` at the end of `log_write`. -/
def pin (c : Bcache) (i : ℕ) : Bcache :=
  { c.setBuf i { c.buf i with dirty := true } with
    changed := update c.changed i false }

end Bcache

/-! ## Control points -/

/-- How far a process has come in `commit`, with the buffers it holds there. -/
inductive CommitAt : Type where
  /-- about to test `log.lh.n > 0` -/
  | start
  /-- `write_log`: about to read the log block of slot `tail` -/
  | logTo (tail : ℕ)
  /-- `write_log`: about to read the cached block -/
  | logFrom (tail tbuf : ℕ)
  /-- `write_log`: about to copy and write -/
  | logCopy (tail tbuf fbuf : ℕ)
  /-- `write_log`: about to release the cached block -/
  | logRelFrom (tail tbuf fbuf : ℕ)
  /-- `write_log`: about to release the log block -/
  | logRelTo (tail tbuf : ℕ)
  /-- `write_head`, the second one of `commit` if `again`: about to read the header block -/
  | headGet (again : Bool)
  | headPut (again : Bool) (i : ℕ)
  | headRel (again : Bool) (i : ℕ)
  /-- `install_trans`: about to read the log block of slot `tail` -/
  | instLog (tail : ℕ)
  /-- `install_trans`: about to read the destination -/
  | instHome (tail lbuf : ℕ)
  /-- `install_trans`: about to copy and write -/
  | instCopy (tail lbuf dbuf : ℕ)
  | instRelLog (tail lbuf dbuf : ℕ)
  | instRelHome (tail dbuf : ℕ)
  /-- back in `end_op`, about to reset `log.committing` -/
  | endCommit
  deriving DecidableEq

/-- Where a process is. -/
inductive BufPc : Type where
  /-- outside any operation -/
  | idle
  /-- between `begin_op` and `end_op` -/
  | inOp
  /-- in `log_write` of buffer `i`, past the capacity test -/
  | logging (i : ℕ)
  /-- in the `commit` of its `end_op` -/
  | commit (c : CommitAt)
  deriving DecidableEq

/-- The cache, the log and every process. -/
structure BufSys where
  bc : Bcache
  log : Log
  pc : ℕ → BufPc

/-- One atomic step of a process. -/
inductive BufEvent : Type where
  | beginOp (p : ℕ)
  | bread (p : ℕ) (dev : UInt32) (b : ℕ)
  /-- `p` stores `d` in the buffer `i` it holds -/
  | modify (p i : ℕ) (d : Block)
  /-- `log_write` up to `acquire(&log.lock)` -/
  | logCheck (p i : ℕ)
  /-- the rest of `log_write` -/
  | logInsert (p : ℕ)
  | bwrite (p i : ℕ)
  | brelse (p i : ℕ)
  | endOp (p : ℕ)
  /-- the next step of `p`'s `commit` -/
  | commit (p : ℕ)

namespace BufSys

/-- A running system with an empty log, an empty cache and nothing in progress. -/
def start (d : Disk) : BufSys where
  bc := .init d
  log := { start := LogRegion.mkfs.start, size := LogRegion.mkfs.size, outstanding := 0,
           committing := false, lh := { n := 0, block := fun _ => 0 } }
  pc := fun _ => .idle

def setPc (s : BufSys) (p : ℕ) (c : BufPc) : BufSys := { s with pc := update s.pc p c }

def setLh (s : BufSys) (lh : LogHeader) : BufSys := { s with log := { s.log with lh := lh } }

/-- `log.start + tail + 1` -/
def slotBlock (s : BufSys) (tail : ℕ) : ℕ := s.log.start + tail + 1

/-- The process runs code of its own: it is not inside `log_write` or `commit`. -/
def atLarge (s : BufSys) (p : ℕ) : Prop := s.pc p = .idle ∨ s.pc p = .inOp

instance (s : BufSys) (p : ℕ) : Decidable (s.atLarge p) := inferInstanceAs (Decidable (_ ∨ _))

/-- Continue with the new cache at a new control point, if there is a new cache. -/
def goto (s : BufSys) (p : ℕ) (k : CommitAt) : Except Stop Bcache → Except Stop BufSys
  | .ok c => .ok ({ s with bc := c }.setPc p (.commit k))
  | .error e => .error e

/-- A `bread` of `commit`: the next control point gets the buffer. -/
def fetch (s : BufSys) (p b : ℕ) (k : ℕ → CommitAt) : Except Stop BufSys :=
  match s.bc.bread p 1 b with
  | .ok (c, i) => .ok ({ s with bc := c }.setPc p (.commit (k i)))
  | .error e => .error e

/-- Store `d` in a block of the log; outside the log there is nothing for `commit` to store. -/
def storeLog (s : BufSys) (i : ℕ) (d : Block) : Bcache :=
  let b := (s.bc.buf i).blockno
  { s.bc.setData i d with
    stored := if s.log.start ≤ b ∧ b < s.log.start + s.log.size then
        update s.bc.stored b d
      else s.bc.stored }

/-- `commit` and the end of `end_op`, one step. -/
def commitStep (s : BufSys) (p : ℕ) : CommitAt → Except Stop BufSys
  | .start => .ok (s.setPc p (.commit (if s.log.lh.n > 0 then .logTo 0 else .endCommit)))
  | .logTo tail =>
    if tail < s.log.lh.n then s.fetch p (s.slotBlock tail) (.logFrom tail)
    else .ok (s.setPc p (.commit (.headGet false)))
  | .logFrom tail tbuf => s.fetch p (s.log.lh.block tail) (.logCopy tail tbuf)
  | .logCopy tail tbuf fbuf =>
    s.goto p (.logRelFrom tail tbuf fbuf) ((s.storeLog tbuf (s.bc.buf fbuf).data).bwrite tbuf)
  | .logRelFrom tail tbuf fbuf => s.goto p (.logRelTo tail tbuf) (s.bc.brelse fbuf)
  | .logRelTo tail tbuf => s.goto p (.logTo (tail + 1)) (s.bc.brelse tbuf)
  | .headGet again => s.fetch p s.log.start (.headPut again)
  | .headPut again i =>
    s.goto p (.headRel again i) ((s.storeLog i (s.log.lh.write (s.bc.buf i).data)).bwrite i)
  | .headRel again i => s.goto p (if again then .endCommit else .instLog 0) (s.bc.brelse i)
  | .instLog tail =>
    if tail < s.log.lh.n then s.fetch p (s.slotBlock tail) (.instHome tail)
    else .ok ((s.setLh { s.log.lh with n := 0 }).setPc p (.commit (.headGet true)))
  | .instHome tail lbuf => s.fetch p (s.log.lh.block tail) (.instCopy tail lbuf)
  | .instCopy tail lbuf dbuf =>
    s.goto p (.instRelLog tail lbuf dbuf) ((s.bc.setData dbuf (s.bc.buf lbuf).data).bwrite dbuf)
  | .instRelLog tail lbuf dbuf => s.goto p (.instRelHome tail dbuf) (s.bc.brelse lbuf)
  | .instRelHome tail dbuf => s.goto p (.instLog (tail + 1)) (s.bc.brelse dbuf)
  | .endCommit => .ok ({ s with log := { s.log with committing := false } }.setPc p .idle)

/-- One event. The guards say what a process can do where it is: it touches a buffer only while
it holds it, and releases no change that it has neither logged nor written. -/
def step (s : BufSys) : BufEvent → Except Stop BufSys
  | .beginOp p =>
    if s.pc p ≠ .idle then .error .misuse
    else if s.log.committing then .error .blocked
    else if s.log.lh.n + (s.log.outstanding + 1) * MAXOPBLOCKS > LOGSIZE then .error .blocked
    else .ok ({ s with log := { s.log with outstanding := s.log.outstanding + 1 } }.setPc p .inOp)
  | .bread p dev b =>
    if s.atLarge p then
      match s.bc.bread p dev b with
      | .ok (c, _) => .ok { s with bc := c }
      | .error e => .error e
    else .error .misuse
  | .modify p i d =>
    if s.atLarge p ∧ s.bc.owner i = some p then .ok { s with bc := s.bc.store i d }
    else .error .misuse
  | .logCheck p i =>
    if s.pc p = .inOp ∧ s.bc.owner i = some p then
      if s.log.lh.n ≥ LOGSIZE ∨ s.log.lh.n ≥ s.log.size - 1 then
        .error (.panic "too big a transaction")
      else if s.log.outstanding < 1 then .error (.panic "log_write outside of trans")
      else .ok (s.setPc p (.logging i))
    else .error .misuse
  | .logInsert p =>
    match s.pc p with
    | .logging i =>
      let b := (s.bc.buf i).blockno
      if s.log.lh.slot b < LOGSIZE then
        .ok ({ s.setLh (s.log.lh.insert b) with bc := s.bc.pin i }.setPc p .inOp)
      else .error .outOfBounds
    | _ => .error .misuse
  | .bwrite p i =>
    if s.atLarge p ∧ s.bc.owner i = some p then
      match s.bc.bwrite i with
      | .ok c => .ok { s with bc := c }
      | .error e => .error e
    else .error .misuse
  | .brelse p i =>
    if s.atLarge p ∧ s.bc.owner i = some p ∧ s.bc.changed i = false then
      match s.bc.brelse i with
      | .ok c => .ok { s with bc := c }
      | .error e => .error e
    else .error .misuse
  | .endOp p =>
    if s.pc p ≠ .inOp then .error .misuse
    else if s.log.committing then .error (.panic "log.committing")
    else if s.log.outstanding - 1 = 0 then
      .ok ({ s with log := { s.log with outstanding := s.log.outstanding - 1, committing := true } }
        |>.setPc p (.commit .start))
    else
      .ok ({ s with log := { s.log with outstanding := s.log.outstanding - 1 } }.setPc p .idle)
  | .commit p =>
    match s.pc p with
    | .commit k => s.commitStep p k
    | _ => .error .misuse

end BufSys

end Xv6
