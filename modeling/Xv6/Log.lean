import Xv6.Machine
import Xv6.Param
import Mathlib.Logic.Function.Basic

/-!
# The redo log: `log.c` as a machine

`log.c` with the part of the buffer cache it rests on. Any number of processes (named by
natural numbers) open operations with `begin_op`, store blocks with `log_write` and close them
with `end_op`; the last `end_op` of a group runs `commit`. One event of the machine is one
lock-protected segment or one disk write of one process, so a list of events is an interleaving,
and the disk of every state reached is a disk that a crash can leave behind.

* `log_write` is **two** events, as in the source: the capacity test happens before
  `acquire(&log.lock)` (`logCheck`), the insertion after it (`logInsert`).
* `commit` is one event for each `bwrite` it makes: `write_log` and `install_trans` one log slot
  at a time, the two `write_head`s.
* The buffer cache is a partial map from block numbers to buffers. Which clean buffer `bget`
  recycles is left open: `evict` drops any buffer that is neither busy nor dirty, `load` reads
  one in.
* `crash` keeps the disk and nothing else, and starts `recover_from_log`, itself one event for
  each disk write.

A process that would sleep in `begin_op` is not able to take that event (`Stop.blocked`); the
`panic`s of the source stop the machine with their text, and an index past the end of
`lh.block[LOGSIZE]` stops it with `Stop.outOfBounds`.
-/

namespace Xv6

open Function

/-! ## The log header -/

/-- `struct logheader`, in memory: the count and the block numbers. Only `block[0..n)` means
anything; entries left over from an earlier group stay in the array. -/
structure LogHeader where
  n : ℕ
  block : ℕ → ℕ

namespace LogHeader

/-- The logged block numbers, in slot order. -/
def blocks (lh : LogHeader) : List ℕ := (List.range lh.n).map lh.block

/-- The slot at which `log_write`'s search loop stops: the slot that holds `b`, or `n`. -/
def slot (lh : LogHeader) (b : ℕ) : ℕ :=
  ((List.range lh.n).find? fun i => lh.block i == b).getD lh.n

/-- `lh.block[i] = b; if (i == lh.n) lh.n++`, with `i` the slot the search found. -/
def insert (lh : LogHeader) (b : ℕ) : LogHeader where
  n := if lh.slot b = lh.n then lh.n + 1 else lh.n
  block := update lh.block (lh.slot b) b

/-- `hb->n` of a header block. -/
def diskN (hb : Block) : ℕ := hb.u32 0

/-- `hb->block[i]` of a header block. -/
def diskBlock (hb : Block) (i : ℕ) : ℕ := hb.u32 (4 + 4 * i)

/-- What `read_head` copies from the header block into memory. -/
def read (hb : Block) (lh : LogHeader) : LogHeader where
  n := diskN hb
  block := fun i => if i < diskN hb then diskBlock hb i else lh.block i

/-- What `write_head` stores over the header block: `n`, then `block[0..n)`; the rest of the
block stays as it was read. -/
def write (lh : LogHeader) (hb : Block) : Block :=
  (List.range lh.n).foldl (fun hb i => hb.setU32 (4 + 4 * i) (lh.block i)) (hb.setU32 0 lh.n)

end LogHeader

/-- `struct log` (without its lock and the device number). -/
structure Log where
  start : ℕ
  size : ℕ
  /-- how many FS sys calls are executing. -/
  outstanding : ℕ
  /-- in commit(), please wait. -/
  committing : Bool
  lh : LogHeader

/-- A valid buffer: its contents and its `B_DIRTY` flag. -/
structure Buf where
  data : Block
  dirty : Bool

/-! ## Control points -/

/-- How far a process has come in `commit`. -/
inductive CommitPc : Type where
  /-- about to test `log.lh.n > 0` -/
  | start
  /-- in `write_log`, about to write log slot `tail` -/
  | writeLog (tail : ℕ)
  /-- about to write the header: the real commit -/
  | writeHead
  /-- in `install_trans`, about to install log slot `tail` -/
  | install (tail : ℕ)
  /-- about to erase the transaction from the log -/
  | clearHead
  /-- back in `end_op`, about to reset `log.committing` -/
  | endCommit
  deriving DecidableEq

/-- Where a process is, as far as the log is concerned. -/
inductive LogPc : Type where
  /-- outside any operation -/
  | idle
  /-- between `begin_op` and `end_op` -/
  | inOp
  /-- in `log_write` of block `b`, past the capacity test -/
  | logging (b : ℕ)
  /-- in the `commit` of its `end_op` -/
  | commit (c : CommitPc)

/-- How far `recover_from_log` has come. -/
inductive RecPc : Type where
  | readHead
  | install (tail : ℕ)
  | clearHead
  deriving DecidableEq

/-- The state of the log, the buffers, the disk and every process. -/
structure LogSys where
  log : Log
  cache : ℕ → Option Buf
  /-- the buffer is held by a process that is about to log it -/
  busy : ℕ → Bool
  pc : ℕ → LogPc
  /-- the machine has restarted and `initlog` has not returned yet -/
  recovering : Option RecPc
  disk : Disk

/-- One atomic step of a process, of the buffer cache, or a crash. -/
inductive LogEvent : Type where
  | beginOp (p : ℕ)
  /-- `p` has changed block `b`, calls `log_write`, and makes the capacity test -/
  | logCheck (p b : ℕ)
  /-- `p` enters block `b`, with the new contents `d`, into the log -/
  | logInsert (p b : ℕ) (d : Block)
  | endOp (p : ℕ)
  | commit (p : ℕ)
  | writeLog (p : ℕ)
  /-- the first `write_head` of `commit` -/
  | writeHead (p : ℕ)
  | installTrans (p : ℕ)
  /-- the second `write_head` of `commit` -/
  | clearHead (p : ℕ)
  | endCommit (p : ℕ)
  | load (b : ℕ)
  | evict (b : ℕ)
  | crash
  | recoverRead
  | recoverInstall
  | recoverClear

namespace LogSys

/-! ## Buffers -/

/-- The contents `bread` returns. -/
def view (s : LogSys) (b : ℕ) : Block :=
  match s.cache b with
  | some buf => buf.data
  | none => s.disk b

/-- `bread` leaves the block in the cache. -/
def bread (s : LogSys) (b : ℕ) : LogSys :=
  match s.cache b with
  | some _ => s
  | none => { s with cache := update s.cache b (some ⟨s.disk b, false⟩) }

/-- Put `d` into block `b`'s buffer and `bwrite` it: the driver clears `B_DIRTY`. -/
def bwrite (s : LogSys) (b : ℕ) (d : Block) : LogSys :=
  { s with
    cache := update s.cache b (some ⟨d, false⟩)
    disk := update s.disk b d }

/-- The disk driver refuses blocks past the end of the disk. -/
def onDisk (b : ℕ) (k : Except Stop LogSys) : Except Stop LogSys :=
  if b < FSSIZE then k else .error (.panic "incorrect blockno")

def setPc (s : LogSys) (p : ℕ) (c : LogPc) : LogSys := { s with pc := update s.pc p c }

def setLh (s : LogSys) (lh : LogHeader) : LogSys := { s with log := { s.log with lh := lh } }

/-! ## The bodies of `write_log`, `write_head` and `install_trans` -/

/-- One iteration of `write_log`: copy the cached block to its log slot and write that. -/
def writeLogSlot (s : LogSys) (tail : ℕ) : LogSys :=
  let lbuf := s.log.start + tail + 1
  let s := (s.bread lbuf).bread (s.log.lh.block tail)
  s.bwrite lbuf (s.view (s.log.lh.block tail))

/-- One iteration of `install_trans`: copy the log slot to its home location. -/
def installSlot (s : LogSys) (tail : ℕ) : LogSys :=
  let lbuf := s.log.start + tail + 1
  let s := (s.bread lbuf).bread (s.log.lh.block tail)
  s.bwrite (s.log.lh.block tail) (s.view lbuf)

/-- `write_head`: write the in-memory header to disk. -/
def writeHeadBlock (s : LogSys) : LogSys :=
  let s := s.bread s.log.start
  s.bwrite s.log.start (s.log.lh.write (s.view s.log.start))

/-- `read_head`: read the header from disk into memory. -/
def readHeadBlock (s : LogSys) : LogSys :=
  let s := s.bread s.log.start
  s.setLh (LogHeader.read (s.view s.log.start) s.log.lh)

/-! ## The step function -/

/-- Restart: the memory is lost, the disk stays, and `initlog` is about to recover. -/
def restart (r : LogRegion) (d : Disk) : LogSys where
  log := { start := r.start, size := r.size, outstanding := 0, committing := false,
           lh := { n := 0, block := fun _ => 0 } }
  cache := fun _ => none
  busy := fun _ => false
  pc := fun _ => .idle
  recovering := some .readHead
  disk := d

/-- A running system with an empty log and nothing in progress. -/
def start (r : LogRegion) (d : Disk) : LogSys := { restart r d with recovering := none }

/-- `begin_op`: a process that finds the log committing or short of space sleeps. -/
def beginOp (s : LogSys) (p : ℕ) : Except Stop LogSys :=
  match s.pc p, s.recovering with
  | .idle, none =>
    if s.log.committing then .error .blocked
    else if s.log.lh.n + (s.log.outstanding + 1) * MAXOPBLOCKS > LOGSIZE then .error .blocked
    else .ok ({ s with log := { s.log with outstanding := s.log.outstanding + 1 } }.setPc p .inOp)
  | _, _ => .error .blocked

/-- `log_write` up to `acquire(&log.lock)`. The caller holds the buffer, which it can only have
if nobody else does and the disk has such a block. -/
def logCheck (s : LogSys) (p b : ℕ) : Except Stop LogSys :=
  match s.pc p with
  | .inOp =>
    onDisk b <|
      if s.busy b then .error .blocked
      else if s.log.lh.n ≥ LOGSIZE ∨ s.log.lh.n ≥ s.log.size - 1 then
        .error (.panic "too big a transaction")
      else if s.log.outstanding < 1 then .error (.panic "log_write outside of trans")
      else .ok ({ s with busy := update s.busy b true }.setPc p (.logging b))
  | _ => .error .blocked

/-- The rest of `log_write`, under the lock, and the `brelse` after it. -/
def logInsert (s : LogSys) (p b : ℕ) (d : Block) : Except Stop LogSys :=
  match s.pc p with
  | .logging b' =>
    if b' = b then
      if s.log.lh.slot b < LOGSIZE then
        .ok ({ s.setLh (s.log.lh.insert b) with
          cache := update s.cache b (some ⟨d, true⟩)
          busy := update s.busy b false }.setPc p .inOp)
      else .error .outOfBounds
    else .error .blocked
  | _ => .error .blocked

/-- `end_op` up to the call of `commit`. -/
def endOp (s : LogSys) (p : ℕ) : Except Stop LogSys :=
  match s.pc p with
  | .inOp =>
    let s := { s with log := { s.log with outstanding := s.log.outstanding - 1 } }
    if s.log.committing then .error (.panic "log.committing")
    else if s.log.outstanding = 0 then
      .ok ({ s with log := { s.log with committing := true } }.setPc p (.commit .start))
    else .ok (s.setPc p .idle)
  | _ => .error .blocked

/-! ### `commit` -/

/-- `commit` begins: an empty group has nothing to write. -/
def commit (s : LogSys) (p : ℕ) : Except Stop LogSys :=
  match s.pc p with
  | .commit .start =>
    .ok (s.setPc p (.commit (if s.log.lh.n > 0 then .writeLog 0 else .endCommit)))
  | _ => .error .blocked

/-- `write_log`: one log slot, or the end of the loop. -/
def writeLog (s : LogSys) (p : ℕ) : Except Stop LogSys :=
  match s.pc p with
  | .commit (.writeLog tail) =>
    if tail < s.log.lh.n then
      onDisk (s.log.start + tail + 1) <|
        .ok ((s.writeLogSlot tail).setPc p (.commit (.writeLog (tail + 1))))
    else .ok (s.setPc p (.commit .writeHead))
  | _ => .error .blocked

/-- The first `write_head`: the real commit. -/
def writeHead (s : LogSys) (p : ℕ) : Except Stop LogSys :=
  match s.pc p with
  | .commit .writeHead => .ok (s.writeHeadBlock.setPc p (.commit (.install 0)))
  | _ => .error .blocked

/-- `install_trans`: one log slot, or the end of the loop and `log.lh.n = 0`. -/
def installTrans (s : LogSys) (p : ℕ) : Except Stop LogSys :=
  match s.pc p with
  | .commit (.install tail) =>
    if tail < s.log.lh.n then
      onDisk (s.log.start + tail + 1) <| onDisk (s.log.lh.block tail) <|
        .ok ((s.installSlot tail).setPc p (.commit (.install (tail + 1))))
    else .ok ((s.setLh { s.log.lh with n := 0 }).setPc p (.commit .clearHead))
  | _ => .error .blocked

/-- The second `write_head`: erase the transaction from the log. -/
def clearHead (s : LogSys) (p : ℕ) : Except Stop LogSys :=
  match s.pc p with
  | .commit .clearHead => .ok (s.writeHeadBlock.setPc p (.commit .endCommit))
  | _ => .error .blocked

/-- The rest of `end_op` after `commit`. -/
def endCommit (s : LogSys) (p : ℕ) : Except Stop LogSys :=
  match s.pc p with
  | .commit .endCommit => .ok ({ s with log := { s.log with committing := false } }.setPc p .idle)
  | _ => .error .blocked

/-! ### `recover_from_log` -/

/-- `read_head` of `recover_from_log`. -/
def recoverRead (s : LogSys) : Except Stop LogSys :=
  match s.recovering with
  | some .readHead =>
    if LogHeader.diskN (s.view s.log.start) ≤ LOGSIZE then
      .ok { s.readHeadBlock with recovering := some (.install 0) }
    else .error .outOfBounds
  | _ => .error .blocked

/-- `install_trans` of `recover_from_log`: one log slot, or the end of the loop. -/
def recoverInstall (s : LogSys) : Except Stop LogSys :=
  match s.recovering with
  | some (.install tail) =>
    if tail < s.log.lh.n then
      onDisk (s.log.start + tail + 1) <| onDisk (s.log.lh.block tail) <|
        .ok { s.installSlot tail with recovering := some (.install (tail + 1)) }
    else .ok { s.setLh { s.log.lh with n := 0 } with recovering := some .clearHead }
  | _ => .error .blocked

/-- The `write_head` that ends `recover_from_log`. -/
def recoverClear (s : LogSys) : Except Stop LogSys :=
  match s.recovering with
  | some .clearHead => .ok { s.writeHeadBlock with recovering := none }
  | _ => .error .blocked

/-- `bget` recycles a buffer that is neither busy nor dirty. -/
def evict (s : LogSys) (b : ℕ) : Except Stop LogSys :=
  match s.cache b with
  | some ⟨_, false⟩ =>
    if s.busy b then .error .blocked else .ok { s with cache := update s.cache b none }
  | _ => .error .blocked

/-- One event of the machine. -/
def step (r : LogRegion) (s : LogSys) : LogEvent → Except Stop LogSys
  | .beginOp p => s.beginOp p
  | .logCheck p b => s.logCheck p b
  | .logInsert p b d => s.logInsert p b d
  | .endOp p => s.endOp p
  | .commit p => s.commit p
  | .writeLog p => s.writeLog p
  | .writeHead p => s.writeHead p
  | .installTrans p => s.installTrans p
  | .clearHead p => s.clearHead p
  | .endCommit p => s.endCommit p
  | .load b => onDisk b (.ok (s.bread b))
  | .evict b => s.evict b
  | .crash => .ok (restart r s.disk)
  | .recoverRead => s.recoverRead
  | .recoverInstall => s.recoverInstall
  | .recoverClear => s.recoverClear

/-! ## What each operation leaves alone -/

section Frame

variable (s : LogSys) (p b tail : ℕ) (d : Block) (c : LogPc) (lh : LogHeader)

@[simp] theorem setPc_log : (s.setPc p c).log = s.log := rfl
@[simp] theorem setPc_cache : (s.setPc p c).cache = s.cache := rfl
@[simp] theorem setPc_disk : (s.setPc p c).disk = s.disk := rfl
@[simp] theorem setPc_recovering : (s.setPc p c).recovering = s.recovering := rfl
@[simp] theorem setPc_pc : (s.setPc p c).pc = update s.pc p c := rfl
@[simp] theorem setPc_view : (s.setPc p c).view b = s.view b := rfl

@[simp] theorem setLh_log : (s.setLh lh).log = { s.log with lh := lh } := rfl
@[simp] theorem setLh_cache : (s.setLh lh).cache = s.cache := rfl
@[simp] theorem setLh_disk : (s.setLh lh).disk = s.disk := rfl
@[simp] theorem setLh_recovering : (s.setLh lh).recovering = s.recovering := rfl
@[simp] theorem setLh_pc : (s.setLh lh).pc = s.pc := rfl

@[simp] theorem bread_log : (s.bread b).log = s.log := by unfold bread; split <;> rfl
@[simp] theorem bread_disk : (s.bread b).disk = s.disk := by unfold bread; split <;> rfl
@[simp] theorem bread_pc : (s.bread b).pc = s.pc := by unfold bread; split <;> rfl
@[simp] theorem bread_recovering : (s.bread b).recovering = s.recovering := by
  unfold bread; split <;> rfl

@[simp] theorem bwrite_log : (s.bwrite b d).log = s.log := rfl
@[simp] theorem bwrite_pc : (s.bwrite b d).pc = s.pc := rfl
@[simp] theorem bwrite_recovering : (s.bwrite b d).recovering = s.recovering := rfl
@[simp] theorem bwrite_disk : (s.bwrite b d).disk = update s.disk b d := rfl

@[simp] theorem writeLogSlot_log : (s.writeLogSlot tail).log = s.log := by simp [writeLogSlot]
@[simp] theorem writeLogSlot_pc : (s.writeLogSlot tail).pc = s.pc := by simp [writeLogSlot]
@[simp] theorem writeLogSlot_recovering : (s.writeLogSlot tail).recovering = s.recovering := by
  simp [writeLogSlot]

@[simp] theorem installSlot_log : (s.installSlot tail).log = s.log := by simp [installSlot]
@[simp] theorem installSlot_pc : (s.installSlot tail).pc = s.pc := by simp [installSlot]
@[simp] theorem installSlot_recovering : (s.installSlot tail).recovering = s.recovering := by
  simp [installSlot]

@[simp] theorem writeHeadBlock_log : s.writeHeadBlock.log = s.log := by simp [writeHeadBlock]
@[simp] theorem writeHeadBlock_pc : s.writeHeadBlock.pc = s.pc := by simp [writeHeadBlock]
@[simp] theorem writeHeadBlock_recovering : s.writeHeadBlock.recovering = s.recovering := by
  simp [writeHeadBlock]

@[simp] theorem readHeadBlock_pc : s.readHeadBlock.pc = s.pc := by simp [readHeadBlock]

/-- Reading a block in does not change what any block reads as. -/
@[simp] theorem view_bread (b' : ℕ) : (s.bread b).view b' = s.view b' := by
  unfold bread
  split
  · rfl
  rename_i hc
  by_cases hb : b' = b
  · subst hb
    simp [view, hc]
  · simp [view, update_of_ne hb]

end Frame

/-! ## Inversion

What each event needs and does, once for all: later proofs never unfold a step again. -/

theorem onDisk_ok {b : ℕ} {k : Except Stop LogSys} {s' : LogSys} (h : onDisk b k = .ok s') :
    b < FSSIZE ∧ k = .ok s' := by
  unfold onDisk at h
  split at h
  · exact ⟨by assumption, h⟩
  · cases h

variable {s s' : LogSys} {p b : ℕ} {d : Block}

theorem beginOp_inv (h : s.beginOp p = .ok s') :
    s.pc p = .idle ∧ s.recovering = none ∧ s.log.committing = false ∧
      s.log.lh.n + (s.log.outstanding + 1) * MAXOPBLOCKS ≤ LOGSIZE ∧
      s' = { s with log := { s.log with outstanding := s.log.outstanding + 1 } }.setPc p .inOp := by
  unfold beginOp at h
  split at h
  · rename_i hpc hrec
    split at h
    · cases h
    rename_i hc
    split at h
    · cases h
    · rename_i hn
      exact ⟨hpc, hrec, by simpa using hc, by omega, (Except.ok.inj h).symm⟩
  · cases h

theorem logCheck_inv (h : s.logCheck p b = .ok s') :
    s.pc p = .inOp ∧ b < FSSIZE ∧ s.log.lh.n < s.log.size - 1 ∧
      s' = { s with busy := update s.busy b true }.setPc p (.logging b) := by
  unfold logCheck at h
  split at h
  · rename_i hpc
    obtain ⟨hb, h⟩ := onDisk_ok h
    split at h
    · cases h
    split at h
    · cases h
    · rename_i hn
      split at h
      · cases h
      · exact ⟨hpc, hb, by omega, (Except.ok.inj h).symm⟩
  · cases h

theorem logInsert_inv (h : s.logInsert p b d = .ok s') :
    s.pc p = .logging b ∧ s.log.lh.slot b < LOGSIZE ∧
      s' = { s.setLh (s.log.lh.insert b) with
        cache := update s.cache b (some ⟨d, true⟩)
        busy := update s.busy b false }.setPc p .inOp := by
  unfold logInsert at h
  split at h
  · rename_i b' hpc
    split at h
    · rename_i hb
      subst hb
      split at h
      · rename_i hslot
        exact ⟨hpc, hslot, (Except.ok.inj h).symm⟩
      · cases h
    · cases h
  · cases h

/-- `end_op`: the last operation of the group starts the commit, any other one just leaves. -/
theorem endOp_inv (h : s.endOp p = .ok s') : s.pc p = .inOp ∧ s.log.committing = false ∧
      ((s.log.outstanding - 1 = 0 ∧
          s' = { s with log := { s.log with outstanding := 0, committing := true } }.setPc p
            (.commit .start)) ∨
        (s.log.outstanding - 1 ≠ 0 ∧
          s' = { s with log := { s.log with outstanding := s.log.outstanding - 1 } }.setPc p
            .idle)) := by
  unfold endOp at h
  split at h
  · rename_i hpc
    dsimp only at h
    split at h
    · cases h
    rename_i hc
    refine ⟨hpc, by simpa using hc, ?_⟩
    split at h
    · rename_i ho
      rw [ho] at h
      exact .inl ⟨ho, (Except.ok.inj h).symm⟩
    · rename_i ho
      exact .inr ⟨ho, (Except.ok.inj h).symm⟩
  · cases h

theorem commit_inv (h : s.commit p = .ok s') : s.pc p = .commit .start ∧
      s' = s.setPc p (.commit (if s.log.lh.n > 0 then .writeLog 0 else .endCommit)) := by
  unfold commit at h
  split at h
  · exact ⟨by assumption, (Except.ok.inj h).symm⟩
  · cases h

theorem writeLog_inv (h : s.writeLog p = .ok s') : ∃ tail, s.pc p = .commit (.writeLog tail) ∧
      ((tail < s.log.lh.n ∧
          s' = (s.writeLogSlot tail).setPc p (.commit (.writeLog (tail + 1)))) ∨
        (s.log.lh.n ≤ tail ∧ s' = s.setPc p (.commit .writeHead))) := by
  unfold writeLog at h
  split at h
  · rename_i tail hpc
    refine ⟨tail, hpc, ?_⟩
    split at h
    · exact .inl ⟨by assumption, (Except.ok.inj (onDisk_ok h).2).symm⟩
    · exact .inr ⟨by omega, (Except.ok.inj h).symm⟩
  · cases h

theorem writeHead_inv (h : s.writeHead p = .ok s') :
    s.pc p = .commit .writeHead ∧ s' = s.writeHeadBlock.setPc p (.commit (.install 0)) := by
  unfold writeHead at h
  split at h
  · exact ⟨by assumption, (Except.ok.inj h).symm⟩
  · cases h

theorem installTrans_inv (h : s.installTrans p = .ok s') :
    ∃ tail, s.pc p = .commit (.install tail) ∧
      ((tail < s.log.lh.n ∧
          s' = (s.installSlot tail).setPc p (.commit (.install (tail + 1)))) ∨
        (s.log.lh.n ≤ tail ∧
          s' = (s.setLh { s.log.lh with n := 0 }).setPc p (.commit .clearHead))) := by
  unfold installTrans at h
  split at h
  · rename_i tail hpc
    refine ⟨tail, hpc, ?_⟩
    split at h
    · exact .inl ⟨by assumption, (Except.ok.inj (onDisk_ok (onDisk_ok h).2).2).symm⟩
    · exact .inr ⟨by omega, (Except.ok.inj h).symm⟩
  · cases h

theorem clearHead_inv (h : s.clearHead p = .ok s') :
    s.pc p = .commit .clearHead ∧ s' = s.writeHeadBlock.setPc p (.commit .endCommit) := by
  unfold clearHead at h
  split at h
  · exact ⟨by assumption, (Except.ok.inj h).symm⟩
  · cases h

theorem endCommit_inv (h : s.endCommit p = .ok s') : s.pc p = .commit .endCommit ∧
      s' = { s with log := { s.log with committing := false } }.setPc p .idle := by
  unfold endCommit at h
  split at h
  · exact ⟨by assumption, (Except.ok.inj h).symm⟩
  · cases h

theorem recoverRead_inv (h : s.recoverRead = .ok s') :
    s.recovering = some .readHead ∧ LogHeader.diskN (s.view s.log.start) ≤ LOGSIZE ∧
      s' = { s.readHeadBlock with recovering := some (.install 0) } := by
  unfold recoverRead at h
  split at h
  · split at h
    · exact ⟨by assumption, by assumption, (Except.ok.inj h).symm⟩
    · cases h
  · cases h

theorem recoverInstall_inv (h : s.recoverInstall = .ok s') :
    ∃ tail, s.recovering = some (.install tail) ∧
      ((tail < s.log.lh.n ∧
          s' = { s.installSlot tail with recovering := some (.install (tail + 1)) }) ∨
        (s.log.lh.n ≤ tail ∧
          s' = { s.setLh { s.log.lh with n := 0 } with recovering := some .clearHead })) := by
  unfold recoverInstall at h
  split at h
  · rename_i tail hrec
    refine ⟨tail, hrec, ?_⟩
    split at h
    · exact .inl ⟨by assumption, (Except.ok.inj (onDisk_ok (onDisk_ok h).2).2).symm⟩
    · exact .inr ⟨by omega, (Except.ok.inj h).symm⟩
  · cases h

theorem recoverClear_inv (h : s.recoverClear = .ok s') :
    s.recovering = some .clearHead ∧ s' = { s.writeHeadBlock with recovering := none } := by
  unfold recoverClear at h
  split at h
  · exact ⟨by assumption, (Except.ok.inj h).symm⟩
  · cases h

theorem evict_inv (h : s.evict b = .ok s') : (∃ data, s.cache b = some ⟨data, false⟩) ∧
      s' = { s with cache := update s.cache b none } := by
  unfold evict at h
  split at h
  · rename_i data hc
    split at h
    · cases h
    · exact ⟨⟨data, hc⟩, (Except.ok.inj h).symm⟩
  · cases h

end LogSys

end Xv6
