import Xv6.Count
import Xv6.Machine
import Xv6.Prog
import Xv6.SysFile

/-!
# Open files

The table of open files (`file.c`), the descriptors of the processes, and the system calls that
make and drop references to open files: `open`, `dup`, `close`, `pipe`, `fork` and `exit`, with all
their failures. Unlike in `Xv6.SysFile`, an open file may be an end of a pipe.

* What the calls do to files and memory shows up as far as it decides where they fail: whether the
  arguments can be fetched, what `open` finds under the path, whether there is memory for a pipe or
  a child.
* An open file holds something, which it gives up when it is closed: an end of a pipe, or a
  reference to an inode (`Held`). Each time an open file is set up it gets a serial number;
  `opened` and `released` record what has been opened and what `fileclose` has given up.
* While a call runs, it holds references of its own, in its local variables. `FtInv s L` is the
  invariant in which `L` are these: each primitive has one lemma that says how it moves references
  between the descriptors and `L`, and between calls `L` is empty.
-/

namespace Xv6

open Function List

open Exec
open Tables (firstSlot firstSlot_some)

/-- What kind of open file it is: `FD_NONE`, `FD_PIPE`, `FD_INODE` -/
inductive FdType : Type where
  | none
  | pipe
  | inode
  deriving DecidableEq, Repr

/-- What an open file holds: an end of a pipe, or a reference to an inode. -/
inductive Held : Type where
  | pipe (k : ℕ) (writable : Bool)
  | inode (ip : ℕ)
  deriving DecidableEq, Repr

/-- `struct file`. A pipe is named by its number. -/
structure FileEnt where
  type : FdType
  ref : ℕ
  readable : Bool
  writable : Bool
  pipe : ℕ
  ip : ℕ
  serial : ℕ
  deriving DecidableEq, Repr

/-- What the open file holds, with its serial number. -/
def FileEnt.held (x : FileEnt) : Option (ℕ × Held) :=
  match x.type with
  | .none => Option.none
  | .pipe => some (x.serial, .pipe x.pipe x.writable)
  | .inode => some (x.serial, .inode x.ip)

/-- `p->readopen` and `p->writeopen` of a pipe -/
structure PipeEnds where
  readopen : Bool
  writeopen : Bool
  deriving DecidableEq, Repr

namespace PipeEnds

/-- Is the end open? -/
def isOpen (e : PipeEnds) (writable : Bool) : Bool := if writable then e.writeopen else e.readopen

/-- The end is closed. -/
def close (e : PipeEnds) (writable : Bool) : PipeEnds :=
  if writable then { e with writeopen := false } else { e with readopen := false }

end PipeEnds

/-- What becomes of a process slot. -/
inductive SlotState : Type where
  | unused
  | live
  | zombie
  deriving DecidableEq, Repr

/-- The table of open files, the processes, and the pipes in memory. -/
structure FtSys where
  /-- `ftable.file` -/
  file : ℕ → FileEnt
  /-- `p->ofile` -/
  ofile : ℕ → ℕ → Option ℕ
  state : ℕ → SlotState
  pipe : ℕ → Option PipeEnds
  npipes : ℕ
  nserial : ℕ
  opened : List (ℕ × Held)
  released : List (ℕ × Held)

namespace FtSys

def setFile (s : FtSys) (f : ℕ) (x : FileEnt) : FtSys :=
  { s with file := update s.file f x }

def setFd (s : FtSys) (p fd : ℕ) (o : Option ℕ) : FtSys :=
  { s with ofile := update s.ofile p (update (s.ofile p) fd o) }

def setState (s : FtSys) (p : ℕ) (x : SlotState) : FtSys :=
  { s with state := update s.state p x }

def setPipe (s : FtSys) (k : ℕ) (e : Option PipeEnds) : FtSys :=
  { s with pipe := update s.pipe k e }

/-- Open file `f` is set up as `x`. -/
def setUp (s : FtSys) (f : ℕ) (x : FileEnt) : FtSys :=
  { s.setFile f { x with serial := s.nserial } with
    nserial := s.nserial + 1
    opened := ({ x with serial := s.nserial } : FileEnt).held.toList ++ s.opened }

/-! ## `file.c` and `pipe.c` -/

/-- Allocate a file structure. -/
def filealloc : Exec Stop FtSys (Option ℕ) := do
  match ← gets fun s => firstSlot NFILE fun f => (s.file f).ref == 0 with
  | some f =>
    modify fun s => s.setFile f { s.file f with ref := 1 }
    return some f
  | none => return none

/-- Increment ref count for file f. -/
def filedup (f : ℕ) : Exec Stop FtSys Unit := do
  let x ← gets fun s => s.file f
  if x.ref < 1 then stop (.panic "filedup")
  else modify fun s => s.setFile f { x with ref := x.ref + 1 }

/-- `pipeclose`. When both ends are closed the pipe goes back to `kalloc`; a pipe that is gone
cannot be looked at. -/
def pipeclose (k : ℕ) (writable : Bool) : Exec Stop FtSys Unit := do
  match ← gets fun s => s.pipe k with
  | none => stop .nullDeref
  | some e =>
    let e := e.close writable
    if e.readopen = false ∧ e.writeopen = false then modify fun s => s.setPipe k none
    else modify fun s => s.setPipe k (some e)

/-- Give up what an open file held. (What `iput` does is not a matter of this table.) -/
def release (h : ℕ × Held) : Exec Stop FtSys Unit := do
  modify fun s => { s with released := h :: s.released }
  match h.2 with
  | .pipe k writable => pipeclose k writable
  | .inode _ => return ()

/-- Close file f. (Decrement ref count, close when reaches 0.) -/
def fileclose (f : ℕ) : Exec Stop FtSys Unit := do
  let x ← gets fun s => s.file f
  if x.ref < 1 then stop (.panic "fileclose")
  else if x.ref - 1 > 0 then modify fun s => s.setFile f { x with ref := x.ref - 1 }
  else
    modify fun s => s.setFile f { x with ref := 0, type := .none }
    match x.held with
    | some h => release h
    | none => return ()

/-- `pipealloc`; `mem` tells whether `kalloc` finds a page. -/
def pipealloc (mem : Bool) : Exec Stop FtSys (Option (ℕ × ℕ)) := do
  match ← filealloc with
  | none => return none
  | some f0 =>
    match ← filealloc with
    | none =>
      fileclose f0
      return none
    | some f1 =>
      if mem then
        modify fun s => { s.setPipe s.npipes (some ⟨true, true⟩) with npipes := s.npipes + 1 }
        modify fun s => s.setUp f0
          { s.file f0 with
            type := .pipe, readable := true, writable := false, pipe := s.npipes - 1 }
        modify fun s => s.setUp f1
          { s.file f1 with
            type := .pipe, readable := false, writable := true, pipe := s.npipes - 1 }
        return some (f0, f1)
      else
        fileclose f0
        fileclose f1
        return none

/-! ## The system calls -/

/-- Allocate a file descriptor for the given file. Takes over file reference from caller on
success. -/
def fdalloc (p f : ℕ) : Exec Stop FtSys (Option ℕ) := do
  match ← gets fun s => firstSlot NOFILE fun fd => (s.ofile p fd).isNone with
  | some fd =>
    modify fun s => s.setFd p fd (some f)
    return some fd
  | none => return none

/-- `argfd` -/
def argfd (p fd : ℕ) : Exec Stop FtSys (Option ℕ) :=
  gets fun s => if fd < NOFILE then s.ofile p fd else none

/-- `sys_open`. `ip` is the inode that the path leads to, if the path and the mode allow it. -/
def sysOpen (p : ℕ) (args : Bool) (ip : Option ℕ) (readable writable : Bool) :
    Exec Stop FtSys Unit :=
  if args then
    match ip with
    | none => return ()
    | some ip => do
      match ← filealloc with
      | none => return ()
      | some f =>
        match ← fdalloc p f with
        | none => fileclose f
        | some _ =>
          modify fun s => s.setUp f { s.file f with type := .inode, ip, readable, writable }
  else return ()

def sysDup (p fd : ℕ) : Exec Stop FtSys Unit := do
  match ← argfd p fd with
  | none => return ()
  | some f =>
    match ← fdalloc p f with
    | none => return ()
    | some _ => filedup f

def sysClose (p fd : ℕ) : Exec Stop FtSys Unit := do
  match ← argfd p fd with
  | none => return ()
  | some f =>
    modify fun s => s.setFd p fd none
    fileclose f

def sysPipe (p : ℕ) (args mem : Bool) : Exec Stop FtSys Unit :=
  if args then do
    match ← pipealloc mem with
    | none => return ()
    | some (rf, wf) =>
      match ← fdalloc p rf with
      | none =>
        fileclose rf
        fileclose wf
      | some fd0 =>
        match ← fdalloc p wf with
        | none =>
          modify fun s => s.setFd p fd0 none
          fileclose rf
          fileclose wf
        | some _ => return ()
  else return ()

/-- The loop of `fork` that copies the descriptors. -/
def dupFrom (p q : ℕ) : List ℕ → Exec Stop FtSys Unit
  | [] => return ()
  | fd :: fds => do
    match ← gets fun s => s.ofile p fd with
    | none => dupFrom p q fds
    | some f =>
      filedup f
      modify fun s => s.setFd q fd (some f)
      dupFrom p q fds

/-- `fork` into slot `q`; `mem` tells whether there is memory for the child. -/
def fork (p q : ℕ) (mem : Bool) : Exec Stop FtSys Unit := do
  -- `allocproc` makes it EMBRYO
  modify fun s => s.setState q .live
  if mem then dupFrom p q (List.range NOFILE)
  else modify fun s => s.setState q .unused

/-- The loop of `exit` that closes all open files. -/
def closeFrom (p : ℕ) : List ℕ → Exec Stop FtSys Unit
  | [] => return ()
  | fd :: fds => do
    match ← gets fun s => s.ofile p fd with
    | none => closeFrom p fds
    | some f =>
      fileclose f
      modify fun s => s.setFd p fd none
      closeFrom p fds

def exit (p : ℕ) : Exec Stop FtSys Unit := do
  closeFrom p (List.range NOFILE)
  modify fun s => s.setState p .zombie

end FtSys

/-- A system call, with what decides whether it fails. -/
inductive FtEvent : Type where
  | openFile (p : ℕ) (args : Bool) (ip : Option ℕ) (readable writable : Bool)
  | dup (p fd : ℕ)
  | close (p fd : ℕ)
  | pipe (p : ℕ) (args mem : Bool)
  /-- slot `q` is free, and `allocproc` takes it -/
  | fork (p q : ℕ) (mem : Bool)
  | exit (p : ℕ)
  /-- the parent of `p` finds it in `wait` -/
  | wait (p : ℕ)

namespace FtSys

/-- The call; a process has to be there to make it. -/
def call (s : FtSys) : FtEvent → Exec Stop FtSys Unit
  | .openFile p args ip readable writable =>
    if s.state p = .live then sysOpen p args ip readable writable else stop .misuse
  | .dup p fd => if s.state p = .live then sysDup p fd else stop .misuse
  | .close p fd => if s.state p = .live then sysClose p fd else stop .misuse
  | .pipe p args mem => if s.state p = .live then sysPipe p args mem else stop .misuse
  | .fork p q mem =>
    if s.state p = .live ∧ q < NPROC ∧ s.state q = .unused then fork p q mem else stop .misuse
  | .exit p =>
    if s.state p = .live then if p = 0 then stop (.panic "init exiting") else exit p
    else stop .misuse
  | .wait p =>
    if s.state p = .zombie then modify fun s => s.setState p .unused else stop .misuse

/-- One system call. -/
def step (s : FtSys) (e : FtEvent) : Except Stop FtSys :=
  match s.call e s with
  | .ok (_, s') => .ok s'
  | .error e => .error e

/-- Only the first process is there, and nothing is open. -/
def start : FtSys where
  file _ := ⟨.none, 0, false, false, 0, 0, 0⟩
  ofile _ _ := none
  state p := if p = 0 then .live else .unused
  pipe _ := none
  npipes := 0
  nserial := 0
  opened := []
  released := []

/-- The number of descriptors for open file `f`. -/
def fds (s : FtSys) (f : ℕ) : ℕ := countPairs NPROC NOFILE fun p fd => s.ofile p fd = some f

end FtSys

/-! ## The invariant -/

/-- The invariant while the running call holds the references `L`. -/
structure FtInv (s : FtSys) (L : List ℕ) : Prop where
  fd_lt : ∀ p fd f, s.ofile p fd = some f → p < NPROC ∧ fd < NOFILE ∧ f < NFILE
  live_lt : ∀ p, s.state p = .live → p < NPROC
  /-- only live processes have descriptors -/
  free : ∀ p, s.state p ≠ .live → ∀ fd, s.ofile p fd = none
  ref : ∀ f < NFILE, (s.file f).ref = s.fds f + L.count f
  lt : ∀ f ∈ L, f < NFILE
  /-- a file that is not open holds nothing -/
  closed : ∀ f < NFILE, (s.file f).ref = 0 → (s.file f).held = none
  held : ∀ f < NFILE, ∀ h, (s.file f).held = some h → h ∈ s.opened ∧ h ∉ s.released
  serial_inj : ∀ f < NFILE, ∀ g < NFILE, ∀ h h', (s.file f).held = some h →
    (s.file g).held = some h' → h.1 = h'.1 → f = g
  pipe_inj : ∀ f < NFILE, ∀ g < NFILE, ∀ a b k w, (s.file f).held = some (a, .pipe k w) →
    (s.file g).held = some (b, .pipe k w) → f = g
  /-- the pipe is there, and the end open -/
  pipe : ∀ f < NFILE, ∀ a k w, (s.file f).held = some (a, .pipe k w) →
    k < s.npipes ∧ ∃ e, s.pipe k = some e ∧ e.isOpen w = true
  serial_lt : ∀ h ∈ s.opened, h.1 < s.nserial
  released_sub : ∀ h ∈ s.released, h ∈ s.opened
  released_nodup : s.released.Nodup
  all : ∀ h ∈ s.opened, h ∈ s.released ∨ ∃ f < NFILE, (s.file f).held = some h

namespace FtInv

variable {s : FtSys} {L L' : List ℕ} {p q fd f g : ℕ}

theorem ofile_setFd (s : FtSys) (p fd p' fd' : ℕ) (o : Option ℕ) :
    (s.setFd p fd o).ofile p' fd' = if p' = p ∧ fd' = fd then o else s.ofile p' fd' := by
  show update s.ofile p _ p' fd' = _
  rcases eq_or_ne p' p with rfl | hp
  · rw [update_self]
    rcases eq_or_ne fd' fd with rfl | hfd
    · rw [update_self, if_pos ⟨rfl, rfl⟩]
    · rw [update_of_ne hfd, if_neg fun hc => hfd hc.2]
  · rw [update_of_ne hp, if_neg fun hc => hp hc.1]

theorem fds_setFd (s : FtSys) (hp : p < NPROC) (hfd : fd < NOFILE) (o : Option ℕ) (g : ℕ) :
    (s.setFd p fd o).fds g + (if s.ofile p fd = some g then 1 else 0) =
      s.fds g + (if o = some g then 1 else 0) := by
  have h := countPairs_change (P := fun p' fd' => s.ofile p' fd' = some g)
    (R := fun p' fd' => (s.setFd p fd o).ofile p' fd' = some g) hp hfd fun p' fd' hne => by
      rw [ofile_setFd, if_neg hne]
  have hself : (s.setFd p fd o).ofile p fd = o := by
    rw [ofile_setFd, if_pos ⟨rfl, rfl⟩]
  rwa [hself] at h

/-- A descriptor changes: a reference moves between it and the running call. -/
theorem setFd (h : FtInv s L) (hp : p < NPROC) (hfd : fd < NOFILE) {o : Option ℕ}
    (ho : ∀ g, o = some g → g < NFILE ∧ s.state p = .live) (hL : ∀ g ∈ L', g < NFILE)
    (hcount : ∀ g, L'.count g + (if o = some g then 1 else 0) =
      L.count g + (if s.ofile p fd = some g then 1 else 0)) : FtInv (s.setFd p fd o) L' := by
  refine { h with
    fd_lt := fun p' fd' f hf => ?_, free := fun p' hp' fd' => ?_, ref := fun f hf => ?_, lt := hL }
  · rw [ofile_setFd] at hf
    split at hf
    · rename_i hc
      rw [hc.1, hc.2]
      exact ⟨hp, hfd, (ho f hf).1⟩
    · exact h.fd_lt p' fd' f hf
  · rw [ofile_setFd]
    split
    · rename_i hc
      cases o with
      | none => rfl
      | some g => exact absurd (hc.1 ▸ (ho g rfl).2) hp'
    · exact h.free p' hp' fd'
  · have h1 := fds_setFd s hp hfd o f
    have h2 := hcount f
    have h3 := h.ref f hf
    show (s.file f).ref = _
    omega

/-- The reference of a descriptor goes to the running call. -/
theorem clearFd (h : FtInv s L) (hf : s.ofile p fd = some f) :
    FtInv (s.setFd p fd none) (f :: L) := by
  obtain ⟨hp, hfd, hlt⟩ := h.fd_lt p fd f hf
  refine h.setFd hp hfd (fun g hg => by cases hg) (fun g hg => ?_) fun g => ?_
  · rcases mem_cons.mp hg with rfl | hg
    · exact hlt
    · exact h.lt g hg
  · rw [hf, count_cons]
    simp

/-- The running call puts a reference into a descriptor. -/
theorem putFd (h : FtInv s (f :: L)) (hp : s.state p = .live) (hfd : fd < NOFILE)
    (hnone : s.ofile p fd = none) : FtInv (s.setFd p fd (some f)) L := by
  refine h.setFd (h.live_lt p hp) hfd (fun g hg => ?_) (fun g hg => h.lt g (.tail _ hg)) fun g => ?_
  · cases hg
    exact ⟨h.lt f (mem_cons_self ..), hp⟩
  · rw [hnone, count_cons]
    simp

/-- The count of an open file changes with the references of the running call. -/
theorem setRef (h : FtInv s L) (hf : f < NFILE) {n : ℕ} (hL : ∀ g ∈ L', g < NFILE)
    (hn : n = 0 → (s.file f).held = none) (hcount : n + L.count f = (s.file f).ref + L'.count f)
    (hother : ∀ g, g ≠ f → L'.count g = L.count g) :
    FtInv (s.setFile f { s.file f with ref := n }) L' := by
  have hheld : ∀ g, ((s.setFile f { s.file f with ref := n }).file g).held = (s.file g).held := by
    intro g
    rw [FtSys.setFile]
    rcases eq_or_ne g f with rfl | hne
    · simp only [update_self]
      rfl
    · simp only [update_of_ne hne]
  have hsame : ∀ g, (s.setFile f { s.file f with ref := n }).fds g = s.fds g := fun _ => rfl
  refine ⟨h.fd_lt, h.live_lt, h.free, fun g hg => ?_, hL, fun g hg => ?_, fun g hg => ?_,
    fun g hg g' hg' => ?_, fun g hg g' hg' => ?_, fun g hg => ?_, h.serial_lt, h.released_sub,
    h.released_nodup, fun x hx => ?_⟩
  · have href := h.ref g hg
    rw [hsame]
    rcases eq_or_ne g f with rfl | hne
    · rw [FtSys.setFile]
      simp only [update_self]
      omega
    · rw [FtSys.setFile]
      simp only [update_of_ne hne]
      rw [hother g hne]
      exact href
  · rw [hheld]
    rcases eq_or_ne g f with rfl | hne
    · rw [FtSys.setFile]
      simp only [update_self]
      exact hn
    · rw [FtSys.setFile]
      simp only [update_of_ne hne]
      exact h.closed g hg
  · rw [hheld]
    exact h.held g hg
  · rw [hheld, hheld]
    exact h.serial_inj g hg g' hg'
  · rw [hheld, hheld]
    exact h.pipe_inj g hg g' hg'
  · rw [hheld]
    exact h.pipe g hg
  · simp only [hheld]
    exact h.all x hx

/-- A file that a descriptor refers to is open. -/
theorem ref_pos (h : FtInv s L) (hf : s.ofile p fd = some f) : 0 < (s.file f).ref := by
  obtain ⟨hp, hfd, hlt⟩ := h.fd_lt p fd f hf
  have hpos : 0 < s.fds f := countPairs_pos (P := fun p fd => s.ofile p fd = some f) hp hfd hf
  rw [h.ref f hlt]
  omega

/-- `filedup` -/
theorem dup (h : FtInv s L) (hf : f < NFILE) (hr : 0 < (s.file f).ref) :
    FtInv (s.setFile f { s.file f with ref := (s.file f).ref + 1 }) (f :: L) := by
  refine h.setRef hf (fun g hg => ?_) (fun hc => by omega) ?_ fun g hg => ?_
  · rcases mem_cons.mp hg with rfl | hg
    · exact hf
    · exact h.lt g hg
  · rw [count_cons_self]
    omega
  · exact count_cons_of_ne hg.symm

/-- `filealloc` -/
theorem alloc (h : FtInv s L) (hf : f < NFILE) (hr : (s.file f).ref = 0) :
    FtInv (s.setFile f { s.file f with ref := 1 }) (f :: L) := by
  refine h.setRef hf (fun g hg => ?_) (fun hc => by omega) ?_ fun g hg => ?_
  · rcases mem_cons.mp hg with rfl | hg
    · exact hf
    · exact h.lt g hg
  · rw [count_cons_self, hr]
    omega
  · exact count_cons_of_ne hg.symm

/-- `fileclose` of a reference that is not the last one, or to a file that holds nothing. -/
theorem drop (h : FtInv s (f :: L)) (hn : (s.file f).ref = 1 → (s.file f).held = none) :
    FtInv (s.setFile f { s.file f with ref := (s.file f).ref - 1 }) L := by
  have hf := h.lt f (mem_cons_self ..)
  have hpos : 0 < (s.file f).ref := by
    rw [h.ref f hf, count_cons_self]
    omega
  refine h.setRef hf (fun g hg => h.lt g (.tail _ hg)) (fun hc => hn (by omega)) ?_ fun g hg => ?_
  · rw [count_cons_self]
    omega
  · exact (count_cons_of_ne hg.symm).symm

/-- `fileclose` of the last reference to a file that holds something. -/
theorem giveUp (h : FtInv s (f :: L)) (hr : (s.file f).ref = 1) {x : ℕ × Held}
    (hx : (s.file f).held = some x) {pipes : ℕ → Option PipeEnds}
    (hpipes : ∀ g < NFILE, g ≠ f → ∀ a k w, (s.file g).held = some (a, .pipe k w) →
      ∃ e, pipes k = some e ∧ e.isOpen w = true) :
    FtInv { s.setFile f { s.file f with ref := 0, type := .none } with
      released := x :: s.released, pipe := pipes } L := by
  have hf := h.lt f (mem_cons_self ..)
  have hself : ∀ {y : FileEnt}, update s.file f y f = y := update_self ..
  have hne : ∀ {y : FileEnt} {g : ℕ}, g ≠ f → update s.file f y g = s.file g :=
    fun hg => update_of_ne hg ..
  have hheld : ∀ g, ∀ y, (update s.file f { s.file f with ref := 0, type := .none }
      g).held = some y → g ≠ f ∧ (s.file g).held = some y := by
    intro g y hy
    rcases eq_or_ne g f with rfl | hg
    · rw [hself] at hy
      cases hy
    · rw [hne hg] at hy
      exact ⟨hg, hy⟩
  obtain ⟨hopen, hnot⟩ := h.held f hf x hx
  refine ⟨h.fd_lt, h.live_lt, h.free, fun g hg => ?_, fun g hg => h.lt g (.tail _ hg),
    fun g hg => ?_,
    fun g hg y hy => ?_, fun g hg g' hg' y y' hy hy' => ?_, fun g hg g' hg' a b k w hy hy' => ?_,
    fun g hg a k w hy => ?_, h.serial_lt, fun y hy => ?_, ?_, fun y hy => ?_⟩
  · have hsame : s.fds g = FtSys.fds { s.setFile f { s.file f with ref := 0, type := .none } with
      released := x :: s.released, pipe := pipes } g := rfl
    have href := h.ref g hg
    rw [← hsame]
    show (update s.file f _ g).ref = _
    rcases eq_or_ne g f with rfl | hgf
    · rw [hself]
      rw [count_cons_self] at href
      show 0 = _
      omega
    · rw [hne hgf]
      rw [count_cons_of_ne hgf.symm] at href
      exact href
  · show (update s.file f _ g).ref = 0 → (update s.file f _ g).held = none
    rcases eq_or_ne g f with rfl | hgf
    · rw [hself]
      exact fun _ => rfl
    · rw [hne hgf]
      exact h.closed g hg
  · obtain ⟨hgf, hold⟩ := hheld g y hy
    obtain ⟨h1, h2⟩ := h.held g hg y hold
    refine ⟨h1, fun hc => ?_⟩
    rcases mem_cons.mp hc with rfl | hc
    · exact hgf (h.serial_inj g hg f hf y y hold hx rfl)
    · exact h2 hc
  · exact h.serial_inj g hg g' hg' y y' (hheld g y hy).2 (hheld g' y' hy').2
  · exact h.pipe_inj g hg g' hg' a b k w (hheld g _ hy).2 (hheld g' _ hy').2
  · obtain ⟨hgf, hy⟩ := hheld g _ hy
    exact ⟨(h.pipe g hg a k w hy).1, hpipes g hg hgf a k w hy⟩
  · rcases mem_cons.mp hy with rfl | hy
    · exact hopen
    · exact h.released_sub y hy
  · exact nodup_cons.mpr ⟨hnot, h.released_nodup⟩
  · rcases h.all y hy with hrel | ⟨g, hg, hold⟩
    · exact .inl (.tail _ hrel)
    rcases eq_or_ne g f with rfl | hgf
    · rw [hx] at hold
      cases hold
      exact .inl (mem_cons_self ..)
    · refine .inr ⟨g, hg, ?_⟩
      show (update s.file f _ g).held = _
      rw [hne hgf]
      exact hold

/-- An open file that holds nothing yet is set up. -/
theorem setUp (h : FtInv s L) (hf : f < NFILE) (hnone : (s.file f).held = none) {x : FileEnt}
    (hr : x.ref = (s.file f).ref) (hpos : 0 < (s.file f).ref) {y : Held}
    (hy : ({ x with serial := s.nserial } : FileEnt).held = some (s.nserial, y))
    (hpipe : ∀ k w, y = .pipe k w → (k < s.npipes ∧ ∃ e, s.pipe k = some e ∧ e.isOpen w = true) ∧
      ∀ g < NFILE, ∀ a, (s.file g).held ≠ some (a, .pipe k w)) : FtInv (s.setUp f x) L := by
  obtain ⟨x', hx'⟩ : ∃ x' : FileEnt, x' = { x with serial := s.nserial } := ⟨_, rfl⟩
  have hxr : x'.ref = (s.file f).ref := by rw [hx', ← hr]
  rw [← hx'] at hy
  have hstate : s.setUp f x = { s.setFile f x' with
      nserial := s.nserial + 1, opened := (s.nserial, y) :: s.opened } := by
    rw [FtSys.setUp, ← hx', hy]
    rfl
  rw [hstate]
  have hself : update s.file f x' f = x' := update_self ..
  have hne : ∀ {g : ℕ}, g ≠ f → update s.file f x' g = s.file g :=
    fun hg => update_of_ne hg ..
  have hheld : ∀ g z, (update s.file f x' g).held = some z →
      (g = f ∧ z = (s.nserial, y)) ∨ (g ≠ f ∧ (s.file g).held = some z) := by
    intro g z hz
    rcases eq_or_ne g f with rfl | hg
    · rw [hself, hy] at hz
      exact .inl ⟨rfl, (Option.some.inj hz).symm⟩
    · rw [hne hg] at hz
      exact .inr ⟨hg, hz⟩
  have hold : ∀ g < NFILE, ∀ z, (s.file g).held = some z → z.1 < s.nserial :=
    fun g hg z hz => h.serial_lt z (h.held g hg z hz).1
  refine ⟨h.fd_lt, h.live_lt, h.free, fun g hg => ?_, h.lt, fun g hg => ?_, fun g hg z hz => ?_,
    fun g hg g' hg' z z' hz hz' he => ?_, fun g hg g' hg' a b k w hz hz' => ?_,
    fun g hg a k w hz => ?_, fun z hz => ?_, fun z hz => .tail _ (h.released_sub z hz),
    h.released_nodup, fun z hz => ?_⟩
  · have href := h.ref g hg
    show (update s.file f x' g).ref = s.fds g + _
    rcases eq_or_ne g f with rfl | hgf
    · rw [hself, hxr]
      exact href
    · rw [hne hgf]
      exact href
  · show (update s.file f x' g).ref = 0 → (update s.file f x' g).held = none
    rcases eq_or_ne g f with rfl | hgf
    · rw [hself, hxr]
      exact fun hc => absurd hc (by omega)
    · rw [hne hgf]
      exact h.closed g hg
  · rcases hheld g z hz with ⟨-, rfl⟩ | ⟨-, hz⟩
    · refine ⟨mem_cons_self .., fun hc => ?_⟩
      exact absurd (h.serial_lt _ (h.released_sub _ hc)) (Nat.lt_irrefl _)
    · obtain ⟨h1, h2⟩ := h.held g hg z hz
      exact ⟨.tail _ h1, h2⟩
  · rcases hheld g z hz with ⟨hgf, rfl⟩ | ⟨-, h1⟩ <;>
      rcases hheld g' z' hz' with ⟨hgf', rfl⟩ | ⟨-, h2⟩
    · rw [hgf, hgf']
    · exact absurd (he ▸ hold g' hg' z' h2) (Nat.lt_irrefl _)
    · exact absurd (he ▸ hold g hg z h1) (Nat.lt_irrefl _)
    · exact h.serial_inj g hg g' hg' z z' h1 h2 he
  · rcases hheld g _ hz with ⟨hgf, he⟩ | ⟨-, h1⟩ <;>
      rcases hheld g' _ hz' with ⟨hgf', he'⟩ | ⟨-, h2⟩
    · rw [hgf, hgf']
    · exact absurd h2 ((hpipe k w (Prod.ext_iff.mp he).2.symm).2 g' hg' b)
    · exact absurd h1 ((hpipe k w (Prod.ext_iff.mp he').2.symm).2 g hg a)
    · exact h.pipe_inj g hg g' hg' a b k w h1 h2
  · rcases hheld g _ hz with ⟨-, he⟩ | ⟨-, hz⟩
    · exact (hpipe k w (Prod.ext_iff.mp he).2.symm).1
    · exact h.pipe g hg a k w hz
  · rcases mem_cons.mp hz with rfl | hz
    · exact Nat.lt_succ_self _
    · exact (h.serial_lt z hz).trans (Nat.lt_succ_self _)
  · rcases mem_cons.mp hz with rfl | hz
    · refine .inr ⟨f, hf, ?_⟩
      show (update s.file f x' f).held = _
      rw [hself]
      exact hy
    rcases h.all z hz with hrel | ⟨g, hg, hgz⟩
    · exact .inl hrel
    refine .inr ⟨g, hg, ?_⟩
    have hgf : g ≠ f := by
      rintro rfl
      rw [hnone] at hgz
      cases hgz
    show (update s.file f x' g).held = _
    rw [hne hgf]
    exact hgz

theorem perm (h : FtInv s L) (hL : L.Perm L') : FtInv s L' :=
  { h with
    ref := fun f hf => by rw [← hL.count_eq]; exact h.ref f hf
    lt := fun f hf => h.lt f (hL.mem_iff.mpr hf) }

/-- A process slot changes hands. -/
theorem setState (h : FtInv s L) {x : SlotState} (hlive : x = .live → p < NPROC)
    (hnone : x ≠ .live → ∀ fd, s.ofile p fd = none) : FtInv (s.setState p x) L := by
  have hstate : ∀ q, (s.setState p x).state q = if q = p then x else s.state q := by
    intro q
    show update s.state p x q = _
    rw [update_apply]
  refine { h with live_lt := fun q hq => ?_, free := fun q hq => ?_ }
  · rw [hstate] at hq
    split at hq
    · rename_i hqp
      rw [hqp]
      exact hlive hq
    · exact h.live_lt q hq
  rw [hstate] at hq
  split at hq
  · rename_i hqp
    rw [hqp]
    exact hnone hq
  · exact h.free q hq

/-- A new pipe. -/
theorem newPipe (h : FtInv s L) (e : PipeEnds) :
    FtInv { s.setPipe s.npipes (some e) with npipes := s.npipes + 1 } L := by
  refine { h with pipe := fun f hf a k w hk => ?_ }
  obtain ⟨hlt, e', he'⟩ := h.pipe f hf a k w hk
  refine ⟨hlt.trans (Nat.lt_succ_self _), e', ?_⟩
  show update s.pipe s.npipes _ k = _ ∧ _
  rwa [update_of_ne (by omega)]

end FtInv

/-! ## The primitives -/

/-- The reasons for which nothing may stop. -/
def FtFine (e : Stop) : Prop :=
  e ≠ .panic "filedup" ∧ e ≠ .panic "fileclose" ∧ e ≠ .nullDeref

namespace FtSys

variable {s : FtSys} {L : List ℕ} {p q fd f : ℕ}

theorem filealloc_ok (s : FtSys) : filealloc s = .ok (none, s) ∨ ∃ f < NFILE, (s.file f).ref = 0 ∧
    filealloc s = .ok (some f, s.setFile f { s.file f with ref := 1 }) := by
  rcases hslot : firstSlot NFILE fun f => (s.file f).ref == 0 with _ | f
  · exact .inl ((bind_ok (congrArg Except.ok (congrArg (·, s) hslot))).trans rfl)
  · obtain ⟨hf, hr⟩ := firstSlot_some hslot
    exact .inr ⟨f, hf, by simpa using hr,
      (bind_ok (congrArg Except.ok (congrArg (·, s) hslot))).trans rfl⟩

theorem filealloc_spec (h : FtInv s L) : Wp filealloc s (fun r s' => match r with
    | none => s' = s
    | some f => f < NFILE ∧ (s.file f).ref = 0 ∧ s' = s.setFile f { s.file f with ref := 1 } ∧
      FtInv s' (f :: L)) FtFine := by
  rcases filealloc_ok s with hs | ⟨f, hf, hr, hs⟩
  · exact .of_ok hs rfl
  · exact .of_ok hs ⟨hf, hr, rfl, h.alloc hf hr⟩

theorem filedup_spec (h : FtInv s L) (hf : f < NFILE) (hr : 0 < (s.file f).ref) :
    Wp (filedup f) s (fun _ s' => s' = s.setFile f { s.file f with ref := (s.file f).ref + 1 } ∧
      FtInv s' (f :: L)) FtFine := by
  refine wp_bind.mpr (wp_gets.mpr ?_)
  rw [if_neg (by omega)]
  exact wp_modify.mpr ⟨rfl, h.dup hf hr⟩

theorem fdalloc_ok (s : FtSys) (p f : ℕ) : fdalloc p f s = .ok (none, s) ∨ ∃ fd < NOFILE,
    s.ofile p fd = none ∧ fdalloc p f s = .ok (some fd, s.setFd p fd (some f)) := by
  rcases hslot : firstSlot NOFILE fun fd => (s.ofile p fd).isNone with _ | fd
  · exact .inl ((bind_ok (congrArg Except.ok (congrArg (·, s) hslot))).trans rfl)
  · obtain ⟨hfd, hnone⟩ := firstSlot_some hslot
    exact .inr ⟨fd, hfd, by simpa using hnone,
      (bind_ok (congrArg Except.ok (congrArg (·, s) hslot))).trans rfl⟩

theorem fdalloc_spec (h : FtInv s (f :: L)) (hp : s.state p = .live) :
    Wp (fdalloc p f) s (fun r s' => match r with
      | none => s' = s
      | some fd => s' = s.setFd p fd (some f) ∧ FtInv s' L) FtFine := by
  rcases fdalloc_ok s p f with hs | ⟨fd, hfd, hnone, hs⟩
  · exact .of_ok hs rfl
  · exact .of_ok hs ⟨rfl, h.putFd hp hfd hnone⟩

/-- What `fileclose` does not touch. -/
def SameSlots (s s' : FtSys) : Prop := s'.ofile = s.ofile ∧ s'.state = s.state

/-- `fileclose` gives up a reference, and what the file holds with the last one. -/
theorem fileclose_spec (h : FtInv s (f :: L)) :
    Wp (fileclose f) s (fun _ s' => FtInv s' L ∧ s.SameSlots s') FtFine := by
  have hf := h.lt f (mem_cons_self ..)
  have hpos : 0 < (s.file f).ref := by
    rw [h.ref f hf, count_cons_self]
    omega
  refine wp_bind.mpr (wp_gets.mpr ?_)
  rw [if_neg (by omega)]
  by_cases hmore : (s.file f).ref - 1 > 0
  · rw [if_pos hmore]
    exact wp_modify.mpr ⟨h.drop fun hc => by omega, rfl, rfl⟩
  have h1 : (s.file f).ref = 1 := by omega
  rw [if_neg hmore]
  refine wp_bind.mpr (wp_modify.mpr ?_)
  rcases hheld : (s.file f).held with _ | ⟨a, y⟩
  · -- an open file that has not been set up
    have htype : (s.file f).type = .none := by
      rw [FileEnt.held] at hheld
      split at hheld
      · assumption
      · cases hheld
      · cases hheld
    have hsame : ({ s.file f with ref := 0, type := .none } : FileEnt) =
        { s.file f with ref := (s.file f).ref - 1 } := by
      rw [h1, ← htype]
    rw [hsame]
    exact wp_pure.mpr ⟨h.drop fun _ => hheld, rfl, rfl⟩
  refine wp_bind.mpr (wp_modify.mpr ?_)
  cases y with
  | inode ip =>
    exact wp_pure.mpr ⟨h.giveUp h1 hheld fun g hg _ a k w hy => (h.pipe g hg a k w hy).2, rfl, rfl⟩
  | pipe k w =>
    obtain ⟨-, e, hk, hopen⟩ := h.pipe f hf a k w hheld
    refine wp_bind.mpr (wp_gets.mpr ?_)
    show Wp (match s.pipe k with
      | none => _
      | some e => _) _ _ _
    rw [hk]
    -- the other ends of pipes stay open
    have hother : ∀ g < NFILE, g ≠ f → ∀ b k' w', (s.file g).held = some (b, .pipe k' w') →
        k' ≠ k ∨ (k' = k ∧ (e.close w).isOpen w' = true) := by
      intro g hg hgf b k' w' hy
      rcases eq_or_ne k' k with rfl | hne
      · right
        refine ⟨rfl, ?_⟩
        have hw : w' ≠ w := by
          rintro rfl
          exact hgf (h.pipe_inj g hg f hf b a k' w' hy hheld)
        obtain ⟨-, e', hk', hopen'⟩ := h.pipe g hg b k' w' hy
        rw [hk] at hk'
        cases hk'
        cases w <;> cases w' <;> first | exact absurd rfl hw | exact hopen'
      · exact .inl hne
    by_cases hboth : (e.close w).readopen = false ∧ (e.close w).writeopen = false
    · simp only [hboth, and_self, if_true]
      refine wp_modify.mpr ⟨h.giveUp h1 hheld fun g hg hgf b k' w' hy => ?_, rfl, rfl⟩
      rcases hother g hg hgf b k' w' hy with hne | ⟨-, hc⟩
      · rw [update_of_ne hne]
        exact (h.pipe g hg b k' w' hy).2
      · cases w' <;> simp [PipeEnds.isOpen, hboth] at hc
    simp only [hboth, if_false]
    refine wp_modify.mpr ⟨h.giveUp h1 hheld fun g hg hgf b k' w' hy => ?_, rfl, rfl⟩
    rcases hother g hg hgf b k' w' hy with hne | ⟨rfl, hc⟩
    · rw [update_of_ne hne]
      exact (h.pipe g hg b k' w' hy).2
    · exact ⟨_, update_self .., hc⟩

/-! ## The calls -/

/-- `pipealloc`, in the state in which both files are there: the two ends of a new pipe. -/
theorem setUp_pipe {f0 f1 : ℕ} (h : FtInv s L) (hf0 : f0 < NFILE) (hf1 : f1 < NFILE) (hne : f0 ≠ f1)
    (hr0 : 0 < (s.file f0).ref) (hr1 : 0 < (s.file f1).ref) (hn0 : (s.file f0).held = none)
    (hn1 : (s.file f1).held = none) {k : ℕ} (hk : k < s.npipes)
    (hopen : s.pipe k = some ⟨true, true⟩)
    (hnew : ∀ g < NFILE, ∀ a w, (s.file g).held ≠ some (a, .pipe k w)) :
    FtInv ((s.setUp f0 { s.file f0 with
      type := .pipe, readable := true, writable := false, pipe := k }).setUp f1 { s.file f1 with
      type := .pipe, readable := false, writable := true, pipe := k }) L := by
  obtain ⟨s', hs'⟩ : ∃ s', s' = s.setUp f0 { s.file f0 with
    type := .pipe, readable := true, writable := false, pipe := k } := ⟨_, rfl⟩
  have hinv : FtInv s' L := by
    rw [hs']
    refine h.setUp hf0 hn0 rfl hr0 (y := .pipe k false) rfl fun k' w hy => ?_
    cases hy
    exact ⟨⟨hk, _, hopen, rfl⟩, fun g hg a => hnew g hg a false⟩
  have hfile : ∀ g, g ≠ f0 → s'.file g = s.file g := fun g hg => by
    rw [hs']
    exact update_of_ne hg ..
  have hself : (s'.file f0).held = some (s.nserial, .pipe k false) := by
    rw [hs']
    show (update s.file f0 _ f0).held = _
    rw [update_self]
    rfl
  have hpipe : s'.pipe = s.pipe ∧ s'.npipes = s.npipes := by
    rw [hs']
    exact ⟨rfl, rfl⟩
  rw [← hs', ← hfile f1 hne.symm]
  refine hinv.setUp hf1 ?_ rfl ?_ (y := .pipe k true) rfl fun k' w hy => ?_
  · rw [hfile f1 hne.symm]
    exact hn1
  · rw [hfile f1 hne.symm]
    exact hr1
  cases hy
  rw [hpipe.1, hpipe.2]
  refine ⟨⟨hk, _, hopen, rfl⟩, fun g hg a => ?_⟩
  rcases eq_or_ne g f0 with rfl | hgf
  · rw [hself]
    simp
  · rw [hfile g hgf]
    exact hnew g hg a true

theorem pipealloc_spec (h : FtInv s L) (mem : Bool) : Wp (pipealloc mem) s (fun r s' =>
    (match r with
      | none => FtInv s' L
      | some (rf, wf) => FtInv s' (rf :: wf :: L)) ∧ s.SameSlots s') FtFine := by
  refine (filealloc_spec h).bind (fun _ he => he) fun r s1 hr => ?_
  rcases r with _ | f0
  · subst hr
    exact wp_pure.mpr ⟨h, rfl, rfl⟩
  obtain ⟨hf0, h0, hs1, hinv1⟩ := hr
  refine (filealloc_spec hinv1).bind (fun _ he => he) fun r s2 hr => ?_
  rcases r with _ | f1
  · rw [hr]
    refine (fileclose_spec hinv1).bind (fun _ he => he) fun _ s3 ⟨hinv3, h₁, h2⟩ => ?_
    refine wp_pure.mpr ⟨hinv3, ?_, ?_⟩
    · rw [h₁, hs1]
      rfl
    · rw [h2, hs1]
      rfl
  obtain ⟨hf1, h1, hs2, hinv2⟩ := hr
  have hfile1 : s1.file f0 = { s.file f0 with ref := 1 } := by
    rw [hs1]
    exact update_self ..
  have hne : f0 ≠ f1 := by
    rintro rfl
    rw [hfile1] at h1
    cases h1
  have hfile2 : s2.file f0 = { s.file f0 with ref := 1 } := by
    rw [hs2, ← hfile1]
    exact update_of_ne hne ..
  have hfile3 : s2.file f1 = { s1.file f1 with ref := 1 } := by
    rw [hs2]
    exact update_self ..
  have hsame : s2.ofile = s.ofile ∧ s2.state = s.state := by
    rw [hs2, hs1]
    exact ⟨rfl, rfl⟩
  dsimp only
  cases mem with
  | false =>
    rw [if_neg Bool.false_ne_true]
    refine (fileclose_spec (hinv2.perm (.swap f0 f1 L))).bind (fun _ he => he)
      fun _ s3 ⟨hinv3, h₁, h2⟩ => ?_
    refine (fileclose_spec hinv3).bind (fun _ he => he) fun _ s4 ⟨hinv4, h3, h4⟩ => ?_
    exact wp_pure.mpr ⟨hinv4, h3.trans (h₁.trans hsame.1), h4.trans (h2.trans hsame.2)⟩
  | true =>
    rw [if_pos rfl]
    have hinv3 := (hinv2.perm (.swap f0 f1 L)).newPipe ⟨true, true⟩
    refine wp_bind.mpr (wp_modify.mpr (wp_bind.mpr (wp_modify.mpr (wp_bind.mpr (wp_modify.mpr
      (wp_pure.mpr ⟨?_, hsame⟩))))))
    have hup := setUp_pipe hinv3 hf0 hf1 hne (k := s2.npipes) ?_ ?_ ?_ ?_ (Nat.lt_succ_self _)
      (update_self ..) fun g hg a w hc => ?_
    · -- the second file is not changed when the first one is set up
      have hfile : FtSys.file { s2.setPipe s2.npipes (some ⟨true, true⟩) with
          npipes := s2.npipes + 1 } f1 =
            (FtSys.setUp { s2.setPipe s2.npipes (some ⟨true, true⟩) with
          npipes := s2.npipes + 1 } f0 { s2.file f0 with
          type := .pipe, readable := true, writable := false, pipe := s2.npipes }).file f1 :=
        (update_of_ne hne.symm ..).symm
      rw [hfile] at hup
      exact hup
    · show 0 < (s2.file f0).ref
      rw [hfile2]
      exact Nat.one_pos
    · show 0 < (s2.file f1).ref
      rw [hfile3]
      exact Nat.one_pos
    · show (s2.file f0).held = none
      rw [hfile2]
      exact h.closed f0 hf0 h0
    · show (s2.file f1).held = none
      rw [hfile3]
      exact hinv1.closed f1 hf1 h1
    · exact absurd (hinv2.pipe g hg a s2.npipes w hc).1 (Nat.lt_irrefl _)

section Calls

variable (hp : s.state p = .live)

include hp

theorem sysOpen_spec (h : FtInv s []) (args : Bool) (ip : Option ℕ) (readable writable : Bool) :
    Wp (sysOpen p args ip readable writable) s (fun _ s' => FtInv s' []) FtFine := by
  cases args with
  | false => exact wp_pure.mpr h
  | true =>
    rcases ip with _ | ip
    · exact wp_pure.mpr h
    refine (filealloc_spec h).bind (fun _ he => he) fun r s1 hr => ?_
    rcases r with _ | f
    · rw [hr]
      exact wp_pure.mpr h
    obtain ⟨hf, h0, hs1, hinv1⟩ := hr
    have hp1 : s1.state p = .live := by
      rw [hs1]
      exact hp
    refine (fdalloc_spec hinv1 hp1).bind (fun _ he => he) fun r s2 hr => ?_
    rcases r with _ | fd
    · rw [hr]
      exact (fileclose_spec hinv1).mono (fun _ _ hs => hs.1) fun _ he => he
    obtain ⟨hs2, hinv2⟩ := hr
    have hfile : s2.file f = { s.file f with ref := 1 } := by
      rw [hs2, hs1]
      exact update_self ..
    refine wp_modify.mpr (hinv2.setUp hf ?_ rfl ?_ (y := .inode ip) rfl fun k w hy => by cases hy)
    · rw [hfile]
      exact h.closed f hf h0
    · rw [hfile]
      exact Nat.one_pos

theorem sysDup_spec (h : FtInv s []) (fd : ℕ) :
    Wp (sysDup p fd) s (fun _ s' => FtInv s' []) FtFine := by
  refine wp_bind.mpr (wp_gets.mpr ?_)
  rcases hof : (if fd < NOFILE then s.ofile p fd else none) with _ | f
  · exact wp_pure.mpr h
  have hof : s.ofile p fd = some f := by
    split at hof
    · exact hof
    · cases hof
  obtain ⟨-, -, hf⟩ := h.fd_lt p fd f hof
  have hr := h.ref_pos hof
  rcases fdalloc_ok s p f with hs | ⟨fd', hfd', hnone, hs⟩
  · exact .of_ok ((bind_ok hs).trans rfl) h
  have hr' : ¬((s.setFd p fd' (some f)).file f).ref < 1 := Nat.not_lt.mpr hr
  refine wp_bind.mpr (.of_ok hs (wp_bind.mpr (wp_gets.mpr ?_)))
  rw [if_neg hr']
  -- the order of the two changes does not matter
  exact wp_modify.mpr ((h.dup hf hr).putFd hp hfd' hnone)

omit hp in
theorem sysClose_spec (h : FtInv s []) (fd : ℕ) :
    Wp (sysClose p fd) s (fun _ s' => FtInv s' []) FtFine := by
  refine wp_bind.mpr (wp_gets.mpr ?_)
  rcases hof : (if fd < NOFILE then s.ofile p fd else none) with _ | f
  · exact wp_pure.mpr h
  have hof : s.ofile p fd = some f := by
    split at hof
    · exact hof
    · cases hof
  exact wp_bind.mpr (wp_modify.mpr ((fileclose_spec (h.clearFd hof)).mono (fun _ _ hs => hs.1)
    fun _ he => he))

theorem sysPipe_spec (h : FtInv s []) (args mem : Bool) :
    Wp (sysPipe p args mem) s (fun _ s' => FtInv s' []) FtFine := by
  have hclose : ∀ {s : FtSys} {rf wf : ℕ}, FtInv s [rf, wf] → Wp (do
      fileclose rf
      fileclose wf) s (fun _ s' => FtInv s' []) FtFine := fun hinv =>
    (fileclose_spec hinv).bind (fun _ he => he) fun _ s1 ⟨hinv1, _⟩ =>
      (fileclose_spec hinv1).mono (fun _ _ hs => hs.1) fun _ he => he
  rw [sysPipe]
  cases args with
  | false => exact wp_pure.mpr h
  | true =>
    refine (pipealloc_spec h mem).bind (fun _ he => he) fun r s1 ⟨hr, hsame⟩ => ?_
    rcases r with _ | ⟨rf, wf⟩
    · exact wp_pure.mpr hr
    have hp1 : s1.state p = .live := by
      rw [hsame.2]
      exact hp
    refine (fdalloc_spec hr hp1).bind (fun _ he => he) fun r s2 hr2 => ?_
    rcases r with _ | fd0
    · rw [hr2]
      exact hclose hr
    obtain ⟨hs2, hinv2⟩ := hr2
    have hp2 : s2.state p = .live := by
      rw [hs2]
      exact hp1
    have hfd0 : s2.ofile p fd0 = some rf := by
      rw [hs2, FtInv.ofile_setFd, if_pos ⟨rfl, rfl⟩]
    refine (fdalloc_spec hinv2 hp2).bind (fun _ he => he) fun r s3 hr3 => ?_
    rcases r with _ | fd1
    · rw [hr3]
      exact wp_bind.mpr (wp_modify.mpr (hclose (hinv2.clearFd hfd0)))
    · exact wp_pure.mpr hr3.2

omit hp in
/-- The loop of `fork`: so far the child has no descriptor from `fds` on. -/
theorem dupFrom_spec {q : ℕ} : ∀ (fds : List ℕ) (s : FtSys), s.state q = .live →
    FtInv s [] → fds.Nodup → (∀ fd ∈ fds, fd < NOFILE ∧ s.ofile q fd = none) →
    Wp (dupFrom p q fds) s (fun _ s' => FtInv s' []) FtFine := by
  intro fds
  induction fds with
  | nil => exact fun s _ h _ _ => wp_pure.mpr h
  | cons fd fds ih =>
    intro s hq h hnd hfree
    obtain ⟨hnot, hnd⟩ := nodup_cons.mp hnd
    refine wp_bind.mpr (wp_gets.mpr ?_)
    rcases hof : s.ofile p fd with _ | f
    · exact ih s hq h hnd fun fd' hfd' => hfree fd' (.tail _ hfd')
    obtain ⟨-, -, hf⟩ := h.fd_lt p fd f hof
    obtain ⟨hlt, hnone⟩ := hfree fd (mem_cons_self ..)
    refine (filedup_spec h hf (h.ref_pos hof)).bind (fun _ he => he) fun _ s1 ⟨hs1, hinv1⟩ => ?_
    have hq1 : s1.state q = .live := by
      rw [hs1]
      exact hq
    have hof1 : s1.ofile = s.ofile := by
      rw [hs1]
      rfl
    refine wp_bind.mpr (wp_modify.mpr (ih _ hq1 (hinv1.putFd hq1 hlt ?_) hnd fun fd' hfd' => ?_))
    · rw [hof1]
      exact hnone
    · obtain ⟨h1, h2⟩ := hfree fd' (.tail _ hfd')
      have hne : fd' ≠ fd := fun hc => hnot (hc ▸ hfd')
      rw [FtInv.ofile_setFd, if_neg fun hc => hne hc.2, hof1]
      exact ⟨h1, h2⟩

omit hp in
theorem fork_spec (h : FtInv s []) (hq : q < NPROC) (hu : s.state q = .unused) (mem : Bool) :
    Wp (fork p q mem) s (fun _ s' => FtInv s' []) FtFine := by
  have hnone := h.free q (by rw [hu]; decide)
  have hlive : FtInv (s.setState q .live) [] := h.setState (fun _ => hq) fun hc => absurd rfl hc
  refine wp_bind.mpr (wp_modify.mpr ?_)
  cases mem with
  | true =>
    exact dupFrom_spec (List.range NOFILE) _ (update_self ..) hlive nodup_range
      fun fd hfd => ⟨mem_range.mp hfd, hnone fd⟩
  | false => exact wp_modify.mpr (hlive.setState nofun fun _ => hnone)

end Calls

/-- The computation does not look at descriptors. -/
def Blind {α : Type} (m : Exec Stop FtSys α) : Prop :=
  ∀ s p fd o, m (s.setFd p fd o) = match m s with
    | .ok (x, s') => .ok (x, s'.setFd p fd o)
    | .error e => .error e

theorem Blind.bind {α β : Type} {m : Exec Stop FtSys α} {k : α → Exec Stop FtSys β} (hm : Blind m)
    (hk : ∀ x, Blind (k x)) : Blind (m >>= k) := by
  intro s p fd o
  have h := hm s p fd o
  rcases hs : m s with e | ⟨x, s'⟩ <;> rw [hs] at h
  · rw [bind_error h, bind_error hs]
  · rw [bind_ok h, bind_ok hs]
    exact hk x s' p fd o

theorem blind_pipeclose (k : ℕ) (w : Bool) : Blind (pipeclose k w) := by
  refine Blind.bind (fun _ _ _ _ => rfl) fun e => ?_
  rcases e with _ | e
  · exact fun _ _ _ _ => rfl
  · dsimp only
    split <;> exact fun _ _ _ _ => rfl

theorem blind_fileclose (f : ℕ) : Blind (fileclose f) := by
  refine Blind.bind (fun _ _ _ _ => rfl) fun x => ?_
  split
  · exact fun _ _ _ _ => rfl
  split
  · exact fun _ _ _ _ => rfl
  refine Blind.bind (fun _ _ _ _ => rfl) fun _ => ?_
  rcases x.held with _ | ⟨a, ⟨k, w⟩ | ip⟩
  · exact fun _ _ _ _ => rfl
  · exact Blind.bind (fun _ _ _ _ => rfl) fun _ => blind_pipeclose k w
  · exact fun _ _ _ _ => rfl

/-- Closing a descriptor, in the order of `exit`. -/
theorem fileclose_then_clear (h : FtInv s []) (hf : s.ofile p fd = some f) :
    Wp (fileclose f >>= fun _ => modify fun s => s.setFd p fd none) s
      (fun _ s' => FtInv s' [] ∧ s'.ofile = (s.setFd p fd none).ofile) FtFine := by
  have hspec := fileclose_spec (h.clearFd hf)
  have hblind := blind_fileclose f s p fd none
  rcases hs : fileclose f s with e | ⟨u, s'⟩ <;> rw [hs] at hblind
  · exact .of_error (bind_error hs) (hspec.error hblind)
  · obtain ⟨hinv, hsame, -⟩ := hspec.ok hblind
    exact .of_ok (bind_ok hs) ⟨hinv, hsame⟩

/-- The loop of `exit`. -/
theorem closeFrom_spec : ∀ (fds : List ℕ) (s : FtSys), FtInv s [] →
    Wp (closeFrom p fds) s (fun _ s' => FtInv s' [] ∧ (∀ fd ∈ fds, s'.ofile p fd = none) ∧
      ∀ fd, s.ofile p fd = none → s'.ofile p fd = none) FtFine := by
  intro fds
  induction fds with
  | nil => exact fun s h => wp_pure.mpr ⟨h, fun _ hc => absurd hc not_mem_nil, fun _ => id⟩
  | cons fd fds ih =>
    intro s h
    refine wp_bind.mpr (wp_gets.mpr ?_)
    rcases hof : s.ofile p fd with _ | f
    · refine (ih s h).mono (fun _ s' ⟨hinv, hclosed, hkeep⟩ => ⟨hinv, fun fd' hfd' => ?_, hkeep⟩)
        fun _ he => he
      rcases mem_cons.mp hfd' with rfl | hfd'
      · exact hkeep fd' hof
      · exact hclosed fd' hfd'
    have hbind : Wp ((fileclose f >>= fun _ => modify fun s => s.setFd p fd none) >>= fun _ =>
        closeFrom p fds) s (fun _ s' => FtInv s' [] ∧ (∀ fd' ∈ fd :: fds, s'.ofile p fd' = none) ∧
          ∀ fd, s.ofile p fd = none → s'.ofile p fd = none) FtFine := by
      refine (fileclose_then_clear h hof).bind (fun _ he => he) fun _ s1 ⟨hinv1, hof1⟩ => ?_
      have hnone : ∀ fd', fd' = fd ∨ s.ofile p fd' = none → s1.ofile p fd' = none := by
        intro fd' hfd'
        rw [hof1, FtInv.ofile_setFd]
        split
        · rfl
        · rename_i hc
          exact hfd'.resolve_left fun he => hc ⟨rfl, he⟩
      refine (ih s1 hinv1).mono (fun _ s' ⟨hinv, hclosed, hkeep⟩ =>
        ⟨hinv, fun fd' hfd' => ?_, fun fd' hfd' => hkeep fd' (hnone fd' (.inr hfd'))⟩) fun _ he =>
          he
      rcases mem_cons.mp hfd' with rfl | hfd'
      · exact hkeep fd' (hnone fd' (.inl rfl))
      · exact hclosed fd' hfd'
    refine wp_bind.mpr ?_
    have := wp_bind.mp (wp_bind.mp hbind)
    exact this.mono (fun _ _ hs => wp_bind.mpr hs) fun _ he => he

theorem exit_spec (h : FtInv s []) : Wp (exit p) s (fun _ s' => FtInv s' []) FtFine := by
  refine (closeFrom_spec (List.range NOFILE) s h).bind (fun _ he => he)
    fun _ s' ⟨hinv, hclosed, _⟩ => wp_modify.mpr (hinv.setState nofun fun _ fd => ?_)
  rcases hof : s'.ofile p fd with _ | f
  · rfl
  · obtain ⟨-, hlt, -⟩ := hinv.fd_lt p fd f hof
    rw [hclosed fd (mem_range.mpr hlt)] at hof
    cases hof

/-- **Every call** keeps the invariant, and does not stop for a wrong count. -/
theorem call_spec (h : FtInv s []) (e : FtEvent) :
    Wp (s.call e) s (fun _ s' => FtInv s' []) FtFine := by
  have hmis : FtFine .misuse := by
    refine ⟨?_, ?_, ?_⟩ <;> simp
  cases e with
  | openFile p args ip readable writable =>
    rw [call]
    split
    · exact sysOpen_spec ‹_› h args ip readable writable
    · exact hmis
  | dup p fd =>
    rw [call]
    split
    · exact sysDup_spec ‹_› h fd
    · exact hmis
  | close p fd =>
    rw [call]
    split
    · exact sysClose_spec h fd
    · exact hmis
  | pipe p args mem =>
    rw [call]
    split
    · exact sysPipe_spec ‹_› h args mem
    · exact hmis
  | fork p q mem =>
    rw [call]
    split
    · rename_i hc
      exact fork_spec h hc.2.1 hc.2.2 mem
    · exact hmis
  | exit p =>
    rw [call]
    split
    · split
      · refine ⟨?_, ?_, ?_⟩ <;> simp
      · exact exit_spec h
    · exact hmis
  | wait p =>
    rw [call]
    split
    · rename_i hz
      have hnone := h.free p (by rw [hz]; decide)
      exact wp_modify.mpr (h.setState nofun fun _ => hnone)
    · exact hmis

theorem inv_start : FtInv start [] := by
  have hfds : ∀ f, start.fds f = 0 := fun f => by
    rw [fds, countPairs, Finset.card_eq_zero, Finset.filter_eq_empty_iff]
    exact fun x _ hc => by cases hc
  have hheld : ∀ f x, (start.file f).held ≠ some x := fun f x hx => by cases hx
  constructor
  case fd_lt => exact fun p fd f hf => by cases hf
  case live_lt =>
    intro p hp
    simp only [start] at hp
    split at hp
    · rename_i h0
      rw [h0]
      decide
    · cases hp
  case free => exact fun _ _ _ => rfl
  case ref =>
    intro f _
    rw [hfds]
    rfl
  case closed => exact fun _ _ _ => rfl
  case held => exact fun f _ x hx => absurd hx (hheld f x)
  case serial_inj => exact fun f _ _ _ x _ hx => absurd hx (hheld f x)
  case pipe_inj => exact fun f _ _ _ _ _ _ _ hx => absurd hx (hheld f _)
  case pipe => exact fun f _ _ _ _ hx => absurd hx (hheld f _)
  case released_nodup => exact nodup_nil
  all_goals exact fun x hx => absurd hx not_mem_nil

theorem run_inv {tr : List FtEvent} (hrun : run step start tr = .ok s) : FtInv s [] := by
  refine run_invariant (P := fun s => FtInv s []) (fun s s' e h hs => ?_) inv_start _ _ hrun
  rw [step] at hs
  rcases hc : s.call e s with e' | ⟨u, t⟩ <;> rw [hc] at hs <;> cases hs
  exact (call_spec h e).ok hc

/-- **The reference counts of open files are exact.** After any sequence of calls, the count of
every open file is the number of descriptors for it in the processes that are not `UNUSED`. So
`filealloc` hands out only files that no descriptor refers to; whatever has been opened is either
held by exactly one open file or has been released, once, and no descriptor refers to a file that
held it; and no call panics in `filedup` or `fileclose`, or closes an end of a pipe that is gone. -/
theorem refs_exact {tr : List FtEvent} (hrun : run step start tr = .ok s) :
    (∀ f < NFILE, (s.file f).ref =
      countPairs NPROC NOFILE fun p fd => s.state p ≠ .unused ∧ s.ofile p fd = some f) ∧
    (∀ f s', filealloc s = .ok (some f, s') →
      ∀ p fd, s.state p ≠ .unused → s.ofile p fd ≠ some f) ∧
    s.released.Nodup ∧
    (∀ x ∈ s.opened, (x ∈ s.released ∧ ∀ p fd f, s.ofile p fd = some f → (s.file f).held ≠ some x) ∨
      (x ∉ s.released ∧ ∃! f, f < NFILE ∧ 0 < (s.file f).ref ∧ (s.file f).held = some x)) ∧
    ∀ e, s.step e ≠ .error (.panic "filedup") ∧ s.step e ≠ .error (.panic "fileclose") ∧
      s.step e ≠ .error .nullDeref := by
  have h := run_inv hrun
  refine ⟨fun f hf => ?_, fun f s' hs p fd _ hof => ?_, h.released_nodup, fun x hx => ?_,
    fun e => ?_⟩
  · rw [h.ref f hf, count_nil, Nat.add_zero, fds]
    refine countPairs_congr fun p fd => (and_iff_right_of_imp fun hof hu => ?_).symm
    rw [h.free p (by rw [hu]; decide)] at hof
    cases hof
  · obtain ⟨-, h0, -⟩ := (filealloc_spec h).ok hs
    exact absurd (h.ref_pos hof) (by omega)
  · have hpos : ∀ f < NFILE, (s.file f).held = some x → 0 < (s.file f).ref := by
      intro f hf hx'
      refine Nat.pos_of_ne_zero fun h0 => ?_
      rw [h.closed f hf h0] at hx'
      cases hx'
    by_cases hrel : x ∈ s.released
    · exact .inl ⟨hrel, fun p fd f hof hc => (h.held f (h.fd_lt p fd f hof).2.2 x hc).2 hrel⟩
    · obtain ⟨f, hf, hheld⟩ := (h.all x hx).resolve_left hrel
      exact .inr ⟨hrel, f, ⟨hf, hpos f hf hheld, hheld⟩,
        fun g ⟨hg, _, hg'⟩ => h.serial_inj g hg f hf x x hg' hheld rfl⟩
  · have hspec := call_spec h e
    rw [step]
    rcases hc : s.call e s with e' | ⟨u, t⟩
    · obtain ⟨h1, h2, h3⟩ := hspec.error hc
      simp only [ne_eq, Except.error.injEq]
      exact ⟨h1, h2, h3⟩
    · simp

/-- A pipe, a child that shares it, and all but the child's writing end closed. -/
theorem refs_exact_pipe : ∃ s : FtSys,
    run step start [.pipe 0 true true, .fork 0 1 true, .close 0 0, .close 0 1, .close 1 0] = .ok s ∧
    s.released = [(0, .pipe 0 false)] ∧ (s.file 1).ref = 1 ∧
    (s.file 1).ref = countPairs NPROC NOFILE fun p fd =>
      s.state p ≠ .unused ∧ s.ofile p fd = some 1 := by
  obtain ⟨s, hs, h1, h2⟩ := exists_ok_of_check (P := fun s : FtSys =>
      s.released = [(0, .pipe 0 false)] ∧ (s.file 1).ref = 1)
    (x := run step start
      [.pipe 0 true true, .fork 0 1 true, .close 0 0, .close 0 1, .close 1 0]) (by decide)
  exact ⟨s, hs, h1, h2, (refs_exact hs).1 1 (by decide)⟩

/-! ## A call of `pipe` that fails -/

/-- `sys_pipe` with the number that it returns. -/
def sysPipeRet (p : ℕ) (args mem : Bool) : Exec Stop FtSys ℤ :=
  if args then do
    match ← pipealloc mem with
    | none => return -1
    | some (rf, wf) =>
      match ← fdalloc p rf with
      | none =>
        fileclose rf
        fileclose wf
        return -1
      | some fd0 =>
        match ← fdalloc p wf with
        | none =>
          modify fun s => s.setFd p fd0 none
          fileclose rf
          fileclose wf
          return -1
        | some _ => return 0
  else return -1

/-- `sysPipe` is the same call. -/
theorem sysPipe_eq (p : ℕ) (args mem : Bool) :
    sysPipe p args mem = sysPipeRet p args mem >>= fun _ => return () := by
  rw [sysPipe, sysPipeRet]
  cases args with
  | false => rfl
  | true =>
    simp only [if_true, bind_assoc]
    refine bind_congr fun r => ?_
    rcases r with _ | ⟨rf, wf⟩
    · rfl
    rw [bind_assoc]
    refine bind_congr fun r => ?_
    rcases r with _ | fd0
    · simp
    rw [bind_assoc]
    refine bind_congr fun r => ?_
    rcases r with _ | fd1
    · simp
    · rfl

/-- `fileclose` of a file that has just been allocated. -/
theorem fileclose_unused (hf : (s.file f).ref = 0) (ht : (s.file f).type = .none) :
    fileclose f (s.setFile f { s.file f with ref := 1 }) = .ok ((), s) := by
  have hsame : ({ s.file f with ref := 0, type := .none } : FileEnt) =
    s.file f := by rw [← hf, ← ht]
  rw [fileclose]
  refine (bind_ok rfl).trans ?_
  simp only [setFile, update_self]
  refine (bind_ok rfl).trans ?_
  simp only [FileEnt.held, ht, update_idem]
  rw [hsame, update_eq_self]
  rfl

/-- `fileclose` of the last reference to an end of a pipe. -/
theorem fileclose_pipe {a k : ℕ} {w : Bool} {e : PipeEnds} (hf : (s.file f).ref = 1)
    (hh : (s.file f).held = some (a, .pipe k w)) (hk : s.pipe k = some e) :
    ∃ s', fileclose f s = .ok ((), s') ∧
      s'.file = update s.file f { s.file f with ref := 0, type := .none } ∧ s'.ofile = s.ofile ∧
      s'.pipe = update s.pipe k (if (e.close w).readopen = false ∧ (e.close w).writeopen = false
        then none else some (e.close w)) := by
  rw [fileclose]
  refine ⟨{ s with
    file := update s.file f { s.file f with ref := 0, type := .none }
    released := (a, .pipe k w) :: s.released
    pipe := _ }, (bind_ok rfl).trans ?_, rfl, rfl, rfl⟩
  simp only [hf, hh]
  refine (bind_ok rfl).trans ((bind_ok rfl).trans ((bind_ok rfl).trans ?_))
  simp only [setFile, hk]
  split <;> rfl

/-- The state after `pipealloc`. -/
structure NewPipe (s : FtSys) (rf wf : ℕ) (s' : FtSys) : Prop where
  ne : rf ≠ wf
  free : (s.file rf).ref = 0 ∧ (s.file wf).ref = 0
  ref : ∀ f, (s'.file f).ref = if f = rf ∨ f = wf then 1 else (s.file f).ref
  held : (∃ a, (s'.file rf).held = some (a, .pipe s.npipes false)) ∧
    ∃ a, (s'.file wf).held = some (a, .pipe s.npipes true)
  ofile : s'.ofile = s.ofile
  pipe : s'.pipe = update s.pipe s.npipes (some ⟨true, true⟩)

theorem pipealloc_ok (hclosed : ∀ f < NFILE, (s.file f).ref = 0 → (s.file f).type = .none)
    (mem : Bool) : pipealloc mem s = .ok (none, s) ∨
      ∃ rf wf s', pipealloc mem s = .ok (some (rf, wf), s') ∧ NewPipe s rf wf s' := by
  rcases filealloc_ok s with h | ⟨rf, hrf, hr, h⟩
  · exact .inl (bind_ok h)
  have hback := fileclose_unused hr (hclosed rf hrf hr)
  rcases filealloc_ok (s.setFile rf { s.file rf with ref := 1 }) with h1 | ⟨wf, hwf, hw, h1⟩
  · exact .inl ((bind_ok h).trans ((bind_ok h1).trans (bind_ok hback)))
  have hne : rf ≠ wf := by
    rintro rfl
    simp [setFile] at hw
  have hkeep : (s.setFile rf { s.file rf with ref := 1 }).file wf = s.file wf :=
    update_of_ne hne.symm ..
  rw [hkeep] at hw h1
  cases mem with
  | false =>
    have hswap : (s.setFile rf { s.file rf with ref := 1 }).setFile wf { s.file wf with ref := 1 } =
        (s.setFile wf { s.file wf with ref := 1 }).setFile rf { s.file rf with ref := 1 } :=
      congrArg (fun file => { s with file }) (update_comm hne ..)
    have hkeep' : (s.setFile wf { s.file wf with ref := 1 }).file rf = s.file rf :=
      update_of_ne hne ..
    have hback' := fileclose_unused (hkeep' ▸ hr) (hkeep' ▸ hclosed rf hrf hr)
    rw [hkeep', ← hswap] at hback'
    exact .inl ((bind_ok h).trans ((bind_ok h1).trans ((bind_ok hback').trans
      (bind_ok (fileclose_unused hw (hclosed wf hwf hw))))))
  | true =>
    refine .inr ⟨rf, wf, _, (bind_ok h).trans ((bind_ok h1).trans rfl), hne, ⟨hr, hw⟩, fun f => ?_,
      ?_, rfl, rfl⟩
    · by_cases hfw : f = wf
      · simp [setUp, setFile, setPipe, hfw, hne.symm]
      · by_cases hfr : f = rf <;> simp [setUp, setFile, setPipe, hfw, hfr, hne, update_apply]
    · simp [setUp, setFile, setPipe, hne, FileEnt.held]

/-- Both ends are closed again. -/
theorem NewPipe.close {rf wf : ℕ} {s' t : FtSys} (h : NewPipe s rf wf s')
    (hpage : s.pipe s.npipes = none) (hfile : t.file = s'.file) (hpipe : t.pipe = s'.pipe) :
    ∃ u, (do
      fileclose rf
      fileclose wf
      return -1 : Exec Stop FtSys ℤ) t = .ok (-1, u) ∧ (∀ f, (u.file f).ref = (s.file f).ref) ∧
      u.ofile = t.ofile ∧ u.pipe = s.pipe := by
  obtain ⟨⟨a, hrf⟩, b, hwf⟩ := h.held
  rw [← hfile] at hrf hwf
  have href := h.ref
  rw [← hfile] at href
  have hk : t.pipe s.npipes = some ⟨true, true⟩ := by rw [hpipe, h.pipe, update_self]
  obtain ⟨t1, h1, hf1, ho1, hp1⟩ := fileclose_pipe (by simp [href]) hrf hk
  have hkeep : t1.file wf = t.file wf := by rw [hf1, update_of_ne h.ne.symm]
  rw [← hkeep] at hwf
  obtain ⟨t2, h2, hf2, ho2, hp2⟩ := fileclose_pipe (by simp [hkeep, href]) hwf
    ((congrFun hp1 _).trans (update_self ..))
  refine ⟨t2, (bind_ok h1).trans ((bind_ok h2).trans rfl), fun f => ?_, ho2.trans ho1, ?_⟩
  · rw [hf2, hf1]
    by_cases hfw : f = wf
    · simp [hfw, h.free]
    · by_cases hfr : f = rf <;> simp [hfw, hfr, h.free, h.ne, href, update_apply]
  · rw [hp2, hp1, update_idem, hpipe, h.pipe, update_idem]
    exact update_eq_self_iff.mpr hpage.symm

/-- **A call of `pipe` that fails leaves no trace**, and nothing is freed twice on the way, if free
files have the type `FD_NONE` and the next page for a pipe is free. -/
theorem sysPipe_failed (s : FtSys) (p : ℕ) (args mem : Bool)
    (hclosed : ∀ f < NFILE, (s.file f).ref = 0 → (s.file f).type = .none)
    (hpage : s.pipe s.npipes = none) :
    ∃ r s', sysPipeRet p args mem s = .ok (r, s') ∧ (r = -1 →
      (∀ f, (s'.file f).ref = (s.file f).ref) ∧ s'.ofile = s.ofile ∧ s'.pipe = s.pipe) := by
  cases args with
  | false => exact ⟨-1, s, rfl, fun _ => ⟨fun _ => rfl, rfl, rfl⟩⟩
  | true =>
    rcases pipealloc_ok hclosed mem with h | ⟨rf, wf, s1, h, hnew⟩
    · exact ⟨-1, s, bind_ok h, fun _ => ⟨fun _ => rfl, rfl, rfl⟩⟩
    rcases fdalloc_ok s1 p rf with h1 | ⟨fd0, -, hnone, h1⟩
    · obtain ⟨u, hu, href, hof, hp⟩ := hnew.close hpage rfl rfl
      exact ⟨-1, u, (bind_ok h).trans ((bind_ok h1).trans hu),
        fun _ => ⟨href, hof.trans hnew.ofile, hp⟩⟩
    rcases fdalloc_ok (s1.setFd p fd0 (some rf)) p wf with h2 | ⟨fd1, -, -, h2⟩
    · obtain ⟨u, hu, href, hof, hp⟩ :=
        hnew.close (t := (s1.setFd p fd0 (some rf)).setFd p fd0 none) hpage rfl rfl
      refine ⟨-1, u, (bind_ok h).trans
        ((bind_ok h1).trans ((bind_ok h2).trans ((bind_ok rfl).trans hu))),
        fun _ => ⟨href, hof.trans ?_, hp⟩⟩
      funext p' fd'
      rw [FtInv.ofile_setFd, FtInv.ofile_setFd, ← hnew.ofile]
      split
      · rename_i he
        rw [he.1, he.2, hnone]
      · rfl
    · exact ⟨0, _, (bind_ok h).trans ((bind_ok h1).trans ((bind_ok h2).trans rfl)), nofun⟩

/-- No descriptor is left. -/
theorem sysPipe_failed_full : ∃ s' : FtSys,
    sysPipeRet 0 true true { start with ofile := fun _ _ => some 0 } = .ok (-1, s') ∧
      s'.pipe 0 = none := by
  obtain ⟨r, s', hs, hsame⟩ := sysPipe_failed { start with ofile := fun _ _ => some 0 } 0 true true
    (fun _ _ _ => rfl) rfl
  cases hs
  exact ⟨_, rfl, congrFun (hsame rfl).2.2 0⟩

end FtSys

end Xv6
