import Mathlib.Algebra.Order.BigOperators.Group.Finset
import Mathlib.Data.Fintype.Basic
import Xv6.Count
import Xv6.Dinode
import Xv6.Machine
import Xv6.Param

/-!
# The lives of an inode number

An inode number is used again and again: `ialloc` finds that the inode on disk is free and marks it
used, and the `iput` of the last reference to a file without links truncates it and marks it free.
`iput` does this in two critical sections of `icache.lock`; in between it has the inode locked
(`I_BUSY`) and works on the disk, where `ialloc` may already see the free inode and take a
reference to the very same cache entry.

The machine is about one inode number and any number of processes.

* An event is one step of a process up to where others can interfere: a critical section of
  `icache.lock`, or one access to the block of the inode, which is held locked meanwhile. `next`
  goes on with a function that a process has begun.
* At most one entry of the cache is in use for a number, and those who know it hold references, so
  there is one entry to speak of: it is the one with `ref > 0`, or else the empty one that `iget`
  would recycle.
* The callers of `fs.c` lock only what they have a reference to and unlock only what they have
  locked. Whoever has the inode locked may change it and write it back (`update`).
* `life` counts the allocations. `born` is the inode as the last one wrote it, `touched` tells
  whether it has been written since, `copyLife` is the life from which the cached copy was read,
  and `truncs` and `frees` are the lives that have been truncated and freed.
-/

namespace Xv6

open List

/-- Where a process is, as far as the inode is concerned. -/
inductive LifePc : Type where
  | idle
  /-- in `ilock`: has set `I_BUSY` -/
  | reading
  /-- in `ilock`: has copied the inode from disk -/
  | copied
  /-- `ilock` has returned -/
  | locked
  /-- in `iput`: has seen the last reference to a file without links, and set `I_BUSY` -/
  | truncating
  /-- in `itrunc`: has emptied the copy in memory -/
  | emptied
  /-- in `iput`: `itrunc` has returned -/
  | truncated
  /-- in `iput`: `ip->type = 0` -/
  | typed
  /-- in `iput`: has written that to disk -/
  | freed
  /-- in `ialloc`: has marked the inode allocated on disk -/
  | allocated
  deriving DecidableEq, Repr

/-- Between setting and clearing `I_BUSY`. -/
def LifePc.busy : LifePc → Bool
  | .idle => false
  | .allocated => false
  | _ => true

/-- A process: its references to the inode, and where it is. -/
structure LifeProc where
  refs : ℕ
  pc : LifePc
  deriving DecidableEq, Repr

/-- The inode on disk, its entry in the cache, and the processes. -/
structure LifeSys (n : ℕ) where
  disk : Dinode
  ref : ℕ
  /-- `I_BUSY` -/
  busy : Bool
  /-- `I_VALID` -/
  valid : Bool
  copy : Dinode
  proc : Fin n → LifeProc
  life : ℕ
  born : Dinode
  touched : Bool
  copyLife : ℕ
  truncs : List ℕ
  frees : List ℕ

/-- A step of a process. -/
inductive LifeEvent (n : ℕ) : Type where
  | iget (p : Fin n)
  /-- the new reference is for process `q` -/
  | idup (p q : Fin n)
  /-- `ialloc` has come to the inode -/
  | ialloc (p : Fin n) (type : UInt16)
  | ilock (p : Fin n)
  | update (p : Fin n) (d : Dinode)
  | iunlock (p : Fin n)
  | iput (p : Fin n)
  /-- the next step of `ilock`, `iput` or `ialloc` -/
  | next (p : Fin n)

/-- The inode that `ialloc` writes. -/
def Dinode.blank (type : UInt16) : Dinode :=
  { type, major := 0, minor := 0, nlink := 0, size := 0, addrs := fun _ => 0 }

/-- The inode without contents. -/
def Dinode.empty (d : Dinode) : Dinode := { d with size := 0, addrs := fun _ => 0 }

namespace LifeSys

variable {n : ℕ}

/-- The inode is as the image has it, and nobody knows it. -/
def start (n : ℕ) (d : Dinode) : LifeSys n where
  disk := d
  ref := 0
  busy := false
  valid := false
  copy := d
  proc _ := ⟨0, .idle⟩
  life := 0
  born := d
  touched := false
  copyLife := 0
  truncs := []
  frees := []

def setProc (s : LifeSys n) (p : Fin n) (x : LifeProc) : LifeSys n :=
  { s with proc := Function.update s.proc p x }

def setPc (s : LifeSys n) (p : Fin n) (pc : LifePc) : LifeSys n :=
  s.setProc p { s.proc p with pc }

/-- The critical section of `iget`. -/
def get (s : LifeSys n) (p : Fin n) : LifeSys n :=
  let s' := s.setProc p ⟨(s.proc p).refs + 1, if (s.proc p).pc = .allocated then .idle
    else (s.proc p).pc⟩
  if 0 < s.ref then { s' with ref := s.ref + 1 }
  else { s' with ref := 1, busy := false, valid := false }

/-- `ip->ref--` -/
def put (s : LifeSys n) (p : Fin n) (pc : LifePc) : LifeSys n :=
  { s.setProc p ⟨(s.proc p).refs - 1, pc⟩ with ref := s.ref - 1 }

/-- The next step of a process that is inside `ilock`, `iput` or `ialloc`. -/
def advance (s : LifeSys n) (p : Fin n) : Except Stop (LifeSys n) :=
  match (s.proc p).pc with
  | .reading =>
    if s.valid then .ok (s.setPc p .locked)
    else .ok { s.setPc p .copied with copy := s.disk, copyLife := s.life }
  | .copied =>
    if s.copy.type = 0 then .error (.panic "ilock: no type")
    else .ok { s.setPc p .locked with valid := true }
  | .truncating => .ok { s.setPc p .emptied with copy := s.copy.empty }
  | .emptied => .ok { s.setPc p .truncated with
      disk := s.copy, touched := true, truncs := s.life :: s.truncs }
  | .truncated => .ok { s.setPc p .typed with copy := { s.copy with type := 0 } }
  | .typed => .ok { s.setPc p .freed with
      disk := s.copy, touched := true, frees := s.life :: s.frees }
  | .freed => .ok { s.put p .idle with busy := false, valid := false }
  | .allocated => .ok (s.get p)
  | .idle => .error .misuse
  | .locked => .error .misuse

/-- One step. -/
def step (s : LifeSys n) : LifeEvent n → Except Stop (LifeSys n)
  | .iget p =>
    if (s.proc p).pc = .idle ∨ (s.proc p).pc = .locked then .ok (s.get p) else .error .misuse
  | .idup p q =>
    if 0 < (s.proc p).refs ∧ (s.proc q).pc ≠ .allocated then .ok (s.get q) else .error .misuse
  | .ialloc p type =>
    if (s.proc p).pc ≠ .idle ∨ type = 0 then .error .misuse
    else if s.disk.type = 0 then .ok { s.setPc p .allocated with
      disk := .blank type, life := s.life + 1, born := .blank type, touched := false }
    -- it goes on with the next number
    else .error .blocked
  | .ilock p =>
    if (s.proc p).pc ≠ .idle ∨ (s.proc p).refs = 0 then .error .misuse
    else if s.ref < 1 then .error (.panic "ilock")
    else if s.busy then .error .blocked
    else .ok { s.setPc p .reading with busy := true }
  | .update p d =>
    if (s.proc p).pc = .locked ∧ d.type ≠ 0 then
      .ok { s with copy := d, disk := d, touched := true }
    else .error .misuse
  | .iunlock p =>
    if (s.proc p).pc ≠ .locked then .error .misuse
    else if !s.busy ∨ s.ref < 1 then .error (.panic "iunlock")
    else .ok { s.setPc p .idle with busy := false }
  | .iput p =>
    -- who has the inode locked keeps a reference
    if ((s.proc p).pc = .idle ∧ 0 < (s.proc p).refs) ∨
        ((s.proc p).pc = .locked ∧ 1 < (s.proc p).refs) then
      if s.ref = 1 ∧ s.valid = true ∧ s.copy.nlink = 0 then
        if s.busy then .error (.panic "iput busy")
        else .ok { s.setPc p .truncating with busy := true }
      else .ok (s.put p (s.proc p).pc)
    else .error .misuse
  | .next p => s.advance p

/-! ## The invariant -/

/-- The copy in memory is that of the present life, as it is on disk. -/
structure Fresh (s : LifeSys n) : Prop where
  copy : s.copy = s.disk
  type : s.disk.type ≠ 0
  life : s.copyLife = s.life

/-- What holds while a process is at `pc`. -/
def At (s : LifeSys n) : LifePc → Prop
  | .idle => True
  | .allocated => True
  | .reading => s.valid = true → s.Fresh
  -- if the inode was free, it may have been allocated since
  | .copied => s.Fresh ∨ s.copy.type = 0
  | .locked => s.Fresh
  | .truncating => s.Fresh ∧ s.disk.nlink = 0
  | .emptied => s.copy = s.disk.empty ∧ s.disk.type ≠ 0 ∧ s.copyLife = s.life ∧ s.disk.nlink = 0
  | .truncated => s.Fresh ∧ s.disk.nlink = 0
  | .typed => s.copy.type = 0 ∧ s.disk.type ≠ 0 ∧ s.disk.nlink = 0
  | .freed => True

theorem at_of_not_busy (s : LifeSys n) {pc : LifePc} (h : pc.busy = false) : s.At pc := by
  cases pc <;> trivial

/-- References are counted, and one process at most has the inode locked. -/
structure Locks (s : LifeSys n) : Prop where
  count : s.ref = ∑ p, (s.proc p).refs
  busy : ∀ p, (s.proc p).pc.busy = true → s.busy = true ∧ 0 < (s.proc p).refs
  one : ∀ p q, (s.proc p).pc.busy = true → (s.proc q).pc.busy = true → p = q

/-- No life is truncated or freed twice. -/
structure Lives (s : LifeSys n) : Prop where
  truncs_le : ∀ l ∈ s.truncs, l ≤ s.life
  frees_le : ∀ l ∈ s.frees, l ≤ s.life
  truncs_nodup : s.truncs.Nodup
  frees_nodup : s.frees.Nodup
  /-- the present life has been truncated only if it is about to end -/
  truncs_now : s.disk.type ≠ 0 → s.life ∈ s.truncs →
    ∃ p, (s.proc p).pc = .truncated ∨ (s.proc p).pc = .typed
  frees_now : s.disk.type ≠ 0 → s.life ∉ s.frees
  untouched : s.touched = false → s.disk = s.born

structure Inv (s : LifeSys n) : Prop where
  locks : s.Locks
  lives : s.Lives
  pcs : ∀ p, s.At (s.proc p).pc
  /-- what is in the cache, and not locked, is the present inode -/
  quiet : s.busy = false → 0 < s.ref → s.valid = true → s.Fresh

section Steps

variable {s s' : LifeSys n} {p q : Fin n} {x : LifeProc} {pc : LifePc}

@[simp] theorem proc_setProc_self : (s.setProc p x).proc p = x := Function.update_self ..

theorem proc_setProc_ne (h : q ≠ p) : (s.setProc p x).proc q = s.proc q :=
  Function.update_of_ne h ..

/-- What a property of all processes becomes when one of them moves. -/
theorem forall_setProc {P : Fin n → LifeProc → Prop} (h : ∀ q, q ≠ p → P q (s.proc q))
    (hx : P p x) : ∀ q, P q ((s.setProc p x).proc q) := by
  intro q
  rcases eq_or_ne q p with rfl | hq
  · rwa [proc_setProc_self]
  · rw [proc_setProc_ne hq]
    exact h q hq

namespace Locks

/-- While one process has the inode locked, the others are outside. -/
theorem others (h : s.Locks) (hp : (s.proc p).pc.busy = true) (hq : q ≠ p) :
    (s.proc q).pc.busy = false := by
  by_contra hc
  exact hq (h.one q p (by simpa using hc) hp)

/-- Who is inside, and not about to end the life of the inode, is the only one who could. -/
theorem not_ending (h : s.Locks) (hp : (s.proc p).pc.busy = true)
    (hpc : (s.proc p).pc ≠ .truncated ∧ (s.proc p).pc ≠ .typed) :
    ¬((s.proc q).pc = .truncated ∨ (s.proc q).pc = .typed) := by
  intro hq
  obtain rfl : q = p := h.one q p (by rcases hq with hq | hq <;> rw [hq] <;> rfl) hp
  exact hq.elim hpc.1 hpc.2

/-- If it is not locked, all are outside. -/
theorem outside (h : s.Locks) (hb : s.busy = false) (q : Fin n) : (s.proc q).pc.busy = false := by
  by_contra hc
  have := (h.busy q (by simpa using hc)).1
  rw [hb] at this
  cases this

/-- Without references there is nobody inside. -/
theorem outside_of_ref (h : s.Locks) (h0 : s.ref = 0) (q : Fin n) : (s.proc q).pc.busy = false := by
  by_contra hc
  have hpos := (h.busy q (by simpa using hc)).2
  have hsum := h.count
  rw [h0] at hsum
  have := Finset.sum_eq_zero_iff.mp hsum.symm q (Finset.mem_univ q)
  omega

/-- A process moves. -/
theorem move (h : s.Locks) (hproc : s'.proc = (s.setProc p x).proc)
    (href : s'.ref + (s.proc p).refs = s.ref + x.refs)
    (hx : x.pc.busy = true → s'.busy = true ∧ 0 < x.refs ∧ ∀ q, q ≠ p → (s.proc q).pc.busy = false)
    (hothers : ∀ q, q ≠ p → (s.proc q).pc.busy = true → s'.busy = true) : s'.Locks := by
  refine ⟨?_, ?_, ?_⟩
  · have hsum := sum_change (s := Finset.univ) (f := fun q => (s.proc q).refs)
      (g := fun q => (s'.proc q).refs) (Finset.mem_univ p) fun q _ hq => by
        rw [hproc, proc_setProc_ne hq]
    have hcount := h.count
    simp only [hproc, proc_setProc_self] at hsum ⊢
    omega
  · rw [hproc]
    exact forall_setProc (P := fun q y => y.pc.busy = true → s'.busy = true ∧ 0 < y.refs)
      (fun q hq hb => ⟨hothers q hq hb, (h.busy q hb).2⟩) fun hb => ⟨(hx hb).1, (hx hb).2.1⟩
  intro q1 q2
  rw [hproc]
  rcases eq_or_ne q1 p with rfl | h1 <;> rcases eq_or_ne q2 q1 with h2 | h2
  · exact fun _ _ => h2.symm
  · rw [proc_setProc_self, proc_setProc_ne h2]
    intro hb hb'
    rw [(hx hb).2.2 q2 h2] at hb'
    cases hb'
  · exact fun _ _ => h2.symm
  rcases eq_or_ne q2 p with rfl | h3
  · rw [proc_setProc_self, proc_setProc_ne h1]
    intro hb' hb
    rw [(hx hb).2.2 q1 h1] at hb'
    cases hb'
  · rw [proc_setProc_ne h1, proc_setProc_ne h3]
    exact h.one q1 q2

end Locks

theorem Lives.same (h : s.Lives) (hd : s'.disk = s.disk) (hl : s'.life = s.life)
    (hb : s'.born = s.born) (ht : s'.touched = s.touched) (htr : s'.truncs = s.truncs)
    (hf : s'.frees = s.frees) (hproc : ∀ q, (s.proc q).pc = .truncated ∨ (s.proc q).pc = .typed →
      (s'.proc q).pc = .truncated ∨ (s'.proc q).pc = .typed) : s'.Lives := by
  obtain ⟨h1, h2, h3, h4, h5, h6, h7⟩ := h
  rw [← htr, ← hl] at h1
  rw [← hf, ← hl] at h2
  rw [← htr] at h3
  rw [← hf] at h4
  rw [← hd, ← htr, ← hl] at h5
  rw [← hd, ← hf, ← hl] at h6
  rw [← hd, ← hb, ← ht] at h7
  exact ⟨h1, h2, h3, h4, fun a b => (h5 a b).imp hproc, h6, h7⟩

theorem Fresh.same (h : s.Fresh) (hd : s'.disk = s.disk) (hc : s'.copy = s.copy)
    (hl : s'.life = s.life) (hcl : s'.copyLife = s.copyLife) : s'.Fresh :=
  ⟨by rw [hc, hd, h.copy], by rw [hd]; exact h.type, by rw [hcl, hl, h.life]⟩

/-- What holds at a place looks at the inode and its copy only. -/
theorem At.same (h : s.At pc) (hd : s'.disk = s.disk) (hc : s'.copy = s.copy)
    (hl : s'.life = s.life) (hcl : s'.copyLife = s.copyLife) (hv : s'.valid = s.valid) :
    s'.At pc := by
  cases pc with
  | reading => exact fun hv' => (h (hv ▸ hv')).same hd hc hl hcl
  | copied => exact h.imp (·.same hd hc hl hcl) (hc ▸ ·)
  | locked => exact Fresh.same h hd hc hl hcl
  | truncating => exact ⟨h.1.same hd hc hl hcl, hd ▸ h.2⟩
  | emptied =>
    rw [At, hd, hc, hl, hcl]
    exact h
  | truncated => exact ⟨h.1.same hd hc hl hcl, hd ▸ h.2⟩
  | typed =>
    rw [At, hc, hd]
    exact h
  | _ => trivial

theorem Locks.le (h : s.Locks) (p : Fin n) : (s.proc p).refs ≤ s.ref := by
  rw [h.count]
  exact Finset.single_le_sum (f := fun q => (s.proc q).refs) (fun _ _ => Nat.zero_le _)
    (Finset.mem_univ p)

/-- If there is one reference, nobody else has one. -/
theorem Locks.alone (h : s.Locks) (h1 : s.ref = 1) (hp : 0 < (s.proc p).refs) :
    (s.proc p).refs = 1 ∧ ∀ q, q ≠ p → (s.proc q).refs = 0 := by
  have hle := h.le p
  refine ⟨by omega, fun q hq => ?_⟩
  have hsum := Finset.add_le_sum (f := fun q => (s.proc q).refs) (fun _ _ => Nat.zero_le _)
    (Finset.mem_univ q) (Finset.mem_univ p) hq
  have hcount := h.count
  omega

namespace Inv

section

variable (h : s.Inv)

include h

/-- `iget` -/
theorem get (p : Fin n) : (s.get p).Inv := by
  obtain ⟨x, hx⟩ : ∃ x : LifeProc, x = ⟨(s.proc p).refs + 1,
    if (s.proc p).pc = .allocated then .idle else (s.proc p).pc⟩ := ⟨_, rfl⟩
  have hxr : x.refs = (s.proc p).refs + 1 := by rw [hx]
  have hxpc : x.pc.busy = true → (s.proc p).pc.busy = true := by
    rw [hx]
    dsimp only
    split
    · exact nofun
    · exact id
  have hat : s.At x.pc := by
    rw [hx]
    dsimp only
    split
    · trivial
    · exact h.pcs p
  have hend : ∀ q, (s.proc q).pc = .truncated ∨ (s.proc q).pc = .typed →
      ((s.setProc p x).proc q).pc = .truncated ∨ ((s.setProc p x).proc q).pc = .typed := by
    intro q hq
    rcases eq_or_ne q p with rfl | hne
    · rw [proc_setProc_self, hx, if_neg (by rcases hq with hq | hq <;> rw [hq] <;> decide)]
      exact hq
    · rwa [proc_setProc_ne hne]
  rw [LifeSys.get, ← hx]
  by_cases href : 0 < s.ref
  · rw [if_pos href]
    refine ⟨h.locks.move (x := x) rfl ?_ (fun hb => ?_) fun q _ hb => (h.locks.busy q hb).1,
      h.lives.same rfl rfl rfl rfl rfl rfl hend, ?_, fun hb _ hv => ?_⟩
    · rw [hxr]
      show s.ref + 1 + _ = _
      omega
    · exact ⟨(h.locks.busy p (hxpc hb)).1, by omega, fun q => h.locks.others (hxpc hb)⟩
    · exact forall_setProc (s := s) (P := fun _ y => LifeSys.At _ y.pc)
        (fun q _ => (h.pcs q).same rfl rfl rfl rfl rfl) (hat.same rfl rfl rfl rfl rfl)
    · exact (h.quiet hb href hv).same rfl rfl rfl rfl
  have h0 : s.ref = 0 := by omega
  have hout := h.locks.outside_of_ref h0
  have hxb : x.pc.busy = false := by
    by_contra hc
    rw [hout p] at hxpc
    exact absurd (hxpc (by simpa using hc)) (by decide)
  rw [if_neg href]
  refine ⟨h.locks.move (x := x) rfl ?_ (fun hb => ?_) fun q _ hb => ?_,
    h.lives.same rfl rfl rfl rfl rfl rfl hend, ?_, fun _ _ hv => by cases hv⟩
  · rw [hxr]
    show 1 + _ = _
    omega
  · rw [hxb] at hb
    cases hb
  · rw [hout q] at hb
    cases hb
  · exact forall_setProc (s := s) (P := fun _ y => LifeSys.At _ y.pc)
      (fun q _ => at_of_not_busy _ (hout q)) (at_of_not_busy _ hxb)

/-- `iput` of a reference that is not the last one to a file without links. -/
theorem put (hp : 0 < (s.proc p).refs)
    (hb : (s.proc p).pc.busy = true → 1 < (s.proc p).refs) : (s.put p (s.proc p).pc).Inv := by
  have hle := h.locks.le p
  refine ⟨h.locks.move (x := ⟨(s.proc p).refs - 1, (s.proc p).pc⟩) rfl ?_ (fun hx => ?_)
    fun q _ hq => (h.locks.busy q hq).1, h.lives.same rfl rfl rfl rfl rfl rfl fun q hq => ?_, ?_,
    fun hb' href hv => ?_⟩
  · show s.ref - 1 + _ = _ + ((s.proc p).refs - 1)
    omega
  · have := hb hx
    refine ⟨(h.locks.busy p hx).1, ?_, fun q => h.locks.others hx⟩
    show 0 < (s.proc p).refs - 1
    omega
  · exact forall_setProc (s := s) (x := ⟨(s.proc p).refs - 1, (s.proc p).pc⟩)
      (P := fun q y => (s.proc q).pc = .truncated ∨ (s.proc q).pc = .typed →
        y.pc = .truncated ∨ y.pc = .typed) (fun _ _ => id) id q hq
  · exact forall_setProc (s := s) (P := fun _ y => LifeSys.At _ y.pc)
      (fun q _ => (h.pcs q).same rfl rfl rfl rfl rfl) ((h.pcs p).same rfl rfl rfl rfl rfl)
  · have href : 0 < s.ref - 1 := href
    exact (h.quiet hb' (by omega) hv).same rfl rfl rfl rfl

/-- A process that is inside goes on. -/
theorem inside (hp : (s.proc p).pc.busy = true)
    (hproc : s'.proc = (s.setPc p pc).proc) (href : s'.ref = s.ref) (hb : s'.busy = true)
    (hl : s'.Lives) (hat : s'.At pc) : s'.Inv := by
  refine ⟨h.locks.move hproc (by rw [href]) (fun _ => ?_) fun _ _ _ => hb, hl, ?_, fun hc => ?_⟩
  · exact ⟨hb, (h.locks.busy p hp).2, fun q => h.locks.others hp⟩
  · rw [hproc]
    exact forall_setProc (s := s) (P := fun _ y => s'.At y.pc)
      (fun q hq => at_of_not_busy _ (h.locks.others hp hq)) hat
  · rw [hb] at hc
    cases hc

/-- A process locks the inode. -/
theorem enter (hb : s.busy = false) (hp : 0 < (s.proc p).refs)
    (hat : s.At pc) : LifeSys.Inv { s.setPc p pc with busy := true } := by
  have hout := h.locks.outside hb
  have hend : ∀ q, (s.proc q).pc = .truncated ∨ (s.proc q).pc = .typed →
      ((s.setPc p pc).proc q).pc = .truncated ∨ ((s.setPc p pc).proc q).pc = .typed := by
    intro q hq
    have := hout q
    rcases hq with hq | hq <;> rw [hq] at this <;> cases this
  refine ⟨h.locks.move (x := { s.proc p with pc }) rfl rfl (fun _ => ⟨rfl, hp, fun q _ => hout q⟩)
    fun _ _ _ => rfl, h.lives.same rfl rfl rfl rfl rfl rfl hend, ?_, nofun⟩
  exact forall_setProc (s := s) (P := fun _ y => LifeSys.At _ y.pc)
    (fun q _ => at_of_not_busy _ (hout q)) (hat.same rfl rfl rfl rfl rfl)

/-- The last of `iput`, after which the entry has to be read again. -/
theorem leave (hp : (s.proc p).pc = .freed) :
    LifeSys.Inv { s.put p .idle with busy := false, valid := false } := by
  have hbusy : (s.proc p).pc.busy = true := by
    rw [hp]
    rfl
  have hpos := (h.locks.busy p hbusy).2
  have hle := h.locks.le p
  refine ⟨h.locks.move (x := ⟨(s.proc p).refs - 1, .idle⟩) rfl ?_ nofun
    fun q hq hb => ?_, h.lives.same rfl rfl rfl rfl rfl rfl fun q hq => ?_, ?_,
    fun _ _ hv => by cases hv⟩
  · show s.ref - 1 + _ = _ + ((s.proc p).refs - 1)
    omega
  · rw [h.locks.others hbusy hq] at hb
    cases hb
  · exact absurd hq (h.locks.not_ending hbusy (by rw [hp]; decide))
  · exact forall_setProc (s := s) (P := fun _ y => LifeSys.At _ y.pc)
      (fun q hq => at_of_not_busy _ (h.locks.others hbusy hq)) trivial

/-- `iunlock` -/
theorem unlock (hp : (s.proc p).pc = .locked) :
    LifeSys.Inv { s.setPc p .idle with busy := false } := by
  have hbusy : (s.proc p).pc.busy = true := by
    rw [hp]
    rfl
  have hfresh : s.Fresh := by
    have := h.pcs p
    rwa [hp] at this
  refine ⟨h.locks.move (x := { s.proc p with pc := .idle }) rfl rfl nofun
    fun q hq hb => ?_, h.lives.same rfl rfl rfl rfl rfl rfl fun q hq => ?_, ?_,
    fun _ _ _ => hfresh.same rfl rfl rfl rfl⟩
  · rw [h.locks.others hbusy hq] at hb
    cases hb
  · exact absurd hq (h.locks.not_ending hbusy (by rw [hp]; decide))
  · exact forall_setProc (s := s) (P := fun _ y => LifeSys.At _ y.pc)
      (fun q hq => at_of_not_busy _ (h.locks.others hbusy hq)) trivial

/-- Who has the inode locked writes it. -/
theorem update (hp : (s.proc p).pc = .locked) {d : Dinode} (hd : d.type ≠ 0) :
    LifeSys.Inv { s with copy := d, disk := d, touched := true } := by
  have hbusy : (s.proc p).pc.busy = true := by
    rw [hp]
    rfl
  have hfresh : s.Fresh := by
    have := h.pcs p
    rwa [hp] at this
  refine ⟨⟨h.locks.count, h.locks.busy, h.locks.one⟩, { h.lives with
    truncs_now := fun _ => h.lives.truncs_now hfresh.type
    frees_now := fun _ => h.lives.frees_now hfresh.type
    untouched := fun hc => by cases hc }, fun q => ?_, fun hc => ?_⟩
  · rcases eq_or_ne q p with rfl | hq
    · show LifeSys.At _ (s.proc q).pc
      rw [hp]
      exact ⟨rfl, hd, hfresh.life⟩
    · exact at_of_not_busy _ (h.locks.others hbusy hq)
  · have := (h.locks.busy p hbusy).1
    have hc : s.busy = false := hc
    rw [this] at hc
    cases hc

/-- `ialloc` marks the inode. It is free, so nobody looks at a copy of it that counts. -/
theorem ialloc (p : Fin n) (h0 : s.disk.type = 0) (type : UInt16) :
    LifeSys.Inv { s.setPc p .allocated with
      disk := .blank type, life := s.life + 1, born := .blank type, touched := false } := by
  refine ⟨h.locks.move (x := { s.proc p with pc := .allocated }) rfl rfl nofun
    fun q _ hb => (h.locks.busy q hb).1, ⟨fun l hl => ?_, fun l hl => ?_, h.lives.truncs_nodup,
    h.lives.frees_nodup, fun _ hl => ?_, fun _ hl => ?_, fun _ => rfl⟩, ?_, fun hb href hv => ?_⟩
  · exact (h.lives.truncs_le l hl).trans (Nat.le_succ _)
  · exact (h.lives.frees_le l hl).trans (Nat.le_succ _)
  · exact absurd (h.lives.truncs_le _ hl) (Nat.not_succ_le_self _)
  · exact absurd (h.lives.frees_le _ hl) (Nat.not_succ_le_self _)
  · refine forall_setProc (s := s) (P := fun _ y => LifeSys.At _ y.pc) (fun q _ => ?_) trivial
    have hat := h.pcs q
    rcases hpc : (s.proc q).pc <;> rw [hpc] at hat
    case reading => exact fun hv => absurd h0 (hat hv).type
    case copied => exact .inr (hat.resolve_left fun hf => hf.type h0)
    case locked => exact absurd h0 hat.type
    case truncating => exact absurd h0 hat.1.type
    case emptied => exact absurd h0 hat.2.1
    case truncated => exact absurd h0 hat.1.type
    case typed => exact absurd h0 hat.2.1
    all_goals trivial
  · exact absurd h0 (h.quiet hb href hv).type

end

end Inv

section

variable (h : s.Inv)

include h

/-- Nobody else is about to end this life. -/
theorem Inv.not_ending (hp : (s.proc p).pc.busy = true)
    (hpc : (s.proc p).pc ≠ .truncated ∧ (s.proc p).pc ≠ .typed) (ht : s.disk.type ≠ 0) :
    s.life ∉ s.truncs := by
  intro hl
  obtain ⟨q, hq⟩ := h.lives.truncs_now ht hl
  exact h.locks.not_ending hp hpc hq

/-- While a process is inside and not about to end the life, only its place changes for
`truncs_now`. -/
theorem Lives.inside (hp : (s.proc p).pc.busy = true)
    (hpc : (s.proc p).pc ≠ .truncated ∧ (s.proc p).pc ≠ .typed) (hd : s'.disk = s.disk)
    (hl : s'.life = s.life) (hb : s'.born = s.born) (ht : s'.touched = s.touched)
    (htr : s'.truncs = s.truncs) (hf : s'.frees = s.frees) : s'.Lives := by
  obtain ⟨h1, h2, h3, h4, -, h6, h7⟩ := h.lives
  have hnot := h.not_ending hp hpc
  rw [← htr, ← hl] at h1
  rw [← hf, ← hl] at h2
  rw [← htr] at h3
  rw [← hf] at h4
  rw [← hd, ← htr, ← hl] at hnot
  rw [← hd, ← hf, ← hl] at h6
  rw [← hd, ← hb, ← ht] at h7
  exact ⟨h1, h2, h3, h4, fun a b => absurd b (hnot a), h6, h7⟩

/-- The steps inside `ilock`, `iput` and `ialloc`. -/
theorem Inv.advance (hs : s.advance p = .ok s') : s'.Inv := by
  have hat := h.pcs p
  have hin : (s.proc p).pc.busy = true → s.busy = true := fun hb => (h.locks.busy p hb).1
  have hself : ∀ pc, ((s.setPc p pc).proc p).pc = pc := fun pc => by
    rw [setPc, proc_setProc_self]
  have hbusy : ∀ {pc}, (s.proc p).pc = pc → pc.busy = true → (s.proc p).pc.busy = true :=
    fun hpc hb => hpc ▸ hb
  have hstay : ∀ {pc}, (s.proc p).pc = pc → pc ≠ .truncated ∧ pc ≠ .typed →
      (s.proc p).pc ≠ .truncated ∧ (s.proc p).pc ≠ .typed := fun hpc hne => hpc ▸ hne
  unfold LifeSys.advance at hs
  rcases hpc : (s.proc p).pc <;> rw [hpc] at hs hat <;> dsimp only at hs
  case idle => cases hs
  case locked => cases hs
  case reading =>
    have hb := hbusy hpc rfl
    have hne := hstay hpc (by decide)
    split at hs <;> cases hs
    · rename_i hv
      exact h.inside hb rfl rfl (hin hb) (.inside h hb hne rfl rfl rfl rfl rfl rfl)
        ((hat hv).same rfl rfl rfl rfl)
    · refine h.inside hb rfl rfl (hin hb) (.inside h hb hne rfl rfl rfl rfl rfl rfl) ?_
      by_cases h0 : s.disk.type = 0
      · exact .inr h0
      · exact .inl ⟨rfl, h0, rfl⟩
  case copied =>
    have hb := hbusy hpc rfl
    have hne := hstay hpc (by decide)
    split at hs <;> cases hs
    rename_i h0
    exact h.inside hb rfl rfl (hin hb) (.inside h hb hne rfl rfl rfl rfl rfl rfl)
      ((hat.resolve_right h0).same rfl rfl rfl rfl)
  case truncating =>
    cases hs
    have hb := hbusy hpc rfl
    have hne := hstay hpc (by decide)
    obtain ⟨hf, hn⟩ := hat
    refine h.inside hb rfl rfl (hin hb) (.inside h hb hne rfl rfl rfl rfl rfl rfl) ?_
    exact ⟨congrArg Dinode.empty hf.copy, hf.type, hf.life, hn⟩
  case emptied =>
    cases hs
    have hb := hbusy hpc rfl
    have hne := hstay hpc (by decide)
    obtain ⟨hc, ht, hl, hn⟩ := hat
    refine h.inside hb rfl rfl (hin hb) ⟨fun l hl => ?_, h.lives.frees_le, ?_, h.lives.frees_nodup,
      fun _ _ => ⟨p, .inl (hself _)⟩, fun _ => h.lives.frees_now ht, nofun⟩
      ⟨⟨rfl, ?_, hl⟩, ?_⟩
    · rcases mem_cons.mp hl with rfl | hl
      · exact le_rfl
      · exact h.lives.truncs_le l hl
    · exact nodup_cons.mpr ⟨h.not_ending hb hne ht, h.lives.truncs_nodup⟩
    · show s.copy.type ≠ 0
      rw [hc]
      exact ht
    · show s.copy.nlink = 0
      rw [hc]
      exact hn
  case truncated =>
    cases hs
    have hb := hbusy hpc rfl
    obtain ⟨hf, hn⟩ := hat
    refine h.inside hb rfl rfl (hin hb)
      { h.lives with truncs_now := fun _ _ => ⟨p, .inr (hself _)⟩ } ?_
    exact ⟨rfl, hf.type, hn⟩
  case typed =>
    cases hs
    have hb := hbusy hpc rfl
    obtain ⟨h0, ht, hn⟩ := hat
    refine h.inside hb rfl rfl (hin hb) ⟨h.lives.truncs_le, fun l hl => ?_,
      h.lives.truncs_nodup, ?_, fun hc => absurd h0 hc, fun hc => absurd h0 hc, nofun⟩ trivial
    · rcases mem_cons.mp hl with rfl | hl
      · exact le_rfl
      · exact h.lives.frees_le l hl
    · exact nodup_cons.mpr ⟨h.lives.frees_now ht, h.lives.frees_nodup⟩
  case freed =>
    cases hs
    exact h.leave hpc
  case allocated =>
    cases hs
    exact h.get p

/-- `iput` decides to free the inode only if nobody else has a reference to it. -/
theorem Inv.last (hp : 0 < (s.proc p).refs) (h1 : s.ref = 1) (hv : s.valid = true)
    (hn : s.copy.nlink = 0) (hb : s.busy = false) :
    s.Fresh ∧ s.disk.nlink = 0 ∧ (s.proc p).refs = 1 ∧ ∀ q, q ≠ p → (s.proc q).refs = 0 := by
  have hf := h.quiet hb (by omega) hv
  exact ⟨hf, hf.copy ▸ hn, h.locks.alone h1 hp⟩

/-- **Every step keeps the invariant.** -/
theorem Inv.step {e : LifeEvent n} (hs : s.step e = .ok s') : s'.Inv := by
  cases e with
  | iget p =>
    rw [LifeSys.step] at hs
    split at hs <;> cases hs
    exact h.get p
  | idup p q =>
    rw [LifeSys.step] at hs
    split at hs <;> cases hs
    exact h.get q
  | ialloc p type =>
    rw [LifeSys.step] at hs
    split at hs
    · cases hs
    split at hs <;> cases hs
    rename_i h0
    exact h.ialloc p h0 type
  | ilock p =>
    rw [LifeSys.step] at hs
    split at hs
    · cases hs
    rename_i hpc
    split at hs
    · cases hs
    rename_i href
    split at hs <;> cases hs
    rename_i hb
    have hb : s.busy = false := by simpa using hb
    exact h.enter hb (Nat.pos_of_ne_zero (not_or.mp hpc).2) fun hv => h.quiet hb (by omega) hv
  | update p d =>
    rw [LifeSys.step] at hs
    split at hs <;> cases hs
    rename_i hc
    exact h.update hc.1 hc.2
  | iunlock p =>
    rw [LifeSys.step] at hs
    split at hs
    · cases hs
    rename_i hpc
    split at hs <;> cases hs
    exact h.unlock (not_not.mp hpc)
  | iput p =>
    rw [LifeSys.step] at hs
    split at hs
    swap
    · cases hs
    rename_i hpc
    have hpos : 0 < (s.proc p).refs := by omega
    split at hs
    · rename_i hlast
      obtain ⟨h1, hv, hn⟩ := hlast
      split at hs <;> cases hs
      rename_i hb
      have hb : s.busy = false := by simpa using hb
      obtain ⟨hf, hn', -⟩ := h.last hpos h1 hv hn hb
      exact h.enter hb hpos ⟨hf, hn'⟩
    cases hs
    refine h.put hpos fun hb => ?_
    rcases hpc with hpc | hpc
    · rw [hpc.1] at hb
      cases hb
    · exact hpc.2
  | next p => exact h.advance hs

/-- When `iput` goes on to free the inode, it has found the last reference. -/
theorem Inv.iput_last (hs : s.step (.iput p) = .ok s')
    (hpc' : (s'.proc p).pc = .truncating) : s.copy.nlink = 0 ∧ s.disk.nlink = 0 ∧
      (s.proc p).refs = 1 ∧ ∀ q, q ≠ p → (s.proc q).refs = 0 := by
  rw [LifeSys.step] at hs
  split at hs
  swap
  · cases hs
  rename_i hpc
  split at hs
  · rename_i hlast
    obtain ⟨h1, hv, hn⟩ := hlast
    split at hs <;> cases hs
    rename_i hb
    exact ⟨hn, (h.last (by omega) h1 hv hn (by simpa using hb)).2⟩
  cases hs
  rw [LifeSys.put, setProc] at hpc'
  simp only [Function.update_self] at hpc'
  rw [hpc'] at hpc
  rcases hpc with ⟨hc, -⟩ | ⟨hc, -⟩ <;> cases hc

/-- What is truncated and freed on disk has no links. -/
theorem Inv.nlink_of_freed (hs : s.step (.next p) = .ok s')
    (hne : s'.truncs ≠ s.truncs ∨ s'.frees ≠ s.frees) : s.disk.nlink = 0 := by
  have hat := h.pcs p
  have hget : (s.get p).truncs = s.truncs ∧ (s.get p).frees = s.frees := by
    rw [LifeSys.get]
    split <;> exact ⟨rfl, rfl⟩
  rw [LifeSys.step] at hs
  unfold LifeSys.advance at hs
  rcases hpc : (s.proc p).pc <;> rw [hpc] at hs hat <;> dsimp only at hs
  case emptied => exact hat.2.2.2
  case typed => exact hat.2.2
  case allocated =>
    cases hs
    rw [hget.1, hget.2] at hne
    exact absurd hne (by simp)
  all_goals
    first
    | cases hs
    | split at hs <;> cases hs
    all_goals exact absurd hne (by simp [setPc, setProc, LifeSys.put])

end

theorem inv_start (d : Dinode) : (start n d).Inv := by
  refine ⟨⟨?_, fun _ hb => Bool.noConfusion hb, fun _ _ hb => Bool.noConfusion hb⟩,
    ⟨fun l hl => ?_, fun l hl => ?_,
    nodup_nil, nodup_nil, fun _ hl => ?_, fun _ hl => ?_, fun _ => rfl⟩, fun _ => trivial,
    fun _ hr => absurd hr (Nat.lt_irrefl 0)⟩
  · show 0 = ∑ p : Fin n, 0
    rw [Finset.sum_const_zero]
  all_goals exact absurd hl not_mem_nil

end Steps

/-- **The lives of an inode number do not mix.** In every state that an interleaving reaches: no
life has been truncated twice or freed twice; `iput` goes on to free the inode only if it has no
links, on disk as in memory, and nobody else has a reference; it has no links either when it is
truncated and freed on disk; and when `ilock` returns, the copy in memory is that of the present
life, equal to the inode on disk, which is the one that `ialloc` wrote unless somebody who had it
locked has written it since. -/
theorem lives_apart {n : ℕ} {d : Dinode} {tr : List (LifeEvent n)} {s : LifeSys n}
    (hrun : run step (start n d) tr = .ok s) :
    s.truncs.Nodup ∧ s.frees.Nodup ∧
    (∀ p s', s.step (.iput p) = .ok s' → (s'.proc p).pc = .truncating →
      s.copy.nlink = 0 ∧ s.disk.nlink = 0 ∧ (s.proc p).refs = 1 ∧
        ∀ q, q ≠ p → (s.proc q).refs = 0) ∧
    (∀ p s', s.step (.next p) = .ok s' → s'.truncs ≠ s.truncs ∨ s'.frees ≠ s.frees →
      s.disk.nlink = 0) ∧
    ∀ p s', s.step (.next p) = .ok s' → (s'.proc p).pc = .locked →
      s'.copy = s'.disk ∧ s'.copyLife = s'.life ∧ s'.disk.type ≠ 0 ∧
        (s'.touched = false → s'.copy = s'.born) := by
  have h : s.Inv := run_invariant (fun _ _ _ h hs => h.step hs) (inv_start d) _ _ hrun
  refine ⟨h.lives.truncs_nodup, h.lives.frees_nodup, fun p s' hs hpc => ?_, fun p s' hs hne => ?_,
    fun p s' hs hpc => ?_⟩
  · exact h.iput_last hs hpc
  · exact h.nlink_of_freed hs hne
  · have h' := h.step hs
    have hf : s'.Fresh := by
      have := h'.pcs p
      rwa [hpc] at this
    exact ⟨hf.copy, hf.life, hf.type, fun ht => hf.copy.trans (h'.lives.untouched ht)⟩

/-- One process frees the inode. Before it clears the flags another has allocated the inode again,
and a third has found the old entry; the second then sees the new inode. -/
theorem lives_apart_reused : ∃ s : LifeSys 3, run step (start 3 { Dinode.blank 2 with size := 5 })
      [.iget 0, .ilock 0, .next 0, .next 0, .iunlock 0, .iput 0, .next 0, .next 0, .next 0, .next 0,
        .ialloc 1 1, .iget 2, .next 1, .next 0, .ilock 1, .next 1] = .ok s ∧
    s.frees = [0] ∧ s.life = 1 ∧ s.ref = 2 ∧
    ∃ s', s.step (.next 1) = .ok s' ∧ s'.copy = s'.disk ∧ s'.copy.type = 1 ∧ s'.copy.size = 0 := by
  obtain ⟨s, hs, hfrees, hlife, href, hpc, htype, htouched, hborn, hsize⟩ := exists_ok_of_check
    (P := fun s : LifeSys 3 => s.frees = [0] ∧ s.life = 1 ∧ s.ref = 2 ∧
      (s.proc 1).pc = .copied ∧ s.copy.type ≠ 0 ∧ s.touched = false ∧ s.born.type = 1 ∧
      s.born.size = 0)
    (x := run step (start 3 { Dinode.blank 2 with size := 5 })
      [.iget 0, .ilock 0, .next 0, .next 0, .iunlock 0, .iput 0, .next 0, .next 0, .next 0, .next 0,
        .ialloc 1 1, .iget 2, .next 1, .next 0, .ilock 1, .next 1]) (by decide)
  have hstep : s.step (.next 1) = .ok { s.setPc 1 .locked with valid := true } := by
    rw [step, advance, hpc]
    exact if_neg htype
  obtain ⟨h1, -, -, h2⟩ := (lives_apart hs).2.2.2.2 1 _ hstep (by rw [setPc, proc_setProc_self])
  have hcopy : s.copy = s.born := h2 htouched
  exact ⟨s, hs, hfrees, hlife, href, _, hstep, h1, hcopy ▸ hborn, hcopy ▸ hsize⟩

/-- **Another process can hold a reference while the inode is truncated and freed.** `iput` counts
the references when it sets `I_BUSY`; `iget` does not look at that flag. (The entry `..` of a
removed directory still names its parent when that is removed too.) -/
theorem freed_while_held : ∃ s s1 s2 : LifeSys 2, run step (start 2 (.blank 1))
      [.iget 0, .ilock 0, .next 0, .next 0, .iunlock 0, .iput 0, .iget 1, .next 0] = .ok s ∧
    run step s [.next 0] = .ok s1 ∧ s1.truncs = [s.life] ∧ (s.proc 1).refs = 1 ∧
    run step s1 [.next 0, .next 0] = .ok s2 ∧ s2.frees = [s.life] ∧ (s1.proc 1).refs = 1 :=
  ⟨_, _, _, rfl, rfl, rfl, rfl, rfl, rfl, rfl⟩

end LifeSys

end Xv6
