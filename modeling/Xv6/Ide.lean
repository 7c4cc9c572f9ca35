import Mathlib.Data.List.Nodup
import Xv6.Bcache
import Xv6.Linked

/-!
# The IDE driver

`ide.c`: callers of `iderw` append their buffers to `idequeue`, start the device if their buffer is
the first, and sleep until it is done; `ideintr` takes the first buffer off the queue, wakes its
caller and starts the device on the next. `memide.c` does the same with a copy from memory, at
once; its `iderw` is `Bcache.iderw`.

* `IdeSys.step` is the machine: any number of processes in `iderw`, the handler, and the device,
  which finishes what it was started on and then raises its interrupt;
* `arrivals` records the requests in the order in which they are queued, `completions` in the
  order in which the handler is done with them; `ticket p` is the place of `p`'s request;
* `memStep` is one request served by `memide.c`;
* `IdeSys.drivers_agree`: **the queue is in order, and the driver does what `memide.c` does** for
  the same requests in the order of completion.
-/

namespace Xv6

open Function List

def SECTOR_SIZE : ℕ := 512

/-- A command to the device: the registers `0x1f3..0x1f7`, and the data of `outsl`. -/
structure IdeCmd where
  /-- the buffer it is for, which the device does not see -/
  buf : ℕ
  /-- `IDE_CMD_WRITE` rather than `IDE_CMD_READ` -/
  write : Bool
  /-- disk 1 rather than disk 0 -/
  disk1 : Bool
  sector : ℕ
  data : Block

inductive IdeDevice : Type where
  | idle
  | busy (c : IdeCmd)
  /-- done, with its interrupt pending -/
  | finished (c : IdeCmd)

/-- The buffer that the device was started on. -/
def IdeDevice.request : IdeDevice → Option ℕ
  | idle => none
  | busy c => some c.buf
  | finished c => some c.buf

/-- Where a process is in `iderw(b)`. -/
inductive IdePc : Type where
  | idle
  /-- has passed the checks, about to acquire `idelock` -/
  | entered (b : ℕ)
  /-- looks for the end of the queue, at the slot `pp` -/
  | walk (b : ℕ) (pp : Option ℕ)
  /-- about to test the flags -/
  | test (b : ℕ)
  | sleeping (b : ℕ)
  /-- woken, about to acquire `idelock` again -/
  | woken (b : ℕ)
  /-- has returned -/
  | ret (b : ℕ)
  deriving DecidableEq, Repr

/-- The buffer that the process uses. -/
def IdePc.buf : IdePc → Option ℕ
  | idle => none
  | entered b | walk b _ | test b | sleeping b | woken b | ret b => some b

/-- The process holds `idelock`. -/
def IdePc.locked : IdePc → Bool
  | walk _ _ | test _ => true
  | _ => false

/-- The process has queued `b`. -/
def IdePc.Waits (b : ℕ) : IdePc → Prop
  | test b' | sleeping b' | woken b' | ret b' => b' = b
  | _ => False

theorem IdePc.Waits.buf {pc : IdePc} {b : ℕ} (h : pc.Waits b) : pc.buf = some b := by
  cases pc <;> first | exact absurd h id | exact congrArg some h

/-- Where the handler is. -/
inductive IntrPc : Type where
  | none
  /-- has taken `b` off the queue -/
  | copy (b : ℕ)
  /-- has set the flags of `b`, about to call `wakeup` -/
  | wake (b : ℕ)
  /-- about to start the device on the next buffer and to release `idelock` -/
  | restart
  deriving DecidableEq, Repr

inductive IdeHolder : Type where
  | proc (p : ℕ)
  | intr
  deriving DecidableEq, Repr

/-- A request: the buffer and what is in it at the call. -/
abbrev IdeReq : Type := ℕ × DiskBuf

structure IdeSys where
  buf : ℕ → DiskBuf
  /-- `b->qnext` -/
  qnext : ℕ → Option ℕ
  idequeue : Option ℕ
  havedisk1 : Bool
  idelock : Option IdeHolder
  pc : ℕ → IdePc
  intr : IntrPc
  device : IdeDevice
  /-- what `insl` reads -/
  dataRegister : Block
  disk : Bool → Disk
  /-- the process that has the buffer busy for a call of `iderw` -/
  owner : ℕ → Option ℕ
  arrivals : List IdeReq
  completions : List IdeReq
  ticket : ℕ → ℕ

/-- What happens next. -/
inductive IdeEvent : Type where
  /-- `p` calls `iderw` on the buffer `b`, which it has filled with `x` -/
  | iderw (p b : ℕ) (x : DiskBuf)
  /-- the next step of `p` in `iderw` -/
  | step (p : ℕ)
  /-- `p` goes on after `iderw` -/
  | done (p : ℕ)
  /-- the device finishes its command -/
  | finish
  /-- the interrupt is taken -/
  | ideintr
  /-- the next step of the handler -/
  | handler

/-- What the requests are like: of disk 1, and in range. -/
def DiskBuf.InRange (x : DiskBuf) : Prop := x.dev = 1 ∧ x.blockno < FSSIZE

/-- `iderw` has something to do. -/
def DiskBuf.ToDo (x : DiskBuf) : Prop := ¬(x.valid = true ∧ x.dirty = false)

instance (x : DiskBuf) : Decidable x.InRange := inferInstanceAs (Decidable (_ ∧ _))

instance (x : DiskBuf) : Decidable x.ToDo := inferInstanceAs (Decidable (¬(_ ∧ _)))

/-- The buffer after the request has been served, when the device has delivered `d`. -/
def DiskBuf.served (x : DiskBuf) (d : Block) : DiskBuf :=
  { x with data := if x.dirty then x.data else d, valid := true, dirty := false }

/-- One request served by `memide.c`. -/
def memStep (c : Bcache) (r : IdeReq) : Except Stop Bcache := (c.setBuf r.1 r.2).iderw r.1

namespace IdeSys

/-- The device has nothing to do, and disk 1 contains `d`. -/
def start (d : Disk) : IdeSys where
  buf := (Bcache.init d).buf
  qnext _ := none
  idequeue := none
  havedisk1 := true
  idelock := none
  pc _ := .idle
  intr := .none
  device := .idle
  dataRegister _ := 0
  disk disk1 := if disk1 then d else fun _ _ => 0
  owner _ := none
  arrivals := []
  completions := []
  ticket _ := 0

def setPc (s : IdeSys) (p : ℕ) (pc : IdePc) : IdeSys :=
  { s with pc := update s.pc p pc }

/-- The registers are 28 bits of the sector number and one of the disk. -/
def command (b : ℕ) (x : DiskBuf) : IdeCmd :=
  ⟨b, x.dirty, x.dev &&& 1 = 1, x.blockno * (BSIZE / SECTOR_SIZE) % 2 ^ 28, x.data⟩

def idestart (s : IdeSys) (b : ℕ) : Except Stop IdeSys :=
  if FSSIZE ≤ (s.buf b).blockno then .error (.panic "incorrect blockno")
  else if 7 < BSIZE / SECTOR_SIZE then .error (.panic "idestart")
  else
    match s.device with
    -- `idewait(0)` spins
    | .busy _ => .error .blocked
    | _ => .ok { s with device := .busy (command b (s.buf b)) }

/-- The checks at the start of `iderw`, of a caller that has `b` busy. -/
def iderw (s : IdeSys) (p b : ℕ) (x : DiskBuf) : Except Stop IdeSys :=
  if s.pc p ≠ .idle ∨ s.owner b ≠ none ∨ ¬x.InRange then .error .misuse
  else if x.busy = false then .error (.panic "iderw: buf not busy")
  else if ¬x.ToDo then .error (.panic "iderw: nothing to do")
  else if x.dev ≠ 0 ∧ s.havedisk1 = false then .error (.panic "iderw: ide disk 1 not present")
  else .ok { s.setPc p (.entered b) with
    buf := update s.buf b x
    owner := update s.owner b (some p) }

/-- `*pp = b`: the request is queued. -/
def insert (s : IdeSys) (p b : ℕ) (pp : Option ℕ) : IdeSys :=
  { s.setPc p (.test b) with
    qnext := setNext s.qnext pp (some b)
    idequeue := setHead s.idequeue pp (some b)
    arrivals := s.arrivals ++ [(b, s.buf b)]
    ticket := update s.ticket p s.arrivals.length }

/-- The rest of `iderw`. `sleep` gives `idelock` up and marks the process in one step. -/
def advance (s : IdeSys) (p : ℕ) : Except Stop IdeSys :=
  match s.pc p with
  | .entered b =>
    if s.idelock = none then
      .ok { s.setPc p (.walk b none) with
        idelock := some (.proc p)
        qnext := update s.qnext b none }
    else .error .blocked
  | .walk b pp =>
    match slotValue s.qnext s.idequeue pp with
    | some i => .ok (s.setPc p (.walk b (some i)))
    | none =>
      let s := s.insert p b pp
      if s.idequeue = some b then s.idestart b else .ok s
  | .test b =>
    if (s.buf b).ToDo then .ok { s.setPc p (.sleeping b) with idelock := none }
    else .ok { s.setPc p (.ret b) with idelock := none }
  | .woken b =>
    if s.idelock = none then .ok { s.setPc p (.test b) with idelock := some (.proc p) }
    else .error .blocked
  | _ => .error .blocked

/-- The device carries out its command. -/
def finish (s : IdeSys) : Except Stop IdeSys :=
  match s.device with
  | .busy c =>
    if c.write then
      .ok { s with
        disk := update s.disk c.disk1 (update (s.disk c.disk1) c.sector c.data)
        device := .finished c }
    else .ok { s with dataRegister := s.disk c.disk1 c.sector, device := .finished c }
  | _ => .error .blocked

/-- `ideintr` up to taking the first buffer off the queue. -/
def ideintr (s : IdeSys) : Except Stop IdeSys :=
  match s.device with
  | .finished _ =>
    if s.idelock = none then
      match s.idequeue with
      | none => .ok { s with device := .idle }
      | some b => .ok { s with
          device := .idle
          idelock := some .intr
          idequeue := s.qnext b
          intr := .copy b }
    else .error .blocked
  | _ => .error .blocked

/-- Read the data if needed, and set the flags. -/
def complete (s : IdeSys) (b : ℕ) : IdeSys :=
  { s with
    buf := update s.buf b ((s.buf b).served s.dataRegister)
    completions := s.completions ++ [(b, s.buf b)]
    intr := .wake b }

/-- `wakeup(b)` -/
def wakeup (s : IdeSys) (b : ℕ) : IdeSys :=
  { s with
    pc := fun p => if s.pc p = .sleeping b then .woken b else s.pc p
    intr := .restart }

/-- The rest of `ideintr`. -/
def handler (s : IdeSys) : Except Stop IdeSys :=
  match s.intr with
  | .none => .error .blocked
  | .copy b => .ok (s.complete b)
  | .wake b => .ok (s.wakeup b)
  | .restart =>
    let s := { s with idelock := none, intr := .none }
    match s.idequeue with
    | some b => s.idestart b
    | none => .ok s

def step (s : IdeSys) : IdeEvent → Except Stop IdeSys
  | .iderw p b x => s.iderw p b x
  | .step p => s.advance p
  | .done p =>
    match s.pc p with
    | .ret b => .ok { s.setPc p .idle with owner := update s.owner b none }
    | _ => .error .misuse
  | .finish => s.finish
  | .ideintr => s.ideintr
  | .handler => s.handler

/-! ## The invariant -/

variable {d : Disk} {s s' : IdeSys} {P : List IdeReq} {c : Bcache} {p b : ℕ}

/-- The pending requests that are in the queue. -/
def queued (s : IdeSys) (P : List IdeReq) : List IdeReq :=
  match s.intr with
  | .copy _ => P.tail
  | _ => P

/-- The request that the device has finished and the handler not yet copied. -/
def inFlight (s : IdeSys) (P : List IdeReq) : List IdeReq :=
  match s.intr, s.device with
  | .copy _, _ => P.take 1
  | _, .finished _ => P.take 1
  | _, _ => []

/-- The device works on the first of the pending requests. -/
def Serves : IdeDevice → List IdeReq → Prop
  | dev, [] => dev = .idle
  | dev, r :: _ => dev = .busy (command r.1 r.2) ∨ dev = .finished (command r.1 r.2)

structure IdeInv (d : Disk) (s : IdeSys) (P : List IdeReq) (c : Bcache) : Prop where
  split : s.arrivals = s.completions ++ P
  linked : Linked s.qnext s.idequeue ((s.queued P).map (·.1))
  copying : ∀ b, s.intr = .copy b → ∃ x P', P = (b, x) :: P'
  /-- pending requests are as they came, and each has its process -/
  pend : ∀ (j b : ℕ) (x : DiskBuf), P[j]? = some (b, x) → s.buf b = x ∧ x.InRange ∧
    x.busy = true ∧ x.ToDo ∧ ∃ p, s.owner b = some p ∧ (s.pc p).Waits b ∧
      s.ticket p = s.completions.length + j
  lockProc : ∀ p, s.idelock = some (.proc p) ↔ (s.pc p).locked = true
  lockIntr : s.idelock = some .intr ↔ s.intr ≠ .none
  owner : ∀ p b, (s.pc p).buf = some b → s.owner b = some p
  /-- a request that is still to be queued -/
  ready : ∀ p b, (s.pc p).buf = some b → ¬(s.pc p).Waits b →
    (s.buf b).InRange ∧ (s.buf b).busy = true ∧ (s.buf b).ToDo
  walk : ∀ p b pp, s.pc p = .walk b pp → s.qnext b = none ∧
    ∃ q1 q2, s.queued P = q1 ++ q2 ∧ pp = (q1.map (·.1)).getLast?
  waits : ∀ p b, (s.pc p).Waits b → (∃ x, s.arrivals[s.ticket p]? = some (b, x)) ∧
    (s.ticket p < s.completions.length → s.buf b = c.buf b ∧ ¬(s.buf b).ToDo)
  sleeps : ∀ p b, s.pc p = .sleeping b → s.ticket p < s.completions.length → s.intr = .wake b
  ret : ∀ p b, s.pc p = .ret b → s.ticket p < s.completions.length
  device : s.intr = .none → Serves s.device P
  quiet : s.intr ≠ .none → s.device = .idle
  mem : run memStep (Bcache.init d) s.completions = .ok c
  disk : ∃ c', run memStep c (s.inFlight P) = .ok c' ∧ s.disk true = c'.disk ∧
    ∀ r ∈ s.inFlight P, c'.buf r.1 = r.2.served s.dataRegister

variable {x : DiskBuf}

/-- What `memide.c` does for a request that meets its checks. -/
theorem memStep_ok (c : Bcache) (hr : x.InRange) (hb : x.busy = true) (ht : x.ToDo) :
    ∃ c', memStep c (b, x) = .ok c' ∧ c'.buf = update c.buf b (x.served (c.disk x.blockno)) ∧
      c'.disk = if x.dirty then update c.disk x.blockno x.data else c.disk := by
  have hbuf : (c.setBuf b x).buf b = x := update_self ..
  have hlt : ¬FSSIZE ≤ x.blockno := Nat.not_le.mpr hr.2
  rw [memStep, Bcache.iderw]
  dsimp only
  rw [hbuf, if_neg (by simp [hb]), if_neg ht, if_neg (by simp [hr.1]), if_neg hlt]
  cases hd : x.dirty with
  | true =>
    refine ⟨_, rfl, ?_, rfl⟩
    show update (update c.buf b x) b _ = _
    rw [update_idem]
    simp [DiskBuf.served, hd]
  | false =>
    refine ⟨_, rfl, ?_, rfl⟩
    show update (update c.buf b x) b _ = _
    rw [update_idem]
    simp [DiskBuf.served, hd, Bcache.setBuf]

variable {r : IdeReq}

namespace IdeInv

theorem length_arrivals (h : IdeInv d s P c) :
    s.arrivals.length = s.completions.length + P.length := by
  rw [h.split, length_append]

/-- The buffers of pending requests are distinct. -/
theorem nodup (h : IdeInv d s P c) : (P.map (·.1)).Nodup := by
  refine nodup_iff_getElem?_ne_getElem?.mpr fun i j hij hj hc => ?_
  rw [length_map] at hj
  obtain ⟨⟨bi, xi⟩, hi'⟩ : ∃ r, P[i]? = some r := ⟨_, getElem?_eq_getElem (hij.trans hj)⟩
  obtain ⟨⟨bj, xj⟩, hj'⟩ : ∃ r, P[j]? = some r := ⟨_, getElem?_eq_getElem hj⟩
  rw [getElem?_map, getElem?_map, hi', hj'] at hc
  obtain rfl : bi = bj := Option.some.inj hc
  obtain ⟨-, -, -, -, p, hp, -, htp⟩ := h.pend i bi xi hi'
  obtain ⟨-, -, -, -, q, hq, -, htq⟩ := h.pend j bi xj hj'
  rw [hp] at hq
  obtain rfl : p = q := Option.some.inj hq
  omega

/-- A process that has not queued its buffer yet is not in the queue. -/
theorem not_mem (h : IdeInv d s P c) (hb : (s.pc p).buf = some b) (hw : ¬(s.pc p).Waits b) :
    b ∉ P.map (·.1) := by
  intro hm
  obtain ⟨⟨b', x⟩, hr, rfl⟩ := mem_map.mp hm
  obtain ⟨j, hj⟩ := mem_iff_getElem?.mp hr
  obtain ⟨-, -, -, -, q, hq, hwait, -⟩ := h.pend j b' x hj
  rw [h.owner p b' hb] at hq
  obtain rfl : p = q := Option.some.inj hq
  exact hw hwait

theorem queued_sub (hr : r ∈ s.queued P) : r ∈ P := by
  unfold queued at hr
  split at hr
  · exact mem_of_mem_tail hr
  · exact hr

theorem intr_none (h : IdeInv d s P c) (hl : s.idelock ≠ some .intr) : s.intr = .none :=
  not_not.mp fun hne => hl (h.lockIntr.mpr hne)

theorem queued_of_none (hi : s.intr = .none) : s.queued P = P := by rw [queued, hi]

section

variable (h : IdeInv d s P c)

include h

/-- The queue while the handler is not running. -/
theorem linked_of_none (hi : s.intr = .none) : Linked s.qnext s.idequeue (P.map (·.1)) := by
  have hl := h.linked
  rwa [queued_of_none hi] at hl

/-- A process goes on in `iderw` and takes or releases `idelock`. -/
theorem move {pc' : IdePc} {l : Option IdeHolder}
    (hbuf : pc'.buf = (s.pc p).buf) (hwaits : ∀ b, pc'.Waits b ↔ (s.pc p).Waits b)
    (hwalk : ∀ b pp, pc' = .walk b pp → s.qnext b = none ∧
      ∃ q1 q2, s.queued P = q1 ++ q2 ∧ pp = (q1.map (·.1)).getLast?)
    (hsleep : ∀ b, pc' = .sleeping b → s.ticket p < s.completions.length → s.intr = .wake b)
    (hret : ∀ b, pc' = .ret b → s.ticket p < s.completions.length)
    (hlock : l = some (.proc p) ↔ pc'.locked = true)
    (hothers : ∀ x, x ≠ .proc p → (l = some x ↔ s.idelock = some x)) :
    IdeInv d { s.setPc p pc' with idelock := l } P c where
  split := h.split
  linked := h.linked
  copying := h.copying
  pend j b x hj := by
    obtain ⟨hb, hr, hbusy, ht, q, hq, hw, htk⟩ := h.pend j b x hj
    refine ⟨hb, hr, hbusy, ht, q, hq, ?_, htk⟩
    show (update s.pc p pc' q).Waits b
    rcases eq_or_ne q p with rfl | hne
    · rw [update_self]
      exact (hwaits b).mpr hw
    · rwa [update_of_ne hne]
  lockProc := (forall_update_iff s.pc fun q pc => l = some (.proc q) ↔ pc.locked = true).mpr
    ⟨hlock, fun q hq => (hothers _ fun he => hq (IdeHolder.proc.inj he)).trans (h.lockProc q)⟩
  lockIntr := (hothers .intr fun he => by cases he).trans h.lockIntr
  owner := (forall_update_iff s.pc fun q pc => ∀ b, pc.buf = some b → s.owner b = some q).mpr
    ⟨fun b hb => h.owner p b (hbuf ▸ hb), fun q _ => h.owner q⟩
  ready := (forall_update_iff s.pc fun q pc => ∀ b, pc.buf = some b → ¬pc.Waits b →
      (s.buf b).InRange ∧ (s.buf b).busy = true ∧ (s.buf b).ToDo).mpr
    ⟨fun b hb hw => h.ready p b (hbuf ▸ hb) fun hc => hw ((hwaits b).mpr hc), fun q _ => h.ready q⟩
  walk := (forall_update_iff s.pc fun q pc => ∀ b pp, pc = .walk b pp → s.qnext b = none ∧
      ∃ q1 q2, s.queued P = q1 ++ q2 ∧ pp = (q1.map (·.1)).getLast?).mpr
    ⟨hwalk, fun q _ => h.walk q⟩
  waits := (forall_update_iff s.pc fun q pc => ∀ b, pc.Waits b →
      (∃ x, s.arrivals[s.ticket q]? = some (b, x)) ∧
      (s.ticket q < s.completions.length → s.buf b = c.buf b ∧ ¬(s.buf b).ToDo)).mpr
    ⟨fun b hw => h.waits p b ((hwaits b).mp hw), fun q _ => h.waits q⟩
  sleeps := (forall_update_iff s.pc fun q pc => ∀ b, pc = .sleeping b →
      s.ticket q < s.completions.length → s.intr = .wake b).mpr ⟨hsleep, fun q _ => h.sleeps q⟩
  ret := (forall_update_iff s.pc fun q pc => ∀ b, pc = .ret b →
      s.ticket q < s.completions.length).mpr ⟨hret, fun q _ => h.ret q⟩
  device := h.device
  quiet := h.quiet
  mem := h.mem
  disk := h.disk

/-- `p` calls `iderw`. -/
theorem iderw (hs : s.iderw p b x = .ok s') : IdeInv d s' P c := by
  rw [IdeSys.iderw] at hs
  split at hs
  · cases hs
  rename_i hpre
  split at hs
  · cases hs
  rename_i hbusy
  split at hs
  · cases hs
  rename_i htodo
  split at hs
  · cases hs
  cases hs
  push Not at hpre htodo
  obtain ⟨hpc, howner, hrange⟩ := hpre
  -- nobody else uses `b`
  have hne : ∀ q b', s.owner b' = some q → b' ≠ b := by
    rintro q b' hq rfl
    rw [howner] at hq
    cases hq
  have hp : ∀ q b', (s.pc q).buf = some b' → q ≠ p := by
    rintro q b' hq rfl
    rw [hpc] at hq
    cases hq
  refine { h with
    pend := ?_, lockProc := ?_, owner := ?_, ready := ?_, walk := ?_, waits := ?_
    sleeps := ?_, ret := ?_ }
  · intro j b' x' hj
    obtain ⟨hb, hr, hbusy, ht, q, hq, hw, htk⟩ := h.pend j b' x' hj
    refine ⟨?_, hr, hbusy, ht, q, ?_, ?_, htk⟩
    · exact (update_of_ne (hne q b' hq) ..).trans hb
    · exact (update_of_ne (hne q b' hq) ..).trans hq
    · exact (congrArg (IdePc.Waits b') (update_of_ne (hp q b' hw.buf) ..)).mpr hw
  · refine (forall_update_iff s.pc fun q pc => s.idelock = some (.proc q) ↔
      pc.locked = true).mpr ⟨?_, fun q _ => h.lockProc q⟩
    rw [h.lockProc p, hpc]
    rfl
  · refine (forall_update_iff s.pc fun q pc => ∀ b', pc.buf = some b' →
      update s.owner b (some p) b' = some q).mpr ⟨?_, fun q _ b' hb' => ?_⟩
    · rintro _ ⟨⟩
      exact update_self ..
    · have hq := h.owner q b' hb'
      rwa [update_of_ne (hne q b' hq)]
  · refine (forall_update_iff s.pc fun q pc => ∀ b', pc.buf = some b' → ¬pc.Waits b' →
      (update s.buf b x b').InRange ∧ (update s.buf b x b').busy = true ∧
        (update s.buf b x b').ToDo).mpr ⟨?_, fun q _ b' hb' hw => ?_⟩
    · rintro _ ⟨⟩ -
      rw [update_self]
      exact ⟨hrange, by simpa using hbusy, htodo⟩
    · rw [update_of_ne (hne q b' (h.owner q b' hb'))]
      exact h.ready q b' hb' hw
  · refine (forall_update_iff s.pc fun q pc => ∀ b' pp, pc = .walk b' pp →
      s.qnext b' = none ∧ ∃ q1 q2, s.queued P = q1 ++ q2 ∧ pp = (q1.map (·.1)).getLast?).mpr
      ⟨nofun, fun q _ => h.walk q⟩
  · refine (forall_update_iff s.pc fun q pc => ∀ b', pc.Waits b' →
      (∃ x, s.arrivals[s.ticket q]? = some (b', x)) ∧ (s.ticket q < s.completions.length →
        update s.buf b x b' = c.buf b' ∧ ¬(update s.buf b x b').ToDo)).mpr
      ⟨fun _ hc => hc.elim, fun q _ b' hw => ?_⟩
    rw [update_of_ne (hne q b' (h.owner q b' hw.buf))]
    exact h.waits q b' hw
  · exact (forall_update_iff s.pc fun q pc => ∀ b, pc = .sleeping b →
      s.ticket q < s.completions.length → s.intr = .wake b).mpr
      ⟨nofun, fun q _ => h.sleeps q⟩
  · exact (forall_update_iff s.pc fun q pc => ∀ b, pc = .ret b →
      s.ticket q < s.completions.length).mpr ⟨nofun, fun q _ => h.ret q⟩

/-- `b->qnext = 0`, while `b` is not in the queue. -/
theorem clearNext (hb : b ∉ P.map (·.1)) :
    IdeInv d { s with qnext := update s.qnext b none } P c where
  __ := h
  linked := h.linked.congr fun b' hb' => update_of_ne (by
    rintro rfl
    obtain ⟨r, hr, rfl⟩ := mem_map.mp hb'
    exact hb (mem_map_of_mem (queued_sub hr))) ..
  walk q b' pp hq := by
    obtain ⟨hn, hw⟩ := h.walk q b' pp hq
    refine ⟨?_, hw⟩
    show update s.qnext b none b' = none
    rcases eq_or_ne b' b with rfl | hne
    · exact update_self ..
    · rwa [update_of_ne hne]

theorem enter (hpc : s.pc p = .entered b) (hl : s.idelock = none) :
    IdeInv d { s.setPc p (.walk b none) with
      idelock := some (.proc p)
      qnext := update s.qnext b none } P c := by
  have hbuf : (s.pc p).buf = some b := by rw [hpc]; rfl
  have hw : ¬(s.pc p).Waits b := by rw [hpc]; exact id
  refine (h.clearNext (h.not_mem hbuf hw)).move hbuf.symm (fun b' => ?_) ?_ nofun
    nofun (by simp [IdePc.locked]) fun x hx => ?_
  · rw [hpc]
    exact Iff.rfl
  · rintro _ _ ⟨⟩
    exact ⟨update_self .., [], _, rfl, rfl⟩
  · rw [show s.idelock = none from hl]
    simp [Ne.symm hx]

end

variable {pp : Option ℕ}

theorem walkOn {i : ℕ} (h : IdeInv d s P c) (hpc : s.pc p = .walk b pp)
    (hi : slotValue s.qnext s.idequeue pp = some i) :
    IdeInv d (s.setPc p (.walk b (some i))) P c := by
  obtain ⟨hn, q1, q2, hq, rfl⟩ := h.walk p b pp hpc
  have hl := h.linked
  rw [hq, map_append] at hl
  have hhead := hl.from_slot.head_eq
  rw [hi] at hhead
  have hlock : s.idelock = some (.proc p) := (h.lockProc p).mpr (by rw [hpc]; rfl)
  refine h.move (l := s.idelock) (by rw [hpc]; rfl) (fun b' => ?_) ?_ nofun
    nofun (by simp [IdePc.locked, hlock]) fun x _ => Iff.rfl
  · rw [hpc]
    exact Iff.rfl
  rintro _ _ ⟨⟩
  cases q2 with
  | nil => cases hhead
  | cons r q2 =>
    obtain rfl : i = r.1 := Option.some.inj hhead
    refine ⟨hn, q1 ++ [r], q2, by rw [hq]; simp, ?_⟩
    simp

/-- The walk is at the end, and the request is queued. -/
theorem insert {dev : IdeDevice} (h : IdeInv d s P c) (hpc : s.pc p = .walk b pp)
    (hend : slotValue s.qnext s.idequeue pp = none) (hdev : Serves dev (P ++ [(b, s.buf b)]))
    (hfl : { s with device := dev }.inFlight (P ++ [(b, s.buf b)]) = s.inFlight P) :
    IdeInv d { s.insert p b pp with device := dev } (P ++ [(b, s.buf b)]) c := by
  have hbuf : (s.pc p).buf = some b := by rw [hpc]; rfl
  have hnw : ¬(s.pc p).Waits b := by rw [hpc]; exact id
  have hmem := h.not_mem hbuf hnw
  have hlock : s.idelock = some (.proc p) := (h.lockProc p).mpr (by rw [hpc]; rfl)
  have hi : s.intr = .none := h.intr_none (by rw [hlock]; simp)
  obtain ⟨hn, q1, q2, hq, rfl⟩ := h.walk p b pp hpc
  have hl := h.linked_of_none hi
  rw [queued_of_none hi] at hq
  -- the walk has passed the whole queue
  obtain rfl : q2 = [] := by
    rw [hq, map_append] at hl
    have hhead := hl.from_slot.head_eq
    rw [hend] at hhead
    cases q2 with
    | nil => rfl
    | cons r q2 => cases hhead
  rw [append_nil] at hq
  subst hq
  have hself : ∀ pp, (s.insert p b pp).pc p = .test b := fun _ => update_self ..
  have hpcs : ∀ q ≠ p, ∀ pp, (s.insert p b pp).pc q = s.pc q := fun q hq _ => update_of_ne hq ..
  have hothers : ∀ q ≠ p, ∀ pp, (s.insert p b pp).ticket q = s.ticket q :=
    fun q hq _ => update_of_ne hq ..
  constructor
  case split =>
    show s.arrivals ++ _ = s.completions ++ (P ++ _)
    rw [h.split, append_assoc]
  case linked =>
    have hnodup : (P.map (·.1) ++ [b]).Nodup :=
      nodup_append.mpr ⟨h.nodup, nodup_singleton b, fun a ha a' ha' he =>
        hmem (mem_singleton.mp ha' ▸ he ▸ ha)⟩
    rw [queued_of_none (show ({ s.insert p b _ with device := dev } : IdeSys).intr = .none from hi),
      map_append]
    exact hl.append hnodup hn
  case copying =>
    intro b' hb'
    rw [show ({ s.insert p b _ with device := dev } : IdeSys).intr = s.intr from rfl, hi] at hb'
    cases hb'
  case pend =>
    intro j b' x hj
    rcases Nat.lt_or_ge j P.length with hlt | hge
    · rw [getElem?_append_left hlt] at hj
      obtain ⟨hb, hr, hbusy, ht, q, hq, hw, htk⟩ := h.pend j b' x hj
      have hqp : q ≠ p := by
        rintro rfl
        rw [hpc] at hw
        exact hw
      refine ⟨hb, hr, hbusy, ht, q, hq, ?_, ?_⟩
      · show (update s.pc p _ q).Waits b'
        rwa [update_of_ne hqp]
      · exact (hothers q hqp none).trans htk
    rw [getElem?_append_right hge] at hj
    have h0 := (List.getElem?_eq_some_iff.mp hj).1
    obtain rfl : j = P.length := by
      rw [length_singleton] at h0
      omega
    rw [Nat.sub_self] at hj
    obtain ⟨rfl, rfl⟩ : b = b' ∧ s.buf b = x := Prod.mk.inj (Option.some.inj hj)
    obtain ⟨hr, hbusy, ht⟩ := h.ready p b hbuf hnw
    refine ⟨rfl, hr, hbusy, ht, p, h.owner p b hbuf, ?_, ?_⟩
    · show (update s.pc p _ p).Waits b
      rw [update_self]
      exact rfl
    · exact (update_self ..).trans h.length_arrivals
  case lockProc =>
    refine (forall_update_iff s.pc fun q pc => s.idelock = some (.proc q) ↔
      pc.locked = true).mpr ⟨?_, fun q _ => h.lockProc q⟩
    simp [hlock, IdePc.locked]
  case lockIntr => exact h.lockIntr
  case owner =>
    exact (forall_update_iff s.pc fun q pc => ∀ b', pc.buf = some b' →
      s.owner b' = some q).mpr ⟨fun b' hb' => h.owner p b' (hbuf.trans hb'), fun q _ => h.owner q⟩
  case ready =>
    exact (forall_update_iff s.pc fun q pc => ∀ b', pc.buf = some b' → ¬pc.Waits b' →
      (s.buf b').InRange ∧ (s.buf b').busy = true ∧ (s.buf b').ToDo).mpr
      ⟨fun b' hb' hw => absurd (Option.some.inj hb') hw, fun q _ => h.ready q⟩
  case walk =>
    intro q b' pp hq
    rcases eq_or_ne q p with rfl | hqp
    · rw [hself] at hq
      cases hq
    · rw [hpcs q hqp] at hq
      have hlq := (h.lockProc q).mpr (by rw [hq]; rfl)
      rw [hlock] at hlq
      exact absurd (IdeHolder.proc.inj (Option.some.inj hlq)).symm hqp
  case waits =>
    intro q b' hw
    rcases eq_or_ne q p with rfl | hqp
    · rw [hself] at hw
      obtain rfl : b = b' := hw
      rw [show (s.insert q b _).ticket q = s.arrivals.length from update_self ..]
      refine ⟨⟨s.buf b, getElem?_concat_length ..⟩, fun hlt => ?_⟩
      rw [h.length_arrivals] at hlt
      exact absurd hlt (Nat.not_lt.mpr (Nat.le_add_right ..))
    · rw [hpcs q hqp] at hw
      rw [hothers q hqp]
      obtain ⟨⟨x, hx⟩, hdone⟩ := h.waits q b' hw
      exact ⟨⟨x, (getElem?_append_left (List.getElem?_eq_some_iff.mp hx).1).trans hx⟩, hdone⟩
  case sleeps =>
    intro q b' hq
    rcases eq_or_ne q p with rfl | hqp
    · rw [hself] at hq
      cases hq
    · rw [hpcs q hqp] at hq
      rw [hothers q hqp]
      exact h.sleeps q b' hq
  case ret =>
    intro q b' hq
    rcases eq_or_ne q p with rfl | hqp
    · rw [hself] at hq
      cases hq
    · rw [hpcs q hqp] at hq
      rw [hothers q hqp]
      exact h.ret q b' hq
  case device => exact fun _ => hdev
  case quiet => exact fun hc => absurd hi hc
  case mem => exact h.mem
  case disk =>
    rw [show ({ s.insert p b _ with device := dev } : IdeSys).inFlight _ = s.inFlight P from hfl]
    exact h.disk

/-- `idestart` of a device that is not busy. -/
theorem idestart_idle {t : IdeSys} (hr : (t.buf b).InRange) (hd : t.device = .idle) :
    t.idestart b = .ok { t with device := .busy (command b (t.buf b)) } := by
  rw [idestart, if_neg (Nat.not_le.mpr hr.2), if_neg (by decide), hd]

/-- The last slot is that of the first element only in an empty queue. -/
theorem setHead_eq {q : List ℕ} (h : Linked s.qnext s.idequeue q) (hb : b ∉ q) :
    setHead s.idequeue q.getLast? (some b) = some b ↔ q = [] := by
  cases q with
  | nil => simp [setHead]
  | cons a q =>
    have hne : a ≠ b := fun he => hb (he ▸ mem_cons_self)
    obtain ⟨l, hl⟩ : ∃ l, (a :: q).getLast? = some l := ⟨_, getLast?_eq_getLast_of_ne_nil (by simp)⟩
    simp [setHead, hl, h.1, hne]

section

variable (h : IdeInv d s P c)

include h

/-- The rest of the walk: queue the request, and start the device if it is the first. -/
theorem walkEnd (hpc : s.pc p = .walk b pp) (hend : slotValue s.qnext s.idequeue pp = none)
    (hs : (if (s.insert p b pp).idequeue = some b then (s.insert p b pp).idestart b
      else .ok (s.insert p b pp)) = .ok s') : IdeInv d s' (P ++ [(b, s.buf b)]) c := by
  have hbuf : (s.pc p).buf = some b := by rw [hpc]; rfl
  have hnw : ¬(s.pc p).Waits b := by rw [hpc]; exact id
  have hmem := h.not_mem hbuf hnw
  have hlock : s.idelock = some (.proc p) := (h.lockProc p).mpr (by rw [hpc]; rfl)
  have hi : s.intr = .none := h.intr_none (by rw [hlock]; simp)
  have hl := h.linked_of_none hi
  have hdev := h.device hi
  obtain ⟨-, q1, q2, hq, hpp⟩ := h.walk p b pp hpc
  rw [queued_of_none hi] at hq
  have hlast : pp = (P.map (·.1)).getLast? := by
    have hl' := hl
    rw [hq, map_append] at hl'
    have hhead := hl'.from_slot.head_eq
    rw [← hpp, hend] at hhead
    cases q2 with
    | nil => rw [hq, append_nil, hpp]
    | cons r q2 => cases hhead
  have hfirst : (s.insert p b pp).idequeue = some b ↔ P = [] := by
    rw [hlast]
    exact (setHead_eq hl hmem).trans map_eq_nil_iff
  split at hs
  · rename_i hc
    obtain rfl := hfirst.mp hc
    have hidle : s.device = .idle := hdev
    rw [idestart_idle (t := s.insert p b pp) (h.ready p b hbuf hnw).1 hidle] at hs
    cases hs
    refine h.insert hpc hend (.inl rfl) ?_
    simp [inFlight, hi, hidle]
  rename_i hc
  cases hs
  cases P with
  | nil => exact absurd (hfirst.mpr rfl) hc
  | cons r P =>
    have hdev' : Serves s.device (r :: P ++ [(b, s.buf b)]) := hdev
    have hfl : s.inFlight (r :: P ++ [(b, s.buf b)]) = s.inFlight (r :: P) := by
      rw [inFlight, inFlight, hi]
      split <;> rfl
    exact h.insert hpc hend hdev' hfl

/-- The flags of a request say whether it is complete. -/
theorem toDo_iff (hw : (s.pc p).Waits b) : (s.buf b).ToDo ↔ s.completions.length ≤ s.ticket p := by
  obtain ⟨⟨x, hx⟩, hdone⟩ := h.waits p b hw
  refine ⟨fun ht => Nat.le_of_not_lt fun hlt => (hdone hlt).2 ht, fun hle => ?_⟩
  rw [h.split, getElem?_append_right hle] at hx
  obtain ⟨hb, -, -, ht, -⟩ := h.pend _ b x hx
  rwa [hb]

/-- Each step of `iderw` keeps the invariant. -/
theorem advance (hs : s.advance p = .ok s') : ∃ P', IdeInv d s' P' c := by
  rw [IdeSys.advance] at hs
  rcases hpc : s.pc p with _ | b | ⟨b, pp⟩ | b | b | b | b <;> rw [hpc] at hs <;> dsimp only at hs
  case idle => cases hs
  case sleeping => cases hs
  case ret => cases hs
  case entered =>
    split at hs
    · cases hs
      exact ⟨P, h.enter hpc ‹_›⟩
    · cases hs
  case walk =>
    rcases hv : slotValue s.qnext s.idequeue pp with _ | i <;> rw [hv] at hs
    · exact ⟨_, h.walkEnd hpc hv hs⟩
    · cases hs
      exact ⟨P, h.walkOn hpc hv⟩
  case test =>
    have hw : (s.pc p).Waits b := by rw [hpc]; exact rfl
    have hlock : s.idelock = some (.proc p) := (h.lockProc p).mpr (by rw [hpc]; rfl)
    have hfree : ∀ x, x ≠ IdeHolder.proc p → (none = some x ↔ s.idelock = some x) := by
      intro x hx
      rw [hlock]
      simp [Ne.symm hx]
    split at hs <;> cases hs <;> rename_i ht <;> rw [h.toDo_iff hw] at ht
    · refine ⟨P, h.move (by rw [hpc]; rfl) (fun _ => by rw [hpc]; exact Iff.rfl) (fun _ _ hc => ?_)
        (fun _ _ hlt => absurd ht (Nat.not_le.mpr hlt)) (fun _ hc => ?_)
          (by simp [IdePc.locked]) hfree⟩
      · cases hc
      · cases hc
    · refine ⟨P, h.move (by rw [hpc]; rfl) (fun _ => by rw [hpc]; exact Iff.rfl) (fun _ _ hc => ?_)
        (fun _ hc => ?_) (fun _ _ => Nat.lt_of_not_le ht) (by simp [IdePc.locked]) hfree⟩
      · cases hc
      · cases hc
  case woken =>
    split at hs
    · rename_i hl
      cases hs
      refine ⟨P, h.move (by rw [hpc]; rfl) (fun _ => by rw [hpc]; exact Iff.rfl) (fun _ _ hc => ?_)
        (fun _ hc => ?_) (fun _ hc => ?_) (by simp [IdePc.locked]) fun x hx => ?_⟩
      · cases hc
      · cases hc
      · cases hc
      · rw [hl]
        simp [Ne.symm hx]
    · cases hs

/-- The process gives its buffer back. -/
theorem done (hpc : s.pc p = .ret b) :
    IdeInv d { s.setPc p .idle with owner := update s.owner b none } P c := by
  have hbuf : (s.pc p).buf = some b := by rw [hpc]; rfl
  have hown := h.owner p b hbuf
  have hlt := h.ret p b hpc
  have hne : ∀ q b', q ≠ p → s.owner b' = some q → b' ≠ b := by
    rintro q b' hq hb' rfl
    rw [hown] at hb'
    exact hq (Option.some.inj hb').symm
  refine { h with
    pend := ?_, lockProc := ?_, owner := ?_, ready := ?_, walk := ?_, waits := ?_
    sleeps := ?_, ret := ?_ }
  · intro j b' x hj
    obtain ⟨hb, hr, hbusy, ht, q, hq, hw, htk⟩ := h.pend j b' x hj
    have hqp : q ≠ p := by
      rintro rfl
      omega
    refine ⟨hb, hr, hbusy, ht, q, ?_, ?_, htk⟩
    · exact (update_of_ne (hne q b' hqp hq) ..).trans hq
    · show (update s.pc p _ q).Waits b'
      rwa [update_of_ne hqp]
  · refine (forall_update_iff s.pc fun q pc => s.idelock = some (.proc q) ↔
      pc.locked = true).mpr ⟨?_, fun q _ => h.lockProc q⟩
    rw [h.lockProc p, hpc]
    rfl
  · refine (forall_update_iff s.pc fun q pc => ∀ b', pc.buf = some b' →
      update s.owner b none b' = some q).mpr
      ⟨nofun, fun q hqp b' hb' => ?_⟩
    have hq := h.owner q b' hb'
    rwa [update_of_ne (hne q b' hqp hq)]
  · exact (forall_update_iff s.pc fun q pc => ∀ b', pc.buf = some b' → ¬pc.Waits b' →
      (s.buf b').InRange ∧ (s.buf b').busy = true ∧ (s.buf b').ToDo).mpr
      ⟨nofun, fun q _ => h.ready q⟩
  · exact (forall_update_iff s.pc fun q pc => ∀ b' pp, pc = .walk b' pp →
      s.qnext b' = none ∧ ∃ q1 q2, s.queued P = q1 ++ q2 ∧ pp = (q1.map (·.1)).getLast?).mpr
      ⟨nofun, fun q _ => h.walk q⟩
  · exact (forall_update_iff s.pc fun q pc => ∀ b', pc.Waits b' →
      (∃ x, s.arrivals[s.ticket q]? = some (b', x)) ∧ (s.ticket q < s.completions.length →
        s.buf b' = c.buf b' ∧ ¬(s.buf b').ToDo)).mpr ⟨fun _ hc => hc.elim, fun q _ => h.waits q⟩
  · exact (forall_update_iff s.pc fun q pc => ∀ b, pc = .sleeping b →
      s.ticket q < s.completions.length → s.intr = .wake b).mpr
      ⟨nofun, fun q _ => h.sleeps q⟩
  · exact (forall_update_iff s.pc fun q pc => ∀ b, pc = .ret b →
      s.ticket q < s.completions.length).mpr ⟨nofun, fun q _ => h.ret q⟩

/-! ### The device and the handler -/

/-- While the device is not idle, the handler is not running, and the device is at the first
pending request. -/
theorem first (hd : s.device ≠ .idle) : s.intr = .none ∧
    ∃ b x P', P = (b, x) :: P' ∧
      (s.device = .busy (command b x) ∨ s.device = .finished (command b x)) := by
  have hi : s.intr = .none := not_not.mp fun hne => hd (h.quiet hne)
  have hdev := h.device hi
  cases P with
  | nil => exact absurd hdev hd
  | cons r P => exact ⟨hi, r.1, r.2, P, rfl, hdev⟩

end

theorem command_unit (hr : x.InRange) :
    (command b x).disk1 = true ∧ (command b x).sector = x.blockno := by
  have hlt := hr.2
  rw [FSSIZE] at hlt
  refine ⟨?_, ?_⟩
  · simp only [command, hr.1]
    decide
  · have h1 : BSIZE / SECTOR_SIZE = 1 := by decide
    simp only [command, h1]
    omega

/-- The device has served the first request as `memide.c` would. -/
theorem setFinished {P' : List IdeReq} {c' : Bcache} {disk : Bool → Disk} {r : Block}
    (h : IdeInv d s ((b, x) :: P') c) (hi : s.intr = .none) (hc' : memStep c (b, x) = .ok c')
    (hdisk : disk true = c'.disk) (hbuf : c'.buf b = x.served r) :
    IdeInv d { s with disk := disk, dataRegister := r, device := .finished (command b x) }
      ((b, x) :: P') c := by
  have hfl : ({ s with
      disk := disk, dataRegister := r
      device := .finished (command b x) } : IdeSys).inFlight ((b, x) :: P') = [(b, x)] := by
    simp [inFlight, hi]
  refine { h with device := fun _ => .inr rfl, quiet := fun hne => absurd hi hne, disk := ?_ }
  rw [hfl]
  refine ⟨c', by rw [run_cons_ok hc', run_nil], hdisk, fun r' hr' => ?_⟩
  rw [mem_singleton.mp hr']
  exact hbuf

section

variable (h : IdeInv d s P c)

include h

theorem finish (hs : s.finish = .ok s') : IdeInv d s' P c := by
  rw [IdeSys.finish] at hs
  rcases hdev : s.device with _ | cmd | cmd <;> rw [hdev] at hs
  · cases hs
  · obtain ⟨hi, b, x, P', rfl, hcmd⟩ := h.first (by rw [hdev]; simp)
    rw [hdev] at hcmd
    obtain rfl : cmd = command b x := by simpa using hcmd
    obtain ⟨hb, hr, hbusy, ht, -⟩ := h.pend 0 b x rfl
    obtain ⟨hunit, hsector⟩ := command_unit (b := b) hr
    obtain ⟨c0, hc0, hdisk, -⟩ := h.disk
    rw [inFlight, hi, hdev] at hc0
    cases hc0
    obtain ⟨c', hc', hbuf', hdisk'⟩ := memStep_ok (b := b) c hr hbusy ht
    dsimp only at hs
    rw [hunit, hsector] at hs
    rw [← hdisk] at hbuf' hdisk'
    have hself : c'.buf b = x.served (s.disk true x.blockno) := by rw [hbuf', update_self]
    cases hx : x.dirty with
    | true =>
      rw [if_pos (show (command b x).write = true from hx)] at hs
      cases hs
      rw [hx, if_pos rfl] at hdisk'
      refine h.setFinished hi hc' (by rw [update_self, hdisk']; rfl) ?_
      rw [hself, DiskBuf.served, DiskBuf.served, hx, if_pos rfl, if_pos rfl]
    | false =>
      rw [if_neg (by simp [command, hx])] at hs
      cases hs
      rw [hx, if_neg (by simp)] at hdisk'
      exact h.setFinished hi hc' hdisk'.symm hself
  · cases hs

theorem ideintr (hs : s.ideintr = .ok s') : IdeInv d s' P c := by
  rw [IdeSys.ideintr] at hs
  rcases hdev : s.device with _ | cmd | cmd <;> rw [hdev] at hs
  · cases hs
  · cases hs
  obtain ⟨hi, b, x, P', rfl, -⟩ := h.first (by rw [hdev]; simp)
  have hl := h.linked_of_none hi
  dsimp only at hs
  split at hs
  · rename_i hfree
    rw [show s.idequeue = some b from hl.1] at hs
    cases hs
    have hnl : ∀ p, (s.pc p).locked ≠ true := fun p hp => by
      have := (h.lockProc p).mpr hp
      rw [hfree] at this
      cases this
    refine { h with
      linked := hl.2, copying := ?_, lockProc := fun p => ?_, lockIntr := by simp, walk := ?_
      sleeps := fun p b' hp hlt => ?_, device := ?_, quiet := fun _ => rfl, disk := ?_ }
    · rintro _ ⟨⟩
      exact ⟨x, P', rfl⟩
    · simp [hnl p]
    · intro p b' pp hp
      exact absurd (by rw [hp]; rfl) (hnl p)
    · have := h.sleeps p b' hp hlt
      rw [hi] at this
      cases this
    · intro hc
      cases hc
    · have hd := h.disk
      simp only [inFlight, hi, hdev] at hd
      exact hd
  · cases hs

/-- The handler copies the data and sets the flags: the request is complete. -/
theorem complete (hi : s.intr = .copy b) : ∃ c', IdeInv d (s.complete b) P.tail c' := by
  obtain ⟨x, P', rfl⟩ := h.copying b hi
  obtain ⟨rfl, hr, hbusy, ht, p, hp, hw, htk⟩ := h.pend 0 b x rfl
  obtain ⟨c', hc', hdisk, hbuf⟩ := h.disk
  have hfl : s.inFlight ((b, s.buf b) :: P') = [(b, s.buf b)] := by rw [inFlight, hi]; rfl
  rw [hfl] at hc' hbuf
  have hbuf := hbuf _ (mem_singleton_self _)
  obtain ⟨c1, hc1, hc'⟩ := run_cons_inv hc'
  obtain rfl : c1 = c' := Except.ok.inj hc'
  obtain ⟨c2, hc2, hbuf2, -⟩ := memStep_ok (b := b) c hr hbusy ht
  rw [hc1] at hc2
  obtain rfl : c1 = c2 := Except.ok.inj hc2
  have hother : ∀ b' ≠ b, c1.buf b' = c.buf b' := fun b' hb' => by rw [hbuf2, update_of_ne hb']
  have hself : (s.complete b).buf b = (s.buf b).served s.dataRegister := update_self ..
  have hkeep : ∀ b' ≠ b, (s.complete b).buf b' = s.buf b' := fun b' hb' => update_of_ne hb' ..
  have hlen : (s.complete b).completions.length = s.completions.length + 1 := length_append
  -- only `p` uses `b`
  have hne : ∀ q b', (s.pc q).buf = some b' → q ≠ p → b' ≠ b := by
    rintro q b' hq hqp rfl
    rw [h.owner q b' hq] at hp
    exact hqp (Option.some.inj hp)
  have hbefore : ∀ q b', (s.pc q).Waits b' → q ≠ p →
      s.ticket q < (s.complete b).completions.length → s.ticket q < s.completions.length := by
    intro q b' hw' hqp hlt
    rw [hlen] at hlt
    refine Nat.lt_of_le_of_ne (Nat.le_of_lt_succ hlt) fun he => ?_
    obtain ⟨⟨x', hx'⟩, -⟩ := h.waits q b' hw'
    rw [he, h.split, getElem?_append_right (Nat.le_refl _), Nat.sub_self] at hx'
    exact hne q b' hw'.buf hqp (Prod.mk.inj (Option.some.inj hx')).1.symm
  have hdev := h.quiet (by rw [hi]; simp)
  refine ⟨c1, ?_⟩
  constructor
  case split =>
    show s.arrivals = s.completions ++ [(b, s.buf b)] ++ P'
    rw [h.split, append_assoc]
    rfl
  case linked =>
    have hl := h.linked
    rw [queued, hi] at hl
    exact hl
  case copying => exact nofun
  case pend =>
    intro j b' x hj
    obtain ⟨hb, hr', hbusy', ht', q, hq, hw', htk'⟩ := h.pend (j + 1) b' x hj
    have hqp : q ≠ p := by
      rintro rfl
      omega
    refine ⟨?_, hr', hbusy', ht', q, hq, hw', ?_⟩
    · exact (hkeep b' (hne q b' hw'.buf hqp)).trans hb
    · rw [hlen, show (s.complete b).ticket q = s.ticket q from rfl, htk']
      omega
  case lockProc => exact h.lockProc
  case lockIntr => exact iff_of_true (h.lockIntr.mpr (by rw [hi]; simp)) nofun
  case owner => exact h.owner
  case ready =>
    intro q b' (hb' : (s.pc q).buf = some b') (hw' : ¬(s.pc q).Waits b')
    have hqp : q ≠ p := by
      rintro rfl
      obtain rfl : b = b' := Option.some.inj (hw.buf.symm.trans hb')
      exact hw' hw
    rw [hkeep b' (hne q b' hb' hqp)]
    exact h.ready q b' hb' hw'
  case walk =>
    intro q b' pp (hq : s.pc q = .walk b' pp)
    have hlq := (h.lockProc q).mpr (by rw [hq]; rfl)
    rw [h.lockIntr.mpr (by rw [hi]; simp)] at hlq
    cases hlq
  case waits =>
    intro q b' (hw' : (s.pc q).Waits b')
    obtain ⟨hx, hdone⟩ := h.waits q b' hw'
    refine ⟨hx, fun hlt => ?_⟩
    rcases eq_or_ne q p with rfl | hqp
    · obtain rfl : b = b' := Option.some.inj (hw.buf.symm.trans hw'.buf)
      rw [hself]
      exact ⟨hbuf.symm, fun hc => hc ⟨rfl, rfl⟩⟩
    · have hb' := hne q b' hw'.buf hqp
      rw [hkeep b' hb', hother b' hb']
      exact hdone (hbefore q b' hw' hqp hlt)
  case sleeps =>
    intro q b' (hq : s.pc q = .sleeping b') hlt
    have hw' : (s.pc q).Waits b' := by
      rw [hq]
      exact rfl
    rcases eq_or_ne q p with rfl | hqp
    · obtain rfl : b = b' := Option.some.inj (hw.buf.symm.trans hw'.buf)
      rfl
    · have := h.sleeps q b' hq (hbefore q b' hw' hqp hlt)
      rw [hi] at this
      cases this
  case ret =>
    intro q b' hq
    rw [hlen]
    exact Nat.lt_succ_of_lt (h.ret q b' hq)
  case device => exact nofun
  case quiet => exact fun _ => hdev
  case mem => exact run_concat_ok.mpr ⟨c, h.mem, hc1⟩
  case disk =>
    have hnone : ∀ P, (s.complete b).inFlight P = [] := fun P => by
      simp [inFlight, IdeSys.complete, hdev]
    rw [hnone]
    exact ⟨c1, rfl, hdisk, fun _ hr => by cases hr⟩

/-- `wakeup(b)`: whoever sleeps on `b` is at a point with the same buffer and no lock. -/
theorem wakeup (hi : s.intr = .wake b) : IdeInv d (s.wakeup b) P c := by
  have hpc : ∀ p, (s.wakeup b).pc p = if s.pc p = .sleeping b then .woken b else s.pc p :=
    fun _ => rfl
  have hbuf : ∀ p, ((s.wakeup b).pc p).buf = (s.pc p).buf := by
    intro p
    rw [hpc]
    split
    · rename_i hs
      rw [hs]
      rfl
    · rfl
  have hwaits : ∀ p b', ((s.wakeup b).pc p).Waits b' ↔ (s.pc p).Waits b' := by
    intro p b'
    rw [hpc]
    split
    · rename_i hs
      rw [hs]
      exact Iff.rfl
    · exact Iff.rfl
  have hsame : ∀ p (pc' : IdePc), (∀ b', pc' ≠ .woken b') → (s.wakeup b).pc p = pc' →
      s.pc p = pc' ∧ s.pc p ≠ .sleeping b := by
    intro p pc' hne hp
    rw [hpc] at hp
    split at hp
    · exact absurd hp.symm (hne b)
    · exact ⟨hp, ‹_›⟩
  have hlock : s.idelock = some .intr := h.lockIntr.mpr (by rw [hi]; simp)
  have hdev := h.quiet (by rw [hi]; simp)
  constructor
  case split => exact h.split
  case linked =>
    have hl := h.linked
    rw [queued, hi] at hl
    exact hl
  case copying => exact nofun
  case pend =>
    intro j b' x hj
    obtain ⟨hb, hr, hbusy, ht, q, hq, hw, htk⟩ := h.pend j b' x hj
    exact ⟨hb, hr, hbusy, ht, q, hq, (hwaits q b').mpr hw, htk⟩
  case lockProc =>
    intro p
    rw [show (s.wakeup b).idelock = s.idelock from rfl, h.lockProc p, hpc]
    split
    · rename_i hs
      rw [hs]
      exact Iff.rfl
    · exact Iff.rfl
  case lockIntr => exact iff_of_true hlock nofun
  case owner => exact fun p b' hb' => h.owner p b' ((hbuf p).symm.trans hb')
  case ready =>
    exact fun p b' hb' hw => h.ready p b' ((hbuf p).symm.trans hb') fun hc => hw
      ((hwaits p b').mpr hc)
  case walk =>
    intro p b' pp hp
    have hlp := (h.lockProc p).mpr (by rw [(hsame p _ (fun _ hc => by cases hc) hp).1]; rfl)
    rw [hlock] at hlp
    cases hlp
  case waits => exact fun p b' hw => h.waits p b' ((hwaits p b').mp hw)
  case sleeps =>
    intro p b' hp hlt
    obtain ⟨hp', hne⟩ := hsame p _ (fun _ hc => by cases hc) hp
    have := h.sleeps p b' hp' hlt
    rw [hi] at this
    exact absurd (IntrPc.wake.inj this ▸ hp') hne
  case ret => exact fun p b' hp => h.ret p b' (hsame p _ (fun _ hc => by cases hc) hp).1
  case device => exact nofun
  case quiet => exact fun _ => hdev
  case mem => exact h.mem
  case disk =>
    have hd := h.disk
    simp only [inFlight, hi, hdev] at hd
    simp only [inFlight, IdeSys.wakeup, hdev]
    exact hd

/-- The handler starts the device on the next request. -/
theorem restart {dev : IdeDevice} (hi : s.intr = .restart)
    (hdev : Serves dev P) (hfin : ∀ cmd, dev ≠ .finished cmd) :
    IdeInv d { s with idelock := none, intr := .none, device := dev } P c := by
  have hlock : s.idelock = some .intr := h.lockIntr.mpr (by rw [hi]; simp)
  have hnl : ∀ p, (s.pc p).locked ≠ true := fun p hp => by
    have := (h.lockProc p).mpr hp
    rw [hlock] at this
    cases this
  have hidle := h.quiet (by rw [hi]; simp)
  refine { h with
    linked := ?_, copying := fun _ hc => ?_, lockProc := fun p => ?_, lockIntr := by simp
    walk := fun p b' pp hp => ?_, sleeps := fun p b' hp hlt => ?_, device := fun _ => hdev
    quiet := fun hc => absurd rfl hc, disk := ?_ }
  · have hl := h.linked
    rw [queued, hi] at hl
    exact hl
  · cases hc
  · simp [hnl p]
  · exact absurd (by rw [hp]; rfl) (hnl p)
  · have := h.sleeps p b' hp hlt
    rw [hi] at this
    cases this
  · have hd := h.disk
    simp only [inFlight, hi, hidle] at hd
    cases dev with
    | finished cmd => exact absurd rfl (hfin cmd)
    | idle => exact hd
    | busy cmd => exact hd

/-- The last step of the handler always succeeds. -/
theorem restart_ok (hi : s.intr = .restart) :
    ∃ s', s.handler = .ok s' ∧ IdeInv d s' P c ∧ s'.idelock = none ∧ s'.arrivals = s.arrivals := by
  have hidle := h.quiet (by rw [hi]; simp)
  have hl := h.linked
  rw [queued, hi] at hl
  rw [IdeSys.handler, hi]
  dsimp only
  split <;> rename_i hq <;> rw [hl.head_eq] at hq
  · rename_i b
    obtain ⟨x, P', rfl⟩ : ∃ x P', P = (b, x) :: P' := by
      cases P with
      | nil => cases hq
      | cons r P => exact ⟨r.2, P, by rw [← Option.some.inj hq]⟩
    obtain ⟨hb, hr, -⟩ := h.pend 0 b x rfl
    rw [idestart_idle (t := { s with idelock := none, intr := .none })
      (show (s.buf b).InRange by rw [hb]; exact hr) hidle]
    have hdev : Serves (.busy (command b (s.buf b))) ((b, x) :: P') := .inl (by rw [hb])
    exact ⟨_, rfl, h.restart hi hdev (fun cmd hc => by cases hc), rfl, rfl⟩
  obtain rfl : P = [] := by simpa using hq
  have hfin : ∀ cmd, s.device ≠ .finished cmd := fun cmd => by
    rw [hidle]
    simp
  exact ⟨_, rfl, h.restart hi hidle hfin, rfl, rfl⟩

theorem handler (hs : s.handler = .ok s') : ∃ P' c', IdeInv d s' P' c' := by
  rcases hi : s.intr with _ | b | b | _
  case restart =>
    obtain ⟨t, ht, hinv, -⟩ := h.restart_ok hi
    rw [hs] at ht
    cases ht
    exact ⟨P, c, hinv⟩
  all_goals
    rw [IdeSys.handler, hi] at hs
    cases hs
  · obtain ⟨c', h'⟩ := h.complete hi
    exact ⟨P.tail, c', h'⟩
  · exact ⟨P, c, h.wakeup hi⟩

theorem step {e : IdeEvent} (hs : s.step e = .ok s') : ∃ P' c', IdeInv d s' P' c' := by
  cases e with
  | iderw p b x => exact ⟨P, c, h.iderw hs⟩
  | step p =>
    obtain ⟨P', h'⟩ := h.advance hs
    exact ⟨P', c, h'⟩
  | done p =>
    rw [IdeSys.step] at hs
    rcases hpc : s.pc p with _ | _ | _ | _ | _ | _ | b <;> rw [hpc] at hs <;> cases hs
    exact ⟨P, c, h.done hpc⟩
  | finish => exact ⟨P, c, h.finish hs⟩
  | ideintr => exact ⟨P, c, h.ideintr hs⟩
  | handler => exact h.handler hs

end

end IdeInv

theorem inv_start (d : Disk) : IdeInv d (start d) [] (Bcache.init d) := by
  constructor
  case split => rfl
  case linked => rfl
  case copying => exact nofun
  case pend => exact fun _ _ _ hj => by simp at hj
  case lockProc => exact fun _ => by simp [start, IdePc.locked]
  case lockIntr => simp [start]
  case waits => exact fun _ _ hw => hw.elim
  case device => exact fun _ => rfl
  case quiet => exact fun hc => absurd rfl hc
  case mem => rfl
  case disk => exact ⟨_, rfl, rfl, fun _ hr => by cases hr⟩
  case walk => exact nofun
  all_goals exact nofun

theorem run_inv {tr : List IdeEvent} (hrun : run step (start d) tr = .ok s) :
    ∃ P c, IdeInv d s P c :=
  run_invariant (P := fun s => ∃ P c, IdeInv d s P c) (fun _ _ _ ⟨_, _, h⟩ hs => h.step hs)
    ⟨_, _, inv_start d⟩ _ _ hrun

/-! ## Progress -/

/-- The device finishes the first request. -/
theorem finishFirst (h : IdeInv d s (r :: P) c) (hl : s.idelock = none) :
    ∃ tr s' cmd, run step s tr = .ok s' ∧ IdeInv d s' (r :: P) c ∧ s'.idelock = none ∧
      s'.device = .finished cmd ∧ s'.arrivals = s.arrivals := by
  rcases h.device (h.intr_none (by rw [hl]; simp)) with hdev | hdev
  · obtain ⟨s', hs, hl', hdev', harr⟩ : ∃ s', s.finish = .ok s' ∧ s'.idelock = none ∧
        s'.device = .finished (command r.1 r.2) ∧ s'.arrivals = s.arrivals := by
      rw [finish, hdev]
      dsimp only
      split <;> exact ⟨_, rfl, hl, rfl, rfl⟩
    exact ⟨[.finish], s', _, run_cons_ok hs, h.finish hs, hl', hdev', harr⟩
  · exact ⟨[], s, _, rfl, h, hl, hdev, rfl⟩

/-- The first request is completed by the device and the handler alone. -/
theorem serveFirst (h : IdeInv d s (r :: P) c) (hl : s.idelock = none) :
    ∃ tr s' c', run step s tr = .ok s' ∧ IdeInv d s' P c' ∧ s'.idelock = none ∧
      s'.arrivals = s.arrivals := by
  obtain ⟨tr, s1, cmd, hrun, h1, hl1, hdev, harr⟩ := finishFirst h hl
  have hq := (h1.linked_of_none (h1.intr_none (by rw [hl1]; simp))).1
  obtain ⟨s2, hs2, hi2, harr2⟩ : ∃ s2, s1.ideintr = .ok s2 ∧ s2.intr = .copy r.1 ∧
      s2.arrivals = s1.arrivals := by
    rw [ideintr, hdev]
    dsimp only
    rw [if_pos hl1, hq]
    exact ⟨_, rfl, rfl, rfl⟩
  obtain ⟨c', h3⟩ := (h1.ideintr hs2).complete hi2
  obtain ⟨s', hs', h', hl', harr'⟩ := (h3.wakeup rfl).restart_ok rfl
  have hs3 : s2.handler = .ok (s2.complete r.1) := by rw [handler, hi2]
  have hs4 : (s2.complete r.1).handler = .ok ((s2.complete r.1).wakeup r.1) := rfl
  refine ⟨tr ++ [.ideintr, .handler, .handler, .handler], s', c', run_append_ok.mpr ⟨s1, hrun, ?_⟩,
    h', hl', harr'.trans (harr2.trans harr)⟩
  rw [run_cons_ok hs2, run_cons_ok hs3, run_cons_ok hs4, run_cons_ok hs', run_nil]

/-- Whenever `idelock` is free, the device and the handler can complete all that has arrived. -/
theorem serveAll : ∀ (P : List IdeReq) (s : IdeSys) (c : Bcache), IdeInv d s P c →
    s.idelock = none → ∃ tr s', run step s tr = .ok s' ∧ s'.completions = s.arrivals := by
  intro P
  induction P with
  | nil =>
    intro s c h _
    exact ⟨[], s, rfl, by rw [h.split, append_nil]⟩
  | cons r P ih =>
    intro s c h hl
    obtain ⟨tr, s1, c1, hrun, h1, hl1, harr⟩ := serveFirst h hl
    obtain ⟨tr', s2, hrun', hall⟩ := ih s1 c1 h1 hl1
    exact ⟨tr ++ tr', s2, run_append_ok.mpr ⟨s1, hrun, hrun'⟩, hall.trans harr⟩

/-- **The two drivers agree.** In every state that calls of `iderw` for disk 1 and interrupts can
lead to, in any order: the queue contains no buffer twice, and while `idelock` is free its head is
what the device was started on; requests complete in the order of their arrival, each once, and
those that have not completed are the handler's and the queue's; nobody sleeps on a buffer that is
valid and not dirty while `idelock` is free; `memide.c` serves the completed requests in the same
order, with the same buffers on return and the same disk; and nothing keeps the requests from
completing. -/
theorem drivers_agree {tr : List IdeEvent} (hrun : run step (start d) tr = .ok s) :
    (∃ q, Linked s.qnext s.idequeue q ∧ q.Nodup ∧ (s.idelock = none → s.device.request = q.head?) ∧
      ∃ P, s.arrivals = s.completions ++ P ∧ q = (s.queued P).map (·.1)) ∧
    (s.idelock = none → ∀ p b, s.pc p = .sleeping b → (s.buf b).ToDo) ∧
    (∃ c, run memStep (Bcache.init d) s.completions = .ok c ∧
      ∀ p b, s.pc p = .ret b → s.buf b = c.buf b ∧ s.ticket p < s.completions.length ∧
        ∃ x, s.arrivals[s.ticket p]? = some (b, x)) ∧
    (∃ c, run memStep (Bcache.init d)
        (s.completions ++ s.inFlight (s.arrivals.drop s.completions.length)) = .ok c ∧
      s.disk true = c.disk) ∧
    (s.idelock = none → ∃ tr' s', run step s tr' = .ok s' ∧ s'.completions = s.arrivals) := by
  obtain ⟨P, c, h⟩ := run_inv hrun
  have hdrop : s.arrivals.drop s.completions.length = P := by rw [h.split, drop_left]
  refine ⟨⟨_, h.linked, ?_, fun hl => ?_, P, h.split, rfl⟩, fun hl p b hp => ?_,
    ⟨c, h.mem, fun p b hp => ?_⟩, ?_, serveAll P s c h⟩
  · rw [queued]
    split
    · rw [map_tail]
      exact h.nodup.sublist (tail_sublist _)
    · exact h.nodup
  · have hi := h.intr_none (by rw [hl]; simp)
    have hdev := h.device hi
    rw [queued, hi]
    cases P with
    | nil =>
      rw [show s.device = .idle from hdev]
      rfl
    | cons r P => rcases hdev with hdev | hdev <;> rw [hdev] <;> rfl
  · have hi := h.intr_none (by rw [hl]; simp)
    have hw : (s.pc p).Waits b := by
      rw [hp]
      exact rfl
    rw [h.toDo_iff hw]
    refine Nat.le_of_not_lt fun hlt => ?_
    have := h.sleeps p b hp hlt
    rw [hi] at this
    cases this
  · have hw : (s.pc p).Waits b := by
      rw [hp]
      exact rfl
    obtain ⟨hx, hdone⟩ := h.waits p b hw
    have hlt := h.ret p b hp
    exact ⟨(hdone hlt).1, hlt, hx⟩
  · obtain ⟨c', hc', hdisk, -⟩ := h.disk
    rw [hdrop]
    exact ⟨c', run_append_ok.mpr ⟨c, h.mem, hc'⟩, hdisk⟩

/-- A write of block 5, and a read of the same block that arrives while the write is on: the
reader sleeps, is woken when its own request is done, and finds what was written. -/
theorem drivers_agree_read_after_write : ∃ s : IdeSys,
    run step (start fun _ _ => 0) [.iderw 0 3 ⟨true, true, true, 1, 5, fun _ => 9⟩, .step 0,
      .step 0, .iderw 1 4 ⟨true, false, false, 1, 5, fun _ => 0⟩, .step 0, .step 1, .step 1,
      .step 1, .finish, .step 1, .ideintr, .handler, .handler, .handler, .finish, .ideintr,
      .handler, .handler, .handler, .step 1, .step 1] = .ok s ∧
    s.pc 1 = .ret 4 ∧ (s.buf 4).data 7 = 9 ∧ s.completions.map (·.1) = [3, 4] ∧
    s.idequeue = none ∧ (s.idelock = none → ∀ p b, s.pc p = .sleeping b → (s.buf b).ToDo) := by
  obtain ⟨s, hs, h1, h2, h3, h4⟩ := exists_ok_of_check (P := fun s : IdeSys => s.pc 1 = .ret 4 ∧
      (s.buf 4).data 7 = 9 ∧ s.completions.map (·.1) = [3, 4] ∧ s.idequeue = none)
    (x := run step (start fun _ _ => 0) [.iderw 0 3 ⟨true, true, true, 1, 5, fun _ => 9⟩, .step 0,
      .step 0, .iderw 1 4 ⟨true, false, false, 1, 5, fun _ => 0⟩, .step 0, .step 1, .step 1,
      .step 1, .finish, .step 1, .ideintr, .handler, .handler, .handler, .finish, .ideintr,
      .handler, .handler, .handler, .step 1, .step 1]) (by decide)
  exact ⟨s, hs, h1, h2, h3, h4, (drivers_agree hs).2.1⟩

end IdeSys

end Xv6
