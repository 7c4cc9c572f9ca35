import Xv6.Machine
import Xv6.Param
import Xv6.Ring

/-!
# The console's line discipline

`console.c`: `consoleintr` edits the line that is being typed and commits it, `consoleread` hands
out what has been committed. Both hold `cons.lock`, `consoleread` except while it sleeps, so one
event of the machine is one interrupt or one stretch of a `consoleread` between two sleeps. The
history `obs` records the characters that come in, the bytes that are stored through `dst` and the
results of the reads.

* `Editor` is what the console is for: a tail that is edited, and a stream of committed characters
  of which a first part has been delivered. It has no buffer and no indices.
* `Shows` says which editor a buffer stands for, and `Input.key_shows` and `Input.take_shows` that
  one character and one fetch keep it, **also where an index wraps around**.
* `console_lines` is the result for whole runs.
-/

namespace Xv6

open Function List

/-- `INPUT_BUF` -/
def INPUT_BUF : UInt32 := 128

theorem input_buf_dvd : INPUT_BUF.toNat ∣ 2 ^ 32 := ⟨2 ^ 25, rfl⟩

/-- `C(x)`: Control-x. -/
def C (x : UInt8) : UInt8 := x - 64

/-- `C('P')` -/
abbrev ctrlP : UInt8 := C 80

/-- `C('U')` -/
abbrev ctrlU : UInt8 := C 85

/-- `C('H')` -/
abbrev ctrlH : UInt8 := C 72

/-- `C('D')` -/
abbrev ctrlD : UInt8 := C 68

/-- `'\n'` -/
abbrev newline : UInt8 := 10

/-- `'\r'` -/
abbrev carriageReturn : UInt8 := 13

/-- `'\x7f'` -/
abbrev delete : UInt8 := 127

/-! ## The code -/

/-- `input` -/
structure Input where
  buf : ℕ → UInt8
  /-- read index -/
  r : UInt32
  /-- write index -/
  w : UInt32
  /-- edit index -/
  e : UInt32

namespace Input

/-- The loop of `C('U')`. Each pass takes one from `e - w`. -/
def killLoop : ℕ → Input → Input
  | 0, i => i
  | fuel + 1, i =>
    if i.e ≠ i.w ∧ i.buf ((i.e - 1) % INPUT_BUF).toNat ≠ newline then
      killLoop fuel { i with e := i.e - 1 }
    else i

/-- Kill line. -/
def killLine (i : Input) : Input := killLoop (i.e - i.w).toNat i

/-- The default case of the switch. -/
def insert (i : Input) (c : UInt8) : Input :=
  if c ≠ 0 ∧ i.e - i.r < INPUT_BUF then
    let c := if c = carriageReturn then newline else c
    let i := { i with buf := update i.buf (i.e % INPUT_BUF).toNat c, e := i.e + 1 }
    if c = newline ∨ c = ctrlD ∨ i.e = i.r + INPUT_BUF then { i with w := i.e } else i
  else i

/-- One pass of `consoleintr`'s loop. -/
def key (i : Input) (c : UInt8) : Input :=
  if c = ctrlP then i
  else if c = ctrlU then i.killLine
  else if c = ctrlH ∨ c = delete then
    if i.e ≠ i.w then { i with e := i.e - 1 } else i
  else i.insert c

end Input

/-- What can be seen of the console from outside. -/
inductive Obs : Type where
  /-- `getc` returns a character -/
  | key (c : UInt8)
  /-- `*dst++ = c`, in a read of process `p` -/
  | store (p : ℕ) (c : UInt8)
  /-- a read of process `p` returns `k` -/
  | ret (p : ℕ) (k : ℤ)
  deriving DecidableEq

/-- A `consoleread` that sleeps: what it has been asked for, and what is still missing. -/
structure Reading where
  target : ℕ
  n : ℕ

/-- The console and its readers. -/
structure Console where
  input : Input
  reading : ℕ → Option Reading
  obs : List Obs

/-- One stretch under `cons.lock`. -/
inductive ConsoleEvent : Type where
  /-- an interrupt; `getc` returns these characters and then a negative number -/
  | intr (cs : List UInt8)
  /-- process `p` calls `consoleread` for `n` bytes, at least one -/
  | read (p n : ℕ) (killed : Bool)
  /-- the sleep of process `p` ends -/
  | resume (p : ℕ) (killed : Bool)

namespace Console

/-- `consoleread` returns. -/
def ret (s : Console) (p : ℕ) (k : ℤ) : Console :=
  { s with
    reading := update s.reading p none
    obs := s.obs ++ [.ret p k] }

/-- One pass of `consoleintr`'s loop. -/
def key (s : Console) (c : UInt8) : Console :=
  { s with
    input := s.input.key c
    obs := s.obs ++ [.key c] }

/-- `consoleintr` -/
def consoleintr (s : Console) (cs : List UInt8) : Console := cs.foldl key s

/-- The loop of `consoleread`, up to the return or the next sleep. -/
def readLoop (p : ℕ) (killed : Bool) (target : ℕ) : ℕ → Console → Console
  | 0, s => s.ret p target
  | n + 1, s =>
    if s.input.r = s.input.w then
      if killed then s.ret p (-1)
      else { s with reading := update s.reading p (some ⟨target, n + 1⟩) }
    else
      let c := s.input.buf (s.input.r % INPUT_BUF).toNat
      let s := { s with input := { s.input with r := s.input.r + 1 } }
      if c = ctrlD then
        -- Save ^D for next time, to make sure caller gets a 0-byte result.
        let s := if n + 1 < target then { s with input := { s.input with r := s.input.r - 1 } }
          else s
        s.ret p (target - (n + 1 : ℕ))
      else
        let s := { s with obs := s.obs ++ [.store p c] }
        if c = newline then s.ret p (target - n) else readLoop p killed target n s

/-- One event. -/
def step (s : Console) : ConsoleEvent → Except Stop Console
  | .intr cs => .ok (s.consoleintr cs)
  | .read p n killed =>
    match s.reading p with
    | none => if 0 < n then .ok (s.readLoop p killed n n) else .error .blocked
    | some _ => .error .blocked
  | .resume p killed =>
    match s.reading p with
    | some c => .ok (s.readLoop p killed c.target c.n)
    | none => .error .blocked

/-- The console at boot. -/
def start : Console where
  input := ⟨fun _ => 0, 0, 0, 0⟩
  reading := fun _ => none
  obs := []

end Console

/-! ## The editor -/

/-- The reference editor. -/
structure Editor where
  /-- the characters committed so far, those of the last line included -/
  stream : List UInt8
  /-- how many of them have been read -/
  taken : ℕ
  /-- the uncommitted tail -/
  tail : List UInt8

namespace Editor

/-- The committed characters that have not been read. -/
def unread (d : Editor) : List UInt8 := d.stream.drop d.taken

/-- The committed characters that have been read. -/
def done (d : Editor) : List UInt8 := d.stream.take d.taken

/-- The tail is committed. -/
def commit (d : Editor) : Editor := { d with stream := d.stream ++ d.tail, tail := [] }

/-- A character is typed: it is dropped when `INPUT_BUF` are unread, and it commits the tail if it
ends a line or a file or fills the buffer. -/
def type (d : Editor) (c : UInt8) : Editor :=
  if d.unread.length + d.tail.length < INPUT_BUF.toNat then
    let d := { d with tail := d.tail ++ [c] }
    if c = newline ∨ c = ctrlD ∨ d.unread.length + d.tail.length = INPUT_BUF.toNat then d.commit
    else d
  else d

/-- A key that edits the line or adds to it. -/
def edit (d : Editor) (c : UInt8) : Editor :=
  if c = ctrlU then { d with tail := [] }
  else if c = ctrlH ∨ c = delete then { d with tail := d.tail.dropLast }
  else d.type (if c = carriageReturn then newline else c)

/-- A key is pressed. `C('P')` is a command to the kernel, and `0` is what `getc` returns when there
is a key but no character. -/
def key (d : Editor) (c : UInt8) : Editor := if c = ctrlP ∨ c = 0 then d else d.edit c

/-- A character of the stream is delivered. -/
def take (d : Editor) : Editor := { d with taken := d.taken + 1 }

/-- The editor sees the keys, and how much has been read. -/
def see (d : Editor) : Obs → Editor
  | .key c => d.key c
  | .store _ _ => d.take
  | .ret _ k => if k = 0 then d.take else d

/-- The editor after a history. -/
def ofObs (obs : List Obs) : Editor := obs.foldl see ⟨[], 0, []⟩

@[simp] theorem ofObs_concat (obs : List Obs) (o : Obs) :
    ofObs (obs ++ [o]) = (ofObs obs).see o := by
  simp [ofObs]

theorem type_grows (d : Editor) (c : UInt8) :
    d.stream <+: (d.type c).stream ∧ (d.type c).taken = d.taken := by
  rw [type]
  by_cases hroom : d.unread.length + d.tail.length < INPUT_BUF.toNat
  · rw [if_pos hroom]
    dsimp only
    split
    · exact ⟨prefix_append .., rfl⟩
    · exact ⟨prefix_rfl, rfl⟩
  · rw [if_neg hroom]
    exact ⟨prefix_rfl, rfl⟩

/-- Keys never take back what is committed. -/
theorem key_grows (d : Editor) (c : UInt8) :
    d.stream <+: (d.key c).stream ∧ (d.key c).taken = d.taken := by
  rw [key, edit]
  split
  · exact ⟨prefix_rfl, rfl⟩
  split
  · exact ⟨prefix_rfl, rfl⟩
  split
  · exact ⟨prefix_rfl, rfl⟩
  · exact d.type_grows _

end Editor

/-- What a program gets: bytes, and ends of file as reads of 0 bytes. -/
inductive Item : Type where
  | byte (c : UInt8)
  | eof
  deriving DecidableEq

/-- A committed character as a program gets it. -/
def Item.ofChar (c : UInt8) : Item := if c = ctrlD then .eof else .byte c

/-- What an observation delivers. -/
def Obs.item : Obs → Option Item
  | .key _ => none
  | .store _ c => some (.byte c)
  | .ret _ k => if k = 0 then some .eof else none

/-- What the reads have delivered, in order. -/
def delivered (obs : List Obs) : List Item := obs.filterMap Obs.item

/-- How many bytes process `p` has been given since its last read returned. -/
def stored (p : ℕ) (obs : List Obs) : ℕ :=
  obs.foldl (fun k o => match o with
    | .key _ => k
    | .store q _ => if q = p then k + 1 else k
    | .ret q _ => if q = p then 0 else k) 0

@[simp] theorem delivered_concat (obs : List Obs) (o : Obs) :
    delivered (obs ++ [o]) = delivered obs ++ o.item.toList := by
  cases h : o.item <;> simp [delivered, h]

@[simp] theorem stored_key (p : ℕ) (obs : List Obs) (c : UInt8) :
    stored p (obs ++ [.key c]) = stored p obs := by
  simp [stored]

@[simp] theorem stored_store (p q : ℕ) (obs : List Obs) (c : UInt8) :
    stored p (obs ++ [.store q c]) = if q = p then stored p obs + 1 else stored p obs := by
  simp [stored]

@[simp] theorem stored_ret (p q : ℕ) (obs : List Obs) (k : ℤ) :
    stored p (obs ++ [.ret q k]) = if q = p then 0 else stored p obs := by
  simp [stored]

/-! ## The buffer and the editor -/

namespace Input

/-- The indices `r` and `e` make the buffer a ring. -/
def ring (i : Input) : Ring UInt8 := ⟨i.buf, i.r, i.e⟩

end Input

/-- The buffer holds what the editor has: between `r` and `w` what is committed and not read, and
between `w` and `e` the tail. -/
structure Holds (i : Input) (d : Editor) : Prop where
  taken : d.taken ≤ d.stream.length
  read : i.r = UInt32.ofNat d.taken
  write : i.w = i.r + UInt32.ofNat d.unread.length
  room : d.unread.length + d.tail.length ≤ INPUT_BUF.toNat
  chars : i.ring.contents INPUT_BUF = d.unread ++ d.tail

namespace Holds

variable {i : Input} {d : Editor}

section

variable (h : Holds i d)

include h

theorem count : i.ring.count = d.unread.length + d.tail.length := by
  rw [← Ring.length_contents (r := i.ring), h.chars, length_append]

/-- `e`, in terms of `w` -/
theorem edit : i.e = i.w + UInt32.ofNat d.tail.length := by
  have hroom : INPUT_BUF.toNat = 128 := rfl
  have hr := h.room
  have he : i.e.toNat = (i.r.toNat + i.ring.count) % 2 ^ 32 := Ring.nwrite_eq (r := i.ring)
  rw [← UInt32.toNat_inj, h.write, he, h.count]
  simp only [UInt32.toNat_add, UInt32.toNat_ofNat']
  omega

theorem edit_eq_write : i.e = i.w ↔ d.tail = [] := by
  have hroom : INPUT_BUF.toNat = 128 := rfl
  have hr := h.room
  rw [h.edit, ← length_eq_zero_iff, ← UInt32.toNat_inj]
  simp only [UInt32.toNat_add, UInt32.toNat_ofNat']
  have := i.w.toNat_lt
  omega

theorem read_eq_write : i.r = i.w ↔ d.unread = [] := by
  have hroom : INPUT_BUF.toNat = 128 := rfl
  have hr := h.room
  rw [h.write, ← length_eq_zero_iff, ← UInt32.toNat_inj]
  simp only [UInt32.toNat_add, UInt32.toNat_ofNat']
  have := i.r.toNat_lt
  omega

/-- The test for room. -/
theorem lt_input_buf :
    i.e - i.r < INPUT_BUF ↔ d.unread.length + d.tail.length < INPUT_BUF.toNat := by
  rw [UInt32.lt_iff_toNat_lt, ← h.count]
  rfl

/-- The test for a full buffer. -/
theorem full : i.e = i.r + INPUT_BUF ↔ d.unread.length + d.tail.length = INPUT_BUF.toNat := by
  rw [← h.count]
  exact (Ring.count_eq_size (r := i.ring)).symm

/-- The distance from `r` to `w`. -/
theorem sub_read : (i.w - i.r).toNat = d.unread.length := by
  have hroom : INPUT_BUF.toNat = 128 := rfl
  have hr := h.room
  rw [h.write, UInt32.toNat_sub]
  simp only [UInt32.toNat_add, UInt32.toNat_ofNat']
  have := i.r.toNat_lt
  omega

/-- The characters between `r` and `w`. -/
theorem getElem? {j : UInt32} (hj : j < i.w - i.r) :
    d.unread[j.toNat]? = some (i.buf ((i.r + j) % INPUT_BUF).toNat) := by
  have hlt : j.toNat < d.unread.length := by
    rw [← h.sub_read]
    exact UInt32.lt_iff_toNat_lt.mp hj
  have hchars := congrArg (·[j.toNat]?) h.chars
  rw [getElem?_append_left hlt] at hchars
  rw [← hchars, Ring.contents, getElem?_map, getElem?_range (by rw [h.count]; omega)]
  rw [UInt32.toNat_mod, UInt32.toNat_add, Nat.mod_mod_of_dvd _ input_buf_dvd]
  rfl

/-- A character is added to the tail. -/
theorem push (c : UInt8) (hlt : d.unread.length + d.tail.length < INPUT_BUF.toNat) :
    Holds { i with buf := update i.buf (i.e % INPUT_BUF).toNat c, e := i.e + 1 }
      { d with tail := d.tail ++ [c] } := by
  refine ⟨h.taken, h.read, h.write, ?_, ?_⟩
  · show d.unread.length + (d.tail ++ [c]).length ≤ _
    rw [length_append, length_singleton]
    omega
  · rw [← h.count] at hlt
    have hput := Ring.contents_put (x := c) input_buf_dvd hlt
    rw [h.chars, append_assoc] at hput
    exact hput

/-- `input.w = input.e` -/
theorem commit : Holds { i with w := i.e } d.commit := by
  have hunread : d.commit.unread = d.unread ++ d.tail := drop_append_of_le_length h.taken
  have hlen : d.commit.unread.length = d.unread.length + d.tail.length := by
    rw [hunread, length_append]
  refine ⟨?_, h.read, ?_, ?_, ?_⟩
  · show d.taken ≤ (d.stream ++ d.tail).length
    rw [length_append]
    exact Nat.le_add_right_of_le h.taken
  · show i.e = i.r + _
    rw [hlen, h.edit, h.write, UInt32.ofNat_add, UInt32.add_assoc]
  · rw [hlen]
    exact h.room
  · rw [hunread]
    exact h.chars.trans (append_nil _).symm

/-- `input.r++`, when there is something to read. -/
theorem take (hne : i.r ≠ i.w) : Holds { i with r := i.r + 1 } d.take ∧
      d.unread = i.buf (i.r % INPUT_BUF).toNat :: d.take.unread := by
  have hunread : d.unread ≠ [] := fun hc => hne (h.read_eq_write.mpr hc)
  have hlen := length_pos_iff.mpr hunread
  have hpos : 0 < i.ring.count := by
    rw [h.count]
    omega
  have hsplit := Ring.contents_get input_buf_dvd hpos
  obtain ⟨c, rest, hcons⟩ := exists_cons_of_ne_nil hunread
  have hrest : d.take.unread = rest := by
    show d.stream.drop (d.taken + 1) = rest
    rw [← drop_drop, ← Editor.unread, hcons]
    rfl
  rw [h.chars, hcons, cons_append] at hsplit
  obtain ⟨hfront, hchars⟩ := List.cons.inj hsplit
  have hlen' : d.unread.length = rest.length + 1 := by rw [hcons, length_cons]
  refine ⟨⟨?_, ?_, ?_, ?_, ?_⟩, ?_⟩
  · have hd : d.unread.length = d.stream.length - d.taken := length_drop
    show d.taken + 1 ≤ d.stream.length
    omega
  · show i.r + 1 = UInt32.ofNat (d.taken + 1)
    rw [UInt32.ofNat_add, h.read]
    rfl
  · show i.w = i.r + 1 + _
    rw [hrest, h.write, hlen', Nat.add_comm, UInt32.ofNat_add, UInt32.add_assoc]
    rfl
  · have := h.room
    show d.take.unread.length + d.tail.length ≤ _
    rw [hrest]
    omega
  · rw [hrest]
    exact hchars.symm
  · rw [hrest, hcons, hfront]
    rfl

end

end Holds

/-- The buffer shows the editor: it holds what the editor has, and no line ends in the tail. -/
structure Shows (i : Input) (d : Editor) : Prop extends Holds i d where
  line : newline ∉ d.tail

namespace Shows

variable {i : Input} {d : Editor}

section

variable (h : Shows i d)

include h

/-- The last character of the tail goes. -/
theorem backspace (hne : i.e ≠ i.w) :
    Shows { i with e := i.e - 1 } { d with tail := d.tail.dropLast } ∧
      d.tail = d.tail.dropLast ++ [i.ring.last INPUT_BUF] := by
  have htail : d.tail ≠ [] := fun hc => hne (h.edit_eq_write.mpr hc)
  have hpos : 0 < i.ring.count := by
    have := length_pos_iff.mpr htail
    rw [h.count]
    omega
  have hsplit := Ring.contents_unput input_buf_dvd hpos
  rw [h.chars, ← dropLast_concat_getLast htail, ← append_assoc] at hsplit
  obtain ⟨hchars, hlast⟩ := append_inj' hsplit rfl
  refine ⟨⟨⟨h.taken, h.read, h.write, ?_, hchars.symm⟩, ?_⟩, ?_⟩
  · refine le_trans ?_ h.room
    simp [Editor.unread]
  · exact fun hc => h.line (dropLast_subset _ hc)
  · rw [← hlast]
    exact (dropLast_concat_getLast htail).symm

/-- The loop of `C('U')` ends where the tail does. -/
theorem killLoop {fuel : ℕ} (hf : d.tail.length ≤ fuel) :
    Shows (i.killLoop fuel) { d with tail := [] } := by
  induction fuel generalizing i d with
  | zero =>
    obtain htail := length_eq_zero_iff.mp (Nat.le_zero.mp hf)
    rw [Input.killLoop, ← htail]
    exact h
  | succ fuel ih =>
    rw [Input.killLoop]
    split
    case isTrue hc =>
      refine ih (d := { d with tail := d.tail.dropLast }) (h.backspace hc.1).1 ?_
      rw [length_dropLast]
      omega
    case isFalse hc =>
      -- the tail has no newline in it
      have hend : i.e = i.w := by
        by_contra hne
        have hlast := (h.backspace hne).2
        refine h.line ?_
        rw [hlast, mem_append, mem_singleton]
        refine .inr (Eq.symm ?_)
        by_contra hnl
        exact hc ⟨hne, hnl⟩
      rw [← h.edit_eq_write.mp hend]
      exact h

theorem killLine : Shows i.killLine { d with tail := [] } := by
  refine h.killLoop ?_
  have hroom : INPUT_BUF.toNat = 128 := rfl
  have hr := h.room
  rw [h.edit, UInt32.toNat_sub]
  simp only [UInt32.toNat_add, UInt32.toNat_ofNat']
  have := i.w.toNat_lt
  omega

/-- The default case of the switch. -/
theorem insert {c : UInt8} (hc : c ≠ 0) :
    Shows (i.insert c) (d.type (if c = carriageReturn then newline else c)) := by
  rw [Input.insert, Editor.type]
  by_cases hlt : d.unread.length + d.tail.length < INPUT_BUF.toNat
  · rw [if_pos ⟨hc, h.lt_input_buf.mpr hlt⟩, if_pos hlt]
    generalize (if c = carriageReturn then newline else c) = c'
    have hpush := h.push c' hlt
    simp only [hpush.full]
    split
    case isTrue hend => exact ⟨hpush.commit, by simp [Editor.commit]⟩
    case isFalse hend =>
      refine ⟨hpush, fun hmem => ?_⟩
      rcases mem_append.mp hmem with hm | hm
      · exact h.line hm
      · exact hend (.inl (mem_singleton.mp hm).symm)
  · rw [if_neg fun hc => hlt (h.lt_input_buf.mp hc.2), if_neg hlt]
    exact h

/-- **One character.** -/
theorem key (c : UInt8) : Shows (i.key c) (d.key c) := by
  rw [Input.key, Editor.key]
  by_cases hp : c = ctrlP
  · rw [if_pos hp, if_pos (.inl hp)]
    exact h
  rw [if_neg hp]
  by_cases hz : c = 0
  · subst hz
    exact h
  rw [if_neg (not_or.mpr ⟨hp, hz⟩), Editor.edit]
  split
  · exact h.killLine
  split
  · split
    case isTrue hne => exact (h.backspace hne).1
    case isFalse heq =>
      have htail := h.edit_eq_write.mp (not_not.mp heq)
      have : ({ d with tail := d.tail.dropLast } : Editor) = d := by
        rw [htail, dropLast_nil, ← htail]
      rwa [this]
  · exact h.insert hz

end

end Shows

/-! ## Runs -/

namespace Console

variable {s s' : Console} {p n target : ℕ} {killed : Bool}

/-- The invariant: the buffer shows the editor of the history, what has been delivered is a first
part of its stream, and each read knows how many bytes it has stored. -/
structure Inv (s : Console) : Prop where
  shows : Shows s.input (.ofObs s.obs)
  items : delivered s.obs = (Editor.ofObs s.obs).done.map Item.ofChar
  calls : ∀ p c, s.reading p = some c → 0 < c.target ∧ stored p s.obs + c.n = c.target
  idle : ∀ p, s.reading p = none → stored p s.obs = 0
  rets : ∀ u v p (k : ℤ), s.obs = u ++ .ret p k :: v → k = -1 ∨ k = stored p u

/-- Process `p` is inside `consoleread`. -/
def inCall (s : Console) (p target n : ℕ) : Console :=
  { s with reading := update s.reading p (some ⟨target, n⟩) }

/-- The last observation of a history, or an earlier one. -/
theorem concat_eq_append {obs u v : List Obs} {o o' : Obs} (h : obs ++ [o] = u ++ o' :: v) :
    (obs = u ∧ o = o') ∨ ∃ v', obs = u ++ o' :: v' := by
  rcases eq_nil_or_concat v with rfl | ⟨v', x, rfl⟩
  · obtain ⟨hu, ho⟩ := append_inj' h rfl
    exact .inl ⟨hu, by simpa using ho⟩
  · rw [List.concat_eq_append, ← cons_append, ← append_assoc] at h
    exact .inr ⟨v', (append_inj' h rfl).1⟩

/-- One pass of `consoleintr`'s loop. -/
theorem Inv.key (h : Inv s) (c : UInt8) : Inv (s.key c) := by
  obtain ⟨⟨x, hx⟩, htaken⟩ := (Editor.ofObs s.obs).key_grows c
  refine ⟨?_, ?_, ?_, ?_, ?_⟩
  · show Shows (s.input.key c) (.ofObs (s.obs ++ [.key c]))
    rw [Editor.ofObs_concat]
    exact h.shows.key c
  · show delivered (s.obs ++ [.key c]) = _
    rw [delivered_concat, h.items]
    show _ ++ [] = (Editor.ofObs (s.obs ++ [.key c])).done.map _
    rw [Editor.ofObs_concat, Editor.see, Editor.done, Editor.done, htaken, ← hx,
      take_append_of_le_length h.shows.taken, append_nil]
  · intro p d hd
    have := h.calls p d hd
    simpa [Console.key] using this
  · intro p hp
    have := h.idle p hp
    simpa [Console.key] using this
  · intro u v p k he
    rcases concat_eq_append he with ⟨-, hc⟩ | ⟨v', he⟩
    · cases hc
    · exact h.rets u v' p k he

theorem Inv.consoleintr (h : Inv s) (cs : List UInt8) : Inv (s.consoleintr cs) := by
  induction cs generalizing s with
  | nil => exact h
  | cons c cs ih => exact ih (h.key c)

/-- A character of the stream is delivered. -/
theorem take_delivers {i : Input} {d : Editor} (h : Holds i d) (hne : i.r ≠ i.w) :
    d.take.done = d.done ++ [i.buf (i.r % INPUT_BUF).toNat] := by
  have hcons : d.stream.drop d.taken = _ := (h.take hne).2
  show d.stream.take (d.taken + 1) = _
  rw [take_add_one, ← head?_drop, hcons]
  rfl

/-- The byte `c` is stored. -/
theorem Inv.store {c : UInt8} (h : Inv (s.inCall p target (n + 1))) (hne : s.input.r ≠ s.input.w)
    (hc : s.input.buf (s.input.r % INPUT_BUF).toNat = c) (hD : c ≠ ctrlD) :
    Inv (inCall { s with
      input := { s.input with r := s.input.r + 1 }
      obs := s.obs ++ [.store p c] } p target n) := by
  have hshows : Shows s.input (.ofObs s.obs) := h.shows
  have hitems : delivered s.obs = _ := h.items
  have hobs : Editor.ofObs (s.obs ++ [.store p c]) = (Editor.ofObs s.obs).take :=
    Editor.ofObs_concat ..
  refine ⟨?_, ?_, fun q d hd => ?_, fun q hq => ?_, fun u v q k he => ?_⟩
  · show Shows _ (.ofObs (s.obs ++ [.store p c]))
    rw [hobs]
    exact ⟨(hshows.take hne).1, hshows.line⟩
  · show delivered (s.obs ++ [.store p c]) = (Editor.ofObs (s.obs ++ [.store p c])).done.map _
    rw [hobs, delivered_concat, hitems, take_delivers hshows.toHolds hne, hc, map_append,
      map_singleton, Item.ofChar, if_neg hD]
    rfl
  · have hcall := h.calls q
    show _ ∧ stored q (s.obs ++ [.store p c]) + _ = _
    rw [stored_store]
    simp only [inCall] at hd hcall
    rcases eq_or_ne q p with rfl | hqp
    · rw [update_self] at hd hcall
      obtain rfl := Option.some.inj hd
      have := hcall _ rfl
      simp only [if_true] at this ⊢
      omega
    · rw [update_of_ne hqp] at hd hcall
      rw [if_neg hqp.symm]
      exact hcall d hd
  · have hidle := h.idle q
    show stored q (s.obs ++ [.store p c]) = 0
    rw [stored_store]
    simp only [inCall] at hq hidle
    rcases eq_or_ne q p with rfl | hqp
    · rw [update_self] at hq
      cases hq
    · rw [update_of_ne hqp] at hq hidle
      rw [if_neg hqp.symm]
      exact hidle hq
  · rcases concat_eq_append he with ⟨-, hc⟩ | ⟨v', he⟩
    · cases hc
    · exact h.rets u v' q k he

section

variable (h : Inv (s.inCall p target n))

include h

/-- The read returns. The result is `0` if a `^D` has been taken, and only then. -/
theorem Inv.ret {i : Input} {k : ℤ} (hshows : Shows i ((Editor.ofObs s.obs).see (.ret p k)))
    (hitems : delivered (s.obs ++ [.ret p k]) =
      ((Editor.ofObs s.obs).see (.ret p k)).done.map Item.ofChar)
    (hk : k = -1 ∨ k = target - n) : Inv ({ s with input := i }.ret p k) := by
  have hobs : Editor.ofObs (s.obs ++ [.ret p k]) = (Editor.ofObs s.obs).see (.ret p k) :=
    Editor.ofObs_concat ..
  refine ⟨?_, ?_, fun q d hd => ?_, fun q hq => ?_, fun u v q k' he => ?_⟩
  · show Shows i (.ofObs (s.obs ++ [.ret p k]))
    rwa [hobs]
  · show delivered (s.obs ++ [.ret p k]) = (Editor.ofObs (s.obs ++ [.ret p k])).done.map _
    rwa [hobs]
  · have hcall := h.calls q
    show _ ∧ stored q (s.obs ++ [.ret p k]) + _ = _
    rw [stored_ret]
    simp only [inCall, Console.ret] at hd hcall
    rcases eq_or_ne q p with rfl | hqp
    · rw [update_self] at hd
      cases hd
    · rw [update_of_ne hqp] at hd hcall
      rw [if_neg hqp.symm]
      exact hcall d hd
  · have hidle := h.idle q
    show stored q (s.obs ++ [.ret p k]) = 0
    rw [stored_ret]
    simp only [inCall, Console.ret] at hq hidle
    rcases eq_or_ne q p with rfl | hqp
    · exact if_pos rfl
    · rw [update_of_ne hqp] at hq hidle
      rw [if_neg hqp.symm]
      exact hidle hq
  · rcases concat_eq_append he with ⟨rfl, ho⟩ | ⟨v', he⟩
    · obtain ⟨rfl, rfl⟩ := Obs.ret.inj ho
      have hcall : _ ∧ stored p s.obs + n = target := h.calls p ⟨target, n⟩ (update_self ..)
      show k = -1 ∨ k = (stored p s.obs : ℕ)
      omega
    · exact h.rets u v' q k' he

/-- The read returns another result than `0`. -/
theorem Inv.ret_ne_zero {k : ℤ} (h0 : k ≠ 0) (hk : k = -1 ∨ k = target - n) : Inv (s.ret p k) := by
  refine h.ret (i := s.input) ?_ ?_ hk
  · rw [Editor.see, if_neg h0]
    exact h.shows
  · rw [Editor.see, if_neg h0, delivered_concat, Obs.item, if_neg h0]
    exact (append_nil _).trans h.items

/-- The loop of `consoleread`. -/
theorem Inv.readLoop : Inv (s.readLoop p killed target n) := by
  have hcall : 0 < target ∧ stored p s.obs + n = target := h.calls p ⟨target, n⟩ (update_self ..)
  induction n generalizing s with
  | zero =>
    rw [Console.readLoop]
    refine h.ret_ne_zero ?_ (.inr ?_) <;> omega
  | succ n ih =>
    rw [Console.readLoop]
    split
    case isTrue hempty =>
      split
      · exact h.ret_ne_zero (by omega) (.inl rfl)
      · exact h
    case isFalse hne =>
      have hshows : Shows s.input (.ofObs s.obs) := h.shows
      have hitems : delivered s.obs = _ := h.items
      dsimp only
      split
      case isTrue hD =>
        split
        case isTrue hlt =>
          -- the `^D` is put back
          have hback : s.input.r + 1 - 1 = s.input.r := UInt32.add_sub_cancel ..
          simp only [hback]
          refine h.ret_ne_zero ?_ (.inr rfl)
          omega
        case isFalse hge =>
          have h0 : (target : ℤ) - (n + 1 : ℕ) = 0 := by omega
          refine h.ret ?_ ?_ (.inr rfl)
          · rw [Editor.see, if_pos h0]
            exact ⟨(hshows.take hne).1, hshows.line⟩
          · rw [Editor.see, if_pos h0, delivered_concat, Obs.item, if_pos h0, hitems,
              take_delivers hshows.toHolds hne, hD, map_append]
            rfl
      case isFalse hD =>
        have hstore := h.store hne rfl hD
        have hcall' := hstore.calls p ⟨target, n⟩ (update_self ..)
        split
        · refine hstore.ret_ne_zero ?_ (.inr rfl)
          omega
        · exact ih hstore hcall'

end

variable {e : ConsoleEvent}

/-- **One step.** -/
theorem Inv.step (h : Inv s) (hs : s.step e = .ok s') : Inv s' := by
  cases e with
  | intr cs =>
    cases hs
    exact h.consoleintr cs
  | read p n killed =>
    rw [Console.step] at hs
    split at hs
    case h_1 hp =>
      split at hs
      case isTrue hn =>
        cases hs
        refine Inv.readLoop ⟨h.shows, h.items, fun q c hc => ?_, fun q hq => ?_, h.rets⟩
        · simp only [inCall] at hc ⊢
          rcases eq_or_ne q p with rfl | hqp
          · rw [update_self] at hc
            obtain rfl := Option.some.inj hc
            exact ⟨hn, by rw [h.idle q hp, Nat.zero_add]⟩
          · rw [update_of_ne hqp] at hc
            exact h.calls q c hc
        simp only [inCall] at hq ⊢
        rcases eq_or_ne q p with rfl | hqp
        · rw [update_self] at hq
          cases hq
        · rw [update_of_ne hqp] at hq
          exact h.idle q hq
      case isFalse => cases hs
    case h_2 => cases hs
  | resume p killed =>
    rw [Console.step] at hs
    split at hs
    case h_1 c hc =>
      cases hs
      refine Inv.readLoop ?_
      have : s.inCall p c.target c.n = s := by rw [inCall, update_eq_self_iff.mpr hc.symm]
      rwa [this]
    case h_2 => cases hs

theorem inv_start : Inv start := by
  refine ⟨⟨⟨by decide, by decide, by decide, by decide, by decide⟩, by decide⟩, by decide,
    fun _ _ hc => ?_, fun _ _ => rfl, fun u v p k he => ?_⟩
  · cases hc
  · have := congrArg List.length he
    simp [start] at this

/-- **Whole runs.** -/
theorem run_inv {tr : List ConsoleEvent} (hrun : run step start tr = .ok s) : Inv s :=
  run_invariant (fun _ _ _ h hs => Inv.step h hs) inv_start tr s hrun

/-! ## What one step does to the stream -/

/-- Characters are committed, or they are read. -/
def Grows (d d' : Editor) : Prop :=
  (d.stream <+: d'.stream ∧ d'.taken = d.taken) ∨ (d'.stream = d.stream ∧ d.taken ≤ d'.taken)

theorem consoleintr_grows (s : Console) (cs : List UInt8) :
    (Editor.ofObs s.obs).stream <+: (Editor.ofObs (s.consoleintr cs).obs).stream ∧
      (Editor.ofObs (s.consoleintr cs).obs).taken = (Editor.ofObs s.obs).taken := by
  induction cs generalizing s with
  | nil => exact ⟨prefix_rfl, rfl⟩
  | cons c cs ih =>
    have hkey : Editor.ofObs (s.key c).obs = (Editor.ofObs s.obs).key c := Editor.ofObs_concat ..
    obtain ⟨h1, h2⟩ := (Editor.ofObs s.obs).key_grows c
    obtain ⟨h3, h4⟩ := ih (s.key c)
    rw [hkey] at h3 h4
    exact ⟨h1.trans h3, h4.trans h2⟩

theorem ret_grows (s : Console) (p : ℕ) (k : ℤ) :
    (Editor.ofObs (s.ret p k).obs).stream = (Editor.ofObs s.obs).stream ∧
      (Editor.ofObs s.obs).taken ≤ (Editor.ofObs (s.ret p k).obs).taken := by
  have hret : Editor.ofObs (s.ret p k).obs = (Editor.ofObs s.obs).see (.ret p k) :=
    Editor.ofObs_concat ..
  rw [hret, Editor.see]
  split
  · exact ⟨rfl, Nat.le_succ _⟩
  · exact ⟨rfl, Nat.le_refl _⟩

theorem readLoop_grows (s : Console) (p : ℕ) (killed : Bool) (target n : ℕ) :
    (Editor.ofObs (s.readLoop p killed target n).obs).stream = (Editor.ofObs s.obs).stream ∧
      (Editor.ofObs s.obs).taken ≤ (Editor.ofObs (s.readLoop p killed target n).obs).taken := by
  induction n generalizing s with
  | zero => exact s.ret_grows p target
  | succ n ih =>
    rw [readLoop]
    split
    · split
      · exact s.ret_grows p _
      · exact ⟨rfl, Nat.le_refl _⟩
    dsimp only
    split
    · split
      · exact ret_grows { s with input := _ } p _
      · exact ret_grows { s with input := _ } p _
    -- the loop goes on, or returns, with one more character taken
    have hstore : ∀ c, Editor.ofObs (s.obs ++ [.store p c]) = (Editor.ofObs s.obs).take :=
      fun c => Editor.ofObs_concat ..
    split
    · obtain ⟨h1, h2⟩ := ret_grows { s with
        input := { s.input with r := s.input.r + 1 }
        obs := s.obs ++ [.store p (s.input.buf (s.input.r % INPUT_BUF).toNat)] } p (target - n)
      rw [hstore] at h1 h2
      exact ⟨h1, (Nat.le_succ _).trans h2⟩
    obtain ⟨h1, h2⟩ := ih { s with
      input := { s.input with r := s.input.r + 1 }
      obs := s.obs ++ [.store p (s.input.buf (s.input.r % INPUT_BUF).toNat)] }
    rw [hstore] at h1 h2
    exact ⟨h1, (Nat.le_succ _).trans h2⟩

theorem step_grows (hs : s.step e = .ok s') : Grows (.ofObs s.obs) (.ofObs s'.obs) := by
  cases e with
  | intr cs =>
    cases hs
    exact .inl (s.consoleintr_grows cs)
  | read p n killed =>
    rw [step] at hs
    split at hs
    · split at hs
      · cases hs
        exact .inr (s.readLoop_grows ..)
      · cases hs
    · cases hs
  | resume p killed =>
    rw [step] at hs
    split at hs
    · cases hs
      exact .inr (s.readLoop_grows ..)
    · cases hs

/-- A step leaves every character between `r` and `w` where it is, or takes it. -/
theorem step_keeps (h : Inv s) (h' : Inv s') (hs : s.step e = .ok s') :
    ∃ k, s'.input.r = s.input.r + k ∧ ∀ j, k ≤ j → j < s.input.w - s.input.r →
      j - k < s'.input.w - s'.input.r ∧
      s'.input.buf ((s.input.r + j) % INPUT_BUF).toNat =
        s.input.buf ((s.input.r + j) % INPUT_BUF).toNat := by
  generalize hd : Editor.ofObs s.obs = d
  generalize hd' : Editor.ofObs s'.obs = d'
  have hH : Holds s.input d := hd ▸ h.shows.toHolds
  have hH' : Holds s'.input d' := hd' ▸ h'.shows.toHolds
  have hgrow : Grows d d' := by
    rw [← hd, ← hd']
    exact step_grows hs
  -- what is taken was committed before
  have htaken : d.taken ≤ d'.taken ∧ d'.taken ≤ d.stream.length ∧ d.stream <+: d'.stream := by
    rcases hgrow with ⟨hp, he⟩ | ⟨hst, hle⟩
    · exact ⟨he.ge, he ▸ hH.taken, hp⟩
    · exact ⟨hle, hst ▸ hH'.taken, hst ▸ prefix_rfl⟩
  obtain ⟨hle, hmax, hpre⟩ := htaken
  have hlen : d.unread.length = d.stream.length - d.taken := length_drop
  have hlen' : d'.unread.length = d'.stream.length - d'.taken := length_drop
  have hbuf : INPUT_BUF.toNat = 128 := rfl
  have hroom := hH.room
  have hread : s'.input.r = s.input.r + UInt32.ofNat (d'.taken - d.taken) := by
    rw [hH.read, hH'.read, ← UInt32.ofNat_add, Nat.add_sub_cancel' hle]
  have hk : (UInt32.ofNat (d'.taken - d.taken)).toNat = d'.taken - d.taken := by
    rw [UInt32.toNat_ofNat']
    omega
  refine ⟨_, hread, fun j hkj hj => ?_⟩
  have hkj' := UInt32.le_iff_toNat_le.mp hkj
  have hj' := UInt32.lt_iff_toNat_lt.mp hj
  rw [hk] at hkj'
  rw [hH.sub_read] at hj'
  have hsub : (j - UInt32.ofNat (d'.taken - d.taken)).toNat = j.toNat - (d'.taken - d.taken) := by
    rw [UInt32.toNat_sub_of_le _ _ hkj, hk]
  have hpos : j - UInt32.ofNat (d'.taken - d.taken) < s'.input.w - s'.input.r := by
    rw [UInt32.lt_iff_toNat_lt, hH'.sub_read, hsub]
    have := hpre.length_le
    omega
  have hold := hH.getElem? hj
  have hnew := hH'.getElem? hpos
  rw [hsub, hread, UInt32.add_assoc, UInt32.add_comm (UInt32.ofNat _),
    UInt32.sub_add_cancel] at hnew
  refine ⟨hpos, Option.some.inj ?_⟩
  rw [← hold, ← hnew]
  simp only [Editor.unread, getElem?_drop]
  have hidx : d'.taken + (j.toNat - (d'.taken - d.taken)) = d.taken + j.toNat := by omega
  rw [hidx]
  obtain ⟨x, hx⟩ := hpre
  rw [← hx, getElem?_append_left (by omega)]

/-- **The line discipline.** In every state of every run, with `d` the editor that has seen the same
keys:

* `r ≤ w ≤ e ≤ r + INPUT_BUF`, as distances from `r`;
* the characters between `r` and `w` are those that are committed and not delivered, and no step
  changes one of them except by taking it;
* what the reads have delivered is the part of the stream that has been taken, a `^D` being a read
  of 0 bytes;
* a read returns the number of bytes it has stored, or `-1` to a process that was killed. -/
theorem console_lines {tr : List ConsoleEvent} (hrun : run step start tr = .ok s) :
    let d := Editor.ofObs s.obs
    let i := s.input
    (i.w - i.r ≤ i.e - i.r ∧ i.e - i.r ≤ INPUT_BUF) ∧
    (∀ j, j < i.w - i.r → d.unread[j.toNat]? = some (i.buf ((i.r + j) % INPUT_BUF).toNat)) ∧
    (i.w - i.r).toNat = d.unread.length ∧
    (∀ e s', s.step e = .ok s' → ∃ k, s'.input.r = i.r + k ∧ ∀ j, k ≤ j → j < i.w - i.r →
      j - k < s'.input.w - s'.input.r ∧
      s'.input.buf ((i.r + j) % INPUT_BUF).toNat = i.buf ((i.r + j) % INPUT_BUF).toNat) ∧
    delivered s.obs = d.done.map Item.ofChar ∧ d.stream = d.done ++ d.unread ∧
    ∀ u v p (k : ℤ), s.obs = u ++ .ret p k :: v → k = -1 ∨ k = stored p u := by
  have h := run_inv hrun
  have hcount : (s.input.e - s.input.r).toNat = _ := h.shows.count
  have hroom := h.shows.room
  refine ⟨⟨?_, ?_⟩, fun j hj => h.shows.getElem? hj, h.shows.sub_read,
    fun e s' hs => step_keeps h (h.step hs) hs, h.items, (take_append_drop ..).symm, h.rets⟩
  · rw [UInt32.le_iff_toNat_le, hcount, h.shows.sub_read]
    omega
  · rw [UInt32.le_iff_toNat_le, hcount]
    exact hroom

/-- `hi`, a backspace, `a` and a return are typed, then `^D`; process 7 reads twice. -/
theorem console_lines_hi : ∃ s,
    run step start [.read 7 10 false, .intr [104, 105, ctrlH], .intr [97, 13, ctrlD],
      .resume 7 false, .read 7 10 false] = .ok s ∧
    delivered s.obs = [.byte 104, .byte 97, .byte newline, .eof] ∧
    delivered s.obs = (Editor.ofObs s.obs).done.map Item.ofChar := by
  obtain ⟨s, hs, hread⟩ := exists_ok_of_check
    (P := fun s => delivered s.obs = [.byte 104, .byte 97, .byte newline, .eof])
    (x := run step start [.read 7 10 false, .intr [104, 105, ctrlH], .intr [97, 13, ctrlD],
      .resume 7 false, .read 7 10 false]) (by decide)
  exact ⟨s, hs, hread, (console_lines hs).2.2.2.2.1⟩

/-- The keys `C('P')` and `0` are not delivered, although nothing edits them out. -/
theorem console_skips :
    (∃ s, run step start [.intr [ctrlP, 97, newline], .read 0 10 false] = .ok s ∧
      delivered s.obs = [.byte 97, .byte newline] ∧
      ([ctrlP, 97, newline].foldl Editor.edit ⟨[], 0, []⟩).stream = [ctrlP, 97, newline]) ∧
    ∃ s, run step start [.intr [0, 97, newline], .read 0 10 false] = .ok s ∧
      delivered s.obs = [.byte 97, .byte newline] ∧
      ([0, 97, newline].foldl Editor.edit ⟨[], 0, []⟩).stream = [0, 97, newline] := by
  exact ⟨⟨_, rfl, by decide, by decide⟩, _, rfl, by decide, by decide⟩

end Console

end Xv6
