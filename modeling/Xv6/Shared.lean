import Xv6.FileWrite

/-!
# Several processes writing through one `struct file`

After `fork` or `dup` several processes share a `struct file`, and with it the offset. Each call of
`filewrite` is a sequence of chunks; a chunk, from `ilock` to `iunlock`, is one step, and the chunks
of different calls interleave in any way.

* `SharedFile` is the file system with the shared offset and the calls that are under way. It keeps
  the list of the chunks in the order in which they were written.
* `Sharing` is the invariant: what has been handed in to a process's calls is what its chunks have
  written, followed by what its call still has to write; and the file is the old one with all chunks
  written to it, one behind the other.
-/

namespace Xv6

open Function List

/-- A chunk that a process wrote, or tried to write. -/
structure Chunk where
  proc : ℕ
  bytes : List UInt8
  ok : Bool
  deriving DecidableEq

/-- A `struct file` of inode `ip` that processes share, and their calls of `filewrite`. -/
structure SharedFile where
  fs : FsState
  /-- `f->off` -/
  off : ℕ
  /-- `addr` and `i` of the call that the process is in -/
  call : ℕ → Option (List UInt8 × ℕ)
  /-- the chunks so far, in the order in which the inode was locked for them -/
  done : List Chunk

/-- What the processes do. -/
inductive WriteEvent : Type where
  /-- process `p` calls `filewrite(f, addr, n)`, where `n` is the length of `addr` -/
  | filewrite (p : ℕ) (addr : List UInt8)
  /-- one turn of the loop of `filewrite`, under the lock of the inode -/
  | chunk (p : ℕ)

namespace SharedFile

/-- One turn of the loop: a call that has written all its bytes, or fails, returns. -/
def chunk (sb : Superblock) (ip : ℕ) (s : SharedFile) (p : ℕ) (addr : List UInt8) (i : ℕ) :
    Except Stop SharedFile :=
  let n1 := if addr.length - i > Code.maxWrite then Code.maxWrite else addr.length - i
  let src := (addr.drop i).take n1
  match Prog.exec (Fs.execLog sb) (Code.writeChunk ip s.off src) s.fs with
  | .error e => .error e
  | .ok (none, fs) => .ok { s with
      fs := fs
      call := update s.call p none
      done := s.done ++ [⟨p, src, false⟩] }
  | .ok (some r, fs) =>
    if r ≠ n1 then .error (.panic "short filewrite")
    else .ok {
      fs := fs
      off := s.off + r
      call := update s.call p (if i + r < addr.length then some (addr, i + r) else none)
      done := s.done ++ [⟨p, src, true⟩] }

def step (sb : Superblock) (ip : ℕ) (s : SharedFile) : WriteEvent → Except Stop SharedFile
  | .filewrite p addr =>
    match s.call p with
    | some _ => .error .blocked
    | none =>
      if addr = [] then .ok s
      else .ok { s with call := update s.call p (some (addr, 0)) }
  | .chunk p =>
    match s.call p with
    | none => .error .blocked
    | some (addr, i) => chunk sb ip s p addr i

/-- The bytes of the chunks, one behind the other. -/
def written (l : List Chunk) : List UInt8 := l.flatMap Chunk.bytes

/-- The bytes of the chunks of process `p`. -/
def writtenBy (p : ℕ) (l : List Chunk) : List UInt8 := written (l.filter (·.proc = p))

/-- What a call still has to write. -/
def pending : Option (List UInt8 × ℕ) → List UInt8
  | none => []
  | some (addr, i) => addr.drop i

/-- What process `p` has handed in to its calls. -/
def handedIn (p : ℕ) (tr : List WriteEvent) : List UInt8 :=
  tr.flatMap fun
    | .filewrite q addr => if q = p then addr else []
    | .chunk _ => []

/-! ## Chunks -/

section

variable {sb : Superblock} {ip : ℕ}

theorem written_concat (l : List Chunk) (c : Chunk) :
    written (l ++ [c]) = written l ++ c.bytes := by
  simp [written]

theorem writtenBy_concat (p : ℕ) (l : List Chunk) (c : Chunk) :
    writtenBy p (l ++ [c]) = writtenBy p l ++ if c.proc = p then c.bytes else [] := by
  rw [writtenBy, filter_append]
  by_cases h : c.proc = p
  · simp [written, writtenBy, h]
  · simp [written, writtenBy, h]

theorem handedIn_filewrite (p q : ℕ) (tr : List WriteEvent) (addr : List UInt8) :
    handedIn p (tr ++ [.filewrite q addr]) = handedIn p tr ++ if q = p then addr else [] := by
  simp [handedIn]

theorem handedIn_chunk (p q : ℕ) (tr : List WriteEvent) :
    handedIn p (tr ++ [.chunk q]) = handedIn p tr := by
  simp [handedIn]

/-- A chunk that the file took. -/
theorem writeChunk_took (L : Layout sb) (hlog : LOGSIZE ≤ sb.nlog) {fs fs' : FsState}
    (h : Inv sb fs) (ho : FileOpen sb fs ip) {off r : ℕ} {src : List UInt8}
    (hlen : src.length ≤ Code.maxWrite)
    (hrun : Prog.exec (Fs.execLog sb) (Code.writeChunk ip off src) fs = .ok (some r, fs')) :
    r = src.length ∧ off ≤ (contents sb fs ip).length ∧ Inv sb fs' ∧ FileOpen sb fs' ip ∧
      ∀ j < sb.ninodes, nodeOf sb fs'.disk j =
        update (nodeOf sb fs.disk) ip ((nodeOf sb fs.disk ip).write off src) j := by
  rcases (writeChunk_run L hlog (rel_storeOf h) ho.store off hlen).ok hrun with
    ⟨htakes, hr, -, hrel⟩ | ⟨-, hr, -⟩
  · cases hr
    exact ⟨rfl, htakes.1, hrel.inv, (ho.store.wrote off src).file hrel,
      fun j hj => (hrel.node j hj).symm⟩
  · cases hr

end

/-! ## The invariant -/

/-- What holds after the events `tr`, as long as no write has failed. -/
structure Sharing (sb : Superblock) (ip : ℕ) (s0 : SharedFile) (tr : List WriteEvent)
    (s : SharedFile) : Prop where
  inv : Inv sb s.fs
  opened : FileOpen sb s.fs ip
  start : s.done ≠ [] → s0.off ≤ (contents sb s0.fs ip).length
  node : ∀ j < sb.ninodes, nodeOf sb s.fs.disk j = update (nodeOf sb s0.fs.disk) ip
    ((nodeOf sb s0.fs.disk ip).write s0.off (written s.done)) j
  off : s.off = s0.off + (written s.done).length
  calls : ∀ p, writtenBy p s.done ++ pending (s.call p) = handedIn p tr

section

variable {sb : Superblock} {ip : ℕ} {s0 s s' : SharedFile} {tr : List WriteEvent}

theorem Sharing.self (h : Sharing sb ip s0 tr s) : nodeOf sb s.fs.disk ip =
    (nodeOf sb s0.fs.disk ip).write s0.off (written s.done) := by
  rw [h.node ip h.opened.lt, update_self]

theorem Sharing.init (h : Inv sb s0.fs) (ho : FileOpen sb s0.fs ip) (hidle : ∀ p, s0.call p = none)
    (hdone : s0.done = []) : Sharing sb ip s0 [] s0 := by
  refine ⟨h, ho, fun hne => absurd hdone hne, fun j _ => ?_, ?_, fun p => ?_⟩
  · rw [hdone, show written [] = [] from rfl, Node.write_nil, update_eq_self]
  · rw [hdone]
    rfl
  · rw [hdone, hidle]
    rfl

variable {addr : List UInt8}

/-- A call begins. -/
theorem Sharing.filewrite (h : Sharing sb ip s0 tr s) {p : ℕ}
    (hs : step sb ip s (.filewrite p addr) = .ok s') :
    Sharing sb ip s0 (tr ++ [.filewrite p addr]) s' := by
  rw [step] at hs
  rcases hc : s.call p with _ | c
  swap
  · rw [hc] at hs
    cases hs
  rw [hc] at hs
  have hcalls := h.calls
  by_cases hnil : addr = []
  · rw [if_pos hnil] at hs
    cases hs
    refine { h with calls := fun q => ?_ }
    rw [hcalls q, handedIn_filewrite, hnil, ite_self, append_nil]
  rw [if_neg hnil] at hs
  cases hs
  refine { h with calls := fun q => ?_ }
  rw [handedIn_filewrite, ← hcalls q]
  rcases eq_or_ne p q with rfl | hne
  · simp [pending, hc]
  · simp [update_of_ne hne.symm, hne]

/-- A chunk is written. -/
theorem Sharing.chunk (L : Layout sb) (hlog : LOGSIZE ≤ sb.nlog) (h : Sharing sb ip s0 tr s) {p : ℕ}
    (hs : step sb ip s (.chunk p) = .ok s') (hok : ∀ c ∈ s'.done, c.ok = true) :
    Sharing sb ip s0 (tr ++ [.chunk p]) s' := by
  rw [step] at hs
  rcases hc : s.call p with _ | ⟨addr, i⟩
  · rw [hc] at hs
    cases hs
  rw [hc] at hs
  have hs : SharedFile.chunk sb ip s p addr i = .ok s' := hs
  rw [SharedFile.chunk] at hs
  obtain ⟨n1, hn1⟩ : ∃ n1, n1 = if addr.length - i > Code.maxWrite then Code.maxWrite
    else addr.length - i := ⟨_, rfl⟩
  simp only [← hn1] at hs
  have hlen : ((addr.drop i).take n1).length = n1 := by
    rw [length_take, length_drop]
    split at hn1 <;> omega
  have hmax : ((addr.drop i).take n1).length ≤ Code.maxWrite := by
    rw [hlen]
    split at hn1 <;> omega
  rcases hrun : Prog.exec (Fs.execLog sb) (Code.writeChunk ip s.off ((addr.drop i).take n1)) s.fs
    with e | ⟨_ | r, fs⟩
  · rw [hrun] at hs
    cases hs
  · -- the write failed
    rw [hrun] at hs
    cases hs
    exact absurd (hok ⟨p, _, false⟩ (mem_append_right _ mem_cons_self)) Bool.false_ne_true
  obtain ⟨hr, htook, hinv, hopen, hnode⟩ := writeChunk_took L hlog h.inv h.opened hmax hrun
  rw [hlen] at hr
  subst hr
  rw [hrun] at hs
  have hs : (if r ≠ r then _ else _) = Except.ok s' := hs
  rw [if_neg (not_not.mpr rfl)] at hs
  cases hs
  have hstart : s0.off ≤ (contents sb s0.fs ip).length := by
    rcases eq_or_ne s.done [] with hnil | hne
    · rw [contents, h.self, h.off, hnil, show written [] = [] from rfl, Node.write_nil] at htook
      exact htook
    · exact h.start hne
  refine ⟨hinv, hopen, fun _ => hstart, fun j hj => ?_, ?_, fun q => ?_⟩
  · rw [hnode j hj, written_concat]
    rcases eq_or_ne j ip with rfl | hne
    · rw [update_self, update_self, h.self, h.off, Node.write_write hstart]
    · rw [update_of_ne hne, update_of_ne hne, h.node j hj, update_of_ne hne]
  · show s.off + r = _
    rw [written_concat, length_append, hlen, h.off, Nat.add_assoc]
  show writtenBy q (s.done ++ [⟨p, _, true⟩]) ++ pending (update s.call p _ q) = _
  rw [writtenBy_concat, handedIn_chunk, ← h.calls q]
  rcases eq_or_ne q p with rfl | hne
  · rw [if_pos rfl, update_self, hc, append_assoc]
    congr 1
    show (addr.drop i).take r ++ pending (if i + r < addr.length then _ else _) = addr.drop i
    by_cases hmore : i + r < addr.length
    · rw [if_pos hmore]
      show (addr.drop i).take r ++ addr.drop (i + r) = addr.drop i
      rw [← drop_drop, take_append_drop]
    · rw [if_neg hmore]
      show (addr.drop i).take r ++ [] = addr.drop i
      rw [append_nil, take_of_length_le (by rw [length_drop]; omega)]
  · rw [if_neg hne.symm, update_of_ne hne, append_nil]

/-- Every step keeps the invariant, as long as no write fails. -/
theorem Sharing.step (L : Layout sb) (hlog : LOGSIZE ≤ sb.nlog) (h : Sharing sb ip s0 tr s)
    {e : WriteEvent} (hs : SharedFile.step sb ip s e = .ok s') (hok : ∀ c ∈ s'.done, c.ok = true) :
    Sharing sb ip s0 (tr ++ [e]) s' := by
  cases e with
  | filewrite p addr => exact h.filewrite hs
  | chunk p => exact h.chunk L hlog hs hok

/-- The list of chunks only grows. -/
theorem done_subset {e : WriteEvent} (hs : SharedFile.step sb ip s e = .ok s') :
    ∀ c ∈ s.done, c ∈ s'.done := by
  intro c hc
  cases e with
  | filewrite p addr =>
    rw [SharedFile.step] at hs
    split at hs
    · cases hs
    · split at hs <;> cases hs <;> exact hc
  | chunk p =>
    rw [SharedFile.step] at hs
    split at hs
    · cases hs
    rename_i addr i hcall
    have hs : SharedFile.chunk sb ip s p addr i = .ok s' := hs
    rw [SharedFile.chunk] at hs
    generalize (if addr.length - i > Code.maxWrite then Code.maxWrite else addr.length - i) = n1
      at hs
    split at hs
    · cases hs
    · cases hs
      exact mem_append_left _ hc
    · split at hs
      · cases hs
      · cases hs
        exact mem_append_left _ hc

/-- The bytes of a chunk are where it was written. -/
theorem drop_take_written {x : Node} {off : ℕ} (hoff : off ≤ x.data.length) (u v w : List UInt8) :
    (((x.write off (u ++ v ++ w)).data).drop (off + u.length)).take v.length = v := by
  have hlen : (x.data.take off ++ u).length = off + u.length := by
    rw [length_append, length_take, min_eq_left hoff]
  have hdata : (x.write off (u ++ v ++ w)).data =
      (x.data.take off ++ u) ++ (v ++ (w ++ x.data.drop (off + (u ++ v ++ w).length))) := by
    simp only [Node.write, Store.overwrite, append_assoc]
  rw [hdata, ← hlen, drop_left, take_left]

/-- **Shared descriptors lose no data.** Let any number of processes share the `struct file` of a
regular file, and let their calls of `filewrite` interleave in any way without one failing. Then the
file is the old one with the bytes of the chunks written to it from the initial offset on, one
behind the other in the order in which the inode was locked for them, and the offset is behind the
last one; each chunk's bytes are where it was written, and the chunks of a process whose calls have
returned are all that it has handed in. -/
theorem shared_writes_in_order (L : Layout sb) (hlog : LOGSIZE ≤ sb.nlog) (h : Inv sb s0.fs)
    (ho : FileOpen sb s0.fs ip) (hidle : ∀ p, s0.call p = none) (hdone : s0.done = [])
    (hrun : run (SharedFile.step sb ip) s0 tr = .ok s) (hok : ∀ c ∈ s.done, c.ok = true) :
    contents sb s.fs ip = (contents sb s0.fs ip).take s0.off ++ written s.done ++
        (contents sb s0.fs ip).drop (s0.off + (written s.done).length) ∧
      s.off = s0.off + (written s.done).length ∧
      (∀ before c after, s.done = before ++ c :: after →
        ((contents sb s.fs ip).drop (s0.off + (written before).length)).take c.bytes.length =
          c.bytes) ∧
      (∀ p, s.call p = none → writtenBy p s.done = handedIn p tr) ∧
      ∀ j < sb.ninodes, j ≠ ip → nodeOf sb s.fs.disk j = nodeOf sb s0.fs.disk j := by
  have hshare : Sharing sb ip s0 tr s := by
    refine run_history (P := fun tr s => (∀ c ∈ s.done, c.ok = true) → Sharing sb ip s0 tr s)
      (fun _ => .init h ho hidle hdone) (fun tr s s' e _ ih hs hok => ?_) tr s hrun hok
    exact (ih fun c hc => hok c (done_subset hs c hc)).step L hlog hs hok
  refine ⟨congrArg Node.data hshare.self, hshare.off, fun before c after hsplit => ?_,
    fun p hp => ?_, fun j hj hne => ?_⟩
  · have hstart := hshare.start (by rw [hsplit]; simp)
    have hwritten : written s.done = written before ++ c.bytes ++ written after := by
      rw [hsplit]
      simp [written]
    rw [contents, hshare.self, hwritten]
    exact drop_take_written hstart _ _ _
  · rw [← hshare.calls p, hp]
    exact (append_nil _).symm
  · rw [hshare.node j hj, update_of_ne hne]

/-- The blocks that the file needs do not depend on how far the writing has come. -/
theorem Sharing.usedWith_eq (h : Sharing sb ip s0 tr s) (x : Node) :
    (storeOf sb s.fs).usedWith sb ip x = (storeOf sb s0.fs).usedWith sb ip x := by
  refine used_congr fun j hj => ?_
  rcases eq_or_ne j ip with rfl | hne
  · rw [update_self, update_self]
  · rw [update_of_ne hne, update_of_ne hne]
    show (nodeOf sb s.fs.disk j).nblocks = (nodeOf sb s0.fs.disk j).nblocks
    rw [h.node j hj, update_of_ne hne]

/-- **No write fails** that the file can take and the disk has room for. -/
theorem Sharing.chunk_ok (L : Layout sb) (hlog : LOGSIZE ≤ sb.nlog) (h : Sharing sb ip s0 tr s)
    {p i m : ℕ} (hc : s.call p = some (addr, i))
    (hm : m = if addr.length - i > Code.maxWrite then Code.maxWrite else addr.length - i)
    (hstart : s0.off ≤ (contents sb s0.fs ip).length) (hmax : s.off + m ≤ MAXFILE * BSIZE)
    (hroom : Room sb s0.fs ip (s.off + m)) (h0 : Inv sb s0.fs) (ho : FileOpen sb s0.fs ip) :
    ∃ s', SharedFile.step sb ip s (.chunk p) = .ok s' ∧ s'.off = s.off + m ∧
      s'.call = update s.call p (if i + m < addr.length then some (addr, i + m) else none) ∧
      s'.done = s.done ++ [⟨p, (addr.drop i).take m, true⟩] := by
  have hlen : ((addr.drop i).take m).length = m := by
    rw [length_take, length_drop]
    split at hm <;> omega
  have hle : ((addr.drop i).take m).length ≤ Code.maxWrite := by
    rw [hlen]
    split at hm <;> omega
  have hsize : (contents sb s.fs ip).length =
      max (contents sb s0.fs ip).length (s0.off + (written s.done).length) := by
    rw [contents, h.self]
    exact Store.length_overwrite hstart
  have htakes : (storeOf sb s.fs).Takes ip s.off ((addr.drop i).take m).length := by
    refine ⟨?_, by rwa [hlen]⟩
    show s.off ≤ (contents sb s.fs ip).length
    rw [hsize, ← h.off]
    exact le_max_right _ _
  have hfits : (storeOf sb s.fs).usedWith sb ip
      (((storeOf sb s.fs).node ip).write s.off ((addr.drop i).take m)) ≤ Store.capacity sb := by
    have heq : ((storeOf sb s.fs).node ip).write s.off ((addr.drop i).take m) =
        ((storeOf sb s0.fs).node ip).write s0.off (written s.done ++ (addr.drop i).take m) := by
      show (nodeOf sb s.fs.disk ip).write s.off _ = _
      rw [h.self, h.off, Node.write_write hstart]
      rfl
    rw [h.usedWith_eq, heq, ← room_iff h0 ho.lt ho.used hstart, length_append, hlen,
      ← Nat.add_assoc, ← h.off]
    exact hroom
  have hwrite := writeChunk_run L hlog (rel_storeOf h.inv) h.opened.store s.off hle
  rcases hrun : Prog.exec (Fs.execLog sb) (Code.writeChunk ip s.off ((addr.drop i).take m)) s.fs
    with e | ⟨r, fs⟩
  · exact absurd (hwrite.error hrun).2.2 (not_lt.mpr hfits)
  rcases hwrite.ok hrun with ⟨-, rfl, -, -⟩ | ⟨hno, -⟩
  · rw [hlen] at hrun
    refine ⟨⟨fs, s.off + m,
      update s.call p (if i + m < addr.length then some (addr, i + m) else none),
      s.done ++ [⟨p, (addr.drop i).take m, true⟩]⟩, ?_, rfl, rfl, rfl⟩
    rw [SharedFile.step, hc]
    show SharedFile.chunk sb ip s p addr i = _
    rw [SharedFile.chunk]
    simp only [← hm, hrun]
    rw [if_neg (not_not.mpr rfl)]
  · exact absurd htakes hno

end

/-- An empty file that is open for writing at the start. -/
def ofEmpty : SharedFile :=
  ⟨emptyState Mkfs.sb T_FILE [2] fun _ => false, 0, fun _ => none, []⟩

/-- Two processes write to an empty file: the second one takes the lock first. -/
theorem shared_writes_two : ∃ s : SharedFile, run (SharedFile.step Mkfs.sb 2) ofEmpty
      [.filewrite 1 [65], .filewrite 2 [66, 67], .chunk 2, .chunk 1] = .ok s ∧
    s.off = 3 ∧ contents Mkfs.sb s.fs 2 = [66, 67, 65] := by
  have hlog : LOGSIZE ≤ Mkfs.sb.nlog := by decide
  have hinv : Inv Mkfs.sb ofEmpty.fs := inv_emptyState_two
  have ho : FileOpen Mkfs.sb ofEmpty.fs 2 := open_emptyState
  have hempty : contents Mkfs.sb ofEmpty.fs 2 = [] := contents_emptyState layout_mkfs _ (by decide)
  have hroom : ∀ e ≤ 71680, Room Mkfs.sb ofEmpty.fs 2 e := fun e he => room_emptyState_max.mono he
  -- both calls begin
  obtain ⟨s1, hs1⟩ : ∃ s1 : SharedFile, s1 = { ofEmpty with
      call := update ofEmpty.call 1 (some ([65], 0)) } := ⟨_, rfl⟩
  obtain ⟨s2, hs2⟩ : ∃ s2 : SharedFile, s2 = { s1 with
      call := update s1.call 2 (some ([66, 67], 0)) } := ⟨_, rfl⟩
  have h1 : SharedFile.step Mkfs.sb 2 ofEmpty (.filewrite 1 [65]) = .ok s1 := by
    rw [hs1]
    rfl
  have h2 : SharedFile.step Mkfs.sb 2 s1 (.filewrite 2 [66, 67]) = .ok s2 := by
    rw [hs2, hs1]
    rfl
  have hshare2 := ((Sharing.init hinv ho (fun _ => rfl) rfl).filewrite h1).filewrite h2
  have hoff2 : s2.off = 0 := by rw [hs2, hs1]; rfl
  have hcall2 : s2.call 2 = some ([66, 67], 0) := by rw [hs2]; rfl
  have hcall1 : s2.call 1 = some ([65], 0) := by rw [hs2, hs1]; rfl
  have hdone2 : s2.done = [] := by rw [hs2, hs1]; rfl
  -- then the chunks
  obtain ⟨s3, h3, hoff3, hcall3, hdone3⟩ := hshare2.chunk_ok (m := 2) layout_mkfs hlog hcall2
    (by decide) (Nat.zero_le _) (by rw [hoff2]; decide) (hroom _ (by rw [hoff2]; decide)) hinv ho
  rw [hoff2] at hoff3
  rw [hdone2] at hdone3
  have hshare3 := hshare2.chunk layout_mkfs hlog h3 (by rw [hdone3]; decide)
  obtain ⟨s4, h4, hoff4, -, hdone4⟩ := hshare3.chunk_ok (m := 1) (p := 1) layout_mkfs hlog
    (by rw [hcall3]; exact hcall1) (by decide) (Nat.zero_le _) (by rw [hoff3]; decide)
    (hroom _ (by rw [hoff3]; decide)) hinv ho
  rw [hdone3] at hdone4
  have hrun : run (SharedFile.step Mkfs.sb 2) ofEmpty
      [.filewrite 1 [65], .filewrite 2 [66, 67], .chunk 2, .chunk 1] = .ok s4 := by
    rw [run_cons_ok h1, run_cons_ok h2, run_cons_ok h3, run_cons_ok h4]
    rfl
  obtain ⟨hbytes, hoff, -, -, -⟩ := shared_writes_in_order layout_mkfs hlog hinv ho
    (fun _ => rfl) rfl hrun (by rw [hdone4]; decide)
  refine ⟨s4, hrun, ?_, ?_⟩
  · rw [hoff4, hoff3]
  · rw [hbytes, hempty, hdone4]
    rfl

end SharedFile

end Xv6
