import Xv6.FileBytes

/-!
# `filewrite`: a write in transactions

`filewrite` cuts a write into chunks of at most `maxWrite` bytes, each in a transaction of its own
and with the inode locked for it alone. The offset in the `struct file` is read and advanced under
that lock.

* `File.filewrite` is the function with its result and the `struct file`.
* `loop_spec` says what the loop has done when it ends: it has written a piece from the start of the
  buffer, all of it unless the next chunk does not fit into the file.
-/

namespace Xv6

open Function List

namespace Code

/-- The loop of `filewrite`: `i` bytes are written, the offset is `off`. -/
def filewriteLoop (ip : ℕ) (addr : List UInt8) (n : ℕ) : ℕ → ℕ → ℕ → Code (ℕ × ℕ)
  | 0, i, off => return (i, off)
  | fuel + 1, i, off =>
    if i < n then do
      let n1 := if n - i > maxWrite then maxWrite else n - i
      match ← writeChunk ip off ((addr.drop i).take n1) with
      | none => return (i, off)
      | some r =>
        if r ≠ n1 then panic "short filewrite"
        else filewriteLoop ip addr n fuel (i + r) (off + r)
    else return (i, off)

end Code

/-- `filewrite(f, addr, n)` for a `struct file` with an inode: what it returns, and the file. -/
def File.filewrite (f : File) (addr : List UInt8) (n : ℤ) : Code (ℤ × File) :=
  if f.writable then do
    let (i, off) ← Code.filewriteLoop f.ip addr n.toNat n.toNat 0 f.off
    return (if (i : ℤ) = n then n else -1, { f with off := off })
  else return (-1, f)

/-! ## One chunk -/

/-- Inode `i` is that of a regular file, open and not locked. -/
structure FileOpen (sb : Superblock) (s : FsState) (i : ℕ) : Prop where
  lt : i < sb.ninodes
  ref : 0 < (s.icache i).ref
  idle : (s.icache i).busy = false
  type : (dinode sb s.disk i).type = T_FILE

/-- The same in the store. -/
structure Store.Open (sb : Superblock) (a : Store) (i : ℕ) : Prop where
  lt : i < sb.ninodes
  ref : 0 < a.ref i
  idle : a.busy i = false
  type : (a.node i).type = T_FILE

theorem FileOpen.used {sb : Superblock} {s : FsState} {i : ℕ} (h : FileOpen sb s i) :
    (dinode sb s.disk i).type ≠ 0 := by
  rw [h.type]
  decide

section Chunk

variable {sb : Superblock} {s s' : FsState} {a b : Store} {i off : ℕ} {src : List UInt8}

theorem FileOpen.store (h : FileOpen sb s i) : (storeOf sb s).Open sb i := by
  refine ⟨h.lt, h.ref, ?_, ?_⟩
  · show (decide (0 < (s.icache i).ref) && (s.icache i).busy) = false
    rw [h.idle, Bool.and_false]
  · show (nodeOf sb s.disk i).type = T_FILE
    rw [nodeOf_type]
    exact h.type

theorem Store.Open.file (h : a.Open sb i) (hrel : Rel sb s a) : FileOpen sb s i := by
  have href : 0 < (s.icache i).ref := hrel.ref i h.lt ▸ h.ref
  refine ⟨h.lt, href, ?_, ?_⟩
  · by_contra hb
    have hbusy := (hrel.busy i h.lt).mpr ⟨href, Bool.eq_true_of_not_eq_false hb⟩
    rw [h.idle] at hbusy
    cases hbusy
  · rw [← hrel.type_eq h.lt]
    exact h.type

/-- A call on top of the log does what the store says, as long as the log is not full. -/
theorem execLog_ok (L : Layout sb) {c : Cmd} {x : Resp c} (h : Rel sb s a)
    (hc : Store.exec sb c a = .ok (x, b)) (hcost : b.cost.bound < Fs.logSlots sb) :
    ∃ s', Fs.execLog sb c s = .ok (x, s') ∧ Rel sb s' b := by
  have hsim := exec_sim_store L c s a h
  rw [hc] at hsim
  rcases hs : Fs.exec sb c s with e | ⟨y, s'⟩
  · rw [hs] at hsim
    cases hsim
  · rw [hs] at hsim
    cases hsim with
    | ok hrel => exact ⟨s', Fs.onLog_ok hs (hrel.cost.card_le.trans_lt hcost), hrel⟩

theorem execLog_error (L : Layout sb) {c : Cmd} {e : Stop} (h : Rel sb s a)
    (hc : Store.exec sb c a = .error e) (he : e ≠ .misuse) : Fs.execLog sb c s = .error e := by
  have hsim := exec_sim_store L c s a h
  rw [hc] at hsim
  rcases hs : Fs.exec sb c s with e' | ⟨y, s'⟩
  · rw [hs] at hsim
    cases hsim with
    | stop => exact Fs.onLog_error hs
    | wild h => exact absurd h he
  · rw [hs] at hsim
    cases hsim with
    | wild h => exact absurd h he

/-- The store with nothing logged. -/
def Store.begun (a : Store) : Store := { a with cost := ⟨∅, 0⟩ }

/-- The chunk can be written at `off`. -/
def Store.Takes (a : Store) (i off n : ℕ) : Prop :=
  off ≤ (a.node i).data.length ∧ off + n ≤ MAXFILE * BSIZE

theorem maxWrite_eq : Code.maxWrite = 6656 := rfl

/-- What a chunk logs fits into the log. -/
theorem bound_chunk (hlog : LOGSIZE ≤ sb.nlog) (hlen : src.length ≤ Code.maxWrite) :
    (writtenCost ⟨∅, 0⟩ (a.node i) i off src).bound < Fs.logSlots sb := by
  have hle := bound_writtenCost ⟨∅, 0⟩ (a.node i) i off src
  have hb : (⟨∅, 0⟩ : Cost).bound = 1 := rfl
  have hl : Fs.logSlots sb = min 30 (sb.nlog - 1) := rfl
  have hlog : 30 ≤ sb.nlog := hlog
  rw [maxWrite_eq] at hlen
  omega

/-- The store with inode `i` locked or not. -/
def Store.setBusy (a : Store) (i : ℕ) (b : Bool) : Store :=
  { a with busy := update a.busy i b }

theorem Store.iunlock_ok (h : a.Locked sb i) :
    Store.exec sb (.iunlock i) a = .ok ((), a.setBusy i false) := if_pos h

namespace Store.Open

section

variable (h : a.Open sb i)

include h

theorem ilock_ok : Store.exec sb (.ilock i) a = .ok ((), a.setBusy i true) := by
  show Store.ilock sb i a = _
  rw [Store.ilock, if_neg (not_le.mpr h.lt), if_neg h.ref.ne', h.idle, if_neg Bool.false_ne_true,
    h.type, if_neg (by decide)]
  rfl

theorem locked : (a.setBusy i true).Locked sb i := by
  refine ⟨h.lt, ?_⟩
  show update a.busy i true i = true
  rw [update_self]

/-- Locking and unlocking leaves the locks as they were. -/
theorem unlock_eq : (a.setBusy i true).setBusy i false = a := by
  simp only [setBusy, update_idem]
  rw [← h.idle, update_eq_self]

theorem unlock_wrote (off : ℕ) (src : List UInt8) :
    ((a.setBusy i true).wrote i off src).setBusy i false = a.wrote i off src := by
  simp only [setBusy, wrote, update_idem]
  rw [← h.idle, update_eq_self]

/-- It is open after a chunk as well. -/
theorem wrote (off : ℕ) (src : List UInt8) : (a.begun.wrote i off src).Open sb i := by
  refine ⟨h.lt, h.ref, h.idle, ?_⟩
  have hnode : (a.begun.wrote i off src).node i = (a.node i).write off src :=
    update_self ..
  rw [hnode]
  exact h.type

end

end Store.Open

/-- **One chunk**: it is written, or it does not fit into the file and nothing happens; if the disk
is full, it panics. -/
theorem writeChunk_run (L : Layout sb) (hlog : LOGSIZE ≤ sb.nlog) (h : Rel sb s a)
    (ho : a.Open sb i) (off : ℕ) (hlen : src.length ≤ Code.maxWrite) :
    Exec.Wp (Prog.exec (Fs.execLog sb) (Code.writeChunk i off src)) s
      (fun r s' => a.Takes i off src.length ∧ r = some src.length ∧
          a.usedWith sb i ((a.node i).write off src) ≤ Store.capacity sb ∧
          Rel sb s' (a.begun.wrote i off src) ∨
        ¬a.Takes i off src.length ∧ r = none ∧ Rel sb s' a.begun)
      (fun e => e = .panic "balloc: out of blocks" ∧ a.Takes i off src.length ∧
        Store.capacity sb < a.usedWith sb i ((a.node i).write off src)) := by
  have hone : (⟨∅, 0⟩ : Cost).bound < Fs.logSlots sb :=
    (show (⟨∅, 0⟩ : Cost).bound ≤ (writtenCost ⟨∅, 0⟩ (a.node i) i off []).bound
      from le_rfl).trans_lt (bound_chunk hlog (Nat.zero_le _))
  have ho' : a.begun.Open sb i := ⟨ho.lt, ho.ref, ho.idle, ho.type⟩
  have hdev : ((a.begun.setBusy i true).node i).type ≠ T_DEV := by
    show (a.node i).type ≠ T_DEV
    rw [ho.type]
    decide
  obtain ⟨s1, he1, hr1⟩ := execLog_ok (c := .beginOp) (b := a.begun) L h rfl hone
  obtain ⟨s2, he2, hr2⟩ := execLog_ok (c := .ilock i) (b := a.begun.setBusy i true) L hr1
    ho'.ilock_ok hone
  -- the program from the call of `writei` on
  have hrun : Prog.exec (Fs.execLog sb) (Code.writeChunk i off src) s =
      Prog.exec (Fs.execLog sb) (Code.writei i off src >>= fun r => Code.iunlock i >>= fun _ =>
        pure r) s2 :=
    (Prog.exec_bind_ok ((Prog.exec_call _ Cmd.beginOp s).trans he1)).trans
      (Prog.exec_bind_ok ((Prog.exec_call _ (Cmd.ilock i) s1).trans he2))
  have hend : ∀ {r : Option ℕ} {s3 s4 : FsState},
      Fs.execLog sb (.writei i off src) s2 = .ok (r, s3) →
      Fs.execLog sb (.iunlock i) s3 = .ok ((), s4) →
      Prog.exec (Fs.execLog sb) (Code.writei i off src >>= fun r => Code.iunlock i >>= fun _ =>
        pure r) s2 = .ok (r, s4) := fun {r s3 s4} he3 he4 =>
    (Prog.exec_bind_ok ((Prog.exec_call _ (Cmd.writei i off src) s2).trans he3)).trans
      (Prog.exec_bind_ok ((Prog.exec_call _ (Cmd.iunlock i) s3).trans he4))
  by_cases htakes : a.Takes i off src.length
  · have hw : Store.exec sb (.writei i off src) (a.begun.setBusy i true) =
        if Store.capacity sb < a.usedWith sb i ((a.node i).write off src) then _ else _ :=
      Store.writei_file ho'.locked hdev htakes.1 htakes.2
    by_cases hfull : Store.capacity sb < a.usedWith sb i ((a.node i).write off src)
    · rw [if_pos hfull] at hw
      have he3 := execLog_error L hr2 hw (by simp)
      have hstop := (Prog.exec_bind (Fs.execLog sb) (Code.writei i off src) (fun r =>
        Code.iunlock i >>= fun _ => pure r) s2).trans
        (Exec.bind_error ((Prog.exec_call _ (Cmd.writei i off src) s2).trans he3))
      exact .of_error (hrun.trans hstop) ⟨rfl, htakes, hfull⟩
    rw [if_neg hfull] at hw
    obtain ⟨s3, he3, hr3⟩ := execLog_ok L hr2 hw (bound_chunk hlog hlen)
    have hun := Store.iunlock_ok (a := (a.begun.setBusy i true).wrote i off src) ho'.locked
    rw [ho'.unlock_wrote] at hun
    obtain ⟨s4, he4, hr4⟩ := execLog_ok L hr3 hun (bound_chunk hlog hlen)
    exact .of_ok (hrun.trans (hend he3 he4)) (.inl ⟨htakes, rfl, not_lt.mp hfull, hr4⟩)
  · have hw := Store.writei_bad (a := a.begun.setBusy i true) ho'.locked hdev htakes
    obtain ⟨s3, he3, hr3⟩ := execLog_ok (c := .writei i off src) L hr2 hw hone
    have hun := Store.iunlock_ok ho'.locked
    rw [ho'.unlock_eq] at hun
    obtain ⟨s4, he4, hr4⟩ := execLog_ok L hr3 hun hone
    exact .of_ok (hrun.trans (hend he3 he4)) (.inr ⟨htakes, rfl, hr4⟩)

end Chunk

/-! ## The loop -/

/-- Two writes, one behind the other, are one. -/
theorem Node.write_write {x : Node} {off : ℕ} (hoff : off ≤ x.data.length) (u v : List UInt8) :
    (x.write off u).write (off + u.length) v = x.write off (u ++ v) := by
  have hlen : (x.data.take off ++ u).length = off + u.length := by
    rw [length_append, length_take, min_eq_left hoff]
  have htake : (x.data.take off ++ u ++ x.data.drop (off + u.length)).take (off + u.length) =
      x.data.take off ++ u := by
    rw [← hlen, take_left]
  have hdrop : (x.data.take off ++ u ++ x.data.drop (off + u.length)).drop
      (off + u.length + v.length) = x.data.drop (off + (u ++ v).length) := by
    rw [drop_append, drop_eq_nil_of_le (by omega), nil_append, drop_drop, hlen, length_append]
    congr 1
    omega
  simp only [Node.write, Store.overwrite]
  rw [htake, hdrop, append_assoc _ u v]

theorem Node.write_nil (x : Node) (off : ℕ) : x.write off [] = x := by
  simp [Node.write, Store.overwrite]

section Loop

variable {sb : Superblock} {s s' : FsState} {a : Store} {ip n : ℕ} {addr : List UInt8}

/-- The store after the first `k` bytes from byte `i` of the buffer on were written. -/
def Store.wroteFrom (a : Store) (ip off : ℕ) (src : List UInt8) (c : Cost) : Store :=
  { a with
    node := update a.node ip ((a.node ip).write off src)
    cost := c }

theorem Store.wroteFrom_nil (a : Store) (ip off : ℕ) (c : Cost) :
    a.wroteFrom ip off [] c = { a with cost := c } := by
  rw [wroteFrom, Node.write_nil, update_eq_self]

theorem Store.wroteFrom_wrote {off : ℕ} (hoff : off ≤ (a.node ip).data.length) (u v : List UInt8)
    (c : Cost) : (a.begun.wrote ip off u).wroteFrom ip (off + u.length) v c =
      a.wroteFrom ip off (u ++ v) c := by
  simp only [wroteFrom, wrote, begun, update_self, update_idem]
  rw [Node.write_write hoff]

theorem Store.usedWith_wrote (off : ℕ) (src : List UInt8) (x : Node) :
    (a.begun.wrote ip off src).usedWith sb ip x = a.usedWith sb ip x := by
  rw [usedWith, usedWith, wrote]
  simp only [update_idem]
  rfl

/-- What the loop has done when it ends with result `r`, with `m` bytes to write at `off`: it has
written `k` of them, all unless the next chunk does not fit into the file. -/
structure LoopEnd (sb : Superblock) (a : Store) (ip off : ℕ) (src : List UInt8) (i : ℕ)
    (r : ℕ × ℕ) (s' : FsState) (k : ℕ) : Prop where
  le : k ≤ src.length
  result : r = (i + k, off + k)
  rel : ∃ c, Rel sb s' (a.wroteFrom ip off (src.take k) c)
  all : k = src.length ∨ MAXFILE * BSIZE < off + k + min (src.length - k) Code.maxWrite
  first : 0 < k → off + min src.length Code.maxWrite ≤ MAXFILE * BSIZE
  inside : 0 < k → off + k ≤ MAXFILE * BSIZE

theorem take_drop_add (i m k : ℕ) :
    (addr.drop i).take (m + k) = (addr.drop i).take m ++ (addr.drop (i + m)).take k := by
  rw [take_add, drop_drop]

/-- A chunk, and then the rest of the loop. -/
theorem LoopEnd.chunk {i off n1 k : ℕ} {r : ℕ × ℕ}
    (h : LoopEnd sb (a.begun.wrote ip off ((addr.drop i).take n1)) ip (off + n1)
      ((addr.drop (i + n1)).take (n - (i + n1))) (i + n1) r s' k)
    (hoff : off ≤ (a.node ip).data.length) (hn : n ≤ addr.length) (hlt : i < n)
    (hmin : n1 = min (n - i) Code.maxWrite) (hmax : off + n1 ≤ MAXFILE * BSIZE) :
    LoopEnd sb a ip off ((addr.drop i).take (n - i)) i r s' (n1 + k) := by
  have hlen : ((addr.drop i).take n1).length = n1 := by
    rw [length_take, length_drop]
    omega
  have hall : ((addr.drop i).take (n - i)).length = n - i := by
    rw [length_take, length_drop]
    omega
  have hrest : ((addr.drop (i + n1)).take (n - (i + n1))).length = n - (i + n1) := by
    rw [length_take, length_drop]
    omega
  have hle := h.le
  have hend := h.all
  rw [hrest] at hle hend
  refine ⟨by omega, ?_, ?_, ?_, fun _ => by rw [hall]; omega, fun _ => ?_⟩
  · rw [h.result, Nat.add_assoc, Nat.add_assoc]
  · obtain ⟨c, hrel⟩ := h.rel
    refine ⟨c, ?_⟩
    have hnext := Store.wroteFrom_wrote hoff ((addr.drop i).take n1) ((addr.drop (i + n1)).take k) c
    rw [hlen] at hnext
    rw [take_take, min_eq_left hle, hnext, ← take_drop_add] at hrel
    rwa [take_take, min_eq_left (by omega)]
  · rw [hall]
    omega
  · rcases Nat.eq_zero_or_pos k with rfl | hpos
    · exact hmax
    · have := h.inside hpos
      omega

/-- **The loop of `filewrite`** from byte `i` of the buffer on. -/
theorem loop_spec (L : Layout sb) (hlog : LOGSIZE ≤ sb.nlog) (hn : n ≤ addr.length) :
    ∀ (fuel i off : ℕ) (s : FsState) (a : Store), Rel sb s a → a.Open sb ip → i ≤ n →
    n - i ≤ fuel → off ≤ (a.node ip).data.length →
    Exec.Wp (Prog.exec (Fs.execLog sb) (Code.filewriteLoop ip addr n fuel i off)) s
      (fun r s' => ∃ k, LoopEnd sb a ip off ((addr.drop i).take (n - i)) i r s' k)
      (fun e => e = .panic "balloc: out of blocks" ∧ ∃ k ≤ n - i, off + k ≤ MAXFILE * BSIZE ∧
        Store.capacity sb < a.usedWith sb ip ((a.node ip).write off ((addr.drop i).take k))) := by
  intro fuel
  have hstop : ∀ (i off : ℕ) (s : FsState) (a : Store), Rel sb s a → n - i = 0 →
      ∃ k, LoopEnd sb a ip off ((addr.drop i).take (n - i)) i (i, off) s k := by
    intro i off s a h h0
    rw [h0, take_zero]
    refine ⟨0, le_rfl, rfl, ⟨a.cost, ?_⟩, .inl rfl, fun h => absurd h (Nat.lt_irrefl 0),
      fun h => absurd h (Nat.lt_irrefl 0)⟩
    rw [take_zero, Store.wroteFrom_nil]
    exact h
  induction fuel with
  | zero =>
    intro i off s a h _ _ hfuel _
    exact .of_ok rfl (hstop i off s a h (Nat.le_zero.mp hfuel))
  | succ fuel ih =>
    intro i off s a h ho hi hfuel hoff
    rw [Code.filewriteLoop]
    by_cases hlt : i < n
    swap
    · rw [if_neg hlt]
      exact .of_ok rfl (hstop i off s a h (by omega))
    rw [if_pos hlt]
    obtain ⟨n1, hn1⟩ : ∃ n1, n1 = if n - i > Code.maxWrite then Code.maxWrite else n - i := ⟨_, rfl⟩
    have hmin : n1 = min (n - i) Code.maxWrite := by
      rw [hn1]
      split <;> omega
    have hpos : 0 < n1 := by
      rw [hmin, maxWrite_eq]
      omega
    have hlen : ((addr.drop i).take n1).length = n1 := by
      rw [length_take, length_drop]
      omega
    have hall : ((addr.drop i).take (n - i)).length = n - i := by
      rw [length_take, length_drop]
      omega
    have hchunk := writeChunk_run L hlog h ho off (show ((addr.drop i).take n1).length ≤ _ by
      rw [hlen]
      omega)
    rw [hlen] at hchunk
    simp only [← hn1]
    rw [Exec.Wp, Prog.exec_bind]
    refine Exec.Wp.bind hchunk ?_ ?_
    · rintro e ⟨rfl, htakes, hfull⟩
      exact ⟨rfl, n1, by omega, htakes.2, hfull⟩
    rintro r s1 (⟨htakes, rfl, -, hrel⟩ | ⟨htakes, rfl, hrel⟩)
    · -- the chunk was written: the rest is the loop from its end on
      show Exec.Wp (Prog.exec _ (if n1 ≠ n1 then _ else _)) _ _ _
      rw [if_neg (not_not.mpr rfl)]
      have hnode : (a.begun.wrote ip off ((addr.drop i).take n1)).node ip =
          (a.node ip).write off ((addr.drop i).take n1) := update_self ..
      have hoff1 : off + n1 ≤
          ((a.begun.wrote ip off ((addr.drop i).take n1)).node ip).data.length := by
        have hsize : ((a.node ip).write off ((addr.drop i).take n1)).data.length =
            max (a.node ip).data.length (off + ((addr.drop i).take n1).length) :=
          Store.length_overwrite hoff
        rw [hnode, hsize, hlen]
        exact le_max_right _ _
      refine (ih (i + n1) (off + n1) s1 _ hrel (ho.wrote _ _) (by omega) (by omega)
        hoff1).mono ?_ ?_
      · rintro r s' ⟨k, hk⟩
        exact ⟨n1 + k, hk.chunk hoff hn hlt hmin htakes.2⟩
      · rintro e ⟨rfl, k, hk, hmax, hfull⟩
        refine ⟨rfl, n1 + k, by omega, by omega, ?_⟩
        rw [hnode, Store.usedWith_wrote] at hfull
        rw [take_drop_add, ← Node.write_write hoff, hlen]
        exact hfull
    · refine .of_ok rfl ⟨0, Nat.zero_le _, rfl, ⟨⟨∅, 0⟩, ?_⟩, .inr ?_,
        fun h => absurd h (Nat.lt_irrefl 0), fun h => absurd h (Nat.lt_irrefl 0)⟩
      · rw [take_zero, Store.wroteFrom_nil]
        exact hrel
      · rw [hall]
        have hnot : ¬off + n1 ≤ MAXFILE * BSIZE := fun hle => htakes ⟨hoff, hle⟩
        omega

end Loop

/-! ## The whole write -/

section Write

variable {sb : Superblock} {s s' : FsState} {f f' : File} {addr : List UInt8}

/-- What `filewrite` does when it ends. -/
theorem filewrite_run (L : Layout sb) (hlog : LOGSIZE ≤ sb.nlog) (h : Inv sb s)
    (hw : f.writable = true) (ho : FileOpen sb s f.ip) {n : ℕ} (hn : n ≤ addr.length)
    (hoff : f.off ≤ (contents sb s f.ip).length) :
    Exec.Wp (Prog.exec (Fs.execLog sb) (f.filewrite addr n)) s
      (fun r s' => ∃ k, LoopEnd sb (storeOf sb s) f.ip f.off (addr.take n) 0 (k, f.off + k) s' k ∧
        r = (if k = n then (n : ℤ) else -1, { f with off := f.off + k }))
      (fun e => e = .panic "balloc: out of blocks" ∧ ∃ k ≤ n, f.off + k ≤ MAXFILE * BSIZE ∧
        ¬Room sb s f.ip (f.off + k)) := by
  have hloop := loop_spec L hlog hn n 0 f.off s _ (rel_storeOf h) ho.store
    (Nat.zero_le n) le_rfl hoff
  rw [Nat.sub_zero, drop_zero] at hloop
  rw [File.filewrite, if_pos hw, Int.toNat_natCast, Exec.Wp, Prog.exec_bind]
  refine Exec.Wp.bind hloop ?_ ?_
  · rintro e ⟨rfl, k, hk, hmax, hfull⟩
    refine ⟨rfl, k, hk, hmax, fun hroom => absurd hfull (not_lt.mpr ?_)⟩
    have hlen : (addr.take k).length = k := by
      rw [length_take]
      omega
    refine (room_iff h ho.lt ho.used hoff).mp ?_
    rwa [hlen]
  rintro r s' ⟨k, hk⟩
  have hres : r = (k, f.off + k) := by
    rw [hk.result, Nat.zero_add]
  subst hres
  refine ⟨k, hk, ?_⟩
  simp only [Int.natCast_inj]

/-- The files after the first `k` bytes were written. -/
theorem LoopEnd.node {ip off i k : ℕ} {src : List UInt8} {r : ℕ × ℕ}
    (h : LoopEnd sb (storeOf sb s) ip off src i r s' k) {j : ℕ} (hj : j < sb.ninodes) :
    nodeOf sb s'.disk j = update (nodeOf sb s.disk) ip
      ((nodeOf sb s.disk ip).write off (src.take k)) j := by
  obtain ⟨c, hrel⟩ := h.rel
  exact (hrel.node j hj).symm

/-- A single `writei` of all the bytes. -/
theorem writei_once (L : Layout sb) (h : Inv sb s) {i off : ℕ} (src : List UInt8)
    (ho : FileOpen sb s i) (hoff : off ≤ (contents sb s i).length)
    (hmax : off + src.length ≤ MAXFILE * BSIZE) (hroom : Room sb s i (off + src.length)) :
    ∃ t t', Fs.ilock sb i s = .ok ((), t) ∧ Fs.writei sb i off src t = .ok (some src.length, t') ∧
      ∀ j < sb.ninodes, nodeOf sb t'.disk j = update (nodeOf sb s.disk) i
        ((nodeOf sb s.disk i).write off src) j := by
  have hlock := ilock_sim L i s _ (rel_storeOf h)
  rw [show Store.ilock sb i (storeOf sb s) = _ from ho.store.ilock_ok] at hlock
  generalize hs : Fs.ilock sb i s = r at hlock
  cases hlock with
  | @ok _ t _ hrel =>
    have hwrite := writei_sim L i off src t _ hrel
    have hfits := (room_iff h ho.lt ho.used hoff).mp hroom
    have hdev : ((storeOf sb s).setBusy i true |>.node i).type ≠ T_DEV := by
      rw [show ((storeOf sb s).setBusy i true |>.node i).type = T_FILE from ho.store.type]
      decide
    have hstore : Store.writei sb i off src ((storeOf sb s).setBusy i true) =
        .ok (some src.length, ((storeOf sb s).setBusy i true).wrote i off src) :=
      (Store.writei_file ho.store.locked hdev hoff hmax).trans (if_neg (not_lt.mpr hfits))
    rw [hstore] at hwrite
    generalize hs' : Fs.writei sb i off src t = r' at hwrite
    cases hwrite with
    | @ok _ t' _ hrel' => exact ⟨t, t', rfl, hs', fun j hj => (hrel'.node j hj).symm⟩

/-- **Chunked writes are one write.** For an open, writable regular file, a write that starts within
the file, stays below the largest size and for which the disk has room returns the number of its
bytes, and all files are then what a single `writei` of the whole buffer makes of them. -/
theorem filewrite_is_writei (L : Layout sb) (hlog : LOGSIZE ≤ sb.nlog) (h : Inv sb s)
    (hw : f.writable = true) (ho : FileOpen sb s f.ip) {n : ℕ} (hn : n ≤ addr.length)
    (hoff : f.off ≤ (contents sb s f.ip).length) (hmax : f.off + n ≤ MAXFILE * BSIZE)
    (hroom : Room sb s f.ip (f.off + n)) :
    ∃ s1 t t', Prog.exec (Fs.execLog sb) (f.filewrite addr n) s =
        .ok (((n : ℤ), { f with off := f.off + n }), s1) ∧ Inv sb s1 ∧
      Fs.ilock sb f.ip s = .ok ((), t) ∧
      Fs.writei sb f.ip f.off (addr.take n) t = .ok (some n, t') ∧
      ∀ j < sb.ninodes, nodeOf sb s1.disk j = nodeOf sb t'.disk j := by
  have hlen : (addr.take n).length = n := length_take_of_le hn
  obtain ⟨t, t', ht, ht', honce⟩ := writei_once L h (addr.take n) ho hoff (by rwa [hlen])
    (by rwa [hlen])
  rw [hlen] at ht'
  have hrun := filewrite_run L hlog h hw ho hn hoff
  rcases hs : Prog.exec (Fs.execLog sb) (f.filewrite addr n) s with e | ⟨r, s1⟩
  · obtain ⟨-, k, hk, -, hno⟩ := hrun.error hs
    exact absurd (hroom.mono (Nat.add_le_add_left hk _)) hno
  obtain ⟨k, hk, rfl⟩ := hrun.ok hs
  have hkn : k = n := by
    have hall := hk.all
    rw [hlen] at hall
    rcases hall with hall | hall
    · exact hall
    · have hle := hk.le
      omega
  subst hkn
  rw [if_pos rfl] at hs
  refine ⟨s1, t, t', by rw [if_pos rfl], hk.rel.choose_spec.inv, ht, ht', fun j hj => ?_⟩
  rw [hk.node hj, honce j hj, take_take, min_self]

/-- A write of no bytes does nothing. -/
theorem filewrite_nothing (hw : f.writable = true) {n r : ℤ} (hn : n.toNat = 0)
    (hrun : Prog.exec (Fs.execLog sb) (f.filewrite addr n) s = .ok ((r, f'), s')) :
    f' = f ∧ ∀ j < sb.ninodes, nodeOf sb s'.disk j = nodeOf sb s.disk j := by
  have hsame : Prog.exec (Fs.execLog sb) (f.filewrite addr n) s =
      .ok ((if ((0 : ℕ) : ℤ) = n then n else -1, f), s) := by
    rw [File.filewrite, if_pos hw, hn]
    rfl
  rw [hsame] at hrun
  injection hrun with hrun
  injection hrun with hres hstate
  injection hres with _ hfile
  exact ⟨hfile.symm, fun j _ => by rw [hstate]⟩

/-- A write that starts past the end of the file does nothing. -/
theorem filewrite_past (L : Layout sb) (hlog : LOGSIZE ≤ sb.nlog) (h : Inv sb s)
    (hw : f.writable = true) (ho : FileOpen sb s f.ip) {n : ℕ} (hn : n ≤ addr.length)
    (hpast : (contents sb s f.ip).length < f.off) {r : ℤ}
    (hrun : Prog.exec (Fs.execLog sb) (f.filewrite addr n) s = .ok ((r, f'), s')) :
    f' = f ∧ ∀ j < sb.ninodes, nodeOf sb s'.disk j = nodeOf sb s.disk j := by
  cases n with
  | zero => exact filewrite_nothing hw rfl hrun
  | succ m =>
    rw [File.filewrite, if_pos hw, Int.toNat_natCast, Code.filewriteLoop,
      if_pos (Nat.succ_pos m)] at hrun
    obtain ⟨n1, hn1⟩ : ∃ n1, n1 = if m + 1 - 0 > Code.maxWrite then Code.maxWrite else m + 1 - 0 :=
      ⟨_, rfl⟩
    have hle : ((addr.drop 0).take n1).length ≤ Code.maxWrite := by
      rw [length_take, length_drop]
      split at hn1 <;> omega
    have hchunk := writeChunk_run L hlog (rel_storeOf h) ho.store f.off hle
    simp only [← hn1] at hrun
    rw [Prog.exec_bind] at hrun
    obtain ⟨⟨i, off⟩, s1, hloop, hret⟩ := Exec.ok_of_bind hrun
    rw [Prog.exec_bind] at hloop
    obtain ⟨r1, s2, hwrite, hrest⟩ := Exec.ok_of_bind hloop
    rcases hchunk.ok hwrite with ⟨htakes, -⟩ | ⟨-, rfl, hrel⟩
    · exact absurd htakes.1 (not_le.mpr hpast)
    · cases hrest
      cases hret
      exact ⟨rfl, fun j hj => (hrel.node j hj).symm⟩

/-- How many bytes a failed write has written, when it starts within the file. -/
theorem filewrite_failed (L : Layout sb) (hlog : LOGSIZE ≤ sb.nlog) (h : Inv sb s)
    (hw : f.writable = true) (ho : FileOpen sb s f.ip) {n : ℕ} (hn : n ≤ addr.length)
    (hoff : f.off ≤ (contents sb s f.ip).length)
    (hrun : Prog.exec (Fs.execLog sb) (f.filewrite addr n) s = .ok ((-1, f'), s')) :
    ∃ k, f' = { f with off := f.off + k } ∧
      (∀ j < sb.ninodes, nodeOf sb s'.disk j = update (nodeOf sb s.disk) f.ip
        ((nodeOf sb s.disk f.ip).write f.off ((addr.take n).take k)) j) ∧
      MAXFILE * BSIZE < f.off + k + min (n - k) Code.maxWrite ∧
      (0 < k → f.off + min n Code.maxWrite ≤ MAXFILE * BSIZE) ∧ k < n := by
  obtain ⟨k, hk, heq⟩ := (filewrite_run L hlog h hw ho hn hoff).ok hrun
  have hlen : (addr.take n).length = n := length_take_of_le hn
  have hne : k ≠ n := by
    rintro rfl
    rw [if_pos rfl] at heq
    have : (-1 : ℤ) = k := congrArg Prod.fst heq
    omega
  have hall := hk.all.resolve_left (by rwa [hlen])
  have hfirst := hk.first
  have hle := hk.le
  rw [hlen] at hall hfirst hle
  exact ⟨k, congrArg Prod.snd heq, fun j hj => hk.node hj, hall, hfirst, by omega⟩

/-- **A failed write leaves everything alone** iff it writes nothing, starts past the end of the
file, or has a first chunk that does not fit: otherwise that chunk has been written and the offset
has moved. (A write that would fit as a whole does not fail.) The file is open for writing and
`addr` has `n` bytes. -/
theorem filewrite_failed_unchanged (L : Layout sb) (hlog : LOGSIZE ≤ sb.nlog) (h : Inv sb s)
    (hw : f.writable = true) (ho : FileOpen sb s f.ip) {n : ℤ} (hn : n.toNat ≤ addr.length)
    (hrun : Prog.exec (Fs.execLog sb) (f.filewrite addr n) s = .ok ((-1, f'), s')) :
    (f' = f ∧ ∀ j < sb.ninodes, nodeOf sb s'.disk j = nodeOf sb s.disk j) ↔
      n < 0 ∨ (contents sb s f.ip).length < f.off ∨ f.off + n.toNat ≤ MAXFILE * BSIZE ∨
        MAXFILE * BSIZE < f.off + min n.toNat Code.maxWrite := by
  rcases lt_or_ge n 0 with hneg | hpos
  · -- the loop is not entered
    exact iff_of_true (filewrite_nothing hw (Int.toNat_of_nonpos hneg.le) hrun) (.inl hneg)
  obtain ⟨m, rfl⟩ := Int.eq_ofNat_of_zero_le hpos
  rw [Int.toNat_natCast] at hn ⊢
  rcases lt_or_ge (contents sb s f.ip).length f.off with hpast | hoff
  · exact iff_of_true (filewrite_past L hlog h hw ho hn hpast hrun) (.inr (.inl hpast))
  obtain ⟨k, rfl, hnode, hall, hfirst, hlt⟩ := filewrite_failed L hlog h hw ho hn hoff hrun
  constructor
  · rintro ⟨hsame, -⟩
    -- the offset has not moved, so not even the first chunk was written
    have hzero : f.off + k = f.off := congrArg File.off hsame
    obtain rfl : k = 0 := by omega
    exact .inr (.inr (.inr (by simpa using hall)))
  · intro hcond
    obtain rfl : k = 0 := by
      by_contra hk0
      have := hfirst (Nat.pos_of_ne_zero hk0)
      omega
    refine ⟨rfl, fun j hj => ?_⟩
    rw [hnode j hj, take_zero, Node.write_nil, update_eq_self]

end Write

/-! ## Writes to an empty file, and to a full disk -/

section Example

/-- A `struct file` for inode `i`, open for writing at the start. -/
def fileOf (i : ℕ) : File := ⟨1, true, true, i, 0⟩

theorem open_emptyState : FileOpen Mkfs.sb (emptyState Mkfs.sb T_FILE [2] fun _ => false) 2 := by
  refine ⟨by decide, by simp [emptyState], by simp [emptyState], ?_⟩
  show (dinode Mkfs.sb (emptyFiles Mkfs.sb T_FILE [2]) 2).type = T_FILE
  rw [dinode_emptyFiles layout_mkfs [2] (by decide)]
  rfl

theorem inv_emptyState_two : Inv Mkfs.sb (emptyState Mkfs.sb T_FILE [2] fun _ => false) :=
  inv_emptyState layout_mkfs (by decide) (by decide) (by decide) _

/-- A file as large as a file can be fits on the disk. -/
theorem room_emptyState_max :
    Room Mkfs.sb (emptyState Mkfs.sb T_FILE [2] fun _ => false) 2 (MAXFILE * BSIZE) :=
  room_emptyState layout_mkfs (by decide) (by decide) _ (by decide) (by decide)

/-- **A write to a full disk does not return**: one byte, to an empty file. -/
theorem filewrite_panics_full : ∃ s, Inv Mkfs.sb s ∧ FileOpen Mkfs.sb s 8 ∧
    (fileOf 8).off ≤ (contents Mkfs.sb s 8).length ∧ (fileOf 8).off + 1 ≤ MAXFILE * BSIZE ∧
    Prog.exec (Fs.execLog Mkfs.sb) ((fileOf 8).filewrite [65] (1 : ℕ)) s =
      .error (.panic "balloc: out of blocks") := by
  obtain ⟨s, hinv, hfree, hnode, href, hbusy⟩ := exists_full false
  have ho : FileOpen Mkfs.sb s 8 := by
    refine ⟨by decide, by rw [href]; decide, hbusy, ?_⟩
    rw [← nodeOf_type, hnode]
  refine ⟨s, hinv, ho, Nat.zero_le _, by decide, ?_⟩
  have hchunk := writeChunk_run layout_mkfs (by decide) (rel_storeOf hinv) ho.store 0
    (show [(65 : UInt8)].length ≤ Code.maxWrite by decide)
  have hstop : Prog.exec (Fs.execLog Mkfs.sb) (Code.writeChunk 8 0 [65]) s =
      .error (.panic "balloc: out of blocks") := by
    rcases hc : Prog.exec (Fs.execLog Mkfs.sb) (Code.writeChunk 8 0 [65]) s with e | ⟨r, s'⟩
    · rw [(hchunk.error hc).1]
    rcases hchunk.ok hc with ⟨-, -, hfits, -⟩ | ⟨htakes, -⟩
    · have hroom := (room_iff hinv ho.lt ho.used (Nat.zero_le _)).mpr hfits
      rw [Room, sizes, hnode, hfree] at hroom
      exact absurd hroom (by decide)
    · exact absurd ⟨Nat.zero_le _, by decide⟩ htakes
  have hw : (fileOf 8).writable = true := rfl
  rw [File.filewrite, if_pos hw, Int.toNat_natCast, Prog.exec_bind]
  refine Exec.bind_error ?_
  rw [Code.filewriteLoop, if_pos Nat.zero_lt_one, Prog.exec_bind]
  exact Exec.bind_error hstop

/-- Ten chunks and a rest, to an empty file. -/
theorem filewrite_is_writei_max : ∃ s1 t t',
    Prog.exec (Fs.execLog Mkfs.sb) ((fileOf 2).filewrite (List.replicate 71680 65) (71680 : ℕ))
        (emptyState Mkfs.sb T_FILE [2] fun _ => false) =
      .ok (((71680 : ℕ), { fileOf 2 with off := 0 + 71680 }), s1) ∧
    Fs.writei Mkfs.sb 2 0 ((List.replicate 71680 65).take 71680) t = .ok (some 71680, t') ∧
    nodeOf Mkfs.sb s1.disk 2 = nodeOf Mkfs.sb t'.disk 2 := by
  have hn : 71680 ≤ (List.replicate 71680 (65 : UInt8)).length := by rw [length_replicate]
  obtain ⟨s1, t, t', hrun, -, -, hw, hsame⟩ := filewrite_is_writei (f := fileOf 2) layout_mkfs
    (by decide) inv_emptyState_two rfl open_emptyState hn (Nat.zero_le _) le_rfl room_emptyState_max
  exact ⟨s1, t, t', hrun, hw, hsame 2 (by decide)⟩

/-- A write past the end of an empty file fails, and changes nothing. -/
theorem filewrite_failed_past : ∃ (f f' : File) (s s' : FsState),
    f.off = 5 ∧ Inv Mkfs.sb s ∧ FileOpen Mkfs.sb s f.ip ∧
    Prog.exec (Fs.execLog Mkfs.sb) (f.filewrite [65] 1) s = .ok ((-1, f'), s') ∧
    f' = f ∧ ∀ j < Mkfs.sb.ninodes, nodeOf Mkfs.sb s'.disk j = nodeOf Mkfs.sb s.disk j := by
  obtain ⟨f, hf⟩ : ∃ f : File, f = { fileOf 2 with off := 5 } := ⟨_, rfl⟩
  have hw : f.writable = true := by rw [hf]; rfl
  have hip : f.ip = 2 := by rw [hf]; rfl
  have hoff : f.off = 5 := by rw [hf]
  have ho : FileOpen Mkfs.sb (emptyState Mkfs.sb T_FILE [2] fun _ => false) f.ip := by
    rw [hip]
    exact open_emptyState
  have hpast : (contents Mkfs.sb (emptyState Mkfs.sb T_FILE [2] fun _ => false) f.ip).length <
      f.off := by
    rw [hip, hoff, contents_emptyState layout_mkfs _ (by decide)]
    decide
  have hchunk := writeChunk_run layout_mkfs (by decide) (rel_storeOf inv_emptyState_two) ho.store
    f.off (show [(65 : UInt8)].length ≤ Code.maxWrite by decide)
  rcases hc : Prog.exec (Fs.execLog Mkfs.sb) (Code.writeChunk f.ip f.off [65])
    (emptyState Mkfs.sb T_FILE [2] fun _ => false) with e | ⟨r, s'⟩
  · exact absurd (hchunk.error hc).2.1.1 (not_le.mpr hpast)
  rcases hchunk.ok hc with ⟨htakes, -⟩ | ⟨-, rfl, -⟩
  · exact absurd htakes.1 (not_le.mpr hpast)
  have hloop : Prog.exec (Fs.execLog Mkfs.sb) (Code.filewriteLoop f.ip [65] 1 1 0 f.off)
      (emptyState Mkfs.sb T_FILE [2] fun _ => false) = .ok ((0, f.off), s') := by
    rw [Code.filewriteLoop, if_pos Nat.zero_lt_one]
    exact Prog.exec_bind_ok hc
  have hrun : Prog.exec (Fs.execLog Mkfs.sb) (f.filewrite [65] 1)
      (emptyState Mkfs.sb T_FILE [2] fun _ => false) = .ok ((-1, f), s') := by
    rw [File.filewrite, if_pos hw]
    exact Prog.exec_bind_ok hloop
  exact ⟨f, f, _, s', hoff, inv_emptyState_two, ho, hrun,
    (filewrite_failed_unchanged layout_mkfs (by decide) inv_emptyState_two hw ho (by decide)
      hrun).mpr (.inr (.inl hpast))⟩

/-- **A failed write has changed the file**: of the 71681 bytes written to an empty file, the chunks
that fit are there, and the offset has moved. -/
theorem filewrite_fails_late : ∃ (s : FsState) (addr : List UInt8) (f' : File) (s' : FsState),
    Inv Mkfs.sb s ∧ FileOpen Mkfs.sb s 2 ∧ addr.length = 71681 ∧
    Prog.exec (Fs.execLog Mkfs.sb) ((fileOf 2).filewrite addr (71681 : ℕ)) s = .ok ((-1, f'), s') ∧
    f'.off ≠ (fileOf 2).off ∧ contents Mkfs.sb s' 2 ≠ contents Mkfs.sb s 2 := by
  obtain ⟨addr, hlen⟩ : ∃ addr : List UInt8, addr.length = 71681 :=
    ⟨List.replicate 71681 65, length_replicate⟩
  have hrun := filewrite_run (f := fileOf 2) layout_mkfs (by decide) inv_emptyState_two rfl
    open_emptyState hlen.ge (Nat.zero_le _)
  have hempty : contents Mkfs.sb (emptyState Mkfs.sb T_FILE [2] fun _ => false) 2 = [] :=
    contents_emptyState layout_mkfs _ (by decide)
  rcases hs : Prog.exec (Fs.execLog Mkfs.sb) ((fileOf 2).filewrite addr (71681 : ℕ))
    (emptyState Mkfs.sb T_FILE [2] fun _ => false) with e | ⟨r, s'⟩
  · obtain ⟨-, k, -, hmax, hno⟩ := hrun.error hs
    exact absurd (room_emptyState_max.mono hmax) hno
  obtain ⟨k, hk, rfl⟩ := hrun.ok hs
  have hall := hk.all
  have hinside := hk.inside
  have hmw : Code.maxWrite = 6656 := rfl
  have hmax : MAXFILE * BSIZE = 71680 := rfl
  have hoff : (fileOf 2).off = 0 := rfl
  rw [length_take, hlen, min_self, hmw, hmax, hoff] at hall
  rw [hmax, hoff] at hinside
  have hpos : 0 < k := by omega
  have hne : k ≠ 71681 := by
    have := hinside hpos
    omega
  rw [if_neg hne] at hs
  refine ⟨_, addr, _, s', inv_emptyState_two, open_emptyState, hlen, hs, ?_, ?_⟩
  · show (fileOf 2).off + k ≠ (fileOf 2).off
    omega
  have hcontents : contents Mkfs.sb s' 2 = (addr.take 71681).take k := by
    rw [contents, hk.node (by decide)]
    show (update (nodeOf Mkfs.sb _) 2 _ 2).data = _
    rw [update_self]
    show Store.overwrite (contents Mkfs.sb _ 2) 0 _ = _
    rw [hempty, Store.overwrite, take_zero, drop_nil, nil_append, append_nil]
  rw [hcontents, hempty, ne_eq, ← length_eq_zero_iff, length_take, length_take, hlen]
  omega

end Example

end Xv6
