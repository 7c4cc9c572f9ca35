import Xv6.SysFile

/-!
# What a system call holds

Between two system calls the references to inodes are those of the tables: current directories and
open files. While a call runs it holds further references, and locks. `Store.holding r N c M K` is
the store in which `r` counts the references of the tables, the running call holds those in the
list `M` and has locked the inodes in `K`, and the files are `N`.

* `Runs` is the weakest precondition of code on the store, and there is one rule for each call of
  the inode layer, about the state `holding r N c M K`.
* `Allowed D` are the reasons for which code may stop. Misuse of the inode layer is not among them,
  nor is a block that is freed twice; a lookup that finds a free inode is, unless `D` holds.
-/

namespace Xv6

open Function

/-- In use without links: only a reference keeps it. -/
def Node.Removed (x : Node) : Prop := x.type ≠ 0 ∧ x.nlink = 0

instance (x : Node) : Decidable x.Removed := inferInstanceAs (Decidable (_ ∧ _))

/-- The store in which the tables hold the references `r`, and the running call those in `held`
and the locks in `locked`. -/
def Store.holding (r : ℕ → ℕ) (N : ℕ → Node) (c : Cost) (held locked : List ℕ) : Store where
  node := N
  ref j := r j + held.count j
  busy j := decide (j ∈ locked)
  cost := c

/-- Code may stop for this reason; `D` excludes the lookup of a free inode. -/
def Allowed (D : Prop) (e : Stop) : Prop :=
  e ≠ .misuse ∧ e ≠ .panic "freeing free block" ∧ (D → e ≠ .panic "ilock: no type")

/-- The weakest precondition of code on the store. -/
def Runs (sb : Superblock) (D : Prop) {α : Type} (p : Code α) (a : Store) (Q : α → Store → Prop) :
    Prop :=
  Exec.Wp (Prog.exec (Store.exec sb) p) a Q (Allowed D)

theorem allowed_blocked {D : Prop} : Allowed D .blocked := by
  refine ⟨?_, ?_, fun _ => ?_⟩ <;> simp

variable {msg : String}

/-- A panic with any other message. -/
theorem allowed_panic {D : Prop} (h1 : msg ≠ "freeing free block")
    (h2 : msg ≠ "ilock: no type") : Allowed D (.panic msg) := by
  refine ⟨?_, ?_, fun _ => ?_⟩ <;> simp [h1, h2]

/-! ## Code -/

section Code

variable {sb : Superblock} {D : Prop} {α β : Type} {a : Store} {p : Code α} {f : α → Code β}

theorem runs_bind {Q : β → Store → Prop} :
    Runs sb D (p >>= f) a Q ↔ Runs sb D p a fun x a' => Runs sb D (f x) a' Q := by
  rw [Runs, Exec.Wp, Prog.exec_bind]
  exact Exec.wp_bind

variable {Q : α → Store → Prop}

@[simp] theorem runs_pure {x : α} : Runs sb D (pure x : Code α) a Q ↔ Q x a := Iff.rfl

theorem Runs.mono {Q Q' : α → Store → Prop} (h : Runs sb D p a Q)
    (hQ : ∀ x a', Q x a' → Q' x a') : Runs sb D p a Q' :=
  Exec.Wp.mono h hQ fun _ he => he

/-- A specification of the first part, then the rest. -/
theorem Runs.bind {Q' : β → Store → Prop}
    (h : Runs sb D p a Q) (hf : ∀ x a', Q x a' → Runs sb D (f x) a' Q') :
    Runs sb D (p >>= f) a Q' :=
  runs_bind.mpr (h.mono hf)

theorem runs_call {c : Cmd} {Q : Resp c → Store → Prop} :
    Runs sb D (Prog.call c) a Q ↔ Exec.Wp (Store.exec sb c) a Q (Allowed D) := by
  rw [Runs, Exec.Wp, Prog.exec_call]
  rfl

/-- A call that ends. -/
theorem Runs.of_ok {c : Cmd} {Q : Resp c → Store → Prop} {x : Resp c} {b : Store}
    (h : Store.exec sb c a = .ok (x, b)) (hQ : Q x b) : Runs sb D (Prog.call c) a Q :=
  runs_call.mpr (.of_ok h hQ)

theorem Runs.of_error {c : Cmd} {Q : Resp c → Store → Prop} {e : Stop}
    (h : Store.exec sb c a = .error e) (he : Allowed D e) : Runs sb D (Prog.call c) a Q :=
  runs_call.mpr (.of_error h he)

theorem runs_panic (h : Allowed D (.panic msg)) : Runs sb D (Code.panic msg) a Q := h

end Code

/-! ## The state of a running call -/

section Holding

variable {r : ℕ → ℕ} {N : ℕ → Node} {c : Cost} {M K : List ℕ} {i j : ℕ}

theorem holding_swap_held : Store.holding r N c (i :: j :: M) K = .holding r N c
    (j :: i :: M) K := by
  simp only [Store.holding, Store.mk.injEq, true_and, and_true]
  funext x
  rw [(List.Perm.swap j i M).count_eq]

theorem holding_swap_locked :
    Store.holding r N c M (i :: j :: K) = .holding r N c M (j :: i :: K) := by
  simp only [Store.holding, Store.mk.injEq, true_and, and_true]
  funext x
  simp only [(List.Perm.swap j i K).mem_iff]

/-- The counts of a list without its head. -/
theorem count_pop : update (fun j => r j + (i :: M).count j) i (r i + M.count i) =
    fun j => r j + M.count j := by
  funext x
  by_cases hx : x = i
  · rw [hx, update_self]
  · rw [update_of_ne hx, List.count_cons_of_ne (Ne.symm hx)]

theorem count_push : update (fun j => r j + M.count j) i (r i + M.count i + 1) =
    fun j => r j + (i :: M).count j := by
  funext x
  by_cases hx : x = i
  · rw [hx, update_self, List.count_cons_self, Nat.add_assoc]
  · rw [update_of_ne hx, List.count_cons_of_ne (Ne.symm hx)]

theorem lock_push : update (fun j => decide (j ∈ K)) i true = fun j => decide (j ∈ i :: K) := by
  funext x
  by_cases hx : x = i
  · rw [hx, update_self]
    simp
  · rw [update_of_ne hx]
    simp [hx]

theorem lock_pop (hi : i ∉ K) : update (fun j => decide (j ∈ i :: K)) i false =
    fun j => decide (j ∈ K) := by
  funext x
  by_cases hx : x = i
  · rw [hx, update_self]
    simp [hi]
  · rw [update_of_ne hx]
    simp [hx]

end Holding

/-! ## Rules for the calls -/

section Rules

variable {sb : Superblock} {D : Prop} {r : ℕ → ℕ} {N : ℕ → Node} {c : Cost} {M K : List ℕ} {i : ℕ}
  {Q : Unit → Store → Prop}

theorem runs_beginOp (hQ : Q () (.holding r N ⟨∅, 0⟩ M K)) :
    Runs sb D Code.beginOp (.holding r N c M K) Q :=
  Runs.of_ok rfl hQ

section

variable (hi : i < sb.ninodes)

include hi

theorem runs_iget
    (hr : (N i).Removed → 0 < r i + M.count i) (hQ : Q () (.holding r N c (i :: M) K)) :
    Runs sb D (Code.iget i) (.holding r N c M K) Q := by
  have hpush : ({ Store.holding r N c M K with
      ref := update (fun j => r j + M.count j) i (r i + M.count i + 1) } : Store) =
      .holding r N c (i :: M) K := by
    rw [count_push]
    rfl
  by_cases h0 : 0 < (Store.holding r N c M K).ref i
  · refine Runs.of_ok (x := ()) (b := .holding r N c (i :: M) K) ?_ hQ
    show Store.iget sb i _ = _
    rw [Store.iget, if_neg (Nat.not_le.mpr hi), if_pos h0]
    exact congrArg (fun a => Except.ok ((), a)) hpush
  have hn : ¬(Store.holding r N c M K).Removed i := fun h => h0 (hr h)
  by_cases hu : (Store.holding r N c M K).nused sb < NINODE
  · refine Runs.of_ok (x := ()) (b := .holding r N c (i :: M) K) ?_ hQ
    show Store.iget sb i _ = _
    rw [Store.iget, if_neg (Nat.not_le.mpr hi), if_neg h0, if_neg hn, if_pos hu]
    have h1 : r i + M.count i + 1 = 1 := by
      have h0' : ¬0 < r i + M.count i := h0
      omega
    rw [h1] at hpush
    exact congrArg (fun a => Except.ok ((), a)) hpush
  · refine Runs.of_error (e := .panic "iget: no inodes") ?_ (allowed_panic (by decide) (by decide))
    show Store.iget sb i _ = _
    rw [Store.iget, if_neg (Nat.not_le.mpr hi), if_neg h0, if_neg hn, if_neg hu]

theorem runs_idup (hr : 0 < r i + M.count i) (hQ : Q () (.holding r N c (i :: M) K)) :
    Runs sb D (Code.idup i) (.holding r N c M K) Q := by
  refine Runs.of_ok (x := ()) (b := .holding r N c (i :: M) K) ?_ hQ
  show Store.idup sb i _ = _
  rw [Store.idup, if_pos ⟨hi, hr⟩, Store.holding, Store.holding, ← count_push]

/-- A call that locks an inode it has locked already waits for itself. -/
theorem runs_ilock (hr : 0 < r i + M.count i) (hD : D → (N i).type ≠ 0)
    (hQ : i ∉ K → (N i).type ≠ 0 → Q () (.holding r N c M (i :: K))) :
    Runs sb D (Code.ilock i) (.holding r N c M K) Q := by
  have heq : Store.exec sb (.ilock i) (.holding r N c M K) =
      if r i + M.count i = 0 then .error (.panic "ilock")
      else if decide (i ∈ K) = true then .error .blocked
      else if (N i).type = 0 then .error (.panic "ilock: no type")
      else .ok ((), .holding r N c M (i :: K)) := by
    simp only [Store.holding, ← lock_push]
    exact if_neg (Nat.not_le.mpr hi)
  rw [if_neg (by omega)] at heq
  by_cases hk : i ∈ K
  · rw [if_pos (decide_eq_true hk)] at heq
    exact Runs.of_error heq allowed_blocked
  rw [if_neg (by simpa using hk)] at heq
  by_cases ht : (N i).type = 0
  · rw [if_pos ht] at heq
    exact Runs.of_error heq ⟨by simp, by simp, fun hd => absurd ht (hD hd)⟩
  · rw [if_neg ht] at heq
    exact Runs.of_ok heq (hQ hk ht)

theorem locked_holding (hk : i ∈ K) :
    (Store.holding r N c M K).Locked sb i := ⟨hi, decide_eq_true hk⟩

theorem runs_iunlock (hk : i ∉ K) (hQ : Q () (.holding r N c M K)) :
    Runs sb D (Code.iunlock i) (.holding r N c M (i :: K)) Q := by
  refine Runs.of_ok (x := ()) (b := .holding r N c M K) ?_ hQ
  show Store.iunlock sb i _ = _
  rw [Store.iunlock, if_pos (locked_holding hi (List.mem_cons_self ..))]
  simp only [Store.holding, lock_pop hk]

end

/-- The files after a reference to `i` is gone, if `ρ` counts the references left. -/
def release (ρ : ℕ → ℕ) (N : ℕ → Node) (i : ℕ) : ℕ → Node :=
  if ρ i = 0 ∧ (N i).Removed then update N i .free else N

/-- What has been logged then. -/
def releaseCost (ρ : ℕ → ℕ) (N : ℕ → Node) (c : Cost) (i : ℕ) : Cost :=
  if ρ i = 0 ∧ (N i).Removed then c.inode i else c

theorem release_of_ne {ρ : ℕ → ℕ} {j : ℕ} (h : j ≠ i) : release ρ N i j = N j := by
  rw [release]
  split
  · exact update_of_ne h _ _
  · rfl

section

variable (hi : i < sb.ninodes)

include hi

theorem runs_iput (hk : i ∈ K → 0 < r i + M.count i)
    (hQ : Q () (.holding r (release (fun j => r j + M.count j) N i)
      (releaseCost (fun j => r j + M.count j) N c i) M K)) :
    Runs sb D (Code.iput i) (.holding r N c (i :: M) K) Q := by
  have hcount : (Store.holding r N c (i :: M) K).ref i = r i + M.count i + 1 := by
    show r i + (i :: M).count i = _
    rw [List.count_cons_self, Nat.add_assoc]
  have hbusy : (Store.holding r N c (i :: M) K).busy i = true → 1 < r i + M.count i + 1 := by
    intro hb
    have := hk (of_decide_eq_true hb)
    omega
  refine Runs.of_ok (x := ()) (b := .holding r (release (fun j => r j + M.count j) N i)
    (releaseCost (fun j => r j + M.count j) N c i) M K) ?_ hQ
  show Store.iput sb i _ = _
  rw [Store.iput, hcount, if_pos ⟨hi, by omega, hbusy⟩]
  by_cases h : r i + M.count i = 0 ∧ (N i).Removed
  · rw [if_pos ⟨by omega, h.2⟩, release, if_pos h, releaseCost, if_pos h, ← h.1]
    simp only [Store.holding, count_pop]
  · have h' : ¬(r i + M.count i + 1 = 1 ∧ (Store.holding r N c (i :: M) K).Removed i) :=
      fun hh => h ⟨by omega, hh.2⟩
    rw [if_neg h', release, if_neg h, releaseCost, if_neg h]
    simp only [Store.holding, Nat.add_sub_cancel, count_pop]

/-- Giving up a reference to an inode that stays. -/
theorem runs_iput_keep (hk : i ∈ K → 0 < r i + M.count i)
    (hr : (N i).Removed → 0 < r i + M.count i) (hQ : Q () (.holding r N c M K)) :
    Runs sb D (Code.iput i) (.holding r N c (i :: M) K) Q := by
  have hn : ¬(r i + M.count i = 0 ∧ (N i).Removed) := fun h => absurd (hr h.2) (by omega)
  refine runs_iput hi hk ?_
  rw [release, if_neg hn, releaseCost, if_neg hn]
  exact hQ

theorem runs_iunlockput (hk : i ∉ K) (hQ : Q () (.holding r (release (fun j => r j + M.count j) N i)
      (releaseCost (fun j => r j + M.count j) N c i) M K)) :
    Runs sb D (Code.iunlockput i) (.holding r N c (i :: M) (i :: K)) Q :=
  runs_bind.mpr (runs_iunlock hi hk (runs_iput hi (fun h => absurd h hk) hQ))

theorem runs_iunlockput_keep (hk : i ∉ K)
    (hr : (N i).Removed → 0 < r i + M.count i) (hQ : Q () (.holding r N c M K)) :
    Runs sb D (Code.iunlockput i) (.holding r N c (i :: M) (i :: K)) Q :=
  runs_bind.mpr (runs_iunlock hi hk (runs_iput_keep hi (fun h => absurd h hk) hr hQ))

theorem runs_stati {Q : Attr → Store → Prop} (hk : i ∈ K)
    (hQ : Q ⟨(N i).type, (N i).nlink, (N i).data.length⟩ (.holding r N c M K)) :
    Runs sb D (Code.stati i) (.holding r N c M K) Q :=
  Runs.of_ok (if_pos (locked_holding hi hk)) hQ

end

/-- The file with another link count. -/
def Node.withNlink (x : Node) (v : UInt16) : Node := { x with nlink := v }

theorem runs_setNlink {v : UInt16} (hi : i < sb.ninodes) (hk : i ∈ K)
    (hQ : Q () (.holding r (update N i ((N i).withNlink v)) (c.inode i) M K)) :
    Runs sb D (Code.setNlink i v) (.holding r N c M K) Q :=
  Runs.of_ok (if_pos (locked_holding hi hk)) hQ

theorem runs_readi {Q : Option (List UInt8) → Store → Prop} {off n : ℕ} (hi : i < sb.ninodes)
    (hk : i ∈ K) (hnone : Q none (.holding r N c M K))
    (hsome : (N i).type ≠ T_DEV → off ≤ (N i).data.length →
      Q (some (((N i).data.drop off).take n)) (.holding r N c M K)) :
    Runs sb D (Code.readi i off n) (.holding r N c M K) Q := by
  have heq : Store.exec sb (.readi i off n) (.holding r N c M K) =
      if (N i).type = T_DEV then
        if (N i).major = 1 then .error .blocked else .ok (none, .holding r N c M K)
      else if off > (N i).data.length ∨ off + n ≥ 2 ^ 32 then .ok (none, .holding r N c M K)
      else .ok (some (((N i).data.drop off).take n), .holding r N c M K) :=
    if_pos (locked_holding hi hk)
  by_cases hd : (N i).type = T_DEV
  · rw [if_pos hd] at heq
    by_cases hm : (N i).major = 1
    · rw [if_pos hm] at heq
      exact Runs.of_error heq allowed_blocked
    · rw [if_neg hm] at heq
      exact Runs.of_ok heq hnone
  rw [if_neg hd] at heq
  by_cases ho : off > (N i).data.length ∨ off + n ≥ 2 ^ 32
  · rw [if_pos ho] at heq
    exact Runs.of_ok heq hnone
  · rw [if_neg ho] at heq
    exact Runs.of_ok heq (hsome hd (Nat.le_of_not_lt fun h => ho (.inl h)))

/-- The file after a write. -/
def Node.write (x : Node) (off : ℕ) (src : List UInt8) : Node :=
  { x with data := Store.overwrite x.data off src }

/-- What has been logged after a write. -/
def writtenCost (c : Cost) (x : Node) (i off : ℕ) (src : List UInt8) : Cost :=
  if src = [] then c else Store.writeCost c i x.data.length off src.length

theorem runs_writei {Q : Option ℕ → Store → Prop} {off : ℕ} {src : List UInt8}
    (hi : i < sb.ninodes) (hk : i ∈ K) (hnone : Q none (.holding r N c M K))
    (hdev : (N i).type = T_DEV → Q (some src.length) (.holding r N c M K))
    (hsome : (N i).type ≠ T_DEV → off ≤ (N i).data.length → off + src.length ≤ 140 * 512 →
      used sb (fun j => (update N i ((N i).write off src) j).nblocks) ≤ Store.capacity sb →
      Q (some src.length) (.holding r (update N i ((N i).write off src))
        (writtenCost c (N i) i off src) M K)) :
    Runs sb D (Code.writei i off src) (.holding r N c M K) Q := by
  have heq : Store.exec sb (.writei i off src) (.holding r N c M K) =
      if (N i).type = T_DEV then
        if (N i).major = 1 then .ok (some src.length, .holding r N c M K)
        else .ok (none, .holding r N c M K)
      else if off > (N i).data.length ∨ off + src.length ≥ 2 ^ 32 then
        .ok (none, .holding r N c M K)
      else if off + src.length > MAXFILE * BSIZE then .ok (none, .holding r N c M K)
      else if Store.capacity sb <
          used sb (fun j => (update N i ((N i).write off src) j).nblocks) then
        .error (.panic "balloc: out of blocks")
      else .ok (some src.length, .holding r (update N i ((N i).write off src))
        (writtenCost c (N i) i off src) M K) :=
    if_pos (locked_holding hi hk)
  by_cases hd : (N i).type = T_DEV
  · rw [if_pos hd] at heq
    by_cases hm : (N i).major = 1
    · rw [if_pos hm] at heq
      exact Runs.of_ok heq (hdev hd)
    · rw [if_neg hm] at heq
      exact Runs.of_ok heq hnone
  rw [if_neg hd] at heq
  by_cases ho : off > (N i).data.length ∨ off + src.length ≥ 2 ^ 32
  · rw [if_pos ho] at heq
    exact Runs.of_ok heq hnone
  rw [if_neg ho] at heq
  by_cases hm : off + src.length > MAXFILE * BSIZE
  · rw [if_pos hm] at heq
    exact Runs.of_ok heq hnone
  rw [if_neg hm] at heq
  by_cases hu : Store.capacity sb < used sb (fun j => (update N i ((N i).write off src) j).nblocks)
  · rw [if_pos hu] at heq
    exact Runs.of_error heq (allowed_panic (by decide) (by decide))
  rw [if_neg hu] at heq
  exact Runs.of_ok heq (hsome hd (Nat.le_of_not_lt fun h => ho (.inl h)) (Nat.le_of_not_lt hm)
    (Nat.le_of_not_lt hu))

/-- A new inode was free before. -/
theorem runs_icreate {Q : ℕ → Store → Prop} {type major minor : UInt16} (ht : type ≠ 0)
    (hQ : ∀ i, 0 < i → i < sb.ninodes → (N i).type = 0 →
      Q i (.holding r (update N i ⟨type, major, minor, 1, []⟩) (c.inode i) (i :: M) (i :: K))) :
    Runs sb D (Code.icreate type major minor) (.holding r N c M K) Q := by
  have heq : Store.exec sb (.icreate type major minor) (.holding r N c M K) =
      (Store.firstFree N (sb.ninodes - 1) 1).elim (.error (.panic "ialloc: no inodes")) fun i =>
        if 0 < r i + M.count i ∨ (Store.holding r N c M K).nused sb < NINODE then
          .ok (i, .holding r (update N i ⟨type, major, minor, 1, []⟩) (c.inode i) (i :: M) (i :: K))
        else .error (.panic "iget: no inodes") := by
    show Store.icreate sb type major minor _ = _
    rw [Store.icreate, if_neg ht]
    simp only [Store.holding, ← count_push, ← lock_push]
    cases Store.firstFree N (sb.ninodes - 1) 1 <;> rfl
  rcases hf : Store.firstFree N (sb.ninodes - 1) 1 with _ | i
  · rw [hf] at heq
    exact Runs.of_error heq (allowed_panic (by decide) (by decide))
  obtain ⟨hi, hlt, htype⟩ := Store.firstFree_some hf
  rw [hf] at heq
  by_cases h : 0 < r i + M.count i ∨ (Store.holding r N c M K).nused sb < NINODE
  · have heq' := heq.trans (if_pos h)
    exact Runs.of_ok heq' (hQ i hi (by omega) htype)
  · exact Runs.of_error (heq.trans (if_neg h)) (allowed_panic (by decide) (by decide))

end Rules

end Xv6
