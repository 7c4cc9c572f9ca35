import Xv6.Machine
import Xv6.SimContents
import Xv6.CallSpec

/-!
# Sequences of file system calls

`FsOp` is a single call of `fs.c`, or one of the calls of `sysfile.c` that change directories, and
`FsOp.step` makes it on the disk and the inode cache. A sequence of calls starts from a consistent
image with an empty cache.

* The callers keep to a contract: they read and change an inode only while they have it locked,
  they give up only references that they have, and they leave the contents of directories to
  `create`, `link` and `unlink`. A call against the contract does not take place
  (`Stop.misuse`).
* `FsInv` is what every call keeps: the state represents a store (`Rel`) whose directories are
  sound (`Tidy`).

The results are about every state that a sequence reaches: what is cached agrees with the disk
(`FsOp.cached_eq_disk`), and every block has one owner, as the bitmap says
(`FsOp.block_ownership`).
-/

namespace Xv6

open Function List

/-- A disk with a root, with few enough inodes for the inode numbers of entries. -/
structure Volume (sb : Superblock) : Prop extends Layout sb where
  root : ROOTINO < sb.ninodes

theorem volume_mkfs : Volume Mkfs.sb := ⟨layout_mkfs, by decide⟩

theorem Volume.small {sb : Superblock} (V : Volume sb) : sb.ninodes ≤ 65536 := by
  have h1 := V.inodes
  have h2 := V.data
  have h3 : sb.size ≤ 1000 := V.disk
  have h4 := bmapstart_lt sb
  omega

/-! ## The calls -/

/-- The caller has locked inode `i`. -/
def FsState.Locked (sb : Superblock) (s : FsState) (i : ℕ) : Prop :=
  i < sb.ninodes ∧ 0 < (s.icache i).ref ∧ (s.icache i).busy = true

instance (sb : Superblock) (s : FsState) (i : ℕ) : Decidable (s.Locked sb i) :=
  inferInstanceAs (Decidable (_ ∧ _))

/-- Nothing is locked, and `cwd` is the current directory of a process. -/
def FsState.Idle (sb : Superblock) (s : FsState) (cwd : ℕ) : Prop :=
  (∀ i < sb.ninodes, 0 < (s.icache i).ref → (s.icache i).busy = false) ∧
    cwd < sb.ninodes ∧ 0 < (s.icache cwd).ref ∧ (dinode sb s.disk cwd).type ≠ 0

instance (sb : Superblock) (s : FsState) (cwd : ℕ) : Decidable (s.Idle sb cwd) :=
  inferInstanceAs (Decidable (_ ∧ _))

/-- A call. -/
inductive FsOp : Type where
  /-- a call of the inode layer: `iget`, `idup`, `ilock`, `iunlock`, `iput`, `readi`, `writei`,
  `iupdate` after a change of `nlink`, and `ialloc` with the lines of `create` that fill the new
  inode -/
  | call (c : Cmd)
  | itrunc (i : ℕ)
  | create (cwd : ℕ) (path : List UInt8) (type major minor : UInt16)
  | link (cwd : ℕ) (old new : List UInt8)
  | unlink (cwd : ℕ) (path : List UInt8)

namespace FsOp

/-- The call, as the source computes it. -/
def exec (sb : Superblock) : FsOp → FS Unit
  | .call c => Prog.exec (Fs.exec sb) (Prog.call c >>= fun _ => pure ())
  | .itrunc i => Fs.itrunc sb i
  | .create cwd path type major minor => Prog.exec (Fs.exec sb) (do
      Code.beginOp
      let _ ← Code.create cwd path type major minor
      return ())
  | .link cwd old new => Prog.exec (Fs.exec sb) (Code.sysLink cwd old new >>= fun _ => pure ())
  | .unlink cwd path => Prog.exec (Fs.exec sb) (Code.sysUnlink cwd path >>= fun _ => pure ())

/-- The contract of a call of the inode layer. -/
def legalCmd (sb : Superblock) (s : FsState) : Cmd → Bool
  | .beginOp => true
  | .iget i => i < sb.ninodes
  | .idup i => i < sb.ninodes ∧ 0 < (s.icache i).ref
  | .ilock i => i < sb.ninodes ∧ 0 < (s.icache i).ref
  | .iunlock i => s.Locked sb i
  | .iput i => i < sb.ninodes ∧ 0 < (s.icache i).ref ∧
      ((s.icache i).busy = true → 1 < (s.icache i).ref)
  | .icreate type _ _ => type ≠ 0
  | .stati i => s.Locked sb i
  | .setNlink i _ => s.Locked sb i
  | .readi i _ _ => s.Locked sb i
  | .writei i _ _ => s.Locked sb i ∧ (s.icache i).d.type ≠ T_DIR
  | .panic _ => false

/-- The contract of a call. -/
def legal (sb : Superblock) (s : FsState) : FsOp → Bool
  | .call c => legalCmd sb s c
  | .itrunc i => s.Locked sb i
  | .create cwd _ type _ _ => s.Idle sb cwd ∧ type ≠ 0
  | .link cwd _ _ => s.Idle sb cwd
  | .unlink cwd _ => s.Idle sb cwd

/-- One call of a sequence. -/
def step (sb : Superblock) (s : FsState) (op : FsOp) : Except Stop FsState :=
  if op.legal sb s then
    match op.exec sb s with
    | .ok (_, s') => .ok s'
    | .error e => .error e
  else .error .misuse

end FsOp

/-- A consistent image: blocks have owners as the bitmap says, files are not too large, entries
name inodes of the disk, and every file has a link. -/
structure Consistent (sb : Superblock) (disk : Disk) : Prop where
  own : ∃ own, Own sb disk (dinode sb disk) (slots sb (sizes sb disk)) own
  size : ∀ i < sb.ninodes, (dinode sb disk i).type ≠ 0 → (dinode sb disk i).size ≤ MAXFILE * BSIZE
  bound : ∀ i < sb.ninodes, (nodeOf sb disk i).Bounded sb
  linked : ∀ i < sb.ninodes, (dinode sb disk i).type ≠ 0 → (dinode sb disk i).nlink ≠ 0

/-- The system has been booted from the image: the inode cache is empty. -/
def FsState.boot (disk : Disk) : FsState where
  disk := disk
  icache _ := ⟨0, false, false, ⟨0, 0, 0, 0, 0, fun _ => 0⟩⟩
  nused := 0
  logged := []

/-! ## The invariant -/

/-- The files `N` are sound, if `r` counts the references and the inodes in `K` are locked. -/
structure Tidy (sb : Superblock) (r : ℕ → ℕ) (N : ℕ → Node) (K : List ℕ) : Prop where
  bound : ∀ d, (N d).Bounded sb
  /-- a file without links is held by someone -/
  kept : ∀ i, (N i).Removed → 0 < r i
  out : ∀ i, (N i).type ≠ 0 → i < sb.ninodes
  locked : ∀ i ∈ K, i < sb.ninodes ∧ 0 < r i ∧ (N i).type ≠ 0
  nodup : K.Nodup

/-- The store is a tidy one, with nothing in the hands of a running call. -/
def Store.Settled (sb : Superblock) (a : Store) : Prop :=
  ∃ r N c K, a = .holding r N c [] K ∧ Tidy sb r N K

/-- What holds between two calls. -/
def FsInv (sb : Superblock) (s : FsState) : Prop := ∃ a, Rel sb s a ∧ a.Settled sb

section Tidy

variable {sb : Superblock} {r r' : ℕ → ℕ} {N : ℕ → Node} {c : Cost} {K M : List ℕ} {i : ℕ}

namespace Tidy

section

variable (h : Tidy sb r N K)

include h

/-- Another reference is taken. -/
theorem take (i : ℕ) : Tidy sb (fun j => r j + [i].count j) N K :=
  ⟨h.bound, fun j hj => Nat.add_pos_left (h.kept j hj) _, h.out,
    fun j hj => ⟨(h.locked j hj).1, Nat.add_pos_left (h.locked j hj).2.1 _, (h.locked j hj).2.2⟩,
    h.nodup⟩

theorem lock (hi : i < sb.ninodes) (hr : 0 < r i) (hk : i ∉ K)
    (ht : (N i).type ≠ 0) : Tidy sb r N (i :: K) := by
  refine ⟨h.bound, h.kept, h.out, fun j hj => ?_, nodup_cons.mpr ⟨hk, h.nodup⟩⟩
  rcases mem_cons.mp hj with rfl | hj
  · exact ⟨hi, hr, ht⟩
  · exact h.locked j hj

theorem unlock (i : ℕ) : Tidy sb r N (K.erase i) :=
  ⟨h.bound, h.kept, h.out, fun j hj => h.locked j (mem_of_mem_erase hj), h.nodup.erase i⟩

/-- A file that is held changes, and keeps its type. -/
theorem change {x : Node} (hi : i < sb.ninodes) (hr : 0 < r i)
    (ht : x.type = (N i).type) (hx : x.Bounded sb) : Tidy sb r (update N i x) K := by
  refine ⟨Edit.forall_update (fun _ y => y.Bounded sb) h.bound hx,
    Edit.forall_update (fun j y => y.Removed → 0 < r j) h.kept fun _ => hr,
    Edit.forall_update (fun j y => y.type ≠ 0 → j < sb.ninodes) h.out fun _ => hi,
    fun j hj => ?_, h.nodup⟩
  obtain ⟨h1, h2, h3⟩ := h.locked j hj
  refine ⟨h1, h2, ?_⟩
  rcases eq_or_ne j i with rfl | hne
  · rwa [update_self, ht]
  · rwa [update_of_ne hne]

/-- A new file, which its maker holds and has locked. -/
theorem make {x : Node} (hi : i < sb.ninodes) (hfree : (N i).type = 0)
    (ht : x.type ≠ 0) (hx : x.Bounded sb) :
    Tidy sb (fun j => r j + [i].count j) (update N i x) (i :: K) := by
  have hpos : 0 < r i + [i].count i := by
    rw [count_cons_self]
    omega
  have hne : ∀ j ∈ K, j ≠ i := by
    rintro j hj rfl
    exact (h.locked j hj).2.2 hfree
  refine ⟨Edit.forall_update (fun _ y => y.Bounded sb) h.bound hx,
    Edit.forall_update (fun j y => y.Removed → 0 < r j + [i].count j)
      (fun j hj => Nat.add_pos_left (h.kept j hj) _) fun _ => hpos,
    Edit.forall_update (fun j y => y.type ≠ 0 → j < sb.ninodes) h.out fun _ => hi,
    fun j hj => ?_, nodup_cons.mpr ⟨fun hk => hne i hk rfl, h.nodup⟩⟩
  rcases mem_cons.mp hj with rfl | hj
  · exact ⟨hi, hpos, by rwa [update_self]⟩
  · obtain ⟨h1, h2, h3⟩ := h.locked j hj
    exact ⟨h1, Nat.add_pos_left h2 _, by rwa [update_of_ne (hne j hj)]⟩

/-- A reference is given up. -/
theorem drop (hr : ∀ j, r j = r' j + [i].count j)
    (hk : i ∈ K → 0 < r' i) : Tidy sb r' (release r' N i) K := by
  have hne : ∀ j, j ≠ i → r j = r' j := fun j hj => by
    rw [hr j, count_cons_of_ne hj.symm, count_nil, Nat.add_zero]
  have hcases : ∀ j, release r' N i j = N j ∨ (j = i ∧ r' i = 0 ∧ release r' N i j = .free) := by
    intro j
    rw [release]
    split
    · rename_i hc
      rcases eq_or_ne j i with rfl | hji
      · exact .inr ⟨rfl, hc.1, update_self ..⟩
      · exact .inl (update_of_ne hji ..)
    · exact .inl rfl
  refine ⟨fun d => ?_, fun j hj => ?_, fun j hj => ?_, fun j hj => ?_, h.nodup⟩
  · rcases hcases d with he | ⟨-, -, he⟩ <;> rw [he]
    · exact h.bound d
    · exact fun hc => absurd hc (by decide)
  · rcases eq_or_ne j i with rfl | hji
    · refine Nat.pos_of_ne_zero fun h0 => ?_
      rw [release] at hj
      split at hj
      · rw [update_self] at hj
        exact not_removed_free hj
      · rename_i hc
        exact hc ⟨h0, hj⟩
    · rw [release_of_ne hji] at hj
      rw [← hne j hji]
      exact h.kept j hj
  · rcases hcases j with he | ⟨-, -, he⟩ <;> rw [he] at hj
    · exact h.out j hj
    · exact absurd rfl hj
  · obtain ⟨h1, h2, h3⟩ := h.locked j hj
    rcases hcases j with he | ⟨rfl, h0, -⟩
    · refine ⟨h1, ?_, by rwa [he]⟩
      rcases eq_or_ne j i with rfl | hji
      · exact hk hj
      · rwa [← hne j hji]
    · exact absurd (hk hj) (by omega)

end

/-- What an edit leaves, if nothing was locked before. -/
theorem edit (h : Tidy sb r N []) (V : Volume sb) {e : Edit} (hok : Edit.Ok sb N e)
    (hlt : ∀ i ∈ M, i < sb.ninodes ∧ (e.apply N i).type ≠ 0) (hM : M.Nodup) :
    Tidy sb (fun j => r j + M.count j) (sweep (fun j => r j + M.count j) (e.apply N)) M := by
  refine ⟨fun d => ?_, fun i hi => (removed_sweep hi).1, fun i hi => ?_, fun i hi => ?_, hM⟩
  · rw [sweep]
    split
    · exact fun hc => absurd hc (by decide)
    · exact Edit.bounded hok V.small h.bound d
  · rw [sweep] at hi
    split at hi
    · exact absurd rfl hi
    · exact Edit.out hok h.out i hi
  · obtain ⟨h1, h2⟩ := hlt i hi
    have hpos : 0 < r i + M.count i := Nat.add_pos_right _ (count_pos_iff.mpr hi)
    exact ⟨h1, hpos, by rwa [sweep_of_kept (ρ := fun j => r j + M.count j) fun _ => hpos]⟩

/-- What the calls on directories rely on. -/
theorem ready (h : Tidy sb r N []) (V : Volume sb) {cwd : ℕ} (hlt : cwd < sb.ninodes)
    (hr : 0 < r cwd) (ht : (N cwd).type ≠ 0) : Ready sb False r N cwd where
  bound := h.bound
  kept := h.kept
  closed := False.elim
  small := V.small
  cwd_lt := hlt
  cwd_held := hr
  cwd_used := ht
  root_lt := V.root
  root_used := False.elim

end Tidy

/-- References in the hands of the last call become those of others. -/
theorem holding_fold : Store.holding r N c M K = .holding (fun j => r j + M.count j) N c [] K := rfl

theorem holding_erase (hk : i ∈ K) :
    Store.holding r N c M K = .holding r N c M (i :: K.erase i) := by
  simp only [Store.holding, Store.mk.injEq, true_and, and_true]
  funext j
  simp only [(perm_cons_erase hk).mem_iff]

end Tidy

/-! ## One call -/

section Calls

variable {sb : Superblock} {s : FsState} {a : Store} {r : ℕ → ℕ} {N : ℕ → Node} {c : Cost}
  {K : List ℕ} {i : ℕ}

section

variable (h : Rel sb s (.holding r N c [] K))

include h

/-- What is locked, on both sides. -/
theorem Rel.mem_locked (hl : s.Locked sb i) : i ∈ K := by
  have := (h.busy i hl.1).mpr hl.2
  simpa [Store.holding] using this

theorem Rel.ref_pos (hi : i < sb.ninodes) : 0 < r i ↔ 0 < (s.icache i).ref := by
  rw [← h.ref i hi]
  rfl

/-- A call of the inode layer that keeps to the contract. -/
theorem runs_legalCmd (ht : Tidy sb r N K) {cmd : Cmd} (hl : FsOp.legalCmd sb s cmd = true) :
    Runs sb False (Prog.call cmd) (.holding r N c [] K) fun _ a => a.Settled sb := by
  have href : ∀ i < sb.ninodes, 0 < (s.icache i).ref → 0 < r i := fun i hi => (h.ref_pos hi).mpr
  have hlocked : ∀ i, s.Locked sb i → i ∈ K ∧ i < sb.ninodes ∧ 0 < r i ∧ (N i).type ≠ 0 :=
    fun i hi => ⟨h.mem_locked hi, ht.locked i (h.mem_locked hi)⟩
  cases cmd with
  | beginOp => exact runs_beginOp ⟨r, N, _, K, rfl, ht⟩
  | iget i =>
    rw [FsOp.legalCmd, decide_eq_true_iff] at hl
    exact runs_iget hl (ht.kept i) ⟨_, N, c, K, holding_fold, ht.take i⟩
  | idup i =>
    rw [FsOp.legalCmd, decide_eq_true_iff] at hl
    exact runs_idup hl.1 (href i hl.1 hl.2) ⟨_, N, c, K, holding_fold, ht.take i⟩
  | ilock i =>
    rw [FsOp.legalCmd, decide_eq_true_iff] at hl
    exact runs_ilock hl.1 (href i hl.1 hl.2) False.elim
      fun hk htype => ⟨r, N, c, i :: K, rfl, ht.lock hl.1 (href i hl.1 hl.2) hk htype⟩
  | iunlock i =>
    rw [FsOp.legalCmd, decide_eq_true_iff] at hl
    obtain ⟨hk, hi, -⟩ := hlocked i hl
    rw [holding_erase hk]
    exact runs_iunlock hi ht.nodup.not_mem_erase ⟨r, N, c, K.erase i, rfl, ht.unlock i⟩
  | iput i =>
    rw [FsOp.legalCmd, decide_eq_true_iff] at hl
    obtain ⟨hi, hpos, hbusy⟩ := hl
    have hr0 := href i hi hpos
    obtain ⟨r', hr'⟩ : ∃ r', r' = update r i (r i - 1) := ⟨_, rfl⟩
    have hr : ∀ j, r j = r' j + [i].count j := by
      intro j
      rcases eq_or_ne j i with rfl | hj
      · rw [hr', update_self, count_cons_self, count_nil]
        omega
      · rw [hr', update_of_ne hj, count_cons_of_ne hj.symm, count_nil, Nat.add_zero]
    have hk : i ∈ K → 0 < r' i := by
      intro hk
      have hb : (Store.holding r N c [] K).busy i = true := by simpa [Store.holding] using hk
      have h1 := hbusy ((h.busy i hi).mp hb).2
      have h2 := h.ref i hi
      have h3 : r i = (s.icache i).ref := h2
      rw [hr', update_self]
      omega
    rw [holding_borrow hr]
    exact runs_iput hi hk ⟨r', _, _, K, rfl, ht.drop hr hk⟩
  | icreate type major minor =>
    rw [FsOp.legalCmd, decide_eq_true_iff] at hl
    refine runs_icreate hl fun i h0 hi hfree => ⟨_, _, _, _, holding_fold, ?_⟩
    refine ht.make hi hfree hl fun _ k hk => ?_
    exact absurd hk (by simp [Node.nslots])
  | stati i =>
    rw [FsOp.legalCmd, decide_eq_true_iff] at hl
    obtain ⟨hk, hi, -⟩ := hlocked i hl
    exact runs_stati hi hk ⟨r, N, c, K, rfl, ht⟩
  | setNlink i v =>
    rw [FsOp.legalCmd, decide_eq_true_iff] at hl
    obtain ⟨hk, hi, hpos, -⟩ := hlocked i hl
    exact runs_setNlink hi hk ⟨r, _, _, K, rfl, ht.change hi hpos rfl (ht.bound i)⟩
  | readi i off n =>
    rw [FsOp.legalCmd, decide_eq_true_iff] at hl
    obtain ⟨hk, hi, -⟩ := hlocked i hl
    exact runs_readi hi hk ⟨r, N, c, K, rfl, ht⟩ fun _ _ => ⟨r, N, c, K, rfl, ht⟩
  | writei i off src =>
    rw [FsOp.legalCmd, decide_eq_true_iff] at hl
    obtain ⟨hl, hdir⟩ := hl
    obtain ⟨hk, hi, hpos, -⟩ := hlocked i hl
    have hd := (h.locked ⟨hi, (h.busy i hi).mpr hl.2⟩).2.2.2.2.1
    have hdir : (N i).type ≠ T_DIR := by
      rw [hd, ← h.type_eq hi] at hdir
      exact hdir
    exact runs_writei hi hk ⟨r, N, c, K, rfl, ht⟩ (fun _ => ⟨r, N, c, K, rfl, ht⟩)
      fun _ _ _ _ => ⟨r, _, _, K, rfl, ht.change hi hpos rfl fun hc => absurd hc hdir⟩
  | panic msg =>
    rw [FsOp.legalCmd] at hl
    cases hl

end

/-- What the store does, the code does. -/
theorem wp_of_runs (L : Layout sb) (h : Rel sb s a) {α : Type} {p : Code α}
    (hp : Runs sb False p a fun _ a' => a'.Settled sb) :
    Exec.Wp (Prog.exec (Fs.exec sb) p) s (fun _ s' => FsInv sb s')
      (· ≠ .panic "freeing free block") := by
  have hsim := prog_sim L p s a h
  rcases hf : Prog.exec (Fs.exec sb) p s with e | ⟨x, s'⟩ <;>
    rcases hg : Prog.exec (Store.exec sb) p a with e' | ⟨x', a'⟩ <;> rw [hf, hg] at hsim
  · have hallowed := hp.error hg
    refine .of_error hf ?_
    cases hsim with
    | stop => exact hallowed.2.1
    | wild hw => exact absurd hw hallowed.1
  · cases hsim
  · cases hsim with
    | wild hw => exact absurd hw (hp.error hg).1
  · cases hsim with
    | ok hrel => exact .of_ok hf ⟨a', hrel, hp.ok hg⟩

/-- Nothing is locked in the store either. -/
theorem Rel.idle (h : Rel sb s (.holding r N c [] K)) (ht : Tidy sb r N K) {cwd : ℕ}
    (hidle : s.Idle sb cwd) : K = [] ∧ cwd < sb.ninodes ∧ 0 < r cwd ∧ (N cwd).type ≠ 0 := by
  obtain ⟨hfree, hlt, hr, htype⟩ := hidle
  refine ⟨eq_nil_iff_forall_not_mem.mpr fun i hi => ?_, hlt, (h.ref_pos hlt).mpr hr, ?_⟩
  · obtain ⟨hi', -, -⟩ := ht.locked i hi
    have hb := (h.busy i hi').mp (by simpa [Store.holding] using hi)
    rw [hfree i hi' hb.1] at hb
    cases hb.2
  · rw [← h.type_eq hlt] at htype
    exact htype

/-- **One call** keeps the invariant, and does not free a free block. -/
theorem FsOp.exec_inv (V : Volume sb) (h : FsInv sb s) {op : FsOp} (hl : op.legal sb s = true) :
    Exec.Wp (op.exec sb) s (fun _ s' => FsInv sb s') (· ≠ .panic "freeing free block") := by
  obtain ⟨a, hrel, r, N, c, K, rfl, ht⟩ := h
  cases op with
  | call cmd =>
    exact wp_of_runs V.toLayout hrel
      ((runs_legalCmd hrel ht hl).bind fun _ a' ha => runs_pure.mpr ha)
  | itrunc i =>
    rw [FsOp.legal, decide_eq_true_iff] at hl
    have hk := hrel.mem_locked hl
    obtain ⟨hi, hpos, -⟩ := ht.locked i hk
    obtain ⟨s', hs', hrel'⟩ := itrunc_rel V.toLayout hrel ⟨hi, (hrel.busy i hi).mpr hl.2⟩
    refine .of_ok hs' ⟨_, hrel', r, _, _, K, rfl, ht.change hi hpos rfl fun _ k hk => ?_⟩
    exact absurd hk (by simp [Node.nslots])
  | create cwd path type major minor =>
    rw [FsOp.legal, decide_eq_true_iff] at hl
    obtain ⟨rfl, hlt, hpos, hused⟩ := hrel.idle ht hl.1
    refine wp_of_runs V.toLayout hrel (runs_bind.mpr (runs_beginOp ?_))
    refine (create_spec (ht.ready V hlt hpos hused) path hl.2).bind fun res a' hres => ?_
    obtain ⟨e, c', i1, i2, hok, -, -, rfl, hi⟩ := hres
    refine runs_pure.mpr ⟨_, _, c', res.toList, holding_fold, ht.edit V hok (fun i hmem => ?_) ?_⟩
    · obtain ⟨h1, h2⟩ := hi i (Option.mem_toList.mp hmem)
      exact ⟨h1, h2 ▸ hl.2⟩
    · cases res <;> simp
  | link cwd old new =>
    rw [FsOp.legal, decide_eq_true_iff] at hl
    obtain ⟨rfl, hlt, hpos, hused⟩ := hrel.idle ht hl
    refine wp_of_runs V.toLayout hrel ((sysLink_spec (ht.ready V hlt hpos hused) old new).bind
      fun _ a' hres => ?_)
    obtain ⟨e, c', hok, -, -, hs⟩ := hres
    refine runs_pure.mpr ⟨_, _, c', [], hs, ?_⟩
    exact ht.edit (M := []) V hok (fun i hi => absurd hi not_mem_nil) nodup_nil
  | unlink cwd path =>
    rw [FsOp.legal, decide_eq_true_iff] at hl
    obtain ⟨rfl, hlt, hpos, hused⟩ := hrel.idle ht hl
    refine wp_of_runs V.toLayout hrel ((sysUnlink_spec (ht.ready V hlt hpos hused) path).bind
      fun _ a' hres => ?_)
    obtain ⟨e, c', hok, -, -, hs⟩ := hres
    refine runs_pure.mpr ⟨_, _, c', [], hs, ?_⟩
    exact ht.edit (M := []) V hok (fun i hi => absurd hi not_mem_nil) nodup_nil

end Calls

/-! ## Sequences of calls -/

section Sequences

variable {sb : Superblock} {s : FsState} {disk : Disk} {ops : List FsOp}

theorem Consistent.inv (h : Consistent sb disk) : FsInv sb (.boot disk) := by
  obtain ⟨own, hown⟩ := h.own
  obtain ⟨N, hN⟩ : ∃ N, N = fun i => if i < sb.ninodes then nodeOf sb disk i else .free := ⟨_, rfl⟩
  have hNi : ∀ i < sb.ninodes, N i = nodeOf sb disk i := fun i hi => by
    rw [hN]
    exact if_pos hi
  have hNo : ∀ i, ¬ i < sb.ninodes → N i = .free := fun i hi => by
    rw [hN]
    exact if_neg hi
  refine ⟨.holding (fun _ => 0) N ⟨∅, 0⟩ [] [],
    ⟨⟨⟨own, hown⟩, ?_, ?_, ?_, ?_, ?_⟩, hNi, ?_, ?_, ?_⟩,
    _, N, _, [], rfl, fun d => ?_, fun i hi => ?_, fun i hi => ?_, ?_, nodup_nil⟩
  · exact fun i hi ht => (h.size i hi ht).trans (by decide)
  · exact fun i _ hr => absurd hr (Nat.lt_irrefl 0)
  · exact fun i _ hr => absurd hr (Nat.lt_irrefl 0)
  · exact fun i _ hr => absurd hr (Nat.lt_irrefl 0)
  · simp [FsState.boot]
  · exact fun i _ => rfl
  · intro i _
    simp [FsState.boot, Store.holding]
  · exact ⟨∅, le_rfl, fun b hb => absurd hb not_mem_nil⟩
  · by_cases hd : d < sb.ninodes
    · rw [hNi d hd]
      exact h.bound d hd
    · rw [hNo d hd]
      exact fun hc => absurd hc (by decide)
  · by_cases hlt : i < sb.ninodes
    · rw [hNi i hlt] at hi
      have ht : (dinode sb disk i).type ≠ 0 := by
        rw [← nodeOf_type]
        exact hi.1
      exact absurd ((nodeOf_nlink ht).symm.trans hi.2) (h.linked i hlt ht)
    · rw [hNo i hlt] at hi
      exact absurd hi not_removed_free
  · by_contra hlt
    rw [hNo i hlt] at hi
    exact hi rfl
  · exact fun i hi => absurd hi not_mem_nil

/-- What holds between two calls of a sequence. -/
theorem FsOp.run_inv (V : Volume sb) (hdisk : Consistent sb disk)
    (hrun : run (FsOp.step sb) (.boot disk) ops = .ok s) : FsInv sb s := by
  refine run_invariant (fun s s' op h hs => ?_) hdisk.inv _ _ hrun
  rw [FsOp.step] at hs
  split at hs
  · rename_i hl
    have hwp := FsOp.exec_inv V h hl
    rcases hx : op.exec sb s with e | ⟨u, t⟩ <;> rw [hx] at hs <;> cases hs
    exact hwp.ok hx
  · cases hs

/-- `iupdate` does not touch the other inodes of the block, whatever it writes. -/
theorem dinode_iupdate {s s' : FsState} {i j : ℕ} (h : Fs.iupdate sb i s = .ok ((), s'))
    (hj : j ≠ i) : dinode sb s'.disk j = dinode sb s.disk j := by
  rw [Fs.iupdate, Fs.bind_inode] at h
  by_cases hlt : IBLOCK sb i < FSSIZE
  · have h2 : Fs.bread (IBLOCK sb i) s = .ok (s.disk (IBLOCK sb i), s) := if_pos hlt
    rw [Exec.bind_ok h2] at h
    cases h
    exact Fs.dinode_storeInode_ne hj
  · have h2 : Fs.bread (IBLOCK sb i) s = .error (.panic "incorrect blockno") := if_neg hlt
    rw [Exec.bind_error h2] at h
    cases h

/-- **What is cached agrees with the disk.** Start from a consistent image and make any sequence of
calls: then every entry of the inode cache that is in use, has been read and is not locked holds
the inode that is on disk. And at any time `iupdate` changes the one inode only. -/
theorem FsOp.cached_eq_disk (V : Volume sb) (hdisk : Consistent sb disk)
    (hrun : run (FsOp.step sb) (.boot disk) ops = .ok s) :
    (∀ i < sb.ninodes, 0 < (s.icache i).ref → (s.icache i).valid = true →
      (s.icache i).busy = false → (s.icache i).d = dinode sb s.disk i) ∧
    ∀ (t t' : FsState) (i j : ℕ), Fs.iupdate sb i t = .ok ((), t') → j ≠ i →
      dinode sb t'.disk j = dinode sb t.disk j := by
  obtain ⟨a, hrel, -⟩ := FsOp.run_inv V hdisk hrun
  exact ⟨fun i hi hr hv _ => (hrel.inv.cached i hi hr hv).1,
    fun t t' i j ht hj => dinode_iupdate ht hj⟩

end Sequences

/-! ## Block ownership -/

/-- Every block of the data region has at most one owner, and the bitmap says which have one. Slot
`x` of an inode is a block of the file if `x < MAXFILE`, and `MAXFILE` is its indirect block. -/
structure Owned (sb : Superblock) (disk : Disk) : Prop where
  /-- a file has the blocks that its size asks for -/
  filled : ∀ i < sb.ninodes, (dinode sb disk i).type ≠ 0 → ∀ bn < MAXFILE,
    (ptr disk (dinode sb disk i) bn ≠ 0 ↔ bn < ((dinode sb disk i).size + BSIZE - 1) / BSIZE)
  /-- and an indirect block if it needs one -/
  indirect : ∀ i < sb.ninodes, (dinode sb disk i).type ≠ 0 →
    ((dinode sb disk i).addrs NDIRECT ≠ 0 ↔ NDIRECT * BSIZE < (dinode sb disk i).size)
  distinct : ∀ i < sb.ninodes, ∀ i' < sb.ninodes, (dinode sb disk i).type ≠ 0 →
    (dinode sb disk i').type ≠ 0 → ∀ x ≤ MAXFILE, ∀ x' ≤ MAXFILE,
    ptr disk (dinode sb disk i) x ≠ 0 →
    ptr disk (dinode sb disk i) x = ptr disk (dinode sb disk i') x' → i = i' ∧ x = x'
  marked : ∀ i < sb.ninodes, (dinode sb disk i).type ≠ 0 → ∀ x ≤ MAXFILE,
    ptr disk (dinode sb disk i) x ≠ 0 →
    dataStart sb ≤ ptr disk (dinode sb disk i) x ∧ ptr disk (dinode sb disk i) x < sb.size ∧
      bitOf sb disk (ptr disk (dinode sb disk i) x) = true
  /-- no other data block is marked -/
  owner : ∀ b, dataStart sb ≤ b → b < sb.size → bitOf sb disk b = true →
    ∃ i x, i < sb.ninodes ∧ (dinode sb disk i).type ≠ 0 ∧ x ≤ MAXFILE ∧
      ptr disk (dinode sb disk i) x = b

theorem Inv.owned {sb : Superblock} {s : FsState} (h : Inv sb s) : Owned sb s.disk := by
  obtain ⟨own, hown⟩ := h.own
  have hslot : ∀ i < sb.ninodes, (dinode sb s.disk i).type ≠ 0 → ∀ x ≤ 140,
      (ptr s.disk (dinode sb s.disk i) x ≠ 0 ↔
        Filled (((dinode sb s.disk i).size + 511) / 512) x) := by
    intro i hi ht x hx
    rw [hown.ptr_ne_zero_iff hi ht hx, slots, sizes, nblocks_nodeOf ht]
    exact and_iff_right hi
  have hneed : ∀ i < sb.ninodes, (dinode sb s.disk i).type ≠ 0 → ∀ x ≤ 140,
      ptr s.disk (dinode sb s.disk i) x ≠ 0 → slots sb (sizes sb s.disk) i x :=
    fun i hi ht x hx => (hown.ptr_ne_zero_iff hi ht hx).mp
  refine ⟨fun i hi ht bn hbn => ?_, fun i hi ht => ?_,
    fun i hi i' hi' ht ht' x hx x' hx' h0 he => ?_,
    fun i hi ht x hx h0 => ?_, fun b hb hb' hbit => ?_⟩
  · have hbn : bn < 140 := hbn
    rw [hslot i hi ht bn hbn.le, filled_iff]
    show _ ↔ bn < ((dinode sb s.disk i).size + 512 - 1) / 512
    omega
  · have hblock := hslot i hi ht 140 le_rfl
    have hle := h.size i hi ht
    rw [ptr_block le_rfl, filled_iff] at hblock
    show (dinode sb s.disk i).addrs 12 ≠ 0 ↔ 12 * 512 < _
    rw [hblock]
    omega
  · exact hown.ptr_inj (hneed i hi ht x hx h0) (hneed i' hi' ht' x' hx' (he ▸ h0)) he
  · have hn := hneed i hi ht x hx h0
    obtain ⟨h1, h2⟩ := hown.ptr_range hn
    refine ⟨h1, h2, (hown.bits _ h2).mpr (.inr ?_)⟩
    rw [hown.ptr_own i x hn]
    exact Option.some_ne_none _
  · rcases (hown.bits b hb').mp hbit with hlt | ho
    · exact absurd hlt (Nat.not_lt.mpr hb)
    · obtain ⟨⟨i, x⟩, ho⟩ := Option.ne_none_iff_exists'.mp ho
      obtain ⟨hn, hp, -⟩ := hown.own_need b i x ho
      obtain ⟨h1, h2, h3⟩ := hown.need_lt i x hn
      exact ⟨i, x, h1, h2, h3, hp⟩

/-- `readi` only reads: its `bmap` finds every block, and allocates none. -/
theorem readi_same {sb : Superblock} {s : FsState} {a : Store} (L : Layout sb) (h : Rel sb s a)
    {i : ℕ} (hl : a.Locked sb i) (off n : ℕ) :
    Exec.Wp (Fs.readi sb i off n) s (fun _ s' => s' = s) fun _ => True := by
  obtain ⟨hi, href, hb, hv, hd, ht⟩ := h.locked hl
  obtain ⟨own, hown⟩ := h.inv.own
  rw [Exec.Wp, Fs.readi, Fs.bind_inode, hd]
  by_cases hdev : (dinode sb s.disk i).type = T_DEV
  · rw [if_pos hdev]
    by_cases hm : Fs.hasDriver (dinode sb s.disk i) = true
    · rw [if_pos hm]
      trivial
    · rw [if_neg hm]
      rfl
  rw [if_neg hdev]
  by_cases hbad : off > (dinode sb s.disk i).size ∨ off + n ≥ 2 ^ 32
  · rw [if_pos hbad]
    rfl
  obtain ⟨hk, hk'⟩ := h.sizes_eq hi ht
  have hread := Fs.readLoop_spec L (Inv.mid (t := s) rfl hd hown) hi hk'
    (if off + n > (dinode sb s.disk i).size then (dinode sb s.disk i).size - off else n) off
    (if off + n > (dinode sb s.disk i).size then (dinode sb s.disk i).size - off else n) le_rfl
    (by split <;> omega)
  rw [if_neg hbad, Exec.bind_ok hread]
  rfl

/-- **Every block has one owner.** Start from a consistent image and make any sequence of calls:
then the blocks of the files are theirs alone, and the bitmap marks exactly these. So no call
frees a block that is free, and reading does not allocate: it leaves everything as it is. -/
theorem FsOp.block_ownership {sb : Superblock} {s : FsState} {disk : Disk} {ops : List FsOp}
    (V : Volume sb) (hdisk : Consistent sb disk)
    (hrun : run (FsOp.step sb) (.boot disk) ops = .ok s) :
    Owned sb s.disk ∧
    (∀ op : FsOp, op.legal sb s = true → op.exec sb s ≠ .error (.panic "freeing free block")) ∧
    ∀ i off n x s', s.Locked sb i → Fs.readi sb i off n s = .ok (x, s') → s' = s := by
  have hinv := FsOp.run_inv V hdisk hrun
  refine ⟨?_, fun op hl he => (FsOp.exec_inv V hinv hl).error he rfl, fun i off n x s' hl hs => ?_⟩
  · obtain ⟨a, hrel, -⟩ := hinv
    exact hrel.inv.owned
  · obtain ⟨a, hrel, -⟩ := hinv
    exact (readi_same V.toLayout hrel ⟨hl.1, (hrel.busy i hl.1).mpr hl.2⟩ off n).ok hs

/-! ## An image without files -/

/-- The image on which no inode is in use. -/
def formatted : Disk := fun b =>
  if b = Mkfs.sb.bmapstart then fun i => if i.val < 7 then 255 else if i.val = 7 then 7 else 0
  else Bytes.zero

theorem bitOf_formatted : ∀ b < 1000, bitOf Mkfs.sb formatted b =
    decide (b < dataStart Mkfs.sb) := by
  decide +kernel

theorem dinode_formatted {i : ℕ} (hi : i < Mkfs.sb.ninodes) :
    (dinode Mkfs.sb formatted i).type = 0 := by
  have h : formatted (IBLOCK Mkfs.sb i) = Bytes.zero :=
    if_neg (Nat.ne_of_lt (IBLOCK_lt layout_mkfs hi))
  rw [dinode, h]
  simp [Dinode.read, Bytes.u16]

theorem consistent_formatted : Consistent Mkfs.sb formatted := by
  have hsizes : ∀ i < Mkfs.sb.ninodes, sizes Mkfs.sb formatted i = 0 := fun i hi => by
    rw [sizes, nodeOf_free (dinode_formatted hi)]
    exact nblocks_free
  have hneed : ∀ i x, ¬ slots Mkfs.sb (sizes Mkfs.sb formatted) i x := by
    rintro i x ⟨hi, hf⟩
    rw [hsizes i hi, filled_iff] at hf
    omega
  refine ⟨⟨fun _ => none, fun i x hn => absurd hn (hneed i x), fun i x hn => absurd hn (hneed i x),
    fun i x hi ht => absurd (dinode_formatted hi) ht, fun b i x ho => absurd ho.symm
      (Option.some_ne_none _), fun b hb => ?_⟩,
    fun i hi ht => absurd (dinode_formatted hi) ht, fun i hi => ?_,
    fun i hi ht => absurd (dinode_formatted hi) ht⟩
  · rw [bitOf_formatted b hb]
    simp
  · rw [nodeOf_free (dinode_formatted hi)]
    exact fun hc => absurd hc (by decide)

/-- A file is made, written and closed: its inode is in the cache as it is on disk. -/
theorem FsOp.cached_eq_disk_newFile : ∃ s : FsState, run (FsOp.step Mkfs.sb) (.boot formatted)
      [.call (.icreate T_FILE 0 0), .call (.writei 1 0 [104, 105]), .call (.iunlock 1)] = .ok s ∧
    (s.icache 1).d.size = 2 ∧ (s.icache 1).d = dinode Mkfs.sb s.disk 1 := by
  obtain ⟨s, hs, h1, h2, h3, h4⟩ := exists_ok_of_check (P := fun s : FsState =>
    (s.icache 1).d.size = 2 ∧ 0 < (s.icache 1).ref ∧ (s.icache 1).valid = true ∧
      (s.icache 1).busy = false)
    (x := run (FsOp.step Mkfs.sb) (.boot formatted)
      [.call (.icreate T_FILE 0 0), .call (.writei 1 0 [104, 105]), .call (.iunlock 1)])
    (by decide)
  exact ⟨s, hs, h1, (FsOp.cached_eq_disk volume_mkfs consistent_formatted hs).1 1 (by decide)
    h2 h3 h4⟩

/-- The file is truncated again: the image it leaves is in order. -/
theorem FsOp.block_ownership_itrunc : ∃ s : FsState, run (FsOp.step Mkfs.sb) (.boot formatted)
      [.call (.icreate T_FILE 0 0), .call (.writei 1 0 [104, 105]), .itrunc 1] = .ok s ∧
    s.Locked Mkfs.sb 1 ∧ Owned Mkfs.sb s.disk := by
  obtain ⟨s, hs, hl⟩ := exists_ok_of_check (P := fun s : FsState => s.Locked Mkfs.sb 1)
    (x := run (FsOp.step Mkfs.sb) (.boot formatted)
      [.call (.icreate T_FILE 0 0), .call (.writei 1 0 [104, 105]), .itrunc 1])
    (by decide +kernel)
  exact ⟨s, hs, hl, (FsOp.block_ownership volume_mkfs consistent_formatted hs).1⟩

end Xv6
