import Xv6.Edit

/-!
# The effect of each transaction

For the transactions that change directories, from `begin_op` to `end_op`: which edit they make,
which references they leave, and that they stay within `MAXOPBLOCKS` blocks. `Effect` states this
about the store at the end; `link` and `unlink` have a theorem each, and so has `create`, which
`open`, `mkdir` and `mknod` call.
-/

namespace Xv6

open Function List

/-! ## Counting logged blocks -/

/-- What has been logged lies in these blocks of inodes, and `b` others. -/
def Cost.Spends (c : Cost) (s : Finset ℕ) (b : ℕ) : Prop := c.inodes ⊆ s ∧ c.blocks ≤ b

variable {x : Node}

namespace Cost.Spends

variable {c : Cost} {s : Finset ℕ} {b i : ℕ}

theorem zero : (⟨∅, 0⟩ : Cost).Spends s b := ⟨Finset.empty_subset s, Nat.zero_le b⟩

theorem inode (h : c.Spends s b) (hi : i / 8 ∈ s) : (c.inode i).Spends s b :=
  ⟨Finset.insert_subset hi h.1, h.2⟩

theorem release (h : c.Spends s b) (hi : i / 8 ∈ s) {ρ : ℕ → ℕ} {N : ℕ → Node} :
    (releaseCost ρ N c i).Spends s b := by
  rw [releaseCost]
  split
  · exact h.inode hi
  · exact h

/-- A new entry: the block it is in, and maybe an indirect block. -/
theorem add (h : c.Spends s b) (hi : i / 8 ∈ s) : (addCost c x i).Spends s (b + 2) := by
  obtain ⟨h1, h2⟩ := h
  have hone : (16 * x.freeSlot + 16 + 511) / 512 - 16 * x.freeSlot / 512 ≤ 1 := by omega
  rw [addCost, Store.writeCost]
  split
  · refine ⟨Finset.insert_subset hi h1, ?_⟩
    simp only
    split <;> omega
  · exact ⟨h1, by simp only; omega⟩

theorem clear (h : c.Spends s b) {k : ℕ} (hk : k < x.nslots) :
    (writtenCost c x i (16 * k) (List.replicate 16 0)).Spends s (b + 1) := by
  obtain ⟨h1, h2⟩ := h
  rw [Node.nslots] at hk
  rw [writtenCost, if_neg (by simp), length_replicate, Store.writeCost, if_neg (by omega)]
  exact ⟨h1, by simp only; omega⟩

/-- Blocks of at most two inodes, and a few others. -/
theorem bound_le {i1 i2 : ℕ} (h : c.Spends {i1, i2} b) (hb : b ≤ 7) : c.bound ≤ MAXOPBLOCKS := by
  have h1 := Finset.card_le_card h.1
  have h2 := h.2
  have h3 : ({i1, i2} : Finset ℕ).card ≤ 2 := Finset.card_le_two
  rw [Cost.bound]
  show 1 + c.inodes.card + c.blocks ≤ 10
  omega

end Cost.Spends

/-! ## What stays true while a call runs -/

section Steady

variable {sb : Superblock} {D : Prop} {r : ℕ → ℕ} {N : ℕ → Node} {M : List ℕ} {i j : ℕ}

theorem Steady.cons (h : Steady sb D r N M) : Steady sb D r N (j :: M) :=
  ⟨h.bound, fun _ hr => h.kept_cons hr, h.closed⟩

theorem Steady.sweep_eq (h : Steady sb D r N []) :
    sweep (fun j => r j + ([] : List ℕ).count j) N = N :=
  sweep_eq_self h.kept

section

variable (h : Steady sb D r N M) (hi : 0 < r i + M.count i)

include h hi

/-- Changing a file that is held, without changing types and such that its entries stay sound. -/
theorem Steady.change (ht : (N i).type ≠ 0 → x.type ≠ 0)
    (hb : x.type = T_DIR → ∀ k < x.nslots, (x.entry k).inum < sb.ninodes)
    (hc : D → x.type = T_DIR → ∀ k < x.nslots, (x.entry k).inum ≠ 0 →
      (update N i x (x.entry k).inum).type ≠ 0) : Steady sb D r (update N i x) M := by
  have htype : ∀ j, (N j).type ≠ 0 → (update N i x j).type ≠ 0 := by
    intro j hj
    by_cases hji : j = i
    · subst hji
      rw [update_self]
      exact ht hj
    · rwa [update_of_ne hji]
  refine ⟨fun d hd => ?_, fun j hj => ?_, fun hD d hd => ?_⟩
  · by_cases hdi : d = i
    · subst hdi
      rw [update_self] at hd ⊢
      exact hb hd
    · rw [update_of_ne hdi] at hd ⊢
      exact h.bound d hd
  · by_cases hji : j = i
    · subst hji
      exact hi
    · rw [update_of_ne hji] at hj
      exact h.kept j hj
  · by_cases hdi : d = i
    · subst hdi
      rw [update_self] at hd ⊢
      exact hc hD hd
    · rw [update_of_ne hdi] at hd ⊢
      exact fun k hk h0 => htype _ (h.closed hD d hd k hk h0)

theorem Steady.withNlink (v : UInt16) : Steady sb D r (update N i ((N i).withNlink v)) M := by
  refine h.change hi id (h.bound i) fun hD hd k hk h0 => ?_
  have := h.closed hD i hd k hk h0
  by_cases he : ((N i).entry k).inum = i
  · rw [show ((N i).withNlink v).entry k = (N i).entry k from rfl, he, update_self]
    rw [he] at this
    exact this
  · rwa [show ((N i).withNlink v).entry k = (N i).entry k from rfl, update_of_ne he]

theorem Steady.addEntry (hs : sb.ninodes ≤ 65536) (hj : j < sb.ninodes) (hjD : D → (N j).type ≠ 0)
    (ht : (N i).type = T_DIR) (name : List UInt8) :
    Steady sb D r (update N i ((N i).addEntry name j)) M := by
  have hentry : ∀ k < ((N i).addEntry name j).nslots, (((N i).addEntry name j).entry k).inum = j ∨
        (k < (N i).nslots ∧ ((N i).addEntry name j).entry k = (N i).entry k) := by
    intro k hk
    by_cases hkf : k = (N i).freeSlot
    · left
      rw [hkf, Node.entry_addEntry_self (by omega)]
    · rw [Node.nslots_addEntry] at hk
      have := (N i).freeSlot_le
      exact .inr ⟨by omega, Node.entry_addEntry_ne hkf⟩
  have htype : ∀ l, (N l).type ≠ 0 →
      (update N i ((N i).addEntry name j) l).type ≠ 0 := by
    intro l hl
    by_cases hli : l = i
    · subst hli
      rwa [update_self]
    · rwa [update_of_ne hli]
  refine h.change hi id (fun _ k hk => ?_) fun hD _ k hk h0 => htype _ ?_
  · rcases hentry k hk with he | ⟨hlt, he⟩
    · rwa [he]
    · rw [he]
      exact h.bound i ht k hlt
  rcases hentry k hk with he | ⟨hlt, he⟩
  · rw [he]
    exact hjD hD
  · rw [he] at h0 ⊢
    exact h.closed hD i ht k hlt h0

end

end Steady

/-! ## The effect of a transaction -/

/-- At the end of a transaction: an edit has been made, the references in `M` are left, and not too
many blocks are logged. -/
def Effect (sb : Superblock) (r : ℕ → ℕ) (N : ℕ → Node) (M : List ℕ) (P : Edit → Prop)
    (s : Store) : Prop :=
  ∃ e c, Edit.Ok sb N e ∧ P e ∧ c.bound ≤ MAXOPBLOCKS ∧
    s = .holding r (sweep (fun j => r j + M.count j) (e.apply N)) c M []

/-- Where paths start. -/
structure Based (sb : Superblock) (D : Prop) (r : ℕ → ℕ) (N : ℕ → Node) (cwd : ℕ) : Prop where
  small : sb.ninodes ≤ 65536
  cwd_lt : cwd < sb.ninodes
  cwd_held : 0 < r cwd
  cwd_used : (N cwd).type ≠ 0
  root_lt : ROOTINO < sb.ninodes
  root_used : D → (N ROOTINO).type ≠ 0

/-- What a transaction of a process with this current directory relies on. -/
structure Ready (sb : Superblock) (D : Prop) (r : ℕ → ℕ) (N : ℕ → Node) (cwd : ℕ) : Prop
    extends Steady sb D r N [], Based sb D r N cwd

theorem Based.mono {sb : Superblock} {D : Prop} {r : ℕ → ℕ} {N N' : ℕ → Node} {cwd : ℕ}
    (h : Based sb D r N cwd) (ht : ∀ j, (N j).type ≠ 0 → (N' j).type ≠ 0) : Based sb D r N' cwd :=
  ⟨h.small, h.cwd_lt, h.cwd_held, ht _ h.cwd_used, h.root_lt, fun hD => ht _ (h.root_used hD)⟩

/-- The inode that a path leads to. -/
def resolve (N : ℕ → Node) (cwd : ℕ) (path : List UInt8) : Option ℕ :=
  (walk N cwd path false).map Prod.fst

/-- The directory and the name in it that a path leads to. -/
def resolveParent (N : ℕ → Node) (cwd : ℕ) (path : List UInt8) : Option (ℕ × List UInt8) :=
  walk N cwd path true

/-- Paths do not depend on link counts. -/
theorem walkFrom_congr {N N' : ℕ → Node} {np : Bool}
    (h : ∀ j, (N' j).type = (N j).type ∧ (N' j).data = (N j).data) :
    ∀ (fuel ip : ℕ) (path : List UInt8), walkFrom N' np fuel ip path =
      walkFrom N np fuel ip path := by
  have hlookup : ∀ j name, (N' j).lookup name = (N j).lookup name := by
    intro j name
    have he : ∀ k, (N' j).entry k = (N j).entry k := fun k => by
      rw [Node.entry, (h j).2]
      rfl
    have hn : (N' j).hasName name = (N j).hasName name := funext fun k => by
      rw [Node.hasName, he]
      rfl
    have hl : (N' j).nslots = (N j).nslots := by
      rw [Node.nslots, (h j).2]
      rfl
    rw [Node.lookup, Node.lookup, Node.slotOf, Node.slotOf, hn, hl]
    simp only [he]
  intro fuel
  induction fuel with
  | zero =>
    intro ip path
    rfl
  | succ fuel ih =>
    intro ip path
    simp only [walkFrom, (h ip).1, hlookup, ih]

theorem held_self (r : ℕ → ℕ) (i : ℕ) (M : List ℕ) : 0 < r i + (i :: M).count i := by
  rw [count_cons_self]
  omega

section Calls

variable {sb : Superblock} {D : Prop} {r : ℕ → ℕ} {N : ℕ → Node} {c : Cost} {M : List ℕ} {cwd : ℕ}

/-- Nothing has changed. -/
theorem Effect.nothing (h : Steady sb D r N []) {P : Edit → Prop} (hP : P .none)
    (hc : c.bound ≤ MAXOPBLOCKS) : Effect sb r N [] P (.holding r N c [] []) :=
  ⟨.none, c, trivial, hP, hc, by rw [Edit.apply, h.sweep_eq]⟩

theorem bound_zero : (⟨∅, 0⟩ : Cost).bound ≤ MAXOPBLOCKS := by decide

/-- Looking up a path, with whatever else is held. -/
theorem namei_spec (h : Based sb D r N cwd) (hM : Steady sb D r N M) (path : List UInt8) :
    Runs sb D (Code.namei cwd path) (.holding r N c M []) fun res s =>
      res = resolve N cwd path ∧ s = .holding r N c (res.toList ++ M) [] ∧
        ∀ ip, res = some ip → ip < sb.ninodes ∧ (D → (N ip).type ≠ 0) := by
  refine (namex_spec hM h.cwd_lt h.cwd_held (fun _ => h.cwd_used) h.root_lt h.root_used path).bind
    fun res s ⟨hres, hs, hreach⟩ => ?_
  subst hs
  rw [resolve, ← hres]
  rcases res with _ | ⟨ip, name⟩
  · refine runs_pure.mpr ⟨rfl, rfl, ?_⟩
    rintro ip ⟨⟩
  · refine runs_pure.mpr ⟨rfl, rfl, fun x hx => ?_⟩
    cases hx
    have := hreach _ rfl
    exact ⟨this.1, this.2.1⟩

theorem nameiparent_spec (h : Based sb D r N cwd) (hM : Steady sb D r N M) (path : List UInt8) :
    Runs sb D (Code.nameiparent cwd path) (.holding r N c M []) fun res s =>
      res = resolveParent N cwd path ∧ s = .holding r N c (found M res) [] ∧
        ∀ d name, res = some (d, name) → d < sb.ninodes ∧ (N d).type = T_DIR := by
  refine (namex_spec hM h.cwd_lt h.cwd_held (fun _ => h.cwd_used) h.root_lt h.root_used path).mono
    fun res s ⟨hres, hs, hreach⟩ => ⟨hres, hs, fun d name hd => ?_⟩
  obtain ⟨h1, -, h2⟩ := hreach (d, name) hd
  exact ⟨h1, h2 rfl⟩

/-! ### `link` -/

/-- Taking back the link of a `link` that failed. -/
theorem linkBad_spec (h : Steady sb D r N []) {i : ℕ} (hi : i < sb.ninodes)
    (ht : (N i).type ≠ 0) {s : Finset ℕ} {b : ℕ} (hc : c.Spends s b) (his : i / 8 ∈ s)
    {Q : ℤ → Store → Prop} (hQ : ∀ c', c'.Spends s b → Q (-1) (.holding r N c' [] [])) :
    Runs sb D (Code.linkBad i)
      (.holding r (update N i ((N i).withNlink ((N i).nlink + 1))) c [i] []) Q := by
  have hN : update (update N i ((N i).withNlink ((N i).nlink + 1))) i
      ((update N i ((N i).withNlink ((N i).nlink + 1)) i).withNlink
        ((update N i ((N i).withNlink ((N i).nlink + 1)) i).nlink - 1)) = N := by
    have hback : ((N i).withNlink ((N i).nlink + 1)).withNlink
        (((N i).withNlink ((N i).nlink + 1)).nlink - 1) = N i := by
      simp only [Node.withNlink, UInt16.add_sub_cancel]
    rw [update_idem, update_self, hback, update_eq_self]
  refine runs_bind.mpr (runs_ilock hi (held_self ..) (fun _ => ?_) fun hk _ => ?_)
  · rwa [update_self]
  refine runs_bind.mpr (runs_stati hi (mem_cons_self ..) ?_)
  refine runs_bind.mpr (runs_setNlink hi (mem_cons_self ..) ?_)
  rw [hN]
  exact runs_bind.mpr (runs_iunlockput_keep hi not_mem_nil (h.kept i)
    (runs_pure.mpr (hQ _ (hc.inode his))))

/-- **`link`** adds an entry for a file that is not a directory. -/
theorem sysLink_spec (h : Ready sb D r N cwd) (old new : List UInt8) :
    Runs sb D (Code.sysLink cwd old new) (.holding r N c [] []) fun _ s =>
      Effect sb r N [] (fun e => e = .none ∨ ∃ i d name, resolve N cwd old = some i ∧
        resolveParent N cwd new = some (d, name) ∧ e = .link d name i) s := by
  refine runs_bind.mpr (runs_beginOp ?_)
  refine (namei_spec h.toBased h.toSteady old).bind fun res s ⟨hres, hs, hreach⟩ => ?_
  subst hs
  rcases res with _ | i
  · exact runs_pure.mpr (.nothing h.toSteady (.inl rfl) bound_zero)
  obtain ⟨hi, hD⟩ := hreach i rfl
  refine runs_bind.mpr (runs_ilock hi (held_self ..) hD fun hk ht => ?_)
  refine runs_bind.mpr (runs_stati hi (mem_cons_self ..) ?_)
  by_cases hdir : (N i).type = T_DIR
  · simp only [hdir, if_true]
    exact runs_bind.mpr (runs_iunlockput_keep hi not_mem_nil (h.kept i)
      (runs_pure.mpr (.nothing h.toSteady (.inl rfl) bound_zero)))
  simp only [hdir, if_false]
  refine runs_bind.mpr (runs_setNlink hi (mem_cons_self ..) ?_)
  refine runs_bind.mpr (runs_iunlock hi not_mem_nil ?_)
  -- the count is raised while the new name is looked up
  have hN1 : Steady sb D r (update N i ((N i).withNlink ((N i).nlink + 1))) [i] :=
    h.toSteady.cons.withNlink (held_self ..) _
  set N1 := update N i ((N i).withNlink ((N i).nlink + 1)) with hN₁eq
  have hsame : ∀ j, (N1 j).type = (N j).type ∧ (N1 j).data = (N j).data := by
    intro j
    rw [hN₁eq]
    by_cases hj : j = i
    · subst hj
      rw [update_self]
      exact ⟨rfl, rfl⟩
    · rw [update_of_ne hj]
      exact ⟨rfl, rfl⟩
  have hbad : ∀ c' : Cost, c'.Spends {i / 8, i / 8} 4 → Runs sb D (Code.linkBad i)
      (.holding r N1 c' [i] []) fun _ s => Effect sb r N [] (fun e => e = .none ∨
        ∃ i d name, resolve N cwd old = some i ∧ resolveParent N cwd new = some (d, name) ∧
          e = .link d name i) s := by
    intro c' hc'
    refine linkBad_spec h.toSteady hi ht hc' (Finset.mem_insert_self ..) fun c'' hc'' => ?_
    exact .nothing h.toSteady (.inl rfl) (hc''.bound_le (by omega))
  have hwalk : resolveParent N1 cwd new = resolveParent N cwd new := walkFrom_congr hsame _ _ _
  refine (nameiparent_spec (h.toBased.mono fun j hj => (hsame j).1 ▸ hj) hN1 new).bind
    fun res' s ⟨hres', hs, hreach'⟩ => ?_
  subst hs
  rcases res' with _ | ⟨d, name⟩
  · exact hbad _ (Cost.Spends.zero.inode (Finset.mem_insert_self ..))
  obtain ⟨hd, hdt⟩ := hreach' d name rfl
  have hdi : d ≠ i := by
    rintro rfl
    exact hdir ((hsame d).1 ▸ hdt)
  refine runs_bind.mpr (runs_ilock hd (held_self ..) (fun _ => by rw [hdt]; decide) fun hk' _ => ?_)
  refine (dirlink_spec hN1.cons hd (mem_cons_self ..) (by simp)).bind fun w s ⟨_, hw⟩ => ?_
  rcases hw with ⟨rfl, -, rfl⟩ | ⟨rfl, hadd, rfl⟩
  · exact runs_bind.mpr (runs_iunlockput_keep hd not_mem_nil (hN1.kept d)
      (hbad _ (Cost.Spends.zero.inode (Finset.mem_insert_self ..))))
  have hN₁d : N1 d = N d := update_of_ne hdi _ _
  have hcost : (addCost (Cost.inode ⟨∅, 0⟩ i) (N1 d) d).Spends {i / 8, d / 8} 2 :=
    (Cost.Spends.zero.inode (by simp)).add (b := 0) (by simp)
  refine runs_bind.mpr (runs_iunlockput_keep hd not_mem_nil (fun hr => hN1.kept d ?_) ?_)
  · rw [update_self] at hr
    exact hr
  refine runs_bind.mpr (runs_iput hi (fun hk => absurd hk not_mem_nil) (runs_pure.mpr ?_))
  have hN2 : update N1 d ((N1 d).addEntry name i) = Edit.apply N (.link d name i) := by
    rw [hN₁d]
    rfl
  rw [release_eq_sweep, hN2]
  · exact ⟨.link d name i, _, ⟨⟨hd, hN₁d ▸ hdt, hN₁d ▸ hadd.fresh⟩, hi, ht, hdir⟩,
      .inr ⟨i, d, name, hres.symm, by rw [← hwalk, ← hres'], rfl⟩,
      (hcost.release (by simp)).bound_le (by omega), rfl⟩
  intro j hj hr
  by_cases hjd : j = d
  · subst hjd
    rw [update_self, hN₁d] at hr
    exact h.kept j hr
  · rw [update_of_ne hjd, hN₁eq, update_of_ne hj] at hr
    exact h.kept j hr

/-! ### `unlink` -/

variable {K : List ℕ}

theorem isdiremptyFrom_spec {i : ℕ} (hi : i < sb.ninodes) (hk : i ∈ K) :
    ∀ (fuel k : ℕ), (N i).nslots < fuel + k →
    Runs sb D (Code.isdiremptyFrom i (N i).data.length fuel (16 * k)) (.holding r N c M K)
      fun b s => s = .holding r N c M K ∧
        (b = true → ∀ l, k ≤ l → l < (N i).nslots → ((N i).entry l).inum = 0) := by
  intro fuel
  induction fuel with
  | zero =>
    intro k hfuel
    exact runs_pure.mpr ⟨rfl, fun _ l h1 h2 => absurd hfuel (by omega)⟩
  | succ fuel ih =>
    intro k hfuel
    rw [Code.isdiremptyFrom]
    by_cases hoff : 16 * k < (N i).data.length
    swap
    · rw [if_neg hoff]
      refine runs_pure.mpr ⟨rfl, fun _ l h1 h2 => ?_⟩
      rw [Node.nslots] at h2
      omega
    rw [if_pos hoff]
    refine runs_bind.mpr (readDirent_spec hi hk (allowed_panic (by decide) (by decide))
      fun hlt => ?_)
    by_cases h0 : ((N i).entry k).inum = 0
    · rw [if_neg (not_not.mpr h0)]
      refine (ih (k + 1) (by omega)).mono fun b s hq => ⟨hq.1, fun hb' l h1 h2 => ?_⟩
      rcases Nat.eq_or_lt_of_le h1 with rfl | h1
      · exact h0
      · exact hq.2 hb' l h1 h2
    · rw [if_pos h0]
      exact runs_pure.mpr ⟨rfl, by simp⟩

/-- The two `iput` of `unlink` are one sweep. -/
theorem release_release {i d : ℕ} {x y : Node} (hne : i ≠ d)
    (h : ∀ j, (N j).Removed → 0 < r j + ([] : List ℕ).count j) :
    release (fun j => r j + ([] : List ℕ).count j) (update
      (release (fun j => r j + [i].count j) (update N d x) d) i y) i =
      sweep (fun j => r j + ([] : List ℕ).count j) (update (update N d x) i y) := by
  have hcount : [i].count d = ([] : List ℕ).count d :=
    count_cons_of_ne hne
  set ρ : ℕ → ℕ := fun j => r j + ([] : List ℕ).count j with hρ
  have hfirst : release (fun j => r j + [i].count j) (update N d x) d =
      update N d (sweep ρ (update N d x) d) := by
    rw [release, sweep, update_self, hcount]
    by_cases hc : r d + ([] : List ℕ).count d = 0 ∧ x.Removed
    · rw [if_pos hc, if_pos hc, update_idem]
    · rw [if_neg hc, if_neg hc]
  rw [hfirst, release_eq_sweep]
  · -- sweeping twice is sweeping once
    have hupd : update (update N d (sweep ρ (update N d x) d)) i y =
        fun j => if j = d then sweep ρ (update (update N d x) i y) j
          else update (update N d x) i y j := by
      funext j
      by_cases hjd : j = d
      · subst hjd
        rw [if_pos rfl, update_of_ne hne.symm, update_self, sweep, sweep, update_of_ne hne.symm]
      rw [if_neg hjd]
      by_cases hji : j = i
      · subst hji
        rw [update_self, update_self]
      · rw [update_of_ne hji, update_of_ne hji, update_of_ne hjd, update_of_ne hjd]
    rw [hupd]
    funext j
    by_cases hjd : j = d
    · subst hjd
      have := congrFun (sweep_sweep (N := update (update N j x) i y) fun j => le_refl (ρ j)) j
      rw [← this, sweep, if_pos rfl]
      rfl
    · rw [sweep, if_neg hjd]
      rfl
  · intro j hji hr
    rw [update_of_ne hji] at hr
    by_cases hjd : j = d
    · subst hjd
      rw [update_self] at hr
      exact (removed_sweep hr).1
    · rw [update_of_ne hjd] at hr
      exact h j hr

/-- A directory is removable only if it has no entries other than the dots. -/
theorem removable_spec {i : ℕ} (hi : i < sb.ninodes) (hk : i ∈ K) :
    Runs sb D (Code.removable i (N i).type) (.holding r N c M K) fun b s =>
      s = .holding r N c M K ∧ (b = true → (N i).type = T_DIR →
        ∀ l, 2 ≤ l → l < (N i).nslots → ((N i).entry l).inum = 0) := by
  rw [Code.removable]
  by_cases hdir : (N i).type = T_DIR
  · rw [if_pos hdir]
    refine runs_bind.mpr (runs_stati hi hk ?_)
    refine (isdiremptyFrom_spec (k := 2) hi hk _ ?_).mono fun b s ⟨hs, hb⟩ =>
      ⟨hs, fun hb' _ => hb hb'⟩
    show (N i).nslots < (N i).nslots + 1 + 2
    omega
  · rw [if_neg hdir]
    exact runs_pure.mpr ⟨rfl, fun _ hc => absurd hc hdir⟩

/-- The link that ".." of a directory is. -/
theorem unlinkParent_spec {d : ℕ} {type : UInt16} (hd : d < sb.ninodes) (hk : d ∈ K) {s : Finset ℕ}
    {b : ℕ} (hc : c.Spends s b) (hs : d / 8 ∈ s) :
    Runs sb D (Code.unlinkParent d type) (.holding r (update N d x) c M K)
      fun _ a => ∃ c' : Cost, c'.Spends s b ∧
        a = .holding r (update N d
          (x.withNlink (if type = T_DIR then x.nlink - 1 else x.nlink))) c' M K := by
  rw [Code.unlinkParent]
  by_cases hdir : type = T_DIR
  · rw [if_pos hdir, if_pos hdir]
    refine runs_bind.mpr (runs_stati hd hk (runs_setNlink hd hk ⟨_, hc.inode hs, ?_⟩))
    rw [update_idem, update_self]
  · rw [if_neg hdir, if_neg hdir]
    exact runs_pure.mpr ⟨_, hc, rfl⟩

/-- The entry is cleared. -/
theorem unlinkClear_spec (h : Steady sb D r N []) {d k : ℕ} (hok : Edit.CanClear sb N d k) :
    Runs sb D (Code.unlinkClear d (Edit.target N d k) (16 * k)
        ⟨(N (Edit.target N d k)).type, (N (Edit.target N d k)).nlink,
          (N (Edit.target N d k)).data.length⟩)
      (.holding r N ⟨∅, 0⟩ [Edit.target N d k, d] [Edit.target N d k, d]) fun _ s =>
        Effect sb r N [] (fun e => e = .none ∨ e = .unlink d k) s := by
  obtain ⟨hd, hdt, hk, hi, -, hid, -⟩ := id hok
  set i := Edit.target N d k with hieq
  have hmd : d ∈ [i, d] := mem_cons_of_mem _ (mem_cons_self ..)
  have hpanic : Allowed D (.panic "unlink: writei") := allowed_panic (by decide) (by decide)
  refine runs_bind.mpr (runs_writei hd hmd (runs_panic hpanic) (fun hdev => ?_) fun _ _ _ _ => ?_)
  · rw [hdev] at hdt
    exact absurd hdt (by decide)
  rw [length_replicate, if_neg (not_not.mpr rfl)]
  have hcost : (writtenCost ⟨∅, 0⟩ (N d) d (16 * k) (List.replicate 16 0)).Spends
    {i / 8, d / 8} 1 :=
    Cost.Spends.zero.clear (b := 0) hk
  refine (unlinkParent_spec (x := (N d).clear k) hd hmd hcost (by simp)).bind
    fun _ s ⟨c', hc', hs⟩ => ?_
  obtain ⟨x, hx⟩ : ∃ x, x = ((N d).clear k).withNlink
    (if (N i).type = T_DIR then (N d).nlink - 1 else (N d).nlink) := ⟨_, rfl⟩
  have hs' : s = .holding r (update N d x) c' [i, d] [i, d] := hx ▸ hs
  rw [hs', holding_swap_held, holding_swap_locked]
  refine runs_bind.mpr (runs_iunlockput hd (by simpa using hid.symm) ?_)
  refine runs_bind.mpr (runs_setNlink hi (mem_cons_self ..) ?_)
  rw [release_of_ne hid, update_of_ne hid]
  refine runs_bind.mpr (runs_iunlockput hi not_mem_nil (runs_pure.mpr ?_))
  rw [release_release hid h.kept, hx]
  exact ⟨.unlink d k, _, hok, .inr rfl,
    (((hc'.release (by simp)).inode (by simp)).release (by simp)).bound_le (by omega), rfl⟩

/-- The entry is cleared, unless it names a directory that has entries. -/
theorem unlinkEntry_spec (h : Steady sb D r N []) {d k : ℕ} (hd : d < sb.ninodes)
    (hdt : (N d).type = T_DIR) (hk : k < (N d).nslots) (hlive : Edit.target N d k ≠ 0)
    (hname : ∃ name, (N d).slotOf name = some k ∧ namecmp name dot ≠ 0 ∧ namecmp name dotdot ≠ 0) :
    Runs sb D (Code.unlinkEntry d (Edit.target N d k) (16 * k))
      (.holding r N ⟨∅, 0⟩ [Edit.target N d k, d] [d]) fun _ s =>
        Effect sb r N [] (fun e => e = .none ∨ e = .unlink d k) s := by
  have hi : Edit.target N d k < sb.ninodes := h.bound d hdt k hk
  refine runs_bind.mpr (runs_ilock hi (held_self ..) (fun hD => h.closed hD d hdt k hk hlive)
    fun hik ht => ?_)
  have hid : Edit.target N d k ≠ d := fun hc => hik (by rw [hc]; exact mem_cons_self ..)
  refine runs_bind.mpr (runs_stati hi (mem_cons_self ..) ?_)
  by_cases hbad : (N (Edit.target N d k)).nlink = 0 ∨
      Code.negative (N (Edit.target N d k)).nlink = true
  · rw [if_pos hbad]
    exact runs_panic (allowed_panic (by decide) (by decide))
  rw [if_neg hbad]
  have hlinked : 0 < (N (Edit.target N d k)).nlink.toNat ∧
      (N (Edit.target N d k)).nlink.toNat < 32768 := by
    rw [not_or, Code.negative, decide_eq_true_iff, Nat.not_le] at hbad
    exact ⟨Nat.pos_of_ne_zero fun hc => hbad.1 (UInt16.toNat_inj.mp hc), hbad.2⟩
  refine (removable_spec hi (mem_cons_self ..)).bind fun b s ⟨hs, hb⟩ => ?_
  subst hs
  cases b with
  | true => exact unlinkClear_spec h ⟨hd, hdt, hk, hi, hlive, hid, ht, hlinked, hname, hb rfl⟩
  | false =>
    refine runs_bind.mpr (runs_iunlockput_keep hi (by simpa using hid)
      (fun hr => h.kept_cons hr) ?_)
    exact runs_bind.mpr (runs_iunlockput_keep hd not_mem_nil (h.kept d)
      (runs_pure.mpr (.nothing h (.inl rfl) bound_zero)))

/-- **`unlink`** clears the entry. -/
theorem sysUnlink_spec (h : Ready sb D r N cwd) (path : List UInt8) :
    Runs sb D (Code.sysUnlink cwd path) (.holding r N c [] []) fun _ s =>
      Effect sb r N [] (fun e => e = .none ∨ ∃ d name k, resolveParent N cwd path = some (d, name) ∧
        (N d).slotOf name = some k ∧ e = .unlink d k) s := by
  refine runs_bind.mpr (runs_beginOp ?_)
  refine (nameiparent_spec h.toBased h.toSteady path).bind fun res s ⟨hres, hs, hreach⟩ => ?_
  subst hs
  rcases res with _ | ⟨d, name⟩
  · exact runs_pure.mpr (.nothing h.toSteady (.inl rfl) bound_zero)
  obtain ⟨hd, hdt⟩ := hreach d name rfl
  refine runs_bind.mpr (runs_ilock hd (held_self ..) (fun _ => by rw [hdt]; decide) fun _ _ => ?_)
  have hbad : Runs sb D (Code.unlinkBad d) (.holding r N ⟨∅, 0⟩ [d] [d]) fun _ s =>
      Effect sb r N [] (fun e => e = .none ∨ ∃ d name k, resolveParent N cwd path = some (d, name) ∧
        (N d).slotOf name = some k ∧ e = .unlink d k) s :=
    runs_bind.mpr (runs_iunlockput_keep hd not_mem_nil (h.kept d)
      (runs_pure.mpr (.nothing h.toSteady (.inl rfl) bound_zero)))
  by_cases hdots : namecmp name dot = 0 ∨ namecmp name dotdot = 0
  · rw [if_pos hdots]
    exact hbad
  rw [if_neg hdots]
  refine (dirlookup_spec h.toSteady.cons hd (mem_cons_self ..)).bind
    fun found s ⟨_, hfound, hs⟩ => ?_
  subst hs
  rcases found with _ | ⟨i, off⟩
  · exact hbad
  obtain ⟨k, hk, hslot, rfl, hlive, rfl, -⟩ := Node.lookup_eq_some hfound.symm
  refine (unlinkEntry_spec h.toSteady hd hdt hk hlive ⟨name, hslot, not_or.mp hdots⟩).mono
    fun _ s ⟨e, c', hok, he, hc, hs⟩ => ⟨e, c', hok, ?_, hc, hs⟩
  exact he.imp id fun he => ⟨d, name, k, hres.symm, hslot, he⟩

/-! ### `create` -/

variable {type major minor : UInt16}

/-- The dots of a new directory, and the link that its ".." is. -/
theorem createDots_spec (h : Steady sb D r N []) (hsmall : sb.ninodes ≤ 65536) {d i : ℕ}
    (hd : d < sb.ninodes) (hdt : (N d).type = T_DIR) (hi : i < sb.ninodes) (ht : type ≠ 0)
    (hdi : d ≠ i) {s : Finset ℕ} {b : ℕ} (hc : c.Spends s b)
    (hds : d / 8 ∈ s) (his : i / 8 ∈ s) :
    Runs sb D (Code.createDots i d type)
      (.holding r (update N i ⟨type, major, minor, 1, []⟩) c [i, d] [i, d])
      fun _ a => ∃ c' : Cost, c'.Spends s (b + 4) ∧
        Steady sb D r (update (update N i (newNode d i type major minor)) d
          ((N d).withNlink (if type = T_DIR then (N d).nlink + 1 else (N d).nlink))) [i, d] ∧
        a = .holding r (update (update N i (newNode d i type major minor)) d
          ((N d).withNlink (if type = T_DIR then (N d).nlink + 1 else (N d).nlink)))
          c' [i, d] [i, d] := by
  have hmi : i ∈ [i, d] := mem_cons_self ..
  have hmd : d ∈ [i, d] := mem_cons_of_mem _ (mem_cons_self ..)
  have hpi : 0 < r i + [i, d].count i := held_self ..
  have hpd : 0 < r d + [i, d].count d := by
    have := count_pos_iff.mpr hmd
    omega
  obtain ⟨x, hx⟩ : ∃ x : Node, x = ⟨type, major, minor, 1, []⟩ := ⟨_, rfl⟩
  have hnil : x.nslots = 0 := by
    rw [hx]
    exact Nat.zero_div 16
  have hN1 : Steady sb D r (update N i x) [i, d] := by
    refine h.cons.cons.change hpi (fun _ => by rw [hx]; exact ht) (fun _ k hk => ?_)
      fun _ _ k hk => ?_
    all_goals
      rw [hnil] at hk
      exact absurd hk (Nat.not_lt_zero k)
  have hN₁d : update N i x d = N d := update_of_ne hdi _ _
  rw [← hx, Code.createDots]
  by_cases hdir : type = T_DIR
  swap
  · simp only [newNode, hdir, if_false, ← hx]
    have hself : update (update N i x) d ((N d).withNlink (N d).nlink) = update N i x := by
      conv_lhs => rw [← hN₁d]
      exact update_eq_self ..
    rw [hself]
    exact runs_pure.mpr ⟨c, ⟨hc.1, by have := hc.2; omega⟩, hN1, rfl⟩
  simp only [hdir, if_true]
  have hxt : x.type = T_DIR := by rw [hx]; exact hdir
  refine runs_bind.mpr (runs_stati hd hmd (runs_bind.mpr (runs_setNlink hd hmd ?_)))
  have hN2 : Steady sb D r (update (update N i x) d
      ((update N i x d).withNlink ((update N i x d).nlink + 1))) [i, d] :=
    hN1.withNlink hpd _
  rw [hN₁d] at hN2 ⊢
  obtain ⟨y, hy⟩ : ∃ y, y = (N d).withNlink ((N d).nlink + 1) := ⟨_, rfl⟩
  rw [← hy] at hN2 ⊢
  have hyt : y.type ≠ 0 := by
    rw [hy]
    show (N d).type ≠ 0
    rw [hdt]
    decide
  have hN₂i : update (update N i x) d y i = x := by
    rw [update_of_ne hdi.symm, update_self]
  have hK : ∀ j ∈ [i, d], 0 < r j + [i, d].count j := by
    intro j hj
    have := count_pos_iff.mpr hj
    omega
  have hpanic : Allowed D (.panic "create dots") := allowed_panic (by decide) (by decide)
  refine (dirlink_spec hN2 hi hmi hK).bind fun w a hw => ?_
  rcases hw.2 with ⟨rfl, -, rfl⟩ | ⟨rfl, -, rfl⟩
  · exact runs_panic hpanic
  have hN3 := hN2.addEntry hpi hsmall hi (fun _ => by rw [hN₂i, hxt]; decide)
    (by rw [hN₂i]; exact hxt) dot
  rw [hN₂i] at hN3 ⊢
  set N3 := update (update (update N i x) d y) i (x.addEntry dot i) with hN₃eq
  have hN₃i : N3 i = x.addEntry dot i := update_self ..
  refine (dirlink_spec hN3 hi hmi hK).bind fun w a hw => ?_
  rcases hw.2 with ⟨rfl, -, rfl⟩ | ⟨rfl, -, rfl⟩
  · exact runs_panic hpanic
  have hN₃d : (N3 d).type ≠ 0 := by
    rw [hN₃eq, update_of_ne hdi, update_self]
    exact hyt
  have hN4 := hN3.addEntry hpi hsmall hd (fun _ => hN₃d) (by rw [hN₃i]; exact hxt) dotdot
  have hN₄eq : update N3 i ((N3 i).addEntry dotdot d) =
      update (update N i (newNode d i type major minor)) d y := by
    rw [hN₃i, hN₃eq, update_idem, update_comm hdi, update_idem, newNode, if_pos hdir, ← hx]
  rw [hN₄eq, hdir] at hN4
  rw [hN₄eq, hdir]
  exact runs_pure.mpr ⟨_, (((hc.inode hds).add his).add his), hN4, rfl⟩

/-- What `create` leaves: an edit, and the inode it returns locked. -/
def Created (sb : Superblock) (r : ℕ → ℕ) (N : ℕ → Node) (type : UInt16) (P : Edit → Prop)
    (res : Option ℕ) (s : Store) : Prop :=
  ∃ e c i1 i2, Edit.Ok sb N e ∧ P e ∧ Cost.Spends c {i1, i2} 6 ∧
    s = .holding r (sweep (fun j => r j + res.toList.count j) (e.apply N)) c res.toList res.toList ∧
    ∀ i, res = some i → i < sb.ninodes ∧ (e.apply N i).type = type

theorem newNode_type {d i : ℕ} : (newNode d i type major minor).type = type := by
  rw [newNode]
  split <;> rfl

theorem newNode_nlink {d i : ℕ} : (newNode d i type major minor).nlink = 1 := by
  rw [newNode]
  split <;> rfl

theorem createNew_spec (h : Ready sb D r N cwd) {d : ℕ} {name : List UInt8} (hd : d < sb.ninodes)
    (hdt : (N d).type = T_DIR) (ht : type ≠ 0) (hname : (N d).lookup name = none) :
    Runs sb D (Code.createNew d name type major minor) (.holding r N ⟨∅, 0⟩ [d] [d]) fun res s =>
      Created sb r N type (fun e => ∃ i, e = .create d name i type major minor) res s := by
  refine runs_bind.mpr (runs_icreate ht fun i h0 hi hfree => ?_)
  have hdi : d ≠ i := by
    rintro rfl
    rw [hdt] at hfree
    exact absurd hfree (by decide)
  have hmd : d ∈ [i, d] := mem_cons_of_mem _ (mem_cons_self ..)
  have hc : (Cost.inode ⟨∅, 0⟩ i).Spends {i / 8, d / 8} 0 := Cost.Spends.zero.inode (by simp)
  refine (createDots_spec h.toSteady h.small hd hdt hi ht hdi hc (by simp) (by simp)).bind
    fun _ s ⟨c', hc', hN2, hs⟩ => ?_
  obtain ⟨y, hy⟩ : ∃ y, y = (N d).withNlink
    (if type = T_DIR then (N d).nlink + 1 else (N d).nlink) := ⟨_, rfl⟩
  rw [← hy] at hs hN2
  subst hs
  have hK : ∀ j ∈ [i, d], 0 < r j + [i, d].count j := by
    intro j hj
    have := count_pos_iff.mpr hj
    omega
  refine (dirlink_spec hN2 hd hmd hK).bind fun w s ⟨_, hw⟩ => ?_
  rcases hw with ⟨rfl, -, rfl⟩ | ⟨rfl, -, rfl⟩
  · exact runs_panic (allowed_panic (by decide) (by decide))
  rw [update_self, update_idem, holding_swap_held, holding_swap_locked]
  refine runs_bind.mpr (runs_iunlockput hd (by simpa using hdi) (runs_pure.mpr ?_))
  have happ : update (update N i (newNode d i type major minor)) d
      (y.addEntry name i) = Edit.apply N (.create d name i type major minor) := by
    rw [hy]
    rfl
  rw [release_eq_sweep]
  · rw [happ]
    refine ⟨.create d name i type major minor, _, i / 8, d / 8,
      ⟨⟨hd, hdt, hname⟩, h0, hi, hfree, ht⟩, ⟨i, rfl⟩,
      (hc'.add (by simp)).release (by simp), rfl, ?_⟩
    rintro j ⟨⟩
    refine ⟨hi, ?_⟩
    rw [Edit.apply, update_of_ne hdi.symm, update_self, newNode_type]
  intro j hj hr
  rw [update_of_ne hj] at hr
  by_cases hji : j = i
  · subst hji
    rw [update_self, Node.Removed, newNode_nlink] at hr
    exact absurd hr.2 (by decide)
  · rw [update_of_ne hji] at hr
    exact h.toSteady.kept_cons hr

theorem createFound_spec (h : Ready sb D r N cwd) {d i : ℕ} {type : UInt16}
    (hd : d < sb.ninodes) (hi : i < sb.ninodes) (hiD : D → (N i).type ≠ 0) :
    Runs sb D (Code.createFound d i type) (.holding r N ⟨∅, 0⟩ [i, d] [d]) fun res s =>
      Created sb r N type (· = .none) res s := by
  rw [holding_swap_held]
  refine runs_bind.mpr (runs_iunlockput_keep hd not_mem_nil (fun hr => h.toSteady.kept_cons hr) ?_)
  refine runs_bind.mpr (runs_ilock hi (held_self ..) hiD fun _ _ => ?_)
  refine runs_bind.mpr (runs_stati hi (mem_cons_self ..) ?_)
  by_cases hfile : type = T_FILE ∧ (N i).type = T_FILE
  · rw [if_pos hfile]
    refine runs_pure.mpr ⟨.none, ⟨∅, 0⟩, 0, 0, trivial, rfl, .zero, ?_, ?_⟩
    · rw [Edit.apply, Option.toList, sweep_eq_self fun j hr => h.toSteady.kept_cons hr]
    · rintro j ⟨⟩
      exact ⟨hi, hfile.2.trans hfile.1.symm⟩
  rw [if_neg hfile]
  refine runs_bind.mpr (runs_iunlockput_keep hi not_mem_nil (h.kept i) (runs_pure.mpr ?_))
  refine ⟨.none, ⟨∅, 0⟩, 0, 0, trivial, rfl, .zero, ?_, ?_⟩
  · rw [Edit.apply, Option.toList, h.toSteady.sweep_eq]
  · rintro j ⟨⟩

/-- The edit that `create` makes. -/
def Makes (N : ℕ → Node) (cwd : ℕ) (path : List UInt8) (type major minor : UInt16) (e : Edit) :
    Prop :=
  e = .none ∨ ∃ d name i, resolveParent N cwd path = some (d, name) ∧
    e = .create d name i type major minor

/-- **`create`** makes a file under a name that is free, or finds one that is there. -/
theorem create_spec (h : Ready sb D r N cwd) (path : List UInt8) (ht : type ≠ 0) :
    Runs sb D (Code.create cwd path type major minor) (.holding r N ⟨∅, 0⟩ [] []) fun res s =>
      Created sb r N type (Makes N cwd path type major minor) res s := by
  refine (nameiparent_spec h.toBased h.toSteady path).bind fun res s ⟨hres, hs, hreach⟩ => ?_
  subst hs
  rcases res with _ | ⟨d, name⟩
  · refine runs_pure.mpr ⟨.none, ⟨∅, 0⟩, 0, 0, trivial, .inl rfl, .zero, ?_, ?_⟩
    · rw [Edit.apply, Option.toList, h.toSteady.sweep_eq]
      rfl
    · rintro j ⟨⟩
  obtain ⟨hd, hdt⟩ := hreach d name rfl
  refine runs_bind.mpr (runs_ilock hd (held_self ..) (fun _ => by rw [hdt]; decide) fun _ _ => ?_)
  refine (dirlookup_spec h.toSteady.cons hd (mem_cons_self ..)).bind
    fun found s ⟨_, hfound, hs⟩ => ?_
  subst hs
  rcases found with _ | ⟨i, off⟩
  · refine (createNew_spec h hd hdt ht hfound.symm).mono
      fun res s ⟨e, c', i1, i2, hok, ⟨i, he⟩, hrest⟩ => ⟨e, c', i1, i2, hok, ?_, hrest⟩
    exact .inr ⟨d, name, i, hres.symm, he⟩
  · obtain ⟨k, hk, -, rfl, hlive, -⟩ := Node.lookup_eq_some hfound.symm
    refine (createFound_spec h hd (h.bound d hdt k hk) fun hD => h.closed hD d hdt k hk hlive).mono
      fun res s ⟨e, c', i1, i2, hok, he, hrest⟩ => ⟨e, c', i1, i2, hok, .inl he, hrest⟩

/-- A reference of the tables in the hands of the running call. -/
theorem holding_borrow {r' : ℕ → ℕ} {i : ℕ} (hr : ∀ j, r j = r' j + [i].count j) :
    Store.holding r N c M K = .holding r' N c (i :: M) K := by
  simp only [Store.holding, Store.mk.injEq, true_and, and_true]
  funext j
  rw [hr j, count_cons, count_cons, count_nil]
  omega

end Calls

end Xv6
