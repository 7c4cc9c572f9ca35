import Xv6.Held

/-!
# What directories and paths mean

The loops of `dirlookup`, `dirlink` and `namex` compute what the contents of the directories say:
`Node.lookup` is the first entry in use with a name, `Node.freeSlot` the place where `dirlink` puts
a new one, and `walk` follows a path.

* `Steady` is what lookups rely on: entries name inodes that there are, and a file without links
  is only there as long as someone holds it. The references that a lookup takes and gives up then
  change nothing.
* `namex_spec` says that a path is resolved as `walk` says and that nothing but a reference to its
  result is left of it.
-/

namespace Xv6

open List

/-! ## Names -/

/-- Names are compared by what `strncpy` makes of them. -/
theorem strncmp_eq_zero : ∀ (n : ℕ) (p q : List UInt8),
    strncmp p q n = 0 ↔ strncpy p n = strncpy q n := by
  intro n
  induction n with
  | zero => exact fun _ _ => by simp [strncmp, strncpy]
  | succ n ih =>
    intro p q
    rw [strncmp, strncpy, strncpy, List.cons.injEq]
    by_cases hh : p.headD 0 = q.headD 0
    · by_cases h0 : q.headD 0 = 0
      · have hp : p.headD 0 = 0 := hh.trans h0
        rw [if_neg fun hc => hc.1 hp, hh, if_neg fun hc => hc h0, if_neg fun hc => hc h0]
        simp
      · have hp : p.headD 0 ≠ 0 := hh ▸ h0
        rw [if_pos ⟨hp, hh⟩, if_pos h0, if_pos hp, ih]
        exact (and_iff_right hh).symm
    · rw [if_neg fun hc => hh hc.2]
      refine iff_of_false (fun hc => hh ?_) fun hc => hh hc.1
      exact UInt8.toNat_inj.mp (by omega)

theorem strncpy_strncpy : ∀ (n : ℕ) (p : List UInt8), strncpy (strncpy p n) n = strncpy p n := by
  intro n
  induction n with
  | zero => exact fun _ => rfl
  | succ n ih =>
    intro p
    by_cases h0 : p.headD 0 = 0
    · simp only [strncpy, headD_cons, ne_eq, h0, not_true_eq_false, if_false]
    · simp only [strncpy, headD_cons, tail_cons, ne_eq, h0, not_false_eq_true, if_true, ih]

theorem strncmp_strncpy (n : ℕ) (p q : List UInt8) :
    strncmp p (strncpy q n) n = 0 ↔ strncpy p n = strncpy q n := by
  rw [strncmp_eq_zero, strncpy_strncpy]

theorem strncpy_take : ∀ (n : ℕ) (p : List UInt8), strncpy (p.take n) n = strncpy p n := by
  intro n
  induction n with
  | zero => exact fun _ => rfl
  | succ n ih =>
    intro p
    cases p with
    | nil => rfl
    | cons a p => rw [take_succ_cons, strncpy, strncpy, headD_cons, headD_cons,
        tail_cons, tail_cons, ih]

/-- C strings are determined by what `strncpy` makes of them. -/
theorem take_eq_of_strncpy : ∀ (n : ℕ) {p q : List UInt8}, 0 ∉ p → 0 ∉ q →
    strncpy p n = strncpy q n → p.take n = q.take n := by
  intro n
  induction n with
  | zero => exact fun _ _ _ => rfl
  | succ n ih =>
    intro p q hp hq h
    rw [strncpy, strncpy, List.cons.injEq] at h
    obtain ⟨hhead, htail⟩ := h
    cases p with
    | nil =>
      cases q with
      | nil => rfl
      | cons b q => exact absurd (show b = 0 from hhead.symm) (ne_of_not_mem_cons hq).symm
    | cons a p =>
      have ha : a ≠ 0 := (ne_of_not_mem_cons hp).symm
      cases q with
      | nil => exact absurd hhead ha
      | cons b q =>
        have hb : b ≠ 0 := (ne_of_not_mem_cons hq).symm
        rw [if_pos (show (a :: p).headD 0 ≠ 0 from ha),
          if_pos (show (b :: q).headD 0 ≠ 0 from hb)] at htail
        rw [take_succ_cons, take_succ_cons, show a = b from hhead,
          ih (not_mem_of_not_mem_cons hp) (not_mem_of_not_mem_cons hq) htail]

namespace Node

/-- The number of entries of a directory. -/
def nslots (x : Node) : ℕ := x.data.length / 16

/-- Entry `k` of a directory. -/
def entry (x : Node) (k : ℕ) : Dirent := Dirent.read ((x.data.drop (16 * k)).take 16)

/-- Entry `k` is in use and has this name. -/
def hasName (x : Node) (name : List UInt8) (k : ℕ) : Bool :=
  (x.entry k).inum ≠ 0 ∧ namecmp name (x.entry k).name = 0

/-- The first entry with this name. -/
def slotOf (x : Node) (name : List UInt8) : Option ℕ := (List.range x.nslots).find? (x.hasName name)

/-- What `dirlookup` finds: an inode number, and the offset of the entry. -/
def lookup (x : Node) (name : List UInt8) : Option (ℕ × ℕ) :=
  (x.slotOf name).map fun k => ((x.entry k).inum, 16 * k)

/-- Where `dirlink` puts a new entry. -/
def freeSlot (x : Node) : ℕ :=
  ((List.range x.nslots).find? fun k => (x.entry k).inum = 0).getD x.nslots

/-- The directory with a new entry. -/
def addEntry (x : Node) (name : List UInt8) (inum : ℕ) : Node :=
  x.write (16 * x.freeSlot) (Dirent.bytes ⟨inum, strncpy name DIRSIZ⟩)

variable {x : Node} {name : List UInt8} {k : ℕ}

theorem hasName_iff :
    x.hasName name k = true ↔ (x.entry k).inum ≠ 0 ∧ namecmp name (x.entry k).name = 0 :=
  decide_eq_true_iff

theorem slotOf_eq_some : x.slotOf name = some k ↔
    k < x.nslots ∧ x.hasName name k = true ∧ ∀ j < k, x.hasName name j = false := by
  rw [slotOf, find?_range_eq_some]
  simp only [mem_range, Bool.not_eq_true']
  tauto

theorem slotOf_eq_none : x.slotOf name = none ↔ ∀ k < x.nslots, x.hasName name k = false := by
  rw [slotOf, find?_range_eq_none]
  simp

theorem freeSlot_eq (hk : k ≤ x.nslots) (h : k < x.nslots → (x.entry k).inum = 0)
    (hj : ∀ j < k, (x.entry j).inum ≠ 0) : x.freeSlot = k := by
  rw [freeSlot]
  rcases Nat.lt_or_ge k x.nslots with hlt | hge
  · have : (List.range x.nslots).find? (fun k => (x.entry k).inum = 0) = some k := by
      rw [find?_range_eq_some]
      simpa using ⟨h hlt, hlt, hj⟩
    rw [this]
    rfl
  have hkn : k = x.nslots := Nat.le_antisymm hk hge
  subst hkn
  have : (List.range x.nslots).find? (fun k => (x.entry k).inum = 0) = none := by
    rw [find?_range_eq_none]
    simpa using hj
  rw [this]
  rfl

theorem lookup_eq_some {i off : ℕ} (h : x.lookup name = some (i, off)) :
    ∃ k < x.nslots, x.slotOf name = some k ∧ (x.entry k).inum = i ∧ i ≠ 0 ∧ off = 16 * k ∧
      namecmp name (x.entry k).name = 0 := by
  rw [lookup, Option.map_eq_some_iff] at h
  obtain ⟨k, hk, heq⟩ := h
  cases heq
  obtain ⟨hlt, hname, -⟩ := slotOf_eq_some.mp hk
  obtain ⟨hne, hcmp⟩ := hasName_iff.mp hname
  exact ⟨k, hlt, hk, rfl, hne, rfl, hcmp⟩

theorem lookup_eq_none : x.lookup name = none ↔ ∀ k < x.nslots, x.hasName name k = false := by
  rw [lookup, Option.map_eq_none_iff, slotOf_eq_none]

end Node

/-! ## What lookups rely on -/

/-- Every entry of a directory names an inode that is in use. -/
def Closed (N : ℕ → Node) : Prop :=
  ∀ d, (N d).type = T_DIR → ∀ k < (N d).nslots, ((N d).entry k).inum ≠ 0 →
    (N ((N d).entry k).inum).type ≠ 0

/-- What lookups rely on. -/
structure Steady (sb : Superblock) (D : Prop) (r : ℕ → ℕ) (N : ℕ → Node) (M : List ℕ) : Prop where
  /-- entries name inodes of the disk -/
  bound : ∀ d, (N d).type = T_DIR → ∀ k < (N d).nslots, ((N d).entry k).inum < sb.ninodes
  /-- a file without links is held by someone -/
  kept : ∀ i, (N i).Removed → 0 < r i + M.count i
  closed : D → Closed N

/-- The references held once a lookup has found something. -/
def found {β : Type} (M : List ℕ) : Option (ℕ × β) → List ℕ
  | none => M
  | some (i, _) => i :: M

section Lookup

variable {sb : Superblock} {D : Prop} {r : ℕ → ℕ} {N : ℕ → Node} {c : Cost} {M K : List ℕ}
  {dp : ℕ} {name : List UInt8}

theorem Steady.kept_cons (h : Steady sb D r N M) {i j : ℕ} (hi : (N i).Removed) :
    0 < r i + (j :: M).count i := by
  have := h.kept i hi
  have := count_le_count_cons (a := i) (b := j) (l := M)
  omega

/-- A full entry has been read, or the read was a panic. -/
theorem readDirent_spec (hi : dp < sb.ninodes) (hk : dp ∈ K) {msg : String} {k : ℕ}
    (hm : Allowed D (.panic msg)) {Q : Dirent → Store → Prop}
    (hQ : k < (N dp).nslots → Q ((N dp).entry k) (.holding r N c M K)) :
    Runs sb D (Code.readDirent dp (16 * k) msg) (.holding r N c M K) Q := by
  refine runs_bind.mpr (runs_readi hi hk (runs_panic hm) fun _ _ => ?_)
  by_cases hlen : (((N dp).data.drop (16 * k)).take 16).length = 16
  · simp only [hlen, if_true]
    refine hQ ?_
    rw [length_take, length_drop] at hlen
    rw [Node.nslots]
    omega
  · simp only [hlen, if_false]
    exact runs_panic hm

theorem allowed_read : Allowed D (.panic "dirlink read") :=
  allowed_panic (by decide) (by decide)

theorem dirlookupFrom_spec (h : Steady sb D r N M) (hi : dp < sb.ninodes) (hk : dp ∈ K)
    (ht : (N dp).type = T_DIR) : ∀ (fuel k : ℕ), (N dp).nslots < fuel + k →
    (∀ j < k, (N dp).hasName name j = false) →
    Runs sb D (Code.dirlookupFrom dp (N dp).data.length name fuel (16 * k)) (.holding r N c M K)
      fun res s => res = (N dp).lookup name ∧ s = .holding r N c (found M res) K := by
  intro fuel
  induction fuel with
  | zero =>
    intro k hfuel hj
    refine runs_pure.mpr ⟨(Node.lookup_eq_none.mpr fun j hlt => hj j (by omega)).symm, rfl⟩
  | succ fuel ih =>
    intro k hfuel hj
    rw [Code.dirlookupFrom]
    by_cases hoff : 16 * k < (N dp).data.length
    swap
    · rw [if_neg hoff]
      have hle : (N dp).nslots ≤ k := by
        rw [Node.nslots]
        omega
      exact runs_pure.mpr ⟨(Node.lookup_eq_none.mpr fun j hlt => hj j (by omega)).symm, rfl⟩
    rw [if_pos hoff]
    refine runs_bind.mpr (readDirent_spec hi hk allowed_read fun hlt => ?_)
    -- an entry that does not match: go on
    have hnext : (N dp).hasName name k = false → Runs sb D
        (Code.dirlookupFrom dp (N dp).data.length name fuel (16 * k + 16)) (.holding r N c M K)
        fun res s => res = (N dp).lookup name ∧ s = .holding r N c (found M res) K := by
      intro hno
      refine ih (k + 1) (by omega) fun j hjk => ?_
      rcases Nat.lt_succ_iff_lt_or_eq.mp hjk with hlt' | rfl
      · exact hj j hlt'
      · exact hno
    by_cases h0 : ((N dp).entry k).inum = 0
    · rw [if_pos h0]
      exact hnext (decide_eq_false fun hc => hc.1 h0)
    rw [if_neg h0]
    by_cases hcmp : namecmp name ((N dp).entry k).name = 0
    · rw [if_pos hcmp]
      have hslot : (N dp).slotOf name = some k :=
        Node.slotOf_eq_some.mpr ⟨hlt, Node.hasName_iff.mpr ⟨h0, hcmp⟩, hj⟩
      refine runs_bind.mpr (runs_iget (h.bound dp ht k hlt) (h.kept _) (runs_pure.mpr ⟨?_, rfl⟩))
      rw [Node.lookup, hslot]
      rfl
    · rw [if_neg hcmp]
      exact hnext (decide_eq_false fun hc => hcmp hc.2)

/-- **`dirlookup`** finds the first entry with the name, and takes a reference. -/
theorem dirlookup_spec (h : Steady sb D r N M) (hi : dp < sb.ninodes) (hk : dp ∈ K) :
    Runs sb D (Code.dirlookup dp name) (.holding r N c M K) fun res s =>
      (N dp).type = T_DIR ∧ res = (N dp).lookup name ∧ s = .holding r N c (found M res) K := by
  refine runs_bind.mpr (runs_stati hi hk ?_)
  by_cases ht : (N dp).type = T_DIR
  · simp only [ht, ne_eq, not_true_eq_false, if_false, true_and]
    refine dirlookupFrom_spec (k := 0) h hi hk ht _ ?_ fun j hj => absurd hj (Nat.not_lt_zero j)
    rw [Node.nslots]
    omega
  · simp only [ne_eq, ht, not_false_eq_true, if_true]
    exact runs_panic (allowed_panic (by decide) (by decide))

theorem emptyFrom_spec (hi : dp < sb.ninodes) (hk : dp ∈ K) : ∀ (fuel k : ℕ),
    (N dp).nslots < fuel + k → k ≤ (N dp).nslots → (∀ j < k, ((N dp).entry j).inum ≠ 0) →
    Runs sb D (Code.emptyFrom dp (N dp).data.length fuel (16 * k)) (.holding r N c M K)
      fun off s => off = 16 * (N dp).freeSlot ∧ s = .holding r N c M K := by
  intro fuel
  induction fuel with
  | zero =>
    intro k hfuel hle
    omega
  | succ fuel ih =>
    intro k hfuel hle hj
    rw [Code.emptyFrom]
    by_cases hoff : 16 * k < (N dp).data.length
    swap
    · rw [if_neg hoff]
      refine runs_pure.mpr ⟨?_, rfl⟩
      rw [Node.freeSlot_eq hle (fun hlt => ?_) hj]
      rw [Node.nslots] at hlt
      omega
    rw [if_pos hoff]
    refine runs_bind.mpr (readDirent_spec hi hk allowed_read fun hlt => ?_)
    by_cases h0 : ((N dp).entry k).inum = 0
    · rw [if_pos h0]
      refine runs_pure.mpr ⟨?_, rfl⟩
      rw [Node.freeSlot_eq hle (fun _ => h0) hj]
    rw [if_neg h0]
    refine ih (k + 1) (by omega) hlt fun j hjk => ?_
    rcases Nat.lt_succ_iff_lt_or_eq.mp hjk with hlt' | rfl
    · exact hj j hlt'
    · exact h0

theorem length_strncpy : ∀ (n : ℕ) (t : List UInt8), (strncpy t n).length = n := by
  intro n
  induction n with
  | zero =>
    intro t
    rw [strncpy]
    rfl
  | succ n ih =>
    intro t
    rw [strncpy, length_cons]
    split
    · rw [ih]
    · rw [length_replicate]

theorem length_bytes {inum : ℕ} : (Dirent.bytes ⟨inum, strncpy name DIRSIZ⟩).length = 16 := by
  rw [Dirent.bytes, length_cons, length_cons, length_strncpy]

/-- What has been logged once an entry is added to directory `dp`. -/
def addCost (c : Cost) (x : Node) (dp : ℕ) : Cost :=
  Store.writeCost c dp x.data.length (16 * x.freeSlot) 16

/-- `dirlink` added the entry: there was none with this name, and it fits. -/
structure Added (sb : Superblock) (N : ℕ → Node) (dp : ℕ) (name : List UInt8) (inum : ℕ) :
    Prop where
  fresh : (N dp).lookup name = none
  fits : 16 * (N dp).freeSlot + 16 ≤ 140 * 512
  room : used sb (fun j => (Function.update N dp ((N dp).addEntry name inum) j).nblocks) ≤
    Store.capacity sb

/-- **`dirlink`** adds an entry in the first free place, unless the name is in use. -/
theorem dirlink_spec (h : Steady sb D r N M) (hi : dp < sb.ninodes) (hk : dp ∈ K)
    (hK : ∀ i ∈ K, 0 < r i + M.count i) {inum : ℕ} :
    Runs sb D (Code.dirlink dp name inum) (.holding r N c M K) fun res s =>
      (N dp).type = T_DIR ∧
        ((res = -1 ∧ (N dp).lookup name ≠ none ∧ s = .holding r N c M K) ∨
          (res = 0 ∧ Added sb N dp name inum ∧
            s = .holding r (Function.update N dp ((N dp).addEntry name inum))
              (addCost c (N dp) dp) M K)) := by
  refine (dirlookup_spec h hi hk).bind fun res s ⟨ht, hres, hs⟩ => ?_
  subst hs
  rcases res with _ | ⟨i, off⟩
  · refine runs_bind.mpr (runs_stati hi hk ?_)
    refine runs_bind.mpr ((emptyFrom_spec (k := 0) hi hk _ (Nat.lt_succ_self _)
      (Nat.zero_le _) fun j hj => absurd hj (Nat.not_lt_zero j)).mono fun off s hoff => ?_)
    obtain ⟨hoff, hs⟩ := hoff
    subst hs hoff
    have hpanic : Allowed D (.panic "dirlink") := allowed_panic (by decide) (by decide)
    refine runs_bind.mpr (runs_writei hi hk (runs_panic hpanic) (fun hd => ?_)
      fun _ _ hfits hroom => ?_)
    · rw [hd] at ht
      exact absurd ht (by decide)
    · rw [length_bytes] at hfits ⊢
      rw [if_pos rfl]
      refine runs_pure.mpr ⟨ht, .inr ⟨rfl, ⟨hres.symm, hfits, hroom⟩, ?_⟩⟩
      have hne : ¬Dirent.bytes ⟨inum, strncpy name DIRSIZ⟩ = [] := cons_ne_nil _ _
      rw [writtenCost, if_neg hne, length_bytes]
      rfl
  · obtain ⟨k, hlt, -, hinum, -⟩ := Node.lookup_eq_some hres.symm
    have hib := h.bound dp ht k hlt
    rw [hinum] at hib
    refine runs_bind.mpr (runs_iput_keep hib (hK i) (h.kept i)
      (runs_pure.mpr ⟨ht, .inl ⟨rfl, ?_, rfl⟩⟩))
    rw [← hres]
    exact Option.some_ne_none _

end Lookup

/-! ## Paths -/

/-- Follow a path from inode `ip`. -/
def walkFrom (N : ℕ → Node) (nameiparent : Bool) : ℕ → ℕ → List UInt8 → Option (ℕ × List UInt8)
  | 0, _, _ => none
  | fuel + 1, ip, path =>
    match Code.skipelem path with
    | none => if nameiparent then none else some (ip, [])
    | some (name, path) =>
      if (N ip).type ≠ T_DIR then none
      else if nameiparent ∧ path = [] then some (ip, name)
      else
        match (N ip).lookup name with
        | none => none
        | some (next, _) => walkFrom N nameiparent fuel next path

/-- Follow a path from the root or from the current directory. -/
def walk (N : ℕ → Node) (cwd : ℕ) (path : List UInt8) (nameiparent : Bool) :
    Option (ℕ × List UInt8) :=
  walkFrom N nameiparent (path.length + 1)
    (if path.head? = some Code.slash then ROOTINO else cwd) path

theorem skipelem_length {path name rest : List UInt8}
    (h : Code.skipelem path = some (name, rest)) : rest.length < path.length := by
  rw [Code.skipelem] at h
  rcases hp : path.dropWhile (· = Code.slash) with _ | ⟨b, p⟩
  · rw [hp] at h
    cases h
  have hlen : (path.dropWhile (· = Code.slash)).length ≤ path.length :=
    (dropWhile_suffix _).length_le
  rw [hp] at h hlen
  simp only [cons_ne_nil, if_false, Option.some.injEq, Prod.mk.injEq] at h
  have hb : b ≠ Code.slash := by
    have := head?_dropWhile_not (· = Code.slash) path
    rw [hp] at this
    simpa using this
  rw [← h.2]
  have h1 := (dropWhile_suffix (· = Code.slash)
    (l := (b :: p).dropWhile (· ≠ Code.slash))).length_le
  have h2 : ((b :: p).dropWhile (· ≠ Code.slash)).length ≤ p.length := by
    rw [dropWhile_cons_of_pos (by simpa using hb)]
    exact (dropWhile_suffix _).length_le
  rw [length_cons] at hlen
  omega

section Paths

variable {sb : Superblock} {D : Prop} {r : ℕ → ℕ} {N : ℕ → Node} {c : Cost} {M : List ℕ} {np : Bool}

/-- What is known of an inode that a path leads to. -/
def Reached (sb : Superblock) (D : Prop) (N : ℕ → Node) (np : Bool) (ip : ℕ) : Prop :=
  ip < sb.ninodes ∧ (D → (N ip).type ≠ 0) ∧ (np = true → (N ip).type = T_DIR)

theorem namexFrom_spec (h : Steady sb D r N M) : ∀ (fuel ip : ℕ) (path : List UInt8),
    path.length < fuel → ip < sb.ninodes → (D → (N ip).type ≠ 0) →
    Runs sb D (Code.namexFrom np fuel ip path) (.holding r N c (ip :: M) []) fun res s =>
      res = walkFrom N np fuel ip path ∧ s = .holding r N c (found M res) [] ∧
        ∀ x ∈ res, Reached sb D N np x.1 := by
  intro fuel
  induction fuel with
  | zero =>
    intro ip path hlt
    exact absurd hlt (Nat.not_lt_zero _)
  | succ fuel ih =>
    intro ip path hlt hi hD
    rw [Code.namexFrom, walkFrom]
    have hnone : ∀ x ∈ (none : Option (ℕ × List UInt8)), Reached sb D N np x.1 := by
      rintro x ⟨⟩
    rcases hskip : Code.skipelem path with _ | ⟨name, rest⟩
    · -- the path ends here
      cases np with
      | true =>
        refine runs_bind.mpr (runs_iput_keep hi (fun hk => absurd hk not_mem_nil)
          (h.kept ip) (runs_pure.mpr ⟨rfl, rfl, hnone⟩))
      | false =>
        refine runs_pure.mpr ⟨rfl, rfl, fun x hx => ?_⟩
        cases hx
        exact ⟨hi, hD, nofun⟩
    have hrest := skipelem_length hskip
    have hpos : 0 < r ip + (ip :: M).count ip := by
      rw [count_cons_self]
      omega
    refine runs_bind.mpr (runs_ilock hi hpos hD fun hk htype => ?_)
    have hmem : ip ∈ [ip] := mem_cons_self ..
    refine runs_bind.mpr (runs_stati hi hmem ?_)
    by_cases ht : (N ip).type = T_DIR
    swap
    · simp only [ne_eq, ht, not_false_eq_true, if_true]
      exact runs_bind.mpr (runs_iunlockput_keep hi hk (h.kept ip) (runs_pure.mpr ⟨rfl, rfl, hnone⟩))
    simp only [ne_eq, ht, not_true_eq_false, if_false]
    by_cases hlast : np = true ∧ rest = []
    · rw [if_pos hlast, if_pos hlast]
      refine runs_bind.mpr (runs_iunlock hi hk (runs_pure.mpr ⟨rfl, rfl, fun x hx => ?_⟩))
      cases hx
      exact ⟨hi, hD, fun _ => ht⟩
    rw [if_neg hlast, if_neg hlast]
    refine (dirlookup_spec ⟨h.bound, fun i hr => h.kept_cons hr, h.closed⟩ hi hmem).bind
      fun res s ⟨_, hres, hs⟩ => ?_
    subst hs
    rw [← hres]
    rcases res with _ | ⟨next, off⟩
    · exact runs_bind.mpr (runs_iunlockput_keep hi hk (h.kept ip) (runs_pure.mpr ⟨rfl, rfl, hnone⟩))
    obtain ⟨k, hlt', -, hinum, h0, -⟩ := Node.lookup_eq_some hres.symm
    have hnext : next < sb.ninodes := hinum ▸ h.bound ip ht k hlt'
    have hnextD : D → (N next).type ≠ 0 := fun hd => hinum ▸ h.closed hd ip ht k hlt' (hinum ▸ h0)
    show Runs sb D (Code.iunlockput ip >>= fun _ => _) (.holding r N c (next :: ip :: M) [ip]) _
    rw [holding_swap_held]
    exact runs_bind.mpr (runs_iunlockput_keep hi hk (fun hr => h.kept_cons hr)
      (ih next rest (by omega) hnext hnextD))

/-- **`namex`** follows the path and leaves nothing but a reference to the result. -/
theorem namex_spec (h : Steady sb D r N M) {cwd : ℕ} (hcwd : cwd < sb.ninodes) (hr : 0 < r cwd)
    (hcwdD : D → (N cwd).type ≠ 0) (hroot : ROOTINO < sb.ninodes)
    (hrootD : D → (N ROOTINO).type ≠ 0) (path : List UInt8) :
    Runs sb D (Code.namex cwd path np) (.holding r N c M []) fun res s =>
      res = walk N cwd path np ∧ s = .holding r N c (found M res) [] ∧
        ∀ x ∈ res, Reached sb D N np x.1 := by
  rw [Code.namex, walk]
  by_cases hs : path.head? = some Code.slash
  · rw [if_pos hs, if_pos hs]
    exact runs_bind.mpr (runs_iget hroot (h.kept _)
      (namexFrom_spec h _ _ _ (Nat.lt_succ_self _) hroot hrootD))
  · rw [if_neg hs, if_neg hs]
    exact runs_bind.mpr (runs_idup hcwd (by omega)
      (namexFrom_spec h _ _ _ (Nat.lt_succ_self _) hcwd hcwdD))

end Paths

end Xv6
