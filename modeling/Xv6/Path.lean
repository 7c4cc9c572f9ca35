import Mathlib.Data.List.GetD
import Xv6.Dir

/-!
# Splitting paths: `skipelem`

`skipelem` with its pointer into the path and the buffer for the name, as `fs.c` computes it. The
loop of `namex` calls it until it returns 0.

* A path is the list of its characters, none of which is zero; the character after the last one is
  the terminating zero. A pointer is an index.
* The components of a path are its maximal substrings without a slash (`Component`), wherever and
  however many slashes there are.
-/

namespace Xv6

open List

namespace Path

open Code (slash)

/-- `path[p]` -/
def charAt (s : List UInt8) (p : ℕ) : UInt8 := s.getD p 0

/-- `while(*path == '/') path++;` -/
def skipSlashes (s : List UInt8) : ℕ → ℕ → ℕ
  | 0, path => path
  | n + 1, path => if charAt s path = slash then skipSlashes s n (path + 1) else path

/-- `while(*path != '/' && *path != 0) path++;` -/
def skipName (s : List UInt8) : ℕ → ℕ → ℕ
  | 0, path => path
  | n + 1, path =>
    if charAt s path ≠ slash ∧ charAt s path ≠ 0 then skipName s n (path + 1) else path

/-- `skipelem(path, name)`: the pointer it returns, and the buffer. -/
def skipelem (s : List UInt8) (path : ℕ) (name : Bytes DIRSIZ) : Option ℕ × Bytes DIRSIZ :=
  let path := skipSlashes s s.length path
  if charAt s path = 0 then (none, name)
  else
    let start := path
    let path := skipName s s.length path
    let len := path - start
    let name :=
      if len ≥ DIRSIZ then name.splice 0 ((s.drop start).take DIRSIZ)
      else (name.splice 0 ((s.drop start).take len)).splice len [0]
    (some (skipSlashes s s.length path), name)

/-- The calls of `skipelem` until it returns 0, with the buffer and the pointer after each of them;
nothing if there are more than `n` calls. -/
def elements (s : List UInt8) : ℕ → ℕ → Bytes DIRSIZ → Option (List (Bytes DIRSIZ × ℕ))
  | 0, _, _ => none
  | n + 1, path, name =>
    match skipelem s path name with
    | (none, _) => some []
    | (some path, name) => (elements s n path name).map ((name, path) :: ·)

/-- **A component**: `n` characters at `i` without a slash, with slashes or the ends of the path
around them. -/
structure Component (s : List UInt8) (i n : ℕ) : Prop where
  pos : 0 < n
  inside : i + n ≤ s.length
  name : ∀ k < n, charAt s (i + k) ≠ slash
  before : i = 0 ∨ charAt s (i - 1) = slash
  after : i + n = s.length ∨ charAt s (i + n) = slash

/-- The buffer holds the component: its first `DIRSIZ` bytes, and a zero if it is shorter. -/
structure Holds (s : List UInt8) (c : ℕ × ℕ) (name : Bytes DIRSIZ) : Prop where
  byte : ∀ k < min c.2 DIRSIZ, name.get k = charAt s (c.1 + k)
  nul : c.2 < DIRSIZ → name.get c.2 = 0

/-! ## The loops -/

variable {p : ℕ}

section Loops

variable {s : List UInt8}

theorem charAt_end : charAt s s.length = 0 := by
  rw [charAt, getD_eq_default _ _ le_rfl]

theorem charAt_eq_zero (hs : 0 ∉ s) (hp : p ≤ s.length) : charAt s p = 0 ↔ p = s.length := by
  constructor
  · intro hc
    by_contra hne
    have hlt : p < s.length := lt_of_le_of_ne hp hne
    rw [charAt, getD_eq_getElem _ _ hlt] at hc
    exact hs (hc ▸ getElem_mem hlt)
  · rintro rfl
    exact charAt_end

theorem lt_of_charAt (h : charAt s p ≠ 0) : p < s.length := by
  by_contra hc
  exact h (getD_eq_default _ _ (not_lt.mp hc))

/-- What the first and the last loop skip. -/
theorem skipSlashes_spec : ∀ (n p : ℕ), p ≤ s.length → s.length ≤ p + n →
    p ≤ skipSlashes s n p ∧ skipSlashes s n p ≤ s.length ∧
      (∀ k, p ≤ k → k < skipSlashes s n p → charAt s k = slash) ∧
      charAt s (skipSlashes s n p) ≠ slash := by
  intro n
  induction n with
  | zero =>
    intro p hp hle
    obtain rfl : p = s.length := le_antisymm hp hle
    refine ⟨le_rfl, le_rfl, fun k h1 h2 => absurd h2 h1.not_gt, ?_⟩
    rw [skipSlashes, charAt_end]
    decide
  | succ n ih =>
    intro p hp hle
    rw [skipSlashes]
    split
    · rename_i hc
      have hlt : p < s.length := lt_of_charAt (by rw [hc]; decide)
      obtain ⟨h1, h2, h3, h4⟩ := ih (p + 1) hlt (by omega)
      refine ⟨(Nat.le_succ p).trans h1, h2, fun k hk hk' => ?_, h4⟩
      rcases hk.eq_or_lt with rfl | hk
      · exact hc
      · exact h3 k hk hk'
    · rename_i hc
      exact ⟨le_rfl, hp, fun k h1 h2 => absurd h2 h1.not_gt, hc⟩

/-- What the second loop skips. -/
theorem skipName_spec : ∀ (n p : ℕ), p ≤ s.length → s.length ≤ p + n →
    p ≤ skipName s n p ∧ skipName s n p ≤ s.length ∧
      (∀ k, p ≤ k → k < skipName s n p → charAt s k ≠ slash) ∧
      (charAt s (skipName s n p) = slash ∨ charAt s (skipName s n p) = 0) := by
  intro n
  induction n with
  | zero =>
    intro p hp hle
    obtain rfl : p = s.length := le_antisymm hp hle
    exact ⟨le_rfl, le_rfl, fun k h1 h2 => absurd h2 h1.not_gt, .inr charAt_end⟩
  | succ n ih =>
    intro p hp hle
    rw [skipName]
    split
    · rename_i hc
      have hlt : p < s.length := lt_of_charAt hc.2
      obtain ⟨h1, h2, h3, h4⟩ := ih (p + 1) hlt (by omega)
      refine ⟨(Nat.le_succ p).trans h1, h2, fun k hk hk' => ?_, h4⟩
      rcases hk.eq_or_lt with rfl | hk
      · exact hc.1
      · exact h3 k hk hk'
    · rename_i hc
      refine ⟨le_rfl, hp, fun k h1 h2 => absurd h2 h1.not_gt, ?_⟩
      rwa [not_and_or, not_not, not_not] at hc

end Loops

/-! ## One call -/

variable {i n : ℕ}

section Call

variable {s : List UInt8} {path : ℕ} {name : Bytes DIRSIZ}

/-- The pointer is at the start, at the end or after a slash: no component reaches across it. -/
def Boundary (s : List UInt8) (path : ℕ) : Prop :=
  path ≤ s.length ∧ (path = 0 ∨ path = s.length ∨ charAt s (path - 1) = slash)

/-- What the buffer holds after the copying. -/
theorem holds_copy (hin : i + n ≤ s.length) (name : Bytes DIRSIZ) :
    Holds s (i, n) (if n ≥ DIRSIZ then name.splice 0 ((s.drop i).take DIRSIZ)
      else (name.splice 0 ((s.drop i).take n)).splice n [0]) := by
  have hlen : ∀ m ≤ n, ((s.drop i).take m).length = m := by
    intro m hm
    rw [length_take, length_drop]
    omega
  -- the bytes that are copied
  have hcopy : ∀ m ≤ n, ∀ k < m, k < DIRSIZ →
      (name.splice 0 ((s.drop i).take m)).get k = charAt s (i + k) := by
    intro m hm k hk hlt
    have hmem : k < ((s.drop i).take m).length := by rwa [hlen m hm]
    have hget := Bytes.get_splice_of_mem (b := name) (o := 0) hmem (by omega)
    rw [Nat.zero_add] at hget
    rw [hget, getElem_take, getElem_drop, charAt, getD_eq_getElem]
  split
  · rename_i hge
    refine ⟨fun k hk => ?_, fun hlt => absurd hlt (not_lt.mpr hge)⟩
    exact hcopy DIRSIZ hge k (lt_min_iff.mp hk).2 (lt_min_iff.mp hk).2
  rename_i hge
  refine ⟨fun k hk => ?_, fun hlt => ?_⟩
  · rw [Bytes.get_splice_of_lt (lt_min_iff.mp hk).1]
    exact hcopy n le_rfl k (lt_min_iff.mp hk).1 (lt_min_iff.mp hk).2
  · exact Bytes.get_splice_of_mem (i := 0) (by decide) hlt

/-- The next component after `path` is `(i, n)`, and the one after that starts at `path'` or
later. -/
structure Next (s : List UInt8) (path i n path' : ℕ) : Prop where
  component : Component s i n
  le : path ≤ i
  behind : i + n ≤ path'
  first : ∀ i' n', path ≤ i' → Component s i' n' → i' = i ∧ n' = n ∨ path' ≤ i'
  boundary : Boundary s path'
  stopped : charAt s path' ≠ slash

/-- No component starts at a slash. -/
theorem Component.ne_slash (hc : Component s i n) : charAt s i ≠ slash :=
  hc.name 0 hc.pos

theorem Component.lt_length (hc : Component s i n) : i < s.length :=
  (Nat.lt_add_of_pos_right hc.pos).trans_le hc.inside

/-- Two components do not touch. -/
theorem Component.lt_of_le {i n i' n' : ℕ} (hc : Component s i n) (hc' : Component s i' n')
    (hle : i + n ≤ i') : i + n < i' := by
  refine lt_of_le_of_ne hle fun heq => ?_
  have hpos := hc.pos
  rcases hc'.before with h | h
  · omega
  · have hlast := hc.name (n - 1) (by omega)
    rw [← Nat.add_sub_assoc hpos, heq] at hlast
    exact hlast h

section

variable (hs : 0 ∉ s) (hb : Boundary s path)

include hs hb

/-- Where the three loops stop. -/
theorem next_of_loops {i j path' : ℕ}
    (h1 : path ≤ i) (hslash : ∀ k, path ≤ k → k < i → charAt s k = slash)
    (hij : i < j) (hj : j ≤ s.length) (hname : ∀ k, i ≤ k → k < j → charAt s k ≠ slash)
    (hend : charAt s j = slash ∨ charAt s j = 0) (h3 : j ≤ path') (hp' : path' ≤ s.length)
    (hslash' : ∀ k, j ≤ k → k < path' → charAt s k = slash) (hstop : charAt s path' ≠ slash) :
    Next s path i (j - i) path' := by
  have hback : i + (j - i) = j := Nat.add_sub_cancel' hij.le
  have hend' : j = s.length ∨ charAt s j = slash :=
    hend.symm.imp_left (charAt_eq_zero hs hj).mp
  refine ⟨⟨Nat.sub_pos_of_lt hij, hback.trans_le hj, fun k hk => ?_, ?_, ?_⟩, h1,
    hback.trans_le h3, ?_, ⟨hp', ?_⟩, hstop⟩
  · exact hname _ (Nat.le_add_right i k) (by omega)
  · rcases h1.eq_or_lt with rfl | hlt
    · rcases hb.2 with h | h | h
      · exact .inl h
      · exact absurd h (hij.trans_le hj).ne
      · exact .inr h
    · exact .inr (hslash _ (by omega) (by omega))
  · rwa [hback]
  · intro i' n' hi' hc
    have hle : i ≤ i' := by
      by_contra hlt
      exact hc.ne_slash (hslash i' hi' (not_le.mp hlt))
    rcases lt_or_ge i' j with hlt | hge
    · -- a component that starts in this one starts where it starts
      have hii : i' = i := by
        by_contra hne
        rcases hc.before with h | h
        · omega
        · exact hname (i' - 1) (by omega) (by omega) h
      subst hii
      refine .inl ⟨rfl, le_antisymm ?_ ?_⟩
      · by_contra hgt
        have hno := hc.name (j - i') (not_le.mp hgt)
        rw [hback] at hno
        rcases hend' with h | h
        · have := hc.inside
          omega
        · exact hno h
      by_contra hgt
      have hin : i' + n' < j := by omega
      rcases hc.after with h | h
      · omega
      · exact hname _ (Nat.le_add_right i' n') hin h
    · refine .inr ?_
      by_contra hlt
      exact hc.ne_slash (hslash' i' hge (not_le.mp hlt))
  · rcases h3.eq_or_lt with rfl | hlt
    · exact .inr (.inl (hend'.resolve_right hstop))
    · exact .inr (.inr (hslash' _ (by omega) (by omega)))

/-- **One call of `skipelem`**: no component is left, or the next one is in the buffer and the
pointer is behind it and the slashes that follow. -/
theorem skipelem_spec (name : Bytes DIRSIZ) : (skipelem s path name = (none, name) ∧
        ∀ k, path ≤ k → k < s.length → charAt s k = slash) ∨
      ∃ i n path' name', skipelem s path name = (some path', name') ∧ Next s path i n path' ∧
        Holds s (i, n) name' := by
  obtain ⟨h1, hi, hslash, hi'⟩ := skipSlashes_spec s.length path hb.1 (Nat.le_add_left _ _)
  rw [skipelem]
  generalize skipSlashes s s.length path = i at h1 hi hslash hi'
  by_cases hc : charAt s i = 0
  · obtain rfl := (charAt_eq_zero hs hi).mp hc
    exact .inl ⟨if_pos hc, hslash⟩
  obtain ⟨h2, hj, hname, hend⟩ := skipName_spec s.length i hi (Nat.le_add_left _ _)
  generalize skipName s s.length i = j at h2 hj hname hend
  obtain ⟨h3, hp', hslash', hstop⟩ := skipSlashes_spec s.length j hj (Nat.le_add_left _ _)
  have hij : i < j := by
    refine lt_of_le_of_ne h2 fun heq => ?_
    subst heq
    exact hend.elim hi' hc
  refine .inr ⟨i, j - i, _, _, if_neg hc,
    next_of_loops hs hb h1 hslash hij hj hname hend h3 hp' hslash' hstop, ?_⟩
  exact holds_copy (by omega) name

/-- Where no slashes are left to skip, no component is left at the terminating zero only. -/
theorem no_component_iff (hstop : charAt s path ≠ slash) :
    (∀ i n, path ≤ i → ¬Component s i n) ↔ charAt s path = 0 := by
  rw [charAt_eq_zero hs hb.1]
  constructor
  · intro hno
    rcases skipelem_spec hs hb .zero with ⟨-, hslash⟩ | ⟨i, n, _, _, -, hnext, -⟩
    · by_contra hne
      exact hstop (hslash path le_rfl (lt_of_le_of_ne hb.1 hne))
    · exact absurd hnext.component (hno i n hnext.le)
  · rintro rfl i n hle hc
    exact absurd hc.lt_length hle.not_gt

end

end Call

/-! ## All calls -/

/-- **The calls of `skipelem` on a path**, from a pointer at which a component may start: the
components from there on, in their order, and a pointer at the terminating zero after the last one
only. -/
theorem elements_from {s : List UInt8} (hs : 0 ∉ s) : ∀ (n path : ℕ) (name : Bytes DIRSIZ),
    Boundary s path → s.length < path + n →
    ∃ (out : List (Bytes DIRSIZ × ℕ)) (cs : List (ℕ × ℕ)), elements s n path name = some out ∧
      List.Forall₂ (fun o c => Holds s c o.1) out cs ∧
      (∀ c, c ∈ cs ↔ path ≤ c.1 ∧ Component s c.1 c.2) ∧
      cs.Pairwise (fun c c' => c.1 + c.2 < c'.1) ∧
      ∀ k (o : Bytes DIRSIZ × ℕ), out[k]? = some o → (charAt s o.2 = 0 ↔ k + 1 = out.length) := by
  intro n
  induction n with
  | zero =>
    intro path _ hb hlt
    exact absurd hb.1 (by omega)
  | succ n ih =>
    intro path name hb hlt
    rcases skipelem_spec hs hb name with ⟨heq, hslash⟩ | ⟨i, m, path', name', heq, hnext, hholds⟩
    · refine ⟨[], [], by rw [elements, heq], .nil, fun c => ?_, .nil, fun k o h => by simp at h⟩
      refine iff_of_false not_mem_nil fun h => ?_
      exact h.2.ne_slash (hslash c.1 h.1 h.2.lt_length)
    have hle := hnext.le.trans ((Nat.le_add_right i m).trans hnext.behind)
    have hmore := hnext.component.pos
    have hbehind := hnext.behind
    obtain ⟨out, cs, hout, hall, hmem, hpair, hlast⟩ :=
      ih path' name' hnext.boundary (by have := hnext.le; omega)
    refine ⟨(name', path') :: out, (i, m) :: cs, ?_, .cons hholds hall, fun c => ?_,
      .cons (fun c hc => ?_) hpair, fun k o hk => ?_⟩
    · rw [elements, heq]
      simp only [hout, Option.map_some]
    · rw [mem_cons, hmem]
      constructor
      · rintro (rfl | ⟨hc, hcomp⟩)
        · exact ⟨hnext.le, hnext.component⟩
        · exact ⟨hle.trans hc, hcomp⟩
      · rintro ⟨hc, hcomp⟩
        exact (hnext.first c.1 c.2 hc hcomp).imp (fun h => Prod.ext h.1 h.2) fun h => ⟨h, hcomp⟩
    · obtain ⟨hc, hcomp⟩ := (hmem c).mp hc
      exact hnext.component.lt_of_le hcomp (hnext.behind.trans hc)
    · cases k with
      | zero =>
        -- the pointer just returned: nothing is left at the terminating zero only
        obtain rfl : (name', path') = o := by simpa using hk
        rw [← no_component_iff hs hnext.boundary hnext.stopped, length_cons, hall.length_eq]
        constructor
        · intro hno
          have hnil : cs = [] := eq_nil_iff_forall_not_mem.mpr fun c hc =>
            hno c.1 c.2 ((hmem c).mp hc).1 ((hmem c).mp hc).2
          rw [hnil, length_nil]
        · intro hlen i' n' hi' hc
          have hnil : cs = [] := length_eq_zero_iff.mp (by omega)
          have hin := (hmem (i', n')).mpr ⟨hi', hc⟩
          rw [hnil] at hin
          exact absurd hin not_mem_nil
      | succ k =>
        rw [getElem?_cons_succ] at hk
        rw [hlast k o hk, length_cons, Nat.add_right_cancel_iff]

/-- More calls than are needed are not made. -/
theorem elements_of_le {s : List UInt8} : ∀ {n m path : ℕ} {name : Bytes DIRSIZ}
    {out : List (Bytes DIRSIZ × ℕ)}, n ≤ m → elements s n path name = some out →
    elements s m path name = some out := by
  intro n
  induction n with
  | zero =>
    intro m path name out _ h
    exact absurd h (by simp [elements])
  | succ n ih =>
    intro m path name out hle h
    obtain ⟨m, rfl⟩ := Nat.exists_eq_succ_of_ne_zero (by omega : m ≠ 0)
    rw [elements] at h ⊢
    rcases hskip : skipelem s path name with ⟨_ | path', name'⟩
    · rwa [hskip] at h
    · rw [hskip] at h
      obtain ⟨rest, hrest, rfl⟩ := Option.map_eq_some_iff.mp h
      simp only [ih (Nat.le_of_succ_le_succ hle) hrest, Option.map_some]

/-- **Calling `skipelem` until it returns 0** ends, for every path and whatever the buffer holds at
first. It yields the components of the path, all of them and no others, from left to right; each
truncated to `DIRSIZ` bytes, with a zero behind it where it is shorter. The pointer it returns is at
the terminating zero iff the component was the last one. -/
theorem skipelem_yields_components (s : List UInt8) (hs : 0 ∉ s) (name : Bytes DIRSIZ) :
    ∃ (out : List (Bytes DIRSIZ × ℕ)) (cs : List (ℕ × ℕ)),
      (∀ n, s.length < n → elements s n 0 name = some out) ∧
      List.Forall₂ (fun o c => Holds s c o.1) out cs ∧
      (∀ i n, (i, n) ∈ cs ↔ Component s i n) ∧
      cs.Pairwise (fun c c' => c.1 + c.2 < c'.1) ∧
      ∀ k (o : Bytes DIRSIZ × ℕ), out[k]? = some o → (charAt s o.2 = 0 ↔ k + 1 = out.length) := by
  obtain ⟨out, cs, hout, hall, hmem, hpair, hlast⟩ := elements_from hs (s.length + 1) 0 name
    ⟨Nat.zero_le _, .inl rfl⟩ (by omega)
  refine ⟨out, cs, fun n hn => elements_of_le hn hout, hall, fun i n => ?_, hpair, hlast⟩
  rw [hmem]
  exact and_iff_right (Nat.zero_le i)

/-- `//ab/c/`, with two components. -/
theorem skipelem_yields_two : ∃ (out : List (Bytes DIRSIZ × ℕ)) (cs : List (ℕ × ℕ)),
      (∀ n, 7 < n → elements [47, 47, 97, 98, 47, 99, 47] n 0 .zero = some out) ∧
      List.Forall₂ (fun o c => Holds [47, 47, 97, 98, 47, 99, 47] c o.1) out cs ∧
      (2, 2) ∈ cs ∧ (5, 1) ∈ cs := by
  obtain ⟨out, cs, hout, hall, hmem, -, -⟩ :=
    skipelem_yields_components [47, 47, 97, 98, 47, 99, 47] (by decide) .zero
  refine ⟨out, cs, hout, hall, (hmem 2 2).mpr ?_, (hmem 5 1).mpr ?_⟩
  · exact ⟨by decide, by decide, by decide, by decide, by decide⟩
  · exact ⟨by decide, by decide, by decide, by decide, by decide⟩

end Path

end Xv6
