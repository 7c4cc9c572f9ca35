import Xv6.Dir
import Xv6.Simulation

/-!
# `namei` and `nameiparent`

Both are one loop, `namex`, which walks along the components of the path. `nameiparent` stops before
the last of them, with the directory unlocked; to look the last name up in it is what `namei` does
next (`namei_nameiparent`).
-/

namespace Xv6

open Function List

namespace Code

/-- The names between the slashes of a path, cut to `DIRSIZ` bytes. -/
def components (path : List UInt8) : List (List UInt8) :=
  ((path.splitOnP (· == slash)).filter (· ≠ [])).map (·.take DIRSIZ)

/-- Go on with what was found. -/
def orStop {α β : Type} (f : α → Code (Option β)) : Option α → Code (Option β)
  | none => return none
  | some a => f a

/-- One round of `namex`: look `name` up in `ip`, and drop `ip`. -/
def enter (ip : ℕ) (name : List UInt8) : Code (Option ℕ) := do
  ilock ip
  let st ← stati ip
  if st.type ≠ T_DIR then
    iunlockput ip
    return none
  else
    let next ← dirlookup ip name
    iunlockput ip
    return next.map (·.1)

/-- The inode where `namex` starts. -/
def start (cwd : ℕ) (path : List UInt8) : Code ℕ := do
  if path.head? = some slash then
    iget ROOTINO
    return ROOTINO
  else
    idup cwd
    return cwd

/-- Follow the names, from `ip` on. -/
def follow (ip : ℕ) : List (List UInt8) → Code (Option ℕ)
  | [] => return some ip
  | name :: cs => enter ip name >>= orStop (follow · cs)

/-- Keep `ip` if it is a directory, and drop it if not. -/
def keepDir (ip : ℕ) : Code (Option ℕ) := do
  ilock ip
  let st ← stati ip
  if st.type ≠ T_DIR then
    iunlockput ip
    return none
  else
    iunlock ip
    return some ip

/-- `dirlookup(dp, name)`, with `dp` locked for it and then dropped. -/
def lookup (dp : ℕ) (name : List UInt8) : Code (Option ℕ) := do
  ilock dp
  let next ← dirlookup dp name
  iunlockput dp
  return next.map (·.1)

/-- The directory that the names lead to, from where the path starts. -/
def resolveDir (cwd : ℕ) (path : List UInt8) (cs : List (List UInt8)) : Code (Option ℕ) :=
  (start cwd path >>= (follow · cs)) >>= orStop keepDir

/-! ## Components -/

theorem path_cases : ∀ path : List UInt8, (∃ n, path = List.replicate n slash) ∨
    ∃ n a rest, path = List.replicate n slash ++ (a ++ rest) ∧ a ≠ [] ∧ slash ∉ a ∧
      (rest = [] ∨ rest.head? = some slash)
  | [] => .inl ⟨0, rfl⟩
  | c :: path => by
    by_cases hc : c = slash
    · subst hc
      rcases path_cases path with ⟨n, rfl⟩ | ⟨n, a, rest, rfl, h⟩
      · exact .inl ⟨n + 1, rfl⟩
      · exact .inr ⟨n + 1, a, rest, rfl, h⟩
    have hc' : slash ∉ [c] := by simpa using Ne.symm hc
    rcases path_cases path with ⟨n, rfl⟩ | ⟨_ | n, a, rest, rfl, -, hs, hr⟩
    · exact .inr ⟨0, [c], List.replicate n slash, rfl, nofun,
        hc', by cases n <;> simp [replicate_succ]⟩
    · exact .inr ⟨0, c :: a, rest, rfl, nofun, by simp [Ne.symm hc, hs], hr⟩
    · exact .inr ⟨0, [c], _, rfl, nofun, hc', .inr rfl⟩

theorem components_slashes (p : List UInt8) : ∀ n : ℕ,
    components (List.replicate n slash ++ p) = components p
  | 0 => rfl
  | n + 1 => by
    rw [← components_slashes p n, replicate_succ, cons_append, components,
      splitOnP_cons_eq_if_modifyHead]
    simp [components]

theorem components_replicate (n : ℕ) : components (List.replicate n slash) = [] := by
  rw [← append_nil (List.replicate n slash), components_slashes]
  rfl

section Name

variable {a rest : List UInt8} (ha : a ≠ []) (hs : slash ∉ a)
include ha hs

theorem components_append (hr : rest = [] ∨ rest.head? = some slash) :
    components (a ++ rest) = a.take DIRSIZ :: components rest := by
  have hsep : ∀ c ∈ a, (c == slash) = false := fun c hc =>
    beq_eq_false_iff_ne.mpr (ne_of_mem_of_not_mem hc hs)
  rcases rest with _ | ⟨c, rest⟩
  · rw [append_nil, components, splitOnP_eq_singleton hsep]
    simp [ha, components]
  · obtain rfl : c = slash := by simpa using hr
    rw [components, splitOnP_append_cons_of_forall_mem hsep _ (by simp),
      show slash :: rest = List.replicate 1 slash ++ rest from rfl, components_slashes]
    simp [ha, components]

theorem dropWhile_slashes (n : ℕ) :
    (List.replicate n slash ++ (a ++ rest)).dropWhile (· = slash) = a ++ rest := by
  obtain ⟨c, a, rfl⟩ := exists_cons_of_ne_nil ha
  have hc : c ≠ slash := fun h => hs (h ▸ mem_cons_self)
  rw [dropWhile_append_of_pos (by simp), cons_append, dropWhile_cons_of_neg (by simpa using hc)]

theorem skipelem_append (n : ℕ) (hr : rest = [] ∨ rest.head? = some slash) :
    skipelem (List.replicate n slash ++ (a ++ rest)) =
      some (a.take DIRSIZ, rest.dropWhile (· = slash)) := by
  have hsep : ∀ c ∈ a, decide (c ≠ slash) = true := fun c hc =>
    decide_eq_true (ne_of_mem_of_not_mem hc hs)
  have hrest : rest.takeWhile (· ≠ slash) = [] ∧ rest.dropWhile (· ≠ slash) = rest := by
    rcases rest with _ | ⟨c, rest⟩
    · exact ⟨rfl, rfl⟩
    · obtain rfl : c = slash := by simpa using hr
      simp
  rw [skipelem]
  simp only [dropWhile_slashes ha hs n]
  rw [if_neg (by simp [ha]), takeWhile_append_of_pos hsep, dropWhile_append_of_pos hsep,
    hrest.1, hrest.2, append_nil]

end Name

theorem components_dropWhile (path : List UInt8) :
    components (path.dropWhile (· = slash)) = components path ∧
      (path.dropWhile (· = slash) = [] ↔ components path = []) := by
  rcases path_cases path with ⟨n, rfl⟩ | ⟨n, a, rest, rfl, ha, hs, hr⟩
  · rw [components_replicate, dropWhile_replicate]
    simp [components]
  · rw [dropWhile_slashes ha hs, components_slashes, components_append ha hs hr]
    simp [ha]

/-- **`skipelem`** takes the first component off. -/
theorem skipelem_cases (path : List UInt8) : (skipelem path = none ∧ components path = []) ∨
    ∃ name path', skipelem path = some (name, path') ∧ components path = name :: components path' ∧
      (path' = [] ↔ components path' = []) ∧ path'.length < path.length := by
  rcases path_cases path with ⟨n, rfl⟩ | ⟨n, a, rest, rfl, ha, hs, hr⟩
  · exact .inl ⟨by simp [skipelem], components_replicate n⟩
  obtain ⟨hsame, hnil⟩ := components_dropWhile rest
  refine .inr ⟨_, _, skipelem_append ha hs n hr, ?_, ?_, ?_⟩
  · rw [components_slashes, components_append ha hs hr, hsame]
  · rw [hnil, hsame]
  · have hlen := (dropWhile_sublist (l := rest) (· = slash)).length_le
    have hpos := length_pos_iff.mpr ha
    simp only [length_append]
    omega

/-! ## The loop -/

theorem orStop_assoc {α β γ : Type} (p : Code (Option α)) (f : α → Code (Option β))
    (g : β → Code (Option γ)) :
    (p >>= orStop f) >>= orStop g = p >>= orStop fun a => f a >>= orStop g := by
  rw [bind_assoc]
  exact bind_congr fun r => by cases r <;> simp [orStop]

theorem orStop_return {α : Type} (p : Code (Option α)) : p >>= orStop (return some ·) = p := by
  conv_rhs => rw [← bind_pure p]
  exact bind_congr fun r => by cases r <;> rfl

theorem follow_append (cs cs' : List (List UInt8)) : ∀ ip,
    follow ip (cs ++ cs') = follow ip cs >>= orStop (follow · cs') := by
  induction cs with
  | nil => exact fun ip => (pure_bind ..).symm
  | cons name cs ih =>
    intro ip
    rw [cons_append, follow, follow, orStop_assoc, funext ih]

/-- A round of the loop that does not stop early. -/
theorem namexFrom_round {np : Bool} {fuel ip : ℕ} {name path path' : List UInt8}
    (hskip : skipelem path = some (name, path')) (hgo : ¬(np = true ∧ path' = [])) :
    namexFrom np (fuel + 1) ip path = enter ip name >>= orStop (namexFrom np fuel · path') := by
  rw [namexFrom, hskip, enter, bind_assoc]
  refine bind_congr fun _ => ?_
  rw [bind_assoc]
  refine bind_congr fun st => ?_
  split
  · simp [orStop]
  rw [bind_assoc]
  refine bind_congr fun next => ?_
  rcases next with _ | ⟨next, off⟩
  · simp [orStop]
  · simp [orStop]

theorem namexFrom_false : ∀ {fuel ip : ℕ} {path : List UInt8}, path.length < fuel →
    namexFrom false fuel ip path =
      follow ip (components path) >>= orStop fun ip => return some (ip, [])
  | fuel + 1, ip, path, h => by
    rcases skipelem_cases path with ⟨hskip, hnil⟩ | ⟨name, path', hskip, hcons, -, hlen⟩
    · rw [namexFrom, hskip, hnil]
      rfl
    · rw [namexFrom_round hskip (by simp), hcons, follow, orStop_assoc]
      congr 2
      exact funext fun next => namexFrom_false (by omega)

theorem namexFrom_true {name : List UInt8} : ∀ {fuel : ℕ} {cs : List (List UInt8)} {ip : ℕ}
    {path : List UInt8}, path.length < fuel → components path = cs ++ [name] →
      namexFrom true fuel ip path =
        (follow ip cs >>= orStop keepDir) >>= orStop fun dp => return some (dp, name)
  | fuel + 1, cs, ip, path, h, hpath => by
    rcases skipelem_cases path with ⟨-, hnil⟩ | ⟨name', path', hskip, hcons, hlast, hlen⟩
    · exact absurd (hpath.symm.trans hnil) (by simp)
    rw [hcons] at hpath
    rcases cs with _ | ⟨c, cs⟩
    · obtain ⟨rfl, hnil⟩ := List.cons.inj hpath
      rw [namexFrom, hskip, follow, pure_bind, orStop, keepDir, bind_assoc]
      refine bind_congr fun _ => ?_
      rw [bind_assoc]
      refine bind_congr fun st => ?_
      split
      · simp [orStop]
      · simp [orStop, hlast.mpr hnil]
    obtain ⟨rfl, hpath'⟩ := List.cons.inj hpath
    have hne : path' ≠ [] := fun h' => by simp [hlast.mp h'] at hpath'
    rw [namexFrom_round hskip (by simp [hne]), follow, orStop_assoc, orStop_assoc]
    congr 2
    exact funext fun next => (namexFrom_true (by omega) hpath').trans (orStop_assoc ..)

theorem namex_eq (cwd : ℕ) (path : List UInt8) (np : Bool) :
    namex cwd path np = start cwd path >>= fun ip => namexFrom np (path.length + 1) ip path := by
  rw [namex, start]
  split
  · simp
  · simp

section Parent

variable {cwd : ℕ} {path name : List UInt8} {cs : List (List UInt8)}

theorem namei_eq : namei cwd path = start cwd path >>= (follow · (components path)) := by
  rw [namei, namex_eq, bind_assoc]
  refine bind_congr fun ip => ?_
  rw [namexFrom_false (Nat.lt_succ_self _), bind_assoc]
  conv_rhs => rw [← orStop_return (follow ip _)]
  exact bind_congr fun r => by cases r <;> rfl

/-- `nameiparent` stops at the parent, if this is a directory. -/
theorem nameiparent_eq (h : components path = cs ++ [name]) :
    nameiparent cwd path = resolveDir cwd path cs >>= orStop fun dp => return some (dp, name) := by
  rw [nameiparent, namex_eq, resolveDir, bind_assoc, bind_assoc]
  refine bind_congr fun ip => (namexFrom_true (Nat.lt_succ_self _) h).trans ?_
  rw [bind_assoc]

end Parent

end Code

/-! ## On the disk -/

variable {sb : Superblock} {s s' s1 : FsState}

/-- Run a program on the disk. -/
abbrev Fs.run {α : Type} (sb : Superblock) (p : Code α) : FS α := Prog.exec (Fs.exec sb) p

namespace Fs

open Exec Code

theorem run_bind_ok {α β : Type} {p : Code α} {f : α → Code β} {a : α}
    (h : run sb p s = .ok (a, s1)) : run sb (p >>= f) s = run sb (f a) s1 :=
  Prog.exec_bind_ok h

theorem run_bind_error {α β : Type} {p : Code α} {f : α → Code β} {e : Stop}
    (h : run sb p s = .error e) : run sb (p >>= f) s = .error e :=
  (Prog.exec_bind ..).trans (bind_error h)

theorem locked_of_ilock {i : ℕ} (h : ilock sb i s = .ok ((), s1)) :
    0 < (s1.icache i).ref ∧ (s1.icache i).busy = true ∧ (s1.icache i).valid = true := by
  rw [ilock] at h
  obtain ⟨ip, s', hip, h⟩ := ok_of_bind h
  cases hip
  split at h
  · cases h
  split at h
  · cases h
  rename_i href hbusy
  obtain ⟨⟨⟩, s', hset, h⟩ := ok_of_bind h
  cases hset
  split at h
  · rename_i hvalid
    cases h
    simp only [update_self]
    exact ⟨Nat.not_lt.mp href, trivial, hvalid⟩
  obtain ⟨bp, s', hbp, h⟩ := ok_of_bind h
  obtain ⟨⟨⟩, s'', hset, h⟩ := ok_of_bind h
  cases hset
  split at h
  · cases h
  · cases h
    simp only [update_self]
    exact ⟨Nat.not_lt.mp href, trivial, trivial⟩

/-- An inode that was locked can be unlocked and locked again. -/
theorem relock {i : ℕ} (h : run sb (Code.ilock i) s = .ok ((), s1)) :
    ∃ s2, run sb (Code.iunlock i) s1 = .ok ((), s2) ∧ run sb (Code.ilock i) s2 = .ok ((), s1) ∧
      (s2.icache i).d = (s1.icache i).d := by
  obtain ⟨href, hbusy, hvalid⟩ := locked_of_ilock ((Prog.exec_call ..).symm.trans h)
  refine ⟨{ s1 with icache := update s1.icache i { s1.icache i with busy := false } },
    (Prog.exec_call ..).trans ?_, (Prog.exec_call ..).trans ?_, ?_⟩
  · show iunlock i s1 = _
    rw [iunlock]
    refine (bind_ok rfl).trans ?_
    rw [if_neg (by simp [hbusy]; omega)]
    rfl
  · show ilock sb i _ = _
    rw [ilock]
    refine (bind_ok rfl).trans ?_
    simp only [update_self]
    rw [if_neg (by omega), if_neg (by simp)]
    refine (bind_ok rfl).trans ?_
    have hsame : { s1.icache i with busy := true } = s1.icache i := by rw [← hbusy]
    have hback : update (update s1.icache i { s1.icache i with busy := false }) i
        { s1.icache i with busy := true } = s1.icache := by
      rw [update_idem, hsame, update_eq_self]
    rw [if_pos hvalid]
    exact congrArg (fun c => Except.ok ((), { s1 with icache := c })) hback
  · simp only [update_self]

theorem run_stati (i : ℕ) : run sb (Code.stati i) s =
    .ok (⟨(s.icache i).d.type, (s.icache i).d.nlink, (s.icache i).d.size⟩, s) :=
  Prog.exec_call ..

section OrStop

variable {α β : Type} {p : Code (Option α)} {f g : α → Code (Option β)}

theorem run_orStop_some {b : β} : run sb (p >>= orStop f) s = .ok (some b, s') ↔
    ∃ a s1, run sb p s = .ok (some a, s1) ∧ run sb (f a) s1 = .ok (some b, s') := by
  rcases hp : run sb p s with e | ⟨_ | a, s1⟩
  · simp [run_bind_error hp]
  · simp [run_bind_ok hp, orStop, Prog.exec, pure, Exec.pure]
  · simp [run_bind_ok hp, orStop]

theorem run_orStop_none : run sb (p >>= orStop f) s = .ok (none, s') ↔
    run sb p s = .ok (none, s') ∨
      ∃ a s1, run sb p s = .ok (some a, s1) ∧ run sb (f a) s1 = .ok (none, s') := by
  rcases hp : run sb p s with e | ⟨_ | a, s1⟩
  · simp [run_bind_error hp]
  · simp [run_bind_ok hp, orStop, Prog.exec, pure, Exec.pure]
  · simp [run_bind_ok hp, orStop]

theorem run_orStop_congr (h : ∀ a s, run sb (f a) s = run sb (g a) s) :
    run sb (p >>= orStop f) s = run sb (p >>= orStop g) s := by
  rcases hp : run sb p s with e | ⟨_ | a, s1⟩
  · rw [run_bind_error hp, run_bind_error hp]
  · rw [run_bind_ok hp, run_bind_ok hp, orStop, orStop]
  · rw [run_bind_ok hp, run_bind_ok hp]
    exact h a s1

end OrStop

/-- A round of the loop is to stop at the directory, and to look the name up in it. -/
theorem run_enter (ip : ℕ) (name : List UInt8) (s : FsState) :
    run sb (enter ip name) s = run sb (keepDir ip >>= orStop (lookup · name)) s := by
  rcases hl : run sb (Code.ilock ip) s with e | ⟨⟨⟩, s1⟩
  · rw [enter, keepDir, bind_assoc, run_bind_error hl, run_bind_error hl]
  obtain ⟨s2, hu, hl2, -⟩ := relock hl
  rw [enter, keepDir, bind_assoc, run_bind_ok hl, run_bind_ok hl, bind_assoc,
    run_bind_ok (run_stati ip), run_bind_ok (run_stati ip)]
  split
  · rw [bind_assoc]
    rfl
  · rw [bind_assoc, run_bind_ok hu, pure_bind, orStop, Code.lookup, run_bind_ok hl2]

theorem keepDir_some {ip dp : ℕ} (h : run sb (keepDir ip) s = .ok (some dp, s1)) :
    (s1.icache dp).d.type = T_DIR := by
  rcases hl : run sb (Code.ilock ip) s with e | ⟨⟨⟩, s2⟩
  · rw [keepDir, run_bind_error hl] at h
    cases h
  obtain ⟨s3, hu, -, hd⟩ := relock hl
  rw [keepDir, run_bind_ok hl, run_bind_ok (run_stati ip)] at h
  split at h
  · obtain ⟨⟨⟩, s4, -, h⟩ := ok_of_bind ((Prog.exec_bind ..).symm.trans h)
    cases h
  rename_i ht
  rw [run_bind_ok hu] at h
  cases h
  rw [hd]
  exact not_not.mp ht

section Parent

variable {cwd : ℕ} {path name : List UInt8} {cs : List (List UInt8)}

theorem run_namei (h : components path = cs ++ [name]) :
    run sb (namei cwd path) s = run sb (resolveDir cwd path cs >>= orStop (lookup · name)) s := by
  have hlast : namei cwd path = (start cwd path >>= (follow · cs)) >>= orStop (enter · name) := by
    rw [namei_eq, h, bind_assoc]
    refine bind_congr fun ip => (follow_append cs [name] ip).trans ?_
    congr 2
    exact funext fun dp => orStop_return _
  rw [hlast, resolveDir, orStop_assoc]
  exact run_orStop_congr fun ip => run_enter ip name

/-- The walk ends where a name on the way is not a directory. -/
theorem resolveDir_append (cs' : List (List UInt8))
    (h : run sb (resolveDir cwd path cs) s = .ok (none, s')) :
    run sb (resolveDir cwd path (cs ++ cs')) s = .ok (none, s') := by
  rcases cs' with _ | ⟨name, cs'⟩
  · rwa [append_nil]
  have hwalk : resolveDir cwd path (cs ++ name :: cs') =
      (start cwd path >>= (follow · cs)) >>= orStop fun ip =>
        enter ip name >>= orStop fun next => follow next cs' >>= orStop keepDir := by
    rw [resolveDir, bind_assoc, bind_assoc]
    refine bind_congr fun ip => ?_
    rw [follow_append, orStop_assoc]
    congr 2
    exact funext fun dp => orStop_assoc ..
  rw [hwalk, ← orStop_assoc, run_orStop_none]
  refine .inl ((run_orStop_congr fun ip => run_enter ip name).trans ?_)
  rw [← orStop_assoc]
  exact run_orStop_none.mpr (.inl h)

theorem resolveDir_type {dp : ℕ} (h : run sb (resolveDir cwd path cs) s = .ok (some dp, s1)) :
    (s1.icache dp).d.type = T_DIR := by
  obtain ⟨ip, s0, -, hkeep⟩ := run_orStop_some.mp h
  exact keepDir_some hkeep

theorem run_nameiparent {dp : ℕ} {name' : List UInt8} (h : components path = cs ++ [name]) :
    run sb (nameiparent cwd path) s = .ok (some (dp, name'), s1) ↔
      run sb (resolveDir cwd path cs) s = .ok (some dp, s1) ∧ name' = name := by
  rw [nameiparent_eq h, run_orStop_some]
  constructor
  · rintro ⟨dp, s1, hdp, heq⟩
    cases heq
    exact ⟨hdp, rfl⟩
  · rintro ⟨hdp, rfl⟩
    exact ⟨dp, s1, hdp, rfl⟩

theorem run_nameiparent_none (h : components path = cs ++ [name]) :
    run sb (nameiparent cwd path) s = .ok (none, s') ↔
      run sb (resolveDir cwd path cs) s = .ok (none, s') := by
  rw [nameiparent_eq h, run_orStop_none]
  refine or_iff_left ?_
  rintro ⟨dp, s1, -, heq⟩
  cases heq

end Parent

/-- **`namei` and `nameiparent` agree** on a path with at least one component, the last being
`name`. -/
theorem namei_nameiparent (sb : Superblock) (s : FsState) (cwd : ℕ) (path name : List UInt8)
    (cs : List (List UInt8)) (h : components path = cs ++ [name]) :
    (∀ i s', run sb (namei cwd path) s = .ok (some i, s') ↔
      ∃ dp s1, run sb (nameiparent cwd path) s = .ok (some (dp, name), s1) ∧
        (s1.icache dp).d.type = T_DIR ∧ run sb (lookup dp name) s1 = .ok (some i, s')) ∧
    (∀ dp name' s1, run sb (nameiparent cwd path) s = .ok (some (dp, name'), s1) →
      name' = name ∧ (s1.icache dp).d.type = T_DIR) ∧
    ((∃ s', run sb (nameiparent cwd path) s = .ok (none, s')) ↔
      ∃ pre, pre <+: cs ∧ ∃ s', run sb (resolveDir cwd path pre) s = .ok (none, s')) := by
  refine ⟨fun i s' => ?_, fun dp name' s1 hdp => ?_, ?_, ?_⟩
  · rw [run_namei h, run_orStop_some]
    constructor
    · rintro ⟨dp, s1, hdp, hi⟩
      exact ⟨dp, s1, (run_nameiparent h).mpr ⟨hdp, rfl⟩, resolveDir_type hdp, hi⟩
    · rintro ⟨dp, s1, hdp, -, hi⟩
      exact ⟨dp, s1, ((run_nameiparent h).mp hdp).1, hi⟩
  · obtain ⟨hdp, hname⟩ := (run_nameiparent h).mp hdp
    exact ⟨hname, resolveDir_type hdp⟩
  · rintro ⟨s', hnone⟩
    exact ⟨cs, prefix_refl _, s', (run_nameiparent_none h).mp hnone⟩
  · rintro ⟨pre, ⟨cs', rfl⟩, s', hnone⟩
    exact ⟨s', (run_nameiparent_none h).mpr (resolveDir_append cs' hnone)⟩

/-- An empty directory is open, and nothing else. -/
def emptyDir : FsState where
  disk _ := Bytes.zero
  icache _ := ⟨1, false, true, ⟨T_DIR, 0, 0, 1, 0, fun _ => 0⟩⟩
  nused := 1
  logged := []

theorem namei_nameiparent_empty : ∃ sb s1,
    run sb (nameiparent 1 [97]) emptyDir = .ok (some (1, [97]), s1) ∧
      (s1.icache 1).d.type = T_DIR :=
  ⟨⟨1000, 941, 200, 30, 2, 32, 58⟩, _, rfl,
    ((namei_nameiparent ⟨1000, 941, 200, 30, 2, 32, 58⟩ emptyDir 1 [97] [97] [] rfl).2.1 1 [97] _
      rfl).2⟩

end Fs

end Xv6
