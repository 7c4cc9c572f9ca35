import Mathlib.Data.List.TakeWhile

/-!
# `grep`

The matcher of `grep.c` and the loop around it.

* `match_iff`: the matcher decides the language of its pattern, which `Matches` defines.
* `grep_lines`: `grep` prints the lines that match, **if every `read` returns a newline**. A chunk
  without one is thrown away (`grep_drops`).

Strings are lists of bytes without the terminating zero.
-/

namespace Xv6

open List

namespace Grep

/-- `'.'` -/
def dot : UInt8 := 46
/-- `'*'` -/
def star : UInt8 := 42
/-- `'^'` -/
def caret : UInt8 := 94
/-- `'$'` -/
def dollar : UInt8 := 36
/-- `'\n'` -/
def newline : UInt8 := 10

/-! ## The matcher -/

/-- `matchstar(c, re, text)`, where `here` is `matchhere(re, ·)`. -/
def matchstar (here : List UInt8 → Bool) (c : UInt8) : List UInt8 → Bool
  | [] => here []
  | t :: text => here (t :: text) || ((t == c || c == dot) && matchstar here c text)

/-- The last test of `matchhere`: one character, and `here` for the rest. -/
def matchone (here : List UInt8 → Bool) (c : UInt8) : List UInt8 → Bool
  | [] => false
  | t :: text => (c == dot || c == t) && here text

/-- matchhere: search for re at beginning of text -/
def matchhere : List UInt8 → List UInt8 → Bool
  | [], _ => true
  | [c], text => if c = dollar then text.isEmpty else matchone (matchhere []) c text
  | c :: d :: re, text =>
    if d = star then matchstar (matchhere re) c text else matchone (matchhere (d :: re)) c text

/-- The loop of `match`. -/
def matchany (here : List UInt8 → Bool) : List UInt8 → Bool
  | [] => here []
  | t :: text => here (t :: text) || matchany here text

/-- `match(re, text)` -/
def matchRe (re text : List UInt8) : Bool :=
  if re.head? = some caret then matchhere re.tail text else matchany (matchhere re) text

theorem matchRe_nil (text : List UInt8) : matchRe [] text = true := by
  rcases text with _ | ⟨t, text⟩ <;> simp [matchRe, matchany, matchhere]

/-- The pattern `re` matches `u` where `rest` follows. -/
inductive Matches : List UInt8 → List UInt8 → List UInt8 → Prop
  | nil (rest : List UInt8) : Matches [] [] rest
  | star {c : UInt8} {re u v rest : List UInt8} (hu : ∀ t ∈ u, t = c ∨ c = dot)
      (h : Matches re v rest) : Matches (c :: star :: re) (u ++ v) rest
  | dollar : Matches [dollar] [] []
  | char {c t : UInt8} {re u rest : List UInt8} (hstar : re.head? ≠ some star)
      (hdollar : ¬(c = dollar ∧ re = [])) (hc : c = dot ∨ c = t) (h : Matches re u rest) :
      Matches (c :: re) (t :: u) rest

/-- Some beginning of `text` is matched. -/
def Begins (re text : List UInt8) : Prop := ∃ u rest, text = u ++ rest ∧ Matches re u rest

variable {here : List UInt8 → Bool}

theorem matchstar_iff {c : UInt8} : ∀ {text : List UInt8}, matchstar here c text = true ↔
      ∃ u v, text = u ++ v ∧ (∀ t ∈ u, t = c ∨ c = dot) ∧ here v = true
  | [] => by
    rw [matchstar]
    constructor
    · exact fun h => ⟨[], [], rfl, nofun, h⟩
    · rintro ⟨u, v, he, -, h⟩
      obtain ⟨-, rfl⟩ := append_eq_nil_iff.mp he.symm
      exact h
  | t :: text => by
    rw [matchstar, Bool.or_eq_true, Bool.and_eq_true, matchstar_iff, Bool.or_eq_true, beq_iff_eq,
      beq_iff_eq]
    constructor
    · rintro (h | ⟨ht, u, v, rfl, hu, h⟩)
      · exact ⟨[], _, rfl, nofun, h⟩
      · exact ⟨t :: u, v, rfl, forall_mem_cons.mpr ⟨ht, hu⟩, h⟩
    · rintro ⟨_ | ⟨t', u⟩, v, he, hu, h⟩
      · exact .inl (he ▸ h)
      · obtain ⟨rfl, rfl⟩ := List.cons.inj he
        obtain ⟨ht, hu⟩ := forall_mem_cons.mp hu
        exact .inr ⟨ht, u, v, rfl, hu, h⟩

theorem matchone_iff {c : UInt8} {re text : List UInt8}
    (hstar : re.head? ≠ some star) (hdollar : ¬(c = dollar ∧ re = []))
    (h : ∀ text, here text = true ↔ Begins re text) :
    matchone here c text = true ↔ Begins (c :: re) text := by
  constructor
  · rcases text with _ | ⟨t, text⟩
    · exact nofun
    · rw [matchone, Bool.and_eq_true, h, Bool.or_eq_true, beq_iff_eq, beq_iff_eq]
      rintro ⟨hc, u, rest, rfl, hm⟩
      exact ⟨t :: u, rest, rfl, .char hstar hdollar hc hm⟩
  · rintro ⟨u, rest, rfl, hm⟩
    cases hm with
    | star => exact absurd rfl hstar
    | dollar => exact absurd ⟨rfl, rfl⟩ hdollar
    | char _ _ hc hm =>
      rw [cons_append, matchone, Bool.and_eq_true, h, Bool.or_eq_true, beq_iff_eq, beq_iff_eq]
      exact ⟨hc, _, _, rfl, hm⟩

/-- **`matchhere`** tells whether some beginning of the text is matched. -/
theorem matchhere_iff : ∀ {re text : List UInt8}, matchhere re text = true ↔ Begins re text
  | [], text => by
    rw [matchhere]
    exact iff_of_true rfl ⟨[], text, rfl, .nil text⟩
  | [c], text => by
    rw [matchhere]
    split
    · rename_i hc
      rw [List.isEmpty_iff]
      constructor
      · rintro rfl
        exact ⟨[], [], rfl, hc ▸ .dollar⟩
      · rintro ⟨u, rest, rfl, hm⟩
        cases hm with
        | dollar => rfl
        | char _ hdollar => exact absurd ⟨hc, rfl⟩ hdollar
    · rename_i hc
      exact matchone_iff nofun (fun h => hc h.1) fun _ => matchhere_iff
  | c :: d :: re, text => by
    rw [matchhere]
    split
    · rename_i hd
      subst hd
      rw [matchstar_iff]
      constructor
      · rintro ⟨u, v, rfl, hu, h⟩
        obtain ⟨w, rest, rfl, hm⟩ := matchhere_iff.mp h
        exact ⟨u ++ w, rest, (append_assoc ..).symm, .star hu hm⟩
      · rintro ⟨u, rest, rfl, hm⟩
        cases hm with
        | star hu hm => exact ⟨_, _, append_assoc .., hu, matchhere_iff.mpr ⟨_, _, rfl, hm⟩⟩
        | char hstar => exact absurd rfl hstar
    · rename_i hd
      exact matchone_iff (by simpa using hd) (by simp) fun _ => matchhere_iff

theorem matchany_iff : ∀ {text : List UInt8},
    matchany here text = true ↔ ∃ pre v, text = pre ++ v ∧ here v = true
  | [] => by
    rw [matchany]
    exact ⟨fun h => ⟨[], [], rfl, h⟩, fun ⟨_, v, he, h⟩ => (append_eq_nil_iff.mp he.symm).2 ▸ h⟩
  | t :: text => by
    rw [matchany, Bool.or_eq_true, matchany_iff]
    constructor
    · rintro (h | ⟨pre, v, rfl, h⟩)
      · exact ⟨[], _, rfl, h⟩
      · exact ⟨t :: pre, v, rfl, h⟩
    · rintro ⟨_ | ⟨t', pre⟩, v, he, h⟩
      · exact .inl (he ▸ h)
      · exact .inr ⟨pre, v, (List.cons.inj he).2, h⟩

/-- **The matcher decides the language of its pattern**: it looks for a part of the text that the
pattern matches, and after `^` for a beginning. -/
theorem match_iff (re text : List UInt8) : matchRe re text = true ↔
    if re.head? = some caret then ∃ u rest, text = u ++ rest ∧ Matches re.tail u rest
    else ∃ pre u rest, text = pre ++ (u ++ rest) ∧ Matches re u rest := by
  rw [matchRe]
  split
  · exact matchhere_iff
  rw [matchany_iff]
  constructor
  · rintro ⟨pre, v, rfl, h⟩
    obtain ⟨u, rest, rfl, hm⟩ := matchhere_iff.mp h
    exact ⟨pre, u, rest, rfl, hm⟩
  · rintro ⟨pre, u, rest, rfl, hm⟩
    exact ⟨pre, u ++ rest, rfl, matchhere_iff.mpr ⟨u, rest, rfl, hm⟩⟩

/-! ## The loop over the input -/

/-- `sizeof(buf)` -/
def bufSize : ℕ := 1024

/-- The loop over the lines at `p`: what it writes, and where `p` ends. -/
def grepLines (pattern : List UInt8) : ℕ → List UInt8 → List UInt8 × List UInt8
  | 0, p => ([], p)
  | n + 1, p =>
    match p.dropWhile (· ≠ newline) with
    | [] => ([], p)
    | _ :: q =>
      let line := p.takeWhile (· ≠ newline)
      let r := grepLines pattern n q
      ((if matchRe pattern line then line ++ [newline] else []) ++ r.1, r.2)

/-- `grep(pattern, fd)`, with the first `m` bytes of `buf` and what the calls of `read` return, up
to the first that returns 0: what it writes. -/
def grep (pattern : List UInt8) : List UInt8 → List (List UInt8) → List UInt8
  | _, [] => []
  | m, chunk :: chunks =>
    -- A `read` of no bytes returns 0.
    if bufSize - m.length - 1 = 0 then []
    else
      let buf := m ++ chunk
      let r := grepLines pattern buf.length buf
      -- `p == buf`
      let m := if r.2.length = buf.length then [] else r.2
      r.1 ++ grep pattern m chunks

/-- The lines, with their newlines. -/
def joinLines (ls : List (List UInt8)) : List UInt8 := ls.flatMap (· ++ [newline])

@[simp] theorem joinLines_cons (l : List UInt8) (ls : List (List UInt8)) :
    joinLines (l :: ls) = l ++ newline :: joinLines ls := by
  simp [joinLines]

@[simp] theorem joinLines_append (ls1 ls2 : List (List UInt8)) :
    joinLines (ls1 ++ ls2) = joinLines ls1 ++ joinLines ls2 :=
  flatMap_append

theorem span_newline {l q : List UInt8} (hl : newline ∉ l) :
    (l ++ newline :: q).takeWhile (· ≠ newline) = l ∧
      (l ++ newline :: q).dropWhile (· ≠ newline) = newline :: q := by
  have hall : ∀ c ∈ l, decide (c ≠ newline) = true := fun c hc =>
    decide_eq_true (ne_of_mem_of_not_mem hc hl)
  rw [takeWhile_append_of_pos hall, dropWhile_append_of_pos hall]
  exact ⟨by simp, by simp⟩

/-- A text that begins a line without ending it is not longer than the line. -/
theorem length_le_of_begins {p rest l q : List UInt8} (hp : newline ∉ p)
    (h : p ++ rest = l ++ newline :: q) : p.length ≤ l.length := by
  rcases append_eq_append_iff.mp h with ⟨a, rfl, -⟩ | ⟨_ | ⟨c, a⟩, rfl, ha⟩
  · simp
  · simp
  · rw [← (List.cons.inj ha).1] at hp
    simp at hp

/-- **A pass over the buffer** handles the lines that end in it, and keeps the rest. -/
theorem grepLines_spec (pattern : List UInt8) {rest : List UInt8} :
    ∀ {n : ℕ} {p : List UInt8} {ls : List (List UInt8)}, (∀ l ∈ ls, newline ∉ l) →
      p ++ rest = joinLines ls → p.length ≤ n → ∃ ls1 ls2, ls = ls1 ++ ls2 ∧
        (grepLines pattern n p).1 = joinLines (ls1.filter (matchRe pattern)) ∧
        p = joinLines ls1 ++ (grepLines pattern n p).2 ∧ newline ∉ (grepLines pattern n p).2
  | 0, p, ls, _, _, hn => by
    obtain rfl := length_eq_zero_iff.mp (Nat.le_zero.mp hn)
    exact ⟨[], ls, rfl, rfl, rfl, nofun⟩
  | n + 1, p, ls, hls, h, hn => by
    by_cases hp : newline ∈ p
    · obtain ⟨a, q, rfl, ha⟩ := eq_append_cons_of_mem hp
      obtain ⟨htake, hdrop⟩ := span_newline (q := q) ha
      rcases ls with _ | ⟨l, ls⟩
      · simp [joinLines] at h
      obtain ⟨hl, hls'⟩ := forall_mem_cons.mp hls
      rw [joinLines_cons, append_assoc, cons_append] at h
      -- Both sides have their first newline at the end of the line.
      obtain rfl : a = l := by
        rw [← (span_newline ha).1, h, (span_newline hl).1]
      have hlen : q.length ≤ n := by
        simp only [length_append, length_cons] at hn
        omega
      obtain ⟨ls1, ls2, rfl, hout, hq, hnl⟩ :=
        grepLines_spec pattern hls' (List.cons.inj (append_cancel_left h)).2 hlen
      have hstep : grepLines pattern (n + 1) (a ++ newline :: q) =
          ((if matchRe pattern a then a ++ [newline] else []) ++ (grepLines pattern n q).1,
            (grepLines pattern n q).2) := by
        rw [grepLines, hdrop, htake]
      rw [hstep]
      refine ⟨a :: ls1, ls2, rfl, ?_, ?_, hnl⟩
      · rw [hout, filter_cons]
        split <;> simp
      · rw [joinLines_cons, append_assoc, cons_append, ← hq]
    · have hdrop : p.dropWhile (· ≠ newline) = [] :=
        dropWhile_eq_nil_iff.mpr fun c hc => decide_eq_true (ne_of_mem_of_not_mem hc hp)
      have hstop : grepLines pattern (n + 1) p = ([], p) := by rw [grepLines, hdrop]
      rw [hstop]
      exact ⟨[], ls, rfl, rfl, rfl, hp⟩

/-- What a pass keeps has no newline. -/
theorem grepLines_keeps (pattern : List UInt8) : ∀ {n : ℕ} {p : List UInt8}, p.length ≤ n →
    newline ∉ (grepLines pattern n p).2
  | 0, p, hn => by simp [length_eq_zero_iff.mp (Nat.le_zero.mp hn), grepLines]
  | n + 1, p, hn => by
    rw [grepLines]
    split
    · rename_i hdrop
      exact fun hp => by simpa using dropWhile_eq_nil_iff.mp hdrop newline hp
    · rename_i c q hdrop
      have hlen := congrArg length (takeWhile_append_dropWhile (p := (· ≠ newline)) (l := p))
      rw [hdrop, length_append, length_cons] at hlen
      exact grepLines_keeps pattern (by omega)

/-- `grep` from the middle of a line. -/
theorem grep_eq (pattern : List UInt8) : ∀ {chunks ls : List (List UInt8)} {m : List UInt8},
    (∀ l ∈ ls, newline ∉ l ∧ l.length + 1 < bufSize - 1) → newline ∉ m →
      m ++ chunks.flatten = joinLines ls → (∀ chunk ∈ chunks, newline ∈ chunk) →
      grep pattern m chunks = joinLines (ls.filter (matchRe pattern))
  | [], ls, m, hls, hm, h, _ => by
    -- All is read, and the last line is ended.
    rcases ls with _ | ⟨l, ls⟩
    · rfl
    · rw [flatten_nil, append_nil, joinLines_cons] at h
      rw [h] at hm
      simp at hm
  | chunk :: chunks, ls, m, hls, hm, h, hc => by
    obtain ⟨hc0, hc⟩ := forall_mem_cons.mp hc
    have hroom : m.length + 1 < bufSize - 1 := by
      rcases ls with _ | ⟨l, ls⟩
      · rw [(append_eq_nil_iff.mp h).1]
        decide
      · rw [joinLines_cons] at h
        have hle := length_le_of_begins hm h
        have hlt := (hls l mem_cons_self).2
        omega
    rw [flatten_cons, ← append_assoc] at h
    obtain ⟨ls1, ls2, rfl, hout, hbuf, hnl⟩ :=
      grepLines_spec pattern (fun l hl => (hls l hl).1) h (Nat.le_refl _)
    -- The pass went beyond the newline of the chunk, so `p` is not `buf`.
    have hp : (grepLines pattern (m ++ chunk).length (m ++ chunk)).2.length ≠
        (m ++ chunk).length := by
      intro he
      have heq := List.IsSuffix.eq_of_length ⟨_, hbuf.symm⟩ he
      rw [heq] at hnl
      exact hnl (mem_append_right m hc0)
    have hrest : (grepLines pattern (m ++ chunk).length (m ++ chunk)).2 ++ chunks.flatten =
        joinLines ls2 := by
      rw [hbuf, append_assoc, joinLines_append] at h
      exact append_cancel_left h
    rw [grep, if_neg (by omega)]
    simp only [if_neg hp]
    rw [hout, grep_eq pattern (fun l hl => hls l (mem_append_right _ hl)) hnl hrest hc,
      filter_append, joinLines_append]

/-- A pass over the buffer prints and keeps no more than there is. -/
theorem length_grepLines (pattern : List UInt8) : ∀ (n : ℕ) (p : List UInt8),
    (grepLines pattern n p).1.length + (grepLines pattern n p).2.length ≤ p.length
  | 0, p => by simp [grepLines]
  | n + 1, p => by
    rw [grepLines]
    split
    · simp
    · rename_i c q hdrop
      have hlen := congrArg length (takeWhile_append_dropWhile (p := (· ≠ newline)) (l := p))
      have hrest := length_grepLines pattern n q
      rw [hdrop, length_append, length_cons] at hlen
      dsimp only
      split
      · simp only [length_append, length_cons, length_nil]
        omega
      · simp only [nil_append]
        omega

/-- Nor does `grep`. -/
theorem length_grep (pattern : List UInt8) : ∀ (chunks : List (List UInt8)) (m : List UInt8),
    (grep pattern m chunks).length ≤ m.length + chunks.flatten.length
  | [], m => by simp [grep]
  | chunk :: chunks, m => by
    have hpass := length_grepLines pattern (m ++ chunk).length (m ++ chunk)
    have hbuf := @length_append _ m chunk
    rw [grep]
    split
    · simp
    · refine (length_append ..).trans_le
        ((Nat.add_le_add_left (length_grep pattern chunks _) _).trans ?_)
      rw [flatten_cons, @length_append _ chunk]
      split
      · simp only [length_nil]
        omega
      · omega

/-- What is in the buffer is lost at a chunk without a newline. -/
theorem grep_loses (pattern : List UInt8) : ∀ {chunks : List (List UInt8)} {m : List UInt8},
    newline ∉ m → (∀ chunk ∈ chunks, chunk ≠ []) → (∃ chunk ∈ chunks, newline ∉ chunk) →
      (grep pattern m chunks).length < m.length + chunks.flatten.length
  | [], _, _, _, hbad => by simp at hbad
  | chunk :: chunks, m, hm, hne, hbad => by
    have hpos : 0 < chunk.length := length_pos_iff.mpr (hne chunk mem_cons_self)
    have hpass := length_grepLines pattern (m ++ chunk).length (m ++ chunk)
    have hlen := @length_append _ m chunk
    rw [flatten_cons, @length_append _ chunk, grep]
    split
    · rw [length_nil]
      omega
    by_cases hc : newline ∈ chunk
    · have hrest : ∃ chunk ∈ chunks, newline ∉ chunk := by
        obtain ⟨bad, hmem, hbad⟩ := hbad
        rcases mem_cons.mp hmem with rfl | hmem
        · exact absurd hc hbad
        · exact ⟨bad, hmem, hbad⟩
      have hkept : newline ∉ (grepLines pattern (m ++ chunk).length (m ++ chunk)).2 :=
        grepLines_keeps pattern le_rfl
      rw [length_append]
      split
      · have := grep_loses pattern (m := []) (by simp)
          (fun c h => hne c (mem_cons_of_mem _ h)) hrest
        simp only [length_nil] at this
        omega
      · have := grep_loses pattern hkept (fun c h => hne c (mem_cons_of_mem _ h)) hrest
        omega
    · -- No newline is in the buffer: `p == buf`.
      have hbuf : newline ∉ m ++ chunk := by simp [hm, hc]
      have hdrop : (m ++ chunk).dropWhile (· ≠ newline) = [] :=
        dropWhile_eq_nil_iff.mpr fun c hc => decide_eq_true (ne_of_mem_of_not_mem hc hbuf)
      have hstop : ∀ n, grepLines pattern n (m ++ chunk) = ([], m ++ chunk) := by
        rintro (_ | n)
        · rfl
        · rw [grepLines, hdrop]
      simp only [hstop, if_true, nil_append]
      have := length_grep pattern chunks []
      rw [length_nil] at this
      omega

/-- **`grep` prints the lines that match**, in order, for every pattern, iff every `read` returns a
newline. The lines `ls` are shorter than the buffer, and `chunks` is any way to read them: without a
newline in a chunk the beginning of a line is lost, and the empty pattern, which matches every line,
shows it. -/
theorem grep_lines (ls chunks : List (List UInt8))
    (hls : ∀ l ∈ ls, newline ∉ l ∧ l.length + 1 < bufSize - 1)
    (h : chunks.flatten = joinLines ls) (hne : ∀ chunk ∈ chunks, chunk ≠ []) :
    (∀ pattern, grep pattern [] chunks = joinLines (ls.filter (matchRe pattern))) ↔
      ∀ chunk ∈ chunks, newline ∈ chunk := by
  refine ⟨fun hall => ?_, fun hc pattern => grep_eq pattern hls (by simp) h hc⟩
  by_contra hc
  simp only [not_forall, exists_prop] at hc
  have hlost := grep_loses [] (m := []) (by simp) hne hc
  have hmatch : ls.filter (matchRe []) = ls := filter_eq_self.mpr fun l _ => matchRe_nil l
  rw [hall [], hmatch, ← h] at hlost
  simp at hlost

/-- The lines `ab` and `a`, with the first newline and `a` in one chunk; the pattern is `a$`. -/
theorem grep_lines_two : grep [97, dollar] [] [[97, 98, newline, 97], [newline]] = [97, newline] :=
  (grep_lines [[97, 98], [97]] [[97, 98, newline, 97], [newline]] (by decide) (by decide)
    (by decide)).mpr (by decide) [97, dollar]

/-- The line `ab` in two chunks: the first has no newline and is dropped, and `grep a` prints
nothing. -/
theorem grep_drops : ∃ (pattern : List UInt8) (ls chunks : List (List UInt8)),
    (∀ l ∈ ls, 0 ∉ l ∧ newline ∉ l ∧ l.length + 1 < bufSize - 1) ∧
      chunks.flatten = joinLines ls ∧ (∀ chunk ∈ chunks, chunk ≠ [] ∧ chunk.length < bufSize - 1) ∧
      grep pattern [] chunks ≠ joinLines (ls.filter (matchRe pattern)) :=
  ⟨[97], [[97, 98]], [[97], [98, newline]], by decide, by decide, by decide, by decide⟩

end Grep

end Xv6
