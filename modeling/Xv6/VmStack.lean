import Xv6.VmSpace

/-!
# The stack of a new program

After the segments `exec` adds two pages: the lower one is taken from the user (`clearpteu`), the
upper one is the stack, into which `copyout` writes the argument strings and `ustack`. `copyout`
fails at a page that the user may not use. So the lower page guards what is below it: **arguments
that do not fit into the stack page make `exec` fail**, as long as the stack pointer does not wrap
around (`pushArgs_img`).

What the program then finds is computed by `stackBytes`; `stack_words` and `stack_strings` say what
that is.
-/

namespace Xv6

open Exec Roots List

/-- The word at address `a`. -/
def wordAt (f : ℕ → UInt8) (a : ℕ) : ℕ :=
  (f a).toNat + 256 * (f (a + 1)).toNat + 65536 * (f (a + 2)).toNat + 16777216 * (f (a + 3)).toNat

theorem wordAt_congr {f f' : ℕ → UInt8} {a : ℕ} (h : ∀ v, a ≤ v → v < a + 4 → f v = f' v) :
    wordAt f a = wordAt f' a := by
  rw [wordAt, wordAt, h a (by omega) (by omega), h (a + 1) (by omega) (by omega),
    h (a + 2) (by omega) (by omega), h (a + 3) (by omega) (by omega)]

/-- A list of words, as it is written. -/
theorem wordAt_overlay {f : ℕ → UInt8} : ∀ (ws : List ℕ) (a i : ℕ) (hi : i < ws.length),
    ws[i] < 2 ^ 32 → wordAt (overlay f a (ws.flatMap Bytes.le32)) (a + 4 * i) = ws[i] := by
  intro ws
  induction ws generalizing f with
  | nil => exact fun _ _ hi => absurd hi (Nat.not_lt_zero _)
  | cons w ws ih =>
    intro a i hi hw
    have hlen : (Bytes.le32 w).length = 4 := rfl
    rw [flatMap_cons, ← overlay_append, hlen]
    cases i with
    | zero =>
      have hlow : ∀ v, a ≤ v → v < a + 4 →
          overlay (overlay f a (Bytes.le32 w)) (a + 4) (ws.flatMap Bytes.le32) v =
            overlay f a (Bytes.le32 w) v := fun v _ hv => overlay_of_lt hv
      rw [getElem_cons_zero] at hw ⊢
      rw [show a + 4 * 0 = a from rfl, wordAt_congr hlow, wordAt]
      have hbyte : ∀ j < 4, overlay f a (Bytes.le32 w) (a + j) = (Bytes.le32 w).getD j 0 :=
        fun _ hj => (overlay_of_mem hj).trans (getElem_eq_getD 0)
      rw [show overlay f a (Bytes.le32 w) a = _ from hbyte 0 (by decide), hbyte 1 (by decide),
        hbyte 2 (by decide), hbyte 3 (by decide)]
      simp [Bytes.le32]
      omega
    | succ i =>
      rw [getElem_cons_succ] at hw ⊢
      rw [Nat.mul_succ, Nat.add_comm (4 * i), ← Nat.add_assoc]
      exact ih (a + 4) i (by simpa using hi) hw

variable {args : List (List UInt8)} {phs : List Segment} {elf : Bool}

namespace Kmem

variable {d cur : ℕ} {np : ℕ} {k0 k : Kmem} {R0 R : Roots} {x va n N b sz : ℕ} {E : Stop → Prop}
  {g : ℕ → Prop} {f : ℕ → UInt8}

/-! ## `clearpteu` and `copyout` -/

theorem clearpteu_frame (hm : Mapped R k .fresh sz) (hd : R.root .fresh = some d) (hva : va < sz) :
    Ends (clearpteu d va) k (fun _ k' => ∃ t, R.page k.mem (.tab .fresh (PDX va)) = some t ∧
      k' = { k with mem := Function.update k.mem t ((k.mem t).setU32 (4 * PTX va)
        (if PTE_U (k.word t (PTX va)) then k.word t (PTX va) - 4 else k.word t (PTX va))) }) E := by
  rw [clearpteu]
  refine (walkpgdir_false.and (walkpgdir_mapped (E := E) hm hd hva)).bind ?_
  rintro _ _ ⟨⟨rfl, ⟨t, rfl, ht⟩ | ⟨rfl, -⟩⟩, -, t', ht', -, hx⟩
  · obtain ⟨rfl, -⟩ := Prod.mk.inj (Option.some.inj ht')
    obtain ⟨⟨h5, -⟩, -⟩ := user_eq_some.mp hx
    exact ends_bind_gets (ends_modify ⟨t, tab_eq_some.mpr ⟨h5.trans (by decide), d, hd, ht⟩, rfl⟩)
  · cases ht'

section

variable (hd : R.root .fresh = some d)

include hd

omit hd in
/-- The entries of the kernel part are not for the user. -/
theorem not_PTE_U_kernelTable {i j : ℕ} (hj : j < NPTENTRIES) :
    ¬PTE_U ((kernelTable i).u32 (4 * j)) := by
  have hlt : 4 * j < PGSIZE := by
    have hn : NPTENTRIES = 1024 := rfl
    rw [PGSIZE_eq]
    omega
  have hbyte : ((kernelTable i).get (4 * j)).toNat = 1 := by
    rw [Bytes.get, dif_pos hlt, kernelTable]
    have hzero : 4 * j % 4 = 0 := by omega
    rw [hzero, pow_zero, Nat.div_one, kernelPte]
    split <;> simp [mkPte, PGSIZE_eq, Nat.add_mod, Nat.mul_mod]
  rw [PTE_U, Bytes.u32, hbyte]
  omega

/-- **`clearpteu`** takes a page from the user. -/
theorem clearpteu_img (hsz : sz ≤ KERNBASE) (hn : npages sz ≤ n)
    (hva : va < sz) (h : Img np k0 R0 R N g k n f) :
    Ends (clearpteu d va) k
      (fun _ k' => Img np k0 R0 R N (fun i => g i ∨ i = va / PGSIZE) k' n f) E := by
  have hp := PGSIZE_eq
  have hk : va < KERNBASE := hva.trans_le hsz
  refine ((clearpteu_frame (h.mapped hsz hn) hd hva).and (clearpteu_spec hd hk h.acc.inv)).mono ?_
  rintro _ k' ⟨⟨t, ht, hk'⟩, hw⟩
  have hpage := hw.page
  have hin : va / PGSIZE < n := by
    rw [npages, hp] at hn
    rw [hp]
    omega
  refine ⟨h.acc.same hw.inv (by rw [hk']) (.write (o := .tab .fresh (PDX va)) rfl ht (by rw [hk'])
    (by rw [hk'])) hpage, hw.upto h.upto, ?_, ?_, fun v y hy => ?_, fun v y t' hy ht' => ?_, ?_,
    h.zero, fun i hi => by rw [hpage]; exact h.kmaps i hi⟩
  · intro i hi
    rw [← h.tabs i hi, hpage]
  · rw [h.count, hk']
    rfl
  · rw [hpage] at hy
    have hyt : y ≠ t := by
      rintro rfl
      cases h.acc.inv.inj _ _ y hy ht
    rw [hk', ← h.bytes v y hy]
    exact congrArg (Bytes.get · _) (Function.update_of_ne hyt ..)
  · rw [hpage] at hy ht'
    have hold := h.user v y t' hy ht'
    by_cases hv : v / PGSIZE = va / PGSIZE
    · obtain ⟨hpdx, hptx⟩ := same_page hv
      rw [hpdx, ht] at ht'
      obtain rfl := Option.some.inj ht'
      have hlt : k.word t (PTX va) < 2 ^ 32 := Bytes.u32_lt _ _
      have hword : k'.word t (PTX va) =
          if PTE_U (k.word t (PTX va)) then k.word t (PTX va) - 4 else k.word t (PTX va) := by
        rw [hk']
        exact word_setWord_self PTX_lt (pte_clearU hlt).1
      rw [hptx, hword, hv]
      refine iff_of_false ?_ fun hc => hc (.inr rfl)
      split
      · rename_i hu
        rw [PTE_U] at hu ⊢
        omega
      · rename_i hu
        exact hu
    · have hword : k'.word t' (PTX v) = k.word t' (PTX v) := by
        rw [hk']
        refine word_setWord_ne fun hc => hv ?_
        obtain ⟨rfl, hptx⟩ := hc
        have hpdx : PDX v = PDX va := by simpa using h.acc.inv.inj _ _ t' ht' ht
        rw [← page_number, hpdx, hptx, page_number]
      rw [hword, hold]
      simp [hv]
  · rintro i (hi | rfl)
    · exact h.guard i hi
    · exact hin

/-- `uva2ka` of a page of the image. -/
theorem uva2ka_img (hsz : sz ≤ KERNBASE) (hn : npages sz ≤ n)
    (hva : va < sz) (h : Img np k0 R0 R N g k n f) :
    Ends (uva2ka cur d va) k (fun r k' => k = k' ∧
      ∀ x, r = some x → R.page k.mem (.user .fresh (PDX va) (PTX va)) = some x ∧
        ¬g (va / PGSIZE)) E := by
  rw [uva2ka, uvaPte]
  refine Ends.bind (Q := fun w k' => k = k' ∧
    R.page k.mem (.user .fresh (PDX va) (PTX va)) = some (ptePage w) ∧
    (PTE_U w → ¬g (va / PGSIZE))) ?_ ?_
  · refine (walkpgdir_false.and (walkpgdir_mapped (E := E) (h.mapped hsz hn) hd hva)).bind ?_
    rintro _ _ ⟨⟨rfl, ⟨t, rfl, ht⟩ | ⟨rfl, -⟩⟩, -, t', ht', -, hx⟩
    · obtain ⟨rfl, -⟩ := Prod.mk.inj (Option.some.inj ht')
      obtain ⟨⟨h5, -⟩, -⟩ := user_eq_some.mp hx
      have htab : R.page k.mem (.tab .fresh (PDX va)) = some t :=
        tab_eq_some.mpr ⟨h5.trans (by decide), d, hd, ht⟩
      exact ends_gets ⟨rfl, hx, (h.user va _ t hx htab).mp⟩
    · cases ht'
  · rintro w _ ⟨rfl, hx, hu⟩
    split
    · rename_i hpu
      refine ends_pure ⟨rfl, fun x he => ?_⟩
      rw [← he, hx]
      exact ⟨rfl, hu hpu.2⟩
    · exact ends_pure ⟨rfl, by simp⟩

/-- **The user cannot use the kernel part**: `uva2ka` refuses it. -/
theorem uva2ka_kernel (hva : PDX va ∈ kmap) (h : Img np k0 R0 R N g k n f) :
    Ends (uva2ka cur d va) k (fun r k' => k = k' ∧ r = none) E := by
  obtain ⟨t, ht⟩ := Option.ne_none_iff_exists'.mp (h.kmaps _ hva)
  have hkern := h.acc.inv.kern _ _ t ht (kmap_range _ hva).1
  obtain ⟨-, d', hd', hent⟩ := tab_eq_some.mp ht
  obtain rfl := Option.some.inj (hd.symm.trans hd')
  rw [uva2ka, uvaPte]
  refine Ends.bind (Q := fun w k' => k = k' ∧ w = k.word t (PTX va)) ?_ ?_
  · refine walkpgdir_false.bind ?_
    rintro _ _ ⟨rfl, ⟨t', rfl, ht'⟩ | ⟨rfl, hnone⟩⟩
    · obtain rfl := Option.some.inj (hent.symm.trans ht')
      exact ends_gets ⟨rfl, rfl⟩
    · rw [hent] at hnone
      cases hnone
  · rintro w _ ⟨rfl, rfl⟩
    rw [if_neg]
    · exact ends_pure ⟨rfl, rfl⟩
    · rintro ⟨-, hu⟩
      rw [word, hkern] at hu
      exact not_PTE_U_kernelTable PTX_lt hu

omit hd in
/-- One pass of the loop of `copyout`. -/
theorem copyoutLoop_succ {bytes : List UInt8} (h : bytes ≠ []) (cur d n va : ℕ) :
    copyoutLoop cur d (n + 1) va bytes = (do
      match ← uva2ka cur d (va / PGSIZE * PGSIZE) with
      | none => pure false
      | some x => do
        copyIn x (va % PGSIZE) (bytes.take (PGSIZE - va % PGSIZE))
        copyoutLoop cur d n ((va / PGSIZE * PGSIZE + PGSIZE) % 2 ^ 32)
          (bytes.drop (PGSIZE - va % PGSIZE))) := by
  cases bytes with
  | nil => exact absurd rfl h
  | cons b bytes => rfl

/-- The loop of `copyout`, inside the image: it fails at a page in `g`. -/
theorem copyoutLoop_img (hsz : sz < KERNBASE) (hn : npages sz ≤ n) :
    ∀ (m va : ℕ) (bytes : List UInt8) {k : Kmem} {f : ℕ → UInt8}, Img np k0 R0 R N g k n f →
      (bytes ≠ [] → va + bytes.length ≤ sz) → bytes.length ≤ m →
      Ends (copyoutLoop cur d m va bytes) k (fun ok k' => ∃ f', Img np k0 R0 R N g k' n f' ∧
        (ok = true → f' = overlay f va bytes ∧
          ∀ v, va ≤ v → v < va + bytes.length → ¬g (v / PGSIZE))) E := by
  have hp := PGSIZE_eq
  have hk : KERNBASE = 0x80000000 := rfl
  -- nothing is left
  have hnil : ∀ {k : Kmem} {f : ℕ → UInt8} (va : ℕ), Img np k0 R0 R N g k n f →
      ∃ f', Img np k0 R0 R N g k n f' ∧ (true = true → f' = overlay f va [] ∧
        ∀ v, va ≤ v → v < va + ([] : List UInt8).length → ¬g (v / PGSIZE)) := by
    intro k f va h
    exact ⟨f, h, fun _ => ⟨overlay_nil.symm, fun v hge hlt => absurd hlt (by simpa using hge)⟩⟩
  intro m
  induction m with
  | zero =>
    intro va bytes k f h _ hm
    obtain rfl := length_eq_zero_iff.mp (Nat.le_zero.mp hm)
    exact ends_pure (hnil va h)
  | succ m ih =>
    intro va bytes k f h hend hm
    rcases hb : bytes with _ | ⟨c, cs⟩
    · exact ends_pure (hnil va h)
    rw [← hb]
    have hlen : 0 < bytes.length := by simp [hb]
    have hle := hend (ne_nil_of_length_pos hlen)
    have hva : va / PGSIZE * PGSIZE < sz := by
      rw [hp]
      omega
    have hpage : va / PGSIZE * PGSIZE / PGSIZE = va / PGSIZE := Nat.mul_div_cancel _ (by decide)
    obtain ⟨hpdx, hptx⟩ := same_page hpage
    rw [copyoutLoop_succ (ne_nil_of_length_pos hlen)]
    refine (uva2ka_img hd hsz.le hn hva h).bind ?_
    rintro (_ | x) _ ⟨rfl, hx⟩
    · exact ends_pure ⟨f, h, by simp⟩
    obtain ⟨hx, hg⟩ := hx x rfl
    rw [hpdx, hptx] at hx
    rw [hpage] at hg
    have hw := h.write (l := bytes.take (PGSIZE - va % PGSIZE)) hx (by
      rw [length_take, hp]
      omega)
    refine ends_bind_modify ?_
    -- the pages before the next one are done
    have hdone : ∀ v, va ≤ v → v / PGSIZE = va / PGSIZE → ¬g (v / PGSIZE) := by
      intro v _ hv
      rwa [hv]
    rcases Nat.lt_or_ge (PGSIZE - va % PGSIZE) bytes.length with hmore | hlast
    · have hnext : (va / PGSIZE * PGSIZE + PGSIZE) % 2 ^ 32 = va + (PGSIZE - va % PGSIZE) := by
        rw [hp] at hmore ⊢
        omega
      have htake : (bytes.take (PGSIZE - va % PGSIZE)).length = PGSIZE - va % PGSIZE := by
        rw [length_take]
        omega
      rw [hnext]
      refine (ih _ (bytes.drop (PGSIZE - va % PGSIZE)) hw (fun _ => ?_) ?_).mono ?_
      · rw [length_drop]
        omega
      · rw [length_drop, hp]
        omega
      rintro ok k' ⟨f', h', hok⟩
      refine ⟨f', h', fun htrue => ?_⟩
      obtain ⟨hf', hg'⟩ := hok htrue
      refine ⟨?_, fun v hge hlt => ?_⟩
      · have happ := overlay_append (f := f) (a := va) (l := bytes.take (PGSIZE - va % PGSIZE))
          (bytes.drop (PGSIZE - va % PGSIZE))
        rw [htake, take_append_drop] at happ
        rw [hf', happ]
      rcases Nat.lt_or_ge v (va + (PGSIZE - va % PGSIZE)) with hin | hout
      · refine hdone v hge ?_
        rw [hp] at hin ⊢
        omega
      · refine hg' v hout ?_
        rw [length_drop]
        omega
    · rw [drop_eq_nil_of_le hlast]
      rw [take_of_length_le hlast] at hw
      have hend' : copyoutLoop cur d m ((va / PGSIZE * PGSIZE + PGSIZE) % 2 ^ 32) [] =
          pure true := by
        cases m <;> rfl
      rw [hend', take_of_length_le hlast]
      refine ends_pure ⟨_, hw, fun _ => ⟨rfl, fun v hge hlt => hdone v hge ?_⟩⟩
      rw [hp] at hlast ⊢
      omega

end

/-! ## The arguments -/

/-- Where the loop of `exec` puts the argument strings. -/
def argPtrs : ℕ → List (List UInt8) → List ℕ
  | _, [] => []
  | sp, arg :: args =>
    let sp := pushed sp (arg.length + 1) / 4 * 4
    sp :: argPtrs sp args

/-- The stack pointer after the strings. -/
def argSp : ℕ → List (List UInt8) → ℕ
  | sp, [] => sp
  | sp, arg :: args => argSp (pushed sp (arg.length + 1) / 4 * 4) args

/-- The stack pointer after `ustack`, when `cnt` strings were there already. -/
def finalSp (sp cnt : ℕ) (args : List (List UInt8)) : ℕ :=
  pushed (argSp sp args) ((3 + (cnt + args.length) + 1) * 4)

/-- What the program finds in its memory: the strings and `ustack`, and `f` elsewhere. -/
def stackBytes : (ℕ → UInt8) → ℕ → List ℕ → List (List UInt8) → ℕ → UInt8
  | f, sp, ptrs, [] => overlay f (pushed sp ((3 + ptrs.length + 1) * 4)) (ustack sp ptrs)
  | f, sp, ptrs, arg :: args =>
    let sp := pushed sp (arg.length + 1) / 4 * 4
    stackBytes (overlay f sp (arg ++ [0])) sp (ptrs ++ [sp]) args

variable {sp cnt : ℕ}

/-- The next string, where nothing wraps around. -/
theorem pushed_arg {arg : List UInt8} (hneed : need cnt (arg :: args) ≤ sp) (hsp : sp < 2 ^ 32) :
    pushed sp (arg.length + 1) / 4 * 4 + (arg.length + 1) ≤ sp ∧
      sp < pushed sp (arg.length + 1) / 4 * 4 + (arg.length + 1) + 4 ∧
      need (cnt + 1) args ≤ pushed sp (arg.length + 1) / 4 * 4 := by
  rw [need] at hneed
  rw [pushed_eq (by omega) hsp]
  omega

theorem finalSp_cons (sp cnt : ℕ) (arg : List UInt8) (args : List (List UInt8)) :
    finalSp sp cnt (arg :: args) = finalSp (pushed sp (arg.length + 1) / 4 * 4) (cnt + 1) args := by
  rw [finalSp, finalSp, argSp, length_cons, Nat.add_right_comm cnt 1, Nat.add_assoc cnt]

/-- **What `exec` does not check** about the arguments, with a stack that begins at `low`: a string
that is longer than all the memory below `sp` wraps around, and where the kernel part has no page
table `uva2ka` reads address 0. `exec` gives up at the first string that does not fit on the
stack. -/
def ArgsOk (low : ℕ) : ℕ → ℕ → List (List UInt8) → Prop
  | _, _, [] => True
  | sp, cnt, arg :: args => cnt < MAXARG →
    (arg.length < sp → low ≤ pushed sp (arg.length + 1) / 4 * 4 →
      ArgsOk low (pushed sp (arg.length + 1) / 4 * 4) (cnt + 1) args) ∧
    (sp ≤ arg.length → PDX (pushed sp (arg.length + 1) / 4 * 4) ∈ kmap)

instance decidableArgsOk (low : ℕ) : ∀ sp cnt args, Decidable (ArgsOk low sp cnt args)
  | _, _, [] => .isTrue trivial
  | sp, cnt, arg :: args =>
    have := decidableArgsOk low (pushed sp (arg.length + 1) / 4 * 4) (cnt + 1) args
    inferInstanceAs (Decidable (_ → _ ∧ _))

/-- A string that wraps around is not copied. -/
theorem copyout_wrapped (hd : R.root .fresh = some d) {bytes : List UInt8} (hb : bytes ≠ [])
    (hva : PDX va ∈ kmap) (h : Img np k0 R0 R N g k n f) :
    Ends (copyout cur d va bytes) k (fun ok k' => k = k' ∧ ok = false) E := by
  have hpage : va / PGSIZE * PGSIZE / PGSIZE = va / PGSIZE := Nat.mul_div_cancel _ (by decide)
  rw [copyout]
  obtain ⟨m, hm⟩ : ∃ m, bytes.length = m + 1 :=
    Nat.exists_eq_succ_of_ne_zero (by simpa using hb)
  rw [hm, copyoutLoop_succ hb]
  refine (uva2ka_kernel hd (by rwa [(same_page hpage).1]) h).bind ?_
  rintro _ _ ⟨rfl, rfl⟩
  exact ends_pure ⟨rfl, rfl⟩

/-- **The arguments are pushed** into the pages above a guard page `b`, or `exec` fails: each string
ends right below the one before, so the first one that does not fit meets the guard page. -/
theorem pushArgs_img (hd : R.root .fresh = some d) (hsz : sz < KERNBASE) (hn : npages sz ≤ n)
    (hg : g b) : ∀ (args : List (List UInt8)) (sp : ℕ) (ptrs : List ℕ) {k : Kmem} {f : ℕ → UInt8},
      Img np k0 R0 R N g k n f → sp ≤ sz → ArgsOk ((b + 1) * PGSIZE) sp ptrs.length args →
      (b + 1) * PGSIZE ≤ sp → ptrs.length ≤ MAXARG →
      Ends (pushArgs cur d sp ptrs args) k (fun ok k' => ∃ f', Img np k0 R0 R N g k' n f' ∧
        (ok = true → f' = stackBytes f sp ptrs args ∧
          (b + 1) * PGSIZE ≤ finalSp sp ptrs.length args ∧ ptrs.length + args.length ≤ MAXARG ∧
          (b + 1) * PGSIZE + need ptrs.length args ≤ sp + 3 * args.length)) E := by
  have hp := PGSIZE_eq
  have hk : KERNBASE = 0x80000000 := rfl
  have hmax : MAXARG = 32 := rfl
  intro args
  induction args with
  | nil =>
    intro sp ptrs k f h hsp _ hb hcnt
    have hneed : (4 + ptrs.length) * 4 ≤ sp := by
      rw [hp] at hb
      omega
    have hfinal : finalSp sp ptrs.length [] = sp - (3 + ptrs.length + 1) * 4 := by
      rw [finalSp, argSp, pushed_eq (by simp; omega) (by omega)]
      rfl
    rw [pushArgs, copyout, hfinal, stackBytes, pushed_eq (by omega) (by omega)]
    have hlen := length_ustack sp ptrs
    refine (copyoutLoop_img hd hsz hn _ _ _ h (fun _ => ?_) le_rfl).mono ?_
    · rw [hlen]
      omega
    rintro ok k' ⟨f', h', hok⟩
    refine ⟨f', h', fun htrue => ?_⟩
    obtain ⟨hf', hclear⟩ := hok htrue
    have hlow : (b + 1) * PGSIZE ≤ sp - (3 + ptrs.length + 1) * 4 := by
      refine not_lt.mp fun hlow => ?_
      -- the last byte of the guard page has been written
      refine hclear ((b + 1) * PGSIZE - 1) (by omega) (by omega) ?_
      rwa [show ((b + 1) * PGSIZE - 1) / PGSIZE = b by rw [hp]; omega]
    refine ⟨hf', hlow, hcnt, ?_⟩
    have htotal := Nat.add_le_of_le_sub (by omega) hlow
    simp only [need, length_nil, Nat.add_right_comm 3 _ 1] at htotal ⊢
    exact htotal
  | cons arg args ih =>
    intro sp ptrs k f h hsp hargs hb hcnt
    rw [pushArgs, finalSp_cons, stackBytes]
    split
    · exact ends_pure ⟨f, h, by simp⟩
    rename_i hroom
    obtain ⟨hfits, hwraps⟩ := hargs (not_le.mp hroom)
    obtain ⟨sp', hsp'⟩ : ∃ sp', sp' = pushed sp (arg.length + 1) / 4 * 4 := ⟨_, rfl⟩
    dsimp only
    rw [← hsp'] at hfits hwraps ⊢
    rcases Nat.lt_or_ge arg.length sp with hin | hout
    swap
    · refine (copyout_wrapped hd (by simp) (hwraps hout) h).bind ?_
      rintro _ _ ⟨rfl, rfl⟩
      exact ends_pure ⟨f, h, by simp⟩
    have hle : sp' + (arg.length + 1) ≤ sp ∧ sp < sp' + (arg.length + 1) + 4 := by
      rw [hsp', pushed_eq (by omega) (by omega)]
      omega
    obtain ⟨hle, hgt⟩ := hle
    have hlen : (arg ++ [0]).length = arg.length + 1 := by simp
    refine (copyoutLoop_img hd hsz hn _ _ _ h (fun _ => by rw [hlen]; omega) le_rfl).bind ?_
    rintro ok k1 ⟨f1, h1, hok⟩
    cases ok
    · exact ends_pure ⟨f1, h1, by simp⟩
    obtain ⟨rfl, hclear⟩ := hok rfl
    rw [hlen] at hclear
    have hb' : (b + 1) * PGSIZE ≤ sp' := by
      refine not_lt.mp fun hlow => ?_
      -- the last byte of the string, or of the guard page, is in the guard page
      rcases Nat.lt_or_ge (sp' + arg.length) ((b + 1) * PGSIZE) with hlt | hge
      · refine hclear (sp' + arg.length) (by omega) (by omega) ?_
        rwa [show (sp' + arg.length) / PGSIZE = b by rw [hp] at hb hlt ⊢; omega]
      · refine hclear ((b + 1) * PGSIZE - 1) (by omega) (by omega) ?_
        rwa [show ((b + 1) * PGSIZE - 1) / PGSIZE = b by rw [hp]; omega]
    have hlen' : (ptrs ++ [sp']).length = ptrs.length + 1 := by simp
    replace hfits := hfits hin hb'
    rw [← hlen'] at hfits ⊢
    refine (ih sp' (ptrs ++ [sp']) h1 (by omega) hfits hb' (by omega)).mono ?_
    rintro ok k2 ⟨f', h2, hok⟩
    refine ⟨f', h2, fun htrue => ?_⟩
    obtain ⟨hf', hlow, hmost, hsum⟩ := hok htrue
    refine ⟨hf', hlow, ?_, ?_⟩
    · rw [length_cons]
      omega
    · simp only [need, length_cons, ← hlen']
      generalize need (ptrs ++ [sp']).length args = m at hsum ⊢
      generalize (b + 1) * PGSIZE = low at hsum ⊢
      clear * - hsum hle
      omega

/-! ## What the program finds -/

theorem argSp_le : ∀ (args : List (List UInt8)) (sp cnt : ℕ), need cnt args ≤ sp → sp < 2 ^ 32 →
    (3 + (cnt + args.length) + 1) * 4 ≤ argSp sp args ∧ argSp sp args ≤ sp := by
  intro args
  induction args with
  | nil =>
    intro sp cnt hneed _
    rw [need] at hneed
    rw [argSp, length_nil]
    omega
  | cons arg args ih =>
    intro sp cnt hneed hsp
    obtain ⟨hle, hgt, hneed'⟩ := pushed_arg hneed hsp
    obtain ⟨h1, h2⟩ := ih _ (cnt + 1) hneed' (by omega)
    rw [argSp, length_cons]
    omega

theorem finalSp_eq (hneed : need cnt args ≤ sp)
    (hsp : sp < 2 ^ 32) : finalSp sp cnt args + (3 + (cnt + args.length) + 1) * 4 =
      argSp sp args := by
  obtain ⟨h1, h2⟩ := argSp_le args sp cnt hneed hsp
  rw [finalSp, pushed_eq h1 (by omega)]
  omega

/-- Below the stack pointer and above its first value nothing is written. -/
theorem stack_outside : ∀ (args : List (List UInt8)) (f : ℕ → UInt8) (sp : ℕ)
    (ptrs : List ℕ) {v : ℕ},
    need ptrs.length args ≤ sp → sp < 2 ^ 32 → v < finalSp sp ptrs.length args ∨ sp ≤ v →
    stackBytes f sp ptrs args v = f v := by
  intro args
  induction args with
  | nil =>
    intro f sp ptrs v hneed hsp hv
    have heq := finalSp_eq hneed hsp
    have hlen := length_ustack sp ptrs
    rw [argSp, length_nil] at heq
    rw [stackBytes, pushed_eq (by omega) hsp]
    rcases hv with hlt | hge
    · exact overlay_of_lt (by omega)
    · exact overlay_of_ge (by omega)
  | cons arg args ih =>
    intro f sp ptrs v hneed hsp hv
    obtain ⟨hle, hgt, hneed'⟩ := pushed_arg hneed hsp
    have hfinal := finalSp_cons sp ptrs.length arg args
    obtain ⟨sp', hsp'⟩ : ∃ sp', sp' = pushed sp (arg.length + 1) / 4 * 4 := ⟨_, rfl⟩
    rw [stackBytes]
    rw [← hsp'] at hle hgt hneed' hfinal ⊢
    have hcnt : (ptrs ++ [sp']).length = ptrs.length + 1 := by simp
    have heq := finalSp_eq hneed' (by omega)
    have hbound := argSp_le args sp' _ hneed' (by omega)
    rw [← hcnt] at hneed' hfinal heq
    rw [ih _ sp' (ptrs ++ [sp']) hneed' (by omega) (by omega)]
    rcases hv with hlt | hge
    · exact overlay_of_lt (by omega)
    · exact overlay_of_ge (by simp; omega)

/-- **The strings**, each with a zero byte after it. -/
theorem stack_strings : ∀ (args : List (List UInt8)) (f : ℕ → UInt8) (sp : ℕ) (ptrs : List ℕ),
    need ptrs.length args ≤ sp → sp < 2 ^ 32 →
    List.Forall₂ (fun p arg => ∀ i (hi : i < (arg ++ [0]).length),
      stackBytes f sp ptrs args (p + i) = (arg ++ [(0 : UInt8)])[i]) (argPtrs sp args) args := by
  intro args
  induction args with
  | nil => exact fun _ _ _ _ _ => .nil
  | cons arg args ih =>
    intro f sp ptrs hneed hsp
    obtain ⟨hle, hgt, hneed'⟩ := pushed_arg hneed hsp
    obtain ⟨sp', hsp'⟩ : ∃ sp', sp' = pushed sp (arg.length + 1) / 4 * 4 := ⟨_, rfl⟩
    rw [argPtrs]
    simp only [stackBytes]
    rw [← hsp'] at hle hgt hneed' ⊢
    have hcnt : (ptrs ++ [sp']).length = ptrs.length + 1 := by simp
    rw [← hcnt] at hneed'
    refine .cons (fun i hi => ?_) (ih _ sp' _ hneed' (by omega))
    rw [stack_outside args _ sp' _ hneed' (by omega) (.inr (by omega))]
    exact overlay_of_mem hi

/-- **The words** of `ustack`: a return address, the number of strings, the address of the vector,
the vector of their addresses, and a zero. -/
theorem stack_words : ∀ (args : List (List UInt8)) (f : ℕ → UInt8) (sp : ℕ) (ptrs : List ℕ),
    need ptrs.length args ≤ sp → sp < 2 ^ 32 → (∀ p ∈ ptrs, p < 2 ^ 32) →
    ∀ i w, ([0xFFFFFFFF, ptrs.length + args.length, finalSp sp ptrs.length args + 12] ++
      (ptrs ++ argPtrs sp args) ++ [0])[i]? = some w →
      wordAt (stackBytes f sp ptrs args) (finalSp sp ptrs.length args + 4 * i) = w := by
  intro args
  induction args with
  | nil =>
    intro f sp ptrs hneed hsp hptrs i w hw
    have heq := finalSp_eq hneed hsp
    rw [argSp, length_nil] at heq
    obtain ⟨hi, rfl⟩ := List.getElem?_eq_some_iff.mp hw
    rw [stackBytes, ustack]
    have hfinal : pushed sp ((3 + ptrs.length + 1) * 4) = finalSp sp ptrs.length [] := rfl
    have hvec : pushed sp ((ptrs.length + 1) * 4) = finalSp sp ptrs.length [] + 12 := by
      rw [pushed_eq (by omega) hsp]
      omega
    have hall : ∀ x ∈ [0xFFFFFFFF, ptrs.length, finalSp sp ptrs.length [] + 12] ++ ptrs ++ [0],
        x < 2 ^ 32 := by
      intro x hx
      simp only [mem_append, mem_cons, not_mem_nil, or_false] at hx
      rcases hx with ((rfl | rfl | rfl) | hx) | rfl
      · decide
      · omega
      · omega
      · exact hptrs x hx
      · decide
    rw [hfinal, hvec]
    simp only [argPtrs, append_nil, length_nil, Nat.add_zero] at hi ⊢
    exact wordAt_overlay _ _ i hi (hall _ (getElem_mem hi))
  | cons arg args ih =>
    intro f sp ptrs hneed hsp hptrs i w hw
    obtain ⟨hle, hgt, hneed'⟩ := pushed_arg hneed hsp
    have hfinal := finalSp_cons sp ptrs.length arg args
    obtain ⟨sp', hsp'⟩ : ∃ sp', sp' = pushed sp (arg.length + 1) / 4 * 4 := ⟨_, rfl⟩
    rw [argPtrs] at hw
    rw [stackBytes]
    rw [← hsp'] at hle hgt hneed' hfinal hw ⊢
    have hcnt : (ptrs ++ [sp']).length = ptrs.length + 1 := by simp
    rw [← hcnt] at hneed' hfinal
    rw [hfinal] at hw ⊢
    refine ih _ sp' (ptrs ++ [sp']) hneed' (by omega) ?_ i w ?_
    · intro p hp
      rcases mem_append.mp hp with hp | hp
      · exact hptrs p hp
      · rw [mem_singleton.mp hp]
        omega
    · rw [← hw, hcnt, length_cons, append_assoc ptrs, Nat.add_right_comm, Nat.add_assoc]
      rfl

/-- The strings lie one below the other, at multiples of four. -/
theorem argPtrs_apart : ∀ (args : List (List UInt8)) (sp cnt : ℕ), need cnt args ≤ sp →
    sp < 2 ^ 32 → (∀ x ∈ (argPtrs sp args).zip args, argSp sp args ≤ x.1 ∧ x.1 % 4 = 0 ∧
      x.1 + (x.2.length + 1) ≤ sp) ∧
    ((argPtrs sp args).zip args).Pairwise fun x y => y.1 + (y.2.length + 1) ≤ x.1 := by
  intro args
  induction args with
  | nil => exact fun _ _ _ _ => ⟨by simp [argPtrs], by simp [argPtrs]⟩
  | cons arg args ih =>
    intro sp cnt hneed hsp
    obtain ⟨hle, hgt, hneed'⟩ := pushed_arg hneed hsp
    obtain ⟨hall, hpair⟩ := ih _ (cnt + 1) hneed' (by omega)
    have hbound := argSp_le args _ (cnt + 1) hneed' (by omega)
    rw [argPtrs, argSp]
    refine ⟨?_, ?_⟩
    · intro x hx
      rcases mem_cons.mp hx with rfl | hx
      · exact ⟨hbound.2, Nat.mul_mod_left .., hle⟩
      · obtain ⟨h1, h2, h3⟩ := hall x hx
        exact ⟨h1, h2, by omega⟩
    · exact pairwise_cons.mpr ⟨fun y hy => (hall y hy).2.2, hpair⟩

/-! ## `exec` -/

/-- After `setupkvm` there is no user page. -/
theorem Img.start (h : Acc True np k0 R0 k R) (hd : R.root .fresh = some d) (hu : Upto R k .fresh 0)
    (ht : Tabs R k 0) (hkern : ∀ i ∈ kmap, ∃ t, ent k.mem d i = some t ∧ k.mem t = kernelTable i) :
    Img np k0 R0 R (avail k) (fun _ => False) k 0 fun _ => 0 := by
  have hnone : ∀ v y, R.page k.mem (.user .fresh (PDX v) (PTX v)) ≠ some y := by
    intro v y hy
    obtain ⟨⟨h5, hj⟩, -⟩ := user_eq_some.mp hy
    exact absurd ((hu _ h5 _ hj).mp (by rw [hy]; simp)) (Nat.not_lt_zero _)
  refine ⟨h, hu, ht, rfl, fun v y hy => absurd hy (hnone v y),
    fun v y _ hy => absurd hy (hnone v y), fun _ hc => hc.elim, fun _ _ => rfl, fun i hi => ?_⟩
  obtain ⟨t, ht, -⟩ := hkern i hi
  rw [tab_eq_some.mpr ⟨(kmap_range i hi).2, d, hd, ht⟩]
  simp

/-- The two pages of the stack, and what is pushed. -/
theorem execStack_img {m : ℕ} (hd : R.root .fresh = some d) (hs : R.HandsFree) (hm : m < KERNBASE)
    (hsound : Sound N (fun top => ArgsOk (top - PGSIZE) top 0 args) m [])
    (h : Img np k0 R0 R N (fun _ => False) k (npages m) f) :
    Ends (execStack cur d (PGROUNDUP m) args) k (fun r k' => (r = none → Gone np k0 R0 R k') ∧
      ∀ sz', r = some sz' → sz' = PGROUNDUP m + 2 * PGSIZE ∧ sz' < KERNBASE ∧
        need 0 args ≤ sz' ∧ sz' - PGSIZE ≤ finalSp sz' 0 args ∧
        Img np k0 R0 R N (fun i => i = npages sz' - 2) k' (npages sz')
          (stackBytes f sz' [] args)) fun _ => ¬0 < k0.kend := by
  have hp := PGSIZE_eq
  have hk : KERNBASE = 0x80000000 := rfl
  rw [← npages_PGROUNDUP] at h
  have hle := PGROUNDUP_le_KERNBASE hm
  have hmod : PGROUNDUP m % PGSIZE = 0 := Nat.mul_mod_left ..
  rw [Sound] at hsound
  generalize PGROUNDUP m = sz at *
  rw [execStack]
  -- a size beyond the kernel's base is refused
  rcases Nat.lt_or_ge sz KERNBASE with hlt | hge
  · refine (allocuvm_img hd hs (fun hlt => (hsound hlt).1) hlt h).bind ?_
    rintro r k1 ⟨hzero, himg⟩
    split
    · rename_i hr
      exact ends_pure ⟨fun _ => (hzero hr).1, by simp⟩
    rename_i hr
    obtain ⟨hmax, hr', h1⟩ := himg hr
    obtain rfl : r = sz + 2 * PGSIZE := by omega
    have hargs := (hsound hr').2 (h1.cost_le le_rfl)
    have hpage : (sz + 2 * PGSIZE - 2 * PGSIZE) / PGSIZE = npages (sz + 2 * PGSIZE) - 2 := by
      rw [hp] at hmod
      rw [npages, hp]
      omega
    refine (clearpteu_img hd hr'.le le_rfl
      (show sz + 2 * PGSIZE - 2 * PGSIZE < sz + 2 * PGSIZE by rw [hp]; omega) h1).bind ?_
    intro _ k2 h2
    rw [hpage, show (fun i => False ∨ i = npages (sz + 2 * PGSIZE) - 2) =
      fun i => i = npages (sz + 2 * PGSIZE) - 2 by simp] at h2
    have hguard : (npages (sz + 2 * PGSIZE) - 2 + 1) * PGSIZE = sz + 2 * PGSIZE - PGSIZE := by
      rw [hp] at hmod
      rw [npages, hp]
      omega
    refine (pushArgs_img (g := fun i => i = npages (sz + 2 * PGSIZE) - 2) hd hr' le_rfl rfl args _
      [] h2 le_rfl (by rw [hguard]; exact hargs) (by rw [hguard]; omega) (Nat.zero_le _)).bind ?_
    rintro ok k3 ⟨f', h3, hok⟩
    cases ok
    · exact ends_pure ⟨fun _ => h3.gone hr'.le, by simp⟩
    obtain ⟨rfl, hlow, hmost, hneed⟩ := hok rfl
    rw [hguard] at hlow hneed
    refine ends_pure ⟨by simp, fun sz' he => ?_⟩
    obtain rfl := Option.some.inj he
    refine ⟨rfl, hr', ?_, hlow, h3⟩
    have hcnt : args.length ≤ 32 := by simpa using hmost
    rw [length_nil, hp] at hneed
    rw [hp]
    omega
  · have hz : allocuvm d sz (sz + 2 * PGSIZE) = pure 0 := if_pos (by omega)
    rw [hz]
    exact ends_pure ⟨fun _ => h.gone hle, by simp⟩

/-- **What `exec` does not check**, in a call with the memory `k`: `setupkvm` makes 65 calls of
`kalloc`, and with the others the image is built. -/
def SoundCall (k : Kmem) (elf : Bool) (Q : ℕ → Prop) (phs : List Segment) : Prop :=
  elf = true → 65 ≤ avail k → Sound (avail k - 65) Q 0 phs

/-- The same with the arguments. -/
def ExecOk (k : Kmem) (elf : Bool) (phs : List Segment) (args : List (List UInt8)) : Prop :=
  SoundCall k elf (fun top => ArgsOk (top - PGSIZE) top 0 args) phs

/-- **`exec`** ends: with nothing changed for the others, or with the new image. -/
theorem exec_img (hi : PageInv k R NPAGES) (hr : R.root .fresh = none) (hs : R.HandsFree)
    (hcall : ExecOk k elf phs args) (np : ℕ) :
    Ends (exec cur elf phs args) k (fun r k' =>
      (r = none → Acc True np k R k' R ∨ ∃ d, Acc True np k R k' (R.setRoot .fresh (some d))) ∧
      ∀ d sz, r = some (d, sz) → sz = PGROUNDUP (imageSize 0 phs) + 2 * PGSIZE ∧ sz < KERNBASE ∧
        need 0 args ≤ sz ∧ sz - PGSIZE ≤ finalSp sz 0 args ∧
        Img np k R (R.setRoot .fresh (some d)) (avail k - 65)
          (fun i => i = npages sz - 2) k' (npages sz)
          (stackBytes (image (fun _ => 0) phs) sz [] args)) fun _ => ¬0 < k.kend := by
  have hstart : Acc True np k R k R := .start np hi
  rw [exec]
  split
  · exact ends_pure ⟨fun _ => .inl hstart, by simp⟩
  rename_i helf
  refine ((setupkvm_acc hstart hr hs).and (setupkvm_spec hi hr hs)).bind ?_
  rintro (_ | d) k1 ⟨⟨hfail, hgot⟩, -, -, hspec⟩
  · refine ends_pure ⟨fun _ => ?_, by simp⟩
    rcases hfail rfl with ⟨-, h1⟩ | ⟨-, d, h1⟩
    · exact .inl h1
    · exact .inr ⟨d, h1⟩
  obtain ⟨h1, ht1, havail⟩ := hgot d rfl
  have hroot := root_setRoot R .fresh (some d)
  have hsound := hcall (by simpa using helf) (by omega)
  rw [havail, Nat.add_sub_cancel] at hsound ⊢
  have himg := Img.start h1 hroot (hspec d rfl).2.1 ht1 (hspec d rfl).2.2.1
  have himage : Ends (execImage cur d phs args) k1 (fun r k' =>
      (r = none → Gone np k R (R.setRoot .fresh (some d)) k') ∧
      ∀ sz, r = some sz → sz = PGROUNDUP (imageSize 0 phs) + 2 * PGSIZE ∧ sz < KERNBASE ∧
        need 0 args ≤ sz ∧ sz - PGSIZE ≤ finalSp sz 0 args ∧
        Img np k R (R.setRoot .fresh (some d)) (avail k1)
          (fun i => i = npages sz - 2) k' (npages sz)
          (stackBytes (image (fun _ => 0) phs) sz [] args)) fun _ => ¬0 < k.kend := by
    rw [execImage]
    refine (loadSegments_img hroot hs phs 0 hsound (by decide) himg).bind ?_
    rintro (_ | m) k2 ⟨hgone, hm⟩
    · exact ends_pure ⟨fun _ => hgone rfl, by simp⟩
    obtain ⟨rfl, hlt, hlast, h2⟩ := hm m rfl
    exact execStack_img hroot hs hlt hlast h2
  refine himage.bind ?_
  rintro (_ | sz) k2 ⟨hgone, hsz⟩
  · obtain ⟨h2, hu2⟩ := hgone rfl
    refine (freevm_acc h2 hroot hs fun _ => hu2).bind ?_
    refine fun _ k3 h3 => ends_pure ⟨fun _ => .inl ?_, by simp⟩
    rwa [setRoot_back hr] at h3
  · refine ends_pure ⟨by simp, fun d' sz' he => ?_⟩
    obtain ⟨rfl, rfl⟩ := Prod.mk.inj (Option.some.inj he)
    exact hsz sz rfl

/-! ## The address space of a process -/

/-- The entry for `va`. -/
def pte (k : Kmem) (d va : ℕ) : Option ℕ := (ent k.mem d (PDX va)).map fun t => k.word t (PTX va)

theorem pte_of_ent {t : ℕ} (ht : ent k.mem d (PDX va) = some t) :
    k.pte d va = some (k.word t (PTX va)) := by
  rw [pte, ht, Option.map_some]

variable {k' : Kmem}

/-- The entry for `va` depends on one word of the directory and one of the page table. -/
theorem pte_congr (hdir : ent k'.mem d (PDX va) = ent k.mem d (PDX va))
    (htab : ∀ t, ent k.mem d (PDX va) = some t → k'.word t (PTX va) = k.word t (PTX va)) :
    k'.pte d va = k.pte d va := by
  rcases ht : ent k.mem d (PDX va) with _ | t
  · rw [pte, pte, hdir, ht]
    rfl
  · rw [pte_of_ent ht, pte_of_ent (hdir.trans ht), htab t ht]

/-- **What a process with the directory `d` sees**: its first `n` pages hold the bytes of `f`, it
may use those that are not in `g`, and there are no others. -/
structure Sees (k : Kmem) (d n : ℕ) (g : ℕ → Prop) (f : ℕ → UInt8) : Prop where
  byte : ∀ va < KERNBASE, va / PGSIZE < n → ∃ w, k.pte d va = some w ∧ PTE_P w ∧
    (PTE_U w ↔ ¬g (va / PGSIZE)) ∧ (k.mem (ptePage w)).get (va % PGSIZE) = f va
  none : ∀ va < KERNBASE, n ≤ va / PGSIZE → ∀ w, k.pte d va = some w → ¬PTE_P w

variable {h : Root}

theorem page_of_pte {w : ℕ} (hd : R.root h = some d) (hva : va < KERNBASE)
    (hw : k.pte d va = some w) : ∃ t, R.page k.mem (.tab h (PDX va)) = some t ∧
      k.word t (PTX va) = w ∧
      (PTE_P w → R.page k.mem (.user h (PDX va) (PTX va)) = some (ptePage w)) := by
  obtain ⟨t, ht, rfl⟩ := Option.map_eq_some_iff.mp hw
  have htab : R.page k.mem (.tab h (PDX va)) = some t :=
    tab_eq_some.mpr ⟨(PDX_user hva).trans (by decide), d, hd, ht⟩
  exact ⟨t, htab, rfl, fun hp => user_eq_some.mpr ⟨⟨PDX_user hva, PTX_lt⟩, t, htab, if_pos hp⟩⟩

theorem Img.sees (h : Img np k0 R0 R N g k n f) (hd : R.root .fresh = some d) : Sees k d n g f := by
  refine ⟨fun va hva hlt => ?_, fun va hva hge w hw hp => ?_⟩
  · have hne := (h.upto _ (PDX_user hva) _ PTX_lt).mpr ((page_number va).trans_lt hlt)
    obtain ⟨y, hy⟩ := Option.ne_none_iff_exists'.mp hne
    obtain ⟨-, t, ht, hent⟩ := user_eq_some.mp hy
    obtain ⟨-, d', hd', hdt⟩ := tab_eq_some.mp ht
    obtain rfl := Option.some.inj (hd.symm.trans hd')
    rw [ent] at hent
    split at hent
    · rename_i hp
      obtain rfl := Option.some.inj hent
      exact ⟨_, by rw [pte, hdt]; rfl, hp, h.user va _ t hy ht, h.bytes va _ hy⟩
    · cases hent
  · obtain ⟨-, -, -, hpage⟩ := page_of_pte hd hva hw
    have hlt := (h.upto _ (PDX_user hva) _ PTX_lt).mp (by rw [hpage hp]; simp)
    rw [page_number] at hlt
    omega

variable {R' : Roots}

/-- What others do does not change the page table. -/
theorem pte_acc {A : Prop} (hacc : Acc A np k R k' R')
    (hd : R.root h = some d) (hh : h ≠ .fresh) (hva : va < 2 ^ 32) : k'.pte d va = k.pte d va := by
  have hdir : k'.mem d = k.mem d := hacc.kept (.dir h) d hh hd
  refine pte_congr (by rw [ent, ent, hdir]) fun t ht => ?_
  have htab : R.page k.mem (.tab h (PDX va)) = some t := tab_eq_some.mpr ⟨PDX_lt hva, d, hd, ht⟩
  rw [word, word, hacc.kept (.tab h (PDX va)) t hh htab]

/-- What others do does not change what the process sees. -/
theorem Sees.acc {A : Prop} (hsees : Sees k d n g f)
    (hacc : Acc A np k R k' R') (hd : R.root h = some d) (hh : h ≠ .fresh) : Sees k' d n g f := by
  have hpte : ∀ va < KERNBASE, k'.pte d va = k.pte d va := fun va hva =>
    pte_acc hacc hd hh (hva.trans (by decide))
  refine ⟨fun va hva hlt => ?_, fun va hva hge w hw => ?_⟩
  · obtain ⟨w, hw, hp, hu, hbyte⟩ := hsees.byte va hva hlt
    obtain ⟨t, -, -, hpage⟩ := page_of_pte hd hva hw
    refine ⟨w, (hpte va hva).trans hw, hp, hu, ?_⟩
    rw [hacc.kept (.user h (PDX va) (PTX va)) _ hh (hpage hp), hbyte]
  · exact hsees.none va hva hge w ((hpte va hva).symm.trans hw)

end Kmem

namespace VmSys

open Kmem

variable {s s' : VmSys} {p : ℕ}

/-- The two names are exchanged. -/
def swapRoot (p : ℕ) (h : Root) : Root :=
  if h = .fresh then .proc p else if h = .proc p then .fresh else h

theorem swapRoot_swapRoot (p : ℕ) (h : Root) : swapRoot p (swapRoot p h) = h := by
  rcases eq_or_ne h .fresh with rfl | h1
  · simp [swapRoot]
  · rcases eq_or_ne h (.proc p) with rfl | h2
    · simp [swapRoot]
    · simp [swapRoot, h1, h2]

/-- The new directory takes the place of the old one. -/
theorem exchange {k : Kmem} {R : Roots} {p cur d : ℕ}
    (hi : PageInv k (R.setRoot .fresh (some d)) NPAGES) (hcur : R.root (.proc p) = some cur) :
    PageInv k ((R.setRoot (.proc p) (some d)).setRoot .fresh (some cur)) NPAGES := by
  refine hi.rename id (swapRoot p) (fun _ _ h => h) (fun h x hx => ?_) (fun _ _ _ _ _ he => he)
    fun h h' x _ _ he => ?_
  · rcases eq_or_ne h .fresh with rfl | h1
    · simp only [setRoot, Function.update_self] at hx
      simp [setRoot, swapRoot, hcur, hx]
    rcases eq_or_ne h (.proc p) with rfl | h2
    · simp [setRoot] at hx
      simp [setRoot, swapRoot, hx]
    · simp only [setRoot, Function.update_of_ne h1, Function.update_of_ne h2] at hx
      simp [setRoot, swapRoot, h1, h2, hx]
  · rw [← swapRoot_swapRoot p h, he, swapRoot_swapRoot]

/-- **The commit of `exec`**: the old image is given back, and the others keep their pages. -/
theorem freevm_old {k : Kmem} {R : Roots} {p cur d : ℕ}
    (hi : PageInv k (R.setRoot .fresh (some d)) NPAGES) (hcur : R.root (.proc p) = some cur)
    (hs : R.HandsFree) (hpos : 0 < k.kend) (np : ℕ) :
    Ends (freevm cur) k (fun _ k' => ∃ R1 R2, Acc False np k R1 k' R2 ∧
      R1.root (.proc p) = some d) fun _ => False := by
  obtain ⟨R1, hR1⟩ : ∃ R1, R1 = (R.setRoot (.proc p) (some d)).setRoot .fresh (some cur) := ⟨_, rfl⟩
  have hi1 : PageInv k R1 NPAGES := hR1 ▸ exchange hi hcur
  have hcur1 : R1.root .fresh = some cur := by simp [hR1, setRoot]
  have hd1 : R1.root (.proc p) = some d := by simp [hR1, setRoot]
  have hs1 : ∀ n, R1.single (.hand n) = none := by
    intro n
    rw [hR1]
    exact hs n
  refine ((freevm_acc (A := False) (.start np hi1) hcur1 hs1 False.elim).allow
    fun _ hc => hc hpos).mono ?_
  exact fun _ k' h => ⟨R1, _, h, hd1⟩

/-- **`exec` with its commit**: it ends, and the process sees the new image, or nothing has
changed. -/
theorem execMem_img {k : Kmem} {R : Roots} {p cur : ℕ} (hi : PageInv k R NPAGES)
    (hr : R.root .fresh = none) (hs : R.HandsFree) (hcur : R.root (.proc p) = some cur)
    (hpos : 0 < k.kend)
    (hcall : ExecOk k elf phs args) (np : ℕ) :
    Ends (execMem cur elf phs args) k (fun r k' => (r = none → ∃ R', Acc True np k R k' R') ∧
      ∀ d sz, r = some (d, sz) → sz = PGROUNDUP (imageSize 0 phs) + 2 * PGSIZE ∧ sz < KERNBASE ∧
        need 0 args ≤ sz ∧ sz - PGSIZE ≤ finalSp sz 0 args ∧
        Sees k' d (npages sz) (fun i => i = npages sz - 2)
          (stackBytes (image (fun _ => 0) phs) sz [] args)) fun _ => False := by
  rw [execMem]
  refine ((exec_img hi hr hs hcall np).allow fun _ hc => hc hpos).bind ?_
  rintro (_ | ⟨d, sz⟩) k1 ⟨hnone, hsome⟩
  · exact ends_pure ⟨fun _ => (hnone rfl).elim (fun h => ⟨R, h⟩) fun h =>
      ⟨_, h.choose_spec⟩, by simp⟩
  obtain ⟨hsz, hlt, hneed, hlow, himg⟩ := hsome d sz rfl
  have hroot := root_setRoot R .fresh (some d)
  refine (freevm_old himg.acc.inv hcur hs (himg.acc.kend ▸ hpos) np).bind ?_
  rintro _ k2 ⟨R1, R2, h2, hd2⟩
  refine ends_pure ⟨by simp, fun d' sz' he => ?_⟩
  obtain ⟨rfl, rfl⟩ := Prod.mk.inj (Option.some.inj he)
  exact ⟨hsz, hlt, hneed, hlow, (himg.sees hroot).acc h2 hd2 (by simp)⟩

end VmSys

end Xv6
