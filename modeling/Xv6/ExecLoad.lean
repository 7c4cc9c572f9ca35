import Xv6.ExecFile

/-!
# The image of a program

What a program that was started by `exec` finds in its memory, read through its page table.

* `VmSys.exec_loads`: **the segments are those of the file**, the rest of the pages below the stack
  is zero, the guard page is there but not for the program, and `sz` is the end of the stack.
* `VmSys.exec_args`: **the arguments are on the stack**, and nothing of them is anywhere else.
* `VmSys.exec_no_guard` and `VmSys.exec_no_stack` are two calls of `exec` in which `allocuvm` gets
  no page for a page table and ignores that: one program runs without its guard page, the other
  without its stack.
-/

namespace Xv6

open Function List Exec

open Exec Roots

namespace Kmem

variable {k : Kmem} {d n va : ℕ} {g : ℕ → Prop} {f : ℕ → UInt8}

/-! ## Reading through a page table -/

/-- A byte of a page that is present. -/
def byteAt (k : Kmem) (d va : ℕ) : Option UInt8 :=
  (k.pte d va).bind fun w =>
    if PTE_P w then some ((k.mem (ptePage w)).get (va % PGSIZE)) else none

/-- A byte that the program can read. -/
def userByte (k : Kmem) (d va : ℕ) : Option UInt8 :=
  (k.pte d va).bind fun w =>
    if PTE_P w ∧ PTE_U w then some ((k.mem (ptePage w)).get (va % PGSIZE)) else none

/-- A word that the program can read. -/
def userWord (k : Kmem) (d va : ℕ) : Option ℕ := do
  let b0 ← k.userByte d va
  let b1 ← k.userByte d (va + 1)
  let b2 ← k.userByte d (va + 2)
  let b3 ← k.userByte d (va + 3)
  pure (b0.toNat + 256 * b1.toNat + 65536 * b2.toNat + 16777216 * b3.toNat)

theorem byteAt_eq_none : k.byteAt d va = none ↔ ∀ w, k.pte d va = some w → ¬PTE_P w := by
  rw [byteAt]
  rcases k.pte d va with _ | w
  · simp
  · simp

theorem userByte_ne_none :
    k.userByte d va ≠ none ↔ ∃ w, k.pte d va = some w ∧ PTE_P w ∧ PTE_U w := by
  rw [userByte]
  rcases k.pte d va with _ | w
  · simp
  · simp

section

variable (h : Sees k d n g f) (hva : va < KERNBASE)

include h hva

theorem Sees.byteAt (hn : va / PGSIZE < n) : k.byteAt d va = some (f va) := by
  obtain ⟨w, hw, hP, -, hf⟩ := h.byte va hva hn
  rw [Kmem.byteAt, hw, Option.bind_some, if_pos hP, hf]

theorem Sees.userByte (hn : va / PGSIZE < n)
    (hg : ¬g (va / PGSIZE)) : k.userByte d va = some (f va) := by
  obtain ⟨w, hw, hP, hU, hf⟩ := h.byte va hva hn
  rw [Kmem.userByte, hw, Option.bind_some, if_pos ⟨hP, hU.mpr hg⟩, hf]

theorem Sees.userByte_guard (hn : va / PGSIZE < n)
    (hg : g (va / PGSIZE)) : k.userByte d va = Option.none := by
  obtain ⟨w, hw, hP, hU, hf⟩ := h.byte va hva hn
  rw [Kmem.userByte, hw, Option.bind_some, if_neg fun hc => hU.mp hc.2 hg]

theorem Sees.byteAt_none (hn : n ≤ va / PGSIZE) : k.byteAt d va = Option.none :=
  byteAt_eq_none.mpr (h.none va hva hn)

end

theorem userWord_eq (h : ∀ v, va ≤ v → v < va + 4 → k.userByte d v = some (f v)) :
    k.userWord d va = some (wordAt f va) := by
  rw [userWord, h va (by omega) (by omega), h (va + 1) (by omega) (by omega),
    h (va + 2) (by omega) (by omega), h (va + 3) (by omega) (by omega)]
  rfl

/-! ## The bytes of the segments -/

theorem Segment.length_rest (ph : Segment) : (ph.rest 0).length = ph.filesz.toNat := by
  simp [Segment.rest]

/-- Outside of the segments nothing is loaded. -/
theorem image_outside : ∀ (phs : List Segment) (f : ℕ → UInt8) {v : ℕ},
    (∀ ph ∈ phs, ph.load = true →
      v < ph.vaddr.toNat ∨ ph.vaddr.toNat + ph.filesz.toNat ≤ v) → image f phs v = f v := by
  intro phs
  induction phs with
  | nil => exact fun _ _ _ => rfl
  | cons ph phs ih =>
    intro f v h
    have hrest := fun f' => ih f' fun ph' hm => h ph' (mem_cons_of_mem _ hm)
    rw [image]
    split
    · rename_i hload
      rw [hrest]
      rcases h ph mem_cons_self hload with hlt | hge
      · exact overlay_of_lt hlt
      · exact overlay_of_ge (ph.length_rest.symm ▸ hge)
    · exact hrest f

/-- Segments that follow each other keep their bytes. -/
theorem image_inside : ∀ (phs : List Segment) (f : ℕ → UInt8),
    (phs.Pairwise fun a b => a.load = true → b.load = true →
      a.vaddr.toNat + a.filesz.toNat ≤ b.vaddr.toNat) →
    ∀ ph ∈ phs, ph.load = true → ∀ i < ph.filesz.toNat,
      image f phs (ph.vaddr.toNat + i) = ph.data i := by
  intro phs
  induction phs with
  | nil => exact fun _ _ ph hph => absurd hph not_mem_nil
  | cons a phs ih =>
    intro f hpair ph hph hload i hi
    obtain ⟨ha, hpair⟩ := pairwise_cons.mp hpair
    rw [image]
    rcases mem_cons.mp hph with rfl | hph
    · rw [if_pos hload, image_outside phs _ fun b hb hbload => ?_]
      · rw [overlay_of_mem (by rwa [ph.length_rest])]
        simp [Segment.rest]
      · exact .inl (lt_of_lt_of_le (Nat.add_lt_add_left hi _) (ha b hb hload hbload))
    · split
      · exact ih _ hpair ph hph hload i hi
      · exact ih _ hpair ph hph hload i hi

end Kmem

open Kmem

theorem wordAt_lt (f : ℕ → UInt8) (a : ℕ) : wordAt f a < 2 ^ 32 := by
  have h := fun i => (f i).toNat_lt
  have h0 := h a
  have h1 := h (a + 1)
  have h2 := h (a + 2)
  have h3 := h (a + 3)
  rw [wordAt]
  omega

/-- A segment ends below the end of the image. -/
theorem le_imageSize : ∀ (phs : List Segment) (sz : ℕ), sz ≤ imageSize sz phs ∧
    ∀ ph ∈ phs, ph.load = true → (ph.vaddr + ph.memsz).toNat ≤ imageSize sz phs := by
  intro phs
  induction phs with
  | nil => exact fun sz => ⟨le_rfl, fun ph hph => absurd hph not_mem_nil⟩
  | cons a phs ih =>
    intro sz
    rw [imageSize]
    split
    · rename_i hload
      obtain ⟨hle, hall⟩ := ih (max sz (a.vaddr + a.memsz).toNat)
      refine ⟨(le_max_left _ _).trans hle, fun ph hph hl => ?_⟩
      rcases mem_cons.mp hph with rfl | hph
      · exact (le_max_right _ _).trans hle
      · exact hall ph hph hl
    rename_i hload
    obtain ⟨hle, hall⟩ := ih sz
    refine ⟨hle, fun ph hph hl => ?_⟩
    rcases mem_cons.mp hph with rfl | hph
    · exact absurd hl hload
    · exact hall ph hph hl

/-- **The files of the linker**: page-aligned segments, in increasing order with no page in common,
that end below the kernel with room for the stack, with all their bytes in the file. -/
structure WellFormed (file : List UInt8) (elf : Elf) : Prop where
  segment : ∀ i < elf.phnum, (progHdr file elf i).type = ELF_PROG_LOAD →
    (progHdr file elf i).vaddr % PGSIZE = 0 ∧
    (progHdr file elf i).filesz ≤ (progHdr file elf i).memsz ∧
    (progHdr file elf i).vaddr + (progHdr file elf i).memsz < KERNBASE - 4 * PGSIZE ∧
    (progHdr file elf i).off + (progHdr file elf i).filesz ≤ file.length
  increasing : ∀ i j, i < j → j < elf.phnum → (progHdr file elf i).type = ELF_PROG_LOAD →
    (progHdr file elf j).type = ELF_PROG_LOAD →
    PGROUNDUP ((progHdr file elf i).vaddr + (progHdr file elf i).memsz) ≤ (progHdr file elf j).vaddr

theorem le_PGROUNDUP (sz : ℕ) : sz ≤ PGROUNDUP sz := by
  have hp := PGSIZE_eq
  rw [PGROUNDUP, hp]
  omega

section Segments

variable {file : List UInt8} {elf : Elf}

theorem segments_eq (he : header file = some elf) : segments file = programHeaders file elf := by
  rw [segments, he]

section

variable (read : Bool) (i : ℕ)

include read i

theorem vaddr_segment :
    ((progHdr file elf i).segment file read).vaddr.toNat = (progHdr file elf i).vaddr :=
  Nat.mod_eq_of_lt (wordAt_lt _ _)

theorem filesz_segment :
    ((progHdr file elf i).segment file read).filesz.toNat = (progHdr file elf i).filesz :=
  Nat.mod_eq_of_lt (wordAt_lt _ _)

theorem memsz_segment :
    ((progHdr file elf i).segment file read).memsz.toNat = (progHdr file elf i).memsz :=
  Nat.mod_eq_of_lt (wordAt_lt _ _)

theorem load_segment : ((progHdr file elf i).segment file read).load = true ↔
    (progHdr file elf i).type = ELF_PROG_LOAD := decide_eq_true_iff

end

/-- The segments are those of the program headers. -/
theorem mem_segments {ph : Segment} (he : header file = some elf) : ph ∈ segments file ↔
    ∃ i < elf.phnum, (progHdr file elf i).segment file
      (((readAt file ((elf.phoff + 32 * i) % 2 ^ 32) 32).getD []).length = 32) = ph := by
  rw [segments_eq he, programHeaders, mem_map]
  simp only [mem_range]

theorem WellFormed.pairwise (h : WellFormed file elf) (he : header file = some elf) :
    (segments file).Pairwise fun a b => a.load = true → b.load = true →
      a.vaddr.toNat + a.filesz.toNat ≤ b.vaddr.toNat := by
  rw [segments_eq he, programHeaders, pairwise_map, pairwise_iff_getElem]
  intro i j hi hj hij
  rw [length_range] at hi hj
  rw [getElem_range, getElem_range, load_segment, load_segment, vaddr_segment,
    vaddr_segment, filesz_segment]
  intro hload hload'
  have hle := h.increasing i j hij hj hload hload'
  have hround := le_PGROUNDUP ((progHdr file elf i).vaddr + (progHdr file elf i).memsz)
  have hfile := (h.segment i hi hload).2.1
  omega

end Segments

namespace VmSys

variable {s : VmSys} {p d sz : ℕ} {file : List UInt8} {elf : Elf} {args : List (List UInt8)}
  {oom : List Bool} {k : Kmem}

/-! ## The program -/

/-- `exec` succeeds, with a new directory and size. -/
def Execs (s : VmSys) (p : ℕ) (file : List UInt8) (args : List (List UInt8)) (oom : List Bool)
    (d sz : ℕ) (k : Kmem) : Prop :=
  execMem (s.proc p).pgdir (header file).isSome (segments file) args (s.start oom) =
    .ok (some (d, sz), k)

/-- **What `exec` does not check**: see `Kmem.Sound` and `Kmem.ArgsOk`. -/
abbrev CallOk (s : VmSys) (file : List UInt8) (args : List (List UInt8)) (oom : List Bool) : Prop :=
  ExecOk (s.start oom) (header file).isSome (segments file) args

theorem Execs.step (hp : p < NPROC ∧ (s.proc p).state = .alive)
    (h : s.Execs p file args oom d sz k) :
    s.execFile p file args oom = .ok (({ s with km := k } : VmSys).setProc p
      { s.proc p with pgdir := d, sz := sz }) := by
  rw [execFile_eq hp, h]

/-- What the program sees. -/
theorem Execs.sees (hi : s.Inv) (hpos : 0 < s.km.kend) (hp : p < NPROC ∧ (s.proc p).state = .alive)
    (hcall : s.CallOk file args oom) (h : s.Execs p file args oom d sz k) :
    sz = PGROUNDUP (imageSize 0 (segments file)) + 2 * PGSIZE ∧ sz < KERNBASE ∧
      need 0 args ≤ sz ∧ sz - PGSIZE ≤ finalSp sz 0 args ∧
        Sees k d (npages sz) (fun i => i = npages sz - 2)
        (stackBytes (image (fun _ => 0) (segments file)) sz [] args) :=
  ((execMem_img (pageInv_oom hi.pages oom) rfl (fun _ => rfl)
    (roots_proc hp.1 (by rw [hp.2]; simp)) hpos hcall NPROC).ok h).2 d sz rfl

theorem length_argPtrs : ∀ (args : List (List UInt8)) (sp : ℕ), (argPtrs sp args).length =
    args.length
  | [], _ => rfl
  | _ :: args, _ => congrArg (· + 1) (length_argPtrs args _)

/-- The last page of the image. -/
theorem page_of_stack {m va : ℕ} (hm : sz = (m + 2) * PGSIZE) (hle : sz - PGSIZE ≤ va)
    (hva : va < sz) : va / PGSIZE = m + 1 := by
  have hp := PGSIZE_eq
  rw [hp] at hm hle ⊢
  omega

/-- Below the stack there are the bytes that were loaded. -/
theorem below_stack {f : ℕ → UInt8} {va : ℕ} (hsz : sz < KERNBASE) (hneed : need 0 args ≤ sz)
    (hlow : sz - PGSIZE ≤ finalSp sz 0 args) (hva : va < sz - PGSIZE) :
    stackBytes f sz [] args va = f va :=
  stack_outside args f sz [] hneed (hsz.trans (by decide)) (.inl (lt_of_lt_of_le hva hlow))

/-- **`exec` loads the program**: the bytes of each segment are those of the file, the rest of the
pages below the stack is zero, the page below the stack is present but not for the program, and `sz`
is the end of the stack. -/
theorem exec_loads (hi : s.Inv) (hpos : 0 < s.km.kend) (hp : p < NPROC ∧ (s.proc p).state = .alive)
    (he : header file = some elf) (hwf : WellFormed file elf) (hcall : s.CallOk file args oom)
    (h : s.Execs p file args oom d sz k) :
    s.execFile p file args oom = .ok (({ s with km := k } : VmSys).setProc p
      { s.proc p with pgdir := d, sz := sz }) ∧
    (∀ i < elf.phnum, (progHdr file elf i).type = ELF_PROG_LOAD →
      ∀ j < (progHdr file elf i).filesz,
        k.userByte d ((progHdr file elf i).vaddr + j) = file[(progHdr file elf i).off + j]?) ∧
    (∀ va < sz - 2 * PGSIZE, (∀ i < elf.phnum, (progHdr file elf i).type = ELF_PROG_LOAD →
        va < (progHdr file elf i).vaddr ∨
          (progHdr file elf i).vaddr + (progHdr file elf i).filesz ≤ va) →
      k.userByte d va = some 0) ∧
    (∀ va, sz - 2 * PGSIZE ≤ va → va < sz - PGSIZE →
      (k.byteAt d va).isSome ∧ k.userByte d va = none) ∧
    (∀ va, sz - PGSIZE ≤ va → va < sz → (k.userByte d va).isSome) ∧
    ∀ va, sz ≤ va → va < KERNBASE → k.byteAt d va = none := by
  have hpage := PGSIZE_eq
  obtain ⟨hsz, hlt, hneed, hlow, hsees⟩ := h.sees hi hpos hp hcall
  obtain ⟨m, hm⟩ : ∃ m, sz = (m + 2) * PGSIZE :=
    ⟨(imageSize 0 (segments file) + PGSIZE - 1) / PGSIZE, by rw [hsz, PGROUNDUP, Nat.add_mul]⟩
  have hn : npages sz = m + 2 := by
    rw [npages, hm, hpage]
    omega
  rw [hn] at hsees
  rw [hpage] at hm
  rw [hpage]
  have hprogram : ∀ va < sz - 2 * 4096,
      k.userByte d va = some (image (fun _ => 0) (segments file) va) := by
    intro va hva
    rw [hsees.userByte (by omega) (by rw [hpage]; omega) (by rw [hpage]; omega),
      below_stack hlt hneed hlow (hva.trans_le (Nat.sub_le_sub_left (by decide) sz))]
  refine ⟨h.step hp, ?_, ?_, ?_, ?_, ?_⟩
  · intro i hi hload j hj
    obtain ⟨-, hmemsz, hbelow, hfile⟩ := hwf.segment i hi hload
    have hmem := (mem_segments he).mpr ⟨i, hi, rfl⟩
    have hend : (progHdr file elf i).vaddr + (progHdr file elf i).memsz ≤ sz - 2 * 4096 := by
      have hle := (le_imageSize (segments file) 0).2 _ hmem ((load_segment _ i).mpr hload)
      have hround := le_PGROUNDUP (imageSize 0 (segments file))
      rw [UInt32.toNat_add, vaddr_segment, memsz_segment,
        Nat.mod_eq_of_lt (hbelow.trans (by decide))] at hle
      rw [hpage] at hsz
      omega
    have hbyte := image_inside (segments file) (fun _ => 0) (hwf.pairwise he) _ hmem
      ((load_segment _ i).mpr hload) j (by rwa [filesz_segment])
    rw [vaddr_segment] at hbyte
    rw [hprogram _ (by omega), hbyte]
    have hin : (progHdr file elf i).off + j < file.length := by omega
    simp [ProgHdr.segment, byteOr0, hin]
  · intro va hva hout
    rw [hprogram va hva, image_outside]
    intro ph hph hload
    obtain ⟨i, hi, rfl⟩ := (mem_segments he).mp hph
    rw [vaddr_segment, filesz_segment]
    exact hout i hi ((load_segment _ i).mp hload)
  · intro va hle hlt'
    rw [hsees.byteAt (by omega) (by rw [hpage]; omega),
      hsees.userByte_guard (by omega) (by rw [hpage]; omega) (by rw [hpage]; omega)]
    exact ⟨rfl, rfl⟩
  · intro va hle hlt'
    rw [hsees.userByte (by omega) (by rw [hpage]; omega) (by rw [hpage]; omega)]
    rfl
  · intro va hle hlt'
    exact hsees.byteAt_none hlt' (by rw [hpage]; omega)

/-- A `kalloc` that does not fail. -/
theorem kalloc_false (k : Kmem) (x : ℕ) (free : List ℕ) (o : List Bool) :
    kalloc { k with free := x :: free, oom := false :: o } =
      .ok (some x, { k with free := free, oom := o }) := rfl

/-- The calls of `kalloc` for the kernel mappings, if they do not fail. -/
theorem mapKernel_oom (o : List Bool) : ∀ (is : List ℕ) {k k' : Kmem}, k.oom = [] →
    mapKernel d is k = .ok (true, k') →
    mapKernel d is { k with oom := List.replicate is.length false ++ o } =
      .ok (true, { k' with oom := o }) := by
  intro is
  induction is with
  | nil =>
    intro k k' _ h
    cases h
    rfl
  | cons i is ih =>
    intro k k' hoom h
    rcases hfree : k.free with _ | ⟨t, free⟩
    · have hnone : kalloc k = .ok (none, { k with oom := [] }) := by
        rw [kalloc, hoom, hfree]
        rfl
      rw [mapKernel, bind_ok hnone] at h
      cases h
    have hsome : kalloc k = .ok (some t, { k with free := free, oom := [] }) := by
      rw [kalloc, hoom, hfree]
      rfl
    rw [mapKernel, bind_ok hsome] at h
    rw [mapKernel, length_cons, replicate_succ, cons_append, bind_ok (kalloc_false k _ free _)]
    exact ih rfl h

theorem setupkvm_oom (o : List Bool) {k' : Kmem} (hoom : k.oom = [])
    (h : setupkvm k = .ok (some d, k')) :
    setupkvm { k with oom := List.replicate 65 false ++ o } =
      .ok (some d, { k' with oom := o }) := by
  rcases hfree : k.free with _ | ⟨x, free⟩
  · have hnone : kalloc k = .ok (none, { k with oom := [] }) := by
      rw [kalloc, hoom, hfree]
      rfl
    rw [setupkvm, bind_ok hnone] at h
    cases h
  have hsome : kalloc k = .ok (some x, { k with free := free, oom := [] }) := by
    rw [kalloc, hoom, hfree]
    rfl
  rw [setupkvm, bind_ok hsome] at h
  replace h := (bind_ok (m := clear x) rfl).symm.trans h
  rw [setupkvm, replicate_succ, cons_append, bind_ok (kalloc_false k _ free _)]
  refine (bind_ok (m := clear x) rfl).trans ?_
  rcases hmap : mapKernel x kmap { k with
      mem := update k.mem x Bytes.zero, free := free, oom := [] } with e | ⟨ok, k1⟩
  · rw [bind_error hmap] at h
    cases h
  rw [bind_ok hmap] at h
  cases ok
  · cases h
  cases h
  exact (bind_ok (mapKernel_oom o kmap rfl hmap)).trans rfl

/-- `setupkvm` in the kernel that has just started. -/
theorem setupkvm_started (o : List Bool) : setupkvm (started.start (List.replicate 65 false ++ o)) =
    .ok (some 57275, { kernelMapped execStart 57211 with oom := o }) :=
  setupkvm_oom o (k := execStart) rfl (setupkvm_eq rfl (by decide))

/-- If `exec` gets as far as its commit, it succeeds. -/
theorem execs_of_exec (hi : s.Inv) (hpos : 0 < s.km.kend)
    (hp : p < NPROC ∧ (s.proc p).state = .alive) (hcall : s.CallOk file args oom)
    (h : Kmem.exec (s.proc p).pgdir (header file).isSome (segments file) args (s.start oom) =
      .ok (some (d, sz), k)) : ∃ k', s.Execs p file args oom d sz k' := by
  have hend : Ends (execMem (s.proc p).pgdir (header file).isSome (segments file) args)
      (s.start oom) _ fun _ => False :=
    execMem_img (pageInv_oom hi.pages oom) rfl (fun _ => rfl)
      (roots_proc hp.1 (by rw [hp.2]; simp)) hpos hcall NPROC
  rcases hm : execMem (s.proc p).pgdir (header file).isSome (segments file) args (s.start oom) with
    e | ⟨r, k'⟩
  · exact absurd (hend.error hm) id
  · have hfree := hm
    rw [execMem, bind_ok h] at hfree
    obtain ⟨_, k1, -, hpure⟩ := ok_of_bind hfree
    cases hpure
    exact ⟨k', hm⟩

/-- The parts of `exec`. -/
theorem execs_of_parts {n : ℕ} {k1 k2 k3 : Kmem} (hheader : (header file).isSome = true)
    (hkvm : setupkvm (s.start oom) = .ok (some d, k1))
    (hload : loadSegments d 0 (segments file) k1 = .ok (some n, k2))
    (hstack : execStack (s.proc p).pgdir d (PGROUNDUP n) args k2 = .ok (some sz, k3))
    (hfree : freevm (s.proc p).pgdir k3 = .ok ((), k)) : s.Execs p file args oom d sz k := by
  have himage : execImage (s.proc p).pgdir d (segments file) args k1 = .ok (some sz, k3) := by
    rw [execImage, bind_ok hload]
    exact hstack
  have hexec : Kmem.exec (s.proc p).pgdir true (segments file) args (s.start oom) =
      .ok (some (d, sz), k3) := by
    rw [exec_eq hkvm, bind_ok himage]
    rfl
  rw [Execs, hheader]
  exact (bind_ok hexec).trans (bind_ok hfree)

instance (file : List UInt8) (elf : Elf) : Decidable (WellFormed file elf) :=
  decidable_of_iff ((∀ i < elf.phnum, (progHdr file elf i).type = ELF_PROG_LOAD →
      (progHdr file elf i).vaddr % PGSIZE = 0 ∧
      (progHdr file elf i).filesz ≤ (progHdr file elf i).memsz ∧
      (progHdr file elf i).vaddr + (progHdr file elf i).memsz < KERNBASE - 4 * PGSIZE ∧
      (progHdr file elf i).off + (progHdr file elf i).filesz ≤ file.length) ∧
    ∀ j < elf.phnum, ∀ i < j, (progHdr file elf i).type = ELF_PROG_LOAD →
      (progHdr file elf j).type = ELF_PROG_LOAD →
      PGROUNDUP ((progHdr file elf i).vaddr + (progHdr file elf i).memsz) ≤
        (progHdr file elf j).vaddr)
    ⟨fun h => ⟨h.1, fun i j hij hj => h.2 j hj i hij⟩,
      fun h => ⟨h.segment, fun j hj i hij => h.increasing i j hij hj⟩⟩

/-- The program of one page is started. -/
theorem onePage_execs : ∃ k, started.Execs 0 onePage [[104, 105]] hundred 57275 (3 * PGSIZE) k := by
  obtain ⟨⟨r, k1⟩, himage, hr⟩ := exists_ok_of_check
    (P := fun x : Option ℕ × Kmem => x.1 = some (3 * PGSIZE))
    (x := execImage 57342 57275 (segments onePage) [[104, 105]]
      { kernelMapped execStart 57211 with oom := List.replicate 35 false ++ [true] })
    (by decide +kernel)
  obtain rfl : r = some (3 * PGSIZE) := hr
  have hheader : (header onePage).isSome = true := by decide
  have hoom : hundred = List.replicate 65 false ++ (List.replicate 35 false ++ [true]) := by
    decide
  have hexec : Kmem.exec 57342 true (segments onePage) [[104, 105]] (started.start hundred) =
      .ok (some (57275, 3 * PGSIZE), k1) := by
    rw [exec_eq (hoom ▸ setupkvm_started _), bind_ok himage]
    rfl
  exact execs_of_exec (inv_boot boot_eq).1 (by decide) (by decide) execOk_onePage (hheader ▸ hexec)

/-- The program of one page has its byte at address 0. -/
theorem exec_loads_onePage : ∃ s0 k, boot 0 256 (fun _ => Bytes.zero) [0] = .ok s0 ∧
    s0.Execs 0 onePage [[104, 105]] hundred 57275 (3 * PGSIZE) k ∧
    k.userByte 57275 0 = some 195 := by
  obtain ⟨k, hk⟩ := onePage_execs
  have he : header onePage = some ⟨ELF_MAGIC, 52, 1⟩ := by decide
  obtain ⟨-, hsegment, -⟩ := exec_loads (inv_boot boot_eq).1 (by decide) (by decide) he
    (by decide) execOk_onePage hk
  exact ⟨started, k, boot_eq, hk, hsegment 0 (by decide) (by decide) 0 (by decide)⟩

/-! ## The arguments -/

/-- **`exec` passes the arguments**: at the stack pointer there are a fake return address, `argc`
and `argv`, a vector of pointers to the strings that ends with 0. The strings and the vector have no
byte in common, and are all in the page of the stack; the pages below it keep what was loaded. -/
theorem exec_args (hi : s.Inv) (hpos : 0 < s.km.kend) (hp : p < NPROC ∧ (s.proc p).state = .alive)
    (hcall : s.CallOk file args oom) (h : s.Execs p file args oom d sz k) :
    ∃ esp ptrs, esp = finalSp sz 0 args ∧ sz - PGSIZE ≤ esp ∧
      (∀ i w, ([0xFFFFFFFF, args.length, esp + 12] ++ ptrs ++ [0])[i]? = some w →
        k.userWord d (esp + 4 * i) = some w) ∧
      List.Forall₂ (fun x arg => ∀ i (hi : i < (arg ++ [0]).length),
        k.userByte d (x + i) = some (arg ++ [(0 : UInt8)])[i]) ptrs args ∧
      (∀ x ∈ ptrs.zip args, x.1 ≠ 0 ∧ x.1 % 4 = 0 ∧ esp + 4 * (args.length + 4) ≤ x.1 ∧
        x.1 + (x.2.length + 1) ≤ sz) ∧
      ((ptrs.zip args).Pairwise fun x y => y.1 + (y.2.length + 1) ≤ x.1) ∧
      ∀ va < sz - PGSIZE, k.byteAt d va = some (image (fun _ => 0) (segments file) va) := by
  obtain ⟨hsz, hlt, hneed, hlow, hsees⟩ := h.sees hi hpos hp hcall
  have hword : sz < 2 ^ 32 := hlt.trans (by decide)
  obtain ⟨m, hm⟩ : ∃ m, sz = (m + 2) * PGSIZE :=
    ⟨(imageSize 0 (segments file) + PGSIZE - 1) / PGSIZE, by rw [hsz, PGROUNDUP, Nat.add_mul]⟩
  have hn : npages sz = m + 2 := by
    rw [npages, hm, show PGSIZE = 4096 from rfl]
    omega
  rw [hn] at hsees
  have hstack : ∀ va, finalSp sz 0 args ≤ va → va < sz →
      k.userByte d va = some (stackBytes (image (fun _ => 0) (segments file)) sz [] args va) := by
    intro va hle hva
    have hpage : va / PGSIZE = m + 1 := page_of_stack hm (hlow.trans hle) hva
    exact hsees.userByte (hva.trans hlt) (by omega) (by omega)
  have heq := finalSp_eq hneed hword
  obtain ⟨hbig, hle⟩ := argSp_le args sz 0 hneed hword
  obtain ⟨hall, hpair⟩ := argPtrs_apart args sz 0 hneed hword
  refine ⟨_, argPtrs sz args, rfl, hlow, fun i w hw => ?_, ?_, fun x hx => ?_, hpair,
    fun va hva => ?_⟩
  · have hi : i < args.length + 4 := by
      have hi := (List.getElem?_eq_some_iff.mp hw).1
      simp only [length_append, length_cons, length_nil, length_argPtrs] at hi
      omega
    rw [userWord_eq fun v hv hv' => hstack v (by omega) (by omega)]
    exact congrArg some (stack_words args _ sz [] hneed hword (by simp) i w (by simpa using hw))
  · refine List.forall₂_iff_zip.mpr ⟨length_argPtrs args sz, fun {x arg} hx i hi => ?_⟩
    obtain ⟨hge, -, hend⟩ : argSp sz args ≤ x ∧ x % 4 = 0 ∧ x + (arg.length + 1) ≤ sz := hall _ hx
    have hi' : i < arg.length + 1 := by simpa using hi
    rw [hstack (x + i) (by omega) (by omega)]
    exact congrArg some ((List.forall₂_iff_zip.mp
      (stack_strings args _ sz [] hneed hword)).2 hx i hi)
  · obtain ⟨hge, halign, hend⟩ := hall x hx
    exact ⟨by omega, halign, by omega, hend⟩
  · have hpage : va / PGSIZE < m + 2 := by
      rw [Nat.div_lt_iff_lt_mul (by decide), ← hm]
      exact hva.trans_le (Nat.sub_le ..)
    rw [hsees.byteAt (hva.trans_le ((Nat.sub_le ..).trans hlt.le)) hpage,
      below_stack hlt hneed hlow hva]

/-- The program of one page finds its argument. -/
theorem exec_args_onePage : ∃ s0 k esp, boot 0 256 (fun _ => Bytes.zero) [0] = .ok s0 ∧
    s0.Execs 0 onePage [[104, 105]] hundred 57275 (3 * PGSIZE) k ∧
    k.userWord 57275 (esp + 4) = some 1 := by
  obtain ⟨k, hk⟩ := onePage_execs
  obtain ⟨esp, ptrs, -, -, hword, -⟩ := exec_args (inv_boot boot_eq).1 (by decide) (by decide)
    execOk_onePage hk
  exact ⟨started, k, esp, boot_eq, hk, hword 1 1 rfl⟩

/-! ## A missing page table -/

theorem uva2ka_of_pte (cur : ℕ) {w va : ℕ} (h : k.pte d va = some w) (hw : PTE_P w ∧ PTE_U w) :
    uva2ka cur d va k = .ok (some (ptePage w), k) := by
  obtain ⟨t, ht, rfl⟩ := Option.map_eq_some_iff.mp h
  have hwalk : walkpgdir d va false k = .ok (some (t, PTX va), k) := by rw [walkpgdir_eq, ht]; rfl
  have hpte : uvaPte cur d va k = .ok (k.word t (PTX va), k) := by
    rw [uvaPte, bind_ok hwalk]
    rfl
  rw [uva2ka, bind_ok hpte, if_pos hw]
  rfl

/-- `uva2ka` does not look whether there is a page table: it reads the word at address 0 of the
process that runs. -/
theorem uva2ka_of_none {cur w va : ℕ} (h : k.pte d va = none) (hcur : k.pte cur 0 = some w)
    (hp : PTE_P w) (hw : PTE_P (k.word (ptePage w) 0) ∧ PTE_U (k.word (ptePage w) 0)) :
    uva2ka cur d va k = .ok (some (ptePage (k.word (ptePage w) 0)), k) := by
  have hent : ent k.mem d (PDX va) = none := Option.map_eq_none_iff.mp h
  obtain ⟨t, ht, rfl⟩ := Option.map_eq_some_iff.mp hcur
  have hwalk : walkpgdir d va false k = .ok (none, k) := by rw [walkpgdir_eq, hent]; rfl
  have hzero : walkpgdir cur 0 false k = .ok (some (t, PTX 0), k) := by rw [walkpgdir_eq, ht]; rfl
  have hpte : uvaPte cur d va k = .ok (k.word (ptePage (k.word t (PTX 0))) 0, k) := by
    rw [uvaPte, bind_ok hwalk]
    refine (bind_ok hzero).trans ?_
    refine (bind_ok (m := Exec.gets fun k : Kmem => k.word t (PTX 0)) rfl).trans ?_
    rw [if_pos hp]
    rfl
  rw [uva2ka, bind_ok hpte, if_pos hw]
  rfl

/-- A program without arguments, when all of the stack is in one page. -/
theorem execStack_nil {c x r : ℕ} {k1 k2 : Kmem}
    (halloc : allocuvm d sz (sz + 2 * PGSIZE) k = .ok (r, k1)) (hr : r % PGSIZE = 0) (hpos : 0 < r)
    (hlt : r < 2 ^ 32) (hclear : clearpteu d (r - 2 * PGSIZE) k1 = .ok ((), k2))
    (huva : uva2ka c d (r - PGSIZE) k2 = .ok (some x, k2)) :
    execStack c d sz [] k = .ok (some r, { k2 with
      mem := update k2.mem x ((k2.mem x).splice (PGSIZE - 16) (ustack r [])) }) := by
  have hp := PGSIZE_eq
  have hlen : (ustack r []).length = 16 := length_ustack r []
  have hsp : pushed r ((3 + ([] : List ℕ).length + 1) * 4) = r - 16 := by
    rw [hp] at hr
    exact pushed_eq (by simp only [length_nil]; omega) hlt
  have hpage : (r - 16) / PGSIZE * PGSIZE = r - PGSIZE ∧ (r - 16) % PGSIZE = PGSIZE - 16 := by
    rw [hp] at hr ⊢
    omega
  have hcopy : copyout c d (r - 16) (ustack r []) k2 = .ok (true, { k2 with
      mem := update k2.mem x ((k2.mem x).splice (PGSIZE - 16) (ustack r [])) }) := by
    rw [copyout, hlen]
    rcases hb : ustack r [] with _ | ⟨b, bytes⟩
    · rw [hb] at hlen
      cases hlen
    rw [copyoutLoop, hpage.1, bind_ok huva, hpage.2]
    swap
    · simp
    have htake : (b :: bytes).take (PGSIZE - (PGSIZE - 16)) = b :: bytes :=
      take_of_length_le (by rw [← hb, hlen]; decide)
    have hdrop : (b :: bytes).drop (PGSIZE - (PGSIZE - 16)) = [] :=
      drop_of_length_le (by rw [← hb, hlen]; decide)
    dsimp only
    rw [htake, hdrop]
    rfl
  rw [execStack, bind_ok halloc, if_neg hpos.ne', bind_ok hclear, pushArgs]
  rw [hsp]
  exact (bind_ok hcopy).trans rfl

/-- A page table does not change when another page is written. -/
theorem pte_update {R : Roots} {h : Root} {x va : ℕ} (hd : R.root h = some d)
    (hnot : ¬R.IsTable k.mem x) (hva : va < 2 ^ 32) (b : Bytes PGSIZE) :
    Kmem.pte { k with mem := update k.mem x b } d va = k.pte d va := by
  have hdx : d ≠ x := by
    rintro rfl
    exact hnot (.inl ⟨h, hd⟩)
  refine pte_congr (ent_update_ne hdx _) fun t ht => ?_
  have htx : t ≠ x := by
    rintro rfl
    exact hnot (.inr ⟨h, PDX va, tab_eq_some.mpr ⟨PDX_lt hva, d, hd, ht⟩⟩)
  exact congrArg (Bytes.u32 · _) (update_of_ne htx ..)

/-- The commit of `exec`, after a last write to a page that is no page table. -/
theorem commit_pte {R : Roots} {c x : ℕ} (hi : PageInv k (R.setRoot .fresh (some d)) NPAGES)
    (hcur : R.root (.proc p) = some c) (hs : R.HandsFree) (hpos : 0 < k.kend)
    (hnot : ¬(R.setRoot .fresh (some d)).IsTable k.mem x) (b : Bytes PGSIZE) :
    ∃ k', freevm c { k with mem := update k.mem x b } = .ok ((), k') ∧
      ∀ va < KERNBASE, k'.pte d va = k.pte d va := by
  have hend := freevm_old (hi.write hnot b) hcur hs hpos NPROC
  rcases hm : freevm c { k with mem := update k.mem x b } with e | ⟨_, k'⟩
  · exact absurd (hend.error hm) id
  · obtain ⟨R1, R2, hacc, hd⟩ := hend.ok hm
    refine ⟨k', rfl, fun va hva => ?_⟩
    rw [pte_acc hacc hd (by simp) (hva.trans (by decide))]
    exact pte_update (h := .fresh) (by simp [setRoot]) hnot (hva.trans (by decide)) b

/-- A program without segments. -/
def empty : List UInt8 := elfFile [] []

/-- `kalloc` fails for the first page table of user memory, and only for it. -/
def tableFails : List Bool := List.replicate 65 false ++ [false, true]

/-- What is mapped for it: the second page, which will be the stack, but not the first. -/
theorem empty_mapped : ∃ k1 k2, allocuvm 57275 0 (0 + 2 * PGSIZE)
      { kernelMapped execStart 57211 with oom := [false, true] } = .ok (2 * PGSIZE, k1) ∧
    clearpteu 57275 0 k1 = .ok ((), k2) ∧
    k2.kend = 256 ∧ k2.userByte 57275 PGSIZE ≠ none ∧ k2.byteAt 57275 0 = none := by
  obtain ⟨⟨r, k2⟩, hrun, rfl, hkend, hstack, hguard⟩ := exists_ok_of_check
    (P := fun x : ℕ × Kmem => x.1 = 2 * PGSIZE ∧ x.2.kend = 256 ∧
      x.2.userByte 57275 PGSIZE ≠ none ∧ x.2.byteAt 57275 0 = none)
    (x := (allocuvm 57275 0 (0 + 2 * PGSIZE) >>= fun r => clearpteu 57275 0 >>= fun _ => pure r)
      { kernelMapped execStart 57211 with oom := [false, true] }) (by decide)
  obtain ⟨r, k1, halloc, hrest⟩ := ok_of_bind hrun
  obtain ⟨_, k3, hclear, hpure⟩ := ok_of_bind hrest
  cases hpure
  exact ⟨k1, k2, halloc, hclear, hkend, hstack, hguard⟩

/-- **The guard page is missing**: `allocuvm` goes on after `mappages` has got no page table. -/
theorem exec_no_guard : ∃ s0 elf k, boot 0 256 (fun _ => Bytes.zero) [0] = .ok s0 ∧
    header empty = some elf ∧ WellFormed empty elf ∧
    s0.Execs 0 empty [] tableFails 57275 (2 * PGSIZE) k ∧ k.byteAt 57275 0 = none := by
  obtain ⟨k1, k2, halloc, hclear, hkend, hstack, hguard⟩ := empty_mapped
  obtain ⟨w, hw, hP⟩ := userByte_ne_none.mp hstack
  have hpages : PageInv (started.start tableFails) started.roots NPAGES :=
    pageInv_oom (inv_boot boot_eq).1.pages _
  have hroot := root_setRoot started.roots .fresh (some 57275)
  obtain ⟨-, -, hspec⟩ := (setupkvm_spec hpages rfl fun _ => rfl).ok (setupkvm_started _)
  obtain ⟨h1, -⟩ := (allocuvm_spec (by simp) hroot (fun _ => rfl) (hspec 57275 rfl).1).ok halloc
  have h2 := ((clearpteu_spec hroot (by decide) h1).ok hclear).inv
  have hnot : ¬(started.roots.setRoot .fresh (some 57275)).IsTable k2.mem (ptePage w) := by
    obtain ⟨-, -, -, hpage⟩ := page_of_pte hroot (by decide) hw
    exact h2.not_isTable (hpage hP.1) (fun _ => by simp) fun _ _ => by simp
  obtain ⟨k, hfree, hpte⟩ := commit_pte (p := 0) (c := 57342) h2 rfl (fun _ => rfl)
    (by rw [hkend]; decide) hnot
    ((k2.mem (ptePage w)).splice (PGSIZE - 16) (ustack (2 * PGSIZE) []))
  have hnil : segments empty = [] := eq_nil_of_length_eq_zero (by decide)
  have hstack := execStack_nil halloc (by decide) (by decide) (by decide) hclear
    (uva2ka_of_pte 57342 hw hP)
  have hload : loadSegments 57275 0 (segments empty) { kernelMapped execStart 57211 with
      oom := [false, true] } = .ok (some 0, { kernelMapped execStart 57211 with
        oom := [false, true] }) := by
    rw [hnil]
    rfl
  refine ⟨started, ⟨ELF_MAGIC, 52, 0⟩, k, boot_eq, by decide, by decide,
    execs_of_parts (by decide) (setupkvm_started _) hload hstack hfree, ?_⟩
  rw [byteAt_eq_none, hpte 0 (by decide)]
  exact byteAt_eq_none.mp hguard

variable {R0 R : Roots}

/-- A page that `kalloc` has given is lost if it is not entered: the image is as before. -/
theorem Img.hold {np N n x : ℕ} {k0 k1 : Kmem} {g : ℕ → Prop} {f : ℕ → UInt8}
    (h : Img np k0 R0 R N g k n f) (h1 : Acc True np k0 R0 k1 (R.setSingle (.hand 0) (some x)))
    (hm : k1.mem = update k.mem x Bytes.zero) (hx : ∀ o, R.page k.mem o ≠ some x) :
    Img np k0 R0 (R.setSingle (.hand 0) (some x)) (avail k1 + cost n) g k1 n f := by
  have hpage : R.page k1.mem = R.page k.mem := by
    rw [hm]
    refine page_congr fun y hy => update_of_ne ?_ _ _
    rintro rfl
    rcases hy with ⟨r, hr⟩ | ⟨r, i, hr⟩
    · exact hx (.dir r) hr
    · exact hx _ hr
  have huser : ∀ i j, (R.setSingle (.hand 0) (some x)).page k1.mem (.user .fresh i j) =
      R.page k.mem (.user .fresh i j) := fun i j => congrFun hpage (.user .fresh i j)
  have htab : ∀ i, (R.setSingle (.hand 0) (some x)).page k1.mem (.tab .fresh i) =
      R.page k.mem (.tab .fresh i) := fun i => congrFun hpage (.tab .fresh i)
  have hmem : ∀ {o y}, R.page k.mem o = some y → k1.mem y = k.mem y := by
    intro o y hy
    have hyx : y ≠ x := by
      rintro rfl
      exact hx o hy
    rw [hm, update_of_ne hyx]
  refine ⟨h1, fun i hi j hj => ?_, fun i hi => ?_, rfl, fun v y hy => ?_, fun v y t hy ht => ?_,
    h.guard, h.zero, fun i hi => by rw [htab]; exact h.kmaps i hi⟩
  · rw [huser]
    exact h.upto i hi j hj
  · rw [htab]
    exact h.tabs i hi
  · rw [huser] at hy
    rw [hmem hy]
    exact h.bytes v y hy
  · rw [huser] at hy
    rw [htab] at ht
    rw [word, hmem ht]
    exact h.user v y t hy ht

/-- A file whose segment has 1023 pages, all of them zero. -/
def long : List UInt8 := elfFile [[1, 84, 0, 0, 0, 1023 * PGSIZE, 7, PGSIZE]] []

/-- `kalloc` fails when it is called for the second page table: 65 pages have been taken by
`setupkvm`, 1025 for the image, the guard page and their table, and one for the stack. -/
def secondFails : List Bool := List.replicate 1091 false ++ [true]

variable {k0 : Kmem}

/-- `mappages` when `kalloc` fails for the page table. -/
theorem mappages_fails {np x va : ℕ} (h : Acc True np k0 R0 k R)
    (hn : R.single (.hand 1) = none) (hent : ent k.mem d (PDX va) = none) (hav : avail k = 0) :
    Ends (mappages d va x 6) k (fun ok k' => ok = false ∧ k'.mem = k.mem ∧ Acc True np k0 R0 k' R)
      fun _ => False := by
  have hP : ¬PTE_P (k.word d (PDX va)) := by
    intro hc
    rw [ent] at hent
    exact absurd ((if_pos hc).symm.trans hent) (by simp)
  rw [mappages]
  refine Ends.bind (Q := fun r k' => r = none ∧ k'.mem = k.mem ∧ Acc True np k0 R0 k' R) ?_ ?_
  · rw [walkpgdir]
    refine ends_bind_gets ?_
    rw [if_neg hP]
    refine (Acc.stable.kalloc h hn).bind ?_
    rintro (_ | t) k' ⟨hm, hnone, hsome⟩
    · exact ends_pure ⟨rfl, hm, (hnone rfl).1⟩
    · have := (hsome t rfl).2
      omega
  · rintro _ k' ⟨rfl, hm, h'⟩
    exact ends_pure ⟨rfl, hm, h'⟩

/-- For the second page table there is no page: `allocuvm` goes on without it. -/
theorem stack_lost {np : ℕ} (hd : R.root .fresh = some d) (hs : R.HandsFree)
    (h : Img np k0 R0 R 1026 (fun _ => False) k 1023 fun _ => 0) :
    Ends (allocuvm d (1023 * PGSIZE) (1025 * PGSIZE)) k (fun r k' => r = 1025 * PGSIZE ∧
      ∃ x N, Img np k0 R0 (R.setSingle (.hand 0) (some x)) N (fun _ => False) k' 1024 fun _ => 0)
      fun _ => False := by
  have hround : PGROUNDUP (1023 * PGSIZE) = 1023 * PGSIZE := by decide
  have hfuel : 1025 * PGSIZE / PGSIZE + 1 = 1023 + 1 + 1 + 1 := by decide
  rw [allocuvm, if_neg (by decide), if_neg (by decide), hround, hfuel, allocLoop,
    if_pos (by decide)]
  refine (Acc.stable.kalloc h.acc (hs 0)).bind ?_
  rintro (_ | x) k1 ⟨hm1, hnone, hsome⟩
  · have hcount : 1026 = avail k + 1024 := h.count
    have := (hnone rfl).2
    omega
  obtain ⟨h1, hav1⟩ := hsome x rfl
  refine Img.round (a := 1023 * PGSIZE) h (by decide) hd hs (by decide) h1 hm1 hav1 fun k2 h2 => ?_
  have h2 : Img np k0 R0 R 1026 (fun _ => False) k2 1024 fun _ => 0 := h2
  have hcount : 1026 = avail k2 + 1025 := h2.count
  rw [allocLoop, if_pos (by decide)]
  refine (Acc.stable.kalloc h2.acc (hs 0)).bind ?_
  rintro (_ | y) k3 ⟨hm3, hnone, hsome⟩
  · have := (hnone rfl).2
    omega
  obtain ⟨h3, hav3⟩ := hsome y rfl
  have hy : (R.setSingle (.hand 0) (some y)).single (.hand 0) = some y := by simp [setSingle]
  have hnew : ∀ o, R.page k2.mem o ≠ some y := by
    intro o ho
    rw [← hm3] at ho
    rcases eq_or_ne o (.single (.hand 0)) with rfl | hne
    · exact absurd ((hs 0).symm.trans ho) (by simp)
    · rw [← PageInv.page_setSingle_of_ne (.hand 0) (some y) hne] at ho
      exact hne (h3.inv.inj o (.single (.hand 0)) y ho hy)
  refine ends_bind_modify ?_
  have h4 := Acc.write_hand h3 hy Bytes.zero
  have hent : ent (update k3.mem y Bytes.zero) d (PDX (1023 * PGSIZE + PGSIZE)) = none := by
    have hdy : d ≠ y := by
      rintro rfl
      exact hnew (.dir .fresh) hd
    have htab : R.page k2.mem (.tab .fresh 1) = none := by
      by_contra hc
      exact absurd ((h2.tabs 1 (by decide)).mp hc) (by decide)
    rw [ent_update_ne hdy, hm3, show PDX (1023 * PGSIZE + PGSIZE) = 1 by decide]
    simpa [page, hd] using htab
  refine (mappages_fails h4 (by simpa [setSingle] using hs 1) hent
    (by show avail k3 = 0; omega)).bind ?_
  rintro _ k5 ⟨rfl, hm5, h5⟩
  rw [allocLoop, if_neg (by decide)]
  exact ends_pure ⟨rfl, y, _, Img.hold h2 h5 (hm5.trans (by rw [← hm3])) hnew⟩

/-- The first process has the word 7 at its address 0: an entry for page 0, present and for the
user. -/
theorem boot_seven : ∃ k w, boot 0 256 (fun _ => Bytes.zero) [7] = .ok { started with km := k } ∧
    k.kend = 256 ∧ 1091 ≤ k.free.length ∧ k.pte 57342 0 = some w ∧ PTE_P w ∧
    k.word (ptePage w) 0 = 7 := by
  obtain ⟨⟨_, k⟩, hk, hkend, hlen, hpte⟩ := exists_ok_of_check
    (P := fun x : Unit × Kmem => x.2.kend = 256 ∧ (x.2.free.take 1091).length = 1091 ∧
      (x.2.pte 57342 0).map (fun w => (w % 2, x.2.word (ptePage w) 0)) = some (1, 7))
    (x := inituvm 57342 [7] (kernelMapped stackTaken 57278)) (by decide +kernel)
  obtain ⟨w, hw, heq⟩ := Option.map_eq_some_iff.mp hpte
  obtain ⟨hP, hword⟩ := Prod.mk.inj heq
  refine ⟨k, w, boot_of_init hk, hkend, ?_, hw, hP, hword⟩
  rw [length_take] at hlen
  exact (min_eq_left_iff.mp hlen)

/-- The segment of `long`. -/
theorem segments_long : ∃ ph : Segment, segments long = [ph] ∧ ph.read = true ∧ ph.load = true ∧
    ph.vaddr = 0 ∧ ph.filesz = 0 ∧ ph.memsz = 1023 * 4096 := by
  have hlen : (segments long).length = 1 := by decide
  obtain ⟨ph, hph⟩ := length_eq_one_iff.mp hlen
  have hall : ∀ ph ∈ segments long, ph.read = true ∧ ph.load = true ∧ ph.vaddr = 0 ∧
    ph.filesz = 0 ∧ ph.memsz = 1023 * 4096 := by decide
  exact ⟨ph, hph, hall ph (hph ▸ mem_singleton_self ph)⟩

/-- The 1023 pages of `long` are mapped. -/
theorem long_loaded {np : ℕ} (hd : R.root .fresh = some d) (hs : R.HandsFree) (hpos : 0 < k0.kend)
    (h : Img np k0 R0 R 1026 (fun _ => False) k 0 fun _ => 0) :
    Ends (loadSegments d 0 (segments long)) k (fun r k' => r = some (1023 * PGSIZE) ∧
      Img np k0 R0 R 1026 (fun _ => False) k' 1023 fun _ => 0) fun _ => False := by
  obtain ⟨ph, hseg, hread, hload, hvaddr, hfilesz, hmemsz⟩ := segments_long
  have hsize : (ph.vaddr + ph.memsz).toNat = 1023 * PGSIZE := by rw [hvaddr, hmemsz]; rfl
  have hdrop : NoDrop 1026 (npages (1023 * PGSIZE)) := by
    intro n hn hmod he
    have hn : n < 1023 := hn
    obtain rfl : n = 0 := by omega
    exact absurd he (by decide)
  have hnofile : ∀ k, loaduvm d ph k = .ok (true, k) := by
    intro k
    rw [loaduvm, if_neg (by rw [hvaddr]; decide), hfilesz]
    show loadLoop d ph (0 + 1) 0 k = _
    rw [loadLoop, if_neg (by rw [hfilesz]; decide)]
    rfl
  rw [hseg, loadSegments, if_neg (by rw [hread]; decide), if_neg (by rw [hload]; decide),
    if_neg (by rw [hmemsz, hfilesz]; decide), hsize]
  refine ((allocuvm_img hd hs (fun _ => hdrop) (by decide) h).allow fun _ hc => hc hpos).bind ?_
  rintro r k1 ⟨hzero, himg⟩
  split
  · rename_i hr
    exact absurd (hzero hr).2 (by decide)
  rename_i hr
  obtain ⟨rfl, -, h1⟩ := himg hr
  refine Ends.bind (.of_ok (hnofile k1) (Q := fun ok k' => ok = true ∧ k' = k1) ⟨rfl, rfl⟩) ?_
  rintro _ _ ⟨rfl, rfl⟩
  exact ends_pure ⟨rfl, h1⟩

/-- **The stack is missing**: if the last page of memory is the one for the stack, `exec` succeeds
without a page table for it. What should be on the stack goes to the page that the word at address 0
of the old program names. -/
theorem exec_no_stack : ∃ s0 d k, boot 0 256 (fun _ => Bytes.zero) [7] = .ok s0 ∧
    (∀ ph ∈ segments long, ph.load = true →
      ph.vaddr.toNat % PGSIZE = 0 ∧ ph.vaddr.toNat + ph.memsz.toNat < 2 ^ 32) ∧
    s0.Execs 0 long [] secondFails d (1025 * PGSIZE) k ∧
    k.userWord d (finalSp (1025 * PGSIZE) 0 []) = none := by
  obtain ⟨km, w, hboot, hkend, hlen, hw, hP, hword⟩ := boot_seven
  obtain ⟨s0, hs0⟩ : ∃ s0 : VmSys, s0 = { started with km := km } := ⟨_, rfl⟩
  rw [← hs0] at hboot
  have hpages : PageInv (s0.start secondFails) s0.roots NPAGES :=
    pageInv_oom (inv_boot hboot).1.pages _
  have hav : avail (s0.start secondFails) = 1091 := by
    have hidx : secondFails.idxOf true = 1091 := by decide +kernel
    rw [avail, start, if_pos (show true ∈ secondFails by decide +kernel), hidx, hs0]
    exact min_eq_left hlen
  have hcur : s0.roots.root (.proc 0) = some 57342 := by rw [hs0]; rfl
  have hpgdir : (s0.proc 0).pgdir = 57342 := by rw [hs0]; rfl
  have hmem : (s0.start secondFails).mem = km.mem := by rw [hs0]; rfl
  have hpos : 0 < (s0.start secondFails).kend := by
    rw [hs0]
    exact hkend ▸ by decide
  have hkvm := (setupkvm_acc (E := fun _ => False) (.start (A := True) NPROC hpages) rfl
    fun _ => rfl).and (setupkvm_spec hpages rfl fun _ => rfl)
  rcases hm : setupkvm (s0.start secondFails) with e | ⟨_ | d, k1⟩
  · exact absurd (hkvm.error hm) id
  · obtain ⟨⟨hnone, -⟩, -⟩ := hkvm.ok hm
    rcases hnone rfl with ⟨hc, -⟩ | ⟨⟨-, hc⟩, -⟩ <;> omega
  obtain ⟨⟨-, hgot⟩, -, -, hspec⟩ := hkvm.ok hm
  obtain ⟨h1, ht1, hav1⟩ := hgot d rfl
  have hroot := root_setRoot s0.roots .fresh (some d)
  have himg := Img.start h1 hroot (hspec d rfl).2.1 ht1 (hspec d rfl).2.2.1
  rw [show avail k1 = 1026 by omega] at himg
  -- the segment
  have hload := long_loaded hroot (fun _ => rfl) hpos himg
  rcases hm1 : loadSegments d 0 (segments long) k1 with e | ⟨r, k2⟩
  · exact absurd (hload.error hm1) id
  obtain ⟨rfl, h2⟩ := hload.ok hm1
  -- the two pages for the stack
  have halloc := stack_lost hroot (fun _ => rfl) h2
  rcases hm2 : allocuvm d (1023 * PGSIZE) (1025 * PGSIZE) k2 with e | ⟨r, k3⟩
  · exact absurd (halloc.error hm2) id
  obtain ⟨rfl, x, N, h3⟩ := halloc.ok hm2
  have hroot3 : ((s0.roots.setRoot .fresh (some d)).setSingle (.hand 0) (some x)).root .fresh =
    some d := hroot
  have hclear := clearpteu_img (E := fun _ => False) (n := 1024) hroot3 (by decide) le_rfl
    (show 1023 * PGSIZE < 1024 * PGSIZE by decide) h3
  rcases hm3 : clearpteu d (1023 * PGSIZE) k3 with e | ⟨_, k4⟩
  · exact absurd (hclear.error hm3) id
  have h4 := hclear.ok hm3
  have hi4 : PageInv k4 (s0.roots.setRoot .fresh (some d)) NPAGES := by
    have hi := h4.acc.inv.drop_single (.hand 0)
    rwa [setSingle_back rfl] at hi
  have hnone : ∀ va, PDX va = 1 → k4.pte d va = none := by
    intro va hva
    have htab : (s0.roots.setRoot .fresh (some d)).page k4.mem (.tab .fresh 1) = none := by
      by_contra hc
      exact absurd ((h4.tabs 1 (by decide)).mp hc) (by decide)
    have hent : ent k4.mem d 1 = none := by simpa [page, hroot] using htab
    rw [pte, hva, hent]
    rfl
  -- what `uva2ka` reads instead
  have hw0 : (s0.start secondFails).pte 57342 0 = some w := by
    rw [hs0]
    exact hw
  have hw4 : k4.pte 57342 0 = some w := (pte_acc h4.acc hcur (by simp) (by decide)).trans hw0
  have hseven : k4.word (ptePage w) 0 = 7 := by
    obtain ⟨-, -, -, hpage⟩ := page_of_pte hcur (by decide) hw0
    rw [word, h4.acc.kept (.user (.proc 0) (PDX 0) (PTX 0)) (ptePage w) (by rintro ⟨⟩) (hpage hP),
      hmem]
    exact hword
  have huva := uva2ka_of_none (hnone (1024 * PGSIZE) (by decide)) hw4 hP (by rw [hseven]; decide)
  rw [hseven] at huva
  have hstack := execStack_nil hm2 (by decide) (by decide) (by decide) hm3 huva
  have hlow : ¬(s0.roots.setRoot .fresh (some d)).IsTable k4.mem 0 := by
    have hkend : k4.kend = (s0.start secondFails).kend := h4.acc.kend
    rintro (⟨r, hr⟩ | ⟨r, i, hr⟩)
    · have := hi4.low 0 (.inr ⟨.dir r, hr⟩)
      omega
    · have := hi4.low 0 (.inr ⟨_, hr⟩)
      omega
  obtain ⟨k, hfree, hpte⟩ := commit_pte hi4 hcur (fun _ => rfl) (h4.acc.kend ▸ hpos) hlow
    ((k4.mem 0).splice (PGSIZE - 16) (ustack (1025 * PGSIZE) []))
  refine ⟨s0, d, k, hboot, by decide, execs_of_parts (by decide) hm hm1
    (hpgdir ▸ hstack) (hpgdir ▸ hfree), ?_⟩
  have hbyte : k.userByte d (finalSp (1025 * PGSIZE) 0 []) = none := by
    rw [userByte, hpte _ (by decide), hnone _ (by decide)]
    rfl
  rw [userWord, hbyte]
  rfl

end VmSys

end Xv6
