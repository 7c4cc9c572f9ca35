import Xv6.VmStack

/-!
# Executable files

What `exec` reads from a file: the ELF header and the program headers (`segments`), any bytes that a
file may hold. `loaduvm` copies from the file to the pages that it finds in the new page table; the
copies are listed by `segCopies`.

* `VmSys.exec_hostile`: **whatever the file holds**, `exec` returns without a panic of `loaduvm`,
  `mappages` or `clearpteu`, and all copies go to pages that `allocuvm` has just allocated below
  `KERNBASE`, as far as it gets without what it does not check (`Kmem.Sound`).
* `VmSys.exec_unaligned`: with one unaligned address it panics.
* `VmSys.exec_frees_kstack`: a segment that wraps around overwrites a page table.
-/

namespace Xv6

open Exec Roots List Exec

/-! ## The format -/

/-- "\x7FELF" in little endian -/
abbrev ELF_MAGIC : ℕ := 0x464C457F

/-- What `exec` uses of `struct elfhdr`. -/
structure Elf where
  magic : ℕ
  phoff : ℕ
  phnum : ℕ
  deriving DecidableEq

/-- Byte `i` of some bytes. -/
def byteOr0 (b : List UInt8) (i : ℕ) : UInt8 := b.getD i 0

/-- `struct elfhdr` in the bytes that were read. -/
def Elf.parse (b : List UInt8) : Elf where
  magic := wordAt (byteOr0 b) 0
  phoff := wordAt (byteOr0 b) 28
  phnum := (byteOr0 b 44).toNat + 256 * (byteOr0 b 45).toNat

/-- `readi` of a file that is no device: what is read, or `none` for -1. -/
def readAt (file : List UInt8) (off n : ℕ) : Option (List UInt8) :=
  if off > file.length ∨ off + n ≥ 2 ^ 32 then none else some ((file.drop off).take n)

/-- The check of the ELF header. -/
def header (file : List UInt8) : Option Elf :=
  match readAt file 0 52 with
  | none => none
  | some b =>
    if b.length < 52 then none
    else if (Elf.parse b).magic = ELF_MAGIC then some (Elf.parse b) else none

/-- `ELF_PROG_LOAD` -/
abbrev ELF_PROG_LOAD : ℕ := 1

/-- What `exec` uses of `struct proghdr`. -/
structure ProgHdr where
  type : ℕ
  off : ℕ
  vaddr : ℕ
  filesz : ℕ
  memsz : ℕ

/-- `struct proghdr` in the bytes that were read. -/
def ProgHdr.parse (b : List UInt8) : ProgHdr where
  type := wordAt (byteOr0 b) 0
  off := wordAt (byteOr0 b) 4
  vaddr := wordAt (byteOr0 b) 8
  filesz := wordAt (byteOr0 b) 16
  memsz := wordAt (byteOr0 b) 20

/-- Program header `i` of the file. -/
def progHdr (file : List UInt8) (elf : Elf) (i : ℕ) : ProgHdr :=
  .parse ((readAt file ((elf.phoff + 32 * i) % 2 ^ 32) 32).getD [])

/-- A program header, and what the file holds for it. A file is much shorter than `2 ^ 32`, so the
offsets of a segment do not wrap around before the file ends. -/
def ProgHdr.segment (file : List UInt8) (ph : ProgHdr) (read : Bool) : Kmem.Segment where
  read := read
  load := ph.type = ELF_PROG_LOAD
  vaddr := .ofNat ph.vaddr
  memsz := .ofNat ph.memsz
  filesz := .ofNat ph.filesz
  data := fun i => byteOr0 file (ph.off + i)
  avail := file.length - ph.off

/-- The program headers that `exec` reads. -/
def programHeaders (file : List UInt8) (elf : Elf) : List Kmem.Segment :=
  (List.range elf.phnum).map fun i => (progHdr file elf i).segment file
    (((readAt file ((elf.phoff + 32 * i) % 2 ^ 32) 32).getD []).length = 32)

/-- The program headers of a file. -/
def segments (file : List UInt8) : List Kmem.Segment :=
  match header file with
  | none => []
  | some elf => programHeaders file elf

/-! ## Panics -/

/-- The panics of `loaduvm`, `mappages` and `clearpteu`. -/
def LoadPanic (e : Stop) : Prop :=
  e = .panic "loaduvm: addr must be page aligned" ∨ e = .panic "loaduvm: address should exist" ∨
    e = .panic "remap" ∨ e = .panic "clearpteu"

/-- The panics of `copyuvm`. -/
def CopyPanic (e : Stop) : Prop :=
  e = .panic "copyuvm: pte should exist" ∨ e = .panic "copyuvm: page not present"

/-- None of these. -/
def Usual (e : Stop) : Prop := ¬LoadPanic e ∧ ¬CopyPanic e

/-- The computation stops only as `E` says. -/
def Never {α : Type} (E : Stop → Prop) (m : Exec Stop Kmem α) : Prop :=
  ∀ k, Ends m k (fun _ _ => True) E

section Never

variable {α β : Type} {E E' : Stop → Prop} {m : Exec Stop Kmem α}

theorem Never.bind {f : α → Exec Stop Kmem β} (hm : Never E m) (hf : ∀ a, Never E (f a)) :
    Never E (m >>= f) := fun k => (hm k).bind fun a k' _ => hf a k'

theorem Never.allow (hm : Never E m) (h : ∀ e, E e → E' e) : Never E' m := fun k => (hm k).allow h

theorem Never.ite {c : Prop} [Decidable c] {m' : Exec Stop Kmem α} (h : Never E m)
    (h' : Never E m') : Never E (if c then m else m') := by
  split
  · exact h
  · exact h'

theorem never_pure {a : α} : Never E (pure a) := fun _ => ends_pure trivial

theorem never_stop {e : Stop} (he : E e) : Never E (Exec.stop e : Exec Stop Kmem α) :=
  fun _ => ends_stop he

theorem never_gets {f : Kmem → α} : Never E (Exec.gets f) := fun _ => ends_gets trivial

theorem never_modify {f : Kmem → Kmem} : Never E (Exec.modify f) := fun _ => ends_modify trivial

end Never

variable {args : List (List UInt8)} {elf : Bool}

namespace Kmem

variable {d cur : ℕ}

theorem never_kfree (x : ℕ) : Never Usual (kfree x) := by
  intro k
  rcases hk : kfree x k with e | ⟨_, k'⟩
  · refine .of_error hk ?_
    rw [kfree] at hk
    split at hk
    · rw [← Except.error.inj hk]
      simp [Usual, LoadPanic, CopyPanic]
    · cases hk
  · exact .of_ok hk trivial

theorem never_walkpgdir {E : Stop → Prop} (va : ℕ) : Never E (walkpgdir d va false) :=
  fun _ => walkpgdir_false.mono fun _ _ _ => trivial

theorem never_deallocLoop (oldsz : ℕ) : ∀ n a, Never Usual (deallocLoop d oldsz n a) := by
  intro n
  induction n with
  | zero => exact fun _ => never_pure
  | succ n ih =>
    intro a
    refine Never.ite ((never_walkpgdir a).bind fun r => ?_) never_pure
    rcases r with _ | ⟨t, j⟩
    · exact ih _
    · refine never_gets.bind fun w => Never.ite ((never_stop ?_).ite ?_) (ih _)
      · simp [Usual, LoadPanic, CopyPanic]
      · exact (never_kfree _).bind fun _ => never_modify.bind fun _ => ih _

theorem never_freeTables : ∀ is, Never Usual (freeTables d is) := by
  intro is
  induction is with
  | nil => exact never_pure
  | cons i is ih => exact never_gets.bind fun w => Never.ite ((never_kfree _).bind fun _ => ih) ih

theorem never_freevm : Never Usual (freevm d) := by
  have hdealloc : Never Usual (deallocuvm d KERNBASE 0) :=
    never_pure.ite ((never_deallocLoop _ _ _).bind fun _ => never_pure)
  refine (never_stop ?_).ite (hdealloc.bind fun _ => (never_freeTables _).bind fun _ =>
    never_kfree d)
  simp [Usual, LoadPanic, CopyPanic]

theorem never_uva2ka (va : ℕ) : Never Usual (uva2ka cur d va) := by
  refine Never.bind ?_ fun w => never_pure.ite never_pure
  refine (never_walkpgdir _).bind fun r => ?_
  rcases r with _ | ⟨t, j⟩
  · refine (never_walkpgdir _).bind fun r => ?_
    rcases r with _ | ⟨t, j⟩
    · exact never_stop (by simp [Usual, LoadPanic, CopyPanic])
    · exact never_gets.bind fun w => never_gets.ite
        (never_stop (by simp [Usual, LoadPanic, CopyPanic]))
  · exact never_gets

theorem never_copyoutLoop : ∀ n va bytes, Never Usual (copyoutLoop cur d n va bytes) := by
  intro n
  induction n with
  | zero =>
    intro va bytes
    cases bytes <;> exact never_pure
  | succ n ih =>
    intro va bytes
    cases bytes with
    | nil => exact never_pure
    | cons b bytes =>
      refine (never_uva2ka _).bind fun r => ?_
      cases r with
      | none => exact never_pure
      | some x => exact never_modify.bind fun _ => ih _ _

theorem never_pushArgs : ∀ args sp ptrs, Never Usual (pushArgs cur d sp ptrs args) := by
  intro args
  induction args with
  | nil => exact fun sp ptrs => never_copyoutLoop _ _ _
  | cons arg args ih =>
    intro sp ptrs
    exact never_pure.ite ((never_copyoutLoop _ _ _).bind fun ok => (ih _ _).ite never_pure)

/-! ## Copies -/

/-- One copy of `loaduvm` from the file: memory before it, address, page and bytes. -/
structure Copy where
  k : Kmem
  va : ℕ
  page : ℕ
  bytes : List UInt8

/-- What it does to the memory. -/
def Copy.run (k : Kmem) (c : Copy) : Kmem :=
  { k with mem := Function.update k.mem c.page ((k.mem c.page).splice 0 c.bytes) }

/-- The copies of the loop of `loaduvm`. -/
def loadCopies (d : ℕ) (ph : Segment) : ℕ → ℕ → Kmem → List Copy
  | 0, _, _ => []
  | n + 1, i, k =>
    if i * PGSIZE < ph.filesz.toNat then
      let va := (ph.vaddr.toNat + i * PGSIZE) % 2 ^ 32
      match k.pte d va with
      | none => []
      | some w =>
        let len := min PGSIZE (ph.filesz.toNat - i * PGSIZE)
        let got := min len (ph.avail - i * PGSIZE)
        let bytes := (List.range got).map fun b => ph.data (i * PGSIZE + b)
        ⟨k, va, ptePage w, bytes⟩ :: if got = len then
            loadCopies d ph n (i + 1) (Copy.run k ⟨k, va, ptePage w, bytes⟩)
          else []
    else []

/-- The copies of `loaduvm`. -/
def copies (d : ℕ) (ph : Segment) (k : Kmem) : List Copy :=
  loadCopies d ph (ph.filesz.toNat / PGSIZE + 1) 0 k

/-- The copies for all the program headers. -/
def segCopies (d : ℕ) : ℕ → List Segment → Kmem → List Copy
  | _, [], _ => []
  | sz, ph :: phs, k =>
    if ph.read = false then []
    else if ph.load = false then segCopies d sz phs k
    else if ph.memsz < ph.filesz then []
    else
      match allocuvm d sz (ph.vaddr + ph.memsz).toNat k with
      | .error _ => []
      | .ok (sz, k) =>
        if sz = 0 then []
        else copies d ph k ++ match loaduvm d ph k with
          | .ok (true, k) => segCopies d sz phs k
          | _ => []

theorem walkpgdir_eq (k : Kmem) (d va : ℕ) :
    walkpgdir d va false k = .ok ((ent k.mem d (PDX va)).map fun t => (t, PTX va), k) := by
  have hword : (Exec.gets fun k => k.word d (PDX va) : Exec Stop Kmem ℕ) k =
      .ok (k.word d (PDX va), k) := rfl
  rw [walkpgdir, bind_ok hword]
  by_cases hp : PTE_P (k.word d (PDX va))
  · rw [if_pos hp, show ent k.mem d (PDX va) = some _ from if_pos hp]
    rfl
  · rw [if_neg hp, show ent k.mem d (PDX va) = none from if_neg hp]
    rfl

/-- The loop of `loaduvm` makes these copies. -/
theorem loadLoop_copies {ph : Segment} {ok : Bool} {k' : Kmem} : ∀ (n i : ℕ) {k : Kmem},
    loadLoop d ph n i k = .ok (ok, k') → k' = (loadCopies d ph n i k).foldl Copy.run k := by
  intro n
  induction n with
  | zero =>
    intro i k h
    cases h
    rfl
  | succ n ih =>
    intro i k h
    rw [loadLoop] at h
    rw [loadCopies]
    split at h
    · rename_i hlt
      rw [if_pos hlt]
      dsimp only
      rw [bind_ok (walkpgdir_eq ..)] at h
      rw [pte]
      rcases hent : ent k.mem d (PDX ((ph.vaddr.toNat + i * PGSIZE) % 2 ^ 32)) with _ | t <;>
        rw [hent] at h
      · cases h
      simp only [Option.map_some, foldl_cons] at h ⊢
      obtain ⟨_, _, hget, h⟩ := ok_of_bind h
      cases hget
      obtain ⟨_, _, hcopy, h⟩ := ok_of_bind h
      cases hcopy
      split at h
      · rename_i hgot
        rw [if_pos hgot]
        exact ih (i + 1) h
      · rename_i hgot
        rw [if_neg hgot]
        cases h
        rfl
    · rename_i hge
      rw [if_neg hge]
      cases h
      rfl

/-- `loaduvm` makes these copies, and does nothing else to the memory. -/
theorem loaduvm_copies {ph : Segment} {ok : Bool} {k k' : Kmem}
    (h : loaduvm d ph k = .ok (ok, k')) : k' = (copies d ph k).foldl Copy.run k := by
  rw [loaduvm] at h
  split at h
  · cases h
  · exact loadLoop_copies _ 0 h

variable {np : ℕ} {k0 k : Kmem} {R0 R : Roots} {va n N sz i j x : ℕ} {g : ℕ → Prop} {f : ℕ → UInt8}
  {Q : ℕ → Prop}

/-- The pages of the new image were free when `exec` started. -/
theorem Img.was_free (h : Img np k0 R0 R N g k n f)
    (hnone : ∀ o, Mine np o → R0.page k0.mem o = none)
    (hx : R.page k.mem (.user .fresh i j) = some x) : x ∈ k0.free :=
  h.acc.was_free (o := .user .fresh i j) hnone rfl hx

/-- **A good copy** goes to a page of the new image below `KERNBASE`, which was free when `exec`
started. -/
structure Copy.Good (d : ℕ) (k0 : Kmem) (c : Copy) : Prop where
  below : c.va < KERNBASE
  mapped : ∃ w, c.k.pte d c.va = some w ∧ PTE_P w ∧ PTE_U w ∧ ptePage w = c.page
  free : c.page ∈ k0.free

/-- The copies of the loop of `loaduvm`. -/
theorem loadCopies_good {ph : Segment} (hnone : ∀ o, Mine np o → R0.page k0.mem o = none)
    (hd : R.root .fresh = some d) (hsz : sz ≤ KERNBASE) (hn : npages sz ≤ n)
    (hend : 0 < ph.filesz.toNat → ph.vaddr.toNat + ph.filesz.toNat ≤ sz)
    (halign : ph.vaddr.toNat % PGSIZE = 0) :
    ∀ (m i : ℕ) {k : Kmem} {f : ℕ → UInt8}, Img np k0 R0 R N (fun _ => False) k n f →
      ∀ c ∈ loadCopies d ph m i k, c.Good d k0 ∧ ph.vaddr.toNat ≤ c.va ∧
        c.va < ph.vaddr.toNat + ph.filesz.toNat := by
  have hp := PGSIZE_eq
  intro m
  induction m with
  | zero => exact fun _ _ _ _ c hc => absurd hc not_mem_nil
  | succ m ih =>
    intro i k f h c hc
    rw [loadCopies] at hc
    split at hc
    · rename_i hlt
      have hva : ph.vaddr.toNat + i * PGSIZE < sz := by
        have := hend (by omega)
        omega
      rw [Nat.mod_eq_of_lt (hva.trans_le (hsz.trans (by decide)))] at hc
      obtain ⟨w, hw, hP, hU, -⟩ := (h.sees hd).byte _ (hva.trans_le hsz) (by
        rw [npages, hp] at hn
        rw [hp] at hva ⊢
        omega)
      obtain ⟨t, -, -, hpage⟩ := page_of_pte (R := R) hd (hva.trans_le hsz) hw
      dsimp only at hc
      rw [hw] at hc
      have hmod : (ph.vaddr.toNat + i * PGSIZE) % PGSIZE = 0 := by
        rw [Nat.add_mul_mod_self_right, halign]
      have hwrite := h.write (l := (List.range (min (min PGSIZE (ph.filesz.toNat - i * PGSIZE))
        (ph.avail - i * PGSIZE))).map fun b => ph.data (i * PGSIZE + b)) (hpage hP) (by
          rw [hmod, length_map, length_range]
          omega)
      rw [hmod] at hwrite
      rcases mem_cons.mp hc with rfl | hc
      · refine ⟨⟨hva.trans_le hsz, ⟨w, hw, hP, hU.mpr id, rfl⟩, h.was_free hnone (hpage hP)⟩, ?_,
          ?_⟩
        · exact Nat.le_add_right ..
        · exact Nat.add_lt_add_left hlt _
      · split at hc
        · exact ih (i + 1) hwrite c hc
        · exact absurd hc not_mem_nil
    · exact absurd hc not_mem_nil

/-- The copies for all the program headers. -/
theorem segCopies_good (hnone : ∀ o, Mine np o → R0.page k0.mem o = none)
    (hd : R.root .fresh = some d) (hs : R.HandsFree) :
    ∀ (phs : List Segment) (sz : ℕ) {k : Kmem} {f : ℕ → UInt8}, Sound N Q sz phs → sz < KERNBASE →
      Img np k0 R0 R N (fun _ => False) k (npages sz) f →
      ∀ c ∈ segCopies d sz phs k, c.Good d k0 ∧ ∃ ph ∈ phs, ph.load = true ∧
        ph.vaddr.toNat ≤ c.va ∧ c.va < ph.vaddr.toNat + ph.filesz.toNat := by
  intro phs
  induction phs with
  | nil => exact fun _ _ _ _ _ _ c hc => absurd hc not_mem_nil
  | cons ph phs ih =>
    intro sz k f hsound hsz h c hc
    have hlater : ∀ {sz' : ℕ} {k' : Kmem} {f' : ℕ → UInt8}, Sound N Q sz' phs → sz' < KERNBASE →
        Img np k0 R0 R N (fun _ => False) k' (npages sz') f' → c ∈ segCopies d sz' phs k' →
        c.Good d k0 ∧ ∃ ph' ∈ ph :: phs, ph'.load = true ∧
          ph'.vaddr.toNat ≤ c.va ∧ c.va < ph'.vaddr.toNat + ph'.filesz.toNat := by
      intro sz' k' f' hrest hsz' h' hc
      obtain ⟨hgood, ph', hph, hin⟩ := ih sz' hrest hsz' h' c hc
      exact ⟨hgood, ph', mem_cons_of_mem _ hph, hin⟩
    rw [segCopies] at hc
    split at hc
    · exact absurd hc not_mem_nil
    rename_i hread
    obtain ⟨hskip, hseg⟩ := hsound (by simpa using hread)
    split at hc
    · rename_i hload
      exact hlater (hskip hload) hsz h hc
    rename_i hload
    have hload : ph.load = true := by simpa using hload
    split at hc
    · exact absurd hc not_mem_nil
    rename_i hmemsz
    replace hseg := hseg hload (UInt32.not_lt.mp hmemsz)
    split at hc
    · exact absurd hc not_mem_nil
    rename_i r k1 halloc
    obtain ⟨-, himg⟩ := (allocuvm_img hd hs (fun hlt => (hseg hlt).1) hsz h).ok halloc
    split at hc
    · exact absurd hc not_mem_nil
    rename_i hr
    obtain ⟨rfl, hlt, h1⟩ := himg hr
    have hnew : npages ph.endAddr ≤ npages (max sz ph.endAddr) := npages_mono (le_max_right ..)
    obtain ⟨halign, hend, hrest⟩ :=
      (hseg ((le_max_right ..).trans_lt hlt)).2 hr (h1.cost_le hnew)
    have htop := PGROUNDUP_le_KERNBASE hlt
    rcases mem_append.mp hc with hc | hc
    · obtain ⟨hgood, hin⟩ :=
        loadCopies_good hnone hd htop (npages_PGROUNDUP _).le hend halign _ _ h1 c hc
      exact ⟨hgood, ph, mem_cons_self, hload, hin⟩
    split at hc
    · rename_i k2 hloaded
      obtain ⟨f', h2, hok⟩ := (loaduvm_img (E := fun _ => True) hd htop (npages_PGROUNDUP _).le hend
        halign h1).ok hloaded
      exact hlater (hrest (hok rfl).2) hlt h2 hc
    · exact absurd hc not_mem_nil

/-- The rest of `exec` has no such panic in it, whatever the arguments are. -/
theorem execStack_never {m : ℕ} (hd : R.root .fresh = some d) (hs : R.HandsFree)
    (hpos : 0 < k0.kend) (hsound : Sound N Q m [])
    (h : Img np k0 R0 R N (fun _ => False) k (npages m) f) :
    Ends (execStack cur d (PGROUNDUP m) args) k (fun _ _ => True) fun e => ¬LoadPanic e := by
  have hp := PGSIZE_eq
  rw [← npages_PGROUNDUP] at h
  rw [Sound] at hsound
  rw [execStack]
  rcases Nat.lt_or_ge (PGROUNDUP m) KERNBASE with hlt | hge
  · refine ((allocuvm_img hd hs (fun hlt => (hsound hlt).1) hlt h).allow
      fun _ hc => absurd hpos hc).bind ?_
    rintro r k1 ⟨-, himg⟩
    split
    · exact ends_pure trivial
    rename_i hr
    obtain ⟨hmax, hr', h1⟩ := himg hr
    refine (clearpteu_img hd hr'.le le_rfl (show r - 2 * PGSIZE < r by rw [hp]; omega) h1).bind ?_
    intro _ k2 _
    exact (((never_pushArgs _ _ _).allow fun _ h => h.1).bind fun _ => never_pure.ite never_pure) k2
  · have hz : allocuvm d (PGROUNDUP m) (PGROUNDUP m + 2 * PGSIZE) = pure 0 := if_pos (by omega)
    rw [hz]
    exact ends_pure trivial

/-- **`exec`** with any arguments. -/
theorem exec_never {phs : List Segment}
    (hi : PageInv k R NPAGES) (hr : R.root .fresh = none) (hs : R.HandsFree)
    (hpos : 0 < k.kend) (hcall : SoundCall k elf Q phs) :
    Ends (exec cur elf phs args) k (fun _ _ => True) fun e => ¬LoadPanic e := by
  rw [exec]
  split
  · exact ends_pure trivial
  rename_i helf
  refine ((setupkvm_acc (.start (A := True) 0 hi) hr hs).and (setupkvm_spec hi hr hs)).bind ?_
  rintro (_ | d) k1 ⟨⟨-, hgot⟩, -, -, hspec⟩
  · exact ends_pure trivial
  obtain ⟨h1, ht1, havail⟩ := hgot d rfl
  have hroot := root_setRoot R .fresh (some d)
  have hsound := hcall (by simpa using helf) (by omega)
  rw [havail, Nat.add_sub_cancel] at hsound
  have himg := Img.start h1 hroot (hspec d rfl).2.1 ht1 (hspec d rfl).2.2.1
  have himage : Ends (execImage cur d phs args) k1 (fun _ _ => True) fun e => ¬LoadPanic e := by
    rw [execImage]
    refine ((loadSegments_img hroot hs phs 0 hsound (by decide) himg).allow
      fun _ hc => absurd hpos hc).bind ?_
    rintro (_ | sz) k2 ⟨-, hsz⟩
    · exact ends_pure trivial
    obtain ⟨-, -, hlast, h2⟩ := hsz sz rfl
    exact execStack_never hroot hs hpos hlast h2
  refine himage.bind ?_
  rintro (_ | sz) k2 -
  · exact ((never_freevm.allow fun _ h => h.1).bind fun _ => never_pure) k2
  · exact ends_pure trivial

end Kmem

namespace VmSys

open Kmem

variable {s s' : VmSys} {p : ℕ}

/-- A call of `exec` on a file. -/
def execFile (s : VmSys) (p : ℕ) (file : List UInt8) (args : List (List UInt8)) (oom : List Bool) :
    Except Stop VmSys :=
  s.step (.exec p (header file).isSome (segments file) args oom)

/-- The memory at the start of a call. -/
def start (s : VmSys) (oom : List Bool) : Kmem := { s.km with oom := oom }

/-- Nothing is in use by the code that runs. -/
theorem page_mine {R : Roots} {np : ℕ} {m : ℕ → Bytes PGSIZE} (hr : R.root .fresh = none)
    (hs : R.HandsFree) (hk : R.single (.kstack np) = none) :
    ∀ o, Mine np o → R.page m o = none := by
  intro o ho
  cases o with
  | single k =>
    cases k with
    | hand n => exact hs n
    | kstack q =>
      obtain rfl : q = np := ho
      exact hk
    | pipe q => exact absurd ho id
  | dir h | tab h i | user h i j =>
    obtain rfl : h = .fresh := ho
    simp [Roots.page, hr]

/-- The roots of a kernel have nothing in hand. -/
theorem roots_mine (s : VmSys) (m : ℕ → Bytes PGSIZE) :
    ∀ o, Mine NPROC o → s.roots.page m o = none := by
  refine page_mine rfl (fun _ => rfl) ?_
  simp [VmSys.roots]

variable {oom : List Bool}

/-- What a call does with the memory. -/
theorem execFile_eq {file : List UInt8}
    (hp : p < NPROC ∧ (s.proc p).state = .alive) : s.execFile p file args oom =
      match execMem (s.proc p).pgdir (header file).isSome (segments file) args (s.start oom) with
      | .ok (some (d, sz), km) => .ok (({ s with km := km } : VmSys).setProc p
          { s.proc p with pgdir := d, sz := sz })
      | .ok (none, km) => .ok { s with km := km }
      | .error e => .error e := by
  rw [execFile, step, if_pos hp, VmSys.exec, withMem, start]
  rcases execMem (s.proc p).pgdir (header file).isSome (segments file) args _ with
    e | ⟨_ | ⟨d, sz⟩, km⟩ <;> rfl

/-- **`exec` is safe on hostile files**, as far as it gets without a segment that is not aligned or
not in the image and without missing a page table (`SoundCall`): there is no panic in `loaduvm`,
`mappages` or `clearpteu`; if no argument wraps around to where there is no page table, the call
returns; and every copy from the file goes to a user page below `KERNBASE` that `allocuvm` has
allocated for the new page table. The copies of `segCopies` are those that `loaduvm` makes. -/
theorem exec_hostile {file : List UInt8} {args : List (List UInt8)} {oom : List Bool} (hi : s.Inv)
    (hpos : 0 < s.km.kend) (hp : p < NPROC ∧ (s.proc p).state = .alive)
    (hcall : SoundCall (s.start oom) (header file).isSome (fun _ => True) (segments file)) :
    (∀ e, s.execFile p file args oom = .error e → ¬LoadPanic e) ∧
    (ExecOk (s.start oom) (header file).isSome (segments file) args →
      ∃ s', s.execFile p file args oom = .ok s') ∧
    (∀ d k, setupkvm (s.start oom) = .ok (some d, k) → ∀ c ∈ segCopies d 0 (segments file) k,
      c.Good d (s.start oom) ∧ ∃ ph ∈ segments file, ph.load = true ∧
        ph.vaddr.toNat ≤ c.va ∧ c.va < ph.vaddr.toNat + ph.filesz.toNat) ∧
    ∀ d ph k ok k', loaduvm d ph k = .ok (ok, k') → k' = (copies d ph k).foldl Copy.run k := by
  have hpages : PageInv (s.start oom) s.roots NPAGES := pageInv_oom hi.pages oom
  have hproc : s.roots.root (.proc p) = some (s.proc p).pgdir :=
    roots_proc hp.1 (by rw [hp.2]; simp)
  rw [execFile_eq hp]
  refine ⟨fun e he => ?_, fun hargs => ?_, fun d k hk c hc => ?_, fun _ _ _ _ _ => loaduvm_copies⟩
  · have hnever : Ends (execMem (s.proc p).pgdir (header file).isSome (segments file) args)
        (s.start oom) (fun _ _ => True) fun e => ¬LoadPanic e := by
      rw [execMem]
      refine (exec_never hpages rfl (fun _ => rfl) hpos hcall).bind ?_
      rintro (_ | ⟨d, sz⟩) k1 -
      · exact ends_pure trivial
      · exact ((never_freevm.allow fun _ h => h.1).bind fun _ => never_pure) k1
    split at he
    · cases he
    · cases he
    · rename_i e' hm
      cases he
      exact hnever.error hm
  · have hend : Ends (execMem (s.proc p).pgdir (header file).isSome (segments file) args)
        (s.start oom) _ fun _ => False :=
      execMem_img hpages rfl (fun _ => rfl) hproc hpos hargs NPROC
    split
    · exact ⟨_, rfl⟩
    · exact ⟨_, rfl⟩
    · rename_i e hm
      exact absurd (hend.error hm) id
  · obtain ⟨⟨-, hgot⟩, -, -, hspec⟩ := ((setupkvm_acc (E := fun _ => True)
      (.start (A := True) NPROC hpages) rfl fun _ => rfl).and
      (setupkvm_spec hpages rfl fun _ => rfl)).ok hk
    obtain ⟨h1, ht1, havail⟩ := hgot d rfl
    have helf : (header file).isSome = true := by
      -- a file without a header has no segments
      by_contra hnot
      have hnone : header file = none := by simpa using hnot
      rw [segments, hnone] at hc
      exact not_mem_nil hc
    have hsound := hcall helf (by omega)
    rw [havail, Nat.add_sub_cancel] at hsound
    have hroot := root_setRoot s.roots .fresh (some d)
    exact segCopies_good (s.roots_mine _) hroot (fun _ => rfl) _ 0 hsound (by decide)
      (Img.start h1 hroot (hspec d rfl).2.1 ht1 (hspec d rfl).2.2.1) c hc

/-- An ELF file: the header, the program headers at offset 52, and what follows them. -/
def elfFile (phs : List (List ℕ)) (rest : List UInt8) : List UInt8 :=
  Bytes.le32 ELF_MAGIC ++ List.replicate 20 0 ++ Bytes.le32 0 ++ Bytes.le32 52 ++
    List.replicate 12 0 ++ (Bytes.le32 phs.length).take 2 ++ List.replicate 6 0 ++
    phs.flatMap (·.flatMap Bytes.le32) ++ rest

/-- A file with one byte, to be loaded at address 0. -/
def onePage : List UInt8 := elfFile [[1, 84, 0, 0, 1, 1, 7, PGSIZE]] [195]

/-- A file with one byte, to be loaded at address 1. -/
def unaligned : List UInt8 := elfFile [[1, 84, 1, 0, 1, 1, 7, PGSIZE]] [195]

/-- `kalloc` succeeds a hundred times. -/
def hundred : List Bool := List.replicate 100 false ++ [true]

theorem started_free : 100 ≤ started.km.free.length := by
  have h : (started.km.free.take 100).length = 100 := by decide
  rw [length_take] at h
  omega

theorem avail_hundred : avail (started.start hundred) = 100 := by
  have hidx : hundred.idxOf true = 100 := by decide +kernel
  rw [avail, start, if_pos (by decide), hidx]
  exact min_eq_left started_free

theorem execOk_onePage :
    ExecOk (started.start hundred) (header onePage).isSome (segments onePage) [[104, 105]] := by
  intro _ _
  rw [avail_hundred]
  decide

/-- `exec` of a proper program. -/
theorem exec_hostile_onePage : ∃ s0 s : VmSys, boot 0 256 (fun _ => Bytes.zero) [0] = .ok s0 ∧
    SoundCall (s0.start hundred) (header onePage).isSome (fun _ => True) (segments onePage) ∧
    s0.execFile 0 onePage [[104, 105]] hundred = .ok s := by
  have hcall : SoundCall (started.start hundred) (header onePage).isSome (fun _ => True)
      (segments onePage) := by
    intro _ _
    rw [avail_hundred]
    decide
  obtain ⟨-, hok, -⟩ := @exec_hostile started 0 onePage [[104, 105]] hundred (inv_boot boot_eq).1
    (by decide) (by decide) hcall
  obtain ⟨s, hs⟩ := hok execOk_onePage
  exact ⟨started, s, boot_eq, hcall, hs⟩

/-- **`exec` panics** in `loaduvm` if the address of a segment is not aligned. -/
theorem exec_unaligned : ∃ s0 : VmSys, boot 0 256 (fun _ => Bytes.zero) [0] = .ok s0 ∧
    s0.execFile 0 unaligned [] [] = .error (.panic "loaduvm: addr must be page aligned") ∧
    LoadPanic (.panic "loaduvm: addr must be page aligned") := by
  have hkvm : setupkvm execStart = .ok (some 57275, kernelMapped execStart 57211) :=
    setupkvm_eq rfl (by decide)
  have himage : (execImage 57342 57275 (segments unaligned) [] >>= execEnd 57275)
      (kernelMapped execStart 57211) = .error (.panic "loaduvm: addr must be page aligned") :=
    eq_error_of_stopsWith (by decide)
  have hheader : (header unaligned).isSome = true := by decide
  have hmem : execMem (started.proc 0).pgdir true (segments unaligned) [] (started.start []) =
      .error (.panic "loaduvm: addr must be page aligned") :=
    bind_error ((exec_eq hkvm).trans himage)
  refine ⟨started, boot_eq, ?_, by simp [LoadPanic]⟩
  rw [execFile_eq (by decide), hheader, hmem]

/-! ## A segment that wraps around -/

/-- A program header whose segment ends at `2 ^ 32 + PGSIZE`: its first page is the kernel address
of page 57209, where the loader has just made a page table. The file holds an entry for the kernel
stack of the first process. -/
def forged : Kmem.Segment where
  read := true
  load := true
  vaddr := 2381811712
  memsz := 1913159680
  filesz := 4
  data := fun b => UInt8.ofNat (mkPte 57343 6 / 256 ^ (b % 4))
  avail := 4

def unreadable : Kmem.Segment := { forged with read := false }

/-- The entry for the first page of the image is overwritten. -/
def forgedMem (k : Kmem) : Kmem :=
  { k with mem := Function.update k.mem 57209 ((k.mem 57209).setU32 (4 * 0) (mkPte 57343 6)) }

theorem forged_loaded {k : Kmem} (hpte : (k.pte 57275 2381811712).map ptePage = some 57209) :
    loaduvm 57275 forged k = .ok (true, forgedMem k) := by
  obtain ⟨w, hw, hpage⟩ := Option.map_eq_some_iff.mp hpte
  obtain ⟨t, ht, rfl⟩ := Option.map_eq_some_iff.mp hw
  have hva : (forged.vaddr.toNat + 0 * PGSIZE) % 2 ^ 32 = 2381811712 := by decide
  have hwalk : walkpgdir 57275 2381811712 false k = .ok (some (t, PTX 2381811712), k) := by
    rw [walkpgdir_eq, ht]
    rfl
  have hbytes : (List.range 4).map (fun b => forged.data (0 * PGSIZE + b)) =
      Bytes.le32 (mkPte 57343 6) := by decide
  rw [loaduvm, if_neg (by decide)]
  show loadLoop 57275 forged (0 + 1) 0 k = _
  rw [loadLoop, if_pos (by decide), hva, bind_ok hwalk]
  refine (bind_ok (m := Exec.gets fun k : Kmem => k.word t (PTX 2381811712)) rfl).trans ?_
  rw [hpage]
  show (copyIn 57209 0 ((List.range 4).map fun b => forged.data (0 * PGSIZE + b)) >>= _) k = _
  rw [hbytes]
  rfl

/-- What `exec` does with the forged program, after `setupkvm`. -/
theorem forged_image : ∃ k, allocuvm 57275 0 PGSIZE (kernelMapped execStart 57211) =
    .ok (PGSIZE, k) ∧ k.kend = 256 ∧ ent k.mem 57275 0 = some 57209 ∧
    execImage 57342 57275 [forged, unreadable] [] (kernelMapped execStart 57211) =
      .ok (none, forgedMem k) := by
  obtain ⟨⟨r, k⟩, halloc, rfl, hkend, hent, hpte⟩ := exists_ok_of_check
    (P := fun x : ℕ × Kmem => x.1 = PGSIZE ∧ x.2.kend = 256 ∧
      ent x.2.mem 57275 0 = some 57209 ∧ (x.2.pte 57275 2381811712).map ptePage = some 57209)
    (x := allocuvm 57275 0 PGSIZE (kernelMapped execStart 57211)) (by decide)
  refine ⟨k, halloc, hkend, hent, ?_⟩
  have hsize : (forged.vaddr + forged.memsz).toNat = PGSIZE := by decide
  have hload : loadSegments 57275 0 [forged, unreadable] (kernelMapped execStart 57211) =
      .ok (none, forgedMem k) := by
    rw [loadSegments, if_neg (by decide), if_neg (by decide), if_neg (by decide), hsize,
      bind_ok halloc, if_neg (by decide), bind_ok (forged_loaded hpte)]
    rfl
  rw [execImage, bind_ok hload]
  rfl

theorem setupkvm_execStart : setupkvm execStart = .ok (some 57275, kernelMapped execStart 57211) :=
  setupkvm_eq rfl (by decide)

theorem pageInv_execStart : PageInv execStart started.roots NPAGES :=
  pageInv_oom (inv_boot boot_eq).1.pages _

/-- The owners after `allocuvm` has worked on the first image that `exec` makes. -/
theorem pageInv_allocuvm {oldsz newsz r : ℕ} {k : Kmem} (hold : newsz < oldsz → oldsz < KERNBASE)
    (halloc : allocuvm 57275 oldsz newsz (kernelMapped execStart 57211) = .ok (r, k)) :
    PageInv k (started.roots.setRoot .fresh (some 57275)) NPAGES := by
  obtain ⟨-, -, hspec⟩ := (setupkvm_spec pageInv_execStart rfl fun _ => rfl).ok setupkvm_execStart
  have hroot := root_setRoot started.roots .fresh (some 57275)
  exact ((allocuvm_spec hold hroot (fun _ => rfl) (hspec 57275 rfl).1).ok halloc).1

/-- One page is mapped. -/
theorem upto_allocuvm {k : Kmem}
    (halloc : allocuvm 57275 0 PGSIZE (kernelMapped execStart 57211) = .ok (PGSIZE, k)) :
    Upto (started.roots.setRoot .fresh (some 57275)) k .fresh 1 := by
  have hroot := root_setRoot started.roots .fresh (some 57275)
  obtain ⟨⟨-, hgot⟩, -, -, hspec⟩ := ((setupkvm_acc (E := fun _ => True)
    (.start (A := True) NPROC pageInv_execStart) rfl fun _ => rfl).and
    (setupkvm_spec pageInv_execStart rfl fun _ => rfl)).ok setupkvm_execStart
  obtain ⟨h1, ht1, havail⟩ := hgot 57275 rfl
  have himg := Img.start h1 hroot (hspec 57275 rfl).2.1 ht1 (hspec 57275 rfl).2.2.1
  have hN : NoDrop (avail (kernelMapped execStart 57211)) 1 := by
    intro n hn _
    have hfree : avail execStart = started.km.free.length := if_neg (by simp [execStart])
    have hcost : cost n + 1 = 1 := by
      obtain rfl : n = 0 := by omega
      rfl
    have := started_free
    omega
  exact (((allocuvm_img hroot (fun _ => rfl) (fun _ => hN) (by decide) himg).ok halloc).2
    (by decide)).2.2.upto

/-- Without the kernel stack every page of the image has one owner, so all of them are freed. -/
theorem forged_freed : ∃ k, Kmem.exec 57342 true [forged, unreadable] [] execStart = .ok (none, k) ∧
    57343 ∈ k.free := by
  obtain ⟨k, halloc, hkend, hent, himage⟩ := forged_image
  have hroot := root_setRoot started.roots .fresh (some 57275)
  have hi := pageInv_allocuvm (by simp) halloc
  have hu := upto_allocuvm halloc
  obtain ⟨R, hR⟩ : ∃ R, R = started.roots.setRoot .fresh (some 57275) := ⟨_, rfl⟩
  rw [← hR] at hi hu hroot
  have htab : R.page k.mem (.tab .fresh 0) = some 57209 :=
    tab_eq_some.mpr ⟨by decide, 57275, hroot, hent⟩
  have hstack : R.single (.kstack 0) = some 57343 := by
    rw [hR]
    rfl
  -- the kernel stack becomes a user page
  obtain ⟨k1, hk1⟩ : ∃ k1, k1 = forgedMem k := ⟨_, rfl⟩
  obtain ⟨R1, hR1⟩ : ∃ R1, R1 = R.setSingle (.kstack 0) none := ⟨_, rfl⟩
  have hi1 : PageInv k1 R1 NPAGES := by
    rw [hk1, hR1]
    exact hi.install_user htab (by decide) (by decide) hstack 6
  have huser : R1.page k1.mem (.user .fresh 0 0) = some 57343 := by
    rw [hk1, hR1]
    exact hi.user_setTab htab (by decide) (by decide) (by decide)
  have hu1 : Upto R1 k1 .fresh 1 := by
    intro i h5 j hj
    rcases eq_or_ne (PageUse.user .fresh i j) (.user .fresh 0 0) with he | hne
    · obtain ⟨rfl, rfl⟩ : i = 0 ∧ j = 0 := by simpa using he
      rw [huser]
      decide
    · rw [← hu i h5 j hj, hk1, hR1]
      exact not_congr (by rw [← hi.page_setTab htab _ hne]; rfl)
  have hroot1 : R1.root .fresh = some 57275 := by
    rw [hR1]
    exact hroot
  have hend := freevm_acc (Acc.start (A := True) NPROC hi1) hroot1
    (fun n => by rw [hR1, hR]; rfl) fun _ => ⟨1, by decide, hu1⟩
  rcases hm : freevm 57275 k1 with e | ⟨_, k2⟩
  · refine absurd (hend.error hm) (not_not.mpr ?_)
    rw [hk1, forgedMem, hkend]
    decide
  refine ⟨k2, ?_, ?_⟩
  · rw [exec_eq setupkvm_execStart, bind_ok (hk1 ▸ himage)]
    exact bind_ok hm
  have h2 := hend.ok hm
  rcases (h2.all trivial 57343).mpr (.inr ⟨_, huser⟩) with hfree | ⟨o, ho⟩
  · exact hfree
  have hmine : ¬Mine NPROC o := by
    intro hmine
    rw [page_mine (by simp [setRoot]) (fun n => by rw [hR1, hR]; rfl)
      (by rw [hR1, hR]; rfl) o hmine] at ho
    cases ho
  rw [h2.others o hmine] at ho
  exact absurd (hi1.inj o _ _ ho huser ▸ rfl : Mine NPROC o) hmine

/-- A call of `exec` that fails. -/
theorem step_exec_none {s : VmSys} {p : ℕ} {phs : List Kmem.Segment} {k : Kmem}
    (hp : p < NPROC ∧ (s.proc p).state = .alive)
    (h : Kmem.exec (s.proc p).pgdir elf phs args { s.km with oom := oom } =
      .ok (none, k)) :
    s.step (.exec p elf phs args oom) = .ok { s with km := k } := by
  have hmem : execMem (s.proc p).pgdir elf phs args { s.km with oom := oom } =
      .ok (none, k) := by
    rw [execMem, bind_ok h]
    rfl
  rw [VmSys.step, if_pos hp, VmSys.exec, withMem, hmem]

/-- **`exec` frees a kernel stack**: `freevm` finds the forged entry in the image that `exec` gives
up, and puts the kernel stack of the process that runs on the free list. -/
theorem exec_frees_kstack : ∃ s0 s : VmSys, boot 0 256 (fun _ => Bytes.zero) [0] = .ok s0 ∧
    run VmSys.step s0 [.exec 0 true [forged, unreadable] [] []] = .ok s ∧
    s.roots.page s.km.mem (.single (.kstack 0)) = some 57343 ∧ 57343 ∈ s.km.free := by
  obtain ⟨k, hk, hfree⟩ := forged_freed
  have hstep : started.step (.exec 0 true [forged, unreadable] [] []) = _ :=
    step_exec_none (by decide) hk
  exact ⟨started, _, boot_eq, by rw [run_cons_ok hstep, run_nil], rfl, hfree⟩

end VmSys

end Xv6
