import Xv6.Bytes
import Xv6.Param
import Xv6.Prog
import Mathlib.Logic.Function.Basic

/-!
# Physical pages: `kalloc.c`, `vm.c` and who calls them

Physical memory, the page allocator and the page tables that lie in that memory, with every
operation of the kernel that takes pages or gives them back: `fork`, `exec`, `growproc`, `exit`,
`wait`, `pipealloc` and `pipeclose`.

* A page is named by its physical page number; its contents are `PGSIZE` bytes. Page directories
  and page tables are read from and written to these bytes, so that a stray write can change them.
* The pages on `kmem.freelist` are kept as a list (the links lie in the free pages themselves).
* `kalloc` fails when the list is empty, and wherever `oom` says so.
* Every process has the kernel part of the address space, which `setupkvm` maps with `mappages`:
  the page tables for it are allocated one by one, and come out as `kernelTable` says (without the
  write permission, which nothing here reads).
* `exec` gets what it reads from the file: the program headers and the bytes of each segment.

A ghost field records that `kfree` was applied to a page on the free list.
-/

namespace Xv6

open Function

abbrev PGSIZE : ℕ := 4096
abbrev NPTENTRIES : ℕ := 1024
/-- First kernel virtual address -/
abbrev KERNBASE : ℕ := 0x80000000
/-- Top physical memory -/
abbrev PHYSTOP : ℕ := 0xE000000
/-- max exec arguments -/
abbrev MAXARG : ℕ := 32

theorem PGSIZE_eq : PGSIZE = 4096 := rfl

/-- The number of physical pages. -/
abbrev NPAGES : ℕ := PHYSTOP / PGSIZE

/-- page directory index -/
def PDX (va : ℕ) : ℕ := va / (PGSIZE * NPTENTRIES)

/-- page table index -/
def PTX (va : ℕ) : ℕ := va / PGSIZE % NPTENTRIES

def PGROUNDUP (sz : ℕ) : ℕ := (sz + PGSIZE - 1) / PGSIZE * PGSIZE

/-- An entry of a page directory or page table: `PTE_P`. -/
def PTE_P (w : ℕ) : Prop := w % 2 = 1

/-- `PTE_U` -/
def PTE_U (w : ℕ) : Prop := w / 4 % 2 = 1

instance (w : ℕ) : Decidable (PTE_P w) := inferInstanceAs (Decidable (_ = _))

instance (w : ℕ) : Decidable (PTE_U w) := inferInstanceAs (Decidable (_ = _))

/-- The physical page of an entry, `PTE_ADDR(w) / PGSIZE`. -/
def ptePage (w : ℕ) : ℕ := w / PGSIZE

/-- `pa | perm | PTE_P` for the page `x`. -/
def mkPte (x perm : ℕ) : ℕ := x * PGSIZE + (perm / 2 * 2 + 1) % PGSIZE

/-- Physical memory and `kmem`. -/
structure Kmem where
  mem : ℕ → Bytes PGSIZE
  /-- the pages on `kmem.freelist` -/
  free : List ℕ
  /-- the first page after the kernel, `PGROUNDUP(end)` -/
  kend : ℕ
  /-- which of the coming calls of `kalloc` fail -/
  oom : List Bool
  /-- `kfree` was applied to a free page -/
  twice : Bool

namespace Kmem

/-! ## `kalloc.c` -/

/-- `kalloc` -/
def kalloc : Exec Stop Kmem (Option ℕ) := fun k =>
  match k.oom with
  | true :: oom => .ok (none, { k with oom := oom })
  | oom =>
    match k.free with
    | [] => .ok (none, { k with oom := oom.tail })
    | x :: free => .ok (some x, { k with free := free, oom := oom.tail })

/-- The page `x` is filled with junk and put on the free list. -/
def freed (k : Kmem) (x : ℕ) : Kmem :=
  { k with
    mem := update k.mem x fun _ => 1
    free := x :: k.free
    twice := k.twice || decide (x ∈ k.free) }

/-- `kfree` of the page `x`. -/
def kfree (x : ℕ) : Exec Stop Kmem Unit := fun k =>
  if x < k.kend ∨ NPAGES ≤ x then .error (.panic "kfree") else .ok ((), k.freed x)

/-- `freerange` from page `lo` to page `hi`. -/
def freerange (lo hi : ℕ) : ℕ → Exec Stop Kmem Unit
  | 0 => pure ()
  | n + 1 => if lo < hi then do
      kfree lo
      freerange (lo + 1) hi n
    else pure ()

/-! ## `vm.c` -/

/-- `memset(x, 0, PGSIZE)` -/
def clear (x : ℕ) : Exec Stop Kmem Unit :=
  .modify fun k => { k with mem := update k.mem x Bytes.zero }

/-- Word `i` of page `x`. -/
def word (k : Kmem) (x i : ℕ) : ℕ := (k.mem x).u32 (4 * i)

/-- Store `w` in word `i` of page `x`. -/
def setWord (x i w : ℕ) : Exec Stop Kmem Unit :=
  .modify fun k => { k with mem := update k.mem x ((k.mem x).setU32 (4 * i) w) }

/-- Copy bytes into page `x` at offset `o`. -/
def copyIn (x o : ℕ) (bytes : List UInt8) : Exec Stop Kmem Unit :=
  .modify fun k => { k with mem := update k.mem x ((k.mem x).splice o bytes) }

/-- `walkpgdir`: the page table and the index in it of the entry for `va`. -/
def walkpgdir (d va : ℕ) (alloc : Bool) : Exec Stop Kmem (Option (ℕ × ℕ)) := do
  let w ← .gets fun k => k.word d (PDX va)
  if PTE_P w then pure (some (ptePage w, PTX va))
  else if alloc then
    match ← kalloc with
    | none => pure none
    | some t => do
      clear t
      setWord d (PDX va) (mkPte t 6)
      pure (some (t, PTX va))
  else pure none

/-- `mappages` of one page: `false` is `-1`. -/
def mappages (d va x perm : ℕ) : Exec Stop Kmem Bool := do
  match ← walkpgdir d va true with
  | none => pure false
  | some (t, j) =>
    let w ← .gets fun k => k.word t j
    if PTE_P w then .stop (.panic "remap")
    else do
      setWord t j (mkPte x perm)
      pure true

/-- The directory entries of the kernel part: `KERNBASE` to `KERNBASE + PHYSTOP`, and from
`DEVSPACE` (0xFE000000) on. -/
def kmap : List ℕ := List.range' 512 56 ++ List.range' 1016 8

/-- The entry that `setupkvm` makes for the kernel address `va`. -/
def kernelPte (va : ℕ) : ℕ :=
  if va < KERNBASE + PHYSTOP then mkPte ((va - KERNBASE) / PGSIZE) 0
  else mkPte (va / PGSIZE) 0

/-- The page table for directory entry `i` of the kernel part. -/
def kernelTable (i : ℕ) : Bytes PGSIZE := fun b =>
  UInt8.ofNat (kernelPte ((i * NPTENTRIES + b.val / 4) * PGSIZE) / 256 ^ (b.val % 4))

/-- The loop of `setupkvm`. -/
def mapKernel (d : ℕ) : List ℕ → Exec Stop Kmem Bool
  | [] => pure true
  | i :: is => do
    match ← kalloc with
    | none => pure false
    | some t => do
      .modify fun k => { k with mem := update k.mem t (kernelTable i) }
      setWord d i (mkPte t 6)
      mapKernel d is

/-- `setupkvm`; a failure half way keeps its pages. -/
def setupkvm : Exec Stop Kmem (Option ℕ) := do
  match ← kalloc with
  | none => pure none
  | some d => do
    clear d
    if ← mapKernel d kmap then pure (some d) else pure none

/-- The loop of `deallocuvm`, from `a` on. -/
def deallocLoop (d oldsz : ℕ) : ℕ → ℕ → Exec Stop Kmem Unit
  | 0, _ => pure ()
  | n + 1, a =>
    if a < oldsz then do
      match ← walkpgdir d a false with
      | none => deallocLoop d oldsz n (a + NPTENTRIES * PGSIZE)
      | some (t, j) => do
        let w ← .gets fun k => k.word t j
        if PTE_P w then
          if ptePage w = 0 then .stop (.panic "kfree")
          else do
            kfree (ptePage w)
            setWord t j 0
            deallocLoop d oldsz n (a + PGSIZE)
        else deallocLoop d oldsz n (a + PGSIZE)
    else pure ()

/-- `deallocuvm` -/
def deallocuvm (d oldsz newsz : ℕ) : Exec Stop Kmem ℕ :=
  if newsz ≥ oldsz then pure oldsz
  else do
    deallocLoop d oldsz (oldsz / PGSIZE + 1) (PGROUNDUP newsz)
    pure newsz

/-- The loop of `allocuvm`, from `a` on. -/
def allocLoop (d oldsz newsz : ℕ) : ℕ → ℕ → Exec Stop Kmem ℕ
  | 0, _ => pure newsz
  | n + 1, a =>
    if a < newsz then do
      match ← kalloc with
      | none => do
        let _ ← deallocuvm d newsz oldsz
        pure 0
      | some x => do
        clear x
        let _ ← mappages d a x 6
        allocLoop d oldsz newsz n (a + PGSIZE)
    else pure newsz

/-- `allocuvm` -/
def allocuvm (d oldsz newsz : ℕ) : Exec Stop Kmem ℕ :=
  if newsz ≥ KERNBASE then pure 0
  else if newsz < oldsz then pure oldsz
  else allocLoop d oldsz newsz (newsz / PGSIZE + 1) (PGROUNDUP oldsz)

/-- The second loop of `freevm`: the page tables. -/
def freeTables (d : ℕ) : List ℕ → Exec Stop Kmem Unit
  | [] => pure ()
  | i :: is => do
    let w ← .gets fun k => k.word d i
    if PTE_P w then do
      kfree (ptePage w)
      freeTables d is
    else freeTables d is

/-- `freevm` -/
def freevm (d : ℕ) : Exec Stop Kmem Unit :=
  if d = 0 then .stop (.panic "freevm: no pgdir")
  else do
    let _ ← deallocuvm d KERNBASE 0
    freeTables d (List.range NPTENTRIES)
    kfree d

/-- The loop of `copyuvm`, from `i` on. -/
def copyLoop (pgdir d sz : ℕ) : ℕ → ℕ → Exec Stop Kmem Bool
  | 0, _ => pure true
  | n + 1, i =>
    if i < sz then do
      match ← walkpgdir pgdir i false with
      | none => .stop (.panic "copyuvm: pte should exist")
      | some (t, j) =>
        let w ← .gets fun k => k.word t j
        if PTE_P w then
          match ← kalloc with
          | none => pure false
          | some x => do
            .modify fun k => { k with mem := update k.mem x (k.mem (ptePage w)) }
            if ← mappages d i x (w % PGSIZE) then copyLoop pgdir d sz n (i + PGSIZE)
            else pure false
        else .stop (.panic "copyuvm: page not present")
    else pure true

/-- `copyuvm` -/
def copyuvm (pgdir sz : ℕ) : Exec Stop Kmem (Option ℕ) := do
  match ← setupkvm with
  | none => pure none
  | some d => do
    if ← copyLoop pgdir d sz (sz / PGSIZE + 1) 0 then pure (some d)
    else do
      freevm d
      pure none

/-- `inituvm` -/
def inituvm (d : ℕ) (init : List UInt8) : Exec Stop Kmem Unit :=
  if init.length ≥ PGSIZE then .stop (.panic "inituvm: more than a page")
  else do
    match ← kalloc with
    | none => .stop .nullDeref
    | some x => do
      clear x
      let _ ← mappages d 0 x 6
      copyIn x 0 init

/-! ## `exec` -/

/-- A program header, and what the file holds for it. -/
structure Segment where
  /-- the header could be read -/
  read : Bool
  /-- `ph.type == ELF_PROG_LOAD` -/
  load : Bool
  vaddr : UInt32
  memsz : UInt32
  filesz : UInt32
  /-- the bytes of the file from `ph.off` on -/
  data : ℕ → UInt8
  /-- how many there are -/
  avail : ℕ

/-- The loop of `loaduvm`, from the page `i` of the segment on. -/
def loadLoop (d : ℕ) (ph : Segment) : ℕ → ℕ → Exec Stop Kmem Bool
  | 0, _ => pure true
  | n + 1, i =>
    if i * PGSIZE < ph.filesz.toNat then do
      match ← walkpgdir d ((ph.vaddr.toNat + i * PGSIZE) % 2 ^ 32) false with
      | none => .stop (.panic "loaduvm: address should exist")
      | some (t, j) => do
        let w ← .gets fun k => k.word t j
        let len := min PGSIZE (ph.filesz.toNat - i * PGSIZE)
        let got := min len (ph.avail - i * PGSIZE)
        copyIn (ptePage w) 0 ((List.range got).map fun b => ph.data (i * PGSIZE + b))
        if got = len then loadLoop d ph n (i + 1) else pure false
    else pure true

/-- `loaduvm` -/
def loaduvm (d : ℕ) (ph : Segment) : Exec Stop Kmem Bool :=
  if ph.vaddr.toNat % PGSIZE ≠ 0 then .stop (.panic "loaduvm: addr must be page aligned")
  else loadLoop d ph (ph.filesz.toNat / PGSIZE + 1) 0

/-- The loop of `exec` over the program headers: the size of the image, or nothing after
`goto bad`. -/
def loadSegments (d : ℕ) : ℕ → List Segment → Exec Stop Kmem (Option ℕ)
  | sz, [] => pure (some sz)
  | sz, ph :: phs =>
    if ph.read = false then pure none
    else if ph.load = false then loadSegments d sz phs
    else if ph.memsz < ph.filesz then pure none
    else do
      let sz ← allocuvm d sz (ph.vaddr + ph.memsz).toNat
      if sz = 0 then pure none
      else if ← loaduvm d ph then loadSegments d sz phs
      else pure none

/-- `clearpteu` -/
def clearpteu (d va : ℕ) : Exec Stop Kmem Unit := do
  match ← walkpgdir d va false with
  | none => .stop (.panic "clearpteu")
  | some (t, j) => do
    let w ← .gets fun k => k.word t j
    setWord t j (if PTE_U w then w - 4 else w)

/-- The entry that `uva2ka` reads. It does not test the result of `walkpgdir`: without a page table
it reads address 0, in the address space `cur` of the process that runs. -/
def uvaPte (cur d va : ℕ) : Exec Stop Kmem ℕ := do
  match ← walkpgdir d va false with
  | some (t, j) => .gets fun k => k.word t j
  | none =>
    match ← walkpgdir cur 0 false with
    | none => .stop .nullDeref
    | some (t, j) => do
      let w ← .gets fun k => k.word t j
      if PTE_P w then .gets fun k => k.word (ptePage w) 0 else .stop .nullDeref

/-- `uva2ka` -/
def uva2ka (cur d va : ℕ) : Exec Stop Kmem (Option ℕ) := do
  let w ← uvaPte cur d va
  if PTE_P w ∧ PTE_U w then pure (some (ptePage w)) else pure none

/-- The loop of `copyout`. -/
def copyoutLoop (cur d : ℕ) : ℕ → ℕ → List UInt8 → Exec Stop Kmem Bool
  | _, _, [] => pure true
  | 0, _, _ => pure true
  | n + 1, va, bytes => do
    match ← uva2ka cur d (va / PGSIZE * PGSIZE) with
    | none => pure false
    | some x => do
      let room := PGSIZE - va % PGSIZE
      copyIn x (va % PGSIZE) (bytes.take room)
      copyoutLoop cur d n ((va / PGSIZE * PGSIZE + PGSIZE) % 2 ^ 32) (bytes.drop room)

/-- `copyout` -/
def copyout (cur d va : ℕ) (bytes : List UInt8) : Exec Stop Kmem Bool :=
  copyoutLoop cur d bytes.length va bytes

/-- `sp - n`, in 32 bits -/
def pushed (sp n : ℕ) : ℕ := (sp + 2 ^ 32 - n) % 2 ^ 32

/-- The words of `ustack`. -/
def ustack (sp : ℕ) (ptrs : List ℕ) : List UInt8 :=
  ([0xFFFFFFFF, ptrs.length, pushed sp ((ptrs.length + 1) * 4)] ++ ptrs ++ [0]).flatMap Bytes.le32

/-- The rest of `exec` before it commits: push the argument strings and `ustack`. -/
def pushArgs (cur d : ℕ) : ℕ → List ℕ → List (List UInt8) → Exec Stop Kmem Bool
  | sp, ptrs, [] =>
    copyout cur d (pushed sp ((3 + ptrs.length + 1) * 4)) (ustack sp ptrs)
  | sp, ptrs, arg :: args =>
    if ptrs.length ≥ MAXARG then pure false
    else do
      let sp := pushed sp (arg.length + 1) / 4 * 4
      if ← copyout cur d sp (arg ++ [0]) then pushArgs cur d sp (ptrs ++ [sp]) args
      else pure false

/-- The two pages after the image, of which the second is the stack. -/
def execStack (cur d sz : ℕ) (args : List (List UInt8)) : Exec Stop Kmem (Option ℕ) := do
  let sz ← allocuvm d sz (sz + 2 * PGSIZE)
  if sz = 0 then pure none
  else do
    clearpteu d (sz - 2 * PGSIZE)
    if ← pushArgs cur d sz [] args then pure (some sz) else pure none

/-- `exec` up to its commit: the size of the new image. -/
def execImage (cur d : ℕ) (phs : List Segment) (args : List (List UInt8)) :
    Exec Stop Kmem (Option ℕ) := do
  match ← loadSegments d 0 phs with
  | none => pure none
  | some sz => execStack cur d (PGROUNDUP sz) args

/-- `exec`, from the check of the ELF header on: the new page directory and size, or `-1`. -/
def exec (cur : ℕ) (elf : Bool) (phs : List Segment) (args : List (List UInt8)) :
    Exec Stop Kmem (Option (ℕ × ℕ)) :=
  if elf = false then pure none
  else do
    match ← setupkvm with
    | none => pure none
    | some d => do
      match ← execImage cur d phs args with
      | some sz => pure (some (d, sz))
      | none => do
        freevm d
        pure none

end Kmem

/-! ## Processes and pipes -/

inductive VmState : Type where
  | unused
  | alive
  | zombie
  deriving DecidableEq

/-- What `struct proc` has to do with pages. -/
structure VmProc where
  state : VmState
  kstack : ℕ
  pgdir : ℕ
  sz : ℕ
  parent : Option ℕ

/-- A live pipe: its page and its two ends. -/
structure PipePage where
  page : ℕ
  readopen : Bool
  writeopen : Bool

/-- The pages of the kernel. -/
structure VmSys where
  km : Kmem
  proc : ℕ → VmProc
  kpgdir : ℕ
  pipe : ℕ → Option PipePage
  npipe : ℕ

/-- One system call, with the failures of `kalloc` during it. -/
inductive VmEvent : Type where
  | fork (p : ℕ) (oom : List Bool)
  | exec (p : ℕ) (elf : Bool) (phs : List Kmem.Segment) (args : List (List UInt8)) (oom : List Bool)
  | growproc (p : ℕ) (n : ℤ) (oom : List Bool)
  | exit (p : ℕ)
  /-- `wait` of process `p` finds its zombie child `q` -/
  | wait (p q : ℕ)
  | pipealloc (oom : List Bool)
  /-- the last reference to an end of pipe `k` is closed -/
  | pipeclose (k : ℕ) (writable : Bool)

namespace VmSys

def setProc (s : VmSys) (p : ℕ) (x : VmProc) : VmSys := { s with proc := update s.proc p x }

/-- Run code on memory, with the failures of `kalloc` in this call, and go on with its result. -/
def withMem {α : Type} (s : VmSys) (oom : List Bool) (m : Exec Stop Kmem α)
    (f : VmSys → α → Except Stop VmSys) : Except Stop VmSys :=
  match m { s.km with oom := oom } with
  | .ok (a, km) => f { s with km := km } a
  | .error e => .error e

/-- The slot that `allocproc` finds. -/
def findSlot (s : VmSys) : Option ℕ := (List.range NPROC).find? fun p => (s.proc p).state = .unused

/-- How far `fork` gets: there is no page for a kernel stack, `copyuvm` fails, or there is a
child. -/
inductive Forked : Type where
  | noStack
  | noMem
  | child (kstack pgdir : ℕ)

/-- `allocproc` with its kernel stack, and `copyuvm`. -/
def forkMem (cur sz : ℕ) : Exec Stop Kmem Forked := do
  match ← Kmem.kalloc with
  | none => pure .noStack
  | some kstack => do
    match ← Kmem.copyuvm cur sz with
    | some d => pure (.child kstack d)
    | none => do
      Kmem.kfree kstack
      pure .noMem

/-- `fork` -/
def fork (s : VmSys) (p : ℕ) (oom : List Bool) : Except Stop VmSys :=
  match s.findSlot with
  | none => .ok s
  | some np =>
    s.withMem oom (forkMem (s.proc p).pgdir (s.proc p).sz) fun s r =>
      match r with
      | .child kstack d => .ok (s.setProc np ⟨.alive, kstack, d, (s.proc p).sz, some p⟩)
      | .noMem => .ok (s.setProc np { s.proc np with state := .unused, kstack := 0, pgdir := 0 })
      | .noStack => .ok (s.setProc np { s.proc np with state := .unused, kstack := 0 })

/-- `exec`, with the `freevm(oldpgdir)` after the commit. -/
def execMem (cur : ℕ) (elf : Bool) (phs : List Kmem.Segment) (args : List (List UInt8)) :
    Exec Stop Kmem (Option (ℕ × ℕ)) := do
  match ← Kmem.exec cur elf phs args with
  | none => pure none
  | some (d, sz) => do
    Kmem.freevm cur
    pure (some (d, sz))

def exec (s : VmSys) (p : ℕ) (elf : Bool) (phs : List Kmem.Segment) (args : List (List UInt8))
    (oom : List Bool) : Except Stop VmSys :=
  s.withMem oom (execMem (s.proc p).pgdir elf phs args) fun s r =>
    match r with
    | some (d, sz) => .ok (s.setProc p { s.proc p with pgdir := d, sz := sz })
    | none => .ok s

/-- `growproc` -/
def growproc (s : VmSys) (p : ℕ) (n : ℤ) (oom : List Bool) : Except Stop VmSys :=
  let sz := (s.proc p).sz
  let new := ((sz + n) % 2 ^ 32).toNat
  let grow := fun (s : VmSys) (r : ℕ) =>
    .ok (if r = 0 then s else s.setProc p { s.proc p with sz := r })
  if n > 0 then s.withMem oom (Kmem.allocuvm (s.proc p).pgdir sz new) grow
  else if n < 0 then s.withMem oom (Kmem.deallocuvm (s.proc p).pgdir sz new) grow
  else .ok s

/-- `exit`: a zombie; its children go to `initproc`, which is slot 0. -/
def exit (s : VmSys) (p : ℕ) : Except Stop VmSys :=
  if p = 0 then .error (.panic "init exiting")
  else .ok { s with proc := fun q =>
    let x := s.proc q
    let x := if x.parent = some p then { x with parent := some 0 } else x
    if q = p then { x with state := .zombie } else x }

/-- The `kfree` and `freevm` of `wait`. -/
def waitMem (x : VmProc) : Exec Stop Kmem Unit := do
  Kmem.kfree x.kstack
  Kmem.freevm x.pgdir

/-- `wait` -/
def wait (s : VmSys) (q : ℕ) : Except Stop VmSys :=
  s.withMem [] (waitMem (s.proc q)) fun s _ =>
    .ok (s.setProc q { s.proc q with state := .unused, kstack := 0, parent := none })

/-- `pipealloc` -/
def pipealloc (s : VmSys) (oom : List Bool) : Except Stop VmSys :=
  s.withMem oom Kmem.kalloc fun s r =>
    match r with
    | none => .ok s
    | some x => .ok { s with
        pipe := update s.pipe s.npipe (some ⟨x, true, true⟩), npipe := s.npipe + 1 }

/-- `pipeclose` -/
def pipeclose (s : VmSys) (k : ℕ) (writable : Bool) : Except Stop VmSys :=
  match s.pipe k with
  | none => .error .misuse
  | some x =>
    let x := if writable then { x with writeopen := false } else { x with readopen := false }
    if x.readopen = false ∧ x.writeopen = false then
      s.withMem [] (Kmem.kfree x.page) fun s _ =>
        .ok { s with pipe := update s.pipe k none }
    else .ok { s with pipe := update s.pipe k (some x) }

/-- One system call of a process that runs. -/
def step (s : VmSys) : VmEvent → Except Stop VmSys
  | .fork p oom => if p < NPROC ∧ (s.proc p).state = .alive then s.fork p oom else .error .misuse
  | .exec p elf phs args oom =>
    if p < NPROC ∧ (s.proc p).state = .alive then s.exec p elf phs args oom else .error .misuse
  | .growproc p n oom =>
    if p < NPROC ∧ (s.proc p).state = .alive then s.growproc p n oom else .error .misuse
  | .exit p => if p < NPROC ∧ (s.proc p).state = .alive then s.exit p else .error .misuse
  | .wait p q =>
    if q < NPROC ∧ (s.proc q).state = .zombie ∧ (s.proc q).parent = some p then s.wait q
    else .error .misuse
  | .pipealloc oom => s.pipealloc oom
  | .pipeclose k writable => s.pipeclose k writable

/-- `startothers`: a stack for each of the other CPUs, without a test for failure. -/
def startothers : ℕ → Exec Stop Kmem Unit
  | 0 => pure ()
  | n + 1 => do
    let _ ← Kmem.kalloc
    startothers n

/-- `kinit1`, `kvmalloc`, `startothers` and `kinit2`. -/
def bootMem (ncpu kend : ℕ) : Exec Stop Kmem ℕ := do
  Kmem.freerange kend 1024 1024
  match ← Kmem.setupkvm with
  | none => .stop .nullDeref
  | some d => do
    startothers ncpu
    Kmem.freerange 1024 NPAGES NPAGES
    pure d

/-- `userinit`: the kernel stack and the page directory of the first process. -/
def userinit (init : List UInt8) : Exec Stop Kmem (ℕ × ℕ) := do
  match ← Kmem.kalloc with
  | none => .stop .nullDeref
  | some kstack => do
    match ← Kmem.setupkvm with
    | none => .stop (.panic "userinit: out of memory?")
    | some d => do
      Kmem.inituvm d init
      pure (kstack, d)

/-- The kernel after `main`, as far as pages are concerned, with `ncpu` further CPUs and the first
process running `init`. -/
def boot (ncpu kend : ℕ) (mem : ℕ → Bytes PGSIZE) (init : List UInt8) : Except Stop VmSys :=
  match bootMem ncpu kend ⟨mem, [], kend, [], false⟩ with
  | .ok (kpgdir, km) =>
    match userinit init km with
    | .ok ((kstack, d), km) => .ok {
        km := km
        proc := fun p => if p = 0 then ⟨.alive, kstack, d, PGSIZE, none⟩ else ⟨.unused, 0,
          0, 0, none⟩
        kpgdir := kpgdir
        pipe := fun _ => none
        npipe := 0 }
    | .error e => .error e
  | .error e => .error e

end VmSys

end Xv6
