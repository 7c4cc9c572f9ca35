import Xv6.VmSpec

/-!
# The pages of `exec`

`exec` writes to the pages of the address space that it builds: `loaduvm` and `copyout` look the
page of an address up in the page table. A write to a user page of the image leaves the directories
and page tables as they are (`wrote_user`), and so does `clearpteu`.
-/

namespace Xv6

open Exec Roots List

namespace Kmem

variable {d : ℕ}

/-! ## Writes to the new image -/

variable {k : Kmem} {R : Roots} {top : ℕ} {h : Root} {x va sz t i j : ℕ}

/-- What a write to a user page leaves as it was. -/
structure Wrote (R : Roots) (top : ℕ) (k k' : Kmem) : Prop where
  inv : PageInv k' R top
  page : R.page k'.mem = R.page k.mem

theorem Wrote.same {k' : Kmem} {T : Root → ℕ → ℕ → Prop} (hw : Wrote R top k k') :
    SameUsers R T k k' :=
  .of_page hw.page

theorem Wrote.upto {k' : Kmem} {n : ℕ} (hw : Wrote R top k k') (hu : Upto R k h n) :
    Upto R k' h n :=
  hu.same (hw.same (T := NoPage)) fun _ _ => id

theorem wrote_user (hi : PageInv k R top) (hu : R.page k.mem (.user h i j) = some x)
    (b : Bytes PGSIZE) : Wrote R top k { k with mem := Function.update k.mem x b } := by
  have hnot := hi.not_isTable hu (fun _ => by simp) fun _ _ => by simp
  refine ⟨hi.write hnot b, page_congr fun y hy => Function.update_of_ne ?_ _ _⟩
  rintro rfl
  exact hnot hy

/-- The entry of a mapped address is what `walkpgdir` finds. -/
theorem Mapped.entry (hm : Mapped R k h sz) (hd : R.root h = some d) (hva : va < sz) :
    ∃ t, ent k.mem d (PDX va) = some t ∧ PTE_P (k.word t (PTX va)) ∧
      R.page k.mem (.user h (PDX va) (PTX va)) = some (ptePage (k.word t (PTX va))) := by
  obtain ⟨x, hx⟩ := hm va hva
  obtain ⟨-, t, ht, he⟩ := user_eq_some.mp hx
  obtain ⟨-, d', hd', ht⟩ := tab_eq_some.mp ht
  obtain rfl : d = d' := Option.some.inj (hd.symm.trans hd')
  rw [ent] at he
  split at he
  · rename_i hp
    rw [hx, ← he]
    exact ⟨t, ht, hp, rfl⟩
  · cases he

/-- `walkpgdir` of a mapped address. -/
theorem walkpgdir_mapped {E : Stop → Prop} (hm : Mapped R k h sz) (hd : R.root h = some d)
    (hva : va < sz) : Ends (walkpgdir d va false) k (fun r k' => k = k' ∧
      ∃ t, r = some (t, PTX va) ∧ PTE_P (k.word t (PTX va)) ∧
      R.page k.mem (.user h (PDX va) (PTX va)) = some (ptePage (k.word t (PTX va)))) E := by
  obtain ⟨t, ht, hx⟩ := hm.entry hd hva
  refine walkpgdir_false.mono ?_
  rintro _ _ ⟨rfl, ⟨t', rfl, ht'⟩ | ⟨rfl, hnone⟩⟩
  · obtain rfl : t = t' := Option.some.inj (ht.symm.trans ht')
    exact ⟨rfl, t, rfl, hx⟩
  · rw [ht] at hnone
    cases hnone

/-- An entry without its `PTE_U`. -/
theorem pte_clearU {w : ℕ} (hw : w < 2 ^ 32) : (if PTE_U w then w - 4 else w) < 2 ^ 32 ∧
    (PTE_P (if PTE_U w then w - 4 else w) ↔ PTE_P w) ∧
    ptePage (if PTE_U w then w - 4 else w) = ptePage w := by
  have hp := PGSIZE_eq
  split
  · rename_i hu
    rw [PTE_U] at hu
    rw [PTE_P, PTE_P, ptePage, ptePage, hp]
    omega
  · exact ⟨hw, Iff.rfl, rfl⟩

/-- `clearpteu` changes no page in an entry. -/
theorem clearpteu_spec (hd : R.root h = some d) (hva : va < KERNBASE) (hi : PageInv k R top) :
    Ends (clearpteu d va) k fun _ k' => Wrote R top k k' := by
  rw [clearpteu]
  refine walkpgdir_false.bind ?_
  rintro _ _ ⟨rfl, ⟨t, rfl, ht⟩ | ⟨rfl, -⟩⟩
  · refine ends_bind_gets ?_
    have h5 := PDX_user hva
    have htab : R.page k.mem (.tab h (PDX va)) = some t :=
      tab_eq_some.mpr ⟨h5.trans (by decide), d, hd, ht⟩
    obtain ⟨w, hw⟩ : ∃ w, w = k.word t (PTX va) := ⟨_, rfl⟩
    rw [← hw]
    have hlt : w < 2 ^ 32 := hw ▸ Bytes.u32_lt _ _
    obtain ⟨h32, hP, hpage⟩ := pte_clearU hlt
    have hent : ent k.mem t (PTX va) = if PTE_P w then some (ptePage w) else none := by
      rw [hw]
      rfl
    have huser := hi.user_setTab htab h5 (PTX_lt : PTX va < NPTENTRIES) h32
    have hsame : R.page (Function.update k.mem t ((k.mem t).setU32 (4 * PTX va)
        (if PTE_U w then w - 4 else w))) = R.page k.mem := by
      funext o
      rcases eq_or_ne o (.user h (PDX va) (PTX va)) with rfl | hne
      · rw [huser, hpage]
        simp only [hP, page, hd, h5, PTX_lt, ht, hent, Option.bind_some, and_self, if_true]
      · exact hi.page_setTab htab o hne
    refine ends_modify ⟨hi.move rfl rfl rfl id ?_ (fun _ _ _ _ _ he => he)
      fun h' i' t' ht' => hi.kern_setTab htab h5 ht', hsame⟩
    intro o x ho
    rwa [hsame] at ho
  · exact ends_stop

/-- The bytes that the arguments and `ustack` take on the stack, when `cnt` strings are there
already. -/
def need : ℕ → List (List UInt8) → ℕ
  | cnt, [] => (4 + cnt) * 4
  | cnt, arg :: args => arg.length + 4 + need (cnt + 1) args

theorem length_ustack (sp : ℕ) (ptrs : List ℕ) :
    (ustack sp ptrs).length = (4 + ptrs.length) * 4 := by
  simp [ustack, length_flatMap, Bytes.le32]
  omega

theorem pushed_eq {sp n : ℕ} (hn : n ≤ sp) (hsp : sp < 2 ^ 32) : pushed sp n = sp - n := by
  rw [pushed]
  omega

/-! ## `exec` -/

/-- The size of the image before the stack, from size `sz` on. -/
def imageSize : ℕ → List Segment → ℕ
  | sz, [] => sz
  | sz, ph :: phs =>
    if ph.load then imageSize (max sz (ph.vaddr + ph.memsz).toNat) phs else imageSize sz phs

theorem npages_PGROUNDUP (sz : ℕ) : npages (PGROUNDUP sz) = npages sz := by
  have hp := PGSIZE_eq
  rw [npages, npages, PGROUNDUP, hp]
  omega

end Kmem

end Xv6
