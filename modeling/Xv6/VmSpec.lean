import Xv6.VmInv

/-!
# The functions of `vm.c` keep the owners apart

One specification for each function: from a state in which every page has one owner, it ends (or
panics) in such a state, with the pages it took handed to the directory it works on and those it
freed back on the free list. A page that a failing function loses is forgotten: nobody has it any
more.
-/

namespace Xv6

open Function List

open Exec Roots

/-- The computation ends in `Q`, or stops as `E` allows: if nothing is said, in any way. It is not
unfolded: that would run the computation. -/
@[irreducible]
def Ends {α : Type} (m : Exec Stop Kmem α) (k : Kmem) (Q : α → Kmem → Prop)
    (E : Stop → Prop := fun _ => True) : Prop :=
  Wp m k Q E

section Ends

variable {α β : Type} {m : Exec Stop Kmem α} {k : Kmem} {Q : α → Kmem → Prop} {E : Stop → Prop}

theorem Ends.of_ok {a : α} {k' : Kmem} (hm : m k = .ok (a, k')) (h : Q a k') : Ends m k Q E := by
  rw [Ends]
  exact Wp.of_ok hm h

variable {e : Stop}

theorem Ends.of_error (hm : m k = .error e) (he : E e := by trivial) : Ends m k Q E := by
  rw [Ends, Wp, hm]
  exact he

theorem Ends.ok {a : α} {k' : Kmem} (h : Ends m k Q E) (hm : m k = .ok (a, k')) : Q a k' := by
  rw [Ends, Wp, hm] at h
  exact h

theorem Ends.error (h : Ends m k Q E) (hm : m k = .error e) : E e := by
  rw [Ends, Wp, hm] at h
  exact h

theorem Ends.bind {f : α → Exec Stop Kmem β} {Q' : β → Kmem → Prop} (h : Ends m k Q E)
    (hf : ∀ a k', Q a k' → Ends (f a) k' Q' E) : Ends (m >>= f) k Q' E := by
  rw [Ends] at h ⊢
  refine Wp.bind h (fun _ h => h) fun a k' ha => ?_
  have := hf a k' ha
  rwa [Ends] at this

variable {Q' : α → Kmem → Prop}

theorem Ends.mono (h : Ends m k Q E) (hQ : ∀ a k', Q a k' → Q' a k') : Ends m k Q' E := by
  rw [Ends] at h ⊢
  exact Wp.mono h hQ fun _ h => h

variable {E' : Stop → Prop}

theorem Ends.allow (h : Ends m k Q E) (hE : ∀ e, E e → E' e := by simp) : Ends m k Q E' := by
  rw [Ends] at h ⊢
  exact Wp.mono h (fun _ _ h => h) hE

/-- A second specification may say nothing about how the computation stops. -/
theorem Ends.and (h : Ends m k Q E)
    (h' : Ends m k Q' E') : Ends m k (fun a k' => Q a k' ∧ Q' a k') E := by
  rcases hm : m k with e | ⟨a, k'⟩
  · exact .of_error hm (h.error hm)
  · exact .of_ok hm ⟨h.ok hm, h'.ok hm⟩

theorem ends_pure {a : α} (h : Q a k) : Ends (pure a) k Q E := .of_ok rfl h

theorem ends_gets {f : Kmem → α} (h : Q (f k) k) : Ends (Exec.gets f) k Q E := .of_ok rfl h

theorem ends_modify {f : Kmem → Kmem} {Q : Unit → Kmem → Prop} (h : Q () (f k)) :
    Ends (Exec.modify f) k Q E := .of_ok rfl h

theorem ends_stop (he : E e := by trivial) : Ends (Exec.stop e) k Q E := .of_error rfl he

theorem ends_bind_gets {f : Kmem → α} {g : α → Exec Stop Kmem β} {Q : β → Kmem → Prop}
    (h : Ends (g (f k)) k Q E) : Ends (Exec.gets f >>= g) k Q E :=
  (ends_gets (Q := fun a k' => f k = a ∧ k = k') ⟨rfl, rfl⟩).bind fun _ _ he => he.1 ▸ he.2 ▸ h

theorem ends_bind_modify {f : Kmem → Kmem} {g : Unit → Exec Stop Kmem β} {Q : β → Kmem → Prop}
    (h : Ends (g ()) (f k) Q E) : Ends (Exec.modify f >>= g) k Q E :=
  (ends_modify (Q := fun _ k' => f k = k') rfl).bind fun _ _ he => he ▸ h

end Ends

/-- The user pages are the same, except for those in `T`. -/
def SameUsers (R : Roots) (T : Root → ℕ → ℕ → Prop) (k k' : Kmem) : Prop :=
  ∀ h i j, ¬T h i j → R.page k'.mem (.user h i j) = R.page k.mem (.user h i j)

/-- No user page. -/
def NoPage : Root → ℕ → ℕ → Prop := fun _ _ _ => False

/-- The user pages of `h`. -/
def PagesOf (h : Root) : Root → ℕ → ℕ → Prop := fun h' _ _ => h' = h

variable {R' : Roots}

namespace SameUsers

variable {R : Roots} {T T' : Root → ℕ → ℕ → Prop} {k k' k'' : Kmem}

theorem refl : SameUsers R T k k := fun _ _ _ _ => rfl

theorem trans (h : SameUsers R T k k') (h' : SameUsers R T k' k'') : SameUsers R T k k'' :=
  fun h0 i j hT => (h' h0 i j hT).trans (h h0 i j hT)

theorem mono (h : SameUsers R T k k') (hT : ∀ h i j, T h i j → T' h i j) : SameUsers R T' k k' :=
  fun h0 i j hn => h h0 i j fun hc => hn (hT h0 i j hc)

theorem none (h : SameUsers R NoPage k k') : SameUsers R T k k' := h.mono fun _ _ _ hc => hc.elim

theorem of_page (h : R.page k'.mem = R.page k.mem) : SameUsers R T k k' := fun _ _ _ _ => by rw [h]

/-- Only the directory of a user page matters. -/
theorem page_user_congr {h h' : Root} (hr : R'.root h' = R.root h)
    (m : ℕ → Bytes PGSIZE) (i j : ℕ) : R'.page m (.user h' i j) = R.page m (.user h i j) := by
  simp only [page, hr]

theorem congr (hu : SameUsers R T k k')
    (hr : ∀ h i j, ¬T h i j → R'.root h = R.root h) : SameUsers R' T k k' := by
  intro h i j hT
  rw [page_user_congr (hr h i j hT), page_user_congr (hr h i j hT)]
  exact hu h i j hT

/-- Where there is no new directory yet, its pages do not count. -/
theorem of_fresh {d : ℕ} (hr : R.root .fresh = Option.none)
    (hT : ∀ h i j, T' h i j → h = .fresh ∨ T h i j)
    (hu : SameUsers (R.setRoot .fresh (some d)) T' k k') : SameUsers R T k k' := by
  intro h i j hn
  rcases eq_or_ne h .fresh with rfl | hh
  · simp [page, hr]
  · have hroot : (R.setRoot .fresh (some d)).root h = R.root h := update_of_ne hh ..
    have hcongr := page_user_congr hroot
    rw [← hcongr, ← hcongr]
    exact hu h i j fun hc => (hT h i j hc).elim hh hn

end SameUsers

/-- A hand that takes a page and gives it away again. -/
theorem Roots.setSingle_back {R : Roots} {s : Single} (hs : R.single s = none) (x : Option ℕ) :
    (R.setSingle s x).setSingle s none = R := by
  simp only [setSingle, update_idem]
  rw [← hs, update_eq_self]

theorem Roots.setRoot_back {R : Roots} {h : Root} (hr : R.root h = none) (d : Option ℕ) :
    (R.setRoot h d).setRoot h none = R := by
  simp only [setRoot, update_idem]
  rw [← hr, update_eq_self]

namespace Kmem

variable {k : Kmem} {R : Roots} {top : ℕ} {h : Root} {d x va n : ℕ}

theorem pageInv_oom (hi : PageInv k R top) (oom : List Bool) :
    PageInv { k with oom := oom } R top :=
  hi.move rfl rfl rfl id (fun _ _ h => h) (fun _ _ _ _ _ he => he) hi.kern

/-- How many calls of `kalloc` succeed before one fails. -/
def avail (k : Kmem) : ℕ :=
  if true ∈ k.oom then min (k.oom.idxOf true) k.free.length else k.free.length

theorem kalloc_cases (k : Kmem) :
    (kalloc k = .ok (none, { k with oom := k.oom.tail }) ∧ (k.oom = [] → k.free = []) ∧
      avail k = 0) ∨
    ∃ x free, k.free = x :: free ∧
      kalloc k = .ok (some x, { k with free := free, oom := k.oom.tail }) ∧
      avail k = avail { k with free := free, oom := k.oom.tail } + 1 := by
  rcases ho : k.oom with _ | ⟨b, oom⟩
  · rcases hf : k.free with _ | ⟨x, free⟩
    · exact .inl ⟨by simp [kalloc, ho, hf], fun _ => rfl, by simp [avail, ho, hf]⟩
    · exact .inr ⟨x, free, rfl, by simp [kalloc, ho, hf], by simp [avail, ho, hf]⟩
  cases b
  · rcases hf : k.free with _ | ⟨x, free⟩
    · exact .inl ⟨by simp [kalloc, ho, hf], by simp, by simp [avail, hf]⟩
    · refine .inr ⟨x, free, rfl, by simp [kalloc, ho, hf], ?_⟩
      by_cases hmem : true ∈ oom
      · simp [avail, ho, hf, hmem, Nat.add_min_add_right]
      · simp [avail, ho, hf, hmem]
  · exact .inl ⟨by simp [kalloc, ho], by simp, by simp [avail, ho]⟩

/-- **`kalloc`**: nothing, or a page in hand. -/
theorem kalloc_spec (hi : PageInv k R top) (n : ℕ) :
    Ends kalloc k fun r k' => k'.mem = k.mem ∧ (r = none → PageInv k' R top) ∧
      ∀ x, r = some x → PageInv k' (R.setSingle (.hand n) (some x)) top := by
  rcases kalloc_cases k with ⟨hk, -⟩ | ⟨x, free, hf, hk, -⟩
  · exact Ends.of_ok hk ⟨rfl, fun _ => pageInv_oom hi _, by simp⟩
  · refine Ends.of_ok hk ⟨rfl, by simp, fun y hy => ?_⟩
    obtain rfl : x = y := Option.some.inj hy
    exact hi.take hf _

/-- Writing to a page in hand. -/
theorem write_hand (hi : PageInv k R top) (hx : R.single (.hand n) = some x) (b : Bytes PGSIZE) :
    PageInv { k with mem := update k.mem x b } R top ∧
      R.page (update k.mem x b) = R.page k.mem := by
  have hnot := hi.not_isTable (o := .single (.hand n)) hx (fun _ => by simp) fun _ _ => by simp
  refine ⟨hi.write hnot b, page_congr fun y hy => update_of_ne ?_ _ _⟩
  rintro rfl
  exact hnot hy

theorem ent_zero {m : ℕ → Bytes PGSIZE} (hx : m x = Bytes.zero) (i : ℕ) : ent m x i = none := by
  rw [ent, hx, Bytes.u32_zero]
  rfl

/-- `walkpgdir` without `alloc` only reads. -/
theorem walkpgdir_false {E : Stop → Prop} : Ends (walkpgdir d va false) k (fun r k' => k = k' ∧
    ((∃ t, r = some (t, PTX va) ∧ ent k.mem d (PDX va) = some t) ∨
      (r = none ∧ ent k.mem d (PDX va) = none))) E := by
  rw [walkpgdir]
  refine ends_bind_gets ?_
  split
  · rename_i hp
    exact ends_pure ⟨rfl, Or.inl ⟨_, rfl, if_pos hp⟩⟩
  · rename_i hp
    exact ends_pure ⟨rfl, Or.inr ⟨rfl, if_neg hp⟩⟩

theorem PDX_lt (hva : va < 2 ^ 32) : PDX va < NPTENTRIES := by
  have h1 : NPTENTRIES = 1024 := rfl
  have h2 := PGSIZE_eq
  rw [PDX, h1, h2]
  omega

theorem PDX_user (hva : va < KERNBASE) : PDX va < 512 := by
  have h1 : NPTENTRIES = 1024 := rfl
  have h2 := PGSIZE_eq
  have h3 : KERNBASE = 0x80000000 := rfl
  rw [PDX, h1, h2]
  omega

theorem PTX_lt : PTX va < NPTENTRIES := Nat.mod_lt _ (by decide)

/-- A property of the memory and its uses that holds on as the pages of `h` are dealt with: when a
page is taken, written to in hand, entered in the directory or a page table, and freed. -/
structure Stable (top : ℕ) (h : Root) (J : Kmem → Roots → Prop) : Prop where
  inv : ∀ {k R}, J k R → PageInv k R top
  oom : ∀ {k R}, J k R → ∀ oom, J { k with oom := oom } R
  take : ∀ {k R x free n}, J k R → k.free = x :: free → R.single (.hand n) = none →
    ∀ oom, J { k with free := free, oom := oom } (R.setSingle (.hand n) (some x))
  write : ∀ {k R x n}, J k R → R.single (.hand n) = some x →
    ∀ b, J { k with mem := update k.mem x b } R
  root : ∀ {k R d n}, J k R → R.single (.hand n) = some d → R.root h = none →
    (∀ i, ent k.mem d i = none) → J k ((R.setSingle (.hand n) none).setRoot h (some d))
  install : ∀ {k R d i x n}, J k R → R.root h = some d → ent k.mem d i = none → i < NPTENTRIES →
    R.single (.hand n) = some x → (i < 512 → ∀ j, ent k.mem x j = none) →
    (512 ≤ i → k.mem x = kernelTable i) →
    J { k with mem := update k.mem d ((k.mem d).setU32 (4 * i) (mkPte x 6)) }
      (R.setSingle (.hand n) none)
  map : ∀ {k R t i j x}, J k R → R.page k.mem (.tab h i) = some t → i < 512 → j < NPTENTRIES →
    ent k.mem t j = none → R.single (.hand 0) = some x →
    ∀ perm, J { k with mem := update k.mem t ((k.mem t).setU32 (4 * j) (mkPte x perm)) }
      (R.setSingle (.hand 0) none)
  free : ∀ {k R x n}, J k R → R.single (.hand n) = some x →
    J (k.freed x) (R.setSingle (.hand n) none)
  unmap : ∀ {k R t i j x}, J k R → R.page k.mem (.tab h i) = some t → i < 512 → j < NPTENTRIES →
    ent k.mem t j = some x → J { k.freed x with
      mem := update (k.freed x).mem t (((k.freed x).mem t).setU32 (4 * j) 0) } R

theorem stable_pageInv (top : ℕ) (h : Root) : Stable top h fun k R => PageInv k R top where
  inv := id
  oom hi _ := pageInv_oom hi _
  take hi hf _ oom := hi.take hf oom
  write hi hx b := (write_hand hi hx b).1
  root hi hd hr hempty := hi.root_of_hand hd hr hempty
  install hi hd hnone hlt hx hempty hkern := hi.install_tab hd hnone hlt hx hempty hkern 6
  map hi ht hi5 hj _ hx perm := hi.install_user ht hi5 hj hx perm
  free hi hx := hi.free_hand hx
  unmap hi ht hi5 hj hx := (hi.free_user ht hi5 hj hx rfl).1

/-- `kfree` of a page in use. -/
theorem kfree_used {o : PageUse} {E : Stop → Prop} (hi : PageInv k R top)
    (ho : R.page k.mem o = some x) : Ends (kfree x) k (fun _ k' => k.freed x = k') E := by
  have hle := hi.low x (.inr ⟨o, ho⟩)
  have hlt := (hi.range o x ho).trans_le hi.top_le
  exact .of_ok (if_neg (by omega)) rfl

section Stable

variable {J : Kmem → Roots → Prop} {E : Stop → Prop} (hJ : Stable top h J)

include hJ

theorem Stable.kalloc (hj : J k R) (hn : R.single (.hand n) = none) :
    Ends kalloc k (fun r k' => k'.mem = k.mem ∧ (r = none → J k' R ∧ avail k = 0) ∧
      ∀ x, r = some x → J k' (R.setSingle (.hand n) (some x)) ∧ avail k = avail k' + 1) E := by
  rcases kalloc_cases k with ⟨hk, -, ha⟩ | ⟨x, free, hf, hk, ha⟩
  · exact .of_ok hk ⟨rfl, fun _ => ⟨hJ.oom hj _, ha⟩, by simp⟩
  · refine .of_ok hk ⟨rfl, by simp, fun y hy => ?_⟩
    obtain rfl : x = y := Option.some.inj hy
    exact ⟨hJ.take hj hf hn _, ha⟩

/-- **`walkpgdir` with `alloc`**: the table is there, it is allocated, or it is its turn to fail. -/
theorem Stable.walkpgdir (hj : J k R) (hd : R.root h = some d) (hva : va < KERNBASE)
    (hn : R.single (.hand 1) = none) : Ends (walkpgdir d va true) k (fun r k' =>
      (∃ t, r = some (t, PTX va) ∧ k = k' ∧ R.page k.mem (.tab h (PDX va)) = some t) ∨
      (R.page k.mem (.tab h (PDX va)) = none ∧ r = none ∧ avail k = 0 ∧ J k' R ∧
        k'.mem = k.mem) ∨
      (R.page k.mem (.tab h (PDX va)) = none ∧ ∃ t, r = some (t, PTX va) ∧
        avail k = avail k' + 1 ∧ J k' R ∧ R.page k'.mem (.tab h (PDX va)) = some t ∧
        ∀ o, o ≠ .tab h (PDX va) → R.page k'.mem o = R.page k.mem o)) E := by
  have hlt := PDX_lt (hva.trans (by decide))
  have htab : R.page k.mem (.tab h (PDX va)) = ent k.mem d (PDX va) := by
    simp [page, hlt, hd]
  rw [Kmem.walkpgdir]
  refine ends_bind_gets ?_
  split
  · rename_i hp
    exact ends_pure (.inl ⟨_, rfl, rfl, htab.trans (if_pos hp)⟩)
  rename_i hp
  have hnone : ent k.mem d (PDX va) = none := if_neg hp
  refine (hJ.kalloc hj hn).bind ?_
  rintro (_ | t) k1 ⟨hm, hfail, hgot⟩
  · obtain ⟨hj1, ha⟩ := hfail rfl
    exact ends_pure (.inr (.inl ⟨htab.trans hnone, rfl, ha, hj1, hm⟩))
  obtain ⟨hj1, havail⟩ := hgot t rfl
  refine ends_bind_modify (ends_bind_modify (ends_pure
    (.inr (.inr ⟨htab.trans hnone, t, rfl, havail, ?_⟩))))
  have ht : (R.setSingle (.hand 1) (some t)).single (.hand 1) = some t := by simp [setSingle]
  have hg2 := (write_hand (hJ.inv hj1) ht Bytes.zero).2
  have hj2 := hJ.write hj1 ht Bytes.zero
  have htd : d ≠ t := by
    rintro rfl
    cases (hJ.inv hj1).inj (.single (.hand 1)) (.dir h) d ht hd
  have hnone2 : ent (update k1.mem t Bytes.zero) d (PDX va) = none := by
    rw [ent_update_ne htd, hm]
    exact hnone
  have hempty : PDX va < 512 → ∀ j, ent (update k1.mem t Bytes.zero) t j = none :=
    fun _ j => ent_zero (update_self ..) j
  have hj3 := hJ.install hj2 hd hnone2 hlt ht hempty fun h5 => absurd (PDX_user hva) h5.not_gt
  obtain ⟨hnew, hrest⟩ := (hJ.inv hj2).page_setDir hd hnone2 hlt ht hempty 6 rfl
  rw [setSingle_back hn] at hj3
  refine ⟨hj3, ?_, fun o ho => ?_⟩
  · rwa [PageInv.page_setSingle_of_ne _ _ (by simp)] at hnew
  rcases eq_or_ne o (.single (.hand 1)) with rfl | hne
  · rfl
  · have hback : ∀ m, (R.setSingle (.hand 1) (some t)).page m o = R.page m o :=
      fun m => PageInv.page_setSingle_of_ne _ _ hne
    rw [← hback, ← hback, ← hm]
    exact (hrest o ho).trans (congrFun hg2 o)

end Stable

/-- The user page at `va`. -/
def PageAt (h : Root) (va : ℕ) : Root → ℕ → ℕ → Prop :=
  fun h' i j => h' = h ∧ i = PDX va ∧ j = PTX va

/-- **`mappages`** puts the page in hand 0 into the address space; it takes a page for the page
table if there is none. -/
theorem Stable.mappages {J : Kmem → Roots → Prop} (hJ : Stable top h J) (hj : J k R)
    (hd : R.root h = some d) (hva : va < KERNBASE) (hx : R.single (.hand 0) = some x)
    (hn : R.single (.hand 1) = none) (perm : ℕ) :
    Ends (mappages d va x perm) k fun ok k' => SameUsers R (PageAt h va) k k' ∧
      (ok = true → J k' (R.setSingle (.hand 0) none) ∧
        R.page k'.mem (.user h (PDX va) (PTX va)) = some x ∧
        R.page k'.mem (.tab h (PDX va)) ≠ none ∧
        (∀ i, i ≠ PDX va → R.page k'.mem (.tab h i) = R.page k.mem (.tab h i)) ∧
        avail k = avail k' + if R.page k.mem (.tab h (PDX va)) = none then 1 else 0) ∧
      (ok = false → J k' R ∧ R.page k.mem (.tab h (PDX va)) = none ∧ avail k = 0) := by
  have h5 := PDX_user hva
  rw [Kmem.mappages]
  refine (hJ.walkpgdir hj hd hva hn).bind fun r k1 hcases => ?_
  -- the table that is there now, and what was there before
  obtain ⟨hnone, rfl, havail, hj1, hm⟩ | ⟨t, rfl, hj1, ht, hrest, havail⟩ :
      (R.page k.mem (.tab h (PDX va)) = none ∧ r = none ∧ avail k = 0 ∧ J k1 R ∧
        k1.mem = k.mem) ∨
      ∃ t, r = some (t, PTX va) ∧ J k1 R ∧ R.page k1.mem (.tab h (PDX va)) = some t ∧
        (∀ o, o ≠ .tab h (PDX va) → R.page k1.mem o = R.page k.mem o) ∧
        avail k = avail k1 + if R.page k.mem (.tab h (PDX va)) = none then 1 else 0 := by
    rcases hcases with ⟨t, hr, rfl, ht⟩ | hfail | ⟨hnone, t, hr, ha, hj1, ht, hrest⟩
    · exact .inr ⟨t, hr, hj, ht, fun _ _ => rfl, by rw [ht, if_neg (by simp), Nat.add_zero]⟩
    · exact .inl hfail
    · exact .inr ⟨t, hr, hj1, ht, hrest, by rw [if_pos hnone, ha]⟩
  · exact ends_pure ⟨.of_page (by rw [hm]), by simp, fun _ => ⟨hj1, hnone, havail⟩⟩
  have hi1 := hJ.inv hj1
  refine ends_bind_gets ?_
  split
  · exact ends_stop
  rename_i hp
  obtain ⟨hw, hp', hpage⟩ := mkPte_spec perm
    ((hi1.range (.single (.hand 0)) x hx).trans_le hi1.top_le)
  have htab : ∀ i, R.page (update k1.mem t ((k1.mem t).setU32 (4 * PTX va) (mkPte x perm)))
      (.tab h i) = R.page k1.mem (.tab h i) := fun i => hi1.page_setTab ht (.tab h i) (by simp)
  refine ends_bind_modify (ends_pure ⟨fun h' i j hT => ?_, fun _ =>
    ⟨hJ.map hj1 ht h5 PTX_lt (if_neg hp) hx perm, ?_, ?_, fun i hi => ?_, havail⟩, by simp⟩)
  · refine (hi1.page_setTab ht _ fun he => hT ?_).trans (hrest _ (by simp))
    obtain ⟨rfl, rfl, rfl⟩ : h' = h ∧ i = PDX va ∧ j = PTX va := by simpa using he
    exact ⟨rfl, rfl, rfl⟩
  · rw [hi1.user_setTab ht h5 PTX_lt hw, if_pos hp', hpage]
  · rw [htab, ht]
    simp
  · rw [htab, hrest _ (by simpa using hi)]

/-- `mappages` that fails loses the page in hand. -/
theorem mappages_spec (hi : PageInv k R top) (hd : R.root h = some d) (hva : va < KERNBASE)
    (hx : R.single (.hand 0) = some x) (hn : R.single (.hand 1) = none) (perm : ℕ) :
    Ends (mappages d va x perm) k fun ok k' => PageInv k' (R.setSingle (.hand 0) none) top ∧
      SameUsers R (PageAt h va) k k' ∧
      (ok = true → R.page k'.mem (.user h (PDX va) (PTX va)) = some x) ∧
      (ok = false → PageInv k' R top) := by
  refine ((stable_pageInv top h).mappages hi hd hva hx hn perm).mono ?_
  rintro (_ | _) k' ⟨hu, htrue, hfalse⟩
  · have hi' := (hfalse rfl).1
    exact ⟨hi'.drop_single _, hu, by simp, fun _ => hi'⟩
  · exact ⟨(htrue rfl).1, hu, fun _ => (htrue rfl).2.1, by simp⟩

/-! ## Which pages are mapped -/

/-- The number of pages below `sz`, `PGROUNDUP(sz) / PGSIZE`. -/
def npages (sz : ℕ) : ℕ := (sz + PGSIZE - 1) / PGSIZE

/-- **No holes**: the first `n` pages of `h` are mapped, and no others. -/
def Upto (R : Roots) (k : Kmem) (h : Root) (n : ℕ) : Prop :=
  ∀ i < 512, ∀ j < 1024, R.page k.mem (.user h i j) ≠ none ↔ i * 1024 + j < n

/-- As `deallocuvm` goes on: of the first `n` pages those from `s` up to `b` are gone. -/
def Gap (R : Roots) (k : Kmem) (h : Root) (s b n : ℕ) : Prop :=
  ∀ i < 512, ∀ j < 1024, R.page k.mem (.user h i j) ≠ none ↔
    i * 1024 + j < n ∧ (i * 1024 + j < s ∨ b ≤ i * 1024 + j)

theorem page_number (va : ℕ) : PDX va * 1024 + PTX va = va / PGSIZE := by
  have hp := PGSIZE_eq
  have hn : NPTENTRIES = 1024 := rfl
  rw [PDX, PTX, hp, hn]
  omega

/-- The user page with the number of `va` is the one at `va`. -/
theorem pageAt_iff {i j : ℕ} (hj : j < 1024) :
    i * 1024 + j = va / PGSIZE ↔ i = PDX va ∧ j = PTX va := by
  have hlt : PTX va < 1024 := PTX_lt
  rw [← page_number]
  omega

theorem Upto.same {k' : Kmem} {T : Root → ℕ → ℕ → Prop} {m : ℕ} (hm : Upto R k h m)
    (hu : SameUsers R T k k') (hT : ∀ i j, ¬T h i j) : Upto R k' h m := by
  intro i hi j hj
  rw [hu h i j (hT i j)]
  exact hm i hi j hj

/-- The directory may be known under another name. -/
theorem Upto.congr {k' : Kmem} {h' : Root} {m : ℕ} (hm : Upto R k h m) (hr : R'.root h' = R.root h)
    (hu : ∀ i j, R.page k'.mem (.user h i j) = R.page k.mem (.user h i j)) : Upto R' k' h' m := by
  intro i hi j hj
  rw [SameUsers.page_user_congr hr, hu]
  exact hm i hi j hj

/-- One more page. -/
theorem Upto.add {k' : Kmem} (hm : Upto R k h (va / PGSIZE)) (hu : SameUsers R (PageAt h va) k k')
    (hx : R.page k'.mem (.user h (PDX va) (PTX va)) = some x) : Upto R k' h (va / PGSIZE + 1) := by
  intro i hi j hj
  by_cases hat : i * 1024 + j = va / PGSIZE
  · obtain ⟨rfl, rfl⟩ := (pageAt_iff hj).mp hat
    rw [hx, hat]
    exact iff_of_true (by simp) (Nat.lt_succ_self _)
  · rw [hu h i j fun hc => hat ((pageAt_iff hj).mpr hc.2), hm i hi j hj]
    omega

theorem Upto.gap {m : ℕ} (hm : Upto R k h m) (s : ℕ) : Gap R k h s s m := by
  intro i hi j hj
  rw [hm i hi j hj]
  omega

theorem Gap.upto {s m : ℕ} (hg : Gap R k h s m m) : Upto R k h (min m s) := by
  intro i hi j hj
  rw [hg i hi j hj]
  omega

/-- Nothing is mapped from `b` on. -/
theorem Gap.skip {s b b' m : ℕ} (hg : Gap R k h s b m) (hb : m ≤ b) (hb' : m ≤ b') :
    Gap R k h s b' m := by
  intro i hi j hj
  rw [hg i hi j hj]
  omega

/-- The page at the gap's end is not mapped, so nothing is from there on. -/
theorem Gap.le_of_none {s m : ℕ} (hg : Gap R k h s (va / PGSIZE) m) (h5 : PDX va < 512)
    (hnone : R.page k.mem (.user h (PDX va) (PTX va)) = none) : m ≤ va / PGSIZE := by
  have hiff := hg (PDX va) h5 (PTX va) PTX_lt
  rw [page_number, hnone] at hiff
  by_contra hlt
  exact hiff.mpr ⟨by omega, .inr le_rfl⟩ rfl

/-- The page at the gap's end is freed. -/
theorem Gap.free {k' : Kmem} {s m : ℕ} (hg : Gap R k h s (va / PGSIZE) m) (hs : s ≤ va / PGSIZE)
    (hgone : R.page k'.mem (.user h (PDX va) (PTX va)) = none)
    (hsame : ∀ o, o ≠ .user h (PDX va) (PTX va) → R.page k'.mem o = R.page k.mem o) :
    Gap R k' h s (va / PGSIZE + 1) m := by
  intro i hi j hj
  by_cases hat : i * 1024 + j = va / PGSIZE
  · obtain ⟨rfl, rfl⟩ := (pageAt_iff hj).mp hat
    rw [hgone, hat]
    refine iff_of_false (by simp) ?_
    omega
  · rw [hsame _ fun he => hat ?_, hg i hi j hj]
    · omega
    · obtain ⟨rfl, rfl⟩ : i = PDX va ∧ j = PTX va := by simpa using he
      exact page_number va

/-! ## Freeing -/

/-- `kfree` frees the page, unless it is no page of the allocator's. -/
theorem kfree_spec : Ends (kfree x) k fun _ k' => k.freed x = k' := by
  rcases hk : kfree x k with e | ⟨_, k'⟩
  · exact .of_error hk
  refine .of_ok hk ?_
  rw [kfree] at hk
  split at hk
  · cases hk
  · exact (Prod.mk.inj (Except.ok.inj hk)).2

/-- `kfree` takes no page of the kernel. -/
theorem kfree_low : Ends (kfree x) k fun _ _ => k.kend ≤ x := by
  rcases hk : kfree x k with e | ⟨_, k'⟩
  · exact .of_error hk
  refine .of_ok hk ?_
  rw [kfree] at hk
  split at hk
  · cases hk
  · omega

/-- What freeing pages leaves as it was: the free pages, and the contents of the single pages of
others. -/
structure Released (R : Roots) (k k' : Kmem) : Prop where
  free : ∀ x ∈ k.free, x ∈ k'.free
  mem : ∀ s x, (∀ n, s ≠ .hand n) → R.single s = some x → k'.mem x = k.mem x

namespace Released

theorem refl : Released R k k := ⟨fun _ h => h, fun _ _ _ _ => rfl⟩

theorem trans {k1 k2 : Kmem} (h1 : Released R k k1) (h2 : Released R k1 k2) : Released R k k2 :=
  ⟨fun x hx => h2.free x (h1.free x hx),
    fun s x hs hx => (h2.mem s x hs hx).trans (h1.mem s x hs hx)⟩

/-- `kfree` of a page that is not among those. -/
theorem freed (hx : ∀ s, (∀ n, s ≠ .hand n) → R.single s ≠ some x) : Released R k (k.freed x) := by
  refine ⟨fun y hy => mem_cons_of_mem x hy, fun s y hs hy => update_of_ne ?_ _ _⟩
  rintro rfl
  exact hx s hs hy

theorem write (hx : ∀ s, (∀ n, s ≠ .hand n) → R.single s ≠ some x) (b : Bytes PGSIZE) :
    Released R k { k with mem := update k.mem x b } := by
  refine ⟨fun _ hy => hy, fun s y hs hy => update_of_ne ?_ _ _⟩
  rintro rfl
  exact hx s hs hy

end Released

section Stable

variable {J : Kmem → Roots → Prop} {E : Stop → Prop} (hJ : Stable top h J)

include hJ

/-- The loop of `deallocuvm`. It skips over missing page tables, which is right as long as there are
no holes. -/
theorem Stable.deallocLoop {oldsz : ℕ} (hold : oldsz ≤ KERNBASE) (hd : R.root h = some d) :
    ∀ (n a : ℕ) {k : Kmem}, J k R → (∀ e, ¬0 < k.kend → E e) →
      Ends (deallocLoop d oldsz n a) k (fun _ k' =>
        J k' R ∧ Released R k k' ∧ SameUsers R (PagesOf h) k k' ∧
        ∀ s m, a % PGSIZE = 0 → s ≤ a / PGSIZE → oldsz ≤ a + n * PGSIZE → m ≤ npages oldsz →
          Gap R k h s (a / PGSIZE) m → Gap R k' h s m m) E := by
  have hp := PGSIZE_eq
  have hn : NPTENTRIES = 1024 := rfl
  -- at the end nothing is left
  have hend : ∀ {a : ℕ} {k : Kmem} {s m : ℕ}, oldsz ≤ a → a % PGSIZE = 0 → m ≤ npages oldsz →
      Gap R k h s (a / PGSIZE) m → Gap R k h s m m := by
    intro a k s m hle ha hm hg
    refine hg.skip ?_ le_rfl
    rw [npages, hp] at hm
    rw [hp] at ha ⊢
    omega
  intro n
  induction n with
  | zero =>
    intro a k hj _
    refine ends_pure ⟨hj, .refl, .refl, fun s m ha _ hle hm hg => hend ?_ ha hm hg⟩
    rwa [Nat.zero_mul, Nat.add_zero] at hle
  | succ n ih =>
    intro a k hj hE
    have hi := hJ.inv hj
    have hstep : (a + PGSIZE) / PGSIZE = a / PGSIZE + 1 := Nat.add_div_right a (by decide)
    have hfuel : oldsz ≤ a + (n + 1) * PGSIZE → oldsz ≤ a + PGSIZE + n * PGSIZE := by
      rw [hp]
      omega
    rw [Kmem.deallocLoop]
    split
    · rename_i ha
      have h5 : PDX a < 512 := PDX_user (ha.trans_le hold)
      refine walkpgdir_false.bind ?_
      rintro _ _ ⟨rfl, ⟨t, rfl, ht⟩ | ⟨rfl, hnone⟩⟩
      · refine ends_bind_gets ?_
        have htab : R.page k.mem (.tab h (PDX a)) = some t :=
          tab_eq_some.mpr ⟨h5.trans (by decide), d, hd, ht⟩
        obtain ⟨w, hw⟩ : ∃ w, w = k.word t (PTX a) := ⟨_, rfl⟩
        rw [← hw]
        split
        · rename_i hpres
          have hx : ent k.mem t (PTX a) = some (ptePage w) := by
            rw [hw] at hpres ⊢
            exact if_pos hpres
          obtain ⟨-, hgone, hsame⟩ := hi.free_user htab h5 PTX_lt hx rfl
          have huser := user_eq_some.mpr ⟨⟨h5, PTX_lt⟩, t, htab, hx⟩
          split
          · rename_i hzero
            exact ends_stop (hE _ fun hpos =>
              (hpos.trans_le (hi.low _ (.inr ⟨_, huser⟩))).ne' hzero)
          refine (kfree_used hi huser).bind ?_
          rintro _ _ rfl
          refine ends_bind_modify ((ih (a + PGSIZE) (hJ.unmap hj htab h5 PTX_lt hx) hE).mono ?_)
          rintro _ k' ⟨hi', hr, hu, hgap⟩
          refine ⟨hi', .trans (.trans (.freed fun s _ hs => ?_) (.write (fun s _ hs => ?_) _)) hr,
            .trans (fun h' i j hne => hsame _ fun he => hne ?_) hu,
            fun s m hal hs hle hm hg => ?_⟩
          · cases hi.inj _ (.single s) _ huser hs
          · cases hi.inj _ (.single s) _ htab hs
          · exact (by simpa using he : h' = h ∧ _).1
          · refine hgap s m ?_ ?_ (hfuel hle) hm ?_
            · rw [Nat.add_mod_right, hal]
            · rw [hstep]
              exact Nat.le_succ_of_le hs
            · rw [hstep]
              exact hg.free hs hgone hsame
        · rename_i hpres
          refine (ih (a + PGSIZE) hj hE).mono ?_
          rintro _ k' ⟨hi', hr, hu, hgap⟩
          refine ⟨hi', hr, hu, fun s m hal hs hle hm hg => ?_⟩
          have hunmapped : R.page k.mem (.user h (PDX a) (PTX a)) = none := by
            rw [Option.eq_none_iff_forall_not_mem]
            intro y hy
            obtain ⟨-, t', ht', hy⟩ := user_eq_some.mp hy
            obtain rfl : t = t' := Option.some.inj (htab.symm.trans ht')
            rw [hw] at hpres
            rw [show ent k.mem t (PTX a) = none from if_neg hpres] at hy
            cases hy
          have hle' := hg.le_of_none h5 hunmapped
          refine hgap s m ?_ ?_ (hfuel hle) hm (hg.skip hle' ?_)
          · rw [Nat.add_mod_right, hal]
          · rw [hstep]
            exact Nat.le_succ_of_le hs
          · rw [hstep]
            exact Nat.le_succ_of_le hle'
      · refine (ih _ hj hE).mono ?_
        rintro _ k' ⟨hi', hr, hu, hgap⟩
        refine ⟨hi', hr, hu, fun s m hal hs hle hm hg => ?_⟩
        have hunmapped : R.page k.mem (.user h (PDX a) (PTX a)) = none := by
          rw [Option.eq_none_iff_forall_not_mem]
          intro y hy
          obtain ⟨-, t', ht', -⟩ := user_eq_some.mp hy
          obtain ⟨-, d', hd', ht'⟩ := tab_eq_some.mp ht'
          obtain rfl : d = d' := Option.some.inj (hd.symm.trans hd')
          rw [hnone] at ht'
          cases ht'
        have hle' := hg.le_of_none h5 hunmapped
        have hskip : (a + NPTENTRIES * PGSIZE) / PGSIZE = a / PGSIZE + 1024 := by
          rw [hn, hp]
          omega
        refine hgap s m ?_ ?_ ?_ hm (hg.skip hle' ?_)
        · rw [Nat.add_mul_mod_self_right, hal]
        · rw [hskip]
          omega
        · rw [hn, hp] at *
          omega
        · rw [hskip]
          omega
    · rename_i ha
      exact ends_pure ⟨hj, .refl, .refl, fun s m hal _ _ hm hg => hend (not_lt.mp ha) hal hm hg⟩

variable {oldsz newsz : ℕ}

/-- **`deallocuvm`** -/
theorem Stable.deallocuvm (hold : oldsz ≤ KERNBASE) (hd : R.root h = some d) (hj : J k R)
    (hE : ∀ e, ¬0 < k.kend → E e) : Ends (deallocuvm d oldsz newsz) k (fun r k' =>
      J k' R ∧ Released R k k' ∧ SameUsers R (PagesOf h) k k' ∧ r = min oldsz newsz ∧
      ∀ m ≤ npages oldsz, Upto R k h m → Upto R k' h (min m (npages newsz))) E := by
  have hp := PGSIZE_eq
  rw [Kmem.deallocuvm]
  split
  · rename_i hge
    refine ends_pure ⟨hj, .refl, .refl, (min_eq_left hge).symm, fun m hm hu => ?_⟩
    rwa [min_eq_left]
    refine hm.trans ?_
    rw [npages, npages, hp]
    omega
  rename_i hlt
  refine (hJ.deallocLoop hold hd _ _ hj hE).bind ?_
  rintro _ k1 ⟨hi1, hr1, hu1, hgap⟩
  refine ends_pure ⟨hi1, hr1, hu1, (min_eq_right (not_le.mp hlt).le).symm, fun m hm hu => ?_⟩
  have hdiv : PGROUNDUP newsz / PGSIZE = npages newsz := Nat.mul_div_cancel _ (by decide)
  refine (hgap (npages newsz) m ?_ (le_of_eq hdiv.symm) ?_ hm ?_).upto
  · exact Nat.mul_mod_left ..
  · rw [hp]
    omega
  · rw [hdiv]
    exact hu.gap _

omit hJ in
theorem deallocuvm_spec (hold : oldsz ≤ KERNBASE) (hd : R.root h = some d) (hi : PageInv k R top) :
    Ends (deallocuvm d oldsz newsz) k fun r k' =>
      PageInv k' R top ∧ Released R k k' ∧ SameUsers R (PagesOf h) k k' ∧ r = min oldsz newsz ∧
      ∀ m ≤ npages oldsz, Upto R k h m → Upto R k' h (min m (npages newsz)) :=
  (stable_pageInv top h).deallocuvm hold hd hi fun _ _ => trivial

/-- The page tables of a directory that is taken apart. -/
theorem Stable.freeTables : ∀ (is : List ℕ) {k : Kmem} {R : Roots}, J k R → is.Nodup →
    (∀ i ∈ is, R.single (.hand i) = ent k.mem d i) → NPTENTRIES ∉ is →
    R.single (.hand NPTENTRIES) = some d →
    Ends (freeTables d is) k (fun _ k' => Released R k k' ∧ SameUsers R NoPage k k' ∧
      ∃ R' : Roots, J k' R' ∧ R'.root = R.root ∧
        ∀ s, R'.single s = if ∃ i ∈ is, s = .hand i then none else R.single s) E := by
  intro is
  induction is with
  | nil =>
    intro k R hj _ _ _ _
    exact ends_pure ⟨.refl, .refl, R, hj, rfl, fun s => by simp⟩
  | cons i is ih =>
    intro k R hj hnodup hall hnot hd
    have hi := hJ.inv hj
    obtain ⟨hi_is, hnodup⟩ := nodup_cons.mp hnodup
    have hin : i ≠ NPTENTRIES := fun he => hnot (by rw [he]; exact mem_cons_self)
    have hnot' : NPTENTRIES ∉ is := fun hm => hnot (mem_cons_of_mem _ hm)
    rw [Kmem.freeTables]
    refine ends_bind_gets ?_
    obtain ⟨w, hw⟩ : ∃ w, w = k.word d i := ⟨_, rfl⟩
    rw [← hw]
    split
    · rename_i hp
      have hx : R.single (.hand i) = some (ptePage w) := by
        rw [hall i mem_cons_self, hw] at *
        exact if_pos hp
      refine (kfree_used hi (o := .single (.hand i)) hx).bind ?_
      rintro _ _ rfl
      have hne : d ≠ ptePage w := by
        rintro he
        have := hi.inj (.single (.hand NPTENTRIES)) (.single (.hand i)) d hd (by rw [he]; exact hx)
        exact hin (by simpa using this.symm)
      refine (ih (hJ.free hj hx) hnodup ?_ hnot' ?_).mono ?_
      · intro i' hi'
        have hii : i' ≠ i := by
          rintro rfl
          exact hi_is hi'
        rw [freed, ent_update_ne hne, ← hall i' (mem_cons_of_mem _ hi')]
        simp [setSingle, hii]
      · simpa [setSingle, hin.symm] using hd
      rintro _ k' ⟨hr, hu, R', hj', hroot, hs⟩
      have hpage : R.page (k.freed (ptePage w)).mem = R.page k.mem := PageInv.page_freed
        (hi.not_isTable (o := .single (.hand i)) hx (fun _ => by simp) fun _ _ => by simp)
      refine ⟨.trans (.freed fun s hs' hx' => ?_) ⟨hr.free, fun s y hs' hy => ?_⟩,
        .trans (.of_page hpage) (hu.congr fun _ _ _ _ => rfl), R', hj', hroot,
        fun s => (hs s).trans ?_⟩
      · exact hs' i (by simpa using hi.inj (.single s) (.single (.hand i)) _ hx' hx)
      · exact hr.mem s y hs' (by simpa [setSingle, hs' i] using hy)
      · by_cases hsi : s = .hand i
        · simp [hsi, setSingle]
        · simp [hsi, setSingle]
    · rename_i hp
      refine (ih hj hnodup (fun i' hi' => hall i' (mem_cons_of_mem _ hi')) hnot' hd).mono ?_
      rintro _ k' ⟨hr, hu, R', hj', hroot, hs⟩
      refine ⟨hr, hu, R', hj', hroot, fun s => (hs s).trans ?_⟩
      by_cases hsi : s = .hand i
      · have hnone : R.single (.hand i) = none := by
          rw [hall i mem_cons_self]
          rw [hw] at hp
          exact if_neg hp
        simp [hsi, hnone]
      · simp [hsi]

end Stable

/-- The rest of `freevm`: the page tables and the directory. -/
theorem freeDir_spec (hi : PageInv k R top) (hd : R.root h = some d) (hs : R.HandsFree) :
    Ends (freeTables d (List.range NPTENTRIES) >>= fun _ => kfree d) k fun _ k' =>
      PageInv k' (R.setRoot h none) top ∧ Released R k k' ∧ SameUsers R (PagesOf h) k k' := by
  have hhand : ∀ i ∈ List.range NPTENTRIES,
      (R.apart k.mem h d).single (.hand i) = ent k.mem d i := by
    intro i hm
    have hlt := mem_range.mp hm
    simp [Roots.apart, hlt.ne, hlt]
  have hself : (R.apart k.mem h d).single (.hand NPTENTRIES) = some d := by simp [Roots.apart]
  refine ((stable_pageInv top h).freeTables _ (hi.apart hd) nodup_range hhand
    not_mem_range_self hself).bind ?_
  rintro _ k2 ⟨hr2, hu2, R2, hi2, hroot, hall⟩
  have hsingle : ∀ s, (∀ n, s ≠ .hand n) → R2.single s = (R.apart k.mem h d).single s :=
    fun s hs' => (hall s).trans (if_neg fun h => h.elim fun i hi => hs' i hi.2)
  have hd2 : R2.single (.hand NPTENTRIES) = some d := by
    rw [hall, if_neg (by simp), hself]
  refine kfree_spec.mono ?_
  rintro _ _ rfl
  have hpage : R2.page (k2.freed d).mem = R2.page k2.mem := PageInv.page_freed
    (hi2.not_isTable (o := .single (.hand NPTENTRIES)) hd2 (fun _ => by simp) fun _ _ => by simp)
  have happart : ∀ h', h' ≠ h → (R.apart k.mem h d).root h' = R.root h' :=
    fun h' hh => update_of_ne hh ..
  -- the tables and the directory are in hand, the pages of the others are not
  have hothers : ∀ s, (∀ n, s ≠ .hand n) → (R.apart k.mem h d).single s = R.single s := by
    intro s hs'
    cases s with
    | hand n => exact absurd rfl (hs' n)
    | kstack | pipe => rfl
  refine ⟨(hi2.free_hand hd2).forget ?_ ?_, .trans ⟨hr2.free, ?_⟩ (.freed ?_),
    .trans (hu2.none.congr fun h' _ _ hh => (happart h' hh).symm)
      ((SameUsers.of_page hpage).congr fun h' _ _ hh => ?_)⟩
  · intro s x hx
    have hnot : ∀ n, s ≠ .hand n := by
      rintro n rfl
      rw [setRoot, hs n] at hx
      cases hx
    simp only [setSingle, update_of_ne (hnot _), hsingle s hnot, hothers s hnot]
    exact hx
  · intro h' d' hd'
    rw [setSingle, hroot]
    exact hd'
  · intro s x hs' hx
    exact hr2.mem s x hs' ((hothers s hs').trans hx)
  · intro s hs' hx
    rw [← hothers s hs', ← hsingle s hs'] at hx
    exact hs' _ (by simpa using hi2.inj (.single s) (.single (.hand NPTENTRIES)) d hx hd2)
  · rw [hroot]
    exact (happart h' hh).symm

/-- **`freevm`** gives the whole address space back. -/
theorem freevm_spec (hi : PageInv k R top) (hd : R.root h = some d) (hs : R.HandsFree) :
    Ends (freevm d) k fun _ k' => PageInv k' (R.setRoot h none) top ∧ Released R k k' ∧
      SameUsers R (PagesOf h) k k' := by
  rw [freevm]
  split
  · exact ends_stop
  refine (deallocuvm_spec le_rfl hd hi).bind ?_
  rintro _ k1 ⟨hi1, hr1, hu1, -⟩
  exact (freeDir_spec hi1 hd hs).mono fun _ _ ⟨hk, hr, hu⟩ => ⟨hk, hr1.trans hr, hu1.trans hu⟩

/-! ## Building address spaces -/

/-- The entries `is` of the directory `d` have got their kernel tables; the other page tables of `d`
are as before. -/
structure NewTables (d : ℕ) (is : List ℕ) (k k' : Kmem) : Prop where
  new : ∀ i ∈ is, ∃ t, ent k'.mem d i = some t ∧ k'.mem t = kernelTable i
  old : ∀ i, i ∉ is → i < NPTENTRIES → ent k'.mem d i = ent k.mem d i ∧
    ∀ t, ent k.mem d i = some t → k'.mem t = k.mem t

/-- The kernel part of a directory. -/
theorem Stable.mapKernel {J : Kmem → Roots → Prop} {E : Stop → Prop} (hJ : Stable top h J) :
    ∀ (is : List ℕ) {k : Kmem}, J k R → R.root h = some d → R.single (.hand 1) = none → is.Nodup →
    (∀ i ∈ is, 512 ≤ i ∧ i < NPTENTRIES) → (∀ i ∈ is, ent k.mem d i = none) →
    Ends (mapKernel d is) k (fun ok k' => J k' R ∧
      SameUsers R NoPage k k' ∧ (ok = true → NewTables d is k k' ∧ avail k = avail k' + is.length) ∧
      (ok = false → avail k < is.length) ∧
      ∀ i < 512, R.page k'.mem (.tab h i) = R.page k.mem (.tab h i)) E := by
  intro is
  induction is with
  | nil =>
    intro k hj _ _ _ _ _
    exact ends_pure ⟨hj, .refl,
      fun _ => ⟨⟨by simp, fun _ _ _ => ⟨rfl, fun _ _ => rfl⟩⟩, rfl⟩, by simp, fun _ _ => rfl⟩
  | cons i is ih =>
    intro k hj hd hn hnodup hrange hnone
    obtain ⟨hi_is, hnodup⟩ := nodup_cons.mp hnodup
    obtain ⟨hge, hlt⟩ := hrange i mem_cons_self
    rw [Kmem.mapKernel]
    refine (hJ.kalloc hj hn).bind ?_
    rintro (_ | t) k1 ⟨hm, hfail, hgot⟩
    · obtain ⟨hj1, havail⟩ := hfail rfl
      refine ends_pure ⟨hj1, .of_page (by rw [hm]), by simp, fun _ => ?_, fun _ _ => by rw [hm]⟩
      rw [havail]
      exact Nat.succ_pos _
    obtain ⟨hj1, havail⟩ := hgot t rfl
    have hi1 := hJ.inv hj1
    refine ends_bind_modify (ends_bind_modify ?_)
    have ht : (R.setSingle (.hand 1) (some t)).single (.hand 1) = some t := by simp [setSingle]
    have htlt : t < NPAGES := (hi1.range (.single (.hand 1)) t ht).trans_le hi1.top_le
    have hj2 := hJ.write hj1 ht (kernelTable i)
    have hpage2 := (write_hand hi1 ht (kernelTable i)).2
    have htd : d ≠ t := by
      rintro rfl
      cases hi1.inj (.single (.hand 1)) (.dir h) d ht hd
    have hnone2 : ∀ i' ∈ i :: is, ent (update k1.mem t (kernelTable i)) d i' = none := by
      intro i' hi'
      rw [ent_update_ne htd, hm]
      exact hnone i' hi'
    have hempty : i < 512 → ∀ j, ent (update k1.mem t (kernelTable i)) t j = none :=
      fun h5 => absurd hge (by omega)
    have hj3 := hJ.install hj2 hd (hnone2 i mem_cons_self) hlt ht hempty fun _ => update_self ..
    obtain ⟨-, hrest⟩ := (hJ.inv hj2).page_setDir hd (hnone2 i mem_cons_self) hlt ht hempty 6 rfl
    rw [setSingle_back hn] at hj3
    -- the memory before the next round
    obtain ⟨m, hmem⟩ : ∃ m, m = update (update k1.mem t (kernelTable i)) d
      ((update k1.mem t (kernelTable i) d).setU32 (4 * i) (mkPte t 6)) := ⟨_, rfl⟩
    have hself : ent m d i = some t := by
      obtain ⟨hw, hp, hpage⟩ := mkPte_spec 6 htlt
      rw [hmem, ent_setWord_self hlt hw, if_pos hp, hpage]
    have hother : ∀ i', i' ≠ i → ent m d i' = ent k.mem d i' := by
      intro i' hii
      rw [hmem, ent_setWord_ne hii, ent_update_ne htd, hm]
    have htab : m t = kernelTable i := by
      rw [hmem, update_of_ne htd.symm, update_self]
    have hkept : ∀ i' t', i' < NPTENTRIES → ent k.mem d i' = some t' → m t' = k.mem t' := by
      intro i' t' hlt' ht'
      have huse : (R.setSingle (.hand 1) (some t)).page k1.mem (.tab h i') = some t' :=
        tab_eq_some.mpr ⟨hlt', d, hd, by rw [hm, ht']⟩
      have h1 : t' ≠ t := by
        rintro rfl
        cases hi1.inj _ (.single (.hand 1)) t' huse ht
      have h2 : t' ≠ d := by
        rintro rfl
        cases hi1.inj _ (.dir h) t' huse hd
      rw [hmem, update_of_ne h2, update_of_ne h1, hm]
    rw [← hmem] at hj3 hrest ⊢
    refine (ih hj3 hd hn hnodup (fun i' hi' => hrange i' (mem_cons_of_mem _ hi')) ?_).mono ?_
    · intro i' hi'
      rw [hother i' fun he => hi_is (he ▸ hi')]
      exact hnone i' (mem_cons_of_mem _ hi')
    rintro ok k' ⟨hj', hu', htrue, hfalse, hlow⟩
    -- the uses before the next round
    have hback : ∀ o, o ≠ .tab h i → o ≠ .single (.hand 1) → R.page m o = R.page k.mem o := by
      intro o ho ho1
      rw [← PageInv.page_setSingle_of_ne _ (some t) ho1, hrest o ho, ← hm]
      exact (congrFun hpage2 o).trans (PageInv.page_setSingle_of_ne _ _ ho1)
    refine ⟨hj', .trans (fun h' i' j _ => ?_) hu', fun hok =>
      ⟨⟨fun i' hi' => ?_, fun i' hi' hlt' => ?_⟩, ?_⟩, fun hok => ?_, fun i' hi' =>
      (hlow i' hi').trans (hback (.tab h i') (by simp; omega) (by simp))⟩
    · exact hback (.user h' i' j) (by simp) (by simp)
    · rcases mem_cons.mp hi' with rfl | hi'
      · obtain ⟨he, hmem'⟩ := (htrue hok).1.old i' hi_is hlt
        exact ⟨t, he.trans hself, (hmem' t hself).trans htab⟩
      · exact (htrue hok).1.new i' hi'
    · have hii : i' ≠ i := fun he => hi' (he ▸ mem_cons_self)
      obtain ⟨he, hmem'⟩ := (htrue hok).1.old i' (fun hm => hi' (mem_cons_of_mem _ hm)) hlt'
      exact ⟨he.trans (hother i' hii), fun t' ht' =>
        (hmem' t' ((hother i' hii).trans ht')).trans (hkept i' t' hlt' ht')⟩
    · have : avail k1 = _ := (htrue hok).2
      rw [havail, this, length_cons, Nat.add_assoc]
    · have : avail k1 < _ := hfalse hok
      rw [havail, length_cons]
      exact Nat.succ_lt_succ this

/-- **`setupkvm`**: a fresh directory, or nothing; where it fails half way it loses pages. -/
theorem Stable.setupkvm {J : Kmem → Roots → Prop} {E : Stop → Prop} (hJ : Stable top .fresh J)
    (hj : J k R) (hr : R.root .fresh = none) (hs : R.HandsFree) :
    Ends setupkvm k (fun r k' => SameUsers R NoPage k k' ∧
      (r = none → (avail k = 0 ∧ J k' R) ∨ ((1 ≤ avail k ∧ avail k < 65) ∧
        ∃ d, J k' (R.setRoot .fresh (some d)))) ∧
      ∀ d, r = some d → (J k' (R.setRoot .fresh (some d)) ∧
        (∀ i < 512, (R.setRoot .fresh (some d)).page k'.mem (.tab .fresh i) = none) ∧
        avail k = avail k' + 65) ∧ Upto (R.setRoot .fresh (some d)) k' .fresh 0 ∧
        (∀ i ∈ kmap, ∃ t, ent k'.mem d i = some t ∧ k'.mem t = kernelTable i) ∧
        ∀ i, i ∉ kmap → i < NPTENTRIES → ent k'.mem d i = none) E := by
  rw [Kmem.setupkvm]
  refine (hJ.kalloc hj (hs 0)).bind ?_
  rintro (_ | d) k1 ⟨hm, hfail, hgot⟩
  · exact ends_pure ⟨.of_page (by rw [hm]), fun _ => .inl (hfail rfl).symm, by simp⟩
  obtain ⟨hj1, havail⟩ := hgot d rfl
  have hd : (R.setSingle (.hand 0) (some d)).single (.hand 0) = some d := by simp [setSingle]
  have hpage2 := (write_hand (hJ.inv hj1) hd Bytes.zero).2
  have hempty : ∀ i, ent (update k1.mem d Bytes.zero) d i = none := fun i =>
    ent_zero (by rw [update_self]) i
  have hj3 := hJ.root (hJ.write hj1 hd Bytes.zero) hd hr hempty
  rw [setSingle_back (hs 0)] at hj3
  have hroot := root_setRoot R .fresh (some d)
  have hfresh : ∀ (m : ℕ → Bytes PGSIZE) i j, R.page m (.user .fresh i j) = none := by
    intro m i j
    simp [page, hr]
  refine ends_bind_modify ((hJ.mapKernel kmap hj3 hroot (hs 1) (by decide)
    (by decide) fun i _ => hempty i).bind ?_)
  rintro ok k' ⟨hj', hu', htrue, hfalse, hlow⟩
  have hu : SameUsers R NoPage k k' := by
    intro h i j _
    rcases eq_or_ne h .fresh with rfl | hh
    · rw [hfresh, hfresh]
    have hsame : (R.setRoot .fresh (some d)).root h = R.root h := update_of_ne hh ..
    have hcongr := SameUsers.page_user_congr hsame
    have huser := hu' h i j id
    rw [hcongr, hcongr] at huser
    rw [← hm]
    exact huser.trans (congrFun hpage2 (.user h i j))
  have hlen : kmap.length = 64 := by decide
  rw [hlen] at htrue hfalse
  cases ok
  · refine ends_pure ⟨hu, fun _ => .inr ⟨?_, d, hj'⟩, by simp⟩
    have : avail k1 < 64 := hfalse rfl
    omega
  refine ends_pure ⟨hu, by simp, fun d' hd' => ?_⟩
  obtain rfl : d = d' := Option.some.inj hd'
  obtain ⟨hnew, hcount⟩ := htrue rfl
  refine ⟨⟨hj', fun i hi => ?_, ?_⟩, fun i hi j hj => iff_of_false (fun hc => hc ?_)
    (Nat.not_lt_zero _), hnew.new, fun i hi hlt => (hnew.old i hi hlt).1.trans (hempty i)⟩
  · rw [hlow i hi]
    simp [page, hroot, hempty]
  · have : avail k1 = avail k' + 64 := hcount
    omega
  · rw [hu' .fresh i j id]
    simp [page, hroot, hempty]

theorem setupkvm_spec (hi : PageInv k R top) (hr : R.root .fresh = none) (hs : R.HandsFree) :
    Ends setupkvm k fun r k' => SameUsers R NoPage k k' ∧
      (r = none → PageInv k' R top) ∧
      ∀ d, r = some d → PageInv k' (R.setRoot .fresh (some d)) top ∧
        Upto (R.setRoot .fresh (some d)) k' .fresh 0 ∧
        (∀ i ∈ kmap, ∃ t, ent k'.mem d i = some t ∧ k'.mem t = kernelTable i) ∧
        ∀ i, i ∉ kmap → i < NPTENTRIES → ent k'.mem d i = none := by
  refine ((stable_pageInv top .fresh).setupkvm hi hr hs).mono ?_
  rintro r k' ⟨hu, hfail, hgot⟩
  refine ⟨hu, fun hnone => ?_, fun d hd => (hgot d hd).imp_left (·.1)⟩
  rcases hfail hnone with ⟨-, hi'⟩ | ⟨-, d, hi'⟩
  · exact hi'
  refine hi'.forget (fun _ _ h => h) fun h d' hd' => ?_
  have hh : h ≠ .fresh := by
    rintro rfl
    rw [hr] at hd'
    cases hd'
  simpa [setRoot, hh] using hd'

/-- Every page below `sz` is mapped. -/
def Mapped (R : Roots) (k : Kmem) (h : Root) (sz : ℕ) : Prop :=
  ∀ va < sz, ∃ x, R.page k.mem (.user h (PDX va) (PTX va)) = some x

/-- Addresses in the same page have the same entry. -/
theorem index_of_page {a : ℕ} (ha : va / PGSIZE = a / PGSIZE) : PDX va = PDX a ∧
    PTX va = PTX a := by
  rw [PDX, PDX, PTX, PTX, ← Nat.div_div_eq_div_mul, ← Nat.div_div_eq_div_mul, ha]
  exact ⟨rfl, rfl⟩

theorem Upto.mapped {sz : ℕ} (hu : Upto R k h (npages sz)) (hsz : sz ≤ KERNBASE) :
    Mapped R k h sz := by
  intro va hva
  have hp := PGSIZE_eq
  have h5 : PDX va < 512 := PDX_user (hva.trans_le hsz)
  refine Option.ne_none_iff_exists'.mp ((hu (PDX va) h5 (PTX va) PTX_lt).mpr ?_)
  rw [page_number, npages, hp]
  omega

/-- A page that `kalloc` gave is filled with `b` and mapped at `va`. -/
theorem mappages_new {k1 : Kmem} (hd : R.root h = some d) (hva : va < KERNBASE)
    (hs : R.HandsFree) (hm : k1.mem = k.mem)
    (hi : PageInv k1 (R.setSingle (.hand 0) (some x)) top) (b : Bytes PGSIZE) (perm : ℕ) :
    Ends (mappages d va x perm) { k1 with mem := update k1.mem x b } fun ok k' =>
      PageInv k' R top ∧ SameUsers R (PageAt h va) k k' ∧
      (ok = true → R.page k'.mem (.user h (PDX va) (PTX va)) = some x) ∧
      (ok = false → PageInv k' (R.setSingle (.hand 0) (some x)) top) := by
  have hx : (R.setSingle (.hand 0) (some x)).single (.hand 0) = some x := by simp [setSingle]
  have hx1 : (R.setSingle (.hand 0) (some x)).single (.hand 1) = none := by
    simpa [setSingle] using hs 1
  obtain ⟨hi2, hpage2⟩ := write_hand hi hx b
  refine (mappages_spec hi2 hd hva hx hx1 perm).mono ?_
  rintro ok k' ⟨hi', hu, hmap, hfail⟩
  rw [setSingle_back (hs 0)] at hi'
  refine ⟨hi', .trans (fun h' i j _ => ?_) (hu.congr fun _ _ _ _ => rfl), hmap, hfail⟩
  exact (congrFun hpage2 (.user h' i j)).trans (by rw [← hm]; rfl)

/-- The loop of `allocuvm`. -/
theorem allocLoop_spec (hnew : newsz < KERNBASE) (hd : R.root h = some d) (hs : R.HandsFree) :
    ∀ (n a : ℕ) {k : Kmem}, PageInv k R top →
      Ends (allocLoop d oldsz newsz n a) k fun r k' => PageInv k' R top ∧
        SameUsers R (PagesOf h) k k' ∧ (r = 0 ∨ r = newsz) := by
  intro n
  induction n with
  | zero => exact fun _ _ hi => ends_pure ⟨hi, .refl, .inr rfl⟩
  | succ n ih =>
    intro a k hi
    rw [allocLoop]
    split
    · rename_i hlt
      refine (kalloc_spec hi 0).bind ?_
      rintro (_ | x) k1 ⟨hm1, hfail, hgot⟩
      · refine (deallocuvm_spec hnew.le hd (hfail rfl)).bind ?_
        rintro _ k2 ⟨hi2, -, hu2, -⟩
        exact ends_pure ⟨hi2, .trans (.of_page (by rw [hm1])) hu2, .inl rfl⟩
      -- whether the page was mapped or lost, the others have theirs
      refine ends_bind_modify ((mappages_new hd (hlt.trans hnew) hs hm1 (hgot x rfl) _ 6).bind ?_)
      rintro _ k3 ⟨hi3, hu, -⟩
      refine (ih (a + PGSIZE) hi3).mono ?_
      rintro r k' ⟨hi', hu', hr⟩
      exact ⟨hi', (hu.mono fun _ _ _ hT => hT.1).trans hu', hr⟩
    · exact ends_pure ⟨hi, .refl, .inr rfl⟩

/-- **`allocuvm`** -/
theorem allocuvm_spec (hold : newsz < oldsz → oldsz < KERNBASE)
    (hd : R.root h = some d) (hs : R.HandsFree) (hi : PageInv k R top) :
    Ends (allocuvm d oldsz newsz) k fun r k' => PageInv k' R top ∧ SameUsers R (PagesOf h) k k' ∧
      (r = 0 ∨ r = max oldsz newsz ∧ r < KERNBASE) := by
  rw [allocuvm]
  split
  · exact ends_pure ⟨hi, .refl, .inl rfl⟩
  rename_i hnew
  split
  · rename_i hlt
    exact ends_pure ⟨hi, .refl, .inr ⟨(max_eq_left hlt.le).symm, hold hlt⟩⟩
  rename_i hge
  refine (allocLoop_spec (not_le.mp hnew) hd hs _ _ hi).mono ?_
  rintro r k' ⟨hi', hu', hr⟩
  refine ⟨hi', hu', hr.imp_right fun hr => ?_⟩
  rw [hr]
  exact ⟨(max_eq_right (not_lt.mp hge)).symm, not_le.mp hnew⟩

/-- The loop of `copyuvm`. -/
theorem copyLoop_spec {pgdir sz : ℕ} (hsz : sz ≤ KERNBASE) (hd : R.root h = some d)
    (hs : R.HandsFree) : ∀ (n a : ℕ) {k : Kmem}, PageInv k R top →
      Ends (copyLoop pgdir d sz n a) k fun ok k' => PageInv k' R top ∧
        SameUsers R (PagesOf h) k k' ∧ (ok = true → a % PGSIZE = 0 → sz ≤ a + n * PGSIZE →
          a / PGSIZE ≤ npages sz → Upto R k h (a / PGSIZE) → Upto R k' h (npages sz)) := by
  have hp := PGSIZE_eq
  have hend : ∀ {a : ℕ} {k : Kmem}, sz ≤ a → a % PGSIZE = 0 → a / PGSIZE ≤ npages sz →
      Upto R k h (a / PGSIZE) → Upto R k h (npages sz) := by
    intro a k hle ha hmax hu
    have heq : npages sz = a / PGSIZE := by
      rw [npages, hp] at *
      omega
    rwa [heq]
  intro n
  induction n with
  | zero =>
    intro a k hi
    refine ends_pure ⟨hi, .refl, fun _ ha hle => hend ?_ ha⟩
    rwa [Nat.zero_mul, Nat.add_zero] at hle
  | succ n ih =>
    intro a k hi
    rw [copyLoop]
    split
    · rename_i hlt
      refine walkpgdir_false.bind ?_
      rintro _ _ ⟨rfl, ⟨t, rfl, -⟩ | ⟨rfl, -⟩⟩
      · refine ends_bind_gets ?_
        obtain ⟨w, hw⟩ : ∃ w, w = k.word t (PTX a) := ⟨_, rfl⟩
        rw [← hw]
        split
        · refine (kalloc_spec hi 0).bind ?_
          rintro (_ | x) k1 ⟨hm1, hfail, hgot⟩
          · exact ends_pure ⟨hfail rfl, .of_page (by rw [hm1]), by simp⟩
          refine ends_bind_modify
            ((mappages_new hd (hlt.trans_le hsz) hs hm1 (hgot x rfl) _ _).bind ?_)
          rintro ok k3 ⟨hi3, hu, hmap, -⟩
          have hothers : SameUsers R (PagesOf h) k k3 := hu.mono fun _ _ _ hT => hT.1
          cases ok
          · exact ends_pure ⟨hi3, hothers, by simp⟩
          refine (ih _ hi3).mono ?_
          rintro ok k' ⟨hi', hu', hupto⟩
          refine ⟨hi', hothers.trans hu', fun hok ha hle hmax hm => ?_⟩
          have hstep : (a + PGSIZE) / PGSIZE = a / PGSIZE + 1 := Nat.add_div_right a (by decide)
          refine hupto hok ?_ ?_ ?_ ?_
          · rw [Nat.add_mod_right, ha]
          · rw [hp] at hle ⊢
            omega
          · rw [hstep, npages, hp] at *
            omega
          · rw [hstep]
            exact hm.add hu (hmap rfl)
        · exact ends_stop
      · exact ends_stop
    · rename_i hge
      exact ends_pure ⟨hi, .refl, fun _ ha _ => hend (not_lt.mp hge) ha⟩

/-- **`copyuvm`**: a fresh copy, or nothing. -/
theorem copyuvm_spec {pgdir sz : ℕ} (hsz : sz ≤ KERNBASE) (hi : PageInv k R top)
    (hr : R.root .fresh = none) (hs : R.HandsFree) :
    Ends (copyuvm pgdir sz) k fun r k' => SameUsers R NoPage k k' ∧ (r = none → PageInv k' R top) ∧
      ∀ d, r = some d → PageInv k' (R.setRoot .fresh (some d)) top ∧
        Upto (R.setRoot .fresh (some d)) k' .fresh (npages sz) := by
  rw [copyuvm]
  refine (setupkvm_spec hi hr hs).bind ?_
  rintro (_ | d) k1 ⟨hu1, hfail, hgot⟩
  · exact ends_pure ⟨hu1, hfail, by simp⟩
  have hroot := root_setRoot R .fresh (some d)
  obtain ⟨hi1, hupto1, -⟩ := hgot d rfl
  refine (copyLoop_spec hsz hroot hs _ _ hi1).bind ?_
  rintro ok k2 ⟨hi2, hu2, hupto2⟩
  cases ok
  · refine (freevm_spec hi2 hroot hs).bind ?_
    rintro _ k3 ⟨hi3, -, hu3⟩
    refine ends_pure ⟨hu1.trans ((hu2.trans hu3).of_fresh hr fun _ _ _ => .inl),
      fun _ => ?_, by simp⟩
    rwa [setRoot_back hr] at hi3
  refine ends_pure ⟨hu1.trans (hu2.of_fresh hr fun _ _ _ => .inl), by simp, fun d' hd' => ?_⟩
  obtain rfl : d = d' := Option.some.inj hd'
  have hp := PGSIZE_eq
  refine ⟨hi2, hupto2 rfl rfl ?_ (Nat.zero_le _) hupto1⟩
  rw [hp]
  omega

/-! ## How many pages are free

While the kernel starts, `kalloc` fails only when there is no page left. -/

/-- `m` takes at most `n` pages from the free list. -/
def Spends {α : Type} (n : ℕ) (m : Exec Stop Kmem α) : Prop :=
  ∀ k, Ends m k fun _ k' => k.oom = [] → k'.oom = [] ∧ k.free.length ≤ k'.free.length + n

theorem spends_kalloc : Spends 1 kalloc := by
  intro k
  rcases kalloc_cases k with ⟨hk, -⟩ | ⟨x, free, hf, hk, -⟩
  · exact .of_ok hk fun hoom => ⟨by simp [hoom], Nat.le_succ _⟩
  · exact .of_ok hk fun hoom => ⟨by simp [hoom], by simp [hf]⟩

/-- With a free page, `kalloc` does not fail. -/
theorem kalloc_some (k : Kmem) : Ends kalloc k fun r _ => k.oom = [] → k.free ≠ [] → r ≠ none := by
  rcases kalloc_cases k with ⟨hk, hnil, -⟩ | ⟨x, free, -, hk, -⟩
  · exact .of_ok hk fun hoom hfree => absurd (hnil hoom) hfree
  · exact .of_ok hk fun _ _ => by simp

section Spends

variable {α β : Type} {m : Exec Stop Kmem α} {f : α → Exec Stop Kmem β} {a b : ℕ}

theorem Spends.bind (hm : Spends a m) (hf : ∀ x, Spends b (f x)) : Spends (a + b) (m >>= f) := by
  intro k
  refine (hm k).bind fun x k1 h1 => (hf x k1).mono fun y k2 h2 hoom => ?_
  obtain ⟨hoom1, hle1⟩ := h1 hoom
  obtain ⟨hoom2, hle2⟩ := h2 hoom1
  exact ⟨hoom2, by omega⟩

theorem spends_pure {x : α} : Spends n (pure x : Exec Stop Kmem α) :=
  fun _ => ends_pure fun h => ⟨h, Nat.le_add_right ..⟩

theorem Spends.write {g : Kmem → ℕ → Bytes PGSIZE} {f : Unit → Exec Stop Kmem β}
    (hf : Spends b (f ())) : Spends b (.modify (fun k => { k with mem := g k }) >>= f) :=
  fun k => ends_bind_modify (hf { k with mem := g k })

end Spends

theorem spends_mapKernel : ∀ is, Spends is.length (mapKernel d is) := by
  intro is
  induction is with
  | nil => exact spends_pure
  | cons i is ih =>
    rw [mapKernel, length_cons, Nat.add_comm]
    refine spends_kalloc.bind fun r => ?_
    cases r with
    | none => exact spends_pure
    | some t => exact Spends.write (Spends.write ih)

theorem spends_setupkvm : Spends 65 setupkvm := by
  refine spends_kalloc.bind (b := 64) fun r => ?_
  cases r with
  | none => exact spends_pure
  | some d =>
    refine Spends.write ((spends_mapKernel kmap).bind (b := 0) fun ok => ?_)
    cases ok <;> exact spends_pure

/-- With a free page, `mappages` does not fail. -/
theorem mappages_true (k : Kmem) (d va x perm : ℕ) : Ends (mappages d va x perm) k fun ok _ =>
    k.oom = [] → k.free ≠ [] → ok = true := by
  have hwalk : Ends (walkpgdir d va true) k fun r _ => k.oom = [] → k.free ≠ [] → r ≠ none := by
    rw [walkpgdir]
    refine ends_bind_gets ?_
    split
    · exact ends_pure fun _ _ => by simp
    · refine (kalloc_some k).bind fun r k1 hr => ?_
      cases r with
      | none => exact ends_pure fun hoom hfree => absurd rfl (hr hoom hfree)
      | some t => exact ends_bind_modify (ends_bind_modify (ends_pure fun _ _ => by simp))
  rw [mappages]
  refine hwalk.bind fun r k1 hr => ?_
  rcases r with _ | ⟨t, j⟩
  · exact ends_pure fun hoom hfree => absurd rfl (hr hoom hfree)
  · refine ends_bind_gets ?_
    split
    · exact ends_stop
    · exact ends_bind_modify (ends_pure fun _ _ => rfl)

/-- **`inituvm`** maps the first page, if there are pages for it and its page table. -/
theorem inituvm_spec {init : List UInt8} (hi : PageInv k R top) (hd : R.root h = some d)
    (hs : R.HandsFree) :
    Ends (inituvm d init) k fun _ k' => PageInv k' R top ∧
      (k.oom = [] → 2 ≤ k.free.length → Upto R k h 0 → Upto R k' h 1) := by
  rw [inituvm]
  split
  · exact ends_stop
  refine ((kalloc_spec hi 0).and (spends_kalloc k)).bind ?_
  rintro (_ | x) k1 ⟨⟨hm1, hfail, hgot⟩, hspend⟩
  · exact ends_stop
  refine ends_bind_modify (((mappages_new hd (by decide) hs hm1 (hgot x rfl) _ 6).and
    (mappages_true ..)).bind ?_)
  rintro ok k3 ⟨⟨hi3, hu, hmap, hfail⟩, htrue⟩
  cases ok
  · -- the page is lost, and written to nevertheless
    have hx : (R.setSingle (.hand 0) (some x)).single (.hand 0) = some x := by simp [setSingle]
    obtain ⟨hi4, -⟩ := write_hand (hfail rfl) hx ((k3.mem x).splice 0 init)
    have hi5 := hi4.drop_single (.hand 0)
    rw [setSingle_back (hs 0)] at hi5
    refine ends_modify ⟨hi5, fun hoom hlen => absurd (htrue (hspend hoom).1 fun hnil => ?_)
      (by simp)⟩
    have := (hspend hoom).2
    rw [hnil, length_nil] at this
    omega
  have hx3 := hmap rfl
  have hnot := hi3.not_isTable hx3 (fun _ => by simp) fun _ _ => by simp
  have hwrite : R.page (update k3.mem x ((k3.mem x).splice 0 init)) = R.page k3.mem := by
    refine page_congr fun y hy => update_of_ne ?_ _ _
    rintro rfl
    exact hnot hy
  refine ends_modify ⟨hi3.write hnot _, fun _ _ hm => ?_⟩
  have hone : Upto R k3 h (0 / PGSIZE + 1) := Upto.add hm hu hx3
  exact hone.congr rfl fun i j => congrFun hwrite _

end Kmem

end Xv6
