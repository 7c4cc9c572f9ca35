import Xv6.VmRun

/-!
# The account of the pages

`kalloc` can fail at each of its calls, and what a function has taken until then must be given back
or be in use. `Acc` is the account that is kept on the way: every page that was free or in use
before is free or in use now, and the others' uses are the same. Each function of `vm.c` balances
it, as long as what it has taken is linked into the new directory, which `freevm` walks.

`Kmem.avail` counts the calls of `kalloc` that succeed, so that it can be said which one fails.
-/

namespace Xv6

open Function List

open Exec Roots

/-- The uses of the code that runs: the pages in hand, the directory that is built, and the kernel
stack of the slot `np`. -/
def Mine (np : ℕ) : PageUse → Prop
  | .single (.hand _) => True
  | .single (.kstack p) => p = np
  | .dir h | .tab h _ | .user h _ _ => h = .fresh
  | _ => False

/-- Only pages of the running code have been written to. -/
structure WritesOwn (np : ℕ) (R : Roots) (k k' : Kmem) : Prop where
  kend : k'.kend = k.kend
  mem : ∀ y, (∀ o, Mine np o → R.page k.mem o ≠ some y) → k'.mem y = k.mem y

/-- **The account**: since the memory was `k0` and in use as `R0` says, the uses of the others have
not changed, nor has what is in their pages; and if `A` says so, no page has been lost or won. -/
structure Acc (A : Prop) (np : ℕ) (k0 : Kmem) (R0 : Roots) (k : Kmem) (R : Roots) : Prop where
  inv : PageInv k R NPAGES
  all : A → ∀ x, (x ∈ k.free ∨ ∃ o, R.page k.mem o = some x) ↔
    (x ∈ k0.free ∨ ∃ o, R0.page k0.mem o = some x)
  others : ∀ o, ¬Mine np o → R.page k.mem o = R0.page k0.mem o
  kend : k.kend = k0.kend
  kept : ∀ o y, ¬Mine np o → R0.page k0.mem o = some y → k.mem y = k0.mem y

namespace WritesOwn

variable {np : ℕ} {k k' : Kmem} {R : Roots} {x : ℕ} {o : PageUse}

theorem of_mem (hk : k'.kend = k.kend) (hm : k'.mem = k.mem) : WritesOwn np R k k' :=
  ⟨hk, fun _ _ => by rw [hm]⟩

theorem write {b : Bytes PGSIZE} (ho : Mine np o) (hx : R.page k.mem o = some x)
    (hk : k'.kend = k.kend) (hm : k'.mem = update k.mem x b) : WritesOwn np R k k' := by
  refine ⟨hk, fun y hy => ?_⟩
  rw [hm]
  refine update_of_ne ?_ ..
  rintro rfl
  exact hy o ho hx

end WritesOwn

namespace Acc

variable {A : Prop} {np : ℕ} {k0 k k' : Kmem} {R0 R R' : Roots} {x n : ℕ} {u v : PageUse}

theorem start (np : ℕ) (hi : PageInv k R NPAGES) : Acc A np k R k R :=
  ⟨hi, fun _ _ => Iff.rfl, fun _ _ => rfl, rfl, fun _ _ _ _ => rfl⟩

section

variable (h : Acc A np k0 R0 k R)

include h

/-- What is in the pages of others is still there. -/
theorem keep (hk : WritesOwn np R k k') (o : PageUse) (y : ℕ) (ho : ¬Mine np o)
    (hy : R0.page k0.mem o = some y) : k'.mem y = k0.mem y := by
  refine (hk.mem y fun o' ho' hy' => ho ?_).trans (h.kept o y ho hy)
  rwa [h.inv.inj o o' y ((h.others o ho).trans hy) hy']

theorem same (hi : PageInv k' R' NPAGES) (hf : k'.free = k.free)
    (hk : WritesOwn np R k k') (hp : R'.page k'.mem = R.page k.mem) : Acc A np k0 R0 k' R' := by
  refine ⟨hi, fun ha x => ?_, fun o ho => ?_, hk.kend.trans h.kend, h.keep hk⟩
  · rw [hf, hp]
    exact h.all ha x
  · rw [hp]
    exact h.others o ho

/-- A page goes from one use to another. -/
theorem swap (hi : PageInv k' R' NPAGES) (hf : k'.free = k.free)
    (hk : WritesOwn np R k k') (hm1 : Mine np u) (hm2 : Mine np v) (h1 : R'.page k'.mem u = some x)
    (h2 : R.page k.mem v = some x) (hnone : R.page k.mem u = none) (hgone : R'.page k'.mem v = none)
    (hrest : ∀ o, o ≠ u → o ≠ v → R'.page k'.mem o = R.page k.mem o) : Acc A np k0 R0 k' R' := by
  refine ⟨hi, fun ha y => Iff.trans ?_ (h.all ha y), fun o ho => ?_,
    hk.kend.trans h.kend, h.keep hk⟩
  · rw [hf]
    refine or_congr_right ⟨?_, ?_⟩
    · rintro ⟨o, ho⟩
      by_cases hu : o = u
      · exact ⟨v, by rw [h2, ← h1, ← hu, ho]⟩
      have hv : o ≠ v := by
        rintro rfl
        rw [hgone] at ho
        cases ho
      exact ⟨o, by rw [← hrest o hu hv, ho]⟩
    rintro ⟨o, ho⟩
    by_cases hv : o = v
    · exact ⟨u, by rw [h1, ← h2, ← hv, ho]⟩
    have hu : o ≠ u := by
      rintro rfl
      rw [hnone] at ho
      cases ho
    exact ⟨o, by rw [hrest o hu hv, ho]⟩
  · rw [hrest o (fun he => ho (he ▸ hm1)) fun he => ho (he ▸ hm2)]
    exact h.others o ho

/-- A page is freed. -/
theorem release (hi : PageInv k' R' NPAGES) (hf : k'.free = x :: k.free)
    (hk : WritesOwn np R k k') (hm2 : Mine np v) (h2 : R.page k.mem v = some x)
    (hgone : R'.page k'.mem v = none)
    (hrest : ∀ o, o ≠ v → R'.page k'.mem o = R.page k.mem o) : Acc A np k0 R0 k' R' := by
  refine ⟨hi, fun ha y => Iff.trans ?_ (h.all ha y), fun o ho => ?_,
    hk.kend.trans h.kend, h.keep hk⟩
  · rw [hf, mem_cons, or_assoc, or_left_comm]
    refine or_congr_right ⟨?_, ?_⟩
    · rintro (rfl | ⟨o, ho⟩)
      · exact ⟨v, h2⟩
      · have hv : o ≠ v := by
          rintro rfl
          rw [hgone] at ho
          cases ho
        exact ⟨o, by rw [← hrest o hv, ho]⟩
    rintro ⟨o, ho⟩
    by_cases hv : o = v
    · rw [hv, h2] at ho
      exact .inl (Option.some.inj ho).symm
    · exact .inr ⟨o, by rw [hrest o hv, ho]⟩
  · rw [hrest o fun he => ho (he ▸ hm2)]
    exact h.others o ho

/-- A page is taken from the free list. -/
theorem take {free : List ℕ} (hf : k.free = x :: free)
    (hn : R.single (.hand n) = none) (oom : List Bool) :
    Acc A np k0 R0 { k with free := free, oom := oom } (R.setSingle (.hand n) (some x)) := by
  have hother : ∀ o, o ≠ .single (.hand n) →
      (R.setSingle (.hand n) (some x)).page k.mem o = R.page k.mem o :=
    fun o ho => PageInv.page_setSingle_of_ne _ _ ho
  have hself : (R.setSingle (.hand n) (some x)).page k.mem (.single (.hand n)) = some x :=
    PageInv.page_setSingle_self ..
  refine ⟨h.inv.take hf oom, fun ha y => Iff.trans ?_ (h.all ha y), fun o ho => ?_, h.kend, h.kept⟩
  · rw [hf, mem_cons, or_assoc, or_left_comm]
    refine or_congr_right ⟨?_, ?_⟩
    · rintro ⟨o, ho⟩
      by_cases hon : o = .single (.hand n)
      · rw [hon, hself] at ho
        exact .inl (Option.some.inj ho).symm
      · exact .inr ⟨o, by rw [← hother o hon, ho]⟩
    rintro (rfl | ⟨o, ho⟩)
    · exact ⟨_, hself⟩
    · have hon : o ≠ .single (.hand n) := by
        rintro rfl
        rw [show R.page k.mem (.single (.hand n)) = R.single (.hand n) from rfl, hn] at ho
        cases ho
      exact ⟨o, by rw [hother o hon, ho]⟩
  · rw [hother o fun he => ho (he ▸ trivial)]
    exact h.others o ho

end

/-- **The balance**: when nothing is in use by the running code any more, the same pages are
free. -/
theorem free_iff (h : Acc True np k0 R0 k R0) (hi : PageInv k0 R0 NPAGES)
    (hnone : ∀ m o, Mine np o → R0.page m o = none) (x : ℕ) : x ∈ k.free ↔ x ∈ k0.free := by
  have hused : ∀ o, R0.page k.mem o = R0.page k0.mem o := by
    intro o
    by_cases ho : Mine np o
    · rw [hnone _ o ho, hnone _ o ho]
    · exact h.others o ho
  constructor
  · intro hx
    rcases (h.all trivial x).mp (.inl hx) with hx' | ⟨o, ho⟩
    · exact hx'
    · exact absurd hx (h.inv.free o x (by rw [hused, ho]))
  · intro hx
    rcases (h.all trivial x).mpr (.inl hx) with hx' | ⟨o, ho⟩
    · exact hx'
    · exact absurd hx (hi.free o x (by rw [← hused, ho]))

/-- What the code that runs has taken was free when it started. -/
theorem was_free {o : PageUse} (h : Acc True np k0 R0 k R)
    (hnone : ∀ o, Mine np o → R0.page k0.mem o = none) (hm : Mine np o)
    (hx : R.page k.mem o = some x) : x ∈ k0.free := by
  rcases (h.all trivial x).mp (.inr ⟨o, hx⟩) with hfree | ⟨o', ho'⟩
  · exact hfree
  have hm' : ¬Mine np o' := by
    intro hm'
    rw [hnone o' hm'] at ho'
    cases ho'
  rw [← h.others o' hm'] at ho'
  exact absurd (h.inv.inj o' o x ho' hx ▸ hm) hm'

/-- A page in use is not page 0, which is a page of the kernel. -/
theorem pos {o : PageUse} (h : Acc A np k0 R0 k R) (ho : R.page k.mem o = some x)
    (hpos : 0 < k0.kend) : 0 < x :=
  hpos.trans_le (h.kend ▸ h.inv.low x (.inr ⟨o, ho⟩))

end Acc

namespace Kmem

variable {A : Prop} {np : ℕ} {k0 k : Kmem} {R0 R : Roots} {d x va n : ℕ} {E : Stop → Prop}

/-- The pages of tables below the kernel part that the first `n` user pages need. -/
def Tabs (R : Roots) (k : Kmem) (n : ℕ) : Prop :=
  ∀ i < 512, R.page k.mem (.tab .fresh i) ≠ none ↔ i * 1024 < n

section

variable (h : Acc A np k0 R0 k R)

include h

/-- Writing to a page in hand. -/
theorem Acc.write_hand (hx : R.single (.hand n) = some x) (b : Bytes PGSIZE) :
    Acc A np k0 R0 { k with mem := update k.mem x b } R := by
  obtain ⟨hi', hpage⟩ := Kmem.write_hand h.inv hx b
  exact h.same hi' rfl (.write (o := .single (.hand n)) trivial hx rfl rfl) hpage

/-- A page in hand is entered in the new directory. -/
theorem Acc.install {i : ℕ} (hd : R.root .fresh = some d)
    (hnone : ent k.mem d i = none) (hlt : i < NPTENTRIES) (hx : R.single (.hand n) = some x)
    (hempty : i < 512 → ∀ j, ent k.mem x j = none)
    (hkern : 512 ≤ i → k.mem x = kernelTable i) {m' : ℕ → Bytes PGSIZE}
    (hm' : m' = update k.mem d ((k.mem d).setU32 (4 * i) (mkPte x 6))) :
    Acc A np k0 R0 { k with mem := m' } (R.setSingle (.hand n) none) ∧
      R.page m' (.tab .fresh i) = some x ∧ ∀ o, o ≠ .tab .fresh i →
        R.page m' o = R.page k.mem o := by
  obtain ⟨hnew, hrest⟩ := h.inv.page_setDir hd hnone hlt hx hempty 6 hm'
  have hi := h.inv.install_tab hd hnone hlt hx hempty hkern 6
  rw [← hm'] at hi
  refine ⟨h.swap hi rfl (.write (o := .dir .fresh) rfl hd rfl hm') (u := .tab .fresh i)
    (v := .single (.hand n)) rfl trivial ?_ hx ?_ (PageInv.page_setSingle_self ..)
    fun o ho1 ho2 => ?_, hnew, hrest⟩
  · rw [PageInv.page_setSingle_of_ne _ _ (by simp)]
    exact hnew
  · simp [page, hd, hnone]
  · rw [PageInv.page_setSingle_of_ne _ _ ho2]
    exact hrest o ho1

/-- A page in hand is freed. -/
theorem Acc.free_hand (hx : R.single (.hand n) = some x) :
    Acc A np k0 R0 (k.freed x) (R.setSingle (.hand n) none) := by
  have hpage : R.page (k.freed x).mem = R.page k.mem := PageInv.page_freed
    (h.inv.not_isTable (o := .single (.hand n)) hx (fun _ => by simp) fun _ _ => by simp)
  refine h.release (v := .single (.hand n)) (h.inv.free_hand hx) rfl
    (.write (o := .single (.hand n)) trivial hx rfl rfl) trivial hx
    (PageInv.page_setSingle_self ..) fun o ho => ?_
  rw [PageInv.page_setSingle_of_ne _ _ ho, hpage]

omit h in
/-- **The account is kept** as the new directory is built or taken apart. -/
theorem Acc.stable : Stable NPAGES .fresh (Acc A np k0 R0) where
  inv h := h.inv
  oom h _ := h.same (pageInv_oom h.inv _) rfl (.of_mem rfl rfl) rfl
  take h hf hn oom := h.take hf hn oom
  write h hx b := Acc.write_hand h hx b
  root h hd hr hempty := h.swap (u := .dir .fresh) (v := .single (.hand _))
    (h.inv.root_of_hand hd hr hempty) rfl (.of_mem rfl rfl) rfl trivial
    (by simp [page, setRoot]) hd hr (by simp [page, setRoot, setSingle])
    (PageInv.page_root_of_hand hr hempty)
  install h hd hnone hlt hx hempty hkern := (Acc.install h hd hnone hlt hx hempty hkern rfl).1
  map {k R t i j x} h ht hi5 hj hnone hx perm := by
    obtain ⟨hw, hp', hpage⟩ := mkPte_spec perm
      ((h.inv.range (.single (.hand 0)) x hx).trans_le h.inv.top_le)
    refine h.swap (u := .user .fresh i j) (v := .single (.hand 0))
      (h.inv.install_user ht hi5 hj hx perm) rfl (.write (o := .tab .fresh i) rfl ht rfl rfl) rfl
      trivial ?_ hx ?_ (PageInv.page_setSingle_self ..) fun o ho1 ho2 => ?_
    · rw [PageInv.page_setSingle_of_ne _ _ (by simp), h.inv.user_setTab ht hi5 hj hw, if_pos hp',
        hpage]
    · rw [Option.eq_none_iff_forall_not_mem]
      intro y hy
      obtain ⟨-, t', ht', hy⟩ := user_eq_some.mp hy
      obtain rfl : t = t' := Option.some.inj (ht.symm.trans ht')
      rw [hnone] at hy
      cases hy
    · rw [PageInv.page_setSingle_of_ne _ _ ho2]
      exact h.inv.page_setTab ht o ho1
  free h hx := Acc.free_hand h hx
  unmap {k R t i j x} h ht hi5 hj hx := by
    have huser := user_eq_some.mpr ⟨⟨hi5, hj⟩, t, ht, hx⟩
    obtain ⟨hfree, hgone, hsame⟩ := h.inv.free_user ht hi5 hj hx rfl
    refine h.release hfree rfl ⟨rfl, fun y hy => ?_⟩ (v := .user .fresh i j) rfl huser hgone hsame
    refine (update_of_ne ?_ ..).trans (update_of_ne ?_ ..)
    · rintro rfl
      exact hy (.tab .fresh i) rfl ht
    · rintro rfl
      exact hy (.user .fresh i j) rfl huser

/-- **`mappages`** in the new directory, page by page: it fails if a page table is needed and it is
its turn. -/
theorem mappages_acc (hd : R.root .fresh = some d) (hva : va < KERNBASE)
    (hx : R.single (.hand 0) = some x) (hn : R.single (.hand 1) = none)
    (ht : Tabs R k (va / PGSIZE)) (perm : ℕ) : Ends (mappages d va x perm) k fun ok k' =>
      (ok = true → Acc A np k0 R0 k' (R.setSingle (.hand 0) none) ∧ Tabs R k' (va / PGSIZE + 1) ∧
        avail k = avail k' + if va / PGSIZE % 1024 = 0 then 1 else 0) ∧
      (ok = false → va / PGSIZE % 1024 = 0 ∧ avail k = 0) := by
  have h5 := PDX_user hva
  have hnum := page_number va
  have hptx : PTX va < 1024 := PTX_lt
  have hmod : R.page k.mem (.tab .fresh (PDX va)) = none ↔ va / PGSIZE % 1024 = 0 := by
    rw [← not_iff_not, ← ne_eq, ht _ h5]
    omega
  refine (Acc.stable.mappages h hd hva hx hn perm).mono ?_
  rintro ok k' ⟨-, htrue, hfalse⟩
  rw [hmod] at hfalse
  refine ⟨fun hok => ?_, fun hok => (hfalse hok).2⟩
  obtain ⟨h', -, htab, hrest, havail⟩ := htrue hok
  refine ⟨h', fun i hi => ?_, by simpa only [hmod] using havail⟩
  by_cases hi' : i = PDX va
  · rw [hi']
    exact iff_of_true htab (by omega)
  · rw [hrest i hi', ht i hi]
    omega

end

/-- **`setupkvm`**: a fresh directory, or nothing; where it fails half way it loses pages. -/
theorem setupkvm_acc (h : Acc A np k0 R0 k R) (hr : R.root .fresh = none)
    (hs : R.HandsFree) : Ends setupkvm k (fun r k' =>
      (r = none → (avail k = 0 ∧ Acc A np k0 R0 k' R) ∨ ((1 ≤ avail k ∧ avail k < 65) ∧
        ∃ d, Acc A np k0 R0 k' (R.setRoot .fresh (some d)))) ∧
      ∀ d, r = some d → Acc A np k0 R0 k' (R.setRoot .fresh (some d)) ∧
        Tabs (R.setRoot .fresh (some d)) k' 0 ∧ avail k = avail k' + 65) E := by
  refine (Acc.stable.setupkvm h hr hs).mono ?_
  rintro r k' ⟨-, hfail, hgot⟩
  refine ⟨hfail, fun d hd => ?_⟩
  obtain ⟨⟨h', htabs, havail⟩, -⟩ := hgot d hd
  exact ⟨h', fun i hi => iff_of_false (fun hc => hc (htabs i hi)) (Nat.not_lt_zero _), havail⟩

/-! ## Giving everything back -/

/-- `deallocuvm` in the new directory. -/
theorem deallocuvm_acc {oldsz newsz : ℕ} (hold : oldsz ≤ KERNBASE) (hd : R.root .fresh = some d)
    (h : Acc A np k0 R0 k R) : Ends (deallocuvm d oldsz newsz) k (fun _ k' => Acc A np k0 R0 k' R)
      fun _ => ¬0 < k0.kend :=
  (Acc.stable.deallocuvm hold hd h fun _ hpos => h.kend ▸ hpos).mono fun _ _ h' => h'.1

/-- The directory is taken apart when no user page is left. -/
theorem Acc.apart (h : Acc A np k0 R0 k R) (hd : R.root .fresh = some d)
    (hs : R.HandsFree) (hu : A → Upto R k .fresh 0) :
    Acc A np k0 R0 k (R.apart k.mem .fresh d) := by
  have hfresh : (R.apart k.mem .fresh d).root .fresh = none := by simp [Roots.apart]
  have hroot : ∀ h', h' ≠ .fresh → (R.apart k.mem .fresh d).root h' = R.root h' :=
    fun h' hh => update_of_ne hh ..
  have htab : ∀ h' i, h' ≠ .fresh →
      (R.apart k.mem .fresh d).page k.mem (.tab h' i) = R.page k.mem (.tab h' i) := by
    intro h' i hh
    simp only [page, hroot h' hh]
  have huser : ∀ h' i j, h' ≠ .fresh →
      (R.apart k.mem .fresh d).page k.mem (.user h' i j) = R.page k.mem (.user h' i j) := by
    intro h' i j hh
    simp only [page, hroot h' hh]
  have hnouser : A → ∀ i j, R.page k.mem (.user .fresh i j) = none := by
    intro ha i j
    by_cases hij : i < 512 ∧ j < 1024
    · by_contra hc
      exact absurd ((hu ha i hij.1 j hij.2).mp hc) (Nat.not_lt_zero _)
    · simp only [page]
      exact if_neg hij
  refine ⟨h.inv.apart hd, fun ha x => Iff.trans (or_congr_right ⟨?_, ?_⟩) (h.all ha x),
    fun o ho => ?_, h.kend, h.kept⟩
  · rintro ⟨o, ho⟩
    cases o with
    | single s =>
      cases s with
      | hand n =>
        simp only [page, Roots.apart] at ho
        split at ho
        · exact ⟨.dir .fresh, hd.trans ho⟩
        · split at ho
          · exact ⟨.tab .fresh n, tab_eq_some.mpr ⟨‹_›, d, hd, ho⟩⟩
          · cases ho
      | kstack p => exact ⟨.single (.kstack p), ho⟩
      | pipe p => exact ⟨.single (.pipe p), ho⟩
    | dir h' =>
      rcases eq_or_ne h' .fresh with rfl | hh
      · cases hfresh.symm.trans ho
      · exact ⟨.dir h', (hroot h' hh).symm.trans ho⟩
    | tab h' i =>
      rcases eq_or_ne h' .fresh with rfl | hh
      · simp [page, hfresh] at ho
      · exact ⟨.tab h' i, (htab h' i hh).symm.trans ho⟩
    | user h' i j =>
      rcases eq_or_ne h' .fresh with rfl | hh
      · simp [page, hfresh] at ho
      · exact ⟨.user h' i j, (huser h' i j hh).symm.trans ho⟩
  · rintro ⟨o, ho⟩
    cases o with
    | single s =>
      cases s with
      | hand n => cases (hs n).symm.trans ho
      | kstack p => exact ⟨.single (.kstack p), ho⟩
      | pipe p => exact ⟨.single (.pipe p), ho⟩
    | dir h' =>
      rcases eq_or_ne h' .fresh with rfl | hh
      · obtain rfl := Option.some.inj (hd.symm.trans ho)
        exact ⟨.single (.hand NPTENTRIES), by simp [page, Roots.apart]⟩
      · exact ⟨.dir h', (hroot h' hh).trans ho⟩
    | tab h' i =>
      rcases eq_or_ne h' .fresh with rfl | hh
      · obtain ⟨hlt, d', hd', hx⟩ := tab_eq_some.mp ho
        obtain rfl := Option.some.inj (hd.symm.trans hd')
        exact ⟨.single (.hand i), by simpa [page, Roots.apart, hlt.ne, hlt] using hx⟩
      · exact ⟨.tab h' i, (htab h' i hh).trans ho⟩
    | user h' i j =>
      rcases eq_or_ne h' .fresh with rfl | hh
      · cases (hnouser ha i j).symm.trans ho
      · exact ⟨.user h' i j, (huser h' i j hh).trans ho⟩
  · rw [← h.others o ho]
    cases o with
    | single s =>
      cases s with
      | hand n => exact absurd trivial ho
      | kstack | pipe => rfl
    | dir h' => exact hroot h' ho
    | tab h' i => exact htab h' i ho
    | user h' i j => exact huser h' i j ho

/-- **`freevm`** gives back everything that is linked into the directory. -/
theorem freevm_acc (h : Acc A np k0 R0 k R) (hd : R.root .fresh = some d) (hs : R.HandsFree)
    (hu : A → ∃ m ≤ npages KERNBASE, Upto R k .fresh m) :
    Ends (freevm d) k (fun _ k' => Acc A np k0 R0 k' (R.setRoot .fresh none)) fun _ =>
      ¬0 < k0.kend := by
  rw [freevm]
  split
  · rename_i hzero
    exact ends_stop fun hpos => (h.pos (o := .dir .fresh) hd hpos).ne' hzero
  refine ((deallocuvm_acc le_rfl hd h).and (deallocuvm_spec le_rfl hd h.inv)).bind ?_
  rintro _ k1 ⟨h1, -, -, -, -, hupto⟩
  have hu1 : A → Upto R k1 .fresh 0 := by
    intro ha
    obtain ⟨m, hm, hu⟩ := hu ha
    have := hupto m hm hu
    rwa [show npages 0 = 0 from rfl, Nat.min_zero] at this
  have hhand : ∀ i ∈ List.range NPTENTRIES,
      (R.apart k1.mem .fresh d).single (.hand i) = ent k1.mem d i := by
    intro i hi
    have hlt := mem_range.mp hi
    simp [Roots.apart, hlt.ne, hlt]
  have hself : (R.apart k1.mem .fresh d).single (.hand NPTENTRIES) = some d := by
    simp [Roots.apart]
  refine (Acc.stable.freeTables _ (Acc.apart h1 hd hs hu1) nodup_range hhand
    not_mem_range_self hself).bind ?_
  rintro _ k2 ⟨-, -, R2, h2, hroot, hsingle⟩
  have hd2 : R2.single (.hand NPTENTRIES) = some d := by
    rw [hsingle, if_neg (by simp), hself]
  refine (kfree_used h2.inv (o := .single (.hand NPTENTRIES)) hd2).mono ?_
  rintro _ _ rfl
  -- all hands are empty again
  have heq : R2.setSingle (.hand NPTENTRIES) none = R.setRoot .fresh none := by
    have h1 : (R2.setSingle (.hand NPTENTRIES) none).single = R.single := by
      funext s
      rcases eq_or_ne s (.hand NPTENTRIES) with rfl | hne
      · rw [hs]
        simp [setSingle]
      rw [show (R2.setSingle (.hand NPTENTRIES) none).single s = R2.single s from
        update_of_ne hne .., hsingle]
      split
      · rename_i hc
        obtain ⟨i, -, rfl⟩ := hc
        exact (hs i).symm
      rename_i hc
      cases s with
      | hand n =>
        have hn : n ≠ NPTENTRIES := fun he => hne (by rw [he])
        have hlt : ¬n < NPTENTRIES := fun hl => hc ⟨n, mem_range.mpr hl, rfl⟩
        rw [hs]
        simp [Roots.apart, hn, hlt]
      | kstack | pipe => rfl
    have h2 : (R2.setSingle (.hand NPTENTRIES) none).root = (R.setRoot .fresh none).root := hroot
    rcases hR : R2.setSingle (.hand NPTENTRIES) none with ⟨a, b⟩
    rw [hR] at h1 h2
    rw [setRoot, ← show a = R.single from h1]
    exact congrArg (Roots.mk a) h2
  rw [← heq]
  exact Acc.free_hand h2 hd2

end Kmem

end Xv6
