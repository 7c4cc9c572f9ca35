import Xv6.ExecLoad

/-!
# `growproc` and `deallocuvm`

What `sbrk` does to the address space of a process, in terms of what its page table says: which
pages are present (`mapping`), and which bytes they hold.

* `deallocuvm` walks the range page by page, and jumps ahead by 4 MB when a page table is missing.
  It frees the whole range as long as no jump passes a page that is present (`NoSkip`).
* `growproc` maps zeroed pages or frees the last ones. It reports what it did, unless the new size
  would be 0 or negative, or a page table cannot be allocated (`TablesFit`).
-/

namespace Xv6

open Function

open Exec Roots

namespace Kmem

variable {k k' : Kmem} {R : Roots} {h : Root} {d va : ℕ}

/-! ## Mappings -/

/-- The entry for `va`, if it is present. -/
def mapping (k : Kmem) (d va : ℕ) : Option ℕ := (k.pte d va).filter fun w => PTE_P w

theorem mapping_eq_some {w : ℕ} : k.mapping d va = some w ↔ k.pte d va = some w ∧ PTE_P w := by
  simp [mapping, Option.filter_eq_some_iff]

theorem mapping_eq_none : k.mapping d va = none ↔ ∀ w, k.pte d va = some w → ¬PTE_P w := by
  simp [mapping, Option.filter_eq_none_iff]

theorem mapping_congr (hp : k'.pte d va = k.pte d va) : k'.mapping d va = k.mapping d va := by
  rw [mapping, mapping, hp]

theorem mapping_of_ent_none (hent : ent k.mem d (PDX va) = none) : k.mapping d va = none := by
  rw [mapping, pte, hent]
  rfl

/-- The page that is present at `va`. -/
theorem page_eq_mapping (hd : R.root h = some d) (hva : va < KERNBASE) :
    R.page k.mem (.user h (PDX va) (PTX va)) = (k.mapping d va).map ptePage := by
  have h5 : PDX va < 512 ∧ PTX va < NPTENTRIES := ⟨PDX_user hva, PTX_lt⟩
  rw [Roots.page, if_pos h5, hd, Option.bind_some, mapping, pte]
  rcases ent k.mem d (PDX va) with _ | t
  · rfl
  · by_cases hp : PTE_P ((k.mem t).u32 (4 * PTX va)) <;> simp [ent, word, hp, Option.filter]

/-! ## `deallocuvm` -/

/-- **No page is passed**: where the loop at `a` would jump into the middle of a page table, the
pages before the place where it lands are absent. -/
def NoSkip (k : Kmem) (d a oldsz : ℕ) : Prop :=
  ∀ va < oldsz, PDX a < PDX va → PTX va < PTX a →
    (∀ i, PDX a ≤ i → i < PDX va → ent k.mem d i = none) → k.mapping d va = none

/-- The loop may start where there is a page table. -/
theorem noSkip_of_ent {a oldsz : ℕ} (hent : ent k.mem d (PDX a) ≠ none) : NoSkip k d a oldsz :=
  fun _ _ hlt _ hnone => absurd (hnone (PDX a) le_rfl hlt) hent

/-- It may also start at a multiple of 4 MB. -/
theorem noSkip_of_aligned {a oldsz : ℕ} (ha : PTX a = 0) : NoSkip k d a oldsz :=
  fun _ _ _ hlt _ => absurd (ha ▸ hlt) (Nat.not_lt_zero _)

/-- The pages of `[a, oldsz)` have been freed: what `deallocuvm` does. -/
structure Cleared (R : Roots) (h : Root) (d a oldsz : ℕ) (k k' : Kmem) : Prop where
  inv : PageInv k' R NPAGES
  kend : k'.kend = k.kend
  gone : ∀ va, a ≤ va → va < oldsz → k'.mapping d va = none
  kept : ∀ va < 2 ^ 32, va < a ∨ PGROUNDUP oldsz ≤ va → k'.pte d va = k.pte d va
  /-- the pages that were present, each of them once -/
  freed : ∃ l, k'.free = l ++ k.free ∧
    ∀ x, x ∈ l ↔ ∃ va w, a ≤ va ∧ va < oldsz ∧ k.mapping d va = some w ∧ ptePage w = x
  /-- what the other pages hold -/
  mem : ∀ o y, R.page k.mem o = some y → (∀ i, o ≠ .tab h i) →
    (∀ va, a ≤ va → va < oldsz → o ≠ .user h (PDX va) (PTX va)) → k'.mem y = k.mem y

/-- The state after the page of `a` has been freed. -/
def unmapped (k : Kmem) (x t j : ℕ) : Kmem :=
  { k.freed x with
    mem := update (k.freed x).mem t (((k.freed x).mem t).setU32 (4 * j) 0) }

section Unmapped

variable {a x t : ℕ}

/-- Freeing a page changes one entry. -/
theorem pte_unmapped (hi : PageInv k R NPAGES) (hd : R.root h = some d) (ha : a < KERNBASE)
    (ht : ent k.mem d (PDX a) = some t) (hx : ent k.mem t (PTX a) = some x) (hva : va < 2 ^ 32) :
    (k.unmapped x t (PTX a)).pte d va =
      if PDX va = PDX a ∧ PTX va = PTX a then some 0 else k.pte d va := by
  have h5 : PDX a < 512 := PDX_user ha
  have htab : R.page k.mem (.tab h (PDX a)) = some t :=
    tab_eq_some.mpr ⟨h5.trans (by decide), d, hd, ht⟩
  have huser : R.page k.mem (.user h (PDX a) (PTX a)) = some x :=
    user_eq_some.mpr ⟨⟨h5, PTX_lt⟩, t, htab, hx⟩
  have hdt : d ≠ t := by
    rintro rfl
    cases hi.inj (.dir h) _ d hd htab
  have hdx : d ≠ x := by
    rintro rfl
    cases hi.inj (.dir h) _ d hd huser
  have htx : t ≠ x := by
    rintro rfl
    cases hi.inj _ _ t htab huser
  have hdir : ∀ i, ent (k.unmapped x t (PTX a)).mem d i = ent k.mem d i := fun i =>
    (ent_update_ne hdt i).trans (ent_update_ne hdx i)
  -- the words of the page table are those before, but for one
  have hword : ∀ j, (k.unmapped x t (PTX a)).word t j = if j = PTX a then 0 else k.word t j := by
    intro j
    have hfreed : (k.freed x).mem t = k.mem t := update_of_ne htx ..
    split
    · rename_i hj
      rw [hj]
      exact word_setWord_self PTX_lt (by decide)
    · rename_i hj
      refine (word_setWord_ne fun hc => hj hc.2).trans ?_
      rw [hfreed, word]
  by_cases hpd : PDX va = PDX a
  · have ht' : ent k.mem d (PDX va) = some t := by rw [hpd, ht]
    rw [pte_of_ent ((hdir _).trans ht'), pte_of_ent ht', hword]
    by_cases hpt : PTX va = PTX a
    · rw [if_pos hpt, if_pos ⟨hpd, hpt⟩]
    · rw [if_neg hpt, if_neg fun hc => hpt hc.2]
  rw [if_neg fun hc => hpd hc.1]
  refine pte_congr (hdir _) fun t' ht' => ?_
  have htab' : R.page k.mem (.tab h (PDX va)) = some t' :=
    tab_eq_some.mpr ⟨PDX_lt hva, d, hd, ht'⟩
  have hne : t' ≠ t := by
    rintro rfl
    exact hpd (by simpa using hi.inj _ _ t' htab' htab)
  have hnx : t' ≠ x := by
    rintro rfl
    cases hi.inj _ _ t' htab' huser
  have hmem : (k.unmapped x t (PTX a)).mem t' = k.mem t' :=
    (update_of_ne hne ..).trans (update_of_ne hnx ..)
  rw [word, word, hmem]

end Unmapped

section Cleared

variable {a b oldsz x t : ℕ}

theorem Cleared.refl (hi : PageInv k R NPAGES) (hle : oldsz ≤ a) : Cleared R h d a oldsz k k := by
  refine ⟨hi, rfl, fun va h1 h2 => absurd (h1.trans_lt h2) hle.not_gt, fun _ _ _ => rfl,
    ⟨[], rfl, fun x => ⟨by simp, ?_⟩⟩, fun _ _ _ _ _ => rfl⟩
  rintro ⟨va, w, h1, h2, -⟩
  exact absurd (h1.trans_lt h2) hle.not_gt

/-- The loop goes on past pages that are absent. -/
theorem Cleared.skip (hc : Cleared R h d b oldsz k k') (hab : a ≤ b)
    (hold : oldsz ≤ KERNBASE) (hnone : ∀ va, a ≤ va → va < b → va < oldsz → k.mapping d va = none) :
    Cleared R h d a oldsz k k' := by
  refine ⟨hc.inv, hc.kend, fun va h1 h2 => ?_, fun va hva h1 => hc.kept va hva (by omega), ?_,
    fun o y ho ht hu => hc.mem o y ho ht fun va h1 => hu va (hab.trans h1)⟩
  · rcases lt_or_ge va b with hlt | hge
    · have hva : va < 2 ^ 32 := h2.trans (hold.trans_lt (by decide))
      rw [mapping_congr (hc.kept va hva (.inl hlt))]
      exact hnone va h1 hlt h2
    · exact hc.gone va hge h2
  · obtain ⟨l, hl, hmem⟩ := hc.freed
    refine ⟨l, hl, fun x => (hmem x).trans ?_⟩
    constructor
    · rintro ⟨va, w, h1, h2, hw⟩
      exact ⟨va, w, hab.trans h1, h2, hw⟩
    · rintro ⟨va, w, h1, h2, hw, hx⟩
      rcases lt_or_ge va b with hlt | hge
      · rw [hnone va h1 hlt h2] at hw
        cases hw
      · exact ⟨va, w, hge, h2, hw, hx⟩

/-- The addresses of the page at `a`. -/
theorem page_of_addr (ha : a % PGSIZE = 0) :
    PDX va = PDX a ∧ PTX va = PTX a ↔ a ≤ va ∧ va < a + PGSIZE := by
  have hp := PGSIZE_eq
  have hnum : PDX va = PDX a ∧ PTX va = PTX a ↔ va / PGSIZE = a / PGSIZE := by
    constructor
    · rintro ⟨h1, h2⟩
      rw [← page_number, ← page_number, h1, h2]
    · exact index_of_page
  rw [hnum]
  rw [hp] at ha ⊢
  omega

/-- The loop frees a page and goes on. -/
theorem Cleared.page (hc : Cleared R h d (a + PGSIZE) oldsz (k.unmapped x t (PTX a)) k')
    (hi : PageInv k R NPAGES) (hd : R.root h = some d) (hold : oldsz ≤ KERNBASE)
    (ha : a % PGSIZE = 0) (hlt : a < oldsz) (ht : ent k.mem d (PDX a) = some t)
    (hx : ent k.mem t (PTX a) = some x) : Cleared R h d a oldsz k k' := by
  have hlow : a < KERNBASE := hlt.trans_le hold
  have h5 : PDX a < 512 := PDX_user hlow
  have htab : R.page k.mem (.tab h (PDX a)) = some t :=
    tab_eq_some.mpr ⟨h5.trans (by decide), d, hd, ht⟩
  have huser : R.page k.mem (.user h (PDX a) (PTX a)) = some x :=
    user_eq_some.mpr ⟨⟨h5, PTX_lt⟩, t, htab, hx⟩
  obtain ⟨-, -, hsame⟩ := hi.free_user htab h5 PTX_lt hx rfl
  have hin : ∀ va, a ≤ va → va < a + PGSIZE → va < 2 ^ 32 →
      (k.unmapped x t (PTX a)).pte d va = some 0 := fun va h1 h2 hva => by
    rw [pte_unmapped hi hd hlow ht hx hva, if_pos ((page_of_addr ha).mpr ⟨h1, h2⟩)]
  have hout : ∀ va < 2 ^ 32, va < a ∨ a + PGSIZE ≤ va →
      (k.unmapped x t (PTX a)).pte d va = k.pte d va := fun va hva hc => by
    rw [pte_unmapped hi hd hlow ht hx hva, if_neg fun he => ?_]
    have := (page_of_addr ha).mp he
    omega
  obtain ⟨w, hw, rfl⟩ : ∃ w, k.mapping d a = some w ∧ ptePage w = x := by
    have hpage := page_eq_mapping (k := k) hd hlow
    rw [huser] at hpage
    exact Option.map_eq_some_iff.mp hpage.symm
  have hround : a + PGSIZE ≤ PGROUNDUP oldsz := by
    have hp := PGSIZE_eq
    rw [PGROUNDUP, hp]
    rw [hp] at ha
    omega
  have hsmall : ∀ va < oldsz, va < 2 ^ 32 := fun va h2 => h2.trans (hold.trans_lt (by decide))
  refine ⟨hc.inv, hc.kend, fun va h1 h2 => ?_, fun va hva h1 => ?_, ?_, fun o y ho hnt hu => ?_⟩
  · rcases lt_or_ge va (a + PGSIZE) with hva | hva
    · rw [mapping_congr (hc.kept va (hsmall va h2) (.inl hva)), mapping_eq_none]
      intro w' hw'
      obtain rfl := Option.some.inj ((hin va h1 hva (hsmall va h2)).symm.trans hw')
      decide
    · exact hc.gone va hva h2
  · rw [hc.kept va hva (by omega), hout va hva (by omega)]
  · obtain ⟨l, hl, hmem⟩ := hc.freed
    refine ⟨l ++ [ptePage w], ?_, fun y => ?_⟩
    · rw [hl, List.append_assoc]
      rfl
    rw [List.mem_append, List.mem_singleton, hmem]
    constructor
    · rintro (⟨va, w', h1, h2, hw', hy⟩ | rfl)
      · rw [mapping_congr (hout va (hsmall va h2) (.inr h1))] at hw'
        exact ⟨va, w', (Nat.le_add_right ..).trans h1, h2, hw', hy⟩
      · exact ⟨a, w, le_rfl, hlt, hw, rfl⟩
    · rintro ⟨va, w', h1, h2, hw', hy⟩
      rcases lt_or_ge va (a + PGSIZE) with hva | hva
      · obtain ⟨h3, h4⟩ := (page_of_addr ha).mpr ⟨h1, hva⟩
        have hpage := page_eq_mapping (k := k) hd (h2.trans_le hold)
        rw [h3, h4, huser, hw'] at hpage
        exact .inr (hy.symm.trans (Option.some.inj hpage).symm)
      · rw [← mapping_congr (hout va (hsmall va h2) (.inr hva))] at hw'
        exact .inl ⟨va, w', hva, h2, hw', hy⟩
  · have hne : o ≠ .user h (PDX a) (PTX a) := hu a le_rfl hlt
    have hyt : y ≠ t := by
      rintro rfl
      exact hnt _ (hi.inj _ _ y ho htab)
    have hyx : y ≠ ptePage w := by
      rintro rfl
      exact hne (hi.inj _ _ _ ho huser)
    refine (hc.mem o y ((hsame o hne).trans ho) hnt fun va h1 =>
      hu va ((Nat.le_add_right ..).trans h1)).trans ?_
    exact (update_of_ne hyt ..).trans (update_of_ne hyx ..)

/-- The next round starts with the next page. -/
theorem NoSkip.next (hent : ent k.mem d (PDX a) ≠ none) (ha : a % PGSIZE = 0)
    (hdir : ∀ i, ent k'.mem d i = ent k.mem d i) : NoSkip k' d (a + PGSIZE) oldsz := by
  have hp := PGSIZE_eq
  have hn : NPTENTRIES = 1024 := rfl
  by_cases hlast : PTX (a + PGSIZE) = 0
  · exact noSkip_of_aligned hlast
  refine noSkip_of_ent ?_
  have hpd : PDX (a + PGSIZE) = PDX a := by
    rw [PTX, hn, hp] at hlast
    rw [PDX, PDX, hn, hp]
    rw [hp] at ha
    omega
  rw [hdir, hpd]
  exact hent

/-- A jump is one entry of the directory further, at the same place in the table. -/
theorem jump_addr (a : ℕ) : PDX (a + NPTENTRIES * PGSIZE) = PDX a + 1 ∧
    PTX (a + NPTENTRIES * PGSIZE) = PTX a := by
  have hp := PGSIZE_eq
  have hn : NPTENTRIES = 1024 := rfl
  rw [PDX, PDX, PTX, PTX, hn, hp]
  omega

/-- It starts 4 MB later after a missing page table, and passes no page. -/
theorem NoSkip.jump (hs : NoSkip k d a oldsz) (ha : a % PGSIZE = 0)
    (hnone : ent k.mem d (PDX a) = none) :
    NoSkip k d (a + NPTENTRIES * PGSIZE) oldsz ∧
      ∀ va, a ≤ va → va < a + NPTENTRIES * PGSIZE → va < oldsz → k.mapping d va = none := by
  have hp := PGSIZE_eq
  have hn : NPTENTRIES = 1024 := rfl
  obtain ⟨hpd, hpt⟩ := jump_addr a
  refine ⟨fun va hva h1 h2 hall => ?_, fun va h1 h2 hva => ?_⟩
  · rw [hpd] at h1 hall
    rw [hpt] at h2
    refine hs va hva ((Nat.lt_succ_self _).trans h1) h2 fun i h3 h4 => ?_
    rcases h3.eq_or_lt with rfl | h3
    · exact hnone
    · exact hall i h3 h4
  by_cases heq : PDX va = PDX a
  · exact mapping_of_ent_none (heq ▸ hnone)
  have hnext : PDX va = PDX a + 1 ∧ PTX va < PTX a := by
    have hnum := page_number va
    have hnum' := page_number a
    have hlt : PTX va < NPTENTRIES ∧ PTX a < NPTENTRIES := ⟨PTX_lt, PTX_lt⟩
    rw [hp] at hnum hnum'
    rw [hn] at hlt
    rw [hn, hp] at h2
    rw [hp] at ha
    omega
  refine hs va hva (by omega) hnext.2 fun i h3 h4 => ?_
  obtain rfl : i = PDX a := by omega
  exact hnone

/-- **The loop of `deallocuvm`** frees what is present from `a` on. -/
theorem deallocLoop_cleared (hold : oldsz ≤ KERNBASE) (hd : R.root h = some d) :
    ∀ (n a : ℕ) {k : Kmem}, PageInv k R NPAGES → a % PGSIZE = 0 →
      oldsz ≤ a + n * PGSIZE → NoSkip k d a oldsz →
      Ends (deallocLoop d oldsz n a) k (fun _ k' => Cleared R h d a oldsz k k')
        fun _ => ¬0 < k.kend := by
  have hp := PGSIZE_eq
  have hn : NPTENTRIES = 1024 := rfl
  intro n
  induction n with
  | zero =>
    intro a k hi _ hle _
    exact ends_pure (.refl hi (by omega))
  | succ n ih =>
    intro a k hi ha hle hs
    have hnext : (a + PGSIZE) % PGSIZE = 0 := by rw [Nat.add_mod_right, ha]
    have hle' : oldsz ≤ a + PGSIZE + n * PGSIZE := by
      rw [hp] at hle ⊢
      omega
    rw [deallocLoop]
    split
    · rename_i hlt
      have hlow : a < KERNBASE := hlt.trans_le hold
      have h5 : PDX a < 512 := PDX_user hlow
      refine walkpgdir_false.bind ?_
      rintro _ _ ⟨rfl, ⟨t, rfl, ht⟩ | ⟨rfl, hnone⟩⟩
      · have htab : R.page k.mem (.tab h (PDX a)) = some t :=
          tab_eq_some.mpr ⟨h5.trans (by decide), d, hd, ht⟩
        have hent : ent k.mem d (PDX a) ≠ none := by rw [ht]; simp
        refine ends_bind_gets ?_
        obtain ⟨w, hw⟩ : ∃ w, w = k.word t (PTX a) := ⟨_, rfl⟩
        rw [← hw]
        split
        · rename_i hpres
          have hx : ent k.mem t (PTX a) = some (ptePage w) := by
            rw [hw] at hpres ⊢
            exact if_pos hpres
          have huser : R.page k.mem (.user h (PDX a) (PTX a)) = some (ptePage w) :=
            user_eq_some.mpr ⟨⟨h5, PTX_lt⟩, t, htab, hx⟩
          have hpage : k.kend ≤ ptePage w ∧ ptePage w < NPAGES :=
            ⟨hi.low _ (.inr ⟨_, huser⟩), hi.range _ _ huser⟩
          obtain ⟨hfree, -, -⟩ := hi.free_user htab h5 PTX_lt hx rfl
          split
          · rename_i hzero
            exact ends_stop (by omega)
          have hkfree : kfree (ptePage w) k = .ok ((), k.freed (ptePage w)) :=
            if_neg (by omega)
          refine (Ends.of_ok (Q := fun _ k1 => k.freed (ptePage w) = k1) hkfree rfl).bind ?_
          rintro _ _ rfl
          have hdir : ∀ i, ent (k.unmapped (ptePage w) t (PTX a)).mem d i = ent k.mem d i := by
            intro i
            refine (ent_update_ne ?_ i).trans (ent_update_ne ?_ i)
            · rintro rfl
              cases hi.inj (.dir h) _ d hd htab
            · rintro rfl
              cases hi.inj (.dir h) _ _ hd huser
          exact ends_bind_modify ((ih (a + PGSIZE) hfree hnext hle' (.next hent ha hdir)).mono
            fun _ k' hc => hc.page hi hd hold ha hlt ht hx)
        · rename_i hpres
          have hnone : k.mapping d a = none := mapping_eq_none.mpr fun w' hw' => by
            obtain rfl := Option.some.inj ((pte_of_ent ht).symm.trans hw')
            rwa [← hw]
          refine (ih (a + PGSIZE) hi hnext hle' (.next hent ha fun _ => rfl)).mono
            fun _ k' hc => hc.skip (Nat.le_add_right ..) hold fun va h1 h2 _ => ?_
          obtain ⟨h3, h4⟩ := (page_of_addr ha).mpr ⟨h1, h2⟩
          rw [mapping, pte, h3, h4]
          exact hnone
      · obtain ⟨hs', habs⟩ := hs.jump ha hnone
        refine (ih (a + NPTENTRIES * PGSIZE) hi ?_ ?_ hs').mono
          fun _ k' hc => hc.skip (Nat.le_add_right ..) hold habs
        · rw [Nat.add_mul_mod_self_right, ha]
        · rw [hn, hp]
          rw [hp] at hle'
          omega
    · rename_i hge
      exact ends_pure (.refl hi (not_lt.mp hge))

theorem deallocuvm_cleared {newsz : ℕ} (hold : oldsz ≤ KERNBASE) (hd : R.root h = some d)
    (hi : PageInv k R NPAGES) (hlt : newsz < oldsz)
    (hs : NoSkip k d (PGROUNDUP newsz) oldsz) : Ends (deallocuvm d oldsz newsz) k
      (fun r k' => r = newsz ∧ Cleared R h d (PGROUNDUP newsz) oldsz k k')
      fun _ => ¬0 < k.kend := by
  have hp := PGSIZE_eq
  rw [deallocuvm, if_neg hlt.not_ge]
  refine (deallocLoop_cleared hold hd _ _ hi (Nat.mul_mod_left ..) ?_ hs).bind
    fun _ k' hc => ends_pure ⟨rfl, hc⟩
  rw [hp]
  omega

/-- The page tables of the others are as they were. -/
theorem Cleared.pte_other (hc : Cleared R h d a oldsz k k') {h' : Root} {d' : ℕ} (hh : h' ≠ h)
    (hd' : R.root h' = some d') (hva : va < 2 ^ 32) : k'.pte d' va = k.pte d' va := by
  have hdir : k'.mem d' = k.mem d' :=
    hc.mem (.dir h') d' hd' (fun _ => by simp) fun _ _ _ => by simp
  refine pte_congr (by rw [ent, ent, hdir]) fun t ht => ?_
  have htab : R.page k.mem (.tab h' (PDX va)) = some t := tab_eq_some.mpr ⟨PDX_lt hva, d', hd', ht⟩
  rw [word, word, hc.mem _ t htab (fun i he => hh (by simpa using And.left (by simpa using he)))
    fun _ _ _ => (by simp)]

theorem addr_lt {a b : ℕ} (h : PDX a < PDX b ∨ PDX a = PDX b ∧ PTX a < PTX b) : a < b := by
  have hp := PGSIZE_eq
  have hn : NPTENTRIES = 1024 := rfl
  have hnum := page_number a
  have hnum' := page_number b
  have hlt : PTX a < NPTENTRIES := PTX_lt
  rw [hp] at hnum hnum'
  omega

/-- **A page that is passed stays**: the loop jumps over the missing page tables, into the table of
`va` behind `va`, and does not come back. -/
theorem deallocLoop_passes (hold : oldsz ≤ KERNBASE) (hd : R.root h = some d)
    (hva : va < oldsz) (hmap : k.mapping d va ≠ none) (hi : PageInv k R NPAGES)
    (hpos : 0 < k.kend) :
    ∀ (n a : ℕ), a % PGSIZE = 0 → oldsz ≤ a + n * PGSIZE → PDX a ≤ PDX va → PTX va < PTX a →
      (∀ i, PDX a ≤ i → i < PDX va → ent k.mem d i = none) →
      Ends (deallocLoop d oldsz n a) k (fun _ k' => k'.mapping d va ≠ none) fun _ => False := by
  intro n
  induction n with
  | zero =>
    intro a _ hle _ _ _
    exact ends_pure hmap
  | succ n ih =>
    intro a ha hle hpd hpt hnone
    rcases hpd.eq_or_lt with heq | hlt
    · -- the table of `va`, which is there
      have hent : ent k.mem d (PDX a) ≠ none := fun he =>
        hmap (mapping_of_ent_none (heq ▸ he))
      refine ((deallocLoop_cleared hold hd (n + 1) a hi ha hle (noSkip_of_ent hent)).allow
        fun _ hc => hc hpos).mono fun _ k' hc => ?_
      rw [mapping_congr (hc.kept va (hva.trans_le (hold.trans (by decide)))
        (.inl (addr_lt (.inr ⟨heq.symm, hpt⟩))))]
      exact hmap
    · have hlow : a < oldsz := (addr_lt (.inl hlt)).trans hva
      obtain ⟨hpd', hpt'⟩ := jump_addr a
      rw [deallocLoop, if_pos hlow]
      refine walkpgdir_false.bind ?_
      rintro _ _ ⟨rfl, ⟨t, rfl, ht⟩ | ⟨rfl, -⟩⟩
      · rw [hnone (PDX a) le_rfl hlt] at ht
        cases ht
      refine ih (a + NPTENTRIES * PGSIZE) ?_ ?_ (by rw [hpd']; exact hlt) (by rwa [hpt'])
        fun i h1 h2 => hnone i (by rw [hpd'] at h1; omega) h2
      · rw [Nat.add_mul_mod_self_right, ha]
      · have hp := PGSIZE_eq
        have hn : NPTENTRIES = 1024 := rfl
        rw [hn, hp]
        rw [hp] at hle
        omega

/-- **`deallocuvm` frees the whole range** iff no jump of its loop passes a page that is present: no
page of the range is left, those that were present are on the free list, each once, and the other
entries are as they were, in this page table and in all others. The directory `d` is one of those in
the hands of the kernel, and every page has one owner. -/
theorem deallocuvm_frees {newsz : ℕ} (hi : PageInv k R NPAGES) (hd : R.root h = some d)
    (hpos : 0 < k.kend) (hlt : newsz < oldsz) (hold : oldsz ≤ KERNBASE) :
    (∃ k' l, deallocuvm d oldsz newsz k = .ok (newsz, k') ∧
      (∀ va, PGROUNDUP newsz ≤ va → va < oldsz → k'.mapping d va = none) ∧
      k'.free = l ++ k.free ∧ l.Nodup ∧
      (∀ x, x ∈ l ↔ ∃ va w, PGROUNDUP newsz ≤ va ∧ va < oldsz ∧ k.mapping d va = some w ∧
        ptePage w = x) ∧
      (∀ va < 2 ^ 32, va < PGROUNDUP newsz ∨ PGROUNDUP oldsz ≤ va →
        k'.mapping d va = k.mapping d va) ∧
      ∀ h' d', h' ≠ h → R.root h' = some d' → ∀ va < 2 ^ 32, k'.mapping d' va = k.mapping d' va) ↔
    NoSkip k d (PGROUNDUP newsz) oldsz := by
  constructor
  · rintro ⟨k', -, hm, hgone, -⟩ va hva hpd hpt hnone
    by_contra hmap
    have hend : Ends (deallocuvm d oldsz newsz) k (fun _ k' => k'.mapping d va ≠ none)
        fun _ => False := by
      rw [deallocuvm, if_neg hlt.not_ge]
      refine (deallocLoop_passes hold hd hva hmap hi hpos _ _ (Nat.mul_mod_left ..) ?_ hpd.le hpt
        hnone).bind fun _ k' hc => ends_pure hc
      have hp := PGSIZE_eq
      rw [hp]
      omega
    exact hend.ok hm (hgone va (addr_lt (.inl hpd)).le hva)
  intro hs
  have hend := deallocuvm_cleared hold hd hi hlt hs
  rcases hm : deallocuvm d oldsz newsz k with e | ⟨r, k'⟩
  · exact absurd hpos (hend.error hm)
  obtain ⟨rfl, hc⟩ := hend.ok hm
  obtain ⟨l, hl, hmem⟩ := hc.freed
  have hnodup : (l ++ k.free).Nodup := hl ▸ hc.inv.nodup
  exact ⟨k', l, rfl, hc.gone, hl, hnodup.of_append_left, hmem,
    fun va hva hout => mapping_congr (hc.kept va hva hout),
    fun h' d' hh hd' va hva => mapping_congr (hc.pte_other hh hd' hva)⟩

end Cleared

/-! ## `allocuvm` on the pages of a process -/

/-- The calls of `kalloc` that map `j` pages from page `m` on: one for each of them, and one for
each page table that is missing. -/
def growCost (k : Kmem) (d m : ℕ) : ℕ → ℕ
  | 0 => 0
  | j + 1 => growCost k d m j + 1 +
      if (m + j) % 1024 = 0 ∧ ent k.mem d ((m + j) / 1024) = none then 1 else 0

/-- **No page table is missed**: when the pages from `m` to `m'` are mapped, the first call of
`kalloc` that fails is not one for a page table. -/
def TablesFit (k : Kmem) (d m m' : ℕ) : Prop :=
  ∀ j, m + j < m' → (m + j) % 1024 = 0 → ent k.mem d ((m + j) / 1024) = none →
    avail k ≠ growCost k d m j + 1

/-- The process has `j` zeroed pages more than in `k0`, where it had `m`. -/
structure Grown (np : ℕ) (k0 : Kmem) (R : Roots) (d m j : ℕ) (k : Kmem) : Prop where
  acc : Acc True np k0 R k R
  old : ∀ va < KERNBASE, va / PGSIZE < m → k.mapping d va = k0.mapping d va
  mem : ∀ i j y, R.page k0.mem (.user .fresh i j) = some y →
    R.page k.mem (.user .fresh i j) = some y ∧ k.mem y = k0.mem y
  new : ∀ va < KERNBASE, m ≤ va / PGSIZE → va / PGSIZE < m + j →
    ∃ w, k.mapping d va = some w ∧ PTE_U w ∧ k.mem (ptePage w) = Bytes.zero
  above : ∀ va < KERNBASE, m + j ≤ va / PGSIZE → k.mapping d va = none
  tabs : ∀ i < 512, m + j ≤ i * 1024 → ent k.mem d i = ent k0.mem d i
  count : avail k0 = avail k + growCost k0 d m j

variable {sz : ℕ}

section Grown

variable {np m j a x : ℕ} {k0 k1 : Kmem}

theorem Grown.start (hi : PageInv k0 R NPAGES)
    (hnone : ∀ va < KERNBASE, m ≤ va / PGSIZE → k0.mapping d va = none) :
    Grown np k0 R d m 0 k0 where
  acc := .start np hi
  old := fun _ _ _ => rfl
  mem := fun _ _ _ hy => ⟨hy, rfl⟩
  new := fun _ _ h1 h2 => absurd (h1.trans_lt h2) (lt_irrefl _)
  above := hnone
  tabs := fun _ _ _ => rfl
  count := rfl

/-- There is a page table for `a` if the page before is present, unless `a` is the first page in
it. -/
theorem ent_of_previous (hprev : ∀ v < KERNBASE, v / PGSIZE + 1 = a / PGSIZE → k.mapping d v ≠ none)
    (ha : a < KERNBASE + PGSIZE) (hmod : a / PGSIZE % 1024 ≠ 0) : ent k.mem d (PDX a) ≠ none := by
  have hp := PGSIZE_eq
  obtain ⟨v, hv⟩ : ∃ v, v = (a / PGSIZE - 1) * PGSIZE := ⟨_, rfl⟩
  have hdiv : v / PGSIZE = a / PGSIZE - 1 := by rw [hv, Nat.mul_div_cancel _ (by decide)]
  have hva : v < KERNBASE := by
    rw [hv]
    rw [hp] at ha hmod ⊢
    omega
  have hpd : PDX v = PDX a := by
    have h1 := page_number v
    have h2 := page_number a
    have h3 : PTX v < 1024 := PTX_lt
    have h4 : PTX a < 1024 := PTX_lt
    omega
  have hone : 0 < a / PGSIZE := Nat.pos_of_ne_zero fun hc => hmod (by rw [hc])
  rw [← hpd]
  exact fun hc => hprev v hva (hdiv ▸ Nat.sub_add_cancel hone) (mapping_of_ent_none hc)

theorem Grown.present (hg : Grown np k0 R d m j k)
    (hall : ∀ va < KERNBASE, va / PGSIZE < m → k0.mapping d va ≠ none) (hva : va < KERNBASE)
    (hlt : va / PGSIZE < m + j) : k.mapping d va ≠ none := by
  rcases lt_or_ge (va / PGSIZE) m with hm | hm
  · rw [hg.old va hva hm]
    exact hall va hva hm
  · obtain ⟨w, hw, -⟩ := hg.new va hva hm hlt
    rw [hw]
    simp

/-- When a page table is missing. -/
theorem Grown.table_none (hg : Grown np k0 R d m j k) (hd : R.root .fresh = some d)
    (hall : ∀ va < KERNBASE, va / PGSIZE < m → k0.mapping d va ≠ none) (ha : a < KERNBASE)
    (hnum : a / PGSIZE = m + j) : R.page k.mem (.tab .fresh (PDX a)) = none ↔
      (m + j) % 1024 = 0 ∧ ent k0.mem d ((m + j) / 1024) = none := by
  have h5 := PDX_user ha
  have hpd : PDX a = (m + j) / 1024 := by
    have h1 := page_number a
    have h2 : PTX a < 1024 := PTX_lt
    omega
  rw [Roots.page, if_pos (h5.trans (by decide)), hd, Option.bind_some]
  by_cases hmod : (m + j) % 1024 = 0
  · rw [hg.tabs _ h5 (by omega), hpd]
    exact (and_iff_right hmod).symm
  · exact iff_of_false (ent_of_previous (fun v hv he => hg.present hall hv (by omega))
      (ha.trans (by decide)) (by rwa [hnum])) fun hc => hmod hc.1

/-- Mapping a page does not change the other entries. -/
theorem Added.mapping_other {R0 : Roots} {b : Bytes PGSIZE} {perm : ℕ}
    (hadd : Added np k0 R0 R d a x b perm k k') (hd : R.root .fresh = some d)
    (hva : va < KERNBASE) (hne : va / PGSIZE ≠ a / PGSIZE) : k'.mapping d va = k.mapping d va := by
  have hidx : ¬(PDX va = PDX a ∧ PTX va = PTX a) := fun hc =>
    hne (by rw [← page_number va, ← page_number a, hc.1, hc.2])
  rcases hm : k.mapping d va with _ | w
  · have hpage := hadd.users .fresh (PDX va) (PTX va) fun hc => hidx hc.2
    rw [page_eq_mapping hd hva, page_eq_mapping hd hva, hm] at hpage
    exact Option.map_eq_none_iff.mp hpage
  · obtain ⟨hpte, hp⟩ := mapping_eq_some.mp hm
    obtain ⟨t, ht, rfl, -⟩ := page_of_pte hd hva hpte
    obtain ⟨he, hw⟩ := hadd.words _ _ t ht hidx
    exact mapping_eq_some.mpr ⟨by rw [pte_of_ent he, hw], hp⟩

/-- **One page more.** -/
theorem Grown.add (hg : Grown np k0 R d m j k)
    (hadd : Added np k0 R R d a x Bytes.zero 6 k1 k') (hd : R.root .fresh = some d)
    (hall : ∀ va < KERNBASE, va / PGSIZE < m → k0.mapping d va ≠ none) (ha : a < KERNBASE)
    (hnum : a / PGSIZE = m + j) (hm : k1.mem = k.mem) (havail : avail k = avail k1 + 1) :
    Grown np k0 R d m (j + 1) k' := by
  have hother : ∀ va < KERNBASE, va / PGSIZE ≠ a / PGSIZE → k'.mapping d va = k.mapping d va := by
    intro va hva hne
    rw [hadd.mapping_other hd hva hne]
    exact mapping_congr (pte_congr (by rw [hm]) fun t _ => by rw [word, word, hm])
  have hxlt : x < NPAGES := hadd.acc.inv.range _ _ hadd.page
  obtain ⟨-, hpres, hxpage⟩ := mkPte_spec 6 hxlt
  have hentry : ∀ va, va / PGSIZE = a / PGSIZE → k'.mapping d va = some (mkPte x 6) := by
    intro va hva
    obtain ⟨h1, h2⟩ := same_page hva
    obtain ⟨t, ht, hw⟩ := hadd.entry
    rw [← h1] at ht
    exact mapping_eq_some.mpr ⟨by rw [pte_of_ent ht, h2, hw], hpres⟩
  have htab : ∀ (m : ℕ → Bytes PGSIZE) (i : ℕ), i < 512 → R.page m (.tab .fresh i) = ent m d i := by
    intro m i hi
    rw [Roots.page, if_pos (hi.trans (by decide)), hd, Option.bind_some]
  refine ⟨hadd.acc, fun va hva hlt => ?_, fun i i' y hy => ?_, fun va hva h1 h2 => ?_,
    fun va hva hge => ?_, fun i hi hge => ?_, ?_⟩
  · rw [hother va hva (by omega), hg.old va hva hlt]
  · obtain ⟨hpage, hmem⟩ := hg.mem i i' y hy
    have hpage1 : R.page k1.mem (.user .fresh i i') = some y := by rw [hm, hpage]
    refine ⟨?_, by rw [hadd.mem i i' y hpage1, hm, hmem]⟩
    rw [hadd.users .fresh i i' ?_, hpage1]
    rintro ⟨-, rfl, rfl⟩
    have hnone := page_eq_mapping (k := k) hd ha
    rw [hg.above a ha hnum.ge, hpage] at hnone
    cases hnone
  · by_cases hv : va / PGSIZE = a / PGSIZE
    · exact ⟨_, hentry va hv, PTE_U_mkPte x, by rw [hxpage, hadd.content]⟩
    obtain ⟨w, hw, hu, hzero⟩ := hg.new va hva h1 (by omega)
    refine ⟨w, by rw [hother va hva hv, hw], hu, ?_⟩
    have hpage := page_eq_mapping (k := k) hd hva
    rw [hw, ← hm] at hpage
    rw [hadd.mem _ _ _ hpage, hm, hzero]
  · rw [hother va hva (by omega), hg.above va hva (by omega)]
  · have hne : i ≠ PDX a := by
      have := page_number a
      rintro rfl
      omega
    rw [← htab _ i hi, hadd.tabs i hne, hm, htab _ i hi, hg.tabs i hi (by omega)]
  · have hav := hadd.avail
    simp only [hm, hg.table_none hd hall ha hnum] at hav
    rw [hg.count, havail, hav, growCost]
    omega

/-! ### The bytes -/

theorem byteAt_eq_mapping : k.byteAt d va =
    (k.mapping d va).map fun w => (k.mem (ptePage w)).get (va % PGSIZE) := by
  rw [byteAt, mapping]
  rcases k.pte d va with _ | w
  · rfl
  · by_cases hp : PTE_P w <;> simp [hp, Option.filter]

theorem byteAt_congr (hmap : k'.mapping d va = k.mapping d va)
    (hmem : ∀ w, k.mapping d va = some w → k'.mem (ptePage w) = k.mem (ptePage w)) :
    k'.byteAt d va = k.byteAt d va := by
  rw [byteAt_eq_mapping, byteAt_eq_mapping, hmap]
  rcases hw : k.mapping d va with _ | w
  · rfl
  · rw [Option.map_some, Option.map_some, hmem w hw]

/-- The entry is that of the page. -/
theorem mapping_page {v : ℕ} (hv : v / PGSIZE = va / PGSIZE) : k.mapping d v = k.mapping d va := by
  obtain ⟨h1, h2⟩ := same_page hv
  rw [mapping, mapping, pte, pte, h1, h2]

/-- **The address space is the same** below `n`: its mappings and its bytes. -/
def SameBelow (d n : ℕ) (k k' : Kmem) : Prop :=
  ∀ va < n, k'.mapping d va = k.mapping d va ∧ k'.byteAt d va = k.byteAt d va

theorem lt_PGROUNDUP : va < PGROUNDUP sz ↔ va / PGSIZE < npages sz := by
  have hp := PGSIZE_eq
  rw [PGROUNDUP, npages, hp]
  omega

theorem Cleared.gone_page {oldsz b : ℕ} (hc : Cleared R h d (PGROUNDUP b) oldsz k k')
    (hge : npages b ≤ va / PGSIZE) (hlt : va / PGSIZE < npages oldsz) : k'.mapping d va = none := by
  have hp := PGSIZE_eq
  rw [← mapping_page (Nat.mul_div_cancel (va / PGSIZE) (by decide : 0 < PGSIZE))]
  refine hc.gone _ (Nat.mul_le_mul_right _ hge) ?_
  rw [npages, hp] at hlt
  rw [hp]
  omega

/-- Below the range, the bytes are the same. -/
theorem Cleared.below {oldsz : ℕ} (hc : Cleared R h d a oldsz k k') (hd : R.root h = some d)
    (ha : a % PGSIZE = 0) (hold : a ≤ KERNBASE) : SameBelow d a k k' := by
  intro va hva
  have hlow : va < KERNBASE := hva.trans_le hold
  have hmap := mapping_congr (hc.kept va (hlow.trans (by decide)) (.inl hva))
  refine ⟨hmap, byteAt_congr hmap fun w hw => ?_⟩
  have hpage := page_eq_mapping (k := k) hd hlow
  rw [hw] at hpage
  refine hc.mem _ _ hpage (fun _ => by simp) fun v h1 _ he => ?_
  obtain ⟨h3, h4⟩ : PDX va = PDX v ∧ PTX va = PTX v := by simpa using he
  have hnum : va / PGSIZE = v / PGSIZE := by rw [← page_number va, ← page_number v, h3, h4]
  have hp := PGSIZE_eq
  rw [hp] at hnum ha
  omega

/-- **What was mapped is unmapped again** when memory runs out. -/
theorem Grown.rollback {oldsz newsz : ℕ} (hg : Grown np k0 R d (npages oldsz) j k)
    (hd : R.root .fresh = some d) (hm : k1.mem = k.mem)
    (hnone : ∀ va < KERNBASE, npages oldsz ≤ va / PGSIZE → k0.mapping d va = none)
    (hle : npages oldsz + j ≤ npages newsz) (hold : PGROUNDUP oldsz ≤ KERNBASE)
    (hc : Cleared R .fresh d (PGROUNDUP oldsz) newsz k1 k') : SameBelow d KERNBASE k0 k' := by
  intro va hva
  have hmap1 : k1.mapping d va = k.mapping d va :=
    mapping_congr (pte_congr (by rw [hm]) fun t _ => by rw [word, word, hm])
  rcases lt_or_ge (va / PGSIZE) (npages oldsz) with hlt | hge
  · have hbelow := hc.below hd (Nat.mul_mod_left ..) hold va (lt_PGROUNDUP.mpr hlt)
    have hold1 : k1.mapping d va = k0.mapping d va := hmap1.trans (hg.old va hva hlt)
    refine ⟨hbelow.1.trans hold1, hbelow.2.trans (byteAt_congr hold1 fun w hw => ?_)⟩
    have hpage := page_eq_mapping (k := k0) hd hva
    rw [hw] at hpage
    rw [hm]
    exact (hg.mem _ _ _ hpage).2
  have hgone : k'.mapping d va = none := by
    rcases lt_or_ge (va / PGSIZE) (npages newsz) with h1 | h1
    · exact hc.gone_page hge h1
    · have hround : PGROUNDUP newsz ≤ va := not_lt.mp fun hc => h1.not_gt (lt_PGROUNDUP.mp hc)
      rw [mapping_congr (hc.kept va (hva.trans (by decide)) (.inr hround)), hmap1]
      exact hg.above va hva (hle.trans h1)
  rw [byteAt_eq_mapping, byteAt_eq_mapping, hgone, hnone va hva hge]
  exact ⟨rfl, rfl⟩

/-- **The loop of `allocuvm`** maps all pages, or none. -/
theorem allocLoop_grown {oldsz newsz : ℕ} (hd : R.root .fresh = some d)
    (hs : R.HandsFree) (hnew : newsz < KERNBASE)
    (hall : ∀ va < KERNBASE, va / PGSIZE < npages oldsz → k0.mapping d va ≠ none)
    (hnone : ∀ va < KERNBASE, npages oldsz ≤ va / PGSIZE → k0.mapping d va = none)
    (hfit : TablesFit k0 d (npages oldsz) (npages newsz)) :
    ∀ (n a j : ℕ) {k : Kmem}, Grown np k0 R d (npages oldsz) j k → a % PGSIZE = 0 →
      a / PGSIZE = npages oldsz + j → npages oldsz + j ≤ npages newsz → newsz ≤ a + n * PGSIZE →
      Ends (allocLoop d oldsz newsz n a) k (fun r k' => (r = 0 ∧ SameBelow d KERNBASE k0 k') ∨
        r = newsz ∧ ∃ j, npages oldsz + j = npages newsz ∧ Grown np k0 R d (npages oldsz) j k')
        fun _ => ¬0 < k0.kend := by
  have hp := PGSIZE_eq
  -- at the end all pages are there
  have hend : ∀ {k : Kmem} {a j : ℕ}, Grown np k0 R d (npages oldsz) j k → a % PGSIZE = 0 →
      a / PGSIZE = npages oldsz + j → npages oldsz + j ≤ npages newsz → newsz ≤ a →
      (newsz = 0 ∧ SameBelow d KERNBASE k0 k) ∨ newsz = newsz ∧
        ∃ j, npages oldsz + j = npages newsz ∧ Grown np k0 R d (npages oldsz) j k := by
    intro k a j hg hmod hnum hle hge
    refine .inr ⟨rfl, j, le_antisymm hle ?_, hg⟩
    rw [← hnum, npages, hp]
    rw [hp] at hmod
    omega
  intro n
  induction n with
  | zero =>
    intro a j k hg hmod hnum hle hfuel
    exact ends_pure (hend hg hmod hnum hle (by omega))
  | succ n ih =>
    intro a j k hg hmod hnum hle hfuel
    rw [allocLoop]
    split
    · rename_i hlt
      have ha : a < KERNBASE := hlt.trans hnew
      have hin : a / PGSIZE < npages newsz := by
        rw [hp] at hmod
        rw [npages, hp]
        omega
      refine (Acc.stable.kalloc hg.acc (hs 0)).bind ?_
      rintro (_ | x) k1 ⟨hm1, hfail, hgot⟩
      · obtain ⟨h1, -⟩ := hfail rfl
        have hround : PGROUNDUP oldsz ≤ a := by
          refine (Nat.mul_le_mul_right PGSIZE (Nat.le_of_add_right_le hnum.ge)).trans ?_
          exact Nat.div_mul_le_self ..
        have hskip : NoSkip k1 d (PGROUNDUP oldsz) newsz := by
          have hdiv : PGROUNDUP oldsz / PGSIZE = npages oldsz := Nat.mul_div_cancel _ (by decide)
          by_cases hm : npages oldsz % 1024 = 0
          · exact noSkip_of_aligned (by rw [PTX, hdiv]; exact hm)
          refine noSkip_of_ent ?_
          rw [hm1]
          refine ent_of_previous (fun v hv he => hg.present hall hv ?_) ?_ (by rwa [hdiv])
          · omega
          · exact (hround.trans_lt ha).trans (by decide)
        refine ((deallocuvm_cleared hnew.le hd h1.inv
          ((le_PGROUNDUP oldsz).trans_lt (hround.trans_lt hlt)) hskip).allow
          fun _ hc => h1.kend ▸ hc).bind ?_
        rintro _ k2 ⟨-, hc⟩
        exact ends_pure (.inl ⟨rfl,
          hg.rollback hd hm1 hnone (hnum ▸ hin.le) (hround.trans ha.le) hc⟩)
      · obtain ⟨h1, havail⟩ := hgot x rfl
        have hfree : R.page k1.mem (.user .fresh (PDX a) (PTX a)) = none := by
          rw [hm1, page_eq_mapping hd ha, hg.above a ha hnum.ge]
          rfl
        refine ends_bind_modify ((mappages_filled h1 ha hd hs hfree Bytes.zero 6).bind ?_)
        rintro ok k2 ⟨htrue, hfalse⟩
        cases ok
        · obtain ⟨hnotab, hav⟩ := hfalse rfl
          rw [hm1] at hnotab
          obtain ⟨hmod', hent⟩ := (hg.table_none hd hall ha hnum).mp hnotab
          refine absurd ?_ (hfit j (hnum ▸ hin) hmod' hent)
          rw [hg.count, havail, hav, Nat.zero_add, Nat.add_comm]
        have h2 := hg.add (htrue rfl) hd hall ha hnum hm1 havail
        refine ih (a + PGSIZE) (j + 1) h2 ?_ ?_ ?_ ?_
        · rw [Nat.add_mod_right, hmod]
        · rw [Nat.add_div_right a (by decide), hnum, Nat.add_assoc]
        · rw [← Nat.add_assoc, ← hnum]
          exact hin
        · rw [hp] at hfuel ⊢
          omega
    · rename_i hge
      exact ends_pure (hend hg hmod hnum hle (not_lt.mp hge))

/-- The old pages are as they were. -/
theorem Grown.below (hg : Grown np k0 R d (npages sz) j k) (hd : R.root .fresh = some d)
    (hsz : PGROUNDUP sz ≤ KERNBASE) : SameBelow d (PGROUNDUP sz) k0 k := by
  intro va hva
  have hlow : va < KERNBASE := hva.trans_le hsz
  have hmap := hg.old va hlow (lt_PGROUNDUP.mp hva)
  refine ⟨hmap, byteAt_congr hmap fun w hw => ?_⟩
  have hpage := page_eq_mapping (k := k0) hd hlow
  rw [hw] at hpage
  exact (hg.mem _ _ _ hpage).2

theorem allocuvm_grown {oldsz newsz : ℕ} (hi : PageInv k0 R NPAGES) (hd : R.root .fresh = some d)
    (hs : R.HandsFree) (hle : oldsz ≤ newsz)
    (hall : ∀ va < KERNBASE, va / PGSIZE < npages oldsz → k0.mapping d va ≠ none)
    (hnone : ∀ va < KERNBASE, npages oldsz ≤ va / PGSIZE → k0.mapping d va = none)
    (hfit : TablesFit k0 d (npages oldsz) (npages newsz)) (np : ℕ) :
    Ends (allocuvm d oldsz newsz) k0 (fun r k' => (r = 0 ∧ SameBelow d KERNBASE k0 k') ∨
      (r = newsz ∧ newsz < KERNBASE) ∧
        ∃ j, npages oldsz + j = npages newsz ∧ Grown np k0 R d (npages oldsz) j k')
      fun _ => ¬0 < k0.kend := by
  have hp := PGSIZE_eq
  rw [allocuvm]
  split
  · exact ends_pure (.inl ⟨rfl, fun _ _ => ⟨rfl, rfl⟩⟩)
  rename_i hnew
  rw [if_neg hle.not_gt]
  have hmono : npages oldsz ≤ npages newsz := Nat.div_le_div_right (by omega)
  have hstart : Grown np k0 R d (npages oldsz) 0 k0 := .start hi hnone
  refine (allocLoop_grown hd hs (not_le.mp hnew) hall hnone hfit _ (PGROUNDUP oldsz) 0
    hstart (Nat.mul_mod_left ..) (Nat.mul_div_cancel _ (by decide)) hmono ?_).mono ?_
  · rw [hp]
    omega
  · rintro r k' (hback | ⟨hr, hg⟩)
    · exact .inl hback
    · exact .inr ⟨⟨hr, not_le.mp hnew⟩, hg⟩

end Grown

theorem userByte_of_mapping {w : ℕ} (hw : k.mapping d va = some w) (hu : PTE_U w) :
    k.userByte d va = some ((k.mem (ptePage w)).get (va % PGSIZE)) := by
  obtain ⟨hpte, hp⟩ := mapping_eq_some.mp hw
  rw [userByte, hpte, Option.bind_some, if_pos ⟨hp, hu⟩]

theorem PGROUNDUP_mono {a b : ℕ} (hab : a ≤ b) : PGROUNDUP a ≤ PGROUNDUP b :=
  Nat.mul_le_mul_right _ (Nat.div_le_div_right (by omega))

theorem PGROUNDUP_le (hsz : sz ≤ KERNBASE) : PGROUNDUP sz ≤ KERNBASE :=
  PGROUNDUP_mono hsz

end Kmem

namespace VmSys

open Kmem

/-- The page of a process that is one page long is freed. -/
theorem deallocuvm_frees_one : ∃ k k' x, k.mapping 57275 0 = some x ∧
    deallocuvm 57275 PGSIZE 0 k = .ok (0, k') ∧ k'.mapping 57275 0 = none := by
  obtain ⟨k, halloc, hkend, -⟩ := forged_image
  have hroot := root_setRoot started.roots .fresh (some 57275)
  have hi := pageInv_allocuvm (by simp) halloc
  obtain ⟨x, hx⟩ : ∃ x, k.mapping 57275 0 = some x := by
    have hne : (started.roots.setRoot .fresh (some 57275)).page k.mem
        (.user .fresh (PDX 0) (PTX 0)) ≠ none :=
      (upto_allocuvm halloc _ (by decide) _ (by decide)).mpr (by decide)
    have hpage := page_eq_mapping (k := k) hroot (show 0 < KERNBASE by decide)
    rcases hm : k.mapping 57275 0 with _ | w
    · rw [hm] at hpage
      exact absurd hpage hne
    · exact ⟨w, rfl⟩
  obtain ⟨k', l, hk', hgone, -⟩ := (deallocuvm_frees hi hroot (by rw [hkend]; decide)
    (show 0 < PGSIZE by decide) (by decide)).mpr (noSkip_of_aligned rfl)
  exact ⟨k, k', x, hx, hk', hgone 0 (by decide) (by decide)⟩

/-- **A page is left behind**: the directory has a page at 4 MB and none below, and `deallocuvm`
starts at page 1. There is no page table for it, so that the loop goes on at page 1025. -/
theorem deallocuvm_skips : ∃ k k' R h, PageInv k R NPAGES ∧ R.root h = some 57275 ∧ 0 < k.kend ∧
    deallocuvm 57275 0x401000 0x1000 k = .ok (0x1000, k') ∧
    PGROUNDUP 0x1000 ≤ 0x400000 ∧ k'.mapping 57275 0x400000 ≠ none := by
  obtain ⟨⟨r, k⟩, halloc, hkend, hent, hmap⟩ := exists_ok_of_check
    (P := fun x : ℕ × Kmem => x.2.kend = 256 ∧ ent x.2.mem 57275 0 = none ∧
      x.2.mapping 57275 0x400000 ≠ none)
    (x := allocuvm 57275 0x400000 0x401000 (kernelMapped execStart 57211)) (by decide)
  have hpd : PDX 0x1000 = 0 := by decide
  refine ⟨k, k, _, .fresh, pageInv_allocuvm (by decide) halloc, by simp [setRoot],
    by rw [hkend]; decide, ?_, by decide, hmap⟩
  have hwalk : walkpgdir 57275 0x1000 false k = .ok (none, k) := by
    rw [walkpgdir_eq, hpd, hent]
    rfl
  have hloop : deallocLoop 57275 0x401000 (1025 + 1) 0x1000 k = .ok ((), k) := by
    rw [deallocLoop, if_pos (by decide), Exec.bind_ok hwalk]
    rfl
  rw [deallocuvm, if_neg (by decide)]
  exact Exec.bind_ok hloop

/-! ## `growproc` -/

section Growproc

variable {s : VmSys} {p : ℕ} {n : ℤ} {oom : List Bool}

/-- The call of `allocuvm` or `deallocuvm` in `growproc`. -/
def resize (d sz : ℕ) (n : ℤ) : Exec Stop Kmem ℕ :=
  let new := ((sz + n) % 2 ^ 32).toNat
  if n > 0 then allocuvm d sz new else deallocuvm d sz new

/-- **`growproc`**, with what it returns: 0 or -1. -/
def growprocResult (s : VmSys) (p : ℕ) (n : ℤ) (oom : List Bool) : Except Stop (ℤ × VmSys) :=
  if n = 0 then .ok (0, s)
  else
    match resize (s.proc p).pgdir (s.proc p).sz n (s.start oom) with
    | .ok (r, km) =>
      let s : VmSys := { s with km := km }
      .ok (if r = 0 then (-1, s) else (0, s.setProc p { s.proc p with sz := r }))
    | .error e => .error e

/-- It is the `growproc` of the calls of the kernel. -/
theorem growproc_eq : s.growproc p n oom = (s.growprocResult p n oom).map Prod.snd := by
  rw [growproc, growprocResult, resize]
  rcases lt_trichotomy n 0 with hn | rfl | hn
  · rw [if_neg hn.not_gt, if_pos hn, if_neg hn.ne, if_neg hn.not_gt, withMem, start]
    rcases deallocuvm _ _ _ _ with e | ⟨r, km⟩
    · rfl
    · by_cases hr : r = 0 <;> simp [hr, Except.map]
  · rfl
  · rw [if_pos hn, if_neg hn.ne', if_pos hn, withMem, start]
    rcases allocuvm _ _ _ _ with e | ⟨r, km⟩
    · rfl
    · by_cases hr : r = 0 <;> simp [hr, Except.map]

/-- The directory of `p` is being worked on. -/
theorem pageInv_fresh {k : Kmem} {R : Roots} {d : ℕ} (hi : PageInv k R NPAGES)
    (hd : R.root (.proc p) = some d) :
    PageInv k ((R.setRoot (.proc p) none).setRoot .fresh (some d)) NPAGES := by
  have hroot : ∀ h x, ((R.setRoot (.proc p) none).setRoot .fresh (some d)).root h = some x →
      h ≠ .proc p ∧ R.root (if h = .fresh then .proc p else h) = some x := by
    intro h x hx
    rcases eq_or_ne h .fresh with rfl | h1
    · simp only [setRoot, update_self] at hx
      exact ⟨by simp, by rw [if_pos rfl, hd, hx]⟩
    · rcases eq_or_ne h (.proc p) with rfl | h2
      · simp [setRoot] at hx
      · simp only [setRoot, update_of_ne h1, update_of_ne h2] at hx
        exact ⟨h2, by rwa [if_neg h1]⟩
  refine hi.rename id (fun h => if h = .fresh then .proc p else h) (fun _ _ h => h)
    (fun h x hx => (hroot h x hx).2) (fun _ _ _ _ _ he => he) fun h h' x hx hx' he => ?_
  have h1 := (hroot h x hx).1
  have h2 := (hroot h' x hx').1
  by_cases hf : h = .fresh <;> by_cases hf' : h' = .fresh <;> simp_all

/-- What `growproc` has done when it returns 0. -/
structure Resized (s : VmSys) (p : ℕ) (n : ℤ) (s' : VmSys) : Prop where
  size : ((s'.proc p).sz : ℤ) = (s.proc p).sz + n
  small : (s'.proc p).sz < KERNBASE
  same : SameBelow (s.proc p).pgdir (PGROUNDUP (min (s.proc p).sz (s'.proc p).sz)) s.km s'.km
  zero : ∀ va, PGROUNDUP (s.proc p).sz ≤ va → va < PGROUNDUP (s'.proc p).sz →
    s'.km.userByte (s.proc p).pgdir va = some 0
  released : ∀ va < KERNBASE, PGROUNDUP (s'.proc p).sz ≤ va →
    s'.km.mapping (s.proc p).pgdir va = none ∧
    ∀ w, s.km.mapping (s.proc p).pgdir va = some w → ptePage w ∈ s'.km.free

/-- `growproc` that maps pages. -/
theorem Resized.grow {R : Roots} {d j : ℕ} {k : Kmem} (hd : R.root .fresh = some d)
    (hpgdir : (s.proc p).pgdir = d) (hmapped : ∀ va < KERNBASE,
      s.km.mapping d va ≠ none ↔ va < PGROUNDUP (s.proc p).sz)
    (hn : 0 < n) (hsmall : (s.proc p).sz + n < KERNBASE)
    (hj : npages (s.proc p).sz + j = npages ((s.proc p).sz + n).toNat)
    (hg : Grown NPROC (s.start oom) R d (npages (s.proc p).sz) j k) :
    s.Resized p n (({ s with km := k } : VmSys).setProc p
      { s.proc p with sz := ((s.proc p).sz + n).toNat }) := by
  obtain ⟨new, hnew⟩ : ∃ new, new = ((s.proc p).sz + n).toNat := ⟨_, rfl⟩
  rw [← hnew] at hj ⊢
  have hsz : (new : ℤ) = (s.proc p).sz + n := by omega
  have hlt : new < KERNBASE := by omega
  have hle : (s.proc p).sz ≤ new := by omega
  have hproc : ((({ s with km := k } : VmSys).setProc p
      { s.proc p with sz := new }).proc p).sz = new := by simp [setProc]
  refine ⟨by rw [hproc, hsz], by rw [hproc]; exact hlt, ?_, fun va h1 h2 => ?_, fun va hva h1 => ?_⟩
  · rw [hproc, min_eq_left hle, hpgdir]
    exact hg.below hd (PGROUNDUP_le (hle.trans hlt.le))
  · rw [hproc] at h2
    have hge : npages (s.proc p).sz ≤ va / PGSIZE :=
      not_lt.mp fun hc => h1.not_gt (lt_PGROUNDUP.mpr hc)
    obtain ⟨w, hw, hu, hzero⟩ := hg.new va (h2.trans_le (PGROUNDUP_le hlt.le)) hge
      (hj ▸ lt_PGROUNDUP.mp h2)
    rw [hpgdir]
    refine (userByte_of_mapping hw hu).trans ?_
    rw [hzero, Bytes.get_zero]
  rw [hproc] at h1
  have hge : npages new ≤ va / PGSIZE := not_lt.mp fun hc => h1.not_gt (lt_PGROUNDUP.mpr hc)
  rw [hpgdir]
  refine ⟨hg.above va hva (hj ▸ hge), fun w hw => ?_⟩
  have := (hmapped va hva).mp (by rw [hw]; simp)
  exact absurd (this.trans_le (PGROUNDUP_mono hle)) h1.not_gt

/-- A process without holes. -/
theorem mapping_of_upto {k : Kmem} {R : Roots} {h : Root} {d sz : ℕ} (hd : R.root h = some d)
    (hu : Upto R k h (npages sz)) : ∀ va < KERNBASE, k.mapping d va ≠ none ↔ va < PGROUNDUP sz := by
  intro va hva
  have hiff := hu (PDX va) (PDX_user hva) (PTX va) PTX_lt
  rw [page_eq_mapping hd hva, page_number] at hiff
  rw [lt_PGROUNDUP, ← hiff]
  exact not_congr Option.map_eq_none_iff.symm

end Growproc

end VmSys

end Xv6
