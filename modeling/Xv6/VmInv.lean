import Xv6.Vm
import Mathlib.Data.List.Nodup

/-!
# One owner for every page

A page can be in use in several ways (`PageUse`): as a single page (a kernel stack, a pipe, a page
that running code has in its hands), or as a page directory, one of its page tables or one of the
user pages these map, as the entries in memory say. `Inv` says that no page is in use in two ways,
that no page in use is free, and that no page is on the free list twice.

Each operation on memory moves a page from one use to another, or between a use and the free list;
there is one lemma for each kind of move, and one specification for each function of `vm.c`.
-/

namespace Xv6

open Function List

/-- What holds a single page. -/
inductive Single : Type where
  | kstack (p : ℕ)
  | pipe (k : ℕ)
  /-- a local variable of running code -/
  | hand (n : ℕ)
  deriving DecidableEq

/-- What holds a page directory. -/
inductive Root : Type where
  | kern
  | proc (p : ℕ)
  /-- a directory that is being built or taken apart -/
  | fresh
  deriving DecidableEq

/-- The ways in which a page is in use. -/
inductive PageUse : Type where
  | single (k : Single)
  | dir (h : Root)
  /-- the page table of entry `i` -/
  | tab (h : Root) (i : ℕ)
  /-- the user page of entry `j` of page table `i` -/
  | user (h : Root) (i j : ℕ)
  deriving DecidableEq

/-- Who holds which pages and directories. -/
structure Roots where
  single : Single → Option ℕ
  root : Root → Option ℕ

/-- The page that entry `i` of the table in page `x` refers to. -/
def ent (m : ℕ → Bytes PGSIZE) (x i : ℕ) : Option ℕ :=
  if PTE_P ((m x).u32 (4 * i)) then some (ptePage ((m x).u32 (4 * i))) else none

variable {m' : ℕ → Bytes PGSIZE}

namespace Roots

/-- The page that is in use in the way `o`. -/
def page (R : Roots) (m : ℕ → Bytes PGSIZE) : PageUse → Option ℕ
  | .single k => R.single k
  | .dir h => R.root h
  | .tab h i => if i < NPTENTRIES then (R.root h).bind fun d => ent m d i else none
  | .user h i j => if i < 512 ∧ j < NPTENTRIES then
      (R.root h).bind fun d => (ent m d i).bind fun t => ent m t j
    else none

/-- Give the page `x` to `k`, or take it away. -/
def setSingle (R : Roots) (k : Single) (x : Option ℕ) : Roots :=
  { R with single := update R.single k x }

def setRoot (R : Roots) (h : Root) (d : Option ℕ) : Roots :=
  { R with root := update R.root h d }

theorem root_setRoot (R : Roots) (h : Root) (d : Option ℕ) : (R.setRoot h d).root h = d :=
  update_self ..

/-- No page is in hand. -/
def HandsFree (R : Roots) : Prop := ∀ n, R.single (.hand n) = none

/-- The roots with the directory of `h` taken apart: its page and the pages of its tables are in
hand. -/
def apart (R : Roots) (m : ℕ → Bytes PGSIZE) (h : Root) (d : ℕ) : Roots where
  single := fun
    | .hand n => if n = NPTENTRIES then some d else if n < NPTENTRIES then ent m d n else none
    | s => R.single s
  root := update R.root h none

variable {R : Roots} {m : ℕ → Bytes PGSIZE} {h : Root} {i j x d t : ℕ}

theorem tab_eq_some :
    R.page m (.tab h i) = some t ↔ i < NPTENTRIES ∧ ∃ d, R.root h = some d ∧
      ent m d i = some t := by
  simp only [page]
  split
  · rename_i hi
    simp [hi, Option.bind_eq_some_iff]
  · rename_i hi
    simp [hi]

theorem user_eq_some : R.page m (.user h i j) = some x ↔
      (i < 512 ∧ j < NPTENTRIES) ∧ ∃ t, R.page m (.tab h i) = some t ∧ ent m t j = some x := by
  simp only [page]
  split
  · rename_i hij
    have hi : i < NPTENTRIES := hij.1.trans (by decide)
    simp only [hij, hi, true_and, if_true, and_self, Option.bind_eq_some_iff]
    constructor
    · rintro ⟨d, hd, t, ht, hx⟩
      exact ⟨t, ⟨d, hd, ht⟩, hx⟩
    · rintro ⟨t, ⟨d, hd, ht⟩, hx⟩
      exact ⟨d, hd, t, ht, hx⟩
  · rename_i hij
    simp [hij]

/-- The page holds a directory or a page table. -/
def IsTable (R : Roots) (m : ℕ → Bytes PGSIZE) (x : ℕ) : Prop :=
  (∃ h, R.root h = some x) ∨ ∃ h i, R.page m (.tab h i) = some x

/-- Only directories and page tables matter for who uses what. -/
theorem page_congr (hm : ∀ x, R.IsTable m x → m' x = m x) : R.page m' = R.page m := by
  have htab : ∀ h i, R.page m' (.tab h i) = R.page m (.tab h i) := by
    intro h i
    simp only [page]
    split
    · rcases hd : R.root h with _ | d
      · rfl
      · simp only [Option.bind_some, ent, hm d (Or.inl ⟨h, hd⟩)]
    · rfl
  funext o
  cases o with
  | single k => rfl
  | dir h => rfl
  | tab h i => exact htab h i
  | user h i j =>
    apply Option.ext
    intro x
    rw [user_eq_some, user_eq_some, htab]
    constructor
    · rintro ⟨hij, t, ht, hx⟩
      exact ⟨hij, t, ht, by rwa [ent, hm t (Or.inr ⟨h, i, ht⟩)] at hx⟩
    · rintro ⟨hij, t, ht, hx⟩
      exact ⟨hij, t, ht, by rwa [ent, hm t (Or.inr ⟨h, i, ht⟩)]⟩

end Roots

open Roots

/-- **The invariant**: every page in use or free lies below `top` and not in the kernel, and has one
owner. -/
structure PageInv (k : Kmem) (R : Roots) (top : ℕ) : Prop where
  top_le : top ≤ NPAGES
  nodup : k.free.Nodup
  free_range : ∀ x ∈ k.free, x < top
  range : ∀ o x, R.page k.mem o = some x → x < top
  free : ∀ o x, R.page k.mem o = some x → x ∉ k.free
  inj : ∀ o o' x, R.page k.mem o = some x → R.page k.mem o' = some x → o = o'
  twice : k.twice = false
  low : ∀ x, (x ∈ k.free ∨ ∃ o, R.page k.mem o = some x) → k.kend ≤ x
  /-- the page tables of the kernel part are as `setupkvm` has made them -/
  kern : ∀ h i t, R.page k.mem (.tab h i) = some t → 512 ≤ i → k.mem t = Kmem.kernelTable i

namespace PageInv

variable {k k' : Kmem} {R R' : Roots} {top : ℕ} {h : Root} {i j x d t n : ℕ} {o : PageUse}

section

variable (hi : PageInv k R top)

include hi

/-- **Moving pages**: every use after the move had its page before, in another way, and no two had
the same. -/
theorem move (hf : k'.free = k.free)
    (ht : k'.twice = k.twice) (hk : k'.kend = k.kend) (f : PageUse → PageUse)
    (hmap : ∀ o x, R'.page k'.mem o = some x → R.page k.mem (f o) = some x)
    (hinj : ∀ o o' x, R'.page k'.mem o = some x → R'.page k'.mem o' = some x → f o = f o' → o = o')
    (hkern : ∀ h i t, R'.page k'.mem (.tab h i) = some t → 512 ≤ i →
      k'.mem t = Kmem.kernelTable i) : PageInv k' R' top := by
  refine ⟨hi.top_le, by rw [hf]; exact hi.nodup, by rw [hf]; exact hi.free_range, ?_, ?_, ?_,
    by rw [ht]; exact hi.twice, ?_, hkern⟩
  · intro o x ho
    exact hi.range _ x (hmap o x ho)
  · intro o x ho
    rw [hf]
    exact hi.free _ x (hmap o x ho)
  · intro o o' x ho ho'
    exact hinj o o' x ho ho' (hi.inj _ _ x (hmap o x ho) (hmap o' x ho'))
  · rw [hf, hk]
    rintro x (hx | ⟨o, ho⟩)
    · exact hi.low x (.inl hx)
    · exact hi.low x (.inr ⟨f o, hmap o x ho⟩)

/-- **Renaming**: pages and directories may change their holders, or be forgotten. -/
theorem rename (f : Single → Single) (g : Root → Root)
    (hs : ∀ s x, R'.single s = some x → R.single (f s) = some x)
    (hr : ∀ h d, R'.root h = some d → R.root (g h) = some d)
    (hf : ∀ s s' x, R'.single s = some x → R'.single s' = some x → f s = f s' → s = s')
    (hg : ∀ h h' d, R'.root h = some d → R'.root h' = some d → g h = g h' → h = h') :
    PageInv k R' top := by
  have htab : ∀ h i x, R'.page k.mem (.tab h i) = some x → R.page k.mem (.tab (g h) i) =
    some x := by
    intro h i x hx
    obtain ⟨hlt, d, hd, hx⟩ := tab_eq_some.mp hx
    exact tab_eq_some.mpr ⟨hlt, d, hr h d hd, hx⟩
  -- two directories with the same name are the same
  have hdir : ∀ h h' d d', R'.root h = some d → R'.root h' = some d' → g h = g h' → h = h' := by
    intro h h' d d' hd hd' he
    have hdd : d = d' := by
      have h1 := hr h d hd
      rw [he, hr h' d' hd'] at h1
      exact (Option.some.inj h1).symm
    exact hg h h' d hd (hdd ▸ hd') he
  refine hi.move rfl rfl rfl (fun
    | .single s => .single (f s)
    | .dir h => .dir (g h)
    | .tab h i => .tab (g h) i
    | .user h i j => .user (g h) i j) ?_ ?_ fun h i t ht => hi.kern (g h) i t (htab h i t ht)
  · intro o x ho
    cases o with
    | single s => exact hs s x ho
    | dir h => exact hr h x ho
    | tab h i => exact htab h i x ho
    | user h i j =>
      obtain ⟨hij, t, ht, hx⟩ := user_eq_some.mp ho
      exact user_eq_some.mpr ⟨hij, t, htab h i t ht, hx⟩
  · intro o o' x ho ho' he
    cases o with
    | single s =>
      cases o' with
      | single s' => rw [hf s s' x ho ho' (by simpa using he)]
      | dir | tab | user => cases he
    | dir h =>
      cases o' with
      | dir h' => rw [hg h h' x ho ho' (by simpa using he)]
      | single | tab | user => cases he
    | tab h i =>
      cases o' with
      | tab h' i' =>
        obtain ⟨-, d, hd, -⟩ := tab_eq_some.mp ho
        obtain ⟨-, d', hd', -⟩ := tab_eq_some.mp ho'
        obtain ⟨hgh, rfl⟩ : g h = g h' ∧ i = i' := by simpa using he
        rw [hdir h h' d d' hd hd' hgh]
      | single | dir | user => cases he
    | user h i j =>
      cases o' with
      | user h' i' j' =>
        obtain ⟨-, t, ht, -⟩ := user_eq_some.mp ho
        obtain ⟨-, t', ht', -⟩ := user_eq_some.mp ho'
        obtain ⟨-, d, hd, -⟩ := tab_eq_some.mp ht
        obtain ⟨-, d', hd', -⟩ := tab_eq_some.mp ht'
        obtain ⟨hgh, rfl, rfl⟩ : g h = g h' ∧ i = i' ∧ j = j' := by simpa using he
        rw [hdir h h' d d' hd hd' hgh]
      | single | dir | tab => cases he

/-- Pages may be forgotten. -/
theorem forget (hs : ∀ k x, R'.single k = some x → R.single k = some x)
    (hr : ∀ h d, R'.root h = some d → R.root h = some d) : PageInv k R' top :=
  hi.rename id id hs hr (fun _ _ _ _ _ he => he) fun _ _ _ _ _ he => he

/-- A page that is no table. -/
theorem not_isTable (ho : R.page k.mem o = some x)
    (hd : ∀ h, o ≠ .dir h) (ht : ∀ h i, o ≠ .tab h i) : ¬ R.IsTable k.mem x := by
  rintro (⟨h, hx⟩ | ⟨h, i, hx⟩)
  · exact hd h (hi.inj o (.dir h) x ho hx)
  · exact ht h i (hi.inj o (.tab h i) x ho hx)

/-- **Writing to a page that is no table** changes no owner. -/
theorem write (hx : ¬ R.IsTable k.mem x) (b : Bytes PGSIZE) :
    PageInv { k with mem := update k.mem x b } R top := by
  have hpage : R.page (update k.mem x b) = R.page k.mem := by
    refine page_congr fun y hy => update_of_ne ?_ _ _
    rintro rfl
    exact hx hy
  refine hi.move rfl rfl rfl id (fun o y ho => ?_) (fun o o' x _ _ he => he) fun h i t ht h5 => ?_
  · rwa [hpage] at ho
  · replace ht : R.page (update k.mem x b) (.tab h i) = some t := ht
    rw [hpage] at ht
    refine (update_of_ne ?_ ..).trans (hi.kern h i t ht h5)
    rintro rfl
    exact hx (.inr ⟨h, i, ht⟩)

/-! ### `kalloc` and `kfree` -/

theorem take {free : List ℕ} (hf : k.free = x :: free) (oom : List Bool) :
    PageInv { k with free := free, oom := oom } (R.setSingle (.hand n) (some x)) top := by
  have hx : x ∈ k.free := by rw [hf]; exact mem_cons_self
  have hnodup := hi.nodup
  rw [hf] at hnodup
  have hpage : ∀ o y, (R.setSingle (.hand n) (some x)).page k.mem o = some y →
      (o = .single (.hand n) ∧ y = x) ∨ R.page k.mem o = some y := by
    intro o y ho
    rcases eq_or_ne o (.single (.hand n)) with rfl | hne
    · exact Or.inl ⟨rfl, by simpa [page, setSingle] using ho.symm⟩
    refine Or.inr ?_
    cases o with
    | single s =>
      have hs : s ≠ .hand n := fun he => hne (by rw [he])
      simpa [page, setSingle, hs] using ho
    | dir h => exact ho
    | tab h i => exact ho
    | user h i j => exact ho
  refine ⟨hi.top_le, (nodup_cons.mp hnodup).2, ?_, ?_, ?_, ?_, hi.twice, ?_, hi.kern⟩
  · intro y hy
    exact hi.free_range y (by rw [hf]; exact mem_cons_of_mem _ hy)
  · intro o y ho
    rcases hpage o y ho with ⟨-, rfl⟩ | ho
    · exact hi.free_range y hx
    · exact hi.range o y ho
  · intro o y ho hy
    rcases hpage o y ho with ⟨-, rfl⟩ | ho
    · exact (nodup_cons.mp hnodup).1 hy
    · exact hi.free o y ho (by rw [hf]; exact mem_cons_of_mem _ hy)
  · intro o o' y ho ho'
    rcases hpage o y ho with ⟨rfl, rfl⟩ | ho <;> rcases hpage o' _ ho' with ⟨rfl, hy⟩ | ho'
    · rfl
    · exact absurd hx (hi.free o' _ ho')
    · exact absurd (hy ▸ hx) (hi.free o _ ho)
    · exact hi.inj o o' _ ho ho'
  · rintro y (hy | ⟨o, ho⟩)
    · exact hi.low y (.inl (by rw [hf]; exact mem_cons_of_mem _ hy))
    · rcases hpage o y ho with ⟨-, rfl⟩ | ho
      · exact hi.low y (.inl hx)
      · exact hi.low y (.inr ⟨o, ho⟩)

end

/-- `kfree` of a page that is no table changes no use. -/
theorem page_freed (hx : ¬ R.IsTable k.mem x) : R.page (k.freed x).mem = R.page k.mem := by
  refine page_congr fun y hy => update_of_ne ?_ _ _
  rintro rfl
  exact hx hy

/-- Nobody has the page, so it is no table. -/
theorem not_isTable_of_unused (hown : ∀ o, R.page k.mem o ≠ some x) : ¬ R.IsTable k.mem x := by
  rintro (⟨h, hd⟩ | ⟨h, i, ht⟩)
  · exact hown (.dir h) hd
  · exact hown (.tab h i) ht

/-- A page that nobody has is put on the free list. -/
theorem give (hi : PageInv k R top) (hx : x < top) (hlow : k.kend ≤ x) (hfree : x ∉ k.free)
    (hown : ∀ o, R.page k.mem o ≠ some x) : PageInv (k.freed x) R top := by
  have hnot := not_isTable_of_unused hown
  have hw := hi.write hnot fun _ => 1
  have hpage := page_freed hnot
  refine ⟨hi.top_le, nodup_cons.mpr ⟨hfree, hi.nodup⟩, ?_, hw.range, ?_, hw.inj, ?_, ?_, hw.kern⟩
  · intro y hy
    rcases mem_cons.mp hy with rfl | hy
    · exact hx
    · exact hi.free_range y hy
  · intro o y ho hy
    rw [hpage] at ho
    rcases mem_cons.mp hy with rfl | hy
    · exact hown o ho
    · exact hi.free o y ho hy
  · simp [Kmem.freed, hi.twice, hfree]
  rintro y (hy | ⟨o, ho⟩)
  · rcases mem_cons.mp hy with rfl | hy
    · exact hlow
    · exact hi.low y (.inl hy)
  · rw [hpage] at ho
    exact hi.low y (.inr ⟨o, ho⟩)

end PageInv

/-! ## Entries -/

section Entries

variable {m : ℕ → Bytes PGSIZE} {x y i j w : ℕ}

theorem ent_setWord_self (hi : i < NPTENTRIES) (hw : w < 2 ^ 32) :
    ent (update m x ((m x).setU32 (4 * i) w)) x i =
      if PTE_P w then some (ptePage w) else none := by
  have hn : NPTENTRIES = 1024 := rfl
  have hp := PGSIZE_eq
  rw [ent, update_self, Bytes.u32_setU32_self (by omega) hw]

theorem ent_setWord_ne (hij : j ≠ i) :
    ent (update m x ((m x).setU32 (4 * i) w)) x j = ent m x j := by
  rw [ent, ent, update_self, Bytes.u32_setU32_ne (by omega)]

theorem ent_update_ne {b : Bytes PGSIZE} (hy : y ≠ x) (j : ℕ) :
    ent (update m x b) y j = ent m y j := by
  rw [ent, ent, update_of_ne hy]

theorem mkPte_spec (perm : ℕ) (hx : x < NPAGES) :
    mkPte x perm < 2 ^ 32 ∧ PTE_P (mkPte x perm) ∧ ptePage (mkPte x perm) = x := by
  have hn : NPAGES = 57344 := rfl
  have hp := PGSIZE_eq
  rw [PTE_P, ptePage, mkPte, hp]
  omega

end Entries

namespace PageInv

variable {k k' : Kmem} {R R' : Roots} {top : ℕ} {h : Root} {i j x d t n w perm : ℕ} {o : PageUse}

/-- The uses after a store into word `j` of page table `i`. -/
theorem page_setTab (hi : PageInv k R top) (ht : R.page k.mem (.tab h i) = some t)
    (o : PageUse) (ho : o ≠ .user h i j) :
    R.page (update k.mem t ((k.mem t).setU32 (4 * j) w)) o = R.page k.mem o := by
  have hdir : ∀ h' d, R.root h' = some d → d ≠ t := by
    rintro h' d hd rfl
    cases hi.inj (.dir h') (.tab h i) d hd ht
  have htab : ∀ h' i', R.page (update k.mem t ((k.mem t).setU32 (4 * j) w)) (.tab h' i') =
      R.page k.mem (.tab h' i') := by
    intro h' i'
    simp only [page]
    split
    · rcases hd : R.root h' with _ | d
      · rfl
      · simp only [Option.bind_some]
        exact ent_update_ne (hdir h' d hd) i'
    · rfl
  cases o with
  | single s => rfl
  | dir h' => rfl
  | tab h' i' => exact htab h' i'
  | user h' i' j' =>
    apply Option.ext
    intro y
    rw [user_eq_some, user_eq_some, htab]
    -- another table, or another entry of the same one
    have hent : ∀ t', R.page k.mem (.tab h' i') = some t' →
        ent (update k.mem t ((k.mem t).setU32 (4 * j) w)) t' j' = ent k.mem t' j' := by
      intro t' ht'
      rcases eq_or_ne t' t with rfl | htt
      · obtain ⟨rfl, rfl⟩ : h' = h ∧ i' = i := by simpa using hi.inj _ _ t' ht' ht
        exact ent_setWord_ne fun hjj => ho (by rw [hjj])
      · exact ent_update_ne htt j'
    constructor
    · rintro ⟨hij, t', ht', hy⟩
      exact ⟨hij, t', ht', by rwa [hent t' ht'] at hy⟩
    · rintro ⟨hij, t', ht', hy⟩
      exact ⟨hij, t', ht', by rwa [hent t' ht']⟩

/-- A store into a page table of user memory leaves those of the kernel part as they are. -/
theorem kern_setTab (hi : PageInv k R top) (ht : R.page k.mem (.tab h i) = some t) (hi5 : i < 512)
    {h' : Root} {i' t' : ℕ} (ht' : R.page (update k.mem t ((k.mem t).setU32 (4 * j) w))
    (.tab h' i') = some t')
    (h5 : 512 ≤ i') : update k.mem t ((k.mem t).setU32 (4 * j) w) t' = Kmem.kernelTable i' := by
  rw [hi.page_setTab ht (.tab h' i') (by simp)] at ht'
  refine (update_of_ne ?_ ..).trans (hi.kern h' i' t' ht' h5)
  rintro rfl
  obtain ⟨-, rfl⟩ : h' = h ∧ i' = i := by simpa using hi.inj _ _ t' ht' ht
  omega

theorem user_setTab (hi : PageInv k R top) (ht : R.page k.mem (.tab h i) = some t) (hi5 : i < 512)
    (hj : j < NPTENTRIES) (hw : w < 2 ^ 32) :
    R.page (update k.mem t ((k.mem t).setU32 (4 * j) w)) (.user h i j) =
      if PTE_P w then some (ptePage w) else none := by
  have htab := hi.page_setTab (j := j) (w := w) ht (.tab h i) nofun
  obtain ⟨-, d, hd, hent⟩ := tab_eq_some.mp (htab.trans ht)
  simp only [page, hi5, hj, and_self, if_true, hd, Option.bind_some, hent]
  exact ent_setWord_self hj hw

/-- **Handing a page over**: the use `o2` gives its page to `o1`, and nothing else changes. -/
theorem handover (hi : PageInv k R top) (o1 o2 : PageUse) (hf : k'.free = k.free)
    (ht : k'.twice = k.twice) (hk : k'.kend = k.kend) (hx : R.page k.mem o2 = some x)
    (h1 : ∀ y, R'.page k'.mem o1 = some y → y = x) (h2 : R'.page k'.mem o2 = none)
    (hrest : ∀ o, o ≠ o1 → o ≠ o2 → R'.page k'.mem o = R.page k.mem o)
    (hkern : ∀ h i t, R'.page k'.mem (.tab h i) = some t → 512 ≤ i →
      k'.mem t = Kmem.kernelTable i) : PageInv k' R' top := by
  refine hi.move hf ht hk (fun o => if o = o1 then o2 else o) ?_ ?_ hkern
  · intro o y ho
    split
    · rename_i he
      rw [h1 y (he ▸ ho)]
      exact hx
    rename_i hne
    have hne2 : o ≠ o2 := by
      rintro rfl
      rw [h2] at ho
      cases ho
    rwa [← hrest o hne hne2]
  · intro o o' y ho ho' he
    have hne2 : ∀ u, R'.page k'.mem u = some y → u ≠ o2 := by
      rintro u hu rfl
      rw [h2] at hu
      cases hu
    split at he <;> split at he
    · rename_i h h'
      rw [h, h']
    · exact absurd he.symm (hne2 o' ho')
    · exact absurd he (hne2 o ho)
    · exact he

theorem page_setSingle_of_ne (s : Single) (y : Option ℕ) {m : ℕ → Bytes PGSIZE}
    (ho : o ≠ .single s) : (R.setSingle s y).page m o = R.page m o := by
  cases o with
  | single s' =>
    have hs : s' ≠ s := fun he => ho (by rw [he])
    simp [page, setSingle, hs]
  | dir | tab | user => rfl

theorem page_setSingle_self (s : Single) (y : Option ℕ) {m : ℕ → Bytes PGSIZE} :
    (R.setSingle s y).page m (.single s) = y := by
  simp [page, setSingle]

section

variable (hi : PageInv k R top)

include hi

/-- A single page becomes the user page of an entry. -/
theorem install_user (ht : R.page k.mem (.tab h i) = some t) (hi5 : i < 512)
    (hj : j < NPTENTRIES) {s : Single} (hx : R.single s = some x) (perm : ℕ) :
    PageInv { k with mem := update k.mem t ((k.mem t).setU32 (4 * j) (mkPte x perm)) }
      (R.setSingle s none) top := by
  obtain ⟨hw, hp, hpage⟩ := mkPte_spec perm ((hi.range (.single s) x hx).trans_le hi.top_le)
  refine hi.handover (.user h i j) (.single s) rfl rfl rfl hx ?_ (page_setSingle_self ..) ?_
    fun h' i' t' ht' => hi.kern_setTab ht hi5 ht'
  · intro y hy
    rw [page_setSingle_of_ne _ _ (by simp), hi.user_setTab ht hi5 hj hw, if_pos hp, hpage] at hy
    exact (Option.some.inj hy).symm
  · intro o ho ho'
    rw [page_setSingle_of_ne _ _ ho']
    exact hi.page_setTab ht o ho

/-- The uses after a page in hand is entered in a directory, in an entry that was not present. Below
the kernel part the new table has to be empty. -/
theorem page_setDir (hd : R.root h = some d) (hnone : ent k.mem d i = none)
    (hlt : i < NPTENTRIES) (hx : R.single (.hand n) = some t)
    (hempty : i < 512 → ∀ j, ent k.mem t j = none) (perm : ℕ)
    (hm' : m' = update k.mem d ((k.mem d).setU32 (4 * i) (mkPte t perm))) :
    R.page m' (.tab h i) = some t ∧ ∀ o, o ≠ .tab h i → R.page m' o = R.page k.mem o := by
  obtain ⟨hw, hp, hpage⟩ := mkPte_spec perm ((hi.range (.single (.hand n)) t hx).trans_le hi.top_le)
  have htd : t ≠ d := by
    rintro rfl
    cases hi.inj (.single (.hand n)) (.dir h) t hx hd
  have hnew : R.page m' (.tab h i) = some t := by
    rw [tab_eq_some]
    refine ⟨hlt, d, hd, ?_⟩
    rw [hm', ent_setWord_self hlt hw, if_pos hp, hpage]
  have htab : ∀ h' i', (h' = h → i' ≠ i) → R.page m' (.tab h' i') = R.page k.mem (.tab h' i') := by
    intro h' i' hne
    simp only [page]
    split
    · rcases hd' : R.root h' with _ | d'
      · rfl
      simp only [Option.bind_some]
      rcases eq_or_ne d' d with rfl | hdd
      · have hh : h' = h := by simpa using hi.inj (.dir h') (.dir h) d' hd' hd
        rw [hm']
        exact ent_setWord_ne (hne hh)
      · rw [hm']
        exact ent_update_ne hdd i'
    · rfl
  have hent : ∀ t', t' ≠ d → ∀ j, ent m' t' j = ent k.mem t' j := by
    intro t' ht' j
    rw [hm']
    exact ent_update_ne ht' j
  refine ⟨hnew, fun o ho => ?_⟩
  cases o with
  | single | dir => rfl
  | tab h' i' => exact htab h' i' fun hh hii => ho (by rw [hh, hii])
  | user h' i' j' =>
    by_cases hsame : h' = h ∧ i' = i
    · -- the entries of the new table
      obtain ⟨rfl, rfl⟩ := hsame
      have hold : R.page k.mem (.user h' i' j') = none := by
        simp [page, hd, hnone]
      rw [hold, Option.eq_none_iff_forall_not_mem]
      intro y hy
      obtain ⟨⟨h5, -⟩, t', ht', hy⟩ := user_eq_some.mp hy
      obtain rfl : t = t' := Option.some.inj (hnew.symm.trans ht')
      rw [hent t htd, hempty h5] at hy
      cases hy
    have htab' := htab h' i' fun hh hii => hsame ⟨hh, hii⟩
    apply Option.ext
    intro y
    rw [user_eq_some, user_eq_some, htab']
    have hne : ∀ t', R.page k.mem (.tab h' i') = some t' → t' ≠ d := by
      rintro t' ht' rfl
      cases hi.inj (.tab h' i') (.dir h) t' ht' hd
    constructor
    · rintro ⟨hij, t', ht', hy⟩
      exact ⟨hij, t', ht', by rwa [hent t' (hne t' ht')] at hy⟩
    · rintro ⟨hij, t', ht', hy⟩
      exact ⟨hij, t', ht', by rwa [hent t' (hne t' ht')]⟩

/-- A page in hand becomes the page table of an entry that was not present. -/
theorem install_tab (hd : R.root h = some d) (hnone : ent k.mem d i = none)
    (hlt : i < NPTENTRIES) (hx : R.single (.hand n) = some t)
    (hempty : i < 512 → ∀ j, ent k.mem t j = none)
    (hkern : 512 ≤ i → k.mem t = Kmem.kernelTable i) (perm : ℕ) :
    PageInv { k with mem := update k.mem d ((k.mem d).setU32 (4 * i) (mkPte t perm)) }
      (R.setSingle (.hand n) none) top := by
  obtain ⟨hnew, hrest⟩ := hi.page_setDir hd hnone hlt hx hempty perm rfl
  have htables : ∀ h' i' t', R.page (update k.mem d ((k.mem d).setU32 (4 * i) (mkPte t perm)))
      (.tab h' i') = some t' → 512 ≤ i' →
      update k.mem d ((k.mem d).setU32 (4 * i) (mkPte t perm)) t' = Kmem.kernelTable i' := by
    intro h' i' t' ht' h5
    by_cases hsame : PageUse.tab h' i' = .tab h i
    · -- the new table
      obtain ⟨rfl, rfl⟩ := PageUse.tab.inj hsame
      obtain rfl : t = t' := Option.some.inj (hnew.symm.trans ht')
      refine (update_of_ne ?_ ..).trans (hkern h5)
      rintro rfl
      cases hi.inj (.single (.hand n)) (.dir h') t hx hd
    · rw [hrest _ hsame] at ht'
      refine (update_of_ne ?_ ..).trans (hi.kern h' i' t' ht' h5)
      rintro rfl
      cases hi.inj (.tab h' i') (.dir h) t' ht' hd
  refine hi.handover (.tab h i) (.single (.hand n)) rfl rfl rfl hx ?_ (page_setSingle_self ..) ?_
    htables
  · intro y hy
    rw [page_setSingle_of_ne _ _ (by simp), hnew] at hy
    exact (Option.some.inj hy).symm
  · intro o ho ho'
    rw [page_setSingle_of_ne _ _ ho']
    exact hrest o ho

/-- A single page is forgotten. -/
theorem drop_single (s : Single) : PageInv k (R.setSingle s none) top := by
  refine hi.forget (fun s' y hy => ?_) fun h d hd => hd
  rcases eq_or_ne s' s with rfl | hs
  · simp [setSingle] at hy
  · simpa [setSingle, hs] using hy

/-- A directory is forgotten, with all its pages. -/
theorem drop_root (h : Root) : PageInv k (R.setRoot h none) top := by
  refine hi.forget (fun _ _ hx => hx) fun h' d hd => ?_
  rcases eq_or_ne h' h with rfl | hh
  · simp [setRoot] at hd
  · simpa [setRoot, hh] using hd

/-- `kfree` of a page in hand. -/
theorem free_hand {s : Single} (hx : R.single s = some x) :
    PageInv (k.freed x) (R.setSingle s none) top := by
  refine (hi.drop_single s).give (hi.range (.single s) x hx) (hi.low x (.inr ⟨.single s, hx⟩))
    (hi.free (.single s) x hx) fun o ho => ?_
  rcases eq_or_ne o (.single s) with rfl | hne
  · rw [page_setSingle_self] at ho
    cases ho
  · rw [page_setSingle_of_ne _ _ hne] at ho
    exact hne (hi.inj o (.single s) x ho hx)

/-- `kfree` of a user page, and the store into its entry after it. -/
theorem free_user (ht : R.page k.mem (.tab h i) = some t) (hi5 : i < 512)
    (hj : j < NPTENTRIES) (hx : ent k.mem t j = some x) {k' : Kmem} (hk' : k' = { k.freed x with
      mem := update (k.freed x).mem t (((k.freed x).mem t).setU32 (4 * j) 0) }) :
    PageInv k' R top ∧ R.page k'.mem (.user h i j) = none ∧
      ∀ o, o ≠ .user h i j → R.page k'.mem o = R.page k.mem o := by
  have hu : R.page k.mem (.user h i j) = some x := user_eq_some.mpr ⟨⟨hi5, hj⟩, t, ht, hx⟩
  have hxt : t ≠ x := by
    rintro rfl
    cases hi.inj (.tab h i) (.user h i j) t ht hu
  -- clear the entry first: then nobody has the page
  obtain ⟨k1, hk1⟩ : ∃ k1, k1 = { k with
    mem := update k.mem t ((k.mem t).setU32 (4 * j) 0) } := ⟨_, rfl⟩
  have hgone : R.page k1.mem (.user h i j) = none := by
    rw [hk1]
    exact hi.user_setTab ht hi5 hj (by decide)
  have hsame : ∀ o, o ≠ .user h i j → R.page k1.mem o = R.page k.mem o := by
    intro o ho
    rw [hk1]
    exact hi.page_setTab ht o ho
  have hclear : PageInv k1 R top := by
    refine hi.move (by rw [hk1]) (by rw [hk1]) (by rw [hk1]) id ?_ (fun o o' y _ _ he => he)
      fun h' i' t' ht' h5' => by rw [hk1] at ht' ⊢; exact hi.kern_setTab ht hi5 ht' h5'
    intro o y ho
    rcases eq_or_ne o (.user h i j) with rfl | hne
    · rw [hgone] at ho
      cases ho
    · rwa [hsame o hne] at ho
  have hown : ∀ o, R.page k1.mem o ≠ some x := by
    intro o ho
    rcases eq_or_ne o (.user h i j) with rfl | hne
    · rw [hgone] at ho
      cases ho
    · rw [hsame o hne] at ho
      exact hne (hi.inj o _ x ho hu)
  have hgive := hclear.give (x := x) (hi.range _ x hu) (by rw [hk1]; exact hi.low x (.inr ⟨_, hu⟩))
    (by rw [hk1]; exact hi.free _ x hu) hown
  have hpage := page_freed (not_isTable_of_unused hown)
  have heq : k' = k1.freed x := by
    rw [hk', hk1]
    simp only [Kmem.freed]
    rw [update_of_ne hxt, update_comm hxt]
  rw [heq, hpage]
  exact ⟨hgive, hgone, hsame⟩

end

/-- The uses after a page in hand with no entries has become a directory. -/
theorem page_root_of_hand (hr : R.root h = none) (hempty : ∀ i, ent k.mem d i = none) (o : PageUse)
    (ho : o ≠ .dir h) (ho' : o ≠ .single (.hand n)) :
    ((R.setSingle (.hand n) none).setRoot h (some d)).page k.mem o = R.page k.mem o := by
  have hother : ∀ h', h' ≠ h →
      ((R.setSingle (.hand n) none).setRoot h (some d)).root h' = R.root h' := by
    intro h' hh
    simp [setRoot, setSingle, hh]
  cases o with
  | single s =>
    have hs : s ≠ .hand n := fun he => ho' (by rw [he])
    simp [page, setRoot, setSingle, hs]
  | dir h' => exact hother h' fun he => ho (by rw [he])
  | tab h' i =>
    rcases eq_or_ne h' h with rfl | hh
    · simp [page, hr, setRoot, hempty]
    · simp only [page, hother h' hh]
  | user h' i j =>
    rcases eq_or_ne h' h with rfl | hh
    · simp [page, hr, setRoot, hempty]
    · simp only [page, hother h' hh]

/-- A page in hand with no entries becomes a directory. -/
theorem root_of_hand (hi : PageInv k R top) (hx : R.single (.hand n) = some d)
    (hr : R.root h = none) (hempty : ∀ i, ent k.mem d i = none) :
    PageInv k ((R.setSingle (.hand n) none).setRoot h (some d)) top := by
  refine hi.handover (.dir h) (.single (.hand n)) rfl rfl rfl hx ?_
    (by simp [page, setRoot, setSingle]) (page_root_of_hand hr hempty) fun h' i t ht =>
      hi.kern h' i t ((page_root_of_hand (n := n) hr hempty (.tab h' i) (by simp)
        (by simp)).symm.trans ht)
  intro y hy
  simpa [page, setRoot] using hy.symm

/-- A directory is taken apart. User pages that are still mapped are forgotten. -/
theorem apart (hi : PageInv k R top) (hd : R.root h = some d) :
    PageInv k (R.apart k.mem h d) top := by
  have hroot : ∀ h' d', (R.apart k.mem h d).root h' = some d' → h' ≠ h ∧ R.root h' = some d' := by
    intro h' d' hd'
    rcases eq_or_ne h' h with rfl | hh
    · simp [Roots.apart] at hd'
    · exact ⟨hh, by simpa [Roots.apart, hh] using hd'⟩
  have htab : ∀ h' i x, (R.apart k.mem h d).page k.mem (.tab h' i) = some x →
      h' ≠ h ∧ R.page k.mem (.tab h' i) = some x := by
    intro h' i x hx
    obtain ⟨hlt, d', hd', hx⟩ := tab_eq_some.mp hx
    exact ⟨(hroot h' d' hd').1, tab_eq_some.mpr ⟨hlt, d', (hroot h' d' hd').2, hx⟩⟩
  have hhand : ∀ n x, (R.apart k.mem h d).single (.hand n) = some x →
      (n = NPTENTRIES ∧ d = x) ∨ (n ≠ NPTENTRIES ∧ R.page k.mem (.tab h n) = some x) := by
    intro n x hx
    simp only [Roots.apart] at hx
    split at hx
    · rename_i hn
      exact Or.inl ⟨hn, Option.some.inj hx⟩
    rename_i hn
    split at hx
    · rename_i hlt
      exact Or.inr ⟨hn, tab_eq_some.mpr ⟨hlt, d, hd, hx⟩⟩
    · cases hx
  let f : PageUse → PageUse := fun
    | .single (.hand n) => if n = NPTENTRIES then .dir h else .tab h n
    | o => o
  have hmap : ∀ o x, (R.apart k.mem h d).page k.mem o = some x → R.page k.mem (f o) = some x := by
    intro o x ho
    cases o with
    | single s =>
      cases s with
      | hand n =>
        rcases hhand n x ho with ⟨rfl, rfl⟩ | ⟨hn, hx⟩
        · exact hd
        · simpa [f, hn] using hx
      | kstack | pipe => exact ho
    | dir h' => exact (hroot h' x ho).2
    | tab h' i => exact (htab h' i x ho).2
    | user h' i j =>
      obtain ⟨hij, t, ht, hx⟩ := user_eq_some.mp ho
      exact user_eq_some.mpr ⟨hij, t, (htab h' i t ht).2, hx⟩
  -- what a use in hand was before is no use any more
  have hkeep : ∀ o x, (R.apart k.mem h d).page k.mem o = some x → (∀ n, o ≠ .single (.hand n)) →
      f o = o ∧ f o ≠ .dir h ∧ ∀ i, f o ≠ .tab h i := by
    intro o x ho hne
    cases o with
    | single s =>
      cases s with
      | hand n => exact absurd rfl (hne n)
      | kstack | pipe => exact ⟨rfl, nofun, fun _ => nofun⟩
    | dir h' => exact ⟨rfl, by simpa [f] using (hroot h' x ho).1, fun _ => nofun⟩
    | tab h' i =>
      have hh := (htab h' i x ho).1
      exact ⟨rfl, nofun, fun i' => by simp [f, hh]⟩
    | user h' i j => exact ⟨rfl, nofun, fun _ => nofun⟩
  have hhands : ∀ n, f (.single (.hand n)) = .dir h ∨ ∃ i, f (.single (.hand n)) = .tab h i := by
    intro n
    simp only [f]
    split
    · exact Or.inl rfl
    · exact Or.inr ⟨n, rfl⟩
  refine hi.move rfl rfl rfl f hmap ?_ fun h' i t ht => hi.kern h' i t (htab h' i t ht).2
  intro o o' x ho ho' he
  by_cases hn : ∃ n, o = .single (.hand n)
  · obtain ⟨n, rfl⟩ := hn
    by_cases hn' : ∃ n', o' = .single (.hand n')
    · obtain ⟨n', rfl⟩ := hn'
      simp only [f] at he
      split at he <;> split at he
      · rename_i h1 h2
        rw [h1, h2]
      · cases he
      · cases he
      · obtain rfl : n = n' := by simpa using he
        rfl
    · obtain ⟨-, h1, h2⟩ := hkeep o' x ho' fun n' he' => hn' ⟨n', he'⟩
      rcases hhands n with hf | ⟨i, hf⟩
      · exact absurd (he.symm.trans hf) h1
      · exact absurd (he.symm.trans hf) (h2 i)
  · obtain ⟨hfo, h1, h2⟩ := hkeep o x ho fun n he' => hn ⟨n, he'⟩
    by_cases hn' : ∃ n', o' = .single (.hand n')
    · obtain ⟨n', rfl⟩ := hn'
      rcases hhands n' with hf | ⟨i, hf⟩
      · exact absurd (he.trans hf) h1
      · exact absurd (he.trans hf) (h2 i)
    · obtain ⟨hfo', -, -⟩ := hkeep o' x ho' fun n' he' => hn' ⟨n', he'⟩
      rw [← hfo, ← hfo', he]

end PageInv

end Xv6
