import Mathlib.Logic.Basic

/-!
# Programs with a state: execution, postconditions, simulation

Sequential code is modelled as a computation `Exec ε σ α`: from a state `σ` it ends with a value
and a new state, or stops with an `ε`. `Wp` is its weakest precondition, with one postcondition
for the normal end and one for stopping.

Code that rests on a lower layer is written once, as a *program* `Prog C R α`: a tree of commands
`c : C`, each of which is answered with an `R c`, and a result. A program has no meaning of its
own; `exec` runs it once the commands have one. So the same program can be run on two layers, and
`exec_sim` is the reason for it: if the commands of one layer follow those of the other (`Follows`),
all programs do.
-/

namespace Xv6

/-! ## Computations -/

/-- A computation on a state `σ` that may stop with an `ε`. -/
def Exec (ε σ α : Type) : Type := σ → Except ε (α × σ)

namespace Exec

variable {ε σ α β : Type}

/-- Return a value and leave the state alone. -/
protected def pure (a : α) : Exec ε σ α := fun s => .ok (a, s)

/-- Run `m`, then go on with its value in the state it left. -/
protected def bind (m : Exec ε σ α) (f : α → Exec ε σ β) : Exec ε σ β := fun s =>
  match m s with
  | .ok (a, s') => f a s'
  | .error e => .error e

instance : Monad (Exec ε σ) where
  pure := Exec.pure
  bind := Exec.bind

instance : LawfulMonad (Exec ε σ) := LawfulMonad.mk' _ (fun m => funext fun s => by
    show Exec.bind m _ s = m s
    rw [Exec.bind]
    rcases m s with e | ⟨a, s'⟩ <;> rfl)
  (fun _ _ => rfl)
  (fun m f g => funext fun s => by
    show Exec.bind (Exec.bind m f) g s = Exec.bind m _ s
    rw [Exec.bind, Exec.bind, Exec.bind]
    rcases m s with e | ⟨a, s'⟩ <;> rfl)

/-- Stop. -/
def stop (e : ε) : Exec ε σ α := fun _ => .error e

/-- Read a part of the state. -/
def gets (f : σ → α) : Exec ε σ α := fun s => .ok (f s, s)

/-- Change the state. -/
def modify (f : σ → σ) : Exec ε σ Unit := fun s => .ok ((), f s)

/-- The weakest precondition: from `s`, the computation ends in `Q` or stops in `E`. -/
def Wp (m : Exec ε σ α) (s : σ) (Q : α → σ → Prop) (E : ε → Prop) : Prop :=
  match m s with
  | .ok (a, s') => Q a s'
  | .error e => E e

variable {m : Exec ε σ α} {f : α → Exec ε σ β} {s s' : σ} {Q Q' : α → σ → Prop} {E E' : ε → Prop}

theorem Wp.of_ok {a : α} (h : m s = .ok (a, s')) (hq : Q a s') : Wp m s Q E := by
  rw [Wp, h]
  exact hq

theorem Wp.of_error {e : ε} (h : m s = .error e) (he : E e) : Wp m s Q E := by
  rw [Wp, h]
  exact he

/-- What the postcondition says about a computation that is known to end. -/
theorem Wp.ok {a : α} (h : Wp m s Q E) (hm : m s = .ok (a, s')) : Q a s' := by
  rw [Wp, hm] at h
  exact h

/-- What the postcondition says about a computation that is known to stop. -/
theorem Wp.error {e : ε} (h : Wp m s Q E) (hm : m s = .error e) : E e := by
  rw [Wp, hm] at h
  exact h

theorem Wp.mono (h : Wp m s Q E) (hQ : ∀ a s', Q a s' → Q' a s') (hE : ∀ e, E e → E' e) :
    Wp m s Q' E' := by
  rw [Wp] at h ⊢
  rcases hm : m s with e | ⟨a, s'⟩ <;> rw [hm] at h
  · exact hE e h
  · exact hQ a s' h

theorem wp_bind {Q : β → σ → Prop} :
    Wp (m >>= f) s Q E ↔ Wp m s (fun a s' => Wp (f a) s' Q E) E := by
  have hb : (m >>= f) s = match m s with
      | .ok (a, s') => f a s'
      | .error e => .error e := rfl
  rw [Wp, Wp, hb]
  rcases m s with e | ⟨a, s'⟩
  · rfl
  · rfl

/-- The rule for sequences: a specification of the first part, then the rest. -/
theorem Wp.bind {Q' : β → σ → Prop} (h : Wp m s Q E)
    (hE : ∀ e, E e → E' e) (hf : ∀ a s', Q a s' → Wp (f a) s' Q' E') : Wp (m >>= f) s Q' E' :=
  wp_bind.mpr (h.mono hf hE)

@[simp] theorem wp_pure {a : α} : Wp (pure a : Exec ε σ α) s Q E ↔ Q a s := Iff.rfl

@[simp] theorem wp_stop {e : ε} : Wp (stop e : Exec ε σ α) s Q E ↔ E e := Iff.rfl

@[simp] theorem wp_gets {f : σ → α} : Wp (gets f : Exec ε σ α) s Q E ↔ Q (f s) s := Iff.rfl

@[simp] theorem wp_modify {f : σ → σ} {Q : Unit → σ → Prop} :
    Wp (modify f : Exec ε σ Unit) s Q E ↔ Q () (f s) := Iff.rfl

/-- Running a sequence whose first part is known to end. -/
theorem bind_ok {a : α} (h : m s = .ok (a, s')) : (m >>= f) s = f a s' := by
  show Exec.bind m f s = f a s'
  rw [Exec.bind, h]

theorem bind_error {e : ε} (h : m s = .error e) : (m >>= f) s = .error e := by
  show Exec.bind m f s = .error e
  rw [Exec.bind, h]

/-- Both parts of a computation that ends well end well. -/
theorem ok_of_bind {b : β} (h : (m >>= f) s = .ok (b, s')) :
    ∃ a s1, m s = .ok (a, s1) ∧ f a s1 = .ok (b, s') := by
  rcases hm : m s with e | ⟨a, s1⟩
  · rw [bind_error hm] at h
    cases h
  · exact ⟨a, s1, rfl, by rwa [bind_ok hm] at h⟩

end Exec

/-! ## Simulation -/

/-- What a computation of a lower layer did follows what one of an upper layer did: it ended with
the same answer in a related state, or stopped for the same reason. If the upper one stopped for a
`wild` reason, nothing is asked for. -/
inductive Follows {ε σ τ α : Type} (Rel : σ → τ → Prop) (wild : ε → Prop) :
    Except ε (α × σ) → Except ε (α × τ) → Prop where
  | ok {a : α} {s : σ} {t : τ} (h : Rel s t) : Follows Rel wild (.ok (a, s)) (.ok (a, t))
  | stop (e : ε) : Follows Rel wild (.error e) (.error e)
  | wild {x : Except ε (α × σ)} {e : ε} (h : wild e) : Follows Rel wild x (.error e)

/-- Sequences follow if their parts do. -/
theorem Follows.bind {ε σ τ α β : Type} {Rel : σ → τ → Prop} {wild : ε → Prop}
    {m : Exec ε σ α} {m' : Exec ε τ α} {f : α → Exec ε σ β} {f' : α → Exec ε τ β} {s : σ} {t : τ}
    (h : Follows Rel wild (m s) (m' t))
    (hf : ∀ a s' t', Rel s' t' → Follows Rel wild (f a s') (f' a t')) :
    Follows Rel wild ((m >>= f) s) ((m' >>= f') t) := by
  rcases hm : m s with e | ⟨a, s'⟩ <;> rcases hm' : m' t with e' | ⟨a', t'⟩ <;> rw [hm, hm'] at h
  · rw [Exec.bind_error hm, Exec.bind_error hm']
    cases h with
    | stop => exact .stop _
    | wild hw => exact .wild hw
  · cases h
  · rw [Exec.bind_error hm']
    cases h with
    | wild hw => exact .wild hw
  · rw [Exec.bind_ok hm, Exec.bind_ok hm']
    cases h with
    | ok hst => exact hf _ _ _ hst

/-! ## Programs -/

/-- A program over commands `C`, where `c` is answered with an `R c`. -/
inductive Prog (C : Type) (R : C → Type) (α : Type) : Type where
  | ret (a : α)
  | cmd (c : C) (k : R c → Prog C R α)

namespace Prog

variable {C : Type} {R : C → Type} {α β ε σ τ : Type}

/-- Go on with the result. -/
protected def bind : Prog C R α → (α → Prog C R β) → Prog C R β
  | .ret a, f => f a
  | .cmd c k, f => .cmd c fun r => (k r).bind f

instance : Monad (Prog C R) where
  pure := .ret
  bind := Prog.bind

instance : LawfulMonad (Prog C R) := LawfulMonad.mk' _ (fun p => by
    induction p with
    | ret a => rfl
    | cmd c k ih => exact congrArg (Prog.cmd c) (funext ih))
  (fun _ _ => rfl)
  (fun p f g => by
    induction p with
    | ret a => rfl
    | cmd c k ih => exact congrArg (Prog.cmd c) (funext ih))

/-- A single command. -/
def call (c : C) : Prog C R (R c) := .cmd c .ret

/-- Run a program on a layer that gives the commands their meaning. -/
def exec (h : (c : C) → Exec ε σ (R c)) : Prog C R α → Exec ε σ α
  | .ret a => pure a
  | .cmd c k => h c >>= fun r => exec h (k r)

section

variable (h : (c : C) → Exec ε σ (R c))

include h

@[simp] theorem exec_pure (a : α) : exec h (pure a : Prog C R α) = pure a := rfl

@[simp] theorem exec_call (c : C) (s : σ) : exec h (call c : Prog C R (R c)) s = h c s := by
  show Exec.bind (h c) _ s = h c s
  rw [Exec.bind]
  rcases h c s with e | ⟨r, s'⟩
  · rfl
  · rfl

/-- Running a sequence is running its parts in sequence. -/
@[simp] theorem exec_bind (p : Prog C R α) (f : α → Prog C R β) (s : σ) :
    exec h (p >>= f) s = (exec h p >>= fun a => exec h (f a)) s := by
  induction p generalizing s with
  | ret a => rfl
  | cmd c k ih =>
    show Exec.bind (h c) (fun r => exec h ((k r).bind f)) s =
      Exec.bind (Exec.bind (h c) fun r => exec h (k r)) _ s
    rw [Exec.bind, Exec.bind, Exec.bind]
    rcases h c s with e | ⟨r, s'⟩
    · rfl
    · exact ih r s'

end

/-- Running a sequence whose first part is known to end. -/
theorem exec_bind_ok {h : (c : C) → Exec ε σ (R c)} {p : Prog C R α} {f : α → Prog C R β} {a : α}
    {s s' : σ} (hp : exec h p s = .ok (a, s')) : exec h (p >>= f) s = exec h (f a) s' := by
  rw [exec_bind, Exec.bind_ok hp]

/-- **Simulation.** If each command of the lower layer follows that of the upper one, so does each
program. -/
theorem exec_sim {h : (c : C) → Exec ε σ (R c)} {g : (c : C) → Exec ε τ (R c)}
    {Rel : σ → τ → Prop} {wild : ε → Prop}
    (hsim : ∀ c s t, Rel s t → Follows Rel wild (h c s) (g c t))
    (p : Prog C R α) : ∀ s t, Rel s t → Follows Rel wild (exec h p s) (exec g p t) := by
  induction p with
  | ret a =>
    intro s t hst
    exact .ok hst
  | cmd c k ih =>
    intro s t hst
    exact (hsim c s t hst).bind fun a s' t' hst' => ih a s' t' hst'

end Prog

end Xv6
