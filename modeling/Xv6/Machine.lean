import Mathlib.Data.List.Induction

/-!
# Machines: event-driven runs and their invariants

A concurrent program is modelled throughout as a *machine*: a state type `σ`, a type `ε` of
events (one atomic step of one of its parties, with the choices the scheduler or the
environment makes spelled out), and a step function into `Except κ σ`. A step may stop the
machine, and `κ` says why: the party is not able to take the step now, an assertion failed, an
access fell outside its array.

* `run` executes a whole list of events, so an interleaving *is* a list of events (and a loop of
  the source over a list of indices is a run, too);
* `run_concat_ok` splits the last event off a run;
* `run_history` is the invariant rule: what holds initially and is kept by every step holds in
  every state reached, where "it" may speak about the events so far;
* `Meets` restricts a run to the steps that meet a condition, and `Meets.invariant` is the
  invariant rule for such runs.
-/

namespace Xv6

universe u v w

variable {σ : Type u} {ε : Type v} {κ : Type w}

/-- Execute the events in order. The first step that stops the machine stops the run. -/
def run (step : σ → ε → Except κ σ) : σ → List ε → Except κ σ
  | s, [] => .ok s
  | s, e :: tr =>
    match step s e with
    | .ok s' => run step s' tr
    | .error k => .error k

@[simp] theorem run_nil (step : σ → ε → Except κ σ) (s : σ) : run step s [] = .ok s := rfl

variable {step : σ → ε → Except κ σ} {tr : List ε}

theorem run_cons_ok {s s' : σ} {e : ε}
    (h : step s e = .ok s') : run step s (e :: tr) = run step s' tr := by
  simp only [run, h]

/-- Events that leave the state alone can be run in any number. -/
theorem run_fixed {s : σ} (h : ∀ e ∈ tr, step s e = .ok s) : run step s tr = .ok s := by
  induction tr with
  | nil => rfl
  | cons e tr ih =>
    rw [run_cons_ok (h e (by simp))]
    exact ih fun e' he' => h e' (by simp [he'])

/-- Inversion for a run that starts with `e`. -/
theorem run_cons_inv {s t : σ} {e : ε} (h : run step s (e :: tr) = .ok t) :
    ∃ s', step s e = .ok s' ∧ run step s' tr = .ok t := by
  unfold run at h
  rcases hs : step s e with k | s' <;> rw [hs] at h
  · cases h
  · exact ⟨s', rfl, h⟩

/-- A run over an appended list is the run of the two parts, one after the other. -/
theorem run_append_ok : ∀ {tr1 tr2 : List ε} {s t : σ}, run step s (tr1 ++ tr2) = .ok t ↔
        ∃ m, run step s tr1 = .ok m ∧ run step m tr2 = .ok t := by
  intro tr1
  induction tr1 with
  | nil => simp
  | cons e tr1 ih =>
    intro tr2 s t
    constructor
    · intro h
      obtain ⟨s', hs, hr⟩ := run_cons_inv h
      obtain ⟨m, hm, ht⟩ := ih.mp hr
      exact ⟨m, by rw [run_cons_ok hs]; exact hm, ht⟩
    · rintro ⟨m, hm, ht⟩
      obtain ⟨s', hs, hr⟩ := run_cons_inv hm
      rw [List.cons_append, run_cons_ok hs]
      exact ih.mpr ⟨m, hr, ht⟩

/-- Split the last event off a run. -/
theorem run_concat_ok {e : ε} {s t : σ} :
    run step s (tr ++ [e]) = .ok t ↔ ∃ m, run step s tr = .ok m ∧ step m e = .ok t := by
  rw [run_append_ok]
  constructor
  · rintro ⟨m, hm, ht⟩
    obtain ⟨s', hs, hr⟩ := run_cons_inv ht
    cases hr
    exact ⟨m, hm, hs⟩
  · rintro ⟨m, hm, ht⟩
    exact ⟨m, hm, by rw [run_cons_ok ht]; rfl⟩

/-- A run that stops does so at one of its events, after a run up to there. -/
theorem run_error_iff {k : κ} : ∀ {tr : List ε} {s : σ}, run step s tr = .error k ↔
      ∃ tr1 e tr2 m, tr = tr1 ++ e :: tr2 ∧ run step s tr1 = .ok m ∧ step m e = .error k := by
  intro tr
  induction tr with
  | nil => simp
  | cons e tr ih =>
    intro s
    constructor
    · intro h
      unfold run at h
      rcases hs : step s e with k' | s' <;> rw [hs] at h
      · obtain rfl : k' = k := Except.error.inj h
        exact ⟨[], e, tr, s, rfl, rfl, hs⟩
      · obtain ⟨tr1, e', tr2, m, htr, hm, he⟩ := ih.mp h
        exact ⟨e :: tr1, e', tr2, m, by rw [htr]; rfl, by rw [run_cons_ok hs]; exact hm, he⟩
    · rintro ⟨tr1, e', tr2, m, htr, hm, he⟩
      cases tr1 with
      | nil =>
        obtain ⟨rfl, rfl⟩ : e = e' ∧ tr = tr2 := by simpa using htr
        cases hm
        simp only [run, he]
      | cons e1 tr1 =>
        obtain ⟨rfl, rfl⟩ : e = e1 ∧ tr = tr1 ++ e' :: tr2 := by simpa using htr
        obtain ⟨s', hs, hr⟩ := run_cons_inv hm
        rw [run_cons_ok hs]
        exact ih.mpr ⟨tr1, e', tr2, m, rfl, hr, he⟩

variable {s0 : σ}

/-- **Invariants with history.** A property of (events so far, state) that holds of the empty
run and is kept by every step holds of every run. -/
theorem run_history {P : List ε → σ → Prop} (hinit : P [] s0)
    (hstep : ∀ (tr : List ε) (s s' : σ) (e : ε),
      run step s0 tr = .ok s → P tr s → step s e = .ok s' → P (tr ++ [e]) s') :
    ∀ (tr : List ε) (s : σ), run step s0 tr = .ok s → P tr s := by
  intro tr
  induction tr using List.reverseRecOn with
  | nil =>
    intro s h
    cases h
    exact hinit
  | append_singleton tr e ih =>
    intro t h
    obtain ⟨m, hm, ht⟩ := run_concat_ok.mp h
    exact hstep tr m t e hm (ih m hm) ht

variable {P : σ → Prop}

/-- **Invariants.** A property of states that holds initially and is kept by every step holds in
every state reached. -/
theorem run_invariant (hstep : ∀ (s s' : σ) (e : ε), P s → step s e = .ok s' → P s') :
    ∀ {s0 : σ}, P s0 → ∀ (tr : List ε) (s : σ), run step s0 tr = .ok s → P s :=
  fun hinit => run_history (P := fun _ s => P s) hinit fun _ s s' e _ hs he => hstep s s' e hs he

/-- The step or run ends in a state with the property `P`. -/
def endsIn (P : σ → Prop) [DecidablePred P] : Except κ σ → Bool
  | .ok s => decide (P s)
  | .error _ => false

variable {x : Except κ σ}

/-- What a run reaches can be found by evaluating it. -/
theorem exists_ok_of_check [DecidablePred P] (h : endsIn P x = true) : ∃ s, x = .ok s ∧ P s := by
  rcases x with k | s
  · cases h
  · exact ⟨s, rfl, of_decide_eq_true h⟩

/-- The step or run stops for the reason `k`. -/
def stopsWith [DecidableEq κ] (k : κ) : Except κ σ → Bool
  | .ok _ => false
  | .error k' => decide (k' = k)

/-- Why a run stops can be found by evaluating it. -/
theorem eq_error_of_stopsWith [DecidableEq κ] {k : κ}
    (h : stopsWith k x = true) : x = .error k := by
  rcases x with k' | s
  · rw [of_decide_eq_true h]
  · cases h

/-- Every step of the run meets the condition `C`, in the state it is taken from. -/
def Meets (step : σ → ε → Except κ σ) (s0 : σ) (C : σ → ε → Prop) (tr : List ε) : Prop :=
  ∀ u e v s, tr = u ++ e :: v → run step s0 u = .ok s → C s e

variable {C : σ → ε → Prop}

theorem Meets.of_append {tr1 tr2 : List ε}
    (h : Meets step s0 C (tr1 ++ tr2)) : Meets step s0 C tr1 := by
  intro u e v s htr hrun
  exact h u e (v ++ tr2) s (by rw [htr]; simp) hrun

/-- **Invariants under a condition.** What holds initially and is kept by every step that meets
the condition holds in every state that a run of such steps reaches. -/
theorem Meets.invariant
    (hstep : ∀ (s s' : σ) (e : ε), P s → C s e → step s e = .ok s' → P s') (hinit : P s0) {s : σ}
    (hC : Meets step s0 C tr) (hrun : run step s0 tr = .ok s) : P s := by
  refine run_history (P := fun tr s => Meets step s0 C tr → P s) (fun _ => hinit) ?_ tr s hrun hC
  intro tr s s' e hr hP he hC
  exact hstep s s' e (hP hC.of_append) (hC tr e [] s rfl hr) he

theorem Meets.nil {s : σ} : Meets step s C [] := by
  intro u e v m he
  simp at he

/-- A run meets a condition if its first step does, and the rest of it. -/
theorem Meets.cons {s : σ} {e : ε} (h : C s e)
    (htr : ∀ s', step s e = .ok s' → Meets step s' C tr) : Meets step s C (e :: tr) := by
  intro u e' v m he hrun
  cases u with
  | nil =>
    obtain ⟨rfl, -⟩ := List.cons.inj he
    cases hrun
    exact h
  | cons e1 u =>
    obtain ⟨rfl, rfl⟩ := List.cons.inj he
    obtain ⟨s', hs, hrun⟩ := run_cons_inv hrun
    exact htr s' hs u e' v m rfl hrun

/-- Run the events and test the condition before each of them. -/
def checkMeets (step : σ → ε → Except κ σ) (C : σ → ε → Prop) [∀ s e, Decidable (C s e)] :
    σ → List ε → Bool
  | _, [] => true
  | s, e :: tr =>
    decide (C s e) && match step s e with
      | .ok s' => checkMeets step C s' tr
      | .error _ => true

/-- Whether a run meets a condition can be found by evaluating it. -/
theorem Meets.of_check [∀ s e, Decidable (C s e)] :
    ∀ {s : σ}, checkMeets step C s tr = true → Meets step s C tr := by
  induction tr with
  | nil => exact fun _ => .nil
  | cons e tr ih =>
    intro s h
    simp only [checkMeets, Bool.and_eq_true, decide_eq_true_eq] at h
    refine .cons h.1 fun s' hs => ih ?_
    have hrest := h.2
    rwa [hs] at hrest

end Xv6
