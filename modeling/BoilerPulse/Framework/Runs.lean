import Mathlib.Logic.Relation
import Mathlib.Data.List.Basic

/-!
# Guarded runs of a partial transition function

A system is a partial step function `step : State → Act → Option State`; an
action that is not enabled yields `none`. `Runs step ok s s'` is the
reachability relation in which every step taken also satisfies a guard `ok` at
the state it starts from. The unguarded runs are the ones at
`ok := fun _ _ => True`, abbreviated `Reaches`.

Two rules are packaged here, so that a safety proof only ever states what a
single step preserves:

* `Runs.invariant` — an inductive invariant holds at the end of every run;
* `Runs.simulate` — a forward simulation into an abstract step relation answers
  every run by an abstract run.

A finite run given as a list of actions is evaluated by `exec`, and
`Reaches.of_exec` turns an evaluated list into a reachability fact;
`Runs.of_exec_guarded` does so for a guard that is evaluated along with it.
-/

namespace Framework

variable {State Act : Type} {step : State → Act → Option State} {ok ok' : State → Act → Prop}

/-- `Runs step ok s s'`: a run from `s` to `s'` each of whose actions is enabled
and satisfies `ok` at the state it is taken from. -/
inductive Runs (step : State → Act → Option State) (ok : State → Act → Prop) : State → State → Prop
  | refl (s : State) : Runs step ok s s
  | tail {s s₁ s₂ : State} (a : Act) :
      Runs step ok s s₁ → ok s₁ a → step s₁ a = some s₂ → Runs step ok s s₂

/-- Unguarded reachability. -/
def Reaches (step : State → Act → Option State) : State → State → Prop :=
  Runs step (fun _ _ => True)

theorem Runs.trans {s s₁ s₂ : State} (h₁ : Runs step ok s s₁) (h₂ : Runs step ok s₁ s₂) :
    Runs step ok s s₂ := by
  induction h₂ with
  | refl => exact h₁
  | tail a _ hok hstep ih => exact Runs.tail a ih hok hstep

theorem Runs.single {s s' : State} {a : Act} (hok : ok s a) (h : step s a = some s') :
    Runs step ok s s' :=
  Runs.tail a (Runs.refl s) hok h

/-- Dropping or weakening the guard keeps a run a run. -/
theorem Runs.mono (himp : ∀ s a, ok s a → ok' s a) {s s' : State} (h : Runs step ok s s') :
    Runs step ok' s s' := by
  induction h with
  | refl => exact Runs.refl _
  | tail a _ hok hstep ih => exact Runs.tail a ih (himp _ _ hok) hstep

/-- **The invariant rule.** -/
theorem Runs.invariant {Inv : State → Prop}
    (hstep : ∀ s a s', Inv s → ok s a → step s a = some s' → Inv s')
    {s s' : State} (h : Runs step ok s s') (h₀ : Inv s) : Inv s' := by
  induction h with
  | refl => exact h₀
  | tail a _ hok hs ih => exact hstep _ a _ ih hok hs

/-- **The simulation rule.** If every guarded step from a related pair is
answered by a sequence of abstract steps, so is every guarded run. -/
theorem Runs.simulate {Abs : Type} (absStep : Abs → Abs → Prop) (R : State → Abs → Prop)
    (hsim : ∀ s a s' x, R s x → ok s a → step s a = some s' →
      ∃ x', Relation.ReflTransGen absStep x x' ∧ R s' x')
    {s s' : State} (h : Runs step ok s s') {x : Abs} (hR : R s x) :
    ∃ x', Relation.ReflTransGen absStep x x' ∧ R s' x' := by
  induction h with
  | refl => exact ⟨x, Relation.ReflTransGen.refl, hR⟩
  | tail a _ hok hs ih =>
    obtain ⟨x₁, hx₁, hR₁⟩ := ih
    obtain ⟨x₂, hx₂, hR₂⟩ := hsim _ a _ x₁ hR₁ hok hs
    exact ⟨x₂, hx₁.trans hx₂, hR₂⟩

/-! ### Runs given as lists of actions -/

/-- Execute a list of actions; `none` as soon as one of them is not enabled. -/
def exec (step : State → Act → Option State) : State → List Act → Option State
  | s, [] => some s
  | s, a :: as =>
    match step s a with
    | some s' => exec step s' as
    | none => none

theorem exec_cons (s : State) (a : Act) (as : List Act) :
    exec step s (a :: as) = (step s a).bind fun s' => exec step s' as := by
  cases h : step s a <;> simp [exec, h]

/-- The step function restricted to the actions that satisfy a decidable guard. -/
def guarded (step : State → Act → Option State) (ok : State → Act → Prop)
    [∀ s a, Decidable (ok s a)] (s : State) (a : Act) : Option State :=
  if ok s a then step s a else none

/-- A run of the restricted step function is a guarded run. -/
theorem Runs.of_guarded [∀ s a, Decidable (ok s a)] {s s' : State}
    (h : Runs (guarded step ok) ok' s s') : Runs step (fun s a => ok' s a ∧ ok s a) s s' := by
  induction h with
  | refl => exact Runs.refl s
  | tail a _ hok' hs ih =>
    unfold guarded at hs
    split at hs
    · next hok => exact Runs.tail a ih ⟨hok', hok⟩ hs
    · cases hs

/-- A list of actions each of which satisfies the guard everywhere. -/
theorem Runs.of_exec_all {s s' : State} {as : List Act} (hok : ∀ a ∈ as, ∀ s, ok s a)
    (h : exec step s as = some s') : Runs step ok s s' := by
  induction as generalizing s with
  | nil =>
    obtain rfl : s = s' := Option.some.inj h
    exact Runs.refl s
  | cons a as ih =>
    rw [exec_cons] at h
    cases hs : step s a with
    | none => rw [hs] at h; cases h
    | some s₁ =>
      rw [hs] at h
      exact (Runs.single (hok a List.mem_cons_self s) hs).trans
        (ih (fun b hb => hok b (List.mem_cons_of_mem a hb)) h)

theorem Reaches.of_exec {s s' : State} {as : List Act} (h : exec step s as = some s') :
    Reaches step s s' :=
  Runs.of_exec_all (fun _ _ _ => trivial) h

/-- An executed list of actions of the restricted step function is a guarded run. -/
theorem Runs.of_exec_guarded [∀ s a, Decidable (ok s a)] {s s' : State} {as : List Act}
    (h : exec (guarded step ok) s as = some s') : Runs step ok s s' :=
  (Runs.of_guarded (Reaches.of_exec h)).mono fun _ _ hok => hok.2

/-- What such a list shows of its last state holds of the end of a guarded run. -/
theorem Runs.of_exec_guarded_map [∀ s a, Decidable (ok s a)] {β : Type} {s : State}
    {as : List Act} {obs : State → β} {x : β}
    (h : (exec (guarded step ok) s as).map obs = some x) : ∃ s', Runs step ok s s' ∧ obs s' = x := by
  obtain ⟨s', hs', hx⟩ := Option.map_eq_some_iff.mp h
  exact ⟨s', Runs.of_exec_guarded hs', hx⟩

/-- What an executed list of actions shows of its last state holds of a reachable
state. -/
theorem Reaches.of_exec_map {β : Type} {s : State} {as : List Act} {obs : State → β} {x : β}
    (h : (exec step s as).map obs = some x) : ∃ s', Reaches step s s' ∧ obs s' = x := by
  obtain ⟨s', hs', hx⟩ := Option.map_eq_some_iff.mp h
  exact ⟨s', Reaches.of_exec hs', hx⟩

end Framework
