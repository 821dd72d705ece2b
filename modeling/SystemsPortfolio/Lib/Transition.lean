/-
SystemsPortfolio/Lib/Transition.lean

Transition systems: an initial predicate and a step relation on a state type.
The states of interest are those some run reaches, and a property of all of them
is proved by checking it at the start and across one step.  A system refines another
one when each of its steps is a step of the other or invisible there.

Where it matters who does what, the steps carry labels.  A labelled system refines another
one when each step with a label is the step with that label there, and each step without
one is invisible; its runs then have the same labels in the same order.
-/
import Mathlib.Data.List.ReduceOption
import Mathlib.Logic.Relation

namespace Transition

variable {σ τ : Type*}

/-- A transition system over the states `σ`. -/
structure System (σ : Type*) where
  init : σ → Prop
  step : σ → σ → Prop

namespace System

/-- Some run of the system ends in `s`. -/
def Reachable (M : System σ) (s : σ) : Prop :=
  ∃ s₀, M.init s₀ ∧ Relation.ReflTransGen M.step s₀ s

variable {M : System σ}

theorem Reachable.start {s : σ} (h : M.init s) : M.Reachable s :=
  ⟨s, h, .refl⟩

theorem Reachable.next {s s' : σ} (h : M.Reachable s) (hs : M.step s s') : M.Reachable s' := by
  obtain ⟨s₀, h₀, hr⟩ := h
  exact ⟨s₀, h₀, hr.tail hs⟩

/-- The invariant rule: what holds at the start and survives every step from a reachable
state holds in every reachable state. -/
theorem Reachable.invariant {P : σ → Prop} (h₀ : ∀ s, M.init s → P s)
    (hstep : ∀ s s', M.Reachable s → P s → M.step s s' → P s') {s : σ} (h : M.Reachable s) :
    P s := by
  obtain ⟨s₀, hi, hr⟩ := h
  induction hr with
  | refl => exact h₀ s₀ hi
  | tail hr hs ih => exact hstep _ _ ⟨s₀, hi, hr⟩ ih hs

/-- A system with fewer starts and steps reaches fewer states. -/
theorem Reachable.mono {N : System σ} (hinit : ∀ s, M.init s → N.init s)
    (hstep : ∀ s s', M.step s s' → N.step s s') {s : σ} (h : M.Reachable s) : N.Reachable s := by
  obtain ⟨s₀, h₀, hr⟩ := h
  exact ⟨s₀, hinit s₀ h₀, Relation.ReflTransGen.mono hstep s₀ s hr⟩

/-- A run from `s` to `s'` whose states satisfy `P`, the last one apart. -/
def While (M : System σ) (P : σ → Prop) : σ → σ → Prop :=
  Relation.ReflTransGen fun s s' => P s ∧ M.step s s'

theorem Reachable.while {P : σ → Prop} {s s' : σ} (h : M.Reachable s) (hr : M.While P s s') :
    M.Reachable s' := by
  induction hr with
  | refl => exact h
  | tail _ hs ih => exact ih.next hs.2

/-- The invariant rule within an interval of `P`. -/
theorem While.invariant {P Q : σ → Prop}
    (hstep : ∀ s s', M.Reachable s → P s → Q s → M.step s s' → Q s') {s s' : σ}
    (h : M.Reachable s) (hr : M.While P s s') (hs : Q s) : Q s' := by
  induction hr with
  | refl => exact hs
  | tail hr hs ih => exact hstep _ _ (h.while hr) hs.1 ih hs.2

/-- The interval rule: a reflexive and transitive relation that every step from a reachable
state of `P` keeps holds between the ends of an interval of `P`. -/
theorem While.relates {P : σ → Prop} {R : σ → σ → Prop} (hrefl : ∀ s, R s s)
    (htrans : ∀ s s' s'', R s s' → R s' s'' → R s s'')
    (hstep : ∀ s s', M.Reachable s → P s → M.step s s' → R s s') {s s' : σ}
    (h : M.Reachable s) (hr : M.While P s s') : R s s' := by
  induction hr with
  | refl => exact hrefl s
  | tail hr hs ih => exact htrans _ _ _ ih (hstep _ _ (h.while hr) hs.1 hs.2)

/-- `A` says what `C` is for: under `abs` every step that `C` can take is a step of
`A`, or cannot be seen there. -/
structure Refines (C : System σ) (A : System τ) (abs : σ → τ) : Prop where
  init : ∀ s, C.init s → A.init (abs s)
  step : ∀ s s', C.Reachable s → C.step s s' → A.step (abs s) (abs s') ∨ abs s' = abs s

theorem Refines.reachable {C : System σ} {A : System τ} {abs : σ → τ} (h : Refines C A abs)
    {s : σ} (hs : C.Reachable s) : A.Reachable (abs s) := by
  obtain ⟨s₀, hi, hr⟩ := hs
  induction hr with
  | refl => exact .start (h.init s₀ hi)
  | tail hr hstep ih =>
      rcases h.step _ _ ⟨s₀, hi, hr⟩ hstep with ha | e
      · exact ih.next ha
      · rw [e]
        exact ih

end System

/-! ### Labels -/

/-- A transition system whose steps carry labels. -/
structure Labelled (σ α : Type*) where
  init : σ → Prop
  step : α → σ → σ → Prop

namespace Labelled

variable {α : Type*}

/-- The system without its labels. -/
def system (M : Labelled σ α) : System σ where
  init := M.init
  step s s' := ∃ a, M.step a s s'

/-- A run with its labels, in their order. -/
inductive Run (M : Labelled σ α) (s : σ) : List α → σ → Prop
  | nil : Run M s [] s
  | snoc {as : List α} {a : α} {s' s'' : σ} (h : Run M s as s') (hs : M.step a s' s'') :
      Run M s (as ++ [a]) s''

theorem Run.reachable {M : Labelled σ α} {s s' : σ} {as : List α} (h : M.Run s as s')
    (hs : M.system.Reachable s) : M.system.Reachable s' := by
  induction h with
  | nil => exact hs
  | snoc _ hstep ih => exact ih.next ⟨_, hstep⟩

/-- What may be seen of a step: the step with its label, or nothing if it has none. -/
def Sees (A : Labelled τ α) : Option α → τ → τ → Prop
  | some a, t, t' => A.step a t t'
  | none, t, t' => t' = t

/-- `A` says what `C` is for, label by label: under `abs` a step of `C` with a label is the step
of `A` with the same label, and a step without one cannot be seen there. -/
structure Refines (C : Labelled σ (Option α)) (A : Labelled τ α) (abs : σ → τ) : Prop where
  init : ∀ s, C.init s → A.init (abs s)
  step : ∀ s s' a, C.system.Reachable s → C.step a s s' → A.Sees a (abs s) (abs s')

/-- A run of `C` is a run of `A` with the same labels in the same order. -/
theorem Refines.run {C : Labelled σ (Option α)} {A : Labelled τ α} {abs : σ → τ} (h : Refines C A abs)
    {s s' : σ} {as : List (Option α)} (hs : C.system.Reachable s) (hr : C.Run s as s') :
    A.Run (abs s) as.reduceOption (abs s') := by
  induction hr with
  | nil => exact .nil
  | @snoc as a s₁ s₂ hr hstep ih =>
      have hsees := h.step _ _ a (hr.reachable hs) hstep
      rw [List.reduceOption_append]
      rcases a with - | a
      · have e : abs s₂ = abs s₁ := hsees
        rw [e]
        simpa using ih
      · exact ih.snoc hsees

end Labelled

end Transition
