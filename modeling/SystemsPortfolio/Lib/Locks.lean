/-
SystemsPortfolio/Lib/Locks.lean

Spin locks taken by a fixed set of CPUs.  A program says which lock operation leads
from one control point to another, and which locks a CPU holds at each point; its
fields make sure that the two agree.  A state adds the holder of each lock, an acquire
goes through only while the lock is free, and in every reachable state the holder of a
lock is the one CPU whose point says so.
-/
import SystemsPortfolio.Lib.Transition
import Mathlib.Logic.Function.Basic

namespace Locks

open Transition

/-- What a CPU does on its way from one point to the next. -/
inductive Act (L : Type*)
  | acq (l : L)
  | rel (l : L)
  | tau

/-- Control points `P` of CPUs `C` over locks `L`, with the locks held at each point. -/
structure Program (C P L : Type*) where
  move : C → P → Act L → P → Prop
  holds : P → L → Prop
  acq_holds : ∀ {c p l p'}, move c p (.acq l) p' →
    ¬ holds p l ∧ ∀ m, holds p' m ↔ holds p m ∨ m = l
  rel_holds : ∀ {c p l p'}, move c p (.rel l) p' →
    holds p l ∧ ∀ m, holds p' m ↔ holds p m ∧ m ≠ l
  tau_holds : ∀ {c p p'}, move c p .tau p' → ∀ m, holds p' m ↔ holds p m

/-- The point of every CPU and the holder of every lock. -/
structure State (C P L : Type*) where
  pt : C → P
  held : L → Option C

variable {C P L : Type*} [DecidableEq C] [DecidableEq L]

/-- CPU `c` goes on to `p`. -/
def State.goto (s : State C P L) (c : C) (p : P) : State C P L :=
  { s with pt := Function.update s.pt c p }

/-- One step of CPU `c` to point `p'`. -/
inductive Step (G : Program C P L) (c : C) (p' : P) : State C P L → State C P L → Prop
  | acq (s : State C P L) (l : L) (h : G.move c (s.pt c) (.acq l) p') (hfree : s.held l = none) :
      Step G c p' s { s.goto c p' with held := Function.update s.held l (some c) }
  | rel (s : State C P L) (l : L) (h : G.move c (s.pt c) (.rel l) p') :
      Step G c p' s { s.goto c p' with held := Function.update s.held l none }
  | tau (s : State C P L) (h : G.move c (s.pt c) .tau p') : Step G c p' s (s.goto c p')

theorem Step.pt_eq {G : Program C P L} {c : C} {p' : P} {s s' : State C P L}
    (h : Step G c p' s s') : s'.pt = Function.update s.pt c p' := by
  cases h <;> rfl

/-- Some operation leads from the point of `c` to `p'`. -/
theorem Step.move {G : Program C P L} {c : C} {p' : P} {s s' : State C P L}
    (h : Step G c p' s s') : ∃ a, G.move c (s.pt c) a p' := by
  cases h with
  | acq l h => exact ⟨_, h⟩
  | rel l h => exact ⟨_, h⟩
  | tau h => exact ⟨_, h⟩

/-- The runs of the program from a point at which no CPU holds a lock, over the steps
that `ok` allows. -/
def runs (G : Program C P L) (start : P) (ok : State C P L → C → P → Prop) :
    System (State C P L) where
  init s := s = { pt := fun _ => start, held := fun _ => none }
  step s s' := ∃ c p', ok s c p' ∧ Step G c p' s s'

/-- The holder of a lock is the CPU at a point that holds it. -/
def Owned (G : Program C P L) (s : State C P L) : Prop :=
  ∀ l c, s.held l = some c ↔ G.holds (s.pt c) l

omit [DecidableEq C] [DecidableEq L] in
/-- Two CPUs never hold one lock. -/
theorem Owned.unique {G : Program C P L} {s : State C P L} (h : Owned G s) {l : L} {c d : C}
    (hc : G.holds (s.pt c) l) (hd : G.holds (s.pt d) l) : c = d :=
  Option.some.inj (((h l c).2 hc).symm.trans ((h l d).2 hd))

theorem owned_step {G : Program C P L} {c : C} {p' : P} {s s' : State C P L} (h : Owned G s)
    (hs : Step G c p' s s') : Owned G s' := by
  intro m d
  rcases eq_or_ne d c with rfl | hdc
  · -- the CPU that moves: its point and the lock it touches change together
    cases hs with
    | acq l hm hfree =>
        obtain ⟨-, hp⟩ := G.acq_holds hm
        show Function.update s.held l (some d) m = some d
          ↔ G.holds (Function.update s.pt d p' d) m
        rw [Function.update_self, hp]
        rcases eq_or_ne m l with rfl | hml
        · simp
        · rw [Function.update_of_ne hml, h m d]
          simp [hml]
    | rel l hm =>
        obtain ⟨-, hp⟩ := G.rel_holds hm
        show Function.update s.held l none m = some d ↔ G.holds (Function.update s.pt d p' d) m
        rw [Function.update_self, hp]
        rcases eq_or_ne m l with rfl | hml
        · simp
        · rw [Function.update_of_ne hml, h m d]
          simp [hml]
    | tau hm =>
        show s.held m = some d ↔ G.holds (Function.update s.pt d p' d) m
        rw [Function.update_self, G.tau_holds hm, h m d]
  · -- any other CPU: the lock was free, or held by the one that moves
    have hpt : s'.pt d = s.pt d := by rw [hs.pt_eq, Function.update_of_ne hdc]
    rw [hpt, ← h m d]
    cases hs with
    | acq l hm hfree =>
        show Function.update s.held l (some c) m = some d ↔ _
        rcases eq_or_ne m l with rfl | hml
        · rw [Function.update_self, hfree]
          simp [hdc.symm]
        · rw [Function.update_of_ne hml]
    | rel l hm =>
        show Function.update s.held l none m = some d ↔ _
        rcases eq_or_ne m l with rfl | hml
        · rw [Function.update_self, (h m c).2 (G.rel_holds hm).1]
          simp [hdc.symm]
        · rw [Function.update_of_ne hml]
    | tau hm => rfl

theorem owned_reachable {G : Program C P L} {start : P} (hstart : ∀ l, ¬ G.holds start l)
    {ok : State C P L → C → P → Prop} {s : State C P L} (h : (runs G start ok).Reachable s) :
    Owned G s := by
  refine h.invariant ?_ ?_
  · rintro s rfl l c
    simp [hstart]
  · rintro s s' - hs ⟨c, p', -, hstep⟩
    exact owned_step hs hstep

end Locks
