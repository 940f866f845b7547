/-
Module: SotFs.Foundation.Simulation
Layer: Foundation
Purpose: Systems that take labelled steps, their runs with the labels met on the way, and forward simulations. A
  simulation carries every run of one system to a run of the other with the same labels.
Trusted boundary: human-reviewed library
Main exports: LabelledSystem, LabelledSystem.Run, Simulation, Simulation.run
-/
import Mathlib.Logic.Relation

namespace Foundation

/-- Where a system starts and how it steps, each step with a label. -/
structure LabelledSystem (σ ε : Type*) where
  init : σ → Prop
  step : σ → ε → σ → Prop

/-- A run to a state with the labels of its steps, first to last. -/
inductive LabelledSystem.Run {σ ε : Type*} (S : LabelledSystem σ ε) : σ → List ε → Prop where
  | start {s : σ} (hinit : S.init s) : Run S s []
  | step {s s' : σ} {e : ε} {labels : List ε} (hrun : Run S s labels) (hstep : S.step s e s') :
      Run S s' (labels ++ [e])

/-- Related states start together and step together. -/
structure Simulation {σ τ ε : Type*} (S : LabelledSystem σ ε) (T : LabelledSystem τ ε) (R : σ → τ → Prop) :
    Prop where
  init : ∀ {s}, S.init s → ∃ t, T.init t ∧ R s t
  step : ∀ {s t e s'}, R s t → S.step s e s' → ∃ t', T.step t e t' ∧ R s' t'

/-- Along a run the states stay related: the other system has a run with the same labels. -/
theorem Simulation.run {σ τ ε : Type*} {S : LabelledSystem σ ε} {T : LabelledSystem τ ε} {R : σ → τ → Prop}
    (h : Simulation S T R) {s : σ} {labels : List ε} (hrun : S.Run s labels) : ∃ t, T.Run t labels ∧ R s t := by
  induction hrun with
  | start hinit =>
      obtain ⟨t, ht, hrelated⟩ := h.init hinit
      exact ⟨t, .start ht, hrelated⟩
  | step _ hstep ih =>
      obtain ⟨t, ht, hrelated⟩ := ih
      obtain ⟨t', hstep', hrelated'⟩ := h.step hrelated hstep
      exact ⟨t', ht.step hstep', hrelated'⟩

end Foundation
