/-
Module: SotFs.Foundation.Copies
Layer: Foundation
Purpose: Machines that can be copied. A call is served by one of the machines at hand, or puts a copy of one behind
  them. What one call does in step with another machine, a sequence of calls does: each machine stays in step
  with its own counterpart, and a machine that is not called stays as it is.
Trusted boundary: none
Main exports: CopyCall, serveCopies, runCopies, runCopies_simulates, runCopies_untouched
-/
import Mathlib

namespace Foundation

/-- A call of one of several machines, or a copy of one. -/
inductive CopyCall (ι : Type*) where
  | call (k : Nat) (op : ι)
  | copy (k : Nat)

variable {ι β σ τ : Type*}

/-- Serve a call; `none` is a call that does not end well. A machine that is not there answers nothing. -/
def serveCopies (step : ι → σ → Option (β × σ)) (copy : σ → Option σ) (machines : List σ) :
    CopyCall ι → Option (Option β × List σ)
  | .call k op =>
      match machines[k]? with
      | none => some (none, machines)
      | some s => (step op s).map fun r => (some r.1, machines.set k r.2)
  | .copy k =>
      match machines[k]? with
      | none => some (none, machines)
      | some s => (copy s).map fun s' => (none, machines ++ [s'])

/-- Serve some calls, and collect the answers. -/
def runCopies (step : ι → σ → Option (β × σ)) (copy : σ → Option σ) :
    List (CopyCall ι) → List σ → Option (List (Option β) × List σ)
  | [], machines => some ([], machines)
  | c :: calls, machines =>
      match serveCopies step copy machines c with
      | none => none
      | some (reply, machines) => (runCopies step copy calls machines).map fun r => (reply :: r.1, r.2)

section Simulation

variable {step : ι → σ → Option (β × σ)} {copy : σ → Option σ} {step' : ι → τ → Option (β × τ)}
  {copy' : τ → Option τ} {R : σ → τ → Prop}

theorem forall₂_set {xs : List σ} {ys : List τ} (h : List.Forall₂ R xs ys) {x : σ} {y : τ} (hxy : R x y) :
    ∀ k, List.Forall₂ R (xs.set k x) (ys.set k y) := by
  induction h with
  | nil => exact fun _ => .nil
  | cons hhead htail ih =>
      intro k
      cases k with
      | zero => exact .cons hxy htail
      | succ k => exact .cons hhead (ih k)

theorem forall₂_getElem? {xs : List σ} {ys : List τ} (h : List.Forall₂ R xs ys) (k : Nat) :
    (xs[k]? = none ∧ ys[k]? = none) ∨ ∃ x y, xs[k]? = some x ∧ ys[k]? = some y ∧ R x y := by
  induction h generalizing k with
  | nil => exact .inl ⟨rfl, rfl⟩
  | @cons x y xs ys hhead _ ih =>
      cases k with
      | zero => exact .inr ⟨x, y, rfl, rfl, hhead⟩
      | succ k => simpa using ih k

/-- One call keeps the machines in step and gets one answer. -/
theorem serveCopies_simulates
    (hstep : ∀ {s t}, R s t → ∀ op, ∃ b s' t', step op s = some (b, s') ∧ step' op t = some (b, t') ∧ R s' t')
    (hcopy : ∀ {s t}, R s t → ∃ s' t', copy s = some s' ∧ copy' t = some t' ∧ R s' t')
    {machines : List σ} {others : List τ} (h : List.Forall₂ R machines others) (c : CopyCall ι) :
    ∃ reply machines' others', serveCopies step copy machines c = some (reply, machines') ∧
      serveCopies step' copy' others c = some (reply, others') ∧ List.Forall₂ R machines' others' := by
  cases c with
  | call k op =>
      rcases forall₂_getElem? h k with ⟨hs, ht⟩ | ⟨s, t, hs, ht, hst⟩
      · refine ⟨none, machines, others, ?_, ?_, h⟩ <;> simp [serveCopies, hs, ht]
      · obtain ⟨b, s', t', hs', ht', hst'⟩ := hstep hst op
        refine ⟨some b, machines.set k s', others.set k t', ?_, ?_, forall₂_set h hst' k⟩ <;>
          simp [serveCopies, hs, ht, hs', ht']
  | copy k =>
      rcases forall₂_getElem? h k with ⟨hs, ht⟩ | ⟨s, t, hs, ht, hst⟩
      · refine ⟨none, machines, others, ?_, ?_, h⟩ <;> simp [serveCopies, hs, ht]
      · obtain ⟨s', t', hs', ht', hst'⟩ := hcopy hst
        refine ⟨none, machines ++ [s'], others ++ [t'], ?_, ?_, List.rel_append h (.cons hst' .nil)⟩ <;>
          simp [serveCopies, hs, ht, hs', ht']

/-- Calls in step: a sequence of calls gets the same answers from machines in step, and leaves them so. -/
theorem runCopies_simulates
    (hstep : ∀ {s t}, R s t → ∀ op, ∃ b s' t', step op s = some (b, s') ∧ step' op t = some (b, t') ∧ R s' t')
    (hcopy : ∀ {s t}, R s t → ∃ s' t', copy s = some s' ∧ copy' t = some t' ∧ R s' t')
    (calls : List (CopyCall ι)) : ∀ {machines : List σ} {others : List τ}, List.Forall₂ R machines others →
      ∃ replies machines' others', runCopies step copy calls machines = some (replies, machines') ∧
        runCopies step' copy' calls others = some (replies, others') ∧ List.Forall₂ R machines' others' := by
  induction calls with
  | nil => exact fun h => ⟨[], _, _, rfl, rfl, h⟩
  | cons c calls ih =>
      intro machines others h
      obtain ⟨reply, machines₁, others₁, hs, ht, h₁⟩ := serveCopies_simulates hstep hcopy h c
      obtain ⟨replies, machines₂, others₂, hs', ht', h₂⟩ := ih h₁
      refine ⟨reply :: replies, machines₂, others₂, ?_, ?_, h₂⟩
      · rw [runCopies, hs]
        dsimp only
        rw [hs']
        rfl
      · rw [runCopies, ht]
        dsimp only
        rw [ht']
        rfl

end Simulation

section Untouched

variable {step : ι → σ → Option (β × σ)} {copy : σ → Option σ}

/-- A call of another machine, or a copy, leaves a machine as it is. -/
theorem serveCopies_untouched {machines machines' : List σ} {c : CopyCall ι} {reply : Option β} {k : Nat}
    (hc : ∀ op, c ≠ .call k op) (hk : k < machines.length)
    (h : serveCopies step copy machines c = some (reply, machines')) :
    machines'[k]? = machines[k]? ∧ machines.length ≤ machines'.length := by
  cases c with
  | call j op =>
      have hjk : j ≠ k := fun heq => hc op (by rw [heq])
      cases hj : machines[j]? with
      | none =>
          rw [serveCopies, hj] at h
          cases h
          exact ⟨rfl, le_rfl⟩
      | some s =>
          rw [serveCopies, hj] at h
          obtain ⟨_, _, heq⟩ := Option.map_eq_some_iff.mp h
          cases heq
          exact ⟨List.getElem?_set_ne hjk, (List.length_set).ge⟩
  | copy j =>
      cases hj : machines[j]? with
      | none =>
          rw [serveCopies, hj] at h
          cases h
          exact ⟨rfl, le_rfl⟩
      | some s =>
          rw [serveCopies, hj] at h
          obtain ⟨s', _, heq⟩ := Option.map_eq_some_iff.mp h
          cases heq
          exact ⟨List.getElem?_append_left hk, by simp⟩

/-- Calls of other machines, and copies, leave a machine as it is. -/
theorem runCopies_untouched {k : Nat} {calls : List (CopyCall ι)} {machines machines' : List σ}
    {replies : List (Option β)} (hcalls : ∀ c ∈ calls, ∀ op, c ≠ .call k op) (hk : k < machines.length)
    (h : runCopies step copy calls machines = some (replies, machines')) :
    machines'[k]? = machines[k]? := by
  induction calls generalizing machines replies with
  | nil =>
      cases h
      rfl
  | cons c calls ih =>
      rw [runCopies] at h
      cases hserve : serveCopies step copy machines c with
      | none =>
          rw [hserve] at h
          cases h
      | some r =>
          obtain ⟨reply, machines₁⟩ := r
          rw [hserve] at h
          obtain ⟨⟨rest, last⟩, hrun, heq⟩ := Option.map_eq_some_iff.mp h
          cases heq
          obtain ⟨hsame, hlength⟩ := serveCopies_untouched (hcalls c List.mem_cons_self) hk hserve
          rw [← hsame]
          exact ih (fun c' hc' => hcalls c' (List.mem_cons_of_mem c hc')) (hk.trans_le hlength) hrun

end Untouched

end Foundation
