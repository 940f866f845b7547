/-
Module: SotFs.Foundation.RunningMoments
Layer: Foundation
Purpose: Mean, spread and extremes of a list of values in one pass. The update of the mean and of the sum of
  squared distances reads the new value and the old state only; in a field of characteristic zero its result is
  the mean and the sum of squared distances that two passes over the list give. An extreme that is replaced
  whenever a value beats it is the extreme that is taken anew with every value.
Trusted boundary: none
Main exports: RunningMoments, RunningMoments.ofList, RunningMoments.mean_ofList, RunningMoments.m2_ofList,
  foldl_min_eq, foldl_max_eq
-/
import Mathlib

namespace Foundation

/-- How many values were seen, their mean, and the sum of their squared distances from it. -/
structure RunningMoments (K : Type*) where
  count : Nat
  mean : K
  m2 : K

namespace RunningMoments

section Update

variable {K : Type*} [Add K] [Sub K] [Mul K] [Div K] [NatCast K]

def empty : RunningMoments K := ⟨0, (0 : Nat), (0 : Nat)⟩

/-- One more value: the mean moves towards it, and it counts by its distances from the old mean and from the
    new one. -/
def push (s : RunningMoments K) (x : K) : RunningMoments K :=
  let count := s.count + 1
  let delta := x - s.mean
  let mean := s.mean + delta / (count : Nat)
  let delta2 := x - mean
  ⟨count, mean, s.m2 + delta * delta2⟩

def ofList (xs : List K) : RunningMoments K := xs.foldl push empty

theorem ofList_append_singleton (xs : List K) (x : K) : ofList (xs ++ [x]) = (ofList xs).push x :=
  List.foldl_append

theorem count_ofList (xs : List K) : (ofList xs).count = xs.length := by
  induction xs using List.reverseRecOn with
  | nil => rfl
  | append_singleton xs x ih => rw [ofList_append_singleton, push, ih, List.length_append, List.length_singleton]

end Update

section Field

variable {K : Type*} [Field K]

theorem mean_append_singleton (xs : List K) (x : K) : (ofList (xs ++ [x])).mean =
    (ofList xs).mean + (x - (ofList xs).mean) / ((xs.length : K) + 1) := by
  rw [ofList_append_singleton, push, count_ofList]
  push_cast
  rfl

/-- The sum of squared distances from any point, by the sums of the values and of their squares. -/
theorem sum_sq_sub (xs : List K) (c : K) :
    (xs.map fun x => (x - c) * (x - c)).sum =
      (xs.map fun x => x * x).sum - 2 * c * xs.sum + xs.length * (c * c) := by
  induction xs with
  | nil => simp
  | cons x xs ih =>
      simp only [List.map_cons, List.sum_cons, List.length_cons, ih]
      push_cast
      ring

variable [CharZero K]

/-- The running mean times the number of values is their sum. -/
theorem length_mul_mean_ofList (xs : List K) : (xs.length : K) * (ofList xs).mean = xs.sum := by
  induction xs using List.reverseRecOn with
  | nil => simp
  | append_singleton xs x ih =>
      have hcount : ((xs.length : K) + 1) ≠ 0 := by exact_mod_cast Nat.succ_ne_zero xs.length
      rw [mean_append_singleton, List.sum_append, List.sum_singleton, ← ih, List.length_append, List.length_singleton]
      push_cast
      field_simp
      ring

/-- The running mean is the mean. -/
theorem mean_ofList {xs : List K} (hxs : xs ≠ []) : (ofList xs).mean = xs.sum / xs.length := by
  have hlength : (xs.length : K) ≠ 0 := by simpa using hxs
  rw [eq_div_iff hlength, mul_comm]
  exact length_mul_mean_ofList xs

/-- The running sum of squared distances is the sum of squared distances from the mean. -/
theorem m2_ofList (xs : List K) :
    (ofList xs).m2 = (xs.map fun x => (x - (ofList xs).mean) * (x - (ofList xs).mean)).sum := by
  -- both sides are the sum of squares less the number of values times the square of the mean
  have hsum : ∀ xs : List K, (xs.map fun x => (x - (ofList xs).mean) * (x - (ofList xs).mean)).sum =
      (xs.map fun x => x * x).sum - xs.length * ((ofList xs).mean * (ofList xs).mean) := by
    intro xs
    rw [sum_sq_sub, ← length_mul_mean_ofList xs]
    ring
  rw [hsum]
  induction xs using List.reverseRecOn with
  | nil => simp [ofList, empty]
  | append_singleton xs x ih =>
      have hcount : ((xs.length : K) + 1) ≠ 0 := by exact_mod_cast Nat.succ_ne_zero xs.length
      have hm2 : (ofList (xs ++ [x])).m2 =
          (ofList xs).m2 + (x - (ofList xs).mean) * (x - (ofList (xs ++ [x])).mean) := by
        rw [ofList_append_singleton]
        rfl
      rw [hm2, mean_append_singleton, ih, List.map_append, List.sum_append, List.map_singleton, List.sum_singleton,
        List.length_append, List.length_singleton]
      push_cast
      field_simp
      ring

end Field

end RunningMoments

section Extremes

variable {K : Type*} [LinearOrder K]

/-- Replacing the least value so far by a smaller one is taking the minimum. -/
theorem foldl_min_eq (xs : List K) : ∀ m : Option K,
    xs.foldl (fun m x => if m.all (x < ·) then some x else m) m =
      xs.foldl (fun m x => some (m.elim x (min · x))) m := by
  induction xs with
  | nil => exact fun _ => rfl
  | cons x xs ih =>
      intro m
      rw [List.foldl_cons, List.foldl_cons, ih]
      congr 1
      cases m with
      | none => simp
      | some m => simp [min_def]; grind

/-- Replacing the greatest value so far by a greater one is taking the maximum. -/
theorem foldl_max_eq (xs : List K) : ∀ m : Option K,
    xs.foldl (fun m x => if m.all (· < x) then some x else m) m =
      xs.foldl (fun m x => some (m.elim x (max · x))) m := by
  induction xs with
  | nil => exact fun _ => rfl
  | cons x xs ih =>
      intro m
      rw [List.foldl_cons, List.foldl_cons, ih]
      congr 1
      cases m with
      | none => simp
      | some m => simp [max_def]; grind

end Extremes

end Foundation
