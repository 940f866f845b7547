/-
Module: SotFs.Foundation.Lines
Layer: Foundation
Purpose: The complete lines of a sequence: the stretches that a separator ends, each with its separator, and
  without what follows the last one. Appending never changes the lines that are complete.
Trusted boundary: none
Main exports: lines, EndsLine, lines_append, lines_snoc, lines_isPrefix
-/
import Mathlib

namespace Foundation

variable {α : Type*} {sep : α} {xs ys : List α}

/-- The sequence stops at the end of a line. -/
def EndsLine (sep : α) (xs : List α) : Prop := ∀ x, xs.getLast? = some x → x = sep

instance [DecidableEq α] : Decidable (EndsLine sep xs) :=
  decidable_of_iff (∀ x ∈ xs.getLast?, x = sep) Iff.rfl

theorem endsLine_nil : EndsLine sep ([] : List α) := fun _ h => by simp at h

theorem endsLine_snoc : EndsLine sep (xs ++ [sep]) := fun x h => by simpa using h.symm

theorem EndsLine.of_cons {x : α} (h : EndsLine sep (x :: xs)) : EndsLine sep xs := by
  intro y hy
  refine h y ?_
  rw [List.getLast?_cons, hy]
  rfl

/-- The separator stands at the end of a nonempty sequence that stops at the end of a line. -/
theorem EndsLine.mem (h : EndsLine sep xs) (hne : xs ≠ []) : sep ∈ xs := by
  have hlast := List.getLast?_eq_some_getLast hne
  rw [← h _ hlast]
  exact List.getLast_mem hne

variable [DecidableEq α]

/-- The complete lines, each with the separator that ends it. -/
def lines (sep : α) : List α → List (List α)
  | [] => []
  | x :: xs => if x = sep then [x] :: lines sep xs else (lines sep xs).modifyHead (x :: ·)

/-- The elements before the first separator: all of them, or what stands before a separator and a rest. -/
theorem takeWhile_ne_cases (sep : α) (xs : List α) :
    sep ∉ xs.takeWhile (· ≠ sep) ∧
      ((xs.takeWhile (· ≠ sep) = xs ∧ xs.drop (xs.takeWhile (· ≠ sep)).length = []) ∨
      ∃ rest, xs = xs.takeWhile (· ≠ sep) ++ sep :: rest ∧
        xs.drop (xs.takeWhile (· ≠ sep)).length = sep :: rest) := by
  induction xs with
  | nil => simp
  | cons x xs ih =>
      by_cases hx : x = sep
      · simp [hx]
      · simpa [hx, Ne.symm hx] using ih

theorem lines_eq_nil (h : sep ∉ xs) : lines sep xs = [] := by
  induction xs with
  | nil => rfl
  | cons x xs ih =>
      rw [List.mem_cons, not_or] at h
      rw [lines, if_neg (Ne.symm h.1), ih h.2]
      rfl

theorem lines_ne_nil (h : sep ∈ xs) : lines sep xs ≠ [] := by
  induction xs with
  | nil => simp at h
  | cons x xs ih =>
      rw [lines]
      by_cases hx : x = sep
      · simp [hx]
      · have : lines sep xs ≠ [] := ih (by simpa [Ne.symm hx] using h)
        cases hlines : lines sep xs with
        | nil => exact absurd hlines this
        | cons l ls => simp [hx]

/-- Lines after the end of a line are lines of their own. -/
theorem lines_append (h : EndsLine sep xs) : lines sep (xs ++ ys) = lines sep xs ++ lines sep ys := by
  induction xs with
  | nil => rfl
  | cons x xs ih =>
      have happend := ih h.of_cons
      rw [List.cons_append, lines, lines, happend]
      by_cases hx : x = sep
      · simp [hx]
      · have hne : xs ≠ [] := by
          rintro rfl
          exact hx (h x rfl)
        have hlines := lines_ne_nil (h.of_cons.mem hne)
        cases hcases : lines sep xs with
        | nil => exact absurd hcases hlines
        | cons l ls => simp [hx]

theorem lines_line (h : sep ∉ xs) : lines sep (xs ++ [sep]) = [xs ++ [sep]] := by
  induction xs with
  | nil => simp [lines]
  | cons x xs ih =>
      rw [List.mem_cons, not_or] at h
      rw [List.cons_append, lines, if_neg (Ne.symm h.1), ih h.2]
      rfl

/-- One more line, after the end of the last. -/
theorem lines_snoc (h : EndsLine sep xs) (hys : sep ∉ ys) :
    lines sep (xs ++ (ys ++ [sep])) = lines sep xs ++ [ys ++ [sep]] := by
  rw [lines_append h, lines_line hys]

/-- What is appended leaves the lines that are complete as they are. -/
theorem lines_isPrefix (xs ys : List α) : lines sep xs <+: lines sep (xs ++ ys) := by
  induction xs with
  | nil => exact List.nil_prefix
  | cons x xs ih =>
      rw [List.cons_append, lines, lines]
      by_cases hx : x = sep
      · simpa [hx] using ih
      · obtain ⟨ls, hls⟩ := ih
        rw [if_neg hx, if_neg hx, ← hls]
        cases lines sep xs with
        | nil => exact List.nil_prefix
        | cons l ls' => exact ⟨ls, rfl⟩

end Foundation
