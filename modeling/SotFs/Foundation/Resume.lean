/-
Module: SotFs.Foundation.Resume
Layer: Foundation
Purpose: Reading a sorted list by position while it changes. Elements may leave, and new ones come after all
  that were there. A reader that resumes at a position has seen the elements before it, as long as none of
  these leaves; so it sees no element twice and, at the end of the list, has seen them all.
Trusted boundary: none
Main exports: Appends, Appends.take_eq
-/
import Mathlib

namespace Foundation

variable {α : Type*} [LinearOrder α] {xs ys : List α}

/-- Whatever is in the second list was in the first one, or comes after all of it. -/
def Appends (xs ys : List α) : Prop := ∀ y ∈ ys, y ∈ xs ∨ ∀ x ∈ xs, x < y

/-- The first elements stay the first if all of them stay. -/
theorem Appends.take_eq (h : Appends xs ys) (hxs : xs.Pairwise (· < ·)) (hys : ys.Pairwise (· < ·)) {n : Nat}
    (hn : n ≤ xs.length) (hstay : ∀ x ∈ xs.take n, x ∈ ys) : ys.take n = xs.take n := by
  induction xs generalizing ys n with
  | nil =>
      have hzero : n = 0 := by simpa using hn
      rw [hzero, List.take_zero, List.take_zero]
  | cons x xs ih =>
      cases n with
      | zero => rw [List.take_zero, List.take_zero]
      | succ n =>
          have hx : x ∈ ys := hstay x (by simp)
          cases ys with
          | nil => simp at hx
          | cons y ys =>
              rw [List.pairwise_cons] at hxs hys
              -- the first element of each list is the least of it
              have hyx : y ≤ x := by
                rcases List.mem_cons.mp hx with rfl | hx
                · exact le_rfl
                · exact (hys.1 x hx).le
              have heq : y = x := by
                refine le_antisymm hyx ?_
                rcases h y List.mem_cons_self with hy | hafter
                · rcases List.mem_cons.mp hy with rfl | hy
                  · exact le_rfl
                  · exact (hxs.1 y hy).le
                · exact (hafter x List.mem_cons_self).le
              subst heq
              rw [List.take_succ_cons, List.take_succ_cons]
              congr 1
              refine ih ?_ hxs.2 hys.2 (by simpa using hn) ?_
              · intro z hz
                rcases h z (List.mem_cons_of_mem y hz) with hold | hafter
                · rcases List.mem_cons.mp hold with rfl | hold
                  · exact absurd (hys.1 z hz) (lt_irrefl z)
                  · exact .inl hold
                · exact .inr fun x hx => hafter x (List.mem_cons_of_mem y hx)
              · intro z hz
                have hz' : z ∈ y :: ys := hstay z (by rw [List.take_succ_cons]; exact List.mem_cons_of_mem y hz)
                rcases List.mem_cons.mp hz' with rfl | hz'
                · exact absurd (hxs.1 z (List.mem_of_mem_take hz)) (lt_irrefl z)
                · exact hz'

end Foundation
