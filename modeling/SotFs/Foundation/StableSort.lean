/-
Module: SotFs.Foundation.StableSort
Layer: Foundation
Purpose: The order that a stable sort by a key gives to a list of two parts. An element of the first part
  comes before an occurrence of an element that is in the second part alone exactly when its key is not
  greater: the keys decide, and among equal keys the first part stays first.
Trusted boundary: none
Main exports: pairwise_sortByKey, mem_prefix_iff
-/
import Mathlib

namespace Foundation

variable {α β : Type*} [LinearOrder β] (key : α → β)

theorem key_trans (a b c : α) (hab : decide (key a ≤ key b) = true) (hbc : decide (key b ≤ key c) = true) :
    decide (key a ≤ key c) = true := by
  rw [decide_eq_true_iff] at *
  exact hab.trans hbc

theorem key_total (a b : α) : (decide (key a ≤ key b) || decide (key b ≤ key a)) = true := by
  rw [Bool.or_eq_true, decide_eq_true_iff, decide_eq_true_iff]
  exact le_total _ _

/-- The keys of the sorted list do not go down. -/
theorem pairwise_sortByKey (l : List α) :
    (l.mergeSort fun a b => key a ≤ key b).Pairwise fun a b => key a ≤ key b :=
  (List.pairwise_mergeSort (key_trans key) (key_total key) l).imp of_decide_eq_true

variable {key}

/-- A list that starts with an element skips, in a longer list, every prefix without that element. -/
theorem cons_sublist_of_not_mem {x : α} {l pre post : List α} (h : (x :: l).Sublist (pre ++ post))
    (hx : x ∉ pre) : (x :: l).Sublist post := by
  induction pre with
  | nil => exact h
  | cons z pre ih =>
      rw [List.mem_cons, not_or] at hx
      cases h with
      | cons _ h => exact ih h hx.2
      | cons_cons _ _ => exact absurd rfl hx.1

/-- What of the first part comes before an occurrence of an element of the second. -/
theorem mem_prefix_iff (key : α → β) {l₁ l₂ pre post : List α} {x y : α} (hx : x ∈ l₁) (hy : y ∉ l₁)
    (hsplit : ((l₁ ++ l₂).mergeSort fun a b => key a ≤ key b) = pre ++ y :: post) :
    x ∈ pre ↔ key x ≤ key y := by
  classical
  constructor
  · intro hpre
    have hsorted := pairwise_sortByKey key (l₁ ++ l₂)
    rw [hsplit, List.pairwise_append] at hsorted
    exact hsorted.2.2 x hpre y List.mem_cons_self
  · intro hle
    have hne : y ≠ x := fun heq => hy (heq ▸ hx)
    -- `x` with every occurrence of `y` after it is a sorted part of the list, so the sort keeps it
    have hpart : (x :: List.replicate (l₂.count y) y).Sublist (l₁ ++ l₂) :=
      (List.singleton_sublist.mpr hx).append (List.replicate_sublist_iff.mpr le_rfl)
    have hpartSorted : (x :: List.replicate (l₂.count y) y).Pairwise fun a b => decide (key a ≤ key b) := by
      refine List.pairwise_cons.mpr ⟨?_, ?_⟩
      · intro z hz
        rw [List.eq_of_mem_replicate hz]
        exact decide_eq_true hle
      · rw [List.pairwise_replicate]
        exact .inr (decide_eq_true le_rfl)
    have hkept := List.sublist_mergeSort (key_trans key) (key_total key) hpartSorted hpart
    rw [hsplit] at hkept
    -- were `x` not before this `y`, all of them would come after it
    by_contra hpre
    have hafter := cons_sublist_of_not_mem hkept hpre
    have hpost : (List.replicate (l₂.count y) y).Sublist post := by
      cases hafter with
      | cons _ h => exact (List.sublist_cons_self x _).trans h
      | cons_cons _ _ => exact absurd rfl hne
    have hcount := List.replicate_sublist_iff.mp hpost
    have htotal : (l₁ ++ l₂).count y = (pre ++ y :: post).count y :=
      hsplit ▸ (List.mergeSort_perm _ _).symm.count_eq y
    rw [List.count_append, List.count_append, List.count_cons_self, List.count_eq_zero.mpr hy] at htotal
    omega

end Foundation
