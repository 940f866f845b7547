/-
Module: SotFs.Foundation.Climb
Layer: Foundation
Purpose: The way up from a node along a partial successor function, within a bound. A way that ends passes no
  node twice, so when all nodes with a successor are in a finite set, any bound above its size gives the same
  answer.
Trusted boundary: none
Main exports: climb, climb_nodup, climb_length_le_card, climb_eq_of_card_lt
-/
import Mathlib.Data.Finset.Card
import Mathlib.Data.List.Nodup

namespace Foundation

variable {α : Type} {next : α → Option α}

/-- The nodes from `x` on, each the successor of the one before, up to one without successor; `none` if there are
    more than the bound. -/
def climb (next : α → Option α) : Nat → α → Option (List α)
  | 0, _ => none
  | fuel + 1, x =>
      match next x with
      | none => some [x]
      | some y => (climb next fuel y).map (x :: ·)

theorem climb_succ_cases {fuel : Nat} {x : α} {path : List α} (h : climb next (fuel + 1) x = some path) :
    (next x = none ∧ path = [x]) ∨
      ∃ y rest, next x = some y ∧ climb next fuel y = some rest ∧ path = x :: rest := by
  rw [climb] at h
  split at h
  · rename_i hnone
    cases h
    exact .inl ⟨hnone, rfl⟩
  · rename_i y hy
    obtain ⟨rest, hrest, rfl⟩ := Option.map_eq_some_iff.mp h
    exact .inr ⟨y, rest, hy, hrest, rfl⟩

/-- A way that ends is found under every bound it fits in. -/
theorem climb_of_length_le {fuel : Nat} : ∀ {x : α} {path : List α}, climb next fuel x = some path →
    ∀ {fuel' : Nat}, path.length ≤ fuel' → climb next fuel' x = some path := by
  induction fuel with
  | zero =>
      intro x path h
      cases h
  | succ fuel ih =>
      intro x path h fuel' hle
      rcases climb_succ_cases h with ⟨hnone, rfl⟩ | ⟨y, rest, hy, hrest, rfl⟩
      · obtain ⟨k, rfl⟩ := Nat.exists_eq_succ_of_ne_zero (Nat.one_le_iff_ne_zero.mp hle)
        rw [climb, hnone]
      · obtain ⟨k, rfl⟩ := Nat.exists_eq_succ_of_ne_zero
          (Nat.one_le_iff_ne_zero.mp ((Nat.succ_le_succ (Nat.zero_le rest.length)).trans hle))
        rw [climb, hy]
        dsimp only
        rw [ih hrest (Nat.le_of_succ_le_succ hle)]
        rfl

theorem climb_length_le {fuel : Nat} : ∀ {x : α} {path : List α}, climb next fuel x = some path →
    path.length ≤ fuel := by
  induction fuel with
  | zero =>
      intro x path h
      cases h
  | succ fuel ih =>
      intro x path h
      rcases climb_succ_cases h with ⟨_, rfl⟩ | ⟨y, rest, _, hrest, rfl⟩
      · exact Nat.le_add_left 1 fuel
      · exact Nat.succ_le_succ (ih hrest)

/-- Every node of a way has its own way, no longer than the one it is on. -/
theorem climb_of_mem {fuel : Nat} : ∀ {x : α} {path : List α}, climb next fuel x = some path → ∀ {y}, y ∈ path →
    ∃ rest, climb next fuel y = some rest ∧ rest.length ≤ path.length := by
  induction fuel with
  | zero =>
      intro x path h
      cases h
  | succ fuel ih =>
      intro x path h y hy
      rcases climb_succ_cases h with ⟨_, rfl⟩ | ⟨z, rest, _, hrest, rfl⟩
      · rw [List.mem_singleton.mp hy]
        exact ⟨[x], h, le_rfl⟩
      · rcases List.mem_cons.mp hy with rfl | hy
        · exact ⟨_, h, le_rfl⟩
        · obtain ⟨tail, htail, hle⟩ := ih hrest hy
          have hlong : tail.length ≤ fuel + 1 := (climb_length_le htail).trans (Nat.le_succ fuel)
          exact ⟨tail, climb_of_length_le htail hlong, hle.trans (Nat.le_succ _)⟩

/-- A way that ends passes no node twice: the second time round it would be as long as the first. -/
theorem climb_nodup {fuel : Nat} : ∀ {x : α} {path : List α}, climb next fuel x = some path → path.Nodup := by
  induction fuel with
  | zero =>
      intro x path h
      cases h
  | succ fuel ih =>
      intro x path h
      rcases climb_succ_cases h with ⟨_, rfl⟩ | ⟨y, rest, _, hrest, rfl⟩
      · exact List.nodup_singleton x
      · refine List.nodup_cons.mpr ⟨fun hx => ?_, ih hrest⟩
        obtain ⟨tail, htail, hle⟩ := climb_of_mem hrest hx
        have hagain := climb_of_length_le htail ((climb_length_le htail).trans (Nat.le_succ fuel))
        rw [h] at hagain
        have heq : x :: rest = tail := Option.some.inj hagain
        rw [← heq] at hle
        exact absurd hle (Nat.not_succ_le_self rest.length)

/-- All nodes of a way but the last have a successor. -/
theorem climb_eq_append {fuel : Nat} : ∀ {x : α} {path : List α}, climb next fuel x = some path →
    ∃ init last, path = init ++ [last] ∧ next last = none ∧ ∀ y ∈ init, next y ≠ none := by
  induction fuel with
  | zero =>
      intro x path h
      cases h
  | succ fuel ih =>
      intro x path h
      rcases climb_succ_cases h with ⟨hnone, rfl⟩ | ⟨y, rest, hy, hrest, rfl⟩
      · exact ⟨[], x, rfl, hnone, by simp⟩
      · obtain ⟨init, last, rfl, hlast, hinit⟩ := ih hrest
        refine ⟨x :: init, last, rfl, hlast, fun z hz => ?_⟩
        rcases List.mem_cons.mp hz with rfl | hz
        · rw [hy]
          exact Option.some_ne_none y
        · exact hinit z hz

/-- A way is not longer than the nodes with a successor allow. -/
theorem climb_length_le_card {S : Finset α} (hnext : ∀ x, next x ≠ none → x ∈ S) {fuel : Nat} {x : α}
    {path : List α} (h : climb next fuel x = some path) : path.length ≤ S.card + 1 := by
  classical
  have hnodup := climb_nodup h
  obtain ⟨init, last, rfl, _, hinit⟩ := climb_eq_append h
  have hinit_nodup : init.Nodup := (List.nodup_append.mp hnodup).1
  have hsub : init.toFinset ⊆ S := fun y hy => hnext y (hinit y (List.mem_toFinset.mp hy))
  have hcard := Finset.card_le_card hsub
  rw [List.toFinset_card_of_nodup hinit_nodup] at hcard
  rw [List.length_append]
  exact Nat.succ_le_succ hcard

/-- Bounds above the number of nodes with a successor give the same answer. -/
theorem climb_eq_of_card_lt {S : Finset α} (hnext : ∀ x, next x ≠ none → x ∈ S) {n m : Nat} (hn : S.card < n)
    (hm : S.card < m) (x : α) : climb next n x = climb next m x := by
  have hfits : ∀ {n m : Nat}, S.card < m → ∀ {path}, climb next n x = some path → climb next m x = some path :=
    fun hm _ h => climb_of_length_le h ((climb_length_le_card hnext h).trans hm)
  cases h : climb next n x with
  | some path => exact (hfits hm h).symm
  | none =>
      cases h' : climb next m x with
      | none => rfl
      | some path =>
          rw [hfits hn h'] at h
          cases h

end Foundation
