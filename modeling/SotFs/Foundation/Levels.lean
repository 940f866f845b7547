/-
Module: SotFs.Foundation.Levels
Layer: Foundation
Purpose: The loop that measures how deep a graph goes below a root: a stack of nodes with their levels, nodes marked
  when they are pushed, the deepest level seen so far kept. Where every node is at one level only, as in a tree,
  the loop returns the greatest level there is.
Trusted boundary: human-reviewed library
Main exports: Steps, Steps.unique, Levels.push, Levels.deepest, Levels.deepest_isGreatest
-/
import SotFs.Foundation.RootedTree

namespace Foundation

open Relation

variable {α : Type}

/-- `Steps child root k a`: `a` is reached from the root in `k` steps. -/
inductive Steps (child : α → α → Prop) (root : α) : ℕ → α → Prop where
  | root : Steps child root 0 root
  | down {k : ℕ} {p c : α} (hup : Steps child root k p) (hpc : child p c) : Steps child root (k + 1) c

/-- In a tree every node is at one level. -/
theorem Steps.unique {child : α → α → Prop} {root : α} (htree : RootedTree child root) {k k' : ℕ} {a : α}
    (h : Steps child root k a) (h' : Steps child root k' a) : k = k' := by
  induction h generalizing k' with
  | root =>
      cases h' with
      | root => rfl
      | down _ hpc => exact absurd hpc (htree.root_top _)
  | down _ hpc ih =>
      cases h' with
      | root => exact absurd hpc (htree.root_top _)
      | down hup' hqc =>
          obtain rfl := htree.parent_unique hqc hpc
          rw [ih hup']

namespace Levels

section

variable [DecidableEq α]

/-- Push the children that are not marked, and mark them. -/
def push (level : ℕ) : List α → List (α × ℕ) × Finset α → List (α × ℕ) × Finset α
  | [], s => s
  | c :: cs, (stack, marked) =>
      if c ∈ marked then push level cs (stack, marked) else push level cs ((c, level) :: stack, insert c marked)

/-- The deepest level met until the stack is empty. -/
def deepest (succ : α → List α) : ℕ → List (α × ℕ) → Finset α → ℕ → ℕ
  | 0, _, _, best => best
  | _ + 1, [], _, best => best
  | fuel + 1, (a, level) :: stack, marked, best =>
      let pushed := push (level + 1) (succ a) (stack, marked)
      deepest succ fuel pushed.1 pushed.2 (if best < level then level else best)

/-- What a push adds: some of the children, each once and none of them marked before, and all are marked then. -/
theorem push_spec (level : ℕ) (cs : List α) : ∀ (stack : List (α × ℕ)) (marked : Finset α),
    ∃ new : List α, new.Nodup ∧ (∀ c ∈ new, c ∈ cs ∧ c ∉ marked) ∧ new.length ≤ cs.length ∧
      (push level cs (stack, marked)).1 = (new.map fun c => (c, level)) ++ stack ∧
      (∀ x, x ∈ (push level cs (stack, marked)).2 ↔ x ∈ marked ∨ x ∈ new) ∧
      ∀ c ∈ cs, c ∈ (push level cs (stack, marked)).2 := by
  induction cs with
  | nil =>
      intro stack marked
      exact ⟨[], List.nodup_nil, by simp, le_rfl, rfl, by simp [push], by simp⟩
  | cons c cs ih =>
      intro stack marked
      by_cases hc : c ∈ marked
      · obtain ⟨new, hnodup, hnew, hlength, hstack, hmarked, hall⟩ := ih stack marked
        rw [push, if_pos hc]
        refine ⟨new, hnodup, ?_, hlength.trans (Nat.le_succ _), hstack, hmarked, ?_⟩
        · intro x hx
          exact ⟨List.mem_cons_of_mem c (hnew x hx).1, (hnew x hx).2⟩
        · intro x hx
          rcases List.mem_cons.mp hx with rfl | hx
          · exact (hmarked x).mpr (.inl hc)
          · exact hall x hx
      · obtain ⟨new, hnodup, hnew, hlength, hstack, hmarked, hall⟩ := ih ((c, level) :: stack) (insert c marked)
        have hfresh : c ∉ new := fun hmem => (hnew c hmem).2 (Finset.mem_insert_self c marked)
        rw [push, if_neg hc]
        refine ⟨new ++ [c], ?_, ?_, ?_, ?_, ?_, ?_⟩
        · refine List.nodup_append.mpr ⟨hnodup, List.nodup_singleton c, ?_⟩
          rintro x hx y hy rfl
          exact hfresh (List.mem_singleton.mp hy ▸ hx)
        · intro x hx
          rcases List.mem_append.mp hx with hx | hx
          · exact ⟨List.mem_cons_of_mem c (hnew x hx).1, fun hmem => (hnew x hx).2 (Finset.mem_insert_of_mem hmem)⟩
          · obtain rfl := List.mem_singleton.mp hx
            exact ⟨List.mem_cons_self, hc⟩
        · simpa using hlength
        · simpa using hstack
        · intro x
          rw [hmarked, Finset.mem_insert, List.mem_append, List.mem_singleton]
          tauto
        · intro x hx
          rcases List.mem_cons.mp hx with rfl | hx
          · exact (hmarked x).mpr (.inl (Finset.mem_insert_self x marked))
          · exact hall x hx

variable {succ : α → List α} {root : α}

/-- The loop has emptied `done` and holds the rest of what it marked on its stack, each node at its level. -/
structure Explored (succ : α → List α) (root : α) (done : Finset α) (stack : List (α × ℕ)) (marked : Finset α)
    (best : ℕ) : Prop where
  once : (stack.map Prod.fst).Nodup
  split : ∀ a, a ∈ marked ↔ a ∈ done ∨ a ∈ stack.map Prod.fst
  apart : ∀ a ∈ stack.map Prod.fst, a ∉ done
  start : root ∈ marked
  level : ∀ a k, (a, k) ∈ stack → Steps (fun x y => y ∈ succ x) root k a
  closed : ∀ a ∈ done, ∀ c ∈ succ a, c ∈ marked
  bound : ∀ a ∈ done, ∃ k, Steps (fun x y => y ∈ succ x) root k a ∧ k ≤ best
  met : best = 0 ∨ ∃ a, Steps (fun x y => y ∈ succ x) root best a

/-- One turn: the node on top is done and its children are marked. -/
theorem Explored.pop {done : Finset α} {a : α} {k : ℕ} {stack : List (α × ℕ)} {marked : Finset α} {best : ℕ}
    (h : Explored succ root done ((a, k) :: stack) marked best) :
    Explored succ root (insert a done) (push (k + 1) (succ a) (stack, marked)).1
      (push (k + 1) (succ a) (stack, marked)).2 (if best < k then k else best) := by
  obtain ⟨new, hnodup, hnew, _, hstack, hmarked, hall⟩ := push_spec (k + 1) (succ a) stack marked
  have honce := h.once
  rw [List.map_cons, List.nodup_cons] at honce
  have hlevel : Steps (fun x y => y ∈ succ x) root k a := h.level a k List.mem_cons_self
  have hfst : (new.map fun c => (c, k + 1)).map Prod.fst = new := by
    rw [List.map_map]
    exact List.map_id _
  have hbest : best ≤ if best < k then k else best := by split <;> omega
  refine ⟨?_, ?_, ?_, (hmarked root).mpr (.inl h.start), ?_, ?_, ?_, ?_⟩
  · rw [hstack, List.map_append, hfst]
    refine List.nodup_append.mpr ⟨hnodup, honce.2, ?_⟩
    rintro x hx y hy rfl
    exact (hnew x hx).2 ((h.split x).mpr (.inr (List.mem_cons_of_mem a hy)))
  · intro x
    rw [hmarked, h.split, hstack, List.map_append, hfst, List.map_cons, Finset.mem_insert, List.mem_cons,
      List.mem_append]
    tauto
  · intro x hx hdone
    rw [hstack, List.map_append, hfst] at hx
    rcases List.mem_append.mp hx with hx | hx <;> rcases Finset.mem_insert.mp hdone with rfl | hdone
    · exact (hnew x hx).2 ((h.split x).mpr (.inr List.mem_cons_self))
    · exact (hnew x hx).2 ((h.split x).mpr (.inl hdone))
    · exact honce.1 hx
    · exact h.apart x (List.mem_cons_of_mem a hx) hdone
  · intro x l hx
    rw [hstack] at hx
    rcases List.mem_append.mp hx with hx | hx
    · obtain ⟨c, hc, hpair⟩ := List.mem_map.mp hx
      obtain ⟨rfl, rfl⟩ := Prod.mk.inj hpair
      exact hlevel.down (hnew _ hc).1
    · exact h.level x l (List.mem_cons_of_mem _ hx)
  · intro x hx c hc
    rcases Finset.mem_insert.mp hx with rfl | hx
    · exact hall c hc
    · exact (hmarked c).mpr (.inl (h.closed x hx c hc))
  · intro x hx
    rcases Finset.mem_insert.mp hx with rfl | hx
    · refine ⟨k, hlevel, ?_⟩
      split <;> omega
    · obtain ⟨l, hl, hle⟩ := h.bound x hx
      exact ⟨l, hl, hle.trans hbest⟩
  · split
    · exact .inr ⟨a, hlevel⟩
    · exact h.met

/-- The loop ends with everything done, by induction on the fuel: a turn takes what its node may push out of the sum
    over the nodes that are not done. -/
theorem Explored.end {keys : Finset α} (hkeys : ∀ x, succ x ≠ [] → x ∈ keys) :
    ∀ (fuel : ℕ) {done : Finset α} {stack : List (α × ℕ)} {marked : Finset α} {best : ℕ},
      Explored succ root done stack marked best →
        stack.length + ∑ x ∈ keys \ done, (succ x).length ≤ fuel →
          ∃ done', Explored succ root done' [] done' (deepest succ fuel stack marked best) := by
  have hempty : ∀ {done : Finset α} {marked : Finset α} {best : ℕ}, Explored succ root done [] marked best →
      ∃ done', Explored succ root done' [] done' best := by
    intro done marked best h
    have hsame : marked = done := by
      ext a
      rw [h.split a]
      simp
    subst hsame
    exact ⟨_, h⟩
  intro fuel
  induction fuel with
  | zero =>
      intro done stack marked best h hfuel
      obtain rfl : stack = [] := List.length_eq_zero_iff.mp (by omega)
      exact hempty h
  | succ fuel ih =>
      intro done stack marked best h hfuel
      cases stack with
      | nil => exact hempty h
      | cons top stack =>
          obtain ⟨a, k⟩ := top
          refine ih h.pop ?_
          obtain ⟨new, _, _, hlength, hstack, _⟩ := push_spec (k + 1) (succ a) stack marked
          have ha : a ∉ done := h.apart a List.mem_cons_self
          have hpushed : (succ a).length + ∑ x ∈ keys \ insert a done, (succ x).length =
              ∑ x ∈ keys \ done, (succ x).length := by
            by_cases hkey : a ∈ keys
            · rw [Finset.sdiff_insert]
              exact Finset.add_sum_erase _ (fun x => (succ x).length) (Finset.mem_sdiff.mpr ⟨hkey, ha⟩)
            · have hnil : succ a = [] := by
                by_contra hne
                exact hkey (hkeys a hne)
              rw [hnil, Finset.sdiff_insert_of_notMem hkey, List.length_nil, Nat.zero_add]
          rw [hstack, List.length_append, List.length_map]
          rw [List.length_cons] at hfuel
          omega

/-- Where every node is at one level, the loop returns the greatest. -/
theorem deepest_isGreatest {keys : Finset α} (hkeys : ∀ x, succ x ≠ [] → x ∈ keys) {fuel : ℕ}
    (hfuel : 1 + ∑ x ∈ keys, (succ x).length ≤ fuel)
    (hunique : ∀ {k k' a}, Steps (fun x y => y ∈ succ x) root k a → Steps (fun x y => y ∈ succ x) root k' a → k = k') :
    IsGreatest {k | ∃ a, Steps (fun x y => y ∈ succ x) root k a} (deepest succ fuel [(root, 0)] {root} 0) := by
  have hstart : Explored succ root ∅ [(root, 0)] {root} 0 :=
    { once := List.nodup_singleton root
      split := by simp
      apart := by simp
      start := Finset.mem_singleton_self root
      level := by
        intro a k hmem
        cases List.mem_singleton.mp hmem
        exact .root
      closed := by simp
      bound := by simp
      met := .inl rfl }
  obtain ⟨done, h⟩ := Explored.end hkeys fuel hstart (by simpa using hfuel)
  have hall : ∀ {k a}, Steps (fun x y => y ∈ succ x) root k a → a ∈ done := by
    intro k a ha
    induction ha with
    | root => exact h.start
    | down _ hpc ih => exact h.closed _ ih _ hpc
  constructor
  · rcases h.met with hzero | hmet
    · rw [hzero]
      exact ⟨root, .root⟩
    · exact hmet
  · rintro k ⟨a, ha⟩
    obtain ⟨l, hl, hle⟩ := h.bound a (hall ha)
    rw [hunique ha hl]
    exact hle

end

end Levels

end Foundation
