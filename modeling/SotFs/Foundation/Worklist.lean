/-
Module: SotFs.Foundation.Worklist
Layer: Foundation
Purpose: The loop that empties a stack of nodes: a popped node that was seen before is skipped, another is
  visited and its successors are pushed. Every turn pops one node, so fuel for the nodes on the stack and
  for all that may still be pushed is enough; then the loop is a fold over the reachable nodes, each of
  them once.
Trusted boundary: none
Main exports: Worklist.drain, Worklist.Visits, Worklist.drain_visits, Worklist.drain_reaches,
  Worklist.foldl_read
-/
import Mathlib

namespace Foundation.Worklist

open Relation

section

variable {α σ : Type} [DecidableEq α]

/-- Empty the stack, top first. -/
def drain (succ : α → List α) (visit : α → σ → σ) : Nat → List α → Finset α → σ → σ
  | 0, _, _, state => state
  | _ + 1, [], _, state => state
  | fuel + 1, a :: stack, visited, state =>
      if a ∈ visited then drain succ visit fuel stack visited state
      else drain succ visit fuel ((succ a).reverse ++ stack) (insert a visited) (visit a state)

variable {succ : α → List α} {visit : α → σ → σ}

/-- What a loop that started with `stack` and `visited` visits, in order: every node once, each of them
    reached from the stack, and nothing that the stack or a visited node leads to is left out. -/
structure Visits (succ : α → List α) (stack : List α) (visited : Finset α) (order : List α) : Prop where
  once : order.Nodup
  new : ∀ a ∈ order, a ∉ visited
  reached : ∀ a ∈ order, ∃ s ∈ stack, ReflTransGen (fun x y => y ∈ succ x) s a
  emptied : ∀ s ∈ stack, s ∈ visited ∨ s ∈ order
  closed : ∀ a ∈ order, ∀ c ∈ succ a, c ∈ visited ∨ c ∈ order

/-- The invariant of the loop, by induction on the fuel: a visit takes what its node may push out of the
    sum over the nodes that are still to be visited. -/
theorem drain_visits {keys : Finset α} (hkeys : ∀ x, succ x ≠ [] → x ∈ keys) :
    ∀ (fuel : Nat) (stack : List α) (visited : Finset α) (state : σ),
      stack.length + ∑ x ∈ keys \ visited, (succ x).length ≤ fuel →
        ∃ order, Visits succ stack visited order ∧
          drain succ visit fuel stack visited state = order.foldl (fun s a => visit a s) state := by
  intro fuel
  induction fuel with
  | zero =>
      intro stack visited state hfuel
      have hnil : stack = [] := List.length_eq_zero_iff.mp (by omega)
      subst hnil
      exact ⟨[], ⟨List.nodup_nil, by simp, by simp, by simp, by simp⟩, rfl⟩
  | succ fuel ih =>
      intro stack visited state hfuel
      cases stack with
      | nil => exact ⟨[], ⟨List.nodup_nil, by simp, by simp, by simp, by simp⟩, rfl⟩
      | cons a stack =>
          rw [List.length_cons] at hfuel
          by_cases ha : a ∈ visited
          · obtain ⟨order, hvisits, heq⟩ := ih stack visited state (by omega)
            refine ⟨order, ⟨hvisits.once, hvisits.new, ?_, ?_, hvisits.closed⟩, ?_⟩
            · intro x hx
              obtain ⟨s, hs, hreach⟩ := hvisits.reached x hx
              exact ⟨s, List.mem_cons_of_mem a hs, hreach⟩
            · intro s hs
              rcases List.mem_cons.mp hs with rfl | hs
              · exact .inl ha
              · exact hvisits.emptied s hs
            · rw [drain, if_pos ha, heq]
          · have hpushed : (succ a).length + ∑ x ∈ keys \ insert a visited, (succ x).length =
                ∑ x ∈ keys \ visited, (succ x).length := by
              by_cases hkey : a ∈ keys
              · rw [Finset.sdiff_insert]
                exact Finset.add_sum_erase _ (fun x => (succ x).length) (Finset.mem_sdiff.mpr ⟨hkey, ha⟩)
              · have hnil : succ a = [] := by
                  by_contra hne
                  exact hkey (hkeys a hne)
                rw [hnil, Finset.sdiff_insert_of_notMem hkey, List.length_nil, Nat.zero_add]
            obtain ⟨order, hvisits, heq⟩ := ih ((succ a).reverse ++ stack) (insert a visited) (visit a state)
              (by rw [List.length_append, List.length_reverse]; omega)
            have hadded : ∀ {x}, x ∈ insert a visited ∨ x ∈ order → x ∈ visited ∨ x ∈ a :: order := by
              rintro x (hx | hx)
              · rcases Finset.mem_insert.mp hx with rfl | hx
                · exact .inr List.mem_cons_self
                · exact .inl hx
              · exact .inr (List.mem_cons_of_mem a hx)
            refine ⟨a :: order, ⟨?_, ?_, ?_, ?_, ?_⟩, ?_⟩
            · refine List.nodup_cons.mpr ⟨?_, hvisits.once⟩
              intro hmem
              exact hvisits.new a hmem (Finset.mem_insert_self a visited)
            · intro x hx
              rcases List.mem_cons.mp hx with rfl | hx
              · exact ha
              · exact fun hmem => hvisits.new x hx (Finset.mem_insert_of_mem hmem)
            · intro x hx
              rcases List.mem_cons.mp hx with rfl | hx
              · exact ⟨x, List.mem_cons_self, .refl⟩
              · obtain ⟨s, hs, hreach⟩ := hvisits.reached x hx
                rcases List.mem_append.mp hs with hs | hs
                · exact ⟨a, List.mem_cons_self, .head (List.mem_reverse.mp hs) hreach⟩
                · exact ⟨s, List.mem_cons_of_mem a hs, hreach⟩
            · intro s hs
              rcases List.mem_cons.mp hs with rfl | hs
              · exact .inr List.mem_cons_self
              · exact hadded (hvisits.emptied s (List.mem_append_right _ hs))
            · intro x hx c hc
              rcases List.mem_cons.mp hx with rfl | hx
              · exact hadded (hvisits.emptied c (List.mem_append_left _ (List.mem_reverse.mpr hc)))
              · exact hadded (hvisits.closed x hx c hc)
            · rw [drain, if_neg ha, heq]
              rfl

/-- From one node, with nothing visited: a fold over the nodes it reaches. -/
theorem drain_reaches {keys : Finset α} (hkeys : ∀ x, succ x ≠ [] → x ∈ keys) {fuel : Nat}
    (hfuel : 1 + ∑ x ∈ keys, (succ x).length ≤ fuel) (start : α) (state : σ) :
    ∃ order : List α, (∀ a, a ∈ order ↔ ReflTransGen (fun x y => y ∈ succ x) start a) ∧
      drain succ visit fuel [start] ∅ state = order.foldl (fun s a => visit a s) state := by
  obtain ⟨order, hvisits, heq⟩ := drain_visits hkeys fuel [start] ∅ state
    (by rw [Finset.sdiff_empty]; exact hfuel)
  refine ⟨order, fun a => ⟨?_, ?_⟩, heq⟩
  · intro ha
    obtain ⟨s, hs, hreach⟩ := hvisits.reached a ha
    rw [List.mem_singleton] at hs
    exact hs ▸ hreach
  · intro hreach
    induction hreach with
    | refl => exact (hvisits.emptied start List.mem_cons_self).resolve_left (Finset.notMem_empty _)
    | tail _ hstep ih => exact (hvisits.closed _ ih _ hstep).resolve_left (Finset.notMem_empty _)

end

/-- A reading that every visit of one kind sets to `v` and no other visit touches. -/
theorem foldl_read {α σ V : Type} (visit : α → σ → σ) (read : σ → V) (sets : α → Prop) {v : V}
    (hset : ∀ s a, sets a → read (visit a s) = v) (hkeep : ∀ s a, ¬ sets a → read (visit a s) = read s)
    (order : List α) :
    ∀ s, ((∃ a ∈ order, sets a) → read (order.foldl (fun s a => visit a s) s) = v) ∧
      ((∀ a ∈ order, ¬ sets a) → read (order.foldl (fun s a => visit a s) s) = read s) := by
  induction order with
  | nil => exact fun s => ⟨by simp, fun _ => rfl⟩
  | cons a order ih =>
      intro s
      obtain ⟨hhit, hmiss⟩ := ih (visit a s)
      refine ⟨?_, ?_⟩
      · rintro ⟨b, hb, hsets⟩
        by_cases hlater : ∃ c ∈ order, sets c
        · exact hhit hlater
        · have hnone : ∀ c ∈ order, ¬ sets c := fun c hc hsets => hlater ⟨c, hc, hsets⟩
          rcases List.mem_cons.mp hb with rfl | hb
          · exact (hmiss hnone).trans (hset s b hsets)
          · exact absurd hsets (hnone b hb)
      · intro hnone
        exact (hmiss fun c hc => hnone c (List.mem_cons_of_mem a hc)).trans
          (hkeep s a (hnone a List.mem_cons_self))

end Foundation.Worklist
