/-
Module: SotFs.Foundation.GraphSearch
Layer: Foundation
Purpose: Depth-first search over a successor function with a visited set threaded through the recursion.
  `search` looks for a target strictly below a node. The recursion is bounded by fuel; the correctness
  theorems assume fuel above the number of unvisited nodes that have successors, which is as deep as the
  unbounded recursion can get.
Trusted boundary: none
Main exports: GraphSearch.anyChild, GraphSearch.anyChild_false, GraphSearch.search, GraphSearch.search_spec,
  GraphSearch.search_iff_transGen
-/
import Mathlib

namespace Foundation.GraphSearch

open Relation

/-- Try the children in order, threading the visited set, until one answers `true`. -/
def anyChild {α V : Type} (visit : α → V → Bool × V) : List α → V → Bool × V
  | [], visited => (false, visited)
  | c :: cs, visited =>
      match visit c visited with
      | (true, visited') => (true, visited')
      | (false, visited') => anyChild visit cs visited'

/-- Children that all answer `false` and keep a property of the threaded state. -/
theorem anyChild_false {α V : Type} (visit : α → V → Bool × V) (P : V → Prop) (children : List α)
    (hvisit : ∀ c ∈ children, ∀ v, P v → (visit c v).1 = false ∧ P (visit c v).2) :
    ∀ {v}, P v → (anyChild visit children v).1 = false ∧ P (anyChild visit children v).2 := by
  induction children with
  | nil =>
      intro v hv
      exact ⟨rfl, hv⟩
  | cons c cs ih =>
      intro v hv
      obtain ⟨hfalse, hnext⟩ := hvisit c List.mem_cons_self v hv
      have htail := ih (fun d hd => hvisit d (List.mem_cons_of_mem c hd)) hnext
      cases hr : visit c v with
      | mk answer v' =>
          rw [hr] at hfalse htail
          cases answer with
          | true => cases hfalse
          | false =>
              unfold anyChild
              rw [hr]
              exact htail

section

variable {α : Type} [DecidableEq α]

/-- Depth-first search for `target` among the proper descendants of `current`. A visited node is not
    entered again. -/
def search (succ : α → List α) (target : α) : Nat → α → Finset α → Bool × Finset α
  | 0, _, visited => (false, visited)
  | fuel + 1, current, visited =>
      if current ∈ visited then (false, visited)
      else
        anyChild
          (fun c visited => if c = target then (true, visited) else search succ target fuel c visited)
          (succ current) (insert current visited)

variable {succ : α → List α} {target : α}

/-- What a search that started with `visited` says by its answer: it only adds nodes; a miss means that
    `goals` were all entered and that every node it added has its children entered and none of them is the
    target; a hit is witnessed below one of the goals. -/
structure Searched (succ : α → List α) (target : α) (visited : Finset α) (goals : List α)
    (hit : Prop) (result : Bool × Finset α) : Prop where
  grows : visited ⊆ result.2
  entered : result.1 = false → ∀ c ∈ goals, c ∈ result.2
  closed : result.1 = false →
    ∀ x ∈ result.2, x ∉ visited → ∀ c ∈ succ x, c ≠ target ∧ c ∈ result.2
  found : result.1 = true → hit

/-- Searching the children one after the other. -/
theorem anyChild_searched (succ : α → List α) (target : α) (visit : α → Finset α → Bool × Finset α)
    (start : Finset α) (hit : Prop) (children : List α)
    (hvisit : ∀ c ∈ children, ∀ v, start ⊆ v → Searched succ target v [c] hit (visit c v))
    (hmiss : ∀ c ∈ children, ∀ v, (visit c v).1 = false → c ≠ target) :
    ∀ v, start ⊆ v →
      Searched succ target v children hit (anyChild visit children v) ∧
        ((anyChild visit children v).1 = false → ∀ c ∈ children, c ≠ target) := by
  induction children with
  | nil =>
      intro v _
      refine ⟨⟨Finset.Subset.refl v, ?_, ?_, ?_⟩, ?_⟩ <;> simp [anyChild]
      intro x hx hnot
      exact absurd hx hnot
  | cons c cs ih =>
      intro v hv
      have hhead := hvisit c (by simp) v hv
      have hmissHead := hmiss c (by simp) v
      cases hr : visit c v with
      | mk answer v' =>
          rw [hr] at hhead hmissHead
          cases answer with
          | true =>
              simp only [anyChild, hr]
              refine ⟨⟨hhead.grows, ?_, ?_, hhead.found⟩, ?_⟩ <;> simp
          | false =>
              obtain ⟨htail, hmissTail⟩ :=
                ih (fun d hd => hvisit d (List.mem_cons_of_mem c hd))
                  (fun d hd => hmiss d (List.mem_cons_of_mem c hd)) v' (hv.trans hhead.grows)
              simp only [anyChild, hr]
              refine ⟨⟨hhead.grows.trans htail.grows, ?_, ?_, htail.found⟩, ?_⟩
              · intro hfalse d hd
                rcases List.mem_cons.mp hd with rfl | hd
                · exact htail.grows (hhead.entered rfl d (by simp))
                · exact htail.entered hfalse d hd
              · intro hfalse x hx hnot d hd
                by_cases hxv : x ∈ v'
                · obtain ⟨hne, hmem⟩ := hhead.closed rfl x hxv hnot d hd
                  exact ⟨hne, htail.grows hmem⟩
                · exact htail.closed hfalse x hx hxv d hd
              · intro hfalse d hd
                rcases List.mem_cons.mp hd with rfl | hd
                · exact hmissHead rfl
                · exact hmissTail hfalse d hd

/-- The invariant of the search, by induction on the fuel: entering a node with successors uses up one of
    the `keys`, so the fuel never runs out. -/
theorem search_spec (target : α) {keys : Finset α} (hkeys : ∀ x, succ x ≠ [] → x ∈ keys) :
    ∀ fuel current visited, (keys \ visited).card < fuel →
      Searched succ target visited [current] (TransGen (fun a b => b ∈ succ a) current target)
        (search succ target fuel current visited) := by
  intro fuel
  induction fuel with
  | zero => intro current visited h; omega
  | succ fuel ih =>
      intro current visited hfuel
      unfold search
      by_cases hcur : current ∈ visited
      · rw [if_pos hcur]
        refine ⟨Finset.Subset.refl _, ?_, ?_, ?_⟩
        · intro _ c hc
          rw [List.mem_singleton] at hc
          exact hc ▸ hcur
        · intro _ x hx hnot
          exact absurd hx hnot
        · intro h
          exact absurd h (by simp)
      · rw [if_neg hcur]
        have hroom : ∀ c ∈ succ current, ∀ v, insert current visited ⊆ v → (keys \ v).card < fuel := by
          intro c hc v hv
          have hmem : current ∈ keys := hkeys current (List.ne_nil_of_mem hc)
          have hlt : (keys \ v).card < (keys \ visited).card := by
            apply Finset.card_lt_card
            refine Finset.ssubset_iff_of_subset ?_ |>.mpr ?_
            · exact Finset.sdiff_subset_sdiff (Finset.Subset.refl _)
                ((Finset.subset_insert _ _).trans hv)
            · refine ⟨current, Finset.mem_sdiff.mpr ⟨hmem, hcur⟩, ?_⟩
              intro h
              exact (Finset.mem_sdiff.mp h).2 (hv (Finset.mem_insert_self _ _))
          omega
        obtain ⟨hall, hmissAll⟩ := anyChild_searched succ target
          (fun c v => if c = target then (true, v) else search succ target fuel c v)
          (insert current visited) (TransGen (fun a b => b ∈ succ a) current target) (succ current)
          (by
            intro c hc v hv
            by_cases hct : c = target
            · simp only [if_pos hct]
              refine ⟨Finset.Subset.refl _, by simp, by simp, ?_⟩
              intro _
              exact .single (hct ▸ hc)
            · simp only [if_neg hct]
              have hsub := ih c v (hroom c hc v hv)
              exact ⟨hsub.grows, hsub.entered, hsub.closed, fun h => TransGen.head hc (hsub.found h)⟩)
          (by
            intro c _ v hfalse hct
            simp [hct] at hfalse)
          (insert current visited) (Finset.Subset.refl _)
        refine ⟨(Finset.subset_insert _ _).trans hall.grows, ?_, ?_, hall.found⟩
        · intro _ c hc
          rw [List.mem_singleton] at hc
          exact hc ▸ hall.grows (Finset.mem_insert_self _ _)
        · intro hfalse x hx hnot c hc
          by_cases hxc : x = current
          · subst hxc
            exact ⟨hmissAll hfalse c hc, hall.entered hfalse c hc⟩
          · refine hall.closed hfalse x hx ?_ c hc
            rw [Finset.mem_insert]
            tauto

/-- From an empty visited set and with fuel for every node that has successors, the search answers whether
    the target is a proper descendant. -/
theorem search_iff_transGen (target : α) {keys : Finset α} (hkeys : ∀ x, succ x ≠ [] → x ∈ keys) {fuel : Nat}
    (hfuel : keys.card < fuel) (current : α) :
    (search succ target fuel current ∅).1 = true ↔
      TransGen (fun a b => b ∈ succ a) current target := by
  have hspec := search_spec target hkeys fuel current ∅ (by simpa using hfuel)
  constructor
  · exact hspec.found
  · intro hreach
    by_contra hnot
    have hfalse : (search succ target fuel current ∅).1 = false := by simpa using hnot
    have hclosed : ∀ x, ReflTransGen (fun a b => b ∈ succ a) current x →
        x ∈ (search succ target fuel current ∅).2 := by
      intro x hx
      induction hx with
      | refl => exact hspec.entered hfalse current (by simp)
      | tail _ hstep ih => exact (hspec.closed hfalse _ ih (by simp) _ hstep).2
    obtain ⟨y, hy, hyt⟩ := TransGen.tail'_iff.mp hreach
    exact (hspec.closed hfalse y (hclosed y hy) (by simp) target hyt).1 rfl

end

end Foundation.GraphSearch
