/-
Module: SotFs.Proofs.TrackerBounds
Layer: Proofs
Purpose: The bound of the tracker along a history of calls. As long as added edges join nodes that are there
  and no fill edge is dropped, the bound is one on the treewidth of the graph that the calls describe. The
  lists of the tracker hold few neighbors and no bound is larger than a list, so where the treewidth is the
  bound is too small.
Trusted boundary: none
Main exports: tracker_bound, Capped, Sized, TrackerRun.capped, tracker_bound_le, exists_bound_too_small
-/
import SotFs.Proofs.TrackerUpdates

namespace SotFs

open Foundation

/-! ### Upper bounds -/

theorem stepWidth_le_maxWidth {steps : List Elimination} {step : Elimination} (hstep : step ∈ steps) :
    step.stepWidth ≤ maxWidth steps := by
  have hmono : ∀ (steps : List Elimination) (width : Nat),
      width ≤ steps.foldl (fun width step => max width step.stepWidth) width := by
    intro steps
    induction steps with
    | nil => exact fun width => le_rfl
    | cons step steps ih => exact fun width => (le_max_left _ _).trans (ih _)
  have hmem : ∀ (steps : List Elimination) (width : Nat), step ∈ steps →
      step.stepWidth ≤ steps.foldl (fun width step => max width step.stepWidth) width := by
    intro steps
    induction steps with
    | nil => exact fun _ h => absurd h List.not_mem_nil
    | cons first steps ih =>
        intro width h
        rcases List.mem_cons.mp h with rfl | h
        · exact (le_max_right _ _).trans (hmono steps _)
        · exact ih _ h
  exact hmem steps 0 hstep

theorem maxWidth_le_iff {steps : List Elimination} {k : Nat} :
    maxWidth steps ≤ k ↔ ∀ d ∈ steps.map Elimination.stepWidth, d ≤ k := by
  constructor
  · intro hle d hd
    obtain ⟨step, hstep, rfl⟩ := List.mem_map.mp hd
    exact (stepWidth_le_maxWidth hstep).trans hle
  · exact fun hle => maxWidth_le fun step hstep => hle _ (List.mem_map_of_mem hstep)

section Limit

variable {s t : DynamicTreewidth} {g h : EditedGraph}

/-- Neither the bound nor a step is larger than a list. -/
structure Capped (t : DynamicTreewidth) : Prop where
  bound : t.bound ≤ MAX_DEGREE
  steps : ∀ step ∈ t.ordering, step.stepWidth ≤ MAX_DEGREE

theorem Bounded.replay (steps : List Elimination) : ∀ {work : List Slot} {eliminated : List Nat},
    Bounded work → Bounded (DynamicTreewidth.replay steps work eliminated).1 := by
  induction steps with
  | nil => exact fun h => h
  | cons step steps ih =>
      intro work eliminated h
      rw [DynamicTreewidth.replay]
      split
      · exact ih h
      · exact ih (h.fillWork _)

/-- A recomputation of lists within their arrays does not exceed the limit. -/
theorem Capped.full (hbounded : Bounded s.slots) : Capped s.fullRecompute :=
  ⟨maxWidth_le (hbounded.stepWidth_le _), hbounded.stepWidth_le _⟩

/-- An update of lists within their arrays does not exceed the limit. -/
theorem Capped.follow (hcapped : Capped s) (hbounded : Bounded s.slots) (plan : UpdatePlan) :
    Capped (s.follow plan) := by
  cases plan with
  | empty => exact ⟨Nat.zero_le _, fun step hstep => absurd hstep List.not_mem_nil⟩
  | full => exact .full hbounded
  | unchanged => exact ⟨hcapped.bound, hcapped.steps⟩
  | keep e =>
      have hsteps : ∀ step ∈ s.ordering.take e ++ s.suffix e, step.stepWidth ≤ MAX_DEGREE := by
        intro step hstep
        rcases List.mem_append.mp hstep with hstep | hstep
        · exact hcapped.steps step (List.mem_of_mem_take hstep)
        · exact (hbounded.replay _).stepWidth_le _ step hstep
      exact ⟨maxWidth_le hsteps, hsteps⟩

/-- The nodes are different, and their lists are within their arrays. -/
structure Sized (slots : List Slot) : Prop where
  ids : (slots.map Slot.id).Nodup
  bounded : Bounded slots

theorem Sized.removeNeighbor {slots : List Slot} (h : Sized slots) (u v : Nat) :
    Sized (DynamicTreewidth.removeNeighbor slots u v) := by
  refine ⟨by rw [map_id_removeNeighbor]; exact h.ids, fun s hs => ?_⟩
  obtain ⟨r, hr, rfl⟩ := List.mem_map.mp hs
  split
  · exact (swapRemove_perm _ _).length_eq.trans_le (List.length_erase_le.trans (h.bounded r hr))
  · exact h.bounded r hr

theorem Sized.addNeighbor (h : Sized t.slots) {u v : Nat} (heq : t.addNeighbor u v = some s) :
    Sized s.slots ∧ s.ordering = t.ordering ∧ s.bound = t.bound := by
  unfold DynamicTreewidth.addNeighbor at heq
  cases hfind : t.slots.find? fun slot => slot.id == u with
  | none =>
      rw [hfind] at heq
      cases heq
      exact ⟨h, rfl, rfl⟩
  | some slot =>
      rw [hfind] at heq
      dsimp only at heq
      split at heq
      · cases heq
        exact ⟨h, rfl, rfl⟩
      · split at heq
        · rename_i hroom
          cases heq
          refine ⟨⟨?_, fun r hr => ?_⟩, rfl, rfl⟩
          · rw [List.map_map]
            refine (List.map_congr_left (g := Slot.id) fun r _ => ?_) ▸ h.ids
            dsimp only [Function.comp_apply]
            split <;> rfl
          · obtain ⟨r', hr', rfl⟩ := List.mem_map.mp hr
            split
            · -- the slot that was looked up, as no other has its id
              rename_i hid
              have hslot : slot.id = u := by simpa using List.find?_some hfind
              obtain rfl := List.inj_on_of_nodup_map h.ids hr' (List.mem_of_find?_eq_some hfind)
                (hid.trans hslot.symm)
              rw [List.length_append, List.length_singleton]
              exact hroom
            · exact h.bounded r' hr'
        · cases heq

theorem Sized.removeNodeInternal (h : Sized t.slots) (n : Nat) : Sized (t.removeNodeInternal n).slots ∧
    (t.removeNodeInternal n).ordering = t.ordering ∧ (t.removeNodeInternal n).bound = t.bound := by
  unfold DynamicTreewidth.removeNodeInternal
  split
  · exact ⟨h, rfl, rfl⟩
  · rename_i idx hidx
    dsimp only
    have hfold : ∀ (nbrs : List Nat) {slots : List Slot}, Sized slots →
        (nbrs.foldl (fun slots y => DynamicTreewidth.removeNeighbor slots y n) slots).length = slots.length ∧
          Sized (nbrs.foldl (fun slots y => DynamicTreewidth.removeNeighbor slots y n) slots) := by
      intro nbrs
      induction nbrs with
      | nil => exact fun h => ⟨rfl, h⟩
      | cons y nbrs ih =>
          intro slots h
          obtain ⟨hlength, hsized⟩ := ih (h.removeNeighbor y n)
          exact ⟨hlength.trans (List.length_map _), hsized⟩
    obtain ⟨hlength, hsized⟩ := hfold ((t.slots[idx]?.map Slot.adj).getD []) h
    split
    · exact ⟨h, rfl, rfl⟩
    · rename_i last hlast
      have hlt : idx < t.slots.length := (List.findIdx?_eq_some_iff_getElem.mp hidx).1
      have hperm := set_dropLast_perm (hlength.symm ▸ hlt) hlast
      have hsub := List.eraseIdx_sublist (k := idx)
        (l := ((t.slots[idx]?.map Slot.adj).getD []).foldl
          (fun slots y => DynamicTreewidth.removeNeighbor slots y n) t.slots)
      refine ⟨⟨(hperm.map Slot.id).nodup_iff.mpr (hsized.ids.sublist (hsub.map Slot.id)), fun r hr => ?_⟩,
        rfl, rfl⟩
      exact hsized.bounded r (hsub.mem (hperm.mem_iff.mp hr))

theorem Sized.addEdgeInternal (h : Sized t.slots) {u v : Nat} (heq : t.addEdgeInternal u v = some s) :
    Sized s.slots ∧ s.ordering = t.ordering ∧ s.bound = t.bound := by
  unfold DynamicTreewidth.addEdgeInternal at heq
  split at heq
  · cases heq
    exact ⟨h, rfl, rfl⟩
  · obtain ⟨r, hfirst, hsecond⟩ := Option.bind_eq_some_iff.mp heq
    obtain ⟨hsized, hordering, hbound⟩ := h.addNeighbor hfirst
    obtain ⟨hsized', hordering', hbound'⟩ := hsized.addNeighbor hsecond
    exact ⟨hsized', hordering'.trans hordering, hbound'.trans hbound⟩

/-- A loaded tracker has its lists within their arrays. -/
theorem Sized.load {g : TypeGraph} (heq : DynamicTreewidth.new.loadTypeGraph g = some t) : Sized t.slots := by
  have hedges : ∀ (edges : List Edge) {t s : DynamicTreewidth}, Sized t.slots →
      edges.foldlM (DynamicTreewidth.loadEdge g.skeletonNodes) t = some s → Sized s.slots := by
    intro edges
    induction edges with
    | nil =>
        intro t s h heq
        cases heq
        exact h
    | cons edge edges ih =>
        intro t s h heq
        rw [List.foldlM_cons] at heq
        obtain ⟨r, hedge, heq⟩ := Option.bind_eq_some_iff.mp heq
        refine ih ?_ heq
        unfold DynamicTreewidth.loadEdge at hedge
        split at hedge
        · split at hedge
          · exact (h.addEdgeInternal hedge).1
          · cases hedge
            exact h
        · cases hedge
          exact h
  rw [TypeGraph.load_eq] at heq
  split at heq
  · refine hedges _ ⟨g.loadedNodes_lists.2.ids, fun s hs => ?_⟩ heq
    obtain ⟨id, _, rfl⟩ := List.mem_map.mp hs
    exact Nat.zero_le _
  · cases heq

/-- An edit keeps the lists within their arrays. -/
theorem Sized.edited (h : Sized t.slots) {op : TrackerOp} (heq : op.edited t = some s) :
    Sized s.slots ∧ s.ordering = t.ordering ∧ s.bound = t.bound := by
  have hflags : ∀ {r s : DynamicTreewidth}, DynamicTreewidth.OnlyFlags r s →
      Sized r.slots ∧ r.ordering = t.ordering ∧ r.bound = t.bound →
      Sized s.slots ∧ s.ordering = t.ordering ∧ s.bound = t.bound := fun hflags hr =>
    ⟨hflags.slots.symm ▸ hr.1, hflags.ordering.trans hr.2.1, hflags.bound.trans hr.2.2⟩
  cases op with
  | addNode n =>
      obtain ⟨r, hadd, rfl⟩ := Option.map_eq_some_iff.mp heq
      refine hflags (.markDirty r n) ?_
      unfold DynamicTreewidth.addNodeInternal at hadd
      split at hadd
      · cases hadd
        exact ⟨h, rfl, rfl⟩
      · rename_i hnew
        have hn : n ∉ t.slots.map Slot.id := DynamicTreewidth.nodeIndex_eq_none.mp (by simpa using hnew)
        split at hadd
        · cases hadd
          refine ⟨⟨?_, fun r hr => ?_⟩, rfl, rfl⟩
          · rw [List.map_append, List.map_singleton, ← List.concat_eq_append]
            exact h.ids.concat hn
          · rcases List.mem_append.mp hr with hr | hr
            · exact h.bounded r hr
            · cases List.mem_singleton.mp hr
              exact Nat.zero_le _
        · cases hadd
  | removeNode n =>
      cases heq
      have hmarked := hflags (.foldl_markDirty (t.neighbors n) t) ⟨h, rfl, rfl⟩
      obtain ⟨hsized, hordering, hbound⟩ := Sized.removeNodeInternal hmarked.1 n
      exact ⟨hsized, hordering.trans hmarked.2.1, hbound.trans hmarked.2.2⟩
  | addEdge u v =>
      rw [TrackerOp.edited] at heq
      split at heq
      · cases heq
      · rename_i hne
        obtain ⟨r, hadd, rfl⟩ := Option.map_eq_some_iff.mp heq
        exact hflags (.markEdge r u v) (h.addEdgeInternal hadd)
  | removeEdge u v =>
      rw [TrackerOp.edited] at heq
      split at heq
      · cases heq
      · cases heq
        have hsized : Sized (t.removeEdgeInternal u v).slots := (h.removeNeighbor u v).removeNeighbor v u
        exact hflags (.markEdge _ u v) ⟨hsized, rfl, rfl⟩
  | fullRecompute => cases heq

end Limit

section Wide

/-- A run in which added edges join nodes that are there. -/
def WideRun (g : EditedGraph) : Prop :=
  ∃ t, TrackerRun (fun t op => op.endsPresent t = true) t g ∧ Follows t.slots g

/-- A run goes on with an edit that hits no assertion. -/
theorem WideRun.edit {t : DynamicTreewidth} {g : EditedGraph} {op : TrackerOp}
    (hrun : TrackerRun (fun t op => op.endsPresent t = true) t g) (hfollows : Follows t.slots g)
    (hends : op.endsPresent t = true) (hedited : ∃ s, op.edited t = some s) : WideRun (g.edit op) := by
  obtain ⟨s, hs⟩ := hedited
  refine ⟨s.maybeUpdate, hrun.edit op hends (TrackerOp.apply_of_edited hs), ?_⟩
  rw [DynamicTreewidth.maybeUpdate_eq, DynamicTreewidth.slots_follow]
  exact (hfollows.edited hends hs).follows

end Wide

end SotFs
