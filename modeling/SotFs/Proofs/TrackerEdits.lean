/-
Module: SotFs.Proofs.TrackerEdits
Layer: Proofs
Purpose: What an edit does to the tracker before the ordering is updated. The lists stay those of the graph
  that the edits describe, as long as added edges join nodes that are there; and a node that is there and
  not flagged was there before, with the edges it has.
Trusted boundary: none
Main exports: Follows, TrackerOp.edited, TrackerOp.endsPresent, Edited, Follows.edited
-/
import SotFs.Spec.EditedGraph
import SotFs.Proofs.TrackerLoads

namespace SotFs

open Foundation

/-! ### Removal from a list -/

/-- The last element in the place of another, and the last place gone: the other is removed. -/
theorem set_dropLast_perm {α : Type*} {l : List α} {j : Nat} {last : α} (hj : j < l.length)
    (hlast : l.getLast? = some last) : (l.set j last).dropLast.Perm (l.eraseIdx j) := by
  obtain ⟨init, rfl⟩ := List.getLast?_eq_some_iff.mp hlast
  rw [List.length_append, List.length_singleton] at hj
  by_cases hin : j < init.length
  · rw [List.set_append_left _ _ hin, List.dropLast_concat, List.eraseIdx_append_of_lt_length hin]
    exact (List.set_perm_cons_eraseIdx hin last).trans (List.perm_append_singleton _ _).symm
  · have hj' : j = init.length := by omega
    subst hj'
    rw [List.set_append_right _ _ le_rfl, List.eraseIdx_append_of_length_le le_rfl, Nat.sub_self]
    simp

/-- One occurrence of the value goes, and the order of the rest may change. -/
theorem swapRemove_perm (l : List Nat) (x : Nat) : (DynamicTreewidth.swapRemove l x).Perm (l.erase x) := by
  unfold DynamicTreewidth.swapRemove
  cases hidx : l.idxOf? x with
  | none =>
      rw [List.erase_of_not_mem (List.idxOf?_eq_none_iff.mp hidx)]
  | some j =>
      obtain ⟨hj, _⟩ := List.idxOf?_eq_some_iff.mp hidx
      cases hlast : l.getLast? with
      | none =>
          rw [List.getLast?_eq_none_iff.mp hlast] at hj
          exact absurd hj (Nat.not_lt_zero j)
      | some last =>
          rw [List.erase_eq_eraseIdx, hidx]
          exact set_dropLast_perm hj hlast

/-! ### Lists after an edit -/

section Lists

variable {slots : List Slot} {E : Nat → Nat → Prop}

/-- The lists of some of the nodes, for a relation that is the same at these. -/
theorem Lists.of_subset {slots' : List Slot} {E' : Nat → Nat → Prop} (h : Lists slots E)
    (hids : (slots'.map Slot.id).Nodup) (hsub : ∀ s ∈ slots', s ∈ slots)
    (heq : ∀ s ∈ slots', ∀ y, E s.id y ↔ E' s.id y) : Lists slots' E' :=
  ⟨hids, fun s hs => h.nodup s (hsub s hs), fun s hs y => (h.mem s (hsub s hs) y).trans (heq s hs y)⟩

theorem map_id_removeNeighbor (slots : List Slot) (u v : Nat) :
    (DynamicTreewidth.removeNeighbor slots u v).map Slot.id = slots.map Slot.id := by
  unfold DynamicTreewidth.removeNeighbor
  rw [List.map_map]
  refine List.map_congr_left fun s _ => ?_
  dsimp only [Function.comp_apply]
  split <;> rfl

/-- One neighbor of one node is taken out. -/
theorem Lists.removeNeighbor (h : Lists slots E) (u v : Nat) :
    Lists (DynamicTreewidth.removeNeighbor slots u v) fun x y => E x y ∧ ¬ (x = u ∧ y = v) := by
  refine ⟨by rw [map_id_removeNeighbor]; exact h.ids, ?_, ?_⟩ <;> intro t ht <;>
    obtain ⟨s, hs, rfl⟩ := List.mem_map.mp ht
  · split
    · exact (swapRemove_perm _ _).nodup_iff.mpr ((h.nodup s hs).erase v)
    · exact h.nodup s hs
  · intro y
    split
    · rename_i hsu
      rw [(swapRemove_perm _ _).mem_iff, (h.nodup s hs).mem_erase_iff, h.mem s hs]
      tauto
    · rename_i hsu
      rw [h.mem s hs]
      tauto

/-- A node is taken out of the lists of others. -/
theorem Lists.foldl_removeNeighbor (id : Nat) (nbrs : List Nat) : ∀ {slots : List Slot}
    {E : Nat → Nat → Prop}, Lists slots E →
    (nbrs.foldl (fun slots n => DynamicTreewidth.removeNeighbor slots n id) slots).map Slot.id =
        slots.map Slot.id ∧
      Lists (nbrs.foldl (fun slots n => DynamicTreewidth.removeNeighbor slots n id) slots)
        fun x y => E x y ∧ ¬ (x ∈ nbrs ∧ y = id) := by
  induction nbrs with
  | nil => exact fun h => ⟨rfl, h.congr fun x y => by simp⟩
  | cons n nbrs ih =>
      intro slots E h
      obtain ⟨hids, hlists⟩ := ih (h.removeNeighbor n id)
      rw [List.foldl_cons]
      refine ⟨hids.trans (map_id_removeNeighbor slots n id), hlists.congr fun x y => ?_⟩
      rw [List.mem_cons]
      tauto

end Lists

namespace DynamicTreewidth

variable {t : DynamicTreewidth} {G : SimpleGraph Nat}

/-! ### Positions and flags -/

theorem nodeIndex_eq (id : Nat) : t.nodeIndex id = (t.slots.map Slot.id).idxOf? id := by
  rw [nodeIndex, List.idxOf?, List.findIdx?_map]
  rfl

theorem nodeIndex_eq_some (hids : (t.slots.map Slot.id).Nodup) {id i : Nat} :
    t.nodeIndex id = some i ↔ (t.slots.map Slot.id)[i]? = some id := by
  rw [nodeIndex_eq]
  exact idxOf?_eq_some hids

theorem contains_iff {id : Nat} : t.contains id = true ↔ id ∈ t.slots.map Slot.id := by
  rw [contains, Option.isSome_iff_ne_none, ne_eq, nodeIndex_eq_none, not_not]

theorem isDirty_iff (hids : (t.slots.map Slot.id).Nodup) {id : Nat} :
    t.isDirty id = true ↔ ∃ i, (t.slots.map Slot.id)[i]? = some id ∧ t.dirty i = true := by
  rw [isDirty, Option.any_eq_true]
  simp only [nodeIndex_eq_some hids]

/-- Nothing but flags is set. -/
def OnlyFlags (t s : DynamicTreewidth) : Prop :=
  ∃ dirty, s = { t with dirty := dirty } ∧ ∀ i, t.dirty i = true → dirty i = true

namespace OnlyFlags

variable {s r : DynamicTreewidth}

theorem refl (t : DynamicTreewidth) : OnlyFlags t t := ⟨t.dirty, rfl, fun _ hi => hi⟩

theorem trans (h : OnlyFlags t s) (h' : OnlyFlags s r) : OnlyFlags t r := by
  obtain ⟨dirty, rfl, hmono⟩ := h
  obtain ⟨dirty', rfl, hmono'⟩ := h'
  exact ⟨dirty', rfl, fun i hi => hmono' i (hmono i hi)⟩

theorem slots (h : OnlyFlags t s) : s.slots = t.slots := by
  obtain ⟨dirty, rfl, _⟩ := h
  rfl

theorem ordering (h : OnlyFlags t s) : s.ordering = t.ordering := by
  obtain ⟨dirty, rfl, _⟩ := h
  rfl

theorem bound (h : OnlyFlags t s) : s.bound = t.bound := by
  obtain ⟨dirty, rfl, _⟩ := h
  rfl

theorem isDirty (h : OnlyFlags t s) {x : Nat} (hx : t.isDirty x = true) : s.isDirty x = true := by
  obtain ⟨dirty, rfl, hmono⟩ := h
  obtain ⟨i, hi, hdirty⟩ := (Option.any_eq_true _ _).mp hx
  exact (Option.any_eq_true _ _).mpr ⟨i, hi, hmono i hdirty⟩

theorem markDirty (t : DynamicTreewidth) (a : Nat) : OnlyFlags t (t.markDirty a) := by
  unfold DynamicTreewidth.markDirty
  split
  · refine ⟨_, rfl, fun i hi => ?_⟩
    rw [Function.update_apply]
    split
    · rfl
    · exact hi
  · exact .refl t

theorem foldl_markDirty (ids : List Nat) : ∀ t : DynamicTreewidth,
    OnlyFlags t (ids.foldl DynamicTreewidth.markDirty t) := by
  induction ids with
  | nil => exact .refl
  | cons a ids ih => exact fun t => (markDirty t a).trans (ih _)

theorem markEdge (t : DynamicTreewidth) (u v : Nat) : OnlyFlags t (t.markEdge u v) :=
  (((markDirty t u).trans (markDirty _ v)).trans (foldl_markDirty _ _)).trans (foldl_markDirty _ _)

end OnlyFlags

/-- A node that is there is flagged. -/
theorem isDirty_markDirty {a : Nat} (ha : a ∈ t.slots.map Slot.id) : (t.markDirty a).isDirty a = true := by
  cases hidx : t.nodeIndex a with
  | none => exact absurd ha (nodeIndex_eq_none.mp hidx)
  | some i =>
      rw [markDirty, hidx]
      exact (Option.any_eq_true _ _).mpr ⟨i, hidx, Function.update_self i true t.dirty⟩

/-- The nodes of a list that are there are flagged. -/
theorem isDirty_foldl_markDirty {a : Nat} (ids : List Nat) : ∀ {t : DynamicTreewidth},
    a ∈ t.slots.map Slot.id → a ∈ ids → (ids.foldl markDirty t).isDirty a = true := by
  induction ids with
  | nil => exact fun _ ha => absurd ha List.not_mem_nil
  | cons b ids ih =>
      intro t ha hmem
      rw [List.foldl_cons]
      rcases List.mem_cons.mp hmem with rfl | hmem
      · exact (OnlyFlags.foldl_markDirty ids _).isDirty (isDirty_markDirty ha)
      · exact ih ((OnlyFlags.markDirty t b).slots.symm ▸ ha) hmem

/-- The ends of an edge are flagged. -/
theorem isDirty_markEdge {u v : Nat} {a : Nat} (ha : a ∈ t.slots.map Slot.id) (hend : a = u ∨ a = v) :
    (t.markEdge u v).isDirty a = true := by
  refine ((OnlyFlags.foldl_markDirty _ _).trans (OnlyFlags.foldl_markDirty _ _)).isDirty ?_
  rcases hend with rfl | rfl
  · exact (OnlyFlags.markDirty _ v).isDirty (isDirty_markDirty ha)
  · exact isDirty_markDirty ((OnlyFlags.markDirty t u).slots.symm ▸ ha)

/-- The neighbors of a node, from its list. -/
theorem mem_neighbors {E : Nat → Nat → Prop} (h : Lists t.slots E) {n : Nat} (hn : n ∈ t.slots.map Slot.id)
    {y : Nat} : y ∈ t.neighbors n ↔ E n y := by
  unfold neighbors
  cases hfind : t.slots.find? fun slot => slot.id == n with
  | none =>
      obtain ⟨s, hs, rfl⟩ := List.mem_map.mp hn
      exact absurd (List.find?_eq_none.mp hfind s hs) (by simp)
  | some s =>
      obtain rfl : s.id = n := by simpa using List.find?_some hfind
      exact h.mem s (List.mem_of_find?_eq_some hfind) y

/-! ### Removal of a node -/

/-- A node that is not there is not removed. -/
theorem removeNodeInternal_absent {n : Nat} (hn : n ∉ t.slots.map Slot.id) : t.removeNodeInternal n = t := by
  have hidx := nodeIndex_eq_none.mpr hn
  rw [nodeIndex] at hidx
  rw [removeNodeInternal, hidx]

/-- The last node gets the position of the removed one, with its flag; the lists no longer name the removed
    node. -/
theorem removeNodeInternal_spec (h : Lists t.slots G.Adj) {n : Nat} (hn : n ∈ t.slots.map Slot.id) :
    ∃ idx last slots dirty, (t.slots.map Slot.id)[idx]? = some n ∧ slots.getLast? = some last ∧
      slots.map Slot.id = t.slots.map Slot.id ∧ Lists slots (fun x y => G.Adj x y ∧ y ≠ n) ∧
      dirty = (if idx < slots.length - 1 then Function.update t.dirty idx (t.dirty (slots.length - 1))
        else t.dirty) ∧
      t.removeNodeInternal n = { t with slots := (slots.set idx last).dropLast, dirty := dirty } := by
  cases hidx : t.nodeIndex n with
  | none => exact absurd hn (nodeIndex_eq_none.mp hidx)
  | some idx =>
      have hat := (nodeIndex_eq_some h.ids).mp hidx
      rw [List.getElem?_map, Option.map_eq_some_iff] at hat
      obtain ⟨s, hs, rfl⟩ := hat
      obtain ⟨slots, hslots⟩ : ∃ slots, slots = s.adj.foldl (fun slots y => removeNeighbor slots y s.id) t.slots :=
        ⟨_, rfl⟩
      obtain ⟨hids, hlists⟩ := h.foldl_removeNeighbor s.id s.adj
      rw [← hslots] at hids hlists
      have hlen : slots.length = t.slots.length := by
        rw [← List.length_map Slot.id, hids, List.length_map]
      cases hlast : slots.getLast? with
      | none =>
          have hnil : slots.length = 0 := List.length_eq_zero_iff.mpr (List.getLast?_eq_none_iff.mp hlast)
          have hlt := (List.getElem?_eq_some_iff.mp hs).1
          omega
      | some last =>
          refine ⟨idx, last, slots, _, ?_, hlast, hids, hlists.congr fun x y => ?_, rfl, ?_⟩
          · rw [List.getElem?_map, hs, Option.map_some]
          · rw [h.mem s (List.mem_of_getElem? hs)]
            refine and_congr_right fun hxy => ⟨fun hnot heq => ?_, fun hne hboth => hne hboth.2⟩
            subst heq
            exact hnot ⟨hxy.symm, rfl⟩
          · rw [nodeIndex] at hidx
            rw [removeNodeInternal, hidx]
            dsimp only
            rw [hs, Option.map_some, Option.getD_some, ← hslots, hlast]

/-- The nodes after a removal, their lists and their flags. -/
theorem removeNodeInternal_lists (h : Lists t.slots G.Adj) {n : Nat} (hn : n ∈ t.slots.map Slot.id) :
    ((t.removeNodeInternal n).slots.map Slot.id).Perm ((t.slots.map Slot.id).erase n) ∧
      Lists (t.removeNodeInternal n).slots (fun x y => G.Adj x y ∧ x ≠ n ∧ y ≠ n) ∧
      (t.removeNodeInternal n).bound = t.bound ∧ (t.removeNodeInternal n).ordering = t.ordering ∧
      ∀ x ≠ n, t.isDirty x = true → (t.removeNodeInternal n).isDirty x = true := by
  obtain ⟨idx, last, slots, dirty, hat, hlast, hids, hlists, hdirty, heq⟩ := removeNodeInternal_spec h hn
  have hold := h.ids
  obtain ⟨ids, hids'⟩ : ∃ ids, t.slots.map Slot.id = ids := ⟨_, rfl⟩
  rw [hids'] at hold hat hids ⊢
  have hlength : slots.length = ids.length := by rw [← hids, List.length_map]
  have hidx : idx < ids.length := (List.getElem?_eq_some_iff.mp hat).1
  have hlastId : ids.getLast? = some last.id := by rw [← hids, List.getLast?_map, hlast, Option.map_some]
  have hmap : (slots.set idx last).dropLast.map Slot.id = (ids.set idx last.id).dropLast := by
    rw [List.map_dropLast, List.map_set, hids]
  have hpermIds : ((slots.set idx last).dropLast.map Slot.id).Perm (ids.erase n) := by
    rw [hmap, List.erase_eq_eraseIdx, (idxOf?_eq_some hold).mpr hat]
    exact set_dropLast_perm hidx hlastId
  have hnodup := hpermIds.nodup_iff.mpr (hold.erase n)
  rw [heq]
  refine ⟨hpermIds, hlists.of_subset hnodup ?_ ?_, rfl, rfl, ?_⟩
  · exact fun s hs => List.mem_of_mem_eraseIdx
      ((set_dropLast_perm (hlength ▸ hidx) hlast).mem_iff.mp hs)
  · intro s hs y
    have hne : s.id ≠ n :=
      (hold.mem_erase_iff.mp (hpermIds.mem_iff.mp (List.mem_map_of_mem hs))).1
    tauto
  · intro x hne hx
    obtain ⟨i, hi, hflag⟩ := (isDirty_iff h.ids).mp hx
    rw [hids'] at hi
    have hi' := (List.getElem?_eq_some_iff.mp hi).1
    have hmoved : i ≠ idx := by
      rintro rfl
      exact hne (Option.some.inj (hi.symm.trans hat))
    refine (isDirty_iff hnodup).mpr ?_
    dsimp only
    rw [hmap, hdirty, hlength]
    by_cases hend : i = ids.length - 1
    · -- the node stood last and has moved
      rw [List.getLast?_eq_getElem?, ← hend, hi] at hlastId
      have hlt : idx < ids.length - 1 := by omega
      refine ⟨idx, ?_, ?_⟩
      · rw [List.getElem?_dropLast, List.length_set, if_pos hlt, List.getElem?_set_self hidx, hlastId]
      · rw [if_pos hlt, Function.update_self, ← hend]
        exact hflag
    · have hlt : i < ids.length - 1 := by omega
      refine ⟨i, ?_, ?_⟩
      · rw [List.getElem?_dropLast, List.length_set, if_pos hlt, List.getElem?_set_ne hmoved.symm, hi]
      · split
        · rwa [Function.update_of_ne hmoved]
        · exact hflag

end DynamicTreewidth

/-! ### Edits -/

/-- The nodes are those that the edits have left, and so are the lists; edges join nodes that are there. -/
structure Follows (slots : List Slot) (g : EditedGraph) : Prop where
  nodes : ∀ x, x ∈ slots.map Slot.id ↔ x ∈ g.nodes
  lists : Lists slots g.graph.Adj
  ends : ∀ x y, g.graph.Adj x y → x ∈ g.nodes

theorem EditedGraph.ofTypeGraph_adj {g : TypeGraph} {x y : Nat} :
    (EditedGraph.ofTypeGraph g).graph.Adj x y ↔ g.skeletonGraph.Adj x y := by
  have hmem : ∀ {x y}, (x, y) ∈ (EditedGraph.ofTypeGraph g).edges ↔ ∃ edge ∈ g.edges.iter.map Prod.snd,
      g.skeletonNodes.idxOf? edge.srcNode = some x ∧ g.skeletonNodes.idxOf? edge.tgtNode = some y := by
    intro x y
    unfold EditedGraph.ofTypeGraph
    simp only [List.mem_toFinset, List.mem_filterMap, Option.bind_eq_some_iff, Option.map_eq_some_iff,
      Prod.mk.injEq]
    grind
  rw [TypeGraph.skeletonGraph_adj]
  simp only [TypeGraph.joinsUids_iff g.skeletonNodes_nodup]
  change x ≠ y ∧ ((x, y) ∈ _ ∨ (y, x) ∈ _) ↔ _
  rw [hmem, hmem]
  grind

/-- A tracker of a type graph has its lists. -/
theorem Follows.load {t : DynamicTreewidth} {g : TypeGraph}
    (heq : DynamicTreewidth.new.loadTypeGraph g = some t) : Follows t.slots (.ofTypeGraph g) := by
  obtain ⟨hids, hlists⟩ := TypeGraph.load_spec heq
  refine ⟨fun x => ?_, hlists.congr fun x y => EditedGraph.ofTypeGraph_adj.symm, fun x y hxy => ?_⟩
  · rw [hids, EditedGraph.ofTypeGraph, List.mem_range, Finset.mem_range]
  · obtain ⟨_, n, _, hn, _⟩ := EditedGraph.ofTypeGraph_adj.mp hxy
    exact Finset.mem_range.mpr (List.getElem?_eq_some_iff.mp hn).1

namespace TrackerOp

open DynamicTreewidth

/-- What an edit hands to the update: the lists changed and the flags set. An edge from a node to itself is
    no edit, and a recomputation is none. -/
def edited (t : DynamicTreewidth) : TrackerOp → Option DynamicTreewidth
  | .addNode n => (t.addNodeInternal n).map fun t => t.markDirty n
  | .removeNode n => some ((t.markNeighborsDirty n).removeNodeInternal n)
  | .addEdge u v => if u = v then none else (t.addEdgeInternal u v).map fun t => t.markEdge u v
  | .removeEdge u v => if u = v then none else some ((t.removeEdgeInternal u v).markEdge u v)
  | .fullRecompute => none

/-- An added edge joins nodes that are there. -/
def endsPresent (t : DynamicTreewidth) : TrackerOp → Bool
  | .addEdge u v => u == v || (t.contains u && t.contains v)
  | _ => true

/-- An edit ends with the update, unless it is none. -/
theorem apply_cases {t t' : DynamicTreewidth} {op : TrackerOp} (heq : op.apply t = some t') :
    (∃ s, op.edited t = some s ∧ t' = s.maybeUpdate) ∨
      (t' = t ∧ ∃ u, op = .addEdge u u ∨ op = .removeEdge u u) ∨
      (op = .fullRecompute ∧ t' = t.fullRecompute) := by
  cases op with
  | addNode n =>
      obtain ⟨s, hs, rfl⟩ := Option.map_eq_some_iff.mp heq
      exact .inl ⟨_, Option.map_eq_some_iff.mpr ⟨s, hs, rfl⟩, rfl⟩
  | removeNode n =>
      cases heq
      exact .inl ⟨_, rfl, rfl⟩
  | addEdge u v =>
      rw [apply, onAddEdge] at heq
      rw [edited]
      split at heq
      · rename_i huv
        cases heq
        subst huv
        exact .inr (.inl ⟨rfl, u, .inl rfl⟩)
      · rename_i huv
        obtain ⟨s, hs, rfl⟩ := Option.map_eq_some_iff.mp heq
        rw [if_neg huv]
        exact .inl ⟨_, Option.map_eq_some_iff.mpr ⟨s, hs, rfl⟩, rfl⟩
  | removeEdge u v =>
      rw [apply, onRemoveEdge] at heq
      rw [edited]
      cases heq
      split
      · rename_i huv
        subst huv
        exact .inr (.inl ⟨rfl, u, .inr rfl⟩)
      · exact .inl ⟨_, rfl, rfl⟩
  | fullRecompute =>
      cases heq
      exact .inr (.inr ⟨rfl, rfl⟩)

/-- The update follows the edit. -/
theorem apply_of_edited {t s : DynamicTreewidth} {op : TrackerOp} (heq : op.edited t = some s) :
    op.apply t = some s.maybeUpdate := by
  cases op with
  | addNode n =>
      obtain ⟨t₁, hadd, rfl⟩ := Option.map_eq_some_iff.mp heq
      exact Option.map_eq_some_iff.mpr ⟨t₁, hadd, rfl⟩
  | removeNode n =>
      cases heq
      rfl
  | addEdge u v =>
      rw [edited] at heq
      rw [apply, onAddEdge]
      split at heq
      · cases heq
      · rename_i hne
        obtain ⟨t₁, hadd, rfl⟩ := Option.map_eq_some_iff.mp heq
        rw [if_neg hne]
        exact Option.map_eq_some_iff.mpr ⟨t₁, hadd, rfl⟩
  | removeEdge u v =>
      rw [edited] at heq
      rw [apply, onRemoveEdge]
      split at heq
      · cases heq
      · rename_i hne
        cases heq
        rw [if_neg hne]
  | fullRecompute => cases heq

end TrackerOp

/-- What the update is told of an edit: the graph as it is now, and by the flags where it has changed. -/
structure Edited (t s : DynamicTreewidth) (g h : EditedGraph) : Prop where
  follows : Follows s.slots h
  ordering : s.ordering = t.ordering
  bound : s.bound = t.bound
  /-- A node that is not flagged was there before, with its edges. -/
  same : ∀ x ∈ h.nodes, s.isDirty x = false → x ∈ g.nodes ∧ ∀ y, h.graph.Adj x y ↔ g.graph.Adj x y
  /-- The neighbors of a node that is gone are flagged. -/
  gone : ∀ x ∈ g.nodes, x ∉ h.nodes → ∀ y, g.graph.Adj x y → s.isDirty y = true

namespace Follows

open DynamicTreewidth

variable {t s : DynamicTreewidth} {g : EditedGraph}

/-- An edge from a node to itself changes nothing. -/
theorem edit_loop {slots : List Slot} (h : Follows slots g) {u : Nat} {op : TrackerOp}
    (hop : op = .addEdge u u ∨ op = .removeEdge u u) :
    Follows slots (g.edit op) ∧ (g.edit op).graph = g.graph := by
  have hgraph : (g.edit op).graph = g.graph := by
    ext x y
    rcases hop with rfl | rfl
    · exact EditedGraph.adj_addLoop
    · rw [EditedGraph.adj_removeEdge]
      refine ⟨And.left, fun hxy => ⟨hxy, ?_⟩⟩
      have hne := hxy.ne
      grind
  have hnodes : (g.edit op).nodes = g.nodes := by rcases hop with rfl | rfl <;> rfl
  refine ⟨⟨?_, hgraph ▸ h.lists, ?_⟩, hgraph⟩
  · rw [hnodes]
    exact h.nodes
  · rw [hgraph, hnodes]
    exact h.ends

/-- A new node has no edges. -/
theorem edited_addNode (h : Follows t.slots g) {n : Nat} (heq : (TrackerOp.addNode n).edited t = some s) :
    Edited t s g (g.edit (.addNode n)) := by
  obtain ⟨t₁, hadd, rfl⟩ := Option.map_eq_some_iff.mp heq
  have hflags := OnlyFlags.markDirty t₁ n
  obtain ⟨hfollows, hordering, hbound⟩ : Follows t₁.slots (g.edit (.addNode n)) ∧ t₁.ordering = t.ordering ∧
      t₁.bound = t.bound := by
    unfold addNodeInternal at hadd
    split at hadd
    · rename_i hold
      cases hadd
      have hn : n ∈ g.nodes := (h.nodes n).mp (contains_iff.mp hold)
      refine ⟨⟨fun x => ?_, h.lists, fun x y hxy => Finset.mem_insert_of_mem (h.ends x y hxy)⟩, rfl, rfl⟩
      rw [h.nodes, EditedGraph.edit, Finset.insert_eq_of_mem hn]
    · rename_i hnew
      have hn : n ∉ t.slots.map Slot.id := nodeIndex_eq_none.mp (by simpa using hnew)
      split at hadd
      · cases hadd
        refine ⟨⟨fun x => ?_, ⟨?_, ?_, ?_⟩, fun x y hxy => Finset.mem_insert_of_mem (h.ends x y hxy)⟩,
          rfl, rfl⟩
        · rw [List.map_append, List.mem_append, h.nodes, EditedGraph.edit, Finset.mem_insert, or_comm]
          simp
        · rw [List.map_append, List.map_singleton, ← List.concat_eq_append]
          exact h.lists.ids.concat hn
        · intro r hr
          rcases List.mem_append.mp hr with hr | hr
          · exact h.lists.nodup r hr
          · cases List.mem_singleton.mp hr
            exact List.nodup_nil
        · intro r hr y
          rcases List.mem_append.mp hr with hr | hr
          · exact h.lists.mem r hr y
          · cases List.mem_singleton.mp hr
            exact iff_of_false List.not_mem_nil fun hny => hn ((h.nodes n).mpr (h.ends n y hny))
      · cases hadd
  refine ⟨hflags.slots.symm ▸ hfollows, hflags.ordering.trans hordering, hflags.bound.trans hbound,
    fun x hx hclean => ⟨?_, fun y => Iff.rfl⟩, fun x hx hgone => absurd (Finset.mem_insert_of_mem hx) hgone⟩
  refine (Finset.mem_insert.mp hx).resolve_left fun heq => ?_
  subst heq
  rw [isDirty_markDirty ((hfollows.nodes x).mpr hx)] at hclean
  cases hclean

/-- The neighbors of a removed node are flagged. -/
theorem edited_removeNode (h : Follows t.slots g) {n : Nat}
    (heq : (TrackerOp.removeNode n).edited t = some s) : Edited t s g (g.edit (.removeNode n)) := by
  cases heq
  have hflags := OnlyFlags.foldl_markDirty (t.neighbors n) t
  have hslots := hflags.slots
  by_cases hn : n ∈ t.slots.map Slot.id
  · have hlists : Lists (t.markNeighborsDirty n).slots g.graph.Adj := hslots.symm ▸ h.lists
    obtain ⟨hperm, hafter, hbound, hordering, hkept⟩ := removeNodeInternal_lists hlists (n := n)
      (hslots.symm ▸ hn)
    have hdirty : ∀ y, g.graph.Adj n y → ((t.markNeighborsDirty n).removeNodeInternal n).isDirty y = true :=
      fun y hny => hkept y hny.ne' (isDirty_foldl_markDirty _ ((h.nodes y).mpr (h.ends y n hny.symm))
        ((mem_neighbors h.lists hn).mpr hny))
    refine ⟨⟨fun x => ?_, hafter.congr fun x y => EditedGraph.adj_removeNode.symm, fun x y hxy => ?_⟩,
      hordering.trans hflags.ordering, hbound.trans hflags.bound, fun x hx hclean => ?_,
      fun x hx hgone y hxy => ?_⟩
    · rw [hperm.mem_iff, hlists.ids.mem_erase_iff, EditedGraph.edit, Finset.mem_erase, ← h.nodes]
      exact and_congr_right fun _ => by rw [markNeighborsDirty, hslots]
    · obtain ⟨hxy, hx, _⟩ := EditedGraph.adj_removeNode.mp hxy
      exact Finset.mem_erase.mpr ⟨hx, h.ends x y hxy⟩
    · obtain ⟨hne, hx⟩ := Finset.mem_erase.mp hx
      refine ⟨hx, fun y => EditedGraph.adj_removeNode.trans ⟨And.left, fun hxy => ⟨hxy, hne, ?_⟩⟩⟩
      rintro rfl
      rw [hdirty x hxy.symm] at hclean
      cases hclean
    · obtain rfl : x = n := by_contra fun hne => hgone (Finset.mem_erase.mpr ⟨hne, hx⟩)
      exact hdirty y hxy
  · have hnodes : n ∉ g.nodes := (h.nodes n).not.mp hn
    have hsame : ∀ x y, (g.edit (.removeNode n)).graph.Adj x y ↔ g.graph.Adj x y := by
      refine fun x y => EditedGraph.adj_removeNode.trans ⟨And.left, fun hxy => ⟨hxy, ?_, ?_⟩⟩
      · rintro rfl
        exact hnodes (h.ends x y hxy)
      · rintro rfl
        exact hnodes (h.ends y x hxy.symm)
    have hset : (g.edit (.removeNode n)).nodes = g.nodes := Finset.erase_eq_of_notMem hnodes
    rw [removeNodeInternal_absent (hslots.symm ▸ hn)]
    refine ⟨⟨fun x => ?_, ?_, fun x y hxy => ?_⟩, hflags.ordering, hflags.bound,
      fun x hx _ => ⟨hset ▸ hx, hsame x⟩, fun x hx hgone => absurd (hset.symm ▸ hx) hgone⟩
    · rw [markNeighborsDirty, hslots, hset]
      exact h.nodes x
    · rw [markNeighborsDirty, hslots]
      exact h.lists.congr fun x y => (hsame x y).symm
    · rw [hset]
      exact h.ends x y ((hsame x y).mp hxy)

/-- After a change to the edge between two nodes, with both flagged. -/
theorem edited_edge {u v : Nat} {t₁ : DynamicTreewidth} {h : EditedGraph} (hlists : Follows t₁.slots h)
    (hordering : t₁.ordering = t.ordering) (hbound : t₁.bound = t.bound) (hnodes : h.nodes = g.nodes)
    (hsame : ∀ x y, x ≠ u → x ≠ v → (h.graph.Adj x y ↔ g.graph.Adj x y)) :
    Edited t (t₁.markEdge u v) g h := by
  have hflags := OnlyFlags.markEdge t₁ u v
  refine ⟨hflags.slots.symm ▸ hlists, hflags.ordering.trans hordering, hflags.bound.trans hbound,
    fun x hx hclean => ⟨hnodes ▸ hx, fun y => ?_⟩, fun x hx hgone => absurd (hnodes.symm ▸ hx) hgone⟩
  have hend : ¬ (x = u ∨ x = v) := fun hend => by
    rw [isDirty_markEdge ((hlists.nodes x).mpr hx) hend] at hclean
    cases hclean
  exact hsame x y (fun hu => hend (.inl hu)) fun hv => hend (.inr hv)

theorem edited_addEdge (h : Follows t.slots g) {u v : Nat} (hends : (TrackerOp.addEdge u v).endsPresent t = true)
    (heq : (TrackerOp.addEdge u v).edited t = some s) : Edited t s g (g.edit (.addEdge u v)) := by
  rw [TrackerOp.edited] at heq
  split at heq
  · cases heq
  · rename_i hne
    obtain ⟨t₁, hadd, rfl⟩ := Option.map_eq_some_iff.mp heq
    rw [TrackerOp.endsPresent, beq_eq_false_iff_ne.mpr hne, Bool.false_or, Bool.and_eq_true] at hends
    obtain ⟨hu, hv⟩ := hends
    obtain ⟨slots, rfl, hids, hlists⟩ := addEdgeInternal_spec h.lists hne (contains_iff.mp hu)
      (contains_iff.mp hv) hadd
    refine edited_edge ⟨fun x => ?_, hlists.congr fun x y => (EditedGraph.adj_addEdge hne).symm,
      fun x y hxy => ?_⟩ rfl rfl rfl fun x y hxu hxv => (EditedGraph.adj_addEdge hne).trans ?_
    · rw [hids]
      exact h.nodes x
    · rcases (EditedGraph.adj_addEdge hne).mp hxy with hxy | ⟨rfl, _⟩ | ⟨rfl, _⟩
      · exact h.ends x y hxy
      · exact (h.nodes x).mp (contains_iff.mp hu)
      · exact (h.nodes x).mp (contains_iff.mp hv)
    · tauto

theorem edited_removeEdge (h : Follows t.slots g) {u v : Nat}
    (heq : (TrackerOp.removeEdge u v).edited t = some s) : Edited t s g (g.edit (.removeEdge u v)) := by
  rw [TrackerOp.edited] at heq
  split at heq
  · cases heq
  · cases heq
    have hlists := (h.lists.removeNeighbor u v).removeNeighbor v u
    refine edited_edge ⟨fun x => ?_, hlists.congr fun x y => ?_, fun x y hxy => ?_⟩ rfl rfl rfl
      fun x y hxu hxv => EditedGraph.adj_removeEdge.trans ?_
    · rw [removeEdgeInternal, map_id_removeNeighbor, map_id_removeNeighbor]
      exact h.nodes x
    · rw [EditedGraph.adj_removeEdge, and_assoc]
    · exact h.ends x y (EditedGraph.adj_removeEdge.mp hxy).1
    · tauto

/-- The flags show what an edit has changed. -/
theorem edited (h : Follows t.slots g) {op : TrackerOp} (hends : op.endsPresent t = true)
    (heq : op.edited t = some s) : Edited t s g (g.edit op) := by
  cases op with
  | addNode n => exact h.edited_addNode heq
  | removeNode n => exact h.edited_removeNode heq
  | addEdge u v => exact h.edited_addEdge hends heq
  | removeEdge u v => exact h.edited_removeEdge heq
  | fullRecompute => cases heq

end Follows

end SotFs
