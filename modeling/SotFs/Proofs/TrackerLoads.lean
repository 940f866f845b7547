/-
Module: SotFs.Proofs.TrackerLoads
Layer: Proofs
Purpose: The tracker against compute_treewidth. Loading a skeleton within the limits fails no assertion and
  leaves the lists of the skeleton; elimination on the lists then takes the nodes of compute_treewidth one by
  one and meets its degrees, as long as the lists have room for all fill edges. Where they do not, fill edges
  are dropped and the tracker's number is smaller: it never exceeds the length of a list.
Trusted boundary: none
Main exports: TypeGraph.FitsTracker, TypeGraph.FillFits, TypeGraph.exists_load, eliminateMin_greedy,
  fromTypeGraph_bound
-/
import SotFs.Proofs.TrackerWork
import SotFs.Proofs.WidthOrders

namespace SotFs

open Std (ExtTreeMap ExtTreeSet)
open Foundation

/-- The skeleton is within the limits that the tracker asserts. -/
def TypeGraph.FitsTracker (g : TypeGraph) : Prop :=
  g.skeletonNodes.length ≤ MAX_NODES ∧ Narrow g.skeletonGraph.Adj

/-- The lists of the tracker have room for the fill edges too: in the graph that the elimination of minimal
    degree leaves, all edges and the eliminated nodes kept, each node is within the limit. -/
def TypeGraph.FillFits (g : TypeGraph) : Prop :=
  let n := g.skeletonNodes.length
  Narrow (filledAlong g.skeletonGraph (greedyOrder n g.skeleton (List.range n))).Adj

/-! ### Loading -/

section Load

variable {t : DynamicTreewidth} {E F : Nat → Nat → Prop}

namespace DynamicTreewidth

theorem nodeIndex_eq_none {id : Nat} : t.nodeIndex id = none ↔ id ∉ t.slots.map Slot.id := by
  unfold nodeIndex
  rw [List.findIdx?_eq_none_iff, List.mem_map]
  constructor
  · rintro hall ⟨s, hs, rfl⟩
    simpa using hall s hs
  · intro hnot s hs
    simpa using fun heq => hnot ⟨s, hs, heq⟩

/-- New nodes are appended as long as there is room. -/
theorem foldlM_addNodeInternal (ids : List Nat) : ∀ {t : DynamicTreewidth}, ids.Nodup →
    (∀ id ∈ ids, id ∉ t.slots.map Slot.id) → t.slots.length ≤ MAX_NODES →
    ids.foldlM addNodeInternal t = if t.slots.length + ids.length ≤ MAX_NODES then
      some { t with slots := t.slots ++ ids.map fun id => ⟨id, []⟩ } else none := by
  induction ids with
  | nil =>
      intro t _ _ hroom
      rw [List.map_nil, List.append_nil, List.length_nil, Nat.add_zero, if_pos hroom]
      rfl
  | cons id ids ih =>
      intro t hnodup hnew hroom
      obtain ⟨hid, hnodup⟩ := List.nodup_cons.mp hnodup
      have hadd : t.addNodeInternal id =
          if t.slots.length < MAX_NODES then some { t with slots := t.slots ++ [⟨id, []⟩] } else none := by
        unfold addNodeInternal
        rw [nodeIndex_eq_none.mpr (hnew id List.mem_cons_self), if_neg (by simp)]
      rw [List.foldlM_cons, hadd, List.length_cons]
      by_cases hlt : t.slots.length < MAX_NODES
      · rw [if_pos hlt]
        refine (ih hnodup (fun x hx => ?_) ?_).trans ?_
        · rw [List.map_append, List.mem_append, not_or]
          refine ⟨hnew x (List.mem_cons_of_mem id hx), ?_⟩
          rintro hmem
          cases List.mem_singleton.mp hmem
          exact hid hx
        · rw [List.length_append, List.length_singleton]
          exact hlt
        · rw [List.length_append, List.length_singleton, List.append_assoc, Nat.add_assoc, Nat.add_comm 1]
          rfl
      · rw [if_neg hlt, if_neg (by omega)]
        rfl

/-- A neighbor is recorded, unless the list that lacks it is full. -/
theorem addNeighbor_spec (h : Lists t.slots E) {u : Nat} (hu : u ∈ t.slots.map Slot.id) (v : Nat) :
    (t.addNeighbor u v = none ∧ ¬ E u v ∧ ∃ s ∈ t.slots, s.id = u ∧ MAX_DEGREE ≤ s.adj.length) ∨
    ∃ slots, t.addNeighbor u v = some { t with slots := slots } ∧ slots.map Slot.id = t.slots.map Slot.id ∧
      Lists slots fun x y => E x y ∨ (x = u ∧ y = v) := by
  obtain ⟨s, hs, hid⟩ := List.mem_map.mp hu
  obtain ⟨s', hfind⟩ : ∃ s', t.slots.find? (fun slot => slot.id == u) = some s' := by
    rw [← Option.isSome_iff_exists, List.find?_isSome]
    exact ⟨s, hs, by simpa using hid⟩
  have hs' := List.mem_of_find?_eq_some hfind
  have hid' : s'.id = u := by simpa using List.find?_some hfind
  unfold addNeighbor
  rw [hfind]
  dsimp only
  by_cases hold : v ∈ s'.adj
  · rw [if_pos (by simpa using hold)]
    refine .inr ⟨t.slots, rfl, rfl, h.congr fun x y => ⟨.inl, ?_⟩⟩
    rintro (hxy | ⟨rfl, rfl⟩)
    · exact hxy
    · exact hid' ▸ (h.mem s' hs' y).mp hold
  · rw [if_neg (by simpa using hold)]
    have hnew : ¬ E u v := fun huv => hold ((h.mem s' hs' v).mpr (hid'.symm ▸ huv))
    by_cases hroom : s'.adj.length < MAX_DEGREE
    · rw [if_pos hroom]
      have hids : (t.slots.map fun s => if s.id = u then { s with adj := s.adj ++ [v] } else s).map Slot.id =
          t.slots.map Slot.id := by
        rw [List.map_map]
        refine List.map_congr_left fun r _ => ?_
        dsimp only [Function.comp_apply]
        split <;> rfl
      refine .inr ⟨_, rfl, hids, hids.symm ▸ h.ids, ?_, ?_⟩
      · intro r' hr'
        obtain ⟨r, hr, rfl⟩ := List.mem_map.mp hr'
        split
        · rename_i hru
          subst hru
          rw [← List.concat_eq_append]
          exact (h.nodup r hr).concat fun hin => hnew ((h.mem r hr v).mp hin)
        · exact h.nodup r hr
      · intro r' hr' y
        obtain ⟨r, hr, rfl⟩ := List.mem_map.mp hr'
        split
        · rename_i hru
          subst hru
          rw [List.mem_append, List.mem_singleton, h.mem r hr y]
          simp
        · rename_i hru
          rw [h.mem r hr y]
          simp [hru]
    · rw [if_neg hroom]
      exact .inl ⟨rfl, hnew, s', hs', hid', not_lt.mp hroom⟩

/-- A neighbor is recorded, if its list is to have room. -/
theorem exists_addNeighbor (h : Lists t.slots E) (hF : Narrow F) (hEF : ∀ x y, E x y → F x y) {u v : Nat}
    (hu : u ∈ t.slots.map Slot.id) (huv : F u v) :
    ∃ slots, t.addNeighbor u v = some { t with slots := slots } ∧ slots.map Slot.id = t.slots.map Slot.id ∧
      Lists slots fun x y => E x y ∨ (x = u ∧ y = v) := by
  rcases addNeighbor_spec h hu v with ⟨_, hnew, s, hs, rfl, hfull⟩ | hrecorded
  · exact absurd (h.length_lt hF hEF hs hnew huv) (not_lt.mpr hfull)
  · exact hrecorded

/-- An edge is recorded with both its ends, if the limit is not hit. -/
theorem addEdgeInternal_spec (h : Lists t.slots E) {u v : Nat} {t' : DynamicTreewidth} (hne : u ≠ v)
    (hu : u ∈ t.slots.map Slot.id) (hv : v ∈ t.slots.map Slot.id) (heq : t.addEdgeInternal u v = some t') :
    ∃ slots, t' = { t with slots := slots } ∧ slots.map Slot.id = t.slots.map Slot.id ∧
      Lists slots fun x y => E x y ∨ (x = u ∧ y = v) ∨ (x = v ∧ y = u) := by
  rw [addEdgeInternal, if_neg hne] at heq
  rcases addNeighbor_spec h hu v with ⟨hnone, _⟩ | ⟨slots, hsome, hids, hlists⟩
  · rw [hnone] at heq
    cases heq
  · rw [hsome, Option.bind_some] at heq
    rcases addNeighbor_spec (t := { t with slots := slots }) hlists (hids.symm ▸ hv) u with
      ⟨hnone, _⟩ | ⟨slots', hsome', hids', hlists'⟩
    · rw [hnone] at heq
      cases heq
    · rw [hsome'] at heq
      cases heq
      exact ⟨slots', rfl, hids'.trans hids, hlists'.congr fun x y => or_assoc⟩

/-- An edge is recorded, if the lists of both its ends are to have room. -/
theorem exists_addEdgeInternal (h : Lists t.slots E) (hF : Narrow F) (hEF : ∀ x y, E x y → F x y)
    {u v : Nat} (hne : u ≠ v) (hu : u ∈ t.slots.map Slot.id) (hv : v ∈ t.slots.map Slot.id) (huv : F u v)
    (hvu : F v u) : ∃ t', t.addEdgeInternal u v = some t' := by
  obtain ⟨slots, heq, hids, hlists⟩ := exists_addNeighbor h hF hEF hu huv
  obtain ⟨slots', heq', _, _⟩ := exists_addNeighbor (t := { t with slots := slots }) hlists hF
    (by
      rintro x y (hxy | ⟨rfl, rfl⟩)
      · exact hEF x y hxy
      · exact huv) (hids.symm ▸ hv) hvu
  exact ⟨_, by rw [addEdgeInternal, if_neg hne, heq, Option.bind_some, heq']⟩

end DynamicTreewidth

/-- An edge of the graph joins two uids of the skeleton. -/
def TypeGraph.JoinsUids (nodes : List NodeId) (edge : Edge) (x y : Nat) : Prop :=
  x ≠ y ∧ ((nodes[x]? = some edge.srcNode ∧ nodes[y]? = some edge.tgtNode) ∨
    (nodes[y]? = some edge.srcNode ∧ nodes[x]? = some edge.tgtNode))

theorem TypeGraph.skeletonGraph_adj {g : TypeGraph} {x y : Nat} : g.skeletonGraph.Adj x y ↔
    ∃ edge ∈ g.edges.iter.map Prod.snd, TypeGraph.JoinsUids g.skeletonNodes edge x y := by
  have hshows := skeleton_shows g [x, y] x (by simp) y (by simp)
  rw [← hshows, TypeGraph.skeleton, mem_foldl_addSkeletonEdge g.skeletonNodes_nodup, or_iff_left]
  · rfl
  · exact not_mem_foldl_insertIfNew _ (SetIndex.not_mem_members_empty x y)

/-- The uids of the ends of an edge. -/
theorem TypeGraph.joinsUids_iff {nodes : List NodeId} (hnodup : nodes.Nodup) {edge : Edge} {x y : Nat} :
    TypeGraph.JoinsUids nodes edge x y ↔ x ≠ y ∧
      ((nodes.idxOf? edge.srcNode = some x ∧ nodes.idxOf? edge.tgtNode = some y) ∨
        (nodes.idxOf? edge.srcNode = some y ∧ nodes.idxOf? edge.tgtNode = some x)) := by
  simp only [TypeGraph.JoinsUids, idxOf?_eq_some hnodup]

theorem mem_map_id_of_idxOf? {nodes : List NodeId} (hids : t.slots.map Slot.id = List.range nodes.length)
    {n : NodeId} {i : Nat} (hi : nodes.idxOf? n = some i) : i ∈ t.slots.map Slot.id := by
  rw [hids, List.mem_range]
  exact (List.idxOf?_eq_some_iff.mp hi).1

/-- A loaded edge is in the lists of both its ends. -/
theorem TypeGraph.loadEdge_spec {nodes : List NodeId} (hnodup : nodes.Nodup)
    (hids : t.slots.map Slot.id = List.range nodes.length) (h : Lists t.slots E) {edge : Edge}
    {t' : DynamicTreewidth} (heq : t.loadEdge nodes edge = some t') :
    t'.slots.map Slot.id = List.range nodes.length ∧
      Lists t'.slots fun x y => E x y ∨ TypeGraph.JoinsUids nodes edge x y := by
  have hkeep : (∀ x y, ¬ TypeGraph.JoinsUids nodes edge x y) →
      Lists t.slots fun x y => E x y ∨ TypeGraph.JoinsUids nodes edge x y := fun hno =>
    h.congr fun x y => (or_iff_left (hno x y)).symm
  unfold DynamicTreewidth.loadEdge at heq
  split at heq
  · rename_i su tu hsu htu
    split at heq
    · rename_i hne
      obtain ⟨slots, rfl, hslots, hlists⟩ := DynamicTreewidth.addEdgeInternal_spec h hne
        (mem_map_id_of_idxOf? hids hsu) (mem_map_id_of_idxOf? hids htu) heq
      refine ⟨hslots.trans hids, hlists.congr fun x y => or_congr_right ?_⟩
      rw [TypeGraph.joinsUids_iff hnodup, hsu, htu]
      grind
    · rename_i hsame
      cases heq
      refine ⟨hids, hkeep fun x y hxy => ?_⟩
      rw [TypeGraph.joinsUids_iff hnodup, hsu, htu] at hxy
      grind
  · rename_i hno
    cases heq
    refine ⟨hids, hkeep fun x y hxy => ?_⟩
    obtain ⟨_, ⟨hx, hy⟩ | ⟨hx, hy⟩⟩ := (TypeGraph.joinsUids_iff hnodup).mp hxy
    · exact hno _ _ hx hy
    · exact hno _ _ hx hy

/-- Loading an edge of a skeleton within the limits hits no assertion. -/
theorem TypeGraph.exists_loadEdge {nodes : List NodeId} (hnodup : nodes.Nodup) (hF : Narrow F)
    (hids : t.slots.map Slot.id = List.range nodes.length) (h : Lists t.slots E) (hEF : ∀ x y, E x y → F x y)
    {edge : Edge} (hedge : ∀ x y, TypeGraph.JoinsUids nodes edge x y → F x y) :
    ∃ t', t.loadEdge nodes edge = some t' := by
  unfold DynamicTreewidth.loadEdge
  split
  · rename_i su tu hsu htu
    split
    · rename_i hne
      exact DynamicTreewidth.exists_addEdgeInternal h hF hEF hne (mem_map_id_of_idxOf? hids hsu)
        (mem_map_id_of_idxOf? hids htu)
        (hedge su tu ((TypeGraph.joinsUids_iff hnodup).mpr ⟨hne, .inl ⟨hsu, htu⟩⟩))
        (hedge tu su ((TypeGraph.joinsUids_iff hnodup).mpr ⟨Ne.symm hne, .inr ⟨hsu, htu⟩⟩))
    · exact ⟨t, rfl⟩
  · exact ⟨t, rfl⟩

/-- Loaded edges are in the lists. -/
theorem TypeGraph.loadEdges_spec {nodes : List NodeId} (hnodup : nodes.Nodup) (edges : List Edge) :
    ∀ {t t' : DynamicTreewidth} {E : Nat → Nat → Prop}, t.slots.map Slot.id = List.range nodes.length →
    Lists t.slots E → edges.foldlM (DynamicTreewidth.loadEdge nodes) t = some t' →
    t'.slots.map Slot.id = List.range nodes.length ∧
      Lists t'.slots fun x y => (∃ edge ∈ edges, TypeGraph.JoinsUids nodes edge x y) ∨ E x y := by
  induction edges with
  | nil =>
      intro t t' E hids h heq
      cases heq
      exact ⟨hids, h.congr fun x y => by simp⟩
  | cons edge edges ih =>
      intro t t' E hids h heq
      rw [List.foldlM_cons] at heq
      obtain ⟨t₁, hstep, heq⟩ := Option.bind_eq_some_iff.mp heq
      obtain ⟨hids', hlists⟩ := TypeGraph.loadEdge_spec hnodup hids h hstep
      obtain ⟨hids'', hlists'⟩ := ih hids' hlists heq
      refine ⟨hids'', hlists'.congr fun x y => ?_⟩
      rw [List.exists_mem_cons_iff, or_assoc]
      exact or_rotate.symm

/-- Loading the edges of a skeleton within the limits hits no assertion. -/
theorem TypeGraph.exists_loadEdges {nodes : List NodeId} (hnodup : nodes.Nodup) (hF : Narrow F)
    (edges : List Edge) : ∀ {t : DynamicTreewidth} {E : Nat → Nat → Prop},
    t.slots.map Slot.id = List.range nodes.length → Lists t.slots E → (∀ x y, E x y → F x y) →
    (∀ edge ∈ edges, ∀ x y, TypeGraph.JoinsUids nodes edge x y → F x y) →
    ∃ t', edges.foldlM (DynamicTreewidth.loadEdge nodes) t = some t' := by
  induction edges with
  | nil => exact fun {t} _ _ _ _ _ => ⟨t, rfl⟩
  | cons edge edges ih =>
      intro t E hids h hEF hedges
      have hedge := hedges edge List.mem_cons_self
      obtain ⟨t₁, hstep⟩ := TypeGraph.exists_loadEdge hnodup hF hids h hEF hedge
      obtain ⟨hids', hlists⟩ := TypeGraph.loadEdge_spec hnodup hids h hstep
      obtain ⟨t', heq⟩ := ih hids' hlists (fun x y hxy => hxy.elim (hEF x y) (hedge x y))
        fun e he => hedges e (List.mem_cons_of_mem edge he)
      exact ⟨t', by rw [List.foldlM_cons, hstep]; exact heq⟩

/-- The nodes before any edge is loaded. -/
def TypeGraph.loadedNodes (g : TypeGraph) : DynamicTreewidth :=
  { DynamicTreewidth.new with slots := (List.range g.skeletonNodes.length).map fun id => ⟨id, []⟩ }

theorem TypeGraph.loadedNodes_lists (g : TypeGraph) :
    g.loadedNodes.slots.map Slot.id = List.range g.skeletonNodes.length ∧
      Lists g.loadedNodes.slots fun _ _ => False := by
  have hids : g.loadedNodes.slots.map Slot.id = List.range g.skeletonNodes.length := by
    rw [loadedNodes, List.map_map]
    exact List.map_id _
  refine ⟨hids, hids.symm ▸ List.nodup_range, ?_, ?_⟩
  · intro s hs
    obtain ⟨id, _, rfl⟩ := List.mem_map.mp hs
    exact List.nodup_nil
  · intro s hs y
    obtain ⟨id, _, rfl⟩ := List.mem_map.mp hs
    exact iff_of_false List.not_mem_nil not_false

/-- Loading fails if there are too many nodes, else it loads the edges. -/
theorem TypeGraph.load_eq (g : TypeGraph) : DynamicTreewidth.new.loadTypeGraph g =
    if g.skeletonNodes.length ≤ MAX_NODES then
      (g.edges.iter.map Prod.snd).foldlM (DynamicTreewidth.loadEdge g.skeletonNodes) g.loadedNodes
    else none := by
  have hnodes := DynamicTreewidth.foldlM_addNodeInternal (List.range g.skeletonNodes.length)
    (t := DynamicTreewidth.new) List.nodup_range (fun id _ hmem => by cases hmem) (Nat.zero_le _)
  have hempty : DynamicTreewidth.new.slots = [] := rfl
  rw [List.length_range, hempty, List.length_nil, Nat.zero_add, List.nil_append] at hnodes
  rw [DynamicTreewidth.loadTypeGraph]
  refine (congrArg (fun loaded => Option.bind loaded fun t =>
    (g.edges.iter.map Prod.snd).foldlM (DynamicTreewidth.loadEdge g.skeletonNodes) t) hnodes).trans ?_
  split <;> rfl

/-- A loaded tracker has the lists of the skeleton. -/
theorem TypeGraph.load_spec {g : TypeGraph} (heq : DynamicTreewidth.new.loadTypeGraph g = some t) :
    t.slots.map Slot.id = List.range g.skeletonNodes.length ∧ Lists t.slots g.skeletonGraph.Adj := by
  rw [TypeGraph.load_eq] at heq
  split at heq
  · obtain ⟨hids, hempty⟩ := g.loadedNodes_lists
    obtain ⟨hids', hlists⟩ := TypeGraph.loadEdges_spec g.skeletonNodes_nodup _ hids hempty heq
    refine ⟨hids', hlists.congr fun x y => ?_⟩
    rw [or_iff_left not_false, TypeGraph.skeletonGraph_adj]
  · cases heq

/-- Loading hits no assertion on a skeleton within the limits. -/
theorem TypeGraph.exists_load {g : TypeGraph} (hfits : g.FitsTracker) :
    ∃ t, DynamicTreewidth.new.loadTypeGraph g = some t := by
  obtain ⟨hids, hempty⟩ := g.loadedNodes_lists
  rw [TypeGraph.load_eq, if_pos hfits.1]
  exact TypeGraph.exists_loadEdges g.skeletonNodes_nodup hfits.2 _ hids hempty (fun _ _ => False.elim)
    fun edge hedge x y hxy => TypeGraph.skeletonGraph_adj.mpr ⟨edge, hedge, hxy⟩

end Load

/-! ### The same elimination twice -/

section Simulation

theorem argmin_map {α β : Type*} (f : β → Nat) (φ : α → β) (l : List α) :
    (l.map φ).argmin f = (l.argmin fun a => f (φ a)).map φ := by
  induction l with
  | nil => rfl
  | cons a l ih =>
      rw [List.map_cons, List.argmin_cons, List.argmin_cons, ih]
      cases l.argmin fun a => f (φ a) with
      | none => rfl
      | some c =>
          simp only [Option.map_some]
          split <;> rfl

theorem argmin_congr {α : Type*} {f f' : α → Nat} (l : List α) (heq : ∀ a ∈ l, f a = f' a) :
    l.argmin f = l.argmin f' := by
  induction l with
  | nil => rfl
  | cons a l ih =>
      rw [List.argmin_cons, List.argmin_cons, ih fun b hb => heq b (List.mem_cons_of_mem a hb)]
      cases hmin : l.argmin f' with
      | none => rfl
      | some c =>
          dsimp only
          rw [heq a List.mem_cons_self, heq c (List.mem_cons_of_mem a (List.argmin_mem hmin))]

/-- The adjacency sets and the lists give a node the same degree. -/
theorem Lists.length_remaining {work : List Slot} {eliminated : List Nat} {G : SimpleGraph Nat}
    {adj : Adjacency} (h : Lists work G.Adj) (hshows : adj.Shows (remainingIds work eliminated) G) {s : Slot}
    (hs : s ∈ work) (hid : s.id ∈ remainingIds work eliminated) :
    (s.remaining work eliminated).length = (adj.neighbors (remainingIds work eliminated) s.id).length := by
  refine List.Perm.length_eq ((List.perm_ext_iff_of_nodup (h.nodup_remaining hs)
    (Adjacency.nodup_neighbors s.id)).mpr fun y => ?_)
  rw [h.mem_remaining hs, Adjacency.mem_neighbors, ← mem_remainingIds]
  exact and_congr_left fun hy => (hshows s.id hid y hy).symm

/-- As long as the lists have room, elimination on lists takes the nodes that elimination on sets takes, in
    their order and with their degrees. By induction on the steps. -/
theorem eliminateMin_greedy (n : Nat) : ∀ {work : List Slot} (eliminated : List Nat) {G : SimpleGraph Nat}
    {adj : Adjacency}, Lists work G.Adj → adj.Shows (remainingIds work eliminated) G →
    (remainingIds work eliminated).length ≤ n →
    Narrow (filledAlong G (greedyOrder n adj (remainingIds work eliminated))).Adj →
    ∀ width, (eliminateMin n work eliminated).foldl (fun width step => max width step.stepWidth) width =
      greedyWidth n adj (remainingIds work eliminated) width := by
  induction n with
  | zero =>
      intros
      rfl
  | succ n ih =>
      intro work eliminated G adj h hshows hlength hnarrow width
      have hperm := greedyOrder_perm (n + 1) adj hlength
      have hpick : (remainingIds work eliminated).argmin
          (fun u => (adj.neighbors (remainingIds work eliminated) u).length) =
          ((work.filter fun slot => !eliminated.contains slot.id).argmin
            fun slot => (slot.remaining work eliminated).length).map Slot.id := by
        conv_lhs => rw [← map_id_candidates, argmin_map]
        rw [map_id_candidates]
        congr 1
        refine argmin_congr _ fun s hs => ?_
        exact (h.length_remaining hshows (List.mem_filter.mp hs).1
          (map_id_candidates ▸ List.mem_map_of_mem hs)).symm
      rw [greedyOrder, hpick] at hperm hnarrow
      rw [eliminateMin, greedyWidth, hpick]
      cases hmin : (work.filter fun slot => !eliminated.contains slot.id).argmin
          fun slot => (slot.remaining work eliminated).length with
      | none => rfl
      | some v =>
          obtain ⟨hvmem, hv⟩ := mem_of_argmin hmin
          rw [hmin] at hperm hnarrow
          dsimp only [Option.map_some] at hperm hnarrow ⊢
          have hlater := laterThan_of_perm h.ids hperm
          have hsame : remainingIds (fillWork work (v.remaining work eliminated)) (v.id :: eliminated) =
              (remainingIds work eliminated).erase v.id := by
            rw [remainingIds_congr (map_id_fillWork _ work), remainingIds_cons h.ids]
          rw [List.foldl_cons, h.length_remaining hshows hvmem hv, ← hsame]
          refine ih _ (h.eliminate hvmem hlater (h.eliminate_room hvmem hlater hnarrow (le_filledAlong _))) ?_
            (length_remainingIds_fillWork h.ids hv hlength _) ?_ _
          · rw [hsame]
            intro a ha b hb
            rw [hshows.fill hv a ha b hb]
            have ha' := (hlater a).mpr ((h.ids.filter _).mem_erase_iff.mp ha)
            have hb' := (hlater b).mpr ((h.ids.filter _).mem_erase_iff.mp hb)
            refine and_congr_right fun _ => or_congr_right ?_
            exact ⟨fun hboth => ⟨ha', hb', hboth⟩, fun hboth => hboth.2.2⟩
          · rw [hsame]
            exact hnarrow

end Simulation

/-! ### Loading and recomputing -/

/-- The tracker agrees with compute_treewidth: on a skeleton within its limits from_type_graph does not
    panic, and its bound is what compute_treewidth returns if the lists have room for all fill edges. -/
theorem fromTypeGraph_bound {g : TypeGraph} (hfits : g.FitsTracker) :
    ∃ t, DynamicTreewidth.fromTypeGraph g = some t ∧ (g.FillFits → t.bound = computeTreewidth g) := by
  obtain ⟨t, hload⟩ := TypeGraph.exists_load hfits
  obtain ⟨hids, hlists⟩ := TypeGraph.load_spec hload
  refine ⟨t.fullRecompute, by rw [DynamicTreewidth.fromTypeGraph, hload, Option.map_some], fun hfill => ?_⟩
  have hall : remainingIds t.slots [] = List.range g.skeletonNodes.length := by
    rw [remainingIds, hids, List.filter_eq_self]
    exact fun _ _ => rfl
  have hlength : t.slots.length = g.skeletonNodes.length := by
    rw [← List.length_map Slot.id, hids, List.length_range]
  have hshows : g.skeleton.Shows (remainingIds t.slots []) g.skeletonGraph := by
    rw [hall]
    exact skeleton_shows g _
  have hgreedy := eliminateMin_greedy g.skeletonNodes.length [] hlists
    hshows (by rw [hall, List.length_range]) (by rw [hall]; exact hfill) 0
  rw [DynamicTreewidth.fullRecompute, hlength]
  rw [hall] at hgreedy
  exact hgreedy

/-- Few nodes have few neighbors, with or without fill. -/
theorem TypeGraph.fits_of_few {g : TypeGraph} (hfew : g.skeletonNodes.length ≤ MAX_DEGREE) :
    g.FitsTracker ∧ g.FillFits := by
  let n := g.skeletonNodes.length
  have hrange : ∀ {x y}, g.skeletonGraph.Adj x y → y ∈ Finset.range n := by
    rintro x y ⟨_, _, m, _, hm, _⟩
    exact Finset.mem_range.mpr (List.getElem?_eq_some_iff.mp hm).1
  have hnarrow : ∀ {E : Nat → Nat → Prop}, (∀ x y, E x y → y ∈ Finset.range n) → Narrow E := by
    intro E hE x N hN
    refine (Finset.card_le_card fun y hy => hE x y (hN y hy)).trans ?_
    rwa [Finset.card_range]
  refine ⟨⟨hfew.trans (by decide), hnarrow fun _ _ => hrange⟩, hnarrow fun x y hxy => ?_⟩
  rcases filledAlong_adj _ hxy with hxy | ⟨_, hy⟩
  · exact hrange hxy
  · have hperm := greedyOrder_perm n g.skeleton (List.length_range (n := n)).le
    exact Finset.mem_range.mpr (List.mem_range.mp (hperm.mem_iff.mp hy))

theorem fromTypeGraph_bound_small :
    let g := (TypeGraph.new 0).calls (fun _ => 0)
      [.createFile 1 "a" 0 0 .fileDefault, .mkdir 1 "d" 0 0 .dirDefault, .link 2 "b" 2]
    ∃ t, DynamicTreewidth.fromTypeGraph g = some t ∧ t.bound = computeTreewidth g := by
  intro g
  obtain ⟨hfits, hfill⟩ := TypeGraph.fits_of_few (g := g) (by decide +kernel)
  obtain ⟨t, heq, hbound⟩ := fromTypeGraph_bound hfits
  exact ⟨t, heq, hbound hfill⟩

/-! ### Fill edges that do not fit -/

section Dropped

/-- Insert the first `n` values of a function, each at its own number. -/
def Arena.ofFn {T : Type} {CAPACITY : Nat} (n : Nat) (f : Nat → T) : Arena T CAPACITY :=
  (List.range n).foldl (fun a s => (a.insertAt s (f s)).2) .new

theorem Arena.data_ofFn {T : Type} {CAPACITY n : Nat} {f : Nat → T} (hn : n ≤ CAPACITY) :
    ∀ s, (Arena.ofFn n f : Arena T CAPACITY).data s = if s < n then some (f s) else none := by
  induction n with
  | zero => exact fun _ => rfl
  | succ n ih =>
      intro s
      have hold := ih (Nat.le_of_succ_le hn)
      have hvac : (Arena.ofFn n f : Arena T CAPACITY).data n = none :=
        (hold n).trans (if_neg (lt_irrefl n))
      rw [Arena.ofFn, List.range_succ, List.foldl_append]
      change ((Arena.ofFn n f : Arena T CAPACITY).insertAt n (f n)).2.data s = _
      rw [Arena.data_insertAt _ hn hvac, Function.update_apply, hold]
      grind

/-- The `e`-th delegation: capability `i` of 66 delegates to 34 of 66 others, from the `i`-th on. -/
def delegation (e : Nat) : Edge := .delegates e (e / 34) (66 + (e / 34 + e % 34) % 66)

/-- The first `m` capabilities and the first `n` delegations. With 132 and 2244, 66 capabilities delegate to 66
    others, each to more than half of them, and each has 34 neighbors. -/
def delegations (m n : Nat) : TypeGraph :=
  { TypeGraph.empty with
    caps := .ofFn m fun c => ⟨c, ⟨31⟩, 0⟩
    edges := .ofFn n delegation }

theorem delegations_caps {m n c : Nat} (hm : m ≤ NODE_CAPACITY) :
    (∃ cap, (delegations m n).caps.data c = some cap) ↔ c < m := by
  unfold delegations
  simp only [Arena.data_ofFn hm]
  split <;> simp_all

theorem delegations_edges {m n e : Nat} {v : Edge} (hn : n ≤ EDGE_CAPACITY) :
    (delegations m n).edges.data e = some v ↔ e < n ∧ v = delegation e := by
  unfold delegations
  rw [Arena.data_ofFn hn]
  split <;> simp_all [eq_comm]

/-- The nodes are the capabilities. -/
theorem mem_delegations_nodes {m n : Nat} (hm : m ≤ NODE_CAPACITY) {x : NodeId} :
    x ∈ (delegations m n).skeletonNodes ↔ ∃ c < m, x = .capability c := by
  rw [TypeGraph.mem_skeletonNodes]
  cases x with
  | capability c =>
      refine (delegations_caps hm).trans ⟨fun hc => ⟨c, hc, rfl⟩, ?_⟩
      rintro ⟨d, hd, heq⟩
      cases heq
      exact hd
  | inode | directory | block | version =>
      refine iff_of_false ?_ (by simp)
      rintro ⟨v, hv⟩
      cases hv
  | transaction | xattr => exact iff_of_false id (by simp)

/-- Two capabilities are joined by a delegation. -/
theorem delegations_adj {m n c d : Nat} (hn : n ≤ 2244) :
    ((delegations m n).joinGraph Edge.tgtNode).Adj (.capability c) (.capability d) ↔
      ∃ e < n, (c = e / 34 ∧ d = 66 + (e / 34 + e % 34) % 66) ∨
        (d = e / 34 ∧ c = 66 + (e / 34 + e % 34) % 66) := by
  have hcap : n ≤ EDGE_CAPACITY := hn.trans (by simp [EDGE_CAPACITY])
  constructor
  · rintro ⟨_, e, v, hv, hends⟩
    obtain ⟨he, rfl⟩ := (delegations_edges hcap).mp hv
    rcases hends with ⟨hc, hd⟩ | ⟨hd, hc⟩ <;> cases hc <;> cases hd
    · exact ⟨e, he, .inl ⟨rfl, rfl⟩⟩
    · exact ⟨e, he, .inr ⟨rfl, rfl⟩⟩
  · rintro ⟨e, he, ⟨rfl, rfl⟩ | ⟨rfl, rfl⟩⟩
    · refine ⟨fun heq => ?_, e, _, (delegations_edges hcap).mpr ⟨he, rfl⟩, .inl ⟨rfl, rfl⟩⟩
      have hloop : e / 34 = 66 + (e / 34 + e % 34) % 66 := NodeId.capability.inj heq
      omega
    · refine ⟨fun heq => ?_, e, _, (delegations_edges hcap).mpr ⟨he, rfl⟩, .inr ⟨rfl, rfl⟩⟩
      have hloop : 66 + (e / 34 + e % 34) % 66 = e / 34 := NodeId.capability.inj heq
      omega

/-- The delegations of capability `i` are those to the 34 from the `i`-th on. -/
theorem exists_delegation {i j : Nat} (hi : i < 66) (hj : j < 66) (hnear : (j + 66 - i) % 66 < 34) :
    ∃ e < 2244, i = e / 34 ∧ 66 + j = 66 + (e / 34 + e % 34) % 66 := by
  have hdiv : (34 * i + (j + 66 - i) % 66) / 34 = i := by omega
  have hmod : (34 * i + (j + 66 - i) % 66) % 34 = (j + 66 - i) % 66 := by omega
  refine ⟨34 * i + (j + 66 - i) % 66, by omega, hdiv.symm, ?_⟩
  rw [hdiv, hmod]
  omega

/-- The `k`-th of the 34 capabilities that `c` is joined to. -/
def other (c k : Nat) : Nat :=
  if c < 66 then 66 + (c + k) % 66 else (c - k) % 66

/-- The capabilities that `c` is joined to. -/
def others (c : Nat) : Finset NodeId :=
  (Finset.range 34).image fun k => .capability (other c k)

/-- A capability is joined to no others. -/
theorem mem_others_of_adj {c d : Nat}
    (hadj : ((delegations 132 2244).joinGraph Edge.tgtNode).Adj (.capability c) (.capability d)) :
    NodeId.capability d ∈ others c := by
  obtain ⟨e, he, hends⟩ := (delegations_adj le_rfl).mp hadj
  have hother : other c (e % 34) = d := by
    unfold other
    rcases hends with ⟨hc, hd⟩ | ⟨hd, hc⟩
    · rw [if_pos (by omega)]
      omega
    · rw [if_neg (by omega)]
      omega
  exact Finset.mem_image.mpr ⟨e % 34, Finset.mem_range.mpr (Nat.mod_lt _ (by decide)),
    congrArg NodeId.capability hother⟩

/-- The skeleton has one node for each capability. -/
theorem delegations_nodes_length : (delegations 132 2244).skeletonNodes.length ≤ 132 := by
  have hsub : (delegations 132 2244).skeletonNodes ⊆ (List.range 132).map NodeId.capability := by
    intro y hy
    obtain ⟨c, hc, rfl⟩ := (mem_delegations_nodes (by simp [NODE_CAPACITY])).mp hy
    exact List.mem_map_of_mem (List.mem_range.mpr hc)
  have hlength := ((delegations 132 2244).skeletonNodes_nodup.subperm hsub).length_le
  rwa [List.length_map, List.length_range] at hlength

/-- A node of the skeleton is a capability. -/
theorem delegations_getElem? {y : Nat} {n : NodeId}
    (hy : (delegations 132 2244).skeletonNodes[y]? = some n) : ∃ c, n = .capability c := by
  obtain ⟨c, _, hn⟩ := (mem_delegations_nodes (by simp [NODE_CAPACITY])).mp (List.mem_of_getElem? hy)
  exact ⟨c, hn⟩

/-- Each capability has few neighbors. -/
theorem delegations_fits : (delegations 132 2244).FitsTracker := by
  refine ⟨delegations_nodes_length.trans (by decide), fun x N hN => ?_⟩
  rcases N.eq_empty_or_nonempty with rfl | ⟨y, hy⟩
  · exact Nat.zero_le _
  · obtain ⟨_, n, _, hn, _⟩ := hN y hy
    obtain ⟨c, rfl⟩ := delegations_getElem? hn
    -- the neighbors, as positions, name nodes among the 34
    have hnamed : ∀ y ∈ N, ∃ m ∈ others c, (delegations 132 2244).skeletonNodes[y]? = some m := by
      intro y hy
      obtain ⟨_, _, m, _, hm, _⟩ := hN y hy
      obtain ⟨d, rfl⟩ := delegations_getElem? hm
      exact ⟨_, mem_others_of_adj ((TypeGraph.skeletonGraph_adj_iff hn hm).mp (hN y hy)), hm⟩
    have : Nonempty NodeId := ⟨.inode 0⟩
    choose! node hothers hnode using hnamed
    have hinj : Set.InjOn node (N : Set Nat) := by
      intro y hy z hz heq
      have hy' := hnode y hy
      rw [heq, ← hnode z hz] at hy'
      exact (List.getElem?_inj (List.getElem?_eq_some_iff.mp (hnode y hy)).1
        (TypeGraph.skeletonNodes_nodup _)).mp hy'
    calc N.card ≤ (others c).card := Finset.card_le_card_of_injOn node hothers hinj
      _ ≤ (Finset.range 34).card := Finset.card_image_le
      _ ≤ MAX_DEGREE := by rw [Finset.card_range]; decide

/-- Sixty-six nodes that are joined to the next 34 of sixty-six others, the first and the others in pairs. -/
theorem wide_of_nearby {V : Type*} [DecidableEq V] {G : SimpleGraph V} {S : Finset V} {k : Nat}
    (hwidth : TreewidthLE G S k) (node : Nat → V) (hinj : node.Injective) (hmem : ∀ c < 132, node c ∈ S)
    (hadj : ∀ i < 66, ∀ j < 66, (j + 66 - i) % 66 < 34 → G.Adj (node i) (node (66 + j))) : 65 ≤ k := by
  have hcard := hwidth.card_le_of_pairs (ι := Fin 66) (a := fun i => node i.val)
    (b := fun i => node (66 + i.val)) (fun i => hmem _ (i.isLt.trans (by decide)))
    (fun i => hmem _ (Nat.add_lt_add_left i.isLt 66))
    (fun i j heq => Fin.ext (hinj heq))
    (fun i j heq => Fin.ext (Nat.add_left_cancel (hinj heq)))
    (fun i j heq => by
      have hsame := hinj heq
      omega) (fun i j => ?_)
  · rw [Fintype.card_fin] at hcard
    omega
  · -- one of the two is at most 33 places behind the other
    by_cases hnear : (j.val + 66 - i.val) % 66 < 34
    · exact .inl (hadj i i.isLt j j.isLt hnear)
    · exact .inr (hadj j j.isLt i i.isLt (by omega))

theorem delegations_wide {k : Nat}
    (hwidth : TreewidthLE ((delegations 132 2244).joinGraph Edge.tgtNode)
      (delegations 132 2244).skeletonNodes.toFinset k) : 65 ≤ k := by
  have hm : 132 ≤ NODE_CAPACITY := by simp [NODE_CAPACITY]
  refine wide_of_nearby hwidth NodeId.capability (fun c d heq => NodeId.capability.inj heq) ?_ ?_
  · exact fun c hc => List.mem_toFinset.mpr ((mem_delegations_nodes hm).mpr ⟨c, hc, rfl⟩)
  · intro i hi j hj hnear
    obtain ⟨e, he, hends⟩ := exists_delegation hi hj hnear
    exact (delegations_adj le_rfl).mpr ⟨e, he, .inl hends⟩

/-- The tracker's lists are too short for the fill edges of the delegations. -/
theorem fromTypeGraph_drops_fill : (delegations 132 2244).FitsTracker ∧
    ∃ t, DynamicTreewidth.fromTypeGraph (delegations 132 2244) = some t ∧
      t.bound < computeTreewidth (delegations 132 2244) := by
  have hfits := delegations_fits
  obtain ⟨t, hload⟩ := TypeGraph.exists_load hfits
  have hlists := (TypeGraph.load_spec hload).2
  refine ⟨hfits, t.fullRecompute, by rw [DynamicTreewidth.fromTypeGraph, hload, Option.map_some], ?_⟩
  have hwide := delegations_wide ((isEliminationWidth_tgtNode _).treewidthLE (TypeGraph.skeletonNodes_nodup _))
  have hbound : t.fullRecompute.bound ≤ MAX_DEGREE := maxWidth_le ((hlists.bounded hfits.2).stepWidth_le _)
  exact hbound.trans_lt (Nat.lt_of_succ_le hwide)

end Dropped

end SotFs
