/-
Module: SotFs.Proofs.CurvatureUpdates
Layer: Proofs
Purpose: The incremental curvature scan against the full one. A call's affected nodes cover it when every node
  whose edges it changed, and that still has an edge, is within two steps of them; then the incremental scan of
  a full report is the full scan: edge by edge in every arithmetic, and with its statistics in exact arithmetic,
  where one pass and two give the same mean and variance. Every call the source has an affected-node function
  for is covered, except an unlink that frees blocks, whose edges the scan sees as edges to inodes, and a rename
  that replaces something, which is no part of the affected nodes.
Trusted boundary: none
Main exports: TypeGraph.ends, recomputedEdges_eq, recomputeIncremental_eq, Op.covered, monitored_edges,
  monitored_report, monitored_stale_unlink, monitored_stale_rename
-/
import SotFs.Foundation.EdgeTable
import SotFs.Core.Curvature
import SotFs.Proofs.ErrorFrame

namespace SotFs

open Std (ExtTreeMap ExtTreeSet)
open Foundation

/-! ### The scan as a reading of the edge table -/

def Edge.ends (e : Edge) : NodeId × NodeId := (e.srcNode, e.tgtNode)

/-- The two ends of every edge slot. -/
def TypeGraph.ends (g : TypeGraph) : EdgeTable EdgeId NodeId := g.edges.view fun e => some e.ends

section Scan

variable {K : Type} {formula : CurvatureFormula K} {g g' : TypeGraph}

theorem TypeGraph.ends_eq_some {e : EdgeId} {u v : NodeId} :
    g.ends e = some (u, v) ↔ ∃ edge, (e, edge) ∈ g.edges.iter ∧ edge.srcNode = u ∧ edge.tgtNode = v := by
  simp [TypeGraph.ends, Arena.view_eq_some, Arena.mem_iter, Edge.ends]

/-- Keys with empty sets bring no neighbors. -/
theorem mem_members_foldl_insertIfNew {v w : NodeId} (nodes : List NodeId) : ∀ adj : NodeAdjacency,
    w ∈ SetIndex.members (nodes.foldl (fun adj node => adj.insertIfNew node ∅) adj) v ↔
      w ∈ SetIndex.members adj v := by
  induction nodes with
  | nil => simp
  | cons node nodes ih =>
      intro adj
      rw [List.foldl_cons, ih, SetIndex.members_eq_getElem?, SetIndex.members_eq_getElem?,
        ExtTreeMap.getElem?_insertIfNew]
      split
      · rename_i hnew
        have hnone : adj[v]? = none := by
          rw [← Std.LawfulEqCmp.eq_of_compare hnew.1]
          exact ExtTreeMap.getElem?_eq_none hnew.2
        rw [hnone]
        simp
      · rfl

/-- The neighbor sets gather the edges one after another. -/
theorem mem_members_foldl_add {v w : NodeId} (l : List (EdgeId × Edge)) : ∀ adj : NodeAdjacency,
    w ∈ SetIndex.members (l.foldl (fun adj entry =>
      SetIndex.add (SetIndex.add adj entry.2.srcNode entry.2.tgtNode) entry.2.tgtNode entry.2.srcNode) adj) v ↔
    w ∈ SetIndex.members adj v ∨ ∃ entry ∈ l, entry.2.ends = (v, w) ∨ entry.2.ends = (w, v) := by
  induction l with
  | nil => simp
  | cons entry l ih =>
      intro adj
      rw [List.foldl_cons, ih]
      simp only [SetIndex.mem_members_add, List.mem_cons, exists_eq_or_imp, Edge.ends, Prod.mk.injEq]
      grind

theorem mem_buildAdjacency {v w : NodeId} :
    w ∈ SetIndex.members (buildAdjacency g) v ↔ w ∈ EdgeTable.neighbors g.ends v := by
  rw [buildAdjacency, mem_members_foldl_add, mem_members_foldl_insertIfNew]
  simp only [SetIndex.not_mem_members_empty, false_or, EdgeTable.neighbors, Set.mem_ofPred_eq]
  constructor
  · rintro ⟨⟨e, edge⟩, hmem, hends | hends⟩
    · exact ⟨e, .inl (TypeGraph.ends_eq_some.mpr ⟨edge, hmem, Prod.ext_iff.mp hends⟩)⟩
    · exact ⟨e, .inr (TypeGraph.ends_eq_some.mpr ⟨edge, hmem, Prod.ext_iff.mp hends⟩)⟩
  · rintro ⟨e, hends | hends⟩
    · obtain ⟨edge, hmem, hsrc, htgt⟩ := TypeGraph.ends_eq_some.mp hends
      exact ⟨(e, edge), hmem, .inl (Prod.ext hsrc htgt)⟩
    · obtain ⟨edge, hmem, hsrc, htgt⟩ := TypeGraph.ends_eq_some.mp hends
      exact ⟨(e, edge), hmem, .inr (Prod.ext hsrc htgt)⟩

/-- Entering a list into a set. -/
theorem mem_foldl_insert {E : Type} [Ord E] [Std.TransOrd E] [Std.LawfulEqOrd E] {x : E} (l : List E) :
    ∀ s : ExtTreeSet E, x ∈ l.foldl (fun s y => s.insert y) s ↔ x ∈ s ∨ x ∈ l := by
  induction l with
  | nil => simp
  | cons y l ih =>
      intro s
      rw [List.foldl_cons, ih, ExtTreeSet.mem_insert, Std.compare_eq_iff_eq, List.mem_cons, eq_comm]
      tauto

/-- The neighborhood gathers what is one and two steps from each node. -/
theorem mem_twoHopNodes {v : NodeId} {nodes : List NodeId} :
    v ∈ twoHopNodes (buildAdjacency g) nodes ↔ v ∈ EdgeTable.near g.ends {s | s ∈ nodes} := by
  let adj := buildAdjacency g
  have hsecond : ∀ (nbrs : List NodeId) (acc : ExtTreeSet NodeId),
      v ∈ nbrs.foldl (fun acc nbr => (SetIndex.members adj nbr).toList.foldl (fun acc nbr2 => acc.insert nbr2)
        (acc.insert nbr)) acc ↔
      v ∈ acc ∨ ∃ u ∈ nbrs, v = u ∨ v ∈ SetIndex.members adj u := by
    intro nbrs
    induction nbrs with
    | nil => simp
    | cons nbr nbrs ih =>
        intro acc
        rw [List.foldl_cons, ih, mem_foldl_insert, ExtTreeSet.mem_insert, Std.compare_eq_iff_eq,
          ExtTreeSet.mem_toList]
        simp only [List.mem_cons, exists_eq_or_imp]
        grind
  have hfirst : ∀ (nodes : List NodeId) (acc : ExtTreeSet NodeId),
      v ∈ nodes.foldl (fun acc node => (SetIndex.members adj node).toList.foldl (fun acc nbr =>
        (SetIndex.members adj nbr).toList.foldl (fun acc nbr2 => acc.insert nbr2) (acc.insert nbr))
        (acc.insert node)) acc ↔
      v ∈ acc ∨ ∃ s ∈ nodes, v = s ∨ ∃ u ∈ SetIndex.members adj s, v = u ∨ v ∈ SetIndex.members adj u := by
    intro nodes
    induction nodes with
    | nil => simp
    | cons node nodes ih =>
        intro acc
        rw [List.foldl_cons, ih, hsecond, ExtTreeSet.mem_insert, Std.compare_eq_iff_eq]
        simp only [ExtTreeSet.mem_toList, List.mem_cons, exists_eq_or_imp]
        grind
  rw [twoHopNodes, hfirst]
  simp only [ExtTreeSet.not_mem_empty, false_or, EdgeTable.near, Set.mem_ofPred_eq, adj, mem_buildAdjacency]
  refine exists_congr fun s => and_congr_right fun _ => or_congr_right ?_
  constructor
  · rintro ⟨u, hu, rfl | hv⟩
    · exact .inl hu
    · exact .inr ⟨u, hu, hv⟩
  · rintro (hv | ⟨u, hu, hv⟩)
    · exact ⟨v, hv, .inl rfl⟩
    · exact ⟨u, hu, .inr hv⟩

theorem mem_edgesIn2HopNeighborhood {e : EdgeId} {edge : Edge} {nodes : List NodeId}
    (hmem : (e, edge) ∈ g.edges.iter) (hnear : edge.srcNode ∈ EdgeTable.near g.ends {s | s ∈ nodes} ∨
      edge.tgtNode ∈ EdgeTable.near g.ends {s | s ∈ nodes}) :
    e ∈ edgesIn2HopNeighborhood g (buildAdjacency g) nodes := by
  have hfold : ∀ (l : List (EdgeId × Edge)) (acc : ExtTreeSet EdgeId), (e ∈ acc ∨ (e, edge) ∈ l) →
      e ∈ l.foldl (fun acc entry =>
        if entry.2.srcNode ∈ twoHopNodes (buildAdjacency g) nodes ∨
          entry.2.tgtNode ∈ twoHopNodes (buildAdjacency g) nodes then acc.insert entry.1 else acc) acc := by
    intro l
    induction l with
    | nil => simp
    | cons entry l ih =>
        intro acc hin
        refine ih _ ?_
        rw [List.mem_cons, ← or_assoc] at hin
        refine hin.imp_left ?_
        dsimp only
        rintro (hacc | rfl)
        · split
          · exact ExtTreeSet.mem_insert.mpr (.inr hacc)
          · exact hacc
        · rw [if_pos (by simpa only [mem_twoHopNodes] using hnear)]
          exact ExtTreeSet.mem_insert_self
  exact hfold _ _ (.inr hmem)

/-- The curvature of an edge depends on the neighbors of its ends alone. -/
theorem computeEdgeCurvature_congr {u v : NodeId}
    (hu : EdgeTable.neighbors g.ends u = EdgeTable.neighbors g'.ends u)
    (hv : EdgeTable.neighbors g.ends v = EdgeTable.neighbors g'.ends v) :
    computeEdgeCurvature formula (buildAdjacency g) u v =
      computeEdgeCurvature formula (buildAdjacency g') u v := by
  have hsame : ∀ x, EdgeTable.neighbors g.ends x = EdgeTable.neighbors g'.ends x →
      SetIndex.members (buildAdjacency g) x = SetIndex.members (buildAdjacency g') x := by
    intro x hx
    refine ExtTreeSet.ext_mem fun w => ?_
    rw [mem_buildAdjacency, mem_buildAdjacency, hx]
  rw [computeEdgeCurvature, computeEdgeCurvature, hsame u hu, hsame v hv]

/-- A full scan reads the edges alone. -/
theorem curvatureEdges_congr (hedges : g'.edges = g.edges) :
    curvatureEdges formula g' = curvatureEdges formula g := by
  have hends : g'.ends = g.ends := by rw [TypeGraph.ends, TypeGraph.ends, hedges]
  rw [curvatureEdges, curvatureEdges, hedges]
  refine List.map_congr_left fun entry _ => ?_
  rw [EdgeCurvature.mk.injEq]
  exact ⟨rfl, rfl, rfl, computeEdgeCurvature_congr (by rw [hends]) (by rw [hends])⟩

/-- What a full scan says of an edge id. -/
theorem getElem?_prevKappa {e : EdgeId} {k : K} :
    ((curvatureEdges formula g).foldl (fun map ec => map.insert ec.edgeId ec.kappa)
      (∅ : ExtTreeMap EdgeId K))[e]? = some k ↔
    ∃ u v, g.ends e = some (u, v) ∧ computeEdgeCurvature formula (buildAdjacency g) u v = k := by
  classical
  let pairs := (curvatureEdges formula g).map fun ec => (ec.edgeId, ec.kappa)
  have hmem : ∀ e k, (e, k) ∈ pairs ↔
      ∃ u v, g.ends e = some (u, v) ∧ computeEdgeCurvature formula (buildAdjacency g) u v = k := by
    intro e k
    simp [pairs, curvatureEdges, TypeGraph.ends_eq_some]
  have hfold : (curvatureEdges formula g).foldl (fun map ec => map.insert ec.edgeId ec.kappa)
      (∅ : ExtTreeMap EdgeId K) = pairs.foldl (fun map p => map.insert p.1 p.2) ∅ := by
    rw [List.foldl_map]
  rw [hfold, UniqueIndex.getElem?_foldl_insert pairs]
  · simp [hmem]
  · rintro ⟨e, k⟩ hp ⟨_, k'⟩ hq rfl
    obtain ⟨u, v, hends, rfl⟩ := (hmem _ _).mp hp
    obtain ⟨_, _, hends', rfl⟩ := (hmem _ _).mp hq
    rw [hends] at hends'
    cases hends'
    rfl

/-- If the affected nodes cover the change, the edges of the incremental scan are those of the full one: an edge
    that is carried over had the same ends and the same neighbors. -/
theorem recomputedEdges_eq {nodes : List NodeId}
    (hcovers : EdgeTable.Covers {s | s ∈ nodes} g.ends g'.ends) :
    recomputedEdges formula g' nodes (curvatureEdges formula g) =
      curvatureEdges formula g' := by
  refine List.map_congr_left ?_
  rintro ⟨e, edge⟩ hmem
  dsimp only
  rw [EdgeCurvature.mk.injEq]
  refine ⟨rfl, rfl, rfl, ?_⟩
  by_cases hdirty : e ∈ edgesIn2HopNeighborhood g' (buildAdjacency g') nodes
  · rw [if_pos hdirty]
  · rw [if_neg hdirty]
    have hfar : edge.srcNode ∉ EdgeTable.near g'.ends {s | s ∈ nodes} ∧
        edge.tgtNode ∉ EdgeTable.near g'.ends {s | s ∈ nodes} := by
      rw [← not_or]
      exact fun hnear => hdirty (mem_edgesIn2HopNeighborhood hmem hnear)
    have hends : g'.ends e = some (edge.srcNode, edge.tgtNode) :=
      TypeGraph.ends_eq_some.mpr ⟨edge, hmem, rfl, rfl⟩
    obtain ⟨hold, hsrc, htgt⟩ := hcovers.away hends hfar.1 hfar.2
    rw [getElem?_prevKappa.mpr ⟨_, _, hold, rfl⟩]
    exact computeEdgeCurvature_congr hsrc htgt

end Scan

/-! ### What the affected nodes cover -/

@[simp] theorem AffectedNodes.mem_push {a : AffectedNodes} {node x : NodeId}
    (hroom : a.nodes.length < AFFECTED_CAPACITY) : x ∈ (a.push node).nodes ↔ x ∈ a.nodes ∨ x = node := by
  rw [AffectedNodes.push, dif_pos hroom]
  by_cases hmem : node ∈ a.nodes
  · rw [dif_pos hmem]
    exact ⟨.inl, fun hx => hx.elim id fun heq => heq ▸ hmem⟩
  · rw [dif_neg hmem]
    simp

theorem AffectedNodes.length_push_le (a : AffectedNodes) (node : NodeId) :
    (a.push node).nodes.length ≤ a.nodes.length + 1 := by
  rw [AffectedNodes.push]
  split
  · split <;> simp
  · exact Nat.le_succ _

/-- Two nodes find room. -/
theorem AffectedNodes.mem_pair {u v x : NodeId} :
    x ∈ ((AffectedNodes.empty.push u).push v).nodes ↔ x = u ∨ x = v := by
  have hone := AffectedNodes.empty.length_push_le u
  rw [mem_push (lt_of_le_of_lt hone (by decide)), mem_push (by decide)]
  simp [AffectedNodes.empty]

/-- Three nodes find room. -/
theorem AffectedNodes.mem_triple {u v w x : NodeId} :
    x ∈ (((AffectedNodes.empty.push u).push v).push w).nodes ↔ x = u ∨ x = v ∨ x = w := by
  have hone := AffectedNodes.empty.length_push_le u
  have htwo := (AffectedNodes.empty.push u).length_push_le v
  rw [mem_push (lt_of_le_of_lt (htwo.trans (Nat.add_le_add_right hone 1)) (by decide)), mem_pair, or_assoc]

section Covers

variable {now : Nat → Timestamp} {g g' : TypeGraph} {d : DirId} {n : String}

/-- Edits of some edge slots show at the ends of what the slots held and of what they hold. -/
theorem exists_of_differ {T : EdgeId → Prop} (hdata : ∀ e, ¬ T e → g'.edges.data e = g.edges.data e)
    {v : NodeId} (hv : v ∈ EdgeTable.differ g.ends g'.ends) :
    ∃ e, T e ∧ (EdgeTable.HasEnd (g.ends e) v ∨ EdgeTable.HasEnd (g'.ends e) v) := by
  obtain ⟨e, hne, hend⟩ := hv
  refine ⟨e, ?_, hend⟩
  by_contra he
  refine hne ?_
  rw [TypeGraph.ends, TypeGraph.ends, Arena.view, Arena.view, hdata e he]

theorem Inv.ends_entry (h : Inv g) {e : EdgeId} {t : InodeId} (he : g.entries e = some (d, t, n)) :
    g.ends e = some (.directory d, .inode t) := by
  rw [TypeGraph.ends, Arena.view, h.entries_iff.mp he]
  rfl

theorem Inv.ends_fresh (h : Inv g) {e : EdgeId} (he : g.nextEdge ≤ e) : g.ends e = none := by
  rw [TypeGraph.ends, Arena.view, h.edgeIds.fresh he]
  rfl

/-- The inode of a directory is one step from it, by its ".". -/
theorem Inv.dirInode_near (h : Inv g) {S : Set NodeId} (hd : NodeId.directory d ∈ S) {i : InodeId}
    (hi : g.dirInode d = some i) : NodeId.inode i ∈ EdgeTable.near g.ends S := by
  obtain ⟨e, he⟩ := h.shape.dot hi
  exact EdgeTable.mem_near_of_edge hd (.inl (h.ends_entry he))

/-- A new entry of a directory. -/
theorem covers_newEntry (h : Inv g) {t : InodeId} {S : Set NodeId}
    (hdata : g'.edges.data = Function.update g.edges.data g.nextEdge (some (.contains g.nextEdge d t n)))
    (hd : NodeId.directory d ∈ S) (ht : NodeId.inode t ∈ S) : EdgeTable.Covers S g.ends g'.ends := by
  intro v hv _ _
  have hends : g'.ends = Function.update g.ends g.nextEdge (some (.directory d, .inode t)) :=
    Arena.view_update hdata
  rw [hends] at hv
  rcases EdgeTable.differ_update hv with hold | hnew
  · rw [h.ends_fresh le_rfl] at hold
    exact absurd hold EdgeTable.not_hasEnd_none
  · rcases EdgeTable.hasEnd_some.mp hnew with rfl | rfl
    · exact EdgeTable.mem_near_of_mem hd
    · exact EdgeTable.mem_near_of_mem ht

/-- An entry that is taken away. -/
theorem covers_droppedEntry (h : Inv g) {e : EdgeId} {t : InodeId} {S : Set NodeId}
    (he : g.entries e = some (d, t, n)) (hdata : g'.edges.data = Function.update g.edges.data e none)
    (hd : NodeId.directory d ∈ S) (ht : NodeId.inode t ∈ S) : EdgeTable.Covers S g.ends g'.ends := by
  intro v hv _ _
  have hends : g'.ends = Function.update g.ends e none := Arena.view_update hdata
  rw [hends] at hv
  rcases EdgeTable.differ_update hv with hold | hnew
  · rw [h.ends_entry he] at hold
    rcases EdgeTable.hasEnd_some.mp hold with rfl | rfl
    · exact EdgeTable.mem_near_of_mem hd
    · exact EdgeTable.mem_near_of_mem ht
  · exact absurd hnew EdgeTable.not_hasEnd_none

/-- mkdir: the inode of the parent gets the new ".." and is one step from the parent. -/
theorem covers_enterDir (h : Inv g) {inode : Inode} {di : InodeId} {S : Set NodeId}
    (he : g.nextEdge + 3 ≤ EDGE_CAPACITY) (hinv : Inv (g.enterDir inode d di n))
    (hdi : (g.enterDir inode d di n).dirInode d = some di) (hd : NodeId.directory d ∈ S)
    (ht : NodeId.inode g.nextInode ∈ S) (hnew : NodeId.directory g.nextDir ∈ S) :
    EdgeTable.Covers S g.ends (g.enterDir inode d di n).ends := by
  intro v hv _ _
  have hdata := @Inv.enterDir_edges g inode d n di h he
  obtain ⟨e, hslot, hend⟩ := exists_of_differ (T := fun e => g.nextEdge ≤ e) (fun e hlt => by
    rw [not_le] at hlt
    rw [hdata, Function.update_of_ne (Nat.lt_add_right 1 (Nat.lt_add_right 1 hlt)).ne,
      Function.update_of_ne (Nat.lt_add_right 1 hlt).ne, Function.update_of_ne hlt.ne]) hv
  rw [h.ends_fresh hslot] at hend
  have hends : (g.enterDir inode d di n).ends e = (Function.update (Function.update (Function.update
      g.edges.data g.nextEdge (some (.contains g.nextEdge d g.nextInode n)))
      (g.nextEdge + 1) (some (.contains (g.nextEdge + 1) g.nextDir g.nextInode ".")))
      (g.nextEdge + 1 + 1) (some (.contains (g.nextEdge + 1 + 1) g.nextDir di "..")) e).bind
      fun edge => some edge.ends := by
    rw [← hdata]
    rfl
  replace hend := hend.resolve_left EdgeTable.not_hasEnd_none
  rw [hends] at hend
  have hdi := hinv.dirInode_near hd hdi
  rw [Function.update_apply, Function.update_apply, Function.update_apply, h.edgeIds.fresh hslot] at hend
  split_ifs at hend
  · rcases EdgeTable.hasEnd_some.mp hend with rfl | rfl
    · exact EdgeTable.mem_near_of_mem hnew
    · exact hdi
  · rcases EdgeTable.hasEnd_some.mp hend with rfl | rfl
    · exact EdgeTable.mem_near_of_mem hnew
    · exact EdgeTable.mem_near_of_mem ht
  · rcases EdgeTable.hasEnd_some.mp hend with rfl | rfl
    · exact EdgeTable.mem_near_of_mem hd
    · exact EdgeTable.mem_near_of_mem ht
  · exact absurd hend EdgeTable.not_hasEnd_none

/-- rmdir: the inode of the parent loses the old ".." and is one step from the parent. -/
theorem covers_dropDir (h : Inv g) {e : EdgeId} {ti : InodeId} {td : DirId} {S : Set NodeId}
    (he : g.entries e = some (d, ti, n)) (hn : UserName n) (htd : g.dirInode td = some ti)
    (hempty : ∀ x t m, g.entries x = some (td, t, m) → ¬ UserName m) (hinv : Inv (g.dropDir d n ti td))
    (hd : NodeId.directory d ∈ S) (hi : NodeId.inode ti ∈ S) (hremoved : NodeId.directory td ∈ S) :
    EdgeTable.Covers S g.ends (g.dropDir d n ti td).ends := by
  intro v hv _ _
  obtain ⟨edges, _, _, _, heq, _, _, hdata, _⟩ := h.dropDir_eq he htd
  have hdata' : ∀ x, (g.dropDir d n ti td).edges.data x =
      if x ∈ g.rmdirEdges d n ti td then none else g.edges.data x := by
    rw [heq]
    exact hdata
  obtain ⟨x, hx, hend⟩ := exists_of_differ (T := fun x => x ∈ g.rmdirEdges d n ti td)
    (fun x hx => by rw [hdata', if_neg hx]) hv
  have hgone : (g.dropDir d n ti td).ends x = none := by
    rw [TypeGraph.ends, Arena.view, hdata', if_pos hx]
    rfl
  rw [hgone] at hend
  replace hend := hend.resolve_right EdgeTable.not_hasEnd_none
  rcases (h.mem_rmdirEdges he td x).mp hx with rfl | ⟨t, m, hx⟩
  · rw [h.ends_entry he] at hend
    rcases EdgeTable.hasEnd_some.mp hend with rfl | rfl
    · exact EdgeTable.mem_near_of_mem hd
    · exact EdgeTable.mem_near_of_mem hi
  · rw [h.ends_entry hx] at hend
    rcases EdgeTable.hasEnd_some.mp hend with rfl | rfl
    · exact EdgeTable.mem_near_of_mem hremoved
    · -- "." leads to the removed inode and ".." to the inode of the parent
      by_cases hdot : m = "."
      · subst hdot
        have hti : g.dirInode td = some t := h.shape.dot_tgt hx
        rw [htd] at hti
        cases hti
        exact EdgeTable.mem_near_of_mem hi
      · have hdotdot : m = ".." := by
          by_contra hm
          exact hempty _ _ _ hx ⟨hdot, hm⟩
        subst hdotdot
        have hparent : g.dirInode d = some t := h.shape.dotdot htd hn he hx
        refine hinv.dirInode_near hd ?_
        rw [h.dropDir_dirInode he htd, Function.update_of_ne]
        · exact hparent
        · rintro rfl
          exact hempty _ _ _ he hn

/-- A renamed entry keeps its ends. -/
theorem covers_renameEntry (h : Inv g) {e : EdgeId} {t : InodeId} {n' : String} (S : Set NodeId)
    (he : g.entries e = some (d, t, n)) (hne : n ≠ n') :
    EdgeTable.Covers S g.ends (g.renameContainsEdge e n').2.ends := by
  have hends : (g.renameContainsEdge e n').2.ends = g.ends := by
    refine Arena.view_update_eq (h.renameEntry_edges he hne) ?_
    rw [h.entries_iff.mp he]
    rfl
  rw [hends]
  exact .refl _ _

/-- The ends after the move of an entry. -/
theorem movedEntry_ends (h : Inv g) {e : EdgeId} {p q : DirId} {t : InodeId} {n' : String}
    (hcap : g.nextEdge < EDGE_CAPACITY) : (g.movedEntry e p t n q n').ends =
      Function.update (Function.update g.ends e none) g.nextEdge (some (.directory q, .inode t)) := by
  have hremoved : (g.edges.remove e).2.view (fun edge => some edge.ends) = Function.update g.ends e none :=
    Arena.view_update (Arena.data_remove _ _)
  rw [← hremoved]
  exact Arena.view_update ((h.edgeIds.remove e).insert_data hcap _)

/-- The move of an entry shows at the moved inode and the two directories. -/
theorem mem_differ_movedEntry (h : Inv g) {e : EdgeId} {p q : DirId} {t : InodeId} {n' : String}
    (he : g.entries e = some (p, t, n)) (hcap : g.nextEdge < EDGE_CAPACITY) {v : NodeId}
    (hv : v ∈ EdgeTable.differ g.ends (g.movedEntry e p t n q n').ends) :
    v = .directory p ∨ v = .directory q ∨ v = .inode t := by
  rw [movedEntry_ends h hcap] at hv
  rcases EdgeTable.differ_trans _ (Function.update g.ends e none) _ hv with hv | hv
  · rcases EdgeTable.differ_update hv with hold | hnew
    · rw [h.ends_entry he, EdgeTable.hasEnd_some] at hold
      exact hold.imp_right .inr
    · exact absurd hnew EdgeTable.not_hasEnd_none
  · rcases EdgeTable.differ_update hv with hold | hnew
    · rw [Function.update_apply, h.ends_fresh le_rfl, ite_self] at hold
      exact absurd hold EdgeTable.not_hasEnd_none
    · exact .inr (EdgeTable.hasEnd_some.mp hnew)

/-- A move across directories: the inodes that the ".." of a moved directory leaves and reaches are one step
    from the two directories. -/
theorem covers_moveEntry (h : Inv g) {e : EdgeId} {p q : DirId} {t qi : InodeId} {n' : String}
    {S : Set NodeId} (he : g.entries e = some (p, t, n)) (hn : UserName n) (hq : g.dirInode q = some qi)
    (hfree : ∀ x t', g.entries x ≠ some (q, t', n')) (hcap : g.nextEdge < EDGE_CAPACITY)
    (hinv : Inv (g.moveEntry e p t q n')) (hp : NodeId.directory p ∈ S) (hqs : NodeId.directory q ∈ S)
    (ht : NodeId.inode t ∈ S) : EdgeTable.Covers S g.ends (g.moveEntry e p t q n').ends := by
  intro v hv _ _
  have hmoved : ∀ {v}, v ∈ EdgeTable.differ g.ends (g.movedEntry e p t n q n').ends →
      v ∈ EdgeTable.near (g.moveEntry e p t q n').ends S := by
    intro v hv
    rcases mem_differ_movedEntry h he hcap hv with rfl | rfl | rfl
    · exact EdgeTable.mem_near_of_mem hp
    · exact EdgeTable.mem_near_of_mem hqs
    · exact EdgeTable.mem_near_of_mem ht
  obtain ⟨i, hi⟩ := h.getInode_of_entry he
  by_cases hkind : i.vtype = .directory
  · obtain ⟨m, hm⟩ := h.dir_of_entry he hi hkind
    obtain ⟨x, old, hx⟩ := h.exists_dotdot hm he hn
    have heq := h.moveDirEntry_eq he hn hq hfree hcap hm hx
    have hdirs : (g.moveEntry e p t q n').dirInode = g.dirInode := by
      rw [heq]
      rfl
    have hends : (g.moveEntry e p t q n').ends = Function.update (g.movedEntry e p t n q n').ends x
        (some (.directory m, .inode qi)) := by
      rw [heq]
      exact Arena.view_update ((h.movedEntry_indexed he hcap hfree).withTarget_data qi
        (h.movedEntry_dotdot he hn hcap hx))
    have hm' : NodeId.directory m ∈ EdgeTable.near (g.moveEntry e p t q n').ends S := by
      have hstays : (g.moveEntry e p t q n').dirInode m = some t := by
        rw [hdirs]
        exact hm
      obtain ⟨y, hy⟩ := hinv.shape.dot hstays
      exact EdgeTable.mem_near_of_edge ht (.inr (hinv.ends_entry hy))
    rw [hends] at hv
    rcases EdgeTable.differ_trans _ _ _ hv with hv | hv
    · exact hmoved hv
    · rcases EdgeTable.differ_update hv with hold | hnew
      · have hold' : (g.movedEntry e p t n q n').ends x = some (.directory m, .inode old) := by
          have hdotdot : (g.movedEntry e p t n q n').entries x = some (m, old, "..") :=
            h.movedEntry_dotdot he hn hcap hx
          have hentry := (h.movedEntry_indexed he hcap hfree).entries_iff.mp hdotdot
          rw [TypeGraph.ends, Arena.view, hentry]
          rfl
        rw [hold', EdgeTable.hasEnd_some] at hold
        rcases hold with rfl | rfl
        · exact hm'
        · have hparent : g.dirInode p = some old := h.shape.dotdot hm hn he hx
          exact hinv.dirInode_near hp (by rw [hdirs]; exact hparent)
      · rcases EdgeTable.hasEnd_some.mp hnew with rfl | rfl
        · exact hm'
        · exact hinv.dirInode_near hqs (by rw [hdirs]; exact hq)
  · rw [h.moveFileEntry_eq he hi hkind] at hmoved hv ⊢
    exact hmoved hv

end Covers

/-! ### Calls -/

/-- Whether the affected nodes of a call cover it: an unlink frees no inode that has blocks, and a rename
    replaces nothing. -/
def Op.covered (g : TypeGraph) : Op → Bool
  | .unlink d n => (g.resolveName d n).all fun t =>
      (SetIndex.members g.inodePointsTo t).isEmpty || (g.getInode t).all fun i => i.linkCount != 1
  | .rename sd sn dd dn => (decide (sd = dd) && decide (sn = dn)) || (g.resolveName dd dn).isNone
  | _ => true

section Calls

variable {now : Nat → Timestamp} {g : TypeGraph}

/-- A call that succeeded did not fail. -/
theorem Outcome.Failed.false_of_ok {α : Type} {o : Outcome α} (hfail : o.Failed) {f : α → Reply}
    {reply : Reply} (hok : o.map f = .ok reply) : False := Outcome.map_ne_ok hfail f reply hok

/-- An unlink that frees no inode that has blocks takes one edge away. -/
theorem unlink_data (h : Inv g) {d : DirId} {n : String} {a : Unit} {g' : TypeGraph}
    (hok : unlink now d n g = (.ok a, g')) (hcovered : (Op.unlink d n).covered g = true) :
    ∃ e t, g.entries e = some (d, t, n) ∧ g'.edges.data = Function.update g.edges.data e none := by
  rcases unlink_spec now d n h with
    ⟨o, hfail, heq⟩ | ⟨e, t, i, hn, he, hi, hkind, ⟨_, _, l, heq⟩ | ⟨hlast, _, q, l, heq⟩⟩
  · rw [hok] at heq
    cases heq
    exact absurd rfl (hfail a)
  · rw [hok] at heq
    cases heq
    refine ⟨e, t, he, ?_⟩
    rw [h.dropName_eq he]
    exact Arena.data_remove _ _
  · rw [hok] at heq
    cases heq
    refine ⟨e, t, he, ?_⟩
    have hname : g.resolveName d n = some t := h.resolveName_iff.mpr ⟨e, he⟩
    have hone := h.linkCount_eq_one he hn hi hlast
    have hblocks : ∀ x, x ∉ SetIndex.members g.inodePointsTo t := by
      simp only [Op.covered, hname, hi, Option.all_some, hone, bne_self_eq_false, Bool.or_false] at hcovered
      intro x hx
      rw [ExtTreeSet.isEmpty_iff.mp hcovered] at hx
      exact ExtTreeSet.not_mem_empty hx
    obtain ⟨edges, _, hcollect, _, _, _, hdata⟩ := (h.dropName he hn hi hkind).collectInode_eq t
    have hpointers : (g.dropName e d t).inodePointsTo = g.inodePointsTo := by rw [h.dropName_eq he]
    have hremoved : (g.dropName e d t).edges.data = Function.update g.edges.data e none := by
      rw [h.dropName_eq he]
      exact Arena.data_remove _ _
    funext x
    change (g.dropLastName e d t).edges.data x = _
    rw [TypeGraph.dropLastName, hcollect, ← hremoved]
    change edges.data x = _
    rw [hdata x, hpointers, if_neg (hblocks x)]

/-- The affected nodes of a call that succeeded cover it. -/
theorem Op.covers (h : Inv g) {op : Op} {reply : Reply} {affected : AffectedNodes}
    (hcall : InCapacityCall g op (op.apply now g).2) (hok : (op.apply now g).1 = .ok reply)
    (haffected : op.affectedNodes g reply = some affected) (hcovered : op.covered g = true) :
    EdgeTable.Covers {s | s ∈ affected.nodes} g.ends (op.apply now g).2.ends := by
  obtain ⟨hdirs, hacc⟩ := hcall
  have hfits := hacc.fits h
  have hinv := Op.apply_inv now op h hdirs hacc
  cases op with
  | createFile d n u gr p =>
      rcases createFile_spec h (hdirs d (by simp [Op.dirs])) hfits with
        ⟨o, hfail, heq⟩ | ⟨_, _, _, he, _, q, l, heq⟩
      · rw [Op.apply, heq] at hok
        exact (hfail.false_of_ok hok).elim
      · rw [Op.apply, heq] at hok ⊢
        cases hok
        cases haffected
        exact covers_newEntry h (h.enterInode_edges he) (AffectedNodes.mem_pair.mpr (.inl rfl))
          (AffectedNodes.mem_pair.mpr (.inr rfl))
  | mkdir d n u gr p =>
      rcases mkdir_spec h (hdirs d (by simp [Op.dirs])) hfits with
        ⟨o, hfail, heq⟩ | ⟨_, _, _, hdir, he, di, hdi, hentered, q, l, heq⟩
      · rw [Op.apply, heq] at hok
        exact (hfail.false_of_ok hok).elim
      · rw [Op.apply, heq] at hok ⊢
        cases hok
        cases haffected
        have hnew : d ≠ g.nextDir := by
          rintro rfl
          rw [h.dirInode_fresh le_rfl] at hdi
          cases hdi
        have hupdate : (g.enterDir (madeDirInode now g u gr p) d di n).dirInode =
            Function.update g.dirInode g.nextDir (some g.nextInode) :=
          Arena.view_update (h.dirIds.insert_data hdir _)
        have hdi' : (g.enterDir (madeDirInode now g u gr p) d di n).dirInode d = some di := by
          rw [hupdate, Function.update_of_ne hnew]
          exact hdi
        have hcovers : EdgeTable.Covers {s | s ∈ (affectedNodesMkdir d g.nextInode g.nextDir).nodes} g.ends
            (g.enterDir (madeDirInode now g u gr p) d di n).ends :=
          covers_enterDir h he hentered hdi' (AffectedNodes.mem_triple.mpr (.inl rfl))
            (AffectedNodes.mem_triple.mpr (.inr (.inl rfl))) (AffectedNodes.mem_triple.mpr (.inr (.inr rfl)))
        exact hcovers
  | rmdir d n =>
      rcases rmdir_spec now d n h with
        ⟨o, hfail, heq⟩ | ⟨e, ti, td, hn, he, htd, hempty, hremoved, q, l, heq⟩
      · rw [Op.apply, heq] at hok
        exact (hfail.false_of_ok hok).elim
      · have hname : g.resolveName d n = some ti := h.resolveName_iff.mpr ⟨e, he⟩
        have hdir : g.dirForInode ti = some td := h.dirForInode_iff.mpr htd
        rw [Op.apply, heq] at hok ⊢
        cases hok
        simp only [Op.affectedNodes, hname, Option.bind_some, hdir, Option.map_some,
          Option.some.injEq] at haffected
        subst haffected
        exact covers_dropDir h he hn htd hempty hremoved (AffectedNodes.mem_triple.mpr (.inl rfl))
          (AffectedNodes.mem_triple.mpr (.inr (.inl rfl))) (AffectedNodes.mem_triple.mpr (.inr (.inr rfl)))
  | link d n t =>
      rcases link_spec h (hdirs d (by simp [Op.dirs])) hfits with
        ⟨o, hfail, heq⟩ | ⟨_, _, he, _, _, _, _, l, heq⟩
      · rw [Op.apply, heq] at hok
        exact (hfail.false_of_ok hok).elim
      · rw [Op.apply, heq] at hok ⊢
        cases hok
        cases haffected
        exact covers_newEntry h (h.enterLink_edges he) (AffectedNodes.mem_pair.mpr (.inl rfl))
          (AffectedNodes.mem_pair.mpr (.inr rfl))
  | unlink d n =>
      cases hr : SotFs.unlink now d n g with
      | mk o g' =>
          rw [Op.apply, hr] at hok ⊢
          cases o with
          | ok a =>
              cases hok
              obtain ⟨e, t, he, hdata⟩ := unlink_data h hr hcovered
              have hname : g.resolveName d n = some t := h.resolveName_iff.mpr ⟨e, he⟩
              simp only [Op.affectedNodes, hname, Option.map_some, Option.some.injEq] at haffected
              subst haffected
              exact covers_droppedEntry h he hdata (AffectedNodes.mem_pair.mpr (.inl rfl))
                (AffectedNodes.mem_pair.mpr (.inr rfl))
          | _ => cases hok
  | rename sd sn dd dn =>
      rcases rename_spec now sd sn dd dn h with ⟨o, hfail, heq⟩ | ⟨hsrc, hdst, g', hren, heq⟩
      · rw [Op.apply, heq] at hok
        exact (hfail.false_of_ok hok).elim
      · rw [Op.apply, heq] at hok hfits hinv ⊢
        cases hok
        have hfree : (sd, sn) ≠ (dd, dn) → g.resolveName dd dn = none := by
          intro hne
          simp only [Op.covered, Bool.or_eq_true, Bool.and_eq_true, decide_eq_true_eq,
            Option.isNone_iff_eq_none] at hcovered
          exact hcovered.resolve_left fun hsame => hne (Prod.ext hsame.1 hsame.2)
        cases hren with
        | same => exact .refl _ _
        | @inPlace e t g₁ hdir hne he hremove hcleared =>
            rw [hfree fun hpair => hne (congrArg Prod.snd hpair)] at hremove
            cases hremove
            exact covers_renameEntry h _ he hne
        | @moved e t g₁ hne he hcycle hremove hcleared he' =>
            rw [hfree fun hpair => hne (congrArg Prod.fst hpair)] at hremove
            cases hremove
            have hname : g.resolveName sd sn = some t := h.resolveName_iff.mpr ⟨e, he⟩
            simp only [Op.affectedNodes, hname, Option.map_some, Option.some.injEq] at haffected
            subst haffected
            obtain ⟨qi, hq⟩ := h.liveDir_iff.mp (hdirs dd (by simp [Op.dirs]))
            have hcap : g.nextEdge < EDGE_CAPACITY := by
              have hle := hfits.nextEdge_le
              change (g.moveEntry e sd t dd dn).nextEdge ≤ _ at hle
              rwa [h.moveEntry_nextEdge he] at hle
            exact covers_moveEntry h he hsrc hq hcleared.free hcap
              (hinv.withSettled (g.moveEntry e sd t dd dn).quotas (g.moveEntry e sd t dd dn).provLog)
              (AffectedNodes.mem_triple.mpr (.inl rfl)) (AffectedNodes.mem_triple.mpr (.inr (.inl rfl)))
              (AffectedNodes.mem_triple.mpr (.inr (.inr rfl)))
  | writeBlock i offset start count =>
      rcases writeBlock_cases i offset start count g with ⟨o, hfail, heq⟩ | ⟨_, _, heq⟩
      · rw [Op.apply, heq] at hok
        exact (hfail.false_of_ok hok).elim
      · rw [Op.apply, heq] at hok hfits ⊢
        cases hok
        cases haffected
        intro v hv _ _
        have hends : (g.attachBlock i offset start count).ends =
            Function.update g.ends g.nextEdge (some (.inode i, .inode g.nextBlock)) :=
          Arena.view_update (h.edgeIds.insert_data hfits.nextEdge_le _)
        have hi : NodeId.inode i ∈ {s | s ∈ (affectedNodesWriteBlock i g.nextBlock).nodes} :=
          AffectedNodes.mem_pair.mpr (.inl rfl)
        change v ∈ EdgeTable.near (g.attachBlock i offset start count).ends _
        change v ∈ EdgeTable.differ g.ends (g.attachBlock i offset start count).ends at hv
        rw [hends] at hv ⊢
        rcases EdgeTable.differ_update hv with hold | hnew
        · rw [h.ends_fresh le_rfl] at hold
          exact absurd hold EdgeTable.not_hasEnd_none
        · rcases EdgeTable.hasEnd_some.mp hnew with rfl | rfl
          · exact EdgeTable.mem_near_of_mem hi
          · exact EdgeTable.mem_near_of_edge hi (.inl (Function.update_self _ _ _))
  | _ => cases haffected

/-- Calls on contents, attributes and quotas change no edge. -/
theorem Op.edges_of_keepsEdges {op : Op} (hkeeps : op.keepsEdges = true) (now : Nat → Timestamp)
    (g : TypeGraph) : (op.apply now g).2.edges = g.edges := by
  cases op with
  | writeData t offset data =>
      rcases writeData_cases now t offset data g with ⟨e, heq⟩ | ⟨_, _, _, ⟨buf, heq⟩ | ⟨buf, heq⟩⟩
      all_goals
        rw [Op.apply, heq]
        rfl
  | truncate t newSize =>
      rcases truncate_cases now t newSize g with ⟨e, heq⟩ | ⟨_, _, _, ⟨buf, heq⟩ | heq⟩
      all_goals
        rw [Op.apply, heq]
        rfl
  | chmod t mode =>
      rcases chmod_cases now t mode g with ⟨o, _, heq⟩ | ⟨_, heq⟩
      all_goals
        rw [Op.apply, heq]
        rfl
  | chown t u gr =>
      rcases chown_cases now t u gr g with ⟨o, _, heq⟩ | ⟨_, heq⟩
      all_goals
        rw [Op.apply, heq]
        rfl
  | setQuota d il bl =>
      rcases setQuota_cases d il bl g with ⟨o, _, heq⟩ | ⟨_, _, heq⟩
      all_goals
        rw [Op.apply, heq]
        rfl
  | _ => cases hkeeps

end Calls

/-! ### Reports that are kept up to date -/

/-- In exact arithmetic a report depends on its edges alone: the running mean and the running sum of squared
    distances are those of two passes. -/
theorem recomputeIncremental_eq {K : Type} [Field K] [LinearOrder K] [IsStrictOrderedRing K]
    {fns : RealFunctions K} {formula : CurvatureFormula K} {g : TypeGraph} {nodes : List NodeId}
    {report : CurvatureReport K}
    (hedges : recomputedEdges formula g nodes report.edges = curvatureEdges formula g) :
    recomputeIncremental fns formula g nodes report = computeAllCurvatures fns formula g := by
  unfold recomputeIncremental computeAllCurvatures
  rw [hedges]
  generalize hlist : curvatureEdges formula g = edges
  dsimp only
  have hlength : (edges.map EdgeCurvature.kappa).length = edges.length := List.length_map _
  generalize edges.map EdgeCurvature.kappa = kappas at hlength
  have hsum : ∀ xs : List K, xs.foldl (· + ·) ((0 : Nat) : K) = xs.sum := by
    intro xs
    rw [Nat.cast_zero, List.sum_eq_foldl]
  rw [foldl_min_eq, foldl_max_eq, RunningMoments.count_ofList, hlength]
  by_cases hempty : edges = []
  · subst hempty
    rfl
  · have hne : edges.length ≠ 0 := fun hzero => hempty (List.length_eq_zero_iff.mp hzero)
    have hkappas : kappas ≠ [] := by
      rintro rfl
      exact hne hlength.symm
    have hmean : (RunningMoments.ofList kappas).mean =
        kappas.foldl (· + ·) ((0 : Nat) : K) / (edges.length : Nat) := by
      rw [hsum, RunningMoments.mean_ofList hkappas, hlength]
    have hfilled : edges.isEmpty = false := by simpa using hempty
    simp only [hne, hfilled, if_false, Bool.false_eq_true, RunningMoments.m2_ofList, hmean, hsum]

section Monitored

variable {K : Type}

section Edges

variable [Add K] [Sub K] [Mul K] [Div K] [NatCast K] [LT K] [DecidableLT K] {fns : RealFunctions K}
  {formula : CurvatureFormula K} {g : TypeGraph} {report : CurvatureReport K}

@[simp] theorem recomputeIncremental_edges {nodes : List NodeId} :
    (recomputeIncremental fns formula g nodes report).edges = recomputedEdges formula g nodes report.edges := rfl

@[simp] theorem computeAllCurvatures_edges [Min K] [Max K] :
    (computeAllCurvatures fns formula g).edges = curvatureEdges formula g := rfl

/-- In every arithmetic a report that is updated from the affected nodes of covered calls has the edges that a
    full scan would give. -/
theorem monitored_edges [Min K] [Max K]
    (hrun : Monitored fns formula (fun g op => op.covered g = true) g report) :
    Inv g ∧ report.edges = curvatureEdges formula g := by
  induction hrun with
  | scan hg => exact ⟨hg.inv, rfl⟩
  | @keep g report now op _ hcall hkeeps ih =>
      obtain ⟨h, hreport⟩ := ih
      refine ⟨Op.apply_inv now op h hcall.1 hcall.2, hreport.trans (curvatureEdges_congr ?_).symm⟩
      rcases hkeeps with hkeeps | ⟨e, herr⟩
      · exact Op.edges_of_keepsEdges hkeeps now g
      · rw [h.keptOnErr op e herr]
  | @update g report now op reply affected _ hcall hok haffected hcovered ih =>
      obtain ⟨h, hreport⟩ := ih
      refine ⟨Op.apply_inv now op h hcall.1 hcall.2, ?_⟩
      rw [recomputeIncremental_edges, hreport]
      exact recomputedEdges_eq (Op.covers h hcall hok haffected hcovered)
  | setCapCtx ctx _ ih => exact ⟨ih.1.withSides _ _ _ _ _ _, ih.2⟩

end Edges

/-- The incremental scan is exact: in exact arithmetic a report that is updated from the affected nodes of
    covered calls is the one a full scan would give, with its mean, extremes and anomalies. -/
theorem monitored_report [Field K] [LinearOrder K] [IsStrictOrderedRing K] {fns : RealFunctions K}
    {formula : CurvatureFormula K} {g : TypeGraph} {report : CurvatureReport K}
    (hrun : Monitored fns formula (fun g op => op.covered g = true) g report) :
    report = computeAllCurvatures fns formula g := by
  have hedges := monitored_edges hrun
  induction hrun with
  | scan hg => rfl
  | @keep g report now op hbefore hcall hkeeps ih =>
      obtain ⟨h, _⟩ := monitored_edges hbefore
      have hkept : (op.apply now g).2.edges = g.edges := by
        rcases hkeeps with hkeeps | ⟨e, herr⟩
        · exact Op.edges_of_keepsEdges hkeeps now g
        · rw [h.keptOnErr op e herr]
      have hscan : curvatureEdges formula (op.apply now g).2 = curvatureEdges formula g :=
        curvatureEdges_congr hkept
      rw [ih (monitored_edges hbefore), computeAllCurvatures, computeAllCurvatures, hscan]
  | update => exact recomputeIncremental_eq hedges.2
  | setCapCtx ctx hbefore ih => exact ih (monitored_edges hbefore)

end Monitored

/-- A report from an empty filesystem on, through the making of a directory and a file, with the formula of the
    source and laziness one half, in the reals. -/
theorem monitored_report_made :
    let g := (TypeGraph.new 0).calls (fun _ => 0) [.mkdir 1 "p" 0 0 .dirDefault]
    let g' := g.calls (fun _ => 0) [.createFile 2 "x" 0 0 .fileDefault]
    let fns : RealFunctions Real := ⟨Real.sqrt, fun x => |x|⟩
    let formula := ollivierRicci (1 / 2 : Real)
    let report := recomputeIncremental fns formula g (affectedNodesMkdir 1 2 2).nodes
      (computeAllCurvatures fns formula (.new 0))
    recomputeIncremental fns formula g' (affectedNodesCreate 2 3).nodes report =
      computeAllCurvatures fns formula g' :=
  monitored_report (.update (fun _ => 0) (.createFile 2 "x" 0 0 .fileDefault) (.inode 3) _
    (.update (fun _ => 0) (.mkdir 1 "p" 0 0 .dirDefault) (.created ⟨2, some 2⟩) _
      (.scan (.new 0)) (by decide) (by decide +kernel) rfl rfl)
    (by decide) (by decide +kernel) rfl rfl)

/-- The degrees of the ends of an edge as its curvature. -/
def degreeFormula : CurvatureFormula Rat := ⟨fun degU degV _ _ _ => 100 * degU + degV, 0⟩

/-- Three directories one below the other, with a file in the last. -/
def deepCalls : List Op :=
  [.createFile 1 "x" 0 0 .fileDefault, .mkdir 1 "p" 0 0 .dirDefault, .mkdir 2 "q" 0 0 .dirDefault,
    .mkdir 3 "r" 0 0 .dirDefault, .link 4 "x" 2]

/-- An unlink that frees blocks 1 and 2: the edge to block 2 was one of the neighbors of inode 2. -/
theorem monitored_stale_unlink :
    let g := (TypeGraph.new 0).calls (fun _ => 0)
      (deepCalls ++ [.unlink 1 "x", .createFile 1 "f" 0 0 .fileDefault, .writeBlock 6 0 0 8,
        .writeBlock 6 4096 8 8])
    let g' := g.calls (fun _ => 0) [.unlink 1 "f"]
    ∀ fns, ∃ report, Monitored fns degreeFormula (fun _ _ => True) g' report ∧
      report.edges ≠ curvatureEdges degreeFormula g' :=
  fun _ => ⟨_, .update (fun _ => 0) (.unlink 1 "f") .done (affectedNodesUnlink 1 6)
    (.scan (Run.calls _ (.new 0) (by decide))) (by decide) (by decide +kernel) rfl trivial, by
      rw [recomputeIncremental_edges, computeAllCurvatures_edges]
      decide +kernel⟩

/-- A rename that replaces a name of a file with another: the file keeps its other edge. -/
theorem monitored_stale_rename :
    let g := (TypeGraph.new 0).calls (fun _ => 0) (deepCalls ++ [.createFile 1 "f" 0 0 .fileDefault])
    let g' := g.calls (fun _ => 0) [.rename 1 "f" 1 "x"]
    ∀ fns, ∃ report, Monitored fns degreeFormula (fun _ _ => True) g' report ∧
      report.edges ≠ curvatureEdges degreeFormula g' :=
  fun _ => ⟨_, .update (fun _ => 0) (.rename 1 "f" 1 "x") .done (affectedNodesRename 1 1 6)
    (.scan (Run.calls _ (.new 0) (by decide))) (by decide) (by decide +kernel) rfl trivial, by
      rw [recomputeIncremental_edges, computeAllCurvatures_edges]
      decide +kernel⟩

end SotFs
