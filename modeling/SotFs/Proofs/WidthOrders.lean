/-
Module: SotFs.Proofs.WidthOrders
Layer: Proofs
Purpose: The order behind the number of compute_treewidth. The elimination takes out one vertex a turn until
  none is left, and its result is the width of that order in the graph of the edges as they are tagged. The
  tags leave every block without neighbours, so the same is said of the graph in which block edges lead to
  their blocks only where the blocks are pendant: no id is taken for an inode's, no block is shared, and some
  other edge is there if there is a block edge.
Trusted boundary: none
Main exports: greedyOrder, TypeGraph.joinGraph, isEliminationWidth_tgtNode, TypeGraph.BlocksOwned,
  computeTreewidth_orders
-/
import SotFs.Proofs.Treewidths
import SotFs.Proofs.Dangling
import SotFs.Foundation.EliminationOrder

namespace SotFs

open Std (ExtTreeMap ExtTreeSet)
open Foundation

/-! ### The order of the elimination -/

/-- The vertices that the elimination takes out, in the order of its turns. -/
def greedyOrder : Nat → Adjacency → List Nat → List Nat
  | 0, _, _ => []
  | fuel + 1, adj, remaining =>
      match remaining.argmin fun u => (adj.neighbors remaining u).length with
      | none => []
      | some v => v :: greedyOrder fuel (adj.fill (adj.neighbors remaining v)) (remaining.erase v)

section Greedy

/-- A turn takes out one vertex, so there are as many turns as vertices. -/
theorem length_greedyOrder (fuel : Nat) : ∀ (adj : Adjacency) (remaining : List Nat),
    (greedyOrder fuel adj remaining).length = min fuel remaining.length := by
  induction fuel with
  | zero => exact fun _ _ => (Nat.zero_min _).symm
  | succ fuel ih =>
      intro adj remaining
      rw [greedyOrder]
      split
      · rename_i hmin
        rw [List.argmin_eq_none.mp hmin]
        rfl
      · rename_i v hmin
        have hv : v ∈ remaining := List.argmin_mem hmin
        have hpos := List.length_pos_of_mem hv
        rw [List.length_cons, ih, List.length_erase_of_mem hv]
        omega

theorem greedyOrder_perm (fuel : Nat) : ∀ (adj : Adjacency) {remaining : List Nat},
    remaining.length ≤ fuel → (greedyOrder fuel adj remaining).Perm remaining := by
  induction fuel with
  | zero =>
      intro adj remaining hfuel
      rw [List.length_eq_zero_iff.mp (Nat.le_zero.mp hfuel)]
      rfl
  | succ fuel ih =>
      intro adj remaining hfuel
      rw [greedyOrder]
      split
      · rename_i hmin
        rw [List.argmin_eq_none.mp hmin]
      · rename_i v hmin
        have hv : v ∈ remaining := List.argmin_mem hmin
        have hrest : (remaining.erase v).length ≤ fuel := by
          rw [List.length_erase_of_mem hv]
          omega
        exact ((ih _ hrest).cons v).trans (List.perm_cons_erase hv).symm

/-- The degree of a turn is the number of later neighbours of its vertex. -/
theorem Adjacency.Shows.countP_erase {adj : Adjacency} {remaining : List Nat} {G : SimpleGraph Nat}
    [DecidableRel G.Adj] (h : adj.Shows remaining G) (hnodup : remaining.Nodup) {v : Nat}
    (hv : v ∈ remaining) :
    (remaining.erase v).countP (fun u => G.Adj v u) = (adj.neighbors remaining v).length := by
  rw [List.countP_eq_length_filter]
  refine List.Perm.length_eq ((List.perm_ext_iff_of_nodup ((hnodup.erase v).filter _)
    (Adjacency.nodup_neighbors v)).mpr fun u => ?_)
  rw [List.mem_filter, hnodup.mem_erase_iff, Adjacency.mem_neighbors, decide_eq_true_eq]
  constructor
  · rintro ⟨⟨_, hu⟩, hvu⟩
    exact ⟨(h v hv u hu).mpr hvu, hu⟩
  · rintro ⟨hvu, hu⟩
    have hadj := (h v hv u hu).mp hvu
    exact ⟨⟨hadj.ne', hu⟩, hadj⟩

/-- The elimination returns the largest degree of its order. By induction on the turns. -/
theorem greedyWidth_laterDegrees (fuel : Nat) : ∀ {adj : Adjacency} {remaining : List Nat}
    {G : SimpleGraph Nat} (maxWidth : Nat), remaining.length ≤ fuel → remaining.Nodup →
    adj.Shows remaining G →
    (∀ d ∈ laterDegrees G (greedyOrder fuel adj remaining), d ≤ greedyWidth fuel adj remaining maxWidth) ∧
    (greedyWidth fuel adj remaining maxWidth = maxWidth ∨
      greedyWidth fuel adj remaining maxWidth ∈ laterDegrees G (greedyOrder fuel adj remaining)) := by
  classical
  induction fuel with
  | zero => exact fun _ _ _ _ => ⟨fun _ hd => absurd hd List.not_mem_nil, .inl rfl⟩
  | succ fuel ih =>
      intro adj remaining G maxWidth hfuel hnodup hshows
      rw [greedyOrder, greedyWidth]
      cases hmin : remaining.argmin fun u => (adj.neighbors remaining u).length with
      | none => exact ⟨fun _ hd => absurd hd List.not_mem_nil, .inl rfl⟩
      | some v =>
          have hv : v ∈ remaining := List.argmin_mem hmin
          have hrest : (remaining.erase v).length ≤ fuel := by
            rw [List.length_erase_of_mem hv]
            omega
          let degree := (adj.neighbors remaining v).length
          obtain ⟨hle, hmax⟩ := ih (max maxWidth degree) hrest (hnodup.erase v) (hshows.fill hv)
          have hdegree : (greedyOrder fuel (adj.fill (adj.neighbors remaining v)) (remaining.erase v)).countP
              (fun u => G.Adj v u) = degree := by
            rw [(greedyOrder_perm fuel _ hrest).countP_eq]
            exact hshows.countP_erase hnodup hv
          have hlast := le_greedyWidth fuel (adj.fill (adj.neighbors remaining v)) (remaining.erase v)
            (max maxWidth degree)
          dsimp only
          rw [laterDegrees, hdegree]
          refine ⟨List.forall_mem_cons.mpr ⟨(le_max_right _ _).trans hlast, hle⟩, ?_⟩
          rcases hmax with hmax | hmax
          · rcases max_choice maxWidth degree with heq | heq
            · exact .inl (hmax.trans heq)
            · exact .inr (List.mem_cons.mpr (.inl (hmax.trans heq)))
          · exact .inr (List.mem_cons_of_mem _ hmax)

end Greedy

/-! ### The graph of the edges -/

/-- The undirected graph of the edges, each leading from its source to the node that `tgt` says. -/
def TypeGraph.joinGraph (g : TypeGraph) (tgt : Edge → NodeId) : SimpleGraph NodeId where
  Adj n m := n ≠ m ∧ ∃ e v, g.edges.data e = some v ∧
    ((v.srcNode = n ∧ tgt v = m) ∨ (v.srcNode = m ∧ tgt v = n))
  symm := ⟨by
    rintro n m ⟨hne, e, v, hv, hends⟩
    exact ⟨hne.symm, e, v, hv, hends.symm⟩⟩
  loopless := ⟨fun _ h => h.1 rfl⟩

/-- No two live inodes point to one live block. -/
def TypeGraph.BlocksOwned (g : TypeGraph) : Prop :=
  ∀ {x y t t' b o o'}, g.edges.view Edge.pointer x = some (t, b, o) →
    g.edges.view Edge.pointer y = some (t', b, o') → (g.inodes.data t).isSome → (g.inodes.data t').isSome →
    (g.blocks.data b).isSome → t = t'

/-- If a block edge joins two nodes of the skeleton, an edge of another kind does too. -/
def TypeGraph.BesidesBlocks (g : TypeGraph) : Prop :=
  (∃ x t b o, g.edges.view Edge.pointer x = some (t, b, o) ∧ (g.inodes.data t).isSome ∧
    (g.blocks.data b).isSome) →
  ∃ e v, g.edges.data e = some v ∧ v.pointer = none ∧ v.srcNode ≠ v.tgtNode ∧
    v.srcNode ∈ g.skeletonNodes ∧ v.tgtNode ∈ g.skeletonNodes

/-- A block. -/
def NodeId.IsBlock : NodeId → Prop
  | .block _ => True
  | _ => False

instance : (n : NodeId) → Decidable n.IsBlock
  | .block _ => .isTrue trivial
  | .inode _ | .directory _ | .capability _ | .transaction _ | .version _ | .xattr _ => .isFalse id

section Orders

variable {g : TypeGraph}

theorem TypeGraph.map_skeletonNodes (g : TypeGraph) :
    (List.range g.skeletonNodes.length).map (fun u => (g.skeletonNodes[u]?).getD (.inode 0)) =
      g.skeletonNodes := by
  refine List.ext_getElem (by simp) fun i hi hi' => ?_
  rw [List.getElem_map, List.getElem_range, List.getElem?_eq_getElem hi', Option.getD_some]

/-- The skeleton is the graph of the edges as they are tagged. -/
theorem TypeGraph.skeletonGraph_adj_iff {u w : Nat} {n m : NodeId} (hn : g.skeletonNodes[u]? = some n)
    (hm : g.skeletonNodes[w]? = some m) :
    g.skeletonGraph.Adj u w ↔ (g.joinGraph Edge.tgtNode).Adj n m := by
  have hne : u ≠ w ↔ n ≠ m := by
    refine not_congr ⟨fun heq => ?_, fun heq => ?_⟩
    · subst heq
      exact Option.some.inj (hn.symm.trans hm)
    · subst heq
      obtain ⟨_, hu⟩ := List.getElem?_eq_some_iff.mp hn
      obtain ⟨_, hw⟩ := List.getElem?_eq_some_iff.mp hm
      exact g.skeletonNodes_nodup.getElem_inj_iff.mp (hu.trans hw.symm)
  refine and_congr hne ⟨?_, ?_⟩
  · rintro ⟨n', m', hn', hm', hjoined⟩
    cases hn.symm.trans hn'
    cases hm.symm.trans hm'
    rcases hjoined with ⟨e, v, hv, hsrc, htgt⟩ | ⟨e, v, hv, hsrc, htgt⟩
    · exact ⟨e, v, hv, .inl ⟨hsrc, htgt⟩⟩
    · exact ⟨e, v, hv, .inr ⟨hsrc, htgt⟩⟩
  · rintro ⟨e, v, hv, ⟨hsrc, htgt⟩ | ⟨hsrc, htgt⟩⟩
    · exact ⟨n, m, hn, hm, .inl ⟨e, v, hv, hsrc, htgt⟩⟩
    · exact ⟨n, m, hn, hm, .inr ⟨e, v, hv, hsrc, htgt⟩⟩

/-- The result is the width of an order: what compute_treewidth returns is the width of the order of its
    turns, in the graph of the edges as they are tagged. -/
theorem isEliminationWidth_tgtNode (g : TypeGraph) :
    IsEliminationWidth (g.joinGraph Edge.tgtNode) g.skeletonNodes (computeTreewidth g) := by
  let n := g.skeletonNodes.length
  let order := greedyOrder n g.skeleton (List.range n)
  have hperm : order.Perm (List.range n) := greedyOrder_perm n _ (List.length_range).le
  obtain ⟨hle, hmax⟩ := greedyWidth_laterDegrees n 0 (List.length_range).le List.nodup_range
    (skeleton_shows g (List.range n))
  let node : Nat → NodeId := fun u => (g.skeletonNodes[u]?).getD (.inode 0)
  have hnode : ∀ u ∈ order, g.skeletonNodes[u]? = some (node u) := by
    intro u hu
    have hlt := List.mem_range.mp (hperm.mem_iff.mp hu)
    rw [List.getElem?_eq_getElem hlt]
    dsimp only [node]
    rw [List.getElem?_eq_getElem hlt, Option.getD_some]
  have hinj : ∀ a ∈ order, ∀ b ∈ order, node a = node b → a = b := by
    intro a ha b hb heq
    have ha' := hnode a ha
    rw [heq] at ha'
    obtain ⟨_, ha'⟩ := List.getElem?_eq_some_iff.mp ha'
    obtain ⟨_, hb'⟩ := List.getElem?_eq_some_iff.mp (hnode b hb)
    exact g.skeletonNodes_nodup.getElem_inj_iff.mp (ha'.trans hb'.symm)
  have hdegrees : laterDegrees (g.joinGraph Edge.tgtNode) (order.map node) = laterDegrees g.skeletonGraph order :=
    laterDegrees_map order hinj fun a ha b hb => TypeGraph.skeletonGraph_adj_iff (hnode a ha) (hnode b hb)
  refine ⟨order.map node, ?_, ?_, fun hne => ?_⟩
  · exact (hperm.map node).trans (.of_eq g.map_skeletonNodes)
  · rw [hdegrees]
    exact hle
  · rw [hdegrees]
    rcases hmax with hzero | hmem
    · -- the first degree is zero too
      have hpos : (laterDegrees g.skeletonGraph order).length ≠ 0 := by
        rw [length_laterDegrees, hperm.length_eq, List.length_range]
        exact fun hnil => hne (List.length_eq_zero_iff.mp hnil)
      obtain ⟨d, hd⟩ := List.exists_mem_of_length_pos (Nat.pos_of_ne_zero hpos)
      have hdzero : d = computeTreewidth g := (Nat.le_zero.mp ((hle d hd).trans_eq hzero)).trans hzero.symm
      exact hdzero ▸ hd
    · exact hmem

/-- As they are tagged, edges lead neither from nor to a block. -/
theorem TypeGraph.not_adj_block {n m : NodeId} (hblock : n.IsBlock) :
    ¬ (g.joinGraph Edge.tgtNode).Adj n m := by
  rintro ⟨_, e, v, _, ⟨rfl, _⟩ | ⟨_, rfl⟩⟩
  · cases v <;> exact hblock
  · cases v <;> exact hblock

/-- An edge that leads to a block is a block edge. -/
theorem Edge.pointer_of_isBlock {v : Edge} (hblock : v.leadsTo.IsBlock) :
    ∃ t b o, v.pointer = some (t, b, o) ∧ v.srcNode = .inode t ∧ v.leadsTo = .block b := by
  cases v with
  | pointsTo id t b o => exact ⟨t, b, o, rfl, rfl, rfl⟩
  | _ => exact hblock.elim

theorem Edge.srcNode_not_isBlock (v : Edge) : ¬ v.srcNode.IsBlock := by
  cases v <;> exact not_false

theorem Edge.leadsTo_of_pointer_none {v : Edge} (hnone : v.pointer = none) : v.leadsTo = v.tgtNode := by
  cases v with
  | pointsTo id t b o => cases hnone
  | _ => rfl

theorem Edge.pointer_of_not_isBlock {v : Edge} (hblock : ¬ v.leadsTo.IsBlock) : v.pointer = none := by
  cases v with
  | pointsTo id t b o => exact absurd trivial hblock
  | _ => rfl

/-- A live block is joined to a live inode by a block edge. -/
theorem TypeGraph.exists_pointer {n m : NodeId} (hadj : (g.joinGraph Edge.leadsTo).Adj n m)
    (hblock : n.IsBlock) (hn : n ∈ g.skeletonNodes) (hm : m ∈ g.skeletonNodes) :
    ∃ x t s o, g.edges.view Edge.pointer x = some (t, s, o) ∧ (g.inodes.data t).isSome ∧
      (g.blocks.data s).isSome ∧ m = .inode t ∧ n = .block s := by
  obtain ⟨_, x, v, hv, ⟨rfl, _⟩ | ⟨rfl, rfl⟩⟩ := hadj
  · exact absurd hblock v.srcNode_not_isBlock
  · obtain ⟨t, s, o, hpointer, hsrc, hleads⟩ := Edge.pointer_of_isBlock hblock
    rw [hsrc] at hm
    rw [hleads] at hn
    obtain ⟨i, hi⟩ := TypeGraph.mem_skeletonNodes.mp hm
    obtain ⟨j, hj⟩ := TypeGraph.mem_skeletonNodes.mp hn
    exact ⟨x, t, s, o, Arena.view_eq_some.mpr ⟨v, hv, hpointer⟩, by rw [hi]; rfl, by rw [hj]; rfl, hsrc, hleads⟩

/-- What a live block is joined to is its one live owner. -/
theorem TypeGraph.BlocksOwned.unique (hown : g.BlocksOwned) {n a b : NodeId} (hblock : n.IsBlock)
    (hn : n ∈ g.skeletonNodes) (ha : a ∈ g.skeletonNodes) (hb : b ∈ g.skeletonNodes)
    (hna : (g.joinGraph Edge.leadsTo).Adj n a) (hnb : (g.joinGraph Edge.leadsTo).Adj n b) : a = b := by
  obtain ⟨x, t, s, o, hx, ht, hs, rfl, rfl⟩ := TypeGraph.exists_pointer hna hblock hn ha
  obtain ⟨y, t', s', o', hy, ht', _, rfl, heq⟩ := TypeGraph.exists_pointer hnb hblock hn hb
  cases heq
  rw [hown hx hy ht ht' hs]

/-- Blocks apart, an edge that joins two live nodes as it is tagged is no block edge. -/
theorem TypeGraph.BlocksApart.pointer_none (happart : g.BlocksApart) {e : Nat} {v : Edge}
    (hv : g.edges.data e = some v) (hsrc : v.srcNode ∈ g.skeletonNodes) (htgt : v.tgtNode ∈ g.skeletonNodes)
    (hne : v.srcNode ≠ v.tgtNode) : v.pointer = none := by
  cases v with
  | pointsTo id t s o =>
      obtain ⟨i, hi⟩ := TypeGraph.mem_skeletonNodes.mp hsrc
      obtain ⟨j, hj⟩ := TypeGraph.mem_skeletonNodes.mp htgt
      have hsame : t = s := happart (x := e) (o := o) (Arena.view_eq_some.mpr ⟨_, hv, rfl⟩)
        (by rw [hi]; rfl) (by rw [hj]; rfl)
      exact absurd (congrArg NodeId.inode hsame) hne
  | _ => rfl

/-- Blocks apart, the tags change nothing between two live nodes that are no blocks. -/
theorem TypeGraph.joinGraph_adj_iff (happart : g.BlocksApart) {n m : NodeId} (hn : n ∈ g.skeletonNodes)
    (hm : m ∈ g.skeletonNodes) (hnblock : ¬ n.IsBlock) (hmblock : ¬ m.IsBlock) :
    (g.joinGraph Edge.leadsTo).Adj n m ↔ (g.joinGraph Edge.tgtNode).Adj n m := by
  have hends : ∀ {e v a b}, g.edges.data e = some v → a ∈ g.skeletonNodes → b ∈ g.skeletonNodes →
      a ≠ b → ¬ b.IsBlock → (v.srcNode = a ∧ v.leadsTo = b ↔ v.srcNode = a ∧ v.tgtNode = b) := by
    intro e v a b hv ha hb hne hbblock
    constructor
    · rintro ⟨hsrc, rfl⟩
      exact ⟨hsrc, (Edge.leadsTo_of_pointer_none (Edge.pointer_of_not_isBlock hbblock)).symm⟩
    · rintro ⟨rfl, rfl⟩
      exact ⟨rfl, Edge.leadsTo_of_pointer_none (happart.pointer_none hv ha hb hne)⟩
  refine and_congr_right fun hne => exists_congr fun e => exists_congr fun v => and_congr_right fun hv => ?_
  exact or_congr (hends hv hn hm hne hmblock) (hends hv hm hn hne.symm hnblock)

/-- Blocks apart, another edge is there beside the block edges if any edge is there as they are tagged. -/
theorem TypeGraph.besidesBlocks_iff (happart : g.BlocksApart) : g.BesidesBlocks ↔
    ((∃ a ∈ g.skeletonNodes, ∃ b ∈ g.skeletonNodes, (g.joinGraph Edge.leadsTo).Adj a b) →
      ∃ a ∈ g.skeletonNodes, ∃ b ∈ g.skeletonNodes, (g.joinGraph Edge.tgtNode).Adj a b) := by
  have hother : (∃ e v, g.edges.data e = some v ∧ v.pointer = none ∧ v.srcNode ≠ v.tgtNode ∧
      v.srcNode ∈ g.skeletonNodes ∧ v.tgtNode ∈ g.skeletonNodes) ↔
      ∃ a ∈ g.skeletonNodes, ∃ b ∈ g.skeletonNodes, (g.joinGraph Edge.tgtNode).Adj a b := by
    constructor
    · rintro ⟨e, v, hv, _, hne, hsrc, htgt⟩
      exact ⟨_, hsrc, _, htgt, hne, e, v, hv, .inl ⟨rfl, rfl⟩⟩
    · rintro ⟨a, ha, b, hb, hab⟩
      obtain ⟨hne, e, v, hv, ⟨rfl, rfl⟩ | ⟨rfl, rfl⟩⟩ := hab
      · exact ⟨e, v, hv, happart.pointer_none hv ha hb hne, hne, ha, hb⟩
      · exact ⟨e, v, hv, happart.pointer_none hv hb ha hne.symm, hne.symm, hb, ha⟩
  rw [TypeGraph.BesidesBlocks, hother]
  constructor
  · rintro hpointed ⟨a, ha, b, hb, hab⟩
    by_cases hablock : a.IsBlock
    · obtain ⟨x, t, s, o, hx, ht, hs, _⟩ := TypeGraph.exists_pointer hab hablock ha hb
      exact hpointed ⟨x, t, s, o, hx, ht, hs⟩
    · by_cases hbblock : b.IsBlock
      · obtain ⟨x, t, s, o, hx, ht, hs, _⟩ := TypeGraph.exists_pointer hab.symm hbblock hb ha
        exact hpointed ⟨x, t, s, o, hx, ht, hs⟩
      · exact ⟨a, ha, b, hb, (TypeGraph.joinGraph_adj_iff happart ha hb hablock hbblock).mp hab⟩
  · rintro hedges ⟨x, t, s, o, hx, ht, hs⟩
    obtain ⟨i, hi⟩ := Option.isSome_iff_exists.mp ht
    obtain ⟨j, hj⟩ := Option.isSome_iff_exists.mp hs
    obtain ⟨v, hv, hpointer⟩ := Arena.view_eq_some.mp hx
    refine hedges ⟨.inode t, TypeGraph.mem_skeletonNodes.mpr ⟨i, hi⟩, .block s,
      TypeGraph.mem_skeletonNodes.mpr ⟨j, hj⟩, NodeId.noConfusion, x, v, hv, .inl ?_⟩
    cases v with
    | pointsTo id t' s' o' =>
        cases hpointer
        exact ⟨rfl, rfl⟩
    | _ => cases hpointer

end Orders

section Checks

variable (g : TypeGraph)

instance : Decidable g.BlocksOwned :=
  decidable_of_iff (∀ entry ∈ g.edges.iter, ∀ w ∈ entry.2.pointer, ∀ entry' ∈ g.edges.iter,
      ∀ w' ∈ entry'.2.pointer, w.2.1 = w'.2.1 → (g.inodes.data w.1).isSome → (g.inodes.data w'.1).isSome →
        (g.blocks.data w.2.1).isSome → w.1 = w'.1) <| by
    refine (Arena.forall_view (f := Edge.pointer) (p := fun w => ∀ entry' ∈ g.edges.iter,
      ∀ w' ∈ entry'.2.pointer, w.2.1 = w'.2.1 → (g.inodes.data w.1).isSome → (g.inodes.data w'.1).isSome →
        (g.blocks.data w.2.1).isSome → w.1 = w'.1)).trans ?_
    constructor
    · intro hall x y t t' b o o' hx hy
      exact (Arena.forall_view (f := Edge.pointer)).mp (hall x _ hx) y _ hy rfl
    · intro hall x w hx
      refine (Arena.forall_view (f := Edge.pointer)).mpr ?_
      rintro y ⟨t', b', o'⟩ hy heq
      obtain ⟨t, b, o⟩ := w
      cases heq
      exact hall hx hy

end Checks

/-! ### What the number means -/

/-- The width of an order of the skeleton: with its blocks apart and each of them one inode's, what
    compute_treewidth returns is the width of an elimination order of all nodes, each block joined to its
    inode, and so an upper bound on the treewidth, just if the block edges are not the only ones. The loop
    takes one turn for each node, whatever the graph. -/
theorem computeTreewidth_orders (g : TypeGraph) (happart : g.BlocksApart) (hown : g.BlocksOwned) :
    (IsEliminationWidth (g.joinGraph Edge.leadsTo) g.skeletonNodes (computeTreewidth g) ∧
      TreewidthLE (g.joinGraph Edge.leadsTo) g.skeletonNodes.toFinset (computeTreewidth g) ∧
      ∀ fuel, (greedyOrder fuel g.skeleton (List.range g.skeletonNodes.length)).length =
        min fuel g.skeletonNodes.length) ↔ g.BesidesBlocks := by
  have hwidth : IsEliminationWidth (g.joinGraph Edge.leadsTo) g.skeletonNodes (computeTreewidth g) ↔
      g.BesidesBlocks := by
    rw [TypeGraph.besidesBlocks_iff happart]
    refine (isEliminationWidth_tgtNode g).pendants_iff NodeId.IsBlock g.skeletonNodes_nodup ?_ ?_ ?_
    · exact fun n _ hblock m _ => TypeGraph.not_adj_block hblock
    · exact fun n hn hblock a ha b hb => hown.unique hblock hn ha hb
    · exact fun a ha b hb => TypeGraph.joinGraph_adj_iff happart ha hb
  rw [← hwidth]
  refine ⟨And.left, fun h => ⟨h, h.treewidthLE g.skeletonNodes_nodup, fun fuel => ?_⟩⟩
  rw [length_greedyOrder, List.length_range]

/-- A block of the root and a block of a file, each with the id of its inode. -/
theorem computeTreewidth_orders_file :
    let g := (TypeGraph.new 0).calls (fun _ => 0)
      [.createFile 1 "a" 0 0 .fileDefault, .writeBlock 1 0 0 8, .writeBlock 2 0 0 8]
    (IsEliminationWidth (g.joinGraph Edge.leadsTo) g.skeletonNodes (computeTreewidth g) ∧
      TreewidthLE (g.joinGraph Edge.leadsTo) g.skeletonNodes.toFinset (computeTreewidth g) ∧
      ∀ fuel, (greedyOrder fuel g.skeleton (List.range g.skeletonNodes.length)).length =
        min fuel g.skeletonNodes.length) ↔ g.BesidesBlocks :=
  computeTreewidth_orders _ (by decide +kernel) (by decide +kernel)

/-- Two files that share a block: they and the block close a cycle with the root, but the number is one. -/
theorem computeTreewidth_shared_block :
    let g := (((TypeGraph.new 0).calls (fun _ => 0)
      [.createFile 1 "a" 0 0 .fileDefault, .createFile 1 "b" 0 0 .fileDefault]).insertBlock 10
        ⟨10, 0, 8, 2⟩ |>.insertEdge 4 (.pointsTo 4 2 10 0)).insertEdge 5 (.pointsTo 5 3 10 0)
    computeTreewidth g = 1 ∧
      ¬ TreewidthLE (g.joinGraph Edge.leadsTo) g.skeletonNodes.toFinset (computeTreewidth g) ∧
      ¬ IsEliminationWidth (g.joinGraph Edge.leadsTo) g.skeletonNodes (computeTreewidth g) := by
  intro g
  have hone : computeTreewidth g = 1 := by decide +kernel
  have hwide : ¬ TreewidthLE (g.joinGraph Edge.leadsTo) g.skeletonNodes.toFinset 1 := by
    intro hwidth
    have hroot : (g.joinGraph Edge.leadsTo).Adj (.directory 1) (.inode 2) :=
      ⟨by decide, 2, .contains 2 1 2 "a", by decide +kernel, .inl ⟨rfl, rfl⟩⟩
    have hroot' : (g.joinGraph Edge.leadsTo).Adj (.directory 1) (.inode 3) :=
      ⟨by decide, 3, .contains 3 1 3 "b", by decide +kernel, .inl ⟨rfl, rfl⟩⟩
    have hblock : (g.joinGraph Edge.leadsTo).Adj (.inode 2) (.block 10) :=
      ⟨by decide, 4, .pointsTo 4 2 10 0, by decide +kernel, .inl ⟨rfl, rfl⟩⟩
    have hblock' : (g.joinGraph Edge.leadsTo).Adj (.block 10) (.inode 3) :=
      ⟨by decide, 5, .pointsTo 5 3 10 0, by decide +kernel, .inr ⟨rfl, rfl⟩⟩
    let branch : Fin 3 → Finset NodeId := ![{.directory 1}, {.inode 2, .block 10}, {.inode 3}]
    let centre : Fin 3 → NodeId := ![.directory 1, .inode 2, .inode 3]
    have hthree : (Finset.univ : Finset (Fin 3)).card ≤ 1 + 1 := by
      refine hwidth.branches_le branch centre ?_ ?_ ?_ ?_ ?_
      · decide +kernel
      · decide
      · intro j _ v hv hne
        fin_cases j <;> simp [branch, centre] at hv hne
        · exact absurd hv hne
        · rcases hv with rfl | rfl
          · exact absurd rfl hne
          · exact hblock
        · exact absurd hv hne
      · decide
      · have htouch : ∀ j l, j < l → ∃ u ∈ branch j, ∃ v ∈ branch l, (g.joinGraph Edge.leadsTo).Adj u v := by
          intro j l hlt
          fin_cases j <;> fin_cases l <;> first | exact absurd hlt (by decide) | skip
          · exact ⟨_, by decide, _, by decide, hroot⟩
          · exact ⟨_, by decide, _, by decide, hroot'⟩
          · exact ⟨_, by decide, _, by decide, hblock'⟩
        intro j _ l _ hne
        rcases lt_or_gt_of_ne hne with hlt | hlt
        · exact htouch j l hlt
        · obtain ⟨u, hu, v, hv, huv⟩ := htouch l j hlt
          exact ⟨v, hv, u, hu, huv.symm⟩
    exact absurd hthree (by decide)
  rw [hone]
  exact ⟨rfl, hwide, fun h => hwide (h.treewidthLE g.skeletonNodes_nodup)⟩

end SotFs
