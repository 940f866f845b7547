/-
Module: SotFs.Core.Curvature
Layer: Core
Purpose: The curvature scan of the metadata graph, full and incremental (sotfs-monitor/src/curvature.rs), and
  the affected-node sets that callers pass to the incremental scan (sotfs-ops/src/lib.rs). The arithmetic is a
  parameter, `f64` in the source: any type with the four operations, an order and minima and maxima, with a
  square root and an absolute value. The curvature of an edge is a formula on five readings of the neighbor
  sets; the scans are the same for every such formula. Infinite values and values that are no number are left
  out: an extreme without a value yet is `none`.
Trusted boundary: human-reviewed model
Main exports: AffectedNodes, Op.affectedNodes, buildAdjacency, CurvatureFormula, ollivierRicci,
  computeEdgeCurvature, CurvatureReport, computeAllCurvatures, recomputeIncremental, Monitored
-/
import SotFs.Core.Runs
import SotFs.Foundation.RunningMoments

namespace SotFs

open Std Foundation

/-! ### Affected nodes -/

/-- Room of an affected-node set. -/
def AFFECTED_CAPACITY : Nat := 8

/-- A small set of nodes: the live part of the source's array, without repetition. -/
structure AffectedNodes where
  nodes : List NodeId
  nodup : nodes.Nodup
  length_le : nodes.length ≤ AFFECTED_CAPACITY

namespace AffectedNodes

def empty : AffectedNodes := ⟨[], List.nodup_nil, Nat.zero_le _⟩

/-- A node that is there already, or that finds no room, is not entered. -/
def push (a : AffectedNodes) (node : NodeId) : AffectedNodes :=
  if hroom : a.nodes.length < AFFECTED_CAPACITY then
    if hmem : node ∈ a.nodes then a
    else
      { nodes := a.nodes ++ [node]
        nodup := List.nodup_append.mpr ⟨a.nodup, List.nodup_singleton node, by
          intro x hx y hy heq
          exact hmem (List.mem_singleton.mp hy ▸ heq ▸ hx)⟩
        length_le := by simpa using hroom }
  else a

end AffectedNodes

def affectedNodesCreate (dir : DirId) (inode : InodeId) : AffectedNodes :=
  (AffectedNodes.empty.push (.directory dir)).push (.inode inode)

def affectedNodesUnlink (dir : DirId) (inode : InodeId) : AffectedNodes :=
  (AffectedNodes.empty.push (.directory dir)).push (.inode inode)

def affectedNodesMkdir (parentDir : DirId) (inode : InodeId) (newDir : DirId) : AffectedNodes :=
  ((AffectedNodes.empty.push (.directory parentDir)).push (.inode inode)).push (.directory newDir)

def affectedNodesRmdir (parentDir : DirId) (inode : InodeId) (removedDir : DirId) : AffectedNodes :=
  ((AffectedNodes.empty.push (.directory parentDir)).push (.inode inode)).push (.directory removedDir)

def affectedNodesRename (srcDir dstDir : DirId) (inode : InodeId) : AffectedNodes :=
  ((AffectedNodes.empty.push (.directory srcDir)).push (.directory dstDir)).push (.inode inode)

def affectedNodesLink (dir : DirId) (inode : InodeId) : AffectedNodes :=
  (AffectedNodes.empty.push (.directory dir)).push (.inode inode)

def affectedNodesWriteBlock (inode : InodeId) (block : BlockId) : AffectedNodes :=
  (AffectedNodes.empty.push (.inode inode)).push (.block block)

/-- The affected nodes of a call that succeeded, from the graph before it and its reply; `none` for the calls
    the source has no such function for. -/
def Op.affectedNodes (g : TypeGraph) : Op → Reply → Option AffectedNodes
  | .createFile d .., .inode i => some (affectedNodesCreate d i)
  | .mkdir d .., .created ⟨i, some newDir⟩ => some (affectedNodesMkdir d i newDir)
  | .rmdir d n, .done =>
      (g.resolveName d n).bind fun i => (g.dirForInode i).map fun removed => affectedNodesRmdir d i removed
  | .link d _ t, .done => some (affectedNodesLink d t)
  | .unlink d n, .done => (g.resolveName d n).map fun i => affectedNodesUnlink d i
  | .rename sd sn dd _, .done => (g.resolveName sd sn).map fun i => affectedNodesRename sd dd i
  | .writeBlock i .., .block b => some (affectedNodesWriteBlock i b)
  | _, _ => none

/-! ### The scan -/

/-- The place of a node in the order that the source derives: variant first, then id. -/
def NodeId.rank : NodeId → Nat × Nat
  | .inode id => (0, id)
  | .directory id => (1, id)
  | .capability id => (2, id)
  | .transaction id => (3, id)
  | .version id => (4, id)
  | .block id => (5, id)
  | .xattr id => (6, id)

theorem NodeId.rank_injective : Function.Injective NodeId.rank := by
  intro a b h
  cases a <;> cases b <;> simp_all [NodeId.rank]

abbrev nodeIdCmp : NodeId → NodeId → Ordering :=
  compareLex (compareOn fun n => n.rank.1) (compareOn fun n => n.rank.2)

instance : Ord NodeId := ⟨nodeIdCmp⟩

instance : TransOrd NodeId := inferInstanceAs (TransCmp (compareLex _ _))

instance : LawfulEqOrd NodeId where
  eq_of_compare := by
    intro a b h
    change nodeIdCmp a b = .eq at h
    simp only [nodeIdCmp, compareLex_eq_eq, compareOn, Std.compare_eq_iff_eq] at h
    exact NodeId.rank_injective (Prod.ext h.1 h.2)

/-- The neighbor set of every node. -/
abbrev NodeAdjacency := SetIndex NodeId NodeId

/-- The undirected neighbor sets, with a set for every node. -/
def buildAdjacency (graph : TypeGraph) : NodeAdjacency :=
  let nodes := graph.inodes.iter.map (fun entry => NodeId.inode entry.1) ++
    graph.dirs.iter.map (fun entry => NodeId.directory entry.1) ++
    graph.caps.iter.map (fun entry => NodeId.capability entry.1) ++
    graph.blocks.iter.map fun entry => NodeId.block entry.1
  let adj : NodeAdjacency := nodes.foldl (fun adj node => adj.insertIfNew node ∅) ∅
  graph.edges.iter.foldl
    (fun adj entry =>
      let s := entry.2.srcNode
      let t := entry.2.tgtNode
      SetIndex.add (SetIndex.add adj s t) t s)
    adj

/-- The formula part: a value from the two degrees, the number of common neighbors, whether the target is a
    neighbor of the source and whether the source is one of the target; and the value where a degree is
    zero. -/
structure CurvatureFormula (K : Type) where
  kappa : Nat → Nat → Nat → Bool → Bool → K
  isolated : K

/-- The formula of `compute_edge_curvature` for a laziness `alpha`. -/
def ollivierRicci {K : Type} [Add K] [Sub K] [Mul K] [Div K] [NatCast K] (alpha : K) : CurvatureFormula K where
  kappa degU degV common vInNu uInNv :=
    let zero : K := (0 : Nat)
    let one : K := (1 : Nat)
    let two : K := (2 : Nat)
    let mu := one / (degU : Nat)
    let mv := one / (degV : Nat)
    let selfToNbr :=
      (if vInNu then alpha * (one - alpha) * mu else zero) +
        if uInNv then alpha * (one - alpha) * mv else zero
    let commonFrac : K := (common : Nat) / (max degU degV : Nat)
    let square := (one - alpha) * (one - alpha)
    commonFrac * square + selfToNbr + (if uInNv && vInNu then alpha * alpha else zero) -
      square * (one / (degU : Nat) + one / (degV : Nat)) / two
  isolated := (0 : Nat)

section Scan

variable {K : Type} (formula : CurvatureFormula K)

def computeEdgeCurvature (adj : NodeAdjacency) (u v : NodeId) : K :=
  let nbrsU := SetIndex.members adj u
  let nbrsV := SetIndex.members adj v
  let degU := nbrsU.size
  let degV := nbrsV.size
  if degU = 0 ∨ degV = 0 then formula.isolated
  else
    let common := (nbrsU.toList.filter fun n => n ∈ nbrsV).length
    formula.kappa degU degV common (decide (v ∈ nbrsU)) (decide (u ∈ nbrsV))

/-- The curvature of one edge in a report. -/
structure EdgeCurvature (K : Type) where
  edgeId : EdgeId
  src : NodeId
  tgt : NodeId
  kappa : K
deriving DecidableEq, Repr

/-- Every edge with its curvature, in slot order. -/
def curvatureEdges (graph : TypeGraph) : List (EdgeCurvature K) :=
  let adj := buildAdjacency graph
  graph.edges.iter.map fun entry =>
    let src := entry.2.srcNode
    let tgt := entry.2.tgtNode
    ⟨entry.1, src, tgt, computeEdgeCurvature formula adj src tgt⟩

/-- The nodes at most two steps from the affected ones. -/
def twoHopNodes (adj : NodeAdjacency) (affectedNodes : List NodeId) : ExtTreeSet NodeId :=
  affectedNodes.foldl
    (fun neighborhood node =>
      (SetIndex.members adj node).toList.foldl
        (fun neighborhood nbr =>
          (SetIndex.members adj nbr).toList.foldl (fun neighborhood nbr2 => neighborhood.insert nbr2)
            (neighborhood.insert nbr))
        (neighborhood.insert node))
    ∅

/-- The edges with an end at most two steps from an affected node. -/
def edgesIn2HopNeighborhood (graph : TypeGraph) (adj : NodeAdjacency) (affectedNodes : List NodeId) :
    ExtTreeSet EdgeId :=
  let neighborhood := twoHopNodes adj affectedNodes
  graph.edges.iter.foldl
    (fun affectedEdges entry =>
      if entry.2.srcNode ∈ neighborhood ∨ entry.2.tgtNode ∈ neighborhood then affectedEdges.insert entry.1
      else affectedEdges)
    ∅

/-- Recompute the edges near the affected nodes and the ones the previous report does not have; carry the
    others over. -/
def recomputedEdges (graph : TypeGraph) (affectedNodes : List NodeId)
    (prevEdges : List (EdgeCurvature K)) : List (EdgeCurvature K) :=
  let adj := buildAdjacency graph
  let dirtyEdges := edgesIn2HopNeighborhood graph adj affectedNodes
  let prevKappa : ExtTreeMap EdgeId K := prevEdges.foldl (fun map ec => map.insert ec.edgeId ec.kappa) ∅
  graph.edges.iter.map fun entry =>
    let eid := entry.1
    let src := entry.2.srcNode
    let tgt := entry.2.tgtNode
    let kappa :=
      if eid ∈ dirtyEdges then computeEdgeCurvature formula adj src tgt
      else
        match prevKappa[eid]? with
        | some k => k
        | none => computeEdgeCurvature formula adj src tgt
    ⟨eid, src, tgt, kappa⟩

end Scan

/-! ### The statistics -/

/-- Result of a curvature scan. -/
structure CurvatureReport (K : Type) where
  edges : List (EdgeCurvature K)
  meanKappa : K
  minKappa : K
  maxKappa : K
  anomalies : List (EdgeCurvature K)
deriving DecidableEq, Repr

/-- The functions of `f64` that the statistics use besides arithmetic and order. -/
structure RealFunctions (K : Type) where
  sqrt : K → K
  abs : K → K

section Statistics

variable {K : Type} [Add K] [Sub K] [Mul K] [Div K] [NatCast K] [LT K] [DecidableLT K] (fns : RealFunctions K)

/-- How both scans end: an extreme that was never set is zero, and an edge is anomalous when its curvature is
    more than two standard deviations from the mean. -/
def CurvatureReport.ofStatistics (edges : List (EdgeCurvature K)) (mean variance : K)
    (minKappa maxKappa : Option K) : CurvatureReport K :=
  let stddev := fns.sqrt variance
  let threshold := (2 : Nat) * stddev
  { edges := edges
    meanKappa := mean
    minKappa := minKappa.getD (0 : Nat)
    maxKappa := maxKappa.getD (0 : Nat)
    anomalies := edges.filter fun e => threshold < fns.abs (e.kappa - mean) ∧ ((0 : Nat) : K) < threshold }

/-- Compute curvature for all edges: two passes for mean and variance. -/
def computeAllCurvatures [Min K] [Max K] (formula : CurvatureFormula K) (graph : TypeGraph) :
    CurvatureReport K :=
  let zero : K := (0 : Nat)
  let edges := curvatureEdges formula graph
  let kappas := edges.map EdgeCurvature.kappa
  let mean := if edges.isEmpty then zero else kappas.foldl (· + ·) zero / (edges.length : Nat)
  let minKappa := kappas.foldl (fun m k => some (m.elim k (min · k))) none
  let maxKappa := kappas.foldl (fun m k => some (m.elim k (max · k))) none
  let variance :=
    if 1 < edges.length then
      (kappas.map fun k => (k - mean) * (k - mean)).foldl (· + ·) zero / (edges.length - 1 : Nat)
    else zero
  .ofStatistics fns edges mean variance minKappa maxKappa

/-- Recompute curvature near the affected nodes: one pass for mean and variance. -/
def recomputeIncremental (formula : CurvatureFormula K) (graph : TypeGraph) (affectedNodes : List NodeId)
    (prevReport : CurvatureReport K) : CurvatureReport K :=
  let zero : K := (0 : Nat)
  let edges := recomputedEdges formula graph affectedNodes prevReport.edges
  let kappas := edges.map EdgeCurvature.kappa
  let welford := RunningMoments.ofList kappas
  let minKappa := kappas.foldl (fun m k => if m.all (k < ·) then some k else m) none
  let maxKappa := kappas.foldl (fun m k => if m.all (· < k) then some k else m) none
  let mean := if welford.count = 0 then zero else welford.mean
  let variance := if 1 < welford.count then welford.m2 / (welford.count - 1 : Nat) else zero
  .ofStatistics fns edges mean variance minKappa maxKappa

/-! ### A report that is kept up to date -/

/-- The calls that make, take and change no edge. -/
def Op.keepsEdges : Op → Bool
  | .writeData .. | .truncate .. | .chmod .. | .chown .. | .setQuota .. => true
  | _ => false

/-- A graph and the report a monitor has of it: a full scan at any time, the old report after a call that
    returned an error or changes no edge, and an incremental scan from the affected nodes of a call that
    succeeded, where `allowed` holds of the call. -/
inductive Monitored [Min K] [Max K] (formula : CurvatureFormula K) (allowed : TypeGraph → Op → Prop) :
    TypeGraph → CurvatureReport K → Prop where
  | scan {g : TypeGraph} (hg : Reachable g) :
      Monitored formula allowed g (computeAllCurvatures fns formula g)
  | keep {g : TypeGraph} {report : CurvatureReport K} (now : Nat → Timestamp) (op : Op) :
      Monitored formula allowed g report → InCapacityCall g op (op.apply now g).2 →
      (op.keepsEdges = true ∨ ∃ e, (op.apply now g).1 = .err e) → Monitored formula allowed (op.apply now g).2 report
  | update {g : TypeGraph} {report : CurvatureReport K} (now : Nat → Timestamp) (op : Op) (reply : Reply)
      (affected : AffectedNodes) :
      Monitored formula allowed g report → InCapacityCall g op (op.apply now g).2 → (op.apply now g).1 = .ok reply →
      op.affectedNodes g reply = some affected → allowed g op →
      Monitored formula allowed (op.apply now g).2
        (recomputeIncremental fns formula (op.apply now g).2 affected.nodes report)
  | setCapCtx {g : TypeGraph} {report : CurvatureReport K} (ctx : CapContext) :
      Monitored formula allowed g report → Monitored formula allowed (g.setCapCtx ctx) report

end Statistics

end SotFs
