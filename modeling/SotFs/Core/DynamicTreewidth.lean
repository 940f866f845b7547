/-
Module: SotFs.Core.DynamicTreewidth
Layer: Core
Purpose: The incremental treewidth tracker of sotfs-monitor (treewidth.rs): the skeleton in adjacency arrays
  of bounded length, the elimination of minimal degree on a copy of them, and the update of the cached
  ordering after an edit. An array with its length is a list; the flags of the nodes that an elimination has
  taken out are the list of their ids, of which no two nodes share one. `none` is a failed assertion.
Trusted boundary: human-reviewed model
Main exports: DynamicTreewidth, DynamicTreewidth.fullRecompute, DynamicTreewidth.incrementalReeliminate,
  DynamicTreewidth.fromTypeGraph, TrackerOp, TrackerOp.apply
-/
import SotFs.Core.Treewidth

namespace SotFs

/-- Maximum number of nodes of the tracker. -/
def MAX_NODES : Nat := 1024

/-- Maximum number of neighbors of a node. -/
def MAX_DEGREE : Nat := 64

/-- A node of the tracker with its neighbors, in the order of the array. -/
structure Slot where
  id : Nat
  adj : List Nat
deriving DecidableEq, Repr

/-- A step of the cached ordering: the node, its degree at its elimination and the neighbors that were
    connected. -/
structure Elimination where
  node : Nat
  stepWidth : Nat
  fillEdges : List Nat
deriving DecidableEq, Repr

/-! ### Elimination on a copy of the arrays -/

namespace Slot

/-- Append a neighbor to a work list that has room for it; one that is full stays as it is. -/
def pushFill (slot : Slot) (nbr : Nat) : Slot :=
  if slot.adj.length < MAX_DEGREE then { slot with adj := slot.adj ++ [nbr] } else slot

end Slot

/-- A node is there and not yet eliminated. -/
def remains (work : List Slot) (eliminated : List Nat) (id : Nat) : Bool :=
  work.any fun slot => slot.id == id && !eliminated.contains id

/-- The remaining neighbors of a node. -/
def Slot.remaining (work : List Slot) (eliminated : List Nat) (slot : Slot) : List Nat :=
  slot.adj.filter (remains work eliminated)

/-- Connect two nodes, unless the first has the second as a neighbor. -/
def connectFill (work : List Slot) (a b : Nat) : List Slot :=
  if work.any fun slot => slot.id == a && slot.adj.contains b then work
  else work.map fun slot =>
    if slot.id = a then slot.pushFill b else if slot.id = b then slot.pushFill a else slot

/-- Connect all pairs of a list. -/
def fillWork (work : List Slot) : List Nat → List Slot
  | [] => work
  | a :: rest => fillWork (rest.foldl (fun work b => connectFill work a b) work) rest

/-- The elimination of minimal degree, `n` steps of it: the first node of smallest degree is taken out and
    its remaining neighbors are connected. -/
def eliminateMin : Nat → List Slot → List Nat → List Elimination
  | 0, _, _ => []
  | n + 1, work, eliminated =>
      let candidates := work.filter fun slot => !eliminated.contains slot.id
      match candidates.argmin fun slot => (slot.remaining work eliminated).length with
      | none => []
      | some v =>
          let nbrs := v.remaining work eliminated
          ⟨v.id, nbrs.length, nbrs⟩ :: eliminateMin n (fillWork work nbrs) (v.id :: eliminated)

/-- The largest degree of an ordering. -/
def maxWidth (steps : List Elimination) : Nat := steps.foldl (fun width step => max width step.stepWidth) 0

/-! ### The tracker -/

/-- The tracker: the bound, the cached ordering, the nodes and the flags of the dirty positions. -/
structure DynamicTreewidth where
  bound : Nat
  ordering : List Elimination
  slots : List Slot
  dirty : Nat → Bool

namespace DynamicTreewidth

/-- `DynamicTreewidth::new`. -/
def new : DynamicTreewidth := ⟨0, [], [], fun _ => false⟩

/-- The position of a node. -/
def nodeIndex (t : DynamicTreewidth) (id : Nat) : Option Nat := t.slots.findIdx? fun slot => slot.id == id

def addNodeInternal (t : DynamicTreewidth) (id : Nat) : Option DynamicTreewidth :=
  if (t.nodeIndex id).isSome then some t
  else if t.slots.length < MAX_NODES then some { t with slots := t.slots ++ [⟨id, []⟩] }
  else none

/-- One half of `add_edge_internal`: record `v` with `u`. -/
def addNeighbor (t : DynamicTreewidth) (u v : Nat) : Option DynamicTreewidth :=
  match t.slots.find? fun slot => slot.id == u with
  | none => some t
  | some slot =>
      if slot.adj.contains v then some t
      else if slot.adj.length < MAX_DEGREE then
        some { t with slots := t.slots.map fun s => if s.id = u then { s with adj := s.adj ++ [v] } else s }
      else none

def addEdgeInternal (t : DynamicTreewidth) (u v : Nat) : Option DynamicTreewidth :=
  if u = v then some t else (t.addNeighbor u v).bind fun t => t.addNeighbor v u

/-- Remove the first occurrence of a value; the last element takes its place. -/
def swapRemove (l : List Nat) (x : Nat) : List Nat :=
  match l.idxOf? x, l.getLast? with
  | some j, some last => (l.set j last).dropLast
  | _, _ => l

/-- Take `v` from the neighbors of `u`. -/
def removeNeighbor (slots : List Slot) (u v : Nat) : List Slot :=
  slots.map fun slot => if slot.id = u then { slot with adj := swapRemove slot.adj v } else slot

def removeEdgeInternal (t : DynamicTreewidth) (u v : Nat) : DynamicTreewidth :=
  { t with slots := removeNeighbor (removeNeighbor t.slots u v) v u }

/-- Remove a node with its edges; the last node takes its position, with its flag. -/
def removeNodeInternal (t : DynamicTreewidth) (id : Nat) : DynamicTreewidth :=
  match t.slots.findIdx? fun slot => slot.id == id with
  | none => t
  | some idx =>
      let nbrs := (t.slots[idx]?.map Slot.adj).getD []
      let slots := nbrs.foldl (fun slots n => removeNeighbor slots n id) t.slots
      match slots.getLast? with
      | none => t
      | some last =>
          let nodeCount := slots.length - 1
          { t with
            slots := (slots.set idx last).dropLast
            dirty := if idx < nodeCount then Function.update t.dirty idx (t.dirty nodeCount) else t.dirty }

/-- `full_recompute`: eliminate from scratch, on a copy of the arrays. -/
def fullRecompute (t : DynamicTreewidth) : DynamicTreewidth :=
  let steps := eliminateMin t.slots.length t.slots []
  { t with bound := maxWidth steps, ordering := steps, dirty := fun _ => false }

/-! ### Updates -/

/-- The position of a node in the cached ordering. -/
def orderingPosition (t : DynamicTreewidth) (id : Nat) : Option Nat :=
  t.ordering.findIdx? fun step => step.node == id

/-- A node is there. -/
def contains (t : DynamicTreewidth) (id : Nat) : Bool := (t.nodeIndex id).isSome

/-- A node is there and flagged. -/
def isDirty (t : DynamicTreewidth) (id : Nat) : Bool := (t.nodeIndex id).any t.dirty

def dirtyCount (t : DynamicTreewidth) : Nat := (List.range t.slots.length).countP t.dirty

def markDirty (t : DynamicTreewidth) (id : Nat) : DynamicTreewidth :=
  match t.nodeIndex id with
  | some idx => { t with dirty := Function.update t.dirty idx true }
  | none => t

/-- The neighbors of a node, none for a node that is not there. -/
def neighbors (t : DynamicTreewidth) (id : Nat) : List Nat :=
  match t.slots.find? fun slot => slot.id == id with
  | some slot => slot.adj
  | none => []

def markNeighborsDirty (t : DynamicTreewidth) (id : Nat) : DynamicTreewidth :=
  (t.neighbors id).foldl markDirty t

/-- Eliminate the nodes of an ordering, those that are there, and connect their remaining neighbors. -/
def replay : List Elimination → List Slot → List Nat → List Slot × List Nat
  | [], work, eliminated => (work, eliminated)
  | step :: steps, work, eliminated =>
      match work.find? fun slot => slot.id == step.node with
      | none => replay steps work eliminated
      | some v =>
          let eliminated := step.node :: eliminated
          replay steps (fillWork work (v.remaining work eliminated)) eliminated

/-- Keep the ordering up to `earliestDirty`, and eliminate the rest anew. If a node of the kept part is no
    longer there, everything is recomputed. -/
def reeliminateFrom (t : DynamicTreewidth) (earliestDirty : Nat) : DynamicTreewidth :=
  let kept := t.ordering.take earliestDirty
  let (work, eliminated) := replay kept t.slots []
  let remainingCount := work.countP fun slot => !eliminated.contains slot.id
  let suffix := eliminateMin remainingCount work eliminated
  if (kept.filter fun step => t.contains step.node).length < earliestDirty then t.fullRecompute
  else
    let ordering := kept ++ suffix
    { t with bound := maxWidth ordering, ordering := ordering, dirty := fun _ => false }

/-- `incremental_reeliminate`: what comes before the first dirty node of the ordering is kept. -/
def incrementalReeliminate (t : DynamicTreewidth) : DynamicTreewidth :=
  let orderingLen := t.ordering.length
  let earliestDirty := (t.ordering.findIdx? fun step => t.isDirty step.node).getD orderingLen
  let hasNewNode := t.slots.any fun slot => (t.orderingPosition slot.id).isNone
  if earliestDirty ≥ orderingLen ∧ hasNewNode = false then
    let validOrderingLen := t.ordering.zipIdx.foldl
      (fun len entry => if t.contains entry.1.node then entry.2 + 1 else len) 0
    if validOrderingLen < orderingLen then
      t.reeliminateFrom ((t.ordering.findIdx? fun step => !t.contains step.node).getD 0)
    else { t with dirty := fun _ => false }
  else t.reeliminateFrom earliestDirty

/-- `maybe_update`: everything is recomputed if more than a fifth of the nodes is dirty. -/
def maybeUpdate (t : DynamicTreewidth) : DynamicTreewidth :=
  if t.slots.length = 0 then { t with bound := 0, ordering := [], dirty := fun _ => false }
  else
    let threshold := (t.slots.length + 4) / 5
    if t.dirtyCount > threshold ∨ t.ordering.length = 0 then t.fullRecompute else t.incrementalReeliminate

/-- Flag the ends of an edge and their neighbors. -/
def markEdge (t : DynamicTreewidth) (u v : Nat) : DynamicTreewidth :=
  (((t.markDirty u).markDirty v).markNeighborsDirty u).markNeighborsDirty v

def onAddEdge (t : DynamicTreewidth) (u v : Nat) : Option DynamicTreewidth :=
  if u = v then some t else (t.addEdgeInternal u v).map fun t => (t.markEdge u v).maybeUpdate

def onRemoveEdge (t : DynamicTreewidth) (u v : Nat) : DynamicTreewidth :=
  if u = v then t else ((t.removeEdgeInternal u v).markEdge u v).maybeUpdate

def onAddNode (t : DynamicTreewidth) (n : Nat) : Option DynamicTreewidth :=
  (t.addNodeInternal n).map fun t => (t.markDirty n).maybeUpdate

def onRemoveNode (t : DynamicTreewidth) (n : Nat) : DynamicTreewidth :=
  ((t.markNeighborsDirty n).removeNodeInternal n).maybeUpdate

/-! ### Loading -/

/-- Load a typed edge, if both its endpoints have a uid and are not the same. `nodes` stands for the map from
    nodes to uids. -/
def loadEdge (nodes : List NodeId) (t : DynamicTreewidth) (edge : Edge) : Option DynamicTreewidth :=
  match nodes.idxOf? edge.srcNode, nodes.idxOf? edge.tgtNode with
  | some su, some tu => if su ≠ tu then t.addEdgeInternal su tu else some t
  | _, _ => some t

/-- Load the skeleton of a type graph, its nodes by their uids. -/
def loadTypeGraph (t : DynamicTreewidth) (g : TypeGraph) : Option DynamicTreewidth :=
  let nodes := g.skeletonNodes
  ((List.range nodes.length).foldlM addNodeInternal { t with slots := [] }).bind fun t =>
    (g.edges.iter.map Prod.snd).foldlM (loadEdge nodes) t

/-- `DynamicTreewidth::from_type_graph`. -/
def fromTypeGraph (g : TypeGraph) : Option DynamicTreewidth :=
  (new.loadTypeGraph g).map fullRecompute

end DynamicTreewidth

/-- A call of the tracker: an edit that it is told of, or a recomputation. -/
inductive TrackerOp where
  | addNode (n : Nat)
  | removeNode (n : Nat)
  | addEdge (u v : Nat)
  | removeEdge (u v : Nat)
  | fullRecompute
deriving DecidableEq, Repr

def TrackerOp.apply (t : DynamicTreewidth) : TrackerOp → Option DynamicTreewidth
  | .addNode n => t.onAddNode n
  | .removeNode n => some (t.onRemoveNode n)
  | .addEdge u v => t.onAddEdge u v
  | .removeEdge u v => some (t.onRemoveEdge u v)
  | .fullRecompute => some t.fullRecompute

end SotFs
