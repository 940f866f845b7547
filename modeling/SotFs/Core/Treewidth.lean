/-
Module: SotFs.Core.Treewidth
Layer: Core
Purpose: The treewidth monitor of sotfs-monitor (treewidth.rs), the part that recomputes: the undirected
  skeleton of the type graph on consecutive uids, its greedy min-degree elimination and the check against a
  limit.
Trusted boundary: human-reviewed model
Main exports: TypeGraph.skeleton, greedyWidth, computeTreewidth, TreewidthResult, checkTreewidth
-/
import SotFs.Core.Graph

namespace SotFs

open Std Foundation

/-- An undirected graph on uids: the neighbour set of each. -/
abbrev Adjacency := SetIndex Nat Nat

namespace Adjacency

/-- Record an undirected edge. -/
def connect (adj : Adjacency) (a b : Nat) : Adjacency := SetIndex.add (SetIndex.add adj a b) b a

/-- The neighbours of `v` that remain. -/
def neighbors (adj : Adjacency) (remaining : List Nat) (v : Nat) : List Nat :=
  (SetIndex.members adj v).toList.filter fun n => n ∈ remaining

/-- Connect all pairs of a list. -/
def fill (adj : Adjacency) : List Nat → Adjacency
  | [] => adj
  | a :: rest => fill (rest.foldl (fun adj b => adj.connect a b) adj) rest

end Adjacency

namespace TypeGraph

/-- The nodes of the skeleton, in the order of their uids. -/
def skeletonNodes (g : TypeGraph) : List NodeId :=
  g.inodes.iter.map (fun entry => .inode entry.1) ++ g.dirs.iter.map (fun entry => .directory entry.1) ++
    g.caps.iter.map (fun entry => .capability entry.1) ++ g.blocks.iter.map (fun entry => .block entry.1) ++
    g.versions.iter.map fun entry => .version entry.1

/-- Add a typed edge to the skeleton, if both its endpoints have a uid and are not the same. `nodes` stands
    for the map from nodes to uids. -/
def addSkeletonEdge (nodes : List NodeId) (adj : Adjacency) (edge : Edge) : Adjacency :=
  match nodes.idxOf? edge.srcNode, nodes.idxOf? edge.tgtNode with
  | some su, some tu => if su ≠ tu then adj.connect su tu else adj
  | _, _ => adj

/-- The undirected skeleton. -/
def skeleton (g : TypeGraph) : Adjacency :=
  let nodes := g.skeletonNodes
  let adj := (List.range nodes.length).foldl (fun adj uid => adj.insertIfNew uid ∅) ∅
  (g.edges.iter.map Prod.snd).foldl (addSkeletonEdge nodes) adj

end TypeGraph

/-- Greedy elimination: the first remaining vertex of minimal degree is taken out and its remaining
    neighbours are connected, until none remains. The result is the largest degree met. -/
def greedyWidth : Nat → Adjacency → List Nat → Nat → Nat
  | 0, _, _, maxWidth => maxWidth
  | fuel + 1, adj, remaining, maxWidth =>
      match remaining.argmin fun u => (adj.neighbors remaining u).length with
      | none => maxWidth
      | some v =>
          let neighbors := adj.neighbors remaining v
          greedyWidth fuel (adj.fill neighbors) (remaining.erase v) (max maxWidth neighbors.length)

/-- `compute_treewidth`: an upper bound on the treewidth of the skeleton. -/
def computeTreewidth (g : TypeGraph) : Nat :=
  let n := g.skeletonNodes.length
  greedyWidth n g.skeleton (List.range n) 0

/-- Result of a treewidth check. -/
structure TreewidthResult where
  upperBound : Nat
  withinLimit : Bool
  limit : Nat
  nodeCount : Nat
  edgeCount : Nat
deriving DecidableEq, Repr

def checkTreewidth (g : TypeGraph) (limit : Nat) : TreewidthResult :=
  let upperBound := computeTreewidth g
  { upperBound := upperBound
    withinLimit := decide (upperBound ≤ limit)
    limit := limit
    nodeCount := g.inodes.len + g.dirs.len + g.caps.len + g.blocks.len + g.versions.len
    edgeCount := g.edges.len }

end SotFs
