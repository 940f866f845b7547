/-
Module: SotFs.Core.Fsck
Layer: Core
Purpose: The offline verifier `fsck` (sotfs-ops/src/lib.rs). It goes through the whole graph and collects
  every error it sees, where `check_invariants` stops at the first. Its walks, its cycle search and the
  edges it looks at are its own.
Trusted boundary: human-reviewed model
Main exports: FsckError, FsckReport, TypeGraph.hasCycleDfs, fsck
-/
import SotFs.Core.Checks

namespace SotFs

open Std Foundation

/-- A specific fsck error. -/
inductive FsckError where
  | containsFromNoDir (edge : EdgeId) (dir : DirId)
  | containsToNoInode (edge : EdgeId) (inode : InodeId)
  | pointsToFromNoInode (edge : EdgeId) (inode : InodeId)
  | pointsToNoBlock (edge : EdgeId) (block : BlockId)
  | linkCount (inode : InodeId) (linkCount incoming : Nat)
  | duplicateName (dir : DirId) (name : String)
  | dirCycle (dir : DirId)
  | blockRefcount (block : BlockId) (refcount incoming : Nat)
  | xattrsOfNoInode (inode : InodeId)
  | noXattr (inode : InodeId) (xattr : XAttrId)
deriving DecidableEq, Repr

namespace FsckError

def invariant : FsckError → String
  | .containsFromNoDir .. | .containsToNoInode .. | .pointsToFromNoInode .. | .pointsToNoBlock .. =>
      "NoDanglingEdges"
  | .linkCount .. => "LinkCountConsistent"
  | .duplicateName .. => "UniqueNamesPerDir"
  | .dirCycle _ => "NoDirCycles"
  | .blockRefcount .. => "BlockRefcount"
  | .xattrsOfNoInode _ | .noXattr .. => "XattrIntegrity"

def description : FsckError → String
  | .containsFromNoDir edge dir => s!"Contains edge {edge} references nonexistent dir {dir}"
  | .containsToNoInode edge inode => s!"Contains edge {edge} references nonexistent inode {inode}"
  | .pointsToFromNoInode edge inode => s!"PointsTo edge {edge} references nonexistent inode {inode}"
  | .pointsToNoBlock edge block => s!"PointsTo edge {edge} references nonexistent block {block}"
  | .linkCount inode links incoming =>
      s!"inode {inode}: link_count={links} but {incoming} incoming non-dotdot edges"
  | .duplicateName dir name => s!"dir {dir}: duplicate name '{name}'"
  | .dirCycle dir => s!"cycle detected involving dir {dir}"
  | .blockRefcount block refcount incoming =>
      s!"block {block}: refcount={refcount} but {incoming} incoming PointsTo edges"
  | .xattrsOfNoInode inode => s!"xattr index references nonexistent inode {inode}"
  | .noXattr inode xattr => s!"inode {inode} references nonexistent xattr {xattr}"

end FsckError

/-- Result of an fsck check. -/
structure FsckReport where
  errors : List FsckError
  warnings : List String
  inodeCount : Nat
  dirCount : Nat
  edgeCount : Nat
deriving DecidableEq, Repr

namespace TypeGraph

/-- The endpoints of `contains` and `pointsTo` edges exist; edges of other kinds are passed over. -/
def fsckEdges (g : TypeGraph) : List FsckError :=
  g.edges.iter.flatMap fun (_, edge) =>
    match edge with
    | .contains id src tgt _ =>
        (if !g.containsDir src then [.containsFromNoDir id src] else []) ++
          (if !g.containsInode tgt then [.containsToNoInode id tgt] else [])
    | .pointsTo id src tgt _ =>
        (if !g.containsInode src then [.pointsToFromNoInode id src] else []) ++
          (if !g.containsBlock tgt then [.pointsToNoBlock id tgt] else [])
    | _ => []

def fsckLinkCounts (g : TypeGraph) : List FsckError :=
  g.inodes.iter.flatMap fun (_, inode) =>
    let incoming := ((g.incomingNames inode.id).filter (· ≠ "..")).length
    if inode.linkCount ≠ incoming then [.linkCount inode.id inode.linkCount incoming] else []

/-- Every name of a list that occurred earlier in it or in `seen`. -/
def duplicates (seen : List String) : List String → List String
  | [] => []
  | name :: names =>
      (if name ∈ seen then [name] else []) ++ duplicates (seen ++ [name]) names

def fsckNames (g : TypeGraph) : List FsckError :=
  g.dirContains.toList.flatMap fun (dirId, _) =>
    (duplicates [] ((g.dirEntries dirId).map fun entry => entry.2.2)).map (.duplicateName dirId)

/-- `has_cycle_dfs`: depth-first search with the directories met so far and those on the path. The path is
    taken back on the way out of a search that found nothing; a recursion deeper than the number of entry
    sets never happens. -/
def hasCycleDfs (g : TypeGraph) : Nat → DirId → Finset DirId × Finset DirId →
    Bool × (Finset DirId × Finset DirId)
  | 0, _, met => (false, met)
  | fuel + 1, dir, (visited, stack) =>
      let visit := fun child (met : Finset DirId × Finset DirId) =>
        if child ∈ met.2 then (true, met)
        else if child ∈ met.1 then (false, met)
        else hasCycleDfs g fuel child met
      match GraphSearch.anyChild visit (g.childDirs dir) (insert dir visited, insert dir stack) with
      | (true, met) => (true, met)
      | (false, (visited, stack)) => (false, (visited, stack.erase dir))

/-- The cycle search from one directory that was not met yet. -/
def fsckCycleFrom (g : TypeGraph) (acc : List FsckError × (Finset DirId × Finset DirId)) (dir : DirId) :
    List FsckError × (Finset DirId × Finset DirId) :=
  if dir ∈ acc.2.1 then acc
  else
    match g.hasCycleDfs (g.dirContains.size + 2) dir acc.2 with
    | (true, met) => (acc.1 ++ [.dirCycle dir], met)
    | (false, met) => (acc.1, met)

def fsckCycles (g : TypeGraph) : List FsckError :=
  ((g.dirs.iter.map fun entry => entry.2.id).foldl g.fsckCycleFrom ([], (∅, ∅))).1

def fsckBlocks (g : TypeGraph) : List FsckError :=
  g.blocks.iter.flatMap fun (_, block) =>
    let incoming :=
      (g.edges.iter.filter fun entry =>
        match entry.2 with
        | .pointsTo _ _ tgt _ => tgt = block.id
        | _ => false).length
    if block.refcount ≠ incoming then [.blockRefcount block.id block.refcount incoming] else []

def fsckXattrs (g : TypeGraph) : List FsckError :=
  g.inodeXattrs.toList.flatMap fun (inodeId, xattrIds) =>
    (if !g.containsInode inodeId then [.xattrsOfNoInode inodeId] else []) ++
      xattrIds.toList.flatMap fun xid =>
        if !g.xattrs.contains xid then [.noXattr inodeId xid] else []

/-- Inodes other than the root without a recorded incoming edge. -/
def fsckOrphans (g : TypeGraph) : List String :=
  g.inodes.iter.flatMap fun (_, inode) =>
    if inode.id ≠ g.rootInode ∧ (SetIndex.members g.inodeIncomingContains inode.id).size = 0 then
      [s!"orphan inode {inode.id} (no incoming edges)"]
    else []

end TypeGraph

/-- Run all structural invariant checks on the graph. -/
def fsck (g : TypeGraph) : FsckReport where
  errors := g.fsckEdges ++ g.fsckLinkCounts ++ g.fsckNames ++ g.fsckCycles ++ g.fsckBlocks ++ g.fsckXattrs
  warnings := g.fsckOrphans
  inodeCount := g.inodes.len
  dirCount := g.dirs.len
  edgeCount := g.edges.len

end SotFs
