/-
Module: SotFs.Core.Graph
Layer: Core
Purpose: The in-memory type graph (sotfs-graph/src/graph.rs): seven arenas, the secondary indexes, the side
  tables and the id allocators; its construction, its insert/get/remove helpers, name lookup, path
  resolution and the downward search behind the cycle check of rename. Ids are natural numbers and reach
  an arena through `idToArena`, which keeps the low 32 bits as the source does. Machine arithmetic that the
  source leaves unchecked wraps, as in a release build; the id counters do not wrap, since no run issues
  2^64 ids.
Trusted boundary: human-reviewed model
Main exports: TypeGraph, TypeGraph.new, TypeGraph.insertEdge, TypeGraph.removeEdge, TypeGraph.lookupName,
  TypeGraph.resolveName, TypeGraph.listDir, TypeGraph.parentDir, TypeGraph.resolvePath,
  TypeGraph.isAncestor
-/
import SotFs.Foundation.SetIndex
import SotFs.Foundation.GraphSearch
import SotFs.Core.Arena
import SotFs.Core.Types

namespace SotFs

open Std Foundation

/-- Maximum hard links per inode. -/
def LINK_MAX : Nat := 65535

/-- Arena capacity of every node pool. -/
def NODE_CAPACITY : Nat := 65536

/-- Arena capacity of the edge pool. -/
def EDGE_CAPACITY : Nat := 131072

/-- The arena slot a 64-bit id addresses: `id as u32`. -/
def idToArena (id : Nat) : Nat := id % 2 ^ 32

/-- The order of `(DirId, String)` keys. -/
abbrev nameKeyCmp : DirId × String → DirId × String → Ordering :=
  compareLex (compareOn Prod.fst) (compareOn Prod.snd)

instance : LawfulEqCmp nameKeyCmp where
  eq_of_compare := by
    intro a b h
    simp only [nameKeyCmp, compareLex_eq_eq, compareOn, Std.compare_eq_iff_eq] at h
    exact Prod.ext h.1 h.2

instance : TransCmp nameKeyCmp := inferInstanceAs (TransCmp (compareLex _ _))

/-- `(directory, name)` to the edge that carries the name. -/
abbrev NameIndex := ExtTreeMap (DirId × String) EdgeId nameKeyCmp

/-- The typed metadata graph. -/
structure TypeGraph where
  inodes : Arena Inode NODE_CAPACITY
  dirs : Arena Directory NODE_CAPACITY
  caps : Arena Capability NODE_CAPACITY
  transactions : Arena Transaction NODE_CAPACITY
  versions : Arena Version NODE_CAPACITY
  blocks : Arena Block NODE_CAPACITY
  edges : Arena Edge EDGE_CAPACITY
  dirContains : SetIndex DirId EdgeId
  inodeIncomingContains : SetIndex InodeId EdgeId
  inodePointsTo : SetIndex InodeId EdgeId
  capGrants : ExtTreeMap CapId EdgeId
  capParent : ExtTreeMap CapId CapId
  capChildren : SetIndex CapId CapId
  fileData : ExtTreeMap InodeId (List UInt8)
  xattrs : ExtTreeMap XAttrId XAttr
  inodeXattrs : SetIndex InodeId XAttrId
  nextXattr : Nat
  symlinkTargets : ExtTreeMap InodeId SymlinkTarget
  dirForInodeIdx : ExtTreeMap InodeId DirId
  dirNameIdx : NameIndex
  acls : ExtTreeMap InodeId (List AclEntry)
  quotas : ExtTreeMap DirId Quota
  provLog : Option ProvenanceLog
  capCtx : CapContext
  nextInode : Nat
  nextDir : Nat
  nextCap : Nat
  nextTxn : Nat
  nextVersion : Nat
  nextBlock : Nat
  nextEdge : Nat
  rootDir : DirId
  rootInode : InodeId

namespace TypeGraph

/-! ### Insert, get and remove helpers

The insert helpers drop the answer of `insertAt`, as the source does. -/

def insertInode (g : TypeGraph) (id : InodeId) (inode : Inode) : TypeGraph :=
  { g with inodes := (g.inodes.insertAt (idToArena id) inode).2 }

/-- Insert a directory and its reverse index entry. -/
def insertDir (g : TypeGraph) (id : DirId) (dir : Directory) : TypeGraph :=
  { g with dirs := (g.dirs.insertAt (idToArena id) dir).2
           dirForInodeIdx := g.dirForInodeIdx.insert dir.inodeId id }

def insertCap (g : TypeGraph) (id : CapId) (cap : Capability) : TypeGraph :=
  { g with caps := (g.caps.insertAt (idToArena id) cap).2 }

def insertBlock (g : TypeGraph) (id : BlockId) (block : Block) : TypeGraph :=
  { g with blocks := (g.blocks.insertAt (idToArena id) block).2 }

/-- Insert an edge; a `contains` edge is entered in the name index first. -/
def insertEdge (g : TypeGraph) (id : EdgeId) (edge : Edge) : TypeGraph :=
  let g :=
    match edge with
    | .contains _ src _ name => { g with dirNameIdx := g.dirNameIdx.insert (src, name) id }
    | _ => g
  { g with edges := (g.edges.insertAt (idToArena id) edge).2 }

def getInode (g : TypeGraph) (id : InodeId) : Option Inode := g.inodes.get (idToArena id)
def getDir (g : TypeGraph) (id : DirId) : Option Directory := g.dirs.get (idToArena id)
def getCap (g : TypeGraph) (id : CapId) : Option Capability := g.caps.get (idToArena id)
def getBlock (g : TypeGraph) (id : BlockId) : Option Block := g.blocks.get (idToArena id)
def getEdge (g : TypeGraph) (id : EdgeId) : Option Edge := g.edges.get (idToArena id)

/-- A write through `get_inode_mut`. -/
def modifyInode (g : TypeGraph) (id : InodeId) (f : Inode → Inode) : TypeGraph :=
  { g with inodes := g.inodes.modify (idToArena id) f }

/-- A write through `get_block_mut`. -/
def modifyBlock (g : TypeGraph) (id : BlockId) (f : Block → Block) : TypeGraph :=
  { g with blocks := g.blocks.modify (idToArena id) f }

/-- A write through `get_edge_mut`. -/
def modifyEdge (g : TypeGraph) (id : EdgeId) (f : Edge → Edge) : TypeGraph :=
  { g with edges := g.edges.modify (idToArena id) f }

def containsInode (g : TypeGraph) (id : InodeId) : Bool := g.inodes.contains (idToArena id)
def containsDir (g : TypeGraph) (id : DirId) : Bool := g.dirs.contains (idToArena id)
def containsCap (g : TypeGraph) (id : CapId) : Bool := g.caps.contains (idToArena id)
def containsTxn (g : TypeGraph) (id : TxnId) : Bool := g.transactions.contains (idToArena id)
def containsVersion (g : TypeGraph) (id : VersionId) : Bool := g.versions.contains (idToArena id)
def containsBlock (g : TypeGraph) (id : BlockId) : Bool := g.blocks.contains (idToArena id)

def removeInode (g : TypeGraph) (id : InodeId) : TypeGraph :=
  { g with inodes := (g.inodes.remove (idToArena id)).2 }

/-- Remove a directory and, if there was one, its reverse index entry. -/
def removeDir (g : TypeGraph) (id : DirId) : TypeGraph :=
  let (removed, dirs) := g.dirs.remove (idToArena id)
  match removed with
  | some d => { g with dirs := dirs, dirForInodeIdx := g.dirForInodeIdx.erase d.inodeId }
  | none => { g with dirs := dirs }

def removeCap (g : TypeGraph) (id : CapId) : TypeGraph :=
  { g with caps := (g.caps.remove (idToArena id)).2 }

def removeBlock (g : TypeGraph) (id : BlockId) : TypeGraph :=
  { g with blocks := (g.blocks.remove (idToArena id)).2 }

/-- Remove an edge; a `contains` edge also leaves the name index. -/
def removeEdge (g : TypeGraph) (id : EdgeId) : Option Edge × TypeGraph :=
  let (removed, edges) := g.edges.remove (idToArena id)
  match removed with
  | none => (none, g)
  | some (.contains eid src tgt name) =>
      (some (.contains eid src tgt name),
        { g with edges := edges, dirNameIdx := g.dirNameIdx.erase (src, name) })
  | some edge => (some edge, { g with edges := edges })

/-- Rename a `contains` edge in place, keeping the name index in step. -/
def renameContainsEdge (g : TypeGraph) (eid : EdgeId) (newName : String) : Bool × TypeGraph :=
  match g.getEdge eid with
  | some (.contains _ src _ oldName) =>
      if oldName = newName then (true, g)
      else
        let g := { g with dirNameIdx := g.dirNameIdx.erase (src, oldName) }
        let g := { g with dirNameIdx := g.dirNameIdx.insert (src, newName) eid }
        (true, g.modifyEdge eid fun
          | .contains id src tgt _ => .contains id src tgt newName
          | edge => edge)
  | _ => (false, g)

/-! ### Id allocation -/

def allocInodeId (g : TypeGraph) : InodeId × TypeGraph :=
  (g.nextInode, { g with nextInode := g.nextInode + 1 })

def allocDirId (g : TypeGraph) : DirId × TypeGraph :=
  (g.nextDir, { g with nextDir := g.nextDir + 1 })

def allocXattrId (g : TypeGraph) : XAttrId × TypeGraph :=
  (g.nextXattr, { g with nextXattr := g.nextXattr + 1 })

def allocCapId (g : TypeGraph) : CapId × TypeGraph :=
  (g.nextCap, { g with nextCap := g.nextCap + 1 })

def allocBlockId (g : TypeGraph) : BlockId × TypeGraph :=
  (g.nextBlock, { g with nextBlock := g.nextBlock + 1 })

def allocEdgeId (g : TypeGraph) : EdgeId × TypeGraph :=
  (g.nextEdge, { g with nextEdge := g.nextEdge + 1 })

/-! ### Construction -/

/-- The graph with empty pools, before the root is inserted. -/
def empty : TypeGraph where
  inodes := .new
  dirs := .new
  caps := .new
  transactions := .new
  versions := .new
  blocks := .new
  edges := .new
  dirContains := ∅
  inodeIncomingContains := ∅
  inodePointsTo := ∅
  capGrants := ∅
  capParent := ∅
  capChildren := ∅
  fileData := ∅
  xattrs := ∅
  inodeXattrs := ∅
  nextXattr := 1
  symlinkTargets := ∅
  dirForInodeIdx := ∅
  dirNameIdx := ∅
  acls := ∅
  quotas := ∅
  provLog := none
  capCtx := .anonymous
  nextInode := 2
  nextDir := 2
  nextCap := 1
  nextTxn := 1
  nextVersion := 1
  nextBlock := 1
  nextEdge := 2
  rootDir := 1
  rootInode := 1

/-- `TypeGraph::new`: the root directory, its inode and its "." edge. -/
def new (now : Timestamp) : TypeGraph :=
  let inodeId := 1
  let dirId := 1
  let dotEdgeId := 1
  let rootInode := { Inode.newDir now inodeId .dirDefault 0 0 with linkCount := 1 }
  { empty with
    inodes := (empty.inodes.insertAt (idToArena inodeId) rootInode).2
    dirs := (empty.dirs.insertAt (idToArena dirId) ⟨dirId, inodeId⟩).2
    dirForInodeIdx := empty.dirForInodeIdx.insert inodeId dirId
    edges := (empty.edges.insertAt (idToArena dotEdgeId) (.contains dotEdgeId dirId inodeId ".")).2
    dirContains := SetIndex.add empty.dirContains dirId dotEdgeId
    inodeIncomingContains := SetIndex.add empty.inodeIncomingContains inodeId dotEdgeId
    dirNameIdx := empty.dirNameIdx.insert (dirId, ".") dotEdgeId }

/-! ### Provenance, capability context and admission -/

def enableProvLog (g : TypeGraph) : TypeGraph := { g with provLog := some [] }

def disableProvLog (g : TypeGraph) : TypeGraph := { g with provLog := none }

/-- Append an entry under the current context, if logging is enabled. -/
def recordProv (g : TypeGraph) (now : Timestamp) (op : ProvOp) (inodeId : InodeId) (detail : String) :
    TypeGraph :=
  { g with
    provLog := g.provLog.map fun log =>
      log ++ [⟨now, op, inodeId, g.capCtx.capId, g.capCtx.domainId, detail⟩] }

def setCapCtx (g : TypeGraph) (ctx : CapContext) : TypeGraph := { g with capCtx := ctx }

/-- Admission control: the anonymous context passes, a capability must exist and carry the rights. -/
def requireCap (g : TypeGraph) (needed : UInt8) : Except GraphError Unit :=
  match g.capCtx.capId with
  | none => .ok ()
  | some capId =>
      match g.getCap capId with
      | none => .error (.capNotFound capId)
      | some cap =>
          if cap.rights.contains needed then .ok ()
          else .error (.capInsufficientRights needed cap.rights.bits)

/-! ### Name lookup -/

/-- The `contains` edges recorded for a directory, in edge order, with their targets and names. -/
def dirEntries (g : TypeGraph) (dir : DirId) : List (EdgeId × InodeId × String) :=
  (SetIndex.members g.dirContains dir).toList.filterMap fun eid =>
    match g.getEdge eid with
    | some (.contains _ _ tgt name) => some (eid, tgt, name)
    | _ => none

/-- The linear scan of `dir_contains[dir]` for a name, the cold path of `lookup_name`. -/
def scanName (g : TypeGraph) (dir : DirId) (name : String) : Option Edge :=
  ((g.dirEntries dir).find? fun entry => entry.2.2 = name).bind fun entry => g.getEdge entry.1

/-- Find the edge of a name: through the index, or by the scan when the index is empty. -/
def lookupName (g : TypeGraph) (dir : DirId) (name : String) : Option Edge :=
  if !g.dirNameIdx.isEmpty then
    match g.dirNameIdx[(dir, name)]? with
    | some eid => g.getEdge eid
    | none => none
  else g.scanName dir name

/-- The inode a name leads to. -/
def resolveName (g : TypeGraph) (dir : DirId) (name : String) : Option InodeId :=
  match g.lookupName dir name with
  | some (.contains _ _ tgt _) => some tgt
  | _ => none

/-- All names of a directory, for readdir. -/
def listDir (g : TypeGraph) (dir : DirId) : List (String × InodeId) :=
  (g.dirEntries dir).map fun entry => (entry.2.2, entry.2.1)

/-- The index that `rebuild_dir_name_idx` builds from `dir_contains`. -/
def rebuiltNameIdx (g : TypeGraph) : NameIndex :=
  let entries := g.dirContains.toList.flatMap fun (dir, _) =>
    (g.dirEntries dir).map fun entry => ((dir, entry.2.2), entry.1)
  entries.foldl (fun idx entry => idx.insert entry.1 entry.2) ∅

def rebuildDirNameIdx (g : TypeGraph) : TypeGraph := { g with dirNameIdx := g.rebuiltNameIdx }

/-- The directory whose inode this is. -/
def dirForInode (g : TypeGraph) (inodeId : InodeId) : Option DirId := g.dirForInodeIdx[inodeId]?

/-- The parent directory, by the ".." entry. -/
def parentDir (g : TypeGraph) (dir : DirId) : Option DirId :=
  match g.resolveName dir ".." with
  | some parentInode => g.dirForInode parentInode
  | none => none

/-! ### Path resolution -/

/-- The components of a path that resolution walks: empty and "." components are skipped. -/
def pathComponents (path : String) : List String :=
  ((path.toList.splitOn '/').map String.ofList).filter fun c => c ≠ "" && c ≠ "."

/-- One component of `resolve_path` from the current directory and inode. -/
def resolveComponent (g : TypeGraph) (current : DirId × InodeId) (component : String) :
    Except GraphError (DirId × InodeId) :=
  if component = ".." then
    match g.resolveName current.1 ".." with
    | some parentInode =>
        match g.dirForInode parentInode with
        | some dir => .ok (dir, parentInode)
        | none => .error (.notADirectory parentInode)
    | none => .ok current
  else
    match g.resolveName current.1 component with
    | none => .error (.nameNotFound component)
    | some targetInode =>
        match g.getInode targetInode with
        | some inode =>
            if inode.vtype = .directory then
              match g.dirForInode targetInode with
              | some dir => .ok (dir, targetInode)
              | none => .error (.notADirectory targetInode)
            else .ok (current.1, targetInode)
        | none => .ok (current.1, targetInode)

/-- Resolve a path from the root to its directory and inode. -/
def resolvePath (g : TypeGraph) (path : String) : Except GraphError (DirId × InodeId) :=
  (pathComponents path).foldlM g.resolveComponent (g.rootDir, g.rootInode)

/-! ### The downward search of the cycle check -/

/-- The directories that the entries of `dir` other than "." and ".." lead to: entry by entry, the target is
    a live directory inode with a directory of its own. -/
def childDirs (g : TypeGraph) (dir : DirId) : List DirId :=
  (g.dirEntries dir).filterMap fun entry =>
    if entry.2.2 = "." ∨ entry.2.2 = ".." then none
    else
      match g.getInode entry.2.1 with
      | some inode => if inode.vtype = .directory then g.dirForInode entry.2.1 else none
      | none => none

/-- `is_descendant_of`: depth-first search for `target` below `current`. Only directories with an entry
    set have children, so a recursion deeper than their number never happens. -/
def isDescendantOf (g : TypeGraph) (current target : DirId) : Bool :=
  (GraphSearch.search g.childDirs target (g.dirContains.size + 1) current ∅).1

/-- Whether `ancestorDir` is `descendantDir` or lies above it. -/
def isAncestor (g : TypeGraph) (ancestorDir descendantDir : DirId) : Bool :=
  ancestorDir == descendantDir || g.isDescendantOf ancestorDir descendantDir

end TypeGraph

end SotFs
