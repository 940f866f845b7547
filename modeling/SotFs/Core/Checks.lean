/-
Module: SotFs.Core.Checks
Layer: Core
Purpose: The runtime verifier of the type graph, `check_invariants` and the nine checks it runs in order
  (sotfs-graph/src/graph.rs). Each check walks its pools and indexes in the order of the source and reports
  the first violation.
Trusted boundary: human-reviewed model
Main exports: TypeGraph.checkInvariants, TypeGraph.checkLinkCountConsistency, TypeGraph.checkUniqueNames,
  TypeGraph.checkDirSelfRef, TypeGraph.checkNoDanglingEdges, TypeGraph.checkBlockRefcount,
  TypeGraph.checkNoDirCycles, TypeGraph.checkCapMonotonicity, TypeGraph.checkNoHardLinkToDir,
  TypeGraph.checkDirNameIdxConsistency
-/
import SotFs.Core.Graph

namespace SotFs

open Std Foundation

/-- Run a check on every element, stopping at the first violation. -/
def forEach {α : Type} (xs : List α) (check : α → Except Violation Unit) : Except Violation Unit :=
  xs.forM check

/-- The checks pass when each of them does. -/
theorem forEach_ok_iff {α : Type} {xs : List α} {check : α → Except Violation Unit} :
    forEach xs check = .ok () ↔ ∀ x ∈ xs, check x = .ok () := by
  unfold forEach
  induction xs with
  | nil =>
      rw [List.forM_eq_forM, List.forM_nil]
      exact ⟨fun _ x hx => absurd hx List.not_mem_nil, fun _ => rfl⟩
  | cons x xs ih =>
      rw [List.forM_eq_forM, List.forM_cons, List.forall_mem_cons, ← ih]
      cases check x with
      | error v =>
          constructor
          · intro h
            cases h
          · rintro ⟨h, _⟩
            cases h
      | ok _ => exact ⟨fun h => ⟨rfl, h⟩, fun h => h.2⟩

namespace TypeGraph

/-- The names of the `contains` edges recorded under an inode, in edge order. -/
def incomingNames (g : TypeGraph) (inodeId : InodeId) : List String :=
  (SetIndex.members g.inodeIncomingContains inodeId).toList.filterMap fun eid =>
    match g.getEdge eid with
    | some (.contains _ _ _ name) => some name
    | _ => none

/-- `link_count` is the number of incoming `contains` edges other than "..". -/
def checkLinkCountConsistency (g : TypeGraph) : Except Violation Unit :=
  forEach g.inodes.iter fun (id, inode) =>
    let count := ((g.incomingNames id).filter (· ≠ "..")).length
    if inode.linkCount ≠ count then .error (.linkCount id inode.linkCount count) else .ok ()

/-- The first name of a list that occurs in `seen` or earlier in the list. -/
def firstDuplicate (seen : List String) : List String → Option String
  | [] => none
  | name :: names => if name ∈ seen then some name else firstDuplicate (name :: seen) names

/-- No directory has two edges of one name. -/
def checkUniqueNames (g : TypeGraph) : Except Violation Unit :=
  forEach g.dirContains.toList fun (dirId, _) =>
    match firstDuplicate [] ((g.dirEntries dirId).map fun entry => entry.2.2) with
    | some name => .error (.duplicateName dirId name)
    | none => .ok ()

/-- Every directory has its "." edge. -/
def checkDirSelfRef (g : TypeGraph) : Except Violation Unit :=
  forEach g.dirs.iter fun (dirId, dir) =>
    if (g.dirEntries dirId).any fun entry => entry.2.2 = "." ∧ entry.2.1 = dir.inodeId then .ok ()
    else .error (.missingSelfRef dirId)

/-- Whether a node is live. -/
def containsNode (g : TypeGraph) : NodeId → Bool
  | .inode id => g.containsInode id
  | .directory id => g.containsDir id
  | .capability id => g.containsCap id
  | .transaction id => g.containsTxn id
  | .version id => g.containsVersion id
  | .block id => g.containsBlock id
  | .xattr id => g.xattrs.contains id

/-- Both endpoints of every edge are live. -/
def checkNoDanglingEdges (g : TypeGraph) : Except Violation Unit :=
  forEach g.edges.iter fun (eid, edge) =>
    let srcExists := g.containsNode edge.srcNode
    let tgtExists := g.containsNode edge.tgtNode
    if !srcExists || !tgtExists then .error (.danglingEdge eid srcExists tgtExists) else .ok ()

/-- A block's refcount is its number of incoming `pointsTo` edges. -/
def checkBlockRefcount (g : TypeGraph) : Except Violation Unit :=
  forEach g.blocks.iter fun (id, block) =>
    let actual :=
      (g.edges.iter.filter fun entry =>
        match entry.2 with
        | .pointsTo _ _ tgt _ => tgt = id
        | _ => false).length
    if block.refcount ≠ actual then .error (.blockRefcount id block.refcount actual) else .ok ()

/-- `has_cycle_from`: whether the search below `start` meets a directory of its own path. The path is taken
    back on the way out, and a recursion deeper than the number of entry sets never happens. -/
def hasCycleFrom (g : TypeGraph) : Nat → DirId → Finset DirId → Bool × Finset DirId
  | 0, _, visited => (false, visited)
  | fuel + 1, start, visited =>
      if start ∈ visited then (true, visited)
      else
        match GraphSearch.anyChild (hasCycleFrom g fuel) (g.childDirs start) (insert start visited) with
        | (true, visited) => (true, visited)
        | (false, visited) => (false, visited.erase start)

/-- No directory lies on a cycle of entries. -/
def checkNoDirCycles (g : TypeGraph) : Except Violation Unit :=
  forEach g.dirs.iter fun (dirId, _) =>
    if (g.hasCycleFrom (g.dirContains.size + 2) dirId ∅).1 then .error (.directoryCycle dirId)
    else .ok ()

/-- A delegated capability has no right its parent lacks. -/
def checkCapMonotonicity (g : TypeGraph) : Except Violation Unit :=
  forEach g.capParent.toList fun (childId, parentId) =>
    match g.getCap childId, g.getCap parentId with
    | some child, some parent =>
        if child.rights.isSubsetOf parent.rights then .ok ()
        else .error (.capMonotonicity childId child.rights parentId parent.rights)
    | _, _ => .ok ()

/-- A directory inode has at most one incoming edge with a user name. -/
def checkNoHardLinkToDir (g : TypeGraph) : Except Violation Unit :=
  forEach g.inodes.iter fun (id, inode) =>
    if inode.vtype ≠ .directory then .ok ()
    else
      let userNames := (g.incomingNames id).filter fun name => name ≠ "." ∧ name ≠ ".."
      if 1 < userNames.length then .error (.hardLinkToDir id userNames) else .ok ()

/-- Every recorded edge has its own index entry. -/
def checkIndexForward (g : TypeGraph) : Except Violation Unit :=
  forEach g.dirContains.toList fun (dirId, edgeIds) =>
    forEach edgeIds.toList fun eid =>
      match g.getEdge eid with
      | some (.contains _ src _ name) =>
          if src ≠ dirId then .error (.indexedUnderWrongDir eid dirId src)
          else
            match g.dirNameIdx[(dirId, name)]? with
            | some got => if got = eid then .ok () else .error (.indexEntryWrong dirId name got eid)
            | none => .error (.indexEntryMissing dirId name eid)
      | _ => .ok ()

/-- Every index entry leads to a live edge of that directory and name. -/
def checkIndexBackward (g : TypeGraph) : Except Violation Unit :=
  forEach g.dirNameIdx.toList fun ((dirId, name), eid) =>
    match g.getEdge eid with
    | some (.contains _ src _ n) =>
        if src = dirId ∧ n = name then .ok () else .error (.indexEntryStale dirId name eid src n)
    | some _ => .error (.indexEntryNotContains eid)
    | none => .error (.indexEntryDangling eid)

/-- The name index agrees with the recorded edges in both directions. -/
def checkDirNameIdxConsistency (g : TypeGraph) : Except Violation Unit := do
  g.checkIndexForward
  g.checkIndexBackward

/-- `check_invariants`: the first violation of any check. -/
def checkInvariants (g : TypeGraph) : Except GraphError Unit :=
  (do g.checkLinkCountConsistency
      g.checkUniqueNames
      g.checkDirSelfRef
      g.checkNoDanglingEdges
      g.checkBlockRefcount
      g.checkNoDirCycles
      g.checkCapMonotonicity
      g.checkNoHardLinkToDir
      g.checkDirNameIdxConsistency).mapError .invariantViolation

end TypeGraph

end SotFs
