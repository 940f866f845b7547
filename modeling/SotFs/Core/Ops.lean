/-
Module: SotFs.Core.Ops
Layer: Core
Purpose: The graph rewriting operations of sotfs-ops (sotfs-ops/src/lib.rs). An operation maps the graph to
  an outcome and the graph it leaves behind, on every exit: the state that an error, a panic or an endless
  loop leaves is part of the result. `now` supplies the clock readings of one call, one index for each place
  that reads the clock.
Trusted boundary: human-reviewed model
Main exports: Outcome, createFile, mkdir, rmdir, link, unlink, rename, symlink, writeBlock, writeData,
  truncate, chmod, chown, setxattr, removexattr, setacl, setQuota
-/
import SotFs.Core.Graph

namespace SotFs

open Std Foundation

/-- How a call ends: with a value, with an error, in a panic, or not at all. -/
inductive Outcome (α : Type) where
  | ok (value : α)
  | err (e : GraphError)
  | panic
  | diverges
deriving DecidableEq, Repr

namespace TypeGraph

/-! ### Quota walks

The three walks follow ".." from a directory upwards, until there is no parent or a directory is its own
parent. A walk that visits more directories than there are ".." entries has repeated one and, the graph
being unchanged along the walk but for its quota counters, never ends. -/

/-- A bound on the directories a terminating walk visits. -/
def walkFuel (g : TypeGraph) : Nat := g.dirNameIdx.size + g.dirContains.size + 1

/-- Fail at the first directory of the walk whose quota fails `check`. -/
def checkQuotaFrom (g : TypeGraph) (check : Quota → Bool) (resource : Resource) :
    Nat → Option DirId → Outcome Unit
  | _, none => .ok ()
  | 0, some _ => .diverges
  | fuel + 1, some d =>
      if (g.quotas[d]?.map check).getD true then
        let next := g.parentDir d
        if next = some d then .ok () else checkQuotaFrom g check resource fuel next
      else .err (.quotaExceeded d resource)

/-- Charge the quota of every directory of the walk. -/
def updateQuotaFrom (g : TypeGraph) (deltaInodes deltaBytes : Int) :
    Nat → ExtTreeMap DirId Quota → Option DirId → Option (ExtTreeMap DirId Quota)
  | _, quotas, none => some quotas
  | 0, _, some _ => none
  | fuel + 1, quotas, some d =>
      let quotas := quotas.modify d fun q => q.update deltaInodes deltaBytes
      let next := g.parentDir d
      if next = some d then some quotas else updateQuotaFrom g deltaInodes deltaBytes fuel quotas next

def checkQuotaInode (g : TypeGraph) (dirId : DirId) : Outcome Unit :=
  g.checkQuotaFrom (fun q => q.checkInode) .inode g.walkFuel (some dirId)

def checkQuotaBytes (g : TypeGraph) (dirId : DirId) (additional : Nat) : Outcome Unit :=
  g.checkQuotaFrom (fun q => q.checkBytes additional) .bytes g.walkFuel (some dirId)

/-- `update_quota`; `none` when the walk does not end. -/
def updateQuota (g : TypeGraph) (dirId : DirId) (deltaInodes deltaBytes : Int) : Option TypeGraph :=
  (g.updateQuotaFrom deltaInodes deltaBytes g.walkFuel g.quotas (some dirId)).map fun quotas =>
    { g with quotas := quotas }

/-! ### Edge bookkeeping

Every operation that makes or takes a name updates the edge arena, the name index and the two edge sets in
this order. -/

/-- Make a `contains` edge and enter it under its directory and its target. -/
def addContains (g : TypeGraph) (edgeId : EdgeId) (src : DirId) (tgt : InodeId) (name : String) :
    TypeGraph :=
  let g := g.insertEdge edgeId (.contains edgeId src tgt name)
  let g := { g with dirContains := SetIndex.add g.dirContains src edgeId }
  { g with inodeIncomingContains := SetIndex.add g.inodeIncomingContains tgt edgeId }

/-- Remove an edge and, if it is a `contains` edge, its entries under its directory and its target. -/
def detachContains (g : TypeGraph) (eid : EdgeId) : TypeGraph :=
  match g.removeEdge eid with
  | (some (.contains _ src tgt _), g) =>
      let g := { g with dirContains := SetIndex.drop g.dirContains src eid }
      { g with inodeIncomingContains := SetIndex.drop g.inodeIncomingContains tgt eid }
  | (_, g) => g

end TypeGraph

/-- The name check shared by create, mkdir and symlink. -/
def invalidName (name : String) : Bool :=
  name.isEmpty || name = "." || name = ".." || name.toList.contains '/' ||
    name.toList.contains (Char.ofNat 0)

/-! ### Namespace operations -/

def createFile (now : Nat → Timestamp) (parentDir : DirId) (name : String) (uid gid : UInt32)
    (permissions : Permissions) (g : TypeGraph) : Outcome InodeId × TypeGraph :=
  match g.requireCap Rights.write with
  | .error e => (.err e, g)
  | .ok () =>
  if invalidName name then (.err (.nameNotFound name), g)
  else if (g.resolveName parentDir name).isSome then (.err (.nameExists parentDir name), g)
  else if !g.containsDir parentDir then (.err (.dirNotFound parentDir), g)
  else
    match g.checkQuotaInode parentDir with
    | .err e => (.err e, g)
    | .panic => (.panic, g)
    | .diverges => (.diverges, g)
    | .ok () =>
      let (inodeId, g) := g.allocInodeId
      let (edgeId, g) := g.allocEdgeId
      let inode := { Inode.newFile (now 0) inodeId permissions uid gid with linkCount := 1 }
      let g := g.insertInode inodeId inode
      let g := g.addContains edgeId parentDir inodeId name
      match g.updateQuota parentDir 1 0 with
      | none => (.diverges, g)
      | some g => (.ok inodeId, g.recordProv (now 1) .create inodeId name)

structure CreateResult where
  inodeId : InodeId
  dirId : Option DirId
deriving DecidableEq, Repr

def mkdir (now : Nat → Timestamp) (parentDir : DirId) (name : String) (uid gid : UInt32)
    (permissions : Permissions) (g : TypeGraph) : Outcome CreateResult × TypeGraph :=
  match g.requireCap Rights.write with
  | .error e => (.err e, g)
  | .ok () =>
  if invalidName name then (.err (.nameNotFound name), g)
  else if (g.resolveName parentDir name).isSome then (.err (.nameExists parentDir name), g)
  else
    match g.getDir parentDir with
    | none => (.err (.dirNotFound parentDir), g)
    | some parent =>
      let parentInodeId := parent.inodeId
      match g.checkQuotaInode parentDir with
      | .err e => (.err e, g)
      | .panic => (.panic, g)
      | .diverges => (.diverges, g)
      | .ok () =>
        let (inodeId, g) := g.allocInodeId
        let (dirId, g) := g.allocDirId
        let (entryEdge, g) := g.allocEdgeId
        let (dotEdge, g) := g.allocEdgeId
        let (dotdotEdge, g) := g.allocEdgeId
        -- entry from the parent plus "."; ".." is not counted
        let inode := { Inode.newDir (now 0) inodeId permissions uid gid with linkCount := 2 }
        let g := g.insertInode inodeId inode
        let g := g.insertDir dirId ⟨dirId, inodeId⟩
        let g := g.addContains entryEdge parentDir inodeId name
        let g := g.addContains dotEdge dirId inodeId "."
        let g := g.addContains dotdotEdge dirId parentInodeId ".."
        match g.updateQuota parentDir 1 0 with
        | none => (.diverges, g)
        | some g => (.ok ⟨inodeId, some dirId⟩, g.recordProv (now 1) .mkdir inodeId name)

namespace TypeGraph

/-- Some entry of the directory is neither "." nor "..". -/
def dirNotEmpty (g : TypeGraph) (dir : DirId) : Bool :=
  (g.dirEntries dir).any fun entry => entry.2.2 ≠ "." ∧ entry.2.2 ≠ ".."

/-- The edges rmdir removes: the entry in the parent, then every edge of the directory itself. -/
def rmdirEdges (g : TypeGraph) (parentDir : DirId) (name : String) (targetInode : InodeId)
    (targetDir : DirId) : List EdgeId :=
  ((g.dirEntries parentDir).filter fun entry => entry.2.1 = targetInode ∧ entry.2.2 = name).map
      Prod.fst ++
    (SetIndex.members g.dirContains targetDir).toList

end TypeGraph

def rmdir (now : Nat → Timestamp) (parentDir : DirId) (name : String) (g : TypeGraph) :
    Outcome Unit × TypeGraph :=
  match g.requireCap Rights.write with
  | .error e => (.err e, g)
  | .ok () =>
  if name = "." ∨ name = ".." then (.err (.nameNotFound name), g)
  else
    match g.resolveName parentDir name with
    | none => (.err (.nameNotFound name), g)
    | some targetInodeId =>
      match g.getInode targetInodeId with
      | none => (.err (.inodeNotFound targetInodeId), g)
      | some inode =>
        if inode.vtype ≠ .directory then (.err (.notADirectory targetInodeId), g)
        else
          match g.dirForInode targetInodeId with
          | none => (.err (.notADirectory targetInodeId), g)
          | some targetDir =>
            if g.dirNotEmpty targetDir then (.err (.dirNotEmpty targetDir), g)
            else
              let edgesToRemove := g.rmdirEdges parentDir name targetInodeId targetDir
              let g := edgesToRemove.foldl TypeGraph.detachContains g
              let g := g.removeInode targetInodeId
              let g := g.removeDir targetDir
              let g := { g with dirContains := g.dirContains.erase targetDir }
              let g :=
                { g with inodeIncomingContains := g.inodeIncomingContains.erase targetInodeId }
              match g.updateQuota parentDir (-1) 0 with
              | none => (.diverges, g)
              | some g => (.ok (), g.recordProv (now 0) .rmdir targetInodeId name)

def link (now : Nat → Timestamp) (dir : DirId) (name : String) (targetInode : InodeId)
    (g : TypeGraph) : Outcome Unit × TypeGraph :=
  match g.requireCap Rights.write with
  | .error e => (.err e, g)
  | .ok () =>
  if name = "." ∨ name = ".." then (.err (.nameNotFound name), g)
  else if (g.resolveName dir name).isSome then (.err (.nameExists dir name), g)
  else
    match g.getInode targetInode with
    | none => (.err (.inodeNotFound targetInode), g)
    | some inode =>
      if inode.vtype = .directory then (.err (.linkToDirectory targetInode), g)
      else if LINK_MAX ≤ inode.linkCount then (.err (.linkCountExceeded LINK_MAX), g)
      else
        let (edgeId, g) := g.allocEdgeId
        let g := g.addContains edgeId dir targetInode name
        let g := g.modifyInode targetInode fun i => { i with linkCount := i.linkCount + 1 }
        (.ok (), g.recordProv (now 0) .link targetInode name)

/-- `x -= 1` on a 32-bit counter. -/
def decrement32 (x : Nat) : Nat := (x + (2 ^ 32 - 1)) % 2 ^ 32

namespace TypeGraph

/-- Release one `pointsTo` edge of a deleted inode: its block loses a reference and is freed with the last
    one. -/
def releaseBlockEdge (g : TypeGraph) (eid : EdgeId) : TypeGraph :=
  match g.removeEdge eid with
  | (some (.pointsTo _ _ blockId _), g) =>
      match g.getBlock blockId with
      | some block =>
          let g := g.modifyBlock blockId fun b => { b with refcount := decrement32 b.refcount }
          if decrement32 block.refcount = 0 then g.removeBlock blockId else g
      | none => g
  | (_, g) => g

/-- Delete an inode whose last name is gone, with the blocks it points to. -/
def collectInode (g : TypeGraph) (inodeId : InodeId) : TypeGraph :=
  let ptsEdges := (SetIndex.members g.inodePointsTo inodeId).toList
  let g := { g with inodePointsTo := g.inodePointsTo.erase inodeId }
  let g := ptsEdges.foldl releaseBlockEdge g
  let g := g.removeInode inodeId
  { g with inodeIncomingContains := g.inodeIncomingContains.erase inodeId }

end TypeGraph

def unlink (now : Nat → Timestamp) (dir : DirId) (name : String) (g : TypeGraph) :
    Outcome Unit × TypeGraph :=
  match g.requireCap Rights.write with
  | .error e => (.err e, g)
  | .ok () =>
  if name = "." ∨ name = ".." then (.err (.nameNotFound name), g)
  else if dir ∉ g.dirContains then (.err (.dirNotFound dir), g)
  else
    match (g.dirEntries dir).find? fun entry => entry.2.2 = name with
    | none => (.err (.nameNotFound name), g)
    | some (edgeId, targetInodeId, _) =>
      match g.getInode targetInodeId with
      | none => (.err (.inodeNotFound targetInodeId), g)
      | some inode =>
        if inode.vtype = .directory then (.err (.notAFile targetInodeId), g)
        else
          let g := (g.removeEdge edgeId).2
          let g := { g with dirContains := SetIndex.drop g.dirContains dir edgeId }
          let g :=
            { g with
              inodeIncomingContains := SetIndex.drop g.inodeIncomingContains targetInodeId edgeId }
          let g := g.modifyInode targetInodeId fun i => { i with linkCount := decrement32 i.linkCount }
          if decrement32 inode.linkCount = 0 then
            let g := g.collectInode targetInodeId
            match g.updateQuota dir (-1) 0 with
            | none => (.diverges, g)
            | some g => (.ok (), g.recordProv (now 0) .unlink targetInodeId name)
          else (.ok (), g.recordProv (now 0) .unlink targetInodeId name)

namespace TypeGraph

/-- The edge of `dir` that carries `name` to `inode`. -/
def findEntry (g : TypeGraph) (dir : DirId) (inode : InodeId) (name : String) : Option EdgeId :=
  ((g.dirEntries dir).find? fun entry => entry.2.1 = inode ∧ entry.2.2 = name).map Prod.fst

/-- Make room for a rename: remove an existing destination by rmdir or unlink. -/
def removeDestination (now : Nat → Timestamp) (dir : DirId) (name : String)
    (dstExists : Option InodeId) (g : TypeGraph) : Outcome Unit × TypeGraph :=
  match dstExists with
  | none => (.ok (), g)
  | some dstInodeId =>
      match g.getInode dstInodeId with
      | none => (.err (.inodeNotFound dstInodeId), g)
      | some dstInode =>
          if dstInode.vtype = .directory then rmdir now dir name g else unlink now dir name g

end TypeGraph

/-- Fast path of rename, within one directory. -/
def renameSameDir (now : Nat → Timestamp) (dir : DirId) (srcName dstName : String) (g : TypeGraph) :
    Outcome Unit × TypeGraph :=
  match g.resolveName dir srcName with
  | none => (.err (.nameNotFound srcName), g)
  | some srcInode =>
    if srcName = dstName then (.ok (), g)
    else
      match g.removeDestination now dir dstName (g.resolveName dir dstName) with
      | (.ok (), g) =>
        if dir ∉ g.dirContains then (.err (.dirNotFound dir), g)
        else
          match g.findEntry dir srcInode srcName with
          | none => (.err (.nameNotFound srcName), g)
          | some eid => (.ok (), (g.renameContainsEdge eid dstName).2)
      | failed => failed

namespace TypeGraph

/-- Point the ".." entry of a moved directory at its new parent's inode. -/
def retargetDotdot (g : TypeGraph) (childDir : DirId) (parentInode : InodeId) : TypeGraph :=
  match (g.dirEntries childDir).find? fun entry => entry.2.2 = ".." with
  | none => g
  | some (dotdotEid, oldTgt, _) =>
      let g :=
        { g with
          inodeIncomingContains := SetIndex.drop g.inodeIncomingContains oldTgt dotdotEid }
      let g := g.modifyEdge dotdotEid fun
        | .contains id src _ name => .contains id src parentInode name
        | edge => edge
      { g with
        inodeIncomingContains := SetIndex.add g.inodeIncomingContains parentInode dotdotEid }

/-- After a cross-directory move: a moved directory's ".." entry follows it. -/
def followParent (g : TypeGraph) (srcInode : InodeId) (dstDir : DirId) : TypeGraph :=
  match g.getInode srcInode with
  | some inode =>
      if inode.vtype = .directory then
        match g.dirForInode srcInode, g.getDir dstDir with
        | some childDir, some dst => g.retargetDotdot childDir dst.inodeId
        | _, _ => g
      else g
  | none => g

/-- Whether moving `srcInode` below `dstDir` would make a directory its own descendant. -/
def wouldCycle (g : TypeGraph) (srcInode : InodeId) (dstDir : DirId) : Bool :=
  match g.getInode srcInode with
  | some inode =>
      if inode.vtype = .directory then
        match g.dirForInode srcInode with
        | some srcChildDir => g.isAncestor srcChildDir dstDir
        | none => false
      else false
  | none => false

end TypeGraph

/-- Slow path of rename, across directories. -/
def renameCrossDir (now : Nat → Timestamp) (srcDir : DirId) (srcName : String) (dstDir : DirId)
    (dstName : String) (g : TypeGraph) : Outcome Unit × TypeGraph :=
  match g.resolveName srcDir srcName with
  | none => (.err (.nameNotFound srcName), g)
  | some srcInode =>
    if g.wouldCycle srcInode dstDir then (.err .wouldCreateCycle, g)
    else
      match g.removeDestination now dstDir dstName (g.resolveName dstDir dstName) with
      | (.ok (), g) =>
        if srcDir ∉ g.dirContains then (.err (.dirNotFound srcDir), g)
        else
          match g.findEntry srcDir srcInode srcName with
          | none => (.err (.nameNotFound srcName), g)
          | some srcEdgeId =>
            let g := (g.removeEdge srcEdgeId).2
            let g := { g with dirContains := SetIndex.drop g.dirContains srcDir srcEdgeId }
            let g :=
              { g with
                inodeIncomingContains := SetIndex.drop g.inodeIncomingContains srcInode srcEdgeId }
            let (newEdgeId, g) := g.allocEdgeId
            let g := g.addContains newEdgeId dstDir srcInode dstName
            (.ok (), g.followParent srcInode dstDir)
      | failed => failed

def rename (now : Nat → Timestamp) (srcDir : DirId) (srcName : String) (dstDir : DirId)
    (dstName : String) (g : TypeGraph) : Outcome Unit × TypeGraph :=
  match g.requireCap Rights.write with
  | .error e => (.err e, g)
  | .ok () =>
  if srcName = "." ∨ srcName = ".." ∨ dstName = "." ∨ dstName = ".." then
    (.err (.nameNotFound srcName), g)
  else
    let result :=
      if srcDir = dstDir then renameSameDir now srcDir srcName dstName g
      else renameCrossDir now srcDir srcName dstDir dstName g
    match result with
    | (.ok (), g) =>
        let inode := (g.resolveName dstDir dstName).getD 0
        (.ok (), g.recordProv (now 1) .rename inode dstName)
    | failed => failed

def symlink (now : Nat → Timestamp) (parentDir : DirId) (name target : String) (uid gid : UInt32)
    (g : TypeGraph) : Outcome InodeId × TypeGraph :=
  match g.requireCap Rights.write with
  | .error e => (.err e, g)
  | .ok () =>
  if invalidName name then (.err (.nameNotFound name), g)
  else if (g.resolveName parentDir name).isSome then (.err (.nameExists parentDir name), g)
  else if !g.containsDir parentDir then (.err (.dirNotFound parentDir), g)
  else
    match g.checkQuotaInode parentDir with
    | .err e => (.err e, g)
    | .panic => (.panic, g)
    | .diverges => (.diverges, g)
    | .ok () =>
      let (inodeId, g) := g.allocInodeId
      let (edgeId, g) := g.allocEdgeId
      let inode : Inode :=
        { id := inodeId, vtype := .symlink, permissions := ⟨0o777⟩, uid := uid, gid := gid,
          size := target.utf8ByteSize, linkCount := 1, ctime := now 0, mtime := now 0, atime := now 0 }
      let g := g.insertInode inodeId inode
      let g := { g with symlinkTargets := g.symlinkTargets.insert inodeId ⟨target⟩ }
      let g := g.addContains edgeId parentDir inodeId name
      match g.updateQuota parentDir 1 0 with
      | none => (.diverges, g)
      | some g => (.ok inodeId, g.recordProv (now 1) .symlink inodeId name)

/-! ### File content and attributes -/

def writeBlock (inodeId : InodeId) (offset sectorStart sectorCount : Nat) (g : TypeGraph) :
    Outcome BlockId × TypeGraph :=
  match g.requireCap Rights.write with
  | .error e => (.err e, g)
  | .ok () =>
  if !g.containsInode inodeId then (.err (.inodeNotFound inodeId), g)
  else
    let (blockId, g) := g.allocBlockId
    let (edgeId, g) := g.allocEdgeId
    let g := g.insertBlock blockId ⟨blockId, sectorStart, sectorCount, 1⟩
    let g := g.insertEdge edgeId (.pointsTo edgeId inodeId blockId offset)
    let g := { g with inodePointsTo := SetIndex.add g.inodePointsTo inodeId edgeId }
    (.ok blockId, g)

/-- The largest length of a byte vector; growing past it panics. -/
def isizeMax : Nat := 2 ^ 63 - 1

/-- `Vec::resize(len, 0)`. -/
def resizeBytes (buf : List UInt8) (len : Nat) : List UInt8 :=
  buf.take len ++ List.replicate (len - buf.length) 0

/-- `buf[offset..stop].copy_from_slice(data)`. -/
def copyIntoBytes (buf : List UInt8) (offset stop : Nat) (data : List UInt8) : List UInt8 :=
  buf.take offset ++ data ++ buf.drop stop

def writeData (now : Nat → Timestamp) (inodeId : InodeId) (offset : Nat) (data : List UInt8)
    (g : TypeGraph) : Outcome Nat × TypeGraph :=
  match g.requireCap Rights.write with
  | .error e => (.err e, g)
  | .ok () =>
    match g.getInode inodeId with
    | none => (.err (.inodeNotFound inodeId), g)
    | some inode =>
      if inode.vtype ≠ .regular then (.err (.notAFile inodeId), g)
      else
        let buf := g.fileData.getD inodeId []
        let stop := (offset + data.length) % 2 ^ 64
        -- the vector cannot grow that far
        if isizeMax < stop then (.panic, { g with fileData := g.fileData.insert inodeId buf })
        else
          let buf := if buf.length < stop then resizeBytes buf stop else buf
          -- a wrapped end lies before the start of the slice
          if stop < offset then (.panic, { g with fileData := g.fileData.insert inodeId buf })
          else
            let buf := copyIntoBytes buf offset stop data
            let g := { g with fileData := g.fileData.insert inodeId buf }
            let g := g.modifyInode inodeId fun i => { i with size := buf.length, mtime := now 0 }
            (.ok data.length, g.recordProv (now 1) .write inodeId "")

def readData (g : TypeGraph) (inodeId : InodeId) (offset size : Nat) : Outcome (List UInt8) :=
  match g.getInode inodeId with
  | none => .err (.inodeNotFound inodeId)
  | some inode =>
    if inode.vtype ≠ .regular then .err (.notAFile inodeId)
    else
      match g.fileData[inodeId]? with
      | none => .ok []
      | some buf =>
          let start := min offset buf.length
          -- a wrapped end lies before the start
          if 2 ^ 64 ≤ start + size then .panic
          else
            let stop := min (start + size) buf.length
            .ok ((buf.take stop).drop start)

def truncate (now : Nat → Timestamp) (inodeId : InodeId) (newSize : Nat) (g : TypeGraph) :
    Outcome Unit × TypeGraph :=
  match g.requireCap Rights.write with
  | .error e => (.err e, g)
  | .ok () =>
    match g.getInode inodeId with
    | none => (.err (.inodeNotFound inodeId), g)
    | some inode =>
      if inode.vtype ≠ .regular then (.err (.notAFile inodeId), g)
      else
        let buf := g.fileData.getD inodeId []
        if isizeMax < newSize then (.panic, { g with fileData := g.fileData.insert inodeId buf })
        else
          let g := { g with fileData := g.fileData.insert inodeId (resizeBytes buf newSize) }
          let g := g.modifyInode inodeId fun i => { i with size := newSize, mtime := now 0 }
          (.ok (), g.recordProv (now 1) .truncate inodeId "")

def chmod (now : Nat → Timestamp) (inodeId : InodeId) (mode : UInt16) (g : TypeGraph) :
    Outcome Unit × TypeGraph :=
  match g.requireCap Rights.grant with
  | .error e => (.err e, g)
  | .ok () =>
    match g.getInode inodeId with
    | none => (.err (.inodeNotFound inodeId), g)
    | some _ =>
      let g := g.modifyInode inodeId fun i => { i with permissions := ⟨mode⟩ }
      (.ok (), g.recordProv (now 0) .chmod inodeId "")

def chown (now : Nat → Timestamp) (inodeId : InodeId) (uid gid : Option UInt32) (g : TypeGraph) :
    Outcome Unit × TypeGraph :=
  match g.requireCap Rights.grant with
  | .error e => (.err e, g)
  | .ok () =>
    match g.getInode inodeId with
    | none => (.err (.inodeNotFound inodeId), g)
    | some _ =>
      let g := g.modifyInode inodeId fun i => { i with uid := uid.getD i.uid, gid := gid.getD i.gid }
      (.ok (), g.recordProv (now 0) .chown inodeId "")

/-! ### Extended attributes -/

namespace TypeGraph

/-- The first attribute of an inode with the given namespace and name, in id order. -/
def findXattr (g : TypeGraph) (inodeId : InodeId) (ns : XAttrNamespace) (name : String) :
    Option XAttrId :=
  (SetIndex.members g.inodeXattrs inodeId).toList.find? fun xid =>
    match g.xattrs[xid]? with
    | some xa => xa.ns = ns ∧ xa.name = name
    | none => false

/-- The first `hasXattr` edge from an inode to an attribute, in slot order. -/
def findXattrEdge (g : TypeGraph) (inodeId : InodeId) (xid : XAttrId) : Option EdgeId :=
  (g.edges.iter.find? fun entry =>
    match entry.2 with
    | .hasXattr _ src tgt => src = inodeId ∧ tgt = xid
    | _ => false).map Prod.fst

end TypeGraph

def setxattr (now : Nat → Timestamp) (inodeId : InodeId) (ns : XAttrNamespace) (name : String)
    (value : List UInt8) (g : TypeGraph) : Outcome XAttrId × TypeGraph :=
  match g.requireCap Rights.write with
  | .error e => (.err e, g)
  | .ok () =>
  if !g.containsInode inodeId then (.err (.inodeNotFound inodeId), g)
  else if 65536 < value.length then (.err (.xattrTooLarge value.length), g)
  else
    match g.findXattr inodeId ns name with
    | some xid =>
      (.ok xid, { g with xattrs := g.xattrs.modify xid fun xa => { xa with value := value } })
    | none =>
      let (xattrId, g) := g.allocXattrId
      let (edgeId, g) := g.allocEdgeId
      let g := { g with xattrs := g.xattrs.insert xattrId ⟨xattrId, ns, name, value⟩ }
      let g := g.insertEdge edgeId (.hasXattr edgeId inodeId xattrId)
      let g := { g with inodeXattrs := SetIndex.add g.inodeXattrs inodeId xattrId }
      (.ok xattrId, g.recordProv (now 0) .setxattr inodeId name)

def getxattr (g : TypeGraph) (inodeId : InodeId) (ns : XAttrNamespace) (name : String) :
    Outcome (List UInt8) :=
  if !g.containsInode inodeId then .err (.inodeNotFound inodeId)
  else
    match (g.findXattr inodeId ns name).bind fun xid => g.xattrs[xid]? with
    | some xa => .ok xa.value
    | none => .err (.xattrNotFound name)

def removexattr (now : Nat → Timestamp) (inodeId : InodeId) (ns : XAttrNamespace) (name : String)
    (g : TypeGraph) : Outcome Unit × TypeGraph :=
  match g.requireCap Rights.write with
  | .error e => (.err e, g)
  | .ok () =>
  if !g.containsInode inodeId then (.err (.inodeNotFound inodeId), g)
  else
    match g.findXattr inodeId ns name with
    | none => (.err (.xattrNotFound name), g)
    | some xid =>
      let g := { g with xattrs := g.xattrs.erase xid }
      let g := { g with inodeXattrs := SetIndex.drop g.inodeXattrs inodeId xid }
      let g :=
        match g.findXattrEdge inodeId xid with
        | some eid => (g.removeEdge eid).2
        | none => g
      (.ok (), g.recordProv (now 0) .removexattr inodeId name)

def listxattr (g : TypeGraph) (inodeId : InodeId) : Outcome (List (XAttrNamespace × String)) :=
  if !g.containsInode inodeId then .err (.inodeNotFound inodeId)
  else
    .ok ((SetIndex.members g.inodeXattrs inodeId).toList.filterMap fun xid =>
      g.xattrs[xid]?.map fun xa => (xa.ns, xa.name))

def readlink (g : TypeGraph) (inodeId : InodeId) : Outcome String :=
  match g.getInode inodeId with
  | none => .err (.inodeNotFound inodeId)
  | some inode =>
    if inode.vtype ≠ .symlink then .err (.notASymlink inodeId)
    else
      match g.symlinkTargets[inodeId]? with
      | some target => .ok target.path
      | none => .err (.notASymlink inodeId)

/-! ### ACLs -/

/-- The rwx bits of an ACL entry as capability rights. -/
def permsToRights (p : Permissions) : Rights :=
  ⟨(if p.mode &&& 4 ≠ 0 then Rights.read else 0) |||
    (if p.mode &&& 2 ≠ 0 then Rights.write else 0) |||
    (if p.mode &&& 1 ≠ 0 then Rights.execute else 0)⟩

/-- The rights an ACL entry grants: the mask clamps named users, named groups and the owning group. -/
def effectiveRights (mask : Option Rights) (entry : AclEntry) : Rights :=
  let rights := permsToRights entry.permissions
  match entry.tag, mask with
  | .user, some m | .group, some m | .groupObj, some m => rights.restrict m
  | _, _ => rights

namespace TypeGraph

/-- The `grants` edges into an inode, in slot order. -/
def grantsInto (g : TypeGraph) (inodeId : InodeId) : List EdgeId :=
  g.edges.iter.filterMap fun entry =>
    match entry.2 with
    | .grants _ _ tgt _ => if tgt = inodeId then some entry.1 else none
    | _ => none

/-- Remove one `grants` edge with its `cap_grants` entry, noting the capability it came from. -/
def purgeGrant (acc : List CapId × TypeGraph) (eid : EdgeId) : List CapId × TypeGraph :=
  match acc.2.removeEdge eid with
  | (some (.grants _ src _ _), g) => (acc.1 ++ [src], { g with capGrants := g.capGrants.erase src })
  | (_, g) => (acc.1, g)

/-- Synthesize the capability and edge of one ACL entry. -/
def grantEntry (inodeId : InodeId) (mask : Option Rights) (g : TypeGraph) (entry : AclEntry) :
    TypeGraph :=
  if entry.tag = .mask then g
  else
    let rights := effectiveRights mask entry
    if rights.bits = 0 then g
    else
      let (capId, g) := g.allocCapId
      let (edgeId, g) := g.allocEdgeId
      let g := g.insertCap capId ⟨capId, rights, 0⟩
      let g := g.insertEdge edgeId (.grants edgeId capId inodeId rights)
      { g with capGrants := g.capGrants.insert capId edgeId }

end TypeGraph

def setacl (now : Nat → Timestamp) (inodeId : InodeId) (entries : List AclEntry) (g : TypeGraph) :
    Outcome Unit × TypeGraph :=
  match g.requireCap Rights.grant with
  | .error e => (.err e, g)
  | .ok () =>
  if !g.containsInode inodeId then (.err (.inodeNotFound inodeId), g)
  else
    let (capsToDrop, g) := (g.grantsInto inodeId).foldl TypeGraph.purgeGrant ([], g)
    let g := capsToDrop.foldl TypeGraph.removeCap g
    let g := { g with acls := g.acls.insert inodeId entries }
    let mask := (entries.find? fun e => e.tag = .mask).map fun e => permsToRights e.permissions
    let g := entries.foldl (TypeGraph.grantEntry inodeId mask) g
    (.ok (), g.recordProv (now 0) .setAcl inodeId "")

def getacl (g : TypeGraph) (inodeId : InodeId) : Outcome (List AclEntry) :=
  match g.getInode inodeId with
  | none => .err (.inodeNotFound inodeId)
  | some inode =>
    match g.acls[inodeId]? with
    | some acl => .ok acl
    | none =>
        let mode := inode.permissions.mode
        .ok [⟨.userObj, 0, ⟨(mode >>> 6) &&& 7⟩⟩, ⟨.groupObj, 0, ⟨(mode >>> 3) &&& 7⟩⟩,
          ⟨.other, 0, ⟨mode &&& 7⟩⟩]

/-! ### Quotas -/

def setQuota (dirId : DirId) (inodeLimit byteLimit : Nat) (g : TypeGraph) :
    Outcome Unit × TypeGraph :=
  match g.requireCap Rights.grant with
  | .error e => (.err e, g)
  | .ok () =>
  if !g.containsDir dirId then (.err (.dirNotFound dirId), g)
  else (.ok (), { g with quotas := g.quotas.insert dirId (.new inodeLimit byteLimit) })

def getQuota (g : TypeGraph) (dirId : DirId) : Outcome (Option Quota) :=
  if !g.containsDir dirId then .err (.dirNotFound dirId) else .ok g.quotas[dirId]?

end SotFs
