/-
Module: SotFs.Core.Stats
Layer: Core
Purpose: Summary statistics of a snapshot (sotfs-graph/src/export.rs): counts of the pools, what one pass over the
  inodes adds up, and the depth of the directory tree.
Trusted boundary: human-reviewed model
Main exports: GraphStats, estimateDepth, stats
-/
import SotFs.Core.Graph
import SotFs.Foundation.Levels

namespace SotFs

open Std (ExtTreeMap)
open Foundation

structure GraphStats where
  inodeCount : Nat
  dirCount : Nat
  capCount : Nat
  blockCount : Nat
  versionCount : Nat
  edgeCount : Nat
  fileCount : Nat
  symlinkCount : Nat
  xattrCount : Nat
  totalFileBytes : Nat
  maxLinkCount : Nat
  maxDirEntries : Nat
  depthEstimate : Nat
deriving DecidableEq, Repr

/-- What the pass over the inodes has added up. -/
structure InodeTally where
  fileCount : Nat
  symlinkCount : Nat
  totalFileBytes : Nat
  maxLinkCount : Nat

/-- One inode more. The sum of the sizes is one of 64-bit numbers. -/
def InodeTally.count (t : InodeTally) (inode : Inode) : InodeTally :=
  let t :=
    match inode.vtype with
    | .regular =>
        { t with fileCount := t.fileCount + 1, totalFileBytes := (t.totalFileBytes + inode.size) % 2 ^ 64 }
    | .symlink => { t with symlinkCount := t.symlinkCount + 1 }
    | _ => t
  if t.maxLinkCount < inode.linkCount then { t with maxLinkCount := inode.linkCount } else t

/-- `estimate_depth`: the deepest level that the stack of directories reaches. A directory is pushed at most once
    for each entry that leads to it. -/
def estimateDepth (g : TypeGraph) : Nat :=
  let pushes := 1 + (g.dirContains.keys.map fun d => (g.childDirs d).length).sum
  Levels.deepest g.childDirs pushes [(g.rootDir, 0)] {g.rootDir} 0

def stats (g : TypeGraph) : GraphStats :=
  let tally : InodeTally := g.inodes.iter.foldl (fun t entry => t.count entry.2) ⟨0, 0, 0, 0⟩
  { inodeCount := g.inodes.len
    dirCount := g.dirs.len
    capCount := g.caps.len
    blockCount := g.blocks.len
    versionCount := g.versions.len
    edgeCount := g.edges.len
    fileCount := tally.fileCount
    symlinkCount := tally.symlinkCount
    xattrCount := g.xattrs.size
    totalFileBytes := tally.totalFileBytes
    maxLinkCount := tally.maxLinkCount
    maxDirEntries := ((g.dirContains.toList.map fun entry => entry.2.size).max?).getD 0
    depthEstimate := estimateDepth g }

end SotFs
