/-
Module: SotFs.Core.Deception
Layer: Core
Purpose: Projections of the graph for a security domain (sotfs-monitor/src/deception.rs): what the policies
  Restrict, Passthrough and Redirect show, and lookup and reading in a projected view. The Fabricate policy
  and the deception profiles are left out.
Trusted boundary: human-reviewed model
Main exports: ProjectedView, projectRestrict, projectPassthrough, projectRedirect, projectedLookup,
  projectedRead
-/
import SotFs.Core.Ops
import SotFs.Foundation.Worklist

namespace SotFs

open Std (ExtTreeMap)
open Foundation

/-- What a domain sees of the graph. -/
structure ProjectedView where
  visibleInodes : ExtTreeMap InodeId Inode
  visibleEntries : ExtTreeMap DirId (List (String × InodeId))
  fabricatedData : ExtTreeMap InodeId (List UInt8)
  redirects : ExtTreeMap InodeId InodeId
  policy : String

/-- Show an inode, if there is one under this id. -/
def ProjectedView.showInode (g : TypeGraph) (id : InodeId) (view : ProjectedView) : ProjectedView :=
  match g.getInode id with
  | some inode => { view with visibleInodes := view.visibleInodes.insert id inode }
  | none => view

/-- Show the inode that a directory names as its own. -/
def ProjectedView.showOwn (g : TypeGraph) (dirId : DirId) (view : ProjectedView) : ProjectedView :=
  match g.getDir dirId with
  | some dir => view.showInode g dir.inodeId
  | none => view

/-- The entries of a directory that lead to an inode. -/
def TypeGraph.shownEntries (g : TypeGraph) (dirId : DirId) : List (String × InodeId) :=
  (g.listDir dirId).filter fun entry => (g.getInode entry.2).isSome

/-- What one turn of the loop of `project_restrict` shows: the inode of the directory, then the targets of
    its entries, then the entries. -/
def restrictVisit (g : TypeGraph) (dirId : DirId) (view : ProjectedView) : ProjectedView :=
  let view := view.showOwn g dirId
  if g.dirContains.contains dirId then
    let view := (g.listDir dirId).foldl (fun view entry => view.showInode g entry.2) view
    { view with visibleEntries := view.visibleEntries.insert dirId (g.shownEntries dirId) }
  else view

/-- `project_restrict`: the subtree below `rootDir`. The loop pushes `rootDir`, and the child directories of
    each directory at most once. -/
def projectRestrict (g : TypeGraph) (rootDir : DirId) : ProjectedView :=
  let pushes := 1 + (g.dirContains.keys.map fun d => (g.childDirs d).length).sum
  Worklist.drain g.childDirs (restrictVisit g) pushes [rootDir] ∅
    { visibleInodes := ∅
      visibleEntries := ∅
      fabricatedData := ∅
      redirects := ∅
      policy := "restrict(root=" ++ toString rootDir ++ ")" }

/-- `project_passthrough`: everything as it is. -/
def projectPassthrough (g : TypeGraph) : ProjectedView where
  visibleInodes := g.inodes.iter.foldl (fun shown entry => shown.insert entry.1 entry.2) ∅
  visibleEntries := g.dirContains.map fun dirId _ => g.listDir dirId
  fabricatedData := ∅
  redirects := ∅
  policy := "passthrough"

/-- The names that are redirected, each with the inode it is to lead to. -/
abbrev Redirects := ExtTreeMap String InodeId

/-- Record the redirect of an entry by the inode that it leads to. -/
def Redirects.record (redirects : Redirects) (recorded : ExtTreeMap InodeId InodeId)
    (entry : String × InodeId) : ExtTreeMap InodeId InodeId :=
  match redirects[entry.1]? with
  | some redirectTo => recorded.insert entry.2 redirectTo
  | none => recorded

/-- The entry as the projection shows it. -/
def Redirects.shown (redirects : Redirects) (entry : String × InodeId) : String × InodeId :=
  (entry.1, redirects.getD entry.1 entry.2)

/-- `project_redirect`: entries under the names of `redirects` lead elsewhere. Each is recorded and then
    changed, directory by directory. -/
def projectRedirect (g : TypeGraph) (redirects : Redirects) : ProjectedView :=
  let view := projectPassthrough g
  { view with
    policy := "redirect"
    redirects := (view.visibleEntries.toList.flatMap Prod.snd).foldl redirects.record view.redirects
    visibleEntries := view.visibleEntries.map fun _ entries => entries.map redirects.shown }

/-- `projected_lookup`: resolve a name in a directory of a view. -/
def projectedLookup (view : ProjectedView) (dir : DirId) (name : String) : Option InodeId :=
  match view.visibleEntries[dir]? with
  | some entries => (entries.find? fun entry => entry.1 = name).map Prod.snd
  | none => none

/-- The part of `len` bytes at `offset` of a buffer, as far as the buffer goes. -/
def sliceBytes (data : List UInt8) (offset len : Nat) : Outcome (Option (List UInt8)) :=
  let start := min offset data.length
  -- a wrapped end lies before the start
  if 2 ^ 64 ≤ start + len then .panic
  else .ok (some ((data.take (min (start + len) data.length)).drop start))

/-- `projected_read`: fabricated data first, then what the redirect of the inode holds. -/
def projectedRead (view : ProjectedView) (g : TypeGraph) (inodeId : InodeId) (offset len : Nat) :
    Outcome (Option (List UInt8)) :=
  match view.fabricatedData[inodeId]? with
  | some data => sliceBytes data offset len
  | none =>
      let actualId := view.redirects.getD inodeId inodeId
      match g.fileData[actualId]? with
      | some data => sliceBytes data offset len
      | none => .ok none

end SotFs
