/-
Module: SotFs.Proofs.Agreement
Layer: Proofs
Purpose: Graphs that are alike stay alike: every operation, called with the same arguments and clock on
  both, ends with the same outcome and in graphs that are alike again, and every query and both verifiers
  answer alike. No invariant is assumed.
Trusted boundary: none
Main exports: EndAlike, Alike.apply, Alike.answer, Alike.observablyEqual, Run.alike
-/
import SotFs.Proofs.Likeness
import SotFs.Core.Queries

namespace SotFs

open Std (ExtTreeMap ExtTreeSet)
open Foundation

/-- Two calls end with the same outcome and in graphs that are alike. -/
def EndAlike (L : Likeness) {α : Type} (r r' : Outcome α × TypeGraph) : Prop :=
  r.1 = r'.1 ∧ Alike L r.2 r'.2

theorem EndAlike.map {L : Likeness} {α β : Type} {r r' : Outcome α × TypeGraph} (h : EndAlike L r r')
    (f : α → β) : EndAlike L (r.map (Outcome.map f) id) (r'.map (Outcome.map f) id) :=
  ⟨congrArg (Outcome.map f) h.1, h.2⟩

/-- Both calls take the same branch. -/
theorem EndAlike.ite {L : Likeness} {α : Type} {p : Prop} [Decidable p]
    {a b a' b' : Outcome α × TypeGraph} (hthen : EndAlike L a a') (helse : EndAlike L b b') :
    EndAlike L (if p then a else b) (if p then a' else b') := by
  split
  · exact hthen
  · exact helse

namespace Alike

variable {L : Likeness} {g g' : TypeGraph}

/-! ### Quota walks -/

section Walks

variable (h : Alike L g g')

include h

theorem walkFuel : g.walkFuel = g'.walkFuel := by
  unfold TypeGraph.walkFuel
  rw [h.dirNameIdx, h.dirContains]

theorem checkQuotaFrom (check : Quota → Bool) (resource : Resource) (fuel : Nat) :
    ∀ d, g.checkQuotaFrom check resource fuel d = g'.checkQuotaFrom check resource fuel d := by
  induction fuel with
  | zero =>
      intro d
      cases d with
      | none => rfl
      | some d => rfl
  | succ fuel ih =>
      intro d
      cases d with
      | none => rfl
      | some d =>
          unfold TypeGraph.checkQuotaFrom
          rw [h.quotas, h.parentDir]
          dsimp only
          rw [ih]

theorem checkQuotaInode (d : DirId) : g.checkQuotaInode d = g'.checkQuotaInode d := by
  unfold TypeGraph.checkQuotaInode
  rw [h.walkFuel, h.checkQuotaFrom]

theorem updateQuotaFrom (di db : Int) (fuel : Nat) :
    ∀ quotas d, g.updateQuotaFrom di db fuel quotas d = g'.updateQuotaFrom di db fuel quotas d := by
  induction fuel with
  | zero =>
      intro quotas d
      cases d with
      | none => rfl
      | some d => rfl
  | succ fuel ih =>
      intro quotas d
      cases d with
      | none => rfl
      | some d =>
          unfold TypeGraph.updateQuotaFrom
          rw [h.parentDir]
          dsimp only
          rw [ih]

theorem settle {α : Type} (d : DirId) (di : Int) (now : Timestamp) (op : ProvOp) (t : InodeId)
    (detail : String) (value : α) :
    EndAlike L (g.settle d di now op t detail value) (g'.settle d di now op t detail value) := by
  unfold TypeGraph.settle TypeGraph.updateQuota
  rw [← h.updateQuotaFrom, ← h.walkFuel, ← h.quotas]
  cases g.updateQuotaFrom di 0 g.walkFuel g.quotas (some d) with
  | none => exact ⟨rfl, h⟩
  | some quotas => exact ⟨rfl, (h.onQuotas fun _ => quotas).recordProv _ _ _ _⟩

end Walks

/-! ### Edits -/

section Edits

variable (h : Alike L g g')

include h

theorem enterInode (inode : Inode) (d : DirId) (n : String) :
    Alike L (g.enterInode inode d n) (g'.enterInode inode d n) := by
  unfold TypeGraph.enterInode
  rw [← h.nextInode, ← h.nextEdge]
  have hids : Alike L { g with nextInode := g.nextInode + 1, nextEdge := g.nextEdge + 1 }
      { g' with nextInode := g.nextInode + 1, nextEdge := g.nextEdge + 1 } :=
    { h with
      frame := h.field fun r => { r with nextInode := g.nextInode + 1, nextEdge := g.nextEdge + 1 } }
  exact (hids.insertInode _ _).addContains _ _ _ _

theorem enterSymlink (inode : Inode) (d : DirId) (n target : String) :
    Alike L (g.enterSymlink inode d n target) (g'.enterSymlink inode d n target) := by
  have hentered := (h.enterInode inode d n).onSymlinkTargets (·.insert g.nextInode ⟨target⟩)
  unfold TypeGraph.enterSymlink
  rw [← h.nextInode]
  exact hentered

theorem enterDir (inode : Inode) (d : DirId) (di : InodeId) (n : String) :
    Alike L (g.enterDir inode d di n) (g'.enterDir inode d di n) := by
  unfold TypeGraph.enterDir
  rw [← h.nextInode, ← h.nextDir, ← h.nextEdge]
  have hids :
      Alike L
        { g with
          nextInode := g.nextInode + 1, nextDir := g.nextDir + 1, nextEdge := g.nextEdge + 1 + 1 + 1 }
        { g' with
          nextInode := g.nextInode + 1, nextDir := g.nextDir + 1, nextEdge := g.nextEdge + 1 + 1 + 1 } :=
    { h with
      frame := h.field fun r =>
        { r with
          nextInode := g.nextInode + 1, nextDir := g.nextDir + 1, nextEdge := g.nextEdge + 1 + 1 + 1 } }
  have hnodes := (hids.insertInode g.nextInode inode).insertDir g.nextDir ⟨g.nextDir, g.nextInode⟩
  exact ((hnodes.addContains _ _ _ _).addContains _ _ _ _).addContains _ _ _ _

/-- A new edge of a name. -/
theorem enterEdge (d : DirId) (t : InodeId) (n : String) :
    Alike L (g.allocEdgeId.2.addContains g.nextEdge d t n)
      (g'.allocEdgeId.2.addContains g'.nextEdge d t n) := by
  rw [← h.nextEdge]
  exact h.allocEdgeId.addContains _ _ _ _

theorem enterLink (d : DirId) (t : InodeId) (n : String) :
    Alike L (g.enterLink d t n) (g'.enterLink d t n) :=
  (h.enterEdge d t n).modifyInode _ _

theorem dropDir (d : DirId) (n : String) (t : InodeId) (td : DirId) :
    Alike L (g.dropDir d n t td) (g'.dropDir d n t td) := by
  unfold TypeGraph.dropDir
  rw [← h.rmdirEdges]
  have hdetached := Alike.foldl (fun h e => h.detachContains e) (g.rmdirEdges d n t td) h
  exact (((hdetached.removeInode t).removeDir td).onDirContains (·.erase td)).onIncoming (·.erase t)

theorem dropName (e : EdgeId) (d : DirId) (t : InodeId) :
    Alike L (g.dropName e d t) (g'.dropName e d t) :=
  (((h.removeEdge e).2.onDirContains (SetIndex.drop · d e)).onIncoming (SetIndex.drop · t e)).modifyInode
    _ _

theorem releaseBlockEdge (e : EdgeId) : Alike L (g.releaseBlockEdge e) (g'.releaseBlockEdge e) := by
  obtain ⟨hfst, hrest⟩ := h.removeEdge e
  unfold TypeGraph.releaseBlockEdge
  generalize g.removeEdge e = r, g'.removeEdge e = r' at hfst hrest ⊢
  obtain ⟨o, gr⟩ := r
  obtain ⟨o', gr'⟩ := r'
  dsimp only at hfst hrest ⊢
  subst hfst
  cases o' with
  | none => exact hrest
  | some edge =>
      cases edge with
      | pointsTo eid src b offset =>
          dsimp only
          rw [← hrest.getBlock]
          cases gr.getBlock b with
          | none => exact hrest
          | some block =>
              dsimp only
              by_cases hlast : decrement32 block.refcount = 0
              · rw [if_pos hlast, if_pos hlast]
                exact (hrest.modifyBlock _ _).removeBlock _
              · rw [if_neg hlast, if_neg hlast]
                exact hrest.modifyBlock _ _
      | contains | grants | delegates | derivedFrom | supersedes | hasXattr => exact hrest

theorem collectInode (t : InodeId) : Alike L (g.collectInode t) (g'.collectInode t) := by
  unfold TypeGraph.collectInode
  rw [← h.inodePointsTo]
  have hreleased := Alike.foldl (fun h e => h.releaseBlockEdge e)
    (SetIndex.members g.inodePointsTo t).toList (h.onPointsTo fun _ => g.inodePointsTo.erase t)
  exact (hreleased.removeInode t).onIncoming (·.erase t)

theorem dropLastName (e : EdgeId) (d : DirId) (t : InodeId) :
    Alike L (g.dropLastName e d t) (g'.dropLastName e d t) :=
  (h.dropName e d t).collectInode t

theorem attachBlock (t : InodeId) (offset sectorStart sectorCount : Nat) :
    Alike L (g.attachBlock t offset sectorStart sectorCount)
      (g'.attachBlock t offset sectorStart sectorCount) := by
  unfold TypeGraph.attachBlock
  rw [← h.nextBlock, ← h.nextEdge]
  have hids : Alike L { g with nextBlock := g.nextBlock + 1, nextEdge := g.nextEdge + 1 }
      { g' with nextBlock := g.nextBlock + 1, nextEdge := g.nextEdge + 1 } :=
    { h with
      frame := h.field fun r => { r with nextBlock := g.nextBlock + 1, nextEdge := g.nextEdge + 1 } }
  exact ((hids.insertBlock _ _).insertEdge _ _).onPointsTo (SetIndex.add · t g.nextEdge)

theorem attachXattr (t : InodeId) (ns : XAttrNamespace) (name : String) (value : List UInt8) :
    Alike L (g.attachXattr t ns name value) (g'.attachXattr t ns name value) := by
  unfold TypeGraph.attachXattr
  rw [← h.nextXattr, ← h.nextEdge]
  have hids : Alike L { g with nextXattr := g.nextXattr + 1, nextEdge := g.nextEdge + 1 }
      { g' with nextXattr := g.nextXattr + 1, nextEdge := g.nextEdge + 1 } :=
    { h with
      frame := h.field fun r => { r with nextXattr := g.nextXattr + 1, nextEdge := g.nextEdge + 1 } }
  exact ((hids.onXattrs (·.insert g.nextXattr ⟨g.nextXattr, ns, name, value⟩)).insertEdge _ _
    ).onInodeXattrs (SetIndex.add · t g.nextXattr)

/-- The removal of an edge that a search may have found. -/
theorem removeFound (o : Option EdgeId) :
    Alike L (match o with | some e => (g.removeEdge e).2 | none => g)
      (match o with | some e => (g'.removeEdge e).2 | none => g') := by
  cases o with
  | none => exact h
  | some e => exact (h.removeEdge e).2

theorem dropXattr (t : InodeId) (a : XAttrId) : Alike L (g.dropXattr t a) (g'.dropXattr t a) := by
  have hdropped := (h.onXattrs (·.erase a)).onInodeXattrs (SetIndex.drop · t a)
  unfold TypeGraph.dropXattr
  dsimp only
  rw [← hdropped.findXattrEdge]
  exact hdropped.removeFound _

theorem purgeGrant (caps : List CapId) (e : EdgeId) :
    (TypeGraph.purgeGrant (caps, g) e).1 = (TypeGraph.purgeGrant (caps, g') e).1 ∧
      Alike L (TypeGraph.purgeGrant (caps, g) e).2 (TypeGraph.purgeGrant (caps, g') e).2 := by
  obtain ⟨hfst, hrest⟩ := h.removeEdge e
  unfold TypeGraph.purgeGrant
  dsimp only
  generalize g.removeEdge e = r, g'.removeEdge e = r' at hfst hrest ⊢
  obtain ⟨o, gr⟩ := r
  obtain ⟨o', gr'⟩ := r'
  dsimp only at hfst hrest ⊢
  subst hfst
  cases o' with
  | none => exact ⟨rfl, hrest⟩
  | some edge =>
      cases edge with
      | grants eid src tgt rights => exact ⟨rfl, hrest.onCapGrants (·.erase src)⟩
      | contains | delegates | derivedFrom | supersedes | pointsTo | hasXattr => exact ⟨rfl, hrest⟩

theorem attachGrant (t : InodeId) (rights : Rights) :
    Alike L (g.attachGrant t rights) (g'.attachGrant t rights) := by
  unfold TypeGraph.attachGrant
  rw [← h.nextCap, ← h.nextEdge]
  have hids : Alike L { g with nextCap := g.nextCap + 1, nextEdge := g.nextEdge + 1 }
      { g' with nextCap := g.nextCap + 1, nextEdge := g.nextEdge + 1 } :=
    { h with frame := h.field fun r => { r with nextCap := g.nextCap + 1, nextEdge := g.nextEdge + 1 } }
  exact ((hids.insertCap _ _).insertEdge _ _).onCapGrants (·.insert g.nextCap g.nextEdge)

theorem grantEntry (t : InodeId) (mask : Option Rights) (entry : AclEntry) :
    Alike L (TypeGraph.grantEntry t mask g entry) (TypeGraph.grantEntry t mask g' entry) := by
  rw [grantEntry_eq, grantEntry_eq]
  split
  · exact h
  · exact h.attachGrant t _

theorem retargetDotdot (d : DirId) (t : InodeId) :
    Alike L (g.retargetDotdot d t) (g'.retargetDotdot d t) := by
  unfold TypeGraph.retargetDotdot
  rw [← h.dirEntries]
  cases (g.dirEntries d).find? fun entry => entry.2.2 = ".." with
  | none => exact h
  | some entry =>
      obtain ⟨e, old, _⟩ := entry
      exact ((h.onIncoming (SetIndex.drop · old e)).modifyEdge e _).onIncoming (SetIndex.add · t e)

theorem followParent (t : InodeId) (d : DirId) : Alike L (g.followParent t d) (g'.followParent t d) := by
  unfold TypeGraph.followParent
  rw [← h.getInode, ← h.dirForInode, ← h.getDir]
  cases g.getInode t with
  | none => exact h
  | some inode =>
      dsimp only
      by_cases hkind : inode.vtype = .directory
      · rw [if_pos hkind, if_pos hkind]
        cases g.dirForInode t with
        | none => exact h
        | some c =>
            cases g.getDir d with
            | none => exact h
            | some dst => exact h.retargetDotdot c dst.inodeId
      · rw [if_neg hkind, if_neg hkind]
        exact h

theorem moveEntry (e : EdgeId) (sd : DirId) (t : InodeId) (dd : DirId) (n : String) :
    Alike L (g.moveEntry e sd t dd n) (g'.moveEntry e sd t dd n) := by
  have hremoved := (h.removeEdge e).2
  have hdropped := (hremoved.onDirContains (SetIndex.drop · sd e)).onIncoming (SetIndex.drop · t e)
  exact (hdropped.enterEdge dd t n).followParent t dd

end Edits

theorem foldl_purgeGrant (edges : List EdgeId) :
    ∀ {g g' : TypeGraph}, Alike L g g' → ∀ caps,
      (edges.foldl TypeGraph.purgeGrant (caps, g)).1 = (edges.foldl TypeGraph.purgeGrant (caps, g')).1 ∧
        Alike L (edges.foldl TypeGraph.purgeGrant (caps, g)).2
          (edges.foldl TypeGraph.purgeGrant (caps, g')).2 := by
  induction edges with
  | nil =>
      intro g g' h caps
      exact ⟨rfl, h⟩
  | cons e edges ih =>
      intro g g' h caps
      obtain ⟨hcaps, hpurged⟩ := h.purgeGrant caps e
      rw [List.foldl_cons, List.foldl_cons]
      generalize TypeGraph.purgeGrant (caps, g) e = r, TypeGraph.purgeGrant (caps, g') e = r'
        at hcaps hpurged ⊢
      obtain ⟨caps', gr⟩ := r
      obtain ⟨caps'', gr'⟩ := r'
      dsimp only at hcaps hpurged
      subst hcaps
      exact ih hpurged caps'

theorem dropGrants (h : Alike L g g') (t : InodeId) : Alike L (g.dropGrants t) (g'.dropGrants t) := by
  obtain ⟨hcaps, hpurged⟩ := foldl_purgeGrant (g.grantsInto t) h []
  unfold TypeGraph.dropGrants
  rw [← h.grantsInto]
  generalize (g.grantsInto t).foldl TypeGraph.purgeGrant ([], g) = r,
    (g.grantsInto t).foldl TypeGraph.purgeGrant ([], g') = r' at hcaps hpurged ⊢
  obtain ⟨caps, gr⟩ := r
  obtain ⟨caps', gr'⟩ := r'
  dsimp only at hcaps hpurged ⊢
  subst hcaps
  exact Alike.foldl (fun h c => h.removeCap c) caps hpurged

/-! ### Operations -/

section Operations

variable (h : Alike L g g')

include h

theorem createFile (now : Nat → Timestamp) (d : DirId) (n : String) (u gr : UInt32) (p : Permissions) :
    EndAlike L (SotFs.createFile now d n u gr p g) (SotFs.createFile now d n u gr p g') := by
  have hinode : createdInode now g u gr p = createdInode now g' u gr p := by
    rw [createdInode, createdInode, h.nextInode]
  have hend := (h.enterInode (createdInode now g u gr p) d n).settle d 1 (now 1) .create g.nextInode n
    g.nextInode
  unfold SotFs.createFile
  rw [← h.requireCap, ← h.resolveName, ← h.containsDir, ← h.checkQuotaInode]
  cases g.requireCap Rights.write with
  | error e => exact ⟨rfl, h⟩
  | ok _ =>
      refine .ite ⟨rfl, h⟩ (.ite ⟨rfl, h⟩ (.ite ⟨rfl, h⟩ ?_))
      cases g.checkQuotaInode d with
      | err e => exact ⟨rfl, h⟩
      | panic => exact ⟨rfl, h⟩
      | diverges => exact ⟨rfl, h⟩
      | ok _ =>
          change EndAlike L _ ((g'.enterInode (createdInode now g' u gr p) d n).settle d 1 (now 1) .create
            g'.nextInode n g'.nextInode)
          rw [← hinode, ← h.nextInode]
          exact hend

theorem rmdir (now : Nat → Timestamp) (d : DirId) (n : String) :
    EndAlike L (SotFs.rmdir now d n g) (SotFs.rmdir now d n g') := by
  unfold SotFs.rmdir
  rw [← h.requireCap, ← h.resolveName]
  cases g.requireCap Rights.write with
  | error e => exact ⟨rfl, h⟩
  | ok _ =>
      refine .ite ⟨rfl, h⟩ ?_
      cases g.resolveName d n with
      | none => exact ⟨rfl, h⟩
      | some t =>
          dsimp only
          rw [← h.getInode, ← h.dirForInode]
          cases g.getInode t with
          | none => exact ⟨rfl, h⟩
          | some inode =>
              refine .ite ⟨rfl, h⟩ ?_
              cases g.dirForInode t with
              | none => exact ⟨rfl, h⟩
              | some td =>
                  dsimp only
                  rw [← h.dirNotEmpty]
                  refine .ite ⟨rfl, h⟩ ?_
                  exact (h.dropDir d n t td).settle d (-1) (now 0) .rmdir t n ()

theorem mkdir (now : Nat → Timestamp) (d : DirId) (n : String) (u gr : UInt32) (p : Permissions) :
    EndAlike L (SotFs.mkdir now d n u gr p g) (SotFs.mkdir now d n u gr p g') := by
  have hinode : madeDirInode now g u gr p = madeDirInode now g' u gr p := by
    rw [madeDirInode, madeDirInode, h.nextInode]
  unfold SotFs.mkdir
  rw [← h.requireCap, ← h.resolveName, ← h.getDir, ← h.checkQuotaInode]
  cases g.requireCap Rights.write with
  | error e => exact ⟨rfl, h⟩
  | ok _ =>
      refine .ite ⟨rfl, h⟩ (.ite ⟨rfl, h⟩ ?_)
      cases g.getDir d with
      | none => exact ⟨rfl, h⟩
      | some parent =>
          cases g.checkQuotaInode d with
          | err e => exact ⟨rfl, h⟩
          | panic => exact ⟨rfl, h⟩
          | diverges => exact ⟨rfl, h⟩
          | ok _ =>
              change EndAlike L _ ((g'.enterDir (madeDirInode now g' u gr p) d parent.inodeId n).settle d 1
                (now 1) .mkdir g'.nextInode n (CreateResult.mk g'.nextInode (some g'.nextDir)))
              rw [← hinode, ← h.nextInode, ← h.nextDir]
              exact (h.enterDir _ d parent.inodeId n).settle _ _ _ _ _ _ _

theorem link (now : Nat → Timestamp) (d : DirId) (n : String) (t : InodeId) :
    EndAlike L (SotFs.link now d n t g) (SotFs.link now d n t g') := by
  unfold SotFs.link
  rw [← h.requireCap, ← h.resolveName, ← h.getInode]
  cases g.requireCap Rights.write with
  | error e => exact ⟨rfl, h⟩
  | ok _ =>
      refine .ite ⟨rfl, h⟩ (.ite ⟨rfl, h⟩ ?_)
      cases g.getInode t with
      | none => exact ⟨rfl, h⟩
      | some inode =>
          refine .ite ⟨rfl, h⟩ (.ite ⟨rfl, h⟩ ?_)
          exact ⟨rfl, (h.enterLink d t n).recordProv _ _ _ _⟩

theorem unlink (now : Nat → Timestamp) (d : DirId) (n : String) :
    EndAlike L (SotFs.unlink now d n g) (SotFs.unlink now d n g') := by
  unfold SotFs.unlink
  rw [← h.requireCap, ← h.dirContains, ← h.dirEntries]
  cases g.requireCap Rights.write with
  | error e => exact ⟨rfl, h⟩
  | ok _ =>
      refine .ite ⟨rfl, h⟩ (.ite ⟨rfl, h⟩ ?_)
      cases (g.dirEntries d).find? fun entry => entry.2.2 = n with
      | none => exact ⟨rfl, h⟩
      | some entry =>
          obtain ⟨e, t, _⟩ := entry
          dsimp only
          rw [← h.getInode]
          cases g.getInode t with
          | none => exact ⟨rfl, h⟩
          | some inode =>
              refine .ite ⟨rfl, h⟩ (.ite ?_ ?_)
              · exact (h.dropLastName e d t).settle d (-1) (now 0) .unlink t n ()
              · exact ⟨rfl, (h.dropName e d t).recordProv _ _ _ _⟩

theorem removeDestination (now : Nat → Timestamp) (d : DirId) (n : String) (o : Option InodeId) :
    EndAlike L (TypeGraph.removeDestination now d n o g) (TypeGraph.removeDestination now d n o g') := by
  unfold TypeGraph.removeDestination
  cases o with
  | none => exact ⟨rfl, h⟩
  | some t =>
      dsimp only
      rw [← h.getInode]
      cases g.getInode t with
      | none => exact ⟨rfl, h⟩
      | some inode => exact .ite (h.rmdir now d n) (h.unlink now d n)

theorem renameSameDir (now : Nat → Timestamp) (d : DirId) (n n' : String) :
    EndAlike L (SotFs.renameSameDir now d n n' g) (SotFs.renameSameDir now d n n' g') := by
  unfold SotFs.renameSameDir
  rw [← h.resolveName, ← h.resolveName]
  cases g.resolveName d n with
  | none => exact ⟨rfl, h⟩
  | some t =>
      refine .ite ⟨rfl, h⟩ ?_
      obtain ⟨hout, hroom⟩ := h.removeDestination now d n' (g.resolveName d n')
      generalize TypeGraph.removeDestination now d n' (g.resolveName d n') g = r,
        TypeGraph.removeDestination now d n' (g.resolveName d n') g' = r' at hout hroom ⊢
      obtain ⟨o, gr⟩ := r
      obtain ⟨o', gr'⟩ := r'
      dsimp only at hout hroom
      subst hout
      cases o with
      | err e => exact ⟨rfl, hroom⟩
      | panic => exact ⟨rfl, hroom⟩
      | diverges => exact ⟨rfl, hroom⟩
      | ok _ =>
          dsimp only
          rw [← hroom.dirContains, ← hroom.findEntry]
          refine .ite ⟨rfl, hroom⟩ ?_
          cases gr.findEntry d t n with
          | none => exact ⟨rfl, hroom⟩
          | some e => exact ⟨rfl, hroom.renameContainsEdge e n'⟩

theorem renameCrossDir (now : Nat → Timestamp) (sd : DirId) (n : String) (dd : DirId) (n' : String) :
    EndAlike L (SotFs.renameCrossDir now sd n dd n' g) (SotFs.renameCrossDir now sd n dd n' g') := by
  unfold SotFs.renameCrossDir
  rw [← h.resolveName, ← h.resolveName]
  cases g.resolveName sd n with
  | none => exact ⟨rfl, h⟩
  | some t =>
      dsimp only
      rw [← h.wouldCycle]
      refine .ite ⟨rfl, h⟩ ?_
      obtain ⟨hout, hroom⟩ := h.removeDestination now dd n' (g.resolveName dd n')
      generalize TypeGraph.removeDestination now dd n' (g.resolveName dd n') g = r,
        TypeGraph.removeDestination now dd n' (g.resolveName dd n') g' = r' at hout hroom ⊢
      obtain ⟨o, gr⟩ := r
      obtain ⟨o', gr'⟩ := r'
      dsimp only at hout hroom
      subst hout
      cases o with
      | err e => exact ⟨rfl, hroom⟩
      | panic => exact ⟨rfl, hroom⟩
      | diverges => exact ⟨rfl, hroom⟩
      | ok _ =>
          dsimp only
          rw [← hroom.dirContains, ← hroom.findEntry]
          refine .ite ⟨rfl, hroom⟩ ?_
          cases gr.findEntry sd t n with
          | none => exact ⟨rfl, hroom⟩
          | some e => exact ⟨rfl, hroom.moveEntry e sd t dd n'⟩

theorem rename (now : Nat → Timestamp) (sd : DirId) (n : String) (dd : DirId) (n' : String) :
    EndAlike L (SotFs.rename now sd n dd n' g) (SotFs.rename now sd n dd n' g') := by
  have hbranch : EndAlike L
      (if sd = dd then SotFs.renameSameDir now sd n n' g else SotFs.renameCrossDir now sd n dd n' g)
      (if sd = dd then SotFs.renameSameDir now sd n n' g' else SotFs.renameCrossDir now sd n dd n' g') :=
    .ite (h.renameSameDir now sd n n') (h.renameCrossDir now sd n dd n')
  unfold SotFs.rename
  rw [← h.requireCap]
  cases g.requireCap Rights.write with
  | error e => exact ⟨rfl, h⟩
  | ok _ =>
      refine .ite ⟨rfl, h⟩ ?_
      dsimp only
      obtain ⟨hout, hmoved⟩ := hbranch
      generalize (if sd = dd then SotFs.renameSameDir now sd n n' g
          else SotFs.renameCrossDir now sd n dd n' g) = r,
        (if sd = dd then SotFs.renameSameDir now sd n n' g'
          else SotFs.renameCrossDir now sd n dd n' g') = r' at hout hmoved ⊢
      obtain ⟨o, gr⟩ := r
      obtain ⟨o', gr'⟩ := r'
      dsimp only at hout hmoved
      subst hout
      cases o with
      | err e => exact ⟨rfl, hmoved⟩
      | panic => exact ⟨rfl, hmoved⟩
      | diverges => exact ⟨rfl, hmoved⟩
      | ok _ => exact ⟨rfl, hmoved.onProvLog _ _⟩

theorem symlink (now : Nat → Timestamp) (d : DirId) (n target : String) (u gr : UInt32) :
    EndAlike L (SotFs.symlink now d n target u gr g) (SotFs.symlink now d n target u gr g') := by
  have hinode : symlinkInode now g target u gr = symlinkInode now g' target u gr := by
    rw [symlinkInode, symlinkInode, h.nextInode]
  unfold SotFs.symlink
  rw [← h.requireCap, ← h.resolveName, ← h.containsDir, ← h.checkQuotaInode]
  cases g.requireCap Rights.write with
  | error e => exact ⟨rfl, h⟩
  | ok _ =>
      refine .ite ⟨rfl, h⟩ (.ite ⟨rfl, h⟩ (.ite ⟨rfl, h⟩ ?_))
      cases g.checkQuotaInode d with
      | err e => exact ⟨rfl, h⟩
      | panic => exact ⟨rfl, h⟩
      | diverges => exact ⟨rfl, h⟩
      | ok _ =>
          change EndAlike L _ ((g'.enterSymlink (symlinkInode now g' target u gr) d n target).settle d 1
            (now 1) .symlink g'.nextInode n g'.nextInode)
          rw [← hinode, ← h.nextInode]
          exact (h.enterSymlink _ d n target).settle _ _ _ _ _ _ _

theorem writeBlock (t : InodeId) (offset sectorStart sectorCount : Nat) :
    EndAlike L (SotFs.writeBlock t offset sectorStart sectorCount g)
      (SotFs.writeBlock t offset sectorStart sectorCount g') := by
  unfold SotFs.writeBlock
  rw [← h.requireCap, ← h.containsInode]
  cases g.requireCap Rights.write with
  | error e => exact ⟨rfl, h⟩
  | ok _ =>
      refine .ite ⟨rfl, h⟩ ?_
      exact ⟨congrArg Outcome.ok h.nextBlock, h.attachBlock t offset sectorStart sectorCount⟩

theorem writeData (now : Nat → Timestamp) (t : InodeId) (offset : Nat) (data : List UInt8) :
    EndAlike L (SotFs.writeData now t offset data g) (SotFs.writeData now t offset data g') := by
  unfold SotFs.writeData
  rw [← h.requireCap, ← h.getInode, ← h.fileData]
  cases g.requireCap Rights.write with
  | error e => exact ⟨rfl, h⟩
  | ok _ =>
      cases g.getInode t with
      | none => exact ⟨rfl, h⟩
      | some inode =>
          have hbuf := fun buf => h.onFileData fun _ => g.fileData.insert t buf
          refine .ite ⟨rfl, h⟩ (.ite ⟨rfl, hbuf _⟩ (.ite ⟨rfl, hbuf _⟩ ?_))
          exact ⟨rfl, ((hbuf _).modifyInode t _).recordProv _ _ _ _⟩

theorem truncate (now : Nat → Timestamp) (t : InodeId) (newSize : Nat) :
    EndAlike L (SotFs.truncate now t newSize g) (SotFs.truncate now t newSize g') := by
  unfold SotFs.truncate
  rw [← h.requireCap, ← h.getInode, ← h.fileData]
  cases g.requireCap Rights.write with
  | error e => exact ⟨rfl, h⟩
  | ok _ =>
      cases g.getInode t with
      | none => exact ⟨rfl, h⟩
      | some inode =>
          have hbuf := fun buf => h.onFileData fun _ => g.fileData.insert t buf
          refine .ite ⟨rfl, h⟩ (.ite ⟨rfl, hbuf _⟩ ?_)
          exact ⟨rfl, ((hbuf _).modifyInode t _).recordProv _ _ _ _⟩

theorem chmod (now : Nat → Timestamp) (t : InodeId) (mode : UInt16) :
    EndAlike L (SotFs.chmod now t mode g) (SotFs.chmod now t mode g') := by
  unfold SotFs.chmod
  rw [← h.requireCap, ← h.getInode]
  cases g.requireCap Rights.grant with
  | error e => exact ⟨rfl, h⟩
  | ok _ =>
      cases g.getInode t with
      | none => exact ⟨rfl, h⟩
      | some inode => exact ⟨rfl, (h.modifyInode t _).recordProv _ _ _ _⟩

theorem chown (now : Nat → Timestamp) (t : InodeId) (u gr : Option UInt32) :
    EndAlike L (SotFs.chown now t u gr g) (SotFs.chown now t u gr g') := by
  unfold SotFs.chown
  rw [← h.requireCap, ← h.getInode]
  cases g.requireCap Rights.grant with
  | error e => exact ⟨rfl, h⟩
  | ok _ =>
      cases g.getInode t with
      | none => exact ⟨rfl, h⟩
      | some inode => exact ⟨rfl, (h.modifyInode t _).recordProv _ _ _ _⟩

theorem setxattr (now : Nat → Timestamp) (t : InodeId) (ns : XAttrNamespace) (name : String)
    (value : List UInt8) :
    EndAlike L (SotFs.setxattr now t ns name value g) (SotFs.setxattr now t ns name value g') := by
  unfold SotFs.setxattr
  rw [← h.requireCap, ← h.containsInode, ← h.findXattr]
  cases g.requireCap Rights.write with
  | error e => exact ⟨rfl, h⟩
  | ok _ =>
      refine .ite ⟨rfl, h⟩ (.ite ⟨rfl, h⟩ ?_)
      cases g.findXattr t ns name with
      | some x => exact ⟨rfl, h.onXattrs fun xattrs => xattrs.modify x fun xa => { xa with value := value }⟩
      | none =>
          exact ⟨congrArg Outcome.ok h.nextXattr, (h.attachXattr t ns name value).recordProv _ _ _ _⟩

theorem removexattr (now : Nat → Timestamp) (t : InodeId) (ns : XAttrNamespace) (name : String) :
    EndAlike L (SotFs.removexattr now t ns name g) (SotFs.removexattr now t ns name g') := by
  unfold SotFs.removexattr
  rw [← h.requireCap, ← h.containsInode, ← h.findXattr]
  cases g.requireCap Rights.write with
  | error e => exact ⟨rfl, h⟩
  | ok _ =>
      refine .ite ⟨rfl, h⟩ ?_
      cases g.findXattr t ns name with
      | none => exact ⟨rfl, h⟩
      | some x => exact ⟨rfl, (h.dropXattr t x).recordProv _ _ _ _⟩

theorem setacl (now : Nat → Timestamp) (t : InodeId) (entries : List AclEntry) :
    EndAlike L (SotFs.setacl now t entries g) (SotFs.setacl now t entries g') := by
  unfold SotFs.setacl
  rw [← h.requireCap, ← h.containsInode]
  cases g.requireCap Rights.grant with
  | error e => exact ⟨rfl, h⟩
  | ok _ =>
      refine .ite ⟨rfl, h⟩ ?_
      have hacl := (h.dropGrants t).onAcls (·.insert t entries)
      exact ⟨rfl, (Alike.foldl (fun h entry => h.grantEntry t (aclMask entries) entry) entries hacl
        ).recordProv _ _ _ _⟩

theorem setQuota (d : DirId) (il bl : Nat) :
    EndAlike L (SotFs.setQuota d il bl g) (SotFs.setQuota d il bl g') := by
  unfold SotFs.setQuota
  rw [← h.requireCap, ← h.containsDir]
  cases g.requireCap Rights.grant with
  | error e => exact ⟨rfl, h⟩
  | ok _ => exact .ite ⟨rfl, h⟩ ⟨rfl, h.onQuotas (·.insert d (.new il bl))⟩

/-- Every operation respects the likeness: on graphs that are alike it ends with the same outcome, and
    in graphs that are alike. -/
theorem apply (now : Nat → Timestamp) (op : Op) : EndAlike L (op.apply now g) (op.apply now g') := by
  cases op with
  | createFile d n u gr p => exact (h.createFile now d n u gr p).map _
  | mkdir d n u gr p => exact (h.mkdir now d n u gr p).map _
  | rmdir d n => exact (h.rmdir now d n).map _
  | link d n t => exact (h.link now d n t).map _
  | unlink d n => exact (h.unlink now d n).map _
  | rename sd n dd n' => exact (h.rename now sd n dd n').map _
  | symlink d n target u gr => exact (h.symlink now d n target u gr).map _
  | writeBlock t offset start count => exact (h.writeBlock t offset start count).map _
  | writeData t offset data => exact (h.writeData now t offset data).map _
  | truncate t newSize => exact (h.truncate now t newSize).map _
  | chmod t mode => exact (h.chmod now t mode).map _
  | chown t u gr => exact (h.chown now t u gr).map _
  | setxattr t ns name value => exact (h.setxattr now t ns name value).map _
  | removexattr t ns name => exact (h.removexattr now t ns name).map _
  | setacl t entries => exact (h.setacl now t entries).map _
  | setQuota d il bl => exact (h.setQuota d il bl).map _

end Operations

/-! ### Queries -/

section Queries

variable (h : Alike L g g')

include h

theorem readData (t : InodeId) (offset size : Nat) :
    SotFs.readData g t offset size = SotFs.readData g' t offset size := by
  unfold SotFs.readData
  rw [h.getInode, h.fileData]

theorem getxattr (t : InodeId) (ns : XAttrNamespace) (name : String) :
    SotFs.getxattr g t ns name = SotFs.getxattr g' t ns name := by
  unfold SotFs.getxattr
  rw [h.containsInode, h.findXattr, h.xattrs]

theorem listxattr (t : InodeId) : SotFs.listxattr g t = SotFs.listxattr g' t := by
  unfold SotFs.listxattr
  rw [h.containsInode, h.inodeXattrs, h.xattrs]

theorem readlink (t : InodeId) : SotFs.readlink g t = SotFs.readlink g' t := by
  unfold SotFs.readlink
  rw [h.getInode, h.symlinkTargets]

theorem getacl (t : InodeId) : SotFs.getacl g t = SotFs.getacl g' t := by
  unfold SotFs.getacl
  rw [h.getInode, h.acls]

theorem getQuota (d : DirId) : SotFs.getQuota g d = SotFs.getQuota g' d := by
  unfold SotFs.getQuota
  rw [h.containsDir, h.quotas]

theorem hasCycleFrom (fuel : Nat) : g.hasCycleFrom fuel = g'.hasCycleFrom fuel := by
  induction fuel with
  | zero => rfl
  | succ fuel ih =>
      funext start visited
      unfold TypeGraph.hasCycleFrom
      rw [h.childDirs, ih]

theorem checkInvariants : g.checkInvariants = g'.checkInvariants := by
  have hedge : g.getEdge = g'.getEdge := funext h.getEdge
  have hcap : g.getCap = g'.getCap := funext h.getCap
  have hnames : g.incomingNames = g'.incomingNames := funext h.incomingNames
  have hentries : g.dirEntries = g'.dirEntries := funext h.dirEntries
  have hnode : g.containsNode = g'.containsNode := funext h.containsNode
  have hcycle : g.hasCycleFrom = g'.hasCycleFrom := funext h.hasCycleFrom
  unfold TypeGraph.checkInvariants
  congr 1
  unfold TypeGraph.checkLinkCountConsistency TypeGraph.checkUniqueNames TypeGraph.checkDirSelfRef
    TypeGraph.checkNoDanglingEdges TypeGraph.checkBlockRefcount TypeGraph.checkNoDirCycles
    TypeGraph.checkCapMonotonicity TypeGraph.checkNoHardLinkToDir TypeGraph.checkDirNameIdxConsistency
    TypeGraph.checkIndexForward TypeGraph.checkIndexBackward
  rw [h.iterInodes, h.iterDirs, h.iterBlocks, h.iterEdges, h.dirContains, h.capParent, h.dirNameIdx,
    hedge, hcap, hnames, hentries, hnode, hcycle]

theorem hasCycleDfs (fuel : Nat) : g.hasCycleDfs fuel = g'.hasCycleDfs fuel := by
  induction fuel with
  | zero => rfl
  | succ fuel ih =>
      funext start met
      unfold TypeGraph.hasCycleDfs
      rw [h.childDirs, ih]

theorem fsck : SotFs.fsck g = SotFs.fsck g' := by
  have hnames : g.incomingNames = g'.incomingNames := funext h.incomingNames
  have hentries : g.dirEntries = g'.dirEntries := funext h.dirEntries
  have hinode : g.containsInode = g'.containsInode := funext h.containsInode
  have hdir : g.containsDir = g'.containsDir := funext h.containsDir
  have hblock : g.containsBlock = g'.containsBlock := funext fun b => h.containsNode (.block b)
  have hcycle : g.fsckCycleFrom = g'.fsckCycleFrom := by
    funext acc d
    unfold TypeGraph.fsckCycleFrom
    rw [h.hasCycleDfs, h.dirContains]
  unfold SotFs.fsck
  rw [L.len h.inodes, L.len h.dirs, L.len h.edges]
  unfold TypeGraph.fsckEdges TypeGraph.fsckLinkCounts TypeGraph.fsckNames TypeGraph.fsckCycles
    TypeGraph.fsckBlocks TypeGraph.fsckXattrs TypeGraph.fsckOrphans
  rw [h.iterInodes, h.iterDirs, h.iterBlocks, h.iterEdges, h.dirContains, h.inodeXattrs, h.xattrs,
    h.inodeIncomingContains, h.rootInode, hnames, hentries, hinode, hdir, hblock, hcycle]

/-- Every query answers alike. -/
theorem answer (query : Query) : query.answer g = query.answer g' := by
  cases query with
  | lookupName d n => exact congrArg Answer.edge (h.lookupName d n)
  | resolveName d n => exact congrArg Answer.inodeId (h.resolveName d n)
  | listDir d => exact congrArg Answer.entries (h.listDir d)
  | dirForInode t => exact congrArg Answer.dir (h.dirForInode t)
  | parentDir d => exact congrArg Answer.dir (h.parentDir d)
  | isAncestor a d => exact congrArg Answer.holds (h.isAncestor a d)
  | resolvePath path => exact congrArg Answer.location (h.resolvePath path)
  | getInode t => exact congrArg Answer.inode (h.getInode t)
  | readData t offset size => exact congrArg Answer.bytes (h.readData t offset size)
  | getxattr t ns name => exact congrArg Answer.bytes (h.getxattr t ns name)
  | listxattr t => exact congrArg Answer.attributes (h.listxattr t)
  | readlink t => exact congrArg Answer.target (h.readlink t)
  | getacl t => exact congrArg Answer.acl (h.getacl t)
  | getQuota d => exact congrArg Answer.quota (h.getQuota d)
  | checkInvariants => exact congrArg Answer.verdict h.checkInvariants
  | fsck => exact congrArg Answer.report h.fsck

end Queries

theorem serve (h : Alike L g g') (request : Request) :
    (request.serve g).1 = (request.serve g').1 ∧ Alike L (request.serve g).2 (request.serve g').2 := by
  cases request with
  | call now op =>
      obtain ⟨hout, hnext⟩ := h.apply now op
      exact ⟨congrArg Response.outcome hout, hnext⟩
  | ask query => exact ⟨congrArg Response.answer (h.answer query), h⟩
  | setCapCtx ctx => exact ⟨rfl, h.setCapCtx ctx⟩
  | enableProvLog | disableProvLog => exact ⟨rfl, h.onProvLog _ _⟩

/-- Graphs that are alike are alike to every client. -/
theorem observablyEqual (h : Alike L g g') : ObservablyEqual g g' := by
  intro requests
  induction requests generalizing g g' with
  | nil => rfl
  | cons request requests ih =>
      obtain ⟨hresponse, hnext⟩ := h.serve request
      rw [TypeGraph.responses, TypeGraph.responses, hresponse, ih hnext]

end Alike

/-- A new graph is like itself. -/
theorem Alike.new (L : Likeness) (now : Timestamp) : Alike L (.new now) (.new now) where
  inodes := L.insertAt L.new _ _
  dirs := L.insertAt L.new _ _
  caps := L.new
  transactions := L.new
  versions := L.new
  blocks := L.new
  edges := L.insertAt L.new _ _
  frame := rfl

/-- The graph of a run is like itself, whatever the likeness asks of a single arena. -/
theorem Run.alike {allowed : TypeGraph → Op → TypeGraph → Prop} {g : TypeGraph} (L : Likeness)
    (hrun : Run allowed g) : Alike L g g := by
  induction hrun with
  | new now => exact .new L now
  | call now op _ _ ih => exact (ih.apply now op).2
  | setCapCtx ctx _ ih => exact ih.setCapCtx ctx
  | enableProvLog _ ih => exact ih.onProvLog _ _
  | disableProvLog _ ih => exact ih.onProvLog _ _

end SotFs
