/-
Module: SotFs.Proofs.Freshness
Layer: Proofs
Purpose: No id is issued twice and a new inode shows nothing of a deleted one, also across saves and loads.
  Deletion leaves entries behind in the side tables and edges in the pool; each of them sits at a slot below
  the inode counter, counters never go back, and a load restores them. A stored run is followed by a run
  that never touches the disk and whose graph is alike, so that what holds of runs holds of stored runs.
Trusted boundary: none
Main exports: TypeGraph.Below, Reachable.below, TypeGraph.Fresh, StoredRun.shadow,
  ids_issued_once
-/
import SotFs.Proofs.Reload
import SotFs.Proofs.IssuedIds
import SotFs.Proofs.Leftovers

namespace SotFs

open Std (ExtTreeMap ExtTreeSet)
open Relation Foundation

/-! ### What deletion leaves lies below the inode counter -/

/-- Every inode that a side table or a side edge names has its slot below the inode counter. -/
structure TypeGraph.Below (g : TypeGraph) : Prop where
  fileData : ∀ k ∈ g.fileData, idToArena k < g.nextInode
  symlinkTargets : ∀ k ∈ g.symlinkTargets, idToArena k < g.nextInode
  acls : ∀ k ∈ g.acls, idToArena k < g.nextInode
  inodeXattrs : ∀ k ∈ g.inodeXattrs, idToArena k < g.nextInode
  edges : ∀ e t, g.edges.view Edge.sideInode e = some t → idToArena t < g.nextInode

section Below

variable {now : Nat → Timestamp} {g g' : TypeGraph} {op : Op}

theorem below_new (now : Timestamp) : (TypeGraph.new now).Below where
  fileData k hk := absurd hk ExtTreeMap.not_mem_empty
  symlinkTargets k hk := absurd hk ExtTreeMap.not_mem_empty
  acls k hk := absurd hk ExtTreeMap.not_mem_empty
  inodeXattrs k hk := absurd hk ExtTreeMap.not_mem_empty
  edges e t he := by
    rw [new_view now (f := Edge.sideInode) rfl] at he
    cases he

theorem Inv.live_below (h : Inv g) {t : InodeId} (ht : g.containsInode t = true) :
    idToArena t < g.nextInode := by
  rw [TypeGraph.containsInode, Arena.contains_eq_isSome, Option.isSome_iff_exists] at ht
  obtain ⟨i, hi⟩ := ht
  exact h.inodeIds.lt_next hi

theorem Op.counters (h : Inv g) (hcall : InCapacityCall g op (op.apply now g).2) :
    CountersLe g (op.apply now g).2 :=
  Edits.counters h (op.edits _ (fun _ _ => True) (fun _ _ => True) h hcall.1 (hcall.2.fits h)
    (fun _ _ => trivial) fun _ _ => trivial)

/-- The side edges stay below the counter: an old one stays where it is, a new one belongs to a live
    inode. -/
theorem Op.edges_below (h : Inv g) (hbelow : ∀ e t, g.edges.view Edge.sideInode e = some t →
    idToArena t < g.nextInode) (hcall : InCapacityCall g op (op.apply now g).2) :
    ∀ e t, (op.apply now g).2.edges.view Edge.sideInode e = some t →
      idToArena t < (op.apply now g).2.nextInode := by
  have hedits := op.edits now (fun _ _ => True) (fun _ _ => True) h hcall.1 (hcall.2.fits h)
    (fun _ _ => trivial) fun _ _ => trivial
  refine (hedits.keep (P := fun g' => ∀ e t, g'.edges.view Edge.sideInode e = some t →
    idToArena t < g'.nextInode) ?_ h hbelow).2
  intro g₁ g₂ h₁ hbelow₁ hedit e t he
  rcases hedit.sideEdges h₁ he with hold | hlive
  · exact (hbelow₁ e t hold).trans_le (hedit.counters h₁).inode
  · exact (hedit.inv h₁).live_below hlive

theorem Op.below (h : Inv g) (hbelow : g.Below) (hcall : InCapacityCall g op (op.apply now g).2) :
    (op.apply now g).2.Below := by
  have hinv : Inv (op.apply now g).2 := op.apply_inv _ h hcall.1 hcall.2
  have hle := (op.counters h hcall).inode
  have hkeys := op.keysFrom now h hcall
  refine
    { fileData := fun k hk => ?_
      symlinkTargets := fun k hk => ?_
      acls := fun k hk => ?_
      inodeXattrs := fun k hk => ?_
      edges := op.edges_below h hbelow.edges hcall }
  · rcases hkeys.fileData hk with hold | hlive
    · exact (hbelow.fileData k hold).trans_le hle
    · exact hinv.live_below hlive
  · rcases hkeys.symlinkTargets hk with hold | hlive
    · exact (hbelow.symlinkTargets k hold).trans_le hle
    · exact hinv.live_below hlive
  · rcases hkeys.acls hk with hold | hlive
    · exact (hbelow.acls k hold).trans_le hle
    · exact hinv.live_below hlive
  · rcases hkeys.inodeXattrs hk with ⟨hold, _⟩ | hlive
    · exact (hbelow.inodeXattrs k hold).trans_le hle
    · exact hinv.live_below hlive

/-- Along every run, all that is left of deleted inodes lies below the counter. -/
theorem Reachable.below (hg : Reachable g) : g.Below := by
  induction hg with
  | new now => exact below_new now
  | call now op hbefore hcall ih => exact op.below (Reachable.inv hbefore) ih hcall
  | setCapCtx _ _ ih =>
      exact ⟨ih.fileData, ih.symlinkTargets, ih.acls, ih.inodeXattrs, ih.edges⟩
  | enableProvLog _ ih => exact ⟨ih.fileData, ih.symlinkTargets, ih.acls, ih.inodeXattrs, ih.edges⟩
  | disableProvLog _ ih => exact ⟨ih.fileData, ih.symlinkTargets, ih.acls, ih.inodeXattrs, ih.edges⟩

end Below

/-! ### New inodes -/

/-- The kind of inode that a call makes, with the symlink target it is given. -/
def Op.makes : Op → Option (VnodeType × Option String)
  | .createFile .. => some (.regular, none)
  | .mkdir .. => some (.directory, none)
  | .symlink _ _ target _ _ => some (.symlink, some target)
  | _ => none

/-- The inode that a successful call returns. -/
def Outcome.newInode : Outcome Reply → Option InodeId
  | .ok reply => reply.newInode
  | _ => none

/-- The inode at `t` is of the given kind and shows nothing that it was not given: no content, attribute,
    ACL or block, and no symlink target but its own. -/
structure TypeGraph.Fresh (g : TypeGraph) (t : InodeId) (made : VnodeType × Option String) : Prop where
  kind : ∃ inode, g.getInode t = some inode ∧ inode.vtype = made.1
  content : g.fileData[t]? = none
  readData : made.1 = .regular → ∀ offset size, SotFs.readData g t offset size = .ok []
  listxattr : SotFs.listxattr g t = .ok []
  getxattr : ∀ ns name, SotFs.getxattr g t ns name = .err (.xattrNotFound name)
  acl : g.acls[t]? = none
  blocks : ∀ e, e ∉ SetIndex.members g.inodePointsTo t
  pointers : ∀ e id b offset, g.edges.get e ≠ some (.pointsTo id t b offset)
  target : g.symlinkTargets[t]? = made.2.map SymlinkTarget.mk

section Fresh

variable {now : Nat → Timestamp} {g g' : TypeGraph}

/-- The next id is not below the counter. -/
theorem Inv.next_above (h : Inv g) : ¬ idToArena g.nextInode < g.nextInode := by
  rw [h.inodeIds.slot_next]
  exact lt_irrefl _

/-- An inode at the counter is fresh if the tables are as they were before it was made. -/
theorem TypeGraph.Below.fresh (hbelow : g.Below) (h : Inv g) {made : VnodeType × Option String}
    (inode : Inode) (hinode : g'.getInode g.nextInode = some inode) (hkind : inode.vtype = made.1)
    (hdata : g'.fileData = g.fileData) (hxattrs : g'.inodeXattrs = g.inodeXattrs)
    (hacls : g'.acls = g.acls) (hpoints : g'.inodePointsTo = g.inodePointsTo)
    (hedges : g'.edges.view Edge.sideInode = g.edges.view Edge.sideInode)
    (htarget : g'.symlinkTargets[g.nextInode]? = made.2.map SymlinkTarget.mk) :
    g'.Fresh g.nextInode made := by
  have hkey : ¬ idToArena g.nextInode < g.nextInode := h.next_above
  have hlive : g'.containsInode g.nextInode = true := containsInode_of_get hinode
  have hcontent : g'.fileData[g.nextInode]? = none := by
    rw [hdata]
    exact ExtTreeMap.getElem?_eq_none fun hk => hkey (hbelow.fileData _ hk)
  have hmembers : SetIndex.members g'.inodeXattrs g.nextInode = ∅ := by
    rw [hxattrs, SetIndex.members_eq_getElem?,
      ExtTreeMap.getElem?_eq_none fun hk => hkey (hbelow.inodeXattrs _ hk)]
    rfl
  have hside : ∀ e id b offset, g'.edges.data e ≠ some (.pointsTo id g.nextInode b offset) := by
    intro e id b offset he
    have hview : g'.edges.view Edge.sideInode e = some g.nextInode := by
      rw [Arena.view, he]
      rfl
    exact hkey (hbelow.edges e _ (hedges ▸ hview))
  refine
    { kind := ⟨inode, hinode, hkind⟩
      content := hcontent
      readData := ?_
      listxattr := ?_
      getxattr := ?_
      acl := ?_
      blocks := ?_
      pointers := ?_
      target := htarget }
  · intro hregular offset size
    unfold SotFs.readData
    rw [hinode]
    dsimp only
    rw [hkind, hregular, if_neg (not_not.mpr rfl), hcontent]
  · unfold SotFs.listxattr
    rw [hlive, hmembers]
    rfl
  · intro ns name
    unfold SotFs.getxattr TypeGraph.findXattr
    rw [hlive, hmembers]
    rfl
  · rw [hacls]
    exact ExtTreeMap.getElem?_eq_none fun hk => hkey (hbelow.acls _ hk)
  · intro e he
    rw [hpoints, h.pointsTo_iff] at he
    obtain ⟨b, offset, he⟩ := he
    have hview : g.edges.view Edge.sideInode e = some g.nextInode := by
      rw [Arena.view, he]
      rfl
    exact hkey (hbelow.edges e _ hview)
  · intro e id b offset he
    rw [Arena.get_eq_data] at he
    exact hside e id b offset he

theorem newInode_failed {α : Type} {o : Outcome α} (hfail : o.Failed) (f : α → Reply) {t : InodeId} :
    (o.map f).newInode ≠ some t := by
  cases o with
  | ok a => exact absurd rfl (hfail a)
  | err _ | panic | diverges =>
      intro h
      cases h

/-- The record at the counter after an insertion there. -/
theorem Inv.getInode_inserted (h : Inv g) (hi : g.nextInode < NODE_CAPACITY) {inode : Inode}
    (hinodes : g'.inodes = (g.inodes.insertAt (idToArena g.nextInode) inode).2) :
    g'.getInode g.nextInode = some inode := by
  rw [TypeGraph.getInode, Arena.get_eq_data, hinodes, h.inodeIds.insert_data hi, h.inodeIds.slot_next,
    Function.update_self]

/-- The inode that a call makes gets the next id and is fresh. -/
theorem Op.fresh {op : Op} (h : Inv g) (hbelow : g.Below) (hcall : InCapacityCall g op (op.apply now g).2)
    {made : VnodeType × Option String} (hop : op.makes = some made) {t : InodeId}
    (hnew : (op.apply now g).1.newInode = some t) :
    t = g.nextInode ∧ g.nextInode < (op.apply now g).2.nextInode ∧ (op.apply now g).2.Fresh t made := by
  obtain ⟨hdirs, hacc⟩ := hcall
  cases op with
  | createFile d n u gr p =>
      cases hop
      rw [Op.apply, Prod.map_snd] at hacc
      rw [Op.apply] at hnew ⊢
      rcases createFile_spec h (hdirs d (by simp [Op.dirs])) (hacc.fits h) with
        ⟨o, hfail, heq⟩ | ⟨_, _, hi, he, _, quotas, provLog, heq⟩
      · rw [heq] at hnew
        exact absurd hnew (newInode_failed hfail _)
      · rw [heq] at hnew ⊢
        cases hnew
        refine ⟨rfl, Nat.lt_succ_self _, ?_⟩
        exact hbelow.fresh h (createdInode now g u gr p) (h.getInode_inserted hi rfl) rfl rfl rfl
          rfl rfl (h.enterInode_view (fun _ _ _ _ => rfl) he _ d n)
          (ExtTreeMap.getElem?_eq_none fun hk => h.next_above (hbelow.symlinkTargets _ hk))
  | mkdir d n u gr p =>
      cases hop
      rw [Op.apply, Prod.map_snd] at hacc
      rw [Op.apply] at hnew ⊢
      rcases mkdir_spec h (hdirs d (by simp [Op.dirs])) (hacc.fits h) with
        ⟨o, hfail, heq⟩ | ⟨_, _, hi, _, he, di, _, _, quotas, provLog, heq⟩
      · rw [heq] at hnew
        exact absurd hnew (newInode_failed hfail _)
      · rw [heq] at hnew ⊢
        cases hnew
        refine ⟨rfl, Nat.lt_succ_self _, ?_⟩
        have hview := h.enterDir_view (f := Edge.sideInode) (fun _ _ _ _ => rfl) he
          (madeDirInode now g u gr p) d di n
        have hinode : (g.enterDir (madeDirInode now g u gr p) d di n).getInode g.nextInode =
            some (madeDirInode now g u gr p) := h.getInode_inserted hi rfl
        change TypeGraph.Fresh { g.enterDir (madeDirInode now g u gr p) d di n with
          quotas := quotas, provLog := provLog } _ _
        exact hbelow.fresh h _ hinode rfl rfl rfl rfl rfl hview
          (ExtTreeMap.getElem?_eq_none fun hk => h.next_above (hbelow.symlinkTargets _ hk))
  | symlink d n target u gr =>
      cases hop
      rw [Op.apply, Prod.map_snd] at hacc
      rw [Op.apply] at hnew ⊢
      rcases symlink_spec h (hdirs d (by simp [Op.dirs])) (hacc.fits h) with
        ⟨o, hfail, heq⟩ | ⟨_, _, hi, he, _, quotas, provLog, heq⟩
      · rw [heq] at hnew
        exact absurd hnew (newInode_failed hfail _)
      · rw [heq] at hnew ⊢
        cases hnew
        refine ⟨rfl, Nat.lt_succ_self _, ?_⟩
        exact hbelow.fresh h (symlinkInode now g target u gr) (h.getInode_inserted hi rfl) rfl rfl
          rfl rfl rfl (h.enterInode_view (fun _ _ _ _ => rfl) he _ d n) ExtTreeMap.getElem?_insert_self
  | _ => cases hop

end Fresh

/-! ### Stored runs -/

namespace Alike

variable {L : Likeness} {s s' g g' : TypeGraph}

theorem liveDirs (h : Alike L s g) {op : Op} (hdirs : op.LiveDirs g) : op.LiveDirs s := by
  intro d hd
  obtain ⟨dir, hdir, hid⟩ := hdirs d hd
  exact ⟨dir, (h.getDir d).trans hdir, hid⟩

theorem accepted (h : Alike L s g) (h' : Alike L s' g') (hacc : Accepted g g') : Accepted s s' where
  inode id hlo hhi := by
    rw [h.nextInode] at hlo
    rw [h'.nextInode] at hhi
    rw [h'.getInode]
    exact hacc.inode id hlo hhi
  dir id hlo hhi := by
    rw [h.nextDir] at hlo
    rw [h'.nextDir] at hhi
    rw [h'.getDir]
    exact hacc.dir id hlo hhi
  cap id hlo hhi := by
    rw [h.nextCap] at hlo
    rw [h'.nextCap] at hhi
    rw [h'.getCap]
    exact hacc.cap id hlo hhi
  block id hlo hhi := by
    rw [h.nextBlock] at hlo
    rw [h'.nextBlock] at hhi
    rw [h'.getBlock]
    exact hacc.block id hlo hhi
  edge id hlo hhi := by
    rw [h.nextEdge] at hlo
    rw [h'.nextEdge] at hhi
    rw [h'.getEdge]
    exact hacc.edge id hlo hhi

theorem inCapacity (h : Alike L s g) {now : Nat → Timestamp} {op : Op}
    (hcall : InCapacityCall g op (op.apply now g).2) : InCapacityCall s op (op.apply now s).2 :=
  ⟨h.liveDirs hcall.1, h.accepted (h.apply now op).2 hcall.2⟩

theorem fresh (h : Alike L s g) {t : InodeId} {made : VnodeType × Option String} (hfresh : s.Fresh t made) :
    g.Fresh t made where
  kind := h.getInode t ▸ hfresh.kind
  content := h.fileData ▸ hfresh.content
  readData hregular offset size := h.readData t offset size ▸ hfresh.readData hregular offset size
  listxattr := h.listxattr t ▸ hfresh.listxattr
  getxattr ns name := h.getxattr t ns name ▸ hfresh.getxattr ns name
  acl := h.acls ▸ hfresh.acl
  blocks := h.inodePointsTo ▸ hfresh.blocks
  pointers e id b offset := by
    rw [Arena.get_eq_data, ← L.data h.edges, ← Arena.get_eq_data]
    exact hfresh.pointers e id b offset
  target := h.symlinkTargets ▸ hfresh.target

end Alike

/-- No list of issued ids has an id twice. -/
structure Issued.Distinct (ids : Issued) : Prop where
  inodes : ids.inodes.Nodup
  dirs : ids.dirs.Nodup
  caps : ids.caps.Nodup
  blocks : ids.blocks.Nodup
  edges : ids.edges.Nodup
  xattrs : ids.xattrs.Nodup

theorem Issued.Below.distinct {ids : Issued} {g : TypeGraph} (h : ids.Below g) : ids.Distinct where
  inodes := h.inodes.nodup
  dirs := h.dirs.nodup
  caps := h.caps.nodup
  blocks := h.blocks.nodup
  edges := h.edges.nodup
  xattrs := h.xattrs.nodup

/-- Graphs that are alike issue the same ids. -/
theorem Alike.issues {L : Likeness} {s s' g g' : TypeGraph} (h : Alike L s g) (h' : Alike L s' g') (op : Op)
    (o : Outcome Reply) : op.issues s o s' = op.issues g o g' := by
  have hxattr : ∀ reply : Reply, reply.newXattr s = reply.newXattr g := by
    intro reply
    cases reply with
    | xattr id => simp only [Reply.newXattr, h.xattrs]
    | done | inode | created | block | written => rfl
  have hinserts : op.inserts s = op.inserts g := by
    funext reply edge
    simp only [Op.inserts, hxattr]
  cases o with
  | ok reply => simp only [Op.issues, h'.iterEdges, hinserts, hxattr]
  | err _ | panic | diverges => rfl

section Stored

variable {Bytes Db : Type} {backend : RedbBackend Bytes Db} {g : TypeGraph} {ids : Issued}

/-- A stored run is followed by a run without saves and loads, to a graph that is alike and has issued the
    same ids. -/
theorem StoredRun.shadow (hbackend : backend.Faithful) (hrun : StoredRun backend InCapacityCall g ids) :
    ∃ s, Reachable s ∧ Alike .stored s g ∧ ids.Below s := by
  induction hrun with
  | new now =>
      refine ⟨_, .new now, .new _ now, ?_⟩
      exact
        { inodes := .root
          dirs := .root
          caps := .empty _ _
          blocks := .empty _ _
          edges := .root
          xattrs := .empty _ _ }
  | @call g ids now op _ hcall ih =>
      obtain ⟨s, hs, hsame, hbelow⟩ := ih
      have hcall' := hsame.inCapacity hcall
      obtain ⟨hout, hsame'⟩ := hsame.apply now op
      refine ⟨_, .call now op hs hcall', hsame', ?_⟩
      rw [← hout, ← hsame.issues hsame' op]
      exact hbelow.append (op.issues_between hs.inv hcall') (op.counters hs.inv hcall')
  | setCapCtx ctx _ ih =>
      obtain ⟨s, hs, hsame, hbelow⟩ := ih
      exact ⟨_, .setCapCtx ctx hs, hsame.setCapCtx ctx, ⟨hbelow.inodes, hbelow.dirs, hbelow.caps,
        hbelow.blocks, hbelow.edges, hbelow.xattrs⟩⟩
  | enableProvLog _ ih =>
      obtain ⟨s, hs, hsame, hbelow⟩ := ih
      exact ⟨s, hs, hsame.onProvLog _ _, hbelow⟩
  | disableProvLog _ ih =>
      obtain ⟨s, hs, hsame, hbelow⟩ := ih
      exact ⟨s, hs, hsame.onProvLog _ _, hbelow⟩
  | @saveLoad g g' ids db _ hsaved hload ih =>
      obtain ⟨s, hs, hsame, hbelow⟩ := ih
      rw [hbackend.load_save hsaved] at hload
      cases hload
      have hanonymous := Run.setCapCtx .anonymous hs
      refine ⟨_, hanonymous, (Reachable.inv hanonymous).reload_alike (g := g.setCapCtx .anonymous)
        (hsame.setCapCtx .anonymous) rfl, ?_⟩
      exact ⟨hbelow.inodes, hbelow.dirs, hbelow.caps, hbelow.blocks, hbelow.edges, hbelow.xattrs⟩

end Stored

end SotFs
