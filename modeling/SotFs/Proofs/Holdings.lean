/-
Module: SotFs.Proofs.Holdings
Layer: Proofs
Purpose: What a graph holds beside its namespace: content, symlink targets, ACLs, attributes, capabilities
  and the terms of its quotas. The calls that make, take and move names leave all of it as it is (symlink
  adds its target), on whatever graph and with whatever outcome, and every other call all but the part it is
  about; quota walks change one counter of a quota and none of its terms.
Trusted boundary: none
Main exports: Holdings, TypeGraph.holdings, Op.OnNames, Op.holdings_eq, Holdings.KeptBy, Op.holdings_kept
-/
import SotFs.Proofs.OpSpecs

namespace SotFs

open Std (ExtTreeMap ExtTreeSet)
open Foundation

/-- A quota without its inode counter: the two limits and the bytes charged. -/
def Quota.terms (q : Quota) : Nat × Nat × Nat := (q.inodeLimit, q.byteLimit, q.byteUsage)

/-- What a graph holds beside its namespace. -/
structure Holdings where
  fileData : ExtTreeMap InodeId (List UInt8)
  symlinkTargets : ExtTreeMap InodeId SymlinkTarget
  acls : ExtTreeMap InodeId (List AclEntry)
  xattrs : ExtTreeMap XAttrId XAttr
  inodeXattrs : SetIndex InodeId XAttrId
  nextXattr : Nat
  caps : Arena Capability NODE_CAPACITY
  nextCap : Nat
  capGrants : ExtTreeMap CapId EdgeId
  capParent : ExtTreeMap CapId CapId
  capChildren : SetIndex CapId CapId
  capCtx : CapContext
  quotaTerms : DirId → Option (Nat × Nat × Nat)

/-- What the graph holds beside its namespace. -/
def TypeGraph.holdings (g : TypeGraph) : Holdings where
  fileData := g.fileData
  symlinkTargets := g.symlinkTargets
  acls := g.acls
  xattrs := g.xattrs
  inodeXattrs := g.inodeXattrs
  nextXattr := g.nextXattr
  caps := g.caps
  nextCap := g.nextCap
  capGrants := g.capGrants
  capParent := g.capParent
  capChildren := g.capChildren
  capCtx := g.capCtx
  quotaTerms d := g.quotas[d]?.map Quota.terms

/-! ### The low-level writes

Each is an update of the fields it names, whatever the graph. -/

section Writes

variable {g : TypeGraph}

theorem removeEdge_frame (e : EdgeId) : ∃ edges dirNameIdx,
    (g.removeEdge e).2 = { g with edges := edges, dirNameIdx := dirNameIdx } := by
  unfold TypeGraph.removeEdge
  dsimp only
  split
  · exact ⟨g.edges, g.dirNameIdx, rfl⟩
  · exact ⟨_, _, rfl⟩
  · exact ⟨_, g.dirNameIdx, rfl⟩

theorem detachContains_frame (e : EdgeId) : ∃ edges dirNameIdx dirContains inodeIncomingContains,
    g.detachContains e =
      { g with edges := edges, dirNameIdx := dirNameIdx, dirContains := dirContains,
               inodeIncomingContains := inodeIncomingContains } := by
  obtain ⟨edges, idx, hremoved⟩ := removeEdge_frame (g := g) e
  unfold TypeGraph.detachContains
  split
  · rename_i heq
    rw [heq] at hremoved
    dsimp only at hremoved
    subst hremoved
    exact ⟨edges, idx, _, _, rfl⟩
  · rename_i heq
    rw [heq] at hremoved
    exact ⟨edges, idx, g.dirContains, g.inodeIncomingContains, hremoved⟩

theorem foldl_detachContains_frame (es : List EdgeId) :
    ∀ {g : TypeGraph}, ∃ edges dirNameIdx dirContains inodeIncomingContains,
      es.foldl TypeGraph.detachContains g =
        { g with edges := edges, dirNameIdx := dirNameIdx, dirContains := dirContains,
                 inodeIncomingContains := inodeIncomingContains } := by
  induction es with
  | nil =>
      intro g
      exact ⟨g.edges, g.dirNameIdx, g.dirContains, g.inodeIncomingContains, rfl⟩
  | cons e es ih =>
      intro g
      obtain ⟨_, _, _, _, hstep⟩ := detachContains_frame (g := g) e
      obtain ⟨edges, idx, dc, ii, heq⟩ := ih (g := g.detachContains e)
      exact ⟨edges, idx, dc, ii, by rw [List.foldl_cons, heq, hstep]⟩

theorem releaseBlockEdge_frame (e : EdgeId) : ∃ edges dirNameIdx blocks,
    g.releaseBlockEdge e = { g with edges := edges, dirNameIdx := dirNameIdx, blocks := blocks } := by
  obtain ⟨edges, idx, hremoved⟩ := removeEdge_frame (g := g) e
  unfold TypeGraph.releaseBlockEdge
  split
  · rename_i heq
    rw [heq] at hremoved
    dsimp only at hremoved
    subst hremoved
    split
    · dsimp only
      split
      · exact ⟨edges, idx, _, rfl⟩
      · exact ⟨edges, idx, _, rfl⟩
    · exact ⟨edges, idx, g.blocks, rfl⟩
  · rename_i heq
    rw [heq] at hremoved
    exact ⟨edges, idx, g.blocks, hremoved⟩

theorem foldl_releaseBlockEdge_frame (es : List EdgeId) :
    ∀ {g : TypeGraph}, ∃ edges dirNameIdx blocks,
      es.foldl TypeGraph.releaseBlockEdge g =
        { g with edges := edges, dirNameIdx := dirNameIdx, blocks := blocks } := by
  induction es with
  | nil =>
      intro g
      exact ⟨g.edges, g.dirNameIdx, g.blocks, rfl⟩
  | cons e es ih =>
      intro g
      obtain ⟨_, _, _, hstep⟩ := releaseBlockEdge_frame (g := g) e
      obtain ⟨edges, idx, blocks, heq⟩ := ih (g := g.releaseBlockEdge e)
      exact ⟨edges, idx, blocks, by rw [List.foldl_cons, heq, hstep]⟩

theorem dropName_frame (e : EdgeId) (d : DirId) (t : InodeId) :
    ∃ edges dirNameIdx dirContains inodeIncomingContains,
      g.dropName e d t =
        { g with
          edges := edges, dirNameIdx := dirNameIdx, dirContains := dirContains,
          inodeIncomingContains := inodeIncomingContains,
          inodes := g.inodes.modify (idToArena t) fun i =>
            { i with linkCount := decrement32 i.linkCount } } := by
  obtain ⟨edges, idx, hremoved⟩ := removeEdge_frame (g := g) e
  unfold TypeGraph.dropName
  rw [hremoved]
  exact ⟨edges, idx, _, _, rfl⟩

theorem dropLastName_frame (e : EdgeId) (d : DirId) (t : InodeId) :
    ∃ edges dirNameIdx dirContains inodeIncomingContains blocks,
      g.dropLastName e d t =
        { g with
          edges := edges, dirNameIdx := dirNameIdx, dirContains := dirContains,
          inodeIncomingContains := inodeIncomingContains, blocks := blocks,
          inodePointsTo := g.inodePointsTo.erase t,
          inodes := ((g.inodes.modify (idToArena t) fun i =>
            { i with linkCount := decrement32 i.linkCount }).remove (idToArena t)).2 } := by
  obtain ⟨_, _, dc, ii, hdropped⟩ := dropName_frame (g := g) e d t
  obtain ⟨edges, idx, blocks, hreleased⟩ := foldl_releaseBlockEdge_frame
    (SetIndex.members (g.dropName e d t).inodePointsTo t).toList
    (g := { g.dropName e d t with inodePointsTo := (g.dropName e d t).inodePointsTo.erase t })
  unfold TypeGraph.dropLastName TypeGraph.collectInode
  simp only [hreleased]
  rw [hdropped]
  exact ⟨edges, idx, dc, _, blocks, rfl⟩

theorem dropDir_frame (p : DirId) (n : String) (ti : InodeId) (td : DirId) :
    ∃ edges dirNameIdx dirContains inodeIncomingContains dirs dirForInodeIdx,
      g.dropDir p n ti td =
        { g with
          edges := edges, dirNameIdx := dirNameIdx, dirContains := dirContains,
          inodeIncomingContains := inodeIncomingContains, dirs := dirs, dirForInodeIdx := dirForInodeIdx,
          inodes := (g.inodes.remove (idToArena ti)).2 } := by
  obtain ⟨edges, idx, dc, ii, hdetached⟩ := foldl_detachContains_frame (g.rmdirEdges p n ti td) (g := g)
  unfold TypeGraph.dropDir TypeGraph.removeDir
  rw [hdetached]
  dsimp only
  split
  · exact ⟨edges, idx, _, _, _, _, rfl⟩
  · exact ⟨edges, idx, _, _, _, g.dirForInodeIdx, rfl⟩

theorem renameContainsEdge_frame (e : EdgeId) (n : String) : ∃ edges dirNameIdx,
    (g.renameContainsEdge e n).2 = { g with edges := edges, dirNameIdx := dirNameIdx } := by
  unfold TypeGraph.renameContainsEdge
  split
  · split
    · exact ⟨g.edges, g.dirNameIdx, rfl⟩
    · exact ⟨_, _, rfl⟩
  · exact ⟨g.edges, g.dirNameIdx, rfl⟩

theorem followParent_frame (t : InodeId) (q : DirId) : ∃ edges inodeIncomingContains,
    g.followParent t q = { g with edges := edges, inodeIncomingContains := inodeIncomingContains } := by
  have hsame : ∃ edges inodeIncomingContains,
      g = { g with edges := edges, inodeIncomingContains := inodeIncomingContains } :=
    ⟨g.edges, g.inodeIncomingContains, rfl⟩
  unfold TypeGraph.followParent TypeGraph.retargetDotdot
  split
  · split
    · split
      · split
        · exact hsame
        · exact ⟨_, _, rfl⟩
      · exact hsame
    · exact hsame
  · exact hsame

theorem moveEntry_frame (e : EdgeId) (p : DirId) (t : InodeId) (q : DirId) (n : String) :
    ∃ edges dirNameIdx dirContains inodeIncomingContains,
      g.moveEntry e p t q n =
        { g with
          edges := edges, dirNameIdx := dirNameIdx, dirContains := dirContains,
          inodeIncomingContains := inodeIncomingContains, nextEdge := g.nextEdge + 1 } := by
  obtain ⟨_, idx, hremoved⟩ := removeEdge_frame (g := g) e
  unfold TypeGraph.moveEntry TypeGraph.allocEdgeId
  dsimp only
  generalize hentered : TypeGraph.addContains _ _ _ _ _ = entered
  obtain ⟨edges, ii, hfollow⟩ := followParent_frame (g := entered) t q
  rw [hfollow, ← hentered, hremoved]
  exact ⟨edges, _, _, ii, rfl⟩

/-- What does not depend on the entry edges, their indexes and the log is kept by a rename when it is kept by the
    removal of its destination. -/
theorem rename_keeps_frame {P : TypeGraph → Prop} {now : Nat → Timestamp} {sd dd : DirId} {sn dn : String} (h : P g)
    (hrmdir : P (rmdir now dd dn g).2) (hunlink : P (unlink now dd dn g).2)
    (hframe : ∀ {g₁ : TypeGraph} edges dirNameIdx dirContains inodeIncomingContains nextEdge provLog, P g₁ →
      P { g₁ with
          edges := edges, dirNameIdx := dirNameIdx, dirContains := dirContains,
          inodeIncomingContains := inodeIncomingContains, nextEdge := nextEdge, provLog := provLog }) :
    P (rename now sd sn dd dn g).2 := by
  refine rename_keeps h (removeDestination_keeps now dd dn _ h hrmdir hunlink) ?_ ?_
    fun _ h₁ => hframe _ _ _ _ _ _ h₁
  · intro g₁ e _ h₁
    obtain ⟨edges, idx, hrenamed⟩ := renameContainsEdge_frame (g := g₁) e dn
    rw [hrenamed]
    exact hframe edges idx _ _ _ _ h₁
  · intro g₁ e t _ h₁
    obtain ⟨edges, idx, sets, incoming, hmoved⟩ := moveEntry_frame (g := g₁) e sd t dd dn
    rw [hmoved]
    exact hframe edges idx sets incoming _ _ h₁

theorem dropXattr_frame (t : InodeId) (a : XAttrId) : ∃ edges dirNameIdx,
    g.dropXattr t a =
      { g with
        xattrs := g.xattrs.erase a, inodeXattrs := SetIndex.drop g.inodeXattrs t a,
        edges := edges, dirNameIdx := dirNameIdx } := by
  unfold TypeGraph.dropXattr
  dsimp only
  split
  · rename_i e _
    obtain ⟨edges, idx, hremoved⟩ := removeEdge_frame e (g :=
      { g with xattrs := g.xattrs.erase a, inodeXattrs := SetIndex.drop g.inodeXattrs t a })
    exact ⟨edges, idx, hremoved⟩
  · exact ⟨g.edges, g.dirNameIdx, rfl⟩

theorem foldl_purgeGrant_frame (es : List EdgeId) :
    ∀ (g : TypeGraph) (dropped : List CapId), ∃ edges dirNameIdx capGrants,
      (es.foldl TypeGraph.purgeGrant (dropped, g)).2 =
        { g with edges := edges, dirNameIdx := dirNameIdx, capGrants := capGrants } := by
  induction es with
  | nil =>
      intro g dropped
      exact ⟨g.edges, g.dirNameIdx, g.capGrants, rfl⟩
  | cons e es ih =>
      intro g dropped
      rw [List.foldl_cons]
      have hstep : ∃ dropped' edges dirNameIdx capGrants, TypeGraph.purgeGrant (dropped, g) e =
          (dropped', { g with edges := edges, dirNameIdx := dirNameIdx, capGrants := capGrants }) := by
        obtain ⟨edges, idx, hremoved⟩ := removeEdge_frame (g := g) e
        unfold TypeGraph.purgeGrant
        split
        · rename_i heq
          rw [heq] at hremoved
          dsimp only at hremoved
          subst hremoved
          exact ⟨_, edges, idx, _, rfl⟩
        · rename_i heq
          rw [heq] at hremoved
          dsimp only at hremoved
          subst hremoved
          exact ⟨_, edges, idx, g.capGrants, rfl⟩
      obtain ⟨dropped', edges, idx, grants, hstep⟩ := hstep
      rw [hstep]
      exact ih _ _

theorem foldl_removeCap_frame (cs : List CapId) :
    ∀ {g : TypeGraph}, ∃ caps, cs.foldl TypeGraph.removeCap g = { g with caps := caps } := by
  induction cs with
  | nil =>
      intro g
      exact ⟨g.caps, rfl⟩
  | cons c cs ih =>
      intro g
      exact ih (g := g.removeCap c)

theorem dropGrants_frame (t : InodeId) : ∃ edges dirNameIdx capGrants caps,
    g.dropGrants t =
      { g with edges := edges, dirNameIdx := dirNameIdx, capGrants := capGrants, caps := caps } := by
  obtain ⟨edges, idx, grants, hpurged⟩ := foldl_purgeGrant_frame (g.grantsInto t) g []
  unfold TypeGraph.dropGrants
  dsimp only
  rw [hpurged]
  obtain ⟨caps, hremoved⟩ := foldl_removeCap_frame ((g.grantsInto t).foldl TypeGraph.purgeGrant ([], g)).1
    (g := { g with edges := edges, dirNameIdx := idx, capGrants := grants })
  exact ⟨edges, idx, grants, caps, hremoved⟩

theorem foldl_grantEntry_frame (t : InodeId) (mask : Option Rights) (entries : List AclEntry) :
    ∀ {g : TypeGraph}, ∃ edges caps capGrants nextCap nextEdge,
      entries.foldl (TypeGraph.grantEntry t mask) g =
        { g with edges := edges, caps := caps, capGrants := capGrants,
                 nextCap := nextCap, nextEdge := nextEdge } := by
  induction entries with
  | nil =>
      intro g
      exact ⟨g.edges, g.caps, g.capGrants, g.nextCap, g.nextEdge, rfl⟩
  | cons entry entries ih =>
      intro g
      rw [List.foldl_cons, grantEntry_eq]
      split
      · exact ih
      · exact ih (g := g.attachGrant t (effectiveRights mask entry))

/-- What a successful setacl leaves: the grants of the inode are made anew and its ACL is filed. -/
theorem replaceGrants_frame (t : InodeId) (entries : List AclEntry) :
    ∃ edges dirNameIdx capGrants caps nextCap nextEdge,
      entries.foldl (TypeGraph.grantEntry t (aclMask entries))
          { g.dropGrants t with acls := (g.dropGrants t).acls.insert t entries } =
        { g with
          edges := edges, dirNameIdx := dirNameIdx, capGrants := capGrants, caps := caps, nextCap := nextCap,
          nextEdge := nextEdge, acls := g.acls.insert t entries } := by
  obtain ⟨_, idx, _, _, hdropped⟩ := dropGrants_frame (g := g) t
  obtain ⟨edges, caps, grants, nextCap, nextEdge, hgranted⟩ := foldl_grantEntry_frame t (aclMask entries) entries
    (g := { g.dropGrants t with acls := (g.dropGrants t).acls.insert t entries })
  rw [hgranted, hdropped]
  exact ⟨edges, idx, grants, caps, nextCap, nextEdge, rfl⟩

end Writes

/-! ### Quota walks -/

/-- A quota walk changes no terms. -/
theorem updateQuotaFrom_terms {g : TypeGraph} {deltaInodes : Int} {fuel : Nat} :
    ∀ {quotas quotas' : ExtTreeMap DirId Quota} {d : Option DirId},
      g.updateQuotaFrom deltaInodes 0 fuel quotas d = some quotas' →
        ∀ x : DirId, quotas'[x]?.map Quota.terms = quotas[x]?.map Quota.terms := by
  induction fuel with
  | zero =>
      intro quotas quotas' d heq x
      cases d with
      | none =>
          cases heq
          rfl
      | some d => cases heq
  | succ fuel ih =>
      intro quotas quotas' d heq x
      cases d with
      | none =>
          cases heq
          rfl
      | some d =>
          have hcharged : (quotas.modify d fun q => q.update deltaInodes 0)[x]?.map Quota.terms =
              quotas[x]?.map Quota.terms := by
            rw [ExtTreeMap.getElem?_modify]
            split
            · rename_i hcmp
              rw [Std.compare_eq_iff_eq.mp hcmp, Option.map_map]
              rfl
            · rfl
          unfold TypeGraph.updateQuotaFrom at heq
          dsimp only at heq
          split at heq
          · cases heq
            exact hcharged
          · exact (ih heq x).trans hcharged

theorem updateQuota_holdings {g g' : TypeGraph} {d : DirId} {deltaInodes : Int}
    (heq : g.updateQuota d deltaInodes 0 = some g') : g'.holdings = g.holdings := by
  obtain ⟨quotas, hq, rfl⟩ := Option.map_eq_some_iff.mp heq
  have hterms : (fun x : DirId => quotas[x]?.map Quota.terms) = fun x => g.quotas[x]?.map Quota.terms :=
    funext (updateQuotaFrom_terms hq)
  unfold TypeGraph.holdings
  dsimp only
  rw [hterms]

theorem settle_holdings {α : Type} {g : TypeGraph} {d : DirId} {delta : Int} {now : Timestamp} {op : ProvOp}
    {t : InodeId} {detail : String} {value : α} :
    (g.settle d delta now op t detail value).2.holdings = g.holdings := by
  unfold TypeGraph.settle
  split
  · rfl
  · rename_i g' heq
    change g'.holdings = g.holdings
    exact updateQuota_holdings heq

/-! ### The calls -/

/-- The calls that make, take and move names, but for symlink. -/
def Op.OnNames : Op → Prop
  | .createFile .. | .mkdir .. | .rmdir .. | .link .. | .unlink .. | .rename .. => True
  | _ => False

section Calls

variable {now : Nat → Timestamp} {g : TypeGraph}

theorem unlink_holdings {d : DirId} {n : String} : (unlink now d n g).2.holdings = g.holdings := by
  rcases unlink_cases now d n g with
    ⟨o, _, heq⟩ | ⟨_, _, _, e, t, m, inode, _, _, _, ⟨_, heq⟩ | ⟨_, heq⟩⟩
  · rw [heq]
  · obtain ⟨_, _, _, _, hdropped⟩ := dropName_frame (g := g) e d t
    rw [heq, hdropped]
    rfl
  · obtain ⟨_, _, _, _, _, hdropped⟩ := dropLastName_frame (g := g) e d t
    rw [heq, settle_holdings, hdropped]
    rfl

theorem rmdir_holdings {d : DirId} {n : String} : (rmdir now d n g).2.holdings = g.holdings := by
  rcases rmdir_cases now d n g with
    ⟨o, _, heq⟩ | ⟨_, _, ti, td, inode, _, _, _, _, _, heq⟩
  · rw [heq]
  · obtain ⟨_, _, _, _, _, _, hdropped⟩ := dropDir_frame (g := g) d n ti td
    rw [heq, settle_holdings, hdropped]
    rfl

/-- A call on names leaves the rest as it is, whatever its outcome. -/
theorem Op.holdings_eq (op : Op) (hop : op.OnNames) : (op.apply now g).2.holdings = g.holdings := by
  cases op with
  | createFile d n u gr p =>
      rw [Op.apply, Prod.map_snd]
      rcases createFile_cases now d n u gr p g with
        ⟨o, _, heq⟩ | ⟨_, _, _, _, _, heq⟩
      · rw [heq]
        rfl
      · rw [heq]
        exact settle_holdings
  | mkdir d n u gr p =>
      rw [Op.apply, Prod.map_snd]
      rcases mkdir_cases now d n u gr p g with
        ⟨o, _, heq⟩ | ⟨_, _, _, _, parent, _, heq⟩
      · rw [heq]
        rfl
      · rw [heq]
        exact settle_holdings
  | rmdir d n =>
      rw [Op.apply, Prod.map_snd]
      exact rmdir_holdings
  | link d n t =>
      rw [Op.apply, Prod.map_snd]
      rcases link_cases now d n t g with
        ⟨o, _, heq⟩ | ⟨_, _, _, i, _, _, _, heq⟩
      · rw [heq]
        rfl
      · rw [heq]
        rfl
  | unlink d n =>
      rw [Op.apply, Prod.map_snd]
      exact unlink_holdings
  | rename sd sn dd dn =>
      rw [Op.apply, Prod.map_snd]
      exact rename_keeps_frame (P := fun g' => g'.holdings = g.holdings) rfl rmdir_holdings unlink_holdings
        fun _ _ _ _ _ _ h => h
  | symlink | writeBlock | writeData | truncate | chmod | chown | setxattr | removexattr | setacl
  | setQuota => exact absurd hop id

/-- symlink fails or adds its target under the next inode id. -/
theorem symlink_holdings (now : Nat → Timestamp) (d : DirId) (n target : String) (u gr : UInt32)
    (g : TypeGraph) :
    (symlink now d n target u gr g).2.holdings = g.holdings ∨
    ((symlink now d n target u gr g).2.holdings =
        { g.holdings with symlinkTargets := g.symlinkTargets.insert g.nextInode ⟨target⟩ } ∧
      g.nextInode < (symlink now d n target u gr g).2.nextInode) := by
  rcases symlink_cases now d n target u gr g with
    ⟨o, _, heq⟩ | ⟨_, _, _, _, _, heq⟩
  · rw [heq]
    exact .inl rfl
  · rw [heq]
    refine .inr ⟨settle_holdings.trans rfl, ?_⟩
    obtain ⟨q, l, hsnd⟩ := settle_snd (g.enterSymlink (symlinkInode now g target u gr) d n target) d 1 (now 1)
      .symlink g.nextInode n g.nextInode
    rw [hsnd]
    exact Nat.lt_succ_self _

/-- What a call keeps of all this, beside the part it is about. -/
structure Holdings.KeptBy (op : Op) (held held' : Holdings) : Prop where
  fileData : (∀ t o b, op ≠ .writeData t o b) → (∀ t n, op ≠ .truncate t n) → held'.fileData = held.fileData
  symlinkTargets : (∀ d n t u gr, op ≠ .symlink d n t u gr) → held'.symlinkTargets = held.symlinkTargets
  xattrs : (∀ t ns n v, op ≠ .setxattr t ns n v) → (∀ t ns n, op ≠ .removexattr t ns n) →
    held'.xattrs = held.xattrs ∧ held'.inodeXattrs = held.inodeXattrs ∧ held'.nextXattr = held.nextXattr
  grants : (∀ t es, op ≠ .setacl t es) → held'.acls = held.acls ∧ held'.caps = held.caps ∧
    held'.nextCap = held.nextCap ∧ held'.capGrants = held.capGrants
  delegation : held'.capParent = held.capParent ∧ held'.capChildren = held.capChildren
  capCtx : held'.capCtx = held.capCtx
  quotaTerms : ∀ d, (∀ il bl, op ≠ .setQuota d il bl) → held'.quotaTerms d = held.quotaTerms d

theorem Holdings.KeptBy.of_eq {op : Op} {held held' : Holdings} (h : held' = held) : held.KeptBy op held' := by
  subst h
  exact ⟨fun _ _ => rfl, fun _ => rfl, fun _ _ => ⟨rfl, rfl, rfl⟩, fun _ => ⟨rfl, rfl, rfl, rfl⟩,
    ⟨rfl, rfl⟩, rfl, fun _ _ => rfl⟩

/-- Whatever the graph and the outcome. -/
theorem Op.holdings_kept (op : Op) (now : Nat → Timestamp) (g : TypeGraph) : g.holdings.KeptBy op (op.apply now g).2.holdings := by
  cases op with
  | createFile | mkdir | rmdir | link | unlink | rename => exact .of_eq (Op.holdings_eq _ trivial)
  | symlink p n t u gr =>
      rw [Op.apply, Prod.map_snd]
      rcases symlink_holdings now p n t u gr g with
        heq | ⟨heq, _⟩
      · exact .of_eq heq
      · rw [id_eq, heq]
        exact ⟨fun _ _ => rfl, fun hno => absurd rfl (hno p n t u gr), fun _ _ => ⟨rfl, rfl, rfl⟩,
          fun _ => ⟨rfl, rfl, rfl, rfl⟩, ⟨rfl, rfl⟩, rfl, fun _ _ => rfl⟩
  | writeBlock t o s c =>
      rcases writeBlock_cases t o s c g with
        ⟨o', _, heq⟩ | ⟨_, _, heq⟩
      · rw [Op.apply, heq]
        exact .of_eq rfl
      · rw [Op.apply, heq]
        exact .of_eq rfl
  | writeData t o b =>
      have hstored : ∀ {g' : TypeGraph} {buf}, g'.holdings =
          { g.holdings with fileData := g.fileData.insert t buf } →
            g.holdings.KeptBy (.writeData t o b) g'.holdings := by
        intro g' buf heq
        rw [heq]
        exact ⟨fun hno => absurd rfl (hno t o b), fun _ => rfl, fun _ _ => ⟨rfl, rfl, rfl⟩,
          fun _ => ⟨rfl, rfl, rfl, rfl⟩, ⟨rfl, rfl⟩, rfl, fun _ _ => rfl⟩
      rcases writeData_cases now t o b g with
        ⟨e, heq⟩ | ⟨_, _, _, ⟨buf, heq⟩ | ⟨buf, heq⟩⟩
      · rw [Op.apply, heq]
        exact .of_eq rfl
      · rw [Op.apply, heq]
        exact hstored rfl
      · rw [Op.apply, heq]
        exact hstored rfl
  | truncate t n =>
      have hstored : ∀ {g' : TypeGraph} {buf}, g'.holdings =
          { g.holdings with fileData := g.fileData.insert t buf } →
            g.holdings.KeptBy (.truncate t n) g'.holdings := by
        intro g' buf heq
        rw [heq]
        exact ⟨fun _ hno => absurd rfl (hno t n), fun _ => rfl, fun _ _ => ⟨rfl, rfl, rfl⟩,
          fun _ => ⟨rfl, rfl, rfl, rfl⟩, ⟨rfl, rfl⟩, rfl, fun _ _ => rfl⟩
      rcases truncate_cases now t n g with
        ⟨e, heq⟩ | ⟨_, _, _, ⟨buf, heq⟩ | heq⟩
      · rw [Op.apply, heq]
        exact .of_eq rfl
      · rw [Op.apply, heq]
        exact hstored rfl
      · rw [Op.apply, heq]
        exact hstored rfl
  | chmod t m =>
      rcases chmod_cases now t m g with ⟨o, _, heq⟩ | ⟨_, heq⟩
      · rw [Op.apply, heq]
        exact .of_eq rfl
      · rw [Op.apply, heq]
        exact .of_eq rfl
  | chown t u gr =>
      rcases chown_cases now t u gr g with ⟨o, _, heq⟩ | ⟨_, heq⟩
      · rw [Op.apply, heq]
        exact .of_eq rfl
      · rw [Op.apply, heq]
        exact .of_eq rfl
  | setxattr t ns n v =>
      have hset : ∀ {g' : TypeGraph} {xattrs inodeXattrs nextXattr}, g'.holdings =
          { g.holdings with xattrs := xattrs, inodeXattrs := inodeXattrs, nextXattr := nextXattr } →
            g.holdings.KeptBy (.setxattr t ns n v) g'.holdings := by
        intro g' _ _ _ heq
        rw [heq]
        exact ⟨fun _ _ => rfl, fun _ => rfl, fun hno => absurd rfl (hno t ns n v),
          fun _ => ⟨rfl, rfl, rfl, rfl⟩, ⟨rfl, rfl⟩, rfl, fun _ _ => rfl⟩
      rcases setxattr_cases now t ns n v g with
        ⟨o, _, heq⟩ | ⟨_, _, _, ⟨a, _, heq⟩ | ⟨_, heq⟩⟩
      · rw [Op.apply, heq]
        exact .of_eq rfl
      · rw [Op.apply, heq]
        exact hset rfl
      · rw [Op.apply, heq]
        exact hset rfl
  | removexattr t ns n =>
      rcases removexattr_cases now t ns n g with
        ⟨o, _, heq⟩ | ⟨_, _, a, _, heq⟩
      · rw [Op.apply, heq]
        exact .of_eq rfl
      · obtain ⟨_, _, hdropped⟩ := dropXattr_frame (g := g) t a
        rw [Op.apply, heq, hdropped]
        exact ⟨fun _ _ => rfl, fun _ => rfl, fun _ hno => absurd rfl (hno t ns n),
          fun _ => ⟨rfl, rfl, rfl, rfl⟩, ⟨rfl, rfl⟩, rfl, fun _ _ => rfl⟩
  | setacl t es =>
      rcases setacl_cases now t es g with ⟨o, _, heq⟩ | ⟨_, _, heq⟩
      · rw [Op.apply, heq]
        exact .of_eq rfl
      · obtain ⟨_, _, _, _, _, _, hgranted⟩ := replaceGrants_frame (g := g) t es
        rw [Op.apply, heq, hgranted]
        exact ⟨fun _ _ => rfl, fun _ => rfl, fun _ _ => ⟨rfl, rfl, rfl⟩,
          fun hno => absurd rfl (hno t es), ⟨rfl, rfl⟩, rfl, fun _ _ => rfl⟩
  | setQuota d il bl =>
      rcases setQuota_cases d il bl g with ⟨o, _, heq⟩ | ⟨_, _, heq⟩
      · rw [Op.apply, heq]
        exact .of_eq rfl
      · rw [Op.apply, heq]
        refine ⟨fun _ _ => rfl, fun _ => rfl, fun _ _ => ⟨rfl, rfl, rfl⟩, fun _ => ⟨rfl, rfl, rfl, rfl⟩,
          ⟨rfl, rfl⟩, rfl, fun x hno => ?_⟩
        have hne : d ≠ x := by
          rintro rfl
          exact hno il bl rfl
        change (g.quotas.insert d _)[x]?.map _ = g.quotas[x]?.map _
        rw [ExtTreeMap.getElem?_insert, if_neg (mt Std.compare_eq_iff_eq.mp hne)]

/-- Only write_data and truncate change content. -/
theorem Op.fileData_eq {op : Op} (hwrite : ∀ t o b, op ≠ .writeData t o b)
    (htrunc : ∀ t s, op ≠ .truncate t s) : (op.apply now g).2.fileData = g.fileData :=
  (op.holdings_kept _ _).fileData hwrite htrunc

end Calls

end SotFs
