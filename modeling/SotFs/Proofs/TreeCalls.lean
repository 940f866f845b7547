/-
Module: SotFs.Proofs.TreeCalls
Layer: Proofs
Purpose: The operations as a mount calls them: by nobody's capability and without quotas. For each of them the
  exact condition on the tree under which it succeeds, the tree that it leaves then, and the error it returns
  otherwise, as far as the handlers tell errors apart.
Trusted boundary: none
Main exports: MountCall, TypeGraph.Presentable.apply, createFile_tree, mkdir_tree, symlink_tree, link_tree,
  unlink_tree, rmdir_tree, rename_tree
-/
import SotFs.Proofs.TreeViews
import SotFs.Proofs.Room
import SotFs.Proofs.CycleSearch

namespace SotFs

open Std (ExtTreeMap ExtTreeSet)
open Relation Foundation

/-- A call that a mount makes: in capacity, of an inode under its own number, and no change of quotas. -/
def MountCall (g : TypeGraph) (op : Op) (g' : TypeGraph) : Prop :=
  InCapacityCall g op g' ∧ ¬ op.LinksAlias g ∧ ∀ d il bl, op ≠ .setQuota d il bl

namespace TypeGraph.Presentable

variable {g : TypeGraph} {now : Nat → Timestamp} {op : Op}

theorem new (now : Timestamp) : (TypeGraph.new now).Presentable where
  inv := Reachable.inv (.new now)
  own := ownTargets_new now
  below := below_new now
  keys := .empty
  unlimited := rfl

/-- Context and log are not shown. -/
theorem withSides (h : g.Presentable) (provLog : Option ProvenanceLog) (capCtx : CapContext) :
    { g with provLog := provLog, capCtx := capCtx }.Presentable where
  inv := h.inv.withSides _ _ _ _ _ _
  own := h.own
  below := ⟨h.below.fileData, h.below.symlinkTargets, h.below.acls, h.below.inodeXattrs, h.below.edges⟩
  keys := h.keys
  unlimited := h.unlimited

/-- Every call of a mount leaves a graph that shows a tree. -/
theorem apply (h : g.Presentable) (hcall : MountCall g op (op.apply now g).2) : (op.apply now g).2.Presentable := by
  obtain ⟨hcapacity, halias, hquota⟩ := hcall
  have hedits := op.edits now (fun g t => ∀ i, g.getInode t = some i → i.id = t) (fun _ _ => True) h.inv
    hcapacity.1 (hcapacity.2.fits h.inv) (Op.own_of_not_linksAlias halias) fun _ _ => trivial
  obtain ⟨hkeys, _, _⟩ := op.attributes_step now h.inv.xattrIdsBelow.fresh h.keys
  refine
    { inv := op.apply_inv now h.inv hcapacity.1 hcapacity.2
      own := (hedits.keep (P := TypeGraph.OwnTargets) (fun h hown hedit => hedit.ownTargets h hown) h.inv h.own).2
      below := op.below h.inv h.below hcapacity
      keys := hkeys
      unlimited := ?_ }
  refine ExtTreeMap.ext_getElem? fun d => ?_
  have hterms : (op.apply now g).2.quotas[d]?.map Quota.terms = g.quotas[d]?.map Quota.terms :=
    (op.holdings_kept now g).quotaTerms d fun il bl => hquota d il bl
  rw [h.unlimited, ExtTreeMap.getElem?_empty] at hterms
  rw [ExtTreeMap.getElem?_empty]
  exact Option.map_eq_none_iff.mp hterms

end TypeGraph.Presentable

section Calls

variable {g : TypeGraph} {now : Nat → Timestamp} {d : DirId} {n : String} {pi i : InodeId} {u gr : UInt32}
  {p : Permissions}

/-- Without quotas every check of one passes. -/
theorem TypeGraph.Presentable.checkQuotaInode (h : g.Presentable) (hd : g.dirInode d = some pi) :
    g.checkQuotaInode d = .ok () := by
  obtain ⟨path, hup⟩ := h.inv.exists_upPath hd
  rw [h.inv.checkQuotaInode_eq hd hup, h.unlimited]
  clear hup
  induction path with
  | nil => rfl
  | cons x xs ih =>
      rw [checkAlong, ExtTreeMap.getElem?_empty]
      exact ih

/-- An inode can be made under a name of the tree when the call finds it valid and free. -/
theorem TypeGraph.Presentable.canMake_iff (h : g.Presentable) (hctx : g.capCtx.capId = none)
    (hd : g.dirInode d = some pi) : g.fileTree.CanMake pi n ↔ g.CanEnter d n := by
  unfold FileTree.CanMake TypeGraph.CanEnter
  rw [h.inv.entry_eq hd]
  constructor
  · rintro ⟨hname, hfree⟩
    exact ⟨requireCap_anonymous hctx _, hname, hfree, h.checkQuotaInode hd⟩
  · rintro ⟨_, hname, hfree, _⟩
    exact ⟨hname, hfree⟩

/-- Quotas and log are not shown. -/
theorem fileTree_settled (quotas : ExtTreeMap DirId Quota) (provLog : Option ProvenanceLog) :
    { g with quotas := quotas, provLog := provLog }.fileTree = g.fileTree := rfl

/-- An operation that made an inode did not fail without a trace. -/
theorem settle_ne_failed {α : Type} {g₀ : TypeGraph} {delta : Int} {ts : Timestamp} {op : ProvOp} {t : InodeId}
    {detail : String} {value : α} {o : Outcome α} (hnext : g₀.nextInode < g.nextInode) (hfail : o.Failed) :
    g.settle d delta ts op t detail value ≠ (o, g₀) := by
  unfold TypeGraph.settle
  cases g.updateQuota d delta 0 with
  | none =>
      intro heq
      rw [congrArg (fun r => r.2.nextInode) heq] at hnext
      exact lt_irrefl _ hnext
  | some _ =>
      intro heq
      exact hfail value (congrArg Prod.fst heq).symm

/-- A call that makes an inode once its checks pass succeeds exactly when it can be made. -/
theorem TypeGraph.Presentable.made_or_refused (h : g.Presentable) (hctx : g.capCtx.capId = none)
    (hd : g.dirInode d = some pi) {α : Type} {r : Outcome α × TypeGraph} {g₁ : TypeGraph} {delta : Int}
    {ts : Timestamp} {op : ProvOp} {t : InodeId} {detail : String} {value : α}
    (hr : r = g.checked d n (g₁.settle d delta ts op t detail value)) (hnext : g.nextInode < g₁.nextInode) :
    (g.fileTree.CanMake pi n ∧ ∀ {o}, o.Failed → r ≠ (o, g)) ∨
      (¬ g.fileTree.CanMake pi n ∧ ∃ e, r = (.err e, g)) := by
  rw [h.canMake_iff hctx hd, hr]
  rcases h.inv.checked_cases (h.inv.liveDir_iff.mpr ⟨pi, hd⟩) n (g₁.settle d delta ts op t detail value) with
    ⟨hcan, heq⟩ | hno
  · rw [heq]
    exact .inl ⟨hcan, settle_ne_failed hnext⟩
  · exact .inr hno

/-- create_file makes a file if it can. -/
theorem createFile_tree (h : g.Presentable) (hctx : g.capCtx.capId = none) (hd : g.dirInode d = some pi)
    (hfits : (createFile now d n u gr p g).2.Fits) :
    (g.fileTree.CanMake pi n ∧ ∃ g', createFile now d n u gr p g = (.ok g.nextInode, g') ∧
      g'.fileTree = g.fileTree.make pi n (.made (createdInode now g u gr p) none)) ∨
    (¬ g.fileTree.CanMake pi n ∧ ∃ e, createFile now d n u gr p g = (.err e, g)) := by
  rcases h.made_or_refused hctx hd (n := n) createFile_eq_checked (Nat.lt_succ_self _) with
    ⟨hcan, hmade⟩ | hrefused
  · rcases createFile_spec h.inv (h.inv.liveDir_iff.mpr ⟨pi, hd⟩) hfits with
      ⟨o, hfail, heq⟩ | ⟨_, hfree, hi, he, hinv, q, l, heq⟩
    · exact absurd heq (hmade hfail)
    · have htarget : g.symlinkTargets[g.nextInode]? = none :=
        congrArg FileNode.target (h.fileNode_next (createdInode now g u gr p))
      have htree := h.tree_make hinv hd hfree rfl (h.inv.enterInode_entries _ d n he)
        (h.inv.enterInode_inodes _ d n hi) rfl (fun _ _ => rfl) fun _ _ => rfl
      refine .inl ⟨hcan, _, heq, htree.trans ?_⟩
      exact congrArg (fun target => g.fileTree.make pi n (.made (createdInode now g u gr p) target)) htarget
  · exact .inr hrefused

/-- symlink makes a link if it can; the error tells a name that is taken from one that is none. -/
theorem symlink_tree {target : String} (h : g.Presentable) (hctx : g.capCtx.capId = none)
    (hd : g.dirInode d = some pi) (hfits : (symlink now d n target u gr g).2.Fits) :
    (g.fileTree.CanMake pi n ∧ ∃ g', symlink now d n target u gr g = (.ok g.nextInode, g') ∧
      g'.fileTree = g.fileTree.make pi n (.made (symlinkInode now g target u gr) (some ⟨target⟩))) ∨
    (invalidName n = true ∧ symlink now d n target u gr g = (.err (.nameNotFound n), g)) ∨
    (invalidName n = false ∧ g.fileTree.entry (pi, n) ≠ none ∧
      symlink now d n target u gr g = (.err (.nameExists d n), g)) := by
  rcases h.made_or_refused hctx hd (n := n) symlink_eq_checked (Nat.lt_succ_self _) with
    ⟨hcan, hmade⟩ | ⟨hno, _⟩
  · rcases symlink_spec h.inv (h.inv.liveDir_iff.mpr ⟨pi, hd⟩) hfits with
      ⟨o, hfail, heq⟩ | ⟨_, hfree, hi, he, hinv, q, l, heq⟩
    · exact absurd heq (hmade hfail)
    · have hget : ∀ j, (g.enterSymlink (symlinkInode now g target u gr) d n target).symlinkTargets[j]? =
          if g.nextInode = j then some ⟨target⟩ else g.symlinkTargets[j]? := by
        intro j
        change (g.symlinkTargets.insert g.nextInode ⟨target⟩)[j]? = _
        simp [ExtTreeMap.getElem?_insert]
      have htree := h.tree_make hinv hd hfree rfl (h.inv.enterInode_entries _ d n he)
        (h.inv.enterInode_inodes _ d n hi) rfl (fun _ _ => rfl)
        fun j hj => (hget j).trans (if_neg fun heq => hj heq.symm)
      rw [hget, if_pos rfl] at htree
      exact .inl ⟨hcan, _, heq, htree⟩
  · right
    rw [symlink, requireCap_anonymous hctx]
    dsimp only
    cases hname : invalidName n with
    | true => exact .inl ⟨rfl, if_pos rfl⟩
    | false =>
        have htaken : g.fileTree.entry (pi, n) ≠ none := fun hfree => hno ⟨hname, hfree⟩
        rw [h.inv.entry_eq hd] at htaken
        rw [h.inv.entry_eq hd, if_neg Bool.false_ne_true, if_pos (Option.isSome_iff_ne_none.mpr htaken)]
        exact .inr ⟨rfl, htaken, rfl⟩

/-- mkdir makes a directory if it can. -/
theorem mkdir_tree (h : g.Presentable) (hctx : g.capCtx.capId = none) (hd : g.dirInode d = some pi)
    (hfits : (mkdir now d n u gr p g).2.Fits) :
    (g.fileTree.CanMake pi n ∧ ∃ g', mkdir now d n u gr p g = (.ok ⟨g.nextInode, some g.nextDir⟩, g') ∧
      g'.fileTree = g.fileTree.makeDir pi n (.made (madeDirInode now g u gr p) none)) ∨
    (¬ g.fileTree.CanMake pi n ∧ ∃ e, mkdir now d n u gr p g = (.err e, g)) := by
  rcases h.made_or_refused hctx hd (n := n) (h.inv.mkdir_eq_checked hd) (Nat.lt_succ_self _) with
    ⟨hcan, hmade⟩ | hrefused
  · rcases mkdir_spec h.inv (h.inv.liveDir_iff.mpr ⟨pi, hd⟩) hfits with
      ⟨o, hfail, heq⟩ | ⟨_, hfree, hi, hdir, he, di, hdi, hinv, q, l, heq⟩
    · exact absurd heq (hmade hfail)
    · rw [hd] at hdi
      cases hdi
      have htree := h.tree_makeDir hinv hd hfree hi hdir he
      exact .inl ⟨hcan, _, heq, (fileTree_settled q l).trans htree⟩
  · exact .inr hrefused

/-- link adds a name to a file that can have one more. -/
theorem link_tree (h : g.Presentable) (hctx : g.capCtx.capId = none) (hd : g.dirInode d = some pi)
    (hfits : (link now d n i g).2.Fits) (hslot : idToArena i = i) (hn : UserName n)
    (hfree : g.fileTree.entry (pi, n) = none) {inode : Inode} (hi : g.inodes.data i = some inode)
    (hkind : inode.vtype ≠ .directory) (hmax : inode.linkCount < LINK_MAX) :
    ∃ g', link now d n i g = (.ok (), g') ∧ g'.fileTree = g.fileTree.addName pi n i (g.fileNode i inode) := by
  have hget : g.getInode i = some inode := by rw [TypeGraph.getInode, Arena.get_eq_data, hslot, hi]
  rw [h.inv.entry_eq hd] at hfree
  have hcan : g.CanLink d n i := ⟨requireCap_anonymous hctx _, hn, hfree, inode, hget, hkind, hmax⟩
  rcases link_checked now d n i g with ⟨_, hok⟩ | ⟨hno, _⟩
  · rcases link_spec h.inv (h.inv.liveDir_iff.mpr ⟨pi, hd⟩) hfits with
      ⟨o, hfail, heq⟩ | ⟨_, hfree', he, _, _, _, hinv, l, heq⟩
    · rw [heq] at hok
      exact absurd hok (hfail ())
    · have htree := h.tree_addName hinv hd hfree' he hslot hi
      exact ⟨_, heq, (fileTree_settled _ l).trans htree⟩
  · exact absurd hcan hno

/-! ### Removals -/

theorem unlink_nextInode : (unlink now d n g).2.nextInode = g.nextInode := by
  rcases unlink_cases now d n g with
    ⟨o, _, heq⟩ | ⟨_, _, _, e, t, m, inode, _, _, _, ⟨_, heq⟩ | ⟨_, heq⟩⟩
  · rw [heq]
  · obtain ⟨_, _, _, _, hdropped⟩ := dropName_frame (g := g) e d t
    rw [heq, hdropped]
    rfl
  · obtain ⟨_, _, hsettled⟩ := settle_snd (g.dropLastName e d t) d (-1) (now 0) .unlink t n ()
    obtain ⟨_, _, _, _, _, hdropped⟩ := dropLastName_frame (g := g) e d t
    rw [heq, hsettled, hdropped]

theorem rmdir_nextInode : (rmdir now d n g).2.nextInode = g.nextInode := by
  rcases rmdir_cases now d n g with
    ⟨o, _, heq⟩ | ⟨_, _, ti, td, inode, _, _, _, _, _, heq⟩
  · rw [heq]
  · obtain ⟨_, _, hsettled⟩ := settle_snd (g.dropDir d n ti td) d (-1) (now 0) .rmdir ti n ()
    obtain ⟨_, _, _, _, _, _, hdropped⟩ := dropDir_frame (g := g) d n ti td
    rw [heq, hsettled, hdropped]

/-- unlink clears the name of a file. -/
theorem unlink_tree (now : Nat → Timestamp) (h : g.Presentable) (hctx : g.capCtx.capId = none)
    (hd : g.dirInode d = some pi) (hn : UserName n) (hi : g.fileTree.entry (pi, n) = some i)
    (hfile : ¬ g.fileTree.IsDir i) :
    ∃ g', unlink now d n g = (.ok (), g') ∧ g'.fileTree = g.fileTree.clear pi n := by
  rw [h.inv.entry_eq hd] at hi
  obtain ⟨e, he⟩ := h.inv.resolveName_iff.mp hi
  obtain ⟨inode, hdata, hget⟩ := h.target_live he
  have hkind : inode.vtype ≠ .directory := fun hkind => hfile ⟨_, node_eq hdata, hkind⟩
  have hok : (unlink now d n g).1 = .ok () := h.inv.unlink_ok (requireCap_anonymous hctx _) hn hi hget hkind
  have heq : unlink now d n g = (.ok (), (unlink now d n g).2) := Prod.ext hok rfl
  exact ⟨_, heq, h.tree_clear (unlink_cleared h.inv heq).inv hd (unlink_clears h.inv heq) unlink_holdings
    unlink_nextInode⟩

/-- rmdir clears the name of an empty directory. -/
theorem rmdir_tree (now : Nat → Timestamp) (h : g.Presentable) (hctx : g.capCtx.capId = none)
    (hd : g.dirInode d = some pi) (hn : UserName n) (hi : g.fileTree.entry (pi, n) = some i)
    (hdir : g.fileTree.IsDir i) (hempty : g.fileTree.IsEmpty i) :
    ∃ g', rmdir now d n g = (.ok (), g') ∧ g'.fileTree = g.fileTree.clear pi n := by
  rw [h.inv.entry_eq hd] at hi
  obtain ⟨e, he⟩ := h.inv.resolveName_iff.mp hi
  obtain ⟨inode, hdata, hget⟩ := h.target_live he
  obtain ⟨td, htd⟩ := h.inv.isDir_iff.mp hdir
  obtain ⟨v, hv, hkind⟩ := hdir
  rw [node_eq hdata] at hv
  cases hv
  have hok : (rmdir now d n g).1 = .ok () := h.inv.rmdir_ok (requireCap_anonymous hctx _) hn hi hget hkind
    (h.inv.dirForInode_iff.mpr htd) ((h.inv.isEmpty_iff htd).mp hempty)
  have heq : rmdir now d n g = (.ok (), (rmdir now d n g).2) := Prod.ext hok rfl
  exact ⟨_, heq, h.tree_clear (rmdir_cleared h.inv heq).inv hd (rmdir_clears h.inv heq) rmdir_holdings
    rmdir_nextInode⟩

/-! ### Renames -/

variable {sd dd : DirId} {sn dn : String} {si di : InodeId}

/-- Making room for a rename clears its destination. -/
theorem removeDestination_tree (h : g.Presentable) (hd : g.dirInode dd = some di) {g₁ : TypeGraph}
    (hremove : g.removeDestination now dd dn (g.resolveName dd dn) = (.ok (), g₁)) (hinv : Inv g₁) :
    g₁.fileTree = g.fileTree.clear di dn ∧ g₁.holdings = g.holdings ∧ g₁.nextInode = g.nextInode := by
  have hkept : (g.removeDestination now dd dn (g.resolveName dd dn)).2.holdings = g.holdings :=
    removeDestination_keeps _ _ _ _ (P := fun g' => g'.holdings = g.holdings) rfl rmdir_holdings unlink_holdings
  have hnext : (g.removeDestination now dd dn (g.resolveName dd dn)).2.nextInode = g.nextInode :=
    removeDestination_keeps _ _ _ _ (P := fun g' => g'.nextInode = g.nextInode) rfl rmdir_nextInode unlink_nextInode
  rw [hremove] at hkept hnext
  exact ⟨h.tree_clear hinv hd (removeDestination_clears h.inv hremove) hkept hnext, hkept, hnext⟩

/-- A rename that edits the graph clears the destination and moves the name in the tree. -/
theorem Renamed.tree (h : g.Presentable) (hs : g.dirInode sd = some si) (hd : g.dirInode dd = some di)
    (hsn : UserName sn) (hdn : UserName dn) (hne : (sd, sn) ≠ (dd, dn)) (hi : g.resolveName sd sn = some i)
    {g' : TypeGraph} (hinv : Inv g') (hnext : g'.nextEdge ≤ EDGE_CAPACITY)
    (hren : Renamed now g sd sn dd dn g') :
    g'.fileTree = (g.fileTree.clear di dn).move si sn di dn i := by
  have hkeep : ∀ {g₁ e}, Cleared g g₁ dd dn → g.entries e = some (sd, i, sn) →
      g₁.entries e = some (sd, i, sn) ∧ g₁.dirInode sd = some si ∧ g₁.dirInode dd = some di := by
    intro g₁ e hcleared he
    have he₁ := hcleared.keep hsn hne he
    obtain ⟨xi, hxi⟩ := hcleared.inv.shape.src_live he₁
    have hsd : g.dirInode sd = some xi := hcleared.dirs hxi
    rw [hs] at hsd
    cases hsd
    exact ⟨he₁, hxi, hcleared.keepDir hd⟩
  have hsame : ∀ {e t}, g.entries e = some (sd, t, sn) → t = i := by
    intro e t he
    rw [h.inv.resolveName_iff.mpr ⟨e, he⟩] at hi
    exact Option.some.inj hi
  cases hren with
  | same hdir hname => exact absurd (by rw [hdir, hname]) hne
  | @inPlace e t g₁ hdir hname he hremove hcleared =>
      subst hdir
      cases hsame he
      rw [hs] at hd
      cases hd
      obtain ⟨htree, _, _⟩ := removeDestination_tree h hs hremove hcleared.inv
      obtain ⟨he₁, hs₁, hd₁⟩ := hkeep hcleared he
      obtain ⟨_, _, hframe⟩ := renameContainsEdge_frame (g := g₁) e dn
      rw [← htree]
      refine tree_move hcleared.inv hinv hs₁ hd₁ hsn hdn he₁
        (hcleared.inv.renameEntry_carried hinv he₁ hsn hdn hname) ?_ ?_
      · rw [hframe]
        rfl
      · rw [hframe]
  | @moved e t g₁ hdir he hcycle hremove hcleared he₁ =>
      cases hsame he
      have hinv₁ := hcleared.inv
      obtain ⟨htree, _, _⟩ := removeDestination_tree h hd hremove hinv₁
      obtain ⟨_, hs₁, hd₁⟩ := hkeep hcleared he
      obtain ⟨_, _, _, _, hframe⟩ := moveEntry_frame (g := g₁) e sd i dd dn
      rw [hinv₁.moveEntry_nextEdge he₁] at hnext
      have hcarried : NameCarried g₁ (g₁.moveEntry e sd i dd dn) sd sn dd dn i := by
        obtain ⟨inode, hget⟩ := hinv₁.getInode_of_entry he₁
        by_cases hkind : inode.vtype = .directory
        · obtain ⟨m, hm⟩ := hinv₁.dir_of_entry he₁ hget hkind
          exact hinv₁.moveDirEntry_carried hinv he₁ hsn hd₁ hcleared.free hnext hm
        · exact hinv₁.moveFileEntry_carried hinv he₁ hget hkind hnext
      rw [← htree]
      refine tree_move hinv₁ hinv hs₁ hd₁ hsn hdn he₁ hcarried ?_ ?_
      · rw [hframe]
        rfl
      · rw [hframe]

/-- The cycle check looks for the destination in the moved directory. -/
theorem TypeGraph.Presentable.wouldCycle_iff (h : g.Presentable) (hi : g.resolveName sd sn = some i)
    (hd : g.dirInode dd = some di) :
    g.wouldCycle i dd = true ↔ g.fileTree.IsDir i ∧ g.fileTree.Inside i di := by
  obtain ⟨e, he⟩ := h.inv.resolveName_iff.mp hi
  obtain ⟨inode, hdata, hget⟩ := h.target_live he
  rw [TypeGraph.wouldCycle_iff, h.inv.enters_eq]
  constructor
  · rintro ⟨_, c, hc, hreach⟩
    rw [h.inv.dirForInode_iff] at hc
    exact ⟨h.inv.isDir_iff.mpr ⟨c, hc⟩, (h.inv.inside_iff hc hd).mpr hreach⟩
  · rintro ⟨hdir, hinside⟩
    obtain ⟨c, hc⟩ := h.inv.isDir_iff.mp hdir
    obtain ⟨v, hv, hkind⟩ := hdir
    rw [node_eq hdata] at hv
    cases hv
    exact ⟨⟨inode, hget, hkind⟩, c, h.inv.dirForInode_iff.mpr hc, (h.inv.inside_iff hc hd).mp hinside⟩

/-- A destination can be replaced if it is no directory with entries. -/
theorem TypeGraph.Presentable.canReplace_iff (h : g.Presentable) (hd : g.dirInode dd = some di) :
    g.CanReplace dd dn ↔
      ¬ ∃ j, g.fileTree.entry (di, dn) = some j ∧ g.fileTree.IsDir j ∧ ¬ g.fileTree.IsEmpty j := by
  rw [h.inv.entry_eq hd]
  constructor
  · rintro hcan ⟨j, hj, hdir, hfull⟩
    obtain ⟨inode, hget, hempty⟩ := hcan j hj
    obtain ⟨e, he⟩ := h.inv.resolveName_iff.mp hj
    obtain ⟨inode', hdata, hget'⟩ := h.target_live he
    rw [hget] at hget'
    cases hget'
    obtain ⟨v, hv, hkind⟩ := hdir
    rw [node_eq hdata] at hv
    cases hv
    obtain ⟨td, htd, hnone⟩ := hempty hkind
    exact hfull ((h.inv.isEmpty_iff (h.inv.dirForInode_iff.mp htd)).mpr hnone)
  · intro hno j hj
    obtain ⟨e, he⟩ := h.inv.resolveName_iff.mp hj
    obtain ⟨inode, hdata, hget⟩ := h.target_live he
    refine ⟨inode, hget, fun hkind => ?_⟩
    have hdir : g.fileTree.IsDir j := ⟨_, node_eq hdata, hkind⟩
    obtain ⟨td, htd⟩ := h.inv.isDir_iff.mp hdir
    refine ⟨td, h.inv.dirForInode_iff.mpr htd, (h.inv.isEmpty_iff htd).mp ?_⟩
    by_contra hfull
    exact hno ⟨j, hj, hdir, hfull⟩

/-- A rename that is admitted clears the destination and moves the name. -/
theorem rename_tree (h : g.Presentable) (hctx : g.capCtx.capId = none) (hs : g.dirInode sd = some si)
    (hd : g.dirInode dd = some di) (hinv : Inv (rename now sd sn dd dn g).2)
    (hsn : UserName sn) (hdn : UserName dn)
    (hne : (sd, sn) ≠ (dd, dn)) (hi : g.resolveName sd sn = some i)
    (hcycle : sd ≠ dd → g.wouldCycle i dd = false) (hcan : g.CanReplace dd dn) :
    ∃ g', rename now sd sn dd dn g = (.ok (), g') ∧
      g'.fileTree = (g.fileTree.clear di dn).move si sn di dn i := by
  have hok : (rename now sd sn dd dn g).1 = .ok () :=
    h.inv.rename_ok hne hi ⟨requireCap_anonymous hctx _, hsn, hdn, hcycle, hcan⟩
  rcases rename_spec now sd sn dd dn h.inv with
    ⟨o, hfail, heq⟩ | ⟨_, _, g', hren, heq⟩
  · rw [heq] at hok
    exact absurd hok (hfail ())
  · rw [heq] at hinv
    have hinv' : Inv g' := hinv.withSides _ _ _ _ _ _
    have htree := hren.tree h hs hd hsn hdn hne hi hinv' hinv'.edgeIds.next_le
    exact ⟨_, heq, htree⟩

/-! ### Nodes -/

variable {inode : Inode}

theorem getInode_of_data (hslot : idToArena i = i) (hi : g.inodes.data i = some inode) :
    g.getInode i = some inode := by
  rw [TypeGraph.getInode, Arena.get_eq_data, hslot, hi]

/-- A node is what a read of its inode finds. -/
theorem getInode_of_node (hslot : idToArena i = i) {v : FileNode} (hv : g.fileTree.node i = some v) :
    g.getInode i = some v.inode := by
  obtain ⟨inode, hi, rfl⟩ := exists_of_node hv
  exact getInode_of_data hslot hi

theorem modifyInode_data (hslot : idToArena i = i) (hi : g.inodes.data i = some inode) (f : Inode → Inode) :
    (g.modifyInode i f).inodes.data = Function.update g.inodes.data i (some (f inode)) := by
  change (g.inodes.modify (idToArena i) f).data = _
  rw [Arena.data_modify, hslot, hi]
  rfl

/-- A change of the record of an inode. -/
theorem fileTree_modifyInode (hslot : idToArena i = i) (hi : g.inodes.data i = some inode) (f : Inode → Inode) :
    (g.modifyInode i f).fileTree =
      g.fileTree.setNode i (some { g.fileNode i inode with inode := f inode }) :=
  FileTree.ext rfl (node_of_update (modifyInode_data hslot hi f) fun _ _ => rfl) rfl

/-- A write or truncate that went through stores its bytes. -/
theorem fileTree_storeContent (hslot : idToArena i = i) (hi : g.inodes.data i = some inode) {op : ProvOp}
    (buf : List UInt8) :
    (g.storeContent now op i buf).fileTree = g.fileTree.store (now 0) i (g.fileNode i inode) buf := by
  have hdata : (g.storeContent now op i buf).inodes.data =
      Function.update g.inodes.data i (some { inode with size := buf.length, mtime := now 0 }) := by
    change (g.inodes.modify (idToArena i) _).data = _
    rw [Arena.data_modify, hslot, hi]
    rfl
  have hnode : ∀ j, (g.storeContent now op i buf).fileNode j = fun inode =>
      { g.fileNode j inode with content := if j = i then buf else g.content j } := by
    intro j
    have hbytes : (g.storeContent now op i buf).content j = if j = i then buf else g.content j :=
      content_storeContent j
    rw [← hbytes]
    rfl
  refine FileTree.ext rfl ?_ rfl
  rw [node_of_update hdata, hnode]
  · simp [FileTree.store, FileTree.setNode, TypeGraph.fileNode]
  · intro j hj
    rw [hnode, if_neg hj]
    rfl

theorem writeData_panics (hctx : g.capCtx.capId = none) (hi : g.getInode i = some inode)
    (hkind : inode.vtype = .regular) {offset : Nat} {data : List UInt8} (hend : offset + data.length < 2 ^ 64)
    (hlarge : isizeMax < offset + data.length) : (writeData now i offset data g).1 = .panic := by
  rw [writeData, requireCap_anonymous hctx, hi]
  dsimp only
  rw [if_neg (not_not.mpr hkind), Nat.mod_eq_of_lt hend, if_pos hlarge]

/-- write_data overwrites the bytes of a file, if they do not grow too long. -/
theorem writeData_tree (now : Nat → Timestamp) (hctx : g.capCtx.capId = none) (hslot : idToArena i = i)
    (hi : g.inodes.data i = some inode) (hkind : inode.vtype = .regular) {offset : Nat} {data : List UInt8}
    (hsmall : offset + data.length ≤ isizeMax) :
    ∃ g', writeData now i offset data g = (.ok data.length, g') ∧ g'.fileTree =
      g.fileTree.store (now 0) i (g.fileNode i inode) (Buffer.overwrite 0 (g.content i) offset data) := by
  have hcan : g.CanWrite i := ⟨requireCap_anonymous hctx _, inode, getInode_of_data hslot hi, hkind⟩
  have hmax : isizeMax < 2 ^ 64 := by decide
  rcases writeData_spec now g i (hsmall.trans_lt hmax) with ⟨hno, _⟩ | ⟨_, hlarge, _⟩ | ⟨_, heq⟩
  · exact absurd hcan hno
  · exact absurd hsmall (not_le.mpr hlarge)
  · exact ⟨_, heq, fileTree_storeContent hslot hi _⟩

theorem truncate_panics (hctx : g.capCtx.capId = none) (hi : g.getInode i = some inode)
    (hkind : inode.vtype = .regular) {size : Nat} (hlarge : isizeMax < size) :
    (truncate now i size g).1 = .panic := by
  rw [truncate, requireCap_anonymous hctx, hi]
  dsimp only
  rw [if_neg (not_not.mpr hkind), if_pos hlarge]

/-- truncate resizes the bytes of a file, if they do not grow too long. -/
theorem truncate_tree (now : Nat → Timestamp) (hctx : g.capCtx.capId = none) (hslot : idToArena i = i)
    (hi : g.inodes.data i = some inode) (hkind : inode.vtype = .regular) {size : Nat} (hsmall : size ≤ isizeMax) :
    ∃ g', truncate now i size g = (.ok (), g') ∧ g'.fileTree =
      g.fileTree.store (now 0) i (g.fileNode i inode) (Buffer.resize 0 (g.content i) size) := by
  have hcan : g.CanWrite i := ⟨requireCap_anonymous hctx _, inode, getInode_of_data hslot hi, hkind⟩
  rcases truncate_spec now i size g with ⟨hno, _⟩ | ⟨_, hlarge, _⟩ | ⟨_, heq⟩
  · exact absurd hcan hno
  · exact absurd hsmall (not_le.mpr hlarge)
  · exact ⟨_, heq, fileTree_storeContent hslot hi _⟩

/-- One attribute of one node set or removed. -/
theorem fileTree_attributes {g' : TypeGraph} (hi : g.inodes.data i = some inode) {key : XAttrNamespace × String}
    {value : Option (List UInt8)} (hinodes : g'.inodes = g.inodes) (hentry : g'.fileTree.entry = g.fileTree.entry)
    (hnext : g'.nextInode = g.nextInode)
    (hcontent : g'.fileData = g.fileData) (htargets : g'.symlinkTargets = g.symlinkTargets)
    (hmaps : g'.attributes = Function.update g.attributes i (Function.update (g.attributes i) key value)) :
    g'.fileTree = g.fileTree.setNode i
      (some { g.fileNode i inode with xattr := Function.update (g.attributes i) key value }) := by
  refine FileTree.ext hentry ?_ hnext
  have hdata : g'.inodes.data = Function.update g.inodes.data i (some inode) := by
    rw [hinodes, ← hi, Function.update_eq_self]
  have hnode : ∀ j, g'.fileNode j = fun inode => { g.fileNode j inode with
      xattr := Function.update g.attributes i (Function.update (g.attributes i) key value) j } := by
    intro j
    rw [← hmaps]
    unfold TypeGraph.fileNode TypeGraph.content
    rw [hcontent, htargets]
  rw [node_of_update hdata, hnode]
  · simp [FileTree.setNode, TypeGraph.fileNode]
  · intro j hj
    rw [hnode, Function.update_of_ne hj]
    rfl

/-- With the same entries and directories the names lead where they did. -/
theorem entry_of_same {g' : TypeGraph} (h : Inv g) (h' : Inv g') (hentries : g'.entries = g.entries)
    (hdirs : g'.dirInode = g.dirInode) : g'.fileTree.entry = g.fileTree.entry := by
  have hlookup : g'.namespace.entry = g.namespace.entry := by
    refine h'.represents.unique ?_
    rw [hentries]
    exact h.represents
  refine h'.entry_ext ?_ ?_
  · intro c j m hc
    rw [hdirs] at hc
    rw [h.entry_eq hc]
    exact congrFun hlookup (c, m)
  · intro j m hno
    rw [hdirs] at hno
    exact h.entry_none hno m

/-- setxattr sets an attribute of a live inode to a value that is not too long. -/
theorem setxattr_tree {ns : XAttrNamespace} {name : String} {value : List UInt8} (h : g.Presentable)
    (hctx : g.capCtx.capId = none) (hslot : idToArena i = i) (hi : g.inodes.data i = some inode)
    (hinv : Inv (setxattr now i ns name value g).2) (hsmall : value.length ≤ 65536) :
    ∃ x g', setxattr now i ns name value g = (.ok x, g') ∧ g'.fileTree = g.fileTree.setNode i
      (some { g.fileNode i inode with xattr := Function.update (g.attributes i) (ns, name) (some value) }) := by
  have hlive : g.containsInode i = true := by
    rw [TypeGraph.containsInode, Arena.contains_eq_isSome, hslot, hi]
    rfl
  obtain ⟨x, hok⟩ := (h.inv.attributesFollow h.below h.keys).set now i ns name value
    (requireCap_anonymous hctx _) hlive hsmall
  have hmaps : (setxattr now i ns name value g).2.attributes = Op.onAttributes g.attributes (.setxattr i ns name value) := by
    rcases setxattr_attributes now i ns name value h.inv.xattrIdsBelow.fresh h.keys with ⟨hfail, _⟩ | ⟨_, _, hmaps⟩
    · exact absurd hok (hfail x)
    · exact hmaps
  refine ⟨x, (setxattr now i ns name value g).2, Prod.ext hok rfl, ?_⟩
  have hle := hinv.edgeIds.next_le
  rcases setxattr_cases now i ns name value g with
    ⟨o, hfail, heq⟩ | ⟨_, _, _, ⟨a, _, heq⟩ | ⟨_, heq⟩⟩
  · rw [heq] at hok
    exact absurd hok (hfail x)
  · rw [heq] at hinv hmaps ⊢
    exact fileTree_attributes hi rfl (entry_of_same h.inv hinv rfl rfl) rfl rfl rfl hmaps
  · rw [heq] at hinv hmaps hle ⊢
    exact fileTree_attributes hi rfl
      (entry_of_same h.inv hinv (h.inv.attachXattr_entries hle ns name value) rfl) rfl rfl rfl hmaps

/-- removexattr removes an attribute that is there. -/
theorem removexattr_tree {ns : XAttrNamespace} {name : String} (h : g.Presentable)
    (hctx : g.capCtx.capId = none) (hslot : idToArena i = i) (hi : g.inodes.data i = some inode)
    (hinv : Inv (removexattr now i ns name g).2) :
    (g.attributes i (ns, name) ≠ none ∧ ∃ g', removexattr now i ns name g = (.ok (), g') ∧
      g'.fileTree = g.fileTree.setNode i
        (some { g.fileNode i inode with xattr := Function.update (g.attributes i) (ns, name) none })) ∨
    (g.attributes i (ns, name) = none ∧ removexattr now i ns name g = (.err (.xattrNotFound name), g)) := by
  have hlive : g.containsInode i = true := by
    rw [TypeGraph.containsInode, Arena.contains_eq_isSome, hslot, hi]
    rfl
  have hanswer := (h.inv.attributesFollow h.below h.keys).remove now i ns name (requireCap_anonymous hctx _) hlive
  by_cases hset : g.attributes i (ns, name) = none
  · rw [hset] at hanswer
    refine .inr ⟨hset, Prod.ext hanswer ?_⟩
    rcases removexattr_attributes now i ns name h.keys with ⟨_, hsame⟩ | ⟨⟨x, hok⟩, _⟩
    · exact hsame
    · rw [hok] at hanswer
      cases hanswer
  · have hok : (removexattr now i ns name g).1 = .ok () := by
      rw [hanswer, if_pos (Option.isSome_iff_ne_none.mpr hset)]
    have hmaps : (removexattr now i ns name g).2.attributes = Op.onAttributes g.attributes (.removexattr i ns name) := by
      rcases removexattr_attributes now i ns name h.keys with ⟨hfail, _⟩ | ⟨_, _, hmaps⟩
      · exact absurd hok (hfail ())
      · exact hmaps
    refine .inl ⟨hset, (removexattr now i ns name g).2, Prod.ext hok rfl, ?_⟩
    rcases removexattr_cases now i ns name g with ⟨o, hfail, heq⟩ | ⟨_, _, x, hfind, heq⟩
    · rw [heq] at hok
      exact absurd hok (hfail ())
    · rw [findXattr_eq] at hfind
      obtain ⟨hx, _⟩ := KeyedRecords.of_find hfind
      obtain ⟨e, he⟩ := h.inv.side.xattrs.owned.mp hx
      have hentries : ((g.dropXattr i x).recordProv (now 0) .removexattr i name).entries = g.entries :=
        h.inv.dropXattr_entries he
      obtain ⟨_, _, hframe⟩ := dropXattr_frame (g := g) i x
      rw [heq] at hinv hmaps ⊢
      rw [hframe] at hinv hmaps hentries ⊢
      exact fileTree_attributes hi rfl (entry_of_same h.inv hinv hentries rfl) rfl rfl rfl hmaps

end Calls

end SotFs
