/-
Module: SotFs.Proofs.MoveEdits
Layer: Proofs
Purpose: The two edits of rename, and why each keeps the invariant: a new name for an entry in place, and
  the move of an entry to another directory, where a moved directory's ".." follows. The cycle check of the
  move is a depth-first search; on a graph that satisfies the invariant it decides reachability.
Trusted boundary: none
Main exports: Inv.renameEntry, TypeGraph.moveEntry, Inv.moveEntry, Inv.isAncestor_iff
-/
import SotFs.Proofs.RemovalEdits

namespace SotFs

open Std (ExtTreeMap ExtTreeSet)
open Relation Foundation

/-! ### A new name in place -/

section RenameEntry

variable {g : TypeGraph} {e : EdgeId} {d : DirId} {t : InodeId} {n n' : String}

/-- Put another name on a `contains` edge. -/
def Edge.withName (name : String) : Edge → Edge
  | .contains id src tgt _ => .contains id src tgt name
  | edge => edge

/-- What a rename in place changes. -/
theorem Inv.renameContainsEdge_eq (h : Inv g) (he : g.entries e = some (d, t, n)) (hne : n ≠ n') :
    g.renameContainsEdge e n' =
      (true, { g with dirNameIdx := (g.dirNameIdx.erase (d, n)).insert (d, n') e
                      edges := g.edges.modify e (Edge.withName n') }) := by
  unfold TypeGraph.renameContainsEdge
  simp only [h.getEdge_of_entry he, if_neg hne, TypeGraph.modifyEdge, h.entry_slot he]
  rfl

theorem Inv.renameEntry_edges (h : Inv g) (he : g.entries e = some (d, t, n)) (hne : n ≠ n') :
    (g.renameContainsEdge e n').2.edges.data =
      Function.update g.edges.data e (some (.contains e d t n')) := by
  rw [h.renameContainsEdge_eq he hne]
  change (g.edges.modify e (Edge.withName n')).data = _
  rw [Arena.data_modify, h.entries_iff.mp he]
  rfl

/-- A new name in place keeps the invariant. -/
theorem Inv.renameEntry (h : Inv g) (he : g.entries e = some (d, t, n)) (hn : UserName n)
    (hn' : UserName n') (hne : n ≠ n') (hfree : ∀ x t', g.entries x ≠ some (d, t', n')) :
    Inv (g.renameContainsEdge e n').2 := by
  have heq := h.renameContainsEdge_eq he hne
  have hedges := h.renameEntry_edges he hne
  have hentries : (g.renameContainsEdge e n').2.entries =
      Function.update g.entries e (some (d, t, n')) := Arena.view_update hedges
  rw [heq] at hentries hedges ⊢
  refine
    { inodeIds := h.inodeIds
      dirIds := h.dirIds
      capIds := h.capIds
      blockIds := h.blockIds
      edgeIds := h.edgeIds.modify e (by intro v; cases v <;> rfl)
      index := ?_
      dirKeys := h.dirKeys
      dirIdx := h.dirIdx
      shape := ?_
      links := ?_
      side := ?_
      roots := h.roots
      noDelegation := h.noDelegation }
  · rw [hentries]
    exact h.index.rename he hfree
  · rw [TypeGraph.shape, hentries]
    exact h.shape.renameEntry he hn hn' hfree
  · intro s j hs
    rw [hentries, linksTo_replace he]
    · exact h.links hs
    · exact ⟨fun hc => ⟨hc.1, hn.2⟩, fun hc => ⟨hc.1, hn'.2⟩⟩
  · refine h.side.editName hedges ?_ (isName_contains _ _ _ _)
    rw [h.entries_iff.mp he]
    exact isName_contains _ _ _ _

end RenameEntry

/-! ### A move to another directory -/

/-- Move an entry to another directory under another name: what rename does across directories. -/
def TypeGraph.moveEntry (g : TypeGraph) (e : EdgeId) (srcDir : DirId) (t : InodeId) (dstDir : DirId)
    (dstName : String) : TypeGraph :=
  let g := (g.removeEdge e).2
  let g := { g with dirContains := SetIndex.drop g.dirContains srcDir e }
  let g := { g with inodeIncomingContains := SetIndex.drop g.inodeIncomingContains t e }
  let (newEdgeId, g) := g.allocEdgeId
  let g := g.addContains newEdgeId dstDir t dstName
  g.followParent t dstDir

section MoveEntry

variable {g : TypeGraph} {e : EdgeId} {p q : DirId} {t qi : InodeId} {n n' : String}

/-- The graph between the move of the entry and the move of "..". -/
def TypeGraph.movedEntry (g : TypeGraph) (e : EdgeId) (p : DirId) (t : InodeId) (n : String)
    (q : DirId) (n' : String) : TypeGraph :=
  { g with
    nextEdge := g.nextEdge + 1
    edges := ((g.edges.remove e).2.insertAt (idToArena g.nextEdge) (.contains g.nextEdge q t n')).2
    dirNameIdx := (g.dirNameIdx.erase (p, n)).insert (q, n') g.nextEdge
    dirContains := SetIndex.add (SetIndex.drop g.dirContains p e) q g.nextEdge
    inodeIncomingContains := SetIndex.add (SetIndex.drop g.inodeIncomingContains t e) t g.nextEdge }

theorem Inv.moveEntry_eq (h : Inv g) (he : g.entries e = some (p, t, n)) :
    g.moveEntry e p t q n' = (g.movedEntry e p t n q n').followParent t q := by
  unfold TypeGraph.moveEntry
  rw [removeEdge_entry (h.entry_slot he) (h.entries_iff.mp he)]
  rfl

theorem Inv.movedEntry_entries (h : Inv g) (e : EdgeId) (p q : DirId) (t : InodeId) (n n' : String)
    (hcap : g.nextEdge < EDGE_CAPACITY) :
    (g.movedEntry e p t n q n').entries =
      Function.update (Function.update g.entries e none) g.nextEdge (some (q, t, n')) := by
  have hremoved : (g.edges.remove e).2.view Edge.entry = Function.update g.entries e none :=
    Arena.view_update (Arena.data_remove _ _)
  rw [← hremoved]
  exact Arena.view_update ((h.edgeIds.remove e).insert_data hcap _)

/-- The entries can be read after the move of the entry. -/
theorem Inv.movedEntry_indexed (h : Inv g) (he : g.entries e = some (p, t, n))
    (hcap : g.nextEdge < EDGE_CAPACITY) (hfree : ∀ x t', g.entries x ≠ some (q, t', n')) :
    Indexed (g.movedEntry e p t n q n') where
  edgeIds := (h.edgeIds.remove e).insert hcap rfl
  index := by
    rw [h.movedEntry_entries _ _ _ _ _ _ hcap]
    refine (h.index.remove he).insert ?_ ?_
    · rw [Function.update_apply]
      split
      · rfl
      · exact h.entries_fresh le_rfl
    · intro x t' hx
      rw [Function.update_apply] at hx
      split at hx
      · cases hx
      · exact hfree x t' hx

/-- The move leaves every link count alone: one name less and one name more. -/
theorem Inv.movedEntry_links (h : Inv g) (he : g.entries e = some (p, t, n)) (hn : UserName n)
    (hn' : UserName n') (hcap : g.nextEdge < EDGE_CAPACITY) (s : Nat) :
    (linksTo (g.movedEntry e p t n q n').entries s).card = (linksTo g.entries s).card := by
  have hvac : Function.update g.entries e none g.nextEdge = none := by
    rw [Function.update_apply]
    split
    · rfl
    · exact h.entries_fresh le_rfl
  have hinsert := linksTo_insert_card (s := s) (w := (q, t, n')) hcap hvac
  have hremove := linksTo_remove_card (s := s) (h.entry_lt he) he
  have hsame : CountsFor s (q, t, n') ↔ CountsFor s (p, t, n) :=
    ⟨fun hc => ⟨hc.1, hn.2⟩, fun hc => ⟨hc.1, hn'.2⟩⟩
  simp only [hsame] at hinsert
  rw [h.movedEntry_entries _ _ _ _ _ _ hcap]
  omega

/-- The move leaves blocks, attributes and grants alone. -/
theorem Inv.movedEntry_side (h : Inv g) (he : g.entries e = some (p, t, n))
    (hcap : g.nextEdge < EDGE_CAPACITY) :
    SideOk (g.movedEntry e p t n q n').edges g.blocks.data g.caps.data g.inodePointsTo g.capGrants
      g.xattrs g.inodeXattrs g.nextXattr := by
  have hremoved := h.side.editName (Arena.data_remove g.edges _)
    (by rw [h.entries_iff.mp he]; exact isName_contains _ _ _ _) isName_none
  refine hremoved.editName ((h.edgeIds.remove e).insert_data hcap _) ?_ (isName_contains _ _ _ _)
  rw [(h.edgeIds.remove e).fresh le_rfl]
  exact isName_none

theorem Inv.movedEntry_dirKeys (h : Inv g) (e : EdgeId) (p : DirId) (t : InodeId) (n n' : String)
    (hq : g.dirInode q = some qi) (d : DirId) :
    d ∈ (g.movedEntry e p t n q n').dirContains ↔ ∃ i, g.dirInode d = some i := by
  change d ∈ SetIndex.add (SetIndex.drop g.dirContains p e) q g.nextEdge ↔ _
  rw [SetIndex.mem_add, SetIndex.mem_drop, h.dirKeys]
  constructor
  · rintro (rfl | hd)
    · exact ⟨qi, hq⟩
    · exact hd
  · exact .inr

/-- A moved file takes nothing with it. -/
theorem Inv.moveFileEntry_eq (h : Inv g) (he : g.entries e = some (p, t, n)) {i : Inode}
    (ht : g.getInode t = some i) (hkind : i.vtype ≠ .directory) :
    g.moveEntry e p t q n' = g.movedEntry e p t n q n' := by
  have ht' : (g.movedEntry e p t n q n').getInode t = some i := ht
  rw [h.moveEntry_eq he]
  unfold TypeGraph.followParent
  simp only [ht', if_neg hkind]

/-- Moving a name of a non-directory keeps the invariant. -/
theorem Inv.moveFileEntry (h : Inv g) (he : g.entries e = some (p, t, n)) (hn : UserName n)
    (hq : g.dirInode q = some qi) (hn' : UserName n')
    (hfree : ∀ x t', g.entries x ≠ some (q, t', n')) (hcap : g.nextEdge < EDGE_CAPACITY) {i : Inode}
    (ht : g.getInode t = some i) (hkind : i.vtype ≠ .directory) :
    Inv (g.moveEntry e p t q n') := by
  have hentries := h.movedEntry_entries e p q t n n' hcap
  have hindexed := h.movedEntry_indexed he hcap hfree
  rw [h.moveFileEntry_eq he ht hkind]
  exact
    { inodeIds := h.inodeIds
      dirIds := h.dirIds
      capIds := h.capIds
      blockIds := h.blockIds
      edgeIds := hindexed.edgeIds
      index := hindexed.index
      dirKeys := h.movedEntry_dirKeys e p t n n' hq
      dirIdx := h.dirIdx
      shape := by
        rw [TypeGraph.shape, hentries]
        exact h.shape.moveFile he (h.entries_fresh le_rfl) (getInode_kind ht) hkind hq hn' hfree
      links := by
        intro s j hs
        rw [h.movedEntry_links he hn hn' hcap]
        exact h.links hs
      side := h.movedEntry_side he hcap
      roots := h.roots
      noDelegation := h.noDelegation }

/-- Point a `contains` edge at another inode. -/
def Edge.withTarget (tgt : InodeId) : Edge → Edge
  | .contains id src _ name => .contains id src tgt name
  | edge => edge

/-- What the retargeting of ".." changes. -/
theorem Indexed.retargetDotdot_eq (h : Indexed g) {x : EdgeId} {m : DirId} {old new : InodeId}
    (hx : g.entries x = some (m, old, "..")) :
    g.retargetDotdot m new =
      { g with
        inodeIncomingContains :=
          SetIndex.add (SetIndex.drop g.inodeIncomingContains old x) new x
        edges := g.edges.modify x (Edge.withTarget new) } := by
  have hfind : ((g.dirEntries m).find? fun entry => entry.2.2 = "..") = some (x, old, "..") :=
    h.find_name.mpr ⟨rfl, hx⟩
  have hslot : idToArena x = x := by
    obtain ⟨v, hv, _⟩ := Arena.view_eq_some.mp hx
    exact h.edgeIds.slot hv
  unfold TypeGraph.retargetDotdot
  rw [hfind]
  simp only [TypeGraph.modifyEdge, hslot]
  rfl

/-- The edges after the retargeting of "..". -/
theorem Indexed.withTarget_data (h : Indexed g) {x : EdgeId} {m : DirId} {old : InodeId} (new : InodeId)
    (hx : g.entries x = some (m, old, "..")) :
    (g.edges.modify x (Edge.withTarget new)).data =
      Function.update g.edges.data x (some (.contains x m new "..")) := by
  rw [Arena.data_modify, h.entries_iff.mp hx]
  rfl

/-- The directory an entry leads to, if it leads to a directory inode. -/
theorem Inv.dir_of_entry (h : Inv g) (he : g.entries e = some (p, t, n)) {i : Inode}
    (ht : g.getInode t = some i) (hkind : i.vtype = .directory) : ∃ m, g.dirInode m = some t := by
  obtain ⟨k, hk, hdir⟩ := h.shape.tgt_live he
  have hik := getInode_kind ht
  rw [hkind] at hik
  change g.kinds (idToArena t) = some k at hk
  rw [hik] at hk
  cases hk
  have hslot := hdir rfl
  rw [hslot] at hik
  exact h.shape.kind_dir hik

/-- Below the root every directory has its "..". -/
theorem Inv.exists_dotdot (h : Inv g) {m : DirId} {mi : InodeId} (hm : g.dirInode m = some mi)
    (he : g.entries e = some (p, mi, n)) (hn : UserName n) :
    ∃ x old, g.entries x = some (m, old, "..") := by
  have hroot : m ≠ g.rootDir := by
    rintro rfl
    have hri := h.shape.root
    change g.dirInode g.rootDir = some g.rootInode at hri
    rw [hm] at hri
    cases hri
    exact h.shape.root_entry hn he
  obtain ⟨_, pi, _, _, x, _, _, _, hx⟩ := h.shape.parent hm hroot
  exact ⟨x, pi, hx⟩

/-- The ".." of a moved directory after the move of its entry. -/
theorem Inv.movedEntry_dotdot (h : Inv g) (he : g.entries e = some (p, t, n)) (hn : UserName n)
    (hcap : g.nextEdge < EDGE_CAPACITY) {m : DirId} {x : EdgeId} {old : InodeId}
    (hx : g.entries x = some (m, old, "..")) :
    (g.movedEntry e p t n q n').entries x = some (m, old, "..") := by
  rw [h.movedEntry_entries _ _ _ _ _ _ hcap, Function.update_of_ne, Function.update_of_ne]
  · exact hx
  · rintro rfl
    rw [he] at hx
    cases hx
    exact hn.2 rfl
  · rintro rfl
    rw [h.entries_fresh le_rfl] at hx
    cases hx

/-- What the move of a directory's entry changes. -/
theorem Inv.moveDirEntry_eq (h : Inv g) (he : g.entries e = some (p, t, n)) (hn : UserName n)
    (hq : g.dirInode q = some qi) (hfree : ∀ x t', g.entries x ≠ some (q, t', n'))
    (hcap : g.nextEdge < EDGE_CAPACITY) {m : DirId} (hm : g.dirInode m = some t) {x : EdgeId}
    {old : InodeId} (hx : g.entries x = some (m, old, "..")) :
    g.moveEntry e p t q n' =
      { g.movedEntry e p t n q n' with
        inodeIncomingContains := SetIndex.add (SetIndex.drop
          (g.movedEntry e p t n q n').inodeIncomingContains old x) qi x
        edges := (g.movedEntry e p t n q n').edges.modify x (Edge.withTarget qi) } := by
  have hindexed := h.movedEntry_indexed he hcap hfree
  rw [h.moveEntry_eq he, ← hindexed.retargetDotdot_eq (h.movedEntry_dotdot he hn hcap hx)]
  obtain ⟨inode, hinode, hkind⟩ := h.getInode_of_dir hm
  have hget : (g.movedEntry e p t n q n').getInode t = some inode := hinode
  have hdir : (g.movedEntry e p t n q n').dirForInode t = some m := h.dirForInode_iff.mpr hm
  have hdst : (g.movedEntry e p t n q n').getDir q = some ⟨q, qi⟩ := h.getDir_eq hq
  unfold TypeGraph.followParent
  simp only [hget, if_pos hkind, hdir, hdst]

/-- Moving a directory to one that is not below it keeps the invariant. -/
theorem Inv.moveDirEntry (h : Inv g) (he : g.entries e = some (p, t, n)) (hn : UserName n)
    (hq : g.dirInode q = some qi) (hn' : UserName n')
    (hfree : ∀ x t', g.entries x ≠ some (q, t', n')) (hcap : g.nextEdge < EDGE_CAPACITY) {m : DirId}
    (hm : g.dirInode m = some t) (hbelow : ¬ ReflTransGen g.shape.Child m q) :
    Inv (g.moveEntry e p t q n') := by
  obtain ⟨x, old, hx⟩ := h.exists_dotdot hm he hn
  have hindexed := h.movedEntry_indexed he hcap hfree
  have hentries := h.movedEntry_entries e p q t n n' hcap
  have hx' : (g.movedEntry e p t n q n').entries x = some (m, old, "..") :=
    h.movedEntry_dotdot he hn hcap hx
  have hdata := hindexed.withTarget_data qi hx'
  have hfinal : ((g.movedEntry e p t n q n').edges.modify x (Edge.withTarget qi)).view Edge.entry =
      Function.update (g.movedEntry e p t n q n').entries x (some (m, qi, "..")) :=
    Arena.view_update hdata
  rw [h.moveDirEntry_eq he hn hq hfree hcap hm hx]
  refine
    { inodeIds := h.inodeIds
      dirIds := h.dirIds
      capIds := h.capIds
      blockIds := h.blockIds
      edgeIds := hindexed.edgeIds.modify x (by intro v; cases v <;> rfl)
      index := ?_
      dirKeys := h.movedEntry_dirKeys e p t n n' hq
      dirIdx := h.dirIdx
      shape := ?_
      links := ?_
      side := ?_
      roots := h.roots
      noDelegation := h.noDelegation }
  · rw [TypeGraph.entries, hfinal]
    exact hindexed.index.retarget hx'
  · rw [TypeGraph.shape, TypeGraph.entries, hfinal, hentries]
    exact h.shape.moveDir he hn hm hq (h.entries_fresh le_rfl) hx hn' hfree hbelow
  · intro s j hs
    rw [TypeGraph.entries, hfinal, linksTo_replace hx', h.movedEntry_links he hn hn' hcap]
    · exact h.links hs
    · exact ⟨fun hc => absurd rfl hc.2, fun hc => absurd rfl hc.2⟩
  · refine (h.movedEntry_side he hcap).editName hdata ?_ (isName_contains _ _ _ _)
    rw [hindexed.entries_iff.mp hx']
    exact isName_contains _ _ _ _

end MoveEntry

/-! ### The cycle check -/

section CycleCheck

variable {g : TypeGraph}

/-- The directories the search steps to are the children. -/
theorem Inv.mem_childDirs (h : Inv g) {d c : DirId} : c ∈ g.childDirs d ↔ g.shape.Child d c := by
  unfold TypeGraph.childDirs
  rw [List.mem_filterMap]
  constructor
  · rintro ⟨⟨e, t, n⟩, hmem, hsome⟩
    have he := h.mem_dirEntries.mp hmem
    split at hsome
    · cases hsome
    · rename_i hn
      split at hsome
      · split at hsome
        · exact ⟨e, n, t, h.dirForInode_iff.mp hsome, not_or.mp hn, he⟩
        · cases hsome
      · cases hsome
  · rintro ⟨e, n, i, hc, hn, he⟩
    refine ⟨(e, i, n), h.mem_dirEntries.mpr he, ?_⟩
    obtain ⟨inode, hinode, hkind⟩ := h.getInode_of_dir hc
    have hdir : g.dirForInode i = some c := h.dirForInode_iff.mpr hc
    rw [if_neg (not_or.mpr hn)]
    simp only [hinode, if_pos hkind, hdir]

/-- Only a directory with an entry set has children. -/
theorem mem_keys_of_childDirs {d : DirId} (hd : g.childDirs d ≠ []) : d ∈ g.dirContains.keys.toFinset := by
  rw [List.mem_toFinset, ExtTreeMap.mem_keys]
  by_contra hnot
  have hnone : g.dirContains[d]? = none := ExtTreeMap.getElem?_eq_none hnot
  have hempty : (SetIndex.members g.dirContains d).toList = [] := by
    rw [List.eq_nil_iff_forall_not_mem]
    intro x hx
    exact SetIndex.not_mem_members_of_none hnone x (ExtTreeSet.mem_toList.mp hx)
  refine hd ?_
  rw [TypeGraph.childDirs, TypeGraph.dirEntries, hempty]
  rfl

/-- The cycle check decides whether one directory is the other or lies above it. -/
theorem Inv.isAncestor_iff (h : Inv g) {a d : DirId} :
    g.isAncestor a d = true ↔ ReflTransGen g.shape.Child a d := by
  have hfuel : g.dirContains.keys.toFinset.card < g.dirContains.size + 1 := by
    have hle := g.dirContains.keys.toFinset_card_le
    rw [ExtTreeMap.length_keys] at hle
    omega
  have hsearch := GraphSearch.search_iff_transGen d (fun x => mem_keys_of_childDirs) hfuel a
  have hchild : (fun a b => b ∈ g.childDirs a) = g.shape.Child := by
    funext a b
    exact propext h.mem_childDirs
  rw [hchild] at hsearch
  rw [TypeGraph.isAncestor, Bool.or_eq_true, TypeGraph.isDescendantOf, hsearch, beq_iff_eq,
    Relation.reflTransGen_iff_eq_or_transGen]
  exact or_congr eq_comm Iff.rfl

end CycleCheck

end SotFs
