/-
Module: SotFs.Proofs.Verifiers
Layer: Proofs
Purpose: What the two whole-graph verifiers say about a graph that satisfies the invariant. Both always
  pass its names, its directory tree and its blocks. `check_invariants` passes exactly when every name leads
  to its inode by the inode's own id, no edge dangles and every block id is a live inode's too; `fsck` passes
  exactly when the names do so, no block edge dangles and the attribute sets belong to live inodes. It looks
  at no grant edge, it looks for a block edge's block among the blocks, and it does look at attribute sets
  that have become empty. Along the runs that free no inode with a grant or with an emptied attribute set and
  keep every block id mirrored, the two agree.
Trusted boundary: none
Main exports: Inv.checkInvariants_iff, Inv.fsck_errors_iff, Op.Hides, verifiers_agree
-/
import SotFs.Core.Fsck
import SotFs.Proofs.Leftovers

namespace SotFs

open Std (ExtTreeMap ExtTreeSet)
open Relation Foundation

section Searches

variable {g : TypeGraph}

/-- No directory lies below itself. -/
theorem Inv.no_cycle (h : Inv g) (d : DirId) : ¬ TransGen g.shape.Child d d := by
  intro hcycle
  obtain ⟨p, _, e, n, i, hi, _⟩ := TransGen.tail'_iff.mp hcycle
  exact h.shape.tree.acyclic (h.shape.rooted hi) hcycle

/-- The search of `check_invariants` finds nothing below a directory that its path leads to, and takes its
    path back. -/
theorem Inv.hasCycleFrom_eq (h : Inv g) : ∀ fuel d path, (∀ p ∈ path, TransGen g.shape.Child p d) →
    g.hasCycleFrom fuel d path = (false, path) := by
  intro fuel
  induction fuel with
  | zero =>
      intro d path _
      rfl
  | succ fuel ih =>
      intro d path hpath
      have hfresh : d ∉ path := fun hd => h.no_cycle d (hpath d hd)
      have hchildren := GraphSearch.anyChild_false (g.hasCycleFrom fuel) (fun path' => path' = insert d path)
        (g.childDirs d) (by
          rintro c hc _ rfl
          have hchild : g.shape.Child d c := h.mem_childDirs.mp hc
          rw [ih c (insert d path)]
          · exact ⟨rfl, rfl⟩
          · intro p hp
            rcases Finset.mem_insert.mp hp with rfl | hp
            · exact .single hchild
            · exact (hpath p hp).tail hchild) rfl
      unfold TypeGraph.hasCycleFrom
      rw [if_neg hfresh]
      cases hr : GraphSearch.anyChild (g.hasCycleFrom fuel) (g.childDirs d) (insert d path) with
      | mk answer path' =>
          rw [hr] at hchildren
          obtain ⟨rfl, rfl⟩ := hchildren
          dsimp only
          rw [Finset.erase_insert hfresh]

/-- The search of `fsck` finds nothing either. -/
theorem Inv.hasCycleDfs_eq (h : Inv g) : ∀ fuel d visited stack,
    (∀ p ∈ stack, TransGen g.shape.Child p d) →
    (g.hasCycleDfs fuel d (visited, stack)).1 = false ∧
      (g.hasCycleDfs fuel d (visited, stack)).2.2 = stack := by
  intro fuel
  induction fuel with
  | zero =>
      intro d visited stack _
      exact ⟨rfl, rfl⟩
  | succ fuel ih =>
      intro d visited stack hstack
      have hfresh : d ∉ stack := fun hd => h.no_cycle d (hstack d hd)
      have hchildren := GraphSearch.anyChild_false
        (fun child (met : Finset DirId × Finset DirId) =>
          if child ∈ met.2 then (true, met)
          else if child ∈ met.1 then (false, met)
          else g.hasCycleDfs fuel child met)
        (fun met => met.2 = insert d stack) (g.childDirs d) (by
          rintro c hc ⟨visited', stack'⟩ hmet
          dsimp only at hmet
          subst hmet
          have hchild : g.shape.Child d c := h.mem_childDirs.mp hc
          have habove : ∀ p ∈ insert d stack, TransGen g.shape.Child p c := by
            intro p hp
            rcases Finset.mem_insert.mp hp with rfl | hp
            · exact .single hchild
            · exact (hstack p hp).tail hchild
          dsimp only
          rw [if_neg fun hc => h.no_cycle c (habove c hc)]
          split
          · exact ⟨rfl, rfl⟩
          · exact ih c visited' _ habove) (v := (insert d visited, insert d stack)) rfl
      unfold TypeGraph.hasCycleDfs
      dsimp only
      cases hr : GraphSearch.anyChild (fun child (met : Finset DirId × Finset DirId) =>
          if child ∈ met.2 then (true, met)
          else if child ∈ met.1 then (false, met)
          else g.hasCycleDfs fuel child met) (g.childDirs d) (insert d visited, insert d stack) with
      | mk answer met =>
          rw [hr] at hchildren
          obtain ⟨hanswer, hmet⟩ := hchildren
          dsimp only at hanswer hmet
          subst hanswer
          refine ⟨rfl, ?_⟩
          change met.2.erase d = stack
          rw [hmet, Finset.erase_insert hfresh]

theorem Inv.fsckCycles_eq (h : Inv g) : g.fsckCycles = [] := by
  have hfold : ∀ (dirs : List DirId) (visited : Finset DirId),
      (dirs.foldl g.fsckCycleFrom ([], (visited, ∅))).1 = [] := by
    intro dirs
    induction dirs with
    | nil =>
        intro visited
        rfl
    | cons d dirs ih =>
        intro visited
        rw [List.foldl_cons]
        have hstep : ∃ visited', g.fsckCycleFrom ([], (visited, ∅)) d = ([], (visited', ∅)) := by
          unfold TypeGraph.fsckCycleFrom
          split
          · exact ⟨visited, rfl⟩
          · obtain ⟨hanswer, hstack⟩ := h.hasCycleDfs_eq (g.dirContains.size + 2) d visited ∅
              fun p hp => absurd hp (Finset.notMem_empty p)
            split
            · rename_i heq
              rw [heq] at hanswer
              cases hanswer
            · rename_i met heq
              rw [heq] at hstack
              exact ⟨met.1, by rw [← hstack]⟩
        obtain ⟨visited', heq⟩ := hstep
        rw [heq]
        exact ih visited'
  exact hfold _ ∅

end Searches

/-! ### Repeated names -/

theorem firstDuplicate_eq_none {names : List String} :
    ∀ {seen : List String}, (∀ n ∈ seen, n ∉ names) → names.Nodup →
      TypeGraph.firstDuplicate seen names = none := by
  induction names with
  | nil =>
      intro seen _ _
      rfl
  | cons n names ih =>
      intro seen hseen hnodup
      obtain ⟨hn, hrest⟩ := List.nodup_cons.mp hnodup
      unfold TypeGraph.firstDuplicate
      rw [if_neg fun hmem => hseen n hmem List.mem_cons_self]
      refine ih ?_ hrest
      intro m hm
      rcases List.mem_cons.mp hm with rfl | hm
      · exact hn
      · exact fun hmem => hseen m hm (List.mem_cons_of_mem n hmem)

theorem duplicates_eq_nil {names : List String} :
    ∀ {seen : List String}, (∀ n ∈ seen, n ∉ names) → names.Nodup →
      TypeGraph.duplicates seen names = [] := by
  induction names with
  | nil =>
      intro seen _ _
      rfl
  | cons n names ih =>
      intro seen hseen hnodup
      obtain ⟨hn, hrest⟩ := List.nodup_cons.mp hnodup
      unfold TypeGraph.duplicates
      rw [if_neg fun hmem => hseen n hmem List.mem_cons_self, List.nil_append]
      refine ih ?_ hrest
      intro m hm
      rcases List.mem_append.mp hm with hm | hm
      · exact fun hmem => hseen m hm (List.mem_cons_of_mem n hmem)
      · rw [List.mem_singleton.mp hm]
        exact hn

section Verifiers

variable {g : TypeGraph}

theorem Inv.names_nodup (h : Inv g) (d : DirId) :
    ((g.dirEntries d).map fun entry => entry.2.2).Nodup :=
  (g.dirEntries_nodup d).map_on h.dirEntries_unique

/-! ### check_invariants -/

theorem Inv.checkLinkCountConsistency_iff (h : Inv g) :
    g.checkLinkCountConsistency = .ok () ↔ g.OwnTargets := by
  unfold TypeGraph.checkLinkCountConsistency
  rw [forEach_ok_iff]
  constructor
  · intro hall
    refine h.own_of_linkCount ?_
    intro s i hi
    have hid : i.id = s := h.inodeIds.id_eq hi
    rw [h.incoming_eq, hid]
    simpa using hall (s, i) (Arena.mem_iter.mpr hi)
  · rintro hown ⟨s, i⟩ hmem
    have hi := Arena.mem_iter.mp hmem
    have hid : i.id = s := h.inodeIds.id_eq hi
    have hcount := h.linkCount_eq_incoming hown hi
    rw [h.incoming_eq, hid] at hcount
    simpa using hcount

theorem Inv.checkUniqueNames_ok (h : Inv g) : g.checkUniqueNames = .ok () := by
  unfold TypeGraph.checkUniqueNames
  rw [forEach_ok_iff]
  rintro ⟨d, es⟩ _
  dsimp only
  rw [firstDuplicate_eq_none (fun n hn => absurd hn List.not_mem_nil) (h.names_nodup d)]

theorem Inv.checkDirSelfRef_ok (h : Inv g) : g.checkDirSelfRef = .ok () := by
  unfold TypeGraph.checkDirSelfRef
  rw [forEach_ok_iff]
  rintro ⟨d, dir⟩ hmem
  have hd : g.dirInode d = some dir.inodeId := Arena.view_eq_some.mpr ⟨dir, Arena.mem_iter.mp hmem, rfl⟩
  obtain ⟨e, he⟩ := h.shape.dot hd
  dsimp only
  rw [if_pos]
  rw [List.any_eq_true]
  exact ⟨(e, dir.inodeId, "."), h.mem_dirEntries.mpr he, by simp⟩

theorem Inv.references_filter (h : Inv g) {s : Nat} {b : Block} (hs : g.blocks.data s = some b) :
    b.refcount = (g.edges.iter.filter fun entry =>
      match entry.2 with
      | .pointsTo _ _ tgt _ => decide (tgt = b.id)
      | _ => false).length :=
  (h.references_eq hs).trans (g.edges.length_filter_iter fun
    | .pointsTo _ _ tgt _ => decide (tgt = b.id)
    | _ => false).symm

theorem Inv.checkBlockRefcount_ok (h : Inv g) : g.checkBlockRefcount = .ok () := by
  unfold TypeGraph.checkBlockRefcount
  rw [forEach_ok_iff]
  rintro ⟨s, b⟩ hmem
  have hb := Arena.mem_iter.mp hmem
  have hid : b.id = s := h.blockIds.id_eq hb
  have hcount := h.references_filter hb
  rw [hid] at hcount
  exact if_neg (not_not.mpr hcount)

theorem Inv.checkNoDirCycles_ok (h : Inv g) : g.checkNoDirCycles = .ok () := by
  unfold TypeGraph.checkNoDirCycles
  rw [forEach_ok_iff]
  rintro ⟨d, dir⟩ _
  dsimp only
  rw [h.hasCycleFrom_eq _ d ∅ fun p hp => absurd hp (Finset.notMem_empty p), if_neg Bool.false_ne_true]

/-- No operation records a parent capability. -/
theorem Inv.checkCapMonotonicity_ok (h : Inv g) : g.checkCapMonotonicity = .ok () := by
  unfold TypeGraph.checkCapMonotonicity
  rw [h.noDelegation]
  rfl

theorem Inv.checkNoHardLinkToDir_ok (h : Inv g) : g.checkNoHardLinkToDir = .ok () := by
  unfold TypeGraph.checkNoHardLinkToDir
  rw [forEach_ok_iff]
  rintro ⟨s, i⟩ hmem
  have hi := Arena.mem_iter.mp hmem
  have hid : i.id = s := h.inodeIds.id_eq hi
  dsimp only
  split
  · rfl
  · rename_i hkind
    have hle := h.incoming_user_le hi (not_not.mp hkind)
    rw [h.incoming_eq, hid] at hle
    rw [if_neg (not_lt.mpr hle)]

theorem Inv.checkDirNameIdxConsistency_ok (h : Inv g) : g.checkDirNameIdxConsistency = .ok () := by
  have hforward : g.checkIndexForward = .ok () := by
    unfold TypeGraph.checkIndexForward
    rw [forEach_ok_iff]
    rintro ⟨d, es⟩ hmem
    rw [forEach_ok_iff]
    intro e he
    have hes : SetIndex.members g.dirContains d = es :=
      SetIndex.members_of_getElem? (ExtTreeMap.mem_toList_iff_getElem?_eq_some.mp hmem)
    rw [ExtTreeSet.mem_toList, ← hes] at he
    obtain ⟨⟨d', t, n⟩, hentry, hkey⟩ := (h.index.out d e).mp he
    cases hkey
    have hidx : g.dirNameIdx[(d', n)]? = some e := h.index.names.get hentry
    simp only [h.getEdge_of_entry hentry, hidx, ne_eq, not_true_eq_false, if_false, if_true]
  have hbackward : g.checkIndexBackward = .ok () := by
    unfold TypeGraph.checkIndexBackward
    rw [forEach_ok_iff]
    rintro ⟨⟨d, n⟩, e⟩ hmem
    obtain ⟨⟨d', t, n'⟩, hentry, hkey⟩ :=
      (h.index.names (d, n) e).mp (ExtTreeMap.mem_toList_iff_getElem?_eq_some.mp hmem)
    cases hkey
    simp only [h.getEdge_of_entry hentry, and_self, if_true]
  unfold TypeGraph.checkDirNameIdxConsistency
  rw [hforward, hbackward]
  rfl

/-- check_invariants passes exactly when names lead to inodes by their own ids, no edge dangles and every
    block id is an inode's too. -/
theorem Inv.checkInvariants_iff (h : Inv g) :
    g.checkInvariants = .ok () ↔ g.OwnTargets ∧ g.NoDangling ∧ g.BlocksMirrored := by
  rw [← h.checkLinkCountConsistency_iff, ← h.checkNoDanglingEdges_iff]
  unfold TypeGraph.checkInvariants
  rw [h.checkUniqueNames_ok, h.checkDirSelfRef_ok, h.checkBlockRefcount_ok, h.checkNoDirCycles_ok,
    h.checkCapMonotonicity_ok, h.checkNoHardLinkToDir_ok, h.checkDirNameIdxConsistency_ok]
  cases g.checkLinkCountConsistency with
  | error v =>
      constructor
      · intro hok
        cases hok
      · rintro ⟨hok, _⟩
        cases hok
  | ok _ =>
      cases g.checkNoDanglingEdges with
      | error v =>
          constructor
          · intro hok
            cases hok
          · rintro ⟨_, hok⟩
            cases hok
      | ok _ => exact ⟨fun _ => ⟨rfl, rfl⟩, fun _ => rfl⟩

/-! ### fsck -/

/-- The inode that a block edge comes from. -/
def Edge.blockOwner : Edge → Option InodeId
  | .pointsTo _ src _ _ => some src
  | _ => none

theorem Inv.fsckEdges_iff (h : Inv g) :
    g.fsckEdges = [] ↔ ∀ {e t}, g.edges.view Edge.blockOwner e = some t → g.containsInode t = true := by
  unfold TypeGraph.fsckEdges
  rw [List.flatMap_eq_nil_iff]
  constructor
  · intro hall e t he
    obtain ⟨v, hv, howner⟩ := Arena.view_eq_some.mp he
    cases v with
    | pointsTo id src tgt o =>
        cases howner
        have hnil := (List.append_eq_nil_iff.mp (hall (e, _) (Arena.mem_iter.mpr hv))).1
        by_contra hdead
        rw [Bool.not_eq_true] at hdead
        simp [hdead] at hnil
    | _ => cases howner
  · rintro hlive ⟨e, v⟩ hmem
    have hv := Arena.mem_iter.mp hmem
    cases v with
    | contains id d t n =>
        -- both ends of a name are always live
        have he : g.entries e = some (d, t, n) := Arena.view_eq_some.mpr ⟨_, hv, rfl⟩
        obtain ⟨di, hdi⟩ := h.shape.src_live he
        obtain ⟨i, hi⟩ := h.getInode_of_entry he
        have hinode : g.containsInode t = true := by
          rw [TypeGraph.getInode, Arena.get_eq_data] at hi
          rw [TypeGraph.containsInode, Arena.contains_eq_isSome, hi, Option.isSome_some]
        simp [h.containsDir_eq hdi, hinode]
    | pointsTo id src tgt o =>
        have howner := hlive (e := e) (Arena.view_eq_some.mpr ⟨_, hv, rfl⟩)
        obtain ⟨b, hb⟩ := h.side.blocks.live (Arena.view_eq_some.mpr ⟨_, hv, rfl⟩)
        have hblock : g.containsBlock tgt = true := by
          rw [TypeGraph.containsBlock, Arena.contains_eq_isSome, h.blockIds.slot hb, hb, Option.isSome_some]
        simp [howner, hblock]
    | grants | delegates | derivedFrom | supersedes | hasXattr => rfl

theorem Inv.fsckLinkCounts_iff (h : Inv g) : g.fsckLinkCounts = [] ↔ g.OwnTargets := by
  unfold TypeGraph.fsckLinkCounts
  rw [List.flatMap_eq_nil_iff]
  constructor
  · intro hall
    refine h.own_of_linkCount ?_
    intro s i hi
    have hnil := hall (s, i) (Arena.mem_iter.mpr hi)
    rw [h.incoming_eq]
    by_contra hne
    cases (if_pos hne).symm.trans hnil
  · rintro hown ⟨s, i⟩ hmem
    have hcount := h.linkCount_eq_incoming hown (Arena.mem_iter.mp hmem)
    rw [h.incoming_eq] at hcount
    exact if_neg (not_not.mpr hcount)

theorem Inv.fsckNames_eq (h : Inv g) : g.fsckNames = [] := by
  unfold TypeGraph.fsckNames
  rw [List.flatMap_eq_nil_iff]
  rintro ⟨d, es⟩ _
  dsimp only
  rw [duplicates_eq_nil (fun n hn => absurd hn List.not_mem_nil) (h.names_nodup d), List.map_nil]

theorem Inv.fsckBlocks_eq (h : Inv g) : g.fsckBlocks = [] := by
  unfold TypeGraph.fsckBlocks
  rw [List.flatMap_eq_nil_iff]
  rintro ⟨s, b⟩ hmem
  exact if_neg (not_not.mpr (h.references_filter (Arena.mem_iter.mp hmem)))

theorem Inv.fsckXattrs_iff (h : Inv g) :
    g.fsckXattrs = [] ↔ ∀ t ∈ g.inodeXattrs, g.containsInode t = true := by
  unfold TypeGraph.fsckXattrs
  rw [List.flatMap_eq_nil_iff]
  constructor
  · intro hall t ht
    obtain ⟨xs, hxs⟩ := Option.isSome_iff_exists.mp (ExtTreeMap.mem_iff_isSome_getElem?.mp ht)
    have hnil := (List.append_eq_nil_iff.mp
      (hall (t, xs) (ExtTreeMap.mem_toList_iff_getElem?_eq_some.mpr hxs))).1
    by_contra hdead
    rw [Bool.not_eq_true] at hdead
    simp [hdead] at hnil
  · rintro hlive ⟨t, xs⟩ hmem
    have hxs := ExtTreeMap.mem_toList_iff_getElem?_eq_some.mp hmem
    have ht : t ∈ g.inodeXattrs := ExtTreeMap.mem_iff_isSome_getElem?.mpr (by rw [hxs]; rfl)
    refine List.append_eq_nil_iff.mpr ⟨by simp [hlive t ht], ?_⟩
    rw [List.flatMap_eq_nil_iff]
    intro a ha
    rw [ExtTreeSet.mem_toList, ← SetIndex.members_of_getElem? hxs] at ha
    obtain ⟨e, he⟩ := h.side.xattrs.owned.mp ha
    have hlive' : a ∈ g.xattrs := h.side.xattrs.live.mpr ⟨e, t, he⟩
    simp [ExtTreeMap.mem_iff_contains.mp hlive']

/-- fsck passes exactly when names lead to inodes by their own ids, block edges come from live inodes and
    attribute sets belong to live inodes. -/
theorem Inv.fsck_errors_iff (h : Inv g) :
    (fsck g).errors = [] ↔ g.OwnTargets ∧
      (∀ {e t}, g.edges.view Edge.blockOwner e = some t → g.containsInode t = true) ∧
      ∀ t ∈ g.inodeXattrs, g.containsInode t = true := by
  rw [← h.fsckLinkCounts_iff, ← h.fsckEdges_iff, ← h.fsckXattrs_iff, fsck, h.fsckNames_eq, h.fsckCycles_eq,
    h.fsckBlocks_eq]
  simp only [List.append_nil, List.append_eq_nil_iff]
  constructor
  · rintro ⟨⟨hedges, hlinks⟩, hxattrs⟩
    exact ⟨hlinks, hedges, hxattrs⟩
  · rintro ⟨hlinks, hedges, hxattrs⟩
    exact ⟨⟨hedges, hlinks⟩, hxattrs⟩

end Verifiers

/-! ### Agreement -/

/-- The inode that a grant edge leads to. -/
def Edge.grantTarget : Edge → Option InodeId
  | .grants _ _ tgt _ => some tgt
  | _ => none

/-- Every grant leads to a live inode. -/
def TypeGraph.GrantsLive (g : TypeGraph) : Prop :=
  ∀ {e t}, g.edges.view Edge.grantTarget e = some t → ∃ k, g.kinds (idToArena t) = some k

/-- The attribute set of a dead inode is not empty. -/
def TypeGraph.DeadXattrsFilled (g : TypeGraph) : Prop :=
  ∀ t ∈ g.inodeXattrs, g.containsInode t = true ∨ ∃ a, a ∈ SetIndex.members g.inodeXattrs t

/-- What freeing the inode at `t` leaves is seen by both verifiers or by none: no grant leads to its slot,
    and no attribute set of its slot is empty. -/
structure TypeGraph.FreesSeen (g : TypeGraph) (t : InodeId) : Prop where
  grants : ∀ e t', g.edges.view Edge.grantTarget e = some t' → idToArena t' ≠ idToArena t
  xattrs : ∀ t' ∈ g.inodeXattrs, idToArena t' = idToArena t → ∃ a, a ∈ SetIndex.members g.inodeXattrs t'

/-- The call frees an inode and leaves something that one verifier sees and the other does not. -/
def Op.Hides (g : TypeGraph) (op : Op) : Prop := ∃ t, op.Frees g t ∧ ¬ g.FreesSeen t

section Agreement

variable {g : TypeGraph}

/-- With live grants, filled attribute sets and mirrored block ids the verifiers agree. -/
theorem Inv.verdicts_agree (h : Inv g) (hgrants : g.GrantsLive) (hfilled : g.DeadXattrsFilled)
    (hmirrored : g.BlocksMirrored) : (fsck g).errors = [] ↔ g.checkInvariants = .ok () := by
  rw [h.fsck_errors_iff, h.checkInvariants_iff]
  constructor
  · rintro ⟨hown, hblocks, hxattrs⟩
    refine ⟨hown, h.noDangling ?_, hmirrored⟩
    intro e t he
    obtain ⟨v, hv, hside⟩ := Arena.view_eq_some.mp he
    cases v with
    | pointsTo id src tgt o =>
        cases hside
        exact TypeGraph.containsInode_iff.mp (hblocks (Arena.view_eq_some.mpr ⟨_, hv, rfl⟩))
    | hasXattr id src tgt =>
        cases hside
        have hmem : tgt ∈ SetIndex.members g.inodeXattrs t :=
          h.side.xattrs.owned.mpr ⟨e, Arena.view_eq_some.mpr ⟨_, hv, rfl⟩⟩
        refine TypeGraph.containsInode_iff.mp (hxattrs t ?_)
        by_contra hno
        exact SetIndex.not_mem_members_of_none (ExtTreeMap.getElem?_eq_none hno) tgt hmem
    | grants id src tgt r =>
        cases hside
        exact hgrants (Arena.view_eq_some.mpr ⟨_, hv, rfl⟩)
    | contains | delegates | derivedFrom | supersedes => cases hside
  · rintro ⟨hown, hno, _⟩
    refine ⟨hown, ?_, ?_⟩
    · intro e t he
      obtain ⟨v, hv, howner⟩ := Arena.view_eq_some.mp he
      cases v with
      | pointsTo id src tgt o =>
          cases howner
          exact (hno (e := e) (by rw [Arena.get_eq_data, hv])).1
      | _ => cases howner
    · intro t ht
      rcases hfilled t ht with hlive | ⟨a, ha⟩
      · exact hlive
      · obtain ⟨e, he⟩ := h.side.xattrs.owned.mp ha
        have hdata := h.attachment_iff.mp he
        exact (hno (e := e) (by rw [Arena.get_eq_data, hdata])).1

/-- An edit keeps the grants live, if it frees no inode with a grant. -/
theorem Edit.grantsLive {link : TypeGraph → InodeId → Prop} {g' : TypeGraph} (h : Inv g)
    (hlive : g.GrantsLive) (hedit : Edit link TypeGraph.FreesSeen g g') : g'.GrantsLive := by
  intro e t he
  rcases hedit.sideView h (f := Edge.grantTarget) (fun _ _ _ _ => rfl) e with
    hnone | hsame | ⟨_, v, t', hv, hside, hnew, _⟩
  · rw [hnone] at he
    cases he
  · rw [hsame] at he
    obtain ⟨k, hk⟩ := hlive he
    rcases hedit.kinds h hk with hkept | ⟨t', hslot, hseen, _⟩
    · exact ⟨k, hkept⟩
    · exact absurd hslot.symm (hseen.grants e t he)
  · rw [Arena.view, hv, Option.bind_some] at he
    cases v with
    | grants id src tgt r =>
        cases he
        cases hside
        exact TypeGraph.containsInode_iff.mp hnew
    | _ => cases he

theorem grantsLive_new (now : Timestamp) : (TypeGraph.new now).GrantsLive := by
  intro e t he
  rw [new_view now rfl] at he
  cases he

/-- A call keeps the attribute sets of dead inodes filled, if it frees no inode with an empty one. -/
theorem Op.deadXattrsFilled {now : Nat → Timestamp} {op : Op} (h : Inv g) (hfilled : g.DeadXattrsFilled)
    (hcall : InCapacityCall g op (op.apply now g).2) (hseen : ¬ op.Hides g) :
    (op.apply now g).2.DeadXattrsFilled := by
  intro t ht
  rcases (op.keysFrom now h hcall).inodeXattrs ht with ⟨hold, hmembers⟩ | hlive
  · rcases hfilled t hold with hlive | ⟨a, ha⟩
    · rcases op.live_kept h hcall hlive with hkept | ⟨t', hslot, hfrees⟩
      · exact .inl hkept
      · have hfree : g.FreesSeen t' := by
          by_contra hhidden
          exact hseen ⟨t', hfrees, hhidden⟩
        obtain ⟨a, ha⟩ := hfree.xattrs t hold hslot.symm
        exact .inr ⟨a, hmembers a ha⟩
    · exact .inr ⟨a, hmembers a ha⟩
  · exact .inl hlive

theorem Run.deadXattrsFilled (hrun : Run (fun g op g' => InCapacityCall g op g' ∧ ¬ op.Hides g) g) :
    g.DeadXattrsFilled := by
  induction hrun with
  | new now => exact fun t ht => absurd ht ExtTreeMap.not_mem_empty
  | call now op hbefore hallowed ih =>
      have hinv : Inv _ := Reachable.inv (hbefore.mono fun _ _ _ hcall => hcall.1)
      exact op.deadXattrsFilled hinv ih hallowed.1 hallowed.2
  | setCapCtx _ _ ih => exact ih
  | enableProvLog _ ih => exact ih
  | disableProvLog _ ih => exact ih

end Agreement

/-- Along every run whose calls hide nothing from one verifier only and unmirror no block, fsck reports no
    error exactly when check_invariants passes. -/
theorem verifiers_agree {g : TypeGraph}
    (hrun : Run (fun g op g' => InCapacityCall g op g' ∧ ¬ op.Hides g ∧ ¬ op.Unmirrors g) g) :
    (fsck g).errors = [] ↔ g.checkInvariants = .ok () := by
  obtain ⟨hinv, hgrants⟩ : Inv g ∧ g.GrantsLive := by
    refine hrun.keep (fun _ _ => True) TypeGraph.FreesSeen grantsLive_new
      (fun h hlive hedit => hedit.grantsLive h hlive) ?_
    rintro g op g' ⟨hcapacity, hseen, _⟩
    refine ⟨hcapacity, fun _ _ => trivial, ?_⟩
    intro t hfrees
    by_contra hhidden
    exact hseen ⟨t, hfrees, hhidden⟩
  have hfilled : g.DeadXattrsFilled :=
    Run.deadXattrsFilled (hrun.mono fun _ _ _ hcall => ⟨hcall.1, hcall.2.1⟩)
  have hmirrored : g.BlocksMirrored := Run.blocksMirrored (hrun.mono fun _ _ _ hcall => ⟨hcall.1, hcall.2.2⟩)
  exact hinv.verdicts_agree hgrants hfilled hmirrored

/-- A file is unlinked that still has an attribute: both verifiers complain. -/
theorem verifiers_agree_unlinked :
    let g := (TypeGraph.new 0).calls (fun _ => 0)
      [.createFile 1 "a" 0 0 .fileDefault, .setxattr 2 .user "k" [1], .unlink 1 "a"]
    (fsck g).errors = [] ↔ g.checkInvariants = .ok () := by
  refine verifiers_agree (Run.calls _ (.new 0)
    ⟨⟨by decide, ?_, ?_⟩, ⟨by decide, ?_, ?_⟩, ⟨by decide, ?_, ?_⟩, trivial⟩)
  · rintro ⟨t, hfrees, _⟩
    exact hfrees
  · rintro (⟨hattaches, _⟩ | ⟨t, hfrees, _⟩)
    · exact hattaches
    · exact hfrees
  · rintro ⟨t, hfrees, _⟩
    exact hfrees
  · rintro (⟨hattaches, _⟩ | ⟨t, hfrees, _⟩)
    · exact hattaches
    · exact hfrees
  · rintro ⟨t, _, hhidden⟩
    have hno : ∀ p ∈ ((TypeGraph.new 0).calls (fun _ => 0)
        [.createFile 1 "a" 0 0 .fileDefault, .setxattr 2 .user "k" [1]]).edges.iter,
        p.2.grantTarget = none := by decide
    have hsets : ∀ p ∈ ((TypeGraph.new 0).calls (fun _ => 0)
        [.createFile 1 "a" 0 0 .fileDefault, .setxattr 2 .user "k" [1]]).inodeXattrs.toList,
        1 ∈ p.2 := by decide
    refine hhidden ⟨?_, ?_⟩
    · intro e t' he
      obtain ⟨v, hv, htarget⟩ := Arena.view_eq_some.mp he
      rw [show v.grantTarget = none from hno (e, v) (Arena.mem_iter.mpr hv)] at htarget
      cases htarget
    · intro t' ht' _
      obtain ⟨xs, hxs⟩ := Option.isSome_iff_exists.mp (ExtTreeMap.mem_iff_isSome_getElem?.mp ht')
      refine ⟨1, ?_⟩
      rw [SetIndex.members_of_getElem? hxs]
      exact hsets (t', xs) (ExtTreeMap.mem_toList_iff_getElem?_eq_some.mpr hxs)
  · rintro (⟨hattaches, _⟩ | ⟨t, _, hmirrors⟩)
    · exact hattaches
    · have hno : ∀ p ∈ ((TypeGraph.new 0).calls (fun _ => 0)
          [.createFile 1 "a" 0 0 .fileDefault, .setxattr 2 .user "k" [1]]).edges.iter,
          p.2.pointer = none := by decide
      refine hmirrors fun x t' b o hx _ => ?_
      obtain ⟨v, hv, hpointer⟩ := Arena.view_eq_some.mp hx
      rw [show v.pointer = none from hno (x, v) (Arena.mem_iter.mpr hv)] at hpointer
      cases hpointer

/-- A file with an ACL is unlinked: check_invariants finds the grant edge without its target, fsck finds
    nothing. And a file whose only attribute was removed is unlinked: fsck finds the empty set left,
    check_invariants nothing. And with two blocks on the root fsck finds the second among the blocks,
    check_invariants looks for an inode. -/
theorem verifiers_disagree :
    let g := (TypeGraph.new 0).calls (fun _ => 0)
      [.createFile 1 "a" 0 0 .fileDefault, .setacl 2 [⟨.user, 7, ⟨6⟩⟩], .unlink 1 "a"]
    let g' := (TypeGraph.new 0).calls (fun _ => 0)
      [.createFile 1 "a" 0 0 .fileDefault, .setxattr 2 .user "k" [1], .removexattr 2 .user "k", .unlink 1 "a"]
    let g'' := (TypeGraph.new 0).calls (fun _ => 0) [.writeBlock 1 0 0 8, .writeBlock 1 8 8 8]
    (Reachable g ∧ (fsck g).errors = [] ∧
      g.checkInvariants = .error (.invariantViolation (.danglingEdge 3 true false))) ∧
    (Reachable g' ∧ (fsck g').errors = [.xattrsOfNoInode 2] ∧ g'.checkInvariants = .ok ()) ∧
    Reachable g'' ∧ (fsck g'').errors = [] ∧
      g''.checkInvariants = .error (.invariantViolation (.danglingEdge 3 true false)) :=
  ⟨⟨Run.calls _ (.new 0) (by decide), by decide, by decide⟩,
    ⟨Run.calls _ (.new 0) (by decide), by decide, by decide⟩, Run.calls _ (.new 0) (by decide), by decide,
    by decide⟩

end SotFs
