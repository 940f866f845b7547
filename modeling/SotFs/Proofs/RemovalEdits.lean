/-
Module: SotFs.Proofs.RemovalEdits
Layer: Proofs
Purpose: The edits that remove names, and why each keeps the invariant: one name of an inode with other
  names left, the last name of an inode together with the inode and its blocks, and an empty directory.
  The two loops of the source (over the edges of a removed directory, over the block edges of a deleted
  inode) are folds; each has a lemma about one round and a lemma about the whole loop.
Trusted boundary: none
Main exports: TypeGraph.dropName, Inv.dropName, TypeGraph.dropLastName, Inv.dropLastName,
  TypeGraph.dropDir, Inv.dropDir
-/
import SotFs.Proofs.EntryEdits

namespace SotFs

open Std (ExtTreeMap ExtTreeSet)
open Relation Foundation

/-! ### Removing one edge -/

section RemoveEdge

variable {g : TypeGraph} {e : EdgeId}

/-- Removing a name takes it out of the pool and out of the name index. -/
theorem removeEdge_entry {e' d t n} (hslot : idToArena e = e)
    (hdata : g.edges.data e = some (.contains e' d t n)) :
    g.removeEdge e =
      (some (.contains e' d t n),
        { g with edges := (g.edges.remove e).2, dirNameIdx := g.dirNameIdx.erase (d, n) }) := by
  have hfst : (g.edges.remove e).1 = some (.contains e' d t n) := by rw [Arena.remove_fst, hdata]
  unfold TypeGraph.removeEdge
  rw [hslot]
  cases hr : g.edges.remove e with
  | mk removed rest =>
      rw [hr] at hfst
      change removed = _ at hfst
      subst hfst
      rfl

/-- Removing an edge that is no name takes it out of the pool. -/
theorem removeEdge_other {v : Edge} (hslot : idToArena e = e) (hdata : g.edges.data e = some v)
    (hv : v.entry = none) :
    g.removeEdge e = (some v, { g with edges := (g.edges.remove e).2 }) := by
  have hfst : (g.edges.remove e).1 = some v := by rw [Arena.remove_fst, hdata]
  unfold TypeGraph.removeEdge
  rw [hslot]
  cases hr : g.edges.remove e with
  | mk removed rest =>
      rw [hr] at hfst
      change removed = _ at hfst
      subst hfst
      cases v with
      | contains => simp [Edge.entry] at hv
      | _ => rfl

/-- Removing a vacant edge does nothing. -/
theorem removeEdge_vacant (hslot : idToArena e = e) (hdata : g.edges.data e = none) :
    g.removeEdge e = (none, g) := by
  have hfst : (g.edges.remove e).1 = none := by rw [Arena.remove_fst, hdata]
  unfold TypeGraph.removeEdge
  rw [hslot]
  cases hr : g.edges.remove e with
  | mk removed rest =>
      rw [hr] at hfst
      change removed = _ at hfst
      subst hfst
      rfl

end RemoveEdge

/-! ### One name of several -/

/-- Take a name away from an inode and count it: the first half of unlink. -/
def TypeGraph.dropName (g : TypeGraph) (e : EdgeId) (d : DirId) (t : InodeId) : TypeGraph :=
  let g := (g.removeEdge e).2
  let g := { g with dirContains := SetIndex.drop g.dirContains d e }
  let g := { g with inodeIncomingContains := SetIndex.drop g.inodeIncomingContains t e }
  g.modifyInode t fun i => { i with linkCount := decrement32 i.linkCount }

section DropName

variable {g : TypeGraph} {e : EdgeId} {d : DirId} {t : InodeId} {n : String} {i : Inode}

theorem Inv.entry_slot (h : Inv g) {w} (he : g.entries e = some w) : idToArena e = e := by
  obtain ⟨v, hv, _⟩ := Arena.view_eq_some.mp he
  exact h.edgeIds.slot hv

theorem Inv.dropName_eq (h : Inv g) (he : g.entries e = some (d, t, n)) :
    g.dropName e d t =
      { g with
        edges := (g.edges.remove e).2
        dirNameIdx := g.dirNameIdx.erase (d, n)
        dirContains := SetIndex.drop g.dirContains d e
        inodeIncomingContains := SetIndex.drop g.inodeIncomingContains t e
        inodes := g.inodes.modify (idToArena t) fun i =>
          { i with linkCount := decrement32 i.linkCount } } := by
  unfold TypeGraph.dropName
  rw [removeEdge_entry (h.entry_slot he) (h.entries_iff.mp he)]
  rfl

theorem Inv.dropName_entries (h : Inv g) (he : g.entries e = some (d, t, n)) :
    (g.dropName e d t).entries = Function.update g.entries e none := by
  rw [h.dropName_eq he]
  exact Arena.view_update (Arena.data_remove _ _)

theorem Inv.dropName_inodes (h : Inv g) (he : g.entries e = some (d, t, n))
    (ht : g.getInode t = some i) :
    (g.dropName e d t).inodes.data = Function.update g.inodes.data (idToArena t)
      (some { i with linkCount := decrement32 i.linkCount }) := by
  rw [TypeGraph.getInode, Arena.get_eq_data] at ht
  rw [h.dropName_eq he]
  change (g.inodes.modify (idToArena t) _).data = _
  rw [Arena.data_modify, ht]
  rfl

/-- A counter between one and the edge capacity decrements as a number. -/
theorem decrement32_eq {x : Nat} (h₁ : 1 ≤ x) (h₂ : x ≤ EDGE_CAPACITY) : decrement32 x = x - 1 := by
  unfold decrement32 EDGE_CAPACITY at *
  omega

theorem linksTo_card_le (entries : EdgeId → Option (DirId × InodeId × String)) (s : Nat) :
    (linksTo entries s).card ≤ EDGE_CAPACITY := by
  have hle := Finset.card_filter_le (Finset.range EDGE_CAPACITY) fun e =>
    (entries e).any fun w => CountsFor s w
  rwa [Finset.card_range] at hle

/-- Taking a user name away from an inode takes one from its link count. -/
theorem Inv.decrement_link (h : Inv g) (he : g.entries e = some (d, t, n)) (hn : UserName n)
    (ht : g.getInode t = some i) :
    decrement32 i.linkCount = (linksTo (Function.update g.entries e none) (idToArena t)).card := by
  rw [TypeGraph.getInode, Arena.get_eq_data] at ht
  have hcount := h.links ht
  have hremove := linksTo_remove_card (s := idToArena t) (h.entry_lt he) he
  rw [if_pos ⟨rfl, hn.2⟩] at hremove
  have hle := linksTo_card_le g.entries (idToArena t)
  rw [decrement32_eq (by omega) (by omega)]
  omega

/-- The links of every other inode stay. -/
theorem Inv.links_of_ne (h : Inv g) (he : g.entries e = some (d, t, n)) {s : Nat} {j : Inode}
    (hs : s ≠ idToArena t) (hj : g.inodes.data s = some j) :
    j.linkCount = (linksTo (Function.update g.entries e none) s).card := by
  have hremove := linksTo_remove_card (s := s) (h.entry_lt he) he
  rw [if_neg (fun hc => hs hc.1.symm)] at hremove
  rw [h.links hj]
  omega

/-- Removing a name that is not the last keeps the invariant. -/
theorem Inv.dropName (h : Inv g) (he : g.entries e = some (d, t, n)) (hn : UserName n)
    (ht : g.getInode t = some i) (hkind : i.vtype ≠ .directory) : Inv (g.dropName e d t) := by
  have hentries := h.dropName_entries he
  have hinodes := h.dropName_inodes he ht
  have htdata : g.inodes.data (idToArena t) = some i := by
    rwa [TypeGraph.getInode, Arena.get_eq_data] at ht
  have hkinds : (g.dropName e d t).kinds = g.kinds := by
    refine Arena.view_update_eq hinodes ?_
    rw [htdata, Option.bind_some, Option.bind_some]
  have heq := h.dropName_eq he
  refine
    { inodeIds := by rw [heq]; exact h.inodeIds.modify _ (by intro v; rfl)
      dirIds := by rw [heq]; exact h.dirIds
      capIds := by rw [heq]; exact h.capIds
      blockIds := by rw [heq]; exact h.blockIds
      edgeIds := by rw [heq]; exact h.edgeIds.remove _
      index := ?_
      dirKeys := ?_
      dirIdx := by rw [heq]; exact h.dirIdx
      shape := ?_
      links := ?_
      side := ?_
      roots := by rw [heq]; exact h.roots
      noDelegation := by rw [heq]; exact h.noDelegation }
  · rw [hentries, heq]
    exact h.index.remove he
  · intro x
    rw [heq]
    exact SetIndex.mem_drop.trans (h.dirKeys x)
  · have hshape : (g.dropName e d t).shape = g.shape.setEdge e none := by
      rw [TypeGraph.shape, hentries, hkinds, heq]
      rfl
    rw [hshape]
    exact h.shape.removeFile he (getInode_kind ht) hkind
  · intro s j hs
    rw [hentries]
    rw [hinodes] at hs
    by_cases hst : s = idToArena t
    · subst hst
      rw [Function.update_self] at hs
      cases hs
      exact h.decrement_link he hn ht
    · rw [Function.update_of_ne hst] at hs
      exact h.links_of_ne he hst hs
  · rw [heq]
    refine h.side.editName (Arena.data_remove _ _) ?_ isName_none
    rw [h.entries_iff.mp he]
    exact isName_contains _ _ _ _

end DropName

/-! ### The inode that lost its last name -/

/-- Releasing the block edge of a deleted inode frees its block: every block has one edge. -/
theorem releaseBlockEdge_eq {g : TypeGraph} {e i b o} (hslot : idToArena e = e)
    (hblockIds : Numbered g.blocks Block.id g.nextBlock)
    (hblocks : BlocksOk (g.edges.view Edge.pointer) g.blocks.data)
    (hdata : g.edges.data e = some (.pointsTo e i b o)) :
    g.releaseBlockEdge e =
      { g with
        edges := (g.edges.remove e).2
        blocks := ((g.blocks.modify b fun blk =>
          { blk with refcount := decrement32 blk.refcount }).remove b).2 } := by
  have hview : g.edges.view Edge.pointer e = some (i, b, o) := Arena.view_eq_some.mpr ⟨_, hdata, rfl⟩
  obtain ⟨blk, hblk⟩ := hblocks.live hview
  have hzero : decrement32 blk.refcount = 0 := by rw [(hblocks.used hblk).1]; rfl
  have hbslot : idToArena b = b := hblockIds.slot hblk
  unfold TypeGraph.releaseBlockEdge
  rw [removeEdge_other hslot hdata rfl]
  simp only [TypeGraph.getBlock, Arena.get_eq_data, hbslot, hblk, hzero, if_true,
    TypeGraph.modifyBlock, TypeGraph.removeBlock]

theorem releaseBlockEdge_vacant {g : TypeGraph} {e : EdgeId} (hslot : idToArena e = e)
    (hdata : g.edges.data e = none) : g.releaseBlockEdge e = g := by
  unfold TypeGraph.releaseBlockEdge
  rw [removeEdge_vacant hslot hdata]

/-- One edge and its block fewer. -/
theorem BlocksOk.release {pointers : EdgeId → Option (InodeId × BlockId × Nat)}
    {blocks : BlockId → Option Block} (h : BlocksOk pointers blocks) {e i b o}
    (he : pointers e = some (i, b, o)) :
    BlocksOk (Function.update pointers e none) (Function.update blocks b none) where
  live := by
    intro x j c o' hx
    have hxe : x ≠ e := by
      rintro rfl
      simp at hx
    rw [Function.update_of_ne hxe] at hx
    have hcb : c ≠ b := by
      rintro rfl
      exact hxe (h.unique hx he)
    rw [Function.update_of_ne hcb]
    exact h.live hx
  unique := by
    intro x y j j' c o' o'' hx hy
    rw [Function.update_apply] at hx hy
    split at hx
    · cases hx
    · split at hy
      · cases hy
      · exact h.unique hx hy
  used := by
    intro c blk hc
    have hcb : c ≠ b := by
      rintro rfl
      simp at hc
    rw [Function.update_of_ne hcb] at hc
    obtain ⟨hone, x, j, o', hx⟩ := h.used hc
    refine ⟨hone, x, j, o', ?_⟩
    rw [Function.update_of_ne]
    · exact hx
    · rintro rfl
      rw [he] at hx
      cases hx
      exact hcb rfl

/-- The loop over the block edges of a deleted inode: the edges of the list and their blocks are gone,
    everything else stays. -/
theorem foldl_releaseBlockEdge (es : List EdgeId) : ∀ {g : TypeGraph},
    Numbered g.edges Edge.id g.nextEdge → Numbered g.blocks Block.id g.nextBlock →
    BlocksOk (g.edges.view Edge.pointer) g.blocks.data →
    (∀ e ∈ es, idToArena e = e ∧
      (g.edges.data e = none ∨ ∃ i b o, g.edges.data e = some (.pointsTo e i b o))) →
    ∃ edges blocks, es.foldl TypeGraph.releaseBlockEdge g = { g with edges := edges, blocks := blocks } ∧
      Numbered edges Edge.id g.nextEdge ∧ Numbered blocks Block.id g.nextBlock ∧
      BlocksOk (edges.view Edge.pointer) blocks.data ∧
      ∀ x, edges.data x = if x ∈ es then none else g.edges.data x := by
  induction es with
  | nil =>
      intro g hedgeIds hblockIds hblocks _
      exact ⟨g.edges, g.blocks, rfl, hedgeIds, hblockIds, hblocks, by simp⟩
  | cons e es ih =>
      intro g hedgeIds hblockIds hblocks hes
      obtain ⟨hslot, hvac | ⟨i, b, o, hdata⟩⟩ := hes e (by simp)
      · obtain ⟨edges, blocks, heq, h₁, h₂, h₃, h₄⟩ := ih hedgeIds hblockIds hblocks
          (fun x hx => hes x (List.mem_cons_of_mem e hx))
        refine ⟨edges, blocks, ?_, h₁, h₂, h₃, ?_⟩
        · rw [List.foldl_cons, releaseBlockEdge_vacant hslot hvac]
          exact heq
        · intro x
          rw [h₄]
          by_cases hxe : x = e
          · subst hxe
            simp [hvac]
          · simp [hxe]
      · have hview : g.edges.view Edge.pointer e = some (i, b, o) :=
          Arena.view_eq_some.mpr ⟨_, hdata, rfl⟩
        have hstep := releaseBlockEdge_eq hslot hblockIds hblocks hdata
        have hedges : (g.releaseBlockEdge e).edges.data = Function.update g.edges.data e none := by
          rw [hstep]
          exact Arena.data_remove _ _
        have hblocksData : (g.releaseBlockEdge e).blocks.data =
            Function.update g.blocks.data b none := by
          rw [hstep]
          change ((g.blocks.modify b _).remove b).2.data = _
          rw [Arena.data_remove, Arena.data_modify, Function.update_idem]
        obtain ⟨edges, blocks, heq, h₁, h₂, h₃, h₄⟩ := ih (g := g.releaseBlockEdge e)
          (by rw [hstep]; exact hedgeIds.remove e)
          (by rw [hstep]; exact (hblockIds.modify b (by intro v; rfl)).remove b)
          (by
            rw [hblocksData, Arena.view_update hedges]
            exact hblocks.release hview)
          (by
            intro x hx
            obtain ⟨hxslot, hxdata⟩ := hes x (List.mem_cons_of_mem e hx)
            refine ⟨hxslot, ?_⟩
            rw [hedges]
            by_cases hxe : x = e
            · subst hxe
              simp
            · rwa [Function.update_of_ne hxe])
        refine ⟨edges, blocks, ?_, ?_, ?_, h₃, ?_⟩
        · rw [List.foldl_cons, heq, hstep]
        · rw [hstep] at h₁
          exact h₁
        · rw [hstep] at h₂
          exact h₂
        · intro x
          rw [h₄, hedges]
          by_cases hxe : x = e
          · subst hxe
            simp
          · simp [hxe]

/-- Clearing slots that a view does not see. -/
theorem view_clear {T β : Type} {CAPACITY : Nat} {a b : Arena T CAPACITY} {f : T → Option β}
    (es : List Nat) (hdata : ∀ x, b.data x = if x ∈ es then none else a.data x)
    (hes : ∀ x ∈ es, (a.data x).bind f = none) : b.view f = a.view f := by
  funext x
  rw [Arena.view, Arena.view, hdata]
  split
  · rename_i hx
    rw [hes x hx]
    rfl
  · rfl

section CollectInode

variable {g : TypeGraph} {t : InodeId} {i : Inode}

/-- What a block edge is. -/
theorem Inv.pointer_iff (h : Inv g) {x : EdgeId} {j : InodeId} {b : BlockId} {o : Nat} :
    g.edges.view Edge.pointer x = some (j, b, o) ↔ g.edges.data x = some (.pointsTo x j b o) := by
  rw [Arena.view_eq_some]
  constructor
  · rintro ⟨v, hv, hpointer⟩
    cases v with
    | pointsTo id src tgt offset =>
        have hid : id = x := h.edgeIds.id_eq hv
        cases hpointer
        rw [hv, hid]
    | _ => simp [Edge.pointer] at hpointer
  · intro hv
    exact ⟨_, hv, rfl⟩

/-- What a recorded block edge is. -/
theorem Inv.pointsTo_iff (h : Inv g) {x : EdgeId} {j : InodeId} :
    x ∈ SetIndex.members g.inodePointsTo j ↔ ∃ b o, g.edges.data x = some (.pointsTo x j b o) := by
  rw [h.side.pointers j x]
  constructor
  · rintro ⟨⟨j', b, o⟩, hv, rfl⟩
    exact ⟨b, o, h.pointer_iff.mp hv⟩
  · rintro ⟨b, o, hx⟩
    exact ⟨(j, b, o), h.pointer_iff.mpr hx, rfl⟩

/-- What deleting an inode changes: its record, its block edges with their blocks, and its index keys. -/
theorem Inv.collectInode_eq (h : Inv g) (t : InodeId) :
    ∃ edges blocks, g.collectInode t =
        { g with
          inodePointsTo := g.inodePointsTo.erase t
          edges := edges
          blocks := blocks
          inodes := (g.inodes.remove (idToArena t)).2
          inodeIncomingContains := g.inodeIncomingContains.erase t } ∧
      Numbered edges Edge.id g.nextEdge ∧ Numbered blocks Block.id g.nextBlock ∧
      BlocksOk (edges.view Edge.pointer) blocks.data ∧
      ∀ x, edges.data x =
        if x ∈ SetIndex.members g.inodePointsTo t then none else g.edges.data x := by
  obtain ⟨edges, blocks, heq, hedgeIds, hblockIds, hblocks, hdata⟩ :=
    foldl_releaseBlockEdge (SetIndex.members g.inodePointsTo t).toList
      (g := { g with inodePointsTo := g.inodePointsTo.erase t }) h.edgeIds h.blockIds h.side.blocks (by
        intro x hx
        obtain ⟨b, o, hx⟩ := h.pointsTo_iff.mp (ExtTreeSet.mem_toList.mp hx)
        exact ⟨h.edgeIds.slot hx, .inr ⟨t, b, o, hx⟩⟩)
  refine ⟨edges, blocks, ?_, hedgeIds, hblockIds, hblocks, ?_⟩
  · unfold TypeGraph.collectInode
    simp only [heq, TypeGraph.removeInode]
  · intro x
    rw [hdata x]
    simp only [ExtTreeSet.mem_toList]

/-- Deleting the block edges of an inode leaves the views of all other edges alone. -/
theorem Inv.view_collect (h : Inv g) {β : Type} {f : Edge → Option β}
    (hf : ∀ e i b o, f (.pointsTo e i b o) = none) {edges : Arena Edge EDGE_CAPACITY}
    (hdata : ∀ x, edges.data x =
      if x ∈ SetIndex.members g.inodePointsTo t then none else g.edges.data x) :
    edges.view f = g.edges.view f := by
  refine view_clear (SetIndex.members g.inodePointsTo t).toList ?_ ?_
  · intro x
    rw [hdata x]
    simp only [ExtTreeSet.mem_toList]
  · intro x hx
    obtain ⟨b, o, hx⟩ := h.pointsTo_iff.mp (ExtTreeSet.mem_toList.mp hx)
    rw [hx]
    exact hf _ _ _ _

/-- The block index without the key of the deleted inode. -/
theorem Inv.pointers_collect (h : Inv g) {edges : Arena Edge EDGE_CAPACITY}
    (hdata : ∀ x, edges.data x =
      if x ∈ SetIndex.members g.inodePointsTo t then none else g.edges.data x) :
    Indexes (g.inodePointsTo.erase t) (edges.view Edge.pointer) (fun w => w.1) := by
  intro j x
  rw [SetIndex.mem_members_erase, h.side.pointers j x]
  constructor
  · rintro ⟨hne, w, hw, rfl⟩
    refine ⟨w, ?_, rfl⟩
    rw [Arena.view, hdata x, if_neg]
    · exact hw
    · rw [h.side.pointers t x]
      rintro ⟨w', hw', rfl⟩
      rw [hw] at hw'
      cases hw'
      exact hne rfl
  · rintro ⟨w, hw, rfl⟩
    rw [Arena.view, hdata x] at hw
    split at hw
    · cases hw
    · rename_i hnot
      refine ⟨?_, w, hw, rfl⟩
      rintro rfl
      exact hnot ((h.side.pointers w.1 x).mpr ⟨w, hw, rfl⟩)

/-- Nothing leads to an inode without links, unless it is a directory. -/
theorem Inv.no_entry_of_no_links (h : Inv g) (ht : g.getInode t = some i) (hkind : i.vtype ≠ .directory)
    (hlinks : linksTo g.entries (idToArena t) = ∅) {x d t' n} (hx : g.entries x = some (d, t', n)) :
    idToArena t' ≠ idToArena t := by
  intro hslot
  by_cases hn : n = ".."
  · subst hn
    have hdir := h.shape.dotdot_kind hx
    rw [hslot] at hdir
    have hk := getInode_kind ht
    change g.kinds (idToArena t) = some .directory at hdir
    rw [hk] at hdir
    exact hkind (Option.some.inj hdir)
  · have hmem : x ∈ linksTo g.entries (idToArena t) :=
      mem_linksTo.mpr ⟨h.entry_lt hx, _, hx, hslot, hn⟩
    rw [hlinks] at hmem
    exact absurd hmem (Finset.notMem_empty x)

/-- Deleting an inode without names keeps the invariant. -/
theorem Inv.collectInode (h : Inv g) (ht : g.getInode t = some i) (hkind : i.vtype ≠ .directory)
    (hlinks : linksTo g.entries (idToArena t) = ∅) : Inv (g.collectInode t) := by
  obtain ⟨edges, blocks, heq, hedgeIds, hblockIds, hblocks, hdata⟩ := h.collectInode_eq t
  have hnone : ∀ {x d t' n}, g.entries x = some (d, t', n) → idToArena t' ≠ idToArena t :=
    h.no_entry_of_no_links ht hkind hlinks
  rw [heq]
  have hentries : edges.view Edge.entry = g.entries := h.view_collect (fun _ _ _ _ => rfl) hdata
  have hkinds : (g.inodes.remove (idToArena t)).2.view (fun i => some i.vtype) =
      Function.update g.kinds (idToArena t) none := Arena.view_update (Arena.data_remove _ _)
  refine
    { inodeIds := h.inodeIds.remove _
      dirIds := h.dirIds
      capIds := h.capIds
      blockIds := hblockIds
      edgeIds := hedgeIds
      index := ?_
      dirKeys := h.dirKeys
      dirIdx := h.dirIdx
      shape := ?_
      links := ?_
      side := ?_
      roots := h.roots
      noDelegation := h.noDelegation }
  · change NamesOk (edges.view Edge.entry) g.dirContains (g.inodeIncomingContains.erase t) g.dirNameIdx
    rw [hentries]
    refine ⟨h.index.out, h.index.incoming.forget ?_, h.index.names⟩
    rintro x ⟨d, t', n⟩ hx rfl
    exact hnone hx rfl
  · have hshape := h.shape.forgetInode (getInode_kind ht) hkind fun x d t' n hx => hnone hx
    rw [TypeGraph.shape, TypeGraph.entries, TypeGraph.kinds]
    rw [hentries, hkinds]
    exact hshape
  · intro s j hs
    change (g.inodes.remove (idToArena t)).2.data s = some j at hs
    change j.linkCount = (linksTo (edges.view Edge.entry) s).card
    rw [Arena.data_remove] at hs
    rw [hentries]
    by_cases hst : s = idToArena t
    · subst hst
      rw [Function.update_self] at hs
      cases hs
    · rw [Function.update_of_ne hst] at hs
      exact h.links hs
  · exact
      { pointers := h.pointers_collect hdata
        blocks := hblocks
        xattrs := by
          rw [h.view_collect (fun _ _ _ _ => rfl) hdata]
          exact h.side.xattrs
        grants := by
          rw [h.view_collect (fun _ _ _ _ => rfl) hdata]
          exact h.side.grants
        others := by
          rw [h.view_collect (fun _ _ _ _ => rfl) hdata]
          exact h.side.others }

end CollectInode

/-- Take the last name away from an inode and delete it: unlink of a last link. -/
def TypeGraph.dropLastName (g : TypeGraph) (e : EdgeId) (d : DirId) (t : InodeId) : TypeGraph :=
  (g.dropName e d t).collectInode t

/-- Deleting an inode with its last name keeps the invariant. -/
theorem Inv.dropLastName {g : TypeGraph} {e : EdgeId} {d : DirId} {t : InodeId} {n : String} {i : Inode}
    (h : Inv g) (he : g.entries e = some (d, t, n)) (hn : UserName n) (ht : g.getInode t = some i)
    (hkind : i.vtype ≠ .directory) (hlast : decrement32 i.linkCount = 0) :
    Inv (g.dropLastName e d t) := by
  have hdropped := h.dropName he hn ht hkind
  have hlinks : linksTo (g.dropName e d t).entries (idToArena t) = ∅ := by
    rw [← Finset.card_eq_zero, h.dropName_entries he, ← h.decrement_link he hn ht, hlast]
  refine hdropped.collectInode (i := { i with linkCount := decrement32 i.linkCount }) ?_ hkind hlinks
  rw [TypeGraph.getInode, Arena.get_eq_data, h.dropName_inodes he ht, Function.update_self]

/-- The entries left by the unlink of a last link. -/
theorem Inv.dropLastName_entries {g : TypeGraph} {e : EdgeId} {d : DirId} {t : InodeId} {n : String}
    {i : Inode} (h : Inv g) (he : g.entries e = some (d, t, n)) (hn : UserName n)
    (ht : g.getInode t = some i) (hkind : i.vtype ≠ .directory) :
    (g.dropLastName e d t).entries = Function.update g.entries e none := by
  have hdropped := h.dropName he hn ht hkind
  obtain ⟨edges, _, heq, _, _, _, hdata⟩ := hdropped.collectInode_eq t
  rw [TypeGraph.dropLastName, heq, ← h.dropName_entries he]
  exact hdropped.view_collect (fun _ _ _ _ => rfl) hdata

/-- The inodes left by the unlink of a last link. -/
theorem Inv.dropLastName_inodes {g : TypeGraph} {e : EdgeId} {d : DirId} {t : InodeId} {n : String}
    {i : Inode} (h : Inv g) (he : g.entries e = some (d, t, n)) (hn : UserName n)
    (ht : g.getInode t = some i) (hkind : i.vtype ≠ .directory) :
    (g.dropLastName e d t).inodes.data = Function.update g.inodes.data (idToArena t) none := by
  obtain ⟨_, _, heq, _⟩ := (h.dropName he hn ht hkind).collectInode_eq t
  rw [TypeGraph.dropLastName, heq]
  change ((g.dropName e d t).inodes.remove (idToArena t)).2.data = _
  rw [Arena.data_remove, h.dropName_inodes he ht, Function.update_idem]

/-! ### An empty directory -/

/-- Detaching a name takes it out of the pool and out of its three indexes. -/
theorem detachContains_entry {g : TypeGraph} {e e' d t n} (hslot : idToArena e = e)
    (hdata : g.edges.data e = some (.contains e' d t n)) :
    g.detachContains e =
      { g with
        edges := (g.edges.remove e).2
        dirNameIdx := g.dirNameIdx.erase (d, n)
        dirContains := SetIndex.drop g.dirContains d e
        inodeIncomingContains := SetIndex.drop g.inodeIncomingContains t e } := by
  unfold TypeGraph.detachContains
  rw [removeEdge_entry hslot hdata]

theorem detachContains_vacant {g : TypeGraph} {e : EdgeId} (hslot : idToArena e = e)
    (hdata : g.edges.data e = none) : g.detachContains e = g := by
  unfold TypeGraph.detachContains
  rw [removeEdge_vacant hslot hdata]

/-- The loop over the edges of a removed directory: the names of the list are gone from the pool and from
    the indexes, everything else stays. -/
theorem foldl_detachContains (es : List EdgeId) : ∀ {g : TypeGraph},
    Numbered g.edges Edge.id g.nextEdge →
    NamesOk g.entries g.dirContains g.inodeIncomingContains g.dirNameIdx →
    (∀ e ∈ es, idToArena e = e ∧ IsName (g.edges.data e)) →
    ∃ edges dirContains inodeIncomingContains dirNameIdx,
      es.foldl TypeGraph.detachContains g =
        { g with
          edges := edges
          dirContains := dirContains
          inodeIncomingContains := inodeIncomingContains
          dirNameIdx := dirNameIdx } ∧
      Numbered edges Edge.id g.nextEdge ∧
      NamesOk (edges.view Edge.entry) dirContains inodeIncomingContains dirNameIdx ∧
      (∀ x, edges.data x = if x ∈ es then none else g.edges.data x) ∧
      ∀ d, d ∈ dirContains ↔ d ∈ g.dirContains := by
  induction es with
  | nil =>
      intro g hedgeIds hindex _
      exact ⟨g.edges, g.dirContains, g.inodeIncomingContains, g.dirNameIdx, rfl, hedgeIds, hindex,
        by simp, fun _ => Iff.rfl⟩
  | cons e es ih =>
      intro g hedgeIds hindex hes
      obtain ⟨hslot, hname⟩ := hes e (by simp)
      cases hdata : g.edges.data e with
      | none =>
          obtain ⟨edges, dc, inc, idx, heq, h₁, h₂, h₃, h₄⟩ := ih hedgeIds hindex
            (fun x hx => hes x (List.mem_cons_of_mem e hx))
          refine ⟨edges, dc, inc, idx, ?_, h₁, h₂, ?_, h₄⟩
          · rw [List.foldl_cons, detachContains_vacant hslot hdata]
            exact heq
          · intro x
            rw [h₃]
            by_cases hxe : x = e
            · subst hxe
              simp [hdata]
            · simp [hxe]
      | some v =>
          obtain ⟨e', d, t, n, rfl⟩ := hname v hdata
          have hentry : g.entries e = some (d, t, n) := Arena.view_eq_some.mpr ⟨_, hdata, rfl⟩
          have hstep := detachContains_entry hslot hdata
          have hedges : (g.detachContains e).edges.data = Function.update g.edges.data e none := by
            rw [hstep]
            exact Arena.data_remove _ _
          obtain ⟨edges, dc, inc, idx, heq, h₁, h₂, h₃, h₄⟩ := ih (g := g.detachContains e)
            (by rw [hstep]; exact hedgeIds.remove e)
            (by
              rw [TypeGraph.entries, Arena.view_update hedges, hstep]
              exact hindex.remove hentry)
            (by
              intro x hx
              obtain ⟨hxslot, hxname⟩ := hes x (List.mem_cons_of_mem e hx)
              refine ⟨hxslot, ?_⟩
              rw [hedges]
              by_cases hxe : x = e
              · subst hxe
                rw [Function.update_self]
                exact isName_none
              · rwa [Function.update_of_ne hxe])
          refine ⟨edges, dc, inc, idx, ?_, ?_, h₂, ?_, ?_⟩
          · rw [List.foldl_cons, heq, hstep]
          · rw [hstep] at h₁
            exact h₁
          · intro x
            rw [h₃, hedges]
            by_cases hxe : x = e
            · subst hxe
              simp
            · simp [hxe]
          · intro x
            rw [h₄, hstep]
            exact SetIndex.mem_drop

/-- Remove a directory with its inode and all its edges: what rmdir does. -/
def TypeGraph.dropDir (g : TypeGraph) (parentDir : DirId) (name : String) (ti : InodeId) (td : DirId) :
    TypeGraph :=
  let g := (g.rmdirEdges parentDir name ti td).foldl TypeGraph.detachContains g
  let g := g.removeInode ti
  let g := g.removeDir td
  let g := { g with dirContains := g.dirContains.erase td }
  { g with inodeIncomingContains := g.inodeIncomingContains.erase ti }

section DropDir

variable {g : TypeGraph} {p td : DirId} {ti : InodeId} {n : String} {e : EdgeId}

/-- The edges rmdir removes are the entry and the edges out of the directory. -/
theorem Inv.mem_rmdirEdges (h : Inv g) (he : g.entries e = some (p, ti, n)) (td : DirId) (x : EdgeId) :
    x ∈ g.rmdirEdges p n ti td ↔ x = e ∨ ∃ t m, g.entries x = some (td, t, m) := by
  unfold TypeGraph.rmdirEdges
  rw [List.mem_append, List.mem_map]
  refine or_congr ?_ ?_
  · constructor
    · rintro ⟨⟨y, t, m⟩, hy, rfl⟩
      obtain ⟨hmem, hp⟩ := List.mem_filter.mp hy
      obtain ⟨rfl, rfl⟩ := of_decide_eq_true hp
      exact h.shape.names (h.mem_dirEntries.mp hmem) he
    · rintro rfl
      exact ⟨(x, ti, n), List.mem_filter.mpr ⟨h.mem_dirEntries.mpr he, by simp⟩, rfl⟩
  · rw [ExtTreeSet.mem_toList, h.index.out td x]
    constructor
    · rintro ⟨⟨d, t, m⟩, hx, rfl⟩
      exact ⟨t, m, hx⟩
    · rintro ⟨t, m, hx⟩
      exact ⟨(td, t, m), hx, rfl⟩

/-- What rmdir changes. -/
theorem Inv.dropDir_eq (h : Inv g) (he : g.entries e = some (p, ti, n)) (htd : g.dirInode td = some ti) :
    ∃ edges dirContains inodeIncomingContains dirNameIdx,
      g.dropDir p n ti td =
        { g with
          edges := edges
          dirContains := dirContains.erase td
          inodeIncomingContains := inodeIncomingContains.erase ti
          dirNameIdx := dirNameIdx
          inodes := (g.inodes.remove ti).2
          dirs := (g.dirs.remove td).2
          dirForInodeIdx := g.dirForInodeIdx.erase ti } ∧
      Numbered edges Edge.id g.nextEdge ∧
      NamesOk (edges.view Edge.entry) dirContains inodeIncomingContains dirNameIdx ∧
      (∀ x, edges.data x = if x ∈ g.rmdirEdges p n ti td then none else g.edges.data x) ∧
      ∀ d, d ∈ dirContains ↔ d ∈ g.dirContains := by
  have hdir : (g.dirs.remove td).1 = some ⟨td, ti⟩ := by
    have hget := h.getDir_eq htd
    rw [TypeGraph.getDir, Arena.get_eq_data] at hget
    obtain ⟨d, hd, _⟩ := Arena.view_eq_some.mp htd
    rw [h.dirIds.slot hd] at hget
    rw [Arena.remove_fst, hget]
  have htdslot : idToArena td = td := by
    obtain ⟨d, hd, _⟩ := Arena.view_eq_some.mp htd
    exact h.dirIds.slot hd
  obtain ⟨edges, dc, inc, idx, heq, h₁, h₂, h₃, h₄⟩ :=
    foldl_detachContains (g.rmdirEdges p n ti td) h.edgeIds h.index (by
      intro x hx
      have hentry : ∃ w, g.entries x = some w := by
        rcases (h.mem_rmdirEdges he _ _).mp hx with rfl | ⟨t, m, hx⟩
        · exact ⟨_, he⟩
        · exact ⟨_, hx⟩
      obtain ⟨⟨d, t, m⟩, hw⟩ := hentry
      refine ⟨h.entry_slot hw, ?_⟩
      rw [h.entries_iff.mp hw]
      exact isName_contains _ _ _ _)
  refine ⟨edges, dc, inc, idx, ?_, h₁, h₂, h₃, h₄⟩
  unfold TypeGraph.dropDir TypeGraph.removeDir TypeGraph.removeInode
  rw [heq]
  simp only [htdslot, h.shape.dir_slot htd]
  cases hr : g.dirs.remove td with
  | mk removed rest =>
      rw [hr] at hdir
      change removed = _ at hdir
      subst hdir
      rfl

/-- Removing an empty directory keeps the invariant. -/
theorem Inv.dropDir (h : Inv g) (he : g.entries e = some (p, ti, n)) (hn : UserName n)
    (htd : g.dirInode td = some ti) (hempty : ∀ x t m, g.entries x = some (td, t, m) → ¬ UserName m) :
    Inv (g.dropDir p n ti td) := by
  obtain ⟨edges, dc, inc, idx, heq, hedgeIds, hindex, hdata, hkeys⟩ := h.dropDir_eq he htd
  have hmem := h.mem_rmdirEdges he td
  have htislot : idToArena ti = ti := h.shape.dir_slot htd
  have hentries : ∀ x, edges.view Edge.entry x =
      if x ∈ g.rmdirEdges p n ti td then none else g.entries x := by
    intro x
    rw [Arena.view, hdata x]
    split <;> rfl
  have hkinds : (g.inodes.remove ti).2.view (fun i => some i.vtype) =
      Function.update g.kinds ti none := Arena.view_update (Arena.data_remove _ _)
  have hdirInode : (g.dirs.remove td).2.view (fun d => some d.inodeId) =
      Function.update g.dirInode td none := Arena.view_update (Arena.data_remove _ _)
  -- the entries that are left: all but the removed one and those out of the directory
  have hdropped : edges.view Edge.entry =
      ((g.shape.setEdge e none).dropEdgesFrom td).edge := by
    funext x
    rw [hentries x]
    change _ = Option.filter (fun w => decide (w.1 ≠ td)) (Function.update g.entries e none x)
    by_cases hx : x = e
    · subst hx
      rw [if_pos ((hmem x).mpr (.inl rfl)), Function.update_self]
      rfl
    · rw [Function.update_of_ne hx]
      cases hw : g.entries x with
      | none => simp
      | some w =>
          by_cases hsrc : w.1 = td
          · rw [if_pos ((hmem x).mpr (.inr ⟨w.2.1, w.2.2, by rw [hw, ← hsrc]⟩))]
            simp [Option.filter, hsrc]
          · rw [if_neg]
            · simp [Option.filter, hsrc]
            · intro hxm
              rcases (hmem x).mp hxm with rfl | ⟨t, m, hxw⟩
              · exact hx rfl
              · rw [hw] at hxw
                cases hxw
                exact hsrc rfl
  have hshape := h.shape.removeDir he hn htd hempty
  have hgone : ∀ {x d t m}, edges.view Edge.entry x = some (d, t, m) → d ≠ td ∧ t ≠ ti := by
    intro x d t m hx
    constructor
    · rintro rfl
      rw [hdropped] at hx
      obtain ⟨_, hne⟩ := Option.filter_eq_some_iff.mp hx
      simp at hne
    · rintro rfl
      rw [hdropped] at hx
      obtain ⟨k, hk, _⟩ := hshape.tgt_live hx
      rw [htislot] at hk
      change Function.update g.kinds t none t = some k at hk
      rw [Function.update_self] at hk
      cases hk
  have hnames : ∀ x ∈ g.rmdirEdges p n ti td, IsName (g.edges.data x) := by
    intro x hx
    rcases (hmem x).mp hx with rfl | ⟨t, m, hx⟩
    · rw [h.entries_iff.mp he]
      exact isName_contains _ _ _ _
    · rw [h.entries_iff.mp hx]
      exact isName_contains _ _ _ _
  rw [heq]
  refine
    { inodeIds := h.inodeIds.remove _
      dirIds := h.dirIds.remove _
      capIds := h.capIds
      blockIds := h.blockIds
      edgeIds := hedgeIds
      index := ?_
      dirKeys := ?_
      dirIdx := ?_
      shape := ?_
      links := ?_
      side := ?_
      roots := h.roots
      noDelegation := h.noDelegation }
  · refine ⟨hindex.out.forget ?_, hindex.incoming.forget ?_, hindex.names⟩
    · rintro x ⟨d, t, m⟩ hx
      exact (hgone hx).1
    · rintro x ⟨d, t, m⟩ hx
      exact (hgone hx).2
  · intro d
    change d ∈ dc.erase td ↔ ∃ i, (g.dirs.remove td).2.view (fun d => some d.inodeId) d = some i
    rw [hdirInode, ExtTreeMap.mem_erase, hkeys, h.dirKeys, Function.update_apply]
    by_cases hd : d = td
    · subst hd
      simp
    · simp [hd, Ne.symm hd]
  · change UniqueIndex (g.dirForInodeIdx.erase ti) ((g.dirs.remove td).2.view fun d => some d.inodeId) _
    rw [hdirInode]
    exact h.dirIdx.remove htd
  · rw [TypeGraph.shape, TypeGraph.entries, TypeGraph.dirInode, TypeGraph.kinds]
    rw [hdropped, hdirInode, hkinds]
    exact hshape
  · intro s j hs
    change (g.inodes.remove ti).2.data s = some j at hs
    change j.linkCount = (linksTo (edges.view Edge.entry) s).card
    rw [Arena.data_remove] at hs
    have hst : s ≠ ti := by
      rintro rfl
      rw [Function.update_self] at hs
      cases hs
    rw [Function.update_of_ne hst] at hs
    suffices hsame : linksTo (edges.view Edge.entry) s = linksTo g.entries s by
      rw [hsame]
      exact h.links hs
    ext x
    rw [mem_linksTo, mem_linksTo, hentries x]
    -- a removed edge counts for no inode but the removed one
    split
    · rename_i hx
      constructor
      · rintro ⟨_, w, hw, _⟩
        cases hw
      · rintro ⟨hlt, ⟨d, t, m⟩, hw, hslot, hm⟩
        exfalso
        rcases (hmem x).mp hx with rfl | ⟨t', m', hx⟩
        · rw [he] at hw
          cases hw
          exact hst (hslot.symm.trans htislot)
        · rw [hx] at hw
          cases hw
          by_cases hdot : m = "."
          · subst hdot
            have htgt := h.shape.dot_tgt hx
            change g.dirInode td = some t at htgt
            rw [htd] at htgt
            cases htgt
            exact hst (hslot.symm.trans htislot)
          · exact hempty _ _ _ hx ⟨hdot, hm⟩
    · exact Iff.rfl
  · have hview : ∀ {β : Type} {f : Edge → Option β}, (∀ e d t n, f (.contains e d t n) = none) →
        edges.view f = g.edges.view f :=
      fun hf => view_clear _ hdata fun x hx => (hnames x hx).view hf
    exact
      { pointers := by
          rw [hview fun _ _ _ _ => rfl]
          exact h.side.pointers
        blocks := by
          rw [hview fun _ _ _ _ => rfl]
          exact h.side.blocks
        xattrs := by
          rw [hview fun _ _ _ _ => rfl]
          exact h.side.xattrs
        grants := by
          rw [hview fun _ _ _ _ => rfl]
          exact h.side.grants
        others := by
          rw [hview fun _ _ _ _ => rfl]
          exact h.side.others }

/-- The entries left by rmdir. -/
theorem Inv.dropDir_entries (h : Inv g) (he : g.entries e = some (p, ti, n)) (htd : g.dirInode td = some ti)
    {x : EdgeId} {w : DirId × InodeId × String} :
    (g.dropDir p n ti td).entries x = some w ↔ x ≠ e ∧ w.1 ≠ td ∧ g.entries x = some w := by
  obtain ⟨edges, _, _, _, heq, _, _, hdata, _⟩ := h.dropDir_eq he htd
  have hview : edges.view Edge.entry x =
      if x ∈ g.rmdirEdges p n ti td then none else g.entries x := by
    rw [Arena.view, hdata x]
    split <;> rfl
  rw [heq]
  change edges.view Edge.entry x = some w ↔ _
  rw [hview]
  constructor
  · intro hx
    split at hx
    · cases hx
    · rename_i hnot
      rw [h.mem_rmdirEdges he, not_or] at hnot
      exact ⟨hnot.1, fun hsrc => hnot.2 ⟨w.2.1, w.2.2, by rw [hx, ← hsrc]⟩, hx⟩
  · rintro ⟨hxe, hsrc, hx⟩
    rw [if_neg]
    · exact hx
    · rw [h.mem_rmdirEdges he]
      rintro (hxe' | ⟨t, m, hx'⟩)
      · exact hxe hxe'
      · rw [hx] at hx'
        cases hx'
        exact hsrc rfl

/-- The directories left by rmdir. -/
theorem Inv.dropDir_dirInode (h : Inv g) (he : g.entries e = some (p, ti, n))
    (htd : g.dirInode td = some ti) :
    (g.dropDir p n ti td).dirInode = Function.update g.dirInode td none := by
  obtain ⟨_, _, _, _, heq, _⟩ := h.dropDir_eq he htd
  rw [heq]
  exact Arena.view_update (Arena.data_remove _ _)

/-- The inodes left by rmdir. -/
theorem Inv.dropDir_inodes (h : Inv g) (he : g.entries e = some (p, ti, n))
    (htd : g.dirInode td = some ti) :
    (g.dropDir p n ti td).inodes.data = Function.update g.inodes.data ti none := by
  obtain ⟨_, _, _, _, heq, _⟩ := h.dropDir_eq he htd
  rw [heq]
  exact Arena.data_remove _ _

end DropDir

end SotFs
