/-
Module: SotFs.Proofs.SideEdits
Layer: Proofs
Purpose: The edits that touch no name, and why each keeps the invariant: attribute changes of an inode, a
  new block, a new or removed extended attribute, and the replacement of the grants of an ACL. The loops of
  setacl (over the old grants, over their capabilities, over the new entries) have a lemma each.
Trusted boundary: none
Main exports: Inv.modifyInode, TypeGraph.attachBlock, Inv.attachBlock, TypeGraph.attachXattr,
  Inv.attachXattr, Inv.dropXattr, Inv.dropGrants
-/
import SotFs.Proofs.RemovalEdits

namespace SotFs

open Std (ExtTreeMap ExtTreeSet)
open Relation Foundation

/-! ### Inode attributes -/

/-- Changing attributes of an inode other than its id, kind and link count keeps the invariant. -/
theorem Inv.modifyInode {g : TypeGraph} (h : Inv g) (t : InodeId) {f : Inode → Inode}
    (hf : ∀ i, (f i).id = i.id ∧ (f i).vtype = i.vtype ∧ (f i).linkCount = i.linkCount) :
    Inv (g.modifyInode t f) := by
  have hkinds : (g.modifyInode t f).kinds = g.kinds := by
    refine Arena.view_update_eq (Arena.data_modify _ _ _) ?_
    cases g.inodes.data (idToArena t) with
    | none => rfl
    | some i => simp [(hf i).2.1]
  exact
    { edgeIds := h.edgeIds
      index := h.index
      inodeIds := h.inodeIds.modify _ fun i => (hf i).1
      dirIds := h.dirIds
      capIds := h.capIds
      blockIds := h.blockIds
      dirKeys := h.dirKeys
      dirIdx := h.dirIdx
      shape := by
        rw [TypeGraph.shape, hkinds]
        exact h.shape
      links := by
        intro s j hs
        change (g.inodes.modify (idToArena t) f).data s = some j at hs
        rw [Arena.data_modify, Function.update_apply] at hs
        split at hs
        · rename_i hst
          obtain ⟨i, hi, rfl⟩ := Option.map_eq_some_iff.mp hs
          rw [(hf i).2.2, hst]
          exact h.links hi
        · exact h.links hs
      side := h.side
      roots := h.roots
      noDelegation := h.noDelegation }

/-! ### A new edge that is no name -/

section NewEdge

variable {g : TypeGraph} {v : Edge}

/-- A view that does not show a new edge stays. -/
theorem Inv.view_newEdge (h : Inv g) (hcap : g.nextEdge < EDGE_CAPACITY) {β : Type}
    {f : Edge → Option β} (hv : f v = none) :
    (g.edges.insertAt (idToArena g.nextEdge) v).2.view f = g.edges.view f := by
  refine Arena.view_update_eq (h.edgeIds.insert_data hcap v) ?_
  rw [h.edgeIds.fresh le_rfl, Option.bind_some, Option.bind_none, hv]

/-- A view that shows a new edge grows by it. -/
theorem Inv.view_newEdge_some (h : Inv g) (hcap : g.nextEdge < EDGE_CAPACITY) {β : Type}
    {f : Edge → Option β} {w : β} (hv : f v = some w) :
    (g.edges.insertAt (idToArena g.nextEdge) v).2.view f =
      Function.update (g.edges.view f) g.nextEdge (some w) := by
  rw [← hv]
  exact Arena.view_update (h.edgeIds.insert_data hcap v)

/-- No view shows an edge id that was not issued yet. -/
theorem Inv.view_fresh (h : Inv g) {β : Type} (f : Edge → Option β) : g.edges.view f g.nextEdge = none := by
  rw [Arena.view, h.edgeIds.fresh le_rfl]
  rfl

end NewEdge

/-! ### Blocks -/

/-- Make a block and point an inode at it: what write_block does. -/
def TypeGraph.attachBlock (g : TypeGraph) (t : InodeId) (offset sectorStart sectorCount : Nat) :
    TypeGraph :=
  let g' := { g with nextBlock := g.nextBlock + 1, nextEdge := g.nextEdge + 1 }
  let g' := g'.insertBlock g.nextBlock ⟨g.nextBlock, sectorStart, sectorCount, 1⟩
  let g' := g'.insertEdge g.nextEdge (.pointsTo g.nextEdge t g.nextBlock offset)
  { g' with inodePointsTo := SetIndex.add g'.inodePointsTo t g.nextEdge }

/-- One more block with its one edge. -/
theorem BlocksOk.attach {pointers : EdgeId → Option (InodeId × BlockId × Nat)}
    {blocks : BlockId → Option Block} (h : BlocksOk pointers blocks) {e : EdgeId} {b : BlockId}
    (hb : blocks b = none) {blk : Block} (hblk : blk.refcount = 1) (he : pointers e = none)
    (t : InodeId) (o : Nat) :
    BlocksOk (Function.update pointers e (some (t, b, o))) (Function.update blocks b (some blk)) := by
  have hnew : ∀ {x i o'}, pointers x ≠ some (i, b, o') := by
    intro x i o' hx
    obtain ⟨_, hlive⟩ := h.live hx
    rw [hb] at hlive
    cases hlive
  constructor
  case live =>
    intro x i c o' hx
    rw [Function.update_apply] at hx
    rw [Function.update_apply]
    split at hx
    · cases hx
      exact ⟨blk, if_pos rfl⟩
    · split
      · exact ⟨blk, rfl⟩
      · exact h.live hx
  case unique =>
    intro x y i i' c o' o'' hx hy
    rw [Function.update_apply] at hx hy
    split at hx
    · rename_i hxe
      cases hx
      split at hy
      · rename_i hye
        rw [hxe, hye]
      · exact absurd hy hnew
    · split at hy
      · cases hy
        exact absurd hx hnew
      · exact h.unique hx hy
  case used =>
    intro c blk' hc
    rw [Function.update_apply] at hc
    split at hc
    · rename_i hcb
      cases hc
      exact ⟨hblk, e, t, o, by rw [Function.update_self, hcb]⟩
    · obtain ⟨hone, x, i, o', hx⟩ := h.used hc
      refine ⟨hone, x, i, o', ?_⟩
      rw [Function.update_of_ne]
      · exact hx
      · rintro rfl
        rw [he] at hx
        cases hx

/-- A new block keeps the invariant. -/
theorem Inv.attachBlock {g : TypeGraph} (h : Inv g) (hb : g.nextBlock < NODE_CAPACITY)
    (he : g.nextEdge < EDGE_CAPACITY) (t : InodeId) (offset sectorStart sectorCount : Nat) :
    Inv (g.attachBlock t offset sectorStart sectorCount) := by
  have hentries : (g.attachBlock t offset sectorStart sectorCount).entries = g.entries :=
    h.view_newEdge he rfl
  exact
    { edgeIds := h.edgeIds.insert he rfl
      index := by
        rw [hentries]
        exact h.index
      inodeIds := h.inodeIds
      dirIds := h.dirIds
      capIds := h.capIds
      blockIds := h.blockIds.insert hb rfl
      dirKeys := h.dirKeys
      dirIdx := h.dirIdx
      shape := by
        rw [TypeGraph.shape, hentries]
        exact h.shape
      links := by
        rw [hentries]
        exact h.links
      side :=
        { pointers := by
            change Indexes (SetIndex.add g.inodePointsTo t g.nextEdge)
              ((g.edges.insertAt (idToArena g.nextEdge) _).2.view Edge.pointer) _
            rw [h.view_newEdge_some (f := Edge.pointer) he rfl]
            exact h.side.pointers.insert (h.view_fresh _) (t, g.nextBlock, offset)
          blocks := by
            change BlocksOk ((g.edges.insertAt (idToArena g.nextEdge) _).2.view Edge.pointer)
              (g.blocks.insertAt (idToArena g.nextBlock) _).2.data
            rw [h.view_newEdge_some (f := Edge.pointer) he rfl, h.blockIds.insert_data hb]
            exact h.side.blocks.attach (h.blockIds.fresh le_rfl) rfl (h.view_fresh _) t offset
          xattrs := by
            change XattrsOk ((g.edges.insertAt (idToArena g.nextEdge) _).2.view Edge.attachment) _ _ _
            rw [h.view_newEdge he rfl]
            exact h.side.xattrs
          grants := by
            change GrantsOk ((g.edges.insertAt (idToArena g.nextEdge) _).2.view Edge.grant) _ _
            rw [h.view_newEdge he rfl]
            exact h.side.grants
          others := by
            change ∀ e, (g.edges.insertAt (idToArena g.nextEdge) _).2.view Edge.other e = none
            rw [h.view_newEdge he rfl]
            exact h.side.others }
      roots := h.roots
      noDelegation := h.noDelegation }

/-! ### Extended attributes -/

/-- Make an attribute and attach it to an inode: what setxattr does for a new name. -/
def TypeGraph.attachXattr (g : TypeGraph) (t : InodeId) (ns : XAttrNamespace) (name : String)
    (value : List UInt8) : TypeGraph :=
  let g' := { g with nextXattr := g.nextXattr + 1, nextEdge := g.nextEdge + 1 }
  let g' := { g' with xattrs := g'.xattrs.insert g.nextXattr ⟨g.nextXattr, ns, name, value⟩ }
  let g' := g'.insertEdge g.nextEdge (.hasXattr g.nextEdge t g.nextXattr)
  { g' with inodeXattrs := SetIndex.add g'.inodeXattrs t g.nextXattr }

section XattrsOk

variable {attachments : EdgeId → Option (InodeId × XAttrId)} {xattrs : ExtTreeMap XAttrId XAttr}
  {inodeXattrs : SetIndex InodeId XAttrId} {nextXattr : Nat}

/-- One more attribute with its one edge. -/
theorem XattrsOk.attach (h : XattrsOk attachments xattrs inodeXattrs nextXattr) {e : EdgeId}
    (he : attachments e = none) (t : InodeId) (xa : XAttr) :
    XattrsOk (Function.update attachments e (some (t, nextXattr))) (xattrs.insert nextXattr xa)
      (SetIndex.add inodeXattrs t nextXattr) (nextXattr + 1) := by
  have hupdate : ∀ {x w}, Function.update attachments e (some (t, nextXattr)) x = some w ↔
      (x = e ∧ w = (t, nextXattr)) ∨ attachments x = some w := by
    intro x w
    simp only [Function.update_apply]
    grind
  have hnew : ∀ {x i}, attachments x ≠ some (i, nextXattr) := by
    intro x i hx
    exact absurd (h.lt_next (h.live.mpr ⟨x, i, hx⟩)) (lt_irrefl _)
  constructor
  case owned =>
    intro i x
    simp only [SetIndex.mem_members_add, h.owned, hupdate, Prod.mk.injEq]
    constructor
    · rintro (⟨rfl, rfl⟩ | ⟨y, hy⟩)
      · exact ⟨e, .inl ⟨rfl, rfl, rfl⟩⟩
      · exact ⟨y, .inr hy⟩
    · rintro ⟨y, ⟨_, rfl, rfl⟩ | hy⟩
      · exact .inl ⟨rfl, rfl⟩
      · exact .inr ⟨y, hy⟩
  case unique =>
    intro x y i i' a hx hy
    rcases hupdate.mp hx with ⟨rfl, hw⟩ | hx
    · rcases hupdate.mp hy with ⟨rfl, _⟩ | hy
      · rfl
      · cases hw
        exact absurd hy hnew
    · rcases hupdate.mp hy with ⟨_, hw⟩ | hy
      · cases hw
        exact absurd hx hnew
      · exact h.unique hx hy
  case live =>
    intro x
    simp only [ExtTreeMap.mem_insert, Std.compare_eq_iff_eq, h.live, hupdate, Prod.mk.injEq]
    constructor
    · rintro (rfl | ⟨y, i, hy⟩)
      · exact ⟨e, t, .inl ⟨rfl, rfl, rfl⟩⟩
      · exact ⟨y, i, .inr hy⟩
    · rintro ⟨y, i, ⟨_, _, rfl⟩ | hy⟩
      · exact .inl rfl
      · exact .inr ⟨y, i, hy⟩
  case lt_next =>
    intro x hx
    rw [ExtTreeMap.mem_insert, Std.compare_eq_iff_eq] at hx
    rcases hx with rfl | hx
    · exact Nat.lt_succ_self _
    · exact Nat.lt_succ_of_lt (h.lt_next hx)

/-- One attribute and its edge fewer. -/
theorem XattrsOk.detach (h : XattrsOk attachments xattrs inodeXattrs nextXattr) {e : EdgeId} {t : InodeId}
    {a : XAttrId} (he : attachments e = some (t, a)) :
    XattrsOk (Function.update attachments e none) (xattrs.erase a) (SetIndex.drop inodeXattrs t a)
      nextXattr := by
  have hupdate : ∀ {x w}, Function.update attachments e none x = some w ↔
      x ≠ e ∧ attachments x = some w := by
    intro x w
    simp only [Function.update_apply]
    grind
  have honly : ∀ {x i}, attachments x = some (i, a) → x = e := fun hx => h.unique hx he
  constructor
  case owned =>
    intro i x
    simp only [SetIndex.mem_members_drop, h.owned, hupdate]
    constructor
    · rintro ⟨⟨y, hy⟩, hnot⟩
      refine ⟨y, ?_, hy⟩
      rintro rfl
      rw [he] at hy
      cases hy
      exact hnot ⟨rfl, rfl⟩
    · rintro ⟨y, hye, hy⟩
      refine ⟨⟨y, hy⟩, ?_⟩
      rintro ⟨rfl, rfl⟩
      exact hye (honly hy)
  case unique =>
    intro x y i i' b hx hy
    exact h.unique (hupdate.mp hx).2 (hupdate.mp hy).2
  case live =>
    intro x
    simp only [ExtTreeMap.mem_erase, ne_eq, Std.compare_eq_iff_eq, h.live, hupdate]
    constructor
    · rintro ⟨hne, y, i, hy⟩
      refine ⟨y, i, ?_, hy⟩
      rintro rfl
      rw [he] at hy
      cases hy
      exact hne rfl
    · rintro ⟨y, i, hye, hy⟩
      refine ⟨?_, y, i, hy⟩
      rintro rfl
      exact hye (honly hy)
  case lt_next =>
    intro x hx
    exact h.lt_next (ExtTreeMap.mem_of_mem_erase hx)

/-- A new value of an attribute. -/
theorem XattrsOk.modify (h : XattrsOk attachments xattrs inodeXattrs nextXattr) (a : XAttrId)
    (f : XAttr → XAttr) : XattrsOk attachments (xattrs.modify a f) inodeXattrs nextXattr where
  owned := h.owned
  unique := h.unique
  live := ExtTreeMap.mem_modify.trans h.live
  lt_next hx := h.lt_next (ExtTreeMap.mem_modify.mp hx)

end XattrsOk

section Xattrs

variable {g : TypeGraph}

/-- A new attribute keeps the invariant. -/
theorem Inv.attachXattr (h : Inv g) (he : g.nextEdge < EDGE_CAPACITY) (t : InodeId)
    (ns : XAttrNamespace) (name : String) (value : List UInt8) : Inv (g.attachXattr t ns name value) := by
  have hentries : (g.attachXattr t ns name value).entries = g.entries := h.view_newEdge he rfl
  exact
    { edgeIds := h.edgeIds.insert he rfl
      index := by
        rw [hentries]
        exact h.index
      inodeIds := h.inodeIds
      dirIds := h.dirIds
      capIds := h.capIds
      blockIds := h.blockIds
      dirKeys := h.dirKeys
      dirIdx := h.dirIdx
      shape := by
        rw [TypeGraph.shape, hentries]
        exact h.shape
      links := by
        rw [hentries]
        exact h.links
      side :=
        { pointers := by
            change Indexes _ ((g.edges.insertAt (idToArena g.nextEdge) _).2.view Edge.pointer) _
            rw [h.view_newEdge he rfl]
            exact h.side.pointers
          blocks := by
            change BlocksOk ((g.edges.insertAt (idToArena g.nextEdge) _).2.view Edge.pointer) _
            rw [h.view_newEdge he rfl]
            exact h.side.blocks
          xattrs := by
            change XattrsOk ((g.edges.insertAt (idToArena g.nextEdge) _).2.view Edge.attachment) _ _ _
            rw [h.view_newEdge_some (f := Edge.attachment) he rfl]
            exact h.side.xattrs.attach (h.view_fresh _) t _
          grants := by
            change GrantsOk ((g.edges.insertAt (idToArena g.nextEdge) _).2.view Edge.grant) _ _
            rw [h.view_newEdge he rfl]
            exact h.side.grants
          others := by
            change ∀ e, (g.edges.insertAt (idToArena g.nextEdge) _).2.view Edge.other e = none
            rw [h.view_newEdge he rfl]
            exact h.side.others }
      roots := h.roots
      noDelegation := h.noDelegation }

/-- A new attribute value keeps the invariant. -/
theorem Inv.modifyXattr (h : Inv g) (a : XAttrId) (f : XAttr → XAttr) :
    Inv { g with xattrs := g.xattrs.modify a f } :=
  { h with
    side :=
      { pointers := h.side.pointers
        blocks := h.side.blocks
        xattrs := h.side.xattrs.modify a f
        grants := h.side.grants
        others := h.side.others } }

/-- What an attachment is. -/
theorem Inv.attachment_iff (h : Inv g) {e : EdgeId} {t : InodeId} {a : XAttrId} :
    g.edges.view Edge.attachment e = some (t, a) ↔ g.edges.data e = some (.hasXattr e t a) := by
  rw [Arena.view_eq_some]
  constructor
  · rintro ⟨v, hv, hattachment⟩
    cases v with
    | hasXattr id src tgt =>
        have hid : id = e := h.edgeIds.id_eq hv
        cases hattachment
        rw [hv, hid]
    | _ => simp [Edge.attachment] at hattachment
  · intro hv
    exact ⟨_, hv, rfl⟩

/-- The scan of the edge pool finds the edge of an attached attribute. -/
theorem Inv.findXattrEdge_eq (h : Inv g) {e : EdgeId} {t : InodeId} {a : XAttrId}
    (he : g.edges.view Edge.attachment e = some (t, a)) : g.findXattrEdge t a = some e := by
  have hdata := h.attachment_iff.mp he
  unfold TypeGraph.findXattrEdge
  have honly : ∀ {x v}, g.edges.data x = some v → v.attachment = some (t, a) →
      (x, v) = (e, .hasXattr e t a) := by
    intro x v hv hattached
    have hxe : x = e := h.side.xattrs.unique (Arena.view_eq_some.mpr ⟨v, hv, hattached⟩) he
    rw [hxe, hdata] at hv
    cases hv
    rw [hxe]
  rw [(find?_eq_some_iff_of_unique (x := (e, .hasXattr e t a)) ?_).mpr]
  · rfl
  · exact ⟨Arena.mem_iter.mpr hdata, by simp⟩
  · rintro ⟨x, v⟩ hy ⟨x', v'⟩ hz hpy hpz
    cases v with
    | hasXattr id src tgt =>
        obtain ⟨rfl, rfl⟩ := of_decide_eq_true hpy
        cases v' with
        | hasXattr id' src' tgt' =>
            obtain ⟨rfl, rfl⟩ := of_decide_eq_true hpz
            rw [honly (Arena.mem_iter.mp hy) rfl, honly (Arena.mem_iter.mp hz) rfl]
        | _ => cases hpz
    | _ => cases hpy

/-- An attribute that is found by name is attached. -/
theorem Inv.attached_of_findXattr (h : Inv g) {t : InodeId} {ns : XAttrNamespace} {name : String}
    {a : XAttrId} (hfind : g.findXattr t ns name = some a) :
    ∃ e, g.edges.view Edge.attachment e = some (t, a) :=
  h.side.xattrs.owned.mp (ExtTreeSet.mem_toList.mp (List.mem_of_find?_eq_some hfind))

/-- A view that does not show a removed edge stays. -/
theorem view_removeEdge {β : Type} {f : Edge → Option β} {e : EdgeId} {v : Edge}
    (hdata : g.edges.data e = some v) (hv : f v = none) :
    (g.edges.remove e).2.view f = g.edges.view f := by
  refine Arena.view_update_eq (Arena.data_remove _ _) ?_
  rw [hdata, Option.bind_some, Option.bind_none, hv]

/-- Drop an attribute of an inode and its edge: what removexattr does. -/
def TypeGraph.dropXattr (g : TypeGraph) (t : InodeId) (a : XAttrId) : TypeGraph :=
  let g := { g with xattrs := g.xattrs.erase a }
  let g := { g with inodeXattrs := SetIndex.drop g.inodeXattrs t a }
  match g.findXattrEdge t a with
  | some eid => (g.removeEdge eid).2
  | none => g

/-- What dropping an attribute changes. -/
theorem Inv.dropXattr_eq (h : Inv g) {e : EdgeId} {t : InodeId} {a : XAttrId}
    (he : g.edges.view Edge.attachment e = some (t, a)) :
    g.dropXattr t a =
      { g with xattrs := g.xattrs.erase a
               inodeXattrs := SetIndex.drop g.inodeXattrs t a
               edges := (g.edges.remove e).2 } := by
  have hdata := h.attachment_iff.mp he
  have hfind : ({ g with xattrs := g.xattrs.erase a,
                         inodeXattrs := SetIndex.drop g.inodeXattrs t a }).findXattrEdge t a = some e :=
    h.findXattrEdge_eq he
  unfold TypeGraph.dropXattr
  simp only [hfind]
  rw [removeEdge_other (v := .hasXattr e t a) (h.edgeIds.slot hdata) _ rfl]
  exact hdata

/-- A removed attribute keeps the invariant. -/
theorem Inv.dropXattr (h : Inv g) {e : EdgeId} {t : InodeId} {a : XAttrId}
    (he : g.edges.view Edge.attachment e = some (t, a)) : Inv (g.dropXattr t a) := by
  rw [h.dropXattr_eq he]
  have hdata := h.attachment_iff.mp he
  have hentries : (g.edges.remove e).2.view Edge.entry = g.entries := view_removeEdge hdata rfl
  exact
    { edgeIds := h.edgeIds.remove e
      index := by
        rw [TypeGraph.entries, hentries]
        exact h.index
      inodeIds := h.inodeIds
      dirIds := h.dirIds
      capIds := h.capIds
      blockIds := h.blockIds
      dirKeys := h.dirKeys
      dirIdx := h.dirIdx
      shape := by
        rw [TypeGraph.shape, TypeGraph.entries, hentries]
        exact h.shape
      links := by
        rw [TypeGraph.entries, hentries]
        exact h.links
      side :=
        { pointers := by
            rw [view_removeEdge hdata rfl]
            exact h.side.pointers
          blocks := by
            rw [view_removeEdge hdata rfl]
            exact h.side.blocks
          xattrs := by
            rw [Arena.view_update (Arena.data_remove _ _)]
            exact h.side.xattrs.detach he
          grants := by
            rw [view_removeEdge hdata rfl]
            exact h.side.grants
          others := by
            rw [view_removeEdge hdata rfl]
            exact h.side.others }
      roots := h.roots
      noDelegation := h.noDelegation }

end Xattrs

/-! ### Grants -/

section Grants

variable {g : TypeGraph}

/-- What a grant is. -/
theorem Inv.grant_iff (h : Inv g) {e : EdgeId} {c : CapId} {t : InodeId} {r : Rights} :
    g.edges.view Edge.grant e = some (c, t, r) ↔ g.edges.data e = some (.grants e c t r) := by
  rw [Arena.view_eq_some]
  constructor
  · rintro ⟨v, hv, hgrant⟩
    cases v with
    | grants id src tgt rights =>
        have hid : id = e := h.edgeIds.id_eq hv
        cases hgrant
        rw [hv, hid]
    | _ => simp [Edge.grant] at hgrant
  · intro hv
    exact ⟨_, hv, rfl⟩

/-- The grants the purge of setacl collects. -/
theorem Inv.mem_grantsInto (h : Inv g) {t : InodeId} {e : EdgeId} :
    e ∈ g.grantsInto t ↔ ∃ c r, g.edges.data e = some (.grants e c t r) := by
  unfold TypeGraph.grantsInto
  rw [List.mem_filterMap]
  constructor
  · rintro ⟨⟨x, v⟩, hmem, hsome⟩
    have hv := Arena.mem_iter.mp hmem
    cases v with
    | grants id src tgt rights =>
        simp only [] at hsome
        split at hsome
        · rename_i htgt
          cases hsome
          have hid : id = e := h.edgeIds.id_eq hv
          exact ⟨src, rights, by rw [hv, hid, htgt]⟩
        · cases hsome
    | _ => cases hsome
  · rintro ⟨c, r, he⟩
    exact ⟨(e, .grants e c t r), Arena.mem_iter.mpr he, by simp⟩

/-- The loop over the old grants: they are gone from the pool and from the index, and the capabilities they
    came from are noted. -/
theorem foldl_purgeGrant (es : List EdgeId) : ∀ (caps : List CapId) {g : TypeGraph},
    Numbered g.edges Edge.id g.nextEdge →
    UniqueIndex g.capGrants (g.edges.view Edge.grant) (fun w => w.1) →
    (∀ e ∈ es, idToArena e = e ∧
      (g.edges.data e = none ∨ ∃ c t r, g.edges.data e = some (.grants e c t r))) →
    ∃ edges capGrants dropped,
      es.foldl TypeGraph.purgeGrant (caps, g) =
        (caps ++ dropped, { g with edges := edges, capGrants := capGrants }) ∧
      Numbered edges Edge.id g.nextEdge ∧
      UniqueIndex capGrants (edges.view Edge.grant) (fun w => w.1) ∧
      (∀ x, edges.data x = if x ∈ es then none else g.edges.data x) ∧
      ∀ c, c ∈ dropped ↔ ∃ e ∈ es, ∃ t r, g.edges.view Edge.grant e = some (c, t, r) := by
  induction es with
  | nil =>
      intro caps g hedgeIds hindex _
      exact ⟨g.edges, g.capGrants, [], by simp, hedgeIds, hindex, by simp, by simp⟩
  | cons e es ih =>
      intro caps g hedgeIds hindex hes
      obtain ⟨hslot, hvac | ⟨c, t, r, hdata⟩⟩ := hes e (by simp)
      · have hstep : TypeGraph.purgeGrant (caps, g) e = (caps, g) := by
          unfold TypeGraph.purgeGrant
          simp only [removeEdge_vacant hslot hvac]
        obtain ⟨edges, capGrants, dropped, heq, h₁, h₂, h₃, h₄⟩ := ih caps hedgeIds hindex
          (fun x hx => hes x (List.mem_cons_of_mem e hx))
        refine ⟨edges, capGrants, dropped, ?_, h₁, h₂, ?_, ?_⟩
        · rw [List.foldl_cons, hstep]
          exact heq
        · intro x
          rw [h₃]
          by_cases hxe : x = e
          · subst hxe
            simp [hvac]
          · simp [hxe]
        · intro c
          rw [h₄]
          have hnone : g.edges.view Edge.grant e = none := by
            rw [Arena.view, hvac]
            rfl
          simp [hnone]
      · have hgrant : g.edges.view Edge.grant e = some (c, t, r) :=
          Arena.view_eq_some.mpr ⟨_, hdata, rfl⟩
        have hstep : TypeGraph.purgeGrant (caps, g) e = (caps ++ [c],
            { g with edges := (g.edges.remove e).2, capGrants := g.capGrants.erase c }) := by
          unfold TypeGraph.purgeGrant
          simp only [removeEdge_other hslot hdata rfl]
        have hview : (g.edges.remove e).2.view Edge.grant =
            Function.update (g.edges.view Edge.grant) e none := Arena.view_update (Arena.data_remove _ _)
        obtain ⟨edges, capGrants, dropped, heq, h₁, h₂, h₃, h₄⟩ := ih (caps ++ [c])
          (g := { g with edges := (g.edges.remove e).2, capGrants := g.capGrants.erase c })
          (hedgeIds.remove e)
          (by
            rw [hview]
            exact hindex.remove hgrant)
          (by
            intro x hx
            obtain ⟨hxslot, hxdata⟩ := hes x (List.mem_cons_of_mem e hx)
            refine ⟨hxslot, ?_⟩
            rw [Arena.data_remove]
            by_cases hxe : x = e
            · subst hxe
              simp
            · rwa [Function.update_of_ne hxe])
        refine ⟨edges, capGrants, c :: dropped, ?_, h₁, h₂, ?_, ?_⟩
        · rw [List.foldl_cons, hstep, heq, List.append_assoc, List.singleton_append]
        · intro x
          rw [h₃, Arena.data_remove]
          by_cases hxe : x = e
          · subst hxe
            simp
          · simp [hxe]
        · intro c'
          rw [List.mem_cons, h₄, hview]
          constructor
          · rintro (rfl | ⟨x, hx, t', r', hxg⟩)
            · exact ⟨e, by simp, t, r, hgrant⟩
            · rw [Function.update_apply] at hxg
              split at hxg
              · cases hxg
              · exact ⟨x, List.mem_cons_of_mem e hx, t', r', hxg⟩
          · rintro ⟨x, hx, t', r', hxg⟩
            by_cases hxe : x = e
            · subst hxe
              rw [hgrant] at hxg
              cases hxg
              exact .inl rfl
            · refine .inr ⟨x, ?_, t', r', ?_⟩
              · exact (List.mem_cons.mp hx).resolve_left hxe
              · rw [Function.update_of_ne hxe]
                exact hxg

/-- The loop over the noted capabilities: they are gone from the pool. -/
theorem foldl_removeCap (cs : List CapId) : ∀ {g : TypeGraph}, Numbered g.caps Capability.id g.nextCap →
    (∀ c ∈ cs, idToArena c = c) →
    ∃ caps, cs.foldl TypeGraph.removeCap g = { g with caps := caps } ∧
      Numbered caps Capability.id g.nextCap ∧
      ∀ c, caps.data c = if c ∈ cs then none else g.caps.data c := by
  induction cs with
  | nil =>
      intro g hcapIds _
      exact ⟨g.caps, rfl, hcapIds, by simp⟩
  | cons c cs ih =>
      intro g hcapIds hcs
      have hslot := hcs c (by simp)
      have hstep : g.removeCap c = { g with caps := (g.caps.remove c).2 } := by
        rw [TypeGraph.removeCap, hslot]
      obtain ⟨caps, heq, h₁, h₂⟩ := ih (g := { g with caps := (g.caps.remove c).2 }) (hcapIds.remove c)
        (fun x hx => hcs x (List.mem_cons_of_mem c hx))
      refine ⟨caps, ?_, h₁, ?_⟩
      · rw [List.foldl_cons, hstep, heq]
      · intro x
        rw [h₂, Arena.data_remove]
        by_cases hxc : x = c
        · subst hxc
          simp
        · simp [hxc]

/-- Drop every grant into an inode with the capability it came from: the first half of setacl. -/
def TypeGraph.dropGrants (g : TypeGraph) (t : InodeId) : TypeGraph :=
  let (capsToDrop, g) := (g.grantsInto t).foldl TypeGraph.purgeGrant ([], g)
  capsToDrop.foldl TypeGraph.removeCap g

/-- What dropping the grants changes. -/
theorem Inv.dropGrants_eq (h : Inv g) (t : InodeId) :
    ∃ edges caps capGrants,
      g.dropGrants t = { g with edges := edges, caps := caps, capGrants := capGrants } ∧
      Numbered edges Edge.id g.nextEdge ∧ Numbered caps Capability.id g.nextCap ∧
      GrantsOk (edges.view Edge.grant) caps.data capGrants ∧
      ∀ x, edges.data x = if x ∈ g.grantsInto t then none else g.edges.data x := by
  obtain ⟨edges, capGrants, dropped, heq, hedgeIds, hindex, hdata, hdropped⟩ :=
    foldl_purgeGrant (g.grantsInto t) [] h.edgeIds h.side.grants.index (by
      intro e he
      obtain ⟨c, r, hdata⟩ := h.mem_grantsInto.mp he
      exact ⟨h.edgeIds.slot hdata, .inr ⟨c, t, r, hdata⟩⟩)
  have hslots : ∀ c ∈ dropped, idToArena c = c := by
    intro c hc
    obtain ⟨e, _, t', r, hgrant⟩ := (hdropped c).mp hc
    obtain ⟨cap, hcap⟩ := h.side.grants.live hgrant
    exact h.capIds.slot hcap
  obtain ⟨caps, hcapsEq, hcapIds, hcaps⟩ :=
    foldl_removeCap dropped (g := { g with edges := edges, capGrants := capGrants }) h.capIds hslots
  refine ⟨edges, caps, capGrants, ?_, hedgeIds, hcapIds, ⟨hindex, ?_, ?_⟩, hdata⟩
  · unfold TypeGraph.dropGrants
    rw [heq]
    exact hcapsEq
  · intro e c t' r he
    rw [Arena.view, hdata e] at he
    split at he
    · cases he
    · rename_i hnot
      obtain ⟨cap, hcap⟩ := h.side.grants.live he
      refine ⟨cap, ?_⟩
      rw [hcaps c, if_neg]
      · exact hcap
      · intro hc
        obtain ⟨e', he'mem, t'', r', he'⟩ := (hdropped c).mp hc
        have hee : e' = e := h.side.grants.index.inj he' he rfl
        exact hnot (hee ▸ he'mem)
  · intro c cap hc
    rw [hcaps c] at hc
    split at hc
    · cases hc
    · rename_i hnot
      obtain ⟨e, t', r, he⟩ := h.side.grants.used hc
      refine ⟨e, t', r, ?_⟩
      rw [Arena.view, hdata e, if_neg]
      · exact he
      · intro hmem
        exact hnot ((hdropped c).mpr ⟨e, hmem, t', r, he⟩)

/-- Dropping the grants into an inode keeps the invariant. -/
theorem Inv.dropGrants (h : Inv g) (t : InodeId) : Inv (g.dropGrants t) := by
  obtain ⟨edges, caps, capGrants, heq, hedgeIds, hcapIds, hgrants, hdata⟩ := h.dropGrants_eq t
  have hview : ∀ {β : Type} {f : Edge → Option β}, (∀ e c i r, f (.grants e c i r) = none) →
      edges.view f = g.edges.view f := by
    intro β f hf
    refine view_clear _ hdata ?_
    intro x hx
    obtain ⟨c, r, hx⟩ := h.mem_grantsInto.mp hx
    rw [hx]
    exact hf _ _ _ _
  have hentries : edges.view Edge.entry = g.entries := hview fun _ _ _ _ => rfl
  rw [heq]
  exact
    { edgeIds := hedgeIds
      index := by
        rw [TypeGraph.entries, hentries]
        exact h.index
      inodeIds := h.inodeIds
      dirIds := h.dirIds
      capIds := hcapIds
      blockIds := h.blockIds
      dirKeys := h.dirKeys
      dirIdx := h.dirIdx
      shape := by
        rw [TypeGraph.shape, TypeGraph.entries, hentries]
        exact h.shape
      links := by
        rw [TypeGraph.entries, hentries]
        exact h.links
      side :=
        { pointers := by
            rw [hview fun _ _ _ _ => rfl]
            exact h.side.pointers
          blocks := by
            rw [hview fun _ _ _ _ => rfl]
            exact h.side.blocks
          xattrs := by
            rw [hview fun _ _ _ _ => rfl]
            exact h.side.xattrs
          grants := hgrants
          others := by
            rw [hview fun _ _ _ _ => rfl]
            exact h.side.others }
      roots := h.roots
      noDelegation := h.noDelegation }

/-- Make a capability and grant it an inode: what setacl does for one entry. -/
def TypeGraph.attachGrant (g : TypeGraph) (t : InodeId) (rights : Rights) : TypeGraph :=
  let g' := { g with nextCap := g.nextCap + 1, nextEdge := g.nextEdge + 1 }
  let g' := g'.insertCap g.nextCap ⟨g.nextCap, rights, 0⟩
  let g' := g'.insertEdge g.nextEdge (.grants g.nextEdge g.nextCap t rights)
  { g' with capGrants := g'.capGrants.insert g.nextCap g.nextEdge }

/-- One round of the loop over the new entries: a grant for an entry with rights, nothing for a mask or an
    entry without. -/
theorem grantEntry_eq (g : TypeGraph) (t : InodeId) (mask : Option Rights) (entry : AclEntry) :
    TypeGraph.grantEntry t mask g entry =
      if entry.tag = .mask ∨ (effectiveRights mask entry).bits = 0 then g
      else g.attachGrant t (effectiveRights mask entry) := by
  unfold TypeGraph.grantEntry
  by_cases htag : entry.tag = .mask
  · rw [if_pos htag, if_pos (.inl htag)]
  · rw [if_neg htag]
    by_cases hbits : (effectiveRights mask entry).bits = 0
    · have hskip : entry.tag = .mask ∨ (effectiveRights mask entry).bits = 0 := .inr hbits
      rw [if_pos hskip]
      exact if_pos hbits
    · rw [if_neg (not_or.mpr ⟨htag, hbits⟩)]
      exact if_neg hbits

/-- One more grant with its one capability. -/
theorem GrantsOk.attach {grants : EdgeId → Option (CapId × InodeId × Rights)}
    {caps : CapId → Option Capability} {capGrants : ExtTreeMap CapId EdgeId}
    (h : GrantsOk grants caps capGrants) {e : EdgeId} {c : CapId} (hc : caps c = none)
    (he : grants e = none) (cap : Capability) (t : InodeId) (r : Rights) :
    GrantsOk (Function.update grants e (some (c, t, r))) (Function.update caps c (some cap))
      (capGrants.insert c e) := by
  have hnew : ∀ {x t' r'}, grants x ≠ some (c, t', r') := by
    intro x t' r' hx
    obtain ⟨_, hlive⟩ := h.live hx
    rw [hc] at hlive
    cases hlive
  constructor
  case index =>
    refine h.index.insert he (v := (c, t, r)) ?_
    rintro x ⟨c', t', r'⟩ hx rfl
    exact hnew hx
  case live =>
    intro x c' t' r' hx
    rw [Function.update_apply] at hx
    rw [Function.update_apply]
    split at hx
    · cases hx
      exact ⟨cap, if_pos rfl⟩
    · split
      · exact ⟨cap, rfl⟩
      · exact h.live hx
  case used =>
    intro c' cap' hc'
    rw [Function.update_apply] at hc'
    split at hc'
    · rename_i hcc
      exact ⟨e, t, r, by rw [Function.update_self, hcc]⟩
    · obtain ⟨x, t', r', hx⟩ := h.used hc'
      refine ⟨x, t', r', ?_⟩
      rw [Function.update_of_ne]
      · exact hx
      · rintro rfl
        rw [he] at hx
        cases hx

/-- A new grant keeps the invariant. -/
theorem Inv.attachGrant (h : Inv g) (hc : g.nextCap < NODE_CAPACITY) (he : g.nextEdge < EDGE_CAPACITY)
    (t : InodeId) (rights : Rights) : Inv (g.attachGrant t rights) := by
  have hentries : (g.attachGrant t rights).entries = g.entries := h.view_newEdge he rfl
  exact
    { edgeIds := h.edgeIds.insert he rfl
      index := by
        rw [hentries]
        exact h.index
      inodeIds := h.inodeIds
      dirIds := h.dirIds
      capIds := h.capIds.insert hc rfl
      blockIds := h.blockIds
      dirKeys := h.dirKeys
      dirIdx := h.dirIdx
      shape := by
        rw [TypeGraph.shape, hentries]
        exact h.shape
      links := by
        rw [hentries]
        exact h.links
      side :=
        { pointers := by
            change Indexes _ ((g.edges.insertAt (idToArena g.nextEdge) _).2.view Edge.pointer) _
            rw [h.view_newEdge he rfl]
            exact h.side.pointers
          blocks := by
            change BlocksOk ((g.edges.insertAt (idToArena g.nextEdge) _).2.view Edge.pointer) _
            rw [h.view_newEdge he rfl]
            exact h.side.blocks
          xattrs := by
            change XattrsOk ((g.edges.insertAt (idToArena g.nextEdge) _).2.view Edge.attachment) _ _ _
            rw [h.view_newEdge he rfl]
            exact h.side.xattrs
          grants := by
            change GrantsOk ((g.edges.insertAt (idToArena g.nextEdge) _).2.view Edge.grant)
              (g.caps.insertAt (idToArena g.nextCap) _).2.data _
            rw [h.view_newEdge_some (f := Edge.grant) he rfl, h.capIds.insert_data hc]
            exact h.side.grants.attach (h.capIds.fresh le_rfl) (h.view_fresh _) _ t rights
          others := by
            change ∀ e, (g.edges.insertAt (idToArena g.nextEdge) _).2.view Edge.other e = none
            rw [h.view_newEdge he rfl]
            exact h.side.others }
      roots := h.roots
      noDelegation := h.noDelegation }

/-- The loop over the new entries only counts the allocators up. -/
theorem foldl_grantEntry_le (t : InodeId) (mask : Option Rights) (entries : List AclEntry) :
    ∀ g : TypeGraph, g.nextCap ≤ (entries.foldl (TypeGraph.grantEntry t mask) g).nextCap ∧
      g.nextEdge ≤ (entries.foldl (TypeGraph.grantEntry t mask) g).nextEdge := by
  induction entries with
  | nil => exact fun g => ⟨le_rfl, le_rfl⟩
  | cons entry entries ih =>
      intro g
      obtain ⟨hcap, hedge⟩ := ih (TypeGraph.grantEntry t mask g entry)
      have hstep : g.nextCap ≤ (TypeGraph.grantEntry t mask g entry).nextCap ∧
          g.nextEdge ≤ (TypeGraph.grantEntry t mask g entry).nextEdge := by
        rw [grantEntry_eq]
        split
        · exact ⟨le_rfl, le_rfl⟩
        · exact ⟨Nat.le_succ _, Nat.le_succ _⟩
      exact ⟨hstep.1.trans hcap, hstep.2.trans hedge⟩

end Grants

end SotFs
