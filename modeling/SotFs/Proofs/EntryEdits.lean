/-
Module: SotFs.Proofs.EntryEdits
Layer: Proofs
Purpose: The edits that enter a name, and why each keeps the invariant: a new file or symlink, a new
  directory with its "." and "..", and one more name of an existing inode. The first sections say what any
  edit of one name does to the link counts and that it leaves blocks, attributes and grants alone.
Trusted boundary: none
Main exports: linksTo_insert_card, linksTo_remove_card, SideOk.editName, TypeGraph.enterInode,
  Inv.enterInode, TypeGraph.enterDir, Inv.enterDir, TypeGraph.enterLink, Inv.enterLink
-/
import SotFs.Proofs.Invariant

namespace SotFs

open Std (ExtTreeMap ExtTreeSet)
open Relation Foundation

/-! ### Link counts under an edit of one entry -/

section LinkCounts

variable {entries : EdgeId → Option (DirId × InodeId × String)} {e : EdgeId} {s : Nat}
  {w w' : DirId × InodeId × String}

theorem mem_linksTo {x : EdgeId} :
    x ∈ linksTo entries s ↔ x < EDGE_CAPACITY ∧ ∃ w, entries x = some w ∧ CountsFor s w := by
  unfold linksTo
  rw [Finset.mem_filter, Finset.mem_range, Option.any_eq_true]
  simp

/-- A new entry that counts for a slot joins its links. -/
theorem linksTo_insert (hlt : e < EDGE_CAPACITY) (hw : CountsFor s w) :
    linksTo (Function.update entries e (some w)) s = insert e (linksTo entries s) := by
  ext x
  rw [Finset.mem_insert, mem_linksTo, mem_linksTo]
  by_cases hx : x = e
  · subst hx
    simp [hlt, hw]
  · simp [hx]

/-- A new entry that does not count for a slot leaves its links alone. -/
theorem linksTo_insert_other (hvac : entries e = none) (hw : ¬ CountsFor s w) :
    linksTo (Function.update entries e (some w)) s = linksTo entries s := by
  ext x
  rw [mem_linksTo, mem_linksTo]
  by_cases hx : x = e
  · subst hx
    simp [hvac, hw]
  · simp [hx]

/-- A new entry is one more link to its target, unless it is a "..". -/
theorem linksTo_insert_card (hlt : e < EDGE_CAPACITY) (hvac : entries e = none) :
    (linksTo (Function.update entries e (some w)) s).card =
      (linksTo entries s).card + if CountsFor s w then 1 else 0 := by
  split
  · rename_i hw
    have hnot : e ∉ linksTo entries s := by
      rw [mem_linksTo, hvac]
      simp
    rw [linksTo_insert hlt hw, Finset.card_insert_of_notMem hnot]
  · rename_i hw
    rw [linksTo_insert_other hvac hw, Nat.add_zero]

/-- An entry less is one link less to its target, unless it was a "..". -/
theorem linksTo_remove_card (hlt : e < EDGE_CAPACITY) (hv : entries e = some w) :
    (linksTo (Function.update entries e none) s).card + (if CountsFor s w then 1 else 0) =
      (linksTo entries s).card := by
  have hvac : Function.update entries e none e = none := Function.update_self _ _ _
  rw [← linksTo_insert_card hlt hvac, Function.update_idem, Function.update_eq_self_iff.mpr hv.symm]

/-- An entry that changes without counting for another slot leaves the links alone. -/
theorem linksTo_replace (hv : entries e = some w) (hw : CountsFor s w' ↔ CountsFor s w) :
    linksTo (Function.update entries e (some w')) s = linksTo entries s := by
  ext x
  rw [mem_linksTo, mem_linksTo]
  by_cases hx : x = e
  · subst hx
    simp [hv, hw]
  · simp [hx]

end LinkCounts

/-! ### What an edit of one name leaves alone -/

/-- Whether an edge slot is vacant or holds a name. -/
def IsName (v : Option Edge) : Prop := ∀ x, v = some x → ∃ e d t n, x = .contains e d t n

theorem isName_none : IsName none := by
  intro x hx
  cases hx

theorem isName_contains (e d t n) : IsName (some (.contains e d t n)) := by
  rintro x ⟨⟩
  exact ⟨e, d, t, n, rfl⟩

section SideOk

variable {edges edges' : Arena Edge EDGE_CAPACITY} {blocks : BlockId → Option Block}
  {caps : CapId → Option Capability} {inodePointsTo : SetIndex InodeId EdgeId}
  {capGrants : ExtTreeMap CapId EdgeId} {xattrs : ExtTreeMap XAttrId XAttr}
  {inodeXattrs : SetIndex InodeId XAttrId} {nextXattr : Nat}

/-- Names show in none of the other views. -/
theorem IsName.view {β : Type} {f : Edge → Option β} (hf : ∀ e d t n, f (.contains e d t n) = none)
    {v : Option Edge} (hv : IsName v) : v.bind f = none := by
  cases v with
  | none => rfl
  | some x =>
      obtain ⟨e, d, t, n, rfl⟩ := hv x rfl
      exact hf e d t n

/-- An edit of one slot between names leaves every view of the other edges alone. -/
theorem view_editName {β : Type} {f : Edge → Option β} (hf : ∀ e d t n, f (.contains e d t n) = none)
    {e : EdgeId} {v : Option Edge} (hdata : edges'.data = Function.update edges.data e v)
    (hold : IsName (edges.data e)) (hnew : IsName v) : edges'.view f = edges.view f := by
  refine Arena.view_update_eq hdata ?_
  rw [hold.view hf, hnew.view hf]

/-- An edit of one slot between names leaves blocks, attributes and grants alone. -/
theorem SideOk.editName
    (h : SideOk edges blocks caps inodePointsTo capGrants xattrs inodeXattrs nextXattr) {e : EdgeId}
    {v : Option Edge} (hdata : edges'.data = Function.update edges.data e v)
    (hold : IsName (edges.data e)) (hnew : IsName v) :
    SideOk edges' blocks caps inodePointsTo capGrants xattrs inodeXattrs nextXattr := by
  obtain ⟨hpointers, hblocks, hxattrs, hgrants, hothers⟩ := h
  constructor
  · rwa [view_editName (fun _ _ _ _ => rfl) hdata hold hnew]
  · rwa [view_editName (fun _ _ _ _ => rfl) hdata hold hnew]
  · rwa [view_editName (fun _ _ _ _ => rfl) hdata hold hnew]
  · rwa [view_editName (fun _ _ _ _ => rfl) hdata hold hnew]
  · rwa [view_editName (fun _ _ _ _ => rfl) hdata hold hnew]

end SideOk

namespace Inv

variable {g : TypeGraph}

/-- Entries have edge ids in range. -/
theorem entry_lt (h : Inv g) {e w} (he : g.entries e = some w) : e < EDGE_CAPACITY := by
  obtain ⟨v, hv, _⟩ := Arena.view_eq_some.mp he
  exact lt_of_lt_of_le (h.edgeIds.lt_next hv) h.edgeIds.next_le

/-- Edge ids that were not issued yet carry nothing. -/
theorem entries_fresh (h : Inv g) {e} (he : g.nextEdge ≤ e) : g.entries e = none := by
  rw [TypeGraph.entries, Arena.view, h.edgeIds.fresh he]
  rfl

/-- Inode slots that were not issued yet have no kind. -/
theorem kinds_fresh (h : Inv g) {s} (hs : g.nextInode ≤ s) : g.kinds s = none := by
  rw [TypeGraph.kinds, Arena.view, h.inodeIds.fresh hs]
  rfl

/-- Directory ids that were not issued yet have no inode. -/
theorem dirInode_fresh (h : Inv g) {d} (hd : g.nextDir ≤ d) : g.dirInode d = none := by
  rw [TypeGraph.dirInode, Arena.view, h.dirIds.fresh hd]
  rfl

/-- Nothing links to a vacant inode slot. -/
theorem linksTo_vacant (h : Inv g) {s : Nat} (hs : g.kinds s = none) : linksTo g.entries s = ∅ := by
  rw [Finset.eq_empty_iff_forall_notMem]
  intro x hx
  obtain ⟨_, ⟨d, t, n⟩, he, hslot, _⟩ := mem_linksTo.mp hx
  obtain ⟨k, hk, _⟩ := h.shape.tgt_live he
  change idToArena t = s at hslot
  change g.kinds (idToArena t) = some k at hk
  rw [hslot, hs] at hk
  cases hk

/-- The invariant does not look at contents, link targets, ACLs, quotas, the log or the context. -/
theorem withSides (h : Inv g) (fileData symlinkTargets acls quotas provLog capCtx) :
    Inv { g with fileData := fileData, symlinkTargets := symlinkTargets, acls := acls,
                 quotas := quotas, provLog := provLog, capCtx := capCtx } :=
  ⟨⟨h.edgeIds, h.index⟩, h.inodeIds, h.dirIds, h.capIds, h.blockIds, h.dirKeys, h.dirIdx, h.shape,
    h.links, h.side, h.roots, h.noDelegation⟩

/-- A kind shows a record. -/
theorem kinds_eq_some {s : Nat} {k : VnodeType} :
    g.kinds s = some k ↔ ∃ i, g.inodes.data s = some i ∧ i.vtype = k := by
  rw [TypeGraph.kinds, Arena.view_eq_some]
  simp

end Inv

/-! ### A new file or symlink -/

/-- Enter a new inode that is no directory: what create and symlink do. -/
def TypeGraph.enterInode (g : TypeGraph) (inode : Inode) (d : DirId) (n : String) : TypeGraph :=
  let g' := { g with nextInode := g.nextInode + 1, nextEdge := g.nextEdge + 1 }
  (g'.insertInode g.nextInode inode).addContains g.nextEdge d g.nextInode n

section EnterInode

variable {g : TypeGraph} {inode : Inode} {d : DirId} {n : String} {di : InodeId}

theorem Inv.enterInode_edges (h : Inv g) (he : g.nextEdge < EDGE_CAPACITY) :
    (g.enterInode inode d n).edges.data =
      Function.update g.edges.data g.nextEdge (some (.contains g.nextEdge d g.nextInode n)) :=
  h.edgeIds.insert_data he _

theorem Inv.enterInode_entries (h : Inv g) (inode : Inode) (d : DirId) (n : String)
    (he : g.nextEdge < EDGE_CAPACITY) :
    (g.enterInode inode d n).entries =
      Function.update g.entries g.nextEdge (some (d, g.nextInode, n)) :=
  Arena.view_update (h.enterInode_edges he)

theorem Inv.enterInode_inodes (h : Inv g) (inode : Inode) (d : DirId) (n : String)
    (hi : g.nextInode < NODE_CAPACITY) :
    (g.enterInode inode d n).inodes.data =
      Function.update g.inodes.data g.nextInode (some inode) :=
  h.inodeIds.insert_data hi _

/-- Entering a new file or symlink keeps the invariant. -/
theorem Inv.enterInode (h : Inv g) (hi : g.nextInode < NODE_CAPACITY) (he : g.nextEdge < EDGE_CAPACITY)
    (hd : g.dirInode d = some di) (hn : UserName n) (hfree : ∀ x t, g.entries x ≠ some (d, t, n))
    (hid : inode.id = g.nextInode) (hkind : inode.vtype ≠ .directory) (hlink : inode.linkCount = 1) :
    Inv (g.enterInode inode d n) := by
  have hvac : g.entries g.nextEdge = none := h.entries_fresh le_rfl
  have hnokind : g.kinds g.nextInode = none := h.kinds_fresh le_rfl
  have hentries := h.enterInode_entries inode d n he
  have hinodes := h.enterInode_inodes inode d n hi
  have hkinds : (g.enterInode inode d n).kinds =
      Function.update g.kinds g.nextInode (some inode.vtype) := Arena.view_update hinodes
  have hslot : idToArena g.nextInode = g.nextInode := h.inodeIds.slot_next
  refine
    { inodeIds := h.inodeIds.insert hi hid
      dirIds := h.dirIds
      capIds := h.capIds
      blockIds := h.blockIds
      edgeIds := h.edgeIds.insert he rfl
      index := ?_
      dirKeys := ?_
      dirIdx := h.dirIdx
      shape := ?_
      links := ?_
      side := ?_
      roots := h.roots
      noDelegation := h.noDelegation }
  · rw [hentries]
    exact h.index.insert hvac hfree
  · intro x
    change x ∈ SetIndex.add g.dirContains d g.nextEdge ↔ ∃ i, g.dirInode x = some i
    rw [SetIndex.mem_add, h.dirKeys]
    constructor
    · rintro (rfl | hx)
      · exact ⟨di, hd⟩
      · exact hx
    · exact .inr
  · have hshape : (g.enterInode inode d n).shape =
        { g.shape with kind := (g.enterInode inode d n).kinds }.setEdge g.nextEdge
          (some (d, g.nextInode, n)) := by
      rw [TypeGraph.shape, hentries]
      rfl
    rw [hshape, hkinds]
    refine h.shape.addFile _ hvac hd hn hfree ?_ ?_ ?_ hkind
    · intro j k' hj
      rw [Function.update_of_ne]
      · exact hj
      · rintro rfl
        change g.kinds g.nextInode = some k' at hj
        rw [hnokind] at hj
        cases hj
    · intro j hj
      by_cases hjn : j = g.nextInode
      · subst hjn
        rw [Function.update_self] at hj
        exact absurd (Option.some.inj hj) hkind
      · rwa [Function.update_of_ne hjn] at hj
    · rw [hslot, Function.update_self]
  · intro s i hs
    rw [hentries, linksTo_insert_card he hvac]
    rw [hinodes] at hs
    by_cases hsn : s = g.nextInode
    · subst hsn
      rw [Function.update_self] at hs
      cases hs
      rw [h.linksTo_vacant hnokind, if_pos ⟨hslot, hn.2⟩, hlink, Finset.card_empty]
    · rw [Function.update_of_ne hsn] at hs
      rw [h.links hs, if_neg, Nat.add_zero]
      rintro ⟨heq, _⟩
      exact hsn (heq.symm.trans hslot)
  · refine h.side.editName (h.enterInode_edges he) ?_ (isName_contains _ _ _ _)
    rw [h.edgeIds.fresh le_rfl]
    exact isName_none

end EnterInode

/-! ### One more name of an existing inode -/

/-- Enter another name of an inode and count it: what link does. -/
def TypeGraph.enterLink (g : TypeGraph) (d : DirId) (t : InodeId) (n : String) : TypeGraph :=
  let g' := { g with nextEdge := g.nextEdge + 1 }
  (g'.addContains g.nextEdge d t n).modifyInode t fun i => { i with linkCount := i.linkCount + 1 }

section EnterLink

variable {g : TypeGraph} {d : DirId} {t : InodeId} {n : String} {di : InodeId} {i : Inode}

theorem Inv.enterLink_edges (h : Inv g) (he : g.nextEdge < EDGE_CAPACITY) :
    (g.enterLink d t n).edges.data =
      Function.update g.edges.data g.nextEdge (some (.contains g.nextEdge d t n)) :=
  h.edgeIds.insert_data he _

theorem Inv.enterLink_entries (h : Inv g) (he : g.nextEdge < EDGE_CAPACITY) :
    (g.enterLink d t n).entries = Function.update g.entries g.nextEdge (some (d, t, n)) :=
  Arena.view_update (h.enterLink_edges he)

/-- Entering another name of an inode that is no directory keeps the invariant. -/
theorem Inv.enterLink (h : Inv g) (he : g.nextEdge < EDGE_CAPACITY) (hd : g.dirInode d = some di)
    (hn : UserName n) (hfree : ∀ x t, g.entries x ≠ some (d, t, n)) (ht : g.getInode t = some i)
    (hkind : i.vtype ≠ .directory) : Inv (g.enterLink d t n) := by
  have hvac : g.entries g.nextEdge = none := h.entries_fresh le_rfl
  have hentries := h.enterLink_entries (d := d) (t := t) (n := n) he
  have htdata : g.inodes.data (idToArena t) = some i := by
    rwa [TypeGraph.getInode, Arena.get_eq_data] at ht
  have hinodes : (g.enterLink d t n).inodes.data =
      Function.update g.inodes.data (idToArena t) (some { i with linkCount := i.linkCount + 1 }) := by
    change (g.inodes.modify (idToArena t) _).data = _
    rw [Arena.data_modify, htdata]
    rfl
  have hkinds : (g.enterLink d t n).kinds = g.kinds := by
    refine Arena.view_update_eq hinodes ?_
    rw [htdata]
    rfl
  refine
    { inodeIds := h.inodeIds.modify _ fun _ => rfl
      dirIds := h.dirIds
      capIds := h.capIds
      blockIds := h.blockIds
      edgeIds := h.edgeIds.insert he rfl
      index := ?_
      dirKeys := ?_
      dirIdx := h.dirIdx
      shape := ?_
      links := ?_
      side := ?_
      roots := h.roots
      noDelegation := h.noDelegation }
  · rw [hentries]
    exact h.index.insert hvac hfree
  · intro x
    change x ∈ SetIndex.add g.dirContains d g.nextEdge ↔ ∃ i, g.dirInode x = some i
    rw [SetIndex.mem_add, h.dirKeys]
    constructor
    · rintro (rfl | hx)
      · exact ⟨di, hd⟩
      · exact hx
    · exact .inr
  · have hshape : (g.enterLink d t n).shape =
        { g.shape with kind := g.kinds }.setEdge g.nextEdge (some (d, t, n)) := by
      rw [TypeGraph.shape, hentries, hkinds]
      rfl
    rw [hshape]
    exact h.shape.addFile _ hvac hd hn hfree (fun _ _ hj => hj) (fun _ hj => hj) (getInode_kind ht) hkind
  · intro s j hs
    rw [hentries, linksTo_insert_card he hvac]
    rw [hinodes] at hs
    by_cases hst : s = idToArena t
    · subst hst
      rw [Function.update_self] at hs
      cases hs
      rw [if_pos ⟨rfl, hn.2⟩, ← h.links htdata]
    · rw [Function.update_of_ne hst] at hs
      rw [h.links hs, if_neg, Nat.add_zero]
      rintro ⟨heq, _⟩
      exact hst heq.symm
  · refine h.side.editName (h.enterLink_edges he) ?_ (isName_contains _ _ _ _)
    rw [h.edgeIds.fresh le_rfl]
    exact isName_none

end EnterLink

/-! ### A new directory -/

/-- Enter a new directory with its inode, its "." and its "..": what mkdir does. -/
def TypeGraph.enterDir (g : TypeGraph) (inode : Inode) (d : DirId) (di : InodeId) (n : String) :
    TypeGraph :=
  let g' :=
    { g with nextInode := g.nextInode + 1, nextDir := g.nextDir + 1, nextEdge := g.nextEdge + 1 + 1 + 1 }
  let g' := g'.insertInode g.nextInode inode
  let g' := g'.insertDir g.nextDir ⟨g.nextDir, g.nextInode⟩
  let g' := g'.addContains g.nextEdge d g.nextInode n
  let g' := g'.addContains (g.nextEdge + 1) g.nextDir g.nextInode "."
  g'.addContains (g.nextEdge + 1 + 1) g.nextDir di ".."

section EnterDir

variable {g : TypeGraph} {inode : Inode} {d : DirId} {n : String} {di : InodeId}

theorem Inv.enterDir_edges (h : Inv g) (he : g.nextEdge + 3 ≤ EDGE_CAPACITY) :
    (g.enterDir inode d di n).edges.data =
      Function.update (Function.update (Function.update g.edges.data g.nextEdge
        (some (.contains g.nextEdge d g.nextInode n)))
        (g.nextEdge + 1) (some (.contains (g.nextEdge + 1) g.nextDir g.nextInode ".")))
        (g.nextEdge + 1 + 1) (some (.contains (g.nextEdge + 1 + 1) g.nextDir di "..")) := by
  have h₁ := h.edgeIds.insert (v := .contains g.nextEdge d g.nextInode n) (by omega) rfl
  have h₂ := h₁.insert (v := .contains (g.nextEdge + 1) g.nextDir g.nextInode ".") (by omega) rfl
  rw [← h.edgeIds.insert_data (by omega), ← h₁.insert_data (by omega)]
  exact h₂.insert_data (by omega) _

theorem Inv.enterDir_inodes (h : Inv g) (inode : Inode) (d : DirId) (di : InodeId) (n : String)
    (hi : g.nextInode < NODE_CAPACITY) :
    (g.enterDir inode d di n).inodes.data =
      Function.update g.inodes.data g.nextInode (some inode) :=
  h.inodeIds.insert_data hi _

theorem Inv.enterDir_entries (h : Inv g) (inode : Inode) (d : DirId) (di : InodeId) (n : String)
    (he : g.nextEdge + 3 ≤ EDGE_CAPACITY) :
    (g.enterDir inode d di n).entries =
      Function.update (Function.update (Function.update g.entries
        g.nextEdge (some (d, g.nextInode, n)))
        (g.nextEdge + 1) (some (g.nextDir, g.nextInode, ".")))
        (g.nextEdge + 1 + 1) (some (g.nextDir, di, "..")) := by
  funext x
  simp only [TypeGraph.entries, Arena.view, h.enterDir_edges he, Function.update_apply]
  split
  · rfl
  · split
    · rfl
    · split <;> rfl

/-- The links after a new directory: its entry and its "." count, its ".." does not. -/
theorem Inv.enterDir_links_card (h : Inv g) (inode : Inode) (d : DirId) (di : InodeId) (n : String)
    (he : g.nextEdge + 3 ≤ EDGE_CAPACITY) (s : Nat) :
    (linksTo (g.enterDir inode d di n).entries s).card =
      (linksTo g.entries s).card + (if CountsFor s (d, g.nextInode, n) then 1 else 0) +
        (if CountsFor s (g.nextDir, g.nextInode, ".") then 1 else 0) := by
  have hvac₁ : g.entries g.nextEdge = none := h.entries_fresh le_rfl
  have hvac₂ : g.entries (g.nextEdge + 1) = none := h.entries_fresh (by omega)
  have hvac₃ : g.entries (g.nextEdge + 1 + 1) = none := h.entries_fresh (by omega)
  have hlt₁ : g.nextEdge < EDGE_CAPACITY := by omega
  have hlt₂ : g.nextEdge + 1 < EDGE_CAPACITY := by omega
  have hlt₃ : g.nextEdge + 1 + 1 < EDGE_CAPACITY := by omega
  have h₂₁ : g.nextEdge + 1 ≠ g.nextEdge := by omega
  have h₃₁ : g.nextEdge + 1 + 1 ≠ g.nextEdge := by omega
  have h₃₂ : g.nextEdge + 1 + 1 ≠ g.nextEdge + 1 := by omega
  have hdotdot : ¬ CountsFor s (g.nextDir, di, "..") := fun hc => hc.2 rfl
  rw [h.enterDir_entries _ _ _ _ he, linksTo_insert_card hlt₃, linksTo_insert_card hlt₂,
    linksTo_insert_card hlt₁ hvac₁, if_neg hdotdot, Nat.add_zero]
  · rw [Function.update_of_ne h₂₁, hvac₂]
  · rw [Function.update_of_ne h₃₂, Function.update_of_ne h₃₁, hvac₃]

/-- Entering a new directory keeps the invariant. -/
theorem Inv.enterDir (h : Inv g) (hi : g.nextInode < NODE_CAPACITY) (hdir : g.nextDir < NODE_CAPACITY)
    (he : g.nextEdge + 3 ≤ EDGE_CAPACITY) (hd : g.dirInode d = some di) (hn : UserName n)
    (hfree : ∀ x t, g.entries x ≠ some (d, t, n)) (hid : inode.id = g.nextInode)
    (hkind : inode.vtype = .directory) (hlink : inode.linkCount = 2) :
    Inv (g.enterDir inode d di n) := by
  have hvac₁ : g.entries g.nextEdge = none := h.entries_fresh le_rfl
  have hvac₂ : g.entries (g.nextEdge + 1) = none := h.entries_fresh (by omega)
  have hvac₃ : g.entries (g.nextEdge + 1 + 1) = none := h.entries_fresh (by omega)
  have hnokind : g.kinds g.nextInode = none := h.kinds_fresh le_rfl
  have hnodir : g.dirInode g.nextDir = none := h.dirInode_fresh le_rfl
  have hnoedge : ∀ x t n', g.entries x ≠ some (g.nextDir, t, n') := by
    intro x t n' hx
    obtain ⟨j, hj⟩ := h.shape.src_live hx
    change g.dirInode g.nextDir = some j at hj
    rw [hnodir] at hj
    cases hj
  have hne : d ≠ g.nextDir := by
    rintro rfl
    rw [hnodir] at hd
    cases hd
  have hslot : idToArena g.nextInode = g.nextInode := h.inodeIds.slot_next
  have hentries := h.enterDir_entries inode d di n he
  have hinodes : (g.enterDir inode d di n).inodes.data =
      Function.update g.inodes.data g.nextInode (some inode) := h.inodeIds.insert_data hi _
  have hdirs : (g.enterDir inode d di n).dirs.data =
      Function.update g.dirs.data g.nextDir (some ⟨g.nextDir, g.nextInode⟩) :=
    h.dirIds.insert_data hdir _
  have hdirInode : (g.enterDir inode d di n).dirInode =
      Function.update g.dirInode g.nextDir (some g.nextInode) := Arena.view_update hdirs
  have hkinds : (g.enterDir inode d di n).kinds =
      Function.update g.kinds g.nextInode (some .directory) := by
    rw [← hkind]
    exact Arena.view_update hinodes
  have hedge₁ := h.edgeIds.insert (v := .contains g.nextEdge d g.nextInode n) (by omega) rfl
  have hedge₂ := hedge₁.insert (v := .contains (g.nextEdge + 1) g.nextDir g.nextInode ".")
    (by omega) rfl
  refine
    { inodeIds := h.inodeIds.insert hi hid
      dirIds := h.dirIds.insert hdir rfl
      capIds := h.capIds
      blockIds := h.blockIds
      edgeIds := hedge₂.insert (by omega) rfl
      index := ?_
      dirKeys := ?_
      dirIdx := ?_
      shape := ?_
      links := ?_
      side := ?_
      roots := h.roots
      noDelegation := h.noDelegation }
  · rw [hentries]
    have hindex₁ := h.index.insert (t := g.nextInode) hvac₁ hfree
    have hindex₂ := hindex₁.insert (e := g.nextEdge + 1) (d := g.nextDir) (t := g.nextInode) (n := ".")
      (by simp [hvac₂]) (by
        intro x t hx
        rw [Function.update_apply] at hx
        split at hx
        · cases hx
          exact hne rfl
        · exact hnoedge _ _ _ hx)
    have h₃₁ : g.nextEdge + 1 + 1 ≠ g.nextEdge := by omega
    refine hindex₂.insert (by simp [Function.update_of_ne h₃₁, hvac₃]) ?_
    intro x t hx
    rw [Function.update_apply, Function.update_apply] at hx
    split at hx
    · simp at hx
    · split at hx
      · cases hx
        exact hne rfl
      · exact hnoedge _ _ _ hx
  · intro x
    change x ∈ SetIndex.add (SetIndex.add (SetIndex.add g.dirContains d g.nextEdge) g.nextDir
      (g.nextEdge + 1)) g.nextDir (g.nextEdge + 1 + 1) ↔ ∃ i, (g.enterDir inode d di n).dirInode x = some i
    simp only [SetIndex.mem_add, h.dirKeys, hdirInode, Function.update_apply]
    constructor
    · rintro (rfl | rfl | rfl | ⟨i, hx⟩)
      · exact ⟨g.nextInode, if_pos rfl⟩
      · exact ⟨g.nextInode, if_pos rfl⟩
      · exact ⟨di, by rw [if_neg hne]; exact hd⟩
      · exact ⟨if x = g.nextDir then g.nextInode else i, by split <;> simp [hx]⟩
    · rintro ⟨i, hx⟩
      split at hx
      · exact .inl ‹_›
      · exact .inr (.inr (.inr ⟨i, hx⟩))
  · rw [hdirInode]
    refine h.dirIdx.insert hnodir ?_
    rintro x i hx rfl
    have hkindx := h.shape.dir_kind hx
    change g.kinds g.nextInode = some _ at hkindx
    rw [hnokind] at hkindx
    cases hkindx
  · have hshape : (g.enterDir inode d di n).shape =
        (((((g.shape.setKind g.nextInode (some .directory)).setDir g.nextDir (some g.nextInode)).setEdge
          g.nextEdge (some (d, g.nextInode, n))).setEdge (g.nextEdge + 1)
          (some (g.nextDir, g.nextInode, "."))).setEdge (g.nextEdge + 1 + 1)
          (some (g.nextDir, di, ".."))) := by
      rw [TypeGraph.shape, hentries, hkinds, hdirInode]
      rfl
    rw [hshape]
    have h₁₂ : g.nextEdge ≠ g.nextEdge + 1 := by omega
    have h₁₃ : g.nextEdge ≠ g.nextEdge + 1 + 1 := by omega
    have h₂₃ : g.nextEdge + 1 ≠ g.nextEdge + 1 + 1 := by omega
    exact h.shape.addDir hvac₁ hvac₂ hvac₃ h₁₂ h₁₃ h₂₃ hd hnodir hnokind hslot hn hfree
  · intro s j hs
    have hcard := h.enterDir_links_card inode d di n he s
    rw [hinodes] at hs
    by_cases hsn : s = g.nextInode
    · subst hsn
      rw [Function.update_self] at hs
      cases hs
      have hcounts : ∀ x m, m ≠ ".." → CountsFor g.nextInode (x, g.nextInode, m) :=
        fun _ _ hm => ⟨hslot, hm⟩
      rw [hcard, h.linksTo_vacant hnokind, if_pos (hcounts _ _ hn.2), if_pos (hcounts _ _ (by decide)),
        hlink, Finset.card_empty]
    · rw [Function.update_of_ne hsn] at hs
      have hother : ∀ x m, ¬ CountsFor s (x, g.nextInode, m) := by
        rintro x m ⟨heq, _⟩
        exact hsn (heq.symm.trans hslot)
      rw [if_neg (hother _ _), if_neg (hother _ _)] at hcard
      have hold := h.links hs
      omega
  · have hside₁ := h.side.editName (h.edgeIds.insert_data (by omega)
      (.contains g.nextEdge d g.nextInode n)) (by rw [h.edgeIds.fresh le_rfl]; exact isName_none)
      (isName_contains _ _ _ _)
    have hside₂ := hside₁.editName (hedge₁.insert_data (by omega)
      (.contains (g.nextEdge + 1) g.nextDir g.nextInode "."))
      (by rw [hedge₁.fresh le_rfl]; exact isName_none) (isName_contains _ _ _ _)
    exact hside₂.editName (hedge₂.insert_data (by omega) (.contains (g.nextEdge + 1 + 1) g.nextDir di ".."))
      (by rw [hedge₂.fresh le_rfl]; exact isName_none) (isName_contains _ _ _ _)

end EnterDir

end SotFs
