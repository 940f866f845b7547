/-
Module: SotFs.Proofs.Renames
Layer: Proofs
Purpose: The whole effect of a rename. A rename first clears its destination and then moves the name, in
  place or to another directory; for each of the two steps one structure says what it does to lookups, to
  directories, to inodes and to blocks, the same for both implementations, and the specification of a
  successful rename is assembled from the two.
Trusted boundary: none
Main exports: TypeGraph.DirAt, DestinationCleared, NameCarried, RenameDone, rename_done
-/
import SotFs.Proofs.QuotaCharges

namespace SotFs

open Std (ExtTreeMap ExtTreeSet)
open Relation Foundation

/-- The blocks an inode points to, by edge: the block's id, its offset and its record. -/
def TypeGraph.blocksOf (g : TypeGraph) (j : InodeId) (e : EdgeId) : Option (BlockId × Nat × Option Block) :=
  match g.edges.view Edge.pointer e with
  | some (src, b, o) => if src = j then some (b, o, g.blocks.data b) else none
  | none => none

/-- `c` is the directory that the name leads to. -/
def TypeGraph.DirAt (g : TypeGraph) (p : DirId) (n : String) (c : DirId) : Prop :=
  ∃ t, g.resolveName p n = some t ∧ g.dirInode c = some t

/-- The name leads to the inode in slot `s`. -/
def TypeGraph.Fills (g : TypeGraph) (p : DirId) (n : String) (s : Nat) : Prop :=
  ∃ t, g.resolveName p n = some t ∧ idToArena t = s

/-- A name was cleared: it is gone, the directory it led to is gone with all its names, and its inode has
    lost one link or is gone. -/
structure DestinationCleared (g g' : TypeGraph) (p : DirId) (n : String) : Prop where
  lookup : ∀ {c m t}, g'.resolveName c m = some t ↔
    g.resolveName c m = some t ∧ (c, m) ≠ (p, n) ∧ ¬ g.DirAt p n c
  dirs : ∀ {c i}, g'.dirInode c = some i ↔ g.dirInode c = some i ∧ ¬ g.DirAt p n c
  inodes : ∀ {s}, ¬ g.Fills p n s → g'.inodes.data s = g.inodes.data s
  target : ∀ {s i}, g.Fills p n s → g.inodes.data s = some i → g'.inodes.data s = none ∨
    i.vtype ≠ .directory ∧ 1 < i.linkCount ∧
      g'.inodes.data s = some { i with linkCount := i.linkCount - 1 }
  blocks : ∀ {j}, g'.containsInode j = true → g'.blocksOf j = g.blocksOf j

/-- The name of `i` was carried to another place: nothing else is looked up differently but the ".." of a
    carried directory, which leads to the inode of its new parent. -/
structure NameCarried (g g' : TypeGraph) (sd : DirId) (sn : String) (dd : DirId) (dn : String)
    (i : InodeId) : Prop where
  lookup : ∀ {c m t}, g'.resolveName c m = some t ↔
    (g.resolveName c m = some t ∧ (c, m) ≠ (sd, sn) ∧ ¬ (g.dirInode c = some i ∧ m = "..")) ∨
      (c = dd ∧ m = dn ∧ t = i) ∨ g.dirInode c = some i ∧ m = ".." ∧ g.dirInode dd = some t
  dirs : g'.dirInode = g.dirInode
  inodes : g'.inodes = g.inodes
  blocks : ∀ j, g'.blocksOf j = g.blocksOf j

/-! ### Blocks -/

section Blocks

variable {g : TypeGraph} {b : BlockId} {j t : InodeId}

theorem removeEdge_fst (e : EdgeId) : (g.removeEdge e).1 = g.edges.data (idToArena e) := by
  unfold TypeGraph.removeEdge
  rw [← Arena.remove_fst]
  cases g.edges.remove (idToArena e) with
  | mk removed edges =>
      cases removed with
      | none => rfl
      | some v => cases v <;> rfl

/-- Releasing an edge takes at most that edge out of the pool, and leaves every block it does not point
    to. -/
theorem releaseBlockEdge_blocks {e : EdgeId}
    (he : ∀ id src tgt o, g.edges.data (idToArena e) = some (.pointsTo id src tgt o) → idToArena tgt ≠ b) :
    ∃ edges dirNameIdx blocks,
      g.releaseBlockEdge e = { g with edges := edges, dirNameIdx := dirNameIdx, blocks := blocks } ∧
        (∀ x, edges.data x = none ∨ edges.data x = g.edges.data x) ∧
        blocks.data b = g.blocks.data b := by
  obtain ⟨edges, idx, hremoved⟩ := removeEdge_frame (g := g) e
  have hedges : ∀ x, edges.data x = none ∨ edges.data x = g.edges.data x := by
    intro x
    have hdata := congrFun (removeEdge_data g e) x
    rw [hremoved, Function.update_apply] at hdata
    split at hdata
    · exact .inl hdata
    · exact .inr hdata
  rw [← removeEdge_fst] at he
  unfold TypeGraph.releaseBlockEdge
  split
  · rename_i id src tgt o g₁ heq
    rw [heq] at hremoved he
    have hne : b ≠ idToArena tgt := fun hb => he id src tgt o rfl hb.symm
    have hmod : ∀ f : Block → Block, (g.blocks.modify (idToArena tgt) f).data b = g.blocks.data b := by
      intro f
      rw [Arena.data_modify, Function.update_of_ne hne]
    dsimp only at hremoved
    subst hremoved
    split
    · dsimp only
      split
      · refine ⟨edges, idx, _, rfl, hedges, ?_⟩
        rw [Arena.data_remove, Function.update_of_ne hne]
        exact hmod _
      · exact ⟨edges, idx, _, rfl, hedges, hmod _⟩
    · exact ⟨edges, idx, g.blocks, rfl, hedges, rfl⟩
  · rename_i heq
    rw [heq] at hremoved
    exact ⟨edges, idx, g.blocks, hremoved, hedges, rfl⟩

theorem foldl_releaseBlockEdge_blocks (es : List EdgeId) : ∀ {g : TypeGraph},
    (∀ e ∈ es, ∀ id src tgt o, g.edges.data (idToArena e) = some (.pointsTo id src tgt o) →
      idToArena tgt ≠ b) →
    (es.foldl TypeGraph.releaseBlockEdge g).blocks.data b = g.blocks.data b := by
  induction es with
  | nil => exact fun _ => rfl
  | cons e es ih =>
      intro g hes
      obtain ⟨edges, idx, blocks, heq, hedges, hblocks⟩ :=
        releaseBlockEdge_blocks (hes e List.mem_cons_self)
      rw [List.foldl_cons, ih, heq]
      · exact hblocks
      · intro x hx id src tgt o hdata
        rw [heq] at hdata
        rcases hedges (idToArena x) with hnone | hsame
        · rw [show edges.data (idToArena x) = _ from hdata] at hnone
          cases hnone
        · exact hes x (List.mem_cons_of_mem e hx) id src tgt o (hsame ▸ hdata)

/-- The blocks of an inode, edge by edge. -/
theorem TypeGraph.blocksOf_of_pointer {e : EdgeId} {b : BlockId} {o : Nat}
    (he : g.edges.view Edge.pointer e = some (j, b, o)) :
    g.blocksOf j e = some (b, o, g.blocks.data b) := by
  unfold TypeGraph.blocksOf
  rw [he]
  exact if_pos rfl

theorem TypeGraph.blocksOf_of_no_pointer {e : EdgeId}
    (he : ∀ b o, g.edges.view Edge.pointer e ≠ some (j, b, o)) : g.blocksOf j e = none := by
  unfold TypeGraph.blocksOf
  split
  · rename_i src b o hview
    rw [if_neg]
    rintro rfl
    exact he b o hview
  · rfl

/-- Deleting an inode leaves the blocks of the others. -/
theorem Inv.collectInode_blocksOf (h : Inv g) (hj : j ≠ t) :
    (g.collectInode t).blocksOf j = g.blocksOf j := by
  obtain ⟨edges, blocks, heq, _, _, _, hdata⟩ := h.collectInode_eq t
  have hedges : (g.collectInode t).edges = edges := by rw [heq]
  have hmem : ∀ {x}, x ∈ SetIndex.members g.inodePointsTo t ↔
      ∃ b o, g.edges.data x = some (.pointsTo x t b o) := h.pointsTo_iff
  funext e
  by_cases hpoint : ∃ b o, g.edges.view Edge.pointer e = some (j, b, o)
  · obtain ⟨b, o, hview⟩ := hpoint
    have hkeep : e ∉ SetIndex.members g.inodePointsTo t := by
      intro hin
      obtain ⟨b', o', hpt⟩ := hmem.mp hin
      rw [h.pointer_iff] at hview
      rw [hview] at hpt
      cases hpt
      exact hj rfl
    have hview' : (g.collectInode t).edges.view Edge.pointer e = some (j, b, o) := by
      rw [hedges, Arena.view, hdata e, if_neg hkeep]
      exact hview
    have hblock : (g.collectInode t).blocks.data b = g.blocks.data b := by
      refine foldl_releaseBlockEdge_blocks (g := { g with inodePointsTo := g.inodePointsTo.erase t }) _ ?_
      intro x hx id src tgt o' hx'
      obtain ⟨b', o'', hpt⟩ := hmem.mp (ExtTreeSet.mem_toList.mp hx)
      change g.edges.data (idToArena x) = _ at hx'
      rw [h.edgeIds.slot hpt, hpt] at hx'
      cases hx'
      have hpt' := h.pointer_iff.mpr hpt
      obtain ⟨blk, hblk⟩ := h.side.blocks.live hpt'
      rw [h.blockIds.slot hblk]
      rintro rfl
      cases h.side.blocks.unique hpt' hview
      rw [hpt'] at hview
      cases hview
      exact hj rfl
    rw [TypeGraph.blocksOf_of_pointer hview', TypeGraph.blocksOf_of_pointer hview, hblock]
  · simp only [not_exists] at hpoint
    rw [TypeGraph.blocksOf_of_no_pointer hpoint, TypeGraph.blocksOf_of_no_pointer]
    intro b o hview'
    rw [hedges, Arena.view, hdata e] at hview'
    split at hview'
    · cases hview'
    · exact hpoint b o hview'

end Blocks

/-! ### The destination is cleared -/

section Clearing

variable {now : Nat → Timestamp} {g g' : TypeGraph} {p : DirId} {n : String} {e : EdgeId} {t : InodeId}

/-- The slot that a known entry fills. -/
theorem Inv.fills_iff (h : Inv g) (he : g.entries e = some (p, t, n)) {s : Nat} :
    g.Fills p n s ↔ s = idToArena t := by
  constructor
  · rintro ⟨t', ht', rfl⟩
    rw [h.resolveName_iff.mpr ⟨e, he⟩] at ht'
    cases ht'
    rfl
  · rintro rfl
    exact ⟨t, h.resolveName_iff.mpr ⟨e, he⟩, rfl⟩

/-- The directory that a known entry leads to. -/
theorem Inv.dirAt_iff (h : Inv g) (he : g.entries e = some (p, t, n)) {c : DirId} :
    g.DirAt p n c ↔ g.dirInode c = some t := by
  constructor
  · rintro ⟨t', ht', hc⟩
    rw [h.resolveName_iff.mpr ⟨e, he⟩] at ht'
    cases ht'
    exact hc
  · exact fun hc => ⟨t, h.resolveName_iff.mpr ⟨e, he⟩, hc⟩

/-- A file is no directory's inode. -/
theorem Inv.not_dirAt (h : Inv g) (he : g.entries e = some (p, t, n)) {i : Inode}
    (ht : g.getInode t = some i) (hkind : i.vtype ≠ .directory) {c : DirId} : ¬ g.DirAt p n c := by
  rw [h.dirAt_iff he]
  intro hc
  have hslot : idToArena t = t := h.shape.dir_slot hc
  have hdir : g.kinds t = some .directory := h.shape.dir_kind hc
  have hfile := Inv.getInode_kind ht
  rw [hslot, hdir] at hfile
  exact hkind (Option.some.inj hfile).symm

/-- The name of a file is cleared by taking its entry and its link. -/
theorem Inv.cleared_of_file (h : Inv g) (h' : Inv g') (he : g.entries e = some (p, t, n)) {i : Inode}
    (ht : g.getInode t = some i) (hkind : i.vtype ≠ .directory) {v : Option Inode}
    (hv : v = none ∨ 1 < i.linkCount ∧ v = some { i with linkCount := i.linkCount - 1 })
    (hentries : g'.entries = Function.update g.entries e none) (hdirs : g'.dirInode = g.dirInode)
    (hinodes : g'.inodes.data = Function.update g.inodes.data (idToArena t) v)
    (hblocks : ∀ {j}, g'.containsInode j = true → g'.blocksOf j = g.blocksOf j) :
    DestinationCleared g g' p n where
  lookup := by
    intro c m x
    rw [h'.resolveName_iff, h.resolveName_iff, hentries]
    constructor
    · rintro ⟨y, hy⟩
      rw [Function.update_apply] at hy
      split at hy
      · cases hy
      · rename_i hye
        refine ⟨⟨y, hy⟩, ?_, h.not_dirAt he ht hkind⟩
        intro heq
        cases heq
        exact hye (h.names hy he)
    · rintro ⟨⟨y, hy⟩, hne, _⟩
      refine ⟨y, ?_⟩
      rw [Function.update_of_ne]
      · exact hy
      · rintro rfl
        rw [he] at hy
        cases hy
        exact hne rfl
  dirs := by
    intro c ci
    rw [hdirs]
    exact ⟨fun hc => ⟨hc, h.not_dirAt he ht hkind⟩, And.left⟩
  inodes := by
    intro s hs
    rw [h.fills_iff he] at hs
    rw [hinodes, Function.update_of_ne hs]
  target := by
    intro s k hs hk
    obtain rfl := (h.fills_iff he).mp hs
    rw [TypeGraph.getInode, Arena.get_eq_data] at ht
    rw [ht] at hk
    cases hk
    rw [hinodes, Function.update_self]
    exact hv.imp id fun hv => ⟨hkind, hv⟩
  blocks := hblocks

theorem Inv.dropName_blocksOf (h : Inv g) (he : g.entries e = some (p, t, n)) (j : InodeId) :
    (g.dropName e p t).blocksOf j = g.blocksOf j := by
  have hblocks : (g.dropName e p t).blocks = g.blocks := by rw [h.dropName_eq he]
  unfold TypeGraph.blocksOf
  rw [h.dropName_view (fun _ _ _ _ => rfl) he, hblocks]

/-- Unlinking clears the name. -/
theorem unlink_clears (h : Inv g) {a : Unit} (hok : unlink now p n g = (.ok a, g')) :
    DestinationCleared g g' p n := by
  rcases unlink_spec now p n h with
    ⟨o, hfail, heq⟩ | ⟨e, t, i, hn, he, ht, hkind, hcase⟩
  · rw [hok] at heq
    exact absurd (congrArg Prod.fst heq).symm (hfail a)
  · have hdec : decrement32 i.linkCount = i.linkCount - 1 := by
      have hcount := h.decrement_link he hn ht
      have hdata := ht
      rw [TypeGraph.getInode, Arena.get_eq_data] at hdata
      have hlinks := h.links hdata
      have hremove := linksTo_remove_card (s := idToArena t) (h.entry_lt he) he
      rw [if_pos ⟨rfl, hn.2⟩] at hremove
      omega
    rcases hcase with ⟨hmore, hinv, l, heq⟩ | ⟨hlast, hinv, q, l, heq⟩
    · rw [hok] at heq
      cases heq
      refine h.cleared_of_file (hinv.withSides _ _ _ _ _ _) he ht hkind (.inr ⟨by omega, rfl⟩)
        (h.dropName_entries he) (by rw [h.dropName_eq he]; rfl) ?_ fun _ => h.dropName_blocksOf he _
      rw [← hdec]
      exact h.dropName_inodes he ht
    · rw [hok] at heq
      cases heq
      have hdropped := h.dropName he hn ht hkind
      obtain ⟨_, _, hcollect, _⟩ := hdropped.collectInode_eq t
      have hinodes := h.dropLastName_inodes he hn ht hkind
      refine h.cleared_of_file (hinv.withSides _ _ _ _ _ _) he ht hkind (.inl rfl)
        (h.dropLastName_entries he hn ht hkind) ?_ hinodes ?_
      · change (g.dropLastName e p t).dirInode = g.dirInode
        rw [TypeGraph.dropLastName, hcollect, h.dropName_eq he]
        rfl
      · intro j hj
        have hjt : j ≠ t := by
          rintro rfl
          rw [TypeGraph.containsInode, Arena.contains_eq_isSome] at hj
          change ((g.dropLastName e p j).inodes.data _).isSome = true at hj
          rw [hinodes, Function.update_self] at hj
          cases hj
        exact (hdropped.collectInode_blocksOf hjt).trans (h.dropName_blocksOf he j)

/-- Removing an empty directory clears its name. -/
theorem rmdir_clears (h : Inv g) {a : Unit} (hok : rmdir now p n g = (.ok a, g')) :
    DestinationCleared g g' p n := by
  rcases rmdir_spec now p n h with
    ⟨o, hfail, heq⟩ | ⟨e, ti, td, hn, he, htd, hempty, hinv, q, l, heq⟩
  · rw [hok] at heq
    exact absurd (congrArg Prod.fst heq).symm (hfail a)
  · rw [hok] at heq
    cases heq
    have hinv' : Inv { g.dropDir p n ti td with quotas := q, provLog := l } := hinv.withSides _ _ _ _ _ _
    have hentries : ∀ {x w}, (g.dropDir p n ti td).entries x = some w ↔
        x ≠ e ∧ w.1 ≠ td ∧ g.entries x = some w := h.dropDir_entries he htd
    have hdir : ∀ {c}, g.DirAt p n c ↔ c = td := by
      intro c
      rw [h.dirAt_iff he]
      constructor
      · exact fun hc => h.shape.dir_inj hc htd
      · rintro rfl
        exact htd
    have hslot : idToArena ti = ti := h.shape.dir_slot htd
    exact
      { lookup := by
          intro c m x
          rw [hinv'.resolveName_iff, h.resolveName_iff, hdir]
          constructor
          · rintro ⟨y, hy⟩
            obtain ⟨hye, hsrc, hold⟩ := hentries.mp hy
            refine ⟨⟨y, hold⟩, ?_, hsrc⟩
            intro heq
            cases heq
            exact hye (h.names hold he)
          · rintro ⟨⟨y, hy⟩, hne, hsrc⟩
            refine ⟨y, hentries.mpr ⟨?_, hsrc, hy⟩⟩
            rintro rfl
            rw [he] at hy
            cases hy
            exact hne rfl
        dirs := by
          intro c ci
          rw [hdir]
          change (g.dropDir p n ti td).dirInode c = some ci ↔ _
          rw [h.dropDir_dirInode he htd, Function.update_apply]
          split
          · rename_i hc
            constructor
            · intro hnone
              cases hnone
            · exact fun hboth => absurd hc hboth.2
          · rename_i hc
            exact ⟨fun hci => ⟨hci, hc⟩, And.left⟩
        inodes := by
          intro s hs
          rw [h.fills_iff he, hslot] at hs
          change (g.dropDir p n ti td).inodes.data s = _
          rw [h.dropDir_inodes he htd, Function.update_of_ne hs]
        target := by
          intro s k hs _
          rw [h.fills_iff he, hslot] at hs
          subst hs
          refine .inl ?_
          change (g.dropDir p n s td).inodes.data s = none
          rw [h.dropDir_inodes he htd, Function.update_self]
        blocks := by
          intro j _
          obtain ⟨_, _, _, _, hdrop, _⟩ := h.dropDir_eq he htd
          have hblocks : (g.dropDir p n ti td).blocks = g.blocks := by rw [hdrop]
          change (g.dropDir p n ti td).blocksOf j = _
          unfold TypeGraph.blocksOf
          rw [h.dropDir_view (fun _ _ _ _ => rfl) he htd, hblocks] }

/-- Rename clears its destination, or finds it free. -/
theorem removeDestination_clears (h : Inv g)
    (hok : g.removeDestination now p n (g.resolveName p n) = (.ok (), g')) :
    DestinationCleared g g' p n := by
  unfold TypeGraph.removeDestination at hok
  cases hres : g.resolveName p n with
  | none =>
      rw [hres] at hok
      cases hok
      have hnone : ∀ {t}, g.resolveName p n ≠ some t := by
        intro t ht
        rw [hres] at ht
        cases ht
      have hdir : ∀ {c}, ¬ g.DirAt p n c := by
        rintro c ⟨_, ht, _⟩
        exact hnone ht
      have hfill : ∀ {s}, ¬ g.Fills p n s := by
        rintro s ⟨_, ht, _⟩
        exact hnone ht
      refine ⟨?_, fun {c i} => ⟨fun hc => ⟨hc, hdir⟩, And.left⟩, fun _ => rfl,
        fun hs => absurd hs hfill, fun _ => rfl⟩
      intro c m t
      refine ⟨fun ht => ⟨ht, ?_, hdir⟩, And.left⟩
      intro heq
      cases heq
      exact hnone ht
  | some t =>
      rw [hres] at hok
      dsimp only at hok
      split at hok
      · cases hok
      · split at hok
        · exact rmdir_clears h hok
        · exact unlink_clears h hok

end Clearing

/-! ### The name is carried -/

section Carrying

variable {now : Nat → Timestamp} {g g' : TypeGraph} {sd dd : DirId} {sn dn : String} {e : EdgeId}
  {t : InodeId}

/-- Before and after the move, the ".." of a carried directory leads to a live directory's inode. -/
theorem Inv.dotdot_iff (h : Inv g) {c : DirId} (hc : g.dirInode c = some t)
    (he : g.entries e = some (sd, t, sn)) (hsn : UserName sn) {x : InodeId} :
    g.resolveName c ".." = some x ↔ g.dirInode sd = some x := by
  rw [h.resolveName_iff]
  constructor
  · rintro ⟨y, hy⟩
    exact h.shape.dotdot hc hsn he hy
  · intro hx
    obtain ⟨y, old, hy⟩ := h.exists_dotdot hc he hsn
    have hold : g.dirInode sd = some old := h.shape.dotdot hc hsn he hy
    rw [hx] at hold
    cases hold
    exact ⟨y, hy⟩

/-- Renaming an entry in place carries the name. -/
theorem Inv.renameEntry_carried (h : Inv g) (h' : Inv (g.renameContainsEdge e dn).2)
    (he : g.entries e = some (sd, t, sn)) (hsn : UserName sn) (hdn : UserName dn) (hne : sn ≠ dn) :
    NameCarried g (g.renameContainsEdge e dn).2 sd sn sd dn t := by
  have hentries : (g.renameContainsEdge e dn).2.entries =
      Function.update g.entries e (some (sd, t, dn)) := Arena.view_update (h.renameEntry_edges he hne)
  have heq := h.renameContainsEdge_eq he hne
  refine ⟨?_, by rw [heq]; rfl, by rw [heq], ?_⟩
  · intro c m x
    rw [h'.resolveName_iff, hentries, h.resolveName_iff]
    constructor
    · rintro ⟨y, hy⟩
      rw [Function.update_apply] at hy
      split at hy
      · cases hy
        exact .inr (.inl ⟨rfl, rfl, rfl⟩)
      · rename_i hye
        by_cases hdd : g.dirInode c = some t ∧ m = ".."
        · obtain ⟨hc, rfl⟩ := hdd
          exact .inr (.inr ⟨hc, rfl, (h.dotdot_iff hc he hsn).mp (h.resolveName_iff.mpr ⟨y, hy⟩)⟩)
        · refine .inl ⟨⟨y, hy⟩, ?_, hdd⟩
          intro hpair
          cases hpair
          exact hye (h.names hy he)
    · rintro (⟨⟨y, hy⟩, hpair, _⟩ | ⟨rfl, rfl, rfl⟩ | ⟨hc, rfl, hx⟩)
      · refine ⟨y, ?_⟩
        rw [Function.update_of_ne]
        · exact hy
        · rintro rfl
          rw [he] at hy
          cases hy
          exact hpair rfl
      · exact ⟨e, Function.update_self _ _ _⟩
      · obtain ⟨y, hy⟩ := h.resolveName_iff.mp ((h.dotdot_iff hc he hsn).mpr hx)
        refine ⟨y, ?_⟩
        rw [Function.update_of_ne]
        · exact hy
        · rintro rfl
          rw [he] at hy
          cases hy
          exact hsn.2 rfl
  · intro j
    have hblocks : (g.renameContainsEdge e dn).2.blocks = g.blocks := by rw [heq]
    unfold TypeGraph.blocksOf
    rw [h.renameEntry_view (fun _ _ _ _ => rfl) he hne, hblocks]

/-- Moving the entry of a file carries the name. -/
theorem Inv.moveFileEntry_carried (h : Inv g) (h' : Inv (g.moveEntry e sd t dd dn))
    (he : g.entries e = some (sd, t, sn)) {i : Inode} (ht : g.getInode t = some i)
    (hkind : i.vtype ≠ .directory) (hcap : g.nextEdge < EDGE_CAPACITY) :
    NameCarried g (g.moveEntry e sd t dd dn) sd sn dd dn t := by
  have heq : g.moveEntry e sd t dd dn = g.movedEntry e sd t sn dd dn := h.moveFileEntry_eq he ht hkind
  rw [heq] at h' ⊢
  have hentries := h.movedEntry_entries e sd dd t sn dn hcap
  have hfile : ∀ {c}, g.dirInode c ≠ some t := fun {c} hc =>
    h.not_dirAt he ht hkind (c := c) ((h.dirAt_iff he).mpr hc)
  refine ⟨?_, rfl, rfl, ?_⟩
  · intro c m x
    rw [h'.resolveName_iff, hentries, h.resolveName_iff]
    constructor
    · rintro ⟨y, hy⟩
      rw [Function.update_apply] at hy
      split at hy
      · cases hy
        exact .inr (.inl ⟨rfl, rfl, rfl⟩)
      · rw [Function.update_apply] at hy
        split at hy
        · cases hy
        · rename_i hye
          refine .inl ⟨⟨y, hy⟩, ?_, fun hdd => hfile hdd.1⟩
          intro hpair
          cases hpair
          exact hye (h.names hy he)
    · rintro (⟨⟨y, hy⟩, hpair, _⟩ | ⟨rfl, rfl, rfl⟩ | ⟨hc, _, _⟩)
      · refine ⟨y, ?_⟩
        rw [Function.update_of_ne, Function.update_of_ne]
        · exact hy
        · rintro rfl
          rw [he] at hy
          cases hy
          exact hpair rfl
        · rintro rfl
          rw [h.entries_fresh le_rfl] at hy
          cases hy
      · exact ⟨g.nextEdge, Function.update_self _ _ _⟩
      · exact absurd hc hfile
  · intro j
    unfold TypeGraph.blocksOf
    rw [h.movedEntry_view (fun _ _ _ _ => rfl) he hcap]
    rfl

/-- Moving the entry of a directory carries the name and retargets the "..". -/
theorem Inv.moveDirEntry_carried (h : Inv g) (h' : Inv (g.moveEntry e sd t dd dn))
    (he : g.entries e = some (sd, t, sn)) (hsn : UserName sn) {qi : InodeId}
    (hq : g.dirInode dd = some qi) (hfree : ∀ x t', g.entries x ≠ some (dd, t', dn))
    (hcap : g.nextEdge < EDGE_CAPACITY) {m : DirId} (hm : g.dirInode m = some t) :
    NameCarried g (g.moveEntry e sd t dd dn) sd sn dd dn t := by
  obtain ⟨x₀, old, hx₀⟩ := h.exists_dotdot hm he hsn
  have heq := h.moveDirEntry_eq he hsn hq hfree hcap hm hx₀
  have hentries := h.moveDirEntry_entries he hsn hq hfree hcap hm hx₀
  have hmoved := h.movedEntry_entries e sd dd t sn dn hcap
  have hdir : ∀ {c}, g.dirInode c = some t ↔ c = m := by
    intro c
    constructor
    · exact fun hc => h.shape.dir_inj hc hm
    · rintro rfl
      exact hm
  refine ⟨?_, by rw [heq]; rfl, by rw [heq]; rfl, ?_⟩
  · intro c k x
    rw [h'.resolveName_iff, hentries, hmoved, h.resolveName_iff, hdir, hq, Option.some.injEq]
    constructor
    · rintro ⟨y, hy⟩
      rw [Function.update_apply] at hy
      split at hy
      · cases hy
        exact .inr (.inr ⟨rfl, rfl, rfl⟩)
      · rename_i hyx
        rw [Function.update_apply] at hy
        split at hy
        · cases hy
          exact .inr (.inl ⟨rfl, rfl, rfl⟩)
        · rw [Function.update_apply] at hy
          split at hy
          · cases hy
          · rename_i hye
            refine .inl ⟨⟨y, hy⟩, ?_, ?_⟩
            · intro hpair
              cases hpair
              exact hye (h.names hy he)
            · rintro ⟨rfl, rfl⟩
              exact hyx (h.names hy hx₀)
    · have hne₀ : g.nextEdge ≠ x₀ := by
        rintro rfl
        rw [h.entries_fresh le_rfl] at hx₀
        cases hx₀
      rintro (⟨⟨y, hy⟩, hpair, hdd⟩ | ⟨rfl, rfl, rfl⟩ | ⟨rfl, rfl, rfl⟩)
      · refine ⟨y, ?_⟩
        rw [Function.update_of_ne, Function.update_of_ne, Function.update_of_ne]
        · exact hy
        · rintro rfl
          rw [he] at hy
          cases hy
          exact hpair rfl
        · rintro rfl
          rw [h.entries_fresh le_rfl] at hy
          cases hy
        · rintro rfl
          rw [hx₀] at hy
          cases hy
          exact hdd ⟨rfl, rfl⟩
      · refine ⟨g.nextEdge, ?_⟩
        rw [Function.update_of_ne hne₀]
        exact Function.update_self _ _ _
      · exact ⟨x₀, Function.update_self _ _ _⟩
  · intro j
    have hblocks : (g.moveEntry e sd t dd dn).blocks = g.blocks := by
      rw [heq]
      rfl
    unfold TypeGraph.blocksOf
    rw [h.moveDirEntry_view (fun _ _ _ _ => rfl) he hsn hq hfree hcap hm hx₀, hblocks]

end Carrying

/-! ### The specification -/

/-- What a rename leaves, given that the source name led to `i`. -/
structure RenameDone (g g' : TypeGraph) (sd : DirId) (sn : String) (dd : DirId) (dn : String)
    (i : InodeId) : Prop where
  arrived : g'.resolveName dd dn = some i
  left : (sd, sn) ≠ (dd, dn) → g'.resolveName sd sn = none
  /-- The replaced inode has lost exactly the name, and is gone with the last one; so is, with its entries,
      the directory it was. -/
  replaced : ∀ t, (sd, sn) ≠ (dd, dn) → g.resolveName dd dn = some t → idToArena t ≠ idToArena i →
    (∀ c n, g'.Leads c n (idToArena t) ↔ g.Leads c n (idToArena t) ∧ (c, n) ≠ (dd, dn)) ∧
    ((∃ c n, g'.Leads c n (idToArena t)) → ∃ inode, g.getInode t = some inode ∧
      g'.getInode t = some { inode with linkCount := inode.linkCount - 1 }) ∧
    ((∀ c n, ¬ g'.Leads c n (idToArena t)) → g'.getInode t = none ∧
      ∀ td, g.dirInode td = some t → g'.dirInode td = none ∧ ∀ n, g'.resolveName td n = none)
  /-- The inode keeps its other names. -/
  names : ∀ c n, (c, n) ≠ (sd, sn) → (c, n) ≠ (dd, dn) →
    (g'.Leads c n (idToArena i) ↔ g.Leads c n (idToArena i))
  /-- The inode keeps its attributes, and its link count is the number of its names. -/
  inode : ∀ inode, g.getInode i = some inode →
    g'.getInode i = some { inode with linkCount := (linksTo g'.entries (idToArena i)).card }
  /-- A moved directory keeps its subtree: the same directories, and in each of them the same lookups. -/
  subtree : ∀ m, g.dirInode m = some i → ∀ c, (g'.Within m c ↔ g.Within m c) ∧
    (g.Within m c → g'.dirInode c = g.dirInode c ∧
      ∀ n, ¬ (c = m ∧ n = "..") → g'.resolveName c n = g.resolveName c n)
  dotdot : ∀ m, g.dirInode m = some i → g'.resolveName m ".." = g.dirInode dd
  /-- Every other lookup is as before, but for the entries of a directory that was replaced. -/
  lookup : ∀ c n, (c, n) ≠ (sd, sn) → (c, n) ≠ (dd, dn) → ¬ (g.dirInode c = some i ∧ n = "..") →
    ¬ ((sd, sn) ≠ (dd, dn) ∧ g.DirAt dd dn c) → g'.resolveName c n = g.resolveName c n
  /-- Every other inode is as before. -/
  inodes : ∀ j, idToArena j ≠ idToArena i →
    ¬ ((sd, sn) ≠ (dd, dn) ∧ g.Fills dd dn (idToArena j)) → g'.getInode j = g.getInode j
  holdings : g'.holdings = g.holdings
  blocks : ∀ j, g'.containsInode j = true → g'.blocksOf j = g.blocksOf j

section Assembling

variable {now : Nat → Timestamp} {g g₁ g' : TypeGraph} {sd dd : DirId} {sn dn : String} {e : EdgeId}
  {t : InodeId}

/-- A live file has a user name. -/
theorem Inv.exists_leads (h : Inv g) {s : Nat} {i : Inode} (hs : g.inodes.data s = some i)
    (hkind : i.vtype ≠ .directory) (hlink : 0 < i.linkCount) : ∃ c n, g.Leads c n s := by
  rw [h.links hs, Finset.card_pos] at hlink
  obtain ⟨e, he⟩ := hlink
  obtain ⟨_, ⟨c, t, n⟩, hentry, hslot, hdotdot⟩ := mem_linksTo.mp he
  refine ⟨c, n, ⟨?_, hdotdot⟩, e, t, hentry, hslot⟩
  rintro rfl
  have hc : g.dirInode c = some t := h.shape.dot_tgt hentry
  have hdir : g.kinds t = some .directory := h.shape.dir_kind hc
  rw [← (show idToArena t = t from h.shape.dir_slot hc), hslot] at hdir
  obtain ⟨i', hi', hk⟩ := Arena.view_eq_some.mp hdir
  rw [hs] at hi'
  cases hi'
  exact hkind (Option.some.inj hk)

/-- A rename onto itself leaves everything. -/
theorem Inv.renameDone_same (h : Inv g) (he : g.entries e = some (sd, t, sn)) (hsn : UserName sn) :
    RenameDone g g sd sn sd sn t where
  arrived := h.resolveName_iff.mpr ⟨e, he⟩
  left := fun hne => absurd rfl hne
  replaced := fun _ hne => absurd rfl hne
  names := fun _ _ _ _ => Iff.rfl
  inode := by
    intro inode hi
    have hdata := hi
    rw [TypeGraph.getInode, Arena.get_eq_data] at hdata
    rw [← h.links hdata]
    exact hi
  subtree := fun _ _ _ => ⟨Iff.rfl, fun _ => ⟨rfl, fun _ _ => rfl⟩⟩
  dotdot := fun m hm => Option.ext fun x => h.dotdot_iff hm he hsn
  lookup := fun _ _ _ _ _ _ => rfl
  inodes := fun _ _ _ => rfl
  holdings := rfl
  blocks := fun _ _ => rfl

/-- A rename in its two steps: the destination is cleared, and the name is carried there. -/
structure RenameCarried (g g₁ g' : TypeGraph) (sd : DirId) (sn : String) (dd : DirId) (dn : String)
    (t : InodeId) : Prop where
  inv : Inv g
  inv₁ : Inv g₁
  inv' : Inv g'
  src : UserName sn
  dst : UserName dn
  ne : (sd, sn) ≠ (dd, dn)
  entry : ∃ e, g.entries e = some (sd, t, sn)
  entry₁ : ∃ e, g₁.entries e = some (sd, t, sn)
  cleared : DestinationCleared g g₁ dd dn
  taken : NameTaken g g₁ dd dn
  carried : NameCarried g₁ g' sd sn dd dn t
  stays : ¬ g.DirAt dd dn dd
  below : ∀ {m}, g.dirInode m = some t → ¬ g.Within m dd

namespace RenameCarried

variable (hc : RenameCarried g g₁ g' sd sn dd dn t)
include hc

/-- The carried inode is no replaced directory's. -/
theorem not_dirAt {m : DirId} (hm : g.dirInode m = some t) : ¬ g.DirAt dd dn m := by
  rintro ⟨t', ht', hm'⟩
  rw [hm] at hm'
  cases hm'
  obtain ⟨e, he⟩ := hc.entry
  obtain ⟨e', he'⟩ := hc.inv.resolveName_iff.mp ht'
  cases hc.inv.shape.entry_unique hm hc.src hc.dst he he'
  rw [he] at he'
  cases he'
  exact hc.ne rfl

theorem dirs_iff {c : DirId} {i : InodeId} :
    g'.dirInode c = some i ↔ g.dirInode c = some i ∧ ¬ g.DirAt dd dn c := by
  rw [hc.carried.dirs]
  exact hc.cleared.dirs

/-- Every lookup after the rename. -/
theorem lookup_iff {c : DirId} {n : String} {x : InodeId} : g'.resolveName c n = some x ↔
    ((g.resolveName c n = some x ∧ (c, n) ≠ (dd, dn) ∧ ¬ g.DirAt dd dn c) ∧ (c, n) ≠ (sd, sn) ∧
      ¬ (g.dirInode c = some t ∧ n = "..")) ∨
      (c = dd ∧ n = dn ∧ x = t) ∨ g.dirInode c = some t ∧ n = ".." ∧ g.dirInode dd = some x := by
  have hdir : g₁.dirInode c = some t ↔ g.dirInode c = some t := by
    rw [hc.cleared.dirs]
    exact ⟨And.left, fun hm => ⟨hm, hc.not_dirAt hm⟩⟩
  have hdst : g₁.dirInode dd = some x ↔ g.dirInode dd = some x := by
    rw [hc.cleared.dirs]
    exact ⟨And.left, fun hd => ⟨hd, hc.stays⟩⟩
  rw [hc.carried.lookup, hc.cleared.lookup, hdir, hdst]

/-- Every user name after the rename. -/
theorem leads_iff {c : DirId} {n : String} {s : Nat} : g'.Leads c n s ↔
    ((g.Leads c n s ∧ (c, n) ≠ (dd, dn)) ∧ (c, n) ≠ (sd, sn)) ∨ c = dd ∧ n = dn ∧ s = idToArena t := by
  rw [← hc.taken.leads, hc.inv'.leads_iff_resolve, hc.inv₁.leads_iff_resolve]
  constructor
  · rintro ⟨hn, x, hx, rfl⟩
    rcases hc.carried.lookup.mp hx with ⟨hold, hne, _⟩ | ⟨rfl, rfl, rfl⟩ | ⟨_, rfl, _⟩
    · exact .inl ⟨⟨hn, x, hold, rfl⟩, hne⟩
    · exact .inr ⟨rfl, rfl, rfl⟩
    · exact absurd rfl hn.2
  · rintro (⟨⟨hn, x, hx, rfl⟩, hne⟩ | ⟨rfl, rfl, rfl⟩)
    · exact ⟨hn, x, hc.carried.lookup.mpr (.inl ⟨hx, hne, fun hdd => hn.2 hdd.2⟩), rfl⟩
    · exact ⟨hc.dst, t, hc.carried.lookup.mpr (.inr (.inl ⟨rfl, rfl, rfl⟩)), rfl⟩

/-- A lookup that the rename does not concern. -/
theorem lookup_eq {c : DirId} {n : String} (hsrc : (c, n) ≠ (sd, sn)) (hdst : (c, n) ≠ (dd, dn))
    (hdotdot : ¬ (g.dirInode c = some t ∧ n = "..")) (hgone : ¬ g.DirAt dd dn c) :
    g'.resolveName c n = g.resolveName c n := by
  refine Option.ext fun x => hc.lookup_iff.trans ⟨?_, ?_⟩
  · rintro (⟨⟨hx, _⟩, _⟩ | ⟨rfl, rfl, _⟩ | ⟨hm, hn, _⟩)
    · exact hx
    · exact absurd rfl hdst
    · exact absurd ⟨hm, hn⟩ hdotdot
  · exact fun hx => .inl ⟨⟨hx, hdst, hgone⟩, hsrc, hdotdot⟩

/-- The directories below a carried one are neither the source nor the destination, and none of them was
    replaced. -/
theorem apart {m c : DirId} (hm : g.dirInode m = some t) (hmc : g.Within m c) :
    c ≠ sd ∧ c ≠ dd ∧ ¬ g.DirAt dd dn c := by
  obtain ⟨e, he⟩ := hc.entry
  have hchild : g.shape.Child sd m := ⟨e, sn, t, hm, hc.src, he⟩
  refine ⟨?_, ?_, ?_⟩
  · rintro rfl
    exact hc.inv.shape.tree.acyclic (hc.inv.shape.rooted hm) (TransGen.tail' hmc hchild)
  · rintro rfl
    exact hc.below hm hmc
  · rintro ⟨x, hx, hcx⟩
    obtain ⟨e', he'⟩ := hc.inv.resolveName_iff.mp hx
    have hchild' : g.shape.Child dd c := ⟨e', dn, x, hcx, hc.dst, he'⟩
    rcases ReflTransGen.cases_tail hmc with heq | ⟨p, hmp, hpc⟩
    · subst heq
      exact hc.not_dirAt hm ⟨x, hx, hcx⟩
    · cases hc.inv.shape.tree.parent_unique hpc hchild'
      exact hc.below hm hmp

/-- The subtree of a carried directory. -/
theorem subtree {m : DirId} (hm : g.dirInode m = some t) (c : DirId) :
    (g'.Within m c ↔ g.Within m c) ∧ (g.Within m c → g'.dirInode c = g.dirInode c ∧
      ∀ n, ¬ (c = m ∧ n = "..") → g'.resolveName c n = g.resolveName c n) := by
  have hdirs : ∀ {c}, g.Within m c → g'.dirInode c = g.dirInode c := fun hmc =>
    Option.ext fun i => hc.dirs_iff.trans ⟨And.left, fun hi => ⟨hi, (hc.apart hm hmc).2.2⟩⟩
  have hnames : ∀ {c n}, g.Within m c → ¬ (c = m ∧ n = "..") →
      g'.resolveName c n = g.resolveName c n := by
    intro c n hmc hdotdot
    obtain ⟨hsd, hdd, hgone⟩ := hc.apart hm hmc
    refine hc.lookup_eq (fun hpair => hsd (congrArg Prod.fst hpair))
      (fun hpair => hdd (congrArg Prod.fst hpair)) ?_ hgone
    rintro ⟨hct, hn⟩
    exact hdotdot ⟨hc.inv.shape.dir_inj hct hm, hn⟩
  have hleads : ∀ {c n s}, g.Within m c → (g'.Leads c n s ↔ g.Leads c n s) := by
    intro c n s hmc
    rw [hc.inv'.leads_iff_resolve, hc.inv.leads_iff_resolve]
    refine and_congr_right fun hn => ?_
    rw [hnames hmc fun hdd => hn.2 hdd.2]
  refine ⟨⟨?_, ?_⟩, fun hmc => ⟨hdirs hmc, fun n hn => hnames hmc hn⟩⟩
  · intro hreach
    induction hreach with
    | refl => exact .refl
    | tail _ hstep ih =>
        obtain ⟨n, i, hi, hlead⟩ := hc.inv'.child_iff.mp hstep
        exact ih.tail (hc.inv.child_iff.mpr ⟨n, i, (hc.dirs_iff.mp hi).1, (hleads ih).mp hlead⟩)
  · intro hreach
    induction hreach with
    | refl => exact .refl
    | tail hpath hstep ih =>
        obtain ⟨n, i, hi, hlead⟩ := hc.inv.child_iff.mp hstep
        refine ih.tail (hc.inv'.child_iff.mpr ⟨n, i, ?_, (hleads hpath).mpr hlead⟩)
        rw [hdirs (hpath.tail hstep)]
        exact hi

/-- The record of the carried inode. -/
theorem inode_eq {inode : Inode} (hi : g.getInode t = some inode) :
    g'.getInode t = some { inode with linkCount := (linksTo g'.entries (idToArena t)).card } := by
  rw [TypeGraph.getInode, Arena.get_eq_data] at hi
  have hrecord : ∃ k, g₁.inodes.data (idToArena t) = some { inode with linkCount := k } := by
    by_cases hfill : g.Fills dd dn (idToArena t)
    · rcases hc.cleared.target hfill hi with hnone | ⟨_, _, hsome⟩
      · obtain ⟨e, he⟩ := hc.entry₁
        obtain ⟨j, hj⟩ := hc.inv₁.getInode_of_entry he
        rw [TypeGraph.getInode, Arena.get_eq_data, hnone] at hj
        cases hj
      · exact ⟨_, hsome⟩
    · exact ⟨inode.linkCount, (hc.cleared.inodes hfill).trans hi⟩
  obtain ⟨k, hk⟩ := hrecord
  rw [← hc.carried.inodes] at hk
  rw [← hc.inv'.links hk, TypeGraph.getInode, Arena.get_eq_data]
  exact hk

/-- The replaced inode. -/
theorem replaced {x : InodeId} (hx : g.resolveName dd dn = some x) (hne : idToArena x ≠ idToArena t) :
    (∀ c n, g'.Leads c n (idToArena x) ↔ g.Leads c n (idToArena x) ∧ (c, n) ≠ (dd, dn)) ∧
    ((∃ c n, g'.Leads c n (idToArena x)) → ∃ inode, g.getInode x = some inode ∧
      g'.getInode x = some { inode with linkCount := inode.linkCount - 1 }) ∧
    ((∀ c n, ¬ g'.Leads c n (idToArena x)) → g'.getInode x = none ∧
      ∀ td, g.dirInode td = some x → g'.dirInode td = none ∧ ∀ n, g'.resolveName td n = none) := by
  have hfill : g.Fills dd dn (idToArena x) := ⟨x, hx, rfl⟩
  obtain ⟨e, he⟩ := hc.inv.resolveName_iff.mp hx
  obtain ⟨inode, hi⟩ := hc.inv.getInode_of_entry he
  have hdata := hi
  rw [TypeGraph.getInode, Arena.get_eq_data] at hdata
  have htarget := hc.cleared.target hfill hdata
  rw [← hc.carried.inodes] at htarget
  refine ⟨?_, ?_, ?_⟩
  · intro c n
    rw [hc.leads_iff]
    constructor
    · rintro (⟨hold, _⟩ | ⟨_, _, hslot⟩)
      · exact hold
      · exact absurd hslot hne
    · rintro ⟨hlead, hdst⟩
      refine .inl ⟨⟨hlead, hdst⟩, ?_⟩
      intro hpair
      cases hpair
      obtain ⟨y, hy⟩ := hc.entry
      exact hne ((hc.inv.leads_iff_of_entry hy hc.src).mp hlead)
  · rintro ⟨c, n, hlead⟩
    rcases htarget with hnone | ⟨_, _, hsome⟩
    · obtain ⟨k, hk⟩ := hc.inv'.leads_live hlead
      obtain ⟨j, hj, _⟩ := Arena.view_eq_some.mp hk
      rw [hnone] at hj
      cases hj
    · exact ⟨inode, hi, by rw [TypeGraph.getInode, Arena.get_eq_data, hsome]⟩
  · intro hnone
    have hgone : g'.getInode x = none := by
      rcases htarget with hgone | ⟨hkind, hmany, hsome⟩
      · rw [TypeGraph.getInode, Arena.get_eq_data, hgone]
      · obtain ⟨c, n, hlead⟩ := hc.inv'.exists_leads hsome hkind (Nat.sub_pos_of_lt hmany)
        exact absurd hlead (hnone c n)
    refine ⟨hgone, fun td htd => ?_⟩
    have hat : g.DirAt dd dn td := ⟨x, hx, htd⟩
    refine ⟨Option.eq_none_iff_forall_ne_some.mpr fun i hi => (hc.dirs_iff.mp hi).2 hat, fun n => ?_⟩
    refine Option.eq_none_iff_forall_ne_some.mpr fun y hy => ?_
    rcases hc.lookup_iff.mp hy with ⟨⟨_, _, hno⟩, _⟩ | ⟨rfl, _, _⟩ | ⟨htd', _, _⟩
    · exact hno hat
    · exact hc.stays hat
    · exact hc.not_dirAt htd' hat

/-- The two steps meet the specification. -/
theorem done (hholdings : g'.holdings = g.holdings) : RenameDone g g' sd sn dd dn t where
  arrived := hc.lookup_iff.mpr (.inr (.inl ⟨rfl, rfl, rfl⟩))
  left := by
    intro _
    refine Option.eq_none_iff_forall_ne_some.mpr fun x hx => ?_
    rcases hc.lookup_iff.mp hx with ⟨_, hsrc, _⟩ | ⟨hd, hn, _⟩ | ⟨_, hn, _⟩
    · exact hsrc rfl
    · exact hc.ne (Prod.ext hd hn)
    · exact hc.src.2 hn
  replaced := fun x _ hx hne => hc.replaced hx hne
  names := by
    intro c n hsrc hdst
    rw [hc.leads_iff]
    constructor
    · rintro (⟨⟨hold, _⟩, _⟩ | ⟨rfl, rfl, _⟩)
      · exact hold
      · exact absurd rfl hdst
    · exact fun hold => .inl ⟨⟨hold, hdst⟩, hsrc⟩
  inode := fun _ hi => hc.inode_eq hi
  subtree := fun _ hm c => hc.subtree hm c
  dotdot := by
    intro m hm
    refine Option.ext fun x => hc.lookup_iff.trans ⟨?_, ?_⟩
    · rintro (⟨_, _, hdd⟩ | ⟨_, hn, _⟩ | ⟨_, _, hx⟩)
      · exact absurd ⟨hm, rfl⟩ hdd
      · exact absurd hn.symm hc.dst.2
      · exact hx
    · exact fun hx => .inr (.inr ⟨hm, rfl, hx⟩)
  lookup := fun c n hsrc hdst hdotdot hgone =>
    hc.lookup_eq hsrc hdst hdotdot fun hat => hgone ⟨hc.ne, hat⟩
  inodes := by
    intro j _ hfill
    rw [TypeGraph.getInode, TypeGraph.getInode, Arena.get_eq_data, Arena.get_eq_data, hc.carried.inodes]
    exact hc.cleared.inodes fun hf => hfill ⟨hc.ne, hf⟩
  holdings := hholdings
  blocks := by
    intro j hj
    rw [hc.carried.blocks]
    refine hc.cleared.blocks ?_
    rw [TypeGraph.containsInode, hc.carried.inodes] at hj
    exact hj

end RenameCarried

/-- The log is no part of the specification. -/
theorem RenameDone.recordProv {i : InodeId} (hdone : RenameDone g g' sd sn dd dn i) (ts : Timestamp)
    (op : ProvOp) (x : InodeId) (detail : String) :
    RenameDone g (g'.recordProv ts op x detail) sd sn dd dn i :=
  ⟨hdone.arrived, hdone.left, hdone.replaced, hdone.names, hdone.inode, hdone.subtree, hdone.dotdot,
    hdone.lookup, hdone.inodes, hdone.holdings, hdone.blocks⟩

/-- Both implementations go through the two steps. -/
theorem Renamed.carried (h : Inv g) {di : InodeId} (hd : g.dirInode dd = some di) (h' : Inv g')
    (hsn : UserName sn) (hdn : UserName dn) (hnext : g'.nextEdge ≤ EDGE_CAPACITY)
    (hren : Renamed now g sd sn dd dn g') :
    ((sd, sn) = (dd, dn) ∧ g' = g ∧ ∃ e t, g.entries e = some (sd, t, sn)) ∨
    ∃ g₁ t, RenameCarried g g₁ g' sd sn dd dn t := by
  have hstays : ∀ {g₁}, DestinationCleared g g₁ dd dn → Cleared g g₁ dd dn → ¬ g.DirAt dd dn dd :=
    fun hclears hcleared => (hclears.dirs.mp (hcleared.keepDir hd)).2
  cases hren with
  | @same e t hdir hname he =>
      subst hdir hname
      exact .inl ⟨rfl, rfl, e, t, he⟩
  | @inPlace e t g₁ hdir hne he hremove hcleared =>
      subst hdir
      have hclears := removeDestination_clears h hremove
      have he₁ : g₁.entries e = some (sd, t, sn) :=
        hcleared.keep hsn (fun hpair => hne (congrArg Prod.snd hpair)) he
      refine .inr ⟨g₁, t, h, hcleared.inv, h', hsn, hdn, fun hpair => hne (congrArg Prod.snd hpair),
        ⟨e, he⟩, ⟨e, he₁⟩, hclears, (removeDestination_released h hremove).taken,
        hcleared.inv.renameEntry_carried h' he₁ hsn hdn hne, hstays hclears hcleared, ?_⟩
      intro m hm hback
      have hchild : g.shape.Child sd m := ⟨e, sn, t, hm, hsn, he⟩
      exact h.shape.tree.acyclic (h.shape.rooted hm) (TransGen.tail' hback hchild)
  | @moved e t g₁ hne he hcycle hremove hcleared he₁ =>
      have hclears := removeDestination_clears h hremove
      have hinv := hcleared.inv
      rw [hinv.moveEntry_nextEdge he₁] at hnext
      have hcarried : NameCarried g₁ (g₁.moveEntry e sd t dd dn) sd sn dd dn t := by
        obtain ⟨i, hi⟩ := hinv.getInode_of_entry he₁
        by_cases hkind : i.vtype = .directory
        · obtain ⟨m, hm⟩ := hinv.dir_of_entry he₁ hi hkind
          exact hinv.moveDirEntry_carried h' he₁ hsn (hcleared.keepDir hd) hcleared.free hnext hm
        · exact hinv.moveFileEntry_carried h' he₁ hi hkind hnext
      exact .inr ⟨g₁, t, h, hinv, h', hsn, hdn, fun hpair => hne (congrArg Prod.fst hpair),
        ⟨e, he⟩, ⟨e, he₁⟩, hclears, (removeDestination_released h hremove).taken, hcarried,
        hstays hclears hcleared, fun hm => h.not_below hm hcycle⟩

end Assembling

/-- A successful rename of a name of `i`, in one directory or across two: the destination name leads to `i`
    and the source name to nothing; a replaced inode has lost that name; and everything else is as before
    but for the link counts of the two inodes and the ".." of a moved directory. -/
theorem rename_done {g : TypeGraph} (hg : Reachable g) {now : Nat → Timestamp} {sd dd : DirId}
    {sn dn : String} (hcall : InCapacityCall g (.rename sd sn dd dn) (rename now sd sn dd dn g).2)
    (hok : (rename now sd sn dd dn g).1 = .ok ()) {i : InodeId} (hsrc : g.resolveName sd sn = some i) :
    RenameDone g (rename now sd sn dd dn g).2 sd sn dd dn i := by
  have h := hg.inv
  have h' : Inv (rename now sd sn dd dn g).2 := Op.apply_inv _ (.rename sd sn dd dn) h hcall.1 hcall.2
  have hholdings : (rename now sd sn dd dn g).2.holdings = g.holdings :=
    Op.holdings_eq (.rename sd sn dd dn) trivial
  obtain ⟨di, hd⟩ := h.liveDir_iff.mp (hcall.1 dd (List.mem_cons_of_mem sd List.mem_cons_self))
  have hnext := hcall.2.nextEdge_le h.edgeIds.next_le
  rcases rename_spec now sd sn dd dn h with
    ⟨o, hfail, heq⟩ | ⟨hsn, hdn, g₂, hren, heq⟩
  · rw [heq] at hok
    exact absurd hok (hfail ())
  · rw [heq] at h' hholdings hnext ⊢
    have h₂ : Inv g₂ := h'.withSides g₂.fileData g₂.symlinkTargets g₂.acls g₂.quotas g₂.provLog g₂.capCtx
    rcases hren.carried h hd h₂ hsn hdn hnext with ⟨hpair, rfl, e, t, he⟩ | ⟨g₁, t, hcarried⟩
    · cases hpair
      rw [h.resolveName_iff.mpr ⟨e, he⟩] at hsrc
      cases hsrc
      exact (h.renameDone_same he hsn).recordProv _ _ _ _
    · rw [h.resolveName_iff.mpr hcarried.entry] at hsrc
      cases hsrc
      exact (hcarried.done hholdings).recordProv _ _ _ _

/-- A directory moved over an empty one, in another directory. -/
theorem rename_done_replaced :
    let now := fun _ => 0
    let g := (TypeGraph.new 0).calls now
      [.mkdir 1 "a" 0 0 .dirDefault, .createFile 2 "f" 0 0 .fileDefault, .mkdir 1 "b" 0 0 .dirDefault,
        .mkdir 3 "c" 0 0 .dirDefault]
    RenameDone g (rename now 1 "a" 3 "c" g).2 1 "a" 3 "c" 2 :=
  rename_done (Run.calls _ (.new 0) (by decide)) (by decide) (by decide) (by decide)

end SotFs
