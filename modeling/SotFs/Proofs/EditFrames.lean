/-
Module: SotFs.Proofs.EditFrames
Layer: Proofs
Purpose: What an edit leaves alone. Edits of names are seen by no other view of the edge pool and edits of
  other edges are not seen among the names; an inode keeps its kind until it is freed, along a chain of edits
  and so along a call; and a name or a side edge leads to an inode that was there before.
Trusted boundary: none
Main exports: Edge.sideInode, Edit.targets, Edit.sideView, Edit.sideEdges, Edit.kinds, CountersLe,
  Edits.counters, Op.live_kept
-/
import SotFs.Proofs.Edits
import SotFs.Proofs.Holdings

namespace SotFs

open Std (ExtTreeMap ExtTreeSet)
open Relation Foundation

/-! ### Edits of names seen from the other edges -/

section Names

variable {g : TypeGraph} {β : Type} {f : Edge → Option β}

theorem Inv.isName_entry (h : Inv g) {e d t n} (he : g.entries e = some (d, t, n)) :
    IsName (g.edges.data e) := by
  rw [h.entries_iff.mp he]
  exact isName_contains _ _ _ _

theorem Inv.isName_fresh (h : Inv g) {e : EdgeId} (he : g.nextEdge ≤ e) : IsName (g.edges.data e) := by
  rw [h.edgeIds.fresh he]
  exact isName_none

theorem Inv.enterInode_view (h : Inv g) (hf : ∀ e d t n, f (.contains e d t n) = none)
    (he : g.nextEdge < EDGE_CAPACITY) (inode : Inode) (d : DirId) (n : String) :
    (g.enterInode inode d n).edges.view f = g.edges.view f :=
  view_editName hf (h.enterInode_edges he) (h.isName_fresh le_rfl) (isName_contains _ _ _ _)

theorem Inv.enterLink_view (h : Inv g) (hf : ∀ e d t n, f (.contains e d t n) = none)
    (he : g.nextEdge < EDGE_CAPACITY) (d : DirId) (t : InodeId) (n : String) :
    (g.enterLink d t n).edges.view f = g.edges.view f :=
  view_editName hf (h.enterLink_edges he) (h.isName_fresh le_rfl) (isName_contains _ _ _ _)

theorem Inv.enterDir_view (h : Inv g) (hf : ∀ e d t n, f (.contains e d t n) = none)
    (he : g.nextEdge + 3 ≤ EDGE_CAPACITY) (inode : Inode) (d : DirId) (di : InodeId) (n : String) :
    (g.enterDir inode d di n).edges.view f = g.edges.view f := by
  funext x
  rw [Arena.view, Arena.view, h.enterDir_edges he, Function.update_apply, Function.update_apply,
    Function.update_apply]
  split
  · rename_i hx
    subst hx
    rw [h.edgeIds.fresh (by omega)]
    exact hf _ _ _ _
  · split
    · rename_i hx
      subst hx
      rw [h.edgeIds.fresh (by omega)]
      exact hf _ _ _ _
    · split
      · rename_i hx
        subst hx
        rw [h.edgeIds.fresh le_rfl]
        exact hf _ _ _ _
      · rfl

theorem Inv.dropName_view (h : Inv g) (hf : ∀ e d t n, f (.contains e d t n) = none) {e d t n}
    (he : g.entries e = some (d, t, n)) : (g.dropName e d t).edges.view f = g.edges.view f := by
  rw [h.dropName_eq he]
  exact view_editName hf (Arena.data_remove _ _) (h.isName_entry he) isName_none

theorem Inv.dropDir_view (h : Inv g) (hf : ∀ e d t n, f (.contains e d t n) = none) {e p ti n td}
    (he : g.entries e = some (p, ti, n)) (htd : g.dirInode td = some ti) :
    (g.dropDir p n ti td).edges.view f = g.edges.view f := by
  obtain ⟨edges, _, _, _, heq, _, _, hdata, _⟩ := h.dropDir_eq he htd
  rw [heq]
  refine view_clear _ hdata ?_
  intro x hx
  rcases (h.mem_rmdirEdges he _ _).mp hx with rfl | ⟨t, m, hx⟩
  · exact (h.isName_entry he).view hf
  · exact (h.isName_entry hx).view hf

theorem Inv.renameEntry_view (h : Inv g) (hf : ∀ e d t n, f (.contains e d t n) = none) {e d t n n'}
    (he : g.entries e = some (d, t, n)) (hne : n ≠ n') :
    (g.renameContainsEdge e n').2.edges.view f = g.edges.view f :=
  view_editName hf (h.renameEntry_edges he hne) (h.isName_entry he) (isName_contains _ _ _ _)

theorem Inv.movedEntry_view (h : Inv g) (hf : ∀ e d t n, f (.contains e d t n) = none) {e p t n q n'}
    (he : g.entries e = some (p, t, n)) (hcap : g.nextEdge < EDGE_CAPACITY) :
    (g.movedEntry e p t n q n').edges.view f = g.edges.view f := by
  rw [← view_editName hf (Arena.data_remove g.edges e) (h.isName_entry he) isName_none]
  refine view_editName hf ((h.edgeIds.remove e).insert_data hcap _) ?_ (isName_contains _ _ _ _)
  rw [(h.edgeIds.remove e).fresh le_rfl]
  exact isName_none

end Names

section Moves

variable {g : TypeGraph} {e : EdgeId} {p q m : DirId} {t qi : InodeId} {n n' : String}

/-- The entries after the move of a directory: its entry is at the new place and its ".." leads there. -/
theorem Inv.moveDirEntry_entries (h : Inv g) (he : g.entries e = some (p, t, n)) (hn : UserName n)
    (hq : g.dirInode q = some qi) (hfree : ∀ x t', g.entries x ≠ some (q, t', n'))
    (hcap : g.nextEdge < EDGE_CAPACITY) (hm : g.dirInode m = some t) {x : EdgeId} {old : InodeId}
    (hx : g.entries x = some (m, old, "..")) :
    (g.moveEntry e p t q n').entries =
      Function.update (g.movedEntry e p t n q n').entries x (some (m, qi, "..")) := by
  have hindexed := h.movedEntry_indexed he hcap hfree
  have hx' : (g.movedEntry e p t n q n').entries x = some (m, old, "..") :=
    h.movedEntry_dotdot he hn hcap hx
  rw [h.moveDirEntry_eq he hn hq hfree hcap hm hx]
  exact Arena.view_update (hindexed.withTarget_data qi hx')

theorem Inv.moveDirEntry_view {β : Type} {f : Edge → Option β} (h : Inv g)
    (hf : ∀ e d t n, f (.contains e d t n) = none) (he : g.entries e = some (p, t, n)) (hn : UserName n)
    (hq : g.dirInode q = some qi) (hfree : ∀ x t', g.entries x ≠ some (q, t', n'))
    (hcap : g.nextEdge < EDGE_CAPACITY) (hm : g.dirInode m = some t) {x : EdgeId} {old : InodeId}
    (hx : g.entries x = some (m, old, "..")) :
    (g.moveEntry e p t q n').edges.view f = g.edges.view f := by
  have hindexed := h.movedEntry_indexed he hcap hfree
  have hx' : (g.movedEntry e p t n q n').entries x = some (m, old, "..") :=
    h.movedEntry_dotdot he hn hcap hx
  rw [h.moveDirEntry_eq he hn hq hfree hcap hm hx, ← h.movedEntry_view hf he hcap]
  refine view_editName hf (hindexed.withTarget_data qi hx') ?_ (isName_contains _ _ _ _)
  rw [hindexed.entries_iff.mp hx']
  exact isName_contains _ _ _ _

end Moves

/-! ### Edits of other edges seen from the names -/

section Sides

variable {g : TypeGraph} {t : InodeId}

theorem Inv.attachBlock_entries (h : Inv g) (he : g.nextEdge < EDGE_CAPACITY)
    (offset sectorStart sectorCount : Nat) :
    (g.attachBlock t offset sectorStart sectorCount).entries = g.entries :=
  h.view_newEdge he rfl

theorem Inv.attachXattr_entries (h : Inv g) (he : g.nextEdge < EDGE_CAPACITY) (ns : XAttrNamespace)
    (name : String) (value : List UInt8) : (g.attachXattr t ns name value).entries = g.entries :=
  h.view_newEdge he rfl

theorem Inv.attachGrant_entries (h : Inv g) (he : g.nextEdge < EDGE_CAPACITY) (rights : Rights) :
    (g.attachGrant t rights).entries = g.entries :=
  h.view_newEdge he rfl

theorem Inv.dropXattr_entries (h : Inv g) {e : EdgeId} {a : XAttrId}
    (he : g.edges.view Edge.attachment e = some (t, a)) : (g.dropXattr t a).entries = g.entries := by
  rw [h.dropXattr_eq he]
  exact view_removeEdge (h.attachment_iff.mp he) rfl

theorem Inv.dropGrants_entries (h : Inv g) : (g.dropGrants t).entries = g.entries := by
  obtain ⟨edges, _, _, heq, _, _, _, hdata⟩ := h.dropGrants_eq t
  rw [heq]
  refine view_clear _ hdata ?_
  intro x hx
  obtain ⟨c, r, hx⟩ := h.mem_grantsInto.mp hx
  rw [hx]
  rfl

end Sides

/-! ### Where names, side edges and inodes of the edited graph come from -/

/-- The inode that an edge other than a name belongs to. -/
def Edge.sideInode : Edge → Option InodeId
  | .pointsTo _ src _ _ => some src
  | .hasXattr _ src _ => some src
  | .grants _ _ tgt _ => some tgt
  | _ => none

section Frames

variable {link free : TypeGraph → InodeId → Prop} {g g' : TypeGraph}

/-- A name of the edited graph leads where a name led before, to the new inode, to a directory's own inode,
    or to an inode that is named once more. -/
theorem Edit.targets (h : Inv g) (hedit : Edit link free g g') {x : EdgeId} {d : DirId} {t : InodeId}
    {n : String} (hx : g'.entries x = some (d, t, n)) :
    (∃ x' d' n', g.entries x' = some (d', t, n')) ∨ t = g.nextInode ∨
      (∃ c, g.dirInode c = some t) ∨ (link g t ∧ ∃ i, g.getInode t = some i) := by
  cases hedit with
  | enterInode _ he =>
      rw [h.enterInode_entries _ _ _ he, Function.update_apply] at hx
      split at hx
      · cases hx
        exact .inr (.inl rfl)
      · exact .inl ⟨x, d, n, hx⟩
  | enterDir _ _ he hd =>
      rw [h.enterDir_entries _ _ _ _ he] at hx
      simp only [Function.update_apply] at hx
      split at hx
      · cases hx
        exact .inr (.inr (.inl ⟨_, hd⟩))
      · split at hx
        · cases hx
          exact .inr (.inl rfl)
        · split at hx
          · cases hx
            exact .inr (.inl rfl)
          · exact .inl ⟨x, d, n, hx⟩
  | enterLink he _ _ _ ht _ hlink =>
      rw [h.enterLink_entries he, Function.update_apply] at hx
      split at hx
      · cases hx
        exact .inr (.inr (.inr ⟨hlink, _, ht⟩))
      · exact .inl ⟨x, d, n, hx⟩
  | dropName he hn ht hkind =>
      rw [h.dropName_entries he, Function.update_apply] at hx
      split at hx
      · cases hx
      · exact .inl ⟨x, d, n, hx⟩
  | dropLastName he hn ht hkind =>
      rw [h.dropLastName_entries he hn ht hkind, Function.update_apply] at hx
      split at hx
      · cases hx
      · exact .inl ⟨x, d, n, hx⟩
  | dropDir he _ htd =>
      exact .inl ⟨x, d, n, ((h.dropDir_entries he htd).mp hx).2.2⟩
  | @renameEntry e d' t' m n' he _ _ hne =>
      have hentries : (g.renameContainsEdge e n').2.entries =
          Function.update g.entries e (some (d', t', n')) := Arena.view_update (h.renameEntry_edges he hne)
      rw [hentries, Function.update_apply] at hx
      split at hx
      · cases hx
        exact .inl ⟨_, _, _, he⟩
      · exact .inl ⟨x, d, n, hx⟩
  | moveFileEntry he _ _ _ _ hcap ht hkind =>
      rw [h.moveFileEntry_eq he ht hkind, h.movedEntry_entries _ _ _ _ _ _ hcap, Function.update_apply] at hx
      split at hx
      · cases hx
        exact .inl ⟨_, _, _, he⟩
      · rw [Function.update_apply] at hx
        split at hx
        · cases hx
        · exact .inl ⟨x, d, n, hx⟩
  | moveDirEntry he hn hq _ hfree hcap hm =>
      obtain ⟨y, old, hy⟩ := h.exists_dotdot hm he hn
      rw [h.moveDirEntry_entries he hn hq hfree hcap hm hy, h.movedEntry_entries _ _ _ _ _ _ hcap,
        Function.update_apply] at hx
      split at hx
      · cases hx
        exact .inr (.inr (.inl ⟨_, hq⟩))
      · rw [Function.update_apply] at hx
        split at hx
        · cases hx
          exact .inl ⟨_, _, _, he⟩
        · rw [Function.update_apply] at hx
          split at hx
          · cases hx
          · exact .inl ⟨x, d, n, hx⟩
  | modifyInode => exact .inl ⟨x, d, n, hx⟩
  | attachBlock _ he =>
      rw [h.attachBlock_entries he] at hx
      exact .inl ⟨x, d, n, hx⟩
  | attachXattr he =>
      rw [h.attachXattr_entries he] at hx
      exact .inl ⟨x, d, n, hx⟩
  | modifyXattr => exact .inl ⟨x, d, n, hx⟩
  | dropXattr he =>
      rw [h.dropXattr_entries he] at hx
      exact .inl ⟨x, d, n, hx⟩
  | dropGrants =>
      rw [h.dropGrants_entries] at hx
      exact .inl ⟨x, d, n, hx⟩
  | attachGrant _ he =>
      rw [h.attachGrant_entries he] at hx
      exact .inl ⟨x, d, n, hx⟩
  | sides => exact .inl ⟨x, d, n, hx⟩

/-- Seen past the names, an edge slot is as before, or vacant now, or holds a new edge of a live inode; a
    new block edge takes a new block id with it. -/
theorem Edit.sideView (h : Inv g) (hedit : Edit link free g g') {β : Type} {f : Edge → Option β}
    (hf : ∀ e d t n, f (.contains e d t n) = none) (x : EdgeId) :
    g'.edges.view f x = none ∨ g'.edges.view f x = g.edges.view f x ∨
      (x = g.nextEdge ∧ ∃ v t, g'.edges.data x = some v ∧ v.sideInode = some t ∧
        g'.containsInode t = true ∧ (v.pointer = none ∨ g.nextBlock < g'.nextBlock)) := by
  have hnew : ∀ {v : Edge} {t : InodeId} {nextBlock : BlockId}, g.nextEdge < EDGE_CAPACITY →
      v.sideInode = some t → g.containsInode t = true → v.pointer = none ∨ g.nextBlock < nextBlock →
      ∀ edges : Arena Edge EDGE_CAPACITY, edges = (g.edges.insertAt (idToArena g.nextEdge) v).2 →
      edges.view f x = g.edges.view f x ∨
        (x = g.nextEdge ∧ ∃ v t, edges.data x = some v ∧ v.sideInode = some t ∧
          g.containsInode t = true ∧ (v.pointer = none ∨ g.nextBlock < nextBlock)) := by
    rintro v t nextBlock he hv hlive hblock _ rfl
    rw [Arena.view, Arena.view, h.edgeIds.insert_data he, Function.update_apply]
    split
    · rename_i hx
      exact .inr ⟨hx, v, t, rfl, hv, hlive, hblock⟩
    · exact .inl rfl
  have hold : ∀ {old edges : Arena Edge EDGE_CAPACITY}, (edges.data x = none ∨ edges.data x = old.data x) →
      edges.view f x = none ∨ edges.view f x = old.view f x := by
    intro old edges hdata
    rw [Arena.view, Arena.view]
    rcases hdata with hnone | hsame
    · rw [hnone]
      exact .inl rfl
    · rw [hsame]
      exact .inr rfl
  have hcleared : ∀ {old edges : Arena Edge EDGE_CAPACITY} {es : List EdgeId},
      (edges.data x = if x ∈ es then none else old.data x) →
      edges.view f x = none ∨ edges.view f x = old.view f x := by
    intro old edges es hdata
    refine hold ?_
    rw [hdata]
    split
    · exact .inl rfl
    · exact .inr rfl
  have hremoved : ∀ {a : Arena Edge EDGE_CAPACITY} {s : Nat},
      (a.remove s).2.data x = none ∨ (a.remove s).2.data x = a.data x := by
    intro a s
    rw [Arena.data_remove, Function.update_apply]
    split
    · exact .inl rfl
    · exact .inr rfl
  cases hedit with
  | enterInode _ he => exact .inr (.inl (congrFun (h.enterInode_view hf he _ _ _) x))
  | enterDir _ _ he => exact .inr (.inl (congrFun (h.enterDir_view hf he _ _ _ _) x))
  | enterLink he => exact .inr (.inl (congrFun (h.enterLink_view hf he _ _ _) x))
  | dropName he => exact .inr (.inl (congrFun (h.dropName_view hf he) x))
  | @dropLastName i e d t n he hn ht hkind =>
      obtain ⟨edges, _, heq, _, _, _, hdata⟩ := (h.dropName he hn ht hkind).collectInode_eq _
      rw [TypeGraph.dropLastName, heq, ← h.dropName_view hf he]
      have hx : edges.data x = none ∨ edges.data x = (g.dropName e d t).edges.data x := by
        rw [hdata x]
        split
        · exact .inl rfl
        · exact .inr rfl
      exact (hold hx).imp id .inl
  | dropDir he _ htd => exact .inr (.inl (congrFun (h.dropDir_view hf he htd) x))
  | renameEntry he _ _ hne => exact .inr (.inl (congrFun (h.renameEntry_view hf he hne) x))
  | moveFileEntry he _ _ _ _ hcap ht hkind =>
      rw [h.moveFileEntry_eq he ht hkind]
      exact .inr (.inl (congrFun (h.movedEntry_view hf he hcap) x))
  | moveDirEntry he hn hq _ hfree hcap hm =>
      obtain ⟨y, old, hy⟩ := h.exists_dotdot hm he hn
      exact .inr (.inl (congrFun (h.moveDirEntry_view hf he hn hq hfree hcap hm hy) x))
  | modifyInode => exact .inr (.inl rfl)
  | attachBlock _ he hlive => exact .inr (hnew he rfl hlive (.inr (Nat.lt_succ_self _)) _ rfl)
  | attachXattr he hlive => exact .inr (hnew he rfl hlive (.inl rfl) _ rfl)
  | modifyXattr => exact .inr (.inl rfl)
  | dropXattr he =>
      rw [h.dropXattr_eq he]
      exact (hold hremoved).imp id .inl
  | dropGrants =>
      obtain ⟨edges, _, _, heq, _, _, _, hdata⟩ := h.dropGrants_eq _
      rw [heq]
      exact (hcleared (hdata x)).imp id .inl
  | attachGrant _ he hlive => exact .inr (hnew he rfl hlive (.inl rfl) _ rfl)
  | sides => exact .inr (.inl rfl)

/-- A side edge of the edited graph was one before or belongs to an inode that is live. -/
theorem Edit.sideEdges (h : Inv g) (hedit : Edit link free g g') {x : EdgeId} {t : InodeId}
    (hx : g'.edges.view Edge.sideInode x = some t) :
    g.edges.view Edge.sideInode x = some t ∨ g'.containsInode t = true := by
  rcases hedit.sideView h (f := Edge.sideInode) (fun _ _ _ _ => rfl) x with
    hnone | hsame | ⟨_, v, t', hv, hside, hlive, _⟩
  · rw [hnone] at hx
    cases hx
  · exact .inl (hsame ▸ hx)
  · rw [Arena.view, hv, Option.bind_some, hside] at hx
    cases hx
    exact .inr hlive

/-- An inode keeps its kind until it is freed, and a file's block edges go with it. -/
theorem Edit.kinds (h : Inv g) (hedit : Edit link free g g') {s : Nat} {k : VnodeType}
    (hs : g.kinds s = some k) :
    g'.kinds s = some k ∨ ∃ t, idToArena t = s ∧ free g t ∧
      (k ≠ .directory → ∀ x b o, g.edges.data x = some (.pointsTo x t b o) → g'.edges.data x = none) := by
  have hfresh : g.nextInode ≠ s := by
    rintro rfl
    rw [h.kinds_fresh le_rfl] at hs
    cases hs
  have hmodify : ∀ {t : InodeId} {f : Inode → Inode}, (∀ i, (f i).vtype = i.vtype) →
      (g.inodes.modify (idToArena t) f).view (fun i => some i.vtype) = g.kinds := by
    intro t f hf
    refine Arena.view_update_eq (Arena.data_modify _ _ _) ?_
    cases g.inodes.data (idToArena t) with
    | none => rfl
    | some i => exact congrArg some (hf i)
  cases hedit with
  | enterInode hi =>
      left
      rw [TypeGraph.kinds, Arena.view, h.enterInode_inodes _ _ _ hi, Function.update_of_ne (Ne.symm hfresh)]
      exact hs
  | enterDir hi =>
      left
      rw [TypeGraph.kinds, Arena.view, h.enterDir_inodes _ _ _ _ hi, Function.update_of_ne (Ne.symm hfresh)]
      exact hs
  | @enterLink _ _ _ t =>
      left
      have hkinds := hmodify (t := t) (f := fun i => { i with linkCount := i.linkCount + 1 }) fun _ => rfl
      exact (congrFun hkinds s).trans hs
  | @dropName _ _ _ t _ he =>
      left
      have hkinds := hmodify (t := t) (f := fun i => { i with linkCount := decrement32 i.linkCount })
        fun _ => rfl
      rw [h.dropName_eq he]
      exact (congrFun hkinds s).trans hs
  | @dropLastName i e d t n he hn ht hkind _ hfree =>
      have hinodes := h.dropLastName_inodes he hn ht hkind
      by_cases hst : idToArena t = s
      · refine .inr ⟨t, hst, hfree, ?_⟩
        intro _ x b o hx
        obtain ⟨edges, _, heq, _, _, _, hdata⟩ := (h.dropName he hn ht hkind).collectInode_eq t
        have hmem : x ∈ SetIndex.members (g.dropName e d t).inodePointsTo t := by
          rw [h.dropName_eq he]
          exact h.pointsTo_iff.mpr ⟨b, o, hx⟩
        rw [TypeGraph.dropLastName, heq]
        exact (hdata x).trans (if_pos hmem)
      · left
        rw [TypeGraph.kinds, Arena.view, hinodes, Function.update_of_ne (Ne.symm hst)]
        exact hs
  | @dropDir e p n ti td he _ htd _ hfree =>
      have hinodes := h.dropDir_inodes he htd
      by_cases hst : ti = s
      · refine .inr ⟨ti, ?_, hfree, ?_⟩
        · rw [← hst]
          exact h.shape.dir_slot htd
        · intro hk
          have hdir : g.kinds ti = some .directory := h.shape.dir_kind htd
          rw [hst, hs] at hdir
          exact absurd (Option.some.inj hdir) hk
      · left
        rw [TypeGraph.kinds, Arena.view, hinodes, Function.update_of_ne (Ne.symm hst)]
        exact hs
  | renameEntry he _ _ hne =>
      rw [h.renameContainsEdge_eq he hne]
      exact .inl hs
  | moveFileEntry he _ _ _ _ _ ht hkind =>
      rw [h.moveFileEntry_eq he ht hkind]
      exact .inl hs
  | moveDirEntry he hn hq _ hfree hcap hm =>
      obtain ⟨y, old, hy⟩ := h.exists_dotdot hm he hn
      rw [h.moveDirEntry_eq he hn hq hfree hcap hm hy]
      exact .inl hs
  | modifyInode t hf => exact .inl ((congrFun (hmodify fun i => (hf i).2.1) s).trans hs)
  | attachBlock => exact .inl hs
  | attachXattr => exact .inl hs
  | modifyXattr => exact .inl hs
  | dropXattr he =>
      rw [h.dropXattr_eq he]
      exact .inl hs
  | dropGrants =>
      obtain ⟨_, _, _, heq, _⟩ := h.dropGrants_eq _
      rw [heq]
      exact .inl hs
  | attachGrant => exact .inl hs
  | sides => exact .inl hs

/-- A directory stays until its inode is freed. -/
theorem Edit.dirs (h : Inv g) (hedit : Edit link free g g') {d : DirId} {i : InodeId}
    (hd : g.dirInode d = some i) : g'.dirInode d = some i ∨ free g i := by
  cases hedit with
  | enterDir _ hdir =>
      left
      have hfresh : d ≠ g.nextDir := by
        rintro rfl
        rw [h.dirInode_fresh le_rfl] at hd
        cases hd
      have hdirs := h.dirIds.insert_data hdir ⟨g.nextDir, g.nextInode⟩
      refine (congrFun (Arena.view_update (f := fun d => some d.inodeId) hdirs) d).trans ?_
      rw [Function.update_of_ne hfresh]
      exact hd
  | dropName he =>
      rw [h.dropName_eq he]
      exact .inl hd
  | @dropLastName i e d t n =>
      obtain ⟨_, _, _, _, _, heq⟩ := dropLastName_frame (g := g) e d t
      rw [heq]
      exact .inl hd
  | @dropDir e p n ti td he _ htd _ hfree =>
      rw [h.dropDir_dirInode he htd, Function.update_apply]
      split
      · rename_i hdtd
        subst hdtd
        rw [hd] at htd
        cases htd
        exact .inr hfree
      · exact .inl hd
  | @renameEntry e d t n n' =>
      obtain ⟨_, _, heq⟩ := renameContainsEdge_frame (g := g) e n'
      rw [heq]
      exact .inl hd
  | @moveFileEntry i e p t n q qi n' =>
      obtain ⟨_, _, _, _, heq⟩ := moveEntry_frame (g := g) e p t q n'
      rw [heq]
      exact .inl hd
  | @moveDirEntry e p t n q qi n' m =>
      obtain ⟨_, _, _, _, heq⟩ := moveEntry_frame (g := g) e p t q n'
      rw [heq]
      exact .inl hd
  | dropXattr he =>
      rw [h.dropXattr_eq he]
      exact .inl hd
  | dropGrants t =>
      obtain ⟨_, _, _, heq, _⟩ := h.dropGrants_eq t
      rw [heq]
      exact .inl hd
  | enterInode | enterLink | modifyInode | attachBlock | attachXattr | modifyXattr | attachGrant | sides =>
      exact .inl hd

/-- Every key of the block sets has a member: a set is made with its first edge and goes as a whole. -/
def TypeGraph.PointsFilled (g : TypeGraph) : Prop :=
  ∀ {t}, t ∈ g.inodePointsTo → ∃ e, e ∈ SetIndex.members g.inodePointsTo t

theorem Edit.pointsFilled (h : Inv g) (hfilled : g.PointsFilled) (hedit : Edit link free g g') :
    g'.PointsFilled := by
  cases hedit with
  | attachBlock =>
      intro t ht
      rcases SetIndex.mem_add.mp ht with rfl | ht
      · exact ⟨_, SetIndex.mem_members_add.mpr (.inl ⟨rfl, rfl⟩)⟩
      · obtain ⟨e, he⟩ := hfilled ht
        exact ⟨e, SetIndex.mem_members_add.mpr (.inr he)⟩
  | dropName he =>
      rw [h.dropName_eq he]
      exact hfilled
  | @dropLastName i e d t n =>
      obtain ⟨_, _, _, _, _, heq⟩ := dropLastName_frame (g := g) e d t
      rw [heq]
      intro t' ht'
      obtain ⟨hne, ht'⟩ := ExtTreeMap.mem_erase.mp ht'
      obtain ⟨x, hx⟩ := hfilled ht'
      refine ⟨x, SetIndex.mem_members_erase.mpr ⟨?_, hx⟩⟩
      rintro rfl
      exact hne (Std.ReflCmp.compare_self)
  | dropDir he _ htd =>
      obtain ⟨_, _, _, _, heq, _⟩ := h.dropDir_eq he htd
      rw [heq]
      exact hfilled
  | @renameEntry e d t n n' =>
      obtain ⟨_, _, heq⟩ := renameContainsEdge_frame (g := g) e n'
      rw [heq]
      exact hfilled
  | @moveFileEntry i e p t n q qi n' =>
      obtain ⟨_, _, _, _, heq⟩ := moveEntry_frame (g := g) e p t q n'
      rw [heq]
      exact hfilled
  | @moveDirEntry e p t n q qi n' m =>
      obtain ⟨_, _, _, _, heq⟩ := moveEntry_frame (g := g) e p t q n'
      rw [heq]
      exact hfilled
  | dropXattr he =>
      rw [h.dropXattr_eq he]
      exact hfilled
  | dropGrants t =>
      obtain ⟨_, _, _, heq, _⟩ := h.dropGrants_eq t
      rw [heq]
      exact hfilled
  | enterInode | enterDir | enterLink | modifyInode | attachXattr | modifyXattr | attachGrant | sides =>
      exact hfilled

/-- No counter goes back. -/
structure CountersLe (g g' : TypeGraph) : Prop where
  inode : g.nextInode ≤ g'.nextInode
  dir : g.nextDir ≤ g'.nextDir
  cap : g.nextCap ≤ g'.nextCap
  block : g.nextBlock ≤ g'.nextBlock
  edge : g.nextEdge ≤ g'.nextEdge
  xattr : g.nextXattr ≤ g'.nextXattr

theorem CountersLe.refl (g : TypeGraph) : CountersLe g g := ⟨le_rfl, le_rfl, le_rfl, le_rfl, le_rfl, le_rfl⟩

theorem CountersLe.trans {g'' : TypeGraph} (h₁ : CountersLe g g') (h₂ : CountersLe g' g'') :
    CountersLe g g'' :=
  ⟨h₁.inode.trans h₂.inode, h₁.dir.trans h₂.dir, h₁.cap.trans h₂.cap, h₁.block.trans h₂.block,
    h₁.edge.trans h₂.edge, h₁.xattr.trans h₂.xattr⟩

theorem Edit.counters (h : Inv g) (hedit : Edit link free g g') : CountersLe g g' := by
  cases hedit with
  | enterInode =>
      exact ⟨Nat.le_succ _, le_rfl, le_rfl, le_rfl, Nat.le_succ _, le_rfl⟩
  | enterDir =>
      refine ⟨Nat.le_succ _, Nat.le_succ _, le_rfl, le_rfl, ?_, le_rfl⟩
      change g.nextEdge ≤ g.nextEdge + 1 + 1 + 1
      omega
  | enterLink => exact ⟨le_rfl, le_rfl, le_rfl, le_rfl, Nat.le_succ _, le_rfl⟩
  | @dropName i e d t n =>
      obtain ⟨_, _, _, _, heq⟩ := dropName_frame (g := g) e d t
      rw [heq]
      exact ⟨le_rfl, le_rfl, le_rfl, le_rfl, le_rfl, le_rfl⟩
  | @dropLastName i e d t n =>
      obtain ⟨_, _, _, _, _, heq⟩ := dropLastName_frame (g := g) e d t
      rw [heq]
      exact ⟨le_rfl, le_rfl, le_rfl, le_rfl, le_rfl, le_rfl⟩
  | @dropDir e p n ti td =>
      obtain ⟨_, _, _, _, _, _, heq⟩ := dropDir_frame (g := g) p n ti td
      rw [heq]
      exact ⟨le_rfl, le_rfl, le_rfl, le_rfl, le_rfl, le_rfl⟩
  | @renameEntry e d t n n' =>
      obtain ⟨_, _, heq⟩ := renameContainsEdge_frame (g := g) e n'
      rw [heq]
      exact ⟨le_rfl, le_rfl, le_rfl, le_rfl, le_rfl, le_rfl⟩
  | @moveFileEntry i e p t n q qi n' =>
      obtain ⟨_, _, _, _, heq⟩ := moveEntry_frame (g := g) e p t q n'
      rw [heq]
      exact ⟨le_rfl, le_rfl, le_rfl, le_rfl, Nat.le_succ _, le_rfl⟩
  | @moveDirEntry e p t n q qi n' m =>
      obtain ⟨_, _, _, _, heq⟩ := moveEntry_frame (g := g) e p t q n'
      rw [heq]
      exact ⟨le_rfl, le_rfl, le_rfl, le_rfl, Nat.le_succ _, le_rfl⟩
  | modifyInode => exact ⟨le_rfl, le_rfl, le_rfl, le_rfl, le_rfl, le_rfl⟩
  | attachBlock => exact ⟨le_rfl, le_rfl, le_rfl, Nat.le_succ _, Nat.le_succ _, le_rfl⟩
  | attachXattr => exact ⟨le_rfl, le_rfl, le_rfl, le_rfl, Nat.le_succ _, Nat.le_succ _⟩
  | modifyXattr => exact ⟨le_rfl, le_rfl, le_rfl, le_rfl, le_rfl, le_rfl⟩
  | dropXattr he =>
      rw [h.dropXattr_eq he]
      exact ⟨le_rfl, le_rfl, le_rfl, le_rfl, le_rfl, le_rfl⟩
  | dropGrants t =>
      obtain ⟨_, _, _, heq, _⟩ := h.dropGrants_eq t
      rw [heq]
      exact ⟨le_rfl, le_rfl, le_rfl, le_rfl, le_rfl, le_rfl⟩
  | attachGrant => exact ⟨le_rfl, le_rfl, Nat.le_succ _, le_rfl, Nat.le_succ _, le_rfl⟩
  | sides => exact ⟨le_rfl, le_rfl, le_rfl, le_rfl, le_rfl, le_rfl⟩

theorem Edits.counters (h : Inv g) (hedits : Edits link free g g') : CountersLe g g' := by
  refine (hedits.keep (P := fun g' => CountersLe g g') ?_ h (.refl g)).2
  intro g₁ g₂ h₁ hle hedit
  exact hle.trans (hedit.counters h₁)

end Frames

/-! ### What stays live -/

section Kept

variable {now : Nat → Timestamp} {g : TypeGraph} {op : Op}

theorem TypeGraph.containsInode_iff {t : InodeId} :
    g.containsInode t = true ↔ ∃ k, g.kinds (idToArena t) = some k := by
  rw [TypeGraph.containsInode, Arena.contains_eq_isSome, Option.isSome_iff_exists]
  constructor
  · rintro ⟨i, hi⟩
    exact ⟨i.vtype, Arena.view_eq_some.mpr ⟨i, hi, rfl⟩⟩
  · rintro ⟨k, hk⟩
    obtain ⟨i, hi, _⟩ := Arena.view_eq_some.mp hk
    exact ⟨i, hi⟩

theorem containsInode_of_get {t : InodeId} {i : Inode} (hi : g.getInode t = some i) :
    g.containsInode t = true := by
  rw [TypeGraph.getInode, Arena.get_eq_data] at hi
  rw [TypeGraph.containsInode, Arena.contains_eq_isSome, hi, Option.isSome_some]

/-- An inode keeps its kind unless the call frees it. -/
theorem Op.kinds_kept (h : Inv g) (hcall : InCapacityCall g op (op.apply now g).2) {s : Nat}
    {k : VnodeType} (hs : g.kinds s = some k) :
    (op.apply now g).2.kinds s = some k ∨ ∃ t, idToArena t = s ∧ op.Frees g t := by
  have hedits : Edits (fun _ _ => True) (fun _ t => op.Frees g t) g (op.apply now g).2 :=
    op.edits _ _ _ h hcall.1 (hcall.2.fits h) (fun _ _ => trivial) fun _ ht => ht
  refine (hedits.keep (P := fun g' => g'.kinds s = some k ∨ ∃ t, idToArena t = s ∧ op.Frees g t) ?_ h
    (.inl hs)).2
  rintro g₁ g₂ h₁ (hk | hfreed) hedit
  · rcases hedit.kinds h₁ hk with hk' | ⟨t, ht, hfrees, _⟩
    · exact .inl hk'
    · exact .inr ⟨t, ht, hfrees⟩
  · exact .inr hfreed

/-- A live inode stays live unless the call frees it. -/
theorem Op.live_kept (h : Inv g) (hcall : InCapacityCall g op (op.apply now g).2) {t : InodeId}
    (ht : g.containsInode t = true) :
    (op.apply now g).2.containsInode t = true ∨ ∃ t', idToArena t' = idToArena t ∧ op.Frees g t' := by
  obtain ⟨k, hk⟩ := TypeGraph.containsInode_iff.mp ht
  rcases op.kinds_kept h hcall hk with hkept | hfreed
  · exact .inl (TypeGraph.containsInode_iff.mpr ⟨k, hkept⟩)
  · exact .inr hfreed

/-- A directory stays unless the call frees its inode. -/
theorem Op.dirs_kept (h : Inv g) (hcall : InCapacityCall g op (op.apply now g).2) {d : DirId} {i : InodeId}
    (hd : g.dirInode d = some i) : (op.apply now g).2.dirInode d = some i ∨ op.Frees g i := by
  have hedits : Edits (fun _ _ => True) (fun _ t => op.Frees g t) g (op.apply now g).2 :=
    op.edits _ _ _ h hcall.1 (hcall.2.fits h) (fun _ _ => trivial) fun _ ht => ht
  refine (hedits.keep (P := fun g' => g'.dirInode d = some i ∨ op.Frees g i) ?_ h (.inl hd)).2
  rintro g₁ g₂ h₁ (hd₁ | hfreed) hedit
  · exact hedit.dirs h₁ hd₁
  · exact .inr hfreed

end Kept

end SotFs
