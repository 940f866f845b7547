/-
Module: SotFs.Proofs.GrantEdges
Layer: Proofs
Purpose: Who may touch a grant edge. Entry sets and block edge sets list ids of other edges only, so a call
  that takes edges out by these sets, by a search for entries or by a search for an attribute takes no grant
  out, and a call that puts an edge in puts it under an id that was never used. This holds along every run,
  with pools full or not, as long as ids do not alias slots: no id from 2^32 on has been issued.
Trusted boundary: none
Main exports: TypeGraph.grantEdges, GrantsFiled, TypeGraph.GrantsKept, Op.edgeIds, Run.grantsKept
-/
import SotFs.Proofs.FiledRuns
import SotFs.Proofs.Slots

namespace SotFs

open Std (ExtTreeMap ExtTreeSet)
open Foundation

/-- The edge itself, where it is a grant. -/
def Edge.asGrant : Edge → Option Edge
  | .grants id src tgt rights => some (.grants id src tgt rights)
  | _ => none

/-- The grant edges by slot. -/
def TypeGraph.grantEdges (g : TypeGraph) : Nat → Option Edge := g.edges.view Edge.asGrant

/-- The grant edges are `v`; ids from `next` on are vacant, and no id in an entry set or a block edge set
    is that of a grant. -/
structure GrantsFiled (v : Nat → Option Edge) (next : Nat) (g : TypeGraph) : Prop where
  le : next ≤ 2 ^ 32
  grants : g.grantEdges = v
  stored : ∀ {s w}, g.edges.data s = some w → s < next
  members : ∀ {d e}, e ∈ SetIndex.members g.dirContains d → e < next ∧ v e = none
  pointers : ∀ {t e}, e ∈ SetIndex.members g.inodePointsTo t → e < next ∧ v e = none

namespace GrantsFiled

variable {v : Nat → Option Edge} {next : Nat} {g g' : TypeGraph}

theorem vacant (h : GrantsFiled v next g) {e : EdgeId} (he : next ≤ e) : g.edges.data e = none := by
  by_contra hsome
  obtain ⟨w, hw⟩ := Option.ne_none_iff_exists'.mp hsome
  exact absurd (h.stored hw) (not_lt.mpr he)

/-- No grant sits where nothing was issued yet. -/
theorem fresh (h : GrantsFiled v next g) : v next = none := by
  rw [← h.grants, TypeGraph.grantEdges, Arena.view, h.vacant le_rfl]
  rfl

/-- What is stored, and is no grant, is not among the grants. -/
theorem other (h : GrantsFiled v next g) {e : EdgeId} {w : Edge} (he : g.edges.data e = some w)
    (hw : w.asGrant = none) : v e = none := by
  rw [← h.grants, TypeGraph.grantEdges, Arena.view, he]
  exact hw

/-- The recorded entries of a directory are among its members. -/
theorem entry (h : GrantsFiled v next g) {d : DirId} {e : EdgeId} {t : InodeId} {n : String}
    (he : (e, t, n) ∈ g.dirEntries d) : e < next ∧ v e = none := by
  unfold TypeGraph.dirEntries at he
  obtain ⟨x, hx, hsome⟩ := List.mem_filterMap.mp he
  split at hsome
  · cases hsome
    exact h.members (ExtTreeSet.mem_toList.mp hx)
  · cases hsome

/-- An entry that a search by name finds. -/
theorem found (h : GrantsFiled v next g) {d : DirId} {n : String} {e : EdgeId} (he : g.Finds d n e) :
    e < next ∧ v e = none := by
  obtain ⟨t, he⟩ := he
  obtain ⟨⟨e', t', n'⟩, hfind, rfl⟩ := Option.map_eq_some_iff.mp he
  exact h.entry (List.mem_of_find?_eq_some hfind)

/-! ### The low-level writes -/

/-- Members may go; nothing but the edge pool and the edge sets matters. -/
theorem shrink (h : GrantsFiled v next g) (hedges : g'.edges = g.edges)
    (hmembers : ∀ {d e}, e ∈ SetIndex.members g'.dirContains d → e ∈ SetIndex.members g.dirContains d)
    (hpoints : ∀ {t e}, e ∈ SetIndex.members g'.inodePointsTo t → e ∈ SetIndex.members g.inodePointsTo t) :
    GrantsFiled v next g' where
  le := h.le
  grants := by rw [← h.grants, TypeGraph.grantEdges, hedges, TypeGraph.grantEdges]
  stored := hedges ▸ h.stored
  members he := h.members (hmembers he)
  pointers he := h.pointers (hpoints he)

theorem congr (h : GrantsFiled v next g) (hedges : g'.edges = g.edges) (hsets : g'.dirContains = g.dirContains)
    (hpoints : g'.inodePointsTo = g.inodePointsTo) : GrantsFiled v next g' :=
  h.shrink hedges (fun he => hsets ▸ he) (fun he => hpoints ▸ he)

/-- A member leaves an entry set. -/
theorem dropMember (h : GrantsFiled v next g) (d : DirId) (e : EdgeId) :
    GrantsFiled v next { g with dirContains := SetIndex.drop g.dirContains d e } :=
  h.shrink rfl (fun he => (SetIndex.mem_members_drop.mp he).1) id

/-- An id that is no grant enters an entry set. -/
theorem addMember (h : GrantsFiled v next g) {e : EdgeId} (he : e < next) (hv : v e = none) (d : DirId) :
    GrantsFiled v next { g with dirContains := SetIndex.add g.dirContains d e } where
  le := h.le
  grants := h.grants
  stored := h.stored
  members := by
    intro d' x hx
    rcases SetIndex.mem_members_add.mp hx with ⟨_, rfl⟩ | hx
    · exact ⟨he, hv⟩
    · exact h.members hx
  pointers := h.pointers

/-- An id that is no grant enters a block edge set. -/
theorem addPointer (h : GrantsFiled v next g) {e : EdgeId} (he : e < next) (hv : v e = none) (t : InodeId) :
    GrantsFiled v next { g with inodePointsTo := SetIndex.add g.inodePointsTo t e } where
  le := h.le
  grants := h.grants
  stored := h.stored
  members := h.members
  pointers := by
    intro t' x hx
    rcases SetIndex.mem_members_add.mp hx with ⟨_, rfl⟩ | hx
    · exact ⟨he, hv⟩
    · exact h.pointers hx

/-- An edge under the next id, accepted or refused. -/
theorem insertEdge_or (h : GrantsFiled v next g) (hlt : next < 2 ^ 32) (w : Edge) :
    GrantsFiled v (next + 1) (g.insertEdge next w) ∨
      GrantsFiled (Function.update v next w.asGrant) (next + 1) (g.insertEdge next w) := by
  obtain ⟨idx, hframe⟩ : ∃ idx, g.insertEdge next w =
      { g with dirNameIdx := idx, edges := (g.edges.insertAt (idToArena next) w).2 } := by
    cases w <;> exact ⟨_, rfl⟩
  rw [hframe]
  rcases g.edges.insertAt_cases (idToArena next) w with ⟨_, _, hdata, _⟩ | ⟨_, hsame⟩
  · rw [idToArena_of_lt hlt] at hdata ⊢
    refine .inr
      { le := hlt
        grants := ?_
        stored := ?_
        members := ?_
        pointers := ?_ }
    · rw [← h.grants]
      exact Arena.view_update hdata
    · intro s w' hs
      change (g.edges.insertAt next w).2.data s = some w' at hs
      rw [hdata, Function.update_apply] at hs
      split at hs
      · rename_i heq
        exact heq ▸ Nat.lt_succ_self _
      · exact (h.stored hs).trans (Nat.lt_succ_self _)
    · intro d e he
      obtain ⟨hold, hnone⟩ := h.members he
      exact ⟨hold.trans (Nat.lt_succ_self _), by rw [Function.update_of_ne hold.ne, hnone]⟩
    · intro t e he
      obtain ⟨hold, hnone⟩ := h.pointers he
      exact ⟨hold.trans (Nat.lt_succ_self _), by rw [Function.update_of_ne hold.ne, hnone]⟩
  · refine .inl
      { le := hlt
        grants := ?_
        stored := ?_
        members := fun he => ⟨(h.members he).1.trans (Nat.lt_succ_self _), (h.members he).2⟩
        pointers := fun he => ⟨(h.pointers he).1.trans (Nat.lt_succ_self _), (h.pointers he).2⟩ }
    · rw [← h.grants, TypeGraph.grantEdges, hsame, TypeGraph.grantEdges]
    · intro s w' hs
      change (g.edges.insertAt (idToArena next) w).2.data s = some w' at hs
      rw [hsame] at hs
      exact (h.stored hs).trans (Nat.lt_succ_self _)

/-- An edge that is no grant, under the next id. -/
theorem insertEdge (h : GrantsFiled v next g) (hlt : next < 2 ^ 32) {w : Edge} (hw : w.asGrant = none) :
    GrantsFiled v (next + 1) (g.insertEdge next w) := by
  rcases h.insertEdge_or hlt w with hkept | hupdated
  · exact hkept
  · rwa [hw, Function.update_eq_self_iff.mpr h.fresh.symm] at hupdated

theorem addContains (h : GrantsFiled v next g) (hlt : next < 2 ^ 32) (d : DirId) (t : InodeId) (n : String) :
    GrantsFiled v (next + 1) (g.addContains next d t n) :=
  ((h.insertEdge hlt (w := .contains next d t n) rfl).addMember (Nat.lt_succ_self _) h.fresh d).congr
    rfl rfl rfl

/-- An edge that leaves takes its grant with it, if it is one. -/
theorem removeEdge_update (h : GrantsFiled v next g) {e : EdgeId} (he : e < next) :
    GrantsFiled (Function.update v e none) next (g.removeEdge e).2 := by
  have hdata := removeEdge_data g e
  rw [idToArena_of_lt (lt_of_lt_of_le he h.le)] at hdata
  obtain ⟨edges, idx, hframe⟩ := removeEdge_frame (g := g) e
  have hkept : ∀ {x}, x < next ∧ v x = none → x < next ∧ Function.update v e none x = none := by
    rintro x ⟨hlt, hnone⟩
    refine ⟨hlt, ?_⟩
    rw [Function.update_apply, hnone, ite_self]
  refine
    { le := h.le
      grants := ?_
      stored := ?_
      members := ?_
      pointers := ?_ }
  · rw [← h.grants]
    exact Arena.view_update hdata
  · intro s w hs
    rw [hdata, Function.update_apply] at hs
    split at hs
    · cases hs
    · exact h.stored hs
  · intro d x hx
    rw [hframe] at hx
    exact hkept (h.members hx)
  · intro t x hx
    rw [hframe] at hx
    exact hkept (h.pointers hx)

/-- An edge that is no grant leaves. -/
theorem removeEdge (h : GrantsFiled v next g) {e : EdgeId} (he : e < next ∧ v e = none) :
    GrantsFiled v next (g.removeEdge e).2 := by
  have hremoved := h.removeEdge_update he.1
  rwa [Function.update_eq_self_iff.mpr he.2.symm] at hremoved

/-- An edge is rewritten in place, a grant not at all. -/
theorem modifyEdge (h : GrantsFiled v next g) (e : EdgeId) {f : Edge → Edge}
    (hf : ∀ w, (f w).asGrant = w.asGrant) : GrantsFiled v next (g.modifyEdge e f) := by
  refine ⟨h.le, ?_, ?_, h.members, h.pointers⟩
  · rw [← h.grants]
    refine Arena.view_update_eq (Arena.data_modify _ _ _) ?_
    cases g.edges.data (idToArena e) with
    | none => rfl
    | some w => exact hf w
  · intro s w hs
    change Function.update g.edges.data (idToArena e) ((g.edges.data (idToArena e)).map f) s = some w at hs
    rw [Function.update_apply] at hs
    split at hs
    · rename_i heq
      obtain ⟨w', hw', _⟩ := Option.map_eq_some_iff.mp hs
      exact heq ▸ h.stored hw'
    · exact h.stored hs

/-! ### Taking names and blocks out -/

theorem detachContains (h : GrantsFiled v next g) {e : EdgeId} (he : e < next ∧ v e = none) :
    GrantsFiled v next (g.detachContains e) := by
  have hremoved := h.removeEdge he
  unfold TypeGraph.detachContains
  split
  · rename_i heq
    rw [heq] at hremoved
    exact (hremoved.dropMember _ e).congr rfl rfl rfl
  · rename_i heq
    rw [heq] at hremoved
    exact hremoved

theorem dropName (h : GrantsFiled v next g) {e : EdgeId} (he : e < next ∧ v e = none) (d : DirId)
    (t : InodeId) : GrantsFiled v next (g.dropName e d t) :=
  ((h.removeEdge he).dropMember d e).congr rfl rfl rfl

theorem releaseBlockEdge (h : GrantsFiled v next g) {e : EdgeId} (he : e < next ∧ v e = none) :
    GrantsFiled v next (g.releaseBlockEdge e) := by
  have hremoved := h.removeEdge he
  unfold TypeGraph.releaseBlockEdge
  split
  · rename_i heq
    rw [heq] at hremoved
    split
    · dsimp only
      split <;> exact hremoved.congr rfl rfl rfl
    · exact hremoved
  · rename_i heq
    rw [heq] at hremoved
    exact hremoved

/-- Edges that are no grants are taken out one by one. -/
theorem foldl {out : TypeGraph → EdgeId → TypeGraph}
    (hout : ∀ {g : TypeGraph} {e : EdgeId}, GrantsFiled v next g → e < next ∧ v e = none →
      GrantsFiled v next (out g e)) (es : List EdgeId) :
    ∀ {g : TypeGraph}, GrantsFiled v next g → (∀ e ∈ es, e < next ∧ v e = none) →
      GrantsFiled v next (es.foldl out g) := by
  induction es with
  | nil => exact fun h _ => h
  | cons e es ih =>
      intro g h hes
      exact ih (hout h (hes e List.mem_cons_self)) fun x hx => hes x (List.mem_cons_of_mem e hx)

theorem collectInode (h : GrantsFiled v next g) (t : InodeId) : GrantsFiled v next (g.collectInode t) := by
  have hpoints : GrantsFiled v next { g with inodePointsTo := g.inodePointsTo.erase t } :=
    h.shrink rfl id fun he => (SetIndex.mem_members_erase.mp he).2
  have hreleased := foldl (fun h he => h.releaseBlockEdge he) (SetIndex.members g.inodePointsTo t).toList
    hpoints fun e he => h.pointers (ExtTreeSet.mem_toList.mp he)
  exact hreleased.congr rfl rfl rfl

theorem dropLastName (h : GrantsFiled v next g) {e : EdgeId} (he : e < next ∧ v e = none) (d : DirId)
    (t : InodeId) : GrantsFiled v next (g.dropLastName e d t) :=
  (h.dropName he d t).collectInode t

theorem removeDir (h : GrantsFiled v next g) (d : DirId) : GrantsFiled v next (g.removeDir d) := by
  unfold TypeGraph.removeDir
  dsimp only
  split <;> exact h.congr rfl rfl rfl

theorem dropDir (h : GrantsFiled v next g) (p : DirId) (n : String) (ti : InodeId) (td : DirId) :
    GrantsFiled v next (g.dropDir p n ti td) := by
  have hdetached := foldl (fun h he => h.detachContains he) (g.rmdirEdges p n ti td) h (by
    intro e he
    unfold TypeGraph.rmdirEdges at he
    rcases List.mem_append.mp he with he | he
    · obtain ⟨⟨x, t, m⟩, hx, rfl⟩ := List.mem_map.mp he
      exact h.entry (List.mem_filter.mp hx).1
    · exact h.members (ExtTreeSet.mem_toList.mp he))
  have hfreed : GrantsFiled v next (((g.rmdirEdges p n ti td).foldl TypeGraph.detachContains g).removeInode ti) :=
    hdetached.congr rfl rfl rfl
  exact (hfreed.removeDir td).shrink rfl (fun he => (SetIndex.mem_members_erase.mp he).2) id

/-! ### Moving names -/

/-- A rename in place rewrites the name of a `contains` edge. -/
theorem renameContainsEdge (h : GrantsFiled v next g) (e : EdgeId) (n : String) :
    GrantsFiled v next (g.renameContainsEdge e n).2 := by
  unfold TypeGraph.renameContainsEdge
  split
  · rename_i d _ m _
    dsimp only
    split
    · exact h
    · have hkeyed : GrantsFiled v next { g with dirNameIdx := (g.dirNameIdx.erase (d, m)).insert (d, n) e } :=
        h.congr rfl rfl rfl
      refine hkeyed.modifyEdge e ?_
      intro w
      cases w <;> rfl
  · exact h

theorem followParent (h : GrantsFiled v next g) (t : InodeId) (q : DirId) :
    GrantsFiled v next (g.followParent t q) := by
  unfold TypeGraph.followParent TypeGraph.retargetDotdot
  split
  · split
    · split
      · split
        · exact h
        · refine (h.modifyEdge _ ?_).congr rfl rfl rfl
          intro w
          cases w <;> rfl
      · exact h
    · exact h
  · exact h

theorem moveEntry (h : GrantsFiled v g.nextEdge g) (hlt : g.nextEdge < 2 ^ 32) {e : EdgeId}
    (he : e < g.nextEdge ∧ v e = none) (p : DirId) (t : InodeId) (q : DirId) (n : String) :
    GrantsFiled v (g.nextEdge + 1) (g.moveEntry e p t q n) := by
  obtain ⟨edges, idx, hframe⟩ := removeEdge_frame (g := g) e
  have hnext : (g.removeEdge e).2.nextEdge = g.nextEdge := by rw [hframe]
  have htaken := (h.removeEdge he).dropMember p e
  unfold TypeGraph.moveEntry TypeGraph.allocEdgeId
  dsimp only
  rw [hnext]
  have hnumbered : GrantsFiled v g.nextEdge { (g.removeEdge e).2 with
      dirContains := SetIndex.drop (g.removeEdge e).2.dirContains p e
      inodeIncomingContains := SetIndex.drop (g.removeEdge e).2.inodeIncomingContains t e
      nextEdge := g.nextEdge + 1 } := htaken.congr rfl rfl rfl
  exact (hnumbered.addContains hlt q t n).followParent t q

/-! ### New names, blocks and attributes -/

theorem enterInode (h : GrantsFiled v g.nextEdge g) (hlt : g.nextEdge < 2 ^ 32) (inode : Inode) (d : DirId)
    (n : String) : GrantsFiled v (g.nextEdge + 1) (g.enterInode inode d n) := by
  have hstored : GrantsFiled v g.nextEdge ({ g with nextInode := g.nextInode + 1, nextEdge := g.nextEdge + 1
      }.insertInode g.nextInode inode) := h.congr rfl rfl rfl
  exact hstored.addContains hlt d _ n

theorem enterLink (h : GrantsFiled v g.nextEdge g) (hlt : g.nextEdge < 2 ^ 32) (d : DirId) (t : InodeId)
    (n : String) : GrantsFiled v (g.nextEdge + 1) (g.enterLink d t n) := by
  have hnumbered : GrantsFiled v g.nextEdge { g with nextEdge := g.nextEdge + 1 } := h.congr rfl rfl rfl
  exact (hnumbered.addContains hlt d t n).congr rfl rfl rfl

theorem enterDir (h : GrantsFiled v g.nextEdge g) (hle : g.nextEdge + 3 ≤ 2 ^ 32) (inode : Inode) (d : DirId)
    (di : InodeId) (n : String) : GrantsFiled v (g.nextEdge + 3) (g.enterDir inode d di n) := by
  have hstored : GrantsFiled v g.nextEdge (({ g with
      nextInode := g.nextInode + 1
      nextDir := g.nextDir + 1
      nextEdge := g.nextEdge + 1 + 1 + 1 }.insertInode g.nextInode inode).insertDir g.nextDir
        ⟨g.nextDir, g.nextInode⟩) := h.congr rfl rfl rfl
  have hentry := hstored.addContains (by omega) d g.nextInode n
  have hdot := hentry.addContains (by omega) g.nextDir g.nextInode "."
  exact hdot.addContains (by omega) g.nextDir di ".."

theorem attachBlock (h : GrantsFiled v g.nextEdge g) (hlt : g.nextEdge < 2 ^ 32) (t : InodeId)
    (offset sectorStart sectorCount : Nat) :
    GrantsFiled v (g.nextEdge + 1) (g.attachBlock t offset sectorStart sectorCount) := by
  have hstored : GrantsFiled v g.nextEdge ({ g with nextBlock := g.nextBlock + 1, nextEdge := g.nextEdge + 1
      }.insertBlock g.nextBlock ⟨g.nextBlock, sectorStart, sectorCount, 1⟩) := h.congr rfl rfl rfl
  have hedge := hstored.insertEdge hlt (w := .pointsTo g.nextEdge t g.nextBlock offset) rfl
  exact hedge.addPointer (Nat.lt_succ_self _) h.fresh t

theorem attachXattr (h : GrantsFiled v g.nextEdge g) (hlt : g.nextEdge < 2 ^ 32) (t : InodeId)
    (ns : XAttrNamespace) (name : String) (value : List UInt8) :
    GrantsFiled v (g.nextEdge + 1) (g.attachXattr t ns name value) := by
  have hstored : GrantsFiled v g.nextEdge
      { g with
        nextXattr := g.nextXattr + 1
        nextEdge := g.nextEdge + 1
        xattrs := g.xattrs.insert g.nextXattr ⟨g.nextXattr, ns, name, value⟩ } := h.congr rfl rfl rfl
  exact (hstored.insertEdge hlt (w := .hasXattr g.nextEdge t g.nextXattr) rfl).congr rfl rfl rfl

/-- The search for the edge of an attribute finds an edge of an attribute. -/
theorem dropXattr (h : GrantsFiled v next g) (t : InodeId) (a : XAttrId) :
    GrantsFiled v next (g.dropXattr t a) := by
  have herased : GrantsFiled v next { g with xattrs := g.xattrs.erase a
                                             inodeXattrs := SetIndex.drop g.inodeXattrs t a } :=
    h.congr rfl rfl rfl
  unfold TypeGraph.dropXattr
  dsimp only
  split
  · rename_i e hfound
    obtain ⟨⟨s, w⟩, hfind, rfl⟩ := Option.map_eq_some_iff.mp hfound
    have hdata := Arena.mem_iter.mp (List.mem_of_find?_eq_some hfind)
    refine herased.removeEdge ⟨h.stored hdata, h.other hdata ?_⟩
    have hkind := List.find?_some hfind
    cases w with
    | grants => cases hkind
    | _ => rfl
  · exact herased

end GrantsFiled

/-! ### The calls -/

/-- The grant edges are `v` and filed while no id from 2^32 on has been issued. -/
def TypeGraph.GrantsKept (v : Nat → Option Edge) (g : TypeGraph) : Prop :=
  g.nextEdge ≤ 2 ^ 32 → GrantsFiled v g.nextEdge g

namespace TypeGraph.GrantsKept

variable {v : Nat → Option Edge} {g g' : TypeGraph} {now : Nat → Timestamp}

/-- An edit that issues some edge ids and keeps grants filed under the new bound. -/
theorem step (h : g.GrantsKept v) {k : Nat} (hnext : g'.nextEdge = g.nextEdge + k)
    (hkeep : GrantsFiled v g.nextEdge g → g.nextEdge + k ≤ 2 ^ 32 → GrantsFiled v (g.nextEdge + k) g') :
    g'.GrantsKept v := by
  intro hle
  rw [hnext] at hle ⊢
  exact hkeep (h ((Nat.le_add_right _ k).trans hle)) hle

/-- A write that leaves the edges alone. -/
theorem congr (h : g.GrantsKept v) (hedges : g'.edges = g.edges) (hsets : g'.dirContains = g.dirContains)
    (hpoints : g'.inodePointsTo = g.inodePointsTo) (hnext : g'.nextEdge = g.nextEdge) : g'.GrantsKept v :=
  h.step (k := 0) hnext fun hf _ => hf.congr hedges hsets hpoints

/-- Settling changes neither edges nor ids. -/
theorem settle {α : Type} (h : g.GrantsKept v) (d : DirId) (delta : Int) (now : Timestamp) (op : ProvOp)
    (t : InodeId) (detail : String) (value : α) :
    (g.settle d delta now op t detail value).2.GrantsKept v := by
  obtain ⟨quotas, provLog, heq⟩ := settle_snd g d delta now op t detail value
  rw [heq]
  exact h.congr rfl rfl rfl rfl

theorem rmdir (h : g.GrantsKept v) (d : DirId) (n : String) : (SotFs.rmdir now d n g).2.GrantsKept v := by
  rcases rmdir_cases now d n g with
    ⟨o, _, heq⟩ | ⟨_, _, ti, td, _, _, _, _, _, _, heq⟩
  · rw [heq]
    exact h
  · obtain ⟨_, _, _, _, _, _, hframe⟩ := dropDir_frame (g := g) d n ti td
    rw [heq]
    exact settle (h.step (k := 0) (by rw [hframe]; rfl) fun hf _ => hf.dropDir d n ti td) _ _ _ _ _ _ _

theorem unlink (h : g.GrantsKept v) (d : DirId) (n : String) : (SotFs.unlink now d n g).2.GrantsKept v := by
  rcases unlink_cases now d n g with
    ⟨o, _, heq⟩ | ⟨_, _, _, e, t, m, _, hfind, _, _, hcase⟩
  · rw [heq]
    exact h
  · have hentry : GrantsFiled v g.nextEdge g → e < g.nextEdge ∧ v e = none := fun hf =>
      hf.entry (List.mem_of_find?_eq_some hfind)
    rcases hcase with ⟨_, heq⟩ | ⟨_, heq⟩
    · obtain ⟨_, _, _, _, hframe⟩ := dropName_frame (g := g) e d t
      rw [heq]
      refine h.step (k := 0) (by rw [hframe]; rfl) fun hf _ => ?_
      exact (hf.dropName (hentry hf) d t).congr rfl rfl rfl
    · obtain ⟨_, _, _, _, _, hframe⟩ := dropLastName_frame (g := g) e d t
      rw [heq]
      exact settle (h.step (k := 0) (by rw [hframe]; rfl) fun hf _ => hf.dropLastName (hentry hf) d t)
        _ _ _ _ _ _ _

/-- Whatever rename moves, a search for an entry found. -/
theorem rename (h : g.GrantsKept v) (sd : DirId) (sn : String) (dd : DirId) (dn : String) :
    (SotFs.rename now sd sn dd dn g).2.GrantsKept v := by
  refine rename_keeps (P := TypeGraph.GrantsKept v) h
    (removeDestination_keeps _ _ _ _ (P := TypeGraph.GrantsKept v) h (h.rmdir dd dn) (h.unlink dd dn))
    ?_ ?_ fun t h => h.congr rfl rfl rfl rfl
  · intro g₁ e _ h₁
    obtain ⟨_, _, hframe⟩ := renameContainsEdge_frame (g := g₁) e dn
    exact h₁.step (k := 0) (by rw [hframe]; rfl) fun hf _ => hf.renameContainsEdge e dn
  · intro g₁ e t hfound h₁
    obtain ⟨_, _, _, _, hframe⟩ := moveEntry_frame (g := g₁) e sd t dd dn
    exact h₁.step (k := 1) (by rw [hframe]) fun hf hlt => hf.moveEntry hlt (hf.found hfound) sd t dd dn

/-- Every call but setacl keeps every grant edge, whatever the graph, the arguments and the outcome. -/
theorem apply (h : g.GrantsKept v) {op : Op} (hacl : ∀ t entries, op ≠ .setacl t entries) :
    (op.apply now g).2.GrantsKept v := by
  cases op with
  | createFile d n u gr p =>
      rw [Op.apply, Prod.map_snd]
      rcases createFile_cases now d n u gr p g with ⟨o, _, heq⟩ | ⟨_, _, _, _, _, heq⟩ <;> rw [heq]
      · exact h
      · exact settle (h.step (k := 1) rfl fun hf hlt => hf.enterInode hlt _ d n) _ _ _ _ _ _ _
  | mkdir d n u gr p =>
      rw [Op.apply, Prod.map_snd]
      rcases mkdir_cases now d n u gr p g with ⟨o, _, heq⟩ | ⟨_, _, _, _, parent, _, heq⟩ <;> rw [heq]
      · exact h
      · exact settle (h.step (k := 3) rfl fun hf hle => hf.enterDir hle _ d parent.inodeId n) _ _ _ _ _ _ _
  | rmdir d n => exact h.rmdir d n
  | link d n t =>
      rw [Op.apply, Prod.map_snd]
      rcases link_cases now d n t g with ⟨o, _, heq⟩ | ⟨_, _, _, _, _, _, _, heq⟩ <;> rw [heq]
      · exact h
      · exact h.step (k := 1) rfl fun hf hlt => (hf.enterLink hlt d t n).congr rfl rfl rfl
  | unlink d n => exact h.unlink d n
  | rename sd sn dd dn => exact h.rename sd sn dd dn
  | symlink d n target u gr =>
      rw [Op.apply, Prod.map_snd]
      rcases symlink_cases now d n target u gr g with ⟨o, _, heq⟩ | ⟨_, _, _, _, _, heq⟩ <;> rw [heq]
      · exact h
      · refine settle (h.step (k := 1) rfl fun hf hlt => ?_) _ _ _ _ _ _ _
        exact (hf.enterInode hlt _ d n).congr rfl rfl rfl
  | writeBlock t offset start count =>
      rw [Op.apply, Prod.map_snd]
      rcases writeBlock_cases t offset start count g with ⟨o, _, heq⟩ | ⟨_, _, heq⟩ <;> rw [heq]
      · exact h
      · exact h.step (k := 1) rfl fun hf hlt => hf.attachBlock hlt t offset start count
  | writeData t offset data =>
      rw [Op.apply, Prod.map_snd]
      rcases writeData_cases now t offset data g with
        ⟨e, heq⟩ | ⟨_, _, _, ⟨buf, heq⟩ | ⟨buf, heq⟩⟩ <;> rw [heq]
      · exact h
      · exact h.congr rfl rfl rfl rfl
      · exact h.congr rfl rfl rfl rfl
  | truncate t newSize =>
      rw [Op.apply, Prod.map_snd]
      rcases truncate_cases now t newSize g with
        ⟨e, heq⟩ | ⟨_, _, _, ⟨buf, heq⟩ | heq⟩ <;> rw [heq]
      · exact h
      · exact h.congr rfl rfl rfl rfl
      · exact h.congr rfl rfl rfl rfl
  | setxattr t ns name value =>
      rw [Op.apply, Prod.map_snd]
      rcases setxattr_cases now t ns name value g with
        ⟨o, _, heq⟩ | ⟨_, _, _, ⟨a, _, heq⟩ | ⟨_, heq⟩⟩ <;> rw [heq]
      · exact h
      · exact h.congr rfl rfl rfl rfl
      · refine h.step (k := 1) rfl fun hf hlt => ?_
        exact (hf.attachXattr hlt t ns name value).congr rfl rfl rfl
  | removexattr t ns name =>
      rw [Op.apply, Prod.map_snd]
      rcases removexattr_cases now t ns name g with ⟨o, _, heq⟩ | ⟨_, _, a, _, heq⟩
      · rw [heq]
        exact h
      · obtain ⟨_, _, hframe⟩ := dropXattr_frame (g := g) t a
        rw [heq]
        refine h.step (k := 0) (by rw [hframe]; rfl) fun hf _ => ?_
        exact (hf.dropXattr t a).congr rfl rfl rfl
  | chmod t mode =>
      rw [Op.apply, Prod.map_snd]
      rcases chmod_cases now t mode g with ⟨o, _, heq⟩ | ⟨_, heq⟩ <;> rw [heq]
      · exact h
      · exact h.congr rfl rfl rfl rfl
  | chown t u gr =>
      rw [Op.apply, Prod.map_snd]
      rcases chown_cases now t u gr g with ⟨o, _, heq⟩ | ⟨_, heq⟩ <;> rw [heq]
      · exact h
      · exact h.congr rfl rfl rfl rfl
  | setQuota d il bl =>
      rw [Op.apply, Prod.map_snd]
      rcases setQuota_cases d il bl g with ⟨o, _, heq⟩ | ⟨_, _, heq⟩ <;> rw [heq]
      · exact h
      · exact h.congr rfl rfl rfl rfl
  | setacl t entries => exact absurd rfl (hacl t entries)

end TypeGraph.GrantsKept

theorem grant_ne_write : Rights.grant ≠ Rights.write := by decide

/-- The edge ids that a call with the write right may issue: a directory takes its name, "." and "..". -/
def Op.edgeIds : Op → Nat
  | .mkdir .. => 3
  | .createFile .. | .symlink .. | .link .. | .rename .. | .writeBlock .. | .setxattr .. => 1
  | _ => 0

/-- A call with the write right issues no more edge ids than it may. -/
theorem Op.nextEdge_le {op : Op} (now : Nat → Timestamp) (g : TypeGraph) (hright : op.right = Rights.write) :
    (op.apply now g).2.nextEdge ≤ g.nextEdge + op.edgeIds := by
  have hsettle : ∀ {α : Type} {g₁ : TypeGraph} {d : DirId} {delta : Int} {ts : Timestamp} {kind : ProvOp}
      {t : InodeId} {detail : String} {value : α},
      (g₁.settle d delta ts kind t detail value).2.nextEdge = g₁.nextEdge := by
    intro α g₁ d delta ts kind t detail value
    obtain ⟨quotas, provLog, heq⟩ := settle_snd g₁ d delta ts kind t detail value
    rw [heq]
  have hstay : ∀ {k : Nat}, g.nextEdge ≤ g.nextEdge + k := Nat.le_add_right _ _
  cases op with
  | createFile d n u gr p =>
      rw [Op.apply, Prod.map_snd]
      rcases createFile_cases now d n u gr p g with ⟨o, _, heq⟩ | ⟨_, _, _, _, _, heq⟩ <;> rw [heq]
      · exact hstay
      · exact hsettle.le
  | mkdir d n u gr p =>
      rw [Op.apply, Prod.map_snd]
      rcases mkdir_cases now d n u gr p g with ⟨o, _, heq⟩ | ⟨_, _, _, _, _, _, heq⟩ <;> rw [heq]
      · exact hstay
      · exact hsettle.le
  | rmdir d n => exact TypeGraph.NamesFiled.rmdir_nextEdge.le
  | link d n t =>
      rw [Op.apply, Prod.map_snd]
      rcases link_cases now d n t g with ⟨o, _, heq⟩ | ⟨_, _, _, _, _, _, _, heq⟩ <;> rw [heq]
      · exact hstay
      · exact le_rfl
  | unlink d n => exact TypeGraph.NamesFiled.unlink_nextEdge.le
  | rename sd sn dd dn => exact TypeGraph.NamesFiled.rename_nextEdge.2
  | symlink d n target u gr =>
      rw [Op.apply, Prod.map_snd]
      rcases symlink_cases now d n target u gr g with ⟨o, _, heq⟩ | ⟨_, _, _, _, _, heq⟩ <;> rw [heq]
      · exact hstay
      · exact hsettle.le
  | writeBlock t offset start count =>
      rw [Op.apply, Prod.map_snd]
      rcases writeBlock_cases t offset start count g with ⟨o, _, heq⟩ | ⟨_, _, heq⟩ <;> rw [heq]
      · exact hstay
      · exact le_rfl
  | writeData t offset data =>
      rw [Op.apply, Prod.map_snd]
      rcases writeData_cases now t offset data g with
        ⟨e, heq⟩ | ⟨_, _, _, ⟨buf, heq⟩ | ⟨buf, heq⟩⟩ <;> rw [heq] <;> exact le_rfl
  | truncate t newSize =>
      rw [Op.apply, Prod.map_snd]
      rcases truncate_cases now t newSize g with
        ⟨e, heq⟩ | ⟨_, _, _, ⟨buf, heq⟩ | heq⟩ <;> rw [heq] <;> exact le_rfl
  | setxattr t ns name value =>
      rw [Op.apply, Prod.map_snd]
      rcases setxattr_cases now t ns name value g with
        ⟨o, _, heq⟩ | ⟨_, _, _, ⟨a, _, heq⟩ | ⟨_, heq⟩⟩ <;> rw [heq]
      · exact hstay
      · exact hstay
      · exact le_rfl
  | removexattr t ns name =>
      rw [Op.apply, Prod.map_snd]
      rcases removexattr_cases now t ns name g with ⟨o, _, heq⟩ | ⟨_, _, a, _, heq⟩ <;> rw [heq]
      · exact hstay
      · obtain ⟨_, _, hframe⟩ := dropXattr_frame (g := g) t a
        rw [hframe]
        exact le_rfl
  | chmod | chown | setacl | setQuota => exact absurd hright grant_ne_write

/-! ### Runs -/

namespace GrantsFiled

variable {v : Nat → Option Edge} {next : Nat} {g g' : TypeGraph}

/-- The grants into an inode are taken out. -/
theorem foldl_purgeGrant (es : List EdgeId) : ∀ {acc : List CapId × TypeGraph} {v : Nat → Option Edge},
    GrantsFiled v next acc.2 → (∀ e ∈ es, e < next) →
      ∃ v', GrantsFiled v' next (es.foldl TypeGraph.purgeGrant acc).2 := by
  induction es with
  | nil => exact fun h _ => ⟨_, h⟩
  | cons e es ih =>
      intro acc v h hes
      have hremoved := h.removeEdge_update (hes e List.mem_cons_self)
      have hpurged : GrantsFiled (Function.update v e none) next (TypeGraph.purgeGrant acc e).2 := by
        unfold TypeGraph.purgeGrant
        split
        · rename_i heq
          rw [heq] at hremoved
          exact hremoved.congr rfl rfl rfl
        · rename_i heq
          rw [heq] at hremoved
          exact hremoved
      exact ih hpurged fun x hx => hes x (List.mem_cons_of_mem e hx)

theorem dropGrants (h : GrantsFiled v next g) (t : InodeId) : ∃ v', GrantsFiled v' next (g.dropGrants t) := by
  have hlt : ∀ e ∈ g.grantsInto t, e < next := by
    intro e he
    obtain ⟨⟨s, w⟩, hmem, hsome⟩ := List.mem_filterMap.mp he
    split at hsome
    · split at hsome
      · cases hsome
        exact h.stored (Arena.mem_iter.mp hmem)
      · cases hsome
    · cases hsome
  obtain ⟨v', hpurged⟩ := @foldl_purgeGrant _ (g.grantsInto t) ([], g) v h hlt
  obtain ⟨caps, heq⟩ := foldl_removeCap_frame ((g.grantsInto t).foldl TypeGraph.purgeGrant ([], g)).1
    (g := ((g.grantsInto t).foldl TypeGraph.purgeGrant ([], g)).2)
  unfold TypeGraph.dropGrants
  dsimp only
  rw [heq]
  exact ⟨v', hpurged.congr rfl rfl rfl⟩

theorem attachGrant (h : GrantsFiled v g.nextEdge g) (hlt : g.nextEdge < 2 ^ 32) (t : InodeId)
    (rights : Rights) : ∃ v', GrantsFiled v' (g.nextEdge + 1) (g.attachGrant t rights) := by
  have hstored : GrantsFiled v g.nextEdge ({ g with nextCap := g.nextCap + 1, nextEdge := g.nextEdge + 1
      }.insertCap g.nextCap ⟨g.nextCap, rights, 0⟩) := h.congr rfl rfl rfl
  rcases hstored.insertEdge_or hlt (.grants g.nextEdge g.nextCap t rights) with hkept | hadded
  · exact ⟨_, hkept.congr rfl rfl rfl⟩
  · exact ⟨_, hadded.congr rfl rfl rfl⟩

/-- Each new entry of an ACL adds one grant or nothing. -/
theorem foldl_grantEntry (t : InodeId) (mask : Option Rights) (entries : List AclEntry) :
    ∀ {g : TypeGraph} {v : Nat → Option Edge}, GrantsFiled v g.nextEdge g →
      (entries.foldl (TypeGraph.grantEntry t mask) g).nextEdge ≤ 2 ^ 32 →
        ∃ v', GrantsFiled v' (entries.foldl (TypeGraph.grantEntry t mask) g).nextEdge
          (entries.foldl (TypeGraph.grantEntry t mask) g) := by
  induction entries with
  | nil => exact fun h _ => ⟨_, h⟩
  | cons entry entries ih =>
      intro g v h hle
      rw [List.foldl_cons, grantEntry_eq] at hle ⊢
      split at hle
      · rename_i hskip
        rw [if_pos hskip]
        exact ih h hle
      · rename_i hgrant
        rw [if_neg hgrant]
        have hmono := (foldl_grantEntry_le t mask entries
          (g := g.attachGrant t (effectiveRights mask entry))).2
        have hlt : g.nextEdge < 2 ^ 32 := lt_of_lt_of_le (Nat.lt_succ_self _) (hmono.trans hle)
        obtain ⟨v', hattached⟩ := h.attachGrant hlt t (effectiveRights mask entry)
        exact ih hattached hle

end GrantsFiled

/-- An ACL that is set changes which grants there are and leaves them filed. -/
theorem TypeGraph.GrantsKept.setacl {v : Nat → Option Edge} {g : TypeGraph} (h : g.GrantsKept v)
    (now : Nat → Timestamp) (t : InodeId) (entries : List AclEntry) :
    ∃ v', (setacl now t entries g).2.GrantsKept v' := by
  rcases setacl_cases now t entries g with ⟨o, _, heq⟩ | ⟨_, _, heq⟩
  · rw [heq]
    exact ⟨v, h⟩
  · rw [heq]
    obtain ⟨_, _, _, _, hframe⟩ := dropGrants_frame (g := g) t
    have hnext : (g.dropGrants t).nextEdge = g.nextEdge := by rw [hframe]
    by_cases hle : (entries.foldl (TypeGraph.grantEntry t (aclMask entries))
        { g.dropGrants t with acls := (g.dropGrants t).acls.insert t entries }).nextEdge ≤ 2 ^ 32
    · obtain ⟨_, hmono⟩ := foldl_grantEntry_le t (aclMask entries) entries
        { g.dropGrants t with acls := (g.dropGrants t).acls.insert t entries }
      obtain ⟨v₁, hdropped⟩ := (h (hnext ▸ hmono.trans hle)).dropGrants t
      have hrecorded : GrantsFiled v₁ (g.dropGrants t).nextEdge
          { g.dropGrants t with acls := (g.dropGrants t).acls.insert t entries } := by
        rw [hnext]
        exact hdropped.congr rfl rfl rfl
      obtain ⟨v', hgranted⟩ := GrantsFiled.foldl_grantEntry t (aclMask entries) entries hrecorded hle
      exact ⟨v', fun _ => hgranted.congr rfl rfl rfl⟩
    · exact ⟨v, fun hle' => absurd hle' hle⟩

/-- Where the invariant holds, grants are filed. -/
theorem TypeGraph.GrantsKept.of_inv {g : TypeGraph} (h : Inv g) : g.GrantsKept g.grantEdges := by
  intro hle
  have hother : ∀ {e : EdgeId} {w : Edge}, g.edges.data e = some w → w.asGrant = none →
      e < g.nextEdge ∧ g.grantEdges e = none := by
    intro e w he hw
    refine ⟨h.edgeIds.lt_next he, ?_⟩
    rw [TypeGraph.grantEdges, Arena.view, he]
    exact hw
  refine ⟨hle, rfl, h.edgeIds.lt_next, ?_, ?_⟩
  · intro d e he
    obtain ⟨w, hw, rfl⟩ := (h.index.out d e).mp he
    obtain ⟨id, hdata⟩ := TypeGraph.entries_data.mp hw
    exact hother hdata rfl
  · intro t e he
    obtain ⟨b, o, hdata⟩ := h.pointsTo_iff.mp he
    exact hother hdata rfl

/-- Along every run grants are filed. -/
theorem Run.grantsKept {allowed : TypeGraph → Op → TypeGraph → Prop} {g : TypeGraph} (hrun : Run allowed g) :
    ∃ v, g.GrantsKept v := by
  induction hrun with
  | new now => exact ⟨_, .of_inv (Inv.new now)⟩
  | call now op _ _ ih =>
      obtain ⟨v, h⟩ := ih
      by_cases hacl : ∃ t entries, op = .setacl t entries
      · obtain ⟨t, entries, rfl⟩ := hacl
        exact h.setacl now t entries
      · exact ⟨v, h.apply fun t entries heq => hacl ⟨t, entries, heq⟩⟩
  | setCapCtx ctx _ ih =>
      obtain ⟨v, h⟩ := ih
      exact ⟨v, h.congr rfl rfl rfl rfl⟩
  | enableProvLog _ ih =>
      obtain ⟨v, h⟩ := ih
      exact ⟨v, h.congr rfl rfl rfl rfl⟩
  | disableProvLog _ ih =>
      obtain ⟨v, h⟩ := ih
      exact ⟨v, h.congr rfl rfl rfl rfl⟩

end SotFs
