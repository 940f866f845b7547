/-
Module: SotFs.Proofs.EntryOrder
Layer: Proofs
Purpose: Entries keep their place. A name that stays in a directory keeps the id of its edge, whatever it is
  renamed to, an id that left a directory does not come back to it, and new names get ids above all that were
  issued; directories keep their inode. So a directory, listed by edge id, changes by entries that leave and
  by entries that are added at its end. This holds of every call on every graph, with pools full or not, as
  long as ids do not alias slots.
Trusted boundary: none
Main exports: TypeGraph.Since, TypeGraph.Grown, Op.grown
-/
import SotFs.Proofs.FiledRuns

namespace SotFs

open Std (ExtTreeMap ExtTreeSet)
open Foundation

/-- What has become of the entries and directories of `g₀`: an entry under an id of `g₀` was there, in the
    same directory, and an inode's directory is the one it had or the inode is new. -/
structure TypeGraph.Since (g₀ g : TypeGraph) : Prop where
  nextEdge : g₀.nextEdge ≤ g.nextEdge
  nextInode : g₀.nextInode ≤ g.nextInode
  entries : ∀ {e : EdgeId} {d t n}, e < g₀.nextEdge → g.entries e = some (d, t, n) →
    ∃ t₀ n₀, g₀.entries e = some (d, t₀, n₀)
  dirs : ∀ {i : InodeId} {d}, g.dirForInodeIdx[i]? = some d →
    g₀.dirForInodeIdx[i]? = some d ∨ g₀.nextInode ≤ i ∧ i < g.nextInode

namespace TypeGraph.Since

variable {g₀ g g' : TypeGraph}

theorem refl (g : TypeGraph) : g.Since g where
  nextEdge := le_rfl
  nextInode := le_rfl
  entries _ he := ⟨_, _, he⟩
  dirs hd := .inl hd

/-! ### Writes -/

/-- A write that leaves the edges and the directories alone. -/
theorem congr (h : g₀.Since g) (hedges : g'.edges = g.edges) (hidx : g'.dirForInodeIdx = g.dirForInodeIdx)
    (hedge : g.nextEdge ≤ g'.nextEdge) (hinode : g.nextInode ≤ g'.nextInode) : g₀.Since g' where
  nextEdge := h.nextEdge.trans hedge
  nextInode := h.nextInode.trans hinode
  entries := by
    unfold TypeGraph.entries
    rw [hedges]
    exact h.entries
  dirs := by
    intro i d hd
    rw [hidx] at hd
    rcases h.dirs hd with hd | ⟨hle, hlt⟩
    · exact .inl hd
    · exact .inr ⟨hle, lt_of_lt_of_le hlt hinode⟩

/-- A write to the edge pool under which no old id comes to lead into another directory. -/
theorem editEdges (h : g₀.Since g) (hentries : ∀ {e d t n}, e < g₀.nextEdge → g'.entries e = some (d, t, n) →
      ∃ t' n', g.entries e = some (d, t', n'))
    (hidx : g'.dirForInodeIdx = g.dirForInodeIdx) (hedge : g'.nextEdge = g.nextEdge)
    (hinode : g'.nextInode = g.nextInode) : g₀.Since g' where
  nextEdge := hedge ▸ h.nextEdge
  nextInode := hinode ▸ h.nextInode
  entries := by
    intro e d t n hlt he
    obtain ⟨t', n', he⟩ := hentries hlt he
    exact h.entries hlt he
  dirs := by
    rw [hidx, hinode]
    exact h.dirs

theorem removeEdge (h : g₀.Since g) (e : EdgeId) : g₀.Since (g.removeEdge e).2 := by
  have hentries : (g.removeEdge e).2.entries = Function.update g.entries (idToArena e) none :=
    Arena.view_update (removeEdge_data g e)
  obtain ⟨_, _, hframe⟩ := removeEdge_frame (g := g) e
  refine h.editEdges ?_ (by rw [hframe]) (by rw [hframe]) (by rw [hframe])
  intro x d t n _ hx
  rw [hentries, Function.update_apply] at hx
  split at hx
  · cases hx
  · exact ⟨t, n, hx⟩

/-- A new edge under an id that was not issued. -/
theorem insertEdge (h : g₀.Since g) {e : EdgeId} (hnew : g₀.nextEdge ≤ e) (hlt : e < 2 ^ 32) (v : Edge) :
    g₀.Since (g.insertEdge e v) := by
  have hpool : (g.insertEdge e v).edges = (g.edges.insertAt (idToArena e) v).2 := by cases v <;> rfl
  have hdata : ∀ {s}, s ≠ e → (g.insertEdge e v).edges.data s = g.edges.data s := by
    intro s hs
    rw [hpool, idToArena_of_lt hlt]
    unfold Arena.insertAt
    split
    · rfl
    · split
      · rfl
      · exact Function.update_of_ne hs _ _
  refine h.editEdges ?_ (by cases v <;> rfl) (by cases v <;> rfl) (by cases v <;> rfl)
  intro x d t n hx hentry
  have hne : x ≠ e := (lt_of_lt_of_le hx hnew).ne
  rw [TypeGraph.entries, Arena.view, hdata hne] at hentry
  exact ⟨t, n, hentry⟩

theorem addContains (h : g₀.Since g) {e : EdgeId} (hnew : g₀.nextEdge ≤ e) (hlt : e < 2 ^ 32) (d : DirId)
    (t : InodeId) (n : String) : g₀.Since (g.addContains e d t n) :=
  (h.insertEdge hnew hlt (.contains e d t n)).congr rfl rfl le_rfl le_rfl

/-- A write to an edge that leaves its directory alone. -/
theorem modifyEdge (h : g₀.Since g) (e : EdgeId) {f : Edge → Edge}
    (hf : ∀ v d t n, (f v).entry = some (d, t, n) → ∃ t' n', v.entry = some (d, t', n')) :
    g₀.Since (g.modifyEdge e f) := by
  refine h.editEdges ?_ rfl rfl rfl
  intro x d t n _ hx
  have hentries : (g.modifyEdge e f).entries =
      Function.update g.entries (idToArena e) (((g.edges.data (idToArena e)).map f).bind Edge.entry) :=
    Arena.view_update (Arena.data_modify _ _ _)
  rw [hentries, Function.update_apply] at hx
  split at hx
  · rename_i hslot
    obtain ⟨v', hv', hentry⟩ := Option.bind_eq_some_iff.mp hx
    obtain ⟨v, hv, rfl⟩ := Option.map_eq_some_iff.mp hv'
    obtain ⟨t', n', hentry⟩ := hf v d t n hentry
    exact ⟨t', n', Arena.view_eq_some.mpr ⟨v, hslot ▸ hv, hentry⟩⟩
  · exact ⟨t, n, hx⟩

/-! ### Names and inodes that go -/

theorem detachContains (h : g₀.Since g) (e : EdgeId) : g₀.Since (g.detachContains e) := by
  have hremoved := h.removeEdge e
  unfold TypeGraph.detachContains
  split
  · rename_i heq
    rw [heq] at hremoved
    exact hremoved.congr rfl rfl le_rfl le_rfl
  · rename_i heq
    rw [heq] at hremoved
    exact hremoved

theorem releaseBlockEdge (h : g₀.Since g) (e : EdgeId) : g₀.Since (g.releaseBlockEdge e) := by
  have hremoved := h.removeEdge e
  unfold TypeGraph.releaseBlockEdge
  split
  · rename_i heq
    rw [heq] at hremoved
    split
    · dsimp only
      split
      · exact hremoved.congr rfl rfl le_rfl le_rfl
      · exact hremoved.congr rfl rfl le_rfl le_rfl
    · exact hremoved
  · rename_i heq
    rw [heq] at hremoved
    exact hremoved

/-- What every step of a loop keeps, the loop keeps. -/
theorem foldl {α : Type} {f : TypeGraph → α → TypeGraph} (hf : ∀ {g} a, g₀.Since g → g₀.Since (f g a))
    (as : List α) (h : g₀.Since g) : g₀.Since (as.foldl f g) := by
  induction as generalizing g with
  | nil => exact h
  | cons a as ih => exact ih (hf a h)

theorem dropName (h : g₀.Since g) (e : EdgeId) (d : DirId) (t : InodeId) : g₀.Since (g.dropName e d t) :=
  (h.removeEdge e).congr rfl rfl le_rfl le_rfl

theorem dropLastName (h : g₀.Since g) (e : EdgeId) (d : DirId) (t : InodeId) :
    g₀.Since (g.dropLastName e d t) := by
  have hpoints : g₀.Since
      { g.dropName e d t with inodePointsTo := (g.dropName e d t).inodePointsTo.erase t } :=
    (h.dropName e d t).congr rfl rfl le_rfl le_rfl
  exact (hpoints.foldl (fun e h => h.releaseBlockEdge e)
    (SetIndex.members (g.dropName e d t).inodePointsTo t).toList).congr rfl rfl le_rfl le_rfl

theorem removeDir (h : g₀.Since g) (d : DirId) : g₀.Since (g.removeDir d) := by
  unfold TypeGraph.removeDir
  dsimp only
  split
  · refine
      { nextEdge := h.nextEdge
        nextInode := h.nextInode
        entries := h.entries
        dirs := ?_ }
    intro i d' hd
    change (g.dirForInodeIdx.erase _)[i]? = some d' at hd
    rw [ExtTreeMap.getElem?_erase] at hd
    split at hd
    · cases hd
    · exact h.dirs hd
  · exact h.congr rfl rfl le_rfl le_rfl

theorem dropDir (h : g₀.Since g) (p : DirId) (n : String) (ti : InodeId) (td : DirId) :
    g₀.Since (g.dropDir p n ti td) := by
  have hdetached := h.foldl (fun e h => h.detachContains e) (g.rmdirEdges p n ti td)
  have hfreed : g₀.Since (((g.rmdirEdges p n ti td).foldl TypeGraph.detachContains g).removeInode ti) :=
    hdetached.congr rfl rfl le_rfl le_rfl
  exact (hfreed.removeDir td).congr rfl rfl le_rfl le_rfl

/-! ### Names that move -/

theorem renameContainsEdge (h : g₀.Since g) (e : EdgeId) (n : String) :
    g₀.Since (g.renameContainsEdge e n).2 := by
  unfold TypeGraph.renameContainsEdge
  split
  · split
    · exact h
    · rename_i src _ old _ _
      have hidx : g₀.Since
          { g with dirNameIdx := (g.dirNameIdx.erase (src, old)).insert (src, n) e } :=
        h.congr rfl rfl le_rfl le_rfl
      refine hidx.modifyEdge e ?_
      intro v d t m hv
      cases v with
      | contains id src tgt old =>
          cases hv
          exact ⟨_, _, rfl⟩
      | _ => exact ⟨t, m, hv⟩
  · exact h

theorem followParent (h : g₀.Since g) (t : InodeId) (q : DirId) : g₀.Since (g.followParent t q) := by
  unfold TypeGraph.followParent TypeGraph.retargetDotdot
  split
  · split
    · split
      · split
        · exact h
        · rename_i e old m _
          refine Since.congr (Since.modifyEdge (g := { g with
            inodeIncomingContains := SetIndex.drop g.inodeIncomingContains old e })
              (h.congr rfl rfl le_rfl le_rfl) e ?_) rfl rfl le_rfl le_rfl
          intro v d i k hv
          cases v with
          | contains id src tgt name =>
              cases hv
              exact ⟨tgt, k, rfl⟩
          | _ => exact ⟨i, k, hv⟩
      · exact h
    · exact h
  · exact h

theorem moveEntry (h : g₀.Since g) (hlt : g.nextEdge < 2 ^ 32) (e : EdgeId) (p : DirId) (t : InodeId)
    (q : DirId) (n : String) : g₀.Since (g.moveEntry e p t q n) := by
  obtain ⟨_, _, hframe⟩ := removeEdge_frame (g := g) e
  have hnext : (g.removeEdge e).2.nextEdge = g.nextEdge := by rw [hframe]
  unfold TypeGraph.moveEntry TypeGraph.allocEdgeId
  dsimp only
  rw [hnext]
  refine Since.followParent (Since.addContains ?_ h.nextEdge hlt q t n) t q
  exact (h.removeEdge e).congr rfl rfl (by rw [hnext]; exact Nat.le_succ _) le_rfl

/-! ### New names and other edges -/

theorem enterInode (h : g₀.Since g) (hlt : g.nextEdge < 2 ^ 32) (inode : Inode) (d : DirId) (n : String) :
    g₀.Since (g.enterInode inode d n) := by
  refine Since.addContains ?_ h.nextEdge hlt d g.nextInode n
  exact h.congr rfl rfl (Nat.le_succ _) (Nat.le_succ _)

theorem enterLink (h : g₀.Since g) (hlt : g.nextEdge < 2 ^ 32) (d : DirId) (t : InodeId) (n : String) :
    g₀.Since (g.enterLink d t n) := by
  have hnumbered : g₀.Since { g with nextEdge := g.nextEdge + 1 } :=
    h.congr rfl rfl (Nat.le_succ _) le_rfl
  exact (hnumbered.addContains h.nextEdge hlt d t n).congr rfl rfl le_rfl le_rfl

/-- A new directory is the directory of a new inode. -/
theorem enterDir (h : g₀.Since g) (hle : g.nextEdge + 3 ≤ 2 ^ 32) (inode : Inode) (d : DirId)
    (di : InodeId) (n : String) : g₀.Since (g.enterDir inode d di n) := by
  have hnumbered : g₀.Since
      { g with nextInode := g.nextInode + 1, nextDir := g.nextDir + 1, nextEdge := g.nextEdge + 1 + 1 + 1 } :=
    h.congr rfl rfl ((Nat.le_succ _).trans ((Nat.le_succ _).trans (Nat.le_succ _))) (Nat.le_succ _)
  have hdir : g₀.Since (({ g with
      nextInode := g.nextInode + 1
      nextDir := g.nextDir + 1
      nextEdge := g.nextEdge + 1 + 1 + 1 }.insertInode g.nextInode inode).insertDir g.nextDir
        ⟨g.nextDir, g.nextInode⟩) := by
    refine
      { nextEdge := hnumbered.nextEdge
        nextInode := hnumbered.nextInode
        entries := h.entries
        dirs := ?_ }
    intro i c hc
    change (g.dirForInodeIdx.insert g.nextInode g.nextDir)[i]? = some c at hc
    rw [ExtTreeMap.getElem?_insert] at hc
    split at hc
    · rename_i hcmp
      have hi : g.nextInode = i := by simpa using hcmp
      exact .inr ⟨hi ▸ h.nextInode, hi ▸ Nat.lt_succ_self _⟩
    · exact hnumbered.dirs hc
  have hnew : g₀.nextEdge ≤ g.nextEdge := h.nextEdge
  have hlt : g.nextEdge + 1 + 1 < 2 ^ 32 := hle
  have hlt' : g.nextEdge + 1 < 2 ^ 32 := (Nat.lt_succ_self _).trans hlt
  have hentry := hdir.addContains hnew ((Nat.lt_succ_self _).trans hlt') d g.nextInode n
  have hdot := hentry.addContains (hnew.trans (Nat.le_succ _)) hlt' g.nextDir g.nextInode "."
  exact hdot.addContains (hnew.trans ((Nat.le_succ _).trans (Nat.le_succ _))) hlt g.nextDir di ".."

theorem attachBlock (h : g₀.Since g) (hlt : g.nextEdge < 2 ^ 32) (t : InodeId)
    (offset sectorStart sectorCount : Nat) : g₀.Since (g.attachBlock t offset sectorStart sectorCount) := by
  have hstored : g₀.Since ({ g with nextBlock := g.nextBlock + 1, nextEdge := g.nextEdge + 1
      }.insertBlock g.nextBlock ⟨g.nextBlock, sectorStart, sectorCount, 1⟩) :=
    h.congr rfl rfl (Nat.le_succ _) le_rfl
  exact (hstored.insertEdge h.nextEdge hlt (.pointsTo g.nextEdge t g.nextBlock offset)).congr rfl rfl
    le_rfl le_rfl

theorem attachXattr (h : g₀.Since g) (hlt : g.nextEdge < 2 ^ 32) (t : InodeId) (ns : XAttrNamespace)
    (name : String) (value : List UInt8) : g₀.Since (g.attachXattr t ns name value) := by
  have hstored : g₀.Since
      { g with
        nextXattr := g.nextXattr + 1
        nextEdge := g.nextEdge + 1
        xattrs := g.xattrs.insert g.nextXattr ⟨g.nextXattr, ns, name, value⟩ } :=
    h.congr rfl rfl (Nat.le_succ _) le_rfl
  exact (hstored.insertEdge h.nextEdge hlt (.hasXattr g.nextEdge t g.nextXattr)).congr rfl rfl le_rfl le_rfl

theorem dropXattr (h : g₀.Since g) (t : InodeId) (a : XAttrId) : g₀.Since (g.dropXattr t a) := by
  have herased : g₀.Since { g with xattrs := g.xattrs.erase a
                                   inodeXattrs := SetIndex.drop g.inodeXattrs t a } :=
    h.congr rfl rfl le_rfl le_rfl
  unfold TypeGraph.dropXattr
  dsimp only
  split
  · exact herased.removeEdge _
  · exact herased

theorem foldl_purgeGrant (es : List EdgeId) : ∀ acc : List CapId × TypeGraph, g₀.Since acc.2 →
    g₀.Since (es.foldl TypeGraph.purgeGrant acc).2 := by
  induction es with
  | nil => exact fun _ h => h
  | cons e es ih =>
      intro acc h
      refine ih _ ?_
      have hremoved := h.removeEdge e
      unfold TypeGraph.purgeGrant
      split
      · rename_i heq
        rw [heq] at hremoved
        exact hremoved.congr rfl rfl le_rfl le_rfl
      · rename_i heq
        rw [heq] at hremoved
        exact hremoved

theorem dropGrants (h : g₀.Since g) (t : InodeId) : g₀.Since (g.dropGrants t) := by
  have hpurged := foldl_purgeGrant (g.grantsInto t) ([], g) h
  unfold TypeGraph.dropGrants
  exact hpurged.foldl (f := TypeGraph.removeCap) (fun c h => h.congr rfl rfl le_rfl le_rfl) _

theorem attachGrant (h : g₀.Since g) (hlt : g.nextEdge < 2 ^ 32) (t : InodeId) (rights : Rights) :
    g₀.Since (g.attachGrant t rights) := by
  have hstored : g₀.Since ({ g with nextCap := g.nextCap + 1, nextEdge := g.nextEdge + 1
      }.insertCap g.nextCap ⟨g.nextCap, rights, 0⟩) := h.congr rfl rfl (Nat.le_succ _) le_rfl
  exact (hstored.insertEdge h.nextEdge hlt (.grants g.nextEdge g.nextCap t rights)).congr rfl rfl le_rfl
    le_rfl

theorem foldl_grantEntry (t : InodeId) (mask : Option Rights) (entries : List AclEntry) :
    ∀ {g : TypeGraph}, g₀.Since g → (entries.foldl (TypeGraph.grantEntry t mask) g).nextEdge ≤ 2 ^ 32 →
      g₀.Since (entries.foldl (TypeGraph.grantEntry t mask) g) := by
  induction entries with
  | nil => exact fun h _ => h
  | cons entry entries ih =>
      intro g h hle
      rw [List.foldl_cons, grantEntry_eq] at hle ⊢
      split at hle
      · rename_i hskip
        rw [if_pos hskip]
        exact ih h hle
      · rename_i hgrant
        rw [if_neg hgrant]
        have hmono := (foldl_grantEntry_le t mask entries
          (g := g.attachGrant t (effectiveRights mask entry))).2
        have hlt : g.nextEdge < 2 ^ 32 := lt_of_lt_of_le (Nat.lt_succ_self _) (hmono.trans hle)
        exact ih (h.attachGrant hlt t _) hle

end TypeGraph.Since

/-! ### The calls -/

/-- Entries and directories keep their place as long as no more edge ids are issued than there are slots. -/
def TypeGraph.Grown (g₀ g : TypeGraph) : Prop := g.nextEdge ≤ 2 ^ 32 → g₀.Since g

namespace TypeGraph.Grown

variable {g₀ g g' : TypeGraph} {now : Nat → Timestamp}

theorem settle {α : Type} (h : g₀.Grown g) (d : DirId) (delta : Int) (now : Timestamp) (op : ProvOp)
    (t : InodeId) (detail : String) (value : α) : g₀.Grown (g.settle d delta now op t detail value).2 := by
  obtain ⟨quotas, provLog, heq⟩ := settle_snd g d delta now op t detail value
  rw [heq]
  exact fun hle => (h hle).congr rfl rfl le_rfl le_rfl

theorem rmdir (h : g₀.Since g) (d : DirId) (n : String) : g₀.Grown (SotFs.rmdir now d n g).2 := by
  rcases rmdir_cases now d n g with
    ⟨o, _, heq⟩ | ⟨_, _, ti, td, _, _, _, _, _, _, heq⟩ <;> rw [heq]
  · exact fun _ => h
  · exact settle (fun _ => h.dropDir d n ti td) _ _ _ _ _ _ _

theorem unlink (h : g₀.Since g) (d : DirId) (n : String) : g₀.Grown (SotFs.unlink now d n g).2 := by
  rcases unlink_cases now d n g with
    ⟨o, _, heq⟩ | ⟨_, _, _, e, t, m, _, _, _, _, ⟨_, heq⟩ | ⟨_, heq⟩⟩ <;> rw [heq]
  · exact fun _ => h
  · exact fun _ => (h.dropName e d t).congr rfl rfl le_rfl le_rfl
  · exact settle (fun _ => h.dropLastName e d t) _ _ _ _ _ _ _

/-- Rename removes its destination, then renames an entry in place or moves it. -/
theorem rename (h : g₀.Since g) (sd : DirId) (sn : String) (dd : DirId) (dn : String) :
    g₀.Grown (SotFs.rename now sd sn dd dn g).2 := by
  refine rename_keeps (P := g₀.Grown) (fun _ => h)
    (removeDestination_keeps _ _ _ _ (P := g₀.Grown) (fun _ => h) (rmdir h dd dn) (unlink h dd dn))
    ?_ ?_ fun t h hle => (h hle).congr rfl rfl le_rfl le_rfl
  · intro g₁ e _ h hle
    obtain ⟨_, _, hframe⟩ := renameContainsEdge_frame (g := g₁) e dn
    exact (h (by rwa [hframe] at hle)).renameContainsEdge e dn
  · intro g₁ e t _ h hle
    obtain ⟨_, _, _, _, hframe⟩ := moveEntry_frame (g := g₁) e sd t dd dn
    rw [hframe] at hle
    exact (h ((Nat.le_succ _).trans hle)).moveEntry hle e sd t dd dn

end TypeGraph.Grown

/-- Entries keep their place under every call, whatever the graph, the arguments and the outcome. -/
theorem Op.grown (now : Nat → Timestamp) (g : TypeGraph) (op : Op) : g.Grown (op.apply now g).2 := by
  have h : g.Since g := .refl g
  cases op with
  | createFile d n u gr p =>
      rw [Op.apply, Prod.map_snd]
      rcases createFile_cases now d n u gr p g with
        ⟨o, _, heq⟩ | ⟨_, _, _, _, _, heq⟩ <;> rw [heq]
      · exact fun _ => h
      · refine TypeGraph.Grown.settle (fun hle => ?_) _ _ _ _ _ _ _
        exact h.enterInode hle (createdInode now g u gr p) d n
  | symlink d n target u gr =>
      rw [Op.apply, Prod.map_snd]
      rcases symlink_cases now d n target u gr g with
        ⟨o, _, heq⟩ | ⟨_, _, _, _, _, heq⟩ <;> rw [heq]
      · exact fun _ => h
      · refine TypeGraph.Grown.settle (fun hle => ?_) _ _ _ _ _ _ _
        exact (h.enterInode hle (symlinkInode now g target u gr) d n).congr rfl rfl le_rfl le_rfl
  | mkdir d n u gr p =>
      rw [Op.apply, Prod.map_snd]
      rcases mkdir_cases now d n u gr p g with
        ⟨o, _, heq⟩ | ⟨_, _, _, _, parent, _, heq⟩ <;> rw [heq]
      · exact fun _ => h
      · exact TypeGraph.Grown.settle (fun hle => h.enterDir hle _ d parent.inodeId n) _ _ _ _ _ _ _
  | link d n t =>
      rw [Op.apply, Prod.map_snd]
      rcases link_cases now d n t g with
        ⟨o, _, heq⟩ | ⟨_, _, _, _, _, _, _, heq⟩ <;> rw [heq]
      · exact fun _ => h
      · exact fun hle => (h.enterLink hle d t n).congr rfl rfl le_rfl le_rfl
  | rmdir d n => exact TypeGraph.Grown.rmdir h d n
  | unlink d n => exact TypeGraph.Grown.unlink h d n
  | rename sd sn dd dn => exact TypeGraph.Grown.rename h sd sn dd dn
  | writeBlock t offset start count =>
      rw [Op.apply, Prod.map_snd]
      rcases writeBlock_cases t offset start count g with ⟨o, _, heq⟩ | ⟨_, _, heq⟩ <;> rw [heq]
      · exact fun _ => h
      · exact fun hle => h.attachBlock hle t offset start count
  | writeData t offset data =>
      rw [Op.apply, Prod.map_snd]
      rcases writeData_cases now t offset data g with
        ⟨e, heq⟩ | ⟨_, _, _, ⟨buf, heq⟩ | ⟨buf, heq⟩⟩ <;> rw [heq]
      · exact fun _ => h
      · exact fun _ => h.congr rfl rfl le_rfl le_rfl
      · exact fun _ => h.congr rfl rfl le_rfl le_rfl
  | truncate t newSize =>
      rw [Op.apply, Prod.map_snd]
      rcases truncate_cases now t newSize g with
        ⟨e, heq⟩ | ⟨_, _, _, ⟨buf, heq⟩ | heq⟩ <;> rw [heq]
      · exact fun _ => h
      · exact fun _ => h.congr rfl rfl le_rfl le_rfl
      · exact fun _ => h.congr rfl rfl le_rfl le_rfl
  | chmod t mode =>
      rw [Op.apply, Prod.map_snd]
      rcases chmod_cases now t mode g with ⟨o, _, heq⟩ | ⟨_, heq⟩ <;>
        rw [heq]
      · exact fun _ => h
      · exact fun _ => h.congr rfl rfl le_rfl le_rfl
  | chown t u gr =>
      rw [Op.apply, Prod.map_snd]
      rcases chown_cases now t u gr g with ⟨o, _, heq⟩ | ⟨_, heq⟩ <;>
        rw [heq]
      · exact fun _ => h
      · exact fun _ => h.congr rfl rfl le_rfl le_rfl
  | setxattr t ns name value =>
      rw [Op.apply, Prod.map_snd]
      rcases setxattr_cases now t ns name value g with
        ⟨o, _, heq⟩ | ⟨_, _, _, ⟨a, _, heq⟩ | ⟨_, heq⟩⟩ <;> rw [heq]
      · exact fun _ => h
      · exact fun _ => h.congr rfl rfl le_rfl le_rfl
      · exact fun hle => (h.attachXattr hle t ns name value).congr rfl rfl le_rfl le_rfl
  | removexattr t ns name =>
      rw [Op.apply, Prod.map_snd]
      rcases removexattr_cases now t ns name g with
        ⟨o, _, heq⟩ | ⟨_, _, a, _, heq⟩ <;> rw [heq]
      · exact fun _ => h
      · exact fun _ => (h.dropXattr t a).congr rfl rfl le_rfl le_rfl
  | setacl t entries =>
      rw [Op.apply, Prod.map_snd]
      rcases setacl_cases now t entries g with ⟨o, _, heq⟩ | ⟨_, _, heq⟩ <;>
        rw [heq]
      · exact fun _ => h
      · intro hle
        have hdropped : g.Since { g.dropGrants t with acls := (g.dropGrants t).acls.insert t entries } :=
          (h.dropGrants t).congr rfl rfl le_rfl le_rfl
        exact (TypeGraph.Since.foldl_grantEntry t (aclMask entries) entries hdropped hle).congr rfl rfl
          le_rfl le_rfl
  | setQuota d il bl =>
      rw [Op.apply, Prod.map_snd]
      rcases setQuota_cases d il bl g with ⟨o, _, heq⟩ | ⟨_, _, heq⟩ <;>
        rw [heq]
      · exact fun _ => h
      · exact fun _ => h.congr rfl rfl le_rfl le_rfl

end SotFs
