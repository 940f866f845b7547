/-
Module: SotFs.Proofs.OpSpecs
Layer: Proofs
Purpose: The operations on graphs that satisfy the invariant. Each name operation either fails and leaves
  the graph as it is, or performs one edit up to quotas and log. Rename is the removal of a destination
  followed by one edit of an entry; `Cleared` is what the second half relies on.
Trusted boundary: none
Main exports: createFile_spec, mkdir_spec, rmdir_spec, link_spec, unlink_spec, symlink_spec, Cleared,
  removeDestination_spec, rename_spec
-/
import SotFs.Proofs.OpCases
import SotFs.Proofs.MoveEdits
import SotFs.Proofs.QuotaWalks

namespace SotFs

open Std (ExtTreeMap ExtTreeSet)
open Relation Foundation

/-! ### Room -/

/-- No id past the capacity of its arena was issued. -/
structure TypeGraph.Fits (g : TypeGraph) : Prop where
  nextInode_le : g.nextInode ≤ NODE_CAPACITY
  nextDir_le : g.nextDir ≤ NODE_CAPACITY
  nextCap_le : g.nextCap ≤ NODE_CAPACITY
  nextBlock_le : g.nextBlock ≤ NODE_CAPACITY
  nextEdge_le : g.nextEdge ≤ EDGE_CAPACITY

section Accepted

variable {g g' : TypeGraph}

/-- A graph with the invariant fits. -/
theorem Inv.fits (h : Inv g) : g.Fits :=
  ⟨h.inodeIds.next_le, h.dirIds.next_le, h.capIds.next_le, h.blockIds.next_le, h.edgeIds.next_le⟩

/-- A call that was accepted issues no inode id past the capacity. -/
theorem Accepted.nextInode_le (hacc : Accepted g g') (h : g.nextInode ≤ NODE_CAPACITY) :
    g'.nextInode ≤ NODE_CAPACITY := by
  by_contra hlt
  obtain ⟨i, hi, _⟩ := hacc.inode NODE_CAPACITY h (not_le.mp hlt)
  rw [TypeGraph.getInode, Arena.get_eq_data, Arena.data_eq_none_of_le _ (by decide)] at hi
  cases hi

theorem Accepted.nextDir_le (hacc : Accepted g g') (h : g.nextDir ≤ NODE_CAPACITY) :
    g'.nextDir ≤ NODE_CAPACITY := by
  by_contra hlt
  obtain ⟨i, hi, _⟩ := hacc.dir NODE_CAPACITY h (not_le.mp hlt)
  rw [TypeGraph.getDir, Arena.get_eq_data, Arena.data_eq_none_of_le _ (by decide)] at hi
  cases hi

theorem Accepted.nextCap_le (hacc : Accepted g g') (h : g.nextCap ≤ NODE_CAPACITY) :
    g'.nextCap ≤ NODE_CAPACITY := by
  by_contra hlt
  obtain ⟨i, hi, _⟩ := hacc.cap NODE_CAPACITY h (not_le.mp hlt)
  rw [TypeGraph.getCap, Arena.get_eq_data, Arena.data_eq_none_of_le _ (by decide)] at hi
  cases hi

theorem Accepted.nextBlock_le (hacc : Accepted g g') (h : g.nextBlock ≤ NODE_CAPACITY) :
    g'.nextBlock ≤ NODE_CAPACITY := by
  by_contra hlt
  obtain ⟨i, hi, _⟩ := hacc.block NODE_CAPACITY h (not_le.mp hlt)
  rw [TypeGraph.getBlock, Arena.get_eq_data, Arena.data_eq_none_of_le _ (by decide)] at hi
  cases hi

theorem Accepted.nextEdge_le (hacc : Accepted g g') (h : g.nextEdge ≤ EDGE_CAPACITY) :
    g'.nextEdge ≤ EDGE_CAPACITY := by
  by_contra hlt
  obtain ⟨i, hi, _⟩ := hacc.edge EDGE_CAPACITY h (not_le.mp hlt)
  rw [TypeGraph.getEdge, Arena.get_eq_data, Arena.data_eq_none_of_le _ (by decide)] at hi
  cases hi

/-- A call that was accepted leaves a graph that fits. -/
theorem Accepted.fits (hacc : Accepted g g') (h : Inv g) : g'.Fits :=
  ⟨hacc.nextInode_le h.fits.nextInode_le, hacc.nextDir_le h.fits.nextDir_le,
    hacc.nextCap_le h.fits.nextCap_le, hacc.nextBlock_le h.fits.nextBlock_le,
    hacc.nextEdge_le h.fits.nextEdge_le⟩

end Accepted

/-! ### Quotas and log -/

section Settle

variable {α : Type} {g : TypeGraph} {d : DirId} {deltaInodes : Int} {now : Timestamp} {op : ProvOp}
  {inodeId : InodeId} {detail : String} {value : α}

/-- Settling changes quotas and log only, whether or not it ends. -/
theorem settle_snd (g : TypeGraph) (d : DirId) (deltaInodes : Int) (now : Timestamp) (op : ProvOp)
    (inodeId : InodeId) (detail : String) (value : α) :
    ∃ quotas provLog, (g.settle d deltaInodes now op inodeId detail value).2 =
      { g with quotas := quotas, provLog := provLog } := by
  unfold TypeGraph.settle
  cases hq : g.updateQuota d deltaInodes 0 with
  | none => exact ⟨g.quotas, g.provLog, rfl⟩
  | some g' =>
      unfold TypeGraph.updateQuota at hq
      obtain ⟨quotas, _, rfl⟩ := Option.map_eq_some_iff.mp hq
      exact ⟨quotas, _, rfl⟩

/-- Settling a live directory succeeds. -/
theorem Inv.settle_eq (h : Inv g) {i : InodeId} (hd : g.dirInode d = some i) :
    ∃ quotas provLog, g.settle d deltaInodes now op inodeId detail value =
      (.ok value, { g with quotas := quotas, provLog := provLog }) := by
  obtain ⟨quotas, hq⟩ := h.updateQuota_isSome hd deltaInodes 0
  unfold TypeGraph.settle
  rw [hq]
  exact ⟨quotas, _, rfl⟩

/-- Quotas and log are no part of the invariant. -/
theorem Inv.withSettled (h : Inv g) (quotas : ExtTreeMap DirId Quota)
    (provLog : Option ProvenanceLog) : Inv { g with quotas := quotas, provLog := provLog } :=
  h.withSides g.fileData g.symlinkTargets g.acls quotas provLog g.capCtx

end Settle

theorem userName_of_valid {n : String} (h : invalidName n = false) : UserName n := by
  unfold invalidName at h
  simp only [Bool.or_eq_false_iff, decide_eq_false_iff_not] at h
  exact ⟨h.1.1.1.2, h.1.1.2⟩

section Specs

variable {now : Nat → Timestamp} {d : DirId} {n : String} {u gr : UInt32} {p : Permissions}
  {g : TypeGraph}

/-- create_file fails without a trace or enters a new file. -/
theorem createFile_spec (h : Inv g) (hd : g.LiveDir d) (hfits : (createFile now d n u gr p g).2.Fits) :
    (∃ o, o.Failed ∧ createFile now d n u gr p g = (o, g)) ∨
    (UserName n ∧ (∀ x t, g.entries x ≠ some (d, t, n)) ∧ g.nextInode < NODE_CAPACITY ∧
      g.nextEdge < EDGE_CAPACITY ∧ Inv (g.enterInode (createdInode now g u gr p) d n) ∧
      ∃ quotas provLog, createFile now d n u gr p g =
        (.ok g.nextInode, { g.enterInode (createdInode now g u gr p) d n with
          quotas := quotas, provLog := provLog })) := by
  obtain ⟨di, hdi⟩ := h.liveDir_iff.mp hd
  rcases createFile_cases now d n u gr p g with
    hfail | ⟨_, hname, hfree, _, _, heq⟩
  · exact .inl hfail
  · right
    rw [heq] at hfits ⊢
    obtain ⟨q, l, hsnd⟩ := settle_snd (g.enterInode (createdInode now g u gr p) d n) d 1 (now 1) .create
      g.nextInode n g.nextInode
    rw [hsnd] at hfits
    have hi : g.nextInode < NODE_CAPACITY := hfits.nextInode_le
    have he : g.nextEdge < EDGE_CAPACITY := hfits.nextEdge_le
    have hn := userName_of_valid hname
    have hfree' := h.resolveName_eq_none_iff.mp hfree
    have hinv : Inv (g.enterInode (createdInode now g u gr p) d n) :=
      h.enterInode hi he hdi hn hfree' rfl (by intro hk; cases hk) rfl
    exact ⟨hn, hfree', hi, he, hinv, hinv.settle_eq hdi⟩

/-- symlink fails without a trace or enters a new symlink. -/
theorem symlink_spec {target : String} (h : Inv g) (hd : g.LiveDir d)
    (hfits : (symlink now d n target u gr g).2.Fits) :
    (∃ o, o.Failed ∧ symlink now d n target u gr g = (o, g)) ∨
    (UserName n ∧ (∀ x t, g.entries x ≠ some (d, t, n)) ∧ g.nextInode < NODE_CAPACITY ∧
      g.nextEdge < EDGE_CAPACITY ∧ Inv (g.enterSymlink (symlinkInode now g target u gr) d n target) ∧
      ∃ quotas provLog, symlink now d n target u gr g =
        (.ok g.nextInode, { g.enterSymlink (symlinkInode now g target u gr) d n target with
          quotas := quotas, provLog := provLog })) := by
  obtain ⟨di, hdi⟩ := h.liveDir_iff.mp hd
  rcases symlink_cases now d n target u gr g with
    hfail | ⟨_, hname, hfree, _, _, heq⟩
  · exact .inl hfail
  · right
    rw [heq] at hfits ⊢
    obtain ⟨q, l, hsnd⟩ := settle_snd (g.enterSymlink (symlinkInode now g target u gr) d n target) d 1
      (now 1) .symlink g.nextInode n g.nextInode
    rw [hsnd] at hfits
    have hi : g.nextInode < NODE_CAPACITY := hfits.nextInode_le
    have he : g.nextEdge < EDGE_CAPACITY := hfits.nextEdge_le
    have hn := userName_of_valid hname
    have hfree' := h.resolveName_eq_none_iff.mp hfree
    have hentered : Inv (g.enterInode (symlinkInode now g target u gr) d n) :=
      h.enterInode hi he hdi hn hfree' rfl (by intro hk; cases hk) rfl
    have hinv : Inv (g.enterSymlink (symlinkInode now g target u gr) d n target) :=
      hentered.withSides _ _ _ _ _ _
    exact ⟨hn, hfree', hi, he, hinv, hinv.settle_eq hdi⟩

/-- mkdir fails without a trace or enters a new directory. -/
theorem mkdir_spec (h : Inv g) (hd : g.LiveDir d) (hfits : (mkdir now d n u gr p g).2.Fits) :
    (∃ o, o.Failed ∧ mkdir now d n u gr p g = (o, g)) ∨
    (UserName n ∧ (∀ x t, g.entries x ≠ some (d, t, n)) ∧ g.nextInode < NODE_CAPACITY ∧
      g.nextDir < NODE_CAPACITY ∧ g.nextEdge + 3 ≤ EDGE_CAPACITY ∧ ∃ di, g.dirInode d = some di ∧
      Inv (g.enterDir (madeDirInode now g u gr p) d di n) ∧
      ∃ quotas provLog, mkdir now d n u gr p g =
        (.ok ⟨g.nextInode, some g.nextDir⟩, { g.enterDir (madeDirInode now g u gr p) d di n with
          quotas := quotas, provLog := provLog })) := by
  obtain ⟨di, hdi⟩ := h.liveDir_iff.mp hd
  rcases mkdir_cases now d n u gr p g with
    hfail | ⟨_, hname, hfree, _, parent, hparent, heq⟩
  · exact .inl hfail
  · right
    rw [h.getDir_eq hdi] at hparent
    cases hparent
    rw [heq] at hfits ⊢
    obtain ⟨q, l, hsnd⟩ := settle_snd (g.enterDir (madeDirInode now g u gr p) d di n) d 1 (now 1) .mkdir
      g.nextInode n (⟨g.nextInode, some g.nextDir⟩ : CreateResult)
    rw [hsnd] at hfits
    have hi : g.nextInode < NODE_CAPACITY := hfits.nextInode_le
    have hdir : g.nextDir < NODE_CAPACITY := hfits.nextDir_le
    have he : g.nextEdge + 1 + 1 + 1 ≤ EDGE_CAPACITY := hfits.nextEdge_le
    have hn := userName_of_valid hname
    have hfree' := h.resolveName_eq_none_iff.mp hfree
    have hinv : Inv (g.enterDir (madeDirInode now g u gr p) d di n) :=
      h.enterDir hi hdir he hdi hn hfree' rfl rfl rfl
    have hnew : d ≠ g.nextDir := by
      rintro rfl
      rw [h.dirInode_fresh le_rfl] at hdi
      cases hdi
    have hdi' : (g.enterDir (madeDirInode now g u gr p) d di n).dirInode d = some di := by
      have hdirs : (g.enterDir (madeDirInode now g u gr p) d di n).dirInode =
          Function.update g.dirInode g.nextDir (some g.nextInode) :=
        Arena.view_update (h.dirIds.insert_data hdir _)
      rw [hdirs, Function.update_of_ne hnew]
      exact hdi
    exact ⟨hn, hfree', hi, hdir, he, di, hdi, hinv, hinv.settle_eq hdi'⟩

/-- link fails without a trace or enters one more name. -/
theorem link_spec {t : InodeId} (h : Inv g) (hd : g.LiveDir d) (hfits : (link now d n t g).2.Fits) :
    (∃ o, o.Failed ∧ link now d n t g = (o, g)) ∨
    (UserName n ∧ (∀ x t', g.entries x ≠ some (d, t', n)) ∧ g.nextEdge < EDGE_CAPACITY ∧ ∃ inode,
      g.getInode t = some inode ∧ inode.vtype ≠ .directory ∧ Inv (g.enterLink d t n) ∧
      ∃ provLog, link now d n t g = (.ok (), { g.enterLink d t n with provLog := provLog })) := by
  obtain ⟨di, hdi⟩ := h.liveDir_iff.mp hd
  rcases link_cases now d n t g with
    hfail | ⟨_, hn, hfree, inode, hinode, hkind, _, heq⟩
  · exact .inl hfail
  · right
    rw [heq] at hfits ⊢
    have he : g.nextEdge < EDGE_CAPACITY := hfits.nextEdge_le
    have hfree' := h.resolveName_eq_none_iff.mp hfree
    exact ⟨hn, hfree', he, inode, hinode, hkind, h.enterLink he hdi hn hfree' hinode hkind, _, rfl⟩

/-- Taking the last name of a file from a live directory settles. -/
theorem Inv.dropLastName_settle (h : Inv g) {e t i} (he : g.entries e = some (d, t, n)) (hn : UserName n)
    (hi : g.getInode t = some i) (hkind : i.vtype ≠ .directory) (hlast : decrement32 i.linkCount = 0)
    (deltaInodes : Int) (ts : Timestamp) (op : ProvOp) :
    ∃ quotas provLog, (g.dropLastName e d t).settle d deltaInodes ts op t n () =
      (.ok (), { g.dropLastName e d t with quotas := quotas, provLog := provLog }) := by
  obtain ⟨di, hdi⟩ := h.shape.src_live he
  have hdi' : (g.dropLastName e d t).dirInode d = some di := by
    obtain ⟨_, _, hcollect, _⟩ := (h.dropName he hn hi hkind).collectInode_eq t
    rw [TypeGraph.dropLastName, hcollect, h.dropName_eq he]
    exact hdi
  exact (h.dropLastName he hn hi hkind hlast).settle_eq hdi'

/-- unlink fails without a trace, takes one name of several, or takes the last with its inode. -/
theorem unlink_spec (now : Nat → Timestamp) (d : DirId) (n : String) (h : Inv g) :
    (∃ o, o.Failed ∧ unlink now d n g = (o, g)) ∨
    ∃ e t inode, UserName n ∧ g.entries e = some (d, t, n) ∧ g.getInode t = some inode ∧
      inode.vtype ≠ .directory ∧
      ((decrement32 inode.linkCount ≠ 0 ∧ Inv (g.dropName e d t) ∧
          ∃ provLog, unlink now d n g = (.ok (), { g.dropName e d t with provLog := provLog })) ∨
        (decrement32 inode.linkCount = 0 ∧ Inv (g.dropLastName e d t) ∧
          ∃ quotas provLog, unlink now d n g =
            (.ok (), { g.dropLastName e d t with quotas := quotas, provLog := provLog }))) := by
  rcases unlink_cases now d n g with
    hfail | ⟨_, hn, hdir, e, t, m, inode, hfind, hinode, hkind, hcase⟩
  · exact .inl hfail
  · right
    obtain ⟨_, he⟩ := h.find_name.mp hfind
    refine ⟨e, t, inode, hn, he, hinode, hkind, ?_⟩
    rcases hcase with ⟨hlast, heq⟩ | ⟨hlast, heq⟩
    · exact .inl ⟨hlast, h.dropName he hn hinode hkind, _, heq⟩
    · refine .inr ⟨hlast, h.dropLastName he hn hinode hkind hlast, ?_⟩
      rw [heq]
      exact h.dropLastName_settle he hn hinode hkind hlast _ _ _

/-- A directory that the search finds empty has no user names. -/
theorem Inv.no_userName_of_empty (h : Inv g) {td : DirId} (hempty : g.dirNotEmpty td = false) {x : EdgeId}
    {t : InodeId} {m : String} (hx : g.entries x = some (td, t, m)) : ¬ UserName m := by
  intro hm
  have hany : g.dirNotEmpty td = true := by
    unfold TypeGraph.dirNotEmpty
    rw [List.any_eq_true]
    exact ⟨(x, t, m), h.mem_dirEntries.mpr hx, decide_eq_true hm⟩
  rw [hempty] at hany
  cases hany

/-- Taking an empty directory from a live one settles. -/
theorem Inv.dropDir_settle (h : Inv g) {e ti td} (he : g.entries e = some (d, ti, n)) (hn : UserName n)
    (htd : g.dirInode td = some ti) (hempty : ∀ {x t m}, g.entries x = some (td, t, m) → ¬ UserName m)
    (deltaInodes : Int) (ts : Timestamp) (op : ProvOp) :
    ∃ quotas provLog, (g.dropDir d n ti td).settle d deltaInodes ts op ti n () =
      (.ok (), { g.dropDir d n ti td with quotas := quotas, provLog := provLog }) := by
  obtain ⟨di, hdi⟩ := h.shape.src_live he
  have hne : d ≠ td := by
    rintro rfl
    exact hempty he hn
  have hdi' : (g.dropDir d n ti td).dirInode d = some di := by
    rw [h.dropDir_dirInode he htd, Function.update_of_ne hne]
    exact hdi
  exact (h.dropDir he hn htd fun _ _ _ hx => hempty hx).settle_eq hdi'

/-- rmdir fails without a trace or removes an empty directory. -/
theorem rmdir_spec (now : Nat → Timestamp) (d : DirId) (n : String) (h : Inv g) :
    (∃ o, o.Failed ∧ rmdir now d n g = (o, g)) ∨
    ∃ e ti td, UserName n ∧ g.entries e = some (d, ti, n) ∧ g.dirInode td = some ti ∧
      (∀ x t m, g.entries x = some (td, t, m) → ¬ UserName m) ∧ Inv (g.dropDir d n ti td) ∧
      ∃ quotas provLog, rmdir now d n g =
        (.ok (), { g.dropDir d n ti td with quotas := quotas, provLog := provLog }) := by
  rcases rmdir_cases now d n g with
    hfail | ⟨_, hn, ti, td, inode, hti, hinode, hkind, htd, hempty, heq⟩
  · exact .inl hfail
  · right
    obtain ⟨e, he⟩ := h.resolveName_iff.mp hti
    have htd' := h.dirForInode_iff.mp htd
    have hempty' : ∀ {x t m}, g.entries x = some (td, t, m) → ¬ UserName m := h.no_userName_of_empty hempty
    refine ⟨e, ti, td, hn, he, htd', fun _ _ _ hx => hempty' hx,
      h.dropDir he hn htd' fun _ _ _ hx => hempty' hx, ?_⟩
    rw [heq]
    exact h.dropDir_settle he hn htd' hempty' _ _ _

/-! ### Rename -/

/-- What removing the destination of a rename guarantees: the name is free, the invariant holds, and no
    other user name and no directory that has one is touched. -/
structure Cleared (g g' : TypeGraph) (d : DirId) (n : String) : Prop where
  inv : Inv g'
  free : ∀ x t, g'.entries x ≠ some (d, t, n)
  sub : ∀ {x w}, g'.entries x = some w → g.entries x = some w
  keep : ∀ {x d' t n'}, UserName n' → (d', n') ≠ (d, n) → g.entries x = some (d', t, n') →
    g'.entries x = some (d', t, n')
  dirs : ∀ {c i}, g'.dirInode c = some i → g.dirInode c = some i
  keepDir : ∀ {i}, g.dirInode d = some i → g'.dirInode d = some i
  nextEdge : g'.nextEdge = g.nextEdge

/-- A free destination needs no clearing. -/
theorem Cleared.refl (h : Inv g) (hfree : ∀ x t, g.entries x ≠ some (d, t, n)) : Cleared g g d n :=
  ⟨h, hfree, id, fun _ _ hx => hx, id, id, rfl⟩

/-- A successful unlink clears its name. -/
theorem unlink_cleared (h : Inv g) {a : Unit} {g' : TypeGraph} (hok : unlink now d n g = (.ok a, g')) :
    Cleared g g' d n := by
  rcases unlink_spec now d n h with
    ⟨o, hfail, heq⟩ | ⟨e, t, inode, hn, he, hinode, hkind, hcase⟩
  · rw [hok] at heq
    cases heq
    exact absurd rfl (hfail a)
  · have hclear : ∀ g₁ : TypeGraph, Inv g₁ → g₁.entries = Function.update g.entries e none →
        g₁.dirInode = g.dirInode → g₁.nextEdge = g.nextEdge → Cleared g g₁ d n := by
      intro g₁ hinv hentries hdirs hnext
      refine ⟨hinv, ?_, ?_, ?_, ?_, ?_, hnext⟩
      · intro x t' hx
        rw [hentries, Function.update_apply] at hx
        split at hx
        · cases hx
        · rename_i hxe
          exact hxe (h.names hx he)
      · intro x w hx
        rw [hentries, Function.update_apply] at hx
        split at hx
        · cases hx
        · exact hx
      · intro x d' t' n' _ hne hx
        rw [hentries, Function.update_of_ne]
        · exact hx
        · rintro rfl
          rw [he] at hx
          cases hx
          exact hne rfl
      · rw [hdirs]
        exact id
      · rw [hdirs]
        exact id
    rcases hcase with ⟨_, hinv, l, heq⟩ | ⟨_, hinv, q, l, heq⟩
    · rw [hok] at heq
      cases heq
      have heq' := h.dropName_eq he
      exact hclear _ (hinv.withSides _ _ _ _ _ _) (h.dropName_entries he)
        (by rw [heq']; rfl) (by rw [heq'])
    · rw [hok] at heq
      cases heq
      obtain ⟨_, _, hcollect, _⟩ := (h.dropName he hn hinode hkind).collectInode_eq t
      have heq' := h.dropName_eq he
      rw [heq'] at hcollect
      refine hclear _ (hinv.withSides _ _ _ _ _ _) (h.dropLastName_entries he hn hinode hkind) ?_ ?_
      · change (g.dropLastName e d t).dirInode = g.dirInode
        rw [TypeGraph.dropLastName, heq', hcollect]
        rfl
      · change (g.dropLastName e d t).nextEdge = g.nextEdge
        rw [TypeGraph.dropLastName, heq', hcollect]

/-- A successful rmdir clears its name. -/
theorem rmdir_cleared (h : Inv g) {a : Unit} {g' : TypeGraph} (hok : rmdir now d n g = (.ok a, g')) :
    Cleared g g' d n := by
  rcases rmdir_spec now d n h with
    ⟨o, hfail, heq⟩ | ⟨e, ti, td, hn, he, htd, hempty, hinv, q, l, heq⟩
  · rw [hok] at heq
    cases heq
    exact absurd rfl (hfail a)
  · rw [hok] at heq
    cases heq
    have hentries : ∀ {x w}, (g.dropDir d n ti td).entries x = some w ↔
        x ≠ e ∧ w.1 ≠ td ∧ g.entries x = some w := h.dropDir_entries he htd
    have hdirs := h.dropDir_dirInode he htd
    refine
      { inv := hinv.withSettled q l
        free := ?_
        sub := fun hx => (hentries.mp hx).2.2
        keep := ?_
        dirs := ?_
        keepDir := ?_
        nextEdge := ?_ }
    · intro x t hx
      obtain ⟨hxe, _, hx⟩ := hentries.mp hx
      exact hxe (h.names hx he)
    · intro x d' t n' hn' hne hx
      refine hentries.mpr ⟨?_, ?_, hx⟩
      · rintro rfl
        rw [he] at hx
        cases hx
        exact hne rfl
      · rintro rfl
        exact hempty _ _ _ hx hn'
    · intro c i hc
      change (g.dropDir d n ti td).dirInode c = some i at hc
      rw [hdirs, Function.update_apply] at hc
      split at hc
      · cases hc
      · exact hc
    · intro i hi
      change (g.dropDir d n ti td).dirInode d = some i
      rw [hdirs, Function.update_of_ne]
      · exact hi
      · rintro rfl
        exact hempty _ _ _ he hn
    · obtain ⟨_, _, _, _, hdrop, _⟩ := h.dropDir_eq he htd
      rw [hdrop]

/-- Removing the destination of a rename fails without a trace or clears the name. -/
theorem removeDestination_spec (now : Nat → Timestamp) (d : DirId) (n : String) (h : Inv g) :
    (∃ o, o.Failed ∧ g.removeDestination now d n (g.resolveName d n) = (o, g)) ∨
    ∃ g', g.removeDestination now d n (g.resolveName d n) = (.ok (), g') ∧ Cleared g g' d n := by
  unfold TypeGraph.removeDestination
  cases hr : g.resolveName d n with
  | none => exact .inr ⟨g, rfl, Cleared.refl h (h.resolveName_eq_none_iff.mp hr)⟩
  | some t =>
      dsimp only
      cases hi : g.getInode t with
      | none => exact .inl ⟨_, Outcome.failed_err _, rfl⟩
      | some inode =>
          dsimp only
          split
          · rcases rmdir_spec now d n h with hfail | ⟨_, _, _, _, _, _, _, _, q, l, heq⟩
            · exact .inl hfail
            · exact .inr ⟨_, heq, rmdir_cleared h heq⟩
          · rcases unlink_spec now d n h with
              hfail | ⟨_, _, _, _, _, _, _, ⟨_, _, l, heq⟩ | ⟨_, _, q, l, heq⟩⟩
            · exact .inl hfail
            · exact .inr ⟨_, heq, unlink_cleared h heq⟩
            · exact .inr ⟨_, heq, unlink_cleared h heq⟩

/-- The fast path fails without a trace, finds nothing to do, or clears the destination and renames the
    entry in place. -/
theorem renameSameDir_spec (now : Nat → Timestamp) (d : DirId) (dst : String) (h : Inv g) {src : String}
    (hsrc : UserName src) :
    (∃ o, o.Failed ∧ renameSameDir now d src dst g = (o, g)) ∨
    ∃ e t, g.entries e = some (d, t, src) ∧
      ((src = dst ∧ renameSameDir now d src dst g = (.ok (), g)) ∨
        (src ≠ dst ∧ ∃ g', g.removeDestination now d dst (g.resolveName d dst) = (.ok (), g') ∧
          Cleared g g' d dst ∧
          renameSameDir now d src dst g = (.ok (), (g'.renameContainsEdge e dst).2))) := by
  unfold renameSameDir
  cases hr : g.resolveName d src with
  | none => exact .inl ⟨_, Outcome.failed_err _, rfl⟩
  | some t =>
      obtain ⟨e, he⟩ := h.resolveName_iff.mp hr
      dsimp only
      by_cases heq : src = dst
      · rw [if_pos heq]
        exact .inr ⟨e, t, he, .inl ⟨heq, rfl⟩⟩
      · rw [if_neg heq]
        rcases removeDestination_spec now d dst h with
          ⟨o, hfail, hremove⟩ | ⟨g', hremove, hcleared⟩
        · refine .inl ⟨o, hfail, ?_⟩
          rw [hremove]
          cases o with
          | ok a => exact absurd rfl (hfail a)
          | _ => rfl
        · refine .inr ⟨e, t, he, .inr ⟨heq, g', hremove, hcleared, ?_⟩⟩
          have he' : g'.entries e = some (d, t, src) :=
            hcleared.keep hsrc (fun hpair => heq (congrArg Prod.snd hpair)) he
          have hlive : ¬ d ∉ g'.dirContains :=
            not_not.mpr ((hcleared.inv.dirKeys d).mpr (hcleared.inv.shape.src_live he'))
          have hfind : g'.findEntry d t src = some e := hcleared.inv.findEntry_iff.mpr he'
          rw [hremove]
          simp only [if_neg hlive, hfind]

/-- The slow path fails without a trace, or clears the destination and moves the entry. -/
theorem renameCrossDir_spec (now : Nat → Timestamp) (dst : String) (h : Inv g) {srcDir dstDir : DirId}
    {src : String} (hsrc : UserName src)
    (hne : srcDir ≠ dstDir) :
    (∃ o, o.Failed ∧ renameCrossDir now srcDir src dstDir dst g = (o, g)) ∨
    ∃ e t g', g.entries e = some (srcDir, t, src) ∧ g.wouldCycle t dstDir = false ∧
      g.removeDestination now dstDir dst (g.resolveName dstDir dst) = (.ok (), g') ∧
      Cleared g g' dstDir dst ∧ g'.entries e = some (srcDir, t, src) ∧
      renameCrossDir now srcDir src dstDir dst g = (.ok (), g'.moveEntry e srcDir t dstDir dst) := by
  unfold renameCrossDir
  cases hr : g.resolveName srcDir src with
  | none => exact .inl ⟨_, Outcome.failed_err _, rfl⟩
  | some t =>
      obtain ⟨e, he⟩ := h.resolveName_iff.mp hr
      dsimp only
      by_cases hcycle : g.wouldCycle t dstDir = true
      · rw [if_pos hcycle]
        exact .inl ⟨_, Outcome.failed_err _, rfl⟩
      · rw [if_neg hcycle]
        rcases removeDestination_spec now dstDir dst h with
          ⟨o, hfail, hremove⟩ | ⟨g', hremove, hcleared⟩
        · refine .inl ⟨o, hfail, ?_⟩
          rw [hremove]
          cases o with
          | ok a => exact absurd rfl (hfail a)
          | _ => rfl
        · have he' : g'.entries e = some (srcDir, t, src) :=
            hcleared.keep hsrc (fun hpair => hne (congrArg Prod.fst hpair)) he
          refine .inr ⟨e, t, g', he, by simpa using hcycle, hremove, hcleared, he', ?_⟩
          have hlive : ¬ srcDir ∉ g'.dirContains :=
            not_not.mpr ((hcleared.inv.dirKeys srcDir).mpr (hcleared.inv.shape.src_live he'))
          have hfind : g'.findEntry srcDir t src = some e := hcleared.inv.findEntry_iff.mpr he'
          rw [hremove]
          simp only [if_neg hlive, hfind]
          rfl

/-- How a successful rename edits the graph: nothing, an entry renamed in place, or an entry moved; in the
    last two cases after the destination was cleared. -/
inductive Renamed (now : Nat → Timestamp) (g : TypeGraph) (srcDir : DirId) (src : String) (dstDir : DirId)
    (dst : String) : TypeGraph → Prop where
  | same {e t} : srcDir = dstDir → src = dst → g.entries e = some (srcDir, t, src) →
      Renamed now g srcDir src dstDir dst g
  | inPlace {e t g'} : srcDir = dstDir → src ≠ dst → g.entries e = some (srcDir, t, src) →
      g.removeDestination now dstDir dst (g.resolveName dstDir dst) = (.ok (), g') →
      Cleared g g' dstDir dst → Renamed now g srcDir src dstDir dst (g'.renameContainsEdge e dst).2
  | moved {e t g'} : srcDir ≠ dstDir → g.entries e = some (srcDir, t, src) →
      g.wouldCycle t dstDir = false →
      g.removeDestination now dstDir dst (g.resolveName dstDir dst) = (.ok (), g') →
      Cleared g g' dstDir dst → g'.entries e = some (srcDir, t, src) →
      Renamed now g srcDir src dstDir dst (g'.moveEntry e srcDir t dstDir dst)

/-- A failed rename is answered as it failed: the entry of the log is written for a success. -/
theorem Outcome.Failed.unlogged {o : Outcome Unit} (hfail : o.Failed) (now : Nat → Timestamp) (d : DirId)
    (n : String) (g : TypeGraph) :
    (match (o, g) with
      | (.ok (), g) => (Outcome.ok (), g.recordProv (now 1) .rename ((g.resolveName d n).getD 0) n)
      | failed => failed) = (o, g) := by
  cases o with
  | ok a => exact absurd rfl (hfail a)
  | _ => rfl

/-- rename fails without a trace or edits the graph and logs. -/
theorem rename_spec (now : Nat → Timestamp) (srcDir : DirId) (src : String) (dstDir : DirId) (dst : String)
    (h : Inv g) :
    (∃ o, o.Failed ∧ rename now srcDir src dstDir dst g = (o, g)) ∨
    (UserName src ∧ UserName dst ∧ ∃ g', Renamed now g srcDir src dstDir dst g' ∧
      rename now srcDir src dstDir dst g =
        (.ok (), g'.recordProv (now 1) .rename ((g'.resolveName dstDir dst).getD 0) dst)) := by
  unfold rename
  cases hcap : g.requireCap Rights.write with
  | error e => exact .inl ⟨_, Outcome.failed_err _, rfl⟩
  | ok _ =>
      dsimp only
      by_cases hnames : src = "." ∨ src = ".." ∨ dst = "." ∨ dst = ".."
      · rw [if_pos hnames]
        exact .inl ⟨_, Outcome.failed_err _, rfl⟩
      · rw [if_neg hnames]
        simp only [not_or] at hnames
        obtain ⟨hs₁, hs₂, hd₁, hd₂⟩ := hnames
        by_cases hdir : srcDir = dstDir
        · subst hdir
          rw [if_pos rfl]
          rcases renameSameDir_spec now srcDir dst h ⟨hs₁, hs₂⟩ with
            ⟨o, hfail, heq⟩ | ⟨e, t, he, ⟨rfl, heq⟩ | ⟨hne, g', hremove, hcleared, heq⟩⟩
          · rw [heq]
            exact .inl ⟨o, hfail, hfail.unlogged now _ _ _⟩
          · rw [heq]
            exact .inr ⟨⟨hs₁, hs₂⟩, ⟨hd₁, hd₂⟩, g, .same rfl rfl he, rfl⟩
          · rw [heq]
            exact .inr ⟨⟨hs₁, hs₂⟩, ⟨hd₁, hd₂⟩, _, .inPlace rfl hne he hremove hcleared, rfl⟩
        · rw [if_neg hdir]
          rcases renameCrossDir_spec now dst h ⟨hs₁, hs₂⟩ hdir with
            ⟨o, hfail, heq⟩ | ⟨e, t, g', he, hcycle, hremove, hcleared, he', heq⟩
          · rw [heq]
            exact .inl ⟨o, hfail, hfail.unlogged now _ _ _⟩
          · rw [heq]
            exact .inr ⟨⟨hs₁, hs₂⟩, ⟨hd₁, hd₂⟩, _, .moved hdir he hcycle hremove hcleared he', rfl⟩

end Specs

end SotFs
