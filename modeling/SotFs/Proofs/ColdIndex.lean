/-
Module: SotFs.Proofs.ColdIndex
Layer: Proofs
Purpose: A graph that is read back from its serialized form without a rebuild of the name index. A call that
  enters no name leaves the empty index empty, so nothing tells the graph from the one that was saved. The first
  name that is entered fills the index with itself alone, and the names from before are not found.
Trusted boundary: none
Main exports: Op.EntersName, Filed.apply_cold, Query.Looks, EntersNone, cold_index_answers, cold_index_misses
-/
import SotFs.Proofs.IndexScans
import SotFs.Proofs.Reload

namespace SotFs

open Std (ExtTreeMap ExtTreeSet)
open Foundation

/-! ### Calls on a graph with an empty index -/

/-- The call passes its checks and enters a name. -/
def Op.EntersName (g : TypeGraph) : Op → Prop
  | .createFile d n .. | .mkdir d n .. | .symlink d n .. =>
      g.requireCap Rights.write = .ok () ∧ invalidName n = false ∧ g.resolveName d n = none ∧
        g.containsDir d = true ∧ g.checkQuotaInode d = .ok ()
  | .link d n t => g.CanLink d n t
  | .rename sd sn dd dn => g.Renames sd sn dd dn ∧ (sd, sn) ≠ (dd, dn) ∧ g.CanReplace dd dn
  | _ => False

/-- Two calls end with the same outcome, and the second in the graph of the first with an empty index. -/
def EndCold {α : Type} (r rc : Outcome α × TypeGraph) : Prop := rc.1 = r.1 ∧ rc.2 = r.2.cold

namespace EndCold

theorem map {α β : Type} {r rc : Outcome α × TypeGraph} (h : EndCold r rc) (f : α → β) :
    EndCold (r.map (Outcome.map f) id) (rc.map (Outcome.map f) id) :=
  ⟨congrArg (Outcome.map f) h.1, h.2⟩

/-- Both calls take the same branch. -/
theorem ite {α : Type} {p : Prop} [Decidable p] {a b ac bc : Outcome α × TypeGraph} (hthen : EndCold a ac)
    (helse : EndCold b bc) : EndCold (if p then a else b) (if p then ac else bc) := by
  split
  · exact hthen
  · exact helse

end EndCold

namespace TypeGraph

variable {g : TypeGraph}

theorem removeEdge_cold (e : EdgeId) :
    g.cold.removeEdge e = ((g.removeEdge e).1, (g.removeEdge e).2.cold) := by
  unfold removeEdge
  rw [show g.cold.edges = g.edges from rfl]
  generalize g.edges.remove (idToArena e) = r
  obtain ⟨removed, edges⟩ := r
  cases removed with
  | none => rfl
  | some v =>
      cases v with
      | contains eid src tgt name =>
          dsimp only
          rw [show g.cold.dirNameIdx = ∅ from rfl, ExtTreeMap.erase_empty]
          rfl
      | _ => rfl

theorem detachContains_cold (e : EdgeId) : g.cold.detachContains e = (g.detachContains e).cold := by
  unfold detachContains
  rw [removeEdge_cold]
  generalize g.removeEdge e = r
  obtain ⟨removed, g'⟩ := r
  cases removed with
  | none => rfl
  | some v => cases v <;> rfl

theorem releaseBlockEdge_cold (e : EdgeId) : g.cold.releaseBlockEdge e = (g.releaseBlockEdge e).cold := by
  unfold releaseBlockEdge
  rw [removeEdge_cold]
  generalize g.removeEdge e = r
  obtain ⟨removed, g'⟩ := r
  cases removed with
  | none => rfl
  | some v =>
      cases v with
      | pointsTo id t b o =>
          dsimp only
          rw [show g'.cold.getBlock b = g'.getBlock b from rfl]
          cases g'.getBlock b with
          | none => rfl
          | some block =>
              dsimp only
              split <;> rfl
      | _ => rfl

/-- A fold of steps that do not look at the index. -/
theorem foldl_cold {α : Type} {f : TypeGraph → α → TypeGraph} (hf : ∀ g a, f (cold g) a = (f g a).cold)
    (as : List α) : ∀ g : TypeGraph, as.foldl f g.cold = (as.foldl f g).cold := by
  induction as with
  | nil => exact fun _ => rfl
  | cons a as ih =>
      intro g
      rw [List.foldl_cons, List.foldl_cons, hf, ih]

theorem dropName_cold (e : EdgeId) (d : DirId) (t : InodeId) :
    g.cold.dropName e d t = (g.dropName e d t).cold := by
  unfold dropName
  rw [removeEdge_cold]
  rfl

theorem collectInode_cold (t : InodeId) : g.cold.collectInode t = (g.collectInode t).cold := by
  unfold collectInode
  have hrelease := foldl_cold (fun g e => g.releaseBlockEdge_cold e)
    (SetIndex.members g.inodePointsTo t).toList { g with inodePointsTo := g.inodePointsTo.erase t }
  change ((SetIndex.members g.inodePointsTo t).toList.foldl releaseBlockEdge
    (cold { g with inodePointsTo := g.inodePointsTo.erase t })).removeInode t |> fun g' : TypeGraph =>
      ({ g' with inodeIncomingContains := g'.inodeIncomingContains.erase t } : TypeGraph) = _
  rw [hrelease]
  rfl

theorem dropLastName_cold (e : EdgeId) (d : DirId) (t : InodeId) :
    g.cold.dropLastName e d t = (g.dropLastName e d t).cold := by
  unfold dropLastName
  rw [dropName_cold, collectInode_cold]

theorem removeDir_cold (d : DirId) : g.cold.removeDir d = (g.removeDir d).cold := by
  unfold removeDir
  rw [show g.cold.dirs = g.dirs from rfl]
  generalize g.dirs.remove (idToArena d) = r
  obtain ⟨removed, dirs⟩ := r
  cases removed <;> rfl

theorem dropDir_cold (p : DirId) (n : String) (ti : InodeId) (td : DirId) :
    g.cold.dropDir p n ti td = (g.dropDir p n ti td).cold := by
  unfold dropDir
  rw [show g.cold.rmdirEdges p n ti td = g.rmdirEdges p n ti td from rfl,
    foldl_cold (fun g e => g.detachContains_cold e)]
  dsimp only
  rw [show ∀ g : TypeGraph, g.cold.removeInode ti = (g.removeInode ti).cold from fun _ => rfl, removeDir_cold]
  rfl

theorem dropXattr_cold (t : InodeId) (a : XAttrId) : g.cold.dropXattr t a = (g.dropXattr t a).cold := by
  unfold dropXattr
  dsimp only
  generalize hg : ({ g with xattrs := g.xattrs.erase a, inodeXattrs := SetIndex.drop g.inodeXattrs t a } :
    TypeGraph) = g'
  rw [show ({ g.cold with
      xattrs := g.cold.xattrs.erase a
      inodeXattrs := SetIndex.drop g.cold.inodeXattrs t a } : TypeGraph) = g'.cold from hg ▸ rfl,
    show g'.cold.findXattrEdge t a = g'.findXattrEdge t a from rfl]
  cases g'.findXattrEdge t a with
  | none => rfl
  | some e =>
      dsimp only
      rw [removeEdge_cold]

theorem foldl_purgeGrant_cold (edges : List EdgeId) : ∀ acc : List CapId × TypeGraph,
    edges.foldl purgeGrant (acc.1, acc.2.cold) =
      ((edges.foldl purgeGrant acc).1, (edges.foldl purgeGrant acc).2.cold) := by
  have hpurge : ∀ (acc : List CapId × TypeGraph) e,
      purgeGrant (acc.1, acc.2.cold) e = ((purgeGrant acc e).1, (purgeGrant acc e).2.cold) := by
    intro acc e
    unfold purgeGrant
    rw [removeEdge_cold]
    generalize acc.2.removeEdge e = r
    obtain ⟨removed, g'⟩ := r
    cases removed with
    | none => rfl
    | some v => cases v <;> rfl
  induction edges with
  | nil => exact fun _ => rfl
  | cons e edges ih =>
      intro acc
      rw [List.foldl_cons, List.foldl_cons, hpurge, ih]

theorem dropGrants_cold (t : InodeId) : g.cold.dropGrants t = (g.dropGrants t).cold := by
  unfold dropGrants
  rw [show g.cold.grantsInto t = g.grantsInto t from rfl, foldl_purgeGrant_cold _ ([], g)]
  exact foldl_cold (fun _ _ => rfl) _ _

theorem grantEntry_cold (t : InodeId) (mask : Option Rights) (entry : AclEntry) :
    grantEntry t mask g.cold entry = (grantEntry t mask g entry).cold := by
  unfold grantEntry
  split
  · rfl
  · dsimp only
    split <;> rfl

end TypeGraph

namespace Filed

variable {next : Nat} {g : TypeGraph} {now : Nat → Timestamp}

theorem settle_cold {α : Type} (h : Filed next g) (d : DirId) (di : Int) (now : Timestamp) (op : ProvOp)
    (t : InodeId) (detail : String) (value : α) :
    EndCold (g.settle d di now op t detail value) (g.cold.settle d di now op t detail value) := by
  unfold TypeGraph.settle
  rw [h.updateQuota_cold]
  cases g.updateQuota d di 0 with
  | none => exact ⟨rfl, rfl⟩
  | some g' => exact ⟨rfl, rfl⟩

theorem rmdir_cold (h : Filed next g) (d : DirId) (n : String) :
    EndCold (rmdir now d n g) (rmdir now d n g.cold) := by
  unfold rmdir
  rw [h.resolveName_cold, show g.cold.requireCap Rights.write = g.requireCap Rights.write from rfl]
  cases g.requireCap Rights.write with
  | error e => exact ⟨rfl, rfl⟩
  | ok _ =>
      refine .ite ⟨rfl, rfl⟩ ?_
      cases g.resolveName d n with
      | none => exact ⟨rfl, rfl⟩
      | some t =>
          dsimp only
          rw [show g.cold.getInode t = g.getInode t from rfl,
            show g.cold.dirForInode t = g.dirForInode t from rfl]
          cases g.getInode t with
          | none => exact ⟨rfl, rfl⟩
          | some inode =>
              refine .ite ⟨rfl, rfl⟩ ?_
              cases g.dirForInode t with
              | none => exact ⟨rfl, rfl⟩
              | some td =>
                  dsimp only
                  rw [show g.cold.dirNotEmpty td = g.dirNotEmpty td from rfl]
                  refine .ite ⟨rfl, rfl⟩ ?_
                  have hdropped := (h.dropDir d n t td).1.settle_cold d (-1) (now 0) .rmdir t n ()
                  rw [← g.dropDir_cold] at hdropped
                  exact hdropped

theorem unlink_cold (h : Filed next g) (d : DirId) (n : String) :
    EndCold (unlink now d n g) (unlink now d n g.cold) := by
  unfold unlink
  rw [show g.cold.requireCap Rights.write = g.requireCap Rights.write from rfl,
    show g.cold.dirContains = g.dirContains from rfl, show g.cold.dirEntries d = g.dirEntries d from rfl]
  cases g.requireCap Rights.write with
  | error e => exact ⟨rfl, rfl⟩
  | ok _ =>
      refine .ite ⟨rfl, rfl⟩ (.ite ⟨rfl, rfl⟩ ?_)
      cases hfind : (g.dirEntries d).find? fun entry => entry.2.2 = n with
      | none => exact ⟨rfl, rfl⟩
      | some entry =>
          obtain ⟨e, t, m⟩ := entry
          have he : e < next := h.entry_lt (h.mem_dirEntries.mp (List.mem_of_find?_eq_some hfind))
          dsimp only
          rw [show g.cold.getInode t = g.getInode t from rfl]
          cases g.getInode t with
          | none => exact ⟨rfl, rfl⟩
          | some inode =>
              refine .ite ⟨rfl, rfl⟩ (.ite ?_ ?_)
              · have hdropped := (h.dropLastName he d t).1.settle_cold d (-1) (now 0) .unlink t n ()
                rw [← g.dropLastName_cold] at hdropped
                exact hdropped
              · have hdropped := g.dropName_cold e d t
                exact ⟨rfl, congrArg (fun g' : TypeGraph => g'.recordProv (now 0) .unlink t n) hdropped⟩

theorem removeDestination_cold (h : Filed next g) (now : Nat → Timestamp) (d : DirId) (n : String) (t : Option InodeId) :
    EndCold (g.removeDestination now d n t) (g.cold.removeDestination now d n t) := by
  unfold TypeGraph.removeDestination
  cases t with
  | none => exact ⟨rfl, rfl⟩
  | some t =>
      dsimp only
      rw [show g.cold.getInode t = g.getInode t from rfl]
      cases g.getInode t with
      | none => exact ⟨rfl, rfl⟩
      | some inode => exact .ite (h.rmdir_cold d n) (h.unlink_cold d n)

/-- The checks that create_file, mkdir and symlink share do not look at the index, and one of them fails. -/
theorem checked_cold {α : Type} (h : Filed next g) {d : DirId} {n : String} (hno : ¬ g.ChecksPass d n)
    (made made' : Outcome α × TypeGraph) : EndCold (g.checked d n made) (g.cold.checked d n made') := by
  unfold TypeGraph.checked
  rw [h.resolveName_cold, h.checkQuotaInode_cold,
    show g.cold.requireCap Rights.write = g.requireCap Rights.write from rfl,
    show g.cold.containsDir d = g.containsDir d from rfl]
  cases hcap : g.requireCap Rights.write with
  | error e => exact ⟨rfl, rfl⟩
  | ok _ =>
      cases hvalid : invalidName n with
      | true => exact ⟨rfl, rfl⟩
      | false =>
          cases hres : g.resolveName d n with
          | some t => exact ⟨rfl, rfl⟩
          | none =>
              cases hdir : g.containsDir d with
              | false => exact ⟨rfl, rfl⟩
              | true =>
                  cases hquota : g.checkQuotaInode d with
                  | ok _ => exact absurd ⟨hcap, hvalid, hres, hdir, hquota⟩ hno
                  | err | panic | diverges => exact ⟨rfl, rfl⟩

theorem createFile_cold (h : Filed next g) {d : DirId} {n : String} {u gr : UInt32} {p : Permissions}
    (hno : ¬ (Op.createFile d n u gr p).EntersName g) :
    EndCold (createFile now d n u gr p g) (createFile now d n u gr p g.cold) := by
  rw [createFile_eq_checked, createFile_eq_checked]
  exact h.checked_cold hno _ _

theorem symlink_cold (h : Filed next g) {d : DirId} {n target : String} {u gr : UInt32}
    (hno : ¬ (Op.symlink d n target u gr).EntersName g) :
    EndCold (symlink now d n target u gr g) (symlink now d n target u gr g.cold) := by
  rw [symlink_eq_checked, symlink_eq_checked]
  exact h.checked_cold hno _ _

theorem mkdir_cold (h : Filed next g) {d : DirId} {n : String} {u gr : UInt32} {p : Permissions}
    (hno : ¬ (Op.mkdir d n u gr p).EntersName g) :
    EndCold (mkdir now d n u gr p g) (mkdir now d n u gr p g.cold) := by
  rw [mkdir_eq_checked, mkdir_eq_checked]
  exact h.checked_cold hno _ _

theorem link_cold (h : Filed next g) {d : DirId} {n : String} {t : InodeId}
    (hno : ¬ (Op.link d n t).EntersName g) :
    EndCold (link now d n t g) (link now d n t g.cold) := by
  unfold link
  rw [h.resolveName_cold, show g.cold.requireCap Rights.write = g.requireCap Rights.write from rfl,
    show g.cold.getInode t = g.getInode t from rfl]
  cases hcap : g.requireCap Rights.write with
  | error e => exact ⟨rfl, rfl⟩
  | ok _ =>
      by_cases hn : n = "." ∨ n = ".."
      · rw [if_pos hn, if_pos hn]
        exact ⟨rfl, rfl⟩
      · rw [if_neg hn, if_neg hn]
        cases hres : g.resolveName d n with
        | some _ => exact ⟨rfl, rfl⟩
        | none =>
            cases hi : g.getInode t with
            | none => exact ⟨rfl, rfl⟩
            | some inode =>
                by_cases hkind : inode.vtype = .directory
                · simp only [hkind, if_true]
                  exact ⟨rfl, rfl⟩
                · by_cases hmax : LINK_MAX ≤ inode.linkCount
                  · simp only [hkind, hmax, if_true, if_false]
                    exact ⟨rfl, rfl⟩
                  · exact absurd ⟨hcap, not_or.mp hn, hres, inode, hi, hkind, not_le.mp hmax⟩ hno

/-- A destination that cannot be replaced stops both renames. -/
theorem removeDestination_stops (h : Filed g.nextEdge g) (now : Nat → Timestamp) {d : DirId} {n : String}
    (hno : ¬ g.CanReplace d n) : (g.removeDestination now d n (g.resolveName d n)).1.Failed := by
  rcases h.removeDestination_spec now d n with hfails | ⟨hreplace, _⟩
  · exact hfails.failed
  · exact absurd hreplace hno

theorem renameSameDir_cold (h : Filed g.nextEdge g) {d : DirId} {sn dn : String}
    (hno : ∀ s, g.resolveName d sn = some s → sn ≠ dn → ¬ g.CanReplace d dn) :
    EndCold (renameSameDir now d sn dn g) (renameSameDir now d sn dn g.cold) ∧
      ∀ g', renameSameDir now d sn dn g = (.ok (), g') → g' = g := by
  unfold renameSameDir
  rw [h.resolveName_cold, h.resolveName_cold]
  cases hres : g.resolveName d sn with
  | none => exact ⟨⟨rfl, rfl⟩, fun _ hok => by cases hok⟩
  | some s =>
      by_cases hsame : sn = dn
      · dsimp only
        rw [if_pos hsame, if_pos hsame]
        exact ⟨⟨rfl, rfl⟩, fun _ hok => by cases hok; rfl⟩
      · dsimp only
        rw [if_neg hsame, if_neg hsame]
        have hstops := h.removeDestination_stops now (hno s hres hsame)
        obtain ⟨hout, hcold⟩ := h.removeDestination_cold now d dn (g.resolveName d dn)
        generalize g.removeDestination now d dn (g.resolveName d dn) = r,
          g.cold.removeDestination now d dn (g.resolveName d dn) = rc at hstops hout hcold
        obtain ⟨o, g₁⟩ := r
        obtain ⟨oc, gc⟩ := rc
        dsimp only at hstops hout hcold
        subst hout
        cases oc with
        | ok _ => exact absurd rfl (hstops ())
        | err | panic | diverges => exact ⟨⟨rfl, hcold⟩, fun _ hok => by cases hok⟩

theorem renameCrossDir_cold (h : Filed g.nextEdge g) (now : Nat → Timestamp) (sd dd : DirId) (sn dn : String)
    (hno : ∀ s, g.resolveName sd sn = some s → g.wouldCycle s dd = false → ¬ g.CanReplace dd dn) :
    EndCold (renameCrossDir now sd sn dd dn g) (renameCrossDir now sd sn dd dn g.cold) ∧
      ∀ g', renameCrossDir now sd sn dd dn g ≠ (.ok (), g') := by
  unfold renameCrossDir
  rw [h.resolveName_cold, h.resolveName_cold]
  cases hres : g.resolveName sd sn with
  | none => exact ⟨⟨rfl, rfl⟩, fun _ hok => by cases hok⟩
  | some s =>
      dsimp only
      rw [show g.cold.wouldCycle s dd = g.wouldCycle s dd from rfl]
      cases hcycle : g.wouldCycle s dd with
      | true => exact ⟨⟨rfl, rfl⟩, fun _ hok => by cases hok⟩
      | false =>
          have hstops := h.removeDestination_stops now (hno s hres hcycle)
          obtain ⟨hout, hcold⟩ := h.removeDestination_cold now dd dn (g.resolveName dd dn)
          generalize g.removeDestination now dd dn (g.resolveName dd dn) = r,
            g.cold.removeDestination now dd dn (g.resolveName dd dn) = rc at hstops hout hcold
          obtain ⟨o, g₁⟩ := r
          obtain ⟨oc, gc⟩ := rc
          dsimp only at hstops hout hcold
          subst hout
          cases oc with
          | ok _ => exact absurd rfl (hstops ())
          | err | panic | diverges => exact ⟨⟨rfl, hcold⟩, fun _ hok => by cases hok⟩

theorem rename_cold (h : Filed g.nextEdge g) {sd dd : DirId} {sn dn : String}
    (hno : ¬ (Op.rename sd sn dd dn).EntersName g) :
    EndCold (rename now sd sn dd dn g) (rename now sd sn dd dn g.cold) := by
  unfold rename
  rw [show g.cold.requireCap Rights.write = g.requireCap Rights.write from rfl]
  cases hcap : g.requireCap Rights.write with
  | error e => exact ⟨rfl, rfl⟩
  | ok _ =>
      by_cases hnames : sn = "." ∨ sn = ".." ∨ dn = "." ∨ dn = ".."
      · dsimp only
        rw [if_pos hnames, if_pos hnames]
        exact ⟨rfl, rfl⟩
      · dsimp only
        rw [if_neg hnames, if_neg hnames]
        obtain ⟨hs₁, hs₂, hd₁, hd₂⟩ : sn ≠ "." ∧ sn ≠ ".." ∧ dn ≠ "." ∧ dn ≠ ".." := by tauto
        have hresult : EndCold
              (if sd = dd then renameSameDir now sd sn dn g else renameCrossDir now sd sn dd dn g)
              (if sd = dd then renameSameDir now sd sn dn g.cold else renameCrossDir now sd sn dd dn g.cold) ∧
            ∀ g', (if sd = dd then renameSameDir now sd sn dn g else renameCrossDir now sd sn dd dn g) =
              (.ok (), g') → g' = g := by
          split
          · rename_i hdir
            refine h.renameSameDir_cold fun s hs hne hreplace => hno ⟨?_, ?_, hdir ▸ hreplace⟩
            · exact ⟨hcap, ⟨hs₁, hs₂⟩, ⟨hd₁, hd₂⟩, s, hs, fun hcross => absurd hdir hcross⟩
            · exact fun heq => hne (congrArg Prod.snd heq)
          · rename_i hdir
            have hcross := h.renameCrossDir_cold now sd dd sn dn
              fun s hs hcycle hreplace => hno ⟨⟨hcap, ⟨hs₁, hs₂⟩, ⟨hd₁, hd₂⟩, s, hs, fun _ => hcycle⟩,
                fun heq => hdir (congrArg Prod.fst heq), hreplace⟩
            exact ⟨hcross.1, fun g' hok => absurd hok (hcross.2 g')⟩
        obtain ⟨⟨hout, hcold⟩, hkept⟩ := hresult
        generalize (if sd = dd then renameSameDir now sd sn dn g else renameCrossDir now sd sn dd dn g) = r,
          (if sd = dd then renameSameDir now sd sn dn g.cold else renameCrossDir now sd sn dd dn g.cold) = rc
          at hout hcold hkept ⊢
        obtain ⟨o, g₁⟩ := r
        obtain ⟨oc, gc⟩ := rc
        dsimp only at hout hcold
        subst hout
        cases oc with
        | err | panic | diverges => exact ⟨rfl, hcold⟩
        | ok _ =>
            cases hkept g₁ rfl
            subst hcold
            refine ⟨rfl, ?_⟩
            dsimp only
            rw [h.resolveName_cold]
            rfl

theorem setacl_cold (t : InodeId) (entries : List AclEntry) :
    EndCold (setacl now t entries g) (setacl now t entries g.cold) := by
  unfold setacl
  rw [show g.cold.requireCap Rights.grant = g.requireCap Rights.grant from rfl,
    show g.cold.containsInode t = g.containsInode t from rfl]
  cases g.requireCap Rights.grant with
  | error e => exact ⟨rfl, rfl⟩
  | ok _ =>
      refine .ite ⟨rfl, rfl⟩ ⟨rfl, ?_⟩
      have hgranted := TypeGraph.foldl_cold (fun g e => g.grantEntry_cold t (aclMask entries) e) entries
        { g.dropGrants t with acls := (g.dropGrants t).acls.insert t entries }
      have hdropped : ({ g.cold.dropGrants t with acls := (g.cold.dropGrants t).acls.insert t entries } :
          TypeGraph) = TypeGraph.cold
            { g.dropGrants t with acls := (g.dropGrants t).acls.insert t entries } := by
        rw [g.dropGrants_cold]
        rfl
      rw [← hdropped] at hgranted
      exact congrArg (fun g' : TypeGraph => g'.recordProv (now 0) .setAcl t "") hgranted

theorem writeBlock_cold (t : InodeId) (offset start count : Nat) :
    EndCold (writeBlock t offset start count g) (writeBlock t offset start count g.cold) := by
  unfold writeBlock
  rw [show g.cold.requireCap Rights.write = g.requireCap Rights.write from rfl,
    show g.cold.containsInode t = g.containsInode t from rfl]
  cases g.requireCap Rights.write with
  | error e => exact ⟨rfl, rfl⟩
  | ok _ => exact .ite ⟨rfl, rfl⟩ ⟨rfl, rfl⟩

theorem writeData_cold (t : InodeId) (offset : Nat) (data : List UInt8) :
    EndCold (writeData now t offset data g) (writeData now t offset data g.cold) := by
  unfold writeData
  rw [show g.cold.requireCap Rights.write = g.requireCap Rights.write from rfl,
    show g.cold.getInode t = g.getInode t from rfl]
  cases g.requireCap Rights.write with
  | error e => exact ⟨rfl, rfl⟩
  | ok _ =>
      cases g.getInode t with
      | none => exact ⟨rfl, rfl⟩
      | some inode => exact .ite ⟨rfl, rfl⟩ (.ite ⟨rfl, rfl⟩ (.ite ⟨rfl, rfl⟩ ⟨rfl, rfl⟩))

theorem truncate_cold (t : InodeId) (newSize : Nat) :
    EndCold (truncate now t newSize g) (truncate now t newSize g.cold) := by
  unfold truncate
  rw [show g.cold.requireCap Rights.write = g.requireCap Rights.write from rfl,
    show g.cold.getInode t = g.getInode t from rfl]
  cases g.requireCap Rights.write with
  | error e => exact ⟨rfl, rfl⟩
  | ok _ =>
      cases g.getInode t with
      | none => exact ⟨rfl, rfl⟩
      | some inode => exact .ite ⟨rfl, rfl⟩ (.ite ⟨rfl, rfl⟩ ⟨rfl, rfl⟩)

theorem chmod_cold (t : InodeId) (mode : UInt16) :
    EndCold (chmod now t mode g) (chmod now t mode g.cold) := by
  unfold chmod
  rw [show g.cold.requireCap Rights.grant = g.requireCap Rights.grant from rfl,
    show g.cold.getInode t = g.getInode t from rfl]
  cases g.requireCap Rights.grant with
  | error e => exact ⟨rfl, rfl⟩
  | ok _ => cases g.getInode t <;> exact ⟨rfl, rfl⟩

theorem chown_cold (t : InodeId) (u gr : Option UInt32) :
    EndCold (chown now t u gr g) (chown now t u gr g.cold) := by
  unfold chown
  rw [show g.cold.requireCap Rights.grant = g.requireCap Rights.grant from rfl,
    show g.cold.getInode t = g.getInode t from rfl]
  cases g.requireCap Rights.grant with
  | error e => exact ⟨rfl, rfl⟩
  | ok _ => cases g.getInode t <;> exact ⟨rfl, rfl⟩

theorem setxattr_cold (t : InodeId) (ns : XAttrNamespace) (name : String) (value : List UInt8) :
    EndCold (setxattr now t ns name value g) (setxattr now t ns name value g.cold) := by
  unfold setxattr
  rw [show g.cold.requireCap Rights.write = g.requireCap Rights.write from rfl,
    show g.cold.containsInode t = g.containsInode t from rfl,
    show g.cold.findXattr t ns name = g.findXattr t ns name from rfl]
  cases g.requireCap Rights.write with
  | error e => exact ⟨rfl, rfl⟩
  | ok _ =>
      refine .ite ⟨rfl, rfl⟩ (.ite ⟨rfl, rfl⟩ ?_)
      cases g.findXattr t ns name <;> exact ⟨rfl, rfl⟩

theorem removexattr_cold (t : InodeId) (ns : XAttrNamespace) (name : String) :
    EndCold (removexattr now t ns name g) (removexattr now t ns name g.cold) := by
  unfold removexattr
  rw [show g.cold.requireCap Rights.write = g.requireCap Rights.write from rfl,
    show g.cold.containsInode t = g.containsInode t from rfl,
    show g.cold.findXattr t ns name = g.findXattr t ns name from rfl]
  cases g.requireCap Rights.write with
  | error e => exact ⟨rfl, rfl⟩
  | ok _ =>
      refine .ite ⟨rfl, rfl⟩ ?_
      cases g.findXattr t ns name with
      | none => exact ⟨rfl, rfl⟩
      | some a =>
          exact ⟨rfl, congrArg (fun g' : TypeGraph => g'.recordProv (now 0) .removexattr t name)
            (g.dropXattr_cold t a)⟩

theorem setQuota_cold (d : DirId) (il bl : Nat) :
    EndCold (setQuota d il bl g) (setQuota d il bl g.cold) := by
  unfold setQuota
  rw [show g.cold.requireCap Rights.grant = g.requireCap Rights.grant from rfl,
    show g.cold.containsDir d = g.containsDir d from rfl]
  cases g.requireCap Rights.grant with
  | error e => exact ⟨rfl, rfl⟩
  | ok _ => exact .ite ⟨rfl, rfl⟩ ⟨rfl, rfl⟩

/-- A call that enters no name ends alike on a graph with an empty index, and leaves the index empty. -/
theorem apply_cold (h : Filed g.nextEdge g) (now : Nat → Timestamp) (op : Op) (hno : ¬ op.EntersName g) :
    EndCold (op.apply now g) (op.apply now g.cold) := by
  cases op with
  | createFile d n u gr p => exact (h.createFile_cold hno).map _
  | mkdir d n u gr p => exact (h.mkdir_cold hno).map _
  | symlink d n target u gr => exact (h.symlink_cold hno).map _
  | link d n t => exact (h.link_cold hno).map _
  | rename sd sn dd dn => exact (h.rename_cold hno).map _
  | rmdir d n => exact (h.rmdir_cold d n).map _
  | unlink d n => exact (h.unlink_cold d n).map _
  | writeBlock t offset start count => exact (writeBlock_cold t offset start count).map _
  | writeData t offset data => exact (writeData_cold t offset data).map _
  | truncate t newSize => exact (truncate_cold t newSize).map _
  | chmod t mode => exact (chmod_cold t mode).map _
  | chown t u gr => exact (chown_cold t u gr).map _
  | setxattr t ns name value => exact (setxattr_cold t ns name value).map _
  | removexattr t ns name => exact (removexattr_cold t ns name).map _
  | setacl t entries => exact (setacl_cold t entries).map _
  | setQuota d il bl => exact (setQuota_cold d il bl).map _

theorem resolvePath_cold (h : Filed next g) (path : String) :
    g.cold.resolvePath path = g.resolvePath path := by
  have hstep : g.cold.resolveComponent = g.resolveComponent := by
    funext current component
    unfold TypeGraph.resolveComponent
    rw [h.resolveName_cold, h.resolveName_cold]
    rfl
  unfold TypeGraph.resolvePath
  rw [hstep]
  rfl

end Filed

/-! ### Sequences of requests -/

/-- The query reads the graph; the two checkers, which judge the index as well, do not count. -/
def Query.Looks : Query → Prop
  | .checkInvariants | .fsck => False
  | _ => True

/-- A query answers alike without the index. -/
theorem Query.answer_cold {next : Nat} {g : TypeGraph} (h : Filed next g) (htyped : IndexTyped g)
    {query : Query} (hlooks : query.Looks) : query.answer g.cold = query.answer g := by
  cases query with
  | lookupName d n => exact congrArg Answer.edge (h.lookupName_cold htyped d n)
  | resolveName d n => exact congrArg Answer.inodeId (h.resolveName_cold d n)
  | parentDir d => exact congrArg Answer.dir (h.parentDir_cold d)
  | resolvePath path => exact congrArg Answer.location (h.resolvePath_cold path)
  | checkInvariants | fsck => exact hlooks.elim
  | _ => rfl

/-- No call of the sequence enters a name when its turn comes. -/
def EntersNone : TypeGraph → List Request → Prop
  | _, [] => True
  | g, request :: requests =>
      (∀ now op, request = .call now op → ¬ op.EntersName g) ∧ EntersNone (request.serve g).2 requests

/-- The graph after a sequence of requests. -/
def TypeGraph.after (g : TypeGraph) (requests : List Request) : TypeGraph :=
  requests.foldl (fun g request => (request.serve g).2) g

theorem TypeGraph.nextEdge_le_after (requests : List Request) : ∀ g : TypeGraph,
    g.nextEdge ≤ (g.after requests).nextEdge := by
  induction requests with
  | nil => exact fun _ => le_rfl
  | cons request requests ih =>
      intro g
      refine le_trans ?_ (ih (request.serve g).2)
      cases request with
      | call now op =>
          have hwrites : EdgeWrites (fun _ _ => True) (fun _ _ => True) g (op.apply now g).2 :=
            op.edgeWrites (fun _ _ _ => trivial) fun _ _ _ _ _ => trivial
          exact hwrites.nextEdge_le
      | _ => exact le_rfl

/-- As long as no name is entered the graph with the empty index responds as the graph. -/
theorem responses_cold (requests : List Request) : ∀ {g : TypeGraph}, g.NamesFiled →
    (g.nextEdge ≤ 2 ^ 32 → IndexTyped g) → (∀ query, .ask query ∈ requests → query.Looks) →
      EntersNone g requests → (g.after requests).nextEdge ≤ 2 ^ 32 →
        g.cold.responses requests = g.responses requests := by
  induction requests with
  | nil => exact fun _ _ _ _ _ => rfl
  | cons request requests ih =>
      intro g hfiled htyped hlooks hnone hle
      obtain ⟨hhead, hrest⟩ := hnone
      have hbefore : g.nextEdge ≤ 2 ^ 32 := (g.nextEdge_le_after _).trans hle
      have hlater : ∀ query, .ask query ∈ requests → query.Looks :=
        fun query hmem => hlooks query (List.mem_cons_of_mem _ hmem)
      -- The request is served alike, and leaves graphs that again differ in the index alone.
      suffices hserved : (request.serve g.cold).1 = (request.serve g).1 ∧
          (request.serve g.cold).2 = (request.serve g).2.cold ∧ (request.serve g).2.NamesFiled ∧
          ((request.serve g).2.nextEdge ≤ 2 ^ 32 → IndexTyped (request.serve g).2) by
        obtain ⟨hresponse, hgraph, hfiled', htyped'⟩ := hserved
        rw [TypeGraph.responses, TypeGraph.responses, hresponse, hgraph, ih hfiled' htyped' hlater hrest hle]
      cases request with
      | call now op =>
          obtain ⟨hout, hcold⟩ := (hfiled hbefore).apply_cold now op (hhead now op rfl)
          have hwrites : EdgeWrites (fun _ _ => True) (fun _ _ => True) g (op.apply now g).2 :=
            op.edgeWrites (fun _ _ _ => trivial) fun _ _ _ _ _ => trivial
          exact ⟨congrArg Response.outcome hout, hcold, hfiled.apply op,
            hwrites.indexTyped (htyped hbefore)⟩
      | ask query =>
          have hanswer := Query.answer_cold (hfiled hbefore) (htyped hbefore)
            (hlooks query List.mem_cons_self)
          exact ⟨congrArg Response.answer hanswer, rfl, hfiled, htyped⟩
      | setCapCtx ctx =>
          exact ⟨rfl, rfl, hfiled.congr rfl rfl rfl rfl rfl rfl, fun hle => (htyped hle).shrink id id rfl⟩
      | enableProvLog =>
          exact ⟨rfl, rfl, hfiled.congr rfl rfl rfl rfl rfl rfl, fun hle => (htyped hle).shrink id id rfl⟩
      | disableProvLog =>
          exact ⟨rfl, rfl, hfiled.congr rfl rfl rfl rfl rfl rfl, fun hle => (htyped hle).shrink id id rfl⟩

/-- A graph read back without a rebuild is like the graph with an empty index. -/
theorem Alike.deserialize_cold {g : TypeGraph} (hsame : Alike .stored g g) (hctx : g.capCtx = .anonymous) :
    Alike .stored g.cold g.serialize.deserialize where
  inodes := Arena.stored_reload hsame.inodes
  dirs := Arena.stored_reload hsame.dirs
  caps := Arena.stored_reload hsame.caps
  transactions := Arena.stored_reload hsame.transactions
  versions := Arena.stored_reload hsame.versions
  blocks := Arena.stored_reload hsame.blocks
  edges := Arena.stored_reload hsame.edges
  frame := by
    have hread : g.serialize.deserialize.frame = { g.cold.frame with capCtx := .anonymous } := rfl
    rw [hread, ← hctx]
    rfl

/-- The name index may stay empty as long as no name is entered: a graph that is read back without a
    rebuild gives the responses of the graph that was saved. -/
theorem cold_index_answers {allowed : TypeGraph → Op → TypeGraph → Prop} {g : TypeGraph} (hrun : Run allowed g)
    (hctx : g.capCtx = .anonymous) {requests : List Request}
    (hlooks : ∀ query, .ask query ∈ requests → query.Looks) (hnone : EntersNone g requests)
    (hle : (g.after requests).nextEdge ≤ 2 ^ 32) :
    g.serialize.deserialize.responses requests = g.responses requests := by
  rw [← (Alike.deserialize_cold (hrun.alike .stored) hctx).observablyEqual requests]
  exact responses_cold requests hrun.namesFiled hrun.indexTyped hlooks hnone hle

/-- A file is found and removed. -/
theorem cold_index_answers_unlinked :
    let g := (TypeGraph.new 0).calls (fun _ => 0) [.createFile 1 "a" 0 0 .fileDefault]
    let requests : List Request :=
      [.ask (.resolveName 1 "a"), .call (fun _ => 0) (.unlink 1 "a"), .ask (.lookupName 1 "a")]
    g.serialize.deserialize.responses requests = g.responses requests := by
  intro g requests
  have hrun : Run (fun g op _ => op.LiveDirs g) g :=
    Run.calls [.createFile 1 "a" 0 0 .fileDefault] (.new 0) (by decide)
  refine @cold_index_answers _ g hrun (by decide) requests ?_ ?_ (by decide)
  · intro query hmem
    simp only [requests, List.mem_cons, Request.ask.injEq, reduceCtorEq, List.not_mem_nil, or_false,
      false_or] at hmem
    rcases hmem with rfl | rfl <;> trivial
  · refine ⟨fun _ _ hcall => ?_, fun _ _ hcall => ?_, fun _ _ hcall => ?_, trivial⟩
    · cases hcall
    · cases hcall
      exact id
    · cases hcall

/-- Once a name is entered the names from before are not found: neither the file nor the root's own entry. -/
theorem cold_index_misses :
    let g := (TypeGraph.new 0).calls (fun _ => 0) [.createFile 1 "a" 0 0 .fileDefault]
    let h := g.serialize.deserialize
    let requests : List Request :=
      [.call (fun _ => 0) (.createFile 1 "b" 0 0 .fileDefault), .ask (.resolveName 1 "a")]
    Reachable g ∧ g.capCtx = .anonymous ∧ h.resolveName 1 "a" = some 2 ∧
      (g.after requests).resolveName 1 "a" = some 2 ∧ (h.after requests).resolveName 1 "a" = none ∧
      (h.after requests).resolveName 1 "." = none ∧ h.responses requests ≠ g.responses requests := by
  intro g h requests
  have hfound : (g.after requests).resolveName 1 "a" = some 2 := by decide
  have hmissed : (h.after requests).resolveName 1 "a" = none := by decide
  refine ⟨Run.calls _ (.new 0) (by decide), by decide, by decide, hfound, hmissed, by decide, fun hsame => ?_⟩
  have hanswers : [Response.answer (.inodeId ((h.after requests).resolveName 1 "a"))] =
      [.answer (.inodeId ((g.after requests).resolveName 1 "a"))] := congrArg List.tail hsame
  rw [hfound, hmissed] at hanswers
  cases hanswers

end SotFs
