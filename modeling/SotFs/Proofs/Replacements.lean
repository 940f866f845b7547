/-
Module: SotFs.Proofs.Replacements
Layer: Proofs
Purpose: The rules of replacement. A rename over a name that is taken should keep to the kind of what is there,
  and should do nothing when both names are links of one inode. The code looks at the destination alone, so it
  keeps to the rules exactly when the two inodes differ and are of one kind, or when it stops at another check.
Trusted boundary: none
Main exports: ReplaceRules, TypeGraph.ReplacesAlike, rename_replaceRules, rename_breaks_rules
-/
import SotFs.Proofs.FiledRuns

namespace SotFs

open Std (ExtTreeMap ExtTreeSet)
open Foundation

/-! ### The rules and the condition -/

/-- What the rules of replacement ask of one rename: a success replaces a directory by a directory and a file
    by a file, and over another link of the same inode it succeeds and leaves both names. -/
structure ReplaceRules (now : Nat → Timestamp) (g : TypeGraph) (sd : DirId) (sn : String) (dd : DirId)
    (dn : String) : Prop where
  kinds : ∀ {s t i j}, (sd, sn) ≠ (dd, dn) → (rename now sd sn dd dn g).1 = .ok () →
    g.resolveName sd sn = some s → g.resolveName dd dn = some t → g.getInode s = some i →
    g.getInode t = some j → (i.vtype = .directory ↔ j.vtype = .directory)
  links : ∀ {s t}, (sd, sn) ≠ (dd, dn) → UserName sn → UserName dn → g.resolveName sd sn = some s →
    g.resolveName dd dn = some t → idToArena s = idToArena t →
      (rename now sd sn dd dn g).1 = .ok () ∧ (rename now sd sn dd dn g).2.resolveName sd sn = some s ∧
        (rename now sd sn dd dn g).2.resolveName dd dn = some t

namespace TypeGraph

/-- The checks that a rename of the inode at `s` over a name that is taken goes through. -/
structure AdmitsRename (g : TypeGraph) (sd : DirId) (sn : String) (dd : DirId) (dn : String) (s : InodeId) :
    Prop where
  cap : g.requireCap Rights.write = .ok ()
  src : UserName sn
  dst : UserName dn
  acyclic : sd ≠ dd → g.wouldCycle s dd = false
  replaceable : g.CanReplace dd dn

/-- When source and destination are different names that exist, they are not links of one inode, and they are
    of one kind or a check stops the rename. -/
def ReplacesAlike (g : TypeGraph) (sd : DirId) (sn : String) (dd : DirId) (dn : String) : Prop :=
  ∀ s t, (sd, sn) ≠ (dd, dn) → g.resolveName sd sn = some s → g.resolveName dd dn = some t →
    (UserName sn → UserName dn → idToArena s ≠ idToArena t) ∧
    ((∀ i j, g.getInode s = some i → g.getInode t = some j →
        (i.vtype = .directory ↔ j.vtype = .directory)) ∨
      ¬ g.AdmitsRename sd sn dd dn s)

end TypeGraph

section Rename

variable {now : Nat → Timestamp} {g : TypeGraph} {sd dd : DirId} {sn dn : String} {s t : InodeId}

/-! ### Success and the checks -/

/-- A destination that could be removed passed its checks, on any graph. -/
theorem canReplace_of_removed {g' : TypeGraph}
    (hok : g.removeDestination now dd dn (g.resolveName dd dn) = (.ok (), g')) : g.CanReplace dd dn := by
  intro t ht
  rw [ht, TypeGraph.removeDestination] at hok
  cases hi : g.getInode t with
  | none =>
      rw [hi] at hok
      cases hok
  | some j =>
      rw [hi] at hok
      dsimp only at hok
      refine ⟨j, rfl, fun hdir => ?_⟩
      rw [if_pos hdir] at hok
      rcases rmdir_cases now dd dn g with
        ⟨o, hfail, heq⟩ | ⟨_, _, ti, td, _, hti, _, _, htd, hempty, _⟩
      · rw [hok] at heq
        cases heq
        exact absurd rfl (hfail ())
      · cases ht.symm.trans hti
        exact ⟨td, htd, hempty⟩

theorem removed_of_renameSameDir {d : DirId} (hne : sn ≠ dn) (hok : (renameSameDir now d sn dn g).1 = .ok ()) :
    ∃ g', g.removeDestination now d dn (g.resolveName d dn) = (.ok (), g') := by
  unfold renameSameDir at hok
  split at hok
  · cases hok
  · rw [if_neg hne] at hok
    split at hok
    · rename_i g' heq
      exact ⟨g', heq⟩
    · rename_i hno
      exact (hno _ (Prod.ext hok rfl)).elim

theorem removed_of_renameCrossDir (hs : g.resolveName sd sn = some s)
    (hok : (renameCrossDir now sd sn dd dn g).1 = .ok ()) : g.wouldCycle s dd = false ∧
      ∃ g', g.removeDestination now dd dn (g.resolveName dd dn) = (.ok (), g') := by
  unfold renameCrossDir at hok
  rw [hs] at hok
  dsimp only at hok
  split at hok
  · cases hok
  · rename_i hcycle
    refine ⟨by simpa using hcycle, ?_⟩
    split at hok
    · rename_i g' heq
      exact ⟨g', heq⟩
    · rename_i hno
      exact (hno _ (Prod.ext hok rfl)).elim

/-- A rename between different names that succeeds went through the checks, on any graph. -/
theorem admitsRename_of_ok (hne : (sd, sn) ≠ (dd, dn)) (hs : g.resolveName sd sn = some s)
    (hok : (rename now sd sn dd dn g).1 = .ok ()) : g.AdmitsRename sd sn dd dn s := by
  unfold rename at hok
  cases hcap : g.requireCap Rights.write with
  | error e =>
      rw [hcap] at hok
      cases hok
  | ok _ =>
      rw [hcap] at hok
      dsimp only at hok
      split at hok
      · cases hok
      · rename_i hnames
        simp only [not_or] at hnames
        obtain ⟨hs₁, hs₂, hd₁, hd₂⟩ := hnames
        have hresult : (if sd = dd then renameSameDir now sd sn dn g
            else renameCrossDir now sd sn dd dn g).1 = .ok () := by
          split at hok
          · rename_i heq
            rw [heq]
          · exact hok
        by_cases hdir : sd = dd
        · subst hdir
          rw [if_pos rfl] at hresult
          obtain ⟨g', hremoved⟩ := removed_of_renameSameDir (fun hname => hne (by rw [hname])) hresult
          exact ⟨hcap, ⟨hs₁, hs₂⟩, ⟨hd₁, hd₂⟩, fun hno => absurd rfl hno, canReplace_of_removed hremoved⟩
        · rw [if_neg hdir] at hresult
          obtain ⟨hcycle, g', hremoved⟩ := removed_of_renameCrossDir hs hresult
          exact ⟨hcap, ⟨hs₁, hs₂⟩, ⟨hd₁, hd₂⟩, fun _ => hcycle, canReplace_of_removed hremoved⟩

/-- An empty directory is removed once the right to write is there. -/
theorem Inv.rmdir_ok (h : Inv g) (hcap : g.requireCap Rights.write = .ok ()) (hdn : UserName dn)
    (ht : g.resolveName dd dn = some t) {j : Inode} (hj : g.getInode t = some j) (hkind : j.vtype = .directory)
    {td : DirId} (htd : g.dirForInode t = some td) (hempty : g.dirNotEmpty td = false) :
    (rmdir now dd dn g).1 = .ok () := by
  have heq : rmdir now dd dn g = (g.dropDir dd dn t td).settle dd (-1) (now 0) .rmdir t dn () := by
    unfold rmdir
    rw [hcap]
    dsimp only
    rw [if_neg (not_or.mpr hdn), ht]
    dsimp only
    rw [hj]
    dsimp only
    rw [if_neg (not_not.mpr hkind), htd]
    dsimp only
    rw [if_neg (by rw [hempty]; exact Bool.false_ne_true)]
    rfl
  obtain ⟨e, he⟩ := h.resolveName_iff.mp ht
  obtain ⟨_, _, hsettle⟩ := h.dropDir_settle he hdn
    (h.dirForInode_iff.mp htd) (h.no_userName_of_empty hempty) (-1) (now 0) .rmdir
  rw [heq, hsettle]

/-- A file is unlinked once the right to write is there. -/
theorem Inv.unlink_ok (h : Inv g) (hcap : g.requireCap Rights.write = .ok ()) (hdn : UserName dn)
    (ht : g.resolveName dd dn = some t) {j : Inode} (hj : g.getInode t = some j)
    (hkind : j.vtype ≠ .directory) : (unlink now dd dn g).1 = .ok () := by
  obtain ⟨e, he⟩ := h.resolveName_iff.mp ht
  have hlisted : ¬ dd ∉ g.dirContains := not_not.mpr ((h.dirKeys dd).mpr (h.shape.src_live he))
  have hfind : (g.dirEntries dd).find? (fun entry => entry.2.2 = dn) = some (e, t, dn) :=
    h.find_name.mpr ⟨rfl, he⟩
  unfold unlink
  rw [hcap]
  dsimp only
  rw [if_neg (not_or.mpr hdn), if_neg hlisted, hfind]
  dsimp only
  rw [hj]
  dsimp only
  rw [if_neg hkind]
  split
  · rename_i hlast
    obtain ⟨_, _, hsettle⟩ := h.dropLastName_settle he hdn hj
      hkind hlast (-1) (now 0) .unlink
    exact congrArg Prod.fst hsettle
  · rfl

/-- A destination that passes its checks is removed. -/
theorem Inv.removeDestination_ok (now : Nat → Timestamp) (h : Inv g)
    (hcap : g.requireCap Rights.write = .ok ()) (hdn : UserName dn) (hcan : g.CanReplace dd dn) :
    ∃ g', g.removeDestination now dd dn (g.resolveName dd dn) = (.ok (), g') ∧ Cleared g g' dd dn := by
  rcases removeDestination_spec now dd dn h with ⟨o, hfail, heq⟩ | hcleared
  · exfalso
    have hok : (g.removeDestination now dd dn (g.resolveName dd dn)).1 = .ok () := by
      cases ht : g.resolveName dd dn with
      | none => rfl
      | some t =>
          obtain ⟨j, hj, hempty⟩ := hcan t ht
          rw [TypeGraph.removeDestination, hj]
          dsimp only
          split
          · rename_i hkind
            obtain ⟨td, htd, hnone⟩ := hempty hkind
            exact h.rmdir_ok hcap hdn ht hj hkind htd hnone
          · rename_i hkind
            exact h.unlink_ok hcap hdn ht hj hkind
    rw [heq] at hok
    exact hfail () hok
  · exact hcleared

/-- A rename that goes through its checks succeeds. -/
theorem Inv.rename_ok (h : Inv g) (hne : (sd, sn) ≠ (dd, dn)) (hs : g.resolveName sd sn = some s)
    (hadmits : g.AdmitsRename sd sn dd dn s) : (rename now sd sn dd dn g).1 = .ok () := by
  obtain ⟨g', hremove, hcleared⟩ :=
    h.removeDestination_ok now hadmits.cap hadmits.dst hadmits.replaceable
  obtain ⟨e, he⟩ := h.resolveName_iff.mp hs
  have he' : g'.entries e = some (sd, s, sn) := hcleared.keep hadmits.src hne he
  have hlisted : ¬ sd ∉ g'.dirContains :=
    not_not.mpr ((hcleared.inv.dirKeys sd).mpr (hcleared.inv.shape.src_live he'))
  have hfind : g'.findEntry sd s sn = some e := hcleared.inv.findEntry_iff.mpr he'
  have hnames : ¬ (sn = "." ∨ sn = ".." ∨ dn = "." ∨ dn = "..") := by
    obtain ⟨hs₁, hs₂⟩ := hadmits.src
    obtain ⟨hd₁, hd₂⟩ := hadmits.dst
    simp only [not_or]
    exact ⟨hs₁, hs₂, hd₁, hd₂⟩
  unfold rename
  rw [hadmits.cap]
  dsimp only
  rw [if_neg hnames]
  by_cases hdir : sd = dd
  · subst hdir
    have hname : sn ≠ dn := fun hname => hne (by rw [hname])
    rw [if_pos rfl, renameSameDir, hs]
    dsimp only
    rw [if_neg hname, hremove]
    dsimp only
    rw [if_neg hlisted, hfind]
  · rw [if_neg hdir, renameCrossDir, hs]
    dsimp only
    rw [if_neg (by rw [hadmits.acyclic hdir]; exact Bool.false_ne_true), hremove]
    dsimp only
    rw [if_neg hlisted, hfind]

/-- Whatever a successful rename replaces, its source name is gone. -/
theorem Inv.rename_gone (h : Inv g) (hne : (sd, sn) ≠ (dd, dn)) (hok : (rename now sd sn dd dn g).1 = .ok ()) :
    (rename now sd sn dd dn g).2.resolveName sd sn = none := by
  rcases rename_spec now sd sn dd dn h with
    ⟨o, hfail, heq⟩ | ⟨hsn, hdn, g₂, hrenamed, heq⟩
  · rw [heq] at hok
    exact absurd hok (hfail ())
  · rw [heq]
    change g₂.resolveName sd sn = none
    cases hrenamed with
    | same hdir hname => exact absurd (by rw [hdir, hname]) hne
    | @inPlace e t g' hdir hname he hremove hcleared =>
        subst hdir
        have he' := hcleared.keep hsn hne he
        have hfiled : Filed g'.nextEdge g' :=
          TypeGraph.NamesFiled.of_inv hcleared.inv (hcleared.inv.edgeIds.next_le.trans (by decide))
        obtain ⟨hfiled', hentries⟩ := hfiled.renameContainsEdge he' hname hdn fun x hx => by
          obtain ⟨t', hx⟩ := TypeGraph.labels_eq_some.mp hx
          exact hcleared.free x t' hx
        rw [hfiled'.resolveName_eq_none_iff]
        intro x hx
        obtain ⟨t', hx⟩ := TypeGraph.labels_eq_some.mp hx
        rw [hentries, Function.update_apply] at hx
        split at hx
        · cases hx
          exact hname rfl
        · rename_i hxe
          exact hxe (hfiled.names hx he')
    | @moved e t g' hdir _ _ _ hcleared he' =>
        have hle : g'.nextEdge ≤ EDGE_CAPACITY := hcleared.inv.edgeIds.next_le
        have hlt : g'.nextEdge < 2 ^ 32 := lt_of_le_of_lt hle (by decide)
        have hfiled : Filed g'.nextEdge g' := TypeGraph.NamesFiled.of_inv hcleared.inv hlt.le
        obtain ⟨hfiled', hlabels, _⟩ := hfiled.moveEntry hlt he' hdn fun x hx => by
          obtain ⟨t', hx⟩ := TypeGraph.labels_eq_some.mp hx
          exact hcleared.free x t' hx
        rw [hfiled'.resolveName_eq_none_iff]
        intro x hx
        rcases hlabels hx with hk | ⟨hxe, hx⟩
        · exact hne hk
        · obtain ⟨t', hx⟩ := TypeGraph.labels_eq_some.mp hx
          exact hxe (hfiled.names hx he')

/-! ### When the rules are kept -/

/-- On any graph the condition is enough. -/
theorem TypeGraph.ReplacesAlike.rules (halike : g.ReplacesAlike sd sn dd dn) :
    ReplaceRules now g sd sn dd dn where
  kinds {s t i j} hne hok hs ht hi hj := by
    rcases (halike s t hne hs ht).2 with hkinds | hstops
    · exact hkinds i j hi hj
    · exact absurd (admitsRename_of_ok hne hs hok) hstops
  links {s t} hne hsn hdn hs ht hsame := absurd hsame ((halike s t hne hs ht).1 hsn hdn)

/-- The rules of replacement: on any graph a rename keeps to them when the inodes of its two names differ
    and are of one kind, or a check stops it; on a reachable graph it does in no other case. -/
theorem rename_replaceRules (g : TypeGraph) (now : Nat → Timestamp) (sd : DirId) (sn : String) (dd : DirId)
    (dn : String) : (g.ReplacesAlike sd sn dd dn → ReplaceRules now g sd sn dd dn) ∧
      (Reachable g → (ReplaceRules now g sd sn dd dn ↔ g.ReplacesAlike sd sn dd dn)) := by
  refine ⟨fun halike => halike.rules,
    fun hg => ⟨fun hrules s t hne hs ht => ⟨?_, ?_⟩, fun halike => halike.rules⟩⟩
  · intro hsn hdn hsame
    obtain ⟨hok, hkept, _⟩ := hrules.links hne hsn hdn hs ht hsame
    rw [hg.inv.rename_gone hne hok] at hkept
    cases hkept
  · by_cases hadmits : g.AdmitsRename sd sn dd dn s
    · exact .inl fun i j hi hj => hrules.kinds hne (hg.inv.rename_ok hne hs hadmits) hs ht hi hj
    · exact .inr hadmits

/-- A file renamed over another. -/
theorem rename_replaceRules_files :
    let g := (TypeGraph.new 0).calls (fun _ => 0)
      [.createFile 1 "a" 0 0 .fileDefault, .createFile 1 "b" 0 0 .fileDefault]
    (g.ReplacesAlike 1 "a" 1 "b" → ReplaceRules (fun _ => 0) g 1 "a" 1 "b") ∧
      (ReplaceRules (fun _ => 0) g 1 "a" 1 "b" ↔ g.ReplacesAlike 1 "a" 1 "b") := by
  intro g
  obtain ⟨hrules, hiff⟩ := rename_replaceRules g (fun _ => 0) 1 "a" 1 "b"
  exact ⟨hrules, hiff (Run.calls _ (.new 0) (by decide))⟩

end Rename

/-- A file takes the place of an empty directory, a directory that of a file, and a file renamed over its other
    name loses the first. -/
theorem rename_breaks_rules :
    let g := (TypeGraph.new 0).calls (fun _ => 0)
      [.createFile 1 "f" 0 0 .fileDefault, .mkdir 1 "d" 0 0 .dirDefault, .link 1 "f2" 2]
    Reachable g ∧ ¬ ReplaceRules (fun _ => 0) g 1 "f" 1 "d" ∧ ¬ ReplaceRules (fun _ => 0) g 1 "d" 1 "f" ∧
      ¬ ReplaceRules (fun _ => 0) g 1 "f" 1 "f2" := by
  intro g
  obtain ⟨i, hi, hfile⟩ : ∃ i, g.getInode 2 = some i ∧ i.vtype = .regular := by decide
  obtain ⟨j, hj, hdir⟩ : ∃ j, g.getInode 3 = some j ∧ j.vtype = .directory := by decide
  have hf : g.resolveName 1 "f" = some 2 := by decide
  have hd : g.resolveName 1 "d" = some 3 := by decide
  have hf2 : g.resolveName 1 "f2" = some 2 := by decide
  refine ⟨Run.calls _ (.new 0) (by decide), fun hrules => ?_, fun hrules => ?_, fun hrules => ?_⟩
  · have hkinds := hrules.kinds (by decide) (by decide) hf hd hi hj
    rw [hfile, hdir] at hkinds
    exact absurd (hkinds.mpr rfl) (by decide)
  · have hkinds := hrules.kinds (by decide) (by decide) hd hf hj hi
    rw [hfile, hdir] at hkinds
    exact absurd (hkinds.mp rfl) (by decide)
  · obtain ⟨_, hkept, _⟩ := hrules.links (by decide) (by decide) (by decide) hf hf2 rfl
    exact absurd hkept (by decide)

end SotFs
