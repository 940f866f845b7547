/-
Module: SotFs.Proofs.QuotaCharges
Layer: Proofs
Purpose: What the calls charge to the inode counters of the quotas, beside what they do to the names. A
  call that makes or frees an inode charges every directory from its parent upwards; link, the unlink of a
  name that is not the last, and the move of a name charge nothing.
Trusted boundary: none
Main exports: Charged, Inv.settle_charged, createFile_made, symlink_made, mkdir_made, link_made,
  NameReleased, unlink_released, rmdir_released, rename_moved, Op.aside
-/
import SotFs.Proofs.Subtrees
import SotFs.Proofs.FiledRuns

namespace SotFs

open Std (ExtTreeMap ExtTreeSet)
open Relation Foundation
open Foundation.RootedTree (UpPath)

/-! ### Walks -/

section Walks

variable {quotas : ExtTreeMap DirId Quota} {deltaInodes deltaBytes : Int} {path : List DirId} {d : DirId}

/-- A walk leaves the directories it does not visit as they are. -/
theorem chargeAlong_not_mem (hd : d ∉ path) :
    (chargeAlong quotas deltaInodes deltaBytes path)[d]? = quotas[d]? := by
  induction path generalizing quotas with
  | nil => rfl
  | cons a path ih =>
      obtain ⟨hda, hrest⟩ := not_or.mp (List.mem_cons.not.mp hd)
      rw [chargeAlong, List.foldl_cons, ← chargeAlong, ih hrest, ExtTreeMap.getElem?_modify, if_neg]
      rw [Std.compare_eq_iff_eq]
      exact fun heq => hda heq.symm

/-- A walk charges the directories it visits, once each. -/
theorem chargeAlong_mem (hnodup : path.Nodup) (hd : d ∈ path) :
    (chargeAlong quotas deltaInodes deltaBytes path)[d]? =
      quotas[d]?.map fun q => q.update deltaInodes deltaBytes := by
  induction path generalizing quotas with
  | nil => cases hd
  | cons a path ih =>
      obtain ⟨ha, hrest⟩ := List.nodup_cons.mp hnodup
      rw [chargeAlong, List.foldl_cons, ← chargeAlong]
      rcases List.mem_cons.mp hd with rfl | hd
      · rw [chargeAlong_not_mem ha, ExtTreeMap.getElem?_modify, if_pos (Std.ReflCmp.compare_self)]
      · have hne : ¬ compare a d = .eq := by
          rw [Std.compare_eq_iff_eq]
          rintro rfl
          exact ha hd
        rw [ih hrest hd, ExtTreeMap.getElem?_modify, if_neg hne]

/-- A check that passes passes at every directory of the walk. -/
theorem checkAlong_ok {check : Quota → Bool} {resource : Resource}
    (hok : checkAlong quotas check resource path = .ok ()) (hd : d ∈ path) {q : Quota}
    (hq : quotas[d]? = some q) : check q = true := by
  induction path with
  | nil => cases hd
  | cons a path ih =>
      unfold checkAlong at hok
      split at hok
      · rename_i hpass
        rcases List.mem_cons.mp hd with rfl | hd
        · rw [hq] at hpass
          exact hpass
        · exact ih hok hd
      · cases hok

/-- A check that fails at a directory of the walk fails, there or before. -/
theorem checkAlong_err {check : Quota → Bool} {resource : Resource} (hd : d ∈ path) {q : Quota}
    (hq : quotas[d]? = some q) (hfail : check q = false) :
    ∃ a, checkAlong quotas check resource path = .err (.quotaExceeded a resource) := by
  induction path with
  | nil => cases hd
  | cons a path ih =>
      unfold checkAlong
      split
      · rename_i hpass
        rcases List.mem_cons.mp hd with rfl | hd
        · rw [hq] at hpass
          change check q = true at hpass
          rw [hfail] at hpass
          cases hpass
        · exact ih hd
      · exact ⟨a, rfl⟩

end Walks

/-- The quotas from `p` upwards are charged `delta` inodes; the others are as they were. -/
structure Charged (g g' : TypeGraph) (p : DirId) (delta : Int) : Prop where
  above : ∀ {d}, g.Within d p → g'.quotas[d]? = g.quotas[d]?.map fun q => q.update delta 0
  aside : ∀ {d}, ¬ g.Within d p → g'.quotas[d]? = g.quotas[d]?

/-- Settling a live directory charges it and what lies above it. -/
theorem Inv.settle_charged {α : Type} {g : TypeGraph} (h : Inv g) {p : DirId} {i : InodeId}
    (hp : g.dirInode p = some i) (delta : Int) (now : Timestamp) (op : ProvOp) (t : InodeId)
    (detail : String) (value : α) : Charged g (g.settle p delta now op t detail value).2 p delta := by
  obtain ⟨path, hup⟩ := h.exists_upPath hp
  have hmem : ∀ d, d ∈ path ↔ g.Within d p := hup.mem_iff h.shape.tree
  unfold TypeGraph.settle
  rw [h.updateQuota_eq hp hup]
  refine ⟨?_, ?_⟩
  · intro d hd
    exact chargeAlong_mem (hup.nodup h.shape.tree) ((hmem d).mpr hd)
  · intro d hd
    exact chargeAlong_not_mem fun hmem' => hd ((hmem d).mp hmem')

/-! ### Calls that make a name -/

section Making

variable {now : Nat → Timestamp} {g g₁ : TypeGraph} {p : DirId} {n : String} {u gr : UInt32}
  {perm : Permissions} {j : Nat}

/-- Settling after a name was made charges the directories that hold it. -/
theorem NameMade.settled {α : Type} (hm : NameMade g g₁ p n j) (h : Inv g) (h₁ : Inv g₁) {i : InodeId}
    (hp : g.dirInode p = some i) (hquotas : g₁.quotas = g.quotas) {delta : Int} {now : Timestamp}
    {op : ProvOp} {t : InodeId} {detail : String} {value : α} :
    NameMade g (g₁.settle p delta now op t detail value).2 p n j ∧
      Charged g (g₁.settle p delta now op t detail value).2 p delta := by
  have hcharged := h₁.settle_charged (hm.dirs hp).2 delta now op t detail value
  obtain ⟨q, l, heq⟩ := settle_snd g₁ p delta now op t detail value
  rw [heq] at hcharged ⊢
  have hwithin : ∀ d, g₁.Within d p ↔ g.Within d p := fun d => hm.within_iff h h₁ hp
  refine ⟨⟨hm.leads, hm.dirs⟩, ?_, ?_⟩
  · intro d hd
    rw [hcharged.above ((hwithin d).mpr hd), hquotas]
  · intro d hd
    rw [hcharged.aside fun hd' => hd ((hwithin d).mp hd'), hquotas]

/-- A new file in `p`: one more name, of an inode that no name led to. -/
theorem Inv.enterInode_made (h : Inv g) (inode : Inode) (he : g.nextEdge < EDGE_CAPACITY)
    (hn : UserName n) : NameMade g (g.enterInode inode p n) p n g.nextInode where
  leads := h.enterInode_leads he hn
  dirs := by
    intro c i hc
    refine ⟨?_, hc⟩
    rintro rfl
    have hkind := h.shape.dir_kind hc
    rw [show g.shape.kind g.nextInode = none from h.kinds_fresh le_rfl] at hkind
    cases hkind

/-- create_file fails, or makes a name of the next inode and charges it. -/
theorem createFile_made (h : Inv g) (hp : g.LiveDir p)
    (hacc : Accepted g (createFile now p n u gr perm g).2) :
    (∃ o, o.Failed ∧ createFile now p n u gr perm g = (o, g)) ∨
    (g.checkQuotaInode p = .ok () ∧
      NameMade g (createFile now p n u gr perm g).2 p n g.nextInode ∧
      Charged g (createFile now p n u gr perm g).2 p 1) := by
  obtain ⟨i, hi⟩ := h.liveDir_iff.mp hp
  rcases createFile_spec h hp (hacc.fits h) with hfail | ⟨hn, _, _, he, hinv, _, _, hok⟩
  · exact .inl hfail
  · rcases createFile_cases now p n u gr perm g with
      ⟨o, hfail, heq⟩ | ⟨_, _, _, _, hquota, heq⟩
    · rw [hok] at heq
      exact absurd (congrArg Prod.fst heq).symm (hfail _)
    · rw [heq]
      exact .inr ⟨hquota, (h.enterInode_made _ he hn).settled h hinv hi rfl⟩

/-- symlink fails, or makes a name of the next inode and charges it. -/
theorem symlink_made {target : String} (h : Inv g) (hp : g.LiveDir p)
    (hacc : Accepted g (symlink now p n target u gr g).2) :
    (∃ o, o.Failed ∧ symlink now p n target u gr g = (o, g)) ∨
    (g.checkQuotaInode p = .ok () ∧
      NameMade g (symlink now p n target u gr g).2 p n g.nextInode ∧
      Charged g (symlink now p n target u gr g).2 p 1) := by
  obtain ⟨i, hi⟩ := h.liveDir_iff.mp hp
  rcases symlink_spec h hp (hacc.fits h) with hfail | ⟨hn, _, _, he, hinv, _, _, hok⟩
  · exact .inl hfail
  · rcases symlink_cases now p n target u gr g with
      ⟨o, hfail, heq⟩ | ⟨_, _, _, _, hquota, heq⟩
    · rw [hok] at heq
      exact absurd (congrArg Prod.fst heq).symm (hfail _)
    · rw [heq]
      have hm := h.enterInode_made (symlinkInode now g target u gr) (p := p) he hn
      have hm' : NameMade g (g.enterSymlink (symlinkInode now g target u gr) p n target) p n g.nextInode :=
        ⟨hm.leads, hm.dirs⟩
      exact .inr ⟨hquota, hm'.settled h hinv hi rfl⟩

/-- mkdir fails, or makes a name of the next inode and charges it. -/
theorem mkdir_made (h : Inv g) (hp : g.LiveDir p) (hacc : Accepted g (mkdir now p n u gr perm g).2) :
    (∃ o, o.Failed ∧ mkdir now p n u gr perm g = (o, g)) ∨
    (g.checkQuotaInode p = .ok () ∧
      NameMade g (mkdir now p n u gr perm g).2 p n g.nextInode ∧
      Charged g (mkdir now p n u gr perm g).2 p 1) := by
  rcases mkdir_spec h hp (hacc.fits h) with hfail | ⟨hn, _, _, hdir, he, di, hdi, hinv, _, _, hok⟩
  · exact .inl hfail
  · rcases mkdir_cases now p n u gr perm g with
      ⟨o, hfail, heq⟩ | ⟨_, _, _, hquota, parent, hparent, heq⟩
    · rw [hok] at heq
      exact absurd (congrArg Prod.fst heq).symm (hfail _)
    · rw [h.getDir_eq hdi] at hparent
      cases hparent
      rw [heq]
      have hm : NameMade g (g.enterDir (madeDirInode now g u gr perm) p di n) p n g.nextInode :=
        { leads := h.enterDir_leads he hn
          dirs := by
            intro c i hc
            refine ⟨?_, ?_⟩
            · rintro rfl
              have hkind := h.shape.dir_kind hc
              rw [show g.shape.kind g.nextInode = none from h.kinds_fresh le_rfl] at hkind
              cases hkind
            · have hdirs : (g.enterDir (madeDirInode now g u gr perm) p di n).dirInode =
                  Function.update g.dirInode g.nextDir (some g.nextInode) :=
                Arena.view_update (h.dirIds.insert_data hdir _)
              rw [hdirs, Function.update_of_ne]
              · exact hc
              · rintro rfl
                rw [h.dirInode_fresh le_rfl] at hc
                cases hc }
      exact .inr ⟨hquota, hm.settled h hinv hdi rfl⟩

/-- link fails, or makes one more name of its target and charges nothing. -/
theorem link_made {t : InodeId} (h : Inv g) (hp : g.LiveDir p) (hacc : Accepted g (link now p n t g).2) :
    (∃ o, o.Failed ∧ link now p n t g = (o, g)) ∨
    (g.CanLink p n t ∧ NameMade g (link now p n t g).2 p n (idToArena t) ∧
      (link now p n t g).2.quotas = g.quotas) := by
  rcases link_spec h hp (hacc.fits h) with hfail | ⟨hn, _, he, i, hi, hkind, _, l, hok⟩
  · exact .inl hfail
  · rcases link_cases now p n t g with
      ⟨o, hfail, heq⟩ | ⟨hcap, _, hfree, i', hi', hkind', hmax, _⟩
    · rw [hok] at heq
      exact absurd (congrArg Prod.fst heq).symm (hfail _)
    · refine .inr ⟨⟨hcap, hn, hfree, i', hi', hkind', hmax⟩, ?_, by rw [hok]; rfl⟩
      rw [hok]
      refine ⟨h.enterLink_leads he hn, ?_⟩
      intro c ci hc
      refine ⟨?_, hc⟩
      intro heq
      have hdir := h.shape.dir_kind hc
      rw [heq, show g.shape.kind (idToArena t) = some i.vtype from Inv.getInode_kind hi] at hdir
      exact hkind (Option.some.inj hdir)

end Making

/-! ### Calls that take a name -/

/-- The removal of the name frees its inode. -/
def TypeGraph.FreedBy (g : TypeGraph) (p : DirId) (n : String) (t : InodeId) : Prop :=
  g.LastName p n t ∨ g.EmptyDir p n t

/-- The name is gone, and the directories that held it are charged exactly if its inode is. -/
structure NameReleased (g g' : TypeGraph) (p : DirId) (n : String) : Prop where
  can : g.CanReplace p n
  taken : NameTaken g g' p n
  freed : ∀ {t}, g.FreedBy p n t → Charged g g' p (-1)
  shared : (∀ t, ¬ g.FreedBy p n t) → g'.quotas = g.quotas

section Taking

variable {now : Nat → Timestamp} {g g₁ g' : TypeGraph} {p : DirId} {n : String}

/-- Settling after a name was taken charges the directories that held it. -/
theorem NameTaken.settled {α : Type} (ht : NameTaken g g₁ p n) (h : Inv g) (h₁ : Inv g₁) {i : InodeId}
    (hp : g₁.dirInode p = some i) (hquotas : g₁.quotas = g.quotas) {delta : Int} {now : Timestamp}
    {op : ProvOp} {t : InodeId} {detail : String} {value : α} :
    NameTaken g (g₁.settle p delta now op t detail value).2 p n ∧
      Charged g (g₁.settle p delta now op t detail value).2 p delta := by
  have hcharged := h₁.settle_charged hp delta now op t detail value
  obtain ⟨q, l, heq⟩ := settle_snd g₁ p delta now op t detail value
  rw [heq] at hcharged ⊢
  have hwithin : ∀ d, g₁.Within d p ↔ g.Within d p := fun d => ht.within_iff h h₁ hp
  refine ⟨⟨ht.leads, ht.dirs, ht.empty⟩, ?_, ?_⟩
  · intro d hd
    rw [hcharged.above ((hwithin d).mpr hd), hquotas]
  · intro d hd
    rw [hcharged.aside fun hd' => hd ((hwithin d).mp hd'), hquotas]

/-- Taking a name of a file takes no directory with it. -/
theorem Inv.taken_of_file (h : Inv g) {e : EdgeId} {t : InodeId} {i : Inode}
    (he : g.entries e = some (p, t, n)) (hn : UserName n) (ht : g.getInode t = some i)
    (hkind : i.vtype ≠ .directory)
    (hleads : ∀ {c n' x}, g₁.Leads c n' x ↔ g.Leads c n' x ∧ (c, n') ≠ (p, n))
    (hdirs : g₁.dirInode = g.dirInode) : NameTaken g g₁ p n := by
  have hnotdir : ∀ {c ci}, g.dirInode c = some ci → ¬ g.Leads p n ci := by
    intro c ci hc hlead
    have hslot := (h.leads_iff_of_entry he hn).mp hlead
    have hdir := h.shape.dir_kind hc
    rw [hslot, show g.shape.kind (idToArena t) = some i.vtype from Inv.getInode_kind ht] at hdir
    exact hkind (Option.some.inj hdir)
  refine ⟨hleads, ?_, fun hm hlead => absurd hlead (hnotdir hm)⟩
  intro c ci
  rw [hdirs]
  exact ⟨fun hc => ⟨hc, hnotdir hc⟩, And.left⟩

/-- A successful unlink takes its name, and charges for the inode if that goes. -/
theorem unlink_released (h : Inv g) {a : Unit} (hok : unlink now p n g = (.ok a, g')) :
    NameReleased g g' p n := by
  rcases unlink_cases now p n g with
    ⟨o, hfail, heq⟩ | ⟨_, hn, _, e, t, m, i, hfind, hi, hkind, hcase⟩
  · rw [hok] at heq
    exact absurd (congrArg Prod.fst heq).symm (hfail a)
  · obtain ⟨_, he⟩ := h.find_name.mp hfind
    have hres : g.resolveName p n = some t := h.resolveName_iff.mpr ⟨e, he⟩
    have hcan : g.CanReplace p n := by
      intro t' ht'
      rw [hres] at ht'
      cases ht'
      exact ⟨i, hi, fun hdir => absurd hdir hkind⟩
    rcases hcase with ⟨hlast, heq⟩ | ⟨hlast, heq⟩
    · rw [hok] at heq
      cases heq
      have heq := h.dropName_eq he
      have htaken : NameTaken g (g.dropName e p t) p n :=
        h.taken_of_file he hn hi hkind (h.dropName_leads he) (by rw [heq]; rfl)
      refine ⟨hcan, ⟨htaken.leads, htaken.dirs, htaken.empty⟩, ?_, fun _ => by rw [heq]; rfl⟩
      rintro t' (⟨_, hres', i', hi', _, hone⟩ | ⟨_, hres', ⟨i', hi', hdir⟩, _⟩)
      · rw [hres] at hres'
        cases hres'
        rw [hi] at hi'
        cases hi'
        rw [hone] at hlast
        exact absurd rfl hlast
      · rw [hres] at hres'
        cases hres'
        rw [hi] at hi'
        cases hi'
        exact absurd hdir hkind
    · have hinv := h.dropLastName he hn hi hkind hlast
      obtain ⟨_, _, _, _, _, hframe⟩ := dropLastName_frame (g := g) e p t
      have hdirs : (g.dropLastName e p t).dirInode = g.dirInode := by
        rw [hframe]
        rfl
      obtain ⟨pi, hpi⟩ := h.shape.src_live he
      have htaken := h.taken_of_file he hn hi hkind (h.dropLastName_leads he hn hi hkind) hdirs
      have hp : (g.dropLastName e p t).dirInode p = some pi := by
        rw [hdirs]
        exact hpi
      rw [hok] at heq
      have hg' := congrArg Prod.snd heq
      dsimp only at hg'
      rw [hg']
      obtain ⟨htaken', hcharged⟩ := htaken.settled h hinv hp (by rw [hframe])
      have hlastName := h.lastName he hn hi hkind hlast
      exact ⟨hcan, htaken', fun _ => hcharged, fun hnone => absurd (.inl hlastName) (hnone t)⟩

/-- A successful rmdir takes its name and charges for the directory. -/
theorem rmdir_released (h : Inv g) {a : Unit} (hok : rmdir now p n g = (.ok a, g')) :
    NameReleased g g' p n := by
  rcases rmdir_cases now p n g with
    ⟨o, hfail, heq⟩ | ⟨_, hn, ti, td, i, hti, hi, hkind, htd, hempty, heq⟩
  · rw [hok] at heq
    exact absurd (congrArg Prod.fst heq).symm (hfail a)
  · obtain ⟨e, he⟩ := h.resolveName_iff.mp hti
    have htd' := h.dirForInode_iff.mp htd
    have hfreed : g.EmptyDir p n ti := ⟨hn, hti, ⟨i, hi, hkind⟩, td, htd, hempty⟩
    have hnone : ∀ x t m, g.entries x = some (td, t, m) → ¬ UserName m := by
      intro x t m hx hm
      have hany : g.dirNotEmpty td = true := by
        unfold TypeGraph.dirNotEmpty
        rw [List.any_eq_true]
        exact ⟨(x, t, m), h.mem_dirEntries.mpr hx, decide_eq_true hm⟩
      rw [hempty] at hany
      cases hany
    have hinv := h.dropDir he hn htd' hnone
    have hdirs := h.dropDir_dirInode he htd'
    -- the name leads to the removed directory and to no other
    have hlead : g.Leads p n ti := by
      have hslot := Inv.leads_of_entry he hn
      rwa [h.shape.dir_slot htd'] at hslot
    have honly : ∀ {c ci}, g.dirInode c = some ci → (g.Leads p n ci ↔ c = td) := by
      intro c ci hc
      constructor
      · intro hlead'
        cases h.leads_unique hlead hlead'
        exact h.shape.dir_inj hc htd'
      · rintro rfl
        rw [htd'] at hc
        cases hc
        exact hlead
    have htaken : NameTaken g (g.dropDir p n ti td) p n :=
      { leads := h.dropDir_leads he htd' hnone
        dirs := by
          intro c ci
          rw [hdirs, Function.update_apply]
          constructor
          · intro hc
            split at hc
            · cases hc
            · rename_i hctd
              exact ⟨hc, fun hlead' => hctd ((honly hc).mp hlead')⟩
          · rintro ⟨hc, hkept⟩
            rw [if_neg]
            · exact hc
            · exact fun hctd => hkept ((honly hc).mpr hctd)
        empty := by
          intro m mi hm hlead' n' x hnamed
          cases (honly hm).mp hlead'
          obtain ⟨hn', e', t', he', _⟩ := hnamed
          exact hnone e' t' n' he' hn' }
    obtain ⟨pi, hpi⟩ := h.shape.src_live he
    have hp : (g.dropDir p n ti td).dirInode p = some pi := by
      rw [hdirs, Function.update_of_ne]
      · exact hpi
      · rintro rfl
        exact hnone _ _ _ he hn
    obtain ⟨_, _, _, _, _, _, hframe⟩ := dropDir_frame (g := g) p n ti td
    rw [hok] at heq
    have hg' := congrArg Prod.snd heq
    dsimp only at hg'
    rw [hg']
    obtain ⟨htaken', hcharged⟩ := htaken.settled h hinv hp (by rw [hframe])
    refine ⟨?_, htaken', fun _ => hcharged, fun hnone => absurd (.inr hfreed) (hnone ti)⟩
    intro t ht
    rw [hti] at ht
    cases ht
    exact ⟨i, hi, fun _ => ⟨td, htd, hempty⟩⟩

/-- A free name is as good as taken. -/
theorem NameReleased.of_free (h : Inv g) (hfree : g.resolveName p n = none) : NameReleased g g p n := by
  have hno : ∀ x, ¬ g.Leads p n x := fun x hlead =>
    Inv.not_leads_of_free (h.resolveName_eq_none_iff.mp hfree) hlead
  refine ⟨?_, ⟨?_, ?_, fun _ hlead => absurd hlead (hno _)⟩, ?_, fun _ => rfl⟩
  · intro t ht
    rw [hfree] at ht
    cases ht
  · intro c n' x
    refine ⟨fun hlead => ⟨hlead, ?_⟩, And.left⟩
    intro heq
    cases heq
    exact hno x hlead
  · exact fun {c i} => ⟨fun hc => ⟨hc, hno i⟩, And.left⟩
  · rintro t (⟨_, hres, _⟩ | ⟨_, hres, _⟩)
    · rw [hfree] at hres
      cases hres
    · rw [hfree] at hres
      cases hres

/-- What rename removes from its destination. -/
theorem removeDestination_released (h : Inv g)
    (hok : g.removeDestination now p n (g.resolveName p n) = (.ok (), g')) : NameReleased g g' p n := by
  unfold TypeGraph.removeDestination at hok
  cases hres : g.resolveName p n with
  | none =>
      rw [hres] at hok
      cases hok
      exact .of_free h hres
  | some t =>
      rw [hres] at hok
      dsimp only at hok
      split at hok
      · cases hok
      · split at hok
        · exact rmdir_released h hok
        · exact unlink_released h hok

end Taking

/-! ### Rename -/

section Renaming

variable {now : Nat → Timestamp} {g g' : TypeGraph} {sd dd : DirId} {sn dn : String}

/-- The checks that a rename passes which has something to do. -/
def TypeGraph.CanRename (g : TypeGraph) (sd : DirId) (sn : String) (dd : DirId) (dn : String)
    (s : InodeId) : Prop :=
  g.requireCap Rights.write = .ok () ∧ UserName sn ∧ UserName dn ∧ (sd, sn) ≠ (dd, dn) ∧
    g.resolveName sd sn = some s ∧ (sd ≠ dd → g.wouldCycle s dd = false) ∧ g.CanReplace dd dn

/-- A rename in two steps: the destination is released, then the name is moved and nothing is charged. -/
structure RenameSteps (g g₁ g' : TypeGraph) (sd : DirId) (sn : String) (dd : DirId) (dn : String)
    (s : InodeId) : Prop where
  can : g.CanRename sd sn dd dn s
  released : NameReleased g g₁ dd dn
  inv₁ : Inv g₁
  dst : ∀ {i}, g.dirInode dd = some i → g₁.dirInode dd = some i
  moved : NameMoved g₁ g' sd sn dd dn
  quotas : g'.quotas = g₁.quotas

/-- The log is no part of a move. -/
theorem NameMoved.recordProv {g₁ : TypeGraph} (hm : NameMoved g₁ g' sd sn dd dn) (ts : Timestamp)
    (op : ProvOp) (t : InodeId) (detail : String) :
    NameMoved g₁ (g'.recordProv ts op t detail) sd sn dd dn :=
  ⟨hm.leads, hm.dirs, hm.outside⟩

/-- A rename fails without a trace, finds nothing to do, or goes through its two steps. -/
theorem rename_moved (h : Inv g) (hd : g.LiveDir dd) (hacc : Accepted g (rename now sd sn dd dn g).2) :
    (∃ o, o.Failed ∧ rename now sd sn dd dn g = (o, g)) ∨
    (∃ l, (rename now sd sn dd dn g).2 = { g with provLog := l }) ∨
    ∃ g₁ s, RenameSteps g g₁ (rename now sd sn dd dn g).2 sd sn dd dn s := by
  obtain ⟨di, hdi⟩ := h.liveDir_iff.mp hd
  rcases rename_spec now sd sn dd dn h with
    hfail | ⟨hsn, hdn, g', hren, heq⟩
  · exact .inl hfail
  · right
    have hcap : g.requireCap Rights.write = .ok () := by
      cases hcap : g.requireCap Rights.write with
      | error e =>
          rw [rename_of_refused hcap] at heq
          cases heq
      | ok _ => rfl
    rw [heq] at hacc ⊢
    have hnext : g'.nextEdge ≤ EDGE_CAPACITY := hacc.nextEdge_le h.edgeIds.next_le
    cases hren with
    | same => exact .inl ⟨_, rfl⟩
    | @inPlace e t g₁ hdir hne he hremove hcleared =>
        subst hdir
        have hreleased := removeDestination_released h hremove
        have hinv := hcleared.inv
        have he' : g₁.entries e = some (sd, t, sn) :=
          hcleared.keep hsn (fun hpair => hne (congrArg Prod.snd hpair)) he
        refine .inr ⟨g₁, t, ⟨hcap, hsn, hdn, fun hpair => hne (congrArg Prod.snd hpair),
          h.resolveName_iff.mpr ⟨e, he⟩, fun hdiff => absurd rfl hdiff, hreleased.can⟩, hreleased, hinv,
          hcleared.keepDir, ?_, ?_⟩
        · refine NameMoved.recordProv ⟨?_, ?_, ?_⟩ _ _ _ _
          · intro c n x
            rw [hinv.renameEntry_leads he' hne hdn, hinv.leads_iff_of_entry he' hsn]
          · rw [hinv.renameContainsEdge_eq he' hne]
            rfl
          · intro m i hm hlead hbelow
            have hchild := hinv.child_iff.mpr ⟨sn, i, hm, hlead⟩
            exact hinv.shape.tree.acyclic (hinv.shape.rooted hm) (TransGen.tail' hbelow hchild)
        · rw [hinv.renameContainsEdge_eq he' hne]
          rfl
    | @moved e t g₁ hne he hcycle hremove hcleared he' =>
        have hreleased := removeDestination_released h hremove
        have hinv := hcleared.inv
        have hpair : (sd, sn) ≠ (dd, dn) := fun hpair => hne (congrArg Prod.fst hpair)
        change (g₁.moveEntry e sd t dd dn).nextEdge ≤ _ at hnext
        rw [hinv.moveEntry_nextEdge he'] at hnext
        obtain ⟨_, _, _, _, hframe⟩ := moveEntry_frame (g := g₁) e sd t dd dn
        refine .inr ⟨g₁, t, ⟨hcap, hsn, hdn, hpair, h.resolveName_iff.mpr ⟨e, he⟩, fun _ => hcycle,
          hreleased.can⟩, hreleased, hinv, hcleared.keepDir, ?_, by rw [hframe]; rfl⟩
        refine NameMoved.recordProv ⟨?_, by rw [hframe]; rfl, ?_⟩ _ _ _ _
        · intro c n x
          rw [hinv.leads_iff_of_entry he' hsn]
          obtain ⟨i, hi⟩ := hinv.getInode_of_entry he'
          by_cases hkind : i.vtype = .directory
          · obtain ⟨m, hm⟩ := hinv.dir_of_entry he' hi hkind
            exact hinv.moveDirEntry_leads he' hsn (hcleared.keepDir hdi) hdn hcleared.free hnext hm
          · exact hinv.moveFileEntry_leads he' hdn hnext hi hkind
        · intro m i hm hlead hbelow
          have hslot := (hinv.leads_iff_of_entry he' hsn).mp hlead
          obtain ⟨e₂, he₂⟩ := hinv.entry_of_dir hm hlead
          have hi : t = i := by
            cases hinv.names he' he₂
            rw [he'] at he₂
            cases he₂
            rfl
          subst hi
          refine h.not_below (hcleared.dirs hm) hcycle (ReflTransGen.mono ?_ _ _ hbelow)
          exact fun _ _ hchild => hcleared.child hchild

end Renaming

/-! ### Calls on content and attributes -/

/-- The calls that touch no name and no quota. -/
def Op.OnInodes : Op → Prop
  | .writeBlock .. | .writeData .. | .truncate .. | .chmod .. | .chown .. | .setxattr .. | .removexattr ..
  | .setacl .. => True
  | _ => False

/-- Names, directories and quotas are as they were. -/
structure Aside (g g' : TypeGraph) : Prop where
  entries : g'.entries = g.entries
  dirs : g'.dirInode = g.dirInode
  quotas : g'.quotas = g.quotas

namespace Aside

variable {g g' g'' : TypeGraph} {d c : DirId} {n : String} {x : Nat}

theorem refl (g : TypeGraph) : Aside g g := ⟨rfl, rfl, rfl⟩

theorem trans (ha : Aside g g') (ha' : Aside g' g'') : Aside g g'' :=
  ⟨ha'.entries.trans ha.entries, ha'.dirs.trans ha.dirs, ha'.quotas.trans ha.quotas⟩

/-- The log is beside names and quotas. -/
theorem recordProv (ha : Aside g g') (ts : Timestamp) (op : ProvOp) (t : InodeId) (detail : String) :
    Aside g (g'.recordProv ts op t detail) := ⟨ha.entries, ha.dirs, ha.quotas⟩

theorem leads_iff (ha : Aside g g') : g'.Leads c n x ↔ g.Leads c n x := by
  rw [TypeGraph.Leads, ha.entries]
  rfl

theorem within_iff (ha : Aside g g') : g'.Within d c ↔ g.Within d c := by
  have hchild : g'.shape.Child = g.shape.Child := by
    funext a b
    unfold Shape.Child TypeGraph.shape
    rw [ha.entries, ha.dirs]
  rw [TypeGraph.Within, hchild]
  rfl

theorem under_iff (ha : Aside g g') : g'.Under d x ↔ g.Under d x := by
  unfold TypeGraph.Under
  simp only [ha.within_iff, ha.leads_iff]

end Aside

section Sides

variable {now : Nat → Timestamp} {g : TypeGraph}

/-- Granting the entries of an ACL adds no name. -/
theorem Inv.foldl_grantEntry_aside (t : InodeId) (mask : Option Rights) (entries : List AclEntry) :
    ∀ {g : TypeGraph}, Inv g →
      (entries.foldl (TypeGraph.grantEntry t mask) g).nextCap ≤ NODE_CAPACITY →
      (entries.foldl (TypeGraph.grantEntry t mask) g).nextEdge ≤ EDGE_CAPACITY →
      Aside g (entries.foldl (TypeGraph.grantEntry t mask) g) := by
  induction entries with
  | nil => exact fun _ _ _ => .refl _
  | cons entry entries ih =>
      intro g h hcap hedge
      obtain ⟨hcapLe, hedgeLe⟩ := foldl_grantEntry_le t mask entries (TypeGraph.grantEntry t mask g entry)
      rw [List.foldl_cons] at hcap hedge ⊢
      have hcap' := hcapLe.trans hcap
      have hedge' := hedgeLe.trans hedge
      rw [grantEntry_eq] at hcap' hedge' hcap hedge ⊢
      split at hcap'
      · rename_i hskip
        rw [if_pos hskip] at hcap hedge ⊢
        exact ih h hcap hedge
      · rename_i hgrant
        rw [if_neg hgrant] at hcap hedge hedge' ⊢
        have hstep : Aside g (g.attachGrant t (effectiveRights mask entry)) :=
          ⟨h.attachGrant_entries hedge' _, rfl, rfl⟩
        exact hstep.trans (ih (h.attachGrant hcap' hedge' t _) hcap hedge)

/-- The calls on content and attributes leave names and quotas alone, whatever their outcome. -/
theorem Op.aside {op : Op} (h : Inv g) (hop : op.OnInodes) (hacc : Accepted g (op.apply now g).2) :
    Aside g (op.apply now g).2 := by
  cases op with
  | writeBlock t o s c =>
      rcases writeBlock_cases t o s c g with
        ⟨o', _, heq⟩ | ⟨_, _, heq⟩
      · rw [Op.apply, heq]
        exact .refl g
      · rw [Op.apply, heq] at hacc ⊢
        exact ⟨h.attachBlock_entries (hacc.nextEdge_le h.edgeIds.next_le) o s c, rfl, rfl⟩
  | writeData t o b =>
      rcases writeData_cases now t o b g with
        ⟨e, heq⟩ | ⟨_, _, _, ⟨buf, heq⟩ | ⟨buf, heq⟩⟩
      · rw [Op.apply, heq]
        exact .refl g
      · rw [Op.apply, heq]
        exact ⟨rfl, rfl, rfl⟩
      · rw [Op.apply, heq]
        exact ⟨rfl, rfl, rfl⟩
  | truncate t s =>
      rcases truncate_cases now t s g with
        ⟨e, heq⟩ | ⟨_, _, _, ⟨buf, heq⟩ | heq⟩
      · rw [Op.apply, heq]
        exact .refl g
      · rw [Op.apply, heq]
        exact ⟨rfl, rfl, rfl⟩
      · rw [Op.apply, heq]
        exact ⟨rfl, rfl, rfl⟩
  | chmod t m =>
      rcases chmod_cases now t m g with ⟨o, _, heq⟩ | ⟨_, heq⟩
      · rw [Op.apply, heq]
        exact .refl g
      · rw [Op.apply, heq]
        exact ⟨rfl, rfl, rfl⟩
  | chown t u gr =>
      rcases chown_cases now t u gr g with ⟨o, _, heq⟩ | ⟨_, heq⟩
      · rw [Op.apply, heq]
        exact .refl g
      · rw [Op.apply, heq]
        exact ⟨rfl, rfl, rfl⟩
  | setxattr t ns n v =>
      rcases setxattr_cases now t ns n v g with
        ⟨o, _, heq⟩ | ⟨_, _, _, ⟨a, _, heq⟩ | ⟨_, heq⟩⟩
      · rw [Op.apply, heq]
        exact .refl g
      · rw [Op.apply, heq]
        exact ⟨rfl, rfl, rfl⟩
      · rw [Op.apply, heq] at hacc ⊢
        exact ⟨h.attachXattr_entries (hacc.nextEdge_le h.edgeIds.next_le) ns n v, rfl, rfl⟩
  | removexattr t ns n =>
      rcases removexattr_cases now t ns n g with
        ⟨o, _, heq⟩ | ⟨_, _, a, ha, heq⟩
      · rw [Op.apply, heq]
        exact .refl g
      · obtain ⟨e, he⟩ := h.attached_of_findXattr ha
        obtain ⟨_, _, hframe⟩ := dropXattr_frame (g := g) t a
        rw [Op.apply, heq]
        exact Aside.recordProv ⟨h.dropXattr_entries he, by rw [hframe]; rfl, by rw [hframe]⟩ _ _ _ _
  | setacl t es =>
      rcases setacl_cases now t es g with
        ⟨o, _, heq⟩ | ⟨_, _, heq⟩
      · rw [Op.apply, heq]
        exact .refl g
      · rw [Op.apply, heq] at hacc ⊢
        have hinv : Inv { g.dropGrants t with acls := (g.dropGrants t).acls.insert t es } :=
          (h.dropGrants t).withSides _ _ _ _ _ _
        obtain ⟨_, _, _, _, hframe⟩ := dropGrants_frame (g := g) t
        have hdropped : Aside g { g.dropGrants t with acls := (g.dropGrants t).acls.insert t es } :=
          ⟨h.dropGrants_entries, by rw [hframe]; rfl, by rw [hframe]⟩
        refine Aside.recordProv ?_ _ _ _ _
        exact hdropped.trans (Inv.foldl_grantEntry_aside t _ es hinv (hacc.nextCap_le h.capIds.next_le)
          (hacc.nextEdge_le h.edgeIds.next_le))
  | createFile | mkdir | rmdir | link | unlink | rename | symlink | setQuota => exact absurd hop id

end Sides

end SotFs
