/-
Module: SotFs.Proofs.FiledRuns
Layer: Proofs
Purpose: Names stay filed along every run: whatever the calls, their arguments and outcomes, with the pools
  full or not, the entry sets and the name index are right about every edge they lead to, as long as no more
  than 2^32 edge ids have been issued. Rename is taken apart on the way: it removes its destination, changes
  or moves one name, and logs; once it has removed its destination it does not fail.
Trusted boundary: none
Main exports: Filed.attachBlock, Filed.rename_spec, TypeGraph.CanReplace, Op.filed, Run.filed
-/
import SotFs.Proofs.Filing
import SotFs.Proofs.Preservation

namespace SotFs

open Std (ExtTreeMap ExtTreeSet)
open Foundation

namespace Filed

variable {next : Nat} {g g' : TypeGraph}

/-! ### Blocks, attributes and grants -/

theorem attachBlock (h : Filed g.nextEdge g) (hlt : g.nextEdge < 2 ^ 32) (t : InodeId)
    (offset sectorStart sectorCount : Nat) :
    Filed (g.nextEdge + 1) (g.attachBlock t offset sectorStart sectorCount) := by
  have hstored : Filed g.nextEdge ({ g with nextBlock := g.nextBlock + 1, nextEdge := g.nextEdge + 1
      }.insertBlock g.nextBlock ⟨g.nextBlock, sectorStart, sectorCount, 1⟩) :=
    h.congr rfl rfl rfl rfl le_rfl
  have hedge := hstored.insertEdge hlt (v := .pointsTo g.nextEdge t g.nextBlock offset) rfl
  have hnone : (g.attachBlock t offset sectorStart sectorCount).labels g.nextEdge = none := by
    rw [TypeGraph.labels_eq_none]
    change (g.edges.insertAt (idToArena g.nextEdge) _).2.view Edge.entry g.nextEdge = none
    rcases h.insertAt_or hlt (.pointsTo g.nextEdge t g.nextBlock offset) with heq | heq
    · rw [Arena.view, heq, h.vacant le_rfl]
      rfl
    · rw [Arena.view, heq, Function.update_self]
      rfl
  exact
    { le := hedge.le
      stored := hedge.stored
      listed := hedge.listed
      named := hedge.named
      members := hedge.members
      index := hedge.index
      pointers := by
        intro t' e he
        rcases SetIndex.mem_members_add.mp he with ⟨_, rfl⟩ | he
        · exact ⟨Nat.lt_succ_self _, hnone⟩
        · exact hedge.pointers he
      dots := hedge.dots }

theorem attachXattr (h : Filed g.nextEdge g) (hlt : g.nextEdge < 2 ^ 32) (t : InodeId)
    (ns : XAttrNamespace) (name : String) (value : List UInt8) :
    Filed (g.nextEdge + 1) (g.attachXattr t ns name value) := by
  have hstored : Filed g.nextEdge
      { g with
        nextXattr := g.nextXattr + 1
        nextEdge := g.nextEdge + 1
        xattrs := g.xattrs.insert g.nextXattr ⟨g.nextXattr, ns, name, value⟩ } :=
    h.congr rfl rfl rfl rfl le_rfl
  exact (hstored.insertEdge hlt (v := .hasXattr g.nextEdge t g.nextXattr) rfl).congr rfl rfl rfl rfl le_rfl

theorem dropXattr (h : Filed next g) (t : InodeId) (a : XAttrId) : Filed next (g.dropXattr t a) := by
  have herased : Filed next { g with xattrs := g.xattrs.erase a
                                     inodeXattrs := SetIndex.drop g.inodeXattrs t a } :=
    h.congr rfl rfl rfl rfl le_rfl
  unfold TypeGraph.dropXattr
  dsimp only
  split
  · rename_i e hfound
    obtain ⟨⟨s, v⟩, hfind, rfl⟩ := Option.map_eq_some_iff.mp hfound
    exact herased.removeEdge (h.stored (Arena.mem_iter.mp (List.mem_of_find?_eq_some hfind)))
  · exact herased

theorem foldl_purgeGrant (es : List EdgeId) : ∀ acc : List CapId × TypeGraph, Filed next acc.2 →
    (∀ e ∈ es, e < next) → Filed next (es.foldl TypeGraph.purgeGrant acc).2 := by
  induction es with
  | nil => exact fun _ h _ => h
  | cons e es ih =>
      intro acc h hes
      refine ih _ ?_ fun x hx => hes x (List.mem_cons_of_mem e hx)
      have hremoved := h.removeEdge (hes e List.mem_cons_self)
      unfold TypeGraph.purgeGrant
      split
      · rename_i heq
        rw [heq] at hremoved
        exact hremoved.congr rfl rfl rfl rfl le_rfl
      · rename_i heq
        rw [heq] at hremoved
        exact hremoved

theorem dropGrants (h : Filed next g) (t : InodeId) : Filed next (g.dropGrants t) := by
  have hpurged := foldl_purgeGrant (g.grantsInto t) ([], g) h (by
    intro e he
    obtain ⟨⟨s, v⟩, hmem, hsome⟩ := List.mem_filterMap.mp he
    split at hsome
    · split at hsome
      · cases hsome
        exact h.stored (Arena.mem_iter.mp hmem)
      · cases hsome
    · cases hsome)
  obtain ⟨caps, heq⟩ := foldl_removeCap_frame ((g.grantsInto t).foldl TypeGraph.purgeGrant ([], g)).1
    (g := ((g.grantsInto t).foldl TypeGraph.purgeGrant ([], g)).2)
  unfold TypeGraph.dropGrants
  dsimp only
  rw [heq]
  exact hpurged.congr rfl rfl rfl rfl le_rfl

theorem attachGrant (h : Filed g.nextEdge g) (hlt : g.nextEdge < 2 ^ 32) (t : InodeId) (rights : Rights) :
    Filed (g.nextEdge + 1) (g.attachGrant t rights) := by
  have hstored : Filed g.nextEdge ({ g with nextCap := g.nextCap + 1, nextEdge := g.nextEdge + 1
      }.insertCap g.nextCap ⟨g.nextCap, rights, 0⟩) := h.congr rfl rfl rfl rfl le_rfl
  exact (hstored.insertEdge hlt (v := .grants g.nextEdge g.nextCap t rights) rfl).congr rfl rfl rfl rfl le_rfl

/-- Each new entry of an ACL adds one grant or nothing. -/
theorem foldl_grantEntry (t : InodeId) (mask : Option Rights) (entries : List AclEntry) :
    ∀ {g : TypeGraph}, Filed g.nextEdge g →
      (entries.foldl (TypeGraph.grantEntry t mask) g).nextEdge ≤ 2 ^ 32 →
        Filed (entries.foldl (TypeGraph.grantEntry t mask) g).nextEdge
          (entries.foldl (TypeGraph.grantEntry t mask) g) := by
  induction entries with
  | nil => exact fun h _ => h
  | cons entry entries ih =>
      intro g h hle
      rw [List.foldl_cons, grantEntry_eq] at hle ⊢
      split at hle
      · rename_i hskip
        rw [if_pos hskip]
        exact ih h hle
      · rename_i hgrant
        rw [if_neg hgrant]
        have hmono := (foldl_grantEntry_le t mask entries
          (g := g.attachGrant t (effectiveRights mask entry))).2
        have hlt : g.nextEdge < 2 ^ 32 := lt_of_lt_of_le (Nat.lt_succ_self _) (hmono.trans hle)
        exact ih (h.attachGrant hlt t _) hle

end Filed

/-! ### Rename -/

/-- Settling does not end, or charges some quotas and logs. -/
theorem settle_cases {α : Type} (g : TypeGraph) (d : DirId) (deltaInodes : Int) (now : Timestamp) (op : ProvOp)
    (t : InodeId) (detail : String) (value : α) :
    g.settle d deltaInodes now op t detail value = (.diverges, g) ∨
      ∃ quotas, g.settle d deltaInodes now op t detail value =
        (.ok value, { g with quotas := quotas }.recordProv now op t detail) := by
  unfold TypeGraph.settle
  cases hq : g.updateQuota d deltaInodes 0 with
  | none => exact .inl rfl
  | some g' =>
      unfold TypeGraph.updateQuota at hq
      obtain ⟨quotas, _, rfl⟩ := Option.map_eq_some_iff.mp hq
      exact .inr ⟨quotas, rfl⟩

/-- What stands in the way of a rename can be removed: a file, or an empty directory. -/
def TypeGraph.CanReplace (g : TypeGraph) (d : DirId) (n : String) : Prop :=
  ∀ t, g.resolveName d n = some t → ∃ inode, g.getInode t = some inode ∧
    (inode.vtype = .directory → ∃ td, g.dirForInode t = some td ∧ g.dirNotEmpty td = false)

/-- The log of `g'` extends that of `g`, and nothing else that a caller of rename relies on has changed but
    that the name is gone. -/
structure Vacated (g g' : TypeGraph) (d : DirId) (n : String) : Prop where
  filed : Filed g'.nextEdge g'
  free : ∀ e, g'.labels e ≠ some (d, n)
  keep : ∀ {x d' t n'}, UserName n' → (d', n') ≠ (d, n) → g.entries x = some (d', t, n') →
    g'.entries x = some (d', t, n')
  nextEdge : g'.nextEdge = g.nextEdge
  capCtx : g'.capCtx = g.capCtx
  log : ∃ added, g'.provLog = g.provLog.map (· ++ added)

/-- The call fails, with the log and all filed names as they were. -/
structure FailsFiled {α : Type} (g : TypeGraph) (r : Outcome α × TypeGraph) : Prop where
  failed : r.1.Failed
  filed : Filed r.2.nextEdge r.2
  nextEdge : r.2.nextEdge = g.nextEdge
  log : r.2.provLog = g.provLog

/-- A failed rename stays failed: the entry of the log is written for a success. -/
theorem FailsFiled.unlogged {g : TypeGraph} {now : Nat → Timestamp} {dd : DirId} {dn : String}
    {r : Outcome Unit × TypeGraph} (hfail : FailsFiled g r) : FailsFiled g (match r with
      | (.ok (), g) => (Outcome.ok (), g.recordProv (now 1) .rename ((g.resolveName dd dn).getD 0) dn)
      | failed => failed) := by
  obtain ⟨o, g₁⟩ := r
  cases o with
  | ok a => exact absurd rfl (hfail.failed a)
  | _ => exact hfail

section Removal

variable {g g' : TypeGraph} {now : Nat → Timestamp} {d : DirId} {n : String}

/-- Logging extends the log. -/
theorem recordProv_log {log : Option ProvenanceLog} (h : ∃ added, g.provLog = log.map (· ++ added))
    (now : Timestamp) (op : ProvOp) (t : InodeId) (detail : String) :
    ∃ added, (g.recordProv now op t detail).provLog = log.map (· ++ added) := by
  obtain ⟨added, heq⟩ := h
  refine ⟨added ++ [⟨now, op, t, g.capCtx.capId, g.capCtx.domainId, detail⟩], ?_⟩
  change g.provLog.map _ = _
  rw [heq, Option.map_map]
  exact congrArg (fun f => log.map f) (funext fun old => List.append_assoc old added _)

/-- A log that did not change is an extension of itself. -/
theorem log_refl (log : Option ProvenanceLog) : ∃ added, log = log.map (· ++ added) := by
  refine ⟨[], ?_⟩
  cases log with
  | none => rfl
  | some old => rw [Option.map_some, List.append_nil]

/-- Charging quotas and logging vacate nothing. -/
theorem Vacated.settled (h : Vacated g g' d n) (quotas : ExtTreeMap DirId Quota) (now : Timestamp)
    (op : ProvOp) (t : InodeId) (detail : String) :
    Vacated g ({ g' with quotas := quotas }.recordProv now op t detail) d n where
  filed := h.filed.congr rfl rfl rfl rfl le_rfl
  free := h.free
  keep := h.keep
  nextEdge := h.nextEdge
  capCtx := h.capCtx
  log := recordProv_log h.log now op t detail

namespace Filed

theorem failsFiled {α : Type} (h : Filed g.nextEdge g) {r : Outcome α × TypeGraph}
    (hfail : ∃ o, o.Failed ∧ r = (o, g)) : FailsFiled g r := by
  obtain ⟨o, hfail, rfl⟩ := hfail
  exact ⟨hfail, h, rfl, rfl⟩

/-- A name that is free already. -/
theorem vacated (h : Filed g.nextEdge g) (hfree : ∀ e, g.labels e ≠ some (d, n)) : Vacated g g d n :=
  ⟨h, hfree, fun _ _ hx => hx, rfl, rfl, log_refl _⟩

/-- Taking one stored name out vacates it. -/
theorem vacates (h : Filed g.nextEdge g) {e : EdgeId} {t : InodeId} (he : g.entries e = some (d, t, n))
    (h' : Filed g.nextEdge g') (hentries : g'.entries = Function.update g.entries e none)
    (hnext : g'.nextEdge = g.nextEdge) (hctx : g'.capCtx = g.capCtx) (hlog : g'.provLog = g.provLog) :
    Vacated g g' d n where
  filed := hnext ▸ h'
  free := by
    intro x hx
    rw [labels_update hentries, Function.update_apply] at hx
    split at hx
    · cases hx
    · rename_i hne
      obtain ⟨t', hx⟩ := TypeGraph.labels_eq_some.mp hx
      exact hne (h.names hx he)
  keep := by
    intro x d' t' n' _ hne hx
    rw [hentries, Function.update_of_ne]
    · exact hx
    · rintro rfl
      rw [he] at hx
      cases hx
      exact hne rfl
  nextEdge := hnext
  capCtx := hctx
  log := by
    rw [hlog]
    exact log_refl _

/-- A settled removal fails for want of an end, or vacates. -/
theorem settle_spec {α : Type} (hvacated : Vacated g g' d n) (hlog : g'.provLog = g.provLog)
    (delta : Int) (now : Timestamp) (op : ProvOp) (t : InodeId) (detail : String) (value : α) :
    FailsFiled g (g'.settle d delta now op t detail value) ∨
      ∃ g₁, g'.settle d delta now op t detail value = (.ok value, g₁) ∧ Vacated g g₁ d n := by
  rcases settle_cases g' d delta now op t detail value with heq | ⟨quotas, heq⟩
  · rw [heq]
    exact .inl ⟨Outcome.failed_diverges, hvacated.filed, hvacated.nextEdge, hlog⟩
  · rw [heq]
    exact .inr ⟨_, rfl, hvacated.settled quotas now op t detail⟩

theorem unlink_spec (h : Filed g.nextEdge g) (now : Nat → Timestamp) (d : DirId) (n : String) :
    FailsFiled g (unlink now d n g) ∨ ∃ g', unlink now d n g = (.ok (), g') ∧ Vacated g g' d n := by
  rcases unlink_cases now d n g with
    hfail | ⟨_, _, _, e, t, m, inode, hfind, _, _, hcase⟩
  · exact .inl (h.failsFiled hfail)
  · have hm : m = n := by simpa using List.find?_some hfind
    have he : g.entries e = some (d, t, n) :=
      hm ▸ h.mem_dirEntries.mp (List.mem_of_find?_eq_some hfind)
    rcases hcase with ⟨_, heq⟩ | ⟨_, heq⟩
    · obtain ⟨_, _, _, _, hframe⟩ := dropName_frame (g := g) e d t
      obtain ⟨hfiled, hentries⟩ := h.dropName (h.entry_lt he) d t
      have hvacated : Vacated g (g.dropName e d t) d n :=
        h.vacates he hfiled hentries (by rw [hframe]) (by rw [hframe]) (by rw [hframe])
      rw [heq]
      exact .inr ⟨_, rfl, hvacated.settled (g.dropName e d t).quotas _ _ _ _⟩
    · obtain ⟨_, _, _, _, _, hframe⟩ := dropLastName_frame (g := g) e d t
      obtain ⟨hfiled, hentries⟩ := h.dropLastName (h.entry_lt he) d t
      have hvacated : Vacated g (g.dropLastName e d t) d n :=
        h.vacates he hfiled hentries (by rw [hframe]) (by rw [hframe]) (by rw [hframe])
      rw [heq]
      exact settle_spec hvacated (by rw [hframe]) _ _ _ _ _ _

theorem rmdir_spec (h : Filed g.nextEdge g) (now : Nat → Timestamp) (d : DirId) (n : String) :
    FailsFiled g (rmdir now d n g) ∨ ∃ g', rmdir now d n g = (.ok (), g') ∧ Vacated g g' d n := by
  rcases rmdir_cases now d n g with
    hfail | ⟨_, hn, ti, td, inode, hti, _, _, _, hempty, heq⟩
  · exact .inl (h.failsFiled hfail)
  · obtain ⟨_, _, _, _, _, _, hframe⟩ := dropDir_frame (g := g) d n ti td
    obtain ⟨hfiled, hentries⟩ := h.dropDir d n ti td
    obtain ⟨e, he⟩ := h.resolveName_iff.mp hti
    -- the directory carries no name of a user
    have hnames : ∀ {x t m}, g.entries x = some (td, t, m) → ¬ UserName m := by
      intro x t m hx hm
      have hany : g.dirNotEmpty td = true := by
        unfold TypeGraph.dirNotEmpty
        rw [List.any_eq_true]
        exact ⟨(x, t, m), h.mem_dirEntries.mpr hx, decide_eq_true hm⟩
      rw [hempty] at hany
      cases hany
    have hvacated : Vacated g (g.dropDir d n ti td) d n :=
      { filed := by
          rw [hframe] at hfiled ⊢
          exact hfiled
        free := by
          intro x hx
          obtain ⟨t, hx⟩ := TypeGraph.labels_eq_some.mp hx
          rw [hentries] at hx
          split at hx
          · cases hx
          · rename_i hkept
            have hxe : x = e := h.names hx he
            subst hxe
            exact hkept (h.mem_rmdirEdges.mpr (.inl he))
        keep := by
          intro x d' t n' hn' hne hx
          rw [hentries, if_neg]
          · exact hx
          · intro hgone
            rcases h.mem_rmdirEdges.mp hgone with hentry | hmember
            · rw [hx] at hentry
              cases hentry
              exact hne rfl
            · have hdir := (h.members hmember).2 d' n' (TypeGraph.labels_eq_some.mpr ⟨t, hx⟩)
              subst hdir
              exact hnames hx hn'
        nextEdge := by rw [hframe]
        capCtx := by rw [hframe]
        log := by
          rw [hframe]
          exact log_refl _ }
    rw [heq]
    exact settle_spec hvacated (by rw [hframe]) _ _ _ _ _ _

/-- Removing the destination of a rename fails, or vacates a name that could be replaced. -/
theorem removeDestination_spec (h : Filed g.nextEdge g) (now : Nat → Timestamp) (d : DirId) (n : String) :
    FailsFiled g (g.removeDestination now d n (g.resolveName d n)) ∨
      (g.CanReplace d n ∧
        ∃ g', g.removeDestination now d n (g.resolveName d n) = (.ok (), g') ∧ Vacated g g' d n) := by
  unfold TypeGraph.removeDestination TypeGraph.CanReplace
  cases hr : g.resolveName d n with
  | none =>
      refine .inr ⟨?_, g, rfl, h.vacated (h.resolveName_eq_none_iff.mp hr)⟩
      intro t ht
      cases ht
  | some t =>
      dsimp only
      cases hi : g.getInode t with
      | none => exact .inl (h.failsFiled ⟨_, Outcome.failed_err _, rfl⟩)
      | some inode =>
          dsimp only
          split
          · rename_i hkind
            rcases h.rmdir_spec now d n with hfail | ⟨g', heq, hvacated⟩
            · exact .inl hfail
            · refine .inr ⟨?_, g', heq, hvacated⟩
              rcases rmdir_cases now d n g with
                ⟨o, hfail, heq'⟩ | ⟨_, _, ti, td, _, hti, _, _, htd, hempty, _⟩
              · rw [heq] at heq'
                cases heq'
                exact absurd rfl (hfail ())
              · intro t' ht'
                cases ht'
                rw [hr] at hti
                cases hti
                exact ⟨inode, hi, fun _ => ⟨td, htd, hempty⟩⟩
          · rename_i hkind
            rcases h.unlink_spec now d n with hfail | ⟨g', heq, hvacated⟩
            · exact .inl hfail
            · refine .inr ⟨?_, g', heq, hvacated⟩
              intro t' ht'
              cases ht'
              exact ⟨inode, hi, fun hdir => absurd hdir hkind⟩

end Filed

/-- What a successful rename leaves: names filed, a longer log, and the inode under its new name if the pool
    had room for it. -/
structure Relocated (room : Prop) (g g' : TypeGraph) (d : DirId) (n : String) (t : InodeId) : Prop where
  filed : g'.nextEdge ≤ 2 ^ 32 → Filed g'.nextEdge g'
  nextEdge_le : g.nextEdge ≤ g'.nextEdge
  capCtx : g'.capCtx = g.capCtx
  log : ∃ added, g'.provLog = g.provLog.map (· ++ added)
  resolves : room → g'.resolveName d n = some t

namespace Filed

variable {sn dn : String}

/-- Within one directory a name that was found is renamed, once its destination is out of the way. -/
theorem renameSameDir_spec (h : Filed g.nextEdge g) (now : Nat → Timestamp) (d : DirId) (hsn : UserName sn)
    (hdn : UserName dn) :
    FailsFiled g (renameSameDir now d sn dn g) ∨
      ∃ t g', g.resolveName d sn = some t ∧ renameSameDir now d sn dn g = (.ok (), g') ∧
        Relocated True g g' d dn t := by
  unfold renameSameDir
  cases hr : g.resolveName d sn with
  | none => exact .inl (h.failsFiled ⟨_, Outcome.failed_err _, rfl⟩)
  | some t =>
      dsimp only
      by_cases hsame : sn = dn
      · rw [if_pos hsame]
        exact .inr ⟨t, g, rfl, rfl, fun _ => h, le_rfl, rfl, log_refl _, fun _ => hsame ▸ hr⟩
      · rw [if_neg hsame]
        rcases h.removeDestination_spec now d dn with hfail | ⟨_, g₁, heq, hvacated⟩
        · refine .inl ?_
          revert hfail
          generalize g.removeDestination now d dn (g.resolveName d dn) = r
          obtain ⟨o, g₁⟩ := r
          intro hfail
          cases o with
          | ok a => exact absurd rfl (hfail.failed a)
          | _ => exact hfail
        · obtain ⟨e, he⟩ := h.resolveName_iff.mp hr
          have he₁ := hvacated.keep hsn (fun hkey => hsame (congrArg Prod.snd hkey)) he
          have hmem : e ∈ SetIndex.members g₁.dirContains d :=
            hvacated.filed.listed (TypeGraph.labels_eq_some.mpr ⟨t, he₁⟩)
          have hlisted : ¬ d ∉ g₁.dirContains := by
            intro habsent
            exact SetIndex.not_mem_members_of_none (ExtTreeMap.getElem?_eq_none habsent) e hmem
          obtain ⟨hfiled, hentries⟩ := hvacated.filed.renameContainsEdge he₁ hsame hdn hvacated.free
          obtain ⟨_, _, hframe⟩ := renameContainsEdge_frame (g := g₁) e dn
          have hnext : (g₁.renameContainsEdge e dn).2.nextEdge = g₁.nextEdge := by rw [hframe]
          rw [heq]
          dsimp only
          rw [if_neg hlisted, hvacated.filed.findEntry_eq he₁]
          refine .inr ⟨t, _, rfl, rfl, fun _ => hnext ▸ hfiled, ?_, ?_, ?_, ?_⟩
          · rw [hnext, hvacated.nextEdge]
          · rw [hframe]
            exact hvacated.capCtx
          · rw [hframe]
            exact hvacated.log
          · intro _
            exact hfiled.resolveName_iff.mpr ⟨e, by rw [hentries, Function.update_self]⟩

/-- Across directories a name that was found is moved, once its destination is out of the way; the pool may
    refuse the new edge. -/
theorem renameCrossDir_spec (h : Filed g.nextEdge g) (now : Nat → Timestamp) {sd dd : DirId} (hne : sd ≠ dd)
    (hsn : UserName sn)
    (hdn : UserName dn) :
    FailsFiled g (renameCrossDir now sd sn dd dn g) ∨
      ∃ t g', g.resolveName sd sn = some t ∧ g.wouldCycle t dd = false ∧ g.CanReplace dd dn ∧
        renameCrossDir now sd sn dd dn g = (.ok (), g') ∧
        Relocated (g.nextEdge < EDGE_CAPACITY) g g' dd dn t := by
  unfold renameCrossDir
  cases hr : g.resolveName sd sn with
  | none => exact .inl (h.failsFiled ⟨_, Outcome.failed_err _, rfl⟩)
  | some t =>
      dsimp only
      by_cases hcycle : g.wouldCycle t dd = true
      · rw [if_pos hcycle]
        exact .inl (h.failsFiled ⟨_, Outcome.failed_err _, rfl⟩)
      · rw [if_neg hcycle]
        rcases h.removeDestination_spec now dd dn with
          hfail | ⟨hreplace, g₁, heq, hvacated⟩
        · refine .inl ?_
          revert hfail
          generalize g.removeDestination now dd dn (g.resolveName dd dn) = r
          obtain ⟨o, g₁⟩ := r
          intro hfail
          cases o with
          | ok a => exact absurd rfl (hfail.failed a)
          | _ => exact hfail
        · obtain ⟨e, he⟩ := h.resolveName_iff.mp hr
          have he₁ := hvacated.keep hsn (fun hkey => hne (congrArg Prod.fst hkey)) he
          have hmem : e ∈ SetIndex.members g₁.dirContains sd :=
            hvacated.filed.listed (TypeGraph.labels_eq_some.mpr ⟨t, he₁⟩)
          have hlisted : ¬ sd ∉ g₁.dirContains := by
            intro habsent
            exact SetIndex.not_mem_members_of_none (ExtTreeMap.getElem?_eq_none habsent) e hmem
          obtain ⟨_, _, _, _, hframe⟩ := moveEntry_frame (g := g₁) e sd t dd dn
          have hnext : (g₁.moveEntry e sd t dd dn).nextEdge = g₁.nextEdge + 1 := by rw [hframe]
          have hmoved : g₁.nextEdge < 2 ^ 32 → _ := fun hlt => hvacated.filed.moveEntry hlt he₁ hdn hvacated.free
          rw [heq]
          dsimp only
          rw [if_neg hlisted, hvacated.filed.findEntry_eq he₁]
          refine .inr ⟨t, g₁.moveEntry e sd t dd dn, rfl, by simpa using hcycle, hreplace, rfl, ?_, ?_, ?_, ?_, ?_⟩
          · intro hle
            rw [hnext] at hle ⊢
            exact (hmoved hle).1
          · rw [hnext, hvacated.nextEdge]
            exact Nat.le_succ _
          · rw [hframe]
            exact hvacated.capCtx
          · rw [hframe]
            exact hvacated.log
          · intro hroom
            rw [← hvacated.nextEdge] at hroom
            have hlt : g₁.nextEdge < 2 ^ 32 := lt_trans hroom (by decide)
            exact (hmoved hlt).1.resolveName_iff.mpr ⟨_, (hmoved hlt).2.2 hroom⟩

/-- Rename on a graph whose names are filed: it fails and logs nothing, or it passed its checks, the inode
    is where it was asked to be unless a new edge found no room, and the last entry of the log is about what
    the new name leads to. -/
theorem rename_spec (h : Filed g.nextEdge g) (now : Nat → Timestamp) (sd : DirId) (sn : String) (dd : DirId)
    (dn : String) :
    FailsFiled g (rename now sd sn dd dn g) ∨
      (g.requireCap Rights.write = .ok () ∧ UserName sn ∧ UserName dn ∧
        ∃ t g', g.resolveName sd sn = some t ∧
          (sd ≠ dd → g.wouldCycle t dd = false ∧ g.CanReplace dd dn) ∧
          Relocated (sd = dd ∨ g.nextEdge < EDGE_CAPACITY) g g' dd dn t ∧
          rename now sd sn dd dn g =
            (.ok (), g'.recordProv (now 1) .rename ((g'.resolveName dd dn).getD 0) dn)) := by
  unfold rename
  cases hcap : g.requireCap Rights.write with
  | error e => exact .inl (h.failsFiled ⟨_, Outcome.failed_err _, rfl⟩)
  | ok _ =>
      dsimp only
      by_cases hnames : sn = "." ∨ sn = ".." ∨ dn = "." ∨ dn = ".."
      · rw [if_pos hnames]
        exact .inl (h.failsFiled ⟨_, Outcome.failed_err _, rfl⟩)
      · rw [if_neg hnames]
        simp only [not_or] at hnames
        obtain ⟨hs₁, hs₂, hd₁, hd₂⟩ := hnames
        by_cases hdir : sd = dd
        · subst hdir
          rw [if_pos rfl]
          rcases h.renameSameDir_spec now sd ⟨hs₁, hs₂⟩ ⟨hd₁, hd₂⟩ with
            hfail | ⟨t, g', hr, heq, hmoved⟩
          · exact .inl hfail.unlogged
          · rw [heq]
            exact .inr ⟨rfl, ⟨hs₁, hs₂⟩, ⟨hd₁, hd₂⟩, t, g', hr, fun hne => absurd rfl hne,
              { hmoved with resolves := fun _ => hmoved.resolves trivial }, rfl⟩
        · rw [if_neg hdir]
          rcases h.renameCrossDir_spec now hdir ⟨hs₁, hs₂⟩ ⟨hd₁, hd₂⟩ with
            hfail | ⟨t, g', hr, hcycle, hreplace, heq, hmoved⟩
          · exact .inl hfail.unlogged
          · rw [heq]
            exact .inr ⟨rfl, ⟨hs₁, hs₂⟩, ⟨hd₁, hd₂⟩, t, g', hr, fun _ => ⟨hcycle, hreplace⟩,
              { hmoved with resolves := fun hroom => hmoved.resolves (hroom.resolve_left hdir) }, rfl⟩

end Filed

end Removal

/-! ### The calls -/

/-- Names are filed while no more edge ids have been issued than there are slots to address. -/
def TypeGraph.NamesFiled (g : TypeGraph) : Prop := g.nextEdge ≤ 2 ^ 32 → Filed g.nextEdge g

namespace TypeGraph.NamesFiled

variable {g g' : TypeGraph} {now : Nat → Timestamp}

/-- An edit that issues some edge ids and keeps names filed under the new bound. -/
theorem step (h : g.NamesFiled) {k : Nat} (hnext : g'.nextEdge = g.nextEdge + k)
    (hkeep : Filed g.nextEdge g → g.nextEdge + k ≤ 2 ^ 32 → Filed (g.nextEdge + k) g') : g'.NamesFiled := by
  intro hle
  rw [hnext] at hle ⊢
  exact hkeep (h ((Nat.le_add_right _ k).trans hle)) hle

/-- Settling changes neither names nor ids. -/
theorem settle {α : Type} (h : g.NamesFiled) (d : DirId) (delta : Int) (now : Timestamp) (op : ProvOp)
    (t : InodeId) (detail : String) (value : α) :
    (g.settle d delta now op t detail value).2.NamesFiled := by
  obtain ⟨quotas, provLog, heq⟩ := settle_snd g d delta now op t detail value
  rw [heq]
  exact fun hle => (h hle).congr rfl rfl rfl rfl le_rfl

theorem createFile (h : g.NamesFiled) (d : DirId) (n : String) (u gr : UInt32) (p : Permissions) :
    (SotFs.createFile now d n u gr p g).2.NamesFiled := by
  rcases createFile_cases now d n u gr p g with
    ⟨o, _, heq⟩ | ⟨_, hname, hfree, _, _, heq⟩
  · rw [heq]
    exact h
  · rw [heq]
    refine settle (h.step (k := 1) rfl fun hf hlt => ?_) _ _ _ _ _ _ _
    exact hf.enterInode hlt (userName_of_valid hname) (hf.resolveName_eq_none_iff.mp hfree)

theorem symlink (h : g.NamesFiled) (d : DirId) (n target : String) (u gr : UInt32) :
    (SotFs.symlink now d n target u gr g).2.NamesFiled := by
  rcases symlink_cases now d n target u gr g with
    ⟨o, _, heq⟩ | ⟨_, hname, hfree, _, _, heq⟩
  · rw [heq]
    exact h
  · rw [heq]
    refine settle (h.step (k := 1) rfl fun hf hlt => ?_) _ _ _ _ _ _ _
    exact (hf.enterInode hlt (userName_of_valid hname) (hf.resolveName_eq_none_iff.mp hfree)).congr
      rfl rfl rfl rfl le_rfl

theorem mkdir (h : g.NamesFiled) (d : DirId) (n : String) (u gr : UInt32) (p : Permissions) :
    (SotFs.mkdir now d n u gr p g).2.NamesFiled := by
  rcases mkdir_cases now d n u gr p g with
    ⟨o, _, heq⟩ | ⟨_, hname, hfree, _, parent, _, heq⟩
  · rw [heq]
    exact h
  · rw [heq]
    refine settle (h.step (k := 3) rfl fun hf hle => ?_) _ _ _ _ _ _ _
    exact hf.enterDir hle (userName_of_valid hname) (hf.resolveName_eq_none_iff.mp hfree)

theorem link (h : g.NamesFiled) (d : DirId) (n : String) (t : InodeId) :
    (SotFs.link now d n t g).2.NamesFiled := by
  rcases link_cases now d n t g with
    ⟨o, _, heq⟩ | ⟨_, hn, hfree, _, _, _, _, heq⟩
  · rw [heq]
    exact h
  · rw [heq]
    refine h.step (k := 1) rfl fun hf hlt => ?_
    exact (hf.enterLink hlt hn (hf.resolveName_eq_none_iff.mp hfree)).congr rfl rfl rfl rfl le_rfl

theorem rmdir (h : g.NamesFiled) (d : DirId) (n : String) : (SotFs.rmdir now d n g).2.NamesFiled := by
  rcases rmdir_cases now d n g with
    ⟨o, _, heq⟩ | ⟨_, _, ti, td, _, _, _, _, _, _, heq⟩
  · rw [heq]
    exact h
  · obtain ⟨_, _, _, _, _, _, hframe⟩ := dropDir_frame (g := g) d n ti td
    rw [heq]
    exact settle (h.step (k := 0) (by rw [hframe]; rfl) fun hf _ => (hf.dropDir d n ti td).1) _ _ _ _ _ _ _

theorem unlink (h : g.NamesFiled) (d : DirId) (n : String) : (SotFs.unlink now d n g).2.NamesFiled := by
  rcases unlink_cases now d n g with
    ⟨o, _, heq⟩ | ⟨_, _, _, e, t, m, _, hfind, _, _, hcase⟩
  · rw [heq]
    exact h
  · have hlt : Filed g.nextEdge g → e < g.nextEdge := fun hf =>
      hf.entry_lt (hf.mem_dirEntries.mp (List.mem_of_find?_eq_some hfind))
    rcases hcase with ⟨_, heq⟩ | ⟨_, heq⟩
    · obtain ⟨_, _, _, _, hframe⟩ := dropName_frame (g := g) e d t
      rw [heq]
      refine h.step (k := 0) (by rw [hframe]; rfl) fun hf _ => ?_
      exact (hf.dropName (hlt hf) d t).1.congr rfl rfl rfl rfl le_rfl
    · obtain ⟨_, _, _, _, _, hframe⟩ := dropLastName_frame (g := g) e d t
      rw [heq]
      exact settle (h.step (k := 0) (by rw [hframe]; rfl) fun hf _ => (hf.dropLastName (hlt hf) d t).1)
        _ _ _ _ _ _ _

/-- Removing a directory issues no edge id. -/
theorem rmdir_nextEdge {d : DirId} {n : String} : (SotFs.rmdir now d n g).2.nextEdge = g.nextEdge := by
  rcases rmdir_cases now d n g with
    ⟨o, _, heq⟩ | ⟨_, _, ti, td, _, _, _, _, _, _, heq⟩
  · rw [heq]
  · obtain ⟨_, _, _, _, _, _, hframe⟩ := dropDir_frame (g := g) d n ti td
    obtain ⟨_, _, hsettled⟩ := settle_snd (g.dropDir d n ti td) d (-1) (now 0) .rmdir ti n ()
    rw [heq, hsettled, hframe]

/-- Removing a name issues no edge id. -/
theorem unlink_nextEdge {d : DirId} {n : String} : (SotFs.unlink now d n g).2.nextEdge = g.nextEdge := by
  rcases unlink_cases now d n g with
    ⟨o, _, heq⟩ | ⟨_, _, _, e, t, m, _, _, _, _, ⟨_, heq⟩ | ⟨_, heq⟩⟩
  · rw [heq]
  · obtain ⟨_, _, _, _, hframe⟩ := dropName_frame (g := g) e d t
    rw [heq, hframe]
    rfl
  · obtain ⟨_, _, _, _, _, hframe⟩ := dropLastName_frame (g := g) e d t
    obtain ⟨_, _, hsettled⟩ := settle_snd (g.dropLastName e d t) d (-1) (now 0) .unlink t n ()
    rw [heq, hsettled, hframe]

/-- A rename issues one edge id at most and takes none back, whatever the graph. -/
theorem rename_nextEdge {sd dd : DirId} {sn dn : String} :
    g.nextEdge ≤ (SotFs.rename now sd sn dd dn g).2.nextEdge ∧
      (SotFs.rename now sd sn dd dn g).2.nextEdge ≤ g.nextEdge + 1 := by
  refine rename_leads (P := fun g' => g'.nextEdge = g.nextEdge)
    (Q := fun g' => g.nextEdge ≤ g'.nextEdge ∧ g'.nextEdge ≤ g.nextEdge + 1)
    (fun h => ⟨h.ge, h.le.trans (Nat.le_succ _)⟩) rfl
    (removeDestination_keeps _ _ _ _ (P := fun g' => g'.nextEdge = g.nextEdge) rfl rmdir_nextEdge
      unlink_nextEdge) ?_ ?_ fun _ h => h
  · intro g₁ e _ h
    obtain ⟨_, _, hframe⟩ := renameContainsEdge_frame (g := g₁) e dn
    rw [hframe]
    exact ⟨h.ge, h.le.trans (Nat.le_succ _)⟩
  · intro g₁ e t _ h
    obtain ⟨_, _, _, _, hframe⟩ := moveEntry_frame (g := g₁) e sd t dd dn
    rw [hframe]
    exact ⟨h.ge.trans (Nat.le_succ _), Nat.succ_le_succ h.le⟩

theorem rename (h : g.NamesFiled) (sd : DirId) (sn : String) (dd : DirId) (dn : String) :
    (SotFs.rename now sd sn dd dn g).2.NamesFiled := by
  intro hle
  rcases (h (rename_nextEdge.1.trans hle)).rename_spec now sd sn dd dn with hfail | ⟨_, _, _, t, g', _, _, hmoved, heq⟩
  · exact hfail.filed
  · rw [heq] at hle ⊢
    exact (hmoved.filed hle).congr rfl rfl rfl rfl le_rfl

/-- A write that leaves the edges alone. -/
theorem congr (h : g.NamesFiled) (hedges : g'.edges = g.edges) (hsets : g'.dirContains = g.dirContains)
    (hidx : g'.dirNameIdx = g.dirNameIdx) (hpoints : g'.inodePointsTo = g.inodePointsTo)
    (hdirs : g'.nextDir = g.nextDir) (hnext : g'.nextEdge = g.nextEdge) : g'.NamesFiled :=
  h.step (k := 0) hnext fun hf _ => hf.congr hedges hsets hidx hpoints hdirs.ge

/-- Every call keeps names filed, whatever the graph, the arguments and the outcome. -/
theorem apply (h : g.NamesFiled) (op : Op) : (op.apply now g).2.NamesFiled := by
  cases op with
  | createFile d n u gr p => exact h.createFile d n u gr p
  | mkdir d n u gr p => exact h.mkdir d n u gr p
  | rmdir d n => exact h.rmdir d n
  | link d n t => exact h.link d n t
  | unlink d n => exact h.unlink d n
  | rename sd sn dd dn => exact h.rename sd sn dd dn
  | symlink d n target u gr => exact h.symlink d n target u gr
  | writeBlock t offset start count =>
      rw [Op.apply, Prod.map_snd]
      rcases writeBlock_cases t offset start count g with ⟨o, _, heq⟩ | ⟨_, _, heq⟩
      · rw [heq]
        exact h
      · rw [heq]
        exact h.step (k := 1) rfl fun hf hlt => hf.attachBlock hlt t offset start count
  | writeData t offset data =>
      rw [Op.apply, Prod.map_snd]
      rcases writeData_cases now t offset data g with
        ⟨e, heq⟩ | ⟨_, _, _, ⟨buf, heq⟩ | ⟨buf, heq⟩⟩ <;> rw [heq]
      · exact h
      · exact h.congr rfl rfl rfl rfl rfl rfl
      · exact h.congr rfl rfl rfl rfl rfl rfl
  | truncate t newSize =>
      rw [Op.apply, Prod.map_snd]
      rcases truncate_cases now t newSize g with
        ⟨e, heq⟩ | ⟨_, _, _, ⟨buf, heq⟩ | heq⟩ <;> rw [heq]
      · exact h
      · exact h.congr rfl rfl rfl rfl rfl rfl
      · exact h.congr rfl rfl rfl rfl rfl rfl
  | chmod t mode =>
      rw [Op.apply, Prod.map_snd]
      rcases chmod_cases now t mode g with ⟨o, _, heq⟩ | ⟨_, heq⟩ <;>
        rw [heq]
      · exact h
      · exact h.congr rfl rfl rfl rfl rfl rfl
  | chown t u gr =>
      rw [Op.apply, Prod.map_snd]
      rcases chown_cases now t u gr g with ⟨o, _, heq⟩ | ⟨_, heq⟩ <;>
        rw [heq]
      · exact h
      · exact h.congr rfl rfl rfl rfl rfl rfl
  | setxattr t ns name value =>
      rw [Op.apply, Prod.map_snd]
      rcases setxattr_cases now t ns name value g with
        ⟨o, _, heq⟩ | ⟨_, _, _, ⟨a, _, heq⟩ | ⟨_, heq⟩⟩
      · rw [heq]
        exact h
      · rw [heq]
        exact h.congr rfl rfl rfl rfl rfl rfl
      · rw [heq]
        refine h.step (k := 1) rfl fun hf hlt => ?_
        exact (hf.attachXattr hlt t ns name value).congr rfl rfl rfl rfl le_rfl
  | removexattr t ns name =>
      rw [Op.apply, Prod.map_snd]
      rcases removexattr_cases now t ns name g with
        ⟨o, _, heq⟩ | ⟨_, _, a, _, heq⟩
      · rw [heq]
        exact h
      · obtain ⟨_, _, hframe⟩ := dropXattr_frame (g := g) t a
        rw [heq]
        refine h.step (k := 0) (by rw [hframe]; rfl) fun hf _ => ?_
        exact (hf.dropXattr t a).congr rfl rfl rfl rfl le_rfl
  | setacl t entries =>
      rw [Op.apply, Prod.map_snd]
      rcases setacl_cases now t entries g with ⟨o, _, heq⟩ | ⟨_, _, heq⟩
      · rw [heq]
        exact h
      · rw [heq]
        intro hle
        obtain ⟨_, _, _, _, hframe⟩ := dropGrants_frame (g := g) t
        have hnext : (g.dropGrants t).nextEdge = g.nextEdge := by rw [hframe]
        obtain ⟨_, hmono⟩ := foldl_grantEntry_le t (aclMask entries) entries
          { g.dropGrants t with acls := (g.dropGrants t).acls.insert t entries }
        have hf := h (hnext ▸ hmono.trans hle)
        have hdropped : Filed (g.dropGrants t).nextEdge
            { g.dropGrants t with acls := (g.dropGrants t).acls.insert t entries } := by
          rw [hnext]
          exact (hf.dropGrants t).congr rfl rfl rfl rfl le_rfl
        exact (Filed.foldl_grantEntry t (aclMask entries) entries hdropped hle).congr rfl rfl rfl rfl le_rfl
  | setQuota d il bl =>
      rw [Op.apply, Prod.map_snd]
      rcases setQuota_cases d il bl g with ⟨o, _, heq⟩ | ⟨_, _, heq⟩ <;>
        rw [heq]
      · exact h
      · exact h.congr rfl rfl rfl rfl rfl rfl

/-- Where the invariant holds, names are filed. -/
theorem of_inv (h : Inv g) : g.NamesFiled := by
  intro hle
  have hlabel : ∀ {e k}, g.labels e = some k ↔ ∃ w, g.entries e = some w ∧ (w.1, w.2.2) = k :=
    Option.map_eq_some_iff
  refine
    { le := hle
      stored := h.edgeIds.lt_next
      listed := ?_
      named := ?_
      members := ?_
      index := ?_
      pointers := ?_
      dots := ?_ }
  · intro e d n he
    obtain ⟨t, he⟩ := TypeGraph.labels_eq_some.mp he
    exact h.index.out.mem he
  · intro e d n he
    obtain ⟨t, he⟩ := TypeGraph.labels_eq_some.mp he
    exact h.index.names.get he
  · intro d e he
    obtain ⟨w, hw, rfl⟩ := (h.index.out d e).mp he
    obtain ⟨v, hv, _⟩ := Arena.view_eq_some.mp hw
    refine ⟨h.edgeIds.lt_next hv, ?_⟩
    intro d' n hn
    obtain ⟨w', hw', hkey⟩ := hlabel.mp hn
    rw [hw] at hw'
    cases hw'
    exact (congrArg Prod.fst hkey).symm
  · intro k e he
    obtain ⟨w, hw, rfl⟩ := (h.index.names k e).mp he
    obtain ⟨v, hv, _⟩ := Arena.view_eq_some.mp hw
    refine ⟨h.edgeIds.lt_next hv, ?_⟩
    intro k' hk'
    obtain ⟨w', hw', hkey⟩ := hlabel.mp hk'
    rw [hw] at hw'
    cases hw'
    exact hkey.symm
  · intro t e he
    obtain ⟨b, o, hdata⟩ := h.pointsTo_iff.mp he
    refine ⟨h.edgeIds.lt_next hdata, ?_⟩
    rw [TypeGraph.labels_eq_none, TypeGraph.entries, Arena.view, hdata]
    rfl
  · intro e d n he _
    obtain ⟨t, he⟩ := TypeGraph.labels_eq_some.mp he
    obtain ⟨i, hi⟩ := h.shape.src_live he
    obtain ⟨dir, hdir, _⟩ := Arena.view_eq_some.mp hi
    exact h.dirIds.lt_next hdir

end TypeGraph.NamesFiled

/-- Along every run names are filed. -/
theorem Run.namesFiled {allowed : TypeGraph → Op → TypeGraph → Prop} {g : TypeGraph} (hrun : Run allowed g) :
    g.NamesFiled := by
  induction hrun with
  | new now => exact .of_inv (Inv.new now)
  | call now op _ _ ih => exact ih.apply op
  | setCapCtx ctx _ ih => exact ih.congr rfl rfl rfl rfl rfl rfl
  | enableProvLog _ ih => exact ih.congr rfl rfl rfl rfl rfl rfl
  | disableProvLog _ ih => exact ih.congr rfl rfl rfl rfl rfl rfl

end SotFs
