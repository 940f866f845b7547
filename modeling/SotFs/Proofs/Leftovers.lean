/-
Module: SotFs.Proofs.Leftovers
Layer: Proofs
Purpose: What deleting leaves behind. Unlink, rmdir and a replacing rename free an inode; of its side
  structures unlink takes its block edges with it, nothing takes its content, symlink target, ACL, grants,
  attributes or the quota of its directory. Along the runs that free no inode with such things left, every
  key of every side table is live, and every attribute, block and capability has a live owner.
Trusted boundary: none
Main exports: KeysFrom, Op.keysFrom, TypeGraph.Reclaimed, TypeGraph.OwnsNothing, Op.LeavesBehind,
  everything_reclaimed
-/
import SotFs.Proofs.Dangling

namespace SotFs

open Std (ExtTreeMap ExtTreeSet)
open Relation Foundation

/-! ### Where the keys of the side tables come from -/

/-- Every key of a side table of the later graph was one before or is live now, and what a set of
    attributes of a dead inode holds it goes on holding. -/
structure KeysFrom (g g' : TypeGraph) : Prop where
  fileData : ∀ {k}, k ∈ g'.fileData → k ∈ g.fileData ∨ g'.containsInode k = true
  symlinkTargets : ∀ {k}, k ∈ g'.symlinkTargets → k ∈ g.symlinkTargets ∨ g'.containsInode k = true
  acls : ∀ {k}, k ∈ g'.acls → k ∈ g.acls ∨ g'.containsInode k = true
  inodeXattrs : ∀ {k}, k ∈ g'.inodeXattrs → (k ∈ g.inodeXattrs ∧
    ∀ a ∈ SetIndex.members g.inodeXattrs k, a ∈ SetIndex.members g'.inodeXattrs k) ∨
      g'.containsInode k = true
  quotas : ∀ {d}, d ∈ g'.quotas → d ∈ g.quotas ∨ ∃ i, g'.dirInode d = some i

namespace KeysFrom

variable {g g' : TypeGraph}

theorem refl (g : TypeGraph) : KeysFrom g g where
  fileData := .inl
  symlinkTargets := .inl
  acls := .inl
  inodeXattrs hk := .inl ⟨hk, fun _ ha => ha⟩
  quotas := .inl

/-- What a graph holds tells its keys. -/
theorem of_holdings (h : g'.holdings = g.holdings) : KeysFrom g g' := by
  have hdata : g'.fileData = g.fileData := congrArg Holdings.fileData h
  have hlinks : g'.symlinkTargets = g.symlinkTargets := congrArg Holdings.symlinkTargets h
  have hacls : g'.acls = g.acls := congrArg Holdings.acls h
  have hxattrs : g'.inodeXattrs = g.inodeXattrs := congrArg Holdings.inodeXattrs h
  refine
    { fileData := fun hk => .inl (hdata ▸ hk)
      symlinkTargets := fun hk => .inl (hlinks ▸ hk)
      acls := fun hk => .inl (hacls ▸ hk)
      inodeXattrs := ?_
      quotas := ?_ }
  · rw [hxattrs]
    exact fun hk => .inl ⟨hk, fun _ ha => ha⟩
  · intro d hd
    have hterms : g'.quotas[d]?.map Quota.terms = g.quotas[d]?.map Quota.terms :=
      congrFun (congrArg Holdings.quotaTerms h) d
    have hsome : (g'.quotas[d]?.map Quota.terms).isSome := by
      rw [Option.isSome_map]
      exact ExtTreeMap.mem_iff_isSome_getElem?.mp hd
    rw [hterms, Option.isSome_map] at hsome
    exact .inl (ExtTreeMap.mem_iff_isSome_getElem?.mpr hsome)

/-- One inode that is live at the end may be new to every table; the quotas stay. -/
theorem of_one {t : InodeId} (hlive : g'.containsInode t = true)
    (hdata : ∀ k ∈ g'.fileData, k = t ∨ k ∈ g.fileData)
    (hlinks : ∀ k ∈ g'.symlinkTargets, k = t ∨ k ∈ g.symlinkTargets)
    (hacls : ∀ k ∈ g'.acls, k = t ∨ k ∈ g.acls)
    (hxattrs : ∀ k ∈ g'.inodeXattrs, k = t ∨ (k ∈ g.inodeXattrs ∧
      ∀ a ∈ SetIndex.members g.inodeXattrs k, a ∈ SetIndex.members g'.inodeXattrs k))
    (hquotas : ∀ d ∈ g'.quotas, d ∈ g.quotas) : KeysFrom g g' where
  fileData hk := (hdata _ hk).symm.imp_right (by rintro rfl; exact hlive)
  symlinkTargets hk := (hlinks _ hk).symm.imp_right (by rintro rfl; exact hlive)
  acls hk := (hacls _ hk).symm.imp_right (by rintro rfl; exact hlive)
  inodeXattrs hk := (hxattrs _ hk).symm.imp_right (by rintro rfl; exact hlive)
  quotas hd := .inl (hquotas _ hd)

end KeysFrom

/-- A key of a table after one insertion. -/
theorem mem_insert_key {V : Type} {m : ExtTreeMap Nat V} {t k : Nat} {v : V} (hk : k ∈ m.insert t v) :
    k = t ∨ k ∈ m := by
  rcases ExtTreeMap.mem_insert.mp hk with hcmp | hk
  · exact .inl (Std.compare_eq_iff_eq.mp hcmp).symm
  · exact .inr hk

section Keys

variable {now : Nat → Timestamp} {g : TypeGraph} {op : Op}

/-- No call gives a side table a key that is not live when it returns. -/
theorem Op.keysFrom (now : Nat → Timestamp) (h : Inv g) (hcall : InCapacityCall g op (op.apply now g).2) :
    KeysFrom g (op.apply now g).2 := by
  have hsame : ∀ {k : InodeId} {P : Prop}, k ∈ g.inodeXattrs → P ∨ (k ∈ g.inodeXattrs ∧
      ∀ a ∈ SetIndex.members g.inodeXattrs k, a ∈ SetIndex.members g.inodeXattrs k) :=
    fun hk => .inr ⟨hk, fun _ ha => ha⟩
  -- none of the calls below frees anything
  have hlive : ∀ {t : InodeId}, g.containsInode t = true → (∀ t', ¬ op.Frees g t') →
      (op.apply now g).2.containsInode t = true := by
    intro t ht hfrees
    rcases op.live_kept h hcall ht with hkept | ⟨t', _, hfreed⟩
    · exact hkept
    · exact absurd hfreed (hfrees t')
  cases op with
  | createFile | mkdir | rmdir | link | unlink | rename =>
      exact .of_holdings (Op.holdings_eq _ trivial)
  | symlink d n t u gr =>
      obtain ⟨_, hacc⟩ := hcall
      rw [Op.apply, Prod.map_snd] at hacc ⊢
      rcases symlink_holdings now d n t u gr g with
        heq | ⟨heq, hlt⟩
      · exact .of_holdings heq
      · obtain ⟨i, hi, _⟩ := hacc.inode g.nextInode le_rfl hlt
        have hnew : (SotFs.symlink now d n t u gr g).2.containsInode g.nextInode = true := by
          rw [TypeGraph.getInode, Arena.get_eq_data] at hi
          rw [TypeGraph.containsInode, Arena.contains_eq_isSome]
          exact Option.isSome_iff_exists.mpr ⟨i, hi⟩
        have hrest : KeysFrom g { (SotFs.symlink now d n t u gr g).2 with symlinkTargets := g.symlinkTargets } :=
          .of_holdings (congrArg (fun held => { held with symlinkTargets := g.symlinkTargets }) heq)
        have hlinks : (SotFs.symlink now d n t u gr g).2.symlinkTargets =
            g.symlinkTargets.insert g.nextInode ⟨t⟩ := congrArg Holdings.symlinkTargets heq
        exact
          { fileData := hrest.fileData
            symlinkTargets := by
              intro k hk
              change k ∈ (SotFs.symlink now d n t u gr g).2.symlinkTargets at hk
              rw [hlinks] at hk
              exact (mem_insert_key hk).symm.imp_right (by rintro rfl; exact hnew)
            acls := hrest.acls
            inodeXattrs := hrest.inodeXattrs
            quotas := hrest.quotas }
  | writeBlock t o s c =>
      rcases writeBlock_cases t o s c g with
        ⟨o', _, heq⟩ | ⟨_, _, heq⟩
      · rw [Op.apply, heq]
        exact .refl g
      · rw [Op.apply, heq]
        exact .of_holdings rfl
  | writeData t o b =>
      rcases writeData_cases now t o b g with
        ⟨e, heq⟩ | ⟨i, hi, _, ⟨buf, heq⟩ | ⟨buf, heq⟩⟩
      · rw [Op.apply, heq]
        exact .refl g
      · have hkept := hlive (containsInode_of_get hi) fun _ hf => hf
        rw [Op.apply, heq] at hkept ⊢
        exact .of_one hkept (fun _ => mem_insert_key) (fun _ => .inr) (fun _ => .inr) (fun _ => hsame)
          fun _ hd => hd
      · have hkept := hlive (containsInode_of_get hi) fun _ hf => hf
        rw [Op.apply, heq] at hkept ⊢
        exact .of_one hkept (fun _ => mem_insert_key) (fun _ => .inr) (fun _ => .inr) (fun _ => hsame)
          fun _ hd => hd
  | truncate t s =>
      rcases truncate_cases now t s g with
        ⟨e, heq⟩ | ⟨i, hi, _, ⟨buf, heq⟩ | heq⟩
      · rw [Op.apply, heq]
        exact .refl g
      · have hkept := hlive (containsInode_of_get hi) fun _ hf => hf
        rw [Op.apply, heq] at hkept ⊢
        exact .of_one hkept (fun _ => mem_insert_key) (fun _ => .inr) (fun _ => .inr) (fun _ => hsame)
          fun _ hd => hd
      · have hkept := hlive (containsInode_of_get hi) fun _ hf => hf
        rw [Op.apply, heq] at hkept ⊢
        exact .of_one hkept (fun _ => mem_insert_key) (fun _ => .inr) (fun _ => .inr) (fun _ => hsame)
          fun _ hd => hd
  | chmod t m =>
      rcases chmod_cases now t m g with ⟨o, _, heq⟩ | ⟨_, heq⟩
      · rw [Op.apply, heq]
        exact .refl g
      · rw [Op.apply, heq]
        exact .of_holdings rfl
  | chown t u gr =>
      rcases chown_cases now t u gr g with ⟨o, _, heq⟩ | ⟨_, heq⟩
      · rw [Op.apply, heq]
        exact .refl g
      · rw [Op.apply, heq]
        exact .of_holdings rfl
  | setxattr t ns n v =>
      rcases setxattr_cases now t ns n v g with
        ⟨o, _, heq⟩ | ⟨_, ht, _, ⟨a, _, heq⟩ | ⟨_, heq⟩⟩
      · rw [Op.apply, heq]
        exact .refl g
      · have hkept := hlive ht fun _ hf => hf
        rw [Op.apply, heq] at hkept ⊢
        exact .of_one hkept (fun _ => .inr) (fun _ => .inr) (fun _ => .inr) (fun _ => hsame) fun _ hd => hd
      · have hkept := hlive ht fun _ hf => hf
        rw [Op.apply, heq] at hkept ⊢
        refine .of_one hkept (fun _ => .inr) (fun _ => .inr) (fun _ => .inr) ?_ fun _ hd => hd
        intro k hk
        rcases SetIndex.mem_add.mp hk with rfl | hk
        · exact .inl rfl
        · exact .inr ⟨hk, fun a ha => SetIndex.mem_members_add.mpr (.inr ha)⟩
  | removexattr t ns n =>
      rcases removexattr_cases now t ns n g with
        ⟨o, _, heq⟩ | ⟨_, ht, a, _, heq⟩
      · rw [Op.apply, heq]
        exact .refl g
      · have hkept := hlive ht fun _ hf => hf
        obtain ⟨_, _, hdropped⟩ := dropXattr_frame (g := g) t a
        rw [Op.apply, heq, hdropped] at hkept ⊢
        refine .of_one hkept (fun _ => .inr) (fun _ => .inr) (fun _ => .inr) ?_ fun _ hd => hd
        intro k hk
        by_cases hkt : k = t
        · exact .inl hkt
        · refine .inr ⟨SetIndex.mem_drop.mp hk, fun x hx => SetIndex.mem_members_drop.mpr ⟨hx, ?_⟩⟩
          rintro ⟨hk, _⟩
          exact hkt hk
  | setacl t es =>
      rcases setacl_cases now t es g with
        ⟨o, _, heq⟩ | ⟨_, ht, heq⟩
      · rw [Op.apply, heq]
        exact .refl g
      · have hkept := hlive ht fun _ hf => hf
        obtain ⟨_, _, _, _, _, _, hgranted⟩ := replaceGrants_frame (g := g) t es
        rw [Op.apply, heq, hgranted] at hkept ⊢
        exact .of_one hkept (fun _ => .inr) (fun _ => .inr) (fun _ => mem_insert_key) (fun _ => hsame)
          fun _ hd => hd
  | setQuota d il bl =>
      rcases setQuota_cases d il bl g with ⟨o, _, heq⟩ | ⟨_, _, heq⟩
      · rw [Op.apply, heq]
        exact .refl g
      · obtain ⟨i, hi⟩ := h.liveDir_iff.mp (hcall.1 d (by simp [Op.dirs]))
        rw [Op.apply, heq]
        refine
          { fileData := .inl
            symlinkTargets := .inl
            acls := .inl
            inodeXattrs := fun hk => .inl ⟨hk, fun _ ha => ha⟩
            quotas := ?_ }
        intro d' hd'
        exact (mem_insert_key hd').symm.imp_right (by rintro rfl; exact ⟨i, hi⟩)

end Keys

/-! ### What an inode owns when it is freed -/

/-- Freeing the inode at `t` leaves none of its belongings: every side edge goes with it, no side table has
    a key at its slot, and the directory it may belong to has no quota. -/
structure TypeGraph.OwnsNothing (g : TypeGraph) (t : InodeId) : Prop where
  edges : g.FreesClean t
  fileData : ∀ k ∈ g.fileData, idToArena k ≠ idToArena t
  symlinkTargets : ∀ k ∈ g.symlinkTargets, idToArena k ≠ idToArena t
  acls : ∀ k ∈ g.acls, idToArena k ≠ idToArena t
  inodeXattrs : ∀ k ∈ g.inodeXattrs, idToArena k ≠ idToArena t
  quotas : ∀ d ∈ g.quotas, g.dirForInode t ≠ some d

/-- The call frees an inode and leaves something it owned. -/
def Op.LeavesBehind (g : TypeGraph) (op : Op) : Prop := ∃ t, op.Frees g t ∧ ¬ g.OwnsNothing t

/-- Every key of a side table is live. -/
structure TypeGraph.TablesLive (g : TypeGraph) : Prop where
  fileData : ∀ {k}, k ∈ g.fileData → g.containsInode k = true
  symlinkTargets : ∀ {k}, k ∈ g.symlinkTargets → g.containsInode k = true
  acls : ∀ {k}, k ∈ g.acls → g.containsInode k = true
  inodeXattrs : ∀ {k}, k ∈ g.inodeXattrs → g.containsInode k = true
  quotas : ∀ {d}, d ∈ g.quotas → ∃ i, g.dirInode d = some i

section Tables

variable {now : Nat → Timestamp} {g : TypeGraph} {op : Op}

/-- A call that leaves nothing behind keeps the keys live. -/
theorem Op.tablesLive (h : Inv g) (htables : g.TablesLive)
    (hcall : InCapacityCall g op (op.apply now g).2) (hclean : ¬ op.LeavesBehind g) :
    (op.apply now g).2.TablesLive := by
  have hnothing : ∀ {t}, op.Frees g t → g.OwnsNothing t := by
    intro t ht
    by_contra howns
    exact hclean ⟨t, ht, howns⟩
  have hkept : ∀ {k}, g.containsInode k = true →
      (∀ t, g.OwnsNothing t → idToArena k ≠ idToArena t) → (op.apply now g).2.containsInode k = true := by
    intro k hk hslot
    rcases op.live_kept h hcall hk with hlive | ⟨t, ht, hfrees⟩
    · exact hlive
    · exact absurd ht.symm (hslot t (hnothing hfrees))
  have hkeys := op.keysFrom now h hcall
  refine
    { fileData := fun hk => ?_
      symlinkTargets := fun hk => ?_
      acls := fun hk => ?_
      inodeXattrs := fun hk => ?_
      quotas := fun hd => ?_ }
  · rcases hkeys.fileData hk with hold | hlive
    · exact hkept (htables.fileData hold) fun t ht => ht.fileData _ hold
    · exact hlive
  · rcases hkeys.symlinkTargets hk with hold | hlive
    · exact hkept (htables.symlinkTargets hold) fun t ht => ht.symlinkTargets _ hold
    · exact hlive
  · rcases hkeys.acls hk with hold | hlive
    · exact hkept (htables.acls hold) fun t ht => ht.acls _ hold
    · exact hlive
  · rcases hkeys.inodeXattrs hk with ⟨hold, _⟩ | hlive
    · exact hkept (htables.inodeXattrs hold) fun t ht => ht.inodeXattrs _ hold
    · exact hlive
  · rcases hkeys.quotas hd with hold | hlive
    · obtain ⟨i, hi⟩ := htables.quotas hold
      rcases op.dirs_kept h hcall hi with hdir | hfrees
      · exact ⟨i, hdir⟩
      · exact absurd (h.dirForInode_iff.mpr hi) ((hnothing hfrees).quotas _ hold)
    · exact hlive

theorem tablesLive_new (now : Timestamp) : (TypeGraph.new now).TablesLive where
  fileData hk := absurd hk ExtTreeMap.not_mem_empty
  symlinkTargets hk := absurd hk ExtTreeMap.not_mem_empty
  acls hk := absurd hk ExtTreeMap.not_mem_empty
  inodeXattrs hk := absurd hk ExtTreeMap.not_mem_empty
  quotas hd := absurd hd ExtTreeMap.not_mem_empty

/-- The keys are live along every run whose calls leave nothing behind. -/
theorem Run.tablesLive
    (hrun : Run (fun g op g' => InCapacityCall g op g' ∧ ¬ op.LeavesBehind g) g) : g.TablesLive := by
  induction hrun with
  | new now => exact tablesLive_new now
  | call now op hbefore hallowed ih =>
      have hinv : Inv _ := Reachable.inv (hbefore.mono fun _ _ _ hcall => hcall.1)
      exact op.tablesLive hinv ih hallowed.1 hallowed.2
  | setCapCtx _ _ ih => exact ⟨ih.fileData, ih.symlinkTargets, ih.acls, ih.inodeXattrs, ih.quotas⟩
  | enableProvLog _ ih => exact ⟨ih.fileData, ih.symlinkTargets, ih.acls, ih.inodeXattrs, ih.quotas⟩
  | disableProvLog _ ih => exact ⟨ih.fileData, ih.symlinkTargets, ih.acls, ih.inodeXattrs, ih.quotas⟩

theorem pointsFilled_new (now : Timestamp) : (TypeGraph.new now).PointsFilled := by
  intro t ht
  exact absurd ht ExtTreeMap.not_mem_empty

end Tables

/-! ### Runs -/

/-- Nothing is left of what was deleted: the keys of the side tables are live, every attribute belongs to
    one live inode, every block is pointed to by a live inode, and every capability has its grant edge into
    a live inode. -/
structure TypeGraph.Reclaimed (g : TypeGraph) : Prop where
  fileData : ∀ k ∈ g.fileData, g.containsInode k = true
  symlinkTargets : ∀ k ∈ g.symlinkTargets, g.containsInode k = true
  acls : ∀ k ∈ g.acls, g.containsInode k = true
  inodeXattrs : ∀ k ∈ g.inodeXattrs, g.containsInode k = true
  inodePointsTo : ∀ k ∈ g.inodePointsTo, g.containsInode k = true
  quotas : ∀ d ∈ g.quotas, g.containsDir d = true
  dirContains : ∀ d ∈ g.dirContains, g.containsDir d = true
  xattrs : ∀ a ∈ g.xattrs, ∃ t, g.containsInode t = true ∧
    ∀ t', a ∈ SetIndex.members g.inodeXattrs t' ↔ t' = t
  blocks : ∀ {b blk}, g.blocks.get b = some blk →
    ∃ e t o, g.edges.get e = some (.pointsTo e t b o) ∧ g.containsInode t = true
  caps : ∀ {c cap}, g.caps.get c = some cap → ∃ e t r, g.capGrants[c]? = some e ∧
    g.edges.get e = some (.grants e c t r) ∧ g.containsInode t = true

/-- Live keys, filled block sets and live owners of side edges are all it takes. -/
theorem Inv.reclaimed {g : TypeGraph} (h : Inv g) (htables : g.TablesLive) (hside : g.SideLive)
    (hfilled : g.PointsFilled) : g.Reclaimed := by
  have howner : ∀ {e v t}, g.edges.data e = some v → v.sideInode = some t → g.containsInode t = true :=
    fun hv ht => TypeGraph.containsInode_iff.mpr (hside (Arena.view_eq_some.mpr ⟨_, hv, ht⟩))
  refine
    { fileData := fun _ => htables.fileData
      symlinkTargets := fun _ => htables.symlinkTargets
      acls := fun _ => htables.acls
      inodeXattrs := fun _ => htables.inodeXattrs
      inodePointsTo := ?_
      quotas := ?_
      dirContains := ?_
      xattrs := ?_
      blocks := ?_
      caps := ?_ }
  · intro t ht
    obtain ⟨e, he⟩ := hfilled ht
    obtain ⟨b, o, he⟩ := h.pointsTo_iff.mp he
    exact howner he rfl
  · intro d hd
    obtain ⟨i, hi⟩ := htables.quotas hd
    exact h.containsDir_eq hi
  · intro d hd
    obtain ⟨i, hi⟩ := (h.dirKeys d).mp hd
    exact h.containsDir_eq hi
  · intro a ha
    obtain ⟨e, t, he⟩ := h.side.xattrs.live.mp ha
    refine ⟨t, howner (h.attachment_iff.mp he) rfl, ?_⟩
    intro t'
    rw [h.side.xattrs.owned]
    constructor
    · rintro ⟨e', he'⟩
      have hee : e' = e := h.side.xattrs.unique he' he
      subst hee
      rw [he] at he'
      cases he'
      rfl
    · rintro rfl
      exact ⟨e, he⟩
  · intro b blk hb
    rw [Arena.get_eq_data] at hb
    obtain ⟨_, e, t, o, he⟩ := h.side.blocks.used hb
    have hdata := h.pointer_iff.mp he
    exact ⟨e, t, o, by rw [Arena.get_eq_data, hdata], howner hdata rfl⟩
  · intro c cap hc
    rw [Arena.get_eq_data] at hc
    obtain ⟨e, t, r, he⟩ := h.side.grants.used hc
    have hdata := h.grant_iff.mp he
    exact ⟨e, t, r, h.side.grants.index.get he, by rw [Arena.get_eq_data, hdata], howner hdata rfl⟩

/-- Along every run whose calls leave nothing behind, everything that was deleted is reclaimed. -/
theorem everything_reclaimed {g : TypeGraph}
    (hrun : Run (fun g op g' => InCapacityCall g op g' ∧ ¬ op.LeavesBehind g) g) : g.Reclaimed := by
  obtain ⟨hinv, hside, hfilled⟩ : Inv g ∧ g.SideLive ∧ g.PointsFilled := by
    refine hrun.keep (fun _ _ => True) TypeGraph.FreesClean
      (P := fun g => g.SideLive ∧ g.PointsFilled) (fun now => ⟨sideLive_new now, pointsFilled_new now⟩)
      (fun h hp hedit => ⟨hedit.sideLive h hp.1, hedit.pointsFilled h hp.2⟩) ?_
    rintro g op g' ⟨hcapacity, hclean⟩
    refine ⟨hcapacity, fun _ _ => trivial, ?_⟩
    intro t hfrees
    by_contra hstrands
    exact hclean ⟨t, hfrees, fun howns => hstrands howns.edges⟩
  exact hinv.reclaimed hrun.tablesLive hside hfilled

/-- A file deleted with its block. -/
theorem everything_reclaimed_unlinked :
    ((TypeGraph.new 0).calls (fun _ => 0)
      [.createFile 1 "a" 0 0 .fileDefault, .writeBlock 2 0 0 8, .unlink 1 "a"]).Reclaimed := by
  refine everything_reclaimed
    (Run.calls _ (.new 0) ⟨⟨by decide, ?_⟩, ⟨by decide, ?_⟩, ⟨by decide, ?_⟩, trivial⟩)
  · rintro ⟨t, hfrees, _⟩
    exact hfrees
  · rintro ⟨t, hfrees, _⟩
    exact hfrees
  · rintro ⟨t, ⟨_, _, hresolve, _⟩, howns⟩
    have ht : t = 2 := by
      have hname : ((TypeGraph.new 0).calls (fun _ => 0)
          [.createFile 1 "a" 0 0 .fileDefault, .writeBlock 2 0 0 8]).resolveName 1 "a" = some 2 := by decide
      exact Option.some.inj (hresolve.symm.trans hname)
    subst ht
    have hedges : ∀ p ∈ ((TypeGraph.new 0).calls (fun _ => 0)
        [.createFile 1 "a" 0 0 .fileDefault, .writeBlock 2 0 0 8]).edges.iter,
        p.2.sideInode = none ∨ p.2 = .pointsTo p.1 2 1 0 := by decide
    have hkind : ∀ i ∈ ((TypeGraph.new 0).calls (fun _ => 0)
        [.createFile 1 "a" 0 0 .fileDefault, .writeBlock 2 0 0 8]).getInode 2,
        i.vtype ≠ .directory := by decide
    have hempty : ∀ {V : Type} {m : ExtTreeMap Nat V}, m.isEmpty = true → ∀ k, k ∉ m := by
      intro V m hm k hk
      rw [ExtTreeMap.isEmpty_iff.mp hm] at hk
      exact ExtTreeMap.not_mem_empty hk
    exact howns
      { edges := TypeGraph.freesClean_of_iter
          (fun p hp => (hedges p hp).imp_right fun hpoints => ⟨1, 0, hpoints⟩) hkind
        fileData := fun k hk => absurd hk (hempty (by decide) k)
        symlinkTargets := fun k hk => absurd hk (hempty (by decide) k)
        acls := fun k hk => absurd hk (hempty (by decide) k)
        inodeXattrs := fun k hk => absurd hk (hempty (by decide) k)
        quotas := fun d hd => absurd hd (hempty (by decide) d) }

/-- The content of an unlinked file is kept under its dead id. -/
theorem content_left_behind :
    let g := (TypeGraph.new 0).calls (fun _ => 0)
      [.createFile 1 "a" 0 0 .fileDefault, .writeData 2 0 [1], .unlink 1 "a"]
    Reachable g ∧ g.fileData[2]? = some [1] ∧ g.containsInode 2 = false ∧ ¬ g.Reclaimed := by
  have hdata : ((TypeGraph.new 0).calls (fun _ => 0) [.createFile 1 "a" 0 0 .fileDefault,
      .writeData 2 0 [1], .unlink 1 "a"]).fileData[2]? = some [1] := by decide
  have hdead : ((TypeGraph.new 0).calls (fun _ => 0) [.createFile 1 "a" 0 0 .fileDefault,
      .writeData 2 0 [1], .unlink 1 "a"]).containsInode 2 = false := by decide
  refine ⟨Run.calls _ (.new 0) (by decide), hdata, hdead, ?_⟩
  intro hreclaimed
  have hlive := hreclaimed.fileData 2 (ExtTreeMap.mem_iff_isSome_getElem?.mpr (by rw [hdata]; rfl))
  rw [hdead] at hlive
  cases hlive

end SotFs
