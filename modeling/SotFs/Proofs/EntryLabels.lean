/-
Module: SotFs.Proofs.EntryLabels
Layer: Proofs
Purpose: Where names come from. Every call is a sequence of writes to the edge pool and the name index: edges
  added under the next id, names entered, edges removed, ".." entries pointed elsewhere, entries renamed. The
  directory and the name of every stored entry, and every key of the name index, are followed through these
  alone, whatever the graph and whether the pools have room or not: a call keeps them within any two
  conditions that hold of what it enters itself.
Trusted boundary: none
Main exports: TypeGraph.Renames, Op.Puts, EdgeWrites, Op.edgeWrites, LabelsWithin, Op.labelsWithin
-/
import SotFs.Proofs.Edits

namespace SotFs

open Std (ExtTreeMap ExtTreeSet)
open Relation Foundation

/-! ### What a call enters -/

/-- The checks that a rename passes before it enters its new name. -/
def TypeGraph.Renames (g : TypeGraph) (sd : DirId) (sn : String) (dd : DirId) (dn : String) : Prop :=
  g.requireCap Rights.write = .ok () ∧ UserName sn ∧ UserName dn ∧
    ∃ s, g.resolveName sd sn = some s ∧ (sd ≠ dd → g.wouldCycle s dd = false)

/-- The directories and names that a call enters. -/
def Op.Puts (g : TypeGraph) : Op → DirId → String → Prop
  | .createFile p m .., d, n | .symlink p m .., d, n =>
      d = p ∧ n = m ∧ invalidName m = false ∧ g.containsDir p = true
  | .mkdir p m .., d, n =>
      (d = p ∧ n = m ∧ invalidName m = false ∧ g.containsDir p = true) ∨
        (d = g.nextDir ∧ (n = "." ∨ n = ".."))
  | .link p m t, d, n => d = p ∧ n = m ∧ g.CanLink p m t
  | .rename sd sn dd dn, d, n => d = dd ∧ n = dn ∧ g.Renames sd sn dd dn
  | _, _, _ => False

/-! ### The writes of a call -/

/-- What a call does to the edge pool and the name index: `Put` holds of the names that it enters, and `Moved`
    of the old and the new name of an entry that it renames. -/
inductive EdgeWrites (Put : DirId → String → Prop) (Moved : String → String → Prop) (g₀ : TypeGraph) :
    TypeGraph → Prop where
  | start : EdgeWrites Put Moved g₀ g₀
  | other {g g' : TypeGraph} : EdgeWrites Put Moved g₀ g → g'.edges = g.edges → g'.dirNameIdx = g.dirNameIdx →
      g'.nextEdge = g.nextEdge → EdgeWrites Put Moved g₀ g'
  | add {g g' : TypeGraph} {v : Edge} : EdgeWrites Put Moved g₀ g → v.entry = none →
      g'.edges = (g.insertEdge g.nextEdge v).edges → g'.dirNameIdx = g.dirNameIdx →
      g'.nextEdge = g.nextEdge + 1 → EdgeWrites Put Moved g₀ g'
  | enter {g g' : TypeGraph} {d : DirId} {t : InodeId} {n : String} : EdgeWrites Put Moved g₀ g → Put d n →
      g'.edges = (g.addContains g.nextEdge d t n).edges →
      g'.dirNameIdx = (g.addContains g.nextEdge d t n).dirNameIdx →
      g'.nextEdge = g.nextEdge + 1 → EdgeWrites Put Moved g₀ g'
  | remove {g : TypeGraph} (e : EdgeId) : EdgeWrites Put Moved g₀ g →
      EdgeWrites Put Moved g₀ (g.removeEdge e).2
  | retarget {g : TypeGraph} (e : EdgeId) (i : InodeId) : EdgeWrites Put Moved g₀ g →
      EdgeWrites Put Moved g₀ (g.modifyEdge e fun
        | .contains id src _ name => .contains id src i name
        | edge => edge)
  | relabel {g : TypeGraph} (e : EdgeId) (n : String) : EdgeWrites Put Moved g₀ g →
      (∀ id d t old, g.getEdge e = some (.contains id d t old) → Moved old n) →
      EdgeWrites Put Moved g₀ (g.renameContainsEdge e n).2

namespace EdgeWrites

variable {Put : DirId → String → Prop} {Moved : String → String → Prop} {g₀ g g' : TypeGraph}

theorem detachContains (h : EdgeWrites Put Moved g₀ g) (e : EdgeId) :
    EdgeWrites Put Moved g₀ (g.detachContains e) := by
  have hremoved := h.remove e
  unfold TypeGraph.detachContains
  split
  · rename_i heq
    rw [heq] at hremoved
    exact hremoved.other rfl rfl rfl
  · rename_i heq
    rw [heq] at hremoved
    exact hremoved

theorem releaseBlockEdge (h : EdgeWrites Put Moved g₀ g) (e : EdgeId) :
    EdgeWrites Put Moved g₀ (g.releaseBlockEdge e) := by
  have hremoved := h.remove e
  unfold TypeGraph.releaseBlockEdge
  split
  · rename_i heq
    rw [heq] at hremoved
    split
    · dsimp only
      split
      · exact hremoved.other rfl rfl rfl
      · exact hremoved.other rfl rfl rfl
    · exact hremoved
  · rename_i heq
    rw [heq] at hremoved
    exact hremoved

/-- A fold of writes. -/
theorem foldl {α : Type} {f : TypeGraph → α → TypeGraph}
    (hf : ∀ {g} a, EdgeWrites Put Moved g₀ g → EdgeWrites Put Moved g₀ (f g a)) (as : List α) :
    ∀ {g : TypeGraph}, EdgeWrites Put Moved g₀ g → EdgeWrites Put Moved g₀ (as.foldl f g) := by
  induction as with
  | nil => exact fun h => h
  | cons a as ih => exact fun h => ih (hf a h)

theorem dropName (h : EdgeWrites Put Moved g₀ g) (e : EdgeId) (d : DirId) (t : InodeId) :
    EdgeWrites Put Moved g₀ (g.dropName e d t) := (h.remove e).other rfl rfl rfl

theorem collectInode (h : EdgeWrites Put Moved g₀ g) (t : InodeId) :
    EdgeWrites Put Moved g₀ (g.collectInode t) := by
  have hreleased : EdgeWrites Put Moved g₀ ((SetIndex.members g.inodePointsTo t).toList.foldl
      TypeGraph.releaseBlockEdge { g with inodePointsTo := g.inodePointsTo.erase t }) :=
    foldl (fun e h => h.releaseBlockEdge e) _ (h.other rfl rfl rfl)
  exact hreleased.other rfl rfl rfl

theorem removeDir (h : EdgeWrites Put Moved g₀ g) (d : DirId) : EdgeWrites Put Moved g₀ (g.removeDir d) := by
  unfold TypeGraph.removeDir
  dsimp only
  split <;> exact h.other rfl rfl rfl

theorem dropDir (h : EdgeWrites Put Moved g₀ g) (p : DirId) (n : String) (ti : InodeId) (td : DirId) :
    EdgeWrites Put Moved g₀ (g.dropDir p n ti td) := by
  have hdetached : EdgeWrites Put Moved g₀ ((g.rmdirEdges p n ti td).foldl TypeGraph.detachContains g) :=
    foldl (fun e h => h.detachContains e) _ h
  have hfreed : EdgeWrites Put Moved g₀
      (((g.rmdirEdges p n ti td).foldl TypeGraph.detachContains g).removeInode ti) :=
    hdetached.other rfl rfl rfl
  exact (hfreed.removeDir td).other rfl rfl rfl

theorem settle {α : Type} (h : EdgeWrites Put Moved g₀ g) (d : DirId) (delta : Int) (now : Timestamp)
    (op : ProvOp) (t : InodeId) (detail : String) (value : α) :
    EdgeWrites Put Moved g₀ (g.settle d delta now op t detail value).2 := by
  unfold TypeGraph.settle TypeGraph.updateQuota
  cases g.updateQuotaFrom delta 0 g.walkFuel g.quotas (some d) with
  | none => exact h
  | some quotas => exact h.other rfl rfl rfl

theorem unlink (h : EdgeWrites Put Moved g₀ g) (now : Nat → Timestamp) (d : DirId) (n : String) :
    EdgeWrites Put Moved g₀ (SotFs.unlink now d n g).2 := by
  rcases unlink_cases now d n g with
    ⟨o, _, heq⟩ | ⟨_, _, _, e, t, m, inode, _, _, _, ⟨_, heq⟩ | ⟨_, heq⟩⟩
  · rw [heq]
    exact h
  · rw [heq]
    exact (h.dropName e d t).other rfl rfl rfl
  · rw [heq]
    have hdropped : EdgeWrites Put Moved g₀ (g.dropLastName e d t) := (h.dropName e d t).collectInode t
    exact hdropped.settle _ _ _ _ _ _ _

theorem rmdir (h : EdgeWrites Put Moved g₀ g) (now : Nat → Timestamp) (d : DirId) (n : String) :
    EdgeWrites Put Moved g₀ (SotFs.rmdir now d n g).2 := by
  rcases rmdir_cases now d n g with
    ⟨o, _, heq⟩ | ⟨_, _, ti, td, inode, _, _, _, _, _, heq⟩
  · rw [heq]
    exact h
  · rw [heq]
    exact (h.dropDir d n ti td).settle _ _ _ _ _ _ _

theorem removeDestination (h : EdgeWrites Put Moved g₀ g) (now : Nat → Timestamp) (d : DirId) (n : String)
    (t : Option InodeId) : EdgeWrites Put Moved g₀ (g.removeDestination now d n t).2 := by
  unfold TypeGraph.removeDestination
  split
  · exact h
  · split
    · exact h
    · split
      · exact h.rmdir now d n
      · exact h.unlink now d n

theorem followParent (h : EdgeWrites Put Moved g₀ g) (t : InodeId) (q : DirId) :
    EdgeWrites Put Moved g₀ (g.followParent t q) := by
  unfold TypeGraph.followParent TypeGraph.retargetDotdot
  split
  · split
    · split
      · split
        · exact h
        · rename_i childDir dst _ _ _ e old name hfind
          have hstale : EdgeWrites Put Moved g₀ { g with
              inodeIncomingContains := SetIndex.drop g.inodeIncomingContains old e } := h.other rfl rfl rfl
          exact (hstale.retarget e dst.inodeId).other rfl rfl rfl
      · exact h
    · exact h
  · exact h

/-! ### The calls -/

variable {now : Nat → Timestamp}

/-- The entry that a rename looks for carries its name. -/
theorem getEdge_of_findEntry {d : DirId} {s : InodeId} {sn : String} {e : EdgeId}
    (hfind : g.findEntry d s sn = some e) : ∀ {id d' t old}, g.getEdge e = some (.contains id d' t old) →
      old = sn := by
  intro id d' t old hget
  obtain ⟨⟨x, t', m⟩, hentry, heq⟩ := Option.map_eq_some_iff.mp hfind
  cases heq
  obtain ⟨_, hname⟩ : t' = s ∧ m = sn := by simpa using List.find?_some hentry
  obtain ⟨y, _, hy⟩ := List.mem_filterMap.mp (List.mem_of_find?_eq_some hentry)
  split at hy
  · rename_i hgot
    cases hy
    rw [hget] at hgot
    cases hgot
    exact hname
  · cases hy

/-- A rename within a directory gives its new name to entries that carry the old one. -/
theorem renameSameDir (h : EdgeWrites Put Moved g₀ g) {d : DirId} {sn dn : String}
    (hdn : (∃ s, g.resolveName d sn = some s) → Moved sn dn) :
    EdgeWrites Put Moved g₀ (SotFs.renameSameDir now d sn dn g).2 := by
  unfold SotFs.renameSameDir
  split
  · exact h
  · rename_i s hs
    split
    · exact h
    · have hremoved := h.removeDestination now d dn (g.resolveName d dn)
      split
      · rename_i g₁ hremove
        rw [hremove] at hremoved
        split
        · exact hremoved
        · split
          · exact hremoved
          · rename_i e hfind
            refine hremoved.relabel e dn fun id d' t old hget => ?_
            rw [getEdge_of_findEntry hfind hget]
            exact hdn ⟨s, hs⟩
      · exact hremoved

/-- A rename across directories enters its new name only. -/
theorem renameCrossDir (h : EdgeWrites Put Moved g₀ g) {sd dd : DirId} {sn dn : String}
    (hdn : (∃ s, g.resolveName sd sn = some s ∧ g.wouldCycle s dd = false) → Put dd dn) :
    EdgeWrites Put Moved g₀ (SotFs.renameCrossDir now sd sn dd dn g).2 := by
  unfold SotFs.renameCrossDir
  split
  · exact h
  · rename_i s hs
    split
    · exact h
    · rename_i hcycle
      have hremoved := h.removeDestination now dd dn (g.resolveName dd dn)
      split
      · rename_i g₁ hremove
        rw [hremove] at hremoved
        split
        · exact hremoved
        · split
          · exact hremoved
          · rename_i e _
            have hname := hdn ⟨s, hs, by simpa using hcycle⟩
            have hentered : EdgeWrites Put Moved g₀
                (({ (g₁.removeEdge e).2 with
                    dirContains := SetIndex.drop (g₁.removeEdge e).2.dirContains sd e
                    inodeIncomingContains :=
                      SetIndex.drop (g₁.removeEdge e).2.inodeIncomingContains s e
                    nextEdge := (g₁.removeEdge e).2.nextEdge + 1 } : TypeGraph).addContains
                  (g₁.removeEdge e).2.nextEdge dd s dn) :=
              (hremoved.remove e).enter (t := s) hname rfl rfl rfl
            exact hentered.followParent s dd
      · exact hremoved

theorem rename (h : EdgeWrites Put Moved g₀ g) {sd dd : DirId} {sn dn : String}
    (hentered : g.Renames sd sn dd dn → Put dd dn)
    (hmoved : sd = dd → g.Renames sd sn dd dn → Moved sn dn) :
    EdgeWrites Put Moved g₀ (SotFs.rename now sd sn dd dn g).2 := by
  unfold SotFs.rename
  split
  · exact h
  · rename_i hcap
    split
    · exact h
    · rename_i hnames
      obtain ⟨hs₁, hs₂, hd₁, hd₂⟩ : sn ≠ "." ∧ sn ≠ ".." ∧ dn ≠ "." ∧ dn ≠ ".." := by tauto
      have hresult : EdgeWrites Put Moved g₀ (if sd = dd then SotFs.renameSameDir now sd sn dn g
          else SotFs.renameCrossDir now sd sn dd dn g).2 := by
        split
        · rename_i hdir
          refine h.renameSameDir ?_
          rintro ⟨s, hs⟩
          exact hmoved hdir ⟨hcap, ⟨hs₁, hs₂⟩, ⟨hd₁, hd₂⟩, s, hs, fun hne => absurd hdir hne⟩
        · refine h.renameCrossDir ?_
          rintro ⟨s, hs, hcycle⟩
          exact hentered ⟨hcap, ⟨hs₁, hs₂⟩, ⟨hd₁, hd₂⟩, s, hs, fun _ => hcycle⟩
      dsimp only
      split
      · rename_i g' heq
        rw [heq] at hresult
        exact hresult.other rfl rfl rfl
      · exact hresult

theorem enterInode (h : EdgeWrites Put Moved g₀ g) {d : DirId} {n : String} (hn : Put d n) (inode : Inode) :
    EdgeWrites Put Moved g₀ (g.enterInode inode d n) := by
  have hstored : EdgeWrites Put Moved g₀
      ({ g with nextInode := g.nextInode + 1 }.insertInode g.nextInode inode) :=
    h.other rfl rfl rfl
  exact hstored.enter hn rfl rfl rfl

theorem enterDir (h : EdgeWrites Put Moved g₀ g) {d : DirId} {n : String} (hn : Put d n)
    (hdot : Put g.nextDir ".") (hdotdot : Put g.nextDir "..") (inode : Inode) (di : InodeId) :
    EdgeWrites Put Moved g₀ (g.enterDir inode d di n) := by
  have hentry : EdgeWrites Put Moved g₀
      { g.addContains g.nextEdge d g.nextInode n with nextEdge := g.nextEdge + 1 } := h.enter hn rfl rfl rfl
  have hself : EdgeWrites Put Moved g₀
      { (g.addContains g.nextEdge d g.nextInode n).addContains (g.nextEdge + 1) g.nextDir g.nextInode "." with
        nextEdge := g.nextEdge + 1 + 1 } := hentry.enter hdot rfl rfl rfl
  exact hself.enter (t := di) hdotdot rfl rfl rfl

theorem dropXattr (h : EdgeWrites Put Moved g₀ g) (t : InodeId) (a : XAttrId) :
    EdgeWrites Put Moved g₀ (g.dropXattr t a) := by
  have herased : EdgeWrites Put Moved g₀
      ({ g with
          xattrs := g.xattrs.erase a
          inodeXattrs := SetIndex.drop g.inodeXattrs t a } : TypeGraph) := h.other rfl rfl rfl
  unfold TypeGraph.dropXattr
  dsimp only
  split
  · exact herased.remove _
  · exact herased

theorem purgeGrant {acc : List CapId × TypeGraph} (h : EdgeWrites Put Moved g₀ acc.2) (e : EdgeId) :
    EdgeWrites Put Moved g₀ (TypeGraph.purgeGrant acc e).2 := by
  have hremoved := h.remove e
  unfold TypeGraph.purgeGrant
  split
  · rename_i heq
    rw [heq] at hremoved
    exact hremoved.other rfl rfl rfl
  · rename_i heq
    rw [heq] at hremoved
    exact hremoved

theorem dropGrants (h : EdgeWrites Put Moved g₀ g) (t : InodeId) :
    EdgeWrites Put Moved g₀ (g.dropGrants t) := by
  have hpurged : ∀ (es : List EdgeId) (acc : List CapId × TypeGraph), EdgeWrites Put Moved g₀ acc.2 →
      EdgeWrites Put Moved g₀ (es.foldl TypeGraph.purgeGrant acc).2 := by
    intro es
    induction es with
    | nil => exact fun _ h => h
    | cons e es ih => exact fun _ h => ih _ (h.purgeGrant e)
  exact foldl (f := TypeGraph.removeCap) (fun _ h => h.other rfl rfl rfl) _
    (hpurged (g.grantsInto t) ([], g) h)

theorem grantEntry (h : EdgeWrites Put Moved g₀ g) (t : InodeId) (mask : Option Rights) (entry : AclEntry) :
    EdgeWrites Put Moved g₀ (TypeGraph.grantEntry t mask g entry) := by
  unfold TypeGraph.grantEntry
  split
  · exact h
  · dsimp only
    split
    · exact h
    · have hstored : EdgeWrites Put Moved g₀ ({ g with nextCap := g.nextCap + 1 }.insertCap g.nextCap
          ⟨g.nextCap, effectiveRights mask entry, 0⟩) := h.other rfl rfl rfl
      exact hstored.add (v := .grants g.nextEdge g.nextCap t (effectiveRights mask entry)) rfl rfl rfl rfl

end EdgeWrites

/-- A directory that is read is there. -/
theorem containsDir_of_get {g : TypeGraph} {d : DirId} {dir : Directory} (hdir : g.getDir d = some dir) :
    g.containsDir d = true := by
  rw [TypeGraph.getDir, Arena.get_eq_data] at hdir
  rw [TypeGraph.containsDir, Arena.contains_eq_isSome, hdir, Option.isSome_some]

/-- Every call is a sequence of edge writes, with the names that it enters and those that it renames. -/
theorem Op.edgeWrites {Put : DirId → String → Prop} {Moved : String → String → Prop} {now : Nat → Timestamp}
    {op : Op} {g : TypeGraph} (hputs : ∀ d n, op.Puts g d n → Put d n)
    (hmoved : ∀ d sn dn, op = .rename d sn d dn → g.Renames d sn d dn → Moved sn dn) :
    EdgeWrites Put Moved g (op.apply now g).2 := by
  have h : EdgeWrites Put Moved g g := .start
  cases op with
  | createFile d n u gr p =>
      rw [Op.apply, Prod.map_snd]
      rcases createFile_cases now d n u gr p g with
        ⟨o, _, heq⟩ | ⟨_, hn, _, hdir, _, heq⟩
      · rw [heq]
        exact h
      · rw [heq]
        exact (h.enterInode (hputs d n ⟨rfl, rfl, hn, hdir⟩) _).settle _ _ _ _ _ _ _
  | mkdir d n u gr p =>
      rw [Op.apply, Prod.map_snd]
      rcases mkdir_cases now d n u gr p g with
        ⟨o, _, heq⟩ | ⟨_, hn, _, _, parent, hdir, heq⟩
      · rw [heq]
        exact h
      · rw [heq]
        have hlive : g.containsDir d = true := containsDir_of_get hdir
        exact (h.enterDir (hputs d n (.inl ⟨rfl, rfl, hn, hlive⟩))
          (hputs g.nextDir "." (.inr ⟨rfl, .inl rfl⟩)) (hputs g.nextDir ".." (.inr ⟨rfl, .inr rfl⟩)) _ _).settle _ _ _ _ _ _ _
  | rmdir d n =>
      rw [Op.apply, Prod.map_snd]
      exact h.rmdir now d n
  | link d n t =>
      rw [Op.apply, Prod.map_snd]
      rcases link_cases now d n t g with
        ⟨o, _, heq⟩ | ⟨hcap, hn, hfree, i, hi, hkind, hmax, heq⟩
      · rw [heq]
        exact h
      · rw [heq]
        have hname := hputs d n ⟨rfl, rfl, hcap, hn, hfree, i, hi, hkind, hmax⟩
        exact h.enter (t := t) hname rfl rfl rfl
  | unlink d n =>
      rw [Op.apply, Prod.map_snd]
      exact h.unlink now d n
  | rename sd sn dd dn =>
      rw [Op.apply, Prod.map_snd]
      refine h.rename (fun hrenames => hputs dd dn ⟨rfl, rfl, hrenames⟩) fun hdir hrenames => ?_
      subst hdir
      exact hmoved sd sn dn rfl hrenames
  | symlink d n t u gr =>
      rw [Op.apply, Prod.map_snd]
      rcases symlink_cases now d n t u gr g with
        ⟨o, _, heq⟩ | ⟨_, hn, _, hdir, _, heq⟩
      · rw [heq]
        exact h
      · rw [heq]
        have hentered : EdgeWrites Put Moved g (g.enterSymlink (symlinkInode now g t u gr) d n t) :=
          (h.enterInode (hputs d n ⟨rfl, rfl, hn, hdir⟩) (symlinkInode now g t u gr)).other rfl rfl rfl
        exact hentered.settle _ _ _ _ _ _ _
  | writeBlock t o s c =>
      rw [Op.apply, Prod.map_snd]
      rcases writeBlock_cases t o s c g with
        ⟨o', _, heq⟩ | ⟨_, _, heq⟩
      · rw [heq]
        exact h
      · rw [heq]
        exact h.add (v := .pointsTo g.nextEdge t g.nextBlock o) rfl rfl rfl rfl
  | writeData t o b =>
      rw [Op.apply, Prod.map_snd]
      rcases writeData_cases now t o b g with
        ⟨e, heq⟩ | ⟨_, _, _, ⟨buf, heq⟩ | ⟨buf, heq⟩⟩
      · rw [heq]
        exact h
      · rw [heq]
        exact h.other rfl rfl rfl
      · rw [heq]
        exact h.other rfl rfl rfl
  | truncate t s =>
      rw [Op.apply, Prod.map_snd]
      rcases truncate_cases now t s g with
        ⟨e, heq⟩ | ⟨_, _, _, ⟨buf, heq⟩ | heq⟩
      · rw [heq]
        exact h
      · rw [heq]
        exact h.other rfl rfl rfl
      · rw [heq]
        exact h.other rfl rfl rfl
  | chmod t m =>
      rw [Op.apply, Prod.map_snd]
      rcases chmod_cases now t m g with ⟨o, _, heq⟩ | ⟨_, heq⟩
      · rw [heq]
        exact h
      · rw [heq]
        exact h.other rfl rfl rfl
  | chown t u gr =>
      rw [Op.apply, Prod.map_snd]
      rcases chown_cases now t u gr g with ⟨o, _, heq⟩ | ⟨_, heq⟩
      · rw [heq]
        exact h
      · rw [heq]
        exact h.other rfl rfl rfl
  | setxattr t ns n v =>
      rw [Op.apply, Prod.map_snd]
      rcases setxattr_cases now t ns n v g with
        ⟨o, _, heq⟩ | ⟨_, _, _, ⟨a, _, heq⟩ | ⟨_, heq⟩⟩
      · rw [heq]
        exact h
      · rw [heq]
        exact h.other rfl rfl rfl
      · rw [heq]
        exact h.add (v := .hasXattr g.nextEdge t g.nextXattr) rfl rfl rfl rfl
  | removexattr t ns n =>
      rw [Op.apply, Prod.map_snd]
      rcases removexattr_cases now t ns n g with
        ⟨o, _, heq⟩ | ⟨_, _, a, _, heq⟩
      · rw [heq]
        exact h
      · rw [heq]
        exact (h.dropXattr t a).other rfl rfl rfl
  | setacl t es =>
      rw [Op.apply, Prod.map_snd]
      rcases setacl_cases now t es g with
        ⟨o, _, heq⟩ | ⟨_, _, heq⟩
      · rw [heq]
        exact h
      · rw [heq]
        have hstored : EdgeWrites Put Moved g
            { g.dropGrants t with acls := (g.dropGrants t).acls.insert t es } :=
          (h.dropGrants t).other rfl rfl rfl
        have hgranted := EdgeWrites.foldl (fun entry h => h.grantEntry t (aclMask es) entry) es hstored
        exact hgranted.other rfl rfl rfl
  | setQuota d il bl =>
      rw [Op.apply, Prod.map_snd]
      rcases setQuota_cases d il bl g with ⟨o, _, heq⟩ | ⟨_, _, heq⟩
      · rw [heq]
        exact h
      · rw [heq]
        exact h.other rfl rfl rfl

/-! ### Labels -/

/-- `P` holds of the directory and the name of every stored edge and `Q` of every key of the name index. -/
structure LabelsWithin (P Q : DirId → String → Prop) (g : TypeGraph) : Prop where
  edges : ∀ {s id d t n}, g.edges.data s = some (.contains id d t n) → P d n
  index : ∀ {d n}, (d, n) ∈ g.dirNameIdx → Q d n

/-- What an arena holds after an insertion, accepted or refused. -/
theorem Arena.data_insertAt_or {T : Type} {CAPACITY : Nat} {a : Arena T CAPACITY} {id s : Nat} {v w : T}
    (h : (a.insertAt id v).2.data s = some w) : w = v ∨ a.data s = some w := by
  unfold Arena.insertAt at h
  split at h
  · exact .inr h
  · split at h
    · exact .inr h
    · change Function.update a.data id (some v) s = some w at h
      rw [Function.update_apply] at h
      split at h
      · exact .inl (Option.some.inj h).symm
      · exact .inr h

/-- What an arena holds after a removal. -/
theorem Arena.data_of_remove {T : Type} {CAPACITY : Nat} {a : Arena T CAPACITY} {id s : Nat} {w : T}
    (h : (a.remove id).2.data s = some w) : a.data s = some w := by
  rw [Arena.data_remove, Function.update_apply] at h
  split at h
  · cases h
  · exact h

/-- What an arena holds after a write in place. -/
theorem Arena.data_of_modify {T : Type} {CAPACITY : Nat} {a : Arena T CAPACITY} {id s : Nat} {f : T → T}
    {w : T} (h : (a.modify id f).data s = some w) : ∃ v, a.data s = some v ∧ (w = v ∨ w = f v) := by
  rw [Arena.data_modify, Function.update_apply] at h
  split at h
  · rename_i hs
    obtain ⟨v, hv, hw⟩ := Option.map_eq_some_iff.mp h
    exact ⟨v, by rw [hs, hv], .inr hw.symm⟩
  · exact ⟨w, h, .inl rfl⟩

namespace LabelsWithin

variable {P Q : DirId → String → Prop} {g g' : TypeGraph}

/-- Nothing but the edge pool and the name index matters. -/
theorem congr (h : LabelsWithin P Q g) (hedges : g'.edges = g.edges) (hindex : g'.dirNameIdx = g.dirNameIdx) :
    LabelsWithin P Q g' where
  edges hs := h.edges (hedges ▸ hs)
  index hk := h.index (hindex ▸ hk)

/-- An edge that is no name adds no name. -/
theorem insertEdge_other (h : LabelsWithin P Q g) {e : EdgeId} {v : Edge} (hv : v.entry = none) :
    LabelsWithin P Q (g.insertEdge e v) := by
  have heq : g.insertEdge e v = { g with edges := (g.edges.insertAt (idToArena e) v).2 } := by
    cases v with
    | contains => cases hv
    | _ => rfl
  rw [heq]
  refine ⟨?_, h.index⟩
  intro s id d t n hs
  rcases Arena.data_insertAt_or hs with hnew | hold
  · rw [← hnew] at hv
    cases hv
  · exact h.edges hold

theorem addContains (h : LabelsWithin P Q g) {d : DirId} {n : String} (hn : P d n ∧ Q d n) (e : EdgeId)
    (t : InodeId) : LabelsWithin P Q (g.addContains e d t n) := by
  refine ⟨?_, ?_⟩
  · intro s id d' t' m hs
    rcases Arena.data_insertAt_or (a := g.edges) hs with hnew | hold
    · cases hnew
      exact hn.1
    · exact h.edges hold
  · intro d' m hk
    change (d', m) ∈ g.dirNameIdx.insert (d, n) e at hk
    rcases ExtTreeMap.mem_insert.mp hk with hcmp | hold
    · cases Std.LawfulEqCmp.eq_of_compare hcmp
      exact hn.2
    · exact h.index hold

theorem removeEdge (h : LabelsWithin P Q g) (e : EdgeId) : LabelsWithin P Q (g.removeEdge e).2 := by
  have hedges : ∀ {s id d t n}, (g.edges.remove (idToArena e)).2.data s = some (.contains id d t n) → P d n :=
    fun hs => h.edges (Arena.data_of_remove hs)
  unfold TypeGraph.removeEdge
  dsimp only
  split
  · exact h
  · refine ⟨hedges, ?_⟩
    intro d' m hk
    exact h.index (ExtTreeMap.mem_of_mem_erase hk)
  · exact ⟨hedges, h.index⟩

/-- A write to an edge that keeps its directory and its name. -/
theorem modifyEdge (h : LabelsWithin P Q g) (e : EdgeId) {f : Edge → Edge}
    (hf : ∀ v id d t n, f v = .contains id d t n → ∃ id' t', v = .contains id' d t' n) :
    LabelsWithin P Q (g.modifyEdge e f) := by
  refine ⟨?_, h.index⟩
  intro s id d t n hs
  obtain ⟨v, hv, rfl | hw⟩ := Arena.data_of_modify (a := g.edges) hs
  · exact h.edges hv
  · obtain ⟨id', t', rfl⟩ := hf v id d t n hw.symm
    exact h.edges hv

/-- A name changes in the directory that its edge says. -/
theorem renameContainsEdge (h : LabelsWithin P Q g) {n : String} {e : EdgeId}
    (hn : ∀ id d t old, g.getEdge e = some (.contains id d t old) → P d n ∧ Q d n) :
    LabelsWithin P Q (g.renameContainsEdge e n).2 := by
  unfold TypeGraph.renameContainsEdge
  split
  · rename_i id src tgt old hget
    split
    · exact h
    · refine ⟨?_, ?_⟩
      · intro s id' d t m hs
        change (Function.update _ _ _ : Nat → Option Edge) s = _ at hs
        rw [Function.update_apply] at hs
        split at hs
        · rw [TypeGraph.getEdge, Arena.get_eq_data] at hget
          rw [hget] at hs
          cases hs
          exact (hn _ _ _ old (by rw [TypeGraph.getEdge, Arena.get_eq_data, hget])).1
        · exact h.edges hs
      · intro d m hk
        change (d, m) ∈ (g.dirNameIdx.erase (src, old)).insert (src, n) e at hk
        rcases ExtTreeMap.mem_insert.mp hk with hcmp | hold
        · cases Std.LawfulEqCmp.eq_of_compare hcmp
          exact (hn id src tgt old hget).2
        · exact h.index (ExtTreeMap.mem_of_mem_erase hold)
  · exact h

end LabelsWithin

/-- Writes keep the labels within what holds of the names entered and carries over from an old name to a new
    one. -/
theorem EdgeWrites.labelsWithin {P Q : DirId → String → Prop} {Put : DirId → String → Prop}
    {Moved : String → String → Prop} {g₀ g : TypeGraph} (hwrites : EdgeWrites Put Moved g₀ g)
    (h : LabelsWithin P Q g₀) (hputs : ∀ d n, Put d n → P d n ∧ Q d n)
    (hrenamed : ∀ sn dn, Moved sn dn → ∀ d, P d sn → P d dn ∧ Q d dn) : LabelsWithin P Q g := by
  induction hwrites with
  | start => exact h
  | other _ hedges hindex _ ih => exact ih.congr hedges hindex
  | @add g g' v _ hv hedges hindex _ ih =>
      refine ⟨fun hs => ?_, fun hk => ih.index (hindex ▸ hk)⟩
      rw [hedges] at hs
      exact (ih.insertEdge_other hv).edges hs
  | enter _ hput hedges hindex _ ih => exact (ih.addContains (hputs _ _ hput) _ _).congr hedges hindex
  | remove e _ ih => exact ih.removeEdge e
  | retarget e i _ ih =>
      refine ih.modifyEdge e fun v id d t n hv => ?_
      cases v with
      | contains id' d' t' n' =>
          cases hv
          exact ⟨_, t', rfl⟩
      | _ => cases hv
  | relabel e n _ hmoved ih =>
      refine ih.renameContainsEdge fun id d t old hget => ?_
      have hname := hmoved id d t old hget
      rw [TypeGraph.getEdge, Arena.get_eq_data] at hget
      exact hrenamed old n hname d (ih.edges hget)

/-- Every call keeps the stored entries and the keys of the index within the conditions that hold of what it
    enters, and that carry over from an old name to a new one. -/
theorem Op.labelsWithin {P Q : DirId → String → Prop} {now : Nat → Timestamp} {op : Op} {g : TypeGraph}
    (h : LabelsWithin P Q g) (hputs : ∀ d n, op.Puts g d n → P d n ∧ Q d n)
    (hrenamed : ∀ d sn dn, op = .rename d sn d dn → g.Renames d sn d dn →
      ∀ d', P d' sn → P d' dn ∧ Q d' dn) : LabelsWithin P Q (op.apply now g).2 :=
  have hwrites : EdgeWrites (fun d n => P d n ∧ Q d n) (fun sn dn => ∀ d', P d' sn → P d' dn ∧ Q d' dn) g
      (op.apply now g).2 := op.edgeWrites hputs hrenamed
  hwrites.labelsWithin h (fun _ _ => id) fun _ _ => id

end SotFs
