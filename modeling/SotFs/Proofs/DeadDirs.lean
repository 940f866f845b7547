/-
Module: SotFs.Proofs.DeadDirs
Layer: Proofs
Purpose: Directory arguments that name no live directory. Along every run, with the pools full or not, user
  names are stored under live directories only, as long as no call has entered one under a dead id; lookups
  under a dead id then find nothing, and what is left to stop a call are the checks it makes itself. unlink and
  rmdir always notice; create, mkdir, symlink and set_quota notice unless the slot of the id is another
  directory's; link and the destination of rename are not looked at.
Trusted boundary: none
Main exports: Op.Refused, Op.NoticesDead, Homed, dead_dirs_refused_iff, dead_dirs_accepted
-/
import SotFs.Proofs.EntryLabels
import SotFs.Proofs.EntryOrder
import SotFs.Proofs.Slots

namespace SotFs

open Std (ExtTreeMap ExtTreeSet)
open Foundation

/-- The call fails with an error and changes nothing. -/
def Op.Refused (now : Nat → Timestamp) (g : TypeGraph) (op : Op) : Prop :=
  (∃ e, (op.apply now g).1 = .err e) ∧ (op.apply now g).2 = g

/-- A check of a call stops it though its directory is dead: of create, mkdir and symlink one that they share,
    of set_quota and the two that remove one of theirs, and of link and rename one that is about something
    else. -/
def Op.NoticesDead (g : TypeGraph) : Op → Prop
  | .createFile d n .. | .mkdir d n .. | .symlink d n .. =>
      g.requireCap Rights.write ≠ .ok () ∨ invalidName n = true ∨ g.containsDir d = false ∨
        ∃ e, g.checkQuotaInode d = .err e
  | .setQuota d .. => g.requireCap Rights.grant ≠ .ok () ∨ g.containsDir d = false
  | .link d n t => ¬ g.CanLink d n t
  | .rename sd sn dd dn => ¬ g.Renames sd sn dd dn
  | _ => True

/-! ### Where user names are stored -/

/-- Directories carry their own ids, and every user name is stored under a live one. -/
structure Homed (g : TypeGraph) : Prop where
  ids : ∀ {s dir}, g.dirs.data s = some dir → dir.id = s
  next : g.nextDir ≤ g.nextEdge
  issued : ∀ {i d}, g.dirForInode i = some d → d < g.nextDir
  homes : ∀ {e d t n}, g.entries e = some (d, t, n) → UserName n → g.LiveDir d

/-- A directory with a user name. -/
def TypeGraph.HoldsName (g : TypeGraph) (d : DirId) : Prop :=
  ∃ e t n, g.entries e = some (d, t, n) ∧ UserName n

/-- How a call that makes no directory changes the tables of directories: it takes out at most one, an empty one
    that a user name of `p` leads to. -/
structure DirsFrom (p : DirId) (g g' : TypeGraph) : Prop where
  nextDir : g'.nextDir = g.nextDir
  index : ∀ {i d}, g'.dirForInode i = some d → g.dirForInode i = some d
  dirs : g'.dirs = g.dirs ∨ ∃ i n td, g.resolveName p n = some i ∧ UserName n ∧ g.dirForInode i = some td ∧
    g.dirNotEmpty td = false ∧ g'.dirs = (g.dirs.remove (idToArena td)).2

namespace DirsFrom

variable {p : DirId} {g g' : TypeGraph} {now : Nat → Timestamp}

theorem of_eq (hnext : g'.nextDir = g.nextDir) (hindex : g'.dirForInodeIdx = g.dirForInodeIdx)
    (hdirs : g'.dirs = g.dirs) : DirsFrom p g g' where
  nextDir := hnext
  index hi := by rwa [TypeGraph.dirForInode, hindex] at hi
  dirs := .inl hdirs

theorem refl (g : TypeGraph) : DirsFrom p g g := .of_eq rfl rfl rfl

/-- More that leaves the tables alone. -/
theorem congr {g'' : TypeGraph} (h : DirsFrom p g g') (hnext : g''.nextDir = g'.nextDir)
    (hindex : g''.dirForInodeIdx = g'.dirForInodeIdx) (hdirs : g''.dirs = g'.dirs) : DirsFrom p g g'' where
  nextDir := hnext.trans h.nextDir
  index hi := h.index (by rwa [TypeGraph.dirForInode, hindex] at hi)
  dirs := by
    rw [hdirs]
    exact h.dirs

theorem settle {α : Type} (h : DirsFrom p g g') (d : DirId) (delta : Int) (now : Timestamp) (op : ProvOp)
    (t : InodeId) (detail : String) (value : α) : DirsFrom p g (g'.settle d delta now op t detail value).2 := by
  obtain ⟨_, _, heq⟩ := settle_snd g' d delta now op t detail value
  rw [heq]
  exact h.congr rfl rfl rfl

theorem dropDir {n : String} {ti : InodeId} {td : DirId} (hti : g.resolveName p n = some ti) (hn : UserName n)
    (htd : g.dirForInode ti = some td) (hempty : g.dirNotEmpty td = false) :
    DirsFrom p g (g.dropDir p n ti td) := by
  obtain ⟨_, _, _, _, hdetached⟩ := foldl_detachContains_frame (g.rmdirEdges p n ti td) (g := g)
  unfold TypeGraph.dropDir TypeGraph.removeDir
  rw [hdetached]
  dsimp only
  split
  · refine ⟨rfl, fun {j d} hget => ?_, .inr ⟨ti, n, td, hti, hn, htd, hempty, rfl⟩⟩
    change (g.dirForInodeIdx.erase _)[j]? = some d at hget
    rw [ExtTreeMap.getElem?_erase] at hget
    split at hget
    · cases hget
    · exact hget
  · exact ⟨rfl, fun hget => hget, .inr ⟨ti, n, td, hti, hn, htd, hempty, rfl⟩⟩

theorem rmdir (d : DirId) (n : String) : DirsFrom d g (SotFs.rmdir now d n g).2 := by
  rcases rmdir_cases now d n g with
    ⟨o, _, heq⟩ | ⟨_, hn, ti, td, _, hti, _, _, htd, hempty, heq⟩ <;> rw [heq]
  · exact .refl g
  · exact (dropDir hti hn htd hempty).settle _ _ _ _ _ _ _

theorem unlink (d : DirId) (n : String) : DirsFrom p g (SotFs.unlink now d n g).2 := by
  rcases unlink_cases now d n g with
    ⟨o, _, heq⟩ | ⟨_, _, _, e, t, m, _, _, _, _, ⟨_, heq⟩ | ⟨_, heq⟩⟩ <;> rw [heq]
  · exact .refl g
  · obtain ⟨_, _, _, _, hframe⟩ := dropName_frame (g := g) e d t
    rw [hframe]
    exact .of_eq rfl rfl rfl
  · have hdropped : DirsFrom p g (g.dropLastName e d t) := by
      obtain ⟨_, _, _, _, _, hframe⟩ := dropLastName_frame (g := g) e d t
      rw [hframe]
      exact .of_eq rfl rfl rfl
    exact hdropped.settle _ _ _ _ _ _ _

/-- A rename takes out what its destination was, and no more. -/
theorem rename (sd : DirId) (sn : String) (dd : DirId) (dn : String) :
    DirsFrom dd g (SotFs.rename now sd sn dd dn g).2 := by
  exact rename_keeps_frame (P := DirsFrom dd g) (.refl g) (rmdir dd dn) (unlink dd dn)
    fun _ _ _ _ _ _ h => h.congr rfl rfl rfl

end DirsFrom

/-- A call other than mkdir takes out at most a directory that is listed where the call enters its name. -/
theorem Op.dirsFrom (now : Nat → Timestamp) (g : TypeGraph) {op : Op}
    (hop : ∀ d n u gr p, op ≠ .mkdir d n u gr p) :
    ∃ p, (∀ d n, op.Puts g d n → d = p) ∧ DirsFrom p g (op.apply now g).2 := by
  cases op with
  | mkdir d n u gr p => exact absurd rfl (hop d n u gr p)
  | rmdir d n => exact ⟨d, fun _ _ h => h.elim, .rmdir d n⟩
  | unlink d n => exact ⟨d, fun _ _ h => h.elim, .unlink d n⟩
  | rename sd sn dd dn => exact ⟨dd, fun _ _ h => h.1, .rename sd sn dd dn⟩
  | createFile d n u gr p =>
      refine ⟨d, fun _ _ h => h.1, ?_⟩
      rw [Op.apply, Prod.map_snd]
      rcases createFile_cases now d n u gr p g with
        ⟨o, _, heq⟩ | ⟨_, _, _, _, _, heq⟩ <;> rw [heq]
      · exact .refl g
      · have hentered : DirsFrom d g (g.enterInode (createdInode now g u gr p) d n) := .of_eq rfl rfl rfl
        exact hentered.settle _ _ _ _ _ _ _
  | symlink d n target u gr =>
      refine ⟨d, fun _ _ h => h.1, ?_⟩
      rw [Op.apply, Prod.map_snd]
      rcases symlink_cases now d n target u gr g with
        ⟨o, _, heq⟩ | ⟨_, _, _, _, _, heq⟩ <;> rw [heq]
      · exact .refl g
      · have hentered : DirsFrom d g (g.enterSymlink (symlinkInode now g target u gr) d n target) :=
          .of_eq rfl rfl rfl
        exact hentered.settle _ _ _ _ _ _ _
  | link d n t =>
      refine ⟨d, fun _ _ h => h.1, ?_⟩
      rw [Op.apply, Prod.map_snd]
      rcases link_cases now d n t g with
        ⟨o, _, heq⟩ | ⟨_, _, _, _, _, _, _, heq⟩ <;> rw [heq] <;> exact .of_eq rfl rfl rfl
  | writeBlock t offset start count =>
      refine ⟨0, fun _ _ h => h.elim, ?_⟩
      rw [Op.apply, Prod.map_snd]
      rcases writeBlock_cases t offset start count g with ⟨o, _, heq⟩ | ⟨_, _, heq⟩ <;> rw [heq] <;> exact .of_eq rfl rfl rfl
  | writeData t offset data =>
      refine ⟨0, fun _ _ h => h.elim, ?_⟩
      rw [Op.apply, Prod.map_snd]
      rcases writeData_cases now t offset data g with
        ⟨e, heq⟩ | ⟨_, _, _, ⟨buf, heq⟩ | ⟨buf, heq⟩⟩ <;> rw [heq] <;> exact .of_eq rfl rfl rfl
  | truncate t newSize =>
      refine ⟨0, fun _ _ h => h.elim, ?_⟩
      rw [Op.apply, Prod.map_snd]
      rcases truncate_cases now t newSize g with
        ⟨e, heq⟩ | ⟨_, _, _, ⟨buf, heq⟩ | heq⟩ <;> rw [heq] <;> exact .of_eq rfl rfl rfl
  | chmod t mode =>
      refine ⟨0, fun _ _ h => h.elim, ?_⟩
      rw [Op.apply, Prod.map_snd]
      rcases chmod_cases now t mode g with ⟨o, _, heq⟩ | ⟨_, heq⟩ <;>
        rw [heq] <;> exact .of_eq rfl rfl rfl
  | chown t u gr =>
      refine ⟨0, fun _ _ h => h.elim, ?_⟩
      rw [Op.apply, Prod.map_snd]
      rcases chown_cases now t u gr g with ⟨o, _, heq⟩ | ⟨_, heq⟩ <;>
        rw [heq] <;> exact .of_eq rfl rfl rfl
  | setxattr t ns name value =>
      refine ⟨0, fun _ _ h => h.elim, ?_⟩
      rw [Op.apply, Prod.map_snd]
      rcases setxattr_cases now t ns name value g with
        ⟨o, _, heq⟩ | ⟨_, _, _, ⟨a, _, heq⟩ | ⟨_, heq⟩⟩ <;> rw [heq] <;> exact .of_eq rfl rfl rfl
  | removexattr t ns name =>
      refine ⟨0, fun _ _ h => h.elim, ?_⟩
      rw [Op.apply, Prod.map_snd]
      rcases removexattr_cases now t ns name g with
        ⟨o, _, heq⟩ | ⟨_, _, a, _, heq⟩ <;> rw [heq]
      · exact .refl g
      · obtain ⟨_, _, hframe⟩ := dropXattr_frame (g := g) t a
        rw [hframe]
        exact .of_eq rfl rfl rfl
  | setacl t entries =>
      refine ⟨0, fun _ _ h => h.elim, ?_⟩
      rw [Op.apply, Prod.map_snd]
      rcases setacl_cases now t entries g with ⟨o, _, heq⟩ | ⟨_, _, heq⟩ <;>
        rw [heq]
      · exact .refl g
      · obtain ⟨_, _, _, _, _, _, hgranted⟩ := replaceGrants_frame (g := g) t entries
        rw [hgranted]
        exact .of_eq rfl rfl rfl
  | setQuota d il bl =>
      refine ⟨0, fun _ _ h => h.elim, ?_⟩
      rw [Op.apply, Prod.map_snd]
      rcases setQuota_cases d il bl g with ⟨o, _, heq⟩ | ⟨_, _, heq⟩ <;>
        rw [heq] <;> exact .of_eq rfl rfl rfl

namespace Homed

variable {now : Nat → Timestamp} {g g' : TypeGraph} {op : Op}

theorem new (t : Timestamp) : Homed (.new t) where
  ids hs := (Inv.new t).dirIds.id_eq hs
  next := le_refl 2
  issued hi := by
    obtain ⟨dir, hdir, _⟩ := Arena.view_eq_some.mp ((Inv.new t).dirForInode_iff.mp hi)
    exact (Inv.new t).dirIds.lt_next hdir
  homes he _ := (Inv.new t).liveDir_iff.mpr ((Inv.new t).shape.src_live he)

/-- Nothing but the directories, their index and the entries matters. -/
theorem congr (h : Homed g) (hdirs : g'.dirs = g.dirs) (hindex : g'.dirForInodeIdx = g.dirForInodeIdx)
    (hedges : g'.edges = g.edges) (hnextDir : g'.nextDir = g.nextDir) (hnextEdge : g'.nextEdge = g.nextEdge) :
    Homed g' where
  ids hs := h.ids (hdirs ▸ hs)
  next := by rw [hnextDir, hnextEdge]; exact h.next
  issued hi := by
    rw [TypeGraph.dirForInode, hindex] at hi
    rw [hnextDir]
    exact h.issued hi
  homes he hn := by
    rw [TypeGraph.entries, hedges] at he
    obtain ⟨dir, hdir, hid⟩ := h.homes he hn
    exact ⟨dir, by rwa [TypeGraph.getDir, hdirs], hid⟩

/-- A live directory stays live when another one is taken out. -/
theorem liveDir_remove (h : Homed g) {d td : DirId} (htd : idToArena td = td) (hne : d ≠ td)
    (hdirs : g'.dirs = (g.dirs.remove (idToArena td)).2) (hlive : g.LiveDir d) : g'.LiveDir d := by
  obtain ⟨dir, hdir, hid⟩ := hlive
  rw [TypeGraph.getDir, Arena.get_eq_data] at hdir
  have hslot : idToArena d = d := (h.ids hdir).symm.trans hid
  refine ⟨dir, ?_, hid⟩
  rw [TypeGraph.getDir, Arena.get_eq_data, hdirs, Arena.data_remove, Function.update_of_ne]
  · exact hdir
  · rw [hslot, htd]
    exact hne

/-- A directory that the search finds empty has no user name. -/
theorem not_holds_of_empty {next : Nat} (hfiled : Filed next g) {td : DirId}
    (hempty : g.dirNotEmpty td = false) :
    ¬ g.HoldsName td := by
  rintro ⟨e, t, n, he, hn⟩
  rw [TypeGraph.dirNotEmpty, List.any_eq_false] at hempty
  exact hempty (e, t, n) (hfiled.mem_dirEntries.mpr he) (by simpa [UserName] using hn)

/-- The slot of a directory that has been issued is its own. -/
theorem slot (h : Homed g) (hle : g.nextEdge ≤ 2 ^ 32) {i : InodeId} {d : DirId}
    (hi : g.dirForInode i = some d) : idToArena d = d :=
  idToArena_of_lt (lt_of_lt_of_le (h.issued hi) (h.next.trans hle))

/-- A call other than mkdir, on live directories. -/
theorem keep (h : Homed g) (hfiled : Filed g.nextEdge g) (hlive : op.LiveDirs g)
    (hop : ∀ d n u gr p, op ≠ .mkdir d n u gr p) (hle : (op.apply now g).2.nextEdge ≤ 2 ^ 32) :
    Homed (op.apply now g).2 := by
  obtain ⟨p, hputs, hfrom⟩ := op.dirsFrom now g hop
  have hedges := (op.grown now g hle).nextEdge
  -- A name that is there afterwards is an old one or is entered in `p`.
  have hlabels : LabelsWithin (fun d n => UserName n → g.LiveDir d ∧ (g.HoldsName d ∨ d = p)) (fun _ _ => True)
      (op.apply now g).2 := by
    refine Op.labelsWithin ⟨?_, fun _ => trivial⟩ ?_ ?_
    · intro s id d t n hs hn
      have he : g.entries s = some (d, t, n) := TypeGraph.entries_data.mpr ⟨id, hs⟩
      exact ⟨h.homes he hn, .inl ⟨s, t, n, he, hn⟩⟩
    · intro d n hput
      refine ⟨fun _ => ?_, trivial⟩
      have hd := hputs d n hput
      refine ⟨hlive d ?_, .inr hd⟩
      cases op with
      | createFile | symlink | link => simpa [Op.dirs] using hput.1
      | rename => simpa [Op.dirs] using .inr hput.1
      | mkdir d' n' u gr p' => exact absurd rfl (hop d' n' u gr p')
      | _ => exact hput.elim
    · rintro d sn dn - ⟨_, hsn, _⟩ d' hd'
      exact ⟨fun _ => hd' hsn, trivial⟩
  refine ⟨?_, ?_, ?_, ?_⟩
  · intro s dir hs
    rcases hfrom.dirs with hdirs | ⟨_, _, _, _, _, _, _, hdirs⟩
    · exact h.ids (hdirs ▸ hs)
    · exact h.ids (Arena.data_of_remove (hdirs ▸ hs))
  · rw [hfrom.nextDir]
    exact h.next.trans hedges
  · intro i d hi
    rw [hfrom.nextDir]
    exact h.issued (hfrom.index hi)
  · intro e d t n he hn
    obtain ⟨eid, hdata⟩ := TypeGraph.entries_data.mp he
    obtain ⟨hd, hheld⟩ := hlabels.edges hdata hn
    rcases hfrom.dirs with hdirs | ⟨i, m, td, hi, hm, htd, hempty, hdirs⟩
    · obtain ⟨dir, hdir, hid⟩ := hd
      exact ⟨dir, by rwa [TypeGraph.getDir, hdirs], hid⟩
    · -- The one that goes is empty, and `p` lists it.
      have htd_empty := not_holds_of_empty hfiled hempty
      have hp : g.HoldsName p := by
        obtain ⟨e', he'⟩ := hfiled.resolveName_iff.mp hi
        exact ⟨e', i, m, he', hm⟩
      have hne : d ≠ td := by
        rintro rfl
        exact htd_empty (hheld.elim id fun heq => heq ▸ hp)
      exact h.liveDir_remove (h.slot (hedges.trans hle) htd) hne hdirs hd

/-- mkdir makes the directory of the next id, unless the pool is full. -/
theorem mkdir (h : Homed g) {d : DirId} {n : String} {u gr : UInt32} {p : Permissions}
    (hlive : (Op.mkdir d n u gr p).LiveDirs g)
    (hle : ((Op.mkdir d n u gr p).apply now g).2.nextEdge ≤ 2 ^ 32) :
    Homed ((Op.mkdir d n u gr p).apply now g).2 := by
  have hedges := ((Op.mkdir d n u gr p).grown now g hle).nextEdge
  have hlabels : LabelsWithin (fun d n => UserName n → g.LiveDir d) (fun _ _ => True)
      ((Op.mkdir d n u gr p).apply now g).2 := by
    refine Op.labelsWithin ⟨?_, fun _ => trivial⟩ ?_ ?_
    · intro s id d t n hs hn
      exact h.homes (TypeGraph.entries_data.mpr ⟨id, hs⟩) hn
    · rintro d' m (⟨rfl, _⟩ | ⟨_, hdot⟩)
      · exact ⟨fun _ => hlive d' (by simp [Op.dirs]), trivial⟩
      · exact ⟨fun hm => absurd hdot (not_or.mpr hm), trivial⟩
    · rintro _ _ _ ⟨⟩
  rw [Op.apply, Prod.map_snd, id] at hlabels hedges hle ⊢
  rcases mkdir_cases now d n u gr p g with
    ⟨o, _, heq⟩ | ⟨_, _, _, _, parent, _, heq⟩
  · rw [heq]
    exact h
  · obtain ⟨_, _, hframe⟩ := settle_snd (g.enterDir (madeDirInode now g u gr p) d parent.inodeId n) d 1 (now 1)
      .mkdir g.nextInode n (⟨g.nextInode, some g.nextDir⟩ : CreateResult)
    rw [heq, hframe] at hlabels hedges hle ⊢
    have hslot : idToArena g.nextDir = g.nextDir :=
      idToArena_of_lt (lt_of_le_of_lt h.next (lt_of_lt_of_le (Nat.lt_add_of_pos_right (by decide : 0 < 3)) hle))
    refine ⟨?_, ?_, ?_, ?_⟩
    · intro s dir hs
      rcases (g.dirs).insertAt_cases (idToArena g.nextDir) ⟨g.nextDir, g.nextInode⟩ with
        ⟨_, _, hdata, _⟩ | ⟨_, hsame⟩
      · change (g.dirs.insertAt _ _).2.data s = some dir at hs
        rw [hdata, Function.update_apply] at hs
        split at hs
        · rename_i hat
          cases hs
          exact (hat.trans hslot).symm
        · exact h.ids hs
      · change (g.dirs.insertAt _ _).2.data s = some dir at hs
        rw [hsame] at hs
        exact h.ids hs
    · exact (Nat.succ_le_succ h.next).trans (Nat.le_add_right _ 2)
    · intro i d' hi
      change (g.dirForInodeIdx.insert g.nextInode g.nextDir)[i]? = some d' at hi
      rw [ExtTreeMap.getElem?_insert] at hi
      split at hi
      · cases hi
        exact Nat.lt_succ_self _
      · exact lt_trans (h.issued hi) (Nat.lt_succ_self _)
    · intro e d' t m he hm
      obtain ⟨eid, hdata⟩ := TypeGraph.entries_data.mp he
      obtain ⟨dir, hdir, hid⟩ := hlabels.edges hdata hm
      refine ⟨dir, ?_, hid⟩
      rw [TypeGraph.getDir, Arena.get_eq_data] at hdir ⊢
      change (g.dirs.insertAt _ _).2.data _ = some dir
      rcases (g.dirs).insertAt_cases (idToArena g.nextDir) ⟨g.nextDir, g.nextInode⟩ with
        ⟨hvacant, _, hstored, _⟩ | ⟨_, hsame⟩
      · rw [hstored, Function.update_of_ne]
        · exact hdir
        · intro hat
          rw [hat, hvacant] at hdir
          cases hdir
      · rw [hsame]
        exact hdir

theorem step (h : Homed g) (hfiled : Filed g.nextEdge g) (hlive : op.LiveDirs g)
    (hle : (op.apply now g).2.nextEdge ≤ 2 ^ 32) : Homed (op.apply now g).2 := by
  by_cases hop : ∀ d n u gr p, op ≠ .mkdir d n u gr p
  · exact h.keep hfiled hlive hop hle
  · push Not at hop
    obtain ⟨d, n, u, gr, p, rfl⟩ := hop
    exact h.mkdir hlive hle

/-- A dead directory holds no user name. -/
theorem resolveName_dead (h : Homed g) {next : Nat} (hfiled : Filed next g) {d : DirId} (hd : ¬ g.LiveDir d)
    {n : String} (hn : UserName n) : g.resolveName d n = none := by
  rw [Option.eq_none_iff_forall_ne_some]
  intro t ht
  obtain ⟨e, he⟩ := hfiled.resolveName_iff.mp ht
  exact hd (h.homes he hn)

end Homed

/-! ### Calls with a dead directory -/

section Dead

variable {now : Nat → Timestamp} {g : TypeGraph} {d : DirId} {n : String}

/-- A call is refused when the function behind it is. -/
theorem refused_map {α : Type} {r : Outcome α × TypeGraph} (f : α → Reply) :
    ((∃ e, (r.map (Outcome.map f) id).1 = .err e) ∧ (r.map (Outcome.map f) id).2 = g) ↔
      (∃ e, r.1 = .err e) ∧ r.2 = g := by
  obtain ⟨o, g'⟩ := r
  cases o <;> simp [Outcome.map]

/-- The checks that create_file, mkdir and symlink share stop a call, unless only the name is taken. -/
theorem checked_refused_iff {α : Type} {made : Outcome α × TypeGraph} (hmade : ∀ e, made.1 ≠ .err e)
    (hfree : UserName n → g.resolveName d n = none) :
    ((∃ e, (g.checked d n made).1 = .err e) ∧ (g.checked d n made).2 = g) ↔
      g.requireCap Rights.write ≠ .ok () ∨ invalidName n = true ∨ g.containsDir d = false ∨
        ∃ e, g.checkQuotaInode d = .err e := by
  unfold TypeGraph.checked
  cases hcap : g.requireCap Rights.write with
  | error e => simp
  | ok _ =>
      cases hvalid : invalidName n with
      | true => simp
      | false =>
          rw [hfree (userName_of_valid hvalid)]
          cases hdir : g.containsDir d with
          | false => simp
          | true =>
              cases hquota : g.checkQuotaInode d with
              | err e => simp
              | panic | diverges => simp
              | ok _ => simp [hmade]

theorem createFile_refused_iff {u gr : UInt32} {p : Permissions}
    (hfree : UserName n → g.resolveName d n = none) :
    (Op.createFile d n u gr p).Refused now g ↔ (Op.createFile d n u gr p).NoticesDead g := by
  rw [Op.Refused, Op.apply, refused_map, Op.NoticesDead, createFile_eq_checked]
  exact checked_refused_iff settle_ne_err hfree

theorem mkdir_refused_iff {u gr : UInt32} {p : Permissions}
    (hfree : UserName n → g.resolveName d n = none) :
    (Op.mkdir d n u gr p).Refused now g ↔ (Op.mkdir d n u gr p).NoticesDead g := by
  rw [Op.Refused, Op.apply, refused_map, Op.NoticesDead, mkdir_eq_checked]
  exact checked_refused_iff settle_ne_err hfree

theorem symlink_refused_iff {target : String} {u gr : UInt32}
    (hfree : UserName n → g.resolveName d n = none) :
    (Op.symlink d n target u gr).Refused now g ↔ (Op.symlink d n target u gr).NoticesDead g := by
  rw [Op.Refused, Op.apply, refused_map, Op.NoticesDead, symlink_eq_checked]
  exact checked_refused_iff settle_ne_err hfree

theorem setQuota_refused_iff {il bl : Nat} :
    (Op.setQuota d il bl).Refused now g ↔ (Op.setQuota d il bl).NoticesDead g := by
  rw [Op.Refused, Op.apply, refused_map, Op.NoticesDead]
  unfold setQuota
  cases hcap : g.requireCap Rights.grant with
  | error e => simp
  | ok _ => cases hdir : g.containsDir d <;> simp

theorem link_refused_iff {t : InodeId} :
    (Op.link d n t).Refused now g ↔ (Op.link d n t).NoticesDead g := by
  rw [Op.Refused, Op.apply, refused_map, Op.NoticesDead]
  unfold link TypeGraph.CanLink
  cases hcap : g.requireCap Rights.write with
  | error e => simp
  | ok _ =>
      by_cases hn : n = "." ∨ n = ".."
      · simp [hn, UserName, ← not_or]
      · have huser : UserName n := not_or.mp hn
        cases hres : g.resolveName d n with
        | some _ => simp [hn]
        | none =>
            cases hi : g.getInode t with
            | none => simp [hn]
            | some inode =>
                by_cases hkind : inode.vtype = .directory
                · simp [hn, hkind]
                · by_cases hmax : LINK_MAX ≤ inode.linkCount
                  · simp [hn, hkind, hmax]
                  · simp [hn, hkind, hmax, huser, not_le.mp hmax]

/-- Nothing is found in a dead directory, so nothing is taken from it. -/
theorem unlink_refused (h : Homed g) {next : Nat} (hfiled : Filed next g) (hd : ¬ g.LiveDir d) :
    (Op.unlink d n).Refused now g := by
  rw [Op.Refused, Op.apply, refused_map]
  unfold unlink
  cases hcap : g.requireCap Rights.write with
  | error e => simp
  | ok _ =>
      by_cases hn : n = "." ∨ n = ".."
      · simp [hn]
      · have hnone : ((g.dirEntries d).find? fun entry => entry.2.2 = n) = none := by
          rw [List.find?_eq_none]
          rintro ⟨e, t, m⟩ hmem hm
          have hm : m = n := by simpa using hm
          exact hd (h.homes (hfiled.mem_dirEntries.mp hmem) (hm ▸ not_or.mp hn))
        simp only [hn, if_false, hnone]
        split <;> simp

theorem rmdir_refused (hfree : UserName n → g.resolveName d n = none) : (Op.rmdir d n).Refused now g := by
  rw [Op.Refused, Op.apply, refused_map]
  unfold rmdir
  cases hcap : g.requireCap Rights.write with
  | error e => simp
  | ok _ =>
      by_cases hn : n = "." ∨ n = ".."
      · simp [hn]
      · simp [hn, hfree (not_or.mp hn)]

/-- A rename that is not stopped before it looks at its destination moves into a dead directory. -/
theorem rename_refused_iff (h : Homed g) {next : Nat} (hfiled : Filed next g) {sd dd : DirId} {sn dn : String}
    (hdead : ¬ (g.LiveDir sd ∧ g.LiveDir dd)) :
    (Op.rename sd sn dd dn).Refused now g ↔ (Op.rename sd sn dd dn).NoticesDead g := by
  rw [Op.Refused, Op.apply, refused_map, Op.NoticesDead, TypeGraph.Renames]
  unfold rename
  cases hcap : g.requireCap Rights.write with
  | error e => simp
  | ok _ =>
      by_cases hnames : sn = "." ∨ sn = ".." ∨ dn = "." ∨ dn = ".."
      · simp only [hnames, if_true]
        simp only [Outcome.err.injEq, exists_eq', and_true, true_iff, not_and]
        rintro - ⟨hs₁, hs₂⟩ ⟨hd₁, hd₂⟩
        exact absurd hnames (by simp [hs₁, hs₂, hd₁, hd₂])
      · simp only [not_or] at hnames
        obtain ⟨hs₁, hs₂, hd₁, hd₂⟩ := hnames
        have hsn : UserName sn := ⟨hs₁, hs₂⟩
        have hdn : UserName dn := ⟨hd₁, hd₂⟩
        simp only [hs₁, hs₂, hd₁, hd₂, or_self, if_false, hsn, hdn, true_and]
        cases hres : g.resolveName sd sn with
        | none =>
            have hsame : renameSameDir now sd sn dn g = (.err (.nameNotFound sn), g) := by
              unfold renameSameDir
              rw [hres]
            have hcross : renameCrossDir now sd sn dd dn g = (.err (.nameNotFound sn), g) := by
              unfold renameCrossDir
              rw [hres]
            rw [hsame, hcross, ite_self]
            simp
        | some s =>
            obtain ⟨e, he⟩ := hfiled.resolveName_iff.mp hres
            have hlive : g.LiveDir sd := h.homes he hsn
            have hdd : ¬ g.LiveDir dd := fun hdd => hdead ⟨hlive, hdd⟩
            have hne : sd ≠ dd := by
              rintro rfl
              exact hdd hlive
            have hfree := h.resolveName_dead hfiled hdd hdn
            have hlisted : sd ∈ g.dirContains := by
              have hmem := hfiled.listed (TypeGraph.labels_eq_some.mpr ⟨s, he⟩)
              by_contra hnone
              exact SetIndex.not_mem_members_of_none (ExtTreeMap.getElem?_eq_none hnone) e hmem
            rw [if_neg hne]
            unfold renameCrossDir
            rw [hres, hfree]
            by_cases hcycle : g.wouldCycle s dd = true
            · simp [hcycle, hne]
            · simp [hcycle, hne, TypeGraph.removeDestination, hlisted, hfiled.findEntry_eq he]

/-- A call with a dead directory is refused exactly when one of its checks notices. -/
theorem Op.refused_iff_noticesDead (now : Nat → Timestamp) (h : Homed g) {next : Nat} (hfiled : Filed next g)
    {op : Op} (hdead : ¬ op.LiveDirs g) : op.Refused now g ↔ op.NoticesDead g := by
  -- A call with one directory names it alone.
  have hsole : ∀ {d}, op.dirs = [d] → ¬ g.LiveDir d := by
    intro d hdirs hd
    refine hdead fun d' hmem => ?_
    rw [hdirs, List.mem_singleton] at hmem
    exact hmem ▸ hd
  cases op with
  | createFile d n u gr p => exact createFile_refused_iff fun hn => h.resolveName_dead hfiled (hsole rfl) hn
  | mkdir d n u gr p => exact mkdir_refused_iff fun hn => h.resolveName_dead hfiled (hsole rfl) hn
  | symlink d n target u gr => exact symlink_refused_iff fun hn => h.resolveName_dead hfiled (hsole rfl) hn
  | setQuota d il bl => exact setQuota_refused_iff
  | link d n t => exact link_refused_iff
  | rename sd sn dd dn =>
      refine rename_refused_iff h hfiled fun hlive => hdead fun d hd => ?_
      rcases List.mem_pair.mp hd with rfl | rfl
      · exact hlive.1
      · exact hlive.2
  | unlink d n => exact iff_of_true (unlink_refused h hfiled (hsole rfl)) trivial
  | rmdir d n =>
      exact iff_of_true (rmdir_refused fun hn => h.resolveName_dead hfiled (hsole rfl) hn) trivial
  | _ => exact absurd (by simp [Op.LiveDirs, Op.dirs]) hdead

end Dead

/-! ### Runs -/

/-- Names stay under live directories along every run that enters none under a dead one. -/
theorem Run.homed {g : TypeGraph} (hrun : Run (fun g op _ => op.LiveDirs g ∨ op.NoticesDead g) g)
    (hle : g.nextEdge ≤ 2 ^ 32) : Homed g := by
  induction hrun with
  | new now => exact .new now
  | @call g now op hbefore hallowed ih =>
      have hedges : g.nextEdge ≤ 2 ^ 32 := (op.grown now g hle).nextEdge.trans hle
      have hfiled : Filed g.nextEdge g := hbefore.namesFiled hedges
      by_cases hlive : op.LiveDirs g
      · exact (ih hedges).step hfiled hlive hle
      · have hrefused := (op.refused_iff_noticesDead now (ih hedges) hfiled hlive).mpr
          (hallowed.resolve_left hlive)
        rw [hrefused.2]
        exact ih hedges
  | setCapCtx _ _ ih => exact (ih hle).congr rfl rfl rfl rfl rfl
  | enableProvLog _ ih => exact (ih hle).congr rfl rfl rfl rfl rfl
  | disableProvLog _ ih => exact (ih hle).congr rfl rfl rfl rfl rfl

/-- Dead directories. After any run whose calls name live directories or notice that they do not, a call with
    a dead one is refused, and changes nothing, exactly when it notices. -/
theorem dead_dirs_refused_iff {g : TypeGraph} (hrun : Run (fun g op _ => op.LiveDirs g ∨ op.NoticesDead g) g)
    (hle : g.nextEdge ≤ 2 ^ 32) (now : Nat → Timestamp) (op : Op) (hdead : ¬ op.LiveDirs g) :
    op.Refused now g ↔ op.NoticesDead g :=
  op.refused_iff_noticesDead _ (hrun.homed hle) (hrun.namesFiled hle) hdead

/-- A file for a directory that has been removed. -/
theorem dead_dirs_refused_iff_removed :
    let g := (TypeGraph.new 0).calls (fun _ => 0) [.mkdir 1 "d" 0 0 .dirDefault, .rmdir 1 "d"]
    (Op.createFile 2 "b" 0 0 .fileDefault).Refused (fun _ => 0) g ↔
      (Op.createFile 2 "b" 0 0 .fileDefault).NoticesDead g := by
  intro g
  have hrun : Run (fun g op _ => op.LiveDirs g ∨ op.NoticesDead g) g :=
    Run.calls [.mkdir 1 "d" 0 0 .dirDefault, .rmdir 1 "d"] (.new 0)
      ⟨.inl (by decide), .inl (by decide), trivial⟩
  exact dead_dirs_refused_iff hrun (by decide) (fun _ => 0) (.createFile 2 "b" 0 0 .fileDefault) (by decide)

/-- link and rename enter names under a directory that was never made and under one that was removed, and under
    an id whose slot is the root's so do create and its like. -/
theorem dead_dirs_accepted :
    let g := (TypeGraph.new 0).calls (fun _ => 0)
      [.createFile 1 "a" 0 0 .fileDefault, .mkdir 1 "d" 0 0 .dirDefault, .rmdir 1 "d"]
    Reachable g ∧ ¬ g.LiveDir 2 ∧ ¬ g.LiveDir 7 ∧ ¬ g.LiveDir (1 + 2 ^ 32) ∧
      ((Op.link 7 "b" 2).apply (fun _ => 0) g).1 = .ok .done ∧
      ((Op.link 7 "b" 2).apply (fun _ => 0) g).2.resolveName 7 "b" = some 2 ∧
      ((Op.rename 1 "a" 2 "b").apply (fun _ => 0) g).1 = .ok .done ∧
      ((Op.rename 1 "a" 2 "b").apply (fun _ => 0) g).2.resolveName 1 "a" = none ∧
      ((Op.createFile (1 + 2 ^ 32) "b" 0 0 .fileDefault).apply (fun _ => 0) g).1 = .ok (.inode 4) ∧
      ¬ (Op.link 7 "b" 2).Refused (fun _ => 0) g ∧ ¬ (Op.rename 1 "a" 2 "b").Refused (fun _ => 0) g ∧
      ¬ (Op.createFile (1 + 2 ^ 32) "b" 0 0 .fileDefault).Refused (fun _ => 0) g := by
  intro g
  have hlink : ((Op.link 7 "b" 2).apply (fun _ => 0) g).1 = .ok .done := by decide
  have hrename : ((Op.rename 1 "a" 2 "b").apply (fun _ => 0) g).1 = .ok .done := by decide
  have hcreate : ((Op.createFile (1 + 2 ^ 32) "b" 0 0 .fileDefault).apply (fun _ => 0) g).1 =
      .ok (.inode 4) := by decide
  refine ⟨Run.calls _ (.new 0) (by decide), by decide, by decide, by decide, hlink, by decide, hrename,
    by decide, hcreate, fun hrefused => ?_, fun hrefused => ?_, fun hrefused => ?_⟩
  · obtain ⟨e, he⟩ := hrefused.1
    rw [hlink] at he
    cases he
  · obtain ⟨e, he⟩ := hrefused.1
    rw [hrename] at he
    cases he
  · obtain ⟨e, he⟩ := hrefused.1
    rw [hcreate] at he
    cases he

end SotFs
