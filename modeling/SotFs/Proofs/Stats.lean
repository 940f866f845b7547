/-
Module: SotFs.Proofs.Stats
Layer: Proofs
Purpose: What the statistics of a snapshot say of a reachable graph. The depth is the greatest number of names below
  the root directory, although the loop marks directories and never compares paths; and every inode is counted
  once, as a directory, a file or a symlink.
Trusted boundary: none
Main exports: Op.nextInode_eq, Reachable.plain, stats_describe_tree
-/
import SotFs.Core.Stats
import SotFs.Proofs.DirectoryTree
import SotFs.Proofs.TreeCalls

namespace SotFs

open Std (ExtTreeMap ExtTreeSet)
open Relation Foundation

/-! ### Kinds of inodes -/

section Kinds

variable {now : Nat → Timestamp} {g : TypeGraph}

/-- Only the calls that make an inode issue an id for one. -/
theorem Op.nextInode_eq {op : Op} (hmakes : op.makes = none) : (op.apply now g).2.nextInode = g.nextInode := by
  cases op with
  | createFile | mkdir | symlink => cases hmakes
  | rmdir d n =>
      rw [Op.apply, Prod.map_snd]
      exact rmdir_nextInode
  | unlink d n =>
      rw [Op.apply, Prod.map_snd]
      exact unlink_nextInode
  | link d n t =>
      rw [Op.apply, Prod.map_snd]
      rcases link_cases now d n t g with ⟨o, _, heq⟩ | ⟨_, _, _, i, _, _, _, heq⟩
      all_goals
        rw [heq]
        rfl
  | rename sd sn dd dn =>
      rw [Op.apply, Prod.map_snd]
      exact rename_keeps_frame (P := fun g' => g'.nextInode = g.nextInode) rfl rmdir_nextInode unlink_nextInode
        fun _ _ _ _ _ _ h => h
  | writeBlock t o s c =>
      rcases writeBlock_cases t o s c g with ⟨o', _, heq⟩ | ⟨_, _, heq⟩
      · rw [Op.apply, heq]
        rfl
      · rw [Op.apply, heq]
        rfl
  | writeData t o b =>
      rcases writeData_cases now t o b g with ⟨e, heq⟩ | ⟨_, _, _, ⟨buf, heq⟩ | ⟨buf, heq⟩⟩
      all_goals
        rw [Op.apply, heq]
        rfl
  | truncate t n =>
      rcases truncate_cases now t n g with ⟨e, heq⟩ | ⟨_, _, _, ⟨buf, heq⟩ | heq⟩
      all_goals
        rw [Op.apply, heq]
        rfl
  | chmod t mode =>
      rcases chmod_cases now t mode g with ⟨o, _, heq⟩ | ⟨_, heq⟩
      all_goals
        rw [Op.apply, heq]
        rfl
  | chown t u gr =>
      rcases chown_cases now t u gr g with ⟨o, _, heq⟩ | ⟨_, heq⟩
      all_goals
        rw [Op.apply, heq]
        rfl
  | setxattr t ns n v =>
      rcases setxattr_cases now t ns n v g with ⟨o, _, heq⟩ | ⟨_, _, _, ⟨a, _, heq⟩ | ⟨_, heq⟩⟩
      all_goals
        rw [Op.apply, heq]
        rfl
  | removexattr t ns n =>
      rcases removexattr_cases now t ns n g with ⟨o, _, heq⟩ | ⟨_, _, a, _, heq⟩
      · rw [Op.apply, heq]
        rfl
      · obtain ⟨_, _, hdropped⟩ := dropXattr_frame (g := g) t a
        rw [Op.apply, heq, hdropped]
        rfl
  | setacl t entries =>
      rcases setacl_cases now t entries g with ⟨o, _, heq⟩ | ⟨_, _, heq⟩
      · rw [Op.apply, heq]
        rfl
      · obtain ⟨_, _, _, _, _, _, hgranted⟩ := replaceGrants_frame (g := g) t entries
        rw [Op.apply, heq, hgranted]
        rfl
  | setQuota d il bl =>
      rcases setQuota_cases d il bl g with ⟨o, _, heq⟩ | ⟨_, _, heq⟩
      all_goals
        rw [Op.apply, heq]
        rfl

/-- Every inode is a file, a directory or a symlink. -/
def TypeGraph.Plain (g : TypeGraph) : Prop :=
  ∀ s i, g.inodes.data s = some i → i.vtype = .regular ∨ i.vtype = .directory ∨ i.vtype = .symlink

/-- An insertion puts the value in or does nothing. -/
theorem Arena.data_insertAt_cases {T : Type} {C : Nat} {a : Arena T C} {id s : Nat} {v w : T}
    (hw : (a.insertAt id v).2.data s = some w) : w = v ∨ a.data s = some w := by
  unfold Arena.insertAt at hw
  split at hw
  · exact .inr hw
  · split at hw
    · exact .inr hw
    · change Function.update a.data id (some v) s = some w at hw
      rw [Function.update_apply] at hw
      split at hw
      · exact .inl (Option.some.inj hw).symm
      · exact .inr hw

/-- So is the inode that a call makes. -/
theorem TypeGraph.Plain.inserted {g' : TypeGraph} (h : g.Plain) {id : Nat} {inode : Inode}
    (hkind : inode.vtype = .regular ∨ inode.vtype = .directory ∨ inode.vtype = .symlink)
    (hpool : g'.inodes = (g.inodes.insertAt id inode).2) : g'.Plain := by
  intro s i hi
  rw [hpool] at hi
  rcases Arena.data_insertAt_cases hi with rfl | hi
  · exact hkind
  · exact h s i hi

theorem Op.plain (op : Op) (now : Nat → Timestamp) (h : g.Plain) : (op.apply now g).2.Plain := by
  cases hmakes : op.makes with
  | none =>
      intro s i hi
      rcases (op.poolStep now g).old hi with hborn | ⟨i₀, hi₀, hkept⟩
      · exact absurd (hborn.lt.trans_eq (op.nextInode_eq hmakes)) (not_lt.mpr hborn.le)
      · rw [hkept.vtype]
        exact h s i₀ hi₀
  | some made =>
      cases op with
      | createFile d n u gr p =>
          rw [Op.apply, Prod.map_snd]
          rcases createFile_cases now d n u gr p g with ⟨o, _, heq⟩ | ⟨_, _, _, _, _, heq⟩
          · rw [heq]
            exact h
          · obtain ⟨_, _, hsettled⟩ := settle_snd (g.enterInode (createdInode now g u gr p) d n) d 1 (now 1) .create
              g.nextInode n g.nextInode
            rw [heq, hsettled]
            exact h.inserted (.inl rfl) rfl
      | mkdir d n u gr p =>
          rw [Op.apply, Prod.map_snd]
          rcases mkdir_cases now d n u gr p g with ⟨o, _, heq⟩ | ⟨_, _, _, _, parent, _, heq⟩
          · rw [heq]
            exact h
          · obtain ⟨_, _, hsettled⟩ := settle_snd (g.enterDir (madeDirInode now g u gr p) d parent.inodeId n) d 1
              (now 1) .mkdir g.nextInode n (⟨g.nextInode, some g.nextDir⟩ : CreateResult)
            rw [heq, hsettled]
            exact h.inserted (.inr (.inl rfl)) rfl
      | symlink d n target u gr =>
          rw [Op.apply, Prod.map_snd]
          rcases symlink_cases now d n target u gr g with ⟨o, _, heq⟩ | ⟨_, _, _, _, _, heq⟩
          · rw [heq]
            exact h
          · rw [heq, (settle_snd ..).choose_spec.choose_spec]
            exact h.inserted (.inr (.inr rfl)) rfl
      | _ => cases hmakes

theorem Run.plain {allowed : TypeGraph → Op → TypeGraph → Prop} (hrun : Run allowed g) : g.Plain := by
  induction hrun with
  | new now =>
      have hempty : ({ TypeGraph.new now with inodes := .new } : TypeGraph).Plain := by
        intro s i hi
        cases hi
      exact hempty.inserted (.inr (.inl rfl)) rfl
  | call now op _ _ ih => exact op.plain now ih
  | setCapCtx ctx _ ih => exact ih
  | enableProvLog _ ih => exact ih
  | disableProvLog _ ih => exact ih

end Kinds

/-! ### Counts -/

section Counts

/-- The tally of files counts the files. -/
theorem foldl_count_fileCount (inodes : List (Nat × Inode)) : ∀ t : InodeTally,
    (inodes.foldl (fun t entry => t.count entry.2) t).fileCount =
      t.fileCount + inodes.countP fun entry => entry.2.vtype = .regular := by
  induction inodes with
  | nil => exact fun t => rfl
  | cons entry inodes ih =>
      intro t
      rw [List.foldl_cons, ih, List.countP_cons]
      unfold InodeTally.count
      cases entry.2.vtype <;> dsimp only <;> split <;> simp <;> omega

theorem foldl_count_symlinkCount (inodes : List (Nat × Inode)) : ∀ t : InodeTally,
    (inodes.foldl (fun t entry => t.count entry.2) t).symlinkCount =
      t.symlinkCount + inodes.countP fun entry => entry.2.vtype = .symlink := by
  induction inodes with
  | nil => exact fun t => rfl
  | cons entry inodes ih =>
      intro t
      rw [List.foldl_cons, ih, List.countP_cons]
      unfold InodeTally.count
      cases entry.2.vtype <;> dsimp only <;> split <;> simp <;> omega

/-- A plain inode is counted once. -/
theorem length_eq_kinds (inodes : List (Nat × Inode)) (hplain : ∀ entry ∈ inodes,
    entry.2.vtype = .regular ∨ entry.2.vtype = .directory ∨ entry.2.vtype = .symlink) :
    inodes.length = (inodes.countP fun entry => entry.2.vtype = .directory) +
      (inodes.countP fun entry => entry.2.vtype = .regular) +
        inodes.countP fun entry => entry.2.vtype = .symlink := by
  induction inodes with
  | nil => rfl
  | cons entry inodes ih =>
      have htail := ih fun entry' hmem => hplain entry' (List.mem_cons_of_mem entry hmem)
      rw [List.length_cons, List.countP_cons, List.countP_cons, List.countP_cons]
      rcases hplain entry List.mem_cons_self with hkind | hkind | hkind <;> simp [hkind] <;> omega

variable {g : TypeGraph}

/-- An arena of a run counts its values. -/
theorem Arena.Counted.length_iter {T : Type} {C : Nat} {a : Arena T C} (h : a.Counted) : a.iter.length = a.len := by
  have hall := a.length_filter_iter fun _ => true
  rw [List.filter_true] at hall
  rw [hall]
  exact h.symm

/-- There is one directory for each inode that is a directory. -/
theorem Inv.dirs_length (h : Inv g) :
    g.dirs.iter.length = g.inodes.iter.countP fun entry => entry.2.vtype = .directory := by
  have hdirs := g.dirs.length_filter_iter fun _ => true
  rw [List.filter_true] at hdirs
  have hinodes := g.inodes.length_filter_iter fun i => decide (i.vtype = .directory)
  rw [hdirs, List.countP_eq_length_filter, hinodes]
  -- a directory is matched with its inode
  have hlive : ∀ {d}, d ∈ g.dirs.slotsWhere (fun _ => true) ↔ ∃ i, g.dirInode d = some i := by
    intro d
    rw [Arena.mem_slotsWhere]
    constructor
    · rintro ⟨dir, hdir, _⟩
      exact ⟨dir.inodeId, Arena.view_eq_some.mpr ⟨dir, hdir, rfl⟩⟩
    · rintro ⟨i, hi⟩
      obtain ⟨dir, hdir, _⟩ := Arena.view_eq_some.mp hi
      exact ⟨dir, hdir, rfl⟩
  have hkind : ∀ {i}, i ∈ g.inodes.slotsWhere (fun i => decide (i.vtype = .directory)) ↔
      g.kinds i = some .directory := by
    intro i
    rw [Arena.mem_slotsWhere, TypeGraph.kinds, Arena.view_eq_some]
    simp only [decide_eq_true_eq, Option.some.injEq]
  refine Finset.card_nbij (fun d => (g.dirInode d).getD 0) ?_ ?_ ?_
  · intro d hd
    obtain ⟨i, hi⟩ := hlive.mp hd
    dsimp only
    rw [hi]
    exact hkind.mpr (h.shape.dir_kind hi)
  · intro d hd d' hd' heq
    obtain ⟨i, hi⟩ := hlive.mp hd
    obtain ⟨i', hi'⟩ := hlive.mp hd'
    dsimp only at heq
    rw [hi, hi'] at heq
    cases heq
    exact h.shape.dir_inj hi hi'
  · intro i hi
    obtain ⟨d, hd⟩ := h.shape.kind_dir (hkind.mp hi)
    have hd' : g.dirInode d = some i := hd
    exact ⟨d, hlive.mpr ⟨i, hd'⟩, by simp only [hd', Option.getD_some]⟩

/-- The statistics of a reachable graph: how deep its directories go, and each inode as one of three kinds. -/
theorem stats_describe_tree (hg : Reachable g) :
    IsGreatest {k | ∃ d, Steps g.Holds g.rootDir k d} (stats g).depthEstimate ∧
      (stats g).inodeCount = (stats g).dirCount + (stats g).fileCount + (stats g).symlinkCount := by
  have h := hg.inv
  have halike := Run.alike .stored hg
  constructor
  · have hdistinct : g.dirContains.keys.Nodup := by
      refine ExtTreeMap.distinct_keys.imp ?_
      rintro a b hne rfl
      exact hne Std.ReflCmp.compare_self
    have hchild : (fun p c => c ∈ g.childDirs p) = g.Holds := by
      funext p c
      exact propext (h.mem_childDirs.trans h.holds_iff.symm)
    rw [← hchild]
    refine Levels.deepest_isGreatest (fun d => mem_keys_of_childDirs) ?_ ?_
    · rw [List.sum_toFinset _ hdistinct]
    · rw [hchild, h.holds_eq]
      exact fun hup hup' => hup.unique h.shape.tree hup'
  · change g.inodes.len = g.dirs.len +
      (g.inodes.iter.foldl (fun t entry => t.count entry.2) (⟨0, 0, 0, 0⟩ : InodeTally)).fileCount +
        (g.inodes.iter.foldl (fun t entry => t.count entry.2) (⟨0, 0, 0, 0⟩ : InodeTally)).symlinkCount
    rw [foldl_count_fileCount, foldl_count_symlinkCount, ← (halike.inodes.2.1).length_iter,
      ← (halike.dirs.2.1).length_iter, h.dirs_length]
    have hkinds := length_eq_kinds g.inodes.iter fun entry hmem => hg.plain entry.1 entry.2 (Arena.mem_iter.mp hmem)
    simpa using hkinds

end Counts

/-- A directory in a directory, with a file in it. -/
theorem stats_describe_tree_nested :
    let g := (TypeGraph.new 0).calls (fun _ => 0)
      [.mkdir 1 "a" 0 0 .dirDefault, .mkdir 2 "b" 0 0 .dirDefault, .createFile 3 "c" 0 0 .fileDefault]
    (stats g).depthEstimate = 2 ∧ (stats g).inodeCount = 4 ∧
      IsGreatest {k | ∃ d, Steps g.Holds g.rootDir k d} (stats g).depthEstimate ∧
        (stats g).inodeCount = (stats g).dirCount + (stats g).fileCount + (stats g).symlinkCount :=
  ⟨by decide, by decide, stats_describe_tree (Run.calls _ (.new 0) (by decide))⟩

end SotFs
