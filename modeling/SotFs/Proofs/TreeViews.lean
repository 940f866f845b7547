/-
Module: SotFs.Proofs.TreeViews
Layer: Proofs
Purpose: The tree that a graph shows. Directories are named by the inodes they stand for and a node collects
  what the pool and the side tables hold under its number; the edits of a graph that make, take and carry names
  are the changes of this tree.
Trusted boundary: none
Main exports: TypeGraph.fileTree, Inv.entry_iff, Inv.isDir_iff, Inv.inside_iff, SidesKept, entry_of_lookup
-/
import SotFs.Spec.FileTree
import SotFs.Proofs.NamespaceRefinement
import SotFs.Proofs.Replacements
import SotFs.Proofs.Renames
import SotFs.Proofs.LinkCounts
import SotFs.Proofs.Contents
import SotFs.Proofs.Attributes

namespace SotFs

open Std (ExtTreeMap ExtTreeSet)
open Relation Foundation

/-- What the graph holds under an inode number, given its record. -/
def TypeGraph.fileNode (g : TypeGraph) (i : InodeId) (inode : Inode) : FileNode :=
  ⟨inode, g.content i, g.symlinkTargets[i]?, g.attributes i⟩

/-- The tree that a graph shows. -/
def TypeGraph.fileTree (g : TypeGraph) : FileTree where
  entry k := (g.dirForInode k.1).bind fun d => g.resolveName d k.2
  node i := (g.inodes.data i).map (g.fileNode i)
  next := g.nextInode

section Reading

variable {g : TypeGraph} {i j : InodeId} {n : String} {d : DirId} {inode : Inode}

theorem Inv.entry_iff (h : Inv g) :
    g.fileTree.entry (i, n) = some j ↔ ∃ d, g.dirInode d = some i ∧ g.resolveName d n = some j := by
  change (g.dirForInode i).bind _ = some j ↔ _
  rw [Option.bind_eq_some_iff]
  simp only [h.dirForInode_iff]

/-- In a directory the names lead where lookup leads. -/
theorem Inv.entry_eq (h : Inv g) (hd : g.dirInode d = some i) : g.fileTree.entry (i, n) = g.resolveName d n := by
  change (g.dirForInode i).bind _ = _
  rw [h.dirForInode_iff.mpr hd]
  rfl

theorem node_eq_some : g.fileTree.node i = some (g.fileNode i inode) ↔ g.inodes.data i = some inode := by
  change (g.inodes.data i).map _ = _ ↔ _
  rw [Option.map_eq_some_iff]
  constructor
  · rintro ⟨inode', hi, heq⟩
    rw [hi]
    exact congrArg (fun v => some v.inode) heq
  · exact fun hi => ⟨inode, hi, rfl⟩

theorem node_eq (hi : g.inodes.data i = some inode) : g.fileTree.node i = some (g.fileNode i inode) :=
  node_eq_some.mpr hi

theorem node_eq_none : g.fileTree.node i = none ↔ g.inodes.data i = none := Option.map_eq_none_iff

/-- A node shows the record of its inode. -/
theorem exists_of_node {v : FileNode} (hv : g.fileTree.node i = some v) :
    ∃ inode, g.inodes.data i = some inode ∧ v = g.fileNode i inode := by
  obtain ⟨inode, hi, rfl⟩ := Option.map_eq_some_iff.mp hv
  exact ⟨inode, hi, rfl⟩

/-- A node is what the graph holds under its number. -/
theorem of_node {v : FileNode} (hv : g.fileTree.node i = some v) :
    g.inodes.data i = some v.inode ∧ g.fileNode i v.inode = v := by
  obtain ⟨inode, hi, rfl⟩ := exists_of_node hv
  exact ⟨hi, rfl⟩

theorem isDir_iff_kinds : g.fileTree.IsDir i ↔ g.kinds i = some .directory := by
  rw [Inv.kinds_eq_some]
  constructor
  · rintro ⟨v, hv, hkind⟩
    obtain ⟨inode, hi, rfl⟩ := exists_of_node hv
    exact ⟨inode, hi, hkind⟩
  · rintro ⟨inode, hi, hkind⟩
    exact ⟨_, node_eq hi, hkind⟩

theorem Inv.isDir_iff (h : Inv g) : g.fileTree.IsDir i ↔ ∃ d, g.dirInode d = some i := by
  rw [isDir_iff_kinds]
  constructor
  · exact fun hkind => h.shape.kind_dir hkind
  · rintro ⟨d, hd⟩
    exact h.shape.dir_kind hd

/-- A directory is empty when the check for other entries finds none. -/
theorem Inv.isEmpty_iff (h : Inv g) (hd : g.dirInode d = some i) :
    g.fileTree.IsEmpty i ↔ g.dirNotEmpty d = false := by
  constructor
  · intro hempty
    unfold TypeGraph.dirNotEmpty
    rw [List.any_eq_false]
    rintro ⟨e, j, n⟩ hmem
    rw [decide_eq_true_eq]
    refine hempty n j ((h.entry_eq hd).trans (h.resolveName_iff.mpr ⟨e, ?_⟩))
    exact h.mem_dirEntries.mp hmem
  · intro hempty n j hj
    rw [h.entry_eq hd, h.resolveName_iff] at hj
    obtain ⟨e, he⟩ := hj
    exact h.no_userName_of_empty hempty he

/-- The directories that hold each other in the tree are those that do in the graph. -/
theorem Inv.holds_tree_iff (h : Inv g) {p c : DirId} (hc : g.dirInode c = some j) (hp : g.dirInode p = some i) :
    g.fileTree.Holds i j ↔ g.shape.Child p c := by
  constructor
  · rintro ⟨_, n, hn, hj⟩
    rw [h.entry_eq hp, h.resolveName_iff] at hj
    obtain ⟨e, he⟩ := hj
    exact ⟨e, n, j, hc, hn, he⟩
  · rintro ⟨e, n, j', hc', hn, he⟩
    change g.dirInode c = some j' at hc'
    rw [hc] at hc'
    cases hc'
    exact ⟨h.isDir_iff.mpr ⟨c, hc⟩, n, hn, (h.entry_eq hp).trans (h.resolveName_iff.mpr ⟨e, he⟩)⟩

/-- One directory lies inside another when its inode does. -/
theorem Inv.inside_iff (h : Inv g) {a b : DirId} (ha : g.dirInode a = some i) (hb : g.dirInode b = some j) :
    g.fileTree.Inside i j ↔ ReflTransGen g.shape.Child a b := by
  constructor
  · intro hinside
    induction hinside generalizing b with
    | refl => rw [h.shape.dir_inj ha hb]
    | @tail k j hik hkj ih =>
        obtain ⟨_, n, _, hj⟩ := id hkj
        obtain ⟨c, hc, _⟩ := h.entry_iff.mp hj
        exact (ih hc).tail ((h.holds_tree_iff hb hc).mp hkj)
  · intro hreach
    induction hreach generalizing j with
    | refl =>
        rw [ha] at hb
        cases hb
        exact .refl
    | @tail c b hac hcb ih =>
        obtain ⟨e, n, _, _, _, he⟩ := id hcb
        obtain ⟨k, hk⟩ := h.shape.src_live he
        exact (ih hk).tail ((h.holds_tree_iff hb hk).mpr hcb)

end Reading

/-! ### What the tree relies on -/

/-- A graph that shows a tree: every entry leads to the number of its inode, nothing is stored under a number
    that was not issued, no inode has two attributes of one name, and there are no quotas. -/
structure TypeGraph.Presentable (g : TypeGraph) : Prop where
  inv : Inv g
  own : g.OwnTargets
  below : g.Below
  keys : g.KeysApart
  unlimited : g.quotas = ∅

namespace TypeGraph.Presentable

variable {g : TypeGraph} {i : InodeId} {n : String} {d : DirId} {inode : Inode}

/-- What a name leads to is in the slot of its number. -/
theorem target_live (h : g.Presentable) {e : EdgeId} (he : g.entries e = some (d, i, n)) :
    ∃ inode, g.inodes.data i = some inode ∧ g.getInode i = some inode := by
  obtain ⟨k, hk, _⟩ := h.inv.shape.tgt_live he
  obtain ⟨inode, hi, _⟩ := Inv.kinds_eq_some.mp hk
  rw [h.own he] at hi
  refine ⟨inode, hi, ?_⟩
  rw [TypeGraph.getInode, Arena.get_eq_data, h.own he, hi]

/-- Nothing is known of the next inode. -/
theorem fileNode_next (h : g.Presentable) (inode : Inode) : g.fileNode g.nextInode inode = .made inode none := by
  have hnext : ∀ {P : Prop}, (P → idToArena g.nextInode < g.nextInode) → ¬ P :=
    fun hlt hp => h.inv.next_above (hlt hp)
  have hcontent : g.content g.nextInode = [] :=
    ExtTreeMap.getD_eq_fallback (hnext (h.below.fileData g.nextInode))
  have htarget : g.symlinkTargets[g.nextInode]? = none :=
    ExtTreeMap.getElem?_eq_none (hnext (h.below.symlinkTargets g.nextInode))
  have hattributes : g.attributes g.nextInode = fun _ => none := funext (h.inv.attributesFollow h.below h.keys).born
  rw [TypeGraph.fileNode, hcontent, htarget, hattributes]
  rfl

end TypeGraph.Presentable

/-! ### Edits of names -/

section Edits

variable {g g' : TypeGraph} {i j pi : InodeId} {n : String} {d : DirId} {e : EdgeId} {inode : Inode}
  {w : Option InodeId}

/-- Two graphs hold the same beside their namespaces. -/
theorem fileNode_of_holdings (hkept : g'.holdings = g.holdings) : g'.fileNode = g.fileNode := by
  have hdata : g'.fileData = g.fileData := congrArg Holdings.fileData hkept
  have htargets : g'.symlinkTargets = g.symlinkTargets := congrArg Holdings.symlinkTargets hkept
  have hxattrs : g'.xattrs = g.xattrs := congrArg Holdings.xattrs hkept
  have hindex : g'.inodeXattrs = g.inodeXattrs := congrArg Holdings.inodeXattrs hkept
  funext i inode
  unfold TypeGraph.fileNode TypeGraph.content TypeGraph.attributes
  rw [hdata, htargets, hxattrs, hindex]

/-- The entries of a tree, directory by directory. -/
theorem Inv.entry_ext (h : Inv g) {f : InodeId × String → Option InodeId}
    (hdir : ∀ {c i} m, g.dirInode c = some i → g.resolveName c m = f (i, m))
    (hother : ∀ {i} m, (∀ c, g.dirInode c ≠ some i) → f (i, m) = none) : g.fileTree.entry = f := by
  funext k
  obtain ⟨i, m⟩ := k
  by_cases hlive : ∃ c, g.dirInode c = some i
  · obtain ⟨c, hc⟩ := hlive
    rw [h.entry_eq hc, hdir m hc]
  · rw [not_exists] at hlive
    rw [hother m hlive, Option.eq_none_iff_forall_ne_some]
    intro j hj
    obtain ⟨c, hc, _⟩ := h.entry_iff.mp hj
    exact hlive c hc

/-- What is no directory has no entries. -/
theorem Inv.entry_none (h : Inv g) (hno : ∀ c, g.dirInode c ≠ some i) (m : String) :
    g.fileTree.entry (i, m) = none := by
  rw [Option.eq_none_iff_forall_ne_some]
  intro j hj
  obtain ⟨c, hc, _⟩ := h.entry_iff.mp hj
  exact hno c hc

/-- One lookup changed in one directory: one entry changed. -/
theorem entry_of_lookup (h : Inv g) (h' : Inv g') (hdirs : g'.dirInode = g.dirInode) (hd : g.dirInode d = some pi)
    (hlookup : g'.namespace.entry = Function.update g.namespace.entry (d, n) w) :
    g'.fileTree.entry = Function.update g.fileTree.entry (pi, n) w := by
  refine h'.entry_ext ?_ ?_
  · intro c i m hc
    rw [hdirs] at hc
    have hkey : (i, m) = (pi, n) ↔ (c, m) = (d, n) := by
      constructor
      · rintro ⟨⟩
        rw [h.shape.dir_inj hc hd]
      · rintro ⟨⟩
        rw [hd] at hc
        cases hc
        rfl
    have hname := congrFun hlookup (c, m)
    rw [Function.update_apply] at hname
    rw [Function.update_apply, h.entry_eq hc]
    exact hname.trans (if_congr hkey.symm rfl rfl)
  · intro i m hno
    rw [hdirs] at hno
    rw [Function.update_of_ne, h.entry_none hno]
    rintro ⟨⟩
    exact hno d hd

/-- A new entry is one more name of the tree. -/
theorem entry_of_insert (h : Inv g) (h' : Inv g') (hdirs : g'.dirInode = g.dirInode) (hd : g.dirInode d = some pi)
    (hfree : ∀ x t, g.entries x ≠ some (d, t, n))
    (hentries : g'.entries = Function.update g.entries g.nextEdge (some (d, i, n))) :
    g'.fileTree.entry = Function.update g.fileTree.entry (pi, n) (some i) := by
  refine entry_of_lookup h h' hdirs hd (h'.represents.unique ?_)
  rw [hentries]
  exact h.represents.insert (h.entries_fresh le_rfl) (h.resolveName_eq_none_iff.mpr hfree)

/-- The nodes of a graph that has one more or one changed inode. -/
theorem node_of_update {v : Option Inode} (hinodes : g'.inodes.data = Function.update g.inodes.data i v)
    (hother : ∀ j, j ≠ i → g'.fileNode j = g.fileNode j) :
    g'.fileTree.node = Function.update g.fileTree.node i (v.map (g'.fileNode i)) := by
  funext j
  change (g'.inodes.data j).map _ = _
  rw [hinodes, Function.update_apply, Function.update_apply]
  split
  · rename_i hj
    rw [hj]
  · rename_i hj
    rw [hother j hj]
    rfl

/-- A new inode with one name is a new node; `targets` may hold the target of a new symlink. -/
theorem TypeGraph.Presentable.tree_make (h : g.Presentable) (h' : Inv g') (hd : g.dirInode d = some pi)
    (hfree : ∀ x t, g.entries x ≠ some (d, t, n)) (hdirs : g'.dirInode = g.dirInode)
    (hentries : g'.entries = Function.update g.entries g.nextEdge (some (d, g.nextInode, n)))
    (hinodes : g'.inodes.data = Function.update g.inodes.data g.nextInode (some inode))
    (hnext : g'.nextInode = g.nextInode + 1)
    (hside : ∀ j inode, g'.fileNode j inode = { g.fileNode j inode with target := g'.symlinkTargets[j]? })
    (hold : ∀ j, j ≠ g.nextInode → g'.symlinkTargets[j]? = g.symlinkTargets[j]?) :
    g'.fileTree = g.fileTree.make pi n (.made inode g'.symlinkTargets[g.nextInode]?) := by
  refine FileTree.ext ?_ ?_ hnext
  · exact entry_of_insert h.inv h' hdirs hd hfree hentries
  · rw [node_of_update hinodes]
    · rw [Option.map_some, hside, h.fileNode_next]
      rfl
    · intro j hj
      funext inode
      rw [hside, hold j hj]
      rfl

/-- A directory made with its name, its "." and its "..". -/
theorem entry_of_makeDir (h : Inv g) (h' : Inv g') (hd : g.dirInode d = some pi) {c : DirId}
    (hnew : g.dirInode c = none) (hfresh : ∀ x, g.dirInode x ≠ some i)
    (hdirs : g'.dirInode = Function.update g.dirInode c (some i))
    (hlookup : g'.namespace.entry = Function.update (Function.update (Function.update g.namespace.entry (d, n) (some i))
      (c, ".") (some i)) (c, "..") (some pi)) :
    g'.fileTree.entry = Function.update (Function.update (Function.update g.fileTree.entry (pi, n) (some i))
      (i, ".") (some i)) (i, "..") (some pi) := by
  have hvacant : ∀ m, g.namespace.entry (c, m) = none := by
    intro m
    refine h.resolveName_eq_none_iff.mpr ?_
    intro x t hx
    obtain ⟨k, hk⟩ := h.shape.src_live hx
    change g.dirInode c = some k at hk
    rw [hnew] at hk
    cases hk
  have hdc : d ≠ c := by
    rintro rfl
    rw [hnew] at hd
    cases hd
  have hip : i ≠ pi := by
    rintro rfl
    exact hfresh d hd
  refine h'.entry_ext ?_ ?_
  · intro x j m hx
    have hname := congrFun hlookup (x, m)
    change g'.resolveName x m = _ at hname
    rw [hdirs, Function.update_apply] at hx
    split at hx
    · -- the new directory
      rename_i hxc
      subst hxc
      cases hx
      have hold := hvacant m
      have hnone := h.entry_none hfresh m
      simp only [Function.update_apply, Prod.mk.injEq, true_and, hdc.symm, hip, false_and, if_false, hold,
        hnone] at hname ⊢
      exact hname
    · -- an old one
      rename_i hxc
      have hji : j ≠ i := by
        rintro rfl
        exact hfresh x hx
      have hkey : x = d ↔ j = pi := by
        constructor
        · rintro rfl
          rw [hd] at hx
          cases hx
          rfl
        · rintro rfl
          exact h.shape.dir_inj hx hd
      simp only [Function.update_apply, Prod.mk.injEq, hxc, hji, false_and, if_false, hkey] at hname ⊢
      rw [hname, h.entry_eq hx]
      rfl
  · intro j m hno
    have hji : j ≠ i := by
      rintro rfl
      exact hno c (by rw [hdirs, Function.update_self])
    have hold : ∀ x, g.dirInode x ≠ some j := by
      intro x hx
      refine hno x ?_
      rw [hdirs, Function.update_of_ne]
      · exact hx
      · rintro rfl
        rw [hnew] at hx
        cases hx
    have hjp : j ≠ pi := by
      rintro rfl
      exact hold d hd
    simp only [Function.update_apply, Prod.mk.injEq, hji, hjp, false_and, if_false]
    exact h.entry_none hold m

open Classical in
/-- What is cleared from a directory is cleared from the tree: the name, and all names in the directory that it
    led to. -/
theorem entry_of_cleared (h : Inv g) (h' : Inv g') (hd : g.dirInode d = some pi)
    (hcleared : DestinationCleared g g' d n) :
    g'.fileTree.entry = fun k =>
      if k = (pi, n) ∨ (∃ c, g.DirAt d n c ∧ g.dirInode c = some k.1) then none else g.fileTree.entry k := by
  refine h'.entry_ext ?_ ?_
  · intro c i m hc
    obtain ⟨hc, hnot⟩ := hcleared.dirs.mp hc
    have hkeep : ¬ ∃ c', g.DirAt d n c' ∧ g.dirInode c' = some i := by
      rintro ⟨c', hat, hc'⟩
      rw [h.shape.dir_inj hc hc'] at hnot
      exact hnot hat
    have hkey : (i, m) = (pi, n) ↔ (c, m) = (d, n) := by
      constructor
      · rintro ⟨⟩
        rw [h.shape.dir_inj hc hd]
      · rintro ⟨⟩
        rw [hd] at hc
        cases hc
        rfl
    dsimp only
    rw [h.entry_eq hc]
    refine Option.ext ?_
    intro j
    rw [hcleared.lookup]
    by_cases hgone : (c, m) = (d, n)
    · rw [if_pos (.inl (hkey.mpr hgone))]
      simp [hgone]
    · rw [if_neg (not_or.mpr ⟨fun heq => hgone (hkey.mp heq), hkeep⟩)]
      exact ⟨And.left, fun hj => ⟨hj, hgone, hnot⟩⟩
  · intro i m hno
    dsimp only
    by_cases hlive : ∃ c, g.dirInode c = some i
    · obtain ⟨c, hc⟩ := hlive
      have hat : g.DirAt d n c := by
        by_contra hnot
        exact hno c (hcleared.dirs.mpr ⟨hc, hnot⟩)
      exact if_pos (.inr ⟨c, hat, hc⟩)
    · rw [not_exists] at hlive
      rw [h.entry_none hlive, ite_self]

open Classical in
theorem move_entry (t : FileTree) (p q : InodeId) (n m : String) (i : InodeId) (k : InodeId × String) :
    (t.move p n q m i).entry k = if (p ≠ q ∧ t.IsDir i) ∧ k = (i, "..") then some q
      else if k = (q, m) then some i else if k = (p, n) then none else t.entry k := by
  unfold FileTree.move
  by_cases hdir : p ≠ q ∧ t.IsDir i
  · rw [if_pos hdir]
    simp [FileTree.setEntry, Function.update_apply, hdir]
  · rw [if_neg hdir]
    simp [FileTree.setEntry, Function.update_apply, hdir]

/-- What is carried to another place is carried in the tree. -/
theorem entry_of_carried (h : Inv g) (h' : Inv g') {sd dd : DirId} {sn dn : String} {si di : InodeId}
    (hs : g.dirInode sd = some si) (hd : g.dirInode dd = some di) (hsn : UserName sn) (hdn : UserName dn)
    (he : g.entries e = some (sd, i, sn)) (hcarried : NameCarried g g' sd sn dd dn i) :
    g'.fileTree.entry = (g.fileTree.move si sn di dn i).entry := by
  refine h'.entry_ext ?_ ?_
  · intro c j m hc
    rw [hcarried.dirs] at hc
    have hkey : ∀ {x : DirId} {xi : InodeId} {k : String}, g.dirInode x = some xi →
        ((j, m) = (xi, k) ↔ (c, m) = (x, k)) := by
      intro x xi k hx
      constructor
      · rintro ⟨⟩
        rw [h.shape.dir_inj hc hx]
      · rintro ⟨⟩
        rw [hx] at hc
        cases hc
        rfl
    have hdir : g.fileTree.IsDir j := h.isDir_iff.mpr ⟨c, hc⟩
    have harrived : g'.resolveName dd dn = some i := hcarried.lookup.mpr (.inr (.inl ⟨rfl, rfl, rfl⟩))
    rw [move_entry, h.entry_eq hc]
    by_cases hto : (c, m) = (dd, dn)
    · cases hto
      rw [if_neg (by simp [hdn.2]), if_pos ((hkey hd).mpr rfl), harrived]
    have hto' : ∀ {x}, ¬ (c = dd ∧ m = dn ∧ x = i) := fun hall => hto (by rw [hall.1, hall.2.1])
    refine Option.ext ?_
    intro x
    rw [hcarried.lookup, hc, hd]
    by_cases hdot : j = i ∧ m = ".."
    · -- the ".." of a carried directory leads to its new parent, as it did if the parent is the same
      obtain ⟨rfl, rfl⟩ := hdot
      have hold := h.dotdot_iff hc he hsn (x := x)
      rw [hs] at hold
      by_cases hsame : si = di
      · subst hsame
        rw [if_neg (fun hboth => hboth.1.1 rfl), if_neg (by simp [hdn.2.symm]), if_neg (by simp [hsn.2.symm]),
          hold]
        simp [hdn.2.symm]
      · rw [if_pos ⟨⟨hsame, hdir⟩, rfl⟩]
        simp [hdn.2.symm]
    · have hmoved : ¬ ((si ≠ di ∧ g.fileTree.IsDir i) ∧ (j, m) = (i, "..")) := by
        rintro ⟨_, ⟨⟩⟩
        exact hdot ⟨rfl, rfl⟩
      have hcarry : ¬ (some j = some i ∧ m = "..") := by
        rintro ⟨⟨⟩, hm⟩
        exact hdot ⟨rfl, hm⟩
      have hno : ¬ (some j = some i ∧ m = ".." ∧ some di = some x) := fun hall => hcarry ⟨hall.1, hall.2.1⟩
      rw [if_neg hmoved, if_neg fun heq => hto ((hkey hd).mp heq)]
      simp only [hcarry, hno, hto', not_false_eq_true, and_true, or_false]
      by_cases hfrom : (c, m) = (sd, sn)
      · rw [if_pos ((hkey hs).mpr hfrom)]
        simp [hfrom]
      · rw [if_neg fun heq => hfrom ((hkey hs).mp heq)]
        simp [hfrom]
  · intro j m hno
    rw [hcarried.dirs] at hno
    have hji : g.fileTree.IsDir i → j ≠ i := by
      rintro hdir rfl
      obtain ⟨c, hc⟩ := h.isDir_iff.mp hdir
      exact hno c hc
    have hkey : ∀ {x : DirId} {xi : InodeId} {k : String}, g.dirInode x = some xi → (j, m) ≠ (xi, k) := by
      rintro x xi k hx ⟨⟩
      exact hno x hx
    rw [move_entry, if_neg, if_neg (hkey hd), if_neg (hkey hs), h.entry_none hno]
    rintro ⟨⟨_, hdir⟩, hk⟩
    exact hji hdir (congrArg Prod.fst hk)

/-- A name that is cleared from a file leaves it the others: the file is gone only with its last one. -/
theorem DestinationCleared.target_inode (hcleared : DestinationCleared g g' d n) (h : Inv g) (h' : Inv g')
    (hown : g.OwnTargets) (he : g.entries e = some (d, i, n)) (hi : g.inodes.data i = some inode) :
    g'.inodes.data i = if inode.vtype = .directory ∨ inode.linkCount ≤ 1 then none
      else some { inode with linkCount := inode.linkCount - 1 } := by
  have hfills : g.Fills d n i := (h.fills_iff he).mpr (hown he).symm
  rcases hcleared.target hfills hi with hgone | ⟨hkind, hmore, hdec⟩
  · rw [hgone, if_pos]
    by_contra hnot
    obtain ⟨hkind, hmore⟩ := not_or.mp hnot
    -- the file had another name, and an entry never leads to nothing
    have hcount := h.links hi
    obtain ⟨x, hx, hxe⟩ := Finset.exists_mem_ne (by omega : 1 < (linksTo g.entries i).card) e
    obtain ⟨_, ⟨c, j, m⟩, hentry, hslot, hdotdot⟩ := mem_linksTo.mp hx
    change idToArena j = i at hslot
    rw [hown hentry] at hslot
    subst hslot
    have hne : (c, m) ≠ (d, n) := by
      rintro ⟨⟩
      exact hxe (h.names hentry he)
    have hlive : g.getInode j = some inode := by
      rw [TypeGraph.getInode, Arena.get_eq_data, hown he, hi]
    have hname' := hcleared.lookup.mpr ⟨h.resolveName_iff.mpr ⟨x, hentry⟩, hne, h.not_dirAt he hlive hkind⟩
    obtain ⟨y, hy⟩ := h'.resolveName_iff.mp hname'
    obtain ⟨k, hk, _⟩ := h'.shape.tgt_live hy
    obtain ⟨inode', hinode', _⟩ := Inv.kinds_eq_some.mp hk
    rw [hown he, hgone] at hinode'
    cases hinode'
  · rw [if_neg (not_or.mpr ⟨hkind, not_le.mpr hmore⟩), hdec]

open Classical in
/-- What is cleared from a graph is cleared from the tree. -/
theorem TypeGraph.Presentable.tree_clear (h : g.Presentable) (h' : Inv g') (hd : g.dirInode d = some pi)
    (hcleared : DestinationCleared g g' d n) (hkept : g'.holdings = g.holdings)
    (hnext : g'.nextInode = g.nextInode) : g'.fileTree = g.fileTree.clear pi n := by
  have hentry := entry_of_cleared h.inv h' hd hcleared
  have hnode : ∀ j, g'.fileTree.node j = (g'.inodes.data j).map (g.fileNode j) := by
    intro j
    rw [← fileNode_of_holdings hkept]
    rfl
  have hother : ∀ {j}, ¬ g.Fills d n j → g'.fileTree.node j = g.fileTree.node j := by
    intro j hj
    rw [hnode, hcleared.inodes hj]
    rfl
  unfold FileTree.clear
  rw [h.inv.entry_eq hd]
  cases hres : g.resolveName d n with
  | none =>
      dsimp only
      have hnot : ∀ {s}, ¬ g.Fills d n s := by
        rintro s ⟨t, ht, _⟩
        rw [hres] at ht
        cases ht
      refine FileTree.ext ?_ (funext fun j => hother hnot) hnext
      rw [hentry]
      funext k
      split
      · rename_i hk
        rcases hk with rfl | ⟨c, ⟨t, ht, _⟩, _⟩
        · rw [h.inv.entry_eq hd, hres]
        · rw [hres] at ht
          cases ht
      · rfl
  | some i =>
      obtain ⟨e, he⟩ := h.inv.resolveName_iff.mp hres
      obtain ⟨inode, hi, hget⟩ := h.target_live he
      have hfills : ∀ {s}, g.Fills d n s ↔ s = i := by
        intro s
        rw [h.inv.fills_iff he, h.own he]
      have htarget := hcleared.target_inode h.inv h' h.own he hi
      have hdirs : ∀ {c}, g.DirAt d n c ↔ g.dirInode c = some i := h.inv.dirAt_iff he
      dsimp only
      rw [node_eq hi]
      dsimp only
      change g'.fileTree = if inode.vtype = .directory then _ else _
      by_cases hkind : inode.vtype = .directory
      · obtain ⟨td, htd⟩ := h.inv.isDir_iff.mp ⟨_, node_eq hi, hkind⟩
        rw [if_pos hkind]
        refine FileTree.ext ?_ ?_ hnext
        · rw [hentry]
          funext k
          have hkey : (∃ c, g.DirAt d n c ∧ g.dirInode c = some k.1) ↔ k.1 = i := by
            constructor
            · rintro ⟨c, hat, hc⟩
              rw [hdirs.mp hat] at hc
              exact (Option.some.inj hc).symm
            · intro hk
              exact ⟨td, hdirs.mpr htd, by rw [hk, htd]⟩
          exact if_congr (or_congr_right hkey) rfl rfl
        · funext j
          change _ = Function.update g.fileTree.node i none j
          rw [Function.update_apply]
          split
          · rename_i hj
            subst hj
            rw [hnode, htarget, if_pos (.inl hkind)]
            rfl
          · rename_i hj
            exact hother fun hs => hj (hfills.mp hs)
      · rw [if_neg hkind]
        refine FileTree.ext ?_ ?_ hnext
        · rw [hentry]
          funext k
          change _ = Function.update g.fileTree.entry (pi, n) none k
          rw [Function.update_apply]
          have hfile : ¬ ∃ c, g.DirAt d n c ∧ g.dirInode c = some k.1 := by
            rintro ⟨c, hat, _⟩
            exact h.inv.not_dirAt he hget hkind hat
          exact if_congr (or_iff_left hfile) rfl rfl
        · funext j
          change _ = Function.update g.fileTree.node i _ j
          rw [Function.update_apply]
          split
          · rename_i hj
            subst hj
            rw [hnode, htarget]
            change _ = if inode.linkCount ≤ 1 then none else _
            by_cases hlast : inode.linkCount ≤ 1
            · rw [if_pos hlast, if_pos (.inr hlast)]
              rfl
            · rw [if_neg hlast, if_neg (not_or.mpr ⟨hkind, hlast⟩)]
              rfl
          · rename_i hj
            exact hother fun hs => hj (hfills.mp hs)

/-- Carrying a name changes entries only. -/
theorem tree_move (h : Inv g) (h' : Inv g') {sd dd : DirId} {sn dn : String} {si di : InodeId}
    (hs : g.dirInode sd = some si) (hd : g.dirInode dd = some di) (hsn : UserName sn) (hdn : UserName dn)
    (he : g.entries e = some (sd, i, sn)) (hcarried : NameCarried g g' sd sn dd dn i)
    (hkept : g'.holdings = g.holdings) (hnext : g'.nextInode = g.nextInode) :
    g'.fileTree = g.fileTree.move si sn di dn i := by
  have hrest : (g.fileTree.move si sn di dn i).node = g.fileTree.node ∧
      (g.fileTree.move si sn di dn i).next = g.fileTree.next := by
    unfold FileTree.move
    split <;> exact ⟨rfl, rfl⟩
  refine FileTree.ext (entry_of_carried h h' hs hd hsn hdn he hcarried) ?_ (hnext.trans hrest.2.symm)
  rw [hrest.1]
  funext j
  change (g'.inodes.data j).map (g'.fileNode j) = _
  rw [hcarried.inodes, fileNode_of_holdings hkept]
  rfl

/-- Entering another name of a file. -/
theorem TypeGraph.Presentable.tree_addName (h : g.Presentable) (hinv : Inv (g.enterLink d i n))
    (hd : g.dirInode d = some pi) (hfree : ∀ x t, g.entries x ≠ some (d, t, n)) (he : g.nextEdge < EDGE_CAPACITY)
    (hslot : idToArena i = i) (hi : g.inodes.data i = some inode) :
    (g.enterLink d i n).fileTree = g.fileTree.addName pi n i (g.fileNode i inode) := by
  have hinodes : (g.enterLink d i n).inodes.data =
      Function.update g.inodes.data i (some { inode with linkCount := inode.linkCount + 1 }) := by
    change (g.inodes.modify (idToArena i) _).data = _
    rw [Arena.data_modify, hslot, hi]
    rfl
  refine FileTree.ext ?_ ?_ rfl
  · exact entry_of_insert h.inv hinv rfl hd hfree (h.inv.enterLink_entries he)
  · exact node_of_update hinodes fun _ _ => rfl

/-- Entering a new directory. -/
theorem TypeGraph.Presentable.tree_makeDir (h : g.Presentable) (hinv : Inv (g.enterDir inode d pi n))
    (hd : g.dirInode d = some pi) (hfree : ∀ x t, g.entries x ≠ some (d, t, n)) (hi : g.nextInode < NODE_CAPACITY)
    (hdir : g.nextDir < NODE_CAPACITY) (he : g.nextEdge + 3 ≤ EDGE_CAPACITY) :
    (g.enterDir inode d pi n).fileTree = g.fileTree.makeDir pi n (.made inode none) := by
  have hdirs : (g.enterDir inode d pi n).dirInode = Function.update g.dirInode g.nextDir (some g.nextInode) :=
    Arena.view_update (h.inv.dirIds.insert_data hdir _)
  have hfresh : ∀ x, g.dirInode x ≠ some g.nextInode := by
    intro x hx
    have hkind : g.kinds g.nextInode = some .directory := h.inv.shape.dir_kind hx
    obtain ⟨_, hnone, _⟩ := Inv.kinds_eq_some.mp hkind
    rw [h.inv.inodeIds.fresh le_rfl] at hnone
    cases hnone
  have hstep : g.namespace.Step (.mkdir d n 0 0 .dirDefault) (.created ⟨g.nextInode, some g.nextDir⟩)
      { g.enterDir inode d pi n with quotas := g.quotas, provLog := g.provLog }.namespace :=
    h.inv.enterDir_step hi he hd hfree hinv
  have hlookup := hstep.entries
  have hdot : g.namespace.entry (d, ".") = some pi := h.inv.resolveName_iff.mpr (h.inv.shape.dot hd)
  refine FileTree.ext ?_ ?_ rfl
  · refine entry_of_makeDir h.inv hinv hd (h.inv.dirInode_fresh le_rfl) hfresh hdirs ?_
    rw [← hdot]
    exact hlookup
  · have hside : (g.enterDir inode d pi n).fileNode = g.fileNode := rfl
    rw [node_of_update (h.inv.enterDir_inodes inode d pi n hi) fun _ _ => by rw [hside], hside, Option.map_some,
      h.fileNode_next]
    rfl

end Edits

end SotFs
