/-
Module: SotFs.Proofs.DirectoryTree
Layer: Proofs
Purpose: The live directories form a tree below the root directory, the same whether it is read downwards
  through the entries or upwards through "..", and the quota walks climb it. Everything is stated on the
  records and edges that the pools hold.
Trusted boundary: none
Main exports: TypeGraph.Holds, TypeGraph.IsDirectoryTree, TypeGraph.ClimbsToRoot, directories_form_tree
-/
import SotFs.Proofs.Preservation

namespace SotFs

open Std (ExtTreeMap)
open Relation Foundation

namespace TypeGraph

/-- Directory `c` is entered in directory `p` under a user name. -/
def Holds (g : TypeGraph) (p c : DirId) : Prop :=
  ∃ dir e n, g.dirs.get c = some dir ∧ UserName n ∧
    g.edges.get e = some (.contains e p dir.inodeId n)

/-- The live directories are a tree rooted at the root directory. -/
structure IsDirectoryTree (g : TypeGraph) : Prop where
  /-- The one user name of a directory is in the directory that its ".." leads to. -/
  parent : ∀ {d dir}, g.dirs.get d = some dir → d ≠ g.rootDir → ∃ e p n,
    g.edges.get e = some (.contains e p dir.inodeId n) ∧ UserName n ∧ g.parentDir d = some p ∧
      ∀ {e' id p' t n'}, g.edges.get e' = some (.contains id p' t n') →
        idToArena t = idToArena dir.inodeId → UserName n' → e' = e
  /-- The root has no user name and no parent. -/
  rootTop : g.parentDir g.rootDir = none ∧ ∀ p, ¬ g.Holds p g.rootDir
  reachable : ∀ {d dir}, g.dirs.get d = some dir → ReflTransGen g.Holds g.rootDir d
  acyclic : ∀ d, ¬ TransGen g.Holds d d
  /-- The reverse index is the exact inverse of the `inodeId` field. -/
  inverse : ∀ {i d}, g.dirForInodeIdx[i]? = some d ↔
    ∃ dir, g.dirs.get d = some dir ∧ dir.inodeId = i

/-- `path` is what the ".." walks from `d` visit: every ancestor of `d` once, up to the root. -/
structure ClimbsToRoot (g : TypeGraph) (d : DirId) (path : List DirId) : Prop where
  start : path.head? = some d
  follows : path.IsChain fun a b => g.parentDir a = some b
  stop : path.getLast? = some g.rootDir
  once : path.Nodup
  ancestors : ∀ {a}, a ∈ path ↔ ReflTransGen g.Holds a d
  checkInode : g.checkQuotaInode d = checkAlong g.quotas (fun q => q.checkInode) .inode path
  checkBytes : ∀ additional, g.checkQuotaBytes d additional =
    checkAlong g.quotas (fun q => q.checkBytes additional) .bytes path
  update : ∀ deltaInodes deltaBytes, g.updateQuota d deltaInodes deltaBytes =
    some { g with quotas := chargeAlong g.quotas deltaInodes deltaBytes path }

end TypeGraph

section Tree

variable {g : TypeGraph}

/-- The record of a live directory is its id and inode. -/
theorem Inv.dirs_get_iff (h : Inv g) {d : DirId} {dir : Directory} :
    g.dirs.get d = some dir ↔ g.dirInode d = some dir.inodeId ∧ dir.id = d := by
  rw [Arena.get_eq_data, TypeGraph.dirInode, Arena.view_eq_some]
  constructor
  · intro hd
    exact ⟨⟨dir, hd, rfl⟩, h.dirIds.id_eq hd⟩
  · rintro ⟨⟨dir', hd, hinode⟩, hid⟩
    have hid' : dir'.id = d := h.dirIds.id_eq hd
    have hinode' : dir'.inodeId = dir.inodeId := Option.some.inj hinode
    cases dir
    cases dir'
    cases hid
    cases hid'
    cases hinode'
    exact hd

/-- An edge that carries a name is an entry. -/
theorem Inv.edges_get_iff (h : Inv g) {e : EdgeId} {p : DirId} {t : InodeId} {n : String} :
    g.edges.get e = some (.contains e p t n) ↔ g.entries e = some (p, t, n) := by
  rw [Arena.get_eq_data, h.entries_iff]

/-- Whatever id a named edge carries, it is an entry. -/
theorem TypeGraph.entries_of_get (g : TypeGraph) {e id : EdgeId} {p : DirId} {t : InodeId} {n : String}
    (he : g.edges.get e = some (.contains id p t n)) : g.entries e = some (p, t, n) := by
  rw [Arena.get_eq_data] at he
  exact Arena.view_eq_some.mpr ⟨_, he, rfl⟩

/-- Downwards, the tree is the namespace. -/
theorem Inv.holds_iff (h : Inv g) {p c : DirId} : g.Holds p c ↔ g.shape.Child p c := by
  constructor
  · rintro ⟨dir, e, n, hdir, hn, he⟩
    exact ⟨e, n, dir.inodeId, (h.dirs_get_iff.mp hdir).1, hn, h.edges_get_iff.mp he⟩
  · rintro ⟨e, n, i, hi, hn, he⟩
    exact ⟨⟨c, i⟩, e, n, h.dirs_get_iff.mpr ⟨hi, rfl⟩, hn, h.edges_get_iff.mpr he⟩

theorem Inv.holds_eq (h : Inv g) : g.Holds = g.shape.Child := by
  funext p c
  exact propext h.holds_iff

/-- A graph that satisfies the invariant is a directory tree. -/
theorem Inv.isDirectoryTree (h : Inv g) : g.IsDirectoryTree where
  parent := by
    intro d dir hdir hroot
    have hd := (h.dirs_get_iff.mp hdir).1
    obtain ⟨p, pi, e, n, e', hp, hn, he, he'⟩ := h.shape.parent hd hroot
    have hchild : g.shape.Child p d := ⟨e, n, dir.inodeId, hd, hn, he⟩
    refine ⟨e, p, n, h.edges_get_iff.mpr he, hn, h.parentDir_of_child hchild, ?_⟩
    intro x id p' t n' hx ht hn'
    have hentry : g.entries x = some (p', t, n') := g.entries_of_get hx
    -- a directory is only ever entered under its own inode id
    have hslot : idToArena dir.inodeId = dir.inodeId := h.shape.dir_slot hd
    obtain ⟨k, hk, hown⟩ := h.shape.tgt_live hentry
    have hkind := h.shape.dir_kind hd
    rw [ht, hslot, hkind] at hk
    have ht' : t = dir.inodeId := by
      rw [← hown (Option.some.inj hk).symm, ht, hslot]
    subst ht'
    exact h.shape.entry_unique hd hn' hn hentry he
  rootTop := by
    refine ⟨h.parentDir_root, ?_⟩
    intro p hp
    rw [h.holds_iff] at hp
    exact h.shape.tree.root_top p hp
  reachable := by
    intro d dir hdir
    rw [h.holds_eq]
    exact h.shape.rooted (h.dirs_get_iff.mp hdir).1
  acyclic := by
    intro d hcycle
    rw [h.holds_eq] at hcycle
    obtain ⟨p, _, e, n, i, hi, _⟩ := TransGen.tail'_iff.mp hcycle
    exact h.shape.tree.acyclic (h.shape.rooted hi) hcycle
  inverse := by
    intro i d
    rw [← TypeGraph.dirForInode, h.dirForInode_iff]
    constructor
    · intro hd
      exact ⟨⟨d, i⟩, h.dirs_get_iff.mpr ⟨hd, rfl⟩, rfl⟩
    · rintro ⟨dir, hdir, rfl⟩
      exact (h.dirs_get_iff.mp hdir).1

/-- The walks from a live directory climb its path to the root. -/
theorem Inv.climbsToRoot (h : Inv g) {d : DirId} {dir : Directory} (hdir : g.dirs.get d = some dir) :
    ∃ path, g.ClimbsToRoot d path := by
  have hd := (h.dirs_get_iff.mp hdir).1
  obtain ⟨path, hup⟩ := h.exists_upPath hd
  refine ⟨path, hup.head, ?_, hup.getLast, hup.nodup h.shape.tree, ?_, h.checkQuotaInode_eq hd hup,
    h.checkQuotaBytes_eq hd hup, h.updateQuota_eq hd hup⟩
  · exact hup.isChain fun hchild => h.parentDir_of_child hchild
  · intro a
    rw [h.holds_eq]
    exact hup.mem_iff h.shape.tree a

end Tree

/-- The live directories of a reachable graph form a tree, and the ".." walks from each of them visit its
    ancestors once and stop at the root. -/
theorem directories_form_tree {g : TypeGraph} (hg : Reachable g) :
    g.IsDirectoryTree ∧ ∀ d dir, g.dirs.get d = some dir → ∃ path, g.ClimbsToRoot d path :=
  ⟨hg.inv.isDirectoryTree, fun _ _ hdir => hg.inv.climbsToRoot hdir⟩

/-- The tree after a directory was moved below another one. -/
theorem directories_form_tree_moved :
    let now := fun _ => 0
    let g := (TypeGraph.new 0).calls now
      [.mkdir 1 "a" 0 0 .dirDefault, .mkdir 1 "b" 0 0 .dirDefault, .rename 1 "a" 3 "c"]
    g.IsDirectoryTree ∧ ∀ d dir, g.dirs.get d = some dir → ∃ path, g.ClimbsToRoot d path :=
  directories_form_tree (Run.calls _ (.new 0) (by decide))

end SotFs
