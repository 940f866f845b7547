/-
Module: SotFs.Proofs.QuotaWalks
Layer: Proofs
Purpose: The quota walks. On a graph that satisfies the invariant the walk along ".." from a live directory
  is its path to the root: it never repeats a directory, and each walk is a fold over that path.
Trusted boundary: none
Main exports: checkAlong, chargeAlong, Inv.exists_upPath, Inv.checkQuotaFrom_eq, Inv.updateQuota_eq
-/
import SotFs.Proofs.Invariant

namespace SotFs

open Std (ExtTreeMap ExtTreeSet)
open Relation Foundation
open Foundation.RootedTree (UpPath)

/-- A quota check of the directories of a path, in order. -/
def checkAlong (quotas : ExtTreeMap DirId Quota) (check : Quota → Bool) (resource : Resource) :
    List DirId → Outcome Unit
  | [] => .ok ()
  | d :: ds =>
      if (quotas[d]?.map check).getD true then checkAlong quotas check resource ds
      else .err (.quotaExceeded d resource)

/-- Charge the quota of every directory of a path, in order. -/
def chargeAlong (quotas : ExtTreeMap DirId Quota) (deltaInodes deltaBytes : Int) (path : List DirId) :
    ExtTreeMap DirId Quota :=
  path.foldl (fun quotas d => quotas.modify d fun q => q.update deltaInodes deltaBytes) quotas

namespace Inv

variable {g : TypeGraph}

/-- The root has no parent. -/
theorem parentDir_root (h : Inv g) : g.parentDir g.rootDir = none := by
  rw [Option.eq_none_iff_forall_ne_some]
  intro p hp
  obtain ⟨e, t, he, _⟩ := h.parentDir_iff.mp hp
  exact h.shape.root_dotdot he

/-- Below the root, ".." leads to the directory that the entry is in. -/
theorem parentDir_of_child (h : Inv g) {p d : DirId} (hchild : g.shape.Child p d) :
    g.parentDir d = some p := by
  obtain ⟨e, n, i, hd, hn, he⟩ := hchild
  have hroot : d ≠ g.rootDir := by
    rintro rfl
    have hri := h.shape.root
    change g.dirInode g.rootDir = some g.rootInode at hri
    change g.dirInode g.rootDir = some i at hd
    rw [hd] at hri
    cases hri
    exact h.shape.root_entry hn he
  obtain ⟨q, qi, e', n', e'', hq, hn', he', he''⟩ := h.shape.parent hd hroot
  have hdotdot := h.shape.dotdot hd hn he he''
  exact h.parentDir_iff.mpr ⟨e'', qi, he'', hdotdot⟩

/-- A directory is not its own parent. -/
theorem ne_of_child (h : Inv g) {p d : DirId} (hchild : g.shape.Child p d) : p ≠ d := by
  rintro rfl
  have hcycle : TransGen g.shape.Child p p := .single hchild
  obtain ⟨e, n, i, hd, _, _⟩ := hchild
  exact h.shape.tree.acyclic (h.shape.rooted hd) hcycle

/-- What lies above a live directory is live. -/
theorem live_of_reach (h : Inv g) {a d : DirId} {i : InodeId} (hreach : ReflTransGen g.shape.Child a d)
    (hd : g.dirInode d = some i) : ∃ j, g.dirInode a = some j := by
  rcases ReflTransGen.cases_head hreach with rfl | ⟨b, ⟨e, n, j, _, _, he⟩, _⟩
  · exact ⟨i, hd⟩
  · exact h.shape.src_live he

/-- Every live directory has its walk to the root. -/
theorem exists_upPath (h : Inv g) {d : DirId} {i : InodeId} (hd : g.dirInode d = some i) :
    ∃ path, UpPath g.shape.Child g.rootDir d path :=
  RootedTree.exists_upPath (h.shape.rooted hd)

/-- A walk is no longer than there are directories. -/
theorem upPath_length (h : Inv g) {d : DirId} {i : InodeId} {path : List DirId}
    (hd : g.dirInode d = some i) (hup : UpPath g.shape.Child g.rootDir d path) :
    path.length ≤ g.walkFuel := by
  have hsub : path ⊆ g.dirContains.keys := by
    intro a ha
    rw [ExtTreeMap.mem_keys, h.dirKeys]
    exact h.live_of_reach ((hup.mem_iff h.shape.tree a).mp ha) hd
  have hle := ((hup.nodup h.shape.tree).subperm hsub).length_le
  rw [ExtTreeMap.length_keys] at hle
  unfold TypeGraph.walkFuel
  omega

/-- A quota check visits the path to the root and nothing else. -/
theorem checkQuotaFrom_eq (h : Inv g) (check : Quota → Bool) (resource : Resource) {d : DirId}
    {path : List DirId} (hup : UpPath g.shape.Child g.rootDir d path) {fuel : Nat}
    (hfuel : path.length ≤ fuel) :
    g.checkQuotaFrom check resource fuel (some d) = checkAlong g.quotas check resource path := by
  induction hup generalizing fuel with
  | root =>
      obtain ⟨k, rfl⟩ : ∃ k, fuel = k + 1 := Nat.exists_eq_succ_of_ne_zero (by simp at hfuel; omega)
      simp [TypeGraph.checkQuotaFrom, checkAlong, h.parentDir_root]
  | @up p d path hchild _ ih =>
      obtain ⟨k, rfl⟩ : ∃ k, fuel = k + 1 := Nat.exists_eq_succ_of_ne_zero (by simp at hfuel; omega)
      have hne : ¬ some p = some d := fun heq => h.ne_of_child hchild (Option.some.inj heq)
      simp only [TypeGraph.checkQuotaFrom, checkAlong, h.parentDir_of_child hchild, if_neg hne]
      rw [ih (by simpa using hfuel)]

/-- A quota update charges the path to the root and nothing else. -/
theorem updateQuotaFrom_eq (h : Inv g) (deltaInodes deltaBytes : Int) {d : DirId} {path : List DirId}
    (hup : UpPath g.shape.Child g.rootDir d path) {fuel : Nat} (hfuel : path.length ≤ fuel)
    (quotas : ExtTreeMap DirId Quota) :
    g.updateQuotaFrom deltaInodes deltaBytes fuel quotas (some d) =
      some (chargeAlong quotas deltaInodes deltaBytes path) := by
  induction hup generalizing fuel quotas with
  | root =>
      obtain ⟨k, rfl⟩ : ∃ k, fuel = k + 1 := Nat.exists_eq_succ_of_ne_zero (by simp at hfuel; omega)
      simp [TypeGraph.updateQuotaFrom, chargeAlong, h.parentDir_root]
  | @up p d path hchild _ ih =>
      obtain ⟨k, rfl⟩ : ∃ k, fuel = k + 1 := Nat.exists_eq_succ_of_ne_zero (by simp at hfuel; omega)
      have hne : ¬ some p = some d := fun heq => h.ne_of_child hchild (Option.some.inj heq)
      simp only [TypeGraph.updateQuotaFrom, h.parentDir_of_child hchild, if_neg hne]
      rw [ih (by simpa using hfuel), chargeAlong, chargeAlong, List.foldl_cons]

/-- The inode check of a live directory is the check along its path. -/
theorem checkQuotaInode_eq (h : Inv g) {d : DirId} {i : InodeId} {path : List DirId}
    (hd : g.dirInode d = some i) (hup : UpPath g.shape.Child g.rootDir d path) :
    g.checkQuotaInode d = checkAlong g.quotas (fun q => q.checkInode) .inode path :=
  h.checkQuotaFrom_eq _ _ hup (h.upPath_length hd hup)

/-- The byte check of a live directory is the check along its path. -/
theorem checkQuotaBytes_eq (h : Inv g) {d : DirId} {i : InodeId} {path : List DirId}
    (hd : g.dirInode d = some i) (hup : UpPath g.shape.Child g.rootDir d path) (additional : Nat) :
    g.checkQuotaBytes d additional = checkAlong g.quotas (fun q => q.checkBytes additional) .bytes path :=
  h.checkQuotaFrom_eq _ _ hup (h.upPath_length hd hup)

/-- The quota update of a live directory charges its path. -/
theorem updateQuota_eq (h : Inv g) {d : DirId} {i : InodeId} {path : List DirId}
    (hd : g.dirInode d = some i) (hup : UpPath g.shape.Child g.rootDir d path)
    (deltaInodes deltaBytes : Int) :
    g.updateQuota d deltaInodes deltaBytes =
      some { g with quotas := chargeAlong g.quotas deltaInodes deltaBytes path } := by
  rw [TypeGraph.updateQuota,
    h.updateQuotaFrom_eq deltaInodes deltaBytes hup (h.upPath_length hd hup) g.quotas]
  rfl

/-- A quota update of a live directory ends. -/
theorem updateQuota_isSome (h : Inv g) {d : DirId} {i : InodeId} (hd : g.dirInode d = some i)
    (deltaInodes deltaBytes : Int) :
    ∃ quotas, g.updateQuota d deltaInodes deltaBytes = some { g with quotas := quotas } := by
  obtain ⟨path, hup⟩ := h.exists_upPath hd
  exact ⟨_, h.updateQuota_eq hd hup deltaInodes deltaBytes⟩

end Inv

/-- A check along a path answers or fails; it neither panics nor runs on. -/
theorem checkAlong_cases (quotas : ExtTreeMap DirId Quota) (check : Quota → Bool) (resource : Resource)
    (path : List DirId) :
    checkAlong quotas check resource path = .ok () ∨
      ∃ e, checkAlong quotas check resource path = .err e := by
  induction path with
  | nil => exact .inl rfl
  | cons d ds ih =>
      unfold checkAlong
      split
      · exact ih
      · exact .inr ⟨_, rfl⟩

/-- The inode check of a live directory passes or fails. -/
theorem Inv.checkQuotaInode_cases {g : TypeGraph} (h : Inv g) {d : DirId} {i : InodeId}
    (hd : g.dirInode d = some i) :
    g.checkQuotaInode d = .ok () ∨ ∃ e, g.checkQuotaInode d = .err e := by
  obtain ⟨path, hup⟩ := h.exists_upPath hd
  rw [h.checkQuotaInode_eq hd hup]
  exact checkAlong_cases _ _ _ _

end SotFs
