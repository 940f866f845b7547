/-
Module: SotFs.Foundation.RootedTree
Layer: Foundation
Purpose: Trees given by a child relation: every node has at most one parent, the root has none, and the
  nodes are what the root reaches. From this alone there is no cycle, and the upward walk from a node is a
  path without repetition that visits exactly the node's ancestors and ends at the root. The reachability
  of the nodes survives a move of a subtree to a node outside it and the removal of a leaf.
Trusted boundary: none
Main exports: RootedTree, RootedTree.acyclic, RootedTree.UpPath, RootedTree.exists_upPath,
  RootedTree.reach_of_reparent, RootedTree.reach_before_reparent, RootedTree.reach_of_removeLeaf
-/
import Mathlib

namespace Foundation

open Relation

variable {α : Type}

/-- Every node has at most one parent and the root has none. -/
structure RootedTree (child : α → α → Prop) (root : α) : Prop where
  parent_unique : ∀ {p q c}, child p c → child q c → p = q
  root_top : ∀ p, ¬ child p root

namespace RootedTree

variable {child : α → α → Prop} {root : α}

/-- What lies below the root lies on no cycle. The induction goes down from the root: a cycle through a
    child passes through its only parent. -/
theorem acyclic (htree : RootedTree child root) {d : α} (hd : ReflTransGen child root d) :
    ¬ TransGen child d d := by
  induction hd with
  | refl =>
      intro hcycle
      obtain ⟨p, _, hp⟩ := TransGen.tail'_iff.mp hcycle
      exact htree.root_top p hp
  | @tail b c _ hbc ih =>
      intro hcycle
      obtain ⟨q, hcq, hqc⟩ := TransGen.tail'_iff.mp hcycle
      have hqb : q = b := htree.parent_unique hqc hbc
      subst hqb
      exact ih (TransGen.head' hbc hcq)

/-- `UpPath child root d path`: `path` is the walk from `d` to its parent and on to the root. -/
inductive UpPath (child : α → α → Prop) (root : α) : α → List α → Prop where
  | root : UpPath child root root [root]
  | up {p d : α} {path : List α} :
      child p d → UpPath child root p path → UpPath child root d (d :: path)

namespace UpPath

theorem head {d : α} {path : List α} (h : UpPath child root d path) : path.head? = some d := by
  cases h with
  | root => rfl
  | up _ _ => rfl

theorem getLast {d : α} {path : List α} (h : UpPath child root d path) :
    path.getLast? = some root := by
  induction h with
  | root => rfl
  | up _ hup ih =>
      rw [List.getLast?_cons, ih]
      rfl

/-- The walk visits exactly the ancestors of its start. -/
theorem mem_iff (htree : RootedTree child root) {d : α} {path : List α}
    (h : UpPath child root d path) (a : α) : a ∈ path ↔ ReflTransGen child a d := by
  induction h with
  | root =>
      rw [List.mem_singleton]
      constructor
      · rintro rfl
        exact .refl
      · intro ha
        rcases ReflTransGen.cases_tail ha with heq | ⟨p, _, hp⟩
        · exact heq.symm
        · exact absurd hp (htree.root_top p)
  | @up p d path hpd _ ih =>
      rw [List.mem_cons, ih]
      constructor
      · rintro (rfl | ha)
        · exact .refl
        · exact ha.tail hpd
      · intro ha
        rcases ReflTransGen.cases_tail ha with heq | ⟨q, haq, hqd⟩
        · exact Or.inl heq.symm
        · have hqp : q = p := htree.parent_unique hqd hpd
          subst hqp
          exact Or.inr haq

/-- The walk goes from each node to its parent. -/
theorem isChain {next : α → α → Prop} (hnext : ∀ {p c}, child p c → next c p) {d : α} {path : List α}
    (h : UpPath child root d path) : path.IsChain next := by
  induction h with
  | root => exact .singleton _
  | @up p d path hpd hup ih =>
      cases hup with
      | root => exact .cons_cons (hnext hpd) ih
      | up _ _ => exact .cons_cons (hnext hpd) ih

/-- The start of the walk lies below the root. -/
theorem reach {d : α} {path : List α} (h : UpPath child root d path) : ReflTransGen child root d := by
  induction h with
  | root => exact .refl
  | up hpd _ ih => exact ih.tail hpd

/-- The walk visits no node twice. -/
theorem nodup (htree : RootedTree child root) {d : α} {path : List α}
    (h : UpPath child root d path) : path.Nodup := by
  induction h with
  | root => exact List.nodup_singleton _
  | @up p d path hpd hup ih =>
      refine List.nodup_cons.mpr ⟨?_, ih⟩
      intro hmem
      have hdp : ReflTransGen child d p := (hup.mem_iff htree d).mp hmem
      exact htree.acyclic (hup.reach.tail hpd) (TransGen.tail' hdp hpd)

/-- There is only one such walk. -/
theorem unique (htree : RootedTree child root) {d : α} {path : List α} (h : UpPath child root d path) :
    ∀ {path' : List α}, UpPath child root d path' → path' = path := by
  induction h with
  | root =>
      intro path' h'
      cases h' with
      | root => rfl
      | up hpd _ => exact absurd hpd (htree.root_top _)
  | up hpd _ ih =>
      intro path' h'
      cases h' with
      | root => exact absurd hpd (htree.root_top _)
      | up hqd hup' =>
          have hqp := htree.parent_unique hqd hpd
          subst hqp
          rw [ih hup']

end UpPath

/-- Every node below the root has an upward walk. -/
theorem exists_upPath {d : α} (hd : ReflTransGen child root d) : ∃ path, UpPath child root d path := by
  induction hd with
  | refl => exact ⟨[root], .root⟩
  | tail _ hbc ih =>
      obtain ⟨path, hpath⟩ := ih
      exact ⟨_, .up hbc hpath⟩

/-- Below the root every node is one deeper than its parent. -/
theorem exists_depth (htree : RootedTree child root) : ∃ depth : α → ℕ, ∀ {p c},
    ReflTransGen child root p → child p c → depth c = depth p + 1 := by
  have hwalk : ∀ d, ∃ n, ∀ path, UpPath child root d path → path.length = n := by
    intro d
    by_cases hd : ∃ path, UpPath child root d path
    · obtain ⟨path, hpath⟩ := hd
      exact ⟨path.length, fun path' hpath' => by rw [hpath.unique htree hpath']⟩
    · exact ⟨0, fun path hpath => absurd ⟨path, hpath⟩ hd⟩
  choose depth hdepth using hwalk
  refine ⟨depth, fun {p c} hp hpc => ?_⟩
  obtain ⟨path, hpath⟩ := exists_upPath hp
  rw [← hdepth p path hpath, ← hdepth c (c :: path) (.up hpc hpath), List.length_cons]

/-- Moving the subtree at `m` below a node `q` outside it keeps every node reachable: a path that does not
    pass through `m` survives, and `q` is reached by such a path. -/
theorem reach_of_reparent {child' : α → α → Prop} {m q : α} (hq : ¬ ReflTransGen child m q)
    (hkeep : ∀ p d, child p d → d ≠ m → child' p d) (hnew : child' q m)
    (hroot : ReflTransGen child root q) {d : α} (hd : ReflTransGen child root d) :
    ReflTransGen child' root d := by
  have houtside : ∀ {x}, ReflTransGen child root x → ¬ ReflTransGen child m x →
      ReflTransGen child' root x := by
    intro x hx
    induction hx with
    | refl => exact fun _ => .refl
    | @tail b c _ hbc ih =>
        intro hmc
        have hmb : ¬ ReflTransGen child m b := fun h => hmc (h.tail hbc)
        have hcm : c ≠ m := by
          rintro rfl
          exact hmc .refl
        exact (ih hmb).tail (hkeep b c hbc hcm)
  have hm : ReflTransGen child' root m := (houtside hroot hq).tail hnew
  induction hd with
  | refl => exact .refl
  | @tail b c _ hbc ih =>
      by_cases hcm : c = m
      · exact hcm ▸ hm
      · exact ih.tail (hkeep b c hbc hcm)

/-- Where no edge into `m` lies below `d`, nothing that `d` reaches depends on such an edge. -/
theorem reach_of_untouched {child' : α → α → Prop} {m d : α}
    (hkeep : ∀ p c, child p c → c ≠ m → child' p c) (hno : ∀ p, child p m → ¬ ReflTransGen child d p)
    {c : α} (hc : ReflTransGen child d c) : ReflTransGen child' d c := by
  induction hc with
  | refl => exact .refl
  | @tail b c hb hbc ih =>
      have hcm : c ≠ m := by
        rintro rfl
        exact hno b hbc hb
      exact ih.tail (hkeep b c hbc hcm)

/-- What a node reaches after `m` was hung below `q` it reached before, or it lies below `m` and the node
    reached `q`. -/
theorem reach_before_reparent {child' : α → α → Prop} {m q d c : α}
    (hsub : ∀ p c, child' p c → child p c ∨ p = q ∧ c = m) (hc : ReflTransGen child' d c) :
    ReflTransGen child d c ∨ ReflTransGen child d q ∧ ReflTransGen child m c := by
  induction hc with
  | refl => exact .inl .refl
  | @tail b c _ hbc ih =>
      rcases hsub b c hbc with hold | ⟨rfl, rfl⟩
      · rcases ih with hb | ⟨hq, hb⟩
        · exact .inl (hb.tail hold)
        · exact .inr ⟨hq, hb.tail hold⟩
      · rcases ih with hb | ⟨hq, _⟩
        · exact .inr ⟨hb, .refl⟩
        · exact .inr ⟨hq, .refl⟩

/-- Removing a node without children keeps every other node reachable. -/
theorem reach_of_removeLeaf {child' : α → α → Prop} {m : α} (hleaf : ∀ c, ¬ child m c)
    (hkeep : ∀ p d, child p d → d ≠ m → child' p d) {d : α} (hdm : d ≠ m)
    (hd : ReflTransGen child root d) : ReflTransGen child' root d := by
  induction hd with
  | refl => exact .refl
  | @tail b c _ hbc ih =>
      have hbm : b ≠ m := by
        rintro rfl
        exact hleaf c hbc
      exact (ih hbm).tail (hkeep b c hbc hdm)

end RootedTree

end Foundation
