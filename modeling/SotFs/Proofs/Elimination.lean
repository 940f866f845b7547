/-
Module: SotFs.Proofs.Elimination
Layer: Proofs
Purpose: Greedy elimination against treewidth. The adjacency sets, looked at on the remaining vertices,
  always are those of a graph; the fill of one turn is the elimination of its vertex. So on a graph of treewidth
  at most two the result of the elimination is at most two: there is always a vertex of degree two, and taking
  out one of smallest degree needs no wider bags.
Trusted boundary: none
Main exports: Adjacency.Shows, Adjacency.mem_fill, greedyWidth_le
-/
import SotFs.Core.Treewidth
import SotFs.Foundation.TreeDecomposition

namespace SotFs

open Std (ExtTreeMap ExtTreeSet)
open Foundation

namespace Adjacency

variable {adj : Adjacency} {remaining : List Nat} {G : SimpleGraph Nat}

theorem mem_connect {a b x y : Nat} : y ∈ SetIndex.members (adj.connect a b) x ↔
    (x = b ∧ y = a) ∨ (x = a ∧ y = b) ∨ y ∈ SetIndex.members adj x := by
  rw [connect, SetIndex.mem_members_add, SetIndex.mem_members_add]

/-- Connecting one vertex to each of a list. -/
theorem mem_foldl_connect {a x y : Nat} (rest : List Nat) : ∀ {adj : Adjacency},
    y ∈ SetIndex.members (rest.foldl (fun adj b => connect adj a b) adj) x ↔
      (x = a ∧ y ∈ rest) ∨ (y = a ∧ x ∈ rest) ∨ y ∈ SetIndex.members adj x := by
  induction rest with
  | nil => simp
  | cons b rest ih =>
      intro adj
      rw [List.foldl_cons, ih, mem_connect, List.mem_cons, List.mem_cons]
      constructor
      · rintro (⟨hx, hy⟩ | ⟨hy, hx⟩ | ⟨hx, hy⟩ | ⟨hx, hy⟩ | hold)
        · exact .inl ⟨hx, .inr hy⟩
        · exact .inr (.inl ⟨hy, .inr hx⟩)
        · exact .inr (.inl ⟨hy, .inl hx⟩)
        · exact .inl ⟨hx, .inl hy⟩
        · exact .inr (.inr hold)
      · rintro (⟨hx, hy | hy⟩ | ⟨hy, hx | hx⟩ | hold)
        · exact .inr (.inr (.inr (.inl ⟨hx, hy⟩)))
        · exact .inl ⟨hx, hy⟩
        · exact .inr (.inr (.inl ⟨hx, hy⟩))
        · exact .inr (.inl ⟨hy, hx⟩)
        · exact .inr (.inr (.inr (.inr hold)))

/-- The fill connects any two different vertices of the list. -/
theorem mem_fill {x y : Nat} {l : List Nat} : ∀ {adj : Adjacency}, l.Nodup →
    (y ∈ SetIndex.members (adj.fill l) x ↔ (x ≠ y ∧ x ∈ l ∧ y ∈ l) ∨ y ∈ SetIndex.members adj x) := by
  induction l with
  | nil => simp [fill]
  | cons a rest ih =>
      intro adj hnodup
      obtain ⟨ha, hrest⟩ := List.nodup_cons.mp hnodup
      rw [fill, ih hrest, mem_foldl_connect, List.mem_cons, List.mem_cons]
      constructor
      · rintro (⟨hne, hx, hy⟩ | ⟨rfl, hy⟩ | ⟨rfl, hx⟩ | hold)
        · exact .inl ⟨hne, .inr hx, .inr hy⟩
        · exact .inl ⟨fun heq => ha (heq ▸ hy), .inl rfl, .inr hy⟩
        · exact .inl ⟨fun heq => ha (heq ▸ hx), .inr hx, .inl rfl⟩
        · exact .inr hold
      · rintro (⟨hne, rfl | hx, rfl | hy⟩ | hold)
        · exact absurd rfl hne
        · exact .inr (.inl ⟨rfl, hy⟩)
        · exact .inr (.inr (.inl ⟨rfl, hx⟩))
        · exact .inl ⟨hne, hx, hy⟩
        · exact .inr (.inr (.inr hold))

theorem mem_neighbors {u v : Nat} :
    u ∈ adj.neighbors remaining v ↔ u ∈ SetIndex.members adj v ∧ u ∈ remaining := by
  simp [neighbors]

theorem nodup_neighbors (v : Nat) : (adj.neighbors remaining v).Nodup :=
  (SetIndex.nodup_toList _).filter _

/-- The adjacency sets are those of the graph, among the remaining vertices. -/
def Shows (adj : Adjacency) (remaining : List Nat) (G : SimpleGraph Nat) : Prop :=
  ∀ a ∈ remaining, ∀ b ∈ remaining, (b ∈ SetIndex.members adj a ↔ G.Adj a b)

/-- One turn of the elimination. -/
theorem Shows.fill (h : adj.Shows remaining G) {v : Nat} (hv : v ∈ remaining) :
    (adj.fill (adj.neighbors remaining v)).Shows (remaining.erase v) (fillAt G v) := by
  intro a ha b hb
  have ha' := List.mem_of_mem_erase ha
  have hb' := List.mem_of_mem_erase hb
  rw [mem_fill (nodup_neighbors v), mem_neighbors, mem_neighbors, h v hv a ha', h v hv b hb', h a ha' b hb']
  constructor
  · rintro (⟨hne, ⟨hva, _⟩, hvb, _⟩ | hab)
    · exact ⟨hne, .inr ⟨hva, hvb⟩⟩
    · exact ⟨hab.ne, .inl hab⟩
  · rintro ⟨hne, hab | ⟨hva, hvb⟩⟩
    · exact .inr hab
    · exact .inl ⟨hne, ⟨hva, ha'⟩, hvb, hb'⟩

/-- The degree that the elimination counts is the degree in the graph. -/
theorem Shows.degreeLE_iff (h : adj.Shows remaining G) {v : Nat} (hv : v ∈ remaining) {k : Nat} :
    DegreeLE G remaining.toFinset v k ↔ (adj.neighbors remaining v).length ≤ k := by
  rw [← List.toFinset_card_of_nodup (nodup_neighbors v)]
  constructor
  · intro hdegree
    refine hdegree _ fun u hu => ?_
    obtain ⟨hu, hmem⟩ := mem_neighbors.mp (List.mem_toFinset.mp hu)
    exact ⟨List.mem_toFinset.mpr hmem, (h v hv u hmem).mp hu⟩
  · intro hle N hN
    refine (Finset.card_le_card fun u hu => ?_).trans hle
    obtain ⟨hmem, hadj⟩ := hN u hu
    have hmem' := List.mem_toFinset.mp hmem
    exact List.mem_toFinset.mpr (mem_neighbors.mpr ⟨(h v hv u hmem').mpr hadj, hmem'⟩)

end Adjacency

section Greedy

variable {k : Nat}

theorem toFinset_erase {l : List Nat} (hnodup : l.Nodup) (v : Nat) :
    (l.erase v).toFinset = l.toFinset.erase v := by
  ext u
  rw [List.mem_toFinset, hnodup.mem_erase_iff, Finset.mem_erase, List.mem_toFinset]

/-- On a graph of treewidth at most two the greedy elimination never meets a larger degree, however its ties
    are broken. By induction on the turns: what remains keeps its treewidth. -/
theorem greedyWidth_le (hk : k ≤ 2) : ∀ (fuel : Nat) {adj : Adjacency} {remaining : List Nat}
    {G : SimpleGraph Nat} {maxWidth : Nat}, remaining.Nodup → adj.Shows remaining G →
    TreewidthLE G remaining.toFinset k → greedyWidth fuel adj remaining maxWidth ≤ max maxWidth k := by
  intro fuel
  induction fuel with
  | zero =>
      intro adj remaining G maxWidth _ _ _
      exact le_max_left _ _
  | succ fuel ih =>
      intro adj remaining G maxWidth hnodup hshows hwidth
      rw [greedyWidth]
      split
      · exact le_max_left _ _
      · rename_i v hmin
        have hv : v ∈ remaining := List.argmin_mem hmin
        obtain ⟨u, hu, hdegree⟩ := hwidth.exists_degree_le ⟨v, List.mem_toFinset.mpr hv⟩
        have hu' := List.mem_toFinset.mp hu
        have hle : (adj.neighbors remaining v).length ≤ k :=
          (List.le_of_mem_argmin hu' hmin).trans ((hshows.degreeLE_iff hu').mp hdegree)
        have hsmall : DegreeLE G remaining.toFinset v 2 := (hshows.degreeLE_iff hv).mpr (hle.trans hk)
        have hrest := hwidth.fillAt (List.mem_toFinset.mpr hv) hsmall
        rw [← toFinset_erase hnodup] at hrest
        refine (ih (hnodup.erase v) (hshows.fill hv) hrest).trans ?_
        exact max_le (max_le (le_max_left _ _) (hle.trans (le_max_right _ _))) (le_max_right _ _)

theorem le_greedyWidth : ∀ (fuel : Nat) (adj : Adjacency) (remaining : List Nat) (maxWidth : Nat),
    maxWidth ≤ greedyWidth fuel adj remaining maxWidth := by
  intro fuel
  induction fuel with
  | zero => exact fun _ _ _ => le_rfl
  | succ fuel ih =>
      intro adj remaining maxWidth
      rw [greedyWidth]
      split
      · exact le_rfl
      · exact (le_max_left _ _).trans (ih _ _ _)

end Greedy

end SotFs
