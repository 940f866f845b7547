/-
Module: SotFs.Foundation.EdgeTable
Layer: Foundation
Purpose: Undirected multigraphs as tables that give some ids two ends each: the neighbors of a node, the nodes
  at which two tables differ, and the nodes within two steps of given ones. Away from the nodes at which they
  differ two tables have the same edges and the same neighbors, so what is read off the neighbors of the two
  ends of an edge may be carried over from one table to the other wherever no end is near a difference.
Trusted boundary: none
Main exports: EdgeTable, EdgeTable.neighbors, EdgeTable.differ, EdgeTable.near, EdgeTable.Covers,
  EdgeTable.Covers.away
-/
import Mathlib

namespace Foundation

/-- The two ends of every id that has them. -/
abbrev EdgeTable (I V : Type*) := I → Option (V × V)

namespace EdgeTable

variable {I V : Type*} {old mid new : EdgeTable I V} {v w : V}

/-- `v` is an end. -/
def HasEnd (ends : Option (V × V)) (v : V) : Prop := ∃ w, ends = some (v, w) ∨ ends = some (w, v)

@[simp] theorem not_hasEnd_none : ¬ HasEnd none v := by simp [HasEnd]

@[simp] theorem hasEnd_some {p : V × V} : HasEnd (some p) v ↔ v = p.1 ∨ v = p.2 := by
  obtain ⟨a, b⟩ := p
  constructor
  · rintro ⟨w, hw | hw⟩ <;> simp_all
  · rintro (rfl | rfl)
    · exact ⟨b, .inl rfl⟩
    · exact ⟨a, .inr rfl⟩

/-- The nodes that an edge joins to `v`. -/
def neighbors (ends : EdgeTable I V) (v : V) : Set V :=
  {w | ∃ i, ends i = some (v, w) ∨ ends i = some (w, v)}

/-- The ends of the ids that two tables do not agree on. -/
def differ (old new : EdgeTable I V) : Set V :=
  {v | ∃ i, old i ≠ new i ∧ (HasEnd (old i) v ∨ HasEnd (new i) v)}

/-- An edge at a node where two tables do not differ is in both. -/
theorem eq_of_not_differ (hv : v ∉ differ old new) {i : I} (hi : HasEnd (old i) v ∨ HasEnd (new i) v) :
    old i = new i := by
  by_contra hne
  exact hv ⟨i, hne, hi⟩

theorem neighbors_eq (hv : v ∉ differ old new) : neighbors old v = neighbors new v := by
  have hends : ∀ i w, (old i = some (v, w) ∨ old i = some (w, v)) ↔
      (new i = some (v, w) ∨ new i = some (w, v)) := by
    intro i w
    constructor
    · intro hi
      rwa [← eq_of_not_differ hv (.inl ⟨w, hi⟩)]
    · intro hi
      rwa [eq_of_not_differ hv (.inr ⟨w, hi⟩)]
  ext w
  exact exists_congr fun i => hends i w

theorem differ_self (ends : EdgeTable I V) : differ ends ends = ∅ := by simp [differ]

theorem differ_trans (old mid new : EdgeTable I V) : differ old new ⊆ differ old mid ∪ differ mid new := by
  rintro v ⟨i, hne, hi⟩
  by_cases hmid : old i = mid i
  · exact .inr ⟨i, hmid ▸ hne, hmid ▸ hi⟩
  · by_cases hmid' : mid i = new i
    · exact .inl ⟨i, hmid, hmid' ▸ hi⟩
    · rcases hi with hi | hi
      · exact .inl ⟨i, hmid, .inl hi⟩
      · exact .inr ⟨i, hmid', .inr hi⟩

/-- An update of one id shows at its old and its new ends. -/
theorem differ_update [DecidableEq I] {ends : EdgeTable I V} {i : I} {o : Option (V × V)}
    (hv : v ∈ differ ends (Function.update ends i o)) : HasEnd (ends i) v ∨ HasEnd o v := by
  obtain ⟨j, hne, hj⟩ := hv
  by_cases hji : j = i
  · subst hji
    simpa using hj
  · simp [Function.update_of_ne hji] at hne

/-- The nodes at most two steps from those of `S`. -/
def near (ends : EdgeTable I V) (S : Set V) : Set V :=
  {v | ∃ s ∈ S, v = s ∨ v ∈ neighbors ends s ∨ ∃ u ∈ neighbors ends s, v ∈ neighbors ends u}

theorem mem_near_of_mem {ends : EdgeTable I V} {S : Set V} (hv : v ∈ S) : v ∈ near ends S :=
  ⟨v, hv, .inl rfl⟩

/-- Both ends of an edge at a node of `S` are near. -/
theorem mem_near_of_edge {ends : EdgeTable I V} {S : Set V} {s : V} (hs : s ∈ S) {i : I}
    (hi : ends i = some (s, v) ∨ ends i = some (v, s)) : v ∈ near ends S :=
  ⟨s, hs, .inr (.inl ⟨i, hi⟩)⟩

/-- Where the new table has an edge at a difference, that node is near `S`. -/
def Covers (S : Set V) (old new : EdgeTable I V) : Prop :=
  ∀ v ∈ differ old new, ∀ i, HasEnd (new i) v → v ∈ near new S

theorem Covers.refl (S : Set V) (ends : EdgeTable I V) : Covers S ends ends := by
  intro v hv
  rw [differ_self] at hv
  exact hv.elim

/-- An edge away from `S` is an old one, and its ends have their old neighbors. -/
theorem Covers.away {S : Set V} (hcovers : Covers S old new) {i : I} (hi : new i = some (v, w))
    (hv : v ∉ near new S) (hw : w ∉ near new S) :
    old i = some (v, w) ∧ neighbors old v = neighbors new v ∧ neighbors old w = neighbors new w := by
  have hv' : v ∉ differ old new := fun hdiffer => hv (hcovers v hdiffer i ⟨w, .inl hi⟩)
  have hw' : w ∉ differ old new := fun hdiffer => hw (hcovers w hdiffer i ⟨v, .inr hi⟩)
  refine ⟨?_, neighbors_eq hv', neighbors_eq hw'⟩
  rw [eq_of_not_differ hv' (.inr ⟨w, .inl hi⟩), hi]

end EdgeTable

end Foundation
