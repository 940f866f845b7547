/-
Module: SotFs.Foundation.SetIndex
Layer: Foundation
Purpose: Ordered maps from keys to ordered sets, read as a finite relation between keys and members.
  This is the shape of a secondary index: one set of row ids per key. `add` is the update of the
  "entry or default, then insert" idiom, `drop` the "if the key is present, remove from its set" idiom,
  and `ExtTreeMap.erase` forgets a key with its whole set. The lemmas say what each update does to the
  relation and to the keys, so that a client never unfolds a map operation.
Trusted boundary: none
Main exports: SetIndex, SetIndex.members, SetIndex.add, SetIndex.drop, mem_members_add, mem_members_drop
-/
import Mathlib

namespace Foundation

open Std

/-- A map from keys to sets of members. -/
abbrev SetIndex (K E : Type) [Ord K] [Ord E] := ExtTreeMap K (ExtTreeSet E)

namespace SetIndex

set_option linter.unusedSectionVars false

section

variable {K E : Type} [Ord K] [TransOrd K] [LawfulEqOrd K] [Ord E] [TransOrd E] [LawfulEqOrd E]

/-- The members recorded under a key; an absent key has none. -/
def members (m : SetIndex K E) (k : K) : ExtTreeSet E := m.getD k ∅

/-- Record `e` under `k`, creating the key if needed. -/
def add (m : SetIndex K E) (k : K) (e : E) : SetIndex K E :=
  m.insert k ((members m k).insert e)

/-- Remove `e` from the set under `k`; an absent key stays absent. -/
def drop (m : SetIndex K E) (k : K) (e : E) : SetIndex K E :=
  m.modify k (fun s => s.erase e)

/-- The elements of a set are listed once each. -/
theorem nodup_toList (s : ExtTreeSet E) : s.toList.Nodup := by
  refine ExtTreeSet.distinct_toList.imp ?_
  rintro a b hne rfl
  exact hne ReflCmp.compare_self

theorem members_eq_getElem? (m : SetIndex K E) (k : K) : members m k = m[k]?.getD ∅ := by
  unfold members
  rw [ExtTreeMap.getD_eq_getD_getElem?]

/-- A key that is present reads as its own set. -/
theorem members_of_getElem? {m : SetIndex K E} {k : K} {s : ExtTreeSet E} (h : m[k]? = some s) :
    members m k = s := by
  rw [members_eq_getElem?, h, Option.getD_some]

/-- An absent key has no members. -/
theorem not_mem_members_of_none {m : SetIndex K E} {k : K} (h : m[k]? = none) (e : E) :
    e ∉ members m k := by
  rw [members_eq_getElem?, h]
  exact ExtTreeSet.not_mem_empty

@[simp] theorem not_mem_members_empty (k : K) (e : E) : e ∉ members (∅ : SetIndex K E) k :=
  not_mem_members_of_none (by simp) e

/-- `add` relates exactly one more pair. -/
@[simp] theorem mem_members_add {m : SetIndex K E} {k a : K} {e x : E} :
    x ∈ members (add m k e) a ↔ (a = k ∧ x = e) ∨ x ∈ members m a := by
  rw [members_eq_getElem?, members_eq_getElem?, add, ExtTreeMap.getElem?_insert]
  by_cases hka : k = a
  · subst hka
    simp [members_eq_getElem?, ExtTreeSet.mem_insert, @eq_comm _ e x]
  · have hak : a ≠ k := fun h => hka h.symm
    simp [hka, hak]

/-- `drop` relates exactly that pair less. -/
@[simp] theorem mem_members_drop {m : SetIndex K E} {k a : K} {e x : E} :
    x ∈ members (drop m k e) a ↔ x ∈ members m a ∧ ¬ (a = k ∧ x = e) := by
  rw [members_eq_getElem?, members_eq_getElem?, drop, ExtTreeMap.getElem?_modify]
  by_cases hka : k = a
  · subst hka
    cases hm : m[k]? with
    | none => simp
    | some s => simp [ExtTreeSet.mem_erase, @eq_comm _ e x, and_comm]
  · have hak : a ≠ k := fun h => hka h.symm
    simp [hka, hak]

/-- Forgetting a key drops all its pairs. -/
@[simp] theorem mem_members_erase {m : SetIndex K E} {k a : K} {x : E} :
    x ∈ members (m.erase k) a ↔ a ≠ k ∧ x ∈ members m a := by
  rw [members_eq_getElem?, members_eq_getElem?, ExtTreeMap.getElem?_erase]
  by_cases hka : k = a
  · subst hka; simp
  · have hak : a ≠ k := fun h => hka h.symm
    simp [hka, hak]

/-- `add` makes its key present and keeps the others. -/
@[simp] theorem mem_add {m : SetIndex K E} {k a : K} {e : E} : a ∈ add m k e ↔ a = k ∨ a ∈ m := by
  rw [add, ExtTreeMap.mem_insert]
  simp [@eq_comm _ k a]

/-- `drop` keeps every key, even one whose set becomes empty. -/
@[simp] theorem mem_drop {m : SetIndex K E} {k a : K} {e : E} : a ∈ drop m k e ↔ a ∈ m := by
  rw [drop, ExtTreeMap.mem_modify]

end

end SetIndex

end Foundation
