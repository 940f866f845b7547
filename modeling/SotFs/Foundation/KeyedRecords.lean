/-
Module: SotFs.Foundation.KeyedRecords
Layer: Foundation
Purpose: A family of finite maps kept as one table of records and an index of record ids by owner. A lookup
  scans the ids of one owner for the first record under a key. As long as no two records of an owner share a
  key and no id has two owners, attaching a record, rewriting one in place and detaching one are the updates
  of one key of one owner's map, and the listing of an owner's records has every key of its map once.
Trusted boundary: none
Main exports: KeyedRecords, KeyedRecords.find, KeyedRecords.lookup, KeyedRecords.keys, lookup_attach,
  lookup_rewrite, lookup_detach, mem_keys, nodup_keys
-/
import SotFs.Foundation.SetIndex

namespace Foundation

open Std

set_option linter.unusedSectionVars false

variable {K E R A : Type} [Ord K] [TransOrd K] [LawfulEqOrd K] [DecidableEq K]
  [Ord E] [TransOrd E] [LawfulEqOrd E] [DecidableEq A]

/-- Every id in the index has a record and one owner, and no two records of an owner share a key. -/
structure KeyedRecords (index : SetIndex K E) (table : ExtTreeMap E R) (key : R → A) : Prop where
  stored : ∀ {k e}, e ∈ SetIndex.members index k → e ∈ table
  apart : ∀ {k k' e}, e ∈ SetIndex.members index k → e ∈ SetIndex.members index k' → k = k'
  unique : ∀ {k e e' r r'}, e ∈ SetIndex.members index k → e' ∈ SetIndex.members index k →
    table[e]? = some r → table[e']? = some r' → key r = key r' → e = e'

namespace KeyedRecords

/-- The first record of an owner under a key. -/
def find (index : SetIndex K E) (table : ExtTreeMap E R) (key : R → A) (k : K) (a : A) : Option E :=
  (SetIndex.members index k).toList.find? fun e => table[e]?.any fun r => key r = a

/-- The record of an owner under a key. -/
def lookup (index : SetIndex K E) (table : ExtTreeMap E R) (key : R → A) (k : K) (a : A) : Option R :=
  (find index table key k a).bind fun e => table[e]?

/-- The keys of an owner's records, in the order of their ids. -/
def keys (index : SetIndex K E) (table : ExtTreeMap E R) (key : R → A) (k : K) : List A :=
  (SetIndex.members index k).toList.filterMap fun e => table[e]?.map key

variable {index : SetIndex K E} {table : ExtTreeMap E R} {key : R → A} {k k' : K} {a a' : A} {e : E} {r : R}

theorem of_find (hfind : find index table key k a = some e) :
    e ∈ SetIndex.members index k ∧ ∃ r, table[e]? = some r ∧ key r = a := by
  refine ⟨ExtTreeSet.mem_toList.mp (List.mem_of_find?_eq_some hfind), ?_⟩
  have hany := List.find?_some hfind
  simpa [Option.any_eq_true] using hany

/-- A key without a first record has none. -/
theorem of_find_none (hfind : find index table key k a = none) (he : e ∈ SetIndex.members index k)
    (hr : table[e]? = some r) : key r ≠ a := by
  have hnot := List.find?_eq_none.mp hfind e (ExtTreeSet.mem_toList.mpr he)
  simpa [hr] using hnot

theorem find_eq_some (h : KeyedRecords index table key) :
    find index table key k a = some e ↔
      e ∈ SetIndex.members index k ∧ ∃ r, table[e]? = some r ∧ key r = a := by
  refine ⟨of_find, ?_⟩
  rintro ⟨he, r, hr, hkey⟩
  cases hfind : find index table key k a with
  | none => exact absurd hkey (of_find_none hfind he hr)
  | some e' =>
      obtain ⟨he', r', hr', hkey'⟩ := of_find hfind
      rw [h.unique he' he hr' hr (hkey'.trans hkey.symm)]

theorem lookup_eq_some (h : KeyedRecords index table key) :
    lookup index table key k a = some r ↔
      ∃ e, e ∈ SetIndex.members index k ∧ table[e]? = some r ∧ key r = a := by
  unfold lookup
  rw [Option.bind_eq_some_iff]
  constructor
  · rintro ⟨e, hfind, hr⟩
    obtain ⟨he, r', hr', hkey⟩ := of_find hfind
    cases hr.symm.trans hr'
    exact ⟨e, he, hr, hkey⟩
  · rintro ⟨e, he, hr, hkey⟩
    exact ⟨e, h.find_eq_some.mpr ⟨he, r, hr, hkey⟩, hr⟩

/-- A key is on the map where a record is found. -/
theorem isSome_lookup : (lookup index table key k a).isSome = (find index table key k a).isSome := by
  unfold lookup
  cases hfind : find index table key k a with
  | none => rfl
  | some e =>
      obtain ⟨_, r, hr, _⟩ := of_find hfind
      rw [Option.bind_some, hr]
      rfl

theorem empty : KeyedRecords (∅ : SetIndex K E) (∅ : ExtTreeMap E R) key where
  stored he := absurd he (SetIndex.not_mem_members_empty _ _)
  apart he := absurd he (SetIndex.not_mem_members_empty _ _)
  unique he := absurd he (SetIndex.not_mem_members_empty _ _)

/-! ### Attaching a record -/

section Attach

variable (h : KeyedRecords index table key) (hfresh : e ∉ table)
include h hfresh

theorem not_mem_of_fresh (k : K) : e ∉ SetIndex.members index k := fun he => hfresh (h.stored he)

/-- What the index and the table say after a record with a fresh id is attached. -/
theorem attached_iff {x : E} {r' : R} :
    (x ∈ SetIndex.members (SetIndex.add index k e) k' ∧ (table.insert e r)[x]? = some r') ↔
      (k' = k ∧ x = e ∧ r' = r) ∨ (x ∈ SetIndex.members index k' ∧ table[x]? = some r') := by
  rw [SetIndex.mem_members_add, ExtTreeMap.getElem?_insert]
  by_cases hx : e = x
  · subst hx
    have hnot := h.not_mem_of_fresh hfresh k'
    rw [if_pos ReflCmp.compare_self, Option.some.injEq]
    constructor
    · rintro ⟨⟨hk, _⟩ | hmem, hr⟩
      · exact .inl ⟨hk, rfl, hr.symm⟩
      · exact absurd hmem hnot
    · rintro (⟨hk, _, hr⟩ | ⟨hmem, _⟩)
      · exact ⟨.inl ⟨hk, rfl⟩, hr.symm⟩
      · exact absurd hmem hnot
  · rw [if_neg (mt LawfulEqCmp.eq_of_compare hx)]
    constructor
    · rintro ⟨⟨_, hxe⟩ | hmem, hr⟩
      · exact absurd hxe.symm hx
      · exact .inr ⟨hmem, hr⟩
    · rintro (⟨_, hxe, _⟩ | ⟨hmem, hr⟩)
      · exact absurd hxe.symm hx
      · exact ⟨.inr hmem, hr⟩

theorem attach (hnew : find index table key k (key r) = none) :
    KeyedRecords (SetIndex.add index k e) (table.insert e r) key where
  stored := by
    intro k' x hx
    rcases SetIndex.mem_members_add.mp hx with ⟨_, hxe⟩ | hx
    · rw [hxe]
      exact ExtTreeMap.mem_insert_self
    · exact ExtTreeMap.mem_insert.mpr (.inr (h.stored hx))
  apart := by
    intro k₁ k₂ x h₁ h₂
    have hnot := h.not_mem_of_fresh hfresh
    rcases SetIndex.mem_members_add.mp h₁ with ⟨hk₁, hx⟩ | h₁
    · rcases SetIndex.mem_members_add.mp h₂ with ⟨hk₂, _⟩ | h₂
      · exact hk₁.trans hk₂.symm
      · exact absurd (hx ▸ h₂) (hnot k₂)
    · rcases SetIndex.mem_members_add.mp h₂ with ⟨_, hx⟩ | h₂
      · exact absurd (hx ▸ h₁) (hnot k₁)
      · exact h.apart h₁ h₂
  unique := by
    intro k' x y rx ry hx hy hrx hry hkey
    rcases (h.attached_iff hfresh).mp ⟨hx, hrx⟩ with ⟨hk, hxe, hr⟩ | ⟨hx, hrx⟩
    · rcases (h.attached_iff hfresh).mp ⟨hy, hry⟩ with ⟨_, hye, _⟩ | ⟨hy, hry⟩
      · exact hxe.trans hye.symm
      · exact absurd (hr ▸ hkey.symm) (of_find_none hnew (hk ▸ hy) hry)
    · rcases (h.attached_iff hfresh).mp ⟨hy, hry⟩ with ⟨hk, _, hr⟩ | ⟨hy, hry⟩
      · exact absurd (hr ▸ hkey) (of_find_none hnew (hk ▸ hx) hrx)
      · exact h.unique hx hy hrx hry hkey

/-- Attaching a record puts its key on the map of its owner. -/
theorem lookup_attach (r : R) (k' : K) (a' : A) (hnew : find index table key k (key r) = none) :
    lookup (SetIndex.add index k e) (table.insert e r) key k' a' =
      if k' = k ∧ a' = key r then some r else lookup index table key k' a' := by
  apply Option.ext
  intro r'
  rw [(h.attach hfresh hnew).lookup_eq_some]
  simp only [← and_assoc, h.attached_iff hfresh]
  split
  · rename_i hat
    obtain ⟨rfl, rfl⟩ := hat
    rw [Option.some.injEq]
    constructor
    · rintro ⟨x, ⟨_, hr⟩ | ⟨hx, hr'⟩, hkey⟩
      · exact hr.symm
      · exact absurd hkey (of_find_none hnew hx hr')
    · rintro rfl
      exact ⟨e, .inl ⟨⟨rfl, rfl⟩, rfl⟩, rfl⟩
  · rename_i hat
    rw [h.lookup_eq_some]
    constructor
    · rintro ⟨x, ⟨⟨hk, _⟩, hr⟩ | ⟨hx, hr'⟩, hkey⟩
      · exact absurd ⟨hk, hr ▸ hkey.symm⟩ hat
      · exact ⟨x, hx, hr', hkey⟩
    · rintro ⟨x, hx, hr', hkey⟩
      exact ⟨x, .inr ⟨hx, hr'⟩, hkey⟩

end Attach

/-! ### Rewriting and detaching a record -/

/-- Rewriting a record under its key. -/
theorem rewrite (h : KeyedRecords index table key) (e : E) {f : R → R} (hf : ∀ r, key (f r) = key r) :
    KeyedRecords index (table.modify e f) key where
  stored hx := ExtTreeMap.mem_modify.mpr (h.stored hx)
  apart := h.apart
  unique := by
    have hold : ∀ {x : E} {r' : R}, (table.modify e f)[x]? = some r' → ∃ r : R, table[x]? = some r ∧ key r' = key r := by
      intro x r' hr'
      rw [ExtTreeMap.getElem?_modify] at hr'
      split at hr'
      · rename_i hcmp
        obtain ⟨r, hr, rfl⟩ := Option.map_eq_some_iff.mp hr'
        rw [← LawfulEqCmp.eq_of_compare hcmp]
        exact ⟨r, hr, hf r⟩
      · exact ⟨r', hr', rfl⟩
    intro k' x y rx ry hx hy hrx hry hkey
    obtain ⟨rx', hrx', hkx⟩ := hold hrx
    obtain ⟨ry', hry', hky⟩ := hold hry
    exact h.unique hx hy hrx' hry' (hkx.symm.trans (hkey.trans hky))

/-- Rewriting the record of an owner under a key is an update of that key of that map. -/
theorem lookup_rewrite (h : KeyedRecords index table key) (k' : K) (a' : A) {f : R → R}
    (hf : ∀ r, key (f r) = key r) (hfind : find index table key k a = some e) :
    lookup index (table.modify e f) key k' a' =
      if k' = k ∧ a' = a then (lookup index table key k a).map f else lookup index table key k' a' := by
  obtain ⟨he, r, hr, hkey⟩ := of_find hfind
  have hlookup : lookup index table key k a = some r := h.lookup_eq_some.mpr ⟨e, he, hr, hkey⟩
  have hat : (table.modify e f)[e]? = some (f r) := by
    rw [ExtTreeMap.getElem?_modify, if_pos ReflCmp.compare_self, hr, Option.map_some]
  have hoff : ∀ {x}, x ≠ e → (table.modify e f)[x]? = table[x]? := by
    intro x hx
    rw [ExtTreeMap.getElem?_modify, if_neg (mt LawfulEqCmp.eq_of_compare (Ne.symm hx))]
  apply Option.ext
  intro r'
  rw [(h.rewrite e hf).lookup_eq_some]
  split
  · rename_i hka
    obtain ⟨rfl, rfl⟩ := hka
    rw [hlookup, Option.map_some, Option.some.injEq]
    constructor
    · rintro ⟨x, hx, hr', hkey'⟩
      by_cases hxe : x = e
      · rw [hxe, hat] at hr'
        exact Option.some.inj hr'
      · rw [hoff hxe] at hr'
        exact absurd (h.unique hx he hr' hr (hkey'.trans hkey.symm)) hxe
    · rintro rfl
      exact ⟨e, he, hat, (hf r).trans hkey⟩
  · rename_i hka
    rw [h.lookup_eq_some]
    -- the rewritten record is on no other map and under no other key
    have hother : ∀ {x r'}, x ∈ SetIndex.members index k' → (table.modify e f)[x]? = some r' ∨
        table[x]? = some r' → key r' = a' → x ≠ e := by
      rintro x r' hx hr' hkey' rfl
      refine hka ⟨h.apart hx he, ?_⟩
      rcases hr' with hr' | hr'
      · rw [hat] at hr'
        rw [← hkey', ← Option.some.inj hr', hf, hkey]
      · rw [hr] at hr'
        rw [← hkey', ← Option.some.inj hr', hkey]
    constructor
    · rintro ⟨x, hx, hr', hkey'⟩
      exact ⟨x, hx, hoff (hother hx (.inl hr') hkey') ▸ hr', hkey'⟩
    · rintro ⟨x, hx, hr', hkey'⟩
      exact ⟨x, hx, (hoff (hother hx (.inr hr') hkey')).trans hr', hkey'⟩

section Detach

variable (h : KeyedRecords index table key) (he : e ∈ SetIndex.members index k)
include h he

/-- What the index and the table say after a record is detached. -/
theorem detached_iff {x : E} {r' : R} :
    (x ∈ SetIndex.members (SetIndex.drop index k e) k' ∧ (table.erase e)[x]? = some r') ↔
      x ≠ e ∧ x ∈ SetIndex.members index k' ∧ table[x]? = some r' := by
  rw [SetIndex.mem_members_drop, ExtTreeMap.getElem?_erase]
  by_cases hx : e = x
  · subst hx
    rw [if_pos ReflCmp.compare_self]
    exact ⟨fun hno => absurd hno.2 (Option.some_ne_none r').symm, fun hno => absurd rfl hno.1⟩
  · rw [if_neg (mt LawfulEqCmp.eq_of_compare hx)]
    constructor
    · rintro ⟨hmem, hr⟩
      exact ⟨Ne.symm hx, hmem.1, hr⟩
    · rintro ⟨hxe, hmem, hr⟩
      exact ⟨⟨hmem, fun hboth => hxe hboth.2⟩, hr⟩

theorem detach : KeyedRecords (SetIndex.drop index k e) (table.erase e) key where
  stored := by
    intro k' x hx
    obtain ⟨hx, hnot⟩ := SetIndex.mem_members_drop.mp hx
    refine ExtTreeMap.mem_erase.mpr ⟨fun hcmp => ?_, h.stored hx⟩
    -- the detached id had one owner
    have hex := LawfulEqCmp.eq_of_compare hcmp
    exact hnot ⟨h.apart hx (hex ▸ he), hex.symm⟩
  apart h₁ h₂ := h.apart (SetIndex.mem_members_drop.mp h₁).1 (SetIndex.mem_members_drop.mp h₂).1
  unique := by
    intro k' x y rx ry hx hy hrx hry hkey
    obtain ⟨_, hx, hrx⟩ := (h.detached_iff he).mp ⟨hx, hrx⟩
    obtain ⟨_, hy, hry⟩ := (h.detached_iff he).mp ⟨hy, hry⟩
    exact h.unique hx hy hrx hry hkey

/-- Detaching the record of an owner under a key takes that key off that map. -/
theorem lookup_detach (k' : K) (a' : A) (hr : table[e]? = some r) :
    lookup (SetIndex.drop index k e) (table.erase e) key k' a' =
      if k' = k ∧ a' = key r then none else lookup index table key k' a' := by
  apply Option.ext
  intro r'
  rw [(h.detach he).lookup_eq_some]
  simp only [← and_assoc]
  simp only [h.detached_iff he, and_assoc]
  split
  · rename_i hka
    obtain ⟨rfl, rfl⟩ := hka
    constructor
    · rintro ⟨x, hxe, hx, hr', hkey⟩
      exact absurd (h.unique hx he hr' hr hkey) hxe
    · rintro ⟨⟩
  · rename_i hka
    rw [h.lookup_eq_some]
    constructor
    · rintro ⟨x, _, hx, hr', hkey⟩
      exact ⟨x, hx, hr', hkey⟩
    · rintro ⟨x, hx, hr', hkey⟩
      refine ⟨x, ?_, hx, hr', hkey⟩
      rintro rfl
      exact hka ⟨h.apart hx he, by rw [← hkey, Option.some.inj (hr'.symm.trans hr)]⟩

end Detach

/-! ### Listing -/

theorem mem_keys (h : KeyedRecords index table key) :
    a ∈ keys index table key k ↔ (lookup index table key k a).isSome := by
  unfold keys
  rw [List.mem_filterMap, Option.isSome_iff_exists]
  simp only [h.lookup_eq_some, ExtTreeSet.mem_toList, Option.map_eq_some_iff]
  constructor
  · rintro ⟨e, he, r, hr, hkey⟩
    exact ⟨r, e, he, hr, hkey⟩
  · rintro ⟨r, e, he, hr, hkey⟩
    exact ⟨e, he, r, hr, hkey⟩

/-- Every key is listed once. -/
theorem nodup_keys (h : KeyedRecords index table key) : (keys index table key k).Nodup := by
  unfold keys
  rw [List.Nodup, List.pairwise_filterMap]
  refine (SetIndex.nodup_toList (SetIndex.members index k)).imp_of_mem ?_
  intro e e' he he' hne b hb b' hb' hbb
  obtain ⟨r, hr, hkey⟩ := Option.map_eq_some_iff.mp hb
  obtain ⟨r', hr', hkey'⟩ := Option.map_eq_some_iff.mp hb'
  exact hne (h.unique (ExtTreeSet.mem_toList.mp he) (ExtTreeSet.mem_toList.mp he') hr hr'
    (hkey.trans (hbb.trans hkey'.symm)))

end KeyedRecords

end Foundation
