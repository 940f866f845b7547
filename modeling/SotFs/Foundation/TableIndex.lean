/-
Module: SotFs.Foundation.TableIndex
Layer: Foundation
Purpose: Secondary indexes of a table. A table is a partial function from row ids to rows. `Indexes` says
  that a `SetIndex` records, under every key, exactly the rows with that key; `UniqueIndex` says that a map
  records, under every key, the one row with that key. Each lemma pairs one table update with the index
  update that keeps the two in step, for an abstract key function.
Trusted boundary: none
Main exports: Indexes, Indexes.insert, Indexes.remove, Indexes.rekey, UniqueIndex, UniqueIndex.insert,
  UniqueIndex.remove, UniqueIndex.rekey
-/
import SotFs.Foundation.SetIndex

namespace Foundation

open Std

set_option linter.unusedSectionVars false

/-- `m` records under each key exactly the rows of the table with that key. -/
def Indexes {K E V : Type} [Ord K] [TransOrd K] [LawfulEqOrd K] [Ord E] [TransOrd E] [LawfulEqOrd E]
    (m : SetIndex K E) (table : E → Option V) (key : V → K) : Prop :=
  ∀ k e, e ∈ SetIndex.members m k ↔ ∃ v, table e = some v ∧ key v = k

namespace Indexes

variable {K E V : Type} [Ord K] [TransOrd K] [LawfulEqOrd K] [Ord E] [TransOrd E] [LawfulEqOrd E]
  [DecidableEq E] {m : SetIndex K E} {table : E → Option V} {key : V → K}

/-- The empty index of the empty table. -/
theorem empty : Indexes (∅ : SetIndex K E) (fun _ => none) key := by
  intro k e
  simp

/-- A row is recorded under its key. -/
theorem mem (h : Indexes m table key) {e : E} {v : V} (hv : table e = some v) :
    e ∈ SetIndex.members m (key v) := (h _ _).mpr ⟨v, hv, rfl⟩

/-- A new row is added under its key. -/
theorem insert (h : Indexes m table key) {e : E} (hvac : table e = none) (v : V) :
    Indexes (SetIndex.add m (key v) e) (Function.update table e (some v)) key := by
  intro k x
  rw [SetIndex.mem_members_add, h k x]
  by_cases hxe : x = e
  · subst hxe
    simp only [hvac, Function.update_self]
    grind
  · simp only [Function.update_of_ne hxe]
    grind

/-- A removed row is dropped under its key. -/
theorem remove (h : Indexes m table key) {e : E} {v : V} (hv : table e = some v) :
    Indexes (SetIndex.drop m (key v) e) (Function.update table e none) key := by
  intro k x
  rw [SetIndex.mem_members_drop, h k x]
  by_cases hxe : x = e
  · subst hxe
    simp only [hv, Function.update_self]
    grind
  · simp only [Function.update_of_ne hxe]
    grind

/-- A row that changes its key moves from one set to the other. -/
theorem rekey (h : Indexes m table key) {e : E} {v : V} (hv : table e = some v) (v' : V) :
    Indexes (SetIndex.add (SetIndex.drop m (key v) e) (key v') e)
      (Function.update table e (some v')) key := by
  have hremoved := h.remove hv
  have hinserted := hremoved.insert (e := e) (by simp) v'
  rwa [Function.update_idem] at hinserted

/-- A row that keeps its key needs no update. -/
theorem replace (h : Indexes m table key) {e : E} {v v' : V} (hv : table e = some v)
    (hkey : key v' = key v) : Indexes m (Function.update table e (some v')) key := by
  intro k x
  rw [h k x]
  by_cases hxe : x = e
  · subst hxe
    simp only [hv, Function.update_self]
    grind
  · simp only [Function.update_of_ne hxe]

/-- A key without rows may be forgotten. -/
theorem forget (h : Indexes m table key) {k : K} (hk : ∀ e v, table e = some v → key v ≠ k) :
    Indexes (m.erase k) table key := by
  intro k' x
  rw [SetIndex.mem_members_erase, h k' x]
  constructor
  · rintro ⟨_, hx⟩
    exact hx
  · rintro ⟨v, hv, rfl⟩
    exact ⟨hk x v hv, v, hv, rfl⟩

end Indexes

/-- `m` records under each key the row of the table with that key. In particular no two rows share a key. -/
def UniqueIndex {K E V : Type} {cmp : K → K → Ordering} [TransCmp cmp] (m : ExtTreeMap K E cmp)
    (table : E → Option V) (key : V → K) : Prop :=
  ∀ k e, m[k]? = some e ↔ ∃ v, table e = some v ∧ key v = k

namespace UniqueIndex

variable {K E V : Type} {cmp : K → K → Ordering} [TransCmp cmp] [LawfulEqCmp cmp] [DecidableEq E]
  {m : ExtTreeMap K E cmp} {table : E → Option V} {key : V → K}

/-- The empty index of the empty table. -/
theorem empty : UniqueIndex (∅ : ExtTreeMap K E cmp) (fun _ => none) key := by
  intro k e
  simp

/-- The key of a row reads the row. -/
theorem get (h : UniqueIndex m table key) {e : E} {v : V} (hv : table e = some v) :
    m[key v]? = some e := (h _ _).mpr ⟨v, hv, rfl⟩

/-- A table has one index. -/
theorem ext {m' : ExtTreeMap K E cmp} (h : UniqueIndex m table key) (h' : UniqueIndex m' table key) :
    m = m' := by
  refine ExtTreeMap.ext_getElem? ?_
  intro k
  refine Option.ext ?_
  intro e
  rw [h k e, h' k e]

/-- Inserting pairs one after another, where no key comes with two values. -/
theorem getElem?_foldl_insert {k : K} {e : E} (l : List (K × E)) :
    ∀ {m : ExtTreeMap K E cmp}, (∀ p ∈ l, ∀ q ∈ l, p.1 = q.1 → p.2 = q.2) →
      ((l.foldl (fun m p => m.insert p.1 p.2) m)[k]? = some e ↔
        (k, e) ∈ l ∨ ((∀ p ∈ l, p.1 ≠ k) ∧ m[k]? = some e)) := by
  induction l with
  | nil =>
      intro m _
      simp
  | cons p l ih =>
      intro m huniq
      have htail : ∀ q ∈ l, ∀ r ∈ l, q.1 = r.1 → q.2 = r.2 :=
        fun q hq r hr => huniq q (List.mem_cons_of_mem p hq) r (List.mem_cons_of_mem p hr)
      rw [List.foldl_cons, ih htail, ExtTreeMap.getElem?_insert]
      obtain ⟨k', v⟩ := p
      by_cases hk : k' = k
      · subst hk
        rw [if_pos (ReflCmp.compare_self)]
        constructor
        · rintro (hmem | ⟨_, hv⟩)
          · exact .inl (List.mem_cons_of_mem _ hmem)
          · cases hv
            exact .inl List.mem_cons_self
        · rintro (hmem | ⟨hfree, _⟩)
          · by_cases hlater : ∃ q ∈ l, q.1 = k'
            · -- a later pair with this key carries the same value
              obtain ⟨⟨_, v'⟩, hq, rfl⟩ := hlater
              have hsame := huniq _ hmem _ (List.mem_cons_of_mem _ hq) rfl
              cases hsame
              exact .inl hq
            · rcases List.mem_cons.mp hmem with heq | hmem
              · cases heq
                exact .inr ⟨fun q hq hqk => hlater ⟨q, hq, hqk⟩, rfl⟩
              · exact .inl hmem
          · exact absurd rfl (hfree _ List.mem_cons_self)
      · have hcmp : ¬ cmp k' k = .eq := fun hcmp => hk (LawfulEqCmp.eq_of_compare hcmp)
        rw [if_neg hcmp]
        simp [hk, Ne.symm hk]

/-- The index built from the rows, one insertion each. -/
theorem of_list {l : List (K × E)} (hl : ∀ k e, (k, e) ∈ l ↔ ∃ v, table e = some v ∧ key v = k)
    (hinj : ∀ {e e' v v'}, table e = some v → table e' = some v' → key v = key v' → e = e') :
    UniqueIndex (l.foldl (fun m p => m.insert p.1 p.2) (∅ : ExtTreeMap K E cmp)) table key := by
  have huniq : ∀ p ∈ l, ∀ q ∈ l, p.1 = q.1 → p.2 = q.2 := by
    rintro ⟨k, e⟩ hp ⟨k', e'⟩ hq hk
    obtain ⟨v, hv, hkv⟩ := (hl k e).mp hp
    obtain ⟨v', hv', hkv'⟩ := (hl k' e').mp hq
    exact hinj hv hv' (hkv.trans (hk.trans hkv'.symm))
  intro k e
  rw [getElem?_foldl_insert l huniq, hl k e]
  simp

/-- Rows with the same key are the same row. -/
theorem inj (h : UniqueIndex m table key) {e e' : E} {v v' : V} (hv : table e = some v)
    (hv' : table e' = some v') (hkey : key v = key v') : e = e' := by
  have hget := h.get hv
  rw [hkey, h.get hv'] at hget
  exact (Option.some.inj hget).symm

/-- A key is absent exactly when no row has it. -/
theorem get_eq_none (h : UniqueIndex m table key) {k : K} :
    m[k]? = none ↔ ∀ e v, table e = some v → key v ≠ k := by
  constructor
  · rintro hnone e v hv rfl
    rw [h.get hv] at hnone
    cases hnone
  · intro hfree
    cases hm : m[k]? with
    | none => rfl
    | some e =>
        obtain ⟨v, hv, hkey⟩ := (h k e).mp hm
        exact absurd hkey (hfree e v hv)

/-- A new row under a free key. -/
theorem insert (h : UniqueIndex m table key) {e : E} (hvac : table e = none) {v : V}
    (hfree : ∀ e' v', table e' = some v' → key v' ≠ key v) :
    UniqueIndex (m.insert (key v) e) (Function.update table e (some v)) key := by
  intro k x
  rw [ExtTreeMap.getElem?_insert]
  by_cases hk : key v = k
  · subst hk
    rw [if_pos (by simp)]
    by_cases hxe : x = e
    · subst hxe
      simp
    · simp only [Function.update_of_ne hxe]
      grind
  · rw [if_neg (by simpa using hk), h k x]
    by_cases hxe : x = e
    · subst hxe
      simp only [hvac, Function.update_self]
      grind
    · simp only [Function.update_of_ne hxe]

/-- A removed row frees its key. -/
theorem remove (h : UniqueIndex m table key) {e : E} {v : V} (hv : table e = some v) :
    UniqueIndex (m.erase (key v)) (Function.update table e none) key := by
  intro k x
  rw [ExtTreeMap.getElem?_erase]
  by_cases hk : key v = k
  · subst hk
    rw [if_pos (by simp)]
    have hinj : ∀ v', table x = some v' → key v' = key v → x = e := fun v' hx hkey => h.inj hx hv hkey
    by_cases hxe : x = e
    · subst hxe
      simp
    · simp only [Function.update_of_ne hxe]
      grind
  · rw [if_neg (by simpa using hk), h k x]
    by_cases hxe : x = e
    · subst hxe
      simp only [hv, Function.update_self]
      grind
    · simp only [Function.update_of_ne hxe]

/-- A row that takes another free key. -/
theorem rekey (h : UniqueIndex m table key) {e : E} {v : V} (v' : V) (hv : table e = some v)
    (hfree : ∀ x w, table x = some w → key w ≠ key v') :
    UniqueIndex ((m.erase (key v)).insert (key v') e) (Function.update table e (some v')) key := by
  have hremoved := h.remove hv
  have hinserted := hremoved.insert (e := e) (v := v') (by simp) (by
    intro x w hx
    by_cases hxe : x = e
    · subst hxe
      simp at hx
    · rw [Function.update_of_ne hxe] at hx
      exact hfree x w hx)
  rwa [Function.update_idem] at hinserted

/-- A row that keeps its key needs no update. -/
theorem replace (h : UniqueIndex m table key) {e : E} {v v' : V} (hv : table e = some v)
    (hkey : key v' = key v) : UniqueIndex m (Function.update table e (some v')) key := by
  intro k x
  rw [h k x]
  by_cases hxe : x = e
  · subst hxe
    simp only [hv, Function.update_self]
    grind
  · simp only [Function.update_of_ne hxe]

end UniqueIndex

end Foundation
