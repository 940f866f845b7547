/-
Module: SotFs.Core.Arena
Layer: Core
Purpose: The fixed-capacity slot store behind every node and edge pool (sotfs-graph/src/arena.rs). A slot
  is occupied exactly when its entry is `some`; this merges the `data` and `state` arrays, whose agreement
  is the safety invariant of the source. What every operation keeps is carried by the structure: an
  occupied slot and a freed slot lie below the bump pointer, and the bump pointer lies within the capacity.
  The free list is the live part of the source's stack, top first.
Trusted boundary: human-reviewed model
Main exports: Arena, Arena.alloc, Arena.insertAt, Arena.dealloc, Arena.remove, Arena.modify, Arena.get,
  Arena.iter, Arena.slotsWhere, ArenaOp, ArenaOp.apply, Arena.replay
-/
import Mathlib

namespace SotFs

/-- A pool of `CAPACITY` slots with a bump pointer and a stack of freed slots. Slot indices (`ArenaId`) are
    natural numbers. -/
structure Arena (T : Type) (CAPACITY : Nat) where
  data : Nat → Option T
  len : Nat
  freeList : List Nat
  nextBump : Nat
  lt_nextBump : ∀ {s : Nat} {v : T}, data s = some v → s < nextBump
  freeList_lt : ∀ s ∈ freeList, s < nextBump
  nextBump_le : nextBump ≤ CAPACITY

namespace Arena

variable {T : Type} {CAPACITY : Nat}

/-- The empty arena: every slot vacant. -/
def new : Arena T CAPACITY where
  data _ := none
  len := 0
  freeList := []
  nextBump := 0
  lt_nextBump h := by simp at h
  freeList_lt _ h := by simp at h
  nextBump_le := Nat.zero_le _

/-- `alloc`: write `value` at the slot on top of the free list or, when the list is empty, at the bump
    pointer. Nothing but a debug assertion checks that the slot is vacant. -/
def alloc (a : Arena T CAPACITY) (value : T) : Option Nat × Arena T CAPACITY :=
  match hfree : a.freeList with
  | slot :: rest =>
      (some slot,
        { data := Function.update a.data slot (some value)
          len := a.len + 1
          freeList := rest
          nextBump := a.nextBump
          lt_nextBump := by
            intro s v hs
            by_cases hslot : s = slot
            · exact hslot ▸ a.freeList_lt slot (hfree ▸ List.mem_cons_self)
            · rw [Function.update_of_ne hslot] at hs
              exact a.lt_nextBump hs
          freeList_lt := fun s hs => a.freeList_lt s (hfree ▸ List.mem_cons_of_mem _ hs)
          nextBump_le := a.nextBump_le })
  | [] =>
      if hbump : a.nextBump < CAPACITY then
        (some a.nextBump,
          { data := Function.update a.data a.nextBump (some value)
            len := a.len + 1
            freeList := []
            nextBump := a.nextBump + 1
            lt_nextBump := by
              intro s v hs
              by_cases hslot : s = a.nextBump
              · omega
              · rw [Function.update_of_ne hslot] at hs
                have := a.lt_nextBump hs
                omega
            freeList_lt := fun s hs => absurd hs List.not_mem_nil
            nextBump_le := hbump })
      else (none, a)

/-- `insert_at`: write `value` at a caller-chosen slot. Refused (`false`, nothing changed) when the slot is
    out of range or already occupied. -/
def insertAt (a : Arena T CAPACITY) (id : Nat) (value : T) : Bool × Arena T CAPACITY :=
  if hcap : CAPACITY ≤ id then (false, a)
  else
    match a.data id with
    | some _ => (false, a)
    | none =>
        (true,
          { data := Function.update a.data id (some value)
            len := a.len + 1
            freeList := a.freeList
            nextBump := max a.nextBump (id + 1)
            lt_nextBump := by
              intro s v hs
              by_cases hsid : s = id
              · subst hsid; omega
              · rw [Function.update_of_ne hsid] at hs
                have := a.lt_nextBump hs
                omega
            freeList_lt := by
              intro s hs
              have := a.freeList_lt s hs
              omega
            nextBump_le := by
              have := a.nextBump_le
              omega })

/-- `remove`: take the value out of a slot and push the slot on the free list. -/
def remove (a : Arena T CAPACITY) (id : Nat) : Option T × Arena T CAPACITY :=
  match hid : a.data id with
  | none => (none, a)
  | some value =>
      (some value,
        { data := Function.update a.data id none
          len := a.len - 1
          freeList := if a.freeList.length < CAPACITY then id :: a.freeList else a.freeList
          nextBump := a.nextBump
          lt_nextBump := by
            intro s v hs
            by_cases hsid : s = id
            · subst hsid; simp at hs
            · rw [Function.update_of_ne hsid] at hs
              exact a.lt_nextBump hs
          freeList_lt := by
            intro s hs
            split at hs
            · rcases List.mem_cons.mp hs with rfl | hs
              · exact a.lt_nextBump hid
              · exact a.freeList_lt s hs
            · exact a.freeList_lt s hs
          nextBump_le := a.nextBump_le })

/-- `dealloc`: as `remove`, but the value is dropped. -/
def dealloc (a : Arena T CAPACITY) (id : Nat) : Bool × Arena T CAPACITY :=
  ((a.remove id).1.isSome, (a.remove id).2)

/-- A write through `get_mut`: replace the value of an occupied slot, do nothing on a vacant one. -/
def modify (a : Arena T CAPACITY) (id : Nat) (f : T → T) : Arena T CAPACITY :=
  { data := Function.update a.data id ((a.data id).map f)
    len := a.len
    freeList := a.freeList
    nextBump := a.nextBump
    lt_nextBump := by
      intro s v hs
      by_cases hsid : s = id
      · subst hsid
        rw [Function.update_self, Option.map_eq_some_iff] at hs
        obtain ⟨w, hw, _⟩ := hs
        exact a.lt_nextBump hw
      · rw [Function.update_of_ne hsid] at hs
        exact a.lt_nextBump hs
    freeList_lt := a.freeList_lt
    nextBump_le := a.nextBump_le }

/-- `get`: the value of an occupied slot in range. -/
def get (a : Arena T CAPACITY) (id : Nat) : Option T :=
  if CAPACITY ≤ id then none else a.data id

/-- `contains`: whether the slot is in range and occupied. -/
def contains (a : Arena T CAPACITY) (id : Nat) : Bool := (a.get id).isSome

/-- `iter`: the occupied slots below the bump pointer, in slot order. -/
def iter (a : Arena T CAPACITY) : List (Nat × T) :=
  (List.range a.nextBump).filterMap (fun s => (a.data s).map (fun v => (s, v)))

/-- The occupied slots whose value satisfies `p`. -/
def slotsWhere (a : Arena T CAPACITY) (p : T → Bool) : Finset Nat :=
  (Finset.range a.nextBump).filter (fun s => (a.data s).any p)

/-- No slot at or past the capacity is ever occupied. -/
theorem data_eq_none_of_le (a : Arena T CAPACITY) {s : Nat} (h : CAPACITY ≤ s) :
    a.data s = none := by
  cases hs : a.data s with
  | none => rfl
  | some v =>
      have hlt := a.lt_nextBump hs
      have hle := a.nextBump_le
      omega

/-- The range check of `get` is subsumed by the bounds the arena carries. -/
@[simp] theorem get_eq_data (a : Arena T CAPACITY) (s : Nat) : a.get s = a.data s := by
  unfold get
  split
  · rename_i h
    exact (a.data_eq_none_of_le h).symm
  · rfl

@[simp] theorem contains_eq_isSome (a : Arena T CAPACITY) (s : Nat) :
    a.contains s = (a.data s).isSome := by
  rw [contains, get_eq_data]

@[simp] theorem data_new (s : Nat) : (new : Arena T CAPACITY).data s = none := rfl

/-- An accepted insertion writes its slot. -/
theorem data_insertAt {a : Arena T CAPACITY} {id : Nat} (value : T) (hcap : id < CAPACITY)
    (hvac : a.data id = none) :
    (a.insertAt id value).2.data = Function.update a.data id (some value) := by
  unfold insertAt
  rw [dif_neg (by omega)]
  split
  · rename_i v hv
    rw [hvac] at hv
    cases hv
  · rfl

/-- An insertion past the capacity is refused and changes nothing. -/
theorem insertAt_of_le {a : Arena T CAPACITY} {id : Nat} {value : T} (hcap : CAPACITY ≤ id) :
    a.insertAt id value = (false, a) := by
  unfold insertAt
  rw [dif_pos hcap]

@[simp] theorem remove_fst (a : Arena T CAPACITY) (id : Nat) : (a.remove id).1 = a.data id := by
  unfold remove
  split
  · rename_i h; exact h.symm
  · rename_i v h; exact h.symm

@[simp] theorem data_remove (a : Arena T CAPACITY) (id : Nat) :
    (a.remove id).2.data = Function.update a.data id none := by
  unfold remove
  split
  · rename_i h
    exact (Function.update_eq_self_iff.mpr h.symm).symm
  · rfl

@[simp] theorem data_modify (a : Arena T CAPACITY) (id : Nat) (f : T → T) :
    (a.modify id f).data = Function.update a.data id ((a.data id).map f) := rfl

@[simp] theorem mem_slotsWhere {a : Arena T CAPACITY} {p : T → Bool} {s : Nat} :
    s ∈ a.slotsWhere p ↔ ∃ v, a.data s = some v ∧ p v = true := by
  unfold slotsWhere
  rw [Finset.mem_filter, Finset.mem_range, Option.any_eq_true]
  constructor
  · rintro ⟨_, v, hv, hp⟩
    exact ⟨v, hv, hp⟩
  · rintro ⟨v, hv, hp⟩
    exact ⟨a.lt_nextBump hv, v, hv, hp⟩

theorem mem_iter {a : Arena T CAPACITY} {s : Nat} {v : T} :
    (s, v) ∈ a.iter ↔ a.data s = some v := by
  unfold iter
  rw [List.mem_filterMap]
  constructor
  · rintro ⟨t, _, ht⟩
    rw [Option.map_eq_some_iff] at ht
    obtain ⟨w, hw, heq⟩ := ht
    cases heq
    exact hw
  · intro hs
    exact ⟨s, List.mem_range.mpr (a.lt_nextBump hs), by rw [hs]; rfl⟩

/-- Every occupied slot is listed once. -/
theorem iter_nodup (a : Arena T CAPACITY) : a.iter.Nodup := by
  refine List.nodup_range.filterMap ?_
  rintro s s' entry hs hs'
  obtain ⟨_, _, rfl⟩ := Option.map_eq_some_iff.mp hs
  obtain ⟨_, _, heq⟩ := Option.map_eq_some_iff.mp hs'
  exact (congrArg Prod.fst heq).symm

/-- Counting the listed values is counting the slots that hold them. -/
theorem length_filter_iter (a : Arena T CAPACITY) (p : T → Bool) :
    (a.iter.filter fun entry => p entry.2).length = (a.slotsWhere p).card := by
  have hslot : ∀ x ∈ a.iter.filter fun entry => p entry.2, ∀ y ∈ a.iter.filter fun entry => p entry.2,
      x.1 = y.1 → x = y := by
    rintro ⟨s, v⟩ hx ⟨s', v'⟩ hy hs
    dsimp only at hs
    subst hs
    have hv := mem_iter.mp (List.mem_filter.mp hx).1
    have hv' := mem_iter.mp (List.mem_filter.mp hy).1
    rw [hv] at hv'
    cases hv'
    rfl
  rw [← List.length_map (α := Nat × T) Prod.fst,
    ← List.toFinset_card_of_nodup ((a.iter_nodup.filter _).map_on hslot)]
  congr 1
  ext s
  rw [List.mem_toFinset, List.mem_map, mem_slotsWhere]
  constructor
  · rintro ⟨⟨s', v⟩, hmem, rfl⟩
    obtain ⟨hiter, hp⟩ := List.mem_filter.mp hmem
    exact ⟨v, mem_iter.mp hiter, hp⟩
  · rintro ⟨v, hv, hp⟩
    exact ⟨(s, v), List.mem_filter.mpr ⟨mem_iter.mpr hv, hp⟩, rfl⟩

end Arena

/-- A call that takes or frees a slot. -/
inductive ArenaOp (T : Type) where
  | alloc (value : T)
  | insertAt (id : Nat) (value : T)
  | dealloc (id : Nat)
  | remove (id : Nat)
deriving DecidableEq, Repr

/-- The arena that a call leaves. -/
def ArenaOp.apply {T : Type} {CAPACITY : Nat} (a : Arena T CAPACITY) : ArenaOp T → Arena T CAPACITY
  | .alloc value => (a.alloc value).2
  | .insertAt id value => (a.insertAt id value).2
  | .dealloc id => (a.dealloc id).2
  | .remove id => (a.remove id).2

/-- What a list of calls makes of an arena. -/
def Arena.replay {T : Type} {CAPACITY : Nat} (a : Arena T CAPACITY) (ops : List (ArenaOp T)) :
    Arena T CAPACITY :=
  ops.foldl ArenaOp.apply a

end SotFs
