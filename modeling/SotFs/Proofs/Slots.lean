/-
Module: SotFs.Proofs.Slots
Layer: Proofs
Purpose: The two ways to take a slot of an arena. `alloc` pops the free list or advances the bump pointer;
  `insert_at` takes the slot it is told, and neither leaves the free list nor fills the slots it skips. The
  count, the free list and the vacancy of allocated slots are right as long as `insert_at` keeps off the free
  list, and `alloc` reports a full arena truly as long as no skipped slot is vacant then.
Trusted boundary: none
Main exports: Arena.Kept, ArenaOp.Sound, ArenaOp.Disciplined, Arena.Along, arena_sound_iff
-/
import SotFs.Core.Arena

namespace SotFs

variable {T : Type} {CAPACITY : Nat}

namespace Arena

/-- The slots in use. -/
def inUse (a : Arena T CAPACITY) : Finset Nat := a.slotsWhere fun _ => true

theorem mem_inUse {a : Arena T CAPACITY} {s : Nat} : s ∈ a.inUse ↔ a.data s ≠ none := by
  rw [inUse, mem_slotsWhere, Option.ne_none_iff_exists']
  simp

/-- The count is right, and the free list holds distinct vacant slots. -/
structure Kept (a : Arena T CAPACITY) : Prop where
  len_eq : a.len = a.inUse.card
  vacant : ∀ s ∈ a.freeList, a.data s = none
  distinct : a.freeList.Nodup

theorem Kept.new : (new : Arena T CAPACITY).Kept where
  len_eq := rfl
  vacant _ hs := absurd hs List.not_mem_nil
  distinct := .nil

/-! ### One slot taken, one slot freed -/

theorem inUse_of_data {a a' : Arena T CAPACITY} {s : Nat} {v : T}
    (hdata : a'.data = Function.update a.data s (some v)) : a'.inUse = insert s a.inUse := by
  ext s'
  rw [Finset.mem_insert, mem_inUse, mem_inUse, hdata]
  by_cases hs : s' = s
  · simp [hs]
  · simp [hs]

theorem inUse_of_data_none {a a' : Arena T CAPACITY} {s : Nat}
    (hdata : a'.data = Function.update a.data s none) : a'.inUse = a.inUse.erase s := by
  ext s'
  rw [Finset.mem_erase, mem_inUse, mem_inUse, hdata]
  by_cases hs : s' = s
  · simp [hs]
  · simp [hs]

/-- A vacant slot is taken that is not on the free list any more. -/
theorem Kept.take {a a' : Arena T CAPACITY} {s : Nat} {v : T} (h : a.Kept) (hvacant : a.data s = none)
    (hdata : a'.data = Function.update a.data s (some v)) (hlen : a'.len = a.len + 1)
    (hfree : a'.freeList.Sublist a.freeList) (hs : s ∉ a'.freeList) : a'.Kept where
  len_eq := by
    have hnot : s ∉ a.inUse := fun hmem => mem_inUse.mp hmem hvacant
    rw [inUse_of_data hdata, Finset.card_insert_of_notMem hnot, ← h.len_eq, hlen]
  vacant s' hs' := by
    rw [hdata, Function.update_of_ne (ne_of_mem_of_not_mem hs' hs)]
    exact h.vacant s' (hfree.subset hs')
  distinct := h.distinct.sublist hfree

/-- A slot in use is freed, and goes on the free list or not. -/
theorem Kept.free {a a' : Arena T CAPACITY} {s : Nat} (h : a.Kept) (hused : a.data s ≠ none)
    (hdata : a'.data = Function.update a.data s none) (hlen : a'.len = a.len - 1)
    (hfree : a'.freeList = s :: a.freeList ∨ a'.freeList = a.freeList) : a'.Kept where
  len_eq := by
    rw [inUse_of_data_none hdata, Finset.card_erase_of_mem (mem_inUse.mpr hused), ← h.len_eq, hlen]
  vacant s' hs' := by
    rw [hdata]
    by_cases hs : s' = s
    · rw [hs, Function.update_self]
    · rw [Function.update_of_ne hs]
      rcases hfree with hfree | hfree <;> rw [hfree] at hs'
      · exact h.vacant s' (List.mem_of_ne_of_mem hs hs')
      · exact h.vacant s' hs'
  distinct := by
    rcases hfree with hfree | hfree <;> rw [hfree]
    · exact List.nodup_cons.mpr ⟨fun hmem => hused (h.vacant s hmem), h.distinct⟩
    · exact h.distinct

/-! ### What the calls do -/

/-- `alloc` pops the free list, advances the bump pointer, or finds both at their end. -/
theorem alloc_cases (a : Arena T CAPACITY) (value : T) :
    (∃ s rest, a.freeList = s :: rest ∧ (a.alloc value).1 = some s ∧
      (a.alloc value).2.data = Function.update a.data s (some value) ∧
        (a.alloc value).2.len = a.len + 1 ∧ (a.alloc value).2.freeList = rest) ∨
    (a.freeList = [] ∧ a.nextBump < CAPACITY ∧ (a.alloc value).1 = some a.nextBump ∧
      (a.alloc value).2.data = Function.update a.data a.nextBump (some value) ∧
        (a.alloc value).2.len = a.len + 1 ∧ (a.alloc value).2.freeList = []) ∨
    (a.freeList = [] ∧ a.nextBump = CAPACITY ∧ a.alloc value = (none, a)) := by
  unfold alloc
  split
  · rename_i s rest hfree
    exact .inl ⟨s, rest, hfree, rfl, rfl, rfl, rfl⟩
  · rename_i hfree
    split
    · rename_i hbump
      exact .inr (.inl ⟨hfree, hbump, rfl, rfl, rfl, rfl⟩)
    · rename_i hbump
      exact .inr (.inr ⟨hfree, le_antisymm a.nextBump_le (Nat.not_lt.mp hbump), rfl⟩)

/-- `insert_at` takes a vacant slot in range, or is refused. -/
theorem insertAt_cases (a : Arena T CAPACITY) (id : Nat) (value : T) :
    (a.data id = none ∧ id < CAPACITY ∧
      (a.insertAt id value).2.data = Function.update a.data id (some value) ∧
        (a.insertAt id value).2.len = a.len + 1 ∧ (a.insertAt id value).2.freeList = a.freeList) ∨
    ((a.data id ≠ none ∨ CAPACITY ≤ id) ∧ (a.insertAt id value).2 = a) := by
  unfold insertAt
  split
  · rename_i hcap
    exact .inr ⟨.inr hcap, rfl⟩
  · rename_i hcap
    split
    · rename_i v hv
      exact .inr ⟨.inl (by rw [hv]; exact Option.some_ne_none v), rfl⟩
    · rename_i hvacant
      exact .inl ⟨hvacant, Nat.not_le.mp hcap, rfl, rfl, rfl⟩

/-- `remove` frees a slot in use and puts it on the free list if there is room. -/
theorem remove_cases (a : Arena T CAPACITY) (id : Nat) :
    (a.data id ≠ none ∧ (a.remove id).2.data = Function.update a.data id none ∧
      (a.remove id).2.len = a.len - 1 ∧
        ((a.remove id).2.freeList = id :: a.freeList ∨ (a.remove id).2.freeList = a.freeList)) ∨
    (a.data id = none ∧ (a.remove id).2 = a) := by
  unfold remove
  split
  · rename_i hvacant
    exact .inr ⟨hvacant, rfl⟩
  · rename_i v hv
    refine .inl ⟨by rw [hv]; exact Option.some_ne_none v, rfl, rfl, ?_⟩
    by_cases hroom : a.freeList.length < CAPACITY
    · exact .inl (if_pos hroom)
    · exact .inr (if_neg hroom)

/-- The count is the capacity exactly when no slot is vacant. -/
theorem Kept.len_eq_capacity_iff {a : Arena T CAPACITY} (h : a.Kept) :
    a.len = CAPACITY ↔ ∀ s < CAPACITY, a.data s ≠ none := by
  have hsub : a.inUse ⊆ Finset.range CAPACITY := by
    intro s hs
    rw [Finset.mem_range]
    by_contra hcap
    exact mem_inUse.mp hs (a.data_eq_none_of_le (Nat.not_lt.mp hcap))
  rw [h.len_eq]
  constructor
  · intro hcard s hs
    have hall := Finset.eq_of_subset_of_card_le hsub (by rw [Finset.card_range, hcard])
    exact mem_inUse.mp (hall ▸ Finset.mem_range.mpr hs)
  · intro hall
    have heq : a.inUse = Finset.range CAPACITY :=
      hsub.antisymm fun s hs => mem_inUse.mpr (hall s (Finset.mem_range.mp hs))
    rw [heq, Finset.card_range]

end Arena

/-! ### Runs -/

/-- What a call must do: `alloc` takes a vacant slot, and gives none only when every slot is counted; and the
    arena stays well kept. -/
structure ArenaOp.Sound (a : Arena T CAPACITY) (op : ArenaOp T) : Prop where
  kept : (op.apply a).Kept
  vacant : ∀ value s, op = .alloc value → (a.alloc value).1 = some s → a.data s = none
  full : ∀ value, op = .alloc value → (a.alloc value).1 = none → a.len = CAPACITY

/-- `insert_at` is not given a slot of the free list; an `alloc` that finds the free list empty and the bump
    pointer at the end finds none of the slots vacant that `insert_at` has skipped. -/
def ArenaOp.Disciplined (a : Arena T CAPACITY) : ArenaOp T → Prop
  | .insertAt id _ => id ∉ a.freeList
  | .alloc _ => a.freeList = [] → a.nextBump = CAPACITY → ∀ s < a.nextBump, a.data s ≠ none
  | .dealloc _ | .remove _ => True

/-- `Q` holds of every call of a sequence, where it happens. -/
def Arena.Along (Q : Arena T CAPACITY → ArenaOp T → Prop) : Arena T CAPACITY → List (ArenaOp T) → Prop
  | _, [] => True
  | a, op :: ops => Q a op ∧ Arena.Along Q (op.apply a) ops

namespace Arena.Kept

variable {a : Arena T CAPACITY}

/-- A well kept arena allocates vacant slots, and stays well kept. -/
theorem alloc (h : a.Kept) (value : T) : (a.alloc value).2.Kept ∧
    (∀ s, (a.alloc value).1 = some s → a.data s = none) ∧
      ((a.alloc value).1 = none ↔ a.freeList = [] ∧ a.nextBump = CAPACITY) := by
  rcases a.alloc_cases value with ⟨s, rest, hlist, hsome, hdata, hlen, hfree⟩ |
    ⟨hlist, hbump, hsome, hdata, hlen, hfree⟩ | ⟨hlist, hbump, heq⟩
  · have hvacant := h.vacant s (hlist ▸ List.mem_cons_self)
    have hdistinct := List.nodup_cons.mp (hlist ▸ h.distinct)
    refine ⟨h.take hvacant hdata hlen ?_ (hfree ▸ hdistinct.1), ?_, ?_⟩
    · rw [hfree, hlist]
      exact List.sublist_cons_self s rest
    · intro s' hs'
      rw [hsome] at hs'
      exact Option.some.inj hs' ▸ hvacant
    · rw [hsome, hlist]
      simp
  · have hvacant : a.data a.nextBump = none := by
      by_contra hused
      obtain ⟨v, hv⟩ := Option.ne_none_iff_exists'.mp hused
      exact absurd (a.lt_nextBump hv) (lt_irrefl _)
    refine ⟨h.take hvacant hdata hlen ?_ (hfree ▸ List.not_mem_nil), ?_, ?_⟩
    · rw [hfree]
      exact List.nil_sublist _
    · intro s' hs'
      rw [hsome] at hs'
      exact Option.some.inj hs' ▸ hvacant
    · rw [hsome]
      exact iff_of_false (Option.some_ne_none _) fun hend => hbump.ne hend.2
  · rw [heq]
    refine ⟨h, fun s hs => ?_, iff_of_true rfl ⟨hlist, hbump⟩⟩
    cases hs

/-- `insert_at` keeps an arena well kept exactly when the slot is not on the free list. -/
theorem insertAt_iff (h : a.Kept) (id : Nat) (value : T) :
    (a.insertAt id value).2.Kept ↔ id ∉ a.freeList := by
  rcases a.insertAt_cases id value with ⟨hvacant, _, hdata, hlen, hfree⟩ | ⟨hrefused, heq⟩
  · constructor
    · intro hkept hmem
      have hnone := hkept.vacant id (by rwa [hfree])
      rw [hdata, Function.update_self] at hnone
      cases hnone
    · intro hmem
      exact h.take hvacant hdata hlen (hfree ▸ List.Sublist.refl _) (hfree ▸ hmem)
  · rw [heq]
    refine iff_of_true h fun hmem => ?_
    rcases hrefused with hused | hcap
    · exact hused (h.vacant id hmem)
    · have hlt := a.freeList_lt id hmem
      have hle := a.nextBump_le
      omega

theorem remove (h : a.Kept) (id : Nat) : (a.remove id).2.Kept := by
  rcases a.remove_cases id with ⟨hused, hdata, hlen, hfree⟩ | ⟨_, heq⟩
  · exact h.free hused hdata hlen hfree
  · rwa [heq]

/-- A call of a well kept arena is sound exactly when it is disciplined. -/
theorem sound_iff (h : a.Kept) (op : ArenaOp T) : op.Sound a ↔ op.Disciplined a := by
  cases op with
  | alloc value =>
      obtain ⟨hkept, hvacant, hnone⟩ := h.alloc value
      constructor
      · intro hsound hlist hbump
        rw [hbump]
        exact h.len_eq_capacity_iff.mp (hsound.full value rfl (hnone.mpr ⟨hlist, hbump⟩))
      · intro hall
        refine ⟨hkept, ?_, ?_⟩
        · rintro _ s ⟨⟩ hs
          exact hvacant s hs
        · rintro _ ⟨⟩ hfull
          obtain ⟨hlist, hbump⟩ := hnone.mp hfull
          exact h.len_eq_capacity_iff.mpr fun s hs => hall hlist hbump s (by omega)
  | insertAt id value =>
      refine ⟨fun hsound => (h.insertAt_iff id value).mp hsound.kept, fun hmem => ⟨?_, ?_, ?_⟩⟩
      · exact (h.insertAt_iff id value).mpr hmem
      · rintro _ _ ⟨⟩
      · rintro _ ⟨⟩
  | dealloc id | remove id =>
      refine iff_of_true ⟨h.remove id, ?_, ?_⟩ trivial
      · rintro _ _ ⟨⟩
      · rintro _ ⟨⟩

/-- From a well kept arena, all calls are sound exactly when all are disciplined. -/
theorem along_iff (h : a.Kept) (ops : List (ArenaOp T)) :
    Arena.Along (fun a op => op.Sound a) a ops ↔ Arena.Along (fun a op => op.Disciplined a) a ops := by
  induction ops generalizing a with
  | nil => exact Iff.rfl
  | cons op ops ih =>
      constructor
      · rintro ⟨hsound, hrest⟩
        exact ⟨(h.sound_iff op).mp hsound, (ih hsound.kept).mp hrest⟩
      · rintro ⟨hdisciplined, hrest⟩
        have hsound := (h.sound_iff op).mpr hdisciplined
        exact ⟨hsound, (ih hsound.kept).mpr hrest⟩

end Arena.Kept

/-- The calls from an empty arena are sound exactly when they are disciplined. -/
theorem arena_sound_iff (ops : List (ArenaOp T)) :
    Arena.Along (fun a op => op.Sound a) (.new : Arena T CAPACITY) ops ↔
      Arena.Along (fun a op => op.Disciplined a) (.new : Arena T CAPACITY) ops :=
  Arena.Kept.new.along_iff ops

/-- A slot that `insert_at` takes again while it is on the free list is handed out by the next `alloc`. -/
theorem alloc_overwrites :
    ¬ Arena.Along (fun a op => op.Sound a) (.new : Arena Nat 2)
      [.alloc 10, .dealloc 0, .insertAt 0 20, .alloc 30] := by
  rintro ⟨_, _, _, hsound, _⟩
  exact absurd (hsound.vacant 30 0 rfl rfl) (by decide)

end SotFs
