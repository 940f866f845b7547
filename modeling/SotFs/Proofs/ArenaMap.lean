/-
Module: SotFs.Proofs.ArenaMap
Layer: Proofs
Purpose: An arena is a map. The arrays of the source keep step with the arena of the model, whose slots carry
  their state, and the arena with the finite map of its live ids; so whatever calls and copies are made, no
  operation reads a slot that is not initialised, and what is read of the arrays is what is in the map.
Trusted boundary: none
Main exports: SlotArrays.Merged, Arena.Shows, SlotArrays.Agrees, arena_refines_map
-/
import SotFs.Core.SlotArrays
import SotFs.Foundation.Copies

namespace SotFs

open Std (ExtTreeMap ExtTreeSet)
open Foundation

variable {T : Type} {CAPACITY : Nat}

/-! ### The arrays and the arena -/

/-- The arrays hold an arena: a slot is marked as occupied when it has a value, and the stack of freed slots has
    its top at its height. -/
structure SlotArrays.Merged (a : SlotArrays T CAPACITY) (b : Arena T CAPACITY) : Prop where
  data : ∀ i (h : i < CAPACITY), a.data[i] = b.data i
  state : ∀ i (h : i < CAPACITY), a.state[i] = if (b.data i).isSome then .occupied else .vacant
  len : a.len = b.len
  freeCount_le : a.freeCount ≤ CAPACITY
  freeList : b.freeList = ((a.freeList.toList.take a.freeCount).map UInt32.toNat).reverse
  nextBump : a.nextBump = b.nextBump

section Merged

variable {a : SlotArrays T CAPACITY} {b : Arena T CAPACITY}

theorem Arena.insertAt_occupied {i : Nat} {w : T} (hdata : b.data i = some w) (v : T) :
    b.insertAt i v = (false, b) := by
  unfold Arena.insertAt
  rw [hdata]
  split <;> rfl

theorem Arena.insertAt_vacant {i : Nat} (hcap : i < CAPACITY) (hdata : b.data i = none) (v : T) :
    (b.insertAt i v).1 = true ∧ (b.insertAt i v).2.len = b.len + 1 := by
  unfold Arena.insertAt
  rw [dif_neg (not_le.mpr hcap), hdata]
  exact ⟨rfl, rfl⟩

theorem Arena.remove_vacant {i : Nat} (hdata : b.data i = none) : b.remove i = (none, b) := by
  unfold Arena.remove
  split
  · rfl
  · rename_i v hv
    rw [hdata] at hv
    cases hv

theorem Arena.remove_occupied {i : Nat} {v : T} (hdata : b.data i = some v) :
    (b.remove i).2.len = b.len - 1 ∧ (b.remove i).2.nextBump = b.nextBump ∧
      (b.remove i).2.freeList = if b.freeList.length < CAPACITY then i :: b.freeList else b.freeList := by
  unfold Arena.remove
  split
  · rename_i hv
    rw [hdata] at hv
    cases hv
  · exact ⟨rfl, rfl, rfl⟩

theorem Arena.modify_vacant {i : Nat} (hdata : b.data i = none) (f : T → T) : b.modify i f = b := by
  have hsame : Function.update b.data i ((b.data i).map f) = b.data := by
    rw [hdata]
    exact Function.update_eq_self_iff.mpr hdata.symm
  unfold Arena.modify
  congr

theorem SlotArrays.merged_new : (SlotArrays.new : SlotArrays T CAPACITY).Merged .new where
  data _ h := Vector.getElem_replicate h
  state _ h := Vector.getElem_replicate h
  len := rfl
  freeCount_le := Nat.zero_le _
  freeList := rfl
  nextBump := rfl

namespace SlotArrays.Merged

theorem vacant (h : a.Merged b) {i : Nat} (hi : i < CAPACITY) (hdata : b.data i = none) :
    a.state[i] = .vacant := by
  rw [h.state i hi, hdata]
  rfl

theorem occupied (h : a.Merged b) {i : Nat} (hi : i < CAPACITY) {v : T} (hdata : b.data i = some v) :
    a.state[i] = .occupied := by
  rw [h.state i hi, hdata]
  rfl

theorem get (h : a.Merged b) (id : ArenaId) : a.get id = some (b.data id.toNat) := by
  unfold SlotArrays.get
  split
  · rename_i hcap
    cases hdata : b.data id.toNat with
    | none =>
        rw [h.vacant hcap hdata]
    | some v =>
        rw [h.occupied hcap hdata]
        dsimp only
        rw [h.data _ hcap, hdata]
        rfl
  · rename_i hcap
    rw [b.data_eq_none_of_le (not_lt.mp hcap)]

theorem contains (h : a.Merged b) (id : ArenaId) : a.contains id = (b.data id.toNat).isSome := by
  unfold SlotArrays.contains
  split
  · rename_i hcap
    cases hdata : b.data id.toNat with
    | none =>
        rw [h.vacant hcap hdata]
        rfl
    | some v =>
        rw [h.occupied hcap hdata]
        rfl
  · rename_i hcap
    rw [b.data_eq_none_of_le (not_lt.mp hcap)]
    rfl

/-- One slot changes on both sides. -/
theorem update (h : a.Merged b) {i : Nat} (hi : i < CAPACITY) (w : Option T) :
    (∀ j (hj : j < CAPACITY), (a.data.set i w)[j] = Function.update b.data i w j) ∧
    (∀ j (hj : j < CAPACITY), (a.state.set i (if w.isSome then .occupied else .vacant))[j] =
      if (Function.update b.data i w j).isSome then .occupied else .vacant) := by
  constructor
  · intro j hj
    rw [Vector.getElem_set hi hj, Function.update_apply]
    split
    · rename_i hij
      rw [if_pos hij.symm]
    · rename_i hij
      rw [if_neg (Ne.symm hij), h.data j hj]
  · intro j hj
    rw [Vector.getElem_set hi hj, Function.update_apply]
    split
    · rename_i hij
      rw [if_pos hij.symm]
    · rename_i hij
      rw [if_neg (Ne.symm hij), h.state j hj]

/-- An insertion is accepted by both or by neither. -/
theorem insertAt (h : a.Merged b) (id : ArenaId) (v : T) :
    (a.insertAt id v).1 = (b.insertAt id.toNat v).1 ∧
      (a.insertAt id v).2.Merged (b.insertAt id.toNat v).2 := by
  unfold SlotArrays.insertAt Arena.insertAt
  by_cases hcap : id.toNat < CAPACITY
  · rw [dif_pos hcap, dif_neg (not_le.mpr hcap)]
    cases hdata : b.data id.toNat with
    | some w =>
        rw [h.occupied hcap hdata]
        exact ⟨rfl, h⟩
    | none =>
        rw [h.vacant hcap hdata]
        obtain ⟨hvalues, hstates⟩ := h.update hcap (some v)
        refine ⟨rfl, hvalues, hstates, congrArg (· + 1) h.len, h.freeCount_le, h.freeList, ?_⟩
        dsimp only
        rw [h.nextBump]
        split <;> omega
  · rw [dif_neg hcap, dif_pos (not_lt.mp hcap)]
    exact ⟨rfl, h⟩

/-- A removal takes the same value out of both; the count is above zero. -/
theorem remove (h : a.Merged b) (id : ArenaId) (hlen : ∀ v, b.data id.toNat = some v → 0 < b.len) :
    ∃ a', a.remove id = some ((b.remove id.toNat).1, a') ∧ a'.Merged (b.remove id.toNat).2 := by
  unfold SlotArrays.remove
  by_cases hcap : id.toNat < CAPACITY
  · rw [dif_pos hcap]
    cases hdata : b.data id.toNat with
    | none =>
        rw [h.vacant hcap hdata, Arena.remove_vacant hdata]
        exact ⟨a, rfl, h⟩
    | some v =>
        have hpos := hlen v hdata
        obtain ⟨len, hsucc⟩ : ∃ n, a.len = n + 1 := ⟨a.len - 1, by rw [h.len]; omega⟩
        have hheight : b.freeList.length = a.freeCount := by
          rw [h.freeList, List.length_reverse, List.length_map, List.length_take, Vector.length_toList]
          exact min_eq_left h.freeCount_le
        obtain ⟨hvalues, hstates⟩ := h.update hcap none
        obtain ⟨hlen', hbump', hfree'⟩ := Arena.remove_occupied hdata
        rw [h.occupied hcap hdata, h.data _ hcap, hdata, hsucc, Arena.remove_fst, hdata]
        refine ⟨_, rfl, ?_, ?_, ?_, ?_, ?_, ?_⟩
        · rw [Arena.data_remove]
          exact hvalues
        · rw [Arena.data_remove]
          exact hstates
        · rw [hlen', ← h.len, hsucc]
          rfl
        · dsimp only
          split
          · assumption
          · exact h.freeCount_le
        · dsimp only
          rw [hfree', hheight]
          by_cases hroom : a.freeCount < CAPACITY
          · -- the slot is the new top of the stack
            rw [if_pos hroom, dif_pos hroom, if_pos hroom, h.freeList, Vector.toList_set, List.take_add_one,
              List.take_set_of_le le_rfl, List.getElem?_set_self (by rwa [Vector.length_toList])]
            simp
          · rw [if_neg hroom, dif_neg hroom, if_neg hroom]
            exact h.freeList
        · rw [hbump']
          exact h.nextBump
  · have hdata := b.data_eq_none_of_le (not_lt.mp hcap)
    rw [dif_neg hcap, Arena.remove_vacant hdata]
    exact ⟨a, rfl, h⟩

/-- A write finds a value on both sides or on neither. -/
theorem getMut (h : a.Merged b) (id : ArenaId) (f : T → T) :
    ∃ a', a.getMut id f = some ((b.data id.toNat).isSome, a') ∧ a'.Merged (b.modify id.toNat f) := by
  unfold SlotArrays.getMut
  by_cases hcap : id.toNat < CAPACITY
  · rw [dif_pos hcap]
    cases hdata : b.data id.toNat with
    | none =>
        rw [h.vacant hcap hdata, Arena.modify_vacant hdata]
        exact ⟨a, rfl, h⟩
    | some v =>
        rw [h.occupied hcap hdata, h.data _ hcap, hdata]
        obtain ⟨hvalues, _⟩ := h.update hcap (some (f v))
        refine ⟨_, rfl, ?_, ?_, h.len, h.freeCount_le, h.freeList, h.nextBump⟩
        · intro i hi
          rw [Arena.data_modify, hdata]
          exact hvalues i hi
        · intro i hi
          rw [Arena.data_modify, hdata, Function.update_apply]
          split
          · rename_i heq
            subst heq
            exact h.occupied hcap hdata
          · exact h.state i hi
  · have hdata := b.data_eq_none_of_le (not_lt.mp hcap)
    rw [dif_neg hcap, hdata, Arena.modify_vacant hdata]
    exact ⟨a, rfl, h⟩

/-- An iterator yields an item for each value, in the order of the slots. -/
theorem walk {β : Type} (h : a.Merged b) {item : Nat → Option β} {out : Nat → T → β}
    (hitem : ∀ i v, i < CAPACITY → b.data i = some v → item i = some (out i v)) (n : Nat) :
    ∀ pos, pos + n ≤ CAPACITY →
      a.walk item n pos = some ((List.range' pos n).filterMap fun i => (b.data i).map (out i)) := by
  induction n with
  | zero => exact fun _ _ => rfl
  | succ n ih =>
      intro pos hle
      have hpos : pos < CAPACITY := by omega
      rw [SlotArrays.walk, Vector.getElem?_eq_getElem hpos, List.range'_succ, List.filterMap_cons]
      cases hdata : b.data pos with
      | none =>
          rw [h.vacant hpos hdata]
          dsimp only [Option.map_none]
          exact ih (pos + 1) (by omega)
      | some v =>
          rw [h.occupied hpos hdata]
          dsimp only [Option.map_some]
          rw [hitem pos v hpos hdata, ih (pos + 1) (by omega)]
          rfl

theorem iterate {β : Type} (h : a.Merged b) {item : Nat → Option β} (out : Nat → T → β)
    (hitem : ∀ i v, i < CAPACITY → b.data i = some v → item i = some (out i v)) :
    a.walk item a.nextBump 0 = some (b.iter.map fun entry => out entry.1 entry.2) := by
  rw [h.walk hitem _ 0 (by rw [h.nextBump, Nat.zero_add]; exact b.nextBump_le), Arena.iter,
    List.map_filterMap, ← List.range_eq_range', h.nextBump]
  simp only [Option.map_map]
  rfl

theorem read (h : a.Merged b) {i : Nat} {v : T} (hi : i < CAPACITY) (hdata : b.data i = some v) :
    a.data[i]?.join = some v := by
  rw [Vector.getElem?_eq_getElem hi, h.data i hi, hdata]
  rfl

theorem iter (h : a.Merged b) : a.iter = some (b.iter.map fun entry => (UInt32.ofNat entry.1, entry.2)) :=
  h.iterate (fun i v => (UInt32.ofNat i, v)) fun i v hi hdata => by rw [h.read hi hdata]; rfl

theorem keys (h : a.Merged b) : a.keys = some (b.iter.map fun entry => UInt32.ofNat entry.1) :=
  h.iterate (fun i _ => UInt32.ofNat i) fun _ _ _ _ => rfl

theorem values (h : a.Merged b) : a.values = some (b.iter.map Prod.snd) :=
  h.iterate (fun _ v => v) fun _ _ hi hdata => h.read hi hdata

/-- The values of the first slots are copied, the others are not initialised. -/
theorem copyData (h : a.Merged b) (n : Nat) : n ≤ CAPACITY →
    ∃ data, a.copyData n = some data ∧
      ∀ i (hi : i < CAPACITY), data[i] = if i < n then b.data i else none := by
  induction n with
  | zero => exact fun _ => ⟨_, rfl, fun i hi => by rw [if_neg (Nat.not_lt_zero i), Vector.getElem_replicate]⟩
  | succ n ih =>
      intro hn
      obtain ⟨data, hcopy, hdata⟩ := ih (Nat.le_of_succ_le hn)
      have hlt : n < CAPACITY := hn
      rw [SlotArrays.copyData, hcopy]
      dsimp only
      rw [dif_pos hlt]
      cases hslot : b.data n with
      | none =>
          rw [h.vacant hlt hslot]
          refine ⟨data, rfl, fun i hi => ?_⟩
          rw [hdata i hi]
          by_cases hin : i = n
          · subst hin
            rw [if_neg (lt_irrefl i), if_pos (Nat.lt_succ_self i), hslot]
          · have hiff : i < n ↔ i < n + 1 := by omega
            simp only [hiff]
      | some v =>
          rw [h.occupied hlt hslot, h.data n hlt, hslot]
          refine ⟨_, rfl, fun i hi => ?_⟩
          rw [Vector.getElem_set]
          split
          · rename_i hin
            subst hin
            rw [if_pos (Nat.lt_succ_self n), hslot]
          · rename_i hin
            have hiff : i < n ↔ i < n + 1 := by omega
            rw [hdata i hi]
            simp only [hiff]

/-- A clone has every value: none lies at or past the bump pointer. -/
theorem clone (h : a.Merged b) : ∃ a', a.clone = some a' ∧ a'.Merged b := by
  obtain ⟨data, hcopy, hdata⟩ := h.copyData a.nextBump (by rw [h.nextBump]; exact b.nextBump_le)
  rw [SlotArrays.clone, hcopy]
  refine ⟨_, rfl, fun i hi => ?_, h.state, h.len, h.freeCount_le, h.freeList, h.nextBump⟩
  dsimp only
  rw [hdata i hi]
  split
  · rfl
  · rename_i hbump
    cases hslot : b.data i with
    | none => rfl
    | some v => exact absurd (b.lt_nextBump hslot) (h.nextBump ▸ hbump)

end SlotArrays.Merged

end Merged

/-! ### The arena and the map -/

/-- The slots hold a map: each id leads to its slot, there are no others, and the count is the map's. -/
structure Arena.Shows (b : Arena T CAPACITY) (m : ExtTreeMap ArenaId T) : Prop where
  data : ∀ id : ArenaId, b.data id.toNat = m[id]?
  small : ∀ {s v}, b.data s = some v → s < 2 ^ 32
  len : b.len = m.size

theorem ite_compare {α : Type} (id id' : ArenaId) (x y : α) :
    (if compare id id' = .eq then x else y) = if id' = id then x else y :=
  if_congr (Std.compare_eq_iff_eq.trans eq_comm) rfl rfl

namespace Arena.Shows

variable {b : Arena T CAPACITY} {m : ExtTreeMap ArenaId T}

theorem new : (Arena.new : Arena T CAPACITY).Shows ∅ where
  data _ := by simp
  small h := by cases h
  len := rfl

/-- The slot of an id and no other is written. -/
theorem update {b' : Arena T CAPACITY} (h : b.Shows m) {id : ArenaId} {w : Option T}
    {m' : ExtTreeMap ArenaId T} (hdata : b'.data = Function.update b.data id.toNat w)
    (hmap : ∀ id' : ArenaId, m'[id']? = if id' = id then w else m[id']?) (hlen : b'.len = m'.size) :
    b'.Shows m' where
  data id' := by
    rw [hdata, Function.update_apply, hmap, h.data]
    simp only [UInt32.toNat_inj]
  small {s v} hs := by
    rw [hdata, Function.update_apply] at hs
    split at hs
    · rename_i heq
      rw [heq]
      exact id.toNat_lt
    · exact h.small hs
  len := hlen

/-- An id is in the map just if its slot has a value. -/
theorem mem_iff (h : b.Shows m) (id : ArenaId) : id ∈ m ↔ (b.data id.toNat).isSome := by
  rw [h.data, ExtTreeMap.isSome_getElem?_iff_mem]

theorem not_mem (h : b.Shows m) {id : ArenaId} (hdata : b.data id.toNat = none) : id ∉ m := by
  rw [h.mem_iff, hdata]
  exact Bool.false_ne_true

theorem mem (h : b.Shows m) {id : ArenaId} {v : T} (hdata : b.data id.toNat = some v) : id ∈ m := by
  rw [h.mem_iff, hdata]
  rfl

theorem insertAt (h : b.Shows m) (id : ArenaId) (v : T) :
    (b.insertAt id.toNat v).1 = decide (id.toNat < CAPACITY ∧ id ∉ m) ∧
      (b.insertAt id.toNat v).2.Shows (if id.toNat < CAPACITY ∧ id ∉ m then m.insert id v else m) := by
  by_cases hcap : id.toNat < CAPACITY
  · cases hdata : b.data id.toNat with
    | some w =>
        have hrefused : ¬ (id.toNat < CAPACITY ∧ id ∉ m) := fun hboth => hboth.2 (h.mem hdata)
        rw [Arena.insertAt_occupied hdata, if_neg hrefused, decide_eq_false hrefused]
        exact ⟨rfl, h⟩
    | none =>
        have hnew := h.not_mem hdata
        obtain ⟨hok, hlen⟩ := Arena.insertAt_vacant hcap hdata v
        rw [if_pos ⟨hcap, hnew⟩, decide_eq_true ⟨hcap, hnew⟩]
        refine ⟨hok, h.update (Arena.data_insertAt v hcap hdata) (fun id' => ?_) ?_⟩
        · rw [ExtTreeMap.getElem?_insert, ite_compare]
        · rw [hlen, ExtTreeMap.size_insert, if_neg fun hc => hnew (ExtTreeMap.contains_iff_mem.mp hc), h.len]
  · have hrefused : ¬ (id.toNat < CAPACITY ∧ id ∉ m) := fun hboth => hcap hboth.1
    rw [Arena.insertAt_of_le (not_lt.mp hcap), if_neg hrefused, decide_eq_false hrefused]
    exact ⟨rfl, h⟩

theorem remove (h : b.Shows m) (id : ArenaId) : (b.remove id.toNat).2.Shows (m.erase id) := by
  refine h.update (Arena.data_remove b _) (fun id' => ?_) ?_
  · rw [ExtTreeMap.getElem?_erase, ite_compare]
  · rw [ExtTreeMap.size_erase]
    cases hdata : b.data id.toNat with
    | none =>
        rw [Arena.remove_vacant hdata, if_neg fun hc => h.not_mem hdata (ExtTreeMap.contains_iff_mem.mp hc)]
        exact h.len
    | some v =>
        rw [(Arena.remove_occupied hdata).1, if_pos (ExtTreeMap.contains_iff_mem.mpr (h.mem hdata)), h.len]

theorem modify (h : b.Shows m) (id : ArenaId) (f : T → T) : (b.modify id.toNat f).Shows (m.modify id f) := by
  refine h.update (Arena.data_modify b _ f) (fun id' => ?_) ?_
  · rw [ExtTreeMap.getElem?_modify, h.data, ite_compare]
  · rw [ExtTreeMap.size_modify]
    exact h.len

/-- The count is above zero when a slot has a value. -/
theorem len_pos (h : b.Shows m) {id : ArenaId} {v : T} (hdata : b.data id.toNat = some v) : 0 < b.len := by
  have hmem := h.mem hdata
  rw [h.len, Nat.pos_iff_ne_zero]
  intro hzero
  rw [ExtTreeMap.eq_empty_iff_size_eq_zero.mpr hzero] at hmem
  exact ExtTreeMap.not_mem_empty hmem

theorem pairwise_iter (b : Arena T CAPACITY) : b.iter.Pairwise fun x y => x.1 < y.1 := by
  refine List.pairwise_lt_range.filterMap _ ?_
  rintro s s' hlt x hx y hy
  obtain ⟨_, _, rfl⟩ := Option.map_eq_some_iff.mp hx
  obtain ⟨_, _, rfl⟩ := Option.map_eq_some_iff.mp hy
  exact hlt

/-- The listed slots are the entries of the map, in the order of their ids. -/
theorem iter_eq (h : b.Shows m) : (b.iter.map fun entry => (UInt32.ofNat entry.1, entry.2)) = m.toList := by
  have hids : ∀ {s v}, (s, v) ∈ b.iter → (UInt32.ofNat s).toNat = s := fun hmem =>
    UInt32.toNat_ofNat_of_lt' (h.small (Arena.mem_iter.mp hmem))
  have hleft : (b.iter.map fun entry => (UInt32.ofNat entry.1, entry.2)).Pairwise fun x y => x.1 < y.1 := by
    rw [List.pairwise_map]
    refine (pairwise_iter b).imp_of_mem ?_
    rintro ⟨s, v⟩ ⟨s', v'⟩ hx hy hlt
    rw [UInt32.lt_iff_toNat_lt, hids hx, hids hy]
    exact hlt
  have hright : m.toList.Pairwise fun x y => x.1 < y.1 :=
    ExtTreeMap.ordered_keys_toList.imp fun hlt => Std.compare_eq_lt.mp hlt
  have hirrefl : Std.Irrefl fun x y : ArenaId × T => x.1 < y.1 := ⟨fun x => UInt32.lt_irrefl x.1⟩
  refine hleft.eq_of_mem_iff hright fun entry => ?_
  obtain ⟨id, v⟩ := entry
  rw [ExtTreeMap.mem_toList_iff_getElem?_eq_some, ← h.data, List.mem_map]
  constructor
  · rintro ⟨⟨s, w⟩, hmem, heq⟩
    have hs := hids hmem
    cases heq
    rw [hs]
    exact Arena.mem_iter.mp hmem
  · intro hdata
    exact ⟨(id.toNat, v), Arena.mem_iter.mpr hdata, by rw [UInt32.ofNat_toNat]⟩

end Arena.Shows

/-! ### Calls and copies -/

/-- What is read of the arrays is what is in the map: no read goes wrong, the ids are below the capacity, and an
    iteration has every entry once, in the order of the ids. -/
structure SlotArrays.Agrees (a : SlotArrays T CAPACITY) (m : ExtTreeMap ArenaId T) : Prop where
  below : ∀ id ∈ m, id.toNat < CAPACITY
  get : ∀ id : ArenaId, a.get id = some m[id]?
  contains : ∀ id, a.contains id = m.contains id
  len : a.len = m.size
  entries : ∃ entries, a.iter = some entries ∧ a.keys = some (entries.map Prod.fst) ∧
    a.values = some (entries.map Prod.snd) ∧ (entries.map Prod.fst).Pairwise (· < ·) ∧
      ∀ (id : ArenaId) v, (id, v) ∈ entries ↔ m[id]? = some v

/-- The arrays hold an arena that holds the map. -/
def SlotArrays.Represents (a : SlotArrays T CAPACITY) (m : ExtTreeMap ArenaId T) : Prop :=
  ∃ b : Arena T CAPACITY, a.Merged b ∧ b.Shows m

namespace SlotArrays.Represents

variable {a : SlotArrays T CAPACITY} {m : ExtTreeMap ArenaId T}

theorem agrees (h : a.Represents m) : a.Agrees m := by
  obtain ⟨b, hab, hbm⟩ := h
  refine
    { below := fun id hid => ?_
      get := fun id => by rw [hab.get, hbm.data]
      contains := fun id => by rw [hab.contains, hbm.data, ExtTreeMap.isSome_getElem?_eq_contains]
      len := hab.len.trans hbm.len
      entries := ⟨m.toList, ?_, ?_, ?_, ?_, fun _ _ => ExtTreeMap.mem_toList_iff_getElem?_eq_some⟩ }
  · by_contra hcap
    have hlive := (hbm.mem_iff id).mp hid
    rw [b.data_eq_none_of_le (not_lt.mp hcap)] at hlive
    cases hlive
  · rw [hab.iter, hbm.iter_eq]
  · rw [hab.keys, ← hbm.iter_eq, List.map_map]
    rfl
  · rw [hab.values, ← hbm.iter_eq, List.map_map]
    rfl
  · rw [ExtTreeMap.map_fst_toList_eq_keys]
    exact ExtTreeMap.ordered_keys.imp fun hlt => Std.compare_eq_lt.mp hlt

/-- One call gets the answer that the map gives, and is made of both. -/
theorem serve (h : a.Represents m) (call : SlotCall T) :
    ∃ reply a' m', call.serve a = some (reply, a') ∧ some (call.onMap CAPACITY m) = some (reply, m') ∧
      a'.Represents m' := by
  obtain ⟨b, hab, hbm⟩ := h
  cases call with
  | insertAt id v =>
      obtain ⟨hok, hinserted⟩ := hab.insertAt id v
      obtain ⟨haccepted, hshown⟩ := hbm.insertAt id v
      refine ⟨_, _, _, rfl, ?_, _, hinserted, hshown⟩
      rw [SlotCall.onMap, hok, haccepted]
      split
      · rename_i hnew
        rw [decide_eq_true hnew]
      · rename_i hold
        rw [decide_eq_false hold]
  | remove id =>
      obtain ⟨a', hremoved, hab'⟩ := hab.remove id fun _ hdata => hbm.len_pos hdata
      refine ⟨.removed m[id]?, a', m.erase id, ?_, rfl, _, hab', hbm.remove id⟩
      rw [SlotCall.serve, hremoved, Arena.remove_fst, hbm.data]
      rfl
  | write id f =>
      obtain ⟨a', hwritten, hab'⟩ := hab.getMut id f
      refine ⟨.done (m.contains id), a', m.modify id f, ?_, rfl, _, hab', hbm.modify id f⟩
      rw [SlotCall.serve, hwritten, hbm.data, ExtTreeMap.isSome_getElem?_eq_contains]
      rfl

theorem clone (h : a.Represents m) : ∃ a' m', a.clone = some a' ∧ some m = some m' ∧ a'.Represents m' := by
  obtain ⟨b, hab, hbm⟩ := h
  obtain ⟨a', hclone, hab'⟩ := hab.clone
  exact ⟨a', m, hclone, rfl, b, hab', hbm⟩

end SlotArrays.Represents

/-- An arena is a finite map. Whatever calls are made of a new arena and its clones, they get the answers
    that they get from maps of the ids below the capacity, where an id is entered only if it is new; afterwards
    what is read of each arena is what is in its map. And an arena stays as it is under calls of the others, its
    clones and its original among them. -/
theorem arena_refines_map (calls : List (CopyCall (SlotCall T))) :
    ∃ replies arenas maps,
      runCopies SlotCall.serve SlotArrays.clone calls [(SlotArrays.new : SlotArrays T CAPACITY)] =
        some (replies, arenas) ∧
      runCopies (fun call m => some (call.onMap CAPACITY m)) some calls [∅] = some (replies, maps) ∧
      List.Forall₂ SlotArrays.Agrees arenas maps ∧
      ∀ k < arenas.length, ∀ later replies' arenas', (∀ c ∈ later, ∀ op, c ≠ .call k op) →
        runCopies SlotCall.serve SlotArrays.clone later arenas = some (replies', arenas') →
          arenas'[k]? = arenas[k]? := by
  have hnew : (SlotArrays.new : SlotArrays T CAPACITY).Represents ∅ := ⟨_, SlotArrays.merged_new, Arena.Shows.new⟩
  obtain ⟨replies, arenas, maps, harenas, hmaps, hrepresents⟩ :=
    runCopies_simulates (fun h call => SlotArrays.Represents.serve h call)
      (fun h => SlotArrays.Represents.clone h) calls (.cons hnew .nil)
  refine ⟨replies, arenas, maps, harenas, hmaps, hrepresents.imp fun _ _ h => h.agrees, ?_⟩
  intro k hk later replies' arenas' hother hlater
  exact runCopies_untouched hother hk hlater

example : (runCopies SlotCall.serve SlotArrays.clone
    [.call 0 (.insertAt 3 'a'), .call 0 (.insertAt 1 'b'), .copy 0, .call 0 (.remove 3), .call 1 (.insertAt 3 'c')]
    [(SlotArrays.new : SlotArrays Char 4)]).map (fun r => (r.1, r.2.map SlotArrays.iter)) =
    some ([some (.done true), some (.done true), none, some (.removed (some 'a')), some (.done false)],
      [some [(1, 'b')], some [(1, 'b'), (3, 'a')]]) := by decide

end SotFs
