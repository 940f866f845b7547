/-
Module: SotFs.Foundation.Buffers
Layer: Foundation
Purpose: Growable buffers position by position. Resizing keeps what fits and fills the rest; overwriting puts
  a block at an offset, keeps what lies outside it and fills the gap before it. Both are given by what stands
  at each position; the cut-and-append forms that a program computes are equal to them.
Trusted boundary: none
Main exports: Buffer.resize, Buffer.overwrite, Buffer.resize_eq, Buffer.overwrite_eq
-/
import Mathlib

namespace Foundation

namespace Buffer

variable {α : Type} {filler : α} {l b : List α} {n o k : Nat}

/-- The first `n` elements, padded with the filler. -/
def resize (filler : α) (l : List α) (n : Nat) : List α :=
  (List.range n).map fun k => l.getD k filler

/-- The buffer that has `b` at offset `o`, the old elements elsewhere and the filler in any gap. -/
def overwrite (filler : α) (l : List α) (o : Nat) (b : List α) : List α :=
  (List.range (max l.length (o + b.length))).map fun k =>
    if o ≤ k ∧ k < o + b.length then b.getD (k - o) filler else l.getD k filler

@[simp] theorem length_resize : (resize filler l n).length = n := by
  simp [resize]

@[simp] theorem length_overwrite : (overwrite filler l o b).length = max l.length (o + b.length) := by
  simp [overwrite]

theorem getElem?_resize (hk : k < n) : (resize filler l n)[k]? = some (l.getD k filler) := by
  simp [resize, hk]

/-- Cutting and padding is resizing. -/
theorem resize_eq : l.take n ++ List.replicate (n - l.length) filler = resize filler l n := by
  apply List.ext_getElem
  · simp
    omega
  · intro k hleft hright
    rw [length_resize] at hright
    simp only [resize, List.getElem_map, List.getElem_range]
    by_cases hk : k < l.length
    · rw [List.getElem_append_left (by simp; omega), List.getElem_take, List.getD_eq_getElem l filler hk]
    · rw [List.getElem_append_right (by simp; omega), List.getElem_replicate,
        List.getD_eq_default l filler (not_lt.mp hk)]

/-- Resizing a buffer keeps the element at every position that fits, the filler standing for what was past
    the end. -/
theorem getD_resize (hk : k < n) : (resize filler l n).getD k filler = l.getD k filler := by
  rw [List.getD_eq_getElem?_getD, getElem?_resize hk]
  rfl

/-- Copying a block into a buffer that holds its end. -/
theorem overwrite_of_le (hend : o + b.length ≤ l.length) :
    l.take o ++ b ++ l.drop (o + b.length) = overwrite filler l o b := by
  apply List.ext_getElem
  · simp
    omega
  · intro k hleft hright
    rw [length_overwrite, max_eq_left hend] at hright
    simp only [overwrite, List.getElem_map, List.getElem_range]
    split
    · rename_i hin
      rw [List.getElem_append_left (by simp; omega), List.getElem_append_right (by simp; omega),
        List.getD_eq_getElem b filler (by omega)]
      congr 1
      rw [List.length_take]
      omega
    · rename_i hout
      rw [List.getD_eq_getElem l filler hright]
      by_cases hbefore : k < o
      · rw [List.getElem_append_left (by simp; omega), List.getElem_append_left (by simp; omega),
          List.getElem_take]
      · rw [List.getElem_append_right (by simp; omega), List.getElem_drop]
        congr 1
        rw [List.length_append, List.length_take]
        omega

/-- Growing a buffer to the end of a block does not change what overwriting gives. -/
theorem overwrite_resize (hend : l.length ≤ o + b.length) :
    overwrite filler (resize filler l (o + b.length)) o b = overwrite filler l o b := by
  unfold overwrite
  rw [length_resize, max_self, max_eq_right hend]
  apply List.map_congr_left
  intro k hk
  rw [getD_resize (List.mem_range.mp hk)]

/-- Growing where needed and copying the block in is overwriting. -/
theorem overwrite_eq {grown : List α}
    (hgrown : grown = if l.length < o + b.length then resize filler l (o + b.length) else l) :
    grown.take o ++ b ++ grown.drop (o + b.length) = overwrite filler l o b := by
  subst hgrown
  split
  · rename_i hlt
    rw [overwrite_of_le (by rw [length_resize]), overwrite_resize hlt.le]
  · rename_i hle
    exact overwrite_of_le (not_lt.mp hle)

end Buffer

end Foundation
