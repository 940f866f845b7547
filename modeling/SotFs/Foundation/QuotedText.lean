/-
Module: SotFs.Foundation.QuotedText
Layer: Foundation
Purpose: Searching for a pattern that starts with a quote. It can start at quotes only, so a search passes over
  everything between them; and a quoted string in which every quote is escaped holds no pattern that goes on
  behind a closing quote.
Trusted boundary: none
Main exports: prefix_terminated_iff, infix_skip_iff, infix_at_iff, joinQuoted,
  infix_joinQuoted_iff, QuotesEscaped, QuotesEscaped.flatMap, not_infix_quoted
-/
import Mathlib

namespace Foundation

variable {α : Type*} {q c : α} {pat w cs xs ys : List α}

/-- A prefix that lacks the terminator lies before it. -/
theorem prefix_terminated_iff (hpat : c ∉ pat) : pat <+: xs ++ c :: cs ↔ pat <+: xs := by
  refine ⟨fun h => ?_, fun h => h.trans (List.prefix_append xs _)⟩
  rcases Nat.le_total pat.length xs.length with hle | hle
  · exact List.prefix_of_prefix_length_le h (List.prefix_append xs _) hle
  · obtain ⟨rest, rfl⟩ := List.prefix_of_prefix_length_le (List.prefix_append xs _) h hle
    rw [List.prefix_append_right_inj] at h
    cases rest with
    | nil => exact ⟨[], by simp⟩
    | cons x rest =>
        rw [List.cons_prefix_cons] at h
        obtain ⟨rfl, _⟩ := h
        simp at hpat

/-- The pattern does not start in a stretch without its first element. -/
theorem infix_skip_iff (hw : q ∉ w) : q :: pat <:+: w ++ cs ↔ q :: pat <:+: cs := by
  induction w with
  | nil => exact Iff.rfl
  | cons x w ih =>
      rw [List.mem_cons, not_or] at hw
      rw [List.cons_append, List.infix_cons_iff, List.cons_prefix_cons, ih hw.2]
      exact ⟨fun h => h.resolve_left fun hx => hw.1 hx.1, .inr⟩

/-- At a quote it starts there or later. -/
theorem infix_at_iff : q :: pat <:+: q :: cs ↔ pat <+: cs ∨ q :: pat <:+: cs := by
  rw [List.infix_cons_iff, List.cons_prefix_cons, and_iff_right rfl]

/-- The pieces of a text with a quote behind each, before what is left of it. -/
def joinQuoted (q : α) : List (List α) → List α → List α
  | [], rest => rest
  | w :: ws, rest => w ++ q :: joinQuoted q ws rest

/-- What is neither the quote nor in a piece nor in the rest is not in the text. -/
theorem not_mem_joinQuoted {pieces : List (List α)} (hne : c ≠ q) (hpieces : ∀ w ∈ pieces, c ∉ w)
    (hrest : c ∉ xs) : c ∉ joinQuoted q pieces xs := by
  induction pieces with
  | nil => exact hrest
  | cons w ws ih =>
      rw [joinQuoted, List.mem_append, List.mem_cons, not_or, not_or]
      exact ⟨hpieces w List.mem_cons_self, hne, ih fun w' hw' => hpieces w' (List.mem_cons_of_mem w hw')⟩

/-- The text starts with something else than the pattern has behind its quote. -/
def StartsOff (p : α) (xs : List α) : Prop := ∃ x rest, xs = x :: rest ∧ p ≠ x

theorem StartsOff.append {p : α} (h : StartsOff p xs) : StartsOff p (xs ++ ys) := by
  obtain ⟨x, rest, rfl, hne⟩ := h
  exact ⟨x, rest ++ ys, rfl, hne⟩

/-- A pattern that fits behind no quote of the pieces is not in them. -/
theorem infix_joinQuoted_iff {p : α} {pieces : List (List α)} (hquote : ∀ w ∈ pieces, q ∉ w)
    (hstart : ∀ w ∈ pieces.tail, StartsOff p w) (hrest : StartsOff p xs) :
    q :: p :: pat <:+: joinQuoted q pieces xs ↔ q :: p :: pat <:+: xs := by
  induction pieces with
  | nil => exact Iff.rfl
  | cons w ws ih =>
      have hstart' : StartsOff p (joinQuoted q ws xs) := by
        cases ws with
        | nil => exact hrest
        | cons w' ws => exact (hstart w' List.mem_cons_self).append
      obtain ⟨x, cs, hjoin, hne⟩ := hstart'
      have hoff : ¬ p :: pat <+: joinQuoted q ws xs := by
        rw [hjoin, List.cons_prefix_cons]
        exact fun h => hne h.1
      rw [joinQuoted, infix_skip_iff (hquote w List.mem_cons_self), infix_at_iff, or_iff_right hoff]
      exact ih (fun w' hw' => hquote w' (List.mem_cons_of_mem w hw')) fun w' hw' =>
        hstart w' (List.mem_of_mem_tail hw')

/-! ### Escaped quotes -/

/-- Before every quote stands the escape. -/
def QuotesEscaped (esc q : α) (xs : List α) : Prop :=
  ∀ pre post, xs = pre ++ q :: post → pre.getLast? = some esc

variable {esc : α}

theorem QuotesEscaped.nil : QuotesEscaped esc q [] := by
  intro pre post h
  simp at h

theorem QuotesEscaped.append (hxs : QuotesEscaped esc q xs) (hys : QuotesEscaped esc q ys) :
    QuotesEscaped esc q (xs ++ ys) := by
  intro pre post h
  rcases List.append_eq_append_iff.mp h with ⟨mid, rfl, hmid⟩ | ⟨mid, hmid, hpost⟩
  · rw [List.getLast?_append, hys mid post hmid, Option.some_or]
  · cases mid with
    | nil =>
        have hlast := hys [] post (by simpa using hpost.symm)
        cases hlast
    | cons x mid =>
        rw [List.cons_append, List.cons.injEq] at hpost
        exact hxs pre mid (by rw [hmid, ← hpost.1])

theorem QuotesEscaped.flatMap {β : Type*} {f : β → List α} (hf : ∀ b, QuotesEscaped esc q (f b))
    (bs : List β) : QuotesEscaped esc q (bs.flatMap f) := by
  induction bs with
  | nil => exact .nil
  | cons b bs ih =>
      rw [List.flatMap_cons]
      exact (hf b).append ih

theorem QuotesEscaped.of_notMem (hq : q ∉ xs) : QuotesEscaped esc q xs := by
  rintro pre post rfl
  simp at hq

/-- A quoted string with an end behind it: a pattern with a quote inside, no escape before that and something
    other than the end behind it, is not in there. -/
theorem not_infix_quoted (word : List α) (last : α) {next final : α} (hxs : QuotesEscaped esc q xs)
    (hword : word.getLast? = some last) (hlast : last ≠ esc) (hnext : next ≠ final) (hfinal : final ≠ q)
    (hp : pat = word ++ q :: next :: w) : ¬ q :: pat <:+: q :: xs ++ [q, final] := by
  rintro ⟨u, v, h⟩
  have hsplit : (u ++ q :: word) ++ q :: next :: (w ++ v) = (q :: xs) ++ [q, final] := by
    rw [← h, hp]
    simp
  rcases List.append_eq_append_iff.mp hsplit with ⟨mid, hmid, hrest⟩ | ⟨mid, hmid, hrest⟩
  · cases mid with
    | nil =>
        rw [List.nil_append, List.cons.injEq, List.cons.injEq] at hrest
        exact hnext hrest.2.1
    | cons x mid =>
        rw [List.cons_append, List.cons.injEq] at hrest
        obtain ⟨rfl, _⟩ := hrest
        -- the quote lies inside the string, behind the last element of the word
        cases u with
        | nil =>
            rw [List.nil_append, List.cons_append, List.cons.injEq] at hmid
            have hesc := hxs word mid hmid.2
            rw [hword] at hesc
            exact hlast (Option.some.inj hesc)
        | cons y u =>
            rw [List.cons_append, List.cons_append, List.cons.injEq] at hmid
            have hesc := hxs (u ++ q :: word) mid hmid.2
            rw [List.getLast?_append, List.getLast?_cons, hword] at hesc
            exact hlast (Option.some.inj hesc)
  · -- the quote is the closing one or lies behind it
    cases mid with
    | nil =>
        rw [List.nil_append, List.cons.injEq, List.cons.injEq] at hrest
        exact hnext hrest.2.1.symm
    | cons x mid =>
        rw [List.cons_append, List.cons.injEq] at hrest
        cases mid with
        | nil =>
            rw [List.nil_append, List.cons.injEq] at hrest
            exact hfinal hrest.2.1
        | cons y mid => simp at hrest

end Foundation
