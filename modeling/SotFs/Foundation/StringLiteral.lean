/-
Module: SotFs.Foundation.StringLiteral
Layer: Foundation
Purpose: String literals, read back. A literal with backslash escapes is scanned to its closing quote; when only
  the quotes of a text are escaped, the scan yields the text and stops at the right quote exactly if the text
  has no backslash. A JSON string is decoded by the rules of JSON; a writer whose code for each character is read
  back as that character is decoded to what it was given.
Trusted boundary: none
Main exports: scanQuoted, escapeQuotes, scanQuoted_escapeQuotes_iff, JsonString.readChar, JsonString.decode,
  JsonString.decode_flatMap
-/
import Mathlib

namespace Foundation

/-! ### Backslash escapes -/

section Scan

variable {xs ys v rest rest' : List Char}

/-- Scan from behind an opening quote, a backslash taking the character after it as it is: the text up to the
    closing quote, and what follows it. -/
def scanQuoted : List Char → Option (List Char × List Char)
  | [] => none
  | '"' :: rest => some ([], rest)
  | '\\' :: c :: rest => (scanQuoted rest).map fun r => (c :: r.1, r.2)
  | ['\\'] => none
  | c :: rest => (scanQuoted rest).map fun r => (c :: r.1, r.2)

/-- A backslash before each quote, and nothing else. -/
def escapeQuotes (xs : List Char) : List Char := xs.flatMap fun c => if c = '"' then ['\\', '"'] else [c]

theorem escapeQuotes_cons_quote (xs : List Char) : escapeQuotes ('"' :: xs) = '\\' :: '"' :: escapeQuotes xs := rfl

theorem escapeQuotes_cons {c : Char} (hc : c ≠ '"') (xs : List Char) :
    escapeQuotes (c :: xs) = c :: escapeQuotes xs := by
  rw [escapeQuotes, List.flatMap_cons, if_neg hc]
  rfl

theorem scanQuoted_cons {c : Char} (hquote : c ≠ '"') (hslash : c ≠ '\\') (xs : List Char) :
    scanQuoted (c :: xs) = (scanQuoted xs).map fun r => (c :: r.1, r.2) := by
  rw [scanQuoted]
  · exact fun h => hquote h
  · exact fun _ _ h => absurd h hslash
  · exact fun h => absurd h hslash

/-- What is scanned and what follows fit in the text, with the closing quote between them. -/
theorem scanQuoted_length (h : scanQuoted xs = some (v, rest)) : v.length + rest.length < xs.length := by
  induction xs using scanQuoted.induct generalizing v with
  | case1 => cases h
  | case2 rest =>
      cases h
      simp
  | case3 c rest ih =>
      rw [scanQuoted, Option.map_eq_some_iff] at h
      obtain ⟨⟨w, r⟩, hscan, heq⟩ := h
      cases heq
      have hlt : w.length + r.length < rest.length := ih hscan
      simp only [List.length_cons]
      omega
  | case4 => cases h
  | case5 c rest hquote hslash hlone ih =>
      rw [scanQuoted] at h
      · obtain ⟨⟨w, r⟩, hscan, heq⟩ := Option.map_eq_some_iff.mp h
        cases heq
        have hlt : w.length + r.length < rest.length := ih hscan
        simp only [List.length_cons]
        omega
      all_goals assumption

/-- Without backslashes an escaped text is scanned as it is. -/
theorem scanQuoted_escapeQuotes_append (hxs : '\\' ∉ xs) (tail : List Char) :
    scanQuoted (escapeQuotes xs ++ tail) = (scanQuoted tail).map fun r => (xs ++ r.1, r.2) := by
  induction xs with
  | nil => exact Option.map_id'.symm ▸ rfl
  | cons c xs ih =>
      rw [List.mem_cons, not_or] at hxs
      by_cases hc : c = '"'
      · subst hc
        rw [escapeQuotes_cons_quote, List.cons_append, List.cons_append, scanQuoted, ih hxs.2, Option.map_map]
        rfl
      · rw [escapeQuotes_cons hc, List.cons_append, scanQuoted_cons hc (Ne.symm hxs.1), ih hxs.2, Option.map_map]
        rfl

/-- A scan that stops at the right quote yields no more characters than were escaped. -/
theorem length_le_of_scanQuoted : ∀ (ys : List Char) {v rest : List Char},
    scanQuoted (escapeQuotes ys ++ '"' :: rest) = some (v, rest) → v.length ≤ ys.length
  | [], _, _, h => by
      cases h
      exact le_rfl
  | [c], _, _, h => by
      by_cases hslash : c = '\\'
      · -- the backslash takes the closing quote, so the scan stops too late
        subst hslash
        obtain ⟨⟨w, r⟩, hscan, heq⟩ := Option.map_eq_some_iff.mp h
        cases heq
        exact absurd (scanQuoted_length hscan) (by simp)
      · have hplain : '\\' ∉ [c] := fun hmem => hslash (List.mem_singleton.mp hmem).symm
        rw [scanQuoted_escapeQuotes_append hplain] at h
        cases h
        exact le_rfl
  | c :: d :: ys, _, _, h => by
      by_cases hslash : c = '\\'
      · subst hslash
        by_cases hd : d = '"'
        · -- the backslash takes that of the quote, which then ends the scan
          subst hd
          obtain ⟨hv, _⟩ := Prod.mk.inj (Option.some.inj h)
          rw [← hv]
          simp
        · rw [escapeQuotes_cons (by decide), escapeQuotes_cons hd] at h
          obtain ⟨⟨w, r⟩, hscan, heq⟩ := Option.map_eq_some_iff.mp h
          cases heq
          have hle : w.length ≤ ys.length := length_le_of_scanQuoted ys hscan
          simp only [List.length_cons]
          omega
      · have hplain : '\\' ∉ [c] := fun hmem => hslash (List.mem_singleton.mp hmem).symm
        have hsplit : escapeQuotes (c :: d :: ys) = escapeQuotes [c] ++ escapeQuotes (d :: ys) :=
          @List.flatMap_append _ _ [c] (d :: ys) _
        rw [hsplit, List.append_assoc, scanQuoted_escapeQuotes_append hplain] at h
        obtain ⟨⟨w, r⟩, hscan, heq⟩ := Option.map_eq_some_iff.mp h
        cases heq
        have hle : w.length ≤ (d :: ys).length := length_le_of_scanQuoted (d :: ys) hscan
        simp only [List.length_append, List.length_cons] at hle ⊢
        simp only [List.length_nil]
        omega

/-- Escaping the quotes is enough exactly for texts without backslashes: only these are scanned back, up to
    the quote that was put behind them. -/
theorem scanQuoted_escapeQuotes_iff :
    scanQuoted (escapeQuotes xs ++ '"' :: rest) = some (xs, rest) ↔ '\\' ∉ xs := by
  constructor
  · intro h hmem
    -- cut at the first backslash: the text before it plays no part
    obtain ⟨ys, zs, rfl, hys⟩ := List.eq_append_cons_of_mem hmem
    have hsplit : escapeQuotes (ys ++ '\\' :: zs) = escapeQuotes ys ++ escapeQuotes ('\\' :: zs) :=
      List.flatMap_append
    rw [hsplit, List.append_assoc, scanQuoted_escapeQuotes_append hys] at h
    obtain ⟨⟨w, r⟩, hscan, heq⟩ := Option.map_eq_some_iff.mp h
    obtain ⟨hw, rfl⟩ := Prod.mk.inj heq
    obtain rfl : w = '\\' :: zs := List.append_cancel_left hw
    cases zs with
    | nil =>
        obtain ⟨⟨_, _⟩, _, hlast⟩ := Option.map_eq_some_iff.mp hscan
        exact absurd (List.cons.inj (Prod.mk.inj hlast).1).1 (by decide)
    | cons d zs =>
        by_cases hd : d = '"'
        · subst hd
          exact absurd (Prod.mk.inj (Option.some.inj hscan)).1 (by simp)
        · rw [escapeQuotes_cons (by decide), escapeQuotes_cons hd] at hscan
          obtain ⟨⟨w, _⟩, hrest, hlast⟩ := Option.map_eq_some_iff.mp hscan
          obtain ⟨htaken, rfl⟩ := Prod.mk.inj hlast
          obtain ⟨rfl, rfl⟩ := List.cons.inj htaken
          exact absurd (length_le_of_scanQuoted zs hrest) (by simp)
  · intro hxs
    rw [scanQuoted_escapeQuotes_append hxs]
    simp [scanQuoted]

end Scan

/-! ### JSON -/

namespace JsonString

/-- The value of a hexadecimal digit, in either case. -/
def hexValue (c : Char) : Option Nat :=
  if '0' ≤ c ∧ c ≤ '9' then some (c.toNat - '0'.toNat)
  else if 'a' ≤ c ∧ c ≤ 'f' then some (c.toNat - 'a'.toNat + 10)
  else if 'A' ≤ c ∧ c ≤ 'F' then some (c.toNat - 'A'.toNat + 10)
  else none

/-- Four hexadecimal digits and what follows them. -/
def hex4 : List Char → Option (Nat × List Char)
  | a :: b :: c :: d :: rest =>
      match hexValue a, hexValue b, hexValue c, hexValue d with
      | some a, some b, some c, some d => some (((a * 16 + b) * 16 + c) * 16 + d, rest)
      | _, _, _, _ => none
  | _ => none

/-- The characters that have an escape of their own. -/
def escapeValue : Char → Option Char
  | '"' => some '"'
  | '\\' => some '\\'
  | '/' => some '/'
  | 'b' => some (Char.ofNat 8)
  | 'f' => some (Char.ofNat 12)
  | 'n' => some '\n'
  | 'r' => some '\r'
  | 't' => some '\t'
  | _ => none

/-- A character given by its number, from behind the `u`. Past the basic plane it is given by two surrogates, a
    high one and a low one; a surrogate alone is no character. -/
def readUnicode (text : List Char) : Option (Char × List Char) :=
  match hex4 text with
  | none => none
  | some (n, rest) =>
      if n < 0xD800 ∨ 0xDFFF < n then some (Char.ofNat n, rest)
      else if 0xDBFF < n then none
      else
        match rest with
        | '\\' :: 'u' :: low =>
            match hex4 low with
            | none => none
            | some (m, rest) =>
                if 0xDC00 ≤ m ∧ m ≤ 0xDFFF then
                  some (Char.ofNat (0x10000 + (n - 0xD800) * 0x400 + (m - 0xDC00)), rest)
                else none
        | _ => none

/-- One character of a string and what follows it. Quotes, backslashes and control characters do not stand for
    themselves. -/
def readChar : List Char → Option (Char × List Char)
  | [] => none
  | ['\\'] => none
  | '\\' :: c :: rest =>
      if c = 'u' then readUnicode rest else (escapeValue c).map fun value => (value, rest)
  | c :: rest => if c = '"' ∨ c.toNat < 0x20 then none else some (c, rest)

/-- The characters of a string up to its closing quote, which must end the text. -/
def decodeBody : Nat → List Char → Option (List Char)
  | 0, _ => none
  | fuel + 1, text =>
      if text = ['"'] then some []
      else
        match readChar text with
        | none => none
        | some (c, rest) => (decodeBody fuel rest).map (c :: ·)

/-- The value of a text that is a JSON string, `none` if it is not one. -/
def decode : List Char → Option (List Char)
  | '"' :: body => decodeBody body.length body
  | _ => none

example : decode "\"\\ud83d\\ude00\\/\\u00e9\"".toList = some "😀/é".toList := by decide

variable {code : Char → List Char}

theorem decodeBody_flatMap (hcode : ∀ c rest, readChar (code c ++ rest) = some (c, rest)) (xs : List Char) :
    ∀ {fuel}, xs.length < fuel → decodeBody fuel (xs.flatMap code ++ ['"']) = some xs := by
  induction xs with
  | nil =>
      intro fuel hfuel
      obtain ⟨fuel, rfl⟩ := Nat.exists_eq_add_of_lt hfuel
      rfl
  | cons c xs ih =>
      intro fuel hfuel
      obtain ⟨fuel, rfl⟩ : ∃ n, fuel = n + 1 := ⟨fuel - 1, by omega⟩
      have hread := hcode c (xs.flatMap code ++ ['"'])
      have hmore : code c ++ (xs.flatMap code ++ ['"']) ≠ ['"'] := by
        intro hend
        rw [hend] at hread
        cases hread
      rw [List.flatMap_cons, List.append_assoc, decodeBody, if_neg hmore, hread]
      dsimp only
      rw [ih (Nat.lt_of_succ_lt_succ hfuel)]
      rfl

theorem length_le_flatMap (hcode : ∀ c rest, readChar (code c ++ rest) = some (c, rest)) (xs : List Char) :
    xs.length ≤ (xs.flatMap code).length := by
  induction xs with
  | nil => exact le_rfl
  | cons c xs ih =>
      have hpos : code c ≠ [] := by
        intro hnil
        have hread := hcode c []
        rw [hnil] at hread
        cases hread
      rw [List.flatMap_cons, List.length_append, List.length_cons]
      have hlen := List.length_pos_iff.mpr hpos
      omega

/-- What is written code by code is decoded, if the code of each character is read back as it. -/
theorem decode_flatMap (hcode : ∀ c rest, readChar (code c ++ rest) = some (c, rest)) (xs : List Char) :
    decode ('"' :: xs.flatMap code ++ ['"']) = some xs := by
  refine decodeBody_flatMap hcode xs ?_
  have hlen := length_le_flatMap hcode xs
  change xs.length < (xs.flatMap code ++ ['"']).length
  rw [List.length_append, List.length_singleton]
  omega

end JsonString

end Foundation
