/-
Module: SotFs.Foundation.Json
Layer: Foundation
Purpose: JSON texts, read back. A reader of values by recursive descent (numbers are whole and not negative), and the
  rules by which a writer shows that it is read as it should: one rule for each kind of value, for white space on
  either side, and for the separators of lists. Text that a rule covers is read in front of whatever may follow it.
Trusted boundary: human-reviewed library
Main exports: Json, Json.read, Json.Reads, Json.Reads.num, Json.Reads.str, Json.Reads.arr, Json.Reads.obj,
  Json.Reads.flat, Json.Reads.read
-/
import SotFs.Foundation.StringLiteral

namespace Foundation

/-- A JSON value. The fields of an object are kept in their order. -/
inductive Json where
  | null
  | bool (b : Bool)
  | num (n : Nat)
  | str (s : List Char)
  | arr (items : List Json)
  | obj (fields : List (List Char × Json))

namespace Json

/-! ### Reading -/

/-- White space between tokens. -/
def isSpace (c : Char) : Bool := c == ' ' || c == '\n' || c == '\t' || c == '\r'

def skip (text : List Char) : List Char := text.dropWhile isSpace

/-- The characters of a string from behind its opening quote, and what follows the closing one. -/
def readString : Nat → List Char → Option (List Char × List Char)
  | 0, _ => none
  | fuel + 1, text =>
      if text.head? = some '"' then some ([], text.tail)
      else
        match JsonString.readChar text with
        | none => none
        | some (c, rest) => (readString fuel rest).map fun r => (c :: r.1, r.2)

/-- A whole number without a needless zero in front. -/
def readNumber (text : List Char) : Option (Nat × List Char) :=
  let digits := text.takeWhile Char.isDigit
  if digits = [] ∨ (digits.head? = some '0' ∧ digits ≠ ['0']) then none
  else some (Nat.ofDigitChars 10 digits 0, text.dropWhile Char.isDigit)

/-- A word that stands for a value. -/
def readWord (text : List Char) : Option (Json × List Char) :=
  if ['t', 'r', 'u', 'e'].isPrefixOf text then some (.bool true, text.drop 4)
  else if ['f', 'a', 'l', 's', 'e'].isPrefixOf text then some (.bool false, text.drop 5)
  else if ['n', 'u', 'l', 'l'].isPrefixOf text then some (.null, text.drop 4)
  else none

section Lists

variable {α : Type}

/-- Items with commas between them, one at least, up to a closing bracket. -/
def readSeparated (item : List Char → Option (α × List Char)) (close : Char) :
    Nat → List Char → Option (List α × List Char)
  | 0, _ => none
  | fuel + 1, text =>
      match item text with
      | none => none
      | some (x, rest) =>
          if (skip rest).head? = some ',' then
            (readSeparated item close fuel (skip rest).tail).map fun r => (x :: r.1, r.2)
          else if (skip rest).head? = some close then some ([x], (skip rest).tail)
          else none

/-- Any number of items up to a closing bracket. -/
def readMany (item : List Char → Option (α × List Char)) (close : Char) (text : List Char) :
    Option (List α × List Char) :=
  if (skip text).head? = some close then some ([], (skip text).tail)
  else readSeparated item close text.length text

end Lists

/-- A field of an object, its value read by `value`. -/
def readField (value : List Char → Option (Json × List Char)) (text : List Char) :
    Option ((List Char × Json) × List Char) :=
  if (skip text).head? = some '"' then
    match readString (text.length + 1) (skip text).tail with
    | none => none
    | some (key, rest) =>
        if (skip rest).head? = some ':' then (value (skip rest).tail).map fun r => ((key, r.1), r.2)
        else none
  else none

/-- A value and what follows it. The fuel bounds how deep values may be nested. -/
def readValue : Nat → List Char → Option (Json × List Char)
  | 0, _ => none
  | fuel + 1, text =>
      match skip text with
      | [] => none
      | c :: rest =>
          if c = '\x7b' then (readMany (readField (readValue fuel)) '\x7d' rest).map fun r => (.obj r.1, r.2)
          else if c = '[' then (readMany (readValue fuel) ']' rest).map fun r => (.arr r.1, r.2)
          else if c = '"' then (readString (rest.length + 1) rest).map fun r => (.str r.1, r.2)
          else if c.isDigit = true then (readNumber (c :: rest)).map fun r => (.num r.1, r.2)
          else readWord (c :: rest)

/-- The value of a text that is JSON and nothing else. -/
def read (text : List Char) : Option Json :=
  match readValue (text.length + 1) text with
  | some (v, rest) => if skip rest = [] then some v else none
  | none => none

/-! ### White space -/

/-- White space and nothing else. -/
def Blank (text : List Char) : Prop := ∀ c ∈ text, isSpace c = true

/-- What a number may stand in front of: its first character is no digit. -/
def Ends (rest : List Char) : Prop := ∀ c ∈ rest.head?, c.isDigit = false

theorem blank_nil : Blank [] := by simp [Blank]

theorem ends_nil : Ends [] := by simp [Ends]

theorem ends_cons {c : Char} (hc : c.isDigit = false) (rest : List Char) : Ends (c :: rest) := by
  simpa [Ends] using hc

/-- White space is no digit. -/
theorem isDigit_of_isSpace {c : Char} (hc : isSpace c = true) : c.isDigit = false := by
  simp only [isSpace, Bool.or_eq_true, beq_iff_eq] at hc
  rcases hc with ((rfl | rfl) | rfl) | rfl <;> rfl

theorem Ends.blank_append {space rest : List Char} (hrest : Ends rest) (hspace : Blank space) :
    Ends (space ++ rest) := by
  cases space with
  | nil => exact hrest
  | cons c space => exact ends_cons (isDigit_of_isSpace (hspace c (by simp))) _

theorem skip_blank_append {space : List Char} (hspace : Blank space) (rest : List Char) :
    skip (space ++ rest) = skip rest := List.dropWhile_append_of_pos hspace

theorem skip_cons {c : Char} (hc : isSpace c = false) (rest : List Char) : skip (c :: rest) = c :: rest := by
  simp [skip, hc]

/-! ### Scalars -/

section Scalars

variable {code : Char → List Char}

/-- A string that is written code by code, up to its closing quote. -/
theorem readString_flatMap (code : Char → List Char) (xs rest : List Char)
    (hcode : ∀ c ∈ xs, ∀ more, JsonString.readChar (code c ++ more) = some (c, more)) :
    ∀ {fuel}, xs.length < fuel → readString fuel (xs.flatMap code ++ '"' :: rest) = some (xs, rest) := by
  induction xs with
  | nil =>
      intro fuel hfuel
      obtain ⟨fuel, rfl⟩ := Nat.exists_eq_add_of_lt hfuel
      simp [readString]
  | cons c xs ih =>
      intro fuel hfuel
      obtain ⟨fuel, rfl⟩ : ∃ n, fuel = n + 1 := ⟨fuel - 1, by omega⟩
      have hread := hcode c (by simp) (xs.flatMap code ++ '"' :: rest)
      -- a code that starts with a quote would not be read at all
      have hhead : (code c ++ (xs.flatMap code ++ '"' :: rest)).head? ≠ some '"' := by
        intro hquote
        obtain ⟨more, hmore⟩ := List.head?_eq_some_iff.mp hquote
        rw [hmore] at hread
        simp [JsonString.readChar] at hread
      have hmore := ih (fun d hd => hcode d (by simp [hd])) (Nat.lt_of_succ_lt_succ hfuel)
      rw [List.flatMap_cons, List.append_assoc, readString, if_neg hhead, hread]
      simp [hmore]

theorem length_le_flatMap_of_codes (xs : List Char)
    (hcode : ∀ c ∈ xs, ∀ more, JsonString.readChar (code c ++ more) = some (c, more)) :
    xs.length ≤ (xs.flatMap code).length := by
  induction xs with
  | nil => simp
  | cons c xs ih =>
      have hpos : code c ≠ [] := by
        intro hnil
        have hread := hcode c (by simp) []
        simp [hnil, JsonString.readChar] at hread
      have hle := ih fun d hd => hcode d (by simp [hd])
      have hlen := List.length_pos_iff.mpr hpos
      simp only [List.flatMap_cons, List.length_append, List.length_cons]
      omega

end Scalars

/-- A number is written without a needless zero in front. -/
theorem head_toDigits {n : Nat} (hn : 0 < n) : (Nat.toDigits 10 n).head? ≠ some '0' := by
  induction n using Nat.strong_induction_on with
  | _ n ih =>
      by_cases hlt : n < 10
      · rw [Nat.toDigits_of_lt_base hlt]
        interval_cases n <;> decide
      · have hle : 10 ≤ n := Nat.le_of_not_lt hlt
        rw [Nat.toDigits_of_base_le (by decide) hle, List.head?_append_of_ne_nil _ Nat.toDigits_ne_nil]
        exact ih (n / 10) (Nat.div_lt_self hn (by decide)) (Nat.div_pos hle (by decide))

theorem readNumber_toDigits (n : Nat) {rest : List Char} (hrest : Ends rest) :
    readNumber (Nat.toDigits 10 n ++ rest) = some (n, rest) := by
  have hdigits : ∀ c ∈ Nat.toDigits 10 n, c.isDigit = true :=
    fun c hc => Nat.isDigit_of_mem_toDigits (by decide) (by decide) hc
  have htake : rest.takeWhile Char.isDigit = [] ∧ rest.dropWhile Char.isDigit = rest := by
    cases rest with
    | nil => simp
    | cons c rest => simp [hrest c (by simp)]
  have hzero : ¬ ((Nat.toDigits 10 n).head? = some '0' ∧ Nat.toDigits 10 n ≠ ['0']) := by
    rcases Nat.eq_zero_or_pos n with rfl | hn
    · decide
    · exact fun h => head_toDigits hn h.1
  rw [readNumber, List.takeWhile_append_of_pos hdigits, List.dropWhile_append_of_pos hdigits, htake.1, htake.2,
    List.append_nil, if_neg (not_or.mpr ⟨Nat.toDigits_ne_nil, hzero⟩), Nat.ofDigitChars_ten_toDigits]

/-! ### Tokens -/

section Tokens

variable {α : Type}

/-- `text` is read as `x` wherever it stands: white space may be in front of it, and of what follows nothing is
    taken but white space. -/
def Token (item : List Char → Option (α × List Char)) (x : α) (text : List Char) : Prop :=
  ∀ {space rest}, Blank space → Ends rest →
    ∃ left, item (space ++ (text ++ rest)) = some (x, left) ∧ skip left = skip rest

variable {item : List Char → Option (α × List Char)} {close : Char} {gap trail : List Char} {xs : List α}
  {texts : List (List Char)}

/-- What closes a list is a token of its own. -/
def Closes (close : Char) : Prop := close ≠ ',' ∧ close.isDigit = false ∧ isSpace close = false

instance (close : Char) : Decidable (Closes close) := inferInstanceAs (Decidable (_ ∧ _ ∧ _))

theorem readSeparated_intercalate (hgap : Blank gap) (htrail : Blank trail) (hclose : Closes close)
    (htexts : List.Forall₂ (Token item) xs texts) (hne : xs ≠ []) :
    ∀ (rest) {space fuel}, Blank space → xs.length ≤ fuel →
      readSeparated item close fuel
          (space ++ ((',' :: gap).intercalate texts ++ (trail ++ close :: rest))) = some (xs, rest) := by
  induction htexts with
  | nil => exact absurd rfl hne
  | @cons x text xs texts hx htexts ih =>
      intro rest space fuel hspace hfuel
      obtain ⟨fuel, rfl⟩ : ∃ n, fuel = n + 1 := ⟨fuel - 1, by simp at hfuel; omega⟩
      cases htexts with
      | nil =>
          have hends : Ends (trail ++ close :: rest) := (ends_cons hclose.2.1 rest).blank_append htrail
          obtain ⟨left, hread, hleft⟩ := hx hspace hends
          rw [skip_blank_append htrail, skip_cons hclose.2.2] at hleft
          simp [readSeparated, hread, hleft, hclose.1]
      | @cons y text' ys texts' hy htexts =>
          have hends :
              Ends (',' :: (gap ++ ((',' :: gap).intercalate (text' :: texts') ++ (trail ++ close :: rest)))) :=
            ends_cons (by decide) _
          obtain ⟨left, hread, hleft⟩ := hx hspace hends
          rw [skip_cons (by decide)] at hleft
          have hmore := ih (by simp) rest hgap (Nat.le_of_succ_le_succ hfuel)
          simp only [List.intercalate_cons_cons, List.append_assoc, List.cons_append]
          simp [readSeparated, hread, hleft, hmore]

/-- With a comma alone between the items each but the first is behind its own. -/
theorem intercalate_comma (text : List Char) (texts : List (List Char)) :
    [','].intercalate (text :: texts) = text ++ texts.flatMap (',' :: ·) := by
  induction texts generalizing text with
  | nil => simp
  | cons text' texts ih => simp [List.intercalate_cons_cons, ih]

theorem length_le_intercalate (sep : List Char) (hsep : sep ≠ []) (texts : List (List Char)) :
    texts.length ≤ (sep.intercalate texts).length + 1 := by
  induction texts with
  | nil => simp
  | cons text texts ih =>
      cases texts with
      | nil => simp
      | cons text' texts =>
          have hpos := List.length_pos_iff.mpr hsep
          simp only [List.intercalate_cons_cons, List.length_append, List.length_cons] at ih ⊢
          omega

/-- A list is read item by item, whatever white space stands behind its commas and inside its brackets. -/
theorem readMany_intercalate (hgap : Blank gap) (htrail : Blank trail) (hclose : Closes close)
    (hitem : ∀ text, (skip text).head? = some close → item text = none)
    (htexts : List.Forall₂ (Token item) xs texts) {space rest : List Char} (hspace : Blank space) :
    readMany item close (space ++ ((',' :: gap).intercalate texts ++ (trail ++ close :: rest))) =
      some (xs, rest) := by
  cases htexts with
  | nil =>
      have hskip : skip (space ++ (trail ++ close :: rest)) = close :: rest := by
        rw [skip_blank_append hspace, skip_blank_append htrail, skip_cons hclose.2.2]
      simp [readMany, hskip]
  | @cons x text xs texts hx htexts =>
      have hlong : (x :: xs).length ≤
          (space ++ ((',' :: gap).intercalate (text :: texts) ++ (trail ++ close :: rest))).length := by
        have hlen := length_le_intercalate (',' :: gap) (by simp) (text :: texts)
        have hsame := htexts.length_eq
        simp only [List.length_append, List.length_cons] at hlen ⊢
        omega
      have hsep := readSeparated_intercalate hgap htrail hclose (.cons hx htexts) (by simp) rest hspace hlong
      rw [readMany, if_neg, hsep]
      -- an empty list would be no item, but the first item is one
      intro hhead
      have hnone := hitem _ hhead
      rw [List.length_cons] at hlong
      obtain ⟨n, hn⟩ := Nat.exists_eq_add_of_lt (Nat.lt_of_lt_of_le (Nat.succ_pos _) hlong)
      rw [hn] at hsep
      simp [readSeparated, hnone] at hsep

/-- Fuel that is enough for a list is enough for each item. -/
theorem forall₂_token {item : Nat → List Char → Option (α × List Char)} {fuel : Nat} (sep : List Char)
    (htexts : List.Forall₂ (fun x text => ∀ fuel, text.length ≤ fuel → Token (item fuel) x text) xs texts)
    (hfuel : (sep.intercalate texts).length ≤ fuel) : List.Forall₂ (Token (item fuel)) xs texts := by
  induction htexts with
  | nil => exact .nil
  | @cons x text xs texts hx htexts ih =>
      cases htexts with
      | nil => exact .cons (hx fuel (by simpa using hfuel)) .nil
      | cons hy htexts =>
          simp only [List.intercalate_cons_cons, List.length_append] at hfuel
          exact .cons (hx fuel (by omega)) (ih (by omega))

end Tokens

/-! ### Values -/

/-- `text` is a JSON text of `v`, which a reader meets wherever it stands. -/
def Reads (v : Json) (text : List Char) : Prop := ∀ fuel, text.length ≤ fuel → Token (readValue fuel) v text

/-- `text` is a field of an object: its name, a colon and its value. -/
def ReadsField (field : List Char × Json) (text : List Char) : Prop :=
  ∀ fuel, text.length ≤ fuel → Token (readField (readValue fuel)) field text

/-- The characters of `s` stand for themselves in a string. -/
def Plain (s : List Char) : Prop := ∀ c ∈ s, c ≠ '\\' ∧ c ≠ '"' ∧ ¬ c.toNat < 0x20

instance (s : List Char) : Decidable (Plain s) := inferInstanceAs (Decidable (∀ c ∈ s, _))

@[simp] theorem plain_nil : Plain [] := by simp [Plain]

@[simp] theorem plain_cons {c : Char} {s : List Char} :
    Plain (c :: s) ↔ (c ≠ '\\' ∧ c ≠ '"' ∧ ¬ c.toNat < 0x20) ∧ Plain s := by simp [Plain]

/-- Digits stand for themselves. -/
@[simp] theorem plain_toDigits (n : Nat) : Plain (Nat.toDigits 10 n) := by
  intro c hc
  have hdigit : c.isDigit = true := Nat.isDigit_of_mem_toDigits (by decide) (by decide) hc
  simp only [Char.isDigit, Bool.and_eq_true, decide_eq_true_eq] at hdigit
  refine ⟨?_, ?_, Nat.not_lt_of_le (Nat.le_trans (by decide) hdigit.1)⟩ <;>
    · rintro rfl
      simp at hdigit

theorem readChar_plain {c : Char} (hc : c ≠ '\\' ∧ c ≠ '"' ∧ ¬ c.toNat < 0x20) (rest : List Char) :
    JsonString.readChar (c :: rest) = some (c, rest) := by
  obtain ⟨hslash, hquote, hctrl⟩ := hc
  rw [JsonString.readChar, if_neg (not_or.mpr ⟨hquote, hctrl⟩)]
  · exact fun hc _ => hslash hc
  · exact fun _ _ hc => absurd hc hslash

theorem readString_plain {s rest : List Char} {fuel : Nat} (hs : Plain s) (hfuel : s.length < fuel) :
    readString fuel (s ++ '"' :: rest) = some (s, rest) := by
  have h := readString_flatMap (fun c => [c]) s rest (fun c hc more => readChar_plain (hs c hc) more) hfuel
  rwa [List.flatMap_singleton'] at h

/-- What stands in front of a value does not matter, if it is white space. -/
theorem readValue_blank_append {space : List Char} (hspace : Blank space) (fuel : Nat) (text : List Char) :
    readValue fuel (space ++ text) = readValue fuel text := by
  cases fuel with
  | zero => rfl
  | succ fuel => rw [readValue, readValue, skip_blank_append hspace]

/-- A bracket that closes a list is no value. -/
theorem readValue_close (fuel : Nat) (text : List Char) (h : (skip text).head? = some ']') :
    readValue fuel text = none := by
  obtain ⟨rest, hskip⟩ := List.head?_eq_some_iff.mp h
  cases fuel with
  | zero => rfl
  | succ fuel => simp [readValue, hskip, readWord]

/-- A bracket that closes an object is no field. -/
theorem readField_close (value : List Char → Option (Json × List Char)) (text : List Char)
    (h : (skip text).head? = some '\x7d') : readField value text = none := by
  simp [readField, h]

/-- A number or a string. -/
def Scalar : Json → Prop
  | .num _ | .str _ => True
  | _ => False

/-- The text of a scalar, the characters of a string written by their codes. -/
def scalarText (code : Char → List Char) : Json → List Char
  | .num n => Nat.toDigits 10 n
  | .str s => '"' :: (s.flatMap code ++ ['"'])
  | _ => []

/-- The text of a field with a scalar, without white space. -/
def fieldText (code : Char → List Char) (field : List Char × Json) : List Char :=
  '"' :: (field.1 ++ '"' :: ':' :: scalarText code field.2)

/-- The text of an object whose values are scalars, without white space. -/
def flatText (code : Char → List Char) (fields : List (List Char × Json)) : List Char :=
  '\x7b' :: ([','].intercalate (fields.map (fieldText code)) ++ ['\x7d'])

namespace Reads

variable {v : Json} {text : List Char}

/-- A value is read as it is shown to be read from its first character on. -/
theorem of_cons {c : Char} {body : List Char}
    (h : ∀ fuel rest, body.length ≤ fuel → Ends rest →
      ∃ left, readValue (fuel + 1) (c :: (body ++ rest)) = some (v, left) ∧ skip left = skip rest) :
    Reads v (c :: body) := by
  intro fuel hfuel space rest hspace hrest
  obtain ⟨fuel, rfl⟩ : ∃ n, fuel = n + 1 := ⟨fuel - 1, by simp at hfuel; omega⟩
  rw [readValue_blank_append hspace]
  exact h fuel rest (Nat.le_of_succ_le_succ hfuel) hrest

theorem blank_left {space : List Char} (hspace : Blank space) (h : Reads v text) : Reads v (space ++ text) := by
  intro fuel hfuel space' rest hspace' hrest
  rw [readValue_blank_append hspace', List.append_assoc, readValue_blank_append hspace]
  rw [List.length_append] at hfuel
  exact h fuel (by omega) blank_nil hrest

theorem num (n : Nat) : Reads (.num n) (Nat.toDigits 10 n) := by
  obtain ⟨c, body, hdigits⟩ := List.exists_cons_of_ne_nil (Nat.toDigits_ne_nil (n := n) (b := 10))
  have hc : c.isDigit = true := Nat.isDigit_of_mem_toDigits (by decide) (by decide) (hdigits ▸ List.mem_cons_self)
  rw [hdigits]
  refine of_cons fun fuel rest hfuel hrest => ?_
  have hread := readNumber_toDigits n hrest
  rw [hdigits, List.cons_append] at hread
  -- a digit is none of the characters that other values start with
  have hspace : isSpace c = false := by
    by_contra hsp
    rw [isDigit_of_isSpace (by simpa using hsp)] at hc
    cases hc
  have hbrace : c ≠ '\x7b' := by rintro rfl; cases hc
  have hbracket : c ≠ '[' := by rintro rfl; cases hc
  have hquote : c ≠ '"' := by rintro rfl; cases hc
  exact ⟨rest, by simp [readValue, skip_cons hspace, hbrace, hbracket, hquote, hc, hread], rfl⟩

/-- A string whose characters are written by codes that are read as them. -/
theorem str (code : Char → List Char) (s : List Char)
    (hcode : ∀ c ∈ s, ∀ more, JsonString.readChar (code c ++ more) = some (c, more)) :
    Reads (.str s) ('"' :: (s.flatMap code ++ ['"'])) := by
  refine of_cons fun fuel rest hfuel hrest => ?_
  have hlen := length_le_flatMap_of_codes s hcode
  have hread : readString ((s.flatMap code ++ '"' :: rest).length + 1) (s.flatMap code ++ '"' :: rest) =
      some (s, rest) := readString_flatMap code s rest hcode (by rw [List.length_append]; omega)
  have hquote : skip ('"' :: (s.flatMap code ++ '"' :: rest)) = '"' :: (s.flatMap code ++ '"' :: rest) :=
    skip_cons (by decide) _
  rw [List.append_assoc, List.singleton_append, readValue, hquote]
  simp only [hread]
  exact ⟨rest, by simp, rfl⟩

theorem plain {s : List Char} (hs : Plain s) : Reads (.str s) ('"' :: (s ++ ['"'])) := by
  have h := str (fun c => [c]) s fun c hc more => readChar_plain (hs c hc) more
  rwa [List.flatMap_singleton'] at h

section Lists

variable {vs : List Json} {fields : List (List Char × Json)} {texts : List (List Char)}
  {space gap trail : List Char}

/-- The shape of a list between its brackets. -/
def listText (opening close : Char) (space gap trail : List Char) (texts : List (List Char)) : List Char :=
  opening :: (space ++ ((',' :: gap).intercalate texts ++ (trail ++ [close])))

/-- A list of values, with white space behind its commas and inside its brackets. -/
theorem arr (hspace : Blank space) (hgap : Blank gap) (htrail : Blank trail)
    (htexts : List.Forall₂ Reads vs texts) : Reads (.arr vs) (listText '[' ']' space gap trail texts) := by
  refine of_cons fun fuel rest hfuel _ => ?_
  have hitems : List.Forall₂ (Token (readValue fuel)) vs texts := by
    refine forall₂_token (',' :: gap) htexts ?_
    simp only [List.length_append] at hfuel
    omega
  have hread : readMany (readValue fuel) ']'
      (space ++ ((',' :: gap).intercalate texts ++ (trail ++ ']' :: rest))) = some (vs, rest) :=
    readMany_intercalate hgap htrail (by decide) (readValue_close fuel) hitems hspace
  refine ⟨rest, ?_, rfl⟩
  rw [readValue, skip_cons (by decide)]
  simp [hread]

/-- An object, field by field. -/
theorem obj (hspace : Blank space) (hgap : Blank gap) (htrail : Blank trail)
    (htexts : List.Forall₂ ReadsField fields texts) :
    Reads (.obj fields) (listText '\x7b' '\x7d' space gap trail texts) := by
  refine of_cons fun fuel rest hfuel _ => ?_
  have hitems : List.Forall₂ (Token (readField (readValue fuel))) fields texts := by
    refine forall₂_token (',' :: gap) htexts ?_
    simp only [List.length_append] at hfuel
    omega
  have hread : readMany (readField (readValue fuel)) '\x7d'
      (space ++ ((',' :: gap).intercalate texts ++ (trail ++ '\x7d' :: rest))) = some (fields, rest) :=
    readMany_intercalate hgap htrail (by decide) (readField_close _) hitems hspace
  refine ⟨rest, ?_, rfl⟩
  rw [readValue, skip_cons (by decide)]
  simp [hread]

end Lists

/-- A field, its name written as it is. -/
theorem field {name : List Char} (hname : Plain name) (h : Reads v text) :
    ReadsField (name, v) ('"' :: (name ++ '"' :: ':' :: text)) := by
  intro fuel hfuel space rest hspace hrest
  have htext : text.length ≤ fuel := by
    simp only [List.length_cons, List.length_append] at hfuel
    omega
  obtain ⟨left, hread, hleft⟩ := h fuel htext blank_nil hrest
  have hskip : skip (space ++ ('"' :: (name ++ '"' :: ':' :: text) ++ rest)) =
      '"' :: (name ++ '"' :: ':' :: (text ++ rest)) := by
    rw [skip_blank_append hspace]
    simp [skip_cons, isSpace]
  refine ⟨left, ?_, hleft⟩
  rw [readField, hskip, List.head?_cons, if_pos rfl, List.tail_cons, readString_plain hname]
  · rw [List.nil_append] at hread
    simp [skip_cons, isSpace, hread]
  · simp only [List.length_append, List.length_cons]
    omega

theorem scalar {code : Char → List Char} (hcode : ∀ c more, JsonString.readChar (code c ++ more) = some (c, more))
    (hv : Scalar v) : Reads v (scalarText code v) := by
  cases v with
  | num n => exact .num n
  | str s => exact .str code s fun c _ => hcode c
  | _ => exact hv.elim

/-- A flat object is read as it is, if its names need no codes. -/
theorem flat {code : Char → List Char} (hcode : ∀ c more, JsonString.readChar (code c ++ more) = some (c, more))
    {fields : List (List Char × Json)} (hfields : ∀ field ∈ fields, Plain field.1 ∧ Scalar field.2) :
    Reads (.obj fields) (flatText code fields) := by
  refine obj blank_nil blank_nil blank_nil (List.forall₂_map_right_iff.mpr (List.forall₂_same.mpr ?_))
  intro f hf
  exact field (hfields f hf).1 (scalar hcode (hfields f hf).2)

/-- A text that the rules cover is JSON, and it is the value that they name. -/
theorem read (h : Reads v text) : Json.read text = some v := by
  obtain ⟨left, hread, hleft⟩ := h (text.length + 1) (Nat.le_succ _) blank_nil ends_nil
  rw [List.nil_append, List.append_nil] at hread
  have hend : skip left = [] := hleft
  simp [Json.read, hread, hend]

end Reads

end Json

end Foundation
