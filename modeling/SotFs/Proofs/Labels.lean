/-
Module: SotFs.Proofs.Labels
Layer: Proofs
Purpose: What the exports write of a string that a caller chose. `json_str` has a code for every character, and
  each is read back as it, so a JSON reader gets the string itself. `to_dot` escapes the quotes of a name but
  not its backslashes: the label of a name with a backslash does not read as the name, and may end early or
  not at all.
Trusted boundary: none
Main exports: jsonStr_decodes, TypeGraph.LabelKept, dot_label_kept_iff, dot_label_escapes
-/
import SotFs.Core.Dot
import SotFs.Core.Export
import SotFs.Core.Runs

namespace SotFs

open Std (ExtTreeMap ExtTreeSet)
open Foundation

/-! ### JSON strings -/

/-- A digit of the two that number a control character is read as its value. -/
theorem hexValue_hexDigit : ∀ n < 16, JsonString.hexValue (hexDigit n) = some n := by decide

/-- The code of a control character without an escape of its own. -/
theorem readChar_numbered {c : Char} (hc : c.toNat < 0x20) (rest : List Char) :
    JsonString.readChar (['\\', 'u', '0', '0', hexDigit (c.toNat / 16), hexDigit (c.toNat % 16)] ++ rest) =
      some (c, rest) := by
  have hhigh := hexValue_hexDigit (c.toNat / 16) (by omega)
  have hlow := hexValue_hexDigit (c.toNat % 16) (Nat.mod_lt _ (by decide))
  have hzero : JsonString.hexValue '0' = some 0 := rfl
  have hnumber : ((0 * 16 + 0) * 16 + c.toNat / 16) * 16 + c.toNat % 16 = c.toNat := by omega
  have hfour : JsonString.hex4 ('0' :: '0' :: hexDigit (c.toNat / 16) :: hexDigit (c.toNat % 16) :: rest) =
      some (c.toNat, rest) := by
    rw [JsonString.hex4, hhigh, hlow, hzero]
    dsimp only
    rw [hnumber]
  change JsonString.readUnicode ('0' :: '0' :: hexDigit (c.toNat / 16) :: hexDigit (c.toNat % 16) :: rest) = _
  rw [JsonString.readUnicode, hfour]
  dsimp only
  rw [if_pos (.inl (by omega)), Char.ofNat_toNat]

/-- The code of a character is read as the character. -/
theorem readChar_jsonChar (c : Char) (rest : List Char) :
    JsonString.readChar (jsonChar c ++ rest) = some (c, rest) := by
  unfold jsonChar
  split_ifs with h₁ h₂ h₃ h₄ h₅ h₆ h₇ h₈
  · subst h₁; rfl
  · subst h₂; rfl
  · subst h₃; rfl
  · subst h₄; rfl
  · subst h₅; rfl
  · subst h₆; rfl
  · subst h₇; rfl
  · exact readChar_numbered h₈ rest
  · rw [List.singleton_append, JsonString.readChar, if_neg (not_or.mpr ⟨h₂, h₈⟩)]
    · exact fun hc _ => h₁ hc
    · exact fun _ _ hc => absurd hc h₁

/-- `json_str` writes a JSON string, and it is the string that it was given: a reader that keeps to the rules
    of JSON accepts it whole and decodes it to the same characters. -/
theorem jsonStr_decodes (s : String) : JsonString.decode (jsonStr s).toList = some s.toList := by
  rw [jsonStr, String.toList_ofList]
  exact JsonString.decode_flatMap readChar_jsonChar s.toList

/-! ### DOT labels -/

/-- The label of a directory entry between two stretches of edges: its opening quote stands where the exporter
    puts it, and the scan from there stops at the exporter's closing quote, with the name. -/
def TypeGraph.LabelKept (g : TypeGraph) (style : DotStyle) (before : List Edge) (src : DirId) (tgt : InodeId)
    (name : String) (after : List Edge) : Prop :=
  ∃ tail, (g.toDot style).toList =
      (g.dotNodes style ++ dotEdges style before ++ dotContainsHead src tgt).toList ++ '"' :: tail ∧
    scanQuoted tail = some (name.toList, (dotContainsFoot ++ dotEdges style after ++ "\x7d\n").toList)

theorem dotEdges_append (style : DotStyle) (xs ys : List Edge) :
    dotEdges style (xs ++ ys) = dotEdges style xs ++ dotEdges style ys := by
  rw [dotEdges, List.map_append, String.join_append]
  rfl

theorem dotEdges_cons (style : DotStyle) (edge : Edge) (edges : List Edge) :
    dotEdges style (edge :: edges) = edge.dotLine style ++ dotEdges style edges := by
  rw [dotEdges, List.map_cons, String.join_cons]
  rfl

section Labels

variable {g : TypeGraph} {style : DotStyle} {before after : List Edge} {e : EdgeId} {src : DirId} {tgt : InodeId}
  {name : String}

/-- The document around the label of a directory entry. -/
theorem toDot_split (hedges : g.edges.iter.map Prod.snd = before ++ .contains e src tgt name :: after) :
    (g.toDot style).toList =
      (g.dotNodes style ++ dotEdges style before ++ dotContainsHead src tgt).toList ++
        '"' :: (escapeQuotes name.toList ++
          '"' :: (dotContainsFoot ++ dotEdges style after ++ "\x7d\n").toList) := by
  have hquote : "\"".toList = ['"'] := rfl
  rw [TypeGraph.toDot, hedges, dotEdges_append, dotEdges_cons, Edge.dotLine]
  simp only [String.toList_append, String.toList_ofList, hquote, List.append_assoc, List.nil_append,
    List.cons_append]

/-- The label is kept exactly when the scan of its text is: the exporter puts the opening quote in one place. -/
theorem labelKept_iff (hedges : g.edges.iter.map Prod.snd = before ++ .contains e src tgt name :: after) :
    g.LabelKept style before src tgt name after ↔ '\\' ∉ name.toList := by
  rw [TypeGraph.LabelKept, toDot_split hedges, ← scanQuoted_escapeQuotes_iff]
  constructor
  · rintro ⟨tail, hsplit, hscan⟩
    obtain rfl := (List.cons.inj (List.append_cancel_left hsplit)).2
    exact hscan
  · intro hscan
    exact ⟨_, rfl, hscan⟩

end Labels

/-- The label of a directory entry is kept exactly when its name has no backslash, whatever else is in the
    graph and whatever the style. -/
theorem dot_label_kept_iff (g : TypeGraph) (style : DotStyle) (before after : List Edge) (e : EdgeId) (src : DirId)
    (tgt : InodeId) (name : String)
    (hedges : g.edges.iter.map Prod.snd = before ++ .contains e src tgt name :: after) :
    g.LabelKept style before src tgt name after ↔ '\\' ∉ name.toList := labelKept_iff hedges

/-- The name of a file in the root, with quotes in it. -/
theorem dot_label_kept_iff_quoted :
    ((TypeGraph.new 0).calls (fun _ => 0) [.createFile 1 "a\"b" 0 0 .fileDefault]).LabelKept {}
      [.contains 1 1 1 "."] 1 2 "a\"b" [] :=
  (dot_label_kept_iff _ _ _ _ 2 _ _ _ (by decide)).mpr (by decide)

/-- A file whose name is a backslash, a quote and a statement: the label ends before the statement. -/
theorem dot_label_escapes : ¬ ∀ (g : TypeGraph) (style : DotStyle) (before after : List Edge) (e : EdgeId)
    (src : DirId) (tgt : InodeId) (name : String), Reachable g →
      g.edges.iter.map Prod.snd = before ++ .contains e src tgt name :: after →
        g.LabelKept style before src tgt name after := by
  intro hall
  let g := (TypeGraph.new 0).calls (fun _ => 0) [.createFile 1 "\\\"]; x -> y; #" 0 0 .fileDefault]
  have hkept : g.LabelKept {} [.contains 1 1 1 "."] 1 2 "\\\"]; x -> y; #" [] :=
    hall g _ _ _ 2 _ _ _ (Run.calls _ (.new 0) (by decide)) (by decide)
  rw [labelKept_iff (e := 2) (by decide)] at hkept
  exact hkept (by decide)

end SotFs
