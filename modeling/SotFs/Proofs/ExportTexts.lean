/-
Module: SotFs.Proofs.ExportTexts
Layer: Proofs
Purpose: The two JSON exports against what they are to say. Each node, link and event is written as a flat object,
  its numbers in digits, its own names as they are and the name of an entry by `json_str`; the documents around
  them are lists with white space. So a reader that keeps to the rules of JSON gets from either text the document
  itself, whatever names the entries have.
Trusted boundary: none
Main exports: toList_d3_node, toList_d3_edge, toList_render, FlatFields, export_documents
-/
import SotFs.Spec.ExportDocuments
import SotFs.Proofs.Labels

namespace SotFs

open Foundation
open Foundation.Json (Reads ReadsField Plain Scalar Blank flatText fieldText scalarText)
open GraphHunterEvent (vtypeName edgeFields nodeFields)

/-! ### Names -/

/-- Characters that stand for themselves have no other code. -/
theorem flatMap_jsonChar {s : List Char} (hs : Plain s) : s.flatMap jsonChar = s := by
  have hcode : ∀ c ∈ s, jsonChar c = [c] := by
    intro c hc
    obtain ⟨hslash, hquote, hctrl⟩ := hs c hc
    have hne : ∀ {d : Char}, d.toNat < 0x20 → c ≠ d := fun hd heq => hctrl (heq ▸ hd)
    rw [jsonChar, if_neg hslash, if_neg hquote, if_neg (hne (by decide)), if_neg (hne (by decide)),
      if_neg (hne (by decide)), if_neg (hne (by decide)), if_neg (hne (by decide)), if_neg hctrl]
  rw [List.flatMap_congr hcode, List.flatMap_singleton']

/-- The name of a node is a letter and digits. -/
theorem plain_hunterName (n : NodeId) : Plain n.hunterName.toList := by
  cases n <;> simp [NodeId.hunterName]

theorem plain_vtypeName (k : VnodeType) : Plain (vtypeName k).toList := by
  cases k <;> simp [vtypeName]

/-! ### Numbers of fixed width -/

theorem toList_toString_uint8 (n : UInt8) : (toString n).toList = Nat.toDigits 10 n.toNat := Nat.toList_repr

theorem toList_toString_uint16 (n : UInt16) : (toString n).toList = Nat.toDigits 10 n.toNat := Nat.toList_repr

theorem toList_toString_uint32 (n : UInt32) : (toString n).toList = Nat.toDigits 10 n.toNat := Nat.toList_repr

/-! ### Objects -/

theorem fieldText_num (name : String) (n : Nat) :
    fieldText jsonChar (jsonField name (.num n)) = '"' :: (name.toList ++ '"' :: ':' :: Nat.toDigits 10 n) := rfl

/-- A text that needs no codes. -/
theorem fieldText_text (name : String) {s : String} (hs : Plain s.toList) :
    fieldText jsonChar (jsonField name (jsonText s)) =
      '"' :: (name.toList ++ '"' :: ':' :: '"' :: (s.toList ++ ['"'])) := by
  rw [fieldText, jsonField, jsonText, scalarText, flatMap_jsonChar hs]

/-- The name of an entry. -/
theorem fieldText_jsonStr (name s : String) :
    fieldText jsonChar (jsonField name (jsonText s)) = '"' :: (name.toList ++ '"' :: ':' :: (jsonStr s).toList) := by
  rw [jsonStr, String.toList_ofList]
  rfl

/-- A node of the D3 document is written field by field. -/
theorem toList_d3_node (node : HunterNode) : node.d3.toList =
    flatText jsonChar (jsonField "id" (jsonText node.id.hunterName) :: node.record) := by
  rw [HunterNode.d3, flatText, List.map_cons, fieldText_text _ (plain_hunterName _)]
  unfold HunterNode.d3Fields HunterNode.record
  cases node <;> simp only [List.map_cons, List.map_nil, fieldText_num] <;> rw [fieldText_text _ (by simp)]
  case inode i =>
      rw [fieldText_text _ (plain_vtypeName _)]
      simp [toList_toString_uint32]
  case capability c => simp [toList_toString_uint8]
  all_goals simp

/-- An edge says the same in both documents behind its ends. -/
theorem toList_edgeFields (edge : Edge) :
    (edgeFields edge).toList = (edge.label.map (fieldText jsonChar)).flatMap (',' :: ·) := by
  unfold GraphHunterEvent.edgeFields Edge.label
  cases edge <;> simp only [List.map_cons, List.map_nil, fieldText_num] <;> rw [fieldText_text _ (by simp)]
  case contains =>
      rw [fieldText_jsonStr]
      simp
  case grants => simp [toList_toString_uint8]
  all_goals simp

/-- A link of the D3 document is written field by field. -/
theorem toList_d3_edge (edge : Edge) : edge.d3.toList =
    flatText jsonChar (jsonField "id" (.num edge.id) ::
      jsonField "source" (jsonText edge.srcNode.hunterName) ::
      jsonField "target" (jsonText edge.hunterTgt.hunterName) :: edge.label) := by
  rw [Edge.d3, flatText, List.map_cons, List.map_cons, List.map_cons, fieldText_num,
    fieldText_text _ (plain_hunterName _), fieldText_text _ (plain_hunterName _), Json.intercalate_comma]
  simp [toList_edgeFields]

/-- A node of the event list is written field by field. -/
theorem toList_nodeFields (node : HunterNode) :
    (nodeFields node).toList = (node.eventRecord.map (fieldText jsonChar)).flatMap (',' :: ·) := by
  unfold GraphHunterEvent.nodeFields HunterNode.eventRecord
  cases node <;> simp only [List.map_cons, List.map_nil, fieldText_num] <;> rw [fieldText_text _ (by simp)]
  case inode i =>
      rw [fieldText_text _ (plain_vtypeName _)]
      simp [toList_toString_uint16, toList_toString_uint32]
  case capability c => simp [toList_toString_uint8]
  all_goals simp

/-- An event is written field by field. -/
theorem toList_render (t : Timestamp) (event : GraphHunterEvent) :
    (event.render t).toList = flatText jsonChar (event.fields t) := by
  unfold GraphHunterEvent.render GraphHunterEvent.fields
  cases event <;> dsimp only <;> rw [flatText]
  case addNode node =>
      rw [List.map_cons, List.map_cons, List.map_cons, fieldText_num, fieldText_text _ (by simp),
        fieldText_text _ (plain_hunterName _), Json.intercalate_comma]
      simp [toList_nodeFields]
  case addEdge edge =>
      rw [List.map_cons, List.map_cons, List.map_cons, List.map_cons, List.map_cons, fieldText_num,
        fieldText_num, fieldText_text _ (by simp), fieldText_text _ (plain_hunterName _),
        fieldText_text _ (plain_hunterName _), Json.intercalate_comma]
      simp [toList_edgeFields]

/-! ### Fields -/

/-- Names that need no codes, with numbers and texts. -/
def FlatFields (fields : List (List Char × Json)) : Prop :=
  ∀ field ∈ fields, Plain field.1 ∧ Scalar field.2

@[simp] theorem flatFields_nil : FlatFields [] := by simp [FlatFields]

@[simp] theorem flatFields_num {name : String} {n : Nat} {fields : List (List Char × Json)} :
    FlatFields (jsonField name (.num n) :: fields) ↔ Plain name.toList ∧ FlatFields fields := by
  simp [FlatFields, jsonField, Scalar]

@[simp] theorem flatFields_text {name s : String} {fields : List (List Char × Json)} :
    FlatFields (jsonField name (jsonText s) :: fields) ↔ Plain name.toList ∧ FlatFields fields := by
  simp [FlatFields, jsonField, jsonText, Scalar]

theorem flatFields_record (node : HunterNode) : FlatFields node.record := by
  unfold HunterNode.record
  cases node <;> simp

theorem flatFields_eventRecord (node : HunterNode) : FlatFields node.eventRecord := by
  unfold HunterNode.eventRecord
  cases node <;> simp

theorem flatFields_label (edge : Edge) : FlatFields edge.label := by
  unfold Edge.label
  cases edge <;> simp

theorem flatFields_event (t : Timestamp) (event : GraphHunterEvent) : FlatFields (event.fields t) := by
  unfold GraphHunterEvent.fields
  cases event <;> simp [flatFields_eventRecord, flatFields_label]

/-! ### Documents -/

theorem FlatFields.reads {fields : List (List Char × Json)} (h : FlatFields fields) :
    Reads (.obj fields) (flatText jsonChar fields) := .flat readChar_jsonChar h

theorem reads_node (node : HunterNode) : Reads node.document node.d3.toList := by
  rw [toList_d3_node]
  exact FlatFields.reads (by simp [flatFields_record])

theorem reads_link (edge : Edge) : Reads edge.document edge.d3.toList := by
  rw [toList_d3_edge]
  exact FlatFields.reads (by simp [flatFields_label])

theorem reads_event (t : Timestamp) (event : GraphHunterEvent) :
    Reads (event.document t) (event.render t).toList := by
  rw [toList_render]
  exact (flatFields_event t event).reads

/-- The white space of both documents. -/
theorem blank_indent : Blank "\n  ".toList ∧ Blank "\n    ".toList ∧ Blank "\n".toList := by
  simp [Blank, Json.isSpace]

/-- A field with a list whose items stand on lines of their own. -/
theorem readsField_lines {α : Type} (name : String) (hname : Plain name.toList) (items : List α)
    {document : α → Json} {text : α → String} (hreads : ∀ x, Reads (document x) (text x).toList) :
    ReadsField (jsonField name (.arr (items.map document)))
      ("\"" ++ name ++ "\": [\n    " ++ ",\n    ".intercalate (items.map text) ++ "\n  ]").toList := by
  have hlist : Reads (.arr (items.map document)) (Reads.listText '[' ']' "\n    ".toList "\n    ".toList
      "\n  ".toList (items.map fun x => (text x).toList)) := by
    refine .arr blank_indent.2.1 blank_indent.2.1 blank_indent.1 ?_
    rw [List.forall₂_map_left_iff, List.forall₂_map_right_iff, List.forall₂_same]
    exact fun x _ => hreads x
  have hspace : Blank [' '] := by simp [Blank, Json.isSpace]
  have htext : ("\"" ++ name ++ "\": [\n    " ++ ",\n    ".intercalate (items.map text) ++ "\n  ]").toList =
      '"' :: (name.toList ++ '"' :: ':' :: ([' '] ++ Reads.listText '[' ']' "\n    ".toList "\n    ".toList
        "\n  ".toList (items.map fun x => (text x).toList))) := by
    simp [Reads.listText, String.toList_intercalate, Function.comp_def]
  rw [htext]
  exact Reads.field hname (hlist.blank_left hspace)

theorem readsField_num {name : String} (hname : Plain name.toList) (n : Nat) :
    ReadsField (jsonField name (.num n)) ('"' :: (name.toList ++ '"' :: ':' :: Nat.toDigits 10 n)) :=
  Reads.field hname (.num n)

theorem readsField_text {name s : String} (hname : Plain name.toList) (hs : Plain s.toList) :
    ReadsField (jsonField name (jsonText s)) ('"' :: (name.toList ++ '"' :: ':' :: '"' :: (s.toList ++ ['"']))) :=
  Reads.field hname (.plain hs)

/-- A field with a list of words. -/
theorem readsField_words {name : String} (hname : Plain name.toList) {words : List String}
    (hwords : ∀ s ∈ words, Plain s.toList) :
    ReadsField (jsonField name (.arr (words.map jsonText))) ('"' :: (name.toList ++ '"' :: ':' ::
      Reads.listText '[' ']' [] [] [] (words.map fun s => '"' :: (s.toList ++ ['"'])))) := by
  refine Reads.field hname (.arr Json.blank_nil Json.blank_nil Json.blank_nil ?_)
  rw [List.forall₂_map_left_iff, List.forall₂_map_right_iff, List.forall₂_same]
  exact fun s hs => .plain (hwords s hs)

set_option maxRecDepth 2000 in
/-- The head of the event list, field by field. -/
theorem reads_hunterMeta (g : TypeGraph) : Reads g.hunterHead g.hunterMeta.toList := by
  have hread : Reads g.hunterHead _ := .obj Json.blank_nil Json.blank_nil Json.blank_nil
    (.cons (readsField_text (by simp) (by simp)) (.cons (readsField_num (by simp) _)
      (.cons (readsField_num (by simp) _) (.cons (readsField_num (by simp) _)
        (.cons (readsField_words (by simp) (by simp)) (.cons (readsField_words (by simp) (by simp)) .nil))))))
  convert hread using 1
  unfold TypeGraph.hunterMeta
  simp [Reads.listText, show Nat.toDigits 10 1 = ['1'] from rfl]

/-- The D3 document is JSON and says what the graph holds. -/
theorem read_toD3Json (g : TypeGraph) : Json.read g.toD3Json.toList = some g.d3Document := by
  have hnodes := readsField_lines "nodes" (by simp) g.hunterNodes reads_node
  have hlinks := readsField_lines "links" (by simp) g.edges.iter fun entry => reads_link entry.2
  have hread := Reads.obj blank_indent.1 blank_indent.1 blank_indent.2.2 (.cons hnodes (.cons hlinks .nil))
  refine (congrArg Json.read ?_).trans hread.read
  unfold TypeGraph.toD3Json
  simp [Reads.listText]

/-- The event list is JSON and says what the graph holds. -/
theorem read_toGraphHunter (g : TypeGraph) : Json.read g.toGraphHunter.toList = some g.hunterDocument := by
  have hspace : Blank [' '] := by simp [Blank, Json.isSpace]
  have hmeta : ReadsField (jsonField "meta" g.hunterHead) _ :=
    Reads.field (by simp) ((reads_hunterMeta g).blank_left hspace)
  have hevents := readsField_lines "events" (by simp) g.hunterEvents
    fun event => reads_event event.1 event.2
  have hread := Reads.obj blank_indent.1 blank_indent.1 blank_indent.2.2 (.cons hmeta (.cons hevents .nil))
  refine (congrArg Json.read ?_).trans hread.read
  unfold TypeGraph.toGraphHunter
  simp [Reads.listText]

/-- The two JSON exports are JSON, and a reader gets from them what the graph holds: each node and each edge with
    its numbers and names, whatever characters the names of the entries have. -/
theorem export_documents (g : TypeGraph) : Json.read g.toD3Json.toList = some g.d3Document ∧
    Json.read g.toGraphHunter.toList = some g.hunterDocument :=
  ⟨read_toD3Json g, read_toGraphHunter g⟩

end SotFs
