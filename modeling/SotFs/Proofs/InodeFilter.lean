/-
Module: SotFs.Proofs.InodeFilter
Layer: Proofs
Purpose: What `sotfsctl prov --inode` prints of a sidecar. A detail cannot fake the field: in a JSON string
  every quote is escaped. But the field's value is compared as a prefix of its digits, so that an inode is
  taken for every other one whose number starts with its digits.
Trusted boundary: none
Main exports: WritesStrings, needle_infix_iff, prov_inode_iff
-/
import SotFs.Foundation.QuotedText
import SotFs.Core.Provenance
import SotFs.Core.Export
import SotFs.Proofs.AuditFlush

namespace SotFs

open Std (ExtTreeMap ExtTreeSet)
open Foundation

/-- How serde_json writes a string: between quotes, with a backslash before every quote, and with no line
    break. -/
structure WritesStrings (jsonString : String → List Char) : Prop where
  quoted : ∀ s, ∃ body, jsonString s = '"' :: body ++ ['"'] ∧ QuotesEscaped '\\' '"' body
  oneLine : ∀ s, '\n' ∉ jsonString s ∧ '\r' ∉ jsonString s

section Text

variable {c : Char} {n : Nat}

/-- A number is written in digits. -/
theorem not_mem_decimal (hc : c.isDigit = false) : c ∉ decimal n := by
  intro hmem
  rw [Nat.isDigit_of_mem_toDigits (by decide) (by decide) hmem] at hc
  cases hc

/-- No character of an operation's name stands for structure, and none starts as "inode" does. -/
theorem ProvOp.debugName_plain (op : ProvOp) :
    '"' ∉ op.debugName.toList ∧ '\n' ∉ op.debugName.toList ∧ '\r' ∉ op.debugName.toList ∧
      ∃ x name, op.debugName.toList = x :: name ∧ 'i' ≠ x := by
  cases op <;> exact ⟨by decide, by decide, by decide, _, _, rfl, by decide⟩

/-- The capability of an entry, as it is written. -/
def capText (e : ProvenanceEntry) : List Char :=
  match e.capId with
  | some cap => decimal cap
  | none => "null".toList

theorem not_mem_capText {e : ProvenanceEntry} (hdigit : c.isDigit = false) (hnull : c ∉ "null".toList) :
    c ∉ capText e := by
  unfold capText
  split
  · exact not_mem_decimal hdigit
  · exact hnull

end Text

section Entry

variable {js : String → List Char} {e : ProvenanceEntry}

/-- The pieces of an entry before the comma in front of its inode. -/
def frontPieces (e : ProvenanceEntry) : List (List Char) :=
  [['\x7b'], ['t'], ':' :: decimal e.timestamp ++ [','], ['o', 'p'], [':'], e.op.debugName.toList]

/-- The pieces from there to its detail. -/
def backPieces (e : ProvenanceEntry) : List (List Char) :=
  ["inode".toList, ':' :: decimal e.inodeId ++ [','], "cap".toList, ':' :: capText e ++ [','],
    "domain".toList, ':' :: decimal e.domainId ++ [','], "detail".toList]

/-- What stands behind the quote in front of the inode's name. -/
def backText (js : String → List Char) (e : ProvenanceEntry) : List Char :=
  joinQuoted '"' (backPieces e) (':' :: js e.detail ++ ['\x7d'])

theorem entryJson_eq :
    entryJson js e = joinQuoted '"' (frontPieces e) ([','] ++ '"' :: backText js e) := by
  unfold entryJson backText frontPieces backPieces capText
  simp only [joinQuoted]
  cases e.capId with
  | none => simp
  | some cap => simp

/-- The pattern of an inode number, behind its quote. -/
theorem inodeNeedle_eq (n : Nat) : inodeNeedle n = '"' :: 'i' :: ("node".toList ++ '"' :: ':' :: decimal n) :=
  rfl

/-- The pieces have no quotes. -/
theorem frontPieces_plain : ∀ w ∈ frontPieces e, '"' ∉ w := by
  have hname := e.op.debugName_plain.1
  simp [frontPieces, hname, not_mem_decimal]

theorem backPieces_plain : ∀ w ∈ backPieces e, '"' ∉ w := by
  have hcap : '"' ∉ capText e := not_mem_capText rfl (by decide)
  simp [backPieces, hcap, not_mem_decimal]

/-- Behind the quotes before the inode stands something else than its name. -/
theorem frontPieces_startsOff : ∀ w ∈ (frontPieces e).tail, StartsOff 'i' w := by
  obtain ⟨_, _, _, x, name, hname, hx⟩ := e.op.debugName_plain
  rw [frontPieces, hname]
  intro w hw
  simp only [List.tail_cons, List.mem_cons, List.not_mem_nil, or_false] at hw
  rcases hw with rfl | rfl | rfl | rfl | rfl <;> exact ⟨_, _, rfl, by first | decide | exact hx⟩

theorem backPieces_startsOff : ∀ w ∈ (backPieces e).tail, StartsOff 'i' w := by
  intro w hw
  simp only [backPieces, List.tail_cons, List.mem_cons, List.not_mem_nil, or_false] at hw
  rcases hw with rfl | rfl | rfl | rfl | rfl | rfl <;> exact ⟨_, _, rfl, by decide⟩

/-- The inode's digits stand behind its name. -/
theorem backText_eq (js : String → List Char) (e : ProvenanceEntry) : ∃ rest, backText js e =
    'i' :: ("node".toList ++ '"' :: ':' :: (decimal e.inodeId ++ ',' :: rest)) := by
  refine ⟨'"' :: joinQuoted '"' (backPieces e).tail.tail (':' :: js e.detail ++ ['\x7d']), ?_⟩
  simp [backText, backPieces, joinQuoted]

/-- The pattern of an inode number is in the line of an entry exactly when its digits are the first ones of
    the entry's inode. -/
theorem needle_infix_iff (hjson : WritesStrings js) (n : Nat) :
    inodeNeedle n <:+: entryJson js e ↔ decimal n <+: decimal e.inodeId := by
  obtain ⟨body, hbody, hescaped⟩ := hjson.quoted e.detail
  have hdetail : ¬ inodeNeedle n <:+: backText js e := by
    have hcolon : StartsOff 'i' (':' :: js e.detail ++ ['\x7d']) := ⟨':', _, rfl, by decide⟩
    have htext : ':' :: js e.detail ++ ['\x7d'] = [':'] ++ ('"' :: body ++ ['"', '\x7d']) := by
      rw [hbody]
      simp
    rw [inodeNeedle_eq, backText, infix_joinQuoted_iff backPieces_plain backPieces_startsOff hcolon, htext,
      infix_skip_iff (by decide)]
    exact not_infix_quoted "inode".toList 'e' hescaped rfl (by decide) (by decide)
      (by decide) rfl
  have hhere : 'i' :: ("node".toList ++ '"' :: ':' :: decimal n) <+: backText js e ↔
      decimal n <+: decimal e.inodeId := by
    obtain ⟨rest, hback⟩ := backText_eq js e
    rw [hback, List.cons_prefix_cons, and_iff_right rfl, List.prefix_append_right_inj, List.cons_prefix_cons,
      and_iff_right rfl, List.cons_prefix_cons, and_iff_right rfl]
    exact prefix_terminated_iff (not_mem_decimal rfl)
  have hfront : StartsOff 'i' ([','] ++ '"' :: backText js e) := ⟨',', _, rfl, by decide⟩
  rw [entryJson_eq, inodeNeedle_eq, infix_joinQuoted_iff frontPieces_plain frontPieces_startsOff hfront,
    infix_skip_iff (by decide), infix_at_iff, hhere]
  exact or_iff_left hdetail

/-- An entry is one line. -/
theorem entryJson_oneLine (hjson : WritesStrings js) :
    '\n' ∉ entryJson js e ∧ (entryJson js e).getLast? = some '\x7d' := by
  have hname := e.op.debugName_plain.2.1
  have hcap : '\n' ∉ capText e := not_mem_capText rfl (by decide)
  have hdetail := (hjson.oneLine e.detail).1
  refine ⟨?_, List.getLast?_concat⟩
  rw [entryJson_eq]
  refine not_mem_joinQuoted (by decide) (by simp [frontPieces, not_mem_decimal, hname]) ?_
  rw [List.singleton_append, List.mem_cons, List.mem_cons, not_or, not_or]
  refine ⟨by decide, by decide, not_mem_joinQuoted (by decide) ?_ (by simp [hdetail])⟩
  simp [backPieces, not_mem_decimal, hcap]

end Entry

section Lines

variable {line text : List Char}

/-- The next line ends at the next line break. -/
theorem textLinesFrom_append (w : List Char) (hw : '\n' ∉ w) (hlast : (line ++ w).getLast? ≠ some '\r') :
    textLinesFrom line (w ++ '\n' :: text) = (line ++ w) :: textLinesFrom [] text := by
  induction w generalizing line with
  | nil =>
      rw [List.append_nil] at hlast ⊢
      rw [List.nil_append, textLinesFrom, if_pos rfl, if_neg hlast]
  | cons c w ih =>
      rw [List.mem_cons, not_or] at hw
      rw [List.cons_append, textLinesFrom, if_neg (Ne.symm hw.1), ih hw.2 (by simpa using hlast)]
      simp

/-- The lines of a text that is made of lines. -/
theorem textLines_flatMap {α : Type} (f : α → List Char) (xs : List α)
    (hf : ∀ x ∈ xs, '\n' ∉ f x ∧ (f x).getLast? ≠ some '\r') :
    textLines (xs.flatMap fun x => f x ++ ['\n']) = xs.map f := by
  induction xs with
  | nil => rfl
  | cons x xs ih =>
      obtain ⟨hx, hlast⟩ := hf x List.mem_cons_self
      have hrest := ih fun y hy => hf y (List.mem_cons_of_mem x hy)
      rw [List.flatMap_cons, List.append_assoc, List.singleton_append, textLines,
        textLinesFrom_append (f x) hx hlast, List.map_cons, List.nil_append]
      exact congrArg _ hrest

end Lines

section Filter

variable {js : String → List Char}

/-- What the flush writes decodes to the lines of the entries. -/
theorem linesOf_entryBytes (entries : List ProvenanceEntry) :
    linesOf (entryBytes js) entries =
      bytesOf (String.ofList (entries.flatMap fun e => entryJson js e ++ ['\n'])) := by
  induction entries with
  | nil => rfl
  | cons e entries ih =>
      rw [List.flatMap_cons, bytesOf_ofList_append, ← ih, bytesOf_ofList_append]
      rfl

/-- Without a filter every line is printed; with one, those whose inode starts with its digits. -/
theorem prov_linesOf (hjson : WritesStrings js) (entries : List ProvenanceEntry) (n : Nat) :
    prov (some n) (linesOf (entryBytes js) entries) =
      some ((entries.filter fun e => decimal n <+: decimal e.inodeId).map (entryJson js)) := by
  have hlines : textLines (entries.flatMap fun e => entryJson js e ++ ['\n']) = entries.map (entryJson js) := by
    refine textLines_flatMap _ _ fun e _ => ?_
    obtain ⟨hline, hlast⟩ := entryJson_oneLine (e := e) hjson
    exact ⟨hline, by rw [hlast]; decide⟩
  rw [prov, linesOf_entryBytes, ofBytes_bytesOf, Option.map_some, provLines, String.toList_ofList, hlines,
    List.filter_map]
  congr 2
  refine List.filter_congr fun e _ => ?_
  have hnonempty : (entryJson js e).isEmpty = false := rfl
  simp [hnonempty, needle_infix_iff hjson]

/-- Exactly the entries of the inode are printed, unless an entry of another inode starts with its digits. -/
theorem prov_inode_iff (hjson : WritesStrings js) (entries : List ProvenanceEntry) (n : Nat) :
    prov (some n) (linesOf (entryBytes js) entries) =
        some ((entries.filter fun e => e.inodeId = n).map (entryJson js)) ↔
      ∀ e ∈ entries, decimal n <+: decimal e.inodeId → e.inodeId = n := by
  rw [prov_linesOf hjson]
  constructor
  · intro heq e he hprefix
    by_contra hne
    -- the lines of the inode are among those printed, and one more is
    have hlength := congrArg List.length (Option.some.inj heq)
    rw [List.length_map, List.length_map] at hlength
    have hboth : (entries.filter fun e => e.inodeId = n) =
        (entries.filter fun e => decimal n <+: decimal e.inodeId).filter fun e => e.inodeId = n := by
      rw [List.filter_filter]
      refine List.filter_congr fun e _ => ?_
      by_cases heq : e.inodeId = n <;> simp [heq]
    rw [hboth, eq_comm, List.length_filter_eq_length_iff] at hlength
    exact hne (by simpa using hlength e (List.mem_filter.mpr ⟨he, by simpa using hprefix⟩))
  · intro h
    congr 2
    refine List.filter_congr fun e he => ?_
    rw [decide_eq_decide]
    exact ⟨h e he, fun heq => heq ▸ List.prefix_rfl⟩

end Filter

section Exporter

/-- The digits of an escape are none of the characters that are escaped. -/
theorem hexDigit_plain : ∀ n < 16, hexDigit n ≠ '"' ∧ hexDigit n ≠ '\n' ∧ hexDigit n ≠ '\r' := by decide

/-- A character as it is written: its quotes are escaped, and it breaks no line. -/
theorem jsonChar_plain (c : Char) :
    QuotesEscaped '\\' '"' (jsonChar c) ∧ '\n' ∉ jsonChar c ∧ '\r' ∉ jsonChar c := by
  unfold jsonChar
  split
  · exact ⟨.of_notMem (by decide), by decide, by decide⟩
  · rename_i hbackslash
    split
    · refine ⟨?_, by decide, by decide⟩
      intro pre post h
      cases pre with
      | nil => simp at h
      | cons x pre =>
          rw [List.cons_append, List.cons.injEq] at h
          cases pre with
          | nil => rw [← h.1]; rfl
          | cons y pre => simp at h
    · rename_i hquote
      split
      · exact ⟨.of_notMem (by decide), by decide, by decide⟩
      · rename_i hnewline
        split
        · exact ⟨.of_notMem (by decide), by decide, by decide⟩
        · rename_i hreturn
          split
          · exact ⟨.of_notMem (by decide), by decide, by decide⟩
          · split
            · exact ⟨.of_notMem (by decide), by decide, by decide⟩
            · split
              · exact ⟨.of_notMem (by decide), by decide, by decide⟩
              · split
                · rename_i hcontrol
                  obtain ⟨hq, hn, hr⟩ := hexDigit_plain (c.toNat / 16) (by omega)
                  obtain ⟨hq', hn', hr'⟩ := hexDigit_plain (c.toNat % 16) (Nat.mod_lt _ (by decide))
                  refine ⟨.of_notMem ?_, ?_, ?_⟩ <;> simp [*, Ne.symm]
                · refine ⟨.of_notMem ?_, ?_, ?_⟩ <;> rw [List.mem_singleton] <;> exact Ne.symm ‹_›

/-- The exporter's own strings are written as serde_json's are. -/
theorem jsonStr_writesStrings : WritesStrings fun s => (jsonStr s).toList := by
  refine ⟨fun s => ⟨s.toList.flatMap jsonChar, ?_, .flatMap (fun c => (jsonChar_plain c).1) _⟩, fun s => ?_⟩
  · rw [jsonStr, String.toList_ofList]
  · rw [jsonStr, String.toList_ofList]
    constructor
    · simp [(jsonChar_plain _).2.1]
    · simp [(jsonChar_plain _).2.2]

/-- An entry about an inode. -/
def entryAbout (inodeId : InodeId) (detail : String) : ProvenanceEntry := ⟨0, .create, inodeId, none, 0, detail⟩

/-- A detail with the pattern of another inode in it. -/
theorem prov_inode_iff_quoted :
    prov (some 7) (linesOf (entryBytes fun s => (jsonStr s).toList)
        [entryAbout 7 "a", entryAbout 8 "\"inode\":7"]) =
      some (([entryAbout 7 "a", entryAbout 8 "\"inode\":7"].filter fun e => e.inodeId = 7).map
        (entryJson fun s => (jsonStr s).toList)) :=
  (prov_inode_iff jsonStr_writesStrings _ 7).mpr (by decide)

/-- Inode 1 is taken for inode 12. -/
theorem prov_prefix_printed : ∃ entries : List ProvenanceEntry,
    prov (some 1) (linesOf (entryBytes fun s => (jsonStr s).toList) entries) ≠
      some ((entries.filter fun e => e.inodeId = 1).map (entryJson fun s => (jsonStr s).toList)) := by
  refine ⟨[entryAbout 12 "a"], ?_⟩
  rw [prov_linesOf jsonStr_writesStrings]
  decide

end Exporter

end SotFs
