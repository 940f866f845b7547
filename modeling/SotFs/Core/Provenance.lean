/-
Module: SotFs.Core.Provenance
Layer: Core
Purpose: Readers of the provenance log: the burst detector over the log in memory (`burst_detect` in
  sotfs-graph/src/provenance.rs), and the filter of `sotfsctl prov` over the lines of the sidecar
  (sotfs-cli/src/bin/sotfsctl.rs). Text is a list of characters. An entry is serialized by serde_json; the
  encoding of a string is a parameter.
Trusted boundary: human-reviewed model
Main exports: burstTimes, burstFrom, burstDetect, entryJson, entryBytes, textLines, inodeNeedle,
  provLines, prov
-/
import SotFs.Foundation.Utf8
import SotFs.Core.Tail

namespace SotFs

open Foundation

/-! ### Burst detection -/

/-- The timestamps of the entries of an inode, in log order. -/
def burstTimes (log : ProvenanceLog) (inodeId : InodeId) : List Timestamp :=
  (log.filter fun e => e.inodeId = inodeId).map ProvenanceEntry.timestamp

/-- The loop over the windows from `t` on. There is no result when it never ends, or when a sum does not fit
    in 64 bits: a window at or before `tMax` has a timestamp at or past its start, so that its end is
    computed. -/
def burstFrom (relevant : List Timestamp) (tMax windowSize t : Nat) : Option (List (Nat × Nat)) :=
  if tMax < t then some []
  else if hsize : windowSize = 0 then none
  else if 2 ^ 64 ≤ t + windowSize then none
  else
    let count := relevant.countP fun ts => t ≤ ts && ts < t + windowSize
    (burstFrom relevant tMax windowSize (t + windowSize)).map fun windows =>
      if 0 < count then (t, count) :: windows else windows
termination_by tMax + 1 - t

/-- `burst_detect`: the range runs from the first entry to the last. -/
def burstDetect (log : ProvenanceLog) (inodeId : InodeId) (windowSize : Nat) : Option (List (Nat × Nat)) :=
  match burstTimes log inodeId with
  | [] => some []
  | tMin :: rest => burstFrom (tMin :: rest) ((tMin :: rest).getLast (List.cons_ne_nil _ _)) windowSize tMin

/-! ### The sidecar by inode -/

/-- A number in decimal. -/
def decimal (n : Nat) : List Char := Nat.toDigits 10 n

/-- `serde_json::to_string` of an entry: its fields in order, under their serialized names. -/
def entryJson (jsonString : String → List Char) (e : ProvenanceEntry) : List Char :=
  "\x7b\"t\":".toList ++ decimal e.timestamp ++
    ",\"op\":\"".toList ++ e.op.debugName.toList ++
    "\",\"inode\":".toList ++ decimal e.inodeId ++
    ",\"cap\":".toList ++ (match e.capId with
      | some cap => decimal cap
      | none => "null".toList) ++
    ",\"domain\":".toList ++ decimal e.domainId ++
    ",\"detail\":".toList ++ jsonString e.detail ++ ['\x7d']

/-- What is written to the sidecar for an entry, before the newline. -/
def entryBytes (jsonString : String → List Char) (e : ProvenanceEntry) : Option (List UInt8) :=
  some (bytesOf (String.ofList (entryJson jsonString e)))

/-- The lines of a text, each without its end. -/
def textLinesFrom (line : List Char) : List Char → List (List Char)
  | [] => if line.isEmpty then [] else [line]
  | c :: text =>
      if c = '\n' then
        (if line.getLast? = some '\r' then line.dropLast else line) :: textLinesFrom [] text
      else textLinesFrom (line ++ [c]) text

/-- `str::lines`. -/
def textLines (text : List Char) : List (List Char) := textLinesFrom [] text

/-- `format!(r#""inode":{}"#, inode)`. -/
def inodeNeedle (inode : Nat) : List Char := "\"inode\":".toList ++ decimal inode

/-- The lines of the sidecar's text that are printed, with `--inode` when a number is given. -/
def provLines (filterInode : Option Nat) (content : List Char) : List (List Char) :=
  (textLines content).filter fun line =>
    !line.isEmpty && match filterInode with
      | some inode => decide (inodeNeedle inode <:+: line)
      | none => true

/-- What `sotfsctl prov` prints of a sidecar; there is no output when it is not UTF-8. -/
def prov (filterInode : Option Nat) (bytes : List UInt8) : Option (List (List Char)) :=
  (ofBytes bytes).map fun content => provLines filterInode content.toList

end SotFs
