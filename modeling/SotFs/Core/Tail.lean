/-
Module: SotFs.Core.Tail
Layer: Core
Purpose: The follower of the provenance sidecar (`run_tail` in sotfs-cli/src/bin/export_hunter.rs, without
  `--once` and `--max-events`). The file only grows. Every access to it is a step of its own, so that appends
  can come between any two: opening it and asking for its length, the probe for a rewrite, and each read that
  `read_line` makes through the buffer. The JSON parser is a parameter; standard output takes what is
  written.
Trusted boundary: human-reviewed model
Main exports: HunterEvent, emitLine, Reader, TailPhase, Tail, Tail.advance, TailEvent, Tail.replay
-/
import SotFs.Core.Types

namespace SotFs

/-- The byte of '\n'. -/
def newline : UInt8 := 10

/-- A streaming event; the JSON object has these fields. -/
structure HunterEvent where
  t : Timestamp
  kind : String
  op : String
  inode : InodeId
  cap : Option CapId
  domain : Nat
  detail : String
deriving DecidableEq, Repr

/-- `format!("{:?}", op)`. -/
def ProvOp.debugName : ProvOp → String
  | .create => "Create"
  | .mkdir => "Mkdir"
  | .unlink => "Unlink"
  | .rmdir => "Rmdir"
  | .link => "Link"
  | .rename => "Rename"
  | .write => "Write"
  | .chmod => "Chmod"
  | .chown => "Chown"
  | .setxattr => "Setxattr"
  | .removexattr => "Removexattr"
  | .symlink => "Symlink"
  | .setAcl => "SetAcl"
  | .capDerive => "CapDerive"
  | .capRevoke => "CapRevoke"
  | .read => "Read"
  | .stat => "Stat"
  | .open => "Open"
  | .truncate => "Truncate"

def entryToHunterEvent (e : ProvenanceEntry) : HunterEvent where
  t := e.timestamp
  kind := "prov"
  op := e.op.debugName
  inode := e.inodeId
  cap := e.capId
  domain := e.domainId
  detail := e.detail

/-- `trim_end_matches(['\n', '\r'])`. -/
def trimLineEnd (line : String) : String :=
  String.ofList (line.toList.reverse.dropWhile fun c => c = '\n' || c = '\r').reverse

/-- What `emit_line` writes: nothing for an empty line, and nothing for a malformed one. -/
def emitLine (fromJson : String → Option ProvenanceEntry) (line : String) : Option HunterEvent :=
  let trimmed := trimLineEnd line
  if trimmed.isEmpty then none else (fromJson trimmed).map entryToHunterEvent

/-- An open file under a `BufReader`: the offset in the file, what the buffer holds, and what the current
    `read_line` has taken so far. -/
structure Reader where
  pos : Nat
  buffer : List UInt8
  line : List UInt8
deriving DecidableEq, Repr

/-- Where the follower is: in one of the two reading loops (`first` is the one over the existing content),
    asleep, after the length of the file was asked for, or ended by a read error. -/
inductive TailPhase where
  | reading (first : Bool) (r : Reader)
  | asleep (lastPos : Nat)
  | opened (lastPos curLen : Nat)
  | exited
deriving DecidableEq, Repr

/-- The file, the follower, and the events it has written. -/
structure Tail where
  file : List UInt8
  phase : TailPhase
  emitted : List HunterEvent
deriving DecidableEq, Repr

namespace Tail

def start (file : List UInt8) : Tail := ⟨file, .reading true ⟨0, [], []⟩, []⟩

/-- One turn of a reading loop when `read_line` returns. The first loop takes whatever it got for a line, the
    second one stops at a line without its end. Both stop at the end of the file, with the position there. -/
def lineRead (fromJson : String → Option ProvenanceEntry) (s : Tail) (first : Bool) (r : Reader) : Tail :=
  if r.line.isEmpty then { s with phase := .asleep r.pos }
  else
    match String.fromUTF8? ⟨r.line.toArray⟩ with
    | none => { s with phase := .exited }
    | some buf =>
        if first = false ∧ r.line.getLast? ≠ some newline then { s with phase := .asleep r.pos }
        else
          { s with
            phase := .reading first { r with line := [] }
            emitted := s.emitted ++ (emitLine fromJson buf).toList }

/-- One turn of `read_until`: an empty buffer is filled by a read of up to `k + 1` bytes, and the bytes up to
    the next newline are taken from it. A read without bytes is the end of the file. -/
def readTurn (fromJson : String → Option ProvenanceEntry) (k : Nat) (s : Tail) (first : Bool) (r : Reader) :
    Tail :=
  let available := if r.buffer.isEmpty then (s.file.drop r.pos).take (k + 1) else r.buffer
  let pos := if r.buffer.isEmpty then r.pos + available.length else r.pos
  if available.isEmpty then s.lineRead fromJson first r
  else
    let taken := available.takeWhile (· ≠ newline)
    match available.drop taken.length with
    | [] => { s with phase := .reading first ⟨pos, [], r.line ++ available⟩ }
    | nl :: rest => s.lineRead fromJson first ⟨pos, rest, r.line ++ taken ++ [nl]⟩

/-- The check for a file that was rewritten: it is shorter, or the byte before the position ends no line. -/
def probe (s : Tail) (lastPos curLen : Nat) : Tail :=
  let rewound : Bool :=
    if curLen < lastPos then true
    else if 0 < lastPos then
      match s.file[lastPos - 1]? with
      | some b => b ≠ newline
      | none => false
    else false
  let lastPos := if rewound then 0 else lastPos
  if curLen = lastPos ∧ rewound = false then { s with phase := .asleep lastPos }
  else { s with phase := .reading false ⟨lastPos, [], []⟩ }

/-- The next step of the follower; a read asks for `k + 1` bytes. -/
def advance (fromJson : String → Option ProvenanceEntry) (k : Nat) (s : Tail) : Tail :=
  match s.phase with
  | .reading first r => s.readTurn fromJson k first r
  | .asleep lastPos => { s with phase := .opened lastPos s.file.length }
  | .opened lastPos curLen => s.probe lastPos curLen
  | .exited => s

end Tail

/-- Bytes are appended to the file, or the follower takes a step. -/
inductive TailEvent where
  | append (bytes : List UInt8)
  | advance (k : Nat)
deriving DecidableEq, Repr

namespace Tail

def step (fromJson : String → Option ProvenanceEntry) (s : Tail) : TailEvent → Tail
  | .append bytes => { s with file := s.file ++ bytes }
  | .advance k => s.advance fromJson k

/-- What a sequence of appends and steps of the follower leads to. -/
def replay (fromJson : String → Option ProvenanceEntry) (s : Tail) (events : List TailEvent) : Tail :=
  events.foldl (step fromJson) s

end Tail

end SotFs
