/-
Module: SotFs.Core.Sidecar
Layer: Core
Purpose: The provenance sidecar (`persist_prov_log` in sotfs-fuse/src/fs.rs): the log in the graph is drained
  and appended to a JSONL file, one line for each entry. What the system answers to the open and to each write
  is an argument; the encoder of an entry is a parameter. Beside its bytes the sidecar keeps a note of the
  entries whose line was written whole, and a recorder keeps a note of all entries that were recorded.
Trusted boundary: human-reviewed model
Main exports: FlushEnv, Sidecar, writeLines, flushProvLog, RecorderStep, Recorder, Recorder.replay
-/
import SotFs.Core.Fuse

namespace SotFs

/-- What one call of `persist_prov_log` meets: whether SOTFS_PROV_SIDECAR is set, whether the file opens, and
    for each `write_all` either success or the number of bytes that were written before it failed. -/
structure FlushEnv where
  configured : Bool
  opened : Bool
  writes : Nat → Option Nat

/-- The sidecar file; `written` is the note of the entries whose line is in it as a whole. -/
structure Sidecar where
  bytes : List UInt8
  written : List ProvenanceEntry
deriving DecidableEq, Repr

/-- The line of an entry: its JSON text and a newline. -/
def jsonLine (json : List UInt8) : List UInt8 := json ++ [10]

/-- The loop over the drained entries. The first failure ends it; a failed `write_all` has written less than
    the line. -/
def writeLines (toJson : ProvenanceEntry → Option (List UInt8)) :
    List ProvenanceEntry → (Nat → Option Nat) → Sidecar → Sidecar
  | [], _, f => f
  | e :: entries, writes, f =>
      match toJson e with
      | none => f
      | some json =>
          match writes 0 with
          | none =>
              writeLines toJson entries (fun k => writes (k + 1))
                ⟨f.bytes ++ jsonLine json, f.written ++ [e]⟩
          | some n => { f with bytes := f.bytes ++ (jsonLine json).take (min n json.length) }

/-- `ProvenanceLog::drain`. -/
def ProvenanceLog.drain (log : ProvenanceLog) : List ProvenanceEntry × ProvenanceLog := (log, [])

/-- `persist_prov_log`: the log is emptied before the file is opened, and nothing is put back. -/
def flushProvLog (toJson : ProvenanceEntry → Option (List UInt8)) (env : FlushEnv) (g : TypeGraph)
    (f : Sidecar) : TypeGraph × Sidecar :=
  if env.configured then
    match g.provLog with
    | none => (g, f)
    | some log =>
        if log.isEmpty then (g, f)
        else
          let (entries, log) := ProvenanceLog.drain log
          let g := { g with provLog := some log }
          if env.opened then (g, writeLines toJson entries env.writes f) else (g, f)
  else (g, f)

/-- What happens to the log: a context is set, an entry is recorded, or the log is flushed. -/
inductive RecorderStep where
  | setCapCtx (ctx : CapContext)
  | record (now : Timestamp) (op : ProvOp) (inodeId : InodeId) (detail : String)
  | persist (env : FlushEnv)

/-- The graph with its sidecar; `recorded` is the note of the entries recorded so far. -/
structure Recorder where
  graph : TypeGraph
  sidecar : Sidecar
  recorded : List ProvenanceEntry

namespace Recorder

/-- A mounted graph whose log has just been enabled, with an empty sidecar. -/
def start (g : TypeGraph) : Recorder := ⟨g.enableProvLog, ⟨[], []⟩, []⟩

def step (toJson : ProvenanceEntry → Option (List UInt8)) (s : Recorder) : RecorderStep → Recorder
  | .setCapCtx ctx => { s with graph := s.graph.setCapCtx ctx }
  | .record now op inodeId detail =>
      { s with
        graph := s.graph.recordProv now op inodeId detail
        recorded := s.recorded ++
          [⟨now, op, inodeId, s.graph.capCtx.capId, s.graph.capCtx.domainId, detail⟩] }
  | .persist env =>
      let (graph, sidecar) := flushProvLog toJson env s.graph s.sidecar
      { s with graph := graph, sidecar := sidecar }

/-- What a list of steps leads to. -/
def replay (toJson : ProvenanceEntry → Option (List UInt8)) (s : Recorder) (steps : List RecorderStep) :
    Recorder :=
  steps.foldl (step toJson) s

end Recorder

end SotFs
