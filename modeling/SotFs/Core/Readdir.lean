/-
Module: SotFs.Core.Readdir
Layer: Core
Purpose: The readdir handler (sotfs-fuse/src/fs.rs) and series of its calls. A call lists the directory anew
  and starts at the offset it is given, which is a position in this list; whether the reply buffer takes one
  more entry is an argument. A series resumes each call at the offset of the last entry of the replies so
  far, and any calls of operations come between. It has ended when a call finds nothing at its offset.
Trusted boundary: human-reviewed model
Main exports: DirEntry, Fuse.readdir, SeriesStep, ReaddirSeries, ReaddirSeries.replay
-/
import SotFs.Core.Fuse

namespace SotFs

/-- An entry of a readdir reply; the offset is where the next call resumes after it. -/
structure DirEntry where
  ino : InodeId
  offset : Nat
  kind : FileType
  name : String
deriving DecidableEq, Repr

/-- What the reply says of the entry at a position of the list. -/
def TypeGraph.direntAt (g : TypeGraph) (entry : (String × InodeId) × Nat) : DirEntry where
  ino := entry.1.2
  offset := entry.2 + 1
  kind := match g.getInode entry.1.2 with
    | some inode =>
        match inode.vtype with
        | .directory => .directory
        | .symlink => .symlink
        | _ => .regularFile
    | none => .regularFile
  name := entry.1.1

/-- Add entries until the buffer is full; `full reply e` is what `reply.add` answers. -/
def TypeGraph.addEntries (g : TypeGraph) (full : List DirEntry → DirEntry → Bool) :
    List ((String × InodeId) × Nat) → List DirEntry → List DirEntry
  | [], reply => reply
  | entry :: entries, reply =>
      if full reply (g.direntAt entry) then reply
      else g.addEntries full entries (reply ++ [g.direntAt entry])

def Fuse.readdir (full : List DirEntry → DirEntry → Bool) (ino : InodeId) (offset : Nat) (g : TypeGraph) :
    Except Errno (List DirEntry) :=
  match g.dirForInode ino with
  | none => .error .ENOTDIR
  | some dirId => .ok (g.addEntries full ((g.listDir dirId).zipIdx.drop offset) [])

/-- What happens during a series: a call of readdir, or a change of the graph between two calls. -/
inductive SeriesStep where
  | read (full : List DirEntry → DirEntry → Bool)
  | setCapCtx (ctx : CapContext)
  | mutate (now : Nat → Timestamp) (op : Op)

/-- The graph, the offset the next call resumes at, all entries returned so far, and whether a call found
    nothing at its offset. -/
structure ReaddirSeries where
  graph : TypeGraph
  offset : Nat
  returned : List DirEntry
  ended : Bool

namespace ReaddirSeries

def start (g : TypeGraph) : ReaddirSeries := ⟨g, 0, [], false⟩

/-- Nothing is left at the offset. -/
def exhausted (s : ReaddirSeries) (ino : InodeId) : Bool :=
  match s.graph.dirForInode ino with
  | none => false
  | some dirId => (s.graph.listDir dirId).length ≤ s.offset

/-- One call of readdir of the directory of `ino`. -/
def read (ino : InodeId) (full : List DirEntry → DirEntry → Bool) (s : ReaddirSeries) : ReaddirSeries :=
  match Fuse.readdir full ino s.offset s.graph with
  | .error _ => s
  | .ok entries =>
      { s with
        offset := (entries.getLast?.map DirEntry.offset).getD s.offset
        returned := s.returned ++ entries
        ended := s.ended || s.exhausted ino }

def step (ino : InodeId) (s : ReaddirSeries) : SeriesStep → ReaddirSeries
  | .read full => s.read ino full
  | .setCapCtx ctx => { s with graph := s.graph.setCapCtx ctx }
  | .mutate now op => { s with graph := (op.apply now s.graph).2 }

/-- What a list of steps leads to. -/
def replay (ino : InodeId) (s : ReaddirSeries) (steps : List SeriesStep) : ReaddirSeries :=
  steps.foldl (step ino) s

end ReaddirSeries

end SotFs
