/-
Module: SotFs.Core.Storage
Layer: Core
Purpose: Persistence of the whole graph (sotfs-storage/src/backend.rs) with the serialized form of a graph
  (the serde attributes and arena_serde of sotfs-graph/src/graph.rs). serde_json and redb are parameters: a
  codec between serialized graphs and bytes, and a database that holds the bytes of one key. A write
  transaction ends in a result and a database, so that a failing device is part of the model. A stored run is
  a run that may be saved and loaded at any point, with a note of the ids its calls returned or stored.
Trusted boundary: human-reviewed model
Main exports: GraphData, TypeGraph.serialize, GraphData.deserialize, TypeGraph.reload, SerdeJson, Redb,
  RedbBackend, RedbBackend.save, RedbBackend.load, RedbBackend.Faithful, Issued, Op.issues, StoredRun
-/
import SotFs.Core.Runs

namespace SotFs

open Std Foundation

/-! ### The serialized form -/

namespace Arena

variable {T : Type} {CAPACITY : Nat}

/-- `arena_serde::serialize`: the occupied slots with their values. -/
def serialize (arena : Arena T CAPACITY) : List (Nat × T) := arena.iter

/-- `arena_serde::deserialize`: `insert_at` of every pair; its answer is dropped. -/
def deserialize (pairs : List (Nat × T)) : Arena T CAPACITY :=
  pairs.foldl (fun arena pair => (arena.insertAt pair.1 pair.2).2) .new

end Arena

/-- The fields of a graph that are not `#[serde(skip)]`. -/
structure GraphData where
  inodes : List (Nat × Inode)
  dirs : List (Nat × Directory)
  caps : List (Nat × Capability)
  transactions : List (Nat × Transaction)
  versions : List (Nat × Version)
  blocks : List (Nat × Block)
  edges : List (Nat × Edge)
  dirContains : SetIndex DirId EdgeId
  inodeIncomingContains : SetIndex InodeId EdgeId
  inodePointsTo : SetIndex InodeId EdgeId
  capGrants : ExtTreeMap CapId EdgeId
  capParent : ExtTreeMap CapId CapId
  capChildren : SetIndex CapId CapId
  fileData : ExtTreeMap InodeId (List UInt8)
  xattrs : ExtTreeMap XAttrId XAttr
  inodeXattrs : SetIndex InodeId XAttrId
  nextXattr : Nat
  symlinkTargets : ExtTreeMap InodeId SymlinkTarget
  dirForInodeIdx : ExtTreeMap InodeId DirId
  acls : ExtTreeMap InodeId (List AclEntry)
  quotas : ExtTreeMap DirId Quota
  nextInode : Nat
  nextDir : Nat
  nextCap : Nat
  nextTxn : Nat
  nextVersion : Nat
  nextBlock : Nat
  nextEdge : Nat
  rootDir : DirId
  rootInode : InodeId

def TypeGraph.serialize (g : TypeGraph) : GraphData where
  inodes := g.inodes.serialize
  dirs := g.dirs.serialize
  caps := g.caps.serialize
  transactions := g.transactions.serialize
  versions := g.versions.serialize
  blocks := g.blocks.serialize
  edges := g.edges.serialize
  dirContains := g.dirContains
  inodeIncomingContains := g.inodeIncomingContains
  inodePointsTo := g.inodePointsTo
  capGrants := g.capGrants
  capParent := g.capParent
  capChildren := g.capChildren
  fileData := g.fileData
  xattrs := g.xattrs
  inodeXattrs := g.inodeXattrs
  nextXattr := g.nextXattr
  symlinkTargets := g.symlinkTargets
  dirForInodeIdx := g.dirForInodeIdx
  acls := g.acls
  quotas := g.quotas
  nextInode := g.nextInode
  nextDir := g.nextDir
  nextCap := g.nextCap
  nextTxn := g.nextTxn
  nextVersion := g.nextVersion
  nextBlock := g.nextBlock
  nextEdge := g.nextEdge
  rootDir := g.rootDir
  rootInode := g.rootInode

/-- The skipped fields take their defaults: an empty name index, no log, the anonymous context. -/
def GraphData.deserialize (data : GraphData) : TypeGraph where
  inodes := .deserialize data.inodes
  dirs := .deserialize data.dirs
  caps := .deserialize data.caps
  transactions := .deserialize data.transactions
  versions := .deserialize data.versions
  blocks := .deserialize data.blocks
  edges := .deserialize data.edges
  dirContains := data.dirContains
  inodeIncomingContains := data.inodeIncomingContains
  inodePointsTo := data.inodePointsTo
  capGrants := data.capGrants
  capParent := data.capParent
  capChildren := data.capChildren
  fileData := data.fileData
  xattrs := data.xattrs
  inodeXattrs := data.inodeXattrs
  nextXattr := data.nextXattr
  symlinkTargets := data.symlinkTargets
  dirForInodeIdx := data.dirForInodeIdx
  dirNameIdx := ∅
  acls := data.acls
  quotas := data.quotas
  provLog := none
  capCtx := .anonymous
  nextInode := data.nextInode
  nextDir := data.nextDir
  nextCap := data.nextCap
  nextTxn := data.nextTxn
  nextVersion := data.nextVersion
  nextBlock := data.nextBlock
  nextEdge := data.nextEdge
  rootDir := data.rootDir
  rootInode := data.rootInode

/-- What a graph is after it went to disk and back: the name index is rebuilt. -/
def TypeGraph.reload (g : TypeGraph) : TypeGraph := g.serialize.deserialize.rebuildDirNameIdx

/-! ### The backend -/

/-- serde_json on graphs. -/
structure SerdeJson (Bytes : Type) where
  toVec : GraphData → Except String Bytes
  fromSlice : Bytes → Except String GraphData

/-- redb with the metadata table: one write transaction that puts the key "graph", and one read of it,
    `none` when the table or the key is missing. -/
structure Redb (Bytes Db : Type) where
  insertGraph : Bytes → Db → Except String Unit × Db
  getGraph : Db → Except String (Option Bytes)

/-- Persistent storage backend; the database itself is the state its functions pass on. -/
structure RedbBackend (Bytes Db : Type) where
  serde : SerdeJson Bytes
  redb : Redb Bytes Db

namespace RedbBackend

variable {Bytes Db : Type}

/-- Save the entire graph. -/
def save (backend : RedbBackend Bytes Db) (graph : TypeGraph) (db : Db) : Except String Unit × Db :=
  match backend.serde.toVec graph.serialize with
  | .error e => (.error e, db)
  | .ok serialized => backend.redb.insertGraph serialized db

/-- Load the graph, `none` if none is stored. -/
def load (backend : RedbBackend Bytes Db) (db : Db) : Except String (Option TypeGraph) :=
  match backend.redb.getGraph db with
  | .error e => .error e
  | .ok none => .ok none
  | .ok (some data) =>
      match backend.serde.fromSlice data with
      | .error e => .error e
      | .ok data => .ok (some data.deserialize.rebuildDirNameIdx)

/-- What the backend relies on: values survive the codec, a committed write is what a read returns, and a
    write that fails is not seen. -/
structure Faithful (backend : RedbBackend Bytes Db) : Prop where
  codec : ∀ data, ∃ bytes, backend.serde.toVec data = .ok bytes ∧ backend.serde.fromSlice bytes = .ok data
  stored : ∀ bytes db, (backend.redb.insertGraph bytes db).1 = .ok () →
    backend.redb.getGraph (backend.redb.insertGraph bytes db).2 = .ok (some bytes)
  atomic : ∀ bytes db e, (backend.redb.insertGraph bytes db).1 = .error e →
    backend.redb.getGraph (backend.redb.insertGraph bytes db).2 = backend.redb.getGraph db

/-- A graph whose save reported success is what load returns, reloaded. -/
theorem Faithful.load_save {backend : RedbBackend Bytes Db} (h : backend.Faithful) {g : TypeGraph} {db : Db}
    (hsaved : (backend.save g db).1 = .ok ()) :
    backend.load (backend.save g db).2 = .ok (some g.reload) := by
  obtain ⟨bytes, hto, hfrom⟩ := h.codec g.serialize
  unfold save at hsaved ⊢
  rw [hto] at hsaved ⊢
  rw [load, h.stored bytes db hsaved]
  dsimp only
  rw [hfrom]
  rfl

/-- A save that failed is not seen. -/
theorem Faithful.load_failed {backend : RedbBackend Bytes Db} (h : backend.Faithful) {g : TypeGraph} {db : Db}
    {e : String} (hfailed : (backend.save g db).1 = .error e) :
    backend.load (backend.save g db).2 = backend.load db := by
  obtain ⟨bytes, hto, _⟩ := h.codec g.serialize
  unfold save at hfailed ⊢
  rw [hto] at hfailed ⊢
  rw [load, load, h.atomic bytes db e hfailed]

end RedbBackend

/-! ### Runs that are saved and loaded -/

/-- Ids that were issued, by allocator, oldest first. -/
structure Issued where
  inodes : List InodeId
  dirs : List DirId
  caps : List CapId
  blocks : List BlockId
  edges : List EdgeId
  xattrs : List XAttrId
deriving DecidableEq, Repr

namespace Issued

/-- What `TypeGraph::new` takes for the root. -/
def root : Issued := ⟨[1], [1], [], [], [1], []⟩

def none : Issued := ⟨[], [], [], [], [], []⟩

def append (ids new : Issued) : Issued where
  inodes := ids.inodes ++ new.inodes
  dirs := ids.dirs ++ new.dirs
  caps := ids.caps ++ new.caps
  blocks := ids.blocks ++ new.blocks
  edges := ids.edges ++ new.edges
  xattrs := ids.xattrs ++ new.xattrs

end Issued

/-- The directory a successful call returns as new. -/
def Reply.newDir : Reply → Option DirId
  | .created result => result.dirId
  | _ => none

/-- The block a successful call returns as new. -/
def Reply.newBlock : Reply → Option BlockId
  | .block id => some id
  | _ => none

/-- The attribute a successful call returns as new: setxattr also returns one that was there. -/
def Reply.newXattr (g : TypeGraph) : Reply → Option XAttrId
  | .xattr id => if id ∈ g.xattrs then none else some id
  | _ => none

/-- The edges that a successful call inserts, given its reply and the graph before it: the name it enters, with
    the "." and ".." of a new directory, the pointer to its block, the edge to its attribute, or the grants into
    its inode. -/
def Op.inserts (g : TypeGraph) (op : Op) (reply : Reply) (edge : Edge) : Bool :=
  match op, edge with
  | .createFile d n _ _ _, .contains _ src _ name => src = d ∧ name = n
  | .symlink d n _ _ _, .contains _ src _ name => src = d ∧ name = n
  | .link d n _, .contains _ src _ name => src = d ∧ name = n
  | .rename sd _ dd dn, .contains _ src _ name => sd ≠ dd ∧ src = dd ∧ name = dn
  | .mkdir d n _ _ _, .contains _ src _ name => (src = d ∧ name = n) ∨ reply.newDir = some src
  | .writeBlock .., .pointsTo _ _ tgt _ => reply.newBlock = some tgt
  | .setxattr .., .hasXattr _ _ tgt => reply.newXattr g = some tgt
  | .setacl t _, .grants _ _ tgt _ => tgt = t
  | _, _ => false

/-- The capability a grant comes from. -/
def Edge.grantor : Edge → Option CapId
  | .grants _ src _ _ => some src
  | _ => none

/-- The ids that a call from `g` to `g'` issues: the inode, directory, block and attribute of its reply, the
    edges it inserts, and the capabilities of the grants among them. A failing call issues none. -/
def Op.issues (g : TypeGraph) (op : Op) : Outcome Reply → TypeGraph → Issued
  | .ok reply, g' =>
      let inserted := (g'.edges.iter.map Prod.snd).filter (op.inserts g reply)
      { inodes := reply.newInode.toList
        dirs := reply.newDir.toList
        caps := inserted.filterMap Edge.grantor
        blocks := reply.newBlock.toList
        edges := inserted.map Edge.id
        xattrs := (reply.newXattr g).toList }
  | _, _ => .none

/-- The graphs reached from `TypeGraph::new()` by calls that satisfy `allowed` and, at any points, a save
    that succeeds followed by a load, which replaces the graph. -/
inductive StoredRun {Bytes Db : Type} (backend : RedbBackend Bytes Db)
    (allowed : TypeGraph → Op → TypeGraph → Prop) : TypeGraph → Issued → Prop where
  | new (now : Timestamp) : StoredRun backend allowed (.new now) .root
  | call {g : TypeGraph} {ids : Issued} (now : Nat → Timestamp) (op : Op) :
      StoredRun backend allowed g ids → allowed g op (op.apply now g).2 →
      StoredRun backend allowed (op.apply now g).2
        (ids.append (op.issues g (op.apply now g).1 (op.apply now g).2))
  | setCapCtx {g : TypeGraph} {ids : Issued} (ctx : CapContext) :
      StoredRun backend allowed g ids → StoredRun backend allowed (g.setCapCtx ctx) ids
  | enableProvLog {g : TypeGraph} {ids : Issued} :
      StoredRun backend allowed g ids → StoredRun backend allowed g.enableProvLog ids
  | disableProvLog {g : TypeGraph} {ids : Issued} :
      StoredRun backend allowed g ids → StoredRun backend allowed g.disableProvLog ids
  | saveLoad {g g' : TypeGraph} {ids : Issued} (db : Db) :
      StoredRun backend allowed g ids → (backend.save g db).1 = .ok () →
      backend.load (backend.save g db).2 = .ok (some g') → StoredRun backend allowed g' ids

end SotFs
